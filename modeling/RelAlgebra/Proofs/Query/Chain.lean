import RelAlgebra.Query.Verdict

/-!
# Chains as lists

A chain is seen here as the list of its operands and the list of its operators. The check of a chain
is described in these terms: what is wrong inside the operands comes from left to right, the kind is
that of the first operand or that of a comparison, and `Scalar.operators_check_eq_nil_iff` says when
nothing is wrong with the operators, which depends on the kinds of all operands and, for
comparisons, on where an operator stands. `Scalar.induction_on_operands` is the induction over trees
that goes from the operands of a chain to the chain.
-/

namespace RelAlgebra

namespace Scalar

/-- The operands of a chain, from left to right. -/
def operands : {tier : Tier} → Scalar (.chain tier) → List (Scalar tier.operand)
  | _, last operand => [operand]
  | _, link operand _ _ rest => operand :: rest.operands

/-- The operators of a chain with their words, from left to right. -/
def operators : {tier : Tier} → Scalar (.chain tier) → List (tier.Op × Lexeme)
  | _, last _ => []
  | _, link _ op mark rest => (op, mark) :: rest.operators

/-- The last two operands of a chain, or the only one. -/
def lastTwo {tier : Tier} (c : Scalar (.chain tier)) : List (Scalar tier.operand) :=
  c.operands.drop (c.operands.length - 2)

/-- A chain without operators has one operand. -/
@[simp] theorem operands_last {tier : Tier} (operand : Scalar tier.operand) :
    (last operand).operands = [operand] := by rw [operands]

/-- The first operand stands before those of the rest of the chain. -/
@[simp] theorem operands_link {tier : Tier} (operand : Scalar tier.operand) (op : tier.Op)
    (mark : Lexeme) (rest : Scalar (.chain tier)) :
    (link operand op mark rest).operands = operand :: rest.operands := by rw [operands]

/-- A single operand has no operators. -/
@[simp] theorem operators_last {tier : Tier} (operand : Scalar tier.operand) :
    (last operand).operators = [] := by rw [operators]

/-- The first operator stands before those of the rest of the chain. -/
@[simp] theorem operators_link {tier : Tier} (operand : Scalar tier.operand) (op : tier.Op)
    (mark : Lexeme) (rest : Scalar (.chain tier)) :
    (link operand op mark rest).operators = (op, mark) :: rest.operators := by rw [operators]

/-- There is one more operand than there are operators. -/
theorem length_operands : {tier : Tier} → (c : Scalar (.chain tier)) →
    c.operands.length = c.operators.length + 1
  | _, last _ => by simp
  | _, link _ _ _ rest => by simp [rest.length_operands]

/-- One more operand in front is not among the last two, if there are two already. -/
theorem lastTwo_link {tier : Tier} {operand : Scalar tier.operand} {op : tier.Op} {mark : Lexeme}
    {rest : Scalar (.chain tier)} (h : rest.operators ≠ []) :
    (link operand op mark rest).lastTwo = rest.lastTwo := by
  have hpos : 0 < rest.operators.length := List.length_pos_iff.2 h
  have hlen := rest.length_operands
  unfold lastTwo
  rw [operands_link, List.length_cons,
    show rest.operands.length + 1 - 2 = rest.operands.length - 2 + 1 by omega, List.drop_succ_cons]

/-- What holds of a chain whenever it holds of its operands, and of all other expressions whenever
it holds of what is inside of them, holds of every expression. -/
theorem induction_on_operands {P : (level : Level) → Scalar level → Prop}
    (attr : ∀ name, P _ (.attr name)) (literal : ∀ kind word, P _ (.literal kind word))
    (paren : ∀ inner, P _ inner → P _ (.paren inner))
    (plain : ∀ operand, P _ operand → P _ (.plain operand))
    (instanceOf : ∀ operand type, P _ operand → P _ (.instanceOf operand type))
    (chain : ∀ (tier : Tier) (c : Scalar (.chain tier)), (∀ o ∈ c.operands, P _ o) → P _ c)
    {level : Level} (e : Scalar level) : P _ e := by
  -- The operands of the rest of a chain are not seen from the rest itself, so they come along.
  have h : P _ e ∧ ∀ tier (hl : level = .chain tier), ∀ o ∈ (hl ▸ e).operands, P _ o := by
    induction e with
    | attr name => exact ⟨attr name, nofun⟩
    | literal kind word => exact ⟨literal kind word, nofun⟩
    | paren inner ih => exact ⟨paren inner ih.1, nofun⟩
    | plain operand ih => exact ⟨plain operand ih.1, nofun⟩
    | instanceOf operand type ih => exact ⟨instanceOf operand type ih.1, nofun⟩
    | @last tier operand ih =>
      have hall : ∀ o ∈ (last operand).operands, P _ o := by
        intro o ho
        rw [operands_last, List.mem_singleton] at ho
        rw [ho]
        exact ih.1
      exact ⟨chain tier _ hall, by rintro _ ⟨⟩; exact hall⟩
    | @link tier operand op mark rest ih ihrest =>
      have hall : ∀ o ∈ (link operand op mark rest).operands, P _ o := by
        intro o ho
        rw [operands_link] at ho
        rcases List.mem_cons.1 ho with rfl | ho
        · exact ih.1
        · exact ihrest.2 tier rfl o ho
      exact ⟨chain tier _ hall, by rintro _ ⟨⟩; exact hall⟩
  exact h.1

/-! ## The check of a chain -/

variable (s : Schema)

/-- What is wrong inside the operands of a chain, from left to right. -/
theorem operands_check : {tier : Tier} → (c : Scalar (.chain tier)) →
    (c.check s).operands = c.operands.flatMap fun o => (o.check s).diagnostics
  | _, last operand => by simp [check]
  | _, link operand _ _ rest => by simp [check, rest.operands_check]

/-- The kind of a chain that compares is that of a truth value. -/
theorem kind_check_comparison : (c : Scalar (.chain .comparison)) → c.operators ≠ [] →
    (c.check s).kind = .boolean
  | last _, h => absurd (operators_last _) h
  | link _ _ _ _, _ => rfl

/-- The kind of any other chain is that of its first operand. -/
theorem kind_check_of_ne : {tier : Tier} → tier ≠ .comparison → (c : Scalar (.chain tier)) →
    ∃ o ∈ c.operands, (c.check s).kind = (o.check s).kind
  | _, _, last operand => ⟨operand, by simp, rfl⟩
  | .logical, _, link operand _ _ _ => ⟨operand, by simp, rfl⟩
  | .additive, _, link operand _ _ _ => ⟨operand, by simp, rfl⟩
  | .multiplicative, _, link operand _ _ _ => ⟨operand, by simp, rfl⟩

end Scalar

namespace Tier

/-- The kind that the operators of a tier want on both sides; of the comparisons, this holds for
those of size. -/
def demand : Tier → Kind
  | .logical => .boolean
  | .comparison | .additive | .multiplicative => .numeric

/-- Except for comparisons, both sides have to be of the kind that is wanted. -/
theorem complaints_eq_nil_iff {tier : Tier} (h : tier ≠ .comparison) (op : tier.Op) (mark : Lexeme)
    (l r : Kind) : tier.complaints op mark l r = [] ↔ l = tier.demand ∧ r = tier.demand := by
  cases tier with
  | comparison => exact absurd rfl h
  | logical | additive | multiplicative =>
    unfold complaints violation? demand
    split <;> simp_all

/-- Comparisons of size want numbers on both sides, the others want nothing. -/
theorem complaints_comparison_eq_nil_iff (op : CompareOp) (mark : Lexeme) (l r : Kind) :
    Tier.comparison.complaints op mark l r = [] ↔
      (op.isOrdering = true → l = .numeric ∧ r = .numeric) := by
  unfold complaints violation?
  split <;> simp_all

end Tier

namespace Scalar

variable (s : Schema)

/-- Except for comparisons, nothing is wrong with the operators of a chain exactly if all operands
are of the kind that is wanted. -/
theorem operators_check_eq_nil_iff : {tier : Tier} → tier ≠ .comparison →
    (c : Scalar (.chain tier)) → c.operators ≠ [] →
      ((c.check s).operators = [] ↔ ∀ o ∈ c.operands, (o.check s).kind = tier.demand)
  | _, _, last _, hops => absurd (operators_last _) hops
  | tier, h, link operand op mark (last next), _ => by
    simp [check, Tier.complaints_eq_nil_iff h]
  | tier, h, link operand op mark (link next op' mark' rest), _ => by
    have ih := operators_check_eq_nil_iff h (link next op' mark' rest) (by simp)
    -- What stands after the first operator is of the kind of one of the other operands.
    obtain ⟨o, ho, hkind⟩ := kind_check_of_ne s h (link next op' mark' rest)
    rw [check, List.append_eq_nil_iff, ih, Tier.complaints_eq_nil_iff h, hkind,
      operands_link operand, List.forall_mem_cons]
    constructor
    · rintro ⟨hall, hoperand, -⟩
      exact ⟨hoperand, hall⟩
    · rintro ⟨hoperand, hall⟩
      exact ⟨hall, hoperand, hall o ho⟩

/-- Nothing is wrong with the operators of a chain of comparisons exactly if none but the last one
compares sizes, and that one only numbers. All others have a truth value on their right. -/
theorem operators_check_comparison_eq_nil_iff : (c : Scalar (.chain .comparison)) →
    ((c.check s).operators = [] ↔
      (∀ op ∈ c.operators.dropLast, op.1.isOrdering = false) ∧
      ∀ op ∈ c.operators.getLast?, op.1.isOrdering = true →
        ∀ o ∈ c.lastTwo, (o.check s).kind = .numeric)
  | last _ => by simp [check]
  | link operand op mark (last next) => by
    simp [check, Tier.complaints_comparison_eq_nil_iff, lastTwo]
  | link operand op mark (link next op' mark' rest) => by
    have ih := operators_check_comparison_eq_nil_iff (link next op' mark' rest)
    have hkind := kind_check_comparison s (link next op' mark' rest) (by simp)
    -- No truth value is a number, so the first operator must not compare sizes.
    have hsize : (op.isOrdering = true →
        (operand.check s).kind = .numeric ∧ Kind.boolean = .numeric) ↔ op.isOrdering = false := by
      simp
    have htwo : (link operand op mark (link next op' mark' rest)).lastTwo =
        (link next op' mark' rest).lastTwo := lastTwo_link (by simp)
    rw [check, List.append_eq_nil_iff, ih, Tier.complaints_comparison_eq_nil_iff, hkind, hsize,
      htwo, operators_link operand, operators_link, List.dropLast_cons_cons, List.forall_mem_cons,
      List.getLast?_cons_cons]
    constructor
    · rintro ⟨⟨hfirst, hlast⟩, hop⟩
      exact ⟨⟨hop, hfirst⟩, hlast⟩
    · rintro ⟨⟨hop, hfirst⟩, hlast⟩
      exact ⟨⟨hfirst, hlast⟩, hop⟩

end Scalar

end RelAlgebra
