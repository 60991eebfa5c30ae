import RelAlgebra.Proofs.Query.Chain

/-!
# The kinds of predicates

The rules that say which predicates are well typed and of which kind they are, and the proof that
the check of a predicate decides them. The rules speak of the operands and the operators of a chain
as lists and know nothing of the order in which the check visits them.
-/

namespace RelAlgebra

namespace Scalar

mutual

/-- The expression is of the given kind, on tuples with the given schema. -/
inductive HasKind (s : Schema) : {level : Level} → Scalar level → Kind → Prop where
  | attr {name : Lexeme} {a : Attribute} (h : s.find? name.text = some a) :
    HasKind s (.attr name) a.type.kind
  | literal {kind : LiteralKind} {word : Lexeme} : HasKind s (.literal kind word) kind.kind
  | paren {inner : Scalar (.chain .comparison)} {k : Kind} (h : HasKind s inner k) :
    HasKind s (.paren inner) k
  | plain {operand : Scalar (.chain .additive)} {k : Kind} (h : HasKind s operand k) :
    HasKind s (.plain operand) k
  /-- Whether a sum has a type can be asked of every sum. -/
  | instanceOf {operand : Scalar (.chain .additive)} {type : DataType} :
    HasKind s (.instanceOf operand type) .boolean
  /-- A chain without operators is its only operand. -/
  | last {tier : Tier} {operand : Scalar tier.operand} {k : Kind} (h : HasKind s operand k) :
    HasKind s (.last operand) k
  /-- Truth values are joined to a truth value. -/
  | logical {c : Scalar (.chain .logical)} (hops : c.operators ≠ [])
      (h : ∀ o ∈ c.operands, HasKind s o .boolean) : HasKind s c .boolean
  /-- Anything may be compared, but sizes are compared at the end of the chain only, and there they
  are those of numbers. -/
  | comparison {c : Scalar (.chain .comparison)} (hops : c.operators ≠ [])
      (h : ∀ o ∈ c.operands, WellTyped s o)
      (hfirst : ∀ op ∈ c.operators.dropLast, op.1.isOrdering = false)
      (hlast : ∀ op ∈ c.operators.getLast?, op.1.isOrdering = true →
        ∀ o ∈ c.lastTwo, HasKind s o .numeric) : HasKind s c .boolean
  /-- Numbers are added to a number. -/
  | additive {c : Scalar (.chain .additive)} (hops : c.operators ≠ [])
      (h : ∀ o ∈ c.operands, HasKind s o .numeric) : HasKind s c .numeric
  /-- Numbers are multiplied to a number. -/
  | multiplicative {c : Scalar (.chain .multiplicative)} (hops : c.operators ≠ [])
      (h : ∀ o ∈ c.operands, HasKind s o .numeric) : HasKind s c .numeric

/-- The expression is of some kind. -/
inductive WellTyped (s : Schema) : {level : Level} → Scalar level → Prop where
  | intro {level : Level} {e : Scalar level} {k : Kind} (h : HasKind s e k) : WellTyped s e

end

variable {s : Schema}

/-- An expression is well typed if there is a kind that it has. -/
theorem wellTyped_iff {level : Level} {e : Scalar level} : e.WellTyped s ↔ ∃ k, e.HasKind s k :=
  ⟨fun ⟨h⟩ => ⟨_, h⟩, fun ⟨_, h⟩ => ⟨h⟩⟩

/-! ## What the rules say of a chain -/

/-- A chain without operators is of the kinds of its only operand. -/
theorem hasKind_last_iff {tier : Tier} {operand : Scalar tier.operand} {k : Kind} :
    (last operand).HasKind s k ↔ operand.HasKind s k := by
  constructor
  · intro h
    cases h with
    | last h => exact h
    | logical hops _ | comparison hops _ _ _ | additive hops _ | multiplicative hops _ =>
      exact absurd (operators_last _) hops
  · exact .last

/-- Except for comparisons, the operands of a chain have to be of the kind that is wanted, which is
the kind of the chain. -/
theorem hasKind_iff_of_ne {tier : Tier} (htier : tier ≠ .comparison) {c : Scalar (.chain tier)}
    (hops : c.operators ≠ []) {k : Kind} :
    c.HasKind s k ↔ (∀ o ∈ c.operands, o.HasKind s tier.demand) ∧ k = tier.demand := by
  constructor
  · intro h
    cases h with
    | last _ => exact absurd (operators_last _) hops
    | comparison => exact absurd rfl htier
    | logical _ h | additive _ h | multiplicative _ h => exact ⟨h, rfl⟩
  · rintro ⟨h, rfl⟩
    cases tier with
    | comparison => exact absurd rfl htier
    | logical => exact .logical hops h
    | additive => exact .additive hops h
    | multiplicative => exact .multiplicative hops h

/-- What is asked of a chain of comparisons, if `Q` tells which operands are of which kind. -/
def Compares (Q : Scalar .test → Kind → Prop) (c : Scalar (.chain .comparison)) : Prop :=
  (∀ o ∈ c.operands, ∃ k, Q o k) ∧ (∀ op ∈ c.operators.dropLast, op.1.isOrdering = false) ∧
    ∀ op ∈ c.operators.getLast?, op.1.isOrdering = true → ∀ o ∈ c.lastTwo, Q o .numeric

/-- It depends on what `Q` tells of the operands only. -/
theorem compares_congr {Q R : Scalar .test → Kind → Prop} {c : Scalar (.chain .comparison)}
    (h : ∀ o ∈ c.operands, ∀ k, Q o k ↔ R o k) : c.Compares Q ↔ c.Compares R := by
  have hmem : ∀ o ∈ c.lastTwo, o ∈ c.operands := fun o ho => List.mem_of_mem_drop ho
  refine and_congr (forall₂_congr fun o ho => exists_congr (h o ho)) (and_congr_right' ?_)
  exact forall₂_congr fun op _ => imp_congr_right fun _ =>
    forall₂_congr fun o ho => h o (hmem o ho) .numeric

/-- The rule for comparisons, read in both directions. -/
theorem hasKind_comparison_iff {c : Scalar (.chain .comparison)} (hops : c.operators ≠ [])
    {k : Kind} : c.HasKind s k ↔ c.Compares (HasKind s) ∧ k = .boolean := by
  constructor
  · intro h
    cases h with
    | last _ => exact absurd (operators_last _) hops
    | comparison _ h hfirst hlast =>
      exact ⟨⟨fun o ho => wellTyped_iff.1 (h o ho), hfirst, hlast⟩, rfl⟩
  · rintro ⟨⟨h, hfirst, hlast⟩, rfl⟩
    exact .comparison hops (fun o ho => wellTyped_iff.2 (h o ho)) hfirst hlast

/-! ## The check decides the rules -/

/-- The check finds nothing wrong with the expression, and gives it the kind. -/
def Passes (s : Schema) {level : Level} (e : Scalar level) (k : Kind) : Prop :=
  (e.check s).diagnostics = [] ∧ (e.check s).kind = k

/-- Parentheses pass with what they enclose. -/
theorem passes_paren {inner : Scalar (.chain .comparison)} {k : Kind} :
    (paren inner).Passes s k ↔ inner.Passes s k := by
  simp [Passes, check, Verdict.diagnostics]

/-- An operand that is not tested for a type passes as it is. -/
theorem passes_plain {operand : Scalar (.chain .additive)} {k : Kind} :
    (plain operand).Passes s k ↔ operand.Passes s k := by
  simp [Passes, check, Verdict.diagnostics]

/-- A chain without operators passes with its only operand. -/
theorem passes_last {tier : Tier} {operand : Scalar tier.operand} {k : Kind} :
    (last operand).Passes s k ↔ operand.Passes s k := by
  simp [Passes, check, Verdict.diagnostics]

/-- Nothing is wrong with a chain exactly if nothing is wrong inside the operands and with the
operators. -/
theorem diagnostics_check_eq_nil_iff {tier : Tier} (c : Scalar (.chain tier)) :
    (c.check s).diagnostics = [] ↔
      (∀ o ∈ c.operands, (o.check s).diagnostics = []) ∧ (c.check s).operators = [] := by
  unfold Verdict.diagnostics
  rw [List.append_eq_nil_iff, operands_check, List.flatMap_eq_nil_iff]
  rfl

/-- Except for comparisons, a chain passes exactly if its operands pass as the kind that is wanted,
which is the kind of the chain. -/
theorem passes_iff_of_ne {tier : Tier} (htier : tier ≠ .comparison) {c : Scalar (.chain tier)}
    (hops : c.operators ≠ []) {k : Kind} :
    c.Passes s k ↔ (∀ o ∈ c.operands, o.Passes s tier.demand) ∧ k = tier.demand := by
  unfold Passes
  rw [diagnostics_check_eq_nil_iff, operators_check_eq_nil_iff s htier c hops]
  -- The chain takes its kind from one of its operands, which all have the same.
  obtain ⟨o, ho, hkind⟩ := kind_check_of_ne s htier c
  constructor
  · rintro ⟨⟨hclean, hkinds⟩, rfl⟩
    exact ⟨fun o ho => ⟨hclean o ho, hkinds o ho⟩, hkind.trans (hkinds o ho)⟩
  · rintro ⟨h, rfl⟩
    exact ⟨⟨fun o ho => (h o ho).1, fun o ho => (h o ho).2⟩, hkind.trans (h o ho).2⟩

/-- The check of a chain of comparisons asks the same of the operands that pass as the rule does of
those that have a kind. -/
theorem passes_comparison_iff {c : Scalar (.chain .comparison)} (hops : c.operators ≠ [])
    {k : Kind} : c.Passes s k ↔ c.Compares (Passes s) ∧ k = .boolean := by
  have hmem : ∀ o ∈ c.lastTwo, o ∈ c.operands := fun o ho => List.mem_of_mem_drop ho
  unfold Passes
  rw [diagnostics_check_eq_nil_iff, operators_check_comparison_eq_nil_iff,
    kind_check_comparison s c hops]
  constructor
  · rintro ⟨⟨hclean, hfirst, hlast⟩, rfl⟩
    refine ⟨⟨fun o ho => ⟨_, hclean o ho, rfl⟩, hfirst, ?_⟩, rfl⟩
    exact fun op hop hord o ho => ⟨hclean o (hmem o ho), hlast op hop hord o ho⟩
  · rintro ⟨⟨hclean, hfirst, hlast⟩, rfl⟩
    refine ⟨⟨fun o ho => ?_, hfirst, ?_⟩, rfl⟩
    · obtain ⟨_, h, -⟩ := hclean o ho
      exact h
    · exact fun op hop hord o ho => (hlast op hop hord o ho).2

/-- The rules give an expression a kind exactly if the check does and finds nothing wrong. -/
theorem hasKind_iff_passes {level : Level} (e : Scalar level) :
    ∀ k, e.HasKind s k ↔ e.Passes s k := by
  induction e using induction_on_operands with
  | attr name =>
    intro k
    unfold Passes
    rw [check]
    -- The name is looked up, and what is found has the kind.
    constructor
    · intro h
      cases h with
      | attr h => simp [h, Verdict.diagnostics]
    · intro h
      cases hf : s.find? name.text with
      | some a =>
        rw [hf] at h
        obtain ⟨-, rfl⟩ := h
        exact .attr hf
      | none => simp [hf, Verdict.diagnostics] at h
  | literal kind word =>
    intro k
    constructor
    · intro h
      cases h
      exact ⟨rfl, rfl⟩
    · rintro ⟨-, rfl⟩
      exact .literal
  | paren inner ih =>
    intro k
    rw [passes_paren, ← ih k]
    constructor
    · intro h
      cases h with
      | paren h => exact h
    · exact .paren
  | plain operand ih =>
    intro k
    rw [passes_plain, ← ih k]
    constructor
    · intro h
      cases h with
      | plain h => exact h
    · exact .plain
  | instanceOf operand type _ =>
    intro k
    constructor
    · intro h
      cases h
      exact ⟨rfl, rfl⟩
    · rintro ⟨-, rfl⟩
      exact .instanceOf
  | chain tier c ih =>
    intro k
    by_cases hops : c.operators = []
    · -- The chain is its only operand.
      cases c with
      | last operand =>
        rw [hasKind_last_iff, passes_last]
        exact ih operand (by simp) k
      | link operand op mark rest => simp at hops
    · by_cases htier : tier = .comparison
      · -- Comparisons ask one thing of all operands and another of the last two.
        subst htier
        rw [hasKind_comparison_iff hops, passes_comparison_iff hops, compares_congr ih]
      · -- All other operators ask the same of every operand.
        rw [hasKind_iff_of_ne htier hops, passes_iff_of_ne htier hops]
        exact and_congr_left' (forall₂_congr fun o ho => ih o ho _)

/-- The check of a predicate is sound and complete for the rules: it finds nothing wrong exactly if
the predicate is well typed, and the kind that the rules give to it is then the one that the check
returns. -/
theorem check_sound_complete (s : Schema) {level : Level} (e : Scalar level) :
    ((e.check s).diagnostics = [] ↔ e.WellTyped s) ∧
      ∀ k, e.HasKind s k ↔ (e.check s).diagnostics = [] ∧ (e.check s).kind = k := by
  refine ⟨?_, e.hasKind_iff_passes⟩
  rw [wellTyped_iff]
  constructor
  · intro h
    exact ⟨_, (e.hasKind_iff_passes _).2 ⟨h, rfl⟩⟩
  · rintro ⟨k, hk⟩
    exact ((e.hasKind_iff_passes k).1 hk).1

end Scalar

end RelAlgebra
