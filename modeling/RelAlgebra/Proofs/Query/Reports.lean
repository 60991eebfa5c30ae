import RelAlgebra.Proofs.Query.Chain

/-!
# What is reported for a chain

The check of a chain goes over the operators from the last to the first and carries along the kind
of what stands on the right. `Scalar.check_reports` says what comes out of it without reference to
that kind: whether an operator is reported depends on the operator, on the kinds of the two operands
next to it, and, for a comparison, on whether it is the last one.
-/

namespace RelAlgebra

namespace Tier

/-- What is wrong with an operator of the tier that is at fault; `word` spells it. -/
def fault (word : String) : Tier → Violation
  | .logical => .nonBooleanOperand word
  | .comparison => .nonNumericComparison word
  | .additive | .multiplicative => .nonNumericArithmetic word

/-- Whether an operator between two operands of kinds `l` and `r` is at fault. The flag tells that
it is the last operator of its chain: before the last one, no comparison of sizes is right. -/
def atFault : (tier : Tier) → tier.Op → Bool → Kind → Kind → Bool
  | .logical, _, _, l, r => l ≠ .boolean || r ≠ .boolean
  | .comparison, op, isLast, l, r => op.isOrdering && (!isLast || l ≠ .numeric || r ≠ .numeric)
  | .additive, _, _, l, r => l ≠ .numeric || r ≠ .numeric
  | .multiplicative, _, _, l, r => l ≠ .numeric || r ≠ .numeric

/-- The complaint about an operator is the one that its neighbours call for, although it is made for
the kind of all that stands to the right of the operator. -/
theorem complaints_eq {tier : Tier} (op : tier.Op) (mark : Lexeme) (isLast : Bool)
    {l r right : Kind}
    (hright : right = if tier = .comparison ∧ isLast = false then .boolean else r) :
    tier.complaints op mark l right =
      (if tier.atFault op isLast l r then some ⟨tier.fault mark.text, mark.loc⟩
        else none : Option Diagnostic).toList := by
  subst hright
  unfold complaints
  congr 1
  cases tier with
  | comparison =>
    -- To the right of an operator that is not the last one stands a truth value.
    cases isLast <;> simp only [violation?, atFault, fault] <;> grind
  | logical | additive | multiplicative =>
    simp only [violation?, atFault, fault]
    grind

end Tier

namespace Scalar

variable (s : Schema) {tier : Tier}

/-- The kinds of the operands of a chain, from left to right. -/
def kinds (c : Scalar (.chain tier)) : List Kind := c.operands.map fun o => (o.check s).kind

/-- What is reported for the operator with the given number, counted from zero. It stands between
the operand of the same number and the next one. -/
def report? (c : Scalar (.chain tier)) (i : Nat) : Option Diagnostic :=
  match c.operators[i]?, (c.kinds s)[i]?, (c.kinds s)[i + 1]? with
  | some (op, mark), some l, some r =>
    if tier.atFault op (i + 1 = c.operators.length) l r then
      some ⟨tier.fault mark.text, mark.loc⟩
    else
      none
  | _, _, _ => none

/-- A single operand gives one kind. -/
@[simp] theorem kinds_last (operand : Scalar tier.operand) :
    (last operand).kinds s = [(operand.check s).kind] := by
  simp [kinds]

/-- The kind of the first operand stands before those of the rest of the chain. -/
@[simp] theorem kinds_link (operand : Scalar tier.operand) (op : tier.Op) (mark : Lexeme)
    (rest : Scalar (.chain tier)) :
    (link operand op mark rest).kinds s = (operand.check s).kind :: rest.kinds s := by
  simp [kinds]

/-- The kind of a chain: that of a truth value if it compares, else that of its first operand. -/
theorem exists_kind_check (c : Scalar (.chain tier)) : ∃ k, (c.kinds s)[0]? = some k ∧
    (c.check s).kind = if tier = .comparison ∧ c.operators ≠ [] then .boolean else k := by
  cases c with
  | last operand => exact ⟨(operand.check s).kind, by simp, by simp [check]⟩
  | link operand op mark rest =>
    refine ⟨(operand.check s).kind, by simp, ?_⟩
    cases tier <;> simp [check, Tier.resultKind]

/-- The operators after the first one are reported as those of the rest of the chain. -/
theorem report?_link_succ (operand : Scalar tier.operand) (op : tier.Op) (mark : Lexeme)
    (rest : Scalar (.chain tier)) (i : Nat) :
    (link operand op mark rest).report? s (i + 1) = rest.report? s i := by
  simp [report?]

/-- The first operator is reported for the operand before it and the one after it. -/
theorem toList_report?_link_zero (operand : Scalar tier.operand) (op : tier.Op) (mark : Lexeme)
    (rest : Scalar (.chain tier)) :
    ((link operand op mark rest).report? s 0).toList =
      tier.complaints op mark (operand.check s).kind (rest.check s).kind := by
  obtain ⟨k, hk, hkind⟩ := rest.exists_kind_check s
  rw [Tier.complaints_eq op mark (rest.operators = []) (r := k) (by simpa using hkind)]
  simp [report?, hk]

/-- What is reported for the operators of a chain, from the last one to the first one. -/
theorem operators_check : {tier : Tier} → (c : Scalar (.chain tier)) →
    (c.check s).operators = (List.range c.operators.length).reverse.filterMap (c.report? s)
  | _, last _ => by simp [check]
  | _, link operand op mark rest => by
    -- Without its first operator, the chain is reported like its rest.
    have hsucc : (link operand op mark rest).report? s ∘ Nat.succ = rest.report? s :=
      funext (report?_link_succ s operand op mark rest)
    have hzero : [0].filterMap ((link operand op mark rest).report? s) =
        ((link operand op mark rest).report? s 0).toList := by
      rw [List.filterMap_cons]
      cases (link operand op mark rest).report? s 0 <;> rfl
    rw [operators_link, List.length_cons, List.range_succ_eq_map, List.reverse_cons,
      List.filterMap_append, ← List.map_reverse, List.filterMap_map, hsucc, ← rest.operators_check,
      hzero, toList_report?_link_zero, check]

/-- What the check of a chain with operators comes to. What is wrong inside the operands is reported
first, from left to right, and then at most once each operator, from the last one to the first one.
The chain is of the kind of its first operand, or of that of a truth value if it compares. -/
theorem check_reports (c : Scalar (.chain tier)) (hops : c.operators ≠ []) :
    (c.kinds s).length = c.operators.length + 1 ∧
    (c.check s).diagnostics = (c.operands.flatMap fun o => (o.check s).diagnostics) ++
      (List.range c.operators.length).reverse.filterMap (c.report? s) ∧
    some (c.check s).kind = if tier = .comparison then some .boolean else (c.kinds s)[0]? := by
  refine ⟨?_, ?_, ?_⟩
  · rw [kinds, List.length_map, length_operands]
  · rw [Verdict.diagnostics, operands_check, operators_check]
  · obtain ⟨k, hk, hkind⟩ := c.exists_kind_check s
    rw [hkind, hk]
    simp only [hops, ne_eq, not_false_eq_true, and_true]
    split <;> rfl

/-- The chain `1 < ghost = 2 > name`. Its first comparison of sizes is not the last operator, and
its last one compares a number with a text. -/
theorem check_reports_sizes :
    let word (text : String) (column : Nat) : Lexeme := ⟨text, ⟨1, column⟩⟩
    let test (f : Scalar .factor) : Scalar .test := .plain (.last (.last f))
    let c : Scalar (.chain .comparison) :=
      .link (test (.literal .integer (word "1" 1))) .lt (word "<" 3)
        (.link (test (.attr (word "ghost" 5))) .eq (word "=" 11)
          (.link (test (.literal .integer (word "2" 13))) .gt (word ">" 15)
            (.last (test (.attr (word "name" 17))))))
    c.operators ≠ [] ∧ (c.check ⟨[⟨"name", .text⟩]⟩).kind = .boolean ∧
      (c.check ⟨[⟨"name", .text⟩]⟩).diagnostics =
        [⟨.unknownAttribute "ghost", ⟨1, 5⟩⟩, ⟨.nonNumericComparison ">", ⟨1, 15⟩⟩,
          ⟨.nonNumericComparison "<", ⟨1, 3⟩⟩] := by
  intro word test c
  have hops : c.operators ≠ [] := by simp [c]
  obtain ⟨-, hdiagnostics, hkind⟩ := check_reports ⟨[⟨"name", .text⟩]⟩ c hops
  refine ⟨hops, Option.some.inj hkind, hdiagnostics.trans ?_⟩
  simp [c, test, word, List.range_succ, report?, check, Verdict.diagnostics, Tier.atFault,
    Tier.fault, CompareOp.isOrdering, Schema.find?, Diagnostic.missingAttribute, LiteralKind.kind,
    DataType.kind]

end Scalar

end RelAlgebra
