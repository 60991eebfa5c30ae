import RelAlgebra.Diagnostic
import RelAlgebra.Schema

/-!
# Checking predicates

A predicate is checked against a schema. The verdict tells the kind of its value and what is wrong
with it. A chain is checked in two sweeps. The first visits the operands from left to right. The
second visits the operators from right to left, and compares for each one the kind of the operand
before it with the kind of all that stands after it, as if the chain were bracketed to the right.
-/

namespace RelAlgebra

/-- The result of checking a scalar expression. -/
structure Verdict where
  kind : Kind
  /-- What is wrong inside the operands of a chain, from left to right. -/
  operands : List Diagnostic
  /-- What is wrong with the operators of a chain, from right to left. -/
  operators : List Diagnostic
  deriving DecidableEq, Repr

/-- All that is wrong, in the order in which it is found. -/
def Verdict.diagnostics (v : Verdict) : List Diagnostic := v.operands ++ v.operators

namespace Tier

/-- The kind of a chain whose first operand has the given kind. -/
def resultKind : Tier → Kind → Kind
  | .comparison, _ => .boolean
  | _, first => first

/-- What is wrong with an operator between values of the given kinds. -/
def violation? : (tier : Tier) → tier.Op → String → Kind → Kind → Option Violation
  | .logical, _, word, left, right =>
    if left = .boolean ∧ right = .boolean then none else some (.nonBooleanOperand word)
  | .comparison, op, word, left, right =>
    if op.isOrdering = false ∨ left = .numeric ∧ right = .numeric then none
    else some (.nonNumericComparison word)
  | .additive, _, word, left, right =>
    if left = .numeric ∧ right = .numeric then none else some (.nonNumericArithmetic word)
  | .multiplicative, _, word, left, right =>
    if left = .numeric ∧ right = .numeric then none else some (.nonNumericArithmetic word)

/-- The diagnostics, at most one, for an operator between values of the given kinds. -/
def complaints (tier : Tier) (op : tier.Op) (mark : Lexeme) (left right : Kind) : List Diagnostic :=
  ((tier.violation? op mark.text left right).map (⟨·, mark.loc⟩)).toList

end Tier

/-- Checks a scalar expression. The operand of a type test is not looked at. -/
def Scalar.check (s : Schema) : {level : Level} → Scalar level → Verdict
  | _, attr name =>
    match s.find? name.text with
    | some a => ⟨a.type.kind, [], []⟩
    | none => ⟨.unknown, [.missingAttribute name], []⟩
  | _, literal kind _ => ⟨kind.kind, [], []⟩
  | _, paren inner =>
    let v := inner.check s
    ⟨v.kind, v.diagnostics, []⟩
  | _, plain operand =>
    let v := operand.check s
    ⟨v.kind, v.diagnostics, []⟩
  | _, instanceOf _ _ => ⟨.boolean, [], []⟩
  | _, last operand =>
    let v := operand.check s
    ⟨v.kind, v.diagnostics, []⟩
  | _, @link tier operand op mark rest =>
    let v := operand.check s
    let w := rest.check s
    ⟨tier.resultKind v.kind, v.diagnostics ++ w.operands,
      w.operators ++ tier.complaints op mark v.kind w.kind⟩

end RelAlgebra
