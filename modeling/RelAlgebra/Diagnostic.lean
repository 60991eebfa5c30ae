import RelAlgebra.Query.Basic

/-!
# Diagnostics

What can be wrong with a query whose text is in the language. A diagnostic is a violation together
with the place of the word that shows it.
-/

namespace RelAlgebra

/-- The ways in which a query violates the schemas. -/
inductive Violation where
  | unknownRelation (name : String)
  | unknownAttribute (name : String)
  | arityMismatch (op : BinaryOp)
  | invalidDivision (word : String)
  /-- The operand of a closure does not have two attributes. -/
  | invalidArity (found : Nat)
  | nonNumericComparison (op : String)
  | nonNumericArithmetic (op : String)
  | nonBooleanOperand (op : String)
  deriving DecidableEq, Repr

/-- The text that describes a violation. -/
def Violation.message : Violation → String
  | unknownRelation name => s!"Relation does not exist: \"{name}\""
  | unknownAttribute name => s!"Attribute does not exist: \"{name}\""
  | arityMismatch op =>
    s!"For the {op.name} operation, the relations must have the same number of attributes"
  | invalidDivision word =>
    s!"The divisor of the operation must be a subset of the dividend: \"{word}\""
  | invalidArity found =>
    s!"Transitive closure requires a binary relation, found {found} attribute(s)"
  | nonNumericComparison op => s!"Size comparator '{op}' requires two numeric operands"
  | nonNumericArithmetic op => s!"Operator '{op}' requires two numeric operands"
  | nonBooleanOperand op => s!"Logical operator '{op}' requires two boolean operands"

/-- A violation at a place in the query's text. -/
structure Diagnostic where
  violation : Violation
  loc : Location
  deriving DecidableEq, Repr

namespace Diagnostic

/-- The text without the place. -/
def message (d : Diagnostic) : String := d.violation.message

/-- The text with the place. -/
def render (d : Diagnostic) : String :=
  s!"{d.message} at line {d.loc.line}, column {d.loc.column}"

/-- The diagnostic for a name that no attribute has. -/
def missingAttribute (name : Lexeme) : Diagnostic := ⟨.unknownAttribute name.text, name.loc⟩

end Diagnostic

end RelAlgebra
