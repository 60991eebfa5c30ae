import RelAlgebra.DataType
import RelAlgebra.Text.Location

/-!
# Predicates

A predicate is a tree of chains. At each of four tiers operands are joined by the operators of that
tier, and the operands of a tier are the expressions of the next tighter one. Between comparisons
and sums stands the type test, and below products stand attributes, literals and parentheses, which
enclose a comparison. A chain has no bracketing of its own: it is the list of its operands with one
operator between neighbours.
-/

namespace RelAlgebra

/-- The operators between truth values. -/
inductive LogicalOp where
  | and
  | or
  deriving DecidableEq, Repr

/-- The comparison operators. -/
inductive CompareOp where
  | eq
  | ne
  | lt
  | gt
  | le
  | ge
  deriving DecidableEq, Repr

/-- The operators of sums. -/
inductive AdditiveOp where
  | add
  | sub
  deriving DecidableEq, Repr

/-- The operators of products. -/
inductive MultiplicativeOp where
  | mul
  | div
  | pow
  | mod
  deriving DecidableEq, Repr

namespace CompareOp

/-- The spellings of the comparison operators, a longer one before its beginnings. -/
def spellings : List (String × CompareOp) :=
  [("<=", le), (">=", ge), ("<>", ne), ("!=", ne), ("=", eq), ("<", lt), (">", gt),
   ("≤", le), ("≥", ge), ("≠", ne)]

/-- The operator that a text spells. -/
def ofText? (text : String) : Option CompareOp := spellings.lookup text

/-- Whether the operator compares sizes. -/
def isOrdering : CompareOp → Bool
  | eq | ne => false
  | lt | gt | le | ge => true

end CompareOp

/-- The tiers of a predicate, the loosest first. -/
inductive Tier where
  | logical
  | comparison
  | additive
  | multiplicative
  deriving DecidableEq, Repr

/-- The operators of a tier. -/
abbrev Tier.Op : Tier → Type
  | .logical => LogicalOp
  | .comparison => CompareOp
  | .additive => AdditiveOp
  | .multiplicative => MultiplicativeOp

/-- The forms of scalar expressions. -/
inductive Level where
  | chain (tier : Tier)
  | test
  | factor
  deriving DecidableEq, Repr

/-- The form of the operands of a tier. -/
@[reducible] def Tier.operand : Tier → Level
  | .logical => .chain .comparison
  | .comparison => .test
  | .additive => .chain .multiplicative
  | .multiplicative => .factor

/-- The lexical kinds of literals. -/
inductive LiteralKind where
  | integer
  | decimal
  | binary
  | hex
  | octal
  | string
  | boolean (value : Bool)
  deriving DecidableEq, Repr

/-- The coarse kind of the literals of a lexical kind. -/
def LiteralKind.kind : LiteralKind → Kind
  | integer | decimal | binary | hex | octal => .numeric
  | string => .string
  | boolean _ => .boolean

/-- Scalar expressions by their form. -/
inductive Scalar : Level → Type where
  | attr (name : Lexeme) : Scalar .factor
  | literal (kind : LiteralKind) (word : Lexeme) : Scalar .factor
  | paren (inner : Scalar (.chain .comparison)) : Scalar .factor
  /-- A sum that is not tested for its type. -/
  | plain (operand : Scalar (.chain .additive)) : Scalar .test
  /-- The test whether a sum has the given type. -/
  | instanceOf (operand : Scalar (.chain .additive)) (type : DataType) : Scalar .test
  /-- The last operand of a chain. -/
  | last {tier : Tier} (operand : Scalar tier.operand) : Scalar (.chain tier)
  /-- An operand of a chain, the operator after it with its word, and the rest of the chain. -/
  | link {tier : Tier} (operand : Scalar tier.operand) (op : tier.Op) (mark : Lexeme)
      (rest : Scalar (.chain tier)) : Scalar (.chain tier)

/-- A chain of comparisons. -/
abbrev Predicate : Type := Scalar (.chain .logical)

/-- A sum, tested for a type if one is given. -/
def Scalar.testOf (operand : Scalar (.chain .additive)) : Option DataType → Scalar .test
  | none => .plain operand
  | some type => .instanceOf operand type

/-- The chain with the given first operand and then operators, each with the operand after it. -/
def Scalar.chain {tier : Tier} (first : Scalar tier.operand) :
    List ((tier.Op × Lexeme) × Scalar tier.operand) → Scalar (.chain tier)
  | [] => .last first
  | ((op, mark), next) :: more => .link first op mark (Scalar.chain next more)

end RelAlgebra
