import RelAlgebra.Query.Scalar

/-!
# Queries

A query applies one operator of relational algebra. Its operands are relations, referred to by name,
or queries again.
-/

namespace RelAlgebra

/-- The operators with two operands. -/
inductive BinaryOp where
  | union
  | intersection
  | difference
  | join
  | cross
  | division
  deriving DecidableEq, Repr

/-- The name under which an operator is shown. -/
def BinaryOp.name : BinaryOp → String
  | union => "union"
  | intersection => "intersection"
  | difference => "difference"
  | join => "join"
  | cross => "cross join"
  | division => "division"

/-- The operators with one operand, with their arguments. -/
inductive UnaryOp where
  | project (attributes : List Lexeme)
  /-- Pairs of an attribute and its new name. -/
  | rename (pairs : List (Lexeme × Lexeme))
  | select (predicate : Predicate)
  | closure

mutual

/-- A query; `mark` is the word that spells its operator. -/
inductive Query where
  | unary (op : UnaryOp) (mark : Lexeme) (operand : Operand)
  | binary (op : BinaryOp) (mark : Lexeme) (left right : Operand)

/-- An operand of a query. -/
inductive Operand where
  | relation (name : Lexeme)
  | nested (query : Query)

end

/-- One line of a catalog's description: an attribute of a relation with its type. -/
structure Declaration where
  relation : String
  attr : String
  type : DataType
  deriving DecidableEq, Repr

end RelAlgebra
