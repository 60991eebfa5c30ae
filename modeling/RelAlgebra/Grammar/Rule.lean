import RelAlgebra.Query.Basic

/-!
# The names of the rules

The rules of the grammar, with the names and the order in which error messages list them, and the
types of the values that they read.
-/

namespace RelAlgebra

/-- The keywords that open a query with one operand. -/
inductive Verb where
  | project
  | rename
  | select
  | closure
  deriving DecidableEq, Repr

/-- The rules of the grammar. -/
inductive Rule where
  | endOfInput
  | name
  | identifier
  | typeName
  | relation
  | attr
  | program
  | statement
  | query
  | binary
  | binaryOperand
  | binaryOp
  | binaryWord (op : BinaryOp)
  | unary
  | unaryOperand
  | project
  | rename
  | renamePair
  | select
  | closure
  | verb (verb : Verb)
  | closureOpen
  | predicate
  | logicalOp
  | logicalWord (op : LogicalOp)
  | comparison
  | compareOp
  | typeTest
  | instanceOf
  | additive
  | additiveOp
  | multiplicative
  | multiplicativeOp
  | factor
  | literal
  | literalWord (kind : LiteralKind)
  | declarations
  | declaration
  deriving DecidableEq, Repr

namespace Rule

/-- All rules, in the order in which an error message lists them. -/
def all : List Rule :=
  [endOfInput, name, identifier, typeName, relation, attr, program, statement, query, binary,
   binaryOperand, binaryOp, binaryWord .union, binaryWord .intersection, binaryWord .difference,
   binaryWord .join, binaryWord .cross, binaryWord .division, unary, unaryOperand, project, rename,
   renamePair, select, closure, verb .project, verb .rename, verb .select, verb .closure,
   closureOpen, predicate, logicalOp, logicalWord .and, logicalWord .or, comparison, compareOp,
   typeTest, instanceOf, additive, additiveOp, multiplicative, multiplicativeOp, factor, literal,
   literalWord .string, literalWord .binary, literalWord .hex, literalWord .octal,
   literalWord .decimal, literalWord .integer, literalWord (.boolean true),
   literalWord (.boolean false), declarations, declaration]

/-- The name under which an error message lists the rule. -/
def label : Rule → String
  | endOfInput => "EOI"
  | name => "name"
  | identifier => "identifier"
  | typeName => "type_name"
  | relation => "relation"
  | attr => "attribute"
  | program => "program"
  | statement => "statement"
  | query => "read_only"
  | binary => "binary"
  | binaryOperand => "binary_operand"
  | binaryOp => "binary_op"
  | binaryWord .union => "union_op"
  | binaryWord .intersection => "intersect_op"
  | binaryWord .difference => "difference_op"
  | binaryWord .join => "join_op"
  | binaryWord .cross => "cross_op"
  | binaryWord .division => "divide_op"
  | unary => "unitary"
  | unaryOperand => "unitary_operand"
  | project => "project"
  | rename => "rename"
  | renamePair => "rename_pair"
  | select => "select"
  | closure => "closure"
  | verb .project => "project_kw"
  | verb .rename => "rename_kw"
  | verb .select => "select_kw"
  | verb .closure => "closure_kw"
  | closureOpen => "closure_open"
  | predicate => "expression"
  | logicalOp => "logical_op"
  | logicalWord .and => "and_op"
  | logicalWord .or => "or_op"
  | comparison => "comparison"
  | compareOp => "comparison_op"
  | typeTest => "type_test"
  | instanceOf => "instanceof_kw"
  | additive => "additive"
  | additiveOp => "additive_op"
  | multiplicative => "multiplicative"
  | multiplicativeOp => "multiplicative_op"
  | factor => "factor"
  | literal => "literal"
  | literalWord .string => "string_lit"
  | literalWord .binary => "bin_lit"
  | literalWord .hex => "hex_lit"
  | literalWord .octal => "oct_lit"
  | literalWord .decimal => "decimal_lit"
  | literalWord .integer => "integer_lit"
  | literalWord (.boolean true) => "true_lit"
  | literalWord (.boolean false) => "false_lit"
  | declarations => "declarations"
  | declaration => "declaration"

/-- The type of what a rule reads. -/
@[reducible] def Value : Rule → Type
  | .endOfInput => Unit
  | .name | .identifier | .typeName | .relation | .attr => Lexeme
  | .program => List Query
  | .statement | .query | .binary | .unary | .project | .rename | .select | .closure => Query
  | .binaryOperand | .unaryOperand => Operand
  | .binaryOp => BinaryOp × Lexeme
  | .binaryWord _ | .verb _ | .closureOpen | .logicalWord _ | .instanceOf | .literalWord _ => Lexeme
  | .renamePair => Lexeme × Lexeme
  | .predicate => Predicate
  | .logicalOp => LogicalOp × Lexeme
  | .comparison => Scalar (.chain .comparison)
  | .compareOp => CompareOp × Lexeme
  | .typeTest => Scalar .test
  | .additive => Scalar (.chain .additive)
  | .additiveOp => AdditiveOp × Lexeme
  | .multiplicative => Scalar (.chain .multiplicative)
  | .multiplicativeOp => MultiplicativeOp × Lexeme
  | .factor => Scalar .factor
  | .literal => LiteralKind × Lexeme
  | .declarations => List Declaration
  | .declaration => Declaration

end Rule

end RelAlgebra
