import RelAlgebra.Grammar.Phrase

/-!
# The grammar of queries and declarations

The phrases that the rules stand for, and the reading of a text by a rule. Reading always ends: a
rule that is used at the very position where another one started has a smaller height than that one.
So the depth of rules is bounded by the length of the text times the number of heights, and the
bound that is passed to the reader is never reached.
-/

namespace RelAlgebra

namespace Rule

open Phrase

/-- The phrase that a rule stands for. -/
def body : (r : Rule) → Phrase r.Value
  | .endOfInput => finish
  | .name => word .name
  | .identifier => word .identifier
  | .typeName => word .typeName
  | .relation => rule .identifier
  | .attr => rule .identifier
  | .program => list (rule .statement)
  | .statement => rule .query <|> parens (rule .statement)
  | .query => rule .binary <|> rule .unary
  | .binary =>
    (fun left (op, mark) right => Query.binary op mark left right) <$>
      rule .binaryOperand <*> rule .binaryOp <*> rule .binaryOperand
  | .binaryOperand =>
    Operand.relation <$> rule .relation <|>
      parens (Operand.nested <$> rule .query <|> rule .binaryOperand)
  | .binaryOp =>
    Prod.mk .union <$> rule (.binaryWord .union) <|>
      Prod.mk .intersection <$> rule (.binaryWord .intersection) <|>
      Prod.mk .difference <$> rule (.binaryWord .difference) <|>
      Prod.mk .join <$> rule (.binaryWord .join) <|>
      Prod.mk .cross <$> rule (.binaryWord .cross) <|>
      Prod.mk .division <$> rule (.binaryWord .division)
  | .binaryWord .union => word (.word "union") <|> symbol "∪"
  | .binaryWord .intersection => word (.word "intersect") <|> symbol "∩"
  | .binaryWord .difference => word (.word "difference") <|> word (.word "minus") <|> symbol "−"
  | .binaryWord .join => word (.word "join") <|> symbol "⋈" <|> symbol "[]"
  | .binaryWord .cross => word (.word "cross") <|> symbol "×"
  | .binaryWord .division => word (.word "divide") <|> symbol "÷"
  | .unary => rule .project <|> rule .rename <|> rule .select <|> rule .closure
  | .unaryOperand =>
    parens (Operand.nested <$> rule .query <|> Operand.relation <$> rule .relation <|>
      rule .unaryOperand)
  | .project =>
    (fun mark attributes operand => Query.unary (.project attributes) mark operand) <$>
      rule (.verb .project) <*> parens (separated "," (rule .attr)) <*> rule .unaryOperand
  | .rename =>
    (fun mark pairs operand => Query.unary (.rename pairs) mark operand) <$>
      rule (.verb .rename) <*> parens (separated "," (rule .renamePair)) <*> rule .unaryOperand
  | .renamePair =>
    Prod.mk <$> rule .attr <* (symbol "->" <|> symbol "→") <*> rule .attr
  | .select =>
    (fun mark predicate operand => Query.unary (.select predicate) mark operand) <$>
      rule (.verb .select) <*> parens (rule .predicate) <*> rule .unaryOperand
  | .closure =>
    Query.unary .closure <$> rule (.verb .closure) <*> rule .unaryOperand <|>
      Query.unary .closure <$> rule .closureOpen <*>
        (Operand.nested <$> rule .query <|> Operand.relation <$> rule .relation <|>
          rule .unaryOperand) <* symbol ">>"
  | .verb .project => word (.word "project") <|> symbol "π"
  | .verb .rename => word (.word "rename") <|> symbol "ρ"
  | .verb .select => word (.word "select") <|> symbol "σ"
  | .verb .closure => word (.word "closure")
  | .closureOpen => symbol "<<"
  | .predicate => chain (rule .comparison) (rule .logicalOp)
  | .logicalOp =>
    Prod.mk .and <$> rule (.logicalWord .and) <|> Prod.mk .or <$> rule (.logicalWord .or)
  | .logicalWord .and => word (.word "and") <|> symbol "∧" <|> symbol "&&"
  | .logicalWord .or => word (.word "or") <|> symbol "∨" <|> symbol "||"
  | .comparison => chain (rule .typeTest) (rule .compareOp)
  | .compareOp => signs CompareOp.spellings
  | .typeTest =>
    (fun operand type => Scalar.testOf operand (type.map (.ofText ·.text))) <$>
      rule .additive <*> opt (rule .instanceOf *> rule .typeName)
  | .instanceOf => word (.word "instanceof")
  | .additive => chain (rule .multiplicative) (rule .additiveOp)
  | .additiveOp => signs [("+", .add), ("-", .sub)]
  | .multiplicative => chain (rule .factor) (rule .multiplicativeOp)
  | .multiplicativeOp =>
    signs [("*", .mul), ("/", .div), ("^", .pow), ("%", .mod), ("×", .mul), ("÷", .div)] <|>
      Prod.mk .mod <$> word (.word "mod")
  | .factor =>
    Scalar.paren <$> parens (rule .comparison) <|>
      (fun l => Scalar.literal l.1 l.2) <$> rule .literal <|>
      Scalar.attr <$> rule .attr
  | .literal =>
    Prod.mk .string <$> rule (.literalWord .string) <|>
      Prod.mk .binary <$> rule (.literalWord .binary) <|>
      Prod.mk .hex <$> rule (.literalWord .hex) <|>
      Prod.mk .octal <$> rule (.literalWord .octal) <|>
      Prod.mk .decimal <$> rule (.literalWord .decimal) <|>
      Prod.mk .integer <$> rule (.literalWord .integer) <|>
      Prod.mk (.boolean true) <$> rule (.literalWord (.boolean true)) <|>
      Prod.mk (.boolean false) <$> rule (.literalWord (.boolean false))
  | .literalWord kind => word (.literal kind)
  | .declarations => list (rule .declaration)
  | .declaration =>
    (fun relation attr type => ⟨relation.text, attr.text, .ofText type.text⟩) <$>
      rule .name <* symbol "." <*> rule .name <* symbol ":" <*> rule .typeName

/-- A bound on the number of rules that can be opened one inside the other at one position. -/
def height : Rule → Nat
  | .program => 7
  | .statement => 6
  | .query => 5
  | .binary => 4
  | .binaryOperand => 3
  | .unary => 3
  | .project | .rename | .select | .closure => 2
  | .predicate => 7
  | .comparison => 6
  | .typeTest => 5
  | .additive => 4
  | .multiplicative => 3
  | .factor => 2
  | .renamePair => 2
  | .relation | .attr | .binaryOp | .logicalOp | .literal => 1
  | .declarations => 2
  | .declaration => 1
  | _ => 0

/-- One more than the largest height. -/
def heights : Nat := 8

/-- Reads a rule at a position with a bound on the depth of rules. -/
def readWithin : Nat → (r : Rule) → Cursor → Reading r.Value
  | 0, _, _ => .exhausted
  | depth + 1, r, c => (r.body.read (readWithin depth) c).settle r c.offset

/-- A depth of rules that is never exceeded when a rule is read at a position. -/
def depth (r : Rule) (c : Cursor) : Nat := c.rest.length * heights + r.height + 1

/-- Reads a rule at a position. -/
def read (r : Rule) (c : Cursor) : Reading r.Value := readWithin (r.depth c) r c

end Rule

end RelAlgebra
