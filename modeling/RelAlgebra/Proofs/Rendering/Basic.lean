import RelAlgebra.Proofs.Rendering.Text

/-!
# Renderings of queries

`Query.Renders` and its companions say which lists of words write down a query. Every operator may
be written in any of its spellings, every operand and every whole query in any number of
parentheses, and the closure in either of its two forms. Nothing here refers to the rules of the
grammar.

Places, and the words that spell operators, are no part of what is rendered: two trees render alike
if `unplaced` makes them equal.
-/

namespace RelAlgebra

/-! ## Spellings -/

/-- The spellings of the operators between truth values. -/
def LogicalOp.shapes : LogicalOp → List Shape
  | and => [.word "and", .symbol "∧", .symbol "&&"]
  | or => [.word "or", .symbol "∨", .symbol "||"]

/-- The spellings of the comparison operators. -/
def CompareOp.shapes : CompareOp → List Shape
  | eq => [.symbol "="]
  | ne => [.symbol "<>", .symbol "!=", .symbol "≠"]
  | lt => [.symbol "<"]
  | gt => [.symbol ">"]
  | le => [.symbol "<=", .symbol "≤"]
  | ge => [.symbol ">=", .symbol "≥"]

/-- The spellings of the operators of sums. -/
def AdditiveOp.shapes : AdditiveOp → List Shape
  | add => [.symbol "+"]
  | sub => [.symbol "-"]

/-- The spellings of the operators of products. -/
def MultiplicativeOp.shapes : MultiplicativeOp → List Shape
  | mul => [.symbol "*", .symbol "×"]
  | div => [.symbol "/", .symbol "÷"]
  | pow => [.symbol "^"]
  | mod => [.symbol "%", .word "mod"]

/-- The spellings of the operators of a tier. -/
def Tier.shapes : (tier : Tier) → tier.Op → List Shape
  | .logical => LogicalOp.shapes
  | .comparison => CompareOp.shapes
  | .additive => AdditiveOp.shapes
  | .multiplicative => MultiplicativeOp.shapes

/-- The spellings of the operators with two operands. -/
def BinaryOp.shapes : BinaryOp → List Shape
  | union => [.word "union", .symbol "∪"]
  | intersection => [.word "intersect", .symbol "∩"]
  | difference => [.word "difference", .word "minus", .symbol "−"]
  | join => [.word "join", .symbol "⋈", .symbol "[]"]
  | cross => [.word "cross", .symbol "×"]
  | division => [.word "divide", .symbol "÷"]

/-- The spellings of the words that open a query with one operand. -/
def Verb.shapes : Verb → List Shape
  | project => [.word "project", .symbol "π"]
  | rename => [.word "rename", .symbol "ρ"]
  | select => [.word "select", .symbol "σ"]
  | closure => [.word "closure"]

namespace Token

/-- The opening parenthesis. -/
def lparen : Token := ofSymbol "(" (by decide)

/-- The closing parenthesis. -/
def rparen : Token := ofSymbol ")" (by decide)

/-- The comma between arguments. -/
def comma : Token := ofSymbol "," (by decide)

/-- The semicolon between queries. -/
def semicolon : Token := ofSymbol ";" (by decide)

/-- The opening bracket of a closure. -/
def closureOpen : Token := ofSymbol "<<" (by decide)

/-- The closing bracket of a closure. -/
def closureClose : Token := ofSymbol ">>" (by decide)

/-- The word is the given name, which is no keyword. -/
def Names (t : Token) (name : Lexeme) : Prop := t.shape = .identifier ∧ t.text = name.text.toList

end Token

/-! ## Trees -/

/-- Words in the given number of parentheses. -/
def enclosed : Nat → List Token → List Token
  | 0, ts => ts
  | n + 1, ts => .lparen :: (enclosed n ts ++ [.rparen])

/-- One or more items with a separator between them. -/
inductive Separated {α : Type} (separator : Token) (item : α → List Token → Prop) :
    List α → List Token → Prop where
  | one {a : α} {ts : List Token} (ha : item a ts) : Separated separator item [a] ts
  | more {a : α} {as : List α} {ts us : List Token} (ha : item a ts)
      (has : Separated separator item as us) :
    Separated separator item (a :: as) (ts ++ separator :: us)

/-- The words that write down a scalar expression. -/
inductive Scalar.Renders : {level : Level} → Scalar level → List Token → Prop where
  | attr {name : Lexeme} {t : Token} (ht : t.Names name) : Renders (.attr name) [t]
  | literal {kind : LiteralKind} {l : Lexeme} {t : Token} (hshape : t.shape = .literal kind)
      (htext : t.text = l.text.toList) : Renders (.literal kind l) [t]
  | paren {inner : Scalar (.chain .comparison)} {ts : List Token} (h : inner.Renders ts) :
    Renders (.paren inner) (enclosed 1 ts)
  | plain {operand : Scalar (.chain .additive)} {ts : List Token} (h : operand.Renders ts) :
    Renders (.plain operand) ts
  | instanceOf {operand : Scalar (.chain .additive)} {type : DataType} {ts : List Token}
      {t u : Token} (h : operand.Renders ts) (ht : t.shape = .word "instanceof")
      (hu : u.shape = .typeName) (htype : DataType.ofText (String.ofList u.text) = type) :
    Renders (.instanceOf operand type) (ts ++ [t, u])
  | last {tier : Tier} {operand : Scalar tier.operand} {ts : List Token} (h : operand.Renders ts) :
    Renders (.last operand) ts
  | link {tier : Tier} {operand : Scalar tier.operand} {op : tier.Op} {mark : Lexeme}
      {rest : Scalar (.chain tier)} {ts us : List Token} {t : Token} (h : operand.Renders ts)
      (ht : t.shape ∈ tier.shapes op) (hrest : rest.Renders us) :
    Renders (.link operand op mark rest) (ts ++ t :: us)

/-- The words that write down a pair of an attribute and its new name. -/
def RendersPair (pair : Lexeme × Lexeme) (ts : List Token) : Prop :=
  ∃ t arrow u : Token, t.Names pair.1 ∧ arrow.shape ∈ [.symbol "->", .symbol "→"] ∧
    u.Names pair.2 ∧ ts = [t, arrow, u]

/-- The words that write down an operator with one operand and its arguments. -/
inductive UnaryOp.Renders : UnaryOp → List Token → Prop where
  | project {attributes : List Lexeme} {verb : Token} {ts : List Token}
      (hverb : verb.shape ∈ Verb.project.shapes)
      (h : Separated .comma (fun name ts => ∃ t : Token, t.Names name ∧ ts = [t]) attributes ts) :
    Renders (.project attributes) (verb :: enclosed 1 ts)
  | rename {pairs : List (Lexeme × Lexeme)} {verb : Token} {ts : List Token}
      (hverb : verb.shape ∈ Verb.rename.shapes) (h : Separated .comma RendersPair pairs ts) :
    Renders (.rename pairs) (verb :: enclosed 1 ts)
  | select {predicate : Predicate} {verb : Token} {ts : List Token}
      (hverb : verb.shape ∈ Verb.select.shapes) (h : predicate.Renders ts) :
    Renders (.select predicate) (verb :: enclosed 1 ts)
  | closure {verb : Token} (hverb : verb.shape ∈ Verb.closure.shapes) : Renders .closure [verb]

/-- The number of parentheses that an operand needs next to an operator with two operands. -/
def Operand.parens : Operand → Nat
  | .relation _ => 0
  | .nested _ => 1

mutual

/-- The words that write down a query. -/
inductive Query.Renders : Query → List Token → Prop where
  | unary {op : UnaryOp} {mark : Lexeme} {operand : Operand} {ts us : List Token} (n : Nat)
      (hop : op.Renders ts) (h : operand.Renders us) :
    Query.Renders (.unary op mark operand) (ts ++ enclosed (n + 1) us)
  | brackets {mark : Lexeme} {operand : Operand} {ts : List Token} (n : Nat)
      (h : operand.Renders ts) :
    Query.Renders (.unary .closure mark operand)
      (.closureOpen :: (enclosed n ts ++ [.closureClose]))
  | binary {op : BinaryOp} {mark : Lexeme} {left right : Operand} {ts us : List Token} {t : Token}
      (m n : Nat) (hleft : left.Renders ts) (ht : t.shape ∈ op.shapes) (hright : right.Renders us) :
    Query.Renders (.binary op mark left right)
      (enclosed (m + left.parens) ts ++ t :: enclosed (n + right.parens) us)

/-- The words that write down an operand, without the parentheses around it. -/
inductive Operand.Renders : Operand → List Token → Prop where
  | relation {name : Lexeme} {t : Token} (ht : t.Names name) : Operand.Renders (.relation name) [t]
  | nested {query : Query} {ts : List Token} (h : query.Renders ts) :
    Operand.Renders (.nested query) ts

end

/-- The words that write down queries: each in any number of parentheses, with semicolons between
them and perhaps one at the end. -/
inductive RendersProgram : List Query → List Token → Prop where
  | empty : RendersProgram [] []
  | queries {qs : List Query} {ts : List Token} {closing : List Token}
      (h : Separated .semicolon (fun q ts => ∃ n us, q.Renders us ∧ ts = enclosed n us) qs ts)
      (hclosing : closing = [] ∨ closing = [.semicolon]) : RendersProgram qs (ts ++ closing)

/-! ## Trees that can be written down -/

/-- The words of a scalar expression follow their lexical rules, and the types that it tests for
have names. -/
def Scalar.Valid : {level : Level} → Scalar level → Prop
  | _, .attr name => Shape.identifier.Admits name.text.toList
  | _, .literal kind word => (Shape.literal kind).Admits word.text.toList
  | _, .paren inner => inner.Valid
  | _, .plain operand => operand.Valid
  | _, .instanceOf operand type =>
    operand.Valid ∧ ∃ w, Shape.typeName.Admits w ∧ DataType.ofText (String.ofList w) = type
  | _, .last operand => operand.Valid
  | _, .link operand _ _ rest => operand.Valid ∧ rest.Valid

/-- The arguments of an operator are not missing, and their words follow their lexical rules. -/
def UnaryOp.Valid : UnaryOp → Prop
  | project attributes =>
    attributes ≠ [] ∧ ∀ name ∈ attributes, Shape.identifier.Admits name.text.toList
  | rename pairs => pairs ≠ [] ∧ ∀ pair ∈ pairs,
    Shape.identifier.Admits pair.1.text.toList ∧ Shape.identifier.Admits pair.2.text.toList
  | select predicate => predicate.Valid
  | closure => True

mutual

/-- The words of a query follow their lexical rules, and no arguments are missing. -/
def Query.Valid : Query → Prop
  | .unary op _ operand => op.Valid ∧ operand.Valid
  | .binary _ _ left right => left.Valid ∧ right.Valid

/-- The words of an operand follow their lexical rules, and no arguments are missing. -/
def Operand.Valid : Operand → Prop
  | .relation name => Shape.identifier.Admits name.text.toList
  | .nested query => query.Valid

end

/-- The two names of a declaration, which may be keywords, follow their lexical rule, and its type
has a name. -/
def Declaration.Valid (d : Declaration) : Prop :=
  Shape.name.Admits d.relation.toList ∧ Shape.name.Admits d.attr.toList ∧
    ∃ w, Shape.typeName.Admits w ∧ DataType.ofText (String.ofList w) = d.type

/-! ## Trees without places -/

/-- A word without its place. -/
def Lexeme.unplaced (l : Lexeme) : Lexeme := ⟨l.text, .start⟩

/-- The word of an operator whose spelling does not matter. -/
def Lexeme.blank : Lexeme := ⟨"", .start⟩

/-- A scalar expression without places. -/
def Scalar.unplaced : {level : Level} → Scalar level → Scalar level
  | _, .attr name => .attr name.unplaced
  | _, .literal kind word => .literal kind word.unplaced
  | _, .paren inner => .paren inner.unplaced
  | _, .plain operand => .plain operand.unplaced
  | _, .instanceOf operand type => .instanceOf operand.unplaced type
  | _, .last operand => .last operand.unplaced
  | _, .link operand op _ rest => .link operand.unplaced op .blank rest.unplaced

/-- An operator with its arguments, without places. -/
def UnaryOp.unplaced : UnaryOp → UnaryOp
  | project attributes => project (attributes.map Lexeme.unplaced)
  | rename pairs => rename (pairs.map fun pair => (pair.1.unplaced, pair.2.unplaced))
  | select predicate => select predicate.unplaced
  | closure => closure

mutual

/-- A query without places. -/
def Query.unplaced : Query → Query
  | .unary op _ operand => .unary op.unplaced .blank operand.unplaced
  | .binary op _ left right => .binary op .blank left.unplaced right.unplaced

/-- An operand without places. -/
def Operand.unplaced : Operand → Operand
  | .relation name => .relation name.unplaced
  | .nested query => .nested query.unplaced

end

end RelAlgebra
