import RelAlgebra.Query.Verdict

/-!
# What the operators do to schemas

An operator of relational algebra is applied to the schemas of its operands. Its result is a schema
of its own, or else the relation of its operand itself. The closure shares the relation of its
operand, and the operators on sets of tuples share that of their left operand.
-/

namespace RelAlgebra

/-- The result of an operator. -/
inductive Output where
  /-- A relation of its own with this schema. -/
  | own (schema : Schema)
  /-- The relation of the operand, or of the left operand. -/
  | shared
  deriving DecidableEq, Repr

/-- What an operator does: its result, and what is wrong with it. -/
structure Effect where
  output : Output
  diagnostics : List Diagnostic
  deriving DecidableEq, Repr

/-- The attributes that a projection takes. -/
def Schema.projected (s : Schema) (attributes : List Lexeme) : List Attribute :=
  attributes.filterMap fun name => s.find? name.text

/-- The attributes that a renaming takes, with their new names. -/
def Schema.renamed (s : Schema) (pairs : List (Lexeme × Lexeme)) : List Attribute :=
  pairs.filterMap fun (old, new) => (s.find? old.text).map fun a => ⟨new.text, a.type⟩

/-- The diagnostics for the names that no attribute has. -/
def Schema.missing (s : Schema) (attributes : List Lexeme) : List Diagnostic :=
  (attributes.filter fun name => !s.has name.text).map .missingAttribute

/-- Whether the divisor has fewer attributes than the dividend and no name beside those of the
dividend. -/
def Schema.divisible (dividend divisor : Schema) : Bool :=
  divisor.size < dividend.size && divisor.names.all dividend.has

/-- The attributes of the dividend that the divisor does not have. -/
def Schema.quotient (dividend divisor : Schema) : List Attribute :=
  dividend.attributes.filter fun a => !divisor.has a.name

/-- The effect of an operator, spelled by `mark`, on an operand with schema `s`. -/
def UnaryOp.apply (mark : Lexeme) (s : Schema) : UnaryOp → Effect
  | project attributes => ⟨.own (.ofAttributes (s.projected attributes)), s.missing attributes⟩
  | rename pairs => ⟨.own (.ofAttributes (s.renamed pairs)), s.missing (pairs.map (·.1))⟩
  | select predicate => ⟨.own (.ofAttributes s.attributes), (predicate.check s).diagnostics⟩
  | closure => ⟨.shared, if s.size = 2 then [] else [⟨.invalidArity s.size, mark.loc⟩]⟩

/-- The effect of an operator, spelled by `mark`, on operands with schemas `l` and `r`. -/
def BinaryOp.apply (mark : Lexeme) (l r : Schema) (op : BinaryOp) : Effect :=
  match op with
  | union | intersection | difference =>
    if l.size = r.size then ⟨.shared, []⟩ else ⟨.own ∅, [⟨.arityMismatch op, mark.loc⟩]⟩
  | join | cross => ⟨.own (.ofAttributes (l.attributes ++ r.attributes)), []⟩
  | division =>
    if l.divisible r then ⟨.own (.ofAttributes (l.quotient r)), []⟩
    else ⟨.own ∅, [⟨.invalidDivision mark.text, mark.loc⟩]⟩

end RelAlgebra
