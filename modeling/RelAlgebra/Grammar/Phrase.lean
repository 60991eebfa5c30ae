import RelAlgebra.Grammar.Reading
import RelAlgebra.Grammar.Shape

/-!
# Phrases

A phrase is the right-hand side of a rule. Alternatives are tried in order and the first that
matches is taken; a repetition takes as many phrases as it can. Layout may stand between the parts
of a sequence and between repetitions.
-/

namespace RelAlgebra

/-- Phrases by the type of their values. -/
inductive Phrase : Type → Type 1 where
  /-- Matches without reading anything. -/
  | empty : Phrase Unit
  /-- Never matches. -/
  | never {α : Type} : Phrase α
  /-- Matches at the end of the text. -/
  | finish : Phrase Unit
  | word (shape : Shape) : Phrase Lexeme
  | rule (r : Rule) : Phrase r.Value
  | seq {α β : Type} (p : Phrase α) (q : Phrase β) : Phrase (α × β)
  | alt {α : Type} (p q : Phrase α) : Phrase α
  | opt {α : Type} (p : Phrase α) : Phrase (Option α)
  | many {α : Type} (p : Phrase α) : Phrase (List α)
  | map {α β : Type} (f : α → β) (p : Phrase α) : Phrase β

namespace Phrase

variable {α β : Type}

/-- Reads a phrase at a position; `call` reads the rules that occur in it. -/
def read (call : (r : Rule) → Cursor → Reading r.Value) :
    {α : Type} → Phrase α → Cursor → Reading α
  | _, empty, c => .matched () c
  | _, never, _ => .failed
  | _, finish, c => if c.rest.isEmpty then .matched () c else .failed
  | _, word shape, c =>
    match shape.length? c.rest with
    | some n => .matched ⟨String.ofList (c.rest.take n), c.loc⟩ (c.advance n)
    | none => .failed
  | _, rule r, c => call r c
  | _, seq p q, c =>
    (p.read call c).bind fun a next => (q.read call next.skipLayout).map (a, ·)
  | _, alt p q, c => (p.read call c).orElse fun _ => q.read call c
  | _, opt p, c => ((p.read call c).map some).orElse fun _ => .matched none c
  | _, many p, c =>
    ((p.read call c).bind fun a next =>
      (Reading.repeated (p.read call) (next.rest.length + 1) next).map (a :: ·)).orElse
      fun _ => .matched [] c
  | _, map f p, c => (p.read call c).map f

instance : Functor Phrase where
  map := map

instance : Seq Phrase where
  seq p q := map (fun (f, a) => f a) (seq p (q ()))

instance : SeqLeft Phrase where
  seqLeft p q := map Prod.fst (seq p (q ()))

instance : SeqRight Phrase where
  seqRight p q := map Prod.snd (seq p (q ()))

instance : OrElse (Phrase α) where
  orElse p q := alt p (q ())

/-- The given characters. -/
def symbol (text : String) : Phrase Lexeme := word (.symbol text)

/-- A phrase in parentheses. -/
def parens (p : Phrase α) : Phrase α := symbol "(" *> p <* symbol ")"

/-- One or more phrases with a separator between them. -/
def separated (separator : String) (p : Phrase α) : Phrase (List α) :=
  List.cons <$> p <*> many (symbol separator *> p)

/-- Any number of phrases up to the end of the text, with a semicolon between them and, if there are
any, perhaps one after them. -/
def list (p : Phrase α) : Phrase (List α) :=
  (·.getD []) <$> (empty *> opt (separated ";" p <* opt (symbol ";")) <* rule .endOfInput)

/-- The first of the given symbols that matches, with its meaning. -/
def signs : List (String × α) → Phrase (α × Lexeme)
  | [] => never
  | (text, meaning) :: more => Prod.mk meaning <$> symbol text <|> signs more

/-- A chain of operands with operators between them. -/
def chain {tier : Tier} (operand : Phrase (Scalar tier.operand))
    (operator : Phrase (tier.Op × Lexeme)) : Phrase (Scalar (.chain tier)) :=
  Scalar.chain <$> operand <*> many (Prod.mk <$> operator <*> operand)

end Phrase

end RelAlgebra
