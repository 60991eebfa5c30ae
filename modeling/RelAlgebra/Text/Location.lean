/-!
# Places in a text

A text is a list of characters. A place in it is given to readers as a line and a column, and every
word that is kept from a text is kept together with its place.
-/

namespace RelAlgebra

/-- A line and a column, both counted from one. -/
structure Location where
  line : Nat
  column : Nat
  deriving DecidableEq, Repr

namespace Location

/-- The place of the first character of a text. -/
def start : Location := ⟨1, 1⟩

/-- The place after a character: a line feed opens the next line, any other character, a carriage
return included, fills one column. -/
def step (l : Location) (c : Char) : Location :=
  if c = '\n' then ⟨l.line + 1, 1⟩ else ⟨l.line, l.column + 1⟩

/-- The place after a stretch of text that begins at `l`. -/
def after (l : Location) (s : List Char) : Location := s.foldl step l

/-- The place of the character with `n` characters before it. -/
def ofOffset (s : List Char) (n : Nat) : Location := start.after (s.take n)

/-- No text leaves the location where it is. -/
@[simp] theorem after_nil (l : Location) : l.after [] = l := rfl

/-- A text is passed by its first character and then the others. -/
@[simp] theorem after_cons (l : Location) (c : Char) (s : List Char) :
    l.after (c :: s) = (l.step c).after s := rfl

/-- A text in two parts is passed one part after the other. -/
theorem after_append (l : Location) (s t : List Char) :
    l.after (s ++ t) = (l.after s).after t := List.foldl_append

end Location

/-- A word of a text, exactly as it is spelled there, with the place of its first character. -/
structure Lexeme where
  text : String
  loc : Location
  deriving DecidableEq, Repr

end RelAlgebra
