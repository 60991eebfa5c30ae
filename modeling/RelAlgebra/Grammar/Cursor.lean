import RelAlgebra.Text.Location

/-!
# Reading positions and layout

A cursor stands between the characters of a text. Layout, which may stand between any two words, is
made of spaces, tabs, carriage returns, line feeds and comments; a comment goes from two hyphens to
the end of its line.
-/

namespace RelAlgebra

/-- A position in a text. -/
structure Cursor where
  /-- The characters that are still to be read. -/
  rest : List Char
  /-- The number of characters read. -/
  offset : Nat
  /-- The place of the next character. -/
  loc : Location
  deriving DecidableEq, Repr

namespace Layout

/-- Whether a character is layout by itself. -/
def isSpace (c : Char) : Bool := c = ' ' || c = '\t' || c = '\r' || c = '\n'

/-- The length of the longest layout at the start of a text. The flag tells that the text starts
inside a comment; the line feed that ends it is layout itself. -/
def lengthFrom : Bool → List Char → Nat
  | _, [] => 0
  | true, c :: s => lengthFrom (c ≠ '\n') s + 1
  | false, '-' :: '-' :: s => lengthFrom true s + 2
  | false, c :: s => if isSpace c then lengthFrom false s + 1 else 0

/-- The length of the longest layout at the start of a text. -/
def length (s : List Char) : Nat := lengthFrom false s

end Layout

namespace Cursor

/-- The position before the first character of a text. -/
def start (s : List Char) : Cursor := ⟨s, 0, .start⟩

/-- The position `n` characters further on. -/
def advance (c : Cursor) (n : Nat) : Cursor :=
  ⟨c.rest.drop n, c.offset + n, c.loc.after (c.rest.take n)⟩

/-- The position after the layout that starts here. -/
def skipLayout (c : Cursor) : Cursor := c.advance (Layout.length c.rest)

end Cursor

end RelAlgebra
