/-!
# Blank characters

The characters with the Unicode property White_Space, and the removal of them at both ends of a
text.
-/

namespace RelAlgebra.Blank

/-- The intervals of code points that are blank. -/
def intervals : List (Nat × Nat) :=
  [(0x09, 0x0D), (0x20, 0x20), (0x85, 0x85), (0xA0, 0xA0), (0x1680, 0x1680), (0x2000, 0x200A),
   (0x2028, 0x2029), (0x202F, 0x202F), (0x205F, 0x205F), (0x3000, 0x3000)]

/-- Whether a character is blank. -/
def isBlank (c : Char) : Bool := intervals.any fun (lo, hi) => lo ≤ c.toNat && c.toNat ≤ hi

/-- A text without the blank characters at its start. -/
def trimStart (s : List Char) : List Char := s.dropWhile isBlank

/-- A text without the blank characters at its end. -/
def trimEnd (s : List Char) : List Char := (trimStart s.reverse).reverse

/-- A text without the blank characters at its two ends. -/
def trim (s : List Char) : List Char := trimEnd (trimStart s)

end RelAlgebra.Blank
