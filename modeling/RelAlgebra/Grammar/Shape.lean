import RelAlgebra.Query.Scalar

/-!
# Words

A word is read from the characters alone, without layout inside it. Its shape is that of a symbol, a
keyword, a name or a literal, and the longest word of the shape is taken, except that a symbol ends
where its spelling ends.
-/

namespace RelAlgebra

/-- The shapes of words. -/
inductive Shape where
  /-- Exactly these characters. -/
  | symbol (text : String)
  /-- These letters in upper or lower case, as a whole name. -/
  | word (letters : String)
  /-- A name that may be a keyword. -/
  | name
  /-- A name that is not a keyword. -/
  | identifier
  /-- A name that starts with a letter. -/
  | typeName
  | literal (kind : LiteralKind)
  deriving DecidableEq, Repr

namespace Shape

/-- Whether a character may stand in a name. Names are made of ASCII characters only. -/
def isNameChar (c : Char) : Bool := c.isAlphanum || c = '_'

/-- The keywords, in lower case. -/
def keywords : List String :=
  ["project", "select", "rename", "closure", "union", "intersect", "difference", "minus", "join",
   "cross", "divide", "and", "or", "mod", "instanceof", "true", "false"]

/-- A name in lower case. -/
def lower (s : List Char) : String := String.ofList (s.map Char.toLower)

/-- Whether a name is a keyword in some case. -/
def isKeyword (s : List Char) : Bool := keywords.contains (lower s)

/-- The length of the longest start of a text that consists of the given characters. -/
def run (p : Char → Bool) (s : List Char) : Nat := (s.takeWhile p).length

/-- The length of a run that must not be empty. -/
def run? (p : Char → Bool) (s : List Char) : Option Nat :=
  match run p s with
  | 0 => none
  | n + 1 => some (n + 1)

/-- The length of the name at the start of a text; its first character is of the given class. -/
def nameLength? (first : Char → Bool) : List Char → Option Nat
  | [] => none
  | c :: s => if first c then some (run isNameChar s + 1) else none

/-- Whether a character may start a name. -/
def isNameStart (c : Char) : Bool := c.isAlpha || c = '_'

/-- The length of the text up to the closing quote, the two quotes included. -/
def quotedLength? : List Char → Option Nat
  | [] => none
  | q :: s =>
    if q = '"' || q = '\'' then
      let n := run (· ≠ q) s
      if n < s.length then some (n + 2) else none
    else
      none

/-- Measures a number that may have a minus sign. -/
def signed (measure : List Char → Option Nat) : List Char → Option Nat
  | '-' :: s => (measure s).map (· + 1)
  | s => measure s

/-- The length of the digits after a zero and the letter of their base. -/
def basedLength? (letter : Char) (digit : Char → Bool) : List Char → Option Nat
  | '0' :: c :: s => if c.toLower = letter then (run? digit s).map (· + 2) else none
  | _ => none

/-- The length of digits, a point and digits. -/
def decimalLength? (s : List Char) : Option Nat :=
  match run? Char.isDigit s with
  | none => none
  | some n =>
    match s.drop n with
    | '.' :: t => (run? Char.isDigit t).map (n + 1 + ·)
    | _ => none

/-- Whether a character is a digit in base two. -/
def isBinaryDigit (c : Char) : Bool := c = '0' || c = '1'

/-- Whether a character is a digit in base eight. -/
def isOctalDigit (c : Char) : Bool := '0' ≤ c && c ≤ '7'

/-- Whether a character is a digit in base sixteen, in upper or lower case. -/
def isHexDigit (c : Char) : Bool := c.isDigit || ('a' ≤ c.toLower && c.toLower ≤ 'f')

/-- The length of a word in upper or lower case that no character of a name follows. -/
def wordLength? (letters : String) (s : List Char) : Option Nat :=
  let w := s.takeWhile isNameChar
  if lower w = letters then some w.length else none

/-- The length of the literal of a lexical kind at the start of a text. -/
def literalLength? : LiteralKind → List Char → Option Nat
  | .integer => signed (run? Char.isDigit)
  | .decimal => signed decimalLength?
  | .binary => signed (basedLength? 'b' isBinaryDigit)
  | .hex => signed (basedLength? 'x' isHexDigit)
  | .octal => signed (basedLength? 'o' isOctalDigit)
  | .string => quotedLength?
  | .boolean true => wordLength? "true"
  | .boolean false => wordLength? "false"

/-- The length of the word of the given shape at the start of a text. -/
def length? : Shape → List Char → Option Nat
  | symbol text, s => if text.toList.isPrefixOf s then some text.length else none
  | word letters, s => wordLength? letters s
  | name, s => nameLength? isNameStart s
  | identifier, s =>
    if isKeyword (s.takeWhile isNameChar) then none else nameLength? isNameStart s
  | typeName, s => nameLength? Char.isAlpha s
  | literal kind, s => literalLength? kind s

end Shape

end RelAlgebra
