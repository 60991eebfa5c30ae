import RelAlgebra.Text.Blank
import RelAlgebra.Text.Uppercase

/-!
# Data types of attributes

An attribute is declared with the name of a data type. Eleven names are known; every other name is
kept as a type of its own. Predicates are checked with the coarse kind of a type only.
-/

namespace RelAlgebra

/-- What the predicate checker knows of a value. -/
inductive Kind where
  | numeric
  | string
  | boolean
  /-- Nothing is known. -/
  | unknown
  deriving DecidableEq, Repr

/-- The type of an attribute. -/
inductive DataType where
  | varchar
  | char
  | text
  | string
  | int
  | integer
  | double
  | decimal
  | float
  | long
  | blob
  /-- A type that is known by its name alone. -/
  | other (name : String)
  deriving DecidableEq, Repr

namespace DataType

/-- The known types in their canonical order. -/
def known : List DataType :=
  [varchar, char, text, string, int, integer, double, decimal, float, long, blob]

/-- The name under which a type is shown. -/
def name : DataType → String
  | varchar => "VARCHAR"
  | char => "CHAR"
  | text => "TEXT"
  | string => "STRING"
  | int => "INT"
  | integer => "INTEGER"
  | double => "DOUBLE"
  | decimal => "DECIMAL"
  | float => "FLOAT"
  | long => "LONG"
  | blob => "BLOB"
  | other name => name

/-- The type with the given name, which has to be in upper case. -/
def ofName (name : String) : DataType :=
  (known.find? (·.name = name)).getD (other name)

/-- The canonical form of a type's spelling: in upper case and without blanks at its ends. -/
def canonical (text : String) : String :=
  String.ofList (Uppercase.ofList (Blank.trim text.toList))

/-- The type that a text spells, in any case and with any blanks around it. -/
def ofText (text : String) : DataType := ofName (canonical text)

/-- Whether the type is known by its name alone. -/
def isOther : DataType → Bool
  | other _ => true
  | _ => false

/-- The coarse kind of the values of a type. -/
def kind : DataType → Kind
  | varchar | char | text | string => .string
  | int | integer | double | decimal | float | long | blob => .numeric
  | other _ => .unknown

end DataType

end RelAlgebra
