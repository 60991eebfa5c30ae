import RelAlgebra.Catalog.Basic
import RelAlgebra.Text.Utf8

/-!
# Snapshots

A catalog as a sequence of bytes. Numbers are written in a fixed width with the least byte first,
and a text or a list is preceded by its length. The bindings may be written in any order; a snapshot
has them in the order of the names. Reading ignores what follows a snapshot, and takes handles as
they come.
-/

namespace RelAlgebra.Snapshot

/-- A number in the given count of bytes, the least one first. -/
def number : Nat → Nat → List UInt8
  | 0, _ => []
  | width + 1, n => (n % 256).toUInt8 :: number width (n / 256)

/-- A list, preceded by its length. -/
def list {α : Type} (item : α → List UInt8) (items : List α) : List UInt8 :=
  number 8 items.length ++ items.flatMap item

/-- A text, preceded by the number of its bytes. -/
def text (s : String) : List UInt8 := list (fun b => [b]) (Utf8.encode s.toList)

/-- The number that stands for a data type. -/
def typeCode (t : DataType) : Nat := DataType.known.idxOf t

/-- A data type: its number, and the name of a type that is known by its name alone. -/
def dataType (t : DataType) : List UInt8 :=
  number 4 (typeCode t) ++
    match t with
    | .other name => text name
    | _ => []

/-- An attribute: its name and its type. -/
def attr (a : Attribute) : List UInt8 := text a.name ++ dataType a.type

/-- A schema: the list of its attributes. -/
def schema (s : Schema) : List UInt8 := list attr s.attributes

/-- A binding: the name and the handle. -/
def binding (e : String × Handle) : List UInt8 := text e.1 ++ number 8 e.2

/-- The bytes of an arena and of bindings in the order in which they are given. -/
def bytes (arena : List Schema) (entries : List (String × Handle)) : List UInt8 :=
  list schema arena ++ list binding entries

/-- The bytes of a catalog. -/
def encode (c : Catalog) : List UInt8 := bytes c.arena.toList c.names.entries

/-- Why bytes are no snapshot. -/
inductive Fault where
  /-- The bytes end inside a number. -/
  | shortNumber
  /-- The bytes end inside a text. -/
  | shortText
  | badText (fault : Utf8.Fault)
  | badType (code : Nat)
  deriving DecidableEq, Repr

/-- The text that describes a fault. -/
def Fault.message : Fault → String
  | shortNumber => "io error: unexpected end of file"
  | shortText => "io error: "
  | badText fault => "string is not valid utf8: " ++ fault.message
  | badType code => s!"invalid value: integer `{code}`, expected variant index 0 <= i < 12"

/-- Reading takes a value from the start of the bytes and leaves the others. -/
abbrev Reader := StateT (List UInt8) (Except Fault)

/-- The number that bytes write, the least one first. -/
def ofBytes : List UInt8 → Nat
  | [] => 0
  | b :: bs => b.toNat + 256 * ofBytes bs

/-- Takes the given count of bytes. -/
def take (fault : Fault) (count : Nat) : Reader (List UInt8) := fun bs =>
  if bs.length < count then .error fault else .ok (bs.take count, bs.drop count)

/-- Reads a number of the given count of bytes. -/
def readNumber (width : Nat) : Reader Nat := ofBytes <$> take .shortNumber width

/-- Reads a text. Its length is checked before its bytes. -/
def readText : Reader String := do
  let count ← readNumber 8
  let bs ← take .shortText count
  match Utf8.decode bs with
  | .ok s => return String.ofList s
  | .error fault => throw (.badText fault)

/-- Reads the given count of items. -/
def readItems {α : Type} (item : Reader α) : Nat → Reader (List α)
  | 0 => return []
  | count + 1 => do
    let a ← item
    let as ← readItems item count
    return a :: as

/-- Reads a list. -/
def readList {α : Type} (item : Reader α) : Reader (List α) := do
  let count ← readNumber 8
  readItems item count

/-- Reads a data type. -/
def readType : Reader DataType := do
  let code ← readNumber 4
  match DataType.known[code]? with
  | some t => return t
  | none => if code = DataType.known.length then .other <$> readText else throw (.badType code)

/-- Reads an attribute. -/
def readAttr : Reader Attribute := do
  let name ← readText
  let type ← readType
  return ⟨name, type⟩

/-- Reads a schema, whose names need not be distinct. -/
def readSchema : Reader Schema := .mk <$> readList readAttr

/-- Reads a binding. -/
def readBinding : Reader (String × Handle) := do
  let name ← readText
  let handle ← readNumber 8
  return (name, handle)

/-- Reads a catalog. Of several bindings of one name the last one holds. -/
def readCatalog : Reader Catalog := do
  let arena ← readList readSchema
  let entries ← readList readBinding
  return ⟨arena.toArray, .ofList entries⟩

/-- The catalog that bytes describe. -/
def decode (bs : List UInt8) : Except Fault Catalog := (·.1) <$> readCatalog.run bs

end RelAlgebra.Snapshot
