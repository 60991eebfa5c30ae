import RelAlgebra.DataType

/-!
# Schemas

A schema is the list of attributes of a relation. Writing an attribute goes to the first attribute
of that name, or to the end if there is none, so that a schema built by writing alone never holds a
name twice.
-/

namespace RelAlgebra

/-- A named column. -/
structure Attribute where
  name : String
  type : DataType
  deriving DecidableEq, Repr

/-- The attributes of a relation, in their order. -/
structure Schema where
  attributes : List Attribute
  deriving DecidableEq, Repr

namespace Schema

/-- The schema without attributes. -/
def empty : Schema := ⟨[]⟩

instance : EmptyCollection Schema := ⟨empty⟩

/-- The number of attributes. -/
def size (s : Schema) : Nat := s.attributes.length

/-- The names of the attributes, in their order. -/
def names (s : Schema) : List String := s.attributes.map (·.name)

/-- The first attribute of the given name. -/
def find? (s : Schema) (name : String) : Option Attribute :=
  s.attributes.find? (·.name = name)

/-- Whether there is an attribute of the given name. -/
def has (s : Schema) (name : String) : Bool := s.attributes.any (·.name = name)

/-- Adds an attribute at the end. -/
def append (s : Schema) (a : Attribute) : Schema := ⟨s.attributes ++ [a]⟩

/-- Writes an attribute into a list: it takes the place of the first of its name, else the end. -/
def putList (a : Attribute) : List Attribute → List Attribute
  | [] => [a]
  | b :: bs => if b.name = a.name then a :: bs else b :: putList a bs

/-- Writes an attribute: it takes the place of the first of its name, else the end. -/
def put (s : Schema) (a : Attribute) : Schema := ⟨putList a s.attributes⟩

/-- Writes a list of attributes, the first one first. -/
def putAll (s : Schema) (as : List Attribute) : Schema := as.foldl put s

/-- The schema that is built by writing a list of attributes. -/
def ofAttributes (as : List Attribute) : Schema := empty.putAll as

/-- No name occurs twice. -/
def Distinct (s : Schema) : Prop := s.names.Nodup

instance (s : Schema) : Decidable s.Distinct := inferInstanceAs (Decidable s.names.Nodup)

/-- The test for a name is membership among the names of the columns. -/
@[simp] theorem has_eq_true {s : Schema} {name : String} : s.has name = true ↔ name ∈ s.names := by
  simp [has, names]

/-- A column is found for exactly the names that the schema has. -/
theorem find?_isSome {s : Schema} {name : String} : (s.find? name).isSome = s.has name := by
  rw [Bool.eq_iff_iff]
  simp [find?, has]

/-- Writing an attribute adds its name at the end, unless it is there. -/
theorem names_put (s : Schema) (a : Attribute) :
    (s.put a).names = if a.name ∈ s.names then s.names else s.names ++ [a.name] := by
  obtain ⟨l⟩ := s
  simp only [put, names]
  induction l with
  | nil => simp [putList]
  | cons b bs ih => grind [putList]

/-- The attribute that was written is found under its name, and all others as before. -/
theorem find?_put (s : Schema) (a : Attribute) (name : String) :
    (s.put a).find? name = if name = a.name then some a else s.find? name := by
  obtain ⟨l⟩ := s
  simp only [put, find?]
  induction l with
  | nil => grind [putList]
  | cons b bs ih => grind [putList]

/-- Writing an attribute keeps the names distinct. -/
theorem Distinct.put {s : Schema} (h : s.Distinct) (a : Attribute) : (s.put a).Distinct := by
  unfold Distinct at *
  rw [names_put]
  split
  · exact h
  · next hn => simpa [List.nodup_append] using ⟨h, fun x hx => fun e => hn (e ▸ hx)⟩

end Schema

end RelAlgebra
