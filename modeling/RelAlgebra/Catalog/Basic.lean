import RelAlgebra.Catalog.Bindings
import RelAlgebra.Query.Basic
import RelAlgebra.Schema

/-!
# Catalogs

A catalog keeps schemas in an arena and names that are bound to handles into it. Two names may be
bound to one handle, and then share a relation. Nothing in the arena is ever removed. A catalog that
was read from outside may bind a name to a handle beyond the arena; such a handle dangles, and an
operation that has to read the relation behind it is refused.
-/

namespace RelAlgebra

/-- A handle that was read although it lies beyond the arena. -/
structure Dangling where
  /-- The number of relations in the arena. -/
  size : Nat
  handle : Handle
  deriving DecidableEq, Repr

/-- The text that describes the fault. -/
def Dangling.message (d : Dangling) : String :=
  s!"index out of bounds: the len is {d.size} but the index is {d.handle}"

/-- Why an attribute cannot be declared. -/
inductive DeclareError where
  | emptyName
  | duplicate (relation attr : String)
  | dangling (fault : Dangling)
  deriving DecidableEq, Repr

/-- The text that describes the refusal. -/
def DeclareError.message : DeclareError → String
  | emptyName => "Relation and attribute names cannot be empty"
  | duplicate relation attr => s!"Attribute '{attr}' declared twice on relation '{relation}'"
  | dangling fault => fault.message

/-- Relations, and the names they are known by. -/
structure Catalog where
  arena : Array Schema
  names : Bindings
  deriving DecidableEq

namespace Catalog

/-- The catalog without relations. -/
def empty : Catalog := ⟨#[], ∅⟩

instance : EmptyCollection Catalog := ⟨empty⟩

/-- Every bound handle lies inside the arena. -/
def InRange (c : Catalog) : Prop := ∀ e ∈ c.names.entries, e.2 < c.arena.size

instance (c : Catalog) : Decidable c.InRange :=
  inferInstanceAs (Decidable (∀ e ∈ c.names.entries, e.2 < c.arena.size))

/-- The handle that a name is bound to. -/
def handle? (c : Catalog) (name : String) : Option Handle := c.names.find? name

/-- The schema behind a handle. -/
def fetch (c : Catalog) (handle : Handle) : Except Dangling Schema :=
  match c.arena[handle]? with
  | some s => .ok s
  | none => .error ⟨c.arena.size, handle⟩

/-- The schema that a name stands for. -/
def find? (c : Catalog) (name : String) : Except Dangling (Option Schema) :=
  match c.handle? name with
  | some handle => some <$> c.fetch handle
  | none => .ok none

/-- The bound names in increasing order, each with its handle and its schema. -/
def dump (c : Catalog) : Except Dangling (List (String × Handle × Schema)) :=
  c.names.entries.mapM fun (name, handle) => (name, handle, ·) <$> c.fetch handle

/-- Binds a name to a new relation without attributes, whose handle is the size of the arena. -/
def create (c : Catalog) (name : String) : Catalog :=
  ⟨c.arena.push ∅, c.names.insert name c.arena.size⟩

/-- Binds a name to the relation with the given handle. -/
def assign (c : Catalog) (name : String) (handle : Handle) : Catalog :=
  { c with names := c.names.insert name handle }

/-- The handle of a name and the catalog in which it is bound: a name that has none gets a new
relation. -/
def intern (c : Catalog) (name : String) : Handle × Catalog :=
  match c.handle? name with
  | some handle => (handle, c)
  | none => (c.arena.size, c.create name)

/-- Changes the schema behind a handle. -/
def update (c : Catalog) (handle : Handle) (f : Schema → Schema) : Except Dangling Catalog :=
  if handle < c.arena.size then
    .ok { c with arena := c.arena.modify handle f }
  else
    .error ⟨c.arena.size, handle⟩

/-- Writes an attribute into the relation that a name stands for, if there is one. -/
def put? (c : Catalog) (name : String) (a : Attribute) : Except Dangling (Option Catalog) :=
  match c.handle? name with
  | some handle => some <$> c.update handle (·.put a)
  | none => .ok none

/-- Declares an attribute that its relation does not have yet. -/
def declare (c : Catalog) (d : Declaration) : Except DeclareError Catalog :=
  if d.relation = "" ∨ d.attr = "" then
    .error .emptyName
  else
    let (handle, c) := c.intern d.relation
    match c.fetch handle with
    | .error fault => .error (.dangling fault)
    | .ok s =>
      if s.has d.attr then
        .error (.duplicate d.relation d.attr)
      else
        .ok { c with arena := c.arena.modify handle (·.append ⟨d.attr, d.type⟩) }

/-- Declares an attribute in place: the catalog is changed step by step, and a refusal leaves it as
the steps before have made it. -/
def enter (d : Declaration) : EStateM DeclareError Catalog Unit := do
  if d.relation = "" ∨ d.attr = "" then
    throw .emptyName
  else
    let handle ← modifyGet (·.intern d.relation)
    match (← get).fetch handle with
    | .error fault => throw (.dangling fault)
    | .ok s =>
      if s.has d.attr then
        throw (.duplicate d.relation d.attr)
      else
        modify fun c => { c with arena := c.arena.modify handle (·.append ⟨d.attr, d.type⟩) }

/-- The catalog that a list of declarations describes. -/
def ofDeclarations (ds : List Declaration) : Except DeclareError Catalog :=
  ds.foldlM declare ∅

/-- A new relation takes one place in the arena. -/
@[simp] theorem size_create (c : Catalog) (name : String) :
    (c.create name).arena.size = c.arena.size + 1 := by
  simp [create]

/-- A new relation is known by its name; all other names have the handle they had. -/
theorem handle?_create (c : Catalog) (name n : String) :
    (c.create name).handle? n = if n = name then some c.arena.size else c.handle? n :=
  Bindings.find?_insert ..

/-- An assignment changes what its own name is bound to and nothing else. -/
theorem handle?_assign (c : Catalog) (name : String) (handle : Handle) (n : String) :
    (c.assign name handle).handle? n = if n = name then some handle else c.handle? n :=
  Bindings.find?_insert ..

/-- A handle inside the arena is read without a fault. -/
theorem fetch_eq_ok {c : Catalog} {handle : Handle} (h : handle < c.arena.size) :
    c.fetch handle = .ok c.arena[handle] := by
  simp [fetch, h]

end Catalog

end RelAlgebra
