import RelAlgebra.Catalog.Basic
import RelAlgebra.Grammar.Shape

/-!
# Slots

The result of every part of a query goes into a slot: a relation of the catalog that is known by a
stem followed by the number of the slot. Slots are numbered from one without gaps. A stem that holds
a character foreign to names keeps the names of slots apart from all names that a text can spell.
-/

namespace RelAlgebra

/-- Hands out slots. -/
structure Slots where
  /-- The start of every slot's name. -/
  stem : String
  /-- The number of the last slot, or zero. It has no bound here: a counter of 32 bits counts alike
  as long as there are fewer than 2^32 slots, and what is said of slots is exact up to there. -/
  last : Nat
  deriving DecidableEq, Repr

namespace Slots

/-- The name of a slot. -/
def name (s : Slots) (slot : Nat) : String := s.stem ++ toString slot

/-- Takes the next slot, whose number is that of the last one afterwards, and binds its name to a
new relation. -/
def allocate (s : Slots) (c : Catalog) : Slots × Catalog :=
  let s := { s with last := s.last + 1 }
  (s, c.create (s.name s.last))

/-- The numbers of the slots handed out so far. -/
def allocated (s : Slots) : List Nat := List.range' 1 s.last

end Slots

/-- The settings of an analysis. -/
structure Config where
  /-- The start of every slot's name. -/
  stem : String
  /-- Some character of the stem cannot stand in a name. -/
  foreign : stem.toList.all Shape.isNameChar = false

/-- The refusal of a stem that could start a name. -/
structure ConfigError where
  stem : String
  deriving DecidableEq, Repr

/-- The text that describes the refusal. -/
def ConfigError.message (e : ConfigError) : String :=
  s!"Slot prefix '{e.stem}' could collide with a declared relation"

namespace Config

/-- The settings that hold if nothing else is said. -/
def standard : Config := ⟨"$slot", by decide⟩

/-- The settings with the given stem, unless it could start a name. -/
def ofStem (stem : String) : Except ConfigError Config :=
  if h : stem.toList.all Shape.isNameChar = false then .ok ⟨stem, h⟩ else .error ⟨stem⟩

end Config

end RelAlgebra
