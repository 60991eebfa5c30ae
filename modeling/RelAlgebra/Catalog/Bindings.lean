/-!
# Names bound to handles

A finite map from names to handles, kept as a list in increasing order of the names, so that two
maps with the same bindings are equal. Names are compared character by character.
-/

namespace RelAlgebra

/-- The index of a relation in the arena of a catalog. -/
abbrev Handle := Nat

/-- Names with their handles, in increasing order of the names. -/
structure Bindings where
  entries : List (String × Handle)
  sorted : entries.Pairwise (·.1 < ·.1)
  deriving DecidableEq

namespace Bindings

/-- No name is bound. -/
def empty : Bindings := ⟨[], .nil⟩

instance : EmptyCollection Bindings := ⟨empty⟩

/-- Puts a binding in its place, where it takes over from one of the same name. -/
def insertEntry (name : String) (handle : Handle) : List (String × Handle) → List (String × Handle)
  | [] => [(name, handle)]
  | (n, h) :: rest =>
    if name < n then
      (name, handle) :: (n, h) :: rest
    else if name = n then
      (name, handle) :: rest
    else
      (n, h) :: insertEntry name handle rest

/-- An entry after an insertion is the inserted one or was there before. -/
theorem mem_insertEntry {name : String} {handle : Handle} {e : String × Handle}
    {l : List (String × Handle)} (h : e ∈ insertEntry name handle l) :
    e = (name, handle) ∨ e ∈ l := by
  induction l with
  | nil => simpa [insertEntry] using h
  | cons d rest ih =>
    simp only [insertEntry] at h
    split at h
    · simpa using h
    · split at h
      · grind
      · grind

/-- An insertion keeps the names in order, and each of them single. -/
theorem sorted_insertEntry {l : List (String × Handle)} (h : l.Pairwise (·.1 < ·.1))
    (name : String) (handle : Handle) : (insertEntry name handle l).Pairwise (·.1 < ·.1) := by
  induction l with
  | nil => simp [insertEntry]
  | cons d rest ih =>
    obtain ⟨hd, hrest⟩ := List.pairwise_cons.1 h
    simp only [insertEntry]
    split
    · next hlt =>
      refine List.pairwise_cons.2 ⟨fun e he => ?_, h⟩
      rcases List.mem_cons.1 he with rfl | he
      · exact hlt
      · exact String.lt_trans hlt (hd e he)
    · split
      · next heq => exact List.pairwise_cons.2 ⟨fun e he => heq ▸ hd e he, hrest⟩
      · refine List.pairwise_cons.2 ⟨fun e he => ?_, ih hrest⟩
        rcases mem_insertEntry he with rfl | he
        · grind
        · exact hd e he

/-- Binds a name, whether it was bound or not. -/
def insert (b : Bindings) (name : String) (handle : Handle) : Bindings :=
  ⟨insertEntry name handle b.entries, sorted_insertEntry b.sorted name handle⟩

/-- The handle that a name is bound to. -/
def find? (b : Bindings) (name : String) : Option Handle := b.entries.lookup name

/-- The bound names in increasing order. -/
def names (b : Bindings) : List String := b.entries.map (·.1)

/-- The bindings of a list, where a later one wins over an earlier one of the same name. -/
def ofList (entries : List (String × Handle)) : Bindings :=
  entries.foldl (fun b (name, handle) => b.insert name handle) ∅

/-- Nothing is bound at the start. -/
@[simp] theorem find?_empty (name : String) : (∅ : Bindings).find? name = none := rfl

/-- A name that was just bound has that handle, and all others have what they had. -/
theorem find?_insert (b : Bindings) (name : String) (handle : Handle) (n : String) :
    (b.insert name handle).find? n = if n = name then some handle else b.find? n := by
  obtain ⟨l, h⟩ := b
  simp only [insert, find?]
  clear h
  induction l with
  | nil => grind [insertEntry]
  | cons e rest ih => grind [insertEntry]

end Bindings

end RelAlgebra
