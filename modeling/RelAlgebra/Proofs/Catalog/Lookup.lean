import RelAlgebra.Catalog.Basic

/-!
# Looking names up

What the operations of a catalog do, seen through its two views: the handle that a name is bound to,
and the schema that stands at a handle of the arena. `Bindings.find?_eq_some_iff` and `Bindings.ext`
say that a map of names is the same as its look-up, since its entries are in order.
`Catalog.find?_eq_schema?` says when looking up a schema by its name meets no fault.
-/

namespace RelAlgebra

namespace Bindings

/-- In a list whose names increase, a name is looked up to the handle that is listed with it. -/
theorem lookup_eq_some_iff {l : List (String × Handle)} (hl : l.Pairwise (·.1 < ·.1))
    (name : String) (handle : Handle) : l.lookup name = some handle ↔ (name, handle) ∈ l := by
  induction l with
  | nil => simp
  | cons e rest ih =>
    obtain ⟨n, h⟩ := e
    obtain ⟨hlt, hrest⟩ := List.pairwise_cons.1 hl
    rw [List.lookup_cons]
    by_cases hn : name = n
    · subst hn
      -- No later entry has this name, since all of them come after it.
      have hnot : (name, handle) ∉ rest := fun hm => String.lt_irrefl name (hlt (name, handle) hm)
      simp [hnot, eq_comm]
    · have hne : (name == n) = false := by simpa using hn
      rw [hne, List.mem_cons]
      simp [ih hrest, hn]

/-- A name has a handle exactly if the two are an entry. -/
theorem find?_eq_some_iff (b : Bindings) (name : String) (handle : Handle) :
    b.find? name = some handle ↔ (name, handle) ∈ b.entries :=
  lookup_eq_some_iff b.sorted name handle

/-- Two increasing lists with the same entries are equal. -/
theorem eq_of_mem_iff {l m : List (String × Handle)} (hl : l.Pairwise (·.1 < ·.1))
    (hm : m.Pairwise (·.1 < ·.1)) (h : ∀ e, e ∈ l ↔ e ∈ m) : l = m := by
  induction l generalizing m with
  | nil =>
    cases m with
    | nil => rfl
    | cons e rest => exact absurd ((h e).2 (List.mem_cons_self ..)) (by simp)
  | cons d l ih =>
    cases m with
    | nil => exact absurd ((h d).1 (List.mem_cons_self ..)) (by simp)
    | cons e m =>
      obtain ⟨hdl, hl'⟩ := List.pairwise_cons.1 hl
      obtain ⟨hem, hm'⟩ := List.pairwise_cons.1 hm
      -- Each of the two heads is the least entry of its own list and occurs in the other.
      have hde : d = e := by
        rcases List.mem_cons.1 ((h d).1 (List.mem_cons_self ..)) with hd | hd
        · exact hd
        · rcases List.mem_cons.1 ((h e).2 (List.mem_cons_self ..)) with he | he
          · exact he.symm
          · exact absurd (String.lt_trans (hem d hd) (hdl e he)) (String.lt_irrefl _)
      subst hde
      have htail : ∀ e, e ∈ l ↔ e ∈ m := by
        intro e
        have hne {k : List (String × Handle)} (hk : ∀ x ∈ k, d.1 < x.1) (he : e ∈ k) : e ≠ d :=
          fun hed => String.lt_irrefl _ (hed ▸ hk e he)
        constructor
        · intro he
          exact (List.mem_cons.1 ((h e).1 (List.mem_cons_of_mem _ he))).resolve_left (hne hdl he)
        · intro he
          exact (List.mem_cons.1 ((h e).2 (List.mem_cons_of_mem _ he))).resolve_left (hne hem he)
      rw [ih hl' hm' htail]

/-- Bindings are determined by their look-up. -/
theorem ext {b c : Bindings} (h : ∀ name, b.find? name = c.find? name) : b = c := by
  obtain ⟨l, hl⟩ := b
  obtain ⟨m, hm⟩ := c
  have hlm : l = m := by
    apply eq_of_mem_iff hl hm
    intro ⟨name, handle⟩
    rw [← lookup_eq_some_iff hl, ← lookup_eq_some_iff hm]
    exact iff_of_eq (congrArg (· = some handle) (h name))
  subst hlm
  rfl

end Bindings

namespace Catalog

/-- The schema that a name stands for, if it is bound to a handle inside the arena. -/
def schema? (c : Catalog) (name : String) : Option Schema :=
  (c.handle? name).bind (c.arena[·]?)

/-- All handles lie inside the arena if the handles that are looked up do. -/
theorem inRange_iff (c : Catalog) :
    c.InRange ↔ ∀ name handle, c.handle? name = some handle → handle < c.arena.size := by
  unfold InRange handle?
  constructor
  · intro h name handle hn
    exact h _ ((Bindings.find?_eq_some_iff ..).1 hn)
  · intro h e he
    exact h e.1 e.2 ((Bindings.find?_eq_some_iff ..).2 he)

/-- A handle of the arena is read to the schema that stands there. -/
theorem fetch_eq_ok_iff (c : Catalog) (handle : Handle) (s : Schema) :
    c.fetch handle = .ok s ↔ c.arena[handle]? = some s := by
  unfold fetch
  split
  · next t ht => simp [ht]
  · next ht => simp [ht]

/-- A name has a schema exactly if it is bound to a handle at which the schema stands. -/
theorem find?_eq_some_iff (c : Catalog) (name : String) (s : Schema) :
    c.find? name = .ok (some s) ↔
      ∃ handle, c.handle? name = some handle ∧ c.arena[handle]? = some s := by
  unfold find?
  cases hn : c.handle? name with
  | none => simp
  | some handle =>
    cases hs : c.arena[handle]? with
    | none =>
      have hf : c.fetch handle = .error ⟨c.arena.size, handle⟩ := by unfold fetch; rw [hs]
      simp only [hf]
      constructor
      · intro h; exact nomatch h
      · rintro ⟨_, ⟨⟩, h⟩; rw [hs] at h; exact nomatch h
    | some t =>
      simp only [(fetch_eq_ok_iff ..).2 hs]
      constructor
      · intro h; exact ⟨handle, rfl, hs.trans (Except.ok.inj h)⟩
      · rintro ⟨_, ⟨⟩, h⟩; exact congrArg Except.ok (hs.symm.trans h)

/-- A name is found to stand for nothing exactly if it is not bound. -/
theorem find?_eq_none_iff (c : Catalog) (name : String) :
    c.find? name = .ok none ↔ c.handle? name = none := by
  unfold find?
  cases hn : c.handle? name with
  | none => simp
  | some handle =>
    simp only [reduceCtorEq, iff_false]
    unfold fetch
    split <;> exact fun h => nomatch h

/-- A look-up without a fault gives the schema that the name stands for. -/
theorem find?_eq_schema?_of_ok {c : Catalog} {name : String} {t : Option Schema}
    (h : c.find? name = .ok t) : c.find? name = .ok (c.schema? name) := by
  rw [h, schema?]
  cases t with
  | none => rw [(find?_eq_none_iff ..).1 h, Option.bind_none]
  | some s =>
    obtain ⟨handle, hhandle, hs⟩ := (find?_eq_some_iff ..).1 h
    rw [hhandle, Option.bind_some, hs]

/-- With all handles inside the arena, looking up the schema of a name never meets a fault. -/
theorem find?_eq_schema? {c : Catalog} (h : c.InRange) (name : String) :
    c.find? name = .ok (c.schema? name) := by
  unfold schema?
  cases hn : c.handle? name with
  | none => exact (find?_eq_none_iff ..).2 hn
  | some handle =>
    have hlt : handle < c.arena.size := (inRange_iff c).1 h name handle hn
    rw [Option.bind_some, Array.getElem?_eq_getElem hlt]
    exact (find?_eq_some_iff ..).2 ⟨handle, hn, Array.getElem?_eq_getElem hlt⟩

/-- A new relation has no attributes, and all others are what they were. -/
theorem getElem?_create (c : Catalog) (name : String) (i : Nat) :
    (c.create name).arena[i]? = if i = c.arena.size then some ∅ else c.arena[i]? :=
  Array.getElem?_push

end Catalog

end RelAlgebra
