import RelAlgebra.Proofs.Query.Algebra

/-!
# Writing attributes one after the other

A write overwrites the attribute of its name in place, or else adds it at the end. After a sequence
of writes a name has its place from the first of them that goes to it, and its type from the last.
`Schema.Written` says this without the writing, and `Schema.putAll_eq_iff` shows that it is true of
one schema only, which is the one that the writes lead to.
-/

namespace RelAlgebra.Schema

variable {s t : Schema} {writes : List Attribute} {name : String}

/-! ## Names -/

/-- The names that are written and that the schema does not have, each once, in the order in which
they are first written. -/
def newNames (s : Schema) (writes : List Attribute) : List String :=
  ((writes.map (·.name)).filter (· ∉ s.names)).eraseDups

/-- The new names are those that are written and were not there. -/
theorem mem_newNames :
    name ∈ s.newNames writes ↔ name ∈ writes.map (·.name) ∧ name ∉ s.names := by
  rw [newNames, List.mem_eraseDups, List.mem_filter, decide_eq_true_eq]

/-- One more write adds its name to the new ones, unless it was there or was written before. -/
theorem newNames_append_singleton (s : Schema) (writes : List Attribute) (a : Attribute) :
    s.newNames (writes ++ [a]) =
      if a.name ∈ (s.putAll writes).names then s.newNames writes
      else s.newNames writes ++ [a.name] := by
  have hbefore : (s.putAll writes).names = s.names ++ s.newNames writes := names_putAll s writes
  have hstep : s.putAll (writes ++ [a]) = (s.putAll writes).put a := by
    rw [putAll, putAll, List.foldl_append, List.foldl_cons, List.foldl_nil]
  -- The names of the schema stand before the new ones on both sides, and are left away at the end.
  have hafter : s.names ++ s.newNames (writes ++ [a]) =
      if a.name ∈ (s.putAll writes).names then s.names ++ s.newNames writes
      else s.names ++ s.newNames writes ++ [a.name] := by
    calc s.names ++ s.newNames (writes ++ [a])
      _ = (s.putAll (writes ++ [a])).names := (names_putAll s (writes ++ [a])).symm
      _ = ((s.putAll writes).put a).names := by rw [hstep]
      _ = _ := by rw [names_put, hbefore]
  split at hafter
  · next hmem =>
    rw [if_pos hmem]
    exact List.append_cancel_left hafter
  · next hnew =>
    rw [List.append_assoc] at hafter
    rw [if_neg hnew]
    exact List.append_cancel_left hafter

/-- The new names are in the order of the first writes to them. -/
theorem pairwise_newNames (s : Schema) (writes : List Attribute) :
    (s.newNames writes).Pairwise fun x y =>
      (writes.map (·.name)).idxOf x < (writes.map (·.name)).idxOf y := by
  -- Induction on the writes from the last one: it is the latest first write, if it is one at all.
  induction writes using List.reverseRecOn with
  | nil => exact .nil
  | append_singleton writes a ih =>
    have hold : ∀ x ∈ s.newNames writes, ((writes ++ [a]).map (·.name)).idxOf x =
        (writes.map (·.name)).idxOf x := by
      intro x hx
      rw [List.map_append, List.idxOf_append_of_mem (mem_newNames.1 hx).1]
    have hpairs : (s.newNames writes).Pairwise fun x y =>
        ((writes ++ [a]).map (·.name)).idxOf x < ((writes ++ [a]).map (·.name)).idxOf y := by
      refine ih.imp_of_mem fun hx hy hlt => ?_
      rw [hold _ hx, hold _ hy]
      exact hlt
    rw [newNames_append_singleton]
    split
    · -- The name was there or was written before.
      exact hpairs
    · -- The write is the first one to its name, and comes after all others.
      next hnew =>
      have hfirst : a.name ∉ writes.map (·.name) := by
        intro hmem
        rw [names_putAll, List.mem_append, not_or] at hnew
        exact hnew.2 (mem_newNames.2 ⟨hmem, hnew.1⟩)
      refine List.pairwise_append.2 ⟨hpairs, List.pairwise_singleton .., fun x hx y hy => ?_⟩
      obtain rfl := List.mem_singleton.1 hy
      have hlt := List.idxOf_lt_length_of_mem (mem_newNames.1 hx).1
      rw [hold x hx, List.map_append, List.idxOf_append_of_notMem hfirst]
      omega

/-! ## Types -/

/-- A name that is not written is found as before. -/
theorem find?_putAll_of_not_mem (h : name ∉ writes.map (·.name)) :
    (s.putAll writes).find? name = s.find? name := by
  have hnone : writes.reverse.find? (·.name = name) = none := by
    rw [List.find?_eq_none]
    intro b hb hname
    exact h (List.mem_map.2 ⟨b, List.mem_reverse.1 hb, of_decide_eq_true hname⟩)
  rw [find?_putAll, hnone, Option.none_or]

/-- The last write to a name decides what is found under it. -/
theorem find?_putAll_of_last {before after : List Attribute} {a : Attribute}
    (ha : a.name ∉ after.map (·.name)) :
    (s.putAll (before ++ a :: after)).find? a.name = some a := by
  have hsplit : s.putAll (before ++ a :: after) = ((s.putAll before).put a).putAll after := by
    rw [putAll, List.foldl_append, List.foldl_cons, putAll, putAll]
  rw [hsplit, find?_putAll_of_not_mem ha, find?_put, if_pos rfl]

/-- A name that is written is written for a last time. -/
theorem exists_last (h : name ∈ writes.map (·.name)) :
    ∃ before a after, writes = before ++ a :: after ∧ a.name = name ∧
      name ∉ after.map (·.name) := by
  induction writes with
  | nil => exact absurd h List.not_mem_nil
  | cons b writes ih =>
    by_cases hlater : name ∈ writes.map (·.name)
    · obtain ⟨before, a, after, rfl, hname, hlast⟩ := ih hlater
      exact ⟨b :: before, a, after, rfl, hname, hlast⟩
    · have hname : b.name = name := (List.mem_cons.1 h).elim Eq.symm fun hmem => absurd hmem hlater
      exact ⟨[], b, writes, rfl, hname, hlater⟩

/-! ## The closed form -/

/-- The schema `t` is what the writes make of `s`. -/
structure Written (s : Schema) (writes : List Attribute) (t : Schema) : Prop where
  distinct : t.Distinct
  names : t.names = s.names ++ s.newNames writes
  order : (s.newNames writes).Pairwise fun x y =>
    (writes.map (·.name)).idxOf x < (writes.map (·.name)).idxOf y
  /-- A name that was written has the attribute that was written last. -/
  last : ∀ before a after, writes = before ++ a :: after → a.name ∉ after.map (·.name) →
    t.find? a.name = some a
  /-- A name that was not written has the attribute that it had. -/
  kept : ∀ name, name ∉ writes.map (·.name) → t.find? name = s.find? name
  find : ∀ name a, t.find? name = some a ↔ a ∈ t.attributes ∧ a.name = name
  has : ∀ name, t.has name = true ↔ name ∈ s.names ∨ name ∈ writes.map (·.name)
  size : t.size = s.size + (s.newNames writes).length

/-- Writing attributes one after the other makes of a schema what is described. -/
theorem written_putAll (h : s.Distinct) (writes : List Attribute) :
    s.Written writes (s.putAll writes) where
  distinct := h.putAll writes
  names := names_putAll s writes
  order := pairwise_newNames s writes
  last _ _ _ hwrites ha := hwrites ▸ find?_putAll_of_last ha
  kept _ := find?_putAll_of_not_mem
  find _ _ := find?_eq_some_iff (h.putAll writes)
  has name := by
    have hnames : (s.putAll writes).names = s.names ++ s.newNames writes := names_putAll s writes
    -- A name is written or not, and if it is written it was there or is new.
    rw [has_eq_true, hnames, List.mem_append, mem_newNames]
    tauto
  size := by
    have hlength := congrArg List.length (names_putAll s writes)
    rw [List.length_append, Schema.names, Schema.names, List.length_map, List.length_map] at hlength
    exact hlength

/-- What is found under a name after writes is determined. -/
theorem Written.find?_eq {u : Schema} (ht : s.Written writes t) (hu : s.Written writes u)
    (name : String) : t.find? name = u.find? name := by
  by_cases hname : name ∈ writes.map (·.name)
  · obtain ⟨before, a, after, hwrites, rfl, hlast⟩ := exists_last hname
    rw [ht.last before a after hwrites hlast, hu.last before a after hwrites hlast]
  · rw [ht.kept name hname, hu.kept name hname]

/-- Writing attributes one after the other into a schema without repeated names leads to the schema
`t` exactly if `t` has no repeated names, its names are those that were there and after them the
new ones in the order in which they are first written, and every name has the attribute that was
written last under it, or the one that it had if none was. -/
theorem putAll_eq_iff (h : s.Distinct) (writes : List Attribute) (t : Schema) :
    s.putAll writes = t ↔ s.Written writes t := by
  constructor
  · rintro rfl
    exact written_putAll h writes
  · -- The order of the names and what is found under them leave no choice.
    intro ht
    have hs := written_putAll h writes
    exact ext_of_find? hs.distinct ht.distinct (hs.names.trans ht.names.symm) (hs.find?_eq ht)

/-- The old name `a` keeps its place and gets another type, the new name `c` has its place from the
first write to it and its type from the second, and `b` is not written. -/
theorem putAll_eq_iff_interleaved :
    let s : Schema := ⟨[⟨"a", .int⟩, ⟨"b", .text⟩]⟩
    let writes : List Attribute :=
      [⟨"c", .long⟩, ⟨"a", .text⟩, ⟨"d", .int⟩, ⟨"c", .int⟩, ⟨"a", .long⟩]
    s.Distinct ∧
      s.Written writes ⟨[⟨"a", .long⟩, ⟨"b", .text⟩, ⟨"c", .int⟩, ⟨"d", .int⟩]⟩ ∧
      ¬ s.Written writes ⟨[⟨"b", .text⟩, ⟨"a", .long⟩, ⟨"c", .int⟩, ⟨"d", .int⟩]⟩ := by
  intro s writes
  have hs : s.Distinct := by decide
  refine ⟨hs, (putAll_eq_iff hs writes _).1 (by decide), fun h => ?_⟩
  exact absurd ((putAll_eq_iff hs writes _).2 h) (by decide)

end RelAlgebra.Schema
