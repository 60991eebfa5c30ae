import RelAlgebra.Analysis.OfText
import RelAlgebra.Proofs.Catalog.Lookup
import RelAlgebra.Proofs.Grammar.Names

/-!
# Catalogs from declarations

In a catalog that a text of declarations describes, every handle lies inside the arena, and every
bound name was spelled in the text. Both are kept by each declaration, since it binds no name but
the one of its relation, and binds that one to a new relation if it has none yet.
-/

namespace RelAlgebra.Catalog

/-- All handles lie inside the arena, and all bound names can be spelled. -/
structure WellNamed (c : Catalog) : Prop where
  inRange : c.InRange
  spellable : ∀ name handle, c.handle? name = some handle → Spellable name

/-- The empty catalog binds no name. -/
theorem wellNamed_empty : (∅ : Catalog).WellNamed where
  inRange := by decide
  spellable _ _ h := nomatch h

/-- Interning a name binds it to the handle that is given for it, and leaves all other names. -/
theorem handle?_intern (c : Catalog) (name n : String) :
    (c.intern name).2.handle? n = if n = name then some (c.intern name).1 else c.handle? n := by
  unfold intern
  split
  · next handle h =>
    split
    · next hn => rw [hn]; exact h
    · rfl
  · exact handle?_create c name n

/-- Interning never removes a relation. -/
theorem size_le_intern (c : Catalog) (name : String) :
    c.arena.size ≤ (c.intern name).2.arena.size := by
  unfold intern
  split
  · exact Nat.le_refl _
  · rw [size_create]
    exact Nat.le_succ _

/-- The handle that is given for a name is inside the arena, if all bound handles were. -/
theorem InRange.intern_lt {c : Catalog} (h : c.InRange) (name : String) :
    (c.intern name).1 < (c.intern name).2.arena.size := by
  unfold Catalog.intern
  split
  · next handle hn => exact (inRange_iff c).1 h name handle hn
  · rw [size_create]
    exact Nat.lt_succ_self _

/-- Interning a name that can be spelled keeps all names so. -/
theorem WellNamed.intern {c : Catalog} (h : c.WellNamed) {name : String} (hname : Spellable name) :
    (c.intern name).2.WellNamed := by
  constructor
  · rw [inRange_iff]
    intro n handle hn
    -- The interned name has the handle that was given for it, all others have theirs of before.
    rw [handle?_intern] at hn
    split at hn
    · exact Option.some.inj hn ▸ h.inRange.intern_lt name
    · exact Nat.lt_of_lt_of_le ((inRange_iff c).1 h.inRange n handle hn) (size_le_intern c name)
  · intro n handle hn
    rw [handle?_intern] at hn
    split at hn
    · next heq => exact heq ▸ hname
    · exact h.spellable n handle hn

/-- What holds of a declaration that is not refused: the name of the relation is interned, and the
schema behind its handle, which had no such attribute, has got it. -/
theorem declare_eq_ok {c e : Catalog} {d : Declaration} (h : c.declare d = .ok e) :
    (∃ s, (c.intern d.relation).2.arena[(c.intern d.relation).1]? = some s ∧ d.attr ∉ s.names) ∧
    e = { (c.intern d.relation).2 with
      arena := (c.intern d.relation).2.arena.modify (c.intern d.relation).1
        (·.append ⟨d.attr, d.type⟩) } := by
  -- A declaration fails in three ways, and only then.
  unfold declare at h
  split at h
  · exact nomatch h
  · simp only at h
    split at h
    · exact nomatch h
    · next s hs =>
      split at h
      · exact nomatch h
      · next hnew =>
        refine ⟨⟨s, (fetch_eq_ok_iff ..).1 hs, ?_⟩, (Except.ok.inj h).symm⟩
        exact fun hmem => hnew (Schema.has_eq_true.2 hmem)

/-- A declaration of a relation that can be spelled keeps handles and names good. -/
theorem WellNamed.declare {c e : Catalog} {d : Declaration} (h : c.WellNamed)
    (hd : Spellable d.relation) (he : c.declare d = .ok e) : e.WellNamed := by
  have hi := h.intern hd
  rw [(declare_eq_ok he).2]
  constructor
  · rw [inRange_iff]
    intro n handle hn
    rw [Array.size_modify]
    exact (inRange_iff _).1 hi.inRange n handle hn
  · exact hi.spellable

/-- What every declaration of a list keeps is kept by all of them, one after the other. -/
theorem foldlM_declare_induction {P : Catalog → Prop} {ds : List Declaration}
    (hstep : ∀ d ∈ ds, ∀ c e : Catalog, P c → c.declare d = .ok e → P e) {c e : Catalog}
    (hc : P c) (he : ds.foldlM Catalog.declare c = .ok e) : P e := by
  induction ds generalizing c with
  | nil => exact Except.ok.inj he ▸ hc
  | cons d ds ih =>
    rw [List.foldlM_cons] at he
    cases hm : c.declare d with
    | error fault =>
      rw [hm] at he
      cases he
    | ok m =>
      rw [hm] at he
      exact ih (fun d hd => hstep d (List.mem_cons_of_mem _ hd))
        (hstep d (List.mem_cons_self ..) c m hc hm) he

/-- The catalog of a text comes from the declarations that were read. -/
theorem ofText_eq_ok {declarations : String} {c : Catalog}
    (h : Catalog.ofText declarations = .ok c) :
    ∃ ds, parseDeclarations declarations = .ok ds ∧ ds.foldlM Catalog.declare ∅ = .ok c := by
  unfold ofText at h
  cases hds : parseDeclarations declarations with
  | error e =>
    rw [hds] at h
    cases h
  | ok ds =>
    rw [hds] at h
    change (ofDeclarations ds).mapError Error.declare = .ok c at h
    cases hc : ofDeclarations ds with
    | error e =>
      rw [hc] at h
      cases h
    | ok m =>
      rw [hc] at h
      exact ⟨ds, rfl, Except.ok.inj h ▸ hc⟩

/-- A text of declarations describes a catalog in which all handles are inside the arena and all
names can be spelled. -/
theorem wellNamed_ofText {declarations : String} {c : Catalog}
    (h : Catalog.ofText declarations = .ok c) : c.WellNamed := by
  obtain ⟨ds, hds, hc⟩ := ofText_eq_ok h
  have hspell := fun d hd => (parseDeclarations_spelled hds d hd).1
  exact foldlM_declare_induction (fun d hd _ _ h he => h.declare (hspell d hd) he)
    wellNamed_empty hc

end RelAlgebra.Catalog
