import RelAlgebra.Proofs.Catalog.Declarations

/-!
# Declarations in place

A declaration that is done in place binds the name of its relation, to a new relation if it has none,
before it looks whether the attribute is there already. Still it is all or nothing
(`Catalog.enter_all_or_nothing`): a new relation has no attributes, so a declaration that got one is
never refused, and a declaration that is refused has changed nothing.

Which declarations are refused, and who sees the attribute, is a matter of handles and not of names.
All names that share the handle of the relation count as its name.
-/

namespace RelAlgebra.Catalog

variable {c : Catalog} {d : Declaration}

/-- What a declaration in place does: it refuses empty names, interns the name of the relation, and
refuses an attribute that the relation has. -/
theorem run_enter (c : Catalog) (d : Declaration) :
    (enter d).run c =
      if d.relation = "" ∨ d.attr = "" then .error .emptyName c
      else
        match (c.intern d.relation).2.fetch (c.intern d.relation).1 with
        | .error fault => .error (.dangling fault) (c.intern d.relation).2
        | .ok s =>
          if s.has d.attr then .error (.duplicate d.relation d.attr) (c.intern d.relation).2
          else .ok () { (c.intern d.relation).2 with
            arena := (c.intern d.relation).2.arena.modify (c.intern d.relation).1
              (·.append ⟨d.attr, d.type⟩) } := by
  unfold enter
  split
  · rfl
  · -- The name is interned before the relation is looked at.
    have hintern : (modifyGet (·.intern d.relation) : EStateM DeclareError Catalog Handle).run c =
        .ok (c.intern d.relation).1 (c.intern d.relation).2 := rfl
    have hget (e : Catalog) : (get : EStateM DeclareError Catalog Catalog).run e = .ok e e := rfl
    rw [EStateM.run_bind, hintern]
    simp only [EStateM.run_bind, hget]
    cases (c.intern d.relation).2.fetch (c.intern d.relation).1 with
    | error fault => rfl
    | ok s => simp only; split <;> rfl

/-- Declaring an attribute in place or not comes to the same. -/
theorem declare_eq_enter (c : Catalog) (d : Declaration) :
    c.declare d = match (enter d).run c with
      | .ok _ e => .ok e
      | .error e _ => .error e := by
  rw [run_enter]
  unfold declare
  split
  · rfl
  · simp only
    cases (c.intern d.relation).2.fetch (c.intern d.relation).1 with
    | error fault => rfl
    | ok s => simp only; split <;> rfl

/-- `e` is `c` with the declared attribute: it stands at the end of the relation `handle`, which had
the schema `s`, and the declared name is bound to that relation. Nothing else is different. -/
structure Gains (c : Catalog) (d : Declaration) (handle : Handle) (s : Schema) (e : Catalog) :
    Prop where
  entry : e.arena[handle]? = some ⟨s.attributes ++ [⟨d.attr, d.type⟩]⟩
  others : ∀ i, i ≠ handle → e.arena[i]? = c.arena[i]?
  names : ∀ name, e.handle? name = if name = d.relation then some handle else c.handle? name

/-- Every name of the relation sees the attribute. -/
theorem Gains.find?_of_eq {handle : Handle} {s : Schema} {e : Catalog} (h : c.Gains d handle s e)
    {name : String} (hname : e.handle? name = some handle) :
    e.find? name = .ok (some ⟨s.attributes ++ [⟨d.attr, d.type⟩]⟩) :=
  (find?_eq_some_iff ..).2 ⟨handle, hname, h.entry⟩

/-- No name of another relation sees a change. -/
theorem Gains.find?_of_ne {handle : Handle} {s : Schema} {e : Catalog} (h : c.Gains d handle s e)
    (hrange : c.InRange) {name : String} (hname : e.handle? name ≠ some handle) :
    e.find? name = c.find? name := by
  have hbefore : e.handle? name = c.handle? name := by
    rw [h.names] at hname ⊢
    split at hname
    · exact absurd rfl hname
    · next hne => rw [if_neg hne]
  rw [hbefore] at hname
  cases hn : c.handle? name with
  | none => rw [(find?_eq_none_iff ..).2 hn, (find?_eq_none_iff ..).2 (hbefore.trans hn)]
  | some other =>
    -- The name is bound to another relation, which is as it was.
    have hother : other ≠ handle := fun heq => hname (heq ▸ hn)
    have hlt : other < c.arena.size := (inRange_iff c).1 hrange name other hn
    have hat : c.arena[other]? = some c.arena[other] := Array.getElem?_eq_getElem hlt
    rw [(find?_eq_some_iff ..).2 ⟨other, hn, hat⟩]
    exact (find?_eq_some_iff ..).2 ⟨other, hbefore.trans hn, (h.others other hother).trans hat⟩

/-- The relation of a declaration: the one that the name is bound to, or else a new one. -/
def Target (c : Catalog) (name : String) (handle : Handle) (s : Schema) : Prop :=
  c.handle? name = some handle ∧ c.arena[handle]? = some s ∨
    c.handle? name = none ∧ handle = c.arena.size ∧ s = ∅

/-- A name that has a schema has that of its relation. -/
theorem Target.eq_of_find? {name : String} {handle : Handle} {s t : Schema}
    (h : c.Target name handle s) (ht : c.find? name = .ok (some t)) : t = s := by
  obtain ⟨other, hother, hat⟩ := (find?_eq_some_iff ..).1 ht
  rcases h with ⟨hbound, hs⟩ | ⟨hunbound, -⟩
  · obtain rfl : other = handle := Option.some.inj (hother.symm.trans hbound)
    exact Option.some.inj (hat.symm.trans hs)
  · exact nomatch hother.symm.trans hunbound

/-- With the name interned, the relation is in the arena, and all others are as they were. -/
theorem exists_target (hrange : c.InRange) (name : String) :
    ∃ s, c.Target name (c.intern name).1 s ∧
      (c.intern name).2.arena[(c.intern name).1]? = some s ∧
      ∀ i, i ≠ (c.intern name).1 → (c.intern name).2.arena[i]? = c.arena[i]? := by
  unfold intern
  cases hname : c.handle? name with
  | some handle =>
    have hlt : handle < c.arena.size := (inRange_iff c).1 hrange name handle hname
    have hat : c.arena[handle]? = some c.arena[handle] := Array.getElem?_eq_getElem hlt
    exact ⟨_, .inl ⟨hname, hat⟩, hat, fun _ _ => rfl⟩
  | none =>
    refine ⟨∅, .inr ⟨hname, rfl, rfl⟩, ?_, fun i hi => ?_⟩
    · rw [getElem?_create, if_pos rfl]
    · rw [getElem?_create, if_neg hi]

/-- A declaration with names that are not empty is refused if the relation has the attribute, and
otherwise adds it. A refusal changes nothing, since a new relation has no attributes. -/
theorem run_enter_cases (hrange : c.InRange) (hrelation : d.relation ≠ "") (hattr : d.attr ≠ "") :
    ∃ handle s, c.Target d.relation handle s ∧
      (d.attr ∈ s.names ∧ c.find? d.relation = .ok (some s) ∧
          (enter d).run c = .error (.duplicate d.relation d.attr) c ∨
        d.attr ∉ s.names ∧ ∃ e, (enter d).run c = .ok () e ∧ c.Gains d handle s e) := by
  obtain ⟨s, htarget, hs, hothers⟩ := exists_target hrange d.relation
  have hfetch := (fetch_eq_ok_iff ..).2 hs
  have hrun := run_enter c d
  rw [if_neg (by simp [hrelation, hattr])] at hrun
  simp only [hfetch, Schema.has_eq_true] at hrun
  refine ⟨_, s, htarget, ?_⟩
  by_cases hmem : d.attr ∈ s.names
  · -- The relation has the attribute, so it was there before, and interning has changed nothing.
    rw [if_pos hmem] at hrun
    rcases htarget with ⟨hbound, hat⟩ | ⟨-, -, rfl⟩
    · have hsame : (c.intern d.relation).2 = c := by
        unfold intern
        rw [hbound]
      rw [hsame] at hrun
      exact .inl ⟨hmem, (find?_eq_some_iff ..).2 ⟨_, hbound, hat⟩, hrun⟩
    · exact absurd hmem List.not_mem_nil
  · -- The attribute is new.
    rw [if_neg hmem] at hrun
    refine .inr ⟨hmem, _, hrun, ?_, fun i hi => ?_, handle?_intern c d.relation⟩
    · rw [Array.getElem?_modify, if_pos rfl, hs]
      rfl
    · rw [Array.getElem?_modify, if_neg (Ne.symm hi), hothers i hi]

/-- A declaration in place, on a catalog without dangling handles, is all or nothing. It is refused
exactly if a name is empty or the relation has the attribute, under whichever of its names it got it,
and then the catalog is as it was. Otherwise the attribute is at the end of the relation, which is a
new one if the name was not bound. All names of the relation see it, and no other name sees a
change. -/
theorem enter_all_or_nothing (hrange : c.InRange) (d : Declaration) :
    ((∃ e c', (enter d).run c = .error e c') ↔
      d.relation = "" ∨ d.attr = "" ∨
        ∃ s, c.find? d.relation = .ok (some s) ∧ d.attr ∈ s.names) ∧
    (∀ e c', (enter d).run c = .error e c' →
      (e = .emptyName ∨ e = .duplicate d.relation d.attr) ∧ c' = c ∧ c.declare d = .error e) ∧
    ∀ c', (enter d).run c = .ok () c' → c.declare d = .ok c' ∧
      ∃ handle s, c.Target d.relation handle s ∧ c.Gains d handle s c' ∧
        (∀ name, c'.handle? name = some handle →
          c'.find? name = .ok (some ⟨s.attributes ++ [⟨d.attr, d.type⟩]⟩)) ∧
        ∀ name, c'.handle? name ≠ some handle → c'.find? name = c.find? name := by
  by_cases hempty : d.relation = "" ∨ d.attr = ""
  · -- A name is empty.
    have hrun : (enter d).run c = .error .emptyName c := by rw [run_enter, if_pos hempty]
    rw [declare_eq_enter, hrun]
    refine ⟨iff_of_true ⟨_, _, rfl⟩ (or_assoc.1 (.inl hempty)), ?_, nofun⟩
    rintro e c' ⟨⟩
    exact ⟨.inl rfl, rfl, rfl⟩
  · obtain ⟨hrelation, hattr⟩ := not_or.1 hempty
    obtain ⟨handle, s, htarget, ⟨hmem, hfind, hrun⟩ | ⟨hnew, e, hrun, hgains⟩⟩ :=
      run_enter_cases hrange hrelation hattr
    · -- The relation has the attribute.
      rw [declare_eq_enter, hrun]
      refine ⟨iff_of_true ⟨_, _, rfl⟩ (.inr (.inr ⟨s, hfind, hmem⟩)), ?_, nofun⟩
      rintro e c' ⟨⟩
      exact ⟨.inr rfl, rfl, rfl⟩
    · -- The attribute is added, so that none of the reasons for a refusal holds.
      have haccepted : ¬ (d.relation = "" ∨ d.attr = "" ∨
          ∃ t, c.find? d.relation = .ok (some t) ∧ d.attr ∈ t.names) := by
        rintro (h | h | ⟨t, ht, hmem⟩)
        · exact hrelation h
        · exact hattr h
        · exact hnew (htarget.eq_of_find? ht ▸ hmem)
      rw [declare_eq_enter, hrun]
      refine ⟨iff_of_false nofun haccepted, nofun, ?_⟩
      rintro c' ⟨⟩
      exact ⟨rfl, handle, s, htarget, hgains, fun _ => hgains.find?_of_eq,
        fun _ => hgains.find?_of_ne hrange⟩

/-- `R` and `S` share a relation. Its attribute `a` was added as one of `R`, so `S` may not declare
it again, but may declare `b`, which `R` then has and `T` has not. A declaration for a new name makes
a relation at the end of the arena. -/
theorem enter_all_or_nothing_shared :
    let c : Catalog := ⟨#[⟨[⟨"a", .int⟩]⟩, ⟨[⟨"b", .text⟩]⟩], .ofList [("R", 0), ("S", 0), ("T", 1)]⟩
    (∃ e, (enter ⟨"S", "a", .long⟩).run c = .error e c) ∧
    (∃ c', (enter ⟨"S", "b", .long⟩).run c = .ok () c' ∧
      c'.find? "R" = .ok (some ⟨[⟨"a", .int⟩, ⟨"b", .long⟩]⟩) ∧ c'.find? "T" = c.find? "T") ∧
    ∃ c', (enter ⟨"U", "a", .long⟩).run c = .ok () c' ∧ c'.handle? "U" = some 2 ∧
      c'.find? "U" = .ok (some ⟨[⟨"a", .long⟩]⟩) ∧ c'.find? "S" = c.find? "S" := by
  intro c
  have hrange : c.InRange := by decide
  refine ⟨?_, ?_, ?_⟩
  · obtain ⟨hrefused, hsame, -⟩ := enter_all_or_nothing hrange ⟨"S", "a", .long⟩
    obtain ⟨e, c', hrun⟩ := hrefused.2 (.inr (.inr ⟨⟨[⟨"a", .int⟩]⟩, rfl, by decide⟩))
    obtain ⟨-, rfl, -⟩ := hsame e c' hrun
    exact ⟨e, hrun⟩
  · obtain ⟨-, -, hadded⟩ := enter_all_or_nothing hrange ⟨"S", "b", .long⟩
    obtain ⟨c', hrun⟩ : ∃ c', (enter ⟨"S", "b", .long⟩).run c = .ok () c' := ⟨_, rfl⟩
    obtain ⟨-, handle, s, ⟨hbound, hat⟩ | ⟨hunbound, -⟩, hgains, hseen, hunseen⟩ := hadded c' hrun
    · obtain rfl : 0 = handle := Option.some.inj hbound
      obtain rfl : ⟨[⟨"a", .int⟩]⟩ = s := Option.some.inj hat
      exact ⟨c', hrun, hseen "R" (hgains.names "R"), hunseen "T" (by rw [hgains.names]; decide)⟩
    · exact nomatch hunbound
  · obtain ⟨-, -, hadded⟩ := enter_all_or_nothing hrange ⟨"U", "a", .long⟩
    obtain ⟨c', hrun⟩ : ∃ c', (enter ⟨"U", "a", .long⟩).run c = .ok () c' := ⟨_, rfl⟩
    obtain ⟨-, handle, s, ⟨hbound, -⟩ | ⟨-, rfl, rfl⟩, hgains, hseen, hunseen⟩ := hadded c' hrun
    · exact nomatch hbound
    · exact ⟨c', hrun, hgains.names "U", hseen "U" (hgains.names "U"),
        hunseen "S" (by rw [hgains.names]; decide)⟩

end RelAlgebra.Catalog
