import RelAlgebra.Proofs.Analysis.Inference
import RelAlgebra.Proofs.Analysis.Stable
import RelAlgebra.Proofs.Catalog.RoundTrip

/-!
# Well-formed catalogs

A catalog is well-formed if no handle dangles and no relation has two attributes of one name. The
catalogs that texts describe are, and every operation on a catalog keeps it so. None of them meets a
fault, and what is in the arena stays there: the attribute names of a relation can only become more,
at the end.

All operations but reading a snapshot come down to the three that an analysis uses, so both facts
are one property, `Catalog.stable_grown`, that these three keep.
-/

namespace RelAlgebra

/-- A catalog comes back from its snapshot. -/
theorem Snapshot.decode_encode {c : Catalog} (h : Fits c) : decode (encode c) = .ok c := by
  have hread := reads_catalog h (.refl _) []
  rw [List.append_nil] at hread
  unfold decode encode
  change (·.1) <$> readCatalog (bytes c.arena.toList c.names.entries) = _
  rw [hread]
  rfl

namespace Catalog

/-- No handle dangles, and no relation has two attributes of one name. -/
structure WellFormed (c : Catalog) : Prop where
  inRange : c.InRange
  distinct : ∀ s ∈ c.arena, s.Distinct

/-- Every relation of `c` is in `e` under the same handle, and its attribute names are there in the
same order, perhaps with others after them. -/
structure Grows (c e : Catalog) : Prop where
  size_le : c.arena.size ≤ e.arena.size
  names : ∀ (handle : Handle) (s : Schema), c.arena[handle]? = some s →
    ∃ t, e.arena[handle]? = some t ∧ s.names <+: t.names

/-- A catalog that stays as it is has grown by nothing. -/
theorem Grows.refl (c : Catalog) : c.Grows c :=
  ⟨Nat.le_refl _, fun _ s hs => ⟨s, hs, List.prefix_rfl⟩⟩

/-- Being well-formed and having grown from a catalog is kept by all that an analysis does. -/
theorem stable_grown (c : Catalog) : Stable fun e => e.WellFormed ∧ c.Grows e where
  inRange h := h.1.inRange
  create := by
    -- The new relation comes after all others and has no attributes.
    rintro e name ⟨hwell, hgrows⟩
    refine ⟨⟨hwell.inRange.create name, fun s hs => ?_⟩, ?_, fun handle s hs => ?_⟩
    · rcases Array.mem_push.1 hs with hs | rfl
      · exact hwell.distinct s hs
      · exact List.nodup_nil
    · rw [size_create]
      exact Nat.le_succ_of_le hgrows.size_le
    · obtain ⟨t, ht, hnames⟩ := hgrows.names handle s hs
      obtain ⟨hlt, -⟩ := Array.getElem?_eq_some_iff.1 ht
      exact ⟨t, by rw [getElem?_create, if_neg (Nat.ne_of_lt hlt), ht], hnames⟩
  assign := by
    rintro e name handle hlt ⟨hwell, hgrows⟩
    exact ⟨⟨hwell.inRange.assign name hlt, hwell.distinct⟩, hgrows.size_le, hgrows.names⟩
  putAll := by
    rintro e handle as ⟨hwell, hgrows⟩
    refine ⟨⟨hwell.inRange.modify handle _, fun s hs => ?_⟩, ?_, fun i s hs => ?_⟩
    · obtain ⟨i, hi⟩ := Array.mem_iff_getElem?.1 hs
      rw [Array.getElem?_modify] at hi
      split at hi
      · obtain ⟨t, ht, rfl⟩ := Option.map_eq_some_iff.1 hi
        exact (hwell.distinct t (Array.mem_of_getElem? ht)).putAll as
      · exact hwell.distinct s (Array.mem_of_getElem? hi)
    · rw [Array.size_modify]
      exact hgrows.size_le
    · -- The relation is the one that was changed, or it is as it was.
      obtain ⟨t, ht, hnames⟩ := hgrows.names i s hs
      rw [Array.getElem?_modify]
      split
      · have hprefix : t.names <+: (t.putAll as).names := by
          rw [Schema.names_putAll]
          exact List.prefix_append ..
        exact ⟨t.putAll as, by rw [ht]; rfl, hnames.trans hprefix⟩
      · exact ⟨t, ht, hnames⟩

/-- An attribute that is declared is written. -/
theorem declare_eq_put {c e : Catalog} {d : Declaration} (h : c.declare d = .ok e) :
    e = { (c.intern d.relation).2 with
      arena := (c.intern d.relation).2.arena.modify (c.intern d.relation).1
        (·.putAll [⟨d.attr, d.type⟩]) } := by
  obtain ⟨⟨s, hs, hnew⟩, rfl⟩ := declare_eq_ok h
  -- The attribute is new, so that writing it adds it at the end.
  have hput : s.putAll [⟨d.attr, d.type⟩] = s.append ⟨d.attr, d.type⟩ :=
    congrArg Schema.mk (Schema.putList_of_not_mem hnew)
  refine congrArg (Catalog.mk · _) (Array.ext_getElem? fun i => ?_)
  rw [Array.getElem?_modify, Array.getElem?_modify]
  split
  · next heq =>
    subst heq
    rw [hs, Option.map_some, Option.map_some, hput]
  · rfl

/-- A declaration meets no dangling handle if there is none. -/
theorem InRange.declare_ne_dangling {c : Catalog} (h : c.InRange) (d : Declaration)
    (fault : Dangling) : c.declare d ≠ .error (.dangling fault) := by
  have hfetch := fetch_eq_ok (h.intern_lt d.relation)
  unfold Catalog.declare
  split
  · exact nofun
  · simp only [hfetch]
    split <;> exact nofun

end Catalog

/-- The operations on a catalog. -/
inductive Operation where
  | declare (d : Declaration)
  | create (name : String)
  /-- Binds a name to the relation of another name. -/
  | rebind (name target : String)
  /-- Writes an attribute into the relation of a name. -/
  | write (name : String) (a : Attribute)
  /-- Takes a slot. -/
  | allocate (slots : Slots)
  /-- Analyzes a program text, after the given slots. -/
  | analyze (slots : Slots) (text : String)
  /-- Writes a snapshot and reads it back. -/
  | restore

namespace Catalog

/-- The catalog after a declaration, which is as before if the declaration was refused. -/
def declared (c : Catalog) : Except DeclareError Catalog → Except Dangling Catalog
  | .ok e => .ok e
  | .error (.dangling fault) => .error fault
  | .error _ => .ok c

/-- The catalog after an analysis of what was read. If it is not a program, nothing is done. -/
def analyzed (c : Catalog) (slots : Slots) :
    Except SyntaxError (List Query) → Except Dangling Catalog
  | .ok qs =>
    match (Analysis.program qs).run { catalog := c, slots } with
    | .ok _ a => .ok a.catalog
    | .error fault _ => .error fault
  | .error _ => .ok c

/-- The catalog after an operation, unless it meets a dangling handle. An operation that is refused
for another reason, or that has nothing to work on, leaves the catalog as it is. -/
def perform (c : Catalog) : Operation → Except Dangling Catalog
  | .declare d => c.declared (c.declare d)
  | .create name => .ok (c.create name)
  | .rebind name target => .ok (((c.handle? target).map (c.assign name)).getD c)
  | .write name a => (·.getD c) <$> c.put? name a
  | .allocate slots => .ok (slots.allocate c).2
  | .analyze slots text => c.analyzed slots (parseProgram text)
  | .restore => .ok ((Snapshot.decode (Snapshot.encode c)).toOption.getD c)

/-- The catalog after operations, one after the other. -/
def performAll (c : Catalog) (ops : List Operation) : Except Dangling Catalog :=
  ops.foldlM perform c

variable {I : Catalog → Prop} {c : Catalog}

/-- Interning a name creates a relation at most, and so keeps a stable property. -/
theorem Stable.intern (hI : Stable I) (h : I c) (name : String) : I (c.intern name).2 := by
  unfold Catalog.intern
  split
  · exact h
  · exact hI.create name h

/-- A declaration that is not refused keeps a stable property. -/
theorem Stable.declare (hI : Stable I) (h : I c) {d : Declaration} {e : Catalog}
    (he : c.declare d = .ok e) : I e := by
  rw [declare_eq_put he]
  exact hI.putAll _ _ (hI.intern h d.relation)

/-- An operation keeps a stable property and meets no fault. -/
theorem Stable.perform (hI : Stable I) (h : I c) (op : Operation)
    (hfits : op = .restore → Snapshot.Fits c) : ∃ e, c.perform op = .ok e ∧ I e := by
  cases op with
  | declare d =>
    rw [Catalog.perform]
    cases hd : c.declare d with
    | ok e => exact ⟨e, rfl, hI.declare h hd⟩
    | error fault =>
      cases fault with
      -- No handle dangles, so that a refusal has another reason.
      | dangling fault => exact absurd hd ((hI.inRange h).declare_ne_dangling d fault)
      | emptyName | duplicate => exact ⟨c, rfl, h⟩
  | create name => exact ⟨_, rfl, hI.create name h⟩
  | rebind name target =>
    -- The name gets a handle that another name has, if that one is bound.
    rw [Catalog.perform]
    cases ht : c.handle? target with
    | some handle =>
      have hlt := (inRange_iff c).1 (hI.inRange h) target handle ht
      exact ⟨_, rfl, hI.assign name hlt h⟩
    | none => exact ⟨c, rfl, h⟩
  | write name a =>
    rw [Catalog.perform, put?]
    cases hn : c.handle? name with
    | some handle =>
      have hlt := (inRange_iff c).1 (hI.inRange h) name handle hn
      simp only [update, if_pos hlt]
      exact ⟨_, rfl, hI.putAll handle [a] h⟩
    | none => exact ⟨c, rfl, h⟩
  | allocate slots => exact ⟨_, rfl, hI.create _ h⟩
  | analyze slots text =>
    -- A text that is no program changes nothing.
    rw [Catalog.perform]
    cases parseProgram text with
    | error e => exact ⟨c, rfl, h⟩
    | ok qs =>
      obtain ⟨n, b, hrun, hb⟩ :=
        (Analysis.stable_program hI qs (a := { catalog := c, slots }) h).exists_ok
      exact ⟨b.catalog, by simp only [analyzed, hrun], hb⟩
  | restore =>
    rw [Catalog.perform, Snapshot.decode_encode (hfits rfl)]
    exact ⟨c, rfl, h⟩

/-- Operations one after the other keep a stable property and meet no fault. -/
theorem Stable.performAll (hI : Stable I) (h : I c) (ops : List Operation)
    (hfits : ∀ before after d, ops = before ++ .restore :: after → c.performAll before = .ok d →
      Snapshot.Fits d) : ∃ e, c.performAll ops = .ok e ∧ I e := by
  unfold Catalog.performAll at *
  induction ops generalizing c with
  | nil => exact ⟨c, rfl, h⟩
  | cons op ops ih =>
    obtain ⟨d, hd, hId⟩ := hI.perform h op (fun hop => hfits [] ops c (by rw [hop]; rfl) rfl)
    obtain ⟨e, he, hIe⟩ := ih hId fun before after d' hops hd' =>
      hfits (op :: before) after d' (by rw [hops]; rfl) (by rw [List.foldlM_cons, hd]; exact hd')
    exact ⟨e, by rw [List.foldlM_cons, hd]; exact he, hIe⟩

/-- The empty catalog is well-formed. -/
theorem wellFormed_empty : (∅ : Catalog).WellFormed where
  inRange := by decide
  distinct := by decide

/-- A text of declarations describes a well-formed catalog. -/
theorem wellFormed_ofText {declarations : String} (h : Catalog.ofText declarations = .ok c) :
    c.WellFormed := by
  obtain ⟨ds, -, hc⟩ := ofText_eq_ok h
  have hI := stable_grown ∅
  exact (foldlM_declare_induction (fun _ _ _ _ h he => hI.declare h he)
    ⟨wellFormed_empty, .refl ∅⟩ hc).1

/-- Catalogs are well-formed at all times. Start with the empty catalog or with one that a text
describes, and do any operations one after the other, where snapshots are made of catalogs that fit.
Then no operation meets a fault, every catalog on the way is well-formed, and each operation leaves
every relation in its place, with its attribute names in their order and perhaps more of them. -/
theorem operations_keep_wellFormed {c : Catalog}
    (hstart : c = ∅ ∨ ∃ declarations, Catalog.ofText declarations = .ok c) (ops : List Operation)
    (hfits : ∀ before after d, ops = before ++ .restore :: after → c.performAll before = .ok d →
      Snapshot.Fits d) :
    (∃ d, c.performAll ops = .ok d ∧ d.WellFormed) ∧
    ∀ before op after, ops = before ++ op :: after →
      ∃ d e, c.performAll before = .ok d ∧ d.perform op = .ok e ∧ d.WellFormed ∧ e.WellFormed ∧
        d.Grows e := by
  have hc : c.WellFormed := by
    rcases hstart with rfl | ⟨declarations, hd⟩
    · exact wellFormed_empty
    · exact wellFormed_ofText hd
  constructor
  · obtain ⟨d, hd, hwell, -⟩ := (stable_grown c).performAll ⟨hc, .refl c⟩ ops hfits
    exact ⟨d, hd, hwell⟩
  · intro before op after hops
    -- The operations before this one lead to a well-formed catalog, from which it starts.
    obtain ⟨d, hd, hwell, -⟩ := (stable_grown c).performAll ⟨hc, .refl c⟩ before
      fun before' after' d hbefore hd =>
        hfits before' (after' ++ op :: after) d (by rw [hops, hbefore]; simp) hd
    obtain ⟨e, he, hwell', hgrows⟩ := (stable_grown d).perform ⟨hwell, .refl d⟩ op
      fun hop => hfits before after d (hop ▸ hops) hd
    exact ⟨d, e, hd, he, hwell, hwell', hgrows⟩

/-- A declaration that is refused, two names of one relation, a snapshot, an attribute that is
written through the second name, a slot with the name of a relation, and an analysis. -/
theorem operations_keep_wellFormed_shared :
    ∃ c d e, Catalog.ofText "R.a:int" = .ok c ∧
      c.performAll [.declare ⟨"R", "a", .int⟩, .rebind "R1" "R", .restore,
        .write "R1" ⟨"b", .text⟩, .allocate ⟨"R", 0⟩] = .ok d ∧
      d.perform (.analyze ⟨"$slot", 0⟩ "R ∪ R1") = .ok e ∧
      d.WellFormed ∧ e.WellFormed ∧ d.Grows e := by
  have hc : Catalog.ofText "R.a:int" = .ok ⟨#[⟨[⟨"a", .int⟩]⟩], .ofList [("R", 0)]⟩ := by rfl
  obtain ⟨-, hsteps⟩ := operations_keep_wellFormed (.inr ⟨_, hc⟩)
    [.declare ⟨"R", "a", .int⟩, .rebind "R1" "R", .restore, .write "R1" ⟨"b", .text⟩,
      .allocate ⟨"R", 0⟩, .analyze ⟨"$slot", 0⟩ "R ∪ R1"] <| by
    -- There is one snapshot, after two operations.
    intro before after d hops hd
    rcases before with _ | ⟨_, _ | ⟨_, _ | ⟨_, before⟩⟩⟩
    · simp at hops
    · simp at hops
    · simp only [List.cons_append, List.nil_append, List.cons.injEq] at hops
      obtain ⟨rfl, rfl, -⟩ := hops
      obtain rfl : (⟨#[⟨[⟨"a", .int⟩]⟩], .ofList [("R", 0), ("R1", 0)]⟩ : Catalog) = d :=
        Except.ok.inj hd
      exact ⟨by decide, by decide, by decide, by decide⟩
    · simp only [List.cons_append, List.cons.injEq] at hops
      have hmem : Operation.restore ∈ before ++ .restore :: after := by simp
      rw [← hops.2.2.2] at hmem
      simp at hmem
  obtain ⟨d, e, hd, he, hwell, hwell', hgrows⟩ := hsteps
    [.declare ⟨"R", "a", .int⟩, .rebind "R1" "R", .restore, .write "R1" ⟨"b", .text⟩,
      .allocate ⟨"R", 0⟩] (.analyze ⟨"$slot", 0⟩ "R ∪ R1") [] rfl
  exact ⟨_, d, e, hc, hd, he, hwell, hwell', hgrows⟩

end Catalog

end RelAlgebra
