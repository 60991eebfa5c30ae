import RelAlgebra.Proofs.Analysis.Frame

/-!
# What an analysis keeps true of a catalog

An analysis changes a catalog by three operations: it makes a relation for a slot, binds the name of
a slot to a relation that is there, and writes attributes into a relation. A property that these
operations keep is kept by every analysis, whatever the queries and the stem of the slots. If the
property excludes dangling handles, the analysis also ends without a fault.
-/

namespace RelAlgebra

namespace Catalog

/-- A property of catalogs without dangling handles that the operations of an analysis keep. -/
structure Stable (I : Catalog → Prop) : Prop where
  inRange : ∀ {c : Catalog}, I c → c.InRange
  create : ∀ {c : Catalog} (name : String), I c → I (c.create name)
  /-- A name may be bound to any relation that is there. -/
  assign : ∀ {c : Catalog} (name : String) {handle : Handle}, handle < c.arena.size → I c →
    I (c.assign name handle)
  putAll : ∀ {c : Catalog} (handle : Handle) (as : List Attribute), I c →
    I { c with arena := c.arena.modify handle (·.putAll as) }

/-- No handle dangles after a relation was made. -/
theorem InRange.create {c : Catalog} (h : c.InRange) (name : String) : (c.create name).InRange := by
  rw [inRange_iff] at *
  intro n handle hn
  rw [handle?_create] at hn
  rw [size_create]
  split at hn
  · exact Nat.lt_succ_of_le (Nat.le_of_eq (Option.some.inj hn).symm)
  · exact Nat.lt_succ_of_lt (h n handle hn)

/-- No handle dangles after a name was bound to a relation that is there. -/
theorem InRange.assign {c : Catalog} (h : c.InRange) (name : String) {handle : Handle}
    (hlt : handle < c.arena.size) : (c.assign name handle).InRange := by
  rw [inRange_iff] at *
  intro n handle' hn
  rw [handle?_assign] at hn
  split at hn
  · exact Option.some.inj hn ▸ hlt
  · exact h n handle' hn

/-- No handle dangles after a relation was changed. -/
theorem InRange.modify {c : Catalog} (h : c.InRange) (handle : Handle) (f : Schema → Schema) :
    InRange { c with arena := c.arena.modify handle f } := by
  intro e he
  rw [Array.size_modify]
  exact h e he

/-- That all handles lie inside the arena is kept by everything that an analysis does. -/
theorem stable_inRange : Stable InRange where
  inRange h := h
  create name h := h.create name
  assign name _ hlt h := h.assign name hlt
  putAll handle _ h := h.modify handle _

end Catalog

variable {I : Catalog → Prop} {a b : Analyzer}

open Analyzer Analysis

/-- Putting the effect of an operator into its slot keeps a stable property. -/
theorem Catalog.Stable.settled (hI : Catalog.Stable I) (h : I b.catalog) (slot : Nat) (own : Handle)
    {source : Option Handle} (hsource : ∀ handle ∈ source, handle < b.catalog.arena.size)
    (e : Effect) : I (b.settled slot own source e).catalog := by
  obtain ⟨output, ds⟩ := e
  rw [← b.catalog_reportAll ds] at h hsource
  cases output with
  | own s => exact hI.putAll own s.attributes h
  | shared =>
    cases source with
    | some handle => exact hI.assign _ (hsource handle rfl) h
    | none => exact h

/-- The schema behind a handle inside the arena is read without a fault. -/
theorem Analysis.ends_schemaOf_lt {source : Option Handle}
    (hsource : ∀ handle ∈ source, handle < a.catalog.arena.size) :
    (schemaOf source).Ends a (fun _ b => a = b) (fun _ _ => False) := by
  cases source with
  | none => exact .of_run (run_schemaOf_none a) rfl
  | some handle =>
    exact .of_run (run_schemaOf_some (Array.getElem?_eq_getElem (hsource handle rfl))) rfl

/-- Looking a relation up gives a relation that is there. -/
theorem Analysis.stable_lookup (hI : Catalog.Stable I) (h : I a.catalog) (name : Lexeme) :
    (lookup name).Ends a
      (fun source b => I b.catalog ∧ ∀ handle ∈ source, handle < b.catalog.arena.size)
      (fun _ _ => False) := by
  cases hh : a.catalog.handle? name.text with
  | some handle =>
    refine .of_run (run_lookup_bound hh) ⟨h, fun handle' hmem => ?_⟩
    obtain rfl : handle = handle' := by simpa using hmem
    exact (Catalog.inRange_iff _).1 (hI.inRange h) _ _ hh
  | none => exact .of_run (run_lookup_unbound hh) ⟨h, by simp⟩

/-- The relation of a slot is there. -/
theorem Catalog.Stable.slotHandle_lt (hI : Catalog.Stable I) (h : I a.catalog) (slot : Nat) :
    ∀ handle ∈ a.slotHandle? slot, handle < a.catalog.arena.size :=
  fun _ hmem => (Catalog.inRange_iff _).1 (hI.inRange h) _ _ hmem

mutual

/-- An analysis of a query keeps a stable property and ends without a fault. -/
theorem Query.stable_analyze (hI : Catalog.Stable I) (q : Query) {a : Analyzer} (h : I a.catalog) :
    q.analyze.Ends a (fun _ b => I b.catalog) (fun _ _ => False) := by
  have h' : I a.allocate.catalog := hI.create _ h
  cases q with
  | unary op mark operand =>
    unfold Query.analyze
    refine .step (run_allocate a) ?_
    refine .bind (((operand.stable_source hI h').and (operand.extends_source _)).mono
      (fun _ _ h => h) (fun _ _ h => h.1)) fun source b hb => ?_
    obtain ⟨⟨hb, hsource⟩, hext⟩ := hb
    refine .bind (ends_schemaOf_lt hsource) ?_
    rintro s _ rfl
    exact .step (hext.run_settle ..) (.of_run rfl (hI.settled hb _ _ hsource _))
  | binary op mark left right =>
    unfold Query.analyze
    refine .step (run_allocate a) ?_
    refine .bind (((left.stable_slot hI h').and (left.extends_slot _)).mono
      (fun _ _ h => h) (fun _ _ h => h.1)) fun l b hb => ?_
    obtain ⟨hb, -, hab⟩ := hb
    refine .bind (((right.stable_slot hI hb).and (right.extends_slot _)).mono
      (fun _ _ h => h) (fun _ _ h => h.1)) fun r c hc => ?_
    obtain ⟨hc, -, hbc⟩ := hc
    -- The relations of both slots are read in the state after both operands.
    have hleft := hI.slotHandle_lt hc l
    refine .step (run_get c) (.bind (ends_schemaOf_lt hleft) ?_)
    rintro s _ rfl
    refine .step (run_get c) (.bind (ends_schemaOf_lt (hI.slotHandle_lt hc r)) ?_)
    rintro t _ rfl
    exact .step ((hab.trans hbc).run_settle ..) (.of_run rfl (hI.settled hc _ _ hleft _))

/-- So does an analysis of the operand of an operator with one operand, which gives a relation that
is there. -/
theorem Operand.stable_source (hI : Catalog.Stable I) (o : Operand) {a : Analyzer}
    (h : I a.catalog) :
    o.source.Ends a
      (fun source b => I b.catalog ∧ ∀ handle ∈ source, handle < b.catalog.arena.size)
      (fun _ _ => False) := by
  cases o with
  | relation name =>
    unfold Operand.source
    exact stable_lookup hI h name
  | nested q =>
    unfold Operand.source
    exact .bind (q.stable_analyze hI h) fun slot b hb =>
      .of_run rfl ⟨hb, hI.slotHandle_lt hb slot⟩

/-- So does an analysis of an operand of an operator with two operands. -/
theorem Operand.stable_slot (hI : Catalog.Stable I) (o : Operand) {a : Analyzer}
    (h : I a.catalog) : o.slot.Ends a (fun _ b => I b.catalog) (fun _ _ => False) := by
  cases o with
  | relation name =>
    unfold Operand.slot
    refine .step (run_allocate a) ?_
    refine .bind (stable_lookup hI (hI.create _ h) name) fun source b hb => ?_
    cases source with
    | some handle => exact .step rfl (.of_run rfl (hI.assign _ (hb.2 handle rfl) hb.1))
    | none => exact .step rfl (.of_run rfl hb.1)
  | nested q =>
    unfold Operand.slot
    exact q.stable_analyze hI h

end

/-- An analysis of queries one after the other keeps a stable property. -/
theorem Analysis.stable_queries (hI : Catalog.Stable I) (qs : List Query) {a : Analyzer}
    (h : I a.catalog) :
    (Analysis.queries qs).Ends a (fun _ b => I b.catalog) (fun _ _ => False) := by
  induction qs generalizing a with
  | nil => exact .of_run rfl h
  | cons q qs ih =>
    unfold Analysis.queries
    refine .bind (q.stable_analyze hI h) fun slot b hb => .step rfl (ih ?_)
    exact hb

/-- An analysis of a program keeps a stable property and ends without a fault. -/
theorem Analysis.stable_program (hI : Catalog.Stable I) (qs : List Query) {a : Analyzer}
    (h : I a.catalog) :
    (Analysis.program qs).Ends a (fun _ b => I b.catalog) (fun _ _ => False) := by
  cases qs with
  | nil => exact .of_run rfl h
  | cons q qs =>
    unfold Analysis.program
    refine .step rfl (.bind (stable_queries hI (q :: qs) ?_) fun _ b hb => ?_)
    · exact h
    · exact .step rfl (.of_run rfl hb)

end RelAlgebra
