import RelAlgebra.Analysis.Basic
import RelAlgebra.Proofs.Catalog.Lookup

/-!
# The steps of an analysis

What each step of an analysis returns and leaves behind: taking a slot, looking a relation up,
reading a schema, and putting the effect of an operator into a slot (`Analyzer.settled`). The walks
over queries are sequences of these steps, so that later modules reason with the lemmas `run_...` of
this one and never open a step again. `Analysis.Ends` states what holds at the end of a walk, be it
a value or a fault.
-/

namespace RelAlgebra

namespace Analyzer

/-! ## Parts of the state that a step leaves alone -/

/-- A report leaves the catalog alone. -/
@[simp] theorem catalog_report (a : Analyzer) (d : Diagnostic) :
    (a.report d).catalog = a.catalog := rfl

/-- A report takes no slot. -/
@[simp] theorem slots_report (a : Analyzer) (d : Diagnostic) : (a.report d).slots = a.slots := rfl

/-- A report is added at the end. -/
@[simp] theorem diagnostics_report (a : Analyzer) (d : Diagnostic) :
    (a.report d).diagnostics = a.diagnostics ++ [d] := rfl

/-- Reports change neither the catalog nor the slots. -/
@[simp] theorem catalog_reportAll (a : Analyzer) (ds : List Diagnostic) :
    (a.reportAll ds).catalog = a.catalog := by
  unfold reportAll
  induction ds generalizing a with
  | nil => rfl
  | cons d ds ih => rw [List.foldl_cons, ih, catalog_report]

/-- Reports take no slots. -/
@[simp] theorem slots_reportAll (a : Analyzer) (ds : List Diagnostic) :
    (a.reportAll ds).slots = a.slots := by
  unfold reportAll
  induction ds generalizing a with
  | nil => rfl
  | cons d ds ih => rw [List.foldl_cons, ih, slots_report]

/-- Reports are added at the end, in their order. -/
@[simp] theorem diagnostics_reportAll (a : Analyzer) (ds : List Diagnostic) :
    (a.reportAll ds).diagnostics = a.diagnostics ++ ds := by
  unfold reportAll
  induction ds generalizing a with
  | nil => simp
  | cons d ds ih => rw [List.foldl_cons, ih, diagnostics_report, List.append_assoc]; rfl

/-- Every report leaves a record. -/
@[simp] theorem log_reportAll (a : Analyzer) (ds : List Diagnostic) :
    (a.reportAll ds).log = a.log ++ ds.map .reported := by
  unfold reportAll
  induction ds generalizing a with
  | nil => simp
  | cons d ds ih => rw [List.foldl_cons, ih, List.map_cons, List.append_cons]; rfl

/-- A record leaves the catalog alone. -/
@[simp] theorem catalog_write (a : Analyzer) (r : Record) : (a.write r).catalog = a.catalog := rfl

/-- A record takes no slot. -/
@[simp] theorem slots_write (a : Analyzer) (r : Record) : (a.write r).slots = a.slots := rfl

/-- A record is no report. -/
@[simp] theorem diagnostics_write (a : Analyzer) (r : Record) :
    (a.write r).diagnostics = a.diagnostics := rfl

/-- Taking a slot makes a relation and binds the name of the slot to it. -/
@[simp] theorem catalog_allocate (a : Analyzer) :
    a.allocate.catalog = a.catalog.create (a.slots.name (a.slots.last + 1)) := rfl

/-- The slot that is taken has the next number. -/
@[simp] theorem slots_allocate (a : Analyzer) :
    a.allocate.slots = ⟨a.slots.stem, a.slots.last + 1⟩ := rfl

/-- Nothing is reported when a slot is taken. -/
@[simp] theorem diagnostics_allocate (a : Analyzer) : a.allocate.diagnostics = a.diagnostics := rfl

/-- The slot that is taken is recorded with its name and its handle. -/
@[simp] theorem log_allocate (a : Analyzer) :
    a.allocate.log = a.log ++
      [.allocated (a.slots.last + 1) (a.slots.name (a.slots.last + 1)) a.catalog.arena.size] := rfl

/-- Sharing binds the name of the slot to a relation that is there. -/
@[simp] theorem catalog_share (a : Analyzer) (slot : Nat) (handle : Handle) :
    (a.share slot handle).catalog = a.catalog.assign (a.slots.name slot) handle := rfl

/-- The state after attributes were written into the relation with the given handle. -/
def filled (a : Analyzer) (handle : Handle) (s : Schema) : Analyzer :=
  { a with catalog.arena := a.catalog.arena.modify handle (·.putAll s.attributes) }

/-- Writing attributes binds no name. -/
@[simp] theorem names_filled (a : Analyzer) (handle : Handle) (s : Schema) :
    (a.filled handle s).catalog.names = a.catalog.names := rfl

/-- Writing attributes makes no relation. -/
@[simp] theorem size_filled (a : Analyzer) (handle : Handle) (s : Schema) :
    (a.filled handle s).catalog.arena.size = a.catalog.arena.size :=
  Array.size_modify

/-- Writing attributes changes one entry of the arena. -/
theorem getElem?_filled (a : Analyzer) (handle : Handle) (s : Schema) (i : Nat) :
    (a.filled handle s).catalog.arena[i]? =
      if i = handle then a.catalog.arena[i]?.map (·.putAll s.attributes)
      else a.catalog.arena[i]? := by
  unfold filled
  rw [Array.getElem?_modify]
  by_cases hi : i = handle
  · rw [if_pos hi, if_pos hi.symm]
  · rw [if_neg hi, if_neg (Ne.symm hi)]

end Analyzer

/-! ## The effect of an operator in its slot -/

/-- The relation of the slot of an operator: that of the operand, if there is one and the operator
shares it, and otherwise the relation that was made for the slot. -/
def Effect.home (e : Effect) (source : Option Handle) (own : Handle) : Handle :=
  match e.output with
  | .own _ => own
  | .shared => source.getD own

namespace Analyzer

/-- The state after the effect of an operator was put into its slot. The relation that was made for
the slot has the handle `own`. -/
def settled (a : Analyzer) (slot : Nat) (own : Handle) (source : Option Handle) (e : Effect) :
    Analyzer :=
  match e.output, source with
  | .own s, _ => (a.reportAll e.diagnostics).filled own s
  | .shared, some handle => (a.reportAll e.diagnostics).share slot handle
  | .shared, none => a.reportAll e.diagnostics

variable {a : Analyzer} {slot : Nat} {own : Handle} {source : Option Handle} {e : Effect}

/-- The effect of an operator takes no slot. -/
@[simp] theorem slots_settled : (a.settled slot own source e).slots = a.slots := by
  unfold settled
  split <;> exact slots_reportAll ..

/-- The diagnostics of the effect are reported, whatever becomes of the slot. -/
@[simp] theorem diagnostics_settled :
    (a.settled slot own source e).diagnostics = a.diagnostics ++ e.diagnostics := by
  unfold settled
  split <;> exact diagnostics_reportAll ..

/-- The slot has the relation that the effect says. -/
theorem slotHandle?_settled (source : Option Handle) (e : Effect)
    (h : a.slotHandle? slot = some own) :
    (a.settled slot own source e).slotHandle? slot = some (e.home source own) := by
  obtain ⟨output, ds⟩ := e
  unfold slotHandle? at *
  rw [slots_settled]
  cases output with
  | own s =>
    simp only [settled, Catalog.handle?, names_filled, catalog_reportAll]
    exact h
  | shared =>
    cases source with
    | some handle =>
      simp only [settled, catalog_share, Catalog.handle?_assign, slots_reportAll, if_true]
      rfl
    | none =>
      simp only [settled, catalog_reportAll]
      exact h

/-- No other name is bound anew. -/
theorem handle?_settled_of_ne {name : String} (h : name ≠ a.slots.name slot) :
    (a.settled slot own source e).catalog.handle? name = a.catalog.handle? name := by
  obtain ⟨output, ds⟩ := e
  cases output with
  | own s => simp only [settled, Catalog.handle?, names_filled, catalog_reportAll]
  | shared =>
    cases source with
    | some handle =>
      simp only [settled, catalog_share, Catalog.handle?_assign, slots_reportAll, if_neg h,
        catalog_reportAll]
    | none => simp only [settled, catalog_reportAll]

/-- No other relation changes. -/
theorem getElem?_settled_of_ne {i : Nat} (h : i ≠ own) :
    (a.settled slot own source e).catalog.arena[i]? = a.catalog.arena[i]? := by
  obtain ⟨output, ds⟩ := e
  cases output with
  | own s => simp only [settled, getElem?_filled, if_neg h, catalog_reportAll]
  | shared =>
    cases source with
    | some handle => simp only [settled, catalog_share, Catalog.assign, catalog_reportAll]
    | none => simp only [settled, catalog_reportAll]

/-- The arena keeps its size. -/
@[simp] theorem size_settled :
    (a.settled slot own source e).catalog.arena.size = a.catalog.arena.size := by
  obtain ⟨output, ds⟩ := e
  cases output with
  | own s => simp only [settled, size_filled, catalog_reportAll]
  | shared =>
    cases source with
    | some handle => simp only [settled, catalog_share, Catalog.assign, catalog_reportAll]
    | none => simp only [settled, catalog_reportAll]

/-- The records of putting an effect into a slot: the diagnostics, and perhaps the sharing. -/
theorem log_settled (a : Analyzer) (slot : Nat) (own : Handle) (source : Option Handle)
    (e : Effect) :
    ∃ rs, (a.settled slot own source e).log = a.log ++ rs ∧
      ∀ r ∈ rs, (∃ d, r = .reported d) ∨ ∃ handle, r = .aliased slot handle := by
  obtain ⟨output, ds⟩ := e
  have hreported : ∀ r ∈ ds.map Record.reported,
      (∃ d, r = .reported d) ∨ ∃ handle, r = .aliased slot handle := by
    intro r hr
    obtain ⟨d, -, rfl⟩ := List.mem_map.1 hr
    exact .inl ⟨d, rfl⟩
  cases output with
  | own s => exact ⟨_, log_reportAll a ds, hreported⟩
  | shared =>
    cases source with
    | some handle =>
      -- The sharing is recorded after the diagnostics.
      refine ⟨ds.map .reported ++ [.aliased slot handle], ?_, ?_⟩
      · rw [← List.append_assoc, ← log_reportAll]
        rfl
      · intro r hr
        rcases List.mem_append.1 hr with hr | hr
        · exact hreported r hr
        · exact .inr ⟨handle, List.mem_singleton.1 hr⟩
    | none => exact ⟨_, log_reportAll a ds, hreported⟩

end Analyzer

namespace Analysis

variable {α β : Type}

/-! ## Running steps one after the other -/

/-- `x`, started in the state `a`, ends with a value and a state as `post` says, or with a fault and
a state as `fault` says. -/
def Ends (x : Analysis α) (a : Analyzer) (post : α → Analyzer → Prop)
    (fault : Dangling → Analyzer → Prop) : Prop :=
  match x.run a with
  | .ok value b => post value b
  | .error f b => fault f b

/-- What is known of the end may be weakened. -/
theorem Ends.mono {x : Analysis α} {a : Analyzer} {post post' : α → Analyzer → Prop}
    {fault fault' : Dangling → Analyzer → Prop} (h : x.Ends a post fault)
    (hpost : ∀ value b, post value b → post' value b) (hfault : ∀ f b, fault f b → fault' f b) :
    x.Ends a post' fault' := by
  unfold Ends at *
  split at h
  · exact hpost _ _ h
  · exact hfault _ _ h

/-- Two things that are known of the end hold together. -/
theorem Ends.and {x : Analysis α} {a : Analyzer} {post post' : α → Analyzer → Prop}
    {fault fault' : Dangling → Analyzer → Prop} (h : x.Ends a post fault)
    (h' : x.Ends a post' fault') :
    x.Ends a (fun value b => post value b ∧ post' value b) (fun f b => fault f b ∧ fault' f b) := by
  unfold Ends at *
  split at h
  · next heq =>
    rw [heq] at h'
    exact ⟨h, h'⟩
  · next heq =>
    rw [heq] at h'
    exact ⟨h, h'⟩

/-- What is known of the end holds of the value and the state that are known. -/
theorem Ends.of_ok {x : Analysis α} {a b : Analyzer} {value : α} {post : α → Analyzer → Prop}
    {fault : Dangling → Analyzer → Prop} (h : x.Ends a post fault)
    (hx : x.run a = .ok value b) : post value b := by
  unfold Ends at h
  rw [hx] at h
  exact h

/-- What is known of the end holds of the fault and the state that are known. -/
theorem Ends.of_error {x : Analysis α} {a b : Analyzer} {f : Dangling}
    {post : α → Analyzer → Prop} {fault : Dangling → Analyzer → Prop} (h : x.Ends a post fault)
    (hx : x.run a = .error f b) : fault f b := by
  unfold Ends at h
  rw [hx] at h
  exact h

/-- A walk ends as its run says. -/
theorem ends_run (x : Analysis α) (a : Analyzer) :
    x.Ends a (fun value b => x.run a = .ok value b) (fun f b => x.run a = .error f b) := by
  unfold Ends
  split <;> assumption

/-- A walk that cannot end with a fault ends with a value. -/
theorem Ends.exists_ok {x : Analysis α} {a : Analyzer} {post : α → Analyzer → Prop}
    (h : x.Ends a post fun _ _ => False) : ∃ value b, x.run a = .ok value b ∧ post value b := by
  unfold Ends at h
  split at h
  · next value b heq => exact ⟨value, b, heq, h⟩
  · exact h.elim

/-- After `x`, the walk goes on from the value and the state in which `x` ended. -/
theorem Ends.bind {x : Analysis α} {f : α → Analysis β} {a : Analyzer}
    {mid : α → Analyzer → Prop} {post : β → Analyzer → Prop} {fault : Dangling → Analyzer → Prop}
    (hx : x.Ends a mid fault) (hf : ∀ value b, mid value b → (f value).Ends b post fault) :
    (x >>= f).Ends a post fault := by
  unfold Ends at *
  rw [EStateM.run_bind]
  split at hx
  · next value b hb => rw [hb]; exact hf value b hx
  · next g b hb => rw [hb]; exact hx

/-- Where nothing is said of faults, nothing has to be known of those of `x`. -/
theorem Ends.bind_any {x : Analysis α} {f : α → Analysis β} {a : Analyzer}
    {mid : α → Analyzer → Prop} {post : β → Analyzer → Prop} {fault : Dangling → Analyzer → Prop}
    (hx : x.Ends a mid fault)
    (hf : ∀ value b, mid value b → (f value).Ends b post fun _ _ => True) :
    (x >>= f).Ends a post fun _ _ => True :=
  .bind (hx.mono (fun _ _ h => h) fun _ _ _ => trivial) hf

/-- A step with a known result ends as is known of that result. -/
theorem Ends.of_run {x : Analysis α} {a b : Analyzer} {value : α} {post : α → Analyzer → Prop}
    {fault : Dangling → Analyzer → Prop} (hx : x.run a = .ok value b) (h : post value b) :
    x.Ends a post fault := by
  unfold Ends
  rw [hx]
  exact h

/-- A step with a known fault ends as is known of that fault. -/
theorem Ends.of_run_error {x : Analysis α} {a b : Analyzer} {f : Dangling}
    {post : α → Analyzer → Prop} {fault : Dangling → Analyzer → Prop}
    (hx : x.run a = .error f b) (h : fault f b) : x.Ends a post fault := by
  unfold Ends
  rw [hx]
  exact h

/-- After a step with a known result, the walk goes on from there. -/
theorem Ends.step {x : Analysis α} {f : α → Analysis β} {a b : Analyzer} {value : α}
    {post : β → Analyzer → Prop} {fault : Dangling → Analyzer → Prop} (hx : x.run a = .ok value b)
    (hf : (f value).Ends b post fault) : (x >>= f).Ends a post fault := by
  unfold Ends at *
  rw [EStateM.run_bind, hx]
  exact hf

/-- The run of a walk that starts with a step of known result. -/
theorem run_bind_ok {x : Analysis α} {f : α → Analysis β} {a b : Analyzer} {value : α}
    (hx : x.run a = .ok value b) : (x >>= f).run a = (f value).run b := by
  rw [EStateM.run_bind, hx]

/-! ## The steps -/

/-- Looking at the state changes nothing. -/
theorem run_get (a : Analyzer) : (get : Analysis Analyzer).run a = .ok a a := rfl

/-- A change of the state returns nothing. -/
theorem run_modify (f : Analyzer → Analyzer) (a : Analyzer) :
    (modify f : Analysis Unit).run a = .ok () (f a) := rfl

/-- Taking a slot returns its number. -/
theorem run_allocate (a : Analyzer) : allocate.run a = .ok (a.slots.last + 1) a.allocate := rfl

/-- A bound name gives its handle and changes nothing. -/
theorem run_lookup_bound {a : Analyzer} {name : Lexeme} {handle : Handle}
    (h : a.catalog.handle? name.text = some handle) :
    (lookup name).run a = .ok (some handle) a := by
  show (EStateM.Result.ok _ _ : EStateM.Result Dangling Analyzer _) = _
  rw [h]

/-- A name that is not bound is reported. -/
theorem run_lookup_unbound {a : Analyzer} {name : Lexeme} (h : a.catalog.handle? name.text = none) :
    (lookup name).run a = .ok none (a.report ⟨.unknownRelation name.text, name.loc⟩) := by
  show (EStateM.Result.ok _ _ : EStateM.Result Dangling Analyzer _) = _
  rw [h]

/-- An unknown relation is read as one without attributes. -/
theorem run_schemaOf_none (a : Analyzer) : (schemaOf none).run a = .ok ∅ a := rfl

/-- The schema at a handle inside the arena is read, and nothing changes. -/
theorem run_schemaOf_some {a : Analyzer} {handle : Handle} {s : Schema}
    (h : a.catalog.arena[handle]? = some s) : (schemaOf (some handle)).run a = .ok s a := by
  unfold schemaOf
  rw [run_bind_ok (run_get a), (Catalog.fetch_eq_ok_iff ..).2 h]
  rfl

/-- A handle that dangles is reported together with the size of the arena, and nothing changes. -/
theorem run_schemaOf_dangling {a : Analyzer} {handle : Handle}
    (h : a.catalog.arena.size ≤ handle) :
    (schemaOf (some handle)).run a = .error ⟨a.catalog.arena.size, handle⟩ a := by
  unfold schemaOf
  rw [run_bind_ok (run_get a)]
  simp only [Catalog.fetch, Array.getElem?_eq_none h]
  rfl

/-- Whatever schema is read, nothing changes. -/
theorem ends_schemaOf (source : Option Handle) (a : Analyzer) :
    (schemaOf source).Ends a (fun _ b => a = b) (fun _ b => a = b) := by
  cases source with
  | none => exact .of_run (run_schemaOf_none a) rfl
  | some handle =>
    cases h : a.catalog.arena[handle]? with
    | some s => exact .of_run (run_schemaOf_some h) rfl
    | none => exact .of_run_error (run_schemaOf_dangling (Array.getElem?_eq_none_iff.1 h)) rfl

/-- The effect of an operator can be put into its slot if the slot is bound to the relation that was
made for it and that relation is inside the arena. -/
theorem run_settle {a : Analyzer} {slot : Nat} {own : Handle} (source : Option Handle) (e : Effect)
    (hslot : a.slotHandle? slot = some own) (hlt : own < a.catalog.arena.size) :
    (settle slot source e).run a = .ok () (a.settled slot own source e) := by
  obtain ⟨output, ds⟩ := e
  cases output with
  | own s =>
    -- The diagnostics are reported first, which moves neither the slot nor the arena.
    have hslot' : (a.reportAll ds).slotHandle? slot = some own := by
      unfold Analyzer.slotHandle? at *
      rw [Analyzer.catalog_reportAll, Analyzer.slots_reportAll, hslot]
    have hlt' : own < (a.reportAll ds).catalog.arena.size := by
      rw [Analyzer.catalog_reportAll]; exact hlt
    unfold settle
    rw [run_bind_ok (run_modify ..)]
    unfold fill
    rw [run_bind_ok (run_get _)]
    simp only [hslot', Catalog.update, if_pos hlt']
    rfl
  | shared => cases source <;> rfl

end Analysis

end RelAlgebra
