import RelAlgebra.Proofs.Analysis.Homes
import RelAlgebra.Proofs.Analysis.Refinement

/-!
# Which slots share a relation

After an analysis every slot of it is bound to the relation that `Operand.home` gives for its part.
`Analyzer.Binds` states this of a stretch of the analysis, together with the records of the slots
that were taken, which tell the relation that was made for each of them.
-/

namespace RelAlgebra

/-- Whether the record tells that a slot was taken. -/
def Record.isAllocated : Record → Bool
  | .allocated .. => true
  | _ => false

namespace Analyzer

/-- No slot is taken when an effect is put into a slot. -/
theorem filter_log_settled (b : Analyzer) (slot : Nat) (own : Handle) (source : Option Handle)
    (e : Effect) :
    ∃ rs, (b.settled slot own source e).log = b.log ++ rs ∧ rs.filter Record.isAllocated = [] := by
  obtain ⟨rs, hlog, hrs⟩ := b.log_settled slot own source e
  refine ⟨rs, hlog, List.filter_eq_nil_iff.2 fun r hr => ?_⟩
  rcases hrs r hr with ⟨d, rfl⟩ | ⟨handle, rfl⟩ <;> simp [Record.isAllocated]

/-- The records of taking slots in the state `a`, one after the other, each with a new relation at
the end of the arena. -/
def allocations (a : Analyzer) (count : Nat) : List Record :=
  (List.range count).map fun i =>
    .allocated (a.slots.last + 1 + i) (a.slots.name (a.slots.last + 1 + i))
      (a.catalog.arena.size + i)

/-- Between the states `a` and `b` slots were taken for the given parts, and now each of them has
the relation of its part. -/
structure Binds (env : Environment) (named : String → Option Handle) (a b : Analyzer)
    (parts : List Operand) : Prop where
  log : ∃ rs, b.log = a.log ++ rs ∧ rs.filter Record.isAllocated = a.allocations parts.length
  slot : ∀ i p, parts[i]? = some p →
    b.catalog.handle? (a.slots.name (a.slots.last + 1 + i)) =
      some (p.home env named (a.catalog.arena.size + i))

variable {known : String → Prop} {env : Environment} {named : String → Option Handle}
  {a b c : Analyzer}

/-- The slots that are taken first, and then the others. -/
theorem Extends.allocations_add (h : a.Extends b) {m : Nat} (hm : b.slots.last = a.slots.last + m)
    (n : Nat) : a.allocations (m + n) = a.allocations m ++ b.allocations n := by
  have hsize : b.catalog.arena.size = a.catalog.arena.size + m := by
    have hsize := h.size
    omega
  unfold allocations
  rw [List.range_add, List.map_append, List.map_map]
  congr 2
  funext i
  have hlast : b.slots.last + 1 + i = a.slots.last + 1 + (m + i) := by omega
  simp only [Function.comp, hsize, h.name_eq, hlast, Nat.add_assoc]

/-- Nothing was done. -/
theorem Binds.refl (env : Environment) (named : String → Option Handle) (a : Analyzer) :
    Binds env named a a [] :=
  ⟨⟨[], by simp, rfl⟩, by simp⟩

/-- A record was written, but not one of a slot. -/
theorem binds_write (env : Environment) (named : String → Option Handle) (a : Analyzer)
    {r : Record} (hr : r.isAllocated = false) : Binds env named a (a.write r) [] :=
  ⟨⟨[r], rfl, by rw [List.filter_cons_of_neg (by simp [hr])]; rfl⟩, by simp⟩

/-- One stretch after the other. -/
theorem Binds.append {ps qs : List Operand} {ds es : List Diagnostic}
    (hab : Infers known env a b ps ds) (hbc : Infers known env b c qs es)
    (h : Binds env named a b ps) (h' : Binds env named b c qs) :
    Binds env named a c (ps ++ qs) := by
  obtain ⟨rs, hrs, hfilter⟩ := h.log
  obtain ⟨rs', hrs', hfilter'⟩ := h'.log
  refine ⟨⟨rs ++ rs', ?_, ?_⟩, fun i p hp => ?_⟩
  · rw [hrs', hrs, List.append_assoc]
  · rw [List.filter_append, hfilter, hfilter', List.length_append,
      hab.ext.allocations_add hab.last]
  · by_cases hi : i < ps.length
    · -- A slot of the first stretch keeps its binding.
      rw [List.getElem?_append_left hi] at hp
      have hle : a.slots.last + 1 + i ≤ b.slots.last := by rw [hab.last]; omega
      rw [← hab.ext.name_eq, hbc.ext.handle_name hle, hab.ext.name_eq]
      exact h.slot i p hp
    · -- The slots of the second stretch and their relations are counted on.
      rw [List.getElem?_append_right (by omega)] at hp
      have hslot := h'.slot (i - ps.length) p hp
      have hlast : b.slots.last + 1 + (i - ps.length) = a.slots.last + 1 + i := by
        rw [hab.last]; omega
      have hsize : b.catalog.arena.size + (i - ps.length) = a.catalog.arena.size + i := by
        have h1 := hab.ext.size
        have h2 := hab.last
        omega
      rwa [hab.ext.name_eq, hlast, hsize] at hslot

/-- Putting the effect of an operator into its slot after the operands. -/
theorem Binds.settle {ps : List Operand} {ds : List Diagnostic}
    (hab : Infers known env a.allocate b ps ds) (h : Binds env named a.allocate b ps)
    {source : Option Handle} {e : Effect} {p : Operand}
    (hp : p.home env named a.catalog.arena.size = e.home source a.catalog.arena.size) :
    Binds env named a (b.settled (a.slots.last + 1) a.catalog.arena.size source e) (p :: ps) := by
  have hext := a.extends_allocate.trans hab.ext
  obtain ⟨rs, hrs, hfilter⟩ := h.log
  obtain ⟨rs', hrs', hfilter'⟩ :=
    b.filter_log_settled (a.slots.last + 1) a.catalog.arena.size source e
  refine ⟨⟨.allocated (a.slots.last + 1) (a.slots.name (a.slots.last + 1)) a.catalog.arena.size ::
    (rs ++ rs'), ?_, ?_⟩, fun i q hq => ?_⟩
  · rw [hrs', hrs, log_allocate, List.append_assoc, List.append_assoc, List.singleton_append]
  · have hone := a.extends_allocate.allocations_add (m := 1) rfl ps.length
    rw [List.filter_cons_of_pos rfl, List.filter_append, hfilter, hfilter', List.append_nil,
      List.length_cons, Nat.add_comm ps.length, hone]
    rfl
  · cases i with
    | zero =>
      obtain rfl : p = q := by simpa using hq
      exact (hab.ext.handle?_settled source e).trans (congrArg some hp.symm)
    | succ i =>
      -- A slot of the operands: its name is another one, and it was counted from the next slot.
      have hslot := h.slot i q (by simpa using hq)
      have hlast : a.allocate.slots.last + 1 + i = a.slots.last + 1 + (i + 1) := by
        simp only [slots_allocate]; omega
      have hsize : a.allocate.catalog.arena.size + i = a.catalog.arena.size + (i + 1) := by
        simp only [catalog_allocate, Catalog.size_create]; omega
      rw [a.extends_allocate.name_eq, hlast, hsize] at hslot
      rw [handle?_settled_of_ne, hslot]
      rw [hext.name_eq, Ne, a.slots.name_inj]
      omega

end Analyzer

open Analyzer Analysis

variable {known : String → Prop} {env : Environment} {named : String → Option Handle}

/-- Looking a relation up gives what its name is bound to and takes no slot. -/
theorem Analysis.binds_lookup {a b : Analyzer} {name : Lexeme} {source : Option Handle}
    (hrun : (lookup name).run a = .ok source b) :
    Binds env named a b [] ∧ source = a.catalog.handle? name.text := by
  cases hh : a.catalog.handle? name.text with
  | some handle =>
    rw [run_lookup_bound hh] at hrun
    obtain ⟨rfl, rfl⟩ := EStateM.Result.ok.inj hrun
    exact ⟨.refl .., rfl⟩
  | none =>
    rw [run_lookup_unbound hh] at hrun
    obtain ⟨rfl, rfl⟩ := EStateM.Result.ok.inj hrun
    exact ⟨⟨⟨_, rfl, rfl⟩, by simp⟩, rfl⟩

mutual

/-- After an analysis of a query, every slot has the relation of its part. -/
theorem Query.binds_analyze (q : Query) {a b : Analyzer} {slot : Nat} (h : a.Reads known env)
    (hnamed : ∀ name, known name → a.catalog.handle? name = named name)
    (hq : ∀ r ∈ q.relations, known r.text) (hrun : q.analyze.run a = .ok slot b) :
    Binds env named a b q.parts := by
  have h' := h.extends a.extends_allocate
  have hnamed' (name : String) (hk : known name) : a.allocate.catalog.handle? name = named name :=
    (h.handle_eq a.extends_allocate hk).trans (hnamed name hk)
  cases q with
  | unary op mark operand =>
    rw [Query.relations] at hq
    obtain ⟨c, source, hc, hac, hl⟩ := operand.infers_source h' hq
    obtain ⟨hbinds, hsource⟩ := operand.binds_source h' hnamed' hq hc
    unfold Query.analyze at hrun
    rw [run_bind_ok (run_allocate a), run_bind_ok hc, run_bind_ok hl.run_schemaOf,
      run_bind_ok (hac.ext.run_settle ..)] at hrun
    obtain ⟨-, rfl⟩ := EStateM.Result.ok.inj hrun
    rw [Query.parts]
    refine hbinds.settle hac ?_
    rw [Operand.home, Query.home, hsource, catalog_allocate, Catalog.size_create]
  | binary op mark left right =>
    rw [Query.relations] at hq
    have hqleft := fun r hr => hq r (List.mem_append_left _ hr)
    have hqright := fun r hr => hq r (List.mem_append_right _ hr)
    obtain ⟨c, hc, hac⟩ := left.infers_slot h' hqleft
    have hnamed'' (name : String) (hk : known name) : c.catalog.handle? name = named name :=
      (h'.handle_eq hac.ext hk).trans (hnamed' name hk)
    obtain ⟨d, hd, hcd⟩ := right.infers_slot (h'.extends hac.ext) hqright
    have hboth := hac.append h' hcd
    have hbinds := (left.binds_slot h' hnamed' hqleft hc).append hac hcd
      (right.binds_slot (h'.extends hac.ext) hnamed'' hqright hd)
    -- The slots of the two operands, read in the state after both of them.
    obtain ⟨ps, hps⟩ := left.slotParts_eq_cons
    obtain ⟨ps', hps'⟩ := right.slotParts_eq_cons
    have hleft : d.slotHandle? (a.allocate.slots.last + 1) =
        some (left.home env named (a.catalog.arena.size + 1)) := by
      have hslot := hbinds.slot 0 left (by rw [hps]; rfl)
      rw [catalog_allocate, Catalog.size_create] at hslot
      unfold slotHandle?
      rw [hboth.ext.name_eq]
      exact hslot
    rw [hps] at hac
    rw [hps'] at hcd
    unfold Query.analyze at hrun
    rw [run_bind_ok (run_allocate a), run_bind_ok hc, run_bind_ok hd, run_bind_ok (run_get d),
      run_bind_ok (hac.located_extends hcd.ext).run_schemaOf, run_bind_ok (run_get d),
      run_bind_ok hcd.located.run_schemaOf, run_bind_ok (hboth.ext.run_settle ..)] at hrun
    obtain ⟨-, rfl⟩ := EStateM.Result.ok.inj hrun
    rw [Query.parts]
    refine hbinds.settle hboth ?_
    rw [Operand.home, Query.home, hleft]

/-- After an analysis of the operand of an operator with one operand, which gives its relation. -/
theorem Operand.binds_source (o : Operand) {a b : Analyzer} {source : Option Handle}
    (h : a.Reads known env)
    (hnamed : ∀ name, known name → a.catalog.handle? name = named name)
    (ho : ∀ r ∈ o.relations, known r.text) (hrun : o.source.run a = .ok source b) :
    Binds env named a b o.sourceParts ∧ source = o.source? env named a.catalog.arena.size := by
  cases o with
  | relation name =>
    have hk : known name.text := ho name (by simp [Operand.relations])
    unfold Operand.source at hrun
    rw [Operand.sourceParts, Operand.source?, ← hnamed _ hk]
    exact binds_lookup hrun
  | nested q =>
    rw [Operand.relations] at ho
    obtain ⟨c, hc, hac⟩ := q.infers_analyze h ho
    have hbinds := q.binds_analyze h hnamed ho hc
    obtain ⟨ps, hps⟩ := q.parts_eq_cons
    unfold Operand.source at hrun
    rw [run_bind_ok hc] at hrun
    obtain ⟨rfl, rfl⟩ := EStateM.Result.ok.inj hrun
    rw [Operand.sourceParts, Operand.source?]
    refine ⟨hbinds, ?_⟩
    -- The relation of the operand is that of the first slot, which belongs to the query itself.
    have hslot := hbinds.slot 0 (.nested q) (by rw [hps]; rfl)
    unfold slotHandle?
    rw [hac.ext.name_eq]
    rw [Operand.home] at hslot
    exact hslot

/-- After an analysis of an operand of an operator with two operands. -/
theorem Operand.binds_slot (o : Operand) {a b : Analyzer} {slot : Nat} (h : a.Reads known env)
    (hnamed : ∀ name, known name → a.catalog.handle? name = named name)
    (ho : ∀ r ∈ o.relations, known r.text) (hrun : o.slot.run a = .ok slot b) :
    Binds env named a b o.slotParts := by
  cases o with
  | relation name =>
    have hk : known name.text := ho name (by simp [Operand.relations])
    have hnamed' := (h.handle_eq a.extends_allocate hk).trans (hnamed _ hk)
    obtain ⟨c, source, hc, hac, -⟩ := infers_lookup (h.extends a.extends_allocate) hk
    obtain ⟨hbinds, hsource⟩ : Binds env named a.allocate c [] ∧ _ := binds_lookup hc
    rw [hnamed'] at hsource
    rw [Operand.slotParts]
    -- The slot is settled like that of an operator that shares its operand.
    have hhome : (Operand.relation name).home env named a.catalog.arena.size =
        Effect.home ⟨.shared, []⟩ source a.catalog.arena.size := by
      rw [Operand.home, hsource]
      rfl
    have hsettled := hbinds.settle hac hhome
    unfold Operand.slot at hrun
    rw [run_bind_ok (run_allocate a), run_bind_ok hc] at hrun
    cases source with
    | some handle =>
      obtain ⟨-, rfl⟩ := EStateM.Result.ok.inj hrun
      exact hsettled
    | none =>
      obtain ⟨-, rfl⟩ := EStateM.Result.ok.inj hrun
      exact hsettled
  | nested q =>
    rw [Operand.relations] at ho
    unfold Operand.slot at hrun
    rw [Operand.slotParts]
    exact q.binds_analyze h hnamed ho hrun

end

/-- After an analysis of queries one after the other. -/
theorem Analysis.binds_queries (qs : List Query) {a b : Analyzer} (h : a.Reads known env)
    (hnamed : ∀ name, known name → a.catalog.handle? name = named name)
    (hqs : ∀ q ∈ qs, ∀ r ∈ q.relations, known r.text)
    (hrun : (Analysis.queries qs).run a = .ok () b) :
    Binds env named a b (qs.flatMap Query.parts) := by
  induction qs generalizing a with
  | nil =>
    obtain ⟨-, rfl⟩ := EStateM.Result.ok.inj hrun
    exact .refl ..
  | cons q qs ih =>
    have hq := hqs q (List.mem_cons_self ..)
    obtain ⟨c, hc, hac⟩ := q.infers_analyze h hq
    -- The query and the record of its answer are one stretch.
    have hwrite := infers_write known env c (.answered (a.slots.last + 1))
    have haw := hac.append h hwrite
    have hbinds := (q.binds_analyze h hnamed hq hc).append hac hwrite (binds_write _ _ _ rfl)
    have hreads := h.extends haw.ext
    have hmore := fun q hq => hqs q (List.mem_cons_of_mem _ hq)
    obtain ⟨d, hd, hwd⟩ := infers_queries qs hreads hmore
    unfold Analysis.queries at hrun
    rw [run_bind_ok hc, run_bind_ok (run_modify ..)] at hrun
    obtain ⟨-, rfl⟩ := EStateM.Result.ok.inj (hd.symm.trans hrun)
    have hrest := ih hreads (fun name hk => (h.handle_eq haw.ext hk).trans (hnamed name hk))
      hmore hrun
    simpa using hbinds.append haw hwd hrest

/-- After an analysis of a program. -/
theorem Analysis.binds_program (qs : List Query) {a b : Analyzer} {n : Nat}
    (h : a.Reads known env) (hnamed : ∀ name, known name → a.catalog.handle? name = named name)
    (hqs : ∀ q ∈ qs, ∀ r ∈ q.relations, known r.text)
    (hrun : (Analysis.program qs).run a = .ok n b) :
    Binds env named a b (qs.flatMap Query.parts) := by
  cases qs with
  | nil =>
    obtain ⟨-, rfl⟩ := EStateM.Result.ok.inj hrun
    exact binds_write _ _ _ rfl
  | cons q qs =>
    have hstart := infers_write known env a (.started (q :: qs).length)
    have hreads := h.extends hstart.ext
    obtain ⟨c, hc, hac⟩ := infers_queries (q :: qs) hreads hqs
    have hbinds := binds_queries (q :: qs) hreads hnamed hqs hc
    unfold Analysis.program at hrun
    rw [run_bind_ok (run_modify ..), run_bind_ok hc] at hrun
    obtain ⟨-, rfl⟩ := EStateM.Result.ok.inj hrun
    have hfinish := infers_write known env c (.finished c.diagnostics.length)
    have hall := ((binds_write env named a rfl).append hstart hac hbinds).append
      (hstart.append h hac) hfinish (binds_write _ _ _ rfl)
    simpa using hall

/-- The slots of an analysis and the relations that they share. On a catalog without dangling
handles, an analysis of the queries of a text takes one slot for each part of the queries, and the
relation that is made for the `i`-th of them has the `i`-th handle from the end of the arena. A part
that shares the relation of its operand's slot, which is the next one, has the same handle as that
slot. Any other part has the handle of its name, if it has one that is bound, and otherwise that of
the relation that was made for its slot. So the relation of a slot was there before, or was made for
one of the slots of the same part, none of which comes before the slot, and it is never missing. -/
theorem Analysis.program_shares_relations (config : Config) {text : String} {qs : List Query}
    (hqs : parseProgram text = .ok qs) {a : Analyzer} (hstem : a.slots.stem = config.stem)
    (hrange : a.catalog.InRange) :
    ∃ b n, (Analysis.program qs).run a = .ok n b ∧
      b.slots.last = a.slots.last + (qs.flatMap Query.parts).length ∧
      (∃ rs, b.log = a.log ++ rs ∧
        rs.filter Record.isAllocated = a.allocations (qs.flatMap Query.parts).length) ∧
      ∀ i p, (qs.flatMap Query.parts)[i]? = some p →
        p.slotParts <+: (qs.flatMap Query.parts).drop i ∧
        (match p.shares? a.catalog.schema? with
          | some o => (qs.flatMap Query.parts)[i + 1]? = some o ∧
            b.slotHandle? (a.slots.last + 1 + i) = b.slotHandle? (a.slots.last + 1 + (i + 1))
          | none => b.slotHandle? (a.slots.last + 1 + i) =
            some ((p.name?.bind a.catalog.handle?).getD (a.catalog.arena.size + i))) ∧
        ∃ handle, b.slotHandle? (a.slots.last + 1 + i) = some handle ∧
          b.catalog.arena[handle]? = some (p.infer a.catalog.schema?).schema ∧
          (handle < a.catalog.arena.size ∨
            ∃ k < p.slotParts.length, handle = a.catalog.arena.size + i + k) := by
  have hreads := reads_spellable hstem hrange
  obtain ⟨b, hb, hab⟩ := infers_program qs hreads (parseProgram_spelled hqs)
  have hbinds : Binds a.catalog.schema? a.catalog.handle? a b (qs.flatMap Query.parts) :=
    binds_program qs hreads (fun _ _ => rfl) (parseProgram_spelled hqs) hb
  have hslot : ∀ i p, (qs.flatMap Query.parts)[i]? = some p →
      b.slotHandle? (a.slots.last + 1 + i) =
        some (p.home a.catalog.schema? a.catalog.handle? (a.catalog.arena.size + i)) := by
    intro i p hp
    unfold slotHandle?
    rw [hab.ext.name_eq]
    exact hbinds.slot i p hp
  refine ⟨b, _, hb, hab.last, hbinds.log, fun i p hp => ?_⟩
  have hclosed := closed_flatMap_parts qs i p hp
  refine ⟨hclosed, ?_, _, hslot i p hp, ?_, ?_⟩
  · split
    · next o hshares =>
      -- The parts of the operand come right after the part itself.
      obtain ⟨hhome, ps, hps⟩ := Operand.home_of_shares?_eq_some hshares
      obtain ⟨ps', hps'⟩ := o.slotParts_eq_cons
      have hnext : (qs.flatMap Query.parts)[i + 1]? = some o := by
        obtain ⟨rest, hrest⟩ := hclosed
        rw [← List.getElem?_drop, ← hrest, hps, hps']
        rfl
      refine ⟨hnext, ?_⟩
      rw [hslot i p hp, hslot (i + 1) o hnext, hhome]
      rfl
    · next hshares => rw [hslot i p hp, Operand.home_of_shares?_eq_none hshares]
  · obtain ⟨handle, hh, hs, -⟩ := hab.slot i p hp
    rw [← hab.ext.name_eq] at hh
    obtain rfl := Option.some.inj ((hslot i p hp).symm.trans hh)
    exact hs
  · rcases p.home_cases (a.catalog.arena.size + i) with ⟨name, hname⟩ | ⟨k, hk, heq⟩
    · exact .inl ((Catalog.inRange_iff _).1 hrange name _ hname)
    · exact .inr ⟨k, hk, heq⟩

set_option maxRecDepth 2000 in
/-- The union shares the relation of the closure, which shares that of the selection. -/
theorem Analysis.shares_relations_union_closure_select :
    ∃ qs b n, parseProgram "(closure((select(a=1)(R)))) union R" = .ok qs ∧
      (Analysis.program qs).run
        (.start ⟨#[⟨[⟨"a", .int⟩, ⟨"b", .int⟩]⟩], .ofList [("$slot2", 0), ("R", 0)]⟩ .standard) =
          .ok n b ∧
      b.slotHandle? 1 = b.slotHandle? 2 ∧ b.slotHandle? 2 = b.slotHandle? 3 ∧
      b.slotHandle? 3 = some 3 ∧ b.slotHandle? 4 = some 0 := by
  have hqs : parseProgram "(closure((select(a=1)(R)))) union R" = .ok
      [.binary .union ⟨"union", ⟨1, 29⟩⟩
        (.nested (.unary .closure ⟨"closure", ⟨1, 2⟩⟩
          (.nested (.unary (.select (.last (.link (.plain (.last (.last (.attr ⟨"a", ⟨1, 18⟩⟩))))
              .eq ⟨"=", ⟨1, 19⟩⟩
              (.last (.plain (.last (.last (.literal .integer ⟨"1", ⟨1, 20⟩⟩))))))))
            ⟨"select", ⟨1, 11⟩⟩ (.relation ⟨"R", ⟨1, 23⟩⟩)))))
        (.relation ⟨"R", ⟨1, 35⟩⟩)] := by rfl
  obtain ⟨b, n, hrun, -, -, hall⟩ := program_shares_relations .standard hqs
    (a := .start ⟨#[⟨[⟨"a", .int⟩, ⟨"b", .int⟩]⟩], .ofList [("$slot2", 0), ("R", 0)]⟩ .standard)
    rfl (by decide)
  exact ⟨_, b, n, hqs, hrun, (hall 0 _ rfl).2.1.2, (hall 1 _ rfl).2.1.2, (hall 2 _ rfl).2.1,
    (hall 3 _ rfl).2.1⟩

end RelAlgebra
