import RelAlgebra.Proofs.Analysis.Faults
import RelAlgebra.Proofs.Analysis.Sharing

/-!
# The log tells what an analysis did

Whatever an analysis does to the diagnostics and to the names of a catalog, it writes down. So the
diagnostics and the names after an analysis are those that its records make of the ones before:
`Analyzer.Replays`. Each step is replayed by its own records, and a walk by those of its steps.

The records are nested like the query. A part that has a slot takes it first, then its operands
write their records, then it says what is wrong with it, and last that its slot shares a relation,
if it does: `Block`. `Query.LogsInside` gives this form to the records of a whole query. How each
part stands in the records of a program, `Operand.Stands`, follows from the form alone.
-/

namespace RelAlgebra

/-! ## Reading records -/

namespace Record

/-- The diagnostic that the record tells. -/
def diagnostic? : Record → Option Diagnostic
  | .reported d => some d
  | _ => none

/-- Whether the record tells of the slot: that it was taken, or that it shares a relation. -/
def tellsOf (slot : Nat) : Record → Bool
  | .allocated k _ _ | .aliased k _ => k == slot
  | _ => false

/-- The bindings after what the record tells, if slots are named as given. -/
def rebind (name : Nat → String) (names : Bindings) : Record → Bindings
  | .allocated _ own handle => names.insert own handle
  | .aliased slot handle => names.insert (name slot) handle
  | _ => names

/-- The texts of the warnings are those of the diagnostics. -/
theorem text_warnings (rs : List Record) :
    (rs.filter fun r => r.severity = .warn).map text =
      (rs.filterMap diagnostic?).map Diagnostic.render := by
  induction rs with
  | nil => rfl
  | cons r rs ih =>
    cases r with
    | reported d =>
      have hd : (reported d).diagnostic? = some d := rfl
      have htext : (reported d).text = d.render := rfl
      rw [List.filter_cons_of_pos (by simp [severity]), List.map_cons, ih,
        List.filterMap_cons_some hd, List.map_cons, htext]
    | _ => rw [List.filter_cons_of_neg (by simp [severity]), ih, List.filterMap_cons_none rfl]

/-- The reports in a list of reports are all of them. -/
theorem filterMap_reported (ds : List Diagnostic) :
    (ds.map Record.reported).filterMap diagnostic? = ds := by
  induction ds with
  | nil => rfl
  | cons d ds ih => simpa [diagnostic?] using ih

/-- Reports bind no names. -/
theorem foldl_reported (name : Nat → String) (names : Bindings) (ds : List Diagnostic) :
    (ds.map Record.reported).foldl (rebind name) names = names := by
  induction ds with
  | nil => rfl
  | cons d ds ih => exact ih

end Record

/-! ## Steps and their records -/

namespace Analyzer

variable {a b c : Analyzer} {rs us : List Record}

/-- From the state `a` to the state `b` the records `rs` were written, and they tell what became of
the diagnostics and of the names. -/
structure Replays (a b : Analyzer) (rs : List Record) : Prop where
  stem : b.slots.stem = a.slots.stem
  log : b.log = a.log ++ rs
  diagnostics : b.diagnostics = a.diagnostics ++ rs.filterMap Record.diagnostic?
  names : b.catalog.names = rs.foldl (Record.rebind a.slots.name) a.catalog.names

/-- Slots have the same names before and after. -/
theorem Replays.name_eq (h : a.Replays b rs) : b.slots.name = a.slots.name := by
  funext n
  unfold Slots.name
  rw [h.stem]

/-- Without records nothing changes. -/
theorem Replays.refl (a : Analyzer) : a.Replays a [] :=
  ⟨rfl, (List.append_nil _).symm, (List.append_nil _).symm, rfl⟩

/-- One stretch after the other. -/
theorem Replays.append (h : a.Replays b rs) (h' : b.Replays c us) : a.Replays c (rs ++ us) where
  stem := h'.stem.trans h.stem
  log := by rw [h'.log, h.log, List.append_assoc]
  diagnostics := by rw [h'.diagnostics, h.diagnostics, List.filterMap_append, List.append_assoc]
  names := by rw [h'.names, h.names, h.name_eq, List.foldl_append]

/-- A record that tells of no diagnostic and of no name. -/
theorem replays_write (a : Analyzer) {r : Record} (hd : r.diagnostic? = none)
    (hn : ∀ name names, r.rebind name names = names) : a.Replays (a.write r) [r] where
  stem := rfl
  log := rfl
  diagnostics := by
    rw [List.filterMap_cons_none hd, List.filterMap_nil, List.append_nil]
    rfl
  names := (hn ..).symm

/-- Taking a slot is recorded with its number, its name and its handle. -/
theorem replays_allocate (a : Analyzer) : a.Replays a.allocate
    [.allocated (a.slots.last + 1) (a.slots.name (a.slots.last + 1)) a.catalog.arena.size] :=
  ⟨rfl, rfl, (List.append_nil _).symm, rfl⟩

/-- Each report is recorded. -/
theorem replays_reportAll (a : Analyzer) (ds : List Diagnostic) :
    a.Replays (a.reportAll ds) (ds.map .reported) where
  stem := by rw [slots_reportAll]
  log := log_reportAll a ds
  diagnostics := by rw [diagnostics_reportAll, Record.filterMap_reported]
  names := by rw [catalog_reportAll, Record.foldl_reported]

/-- Sharing a relation is recorded with the slot and the handle. -/
theorem replays_share (a : Analyzer) (slot : Nat) (handle : Handle) :
    a.Replays (a.share slot handle) [.aliased slot handle] :=
  ⟨rfl, rfl, (List.append_nil _).symm, rfl⟩

/-- Filling a relation leaves no record. -/
theorem replays_filled (a : Analyzer) (handle : Handle) (s : Schema) :
    a.Replays (a.filled handle s) [] :=
  ⟨rfl, (List.append_nil _).symm, (List.append_nil _).symm, rfl⟩

/-- Putting an effect into a slot: the diagnostics, and then perhaps that the slot shares the
relation of the operand. -/
theorem exists_replays_settled (a : Analyzer) (slot : Nat) (own : Handle) (source : Option Handle)
    (e : Effect) : ∃ sharing, (sharing = [] ∨ ∃ handle, sharing = [.aliased slot handle]) ∧
      a.Replays (a.settled slot own source e) (e.diagnostics.map .reported ++ sharing) := by
  obtain ⟨output, ds⟩ := e
  have hreport := a.replays_reportAll ds
  cases output with
  | own s => exact ⟨[], .inl rfl, hreport.append ((a.reportAll ds).replays_filled own s)⟩
  | shared =>
    cases source with
    | some handle =>
      exact ⟨_, .inr ⟨handle, rfl⟩, hreport.append ((a.reportAll ds).replays_share slot handle)⟩
    | none => exact ⟨[], .inl rfl, hreport.append (.refl _)⟩

end Analyzer

/-! ## The form of the records -/

/-- The records of a part that has a slot: the slot is taken, then come the records of its operands,
what is wrong with the part itself and, perhaps, that the slot shares a relation. -/
def Block (name : Nat → String) (slot : Nat) (own : Handle) (inner rs : List Record) : Prop :=
  ∃ (ds : List Diagnostic) (sharing : List Record),
    (sharing = [] ∨ ∃ handle, sharing = [.aliased slot handle]) ∧
    rs = .allocated slot (name slot) own :: (inner ++ (ds.map .reported ++ sharing))

mutual

/-- The form of the records of the operands of a query, the left operand before the right one. The
next slot and the handle of the next relation are given. -/
def Query.LogsInside (name : Nat → String) : Query → Nat → Handle → List Record → Prop
  | .unary _ _ operand, slot, own, rs => operand.LogsSource name slot own rs
  | .binary _ _ left right, slot, own, rs =>
    ∃ us vs, left.LogsSlot name slot own us ∧
      right.LogsSlot name (slot + left.slotSize) (own + left.slotSize) vs ∧ rs = us ++ vs

/-- The form of the records of the operand of an operator with one operand. A relation has no slot,
but it may be unknown. -/
def Operand.LogsSource (name : Nat → String) : Operand → Nat → Handle → List Record → Prop
  | .relation _, _, _, rs => ∃ ds : List Diagnostic, rs = ds.map .reported
  | .nested query, slot, own, rs =>
    ∃ inner, query.LogsInside name (slot + 1) (own + 1) inner ∧ Block name slot own inner rs

/-- The form of the records of an operand of an operator with two operands. -/
def Operand.LogsSlot (name : Nat → String) : Operand → Nat → Handle → List Record → Prop
  | .relation _, slot, own, rs => Block name slot own [] rs
  | .nested query, slot, own, rs =>
    ∃ inner, query.LogsInside name (slot + 1) (own + 1) inner ∧ Block name slot own inner rs

end

/-- The form of the records of the operands of a part, of which a relation has none. -/
def Operand.LogsInside (name : Nat → String) : Operand → Nat → Handle → List Record → Prop
  | .relation _, _, _, rs => rs = []
  | .nested query, slot, own, rs => query.LogsInside name slot own rs

open Analyzer Analysis

/-- After the operands of a part, the effect of the part completes its records. -/
theorem Analyzer.Replays.exists_block {a b : Analyzer} {inner : List Record}
    (h : a.allocate.Replays b inner) (source : Option Handle) (e : Effect) :
    ∃ rs, a.Replays (b.settled (a.slots.last + 1) a.catalog.arena.size source e) rs ∧
      Block a.slots.name (a.slots.last + 1) a.catalog.arena.size inner rs := by
  obtain ⟨sharing, hsharing, hsettled⟩ :=
    b.exists_replays_settled (a.slots.last + 1) a.catalog.arena.size source e
  exact ⟨_, a.replays_allocate.append (h.append hsettled), e.diagnostics, sharing, hsharing, rfl⟩

/-- Looking a relation up leaves a record if the relation is unknown. -/
theorem Analysis.logs_lookup (name : Lexeme) (a : Analyzer) :
    (lookup name).Ends a
      (fun _ b => ∃ ds : List Diagnostic, a.Replays b (ds.map .reported)) (fun _ _ => True) := by
  cases h : a.catalog.handle? name.text with
  | some handle => exact .of_run (run_lookup_bound h) ⟨[], .refl a⟩
  | none => exact .of_run (run_lookup_unbound h) ⟨[_], a.replays_reportAll [_]⟩

mutual

/-- The records of a query replay its analysis and have its form. -/
theorem Query.logs_analyze (q : Query) (a : Analyzer) :
    q.analyze.Ends a (fun _ b => ∃ rs, a.Replays b rs ∧
      (Operand.nested q).LogsSlot a.slots.name (a.slots.last + 1) a.catalog.arena.size rs)
      (fun _ _ => True) := by
  cases q with
  | unary op mark operand =>
    unfold Query.analyze
    refine .step (run_allocate a) ?_
    refine .bind_any ((operand.logs_source a.allocate).and (operand.extends_source _)) ?_
    rintro source b ⟨⟨inner, hinner, hform⟩, hext⟩
    refine .bind_any (ends_schemaOf source b) ?_
    rintro s _ rfl
    obtain ⟨rs, hrs, hblock⟩ := hinner.exists_block source (op.apply mark s)
    rw [catalog_allocate, Catalog.size_create] at hform
    refine .step (hext.run_settle ..) (.of_run rfl ⟨rs, hrs, ?_⟩)
    rw [Operand.LogsSlot]
    exact ⟨inner, by rw [Query.LogsInside]; exact hform, hblock⟩
  | binary op mark left right =>
    unfold Query.analyze
    refine .step (run_allocate a) ?_
    refine .bind_any (((left.logs_slot a.allocate).and (left.extends_slot _)).and
      (left.numbers_slot _)) ?_
    rintro l b ⟨⟨⟨us, hus, hleft⟩, -, hab⟩, -, hnumbers⟩
    refine .bind_any ((right.logs_slot b).and (right.extends_slot _)) ?_
    rintro r c ⟨⟨vs, hvs, hright⟩, -, hbc⟩
    -- Both schemas are read in the state after the operands.
    refine .step (run_get c) ?_
    refine .bind_any (ends_schemaOf _ c) ?_
    rintro s _ rfl
    refine .step (run_get c) ?_
    refine .bind_any (ends_schemaOf _ c) ?_
    rintro t _ rfl
    obtain ⟨rs, hrs, hblock⟩ :=
      (hus.append hvs).exists_block (c.slotHandle? l) (op.apply mark s t)
    -- The right operand counts on from the slots of the left one.
    have hlast : b.slots.last + 1 = a.slots.last + 1 + 1 + left.slotSize := by
      rw [hnumbers.last]
      simp only [slots_allocate]
      omega
    have hsize : b.catalog.arena.size = a.catalog.arena.size + 1 + left.slotSize := by
      have hsize := hab.size
      simp only [hnumbers.last, catalog_allocate, slots_allocate, Catalog.size_create] at hsize
      omega
    rw [catalog_allocate, Catalog.size_create] at hleft
    rw [hlast, hsize, hus.name_eq] at hright
    refine .step ((hab.trans hbc).run_settle ..) (.of_run rfl ⟨rs, hrs, ?_⟩)
    rw [Operand.LogsSlot]
    exact ⟨us ++ vs, by rw [Query.LogsInside]; exact ⟨us, vs, hleft, hright, rfl⟩, hblock⟩

/-- So do those of the operand of an operator with one operand. -/
theorem Operand.logs_source (o : Operand) (a : Analyzer) :
    o.source.Ends a (fun _ b => ∃ rs, a.Replays b rs ∧
      o.LogsSource a.slots.name (a.slots.last + 1) a.catalog.arena.size rs)
      (fun _ _ => True) := by
  cases o with
  | relation name =>
    unfold Operand.source
    refine (logs_lookup name a).mono ?_ fun _ _ h => h
    rintro _ b ⟨ds, hds⟩
    exact ⟨_, hds, by rw [Operand.LogsSource]; exact ⟨ds, rfl⟩⟩
  | nested q =>
    unfold Operand.source
    refine .bind (q.logs_analyze a) ?_
    rintro slot b ⟨rs, hrs, hform⟩
    rw [Operand.LogsSlot] at hform
    exact .of_run rfl ⟨rs, hrs, by rw [Operand.LogsSource]; exact hform⟩

/-- So do those of an operand of an operator with two operands. -/
theorem Operand.logs_slot (o : Operand) (a : Analyzer) :
    o.slot.Ends a (fun _ b => ∃ rs, a.Replays b rs ∧
      o.LogsSlot a.slots.name (a.slots.last + 1) a.catalog.arena.size rs)
      (fun _ _ => True) := by
  cases o with
  | relation name =>
    unfold Operand.slot
    refine .step (run_allocate a) ?_
    refine .bind (logs_lookup name a.allocate) ?_
    rintro source b ⟨ds, hds⟩
    -- The records have the form of a block without operands, whether or not the slot shares a
    -- relation.
    have hform (sharing : List Record)
        (hsharing : sharing = [] ∨ ∃ handle, sharing = [.aliased (a.slots.last + 1) handle]) :
        (Operand.relation name).LogsSlot a.slots.name (a.slots.last + 1) a.catalog.arena.size
          (.allocated (a.slots.last + 1) (a.slots.name (a.slots.last + 1)) a.catalog.arena.size ::
            (ds.map .reported ++ sharing)) := by
      rw [Operand.LogsSlot]
      exact ⟨ds, sharing, hsharing, rfl⟩
    cases source with
    | some handle =>
      have hrs := a.replays_allocate.append (hds.append (b.replays_share (a.slots.last + 1) handle))
      exact .step rfl (.of_run rfl ⟨_, hrs, hform _ (.inr ⟨handle, rfl⟩)⟩)
    | none =>
      have hrs := a.replays_allocate.append (hds.append (.refl b))
      exact .step rfl (.of_run rfl ⟨_, hrs, hform [] (.inl rfl)⟩)
  | nested q =>
    unfold Operand.slot
    exact q.logs_analyze a

end

/-! ## The records of each slot -/

variable {name : Nat → String} {p : Operand} {ps qs : List Operand} {slot : Nat} {own : Handle}
  {rs us vs inner : List Record}

/-- How a part with its slot and its relation stands in the records `rs`: first its slot is taken,
then come the records of its operands, then what is wrong with the part and, perhaps, that the slot
shares a relation. No other record tells of the slot, and none outside of the records of the
operands tells of one of their slots. -/
def Operand.Stands (name : Nat → String) (p : Operand) (slot : Nat) (own : Handle)
    (rs : List Record) : Prop :=
  ∃ (before inner : List Record) (ds : List Diagnostic) (sharing after : List Record),
    rs = before ++
      .allocated slot (name slot) own :: (inner ++ (ds.map .reported ++ (sharing ++ after))) ∧
    p.LogsInside name (slot + 1) (own + 1) inner ∧
    (sharing = [] ∨ ∃ handle, sharing = [.aliased slot handle]) ∧
    rs.filter (Record.tellsOf slot) = .allocated slot (name slot) own :: sharing ∧
    ∀ k, slot < k → k < slot + p.slotParts.length →
      rs.filter (Record.tellsOf k) = inner.filter (Record.tellsOf k)

/-- A part takes a slot at least. -/
theorem Operand.length_slotParts_pos (o : Operand) : 0 < o.slotParts.length := by
  cases o with
  | relation r => rw [Operand.slotParts]; exact Nat.one_pos
  | nested q => cases q <;> rw [Operand.slotParts, Query.parts] <;> exact Nat.succ_pos _

/-- Records before and after that tell of no slot of the part and its operands. -/
theorem Operand.Stands.around (h : p.Stands name slot own rs) (us vs : List Record)
    (hother : ∀ k, slot ≤ k → k < slot + p.slotParts.length →
      us.filter (Record.tellsOf k) = [] ∧ vs.filter (Record.tellsOf k) = []) :
    p.Stands name slot own (us ++ (rs ++ vs)) := by
  obtain ⟨before, inner, ds, sharing, after, hrs, hinner, hsharing, hslot, hslots⟩ := h
  -- The records around tell of none of these slots.
  have hsame (k : Nat) (hk : slot ≤ k) (hk' : k < slot + p.slotParts.length) :
      (us ++ (rs ++ vs)).filter (Record.tellsOf k) = rs.filter (Record.tellsOf k) := by
    obtain ⟨hus, hvs⟩ := hother k hk hk'
    rw [List.filter_append, List.filter_append, hus, hvs, List.nil_append, List.append_nil]
  have hpos := p.length_slotParts_pos
  refine ⟨us ++ before, inner, ds, sharing, after ++ vs, ?_, hinner, hsharing, ?_, ?_⟩
  · rw [hrs]
    simp only [List.append_assoc, List.cons_append]
  · rw [hsame slot (Nat.le_refl _) (by omega), hslot]
  · intro k hk hk'
    rw [hsame k (Nat.le_of_lt hk) hk', hslots k hk hk']

/-- The records `rs` of the given parts, which have the slots from `slot` on and the relations from
`own` on. The slots are taken one after the other, and each part stands in the records. -/
structure Nests (name : Nat → String) (parts : List Operand) (slot : Nat) (own : Handle)
    (rs : List Record) : Prop where
  closed : Closed parts
  allocated : rs.filter Record.isAllocated = (List.range parts.length).map fun i =>
    .allocated (slot + i) (name (slot + i)) (own + i)
  /-- Only the slots of the parts are told of. -/
  other : ∀ k, k < slot ∨ slot + parts.length ≤ k → rs.filter (Record.tellsOf k) = []
  part : ∀ (i : Nat) (p : Operand), parts[i]? = some p → p.Stands name (slot + i) (own + i) rs

/-- Records that tell of no slot belong to no part. -/
theorem nests_nil (h : ∀ r ∈ rs, r.isAllocated = false ∧ ∀ k, r.tellsOf k = false) :
    Nests name [] slot own rs where
  closed := .nil
  allocated := List.filter_eq_nil_iff.2 fun r hr => by simp [(h r hr).1]
  other k _ := List.filter_eq_nil_iff.2 fun r hr => by simp [(h r hr).2 k]
  part i p hp := by simp at hp

/-- Records of parts after records of other parts. -/
theorem Nests.append (h : Nests name ps slot own us)
    (h' : Nests name qs (slot + ps.length) (own + ps.length) vs) :
    Nests name (ps ++ qs) slot own (us ++ vs) where
  closed := h.closed.append h'.closed
  allocated := by
    rw [List.filter_append, h.allocated, h'.allocated, List.length_append, List.range_add,
      List.map_append, List.map_map]
    simp only [Function.comp_def, Nat.add_assoc]
  other k hk := by
    rw [List.length_append] at hk
    rw [List.filter_append, h.other k (by omega), h'.other k (by omega), List.append_nil]
  part i p hp := by
    -- The part is one of the first parts, or one of the second ones.
    by_cases hi : i < ps.length
    · rw [List.getElem?_append_left hi] at hp
      -- The slots of the part and its operands are slots of the first parts.
      have hle := (h.closed i p hp).length_le
      rw [List.length_drop] at hle
      exact (h.part i p hp).around [] vs fun k hk hk' => ⟨rfl, h'.other k (by omega)⟩
    · rw [List.getElem?_append_right (by omega)] at hp
      have hpart := h'.part _ p hp
      have hcount (n : Nat) : n + ps.length + (i - ps.length) = n + i := by omega
      rw [hcount slot, hcount own] at hpart
      have haround := hpart.around us [] fun k hk hk' => ⟨h.other k (by omega), rfl⟩
      rw [List.append_nil] at haround
      exact haround

/-- The records of a part, around those of its operands. -/
theorem Nests.cons (hparts : p.slotParts = p :: ps)
    (h : Nests name ps (slot + 1) (own + 1) inner)
    (hp : p.LogsInside name (slot + 1) (own + 1) inner) (hblock : Block name slot own inner rs) :
    Nests name (p :: ps) slot own rs := by
  obtain ⟨ds, sharing, hsharing, rfl⟩ := hblock
  have hnone : (ds.map Record.reported ++ sharing).filter Record.isAllocated = [] := by
    rcases hsharing with rfl | ⟨handle, rfl⟩ <;> simp [Record.isAllocated]
  have hown (k : Nat) (hk : k ≠ slot) :
      [Record.allocated slot (name slot) own].filter (Record.tellsOf k) = [] := by
    simp [Record.tellsOf, Ne.symm hk]
  -- What comes after the records of the operands tells of no slot but that of the part.
  have hlast (k : Nat) (hk : k ≠ slot) :
      (ds.map Record.reported ++ sharing).filter (Record.tellsOf k) = [] := by
    rcases hsharing with rfl | ⟨handle, rfl⟩ <;> simp [Record.tellsOf, Ne.symm hk]
  have hother (k : Nat) (hk : k ≠ slot) : (Record.allocated slot (name slot) own :: (inner ++
      (ds.map .reported ++ sharing))).filter (Record.tellsOf k) =
        inner.filter (Record.tellsOf k) := by
    rw [← List.singleton_append, List.filter_append, List.filter_append, hown k hk, hlast k hk,
      List.nil_append, List.append_nil]
  refine ⟨h.closed.cons hparts, ?_, fun k hk => ?_, fun i q hq => ?_⟩
  · -- The slots in the order in which they are taken, that of the part first.
    rw [List.filter_cons_of_pos rfl, List.filter_append, h.allocated, hnone, List.length_cons,
      List.range_succ_eq_map, List.map_cons, List.map_map]
    simp only [Function.comp_def, List.append_nil, Nat.add_zero, Nat.succ_eq_add_one, Nat.add_assoc,
      Nat.add_comm 1]
  · rw [List.length_cons] at hk
    rw [hother k (by omega), h.other k (by omega)]
  · cases i with
    | zero =>
      -- The part itself, whose block is the whole list of records.
      obtain rfl : p = q := by simpa using hq
      have hslot : (Record.allocated slot (name slot) own :: (inner ++
          (ds.map .reported ++ sharing))).filter (Record.tellsOf slot) =
            .allocated slot (name slot) own :: sharing := by
        have hinner := h.other slot (by omega)
        rcases hsharing with rfl | ⟨handle, rfl⟩ <;> simp [Record.tellsOf, hinner]
      exact ⟨[], inner, ds, sharing, [], by simp, hp, hsharing, hslot,
        fun k hk _ => hother k (by omega)⟩
    | succ i =>
      -- The parts of the operands are counted from the next slot.
      have hpart := h.part i q (by simpa using hq)
      have hcount (n : Nat) : n + 1 + i = n + (i + 1) := by omega
      rw [hcount slot, hcount own] at hpart
      exact hpart.around [_] _ fun k hk _ => ⟨hown k (by omega), hlast k (by omega)⟩

mutual

/-- What the form of the records says of the slots of a query. -/
theorem Query.nests_parts (q : Query) {slot : Nat} {own : Handle} {rs : List Record}
    (h : (Operand.nested q).LogsSlot name slot own rs) : Nests name q.parts slot own rs := by
  rw [Operand.LogsSlot] at h
  obtain ⟨inner, hinner, hblock⟩ := h
  cases q with
  | unary op mark operand =>
    have hform := hinner
    rw [Query.LogsInside] at hform
    rw [Query.parts]
    exact (operand.nests_sourceParts hform).cons (by rw [Operand.slotParts, Query.parts]) hinner
      hblock
  | binary op mark left right =>
    have hform := hinner
    rw [Query.LogsInside] at hform
    obtain ⟨us, vs, hleft, hright, rfl⟩ := hform
    rw [← left.length_slotParts] at hright
    rw [Query.parts]
    exact ((left.nests_slotParts hleft).append (right.nests_slotParts hright)).cons
      (by rw [Operand.slotParts, Query.parts]) hinner hblock

/-- What it says of the slots of the operand of an operator with one operand. -/
theorem Operand.nests_sourceParts (o : Operand) {slot : Nat} {own : Handle} {rs : List Record}
    (h : o.LogsSource name slot own rs) : Nests name o.sourceParts slot own rs := by
  cases o with
  | relation r =>
    rw [Operand.LogsSource] at h
    obtain ⟨ds, rfl⟩ := h
    rw [Operand.sourceParts]
    exact nests_nil (by simp [Record.isAllocated, Record.tellsOf])
  | nested q =>
    rw [Operand.LogsSource] at h
    rw [Operand.sourceParts]
    exact q.nests_parts (by rw [Operand.LogsSlot]; exact h)

/-- What it says of the slots of an operand of an operator with two operands. -/
theorem Operand.nests_slotParts (o : Operand) {slot : Nat} {own : Handle} {rs : List Record}
    (h : o.LogsSlot name slot own rs) : Nests name o.slotParts slot own rs := by
  cases o with
  | relation r =>
    rw [Operand.LogsSlot] at h
    rw [Operand.slotParts]
    exact (nests_nil (by simp)).cons (by rw [Operand.slotParts]) rfl h
  | nested q =>
    rw [Operand.slotParts]
    exact q.nests_parts h

end

/-- The records of queries one after the other. -/
theorem Analysis.logs_queries (qs : List Query) (a : Analyzer) :
    (Analysis.queries qs).Ends a (fun _ b => ∃ rs, a.Replays b rs ∧
      Nests a.slots.name (qs.flatMap Query.parts) (a.slots.last + 1) a.catalog.arena.size rs)
      (fun _ _ => True) := by
  induction qs generalizing a with
  | nil => exact .of_run rfl ⟨[], .refl a, nests_nil (by simp)⟩
  | cons q qs ih =>
    unfold Analysis.queries
    refine .bind_any (((q.logs_analyze a).and (q.extends_analyze a)).and (q.numbers_analyze a)) ?_
    rintro slot b ⟨⟨⟨us, hus, hform⟩, -, hext⟩, -, hnumbers⟩
    refine .step rfl ((ih _).mono ?_ fun _ _ h => h)
    rintro _ c ⟨vs, hvs, hmore⟩
    have hwrite := hus.append (b.replays_write (r := .answered slot) rfl fun _ _ => rfl)
    refine ⟨_, hwrite.append hvs, ?_⟩
    have hanswered : Nests a.slots.name [] (a.slots.last + 1 + q.parts.length)
        (a.catalog.arena.size + q.parts.length) [.answered slot] :=
      nests_nil (by simp [Record.isAllocated, Record.tellsOf])
    have hfirst := (q.nests_parts hform).append hanswered
    -- The next query counts on from the slots of this one.
    have hlast : b.slots.last + 1 = a.slots.last + 1 + q.parts.length := by
      rw [hnumbers.last, q.length_parts]
      omega
    have hsize : b.catalog.arena.size = a.catalog.arena.size + q.parts.length := by
      have hsize := hext.size
      rw [hnumbers.last] at hsize
      rw [q.length_parts]
      omega
    rw [hwrite.name_eq, slots_write, catalog_write, hlast, hsize] at hmore
    rw [List.append_nil] at hfirst
    rw [List.flatMap_cons]
    exact hfirst.append hmore

/-- The records of a program: those of its queries, and one before and one after them. -/
theorem Analysis.logs_program (qs : List Query) (a : Analyzer) :
    (Analysis.program qs).Ends a (fun _ b => ∃ rs, a.Replays b rs ∧
      Nests a.slots.name (qs.flatMap Query.parts) (a.slots.last + 1) a.catalog.arena.size rs)
      (fun _ _ => True) := by
  cases qs with
  | nil =>
    have hwrite := a.replays_write (r := .nothing) rfl fun _ _ => rfl
    exact .of_run rfl ⟨_, hwrite, nests_nil (by simp [Record.isAllocated, Record.tellsOf])⟩
  | cons q qs =>
    unfold Analysis.program
    refine .step rfl (.bind (logs_queries (q :: qs) _) ?_)
    rintro _ b ⟨rs, hrs, hnests⟩
    have hstart := a.replays_write (r := .started (q :: qs).length) rfl fun _ _ => rfl
    have hfinish := b.replays_write (r := .finished b.diagnostics.length) rfl fun _ _ => rfl
    refine .step rfl (.of_run rfl ⟨_, (hstart.append hrs).append hfinish, ?_⟩)
    -- The first and the last record belong to no part.
    have hbefore : Nests a.slots.name [] (a.slots.last + 1) a.catalog.arena.size
        [.started (q :: qs).length] :=
      nests_nil (by simp [Record.isAllocated, Record.tellsOf])
    have hafter (slot : Nat) (own : Handle) :
        Nests a.slots.name [] slot own [.finished b.diagnostics.length] :=
      nests_nil (by simp [Record.isAllocated, Record.tellsOf])
    have hall := (hbefore.append hnests).append (hafter ..)
    rw [List.append_nil] at hall
    exact hall

/-- The log tells exactly what an analysis did. Started in any state whose catalog has no dangling
handles, an analysis ends, and it adds records to the log of which the following holds. The texts of
the warnings are those of the diagnostics that were added, in their order. The slots that were taken
are recorded in increasing order, one for each part of the queries, each with its name and with the
handles from the end of the arena on. The records of each part stand together: first that its slot
was taken, then the records of its operands, then its diagnostics, and last, if at all, that the
slot shares a relation. No other record tells of the slot, and none outside of the records of the
operands tells of one of their slots. And the names are bound as the records tell, one after the
other. -/
theorem Analysis.program_log (qs : List Query) {a : Analyzer} (hrange : a.catalog.InRange) :
    ∃ n b rs, (Analysis.program qs).run a = .ok n b ∧ b.log = a.log ++ rs ∧
      (∃ ds, b.diagnostics = a.diagnostics ++ ds ∧
        (rs.filter fun r => r.severity = .warn).map Record.text = ds.map Diagnostic.render) ∧
      b.slots.last = a.slots.last + (qs.flatMap Query.parts).length ∧
      rs.filter Record.isAllocated = a.allocations (qs.flatMap Query.parts).length ∧
      (∀ (i : Nat) (p : Operand), (qs.flatMap Query.parts)[i]? = some p →
        p.Stands a.slots.name (a.slots.last + 1 + i) (a.catalog.arena.size + i) rs) ∧
      rs.foldl (Record.rebind a.slots.name) a.catalog.names = b.catalog.names := by
  obtain ⟨n, b, hrun, -⟩ := (stable_program Catalog.stable_inRange qs hrange).exists_ok
  obtain ⟨rs, hreplays, hnests⟩ := (logs_program qs a).of_ok hrun
  have hlast : b.slots.last = a.slots.last + (qs.flatMap Query.parts).length := by
    have hsize : (qs.flatMap Query.parts).length = (qs.map Query.size).sum := by
      simp only [List.length_flatMap, Query.length_parts]
    rw [hsize]
    exact ((numbers_program qs a).of_ok hrun).last
  exact ⟨n, b, rs, hrun, hreplays.log,
    ⟨_, hreplays.diagnostics, Record.text_warnings rs⟩, hlast, hnests.allocated, hnests.part,
    hreplays.names.symm⟩

/-- Three slots that all share the relation of `R`, and a closure that wants two attributes. -/
theorem Analysis.program_log_union_closure :
    ∃ n b rs, (Analysis.program [.binary .union ⟨"∪", ⟨1, 3⟩⟩ (.relation ⟨"R", ⟨1, 1⟩⟩)
        (.nested (.unary .closure ⟨"<<", ⟨1, 6⟩⟩ (.relation ⟨"R", ⟨1, 8⟩⟩)))]).run
        (.start ⟨#[⟨[⟨"a", .int⟩]⟩], .ofList [("R", 0)]⟩ .standard) = .ok n b ∧
      b.log = rs ∧ (rs.filter fun r => r.severity = .warn).map Record.text =
        b.diagnostics.map Diagnostic.render ∧
      rs.filter Record.isAllocated =
        [.allocated 1 "$slot1" 1, .allocated 2 "$slot2" 2, .allocated 3 "$slot3" 3] ∧
      (∃ before inner ds sharing after,
        rs = before ++ .allocated 1 "$slot1" 1 ::
          (inner ++ (List.map Record.reported ds ++ (sharing ++ after))) ∧
        (sharing = [] ∨ ∃ handle, sharing = [.aliased 1 handle]) ∧
        rs.filter (Record.tellsOf 1) = .allocated 1 "$slot1" 1 :: sharing ∧
        rs.filter (Record.tellsOf 3) = inner.filter (Record.tellsOf 3)) ∧
      rs.foldl (Record.rebind fun slot => "$slot" ++ toString slot) (.ofList [("R", 0)]) =
        b.catalog.names := by
  obtain ⟨n, b, rs, hrun, hlog, ⟨ds, hds, hwarn⟩, -, hallocated, hparts, hnames⟩ :=
    program_log [.binary .union ⟨"∪", ⟨1, 3⟩⟩ (.relation ⟨"R", ⟨1, 1⟩⟩)
      (.nested (.unary .closure ⟨"<<", ⟨1, 6⟩⟩ (.relation ⟨"R", ⟨1, 8⟩⟩)))]
      (a := .start ⟨#[⟨[⟨"a", .int⟩]⟩], .ofList [("R", 0)]⟩ .standard) (by decide)
  obtain ⟨before, inner, es, sharing, after, hrs, -, hsharing, hslot, hslots⟩ := hparts 0 _ rfl
  exact ⟨n, b, rs, hrun, hlog, hds ▸ hwarn, hallocated,
    ⟨before, inner, es, sharing, after, hrs, hsharing, hslot, hslots 3 (by decide) (by decide)⟩,
    hnames⟩

end RelAlgebra
