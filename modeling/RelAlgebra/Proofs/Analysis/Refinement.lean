import RelAlgebra.Proofs.Analysis.Frame
import RelAlgebra.Proofs.Analysis.Inference
import RelAlgebra.Proofs.Grammar.Names

/-!
# An analysis computes what is inferred

An analysis works on a catalog in which slots share relations and attributes are written through
names. Here it is shown to end without a fault, to report what is inferred for its queries, and to
leave in every slot the schema that is inferred for the part of the query that the slot belongs to.

`Analyzer.Infers` is the relation between the states before and after a stretch of the analysis. It
says of each new slot where its relation lies: at the end of the arena, among the new relations, or
at the handle of a name that the queries refer to. The relation that was made for the slot of an
operator is neither, as seen from the operands. So no slot of an operand shares it, and writing into
it after the operands changes no other slot.
-/

namespace RelAlgebra

namespace Analyzer

/-- The names in `known` can be spelled, no slot of the state can be, and the known names stand for
the schemas that the environment says. -/
structure Reads (a : Analyzer) (known : String → Prop) (env : Environment) : Prop where
  foreign : ∀ n, ¬ Spellable (a.slots.name n)
  spellable : ∀ name, known name → Spellable name
  find : ∀ name, known name → a.catalog.find? name = .ok (env name)

/-- The relation with the given handle, as seen from `a`, is new or has a known name. -/
def Reachable (a : Analyzer) (known : String → Prop) (handle : Handle) : Prop :=
  a.catalog.arena.size ≤ handle ∨ ∃ name, known name ∧ a.catalog.handle? name = some handle

/-- Between the states `a` and `b` slots were taken for the given parts, and the diagnostics `ds`
were added. Every new slot has the schema that is inferred for its part. -/
structure Infers (known : String → Prop) (env : Environment) (a b : Analyzer)
    (parts : List Operand) (ds : List Diagnostic) : Prop where
  ext : a.Extends b
  diagnostics : b.diagnostics = a.diagnostics ++ ds
  last : b.slots.last = a.slots.last + parts.length
  slot : ∀ i p, parts[i]? = some p → ∃ handle,
    b.catalog.handle? (a.slots.name (a.slots.last + 1 + i)) = some handle ∧
      b.catalog.arena[handle]? = some (p.infer env).schema ∧ a.Reachable known handle

/-- `source` is the relation of an operand: either it has the schema `s`, or there is none and `s`
is empty. -/
def Located (known : String → Prop) (a b : Analyzer) (source : Option Handle) (s : Schema) : Prop :=
  match source with
  | some handle => b.catalog.arena[handle]? = some s ∧ a.Reachable known handle
  | none => s = ∅

variable {known : String → Prop} {env : Environment} {a b c : Analyzer}

/-- A known name is not the name of a slot. -/
theorem Reads.ne_name (h : a.Reads known env) {name : String} (hk : known name) (n : Nat) :
    name ≠ a.slots.name n :=
  fun hn => h.foreign n (hn ▸ h.spellable name hk)

/-- A known name keeps its handle. -/
theorem Reads.handle_eq (h : a.Reads known env) (hab : a.Extends b) {name : String}
    (hk : known name) : b.catalog.handle? name = a.catalog.handle? name :=
  hab.handle name fun n _ _ => h.ne_name hk n

/-- A known name is bound to a handle inside the arena, or is not bound. -/
theorem Reads.handle_cases (h : a.Reads known env) {name : String} (hk : known name) :
    (∃ handle s, a.catalog.handle? name = some handle ∧ a.catalog.arena[handle]? = some s ∧
      env name = some s) ∨ (a.catalog.handle? name = none ∧ env name = none) := by
  have hfind := h.find name hk
  cases henv : env name with
  | some s =>
    rw [henv, Catalog.find?_eq_some_iff] at hfind
    obtain ⟨handle, hh, hs⟩ := hfind
    exact .inl ⟨handle, s, hh, hs, rfl⟩
  | none =>
    rw [henv, Catalog.find?_eq_none_iff] at hfind
    exact .inr ⟨hfind, rfl⟩

/-- Known names stand for the same schemas after an extension. -/
theorem Reads.extends (h : a.Reads known env) (hab : a.Extends b) : b.Reads known env := by
  refine ⟨fun n => ?_, h.spellable, fun name hk => ?_⟩
  · rw [hab.name_eq]
    exact h.foreign n
  · -- The name keeps its handle, and the relation behind it has not changed.
    have hb := h.handle_eq hab hk
    rcases h.handle_cases hk with ⟨handle, s, hh, hs, henv⟩ | ⟨hh, henv⟩
    · obtain ⟨hlt, -⟩ := Array.getElem?_eq_some_iff.1 hs
      rw [henv, Catalog.find?_eq_some_iff]
      exact ⟨handle, hb.trans hh, (hab.entry handle hlt).trans hs⟩
    · rw [henv, Catalog.find?_eq_none_iff]
      exact hb.trans hh

/-- What can be reached from an extension can be reached from the state that was extended. -/
theorem Reads.reachable (h : a.Reads known env) (hab : a.Extends b) {handle : Handle}
    (hr : b.Reachable known handle) : a.Reachable known handle := by
  rcases hr with hge | ⟨name, hk, hn⟩
  · have h1 := hab.size
    have h2 := hab.last_le
    exact .inl (by omega)
  · exact .inr ⟨name, hk, (h.handle_eq hab hk).symm.trans hn⟩

/-- The relation that is made for the slot of an operator cannot be reached from its operands. -/
theorem Reads.not_reachable_own (h : a.Reads known env) :
    ¬ a.allocate.Reachable known a.catalog.arena.size := by
  rintro (hge | ⟨name, hk, hn⟩)
  · simp only [catalog_allocate, Catalog.size_create] at hge
    omega
  · -- A known name was bound before, so its handle is below that of the new relation.
    rw [h.handle_eq a.extends_allocate hk] at hn
    rcases h.handle_cases hk with ⟨handle, s, hh, hs, -⟩ | ⟨hh, -⟩
    · rw [hh, Option.some.injEq] at hn
      obtain ⟨hlt, -⟩ := Array.getElem?_eq_some_iff.1 hs
      exact Nat.lt_irrefl _ (hn ▸ hlt)
    · rw [hh] at hn
      exact absurd hn (by simp)

/-- Nothing was done. -/
theorem Infers.refl (known : String → Prop) (env : Environment) (a : Analyzer) :
    Infers known env a a [] [] :=
  ⟨.refl a, by simp, by simp, by simp⟩

/-- One stretch after the other. -/
theorem Infers.append (h : a.Reads known env) {ps qs : List Operand} {ds es : List Diagnostic}
    (hab : Infers known env a b ps ds) (hbc : Infers known env b c qs es) :
    Infers known env a c (ps ++ qs) (ds ++ es) := by
  refine ⟨hab.ext.trans hbc.ext, ?_, ?_, fun i p hp => ?_⟩
  · rw [hbc.diagnostics, hab.diagnostics, List.append_assoc]
  · rw [hbc.last, hab.last, List.length_append, Nat.add_assoc]
  · by_cases hi : i < ps.length
    · -- A slot of the first stretch: neither its name nor its relation is touched by the second.
      rw [List.getElem?_append_left hi] at hp
      obtain ⟨handle, hh, hs, hr⟩ := hab.slot i p hp
      obtain ⟨hlt, -⟩ := Array.getElem?_eq_some_iff.1 hs
      have hle : a.slots.last + 1 + i ≤ b.slots.last := by rw [hab.last]; omega
      refine ⟨handle, ?_, (hbc.ext.entry handle hlt).trans hs, hr⟩
      rw [← hab.ext.name_eq, hbc.ext.handle_name hle, hab.ext.name_eq]
      exact hh
    · -- A slot of the second stretch, counted on from the slots of the first.
      rw [List.getElem?_append_right (by omega)] at hp
      obtain ⟨handle, hh, hs, hr⟩ := hbc.slot (i - ps.length) p hp
      have hn : b.slots.last + 1 + (i - ps.length) = a.slots.last + 1 + i := by
        rw [hab.last]; omega
      rw [hab.ext.name_eq, hn] at hh
      exact ⟨handle, hh, hs, h.reachable hab.ext hr⟩

/-- A report changes nothing but the diagnostics. -/
theorem infers_report (known : String → Prop) (env : Environment) (a : Analyzer) (d : Diagnostic) :
    Infers known env a (a.report d) [] [d] :=
  ⟨extends_of_eq rfl rfl, rfl, rfl, by simp⟩

/-- A record changes neither the catalog nor the slots nor the diagnostics. -/
theorem infers_write (known : String → Prop) (env : Environment) (a : Analyzer) (r : Record) :
    Infers known env a (a.write r) [] [] :=
  ⟨extends_of_eq rfl rfl, by simp, by simp, by simp⟩

/-- After the operands of an operator, seen from the state before the operator: the slots of the
operands come right after that of the operator, and none of them shares its relation. -/
theorem Infers.slot_of_allocate (h : a.Reads known env) {ps : List Operand} {ds : List Diagnostic}
    (hab : Infers known env a.allocate b ps ds) {i : Nat} {p : Operand} (hp : ps[i]? = some p) :
    ∃ handle, b.catalog.handle? (a.slots.name (a.slots.last + 1 + (i + 1))) = some handle ∧
      b.catalog.arena[handle]? = some (p.infer env).schema ∧ a.Reachable known handle ∧
      handle ≠ a.catalog.arena.size := by
  obtain ⟨handle, hh, hs, hr⟩ := hab.slot i p hp
  have hn : a.allocate.slots.last + 1 + i = a.slots.last + 1 + (i + 1) := by
    simp only [slots_allocate]; omega
  rw [hn, a.extends_allocate.name_eq] at hh
  refine ⟨handle, hh, hs, h.reachable a.extends_allocate hr, ?_⟩
  -- From the operands the relation of the operator's slot is out of reach.
  rintro rfl
  exact h.not_reachable_own hr

/-- After the operands of an operator, the relation that was made for its slot is still empty. -/
theorem Extends.own_entry (h : a.allocate.Extends b) :
    b.catalog.arena[a.catalog.arena.size]? = some ∅ := by
  rw [h.entry _ (by simp), catalog_allocate, Catalog.getElem?_create, if_pos rfl]

/-- After the operands of an operator, what the operator writes is all that its relation has. -/
theorem Extends.own_entry_settled (h : a.allocate.Extends b) (source : Option Handle) {t : Schema}
    (ht : t.Distinct) (es : List Diagnostic) :
    (b.settled (a.slots.last + 1) a.catalog.arena.size source ⟨.own t, es⟩).catalog.arena[
      a.catalog.arena.size]? = some t := by
  have hfull : ((b.reportAll es).filled a.catalog.arena.size t).catalog.arena[
      a.catalog.arena.size]? = some t := by
    rw [getElem?_filled, if_pos rfl, (h.reportAll es).own_entry]
    exact congrArg some (Schema.ofAttributes_attributes ht)
  exact hfull

/-- What the operator writes is the schema of its slot. -/
theorem Extends.slotSchema?_settled_own (h : a.allocate.Extends b) (source : Option Handle)
    {t : Schema} (ht : t.Distinct) (es : List Diagnostic) :
    (b.settled (a.slots.last + 1) a.catalog.arena.size source ⟨.own t, es⟩).slotSchema?
      (a.slots.last + 1) = .ok (some t) := by
  unfold slotSchema?
  rw [slots_settled, h.name_eq]
  exact (Catalog.find?_eq_some_iff ..).2
    ⟨_, h.handle?_settled .., h.own_entry_settled source ht es⟩

/-- The operator itself, after its operands. Its slot has to hold the schema of the part `p`, and
from `b` on only the name of that slot and the relation that was made for it may have changed. -/
theorem Infers.cons (h : a.Reads known env) {ps : List Operand} {ds es : List Diagnostic}
    (hab : Infers known env a.allocate b ps ds) (hac : a.Extends c)
    (hdiag : c.diagnostics = a.diagnostics ++ es) (hlast : c.slots.last = b.slots.last)
    {p : Operand} {handle : Handle}
    (hhandle : c.catalog.handle? (a.slots.name (a.slots.last + 1)) = some handle)
    (hschema : c.catalog.arena[handle]? = some (p.infer env).schema)
    (hreach : a.Reachable known handle)
    (hnames : ∀ n, a.slots.last + 1 < n →
      c.catalog.handle? (a.slots.name n) = b.catalog.handle? (a.slots.name n))
    (hentries : ∀ i, i ≠ a.catalog.arena.size → c.catalog.arena[i]? = b.catalog.arena[i]?) :
    Infers known env a c (p :: ps) es := by
  refine ⟨hac, hdiag, ?_, fun i q hq => ?_⟩
  · simp only [hlast, hab.last, slots_allocate, List.length_cons]
    omega
  · cases i with
    | zero =>
      obtain rfl : p = q := by simpa using hq
      exact ⟨handle, hhandle, hschema, hreach⟩
    | succ i =>
      obtain ⟨handle, hh, hs, hr, hne⟩ := hab.slot_of_allocate h (by simpa using hq)
      exact ⟨handle, (hnames _ (by omega)).trans hh, (hentries handle hne).trans hs, hr⟩

/-- After the effect of an operator was put into its slot, the relation of the slot has the schema
that the effect makes of that of the operand, and it is new or that of the operand. -/
theorem Located.settled {ps : List Operand} {ds : List Diagnostic}
    (hab : Infers known env a.allocate b ps ds) {source : Option Handle} {s : Schema}
    (hsource : Located known a.allocate b source s) {e : Effect}
    (hown : ∀ t, e.output = .own t → t.Distinct) :
    (b.settled (a.slots.last + 1) a.catalog.arena.size source e).catalog.arena[
        e.home source a.catalog.arena.size]? = some (e.result s).schema ∧
      (e.home source a.catalog.arena.size = a.catalog.arena.size ∨
        a.allocate.Reachable known (e.home source a.catalog.arena.size)) := by
  obtain ⟨output, es⟩ := e
  have hr := hab.ext.reportAll es
  cases output with
  | own t =>
    -- The attributes are written into the empty relation of the slot.
    exact ⟨hab.ext.own_entry_settled source (hown t rfl) es, .inl rfl⟩
  | shared =>
    cases source with
    | some handle =>
      -- The name of the slot is bound to the relation of the operand, and nothing is written.
      obtain ⟨hentry, hreach⟩ := hsource
      refine ⟨?_, .inr hreach⟩
      rw [← catalog_reportAll b es] at hentry
      exact hentry
    | none =>
      -- There is nothing to share, and the relation of the slot stays empty.
      refine ⟨?_, .inl rfl⟩
      rw [show s = ∅ from hsource]
      exact hr.own_entry

/-- Putting the effect of an operator into its slot after the operands. The part `p` is the query
with that operator. -/
theorem Infers.settle (h : a.Reads known env) {ps : List Operand} {ds : List Diagnostic}
    (hab : Infers known env a.allocate b ps ds) {source : Option Handle} {s : Schema}
    (hsource : Located known a.allocate b source s) {e : Effect}
    (hown : ∀ t, e.output = .own t → t.Distinct) {p : Operand}
    (hp : (p.infer env).schema = (e.result s).schema) :
    Infers known env a (b.settled (a.slots.last + 1) a.catalog.arena.size source e) (p :: ps)
      (ds ++ e.diagnostics) := by
  have hext := a.extends_allocate.trans hab.ext
  obtain ⟨hentry, hreach⟩ := hsource.settled hab hown
  refine hab.cons h (hab.ext.settled source e) ?_ ?_ (hab.ext.handle?_settled source e)
    (hp ▸ hentry) ?_ ?_ ?_
  · rw [diagnostics_settled, hab.diagnostics, diagnostics_allocate, List.append_assoc]
  · rw [slots_settled]
  · rcases hreach with hreach | hreach
    · exact .inl (Nat.le_of_eq hreach.symm)
    · exact h.reachable a.extends_allocate hreach
  · intro n hn
    apply handle?_settled_of_ne
    rw [hext.name_eq, Ne, a.slots.name_inj]
    omega
  · exact fun i hi => getElem?_settled_of_ne hi

/-- The first slot of a stretch holds the relation of its first part. -/
theorem Infers.located {p : Operand} {ps : List Operand} {ds : List Diagnostic}
    (hab : Infers known env a b (p :: ps) ds) :
    Located known a b (b.slotHandle? (a.slots.last + 1)) (p.infer env).schema := by
  obtain ⟨handle, hh, hs, hr⟩ := hab.slot 0 p rfl
  have hslot : b.slotHandle? (a.slots.last + 1) = some handle := by
    unfold slotHandle?
    rw [hab.ext.name_eq]
    exact hh
  rw [hslot]
  exact ⟨hs, hr⟩

/-- The relation of an operand is still there after more slots were taken. -/
theorem Located.extends {source : Option Handle} {s : Schema} (hl : Located known a b source s)
    (hbc : b.Extends c) : Located known a c source s := by
  cases source with
  | none => exact hl
  | some handle =>
    obtain ⟨hs, hr⟩ := hl
    obtain ⟨hlt, -⟩ := Array.getElem?_eq_some_iff.1 hs
    exact ⟨(hbc.entry handle hlt).trans hs, hr⟩

/-- The first slot of a stretch still holds that relation after more slots were taken. -/
theorem Infers.located_extends {p : Operand} {ps : List Operand} {ds : List Diagnostic}
    (hab : Infers known env a b (p :: ps) ds) (hbc : b.Extends c) :
    Located known a c (c.slotHandle? (a.slots.last + 1)) (p.infer env).schema := by
  have hle : a.slots.last + 1 ≤ b.slots.last := by
    rw [hab.last, List.length_cons]; omega
  have hsame : c.slotHandle? (a.slots.last + 1) = b.slotHandle? (a.slots.last + 1) := by
    unfold slotHandle?
    rw [hbc.name_eq, hbc.handle_name hle]
  rw [hsame]
  exact hab.located.extends hbc

/-- The schema of an operand is read without a fault. -/
theorem Located.run_schemaOf {source : Option Handle} {s : Schema}
    (hl : Located known a b source s) : (Analysis.schemaOf source).run b = .ok s b := by
  cases source with
  | none =>
    rw [show s = ∅ from hl]
    exact Analysis.run_schemaOf_none b
  | some handle => exact Analysis.run_schemaOf_some hl.1

end Analyzer

open Analyzer Analysis

variable {known : String → Prop} {env : Environment}

/-- Looking a relation up gives its relation, or reports that there is none. -/
theorem Analysis.infers_lookup {a : Analyzer} (h : a.Reads known env) {name : Lexeme}
    (hk : known name.text) :
    ∃ b source, (lookup name).run a = .ok source b ∧
      Infers known env a b [] ((Operand.relation name).infer env).diagnostics ∧
      Located known a b source ((Operand.relation name).infer env).schema := by
  rw [Operand.infer]
  rcases h.handle_cases hk with ⟨handle, s, hh, hs, henv⟩ | ⟨hh, henv⟩
  · rw [henv]
    exact ⟨a, some handle, run_lookup_bound hh, .refl .., hs, .inr ⟨name.text, hk, hh⟩⟩
  · rw [henv]
    exact ⟨_, none, run_lookup_unbound hh, infers_report .., rfl⟩

mutual

/-- An analysis of a query takes a slot for each of its parts and reports what is inferred. -/
theorem Query.infers_analyze (q : Query) {a : Analyzer} (h : a.Reads known env)
    (hq : ∀ r ∈ q.relations, known r.text) :
    ∃ b, q.analyze.run a = .ok (a.slots.last + 1) b ∧
      Infers known env a b q.parts (q.infer env).diagnostics := by
  cases q with
  | unary op mark operand =>
    rw [Query.relations] at hq
    -- The operand, and then what the operator makes of its schema.
    obtain ⟨b, source, hb, hab, hl⟩ := operand.infers_source (h.extends a.extends_allocate) hq
    have hac := hab.settle h hl (e := op.apply mark (operand.infer env).schema)
      (fun t ht => UnaryOp.distinct_of_own ht) (p := .nested (.unary op mark operand))
      (by rw [← UnaryOp.infer_eq, Operand.infer, Query.infer])
    simp only [Query.parts, Query.infer, UnaryOp.infer_eq, Effect.diagnostics_result]
    refine ⟨_, ?_, hac⟩
    unfold Query.analyze
    rw [run_bind_ok (run_allocate a), run_bind_ok hb, run_bind_ok hl.run_schemaOf,
      run_bind_ok (hab.ext.run_settle ..)]
    rfl
  | binary op mark left right =>
    rw [Query.relations] at hq
    obtain ⟨b, hb, hab⟩ := left.infers_slot (h.extends a.extends_allocate)
      fun r hr => hq r (List.mem_append_left _ hr)
    obtain ⟨c, hc, hbc⟩ := right.infers_slot (h.extends (a.extends_allocate.trans hab.ext))
      fun r hr => hq r (List.mem_append_right _ hr)
    obtain ⟨ps, hps⟩ := left.slotParts_eq_cons
    obtain ⟨ps', hps'⟩ := right.slotParts_eq_cons
    -- The slots of the two operands, read in the state after both of them.
    have hleft : Located known a.allocate c (c.slotHandle? (a.allocate.slots.last + 1))
        (left.infer env).schema := by
      rw [hps] at hab
      exact hab.located_extends hbc.ext
    have hright :
        Located known b c (c.slotHandle? (b.slots.last + 1)) (right.infer env).schema := by
      rw [hps'] at hbc
      exact hbc.located
    -- Both operands are one stretch, after which the operator settles its slot.
    have hboth := hab.append (h.extends a.extends_allocate) hbc
    have had := hboth.settle h hleft
      (e := op.apply mark (left.infer env).schema (right.infer env).schema)
      (fun t ht => BinaryOp.distinct_of_own ht) (p := .nested (.binary op mark left right))
      (by rw [← BinaryOp.infer_eq, Operand.infer, Query.infer])
    simp only [Query.parts, Query.infer, BinaryOp.infer_eq, Effect.diagnostics_result]
    refine ⟨_, ?_, had⟩
    unfold Query.analyze
    rw [run_bind_ok (run_allocate a), run_bind_ok hb, run_bind_ok hc, run_bind_ok (run_get c),
      run_bind_ok hleft.run_schemaOf, run_bind_ok (run_get c), run_bind_ok hright.run_schemaOf,
      run_bind_ok (hboth.ext.run_settle ..)]
    rfl

/-- An analysis of the operand of an operator with one operand gives its relation. -/
theorem Operand.infers_source (o : Operand) {a : Analyzer} (h : a.Reads known env)
    (ho : ∀ r ∈ o.relations, known r.text) :
    ∃ b source, o.source.run a = .ok source b ∧
      Infers known env a b o.sourceParts (o.infer env).diagnostics ∧
      Located known a b source (o.infer env).schema := by
  cases o with
  | relation name =>
    unfold Operand.source
    rw [Operand.sourceParts]
    exact infers_lookup h (ho name (by simp [Operand.relations]))
  | nested q =>
    rw [Operand.relations] at ho
    obtain ⟨b, hb, hab⟩ := q.infers_analyze h ho
    obtain ⟨ps, hps⟩ := q.parts_eq_cons
    refine ⟨b, b.slotHandle? (a.slots.last + 1), ?_, ?_, ?_⟩
    · unfold Operand.source
      rw [run_bind_ok hb]
      rfl
    · rw [Operand.sourceParts, Operand.infer]
      exact hab
    · -- The first of the slots is that of the query itself.
      rw [hps] at hab
      exact hab.located

/-- An analysis of an operand of an operator with two operands takes a slot for each of its parts,
the first one for the operand itself. -/
theorem Operand.infers_slot (o : Operand) {a : Analyzer} (h : a.Reads known env)
    (ho : ∀ r ∈ o.relations, known r.text) :
    ∃ b, o.slot.run a = .ok (a.slots.last + 1) b ∧
      Infers known env a b o.slotParts (o.infer env).diagnostics := by
  cases o with
  | relation name =>
    -- A relation gets a slot like an operator that shares its operand and finds nothing wrong.
    have hk : known name.text := ho name (by simp [Operand.relations])
    obtain ⟨b, source, hb, hab, hl⟩ := infers_lookup (h.extends a.extends_allocate) hk
    have hac := hab.settle h hl (e := ⟨.shared, []⟩) (by simp) (p := .relation name) rfl
    rw [List.append_nil] at hac
    rw [Operand.slotParts]
    refine ⟨_, ?_, hac⟩
    unfold Operand.slot
    rw [run_bind_ok (run_allocate a), run_bind_ok hb]
    cases source <;> rfl
  | nested q =>
    rw [Operand.relations] at ho
    unfold Operand.slot
    rw [Operand.slotParts, Operand.infer]
    exact q.infers_analyze h ho

end

/-- An analysis of queries one after the other takes a slot for each part of each of them. -/
theorem Analysis.infers_queries (qs : List Query) {a : Analyzer} (h : a.Reads known env)
    (hqs : ∀ q ∈ qs, ∀ r ∈ q.relations, known r.text) :
    ∃ b, (Analysis.queries qs).run a = .ok () b ∧
      Infers known env a b (qs.flatMap Query.parts)
        (qs.flatMap fun q => (q.infer env).diagnostics) := by
  induction qs generalizing a with
  | nil => exact ⟨a, rfl, .refl ..⟩
  | cons q qs ih =>
    obtain ⟨b, hb, hab⟩ := q.infers_analyze h (hqs q (List.mem_cons_self ..))
    have haw := hab.append h (infers_write known env b (.answered (a.slots.last + 1)))
    obtain ⟨c, hc, hwc⟩ := ih (h.extends haw.ext) fun q hq => hqs q (List.mem_cons_of_mem _ hq)
    refine ⟨c, ?_, ?_⟩
    · unfold Analysis.queries
      rw [run_bind_ok hb, run_bind_ok (run_modify ..)]
      exact hc
    · simpa using haw.append h hwc

/-- An analysis of a program gives the number of all diagnostics. -/
theorem Analysis.infers_program (qs : List Query) {a : Analyzer} (h : a.Reads known env)
    (hqs : ∀ q ∈ qs, ∀ r ∈ q.relations, known r.text) :
    ∃ b, (Analysis.program qs).run a = .ok b.diagnostics.length b ∧
      Infers known env a b (qs.flatMap Query.parts)
        (qs.flatMap fun q => (q.infer env).diagnostics) := by
  cases qs with
  | nil => exact ⟨_, rfl, infers_write known env a .nothing⟩
  | cons q qs =>
    have h1 := infers_write known env a (.started (q :: qs).length)
    obtain ⟨b, hb, hab⟩ := infers_queries (q :: qs) (h.extends h1.ext) hqs
    have h2 := (h1.append h hab).append h
      (infers_write known env b (.finished b.diagnostics.length))
    refine ⟨_, ?_, by simpa using h2⟩
    unfold Analysis.program
    rw [run_bind_ok (run_modify ..), run_bind_ok hb]
    rfl

/-- Names that can be spelled stand for the schemas that are found under them. -/
theorem Analyzer.reads_of_find? {a : Analyzer} {config : Config}
    (hstem : a.slots.stem = config.stem) (hknown : ∀ name, known name → Spellable name)
    (hfind : ∀ name, known name → a.catalog.find? name = .ok (env name)) : a.Reads known env where
  foreign n := by
    unfold Slots.name
    rw [hstem]
    exact config.not_spellable n
  spellable := hknown
  find := hfind

/-- A catalog without dangling handles gives the schemas of all names that can be spelled. -/
theorem Analyzer.reads_of_inRange {a : Analyzer} {config : Config}
    (hstem : a.slots.stem = config.stem) (hrange : a.catalog.InRange)
    (hknown : ∀ name, known name → Spellable name)
    (henv : ∀ name, known name → env name = a.catalog.schema? name) : a.Reads known env := by
  refine reads_of_find? hstem hknown fun name hk => ?_
  rw [Catalog.find?_eq_schema? hrange, henv name hk]

/-- On a catalog without dangling handles, every name that can be spelled stands for its schema. -/
theorem Analyzer.reads_spellable {a : Analyzer} {config : Config}
    (hstem : a.slots.stem = config.stem) (hrange : a.catalog.InRange) :
    a.Reads Spellable a.catalog.schema? :=
  reads_of_inRange hstem hrange (fun _ hname => hname) fun _ _ => rfl

/-- An analysis of the queries of a text refines inference. On a catalog without dangling handles,
whatever slots it holds already, it adds exactly the diagnostics that are inferred from the schemas
of the relations that the queries refer to, it takes one slot for each part of each query, and it
leaves in that slot the schema that is inferred for the part. -/
theorem Analysis.program_refines_inference (config : Config) {text : String} {qs : List Query}
    (hqs : parseProgram text = .ok qs) {a : Analyzer} (hstem : a.slots.stem = config.stem)
    (hrange : a.catalog.InRange) (env : Environment)
    (henv : ∀ q ∈ qs, ∀ r ∈ q.relations, env r.text = a.catalog.schema? r.text) :
    ∃ b, (Analysis.program qs).run a =
        .ok (a.diagnostics.length + (qs.flatMap fun q => (q.infer env).diagnostics).length) b ∧
      b.diagnostics = a.diagnostics ++ qs.flatMap (fun q => (q.infer env).diagnostics) ∧
      b.slots = ⟨a.slots.stem, a.slots.last + (qs.flatMap Query.parts).length⟩ ∧
      ∀ i p, (qs.flatMap Query.parts)[i]? = some p →
        b.slotSchema? (a.slots.last + 1 + i) = .ok (some (p.infer env).schema) := by
  -- The known names are those that the queries refer to.
  have hreads : a.Reads (fun name => ∃ q ∈ qs, ∃ r ∈ q.relations, r.text = name) env := by
    refine reads_of_inRange hstem hrange ?_ ?_
    · rintro _ ⟨q, hq, r, hr, rfl⟩
      exact parseProgram_spelled hqs q hq r hr
    · rintro _ ⟨q, hq, r, hr, rfl⟩
      exact henv q hq r hr
  obtain ⟨b, hb, hab⟩ := infers_program qs hreads fun q hq r hr => ⟨q, hq, r, hr, rfl⟩
  have hslots : b.slots = ⟨a.slots.stem, a.slots.last + (qs.flatMap Query.parts).length⟩ := by
    rw [← hab.last, ← hab.ext.stem]
  refine ⟨b, ?_, hab.diagnostics, hslots, ?_⟩
  · rw [hb, hab.diagnostics, List.length_append]
  · intro i p hp
    obtain ⟨handle, hh, hs, -⟩ := hab.slot i p hp
    rw [← hab.ext.name_eq] at hh
    exact (Catalog.find?_eq_some_iff ..).2 ⟨handle, hh, hs⟩

set_option maxRecDepth 1000 in
/-- A closure shares the relation `R`, and `S` is unknown. -/
theorem Analysis.refines_inference_closure_minus_unknown :
    ∃ qs b, parseProgram "(closure(R)) minus S" = .ok qs ∧
      (Analysis.program qs).run
        (.start ⟨#[⟨[⟨"a", .int⟩, ⟨"b", .int⟩]⟩], .ofList [("R", 0), ("$slot2", 0)]⟩ .standard) =
          .ok 2 b ∧
      b.diagnostics =
        [⟨.unknownRelation "S", ⟨1, 20⟩⟩, ⟨.arityMismatch .difference, ⟨1, 14⟩⟩] ∧
      b.slots = ⟨"$slot", 3⟩ ∧
      b.slotSchema? 2 = .ok (some ⟨[⟨"a", .int⟩, ⟨"b", .int⟩]⟩) := by
  have hqs : parseProgram "(closure(R)) minus S" = .ok
      [.binary .difference ⟨"minus", ⟨1, 14⟩⟩
        (.nested (.unary .closure ⟨"closure", ⟨1, 2⟩⟩ (.relation ⟨"R", ⟨1, 10⟩⟩)))
        (.relation ⟨"S", ⟨1, 20⟩⟩)] := by rfl
  obtain ⟨b, hrun, hds, hslots, hschema⟩ := program_refines_inference .standard hqs
    (a := .start ⟨#[⟨[⟨"a", .int⟩, ⟨"b", .int⟩]⟩], .ofList [("R", 0), ("$slot2", 0)]⟩ .standard)
    rfl (by decide)
    (fun name => if name = "R" then some ⟨[⟨"a", .int⟩, ⟨"b", .int⟩]⟩ else none) (by decide)
  exact ⟨_, b, hqs, hrun, hds, hslots, hschema 1 _ rfl⟩

end RelAlgebra
