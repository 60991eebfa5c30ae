import Mathlib.Algebra.GroupWithZero.Nat
import RelAlgebra.Proofs.Analysis.Stable

/-!
# The numbers of slots

Slots are numbered without gaps in the order in which a walk enters the parts of a query: an
operator before its operands, and the left operand before the right one. A relation that stands
alone has a slot under an operator with two operands, and none under an operator with one operand.
How many slots a query takes (`Query.size`) depends on its form and on nothing else, so that the
numbers are known before the analysis.

`Analyzer.Numbers` says of a stretch of an analysis which slots were taken in it and in which slots
results were left. The log tells both.
-/

namespace RelAlgebra

mutual

/-- The number of slots that a query takes: one for its operator and those of its operands. -/
def Query.size : Query → Nat
  | .unary _ _ operand => 1 + operand.sourceSize
  | .binary _ _ left right => 1 + left.slotSize + right.slotSize

/-- The number of slots that the operand of an operator with one operand takes. -/
def Operand.sourceSize : Operand → Nat
  | .relation _ => 0
  | .nested query => query.size

/-- The number of slots that an operand of an operator with two operands takes. -/
def Operand.slotSize : Operand → Nat
  | .relation _ => 1
  | .nested query => query.size

end

/-- The slot that was taken, if the record tells of one. -/
def Record.taken? : Record → Option Nat
  | .allocated slot .. => some slot
  | _ => none

/-- The slot that holds the result of a query, if the record tells of one. -/
def Record.answer? : Record → Option Nat
  | .answered slot => some slot
  | _ => none

/-- The slots that hold the results of queries, if the last slot before them is given. -/
def answerSlots (last : Nat) (qs : List Query) : List Nat :=
  (List.range qs.length).map fun i => last + 1 + ((qs.take i).map Query.size).sum

/-- The first result is in the next slot, and the others come after the slots of the first query. -/
theorem answerSlots_cons (last : Nat) (q : Query) (qs : List Query) :
    answerSlots last (q :: qs) = (last + 1) :: answerSlots (last + q.size) qs := by
  unfold answerSlots
  rw [List.length_cons, List.range_succ_eq_map, List.map_cons, List.map_map]
  congr 1
  apply List.map_congr_left
  intro i _
  simp only [Function.comp, List.take_succ_cons, List.map_cons, List.sum_cons]
  omega

namespace Analyzer

/-- The slots that were taken from the state `a` to the state `b`, in this order. -/
def taken (a b : Analyzer) : List Nat := (b.log.drop a.log.length).filterMap Record.taken?

/-- The slots in which results were left from the state `a` to the state `b`, in this order. -/
def answers (a b : Analyzer) : List Nat := (b.log.drop a.log.length).filterMap Record.answer?

/-- From the state `a` to the state `b` the next `count` slots were taken one after the other, and
results were left in the slots `results`. -/
structure Numbers (a b : Analyzer) (count : Nat) (results : List Nat) : Prop where
  last : b.slots.last = a.slots.last + count
  log : a.log <+: b.log
  taken : a.taken b = List.range' (a.slots.last + 1) count
  answers : a.answers b = results

variable {a b c : Analyzer} {m n : Nat} {xs ys : List Nat}

/-- What was written down with the records that follow. -/
theorem numbers_of_log {rs : List Record} (hlog : b.log = a.log ++ rs)
    (hlast : b.slots.last = a.slots.last + m)
    (htaken : rs.filterMap Record.taken? = List.range' (a.slots.last + 1) m)
    (hanswers : rs.filterMap Record.answer? = xs) : a.Numbers b m xs where
  last := hlast
  log := hlog ▸ List.prefix_append ..
  taken := by rw [Analyzer.taken, hlog, List.drop_left, htaken]
  answers := by rw [Analyzer.answers, hlog, List.drop_left, hanswers]

/-- A state that stays as it is takes no slots. -/
theorem Numbers.refl (a : Analyzer) : a.Numbers a 0 [] :=
  numbers_of_log (List.append_nil _).symm rfl rfl rfl

/-- One stretch after the other. -/
theorem Numbers.trans (hab : a.Numbers b m xs) (hbc : b.Numbers c n ys) :
    a.Numbers c (m + n) (xs ++ ys) := by
  obtain ⟨rs, hrs⟩ := hab.log
  obtain ⟨rs', hrs'⟩ := hbc.log
  have hrs₁ : b.log.drop a.log.length = rs := by rw [← hrs, List.drop_left]
  have hrs₂ : c.log.drop b.log.length = rs' := by rw [← hrs', List.drop_left]
  have hlog : c.log = a.log ++ (rs ++ rs') := by rw [← List.append_assoc, hrs, hrs']
  refine numbers_of_log hlog ?_ ?_ ?_
  · rw [hbc.last, hab.last, Nat.add_assoc]
  · -- The slots of the second stretch are counted on from those of the first.
    have h1 := hab.taken
    have h2 := hbc.taken
    rw [Analyzer.taken, hrs₁] at h1
    rw [Analyzer.taken, hrs₂, hab.last] at h2
    rw [List.filterMap_append, h1, h2, ← List.range'_append_1, Nat.add_right_comm]
  · have h1 := hab.answers
    have h2 := hbc.answers
    rw [Analyzer.answers, hrs₁] at h1
    rw [Analyzer.answers, hrs₂] at h2
    rw [List.filterMap_append, h1, h2]

/-- A slot is taken. -/
theorem numbers_allocate (a : Analyzer) : a.Numbers a.allocate 1 [] :=
  numbers_of_log (log_allocate a) rfl rfl rfl

/-- A record is written that tells of no slot that was taken. -/
theorem numbers_of_record (r : Record) (hr : r.taken? = none) (hlog : b.log = a.log ++ [r])
    (hslots : b.slots = a.slots) : a.Numbers b 0 r.answer?.toList := by
  refine numbers_of_log hlog (by rw [hslots, Nat.add_zero]) ?_ ?_
  · rw [List.filterMap_cons_none hr]
    rfl
  · cases h : r.answer? with
    | none => rw [List.filterMap_cons_none h]; rfl
    | some slot => rw [List.filterMap_cons_some h]; rfl

/-- Putting an effect into a slot takes no slot. -/
theorem numbers_settled (a : Analyzer) (slot : Nat) (own : Handle) (source : Option Handle)
    (e : Effect) : a.Numbers (a.settled slot own source e) 0 [] := by
  obtain ⟨rs, hlog, hrs⟩ := a.log_settled slot own source e
  refine numbers_of_log hlog (by simp) ?_ ?_
  · refine List.filterMap_eq_nil_iff.2 fun r hr => ?_
    rcases hrs r hr with ⟨d, rfl⟩ | ⟨handle, rfl⟩ <;> rfl
  · refine List.filterMap_eq_nil_iff.2 fun r hr => ?_
    rcases hrs r hr with ⟨d, rfl⟩ | ⟨handle, rfl⟩ <;> rfl

/-- The slots that were taken start the given number of slots. -/
theorem Numbers.taken_le (h : a.Numbers b m xs) (hle : m ≤ n) :
    a.taken b <+: List.range' (a.slots.last + 1) n := by
  obtain ⟨k, rfl⟩ := Nat.exists_eq_add_of_le hle
  rw [h.taken, ← List.range'_append_1]
  exact List.prefix_append ..

end Analyzer

open Analyzer Analysis

/-- Looking a relation up takes no slot. -/
theorem Analysis.numbers_lookup (name : Lexeme) (a : Analyzer) :
    (lookup name).Ends a (fun _ b => a.Numbers b 0 []) (fun _ _ => False) := by
  cases h : a.catalog.handle? name.text with
  | some handle => exact .of_run (run_lookup_bound h) (.refl a)
  | none => exact .of_run (run_lookup_unbound h) (numbers_of_record (.reported _) rfl rfl rfl)

mutual

/-- The slot of a query is the next one, and the query takes as many slots as it has parts with a
slot. If a dangling handle stops the walk, it has taken some of them. -/
theorem Query.numbers_analyze (q : Query) (a : Analyzer) :
    q.analyze.Ends a (fun slot b => slot = a.slots.last + 1 ∧ a.Numbers b q.size [])
      (fun _ b => ∃ n, 0 < n ∧ n ≤ q.size ∧ a.Numbers b n []) := by
  have hfirst := a.numbers_allocate
  cases q with
  | unary op mark operand =>
    rw [Query.size]
    unfold Query.analyze
    refine .step (run_allocate a) ?_
    refine .bind (((operand.numbers_source a.allocate).and (operand.extends_source _)).mono
      (fun _ _ h => h) ?_) fun source b hb => ?_
    · rintro _ b ⟨⟨n, hn, hb⟩, -⟩
      exact ⟨1 + n, by omega, by omega, hfirst.trans hb⟩
    obtain ⟨hb, hext⟩ := hb
    have hab := hfirst.trans hb
    refine .bind ((ends_schemaOf source b).mono (fun _ _ h => h) ?_) ?_
    · rintro _ _ rfl
      exact ⟨_, by omega, Nat.le_refl _, hab⟩
    · rintro s _ rfl
      exact .step (hext.run_settle ..) (.of_run rfl ⟨rfl, hab.trans (b.numbers_settled ..)⟩)
  | binary op mark left right =>
    rw [Query.size]
    unfold Query.analyze
    refine .step (run_allocate a) ?_
    refine .bind (((left.numbers_slot a.allocate).and (left.extends_slot _)).mono
      (fun _ _ h => h) ?_) fun l b hb => ?_
    · rintro _ b ⟨⟨n, -, hn, hb⟩, -⟩
      exact ⟨1 + n, by omega, by omega, hfirst.trans hb⟩
    obtain ⟨⟨-, hb⟩, -, hext⟩ := hb
    have hab := hfirst.trans hb
    refine .bind (((right.numbers_slot b).and (right.extends_slot _)).mono
      (fun _ _ h => h) ?_) fun r c hc => ?_
    · rintro _ c ⟨⟨n, -, hn, hc⟩, -⟩
      exact ⟨1 + left.slotSize + n, by omega, by omega, hab.trans hc⟩
    obtain ⟨⟨-, hc⟩, -, hext'⟩ := hc
    have hac := hab.trans hc
    -- Both schemas are read in the state after the operands, when all slots are taken.
    refine .step (run_get c) (.bind ((ends_schemaOf _ c).mono (fun _ _ h => h) ?_) ?_)
    · rintro _ _ rfl
      exact ⟨_, by omega, Nat.le_refl _, hac⟩
    · rintro s _ rfl
      refine .step (run_get c) (.bind ((ends_schemaOf _ c).mono (fun _ _ h => h) ?_) ?_)
      · rintro _ _ rfl
        exact ⟨_, by omega, Nat.le_refl _, hac⟩
      · rintro t _ rfl
        exact .step ((hext.trans hext').run_settle ..)
          (.of_run rfl ⟨rfl, hac.trans (c.numbers_settled ..)⟩)

/-- The operand of an operator with one operand takes slots only if it is a query. -/
theorem Operand.numbers_source (o : Operand) (a : Analyzer) :
    o.source.Ends a (fun _ b => a.Numbers b o.sourceSize [])
      (fun _ b => ∃ n, n ≤ o.sourceSize ∧ a.Numbers b n []) := by
  cases o with
  | relation name =>
    unfold Operand.source
    rw [Operand.sourceSize]
    exact (numbers_lookup name a).mono (fun _ _ h => h) (fun _ _ h => h.elim)
  | nested q =>
    unfold Operand.source
    rw [Operand.sourceSize]
    refine .bind ((q.numbers_analyze a).mono (fun _ _ h => h.2) ?_) fun slot b hb => .of_run rfl hb
    rintro _ b ⟨n, -, hn, hb⟩
    exact ⟨n, hn, hb⟩

/-- An operand of an operator with two operands takes the next slot, also if it is a relation. -/
theorem Operand.numbers_slot (o : Operand) (a : Analyzer) :
    o.slot.Ends a (fun slot b => slot = a.slots.last + 1 ∧ a.Numbers b o.slotSize [])
      (fun _ b => ∃ n, 0 < n ∧ n ≤ o.slotSize ∧ a.Numbers b n []) := by
  cases o with
  | relation name =>
    unfold Operand.slot
    rw [Operand.slotSize]
    refine .step (run_allocate a) ?_
    refine .bind ((numbers_lookup name a.allocate).mono (fun _ _ h => h) (fun _ _ h => h.elim))
      fun source b hb => ?_
    have hab := a.numbers_allocate.trans hb
    cases source with
    | some handle =>
      have hshare : b.Numbers (b.share (a.slots.last + 1) handle) 0 [] :=
        numbers_of_record (.aliased (a.slots.last + 1) handle) rfl rfl rfl
      exact .step rfl (.of_run rfl ⟨rfl, hab.trans hshare⟩)
    | none => exact .step rfl (.of_run rfl ⟨rfl, hab⟩)
  | nested q =>
    unfold Operand.slot
    rw [Operand.slotSize]
    exact q.numbers_analyze a

end

/-- An operator with two operands is done only after both operands were, one after the other. -/
theorem Query.ends_operands (op : BinaryOp) (mark : Lexeme) (left right : Operand) (a : Analyzer) :
    (Query.binary op mark left right).analyze.Ends a
      (fun _ _ => ∃ l b r c, left.slot.run a.allocate = .ok l b ∧ right.slot.run b = .ok r c)
      (fun _ _ => True) := by
  unfold Query.analyze
  refine .step (run_allocate a) ?_
  refine .bind_any (ends_run left.slot a.allocate) fun l b hl => ?_
  refine .bind_any (ends_run right.slot b) fun r c hr => ?_
  exact (ends_run _ c).mono (fun _ _ _ => ⟨l, b, r, c, hl, hr⟩) fun _ _ _ => trivial

/-- An operator with two operands takes its own slot first, then come the slots of the left operand
and then those of the right one. -/
theorem Query.taken_binary {op : BinaryOp} {mark : Lexeme} {left right : Operand} {a d : Analyzer}
    {slot : Nat} (hd : (Query.binary op mark left right).analyze.run a = .ok slot d) :
    ∃ l b r c, left.slot.run a.allocate = .ok l b ∧ right.slot.run b = .ok r c ∧
      a.taken d = (a.slots.last + 1) :: (a.allocate.taken b ++ b.taken c) ∧
      ∀ i ∈ a.allocate.taken b, ∀ j ∈ b.taken c, i < j := by
  obtain ⟨l, b, r, c, hl, hr⟩ := (Query.ends_operands op mark left right a).of_ok hd
  obtain ⟨-, hb⟩ := (left.numbers_slot a.allocate).of_ok hl
  obtain ⟨-, hc⟩ := (right.numbers_slot b).of_ok hr
  obtain ⟨-, hd⟩ := ((Query.binary op mark left right).numbers_analyze a).of_ok hd
  rw [Query.size] at hd
  have hfirst : a.allocate.slots.last = a.slots.last + 1 := rfl
  refine ⟨l, b, r, c, hl, hr, ?_, ?_⟩
  · -- Both sides count on from the slot of the operator.
    rw [hd.taken, hb.taken, hc.taken, hb.last, hfirst,
      Nat.add_right_comm _ left.slotSize 1,
      List.range'_append_1, ← List.range'_succ, Nat.add_assoc, Nat.add_comm 1]
  · intro i hi j hj
    rw [hb.taken, List.mem_range'_1] at hi
    rw [hc.taken, hb.last, List.mem_range'_1] at hj
    omega

/-- Queries take their slots one after the other, and their results are where `answerSlots` says. If
a dangling handle stops the walk, there are the slots and the results up to then. -/
theorem Analysis.numbers_queries (qs : List Query) (a : Analyzer) :
    (Analysis.queries qs).Ends a
      (fun _ b => a.Numbers b (qs.map Query.size).sum (answerSlots a.slots.last qs))
      (fun _ b => ∃ n xs, n ≤ (qs.map Query.size).sum ∧ xs <+: answerSlots a.slots.last qs ∧
        a.Numbers b n xs) := by
  induction qs generalizing a with
  | nil => exact .of_run rfl (.refl a)
  | cons q qs ih =>
    rw [List.map_cons, List.sum_cons, answerSlots_cons]
    unfold Analysis.queries
    refine .bind ((q.numbers_analyze a).mono (fun _ _ h => h) ?_) ?_
    · rintro _ b ⟨n, -, hn, hb⟩
      exact ⟨n, [], by omega, List.nil_prefix, hb⟩
    · rintro _ b ⟨rfl, hb⟩
      -- The result is written down, and the next query starts after the slots of this one.
      have hwrite : b.Numbers (b.write (.answered (a.slots.last + 1))) 0 [a.slots.last + 1] :=
        numbers_of_record (.answered (a.slots.last + 1)) rfl rfl rfl
      have hc := hb.trans hwrite
      have hlast : (b.write (.answered (a.slots.last + 1))).slots.last = a.slots.last + q.size :=
        hb.last
      refine .step rfl ((ih _).mono ?_ ?_)
      · intro _ d hd
        rw [hlast] at hd
        exact hc.trans hd
      · rintro _ d ⟨n, xs, hn, hxs, hd⟩
        rw [hlast] at hxs
        exact ⟨_, _, by omega, (List.prefix_append_right_inj _).2 hxs, hc.trans hd⟩

/-- So do the queries of a program. -/
theorem Analysis.numbers_program (qs : List Query) (a : Analyzer) :
    (Analysis.program qs).Ends a
      (fun _ b => a.Numbers b (qs.map Query.size).sum (answerSlots a.slots.last qs))
      (fun _ b => ∃ n xs, n ≤ (qs.map Query.size).sum ∧ xs <+: answerSlots a.slots.last qs ∧
        a.Numbers b n xs) := by
  cases qs with
  | nil => exact .of_run rfl (numbers_of_record .nothing rfl rfl rfl)
  | cons q qs =>
    unfold Analysis.program
    have hfirst : a.Numbers (a.write (.started (q :: qs).length)) 0 [] :=
      numbers_of_record (.started (q :: qs).length) rfl rfl rfl
    refine .step rfl (.bind ((numbers_queries (q :: qs) _).mono (fun _ _ h => h) ?_) ?_)
    · rintro _ b ⟨n, xs, hn, hxs, hb⟩
      exact ⟨_, _, by omega, hxs, hfirst.trans hb⟩
    · intro _ b hb
      have hlast : b.Numbers (b.write (.finished b.diagnostics.length)) 0 [] :=
        numbers_of_record (.finished b.diagnostics.length) rfl rfl rfl
      have hall := (hfirst.trans hb).trans hlast
      rw [Nat.zero_add, Nat.add_zero, List.nil_append, List.append_nil] at hall
      exact .step rfl (.of_run rfl hall)

/-- After an analysis of texts, the slots that are there are those with a number from one to the
last one. -/
theorem slotSchema?_analyze {config : Config} {declarations program : String} {a : Analyzer}
    (h : analyze config declarations program = .ok a) (k : Nat) :
    ∃ o, a.slotSchema? k = .ok o ∧ (o.isSome = true ↔ 1 ≤ k ∧ k ≤ a.slots.last) := by
  obtain ⟨catalog, qs, n, hcatalog, -, hrun⟩ := analyze_eq_ok h
  have hnamed := Catalog.wellNamed_ofText hcatalog
  have hext := (extends_program qs (start catalog config)).of_ok hrun
  have hrange := (stable_program Catalog.stable_inRange qs (a := start catalog config)
    hnamed.inRange).of_ok hrun
  have hname : a.slots.name k = config.stem ++ toString k := hext.name_eq k
  unfold slotSchema?
  rw [hname]
  by_cases hk : 1 ≤ k ∧ k ≤ a.slots.last
  · -- The slot was taken in the analysis, so its name is bound, and no handle dangles.
    obtain ⟨handle, hhandle⟩ := Option.isSome_iff_exists.1 (hext.bound k hk.1 hk.2)
    have hlt := (Catalog.inRange_iff _).1 hrange _ _ hhandle
    exact ⟨_, (Catalog.find?_eq_some_iff ..).2 ⟨handle, hhandle, Array.getElem?_eq_getElem hlt⟩,
      by simp [hk]⟩
  · -- The name is that of no slot, and the text of declarations cannot spell it.
    have hsame : a.catalog.handle? (config.stem ++ toString k) =
        catalog.handle? (config.stem ++ toString k) := by
      refine hext.handle _ fun n hn hn' heq => hk ?_
      obtain rfl : k = n := (start catalog config).slots.name_inj.1 heq
      exact ⟨hn, hn'⟩
    have hnone : catalog.handle? (config.stem ++ toString k) = none := by
      cases hcase : catalog.handle? (config.stem ++ toString k) with
      | none => rfl
      | some handle =>
        exact absurd (hnamed.spellable _ _ hcase) (config.not_spellable k)
    exact ⟨none, (Catalog.find?_eq_none_iff ..).2 (hsame.trans hnone), by simp [hk]⟩

/-- Slots are numbered without gaps, an operator before its operands and the left operand before the
right one.

In every state the slot of a query is the next one, and the query takes `Query.size` slots in a row,
whatever is wrong with it. Only a dangling handle can stop it early, and then the slots up to there
are the same. The slots of the left operand of an operator come before those of the right operand.
The result of each query of a program is in the slot after those of the queries before it. And after
an analysis of texts there is a relation for each slot from one to the last one, and for no other
number. -/
theorem slots_in_preorder :
    (∀ (q : Query) (a : Analyzer),
      q.analyze.Ends a
        (fun slot b => slot = a.slots.last + 1 ∧ b.slots.last = a.slots.last + q.size ∧
          a.taken b = List.range' (a.slots.last + 1) q.size)
        (fun _ b => a.taken b <+: List.range' (a.slots.last + 1) q.size) ∧
      (a.catalog.InRange → ∃ slot b, q.analyze.run a = .ok slot b)) ∧
    (∀ (op : BinaryOp) (mark : Lexeme) (left right : Operand) (a d : Analyzer) (slot : Nat),
      (Query.binary op mark left right).analyze.run a = .ok slot d →
      ∃ l b r c, left.slot.run a.allocate = .ok l b ∧ right.slot.run b = .ok r c ∧
        a.taken d = (a.slots.last + 1) :: (a.allocate.taken b ++ b.taken c) ∧
        ∀ i ∈ a.allocate.taken b, ∀ j ∈ b.taken c, i < j) ∧
    (∀ (qs : List Query) (a : Analyzer),
      (Analysis.program qs).Ends a
        (fun _ b => b.slots.last = a.slots.last + (qs.map Query.size).sum ∧
          a.answers b = (List.range qs.length).map fun i =>
            a.slots.last + 1 + ((qs.take i).map Query.size).sum)
        (fun _ b => a.answers b <+: (List.range qs.length).map fun i =>
            a.slots.last + 1 + ((qs.take i).map Query.size).sum) ∧
      (a.catalog.InRange → ∃ n b, (Analysis.program qs).run a = .ok n b)) ∧
    ∀ (config : Config) (declarations program : String) (a : Analyzer),
      analyze config declarations program = .ok a →
      ∀ k, ∃ o, a.slotSchema? k = .ok o ∧ (o.isSome = true ↔ 1 ≤ k ∧ k ≤ a.slots.last) := by
  refine ⟨fun q a => ⟨?_, fun h => ?_⟩, fun op mark left right a d slot => Query.taken_binary,
    fun qs a => ⟨?_, fun h => ?_⟩, fun _ _ _ _ => slotSchema?_analyze⟩
  · -- One query, in any state.
    refine (q.numbers_analyze a).mono (fun _ b h => ⟨h.1, h.2.last, h.2.taken⟩) ?_
    rintro _ b ⟨n, -, hn, hb⟩
    exact hb.taken_le hn
  · obtain ⟨slot, b, hrun, -⟩ := (q.stable_analyze Catalog.stable_inRange h).exists_ok
    exact ⟨slot, b, hrun⟩
  · -- The answers of a program, or as many of them as there are when it is stopped.
    refine (numbers_program qs a).mono (fun _ b h => ⟨h.last, h.answers⟩) ?_
    rintro _ b ⟨n, xs, -, hxs, hb⟩
    rw [hb.answers]
    exact hxs
  · obtain ⟨n, b, hrun, -⟩ := (stable_program Catalog.stable_inRange qs h).exists_ok
    exact ⟨n, b, hrun⟩

set_option maxRecDepth 2000 in
/-- Two queries with four slots, one of them for a relation that stands alone. Both queries have
something wrong: `S` is unknown, and closures want two attributes. -/
theorem slots_in_preorder_union_closure :
    ∃ c q q' a, Catalog.ofText "R.a:int" = .ok c ∧ parseProgram "R ∪ (<<S>>); <<R>>" = .ok [q, q'] ∧
      analyze .standard "R.a:int" "R ∪ (<<S>>); <<R>>" = .ok a ∧ a.diagnostics.length = 4 ∧
      a.slots.last = 4 ∧ (start c .standard).answers a = [1, 4] ∧
      (∃ s, a.slotSchema? 4 = .ok (some s)) ∧ a.slotSchema? 5 = .ok none ∧
      ∃ d, q.analyze.run (start c .standard) = .ok 1 d ∧
        (start c .standard).taken d = [1, 2, 3] := by
  obtain ⟨hquery, -, hprogram, htext⟩ := slots_in_preorder
  have hcatalog : Catalog.ofText "R.a:int" = .ok ⟨#[⟨[⟨"a", .int⟩]⟩], .ofList [("R", 0)]⟩ := by rfl
  have hqs : parseProgram "R ∪ (<<S>>); <<R>>" = .ok
      [.binary .union ⟨"∪", ⟨1, 3⟩⟩ (.relation ⟨"R", ⟨1, 1⟩⟩)
        (.nested (.unary .closure ⟨"<<", ⟨1, 6⟩⟩ (.relation ⟨"S", ⟨1, 8⟩⟩))),
       .unary .closure ⟨"<<", ⟨1, 14⟩⟩ (.relation ⟨"R", ⟨1, 16⟩⟩)] := by rfl
  obtain ⟨a, ha, hds⟩ : ∃ a, analyze .standard "R.a:int" "R ∪ (<<S>>); <<R>>" = .ok a ∧
      a.diagnostics.length = 4 := by
    unfold analyze
    rw [hcatalog, hqs]
    exact ⟨_, rfl, rfl⟩
  obtain ⟨c, qs, n, hc, hqs', hrun⟩ := analyze_eq_ok ha
  obtain rfl := Except.ok.inj (hcatalog.symm.trans hc)
  obtain rfl := Except.ok.inj (hqs.symm.trans hqs')
  obtain ⟨hlast, hanswers⟩ := (hprogram _ _).1.of_ok hrun
  obtain ⟨o, ho, hsome⟩ := htext _ _ _ _ ha 4
  obtain ⟨o', ho', hnone⟩ := htext _ _ _ _ ha 5
  obtain ⟨s, rfl⟩ := Option.isSome_iff_exists.1 (hsome.2 (by rw [hlast]; decide))
  obtain rfl : o' = none := by
    rw [hlast] at hnone
    exact Option.not_isSome_iff_eq_none.1 fun h => absurd (hnone.1 h).2 (by decide)
  obtain ⟨slot, d, hd⟩ := (hquery (.binary .union ⟨"∪", ⟨1, 3⟩⟩ (.relation ⟨"R", ⟨1, 1⟩⟩)
    (.nested (.unary .closure ⟨"<<", ⟨1, 6⟩⟩ (.relation ⟨"S", ⟨1, 8⟩⟩))))
    (start _ .standard)).2 (Catalog.wellNamed_ofText hc).inRange
  obtain ⟨rfl, -, htaken⟩ := (hquery _ _).1.of_ok hd
  exact ⟨_, _, _, a, hc, hqs, ha, hds, hlast, hanswers, ⟨s, ho⟩, ho', d, hd, htaken⟩

end RelAlgebra
