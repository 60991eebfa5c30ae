import Mathlib.Data.List.Basic
import RelAlgebra.Proofs.Analysis.Inference
import RelAlgebra.Proofs.Analysis.Numbering
import RelAlgebra.Proofs.Grammar.Names

/-!
# When an analysis meets a dangling handle

A catalog that was read from outside may bind names to handles beyond its arena. An analysis makes
the arena longer, so that a handle which dangles at first may lie inside the arena when it is read.
An operator reads the relations that are its operands after all slots of its operands were taken;
the relations of other operands have been read by then. So the reads of a query, each with the
number of slots that were taken before it, are known before the analysis (`Query.reads`), and so is
the first one of them that dangles (`firstDangling`). `Analysis.ends_program_reads` says that this
is the fault that the analysis ends with.
-/

namespace RelAlgebra

/-- A read of the relation behind a name, after so many slots were taken. -/
structure Read where
  name : String
  taken : Nat
  deriving DecidableEq, Repr

/-- The fault of a read in an analysis that started on the catalog `c`, if the name is bound to a
handle that still dangles. -/
def Read.dangling? (c : Catalog) (r : Read) : Option Dangling :=
  match c.handle? r.name with
  | some handle =>
    if c.arena.size + r.taken ≤ handle then some ⟨c.arena.size + r.taken, handle⟩ else none
  | none => none

/-- The fault of the first of the reads that dangles. -/
def firstDangling (c : Catalog) (rs : List Read) : Option Dangling := rs.findSome? (·.dangling? c)

/-- The read of an operand by its operator: a relation is read, and a query was read before. -/
def Operand.ownReads (taken : Nat) : Operand → List Read
  | .relation name => [⟨name.text, taken⟩]
  | .nested _ => []

mutual

/-- The reads of a query, in their order, if `taken` slots were taken before it. -/
def Query.reads (taken : Nat) : Query → List Read
  | .unary _ _ operand => operand.innerReads (taken + 1) ++ operand.ownReads (taken + 1)
  | .binary op mark left right =>
    left.innerReads (taken + 1) ++ right.innerReads (taken + 1 + left.slotSize) ++
      (left.ownReads (taken + (Query.binary op mark left right).size) ++
        right.ownReads (taken + (Query.binary op mark left right).size))

/-- The reads inside of an operand. -/
def Operand.innerReads (taken : Nat) : Operand → List Read
  | .relation _ => []
  | .nested query => query.reads taken

end

/-- The reads of queries one after the other. -/
def readsOf (taken : Nat) : List Query → List Read
  | [] => []
  | q :: qs => q.reads taken ++ readsOf (taken + q.size) qs

/-- The first read that dangles is among the earlier ones, if one of them does. -/
theorem firstDangling_append (c : Catalog) (rs rs' : List Read) :
    firstDangling c (rs ++ rs') = (firstDangling c rs).or (firstDangling c rs') :=
  List.findSome?_append

namespace Analyzer

/-- The state comes from the catalog `c` by an analysis that has taken so many slots, whose names no
text can spell. -/
structure Follows (a : Analyzer) (config : Config) (c : Catalog) (taken : Nat) : Prop where
  stem : a.slots.stem = config.stem
  size : a.catalog.arena.size = c.arena.size + taken
  handle : ∀ name, Spellable name → a.catalog.handle? name = c.handle? name

variable {a b : Analyzer} {config : Config} {c : Catalog} {m n : Nat}

/-- A state that extends one which follows the catalog follows it too, after the slots of both. -/
theorem Follows.extends (h : a.Follows config c m) (hab : a.Extends b)
    (hlast : b.slots.last = a.slots.last + n) : b.Follows config c (m + n) where
  stem := hab.stem.trans h.stem
  size := by
    have hsize := hab.size
    have hstart := h.size
    omega
  handle name hname := (hab.handle_of_spellable h.stem hname).trans (h.handle name hname)

/-- Taking a slot counts as one. -/
theorem Follows.allocate (h : a.Follows config c m) : a.allocate.Follows config c (m + 1) :=
  h.extends a.extends_allocate rfl

/-- The relation of a slot that was taken stays what it is. -/
theorem Extends.slotHandle_eq (h : a.Extends b) {slot : Nat} (hslot : slot ≤ a.slots.last) :
    b.slotHandle? slot = a.slotHandle? slot := by
  unfold slotHandle?
  rw [h.name_eq, h.handle_name hslot]

/-- A slot that shares a relation has its handle. -/
theorem slotHandle?_share (a : Analyzer) (slot : Nat) (handle : Handle) :
    (a.share slot handle).slotHandle? slot = some handle :=
  (Catalog.handle?_assign ..).trans (if_pos rfl)

end Analyzer

/-- `source` is what an operand gives its operator: the handle of a bound name, whether it dangles
or not, and otherwise a handle inside the arena or none. -/
def Operand.Gives (c : Catalog) (size : Nat) (source : Option Handle) : Operand → Prop
  | .relation name =>
    match c.handle? name.text with
    | some handle => source = some handle
    | none => ∀ handle ∈ source, handle < size
  | .nested _ => ∀ handle ∈ source, handle < size

open Analyzer Analysis

variable {a b : Analyzer} {config : Config} {c : Catalog} {k : Nat}

/-- A bound name gives its handle. -/
theorem Operand.gives_of_bound {name : Lexeme} {handle : Handle}
    (h : c.handle? name.text = some handle) {size : Nat} {source : Option Handle} :
    (Operand.relation name).Gives c size source ↔ source = some handle := by
  simp only [Operand.Gives, h]

/-- A name that is not bound gives no handle beyond the arena. -/
theorem Operand.gives_of_unbound {name : Lexeme} (h : c.handle? name.text = none) {size : Nat}
    {source : Option Handle} :
    (Operand.relation name).Gives c size source ↔ ∀ handle ∈ source, handle < size := by
  simp only [Operand.Gives, h]

/-- What an operand gives stays good while the arena grows. -/
theorem Operand.Gives.mono {o : Operand} {m n : Nat} {source : Option Handle}
    (h : o.Gives c m source) (hle : m ≤ n) : o.Gives c n source := by
  have hgrow (h : ∀ handle ∈ source, handle < m) : ∀ handle ∈ source, handle < n :=
    fun handle hmem => Nat.lt_of_lt_of_le (h handle hmem) hle
  cases o with
  | relation name =>
    cases hname : c.handle? name.text with
    | some handle => exact (gives_of_bound hname).2 ((gives_of_bound hname).1 h)
    | none => exact (gives_of_unbound hname).2 (hgrow ((gives_of_unbound hname).1 h))
  | nested q => exact hgrow h

/-- The fault of the read of a relation by its operator. -/
theorem Operand.firstDangling_relation (c : Catalog) (name : Lexeme) (k : Nat) :
    firstDangling c ((Operand.relation name).ownReads k) = Read.dangling? c ⟨name.text, k⟩ :=
  List.findSome?_singleton

/-- An operator that reads an operand meets the fault of that read. Without a fault, the handle lies
inside the arena. -/
theorem Operand.Gives.ends_schemaOf {o : Operand} {source : Option Handle}
    (h : o.Gives c b.catalog.arena.size source) (hsize : b.catalog.arena.size = c.arena.size + k) :
    (schemaOf source).Ends b
      (fun _ d => b = d ∧ firstDangling c (o.ownReads k) = none ∧
        ∀ handle ∈ source, handle < b.catalog.arena.size)
      (fun f _ => firstDangling c (o.ownReads k) = some f) := by
  have hgood (hlt : ∀ handle ∈ source, handle < b.catalog.arena.size)
      (hnone : firstDangling c (o.ownReads k) = none) :
      (schemaOf source).Ends b
        (fun _ d => b = d ∧ firstDangling c (o.ownReads k) = none ∧
          ∀ handle ∈ source, handle < b.catalog.arena.size)
        (fun f _ => firstDangling c (o.ownReads k) = some f) :=
    (ends_schemaOf_lt hlt).mono (fun _ _ hd => ⟨hd, hnone, hlt⟩) fun _ _ hf => hf.elim
  cases o with
  | nested q => exact hgood h rfl
  | relation name =>
    have hfirst := firstDangling_relation c name k
    cases hname : c.handle? name.text with
    | none =>
      refine hgood ((gives_of_unbound hname).1 h) (hfirst.trans ?_)
      simp only [Read.dangling?, hname]
    | some handle =>
      obtain rfl := (gives_of_bound hname).1 h
      by_cases hle : c.arena.size + k ≤ handle
      · -- The handle dangles, and the size of the arena is that of the read.
        refine .of_run_error (run_schemaOf_dangling (hsize ▸ hle)) (hfirst.trans ?_)
        simp only [Read.dangling?, hname, if_pos hle, hsize]
      · refine hgood (fun handle' hmem => ?_) (hfirst.trans ?_)
        · obtain rfl : handle = handle' := by simpa using hmem
          exact hsize ▸ Nat.lt_of_not_le hle
        · simp only [Read.dangling?, hname, if_neg hle]

/-- The slot of an operator has a relation inside the arena, if what it may share is. -/
theorem Analyzer.Extends.settled_lt (h : a.allocate.Extends b) {source : Option Handle}
    (hsource : ∀ handle ∈ source, handle < b.catalog.arena.size) (e : Effect) :
    ∀ handle ∈ (b.settled (a.slots.last + 1) a.catalog.arena.size source e).slotHandle?
        (a.slots.last + 1),
      handle < (b.settled (a.slots.last + 1) a.catalog.arena.size source e).catalog.arena.size := by
  rw [slotHandle?_settled source e h.slotHandle_of_allocate, size_settled]
  intro handle hmem
  obtain rfl : e.home source a.catalog.arena.size = handle := by simpa using hmem
  unfold Effect.home
  split
  · exact h.lt_size_of_allocate
  · cases source with
    | some handle => exact hsource handle rfl
    | none => exact h.lt_size_of_allocate

/-- An operand of an operator with two operands takes a slot. -/
theorem Operand.slotSize_pos (o : Operand) : 0 < o.slotSize := by
  cases o with
  | relation name => simp [Operand.slotSize]
  | nested q => cases q <;> simp only [Operand.slotSize, Query.size] <;> omega

/-- How far an operand of an operator with one operand takes the analysis. -/
theorem Operand.follows_source (o : Operand) (ha : a.Follows config c k) :
    o.source.Ends a (fun _ b => a.Extends b ∧ b.Follows config c (k + o.sourceSize))
      (fun _ _ => True) :=
  ((o.extends_source a).and (o.numbers_source a)).mono
    (fun _ _ h => ⟨h.1, ha.extends h.1 h.2.last⟩) fun _ _ _ => trivial

/-- How far an operand of an operator with two operands takes the analysis. Its slot is taken. -/
theorem Operand.follows_slot (o : Operand) (ha : a.Follows config c k) :
    o.slot.Ends a
      (fun slot b => slot ≤ b.slots.last ∧ a.Extends b ∧ b.Follows config c (k + o.slotSize))
      (fun _ _ => True) := by
  refine ((o.extends_slot a).and (o.numbers_slot a)).mono ?_ fun _ _ _ => trivial
  rintro slot b ⟨⟨rfl, hext⟩, -, hnum⟩
  have hpos := o.slotSize_pos
  have hlast := hnum.last
  exact ⟨by omega, hext, ha.extends hext hlast⟩

/-- An operand with slots of its own is a query, which its operator does not read. -/
theorem Operand.firstDangling_source (c : Catalog) (o : Operand) (k : Nat) :
    firstDangling c (o.ownReads k) = firstDangling c (o.ownReads (k + o.sourceSize)) := by
  cases o with
  | relation name => rw [Operand.sourceSize, Nat.add_zero]
  | nested q => rfl

mutual

/-- An analysis of a query ends with the fault of the first of its reads that dangles. Without one,
the slot of the query has a relation inside the arena. -/
theorem Query.ends_reads (q : Query) (hq : ∀ r ∈ q.relations, Spellable r.text) {a : Analyzer}
    {k : Nat} (ha : a.Follows config c k) :
    q.analyze.Ends a
      (fun slot b => firstDangling c (q.reads k) = none ∧
        ∀ handle ∈ b.slotHandle? slot, handle < b.catalog.arena.size)
      (fun f _ => firstDangling c (q.reads k) = some f) := by
  cases q with
  | unary op mark operand =>
    -- The reads inside the operand come first, and then the one of the operator itself.
    rw [Query.relations] at hq
    rw [Query.reads, firstDangling_append]
    unfold Query.analyze
    refine .step (run_allocate a) ?_
    refine .bind (((operand.ends_source_reads hq ha.allocate).and
      (operand.follows_source ha.allocate)).mono (fun _ _ h => h) ?_) fun source b hb => ?_
    · rintro f _ ⟨hf, -⟩
      rw [hf]
      rfl
    obtain ⟨⟨hinner, hgives⟩, hext, hfollows⟩ := hb
    rw [hinner, Option.none_or]
    -- The slots of the operand, if it has any, were taken; its read is that of a relation only.
    refine .bind ((hgives.ends_schemaOf hfollows.size).mono (fun _ _ h => h) ?_) ?_
    · intro f _ hf
      rw [← hf, operand.firstDangling_source]
    · rintro s _ ⟨rfl, hnone, hlt⟩
      refine .step (hext.run_settle ..) (.of_run rfl ⟨?_, hext.settled_lt hlt _⟩)
      rw [← hnone, operand.firstDangling_source]
  | binary op mark left right =>
    -- The reads inside the two operands come first, and then those of the operator, the left one
    -- before the right one.
    rw [Query.relations] at hq
    have hleft := fun r hr => hq r (List.mem_append_left _ hr)
    have hright := fun r hr => hq r (List.mem_append_right _ hr)
    rw [Query.reads, firstDangling_append, firstDangling_append, firstDangling_append, Query.size]
    unfold Query.analyze
    refine .step (run_allocate a) ?_
    refine .bind (((left.ends_slot_reads hleft ha.allocate).and
      (left.follows_slot ha.allocate)).mono (fun _ _ h => h) ?_) fun l b hb => ?_
    · rintro f _ ⟨hf, -⟩
      rw [hf]
      rfl
    obtain ⟨⟨hinner, hgives⟩, hl, hext, hb⟩ := hb
    rw [hinner, Option.none_or]
    refine .bind (((right.ends_slot_reads hright hb).and
      (right.follows_slot hb)).mono (fun _ _ h => h) ?_) fun r d hd => ?_
    · rintro f _ ⟨hf, -⟩
      rw [hf]
      rfl
    obtain ⟨⟨hinner', hgives'⟩, -, hext', hd⟩ := hd
    rw [hinner', Option.none_or]
    -- Both slots are read in the state after the right operand.
    have hsize : d.catalog.arena.size =
        c.arena.size + (k + (1 + left.slotSize + right.slotSize)) := by
      rw [hd.size]; omega
    have hle : b.catalog.arena.size ≤ d.catalog.arena.size := by
      rw [hb.size, hd.size]; omega
    rw [← hext'.slotHandle_eq hl] at hgives
    refine .step (run_get d) ?_
    refine .bind (((hgives.mono hle).ends_schemaOf hsize).mono (fun _ _ h => h) ?_) ?_
    · intro f _ hf
      rw [hf]
      rfl
    · rintro s _ ⟨rfl, hnone, hlt⟩
      rw [hnone, Option.none_or]
      refine .step (run_get d) (.bind ((hgives'.ends_schemaOf hsize).mono (fun _ _ h => h) ?_) ?_)
      · exact fun f _ hf => hf
      · rintro t _ ⟨rfl, hnone', -⟩
        have hall := hext.trans hext'
        exact .step (hall.run_settle ..) (.of_run rfl ⟨hnone', hall.settled_lt hlt _⟩)

/-- So does an analysis of the operand of an operator with one operand, as far as reads inside of it
are concerned. -/
theorem Operand.ends_source_reads (o : Operand) (ho : ∀ r ∈ o.relations, Spellable r.text)
    {a : Analyzer} {k : Nat} (ha : a.Follows config c k) :
    o.source.Ends a
      (fun source b => firstDangling c (o.innerReads k) = none ∧
        o.Gives c b.catalog.arena.size source)
      (fun f _ => firstDangling c (o.innerReads k) = some f) := by
  cases o with
  | relation name =>
    have hname := ha.handle _ (ho name (by simp [Operand.relations]))
    rw [Operand.innerReads]
    unfold Operand.source
    -- The name is looked up and nothing is read yet.
    cases hh : c.handle? name.text with
    | some handle =>
      exact .of_run (run_lookup_bound (hname.trans hh)) ⟨rfl, (Operand.gives_of_bound hh).2 rfl⟩
    | none =>
      exact .of_run (run_lookup_unbound (hname.trans hh))
        ⟨rfl, (Operand.gives_of_unbound hh).2 (by simp)⟩
  | nested q =>
    rw [Operand.relations] at ho
    rw [Operand.innerReads]
    unfold Operand.source
    exact .bind (q.ends_reads ho ha) fun slot b hb => .of_run rfl hb

/-- So does an analysis of an operand of an operator with two operands. -/
theorem Operand.ends_slot_reads (o : Operand) (ho : ∀ r ∈ o.relations, Spellable r.text)
    {a : Analyzer} {k : Nat} (ha : a.Follows config c k) :
    o.slot.Ends a
      (fun slot b => firstDangling c (o.innerReads k) = none ∧
        o.Gives c b.catalog.arena.size (b.slotHandle? slot))
      (fun f _ => firstDangling c (o.innerReads k) = some f) := by
  cases o with
  | relation name =>
    have hname := ha.allocate.handle _ (ho name (by simp [Operand.relations]))
    rw [Operand.innerReads]
    unfold Operand.slot
    refine .step (run_allocate a) ?_
    cases hh : c.handle? name.text with
    | some handle =>
      -- The slot shares the handle of the name, whether it dangles or not.
      refine .step (run_lookup_bound (hname.trans hh)) (.step rfl (.of_run rfl ⟨rfl, ?_⟩))
      exact (Operand.gives_of_bound hh).2 (slotHandle?_share ..)
    | none =>
      -- The slot keeps the empty relation that was made for it.
      refine .step (run_lookup_unbound (hname.trans hh)) (.step rfl (.of_run rfl ⟨rfl, ?_⟩))
      have hext : a.allocate.Extends
          (a.allocate.report ⟨.unknownRelation name.text, name.loc⟩) := extends_of_eq rfl rfl
      rw [Operand.gives_of_unbound hh, hext.slotHandle_of_allocate]
      intro handle hmem
      obtain rfl : a.catalog.arena.size = handle := by simpa using hmem
      exact hext.lt_size_of_allocate
  | nested q =>
    rw [Operand.relations] at ho
    rw [Operand.innerReads]
    unfold Operand.slot
    exact q.ends_reads ho ha

end

/-- An analysis of queries one after the other ends with the fault of the first of their reads that
dangles. -/
theorem Analysis.ends_queries_reads (qs : List Query)
    (hqs : ∀ q ∈ qs, ∀ r ∈ q.relations, Spellable r.text) {a : Analyzer} {k : Nat}
    (ha : a.Follows config c k) :
    (Analysis.queries qs).Ends a (fun _ _ => firstDangling c (readsOf k qs) = none)
      (fun f _ => firstDangling c (readsOf k qs) = some f) := by
  induction qs generalizing a k with
  | nil => exact .of_run rfl rfl
  | cons q qs ih =>
    rw [readsOf, firstDangling_append]
    unfold Analysis.queries
    refine .bind (((q.ends_reads (hqs q (List.mem_cons_self ..)) ha).and
      ((q.extends_analyze a).and (q.numbers_analyze a))).mono (fun _ _ h => h) ?_) ?_
    · rintro f _ ⟨hf, -⟩
      rw [hf]
      rfl
    · rintro slot b ⟨⟨hnone, -⟩, ⟨-, hext⟩, -, hnum⟩
      rw [hnone, Option.none_or]
      have hb : (b.write (.answered slot)).Follows config c (k + q.size) :=
        ha.extends (hext.trans (extends_of_eq rfl rfl)) hnum.last
      exact .step rfl (ih (fun q' hq' => hqs q' (List.mem_cons_of_mem _ hq')) hb)

/-- So does an analysis of a program. -/
theorem Analysis.ends_program_reads (qs : List Query)
    (hqs : ∀ q ∈ qs, ∀ r ∈ q.relations, Spellable r.text) {a : Analyzer}
    (hstem : a.slots.stem = config.stem) :
    (Analysis.program qs).Ends a (fun _ _ => firstDangling a.catalog (readsOf 0 qs) = none)
      (fun f _ => firstDangling a.catalog (readsOf 0 qs) = some f) := by
  cases qs with
  | nil => exact .of_run rfl rfl
  | cons q qs =>
    unfold Analysis.program
    have ha : (a.write (.started (q :: qs).length)).Follows config a.catalog 0 :=
      ⟨hstem, rfl, fun _ _ => rfl⟩
    refine .step rfl (.bind (ends_queries_reads (q :: qs) hqs ha) fun _ b hb => ?_)
    exact .step rfl (.of_run rfl hb)

/-! ## The reads of the parts -/

mutual

/-- A query takes as many slots as it has parts. -/
theorem Query.length_parts (q : Query) : q.parts.length = q.size := by
  cases q with
  | unary op mark operand =>
    rw [Query.parts, Query.size, List.length_cons, operand.length_sourceParts, Nat.add_comm]
  | binary op mark left right =>
    rw [Query.parts, Query.size, List.length_cons, List.length_append, left.length_slotParts,
      right.length_slotParts]
    omega

/-- The operand of an operator with one operand takes as many slots as it has parts. -/
theorem Operand.length_sourceParts (o : Operand) : o.sourceParts.length = o.sourceSize := by
  cases o with
  | relation name => rw [Operand.sourceParts, Operand.sourceSize, List.length_nil]
  | nested q => rw [Operand.sourceParts, Operand.sourceSize, q.length_parts]

/-- So does an operand of an operator with two operands. -/
theorem Operand.length_slotParts (o : Operand) : o.slotParts.length = o.slotSize := by
  cases o with
  | relation name => rw [Operand.slotParts, Operand.slotSize, List.length_singleton]
  | nested q => rw [Operand.slotParts, Operand.slotSize, q.length_parts]

end

/-- The reads of a part whose slot has the given number: the operands that are relations, of an
operator with one operand when the slot was taken, and of an operator with two operands when all
slots of the operator were. -/
def Operand.partReads (slot : Nat) : Operand → List Read
  | .relation _ => []
  | .nested (.unary _ _ operand) => operand.ownReads slot
  | .nested (.binary op mark left right) =>
    left.ownReads (slot + (Query.binary op mark left right).size - 1) ++
      right.ownReads (slot + (Query.binary op mark left right).size - 1)

/-- One of the parts reads so, where the slots of the parts follow one another after `taken`. -/
def ReadBy (parts : List Operand) (taken : Nat) (r : Read) : Prop :=
  ∃ (i : Nat) (p : Operand), parts[i]? = some p ∧ r ∈ p.partReads (taken + 1 + i)

/-- Without parts nothing is read. -/
theorem not_readBy_nil {r : Read} : ¬ ReadBy [] k r := by
  rintro ⟨i, p, hp, -⟩
  simp at hp

/-- The first part reads with the first slot, and the others with the slots after it. -/
theorem readBy_cons {p : Operand} {ps : List Operand} {r : Read} :
    ReadBy (p :: ps) k r ↔ r ∈ p.partReads (k + 1) ∨ ReadBy ps (k + 1) r := by
  constructor
  · rintro ⟨i, q, hq, hr⟩
    cases i with
    | zero =>
      obtain rfl : p = q := by simpa using hq
      exact .inl hr
    | succ i => exact .inr ⟨i, q, by simpa using hq, by rw [Nat.add_right_comm]; exact hr⟩
  · rintro (hr | ⟨i, q, hq, hr⟩)
    · exact ⟨0, p, by simp, hr⟩
    · exact ⟨i + 1, q, by simpa using hq, by rw [Nat.add_right_comm] at hr; exact hr⟩

/-- The slots of later parts are counted on from those of the earlier ones. -/
theorem readBy_append {ps qs : List Operand} {r : Read} :
    ReadBy (ps ++ qs) k r ↔ ReadBy ps k r ∨ ReadBy qs (k + ps.length) r := by
  induction ps generalizing k with
  | nil => simp [not_readBy_nil]
  | cons p ps ih =>
    rw [List.cons_append, readBy_cons, readBy_cons, ih, List.length_cons, or_assoc,
      Nat.add_right_comm k 1, Nat.add_assoc]

mutual

/-- The reads of a query are those of its parts. -/
theorem Query.mem_reads (q : Query) {k : Nat} {r : Read} :
    r ∈ q.reads k ↔ ReadBy q.parts k r := by
  cases q with
  | unary op mark operand =>
    rw [Query.reads, Query.parts, readBy_cons, List.mem_append, operand.mem_innerReads_source,
      Operand.partReads, or_comm]
  | binary op mark left right =>
    have hlast : k + 1 + (Query.binary op mark left right).size - 1 =
        k + (Query.binary op mark left right).size := by omega
    rw [Query.reads, Query.parts, readBy_cons, readBy_append, left.length_slotParts,
      List.mem_append, List.mem_append, left.mem_innerReads_slot, right.mem_innerReads_slot,
      Operand.partReads, hlast, or_comm]

/-- The reads inside the operand of an operator with one operand are those of its parts. -/
theorem Operand.mem_innerReads_source (o : Operand) {k : Nat} {r : Read} :
    r ∈ o.innerReads k ↔ ReadBy o.sourceParts k r := by
  cases o with
  | relation name => simp [Operand.innerReads, Operand.sourceParts, not_readBy_nil]
  | nested q => rw [Operand.innerReads, Operand.sourceParts, q.mem_reads]

/-- So are the reads inside an operand of an operator with two operands. -/
theorem Operand.mem_innerReads_slot (o : Operand) {k : Nat} {r : Read} :
    r ∈ o.innerReads k ↔ ReadBy o.slotParts k r := by
  cases o with
  | relation name =>
    simp [Operand.innerReads, Operand.slotParts, readBy_cons, Operand.partReads, not_readBy_nil]
  | nested q => rw [Operand.innerReads, Operand.slotParts, q.mem_reads]

end

/-- The reads of queries are those of their parts. -/
theorem mem_readsOf {qs : List Query} {r : Read} :
    r ∈ readsOf k qs ↔ ReadBy (qs.flatMap Query.parts) k r := by
  induction qs generalizing k with
  | nil => simp [readsOf, not_readBy_nil]
  | cons q qs ih =>
    rw [readsOf, List.flatMap_cons, readBy_append, List.mem_append, q.mem_reads, q.length_parts, ih]

/-- An operator reads an operand exactly if it is a relation. -/
theorem Operand.mem_ownReads {o : Operand} {r : Read} :
    r ∈ o.ownReads k ↔ ∃ name, o = .relation name ∧ r = ⟨name.text, k⟩ := by
  cases o <;> simp [Operand.ownReads]

/-- What a part reads, by the operator that it is. -/
theorem Operand.mem_partReads {p : Operand} {slot : Nat} {r : Read} :
    r ∈ p.partReads slot ↔
      (∃ op mark name, p = .nested (.unary op mark (.relation name)) ∧ r = ⟨name.text, slot⟩) ∨
      ∃ op mark left right name, p = .nested (.binary op mark left right) ∧
        (left = .relation name ∨ right = .relation name) ∧
        r = ⟨name.text, slot + (Query.binary op mark left right).size - 1⟩ := by
  cases p with
  | relation name => simp [Operand.partReads]
  | nested q =>
    cases q with
    | unary op mark operand =>
      -- The slot of the operator is the last one taken before the read.
      rw [Operand.partReads, Operand.mem_ownReads]
      constructor
      · rintro ⟨name, rfl, hr⟩
        exact .inl ⟨op, mark, name, rfl, hr⟩
      · rintro (⟨_, _, name, ⟨⟩, hr⟩ | ⟨_, _, _, _, _, ⟨⟩, _⟩)
        exact ⟨name, rfl, hr⟩
    | binary op mark left right =>
      -- All slots of the operator and of its operands are taken before the reads.
      rw [Operand.partReads, List.mem_append, Operand.mem_ownReads, Operand.mem_ownReads]
      constructor
      · rintro (⟨name, hleft, hr⟩ | ⟨name, hright, hr⟩)
        · exact .inr ⟨op, mark, left, right, name, rfl, .inl hleft, hr⟩
        · exact .inr ⟨op, mark, left, right, name, rfl, .inr hright, hr⟩
      · rintro (⟨_, _, _, ⟨⟩, _⟩ | ⟨_, _, _, _, name, ⟨⟩, hleft | hright, hr⟩)
        · exact .inl ⟨name, hleft, hr⟩
        · exact .inr ⟨name, hright, hr⟩

/-- A read dangles exactly if its name is bound to a handle beyond the arena at that time. -/
theorem Read.dangling?_ne_none {r : Read} :
    r.dangling? c ≠ none ↔
      ∃ handle, c.handle? r.name = some handle ∧ c.arena.size + r.taken ≤ handle := by
  unfold Read.dangling?
  cases h : c.handle? r.name with
  | none => simp
  | some handle => by_cases hle : c.arena.size + r.taken ≤ handle <;> simp [hle]

mutual

/-- A query reads only relations that it refers to. -/
theorem Query.exists_of_mem_reads (q : Query) {k : Nat} {r : Read} (h : r ∈ q.reads k) :
    ∃ name ∈ q.relations, r.name = name.text := by
  cases q with
  | unary op mark operand =>
    rw [Query.reads, List.mem_append] at h
    rw [Query.relations]
    exact h.elim operand.exists_of_mem_innerReads operand.exists_of_mem_ownReads
  | binary op mark left right =>
    rw [Query.reads, List.mem_append, List.mem_append, List.mem_append] at h
    rw [Query.relations]
    have hl : (∃ name ∈ left.relations, r.name = name.text) →
        ∃ name ∈ left.relations ++ right.relations, r.name = name.text :=
      fun ⟨name, hmem, hr⟩ => ⟨name, List.mem_append_left _ hmem, hr⟩
    have hr : (∃ name ∈ right.relations, r.name = name.text) →
        ∃ name ∈ left.relations ++ right.relations, r.name = name.text :=
      fun ⟨name, hmem, hr⟩ => ⟨name, List.mem_append_right _ hmem, hr⟩
    rcases h with (h | h) | (h | h)
    · exact hl (left.exists_of_mem_innerReads h)
    · exact hr (right.exists_of_mem_innerReads h)
    · exact hl (left.exists_of_mem_ownReads h)
    · exact hr (right.exists_of_mem_ownReads h)

/-- Inside an operand only relations are read that it refers to. -/
theorem Operand.exists_of_mem_innerReads (o : Operand) {k : Nat} {r : Read}
    (h : r ∈ o.innerReads k) : ∃ name ∈ o.relations, r.name = name.text := by
  cases o with
  | relation name => simp [Operand.innerReads] at h
  | nested q =>
    rw [Operand.innerReads] at h
    rw [Operand.relations]
    exact q.exists_of_mem_reads h

/-- The operator reads an operand by the name that it is. -/
theorem Operand.exists_of_mem_ownReads (o : Operand) {k : Nat} {r : Read}
    (h : r ∈ o.ownReads k) : ∃ name ∈ o.relations, r.name = name.text := by
  obtain ⟨name, rfl, rfl⟩ := Operand.mem_ownReads.1 h
  exact ⟨name, by simp [Operand.relations], rfl⟩

end

/-- Queries read only relations that they refer to. -/
theorem exists_of_mem_readsOf {qs : List Query} {r : Read} (h : r ∈ readsOf k qs) :
    ∃ q ∈ qs, ∃ name ∈ q.relations, r.name = name.text := by
  induction qs generalizing k with
  | nil => simp [readsOf] at h
  | cons q qs ih =>
    rw [readsOf, List.mem_append] at h
    rcases h with h | h
    · exact ⟨q, List.mem_cons_self .., q.exists_of_mem_reads h⟩
    · obtain ⟨q', hmem, hr⟩ := ih h
      exact ⟨q', List.mem_cons_of_mem _ hmem, hr⟩

/-- There is a first read that dangles exactly if one of the parts has a read that does. -/
theorem exists_firstDangling_iff {qs : List Query} :
    (∃ f, firstDangling c (readsOf k qs) = some f) ↔
      ∃ (i : Nat) (p : Operand), (qs.flatMap Query.parts)[i]? = some p ∧
        ∃ r ∈ p.partReads (k + 1 + i), ∃ handle, c.handle? r.name = some handle ∧
          c.arena.size + r.taken ≤ handle := by
  rw [← Option.isSome_iff_exists, firstDangling, List.findSome?_isSome_iff]
  constructor
  · rintro ⟨r, hr, hsome⟩
    obtain ⟨i, p, hp, hmem⟩ := mem_readsOf.1 hr
    have hne : r.dangling? c ≠ none := Option.isSome_iff_ne_none.1 hsome
    exact ⟨i, p, hp, r, hmem, Read.dangling?_ne_none.1 hne⟩
  · rintro ⟨i, p, hp, r, hmem, hdangling⟩
    exact ⟨r, mem_readsOf.2 ⟨i, p, hp, hmem⟩,
      Option.isSome_iff_ne_none.2 (Read.dangling?_ne_none.2 hdangling)⟩

/-- Catalogs of the same size that bind the relations of the queries alike have the same fault. -/
theorem firstDangling_congr {c c' : Catalog} {qs : List Query}
    (hsize : c'.arena.size = c.arena.size)
    (hnames : ∀ q ∈ qs, ∀ r ∈ q.relations, c'.handle? r.text = c.handle? r.text) :
    firstDangling c' (readsOf k qs) = firstDangling c (readsOf k qs) := by
  unfold firstDangling
  -- Each read by itself has the same fault in both catalogs.
  rw [← List.head?_filterMap, ← List.head?_filterMap]
  congr 1
  apply List.filterMap_congr
  intro r hr
  obtain ⟨q, hq, name, hname, heq⟩ := exists_of_mem_readsOf hr
  unfold Read.dangling?
  rw [heq, hnames q hq name hname, hsize]

/-- The fault that an analysis of a program ends with, for any catalog.

Let `L` be the size of the arena at the start, and let the slots of the analysis be numbered from
one. The analysis ends with a fault exactly if a relation that is an operand by itself is bound to a
handle that still dangles when it is read: one of at least `L + k` under an operator with one
operand whose slot is `k`, or one of at least `L + k + n - 1` under an operator with two operands
whose slot is `k` and which takes `n` slots with its operands. The fault is that of the first of
these reads, in the order of `readsOf`, and it tells the size of the arena at that time and the
handle. So names that the program does not refer to do not matter, and there is no fault if no
handle dangles at the start. -/
theorem Analysis.program_fault (config : Config) {text : String} {qs : List Query}
    (hqs : parseProgram text = .ok qs) {a : Analyzer} (hstem : a.slots.stem = config.stem) :
    ((∃ f b, (Analysis.program qs).run a = .error f b) ↔
      ∃ i : Nat,
        (∃ op mark name handle,
          (qs.flatMap Query.parts)[i]? = some (.nested (.unary op mark (.relation name))) ∧
          a.catalog.handle? name.text = some handle ∧
          a.catalog.arena.size + (i + 1) ≤ handle) ∨
        ∃ op mark left right name handle,
          (qs.flatMap Query.parts)[i]? = some (.nested (.binary op mark left right)) ∧
          (left = .relation name ∨ right = .relation name) ∧
          a.catalog.handle? name.text = some handle ∧
          a.catalog.arena.size + (i + 1) + (Query.binary op mark left right).size - 1 ≤ handle) ∧
    (∀ f, (∃ b, (Analysis.program qs).run a = .error f b) ↔
      firstDangling a.catalog (readsOf 0 qs) = some f) ∧
    (∀ (config' : Config) (a' : Analyzer), a'.slots.stem = config'.stem →
      a'.catalog.arena.size = a.catalog.arena.size →
      (∀ q ∈ qs, ∀ r ∈ q.relations, a'.catalog.handle? r.text = a.catalog.handle? r.text) →
      ∀ f, (∃ b, (Analysis.program qs).run a' = .error f b) ↔
        ∃ b, (Analysis.program qs).run a = .error f b) ∧
    (a.catalog.InRange → ∃ n b, (Analysis.program qs).run a = .ok n b) := by
  have hspell := parseProgram_spelled hqs
  -- The fault of a run is that of the first read that dangles, on any catalog.
  have hfault (config : Config) (a : Analyzer) (hstem : a.slots.stem = config.stem) (f : Dangling) :
      (∃ b, (Analysis.program qs).run a = .error f b) ↔
        firstDangling a.catalog (readsOf 0 qs) = some f := by
    have hends := ends_program_reads qs hspell hstem
    constructor
    · rintro ⟨b, hb⟩
      exact hends.of_error hb
    · intro hf
      cases hrun : (Analysis.program qs).run a with
      | ok n b =>
        rw [hends.of_ok hrun] at hf
        cases hf
      | error g b =>
        rw [hends.of_error hrun, Option.some.injEq] at hf
        exact ⟨b, by rw [hf]⟩
  refine ⟨?_, hfault config a hstem, ?_, fun h => ?_⟩
  · -- Such a read belongs to a part, whose slot tells how large the arena is by then.
    rw [exists_congr (hfault config a hstem), exists_firstDangling_iff]
    refine exists_congr fun i => ?_
    rw [Nat.zero_add, Nat.add_comm 1]
    constructor
    · rintro ⟨p, hp, r, hr, handle, hname, hle⟩
      rcases Operand.mem_partReads.1 hr with
        ⟨op, mark, name, rfl, rfl⟩ | ⟨op, mark, left, right, name, rfl, hside, rfl⟩
      · exact .inl ⟨op, mark, name, handle, hp, hname, hle⟩
      · refine .inr ⟨op, mark, left, right, name, handle, hp, hside, hname, ?_⟩
        dsimp only at hle
        omega
    · rintro (⟨op, mark, name, handle, hp, hname, hle⟩ |
        ⟨op, mark, left, right, name, handle, hp, hside, hname, hle⟩)
      · refine ⟨_, hp, ⟨name.text, i + 1⟩, ?_, handle, hname, hle⟩
        exact Operand.mem_partReads.2 (.inl ⟨op, mark, name, rfl, rfl⟩)
      · refine ⟨_, hp, ⟨name.text, i + 1 + (Query.binary op mark left right).size - 1⟩, ?_, handle,
          hname, by dsimp only; omega⟩
        exact Operand.mem_partReads.2 (.inr ⟨op, mark, left, right, name, rfl, hside, rfl⟩)
  · -- Only the names that the program refers to are read.
    intro config' a' hstem' hsize hnames f
    rw [hfault config' a' hstem', hfault config a hstem, firstDangling_congr hsize hnames]
  · -- Where all handles lie inside the arena the run goes through.
    obtain ⟨n, b, hrun, -⟩ := (stable_program Catalog.stable_inRange qs h).exists_ok
    exact ⟨n, b, hrun⟩

set_option maxRecDepth 2000 in
/-- `D` is bound to the handle three in a catalog with one relation. The union reads it when the
arena has four relations, and the handle lies inside. The closure, whose slot is the second one,
reads it when the arena has three. -/
theorem Analysis.program_fault_union_closure :
    (∃ qs, parseProgram "D ∪ R" = .ok qs ∧ ¬ ∃ f b, (Analysis.program qs).run
      (start ⟨#[∅], .ofList [("D", 3), ("R", 0), ("X", 9)]⟩ .standard) = .error f b) ∧
    ∃ qs b, parseProgram "(<<D>>) ∪ R" = .ok qs ∧
      (Analysis.program qs).run
        (start ⟨#[∅], .ofList [("D", 3), ("R", 0), ("X", 9)]⟩ .standard) = .error ⟨3, 3⟩ b := by
  have hunion : parseProgram "D ∪ R" = .ok
      [.binary .union ⟨"∪", ⟨1, 3⟩⟩ (.relation ⟨"D", ⟨1, 1⟩⟩) (.relation ⟨"R", ⟨1, 5⟩⟩)] := by rfl
  have hclosure : parseProgram "(<<D>>) ∪ R" = .ok
      [.binary .union ⟨"∪", ⟨1, 9⟩⟩
        (.nested (.unary .closure ⟨"<<", ⟨1, 2⟩⟩ (.relation ⟨"D", ⟨1, 4⟩⟩)))
        (.relation ⟨"R", ⟨1, 11⟩⟩)] := by rfl
  obtain ⟨-, hfirst, -, -⟩ := program_fault .standard hunion
    (a := start ⟨#[∅], .ofList [("D", 3), ("R", 0), ("X", 9)]⟩ .standard) rfl
  obtain ⟨-, hfirst', -, -⟩ := program_fault .standard hclosure
    (a := start ⟨#[∅], .ofList [("D", 3), ("R", 0), ("X", 9)]⟩ .standard) rfl
  obtain ⟨b, hb⟩ := (hfirst' ⟨3, 3⟩).2 (by decide)
  refine ⟨⟨_, hunion, ?_⟩, _, b, hclosure, hb⟩
  rintro ⟨f, d, hd⟩
  exact nomatch (hfirst f).1 ⟨d, hd⟩

end RelAlgebra
