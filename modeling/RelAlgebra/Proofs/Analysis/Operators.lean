import RelAlgebra.Proofs.Analysis.Refinement
import RelAlgebra.Proofs.Query.Algebra

/-!
# Divisions and joins in an analysis

What the slot of a division or of a join holds, and what a division reports, in terms of the schemas
of the operands.

A division is looked at by itself: its operands are analyzed, their schemas are read, and
`Query.analyze_division` says what it does from there on, on any catalog. The laws of joins compare
several queries, in which the same operand is analyzed in different states. They are stated with
`Analyzer.HasSchema`, by which an operand has a schema of its own wherever it stands.
-/

namespace RelAlgebra

open Analyzer Analysis

/-! ## Divisions -/

/-- After its operands, an operator that makes a relation of its own adds its diagnostics and leaves
the relation in its slot. -/
theorem Query.run_binary_own {op : BinaryOp} {mark : Lexeme} {left right : Operand}
    {a b c : Analyzer} {l r : Nat} {L R s : Schema} {ds : List Diagnostic}
    (hleft : left.slot.run a.allocate = .ok l b) (hright : right.slot.run b = .ok r c)
    (hL : c.slotSchema? l = .ok (some L)) (hR : c.slotSchema? r = .ok (some R))
    (heffect : op.apply mark L R = ⟨.own s, ds⟩) :
    ∃ d, (Query.binary op mark left right).analyze.run a = .ok (a.slots.last + 1) d ∧
      d.diagnostics = c.diagnostics ++ ds ∧ d.slotSchema? (a.slots.last + 1) = .ok (some s) := by
  have hext : a.allocate.Extends c :=
    ((left.extends_slot _).of_ok hleft).2.trans ((right.extends_slot _).of_ok hright).2
  have hdistinct : s.Distinct := BinaryOp.distinct_of_own (congrArg Effect.output heffect)
  obtain ⟨hl, hlslot, hlschema⟩ := (Catalog.find?_eq_some_iff ..).1 hL
  obtain ⟨hr, hrslot, hrschema⟩ := (Catalog.find?_eq_some_iff ..).1 hR
  refine ⟨c.settled (a.slots.last + 1) a.catalog.arena.size (some hl) ⟨.own s, ds⟩, ?_,
    diagnostics_settled, ?_⟩
  · -- Both schemas are read in the state after the operands.
    have hsource : c.slotHandle? l = some hl := hlslot
    have hother : c.slotHandle? r = some hr := hrslot
    unfold Query.analyze
    rw [run_bind_ok (run_allocate a), run_bind_ok hleft, run_bind_ok hright,
      run_bind_ok (run_get c), hsource, run_bind_ok (run_schemaOf_some hlschema),
      run_bind_ok (run_get c), hother, run_bind_ok (run_schemaOf_some hrschema), heffect,
      run_bind_ok (hext.run_settle ..)]
    rfl
  · exact hext.slotSchema?_settled_own _ hdistinct ds

/-- What a division does after its operands, whose schemas have no repeated names. Nothing is wrong
with it exactly if the names of the divisor are some but not all of those of the dividend. Then its
slot holds the attributes of the dividend whose names the divisor does not have. There are as many
of them as the dividend has more attributes, so there is one, and joined with the divisor they have
the names of the dividend. Otherwise the division is reported once, and its slot stays empty. -/
theorem Query.analyze_division (mark : Lexeme) {left right : Operand} {a b c : Analyzer} {l r : Nat}
    {L R : Schema} (hleft : left.slot.run a.allocate = .ok l b) (hright : right.slot.run b = .ok r c)
    (hL : c.slotSchema? l = .ok (some L)) (hR : c.slotSchema? r = .ok (some R))
    (hdL : L.Distinct) (hdR : R.Distinct) :
    ∃ d own Q, (Query.binary .division mark left right).analyze.run a =
        .ok (a.slots.last + 1) d ∧
      d.diagnostics = c.diagnostics ++ own ∧
      d.slotSchema? (a.slots.last + 1) = .ok (some Q) ∧
      (own = [] ↔ R.nameSet ⊂ L.nameSet) ∧
      (R.nameSet ⊂ L.nameSet →
        Q.attributes = L.attributes.filter (·.name ∉ R.names) ∧ Q.attributes ≠ [] ∧
        Q.size = L.size - R.size ∧
        ∃ J, BinaryOp.join.apply mark Q R = ⟨.own J, []⟩ ∧ J.nameSet = L.nameSet) ∧
      (¬ R.nameSet ⊂ L.nameSet →
        own = [⟨.invalidDivision mark.text, mark.loc⟩] ∧ Q = ∅) := by
  by_cases h : R.nameSet ⊂ L.nameSet
  · -- The division is valid, and its slot gets the quotient.
    have hdQ := Schema.distinct_quotient hdL R
    have hsize := Schema.size_quotient hdL hdR h.subset
    have heffect : BinaryOp.division.apply mark L R = ⟨.own ⟨L.quotient R⟩, []⟩ := by
      have hQ : Schema.ofAttributes (L.quotient R) = ⟨L.quotient R⟩ :=
        Schema.ofAttributes_attributes hdQ
      rw [BinaryOp.apply, if_pos ((Schema.divisible_iff hdL hdR).2 h), hQ]
    obtain ⟨d, hrun, hdiagnostics, hslot⟩ := run_binary_own hleft hright hL hR heffect
    refine ⟨d, [], ⟨L.quotient R⟩, hrun, hdiagnostics, hslot, iff_of_true rfl h, fun _ => ?_,
      fun hn => absurd h hn⟩
    -- The divisor lacks a name of the dividend, which stays in the quotient.
    have hne : L.quotient R ≠ [] := by
      have hcard := Finset.card_lt_card h
      rw [Schema.card_nameSet hdL, Schema.card_nameSet hdR] at hcard
      have hpos : 0 < Schema.size ⟨L.quotient R⟩ := by omega
      exact List.length_pos_iff.1 hpos
    refine ⟨Schema.quotient_eq L R, hne, hsize, Schema.join ⟨L.quotient R⟩ R, rfl, ?_⟩
    rw [Schema.nameSet_join hdQ hdR, Schema.nameSet_quotient, Finset.sdiff_union_of_subset h.subset]
  · -- The division is invalid.
    have heffect : BinaryOp.division.apply mark L R =
        ⟨.own ∅, [⟨.invalidDivision mark.text, mark.loc⟩]⟩ := by
      rw [BinaryOp.apply, if_neg fun hd => h ((Schema.divisible_iff hdL hdR).1 hd)]
    obtain ⟨d, hrun, hdiagnostics, hslot⟩ := run_binary_own hleft hright hL hR heffect
    exact ⟨d, _, ∅, hrun, hdiagnostics, hslot, iff_of_false (by simp) h, fun hn => absurd hn h,
      fun _ => ⟨rfl, rfl⟩⟩

/-- `R` divided by `S`, where the shared name is of another type, and `S` divided by `R`. -/
theorem Query.analyze_division_both_ways :
    let mark : Lexeme := ⟨"divide", ⟨1, 3⟩⟩
    let R : Operand := .relation ⟨"R", ⟨1, 1⟩⟩
    let S : Operand := .relation ⟨"S", ⟨1, 10⟩⟩
    let a : Analyzer := .start
      ⟨#[⟨[⟨"a", .int⟩, ⟨"b", .text⟩, ⟨"c", .long⟩]⟩, ⟨[⟨"b", .int⟩]⟩],
        .ofList [("R", 0), ("S", 1)]⟩ .standard
    (∃ d, (Query.binary .division mark R S).analyze.run a = .ok 1 d ∧ d.diagnostics = [] ∧
      ∃ Q, d.slotSchema? 1 = .ok (some Q) ∧ Q.attributes = [⟨"a", .int⟩, ⟨"c", .long⟩]) ∧
    ∃ d, (Query.binary .division mark S R).analyze.run a = .ok 1 d ∧
      d.diagnostics = [⟨.invalidDivision "divide", ⟨1, 3⟩⟩] ∧ d.slotSchema? 1 = .ok (some ∅) := by
  intro mark R S a
  constructor
  · obtain ⟨b, hleft, c, hright, hL, hR, hds⟩ : ∃ b, R.slot.run a.allocate = .ok 2 b ∧
        ∃ c, S.slot.run b = .ok 3 c ∧
          c.slotSchema? 2 = .ok (some ⟨[⟨"a", .int⟩, ⟨"b", .text⟩, ⟨"c", .long⟩]⟩) ∧
          c.slotSchema? 3 = .ok (some ⟨[⟨"b", .int⟩]⟩) ∧ c.diagnostics = [] := by
      subst a
      exact ⟨_, rfl, _, rfl, rfl, rfl, rfl⟩
    obtain ⟨d, own, Q, hrun, hown, hslot, hnone, hvalid, -⟩ :=
      analyze_division mark hleft hright hL hR (by decide) (by decide)
    rw [hds, hnone.2 (by decide)] at hown
    exact ⟨d, hrun, hown, Q, hslot, (hvalid (by decide)).1⟩
  · obtain ⟨b, hleft, c, hright, hL, hR, hds⟩ : ∃ b, S.slot.run a.allocate = .ok 2 b ∧
        ∃ c, R.slot.run b = .ok 3 c ∧ c.slotSchema? 2 = .ok (some ⟨[⟨"b", .int⟩]⟩) ∧
          c.slotSchema? 3 = .ok (some ⟨[⟨"a", .int⟩, ⟨"b", .text⟩, ⟨"c", .long⟩]⟩) ∧
          c.diagnostics = [] := by
      subst a
      exact ⟨_, rfl, _, rfl, rfl, rfl, rfl⟩
    obtain ⟨d, own, Q, hrun, hown, hslot, -, -, hinvalid⟩ :=
      analyze_division mark hleft hright hL hR (by decide) (by decide)
    obtain ⟨rfl, rfl⟩ := hinvalid (by decide)
    rw [hds] at hown
    exact ⟨d, hrun, hown, hslot⟩

/-! ## Joins -/

/-- The operand has the schema: its names can be spelled, none of them dangles, and an analysis of
the operand leaves the schema in its slot. -/
structure Analyzer.HasSchema (a : Analyzer) (o : Operand) (s : Schema) : Prop where
  spelled : o.Spelled
  found : ∀ r ∈ o.relations, ∃ t, a.catalog.find? r.text = .ok t
  slot : ∃ b, o.slot.run a = .ok (a.slots.last + 1) b ∧
    b.slotSchema? (a.slots.last + 1) = .ok (some s)

variable (config : Config) {a : Analyzer}

/-- An operand whose names can be spelled and do not dangle has the schema that is inferred for it
from the schemas of its relations, and no other. -/
theorem Analyzer.hasSchema_iff (hstem : a.slots.stem = config.stem) {o : Operand}
    (hspelled : o.Spelled) (hfound : ∀ r ∈ o.relations, ∃ t, a.catalog.find? r.text = .ok t)
    {s : Schema} : a.HasSchema o s ↔ s = (o.infer a.catalog.schema?).schema := by
  have hreads : a.Reads (fun name => ∃ r ∈ o.relations, r.text = name) a.catalog.schema? := by
    refine reads_of_find? hstem ?_ ?_
    · rintro _ ⟨r, hr, rfl⟩
      exact hspelled r hr
    · rintro _ ⟨r, hr, rfl⟩
      obtain ⟨t, ht⟩ := hfound r hr
      exact Catalog.find?_eq_schema?_of_ok ht
  obtain ⟨b, hb, hab⟩ := o.infers_slot hreads fun r hr => ⟨r, hr, rfl⟩
  obtain ⟨ps, hps⟩ := o.slotParts_eq_cons
  -- The slot of the operand is the first one that is taken.
  have hslot : b.slotSchema? (a.slots.last + 1) =
      .ok (some (o.infer a.catalog.schema?).schema) := by
    obtain ⟨handle, hhandle, hschema, -⟩ := hab.slot 0 o (by rw [hps]; rfl)
    rw [← hab.ext.name_eq] at hhandle
    exact (Catalog.find?_eq_some_iff ..).2 ⟨handle, hhandle, hschema⟩
  constructor
  · rintro ⟨-, -, c, hc, hs⟩
    obtain rfl : b = c := by simpa using hb.symm.trans hc
    simpa using hs.symm.trans hslot
  · rintro rfl
    exact ⟨hspelled, hfound, b, hb, hslot⟩

/-- The rules of the operators with two operands, for operands that have schemas. -/
theorem Analyzer.HasSchema.binary (hstem : a.slots.stem = config.stem) {X Y : Operand}
    {x y : Schema} (hX : a.HasSchema X x) (hY : a.HasSchema Y y) (op : BinaryOp) (mark : Lexeme) :
    a.HasSchema (.nested (.binary op mark X Y)) (op.infer mark x y).schema := by
  have hspelled : (Operand.nested (.binary op mark X Y)).Spelled := by
    intro r hr
    rw [Operand.relations, Query.relations] at hr
    exact (List.mem_append.1 hr).elim (hX.spelled r) (hY.spelled r)
  have hfound : ∀ r ∈ (Operand.nested (.binary op mark X Y)).relations,
      ∃ t, a.catalog.find? r.text = .ok t := by
    intro r hr
    rw [Operand.relations, Query.relations] at hr
    exact (List.mem_append.1 hr).elim (hX.found r) (hY.found r)
  rw [hasSchema_iff config hstem hspelled hfound, Operand.infer, Query.infer,
    ← (hasSchema_iff config hstem hX.spelled hX.found).1 hX,
    ← (hasSchema_iff config hstem hY.spelled hY.found).1 hY]

/-- The last operand joins the two others, by a join or by a cross join. -/
inductive Operand.Joins (left right : Operand) : Operand → Prop where
  | join (mark : Lexeme) : Joins left right (.nested (.binary .join mark left right))
  | cross (mark : Lexeme) : Joins left right (.nested (.binary .cross mark left right))

/-- A join and a cross join have the same schema. -/
theorem Analyzer.HasSchema.joined (hstem : a.slots.stem = config.stem) {X Y o : Operand}
    {x y : Schema} (hX : a.HasSchema X x) (hY : a.HasSchema Y y) (h : X.Joins Y o) :
    a.HasSchema o (x.join y) := by
  cases h with
  | join mark => exact hX.binary config hstem hY .join mark
  | cross mark => exact hX.binary config hstem hY .cross mark

/-- The laws of joins, for operands whose schemas have no repeated names. Everywhere a cross join may
stand for a join. It does not matter how three operands are bracketed. An operand joined with itself
or with an operand without attributes keeps its schema. A join of two operands has the names of the
left one and then the other names of the right one, and a shared name has the attribute of the right
one. The names do not depend on the order of the operands, and neither do the attributes if shared
names have the same type in both. -/
theorem Analyzer.joins_algebra (hstem : a.slots.stem = config.stem) {X Y Z : Operand}
    {x y z : Schema} (hX : a.HasSchema X x) (hY : a.HasSchema Y y) (hZ : a.HasSchema Z z)
    (hx : x.Distinct) (hy : y.Distinct) (hz : z.Distinct) :
    (∃ s, (∀ o p, X.Joins Y o → o.Joins Z p → a.HasSchema p s) ∧
      ∀ o p, Y.Joins Z o → X.Joins o p → a.HasSchema p s) ∧
    (∀ o, X.Joins X o → a.HasSchema o x) ∧
    (y = ∅ → ∀ o, X.Joins Y o ∨ Y.Joins X o → a.HasSchema o x) ∧
    ∃ s t, (∀ o, X.Joins Y o → a.HasSchema o s) ∧ (∀ o, Y.Joins X o → a.HasSchema o t) ∧
      s.names = x.names ++ y.names.filter (· ∉ x.names) ∧
      (∀ name ∈ y.names, s.find? name = y.find? name) ∧
      (∀ name ∉ y.names, s.find? name = x.find? name) ∧
      s.nameSet = t.nameSet ∧
      ((∀ p ∈ x.attributes, ∀ q ∈ y.attributes, p.name = q.name → p.type = q.type) →
        s.attributes.toFinset = t.attributes.toFinset) := by
  refine ⟨⟨(x.join y).join z, fun o p ho hp => ?_, fun o p ho hp => ?_⟩, fun o ho => ?_, ?_,
    x.join y, y.join x, fun o => hX.joined config hstem hY, fun o => hY.joined config hstem hX,
    Schema.names_join hx hy, fun name hname => ?_, fun name hname => ?_, ?_,
    Schema.toFinset_join_comm hx hy⟩
  · -- The three operands in both bracketings.
    exact (hX.joined config hstem hY ho).joined config hstem hZ hp
  · rw [Schema.join_assoc hx hy hz]
    exact hX.joined config hstem (hY.joined config hstem hZ ho) hp
  · -- An operand with itself.
    rw [← Schema.join_self hx]
    exact hX.joined config hstem hX ho
  · -- An operand without attributes on either side.
    rintro rfl o (ho | ho)
    · rw [← Schema.join_empty hx]
      exact hX.joined config hstem hY ho
    · rw [← Schema.empty_join hx]
      exact hY.joined config hstem hX ho
  · -- A name of the right operand is found there first.
    obtain ⟨q, hq⟩ := Option.ne_none_iff_exists'.1 fun hnone =>
      Schema.find?_eq_none_iff.1 hnone hname
    rw [Schema.find?_join hx hy, hq, Option.some_or]
  · rw [Schema.find?_join hx hy, Schema.find?_eq_none_iff.2 hname, Option.none_or]
  · rw [Schema.nameSet_join hx hy, Schema.nameSet_join hy hx, Finset.union_comm]

/-- The relations `R` and `S` share the name `b`, whose type differs, and the third operand is a
projection of `S`. -/
theorem Analyzer.joins_algebra_shared :
    let word (text : String) (column : Nat) : Lexeme := ⟨text, ⟨1, column⟩⟩
    let R : Operand := .relation (word "R" 1)
    let S : Operand := .relation (word "S" 8)
    let P : Operand := .nested (.unary (.project [word "c" 24]) (word "project" 16)
      (.relation (word "S" 27)))
    let a : Analyzer := .start
      ⟨#[⟨[⟨"a", .int⟩, ⟨"b", .int⟩]⟩, ⟨[⟨"c", .long⟩, ⟨"b", .text⟩]⟩],
        .ofList [("R", 0), ("S", 1)]⟩ .standard
    (∃ s, a.HasSchema
        (.nested (.binary .cross (word "cross" 10) (.nested (.binary .join (word "join" 3) R S)) P)) s ∧
      a.HasSchema
        (.nested (.binary .join (word "join" 3) R (.nested (.binary .join (word "join" 10) S P)))) s) ∧
    ∃ s, a.HasSchema (.nested (.binary .join (word "join" 3) R S)) s ∧
      s.names = ["a", "b", "c"] ∧ s.find? "b" = some ⟨"b", .text⟩ := by
  intro word R S P a
  have hrange : a.catalog.InRange := by decide
  have hhas {o : Operand} {s : Schema} (hspelled : ∀ r ∈ o.relations, Spellable r.text)
      (hs : s = (o.infer a.catalog.schema?).schema) : a.HasSchema o s :=
    (hasSchema_iff .standard rfl hspelled
      fun r _ => ⟨_, Catalog.find?_eq_schema? hrange r.text⟩).2 hs
  have hR : a.HasSchema R ⟨[⟨"a", .int⟩, ⟨"b", .int⟩]⟩ := hhas (by decide) (by rfl)
  have hS : a.HasSchema S ⟨[⟨"c", .long⟩, ⟨"b", .text⟩]⟩ := hhas (by decide) (by rfl)
  have hP : a.HasSchema P ⟨[⟨"c", .long⟩]⟩ := hhas (by decide) (by rfl)
  obtain ⟨⟨s, hleft, hright⟩, -, -, t, -, ht, -, hnames, hshared, -⟩ :=
    joins_algebra .standard rfl hR hS hP (by decide) (by decide) (by decide)
  exact ⟨⟨s, hleft _ _ (.join _) (.cross _), hright _ _ (.join _) (.join _)⟩, t, ht _ (.join _),
    hnames, hshared "b" (by decide)⟩

end RelAlgebra
