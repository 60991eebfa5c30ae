import RelAlgebra.Proofs.Analysis.Refinement
import RelAlgebra.Proofs.Query.Columns

/-!
# Projections, renamings and selections in an analysis

What the slot of such an operator holds and what it reports, in terms of the schema of its operand.
The operand may be any, and so may the catalog. All that is asked is that the analysis of the operand
is not stopped and that its schema can be read (`Operand.Feeds`). The operator itself cannot fail
then, and leaves a schema in its slot (`Query.Leaves`). Such a query is an operand again, so that
towers of operators come down to one operator at a time.
-/

namespace RelAlgebra

open Analyzer Analysis

/-- An analysis of the operand goes from `a` to `b`, where its schema is read. -/
def Operand.Feeds (o : Operand) (a : Analyzer) (s : Schema) (b : Analyzer) : Prop :=
  ∃ source, o.source.run a = .ok source b ∧ (schemaOf source).run b = .ok s b

/-- An analysis of the query goes from `a` to `b` and leaves the schema in the slot of the query. -/
def Query.Leaves (q : Query) (a : Analyzer) (s : Schema) (b : Analyzer) : Prop :=
  q.analyze.run a = .ok (a.slots.last + 1) b ∧ b.slotSchema? (a.slots.last + 1) = .ok (some s)

variable {o : Operand} {q : Query} {a b : Analyzer} {s t : Schema}

/-- A relation feeds its schema, and nothing is reported. -/
theorem Operand.feeds_relation {name : Lexeme} (h : a.catalog.find? name.text = .ok (some s)) :
    (Operand.relation name).Feeds a s a := by
  obtain ⟨handle, hhandle, hschema⟩ := (Catalog.find?_eq_some_iff ..).1 h
  refine ⟨some handle, ?_, run_schemaOf_some hschema⟩
  unfold Operand.source
  exact run_lookup_bound hhandle

/-- A query feeds what it leaves. -/
theorem Query.Leaves.feeds (h : q.Leaves a s b) : (Operand.nested q).Feeds a s b := by
  obtain ⟨hrun, hslot⟩ := h
  obtain ⟨handle, hhandle, hschema⟩ := (Catalog.find?_eq_some_iff ..).1 hslot
  refine ⟨some handle, ?_, run_schemaOf_some hschema⟩
  have hsource : b.slotHandle? (a.slots.last + 1) = some handle := hhandle
  unfold Operand.source
  rw [run_bind_ok hrun, run_bind_ok (run_get b), hsource]
  rfl

/-- After its operand, an operator that makes a relation of its own adds its diagnostics and leaves
the relation in its slot. -/
theorem Operand.Feeds.leaves (h : o.Feeds a.allocate s b) (op : UnaryOp) (mark : Lexeme)
    {ds : List Diagnostic} (heffect : op.apply mark s = ⟨.own t, ds⟩) :
    ∃ c, (Query.unary op mark o).Leaves a t c ∧ c.diagnostics = b.diagnostics ++ ds := by
  obtain ⟨source, hsource, hschema⟩ := h
  have hext : a.allocate.Extends b := (o.extends_source _).of_ok hsource
  have hdistinct : t.Distinct := UnaryOp.distinct_of_own (congrArg Effect.output heffect)
  refine ⟨b.settled (a.slots.last + 1) a.catalog.arena.size source ⟨.own t, ds⟩, ⟨?_, ?_⟩,
    diagnostics_settled⟩
  · unfold Query.analyze
    rw [run_bind_ok (run_allocate a), run_bind_ok hsource, run_bind_ok hschema, heffect,
      run_bind_ok (hext.run_settle ..)]
    rfl
  · exact hext.slotSchema?_settled_own source hdistinct ds

/-! ## Towers of selections -/

/-- An operand under selections, the innermost of them first. -/
def Operand.selected (o : Operand) : List (Predicate × Lexeme) → Operand
  | [] => o
  | (predicate, mark) :: more =>
    (Operand.nested (.unary (.select predicate) mark o)).selected more

/-- Selections keep a schema without repeated names. -/
theorem Operand.Feeds.selected (hs : s.Distinct) {tower : List (Predicate × Lexeme)}
    (h : o.Feeds (allocate^[tower.length] a) s b) : ∃ c, (o.selected tower).Feeds a s c := by
  induction tower generalizing o b with
  | nil => exact ⟨b, h⟩
  | cons p tower ih =>
    rw [List.length_cons, Function.iterate_succ_apply'] at h
    -- The slot of the innermost selection is the last one that is taken.
    obtain ⟨c, hleaves, -⟩ := h.leaves (.select p.1) p.2 rfl
    rw [Schema.ofAttributes_attributes hs] at hleaves
    exact ih hleaves.feeds

/-- One selection or more turn the schema of the operand into one without repeated names. -/
theorem Operand.Feeds.leaves_selected {tower : List (Predicate × Lexeme)}
    (h : o.Feeds (allocate^[tower.length + 1] a) s b) (predicate : Predicate) (mark : Lexeme) :
    ∃ c, (Query.unary (.select predicate) mark (o.selected tower)).Leaves a
      (.ofAttributes s.attributes) c := by
  cases tower with
  | nil =>
    obtain ⟨c, hleaves, -⟩ := h.leaves (.select predicate) mark rfl
    exact ⟨c, hleaves⟩
  | cons p tower =>
    rw [List.length_cons, Function.iterate_succ_apply'] at h
    obtain ⟨c, hinner, -⟩ := h.leaves (.select p.1) p.2 rfl
    have hdistinct : (Schema.ofAttributes s.attributes).Distinct := Schema.distinct_ofAttributes _
    rw [Function.iterate_succ_apply] at hinner
    obtain ⟨d, htower⟩ := hinner.feeds.selected hdistinct
    obtain ⟨e, houter, -⟩ := htower.leaves (.select predicate) mark rfl
    rw [Schema.ofAttributes_attributes hdistinct] at houter
    exact ⟨e, houter⟩

/-! ## The operators -/

/-- Projections, renamings and selections of an operand with schema `s`.

The slot of a projection has the names that are asked for and there, each once, in the order in
which they are first asked for, with the attributes that they have in `s`. Every other name is
reported as often as it is asked for.

The slot of a renaming has the new names of the attributes that are there, each once, in the order in
which they are first given, with the type of the attribute that was last given the name. Every other
attribute is reported as often as it is to be renamed.

The slot of a selection has the schema `s` exactly if no name is repeated there, whatever is wrong
with the predicate.

So a projection without reports, done again on its own result, changes nothing and reports nothing,
and selections on top of each other have the schema `s` exactly if no name is repeated there. -/
theorem Query.leaves_columns (operand : Operand) (mark : Lexeme) (a : Analyzer) (s : Schema)
    (b : Analyzer) :
    (operand.Feeds a.allocate s b →
      (∀ attributes : List Lexeme, ∃ t c,
        (Query.unary (.project attributes) mark operand).Leaves a t c ∧
        t.names = ((attributes.map (·.text)).filter (· ∈ s.names)).eraseDups ∧
        t.attributes = t.names.filterMap s.find? ∧
        c.diagnostics = b.diagnostics ++ (attributes.filter (·.text ∉ s.names)).map fun word =>
          ⟨.unknownAttribute word.text, word.loc⟩) ∧
      (∀ pairs : List (Lexeme × Lexeme), ∃ t c,
        (Query.unary (.rename pairs) mark operand).Leaves a t c ∧
        t.names = ((pairs.filter (·.1.text ∈ s.names)).map (·.2.text)).eraseDups ∧
        (∀ name ∈ t.names, ∃ pair x,
          (pairs.filter fun p => p.1.text ∈ s.names ∧ p.2.text = name).getLast? = some pair ∧
          s.find? pair.1.text = some x ∧ t.find? name = some ⟨name, x.type⟩) ∧
        c.diagnostics = b.diagnostics ++
          ((pairs.map (·.1)).filter (·.text ∉ s.names)).map fun word =>
            ⟨.unknownAttribute word.text, word.loc⟩) ∧
      ∀ predicate : Predicate, ∃ t c,
        (Query.unary (.select predicate) mark operand).Leaves a t c ∧ (t = s ↔ s.Distinct) ∧
        c.diagnostics = b.diagnostics ++ (predicate.check s).diagnostics) ∧
    (operand.Feeds a.allocate.allocate s b →
      ∀ (attributes again : List Lexeme) (inner : Lexeme),
        again.map (·.text) = attributes.map (·.text) →
        (∀ word ∈ attributes, word.text ∈ s.names) →
        ∃ t c d, (Query.unary (.project attributes) inner operand).Leaves a.allocate t c ∧
          (Query.unary (.project again) mark
            (.nested (.unary (.project attributes) inner operand))).Leaves a t d ∧
          c.diagnostics = b.diagnostics ∧ d.diagnostics = c.diagnostics) ∧
    ∀ (tower : List (Predicate × Lexeme)) (predicate : Predicate),
      operand.Feeds (allocate^[tower.length + 1] a) s b →
      ∃ t c, (Query.unary (.select predicate) mark (operand.selected tower)).Leaves a t c ∧
        (t = s ↔ s.Distinct) := by
  refine ⟨fun h => ⟨fun attributes => ?_, fun pairs => ?_, fun predicate => ?_⟩,
    fun h attributes again inner hagain hall => ?_, fun tower predicate h => ?_⟩
  · -- Projections.
    obtain ⟨c, hleaves, hc⟩ := h.leaves (.project attributes) mark rfl
    have hnames := Schema.names_projection s attributes
    refine ⟨_, c, hleaves, hnames, ?_, ?_⟩
    · rw [hnames, Schema.attributes_projection]
    · rw [hc, Schema.missing_eq_map]
      rfl
  · -- Renamings.
    obtain ⟨c, hleaves, hc⟩ := h.leaves (.rename pairs) mark rfl
    refine ⟨_, c, hleaves, ?_, fun name => Schema.find?_renaming, ?_⟩
    · rw [Schema.names_ofAttributes, Schema.names_renamed]
    · rw [hc, Schema.missing_eq_map]
      rfl
  · -- Selections.
    obtain ⟨c, hleaves, hc⟩ := h.leaves (.select predicate) mark rfl
    exact ⟨_, c, hleaves, Schema.ofAttributes_attributes_iff, hc⟩
  · -- A projection of a projection to the same names.
    obtain ⟨c, hleaves, hc⟩ := h.leaves (.project attributes) inner rfl
    obtain ⟨hsame, hnone⟩ := Schema.projection_projection hall hagain rfl
    have heffect : (UnaryOp.project again).apply mark (.ofAttributes (s.projected attributes)) =
        ⟨.own (.ofAttributes (s.projected attributes)), []⟩ := by
      rw [UnaryOp.apply, hsame, hnone]
    obtain ⟨d, houter, hd⟩ := hleaves.feeds.leaves (.project again) mark heffect
    refine ⟨_, c, d, hleaves, houter, ?_, by rw [hd, List.append_nil]⟩
    rw [hc, Schema.missing_eq_nil hall, List.append_nil]
  · -- Selections on top of each other.
    obtain ⟨c, hleaves⟩ := h.leaves_selected predicate mark
    exact ⟨_, c, hleaves, Schema.ofAttributes_attributes_iff⟩

/-- The relation `R` has the attributes `a`, `b` and `c`, and the relation `D` has two of the same
name. The names `x` and `q` are missing, and two attributes are given the name `z`. -/
theorem Query.leaves_columns_repeated_names :
    let word (text : String) : Lexeme := ⟨text, ⟨1, 1⟩⟩
    let R : Operand := .relation (word "R")
    let D : Operand := .relation (word "D")
    let a : Analyzer := .start
      ⟨#[⟨[⟨"a", .int⟩, ⟨"b", .text⟩, ⟨"c", .long⟩]⟩, ⟨[⟨"a", .int⟩, ⟨"a", .text⟩]⟩],
        .ofList [("D", 1), ("R", 0)]⟩ .standard
    let mark : Lexeme := word "of"
    let test : Predicate := .last (.last (.plain (.last (.last (.attr (word "x"))))))
    (∃ t c, (Query.unary (.project [word "b", word "x", word "b", word "a"]) mark R).Leaves a t c ∧
      t.attributes = [⟨"b", .text⟩, ⟨"a", .int⟩] ∧
      c.diagnostics = [⟨.unknownAttribute "x", ⟨1, 1⟩⟩]) ∧
    (∃ t c, (Query.unary (.rename [(word "a", word "z"), (word "q", word "w"), (word "b", word "z"),
        (word "c", word "a")]) mark R).Leaves a t c ∧
      t.names = ["z", "a"] ∧ t.find? "z" = some ⟨"z", .text⟩ ∧
      c.diagnostics = [⟨.unknownAttribute "q", ⟨1, 1⟩⟩]) ∧
    (∃ t c, (Query.unary (.select test) mark D).Leaves a t c ∧
      t ≠ ⟨[⟨"a", .int⟩, ⟨"a", .text⟩]⟩) ∧
    (∃ t c d, (Query.unary (.project [word "b", word "b", word "a"]) mark R).Leaves a.allocate t c ∧
      (Query.unary (.project [word "b", word "b", word "a"]) mark (.nested (.unary
        (.project [word "b", word "b", word "a"]) mark R))).Leaves a t d ∧ d.diagnostics = []) ∧
    ∃ c, (Query.unary (.select test) mark (R.selected [(test, mark), (test, mark)])).Leaves a
      ⟨[⟨"a", .int⟩, ⟨"b", .text⟩, ⟨"c", .long⟩]⟩ c := by
  intro word R D a mark test
  -- The relations stay as they are when slots are taken.
  have hR : ∀ n ∈ [1, 2, 3], R.Feeds (allocate^[n] a)
      ⟨[⟨"a", .int⟩, ⟨"b", .text⟩, ⟨"c", .long⟩]⟩ (allocate^[n] a) := by
    have hfound : ∀ n ∈ [1, 2, 3], (allocate^[n] a).catalog.find? "R" =
        .ok (some ⟨[⟨"a", .int⟩, ⟨"b", .text⟩, ⟨"c", .long⟩]⟩) := by decide +kernel
    exact fun n hn => Operand.feeds_relation (hfound n hn)
  have hD : D.Feeds a.allocate ⟨[⟨"a", .int⟩, ⟨"a", .text⟩]⟩ a.allocate := by
    apply Operand.feeds_relation
    decide +kernel
  refine ⟨?_, ?_, ?_, ?_, ?_⟩
  · obtain ⟨t, c, hleaves, hnames, hattributes, hc⟩ :=
      ((leaves_columns R mark a _ _).1 (hR 1 (by decide))).1
        [word "b", word "x", word "b", word "a"]
    exact ⟨t, c, hleaves, by rw [hattributes, hnames]; rfl, hc⟩
  · obtain ⟨t, c, hleaves, hnames, hfind, hc⟩ :=
      ((leaves_columns R mark a _ _).1 (hR 1 (by decide))).2.1
        [(word "a", word "z"), (word "q", word "w"), (word "b", word "z"), (word "c", word "a")]
    obtain ⟨pair, x, hlast, hx, hz⟩ := hfind "z" (by rw [hnames]; decide)
    obtain rfl : (word "b", word "z") = pair := Option.some.inj hlast
    obtain rfl : ⟨"b", .text⟩ = x := Option.some.inj hx
    exact ⟨t, c, hleaves, hnames, hz, hc⟩
  · obtain ⟨t, c, hleaves, hsame, -⟩ := ((leaves_columns D mark a _ _).1 hD).2.2 test
    exact ⟨t, c, hleaves, fun h => absurd (hsame.1 h) (by decide)⟩
  · obtain ⟨t, c, d, hinner, houter, hc, hd⟩ := (leaves_columns R mark a _ _).2.1
      (hR 2 (by decide)) [word "b", word "b", word "a"]
      [word "b", word "b", word "a"] mark rfl (by decide)
    exact ⟨t, c, d, hinner, houter, hd.trans hc⟩
  · obtain ⟨t, c, hleaves, hsame⟩ := (leaves_columns R mark a _ _).2.2
      [(test, mark), (test, mark)] test (hR 3 (by decide))
    exact ⟨c, hsame.2 (by decide) ▸ hleaves⟩

end RelAlgebra
