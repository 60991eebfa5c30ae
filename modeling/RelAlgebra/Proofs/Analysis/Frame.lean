import RelAlgebra.Proofs.Analysis.Steps
import RelAlgebra.Proofs.Catalog.Declarations

/-!
# What an analysis leaves alone

An analysis adds relations at the end of the arena, one for each slot, and binds the names of these
slots; everything else in the catalog stays as it was: `Query.extends_analyze` for one query and
`Analyzer.extends_afterAll` for any sequence of programs. Nothing is assumed of the catalog, and the
statements also hold if a dangling handle stops the analysis.

The argument is about one operator. Its slot is taken first, so the relation of the slot is new.
While the operands are analyzed, the name of that slot stays bound to it, for only names of later
slots are bound. So when attributes are written through the name, they go into the new relation.
-/

namespace RelAlgebra

namespace Analyzer

/-- `b` is `a` with some more slots, each with a relation at the end of the arena. -/
structure Extends (a b : Analyzer) : Prop where
  stem : b.slots.stem = a.slots.stem
  last_le : a.slots.last ≤ b.slots.last
  /-- There are as many new relations as new slots. -/
  size : b.catalog.arena.size + a.slots.last = a.catalog.arena.size + b.slots.last
  /-- Every relation that was there is still there, unchanged. -/
  entry : ∀ i < a.catalog.arena.size, b.catalog.arena[i]? = a.catalog.arena[i]?
  /-- Only names of new slots are bound anew. -/
  handle : ∀ name, (∀ n, a.slots.last < n → n ≤ b.slots.last → name ≠ a.slots.name n) →
    b.catalog.handle? name = a.catalog.handle? name
  /-- Every new slot is bound. -/
  bound : ∀ n, a.slots.last < n → n ≤ b.slots.last →
    (b.catalog.handle? (a.slots.name n)).isSome = true

/-- Slots of the same stem have the same names. -/
theorem Extends.name_eq {a b : Analyzer} (h : a.Extends b) (n : Nat) :
    b.slots.name n = a.slots.name n := by
  unfold Slots.name
  rw [h.stem]

/-- The names of the slots that were there keep their handles. -/
theorem Extends.handle_name {a b : Analyzer} (h : a.Extends b) {n : Nat} (hn : n ≤ a.slots.last) :
    b.catalog.handle? (a.slots.name n) = a.catalog.handle? (a.slots.name n) := by
  apply h.handle
  intro m hm _ hname
  have hnm : n = m := a.slots.name_inj.1 hname
  omega

/-- A state with the same catalog and the same slots is an extension without new slots. -/
theorem extends_of_eq {a b : Analyzer} (hc : b.catalog = a.catalog) (hs : b.slots = a.slots) :
    a.Extends b := by
  constructor
  · rw [hs]
  · exact Nat.le_of_eq (by rw [hs])
  · rw [hc, hs]
  · intro i _; rw [hc]
  · intro name _; rw [hc]
  · intro n h1 h2; rw [hs] at h2; omega

/-- Every state extends itself. -/
theorem Extends.refl (a : Analyzer) : a.Extends a := extends_of_eq rfl rfl

/-- Extensions of extensions are extensions. -/
theorem Extends.trans {a b c : Analyzer} (hab : a.Extends b) (hbc : b.Extends c) : a.Extends c := by
  have h1 := hab.last_le
  have h2 := hbc.last_le
  have h3 := hab.size
  have h4 := hbc.size
  constructor
  · rw [hbc.stem, hab.stem]
  · omega
  · omega
  · intro i hi
    rw [hbc.entry i (by omega), hab.entry i hi]
  · -- A name of no new slot from `a` to `c` is one of no new slot in either half.
    intro name hname
    rw [hbc.handle, hab.handle]
    · exact fun n hn hn' => hname n hn (by omega)
    · intro n hn hn'
      rw [hab.name_eq]
      exact hname n (by omega) hn'
  · intro n hn hn'
    -- A slot that is new in `b` keeps its binding up to `c`.
    by_cases hnb : n ≤ b.slots.last
    · rw [← hab.name_eq, hbc.handle_name hnb, hab.name_eq]
      exact hab.bound n hn hnb
    · rw [← hab.name_eq]
      exact hbc.bound n (by omega) hn'

/-- Taking a slot extends the state by that slot. -/
theorem extends_allocate (a : Analyzer) : a.Extends a.allocate := by
  constructor
  · rfl
  · simp
  · simp only [catalog_allocate, Catalog.size_create, slots_allocate]
    omega
  · intro i hi
    rw [catalog_allocate, Catalog.getElem?_create, if_neg (by omega)]
  · intro name hname
    have hne : name ≠ a.slots.name (a.slots.last + 1) := hname _ (by omega) (by simp)
    rw [catalog_allocate, Catalog.handle?_create, if_neg hne]
  · intro n hn hn'
    -- There is just one new slot.
    have hn : n = a.slots.last + 1 := by
      rw [slots_allocate] at hn'; exact Nat.le_antisymm hn' hn
    rw [hn, catalog_allocate, Catalog.handle?_create, if_pos rfl]
    rfl

/-- After the operands of an operator, the slot of the operator is still bound to the relation that
was made for it. -/
theorem Extends.slotHandle_of_allocate {a b : Analyzer} (h : a.allocate.Extends b) :
    b.slotHandle? (a.slots.last + 1) = some a.catalog.arena.size := by
  unfold slotHandle?
  rw [h.name_eq]
  have hslot := h.handle_name (n := a.slots.last + 1) (by simp)
  rw [hslot, catalog_allocate, Catalog.handle?_create]
  exact if_pos rfl

/-- That relation lies inside the arena. -/
theorem Extends.lt_size_of_allocate {a b : Analyzer} (h : a.allocate.Extends b) :
    a.catalog.arena.size < b.catalog.arena.size := by
  have h1 := h.last_le
  have h2 := h.size
  simp only [catalog_allocate, slots_allocate, Catalog.size_create] at h1 h2
  omega

/-- Writing into the relation that was made for the slot of an operator changes nothing that was
there before the operator. -/
theorem Extends.filled {a b : Analyzer} (h : a.allocate.Extends b) (s : Schema) :
    a.Extends (b.filled a.catalog.arena.size s) := by
  have hab : a.Extends b := a.extends_allocate.trans h
  constructor
  · exact hab.stem
  · exact hab.last_le
  · rw [size_filled]; exact hab.size
  · intro i hi
    rw [getElem?_filled, if_neg (by omega)]
    exact hab.entry i hi
  · exact hab.handle
  · exact hab.bound

/-- Binding the slot of an operator to another relation changes no name but that of the slot. -/
theorem Extends.share {a b : Analyzer} (h : a.allocate.Extends b) (handle : Handle) :
    a.Extends (b.share (a.slots.last + 1) handle) := by
  have hab : a.Extends b := a.extends_allocate.trans h
  have hlast : a.slots.last + 1 ≤ b.slots.last := h.last_le
  have hname : b.slots.name (a.slots.last + 1) = a.slots.name (a.slots.last + 1) := hab.name_eq _
  constructor
  · exact hab.stem
  · exact hab.last_le
  · exact hab.size
  · exact hab.entry
  · intro name hn
    rw [catalog_share, Catalog.handle?_assign, hname, if_neg (hn _ (by omega) hlast)]
    exact hab.handle name hn
  · intro n hn hn'
    rw [catalog_share, Catalog.handle?_assign]
    split
    · rfl
    · exact hab.bound n hn hn'

/-- More reports after an extension are an extension. -/
theorem Extends.reportAll {a b : Analyzer} (h : a.Extends b) (ds : List Diagnostic) :
    a.Extends (b.reportAll ds) :=
  h.trans (extends_of_eq (catalog_reportAll ..) (slots_reportAll ..))

/-- After the operands of an operator, its effect can always be put into its slot. -/
theorem Extends.run_settle {a b : Analyzer} (h : a.allocate.Extends b) (source : Option Handle)
    (e : Effect) :
    (Analysis.settle (a.slots.last + 1) source e).run b =
      .ok () (b.settled (a.slots.last + 1) a.catalog.arena.size source e) :=
  Analysis.run_settle source e h.slotHandle_of_allocate h.lt_size_of_allocate

/-- Then the slot of the operator has the relation that the effect says. -/
theorem Extends.handle?_settled {a b : Analyzer} (h : a.allocate.Extends b)
    (source : Option Handle) (e : Effect) :
    (b.settled (a.slots.last + 1) a.catalog.arena.size source e).catalog.handle?
        (a.slots.name (a.slots.last + 1)) = some (e.home source a.catalog.arena.size) := by
  have hslot := slotHandle?_settled source e h.slotHandle_of_allocate
  unfold slotHandle? at hslot
  rw [slots_settled, h.name_eq] at hslot
  exact hslot

/-- Putting the effect of an operator into its slot changes nothing that was there before the
operator. -/
theorem Extends.settled {a b : Analyzer} (h : a.allocate.Extends b) (source : Option Handle)
    (e : Effect) :
    a.Extends (b.settled (a.slots.last + 1) a.catalog.arena.size source e) := by
  obtain ⟨output, ds⟩ := e
  have hr := h.reportAll ds
  cases output with
  | own s => exact hr.filled s
  | shared =>
    cases source with
    | none => exact a.extends_allocate.trans hr
    | some handle => exact hr.share handle

end Analyzer

open Analyzer Analysis

/-- Putting the effect of an operator into its slot, after the operands. -/
theorem Analysis.ends_settle {a b : Analyzer} (h : a.allocate.Extends b) (source : Option Handle)
    (e : Effect) :
    (settle (a.slots.last + 1) source e).Ends b (fun _ c => a.Extends c)
      (fun _ c => a.Extends c) :=
  .of_run (h.run_settle source e) (h.settled source e)

/-- Looking a relation up, whether it is bound or not. -/
theorem Analysis.ends_lookup (name : Lexeme) (a : Analyzer) :
    (lookup name).Ends a (fun _ b => a.Extends b) (fun _ b => a.Extends b) := by
  cases h : a.catalog.handle? name.text with
  | some handle => exact .of_run (run_lookup_bound h) (.refl a)
  | none => exact .of_run (run_lookup_unbound h) (extends_of_eq rfl rfl)

mutual

/-- An analysis of a query extends the state, also if it is stopped. -/
theorem Query.extends_analyze (q : Query) (a : Analyzer) :
    q.analyze.Ends a (fun slot b => slot = a.slots.last + 1 ∧ a.Extends b)
      (fun _ b => a.Extends b) := by
  cases q with
  | unary op mark operand =>
    unfold Query.analyze
    refine .step (run_allocate a) ?_
    -- The operand is analyzed with the slot already taken, so `hb` extends the state with it.
    refine .bind ((operand.extends_source a.allocate).mono (fun _ _ h => h)
      (fun _ _ h => a.extends_allocate.trans h)) fun source b hb => ?_
    refine .bind ((ends_schemaOf source b).mono (fun _ _ h => h) ?_) ?_
    · rintro _ _ rfl
      exact a.extends_allocate.trans hb
    · rintro s _ rfl
      exact .bind (ends_settle hb source _) fun _ c hc => .of_run rfl ⟨rfl, hc⟩
  | binary op mark left right =>
    unfold Query.analyze
    refine .step (run_allocate a) ?_
    refine .bind ((left.extends_slot a.allocate).mono (fun _ _ h => h.2)
      (fun _ _ h => a.extends_allocate.trans h)) fun l b hb => ?_
    refine .bind ((right.extends_slot b).mono (fun _ _ h => hb.trans h.2)
      (fun _ _ h => a.extends_allocate.trans (hb.trans h))) fun r c hc => ?_
    -- The two schemas are read in the state after both operands, which stays as it is.
    refine .step (run_get c) ?_
    refine .bind ((ends_schemaOf _ c).mono (fun _ _ h => h) ?_) ?_
    · rintro _ _ rfl
      exact a.extends_allocate.trans hc
    · rintro s _ rfl
      refine .step (run_get c) ?_
      refine .bind ((ends_schemaOf _ c).mono (fun _ _ h => h) ?_) ?_
      · rintro _ _ rfl
        exact a.extends_allocate.trans hc
      · rintro t _ rfl
        exact .bind (ends_settle hc _ _) fun _ d hd => .of_run rfl ⟨rfl, hd⟩

/-- So does an analysis of the operand of an operator with one operand. -/
theorem Operand.extends_source (o : Operand) (a : Analyzer) :
    o.source.Ends a (fun _ b => a.Extends b) (fun _ b => a.Extends b) := by
  cases o with
  | relation name =>
    unfold Operand.source
    exact ends_lookup name a
  | nested q =>
    unfold Operand.source
    exact .bind (q.extends_analyze a) fun slot b hb => .of_run rfl hb.2

/-- So does an analysis of an operand of an operator with two operands. -/
theorem Operand.extends_slot (o : Operand) (a : Analyzer) :
    o.slot.Ends a (fun slot b => slot = a.slots.last + 1 ∧ a.Extends b)
      (fun _ b => a.Extends b) := by
  cases o with
  | relation name =>
    unfold Operand.slot
    refine .step (run_allocate a) ?_
    refine .bind ((ends_lookup name a.allocate).mono (fun _ _ h => h)
      (fun _ _ h => a.extends_allocate.trans h)) fun source b hb => ?_
    -- A relation that is found is shared through the slot, otherwise the slot stays empty.
    cases source with
    | some handle => exact .step rfl (.of_run rfl ⟨rfl, hb.share handle⟩)
    | none => exact .step rfl (.of_run rfl ⟨rfl, a.extends_allocate.trans hb⟩)
  | nested q =>
    unfold Operand.slot
    exact q.extends_analyze a

end

/-- An analysis of queries one after the other extends the state. -/
theorem Analysis.extends_queries (qs : List Query) (a : Analyzer) :
    (Analysis.queries qs).Ends a (fun _ b => a.Extends b) (fun _ b => a.Extends b) := by
  induction qs generalizing a with
  | nil => exact .of_run rfl (.refl a)
  | cons q qs ih =>
    unfold Analysis.queries
    refine .bind ((q.extends_analyze a).mono (fun _ _ h => h.2) fun _ _ h => h) fun slot b hb => ?_
    have hw : a.Extends (b.write (.answered slot)) := hb.trans (extends_of_eq rfl rfl)
    refine .step rfl ?_
    exact (ih _).mono (fun _ _ h => hw.trans h) (fun _ _ h => hw.trans h)

/-- An analysis of a program extends the state. -/
theorem Analysis.extends_program (qs : List Query) (a : Analyzer) :
    (Analysis.program qs).Ends a (fun _ b => a.Extends b) (fun _ b => a.Extends b) := by
  cases qs with
  | nil => exact .of_run rfl (extends_of_eq rfl rfl)
  | cons q qs =>
    unfold Analysis.program
    have hw : a.Extends (a.write (.started (q :: qs).length)) := extends_of_eq rfl rfl
    refine .step rfl ?_
    refine .bind ((extends_queries (q :: qs) _).mono (fun _ _ h => hw.trans h)
      (fun _ _ h => hw.trans h)) fun _ b hb => ?_
    have hw' : a.Extends (b.write (.finished b.diagnostics.length)) :=
      hb.trans (extends_of_eq rfl rfl)
    exact .step rfl (.of_run rfl hw')

/-- An answer comes from a catalog, a program and an analysis, none of which failed. -/
theorem analyze_eq_ok {config : Config} {declarations program : String} {a : Analyzer}
    (h : analyze config declarations program = .ok a) :
    ∃ catalog qs n, Catalog.ofText declarations = .ok catalog ∧ parseProgram program = .ok qs ∧
      (Analysis.program qs).run (.start catalog config) = .ok n a := by
  unfold analyze at h
  cases hcatalog : Catalog.ofText declarations with
  | error e => simp [hcatalog, bind, Except.bind] at h
  | ok catalog =>
    cases hqs : parseProgram program with
    | error e =>
      rw [hcatalog, hqs] at h
      cases h
    | ok qs =>
      have hread : (parseProgram program).mapError Error.parse = .ok qs := by rw [hqs]; rfl
      cases hrun : (Analysis.program qs).run (.start catalog config) with
      | error fault b => simp [hcatalog, hread, hrun, bind, Except.bind] at h
      | ok n b =>
        simp only [hcatalog, hread, hrun, bind, Except.bind, pure, Except.pure,
          Except.ok.injEq] at h
        exact ⟨catalog, qs, n, rfl, rfl, by rw [hrun, h]⟩

namespace Analyzer

/-- The state after an analysis of a program, also if a dangling handle stopped it. -/
def after (a : Analyzer) (program : List Query) : Analyzer :=
  match (Analysis.program program).run a with
  | .ok _ b => b
  | .error _ b => b

/-- The state after analyses of several programs, one after the other. -/
def afterAll (a : Analyzer) (programs : List (List Query)) : Analyzer := programs.foldl after a

/-- The state after a program extends the one before it, whether or not the analysis was stopped. -/
theorem extends_after (a : Analyzer) (program : List Query) : a.Extends (a.after program) := by
  have h := extends_program program a
  unfold Ends at h
  unfold after
  split at h <;> simp_all

/-- Analyses of any programs, one after the other, extend the state. -/
theorem extends_afterAll (a : Analyzer) (programs : List (List Query)) :
    a.Extends (a.afterAll programs) := by
  unfold afterAll
  induction programs generalizing a with
  | nil => exact .refl a
  | cons program programs ih => exact (a.extends_after program).trans (ih _)

/-- A name whose binding is not that of before is the name of a new slot. -/
theorem Extends.exists_of_handle_ne {a b : Analyzer} (h : a.Extends b) {name : String}
    (hne : b.catalog.handle? name ≠ a.catalog.handle? name) :
    ∃ n, a.slots.last < n ∧ n ≤ b.slots.last ∧ name = a.slots.name n := by
  apply Classical.byContradiction
  intro hnot
  apply hne
  apply h.handle
  intro n hlt hle hname
  exact hnot ⟨n, hlt, hle, hname⟩

/-- A name that can be spelled keeps its handle. -/
theorem Extends.handle_of_spellable {a b : Analyzer} (h : a.Extends b) {config : Config}
    (hstem : a.slots.stem = config.stem) {name : String} (hname : Spellable name) :
    b.catalog.handle? name = a.catalog.handle? name := by
  apply h.handle
  intro n _ _ heq
  have hslot : name = config.stem ++ toString n := by rw [heq, Slots.name, hstem]
  exact config.not_spellable n (hslot ▸ hname)

/-- A name that keeps its handle keeps its schema. -/
theorem Extends.find?_of_handle {a b : Analyzer} (h : a.Extends b) {name : String}
    (hname : b.catalog.handle? name = a.catalog.handle? name) {s : Schema}
    (hs : a.catalog.find? name = .ok (some s)) : b.catalog.find? name = .ok (some s) := by
  obtain ⟨handle, hh, hentry⟩ := (Catalog.find?_eq_some_iff ..).1 hs
  obtain ⟨hlt, -⟩ := Array.getElem?_eq_some_iff.1 hentry
  exact (Catalog.find?_eq_some_iff ..).2 ⟨handle, hname.trans hh, (h.entry handle hlt).trans hentry⟩

/-- Analyses leave alone what was in the catalog. Whatever programs are analyzed one after the
other, and also where a dangling handle stops one of them: no relation that was there changes, there
is one more relation for each new slot, and only the names of new slots are bound anew. So every
name that can be spelled keeps its handle and, if it had one, its schema. In particular every name
that a text of declarations has bound keeps its relation. -/
theorem catalog_afterAll (config : Config) {a : Analyzer} (hstem : a.slots.stem = config.stem)
    (programs : List (List Query)) :
    (∀ i < a.catalog.arena.size,
      (a.afterAll programs).catalog.arena[i]? = a.catalog.arena[i]?) ∧
    a.slots.last ≤ (a.afterAll programs).slots.last ∧
    (a.afterAll programs).catalog.arena.size =
      a.catalog.arena.size + ((a.afterAll programs).slots.last - a.slots.last) ∧
    (∀ name, (a.afterAll programs).catalog.handle? name ≠ a.catalog.handle? name →
      ∃ n, a.slots.last < n ∧ n ≤ (a.afterAll programs).slots.last ∧
        name = config.stem ++ toString n) ∧
    (∀ name, Spellable name →
      (a.afterAll programs).catalog.handle? name = a.catalog.handle? name ∧
      ∀ s, a.catalog.find? name = .ok (some s) →
        (a.afterAll programs).catalog.find? name = .ok (some s)) ∧
    (∀ declarations, Catalog.ofText declarations = .ok a.catalog →
      ∀ name handle, a.catalog.handle? name = some handle →
        (a.afterAll programs).catalog.handle? name = some handle ∧
        ∃ s, a.catalog.find? name = .ok (some s) ∧
          (a.afterAll programs).catalog.find? name = .ok (some s)) := by
  -- All of it is read off the extension; names that can be spelled are never names of slots.
  have h := a.extends_afterAll programs
  have hspell : ∀ name, Spellable name →
      (a.afterAll programs).catalog.handle? name = a.catalog.handle? name ∧
      ∀ s, a.catalog.find? name = .ok (some s) →
        (a.afterAll programs).catalog.find? name = .ok (some s) := by
    intro name hname
    have hhandle := h.handle_of_spellable hstem hname
    exact ⟨hhandle, fun s hs => h.find?_of_handle hhandle hs⟩
  refine ⟨h.entry, h.last_le, ?_, ?_, hspell, ?_⟩
  · have hsize := h.size
    have hlast := h.last_le
    omega
  · intro name hne
    obtain ⟨n, hlt, hle, hname⟩ := h.exists_of_handle_ne hne
    exact ⟨n, hlt, hle, by rw [hname, Slots.name, hstem]⟩
  · intro declarations hd name handle hn
    -- The name was spelled in the text, and its handle is inside the arena.
    have hc := Catalog.wellNamed_ofText hd
    obtain ⟨hhandle, hfind⟩ := hspell name (hc.spellable name handle hn)
    have hlt : handle < a.catalog.arena.size := (Catalog.inRange_iff _).1 hc.inRange name handle hn
    have hs : a.catalog.find? name = .ok (some a.catalog.arena[handle]) :=
      (Catalog.find?_eq_some_iff ..).2 ⟨handle, hn, Array.getElem?_eq_getElem hlt⟩
    exact ⟨hhandle.trans hn, _, hs, hfind _ hs⟩

/-- In the first case `D` dangles, so the first of the two programs is stopped, after it has taken a
slot for `R`. In the second case `R` was declared, and a program takes a slot that shares it. -/
theorem catalog_afterAll_dangling_declared :
    (∃ b : Analyzer,
      b = (start ⟨#[⟨[⟨"a", .int⟩, ⟨"b", .int⟩]⟩], .ofList [("D", 9), ("R", 0)]⟩
        .standard).afterAll
        [[.binary .join ⟨"join", .start⟩ (.relation ⟨"R", .start⟩) (.relation ⟨"D", .start⟩)],
         [.unary .closure ⟨"closure", .start⟩ (.relation ⟨"R", .start⟩)]] ∧
      b.slots.last = 4 ∧ b.catalog.arena.size = 5 ∧
      b.catalog.arena[0]? = some ⟨[⟨"a", .int⟩, ⟨"b", .int⟩]⟩ ∧
      b.catalog.handle? "R" = some 0 ∧ b.catalog.handle? "D" = some 9 ∧
      b.catalog.find? "R" = .ok (some ⟨[⟨"a", .int⟩, ⟨"b", .int⟩]⟩)) ∧
    ∃ c, Catalog.ofText "R.a:int" = .ok c ∧
      ((start c .standard).afterAll
        [[.unary .closure ⟨"closure", .start⟩ (.relation ⟨"R", .start⟩)]]).catalog.handle? "R" =
        some 0 := by
  constructor
  · obtain ⟨hentry, -, hsize, -, hspell, -⟩ := catalog_afterAll .standard
      (a := start ⟨#[⟨[⟨"a", .int⟩, ⟨"b", .int⟩]⟩], .ofList [("D", 9), ("R", 0)]⟩ .standard) rfl
      [[.binary .join ⟨"join", .start⟩ (.relation ⟨"R", .start⟩) (.relation ⟨"D", .start⟩)],
       [.unary .closure ⟨"closure", .start⟩ (.relation ⟨"R", .start⟩)]]
    obtain ⟨hr, hfind⟩ := hspell "R" (by decide)
    exact ⟨_, rfl, rfl, hsize, hentry 0 (by decide), hr, (hspell "D" (by decide)).1, hfind _ rfl⟩
  · have hc : Catalog.ofText "R.a:int" =
        .ok ⟨#[⟨[⟨"a", .int⟩]⟩], .ofList [("R", 0)]⟩ := by rfl
    obtain ⟨-, -, -, -, -, hdecl⟩ := catalog_afterAll .standard
      (a := start ⟨#[⟨[⟨"a", .int⟩]⟩], .ofList [("R", 0)]⟩ .standard) rfl
      [[.unary .closure ⟨"closure", .start⟩ (.relation ⟨"R", .start⟩)]]
    exact ⟨_, hc, (hdecl "R.a:int" hc "R" 0 rfl).1⟩

end Analyzer

end RelAlgebra
