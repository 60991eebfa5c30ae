import RelAlgebra.Analysis.OfText
import RelAlgebra.Proofs.Analysis.Refinement
import RelAlgebra.Proofs.Grammar.Marks
import Mathlib.Data.List.Perm.Subperm

/-!
# The places of diagnostics

Every diagnostic of an analysis stands at a word of the program text that shows what is wrong, and
no two diagnostics stand at the same place.

A diagnostic blames a word that the query keeps. `Blamed` counts these words: the diagnostics of a
query blame different ones among all that it keeps. It is shown for each check on its own words, and
checks of different parts of a query have different words. The places follow, because the words that
queries keep are different words of the text.
-/

namespace RelAlgebra

/-- The word shows the violation: it is the name that stands for nothing, or it spells the operator
whose operands do not fit. -/
def Violation.ShownBy (w : Word) : Violation → Prop
  | unknownRelation name | unknownAttribute name =>
    w.shape = .identifier ∧ w.lexeme.text = name
  | arityMismatch op => op ∈ [.union, .intersection, .difference] ∧ w.shape ∈ op.shapes
  | invalidDivision text => w.shape ∈ BinaryOp.division.shapes ∧ w.lexeme.text = text
  | invalidArity _ => w.shape = .word "closure" ∨ w.shape = .symbol "<<"
  | nonNumericComparison text =>
    (∃ op : CompareOp, op.isOrdering = true ∧ w.shape ∈ Tier.comparison.shapes op) ∧
      w.lexeme.text = text
  | nonNumericArithmetic text =>
    ((∃ op, w.shape ∈ Tier.additive.shapes op) ∨ ∃ op, w.shape ∈ Tier.multiplicative.shapes op) ∧
      w.lexeme.text = text
  | nonBooleanOperand text => (∃ op, w.shape ∈ Tier.logical.shapes op) ∧ w.lexeme.text = text

/-- The diagnostic stands at the place of the mark, and the mark, as a word of a text, shows the
violation. -/
def Diagnostic.Blames (d : Diagnostic) (m : Mark) : Prop :=
  d.loc = m.lexeme.loc ∧ ∀ w, m.IsWord w → d.violation.ShownBy w

/-- The diagnostics blame different ones of the marks. -/
def Blamed (ds : List Diagnostic) (ms : List Mark) : Prop :=
  ∃ us, List.Forall₂ Diagnostic.Blames ds us ∧ us.Subperm ms

/-- What is related to a member of the first list is a member of the second. -/
theorem exists_mem_of_forall₂ {α β : Type} {R : α → β → Prop} {l : List α} {m : List β}
    (h : List.Forall₂ R l m) {a : α} (ha : a ∈ l) : ∃ b ∈ m, R a b := by
  induction h with
  | nil => simp at ha
  | cons hab _ ih =>
    rcases List.mem_cons.1 ha with rfl | ha
    · exact ⟨_, List.mem_cons_self .., hab⟩
    · obtain ⟨b, hb, hr⟩ := ih ha
      exact ⟨b, List.mem_cons_of_mem _ hb, hr⟩

namespace Blamed

variable {ds es : List Diagnostic} {ms ns : List Mark}

/-- Without diagnostics nothing is blamed. -/
theorem nil (ms : List Mark) : Blamed [] ms := ⟨[], .nil, List.nil_subperm⟩

/-- One diagnostic blames one word. -/
theorem single {d : Diagnostic} {m : Mark} (h : d.Blames m) : Blamed [d] [m] :=
  ⟨[m], .cons h .nil, .refl _⟩

/-- Different diagnostics with different marks. -/
theorem append (h : Blamed ds ms) (h' : Blamed es ns) : Blamed (ds ++ es) (ms ++ ns) := by
  obtain ⟨us, hus, hsub⟩ := h
  obtain ⟨vs, hvs, hsub'⟩ := h'
  exact ⟨us ++ vs, List.rel_append hus hvs, hsub.append hsub'⟩

/-- There may be more marks, in another order. -/
theorem mono (h : Blamed ds ms) (hsub : ms.Subperm ns) : Blamed ds ns := by
  obtain ⟨us, hus, hsub'⟩ := h
  exact ⟨us, hus, hsub'.trans hsub⟩

/-- If the marks are among words at different places, the diagnostics stand at different places. -/
theorem nodup_locs (h : Blamed ds ms) {ws : List Word} (hws : Among ms ws)
    (hnodup : (ws.map (·.lexeme.loc)).Nodup) : (ds.map (·.loc)).Nodup := by
  obtain ⟨us, hus, hsub⟩ := h
  obtain ⟨vs, hvs, hsub'⟩ := List.sublistForall₂_iff.1 hws
  -- The places of the diagnostics are those of the marks that they blame.
  have hlocs : ds.map (·.loc) = us.map (·.lexeme.loc) := by
    rw [← List.forall₂_eq_eq_eq, List.forall₂_map_left_iff, List.forall₂_map_right_iff]
    exact hus.imp fun _ _ hd => hd.1
  -- The places of the marks are those of words.
  have hmarks : ms.map (·.lexeme.loc) = vs.map (·.lexeme.loc) := by
    rw [← List.forall₂_eq_eq_eq, List.forall₂_map_left_iff, List.forall₂_map_right_iff]
    exact hvs.imp fun m w hm => by rw [hm.2]
  have hms : (ms.map (·.lexeme.loc)).Nodup := by
    rw [hmarks]
    exact hnodup.sublist (hsub'.map _)
  obtain ⟨l, hl, hsub''⟩ := hsub
  rw [hlocs, ← (hl.map (·.lexeme.loc)).nodup_iff]
  exact hms.sublist (hsub''.map _)

/-- If the marks are among words, every diagnostic stands at a word that shows it. -/
theorem exists_word (h : Blamed ds ms) {ws : List Word} (hws : Among ms ws) {d : Diagnostic}
    (hd : d ∈ ds) : ∃ w ∈ ws, d.loc = w.lexeme.loc ∧ d.violation.ShownBy w := by
  obtain ⟨us, hus, hsub⟩ := h
  obtain ⟨vs, hvs, hsub'⟩ := List.sublistForall₂_iff.1 hws
  obtain ⟨m, hm, hblames⟩ := exists_mem_of_forall₂ hus hd
  obtain ⟨w, hw, hword⟩ := exists_mem_of_forall₂ hvs (hsub.subset hm)
  exact ⟨w, hsub'.subset hw, by rw [hblames.1, hword.2], hblames.2 w hword⟩

end Blamed

/-! ## Each check on its own words -/

/-- What is wrong with an operator of a predicate is shown by the operator. -/
theorem Tier.blamed_complaints (tier : Tier) (op : tier.Op) (mark : Lexeme) (left right : Kind) :
    Blamed (tier.complaints op mark left right) [⟨.operator tier op, mark⟩] := by
  unfold complaints
  cases hv : tier.violation? op mark.text left right with
  | none => exact .nil _
  | some v =>
    refine .single ⟨rfl, ?_⟩
    rintro w ⟨hshape, hlexeme⟩
    have htext : w.lexeme.text = mark.text := congrArg Lexeme.text hlexeme
    -- In each tier the violation names the operator, which is one of the tier.
    cases tier with
    | logical =>
      simp only [violation?, Option.ite_none_left_eq_some, Option.some.injEq] at hv
      obtain ⟨-, rfl⟩ := hv
      exact ⟨⟨op, hshape⟩, htext⟩
    | comparison =>
      simp only [violation?, Option.ite_none_left_eq_some, Option.some.injEq] at hv
      obtain ⟨hordering, rfl⟩ := hv
      exact ⟨⟨op, by simpa using fun h => hordering (.inl h), hshape⟩, htext⟩
    | additive =>
      simp only [violation?, Option.ite_none_left_eq_some, Option.some.injEq] at hv
      obtain ⟨-, rfl⟩ := hv
      exact ⟨.inl ⟨op, hshape⟩, htext⟩
    | multiplicative =>
      simp only [violation?, Option.ite_none_left_eq_some, Option.some.injEq] at hv
      obtain ⟨-, rfl⟩ := hv
      exact ⟨.inr ⟨op, hshape⟩, htext⟩

/-- A name that no attribute has is shown by the name. -/
theorem Diagnostic.blames_missingAttribute (name : Lexeme) :
    (missingAttribute name).Blames ⟨.name, name⟩ := by
  refine ⟨rfl, ?_⟩
  rintro w ⟨hshape, hlexeme⟩
  exact ⟨List.mem_singleton.1 hshape, congrArg Lexeme.text hlexeme⟩

/-- What is wrong with a scalar expression is shown by the words that it keeps. -/
theorem Scalar.blamed_check (s : Schema) {level : Level} (e : Scalar level) :
    Blamed (e.check s).diagnostics e.marks := by
  induction e with
  | attr name =>
    rw [check, marks]
    cases s.find? name.text with
    | some a => exact .nil _
    | none => exact .single (Diagnostic.blames_missingAttribute name)
  | literal kind word => exact .nil _
  | instanceOf operand type => exact .nil _
  | paren inner ih | plain inner ih | last inner ih =>
    rw [check, marks]
    simpa [Verdict.diagnostics] using ih
  | @link tier operand op mark rest ihoperand ihrest =>
    rw [check, marks]
    have hparts : Verdict.diagnostics ⟨tier.resultKind (operand.check s).kind,
        (operand.check s).diagnostics ++ (rest.check s).operands,
        (rest.check s).operators ++
          tier.complaints op mark (operand.check s).kind (rest.check s).kind⟩ =
        (operand.check s).diagnostics ++ ((rest.check s).diagnostics ++
          tier.complaints op mark (operand.check s).kind (rest.check s).kind) := by
      simp [Verdict.diagnostics]
    rw [hparts]
    -- The operator is visited after the rest of the chain, before which it stands in the text.
    refine ihoperand.append ((ihrest.append (tier.blamed_complaints ..)).mono ?_)
    exact List.perm_append_comm.subperm

/-- The names that a schema lacks are shown by these names. -/
theorem Schema.blamed_missing (s : Schema) (names : List Lexeme) :
    Blamed (s.missing names) (names.map (⟨.name, ·⟩)) := by
  refine ⟨(names.filter fun name => !s.has name.text).map (⟨.name, ·⟩), ?_,
    (List.filter_sublist.map _).subperm⟩
  unfold missing
  rw [List.forall₂_map_left_iff, List.forall₂_map_right_iff, List.forall₂_same]
  exact fun name _ => Diagnostic.blames_missingAttribute name

/-- What is wrong with an operator with one operand is shown by it or by its arguments. -/
theorem UnaryOp.blamed_infer (op : UnaryOp) (mark : Lexeme) (s : Schema) :
    Blamed (op.infer mark s).diagnostics (⟨.verb op.verb, mark⟩ :: op.marks) := by
  rw [infer_eq, Effect.diagnostics_result]
  cases op with
  | project attributes => exact (s.blamed_missing attributes).mono List.Subperm.cons_self
  | rename pairs =>
    -- Only the old names are looked up.
    have hold : ((pairs.map (·.1)).map (⟨.name, ·⟩ : Lexeme → Mark)).Sublist
        (rename pairs).marks := by
      rw [marks]
      induction pairs with
      | nil => exact .slnil
      | cons pair pairs ih => exact (ih.cons _).cons_cons _
    exact (s.blamed_missing _).mono (hold.subperm.trans .cons_self)
  | select predicate => exact (predicate.blamed_check s).mono .cons_self
  | closure =>
    rw [apply]
    split
    · exact .nil _
    · refine .single ⟨rfl, ?_⟩
      rintro w ⟨hshape, -⟩
      simpa [verb, Role.shapes, Violation.ShownBy] using hshape

/-- What is wrong with an operator with two operands is shown by the operator. -/
theorem BinaryOp.blamed_infer (op : BinaryOp) (mark : Lexeme) (l r : Schema) :
    Blamed (op.infer mark l r).diagnostics [⟨.binary op, mark⟩] := by
  cases op with
  | union | intersection | difference =>
    rw [infer]
    split
    · exact .nil _
    · refine .single ⟨rfl, ?_⟩
      rintro w ⟨hshape, -⟩
      exact ⟨by simp, hshape⟩
  | join | cross => exact .nil _
  | division =>
    -- Only the operators on sets and the division have something to complain about.
    rw [infer]
    split
    · exact .nil _
    · refine .single ⟨rfl, ?_⟩
      rintro w ⟨hshape, hlexeme⟩
      exact ⟨hshape, congrArg Lexeme.text hlexeme⟩

mutual

/-- What is wrong with a query is shown by different ones of the words that it keeps. -/
theorem Query.blamed_infer (env : Environment) (q : Query) :
    Blamed (q.infer env).diagnostics q.marks := by
  cases q with
  | unary op mark operand =>
    rw [Query.infer, Query.marks]
    refine ((operand.blamed_infer env).append (op.blamed_infer mark _)).mono ?_
    exact List.perm_append_comm.subperm
  | binary op mark left right =>
    rw [Query.infer, Query.marks, List.append_assoc]
    refine (left.blamed_infer env).append (((right.blamed_infer env).append
      (op.blamed_infer mark _ _)).mono ?_)
    exact List.perm_append_comm.subperm

/-- What is wrong with an operand is shown by different ones of the words that it keeps. -/
theorem Operand.blamed_infer (env : Environment) (o : Operand) :
    Blamed (o.infer env).diagnostics o.marks := by
  cases o with
  | relation name =>
    rw [Operand.infer, Operand.marks]
    cases env name.text with
    | some s => exact .nil _
    | none =>
      refine .single ⟨rfl, ?_⟩
      rintro w ⟨hshape, hlexeme⟩
      exact ⟨List.mem_singleton.1 hshape, congrArg Lexeme.text hlexeme⟩
  | nested q =>
    rw [Operand.infer, Operand.marks]
    exact q.blamed_infer env

end

/-- What is wrong with queries is shown by different ones of the words that they keep. -/
theorem blamed_flatMap_infer (env : Environment) (qs : List Query) :
    Blamed (qs.flatMap fun q => (q.infer env).diagnostics) (qs.flatMap Query.marks) := by
  induction qs with
  | nil => exact .nil _
  | cons q qs ih => exact (q.blamed_infer env).append ih

/-! ## From texts to places -/

/-- The diagnostics of an analysis of texts are inferred from the schemas of the catalog. -/
theorem analyze_diagnostics {config : Config} {declarations program : String} {a : Analyzer}
    (h : analyze config declarations program = .ok a) :
    ∃ qs env, parseProgram program = .ok qs ∧
      a.diagnostics = qs.flatMap fun q => (q.infer env).diagnostics := by
  obtain ⟨catalog, qs, n, hcatalog, hqs, hrun⟩ := analyze_eq_ok h
  have hrange : (Analyzer.start catalog config).catalog.InRange :=
    (Catalog.wellNamed_ofText hcatalog).inRange
  have hstem : (Analyzer.start catalog config).slots.stem = config.stem := rfl
  have hreads := Analyzer.reads_spellable hstem hrange
  obtain ⟨b, hb, hab⟩ := Analysis.infers_program qs hreads (parseProgram_spelled hqs)
  obtain ⟨-, rfl⟩ : _ ∧ b = a := by simpa [hrun] using hb.symm
  exact ⟨qs, _, hqs, hab.diagnostics⟩

/-- Diagnostics stand at what is wrong, and only once. Every diagnostic of an analysis stands at a
word of the program text. That word is the slice of the text at this place, it follows the lexical
rule of its shape, and it shows the violation. No two diagnostics stand at the same place. -/
theorem analyze_diagnostics_at_words (config : Config) {declarations program : String}
    {a : Analyzer} (h : analyze config declarations program = .ok a) :
    ∃ ws, WordsOf program ws ∧
      (∀ d ∈ a.diagnostics, ∃ w ∈ ws, d.violation.ShownBy w ∧
        w.shape.Admits w.lexeme.text.toList ∧ d.loc = w.lexeme.loc ∧
        ∃ n, d.loc = .ofOffset program.toList n ∧
          w.lexeme.text.toList <+: program.toList.drop n) ∧
      (a.diagnostics.map (·.loc)).Nodup := by
  obtain ⟨qs, env, hqs, hds⟩ := analyze_diagnostics h
  obtain ⟨ws, hws, hamong⟩ := parseProgram_words hqs
  have hblamed := blamed_flatMap_infer env qs
  rw [← hds] at hblamed
  refine ⟨ws, hws, fun d hd => ?_, hblamed.nodup_locs hamong hws.nodup_locs⟩
  obtain ⟨w, hw, hloc, hshown⟩ := hblamed.exists_word hamong hd
  obtain ⟨hadmits, n, hn, hslice⟩ := hws.exists_offset hw
  exact ⟨w, hw, hshown, hadmits, hloc, n, hloc.trans hn, hslice⟩

set_option maxRecDepth 2000 in
/-- Three diagnostics over two lines, with a comment and a line break of two characters between. -/
theorem analyze_diagnostics_at_words_union_closure :
    ∃ a, analyze .standard "R.a:int" "S ∪ -- é\r\n (<<R>>)" = .ok a ∧
      a.diagnostics = [⟨.unknownRelation "S", ⟨1, 1⟩⟩, ⟨.invalidArity 1, ⟨2, 3⟩⟩,
        ⟨.arityMismatch .union, ⟨1, 3⟩⟩] ∧
      (∃ ws, WordsOf "S ∪ -- é\r\n (<<R>>)" ws ∧ ∃ w ∈ ws,
        (w.shape = .word "closure" ∨ w.shape = .symbol "<<") ∧ w.lexeme.loc = ⟨2, 3⟩) ∧
      (a.diagnostics.map (·.loc)).Nodup := by
  have hcatalog : Catalog.ofText "R.a:int" = .ok ⟨#[⟨[⟨"a", .int⟩]⟩], .ofList [("R", 0)]⟩ := by rfl
  have hqs : parseProgram "S ∪ -- é\r\n (<<R>>)" = .ok
      [.binary .union ⟨"∪", ⟨1, 3⟩⟩ (.relation ⟨"S", ⟨1, 1⟩⟩)
        (.nested (.unary .closure ⟨"<<", ⟨2, 3⟩⟩ (.relation ⟨"R", ⟨2, 5⟩⟩)))] := by rfl
  have hanalyze : ∃ a, analyze .standard "R.a:int" "S ∪ -- é\r\n (<<R>>)" = .ok a ∧
      a.diagnostics = [⟨.unknownRelation "S", ⟨1, 1⟩⟩, ⟨.invalidArity 1, ⟨2, 3⟩⟩,
        ⟨.arityMismatch .union, ⟨1, 3⟩⟩] := by
    unfold analyze
    rw [hcatalog, hqs]
    exact ⟨_, rfl, rfl⟩
  obtain ⟨a, ha, hds⟩ := hanalyze
  obtain ⟨ws, hws, hwords, hnodup⟩ := analyze_diagnostics_at_words .standard ha
  obtain ⟨w, hw, hshown, -, hloc, -⟩ := hwords ⟨.invalidArity 1, ⟨2, 3⟩⟩ (by simp [hds])
  exact ⟨a, ha, hds, ⟨ws, hws, w, hw, hshown, hloc.symm⟩, hnodup⟩

end RelAlgebra
