import RelAlgebra.Proofs.Analysis.Refinement
import RelAlgebra.Proofs.Grammar.Joining

/-!
# Analysis of joined program texts

A program text that is joined from two, with a semicolon on a line of its own between them, is
analyzed statement by statement: what is wrong with it, and the schemas of its slots, are those of
the first text and then those of the second one, each analyzed alone. Only the places of what is
wrong in the second text are further down.
-/

namespace RelAlgebra

/-- The schemas of all slots, in the order of their numbers. -/
def Analyzer.slotSchemas (a : Analyzer) : List (Except Dangling (Option Schema)) :=
  a.slots.allocated.map a.slotSchema?

/-- An analysis that has only taken slots for the given parts has the schemas that are inferred for
them. -/
theorem Analyzer.Infers.slotSchemas_eq {known : String → Prop} {env : Environment}
    {a b : Analyzer} {parts : List Operand} {ds : List Diagnostic}
    (h : Infers known env a b parts ds) (ha : a.slots.last = 0) :
    b.slotSchemas = (parts.map fun p => (p.infer env).schema).map fun s => .ok (some s) := by
  have hlast : b.slots.last = parts.length := by rw [h.last, ha, Nat.zero_add]
  refine List.ext_getElem? fun i => ?_
  rw [slotSchemas, List.map_map, List.getElem?_map, List.getElem?_map, Slots.allocated, hlast]
  cases hp : parts[i]? with
  | none => simp [List.getElem?_eq_none_iff.1 hp]
  | some p =>
    have hi : i < parts.length := (List.getElem?_eq_some_iff.1 hp).1
    obtain ⟨handle, hhandle, hschema, -⟩ := h.slot i p hp
    rw [ha, Nat.zero_add, ← h.ext.name_eq] at hhandle
    have hslot : b.slotSchema? (1 + i) = .ok (some (p.infer env).schema) :=
      (Catalog.find?_eq_some_iff ..).2 ⟨handle, hhandle, hschema⟩
    simp [hi, hslot]

/-- An analysis of texts finds what is inferred from the schemas of the catalog. -/
theorem exists_analyze (config : Config) {declarations program : String} {catalog : Catalog}
    {qs : List Query} (hcatalog : Catalog.ofText declarations = .ok catalog)
    (hqs : parseProgram program = .ok qs) :
    ∃ a, analyze config declarations program = .ok a ∧
      a.diagnostics = qs.flatMap (fun q => (q.infer catalog.schema?).diagnostics) ∧
      a.slotSchemas = ((qs.flatMap Query.parts).map fun p => (p.infer catalog.schema?).schema).map
        fun s => .ok (some s) := by
  have hrange : (Analyzer.start catalog config).catalog.InRange :=
    (Catalog.wellNamed_ofText hcatalog).inRange
  have hstem : (Analyzer.start catalog config).slots.stem = config.stem := rfl
  obtain ⟨a, hrun, ha⟩ := Analysis.infers_program qs (Analyzer.reads_spellable hstem hrange)
    (parseProgram_spelled hqs)
  refine ⟨a, ?_, ha.diagnostics, ha.slotSchemas_eq rfl⟩
  unfold analyze
  rw [hcatalog, hqs]
  simp only [Except.mapError, bind, Except.bind, hrun]
  rfl

/-- What is wrong with moved queries is what is wrong with the queries, at the new places. -/
theorem flatMap_infer_relocate (f : Location → Location) (env : Environment) (qs : List Query) :
    ((qs.map (Query.relocate f)).flatMap fun q => (q.infer env).diagnostics) =
      (qs.flatMap fun q => (q.infer env).diagnostics).map (Diagnostic.relocate f) := by
  rw [List.flatMap_map, List.map_flatMap]
  congr 1
  funext q
  rw [q.infer_relocate f env]
  rfl

/-- The parts of moved queries have the schemas of the parts of the queries. -/
theorem map_parts_relocate (f : Location → Location) (env : Environment) (qs : List Query) :
    (((qs.map (Query.relocate f)).flatMap Query.parts).map fun p => (p.infer env).schema) =
      (qs.flatMap Query.parts).map fun p => (p.infer env).schema := by
  rw [List.flatMap_map, List.map_flatMap, List.map_flatMap]
  congr 1
  funext q
  rw [q.parts_relocate f, List.map_map]
  congr 1
  funext p
  rw [Function.comp_apply, p.infer_relocate f env]
  rfl

/-- Programs compose statement by statement, from the text to the result.

Let a text be accepted when a semicolon follows it on the next line, and let a second text be joined
to it on the line after that. The joined text is accepted exactly if the second one is. Its
statements are those of the first text, at the same places, and then those of the second one,
further down by the line feeds of the first text and two more. On every catalog that a text of
declarations describes, and whatever names the slots have, all three texts have an analysis. What is
wrong with the joined text is what is wrong with the first one and then what is wrong with the
second one, that much further down, and its slots have the schemas of the slots of the first text
and then those of the second one. -/
theorem analyze_joined {first : String} {ps : List Query}
    (h : parseProgram (first ++ "\n;") = .ok ps) (second : String) :
    parseProgram first = .ok ps ∧
    ((∃ rs, parseProgram (first ++ "\n;\n" ++ second) = .ok rs) ↔
      ∃ qs, parseProgram second = .ok qs) ∧
    ∀ qs, parseProgram second = .ok qs →
      parseProgram (first ++ "\n;\n" ++ second) =
        .ok (ps ++ qs.map (Query.relocate (.shift (first.toList.count '\n' + 2)))) ∧
      ∀ (config : Config) (declarations : String) (catalog : Catalog),
        Catalog.ofText declarations = .ok catalog →
        ∃ a b c, analyze config declarations first = .ok a ∧
          analyze config declarations second = .ok b ∧
          analyze config declarations (first ++ "\n;\n" ++ second) = .ok c ∧
          c.diagnostics = a.diagnostics ++
            b.diagnostics.map (Diagnostic.relocate (.shift (first.toList.count '\n' + 2))) ∧
          c.slotSchemas = a.slotSchemas ++ b.slotSchemas := by
  obtain ⟨hfirst, hjoined⟩ := parseProgram_joined h second
  refine ⟨hfirst, ⟨?_, ?_⟩, fun qs hqs => ?_⟩
  · -- A joined text is accepted only if the second text is, and then it is.
    rintro ⟨rs, hrs⟩
    obtain ⟨qs, hqs, -⟩ := (hjoined rs).1 hrs
    exact ⟨qs, hqs⟩
  · rintro ⟨qs, hqs⟩
    exact ⟨_, (hjoined _).2 ⟨qs, hqs, rfl⟩⟩
  · have hall := (hjoined _).2 ⟨qs, hqs, rfl⟩
    refine ⟨hall, fun config declarations catalog hcatalog => ?_⟩
    -- All three analyses infer from the schemas of the same catalog.
    obtain ⟨a, ha, hads, haslots⟩ := exists_analyze config hcatalog hfirst
    obtain ⟨b, hb, hbds, hbslots⟩ := exists_analyze config hcatalog hqs
    obtain ⟨c, hc, hcds, hcslots⟩ := exists_analyze config hcatalog hall
    refine ⟨a, b, c, ha, hb, hc, ?_, ?_⟩
    · rw [hcds, List.flatMap_append, flatMap_infer_relocate, hads, hbds]
    · rw [hcslots, List.flatMap_append, List.map_append, map_parts_relocate, List.map_append,
        haslots, hbslots]

set_option maxRecDepth 2000 in
/-- The quote in the comment of the first text opens nothing. What is wrong with the second text
stands on its second line, which is the fifth line of the joined text. -/
theorem analyze_joined_after_comment :
    ∃ ps qs a b c, parseProgram ("<<R>> -- it's\n" ++ "\n;") = .ok ps ∧
      parseProgram "-- S\nS ∪ R" = .ok qs ∧
      analyze .standard "R.a:int" "<<R>> -- it's\n" = .ok a ∧
      analyze .standard "R.a:int" "-- S\nS ∪ R" = .ok b ∧
      analyze .standard "R.a:int" ("<<R>> -- it's\n" ++ "\n;\n" ++ "-- S\nS ∪ R") = .ok c ∧
      b.diagnostics = [⟨.unknownRelation "S", ⟨2, 1⟩⟩, ⟨.arityMismatch .union, ⟨2, 3⟩⟩] ∧
      c.diagnostics = [⟨.invalidArity 1, ⟨1, 1⟩⟩, ⟨.unknownRelation "S", ⟨5, 1⟩⟩,
        ⟨.arityMismatch .union, ⟨5, 3⟩⟩] ∧
      c.slotSchemas = a.slotSchemas ++ b.slotSchemas := by
  have hcatalog : Catalog.ofText "R.a:int" = .ok ⟨#[⟨[⟨"a", .int⟩]⟩], .ofList [("R", 0)]⟩ := by rfl
  have hps : parseProgram ("<<R>> -- it's\n" ++ "\n;") = .ok
      [.unary .closure ⟨"<<", ⟨1, 1⟩⟩ (.relation ⟨"R", ⟨1, 3⟩⟩)] := by rfl
  have hqs : parseProgram "-- S\nS ∪ R" = .ok
      [.binary .union ⟨"∪", ⟨2, 3⟩⟩ (.relation ⟨"S", ⟨2, 1⟩⟩) (.relation ⟨"R", ⟨2, 5⟩⟩)] := by rfl
  obtain ⟨hfirst, -, hsecond⟩ := analyze_joined hps "-- S\nS ∪ R"
  obtain ⟨-, hanalyze⟩ := hsecond _ hqs
  obtain ⟨a, b, c, ha, hb, hc, hds, hslots⟩ := hanalyze .standard _ _ hcatalog
  have hads : a.diagnostics = [⟨.invalidArity 1, ⟨1, 1⟩⟩] := by
    unfold analyze at ha
    rw [hcatalog, hfirst] at ha
    rw [← Except.ok.inj ha]
    rfl
  have hbds : b.diagnostics =
      [⟨.unknownRelation "S", ⟨2, 1⟩⟩, ⟨.arityMismatch .union, ⟨2, 3⟩⟩] := by
    unfold analyze at hb
    rw [hcatalog, hqs] at hb
    rw [← Except.ok.inj hb]
    rfl
  refine ⟨_, _, a, b, c, hps, hqs, ha, hb, hc, hbds, ?_, hslots⟩
  rw [hds, hads, hbds]
  rfl

end RelAlgebra
