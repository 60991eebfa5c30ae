import RelAlgebra.Proofs.Query.Algebra

/-!
# The columns of projections, renamings and selections

These three operators write attributes one by one into a new schema, so that a name that is written
again keeps its place and loses its attribute. What comes out is said here without the writing. The
names stand in the order in which they are first written, each once (`Schema.names_ofAttributes`),
and have the attributes that are written last (`Schema.find?_ofAttributes`).
-/

namespace RelAlgebra.Schema

variable {s : Schema} {name : String}

/-- The names of the attributes are there once each, in the order in which they first come. -/
theorem names_ofAttributes (as : List Attribute) :
    (ofAttributes as).names = (as.map (·.name)).eraseDups := by
  have hnames := names_putAll ∅ as
  have hempty : names ∅ = [] := rfl
  simp only [hempty, List.nil_append, List.not_mem_nil, not_false_eq_true, decide_true,
    List.filter_true] at hnames
  exact hnames

/-- Under a name the last attribute of that name is found. -/
theorem find?_ofAttributes (as : List Attribute) (name : String) :
    (ofAttributes as).find? name = as.reverse.find? (·.name = name) := by
  have hempty : find? ∅ name = none := rfl
  rw [ofAttributes, find?_putAll]
  exact (congrArg _ hempty).trans Option.or_none

/-- What is found under a name has that name. -/
theorem name_of_find? {a : Attribute} (h : s.find? name = some a) : a.name = name := by
  have hname := List.find?_some h
  exact of_decide_eq_true hname

/-- An attribute is found under every name of the schema. -/
theorem exists_find? (h : name ∈ s.names) : ∃ a, s.find? name = some a :=
  Option.ne_none_iff_exists'.1 fun hnone => find?_eq_none_iff.1 hnone h

/-- The names that a schema lacks are reported one by one, in their order. -/
theorem missing_eq_map (s : Schema) (attributes : List Lexeme) :
    s.missing attributes = (attributes.filter (·.text ∉ s.names)).map .missingAttribute := by
  unfold missing
  congr 2
  funext name
  rw [Bool.eq_iff_iff]
  simp [← has_eq_true]

/-- Nothing is missing if the schema has all the names. -/
theorem missing_eq_nil {attributes : List Lexeme} (h : ∀ word ∈ attributes, word.text ∈ s.names) :
    s.missing attributes = [] := by
  rw [missing_eq_map, List.map_eq_nil_iff, List.filter_eq_nil_iff]
  intro word hword
  simpa using h word hword

/-! ## Renamings -/

/-- The new names of those that the schema has are given, in the order of the pairs. -/
theorem names_renamed (s : Schema) (pairs : List (Lexeme × Lexeme)) :
    (s.renamed pairs).map (·.name) = (pairs.filter (·.1.text ∈ s.names)).map (·.2.text) := by
  unfold renamed
  induction pairs with
  | nil => rfl
  | cons pair pairs ih =>
    obtain ⟨old, new⟩ := pair
    rw [List.filterMap_cons]
    by_cases hold : old.text ∈ s.names
    · obtain ⟨a, ha⟩ := exists_find? hold
      rw [List.filter_cons_of_pos (by simpa using hold), List.map_cons, ← ih]
      simp only [ha, Option.map_some, List.map_cons]
    · rw [List.filter_cons_of_neg (by simpa using hold), ← ih]
      simp only [find?_eq_none_iff.2 hold, Option.map_none]

/-- A new name has the type of the attribute that was last given it. -/
theorem find?_renaming {pairs : List (Lexeme × Lexeme)}
    (h : name ∈ (ofAttributes (s.renamed pairs)).names) :
    ∃ pair a, (pairs.filter fun p => p.1.text ∈ s.names ∧ p.2.text = name).getLast? = some pair ∧
      s.find? pair.1.text = some a ∧
      (ofAttributes (s.renamed pairs)).find? name = some ⟨name, a.type⟩ := by
  -- A pair gives an attribute of the name if the schema has the old name and the new name is the
  -- one.
  have htest (p : Lexeme × Lexeme) :
      ((s.find? p.1.text).map fun a => (⟨p.2.text, a.type⟩ : Attribute)).any (·.name = name) =
        decide (p.1.text ∈ s.names ∧ p.2.text = name) := by
    by_cases hold : p.1.text ∈ s.names
    · obtain ⟨a, ha⟩ := exists_find? hold
      simp [ha, hold]
    · simp [find?_eq_none_iff.2 hold, hold]
  obtain ⟨b, hb⟩ := exists_find? h
  rw [hb]
  rw [find?_ofAttributes, renamed, ← List.filterMap_reverse, List.find?_filterMap] at hb
  simp only [htest, ← List.getLast?_filter, Option.bind_eq_some_iff] at hb
  obtain ⟨pair, hlast, hpair⟩ := hb
  obtain ⟨a, ha, rfl⟩ := Option.map_eq_some_iff.1 hpair
  have hnew : pair.2.text = name := by
    have hmem := List.mem_of_getLast? hlast
    exact (of_decide_eq_true (List.mem_filter.1 hmem).2).2
  exact ⟨pair, a, hlast, ha, by rw [hnew]⟩

/-! ## Projections -/

/-- A projection renames every name to itself. -/
theorem projected_eq_renamed (s : Schema) (attributes : List Lexeme) :
    s.projected attributes = s.renamed (attributes.map fun word => (word, word)) := by
  unfold projected renamed
  rw [List.filterMap_map]
  apply List.filterMap_congr
  intro word _
  show s.find? word.text = (s.find? word.text).map fun a => ⟨word.text, a.type⟩
  cases hfind : s.find? word.text with
  | none => rfl
  | some a => rw [Option.map_some, ← name_of_find? hfind]

/-- A projection has the names that are asked for and there, once each. -/
theorem names_projection (s : Schema) (attributes : List Lexeme) :
    (ofAttributes (s.projected attributes)).names =
      ((attributes.map (·.text)).filter (· ∈ s.names)).eraseDups := by
  rw [names_ofAttributes, projected_eq_renamed, names_renamed, List.filter_map, List.filter_map,
    List.map_map]
  rfl

/-- A projection has the names that are asked for and there, in the order in which they are first
asked for, with the attributes that they have. -/
theorem attributes_projection (s : Schema) (attributes : List Lexeme) :
    (ofAttributes (s.projected attributes)).attributes =
      ((attributes.map (·.text)).filter (· ∈ s.names)).eraseDups.filterMap s.find? := by
  -- Whichever attribute is written last under a name, it is the one that is found under it.
  have hfind : ∀ name ∈ (ofAttributes (s.projected attributes)).names,
      (ofAttributes (s.projected attributes)).find? name = s.find? name := by
    intro name hname
    obtain ⟨a, ha⟩ := exists_find? hname
    have hwritten : a ∈ s.projected attributes := by
      rw [find?_ofAttributes] at ha
      exact List.mem_reverse.1 (List.mem_of_find?_eq_some ha)
    obtain ⟨word, -, hword⟩ := List.mem_filterMap.1 hwritten
    have hsame : word.text = name := (name_of_find? hword).symm.trans (name_of_find? ha)
    rw [ha, ← hsame, hword]
  rw [attributes_eq (distinct_ofAttributes _), List.filterMap_congr hfind, names_projection]

/-- A projection of a projection to the same names, if none of them was missing, is that projection
again. -/
theorem projection_projection {attributes again : List Lexeme}
    (hall : ∀ word ∈ attributes, word.text ∈ s.names)
    (hagain : again.map (·.text) = attributes.map (·.text)) {t : Schema}
    (ht : t = ofAttributes (s.projected attributes)) :
    ofAttributes (t.projected again) = t ∧ t.missing again = [] := by
  -- Where all names are there, a projection leaves none of them out.
  have hkeep {u : Schema} {words : List Lexeme} (h : ∀ word ∈ words, word.text ∈ u.names) :
      (words.map (·.text)).filter (· ∈ u.names) = words.map (·.text) := by
    rw [List.filter_eq_self]
    intro name hname
    obtain ⟨word, hword, rfl⟩ := List.mem_map.1 hname
    exact decide_eq_true (h word hword)
  have hnames : t.names = (again.map (·.text)).eraseDups := by
    rw [ht, names_projection, hkeep hall, hagain]
  have hpresent : ∀ word ∈ again, word.text ∈ t.names := by
    intro word hword
    rw [hnames]
    exact List.mem_eraseDups.2 (List.mem_map_of_mem hword)
  constructor
  · have hdistinct : t.Distinct := ht ▸ distinct_ofAttributes _
    have hattributes : (ofAttributes (t.projected again)).attributes = t.attributes := by
      rw [attributes_projection, hkeep hpresent, ← hnames, ← attributes_eq hdistinct]
    exact congrArg Schema.mk hattributes
  · exact missing_eq_nil hpresent

/-! ## Selections -/

/-- A selection keeps a schema exactly if it has no repeated names. -/
theorem ofAttributes_attributes_iff : ofAttributes s.attributes = s ↔ s.Distinct :=
  ⟨fun h => h ▸ distinct_ofAttributes _, ofAttributes_attributes⟩

end RelAlgebra.Schema
