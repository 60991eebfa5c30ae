import Mathlib.Data.Finset.Card
import Mathlib.Data.Finset.SDiff
import RelAlgebra.Proofs.Analysis.Inference

/-!
# The algebra of schemas

A schema without repeated names is determined by the list of its names and by what is found under
each of them (`Schema.ext_of_find?`). A join writes the attributes of its right operand after those
of its left operand, so that a name has its place from the first of them that has it and its
attribute from the last. The laws of joins follow from this.

A division keeps the attributes of the dividend whose names the divisor does not have. Counting them
shows that the test of a division, which compares numbers of attributes, comes to a proper inclusion
of sets of names (`Schema.divisible_iff`).
-/

namespace RelAlgebra

/-- Nothing is erased from a list without duplicates. -/
theorem eraseDups_of_nodup {α : Type} [DecidableEq α] {l : List α} (h : l.Nodup) :
    l.eraseDups = l := by
  induction l with
  | nil => rfl
  | cons a l ih =>
    obtain ⟨ha, hl⟩ := List.nodup_cons.1 h
    have hkeep : l.filter (fun b => !b == a) = l := by
      rw [List.filter_eq_self]
      intro b hb
      have hne : b ≠ a := fun hba => ha (hba ▸ hb)
      simpa using hne
    rw [List.eraseDups_cons, hkeep, ih hl]

namespace Schema

/-- The set of the names of the attributes. -/
def nameSet (s : Schema) : Finset String := s.names.toFinset

variable {s t l r : Schema} {name : String}

/-- The set holds the names of the schema. -/
@[simp] theorem mem_nameSet : name ∈ s.nameSet ↔ name ∈ s.names := List.mem_toFinset

/-- Without repeated names there are as many names as attributes. -/
theorem card_nameSet (h : s.Distinct) : s.nameSet.card = s.size := by
  rw [nameSet, List.toFinset_card_of_nodup h, names, List.length_map, size]

/-! ## Names and what is found under them -/

/-- Nothing is found under exactly the names that the schema does not have. -/
theorem find?_eq_none_iff : s.find? name = none ↔ name ∉ s.names := by
  rw [← has_eq_true, ← find?_isSome, Option.not_isSome_iff_eq_none]

/-- Without repeated names, every attribute is found under its name. -/
theorem find?_eq_some_iff (h : s.Distinct) {a : Attribute} :
    s.find? name = some a ↔ a ∈ s.attributes ∧ a.name = name := by
  have hfound {b : Attribute} (hb : s.find? name = some b) : b ∈ s.attributes ∧ b.name = name := by
    have hname := List.find?_some hb
    exact ⟨List.mem_of_find?_eq_some hb, of_decide_eq_true hname⟩
  refine ⟨hfound, ?_⟩
  rintro ⟨ha, rfl⟩
  cases hb : s.find? a.name with
  | none => exact absurd (List.mem_map_of_mem ha) (find?_eq_none_iff.1 hb)
  | some b =>
    -- Both attributes have the name, so that they are the same.
    obtain ⟨hmem, hname⟩ := hfound hb
    rw [List.inj_on_of_nodup_map h hmem ha hname]

/-- The attributes are what is found under the names. -/
theorem attributes_eq (h : s.Distinct) : s.attributes = s.names.filterMap s.find? := by
  have hfind : s.attributes.filterMap (s.find? ∘ Attribute.name) = s.attributes.filterMap some :=
    List.filterMap_congr fun a ha => (find?_eq_some_iff h).2 ⟨ha, rfl⟩
  rw [names, List.filterMap_map, hfind, List.filterMap_some]

/-- Schemas without repeated names are the same if they have the same names in the same order and
the same attributes under them. -/
theorem ext_of_find? (hs : s.Distinct) (ht : t.Distinct) (hnames : s.names = t.names)
    (hfind : ∀ name, s.find? name = t.find? name) : s = t := by
  have hattributes : s.attributes = t.attributes := by
    rw [attributes_eq hs, attributes_eq ht, hnames, funext hfind]
  obtain ⟨_⟩ := s
  obtain ⟨_⟩ := t
  exact congrArg Schema.mk hattributes

/-! ## Joins -/

/-- The schema of a join. -/
def join (l r : Schema) : Schema := .ofAttributes (l.attributes ++ r.attributes)

/-- A join has no repeated names. -/
theorem distinct_join (l r : Schema) : (l.join r).Distinct := distinct_ofAttributes _

/-- A join writes the attributes of the right operand into the left one. -/
theorem join_eq_putAll (hl : l.Distinct) : l.join r = l.putAll r.attributes := by
  have hsplit : l.join r = (ofAttributes l.attributes).putAll r.attributes := List.foldl_append
  rw [hsplit, ofAttributes_attributes hl]

/-- The names of the left operand come first, and then the other names of the right operand. -/
theorem names_join (hl : l.Distinct) (hr : r.Distinct) :
    (l.join r).names = l.names ++ r.names.filter (· ∉ l.names) := by
  have hnodup : (r.names.filter (· ∉ l.names)).Nodup := List.Nodup.filter _ hr
  rw [join_eq_putAll hl, names_putAll]
  exact congrArg (l.names ++ ·) (eraseDups_of_nodup hnodup)

/-- A shared name has the attribute of the right operand. -/
theorem find?_join (hl : l.Distinct) (hr : r.Distinct) (name : String) :
    (l.join r).find? name = (r.find? name).or (l.find? name) := by
  -- There is only one write for each name, so that the last one is the first one.
  have hreverse : find? ⟨r.attributes.reverse⟩ name = r.find? name := by
    have hdistinct : Distinct ⟨r.attributes.reverse⟩ := by
      simpa [Distinct, names] using hr
    ext a
    rw [find?_eq_some_iff hdistinct, find?_eq_some_iff hr, List.mem_reverse]
  rw [join_eq_putAll hl, find?_putAll, ← hreverse]
  rfl

/-- A join has the names of both operands. -/
theorem nameSet_join (hl : l.Distinct) (hr : r.Distinct) :
    (l.join r).nameSet = l.nameSet ∪ r.nameSet := by
  ext name
  simp only [mem_nameSet, names_join hl hr, Finset.mem_union, List.mem_append, List.mem_filter,
    decide_eq_true_eq]
  tauto

variable {x y z : Schema}

/-- It does not matter which of two joins is made first. -/
theorem join_assoc (hx : x.Distinct) (hy : y.Distinct) (hz : z.Distinct) :
    (x.join y).join z = x.join (y.join z) := by
  have hxy := distinct_join x y
  have hyz := distinct_join y z
  apply ext_of_find? (distinct_join ..) (distinct_join ..)
  · rw [names_join hxy hz, names_join hx hyz, names_join hx hy, names_join hy hz,
      List.filter_append, List.filter_filter, List.append_assoc]
    -- Either way, the names of `z` that are added are those that neither `x` nor `y` has.
    congr 3
    funext name
    rw [Bool.eq_iff_iff]
    simp only [List.mem_append, List.mem_filter, decide_eq_true_eq, Bool.and_eq_true]
    tauto
  · intro name
    rw [find?_join hxy hz, find?_join hx hyz, find?_join hx hy, find?_join hy hz, Option.or_assoc]

/-- A schema joined with itself is that schema. -/
theorem join_self (hx : x.Distinct) : x.join x = x := by
  apply ext_of_find? (distinct_join ..) hx
  · simp [names_join hx hx]
  · intro name
    rw [find?_join hx hx, Option.or_self]

/-- Joining nothing to a schema leaves it as it is. -/
theorem join_empty (hx : x.Distinct) : x.join ∅ = x := by
  rw [join_eq_putAll hx]
  rfl

/-- Joining a schema to nothing leaves it as it is. -/
theorem empty_join (hx : x.Distinct) : join ∅ x = x := ofAttributes_attributes hx

/-- If shared names have the same type in both operands, changing the order of the operands changes
nothing but the order of the attributes. -/
theorem toFinset_join_comm (hx : x.Distinct) (hy : y.Distinct)
    (h : ∀ a ∈ x.attributes, ∀ b ∈ y.attributes, a.name = b.name → a.type = b.type) :
    (x.join y).attributes.toFinset = (y.join x).attributes.toFinset := by
  have hfind (name : String) : (x.join y).find? name = (y.join x).find? name := by
    -- A name of one operand has its attribute, and a name of both has the same one in both.
    rw [find?_join hx hy, find?_join hy hx]
    cases hfa : x.find? name with
    | none => simp
    | some a =>
      cases hfb : y.find? name with
      | none => simp
      | some b =>
        obtain ⟨ha, hname⟩ := (find?_eq_some_iff hx).1 hfa
        obtain ⟨hb, hname'⟩ := (find?_eq_some_iff hy).1 hfb
        have hsame : a.name = b.name := hname.trans hname'.symm
        have hab : a = b := congrArg₂ Attribute.mk hsame (h a ha b hb hsame)
        rw [hab]
  have hmem {s : Schema} (hs : s.Distinct) (a : Attribute) :
      a ∈ s.attributes ↔ s.find? a.name = some a := by
    simp [find?_eq_some_iff hs]
  ext a
  rw [List.mem_toFinset, List.mem_toFinset, hmem (distinct_join ..), hmem (distinct_join ..), hfind]

/-! ## Quotients -/

/-- The names that the divisor does not have remain. -/
theorem nameSet_quotient (l r : Schema) : nameSet ⟨l.quotient r⟩ = l.nameSet \ r.nameSet := by
  have hnames : names ⟨l.quotient r⟩ = l.names.filter (· ∉ r.names) := by
    have hmap : l.names.filter (· ∉ r.names) =
        (l.attributes.filter (·.name ∉ r.names)).map Attribute.name := List.filter_map
    rw [hmap, ← quotient_eq]
    rfl
  ext name
  rw [mem_nameSet, hnames, List.mem_filter, decide_eq_true_iff, Finset.mem_sdiff, mem_nameSet,
    mem_nameSet]

/-- A quotient has no repeated names if the dividend has none. -/
theorem distinct_quotient (hl : l.Distinct) (r : Schema) : Distinct ⟨l.quotient r⟩ :=
  (List.filter_sublist.map _).nodup hl

/-- If all names of the divisor are in the dividend, as many attributes remain as the dividend has
more. -/
theorem size_quotient (hl : l.Distinct) (hr : r.Distinct) (h : r.nameSet ⊆ l.nameSet) :
    size ⟨l.quotient r⟩ = l.size - r.size := by
  rw [← card_nameSet (distinct_quotient hl r), nameSet_quotient, Finset.card_sdiff_of_subset h,
    card_nameSet hl, card_nameSet hr]

/-- The test of a division comes to a proper inclusion of sets of names. -/
theorem divisible_iff (hl : l.Distinct) (hr : r.Distinct) :
    l.divisible r = true ↔ r.nameSet ⊂ l.nameSet := by
  have htest : l.divisible r = true ↔ r.nameSet.card < l.nameSet.card ∧ r.nameSet ⊆ l.nameSet := by
    simp [divisible_eq_true, card_nameSet hl, card_nameSet hr, Finset.subset_iff]
  rw [htest]
  constructor
  · rintro ⟨hcard, hsub⟩
    refine hsub.ssubset_of_ne fun heq => ?_
    rw [heq] at hcard
    exact Nat.lt_irrefl _ hcard
  · intro h
    exact ⟨Finset.card_lt_card h, h.subset⟩

end Schema

end RelAlgebra
