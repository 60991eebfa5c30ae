import Mathlib.Data.List.Induction
import Mathlib.Data.List.Nodup
import RelAlgebra.Proofs.Catalog.Declarations
import RelAlgebra.Proofs.Grammar.Validity

/-!
# Declarations by relation

A text of declarations may turn from one relation to another and back. The catalog that it describes
numbers the relations in the order in which they first occur, and gives each of them the attributes
that are declared for it, in the order of the text.

`Catalog.Groups` says this of a catalog and the declarations that were taken into it. A further
declaration is taken into it as well (`Groups.exists_declare`), unless its relation has the
attribute already, and then it is refused (`Groups.declare_of_mem`). So either all declarations are
taken, or those before the first one that repeats an earlier one (`Groups.foldlM_declare`).
-/

namespace RelAlgebra

/-- An element that was added at the end is found there, and all others where they were. -/
theorem idxOf?_concat {α : Type} [DecidableEq α] {l : List α} {a : α} (h : a ∉ l) (b : α) :
    (l ++ [a]).idxOf? b = if b = a then some l.length else l.idxOf? b := by
  have hl : l.findIdx? (· == a) = none := List.idxOf?_eq_none_iff.2 h
  unfold List.idxOf?
  rw [List.findIdx?_append]
  split
  · next hb => simp [hb, hl]
  · next hb => simp [Ne.symm hb]

namespace Declaration

/-- What may be declared only once: an attribute of a relation. -/
def key (d : Declaration) : String × String := (d.relation, d.attr)

/-- The attribute that is declared. -/
def column (d : Declaration) : Attribute := ⟨d.attr, d.type⟩

/-- The declared relations, in the order in which they first occur. -/
def relations (ds : List Declaration) : List String := (ds.map (·.relation)).eraseDups

/-- The attributes that are declared for a relation, in their order. -/
def schemaOf (ds : List Declaration) (name : String) : Schema :=
  ⟨(ds.filter (·.relation = name)).map column⟩

variable (ds : List Declaration) (d : Declaration) (name : String)

/-- The declared relations are those that a declaration names. -/
theorem mem_relations : name ∈ relations ds ↔ name ∈ ds.map (·.relation) := List.mem_eraseDups

/-- One more declaration adds its relation at the end, unless it is there. -/
theorem relations_concat : relations (ds ++ [d]) =
    if d.relation ∈ relations ds then relations ds else relations ds ++ [d.relation] := by
  have hmem : d.relation ∈ relations ds ↔ ∃ e ∈ ds, e.relation = d.relation := by
    rw [mem_relations, List.mem_map]
  -- What the new declaration adds is its relation without those that are there.
  have happend : relations (ds ++ [d]) =
      relations ds ++ ([d.relation].removeAll (ds.map (·.relation))).eraseDups := by
    rw [relations, List.map_append, List.eraseDups_append]
    rfl
  rw [happend]
  split
  · next h => simp [List.removeAll, hmem.1 h]
  · next h => simp [List.removeAll, mt hmem.2 h, List.eraseDups_cons]

/-- Every declared relation is listed once. -/
theorem nodup_relations : (relations ds).Nodup := by
  induction ds using List.reverseRecOn with
  | nil => exact List.nodup_nil
  | append_singleton ds d ih =>
    rw [relations_concat]
    split
    · exact ih
    · next h => exact List.concat_eq_append ▸ ih.concat h

/-- One more declaration adds its attribute to its relation, and nothing to the others. -/
theorem schemaOf_concat : schemaOf (ds ++ [d]) name =
    if name = d.relation then (schemaOf ds name).append d.column else schemaOf ds name := by
  unfold schemaOf
  rw [List.filter_append, List.map_append]
  split
  · next h => simp [h, Schema.append]
  · next h => simp [Ne.symm h]

/-- A relation that is not declared has no attributes. -/
theorem schemaOf_of_not_mem (h : name ∉ relations ds) : schemaOf ds name = ∅ := by
  have hnone : ds.filter (·.relation = name) = [] := by
    rw [List.filter_eq_nil_iff]
    intro d hd hname
    refine h ((mem_relations ..).2 (List.mem_map.2 ⟨d, hd, ?_⟩))
    simpa using hname
  rw [schemaOf, hnone]
  rfl

/-- A relation has the attributes that are declared for it. -/
theorem mem_names_schemaOf (attr : String) :
    attr ∈ (schemaOf ds name).names ↔ (name, attr) ∈ ds.map key := by
  simp [schemaOf, Schema.names, key, column, and_assoc]

/-- With nothing declared twice, an attribute is found as it was declared. -/
theorem find?_schemaOf {ds : List Declaration} {d : Declaration} (h : (ds.map key).Nodup)
    (hd : d ∈ ds) : (schemaOf ds d.relation).find? d.attr = some d.column := by
  cases hfind : (schemaOf ds d.relation).find? d.attr with
  | none =>
    -- The attribute is among those of its relation, so that one is found.
    have hmem := (mem_names_schemaOf ds d.relation d.attr).2 (List.mem_map_of_mem hd)
    rw [← Schema.has_eq_true, ← Schema.find?_isSome, hfind] at hmem
    exact nomatch hmem
  | some a =>
    obtain ⟨e, he, rfl⟩ := List.mem_map.1 (List.mem_of_find?_eq_some hfind)
    obtain ⟨hmem, hrelation⟩ := List.mem_filter.1 he
    -- The attribute that is found was declared for the same relation and has the same name.
    have hkey : e.key = d.key := by
      have hname := List.find?_some hfind
      have hattr : e.attr = d.attr := of_decide_eq_true hname
      rw [key, key, hattr, of_decide_eq_true hrelation]
    rw [List.inj_on_of_nodup_map h hmem hd hkey]

end Declaration

open Declaration

namespace Catalog

/-- The catalog holds what was declared: the handle of a relation is its place among the declared
relations, and the arena has their schemas in this order. -/
structure Groups (c : Catalog) (ds : List Declaration) : Prop where
  handle? : ∀ name, c.handle? name = (relations ds).idxOf? name
  arena : c.arena.toList = (relations ds).map (schemaOf ds)

namespace Groups

/-- The empty catalog holds no declarations. -/
theorem empty : (∅ : Catalog).Groups [] where
  handle? _ := rfl
  arena := rfl

variable {c : Catalog} {ds : List Declaration} {d : Declaration}

/-- The arena has one relation for each declared one. -/
theorem size (h : c.Groups ds) : c.arena.size = (relations ds).length := by
  rw [← Array.length_toList, h.arena, List.length_map]

/-- A declared relation stands for the attributes that were declared for it. -/
theorem schema? (h : c.Groups ds) {name : String} (hname : name ∈ relations ds) :
    c.schema? name = some (schemaOf ds name) := by
  obtain ⟨i, hi⟩ := Option.isSome_iff_exists.1 (List.isSome_idxOf?.2 hname)
  have hat : (relations ds)[i]? = some name := by
    obtain ⟨hlt, heq, -⟩ := List.idxOf?_eq_some_iff.1 hi
    rw [List.getElem?_eq_getElem hlt, heq]
  rw [Catalog.schema?, h.handle?, hi, Option.bind_some, ← Array.getElem?_toList, h.arena,
    List.getElem?_map, hat]
  rfl

/-! ## One more declaration -/

/-- Interning the name of a relation changes nothing if the relation is there, and else creates it
behind the others. -/
theorem intern_cases (h : c.Groups ds) :
    (relations (ds ++ [d]) = relations ds ∧ (c.intern d.relation).2 = c) ∨
    (d.relation ∉ relations ds ∧ relations (ds ++ [d]) = relations ds ++ [d.relation] ∧
      (c.intern d.relation).2 = c.create d.relation) := by
  have hmem : d.relation ∈ relations ds ↔ (c.handle? d.relation).isSome = true := by
    rw [h.handle?, List.isSome_idxOf?]
  rw [relations_concat]
  unfold intern
  cases hd : c.handle? d.relation with
  | some i => exact .inl ⟨if_pos (hmem.2 (by rw [hd]; rfl)), rfl⟩
  | none =>
    have hnew : d.relation ∉ relations ds := fun hin => by simpa [hd] using hmem.1 hin
    exact .inr ⟨hnew, if_neg hnew, rfl⟩

/-- With the name interned, handles are places among the relations that the declaration leaves. -/
theorem handle?_intern (h : c.Groups ds) (name : String) :
    (c.intern d.relation).2.handle? name = (relations (ds ++ [d])).idxOf? name := by
  obtain ⟨hrelations, hintern⟩ | ⟨hnew, hrelations, hintern⟩ := h.intern_cases (d := d)
  · rw [hrelations, hintern, h.handle?]
  · rw [hrelations, hintern, idxOf?_concat hnew, handle?_create, h.handle?, h.size]

/-- With the name interned, the attribute itself is still missing. -/
theorem arena_intern (h : c.Groups ds) :
    (c.intern d.relation).2.arena.toList = (relations (ds ++ [d])).map (schemaOf ds) := by
  obtain ⟨hrelations, hintern⟩ | ⟨hnew, hrelations, hintern⟩ := h.intern_cases (d := d)
  · rw [hrelations, hintern, h.arena]
  · rw [hrelations, hintern, List.map_append, ← h.arena, List.map_singleton,
      schemaOf_of_not_mem _ _ hnew]
    exact Array.toList_push

/-- The handle that is given for the relation is its place. -/
theorem getElem?_intern (h : c.Groups ds) :
    (relations (ds ++ [d]))[(c.intern d.relation).1]? = some d.relation := by
  have hplace : (relations (ds ++ [d])).idxOf? d.relation = some (c.intern d.relation).1 := by
    rw [← h.handle?_intern, Catalog.handle?_intern, if_pos rfl]
  obtain ⟨hlt, heq, -⟩ := List.idxOf?_eq_some_iff.1 hplace
  rw [List.getElem?_eq_getElem hlt, heq]

/-- The schema behind this handle has what was declared for the relation so far. -/
theorem fetch_intern (h : c.Groups ds) :
    (c.intern d.relation).2.fetch (c.intern d.relation).1 = .ok (schemaOf ds d.relation) := by
  rw [fetch_eq_ok_iff, ← Array.getElem?_toList, h.arena_intern, List.getElem?_map,
    h.getElem?_intern]
  rfl

variable (hrelation : d.relation ≠ "") (hattr : d.attr ≠ "")
include hrelation hattr

/-- What was declared before is refused. -/
theorem declare_of_mem (h : c.Groups ds) (hmem : d.key ∈ ds.map key) :
    c.declare d = .error (.duplicate d.relation d.attr) := by
  have hhas : (schemaOf ds d.relation).has d.attr = true :=
    Schema.has_eq_true.2 ((mem_names_schemaOf ..).2 hmem)
  unfold declare
  rw [if_neg (by simp [hrelation, hattr])]
  simp only [h.fetch_intern, hhas, if_true]

/-- What was not declared before is taken. -/
theorem exists_declare (h : c.Groups ds) (hnew : d.key ∉ ds.map key) :
    ∃ e, c.declare d = .ok e ∧ e.Groups (ds ++ [d]) := by
  have hhas : (schemaOf ds d.relation).has d.attr = false := by
    rw [← Bool.not_eq_true, Schema.has_eq_true, mem_names_schemaOf]
    exact hnew
  have hdeclare : c.declare d = .ok { (c.intern d.relation).2 with
      arena := (c.intern d.relation).2.arena.modify (c.intern d.relation).1
        (·.append d.column) } := by
    unfold declare
    rw [if_neg (by simp [hrelation, hattr])]
    simp only [h.fetch_intern, hhas]
    rfl
  refine ⟨_, hdeclare, h.handle?_intern, ?_⟩
  rw [Array.toList_modify, h.arena_intern]
  apply List.ext_getElem?
  intro i
  rw [List.getElem?_modify, List.getElem?_map, List.getElem?_map]
  cases hi : (relations (ds ++ [d]))[i]? with
  | none => rfl
  | some name =>
    -- The relation stands at its handle, and nowhere else among the relations.
    have hname : (c.intern d.relation).1 = i ↔ name = d.relation := by
      constructor
      · rintro rfl
        exact Option.some.inj (hi.symm.trans h.getElem?_intern)
      · rintro rfl
        obtain ⟨hlt, hat⟩ := List.getElem?_eq_some_iff.1 hi
        obtain ⟨hlt', hat'⟩ := List.getElem?_eq_some_iff.1 h.getElem?_intern
        exact (nodup_relations _).getElem_inj_iff.1 (hat'.trans hat.symm)
    simp only [Option.map_some, schemaOf_concat, ← hname]
    split <;> rfl

omit hrelation hattr in
/-- Declarations are taken one after the other, up to the first one that repeats an earlier one. -/
theorem foldlM_declare (h : c.Groups ds) (hds : (ds.map key).Nodup) (more : List Declaration)
    (hnames : ∀ d ∈ more, d.relation ≠ "" ∧ d.attr ≠ "") :
    (∃ e, more.foldlM Catalog.declare c = .ok e ∧ e.Groups (ds ++ more) ∧
      ((ds ++ more).map key).Nodup) ∨
    ∃ (before : List Declaration) (d : Declaration) (after : List Declaration),
      more = before ++ d :: after ∧ ((ds ++ before).map key).Nodup ∧
      d.key ∈ (ds ++ before).map key ∧
      more.foldlM Catalog.declare c = .error (.duplicate d.relation d.attr) := by
  induction more generalizing c ds with
  | nil => exact .inl ⟨c, rfl, by rwa [List.append_nil], by rwa [List.append_nil]⟩
  | cons d more ih =>
    obtain ⟨⟨hrelation, hattr⟩, hmore⟩ := List.forall_mem_cons.1 hnames
    by_cases hmem : d.key ∈ ds.map key
    · -- The declaration repeats an earlier one.
      right
      refine ⟨[], d, more, rfl, by rwa [List.append_nil], by rwa [List.append_nil], ?_⟩
      rw [List.foldlM_cons, h.declare_of_mem hrelation hattr hmem]
      rfl
    · -- The declaration is taken, and the others follow it.
      obtain ⟨e, he, hgroups⟩ := h.exists_declare hrelation hattr hmem
      have hnodup : ((ds ++ [d]).map key).Nodup := by
        rw [List.map_append, List.map_singleton, ← List.concat_eq_append]
        exact hds.concat hmem
      have hrun : (d :: more).foldlM Catalog.declare c = more.foldlM Catalog.declare e := by
        rw [List.foldlM_cons, he]
        rfl
      rw [hrun]
      rcases ih hgroups hnodup hmore with hall | ⟨before, d', after, rfl, hbefore, hd', herror⟩
      · left
        rwa [List.append_assoc, List.singleton_append] at hall
      · right
        rw [List.append_assoc, List.singleton_append] at hbefore hd'
        exact ⟨d :: before, d', after, rfl, hbefore, hd', herror⟩

end Groups

end Catalog

/-- A name that follows its lexical rule is not empty. -/
theorem Declaration.Valid.ne_empty {d : Declaration} (h : d.Valid) :
    d.relation ≠ "" ∧ d.attr ≠ "" := by
  obtain ⟨hrelation, hattr, -⟩ := h
  constructor
  · intro hempty
    rw [hempty] at hrelation
    exact hrelation
  · intro hempty
    rw [hempty] at hattr
    exact hattr

namespace Catalog

/-- A text of declarations describes a catalog that holds all of them, or is refused for the first
declaration that repeats an earlier one. -/
theorem ofText_cases {text : String} {ds : List Declaration}
    (hds : parseDeclarations text = .ok ds) :
    (∃ c, Catalog.ofText text = .ok c ∧ c.Groups ds ∧ (ds.map key).Nodup) ∨
    ∃ (before : List Declaration) (d : Declaration) (after : List Declaration),
      ds = before ++ d :: after ∧ (before.map key).Nodup ∧ d.key ∈ before.map key ∧
      Catalog.ofText text = .error (.declare (.duplicate d.relation d.attr)) := by
  have htext : Catalog.ofText text = (ds.foldlM Catalog.declare ∅).mapError .declare := by
    rw [ofText, hds]
    rfl
  have hnames : ∀ d ∈ ds, d.relation ≠ "" ∧ d.attr ≠ "" := fun d hd =>
    (parseDeclarations_valid hds d hd).ne_empty
  rw [htext]
  rcases Groups.empty.foldlM_declare List.nodup_nil ds hnames with
    ⟨c, hc, hgroups, hnodup⟩ | ⟨before, d, after, heq, hbefore, hd, herror⟩
  · rw [hc]
    exact .inl ⟨c, rfl, hgroups, hnodup⟩
  · rw [herror]
    exact .inr ⟨before, d, after, heq, hbefore, hd, rfl⟩

/-- The catalog of a text holds the declarations of the text, among which nothing is repeated. -/
theorem Groups.of_ofText {text : String} {ds : List Declaration} {c : Catalog}
    (hds : parseDeclarations text = .ok ds) (hc : Catalog.ofText text = .ok c) :
    c.Groups ds ∧ (ds.map key).Nodup := by
  rcases ofText_cases hds with ⟨c', hc', hgroups, hnodup⟩ | ⟨_, d, _, -, -, -, herror⟩
  · obtain rfl : c' = c := Except.ok.inj (hc'.symm.trans hc)
    exact ⟨hgroups, hnodup⟩
  · exact nomatch herror.symm.trans hc

/-- A text of declarations is accepted exactly if it declares no attribute of a relation twice. Then
the bound names are the declared relations, their handles number them in the order in which they
first occur, and each has the attributes that are declared for it. Otherwise the first declaration
that repeats an earlier one is named. -/
theorem ofText_grouped {text : String} {ds : List Declaration}
    (hds : parseDeclarations text = .ok ds) :
    ((∃ c, Catalog.ofText text = .ok c) ↔ (ds.map key).Nodup) ∧
    (∀ c, Catalog.ofText text = .ok c →
      (∀ name, (c.handle? name).isSome = true ↔ name ∈ ds.map (·.relation)) ∧
      (∀ name, c.handle? name = (relations ds).idxOf? name) ∧
      (∀ a b handle, c.handle? a = some handle → c.handle? b = some handle → a = b) ∧
      c.arena.size = (relations ds).length ∧
      ∀ name ∈ ds.map (·.relation), c.find? name = .ok (some (schemaOf ds name))) ∧
    ∀ e, Catalog.ofText text = .error e →
      ∃ (before : List Declaration) (d : Declaration) (after : List Declaration),
        ds = before ++ d :: after ∧ (before.map key).Nodup ∧ d.key ∈ before.map key ∧
        e = .declare (.duplicate d.relation d.attr) ∧
        e.message =
          s!"Schema error: Attribute '{d.attr}' declared twice on relation '{d.relation}'" := by
  rcases ofText_cases hds with
    ⟨c, hc, hgroups, hnodup⟩ | ⟨before, d, after, heq, hbefore, hd, herror⟩
  · -- Nothing is repeated, and the catalog holds the declarations.
    refine ⟨iff_of_true ⟨c, hc⟩ hnodup, ?_, ?_⟩
    · intro c' hc'
      obtain rfl : c = c' := Except.ok.inj (hc.symm.trans hc')
      refine ⟨?_, hgroups.handle?, ?_, hgroups.size, ?_⟩
      · intro name
        rw [hgroups.handle?, List.isSome_idxOf?, mem_relations]
      · intro a b handle ha hb
        rw [hgroups.handle?] at ha hb
        obtain ⟨_, hat, -⟩ := List.idxOf?_eq_some_iff.1 ha
        obtain ⟨_, hat', -⟩ := List.idxOf?_eq_some_iff.1 hb
        exact hat.symm.trans hat'
      · intro name hname
        have hschema := hgroups.schema? ((mem_relations ..).2 hname)
        exact (find?_eq_some_iff ..).2 (Option.bind_eq_some_iff.1 hschema)
    · intro e he
      exact nomatch hc.symm.trans he
  · -- A declaration repeats an earlier one, and the text is refused for it.
    refine ⟨iff_of_false ?_ ?_, ?_, ?_⟩
    · rintro ⟨c, hc⟩
      exact nomatch herror.symm.trans hc
    · -- The key of the repeated declaration stands twice in the list.
      intro hnodup
      rw [heq, List.map_append, List.map_cons] at hnodup
      exact (List.nodup_append.1 hnodup).2.2 _ hd _ (List.mem_cons_self ..) rfl
    · intro c hc
      exact nomatch herror.symm.trans hc
    · intro e he
      obtain rfl := Except.error.inj (herror.symm.trans he)
      exact ⟨before, d, after, heq, hbefore, hd, rfl, rfl⟩

/-- Two relations that take turns, and then the same with an attribute declared twice, of which the
other relation has one of that name. -/
theorem ofText_grouped_turns :
    (∃ c, Catalog.ofText "S.b:Int;R.b:text;S.a:long" = .ok c ∧ c.handle? "S" = some 0 ∧
      c.handle? "R" = some 1 ∧ c.handle? "b" = none ∧
      c.find? "S" = .ok (some ⟨[⟨"b", .int⟩, ⟨"a", .long⟩]⟩)) ∧
    ∃ e, Catalog.ofText "S.b:Int;R.b:text;S.b:long;R.b:T" = .error e ∧
      e.message = "Schema error: Attribute 'b' declared twice on relation 'S'" := by
  have hturns : parseDeclarations "S.b:Int;R.b:text;S.a:long" =
      .ok [⟨"S", "b", .int⟩, ⟨"R", "b", .text⟩, ⟨"S", "a", .long⟩] := by rfl
  have htwice : parseDeclarations "S.b:Int;R.b:text;S.b:long;R.b:T" =
      .ok [⟨"S", "b", .int⟩, ⟨"R", "b", .text⟩, ⟨"S", "b", .long⟩, ⟨"R", "b", .other "T"⟩] := by rfl
  have herror : Catalog.ofText "S.b:Int;R.b:text;S.b:long;R.b:T" =
      .error (.declare (.duplicate "S" "b")) := by rfl
  constructor
  · obtain ⟨haccepted, hcatalog, -⟩ := ofText_grouped hturns
    obtain ⟨c, hc⟩ := haccepted.2 (by decide)
    obtain ⟨-, hhandle, -, -, hfind⟩ := hcatalog c hc
    exact ⟨c, hc, hhandle "S", hhandle "R", hhandle "b", hfind "S" (by simp)⟩
  · obtain ⟨-, -, hrefused⟩ := ofText_grouped htwice
    obtain ⟨_, d, _, -, -, -, hd, hmessage⟩ := hrefused _ herror
    obtain ⟨hrelation, hattr⟩ : "S" = d.relation ∧ "b" = d.attr := by simpa using hd
    rw [← hrelation, ← hattr] at hmessage
    exact ⟨_, herror, hmessage⟩

end Catalog

end RelAlgebra
