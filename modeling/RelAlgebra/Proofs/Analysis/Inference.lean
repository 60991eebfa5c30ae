import RelAlgebra.Analysis.Basic

/-!
# Inference of schemas

The schema of a query, and what is wrong with it, as a function of the query and of the schemas that
names stand for. There are no slots, handles or shared relations here: the schema of a query comes
from the schemas of its operands by the rule of its operator. `UnaryOp.infer_eq` and
`BinaryOp.infer_eq` say that the effects of operators follow these rules.
-/

namespace RelAlgebra

/-- What is inferred: a schema, and what is wrong, in the order in which it is found. -/
structure Inference where
  schema : Schema
  diagnostics : List Diagnostic
  deriving DecidableEq, Repr

/-- The schemas that names stand for. -/
abbrev Environment : Type := String → Option Schema

/-- Takes items in their order. Each one gives an attribute, which is written, or a diagnostic. -/
def Inference.collect {α : Type} (item : α → Except Diagnostic Attribute) (items : List α) :
    Inference :=
  items.foldl (fun r x =>
    match item x with
    | .ok a => ⟨r.schema.put a, r.diagnostics⟩
    | .error d => ⟨r.schema, r.diagnostics ++ [d]⟩) ⟨∅, []⟩

/-- The attribute of the given name, which has to be there. -/
def Schema.require (s : Schema) (name : Lexeme) : Except Diagnostic Attribute :=
  match s.find? name.text with
  | some a => .ok a
  | none => .error (.missingAttribute name)

/-- The rules of the operators with one operand, whose schema is `s`. -/
def UnaryOp.infer (mark : Lexeme) (s : Schema) : UnaryOp → Inference
  | project attributes => .collect s.require attributes
  | rename pairs => .collect (fun (old, new) => (⟨new.text, ·.type⟩) <$> s.require old) pairs
  | select predicate => ⟨.ofAttributes s.attributes, (predicate.check s).diagnostics⟩
  | closure => ⟨s, if s.size = 2 then [] else [⟨.invalidArity s.size, mark.loc⟩]⟩

/-- The rules of the operators with two operands, whose schemas are `l` and `r`. -/
def BinaryOp.infer (mark : Lexeme) (l r : Schema) (op : BinaryOp) : Inference :=
  match op with
  | union | intersection | difference =>
    if l.size = r.size then ⟨l, []⟩ else ⟨∅, [⟨.arityMismatch op, mark.loc⟩]⟩
  | join | cross => ⟨.ofAttributes (l.attributes ++ r.attributes), []⟩
  | division =>
    if r.size < l.size ∧ ∀ name ∈ r.names, name ∈ l.names then
      ⟨.ofAttributes (l.attributes.filter (·.name ∉ r.names)), []⟩
    else
      ⟨∅, [⟨.invalidDivision mark.text, mark.loc⟩]⟩

mutual

/-- The inference for a query: the operands first, the left one before the right one, then the
operator. -/
def Query.infer (env : Environment) : Query → Inference
  | .unary op mark operand =>
    let source := operand.infer env
    let result := op.infer mark source.schema
    ⟨result.schema, source.diagnostics ++ result.diagnostics⟩
  | .binary op mark left right =>
    let l := left.infer env
    let r := right.infer env
    let result := op.infer mark l.schema r.schema
    ⟨result.schema, l.diagnostics ++ r.diagnostics ++ result.diagnostics⟩

/-- The inference for an operand. A name that stands for nothing has the empty schema. -/
def Operand.infer (env : Environment) : Operand → Inference
  | .relation name =>
    match env name.text with
    | some s => ⟨s, []⟩
    | none => ⟨∅, [⟨.unknownRelation name.text, name.loc⟩]⟩
  | .nested query => query.infer env

end

mutual

/-- The parts of a query that have a slot, in the order of the slots: every operator, and every
relation that is an operand of an operator with two operands. -/
def Query.parts : Query → List Operand
  | .unary op mark operand => .nested (.unary op mark operand) :: operand.sourceParts
  | .binary op mark left right =>
    .nested (.binary op mark left right) :: (left.slotParts ++ right.slotParts)

/-- The parts of an operand of an operator with one operand. -/
def Operand.sourceParts : Operand → List Operand
  | .relation _ => []
  | .nested query => query.parts

/-- The parts of an operand of an operator with two operands. -/
def Operand.slotParts : Operand → List Operand
  | .relation name => [.relation name]
  | .nested query => query.parts

end

/-- The first part of a query is the query. -/
theorem Query.parts_eq_cons (q : Query) : ∃ ps, q.parts = .nested q :: ps := by
  cases q with
  | unary op mark operand => exact ⟨_, by rw [Query.parts]⟩
  | binary op mark left right => exact ⟨_, by rw [Query.parts]⟩

/-- The first part of an operand of an operator with two operands is the operand. -/
theorem Operand.slotParts_eq_cons (o : Operand) : ∃ ps, o.slotParts = o :: ps := by
  cases o with
  | relation name => exact ⟨[], by rw [Operand.slotParts]⟩
  | nested q => rw [Operand.slotParts]; exact q.parts_eq_cons

/-! ## Writing attributes one by one -/

namespace Schema

/-- An attribute with a new name goes to the end. -/
theorem putList_of_not_mem {a : Attribute} {l : List Attribute}
    (h : a.name ∉ l.map (·.name)) : putList a l = l ++ [a] := by
  induction l with
  | nil => rfl
  | cons b l ih =>
    obtain ⟨hb, hl⟩ : ¬ a.name = b.name ∧ a.name ∉ l.map (·.name) := by simpa using h
    rw [putList, if_neg (Ne.symm hb), ih hl, List.cons_append]

/-- Attributes whose names are all different and new go to the end. -/
theorem putAll_of_nodup {l as : List Attribute} (h : ((l ++ as).map (·.name)).Nodup) :
    putAll ⟨l⟩ as = ⟨l ++ as⟩ := by
  unfold putAll
  induction as generalizing l with
  | nil => simp
  | cons a as ih =>
    have hsplit : l ++ a :: as = l ++ [a] ++ as := by simp
    -- All names are different, so that of the next attribute is not yet there.
    have ha : a.name ∉ l.map (·.name) := by
      rw [List.map_append, List.map_cons, List.nodup_append] at h
      intro hm
      exact h.2.2 _ hm _ (List.mem_cons_self ..) rfl
    rw [List.foldl_cons, put, putList_of_not_mem ha, hsplit]
    exact ih (hsplit ▸ h)

/-- A schema without repeated names is what is built from its attributes. -/
theorem ofAttributes_attributes {s : Schema} (h : s.Distinct) : ofAttributes s.attributes = s := by
  have hnil : (([] ++ s.attributes).map Attribute.name).Nodup := h
  exact putAll_of_nodup hnil

/-- Writing attributes keeps the names distinct. -/
theorem Distinct.putAll {s : Schema} (h : s.Distinct) (as : List Attribute) :
    (s.putAll as).Distinct := by
  unfold Schema.putAll
  induction as generalizing s with
  | nil => exact h
  | cons a as ih => exact ih (h.put a)

/-- A schema that is built by writing attributes has no repeated names. -/
theorem distinct_ofAttributes (as : List Attribute) : (ofAttributes as).Distinct :=
  Distinct.putAll (s := ∅) List.nodup_nil as

/-- Under a name that was written there is what was written last, and what was there before under
the others. -/
theorem find?_putAll (s : Schema) (as : List Attribute) (name : String) :
    (s.putAll as).find? name = (as.reverse.find? (·.name = name)).or (s.find? name) := by
  unfold putAll
  induction as generalizing s with
  | nil => rfl
  | cons a as ih =>
    rw [List.foldl_cons, ih, find?_put, List.reverse_cons, List.find?_append, Option.or_assoc]
    congr 1
    by_cases h : a.name = name
    · simp [h]
    · simp [h, Ne.symm h]

/-- The names that are new come after the others, in the order in which they are first written. -/
theorem names_putAll (s : Schema) (as : List Attribute) :
    (s.putAll as).names = s.names ++ ((as.map (·.name)).filter (· ∉ s.names)).eraseDups := by
  unfold putAll
  induction as generalizing s with
  | nil => simp
  | cons a as ih =>
    rw [List.foldl_cons, ih, names_put, List.map_cons]
    split
    · next h => rw [List.filter_cons_of_neg (by simpa using h)]
    · next h =>
      -- What is left of the other names is new, and differs from that of `a`.
      rw [List.filter_cons_of_pos (by simpa using h), List.eraseDups_cons, List.filter_filter,
        List.append_assoc, List.singleton_append]
      congr 4
      funext name
      rw [Bool.eq_iff_iff]
      simp [and_comm]

end Schema

/-! ## The effects of operators follow the rules -/

/-- What an effect makes of the schema of the relation that it may share. -/
def Effect.result (e : Effect) (source : Schema) : Inference :=
  match e.output with
  | .own s => ⟨s, e.diagnostics⟩
  | .shared => ⟨source, e.diagnostics⟩

/-- The result of an effect reports what the effect does. -/
@[simp] theorem Effect.diagnostics_result (e : Effect) (source : Schema) :
    (e.result source).diagnostics = e.diagnostics := by
  unfold result
  split <;> rfl

/-- Collecting gives the attributes, written in their order, and the diagnostics, in theirs. -/
theorem Inference.collect_eq {α : Type} (item : α → Except Diagnostic Attribute) (items : List α) :
    collect item items =
      ⟨.ofAttributes (items.filterMap fun x => (item x).toOption),
        items.filterMap fun x => match item x with | .ok _ => none | .error d => some d⟩ := by
  -- The fold may start with anything that was collected before.
  have hfold : ∀ r : Inference, items.foldl (fun r x =>
      match item x with
      | .ok a => ⟨r.schema.put a, r.diagnostics⟩
      | .error d => ⟨r.schema, r.diagnostics ++ [d]⟩) r =
      ⟨r.schema.putAll (items.filterMap fun x => (item x).toOption),
        r.diagnostics ++
          items.filterMap fun x => match item x with | .ok _ => none | .error d => some d⟩ := by
    induction items with
    | nil => intro r; simp [Schema.putAll]
    | cons x items ih =>
      intro r
      rw [List.foldl_cons, ih]
      cases hx : item x with
      | ok a => simp [hx, Except.toOption, Schema.putAll]
      | error d => simp [hx, Except.toOption]
  exact hfold ⟨∅, []⟩

/-- The attributes that are required and there are those that are found. -/
theorem Schema.toOption_require (s : Schema) (name : Lexeme) :
    (s.require name).toOption = s.find? name.text := by
  unfold require
  split <;> simp_all [Except.toOption]

/-- The diagnostics of required attributes are those of the names that the schema lacks. -/
theorem Schema.missing_eq (s : Schema) (names : List Lexeme) :
    s.missing names =
      names.filterMap fun x => match s.require x with | .ok _ => none | .error d => some d := by
  unfold missing
  induction names with
  | nil => rfl
  | cons name names ih =>
    have hsome : (s.find? name.text).isSome = s.has name.text := find?_isSome
    cases hf : s.find? name.text with
    | some a =>
      have hhas : s.has name.text = true := by rw [← hsome, hf]; rfl
      have hreq : s.require name = .ok a := by unfold require; rw [hf]
      rw [List.filter_cons_of_neg (by simp [hhas]), ih, List.filterMap_cons, hreq]
    | none =>
      have hhas : s.has name.text = false := by rw [← hsome, hf]; rfl
      have hreq : s.require name = .error (.missingAttribute name) := by unfold require; rw [hf]
      rw [List.filter_cons_of_pos (by simp [hhas]), List.map_cons, ih, List.filterMap_cons, hreq]

/-- The operators with one operand have the effect that their rules say. -/
theorem UnaryOp.infer_eq (mark : Lexeme) (s : Schema) (op : UnaryOp) :
    op.infer mark s = (op.apply mark s).result s := by
  cases op with
  | project attributes =>
    simp only [infer, apply, Effect.result, Inference.collect_eq, Schema.toOption_require,
      Schema.missing_eq, Schema.projected]
  | rename pairs =>
    simp only [infer, apply, Effect.result, Inference.collect_eq, Schema.missing_eq,
      Schema.renamed, List.filterMap_map]
    -- Both sides write the same attributes and report the same names.
    congr 2
    · congr 1
      funext pair
      rw [← Schema.toOption_require]
      cases s.require pair.1 <;> rfl
    · funext pair
      simp only [Function.comp]
      cases s.require pair.1 <;> rfl
  | select predicate => rfl
  | closure => rfl

/-- The test of a division, in the words of its rule. -/
theorem Schema.divisible_eq_true {l r : Schema} :
    l.divisible r = true ↔ r.size < l.size ∧ ∀ name ∈ r.names, name ∈ l.names := by
  simp [divisible]

/-- The attributes that a division leaves, in the words of its rule. -/
theorem Schema.quotient_eq (l r : Schema) :
    l.quotient r = l.attributes.filter (·.name ∉ r.names) := by
  unfold quotient
  congr 1
  funext a
  rw [Bool.eq_iff_iff]
  simp [← has_eq_true]

/-- The operators with two operands have the effect that their rules say. -/
theorem BinaryOp.infer_eq (mark : Lexeme) (l r : Schema) (op : BinaryOp) :
    op.infer mark l r = (op.apply mark l r).result l := by
  -- The three set operators differ in nothing but the diagnostic that names them.
  have hset (op : BinaryOp) :
      (if l.size = r.size then ⟨l, []⟩ else ⟨∅, [⟨.arityMismatch op, mark.loc⟩]⟩ : Inference) =
        Effect.result (if l.size = r.size then ⟨.shared, []⟩
          else ⟨.own ∅, [⟨.arityMismatch op, mark.loc⟩]⟩) l := by
    split <;> rfl
  cases op with
  | union => exact hset .union
  | intersection => exact hset .intersection
  | difference => exact hset .difference
  | join => rfl
  | cross => rfl
  | division =>
    simp only [infer, apply, ← Schema.divisible_eq_true, ← Schema.quotient_eq]
    split <;> rfl

/-- A relation of its own, if an operator with one operand makes one, has no repeated names. -/
theorem UnaryOp.distinct_of_own {mark : Lexeme} {s t : Schema} {op : UnaryOp}
    (h : (op.apply mark s).output = .own t) : t.Distinct := by
  cases op with
  | closure => exact absurd h (by simp [apply])
  | project | rename | select =>
    rw [apply, Output.own.injEq] at h
    rw [← h]
    exact Schema.distinct_ofAttributes _

/-- A relation of its own, if an operator with two operands makes one, has no repeated names. -/
theorem BinaryOp.distinct_of_own {mark : Lexeme} {l r t : Schema} {op : BinaryOp}
    (h : (op.apply mark l r).output = .own t) : t.Distinct := by
  have hempty : Schema.Distinct ∅ := List.nodup_nil
  cases op with
  | union | intersection | difference =>
    simp only [apply] at h
    split at h
    · simp at h
    · rw [Output.own.injEq] at h; rw [← h]; exact hempty
  | join | cross =>
    simp only [apply, Output.own.injEq] at h
    rw [← h]
    exact Schema.distinct_ofAttributes _
  | division =>
    simp only [apply] at h
    split at h
    · rw [Output.own.injEq] at h; rw [← h]; exact Schema.distinct_ofAttributes _
    · rw [Output.own.injEq] at h; rw [← h]; exact hempty

end RelAlgebra
