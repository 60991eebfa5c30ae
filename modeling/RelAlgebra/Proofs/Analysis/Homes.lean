import RelAlgebra.Proofs.Analysis.Inference
import RelAlgebra.Proofs.Analysis.Steps

/-!
# The relations of slots

Where the relation of a slot lies, as a function of the part of the query that the slot belongs to.
A slot has a relation of its own, unless its part shares the relation of an operand. `Operand.home`
follows shared relations through any number of operators. `Operand.home_of_shares?_eq_some` and
`Operand.home_of_shares?_eq_none` say what it is, operator by operator, and
`Operand.home_cases` says where it can lie at all.
-/

namespace RelAlgebra

mutual

/-- The relation of the slot of a query. The relation that was made for the slot has the handle
`own`, and those of the slots of its operands come right after it. -/
def Query.home (env : Environment) (named : String → Option Handle) (own : Handle) :
    Query → Handle
  | .unary op mark operand =>
    (op.apply mark (operand.infer env).schema).home (operand.source? env named (own + 1)) own
  | .binary op mark left right =>
    (op.apply mark (left.infer env).schema (right.infer env).schema).home
      (some (left.home env named (own + 1))) own

/-- The relation of the operand of an operator with one operand. -/
def Operand.source? (env : Environment) (named : String → Option Handle) (own : Handle) :
    Operand → Option Handle
  | .relation name => named name.text
  | .nested query => some (query.home env named own)

/-- The relation of the slot of an operand of an operator with two operands. -/
def Operand.home (env : Environment) (named : String → Option Handle) (own : Handle) :
    Operand → Handle
  | .relation name => (named name.text).getD own
  | .nested query => query.home env named own

end

/-- The operand whose slot the part shares the relation of: the query under a closure, or the left
operand of an operator on sets whose operands have equally many attributes. -/
def Operand.shares? (env : Environment) : Operand → Option Operand
  | .nested (.unary .closure _ (.nested query)) => some (.nested query)
  | .nested (.binary op _ left right) =>
    if op ∈ [.union, .intersection, .difference] ∧
        (left.infer env).schema.size = (right.infer env).schema.size then some left
    else none
  | _ => none

/-- The name that the part shares the relation of: a relation as an operand of an operator with two
operands, or the relation under a closure. -/
def Operand.name? : Operand → Option String
  | .relation name => some name.text
  | .nested (.unary .closure _ (.relation name)) => some name.text
  | _ => none

variable {env : Environment} {named : String → Option Handle} {own : Handle}

/-- Operators on sets share their left operand if there are equally many attributes, and the others
never do. -/
theorem BinaryOp.home_apply (op : BinaryOp) (mark : Lexeme) (l r : Schema) (source : Handle) :
    (op.apply mark l r).home (some source) own =
      if op ∈ [.union, .intersection, .difference] ∧ l.size = r.size then source else own := by
  cases op with
  | union | intersection | difference =>
    by_cases hsize : l.size = r.size
    · simp [apply, Effect.home, hsize]
    · simp [apply, Effect.home, hsize]
  | join | cross => rfl
  | division =>
    rw [apply]
    split <;> rfl

/-- A part that shares the relation of another slot shares that of the next one, which is the slot
of the operand. -/
theorem Operand.home_of_shares?_eq_some {p o : Operand} (h : p.shares? env = some o) :
    p.home env named own = o.home env named (own + 1) ∧
      ∃ ps, p.slotParts = p :: (o.slotParts ++ ps) := by
  cases p with
  | relation name => simp [shares?] at h
  | nested q =>
    rw [home, slotParts]
    cases q with
    | unary op mark operand =>
      rw [Query.home, Query.parts]
      cases op with
      | project attributes | rename pairs | select predicate => simp [shares?] at h
      | closure =>
        -- Only over a query does a closure share a slot; over a relation it shares a name.
        cases operand with
        | relation name => simp [shares?] at h
        | nested q =>
          obtain rfl : .nested q = o := by simpa [shares?] using h
          rw [source?, home, sourceParts, slotParts]
          exact ⟨rfl, [], by simp⟩
    | binary op mark left right =>
      rw [Query.home, Query.parts, BinaryOp.home_apply]
      simp only [shares?, Option.ite_none_right_eq_some, Option.some.injEq] at h
      obtain ⟨hshares, rfl⟩ := h
      exact ⟨if_pos hshares, right.slotParts, rfl⟩

/-- Any other part has the relation of its name, if it has one that is bound, and else its own. -/
theorem Operand.home_of_shares?_eq_none {p : Operand} (h : p.shares? env = none) :
    p.home env named own = (p.name?.bind named).getD own := by
  cases p with
  | relation name => rw [home]; rfl
  | nested q =>
    rw [home]
    cases q with
    | unary op mark operand =>
      rw [Query.home]
      cases op with
      | project attributes | rename pairs | select predicate => rfl
      | closure =>
        cases operand with
        | relation name => rw [source?]; rfl
        | nested q => simp [shares?] at h
    | binary op mark left right =>
      rw [Query.home, BinaryOp.home_apply]
      simp only [shares?, ite_eq_right_iff, reduceCtorEq, imp_false] at h
      rw [if_neg h]
      rfl

/-- The effect of an operator leaves the slot with one of two relations. -/
theorem Effect.home_eq_or (e : Effect) (source : Option Handle) (own : Handle) :
    e.home source own = own ∨ source = some (e.home source own) := by
  obtain ⟨output, ds⟩ := e
  cases output with
  | own s => exact .inl rfl
  | shared =>
    cases source with
    | none => exact .inl rfl
    | some handle => exact .inr rfl

mutual

/-- The relation of the slot of a query has a name, or was made for one of the slots of the
query. -/
theorem Query.home_cases (q : Query) (own : Handle) :
    (∃ name, named name = some (q.home env named own)) ∨
      ∃ k < q.parts.length, q.home env named own = own + k := by
  cases q with
  | unary op mark operand =>
    rw [Query.home, Query.parts, List.length_cons]
    rcases Effect.home_eq_or (op.apply mark (operand.infer env).schema)
      (operand.source? env named (own + 1)) own with hown | hsource
    · exact .inr ⟨0, by omega, hown⟩
    · -- The relation is that of the operand, which is a name or a query with slots of its own.
      generalize Effect.home _ _ _ = handle at hsource ⊢
      cases operand with
      | relation name =>
        rw [Operand.source?] at hsource
        exact .inl ⟨name.text, hsource⟩
      | nested q =>
        rw [Operand.source?, Option.some.injEq] at hsource
        rw [Operand.sourceParts, ← hsource]
        rcases q.home_cases (own + 1) with hname | ⟨k, hk, heq⟩
        · exact .inl hname
        · exact .inr ⟨k + 1, by omega, by rw [heq, Nat.add_right_comm, Nat.add_assoc]⟩
  | binary op mark left right =>
    rw [Query.home, Query.parts, List.length_cons, List.length_append]
    rcases Effect.home_eq_or (op.apply mark (left.infer env).schema (right.infer env).schema)
      (some (left.home env named (own + 1))) own with hown | hsource
    · exact .inr ⟨0, by omega, hown⟩
    · -- The relation is that of the left operand, whose slots come right after this one.
      rw [Option.some.injEq] at hsource
      rw [← hsource]
      rcases left.home_cases (own + 1) with hname | ⟨k, hk, heq⟩
      · exact .inl hname
      · exact .inr ⟨k + 1, by omega, by rw [heq, Nat.add_right_comm, Nat.add_assoc]⟩

/-- So has the relation of the slot of an operand of an operator with two operands. -/
theorem Operand.home_cases (o : Operand) (own : Handle) :
    (∃ name, named name = some (o.home env named own)) ∨
      ∃ k < o.slotParts.length, o.home env named own = own + k := by
  cases o with
  | relation name =>
    rw [Operand.home, Operand.slotParts]
    cases hname : named name.text with
    | some handle => exact .inl ⟨name.text, hname⟩
    | none => exact .inr ⟨0, by simp, rfl⟩
  | nested q =>
    rw [Operand.home, Operand.slotParts]
    exact q.home_cases own

end

/-! ## The parts of a part -/

/-- After every part in the list come the parts of that part, in their order. -/
def Closed (parts : List Operand) : Prop :=
  ∀ i p, parts[i]? = some p → p.slotParts <+: parts.drop i

/-- Without parts there is nothing to come after them. -/
theorem Closed.nil : Closed [] := by simp [Closed]

/-- Lists of parts one after the other keep the parts of each part together. -/
theorem Closed.append {ps qs : List Operand} (hps : Closed ps) (hqs : Closed qs) :
    Closed (ps ++ qs) := by
  intro i p hp
  by_cases hi : i < ps.length
  · -- The part is in the first list, and so are its parts.
    rw [List.getElem?_append_left hi] at hp
    rw [List.drop_append_of_le_length (by omega)]
    exact (hps i p hp).trans (List.prefix_append ..)
  · -- The part is in the second list.
    rw [List.getElem?_append_right (by omega)] at hp
    rw [List.drop_append, List.drop_eq_nil_of_le (by omega), List.nil_append]
    exact hqs (i - ps.length) p hp

/-- A part may come before the parts that are its own. -/
theorem Closed.cons {p : Operand} {ps : List Operand} (hps : Closed ps)
    (hp : p.slotParts = p :: ps) : Closed (p :: ps) := by
  intro i q hq
  cases i with
  | zero =>
    obtain rfl : p = q := by simpa using hq
    rw [hp]
    exact List.prefix_refl _
  | succ i => exact hps i q (by simpa using hq)

mutual

/-- The parts of a query come after it. -/
theorem Query.closed_parts (q : Query) : Closed q.parts := by
  cases q with
  | unary op mark operand =>
    rw [Query.parts]
    refine operand.closed_sourceParts.cons ?_
    rw [Operand.slotParts, Query.parts]
  | binary op mark left right =>
    rw [Query.parts]
    refine (left.closed_slotParts.append right.closed_slotParts).cons ?_
    rw [Operand.slotParts, Query.parts]

/-- So do those of the operand of an operator with one operand. -/
theorem Operand.closed_sourceParts (o : Operand) : Closed o.sourceParts := by
  cases o with
  | relation name =>
    rw [Operand.sourceParts]
    exact .nil
  | nested q =>
    rw [Operand.sourceParts]
    exact q.closed_parts

/-- So do those of an operand of an operator with two operands. -/
theorem Operand.closed_slotParts (o : Operand) : Closed o.slotParts := by
  cases o with
  | relation name =>
    rw [Operand.slotParts]
    exact Closed.nil.cons (by rw [Operand.slotParts])
  | nested q =>
    rw [Operand.slotParts]
    exact q.closed_parts

end

/-- The parts of a program. -/
theorem closed_flatMap_parts (qs : List Query) : Closed (qs.flatMap Query.parts) := by
  induction qs with
  | nil => exact .nil
  | cons q qs ih => exact q.closed_parts.append ih

end RelAlgebra
