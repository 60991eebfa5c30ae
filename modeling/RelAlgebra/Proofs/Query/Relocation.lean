import RelAlgebra.Proofs.Analysis.Inference

/-!
# Queries at other places

Moving a query gives every word that it keeps the place that a function assigns to the old one. What
is inferred for a query depends on the places of its words only in the places of the diagnostics
(`Query.infer_relocate`), and its parts are moved with it (`Query.parts_relocate`).
-/

namespace RelAlgebra

/-- The place `k` lines further down, in the same column. -/
def Location.shift (k : Nat) (l : Location) : Location := ⟨l.line + k, l.column⟩

/-- The place of a word is moved, its text stays. -/
def Lexeme.relocate (f : Location → Location) (l : Lexeme) : Lexeme := ⟨l.text, f l.loc⟩

/-- A word is spelled the same at every place. -/
@[simp] theorem Lexeme.text_relocate (f : Location → Location) (l : Lexeme) :
    (l.relocate f).text = l.text := rfl

/-- The violation stays, its place is moved. -/
def Diagnostic.relocate (f : Location → Location) (d : Diagnostic) : Diagnostic :=
  ⟨d.violation, f d.loc⟩

/-- A scalar expression with all its words moved. -/
def Scalar.relocate (f : Location → Location) : {level : Level} → Scalar level → Scalar level
  | _, .attr name => .attr (name.relocate f)
  | _, .literal kind word => .literal kind (word.relocate f)
  | _, .paren inner => .paren (inner.relocate f)
  | _, .plain operand => .plain (operand.relocate f)
  | _, .instanceOf operand type => .instanceOf (operand.relocate f) type
  | _, .last operand => .last (operand.relocate f)
  | _, .link operand op mark rest =>
    .link (operand.relocate f) op (mark.relocate f) (rest.relocate f)

/-- An operator with all words of its arguments moved. -/
def UnaryOp.relocate (f : Location → Location) : UnaryOp → UnaryOp
  | project attributes => project (attributes.map (·.relocate f))
  | rename pairs => rename (pairs.map fun (old, new) => (old.relocate f, new.relocate f))
  | select predicate => select (predicate.relocate f)
  | closure => closure

mutual

/-- A query with all its words moved. -/
def Query.relocate (f : Location → Location) : Query → Query
  | .unary op mark operand => .unary (op.relocate f) (mark.relocate f) (operand.relocate f)
  | .binary op mark left right => .binary op (mark.relocate f) (left.relocate f) (right.relocate f)

/-- An operand with all its words moved. -/
def Operand.relocate (f : Location → Location) : Operand → Operand
  | .relation name => .relation (name.relocate f)
  | .nested query => .nested (query.relocate f)

end

/-! ## Moving nowhere -/

/-- A word that is moved to its own place stays as it is. -/
@[simp] theorem Lexeme.relocate_id (l : Lexeme) : l.relocate id = l := rfl

/-- An expression stays as it is if its words are moved to their own places. -/
theorem Scalar.relocate_id {level : Level} (e : Scalar level) : e.relocate id = e := by
  induction e with
  | attr | literal => rfl
  | paren _ ih | plain _ ih | instanceOf _ _ ih | last _ ih => rw [relocate, ih]
  | link _ _ _ _ ih ih' => rw [relocate, ih, ih', Lexeme.relocate_id]

/-- An operator stays as it is if the words of its arguments are moved to their own places. -/
theorem UnaryOp.relocate_id (op : UnaryOp) : op.relocate id = op := by
  cases op with
  | project => simp [relocate]
  | rename => simp [relocate]
  | select predicate => rw [relocate, predicate.relocate_id]
  | closure => rfl

mutual

/-- A query stays as it is if its words are moved to their own places. -/
theorem Query.relocate_id (q : Query) : q.relocate id = q := by
  cases q with
  | unary op mark operand =>
    rw [Query.relocate, op.relocate_id, operand.relocate_id, Lexeme.relocate_id]
  | binary op mark left right =>
    rw [Query.relocate, left.relocate_id, right.relocate_id, Lexeme.relocate_id]

/-- An operand stays as it is if its words are moved to their own places. -/
theorem Operand.relocate_id (o : Operand) : o.relocate id = o := by
  cases o with
  | relation name => rw [Operand.relocate, Lexeme.relocate_id]
  | nested query => rw [Operand.relocate, query.relocate_id]

end

/-! ## Inference for a moved query -/

/-- What is wrong is moved, the kind stays. -/
def Verdict.relocate (f : Location → Location) (v : Verdict) : Verdict :=
  ⟨v.kind, v.operands.map (·.relocate f), v.operators.map (·.relocate f)⟩

/-- What is wrong is moved, the schema stays. -/
def Inference.relocate (f : Location → Location) (i : Inference) : Inference :=
  ⟨i.schema, i.diagnostics.map (·.relocate f)⟩

variable (f : Location → Location)

/-- All that is wrong is moved. -/
@[simp] theorem Verdict.diagnostics_relocate (v : Verdict) :
    (v.relocate f).diagnostics = v.diagnostics.map (·.relocate f) :=
  List.map_append.symm

/-- A complaint about an operator is made at the place of the operator. -/
theorem Tier.complaints_relocate (tier : Tier) (op : tier.Op) (mark : Lexeme) (left right : Kind) :
    tier.complaints op (mark.relocate f) left right =
      (tier.complaints op mark left right).map (·.relocate f) := by
  unfold complaints
  rw [Lexeme.text_relocate]
  cases tier.violation? op mark.text left right <;> rfl

/-- The check of a moved expression finds the same, at the new places. -/
theorem Scalar.check_relocate (s : Schema) {level : Level} (e : Scalar level) :
    (e.relocate f).check s = (e.check s).relocate f := by
  induction e with
  | attr name =>
    simp only [relocate, check, Lexeme.text_relocate]
    split <;> rfl
  | literal | instanceOf => rfl
  | paren _ ih | plain _ ih | last _ ih =>
    simp only [relocate, check, ih, Verdict.diagnostics_relocate]
    rfl
  | link operand op mark rest ih ih' =>
    simp only [relocate, check, ih, ih', Verdict.diagnostics_relocate]
    simp only [Verdict.relocate, Tier.complaints_relocate, List.map_append]

/-- Collecting moved items gives the same attributes, and the diagnostics at the new places. -/
theorem Inference.collect_relocate {α : Type} {item : α → Except Diagnostic Attribute}
    {move : α → α} (h : ∀ x, item (move x) = (item x).mapError (·.relocate f)) (items : List α) :
    collect item (items.map move) = (collect item items).relocate f := by
  simp only [collect_eq, relocate, List.filterMap_map, List.map_filterMap]
  -- An item gives an attribute or a diagnostic, and moving changes only the latter.
  congr 2
  · congr 1
    funext x
    rw [Function.comp_apply, h]
    cases item x <;> rfl
  · funext x
    rw [Function.comp_apply, h]
    cases item x <;> rfl

/-- An attribute that is missing is reported at the place of its name. -/
theorem Schema.require_relocate (s : Schema) (name : Lexeme) :
    s.require (name.relocate f) = (s.require name).mapError (·.relocate f) := by
  simp only [require, Lexeme.text_relocate]
  split <;> rfl

/-- What is inferred for an operator of one operand depends on places only in the diagnostics. -/
theorem UnaryOp.infer_relocate (mark : Lexeme) (s : Schema) (op : UnaryOp) :
    (op.relocate f).infer (mark.relocate f) s = (op.infer mark s).relocate f := by
  cases op with
  | project attributes => exact Inference.collect_relocate f (s.require_relocate f) attributes
  | rename pairs =>
    -- Only the old name of a pair is looked up.
    refine Inference.collect_relocate f (fun (old, new) => ?_) pairs
    simp only [s.require_relocate f, Lexeme.text_relocate]
    cases s.require old <;> rfl
  | select predicate =>
    simp only [relocate, infer, predicate.check_relocate f, Verdict.diagnostics_relocate]
    rfl
  | closure =>
    simp only [relocate, infer, Inference.relocate]
    split <;> rfl

/-- What is inferred for an operator of two operands depends on places only in the diagnostics. -/
theorem BinaryOp.infer_relocate (mark : Lexeme) (l r : Schema) (op : BinaryOp) :
    op.infer (mark.relocate f) l r = (op.infer mark l r).relocate f := by
  cases op with
  | union | intersection | difference | division =>
    simp only [infer]
    split <;> rfl
  | join | cross => rfl

mutual

/-- What is inferred for a moved query is what is inferred for the query, with the diagnostics at
the new places. -/
theorem Query.infer_relocate (env : Environment) (q : Query) :
    (q.relocate f).infer env = (q.infer env).relocate f := by
  cases q with
  | unary op mark operand =>
    simp only [Query.relocate, Query.infer, operand.infer_relocate env, op.infer_relocate]
    simp only [Inference.relocate, List.map_append]
  | binary op mark left right =>
    simp only [Query.relocate, Query.infer, left.infer_relocate env, right.infer_relocate env,
      op.infer_relocate]
    simp only [Inference.relocate, List.map_append]

/-- What is inferred for a moved operand is what is inferred for the operand, with the diagnostics
at the new places. -/
theorem Operand.infer_relocate (env : Environment) (o : Operand) :
    (o.relocate f).infer env = (o.infer env).relocate f := by
  cases o with
  | relation name =>
    simp only [Operand.relocate, Operand.infer, Lexeme.text_relocate]
    split <;> rfl
  | nested query => rw [Operand.relocate, Operand.infer, Operand.infer, query.infer_relocate env]

end

mutual

/-- The parts of a moved query are those of the query, moved. -/
theorem Query.parts_relocate (q : Query) :
    (q.relocate f).parts = q.parts.map (·.relocate f) := by
  cases q with
  | unary op mark operand =>
    simp only [Query.relocate, Query.parts, operand.sourceParts_relocate, List.map_cons,
      Operand.relocate]
  | binary op mark left right =>
    simp only [Query.relocate, Query.parts, left.slotParts_relocate, right.slotParts_relocate,
      List.map_cons, List.map_append, Operand.relocate]

/-- The parts of the operand of an operator with one operand are moved with it. -/
theorem Operand.sourceParts_relocate (o : Operand) :
    (o.relocate f).sourceParts = o.sourceParts.map (·.relocate f) := by
  cases o with
  | relation name => simp only [Operand.relocate, Operand.sourceParts, List.map_nil]
  | nested query =>
    rw [Operand.relocate, Operand.sourceParts, Operand.sourceParts, query.parts_relocate]

/-- So are those of an operand of an operator with two operands. -/
theorem Operand.slotParts_relocate (o : Operand) :
    (o.relocate f).slotParts = o.slotParts.map (·.relocate f) := by
  cases o with
  | relation name =>
    simp only [Operand.relocate, Operand.slotParts, List.map_cons, List.map_nil]
  | nested query =>
    rw [Operand.relocate, Operand.slotParts, Operand.slotParts, query.parts_relocate]

end

end RelAlgebra
