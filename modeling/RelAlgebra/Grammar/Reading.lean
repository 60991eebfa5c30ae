import RelAlgebra.Grammar.Cursor
import RelAlgebra.Grammar.Miss

/-!
# Readings

Reading at a position gives a value and the position after it, or fails. In both cases the reading
also tells which rules failed on the way. The outcome never depends on the failures that were
collected, as the lemmas on `outcome` say.
-/

namespace RelAlgebra

/-- How reading at a position ends. -/
inductive Outcome (α : Type) where
  | matched (value : α) (next : Cursor)
  | failed
  /-- The bound on the depth of rules was too small. -/
  | exhausted

namespace Outcome

variable {α β : Type}

/-- Goes on after a match. -/
def bind (x : Outcome α) (f : α → Cursor → Outcome β) : Outcome β :=
  match x with
  | matched value next => f value next
  | failed => failed
  | exhausted => exhausted

/-- Takes the other way after a failure. -/
def orElse (x y : Outcome α) : Outcome α :=
  match x with
  | failed => y
  | _ => x

end Outcome

/-- The outcome of reading, with the rules that failed on the way. -/
structure Reading (α : Type) where
  outcome : Outcome α
  misses : List Miss

namespace Reading

variable {α β : Type}

/-- A match on the way to which nothing failed. -/
def matched (value : α) (next : Cursor) : Reading α := ⟨.matched value next, []⟩

/-- A failure that no rule is named for. -/
def failed : Reading α := ⟨.failed, []⟩

/-- The end of the bound. -/
def exhausted : Reading α := ⟨.exhausted, []⟩

/-- Adds failures that came before. -/
def after (misses : List Miss) (x : Reading α) : Reading α := ⟨x.outcome, misses ++ x.misses⟩

/-- Goes on after a match. -/
def bind (x : Reading α) (f : α → Cursor → Reading β) : Reading β :=
  match x.outcome with
  | .matched value next => (f value next).after x.misses
  | .failed => ⟨.failed, x.misses⟩
  | .exhausted => ⟨.exhausted, x.misses⟩

/-- Applies a function to the value of a match. -/
def map (f : α → β) (x : Reading α) : Reading β := x.bind fun value next => matched (f value) next

/-- Takes the other way after a failure. -/
def orElse (x : Reading α) (y : Unit → Reading α) : Reading α :=
  match x.outcome with
  | .failed => (y ()).after x.misses
  | _ => x

/-- Records that the rule failed if it did. The failures inside a rule that matched are passed on
as they are. -/
def settle (r : Rule) (offset : Nat) (x : Reading α) : Reading α :=
  match x.outcome with
  | .failed => ⟨.failed, [.mk r offset x.misses]⟩
  | _ => x

/-- Reads as often as it matches, with layout before each time. The bound is larger than the number
of times that can match. -/
def repeated (read : Cursor → Reading α) : Nat → Cursor → Reading (List α)
  | 0, _ => exhausted
  | bound + 1, c =>
    let x := read c.skipLayout
    match x.outcome with
    | .matched value next => ((repeated read bound next).map (value :: ·)).after x.misses
    | .failed => ⟨.matched [] c, x.misses⟩
    | .exhausted => ⟨.exhausted, x.misses⟩

/-- A match is its own outcome. -/
@[simp] theorem outcome_matched (value : α) (next : Cursor) :
    (matched value next).outcome = .matched value next := rfl

/-- A failure is its own outcome. -/
@[simp] theorem outcome_failed : (failed : Reading α).outcome = .failed := rfl

/-- Running out of depth is its own outcome. -/
@[simp] theorem outcome_exhausted : (exhausted : Reading α).outcome = .exhausted := rfl

/-- Earlier failures on the record do not change the outcome. -/
@[simp] theorem outcome_after (misses : List Miss) (x : Reading α) :
    (x.after misses).outcome = x.outcome := rfl

/-- The outcome of two readings in a row depends only on the outcomes of the two. -/
@[simp] theorem outcome_bind (x : Reading α) (f : α → Cursor → Reading β) :
    (x.bind f).outcome = x.outcome.bind fun value next => (f value next).outcome := by
  obtain ⟨_ | _ | _, _⟩ := x <;> rfl

/-- A function of the value leaves the end of a match where it is. -/
@[simp] theorem outcome_map (x : Reading α) (f : α → β) :
    (x.map f).outcome = x.outcome.bind fun value next => .matched (f value) next := by
  simp [map]

/-- The outcome of a choice depends only on the outcomes of the two alternatives. -/
@[simp] theorem outcome_orElse (x : Reading α) (y : Unit → Reading α) :
    (x.orElse y).outcome = x.outcome.orElse (y ()).outcome := by
  obtain ⟨_ | _ | _, _⟩ := x <;> rfl

/-- Recording a rule that failed does not change its outcome. -/
@[simp] theorem outcome_settle (x : Reading α) (r : Rule) (offset : Nat) :
    (x.settle r offset).outcome = x.outcome := by
  obtain ⟨_ | _ | _, _⟩ := x <;> rfl

end Reading

end RelAlgebra
