import RelAlgebra.Grammar.Rule

/-!
# Where rules fail

When a text is rejected, the message tells the furthest position at which a rule failed and lists
rules that were tried there. A rule that failed through several others at its own position stands
for them; a rule that failed through just one other at its own position leaves the word to that one.
-/

namespace RelAlgebra

/-- A rule that failed at a position, with the rules that failed, in order, while it was tried. -/
inductive Miss where
  | mk (rule : Rule) (offset : Nat) (inner : List Miss)

/-- The furthest position at which rules failed, and the rules to be listed for it. -/
structure Furthest where
  offset : Nat
  rules : List Rule
  deriving DecidableEq, Repr

namespace Furthest

/-- Nothing has failed. -/
def none : Furthest := ⟨0, []⟩

/-- What is known from two stretches of reading: the further position wins, and at one position all
rules are listed. -/
def merge (f g : Furthest) : Furthest :=
  if f.offset < g.offset then g
  else if g.offset < f.offset then f
  else ⟨f.offset, f.rules ++ g.rules⟩

/-- What is known from the failure of a rule, when `inner` is known from what was tried for it. A
rule stands for itself, unless something failed further on, or just one rule is listed for its own
position. -/
def blame (rule : Rule) (offset : Nat) (inner : Furthest) : Furthest :=
  if offset < inner.offset ∨ (offset = inner.offset ∧ inner.rules.length = 1) then inner
  else ⟨offset, [rule]⟩

end Furthest

mutual

/-- What is known from a failure. -/
def Miss.furthest : Miss → Furthest
  | .mk rule offset inner => .blame rule offset (Miss.furthestAll inner)

/-- What is known from failures one after the other. -/
def Miss.furthestAll : List Miss → Furthest
  | [] => .none
  | m :: ms => m.furthest.merge (Miss.furthestAll ms)

end

end RelAlgebra
