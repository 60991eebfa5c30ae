import RelAlgebra.Catalog.Bindings
import RelAlgebra.Diagnostic

/-!
# The log of an analysis

Every step of an analysis that changes slots or finds something wrong leaves a record.
-/

namespace RelAlgebra

/-- How much a record matters. -/
inductive Severity where
  | info
  | debug
  | warn
  deriving DecidableEq, Repr

/-- An event of an analysis. -/
inductive Record where
  /-- There were no queries. -/
  | nothing
  | started (queries : Nat)
  | finished (errors : Nat)
  /-- The slot was bound to a new relation. -/
  | allocated (slot : Nat) (name : String) (handle : Handle)
  /-- The slot was bound to a relation that was there before. -/
  | aliased (slot : Nat) (handle : Handle)
  /-- The result of a query is in the slot. -/
  | answered (slot : Nat)
  | reported (diagnostic : Diagnostic)
  deriving DecidableEq, Repr

namespace Record

/-- How much a record matters: what is wrong is a warning. -/
def severity : Record → Severity
  | nothing | started _ | finished _ => .info
  | allocated .. | aliased .. | answered _ => .debug
  | reported _ => .warn

/-- The text of a record. -/
def text : Record → String
  | nothing => "Nothing to be analysed"
  | started queries => s!"Starting the semantic analysis of {queries} statement(s)"
  | finished errors => s!"Semantic analysis finished with {errors} error(s)"
  | allocated slot name handle => s!"allocated slot {slot} as '{name}' (relation #{handle})"
  | aliased slot handle => s!"slot {slot} aliases relation #{handle}"
  | answered slot => s!"statement result in slot {slot}"
  | reported diagnostic => diagnostic.render

end Record

end RelAlgebra
