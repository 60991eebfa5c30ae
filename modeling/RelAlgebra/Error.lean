import RelAlgebra.Analysis.Slots
import RelAlgebra.Catalog.Snapshot
import RelAlgebra.Grammar.Parse

/-!
# Errors

The reasons for which a text, a snapshot or a setting gets no answer.
-/

namespace RelAlgebra

/-- Why there is no answer. -/
inductive Error where
  | parse (error : SyntaxError)
  | declare (error : DeclareError)
  | snapshot (fault : Snapshot.Fault)
  | config (error : ConfigError)
  | dangling (fault : Dangling)
  deriving DecidableEq, Repr

/-- The text that describes the reason. -/
def Error.message : Error → String
  | parse e => s!"Parse error at line {e.loc.line}, column {e.loc.column}: {e.message}"
  | declare (.dangling fault) => fault.message
  | declare e => s!"Schema error: {e.message}"
  | snapshot fault => s!"Catalog error: Failed to deserialize catalog: {fault.message}"
  | config e => s!"Configuration error: {e.message}"
  | dangling fault => fault.message

end RelAlgebra
