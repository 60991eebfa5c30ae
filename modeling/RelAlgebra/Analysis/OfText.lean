import RelAlgebra.Analysis.Basic
import RelAlgebra.Error

/-!
# From texts to answers

A text of declarations describes a catalog, and a program text is analyzed on it. The first reason
for which there is no answer is given: the declarations are read before the program.
-/

namespace RelAlgebra

/-- The catalog that a text of declarations describes. -/
def Catalog.ofText (declarations : String) : Except Error Catalog := do
  let ds ← (parseDeclarations declarations).mapError .parse
  (Catalog.ofDeclarations ds).mapError .declare

/-- Analyzes a program text on a catalog that a text of declarations describes. -/
def analyze (config : Config) (declarations program : String) : Except Error Analyzer := do
  let catalog ← Catalog.ofText declarations
  let queries ← (parseProgram program).mapError .parse
  match (Analysis.program queries).run (.start catalog config) with
  | .ok _ a => return a
  | .error fault _ => throw (.dangling fault)

end RelAlgebra
