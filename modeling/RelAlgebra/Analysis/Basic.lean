import RelAlgebra.Analysis.Record
import RelAlgebra.Analysis.Slots
import RelAlgebra.Query.Effect

/-!
# Analysis of queries

An analyzer walks through queries and gives every operator a slot, which receives the schema of its
result. So does every relation that stands as an operand of an operator with two operands. The slot
of an operator is taken before those of its operands, and the left operand comes before the right
one. Diagnostics are collected and never stop the walk. A dangling handle stops it; what was done up
to then stays done.
-/

namespace RelAlgebra

/-- The state of an analysis. -/
structure Analyzer where
  catalog : Catalog
  slots : Slots
  /-- The diagnostics so far, the oldest first. -/
  diagnostics : List Diagnostic := []
  /-- The records so far, the oldest first. -/
  log : List Record := []

/-- Steps of an analysis. A step that reads a dangling handle ends all. -/
abbrev Analysis := EStateM Dangling Analyzer

namespace Analyzer

/-- Starts an analysis of queries to a catalog. -/
def start (catalog : Catalog) (config : Config) : Analyzer := { catalog, slots := ⟨config.stem, 0⟩ }

/-- Starts anew on the catalog as it is; the log goes on. -/
def restart (a : Analyzer) (config : Config) : Analyzer :=
  { a with slots := ⟨config.stem, 0⟩, diagnostics := [] }

/-- Forgets the diagnostics. -/
def clear (a : Analyzer) : Analyzer := { a with diagnostics := [] }

/-- Forgets the records. -/
def clearLog (a : Analyzer) : Analyzer := { a with log := [] }

/-- Adds a record to the log. -/
def write (a : Analyzer) (r : Record) : Analyzer := { a with log := a.log ++ [r] }

/-- Adds a diagnostic, and a record of it. -/
def report (a : Analyzer) (d : Diagnostic) : Analyzer :=
  { a with diagnostics := a.diagnostics ++ [d] }.write (.reported d)

/-- Adds diagnostics in their order. -/
def reportAll (a : Analyzer) (ds : List Diagnostic) : Analyzer := ds.foldl report a

/-- The handle of a slot. -/
def slotHandle? (a : Analyzer) (slot : Nat) : Option Handle := a.catalog.handle? (a.slots.name slot)

/-- The schema of a slot. -/
def slotSchema? (a : Analyzer) (slot : Nat) : Except Dangling (Option Schema) :=
  a.catalog.find? (a.slots.name slot)

/-- Takes the next slot, and writes a record of it. -/
def allocate (a : Analyzer) : Analyzer :=
  let (slots, catalog) := a.slots.allocate a.catalog
  { a with catalog, slots }.write
    (.allocated slots.last (slots.name slots.last) a.catalog.arena.size)

/-- Binds a slot to a relation that is there already. -/
def share (a : Analyzer) (slot : Nat) (handle : Handle) : Analyzer :=
  { a with catalog := a.catalog.assign (a.slots.name slot) handle }.write (.aliased slot handle)

end Analyzer

namespace Analysis

/-- Takes a new slot. -/
def allocate : Analysis Nat :=
  modifyGet fun a => (a.slots.last + 1, a.allocate)

/-- The handle of a relation that is referred to by name. -/
def lookup (name : Lexeme) : Analysis (Option Handle) :=
  modifyGet fun a =>
    match a.catalog.handle? name.text with
    | some handle => (some handle, a)
    | none => (none, a.report ⟨.unknownRelation name.text, name.loc⟩)

/-- The schema behind a handle, which is empty if there is no handle. -/
def schemaOf : Option Handle → Analysis Schema
  | none => return ∅
  | some handle => do
    match (← get).catalog.fetch handle with
    | .ok s => return s
    | .error fault => throw fault

/-- Writes attributes into the relation of a slot. -/
def fill (slot : Nat) (s : Schema) : Analysis Unit := do
  let a ← get
  match a.slotHandle? slot with
  | none => return
  | some handle =>
    match a.catalog.update handle (·.putAll s.attributes) with
    | .ok catalog => set { a with catalog }
    | .error fault => throw fault

/-- Puts the effect of an operator into its slot; `source` is the relation that it may share. -/
def settle (slot : Nat) (source : Option Handle) (e : Effect) : Analysis Unit := do
  modify (·.reportAll e.diagnostics)
  match e.output, source with
  | .own s, _ => fill slot s
  | .shared, some handle => modify (·.share slot handle)
  | .shared, none => return

end Analysis

open Analysis in
mutual

/-- Analyzes a query and gives its slot. -/
def Query.analyze : Query → Analysis Nat
  | .unary op mark operand => do
    let slot ← allocate
    let source ← operand.source
    let s ← schemaOf source
    settle slot source (op.apply mark s)
    return slot
  | .binary op mark left right => do
    let slot ← allocate
    let l ← left.slot
    let r ← right.slot
    let source := (← get).slotHandle? l
    let s ← schemaOf source
    let t ← schemaOf ((← get).slotHandle? r)
    settle slot source (op.apply mark s t)
    return slot

/-- Analyzes the operand of an operator with one operand and gives its relation. -/
def Operand.source : Operand → Analysis (Option Handle)
  | .relation name => lookup name
  | .nested query => do
    let slot ← query.analyze
    return (← get).slotHandle? slot

/-- Analyzes an operand of an operator with two operands and gives its slot. -/
def Operand.slot : Operand → Analysis Nat
  | .relation name => do
    let slot ← allocate
    match ← lookup name with
    | some handle => modify (·.share slot handle)
    | none => pure ()
    return slot
  | .nested query => query.analyze

end

/-- Analyzes queries one after the other. -/
def Analysis.queries : List Query → Analysis Unit
  | [] => return
  | query :: more => do
    let slot ← query.analyze
    modify (·.write (.answered slot))
    Analysis.queries more

/-- Analyzes a program and gives the number of all diagnostics so far. -/
def Analysis.program : List Query → Analysis Nat
  | [] => do
    modify (·.write .nothing)
    return (← get).diagnostics.length
  | qs => do
    modify (·.write (.started qs.length))
    Analysis.queries qs
    modify fun a => a.write (.finished a.diagnostics.length)
    return (← get).diagnostics.length

end RelAlgebra
