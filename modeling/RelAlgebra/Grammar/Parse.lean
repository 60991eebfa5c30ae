import RelAlgebra.Grammar.Body

/-!
# Parsing

A whole text is read by one of the two start rules. A text that is not in the language is rejected
with the furthest place that was reached and the rules that were expected there.
-/

namespace RelAlgebra

/-- Why a text is not in the language: at the place `loc`, one of the rules was expected. -/
structure SyntaxError where
  loc : Location
  expected : List Rule
  deriving DecidableEq, Repr

namespace SyntaxError

/-- The error of a text that was rejected after the given failures. -/
def ofMisses (s : List Char) (misses : List Miss) : SyntaxError :=
  let furthest := Miss.furthestAll misses
  ⟨.ofOffset s furthest.offset, Rule.all.filter (· ∈ furthest.rules)⟩

/-- Words joined as alternatives. -/
def alternatives : List String → String
  | [] => ""
  | [a] => a
  | [a, b] => a ++ " or " ++ b
  | words => String.join (words.dropLast.map (· ++ ", ")) ++ "or " ++ words.getLast?.getD ""

/-- What was expected. -/
def message (e : SyntaxError) : String := "expected " ++ alternatives (e.expected.map (·.label))

end SyntaxError

namespace Rule

/-- The value that a rule reads from the start of a text; a start rule reads all of it. -/
def parse (r : Rule) (text : String) : Except SyntaxError r.Value :=
  let reading := r.read (.start text.toList)
  match reading.outcome with
  | .matched value _ => .ok value
  | _ => .error (.ofMisses text.toList reading.misses)

end Rule

/-- The queries of a program text. -/
def parseProgram (text : String) : Except SyntaxError (List Query) := Rule.program.parse text

/-- The declarations of a catalog's description. -/
def parseDeclarations (text : String) : Except SyntaxError (List Declaration) :=
  Rule.declarations.parse text

end RelAlgebra
