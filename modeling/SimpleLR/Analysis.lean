import SimpleLR.Parser.Run
import SimpleLR.Table.Compile

namespace SimpleLR

/-- The automaton of a grammar, with the grammar augmented. -/
def Grammar.automaton (g : Grammar) : Except Failure (Grammar × Automaton) := do
  let g ← g.augment
  return (g, ← Failure.ofFault g.collection)

/-- Everything that is known of a grammar. -/
structure Analysis where
  grammar : Grammar
  sets : FirstFollow
  automaton : Automaton
  table : Table
  deriving DecidableEq

namespace Analysis

/-- The analysis of an augmented grammar whose automaton is known. -/
def ofAutomaton (g : Grammar) (automaton : Automaton) : Except Failure Analysis := do
  let sets := g.firstFollow
  return ⟨g, sets, automaton, ← automaton.table g sets⟩

/-- The analysis of a grammar. -/
def ofGrammar (g : Grammar) : Except Failure Analysis := do
  let (g, automaton) ← g.automaton
  ofAutomaton g automaton

/-- The report of the run on an input. -/
def parse (analysis : Analysis) (input : Text) : Except Fault Report :=
  analysis.table.parse analysis.grammar input

/-- The reports of the runs on several inputs, each on its own. -/
def parseAll (analysis : Analysis) (inputs : List Text) : Except Fault (List Report) :=
  inputs.mapM analysis.parse

end Analysis

end SimpleLR
