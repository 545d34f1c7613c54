import SimpleLR.Analysis
import SimpleLR.Grammar.RuleText
import SimpleLR.Listing.Reports
import SimpleLR.Listing.Sets
import SimpleLR.Listing.Tables
import SimpleLR.Text.Pieces

namespace SimpleLR.Service

/-- The text of an answer: the value, or an object that holds the message of the error. -/
def answer : Except Failure Json → Except Fault Text
  | .ok value => .ok value.compact
  | .error (.rejected error) => .ok (Json.object [("error", .string error.message)]).compact
  | .error (.broken fault) => .error fault

/-- The FIRST and FOLLOW sets of the grammar. -/
def firstFollow (grammar : Text) : Except Fault Text :=
  answer do
    let g ← Failure.ofError (Grammar.ofText grammar)
    return (← Failure.ofFault (g.setListing g.firstFollow)).json

/-- The analysis of the grammar that a text spells. -/
def analysis (grammar : Text) : Except Failure Analysis := do
  Analysis.ofGrammar (← Failure.ofError (Grammar.ofText grammar))

/-- The parsing table of the grammar. -/
def table (grammar : Text) : Except Fault Text :=
  answer do
    let analysis ← analysis grammar
    return (← Failure.ofFault (analysis.grammar.tableListing analysis.table)).json

/-- The reports of the inputs, one to a line. Blank lines are passed over. -/
def parse (grammar inputs : Text) : Except Fault Text :=
  answer do
    let analysis ← analysis grammar
    let lines := (Text.lines inputs).filter (!Text.allBlank ·)
    return (ReportListing.mk (← Failure.ofFault (analysis.parseAll lines))).json

end SimpleLR.Service
