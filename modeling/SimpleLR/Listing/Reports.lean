import SimpleLR.Json
import SimpleLR.Listing.Productions
import SimpleLR.Markup.Html
import SimpleLR.Parser.Trace
import SimpleLR.Text.Basic

namespace SimpleLR

def StackEntry.json : StackEntry → Json
  | .state number => .number number
  | .symbol name => .string name

/-- The JSON of a step: its kind, and where it leads or what went wrong. -/
def StepAction.json : StepAction → Json
  | .shift target => .object [("type", .string "Shift"), ("target", .number target)]
  | .reduce production => .object [("type", .string "Reduce"), ("target", .number production)]
  | .goto target => .object [("type", .string "Goto"), ("target", .number target)]
  | .accept => .object [("type", .string "Accept")]
  | .error message => .object [("type", .string "Error"), ("target", .string message)]

namespace TraceRow

/-- Stack, input and step as the cells of a table. -/
def cells (row : TraceRow) : List Text :=
  [Text.joined " " (row.stack.map StackEntry.text), Text.joined " " row.input, row.action.text]

def json (row : TraceRow) : Json :=
  .object [("stack", .array (row.stack.map StackEntry.json)), ("input", Json.strings row.input),
    ("action", row.action.json)]

end TraceRow

namespace Report

/-- The names of the columns of a trace. -/
def heading : List Text := ["Stack", "String", "Action to perform"]

/-- The result of a run in words. -/
def verdict (report : Report) : Text :=
  match report.outcome.error? with
  | none => "Accepted."
  | some error => "Unaccepted. Error: " ++ error.message ++ "."

def plain (report : Report) : Text :=
  report.input ++ ": " ++ report.verdict ++ "\n"
    ++ Text.table (heading :: report.trace.map TraceRow.cells)

/-- The trace as a table. -/
def htmlTrace (report : Report) : Text :=
  Html.table (Html.headingRow heading ++ report.trace.flatMap fun row => Html.dataRow row.cells)

def json (report : Report) : Json :=
  .object [("input", .string report.input), ("accepted", .bool report.outcome.isAccepted),
    ("error", Json.ofOption .string (report.outcome.error?.map ParseError.message)),
    ("trace", .array (report.trace.map TraceRow.json))]

end Report

/-- The reports of several inputs. -/
structure ReportListing where
  reports : List Report
  deriving DecidableEq, Repr

namespace ReportListing

def plain (listing : ReportListing) : Text := Text.joined "\n\n" (listing.reports.map Report.plain)

/-- A table of inputs and results, and a table of the trace of each input. -/
def html (listing : ReportListing) : Text :=
  let results := Html.table (Html.headingRow ["Input string", "Parse result"]
    ++ listing.reports.flatMap fun report => Html.dataRow [report.input, report.verdict])
  Text.joined "\n" (results :: listing.reports.map Report.htmlTrace)

def json (listing : ReportListing) : Json :=
  .object [("reports", .array (listing.reports.map Report.json))]

/-- The listing in a format. There is no TeX form of it, so the plain text takes its place. -/
def render (listing : ReportListing) : Format → Text
  | .plain | .tex => listing.plain
  | .html => listing.html
  | .json => listing.json.compact

end ReportListing

end SimpleLR
