import SimpleLR.Grammar.Basic
import SimpleLR.Json
import SimpleLR.Listing.Productions
import SimpleLR.Markup.Html
import SimpleLR.Markup.Tex
import SimpleLR.Table.Basic
import SimpleLR.Text.Basic
import SimpleLR.Text.Pieces

namespace SimpleLR

/-- The JSON of an action: its kind, and where it leads if it leads anywhere. -/
def Action.json : Action → Json
  | .shift target => .object [("type", .string "Shift"), ("target", .number target)]
  | .reduce production => .object [("type", .string "Reduce"), ("target", .number production)]
  | .accept => .object [("type", .string "Accept")]

/-- A table by names, with the productions that its reductions use. -/
structure TableListing where
  terminals : List Text
  nonTerminals : List Text
  productions : List Text
  actions : List (List (Option Action))
  gotos : List (List (Option Nat))
  deriving DecidableEq, Repr

namespace TableListing

variable (listing : TableListing)

/-- The text of the production that a reduction uses. -/
def production (index : Nat) : Except Fault Text :=
  match listing.productions[index]? with
  | some production => .ok production
  | none => .error (.noProduction index)

def plainAction : Action → Except Fault Text
  | .reduce index => do return "r(" ++ (← listing.production index) ++ ")"
  | action => .ok action.short

/-- A production as a formula, cut at its first arrow. -/
def productionTex (production : Text) : Text :=
  let (head, body) := (Text.cut? " -> " production).getD ([], [])
  let right := Tex.replaceEpsilon "\\epsilon" (Tex.escape body)
  "$" ++ Tex.escape head ++ " \\rightarrow " ++ right ++ "$"

def texAction : Action → Except Fault Text
  | .shift target => .ok ("shift " ++ Text.ofNat target)
  | .reduce index => do return "reduce " ++ productionTex (← listing.production index)
  | .accept => .ok "accept"

def htmlAction : Action → Text
  | .shift target => "S" ++ Text.ofNat target
  | .reduce index => "R" ++ Text.ofNat index
  | .accept => "AC"

/-- The rows of the table as text: the number of the state, its actions, and its gotos. -/
def rows (cell : Action → Except Fault Text) : Except Fault (List (List Text)) :=
  ((listing.actions.zip listing.gotos).zipIdx).mapM fun ((actions, gotos), number) => do
    let actions ← actions.mapM fun action => match action with
      | none => .ok []
      | some action => cell action
    return [Text.ofNat number] ++ actions ++ gotos.map fun goto => (goto.map Text.ofNat).getD []

/-- The names of the columns. The column of the states has none. -/
def heading : List Text := [[]] ++ listing.terminals ++ listing.nonTerminals

def plain : Except Fault Text := do
  return Text.table (listing.heading :: (← listing.rows listing.plainAction))

def tex : Except Fault Text := do
  let rows ← listing.rows listing.texAction
  let bars := List.replicate (listing.terminals.length + listing.nonTerminals.length) ("|l" : Text)
  let spanning count columns title :=
    "\\multicolumn" ++ Tex.group (Text.ofNat count) ++ Tex.group columns ++ Tex.group title
  let row := Text.joined " & "
  let titles := "\n & " ++ spanning listing.terminals.length "c" "action" ++ " & "
    ++ spanning listing.nonTerminals.length "|c" "goto" ++ "\\\\\n"
  return Tex.environment "tabular" (Tex.group ("c" ++ bars.flatten))
    (titles ++ row (listing.heading.map Tex.escape) ++ " \\\\\\hline\n"
      ++ Text.joined " \\\\\n" (rows.map row) ++ "\n")

/-- The row above the names of the columns, with a title for each half of the table. -/
def titleRow : Text :=
  "<tr>\n\t<th> </th>\n\t<th colspan = " ++ Text.ofNat listing.terminals.length
    ++ "> ACTIONS </th>\n\t<th colspan = " ++ Text.ofNat listing.nonTerminals.length
    ++ "> GOTO </th>\n</tr>\n"

def html : Except Fault Text := do
  let rows ← listing.rows fun action => .ok (htmlAction action)
  let productions := listing.productions.zipIdx.flatMap fun (production, number) =>
    Html.dataRow [Text.ofNat number, production]
  let names := Html.headingRow listing.heading
  return Html.table (listing.titleRow ++ names ++ rows.flatMap Html.dataRow)
    ++ Html.table (Html.headingRow ["#", "Production"] ++ productions)

def json : Json :=
  let actionRow row := .array (row.map (Json.ofOption Action.json))
  let gotoRow row := .array (row.map (Json.ofOption .number))
  .object [("terminals", Json.strings listing.terminals),
    ("non_terminals", Json.strings listing.nonTerminals),
    ("productions", Json.strings listing.productions),
    ("action", .array (listing.actions.map actionRow)),
    ("goto", .array (listing.gotos.map gotoRow))]

/-- The listing in a format. -/
def render : Format → Except Fault Text
  | .plain => listing.plain
  | .tex => listing.tex
  | .html => listing.html
  | .json => .ok listing.json.compact

end TableListing

/-- A table with the names that a grammar gives to its symbols and productions. -/
def Grammar.tableListing (g : Grammar) (table : Table) : Except Fault TableListing := do
  return {
    terminals := ← table.terminals.mapM g.name
    nonTerminals := ← table.nonTerminals.mapM g.name
    productions := ← (List.range g.productions.length).mapM g.productionText
    actions := table.actionCells
    gotos := table.gotoCells }

end SimpleLR
