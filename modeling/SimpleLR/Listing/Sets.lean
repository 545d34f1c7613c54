import SimpleLR.Json
import SimpleLR.Listing.Productions
import SimpleLR.Lookahead.FirstFollow
import SimpleLR.Markup.Html
import SimpleLR.Markup.Tex
import SimpleLR.Text.Order

namespace SimpleLR

/-- The sets of one non-terminal, by names in ascending order. In FIRST the empty name stands for
epsilon and comes last. -/
structure SetEntry where
  name : Text
  nullable : Bool
  first : List Text
  follow : List Text
  deriving DecidableEq, Repr

namespace SetEntry

/-- The FIRST set with epsilon under its own name. -/
def shownFirst (entry : SetEntry) : List Text :=
  entry.first.map fun name => if name.isEmpty then epsilonName else name

def plain (entry : SetEntry) : Text :=
  entry.name ++ " => FIRST = " ++ Tex.group (Text.joined ", " entry.shownFirst)
    ++ ", FOLLOW = " ++ Tex.group (Text.joined ", " entry.follow)

def tex (entry : SetEntry) : Text :=
  let set names := Tex.replaceEpsilon "$\\epsilon$" (Text.joined "\\ " (names.map Tex.escape))
  let nullable : Text := if entry.nullable then "true" else "false"
  Text.joined " & " [Tex.escape entry.name, nullable, set entry.shownFirst, set entry.follow]

def html (entry : SetEntry) : Text :=
  Html.dataRow [entry.name, Text.joined ", " entry.shownFirst, Text.joined ", " entry.follow]

def json (entry : SetEntry) : Json :=
  .object [("name", .string entry.name), ("nullable", .bool entry.nullable),
    ("first", Json.strings entry.first), ("follow", Json.strings entry.follow)]

end SetEntry

/-- The sets of the non-terminals of a grammar. -/
structure SetListing where
  entries : List SetEntry
  deriving DecidableEq, Repr

namespace SetListing

def plain (listing : SetListing) : Text := Text.joined "\n" (listing.entries.map SetEntry.plain)

def tex (listing : SetListing) : Text :=
  let titles : Text := "\nSymbol & Nullable & First & Follow\\\\\\hline\n"
  Tex.environment "tabular" (Tex.group "c|c|c|c") (titles
    ++ Text.joined "\\\\\n " (listing.entries.map SetEntry.tex) ++ "\\\\\n")

def html (listing : SetListing) : Text :=
  Html.table (Html.headingRow ["Non-terminal", "First", "Follow"]
    ++ listing.entries.flatMap SetEntry.html)

def json (listing : SetListing) : Json :=
  .object [("data", .array (listing.entries.map SetEntry.json))]

/-- The listing in a format. -/
def render (listing : SetListing) : Format → Text
  | .plain => listing.plain
  | .tex => listing.tex
  | .html => listing.html
  | .json => listing.json.compact

end SetListing

namespace Grammar

variable (g : Grammar)

/-- The names of the members of a set other than epsilon, in ascending order. -/
def memberNames (set : SymbolSet) : Except Fault (List Text) := do
  let names ← (set.filter (· != epsilonIndex)).toList.mapM g.name
  return Text.sorted names

/-- The sets of every non-terminal but the augmented one. -/
def setListing (sets : FirstFollow) : Except Fault SetListing := do
  return ⟨← g.listedNonTerminals.mapM fun symbol => do
    let nullable := sets.nullable symbol
    let first ← g.memberNames (sets.first.get symbol)
    let follow ← g.memberNames (sets.follow.get symbol)
    return ⟨← g.name symbol, nullable, if nullable then first ++ [[]] else first, follow⟩⟩

end Grammar

end SimpleLR
