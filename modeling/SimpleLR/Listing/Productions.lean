import SimpleLR.Grammar.Basic
import SimpleLR.Json
import SimpleLR.Markup.Html
import SimpleLR.Markup.Tex
import SimpleLR.Text.Basic

namespace SimpleLR

/-- A format of a listing. Each listing says how it looks in every one of them. -/
inductive Format where
  | plain
  | tex
  | html
  | json
  deriving DecidableEq, Repr

/-- The productions of one head, by names. -/
structure Alternatives where
  head : Text
  bodies : List (List Text)
  deriving DecidableEq, Repr

namespace Alternatives

/-- One line for each body. The head stands in the first line, pushed to the right, and a bar
stands in its place in the others. -/
def plain (width : Nat) (alternatives : Alternatives) : Text :=
  match alternatives.bodies.map (Text.joined " ") with
  | [] => []
  | body :: others =>
    Text.joined "\n" ((Text.padded width alternatives.head ++ " -> " ++ body) ::
      others.map fun other => Text.padded width [] ++ "  | " ++ other)

/-- A row of the array: the head, an arrow, and the bodies. -/
def tex (alternatives : Alternatives) : Text :=
  let body names := Text.joined " \\ " (names.map Tex.escape)
  let right := Text.joined " \\mid " (alternatives.bodies.map body)
  Tex.replaceEpsilon "\\epsilon" (Tex.escape alternatives.head ++ " & \\rightarrow & " ++ right)

def json (alternatives : Alternatives) : Json :=
  .object [("left", .string alternatives.head),
    ("rights", .array (alternatives.bodies.map Json.strings))]

end Alternatives

/-- The productions of a grammar, head by head. -/
structure ProductionListing where
  heads : List Alternatives
  deriving DecidableEq, Repr

namespace ProductionListing

/-- The length of the longest head. -/
def headWidth (listing : ProductionListing) : Nat :=
  (listing.heads.map (·.head.length)).foldl max 0

def plain (listing : ProductionListing) : Text :=
  Text.joined "\n" (listing.heads.map (Alternatives.plain listing.headWidth))

def tex (listing : ProductionListing) : Text :=
  let opening : Text := "\\[\\begin" ++ Tex.group "array" ++ Tex.group "cll"
  let closing : Text := "\\end" ++ Tex.group "array" ++ "\\]"
  Text.joined "\\\\\n" ([opening] ++ listing.heads.map Alternatives.tex ++ [closing])

def json (listing : ProductionListing) : Json :=
  .object [("productions", .array (listing.heads.map Alternatives.json))]

/-- The listing in a format. In HTML the plain text is shown as it stands. -/
def render (listing : ProductionListing) : Format → Text
  | .plain => listing.plain
  | .tex => listing.tex
  | .html => Html.preformatted listing.plain
  | .json => listing.json.compact

end ProductionListing

/-- The productions of every non-terminal that has some, without the augmented one. -/
def Grammar.productionListing (g : Grammar) : Except Fault ProductionListing := do
  let heads := g.listedNonTerminals.filter fun head => !(g.productionsOf head).isEmpty
  return ⟨← heads.mapM fun head => do
    let bodies ← (g.productionsOf head).mapM fun index => do g.bodyNames (← g.production index)
    return ⟨← g.name head, bodies⟩⟩

end SimpleLR
