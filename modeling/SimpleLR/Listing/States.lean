import SimpleLR.Automaton.Collection
import SimpleLR.Automaton.Item
import SimpleLR.Json
import SimpleLR.Listing.Productions
import SimpleLR.Markup.Html
import SimpleLR.Markup.Tex
import SimpleLR.Text.Order

namespace SimpleLR

namespace Grammar

section Items

variable (g : Grammar)

/-- The mark of an item's position. -/
def dot : Text := "."

/-- The words of a body with a dot at a position. -/
def dotted (position : Nat) (words : List Text) : List Text :=
  words.take position ++ dot :: words.drop position

/-- The head of an item's production, and its symbols with the dot among them. -/
def itemWords (item : Item) : Except Fault (Text × List Text) := do
  let production ← g.production item.production
  let names ← production.symbols.mapM g.name
  return (← g.name production.head, names)

/-- An item as text: `E -> E . + T`. -/
def itemText (item : Item) : Except Fault Text := do
  let (head, names) ← g.itemWords item
  return head ++ " -> " ++ Text.joined " " (dotted item.position names)

/-- An item as a TeX formula. -/
def itemTex (item : Item) : Except Fault Text := do
  let (head, names) ← g.itemWords item
  let words := dotted item.position (names.map Tex.escape)
  return "$" ++ Tex.escape head ++ " \\rightarrow " ++ Text.joined " " words ++ "$"

end Items

end Grammar

/-- A state by names. Its edges are ascending by name; of two symbols with one name only the edge
of the later one is listed. -/
structure StateListing where
  kernel : List Text
  extend : List Text
  edges : List (Text × Nat)
  formulas : List Text
  deriving DecidableEq, Repr

namespace StateListing

/-- Kernel items, added items and edges, one to a line, with rules between the three. -/
def plain (listing : StateListing) : Text :=
  let edge : Text × Nat → Text := fun (name, target) => "- " ++ name ++ " -> " ++ Text.ofNat target
  let ruled (rule : Text) (lines : List Text) : Text :=
    if lines.isEmpty then [] else rule ++ Text.joined "\n" lines
  Text.joined "\n" listing.kernel ++ ruled "\n---\n" listing.extend
    ++ ruled "\n===\n" (listing.edges.map edge)

/-- The name of a node of the picture. -/
def nodeName (number : Nat) : Text := "I_" ++ Text.ofNat number

/-- A node stands right of the one before it or, if its number is even, below the one before
that. -/
def placement (number : Nat) : Text :=
  if number = 0 then []
  else if number % 2 = 0 then " [below of = " ++ nodeName (number - 2) ++ "] "
  else " [right of = " ++ nodeName (number - 1) ++ "] "

def texNode (number : Nat) (listing : StateListing) : Text :=
  let formulas := Text.joined " \\\\ \n" listing.formulas
  "\\node [block] (" ++ nodeName number ++ ")" ++ placement number ++ "\n"
    ++ Tex.group ("\n$" ++ nodeName number ++ "$\\\\\n" ++ formulas ++ "\n") ++ ";"

def texEdge (number : Nat) (name : Text) (target : Nat) : Text :=
  let bend : Text := if number = target then "[loop left]" else "[right]"
  "\\path [->] (" ++ nodeName number ++ ") edge " ++ bend ++ " node [above]"
    ++ Tex.group (Tex.escape name) ++ " (" ++ nodeName target ++ ");"

def texEdges (number : Nat) (listing : StateListing) : Text :=
  Text.joined "\n" (listing.edges.map fun (name, target) => texEdge number name target)

def json (listing : StateListing) : Json :=
  .object [("kernel", Json.strings listing.kernel), ("extend", Json.strings listing.extend),
    ("edges", .object (listing.edges.map fun (name, target) => (name, .number target)))]

end StateListing

/-- The states of an automaton by names. -/
structure AutomatonListing where
  states : List StateListing
  deriving DecidableEq, Repr

namespace AutomatonListing

/-- Every state under its number, and the number of the start state. -/
def plain (listing : AutomatonListing) : Text :=
  let state : StateListing × Nat → Text := fun (state, number) =>
    "I" ++ Text.ofNat number ++ "\n" ++ state.plain
  Text.joined "\n\n" (listing.states.zipIdx.map state)
    ++ "\n\nstart: " ++ Text.ofNat Automaton.start

/-- All nodes of the picture, then the edges of each node. -/
def tex (listing : AutomatonListing) : Text :=
  let numbered := listing.states.zipIdx
  let block := Tex.group "state, rectangle, text width=6em"
  let style := "[node distance=5cm,block/.style=" ++ block ++ "]"
  let nodes := numbered.map fun (state, number) => state.texNode number
  let edges := numbered.map fun (state, number) => state.texEdges number
  Tex.environment "tikzpicture" style ("\n" ++ Text.joined "\n" (nodes ++ edges) ++ "\n")

def json (listing : AutomatonListing) : Json :=
  .object [("states", .array (listing.states.map StateListing.json)),
    ("start", .number Automaton.start)]

/-- The listing in a format. In HTML the plain text is shown as it stands. -/
def render (listing : AutomatonListing) : Format → Text
  | .plain => listing.plain
  | .tex => listing.tex
  | .html => Html.preformatted listing.plain
  | .json => listing.json.compact

end AutomatonListing

namespace Grammar

variable (g : Grammar)

/-- Edges by name, ascending. -/
def namedEdges (edges : List (Nat × Nat)) : Except Fault (List (Text × Nat)) := do
  let named ← edges.mapM fun (symbol, target) => do return (← g.name symbol, target)
  let names := Text.sorted (named.map (·.1)).eraseDups
  return names.filterMap fun name => (named.reverse.lookup name).map fun target => (name, target)

def stateListing (state : State) : Except Fault StateListing := do
  return {
    kernel := ← state.kernel.toList.mapM g.itemText
    extend := ← state.extend.mapM g.itemText
    edges := ← g.namedEdges state.edges
    formulas := ← state.items.mapM g.itemTex }

def automatonListing (automaton : Automaton) : Except Fault AutomatonListing := do
  return ⟨← automaton.states.mapM g.stateListing⟩

end Grammar

end SimpleLR
