import SimpleLR.Automaton.Collection
import SimpleLR.Lookahead.FirstFollow
import SimpleLR.Table.Basic

/-! Compiling an automaton to a table. Edges on terminals shift; a completed item reduces on every
symbol that may follow the head of its production; completing the augmented production accepts at
the end of the input. A cell that is to hold two actions is a conflict. -/
namespace SimpleLR

namespace Row

variable (g : Grammar) (sets : FirstFollow) (terminals nonTerminals : List Nat)

/-- Enters an edge: a shift on a terminal, a goto on a non-terminal. -/
def enterEdge (row : Row) (symbol target : Nat) : Except Failure Row :=
  if g.isTerminal symbol then .ok (row.withAction symbol (.shift target))
  else if nonTerminals.contains symbol then .ok (row.withGoto symbol target)
  else do .error (.rejected (.reserved (← Failure.ofFault (g.name symbol))))

/-- The row of a state before its reductions. -/
def ofEdges (state : State) : Except Failure Row :=
  let enter row edge := enterEdge g nonTerminals row edge.1 edge.2
  state.edges.foldlM enter Row.empty

/-- The actions that an item of a state asks for, ascending by terminal. -/
def requests (item : Item) : Except Fault (List (Nat × Action)) := do
  let production ← g.production item.production
  if item.position < production.length then return []
  else if item.production == 0 && g.augmented.isSome then return [(endMarkIndex, .accept)]
  else return (sets.follow.get production.head).toList.map fun terminal =>
    (terminal, .reduce item.production)

/-- Enters an action into a cell, which has to be empty. -/
def enterAction (number : Nat) (row : Row) (terminal : Nat) (action : Action) :
    Except Failure Row :=
  if terminals.contains terminal then
    match row.action? terminal with
    | none => .ok (row.withAction terminal action)
    | some existing => do
      let name ← Failure.ofFault (g.name terminal)
      .error (.rejected (.conflict number name existing action))
  else .error (.broken (.noColumn terminal))

/-- Enters the actions that the items of a state ask for, item by item. -/
def enterItems (number : Nat) (items : List Item) (row : Row) : Except Failure Row :=
  items.foldlM (fun row item => do
    (← Failure.ofFault (requests g sets item)).foldlM
      (fun row (terminal, action) => row.enterAction g terminals number terminal action) row) row

end Row

/-- The table of an automaton. All edges are entered before the first reduction. -/
def Automaton.table (automaton : Automaton) (g : Grammar) (sets : FirstFollow) :
    Except Failure Table := do
  let terminals := g.terminals ++ [endMarkIndex]
  let nonTerminals := g.listedNonTerminals
  let shifts ← automaton.states.mapM (Row.ofEdges g nonTerminals)
  let rows ← ((automaton.states.zip shifts).zipIdx).mapM fun ((state, row), number) =>
    Row.enterItems g sets terminals number state.items row
  return ⟨terminals, nonTerminals, rows⟩

end SimpleLR
