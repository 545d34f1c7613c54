import SimpleLR.Automaton.Item
import SimpleLR.Discovery
import SimpleLR.Grammar.Basic
import SimpleLR.SortedSet

/-! The automaton of item sets. A state is known by its kernel; the items that its kernel items
call for are added, and each symbol after a dot leads to the state of the advanced items. States
are numbered as they are discovered, breadth first. -/
namespace SimpleLR

/-- The items by which a state is known. -/
abbrev Kernel := SortedSet Item

/-- A state: its kernel, the items added to it in the order of discovery, and for each symbol
after a dot, ascending, the state that follows. -/
structure State where
  kernel : Kernel
  extend : List Item
  edges : List (Nat × Nat)
  deriving DecidableEq

namespace State

/-- All items of a state, those of the kernel first. -/
def items (state : State) : List Item := state.kernel.toList ++ state.extend

/-- Where a symbol leads from a state. -/
def transition? (state : State) (symbol : Nat) : Option Nat := state.edges.lookup symbol

end State

/-- The states, of which the first is the start. -/
structure Automaton where
  states : List State
  deriving DecidableEq

namespace Grammar

variable (g : Grammar)

/-- The items that an item calls for: the initial items of the non-terminal after its dot. -/
def calledFor (item : Item) : List Item :=
  match g.afterDot? item with
  | none => []
  | some symbol => (g.productionsOf symbol).map Item.initial

/-- The items and everything that they call for, in the order of discovery. -/
def closure (items : List Item) : List Item :=
  discover (fun _ item => g.calledFor item) (items.length + g.productions.length) [] items

/-- The symbols after the dots of items, in the order of first appearance. -/
def outgoing (items : List Item) : List Nat := fresh [] (items.filterMap g.afterDot?)

/-- The items with the dot before a symbol, advanced over it. -/
def advanced (items : List Item) (symbol : Nat) : Kernel :=
  .ofList ((items.filter (g.afterDot? · == some symbol)).map Item.advance)

/-- The kernels of the states that follow a state. -/
def nextKernels (kernel : Kernel) : List Kernel :=
  let items := g.closure kernel.toList
  (g.outgoing items).map (g.advanced items)

/-- The number of items, with all positions from the start of each body to its end. -/
def itemCount : Nat := g.productions.foldl (fun count production => count + (production.length + 1)) 0

/-- The kernels of all states. There are fewer of them than there are sets of items. -/
def kernels : List Kernel :=
  discover (fun _ kernel => g.nextKernels kernel) (Nat.pow 2 g.itemCount) [] [.ofList [Item.initial 0]]

/-- The state of a kernel, where `kernels` numbers the states. -/
def stateOf (kernels : List Kernel) (kernel : Kernel) : State :=
  let items := g.closure kernel.toList
  { kernel := kernel
    extend := items.drop kernel.toList.length
    edges := (SortedSet.ofList (g.outgoing items)).toList.filterMap fun symbol =>
      (kernels.idxOf? (g.advanced items symbol)).map fun target => (symbol, target) }

/-- The states of an augmented grammar. -/
def itemStates : List State :=
  let kernels := g.kernels
  kernels.map (g.stateOf kernels)

/-- The automaton of an augmented grammar. Every index after a dot has to be a symbol. -/
def collection : Except Fault Automaton :=
  let states := g.itemStates
  match (states.flatMap State.items).findSome? fun item =>
      (g.afterDot? item).filter (g.symbols.length ≤ ·) with
  | some index => .error (.noSymbol index)
  | none => .ok ⟨states⟩

end Grammar

namespace Automaton

/-- The number of the start state. -/
def start : Nat := 0

/-- The state of a number. -/
def state (automaton : Automaton) (number : Nat) : Except Fault State :=
  match automaton.states[number]? with
  | some state => .ok state
  | none => .error (.noState number)

/-- Where a symbol leads from a state. -/
def transition? (automaton : Automaton) (number symbol : Nat) : Option Nat :=
  automaton.states[number]?.bind (·.transition? symbol)

end Automaton

namespace State

variable (g : Grammar) (state : State)

/-- The kernel that a symbol leads to, empty where it leads nowhere. -/
def derivedKernel (symbol : Nat) : Except Fault Kernel := do
  let _ ← state.items.mapM fun item => g.production item.production
  return g.advanced state.items symbol

/-- The completed items of a state. -/
def completed : Except Fault (List Item) := state.items.filterM g.isCompleted

end State

end SimpleLR
