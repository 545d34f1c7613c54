import SimpleLR.Automaton.Collection
import SimpleLR.Grammar.Catalogue

/-! The automaton built from the productions that a catalogue lists. Items and states wait in line; each one
is served once and puts behind the line what it calls for and is not there yet. A catalogue that was put
together by hand may list whatever it likes. -/
namespace SimpleLR

/-- Takes steps until there is none to take. A loop that takes too many is given up with an error. -/
def repeated {ε σ : Type} (step : σ → Except ε (Option σ)) (tooMany : ε) : (limit : Nat) → σ → Except ε σ
  | 0, _ => .error tooMany
  | limit + 1, current => do
    match ← step current with
    | none => return current
    | some next => repeated step tooMany limit next

/-- Items that are being gathered. The first ones have been served. -/
structure Gathering where
  items : List Item
  served : Nat

/-- Puts an edge among edges that ascend by their symbols. An older edge of the symbol is replaced. -/
def State.insertEdge (symbol target : Nat) : List (Nat × Nat) → List (Nat × Nat)
  | [] => [(symbol, target)]
  | (other, old) :: rest =>
    if symbol < other then (symbol, target) :: (other, old) :: rest
    else if other < symbol then (other, old) :: insertEdge symbol target rest
    else (symbol, target) :: rest

/-- The state with one more edge. -/
def State.connect (state : State) (symbol target : Nat) : State :=
  { state with edges := insertEdge symbol target state.edges }

/-- The symbols after the dots of a state, in the order of first appearance. -/
def State.outgoing (g : Grammar) (state : State) : Except Fault (List Nat) := do
  let _ ← state.items.mapM fun item => g.production item.production
  return g.outgoing state.items

/-- An automaton under way: its states, the numbers of their kernels, and the numbers of the states that wait
for their edges. -/
structure Construction where
  states : List State
  numbers : List (Kernel × Nat)
  queue : List Nat

namespace Construction

/-- The construction with its first state. -/
def start (state : State) : Construction := ⟨[state], [(state.kernel, 0)], [0]⟩

/-- The state of a number. -/
def state (built : Construction) (number : Nat) : Except Fault State :=
  match built.states[number]? with
  | some state => .ok state
  | none => .error (.noState number)

/-- Puts a state behind the others, where it waits for its edges. -/
def add (built : Construction) (state : State) : Construction where
  states := built.states ++ [state]
  numbers := (state.kernel, built.states.length) :: built.numbers
  queue := built.queue ++ [built.states.length]

/-- Gives a state an edge. -/
def connect (built : Construction) (number symbol target : Nat) : Construction :=
  { built with states := built.states.modify number (·.connect symbol target) }

end Construction

namespace Catalogue

variable (c : Catalogue)

section Items

/-- The items that an item calls for: the initial items of the productions listed under the symbol after
its dot. -/
def calledFor (item : Item) : Except Fault (List Item) := do
  let _ ← c.grammar.production item.production
  match c.grammar.afterDot? item with
  | none => return []
  | some symbol => return (← c.productionsOf symbol).map Item.initial

/-- Serves the next item, if there is one. -/
def serve (gathering : Gathering) : Except Fault (Option Gathering) :=
  match gathering.items[gathering.served]? with
  | none => .ok none
  | some item => do
    let called ← c.calledFor item
    return some ⟨gathering.items ++ fresh gathering.items called, gathering.served + 1⟩

/-- The items and everything that they call for, in the order of discovery. -/
def closure (items : List Item) : Except Fault (List Item) := do
  let limit := items.length + c.productions.length + 1
  return (← repeated c.serve .stepLimit limit ⟨items, 0⟩).items

end Items

section States

/-- The state of a kernel, without edges. -/
def stateOf (kernel : Kernel) : Except Fault State := do
  let items ← c.closure kernel.toList
  return ⟨kernel, items.drop kernel.toList.length, []⟩

/-- The number of the state with a kernel. A new kernel gets a new state. -/
def reach (built : Construction) (kernel : Kernel) : Except Fault (Construction × Nat) :=
  match built.numbers.lookup kernel with
  | some target => .ok (built, target)
  | none => do
    let state ← c.stateOf kernel
    return (built.add state, built.states.length)

/-- Gives a state its edge for a symbol, if the symbol leads anywhere. -/
def follow (number : Nat) (built : Construction) (symbol : Nat) : Except Fault Construction := do
  let state ← built.state number
  let kernel ← state.derivedKernel c.grammar symbol
  if kernel.isEmpty then return built
  let (built, target) ← c.reach built kernel
  return built.connect number symbol target

/-- Takes the first state of the queue, if there is one, and gives it its edges. -/
def turn (built : Construction) : Except Fault (Option Construction) :=
  match built.queue with
  | [] => .ok none
  | number :: queue => do
    let state ← built.state number
    let symbols ← state.outgoing c.grammar
    return some (← symbols.foldlM (c.follow number) { built with queue := queue })

/-- The states of an augmented catalogue. There are fewer of them than there are sets of items. -/
def collection : Except Fault Automaton := do
  let first ← c.stateOf (.ofList [Item.initial 0])
  let limit := Nat.pow 2 c.grammar.itemCount + 1
  return ⟨(← repeated c.turn .stepLimit limit (.start first)).states⟩

/-- The automaton of a catalogue, which is augmented first. -/
def automaton : Except Failure Automaton :=
  match c.augment with
  | (.error failure, _) => .error failure
  | (.ok _, c) => Failure.ofFault c.collection

end States

end Catalogue

end SimpleLR
