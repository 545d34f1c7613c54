import SimpleLR.Automaton.Collection
import SimpleLR.Lookahead.FirstFollow
import SimpleLR.Proofs.Grammar.Naming
import SimpleLR.Proofs.Result

namespace SimpleLR

/-- The symbol without its name. -/
def Symbol.shape : Symbol → Symbol
  | .epsilon => .epsilon
  | .endMark => .endMark
  | .terminal _ => .terminal []
  | .nonTerminal _ => .nonTerminal []

namespace Grammar

/-- The grammar without the names of its symbols. -/
def shape (g : Grammar) : Grammar := { g with symbols := g.symbols.map Symbol.shape }

section Kinds

variable (g : Grammar)

@[simp] theorem length_shape : g.shape.symbols.length = g.symbols.length := List.length_map _

theorem isTerminal_shape : g.shape.isTerminal = g.isTerminal := by
  funext index
  rw [isTerminal, isTerminal, shape, List.getElem?_map, Option.any_map]
  congr 1
  funext symbol
  cases symbol <;> rfl

theorem isNonTerminal_shape : g.shape.isNonTerminal = g.isNonTerminal := by
  funext index
  rw [isNonTerminal, isNonTerminal, shape, List.getElem?_map, Option.any_map]
  congr 1
  funext symbol
  cases symbol <;> rfl

theorem terminals_shape : g.shape.terminals = g.terminals := by
  rw [terminals, terminals, length_shape, isTerminal_shape]

theorem nonTerminals_shape : g.shape.nonTerminals = g.nonTerminals := by
  rw [nonTerminals, nonTerminals, length_shape, isNonTerminal_shape]

theorem listedNonTerminals_shape : g.shape.listedNonTerminals = g.listedNonTerminals := by
  rw [listedNonTerminals, listedNonTerminals, nonTerminals_shape]
  rfl

private theorem productionsOf_shape : g.shape.productionsOf = g.productionsOf := by
  funext symbol
  rw [productionsOf, productionsOf, isNonTerminal_shape]
  rfl

end Kinds

section Sets

variable (g : Grammar)

private theorem firstOfString_shape (first : Family) (word : List Nat) :
    g.shape.firstOfString first word = g.firstOfString first word := by
  induction word with
  | nil => rfl
  | cons symbol rest ih => rw [firstOfString, firstOfString, isNonTerminal_shape, ih]

private theorem leading_shape (erasable word : List Nat) :
    g.shape.leading erasable word = g.leading erasable word := by
  induction word with
  | nil => rfl
  | cons symbol rest ih => rw [leading, leading, isNonTerminal_shape, ih]

private theorem occurrences_shape (word : List Nat) : g.shape.occurrences word = g.occurrences word := by
  induction word with
  | nil => rfl
  | cons symbol rest ih => rw [occurrences, occurrences, isNonTerminal_shape, ih]

theorem spreadAll_shape : g.shape.spreadAll = g.spreadAll := by
  funext graph seeds start
  rw [spreadAll, spreadAll, nonTerminals_shape]

theorem blankFamily_shape : g.shape.blankFamily = g.blankFamily := by
  rw [blankFamily, blankFamily, nonTerminals_shape]

private theorem firstSets_shape : g.shape.firstSets = g.firstSets := by
  have leads : g.shape.leading = g.leading := funext₂ g.leading_shape
  rw [firstSets, firstSets, leads, spreadAll_shape, blankFamily_shape]
  rfl

private theorem followSets_shape (first : Family) : g.shape.followSets first = g.followSets first := by
  have occurs : g.shape.occurrences = g.occurrences := funext g.occurrences_shape
  have begins : g.shape.firstOfString = g.firstOfString := funext₂ g.firstOfString_shape
  rw [followSets, followSets, occurs, begins, spreadAll_shape, blankFamily_shape]
  rfl

theorem firstFollow_shape : g.shape.firstFollow = g.firstFollow := by
  rw [firstFollow, firstFollow, firstSets_shape, followSets_shape]

end Sets

section States

variable (g : Grammar)

private theorem calledFor_shape : g.shape.calledFor = g.calledFor := by
  funext item
  rw [calledFor, calledFor, productionsOf_shape]
  rfl

theorem closure_shape : g.shape.closure = g.closure := by
  funext items
  rw [closure, closure, calledFor_shape]
  rfl

private theorem kernels_shape : g.shape.kernels = g.kernels := by
  have next : g.shape.nextKernels = g.nextKernels := by
    funext kernel
    rw [nextKernels, nextKernels, closure_shape]
    rfl
  rw [kernels, kernels, next]
  rfl

private theorem itemStates_shape : g.shape.itemStates = g.itemStates := by
  have state : g.shape.stateOf = g.stateOf := by
    funext kernels kernel
    rw [stateOf, stateOf, closure_shape]
    rfl
  rw [itemStates, itemStates, kernels_shape, state]

theorem collection_shape : g.shape.collection = g.collection := by
  rw [collection, collection, itemStates_shape, length_shape]
  rfl

end States

/-- A symbol that a token of an input can stand for. -/
def isToken (g : Grammar) (index : Nat) : Bool := g.isTerminal index || index == endMarkIndex

section Alike

variable {g g' : Grammar} (same : g.shape = g'.shape)
include same

theorem length_of_shape : g.symbols.length = g'.symbols.length := by
  rw [← length_shape, same, length_shape]

theorem isTerminal_of_shape : g.isTerminal = g'.isTerminal := by
  rw [← isTerminal_shape, same, isTerminal_shape]

theorem isNonTerminal_of_shape : g.isNonTerminal = g'.isNonTerminal := by
  rw [← isNonTerminal_shape, same, isNonTerminal_shape]

theorem isToken_of_shape : g.isToken = g'.isToken := by
  funext index
  rw [isToken, isToken, isTerminal_of_shape same]

theorem productions_of_shape : g.productions = g'.productions :=
  (congrArg Grammar.productions same :)

theorem production_of_shape : g.production = g'.production := by
  funext index
  rw [production, production, productions_of_shape same]

theorem listedNonTerminals_of_shape : g.listedNonTerminals = g'.listedNonTerminals := by
  rw [← listedNonTerminals_shape, same, listedNonTerminals_shape]

theorem firstFollow_of_shape : g.firstFollow = g'.firstFollow := by
  rw [← firstFollow_shape, same, firstFollow_shape]

theorem collection_of_shape : g.collection = g'.collection := by
  rw [← collection_shape, same, collection_shape]

theorem name_alike (index : Nat) :
    Result.Alike Eq (fun _ _ => True) (g.name index) (g'.name index) := by
  have bound := length_of_shape same
  by_cases inside : index < g.symbols.length
  · rw [name_ok inside, name_ok (bound ▸ inside)]
    exact .ok trivial
  · have outside : g.symbols.length ≤ index := Nat.le_of_not_lt inside
    rw [name, name, List.getElem?_eq_none outside, List.getElem?_eq_none (bound ▸ outside)]
    exact .error rfl

theorem names_alike (word : List Nat) : Result.Alike Eq (List.Forall₂ fun _ _ => True)
    (word.mapM g.name) (word.mapM g'.name) :=
  .mapM_same word (name_alike same)

end Alike

end Grammar

end SimpleLR
