import SimpleLR.Grammar.Error
import SimpleLR.Text.Order

/-! Context-free grammars. Symbols and productions are named by their index. The symbol at index 0
is epsilon and the symbol at index 1 is the end of the input; a grammar adds its non-terminals and
terminals behind these two. -/
namespace SimpleLR

/-- Appends quotes to a name as long as it is taken, but at most `quotes` of them. -/
def Text.primed (taken : Text → Bool) : (quotes : Nat) → (name : Text) → Text
  | 0, name => name
  | quotes + 1, name => if taken name then primed taken quotes (name ++ ['\'']) else name

/-- A symbol with its name. -/
inductive Symbol where
  | epsilon
  | endMark
  | terminal (name : Text)
  | nonTerminal (name : Text)
  deriving DecidableEq, Repr

/-- The index of epsilon. -/
abbrev epsilonIndex : Nat := 0

/-- The index of the end mark. -/
abbrev endMarkIndex : Nat := 1

/-- The name under which epsilon is shown. -/
def epsilonName : Text := "ε"

/-- The name of the end mark. -/
def endMarkName : Text := "$"

namespace Symbol

/-- The name under which a symbol is shown. -/
def name : Symbol → Text
  | .epsilon => epsilonName
  | .endMark => endMarkName
  | .terminal name => name
  | .nonTerminal name => name

/-- The names by which a symbol is found. Epsilon has two spellings. -/
def spellings : Symbol → List Text
  | .epsilon => [epsilonName, "ϵ"]
  | symbol => [symbol.name]

def isTerminal : Symbol → Bool
  | .terminal _ => true
  | _ => false

def isNonTerminal : Symbol → Bool
  | .nonTerminal _ => true
  | _ => false

end Symbol

/-- A rule that replaces its head by its body. The body that derives nothing is epsilon alone. -/
structure Production where
  head : Nat
  body : List Nat
  deriving DecidableEq, Repr

namespace Production

/-- A body of epsilon alone. -/
def isEpsilon (production : Production) : Bool := production.body == [epsilonIndex]

/-- The symbols that a parser has on its stack when it reduces: none for an epsilon body. -/
def symbols (production : Production) : List Nat :=
  if production.isEpsilon then [] else production.body

/-- How many symbols a reduction takes off the stack. -/
def length (production : Production) : Nat := production.symbols.length

end Production

/-- A grammar. `augmented` is the head of the production that was put in front of all others to
mark the end of a derivation, once there is one. -/
structure Grammar where
  symbols : List Symbol
  productions : List Production
  start : Option Nat
  augmented : Option Nat
  deriving DecidableEq, Repr

namespace Grammar

/-- The grammar without productions, whose only symbols are epsilon and the end mark. -/
def empty : Grammar := ⟨[.epsilon, .endMark], [], none, none⟩

section Lookup

variable (g : Grammar)

/-- The name of a symbol. -/
def name (index : Nat) : Except Fault Text :=
  match g.symbols[index]? with
  | some symbol => .ok symbol.name
  | none => .error (.noSymbol index)

/-- The production at an index. -/
def production (index : Nat) : Except Fault Production :=
  match g.productions[index]? with
  | some production => .ok production
  | none => .error (.noProduction index)

def isTerminal (index : Nat) : Bool := g.symbols[index]?.any Symbol.isTerminal

def isNonTerminal (index : Nat) : Bool := g.symbols[index]?.any Symbol.isNonTerminal

/-- The symbol of a name. Where several symbols have the name, the last one added is found. -/
def index? (name : Text) : Option Nat :=
  (g.symbols.zipIdx.reverse.find? fun (symbol, _) => symbol.spellings.contains name).map (·.2)

/-- The terminals in ascending order. -/
def terminals : List Nat := (List.range g.symbols.length).filter g.isTerminal

/-- The non-terminals in ascending order. -/
def nonTerminals : List Nat := (List.range g.symbols.length).filter g.isNonTerminal

/-- The non-terminals in ascending order, without the augmented head. -/
def listedNonTerminals : List Nat := g.nonTerminals.filter (some · != g.augmented)

/-- The productions of a non-terminal in ascending order. A terminal has none, even if it heads
productions. -/
def productionsOf (index : Nat) : List Nat :=
  if g.isNonTerminal index then
    (g.productions.zipIdx.filter fun (production, _) => production.head == index).map (·.2)
  else []

/-- The names of a production's body. -/
def bodyNames (production : Production) : Except Fault (List Text) := production.body.mapM g.name

/-- A production as text: `E -> E + T`. -/
def productionText (index : Nat) : Except Fault Text := do
  let production ← g.production index
  let head ← g.name production.head
  let body ← g.bodyNames production
  return head ++ " -> " ++ Text.joined " " body

/-- Every name by which a symbol is found, with that symbol, ascending by name. -/
def nameTable : List (Text × Nat) :=
  let names := Text.sorted (g.symbols.flatMap Symbol.spellings).eraseDups
  names.filterMap fun name => (g.index? name).map fun index => (name, index)

end Lookup

section Growth

variable (g : Grammar)

/-- Adds a non-terminal behind the other symbols. The first one becomes the start symbol if none
is set. -/
def addNonTerminal (name : Text) : Grammar :=
  { g with
    symbols := g.symbols ++ [.nonTerminal name]
    start := g.start <|> some g.symbols.length }

/-- Adds a terminal behind the other symbols. -/
def addTerminal (name : Text) : Grammar :=
  { g with symbols := g.symbols ++ [.terminal name] }

/-- Puts a production behind the others. An empty body is stored as epsilon. -/
def pushProduction (head : Nat) (body : List Nat) : Grammar :=
  { g with productions := g.productions ++ [⟨head, if body.isEmpty then [epsilonIndex] else body⟩] }

/-- Adds a production whose head has to be a symbol. The body is not looked at. -/
def addProduction (head : Nat) (body : List Nat) : Except Fault Grammar :=
  if head < g.symbols.length then .ok (g.pushProduction head body) else .error (.noSymbol head)

/-- Puts one more symbol at the end of a production's body. -/
def extendBody (index symbol : Nat) : Except Fault Grammar := do
  let production ← g.production index
  let longer := { production with body := production.body ++ [symbol] }
  return { g with productions := g.productions.set index longer }

/-- Chooses the start symbol, or none. -/
def setStart (start : Option Nat) : Grammar := { g with start := start }

end Growth

section Augmentation

variable (g : Grammar)

/-- The name with as few quotes behind it as make it new. There are fewer taken names than the
quotes that may be tried. -/
def freshName (name : Text) : Text :=
  Text.primed (fun name => (g.index? name).isSome) (g.symbols.length + 1) name

/-- Puts the augmented production in front, which moves every other production by one. A grammar
that has it already stays as it is. -/
def augment : Except Failure Grammar :=
  match g.augmented, g.start with
  | some _, _ => .ok g
  | none, none => .error (.rejected .missingStart)
  | none, some start => do
    let name ← Failure.ofFault (g.name start)
    return { g with
      symbols := g.symbols ++ [.nonTerminal (g.freshName name)]
      productions := ⟨g.symbols.length, [start]⟩ :: g.productions
      augmented := some g.symbols.length }

end Augmentation

end Grammar

end SimpleLR
