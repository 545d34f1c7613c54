import SimpleLR.Grammar.Basic
import SimpleLR.Grammar.Rules

/-! A grammar that keeps books while it grows. Every non-terminal knows its own index and lists its
productions, and a table tells the symbol that a name finds. Whatever adds a symbol or a production enters it
there, and all lists move when a production is put in front of the others. -/
namespace SimpleLR

/-- A symbol with what is kept about it: of a non-terminal its own index and its productions. -/
inductive Catalogue.Entry where
  | epsilon
  | endMark
  | terminal (name : Text)
  | nonTerminal (index : Nat) (name : Text) (listed : List Nat)
  deriving DecidableEq, Repr

namespace Catalogue.Entry

/-- The symbol alone. -/
def symbol : Entry → Symbol
  | .epsilon => .epsilon
  | .endMark => .endMark
  | .terminal name => .terminal name
  | .nonTerminal _ name _ => .nonTerminal name

/-- The productions that are listed. Only non-terminals list any. -/
def listed : Entry → List Nat
  | .nonTerminal _ _ listed => listed
  | _ => []

/-- Puts a production at the end of the list. -/
def list (production : Nat) : Entry → Entry
  | .nonTerminal index name listed => .nonTerminal index name (listed ++ [production])
  | entry => entry

/-- Moves every listed production by one. -/
def move : Entry → Entry
  | .nonTerminal index name listed => .nonTerminal index name (listed.map (· + 1))
  | entry => entry

end Catalogue.Entry

/-- A grammar with its books. In the table of names an entry hides those behind it. -/
structure Catalogue where
  entries : List Catalogue.Entry
  names : List (Text × Nat)
  productions : List Production
  start : Option Nat
  augmented : Option Nat
  deriving DecidableEq, Repr

namespace Catalogue

/-- The catalogue without productions, whose only symbols are epsilon and the end mark. -/
def empty : Catalogue where
  entries := [.epsilon, .endMark]
  names := [(endMarkName, endMarkIndex), ("ϵ", epsilonIndex), (epsilonName, epsilonIndex)]
  productions := []
  start := none
  augmented := none

variable (c : Catalogue)

/-- The grammar without the books. -/
def grammar : Grammar := ⟨c.entries.map Entry.symbol, c.productions, c.start, c.augmented⟩

section Lookup

/-- The symbol of a name. -/
def index? (name : Text) : Option Nat := c.names.lookup name

/-- The name of a symbol. -/
def name (index : Nat) : Except Fault Text :=
  match c.entries[index]? with
  | some entry => .ok entry.symbol.name
  | none => .error (.noSymbol index)

/-- The productions that are listed under a symbol. -/
def productionsOf (index : Nat) : Except Fault (List Nat) :=
  match c.entries[index]? with
  | some entry => .ok entry.listed
  | none => .error (.noSymbol index)

end Lookup

section Growth

/-- Adds a non-terminal behind the other symbols. The first one becomes the start symbol if none
is set. -/
def addNonTerminal (name : Text) : Catalogue :=
  { c with
    entries := c.entries ++ [.nonTerminal c.entries.length name []]
    names := (name, c.entries.length) :: c.names
    start := c.start <|> some c.entries.length }

/-- Adds a terminal behind the other symbols. -/
def addTerminal (name : Text) : Catalogue :=
  { c with
    entries := c.entries ++ [.terminal name]
    names := (name, c.entries.length) :: c.names }

/-- Puts a production behind the others and lists it under its head. An empty body is stored as
epsilon. -/
def pushProduction (head : Nat) (body : List Nat) : Catalogue :=
  { c with
    entries := c.entries.modify head (Entry.list c.productions.length)
    productions := c.productions ++ [⟨head, if body.isEmpty then [epsilonIndex] else body⟩] }

/-- Adds a production whose head has to be a symbol. The body is not looked at. -/
def addProduction (head : Nat) (body : List Nat) : Except Fault Catalogue :=
  if head < c.entries.length then .ok (c.pushProduction head body) else .error (.noSymbol head)

end Growth

section Augmentation

/-- The name with as few quotes behind it as make it new. The table has fewer names than the quotes
that may be tried. -/
def freshName (name : Text) : Text :=
  Text.primed (fun name => (c.index? name).isSome) (c.names.length + 1) name

/-- Puts a production in front that takes a new symbol of the given name to the start symbol. All lists
move by one. -/
def putInFront (start : Nat) (name : Text) : Catalogue :=
  let head := c.entries.length
  let entries := (c.entries ++ [Entry.nonTerminal head name []]).map Entry.move
  { c with
    entries := entries.modify head (Entry.list 0)
    names := (name, head) :: c.names
    productions := ⟨head, [start]⟩ :: c.productions
    augmented := some head }

/-- Puts the augmented production in front. The result is its head. If there is none the catalogue is left
as it is, and so it is if it has its augmented production already. -/
def augment : Except Failure Nat × Catalogue :=
  match c.augmented, c.start with
  | some head, _ => (.ok head, c)
  | none, none => (.error (.rejected .missingStart), c)
  | none, some start =>
    match c.name start with
    | .error fault => (.error (.broken fault), c)
    | .ok name => (.ok c.entries.length, c.putInFront start (c.freshName name))

end Augmentation

section Rules

/-- The catalogue in which a name is a symbol: a new name becomes a non-terminal. -/
def withHead (name : Text) : Catalogue :=
  if (c.index? name).isSome then c else c.addNonTerminal name

/-- The index of a name. A new name becomes a terminal. -/
def intern (name : Text) : Catalogue × Nat :=
  match c.index? name with
  | some index => (c, index)
  | none => (c.addTerminal name, c.entries.length)

/-- The indices of names, from left to right. -/
def internAll (c : Catalogue) : List Text → Catalogue × List Nat
  | [] => (c, [])
  | name :: rest =>
    let (c, index) := c.intern name
    let (c, indices) := c.internAll rest
    (c, index :: indices)

/-- Adds the production of a rule whose head is a symbol. -/
def addRule (rule : Rule) : Catalogue :=
  match c.index? rule.head with
  | none => c
  | some head =>
    let (c, body) := c.internAll rule.body
    c.pushProduction head body

/-- The catalogue of a list of rules, unless a name is misplaced. -/
def ofRules (rules : List Rule) : Except GrammarError Catalogue :=
  match rules.findSome? Rule.misplaced? with
  | some name => .error (.reserved name)
  | none =>
    let heads := rules.foldl (fun c rule => c.withHead rule.head) empty
    .ok (rules.foldl addRule heads)

end Rules

end Catalogue

end SimpleLR
