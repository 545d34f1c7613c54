import SimpleLR.Grammar.Basic
import SimpleLR.Lookahead.Dependencies

/-! FIRST and FOLLOW sets. Each production says which symbols are in a set at once and which other
sets are part of it; spreading the former along the latter gives the sets. -/
namespace SimpleLR

/-- FIRST and FOLLOW sets by symbol. Epsilon is in the FIRST set of what can be erased, and the
end mark is in the FOLLOW set of what can stand at the end of an input. -/
structure FirstFollow where
  first : Family
  follow : Family
  deriving DecidableEq

namespace FirstFollow

/-- Whether a symbol can be erased. -/
def nullable (sets : FirstFollow) (symbol : Nat) : Bool :=
  decide (epsilonIndex ∈ sets.first.get symbol)

end FirstFollow

namespace Grammar

variable (g : Grammar)

/-- The heads of the productions whose bodies vanish once the marked symbols do. -/
def vanishingHeads (marked : List Nat) : List Nat :=
  let vanishes symbol := symbol == epsilonIndex || marked.contains symbol
  (g.productions.filter (·.symbols.all vanishes)).map (·.head)

/-- The symbols that can be erased. The marking starts from the epsilon productions, so without
one nothing is marked. -/
def erasable : List Nat :=
  let heads := (g.productions.filter Production.isEpsilon).map (·.head)
  discover (fun marked _ => g.vanishingHeads marked) g.productions.length [] (fresh [] heads)

/-- FIRST of a symbol string, given the FIRST sets of the non-terminals: epsilon is a member
exactly if every symbol can be erased. -/
def firstOfString (first : Family) : List Nat → SymbolSet
  | [] => .ofList [epsilonIndex]
  | symbol :: rest =>
    if symbol == epsilonIndex then firstOfString first rest
    else if g.isNonTerminal symbol then
      let own := first.get symbol
      let proper := own.filter (· != epsilonIndex)
      if epsilonIndex ∈ own then proper ∪ firstOfString first rest else proper
    else .ofList [symbol]

/-- What a body says of its head's FIRST set: the non-terminals whose FIRST sets are part of it,
and the symbol that is a member at once, if the symbols before it can all be erased. -/
def leading (erasable : List Nat) : List Nat → List Nat × Option Nat
  | [] => ([], none)
  | symbol :: rest =>
    if g.isNonTerminal symbol then
      if erasable.contains symbol then
        let (parts, member) := leading erasable rest
        (symbol :: parts, member)
      else ([symbol], none)
    else ([], some symbol)

/-- The members that every non-terminal's set has at once, spread along the dependencies. -/
def spreadAll (graph : Dependencies) (seeds start : Family) : Family :=
  g.nonTerminals.foldl (fun family symbol =>
    let members := seeds.get symbol
    if members.isEmpty then family else graph.spread family symbol members) start

/-- The family in which every non-terminal has the empty set. -/
def blankFamily : Family := Family.empty.addAll g.nonTerminals ∅

/-- The FIRST sets. -/
def firstSets : Family :=
  let erasable := g.erasable
  let scans := g.productions.map fun production =>
    (production.head, g.leading erasable production.symbols)
  let graph : Dependencies :=
    ⟨scans.flatMap fun (head, parts, _) => parts.map fun part => (part, head)⟩
  let seeds := scans.foldl (fun family (head, _, member) => family.add head (.ofList member.toList))
    Family.empty
  g.spreadAll graph seeds (g.blankFamily.addAll erasable (.ofList [epsilonIndex]))

/-- Each non-terminal of a body with the symbols behind it. -/
def occurrences : List Nat → List (Nat × List Nat)
  | [] => []
  | symbol :: rest =>
    if g.isNonTerminal symbol then (symbol, rest) :: occurrences rest else occurrences rest

/-- The FOLLOW sets, given the FIRST sets. The head of the first production is followed by the end
mark. -/
def followSets (first : Family) : Family :=
  let scans := g.productions.flatMap fun production =>
    (g.occurrences production.symbols).map fun (symbol, rest) =>
      (production.head, symbol, g.firstOfString first rest)
  let graph : Dependencies := ⟨scans.filterMap fun (head, symbol, behind) =>
    if epsilonIndex ∈ behind then some (head, symbol) else none⟩
  let ends := match g.productions with
    | [] => Family.empty
    | production :: _ => Family.empty.add production.head (.ofList [endMarkIndex])
  let seeds := scans.foldl (fun family (_, symbol, behind) =>
    family.add symbol (behind.filter (· != epsilonIndex))) ends
  g.spreadAll graph seeds g.blankFamily

/-- FIRST and FOLLOW of every non-terminal. -/
def firstFollow : FirstFollow :=
  let first := g.firstSets
  ⟨first, g.followSets first⟩

end Grammar

end SimpleLR
