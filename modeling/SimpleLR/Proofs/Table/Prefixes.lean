import SimpleLR.Proofs.Table.Exact

/-! Conflicts without states. What a cell requires is what the item machine wants behind a string of
symbols that leads to the state: to shift, or to reduce by a completed production. So a grammar has a
table exactly if behind no string two such things are wanted on one terminal. -/
namespace SimpleLR

variable {g : Grammar} {automaton : Automaton} {number terminal : Nat} {word : List Nat}

/-- The production that an action completes. A shift completes none. -/
def Action.production? : Action → Option Nat
  | .shift _ => none
  | .reduce production => some production
  | .accept => some 0

theorem Item.Asks.production? {sets : FirstFollow} {item : Item} {action : Action}
    (asks : item.Asks g sets terminal action) : action.production? = some item.production := by
  cases asks with
  | reduce => rfl
  | accept _ _ first => exact congrArg some first.symm

namespace Grammar

/-- What is wanted behind a string when a terminal comes next: nothing completed if an item has the
terminal after its dot, and the production of each item that asks for an action on it. -/
inductive Wants (g : Grammar) (word : List Nat) (terminal : Nat) : Option Nat → Prop where
  | shift {item : Item} (path : g.ItemPath word item) (dot : g.afterDot? item = some terminal)
      (proper : g.isTerminal terminal = true) : Wants g word terminal none
  | asked {item : Item} {action : Action} (path : g.ItemPath word item)
      (asks : item.Asks g g.firstFollow terminal action) : Wants g word terminal (some item.production)

/-- No string leaves a choice on a terminal. -/
def Decided (g : Grammar) : Prop := ∀ ⦃word : List Nat⦄ ⦃terminal : Nat⦄ ⦃first second : Option Nat⦄,
  g.Wants word terminal first → g.Wants word terminal second → first = second

private theorem Wants.exists_path {want : Option Nat} (wants : g.Wants word terminal want) :
    ∃ item, g.ItemPath word item := by
  cases wants with
  | shift path | asked path => exact ⟨_, path⟩

end Grammar

namespace Automaton

private theorem Requires.eq_of_production? {sets : FirstFollow} {first second : Action}
    (required : automaton.Requires g sets number terminal first)
    (required' : automaton.Requires g sets number terminal second)
    (same : first.production? = second.production?) : first = second := by
  cases required with
  | shift edge => cases required' with
    | shift edge' => rw [Option.some.inj (edge.symm.trans edge')]
    | asked _ _ asks => exact nomatch same.trans asks.production?
  | asked _ _ asks => cases required' with
    | shift => exact nomatch asks.production?.symm.trans same
    | asked _ _ asks' =>
      -- a reduction is never by the first production, which alone accepts
      cases asks with
      | reduce _ _ later => cases asks' with
        | reduce => rw [Option.some.inj same]
        | accept => exact absurd (Option.some.inj same) later
      | accept => cases asks' with
        | reduce _ _ later => exact absurd (Option.some.inj same).symm later
        | accept => rfl

variable (canonical : automaton.Canonical g) (subsets : automaton.Subsets g)
  (walked : automaton.walk? word = some number)
include canonical subsets walked

theorem Requires.wants {action : Action}
    (required : automaton.Requires g g.firstFollow number terminal action) :
    g.Wants word terminal action.production? := by
  obtain ⟨state, found, items⟩ := subsets.items walked
  cases required with
  | shift edge proper =>
    obtain ⟨⟨item, member, dot⟩, _⟩ := (canonical.transition?_iff found).mp edge
    exact .shift ((items item).mp member) dot proper
  | asked here member asks =>
    obtain rfl := Option.some.inj (here.symm.trans found)
    rw [asks.production?]
    exact .asked ((items _).mp member) asks

theorem exists_required {want : Option Nat} (wants : g.Wants word terminal want) :
    ∃ action, automaton.Requires g g.firstFollow number terminal action ∧
      action.production? = want := by
  obtain ⟨state, found, items⟩ := subsets.items walked
  cases wants with
  | shift path dot proper =>
    obtain ⟨target, edge⟩ := canonical.leads found ((items _).mpr path) dot
    exact ⟨_, .shift (canonical.transition?_eq_some.mpr ⟨state, found, edge⟩) proper, rfl⟩
  | asked path asks => exact ⟨_, .asked found ((items _).mpr path) asks, asks.production?⟩

omit walked in
/-- A canonical automaton is single-valued exactly if its grammar leaves no choice. -/
theorem singleValued_iff_decided : automaton.SingleValued g g.firstFollow ↔ g.Decided := by
  constructor
  · intro single word terminal first second wants wants'
    obtain ⟨number, walked⟩ := (subsets.spelled word).mpr wants.exists_path
    obtain ⟨action, required, rfl⟩ := exists_required canonical subsets walked wants
    obtain ⟨action', required', rfl⟩ := exists_required canonical subsets walked wants'
    rw [single required required']
  · intro decided number terminal first second required required'
    obtain ⟨state, found⟩ := required.exists_state canonical
    obtain ⟨word, walked⟩ := subsets.reached number (List.getElem?_eq_some_iff.mp found).1
    exact required.eq_of_production? required'
      (decided (required.wants canonical subsets walked) (required'.wants canonical subsets walked))

end Automaton

/-- A loaded grammar with a start symbol is analysed exactly if its augmented grammar leaves no choice. -/
theorem Analysis.exists_ofGrammar_iff_decided (loaded : g.Loaded) {grown : Grammar}
    (extended : g.augment = .ok grown) : (∃ analysis, ofGrammar g = .ok analysis) ↔ grown.Decided := by
  obtain ⟨start, from'⟩ := Grammar.augment_eq_ok loaded.augmented extended
  have goal := from'.augmented' loaded.wellFormed
  obtain ⟨automaton, collected⟩ := goal.collection_ok
  have canonical := Grammar.canonical_of_collection goal.first collected
  have subsets := goal.toWellFormed.subsets goal.first collected
  have prepared := Grammar.automaton_eq_ok.mpr ⟨extended, collected⟩
  exact (exists_ofGrammar_iff loaded from' prepared).trans
    (Automaton.singleValued_iff_decided canonical subsets)

end SimpleLR
