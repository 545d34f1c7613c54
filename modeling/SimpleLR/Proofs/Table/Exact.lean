import SimpleLR.Proofs.Automaton.Machine

/-! The table of a loaded grammar is exactly what its automaton and FOLLOW sets require, and it is there
exactly if no cell requires two actions. A conflict always shows two different actions that its cell
requires: no edge, item or member of a FOLLOW set is met twice. The sets may be listed in any order
before they are sorted. -/
namespace SimpleLR

variable {g : Grammar} {sets : FirstFollow} {automaton : Automaton}

/-- No cell requires two different actions. -/
def Automaton.SingleValued (g : Grammar) (sets : FirstFollow) (automaton : Automaton) : Prop :=
  ∀ {number terminal : Nat} {first second : Action}, automaton.Requires g sets number terminal first →
    automaton.Requires g sets number terminal second → first = second

namespace FirstFollow

/-- The FOLLOW sets after each was listed in some order, which may depend on its symbol, and sorted. -/
def relisted (order : Nat → SymbolSet → List Nat) (sets : FirstFollow) : FirstFollow :=
  { sets with
    follow := ⟨sets.follow.entries.map fun (symbol, set) => (symbol, .ofList (order symbol set))⟩ }

private theorem relisted_eq {order : Nat → SymbolSet → List Nat}
    (lists : ∀ symbol set, (order symbol set).Perm set.toList) (sets : FirstFollow) :
    sets.relisted order = sets := by
  have same (symbol : Nat) (set : SymbolSet) : SortedSet.ofList (order symbol set) = set := by
    apply SortedSet.ext
    intro member
    rw [SortedSet.mem_ofList, (lists symbol set).mem_iff, SortedSet.mem_toList]
  simp only [relisted, same, List.map_id']

end FirstFollow

section Contested

/-- An action is asked for by one item of a state at most: a reduction names the production, and the
dot stands at the end. -/
private theorem Item.Asks.item_unique {item other : Item} {terminal : Nat} {action : Action}
    (first : item.Asks g sets terminal action) (second : other.Asks g sets terminal action)
    (inside : item ∈ g.allItems) (inside' : other ∈ g.allItems) : item = other := by
  have same : item.production = other.production := by
    generalize whole : action = wanted at second
    cases first with
    | reduce => cases second with
      | reduce => exact Action.reduce.inj whole
      | accept => cases whole
    | accept _ _ zero => cases second with
      | reduce => cases whole
      | accept _ _ zero' => rw [zero, zero']
  have completed {item : Item} (asks : item.Asks g sets terminal action) (inside : item ∈ g.allItems) :
      ∃ production, g.productions[item.production]? = some production ∧
        item.position = production.length := by
    obtain ⟨production, rule, bound⟩ := Grammar.mem_allItems.mp inside
    cases asks with
    | reduce rule' complete | accept rule' complete =>
      obtain rfl := Option.some.inj (rule.symm.trans rule')
      exact ⟨production, rule, Nat.le_antisymm bound complete⟩
  obtain ⟨production, rule, ends⟩ := completed first inside
  obtain ⟨production', rule', ends'⟩ := completed second inside'
  obtain ⟨number, position⟩ := item
  obtain ⟨number', position'⟩ := other
  obtain rfl : number = number' := same
  obtain rfl := Option.some.inj (rule.symm.trans rule')
  rw [Item.mk.injEq]
  exact ⟨rfl, ends.trans ends'.symm⟩

namespace Automaton.Contested

variable {number terminal : Nat} {existing new : Action}

theorem requires (contested : automaton.Contested g sets number terminal existing new) :
    automaton.Requires g sets number terminal existing ∧
      automaton.Requires g sets number terminal new := by
  obtain ⟨state, before, item, after, found, split, asks, first⟩ := contested
  refine ⟨?_, .asked found (by simp [split]) asks⟩
  rcases first with ⟨target, proper, edge, rfl⟩ | ⟨earlier, member, wanted⟩
  · exact .shift edge proper
  · exact .asked found (by simp [split, member]) wanted

private theorem ne (canonical : automaton.Canonical g)
    (once : ∀ state ∈ automaton.states, state.items.Nodup)
    (contested : automaton.Contested g sets number terminal existing new) : existing ≠ new := by
  obtain ⟨state, before, item, after, found, split, asks, first⟩ := contested
  rintro rfl
  rcases first with ⟨target, _, _, rfl⟩ | ⟨earlier, member, wanted⟩
  · cases asks
  · have apart := once state (List.mem_of_getElem? found)
    rw [split, List.nodup_middle, List.nodup_cons] at apart
    have same := wanted.item_unique asks
      (canonical.inside found (by simp [split, member])) (canonical.inside found (by simp [split]))
    exact apart.1 (List.mem_append_left _ (same ▸ member))

end Automaton.Contested

end Contested

namespace Analysis

section Prepared

variable {start : Nat} {grown : Grammar} (loaded : g.Loaded) (from' : g.AugmentedFrom start grown)
  (prepared : g.automaton = .ok (grown, automaton))
include loaded from' prepared

theorem compiled_of_ofGrammar {analysis : Analysis} (success : ofGrammar g = .ok analysis) :
    analysis.grammar = grown ∧ analysis.automaton = automaton ∧
      analysis.table.Compiled grown grown.firstFollow automaton := by
  have goal := from'.augmented' loaded.wellFormed
  have collected := (Grammar.automaton_eq_ok.mp prepared).2
  have canonical := Grammar.canonical_of_collection goal.first collected
  unfold ofGrammar at success
  rw [prepared] at success
  obtain ⟨table, made, same⟩ :=
    Result.bind_eq_ok.mp (show ofAutomaton grown automaton = .ok analysis from success)
  obtain rfl := Except.ok.inj same
  exact ⟨rfl, rfl, Automaton.compiled_of_table goal canonical made⟩

/-- A grammar that is not analysed has a cell that requires two different actions, and reports it. -/
theorem reports_of_ofGrammar {failure : Failure} (failed : ofGrammar g = .error failure) :
    ∃ number terminal existing new, failure.Reports grown number terminal existing new ∧
      existing ≠ new ∧ automaton.Requires grown grown.firstFollow number terminal existing ∧
      automaton.Requires grown grown.firstFollow number terminal new := by
  have goal := from'.augmented' loaded.wellFormed
  have collected := (Grammar.automaton_eq_ok.mp prepared).2
  have canonical := Grammar.canonical_of_collection goal.first collected
  have once := (goal.toWellFormed.subsets goal.first collected).once
  obtain ⟨_, _, _, again, contested⟩ := contested_of_ofGrammar loaded from'.chosen
  obtain ⟨rfl, rfl⟩ := Prod.mk.inj (Except.ok.inj (prepared.symm.trans again))
  obtain ⟨number, terminal, existing, new, reports, clash⟩ := contested failure failed
  exact ⟨number, terminal, existing, new, reports, clash.ne canonical once, clash.requires⟩

/-- A grammar is analysed exactly if no cell requires two different actions. -/
theorem exists_ofGrammar_iff : (∃ analysis, ofGrammar g = .ok analysis) ↔
    automaton.SingleValued grown grown.firstFollow := by
  constructor
  · rintro ⟨analysis, success⟩ number terminal first second required required'
    obtain ⟨_, _, table⟩ := compiled_of_ofGrammar loaded from' prepared success
    exact Option.some.inj ((table.action.mpr required).symm.trans (table.action.mpr required'))
  · intro single
    cases result : ofGrammar g with
    | ok analysis => exact ⟨analysis, rfl⟩
    | error failure =>
      obtain ⟨_, _, _, _, _, apart, first, second⟩ := reports_of_ofGrammar loaded from' prepared result
      exact absurd (single first second) apart

end Prepared

/-- For a loaded grammar with a start symbol the table is exactly the one that the automaton and the
FOLLOW sets require. It is there exactly if it is single-valued; otherwise the conflict shows a cell
with two different actions, the same in whatever order the FOLLOW sets are listed. -/
theorem table_exact (loaded : g.Loaded) {start : Nat} (chosen : g.start = some start) :
    ∃ grown automaton, g.AugmentedFrom start grown ∧ g.automaton = .ok (grown, automaton) ∧
      ((∃ analysis, ofGrammar g = .ok analysis) ↔ automaton.SingleValued grown grown.firstFollow) ∧
      (∀ analysis, ofGrammar g = .ok analysis →
        analysis.grammar = grown ∧ analysis.automaton = automaton ∧
        (∀ number terminal action, analysis.table.action? number terminal = some action ↔
          automaton.Requires grown grown.firstFollow number terminal action) ∧
        ∀ number, ∀ symbol ∈ grown.listedNonTerminals,
          analysis.table.goto? number symbol = automaton.transition? number symbol) ∧
      (∀ failure, ofGrammar g = .error failure → ∃ number terminal existing new,
        failure.Reports grown number terminal existing new ∧ existing ≠ new ∧
        automaton.Requires grown grown.firstFollow number terminal existing ∧
        automaton.Requires grown grown.firstFollow number terminal new) ∧
      ∀ order : Nat → SymbolSet → List Nat, (∀ symbol set, (order symbol set).Perm set.toList) →
        automaton.table grown (grown.firstFollow.relisted order) =
          automaton.table grown grown.firstFollow := by
  obtain ⟨grown, automaton, from', prepared, _⟩ := contested_of_ofGrammar loaded chosen
  refine ⟨grown, automaton, from', prepared, exists_ofGrammar_iff loaded from' prepared,
    fun analysis success => ?_, fun failure failed => reports_of_ofGrammar loaded from' prepared failed,
    fun order lists => ?_⟩
  · obtain ⟨same, same', table⟩ := compiled_of_ofGrammar loaded from' prepared success
    refine ⟨same, same', fun number terminal action => table.action, fun number symbol listed => ?_⟩
    apply Option.ext
    intro target
    rw [table.goto]
    exact and_iff_right listed
  · rw [FirstFollow.relisted_eq lists]

end Analysis

/-- The grammar of the dangling `e`, with `S -> i S e S`, `S -> i S` and `S -> a`. -/
def Grammar.dangling : Grammar where
  symbols := [.epsilon, .endMark, .nonTerminal "S", .terminal "i", .terminal "e", .terminal "a"]
  productions := [⟨2, [3, 2, 4, 2]⟩, ⟨2, [3, 2]⟩, ⟨2, [5]⟩]
  start := some 2
  augmented := none

theorem Grammar.loaded_dangling : dangling.Loaded :=
  ⟨[⟨"S", ["i", "S", "e", "S"]⟩, ⟨"S", ["i", "S"]⟩, ⟨"S", ["a"]⟩], rfl⟩

/-- Behind `i S` the dangling `e` requires a shift and a reduction by the second rule. -/
theorem Analysis.table_exact_dangling : Grammar.dangling.Loaded ∧ Grammar.dangling.start = some 2 ∧
    ∃ grown automaton, Grammar.dangling.automaton = .ok (grown, automaton) ∧
      ¬ automaton.SingleValued grown grown.firstFollow ∧ ∃ terminal, grown.name terminal = .ok "e" ∧
        automaton.Requires grown grown.firstFollow 4 terminal (.shift 5) ∧
        automaton.Requires grown grown.firstFollow 4 terminal (.reduce 2) := by
  have failed : ofGrammar .dangling =
      .error (.rejected (.conflict 4 "e" (.shift 5) (.reduce 2))) := by decide +kernel
  have chosen : Grammar.dangling.start = some 2 := rfl
  obtain ⟨grown, automaton, _, prepared, single, _, reported, _⟩ :=
    table_exact Grammar.loaded_dangling chosen
  obtain ⟨number, terminal, existing, new, ⟨name, named, same⟩, _, first, second⟩ := reported _ failed
  injection same with same
  injection same with same name' existing' new'
  subst same name' existing' new'
  refine ⟨Grammar.loaded_dangling, chosen, grown, automaton, prepared, fun holds => ?_, terminal, named,
    first, second⟩
  obtain ⟨analysis, success⟩ := single.mpr holds
  exact nomatch failed.symm.trans success

end SimpleLR
