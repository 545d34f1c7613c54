import SimpleLR.Analysis
import SimpleLR.Proofs.Table.Cells

namespace SimpleLR

/-- A table that was compiled from the automaton of an augmented grammar. -/
structure Table.Faithful (g : Grammar) (goal start : Nat) (automaton : Automaton) (table : Table) :
    Prop where
  augmented : g.Augmented goal start
  canonical : automaton.Canonical g
  compiled : table.Compiled g g.firstFollow automaton

theorem Grammar.automaton_eq_ok {g grown : Grammar} {automaton : Automaton} :
    g.automaton = .ok (grown, automaton) ↔
      g.augment = .ok grown ∧ grown.collection = .ok automaton := by
  unfold Grammar.automaton
  constructor
  · intro success
    obtain ⟨augmented, extended, success⟩ := Result.bind_eq_ok.mp success
    obtain ⟨states, collected, same⟩ := Result.bind_eq_ok.mp success
    obtain ⟨rfl, rfl⟩ := Prod.mk.inj (Except.ok.inj same)
    exact ⟨extended, Result.mapError_eq_ok.mp collected⟩
  · rintro ⟨extended, collected⟩
    simp [extended, collected, Failure.ofFault, Except.mapError, bind, Except.bind, pure, Except.pure]

namespace Analysis

/-- The analysis of a grammar with a start symbol. -/
structure Built (g : Grammar) (start : Nat) (analysis : Analysis) : Prop where
  formed : g.WellFormed
  from' : g.AugmentedFrom start analysis.grammar
  faithful : analysis.table.Faithful analysis.grammar g.symbols.length start analysis.automaton

variable {g : Grammar} {analysis : Analysis}

theorem table_of_ofGrammar (success : ofGrammar g = .ok analysis) :
    analysis.automaton.table analysis.grammar analysis.grammar.firstFollow = .ok analysis.table := by
  obtain ⟨⟨grown, automaton⟩, _, success⟩ := Result.bind_eq_ok.mp success
  obtain ⟨table, made, same⟩ := Result.bind_eq_ok.mp success
  rw [← Except.ok.inj same]
  exact made

theorem built_of_ofGrammar (loaded : g.Loaded) (success : ofGrammar g = .ok analysis) :
    ∃ start, analysis.Built g start := by
  unfold ofGrammar at success
  obtain ⟨⟨grown, automaton⟩, prepared, success⟩ := Result.bind_eq_ok.mp success
  obtain ⟨extended, collected⟩ := Grammar.automaton_eq_ok.mp prepared
  obtain ⟨table, compiled, same⟩ := Result.bind_eq_ok.mp success
  obtain rfl := Except.ok.inj same
  obtain ⟨start, from'⟩ := Grammar.augment_eq_ok loaded.augmented extended
  have formed := loaded.wellFormed
  have goal := from'.augmented' formed
  have canonical := Grammar.canonical_of_collection goal.first collected
  exact ⟨start, formed, from', goal, canonical, Automaton.compiled_of_table goal canonical compiled⟩

/-- A loaded grammar with a start symbol has an automaton, and is analysed unless two requests want a
cell of its table. -/
theorem contested_of_ofGrammar (loaded : g.Loaded) {start : Nat} (chosen : g.start = some start) :
    ∃ grown automaton, g.AugmentedFrom start grown ∧ g.automaton = .ok (grown, automaton) ∧
      ∀ failure, ofGrammar g = .error failure → ∃ number terminal existing new,
        failure.Reports grown number terminal existing new ∧
        automaton.Contested grown grown.firstFollow number terminal existing new := by
  have formed := loaded.wellFormed
  obtain ⟨grown, extended⟩ := formed.augment_ok loaded.augmented chosen
  obtain ⟨other, from'⟩ := Grammar.augment_eq_ok loaded.augmented extended
  obtain rfl := Option.some.inj (chosen.symm.trans from'.chosen)
  have goal := from'.augmented' formed
  obtain ⟨automaton, collected⟩ := goal.collection_ok
  have canonical := Grammar.canonical_of_collection goal.first collected
  have prepared := Grammar.automaton_eq_ok.mpr ⟨extended, collected⟩
  refine ⟨grown, automaton, from', prepared, fun failure failed => ?_⟩
  unfold ofGrammar at failed
  rw [prepared] at failed
  have failed : ofAutomaton grown automaton = .error failure := failed
  rcases Result.bind_eq_error.mp failed with conflict | ⟨table, _, never⟩
  · exact Automaton.contested_of_table goal canonical conflict
  · cases never

theorem ofGrammar_of_start (bare : g.augmented = none) (missing : g.start = none) :
    ofGrammar g = .error (.rejected .missingStart) := by
  simp [ofGrammar, Grammar.automaton, Grammar.augment, bare, missing, bind, Except.bind]

/-- A loaded grammar with a start symbol is analysed unless its table has a conflict. -/
theorem conflict_of_ofGrammar (loaded : g.Loaded) {start : Nat} (chosen : g.start = some start)
    {failure : Failure} (failed : ofGrammar g = .error failure) :
    ∃ number terminal existing new,
      failure = .rejected (.conflict number terminal existing new) := by
  obtain ⟨_, _, _, _, contested⟩ := contested_of_ofGrammar loaded chosen
  obtain ⟨number, _, existing, new, ⟨name, _, same⟩, _⟩ := contested failure failed
  exact ⟨number, name, existing, new, same⟩

theorem exists_of_evaluated (g : Grammar) (test : Analysis → Bool)
    (passes : (ofGrammar g).toOption.any test = true) :
    ∃ analysis, ofGrammar g = .ok analysis ∧ test analysis = true :=
  Result.exists_of_evaluated (ofGrammar g) test passes

end Analysis

/-- The grammar of nested pairs, `S -> a S b` and `S -> ε`. -/
def Grammar.pairs : Grammar where
  symbols := [.epsilon, .endMark, .nonTerminal "S", .terminal "a", .terminal "b"]
  productions := [⟨2, [3, 2, 4]⟩, ⟨2, [epsilonIndex]⟩]
  start := some 2
  augmented := none

theorem Grammar.loaded_pairs : pairs.Loaded := ⟨[⟨"S", ["a", "S", "b"]⟩, ⟨"S", ["ε"]⟩], rfl⟩

end SimpleLR
