import SimpleLR.Proofs.Automaton.Renumbering
import SimpleLR.Proofs.Parser.Language

namespace SimpleLR

namespace Grammar

variable {g g' grown grown' : Grammar} {onSymbols onProductions : Equiv.Perm Nat}

theorem Matches.spells (matched : g.Matches g' onSymbols onProductions) {names : List Text}
    (spells : g.Spells names) : g'.Spells names := by
  obtain ⟨word, sentence, _⟩ := id spells
  obtain ⟨start, _, chosen, _⟩ := sentence_iff_yields.mp sentence
  have chosen' : g'.start = some (onSymbols start) := by rw [matched.start, chosen, Option.map_some]
  exact matched.embeds.spells chosen chosen' (fun _ => matched.name) spells

theorem Matches.spells_iff (matched : g.Matches g' onSymbols onProductions) {names : List Text} :
    g'.Spells names ↔ g.Spells names :=
  ⟨matched.symm.spells, matched.spells⟩

/-- The automata of matching grammars are there, and are the same up to numbers. -/
theorem Rearranged.exists_renumbering
    (arranged : Rearranged g grown g' grown' onSymbols onProductions) :
    ∃ automaton automaton' onStates, g.automaton = .ok (grown, automaton) ∧
      g'.automaton = .ok (grown', automaton') ∧
      automaton.Renumbers automaton' onSymbols (behind onProductions) onStates := by
  obtain ⟨automaton, collected⟩ := arranged.wellFormed.collection_ok
  obtain ⟨automaton', collected'⟩ := arranged.wellFormed'.collection_ok
  have success := automaton_eq_ok.mpr ⟨arranged.extended, collected⟩
  have success' := automaton_eq_ok.mpr ⟨arranged.extended', collected'⟩
  have paired : Automaton.Paired grown automaton grown' automaton' onSymbols (behind onProductions) :=
    ⟨Automaton.complete_of_automaton arranged.loaded success,
      Automaton.complete_of_automaton arranged.loaded' success', arranged.matched, rfl⟩
  obtain ⟨onStates, renumbers⟩ := paired.exists_renumbering
  exact ⟨automaton, automaton', onStates, success, success', renumbers⟩

end Grammar

/-- The rules of some pieces: `S -> A B`, `S -> c`, `A -> a`, `A -> ε` and `B -> b`. -/
def Rule.pieces : List Rule := [⟨"S", ["A", "B"]⟩, ⟨"S", ["c"]⟩, ⟨"A", ["a"]⟩, ⟨"A", []⟩, ⟨"B", ["b"]⟩]

/-- These rules in another order, which still begins with a rule of `S`. -/
def Rule.piecesShuffled : List Rule :=
  [⟨"S", ["c"]⟩, ⟨"B", ["b"]⟩, ⟨"A", []⟩, ⟨"S", ["A", "B"]⟩, ⟨"A", ["a"]⟩]

/-- The grammar of the pieces. -/
def Grammar.pieces : Grammar where
  symbols := [.epsilon, .endMark, .nonTerminal "S", .nonTerminal "A", .nonTerminal "B",
    .terminal "c", .terminal "a", .terminal "b"]
  productions := [⟨2, [3, 4]⟩, ⟨2, [5]⟩, ⟨3, [6]⟩, ⟨3, [epsilonIndex]⟩, ⟨4, [7]⟩]
  start := some 2
  augmented := none

namespace Analysis

variable {g g' : Grammar} {onSymbols onProductions : Equiv.Perm Nat}

theorem exists_ofGrammar_iff_of_matches (matched : g.Matches g' onSymbols onProductions)
    (loaded : g.Loaded) (loaded' : g'.Loaded) :
    (∃ analysis, ofGrammar g' = .ok analysis) ↔ ∃ analysis, ofGrammar g = .ok analysis := by
  cases chosen : g.start with
  | none =>
    have missing : g'.start = none := by rw [matched.start, chosen, Option.map_none]
    rw [ofGrammar_of_start loaded.augmented chosen, ofGrammar_of_start loaded'.augmented missing]
  | some start =>
    obtain ⟨grown, grown', arranged⟩ := matched.exists_rearranged loaded loaded' chosen
    rw [exists_ofGrammar_iff_decided loaded arranged.extended,
      exists_ofGrammar_iff_decided loaded' arranged.extended']
    exact arranged.matched.decided_iff rfl arranged.wellFormed arranged.wellFormed'

/-- A permutation of the rules that keeps the first head makes a grammar with other numbers. Its FIRST and
FOLLOW sets hold the same names, before and after augmentation. Its automaton is the same up to numbers. It
is analysed exactly if the other one is, and then both parsers accept the same inputs. -/
theorem same_of_reordered {rules rules' : List Rule} (shuffled : rules.Perm rules')
    (leads : rules.head?.map Rule.head = rules'.head?.map Rule.head)
    (success : Grammar.ofRules rules = .ok g) :
    ∃ (g' : Grammar) (onSymbols onProductions : Equiv.Perm Nat), Grammar.ofRules rules' = .ok g' ∧
      (∀ index, rules'[onProductions index]? = rules[index]?) ∧
      g.Matches g' onSymbols onProductions ∧ g.SameSets g' onSymbols ∧
      (rules ≠ [] → ∃ grown grown' automaton automaton' onStates,
        g.automaton = .ok (grown, automaton) ∧ g'.automaton = .ok (grown', automaton') ∧
        grown.Matches grown' onSymbols (behind onProductions) ∧ grown.SameSets grown' onSymbols ∧
        automaton.Renumbers automaton' onSymbols (behind onProductions) onStates) ∧
      ((∃ analysis, ofGrammar g' = .ok analysis) ↔ ∃ analysis, ofGrammar g = .ok analysis) ∧
      ∀ analysis analysis', ofGrammar g = .ok analysis → ofGrammar g' = .ok analysis' → ∀ input,
        (∃ trace, analysis'.Ends input .accepted trace) ↔
          ∃ trace, analysis.Ends input .accepted trace := by
  obtain ⟨g', onSymbols, onProductions, success', matched, places⟩ :=
    Grammar.exists_matches shuffled leads success
  have loaded : g.Loaded := ⟨rules, success⟩
  have loaded' : g'.Loaded := ⟨rules', success'⟩
  refine ⟨g', onSymbols, onProductions, success', places, matched,
    matched.sameSets_of_loaded loaded loaded', fun filled => ?_,
    exists_ofGrammar_iff_of_matches matched loaded loaded', fun analysis analysis' one other input => ?_⟩
  · have nonEmpty := (Grammar.transcribes_of_ofRules success).productions_ne_nil filled
    obtain ⟨start, chosen⟩ := loaded.exists_start nonEmpty
    obtain ⟨grown, grown', arranged⟩ := matched.exists_rearranged loaded loaded' chosen
    obtain ⟨automaton, automaton', onStates, made, made', renumbers⟩ := arranged.exists_renumbering
    exact ⟨grown, grown', automaton, automaton', onStates, made, made', arranged.matched,
      arranged.sameSets, renumbers⟩
  · obtain ⟨_, built⟩ := built_of_ofGrammar loaded one
    obtain ⟨_, built'⟩ := built_of_ofGrammar loaded' other
    rw [built.accepted_iff_spells, built'.accepted_iff_spells, matched.spells_iff]

/-- The pieces in the other order make another grammar, whose parser accepts the same inputs. -/
theorem same_of_reordered_pieces : Grammar.ofRules Rule.pieces = .ok .pieces ∧
    Rule.pieces.Perm Rule.piecesShuffled ∧
    Rule.pieces.head?.map Rule.head = Rule.piecesShuffled.head?.map Rule.head ∧
    ∃ g' analysis analysis', Grammar.ofRules Rule.piecesShuffled = .ok g' ∧ g' ≠ .pieces ∧
      ofGrammar .pieces = .ok analysis ∧ ofGrammar g' = .ok analysis' ∧
      ∀ input, (∃ trace, analysis'.Ends input .accepted trace) ↔
        ∃ trace, analysis.Ends input .accepted trace := by
  have loads : Grammar.ofRules Rule.pieces = .ok .pieces := by decide +kernel
  have shuffled : Rule.pieces.Perm Rule.piecesShuffled := by decide +kernel
  have apart : Grammar.ofRules Rule.piecesShuffled ≠ .ok .pieces := by decide +kernel
  obtain ⟨analysis, success, _⟩ :=
    exists_of_evaluated .pieces (fun _ => true) (by decide +kernel)
  obtain ⟨g', _, _, loads', _, _, _, _, analysed, same⟩ := same_of_reordered shuffled rfl loads
  obtain ⟨analysis', success'⟩ := analysed.mpr ⟨analysis, success⟩
  refine ⟨loads, shuffled, rfl, g', analysis, analysis', loads', ?_, success, success',
    same analysis analysis' success success'⟩
  intro equal
  exact apart (equal ▸ loads')

end Analysis

end SimpleLR
