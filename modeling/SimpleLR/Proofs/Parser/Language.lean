import SimpleLR.Proofs.Grammar.Embedding
import SimpleLR.Proofs.Parser.Completeness
import SimpleLR.Proofs.Parser.Soundness

namespace SimpleLR

variable {g : Grammar} {start : Nat}

namespace Grammar

/-- Names that spell a sentence, symbol by symbol. -/
def Spells (g : Grammar) (names : List Text) : Prop :=
  ∃ word, g.Sentence word ∧ word.mapM g.name = .ok names

theorem Spells.endMarkName_not_mem {names : List Text} (spells : g.Spells names) (named : g.Named) :
    endMarkName ∉ names := by
  obtain ⟨word, sentence, spelled⟩ := spells
  exact named.endMarkName_not_mem sentence.1 (Result.mapM_eq_ok.mp spelled)

/-- What a grammar spells, a larger one spells that begins with its start symbol and has its names. -/
theorem Embeds.spells {small big : Grammar} {onSymbols onProductions : Nat → Nat}
    (embeds : small.Embeds big onSymbols onProductions) (chosen : small.start = some start)
    (chosen' : big.start = some (onSymbols start))
    (keeps : ∀ symbol < small.symbols.length, big.name (onSymbols symbol) = small.name symbol)
    {names : List Text} (spells : small.Spells names) : big.Spells names := by
  obtain ⟨word, sentence, named⟩ := spells
  obtain ⟨other, reductions, begins, yields⟩ := sentence_iff_yields.mp sentence
  obtain rfl := Option.some.inj (chosen.symm.trans begins)
  have moved := sentence_iff_yields.mpr ⟨_, _, chosen', embeds.yields yields⟩
  refine ⟨word.map onSymbols, moved, ?_⟩
  rw [List.mapM_map, ← named]
  exact Result.mapM_congr fun symbol member => keeps symbol (lt_of_isTerminal (yields.terminals symbol member))

end Grammar

namespace Analysis

variable {analysis : Analysis} {input : Text}

namespace Built

variable (built : analysis.Built g start)
include built

theorem mapM_name {word : List Nat} (terminals : ∀ symbol ∈ word, g.isTerminal symbol = true) :
    word.mapM analysis.grammar.name = word.mapM g.name :=
  built.from'.mapM_name fun symbol member => Grammar.lt_of_isTerminal (terminals symbol member)

/-- What spells a sentence makes the parser accept. -/
theorem accept_of_spells {names : List Text} (spells : g.Spells names) :
    ∃ count rows last, analysis.table.Steps analysis.grammar count
        ⟨⟨0, []⟩, names ++ [endMarkName]⟩ rows last ∧
      analysis.table.step analysis.grammar last = .ok (.accept [last.row .accept]) := by
  obtain ⟨word, sentence, named⟩ := spells
  obtain ⟨other, earlier, chosen, own⟩ := Grammar.sentence_iff_yields.mp sentence
  obtain rfl := Option.some.inj (built.from'.chosen.symm.trans chosen)
  have yields := built.from'.yields_augmented own
  rw [← built.mapM_name own.terminals, Result.mapM_eq_ok] at named
  obtain ⟨count, rows, last, steps, accepts, _⟩ :=
    built.faithful.accept_of_yields yields (.of_names yields.terminals named)
  exact ⟨count, rows, last, steps, accepts⟩

/-- What the parser accepts spells a sentence, if the end mark is among the tokens. -/
theorem spells_of_accept {tokens : List Text} {trace rows : List TraceRow} {last : Configuration}
    (reached : analysis.automaton.Recognized analysis.grammar tokens trace last)
    (accepts : analysis.table.step analysis.grammar last = .ok (.accept rows))
    (closed : endMarkName ∈ tokens) : ∃ names, tokens = names ++ [endMarkName] ∧ g.Spells names := by
  obtain ⟨word, names, yields, named, spelled, _⟩ := built.faithful.yields_of_accept reached accepts
  have absent := built.faithful.augmented.endMarkName_not_mem yields.terminals named
  have bound := Grammar.lt_of_isNonTerminal (built.formed.chosen built.from'.chosen)
  obtain ⟨earlier, _, own⟩ := built.from'.yields built.formed yields (by simpa using bound)
  refine ⟨names, spelled.resolve_left fun same => absent (same ▸ closed), word, ?_, ?_⟩
  · apply Grammar.sentence_iff_yields.mpr
    exact ⟨start, earlier, built.from'.chosen, own⟩
  · rw [← built.mapM_name own.terminals]
    exact Result.mapM_eq_ok.mpr named

/-- An input is accepted exactly if its words spell a sentence. -/
theorem accepted_iff_spells : (∃ trace, analysis.Ends input .accepted trace) ↔
    g.Spells (Configuration.sentence input) := by
  constructor
  · rintro ⟨trace, limit, ended⟩
    obtain ⟨count, rows, last, steps, accepts, rfl⟩ := Table.run_eq_accepted ended
    have reached := built.recognized steps
    rw [Configuration.tokens_eq] at reached
    obtain ⟨names, same, spells⟩ := built.spells_of_accept reached accepts (by simp)
    exact List.append_cancel_right same ▸ spells
  · intro spells
    obtain ⟨count, rows, last, steps, accepts⟩ := built.accept_of_spells spells
    rw [← Configuration.tokens_eq] at steps
    exact ⟨_, count + 1, Table.run_of_accept steps accepts⟩

end Built

end Analysis

end SimpleLR
