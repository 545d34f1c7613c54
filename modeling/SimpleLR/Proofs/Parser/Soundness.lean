import SimpleLR.Proofs.Parser.Valid

/-! What an accepted input is. The symbols on the stack always yield the tokens that were shifted, by
the reductions of the trace; when the parser accepts, the start symbol is the only one. -/
namespace SimpleLR

variable {g : Grammar} {goal start : Nat} {automaton : Automaton} {table : Table}

namespace Configuration

/-- The words of an input, without an end mark behind them. -/
def sentence (input : Text) : List Text :=
  let words := Text.words input
  if words.getLast? = some endMarkName then words.dropLast else words

theorem tokens_eq (input : Text) : tokens input = sentence input ++ [endMarkName] := by
  unfold tokens sentence
  dsimp only
  split
  · rename_i last
    exact (List.dropLast_append_getLast? endMarkName last).symm
  · rfl

end Configuration

/-- A configuration that a trace leads to. Its stack is a path of the automaton; the symbols on it
yield a word by the reductions of the trace, and the names of that word are the tokens shifted. -/
inductive Automaton.Recognized (g : Grammar) (automaton : Automaton) (tokens : List Text)
    (trace : List TraceRow) : Configuration → Prop where
  | intro {frames : List Frame} {symbols word : List Nat} {names input : List Text}
      (traces : automaton.Traces g frames symbols)
      (yields : g.Yields symbols.reverse word (TraceRow.reductions trace))
      (named : List.Forall₂ (fun symbol name => g.name symbol = .ok name) word names)
      (consumed : tokens = names ++ input)
      (shifted : TraceRow.shifts trace = names.map some) :
      Recognized g automaton tokens trace ⟨⟨0, frames⟩, input⟩

private theorem yields_reduced {symbols word reductions : List Nat} {index : Nat}
    {production : Production} (found : g.productions[index]? = some production)
    (seen : symbols.take production.length = production.symbols.reverse)
    (yields : g.Yields symbols.reverse word reductions) :
    g.Yields (production.head :: symbols.drop production.length).reverse word
      (reductions ++ [index]) := by
  have cut : symbols.reverse = (symbols.drop production.length).reverse ++ production.symbols := by
    conv_lhs => rw [← List.take_append_drop production.length symbols]
    rw [List.reverse_append, seen, List.reverse_reverse]
  rw [cut] at yields
  obtain ⟨left, right, before, after, rfl, rfl, front, body⟩ := yields.split
  simpa using front.append (.production found body .nil)

namespace Table.Faithful

open Automaton

variable (faithful : table.Faithful g goal start automaton)
include faithful

variable {tokens : List Text} {trace rows : List TraceRow} {current next : Configuration}

/-- A move keeps what was recognized. -/
theorem recognized_of_moves (recognized : automaton.Recognized g tokens trace current)
    (moves : table.Moves g current rows next) :
    automaton.Recognized g tokens (trace ++ rows) next := by
  obtain ⟨traces, yields, spelled, consumed, shifted⟩ := recognized
  obtain ⟨stack, path, rest, rfl, moved⟩ := faithful.moved_of_moves traces moves
  have further := moved.traces traces
  cases moved with
  | shift proper named _ reductions shifts =>
    have longer := yields.append (.terminal proper .nil)
    refine .intro further ?_ (List.rel_append spelled (.cons named .nil)) ?_ ?_
    · rw [List.reverse_cons, TraceRow.reductions_append, reductions]
      exact longer
    · rw [consumed, List.append_assoc]
      rfl
    · rw [TraceRow.shifts_append, shifted, shifts, List.map_append]
      rfl
  | @reduce _ _ production _ _ _ later found valid _ _ reductions shifts =>
    obtain ⟨same, rule, _, seen, _⟩ := valid.seen faithful.augmented.first
    obtain rfl := Option.some.inj (rule.symm.trans found)
    rw [show same.symbols.take same.length = same.symbols from List.take_length] at seen
    refine .intro further ?_ spelled consumed ?_
    · rw [TraceRow.reductions_append, reductions]
      exact yields_reduced found seen yields
    · rw [TraceRow.shifts_append, shifts, shifted, List.append_nil]

theorem recognized_of_steps {count : Nat} (recognized : automaton.Recognized g tokens trace current)
    (steps : table.Steps g count current rows next) :
    automaton.Recognized g tokens (trace ++ rows) next := by
  induction steps generalizing trace with
  | done => simpa using recognized
  | step moves _ ih =>
    rw [← List.append_assoc]
    exact ih (faithful.recognized_of_moves recognized moves)

/-- What the table accepts is what the start symbol yields, with the end mark behind it. -/
theorem yields_of_accept (recognized : automaton.Recognized g tokens trace current)
    (accepts : table.step g current = .ok (.accept rows)) :
    ∃ word names, g.Yields [start] word (TraceRow.reductions trace) ∧
      List.Forall₂ (fun symbol name => g.name symbol = .ok name) word names ∧
      (tokens = names ∨ tokens = names ++ [endMarkName]) ∧
      TraceRow.shifts trace = names.map some := by
  obtain @⟨frames, symbols, word, names, input, traces, yields, named, consumed, shifted⟩ := recognized
  obtain ⟨symbol, reads, cell, rfl⟩ := step_eq_accept.mp accepts
  obtain ⟨rfl, valid⟩ := (faithful.accept_cell traces).mp cell
  obtain ⟨production, rule, _, seen, called⟩ := valid.seen faithful.augmented.first
  obtain rfl := Option.some.inj (faithful.augmented.first.symm.trans rule)
  obtain ⟨_, empty⟩ := faithful.bottom_of_valid_first called
  rw [faithful.augmented.symbols_first] at seen
  have only : symbols = [start] := by
    rw [← List.take_append_drop 1 symbols, seen, empty]
    rfl
  subst only
  refine ⟨word, names, yields, named, ?_, shifted⟩
  rcases faithful.input_of_reads_endMark reads with rfl | rfl
  · exact .inl (by simpa using consumed)
  · exact .inr consumed

end Table.Faithful

namespace Analysis

variable {analysis : Analysis} {input : Text} {trace : List TraceRow}

/-- Every configuration of a run is one that its trace leads to. -/
theorem Built.recognized (built : analysis.Built g start) {count : Nat} {rows : List TraceRow} {current : Configuration}
    (steps : analysis.table.Steps analysis.grammar count (.initial input) rows current) :
    analysis.automaton.Recognized analysis.grammar (Configuration.tokens input) rows current := by
  have begun : analysis.automaton.Recognized analysis.grammar (Configuration.tokens input) []
      (.initial input) := .intro .start .nil .nil rfl rfl
  exact built.faithful.recognized_of_steps begun steps

/-- An accepted input is a sentence. The reductions of the trace, read from last to first, are a
rightmost derivation of it in the numbering of the augmented grammar, and its symbols are shifted one
by one. -/
theorem derivation_of_accepted (loaded : g.Loaded) (success : ofGrammar g = .ok analysis)
    (accepted : analysis.Ends input .accepted trace) :
    ∃ start word steps, g.start = some start ∧ g.Sentence word ∧
      word.mapM g.name = .ok (Configuration.sentence input) ∧
      g.DerivesRightmost steps [start] word ∧
      (TraceRow.reductions trace).reverse = steps.map (· + 1) ∧
      TraceRow.shifts trace = (Configuration.sentence input).map some := by
  obtain ⟨start, built⟩ := built_of_ofGrammar loaded success
  obtain ⟨limit, ended⟩ := accepted
  obtain ⟨count, rows, last, steps, accepts, rfl⟩ := Table.run_eq_accepted ended
  have begun : analysis.automaton.Recognized analysis.grammar (Configuration.tokens input) []
      (.initial input) := .intro .start .nil .nil rfl rfl
  have recognized := built.faithful.recognized_of_steps begun steps
  obtain ⟨word, names, yields, named, spelled, shifted⟩ :=
    built.faithful.yields_of_accept recognized accepts
  have bound := Grammar.lt_of_isNonTerminal (built.formed.chosen built.from'.chosen)
  obtain ⟨earlier, same, own⟩ := built.from'.yields built.formed yields (by simpa using bound)
  have named' : word.mapM g.name = .ok names := by
    rw [← Result.mapM_eq_ok] at named
    rw [← built.from'.mapM_name fun symbol member =>
      Grammar.lt_of_isTerminal (own.terminals symbol member)]
    exact named
  have spelled : names = Configuration.sentence input := by
    rw [Configuration.tokens_eq] at spelled
    rcases spelled with short | long
    · have mark : endMarkName ∈ names := by simp [← short]
      exact absurd mark (built.faithful.augmented.endMarkName_not_mem yields.terminals named)
    · exact (List.append_cancel_right long).symm
  subst spelled
  refine ⟨start, word, earlier.reverse, built.from'.chosen, ?_, named', own.derivesRightmost, ?_, ?_⟩
  · apply Grammar.sentence_iff_yields.mpr
    exact ⟨start, earlier, built.from'.chosen, own⟩
  · simpa using same
  · simpa using shifted

theorem derivation_of_accepted_pairs :
    ∃ analysis trace, ofGrammar .pairs = .ok analysis ∧ analysis.Ends "a a b b $" .accepted trace ∧
      ∃ start word steps, Grammar.pairs.start = some start ∧ Grammar.pairs.Sentence word ∧
        word.mapM Grammar.pairs.name = .ok (Configuration.sentence "a a b b $") ∧
        Grammar.pairs.DerivesRightmost steps [start] word ∧
        (TraceRow.reductions trace).reverse = steps.map (· + 1) ∧
        TraceRow.shifts trace = (Configuration.sentence "a a b b $").map some := by
  obtain ⟨analysis, success, accepts⟩ := exists_of_evaluated .pairs
    (fun analysis => (analysis.parse "a a b b $").toOption.any (·.outcome.isAccepted))
    (by decide +kernel)
  obtain ⟨trace, accepted⟩ := ends_of_evaluated accepts
  exact ⟨analysis, trace, success, accepted,
    derivation_of_accepted Grammar.loaded_pairs success accepted⟩

end Analysis

end SimpleLR
