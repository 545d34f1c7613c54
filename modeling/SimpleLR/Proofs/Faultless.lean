import SimpleLR.CommandLine
import SimpleLR.Proofs.Listing.Indexed
import SimpleLR.Proofs.Parser.Replay

/-! No grammar that was read is at fault. Its automaton, its sets and its table name nothing that is not there;
whatever the input, at every step of a run the next token and the states of the stack are there; and no output is
at fault but the reports of runs that were stopped. -/
namespace SimpleLR

variable {g : Grammar} {start : Nat} {analysis : Analysis}

/-- The cursor is at a token, the tokens that remain are those from there on, and each state of the stack has a
row. -/
structure Configuration.Indexed (table : Table) (tokens : List Text) (cursor : Nat) (current : Configuration) :
    Prop where
  inside : cursor < tokens.length
  input : current.input = tokens.drop cursor
  states : ∀ state ∈ current.stack.states, state < table.rows.length

/-- What is looked up by numbers for a parser, its runs and the plain tables is there. The cursor of a run counts
the tokens that were shifted. -/
structure Analysis.Indexed (analysis : Analysis) : Prop where
  grammar : analysis.grammar.Indexed
  automaton : analysis.automaton.Indexed analysis.grammar
  table : analysis.table.Indexed analysis.grammar analysis.automaton
  steps : ∀ input count rows current,
    analysis.table.Steps analysis.grammar count (.initial input) rows current →
      current.Indexed analysis.table (Configuration.tokens input) (TraceRow.shifts rows).length
  runs : ∀ input limit fault,
    analysis.table.run analysis.grammar limit (.initial input) [] ≠ some (.error fault)
  listing : ∃ listing rows text, analysis.grammar.tableListing analysis.table = .ok listing ∧
    listing.rows listing.plainAction = .ok rows ∧
    Text.tableByNumbers (listing.heading :: rows) = .ok text ∧ listing.plain = .ok text
  report : ∀ input report, analysis.parse input = .ok report → ∃ text,
    Text.tableByNumbers (Report.heading :: report.trace.map TraceRow.cells) = .ok text ∧
      report.plain = report.input ++ ": " ++ report.verdict ++ "\n" ++ text

private theorem Automaton.Traces.lt_of_mem_states {automaton : Automaton} {frames : List Frame} {symbols : List Nat}
    (traces : automaton.Traces g frames symbols) (canonical : automaton.Canonical g) :
    ∀ state ∈ Stack.states ⟨0, frames⟩, state < automaton.states.length := by
  induction traces with
  | start =>
    obtain ⟨_, found, _⟩ := canonical.start
    intro state member
    obtain rfl := List.mem_singleton.mp member
    exact (List.getElem?_eq_some_iff.mp found).1
  | push _ edge _ ih =>
    intro state member
    rcases List.mem_cons.mp member with rfl | below
    · exact canonical.lt_of_transition? edge
    · exact ih state below

namespace Analysis

namespace Built

variable (built : analysis.Built g start)
include built

private theorem indexed_of_steps (success : ofGrammar g = .ok analysis) {input : Text} {count : Nat}
    {rows : List TraceRow} {current : Configuration}
    (steps : analysis.table.Steps analysis.grammar count (.initial input) rows current) :
    current.Indexed analysis.table (Configuration.tokens input) (TraceRow.shifts rows).length := by
  have reached := built.recognized steps
  have next := built.head?_input reached
  obtain @⟨frames, symbols, word, names, remaining, traces, _, _, consumed, shifted⟩ := reached
  have cursor : (TraceRow.shifts rows).length = names.length := by rw [shifted, List.length_map]
  rw [cursor, consumed]
  constructor
  case inside =>
    have some : remaining ≠ [] := by
      rintro rfl
      cases next
    rw [List.length_append]
    exact Nat.lt_add_of_pos_right (List.length_pos_iff.mpr some)
  case input => exact List.drop_left.symm
  case states =>
    rw [length_rows_of_ofGrammar success]
    exact traces.lt_of_mem_states built.faithful.canonical

theorem run_ne_error (input : Text) (limit : Nat) (fault : Fault) :
    analysis.table.run analysis.grammar limit (.initial input) [] ≠ some (.error fault) := by
  intro ended
  obtain ⟨value, same⟩ := built.faithful.run_ok .start ended
  cases same

private theorem parse_eq_error {input : Text} {fault : Fault} (failed : analysis.parse input = .error fault) :
    fault = .stepLimit := by
  unfold Analysis.parse Table.parse at failed
  split at failed
  · exact (Except.error.inj failed).symm
  · rename_i wrong
    exact absurd wrong (built.run_ne_error input _ _)
  · cases failed

theorem indexed (success : ofGrammar g = .ok analysis) : analysis.Indexed where
  grammar := built.faithful.augmented.toWellFormed.indexed
  automaton := built.faithful.canonical.indexed built.faithful.augmented
  table := built.indexed_table success
  steps := fun _ _ _ _ => built.indexed_of_steps success
  runs := built.run_ne_error
  listing := by
    obtain ⟨terminals, nonTerminals⟩ := columns_of_ofGrammar success
    obtain ⟨listing, listed⟩ := built.exists_listing terminals nonTerminals
    have names := Grammar.tableListing_eq_ok.mp listed
    obtain ⟨rows, text, shown, found, same⟩ := names.exists_plain (built.indexed_table success)
    exact ⟨listing, rows, text, listed, shown, found, same⟩
  report := fun _ report _ => ⟨_, report.tableByNumbers_eq, rfl⟩

end Built

end Analysis

namespace Grammar

namespace Loaded

variable (loaded : g.Loaded) {fault : Fault}
include loaded

theorem augment_ne_broken : g.augment ≠ .error (.broken fault) := by
  intro failed
  cases chosen : g.start with
  | none => simp [augment, loaded.augmented, chosen] at failed
  | some start =>
    obtain ⟨grown, success⟩ := loaded.wellFormed.augment_ok loaded.augmented chosen
    cases success.symm.trans failed

theorem automaton_ne_broken : g.automaton ≠ .error (.broken fault) := by
  intro failed
  rcases Result.bind_eq_error.mp failed with first | ⟨grown, extended, second⟩
  · exact loaded.augment_ne_broken first
  · obtain ⟨start, from'⟩ := augment_eq_ok loaded.augmented extended
    obtain ⟨automaton, collected⟩ := (from'.wellFormed loaded.wellFormed).collection_ok
    rw [collected] at second
    cases second

theorem ofGrammar_ne_broken : Analysis.ofGrammar g ≠ .error (.broken fault) := by
  intro failed
  cases chosen : g.start with
  | none => cases (Analysis.ofGrammar_of_start loaded.augmented chosen).symm.trans failed
  | some start =>
    obtain ⟨_, _, _, _, same⟩ := Analysis.conflict_of_ofGrammar loaded chosen failed
    cases same

theorem indexed_of_automaton {grown : Grammar} {automaton : Automaton}
    (success : g.automaton = .ok (grown, automaton)) : grown.Indexed ∧ automaton.Indexed grown := by
  obtain ⟨extended, collected⟩ := automaton_eq_ok.mp success
  obtain ⟨start, from'⟩ := augment_eq_ok loaded.augmented extended
  have goal := from'.augmented' loaded.wellFormed
  exact ⟨goal.toWellFormed.indexed, (canonical_of_collection goal.first collected).indexed goal⟩

/-- Nothing is printed at fault but the report of a run that was stopped. -/
theorem render_eq_broken {format : Format} {strings : List Text} {output : Output}
    (failed : output.render format g strings = .error (.broken fault)) :
    output = .reports ∧ fault = .stepLimit := by
  have indexed := loaded.wellFormed.indexed
  cases output with
  | productions =>
    obtain ⟨listing, success⟩ := indexed.exists_productionListing
    rw [Output.render, success] at failed
    cases failed
  | sets =>
    obtain ⟨listing, success⟩ := indexed.exists_setListing
    rw [Output.render, success] at failed
    cases failed
  | automaton =>
    rcases Result.bind_eq_error.mp failed with first | ⟨⟨grown, automaton⟩, prepared, second⟩
    · exact absurd first loaded.automaton_ne_broken
    · obtain ⟨grammar, states⟩ := loaded.indexed_of_automaton prepared
      obtain ⟨listing, success⟩ := states.exists_listing grammar
      change (do return (← Failure.ofFault (grown.automatonListing automaton)).render format) = _ at second
      rw [success] at second
      cases second
  | table =>
    rcases Result.bind_eq_error.mp failed with first | ⟨analysis, success, second⟩
    · exact absurd first loaded.ofGrammar_ne_broken
    · obtain ⟨start, built⟩ := Analysis.built_of_ofGrammar loaded success
      obtain ⟨listing, _, _, listed, _⟩ := (built.indexed success).listing
      obtain ⟨text, shown⟩ :=
        (tableListing_eq_ok.mp listed).exists_render (built.indexed_table success) format
      rw [listed] at second
      change Failure.ofFault (listing.render format) = _ at second
      rw [shown] at second
      cases second
  | reports =>
    refine ⟨rfl, ?_⟩
    rcases Result.bind_eq_error.mp failed with first | ⟨analysis, success, second⟩
    · exact absurd first loaded.ofGrammar_ne_broken
    · obtain ⟨start, built⟩ := Analysis.built_of_ofGrammar loaded success
      cases parsed : analysis.parseAll strings with
      | ok reports =>
        rw [parsed] at second
        cases second
      | error other =>
        obtain ⟨input, _, stopped⟩ := Result.mapM_eq_error parsed
        rw [parsed] at second
        have same : other = fault := Failure.broken.inj (Except.error.inj second)
        exact same ▸ built.parse_eq_error stopped

end Loaded

/-- Nothing is looked up in vain for a grammar that was read: not while it is augmented, its sets and automaton are
made and its table is filled, nor at any step of a run on any input, nor where its listings are printed in any
format. -/
theorem Returned.faultless (returned : g.Returned) :
    g.Indexed ∧
    (∀ fault, g.augment ≠ .error (.broken fault) ∧ g.automaton ≠ .error (.broken fault) ∧
      Analysis.ofGrammar g ≠ .error (.broken fault)) ∧
    (∀ grown automaton, g.automaton = .ok (grown, automaton) → grown.Indexed ∧ automaton.Indexed grown) ∧
    (∀ analysis, Analysis.ofGrammar g = .ok analysis → analysis.Indexed) ∧
    ∀ format strings output fault, Output.render format g strings output = .error (.broken fault) →
      output = .reports ∧ fault = .stepLimit := by
  have loaded := returned.loaded
  refine ⟨loaded.wellFormed.indexed,
    fun fault => ⟨loaded.augment_ne_broken, loaded.automaton_ne_broken, loaded.ofGrammar_ne_broken⟩,
    fun grown automaton => loaded.indexed_of_automaton, fun analysis success => ?_,
    fun format strings output fault => loaded.render_eq_broken⟩
  obtain ⟨start, built⟩ := Analysis.built_of_ofGrammar loaded success
  exact built.indexed success

/-- The grammar of nested pairs is read and analysed, and no run on `a a b` is at fault, however long. -/
theorem Returned.faultless_pairs : pairs.Returned ∧ pairs.Indexed ∧ ∃ analysis,
    Analysis.ofGrammar pairs = .ok analysis ∧ analysis.Indexed ∧
      ∀ limit fault, analysis.table.run analysis.grammar limit (.initial "a a b") [] ≠ some (.error fault) := by
  have returned : pairs.Returned := .text (show ofText "S -> a S b | ''" = .ok pairs by decide +kernel)
  obtain ⟨indexed, _, _, analysed, _⟩ := Returned.faultless returned
  obtain ⟨analysis, success, _⟩ := Analysis.exists_of_evaluated pairs (fun _ => true) (by decide +kernel)
  have found := analysed analysis success
  exact ⟨returned, indexed, analysis, success, found, found.runs "a a b"⟩

/-- A grammar that was put together by hand may name a symbol that is not there. -/
example : automaton { pairs with productions := [⟨2, [7]⟩] } = .error (.broken (.noSymbol 7)) := by
  decide +kernel

end Grammar

end SimpleLR
