import SimpleLR.Proofs.Parser.Language
import SimpleLR.Proofs.Parser.Replay

/-! How early an input is rejected. A run depends on the tokens that it has shifted and on one token
more, whatever comes behind. So no sentence begins with the tokens shifted and the rejected one, and
what was shifted begins a sentence whenever the stack can be completed. -/
namespace SimpleLR

variable {g : Grammar} {start : Nat} {table : Table}

namespace Grammar

def NamesTerminal (g : Grammar) (name : Text) : Prop :=
  ∃ terminal, g.isTerminal terminal = true ∧ g.name terminal = .ok name

/-- Every non-terminal derives a word of terminals. -/
def Generating (g : Grammar) : Prop := ∀ symbol, g.isNonTerminal symbol = true →
  ∃ word, (∀ terminal ∈ word, g.isTerminal terminal = true) ∧ g.Derives [symbol] word

theorem WellFormed.productive (formed : g.WellFormed) (generating : g.Generating) :
    g.Productive := by
  intro symbol reachable
  have proper : g.isTerminal symbol = true ∨ g.isNonTerminal symbol = true := by
    rcases reachable.cases with chosen | ⟨production, member, inside⟩
    · exact .inr (formed.chosen chosen)
    · exact (formed.fits production member).symbols symbol inside
  rcases proper with terminal | nonTerminal
  · exact ⟨[symbol], by simpa using terminal, .refl⟩
  · exact generating symbol nonTerminal

end Grammar

namespace Table

variable {count other : Nat} {current last final : Configuration} {rows more : List TraceRow}

/-- A run that reads some tokens and sees one more is the same run whatever comes behind that one, if
it is read in the same way. -/
private theorem Steps.reread {bottom stack : Stack} {shifted rest beyond : List Text} {token : Text}
    (same : ∀ stack, table.symbolOf? g ⟨stack, token :: rest⟩ =
      table.symbolOf? g ⟨stack, token :: beyond⟩)
    (steps : table.Steps g count ⟨bottom, shifted ++ token :: rest⟩ rows ⟨stack, token :: rest⟩) :
    ∃ rows, table.Steps g count ⟨bottom, shifted ++ token :: beyond⟩ rows
      ⟨stack, token :: beyond⟩ := by
  induction count generalizing bottom shifted rows with
  | zero =>
    generalize whole : Configuration.mk bottom (shifted ++ token :: rest) = current at steps
    cases steps
    obtain ⟨rfl, split⟩ := Configuration.mk.inj whole
    obtain rfl : shifted = [] := by simpa using split
    exact ⟨[], .done _⟩
  | succ count ih =>
    -- In front of the last token two more tokens remain at least, so the end mark is read nowhere.
    have reads (stack : Stack) : table.symbolOf? g ⟨stack, shifted ++ token :: rest⟩ =
        table.symbolOf? g ⟨stack, shifted ++ token :: beyond⟩ := by
      cases shifted with
      | nil => exact same stack
      | cons first shifted => simp [symbolOf?, Configuration.lookahead, ← Nat.add_assoc]
    cases steps with
    | step moves steps =>
      cases moves with
      | @shift symbol target first behind found cell next =>
        rw [reads] at found
        cases shifted with
        | nil =>
          obtain ⟨rfl, rfl⟩ := List.cons.inj next
          exact absurd steps.suffix.length_le (by simp)
        | cons own shifted =>
          obtain ⟨rfl, rfl⟩ := List.cons.inj next
          obtain ⟨others, later⟩ := ih steps
          exact ⟨_, .step (.shift found cell rfl) later⟩
      | reduce found cell rule enough named leads =>
        rw [reads] at found
        obtain ⟨others, later⟩ := ih steps
        exact ⟨_, .step (.reduce found cell rule enough named leads) later⟩

/-- A configuration that is not moved on from. -/
def Stops (g : Grammar) (table : Table) (current : Configuration) : Prop :=
  ∀ rows next, ¬ table.Moves g current rows next

private theorem stops_of_accept (accepts : table.step g current = .ok (.accept rows)) :
    table.Stops g current :=
  fun _ _ moves => nomatch moves.step.symm.trans accepts

private theorem stops_of_reject {error : ParseError} {stack : List StackEntry}
    (rejects : table.step g current = .ok (.reject rows error stack)) : table.Stops g current :=
  fun _ _ moves => nomatch moves.step.symm.trans rejects

private theorem Steps.last_eq_of_le (first : table.Steps g count current rows last)
    (stops : table.Stops g last) (second : table.Steps g other current more final)
    (longer : count ≤ other) : last = final := by
  obtain ⟨extra, rfl⟩ := Nat.exists_eq_add_of_le longer
  obtain ⟨middle, _, _, _, before, after⟩ := second.split
  obtain ⟨_, rfl⟩ := first.unique before
  cases after with
  | done => rfl
  | step moves _ => exact absurd moves (stops _ _)

private theorem Steps.last_unique (first : table.Steps g count current rows last)
    (stops : table.Stops g last) (second : table.Steps g other current more final)
    (stops' : table.Stops g final) : last = final := by
  rcases Nat.le_total count other with longer | shorter
  · exact first.last_eq_of_le stops second longer
  · exact (second.last_eq_of_le stops' first shorter).symm

end Table

/-- What a rejection says of the tokens shifted, of the first one that remains and of the rest. If the
cell is empty, the tokens do not begin a sentence with the next one, but do without it, if everything
derives a word. If the token is not recognized, it alone is at fault. -/
def ParseError.Earliest (g : Grammar) (shifted : List Text) (token : Text) (rest : List Text) :
    ParseError → Prop
  | .noAction _ name => name = token ∧ (∀ more, ¬ g.Spells (shifted ++ token :: more)) ∧
      (token = endMarkName → ¬ g.Spells shifted) ∧
      (g.Generating → ∃ more, g.Spells (shifted ++ more))
  | .unrecognized name => name = token ∧ (∀ name ∈ shifted, g.NamesTerminal name) ∧
      (token ≠ endMarkName ∧ ¬ g.NamesTerminal token ∨ token = endMarkName ∧ rest ≠ [])
  | .stackUnderflow => False

namespace Analysis

variable {analysis : Analysis}

namespace Built

variable (built : analysis.Built g start)
include built

theorem namesTerminal_iff {name : Text} :
    g.NamesTerminal name ↔ analysis.grammar.NamesTerminal name := by
  refine exists_congr fun terminal => ?_
  rw [built.from'.isTerminal]
  refine and_congr_right fun proper => ?_
  rw [built.from'.name (Grammar.lt_of_isTerminal proper)]

/-- A run that was stuck on an empty cell would be stuck there on every input that goes on in the same
way, so none of them is a sentence. -/
theorem not_spells_of_stuck {count symbol : Nat} {rows : List TraceRow} {stack : Stack}
    {shifted rest beyond names : List Text} {token : Text}
    (steps : analysis.table.Steps analysis.grammar count ⟨⟨0, []⟩, shifted ++ token :: rest⟩ rows
      ⟨stack, token :: rest⟩)
    (reads : analysis.table.symbolOf? analysis.grammar ⟨stack, token :: rest⟩ = some symbol)
    (empty : analysis.table.action? stack.top symbol = none)
    (same : ∀ stack, analysis.table.symbolOf? analysis.grammar ⟨stack, token :: rest⟩ =
      analysis.table.symbolOf? analysis.grammar ⟨stack, token :: beyond⟩)
    (spelled : names ++ [endMarkName] = shifted ++ token :: beyond) : ¬ g.Spells names := by
  intro spells
  obtain ⟨_, _, last, accepting, accepts⟩ := built.accept_of_spells spells
  obtain ⟨_, again⟩ := steps.reread same
  have rejects : analysis.table.step analysis.grammar ⟨stack, token :: beyond⟩ =
      .ok (.reject [] (.noAction stack.top token) stack.entries) := by
    simp [Table.step, ← same, reads, empty, Configuration.lookahead]
  rw [spelled] at accepting
  obtain rfl := accepting.last_unique (Table.stops_of_accept accepts) again
    (Table.stops_of_reject rejects)
  cases accepts.symm.trans rejects

private theorem not_spells_of_empty {count symbol : Nat} {rows : List TraceRow} {stack : Stack}
    {shifted rest : List Text} {token : Text}
    (steps : analysis.table.Steps analysis.grammar count ⟨⟨0, []⟩, shifted ++ token :: rest⟩ rows
      ⟨stack, token :: rest⟩)
    (reads : analysis.table.symbolOf? analysis.grammar ⟨stack, token :: rest⟩ = some symbol)
    (empty : analysis.table.action? stack.top symbol = none) :
    (∀ more, ¬ g.Spells (shifted ++ token :: more)) ∧ (token = endMarkName → ¬ g.Spells shifted) := by
  constructor
  · intro more spells
    have apart : token ≠ endMarkName := by
      rintro rfl
      exact spells.endMarkName_not_mem built.formed.toNamed (by simp)
    refine built.not_spells_of_stuck steps reads empty (fun stack => ?_) (by simp; rfl) spells
    simp [Table.symbolOf?, Configuration.lookahead, apart]
  · rintro rfl spells
    cases rest with
    | nil => exact built.not_spells_of_stuck steps reads empty (fun _ => rfl) rfl spells
    | cons first rest => simp [Table.symbolOf?, Configuration.lookahead] at reads

private theorem fault_of_unread {stack : Stack} {rest : List Text} {token : Text}
    (unread : analysis.table.symbolOf? analysis.grammar ⟨stack, token :: rest⟩ = none) :
    token ≠ endMarkName ∧ ¬ g.NamesTerminal token ∨ token = endMarkName ∧ rest ≠ [] := by
  by_cases mark : token = endMarkName
  · subst mark
    refine .inr ⟨rfl, ?_⟩
    rintro rfl
    cases built.faithful.symbolOf?_endMark.symm.trans unread
  · refine .inl ⟨mark, fun names => ?_⟩
    obtain ⟨terminal, isTerminal, named⟩ := built.namesTerminal_iff.mp names
    cases (built.faithful.symbolOf?_terminal isTerminal named).symm.trans unread

/-- The tokens shifted are names of terminals, and if every stack can be completed, they begin a
sentence. -/
private theorem exists_shifted {tokens : List Text} {trace : List TraceRow} {current : Configuration}
    (reached : analysis.automaton.Recognized analysis.grammar tokens trace current) :
    ∃ shifted, tokens = shifted ++ current.input ∧ TraceRow.shifts trace = shifted.map some ∧
      (∀ name ∈ shifted, g.NamesTerminal name) ∧
      (g.Generating → ∃ more, g.Spells (shifted ++ more)) := by
  obtain @⟨frames, symbols, word, shifted, input, traces, yields, named, consumed, shifts⟩ := reached
  refine ⟨shifted, consumed, shifts, fun name member => ?_, fun generating => ?_⟩
  · obtain ⟨position, found⟩ := List.mem_iff_getElem?.mp member
    obtain ⟨bound, _⟩ := List.getElem?_eq_some_iff.mp found
    have pairs := List.forall₂_iff_get.mp named
    have own := pairs.2 position (pairs.1 ▸ bound) bound
    rw [List.get_eq_getElem, List.get_eq_getElem] at own
    apply built.namesTerminal_iff.mpr
    refine ⟨word[position], yields.terminals _ (List.getElem_mem _), ?_⟩
    rw [own, (List.getElem?_eq_some_iff.mp found).2]
  · have fruitful : analysis.automaton.Fruitful analysis.grammar :=
      built.fruitful_of_productive (built.formed.productive generating)
    obtain ⟨rest, completes⟩ := built.faithful.exists_completes fruitful traces
    obtain ⟨more, named'⟩ := Grammar.exists_names completes.terminals
    obtain ⟨_, rows, last, _, steps, accepts⟩ :=
      built.faithful.accept_of_completes completes (.of_names completes.terminals named')
    have further := built.faithful.recognized_of_steps
      (.intro traces yields named rfl shifts) steps
    obtain ⟨names, same, spells⟩ := built.spells_of_accept further accepts (by simp)
    rw [← List.append_assoc] at same
    exact ⟨more, List.append_cancel_right same ▸ spells⟩

end Built

/-- An input that is rejected is rejected at the first token that rules out every sentence: the tokens
before it are shifted and nothing else, and the error says what they and the token can be. -/
theorem earliest_of_rejected (loaded : g.Loaded) (success : ofGrammar g = .ok analysis) {input : Text}
    {error : ParseError} {stack : List StackEntry} {remaining : List Text} {trace : List TraceRow}
    (rejected : analysis.Ends input (.rejected error stack remaining) trace) :
    ∃ shifted token rest, remaining = token :: rest ∧
      Configuration.tokens input = shifted ++ remaining ∧
      TraceRow.shifts trace = shifted.map some ∧ error.Earliest g shifted token rest := by
  obtain ⟨start, built⟩ := built_of_ofGrammar loaded success
  obtain ⟨limit, ended⟩ := rejected
  obtain ⟨count, rows, current, steps, ends⟩ := Table.run_eq_some ended
  have reached := built.recognized steps
  have next := built.head?_input reached
  obtain ⟨shifted, consumed, shifts, proper, completed⟩ := built.exists_shifted reached
  rcases ends with ⟨_, _, none⟩ | ⟨_, none⟩ | ⟨more, own, shown, rejects, same⟩
  · cases none
  · cases none
  · obtain ⟨outcome, rfl⟩ := Prod.mk.inj (Except.ok.inj same)
    obtain ⟨rfl, rfl, rfl⟩ := Outcome.rejected.inj outcome
    obtain @⟨frames, _, _, _, remaining, traces, _, _, _, _⟩ := reached
    obtain ⟨token, rest, rfl⟩ : ∃ token rest, remaining = token :: rest := by
      cases remaining with
      | nil => cases next
      | cons token rest => exact ⟨token, rest, rfl⟩
    have begun : Configuration.initial input = ⟨⟨0, []⟩, shifted ++ token :: rest⟩ :=
      congrArg (Configuration.mk _) consumed
    rw [begun] at steps
    rcases built.faithful.step_cases traces rfl with ⟨_, _, moves⟩ | accepts | ⟨_, again, cause⟩
    · cases moves.step.symm.trans rejects
    · cases accepts.symm.trans rejects
    obtain ⟨rfl, rfl, rfl⟩ := Step.reject.inj (Except.ok.inj (rejects.symm.trans again))
    refine ⟨shifted, token, rest, rfl, consumed, by simp [shifts], ?_⟩
    rcases cause with ⟨rfl, unread⟩ | ⟨rfl, symbol, reads, empty⟩
    · exact ⟨rfl, proper, built.fault_of_unread unread⟩
    · obtain ⟨never, none⟩ := built.not_spells_of_empty steps reads empty
      exact ⟨rfl, never, none, completed⟩

/-- With nested pairs `a b b` is reduced to the start symbol before its last `b` is found to be wrong:
`a b` begins a sentence, and no sentence begins with `a b b`. -/
theorem earliest_of_rejected_pairs : Grammar.pairs.Loaded ∧
    ∃ analysis stack trace, ofGrammar .pairs = .ok analysis ∧
      analysis.Ends "a b b" (.rejected (.noAction 1 "b") stack ["b", "$"]) trace ∧
      TraceRow.shifts trace = (["a", "b"] : List Text).map some ∧
      (∀ more, ¬ Grammar.pairs.Spells ("a" :: "b" :: "b" :: more)) ∧
      ∃ more, Grammar.pairs.Spells ("a" :: "b" :: more) := by
  let shown : Outcome :=
    .rejected (.noAction 1 "b") [.state 0, .symbol "S", .state 1] ["b", "$"]
  obtain ⟨analysis, success, rejects⟩ := exists_of_evaluated .pairs
    (fun analysis => (analysis.parse "a b b").toOption.any (decide <| ·.outcome = shown))
    (by decide +kernel)
  obtain ⟨outcome, trace, ends, same⟩ := exists_ends_of_evaluated (decide <| · = shown) rejects
  obtain rfl := of_decide_eq_true same
  obtain ⟨shifted, token, rest, remains, tokens, shifts, _, never, _, begins⟩ :=
    earliest_of_rejected Grammar.loaded_pairs success ends
  obtain ⟨rfl, rfl⟩ := List.cons.inj remains
  have read : Configuration.tokens "a b b" = (["a", "b"] : List Text) ++ (["b", "$"] : List Text) := by
    decide
  obtain rfl := List.append_cancel_right (read.symm.trans tokens)
  have generating : Grammar.pairs.Generating := by
    intro symbol nonTerminal
    have empty : Grammar.pairs.productions[1]? = some ⟨2, [epsilonIndex]⟩ := rfl
    have only : symbol ∈ [2] := Grammar.mem_nonTerminals.mpr nonTerminal
    obtain rfl := List.mem_singleton.mp only
    exact ⟨[], by simp, Grammar.Derives.refl.step (.here empty [] [])⟩
  exact ⟨Grammar.loaded_pairs, analysis, _, trace, success, ends, shifts, never, begins generating⟩

end Analysis

end SimpleLR
