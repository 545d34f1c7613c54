import SimpleLR.Proofs.Parser.Halting
import SimpleLR.Proofs.Parser.Soundness

namespace SimpleLR

variable {g : Grammar} {goal start : Nat} {automaton : Automaton} {table : Table}

namespace Stack

theorem entries_push (stack : Stack) (name : Text) (target : Nat) :
    (stack.push name target).entries = stack.entries ++ [.symbol name, .state target] := by
  simp [entries, push]

theorem getLast?_entries (stack : Stack) : stack.entries.getLast? = some (.state stack.top) := by
  obtain ⟨bottom, frames⟩ := stack
  cases frames with
  | nil => rfl
  | cons frame frames =>
    have pushed := entries_push ⟨bottom, frames⟩ frame.symbol frame.state
    rw [show Stack.mk bottom (frame :: frames) = Stack.push ⟨bottom, frames⟩ frame.symbol frame.state
      from rfl, pushed, List.getLast?_append]
    rfl

private theorem entries_below {stack : Stack} {count : Nat} (enough : count ≤ stack.frames.length) :
    ∃ popped, stack.entries = (stack.below count).entries ++ popped ∧ popped.length = 2 * count := by
  refine ⟨(stack.frames.take count).reverse.flatMap
    fun frame => [.symbol frame.symbol, .state frame.state], ?_, ?_⟩
  · have cut := congrArg List.reverse (List.take_append_drop count stack.frames)
    rw [List.reverse_append] at cut
    rw [entries, ← cut, List.flatMap_append]
    rfl
  · simp [List.length_flatMap, enough, Nat.mul_comm]

end Stack

namespace TraceRow

/-- What the action of a row makes of its stack and its input. A reduction takes a symbol and a state
off the stack for each symbol of the body and puts the head there, on which a goto puts a state. -/
def applied? (g : Grammar) (row : TraceRow) : Option (List StackEntry × List Text) :=
  match row.action, row.input with
  | .shift target, token :: rest => some (row.stack ++ [.symbol token, .state target], rest)
  | .shift _, [] => none
  | .reduce index, input => do
    let production ← g.productions[index]?
    let head ← (g.name production.head).toOption
    guard (2 * production.length < row.stack.length)
    return (row.stack.take (row.stack.length - 2 * production.length) ++ [.symbol head], input)
  | .goto target, input => some (row.stack ++ [.state target], input)
  | .accept, _ => none
  | .error _, _ => none

/-- The next row of a trace shows what this row makes of its stack and its input, and a reduction is
followed by a goto. -/
structure Leads (g : Grammar) (row next : TraceRow) : Prop where
  applied : row.applied? g = some (next.stack, next.input)
  gotos : ∀ index, row.action = .reduce index → ∃ target, next.action = .goto target

/-- A trace that starts with a stack and an input and in which each row leads to the next one. -/
structure Replays (g : Grammar) (stack : List StackEntry) (input : List Text)
    (trace : List TraceRow) : Prop where
  begins : ∃ first rest, trace = first :: rest ∧ first.stack = stack ∧ first.input = input
  leads : trace.IsChain (Leads g)

/-- A row that ends a run shows how it ends. -/
def Closes (row : TraceRow) : Outcome → Prop
  | .accepted => row.action = .accept
  | .rejected error stack remaining => row = ⟨stack, remaining, .error error.message⟩

theorem Replays.single (row : TraceRow) : Replays g row.stack row.input [row] :=
  ⟨⟨row, [], rfl, rfl, rfl⟩, .singleton row⟩

theorem Replays.cons (row : TraceRow) {stack : List StackEntry} {input : List Text}
    {trace : List TraceRow} (replays : Replays g stack input trace)
    (applied : row.applied? g = some (stack, input))
    (gotos : ∀ index, row.action = .reduce index → ∃ target, ∃ next ∈ trace.head?,
      next.action = .goto target) : Replays g row.stack row.input (row :: trace) := by
  obtain ⟨⟨next, rest, rfl, rfl, rfl⟩, leads⟩ := replays
  refine ⟨⟨row, _, rfl, rfl, rfl⟩, .cons_cons ⟨applied, fun index reduces => ?_⟩ leads⟩
  obtain ⟨target, other, here, goto⟩ := gotos index reduces
  obtain rfl := Option.some.inj here
  exact ⟨target, goto⟩

end TraceRow

namespace Table

variable {current next last : Configuration} {rows trace : List TraceRow}

/-- The rows of a move lead from the stack and the input before it to those behind it. -/
theorem Moves.replays (moves : table.Moves g current rows next)
    (replays : TraceRow.Replays g next.stack.entries next.input trace) :
    TraceRow.Replays g current.stack.entries current.input (rows ++ trace) := by
  cases moves with
  | @shift _ target token rest reads cell here =>
    refine .cons (current.row (.shift target)) replays ?_ nofun
    simp [TraceRow.applied?, Configuration.row, here, Stack.entries_push]
  | @reduce _ index target production head reads cell found enough named leads =>
    let opened := (current.stack.below production.length).entries ++ [StackEntry.symbol head]
    obtain ⟨popped, split, twice⟩ := Stack.entries_below enough
    have after : TraceRow.Replays g opened current.input
        (⟨opened, current.input, .goto target⟩ :: trace) := by
      refine .cons ⟨opened, current.input, .goto target⟩ replays ?_ nofun
      simp [TraceRow.applied?, opened, Stack.entries_push]
    refine .cons (current.row (.reduce index)) after ?_ ?_
    · have bottom : 0 < (current.stack.below production.length).entries.length := Nat.succ_pos _
      simp [TraceRow.applied?, Configuration.row, found, named, Except.toOption, opened, split, twice,
        bottom]
    · exact fun _ _ => ⟨target, _, rfl, rfl⟩

theorem Steps.replays {count : Nat} (steps : table.Steps g count current rows last)
    (replays : TraceRow.Replays g last.stack.entries last.input trace) :
    TraceRow.Replays g current.stack.entries current.input (rows ++ trace) := by
  induction steps with
  | done => exact replays
  | step moves _ ih =>
    rw [List.append_assoc]
    exact moves.replays (ih replays)

theorem Steps.replayed {count : Nat} {input : Text}
    (steps : table.Steps g count (.initial input) rows current) (action : StepAction) :
    TraceRow.Replays g [.state 0] (Configuration.tokens input) (rows ++ [current.row action]) :=
  steps.replays (.single (current.row action))

end Table

namespace Automaton

/-- Entries of a stack that lead through an automaton: its start at the bottom, and behind each symbol
the state to which the symbol leads from the state before it. -/
inductive Follows (g : Grammar) (automaton : Automaton) : List StackEntry → List Nat → Prop where
  | start : Follows g automaton [.state 0] []
  | push {entries : List StackEntry} {symbols : List Nat} {source symbol target : Nat} {name : Text}
      (below : Follows g automaton (entries ++ [.state source]) symbols)
      (edge : automaton.transition? source symbol = some target)
      (named : g.name symbol = .ok name) :
      Follows g automaton (entries ++ [.state source, .symbol name, .state target])
        (symbols ++ [symbol])

variable {frames : List Frame} {symbols : List Nat}

theorem Traces.follows (traces : automaton.Traces g frames symbols) :
    automaton.Follows g (Stack.entries ⟨0, frames⟩) symbols.reverse := by
  induction traces with
  | start => exact .start
  | @push frames symbols symbol target name _ edge named ih =>
    obtain ⟨front, split⟩ := List.getLast?_eq_some_iff.mp (Stack.getLast?_entries ⟨0, frames⟩)
    rw [split] at ih
    have further := Follows.push ih edge named
    have pushed := Stack.entries_push ⟨0, frames⟩ name target
    rw [split, List.append_assoc] at pushed
    rw [List.reverse_cons]
    exact pushed ▸ further

private theorem Canonical.exists_body_of_traces (canonical : automaton.Canonical g)
    (traces : automaton.Traces g frames symbols) :
    ∀ symbol ∈ symbols, ∃ production ∈ g.productions, symbol ∈ production.symbols := by
  induction traces with
  | start => nofun
  | push _ edge _ ih =>
    intro other member
    rcases List.mem_cons.mp member with rfl | below
    · obtain ⟨state, found, leaves⟩ := canonical.transition?_eq_some.mp edge
      obtain ⟨⟨item, _, dot⟩, _⟩ := (canonical.edges found).mp leaves
      obtain ⟨production, rule, here⟩ := Grammar.afterDot?_eq_some.mp dot
      exact ⟨production, List.mem_of_getElem? rule, List.mem_of_getElem? here⟩
    · exact ih other below

end Automaton

/-- An error that names what is found there: the state on top of a stack and the next token. -/
def ParseError.MetAt (stack : List StackEntry) (remaining : List Text) : ParseError → Prop
  | .unrecognized token => remaining.head? = some token
  | .noAction state token => stack.getLast? = some (.state state) ∧ remaining.head? = some token
  | .stackUnderflow => False

private theorem Table.Faithful.met_of_rejects (faithful : table.Faithful g goal start automaton)
    {tokens : List Text} {trace rows : List TraceRow} {current : Configuration} {error : ParseError}
    {stack : List StackEntry} (recognized : automaton.Recognized g tokens trace current)
    (next : current.input.head? = some current.lookahead)
    (rejects : table.step g current = .ok (.reject rows error stack)) :
    rows = [] ∧ stack = current.stack.entries ∧ error.MetAt stack current.input := by
  obtain ⟨traces, _, _, _, _⟩ := recognized
  rcases faithful.step_cases traces rfl with ⟨_, _, moves⟩ | accepts | ⟨_, again, met⟩
  · cases moves.step.symm.trans rejects
  · cases accepts.symm.trans rejects
  · obtain ⟨rfl, rfl, rfl⟩ := Step.reject.inj (Except.ok.inj (rejects.symm.trans again))
    refine ⟨rfl, rfl, ?_⟩
    rcases met with ⟨rfl, _⟩ | ⟨rfl, _⟩
    · exact next
    · exact ⟨Stack.getLast?_entries _, next⟩

namespace Analysis

variable {analysis : Analysis} {input : Text}

/-- A configuration whose stack is a path of the automaton over symbols that derive the tokens of an
input before those that remain. -/
def Consistent (g : Grammar) (analysis : Analysis) (input : Text) (current : Configuration) : Prop :=
  ∃ symbols word names, analysis.automaton.Follows analysis.grammar current.stack.entries symbols ∧
    g.Derives symbols word ∧ (∀ symbol ∈ word, g.isTerminal symbol = true) ∧
    word.mapM g.name = .ok names ∧ Configuration.tokens input = names ++ current.input

namespace Built

variable (built : analysis.Built g start)
include built

private theorem lt_of_traces {frames : List Frame} {symbols : List Nat}
    (traces : analysis.automaton.Traces analysis.grammar frames symbols) :
    ∀ symbol ∈ symbols, symbol < g.symbols.length := by
  intro symbol member
  obtain ⟨production, present, inside⟩ :=
    built.faithful.canonical.exists_body_of_traces traces symbol member
  have bound := (built.faithful.augmented.fits production present).lt_of_mem_symbols inside
  obtain ⟨name, grown, _⟩ := built.from'.symbols
  rw [grown, List.length_append, List.length_singleton] at bound
  apply Nat.lt_of_le_of_ne (Nat.le_of_lt_succ bound)
  rintro rfl
  exact built.faithful.augmented.absent production present inside

section Reached

variable {trace : List TraceRow} {current : Configuration} (reached : analysis.automaton.Recognized
  analysis.grammar (Configuration.tokens input) trace current)
include reached

private theorem consistent : analysis.Consistent g input current := by
  obtain ⟨traces, yields, named, consumed, _⟩ := reached
  obtain ⟨_, _, own⟩ := built.from'.yields built.formed yields
    fun symbol member => built.lt_of_traces traces symbol (List.mem_reverse.mp member)
  refine ⟨_, _, _, traces.follows, own.derives, own.terminals, ?_, consumed⟩
  rw [← built.from'.mapM_name fun symbol member =>
    Grammar.lt_of_isTerminal (own.terminals symbol member)]
  exact Result.mapM_eq_ok.mpr named

/-- The end mark is never shifted, so there is always a next token. -/
theorem head?_input : current.input.head? = some current.lookahead := by
  obtain @⟨_, _, _, names, remaining, _, yields, named, consumed, _⟩ := reached
  cases remaining with
  | cons token rest => rfl
  | nil =>
    have mark : endMarkName ∈ names := by
      rw [List.append_nil, Configuration.tokens_eq] at consumed
      simp [← consumed]
    exact absurd mark (built.faithful.augmented.endMarkName_not_mem yields.terminals named)

end Reached

/-- A run that ends closes its trace with a row that shows how. -/
theorem closes {limit : Nat} {result : Except Fault (Outcome × List TraceRow)}
    (ended : analysis.table.run analysis.grammar limit (.initial input) [] = some result) :
    ∃ outcome trace last, result = .ok (outcome, trace) ∧
      TraceRow.Replays analysis.grammar [.state 0] (Configuration.tokens input) trace ∧
      trace.getLast? = some last ∧ last.Closes outcome ∧
      ∀ error stack remaining, outcome = .rejected error stack remaining →
        error.MetAt stack remaining := by
  obtain ⟨count, rows, current, steps, ends⟩ := Table.run_eq_some ended
  have recognized := built.recognized steps
  have next := built.head?_input recognized
  rcases ends with ⟨fault, failed, _⟩ | ⟨_, rfl⟩ | ⟨more, error, stack, rejects, rfl⟩
  · obtain ⟨traces, _, _, _, _⟩ := recognized
    exact absurd failed (built.faithful.step_ne_error traces)
  · exact ⟨_, _, current.row .accept, rfl, steps.replayed .accept, by simp, rfl, nofun⟩
  · obtain ⟨rfl, rfl, met⟩ := built.faithful.met_of_rejects recognized next rejects
    refine ⟨_, _, current.row (.error error.message), rfl, ?_, by simp [Configuration.row], rfl, ?_⟩
    · rw [List.append_nil]
      exact steps.replayed (.error error.message)
    · rintro _ _ _ ⟨⟩
      exact met

end Built

/-- Whatever the input, at every step of its run the stack is a path of the automaton over symbols that
derive the tokens before those that remain, and the trace replays the run up to there. A run that ends
has an outcome; the last row of its trace shows it, and a rejection names the state on top of the
stack and the next token. -/
theorem replays_of_run (loaded : g.Loaded) (success : ofGrammar g = .ok analysis) (input : Text) :
    (∀ count rows current,
      analysis.table.Steps analysis.grammar count (.initial input) rows current →
        analysis.Consistent g input current ∧ ∀ action,
          TraceRow.Replays analysis.grammar [.state 0] (Configuration.tokens input)
            (rows ++ [current.row action])) ∧
    ∀ limit result, analysis.table.run analysis.grammar limit (.initial input) [] = some result →
      ∃ outcome trace last, result = .ok (outcome, trace) ∧
        TraceRow.Replays analysis.grammar [.state 0] (Configuration.tokens input) trace ∧
        trace.getLast? = some last ∧ last.Closes outcome ∧
        ∀ error stack remaining, outcome = .rejected error stack remaining →
          error.MetAt stack remaining := by
  obtain ⟨start, built⟩ := built_of_ofGrammar loaded success
  refine ⟨fun count rows current steps => ⟨?_, fun action => ?_⟩, fun limit result => built.closes⟩
  · exact built.consistent (built.recognized steps)
  · exact steps.replayed action

/-- With nested pairs `a b b` is rejected, and its trace shows where. -/
theorem replays_of_run_pairs : Grammar.pairs.Loaded ∧ ∃ analysis, ofGrammar .pairs = .ok analysis ∧
    ∃ error stack remaining trace last,
      analysis.Ends "a b b" (.rejected error stack remaining) trace ∧
      TraceRow.Replays analysis.grammar [.state 0] ["a", "b", "b", "$"] trace ∧
      trace.getLast? = some last ∧ last = ⟨stack, remaining, .error error.message⟩ ∧
      error.MetAt stack remaining := by
  obtain ⟨analysis, success, rejects⟩ := exists_of_evaluated .pairs
    (fun analysis => (analysis.parse "a b b").toOption.any (!·.outcome.isAccepted)) (by decide +kernel)
  obtain ⟨outcome, trace, ⟨limit, ended⟩, rejected⟩ :=
    exists_ends_of_evaluated (!·.isAccepted) rejects
  have ⟨_, ends⟩ := replays_of_run Grammar.loaded_pairs success "a b b"
  obtain ⟨_, _, last, same, replays, final, closes, met⟩ := ends limit _ ended
  obtain ⟨rfl, rfl⟩ := Prod.mk.inj (Except.ok.inj same)
  cases outcome with
  | accepted => cases rejected
  | rejected error stack remaining =>
    exact ⟨Grammar.loaded_pairs, analysis, success, error, stack, remaining, _, last,
      ⟨limit, ended⟩, replays, final, closes, met _ _ _ rfl⟩

end Analysis

end SimpleLR
