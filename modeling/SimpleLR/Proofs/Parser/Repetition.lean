import SimpleLR.Proofs.Parser.Halting
import Mathlib.Data.Finite.Prod
import Mathlib.Order.Interval.Finset.Nat
import Mathlib.Order.Preorder.Finite

/-! Which runs do not come to an end. A run that goes on for ever has shifted its last token at some
time, and from then on its stack stays above some frame; there are finitely many frames and states,
so the run comes back to one of them without ever looking below it. A run that comes back in this way
goes round for ever. -/
namespace SimpleLR

variable {g : Grammar} {goal start : Nat} {automaton : Automaton} {table : Table}

/-- A run that comes to a frame and from there, by what lies above it alone, back to the same frame
above the same state, with no token shifted in between. -/
def Analysis.Repeats (analysis : Analysis) (input : Text) : Prop :=
  ∃ count rows frame base rest more again grown,
    analysis.table.Steps analysis.grammar count (.initial input) rows ⟨⟨0, frame :: base⟩, rest⟩ ∧
    analysis.table.Steps analysis.grammar (more + 1) ⟨⟨Stack.top ⟨0, base⟩, [frame]⟩, rest⟩ again
      ⟨⟨Stack.top ⟨0, base⟩, frame :: grown⟩, rest⟩ ∧
    Stack.top ⟨Stack.top ⟨0, base⟩, grown⟩ = Stack.top ⟨0, base⟩

theorem Stack.top_append (bottom : Nat) (front base : List Frame) :
    top ⟨bottom, front ++ base⟩ = top ⟨top ⟨bottom, base⟩, front⟩ := by
  cases front <;> rfl

namespace Table

section Local

variable {bottom : Nat} {front base : List Frame} {input rest : List Text} {rows : List TraceRow}

/-- A move is also made with more frames below. -/
theorem Moves.onto {next : Configuration}
    (moves : table.Moves g ⟨⟨Stack.top ⟨bottom, base⟩, front⟩, input⟩ rows next) :
    ∃ more stack rest, next = ⟨⟨Stack.top ⟨bottom, base⟩, stack⟩, rest⟩ ∧
      table.Moves g ⟨⟨bottom, front ++ base⟩, input⟩ more ⟨⟨bottom, stack ++ base⟩, rest⟩ := by
  cases moves with
  | shift reads cell same =>
    rw [← Stack.top_append] at cell
    exact ⟨_, _, _, rfl, .shift reads cell same⟩
  | @reduce _ index target production head reads cell found enough named leads =>
    rw [← Stack.top_append] at cell
    have under : front.drop production.length ++ base = (front ++ base).drop production.length :=
      (List.drop_append_of_le_length enough).symm
    have whole : production.length ≤ (front ++ base).length := by
      rw [List.length_append]
      exact Nat.le_add_right_of_le enough
    have leads' : table.goto? (Stack.top ⟨bottom, (front ++ base).drop production.length⟩)
        production.head = some target := by
      rw [← under, Stack.top_append]
      exact leads
    have wide : ∃ more, table.Moves g ⟨⟨bottom, front ++ base⟩, input⟩ more
        ⟨⟨bottom, ⟨head, target⟩ :: front.drop production.length ++ base⟩, input⟩ := by
      rw [List.cons_append, under]
      exact ⟨_, .reduce reads cell found whole named leads'⟩
    obtain ⟨more, moves⟩ := wide
    exact ⟨more, _, _, rfl, moves⟩

theorem Steps.onto {count : Nat} {stack : List Frame}
    (steps : table.Steps g count ⟨⟨Stack.top ⟨bottom, base⟩, front⟩, input⟩ rows
      ⟨⟨Stack.top ⟨bottom, base⟩, stack⟩, rest⟩) :
    ∃ more, table.Steps g count ⟨⟨bottom, front ++ base⟩, input⟩ more
      ⟨⟨bottom, stack ++ base⟩, rest⟩ := by
  induction count generalizing front input rows with
  | zero =>
    cases steps
    exact ⟨[], .done _⟩
  | succ count ih =>
    cases steps with
    | step moves later =>
      obtain ⟨first, middle, behind, rfl, wide⟩ := moves.onto
      obtain ⟨more, others⟩ := ih later
      exact ⟨_, .step wide others⟩

/-- A move that shifts nothing and leaves some frames in place is made without them. -/
theorem Moves.above {stack : List Frame}
    (moves : table.Moves g ⟨⟨bottom, front ++ base⟩, input⟩ rows ⟨⟨bottom, stack⟩, input⟩)
    (higher : base.length < stack.length) :
    ∃ more top, stack = top ++ base ∧ top ≠ [] ∧
      table.Moves g ⟨⟨Stack.top ⟨bottom, base⟩, front⟩, input⟩ more
        ⟨⟨Stack.top ⟨bottom, base⟩, top⟩, input⟩ := by
  generalize last : (⟨⟨bottom, stack⟩, input⟩ : Configuration) = next at moves
  cases moves with
  | @shift _ _ token rest _ _ same =>
    have shorter : input = rest := congrArg Configuration.input last
    rw [show input = token :: rest from same] at shorter
    exact absurd (congrArg List.length shorter) (by simp)
  | @reduce _ index target production head reads cell found deep named leads =>
    obtain rfl : stack = ⟨head, target⟩ :: (front ++ base).drop production.length :=
      congrArg (fun next => next.stack.frames) last
    have enough : production.length ≤ front.length := by
      simp only [List.length_cons, List.length_drop, List.length_append] at higher deep
      omega
    have under : (front ++ base).drop production.length = front.drop production.length ++ base :=
      List.drop_append_of_le_length enough
    rw [Stack.top_append] at cell
    have leads' : table.goto? (Stack.top ⟨Stack.top ⟨bottom, base⟩, front.drop production.length⟩)
        production.head = some target := by
      rw [← Stack.top_append, ← under]
      exact leads
    refine ⟨_, ⟨head, target⟩ :: front.drop production.length, ?_, by simp,
      .reduce reads cell found enough named leads'⟩
    rw [under, List.cons_append]

end Local

end Table

namespace Analysis

variable {analysis : Analysis} {input : Text}

private theorem Repeats.exists_steps (repeats : analysis.Repeats input) (count : Nat) :
    ∃ rows last, analysis.table.Steps analysis.grammar count (.initial input) rows last := by
  obtain ⟨first, rows, frame, base, rest, more, again, grown, begun, round, same⟩ := repeats
  have rounds (times : Nat) : ∃ rows below, analysis.table.Steps analysis.grammar
      (first + times * (more + 1)) (.initial input) rows ⟨⟨0, frame :: below⟩, rest⟩ ∧
      Stack.top ⟨0, below⟩ = Stack.top ⟨0, base⟩ := by
    induction times with
    | zero => exact ⟨rows, base, by simpa using begun, rfl⟩
    | succ times ih =>
      obtain ⟨earlier, below, steps, top⟩ := ih
      rw [← top] at round same
      obtain ⟨later, wide⟩ := round.onto
      have further := steps.trans wide
      rw [Nat.add_assoc, ← Nat.succ_mul] at further
      exact ⟨_, _, further, (Stack.top_append ..).trans (same.trans top)⟩
  obtain ⟨rows, below, steps, _⟩ := rounds count
  obtain ⟨extra, enough⟩ := Nat.exists_eq_add_of_le
    (show count ≤ first + count * (more + 1) by rw [Nat.mul_succ]; omega)
  rw [enough] at steps
  obtain ⟨middle, before, _, _, stopped, _⟩ := steps.split
  exact ⟨before, middle, stopped⟩

theorem Repeats.not_halts (repeats : analysis.Repeats input) : ¬ analysis.Halts input := by
  intro holds
  obtain ⟨outcome, trace, limit, ended⟩ := holds
  rw [Table.run_eq_none.mpr (repeats.exists_steps limit)] at ended
  cases ended

end Analysis

/-- A time at which a quantity is as low as it will ever be again. -/
def IsFloor (height : Nat → Nat) (time : Nat) : Prop :=
  ∀ later, time ≤ later → height time ≤ height later

theorem exists_isFloor (height : Nat → Nat) (begun : Nat) :
    ∃ time, begun ≤ time ∧ IsFloor height time := by
  obtain ⟨time, after, least⟩ :=
    (measure height).wf.has_min {time | begun ≤ time} ⟨begun, Nat.le_refl begun⟩
  exact ⟨time, after, fun later further => Nat.le_of_not_lt (least later (Nat.le_trans after further))⟩

namespace Automaton

variable {frames : List Frame} {symbols : List Nat}

theorem Canonical.top_lt (canonical : automaton.Canonical g)
    (traces : automaton.Traces g frames symbols) :
    Stack.top ⟨0, frames⟩ < automaton.states.length := by
  obtain ⟨item, valid⟩ := canonical.exists_valid traces
  obtain ⟨state, found, _⟩ := (canonical.valid_iff_holds traces).mp valid
  exact (List.getElem?_eq_some_iff.mp found).1

end Automaton

/-- A run without end: the configurations that it comes to, one move after the other. -/
structure Table.Endless (g : Grammar) (automaton : Automaton) (table : Table) (tokens : List Text)
    (stack : Nat → List Frame) (path : Nat → List Nat) (input : Nat → List Text) : Prop where
  reached : ∀ time, ∃ rows,
    table.Steps g time ⟨⟨0, []⟩, tokens⟩ rows ⟨⟨0, stack time⟩, input time⟩
  traces : ∀ time, automaton.Traces g (stack time) (path time)

namespace Table.Endless

variable {tokens : List Text} {stack : Nat → List Frame} {path : Nat → List Nat}
  {input : Nat → List Text} (endless : table.Endless g automaton tokens stack path input)
include endless

theorem moves (time : Nat) : ∃ rows, table.Moves g ⟨⟨0, stack time⟩, input time⟩ rows
    ⟨⟨0, stack (time + 1)⟩, input (time + 1)⟩ := by
  obtain ⟨rows, steps⟩ := endless.reached time
  obtain ⟨_, longer⟩ := endless.reached (time + 1)
  obtain ⟨middle, _, _, _, before, after⟩ := longer.split
  obtain ⟨_, rfl⟩ := steps.unique before
  cases after with
  | step moves rest =>
    cases rest
    exact ⟨_, moves⟩

private theorem nonempty (time : Nat) : stack (time + 1) ≠ [] := by
  obtain ⟨rows, moves⟩ := endless.moves time
  generalize last : (⟨⟨0, stack (time + 1)⟩, input (time + 1)⟩ : Configuration) = next at moves
  have frames := congrArg (fun next => next.stack.frames) last
  dsimp only at frames
  rw [frames]
  cases moves <;> simp [Stack.push]

private theorem exists_calm : ∃ calm, ∀ time, calm ≤ time → input time = input calm := by
  obtain ⟨calm, _, least⟩ := exists_isFloor (fun time => (input time).length) 0
  refine ⟨calm, fun time later => ?_⟩
  induction time, later using Nat.le_induction with
  | base => rfl
  | succ time later ih =>
    obtain ⟨rows, moves⟩ := endless.moves time
    have shorter : input (time + 1) <:+ input time := (Steps.step moves (.done _)).suffix
    rw [ih] at shorter
    exact shorter.eq_of_length_le (least (time + 1) (Nat.le_succ_of_le later))

/-- While nothing is shifted and the stack stays above its top frame, the run goes on by what lies
above that frame alone. -/
theorem above {calm time : Nat} (still : ∀ later, calm ≤ later → input later = input calm)
    (begun : calm ≤ time) (least : IsFloor (fun time => (stack time).length) time)
    {frame : Frame} {base : List Frame} (here : stack time = frame :: base) (count : Nat) :
    ∃ front rows, stack (time + count) = front ++ base ∧ front ≠ [] ∧
      table.Steps g count ⟨⟨Stack.top ⟨0, base⟩, [frame]⟩, input calm⟩ rows
        ⟨⟨Stack.top ⟨0, base⟩, front⟩, input calm⟩ := by
  induction count with
  | zero => exact ⟨[frame], [], here, by simp, .done _⟩
  | succ count ih =>
    obtain ⟨front, rows, same, _, steps⟩ := ih
    obtain ⟨_, moves⟩ := endless.moves (time + count)
    rw [same, still (time + count) (by omega), still (time + count + 1) (by omega)] at moves
    have higher : base.length < (stack (time + count + 1)).length := by
      have low := least (time + count + 1) (by omega)
      simp only [here, List.length_cons] at low
      omega
    obtain ⟨more, top, split, some', local'⟩ := moves.above higher
    exact ⟨top, _, split, some', steps.trans (.step local' (.done _))⟩

/-- Behind its first move the run has a frame on top, the symbol and the states of which are known to
the automaton. -/
theorem frame_of_pos (faithful : table.Faithful g goal start automaton) {time : Nat}
    (positive : 0 < time) : ∃ frame base symbol symbols, stack time = frame :: base ∧
      path time = symbol :: symbols ∧ g.name symbol = .ok frame.symbol ∧
      symbol < g.symbols.length ∧ frame.state < automaton.states.length ∧
      Stack.top ⟨0, base⟩ < automaton.states.length := by
  have some' := endless.nonempty (time - 1)
  rw [Nat.sub_add_cancel positive] at some'
  have traces := endless.traces time
  have top := faithful.canonical.top_lt traces
  generalize stack time = frames at *
  generalize path time = symbols at *
  cases traces with
  | start => exact absurd rfl some'
  | push below edge named =>
    exact ⟨_, _, _, _, rfl, rfl, named, Grammar.lt_of_name named, top, faithful.canonical.top_lt below⟩

omit endless in
/-- What a time is known by: the symbol of the top frame, its state, and the state below it. -/
def key (stack : Nat → List Frame) (path : Nat → List Nat) (time : Nat) : Nat × Nat × Nat :=
  ((path time).headD 0, Stack.top ⟨0, stack time⟩, Stack.top ⟨0, (stack time).tail⟩)

private theorem exists_same_key (faithful : table.Faithful g goal start automaton) (calm : Nat) :
    ∃ first more, calm < first ∧ IsFloor (fun time => (stack time).length) first ∧
      key stack path first = key stack path (first + (more + 1)) := by
  let keys : Set (Nat × Nat × Nat) :=
    Set.Iio g.symbols.length ×ˢ Set.Iio automaton.states.length ×ˢ Set.Iio automaton.states.length
  let floors : Set Nat := {time | calm < time ∧ IsFloor (fun time => (stack time).length) time}
  have finite : keys.Finite := (Set.finite_Iio _).prod ((Set.finite_Iio _).prod (Set.finite_Iio _))
  have infinite : floors.Infinite := by
    apply Set.infinite_of_forall_exists_gt
    intro bound
    obtain ⟨time, after, least⟩ :=
      exists_isFloor (fun time => (stack time).length) (max calm bound + 1)
    exact ⟨time, ⟨by omega, least⟩, by omega⟩
  have inside : Set.MapsTo (key stack path) floors keys := by
    intro time floor
    obtain ⟨frame, base, symbol, symbols, here, names, _, known, state, below⟩ :=
      endless.frame_of_pos faithful (Nat.zero_lt_of_lt floor.1)
    simpa [key, keys, here, names] using ⟨known, state, below⟩
  obtain ⟨time, one, other, two, apart, same⟩ := infinite.exists_ne_map_eq_of_mapsTo inside finite
  rcases Nat.lt_or_gt_of_ne apart with before | after
  · obtain ⟨more, rfl⟩ := Nat.exists_eq_add_of_lt before
    exact ⟨time, more, one.1, one.2, same⟩
  · obtain ⟨more, rfl⟩ := Nat.exists_eq_add_of_lt after
    exact ⟨other, more, two.1, two.2, same.symm⟩

/-- A run without end comes back to a frame, above the same state. -/
private theorem exists_return (faithful : table.Faithful g goal start automaton) :
    ∃ time frame base rest more rows grown, stack time = frame :: base ∧ input time = rest ∧
      table.Steps g (more + 1) ⟨⟨Stack.top ⟨0, base⟩, [frame]⟩, rest⟩ rows
        ⟨⟨Stack.top ⟨0, base⟩, frame :: grown⟩, rest⟩ ∧
      Stack.top ⟨Stack.top ⟨0, base⟩, grown⟩ = Stack.top ⟨0, base⟩ := by
  obtain ⟨calm, still⟩ := endless.exists_calm
  obtain ⟨first, more, later, least, same⟩ := endless.exists_same_key faithful calm
  obtain ⟨frame, base, symbol, symbols, here, names, named, _⟩ :=
    endless.frame_of_pos faithful (Nat.zero_lt_of_lt later)
  obtain ⟨frame', base', symbol', symbols', here', names', named', _⟩ :=
    endless.frame_of_pos faithful (show 0 < first + (more + 1) by omega)
  simp only [key, here, here', names, names', List.headD_cons, Stack.top_cons, List.tail_cons,
    Prod.mk.injEq] at same
  obtain ⟨rfl, state, under⟩ := same
  have frames : frame = frame' := by
    obtain ⟨name, number⟩ := frame
    obtain ⟨name', number'⟩ := frame'
    obtain rfl : name = name' := Except.ok.inj (named.symm.trans named')
    obtain rfl : number = number' := state
    rfl
  subst frames
  obtain ⟨front, rows, split, some', steps⟩ :=
    endless.above still (Nat.le_of_lt later) least here (more + 1)
  rw [here'] at split
  cases front with
  | nil => exact absurd rfl some'
  | cons top grown =>
    obtain ⟨rfl, rfl⟩ := List.cons.inj split
    have under : Stack.top ⟨Stack.top ⟨0, base⟩, grown⟩ = Stack.top ⟨0, base⟩ := by
      rw [← Stack.top_append]
      exact under.symm
    exact ⟨first, frame, base, input calm, more, rows, grown, here,
      still first (Nat.le_of_lt later), steps, under⟩

end Table.Endless

namespace Analysis

variable {analysis : Analysis} {input : Text}

theorem Built.repeats_of_endless (built : analysis.Built g start)
    (endless : ∀ count, ∃ rows last,
      analysis.table.Steps analysis.grammar count (.initial input) rows last) :
    analysis.Repeats input := by
  have reached (time : Nat) : ∃ stack path rest rows,
      analysis.table.Steps analysis.grammar time (.initial input) rows ⟨⟨0, stack⟩, rest⟩ ∧
        analysis.automaton.Traces analysis.grammar stack path := by
    obtain ⟨rows, last, steps⟩ := endless time
    obtain ⟨stack, path, rest, rfl, traces⟩ := built.faithful.traces_of_steps .start steps
    exact ⟨stack, path, rest, rows, steps, traces⟩
  choose stack path rest rows steps traces using reached
  have run : analysis.table.Endless analysis.grammar analysis.automaton (Configuration.tokens input)
      stack path rest := ⟨fun time => ⟨rows time, steps time⟩, traces⟩
  obtain ⟨time, frame, base, left, more, again, grown, here, same, round, top⟩ :=
    run.exists_return built.faithful
  refine ⟨time, rows time, frame, base, left, more, again, grown, ?_, round, top⟩
  rw [← here, ← same]
  exact steps time

/-- A run comes to an end unless it comes back to a frame by what lies above it. If every symbol that
the start symbol leads to derives a word, all runs come to an end. -/
theorem halts_iff_not_repeats (loaded : g.Loaded) (success : ofGrammar g = .ok analysis) :
    (∀ input, analysis.Halts input ↔ ¬ analysis.Repeats input) ∧
      (g.Productive → ∀ input, analysis.Halts input) := by
  obtain ⟨start, built⟩ := built_of_ofGrammar loaded success
  refine ⟨fun input => ?_, fun productive input => built.halts_of_productive productive⟩
  refine ⟨fun halts repeats => repeats.not_halts halts, fun never => built.halts_of_stop ?_⟩
  by_contra none
  push Not at none
  exact never (built.repeats_of_endless none)

theorem halts_iff_not_repeats_pairs : ∃ analysis, ofGrammar .pairs = .ok analysis ∧
    (∀ input, analysis.Halts input ↔ ¬ analysis.Repeats input) ∧ ∀ input, analysis.Halts input := by
  obtain ⟨analysis, success, _⟩ := exists_of_evaluated .pairs (fun _ => true) (by decide +kernel)
  have condition := halts_iff_not_repeats Grammar.loaded_pairs success
  exact ⟨analysis, success, condition.1, condition.2 Grammar.productive_pairs⟩

end Analysis

namespace Table

/-- The configuration to which a move leads. -/
def next? (g : Grammar) (table : Table) (current : Configuration) : Option Configuration :=
  match table.step g current with
  | .ok (.next _ next) => some next
  | _ => none

theorem steps_of_next? {current next : Configuration} (leads : table.next? g current = some next) :
    ∃ rows, table.Steps g 1 current rows next := by
  unfold next? at leads
  split at leads
  · rename_i rows _ success
    obtain rfl := Option.some.inj leads
    exact ⟨_, .step (step_eq_next.mp success) (.done _)⟩
  · cases leads

end Table

/-- The grammar `S -> B`, `S -> c A d`, `B -> A B`, `A -> ε`. Nothing is derived from `B`, but a parser
that awaits `B` makes an `A` out of nothing whenever `d` comes next. -/
def Grammar.hollow : Grammar where
  symbols := [.epsilon, .endMark, .nonTerminal "S", .nonTerminal "B", .nonTerminal "A",
    .terminal "c", .terminal "d"]
  productions := [⟨2, [3]⟩, ⟨2, [5, 4, 6]⟩, ⟨3, [4, 3]⟩, ⟨4, [epsilonIndex]⟩]
  start := some 2
  augmented := none

private theorem Grammar.loaded_hollow : hollow.Loaded :=
  ⟨[⟨"S", ["B"]⟩, ⟨"S", ["c", "A", "d"]⟩, ⟨"B", ["A", "B"]⟩, ⟨"A", []⟩], rfl⟩

/-- The hollow grammar has a parser, and on the input `d` it reduces for ever. -/
theorem Analysis.not_halts_hollow : Grammar.hollow.Loaded ∧
    ∃ analysis, ofGrammar .hollow = .ok analysis ∧ ¬ analysis.Halts "d" := by
  let frame : Frame := ⟨"A", 4⟩
  obtain ⟨analysis, success, moves⟩ := exists_of_evaluated .hollow
    (fun analysis => decide (
      analysis.table.next? analysis.grammar (.initial "d") = some ⟨⟨0, [frame]⟩, ["d", "$"]⟩ ∧
      analysis.table.next? analysis.grammar ⟨⟨0, [frame]⟩, ["d", "$"]⟩ =
        some ⟨⟨0, [frame, frame]⟩, ["d", "$"]⟩ ∧
      analysis.table.next? analysis.grammar ⟨⟨4, [frame]⟩, ["d", "$"]⟩ =
        some ⟨⟨4, [frame, frame]⟩, ["d", "$"]⟩)) (by decide +kernel)
  obtain ⟨one, two, round⟩ := of_decide_eq_true moves
  obtain ⟨_, first⟩ := Table.steps_of_next? one
  obtain ⟨_, second⟩ := Table.steps_of_next? two
  obtain ⟨_, again⟩ := Table.steps_of_next? round
  have repeats : analysis.Repeats "d" :=
    ⟨_, _, frame, [frame], _, 0, _, [frame], first.trans second, again, rfl⟩
  exact ⟨Grammar.loaded_hollow, analysis, success, repeats.not_halts⟩

end SimpleLR
