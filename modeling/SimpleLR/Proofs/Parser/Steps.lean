import SimpleLR.Analysis
import SimpleLR.Proofs.Result

namespace SimpleLR

namespace Stack

@[simp] theorem top_cons (bottom : Nat) (frame : Frame) (frames : List Frame) :
    top ⟨bottom, frame :: frames⟩ = frame.state := rfl

/-- The stack that a number of its newest frames were taken from. -/
def below (stack : Stack) (count : Nat) : Stack := { stack with frames := stack.frames.drop count }

theorem drop?_eq_some {stack rest : Stack} {count : Nat} :
    stack.drop? count = some rest ↔ count ≤ stack.frames.length ∧ rest = stack.below count := by
  unfold drop? below
  split
  · rename_i enough
    simp [enough, eq_comm]
  · rename_i short
    simp [short]

end Stack

namespace TraceRow

/-- The production by which a row reduces. -/
def reduction? (row : TraceRow) : Option Nat :=
  match row.action with
  | .reduce index => some index
  | _ => none

def isShift (row : TraceRow) : Bool :=
  match row.action with
  | .shift _ => true
  | _ => false

/-- The productions of the reductions of a trace. -/
def reductions (trace : List TraceRow) : List Nat := trace.filterMap reduction?

/-- The next tokens in the rows of a trace that shift. -/
def shifts (trace : List TraceRow) : List (Option Text) :=
  (trace.filter isShift).map fun row => row.input.head?

@[simp] theorem reductions_append (first second : List TraceRow) :
    reductions (first ++ second) = reductions first ++ reductions second := List.filterMap_append ..

@[simp] theorem shifts_append (first second : List TraceRow) :
    shifts (first ++ second) = shifts first ++ shifts second := by
  unfold shifts
  rw [List.filter_append, List.map_append]

section Rows

variable (current : Configuration) (stack : List StackEntry) (target index : Nat)

@[simp] theorem reductions_shift : reductions [current.row (.shift target)] = [] := rfl

@[simp] theorem reductions_reduce :
    reductions [current.row (.reduce index), ⟨stack, current.input, .goto target⟩] = [index] := rfl

@[simp] theorem reductions_accept : reductions [current.row .accept] = [] := rfl

@[simp] theorem shifts_accept : shifts [current.row .accept] = [] := rfl

@[simp] theorem shifts_error (input : List Text) (message : Text) :
    shifts [⟨stack, input, .error message⟩] = [] := rfl

end Rows

end TraceRow

namespace Table

variable {g : Grammar} {table : Table}

/-- A step that does not end the run: a shift of the next token, or a reduction and its goto. -/
inductive Moves (g : Grammar) (table : Table) (current : Configuration) :
    List TraceRow → Configuration → Prop where
  | shift {symbol target : Nat} {token : Text} {rest : List Text}
      (reads : table.symbolOf? g current = some symbol)
      (cell : table.action? current.stack.top symbol = some (.shift target))
      (next : current.input = token :: rest) :
      Moves g table current [current.row (.shift target)] ⟨current.stack.push token target, rest⟩
  | reduce {symbol index target : Nat} {production : Production} {head : Text}
      (reads : table.symbolOf? g current = some symbol)
      (cell : table.action? current.stack.top symbol = some (.reduce index))
      (found : g.productions[index]? = some production)
      (enough : production.length ≤ current.stack.frames.length)
      (named : g.name production.head = .ok head)
      (leads : table.goto? (current.stack.below production.length).top production.head = some target) :
      Moves g table current
        [current.row (.reduce index), ⟨(current.stack.below production.length).entries ++
          [.symbol head], current.input, .goto target⟩]
        ⟨(current.stack.below production.length).push head target, current.input⟩

theorem Moves.step {current next : Configuration} {rows : List TraceRow}
    (moves : table.Moves g current rows next) : table.step g current = .ok (.next rows next) := by
  unfold Table.step
  cases moves with
  | shift reads cell input =>
    rw [reads]
    simp [cell, Table.shift, input]
  | reduce reads cell found enough named leads =>
    rw [reads]
    simp [cell, Table.reduce, Grammar.production, found, bind, Except.bind,
      Stack.drop?_eq_some.mpr ⟨enough, rfl⟩, named, leads, pure, Except.pure]

private theorem moves_of_shift {current next : Configuration} {rows : List TraceRow}
    {symbol target : Nat} (reads : table.symbolOf? g current = some symbol)
    (cell : table.action? current.stack.top symbol = some (.shift target))
    (success : shift current target = .ok (.next rows next)) : table.Moves g current rows next := by
  unfold shift at success
  split at success
  · cases success
  · rename_i token rest input
    cases success
    exact .shift reads cell input

private theorem moves_of_reduce {current next : Configuration} {rows : List TraceRow}
    {symbol index : Nat} (reads : table.symbolOf? g current = some symbol)
    (cell : table.action? current.stack.top symbol = some (.reduce index))
    (success : table.reduce g current index = .ok (.next rows next)) :
    table.Moves g current rows next := by
  unfold reduce Grammar.production at success
  cases found : g.productions[index]? with
  | none => simp [found, bind, Except.bind] at success
  | some production =>
    cases dropped : current.stack.drop? production.length with
    | none => simp [found, dropped, bind, Except.bind, pure, Except.pure] at success
    | some stack =>
      obtain ⟨enough, rfl⟩ := Stack.drop?_eq_some.mp dropped
      cases named : g.name production.head with
      | error fault => simp [found, dropped, named, bind, Except.bind] at success
      | ok head =>
        cases leads : table.goto? (current.stack.below production.length).top production.head with
        | none => simp [found, dropped, named, leads, bind, Except.bind, pure, Except.pure] at success
        | some target =>
          simp only [found, dropped, named, leads, bind, Except.bind, pure, Except.pure,
            Except.ok.injEq, Step.next.injEq] at success
          obtain ⟨rfl, rfl⟩ := success
          exact .reduce reads cell found enough named leads

private theorem shift_ne_accept {current : Configuration} {target : Nat} (rows : List TraceRow) :
    shift current target ≠ .ok (.accept rows) := by
  unfold shift
  split <;> nofun

private theorem reduce_ne_accept {current : Configuration} {index : Nat} (rows : List TraceRow) :
    table.reduce g current index ≠ .ok (.accept rows) := by
  unfold reduce
  intro success
  obtain ⟨production, _, success⟩ := Result.bind_eq_ok.mp success
  split at success
  · cases success
  · obtain ⟨head, _, success⟩ := Result.bind_eq_ok.mp success
    dsimp only at success
    split at success <;> cases success

theorem step_eq_next {current next : Configuration} {rows : List TraceRow} :
    table.step g current = .ok (.next rows next) ↔ table.Moves g current rows next := by
  refine ⟨fun success => ?_, Moves.step⟩
  unfold step at success
  cases reads : table.symbolOf? g current with
  | none => simp [reads] at success
  | some symbol =>
    cases cell : table.action? current.stack.top symbol with
    | none => simp [reads, cell] at success
    | some action =>
      simp only [reads, cell] at success
      cases action with
      | shift target => exact moves_of_shift reads cell success
      | reduce index => exact moves_of_reduce reads cell success
      | accept => cases success

theorem step_eq_accept {current : Configuration} {rows : List TraceRow} :
    table.step g current = .ok (.accept rows) ↔ ∃ symbol, table.symbolOf? g current = some symbol ∧
      table.action? current.stack.top symbol = some .accept ∧ rows = [current.row .accept] := by
  constructor
  · intro success
    unfold step at success
    cases reads : table.symbolOf? g current with
    | none => simp [reads] at success
    | some symbol =>
      refine ⟨symbol, rfl, ?_⟩
      cases cell : table.action? current.stack.top symbol with
      | none => simp [reads, cell] at success
      | some action =>
        simp only [reads, cell] at success
        cases action with
        | shift target => exact absurd success (shift_ne_accept rows)
        | reduce index => exact absurd success (reduce_ne_accept rows)
        | accept =>
          cases success
          exact ⟨rfl, rfl⟩
  · intro holds
    obtain ⟨symbol, reads, cell, rfl⟩ := holds
    unfold step
    simp [reads, cell]

/-- A number of moves, with the rows that they bring to the trace. -/
inductive Steps (g : Grammar) (table : Table) :
    Nat → Configuration → List TraceRow → Configuration → Prop where
  | done (current : Configuration) : Steps g table 0 current [] current
  | step {count : Nat} {current middle last : Configuration} {rows more : List TraceRow}
      (moves : table.Moves g current rows middle) (rest : Steps g table count middle more last) :
      Steps g table (count + 1) current (rows ++ more) last

namespace Steps

variable {count other : Nat} {current middle last : Configuration} {rows more : List TraceRow}

theorem trans (first : table.Steps g count current rows middle)
    (second : table.Steps g other middle more last) :
    table.Steps g (count + other) current (rows ++ more) last := by
  induction first with
  | done => simpa using second
  | step moves _ ih =>
    rw [Nat.add_right_comm, List.append_assoc]
    exact .step moves (ih second)

theorem split (steps : table.Steps g (count + other) current rows last) :
    ∃ middle first second, rows = first ++ second ∧ table.Steps g count current first middle ∧
      table.Steps g other middle second last := by
  induction count generalizing current rows with
  | zero => exact ⟨current, [], rows, rfl, .done current, by simpa using steps⟩
  | succ count ih =>
    rw [Nat.add_right_comm] at steps
    cases steps with
    | step moves rest =>
      obtain ⟨middle, first, second, rfl, before, after⟩ := ih rest
      exact ⟨middle, _, second, (List.append_assoc ..).symm, .step moves before, after⟩

theorem unique (first : table.Steps g count current rows middle)
    (second : table.Steps g count current more last) : rows = more ∧ middle = last := by
  induction first generalizing more with
  | done =>
    cases second
    exact ⟨rfl, rfl⟩
  | step moves _ ih =>
    cases second with
    | step other rest =>
      have same := moves.step.symm.trans other.step
      obtain ⟨rfl, rfl⟩ := Step.next.inj (Except.ok.inj same)
      obtain ⟨rfl, rfl⟩ := ih rest
      exact ⟨rfl, rfl⟩

end Steps

section Run

variable {count limit : Nat} {current last : Configuration} {rows trace : List TraceRow}

theorem run_steps (steps : table.Steps g count current rows last) :
    table.run g (count + limit) current trace = table.run g limit last (rows.reverse ++ trace) := by
  induction steps generalizing trace with
  | done => simp
  | step moves _ ih =>
    rw [Nat.add_right_comm, run, moves.step]
    dsimp only
    rw [ih, List.reverse_append, List.append_assoc]

theorem run_of_accept {more : List TraceRow} (steps : table.Steps g count current rows last)
    (accepts : table.step g last = .ok (.accept more)) :
    table.run g (count + 1) current trace =
      some (.ok (.accepted, trace.reverse ++ rows ++ more)) := by
  rw [run_steps steps, run, accepts]
  simp

/-- A run is given up only after as many moves as its limit. -/
theorem run_eq_none :
    table.run g limit current trace = none ↔ ∃ rows last, table.Steps g limit current rows last := by
  constructor
  · intro stopped
    induction limit generalizing current trace with
    | zero => exact ⟨[], current, .done current⟩
    | succ limit ih =>
      unfold run at stopped
      split at stopped
      · cases stopped
      · rename_i rows next success
        obtain ⟨more, last, rest⟩ := ih stopped
        exact ⟨_, last, .step (step_eq_next.mp success) rest⟩
      · cases stopped
      · cases stopped
  · intro holds
    obtain ⟨rows, last, steps⟩ := holds
    rw [← Nat.add_zero limit, run_steps steps]
    rfl

theorem run_mono {result : Except Fault (Outcome × List TraceRow)}
    (ended : table.run g limit current trace = some result) (more : Nat) :
    table.run g (limit + more) current trace = some result := by
  induction limit generalizing current trace with
  | zero => cases ended
  | succ limit ih =>
    rw [Nat.add_right_comm]
    unfold run at ended ⊢
    split at ended
    · exact ended
    · exact ih ended
    · exact ended
    · exact ended

/-- A run that ends makes moves to a configuration at which the next step ends it. -/
theorem run_eq_some {result : Except Fault (Outcome × List TraceRow)}
    (ended : table.run g limit current trace = some result) :
    ∃ count rows last, table.Steps g count current rows last ∧
      ((∃ fault, table.step g last = .error fault ∧ result = .error fault) ∨
        (table.step g last = .ok (.accept [last.row .accept]) ∧
          result = .ok (.accepted, trace.reverse ++ rows ++ [last.row .accept])) ∨
        ∃ more error stack, table.step g last = .ok (.reject more error stack) ∧
          result = .ok (.rejected error stack last.input,
            trace.reverse ++ rows ++ more ++ [⟨stack, last.input, .error error.message⟩])) := by
  induction limit generalizing current trace with
  | zero => cases ended
  | succ limit ih =>
    unfold run at ended
    split at ended
    · rename_i fault failed
      obtain rfl := Option.some.inj ended
      exact ⟨0, [], current, .done current, .inl ⟨fault, failed, rfl⟩⟩
    · rename_i rows next success
      obtain ⟨count, more, last, steps, ends⟩ := ih ended
      refine ⟨count + 1, _, last, .step (step_eq_next.mp success) steps, ?_⟩
      simpa [List.append_assoc] using ends
    · rename_i rows success
      obtain ⟨_, _, _, rfl⟩ := step_eq_accept.mp success
      obtain rfl := Option.some.inj ended
      exact ⟨0, [], current, .done current, .inr (.inl ⟨success, by simp⟩)⟩
    · rename_i rows error stack success
      obtain rfl := Option.some.inj ended
      exact ⟨0, [], current, .done current, .inr (.inr ⟨rows, error, stack, success, by simp⟩)⟩

/-- A run that is accepted makes moves to a configuration that the table accepts. -/
theorem run_eq_accepted {result : List TraceRow} :
    table.run g limit current trace = some (.ok (.accepted, result)) →
      ∃ count rows last, table.Steps g count current rows last ∧
        table.step g last = .ok (.accept [last.row .accept]) ∧
        result = trace.reverse ++ rows ++ [last.row .accept] := by
  intro accepted
  obtain ⟨count, rows, last, steps, ends⟩ := run_eq_some accepted
  rcases ends with ⟨_, _, failed⟩ | ⟨accepts, same⟩ | ⟨_, _, _, _, rejected⟩
  · cases failed
  · exact ⟨count, rows, last, steps, accepts, (Prod.mk.inj (Except.ok.inj same)).2⟩
  · cases rejected

end Run

end Table

namespace Analysis

variable {analysis : Analysis} {input : Text} {outcome other : Outcome} {trace rows : List TraceRow}

/-- The run on an input ends with an outcome and a trace, however many steps it takes. -/
def Ends (analysis : Analysis) (input : Text) (outcome : Outcome) (trace : List TraceRow) : Prop :=
  ∃ limit, analysis.table.run analysis.grammar limit (.initial input) [] = some (.ok (outcome, trace))

/-- The run on an input comes to an end. -/
def Halts (analysis : Analysis) (input : Text) : Prop :=
  ∃ outcome trace, analysis.Ends input outcome trace

theorem Ends.unique (first : analysis.Ends input outcome trace)
    (second : analysis.Ends input other rows) : outcome = other ∧ trace = rows := by
  obtain ⟨limit, one⟩ := first
  obtain ⟨more, two⟩ := second
  have left := Table.run_mono one more
  have right := Table.run_mono two limit
  rw [Nat.add_comm, right] at left
  have same := Prod.mk.inj (Except.ok.inj (Option.some.inj left))
  exact ⟨same.1.symm, same.2.symm⟩

/-- A report shows how the run ends. -/
theorem ends_of_parse {report : Report} (success : analysis.parse input = .ok report) :
    report.input = input ∧ analysis.Ends input report.outcome report.trace := by
  unfold parse Table.parse at success
  split at success
  · cases success
  · cases success
  · rename_i outcome trace ended
    cases success
    exact ⟨rfl, _, ended⟩

theorem exists_ends_of_evaluated (test : Outcome → Bool)
    (passes : (analysis.parse input).toOption.any (fun report => test report.outcome) = true) :
    ∃ outcome trace, analysis.Ends input outcome trace ∧ test outcome = true := by
  cases success : analysis.parse input with
  | error fault => simp [success, Except.toOption] at passes
  | ok report =>
    obtain ⟨_, ends⟩ := ends_of_parse success
    exact ⟨report.outcome, report.trace, ends, by simpa [success, Except.toOption] using passes⟩

theorem ends_of_evaluated
    (accepts : (analysis.parse input).toOption.any (·.outcome.isAccepted) = true) :
    ∃ trace, analysis.Ends input .accepted trace := by
  obtain ⟨outcome, trace, ends, accepted⟩ := exists_ends_of_evaluated Outcome.isAccepted accepts
  cases outcome with
  | accepted => exact ⟨trace, ends⟩
  | rejected => cases accepted

/-- A run that ends is reported unless it is given up before. -/
theorem Ends.parse (ends : analysis.Ends input outcome trace) :
    analysis.parse input = .ok ⟨input, outcome, trace⟩ ∨ analysis.parse input = .error .stepLimit := by
  obtain ⟨limit, ended⟩ := ends
  unfold Analysis.parse Table.parse
  cases stopped : analysis.table.run analysis.grammar Table.stepLimit (.initial input) [] with
  | none => exact .inr rfl
  | some result =>
    have same := (Table.run_mono ended Table.stepLimit).symm.trans
      (Nat.add_comm .. ▸ Table.run_mono stopped limit)
    obtain rfl := Option.some.inj same
    exact .inl rfl

end Analysis

end SimpleLR
