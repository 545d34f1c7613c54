import SimpleLR.Proofs.Grammar.Renaming
import SimpleLR.Proofs.Table.Shape

namespace SimpleLR

variable {naming : Renaming} {g g' : Grammar} {table : Table}

/-- Configurations with the same states, of which one has the renamed tokens of the other. -/
structure Configuration.Renamed (naming : Renaming) (configuration other : Configuration) : Prop where
  bottom : configuration.stack.bottom = other.stack.bottom
  states : configuration.stack.frames.map Frame.state = other.stack.frames.map Frame.state
  input : other.input = configuration.input.map naming.onNames

/-- Steps of one kind that bring as many rows and lead to configurations of one kind. -/
inductive Step.Alike (naming : Renaming) : Step → Step → Prop where
  | next {rows rows' : List TraceRow} {configuration other : Configuration}
      (length : rows.length = rows'.length) (related : configuration.Renamed naming other) :
      Alike naming (.next rows configuration) (.next rows' other)
  | accept {rows rows' : List TraceRow} (length : rows.length = rows'.length) :
      Alike naming (.accept rows) (.accept rows')
  | reject {rows rows' : List TraceRow} {error error' : ParseError} {stack stack' : List StackEntry}
      (length : rows.length = rows'.length) :
      Alike naming (.reject rows error stack) (.reject rows' error' stack')

namespace Configuration

theorem Renamed.top {configuration other : Configuration}
    (related : configuration.Renamed naming other) :
    configuration.stack.top = other.stack.top := by
  have head := congrArg List.head? related.states
  rw [List.head?_map, List.head?_map] at head
  rw [Stack.top, Stack.top, head, related.bottom]

theorem Renamed.lookahead {configuration other : Configuration}
    (related : configuration.Renamed naming other) :
    other.lookahead = naming.onNames configuration.lookahead := by
  rw [Configuration.lookahead, Configuration.lookahead, related.input, List.head?_map]
  cases configuration.input.head? with
  | none => exact naming.endMark.symm
  | some token => rfl

/-- Stacks with the same states push the same state. -/
theorem Renamed.push {configuration other : Configuration}
    (related : configuration.Renamed naming other) (symbol symbol' : Text) (target : Nat)
    {input : List Text} :
    Renamed naming ⟨configuration.stack.push symbol target, input⟩
      ⟨other.stack.push symbol' target, input.map naming.onNames⟩ where
  bottom := related.bottom
  states := congrArg (target :: ·) related.states
  input := rfl

/-- Stacks with the same states lose as many frames, or have too few. -/
theorem Renamed.drop? {configuration other : Configuration}
    (related : configuration.Renamed naming other) (count : Nat) :
    Option.Rel (fun stack stack' => Renamed naming ⟨stack, configuration.input⟩ ⟨stack', other.input⟩)
      (configuration.stack.drop? count) (other.stack.drop? count) := by
  have length := congrArg List.length related.states
  rw [List.length_map, List.length_map] at length
  unfold Stack.drop?
  rw [length]
  split
  · refine .some ⟨related.bottom, ?_, related.input⟩
    rw [List.map_drop, List.map_drop, related.states]
  · exact .none

private theorem tokens_renamed {input input' : Text}
    (words : Text.words input' = (Text.words input).map naming.onNames) :
    tokens input' = (tokens input).map naming.onNames := by
  have closed : (Text.words input').getLast? = some endMarkName ↔
      (Text.words input).getLast? = some endMarkName := by
    rw [words, List.getLast?_map, Option.map_eq_some_iff]
    constructor
    · rintro ⟨word, last, same⟩
      rwa [naming.endMark_iff.mp same] at last
    · exact fun last => ⟨_, last, naming.endMark⟩
  unfold tokens
  simp only [closed]
  split
  · exact words
  · rw [words, List.map_append, List.map_singleton, naming.endMark]

end Configuration

namespace Table

section Steps

variable (pair : g.Counterpart naming g') (columns : table.hasColumn = g.isToken)
  {configuration other : Configuration} (related : configuration.Renamed naming other)
include related

private theorem shift_alike (target : Nat) : Result.Alike Eq (Step.Alike naming)
    (shift configuration target) (shift other target) := by
  unfold shift
  rw [related.input]
  cases configuration.input with
  | nil => exact .error rfl
  | cons token rest => exact .ok (.next rfl (related.push token (naming.onNames token) target))

include pair

private theorem reduce_alike (index : Nat) : Result.Alike Eq (Step.Alike naming)
    (table.reduce g configuration index) (table.reduce g' other index) := by
  unfold reduce
  rw [Grammar.production_of_shape pair.shape]
  refine (Result.Alike.refl (fun _ => rfl) (g'.production index)).bind fun production _ own => ?_
  subst own
  have dropped := related.drop? production.length
  revert dropped
  generalize configuration.stack.drop? production.length = stack
  generalize other.stack.drop? production.length = stack'
  intro dropped
  cases dropped with
  | none => exact .ok (.reject rfl)
  | @some stack stack' kept =>
    refine (Grammar.name_alike pair.shape production.head).bind fun head head' _ => ?_
    rw [show stack.top = stack'.top from kept.top]
    split
    · exact .ok (.reject rfl)
    · rename_i target _
      have pushed : Configuration.Renamed naming ⟨stack.push head target, configuration.input⟩
          ⟨stack'.push head' target, configuration.input.map naming.onNames⟩ :=
        kept.push head head' target
      rw [← related.input] at pushed
      exact .ok (.next rfl pushed)

include columns

private theorem symbolOf?_renamed : table.symbolOf? g' other = table.symbolOf? g configuration := by
  have tokens := pair.tokens configuration.lookahead
  rw [← Grammar.isToken_of_shape pair.shape, ← columns] at tokens
  unfold symbolOf?
  rw [related.lookahead, related.input, List.length_map, tokens]
  simp only [naming.endMark_iff]

private theorem step_alike : Result.Alike Eq (Step.Alike naming) (table.step g configuration)
    (table.step g' other) := by
  unfold step
  rw [symbolOf?_renamed pair columns related, ← related.top]
  dsimp only
  split
  · exact .ok (.reject rfl)
  · split
    · exact .ok (.reject rfl)
    · exact shift_alike related _
    · exact reduce_alike pair related _
    · exact .ok (.accept rfl)

end Steps

variable (pair : g.Counterpart naming g') (columns : table.hasColumn = g.isToken)
include pair columns

/-- Counterparts run as long, and their traces have as many rows. -/
theorem run_alike (limit : Nat) {configuration other : Configuration}
    (related : configuration.Renamed naming other) {trace trace' : List TraceRow}
    (length : trace.length = trace'.length) :
    Option.Rel (Result.Alike Eq fun ended ended' => ended.2.length = ended'.2.length)
      (table.run g limit configuration trace) (table.run g' limit other trace') := by
  induction limit generalizing configuration other trace trace' with
  | zero => exact .none
  | succ limit ih =>
    have step := step_alike pair columns related
    unfold run
    generalize table.step g configuration = first at step
    generalize table.step g' other = second at step
    cases step with
    | error same => exact .some (.error same)
    | ok alike =>
      cases alike with
      | next rows next => exact ih next (by simp [rows, length])
      | accept rows => exact .some (.ok (by simp [rows, length]))
      | reject rows => exact .some (.ok (by simp [rows, length]))

/-- The reports on an input and its renamed form have traces of one length. -/
theorem parse_alike {input input' : Text}
    (words : Text.words input' = (Text.words input).map naming.onNames) :
    Result.Alike Eq (fun report report' => report.trace.length = report'.trace.length)
      (table.parse g input) (table.parse g' input') := by
  have begins : (Configuration.initial input).Renamed naming (.initial input') :=
    ⟨rfl, rfl, Configuration.tokens_renamed words⟩
  have empty : ([] : List TraceRow).length = ([] : List TraceRow).length := rfl
  have ran := run_alike pair columns stepLimit begins empty
  unfold parse
  generalize table.run g stepLimit (.initial input) [] = first at ran
  generalize table.run g' stepLimit (.initial input') [] = second at ran
  cases ran with
  | none => exact .error rfl
  | some ended =>
    cases ended with
    | error same => exact .error same
    | ok length => exact .ok length

end Table

namespace Grammar

private theorem Counterpart.augment_alike (pair : g.Counterpart naming g') (loaded : g.Loaded)
    (loaded' : g'.Loaded) :
    Result.Alike Failure.Alike (Counterpart naming) g.augment g'.augment := by
  have same : g.start = g'.start := (congrArg Grammar.start pair.shape :)
  cases chosen : g.start with
  | none =>
    unfold augment
    rw [loaded.augmented, loaded'.augmented, ← same, chosen]
    exact .error (.rejected _ _)
  | some start =>
    have chosen' : g'.start = some start := same ▸ chosen
    obtain ⟨grown, extended⟩ := loaded.wellFormed.augment_ok loaded.augmented chosen
    obtain ⟨grown', extended'⟩ := loaded'.wellFormed.augment_ok loaded'.augmented chosen'
    obtain ⟨_, from'⟩ := augment_eq_ok loaded.augmented extended
    obtain ⟨_, from''⟩ := augment_eq_ok loaded'.augmented extended'
    obtain rfl := Option.some.inj (chosen.symm.trans from'.chosen)
    obtain rfl := Option.some.inj (chosen'.symm.trans from''.chosen)
    rw [extended, extended']
    exact .ok (pair.augmented loaded.wellFormed loaded'.wellFormed from' from'')

private theorem Counterpart.automaton_alike (pair : g.Counterpart naming g') (loaded : g.Loaded)
    (loaded' : g'.Loaded) : Result.Alike Failure.Alike
      (fun made made' => made.1.Counterpart naming made'.1 ∧ made.2 = made'.2)
      g.automaton g'.automaton := by
  unfold Grammar.automaton
  refine (pair.augment_alike loaded loaded').bind fun grown grown' pair => ?_
  rw [collection_of_shape pair.shape]
  refine (Result.Alike.refl Failure.Alike.refl _).bind fun automaton _ same => ?_
  exact .ok ⟨pair, same⟩

end Grammar

namespace Analysis

/-- Analyses of counterparts with one table. -/
structure Counterpart (naming : Renaming) (analysis other : Analysis) : Prop where
  pair : analysis.grammar.Counterpart naming other.grammar
  table : analysis.table = other.table
  columns : analysis.table.hasColumn = analysis.grammar.isToken

private theorem ofAutomaton_alike (pair : g.Counterpart naming g') (automaton : Automaton) :
    Result.Alike Failure.Alike (Counterpart naming) (ofAutomaton g automaton)
      (ofAutomaton g' automaton) := by
  unfold ofAutomaton
  rw [Grammar.firstFollow_of_shape pair.shape]
  refine (automaton.table_alike pair.shape _).bind fun table table' own => ?_
  exact .ok ⟨pair, own.1, own.2⟩

/-- Counterparts are both analysed, or neither is. -/
theorem ofGrammar_alike (pair : g.Counterpart naming g') (loaded : g.Loaded) (loaded' : g'.Loaded) :
    Result.Alike Failure.Alike (Counterpart naming) (ofGrammar g) (ofGrammar g') := by
  unfold ofGrammar
  refine (pair.automaton_alike loaded loaded').bind fun made made' own => ?_
  obtain ⟨grown, automaton⟩ := made
  obtain ⟨grown', automaton'⟩ := made'
  obtain ⟨pair, rfl⟩ := own
  exact ofAutomaton_alike pair automaton

/-- The reports on inputs and their renamed forms have traces of the same lengths. -/
theorem Counterpart.parseAll_alike {analysis other : Analysis}
    (pair : analysis.Counterpart naming other) {inputs inputs' : List Text}
    (words : List.Forall₂ (fun input input' =>
      Text.words input' = (Text.words input).map naming.onNames) inputs inputs') :
    Result.Alike Eq (List.Forall₂ fun report report' => report.trace.length = report'.trace.length)
      (analysis.parseAll inputs) (other.parseAll inputs') := by
  refine .mapM words fun input input' own => ?_
  unfold parse
  rw [← pair.table]
  exact Table.parse_alike pair.pair pair.columns own

end Analysis

end SimpleLR
