import SimpleLR.Proofs.Parser.Completeness
import Mathlib.Data.Finset.Lattice.Fold

/-! Why a run comes to an end. If every symbol that can stand on a stack yields a word, every stack can
be completed to an accepted one. Reductions on one lookahead are then also reductions on the way to
accepting, and there are finitely many lookaheads, so only finitely many reductions follow a shift. -/
namespace SimpleLR

variable {g : Grammar} {goal start : Nat} {automaton : Automaton} {table : Table}

theorem Grammar.Yields.of_each {form : List Nat}
    (each : ∀ symbol ∈ form, ∃ word reductions, g.Yields [symbol] word reductions) :
    ∃ word reductions, g.Yields form word reductions := by
  induction form with
  | nil => exact ⟨[], [], .nil⟩
  | cons symbol form ih =>
    obtain ⟨_, _, first⟩ := each symbol List.mem_cons_self
    obtain ⟨_, _, rest⟩ := ih fun other member => each other (by simp [member])
    exact ⟨_, _, first.append rest⟩

namespace Automaton

/-- Every symbol in the production of a valid item yields a word. -/
def Fruitful (g : Grammar) (automaton : Automaton) : Prop :=
  ∀ {frames : List Frame} {symbols : List Nat} {item : Item} {production : Production},
    automaton.Valid g frames symbols item → g.productions[item.production]? = some production →
      ∀ symbol ∈ production.symbols, ∃ word reductions, g.Yields [symbol] word reductions

/-- A word with which a stack is accepted: the rest of the body of a valid item yields a first part,
and the other part is to come behind the item's production. -/
inductive Completes (g : Grammar) (automaton : Automaton) (frames : List Frame)
    (symbols : List Nat) : List Nat → Prop where
  | intro {item : Item} {production : Production} {near reductions beyond : List Nat}
      (valid : automaton.Valid g frames symbols item)
      (found : g.productions[item.production]? = some production)
      (yields : g.Yields (production.symbols.drop item.position) near reductions)
      (awaits : automaton.Awaits g (frames.drop item.position) (symbols.drop item.position)
        item.production beyond) :
      Completes g automaton frames symbols (near ++ beyond)

variable {frames : List Frame} {symbols : List Nat}

theorem Awaits.terminals {index : Nat} {word : List Nat}
    (awaits : automaton.Awaits g frames symbols index word) :
    ∀ symbol ∈ word, g.isTerminal symbol = true := by
  induction awaits with
  | nothing => simp
  | rest _ _ _ _ yields _ ih =>
    intro symbol member
    exact (List.mem_append.mp member).elim (yields.terminals symbol) (ih symbol)

theorem Completes.terminals {word : List Nat} (completes : automaton.Completes g frames symbols word) :
    ∀ symbol ∈ word, g.isTerminal symbol = true := by
  obtain ⟨_, _, yields, awaits⟩ := completes
  intro symbol member
  exact (List.mem_append.mp member).elim (yields.terminals symbol) (awaits.terminals symbol)

private theorem Fruitful.exists_awaits (fruitful : automaton.Fruitful g) {item : Item}
    (valid : automaton.Valid g frames symbols item) :
    ∃ word, automaton.Awaits g (frames.drop item.position) (symbols.drop item.position)
      item.production word := by
  induction valid with
  | start => exact ⟨[], .nothing⟩
  | push _ _ _ _ ih => exact ih
  | call caller dot member ih =>
    obtain ⟨beyond, later⟩ := ih
    obtain ⟨_, production, found, rfl⟩ := Grammar.mem_productionsOf.mp member
    obtain ⟨outer, rule, here⟩ := Grammar.afterDot?_eq_some.mp dot
    obtain ⟨word, reductions, yields⟩ := Grammar.Yields.of_each fun symbol member =>
      fruitful caller rule symbol (List.mem_of_mem_drop member)
    exact ⟨word ++ beyond, .rest caller rule here found yields later⟩

theorem Valid.of_pushed {frame : Frame} {symbol : Nat} {item : Item}
    (valid : automaton.Valid g (frame :: frames) (symbol :: symbols) item)
    (seen : item.position ≠ 0) : ∃ before, automaton.Valid g frames symbols before ∧
      g.afterDot? before = some symbol ∧ item = before.advance := by
  cases valid with
  | push before dot _ _ => exact ⟨_, before, dot, rfl⟩
  | call => exact absurd rfl seen

/-- What is to come behind a production that was called for with a head on top of the stack was to
come behind every production of that head before. -/
theorem Awaits.of_pushed {frame : Frame} {index own : Nat} {word near reductions : List Nat}
    {production inner : Production} (found : g.productions[index]? = some production)
    (awaits : automaton.Awaits g (frame :: frames) (production.head :: symbols) own word)
    (here : g.productions[own]? = some inner) (yields : g.Yields inner.symbols near reductions) :
    automaton.Awaits g frames symbols index (near ++ word) := by
  generalize stack : frame :: frames = all at awaits
  generalize path : production.head :: symbols = names at awaits
  induction awaits generalizing near reductions inner with
  | nothing => cases stack
  | @rest _ _ middle after beyond caller called outer other valid rule dot same more later ih =>
    subst stack path
    obtain rfl := Option.some.inj (same.symm.trans here)
    have whole : g.Yields (outer.symbols.drop caller.position) (near ++ middle)
        (reductions ++ called :: after) := by
      obtain ⟨bound, at'⟩ := List.getElem?_eq_some_iff.mp dot
      rw [List.drop_eq_getElem_cons bound, at']
      exact .production here yields more
    rw [← List.append_assoc]
    by_cases unseen : caller.position = 0
    · rw [unseen] at ih whole
      exact ih rule whole rfl rfl
    · obtain ⟨before, earlier, head, rfl⟩ := valid.of_pushed unseen
      obtain ⟨again, there, next⟩ := Grammar.afterDot?_eq_some.mp head
      obtain rfl := Option.some.inj (there.symm.trans rule)
      exact .rest earlier there next found whole later

/-- A word that completes a stack with a head on top was to come behind every production of that head
before. -/
theorem Completes.awaits {frame : Frame} {index : Nat} {word : List Nat} {production : Production}
    (found : g.productions[index]? = some production)
    (completes : automaton.Completes g (frame :: frames) (production.head :: symbols) word) :
    automaton.Awaits g frames symbols index word := by
  obtain @⟨item, own, near, reductions, beyond, valid, rule, yields, awaits⟩ := completes
  by_cases unseen : item.position = 0
  · rw [unseen] at awaits yields
    exact awaits.of_pushed found rule yields
  · obtain ⟨before, earlier, dot, rfl⟩ := valid.of_pushed unseen
    obtain ⟨again, there, next⟩ := Grammar.afterDot?_eq_some.mp dot
    obtain rfl := Option.some.inj (there.symm.trans rule)
    exact .rest earlier there next found yields awaits

theorem Canonical.exists_valid (canonical : automaton.Canonical g)
    (traces : automaton.Traces g frames symbols) : ∃ item, automaton.Valid g frames symbols item := by
  cases traces with
  | start => exact ⟨_, .start⟩
  | push below edge named =>
    obtain ⟨state, found, leaves⟩ := canonical.transition?_eq_some.mp edge
    obtain ⟨⟨item, member, dot⟩, _⟩ := (canonical.edges found).mp leaves
    have valid := (canonical.valid_iff_holds below).mpr ⟨state, found, member⟩
    exact ⟨_, .push valid dot edge named⟩

end Automaton

namespace Table

variable {count : Nat} {current last : Configuration} {rows : List TraceRow}

theorem Steps.suffix (steps : table.Steps g count current rows last) :
    last.input <:+ current.input := by
  induction steps with
  | done => exact List.suffix_rfl
  | step moves _ ih =>
    cases moves with
    | shift _ _ next => exact ih.trans (next ▸ List.suffix_cons _ _)
    | reduce => exact ih

private theorem Steps.le_of_accept {other : Nat} {final : Configuration} {more accepted : List TraceRow}
    (first : table.Steps g count current rows last)
    (accepts : table.step g last = .ok (.accept accepted))
    (second : table.Steps g other current more final) : other ≤ count := by
  by_contra longer
  obtain ⟨extra, rfl⟩ : ∃ extra, other = count + (extra + 1) := ⟨other - count - 1, by omega⟩
  obtain ⟨middle, _, _, _, before, after⟩ := second.split
  obtain ⟨_, rfl⟩ := first.unique before
  cases after with
  | step moves _ => exact nomatch moves.step.symm.trans accepts

namespace Faithful

open Automaton

variable (faithful : table.Faithful g goal start automaton)
include faithful

variable {frames : List Frame} {symbols : List Nat}

/-- Every stack is completed by some word. -/
theorem exists_completes (fruitful : automaton.Fruitful g)
    (traces : automaton.Traces g frames symbols) :
    ∃ word, automaton.Completes g frames symbols word := by
  obtain ⟨item, valid⟩ := faithful.canonical.exists_valid traces
  obtain ⟨production, found, _⟩ := valid.seen faithful.augmented.first
  obtain ⟨beyond, awaits⟩ := fruitful.exists_awaits valid
  obtain ⟨near, reductions, yields⟩ := Grammar.Yields.of_each fun symbol member =>
    fruitful valid found symbol (List.mem_of_mem_drop member)
  exact ⟨near ++ beyond, .intro valid found yields awaits⟩

private theorem accept_of_awaits {index : Nat} {word path : List Nat} {stack : List Frame}
    {production : Production} {input : List Text}
    (awaits : automaton.Awaits g frames symbols index word)
    (found : g.productions[index]? = some production)
    (valid : automaton.Valid g stack path ⟨index, production.length⟩)
    (kept : stack.drop production.length = frames) (left : path.drop production.length = symbols)
    (tokens : g.Tokens word input) :
    ∃ count rows last accepted, table.Steps g count ⟨⟨0, stack⟩, input⟩ rows last ∧
      table.step g last = .ok (.accept accepted) := by
  induction awaits generalizing stack path production input with
  | nothing =>
    cases tokens with
    | nil => exact ⟨0, [], _, _, .done _, faithful.accept_of_completed found valid⟩
  | rest caller rule dot here yields later ih =>
    obtain rfl := Option.some.inj (here.symm.trans found)
    subst kept left
    have head := Grammar.afterDot?_eq_some.mpr ⟨_, rule, dot⟩
    obtain ⟨rows, frame, moves, _, advanced⟩ := faithful.moves_of_completed valid here head caller
      (.rest caller rule dot here yields later) tokens
    obtain ⟨count, more, top, names, rest, steps, _, tokens, complete, kept, left⟩ :=
      faithful.steps_of_yields yields advanced rule rfl later tokens
    obtain ⟨others, further, last, accepted, go, accepts⟩ := ih rule complete kept left tokens
    exact ⟨_, _, last, accepted, .step moves (steps.trans go), accepts⟩

theorem accept_of_completes {word : List Nat} {input : List Text}
    (completes : automaton.Completes g frames symbols word) (tokens : g.Tokens word input) :
    ∃ count rows last accepted, table.Steps g count ⟨⟨0, frames⟩, input⟩ rows last ∧
      table.step g last = .ok (.accept accepted) := by
  obtain ⟨valid, found, yields, awaits⟩ := completes
  obtain ⟨count, rows, stack, path, rest, steps, _, tokens, complete, kept, left⟩ :=
    faithful.steps_of_yields yields valid found rfl awaits tokens
  obtain ⟨other, more, last, accepted, go, accepts⟩ :=
    faithful.accept_of_awaits awaits found complete kept left tokens
  exact ⟨_, _, last, accepted, steps.trans go, accepts⟩

/-- Reductions on one lookahead, followed back. What completes the stack behind them completes the
stack before them, and the reductions are made on its first symbol as well. -/
private theorem steps_of_completes {count : Nat} {stack : List Frame} {input : List Text}
    {rows : List TraceRow} (traces : automaton.Traces g frames symbols)
    (steps : table.Steps g count ⟨⟨0, frames⟩, input⟩ rows ⟨⟨0, stack⟩, input⟩) :
    ∃ path, automaton.Traces g stack path ∧ ∀ word, automaton.Completes g stack path word →
      automaton.Completes g frames symbols word ∧ ∀ other : List Text,
        (∀ stack, table.symbolOf? g ⟨stack, other⟩ = some (word.headD endMarkIndex)) →
        ∃ rows, table.Steps g count ⟨⟨0, frames⟩, other⟩ rows ⟨⟨0, stack⟩, other⟩ := by
  induction count generalizing frames symbols rows with
  | zero =>
    cases steps
    exact ⟨symbols, traces, fun word completes => ⟨completes, fun other _ => ⟨[], .done _⟩⟩⟩
  | succ count ih =>
    cases steps with
    | step moves rest =>
      obtain ⟨top, names, behind, rfl, moved⟩ := faithful.moved_of_moves traces moves
      have further := moved.traces traces
      cases moved with
      | shift => exact absurd rest.suffix.length_le (by simp)
      | @reduce index target production head _ _ later found valid named edge _ _ =>
        obtain ⟨path, ends, back⟩ := ih further rest
        refine ⟨path, ends, fun word completes => ?_⟩
        obtain ⟨before, retrace⟩ := back word completes
        have awaits := before.awaits found
        have empty : g.Yields (production.symbols.drop production.length) [] [] := by
          simpa [Production.length] using .nil
        refine ⟨.intro valid found empty awaits, fun other reads => ?_⟩
        obtain ⟨first, moves, _⟩ := faithful.moves_of_reduce later found valid named edge
          (reads _) (faithful.follows_of_awaits awaits found)
        obtain ⟨more, steps⟩ := retrace other reads
        exact ⟨_, .step moves steps⟩

/-- There is a bound for the number of reductions that a stack allows on any lookahead. -/
private theorem exists_bound (fruitful : automaton.Fruitful g) (traces : automaton.Traces g frames symbols) :
    ∃ bound, ∀ {count : Nat} {stack : List Frame} {input : List Text} {rows : List TraceRow},
      table.Steps g count ⟨⟨0, frames⟩, input⟩ rows ⟨⟨0, stack⟩, input⟩ → count ≤ bound := by
  -- A word that completes the stack bounds the reductions on its first symbol.
  have each (next : Nat) : ∃ bound, ∀ {word : List Nat} {count : Nat} {stack : List Frame},
      automaton.Completes g frames symbols word → word.headD endMarkIndex = next →
      (∀ input : List Text, (∀ stack, table.symbolOf? g ⟨stack, input⟩ = some next) →
        ∃ rows, table.Steps g count ⟨⟨0, frames⟩, input⟩ rows ⟨⟨0, stack⟩, input⟩) →
      count ≤ bound := by
    by_cases some' : ∃ word, automaton.Completes g frames symbols word ∧ word.headD endMarkIndex = next
    · obtain ⟨word, completes, rfl⟩ := some'
      obtain ⟨input, tokens⟩ := Grammar.exists_tokens completes.terminals
      obtain ⟨bound, rows, last, accepted, steps, accepts⟩ :=
        faithful.accept_of_completes completes tokens
      refine ⟨bound, fun _ _ retrace => ?_⟩
      obtain ⟨more, reductions⟩ := retrace input (faithful.reads_of_tokens tokens)
      exact steps.le_of_accept accepts reductions
    · exact ⟨0, fun completes same => absurd ⟨_, completes, same⟩ some'⟩
  choose bounds bounded using each
  refine ⟨(Finset.range g.symbols.length).sup bounds, fun {count stack input rows} steps => ?_⟩
  obtain ⟨path, ends, back⟩ := faithful.steps_of_completes traces steps
  obtain ⟨word, behind⟩ := faithful.exists_completes fruitful ends
  obtain ⟨completes, retrace⟩ := back word behind
  have inside : word.headD endMarkIndex < g.symbols.length := by
    cases word with
    | nil => exact (List.getElem?_eq_some_iff.mp faithful.augmented.endMark).1
    | cons first word => exact Grammar.lt_of_isTerminal (completes.terminals first List.mem_cons_self)
  exact (bounded _ completes rfl retrace).trans (Finset.le_sup (Finset.mem_range.mpr inside))

/-- On a stack that is a path of the automaton a step moves on, accepts, or rejects the next token: it is
no symbol with a column, or its cell is empty. -/
theorem step_cases {current : Configuration} {input : List Text}
    (traces : automaton.Traces g frames symbols) (here : current = ⟨⟨0, frames⟩, input⟩) :
    (∃ rows next, table.Moves g current rows next) ∨
      table.step g current = .ok (.accept [current.row .accept]) ∨
      ∃ error, table.step g current = .ok (.reject [] error current.stack.entries) ∧
        (error = .unrecognized current.lookahead ∧ table.symbolOf? g current = none ∨
          error = .noAction current.stack.top current.lookahead ∧
            ∃ symbol, table.symbolOf? g current = some symbol ∧
              table.action? current.stack.top symbol = none) := by
  subst here
  cases reads : table.symbolOf? g ⟨⟨0, frames⟩, input⟩ with
  | none => exact .inr (.inr ⟨_, by simp [step, reads], .inl ⟨rfl, rfl⟩⟩)
  | some symbol =>
    cases cell : table.action? (Stack.top ⟨0, frames⟩) symbol with
    | none => exact .inr (.inr ⟨_, by simp [step, reads, cell], .inr ⟨rfl, symbol, rfl, cell⟩⟩)
    | some action =>
      cases action with
      | shift target =>
        obtain ⟨_, proper⟩ := faithful.shift_cell.mp cell
        obtain ⟨token, rest, rfl, _⟩ := faithful.input_of_reads_terminal proper reads
        exact .inl ⟨_, _, .shift reads cell rfl⟩
      | reduce index =>
        obtain ⟨later, production, found, valid, follows⟩ := (faithful.reduce_cell traces).mp cell
        obtain ⟨_, _, _, _, called⟩ := valid.seen faithful.augmented.first
        obtain ⟨head, caller, before, dot⟩ := called.caller later found
        obtain ⟨target, edge⟩ := faithful.edge_of_valid before dot
        have named := Grammar.name_ok (Grammar.lt_of_isNonTerminal head)
        obtain ⟨rows, moves, _⟩ :=
          faithful.moves_of_reduce later found valid named edge reads follows
        exact .inl ⟨_, _, moves⟩
      | accept => exact .inr (.inl (step_eq_accept.mpr ⟨symbol, reads, cell, rfl⟩))

/-- On a stack that is a path of the automaton no step is at fault. -/
theorem step_ne_error {input : List Text} {fault : Fault}
    (traces : automaton.Traces g frames symbols) :
    table.step g ⟨⟨0, frames⟩, input⟩ ≠ .error fault := by
  intro failed
  rcases faithful.step_cases traces rfl with ⟨_, _, moves⟩ | accepts | ⟨_, rejects, _⟩
  · cases moves.step.symm.trans failed
  · cases accepts.symm.trans failed
  · cases rejects.symm.trans failed

theorem run_ok {limit : Nat} {input : List Text} {trace : List TraceRow}
    {result : Except Fault (Outcome × List TraceRow)} (traces : automaton.Traces g frames symbols)
    (ended : table.run g limit ⟨⟨0, frames⟩, input⟩ trace = some result) :
    ∃ value, result = .ok value := by
  obtain ⟨_, _, last, steps, ends⟩ := run_eq_some ended
  obtain ⟨stack, path, rest, rfl, further⟩ := faithful.traces_of_steps traces steps
  rcases ends with ⟨_, failed, _⟩ | ⟨_, rfl⟩ | ⟨_, _, _, _, rfl⟩
  · exact absurd failed (faithful.step_ne_error further)
  · exact ⟨_, rfl⟩
  · exact ⟨_, rfl⟩

private theorem exists_end (fruitful : automaton.Fruitful g) {input : List Text}
    (traces : automaton.Traces g frames symbols) :
    ∃ count, ∀ rows last, ¬ table.Steps g count ⟨⟨0, frames⟩, input⟩ rows last := by
  induction size : input.length using Nat.strong_induction_on generalizing frames symbols input with
  | _ length ih =>
    obtain ⟨bound, bounded⟩ := faithful.exists_bound fruitful traces
    by_cases further : ∃ rows last, table.Steps g (bound + 1) ⟨⟨0, frames⟩, input⟩ rows last
    · obtain ⟨rows, last, steps⟩ := further
      obtain ⟨path, stack, rest, rfl, ends⟩ := faithful.traces_of_steps traces steps
      have shorter : rest.length < input.length := by
        apply Nat.lt_of_le_of_ne steps.suffix.length_le
        intro same
        obtain rfl : rest = input := steps.suffix.eq_of_length same
        exact absurd (bounded steps) (Nat.not_succ_le_self bound)
      obtain ⟨count, stops⟩ := ih _ (size ▸ shorter) ends rfl
      refine ⟨bound + 1 + count, fun _ _ longer => ?_⟩
      obtain ⟨middle, _, _, _, before, after⟩ := longer.split
      obtain ⟨_, rfl⟩ := steps.unique before
      exact stops _ _ after
    · exact ⟨bound + 1, fun rows last steps => further ⟨rows, last, steps⟩⟩

end Faithful

end Table

/-- A symbol of a form that the start symbol derives. -/
def Grammar.Reachable (g : Grammar) (symbol : Nat) : Prop :=
  ∃ start form, g.start = some start ∧ g.Derives [start] form ∧ symbol ∈ form

/-- Every symbol that the start symbol leads to derives a word of terminals. -/
def Grammar.Productive (g : Grammar) : Prop :=
  ∀ symbol, g.Reachable symbol →
    ∃ word, (∀ terminal ∈ word, g.isTerminal terminal = true) ∧ g.Derives [symbol] word

private theorem Grammar.Reachable.of_production {symbol index : Nat} {production : Production}
    (reachable : g.Reachable production.head) (found : g.productions[index]? = some production)
    (member : symbol ∈ production.symbols) : g.Reachable symbol := by
  obtain ⟨start, form, chosen, path, inside⟩ := reachable
  obtain ⟨before, after, rfl⟩ := List.append_of_mem inside
  exact ⟨start, _, chosen, path.step (.here found before after), by simp [member]⟩

theorem Grammar.Reachable.cases {symbol : Nat} (reachable : g.Reachable symbol) :
    g.start = some symbol ∨ ∃ production ∈ g.productions, symbol ∈ production.symbols := by
  obtain ⟨start, form, chosen, path, inside⟩ := reachable
  induction path generalizing symbol with
  | refl => exact .inl (List.mem_singleton.mp inside ▸ chosen)
  | step _ rewrites ih =>
    obtain ⟨found, before, after⟩ := rewrites
    simp only [List.mem_append] at inside
    rcases inside with (left | body) | right
    · exact ih (List.mem_append_left _ left)
    · exact .inr ⟨_, List.mem_of_getElem? found, body⟩
    · exact ih (List.mem_append_right _ (List.mem_cons_of_mem _ right))

theorem Grammar.productive_pairs : pairs.Productive := by
  intro symbol reachable
  have bodies : ∀ production ∈ pairs.productions, ∀ symbol ∈ production.symbols,
      symbol = 2 ∨ symbol = 3 ∨ symbol = 4 := by decide
  have known : symbol = 2 ∨ symbol = 3 ∨ symbol = 4 := by
    rcases reachable.cases with chosen | ⟨production, member, inside⟩
    · exact .inl (Option.some.inj chosen).symm
    · exact bodies production member symbol inside
  have empty : pairs.productions[1]? = some ⟨2, [epsilonIndex]⟩ := rfl
  rcases known with rfl | rfl | rfl
  · exact ⟨[], by simp, Derives.refl.step (.here empty [] [])⟩
  · exact ⟨[3], by decide, .refl⟩
  · exact ⟨[4], by decide, .refl⟩

namespace Analysis.Built

variable {analysis : Analysis} {input : Text} (built : analysis.Built g start)
include built

private theorem reachable_of_valid {frames : List Frame} {symbols : List Nat} {item : Item}
    (valid : analysis.automaton.Valid analysis.grammar frames symbols item) {production : Production}
    (found : analysis.grammar.productions[item.production]? = some production) {symbol : Nat}
    (member : symbol ∈ production.symbols) : g.Reachable symbol := by
  have augmented := built.faithful.augmented
  induction valid generalizing production symbol with
  | start =>
    obtain rfl := Option.some.inj (augmented.first.symm.trans found)
    rw [augmented.symbols_first, List.mem_singleton] at member
    exact ⟨start, [start], built.from'.chosen, .refl, by simp [member]⟩
  | push _ _ _ _ ih => exact ih found member
  | @call _ _ _ index caller _ dot inside ih =>
    obtain ⟨_, same, here, rfl⟩ := Grammar.mem_productionsOf.mp inside
    obtain rfl := Option.some.inj (here.symm.trans found)
    obtain ⟨outer, rule, next⟩ := Grammar.afterDot?_eq_some.mp dot
    have head := ih rule (List.mem_of_getElem? next)
    cases index with
    | zero =>
      obtain rfl := Option.some.inj (augmented.first.symm.trans here)
      exact absurd (List.mem_of_getElem? next) (augmented.absent outer (List.mem_of_getElem? rule))
    | succ index =>
      rw [built.from'.production] at here
      exact head.of_production here member

theorem fruitful_of_productive (productive : g.Productive) :
    analysis.automaton.Fruitful analysis.grammar := by
  intro frames symbols item production valid found symbol member
  obtain ⟨word, terminals, path⟩ := productive symbol (built.reachable_of_valid valid found member)
  obtain ⟨reductions, yields⟩ := Grammar.Yields.of_derives path (.of_terminals terminals)
  exact ⟨word, _, built.from'.yields_augmented yields⟩

theorem halts_of_stop (stops : ∃ count, ∀ rows last,
    ¬ analysis.table.Steps analysis.grammar count (.initial input) rows last) :
    analysis.Halts input := by
  obtain ⟨count, stops⟩ := stops
  cases ended : analysis.table.run analysis.grammar count (.initial input) [] with
  | none =>
    obtain ⟨rows, last, steps⟩ := Table.run_eq_none.mp ended
    exact absurd steps (stops rows last)
  | some result =>
    obtain ⟨⟨outcome, trace⟩, rfl⟩ := built.faithful.run_ok .start ended
    exact ⟨outcome, trace, count, ended⟩

/-- If every symbol that the start symbol leads to derives a word, every run halts. -/
theorem halts_of_productive (productive : g.Productive) : analysis.Halts input :=
  built.halts_of_stop (built.faithful.exists_end (built.fruitful_of_productive productive) .start)

end Analysis.Built

end SimpleLR
