import SimpleLR.Proofs.Analysis
import SimpleLR.Proofs.Parser.Steps

/-! Stacks as paths of the automaton. The items of the state on top are the items that are valid for
the symbols below it: what an item has seen lies on top of the stack, and under it the item's
production was called for. -/
namespace SimpleLR

variable {g : Grammar} {goal start : Nat} {automaton : Automaton} {table : Table}

namespace Automaton

/-- Frames that follow edges of the automaton from its start, with their symbols. -/
inductive Traces (g : Grammar) (automaton : Automaton) : List Frame → List Nat → Prop where
  | start : Traces g automaton [] []
  | push {frames : List Frame} {symbols : List Nat} {symbol target : Nat} {name : Text}
      (below : Traces g automaton frames symbols)
      (edge : automaton.transition? (Stack.top ⟨0, frames⟩) symbol = some target)
      (named : g.name symbol = .ok name) :
      Traces g automaton (⟨name, target⟩ :: frames) (symbol :: symbols)

/-- An item of the state on top of some frames. -/
def Holds (automaton : Automaton) (frames : List Frame) (item : Item) : Prop :=
  ∃ state, automaton.states[Stack.top ⟨0, frames⟩]? = some state ∧ item ∈ state.items

/-- The items that are valid for a stack: the first one, those that a push advances, and those that
a valid item calls for. -/
inductive Valid (g : Grammar) (automaton : Automaton) : List Frame → List Nat → Item → Prop where
  | start : Valid g automaton [] [] (Item.initial 0)
  | push {frames : List Frame} {symbols : List Nat} {symbol target : Nat} {name : Text} {item : Item}
      (before : Valid g automaton frames symbols item) (dot : g.afterDot? item = some symbol)
      (edge : automaton.transition? (Stack.top ⟨0, frames⟩) symbol = some target)
      (named : g.name symbol = .ok name) :
      Valid g automaton (⟨name, target⟩ :: frames) (symbol :: symbols) item.advance
  | call {frames : List Frame} {symbols : List Nat} {symbol index : Nat} {item : Item}
      (caller : Valid g automaton frames symbols item) (dot : g.afterDot? item = some symbol)
      (member : index ∈ g.productionsOf symbol) :
      Valid g automaton frames symbols (Item.initial index)

variable {frames : List Frame} {symbols : List Nat}

theorem Traces.drop (traces : automaton.Traces g frames symbols) (count : Nat) :
    automaton.Traces g (frames.drop count) (symbols.drop count) := by
  induction traces generalizing count with
  | start => simpa using Traces.start
  | push below edge named ih =>
    cases count with
    | zero => exact .push below edge named
    | succ count => exact ih count

theorem Traces.length_eq (traces : automaton.Traces g frames symbols) :
    frames.length = symbols.length := by
  induction traces with
  | start => rfl
  | push _ _ _ ih => simp [ih]

theorem Valid.traces {item : Item} (valid : automaton.Valid g frames symbols item) :
    automaton.Traces g frames symbols := by
  induction valid with
  | start => exact .start
  | push _ _ edge named ih => exact .push ih edge named
  | call _ _ _ ih => exact ih

theorem Canonical.holds_of_valid (canonical : automaton.Canonical g) {item : Item}
    (valid : automaton.Valid g frames symbols item) : automaton.Holds frames item := by
  induction valid with
  | start =>
    obtain ⟨state, found, kernel⟩ := canonical.start
    refine ⟨state, found, (canonical.items found).mpr (.own ?_)⟩
    rw [kernel, SortedSet.mem_toList, Grammar.mem_startKernel]
  | push _ dot edge _ ih =>
    obtain ⟨state, found, member⟩ := ih
    obtain ⟨known, there, leaves⟩ := canonical.transition?_eq_some.mp edge
    obtain rfl := Option.some.inj (there.symm.trans found)
    obtain ⟨_, next, target, kernel⟩ := (canonical.edges found).mp leaves
    refine ⟨next, target, (canonical.items target).mpr (.own ?_)⟩
    rw [kernel, SortedSet.mem_toList]
    apply Grammar.mem_advanced.mpr
    exact ⟨_, member, dot, rfl⟩
  | call _ dot member ih =>
    obtain ⟨state, found, caller⟩ := ih
    have called := (canonical.items found).mp caller
    exact ⟨state, found, (canonical.items found).mpr (.call called dot member)⟩

theorem Valid.of_called {items : List Item} {item : Item} (called : g.Called items item)
    (own : ∀ item ∈ items, automaton.Valid g frames symbols item) :
    automaton.Valid g frames symbols item := by
  induction called with
  | own member => exact own _ member
  | call _ dot member ih => exact .call ih dot member

theorem Canonical.valid_of_holds (canonical : automaton.Canonical g)
    (traces : automaton.Traces g frames symbols) {item : Item} (holds : automaton.Holds frames item) :
    automaton.Valid g frames symbols item := by
  induction traces generalizing item with
  | start =>
    obtain ⟨state, found, member⟩ := holds
    obtain ⟨first, here, kernel⟩ := canonical.start
    obtain rfl := Option.some.inj (here.symm.trans found)
    apply Valid.of_called ((canonical.items found).mp member)
    intro own inside
    rw [kernel, SortedSet.mem_toList, Grammar.mem_startKernel] at inside
    exact inside ▸ .start
  | push _ edge named ih =>
    obtain ⟨state, found, member⟩ := holds
    obtain ⟨before, there, leaves⟩ := canonical.transition?_eq_some.mp edge
    obtain ⟨_, next, target, kernel⟩ := (canonical.edges there).mp leaves
    obtain rfl := Option.some.inj (target.symm.trans found)
    apply Valid.of_called ((canonical.items found).mp member)
    intro own inside
    rw [kernel, SortedSet.mem_toList] at inside
    obtain ⟨earlier, present, dot, rfl⟩ := Grammar.mem_advanced.mp inside
    exact .push (ih ⟨before, there, present⟩) dot edge named

/-- The items of the state on top are the valid ones. -/
theorem Canonical.valid_iff_holds (canonical : automaton.Canonical g)
    (traces : automaton.Traces g frames symbols) {item : Item} :
    automaton.Valid g frames symbols item ↔ automaton.Holds frames item :=
  ⟨canonical.holds_of_valid, canonical.valid_of_holds traces⟩

/-- An item whose production was not seen at all is the first one, or was called for. -/
theorem Valid.cases_initial {index : Nat}
    (valid : automaton.Valid g frames symbols (Item.initial index)) :
    frames = [] ∧ symbols = [] ∧ index = 0 ∨ ∃ caller symbol,
      automaton.Valid g frames symbols caller ∧ g.afterDot? caller = some symbol ∧
        index ∈ g.productionsOf symbol := by
  generalize same : Item.initial index = item at valid
  cases valid with
  | start => exact .inl ⟨rfl, rfl, congrArg Item.production same⟩
  | push => exact nomatch congrArg Item.position same
  | call caller dot member =>
    obtain rfl : index = _ := congrArg Item.production same
    exact .inr ⟨_, _, caller, dot, member⟩

/-- Every production but the first was called for by an item with its head after the dot. -/
theorem Valid.caller {index : Nat} {production : Production}
    (valid : automaton.Valid g frames symbols (Item.initial index)) (later : index ≠ 0)
    (found : g.productions[index]? = some production) :
    g.isNonTerminal production.head = true ∧ ∃ caller,
      automaton.Valid g frames symbols caller ∧ g.afterDot? caller = some production.head := by
  rcases valid.cases_initial with ⟨_, _, zero⟩ | ⟨caller, symbol, before, dot, member⟩
  · exact absurd zero later
  · obtain ⟨nonTerminal, same, here, rfl⟩ := Grammar.mem_productionsOf.mp member
    obtain rfl := Option.some.inj (here.symm.trans found)
    exact ⟨nonTerminal, caller, before, dot⟩

/-- What a valid item has seen lies on top of the stack, and its production was called for below. -/
theorem Valid.seen {first : Production} (leads : g.productions[0]? = some first) {item : Item}
    (valid : automaton.Valid g frames symbols item) :
    ∃ production, g.productions[item.production]? = some production ∧
      item.position ≤ symbols.length ∧
      symbols.take item.position = (production.symbols.take item.position).reverse ∧
      automaton.Valid g (frames.drop item.position) (symbols.drop item.position)
        (Item.initial item.production) := by
  induction valid with
  | start => exact ⟨first, leads, Nat.zero_le _, by simp [Item.initial], by simpa using .start⟩
  | @push frames symbols symbol target name item _ dot _ _ ih =>
    obtain ⟨production, found, enough, seen, called⟩ := ih
    obtain ⟨same, here, next⟩ := Grammar.afterDot?_eq_some.mp dot
    obtain rfl := Option.some.inj (here.symm.trans found)
    refine ⟨same, found, Nat.succ_le_succ enough, ?_, called⟩
    rw [Item.advance, List.take_succ_cons, seen, List.take_add_one, next]
    simp
  | call caller dot member =>
    obtain ⟨_, production, found, _⟩ := Grammar.mem_productionsOf.mp member
    exact ⟨production, found, Nat.zero_le _, by simp [Item.initial],
      by simpa [Item.initial] using Valid.call caller dot member⟩

/-- What a move does to a stack that is a path of the automaton: it follows an edge on the next token,
or takes a completed production off the stack and follows an edge on its head. -/
inductive Moved (g : Grammar) (automaton : Automaton) (frames : List Frame) (symbols : List Nat) :
    List Text → List TraceRow → List Frame → List Nat → List Text → Prop where
  | shift {terminal target : Nat} {token : Text} {rest : List Text} {rows : List TraceRow}
      (proper : g.isTerminal terminal = true) (named : g.name terminal = .ok token)
      (edge : automaton.transition? (Stack.top ⟨0, frames⟩) terminal = some target)
      (reductions : TraceRow.reductions rows = []) (shifts : TraceRow.shifts rows = [some token]) :
      Moved g automaton frames symbols (token :: rest) rows (⟨token, target⟩ :: frames)
        (terminal :: symbols) rest
  | reduce {index target : Nat} {production : Production} {head : Text} {input : List Text}
      {rows : List TraceRow} (later : index ≠ 0) (found : g.productions[index]? = some production)
      (valid : Valid g automaton frames symbols ⟨index, production.length⟩)
      (named : g.name production.head = .ok head)
      (edge : automaton.transition? (Stack.top ⟨0, frames.drop production.length⟩) production.head =
        some target)
      (reductions : TraceRow.reductions rows = [index]) (shifts : TraceRow.shifts rows = []) :
      Moved g automaton frames symbols input rows (⟨head, target⟩ :: frames.drop production.length)
        (production.head :: symbols.drop production.length) input

theorem Moved.traces {stack : List Frame} {path : List Nat} {input rest : List Text}
    {rows : List TraceRow} (traces : automaton.Traces g frames symbols)
    (moved : automaton.Moved g frames symbols input rows stack path rest) :
    automaton.Traces g stack path := by
  cases moved with
  | shift _ named edge _ _ => exact .push traces edge named
  | reduce _ _ _ named edge _ _ => exact .push (traces.drop _) edge named

end Automaton

namespace Table.Faithful

open Automaton

variable (faithful : table.Faithful g goal start automaton)
include faithful

section Edges

variable {frames : List Frame} {symbols : List Nat} {item : Item} {symbol : Nat}

theorem edge_of_valid (valid : automaton.Valid g frames symbols item)
    (dot : g.afterDot? item = some symbol) :
    ∃ target, automaton.transition? (Stack.top ⟨0, frames⟩) symbol = some target := by
  obtain ⟨state, found, member⟩ :=
    (faithful.canonical.valid_iff_holds valid.traces).mp valid
  obtain ⟨target, edge⟩ := faithful.canonical.leads found member dot
  exact ⟨target, faithful.canonical.transition?_eq_some.mpr ⟨state, found, edge⟩⟩

theorem goto_eq_transition (dot : g.afterDot? item = some symbol)
    (nonTerminal : g.isNonTerminal symbol = true) {number target : Nat} :
    table.goto? number symbol = some target ↔ automaton.transition? number symbol = some target := by
  obtain ⟨production, found, here⟩ := Grammar.afterDot?_eq_some.mp dot
  have listed : symbol ∈ g.listedNonTerminals := by
    apply List.mem_filter.mpr
    refine ⟨Grammar.mem_nonTerminals.mpr nonTerminal, ?_⟩
    rw [faithful.augmented.marked, bne_iff_ne]
    intro same
    exact faithful.augmented.absent production (List.mem_of_getElem? found)
      (Option.some.inj same ▸ List.mem_of_getElem? here)
  rw [faithful.compiled.goto, and_iff_right listed]

theorem bottom_of_valid_first (valid : automaton.Valid g frames symbols (Item.initial 0)) :
    frames = [] ∧ symbols = [] := by
  rcases valid.cases_initial with ⟨empty, bottom, _⟩ | ⟨caller, symbol, _, dot, member⟩
  · exact ⟨empty, bottom⟩
  · obtain ⟨_, first, leads, rfl⟩ := Grammar.mem_productionsOf.mp member
    obtain rfl := Option.some.inj (faithful.augmented.first.symm.trans leads)
    obtain ⟨production, found, here⟩ := Grammar.afterDot?_eq_some.mp dot
    exact absurd (List.mem_of_getElem? here)
      (faithful.augmented.absent production (List.mem_of_getElem? found))

end Edges

section Cells

variable {frames : List Frame} {symbols : List Nat}

theorem shift_cell {number terminal target : Nat} :
    table.action? number terminal = some (.shift target) ↔
      automaton.transition? number terminal = some target ∧ g.isTerminal terminal = true := by
  rw [faithful.compiled.action]
  constructor
  · intro required
    cases required with
    | shift edge proper => exact ⟨edge, proper⟩
    | asked _ _ asks => cases asks
  · intro holds
    obtain ⟨edge, proper⟩ := holds
    exact .shift edge proper

/-- A cell reduces by a production that is completed on top of the stack, if the terminal follows its
head. -/
theorem reduce_cell (traces : automaton.Traces g frames symbols) {terminal index : Nat} :
    table.action? (Stack.top ⟨0, frames⟩) terminal = some (.reduce index) ↔
      index ≠ 0 ∧ ∃ production, g.productions[index]? = some production ∧
        automaton.Valid g frames symbols ⟨index, production.length⟩ ∧
        terminal ∈ g.firstFollow.follow.get production.head := by
  rw [faithful.compiled.action]
  constructor
  · intro required
    cases required with
    | asked known member asks =>
      cases asks with
      | @reduce production _ rule complete later follows =>
        obtain ⟨same, here, bound⟩ :=
          Grammar.mem_allItems.mp (faithful.canonical.inside known member)
        obtain rfl := Option.some.inj (here.symm.trans rule)
        refine ⟨later, same, rule, ?_, follows⟩
        rw [faithful.canonical.valid_iff_holds traces, Nat.le_antisymm complete bound]
        exact ⟨_, known, member⟩
  · intro holds
    obtain ⟨later, production, rule, valid, follows⟩ := holds
    obtain ⟨state, known, member⟩ := (faithful.canonical.valid_iff_holds traces).mp valid
    exact .asked known member (.reduce rule (Nat.le_refl _) later follows)

/-- A cell accepts at the end of the input, when the start symbol is all that was seen. -/
theorem accept_cell (traces : automaton.Traces g frames symbols) {terminal : Nat} :
    table.action? (Stack.top ⟨0, frames⟩) terminal = some .accept ↔
      terminal = endMarkIndex ∧ automaton.Valid g frames symbols ⟨0, 1⟩ := by
  have one : Production.length ⟨goal, [start]⟩ = 1 := by
    rw [Production.length, faithful.augmented.symbols_first]
    rfl
  rw [faithful.compiled.action]
  constructor
  · intro required
    cases required with
    | @asked _ item _ _ known member asks =>
      cases asks with
      | accept rule complete zero =>
        refine ⟨rfl, ?_⟩
        obtain ⟨same, here, bound⟩ :=
          Grammar.mem_allItems.mp (faithful.canonical.inside known member)
        obtain rfl := Option.some.inj (here.symm.trans rule)
        obtain ⟨index, position⟩ := item
        obtain rfl : index = 0 := zero
        obtain rfl := Option.some.inj (faithful.augmented.first.symm.trans rule)
        obtain rfl : position = 1 := one ▸ Nat.le_antisymm bound complete
        rw [faithful.canonical.valid_iff_holds traces]
        exact ⟨_, known, member⟩
  · intro holds
    obtain ⟨rfl, valid⟩ := holds
    obtain ⟨state, known, member⟩ := (faithful.canonical.valid_iff_holds traces).mp valid
    exact .asked known member (.accept faithful.augmented.first (Nat.le_of_eq one) rfl)

end Cells

section Reading

theorem symbolOf?_terminal {stack : Stack} {terminal : Nat} {token : Text} {rest : List Text}
    (proper : g.isTerminal terminal = true) (named : g.name terminal = .ok token) :
    table.symbolOf? g ⟨stack, token :: rest⟩ = some terminal := by
  have found := faithful.augmented.index?_of_name named
  have apart := faithful.augmented.name_ne_endMarkName proper named
  have column := faithful.compiled.column.mpr (.inl proper)
  simp [symbolOf?, Configuration.lookahead, apart, found, column]

theorem symbolOf?_endMark {stack : Stack} :
    table.symbolOf? g ⟨stack, [endMarkName]⟩ = some endMarkIndex := by
  have column := faithful.compiled.column.mpr (.inr rfl)
  simp [symbolOf?, Configuration.lookahead, faithful.augmented.index?_endMarkName, column]

/-- What is read as a terminal is the next token and its name. -/
theorem input_of_reads_terminal {stack : Stack} {input : List Text} {terminal : Nat}
    (proper : g.isTerminal terminal = true)
    (reads : table.symbolOf? g ⟨stack, input⟩ = some terminal) :
    ∃ token rest, input = token :: rest ∧ g.name terminal = .ok token := by
  unfold symbolOf? at reads
  split at reads
  · cases reads
  · obtain ⟨found, _⟩ := Option.filter_eq_some_iff.mp reads
    have named := Grammar.name_of_index? found (.inl proper)
    cases input with
    | nil =>
      exact absurd rfl (faithful.augmented.name_ne_endMarkName proper named)
    | cons token rest => exact ⟨token, rest, rfl, named⟩

/-- The end mark is read at the end of the input only. -/
theorem input_of_reads_endMark {stack : Stack} {input : List Text}
    (reads : table.symbolOf? g ⟨stack, input⟩ = some endMarkIndex) :
    input = [] ∨ input = [endMarkName] := by
  unfold symbolOf? at reads
  split at reads
  · cases reads
  · rename_i last
    obtain ⟨found, _⟩ := Option.filter_eq_some_iff.mp reads
    obtain ⟨symbol, here, spelled⟩ := Grammar.spelled_of_index? found
    obtain rfl := Option.some.inj (faithful.augmented.endMark.symm.trans here)
    have mark := List.mem_singleton.mp spelled
    match input with
    | [] => exact .inl rfl
    | [token] => exact .inr (congrArg (fun token => [token]) mark)
    | _ :: _ :: _ => exact absurd ⟨mark, by simp⟩ last

end Reading

section Moves

variable {frames : List Frame} {symbols : List Nat} {input : List Text} {rows : List TraceRow}

/-- Each move of the parser is one along the automaton. -/
theorem moved_of_moves {next : Configuration} (traces : automaton.Traces g frames symbols)
    (moves : table.Moves g ⟨⟨0, frames⟩, input⟩ rows next) :
    ∃ stack path rest, next = ⟨⟨0, stack⟩, rest⟩ ∧
      automaton.Moved g frames symbols input rows stack path rest := by
  cases moves with
  | @shift symbol target token rest reads cell same =>
    obtain ⟨edge, proper⟩ := faithful.shift_cell.mp cell
    obtain ⟨own, behind, again, named⟩ := faithful.input_of_reads_terminal proper reads
    obtain rfl : input = token :: rest := same
    obtain ⟨rfl, rfl⟩ := List.cons.inj again
    exact ⟨_, _, _, rfl, .shift proper named edge rfl rfl⟩
  | reduce reads cell found enough named leads =>
    obtain ⟨later, same, rule, valid, _⟩ := (faithful.reduce_cell traces).mp cell
    obtain rfl := Option.some.inj (rule.symm.trans found)
    obtain ⟨_, _, _, _, called⟩ := valid.seen faithful.augmented.first
    obtain ⟨nonTerminal, caller, _, dot⟩ := called.caller later found
    have edge := (faithful.goto_eq_transition dot nonTerminal).mp leads
    exact ⟨_, _, _, rfl, .reduce later found valid named edge rfl rfl⟩

theorem traces_of_steps {count : Nat} {last : Configuration}
    (traces : automaton.Traces g frames symbols)
    (steps : table.Steps g count ⟨⟨0, frames⟩, input⟩ rows last) :
    ∃ stack path rest, last = ⟨⟨0, stack⟩, rest⟩ ∧ automaton.Traces g stack path := by
  induction count generalizing frames symbols input rows with
  | zero =>
    cases steps
    exact ⟨frames, symbols, input, rfl, traces⟩
  | succ count ih =>
    cases steps with
    | step moves rest =>
      obtain ⟨stack, path, input, rfl, moved⟩ := faithful.moved_of_moves traces moves
      exact ih (moved.traces traces) rest

theorem moves_of_shift {terminal target : Nat} {token : Text} {rest : List Text}
    (proper : g.isTerminal terminal = true) (named : g.name terminal = .ok token)
    (edge : automaton.transition? (Stack.top ⟨0, frames⟩) terminal = some target) :
    ∃ rows, table.Moves g ⟨⟨0, frames⟩, token :: rest⟩ rows ⟨⟨0, ⟨token, target⟩ :: frames⟩, rest⟩ ∧
      TraceRow.reductions rows = [] :=
  ⟨_, .shift (faithful.symbolOf?_terminal proper named) (faithful.shift_cell.mpr ⟨edge, proper⟩) rfl,
    TraceRow.reductions_shift ..⟩

/-- A production that is completed on top of the stack is reduced if the next terminal follows its
head. -/
theorem moves_of_reduce {index symbol target : Nat} {production : Production} {head : Text}
    (later : index ≠ 0) (found : g.productions[index]? = some production)
    (valid : automaton.Valid g frames symbols ⟨index, production.length⟩)
    (named : g.name production.head = .ok head)
    (edge : automaton.transition? (Stack.top ⟨0, frames.drop production.length⟩) production.head =
      some target)
    (reads : table.symbolOf? g ⟨⟨0, frames⟩, input⟩ = some symbol)
    (follows : symbol ∈ g.firstFollow.follow.get production.head) :
    ∃ rows, table.Moves g ⟨⟨0, frames⟩, input⟩ rows
        ⟨⟨0, ⟨head, target⟩ :: frames.drop production.length⟩, input⟩ ∧
      TraceRow.reductions rows = [index] := by
  have cell := (faithful.reduce_cell valid.traces).mpr ⟨later, production, found, valid, follows⟩
  obtain ⟨_, _, enough, _, called⟩ := valid.seen faithful.augmented.first
  rw [← valid.traces.length_eq] at enough
  obtain ⟨nonTerminal, caller, _, dot⟩ := called.caller later found
  have leads := (faithful.goto_eq_transition dot nonTerminal).mpr edge
  exact ⟨_, .reduce reads cell found enough named leads, TraceRow.reductions_reduce ..⟩

end Moves

end Table.Faithful

end SimpleLR
