import SimpleLR.Grammar.Batch
import SimpleLR.Proofs.Lookahead.ExactFollow
import SimpleLR.Proofs.Parser.Client
import SimpleLR.Proofs.Text.Columns

namespace SimpleLR

namespace Grammar

variable {g : Grammar}

/-- A grammar that was read from a text, from a batch, or from a list of rules. -/
inductive Returned : Grammar → Prop where
  | text {text : Text} {g : Grammar} (read : ofText text = .ok g) : Returned g
  | batch {text : Text} {batch : Batch} (read : Batch.ofText text = .ok batch) : Returned batch.grammar
  | rules {rules : List Rule} {g : Grammar} (read : ofRules rules = .ok g) : Returned g

theorem Returned.loaded (returned : g.Returned) : g.Loaded := by
  cases returned with
  | text read => exact loaded_of_text read
  | batch read => exact loaded_of_batch read
  | rules read => exact ⟨_, read⟩

/-- What a grammar and its sets name by a number is there. What stands behind a symbol of a body starts at a
place of the body or at its end, and what follows a non-terminal has a column among the actions. -/
structure Indexed (g : Grammar) : Prop where
  start : ∀ symbol ∈ g.start, symbol < g.symbols.length
  head : ∀ production ∈ g.productions, production.head < g.symbols.length
  body : ∀ production ∈ g.productions, ∀ symbol ∈ production.body, symbol < g.symbols.length
  behind : ∀ production ∈ g.productions, ∀ symbol rest, (symbol, rest) ∈ g.occurrences production.symbols →
    ∃ place < production.symbols.length, production.symbols[place]? = some symbol ∧
      rest = production.symbols.drop (place + 1)
  listed : ∀ symbol, ∀ index ∈ g.productionsOf symbol, index < g.productions.length
  erasable : ∀ symbol ∈ g.erasable, symbol < g.symbols.length
  keyed : ∀ symbol ∈ g.nonTerminals, (g.firstFollow.first.get? symbol).isSome = true ∧
    (g.firstFollow.follow.get? symbol).isSome = true
  first : ∀ symbol, ∀ member ∈ g.firstFollow.first.get symbol, member < g.symbols.length
  follow : ∀ symbol, ∀ member ∈ g.firstFollow.follow.get symbol,
    member < g.symbols.length ∧ member ∈ g.terminals ++ [endMarkIndex]

private theorem exists_head_of_mem_erasable {symbol : Nat} (erased : symbol ∈ g.erasable) :
    ∃ production ∈ g.productions, production.head = symbol := by
  suffices all : ∀ symbol ∈ g.erasable, (fun symbol => ∃ production ∈ g.productions,
      production.head = symbol) symbol from all symbol erased
  have kept {p : Production → Bool} {head : Nat} (member : head ∈ (g.productions.filter p).map (·.head)) :
      ∃ production ∈ g.productions, production.head = head := by
    obtain ⟨production, inside, same⟩ := List.mem_map.mp member
    exact ⟨production, (List.mem_filter.mp inside).1, same⟩
  refine forall_mem_discover _ ?_ ?_
  · intro head waits
    exact kept (mem_fresh.mp (by simpa using waits)).1
  · intro _ _ _ _ head leads
    exact kept leads

private theorem column_of_proper {symbol : Nat} (proper : g.isTerminal symbol = true ∨ symbol = endMarkIndex) :
    symbol ∈ g.terminals ++ [endMarkIndex] := by
  rw [List.mem_append, List.mem_singleton]
  exact proper.imp_left mem_terminals.mpr

theorem WellFormed.indexed (formed : g.WellFormed) : g.Indexed where
  start := fun _ chosen => lt_of_isNonTerminal (formed.chosen chosen)
  head := fun production present => lt_of_isNonTerminal (formed.fits production present).head
  body := fun production present _ => (formed.fits production present).lt_of_mem_body formed.toNamed
  behind := by
    intro production _ symbol rest occurs
    obtain ⟨_, before, same⟩ := mem_occurrences.mp occurs
    exact ⟨before.length, by simp [same], by simp [same], by simp [same]⟩
  listed := by
    intro symbol index member
    obtain ⟨_, production, found, _⟩ := mem_productionsOf.mp member
    exact (List.getElem?_eq_some_iff.mp found).1
  erasable := by
    intro symbol erased
    obtain ⟨production, present, rfl⟩ := exists_head_of_mem_erasable erased
    exact lt_of_isNonTerminal (formed.fits production present).head
  keyed := by
    intro symbol member
    have nonTerminal := mem_nonTerminals.mp member
    exact ⟨Option.isSome_iff_exists.mpr ⟨_, get?_firstSets nonTerminal⟩,
      Option.isSome_iff_exists.mpr ⟨_, get?_follow nonTerminal⟩⟩
  first := fun _ _ => formed.lt_of_mem_firstSets
  follow := fun _ _ inside =>
    ⟨formed.lt_of_mem_follow inside, column_of_proper (formed.proper_of_mem_follow inside)⟩

end Grammar

/-- What the states of an automaton name by a number is there: the productions of items, the symbols behind
dots, the states that follow, and the columns of what the items ask for. A state has at least the items that it
was begun with. -/
structure Automaton.Indexed (g : Grammar) (automaton : Automaton) : Prop where
  start : Automaton.start < automaton.states.length
  begun : ∀ state ∈ automaton.states, state.kernel.toList.length ≤ (g.closure state.kernel.toList).length
  item : ∀ state ∈ automaton.states, ∀ item ∈ state.items, item.production < g.productions.length
  dot : ∀ state ∈ automaton.states, ∀ item ∈ state.items, ∀ symbol ∈ g.afterDot? item,
    symbol < g.symbols.length
  edge : ∀ state ∈ automaton.states, ∀ symbol target, (symbol, target) ∈ state.edges →
    symbol < g.symbols.length ∧ target < automaton.states.length ∧
      (symbol ∈ g.terminals ∨ symbol ∈ g.listedNonTerminals)
  derived : ∀ state ∈ automaton.states, ∀ symbol, ∃ kernel, state.derivedKernel g symbol = .ok kernel
  completed : ∀ state ∈ automaton.states, ∃ items, state.completed g = .ok items
  requested : ∀ state ∈ automaton.states, ∀ item ∈ state.items, ∃ requests,
    Row.requests g g.firstFollow item = .ok requests ∧
      ∀ request ∈ requests, request.1 ∈ g.terminals ++ [endMarkIndex]

/-- The cell of a state and a symbol, where the row is looked up by the number of the state and the cell by the
place of the symbol among the columns. -/
def Table.cellAt {α : Type} (columns : List Nat) (cells : List (List α)) (state symbol : Nat) :
    Except Nat α := do
  lookUp (← lookUp cells state) (columns.idxOf symbol)

/-- A table with a row for each state and a column for each symbol that is looked for. What it names by a number is
there: the symbols of its columns, and the rows and productions of its cells. A cell that is looked up by numbers
is found. -/
structure Table.Indexed (g : Grammar) (automaton : Automaton) (table : Table) : Prop where
  rows : table.rows.length = automaton.states.length
  terminals : table.terminals = g.terminals ++ [endMarkIndex]
  nonTerminals : table.nonTerminals = g.listedNonTerminals
  column : ∀ symbol ∈ table.terminals ++ table.nonTerminals, symbol < g.symbols.length
  shift : ∀ number terminal target, table.action? number terminal = some (.shift target) →
    target < table.rows.length
  reduce : ∀ number terminal index, table.action? number terminal = some (.reduce index) →
    index < g.productions.length
  goto : ∀ number symbol target, table.goto? number symbol = some target → target < table.rows.length
  actionCell : ∀ number < table.rows.length, ∀ symbol ∈ table.terminals,
    Table.cellAt table.terminals table.actionCells number symbol = .ok (table.action? number symbol)
  gotoCell : ∀ number < table.rows.length, ∀ symbol ∈ table.nonTerminals,
    Table.cellAt table.nonTerminals table.gotoCells number symbol = .ok (table.goto? number symbol)

variable {g : Grammar} {goal start : Nat} {automaton : Automaton} {table : Table}

section States

variable (augmented : g.Augmented goal start) (canonical : automaton.Canonical g)
include canonical

theorem Automaton.Canonical.lt_of_transition? {number symbol target : Nat}
    (leads : automaton.transition? number symbol = some target) : target < automaton.states.length := by
  obtain ⟨state, found, edge⟩ := canonical.transition?_eq_some.mp leads
  obtain ⟨_, next, there, _⟩ := (canonical.edges found).mp edge
  exact (List.getElem?_eq_some_iff.mp there).1

theorem Automaton.Canonical.rule_of_mem {state : State} (present : state ∈ automaton.states) {item : Item}
    (member : item ∈ state.items) : ∃ production, g.productions[item.production]? = some production := by
  obtain ⟨number, found⟩ := List.mem_iff_getElem?.mp present
  exact Automaton.rule_of_mem_items canonical found member

include augmented

theorem Automaton.Canonical.indexed : automaton.Indexed g where
  start := by
    obtain ⟨_, found, _⟩ := canonical.start
    exact (List.getElem?_eq_some_iff.mp found).1
  begun := fun state _ => (g.prefix_closure state.kernel.toList).length_le
  item := by
    intro state present item member
    obtain ⟨production, rule⟩ := canonical.rule_of_mem present member
    exact (List.getElem?_eq_some_iff.mp rule).1
  dot := by
    intro state _ item _ symbol dot
    obtain ⟨production, rule, here⟩ := Grammar.afterDot?_eq_some.mp dot
    exact (augmented.fits_of_getElem? rule).lt_of_mem_symbols (List.mem_of_getElem? here)
  edge := by
    intro state present symbol target leaves
    obtain ⟨number, found⟩ := List.mem_iff_getElem?.mp present
    have leads := canonical.transition?_eq_some.mpr ⟨state, found, leaves⟩
    rcases Automaton.listed_of_mem_edges augmented canonical found leaves with terminal | ⟨_, listed⟩
    · exact ⟨Grammar.lt_of_isTerminal terminal, canonical.lt_of_transition? leads,
        .inl (Grammar.mem_terminals.mpr terminal)⟩
    · have nonTerminal := Grammar.isNonTerminal_of_listed listed
      exact ⟨Grammar.lt_of_isNonTerminal nonTerminal, canonical.lt_of_transition? leads, .inr listed⟩
  derived := by
    intro state present symbol
    obtain ⟨rules, success⟩ : ∃ rules,
        state.items.mapM (fun item => g.production item.production) = .ok rules := by
      refine Result.mapM_ok fun item member => ?_
      obtain ⟨production, rule⟩ := canonical.rule_of_mem present member
      exact ⟨production, Grammar.production_ok rule⟩
    exact ⟨_, Result.bind_eq_ok.mpr ⟨rules, success, rfl⟩⟩
  completed := by
    intro state present
    refine Result.filterM_ok fun item member => ?_
    obtain ⟨production, rule⟩ := canonical.rule_of_mem present member
    exact ⟨_, Result.bind_eq_ok.mpr ⟨production, Grammar.production_ok rule, rfl⟩⟩
  requested := by
    intro state present item member
    obtain ⟨production, rule⟩ := canonical.rule_of_mem present member
    have marked : g.augmented.isSome = true := by rw [augmented.marked]; rfl
    obtain ⟨requests, success, _, asks⟩ := Row.requests_spec g.firstFollow marked rule
    refine ⟨requests, success, fun request inside => ?_⟩
    exact (Automaton.column_of_asks augmented (asks.mp inside)).1

end States

section Cells

variable {columns : List Nat} {rows : List Row} {number symbol : Nat}

/-- If every row has a cell for each column, the cell of a column is found by numbers. -/
theorem Table.cellAt_eq {α : Type} (look : Row → Nat → Option α) (bound : number < rows.length)
    (member : symbol ∈ columns) :
    cellAt columns (rows.map fun row => columns.map (look row)) number symbol =
      .ok (rows[number]?.bind (look · symbol)) := by
  have there := List.getElem?_eq_getElem bound
  have place : columns[columns.idxOf symbol]? = some symbol := by
    rw [List.getElem?_eq_getElem (List.idxOf_lt_length_of_mem member), List.getElem_idxOf]
  refine Result.bind_eq_ok.mpr ⟨columns.map (look rows[number]), ?_, ?_⟩
  · rw [lookUp_eq_ok, List.getElem?_map, there, Option.map_some]
  · rw [lookUp_eq_ok, List.getElem?_map, place, there, Option.map_some, Option.bind_some]

end Cells

namespace Analysis

variable {analysis : Analysis}

theorem length_rows_of_ofGrammar (success : ofGrammar g = .ok analysis) :
    analysis.table.rows.length = analysis.automaton.states.length := by
  obtain ⟨shifts, entered, made⟩ := Result.bind_eq_ok.mp (table_of_ofGrammar success)
  obtain ⟨rows, filled, same⟩ := Result.bind_eq_ok.mp made
  rw [← Except.ok.inj same]
  have length := Result.length_of_mapM filled
  rwa [List.length_zipIdx, List.length_zip, Result.length_of_mapM entered, Nat.min_self] at length

theorem Built.indexed_table (built : analysis.Built g start) (success : ofGrammar g = .ok analysis) :
    analysis.table.Indexed analysis.grammar analysis.automaton := by
  have rows := length_rows_of_ofGrammar success
  obtain ⟨terminals, nonTerminals⟩ := columns_of_ofGrammar success
  have ⟨augmented, canonical, compiled⟩ := built.faithful
  refine { rows, terminals, nonTerminals, column := ?_, shift := ?_, reduce := ?_, goto := ?_,
           actionCell := fun _ bound _ => Table.cellAt_eq Row.action? bound
           gotoCell := fun _ bound _ => Table.cellAt_eq Row.goto? bound }
  · intro symbol member
    rcases List.mem_append.mp member with terminal | listed
    · rcases compiled.column.mp (List.contains_iff_mem.mpr terminal) with proper | rfl
      · exact Grammar.lt_of_isTerminal proper
      · exact (List.getElem?_eq_some_iff.mp augmented.endMark).1
    · rw [nonTerminals] at listed
      exact Grammar.lt_of_isNonTerminal (Grammar.isNonTerminal_of_listed listed)
  · intro number terminal target cell
    rw [rows]
    cases compiled.action.mp cell with
    | shift edge _ => exact canonical.lt_of_transition? edge
    | asked _ _ asks => cases asks
  · intro number terminal index cell
    cases compiled.action.mp cell with
    | asked _ _ asks =>
      cases asks with
      | reduce rule _ _ _ => exact (List.getElem?_eq_some_iff.mp rule).1
  · intro number symbol target leads
    rw [rows]
    exact canonical.lt_of_transition? (compiled.goto.mp leads).2

end Analysis

end SimpleLR
