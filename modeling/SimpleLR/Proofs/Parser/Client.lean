import SimpleLR.Proofs.Listing.Productions
import SimpleLR.Proofs.Listing.TableJson
import SimpleLR.Proofs.Parser.Halting
import SimpleLR.Service

/-! A parser that has only the JSON table. It finds columns by the names of symbols and takes the length of a body
from the text of its production, and decides as the parser does that has the grammar. -/
namespace SimpleLR

/-- What a parser decides, without the stack and the message of an error. -/
inductive Decision where
  | shift (target : Nat)
  | reduce (production : Nat)
  | goto (target : Nat)
  | accept
  | reject
  deriving DecidableEq, Repr

def StepAction.decision : StepAction → Decision
  | .shift target => .shift target
  | .reduce production => .reduce production
  | .goto target => .goto target
  | .accept => .accept
  | .error _ => .reject

/-- The decisions that a trace shows. -/
def TraceRow.decisions (trace : List TraceRow) : List Decision := trace.map (·.action.decision)

namespace TableListing

/-- The cell of a state in the column of a name. -/
def cell? {α : Type} (names : List Text) (rows : List (List (Option α))) (state : Nat) (name : Text) :
    Option α := do
  let column ← names.idxOf? name
  let row ← rows[state]?
  (← row[column]?)

variable (listing : TableListing)

/-- The head of a production, and how many symbols its body has. A body `ε` has none. -/
def rule? (index : Nat) : Option (Text × Nat) := do
  let (head, body) ← Text.cut? " -> " (← listing.productions[index]?)
  return (head, if body = epsilonName then 0 else (Text.pieces (· == ' ') body).length)

/-- The decisions of one step, and the states and tokens that remain unless the run ends. The state on top is the
first one. A token without a column, or an end mark before the end, is rejected when it is looked at. -/
def clientStep (states : List Nat) (input : List Text) : List Decision × Option (List Nat × List Text) :=
  let token := input.head?.getD endMarkName
  if token = endMarkName ∧ 1 < input.length then ([.reject], none)
  else
    match states.head?.bind fun state => cell? listing.terminals listing.actions state token with
    | none => ([.reject], none)
    | some (.shift target) => ([.shift target], some (target :: states, input.tail))
    | some (.reduce index) =>
      match listing.rule? index with
      | none => ([.reduce index, .reject], none)
      | some (head, length) =>
        let below := states.drop length
        match below.head?.bind fun state => cell? listing.nonTerminals listing.gotos state head with
        | none => ([.reduce index, .reject], none)
        | some target => ([.reduce index, .goto target], some (target :: below, input))
    | some .accept => ([.accept], none)

/-- The decisions of at most `limit` steps, and whether the run has ended by then. -/
def clientRun : (limit : Nat) → (states : List Nat) → (input : List Text) → List Decision × Bool
  | 0, _, _ => ([], false)
  | limit + 1, states, input =>
    match listing.clientStep states input with
    | (decisions, none) => (decisions, true)
    | (decisions, some (states, input)) =>
      let (more, ended) := clientRun limit states input
      (decisions ++ more, ended)

end TableListing

/-- The states of a stack, the one on top first. -/
def Stack.states (stack : Stack) : List Nat := stack.frames.map Frame.state ++ [stack.bottom]

namespace Stack

theorem head?_states (stack : Stack) : stack.states.head? = some stack.top := by
  obtain ⟨bottom, frames⟩ := stack
  cases frames <;> rfl

private theorem states_below {stack : Stack} {count : Nat} (enough : count ≤ stack.frames.length) :
    stack.states.drop count = (stack.below count).states := by
  rw [states, List.drop_append_of_le_length (by simpa using enough), ← List.map_drop]
  rfl

end Stack

/-- A listing that names the columns and the productions of a table. -/
structure TableListing.Names (g : Grammar) (table : Table) (listing : TableListing) : Prop where
  terminals : table.terminals.mapM g.name = .ok listing.terminals
  nonTerminals : table.nonTerminals.mapM g.name = .ok listing.nonTerminals
  productions : (List.range g.productions.length).mapM g.productionText = .ok listing.productions
  actions : listing.actions = table.actionCells
  gotos : listing.gotos = table.gotoCells

theorem Grammar.tableListing_eq_ok {g : Grammar} {table : Table} {listing : TableListing} :
    g.tableListing table = .ok listing ↔ listing.Names g table := by
  unfold tableListing
  constructor
  · intro success
    obtain ⟨terminals, first, success⟩ := Result.bind_eq_ok.mp success
    obtain ⟨nonTerminals, second, success⟩ := Result.bind_eq_ok.mp success
    obtain ⟨productions, third, same⟩ := Result.bind_eq_ok.mp success
    obtain rfl := Except.ok.inj same
    exact ⟨first, second, third, rfl, rfl⟩
  · intro names
    refine Result.bind_eq_ok.mpr ⟨_, names.terminals, Result.bind_eq_ok.mpr ⟨_, names.nonTerminals,
      Result.bind_eq_ok.mpr ⟨_, names.productions, ?_⟩⟩⟩
    rw [← names.actions, ← names.gotos]
    rfl

namespace Grammar

variable {g : Grammar} {production : Production}

theorem Fits.exists_bodyNames (named : g.Named) (fits : g.Fits production) :
    ∃ body, g.bodyNames production = .ok body :=
  mapM_name_ok fun _ => fits.lt_of_mem_body named

theorem productionText_eq_ok {index : Nat} {head : Text} {body : List Text}
    (found : g.productions[index]? = some production) (own : g.name production.head = .ok head)
    (spelled : g.bodyNames production = .ok body) :
    g.productionText index = .ok (head ++ " -> " ++ Text.joined " " body) := by
  exact Result.bind_eq_ok.mpr ⟨_, production_ok found, Result.bind_eq_ok.mpr ⟨_, own,
    Result.bind_eq_ok.mpr ⟨_, spelled, rfl⟩⟩⟩

end Grammar

namespace TableListing

section Cells

variable {g : Grammar} {columns : List Nat} {names : List Text} (spelled : columns.mapM g.name = .ok names)
include spelled

theorem symbol_of_column {column : Nat} {name : Text} (found : names.idxOf? name = some column) :
    ∃ symbol, columns[column]? = some symbol ∧ g.name symbol = .ok name := by
  obtain ⟨bound, own, _⟩ := List.idxOf?_eq_some_iff.mp found
  have inside : column < columns.length := Result.length_of_mapM spelled ▸ bound
  obtain ⟨result, here, named⟩ := Result.getElem?_of_mapM spelled (List.getElem?_eq_getElem inside)
  rw [List.getElem?_eq_getElem bound, own] at here
  obtain rfl := Option.some.inj here
  exact ⟨_, List.getElem?_eq_getElem inside, named⟩

private theorem exists_column {symbol : Nat} {name : Text} (member : symbol ∈ columns)
    (own : g.name symbol = .ok name) :
    ∃ column, names.idxOf? name = some column := by
  obtain ⟨position, found⟩ := List.mem_iff_getElem?.mp member
  obtain ⟨result, here, named⟩ := Result.getElem?_of_mapM spelled found
  obtain rfl := Except.ok.inj (own.symm.trans named)
  apply Option.ne_none_iff_exists'.mp
  exact fun absent => List.idxOf?_eq_none_iff.mp absent (List.mem_of_getElem? here)

theorem cell?_of_name (apart : g.Named) {α : Type} (look : Row → Nat → Option α) {rows : List Row}
    {symbol : Nat} {name : Text} (member : symbol ∈ columns) (own : g.name symbol = .ok name) (state : Nat) :
    cell? names (rows.map fun row => columns.map (look row)) state name = rows[state]?.bind (look · symbol) := by
  obtain ⟨column, found⟩ := exists_column spelled member own
  obtain ⟨other, here, named⟩ := symbol_of_column spelled found
  obtain rfl := apart.name_injective own named
  unfold cell?
  rw [found, List.getElem?_map]
  cases rows[state]? with
  | none => rfl
  | some row => simp [here]

private theorem cell?_of_absent {α : Type} {rows : List (List (Option α))} {name : Text}
    (absent : ∀ symbol ∈ columns, g.name symbol ≠ .ok name) (state : Nat) :
    cell? names rows state name = none := by
  cases found : names.idxOf? name with
  | none =>
    unfold cell?
    rw [found]
    rfl
  | some column =>
    obtain ⟨symbol, here, own⟩ := symbol_of_column spelled found
    exact absurd own (absent symbol (List.mem_of_getElem? here))

end Cells

section Rules

variable {g : Grammar} {table : Table} {listing : TableListing} (names : listing.Names g table)
  (formed : g.WellFormed)
include names formed

omit formed in
theorem Names.production_eq {index : Nat} {production : Production} {head : Text} {body : List Text}
    (found : g.productions[index]? = some production) (own : g.name production.head = .ok head)
    (spelled : g.bodyNames production = .ok body) :
    listing.productions[index]? = some (head ++ " -> " ++ Text.joined " " body) := by
  have bound := (List.getElem?_eq_some_iff.mp found).1
  have here : (List.range g.productions.length)[index]? = some index := by
    rw [List.getElem?_eq_getElem (by simpa using bound), List.getElem_range]
  obtain ⟨result, there, shown⟩ := Result.getElem?_of_mapM names.productions here
  have text := Grammar.productionText_eq_ok found own spelled
  obtain rfl := Except.ok.inj (text.symm.trans shown)
  exact there

omit names in
/-- The text of a body tells its length, if no name holds a blank. -/
private theorem length_of_body {production : Production} {body : List Text} (fits : g.Fits production)
    (spelled : g.bodyNames production = .ok body)
    (solid : ∀ symbol ∈ production.symbols, ∀ name, g.name symbol = .ok name → ' ' ∉ name) :
    (if Text.joined " " body = epsilonName then 0
      else (Text.pieces (· == ' ') (Text.joined " " body)).length) = production.length := by
  have own : g.name epsilonIndex = .ok epsilonName := by rw [Grammar.name, formed.epsilon]; rfl
  by_cases epsilon : production.body = [epsilonIndex]
  · have same : g.bodyNames production = .ok [epsilonName] := by
      rw [Grammar.bodyNames, epsilon]
      exact Result.mapM_eq_ok.mpr (.cons own .nil)
    obtain rfl := Except.ok.inj (spelled.symm.trans same)
    rw [Text.joined_singleton, if_pos rfl]
    simp [Production.length, Production.symbols, Production.isEpsilon, epsilon]
  · have symbols : production.symbols = production.body := by
      simp [Production.symbols, Production.isEpsilon, epsilon]
    rw [symbols] at solid
    have free : ∀ name ∈ body, ' ' ∉ name := by
      intro name member
      obtain ⟨symbol, inside, named⟩ := Result.exists_of_mem_results spelled member
      exact solid symbol inside name named
    have lengths := Result.length_of_mapM spelled
    have filled : body ≠ [] := by
      rintro rfl
      exact fits.body (List.length_eq_zero_iff.mp lengths.symm)
    have parts : Text.pieces (· == ' ') (Text.joined " " body) = body := Text.pieces_joined free filled
    have proper : Text.joined " " body ≠ epsilonName := by
      intro same
      rw [same] at parts
      have member : epsilonName ∈ body := parts ▸ (by decide : epsilonName ∈ Text.pieces (· == ' ') epsilonName)
      obtain ⟨symbol, inside, named⟩ := Result.exists_of_mem_results spelled member
      obtain rfl := formed.name_injective own named
      rcases fits.symbols epsilonIndex (symbols ▸ inside) with terminal | nonTerminal
      · cases formed.isTerminal_epsilon.symm.trans terminal
      · cases formed.isNonTerminal_epsilon.symm.trans nonTerminal
    rw [if_neg proper, parts, Production.length, symbols, lengths]

private theorem rule?_eq {index : Nat} {production : Production} {head : Text}
    (found : g.productions[index]? = some production) (own : g.name production.head = .ok head)
    (apart : ' ' ∉ head)
    (solid : ∀ symbol ∈ production.symbols, ∀ name, g.name symbol = .ok name → ' ' ∉ name) :
    listing.rule? index = some (head, production.length) := by
  have fits := formed.fits_of_getElem? found
  obtain ⟨body, spelled⟩ := fits.exists_bodyNames formed.toNamed
  have cut : Text.cut? " -> " (head ++ " -> " ++ Text.joined " " body) = some (head, Text.joined " " body) :=
    Text.cut?_append apart
  unfold rule?
  rw [names.production_eq found own spelled]
  simp only [Option.bind_eq_bind, Option.bind_some, cut]
  rw [length_of_body formed fits spelled solid]
  rfl

end Rules

end TableListing

namespace Analysis

variable {g : Grammar} {start : Nat} {analysis : Analysis} {listing : TableListing}

theorem columns_of_ofGrammar (success : ofGrammar g = .ok analysis) :
    analysis.table.terminals = analysis.grammar.terminals ++ [endMarkIndex] ∧
      analysis.table.nonTerminals = analysis.grammar.listedNonTerminals := by
  obtain ⟨shifts, _, made⟩ := Result.bind_eq_ok.mp (table_of_ofGrammar success)
  obtain ⟨rows, _, same⟩ := Result.bind_eq_ok.mp made
  rw [← Except.ok.inj same]
  exact ⟨rfl, rfl⟩

/-- A client's table: the names of a table whose symbols have no blanks in their names. -/
structure Served (g : Grammar) (start : Nat) (analysis : Analysis) (listing : TableListing) : Prop
    extends Built g start analysis where
  names : listing.Names analysis.grammar analysis.table
  terminals : analysis.table.terminals = analysis.grammar.terminals ++ [endMarkIndex]
  nonTerminals : analysis.table.nonTerminals = analysis.grammar.listedNonTerminals
  solid : ∀ symbol, g.isTerminal symbol = true ∨ g.isNonTerminal symbol = true →
    ∀ name, g.name symbol = .ok name → ' ' ∉ name

namespace Served

variable (served : analysis.Served g start listing)
include served

private theorem name_of_column {symbol : Nat} {token : Text} (column : analysis.table.hasColumn symbol = true)
    (found : analysis.grammar.index? token = some symbol) : analysis.grammar.name symbol = .ok token := by
  rcases served.faithful.compiled.column.mp column with terminal | rfl
  · exact Grammar.name_of_index? found (.inl terminal)
  · have mark := served.faithful.augmented.endMark
    obtain ⟨own, here, spelled⟩ := Grammar.spelled_of_index? found
    obtain rfl := Option.some.inj (here.symm.trans mark)
    obtain rfl := List.mem_singleton.mp spelled
    rw [Grammar.name, mark]

private theorem action_eq (state : Nat) (configuration : Configuration)
    (last : ¬ (configuration.lookahead = endMarkName ∧ 1 < configuration.input.length)) :
    TableListing.cell? listing.terminals listing.actions state configuration.lookahead =
      (analysis.table.symbolOf? analysis.grammar configuration).bind (analysis.table.action? state) := by
  have apart := served.faithful.augmented.toNamed
  rw [Table.symbolOf?, if_neg last]
  cases reads : (analysis.grammar.index? configuration.lookahead).filter analysis.table.hasColumn with
  | some symbol =>
    obtain ⟨found, column⟩ := Option.filter_eq_some_iff.mp reads
    have own := served.name_of_column column found
    rw [served.names.actions, Table.actionCells,
      TableListing.cell?_of_name served.names.terminals apart Row.action? (List.contains_iff_mem.mp column) own]
    rfl
  | none =>
    apply TableListing.cell?_of_absent served.names.terminals
    intro symbol member own
    have column : analysis.table.hasColumn symbol = true := List.contains_iff_mem.mpr member
    rw [apart.index?_of_name own, Option.filter_some, if_pos column] at reads
    cases reads

private theorem goto_eq {symbol target state : Nat} {name : Text}
    (leads : analysis.table.goto? state symbol = some target) (own : analysis.grammar.name symbol = .ok name) :
    TableListing.cell? listing.nonTerminals listing.gotos state name = some target := by
  have member := (served.faithful.compiled.goto.mp leads).1
  rw [← served.nonTerminals] at member
  rw [served.names.gotos, Table.gotoCells,
    TableListing.cell?_of_name served.names.nonTerminals served.faithful.augmented.toNamed Row.goto? member own]
  exact leads

private theorem rule_eq {index : Nat} {production : Production} {head : Text} (later : index ≠ 0)
    (found : analysis.grammar.productions[index]? = some production)
    (own : analysis.grammar.name production.head = .ok head) :
    listing.rule? index = some (head, production.length) := by
  obtain ⟨before, rfl⟩ := Nat.exists_eq_succ_of_ne_zero later
  have fits := served.formed.fits_of_getElem? (served.from'.production before ▸ found)
  have nonTerminal := fits.head
  have solid : ∀ symbol ∈ production.symbols, ∀ name, analysis.grammar.name symbol = .ok name → ' ' ∉ name := by
    intro symbol member name named
    rw [served.from'.name (fits.lt_of_mem_symbols member)] at named
    exact served.solid symbol (fits.symbols symbol member) name named
  rw [TableListing.rule?_eq served.names served.faithful.augmented.toWellFormed found own ?_ solid]
  rw [served.from'.name (Grammar.lt_of_isNonTerminal nonTerminal)] at own
  exact served.solid _ (.inr nonTerminal) head own

section Steps

variable {current next : Configuration} {rows : List TraceRow}

/-- A client decides by the action that the table has for the symbol of the next token. -/
theorem clientStep_eq (current : Configuration) {states : List Nat} (same : states = current.stack.states) :
    listing.clientStep states current.input =
      match (analysis.table.symbolOf? analysis.grammar current).bind (analysis.table.action? current.stack.top) with
      | none => ([.reject], none)
      | some (.shift target) => ([.shift target], some (target :: states, current.input.tail))
      | some (.reduce index) =>
        match listing.rule? index with
        | none => ([.reduce index, .reject], none)
        | some (head, length) =>
          match (states.drop length).head?.bind fun state =>
            TableListing.cell? listing.nonTerminals listing.gotos state head with
          | none => ([.reduce index, .reject], none)
          | some target => ([.reduce index, .goto target], some (target :: states.drop length, current.input))
      | some .accept => ([.accept], none) := by
  rw [TableListing.clientStep]
  change (if current.lookahead = endMarkName ∧ 1 < current.input.length then _ else _) = _
  by_cases last : current.lookahead = endMarkName ∧ 1 < current.input.length
  · have unread : analysis.table.symbolOf? analysis.grammar current = none := if_pos last
    rw [if_pos last, unread]
    rfl
  · rw [if_neg last, ← served.action_eq current.stack.top current last, same, Stack.head?_states]
    rfl

private theorem clientStep_of_stop
    (stops : ∀ symbol, analysis.table.symbolOf? analysis.grammar current = some symbol →
      analysis.table.action? current.stack.top symbol = none) :
    listing.clientStep current.stack.states current.input = ([.reject], none) := by
  have empty : (analysis.table.symbolOf? analysis.grammar current).bind
      (analysis.table.action? current.stack.top) = none := by
    cases reads : analysis.table.symbolOf? analysis.grammar current with
    | none => rfl
    | some symbol => exact stops symbol reads
  rw [served.clientStep_eq current rfl, empty]

private theorem clientStep_of_accept
    (accepts : analysis.table.step analysis.grammar current = .ok (.accept rows)) :
    listing.clientStep current.stack.states current.input = (TraceRow.decisions rows, none) := by
  obtain ⟨symbol, reads, cell, rfl⟩ := Table.step_eq_accept.mp accepts
  rw [served.clientStep_eq current rfl, reads, Option.bind_some, cell]
  rfl

private theorem clientStep_of_moves {frames : List Frame} {symbols : List Nat}
    (traces : analysis.automaton.Traces analysis.grammar frames symbols) (here : current.stack = ⟨0, frames⟩)
    (moves : analysis.table.Moves analysis.grammar current rows next) :
    listing.clientStep current.stack.states current.input =
      (TraceRow.decisions rows, some (next.stack.states, next.input)) := by
  cases moves with
  | shift reads cell input =>
    rw [served.clientStep_eq current rfl, reads, Option.bind_some, cell, input]
    rfl
  | reduce reads cell found enough named leads =>
    have later := ((served.faithful.reduce_cell traces).mp (here ▸ cell)).1
    rw [served.clientStep_eq current rfl, reads, Option.bind_some, cell]
    dsimp only
    rw [served.rule_eq later found named]
    dsimp only
    rw [Stack.states_below enough, Stack.head?_states, Option.bind_some, served.goto_eq leads named]
    rfl

end Steps

/-- A client makes the decisions that the trace of the parser shows, step by step. -/
theorem clientRun_eq {current : Configuration} {frames : List Frame} {symbols : List Nat} {input : List Text}
    (traces : analysis.automaton.Traces analysis.grammar frames symbols) (here : current = ⟨⟨0, frames⟩, input⟩)
    (limit : Nat) (trace : List TraceRow) :
    (∃ outcome more, analysis.table.run analysis.grammar limit current trace =
        some (.ok (outcome, trace.reverse ++ more)) ∧
      listing.clientRun limit current.stack.states current.input = (TraceRow.decisions more, true)) ∨
    ∃ rows last, analysis.table.Steps analysis.grammar limit current rows last ∧
      listing.clientRun limit current.stack.states current.input = (TraceRow.decisions rows, false) := by
  induction limit generalizing current frames symbols input trace with
  | zero => exact .inr ⟨[], _, .done _, rfl⟩
  | succ limit ih =>
    rw [Table.run, TableListing.clientRun]
    rcases served.faithful.step_cases traces here with ⟨rows, next, moves⟩ | accepts | ⟨error, rejects, cause⟩
    · obtain ⟨stack, path, rest, same, moved⟩ := served.faithful.moved_of_moves traces (here ▸ moves)
      rw [moves.step, served.clientStep_of_moves traces (congrArg Configuration.stack here) moves]
      dsimp only
      rcases ih (moved.traces traces) same (rows.reverse ++ trace) with
        ⟨outcome, more, ended, decided⟩ | ⟨more, last, steps, decided⟩
      · refine .inl ⟨outcome, rows ++ more, ?_, ?_⟩
        · rw [ended]
          simp
        · rw [decided]
          simp [TraceRow.decisions]
      · refine .inr ⟨rows ++ more, last, .step moves steps, ?_⟩
        rw [decided]
        simp [TraceRow.decisions]
    · rw [accepts, served.clientStep_of_accept accepts]
      exact .inl ⟨.accepted, [current.row .accept], by simp, rfl⟩
    · have stops : ∀ symbol, analysis.table.symbolOf? analysis.grammar current = some symbol →
          analysis.table.action? current.stack.top symbol = none := by
        intro symbol reads
        rcases cause with ⟨_, unread⟩ | ⟨_, other, own, empty⟩
        · cases unread.symm.trans reads
        · obtain rfl := Option.some.inj (own.symm.trans reads)
          exact empty
      rw [rejects, served.clientStep_of_stop stops]
      exact .inl ⟨.rejected error current.stack.entries current.input,
        [current.row (.error error.message)], by simp [Configuration.row], rfl⟩

end Served

private theorem blank_not_mem_name {text : Text} (read : Grammar.ofText text = .ok g) {symbol : Nat}
    (proper : g.isTerminal symbol = true ∨ g.isNonTerminal symbol = true) {name : Text}
    (own : g.name symbol = .ok name) : ' ' ∉ name := by
  obtain ⟨rules, spelled, built⟩ := Result.bind_eq_ok.mp read
  have writable := (Rule.ofText_eq_ok.mp spelled).writable (by simp)
  have named := Grammar.isName_of_ofRules built writable proper own
  intro member
  cases named.solid ' ' member

/-- The table of a built analysis can be listed. -/
theorem Built.exists_listing (built : analysis.Built g start)
    (terminals : analysis.table.terminals = analysis.grammar.terminals ++ [endMarkIndex])
    (nonTerminals : analysis.table.nonTerminals = analysis.grammar.listedNonTerminals) :
    ∃ listing, analysis.grammar.tableListing analysis.table = .ok listing := by
  have formed := built.faithful.augmented.toWellFormed
  obtain ⟨columns, first⟩ : ∃ columns, analysis.table.terminals.mapM analysis.grammar.name = .ok columns := by
    refine Grammar.mapM_name_ok fun symbol member => ?_
    rw [terminals, List.mem_append] at member
    rcases member with inside | mark
    · exact Grammar.lt_of_isTerminal (Grammar.mem_terminals.mp inside)
    · obtain rfl := List.mem_singleton.mp mark
      exact (List.getElem?_eq_some_iff.mp formed.endMark).1
  obtain ⟨heads, second⟩ : ∃ heads, analysis.table.nonTerminals.mapM analysis.grammar.name = .ok heads := by
    refine Grammar.mapM_name_ok fun symbol member => ?_
    rw [nonTerminals] at member
    exact Grammar.lt_of_isNonTerminal (Grammar.isNonTerminal_of_listed member)
  obtain ⟨productions, third⟩ : ∃ productions,
      (List.range analysis.grammar.productions.length).mapM analysis.grammar.productionText = .ok productions := by
    refine Result.mapM_ok fun index member => ?_
    have found := List.getElem?_eq_getElem (List.mem_range.mp member)
    have fits := formed.fits_of_getElem? found
    obtain ⟨body, spelled⟩ := fits.exists_bodyNames formed.toNamed
    have own := Grammar.name_ok (Grammar.lt_of_isNonTerminal fits.head)
    exact ⟨_, Grammar.productionText_eq_ok found own spelled⟩
  exact ⟨⟨columns, heads, productions, _, _⟩, Grammar.tableListing_eq_ok.mpr ⟨first, second, third, rfl, rfl⟩⟩

end Analysis

namespace Service

/-- The JSON table of a grammar text is enough to parse: on every input a client that has read it back makes the
decisions that the trace of the parser shows, and goes on as long as the parser does. -/
theorem client_decides {grammar : Text} {analysis : Analysis} (success : Service.analysis grammar = .ok analysis) :
    ∃ json listing, table grammar = .ok json.compact ∧ TableListing.ofJson? json = some listing ∧
      ∀ input limit,
        (∃ outcome trace,
          analysis.table.run analysis.grammar limit (.initial input) [] = some (.ok (outcome, trace)) ∧
          listing.clientRun limit [0] (Configuration.tokens input) = (TraceRow.decisions trace, true)) ∨
        ∃ rows last, analysis.table.run analysis.grammar limit (.initial input) [] = none ∧
          analysis.table.Steps analysis.grammar limit (.initial input) rows last ∧
          listing.clientRun limit [0] (Configuration.tokens input) = (TraceRow.decisions rows, false) := by
  obtain ⟨g, loads, built⟩ := Result.bind_eq_ok.mp success
  have read := Result.mapError_eq_ok.mp loads
  obtain ⟨terminals, nonTerminals⟩ := Analysis.columns_of_ofGrammar built
  obtain ⟨start, built⟩ := Analysis.built_of_ofGrammar (Grammar.loaded_of_text read) built
  obtain ⟨listing, listed⟩ := built.exists_listing terminals nonTerminals
  have served : analysis.Served g start listing :=
    { built with
      names := Grammar.tableListing_eq_ok.mp listed
      terminals := terminals
      nonTerminals := nonTerminals
      solid := fun symbol proper name own => Analysis.blank_not_mem_name read proper own }
  refine ⟨listing.json, listing, ?_, listing.ofJson?_json, fun input limit => ?_⟩
  · rw [table, success]
    change answer (do return (← Failure.ofFault (analysis.grammar.tableListing analysis.table)).json) = _
    rw [listed]
    rfl
  · rcases served.clientRun_eq .start rfl limit [] with
      ⟨outcome, trace, ended, decided⟩ | ⟨rows, last, steps, decided⟩
    · exact .inl ⟨outcome, trace, ended, decided⟩
    · exact .inr ⟨rows, last, Table.run_eq_none.mpr ⟨rows, last, steps⟩, steps, decided⟩

/-- With nested pairs a client reduces an empty body before it shifts the `b`. -/
theorem client_decides_pairs : ∃ built json listing,
    analysis "S -> a S b | ''" = .ok built ∧ table "S -> a S b | ''" = .ok json.compact ∧
      TableListing.ofJson? json = some listing ∧ listing.clientRun 9 [0] (Configuration.tokens "a b") =
        ([.shift 2, .reduce 2, .goto 3, .shift 4, .reduce 1, .goto 1, .accept], true) := by
  obtain ⟨analysis, success, shows⟩ := Result.exists_of_evaluated (analysis "S -> a S b | ''")
    (fun analysis => (analysis.table.run analysis.grammar 9 (.initial "a b") []).any fun result =>
      result.toOption.any fun (_, trace) => TraceRow.decisions trace ==
        [.shift 2, .reduce 2, .goto 3, .shift 4, .reduce 1, .goto 1, .accept]) (by decide +kernel)
  obtain ⟨json, listing, written, read, decides⟩ := client_decides success
  refine ⟨analysis, json, listing, success, written, read, ?_⟩
  rcases decides "a b" 9 with ⟨outcome, trace, ended, decided⟩ | ⟨_, _, stopped, _⟩
  · rw [ended] at shows
    rw [decided, beq_iff_eq.mp shows]
  · rw [stopped] at shows
    cases shows

end Service

end SimpleLR
