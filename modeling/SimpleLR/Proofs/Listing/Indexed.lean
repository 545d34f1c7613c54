import SimpleLR.Listing.Reports
import SimpleLR.Listing.Sets
import SimpleLR.Listing.States
import SimpleLR.Proofs.Table.Indexed

namespace SimpleLR

variable {g : Grammar} {automaton : Automaton} {table : Table}

namespace Grammar.Indexed

variable (indexed : g.Indexed)
include indexed

section Items

variable {item : Item} (bound : item.production < g.productions.length)
include bound

theorem exists_itemWords : ∃ words, g.itemWords item = .ok words := by
  have found := production_ok (List.getElem?_eq_getElem bound)
  have present := List.getElem_mem bound
  obtain ⟨names, spelled⟩ := mapM_name_ok fun symbol member =>
    indexed.body _ present symbol (Production.mem_body member)
  have own := name_ok (indexed.head _ present)
  exact ⟨_, Result.bind_eq_ok.mpr ⟨_, found, Result.bind_eq_ok.mpr ⟨names, spelled,
    Result.bind_eq_ok.mpr ⟨_, own, rfl⟩⟩⟩⟩

theorem exists_itemText : ∃ text, g.itemText item = .ok text :=
  Result.bind_ok (indexed.exists_itemWords bound) fun _ _ => ⟨_, rfl⟩

theorem exists_itemTex : ∃ text, g.itemTex item = .ok text :=
  Result.bind_ok (indexed.exists_itemWords bound) fun _ _ => ⟨_, rfl⟩

end Items

theorem exists_productionListing : ∃ listing, g.productionListing = .ok listing := by
  refine Result.bind_ok (Result.mapM_ok fun head member => ?_) fun _ _ => ⟨_, rfl⟩
  have listed := (List.mem_filter.mp member).1
  have own := name_ok (lt_of_isNonTerminal (isNonTerminal_of_listed listed))
  refine Result.bind_ok (Result.mapM_ok fun index member => ?_) fun _ _ =>
    Result.bind_ok ⟨_, own⟩ fun _ _ => ⟨_, rfl⟩
  have bound := indexed.listed head index member
  obtain ⟨names, spelled⟩ := mapM_name_ok (indexed.body _ (List.getElem_mem bound))
  exact ⟨names, Result.bind_eq_ok.mpr ⟨_, production_ok (List.getElem?_eq_getElem bound), spelled⟩⟩

omit indexed in
theorem exists_memberNames {set : SymbolSet} (bounds : ∀ member ∈ set, member < g.symbols.length) :
    ∃ names, g.memberNames set = .ok names := by
  refine Result.bind_ok (mapM_name_ok fun member inside => ?_) fun _ _ => ⟨_, rfl⟩
  exact bounds member (SortedSet.mem_filter.mp inside).1

theorem exists_setListing : ∃ listing, g.setListing g.firstFollow = .ok listing := by
  refine Result.bind_ok (Result.mapM_ok fun symbol listed => ?_) fun _ _ => ⟨_, rfl⟩
  have own := name_ok (lt_of_isNonTerminal (isNonTerminal_of_listed listed))
  have begins := exists_memberNames (indexed.first symbol)
  have follows := exists_memberNames fun member inside => (indexed.follow symbol member inside).1
  exact Result.bind_ok begins fun _ _ => Result.bind_ok follows fun _ _ =>
    Result.bind_ok ⟨_, own⟩ fun _ _ => ⟨_, rfl⟩

end Grammar.Indexed

namespace Automaton.Indexed

variable (indexed : automaton.Indexed g) (grammar : g.Indexed)
include indexed grammar

private theorem exists_stateListing {state : State} (present : state ∈ automaton.states) :
    ∃ listing, g.stateListing state = .ok listing := by
  have text {items : List Item} (inside : ∀ item ∈ items, item ∈ state.items) :
      ∃ texts, items.mapM g.itemText = .ok texts := by
    refine Result.mapM_ok fun item member => ?_
    exact grammar.exists_itemText (indexed.item state present item (inside item member))
  have formulas : ∃ formulas, state.items.mapM g.itemTex = .ok formulas :=
    Result.mapM_ok fun item member => grammar.exists_itemTex (indexed.item state present item member)
  have edges : ∃ edges, g.namedEdges state.edges = .ok edges := by
    refine Result.bind_ok (Result.mapM_ok fun edge leaves => ?_) fun _ _ => ⟨_, rfl⟩
    have own := Grammar.name_ok (indexed.edge state present edge.1 edge.2 leaves).1
    exact Result.bind_ok ⟨_, own⟩ fun _ _ => ⟨_, rfl⟩
  exact Result.bind_ok (text fun item => List.mem_append_left state.extend) fun _ _ =>
    Result.bind_ok (text fun item => List.mem_append_right state.kernel.toList) fun _ _ =>
      Result.bind_ok edges fun _ _ => Result.bind_ok formulas fun _ _ => ⟨_, rfl⟩

theorem exists_listing : ∃ listing, g.automatonListing automaton = .ok listing := by
  refine Result.bind_ok (Result.mapM_ok fun state present => ?_) fun _ _ => ⟨_, rfl⟩
  exact indexed.exists_stateListing grammar present

end Automaton.Indexed

namespace TableListing

section Columns

variable {α : Type} {first : List α} {column : Nat}

theorem getElem?_of_first (corner : α) (second : List α) (bound : column < first.length) :
    ([corner] ++ first ++ second)[1 + column]? = first[column]? := by
  rw [List.append_assoc, List.getElem?_append_right (by simp), List.length_singleton, Nat.add_sub_cancel_left,
    List.getElem?_append_left bound]

theorem getElem?_of_second (corner : α) (first second : List α) (column : Nat) :
    ([corner] ++ first ++ second)[1 + first.length + column]? = second[column]? := by
  have length : ([corner] ++ first).length = 1 + first.length := by rw [List.length_append, List.length_singleton]
  rw [List.getElem?_append_right (by omega), length, Nat.add_sub_cancel_left]

end Columns

variable {listing : TableListing} (names : listing.Names g table)
include names

theorem Names.production_ok {index : Nat} (bound : index < g.productions.length) :
    ∃ text, listing.production index = .ok text := by
  have length := Result.length_of_mapM names.productions
  rw [List.length_range] at length
  have found := List.getElem?_eq_getElem (length ▸ bound)
  exact ⟨_, by rw [production, found]⟩

private theorem Names.exists_cell {cells : List (Option Action)} (inside : cells ∈ listing.actions) {action : Action}
    (member : some action ∈ cells) : ∃ number terminal, table.action? number terminal = some action := by
  rw [names.actions] at inside
  obtain ⟨row, present, rfl⟩ := List.mem_map.mp inside
  obtain ⟨terminal, _, cell⟩ := List.mem_map.mp member
  obtain ⟨number, found⟩ := List.mem_iff_getElem?.mp present
  exact ⟨number, terminal, by rw [Table.action?, found, Option.bind_some, cell]⟩

omit names in
private theorem of_mem_numbered {entry : (List (Option Action) × List (Option Nat)) × Nat}
    (member : entry ∈ (listing.actions.zip listing.gotos).zipIdx) :
    entry.1.1 ∈ listing.actions ∧ entry.1.2 ∈ listing.gotos :=
  List.of_mem_zip (List.fst_mem_of_mem_zipIdx member)

section Rows

variable {cell : Action → Except Fault Text} {rows : List (List Text)} (success : listing.rows cell = .ok rows)
include success

theorem Names.length_rows : rows.length = table.rows.length := by
  rw [Result.length_of_mapM success, List.length_zipIdx, List.length_zip, names.actions, names.gotos,
    Table.actionCells, Table.gotoCells, List.length_map, List.length_map, Nat.min_self]

/-- The row of a state: its number, what is done on each terminal, and where each non-terminal leads. -/
theorem Names.row_of_state {state : Nat} {row : List Text} (found : rows[state]? = some row) :
    ∃ texts, (table.terminals.map (table.action? state)).mapM (fun action => action.elim (.ok []) cell) = .ok texts ∧
      row = [Text.ofNat state] ++ texts ++
        table.nonTerminals.map fun symbol => ((table.goto? state symbol).map Text.ofNat).getD [] := by
  have bound := (List.getElem?_eq_some_iff.mp found).1
  rw [names.length_rows success] at bound
  have entries := List.getElem?_eq_getElem bound
  have actions : listing.actions[state]? = some (table.terminals.map (table.action? state)) := by
    rw [names.actions, Table.actionCells, List.getElem?_map, entries]
    simp [Table.action?, entries]
  have gotos : listing.gotos[state]? = some (table.nonTerminals.map (table.goto? state)) := by
    rw [names.gotos, Table.gotoCells, List.getElem?_map, entries]
    simp [Table.goto?, entries]
  have here : (listing.actions.zip listing.gotos).zipIdx[state]? =
      some ((table.terminals.map (table.action? state), table.nonTerminals.map (table.goto? state)), state) := by
    have both := List.getElem?_zip_eq_some (z := (_, _)).mpr ⟨actions, gotos⟩
    rw [List.getElem?_zipIdx, both, Nat.zero_add]
    rfl
  obtain ⟨own, there, made⟩ := Result.getElem?_of_mapM success here
  obtain ⟨texts, entered, same⟩ := Result.bind_eq_ok.mp made
  refine ⟨texts, ?_, ?_⟩
  · rw [← entered]
    refine Result.mapM_congr fun action _ => ?_
    cases action <;> rfl
  · rw [Option.some.inj (found.symm.trans there), ← Except.ok.inj same, List.map_map]
    rfl

theorem Names.number_of_row {state : Nat} {row : List Text} (found : rows[state]? = some row) :
    row[0]? = some (Text.ofNat state) := by
  obtain ⟨texts, _, rfl⟩ := names.row_of_state success found
  rfl

theorem Names.action_of_row {state column symbol : Nat} {row : List Text} (found : rows[state]? = some row)
    (here : table.terminals[column]? = some symbol) :
    ∃ text, row[1 + column]? = some text ∧ (table.action? state symbol).elim (.ok []) cell = .ok text := by
  obtain ⟨texts, shown, rfl⟩ := names.row_of_state success found
  have action : (table.terminals.map (table.action? state))[column]? = some (table.action? state symbol) := by
    rw [List.getElem?_map, here]
    rfl
  obtain ⟨text, there, own⟩ := Result.getElem?_of_mapM shown action
  have bound := (List.getElem?_eq_some_iff.mp there).1
  exact ⟨text, (getElem?_of_first _ _ bound).trans there, own⟩

theorem Names.goto_of_row {state column symbol : Nat} {row : List Text} (found : rows[state]? = some row)
    (here : table.nonTerminals[column]? = some symbol) :
    row[1 + table.terminals.length + column]? = some (((table.goto? state symbol).map Text.ofNat).getD []) := by
  obtain ⟨texts, shown, rfl⟩ := names.row_of_state success found
  have length : texts.length = table.terminals.length := by rw [Result.length_of_mapM shown, List.length_map]
  rw [← length, getElem?_of_second, List.getElem?_map, here]
  rfl

end Rows

/-- If each action of a table can be shown, so can all rows, and each row is as wide as the heading. -/
theorem Names.exists_rows {cell : Action → Except Fault Text}
    (shows : ∀ number terminal action, table.action? number terminal = some action →
      ∃ text, cell action = .ok text) :
    ∃ rows, listing.rows cell = .ok rows ∧ ∀ row ∈ rows, row.length = listing.heading.length := by
  obtain ⟨rows, success⟩ : ∃ rows, listing.rows cell = .ok rows := by
    refine Result.mapM_ok fun entry member => ?_
    refine Result.bind_ok (Result.mapM_ok fun action inside => ?_) fun _ _ => ⟨_, rfl⟩
    cases action with
    | none => exact ⟨[], rfl⟩
    | some action =>
      obtain ⟨number, terminal, filled⟩ := names.exists_cell (of_mem_numbered member).1 inside
      exact shows number terminal action filled
  refine ⟨rows, success, fun row member => ?_⟩
  obtain ⟨state, found⟩ := List.mem_iff_getElem?.mp member
  obtain ⟨texts, shown, rfl⟩ := names.row_of_state success found
  have actions := Result.length_of_mapM shown
  rw [List.length_map] at actions
  simp only [heading, List.length_append, List.length_singleton, List.length_map, actions,
    Result.length_of_mapM names.terminals, Result.length_of_mapM names.nonTerminals]

section Shown

variable (indexed : table.Indexed g automaton)
include indexed

theorem Names.exists_reduction {number terminal index : Nat}
    (cell : table.action? number terminal = some (.reduce index)) (shown : Text → Text) :
    ∃ text, (do return shown (← listing.production index)) = Except.ok text := by
  have known := names.production_ok (indexed.reduce number terminal index cell)
  exact Result.bind_ok known fun _ _ => ⟨_, rfl⟩

theorem Names.exists_plainAction (number terminal : Nat) (action : Action)
    (cell : table.action? number terminal = some action) : ∃ text, listing.plainAction action = .ok text := by
  cases action with
  | shift | accept => exact ⟨_, rfl⟩
  | reduce index => exact names.exists_reduction indexed cell fun production => "r(" ++ production ++ ")"

theorem Names.exists_texAction (number terminal : Nat) (action : Action)
    (cell : table.action? number terminal = some action) : ∃ text, listing.texAction action = .ok text := by
  cases action with
  | shift | accept => exact ⟨_, rfl⟩
  | reduce index => exact names.exists_reduction indexed cell fun production => "reduce " ++ productionTex production

theorem Names.exists_plain : ∃ rows text, listing.rows listing.plainAction = .ok rows ∧
    Text.tableByNumbers (listing.heading :: rows) = .ok text ∧ listing.plain = .ok text := by
  obtain ⟨rows, success, wide⟩ := names.exists_rows (names.exists_plainAction indexed)
  refine ⟨rows, _, success, ?_, Result.bind_eq_ok.mpr ⟨rows, success, rfl⟩⟩
  apply Text.tableByNumbers_eq (List.cons_ne_nil _ _)
  exact List.forall_mem_cons.mpr ⟨rfl, wide⟩

theorem Names.exists_render (format : Format) : ∃ text, listing.render format = .ok text := by
  cases format with
  | plain =>
    obtain ⟨_, text, _, _, success⟩ := names.exists_plain indexed
    exact ⟨text, success⟩
  | tex =>
    obtain ⟨rows, success, _⟩ := names.exists_rows (names.exists_texAction indexed)
    exact ⟨_, Result.bind_eq_ok.mpr ⟨rows, success, rfl⟩⟩
  | html =>
    obtain ⟨rows, success, _⟩ := names.exists_rows fun _ _ action _ => ⟨htmlAction action, rfl⟩
    exact ⟨_, Result.bind_eq_ok.mpr ⟨rows, success, rfl⟩⟩
  | json => exact ⟨_, rfl⟩

end Shown

end TableListing

theorem Report.tableByNumbers_eq (report : Report) :
    Text.tableByNumbers (Report.heading :: report.trace.map TraceRow.cells) =
      .ok (Text.table (Report.heading :: report.trace.map TraceRow.cells)) := by
  apply Text.tableByNumbers_eq (List.cons_ne_nil _ _)
  refine List.forall_mem_cons.mpr ⟨rfl, fun row member => ?_⟩
  obtain ⟨_, _, rfl⟩ := List.mem_map.mp member
  rfl

end SimpleLR
