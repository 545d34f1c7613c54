import SimpleLR.Proofs.Grammar.Solid
import SimpleLR.Proofs.Listing.Indexed
import SimpleLR.Proofs.Parser.Client
import SimpleLR.Proofs.Text.Alignment
import SimpleLR.Proofs.Text.Numeral

/-! The lines of a plain table. Each state has its line below the heading, and at the places of a symbol's column
stands what the state does on it, or where it leads. No name holds a line break, so that no cell does. -/
namespace SimpleLR

variable {g : Grammar} {table : Table}

namespace Text

/-- A column is blank exactly if it shows an empty cell. -/
theorem Shows.blank_iff {widths : List Nat} {line cell : Text} {column : Nat} (shows : Shows widths line column cell)
    (begins : cell.head? ≠ some ' ') : Shows widths line column [] ↔ cell = [] := by
  refine ⟨?_, fun empty => empty ▸ shows⟩
  rintro ⟨width, found, _, blank⟩
  obtain ⟨other, there, _, field⟩ := shows
  obtain rfl := Option.some.inj (found.symm.trans there)
  cases cell with
  | nil => rfl
  | cons c rest =>
    have member : c ∈ List.replicate (width - ([] : Text).length) ' ' ++ ([] : Text) := by
      rw [← blank, field]
      simp
    rw [List.append_nil] at member
    exact absurd (congrArg some (List.mem_replicate.mp member).2) begins

theorem spaced_ofNat (n : Nat) : Spaced (ofNat n) :=
  .of_solid fun _ member => not_blank_of_isDigit (isDigit_of_mem_ofNat member)

end Text

namespace TableListing

/-- What a cell of the plain table has for an action. -/
inductive Entry (g : Grammar) : Option Action → Text → Prop where
  | nothing : Entry g none []
  | shift (target : Nat) : Entry g (some (.shift target)) ("s" ++ Text.ofNat target)
  | reduce {index : Nat} {production : Text} (text : g.productionText index = .ok production) :
      Entry g (some (.reduce index)) ("r(" ++ production ++ ")")
  | accept : Entry g (some .accept) "acc"

section Entry

variable {action : Option Action} {cell : Text} (entry : Entry g action cell)
include entry

private theorem Entry.eq_nil_iff : cell = [] ↔ action = none := by
  cases entry <;> simp

private theorem Entry.head?_ne : cell.head? ≠ some ' ' := by
  cases entry <;> simp

theorem Entry.spaced (solid : g.Solid) : Text.Spaced cell := by
  cases entry with
  | nothing | accept => decide
  | shift target => exact .append (by decide) (Text.spaced_ofNat target)
  | reduce text => exact .append (.append (by decide) (solid.spaced_productionText text)) (by decide)

end Entry

/-- A heading, and below it a line for each state. The first column has the numbers of the states, then come the
columns of the terminals, and then those of the non-terminals. -/
structure Lines (g : Grammar) (table : Table) (widths : List Nat) (heading : Text) (lines : List Text) : Prop where
  corner : Text.Shows widths heading 0 []
  terminal : ∀ (column : Nat) symbol, table.terminals[column]? = some symbol →
    ∃ name, g.name symbol = .ok name ∧ Text.Shows widths heading (1 + column) name
  nonTerminal : ∀ (column : Nat) symbol, table.nonTerminals[column]? = some symbol →
    ∃ name, g.name symbol = .ok name ∧ Text.Shows widths heading (1 + table.terminals.length + column) name
  count : lines.length = table.rows.length
  number : ∀ (state : Nat) line, lines[state]? = some line → Text.Shows widths line 0 (Text.ofNat state)
  action : ∀ (state : Nat) line, lines[state]? = some line →
    ∀ (column : Nat) symbol, table.terminals[column]? = some symbol →
      (∃ cell, Entry g (table.action? state symbol) cell ∧ Text.Shows widths line (1 + column) cell) ∧
        (Text.Shows widths line (1 + column) [] ↔ table.action? state symbol = none)
  goto : ∀ (state : Nat) line, lines[state]? = some line →
    ∀ (column : Nat) symbol, table.nonTerminals[column]? = some symbol →
      (∀ target, table.goto? state symbol = some target →
        Text.Shows widths line (1 + table.terminals.length + column) (Text.ofNat target)) ∧
        (Text.Shows widths line (1 + table.terminals.length + column) [] ↔ table.goto? state symbol = none)

section Names

variable {listing : TableListing} (names : listing.Names g table)
include names

private theorem Names.productionText_of_listed {index : Nat} {text : Text}
    (success : listing.production index = .ok text) :
    g.productionText index = .ok text := by
  unfold TableListing.production at success
  split at success
  · rename_i shown found
    obtain rfl := Except.ok.inj success
    have bound := (List.getElem?_eq_some_iff.mp found).1
    rw [Result.length_of_mapM names.productions] at bound
    obtain ⟨own, there, spelled⟩ := Result.getElem?_of_mapM names.productions (List.getElem?_eq_getElem bound)
    rw [Option.some.inj (found.symm.trans there), ← spelled, List.getElem_range]
  · cases success

theorem Names.entry {action : Option Action} {cell : Text}
    (shown : action.elim (.ok []) listing.plainAction = .ok cell) : Entry g action cell := by
  match action with
  | none => exact Except.ok.inj shown ▸ .nothing
  | some (.shift target) => exact Except.ok.inj shown ▸ .shift target
  | some (.reduce index) =>
    obtain ⟨text, listed, same⟩ := Result.bind_eq_ok.mp shown
    exact Except.ok.inj same ▸ .reduce (names.productionText_of_listed listed)
  | some .accept => exact Except.ok.inj shown ▸ .accept

/-- No cell of the table holds a line break. -/
theorem Names.single (solid : g.Solid) {rows : List (List Text)} (made : listing.rows listing.plainAction = .ok rows) :
    ∀ row ∈ listing.heading :: rows, ∀ cell ∈ row, '\n' ∉ cell := by
  suffices spaced : ∀ row ∈ listing.heading :: rows, ∀ cell ∈ row, Text.Spaced cell from
    fun row member cell inside => (spaced row member cell inside).single.1
  refine List.forall_mem_cons.mpr ⟨?_, fun row member => ?_⟩
  · simp only [heading, List.forall_mem_append, List.forall_mem_singleton]
    refine ⟨⟨by decide, fun name inside => ?_⟩, fun name inside => ?_⟩
    · exact .of_solid (solid.names names.terminals name inside)
    · exact .of_solid (solid.names names.nonTerminals name inside)
  · obtain ⟨state, found⟩ := List.mem_iff_getElem?.mp member
    obtain ⟨texts, shown, rfl⟩ := names.row_of_state made found
    simp only [List.forall_mem_append, List.forall_mem_singleton]
    refine ⟨⟨Text.spaced_ofNat state, ?_⟩, ?_⟩
    · intro cell inside
      obtain ⟨action, _, own⟩ := Result.exists_of_mem_results shown inside
      exact (names.entry own).spaced solid
    · intro cell inside
      obtain ⟨symbol, _, rfl⟩ := List.mem_map.mp inside
      cases table.goto? state symbol with
      | none => exact (by decide : Text.Spaced [])
      | some target => exact Text.spaced_ofNat target

section Columns

variable {column symbol : Nat}

private theorem Names.terminal_of_heading (here : table.terminals[column]? = some symbol) :
    ∃ name, g.name symbol = .ok name ∧ listing.heading[1 + column]? = some name := by
  obtain ⟨name, there, own⟩ := Result.getElem?_of_mapM names.terminals here
  have bound := (List.getElem?_eq_some_iff.mp there).1
  exact ⟨name, own, (getElem?_of_first _ _ bound).trans there⟩

private theorem Names.nonTerminal_of_heading (here : table.nonTerminals[column]? = some symbol) :
    ∃ name, g.name symbol = .ok name ∧ listing.heading[1 + table.terminals.length + column]? = some name := by
  obtain ⟨name, there, own⟩ := Result.getElem?_of_mapM names.nonTerminals here
  rw [← Result.length_of_mapM names.terminals]
  exact ⟨name, own, (getElem?_of_second _ _ _ column).trans there⟩

end Columns

/-- Lines that line up with the rows of a table have its cells in their columns. -/
theorem Names.lines {rows : List (List Text)} (made : listing.rows listing.plainAction = .ok rows) {widths : List Nat}
    {heading : Text} {lines : List Text}
    (aligned : Text.LinedUp (listing.heading :: rows) widths (heading :: lines)) :
    Lines g table widths heading lines := by
  have count : lines.length = rows.length := Nat.succ.inj aligned.count
  have row {state : Nat} {line : Text} (found : lines[state]? = some line) : ∃ row, rows[state]? = some row := by
    have bound := (List.getElem?_eq_some_iff.mp found).1
    exact ⟨_, List.getElem?_eq_getElem (count ▸ bound)⟩
  have above := aligned.shows 0 listing.heading heading rfl rfl
  have below (state : Nat) := aligned.shows (state + 1)
  constructor
  case corner => exact above 0 [] rfl
  case terminal =>
    intro column symbol here
    obtain ⟨name, own, there⟩ := names.terminal_of_heading here
    exact ⟨name, own, above _ name there⟩
  case nonTerminal =>
    intro column symbol here
    obtain ⟨name, own, there⟩ := names.nonTerminal_of_heading here
    exact ⟨name, own, above _ name there⟩
  case count => exact count.trans (names.length_rows made)
  case number =>
    intro state line found
    obtain ⟨cells, there⟩ := row found
    exact below state cells line there found 0 _ (names.number_of_row made there)
  case action =>
    intro state line found column symbol here
    obtain ⟨cells, there⟩ := row found
    obtain ⟨cell, stands, shown⟩ := names.action_of_row made there here
    have entry := names.entry shown
    have field := below state cells line there found _ cell stands
    exact ⟨⟨cell, entry, field⟩, (field.blank_iff entry.head?_ne).trans entry.eq_nil_iff⟩
  case goto =>
    intro state line found column symbol here
    obtain ⟨cells, there⟩ := row found
    have field := below state cells line there found _ _ (names.goto_of_row made there here)
    cases leads : table.goto? state symbol with
    | none =>
      rw [leads] at field
      exact ⟨nofun, iff_of_true field rfl⟩
    | some target =>
      rw [leads] at field
      refine ⟨fun other same => Option.some.inj same ▸ field, (field.blank_iff ?_).trans ?_⟩
      · intro first
        exact absurd (Text.isDigit_of_mem_ofNat (List.mem_of_head? first)) (by decide)
      · exact iff_of_false Nat.toDigits_ne_nil nofun

end Names

end TableListing

/-- Rows with as many cells each, none of which holds a line break, become lines of a table that line up and lose
nothing. So the plain table of a grammar text has a line for each state below its heading, with the actions and the
gotos of the state in the columns of their symbols, and blanks where there are none. -/
theorem tables_line_up :
    (∀ {rows : List (List Text)} {count : Nat}, rows ≠ [] → (∀ row ∈ rows, row.length = count) →
      (∀ row ∈ rows, ∀ cell ∈ row, '\n' ∉ cell) →
      Text.LinedUp rows (Text.columnWidths rows) (Text.pieces (· == '\n') (Text.table rows)) ∧
        (Text.columnWidths rows).length = count) ∧
    ∀ {text : Text} {g : Grammar} {analysis : Analysis}, Grammar.ofText text = .ok g →
      Analysis.ofGrammar g = .ok analysis →
      ∃ listing rows shown widths heading lines, analysis.grammar.tableListing analysis.table = .ok listing ∧
        listing.plain = .ok shown ∧ Text.pieces (· == '\n') shown = heading :: lines ∧
        Text.LinedUp (listing.heading :: rows) widths (heading :: lines) ∧
        TableListing.Lines analysis.grammar analysis.table widths heading lines ∧
        lines.length = analysis.automaton.states.length ∧
        analysis.table.terminals = analysis.grammar.terminals ++ [endMarkIndex] ∧
        analysis.table.nonTerminals = analysis.grammar.listedNonTerminals := by
  refine ⟨Text.linedUp_table, fun {text g analysis} read success => ?_⟩
  obtain ⟨terminals, nonTerminals⟩ := Analysis.columns_of_ofGrammar success
  obtain ⟨start, built⟩ := Analysis.built_of_ofGrammar (Grammar.loaded_of_text read) success
  obtain ⟨listing, listed⟩ := built.exists_listing terminals nonTerminals
  have names := Grammar.tableListing_eq_ok.mp listed
  have solid := (Grammar.solid_of_text read).analysis success
  obtain ⟨rows, made, wide⟩ := names.exists_rows (names.exists_plainAction (built.indexed_table success))
  obtain ⟨aligned, _⟩ := Text.linedUp_table (List.cons_ne_nil listing.heading rows)
    (List.forall_mem_cons.mpr ⟨rfl, wide⟩) (names.single solid made)
  obtain ⟨heading, lines, cut⟩ := List.exists_cons_of_ne_nil
    (Text.pieces_ne_nil (· == '\n') (Text.table (listing.heading :: rows)))
  rw [cut] at aligned
  have shows := names.lines made aligned
  exact ⟨listing, rows, _, _, heading, lines, listed, Result.bind_eq_ok.mpr ⟨rows, made, rfl⟩, cut, aligned, shows,
    shows.count.trans (Analysis.length_rows_of_ofGrammar success), terminals, nonTerminals⟩

/-- A cell that looks like a bar between columns, and the line of the state in which nested pairs are reduced. -/
theorem tables_line_up_pairs :
    Text.LinedUp [["é", "a | b"], ["10", []]] [2, 5] [" é | a | b", "10 |      "] ∧
    ∃ g analysis, ∃ shown : Text, ∃ widths heading lines line, Grammar.ofText "S -> a S b | ''" = .ok g ∧
      Analysis.ofGrammar g = .ok analysis ∧ Text.pieces (· == '\n') shown = heading :: lines ∧
      lines[4]? = some line ∧ Text.Shows widths line 0 "4" ∧ Text.Shows widths line 1 [] ∧
      Text.Shows widths line 3 "r(S -> a S b)" := by
  constructor
  · have even : ∀ row ∈ ([["é", "a | b"], ["10", []]] : List (List Text)), row.length = 2 := by decide
    exact (tables_line_up.1 (List.cons_ne_nil _ _) even (by decide)).1
  · obtain ⟨g, read, loads⟩ := Result.exists_of_evaluated (Grammar.ofText "S -> a S b | ''")
      (fun g => (Analysis.ofGrammar g).toOption.any fun analysis =>
        analysis.table.terminals == [3, 4, endMarkIndex] && analysis.table.rows.length == 5 &&
        analysis.table.action? 4 3 == none && analysis.table.action? 4 endMarkIndex == some (.reduce 1) &&
        (analysis.grammar.productionText 1).toOption == some "S -> a S b".toList) (by decide +kernel)
    obtain ⟨analysis, success, passes⟩ := Analysis.exists_of_evaluated g _ loads
    simp only [Bool.and_eq_true, beq_iff_eq] at passes
    obtain ⟨⟨⟨⟨columns, states⟩, empty⟩, reduces⟩, text⟩ := passes
    obtain ⟨_, _, shown, widths, heading, lines, _, _, cut, _, shows, _⟩ := tables_line_up.2 read success
    have bound : 4 < lines.length := by rw [shows.count, states]; decide
    have line := List.getElem?_eq_getElem bound
    have first : analysis.table.terminals[0]? = some 3 := by rw [columns]; rfl
    have last : analysis.table.terminals[2]? = some endMarkIndex := by rw [columns]; rfl
    refine ⟨g, analysis, shown, widths, heading, lines, _, read, success, cut, line, shows.number 4 _ line,
      (shows.action 4 _ line 0 3 first).2.mpr empty, ?_⟩
    obtain ⟨cell, entry, field⟩ := (shows.action 4 _ line 2 endMarkIndex last).1
    rw [reduces] at entry
    cases entry with
    | reduce own =>
      rw [own] at text
      rw [Option.some.inj text] at field
      exact field

end SimpleLR
