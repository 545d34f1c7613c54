import Mathlib.Algebra.Ring.Nat
import SimpleLR.Proofs.Text.Columns
import SimpleLR.Proofs.Text.Pieces

/-! Tables whose columns line up. Every line of a table is as long as the others, a column has the same places in
all of them, and at these places stands the cell with blanks in front. Characters are counted, whatever they are,
and a cell may look like a bar between two columns. -/
namespace SimpleLR.Text

/-- Where a column begins: behind the columns before it, with the bars that follow them. -/
def columnStart (widths : List Nat) (column : Nat) : Nat := (widths.take column).sum + 3 * column

/-- A line has a cell at the places of a column, with nothing but blanks in front. -/
def Shows (widths : List Nat) (line : Text) (column : Nat) (cell : Text) : Prop :=
  ∃ width, widths[column]? = some width ∧ cell.length ≤ width ∧
    (line.drop (columnStart widths column)).take width = List.replicate (width - cell.length) ' ' ++ cell

/-- Lines that show the cells of rows, one line for each row. The columns have their places in all lines, and the
width of a column is that of its longest cell. -/
structure LinedUp (rows : List (List Text)) (widths : List Nat) (lines : List Text) : Prop where
  count : lines.length = rows.length
  columns : ∀ row ∈ rows, row.length = widths.length
  widest : ∀ (column : Nat) width, widths[column]? = some width →
    ∃ row ∈ rows, ∃ cell : Text, row[column]? = some cell ∧ cell.length = width
  length : ∀ line ∈ lines, line.length = widths.sum + 3 * (widths.length - 1)
  bar : ∀ line ∈ lines, ∀ (column : Nat) width, widths[column]? = some width → column + 1 < widths.length →
    (line.drop (columnStart widths column + width)).take 3 = " | "
  shows : ∀ (number : Nat) row line, rows[number]? = some row → lines[number]? = some line →
    ∀ (column : Nat) cell, row[column]? = some cell → Shows widths line column cell

section Places

private theorem columnStart_cons (width : Nat) (widths : List Nat) (column : Nat) :
    columnStart (width :: widths) (column + 1) = width + 3 + columnStart widths column := by
  simp only [columnStart, List.take_succ_cons, List.sum_cons]
  omega

private theorem length_joined_bars (parts : List Text) :
    (joined " | " parts).length = (parts.map List.length).sum + 3 * (parts.length - 1) := by
  induction parts with
  | nil => rfl
  | cons part rest ih =>
    cases rest with
    | nil => simp
    | cons second more =>
      have bar : (" | " : Text).length = 3 := rfl
      rw [joined_cons_cons, List.length_append, List.length_append, bar, ih]
      simp only [List.map_cons, List.sum_cons, List.length_cons]
      omega

theorem drop_joined_bars (part : Text) {rest : List Text} (more : rest ≠ []) (places : Nat) :
    (joined " | " (part :: rest)).drop (part.length + 3 + places) = (joined " | " rest).drop places := by
  obtain ⟨second, others, rfl⟩ := List.exists_cons_of_ne_nil more
  have length : (part ++ (" | " : Text)).length = part.length + 3 := by
    rw [List.length_append]
    rfl
  rw [joined_cons_cons, ← List.drop_drop, ← length, List.drop_left]

/-- A part that stands behind others begins where their lengths and bars end, and a bar follows it unless it is the
last one. -/
private theorem part_of_joined {parts : List Text} {column : Nat} {part : Text} (found : parts[column]? = some part) :
    ((joined " | " parts).drop (columnStart (parts.map List.length) column)).take part.length = part ∧
      (column + 1 < parts.length →
        ((joined " | " parts).drop (columnStart (parts.map List.length) column + part.length)).take 3 = " | ") := by
  induction parts generalizing column with
  | nil => cases found
  | cons first rest ih =>
    cases column with
    | zero =>
      obtain rfl := Option.some.inj found
      have start : columnStart ((first :: rest).map List.length) 0 = 0 := rfl
      simp only [start, List.drop_zero, Nat.zero_add]
      cases rest with
      | nil => simp
      | cons second more =>
        rw [joined_cons_cons, List.append_assoc]
        exact ⟨List.take_left, fun _ => by rw [List.drop_left]; rfl⟩
    | succ column =>
      rw [List.getElem?_cons_succ] at found
      have more : rest ≠ [] := by
        rintro rfl
        cases found
      obtain ⟨own, bar⟩ := ih found
      rw [List.map_cons, columnStart_cons, Nat.add_assoc _ _ part.length, drop_joined_bars first more,
        drop_joined_bars first more]
      exact ⟨own, fun later => bar (Nat.lt_of_succ_lt_succ later)⟩

end Places

/-- A column is as wide as its longest cell. -/
theorem width_spec {rows : List (List Text)} {column width : Nat} (found : (columnWidths rows)[column]? = some width) :
    (∀ row ∈ rows, ∀ cell, row[column]? = some cell → cell.length ≤ width) ∧
      ∃ row ∈ rows, ∃ cell, row[column]? = some cell ∧ cell.length = width := by
  induction rows generalizing width with
  | nil => cases found
  | cons row rest ih =>
    cases rest with
    | nil =>
      rw [columnWidths, List.getElem?_map, Option.map_eq_some_iff] at found
      obtain ⟨cell, here, rfl⟩ := found
      refine ⟨List.forall_mem_singleton.mpr fun other there => ?_, row, List.mem_cons_self, cell, here, rfl⟩
      exact Nat.le_of_eq (congrArg List.length (Option.some.inj (there.symm.trans here)))
    | cons next rest =>
      have both : columnWidths (row :: next :: rest) =
          List.zipWith max (row.map List.length) (columnWidths (next :: rest)) := rfl
      rw [both, List.getElem?_zipWith_eq_some] at found
      obtain ⟨own, others, here, there, rfl⟩ := found
      rw [List.getElem?_map, Option.map_eq_some_iff] at here
      obtain ⟨cell, here, rfl⟩ := here
      -- The longer one of the first cell and the longest cell below it decides.
      obtain ⟨bounds, widest, present, long, inside, same⟩ := ih there
      constructor
      · refine List.forall_mem_cons.mpr ⟨fun other stands => ?_, fun other member long stands => ?_⟩
        · rw [← Option.some.inj (here.symm.trans stands)]
          exact Nat.le_max_left _ _
        · exact Nat.le_trans (bounds other member long stands) (Nat.le_max_right _ _)
      · rcases Nat.le_total cell.length others with less | more
        · exact ⟨widest, List.mem_cons_of_mem row present, long, inside, same.trans (Nat.max_eq_right less).symm⟩
        · exact ⟨row, List.mem_cons_self, cell, here, (Nat.max_eq_left more).symm⟩

variable {rows : List (List Text)} {count : Nat}

private theorem lengths_of_padded {widths : List Nat} {row : List Text} (even : row.length = widths.length)
    (fits : ∀ (column : Nat) cell width, row[column]? = some cell → widths[column]? = some width →
      cell.length ≤ width) :
    (List.zipWith padded widths row).map List.length = widths := by
  refine List.ext_getElem (by simp [even]) fun column first second => ?_
  have bound : column < row.length := by simpa [even] using second
  have short := fits column _ _ (List.getElem?_eq_getElem bound) (List.getElem?_eq_getElem second)
  simpa only [List.getElem_map, List.getElem_zipWith, length_padded] using Nat.max_eq_left short

/-- What a line has in a column, and behind it. -/
theorem field_of_row {widths : List Nat} {row : List Text}
    (lengths : (List.zipWith padded widths row).map List.length = widths) {column width : Nat} {cell : Text}
    (found : widths[column]? = some width) (here : row[column]? = some cell) :
    Shows widths (tableLine widths row) column cell ∧ (column + 1 < widths.length →
      ((tableLine widths row).drop (columnStart widths column + width)).take 3 = " | ") := by
  have part : (List.zipWith padded widths row)[column]? = some (padded width cell) :=
    List.getElem?_zipWith_eq_some.mpr ⟨width, cell, found, here, rfl⟩
  have long : (padded width cell).length = width := by
    rw [← lengths, List.getElem?_map, part] at found
    exact Option.some.inj found
  obtain ⟨field, bar⟩ := part_of_joined part
  rw [lengths, long] at field bar
  have short : cell.length ≤ width := long ▸ length_padded width cell ▸ Nat.le_max_right width cell.length
  refine ⟨⟨width, found, short, field⟩, fun before => bar ?_⟩
  rwa [← lengths, List.length_map] at before

private theorem single_tableLine {widths : List Nat} {row : List Text} (single : ∀ cell ∈ row, '\n' ∉ cell) :
    '\n' ∉ tableLine widths row := by
  intro member
  rcases mem_of_mem_joined member with between | ⟨part, present, inside⟩
  · exact absurd between (by decide)
  · obtain ⟨column, found⟩ := List.mem_iff_getElem?.mp present
    obtain ⟨width, cell, _, there, rfl⟩ := List.getElem?_zipWith_eq_some.mp found
    rcases List.mem_append.mp inside with blank | own
    · exact absurd (List.mem_replicate.mp blank).2 (by decide)
    · exact single cell (List.mem_of_getElem? there) own

/-- The lines of a table show its rows and line up. -/
theorem linedUp_table (nonEmpty : rows ≠ []) (even : ∀ row ∈ rows, row.length = count)
    (single : ∀ row ∈ rows, ∀ cell ∈ row, '\n' ∉ cell) :
    LinedUp rows (columnWidths rows) (pieces (· == '\n') (table rows)) ∧ (columnWidths rows).length = count := by
  have columns := length_columnWidths nonEmpty even
  have lines : pieces (· == '\n') (table rows) = rows.map (tableLine (columnWidths rows)) := by
    apply pieces_joined
    · intro line member
      obtain ⟨row, present, rfl⟩ := List.mem_map.mp member
      exact single_tableLine (single row present)
    · simpa using nonEmpty
  have lengths : ∀ row ∈ rows, (List.zipWith padded (columnWidths rows) row).map List.length = columnWidths rows := by
    intro row member
    apply lengths_of_padded ((even row member).trans columns.symm)
    exact fun column cell width here there => (width_spec there).1 row member cell here
  rw [lines]
  refine ⟨⟨List.length_map _, fun row member => (even row member).trans columns.symm,
    fun column width found => (width_spec found).2, ?_, ?_, ?_⟩, columns⟩
  · intro line member
    obtain ⟨row, present, rfl⟩ := List.mem_map.mp member
    rw [tableLine, length_joined_bars, lengths row present]
    simp [columns, even row present]
  · intro line member column width found before
    obtain ⟨row, present, rfl⟩ := List.mem_map.mp member
    have bound : column < row.length := even row present ▸ columns ▸ (List.getElem?_eq_some_iff.mp found).1
    exact (field_of_row (lengths row present) found (List.getElem?_eq_getElem bound)).2 before
  · intro number row line here there column cell stands
    rw [List.getElem?_map, here] at there
    have present := List.mem_of_getElem? here
    have bound := (List.getElem?_eq_some_iff.mp stands).1
    rw [even row present, ← columns] at bound
    rw [← Option.some.inj there]
    exact (field_of_row (lengths row present) (List.getElem?_eq_getElem bound) stands).1

end SimpleLR.Text
