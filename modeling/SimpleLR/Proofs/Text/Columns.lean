import SimpleLR.Proofs.Result
import SimpleLR.Text.Basic

namespace SimpleLR

/-- The value at a place of a list, or the number of the place if the list is too short. -/
def lookUp {α : Type} (list : List α) (index : Nat) : Except Nat α :=
  match list[index]? with
  | some value => .ok value
  | none => .error index

theorem lookUp_eq_ok {α : Type} {list : List α} {index : Nat} {value : α} :
    lookUp list index = .ok value ↔ list[index]? = some value := by
  unfold lookUp
  cases list[index]? <;> simp

namespace Text

variable {rows : List (List Text)} {count : Nat}

/-- The rows as lines of one table, with the number of columns of the first row, where each cell and each
width is looked up by the number of its column. -/
def tableByNumbers (rows : List (List Text)) : Except Nat Text := do
  let first ← lookUp rows 0
  let widths ← (List.range first.length).mapM fun column => do
    let cells ← rows.mapM (lookUp · column)
    return (cells.map List.length).foldr max 0
  let lines ← rows.mapM fun row => do
    let cells ← row.zipIdx.mapM fun (cell, column) => do return padded (← lookUp widths column) cell
    return joined " | " cells
  return joined "\n" lines

theorem length_columnWidths (nonEmpty : rows ≠ []) (even : ∀ row ∈ rows, row.length = count) :
    (columnWidths rows).length = count := by
  induction rows with
  | nil => exact absurd rfl nonEmpty
  | cons row rest ih =>
    have own := even row List.mem_cons_self
    cases rest with
    | nil => rw [columnWidths, List.length_map, own]
    | cons next rest =>
      have others := ih (List.cons_ne_nil next rest) fun other member => even other (List.mem_cons_of_mem row member)
      rw [columnWidths, List.length_zipWith, List.length_map, own, others, Nat.min_self]
      exact List.cons_ne_nil next rest

private theorem width_of_column (nonEmpty : rows ≠ []) (even : ∀ row ∈ rows, row.length = count) {column : Nat}
    (bound : column < count) : ∃ cells, rows.mapM (lookUp · column) = .ok cells ∧
      (columnWidths rows)[column]? = .some ((cells.map List.length).foldr max 0) := by
  induction rows with
  | nil => exact absurd rfl nonEmpty
  | cons row rest ih =>
    have here := List.getElem?_eq_getElem (even row List.mem_cons_self ▸ bound)
    have found : lookUp row column = .ok _ := lookUp_eq_ok.mpr here
    cases rest with
    | nil =>
      refine ⟨[_], Result.mapM_eq_ok.mpr (.cons found .nil), ?_⟩
      rw [columnWidths, List.getElem?_map, here]
      simp
    | cons next rest =>
      obtain ⟨cells, others, width⟩ := ih (List.cons_ne_nil next rest)
        fun other member => even other (List.mem_cons_of_mem row member)
      refine ⟨_ :: cells, Result.mapM_eq_ok.mpr (.cons found (Result.mapM_eq_ok.mp others)), ?_⟩
      rw [columnWidths, List.getElem?_zipWith, List.getElem?_map, here, width]
      · rfl
      · exact List.cons_ne_nil next rest

private theorem padded_of_row {widths : List Nat} {row : List Text} (even : row.length = widths.length) :
    (row.zipIdx.mapM fun (cell, column) => do return padded (← lookUp widths column) cell) =
      .ok (List.zipWith padded widths row) := by
  rw [Result.mapM_eq_ok, List.forall₂_iff_get]
  refine ⟨by simp [even], fun index bound bound' => ?_⟩
  have inside : index < row.length := by simpa using bound
  have found : lookUp widths index = .ok widths[index] :=
    lookUp_eq_ok.mpr (List.getElem?_eq_getElem (even ▸ inside))
  simp only [List.get_eq_getElem, List.getElem_zipIdx, List.getElem_zipWith, Nat.zero_add, found]
  rfl

/-- If all rows have as many cells, nothing is looked up that is not there. -/
theorem tableByNumbers_eq (nonEmpty : rows ≠ []) (even : ∀ row ∈ rows, row.length = count) :
    tableByNumbers rows = .ok (table rows) := by
  obtain ⟨first, rest, rfl⟩ := List.exists_cons_of_ne_nil nonEmpty
  have length := length_columnWidths nonEmpty even
  refine Result.bind_eq_ok.mpr ⟨first, lookUp_eq_ok.mpr rfl, ?_⟩
  rw [even first List.mem_cons_self]
  refine Result.bind_eq_ok.mpr ⟨columnWidths (first :: rest), ?_, Result.bind_eq_ok.mpr
    ⟨(first :: rest).map (tableLine (columnWidths (first :: rest))), ?_, rfl⟩⟩
  · rw [Result.mapM_eq_ok, List.forall₂_iff_get]
    refine ⟨by simp [length], fun column bound bound' => ?_⟩
    obtain ⟨cells, found, width⟩ := width_of_column nonEmpty even (by simpa using bound)
    refine Result.bind_eq_ok.mpr ⟨cells, by simpa using found, ?_⟩
    rw [List.getElem?_eq_getElem bound'] at width
    exact congrArg Except.ok (Option.some.inj width).symm
  · rw [Result.mapM_eq_ok, List.forall₂_map_right_iff]
    refine List.forall₂_same.mpr fun row member => ?_
    exact Result.bind_eq_ok.mpr ⟨_, padded_of_row ((even row member).trans length.symm), rfl⟩

/-- A row that is too short is missed in the column that it does not have. -/
example : tableByNumbers [["S", "a"], ["T"]] = .error 1 := rfl

end Text

end SimpleLR
