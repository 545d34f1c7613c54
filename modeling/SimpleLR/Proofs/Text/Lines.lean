import SimpleLR.Proofs.Text.Pieces
import SimpleLR.Text.Pieces

namespace SimpleLR.Text

/-- Lines that all end with a line feed. A carriage return at the end of a line belongs to its end. -/
def ended (list : List Text) : Text := list.flatMap (· ++ ['\n'])

theorem withoutReturn_of_ne {line : Text} (open' : line.getLast? ≠ some '\r') :
    withoutReturn line = line := if_neg open'

theorem words_withoutReturn (line : Text) : words (withoutReturn line) = words line := by
  unfold withoutReturn
  split
  · rename_i last
    obtain ⟨rest, rfl⟩ := List.getLast?_eq_some_iff.mp last
    rw [List.dropLast_concat, words_append_of_blank rest rfl]
  · rfl

theorem allBlank_withoutReturn (line : Text) : allBlank (withoutReturn line) = allBlank line := by
  rw [Bool.eq_iff_iff, ← words_eq_nil, ← words_eq_nil, words_withoutReturn]

theorem withoutReturn_append_cons (before behind : Text) {c : Char} (apart : c ≠ '\r') :
    withoutReturn (before ++ c :: behind) = before ++ c :: withoutReturn behind := by
  rcases List.eq_nil_or_concat behind with rfl | ⟨rest, last, rfl⟩
  · exact withoutReturn_of_ne (by simpa using apart)
  · have cut : before ++ c :: (rest ++ [last]) = (before ++ c :: rest) ++ [last] := by simp
    rw [List.concat_eq_append, cut, withoutReturn, withoutReturn, List.getLast?_concat, List.getLast?_concat,
      List.dropLast_concat, List.dropLast_concat]
    split
    · rfl
    · exact cut.symm

theorem prefix_withoutReturn (line : Text) : withoutReturn line <+: line := by
  unfold withoutReturn
  split
  · exact List.dropLast_prefix line
  · exact List.prefix_rfl

theorem trimmed_withoutReturn (line : Text) : trimmed (withoutReturn line) = trimmed line := by
  unfold withoutReturn
  split
  · rename_i last
    obtain ⟨rest, rfl⟩ := List.getLast?_eq_some_iff.mp last
    rw [List.dropLast_concat, trimmed_concat rest rfl]
  · rfl

private theorem lines_of_single {line : Text} (single : '\n' ∉ line) :
    lines line = if line.isEmpty then [] else [line] := by
  rw [lines, pieces_of_not_mem single]
  cases line <;> rfl

theorem lines_append_cons {line : Text} (single : '\n' ∉ line) (rest : Text) :
    lines (line ++ '\n' :: rest) = withoutReturn line :: lines rest := by
  obtain ⟨first, others, found⟩ := List.exists_cons_of_ne_nil (pieces_ne_nil (· == '\n') rest)
  rw [lines, lines, pieces_append_cons line rest (by rfl), pieces_of_not_mem single, found]
  simp [List.getLast?_cons_cons]

theorem lines_ended_append {list : List Text} (single : ∀ line ∈ list, '\n' ∉ line) (rest : Text) :
    lines (ended list ++ rest) = list.map withoutReturn ++ lines rest := by
  induction list with
  | nil => rfl
  | cons line more ih =>
    obtain ⟨own, others⟩ := List.forall_mem_cons.mp single
    have cut : ended (line :: more) ++ rest = line ++ '\n' :: (ended more ++ rest) := by simp [ended]
    rw [cut, lines_append_cons own, ih others]
    rfl

/-- A text joined from lines with line feeds has those lines, unless the last one is empty. -/
theorem lines_joined {list : List Text}
    (single : ∀ line ∈ list, '\n' ∉ line ∧ line.getLast? ≠ some '\r')
    (filled : ∀ line ∈ list, line ≠ []) : lines (joined "\n" list) = list := by
  induction list with
  | nil => rfl
  | cons line more ih =>
    obtain ⟨⟨own, open'⟩, others⟩ := List.forall_mem_cons.mp single
    obtain ⟨some, later⟩ := List.forall_mem_cons.mp filled
    cases more with
    | nil =>
      rw [joined_singleton, lines_of_single own]
      simp [some]
    | cons second rest =>
      have cut : joined "\n" (line :: second :: rest) = line ++ '\n' :: joined "\n" (second :: rest) := by
        rw [joined_cons_cons, List.append_assoc]
        rfl
      rw [cut, lines_append_cons own, withoutReturn_of_ne open', ih others later]

section Numbers

/-- Lines with numbers from a start on. -/
def numbered (start : Nat) (lines : List Text) : List (Nat × Text) :=
  (lines.zipIdx start).map fun (line, number) => (number, line)

theorem numberedLines_eq (text : Text) : numberedLines text = numbered 1 (lines text) := rfl

theorem numbered_cons (start : Nat) (line : Text) (rest : List Text) :
    numbered start (line :: rest) = (start, line) :: numbered (start + 1) rest := rfl

theorem map_snd_numbered (start : Nat) (lines : List Text) : (numbered start lines).map Prod.snd = lines := by
  rw [numbered, List.map_map]
  exact List.zipIdx_map_fst start lines

/-- The first line that is not blank, with its number. -/
theorem dropWhile_numbered {before behind : List Text} {line : Text}
    (blank : ∀ line ∈ before, allBlank line = true) (filled : allBlank line = false) (start : Nat) :
    (numbered start (before ++ line :: behind)).dropWhile (fun (_, line) => allBlank line) =
      (start + before.length, line) :: numbered (start + before.length + 1) behind := by
  induction before generalizing start with
  | nil => simp [numbered_cons, filled]
  | cons first rest ih =>
    obtain ⟨own, others⟩ := List.forall_mem_cons.mp blank
    have next : start + 1 + rest.length = start + (rest.length + 1) := by omega
    rw [List.cons_append, numbered_cons, List.dropWhile_cons, if_pos own, ih others, List.length_cons, next]

theorem length_numbered (start : Nat) (lines : List Text) : (numbered start lines).length = lines.length := by
  rw [numbered, List.length_map, List.length_zipIdx]

theorem map_snd_numberedLines (text : Text) : (numberedLines text).map Prod.snd = lines text :=
  map_snd_numbered 1 (lines text)

theorem number_of_numberedLines {text line : Text} {number : Nat} {earlier later : List (Nat × Text)}
    (cut : numberedLines text = earlier ++ (number, line) :: later) : number = earlier.length + 1 := by
  have here := congrArg (·[earlier.length]?) cut
  simp only [numberedLines, List.getElem?_map, List.getElem?_zipIdx, List.getElem?_append_right,
    Nat.le_refl, Nat.sub_self, List.getElem?_cons_zero, Option.map_map] at here
  obtain ⟨line', _, same⟩ := Option.map_eq_some_iff.mp here
  simp only [Function.comp, Prod.mk.injEq] at same
  omega

end Numbers

end SimpleLR.Text
