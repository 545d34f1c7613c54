import SimpleLR.Text.Basic

namespace SimpleLR.Text

/-- The code points with the Unicode property `White_Space`, in ascending order. -/
def blankCodes : List Nat :=
  [0x9, 0xA, 0xB, 0xC, 0xD, 0x20, 0x85, 0xA0, 0x1680, 0x2000, 0x2001, 0x2002, 0x2003, 0x2004,
   0x2005, 0x2006, 0x2007, 0x2008, 0x2009, 0x200A, 0x2028, 0x2029, 0x202F, 0x205F, 0x3000]

def isBlank (c : Char) : Bool := blankCodes.contains c.toNat

/-- A line that holds white space only, or nothing. -/
def allBlank (text : Text) : Bool := text.all isBlank

/-- The text without the white space at its two ends. -/
def trimmed (text : Text) : Text :=
  ((text.dropWhile isBlank).reverse.dropWhile isBlank).reverse

/-- The pieces of a text between the characters that are marks, empty pieces included:
there is one piece more than there are marks. -/
def pieces (isMark : Char → Bool) : Text → List Text
  | [] => [[]]
  | c :: rest =>
    if isMark c then [] :: pieces isMark rest
    else (pieces isMark rest).modifyHead (c :: ·)

/-- The longest runs without white space, in order. -/
def words (text : Text) : List Text := (pieces isBlank text).filter (!·.isEmpty)

theorem length_pieces (isMark : Char → Bool) (text : Text) :
    (pieces isMark text).length = text.countP isMark + 1 := by
  induction text with
  | nil => rfl
  | cons c rest ih =>
    by_cases mark : isMark c <;> simp [pieces, mark, ih]

theorem not_isMark_of_mem_pieces {isMark : Char → Bool} {text piece : Text} {c : Char}
    (member : piece ∈ pieces isMark text) (inside : c ∈ piece) : isMark c = false := by
  induction text generalizing piece with
  | nil => simp [pieces] at member; simp [member] at inside
  | cons d rest ih =>
    by_cases mark : isMark d
    · simp only [pieces, mark, if_true, List.mem_cons] at member
      rcases member with rfl | later
      · simp at inside
      · exact ih later inside
    · simp only [pieces, mark, Bool.false_eq_true, if_false] at member
      cases found : pieces isMark rest with
      | nil => simp [found] at member
      | cons head more =>
        simp only [found, List.modifyHead_cons, List.mem_cons] at member
        rcases member with rfl | later
        · rcases List.mem_cons.mp inside with rfl | inner
          · simpa using mark
          · exact ih (by simp [found]) inner
        · exact ih (by simp [found, later]) inside

theorem mem_words {text word : Text} (member : word ∈ words text) :
    word ≠ [] ∧ ∀ c ∈ word, isBlank c = false := by
  simp only [words, List.mem_filter, Bool.not_eq_true', List.isEmpty_eq_false_iff] at member
  exact ⟨member.2, fun _ inside => not_isMark_of_mem_pieces member.1 inside⟩

section Cut

/-- The parts of a text between its arrows `->`, read from left to right. -/
def arrowParts : Text → List Text
  | '-' :: '>' :: rest => [] :: arrowParts rest
  | c :: rest => (arrowParts rest).modifyHead (c :: ·)
  | [] => [[]]

/-- The parts of a text between its bars `|`. -/
def barParts (text : Text) : List Text := pieces (· == '|') text

/-- What stands before and after the first occurrence of `mark`. -/
def cut? (mark : Text) : Text → Option (Text × Text)
  | [] => if mark.isEmpty then some ([], []) else none
  | c :: rest =>
    if mark.isPrefixOf (c :: rest) then some ([], (c :: rest).drop mark.length)
    else (cut? mark rest).map fun (before, after) => (c :: before, after)

theorem eq_of_cut? {mark text before after : Text} (found : cut? mark text = some (before, after)) :
    text = before ++ mark ++ after := by
  induction text generalizing before with
  | nil =>
    by_cases empty : mark.isEmpty <;> simp_all [cut?]
  | cons c rest ih =>
    by_cases start : mark.isPrefixOf (c :: rest)
    · simp only [cut?, start, if_true, Option.some.injEq, Prod.mk.injEq] at found
      obtain ⟨rfl, rfl⟩ := found
      obtain ⟨tail, same⟩ := List.isPrefixOf_iff_prefix.mp start
      simp [← same]
    · simp only [cut?, start, Bool.false_eq_true, if_false, Option.map_eq_some_iff] at found
      obtain ⟨⟨left, right⟩, inner, same⟩ := found
      simp only [Prod.mk.injEq] at same
      obtain ⟨rfl, rfl⟩ := same
      simp [ih inner]

end Cut

section Lines

/-- The text without one carriage return at its end. -/
def withoutReturn (line : Text) : Text :=
  if line.getLast? = some '\r' then line.dropLast else line

/-- The lines of a text. What follows the last line feed is a line only if it is not empty. -/
def lines (text : Text) : List Text :=
  let parts := pieces (· == '\n') text
  parts.dropLast.map withoutReturn ++ (parts.getLast?.toList.filter (!·.isEmpty))

/-- The lines with their numbers, counted from one. -/
def numberedLines (text : Text) : List (Nat × Text) :=
  (lines text).zipIdx 1 |>.map fun (line, number) => (number, line)

end Lines

end SimpleLR.Text
