/-! Text is a list of characters, so that every rule about characters is a rule about lists.
String literals stand for their characters wherever a text is expected. -/
namespace SimpleLR

/-- A text, character by character. -/
abbrev Text := List Char

instance : Coe String Text := ⟨String.toList⟩

namespace Text

/-- The decimal digits of a number, without leading zeros. -/
def ofNat (n : Nat) : Text := Nat.toDigits 10 n

/-- The texts in order with a separator between neighbours. -/
def joined (separator : Text) (parts : List Text) : Text := List.intercalate separator parts

@[simp] theorem joined_nil (separator : Text) : joined separator [] = [] := rfl

@[simp] theorem joined_singleton (separator part : Text) : joined separator [part] = part := by
  simp [joined, List.intercalate]

@[simp] theorem joined_cons_cons (separator first second : Text) (rest : List Text) :
    joined separator (first :: second :: rest) =
      first ++ separator ++ joined separator (second :: rest) := by
  simp [joined, List.intercalate]

section Columns

/-- The text with blanks in front, at least `width` characters long. -/
def padded (width : Nat) (text : Text) : Text := text.leftpad width ' '

@[simp] theorem length_padded (width : Nat) (text : Text) :
    (padded width text).length = max width text.length := by
  simp only [padded, List.leftpad, List.length_append, List.length_replicate]
  omega

/-- The length of the longest cell in each column. -/
def columnWidths : List (List Text) → List Nat
  | [] => []
  | [row] => row.map List.length
  | row :: rows => List.zipWith max (row.map List.length) (columnWidths rows)

/-- One line of a table with the given column widths. -/
def tableLine (widths : List Nat) (row : List Text) : Text :=
  joined " | " (List.zipWith padded widths row)

/-- The rows as lines of one table. All rows have the same number of cells. -/
def table (rows : List (List Text)) : Text :=
  joined "\n" (rows.map (tableLine (columnWidths rows)))

end Columns

section Numeral

/-- Why a word is no count. -/
inductive NumeralError where
  | notADigit
  | tooLarge
  deriving DecidableEq, Repr

/-- Counts are smaller than this. -/
def countLimit : Nat := Nat.pow 2 64

/-- The value of a decimal digit. -/
def digit? (c : Char) : Option Nat := if c.isDigit then some (c.toNat - '0'.toNat) else none

/-- Appends digits to the value read so far. -/
def readDigits (value : Nat) : Text → Except NumeralError Nat
  | [] => .ok value
  | c :: rest =>
    match digit? c with
    | none => .error .notADigit
    | some d =>
      if 10 * value + d < countLimit then readDigits (10 * value + d) rest
      else .error .tooLarge

/-- The count that a word spells. A sign alone, or nothing, spells none. -/
def readCount (word : Text) : Except NumeralError Nat :=
  match word with
  | [] | ['+'] => .error .notADigit
  | '+' :: digits => readDigits 0 digits
  | digits => readDigits 0 digits

end Numeral

end Text

end SimpleLR
