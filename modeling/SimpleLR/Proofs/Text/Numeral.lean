import SimpleLR.Proofs.Text.Pieces
import SimpleLR.Text.Basic

namespace SimpleLR.Text

private theorem le_ofDigitChars (text : Text) (value : Nat) : value ≤ Nat.ofDigitChars 10 text value := by
  induction text generalizing value with
  | nil => exact Nat.le_refl value
  | cons c rest ih =>
    rw [Nat.ofDigitChars_cons]
    exact Nat.le_trans (by omega) (ih _)

private theorem readDigits_eq {text : Text} {value : Nat} (digits : ∀ c ∈ text, c.isDigit = true)
    (small : value < countLimit) : readDigits value text =
      if Nat.ofDigitChars 10 text value < countLimit then .ok (Nat.ofDigitChars 10 text value)
      else .error .tooLarge := by
  induction text generalizing value with
  | nil => exact (if_pos small).symm
  | cons c rest ih =>
    obtain ⟨own, others⟩ := List.forall_mem_cons.mp digits
    have digit : digit? c = some (c.toNat - '0'.toNat) := if_pos own
    rw [readDigits, digit, Nat.ofDigitChars_cons]
    dsimp only
    split
    · rename_i bound
      exact ih others bound
    · rename_i large
      rw [if_neg fun bound => large (Nat.lt_of_le_of_lt (le_ofDigitChars rest _) bound)]

theorem isDigit_of_mem_ofNat {n : Nat} {c : Char} (member : c ∈ ofNat n) : c.isDigit = true :=
  Nat.isDigit_of_mem_toDigits (by omega) (by omega) member

private theorem readCount_eq_readDigits (n : Nat) : readCount (ofNat n) = readDigits 0 (ofNat n) := by
  have unsigned : '+' ∉ ofNat n := fun member => absurd (isDigit_of_mem_ofNat member) (by decide)
  unfold readCount
  split
  · rename_i empty
    exact absurd empty Nat.toDigits_ne_nil
  · rename_i sign
    exact absurd (by simp [sign]) unsigned
  · rename_i digits _ sign
    exact absurd (by simp [sign]) unsigned
  · rfl

private theorem value_ofNat (n : Nat) : Nat.ofDigitChars 10 (ofNat n) 0 = n := Nat.ofDigitChars_ten_toDigits

/-- The digits of a number are read as that number, or not at all. -/
theorem readCount_ofNat (n : Nat) :
    readCount (ofNat n) = if n < countLimit then .ok n else .error .tooLarge := by
  rw [readCount_eq_readDigits, readDigits_eq (fun _ => isDigit_of_mem_ofNat) (by decide), value_ofNat]

theorem not_blank_of_isDigit {c : Char} (digit : c.isDigit = true) : isBlank c = false := by
  have range : 48 ≤ c.toNat ∧ c.toNat ≤ 57 := by
    simpa [Char.isDigit, UInt32.le_iff_toNat_le] using digit
  simp only [isBlank, blankCodes, List.contains_cons, List.contains_nil, Bool.or_false,
    Bool.or_eq_false_iff, beq_eq_false_iff_ne]
  omega

theorem words_two_numbers (first second : Nat) :
    words (ofNat first ++ " " ++ ofNat second) = [ofNat first, ofNat second] := by
  have solid (n : Nat) : words (ofNat n) = [ofNat n] :=
    words_of_solid Nat.toDigits_ne_nil fun _ member => not_blank_of_isDigit (isDigit_of_mem_ofNat member)
  have cut : ofNat first ++ " " ++ ofNat second = ofNat first ++ ' ' :: ofNat second := by
    rw [List.append_assoc]
    rfl
  rw [cut, words_append_cons _ _ rfl, solid, solid]
  rfl

end SimpleLR.Text
