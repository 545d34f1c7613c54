import SimpleLR.Text.Basic

namespace SimpleLR.Text

/-- Whether the first text stands before the second or is equal to it. A text stands before its
continuations. -/
def atMost : Text → Text → Bool
  | [], _ => true
  | _ :: _, [] => false
  | c :: first, d :: second =>
    decide (c.toNat < d.toNat) || c.toNat == d.toNat && atMost first second

private theorem atMost_total (first second : Text) : (atMost first second || atMost second first) = true := by
  induction first generalizing second with
  | nil => rfl
  | cons c first ih =>
    cases second with
    | nil => simp [atMost]
    | cons d second =>
      rcases Nat.lt_trichotomy c.toNat d.toNat with less | same | more
      · simp [atMost, less]
      · simpa [atMost, same] using ih second
      · simp [atMost, more]

private theorem atMost_trans (first second third : Text) (below : atMost first second = true)
    (above : atMost second third = true) : atMost first third = true := by
  induction first generalizing second third with
  | nil => rfl
  | cons c first ih =>
    cases second with
    | nil => simp [atMost] at below
    | cons d second =>
      cases third with
      | nil => simp [atMost] at above
      | cons e third =>
        have smaller := ih second third
        simp only [atMost, Bool.or_eq_true, Bool.and_eq_true, decide_eq_true_eq, beq_iff_eq] at *
        rcases below with below | ⟨same, below⟩ <;> rcases above with above | ⟨equal, above⟩
        · exact .inl (by omega)
        · exact .inl (by omega)
        · exact .inl (by omega)
        · exact .inr ⟨same.trans equal, smaller below above⟩

/-- The names in ascending order. A name that is listed twice stays twice. -/
def sorted (names : List Text) : List Text := names.mergeSort atMost

theorem pairwise_sorted (names : List Text) :
    (sorted names).Pairwise fun first second => atMost first second = true :=
  List.pairwise_mergeSort atMost_trans atMost_total names

@[simp] theorem mem_sorted {names : List Text} {name : Text} : name ∈ sorted names ↔ name ∈ names :=
  List.mem_mergeSort

end SimpleLR.Text
