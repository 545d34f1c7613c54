import SimpleLR.Markup.Html
import SimpleLR.Markup.Tex
import SimpleLR.Proofs.Text.Pieces

/-! What is known of the escaping that the library `crowbook-text-processing` does. In HTML an escaped text has no angle
brackets, and every ampersand starts an entity. In TeX each character is written by a text of its own, none of which
begins another one, and of the characters behind it only a hyphen matters to a hyphen. So texts are escaped part by
part where blanks stand between the parts, and two texts that are escaped to the same are the same. -/
namespace SimpleLR

namespace Html

private theorem escapeChar_of_isAlpha {c : Char} (letter : c.isAlpha = true) : escapeChar c = [c] := by
  have other {d : Char} (plain : d.isAlpha = false) : c ≠ d := fun same => by simp [same, plain] at letter
  have shown : ¬ c.toNat < 0x20 := by
    intro small
    have controls : ∀ code < 0x20, (Char.ofNat code).isAlpha = false := by decide
    have own := controls c.toNat small
    rw [Char.ofNat_toNat, letter] at own
    cases own
  rw [escapeChar, if_neg (by simp [other]), if_neg (by simp [other]), if_neg (by simp [other]),
    if_neg (by simp [shown])]

/-- Letters stand as they are. -/
theorem escape_of_letters {text : Text} (letters : text.all Char.isAlpha = true) : escape text = text := by
  induction text with
  | nil => rfl
  | cons c rest ih =>
    obtain ⟨own, others⟩ := Bool.and_eq_true_iff.mp letters
    rw [escape, List.flatMap_cons, escapeChar_of_isAlpha own, ← escape, ih others, List.singleton_append]

/-- What stands behind the ampersand of an entity. -/
def entityNames : List Text := ["lt;", "gt;", "amp;"]

/-- A character is written as an entity, or it has no meaning in HTML and is at most written as it stands. -/
private theorem escapeChar_cases (c : Char) : (∃ name ∈ entityNames, escapeChar c = '&' :: name) ∨
    (∀ d ∈ escapeChar c, d = c) ∧ c ≠ '<' ∧ c ≠ '>' ∧ c ≠ '&' := by
  unfold escapeChar
  by_cases less : c = '<'
  · exact .inl ⟨"lt;", by decide, if_pos (beq_iff_eq.mpr less)⟩
  by_cases greater : c = '>'
  · exact .inl ⟨"gt;", by decide, by simp [greater]⟩
  by_cases ampersand : c = '&'
  · exact .inl ⟨"amp;", by decide, by simp [ampersand]⟩
  refine .inr ⟨fun d member => ?_, less, greater, ampersand⟩
  simp only [beq_iff_eq, less, greater, ampersand, if_false] at member
  split at member
  · cases member
  · exact List.mem_singleton.mp member

/-- An escaped text has no tags. -/
theorem not_mem_escape {text : Text} {c : Char} (angle : c = '<' ∨ c = '>') : c ∉ escape text := by
  intro member
  obtain ⟨d, _, inside⟩ := List.mem_flatMap.mp member
  rcases escapeChar_cases d with ⟨name, known, same⟩ | ⟨alone, less, greater, _⟩
  · have free : ∀ name ∈ entityNames, '<' ∉ '&' :: name ∧ '>' ∉ '&' :: name := by decide
    rw [same] at inside
    rcases angle with rfl | rfl
    · exact (free name known).1 inside
    · exact (free name known).2 inside
  · obtain rfl := alone c inside
    exact angle.elim less greater

/-- Every ampersand of a text starts an entity. -/
def EntitiesOnly (text : Text) : Prop :=
  ∀ after, '&' :: after <:+ text → ∃ name ∈ entityNames, name <+: after

namespace EntitiesOnly

theorem nil : EntitiesOnly [] := by
  intro after suffix
  simp at suffix

theorem append {first second : Text} (plain : '&' ∉ first) (behind : EntitiesOnly second) :
    EntitiesOnly (first ++ second) := by
  induction first with
  | nil => exact behind
  | cons c rest ih =>
    intro after suffix
    rcases List.suffix_cons_iff.mp suffix with whole | later
    · exact absurd (List.cons.inj whole).1 fun same => plain (same ▸ List.mem_cons_self)
    · exact ih (fun member => plain (List.mem_cons_of_mem c member)) after later

theorem entity {name rest : Text} (known : name ∈ entityNames) (behind : EntitiesOnly rest) :
    EntitiesOnly ('&' :: (name ++ rest)) := by
  have plain : '&' ∉ name := by
    revert known
    revert name
    decide
  intro after suffix
  rcases List.suffix_cons_iff.mp suffix with whole | later
  · exact ⟨name, known, (List.cons.inj whole).2 ▸ List.prefix_append name rest⟩
  · exact append plain behind after later

end EntitiesOnly

theorem EntitiesOnly.escape (text : Text) {rest : Text} (behind : EntitiesOnly rest) :
    EntitiesOnly (Html.escape text ++ rest) := by
  induction text with
  | nil => exact behind
  | cons c text ih =>
    rw [Html.escape, List.flatMap_cons, List.append_assoc]
    rcases escapeChar_cases c with ⟨name, known, same⟩ | ⟨alone, _, _, plain⟩
    · rw [same]
      exact .entity known ih
    · exact .append (fun member => plain (alone '&' member).symm) ih

end Html

namespace Tex

section Characters

/-- The characters that are not written as they stand. -/
def special : Text := ['&', '%', '$', '#', '_', '{', '}', '[', ']', '~', '^', '<', '>', '!', '\\']

theorem forall_special {P : Char → Prop} [DecidablePred P] (checked : special.all fun c => decide (P c)) :
    ∀ c ∈ special, P c :=
  fun c inside => of_decide_eq_true (List.all_eq_true.mp checked c inside)

theorem escapeChar_of_plain {c : Char} (plain : c ∉ special) : escapeChar c = [c] := by
  unfold escapeChar
  split <;> first | rfl | exact absurd (by decide) plain

/-- No character is written by the beginning of what writes another one. -/
theorem eq_of_begins {c d : Char} (begins : escapeChar c <+: escapeChar d) : c = d := by
  by_cases first : c ∈ special <;> by_cases second : d ∈ special
  · have apart : ∀ c ∈ special, special.all fun d => escapeChar c <+: escapeChar d → c = d :=
      forall_special (by decide +kernel)
    exact forall_special (apart c first) d second begins
  · have long : ∀ c ∈ special, 2 ≤ (escapeChar c).length := forall_special (by decide)
    have short := begins.length_le
    rw [escapeChar_of_plain second] at short
    exact absurd (long c first) (Nat.not_le.mpr (Nat.lt_succ_of_le short))
  · have heads : ∀ d ∈ special, (escapeChar d).head?.all (· ∈ special) := forall_special (by decide)
    have head := heads d second
    rw [escapeChar_of_plain first] at begins
    obtain ⟨rest, same⟩ := begins
    rw [← same] at head
    exact absurd (of_decide_eq_true head) first
  · rw [escapeChar_of_plain first, escapeChar_of_plain second] at begins
    exact (List.cons_prefix_cons.mp begins).1

end Characters

/-- How a character is written in front of another one. -/
def lead (c : Char) (next : Option Char) : Text :=
  if c = '-' ∧ next = some '-' then "-\x7b\x7d" else escapeChar c

theorem escape_cons (c : Char) (rest : Text) : escape (c :: rest) = lead c rest.head? ++ escape rest := by
  by_cases hyphen : c = '-'
  · subst hyphen
    match rest with
    | [] => rfl
    | d :: rest =>
      by_cases again : d = '-'
      · subst again
        rfl
      · simp [escape, lead, again]
  · rw [lead, if_neg fun both => hyphen both.1, escape]
    · rintro rfl
      exact (hyphen rfl).elim
    · rintro _ rfl
      exact (hyphen rfl).elim

private theorem escapeChar_prefix_lead (c : Char) (next : Option Char) : escapeChar c <+: lead c next := by
  unfold lead
  split
  · rename_i hyphens
    obtain ⟨rfl, -⟩ := hyphens
    decide
  · exact List.prefix_rfl

theorem escape_of_plain {text : Text} (plain : text.all fun c => decide (c ∉ special) && c != '-') :
    escape text = text := by
  induction text with
  | nil => rfl
  | cons c rest ih =>
    obtain ⟨own, others⟩ := Bool.and_eq_true_iff.mp plain
    obtain ⟨unlisted, apart⟩ : c ∉ special ∧ c ≠ '-' := by simpa using own
    rw [escape_cons, lead, if_neg fun both => apart both.1, escapeChar_of_plain unlisted, ih others,
      List.singleton_append]

theorem escapeChar_prefix_escape (c : Char) (rest : Text) : escapeChar c <+: escape (c :: rest) := by
  rw [escape_cons]
  exact (escapeChar_prefix_lead c rest.head?).trans (List.prefix_append _ _)

/-- A hyphen is the only character that looks ahead, and it looks for a hyphen. -/
theorem escape_append (before : Text) {behind : Text} (apart : behind.head? ≠ some '-') :
    escape (before ++ behind) = escape before ++ escape behind := by
  induction before with
  | nil => rfl
  | cons c before ih =>
    have same : lead c (before ++ behind).head? = lead c before.head? := by
      cases before with
      | nil => simp [lead, apart]
      | cons d before => rfl
    rw [List.cons_append, escape_cons, escape_cons, same, ih, List.append_assoc]

theorem escape_joined (names : List Text) :
    escape (Text.joined " " names) = Text.joined " " (names.map escape) := by
  induction names with
  | nil => rfl
  | cons name rest ih =>
    cases rest with
    | nil => simp
    | cons second more =>
      have blank (text : Text) : escape (name ++ " " ++ text) = escape name ++ " " ++ escape text := by
        rw [List.append_assoc, escape_append name (by simp), List.append_assoc]
        rfl
      rw [Text.joined_cons_cons, blank, ih]
      simp

section Members

variable {d : Char} (plain : d ∉ special) (apart : special.all fun c => d ∉ escapeChar c)
include plain apart

private theorem mem_escapeChar {c : Char} : d ∈ escapeChar c ↔ d = c := by
  by_cases other : c ∈ special
  · refine iff_of_false (forall_special apart c other) ?_
    rintro rfl
    exact plain other
  · rw [escapeChar_of_plain other, List.mem_singleton]

/-- A character that writes no other one is found where it was. -/
theorem mem_escape {text : Text} : d ∈ escape text ↔ d ∈ text := by
  induction text with
  | nil => rfl
  | cons c rest ih =>
    have own : d ∈ lead c rest.head? ↔ d = c := by
      unfold lead
      split
      · rename_i hyphens
        obtain ⟨rfl, -⟩ := hyphens
        have opens : d ≠ '{' := fun same => plain (same ▸ by decide)
        have closes : d ≠ '}' := fun same => plain (same ▸ by decide)
        simp [opens, closes]
      · exact mem_escapeChar plain apart
    rw [escape_cons, List.mem_append, own, ih, List.mem_cons]

end Members

theorem epsilon_mem_escape {text : Text} : 'ε' ∈ escape text ↔ 'ε' ∈ text :=
  mem_escape (by decide) (by decide)

section Injective

/-- No text is escaped to one that begins with an empty group. -/
theorem not_group_prefix_escape (text : Text) : ¬ ['{', '}'] <+: escape text := by
  intro begins
  cases text with
  | nil => exact absurd begins (by decide)
  | cons c rest =>
    have written := escapeChar_prefix_escape c rest
    by_cases other : c ∈ special
    · have free : ∀ c ∈ special, ¬ ['{', '}'] <+: escapeChar c ∧ 2 ≤ (escapeChar c).length :=
        forall_special (by decide)
      obtain ⟨apart, long⟩ := free c other
      exact apart (List.prefix_of_prefix_length_le begins written long)
    · rw [escapeChar_of_plain other] at written
      have same := List.prefix_of_prefix_length_le written begins (Nat.le_succ 1)
      obtain rfl : c = '{' := (List.cons_prefix_cons.mp same).1
      exact other (by decide)

private theorem cons_eq_of_escape {c d : Char} {first second : Text}
    (same : escape (c :: first) = escape (d :: second)) :
    c = d ∧ escape first = escape second := by
  obtain rfl : c = d := by
    have left := escapeChar_prefix_escape c first
    have right := escapeChar_prefix_escape d second
    rw [same] at left
    rcases List.prefix_or_prefix_of_prefix left right with begins | begins
    · exact eq_of_begins begins
    · exact (eq_of_begins begins).symm
  refine ⟨rfl, ?_⟩
  rw [escape_cons, escape_cons, lead, lead] at same
  -- What follows a hyphen is told from the group behind it, which no text begins with.
  split at same <;> split at same
  · exact List.append_cancel_left same
  · rename_i hyphens _
    obtain ⟨rfl, -⟩ := hyphens
    exact absurd ⟨escape first, (List.cons.inj same).2⟩ (not_group_prefix_escape second)
  · rename_i _ hyphens
    obtain ⟨rfl, -⟩ := hyphens
    exact absurd ⟨escape second, (List.cons.inj same).2.symm⟩ (not_group_prefix_escape first)
  · exact List.append_cancel_left same

theorem escape_injective : Function.Injective escape := by
  intro first second same
  have filled (c : Char) (rest : Text) : escape (c :: rest) ≠ [] := by
    intro empty
    have begins := escapeChar_prefix_escape c rest
    rw [empty, List.prefix_nil] at begins
    unfold escapeChar at begins
    split at begins <;> cases begins
  induction first generalizing second with
  | nil =>
    cases second with
    | nil => rfl
    | cons d second => exact absurd same.symm (filled d second)
  | cons c first ih =>
    cases second with
    | nil => exact absurd same (filled c first)
    | cons d second =>
      obtain ⟨rfl, others⟩ := cons_eq_of_escape same
      rw [ih others]

end Injective

end Tex

end SimpleLR
