import SimpleLR.Text.Pieces

namespace SimpleLR.Text

section Pieces

theorem pieces_eq_splitOnP (isMark : Char → Bool) (text : Text) :
    pieces isMark text = text.splitOnP isMark := by
  induction text with
  | nil => rfl
  | cons c rest ih => rw [pieces, List.splitOnP_cons_eq_if_modifyHead, ih]

theorem pieces_ne_nil (isMark : Char → Bool) (text : Text) : pieces isMark text ≠ [] := by
  rw [pieces_eq_splitOnP]
  exact List.splitOnP_ne_nil isMark text

theorem pieces_append_cons {isMark : Char → Bool} (before behind : Text) {mark : Char}
    (separates : isMark mark = true) :
    pieces isMark (before ++ mark :: behind) = pieces isMark before ++ pieces isMark behind := by
  simp only [pieces_eq_splitOnP, List.splitOnP_append_cons before behind separates]

theorem pieces_of_forall {isMark : Char → Bool} {text : Text} (free : ∀ c ∈ text, isMark c = false) :
    pieces isMark text = [text] := by
  rw [pieces_eq_splitOnP, List.splitOnP_eq_singleton free]

theorem pieces_of_not_mem {mark : Char} {text : Text} (free : mark ∉ text) :
    pieces (· == mark) text = [text] := by
  apply pieces_of_forall
  intro c member
  rw [beq_eq_false_iff_ne]
  rintro rfl
  exact free member

theorem pieces_joined {mark : Char} {parts : List Text} (free : ∀ part ∈ parts, mark ∉ part)
    (nonEmpty : parts ≠ []) : pieces (· == mark) (joined [mark] parts) = parts := by
  rw [pieces_eq_splitOnP]
  exact List.splitOn_intercalate mark free nonEmpty

theorem joined_pieces (mark : Char) (text : Text) : joined [mark] (pieces (· == mark) text) = text := by
  rw [pieces_eq_splitOnP]
  exact List.intercalate_splitOn mark

private theorem pieces_eq_cons (isMark : Char → Bool) (text : Text) : ∃ first others,
    pieces isMark text = first :: others ∧ first <+: text ∧ ∀ piece ∈ others, piece <:+: text := by
  induction text with
  | nil => exact ⟨[], [], rfl, List.prefix_rfl, by simp⟩
  | cons c rest ih =>
    obtain ⟨first, others, found, begins, inside⟩ := ih
    have within : ∀ {piece : Text}, piece <:+: rest → piece <:+: c :: rest :=
      fun inner => inner.trans (List.suffix_cons c rest).isInfix
    rw [pieces, found]
    split
    · refine ⟨[], first :: others, rfl, List.nil_prefix, fun piece member => ?_⟩
      rcases List.mem_cons.mp member with rfl | later
      · exact within begins.isInfix
      · exact within (inside piece later)
    · exact ⟨c :: first, others, rfl, List.cons_prefix_cons.mpr ⟨rfl, begins⟩,
        fun piece member => within (inside piece member)⟩

theorem infix_of_mem_pieces {isMark : Char → Bool} {text piece : Text}
    (member : piece ∈ pieces isMark text) : piece <:+: text := by
  obtain ⟨first, others, found, begins, inside⟩ := pieces_eq_cons isMark text
  rw [found] at member
  rcases List.mem_cons.mp member with rfl | later
  · exact begins.isInfix
  · exact inside piece later

end Pieces

section Joining

theorem mem_of_mem_joined {separator : Text} {parts : List Text} {c : Char} (member : c ∈ joined separator parts) :
    c ∈ separator ∨ ∃ part ∈ parts, c ∈ part := by
  induction parts with
  | nil => cases member
  | cons part rest ih =>
    cases rest with
    | nil => exact .inr ⟨part, List.mem_cons_self, by simpa using member⟩
    | cons second more =>
      rw [joined_cons_cons, List.append_assoc, List.mem_append, List.mem_append] at member
      rcases member with own | between | later
      · exact .inr ⟨part, List.mem_cons_self, own⟩
      · exact .inl between
      · exact (ih later).imp id fun ⟨other, inside, stands⟩ =>
          ⟨other, List.mem_cons_of_mem part inside, stands⟩

private theorem joined_append (separator : Text) {before behind : List Text} (nonEmpty : before ≠ [])
    (more : behind ≠ []) :
    joined separator (before ++ behind) = joined separator before ++ separator ++ joined separator behind := by
  induction before with
  | nil => exact absurd rfl nonEmpty
  | cons part rest ih =>
    cases rest with
    | nil =>
      obtain ⟨first, others, rfl⟩ := List.exists_cons_of_ne_nil more
      rw [List.singleton_append, joined_cons_cons, joined_singleton]
    | cons second rest =>
      have later := ih (by simp)
      rw [List.cons_append] at later
      rw [List.cons_append, List.cons_append, joined_cons_cons, later, joined_cons_cons]
      simp

theorem joined_flatten (separator : Text) {groups : List (List Text)} (filled : ∀ group ∈ groups, group ≠ []) :
    joined separator groups.flatten = joined separator (groups.map (joined separator)) := by
  induction groups with
  | nil => rfl
  | cons group rest ih =>
    obtain ⟨own, others⟩ := List.forall_mem_cons.mp filled
    cases rest with
    | nil => simp
    | cons second more =>
      have later : (second :: more).flatten ≠ [] := by
        simp [List.flatten_cons, others second List.mem_cons_self]
      rw [List.flatten_cons, joined_append separator own later, ih others, List.map_cons, List.map_cons,
        List.map_cons, joined_cons_cons]

end Joining

section Words

theorem not_allBlank_of_mem {text : Text} {c : Char} (member : c ∈ text) (solid : isBlank c = false) :
    allBlank text = false := by
  rw [allBlank, List.all_eq_false]
  exact ⟨c, member, by simp [solid]⟩

theorem words_append_cons (before behind : Text) {c : Char} (blank : isBlank c = true) :
    words (before ++ c :: behind) = words before ++ words behind := by
  rw [words, pieces_append_cons before behind blank, List.filter_append]
  rfl

theorem words_cons (text : Text) {c : Char} (blank : isBlank c = true) :
    words (c :: text) = words text :=
  words_append_cons [] text blank

theorem words_of_solid {word : Text} (filled : word ≠ []) (solid : ∀ c ∈ word, isBlank c = false) :
    words word = [word] := by
  rw [words, pieces_of_forall solid]
  simp [filled]

/-- A line is blank exactly if it has no words. -/
theorem words_eq_nil {text : Text} : words text = [] ↔ allBlank text = true := by
  induction text with
  | nil => simp [words, pieces, allBlank]
  | cons c rest ih =>
    by_cases blank : isBlank c
    · rw [words_cons rest blank, ih]
      simp [allBlank, blank]
    · have apart : isBlank c = false := by simpa using blank
      rw [words, pieces, if_neg blank]
      obtain ⟨first, others, found⟩ := List.exists_cons_of_ne_nil (pieces_ne_nil isBlank rest)
      simp [found, allBlank, apart]

theorem words_append_of_blank (text : Text) {blanks : Text} (blank : allBlank blanks = true) :
    words (text ++ blanks) = words text := by
  cases blanks with
  | nil => rw [List.append_nil]
  | cons c rest =>
    obtain ⟨first, others⟩ : isBlank c = true ∧ allBlank rest = true := by
      simpa [allBlank] using blank
    rw [words_append_cons text rest first, words_eq_nil.mpr others, List.append_nil]

private theorem words_dropWhile (text : Text) : words (text.dropWhile isBlank) = words text := by
  induction text with
  | nil => rfl
  | cons c rest ih =>
    by_cases blank : isBlank c
    · rw [List.dropWhile_cons_of_pos blank, ih, words_cons rest blank]
    · rw [List.dropWhile_cons_of_neg blank]

theorem infix_trimmed (text : Text) : trimmed text <:+: text := by
  have behind := List.dropWhile_suffix (l := text) isBlank
  have before := List.reverse_prefix.mpr (List.dropWhile_suffix (l := (text.dropWhile isBlank).reverse) isBlank)
  rw [List.reverse_reverse] at before
  exact before.isInfix.trans behind.isInfix

theorem words_dropWhile_reverse (text : Text) :
    words (text.reverse.dropWhile isBlank).reverse = words text := by
  have cut := congrArg List.reverse (List.takeWhile_append_dropWhile (p := isBlank) (l := text.reverse))
  rw [List.reverse_append, List.reverse_reverse] at cut
  have blank : allBlank (text.reverse.takeWhile isBlank).reverse = true := by
    rw [allBlank, List.all_reverse]
    exact List.all_takeWhile
  rw [← words_append_of_blank _ blank, cut]

theorem trimmed_concat (text : Text) {c : Char} (blank : isBlank c = true) :
    trimmed (text ++ [c]) = trimmed text := by
  rw [trimmed, List.dropWhile_append, trimmed]
  split
  · rename_i all
    rw [List.isEmpty_iff.mp all, List.dropWhile_cons_of_pos blank]
    rfl
  · rw [List.reverse_append, List.reverse_singleton, List.singleton_append, List.dropWhile_cons_of_pos blank]

theorem words_trimmed (text : Text) : words (trimmed text) = words text := by
  rw [trimmed, words_dropWhile_reverse, words_dropWhile]

theorem infix_of_mem_words {text word : Text} (member : word ∈ words text) : word <:+: text :=
  infix_of_mem_pieces (List.mem_filter.mp member).1

private theorem not_blank_of_dropWhile {text before behind : Text} {c : Char}
    (cut : text.dropWhile isBlank = before ++ c :: behind) (blank : isBlank c = true) :
    allBlank before = false := by
  have start := List.head?_dropWhile_not isBlank text
  rw [cut] at start
  cases before with
  | nil => simp [blank] at start
  | cons d others =>
    have apart : isBlank d = false := by simpa using start
    simp [allBlank, apart]

private theorem not_blank_of_trimmed {text before behind : Text} {c : Char}
    (cut : trimmed text = before ++ c :: behind) (blank : isBlank c = true) :
    allBlank before = false ∧ allBlank behind = false := by
  rw [trimmed, List.reverse_eq_iff] at cut
  have whole := List.takeWhile_append_dropWhile (p := isBlank) (l := (text.dropWhile isBlank).reverse)
  rw [cut, ← List.reverse_inj, List.reverse_append, List.reverse_reverse, List.reverse_reverse,
    List.append_assoc, List.cons_append] at whole
  rw [List.reverse_append, List.reverse_cons, List.append_assoc, List.singleton_append] at cut
  constructor
  · exact not_blank_of_dropWhile whole.symm blank
  · have last := not_blank_of_dropWhile cut blank
    rwa [allBlank, List.all_reverse] at last

/-- What is left of a text with one word after trimming is that word. -/
theorem trimmed_of_words {text word : Text} (single : words text = [word]) : trimmed text = word := by
  have own := (words_trimmed text).trans single
  have filled : trimmed text ≠ [] := by
    intro empty
    rw [empty] at own
    cases own
  have solid : ∀ c ∈ trimmed text, isBlank c = false := by
    intro c member
    cases blank : isBlank c with
    | false => rfl
    | true =>
      obtain ⟨before, behind, cut⟩ := List.append_of_mem member
      obtain ⟨first, second⟩ := not_blank_of_trimmed cut blank
      rw [cut, words_append_cons before behind blank] at own
      rcases List.append_eq_singleton_iff.mp own with ⟨nothing, _⟩ | ⟨_, nothing⟩
      · exact absurd (words_eq_nil.mp nothing) (by simp [first])
      · exact absurd (words_eq_nil.mp nothing) (by simp [second])
  rw [words_of_solid filled solid] at own
  exact List.singleton_inj.mp own

/-- Words that are joined with blanks are the words of the whole. -/
theorem words_joined {names : List Text}
    (solid : ∀ name ∈ names, name ≠ [] ∧ ∀ c ∈ name, isBlank c = false) :
    words (joined " " names) = names := by
  induction names with
  | nil => rfl
  | cons name rest ih =>
    obtain ⟨⟨filled, own⟩, others⟩ := List.forall_mem_cons.mp solid
    cases rest with
    | nil => rw [joined_singleton, words_of_solid filled own]
    | cons second more =>
      have cut : joined " " (name :: second :: more) = name ++ ' ' :: joined " " (second :: more) := by
        rw [joined_cons_cons, List.append_assoc]
        rfl
      rw [cut, words_append_cons name _ rfl, words_of_solid filled own, ih others]
      rfl

/-- A text that begins with white space up to a character begins with that character once it is trimmed. -/
theorem trimmed_append_cons {blanks : Text} (blank : allBlank blanks = true) {c : Char}
    (first : isBlank c = false) (rest : Text) :
    ∃ right, trimmed (blanks ++ c :: rest) = c :: right ∧ right <+: rest ∧ words right = words rest := by
  have start : (blanks ++ c :: rest).dropWhile isBlank = c :: rest := by
    rw [List.dropWhile_append_of_pos (by simpa [allBlank] using blank),
      List.dropWhile_cons_of_neg (by simp [first])]
  have last : (c :: rest).reverse.dropWhile isBlank = rest.reverse.dropWhile isBlank ++ [c] := by
    rw [List.reverse_cons, List.dropWhile_append]
    split
    · rename_i all
      rw [List.isEmpty_iff.mp all, List.dropWhile_cons_of_neg (by simp [first])]
      rfl
    · rfl
  have begins := List.dropWhile_suffix (l := rest.reverse) isBlank
  refine ⟨(rest.reverse.dropWhile isBlank).reverse, ?_, ?_, ?_⟩
  · rw [trimmed, start, last, List.reverse_append]
    rfl
  · simpa using List.reverse_prefix.mpr begins
  · exact words_dropWhile_reverse rest

end Words

/-- A text that lacks a character stands on one side of it. -/
theorem infix_append_cons {mark before behind : Text} {c : Char} (apart : c ∉ mark)
    (inner : mark <:+: before ++ c :: behind) : mark <:+: before ∨ mark <:+: behind := by
  obtain ⟨first, last, same⟩ := inner
  rw [List.append_assoc] at same
  rcases List.append_eq_append_iff.mp same with ⟨rest, rfl, ends⟩ | ⟨rest, rfl, begins⟩
  · rcases List.append_eq_append_iff.mp ends with ⟨more, rfl, _⟩ | ⟨more, rfl, begins⟩
    · exact .inl ⟨first, more, by simp⟩
    · cases more with
      | nil => exact .inl ⟨first, [], by simp⟩
      | cons d more =>
        obtain ⟨rfl, _⟩ := List.cons.inj begins
        exact absurd (by simp) apart
  · cases rest with
    | nil =>
      cases mark with
      | nil => exact .inl List.nil_infix
      | cons d mark =>
        obtain ⟨rfl, _⟩ := List.cons.inj begins
        exact absurd List.mem_cons_self apart
    | cons d rest =>
      obtain ⟨_, rfl⟩ := List.cons.inj begins
      exact .inr ⟨rest, last, by simp⟩

/-- The first occurrence of a text comes behind all that lacks its first character. -/
theorem cut?_append {before behind rest : Text} {c : Char} (free : c ∉ before) :
    cut? (c :: rest) (before ++ c :: rest ++ behind) = some (before, behind) := by
  induction before with
  | nil =>
    have start : (c :: rest).isPrefixOf (c :: (rest ++ behind)) = true :=
      List.isPrefixOf_iff_prefix.mpr ⟨behind, rfl⟩
    rw [List.nil_append, List.cons_append, cut?, if_pos start]
    simp
  | cons d before ih =>
    obtain ⟨apart, others⟩ : c ≠ d ∧ c ∉ before := by simpa [not_or] using free
    have later : ¬ (c :: rest).isPrefixOf (d :: (before ++ c :: rest ++ behind)) = true := by
      simp [apart]
    rw [List.cons_append, List.cons_append, cut?, if_neg later, ih others]
    rfl

/-- What stands between a head and its bodies. -/
def arrow : Text := "->"

section Arrows

theorem arrowParts_cons {c : Char} {rest : Text} (apart : ¬ arrow <+: c :: rest) :
    arrowParts (c :: rest) = (arrowParts rest).modifyHead (c :: ·) := by
  rw [arrowParts]
  rintro tail rfl rfl
  exact apart (List.prefix_append arrow tail)

theorem arrow_free_of_cons {c : Char} {rest : Text} (free : ¬ arrow <:+: c :: rest) :
    ¬ arrow <:+: rest :=
  fun inner => free (inner.trans (List.suffix_cons c rest).isInfix)

theorem arrowParts_of_free {text : Text} (free : ¬ arrow <:+: text) : arrowParts text = [text] := by
  induction text with
  | nil => rfl
  | cons c rest ih =>
    rw [arrowParts_cons fun start => free start.isInfix, ih (arrow_free_of_cons free)]
    rfl

private theorem not_prefix_of_free {c : Char} {rest : Text} (free : ¬ arrow <:+: c :: rest)
    (right : Text) : ¬ arrow <+: c :: (rest ++ arrow ++ right) := by
  intro start
  cases rest with
  | nil =>
    obtain ⟨tail, same⟩ := start
    simp [arrow] at same
  | cons d more =>
    have whole : c :: d :: more <+: c :: (d :: more ++ arrow ++ right) :=
      ⟨arrow ++ right, by simp⟩
    have short : arrow.length ≤ (c :: d :: more).length := by simp [arrow]
    exact free (List.prefix_of_prefix_length_le start whole short).isInfix

theorem arrowParts_append {left : Text} (free : ¬ arrow <:+: left) (right : Text) :
    arrowParts (left ++ arrow ++ right) = left :: arrowParts right := by
  induction left with
  | nil => rfl
  | cons c rest ih =>
    rw [List.cons_append, List.cons_append, arrowParts_cons (not_prefix_of_free free right),
      ih (arrow_free_of_cons free)]
    rfl

private theorem arrowParts_ne_nil (text : Text) : arrowParts text ≠ [] := by
  fun_induction arrowParts text with
  | case1 rest => simp
  | case2 c rest apart ih => simpa [List.modifyHead_eq_nil_iff] using ih
  | case3 => simp

theorem cases_first_arrow (text : Text) : ¬ arrow <:+: text ∨
    ∃ left right, text = left ++ arrow ++ right ∧ ¬ arrow <:+: left := by
  induction text with
  | nil => exact .inl (by decide)
  | cons c rest ih =>
    by_cases start : arrow <+: c :: rest
    · obtain ⟨right, same⟩ := start
      exact .inr ⟨[], right, same.symm, by decide⟩
    · rcases ih with free | ⟨left, right, rfl, free⟩
      · exact .inl fun inner => (List.infix_cons_iff.mp inner).elim start free
      · refine .inr ⟨c :: left, right, by simp, fun inner => ?_⟩
        refine (List.infix_cons_iff.mp inner).elim (fun begins => start ?_) free
        exact begins.trans ⟨arrow ++ right, by simp⟩

theorem arrowParts_eq_singleton {text whole : Text} :
    arrowParts text = [whole] ↔ whole = text ∧ ¬ arrow <:+: text := by
  constructor
  · intro same
    rcases cases_first_arrow text with free | ⟨left, right, rfl, free⟩
    · rw [arrowParts_of_free free] at same
      exact ⟨(List.singleton_inj.mp same).symm, free⟩
    · rw [arrowParts_append free] at same
      exact absurd (List.cons.inj same).2 (arrowParts_ne_nil right)
  · rintro ⟨rfl, free⟩
    exact arrowParts_of_free free

theorem arrowParts_eq_pair {text left right : Text} : arrowParts text = [left, right] ↔
    text = left ++ arrow ++ right ∧ ¬ arrow <:+: left ∧ ¬ arrow <:+: right := by
  constructor
  · intro same
    rcases cases_first_arrow text with free | ⟨first, second, rfl, free⟩
    · rw [arrowParts_of_free free] at same
      cases same
    · rw [arrowParts_append free] at same
      obtain ⟨rfl, behind⟩ := List.cons.inj same
      obtain ⟨rfl, last⟩ := arrowParts_eq_singleton.mp behind
      exact ⟨rfl, free, last⟩
  · rintro ⟨rfl, free, last⟩
    rw [arrowParts_append free, arrowParts_of_free last]

end Arrows

end SimpleLR.Text
