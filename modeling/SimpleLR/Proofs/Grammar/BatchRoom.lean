import SimpleLR.Proofs.Grammar.BatchForm

namespace SimpleLR.Batch

variable {granted : Nat → Bool} {text : Text} {batch : Batch}

private theorem reserve_cases (granted : Nat → Bool) (bytes : Nat) :
    reserve granted bytes = .ok () ∨ reserve granted bytes = .error (.noRoom bytes) :=
  ite_eq_or_eq _ _ _

/-- Nothing grants what nobody can ask for. -/
theorem reserve_of_limit {bytes : Nat} (large : roomLimit ≤ bytes) :
    reserve granted bytes = .error (.noRoom bytes) := by
  have positive : 0 < bytes := Nat.lt_of_lt_of_le (by decide) large
  rw [reserve, if_neg]
  simp [Nat.ne_of_gt positive, Nat.not_lt.mpr large]

/-- All room that reading a text asks for is granted. Room for the strings is asked for when the productions
were read. -/
structure HasRoom (granted : Nat → Bool) (text : Text) : Prop where
  rules {header : Header} : readHeader text = .ok header →
    reserve granted (ruleSize * header.productionCount) = .ok ()
  strings {header : Header} {taken : List Rule × List (Nat × Text)} : readHeader text = .ok header →
    header.takeRules = .ok taken → reserve granted (stringSize * header.stringCount) = .ok ()

/-- With room for all that is announced, a batch is what its text spells. -/
theorem load_of_hasRoom (room : HasRoom granted text) : load granted text = Failure.ofError (ofText text) := by
  have granting {bytes : Nat} {next : Unit → Except Failure Batch} (own : reserve granted bytes = .ok ()) :
      (Failure.ofFault (reserve granted bytes) >>= next) = next () := by
    rw [own]
    rfl
  simp only [load, ofText, Failure.ofError, Result.mapError_bind]
  refine Result.bind_congr fun header read => ?_
  rw [granting (room.rules (Result.mapError_eq_ok.mp read))]
  refine Result.bind_congr fun taken rules => ?_
  rw [granting (room.strings (Result.mapError_eq_ok.mp read) (Result.mapError_eq_ok.mp rules))]
  rfl

/-- Without it there is no answer. -/
theorem load_of_not_hasRoom (room : ¬ HasRoom granted text) :
    ∃ bytes, load granted text = .error (.broken (.noRoom bytes)) := by
  by_contra answered
  have rules {header : Header} (read : readHeader text = .ok header) :
      reserve granted (ruleSize * header.productionCount) = .ok () := by
    refine (reserve_cases granted _).resolve_right fun refused => answered ⟨ruleSize * header.productionCount, ?_⟩
    refine Result.bind_eq_error.mpr (.inr ⟨header, Result.mapError_eq_ok.mpr read, ?_⟩)
    exact Result.bind_eq_error.mpr (.inl (congrArg Failure.ofFault refused))
  refine room ⟨rules, fun {header taken} read spelled => ?_⟩
  refine (reserve_cases granted _).resolve_right fun refused => answered ⟨stringSize * header.stringCount, ?_⟩
  refine Result.bind_eq_error.mpr (.inr ⟨header, Result.mapError_eq_ok.mpr read, ?_⟩)
  refine Result.bind_eq_error.mpr (.inr ⟨(), Result.mapError_eq_ok.mpr (rules read), ?_⟩)
  refine Result.bind_eq_error.mpr (.inr ⟨taken, Result.mapError_eq_ok.mpr spelled, ?_⟩)
  exact Result.bind_eq_error.mpr (.inl (congrArg Failure.ofFault refused))

theorem ofText_of_load (success : load granted text = .ok batch) : ofText text = .ok batch := by
  by_cases room : HasRoom granted text
  · rw [load_of_hasRoom room] at success
    exact Result.mapError_eq_ok.mp success
  · obtain ⟨bytes, refused⟩ := load_of_not_hasRoom room
    cases refused.symm.trans success

/-- A layout is answered as it has to be: a complete one as its production lines are as a text of their own, where a
line that is refused has its own number in the batch, and one that ends early by an error at its header. -/
structure Layout.Answered (layout : Layout) (result : Except Failure Batch) : Prop where
  complete : layout.Readable → layout.entries.length = layout.productionCount →
    layout.strings.length = layout.stringCount → (∀ entry ∈ layout.entries, RuleText.Single entry.line) →
    (∃ g, Grammar.ofText layout.source = .ok g ∧ result = .ok ⟨g, layout.strings.map Text.trimmed⟩) ∨
    ∃ earlier entry later reason, layout.entries = earlier ++ entry :: later ∧
      Grammar.ofText layout.source = .error (.malformed (earlier.length + 1) reason) ∧
      result = .error (.rejected (.malformed ((layout.above earlier entry).length + 1) reason))
  short : (∀ entry ∈ layout.entries, ∃ rule, RuleText.SpellsRule entry.line rule) → layout.EndsEarly →
    ∃ reason, result = .error (.rejected (.malformed (layout.before.length + 1) reason))

theorem Layout.answered_ofText (layout : Layout) : layout.Answered (Failure.ofError (ofText layout.text)) where
  complete readable productions strings single := by
    rcases layout.ofText_complete readable productions strings single with
      ⟨g, own, read⟩ | ⟨earlier, entry, later, reason, cut, own, refused⟩
    · exact .inl ⟨g, own, by rw [read]; rfl⟩
    · exact .inr ⟨earlier, entry, later, reason, cut, own, by rw [refused]; rfl⟩
  short spelled early := by
    obtain ⟨reason, refused⟩ := layout.ofText_short spelled early
    exact ⟨reason, by rw [refused]; rfl⟩

theorem Layout.hasRoom_iff {layout : Layout} (same : Text.lines text = Text.lines layout.text) :
    HasRoom granted text ↔ (layout.Readable → reserve granted (ruleSize * layout.productionCount) = .ok () ∧
      ∀ taken, layout.announces.takeRules = .ok taken →
        reserve granted (stringSize * layout.stringCount) = .ok ()) := by
  have read (readable : layout.Readable) : readHeader text = .ok layout.announces :=
    (readHeader_congr same).trans (layout.readHeader_text readable)
  have known {header : Header} (found : readHeader text = .ok header) :
      layout.Readable ∧ header = layout.announces := by
    by_cases readable : layout.Readable
    · exact ⟨readable, Except.ok.inj (found.symm.trans (read readable))⟩
    · cases found.symm.trans ((readHeader_congr same).trans (layout.readHeader_text_tooLarge readable))
  constructor
  · intro room readable
    exact ⟨room.rules (read readable), fun taken => room.strings (read readable)⟩
  · intro room
    constructor
    · intro header found
      obtain ⟨readable, rfl⟩ := known found
      exact (room readable).1
    · intro header taken found
      obtain ⟨readable, rfl⟩ := known found
      exact (room readable).2 taken

/-- A layout is answered as it has to be if there is room for what its text announces, whether or not its last line
is ended. Without room there is no answer. Counts that are too large to be read are refused at the header. -/
theorem load_layout (granted : Nat → Bool) (layout : Layout) (text : Text)
    (same : Text.lines text = Text.lines layout.text) :
    (HasRoom granted text → layout.Answered (load granted text)) ∧
    (¬ HasRoom granted text → ∃ bytes, load granted text = .error (.broken (.noRoom bytes))) ∧
    (HasRoom granted text ↔ (layout.Readable → reserve granted (ruleSize * layout.productionCount) = .ok () ∧
      ∀ taken, layout.announces.takeRules = .ok taken →
        reserve granted (stringSize * layout.stringCount) = .ok ())) ∧
    (¬ layout.Readable → load granted text =
      .error (.rejected (.malformed (layout.before.length + 1) (.badCount .tooLarge)))) := by
  refine ⟨fun room => ?_, load_of_not_hasRoom, Layout.hasRoom_iff same, fun large => ?_⟩
  · rw [load_of_hasRoom room, ofText_congr same]
    exact layout.answered_ofText
  · rw [load, readHeader_congr same, layout.readHeader_text_tooLarge large]
    rfl

/-- Two productions with blank lines around them and three strings, of which one is blank. -/
def Layout.spread : Layout where
  productionCount := 2
  stringCount := 3
  before := [[]]
  header := Text.ofNat 2 ++ " " ++ Text.ofNat 3
  entries := [⟨[], "S -> a S", by simp⟩, ⟨[" "], "S -> b\r", by decide⟩]
  strings := [" a b ", [], "b"]
  rest := "more"
  blank := by decide
  announced := Text.words_two_numbers 2 3
  single := by decide

/-- The header announces a second production, which is missing. -/
def Layout.short : Layout where
  productionCount := 2
  stringCount := 0
  before := []
  header := Text.ofNat 2 ++ " " ++ Text.ofNat 0
  entries := [⟨[], "S -> a | b", by simp⟩]
  strings := []
  rest := " \n"
  blank := by decide
  announced := Text.words_two_numbers 2 0
  single := by decide

/-- The header announces more productions than there can be room for, and there are none. -/
def Layout.excessive : Layout where
  productionCount := 1000000000000000000
  stringCount := 0
  before := []
  header := Text.ofNat 1000000000000000000 ++ " " ++ Text.ofNat 0
  entries := []
  strings := []
  rest := []
  blank := by decide
  announced := Text.words_two_numbers 1000000000000000000 0
  single := by decide

theorem load_layout_spread :
    (∃ g, Grammar.ofText "S -> a S\nS -> b\r\n" = .ok g ∧
      load plenty "\n2 3\nS -> a S\n \nS -> b\r\n a b \n\nb\nmore" = .ok ⟨g, ["a b", [], "b"]⟩) ∧
    (∃ reason, load plenty "2 0\nS -> a | b\n " = .error (.rejected (.malformed 1 reason))) ∧
    ∃ bytes, load plenty "1000000000000000000 0\n" = .error (.broken (.noRoom bytes)) := by
  refine ⟨?_, ?_, ?_⟩
  · have single : ∀ entry ∈ Layout.spread.entries, RuleText.Single entry.line := by
      intro entry member
      rcases List.mem_cons.mp member with rfl | member
      · exact ⟨"S ", " a S", ⟨rfl, by decide, by decide⟩, by decide⟩
      · obtain rfl := List.mem_singleton.mp member
        exact ⟨"S ", " b\r", ⟨rfl, by decide, by decide⟩, by decide⟩
    obtain ⟨answered, _, room, _⟩ := load_layout plenty .spread _ rfl
    rcases (answered (room.mpr fun _ => ⟨rfl, fun _ _ => rfl⟩)).complete ⟨by decide, by decide⟩ rfl rfl single with
      read | refused
    · exact read
    · obtain ⟨earlier, entry, later, reason, _, failed, _⟩ := refused
      obtain ⟨g, success, _⟩ := Result.exists_of_evaluated (Grammar.ofText Layout.spread.source)
        (fun _ => true) (by decide +kernel)
      cases success.symm.trans failed
  · have spelled : ∀ entry ∈ Layout.short.entries, ∃ rule, RuleText.SpellsRule entry.line rule := by
      intro entry member
      obtain rfl := List.mem_singleton.mp member
      refine ⟨⟨"S", ["a", "|", "b"]⟩, "S ", " a | b", ?_, ⟨by decide, by decide⟩, ?_⟩
      · exact ⟨rfl, by decide, by decide⟩
      · exact .names (by decide) (by decide) (by decide)
    obtain ⟨answered, _, room, _⟩ := load_layout plenty .short "2 0\nS -> a | b\n " (by decide +kernel)
    exact (answered (room.mpr fun _ => ⟨rfl, fun _ _ => rfl⟩)).short spelled (.inl ⟨by decide, by decide⟩)
  · obtain ⟨_, refused, room, _⟩ := load_layout plenty .excessive _ rfl
    refine refused fun roomy => ?_
    have granted := (room.mp roomy ⟨by decide, by decide⟩).1
    rw [reserve_of_limit (by decide)] at granted
    cases granted

/-- No memory is large enough for every layout to be answered as it has to be. -/
theorem not_always_answered : ¬ ∃ granted, ∀ layout : Layout, layout.Answered (load granted layout.text) := by
  rintro ⟨granted, answered⟩
  obtain ⟨reason, refused⟩ := (answered .excessive).short (by simp [Layout.excessive]) (.inl ⟨by decide, by decide⟩)
  have header : readHeader Layout.excessive.text = .ok ⟨1, 1000000000000000000, 0, []⟩ := by decide +kernel
  have broken : load granted Layout.excessive.text = .error (.broken (.noRoom 40000000000000000000)) := by
    rw [load, header]
    exact Result.bind_eq_error.mpr (.inr ⟨_, rfl, Result.bind_eq_error.mpr (.inl
      (congrArg Failure.ofFault (reserve_of_limit (by decide))))⟩)
  cases broken.symm.trans refused

end SimpleLR.Batch
