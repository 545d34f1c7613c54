import SimpleLR.Grammar.Batch
import SimpleLR.Proofs.Grammar.TextForm
import SimpleLR.Proofs.Text.Numeral

/-! The batch form of a grammar beside its text form. The production lines of a batch are read as a grammar text
would be, except that the lines have other numbers, and the lines behind them are kept as strings. -/
namespace SimpleLR

theorem Text.OneArrow.not_blank {text left right : Text} (cut : text.OneArrow left right) :
    Text.allBlank text = false :=
  have dash : '-' ∈ text := by simp [cut.cut, Text.arrow]
  Text.not_allBlank_of_mem dash rfl

theorem Text.OneArrow.withoutReturn {text left right : Text} (cut : text.OneArrow left right) :
    (Text.withoutReturn text).OneArrow left (Text.withoutReturn right) where
  cut := by
    have behind (tail : Text) : left ++ arrow ++ tail = (left ++ ['-']) ++ '>' :: tail := by simp [arrow]
    rw [cut.cut, behind, withoutReturn_append_cons _ _ (by decide), behind]
  left := cut.left
  right inner := cut.right (inner.trans (prefix_withoutReturn right).isInfix)

namespace RuleText

/-- A line that spells one rule. A bar in the body is a name like others. -/
def SpellsRule (line : Text) (rule : Rule) : Prop :=
  ∃ left right, line.OneArrow left right ∧ SpellsHead left rule.head ∧ SpellsBody right rule.body

/-- A line with one arrow and without a bar right of it. -/
def Single (line : Text) : Prop := ∃ left right, line.OneArrow left right ∧ '|' ∉ right

private theorem SpellsBody.of_words {text other : Text} {body : List Text} (spells : SpellsBody text body)
    (same : Text.words other = Text.words text) : SpellsBody other body := by
  cases spells with
  | marker words known => exact .marker (same.trans words) known
  | quotes words => exact .quotes (same.trans words)
  | names words filled free => exact .names (same.trans words) filled free

theorem SpellsRule.withoutReturn {line : Text} {rule : Rule} (spells : SpellsRule line rule) :
    SpellsRule (Text.withoutReturn line) rule := by
  obtain ⟨left, right, cut, head, body⟩ := spells
  exact ⟨left, _, cut.withoutReturn, head, body.of_words (Text.words_withoutReturn right)⟩

theorem Single.withoutReturn {line : Text} (single : Single line) : Single (Text.withoutReturn line) := by
  obtain ⟨left, right, cut, bar⟩ := single
  exact ⟨left, _, cut.withoutReturn, fun member => bar ((Text.prefix_withoutReturn right).subset member)⟩

theorem readRule_eq_ok {line : Text} {rule : Rule} : Batch.readRule line = .ok rule ↔ SpellsRule line rule := by
  unfold Batch.readRule
  constructor
  · intro success
    split at success
    · rename_i left right parts
      obtain ⟨head, names, success⟩ := Result.bind_eq_ok.mp success
      obtain ⟨body, spells, same⟩ := Result.bind_eq_ok.mp success
      obtain rfl := Except.ok.inj same
      exact ⟨left, right, Text.arrowParts_eq_pair_iff.mp parts, readHead_eq_ok.mp names, readBody_eq_ok.mp spells⟩
    · cases success
  · rintro ⟨left, right, cut, head, body⟩
    rw [Text.arrowParts_eq_pair_iff.mpr cut]
    exact Result.bind_eq_ok.mpr ⟨_, readHead_eq_ok.mpr head,
      Result.bind_eq_ok.mpr ⟨_, readBody_eq_ok.mpr body, rfl⟩⟩

private theorem readLine_of_single {previous : Option Text} {line : Text} (single : Single line) :
    readLine previous line = (do let rule ← Batch.readRule line; return (rule.head, [rule.body])) := by
  obtain ⟨left, right, cut, bar⟩ := single
  have parts : Text.barParts right = [right] := Text.pieces_of_not_mem bar
  rw [readLine, splitLine, Batch.readRule, Text.arrowParts_eq_pair_iff.mpr cut]
  dsimp only
  cases readHead left with
  | error reason => rfl
  | ok head =>
    change (do let bodies ← (Text.barParts right).mapM readBody; return (head, bodies)) = _
    rw [parts, List.mapM_cons, List.mapM_nil]
    cases readBody right <;> rfl

end RuleText

namespace Batch

/-- A production line with the blank lines before it. -/
structure Entry where
  blanks : List Text
  line : Text
  blank : ∀ text ∈ blanks, Text.allBlank text = true

namespace Entry

def lines (entry : Entry) : List Text := entry.blanks ++ [entry.line]

/-- The entry as its lines are read: without carriage returns at their ends. -/
def read (entry : Entry) : Entry where
  blanks := entry.blanks.map Text.withoutReturn
  line := Text.withoutReturn entry.line
  blank := by
    intro text member
    obtain ⟨raw, inside, rfl⟩ := List.mem_map.mp member
    rw [Text.allBlank_withoutReturn]
    exact entry.blank raw inside

private theorem lines_read (entry : Entry) : entry.read.lines = entry.lines.map Text.withoutReturn := by
  simp [lines, read]

theorem flatMap_lines_read (entries : List Entry) :
    (entries.map read).flatMap lines = (entries.flatMap lines).map Text.withoutReturn := by
  rw [List.flatMap_map, List.map_flatMap]
  exact List.flatMap_congr fun entry _ => entry.lines_read

end Entry

section Entries

variable (header count past : Nat) (more : List Text)

theorem takeRules_blanks {blanks : List Text} (blank : ∀ line ∈ blanks, Text.allBlank line = true) :
    takeRules header (count + 1) (Text.numbered (past + 1) (blanks ++ more)) =
      takeRules header (count + 1) (Text.numbered (past + blanks.length + 1) more) := by
  induction blanks generalizing past with
  | nil => rfl
  | cons line rest ih =>
    obtain ⟨own, others⟩ := List.forall_mem_cons.mp blank
    rw [List.cons_append, Text.numbered_cons, takeRules, if_pos own, ih _ others, List.length_cons]
    congr 2
    omega

/-- The next entry is read, or refused at the number of its line. -/
theorem takeRules_entry {entry : Entry} (filled : Text.allBlank entry.line = false) :
    takeRules header (count + 1) (Text.numbered (past + 1) (entry.lines ++ more)) =
      match readRule entry.line with
      | .error reason => .error (.malformed (past + entry.blanks.length + 1) reason)
      | .ok rule => do
        let (rules, rest) ← takeRules header count (Text.numbered (past + entry.lines.length + 1) more)
        return (rule :: rules, rest) := by
  have length : past + entry.lines.length + 1 = past + entry.blanks.length + 1 + 1 := by
    simp [Entry.lines, Nat.add_assoc]
  rewrite [Entry.lines, List.append_assoc, takeRules_blanks _ _ _ _ entry.blank, List.singleton_append,
    Text.numbered_cons, takeRules, if_neg (by simp [filled]), ← Entry.lines, length]
  rfl

private theorem takeRules_blank (blank : ∀ line ∈ more, Text.allBlank line = true) :
    takeRules header (count + 1) (Text.numbered (past + 1) more) = .error (.malformed header .fewProductions) := by
  have all := takeRules_blanks header count past [] blank
  rw [List.append_nil] at all
  rw [all]
  rfl

/-- Entries that spell rules are read, and the rest of the text is left. -/
theorem takeRules_spelled {entries : List Entry}
    (spelled : ∀ entry ∈ entries, ∃ rule, RuleText.SpellsRule entry.line rule) : ∃ rules,
    takeRules header (entries.length + count) (Text.numbered (past + 1) (entries.flatMap Entry.lines ++ more)) = do
      let (later, rest) ←
        takeRules header count (Text.numbered (past + (entries.flatMap Entry.lines).length + 1) more)
      return (rules ++ later, rest) := by
  induction entries generalizing past with
  | nil =>
    refine ⟨[], ?_⟩
    simp only [List.length_nil, Nat.zero_add, List.flatMap_nil, List.nil_append, Nat.add_zero]
    exact (bind_pure _).symm
  | cons entry rest ih =>
    obtain ⟨⟨rule, spells⟩, others⟩ := List.forall_mem_cons.mp spelled
    obtain ⟨rules, taken⟩ := ih (past + entry.lines.length) others
    obtain ⟨left, right, cut, _⟩ := id spells
    refine ⟨rule :: rules, ?_⟩
    have length : (entry :: rest).length + count = rest.length + count + 1 := by
      rw [List.length_cons]
      omega
    rw [List.flatMap_cons, List.append_assoc, length, takeRules_entry _ _ _ _ cut.not_blank,
      RuleText.readRule_eq_ok.mpr spells]
    dsimp only
    rw [taken, List.length_append, ← Nat.add_assoc]
    simp only [bind_assoc, pure_bind, List.cons_append]

/-- Production lines are read in a batch as in a text of their own. -/
private theorem takeRules_alike {entries : List Entry} (single : ∀ entry ∈ entries, RuleText.Single entry.line)
    (before : Nat) (previous : Option Text) :
    Result.Alike
      (fun error error' => ∃ earlier entry later reason, entries = earlier ++ entry :: later ∧
        error = .malformed (before + earlier.length + 1) reason ∧
        error' = .malformed (past + (earlier.flatMap Entry.lines ++ entry.blanks).length + 1) reason)
      (fun rules taken => taken = (rules, Text.numbered (past + (entries.flatMap Entry.lines).length + 1) more))
      (RuleText.readLines previous (Text.numbered (before + 1) (entries.map Entry.line)))
      (takeRules header entries.length (Text.numbered (past + 1) (entries.flatMap Entry.lines ++ more))) := by
  induction entries generalizing past before previous with
  | nil =>
    rw [List.length_nil, takeRules]
    exact .ok rfl
  | cons entry rest ih =>
    obtain ⟨own, others⟩ := List.forall_mem_cons.mp single
    obtain ⟨left, right, cut, _⟩ := id own
    rw [List.flatMap_cons, List.append_assoc, List.length_cons, takeRules_entry _ _ _ _ cut.not_blank,
      List.map_cons, Text.numbered_cons, RuleText.readLines, if_neg (by simp [cut.not_blank]),
      RuleText.readLine_of_single own]
    cases readRule entry.line with
    | error reason =>
      refine .error ⟨[], entry, rest, reason, rfl, rfl, ?_⟩
      simp
    | ok rule =>
      have later := ih (past + entry.lines.length) others (before + 1) (some rule.head)
      refine .bind (later.imp ?_ fun _ _ => id) ?_
      · rintro _ _ ⟨earlier, other, behind, reason, rfl, rfl, rfl⟩
        refine ⟨entry :: earlier, other, behind, reason, rfl, ?_, ?_⟩
        · rw [List.length_cons, Nat.add_right_comm before 1, Nat.add_assoc before]
        · have length : (entry.lines ++ (earlier.flatMap Entry.lines ++ other.blanks)).length =
              entry.lines.length + (earlier.flatMap Entry.lines ++ other.blanks).length := List.length_append
          rw [List.flatMap_cons, List.append_assoc, length, Nat.add_assoc past]
      · rintro rules _ rfl
        refine .ok ?_
        rw [List.length_append, Nat.add_assoc past]
        rfl

end Entries

/-- A text in batch form: a header that announces productions and strings, entries with blank lines before the
header and between them, strings, and further text. -/
structure Layout where
  productionCount : Nat
  stringCount : Nat
  before : List Text
  header : Text
  entries : List Entry
  strings : List Text
  rest : Text
  blank : ∀ line ∈ before, Text.allBlank line = true
  announced : Text.words header = [Text.ofNat productionCount, Text.ofNat stringCount]
  single : ∀ line ∈ before ++ header :: entries.flatMap Entry.lines ++ strings, '\n' ∉ line

namespace Layout

variable (layout : Layout)

/-- The text of a layout. Every line ends, and further text may follow. -/
def text : Text :=
  Text.ended (layout.before ++ layout.header :: layout.entries.flatMap Entry.lines ++ layout.strings) ++ layout.rest

/-- The production lines as a text of their own. -/
def source : Text := Text.ended (layout.entries.map Entry.line)

/-- The lines above the line of an entry, given the entries before it. -/
def above (earlier : List Entry) (entry : Entry) : List Text :=
  layout.before ++ layout.header :: earlier.flatMap Entry.lines ++ entry.blanks

/-- The lines behind the entries as they are read. -/
def behind : List Text := layout.strings.map Text.withoutReturn ++ Text.lines layout.rest

/-- The text ends before all announced lines are there. -/
def EndsEarly : Prop :=
  (layout.entries.length < layout.productionCount ∧ ∀ line ∈ layout.behind, Text.allBlank line = true) ∨
  (layout.entries.length = layout.productionCount ∧ layout.behind.length < layout.stringCount)

/-- The lines of the entries as they are read. -/
def entryLines : List Text := (layout.entries.map Entry.read).flatMap Entry.lines

/-- What the header of a layout announces. -/
def announces : Header where
  number := layout.before.length + 1
  productionCount := layout.productionCount
  stringCount := layout.stringCount
  lines := Text.numbered (layout.before.length + 1 + 1) (layout.entryLines ++ layout.behind)

/-- Both counts fit into a word. -/
def Readable : Prop := layout.productionCount < Text.countLimit ∧ layout.stringCount < Text.countLimit

private theorem lines_text : Text.lines layout.text = layout.before.map Text.withoutReturn ++
    Text.withoutReturn layout.header :: (layout.entryLines ++ layout.behind) := by
  rw [text, Text.lines_ended_append layout.single, entryLines, Entry.flatMap_lines_read, behind]
  simp

private theorem lines_source : Text.lines layout.source = (layout.entries.map Entry.read).map Entry.line := by
  have single : ∀ line ∈ layout.entries.map Entry.line, '\n' ∉ line := by
    intro line member
    obtain ⟨entry, inside, rfl⟩ := List.mem_map.mp member
    apply layout.single
    have own : entry.line ∈ layout.entries.flatMap Entry.lines :=
      List.mem_flatMap.mpr ⟨entry, inside, by simp [Entry.lines]⟩
    simp [own]
  have lines := Text.lines_ended_append single []
  rw [List.append_nil] at lines
  rw [source, lines, List.map_map, List.map_map]
  exact List.append_nil _

end Layout

/-- Only the lines of a text count, not how the last one ends. -/
theorem readHeader_congr {text other : Text} (same : Text.lines text = Text.lines other) :
    readHeader text = readHeader other := by
  have numbered : Text.numberedLines text = Text.numberedLines other := by
    rw [Text.numberedLines_eq, Text.numberedLines_eq, same]
  rw [readHeader, readHeader, numbered]

theorem ofText_congr {text other : Text} (same : Text.lines text = Text.lines other) :
    ofText text = ofText other := by
  rw [ofText, ofText, readHeader_congr same]

private theorem readHeader_of_lines {text line : Text} {before others : List Text}
    (lines : Text.lines text = before ++ line :: others) (blank : ∀ line ∈ before, Text.allBlank line = true)
    (filled : Text.allBlank line = false) : readHeader text =
      match readCounts line with
      | .error reason => .error (.malformed (before.length + 1) reason)
      | .ok (productionCount, stringCount) => .ok ⟨before.length + 1, productionCount, stringCount,
          Text.numbered (before.length + 1 + 1) others⟩ := by
  rewrite [readHeader, Text.numberedLines_eq, lines, Text.dropWhile_numbered blank filled, Nat.add_comm 1]
  rfl

/-- Counts are read as they are announced, or one of them is too large. -/
theorem readCounts_of_words {header : Text} {productionCount stringCount : Nat}
    (announced : Text.words header = [Text.ofNat productionCount, Text.ofNat stringCount]) :
    readCounts header = if productionCount < Text.countLimit ∧ stringCount < Text.countLimit
      then .ok (productionCount, stringCount) else .error (.badCount .tooLarge) := by
  rw [readCounts, announced, List.mapM_cons, List.mapM_cons, List.mapM_nil, Text.readCount_ofNat,
    Text.readCount_ofNat]
  by_cases bound : productionCount < Text.countLimit
  · by_cases bound' : stringCount < Text.countLimit
    · rw [if_pos bound, if_pos bound', if_pos ⟨bound, bound'⟩]
      rfl
    · rw [if_pos bound, if_neg bound', if_neg (not_and_of_not_right _ bound')]
      rfl
  · rw [if_neg bound, if_neg (not_and_of_not_left _ bound)]
    rfl

theorem takeStrings_numbered {header count start : Nat} {lines : List Text} :
    takeStrings header count (Text.numbered start lines) =
      if lines.length < count then .error (.malformed header .fewStrings)
      else .ok ((lines.take count).map Text.trimmed) := by
  have trimmed : ((Text.numbered start lines).take count).map (Text.trimmed ·.2) =
      (lines.take count).map Text.trimmed := by
    conv_rhs => rw [← Text.map_snd_numbered start lines, ← List.map_take, List.map_map]
    rfl
  rw [← trimmed, takeStrings, Text.length_numbered]

namespace Layout

variable (layout : Layout)

private theorem rules_alike (productions : layout.entries.length = layout.productionCount)
    (single : ∀ entry ∈ layout.entries, RuleText.Single entry.line) : Result.Alike
    (fun error error' => ∃ earlier entry later reason, layout.entries = earlier ++ entry :: later ∧
      error = .malformed (earlier.length + 1) reason ∧
      error' = .malformed ((layout.above earlier entry).length + 1) reason)
    (fun rules taken => ∃ start, taken = (rules, Text.numbered start layout.behind))
    (Rule.ofText layout.source) layout.announces.takeRules := by
  have single' : ∀ entry ∈ layout.entries.map Entry.read, RuleText.Single entry.line := by
    intro entry member
    obtain ⟨raw, inside, rfl⟩ := List.mem_map.mp member
    exact (single raw inside).withoutReturn
  have length : (layout.entries.map Entry.read).length = layout.productionCount := by
    rw [List.length_map, productions]
  rw [Rule.ofText, Text.numberedLines_eq, lines_source, Header.takeRules, announces, ← length]
  refine (takeRules_alike _ _ _ single' 0 none).imp ?_ fun rules taken same => ⟨_, same⟩
  rintro _ _ ⟨earlier', entry', later', reason, cut, rfl, rfl⟩
  obtain ⟨earlier, behind, whole, rfl, same⟩ := List.map_eq_append_iff.mp cut
  obtain ⟨entry, later, rfl, rfl, rfl⟩ := List.map_eq_cons_iff.mp same
  refine ⟨earlier, entry, later, reason, whole, by simp, ?_⟩
  simp only [above, Entry.flatMap_lines_read, Entry.read, List.length_append, List.length_map, List.length_cons]
  congr 1
  omega

private theorem takeStrings_behind {header : Nat} (strings : layout.strings.length = layout.stringCount) (start : Nat) :
    takeStrings header layout.stringCount (Text.numbered start layout.behind) =
      .ok (layout.strings.map Text.trimmed) := by
  have length : (layout.strings.map Text.withoutReturn).length = layout.stringCount := by
    rw [List.length_map, strings]
  have enough : ¬ layout.behind.length < layout.stringCount := by
    rw [behind, List.length_append, length]
    omega
  rw [takeStrings_numbered, if_neg enough, behind, List.take_left' length, List.map_map]
  congr 1
  exact List.map_congr_left fun line _ => Text.trimmed_withoutReturn line

private theorem readHeader_text_eq : readHeader layout.text =
    match readCounts layout.header with
    | .error reason => .error (.malformed (layout.before.length + 1) reason)
    | .ok (productionCount, stringCount) => .ok ⟨layout.before.length + 1, productionCount, stringCount,
        Text.numbered (layout.before.length + 1 + 1) (layout.entryLines ++ layout.behind)⟩ := by
  have blank : ∀ line ∈ layout.before.map Text.withoutReturn, Text.allBlank line = true := by
    intro line member
    obtain ⟨raw, inside, rfl⟩ := List.mem_map.mp member
    rw [Text.allBlank_withoutReturn]
    exact layout.blank raw inside
  have filled : Text.allBlank (Text.withoutReturn layout.header) = false := by
    rw [Text.allBlank_withoutReturn, Bool.eq_false_iff]
    intro empty
    have announced := layout.announced
    rw [Text.words_eq_nil.mpr empty] at announced
    cases announced
  have counts : readCounts (Text.withoutReturn layout.header) = readCounts layout.header := by
    rw [readCounts, Text.words_withoutReturn, readCounts]
  rw [readHeader_of_lines layout.lines_text blank filled, List.length_map, counts]

theorem readHeader_text (readable : layout.Readable) : readHeader layout.text = .ok layout.announces := by
  rw [readHeader_text_eq, readCounts_of_words layout.announced, if_pos ⟨readable.1, readable.2⟩]
  rfl

theorem readHeader_text_tooLarge (large : ¬ layout.Readable) : readHeader layout.text =
    .error (.malformed (layout.before.length + 1) (.badCount .tooLarge)) := by
  rw [Readable] at large
  rw [readHeader_text_eq, readCounts_of_words layout.announced, if_neg large]

private theorem takes_of_endsEarly (spelled : ∀ entry ∈ layout.entries, ∃ rule, RuleText.SpellsRule entry.line rule)
    (early : layout.EndsEarly) :
    (layout.announces.takeRules = .error (.malformed (layout.before.length + 1) .fewProductions)) ∨
    ∃ rules rest, layout.announces.takeRules = .ok (rules, rest) ∧
      takeStrings (layout.before.length + 1) layout.stringCount rest =
        .error (.malformed (layout.before.length + 1) .fewStrings) := by
  have spelled' : ∀ entry ∈ layout.entries.map Entry.read, ∃ rule, RuleText.SpellsRule entry.line rule := by
    intro entry member
    obtain ⟨raw, inside, rfl⟩ := List.mem_map.mp member
    exact (spelled raw inside).imp fun rule spells => spells.withoutReturn
  unfold announces Header.takeRules
  dsimp only
  rcases early with ⟨few, blank⟩ | ⟨all, few⟩
  · obtain ⟨missing, same⟩ := Nat.exists_eq_add_of_lt few
    obtain ⟨rules, taken⟩ := takeRules_spelled (layout.before.length + 1) (missing + 1)
      (layout.before.length + 1) layout.behind spelled'
    rw [List.length_map, takeRules_blank _ _ _ _ blank, ← Nat.add_assoc, ← same] at taken
    exact .inl taken
  · obtain ⟨rules, taken⟩ := takeRules_spelled (layout.before.length + 1) 0
      (layout.before.length + 1) layout.behind spelled'
    rw [List.length_map, all, Nat.add_zero, takeRules] at taken
    refine .inr ⟨_, _, taken, ?_⟩
    rw [takeStrings_numbered, if_pos few]

/-- A batch is read as its production lines are read as a text of their own, and its strings are trimmed. A line
that is refused has its own number in the batch. -/
theorem ofText_complete (readable : layout.Readable) (productions : layout.entries.length = layout.productionCount)
    (strings : layout.strings.length = layout.stringCount)
    (single : ∀ entry ∈ layout.entries, RuleText.Single entry.line) :
    (∃ g, Grammar.ofText layout.source = .ok g ∧
      ofText layout.text = .ok ⟨g, layout.strings.map Text.trimmed⟩) ∨
    ∃ earlier entry later reason, layout.entries = earlier ++ entry :: later ∧
      Grammar.ofText layout.source = .error (.malformed (earlier.length + 1) reason) ∧
      ofText layout.text = .error (.malformed ((layout.above earlier entry).length + 1) reason) := by
  have alike := layout.rules_alike productions single
  generalize taken : layout.announces.takeRules = result at alike
  generalize rules : Rule.ofText layout.source = own at alike
  have header := layout.readHeader_text readable
  cases alike with
  | ok related =>
    obtain ⟨start, rfl⟩ := related
    obtain ⟨g, built, success⟩ := Grammar.ofText_of_spells (Rule.ofText_eq_ok.mp rules)
    exact .inl ⟨g, success, Result.bind_eq_ok.mpr ⟨_, header, Result.bind_eq_ok.mpr ⟨_, taken,
      Result.bind_eq_ok.mpr ⟨_, layout.takeStrings_behind strings start,
        Result.bind_eq_ok.mpr ⟨g, built, rfl⟩⟩⟩⟩⟩
  | error related =>
    obtain ⟨earlier, entry, later, reason, cut, rfl, rfl⟩ := related
    exact .inr ⟨earlier, entry, later, reason, cut, Result.bind_eq_error.mpr (.inl rules),
      Result.bind_eq_error.mpr (.inr ⟨_, header, Result.bind_eq_error.mpr (.inl taken)⟩)⟩

/-- A batch that ends early is refused at its header. -/
theorem ofText_short (spelled : ∀ entry ∈ layout.entries, ∃ rule, RuleText.SpellsRule entry.line rule)
    (early : layout.EndsEarly) :
    ∃ reason, ofText layout.text = .error (.malformed (layout.before.length + 1) reason) := by
  by_cases readable : layout.Readable
  · have header := layout.readHeader_text readable
    rcases layout.takes_of_endsEarly spelled early with few | ⟨rules, rest, taken, few⟩
    · exact ⟨_, Result.bind_eq_error.mpr (.inr ⟨_, header, Result.bind_eq_error.mpr (.inl few)⟩)⟩
    · exact ⟨_, Result.bind_eq_error.mpr (.inr ⟨_, header, Result.bind_eq_error.mpr (.inr
        ⟨_, taken, Result.bind_eq_error.mpr (.inl few)⟩)⟩)⟩
  · exact ⟨_, Result.bind_eq_error.mpr (.inl (layout.readHeader_text_tooLarge readable))⟩

end Layout

end Batch

end SimpleLR
