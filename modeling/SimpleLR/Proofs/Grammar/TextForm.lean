import SimpleLR.Proofs.Grammar.Loading
import SimpleLR.Proofs.Text.Lines

/-! The text form of a grammar, said without a reader: what a head, a body and a line spell, and which lines
fit behind others. A text is read exactly if all its lines fit, and the first one that does not is the error. -/
namespace SimpleLR

/-- A text with one arrow, and what stands on its two sides. -/
structure Text.OneArrow (text left right : Text) : Prop where
  cut : text = left ++ arrow ++ right
  left : ¬ arrow <:+: left
  right : ¬ arrow <:+: right

theorem Text.arrowParts_eq_pair_iff {text left right : Text} :
    arrowParts text = [left, right] ↔ text.OneArrow left right :=
  arrowParts_eq_pair.trans
    ⟨fun ⟨cut, first, last⟩ => ⟨cut, first, last⟩, fun ⟨cut, first, last⟩ => ⟨cut, first, last⟩⟩

namespace RuleText

/-- The words that are no names of symbols. -/
def reserved : List Text := endMarkName :: quote :: epsilonMarkers

/-- A text that holds one word, which may be a head. -/
structure SpellsHead (left head : Text) : Prop where
  words : Text.words left = [head]
  free : head ∉ reserved

/-- A text whose words are the names of a body, or one of the ways to write epsilon. -/
inductive SpellsBody (alternative : Text) : List Text → Prop where
  | marker {marker : Text} (words : Text.words alternative = [marker])
      (known : marker ∈ epsilonMarkers) : SpellsBody alternative []
  | quotes (words : Text.words alternative = [quote, quote]) : SpellsBody alternative []
  | names {names : List Text} (words : Text.words alternative = names) (filled : names ≠ [])
      (free : ∀ name ∈ names, name ∉ reserved) : SpellsBody alternative names

/-- A text whose parts between bars spell bodies. -/
def SpellsBodies (right : Text) (bodies : List (List Text)) : Prop :=
  ∃ alternatives, right = Text.joined "|" alternatives ∧ alternatives ≠ [] ∧
    (∀ alternative ∈ alternatives, '|' ∉ alternative) ∧ List.Forall₂ SpellsBody alternatives bodies

/-- A line with a head, an arrow and bodies, or without an arrow, where a bar stands for the head before. -/
inductive SpellsLine (previous : Option Text) (line : Text) : Text → List (List Text) → Prop where
  | rule {left right head : Text} {bodies : List (List Text)} (cut : line.OneArrow left right)
      (names : SpellsHead left head) (spells : SpellsBodies right bodies) :
      SpellsLine previous line head bodies
  | continuation {head right : Text} {bodies : List (List Text)} (single : ¬ Text.arrow <:+: line)
      (begins : Text.trimmed line = '|' :: right) (follows : previous = some head)
      (spells : SpellsBodies right bodies) : SpellsLine previous line head bodies

/-- Lines that spell rules, given the head of the line before. -/
inductive Spells : Option Text → List Text → List Rule → Prop where
  | done {previous : Option Text} : Spells previous [] []
  | blank {previous : Option Text} {line : Text} {rest : List Text} {rules : List Rule}
      (empty : Text.allBlank line = true) (later : Spells previous rest rules) :
      Spells previous (line :: rest) rules
  | line {previous : Option Text} {line head : Text} {rest : List Text} {bodies : List (List Text)}
      {rules : List Rule} (filled : Text.allBlank line = false)
      (own : SpellsLine previous line head bodies) (later : Spells (some head) rest rules) :
      Spells previous (line :: rest) (bodies.map (Rule.mk head) ++ rules)

/-- A line that may stand where it stands. A bar in place of a head needs a head somewhere before it. -/
inductive Fits (hasHead : Prop) (line : Text) : Prop where
  | blank (empty : Text.allBlank line = true)
  | rule {left right head : Text} {bodies : List (List Text)} (cut : line.OneArrow left right)
      (names : SpellsHead left head) (spells : SpellsBodies right bodies)
  | continuation {right : Text} {bodies : List (List Text)} (single : ¬ Text.arrow <:+: line)
      (begins : Text.trimmed line = '|' :: right) (spells : SpellsBodies right bodies) (follows : hasHead)

/-- Lines that hold something other than white space. -/
def Filled (lines : List Text) : Prop := ∃ line ∈ lines, Text.allBlank line = false

/-- Lines of which each one fits behind those before it. -/
def AllFit (lines : List Text) : Prop :=
  ∀ earlier line later, lines = earlier ++ line :: later → Fits (Filled earlier) line

/-- The same of lines that stand behind others, among which there may be a head. -/
def AllFitBehind (hasHead : Prop) (lines : List Text) : Prop :=
  ∀ earlier line later, lines = earlier ++ line :: later → Fits (hasHead ∨ Filled earlier) line

/-- Numbered lines of which the one with a number is the first that does not fit. -/
def Misfit (hasHead : Prop) (pairs : List (Nat × Text)) (number : Nat) : Prop :=
  ∃ earlier line later, pairs = earlier ++ (number, line) :: later ∧
    AllFitBehind hasHead (earlier.map Prod.snd) ∧ ¬ Fits (hasHead ∨ Filled (earlier.map Prod.snd)) line

section Reading

variable {alternative left right : Text}

theorem mem_reserved {name : Text} :
    name ∈ reserved ↔ name = endMarkName ∨ name ∈ epsilonMarkers ∨ name = quote := by
  rw [reserved, List.mem_cons, List.mem_cons, or_comm (a := name = quote)]

theorem readHead_eq_ok {head : Text} : readHead left = .ok head ↔ SpellsHead left head := by
  unfold readHead
  dsimp only
  rw [Text.words_trimmed]
  constructor
  · intro success
    split at success
    · cases success
    · split at success
      · cases success
      · rename_i single
        obtain ⟨word, only⟩ := List.length_eq_one_iff.mp (by simpa using single)
        rw [Text.trimmed_of_words only] at success
        split at success
        · cases success
        · rename_i free
          obtain rfl := Except.ok.inj success
          refine ⟨only, ?_⟩
          simpa [mem_reserved, or_assoc] using free
  · rintro ⟨only, free⟩
    have filled := (Text.mem_words (only ▸ List.mem_singleton_self head)).1
    rw [mem_reserved] at free
    rw [Text.trimmed_of_words only, only]
    simp [filled, or_assoc, free]

theorem readBody_eq_ok {body : List Text} :
    readBody alternative = .ok body ↔ SpellsBody alternative body := by
  unfold readBody
  dsimp only
  constructor
  · intro success
    split at success
    · cases success
    rename_i filled
    split at success
    · rename_i quotes
      obtain rfl := Except.ok.inj success
      exact .quotes (by simpa using quotes)
    split at success
    · rename_i marker
      obtain rfl := Except.ok.inj success
      obtain ⟨single, known⟩ : (Text.words alternative).length = 1 ∧
          ∀ name ∈ Text.words alternative, name ∈ epsilonMarkers := by simpa using marker
      obtain ⟨word, only⟩ := List.length_eq_one_iff.mp single
      exact .marker only (known word (by simp [only]))
    split at success
    · cases success
    rename_i unmixed
    split at success
    · cases success
    rename_i unended
    refine .names (Except.ok.inj success) ?_ fun name member => ?_
    · exact Except.ok.inj success ▸ by simpa using filled
    · rw [← Except.ok.inj success] at member
      rw [mem_reserved]
      rintro (rfl | marker | rfl)
      · exact unended (by simpa using member)
      · exact unmixed (List.any_eq_true.mpr ⟨name, member, by simp [marker]⟩)
      · exact unmixed (List.any_eq_true.mpr ⟨_, member, by simp⟩)
  · rintro (⟨only, known⟩ | only | ⟨only, filled, free⟩)
    · rw [only]
      simp [known]
    · rw [only]
      rfl
    · rw [only]
      have unmarked : ∀ name ∈ body, name ≠ endMarkName ∧ name ∉ epsilonMarkers ∧ name ≠ quote :=
        fun name member => by simpa [mem_reserved, not_or] using free name member
      rw [if_neg (by simpa using filled), if_neg, if_neg, if_neg, if_neg]
      · simpa using fun ended => (unmarked _ ended).1 rfl
      · simpa using fun name member => ⟨(unmarked name member).2.2, (unmarked name member).2.1⟩
      · obtain ⟨first, rest, rfl⟩ := List.exists_cons_of_ne_nil filled
        simp [(unmarked first List.mem_cons_self).2.1]
      · intro quotes
        obtain rfl : body = [quote, quote] := by simpa using quotes
        exact (unmarked quote List.mem_cons_self).2.2 rfl

theorem readBodies_eq_ok {bodies : List (List Text)} :
    (Text.barParts right).mapM readBody = .ok bodies ↔ SpellsBodies right bodies := by
  rw [Result.mapM_eq_ok]
  constructor
  · intro read
    refine ⟨Text.barParts right, (Text.joined_pieces '|' right).symm, Text.pieces_ne_nil _ right, ?_, ?_⟩
    · intro alternative member inside
      have apart := Text.not_isMark_of_mem_pieces member inside
      cases apart
    · exact read.imp fun _ _ => readBody_eq_ok.mp
  · rintro ⟨alternatives, rfl, filled, free, spells⟩
    have parts : Text.barParts (Text.joined "|" alternatives) = alternatives :=
      Text.pieces_joined free filled
    rw [parts]
    exact spells.imp fun _ _ => readBody_eq_ok.mpr

theorem splitLine_eq_ok {previous : Option Text} {line head : Text} :
    splitLine previous line = .ok (head, right) ↔
      (∃ left, line.OneArrow left right ∧ SpellsHead left head) ∨
      (¬ Text.arrow <:+: line ∧ Text.trimmed line = '|' :: right ∧ previous = some head) := by
  unfold splitLine
  constructor
  · intro success
    split at success
    · rename_i left behind parts
      obtain ⟨name, read, same⟩ := Result.bind_eq_ok.mp success
      obtain ⟨rfl, rfl⟩ := Prod.mk.inj (Except.ok.inj same)
      exact .inl ⟨left, Text.arrowParts_eq_pair_iff.mp parts, readHead_eq_ok.mp read⟩
    · rename_i whole parts
      obtain ⟨rfl, single⟩ := Text.arrowParts_eq_singleton.mp parts
      split at success
      · rename_i name behind begins
        obtain ⟨rfl, rfl⟩ := Prod.mk.inj (Except.ok.inj success)
        exact .inr ⟨single, begins, rfl⟩
      · cases success
    · cases success
  · rintro (⟨left, cut, names⟩ | ⟨single, begins, rfl⟩)
    · rw [Text.arrowParts_eq_pair_iff.mpr cut]
      exact Result.bind_eq_ok.mpr ⟨head, readHead_eq_ok.mpr names, rfl⟩
    · rw [Text.arrowParts_of_free single]
      simp [begins]

theorem readLine_eq_ok {previous : Option Text} {line head : Text} {bodies : List (List Text)} :
    readLine previous line = .ok (head, bodies) ↔ SpellsLine previous line head bodies := by
  unfold readLine
  rw [Result.bind_eq_ok]
  constructor
  · rintro ⟨⟨name, right⟩, split, read⟩
    obtain ⟨list, spells, same⟩ := Result.bind_eq_ok.mp read
    obtain ⟨rfl, rfl⟩ := Prod.mk.inj (Except.ok.inj same)
    have spells := readBodies_eq_ok.mp spells
    rcases splitLine_eq_ok.mp split with ⟨left, cut, names⟩ | ⟨single, begins, follows⟩
    · exact .rule cut names spells
    · exact .continuation single begins follows spells
  · rintro (⟨cut, names, spells⟩ | ⟨single, begins, follows, spells⟩)
    · refine ⟨_, splitLine_eq_ok.mpr (.inl ⟨_, cut, names⟩), ?_⟩
      exact Result.bind_eq_ok.mpr ⟨bodies, readBodies_eq_ok.mpr spells, rfl⟩
    · refine ⟨_, splitLine_eq_ok.mpr (.inr ⟨single, begins, follows⟩), ?_⟩
      exact Result.bind_eq_ok.mpr ⟨bodies, readBodies_eq_ok.mpr spells, rfl⟩

end Reading

section Lines

variable {hasHead : Prop} {previous : Option Text} {line : Text} {lines : List Text}

/-- A line fits exactly if it is blank or spells bodies of some head. -/
theorem fits_iff : Fits (previous.isSome = true) line ↔
    Text.allBlank line = true ∨ ∃ head bodies, SpellsLine previous line head bodies := by
  constructor
  · rintro (empty | ⟨cut, names, spells⟩ | ⟨single, begins, spells, follows⟩)
    · exact .inl empty
    · exact .inr ⟨_, _, .rule cut names spells⟩
    · obtain ⟨head, follows⟩ := Option.isSome_iff_exists.mp follows
      exact .inr ⟨head, _, .continuation single begins follows spells⟩
  · rintro (empty | ⟨head, bodies, ⟨cut, names, spells⟩ | ⟨single, begins, follows, spells⟩⟩)
    · exact .blank empty
    · exact .rule cut names spells
    · exact .continuation single begins spells (follows ▸ rfl)

theorem allFitBehind_nil : AllFitBehind hasHead [] := by
  intro earlier line later cut
  simp at cut

theorem filled_cons : Filled (line :: lines) ↔ Text.allBlank line = false ∨ Filled lines := by
  simp [Filled]

/-- The lines behind a line have a head before them if it had one or is not blank. -/
theorem allFitBehind_cons : AllFitBehind hasHead (line :: lines) ↔
    Fits hasHead line ∧ AllFitBehind (hasHead ∨ Text.allBlank line = false) lines := by
  constructor
  · intro fit
    refine ⟨?_, fun earlier other later cut => ?_⟩
    · have own := fit [] line lines rfl
      simpa [Filled] using own
    · have own := fit (line :: earlier) other later (by rw [cut]; rfl)
      rwa [filled_cons, ← or_assoc] at own
  · rintro ⟨own, others⟩ earlier other later cut
    cases earlier with
    | nil =>
      obtain ⟨rfl, rfl⟩ := List.cons.inj cut
      simpa [Filled] using own
    | cons first rest =>
      obtain ⟨rfl, rfl⟩ := List.cons.inj cut
      have behind := others rest other later rfl
      rwa [or_assoc, ← filled_cons] at behind

private theorem allFitBehind_of_spells {rules : List Rule} (spells : Spells previous lines rules) :
    AllFitBehind (previous.isSome = true) lines := by
  induction spells with
  | done => exact allFitBehind_nil
  | blank empty _ ih => exact allFitBehind_cons.mpr ⟨.blank empty, by simpa [empty] using ih⟩
  | line filled own _ ih =>
    exact allFitBehind_cons.mpr ⟨fits_iff.mpr (.inr ⟨_, _, own⟩), by simpa [filled] using ih⟩

private theorem readLines_eq_ok {pairs : List (Nat × Text)} {rules : List Rule} :
    readLines previous pairs = .ok rules ↔ Spells previous (pairs.map Prod.snd) rules := by
  induction pairs generalizing previous rules with
  | nil =>
    constructor
    · intro success
      obtain rfl := Except.ok.inj success
      exact .done
    · intro spells
      cases spells
      rfl
  | cons pair rest ih =>
    obtain ⟨number, line⟩ := pair
    rw [readLines, List.map_cons]
    constructor
    · intro success
      split at success
      · rename_i empty
        exact .blank empty (ih.mp success)
      · rename_i filled
        split at success
        · cases success
        · rename_i head bodies own
          obtain ⟨later, read, same⟩ := Result.bind_eq_ok.mp success
          obtain rfl := Except.ok.inj same
          exact .line (by simpa using filled) (readLine_eq_ok.mp own) (ih.mp read)
    · intro spells
      cases spells with
      | blank empty later => rw [if_pos empty, ih.mpr later]
      | line filled own later =>
        rw [if_neg (by simp [filled]), readLine_eq_ok.mpr own]
        exact Result.bind_eq_ok.mpr ⟨_, ih.mpr later, rfl⟩

theorem misfit_cons {number at' : Nat} {rest : List (Nat × Text)} (fits : Fits hasHead line)
    (later : Misfit (hasHead ∨ Text.allBlank line = false) rest number) :
    Misfit hasHead ((at', line) :: rest) number := by
  obtain ⟨earlier, other, behind, cut, fit, misfit⟩ := later
  refine ⟨(at', line) :: earlier, other, behind, by rw [cut]; rfl, allFitBehind_cons.mpr ⟨fits, fit⟩, ?_⟩
  rwa [List.map_cons, filled_cons, ← or_assoc]

/-- The error of a text is that of the first line that does not fit. -/
private theorem readLines_eq_error {pairs : List (Nat × Text)} {error : GrammarError}
    (failed : readLines previous pairs = .error error) :
    ∃ number reason, error = .malformed number reason ∧ Misfit (previous.isSome = true) pairs number := by
  induction pairs generalizing previous with
  | nil => cases failed
  | cons pair rest ih =>
    obtain ⟨number, line⟩ := pair
    rw [readLines] at failed
    split at failed
    · rename_i empty
      obtain ⟨other, reason, same, misfit⟩ := ih failed
      exact ⟨other, reason, same, misfit_cons (.blank empty) (by simpa [empty] using misfit)⟩
    · rename_i filled
      have filled : Text.allBlank line = false := by simpa using filled
      split at failed
      · rename_i reason refused
        refine ⟨number, reason, (Except.error.inj failed).symm, [], line, rest, rfl, allFitBehind_nil, ?_⟩
        intro fits
        have fits : Fits (previous.isSome = true) line := by simpa [Filled] using fits
        rcases fits_iff.mp fits with empty | ⟨head, bodies, own⟩
        · simp [filled] at empty
        · rw [readLine_eq_ok.mpr own] at refused
          cases refused
      · rename_i head bodies own
        have fits := fits_iff.mpr (.inr ⟨head, bodies, readLine_eq_ok.mp own⟩)
        rcases Result.bind_eq_error.mp failed with later | ⟨rules, _, never⟩
        · obtain ⟨other, reason, same, misfit⟩ := ih later
          exact ⟨other, reason, same, misfit_cons fits (by simpa [filled] using misfit)⟩
        · cases never

end Lines

section Names

/-- A name that a text can spell. -/
structure IsName (name : Text) : Prop where
  filled : name ≠ []
  solid : ∀ c ∈ name, Text.isBlank c = false
  free : name ∉ reserved
  arrow : ¬ Text.arrow <:+: name

/-- A rule that a text can spell. A bar may stand in a head, but not in a body. -/
structure Writable (rule : Rule) : Prop where
  head : IsName rule.head
  body : ∀ name ∈ rule.body, IsName name ∧ '|' ∉ name

theorem isName_of_mem_words {text name : Text} (member : name ∈ Text.words text)
    (arrow : ¬ Text.arrow <:+: text) (free : name ∉ reserved) : IsName name :=
  ⟨(Text.mem_words member).1, (Text.mem_words member).2, free,
    fun inner => arrow (inner.trans (Text.infix_of_mem_words member))⟩

theorem SpellsBody.isName {alternative : Text} {body : List Text} (spells : SpellsBody alternative body)
    (arrow : ¬ Text.arrow <:+: alternative) (bar : '|' ∉ alternative) :
    ∀ name ∈ body, IsName name ∧ '|' ∉ name := by
  cases spells with
  | marker words known => simp
  | quotes words => simp
  | names words filled free =>
    intro name member
    have inside : name ∈ Text.words alternative := words ▸ member
    exact ⟨isName_of_mem_words inside arrow (free name member),
      fun stands => bar ((Text.infix_of_mem_words inside).subset stands)⟩

theorem SpellsHead.isName {left head : Text} (spells : SpellsHead left head)
    (arrow : ¬ Text.arrow <:+: left) : IsName head :=
  isName_of_mem_words (by simp [spells.words]) arrow spells.free

theorem SpellsBodies.writable {right head : Text} {bodies : List (List Text)}
    (spells : SpellsBodies right bodies) (arrow : ¬ Text.arrow <:+: right) (named : IsName head) :
    ∀ rule ∈ bodies.map (Rule.mk head), Writable rule := by
  obtain ⟨alternatives, rfl, filled, free, each⟩ := spells
  have inside : ∀ alternative ∈ alternatives, ¬ Text.arrow <:+: alternative := by
    intro alternative member inner
    rw [← Text.pieces_joined free filled] at member
    exact arrow (inner.trans (Text.infix_of_mem_pieces member))
  have bodies : ∀ body ∈ bodies, ∀ name ∈ body, IsName name ∧ '|' ∉ name := by
    clear filled arrow
    induction each with
    | nil => simp
    | cons own _ ih =>
      obtain ⟨bar, bars⟩ := List.forall_mem_cons.mp free
      obtain ⟨arrow, arrows⟩ := List.forall_mem_cons.mp inside
      exact List.forall_mem_cons.mpr ⟨own.isName arrow bar, ih bars arrows⟩
  intro rule member
  obtain ⟨body, present, rfl⟩ := List.mem_map.mp member
  exact ⟨named, bodies body present⟩

theorem SpellsLine.writable {previous : Option Text} {line head : Text} {bodies : List (List Text)}
    (spells : SpellsLine previous line head bodies) (named : ∀ head, previous = some head → IsName head) :
    IsName head ∧ ∀ rule ∈ bodies.map (Rule.mk head), Writable rule := by
  cases spells with
  | rule cut names spells =>
    have own := names.isName cut.left
    exact ⟨own, spells.writable cut.right own⟩
  | continuation single begins follows spells =>
    have own := named head follows
    refine ⟨own, spells.writable (fun inner => single ?_) own⟩
    have behind := begins ▸ Text.infix_trimmed line
    exact inner.trans ((List.suffix_cons '|' _).isInfix.trans behind)

theorem Spells.writable {previous : Option Text} {lines : List Text} {rules : List Rule}
    (spells : Spells previous lines rules) (named : ∀ head, previous = some head → IsName head) :
    ∀ rule ∈ rules, Writable rule := by
  induction spells with
  | done => simp
  | blank _ _ ih => exact ih named
  | line _ own _ ih =>
    obtain ⟨head, first⟩ := own.writable named
    intro rule member
    rcases List.mem_append.mp member with here | later
    · exact first rule here
    · exact ih (fun other same => Option.some.inj same ▸ head) rule later

private theorem mem_reserved_of_epsilon {name : Text} (spelled : name ∈ Symbol.epsilon.spellings) :
    name ∈ reserved := by
  rcases List.mem_cons.mp spelled with rfl | spelled
  · decide
  · obtain rfl := List.mem_singleton.mp spelled
    decide

theorem IsName.placed {name : Text} (named : IsName name) :
    name ∉ Symbol.epsilon.spellings ∧ name ≠ endMarkName := by
  refine ⟨fun spelled => named.free (mem_reserved_of_epsilon spelled), ?_⟩
  rintro rfl
  exact named.free List.mem_cons_self

theorem Writable.placed {rule : Rule} (writable : Writable rule) : rule.misplaced? = none := by
  unfold Rule.misplaced?
  dsimp only
  rw [if_neg (by simp [writable.head.placed]), List.find?_eq_none]
  intro name member
  simp [(writable.body name member).1.placed]

end Names

theorem allFit_iff {lines : List Text} : AllFit lines ↔ AllFitBehind False lines := by
  simp [AllFit, AllFitBehind]

end RuleText

namespace Rule

/-- A text has the rules that its lines spell. -/
theorem ofText_eq_ok {text : Text} {rules : List Rule} :
    ofText text = .ok rules ↔ RuleText.Spells none (Text.lines text) rules := by
  rw [ofText, RuleText.readLines_eq_ok, Text.map_snd_numberedLines]

/-- A text without rules has a line that does not fit, and the first one is refused. -/
theorem ofText_eq_error {text : Text} {error : GrammarError} (failed : ofText text = .error error) :
    ∃ earlier line later reason, Text.lines text = earlier ++ line :: later ∧
      RuleText.AllFit earlier ∧ ¬ RuleText.Fits (RuleText.Filled earlier) line ∧
      error = .malformed (earlier.length + 1) reason := by
  obtain ⟨number, reason, rfl, earlier, line, later, cut, fit, misfit⟩ :=
    RuleText.readLines_eq_error failed
  have lines := congrArg (List.map Prod.snd) cut
  rw [Text.map_snd_numberedLines, List.map_append, List.map_cons] at lines
  refine ⟨_, line, _, reason, lines, ?_, by simpa using misfit, ?_⟩
  · exact RuleText.allFit_iff.mpr (by simpa using fit)
  · rw [Text.number_of_numberedLines cut, List.length_map]

end Rule

namespace Grammar

private theorem ofRules_ok {rules : List Rule} (writable : ∀ rule ∈ rules, RuleText.Writable rule) :
    ∃ g, ofRules rules = .ok g :=
  ⟨_, ofRules_eq_ok.mpr ⟨fun rule member => (writable rule member).placed, rfl⟩⟩

theorem ofText_of_spells {text : Text} {rules : List Rule}
    (spells : RuleText.Spells none (Text.lines text) rules) :
    ∃ g, ofRules rules = .ok g ∧ ofText text = .ok g := by
  obtain ⟨g, built⟩ := ofRules_ok (spells.writable (by simp))
  exact ⟨g, built, Result.bind_eq_ok.mpr ⟨rules, Rule.ofText_eq_ok.mpr spells, built⟩⟩

/-- A text is read as a grammar exactly if every line fits behind those before it. Then the grammar is that
of the rules which the lines spell. Otherwise the first line that does not fit is refused. -/
theorem ofText_exact (text : Text) :
    ((∃ g, ofText text = .ok g) ↔ RuleText.AllFit (Text.lines text)) ∧
    (RuleText.AllFit (Text.lines text) → ∃ rules g, RuleText.Spells none (Text.lines text) rules ∧
      ofRules rules = .ok g ∧ ofText text = .ok g) ∧
    (¬ RuleText.AllFit (Text.lines text) → ∃ earlier line later reason,
      Text.lines text = earlier ++ line :: later ∧ RuleText.AllFit earlier ∧
      ¬ RuleText.Fits (RuleText.Filled earlier) line ∧
      ofText text = .error (.malformed (earlier.length + 1) reason)) ∧
    ∀ name, ofText text ≠ .error (.reserved name) := by
  cases read : Rule.ofText text with
  | ok rules =>
    have spells := Rule.ofText_eq_ok.mp read
    have fit := RuleText.allFit_iff.mpr (by simpa using RuleText.allFitBehind_of_spells spells)
    obtain ⟨g, built, success⟩ := ofText_of_spells spells
    refine ⟨⟨fun _ => fit, fun _ => ⟨g, success⟩⟩, fun _ => ⟨rules, g, spells, built, success⟩,
      fun misfit => absurd fit misfit, fun name => by simp [success]⟩
  | error error =>
    obtain ⟨earlier, line, later, reason, cut, fit, misfit, rfl⟩ := Rule.ofText_eq_error read
    have failed : ofText text = .error (.malformed (earlier.length + 1) reason) :=
      Result.bind_eq_error.mpr (.inl read)
    have broken : ¬ RuleText.AllFit (Text.lines text) := fun all => misfit (all earlier line later cut)
    refine ⟨⟨fun ⟨g, success⟩ => ?_, fun all => absurd all broken⟩, fun all => absurd all broken,
      fun _ => ⟨earlier, line, later, reason, cut, fit, misfit, failed⟩, fun name => by simp [failed]⟩
    rw [failed] at success
    cases success

/-- The bar of the third line stands for the head of the first one. -/
example : Rule.ofText "S -> a S | ' '\n\n | b\n" = .ok [⟨"S", ["a", "S"]⟩, ⟨"S", []⟩, ⟨"S", ["b"]⟩] := by
  decide

end Grammar

end SimpleLR
