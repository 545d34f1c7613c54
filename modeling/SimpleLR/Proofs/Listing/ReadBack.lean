import SimpleLR.Proofs.Listing.Productions

/-! The plain listing of a grammar is a grammar text. It spells the rules of the grammar sorted by head, so that
the grammar that is read from it has the same listing, and is the same if the rules were sorted before. -/
namespace SimpleLR

namespace Rule

/-- The line with the first body of a head. -/
def line (width : Nat) (rule : Rule) : Text :=
  Text.padded width rule.head ++ " -> " ++ Text.joined " " rule.shown

/-- A line with one more body of the head before it. -/
def barLine (width : Nat) (rule : Rule) : Text :=
  Text.padded width [] ++ "  | " ++ Text.joined " " rule.shown

/-- The lines of rules with the same head. -/
def groupLines (width : Nat) : List Rule → List Text
  | [] => []
  | first :: others => first.line width :: others.map (barLine width)

end Rule

namespace Text

theorem arrow_free_append_blank {before behind : Text} (first : ¬ arrow <:+: before)
    (second : ¬ arrow <:+: behind) : ¬ arrow <:+: before ++ ' ' :: behind :=
  fun inner => (infix_append_cons (by decide) inner).elim first second

theorem arrow_free_cons_blank {text : Text} (free : ¬ arrow <:+: text) : ¬ arrow <:+: ' ' :: text :=
  arrow_free_append_blank (by decide : ¬ arrow <:+: []) free

theorem arrow_free_padded (width : Nat) {text : Text} (free : ¬ arrow <:+: text) :
    ¬ arrow <:+: padded width text := by
  rw [padded, List.leftpad]
  induction width - text.length with
  | zero => exact free
  | succ count ih => exact arrow_free_cons_blank ih

theorem arrow_free_joined {names : List Text} (free : ∀ name ∈ names, ¬ arrow <:+: name) :
    ¬ arrow <:+: joined " " names := by
  induction names with
  | nil => decide
  | cons name rest ih =>
    obtain ⟨own, others⟩ := List.forall_mem_cons.mp free
    cases rest with
    | nil => rwa [joined_singleton]
    | cons second more =>
      rw [joined_cons_cons, List.append_assoc]
      exact arrow_free_append_blank own (ih others)

theorem words_padded (width : Nat) (text : Text) : words (padded width text) = words text := by
  rw [padded, List.leftpad]
  induction width - text.length with
  | zero => rfl
  | succ count ih => exact (words_cons _ rfl).trans ih

/-- A text whose white space is blanks. -/
def Spaced (text : Text) : Prop := ∀ c ∈ text, isBlank c = true → c = ' '

instance : DecidablePred Spaced := fun text =>
  List.decidableBAll (fun c => isBlank c = true → c = ' ') text

theorem Spaced.append {before behind : Text} (first : Spaced before) (second : Spaced behind) :
    Spaced (before ++ behind) := fun c member =>
  (List.mem_append.mp member).elim (first c) (second c)

theorem Spaced.of_solid {text : Text} (solid : ∀ c ∈ text, isBlank c = false) : Spaced text := by
  intro c member blank
  rw [solid c member] at blank
  cases blank

theorem Spaced.padded (width : Nat) {text : Text} (spaced : Spaced text) : Spaced (padded width text) :=
  .append (fun _ member _ => (List.mem_replicate.mp member).2) spaced

theorem Spaced.joined {names : List Text} (spaced : ∀ name ∈ names, Spaced name) :
    Spaced (joined " " names) := by
  intro c member blank
  rcases mem_of_mem_joined member with between | ⟨name, inside, stands⟩
  · exact List.mem_singleton.mp between
  · exact spaced name inside c stands blank

theorem Spaced.single {text : Text} (spaced : Spaced text) : '\n' ∉ text ∧ text.getLast? ≠ some '\r' := by
  constructor
  · intro member
    exact absurd (spaced _ member rfl) (by decide)
  · intro last
    exact absurd (spaced _ (List.mem_of_getLast? last) rfl) (by decide)

end Text

namespace RuleText

variable {rule : Rule}

/-- What may be said of every name that is shown. -/
structure Shown (name : Text) : Prop where
  filled : name ≠ []
  solid : ∀ c ∈ name, Text.isBlank c = false
  arrow : ¬ Text.arrow <:+: name
  bar : '|' ∉ name

theorem Writable.shown (writable : Writable rule) : ∀ name ∈ rule.shown, Shown name := by
  intro name member
  unfold Rule.shown at member
  split at member
  · obtain rfl := List.mem_singleton.mp member
    exact ⟨by decide, List.forall_mem_singleton.mpr rfl, by decide, by decide⟩
  · obtain ⟨named, bar⟩ := writable.body name member
    exact ⟨named.filled, named.solid, named.arrow, bar⟩

theorem Writable.words_shown (writable : Writable rule) :
    Text.words (Text.joined " " rule.shown) = rule.shown :=
  Text.words_joined fun name member => ⟨(writable.shown name member).filled, (writable.shown name member).solid⟩

private theorem Writable.spellsBody (writable : Writable rule) {text : Text} (words : Text.words text = rule.shown) :
    SpellsBody text rule.body := by
  unfold Rule.shown at words
  split at words
  · rename_i empty
    rw [List.isEmpty_iff.mp empty]
    exact .marker words (by decide)
  · rename_i filled
    exact .names words (by simpa using filled) fun name member => (writable.body name member).1.free

theorem Writable.bar_not_mem (writable : Writable rule) : '|' ∉ Text.joined " " rule.shown := by
  intro member
  rcases Text.mem_of_mem_joined member with between | ⟨name, inside, stands⟩
  · exact absurd (List.mem_singleton.mp between) (by decide)
  · exact (writable.shown name inside).bar stands

theorem Writable.spellsBodies (writable : Writable rule) {text : Text} (words : Text.words text = rule.shown)
    (bar : '|' ∉ text) : SpellsBodies text [rule.body] :=
  ⟨[text], by simp, by simp, by simpa using bar, .cons (writable.spellsBody words) .nil⟩

private theorem Writable.spells_line (writable : Writable rule) (width : Nat) (previous : Option Text) :
    SpellsLine previous (rule.line width) rule.head [rule.body] := by
  have cut : (rule.line width).OneArrow (Text.padded width rule.head ++ [' '])
      (' ' :: Text.joined " " rule.shown) := by
    refine ⟨?_, ?_, ?_⟩
    · rw [Rule.line]
      simp [Text.arrow]
    · exact Text.arrow_free_append_blank (Text.arrow_free_padded width writable.head.arrow) (by decide)
    · exact Text.arrow_free_cons_blank
        (Text.arrow_free_joined fun name member => (writable.shown name member).arrow)
  refine .rule cut ⟨?_, writable.head.free⟩ (writable.spellsBodies ?_ ?_)
  · rw [Text.words_append_of_blank _ rfl, Text.words_padded,
      Text.words_of_solid writable.head.filled writable.head.solid]
  · rw [Text.words_cons _ rfl, writable.words_shown]
  · simpa using writable.bar_not_mem

private theorem Writable.spells_barLine (writable : Writable rule) (width : Nat) :
    SpellsLine (some rule.head) (rule.barLine width) rule.head [rule.body] := by
  have cut : rule.barLine width =
      (Text.padded width [] ++ [' ', ' ']) ++ '|' :: ' ' :: Text.joined " " rule.shown := by
    rw [Rule.barLine, List.append_assoc, List.append_assoc]
    rfl
  have single : ¬ Text.arrow <:+: rule.barLine width := by
    have spaced : rule.barLine width =
        (Text.padded width [] ++ ' ' :: [' ', '|']) ++ ' ' :: Text.joined " " rule.shown := by
      simp [cut]
    rw [spaced]
    apply Text.arrow_free_append_blank
    · exact Text.arrow_free_append_blank (Text.arrow_free_padded width (by decide)) (by decide)
    · exact Text.arrow_free_joined fun name member => (writable.shown name member).arrow
  have blank : Text.allBlank (Text.padded width [] ++ [' ', ' ']) = true := by
    rw [← Text.words_eq_nil, Text.words_append_of_blank _ rfl, Text.words_padded]
    rfl
  obtain ⟨right, begins, part, words⟩ :=
    Text.trimmed_append_cons blank (c := '|') rfl (' ' :: Text.joined " " rule.shown)
  rw [Text.words_cons _ rfl, writable.words_shown] at words
  refine .continuation single (by rw [cut, begins]) rfl (writable.spellsBodies words ?_)
  intro member
  rcases List.mem_cons.mp (part.subset member) with blank | inside
  · exact absurd blank (by decide)
  · exact writable.bar_not_mem inside

theorem filled_line (rule : Rule) (width : Nat) : Text.allBlank (rule.line width) = false :=
  have dash : '-' ∈ rule.line width := by simp [Rule.line]
  Text.not_allBlank_of_mem dash rfl

theorem filled_barLine (rule : Rule) (width : Nat) : Text.allBlank (rule.barLine width) = false :=
  have bar : '|' ∈ rule.barLine width := by simp [Rule.barLine]
  Text.not_allBlank_of_mem bar rfl

private theorem Writable.spaced_line (writable : Writable rule) (width : Nat) : Text.Spaced (rule.line width) :=
  .append (.append (.padded width (.of_solid writable.head.solid)) (by decide))
    (.joined fun name member => .of_solid (writable.shown name member).solid)

private theorem Writable.spaced_barLine (writable : Writable rule) (width : Nat) : Text.Spaced (rule.barLine width) :=
  .append (.append (.padded width (by decide)) (by decide))
    (.joined fun name member => .of_solid (writable.shown name member).solid)

private theorem single_of_groupLines {rules : List Rule} (writable : ∀ rule ∈ rules, Writable rule) (width : Nat) :
    ∀ line ∈ Rule.groupLines width rules, Text.Spaced line ∧ Text.allBlank line = false := by
  cases rules with
  | nil => simp [Rule.groupLines]
  | cons first rest =>
    obtain ⟨own, others⟩ := List.forall_mem_cons.mp writable
    refine List.forall_mem_cons.mpr ⟨⟨own.spaced_line width, filled_line first width⟩, fun line member => ?_⟩
    obtain ⟨rule, inside, rfl⟩ := List.mem_map.mp member
    exact ⟨(others rule inside).spaced_barLine width, filled_barLine rule width⟩

private theorem spells_barLines {rules later : List Rule} {head : Text} {width : Nat} {lines : List Text}
    (own : ∀ rule ∈ rules, Writable rule ∧ rule.head = head) (behind : Spells (some head) lines later) :
    Spells (some head) (rules.map (Rule.barLine width) ++ lines) (rules ++ later) := by
  induction rules with
  | nil => exact behind
  | cons rule rest ih =>
    obtain ⟨⟨writable, rfl⟩, others⟩ := List.forall_mem_cons.mp own
    exact .line (filled_barLine rule width) (writable.spells_barLine width) (ih others)

private theorem spells_group {rules later : List Rule} {head : Text} {width : Nat} {lines : List Text}
    {previous : Option Text} (own : ∀ rule ∈ rules, Writable rule ∧ rule.head = head)
    (behind : ∀ previous, Spells previous lines later) :
    Spells previous (Rule.groupLines width rules ++ lines) (rules ++ later) := by
  cases rules with
  | nil => exact behind previous
  | cons first rest =>
    obtain ⟨⟨writable, rfl⟩, others⟩ := List.forall_mem_cons.mp own
    exact .line (filled_line first width) (writable.spells_line width previous)
      (spells_barLines others (behind _))

private theorem spells_heads {rules : List Rule} (writable : ∀ rule ∈ rules, Writable rule) (width : Nat)
    (heads : List Text) (previous : Option Text) :
    Spells previous (heads.flatMap fun head => Rule.groupLines width (Rule.ofHead rules head))
      (heads.flatMap (Rule.ofHead rules)) := by
  induction heads generalizing previous with
  | nil => exact .done
  | cons head rest ih =>
    rw [List.flatMap_cons, List.flatMap_cons]
    have own : ∀ rule ∈ Rule.ofHead rules head, Writable rule ∧ rule.head = head := fun rule member =>
      ⟨writable rule (Rule.mem_ofHead.mp member).1, (Rule.mem_ofHead.mp member).2⟩
    exact spells_group own ih

end RuleText

section Lines

variable {rules : List Rule}

private theorem Alternatives.plain_of_group (width : Nat) {group : List Rule} {head : Text}
    (own : ∀ rule ∈ group, rule.head = head) :
    Alternatives.plain width ⟨head, group.map Rule.shown⟩ = Text.joined "\n" (Rule.groupLines width group) := by
  cases group with
  | nil => rfl
  | cons first rest =>
    obtain ⟨rfl, others⟩ := List.forall_mem_cons.mp own
    rw [Alternatives.plain, Rule.groupLines]
    simp only [List.map_cons, List.map_map]
    rfl

private theorem ProductionListing.plain_ofRules (rules : List Rule) : ∃ width, (ofRules rules).plain =
    Text.joined "\n" ((Rule.heads rules).flatMap fun head => Rule.groupLines width (Rule.ofHead rules head)) := by
  refine ⟨(ofRules rules).headWidth, ?_⟩
  rw [plain, List.flatMap_def, Text.joined_flatten, ofRules, List.map_map, List.map_map]
  · congr 1
    apply List.map_congr_left
    intro head member
    exact Alternatives.plain_of_group _ fun rule inside => (Rule.mem_ofHead.mp inside).2
  · intro group member
    obtain ⟨head, inside, rfl⟩ := List.mem_map.mp member
    obtain ⟨rule, present, own⟩ := Rule.mem_heads.mp inside
    obtain ⟨first, others, same⟩ := List.exists_cons_of_ne_nil
      (List.ne_nil_of_mem (Rule.mem_ofHead.mpr ⟨present, own⟩))
    simp [same, Rule.groupLines]

private theorem ProductionListing.ofRules_regrouped (rules : List Rule) :
    ofRules (Rule.regrouped rules) = ofRules rules := by
  simp only [ofRules, Rule.heads_regrouped, Rule.ofHead_regrouped]

/-- The listing of rules spells them, sorted by head. -/
theorem ProductionListing.spells_ofRules (writable : ∀ rule ∈ rules, RuleText.Writable rule) :
    RuleText.Spells none (Text.lines (ofRules rules).plain) (Rule.regrouped rules) := by
  obtain ⟨width, same⟩ := plain_ofRules rules
  have single : ∀ line ∈ (Rule.heads rules).flatMap fun head => Rule.groupLines width (Rule.ofHead rules head),
      Text.Spaced line ∧ Text.allBlank line = false := by
    intro line member
    obtain ⟨head, _, inside⟩ := List.mem_flatMap.mp member
    have own : ∀ rule ∈ Rule.ofHead rules head, RuleText.Writable rule := fun rule present =>
      writable rule (Rule.mem_ofHead.mp present).1
    exact RuleText.single_of_groupLines own width line inside
  rw [same, Text.lines_joined]
  · exact RuleText.spells_heads writable width (Rule.heads rules) none
  · exact fun line member => (single line member).1.single
  · rintro line member rfl
    cases (single [] member).2

end Lines

namespace Grammar

/-- A grammar with the symbols and the rules of another one, by names and head by head. The augmented head does
not count. -/
structure Agrees (g again : Grammar) : Prop where
  nonTerminals : ∃ names, g.listedNonTerminals.mapM g.name = .ok names ∧
    again.listedNonTerminals.mapM again.name = .ok names
  start : g.start.map g.name = again.start.map again.name
  terminals : ∀ name, (∃ index ∈ g.terminals, g.name index = .ok name) ↔
    ∃ index ∈ again.terminals, again.name index = .ok name
  bodies : ∀ head ∈ g.listedNonTerminals, ∀ other ∈ again.listedNonTerminals, ∀ name,
    g.name head = .ok name → again.name other = .ok name →
    ∃ bodies, g.bodies head = .ok bodies ∧ again.bodies other = .ok bodies

variable {g shown again : Grammar} {rules : List Rule}

private theorem agrees_regrouped (success : ofRules rules = .ok g) (sorted : ofRules (Rule.regrouped rules) = .ok again)
    (writable : ∀ rule ∈ rules, RuleText.Writable rule) : g.Agrees again := by
  have writable' : ∀ rule ∈ Rule.regrouped rules, RuleText.Writable rule := fun rule member =>
    writable rule (Rule.mem_regrouped.mp member)
  have listed := listedNonTerminals_of_bare (Loaded.augmented ⟨rules, success⟩)
  have listed' := listedNonTerminals_of_bare (Loaded.augmented ⟨_, sorted⟩)
  refine ⟨⟨Rule.heads rules, ?_, ?_⟩, ?_, fun name => ?_, fun head inside other member name own named => ?_⟩
  · rw [listed, heads_of_ofRules success]
  · rw [listed', heads_of_ofRules sorted, Rule.heads_regrouped]
  · rw [start_of_ofRules success, start_of_ofRules sorted, Rule.heads_regrouped]
  · rw [terminal_of_ofRules success writable, terminal_of_ofRules sorted writable', Rule.heads_regrouped]
    simp only [Rule.mem_regrouped]
  · have first := bodies_of_ofRules success writable (mem_nonTerminals.mp (listed ▸ inside)) own
    have second := bodies_of_ofRules sorted writable' (mem_nonTerminals.mp (listed' ▸ member)) named
    rw [Rule.ofHead_regrouped] at second
    exact ⟨_, first, second⟩

private theorem Agrees.of_augmented {start : Nat} (agrees : g.Agrees again) (formed : g.WellFormed)
    (bare : g.augmented = none) (from' : g.AugmentedFrom start shown) : shown.Agrees again := by
  have listed := from'.listedNonTerminals bare
  have nonTerminal : ∀ head ∈ g.listedNonTerminals, g.isNonTerminal head = true := fun head member =>
    isNonTerminal_of_listed member
  have old : ∀ head ∈ g.listedNonTerminals, head < g.symbols.length := fun head member =>
    lt_of_isNonTerminal (nonTerminal head member)
  obtain ⟨names, own, others⟩ := agrees.nonTerminals
  refine ⟨⟨names, ?_, others⟩, ?_, fun name => ?_, fun head inside other member name own named => ?_⟩
  · rw [listed, from'.mapM_name old, own]
  · have bound := lt_of_isNonTerminal (formed.chosen from'.chosen)
    rw [← agrees.start, from'.start, from'.chosen, Option.map_some, Option.map_some, from'.name bound]
  · rw [← agrees.terminals]
    apply exists_congr
    intro index
    rw [mem_terminals, mem_terminals, from'.isTerminal]
    apply and_congr_right
    intro terminal
    rw [from'.name (lt_of_isTerminal terminal)]
  · rw [listed] at inside
    rw [from'.name (old head inside)] at own
    rw [from'.bodies formed (nonTerminal head inside)]
    exact agrees.bodies head inside other member name own named

private theorem regrouped_eq_of_contiguous (success : ofRules rules = .ok g)
    (contiguous : Contiguous (g.productions.map Production.head)) : Rule.regrouped rules = rules := by
  have transcribes := transcribes_of_ofRules success
  have formed := Loaded.wellFormed ⟨rules, success⟩
  have heads : (rules.map Rule.head).map (fun name => (g.index? name).getD epsilonIndex) =
      g.productions.map Production.head := by
    rw [List.map_map, ← List.forall₂_eq_eq_eq, List.forall₂_map_left_iff, List.forall₂_map_right_iff]
    exact transcribes.reads.imp fun rule production reads => by simp [reads.head]
  apply Rule.regrouped_of_contiguous
  refine Contiguous.of_map ?_ (heads ▸ contiguous)
  intro name member other member' same
  obtain ⟨rule, inside, rfl⟩ := List.mem_map.mp member
  obtain ⟨rule', inside', rfl⟩ := List.mem_map.mp member'
  obtain ⟨index, finds, nonTerminal⟩ := transcribes.exists_head formed inside
  obtain ⟨index', finds', nonTerminal'⟩ := transcribes.exists_head formed inside'
  obtain rfl : index = index' := by simpa [finds, finds'] using same
  have named := name_of_index? finds (.inr nonTerminal)
  exact Except.ok.inj (named.symm.trans (name_of_index? finds' (.inr nonTerminal')))

/-- The plain listing of a grammar that was read from a text, augmented or not, is the text of a grammar that
agrees with it and has the same listing. It is the same grammar if the productions of each head stand together. -/
theorem ofText_of_listing {text : Text} (success : ofText text = .ok g)
    (listed : shown = g ∨ g.augment = .ok shown) : ∃ listing again,
      shown.productionListing = .ok listing ∧ ofText listing.plain = .ok again ∧ shown.Agrees again ∧
      again.productionListing = .ok listing ∧
      (Contiguous (g.productions.map Production.head) → shown = g → again = g) := by
  obtain ⟨rules, read, built⟩ := Result.bind_eq_ok.mp success
  have writable := (Rule.ofText_eq_ok.mp read).writable (by simp)
  have loaded : g.Loaded := ⟨rules, built⟩
  have formed := loaded.wellFormed
  have listing := productionListing_of_ofRules built writable
  obtain ⟨again, sorted, reads⟩ := ofText_of_spells (ProductionListing.spells_ofRules writable)
  have agrees := agrees_regrouped built sorted writable
  have same : again.productionListing = .ok (.ofRules rules) := by
    rw [productionListing_of_ofRules sorted fun rule member => writable rule (Rule.mem_regrouped.mp member),
      ProductionListing.ofRules_regrouped]
  have kept : Contiguous (g.productions.map Production.head) → shown = g → again = g := by
    intro contiguous _
    rw [regrouped_eq_of_contiguous built contiguous] at sorted
    exact Except.ok.inj (sorted.symm.trans built)
  rcases listed with rfl | augmented
  · exact ⟨_, again, listing, reads, agrees, same, kept⟩
  · obtain ⟨start, from'⟩ := augment_eq_ok loaded.augmented augmented
    refine ⟨_, again, ?_, reads, agrees.of_augmented formed loaded.augmented from', same, kept⟩
    rw [from'.productionListing formed loaded.augmented, listing]

/-- The bodies of `S` come together in the listing. Without the last rule they stood together before. -/
theorem ofText_of_listing_interleaved :
    (∃ g shown listing again, ofText "S -> A b | ''\nA -> a\n|S -> c\nS -> ε\n" = .ok g ∧
      g.augment = .ok shown ∧ shown.productionListing = .ok listing ∧
      listing.plain = (" S -> A b\n    | ε\n    | ε\n A -> a\n|S -> c" : Text) ∧
      ofText listing.plain = .ok again ∧ shown.Agrees again ∧ again.productionListing = .ok listing) ∧
    ∃ g listing, ofText "S -> A b | ''\nA -> a\n" = .ok g ∧ g.productionListing = .ok listing ∧
      listing.plain = ("S -> A b\n   | ε\nA -> a" : Text) ∧ ofText listing.plain = .ok g := by
  constructor
  · obtain ⟨g, success, kept⟩ := Result.exists_of_evaluated (ofText "S -> A b | ''\nA -> a\n|S -> c\nS -> ε\n")
      (fun g => g.augment.toOption.any fun shown => shown.productionListing.toOption.any fun listing =>
        listing.plain == (" S -> A b\n    | ε\n    | ε\n A -> a\n|S -> c" : Text)) (by decide +kernel)
    obtain ⟨shown, augmented, kept⟩ := Result.exists_of_evaluated _ _ kept
    obtain ⟨listing, again, own, reads, agrees, same, _⟩ := ofText_of_listing success (.inr augmented)
    rw [own] at kept
    exact ⟨g, shown, listing, again, success, augmented, own, beq_iff_eq.mp kept, reads, agrees, same⟩
  · obtain ⟨g, success, kept⟩ := Result.exists_of_evaluated (ofText "S -> A b | ''\nA -> a\n")
      (fun g => g.productions.map Production.head == [2, 2, 3] && g.productionListing.toOption.any fun listing =>
        listing.plain == ("S -> A b\n   | ε\nA -> a" : Text)) (by decide +kernel)
    obtain ⟨heads, kept⟩ := Bool.and_eq_true_iff.mp kept
    obtain ⟨listing, again, own, reads, _, _, same⟩ := ofText_of_listing success (.inl rfl)
    have contiguous : Contiguous (g.productions.map Production.head) := by
      rw [beq_iff_eq.mp heads]
      intro first other sub
      obtain ⟨rfl | rfl, rfl | rfl, _⟩ :
          (first = 2 ∨ first = 3) ∧ (other = 2 ∨ other = 3) ∧ (first = 2 ∨ first = 3) := by
        simpa using sub.subset
      all_goals revert sub; decide
    obtain rfl := same contiguous rfl
    rw [own] at kept
    exact ⟨again, listing, success, own, beq_iff_eq.mp kept, reads⟩

end Grammar

end SimpleLR
