import SimpleLR.Proofs.Grammar.Upkeep
import SimpleLR.Proofs.Listing.Productions

namespace SimpleLR

namespace Rule

section Misplaced

/-- A name may not stand at its place in a rule. Place 0 is that of the head, and the body begins at 1. -/
def Misplaced (rule : Rule) (name : Text) : Nat → Prop
  | 0 => rule.head = name ∧ (name = endMarkName ∨ name ∈ Symbol.epsilon.spellings)
  | place + 1 => rule.body[place]? = some name ∧
      (name = endMarkName ∨ name ∈ Symbol.epsilon.spellings ∧ 1 < rule.body.length)

/-- The first of the names in rules that may not stand where they stand, with the head of each rule before
its body. -/
def FirstMisplaced (rules : List Rule) (name : Text) : Prop :=
  ∃ before rule behind place, rules = before ++ rule :: behind ∧ rule.Misplaced name place ∧
    (∀ earlier < place, ∀ other, ¬ rule.Misplaced other earlier) ∧
    ∀ earlier ∈ before, ∀ other place, ¬ earlier.Misplaced other place

/-- The rule has a name that may not stand where it stands. -/
def Rejected (rule : Rule) : Prop :=
  (rule.head = endMarkName ∨ rule.head ∈ Symbol.epsilon.spellings) ∨ endMarkName ∈ rule.body ∨
    1 < rule.body.length ∧ ∃ name ∈ Symbol.epsilon.spellings, name ∈ rule.body

variable {rule : Rule} {name : Text}

theorem Misplaced.rejected {place : Nat} (misplaced : rule.Misplaced name place) : rule.Rejected := by
  cases place with
  | zero =>
    obtain ⟨rfl, wrong⟩ := misplaced
    exact .inl wrong
  | succ place =>
    obtain ⟨here, wrong⟩ := misplaced
    have inside := List.mem_of_getElem? here
    rcases wrong with rfl | beside
    · exact .inr (.inl inside)
    · exact .inr (.inr ⟨beside.2, name, beside.1, inside⟩)

theorem not_rejected_of_placed (placed : rule.misplaced? = none) : ¬ rule.Rejected := by
  obtain ⟨notEpsilon, notEnd, body⟩ := misplaced?_eq_none placed
  intro rejected
  rcases rejected with head | mark | beside
  · exact head.elim notEnd notEpsilon
  · exact (body _ mark).1 rfl
  · obtain ⟨long, other, epsilon, inside⟩ := beside
    exact absurd ((body other inside).2 epsilon) (Nat.not_le_of_lt long)

/-- What is reported about a rule is the first of its names that is misplaced. -/
private theorem misplaced?_eq_some (reported : rule.misplaced? = some name) : ∃ place,
    rule.Misplaced name place ∧ ∀ earlier < place, ∀ other, ¬ rule.Misplaced other earlier := by
  unfold misplaced? at reported
  dsimp only at reported
  split at reported
  · rename_i head
    obtain rfl := Option.some.inj reported
    simp only [Bool.or_eq_true, List.contains_iff_mem, beq_iff_eq] at head
    exact ⟨0, ⟨rfl, head.symm⟩, nofun⟩
  · rename_i head
    simp only [Bool.or_eq_true, List.contains_iff_mem, beq_iff_eq] at head
    obtain ⟨wrong, place, bound, rfl, before⟩ := List.find?_eq_some_iff_getElem.mp reported
    simp only [Bool.or_eq_true, beq_iff_eq, Bool.and_eq_true, List.contains_iff_mem, decide_eq_true_eq] at wrong
    refine ⟨place + 1, ⟨List.getElem?_eq_getElem bound, wrong⟩, fun earlier fewer other misplaced => ?_⟩
    cases earlier with
    | zero =>
      obtain ⟨rfl, own⟩ := misplaced
      exact head own.symm
    | succ earlier =>
      obtain ⟨here, own⟩ := misplaced
      obtain ⟨inside, rfl⟩ := List.getElem?_eq_some_iff.mp here
      have free := before earlier (Nat.lt_of_succ_lt_succ fewer)
      simp only [Bool.not_eq_true', Bool.or_eq_false_iff, Bool.and_eq_false_iff, beq_eq_false_iff_ne,
        decide_eq_false_iff_not] at free
      rcases own with mark | beside
      · exact free.1 mark
      · exact free.2.elim (fun empty => by simp [beside.1] at empty) (· beside.2)

private theorem firstMisplaced_of_reported {rules : List Rule} (reported : rules.findSome? misplaced? = some name) :
    FirstMisplaced rules name := by
  obtain ⟨before, rule, behind, split, own, placed⟩ := List.findSome?_eq_some_iff.mp reported
  obtain ⟨place, misplaced, first⟩ := misplaced?_eq_some own
  refine ⟨before, rule, behind, place, split, misplaced, first, fun earlier member other spot wrong => ?_⟩
  exact not_rejected_of_placed (placed earlier member) wrong.rejected

end Misplaced

/-- The rule as it is read back: the body that stands for epsilon is the name under which epsilon is shown. -/
def canonical (rule : Rule) : Rule :=
  if rule.body = [] ∨ ∃ name ∈ Symbol.epsilon.spellings, rule.body = [name] then ⟨rule.head, [epsilonName]⟩
  else rule

end Rule

namespace Grammar

variable {g : Grammar}

/-- The rule that a production spells. -/
def ruleOf (g : Grammar) (production : Production) : Except Fault Rule := do
  return ⟨← g.name production.head, ← g.bodyNames production⟩

/-- The production of a placed rule spells that rule. -/
theorem Reads.ruleOf (named : g.Named) {rule : Rule} {production : Production}
    (placed : rule.misplaced? = none) (reads : g.Reads rule production) :
    g.ruleOf production = .ok rule.canonical := by
  obtain ⟨notEpsilon, notEnd, body⟩ := Rule.misplaced?_eq_none placed
  obtain ⟨finds, indices, found, same⟩ := reads
  have head := name_of_index? finds (proper_of_index? finds notEpsilon notEnd)
  have epsilon : [epsilonIndex].mapM g.name = .ok [epsilonName] := by
    rw [List.mapM_cons, name, named.epsilon]
    rfl
  have spelled : g.bodyNames production = .ok rule.canonical.body := by
    rw [Grammar.bodyNames, same, Rule.canonical]
    by_cases erased : rule.body = [] ∨ ∃ name ∈ Symbol.epsilon.spellings, rule.body = [name]
    · rw [if_pos erased]
      rcases erased with empty | only
      · rw [empty] at found
        cases found
        exact epsilon
      · obtain ⟨name, spelling, single⟩ := only
        rw [single] at found
        obtain ⟨index, rest, own, nothing, rfl⟩ := List.forall₂_cons_left_iff.mp found
        cases nothing
        rw [named.found named.epsilon spelling] at own
        obtain rfl := Option.some.inj own
        exact epsilon
    · rw [if_neg erased]
      have proper : ∀ name ∈ rule.body, name ∉ Symbol.epsilon.spellings ∧ name ≠ endMarkName := by
        intro name member
        refine ⟨fun spelling => erased (.inr ⟨name, spelling, ?_⟩), (body name member).1⟩
        obtain ⟨only, whole⟩ := List.length_eq_one_iff.mp (Nat.le_antisymm ((body name member).2 spelling)
          (List.length_pos_of_mem member))
        rw [whole, List.mem_singleton] at member
        rw [whole, member]
      have nonEmpty : indices ≠ [] := by
        intro empty
        rw [empty] at found
        exact erased (.inl (List.forall₂_nil_right_iff.mp found))
      rw [if_neg (by simpa using nonEmpty)]
      exact mapM_name_of_found found proper
  have kept : rule.canonical.head = rule.head := by
    unfold Rule.canonical
    split <;> rfl
  rw [Grammar.ruleOf, head, spelled, ← kept]
  rfl

private theorem Named.index?_eq_some (named : g.Named) {name : Text} {index : Nat} : g.index? name = some index ↔
    g.name index = .ok name ∨ name = "ϵ" ∧ index = epsilonIndex := by
  constructor
  · intro found
    obtain ⟨symbol, here, spelling⟩ := spelled_of_index? found
    have own : g.name index = .ok symbol.name := by rw [Grammar.name, here]
    cases symbol with
    | epsilon =>
      rcases List.mem_cons.mp spelling with rfl | other
      · exact .inl own
      · have first : g.index? Symbol.epsilon.name = some epsilonIndex :=
          named.found named.epsilon List.mem_cons_self
        rw [named.index?_of_name own] at first
        exact .inr ⟨List.mem_singleton.mp other, Option.some.inj first⟩
    | endMark | terminal _ | nonTerminal _ =>
      rw [List.mem_singleton.mp spelling]
      exact .inl own
  · intro holds
    rcases holds with own | other
    · exact named.index?_of_name own
    · obtain ⟨rfl, rfl⟩ := other
      exact named.found named.epsilon (by simp [Symbol.spellings])

/-- The table of names that is shown has exactly the names that find a symbol. -/
theorem mem_nameTable {name : Text} {index : Nat} : (name, index) ∈ g.nameTable ↔ g.index? name = some index := by
  unfold nameTable
  simp only [List.mem_filterMap, Text.mem_sorted, List.mem_eraseDups, List.mem_flatMap, Option.map_eq_some_iff,
    Prod.mk.injEq]
  constructor
  · intro holds
    obtain ⟨_, _, _, found, rfl, rfl⟩ := holds
    exact found
  · intro found
    obtain ⟨symbol, here, spelling⟩ := spelled_of_index? found
    exact ⟨name, ⟨symbol, List.mem_of_getElem? here, spelling⟩, index, found, rfl, rfl⟩

end Grammar

/-- A catalogue from which rules can be read back, with one entry in its table for each name, and with the
symbols of the rules in their order. -/
structure Catalogue.Transcript (c : Catalogue) (rules : List Rule) : Prop where
  read : c.productions.mapM c.grammar.ruleOf = .ok (rules.map Rule.canonical)
  table : ∀ name index, c.index? name = some index ↔
    c.name index = .ok name ∨ name = "ϵ" ∧ index = epsilonIndex
  shown : ∀ name index, (name, index) ∈ c.grammar.nameTable ↔ c.index? name = some index
  apart : ∀ index other name, c.name index = .ok name → c.name other = .ok name → index = other
  nonTerminal : ∀ index name, c.name index = .ok name →
    (c.grammar.isNonTerminal index = true ↔ ∃ rule ∈ rules, rule.head = name)
  symbols : c.grammar.symbols =
    [.epsilon, .endMark] ++ (Rule.heads rules).map .nonTerminal ++ (Rule.leaves rules).map .terminal
  start : c.start.map c.name = rules.head?.map fun rule => .ok rule.head

namespace Catalogue

theorem grammar_of_ofRules {rules : List Rule} {c : Catalogue} (success : ofRules rules = .ok c) :
    Grammar.ofRules rules = .ok c.grammar := by
  rw [← grammar_ofRules, success]
  rfl

theorem transcript_of_ofRules {rules : List Rule} {c : Catalogue} (success : ofRules rules = .ok c) :
    c.Transcript rules := by
  have built := grammar_of_ofRules success
  have books := InStep.ofRules success
  have formed := Grammar.Loaded.wellFormed ⟨rules, built⟩
  have transcribes := Grammar.transcribes_of_ofRules built
  obtain ⟨placed, _⟩ := Grammar.ofRules_eq_ok.mp built
  constructor
  case read =>
    rw [Result.mapM_eq_ok, List.forall₂_map_right_iff]
    have pairs := (List.forall₂_and_left _ _).mpr ⟨placed, transcribes.reads⟩
    exact pairs.flip.imp fun production rule pair => pair.2.ruleOf formed.toNamed pair.1
  case table =>
    intro name index
    rw [books.found, ← name_grammar]
    exact formed.toNamed.index?_eq_some
  case shown =>
    intro name index
    rw [books.found]
    exact Grammar.mem_nameTable
  case apart =>
    intro index other name
    rw [← name_grammar]
    exact formed.name_injective
  case nonTerminal =>
    intro index name own
    rw [← name_grammar] at own
    constructor
    · intro nonTerminal
      exact transcribes.heads (Grammar.nonTerminal_of_name nonTerminal own)
    · intro heads
      obtain ⟨rule, member, rfl⟩ := heads
      obtain ⟨head, finds, nonTerminal⟩ := transcribes.exists_head formed member
      rw [formed.index?_of_name own] at finds
      rwa [Option.some.inj finds]
  case symbols => exact Grammar.symbols_of_ofRules built
  case start =>
    have chosen := Grammar.start_of_ofRules built
    rw [name_grammar] at chosen
    refine chosen.trans ?_
    cases rules with
    | nil => rfl
    | cons rule rest =>
      rw [Rule.heads_cons]
      rfl

/-- Rules are turned down exactly if a head is the end mark or epsilon, a body holds the end mark, or a body
of two names or more holds epsilon. The first name in them that is misplaced is reported. All other rules
have a catalogue, which is their transcript. Its grammar is the grammar of the rules. -/
theorem ofRules_exact (rules : List Rule) :
    (ofRules rules).map grammar = Grammar.ofRules rules ∧
    ((∃ error, ofRules rules = .error error) ↔ ∃ rule ∈ rules, rule.Rejected) ∧
    (∀ error, ofRules rules = .error error → ∃ name, error = .reserved name ∧ Rule.FirstMisplaced rules name) ∧
    ∀ c, ofRules rules = .ok c → c.Transcript rules := by
  have reported {error : GrammarError} (failed : ofRules rules = .error error) :
      ∃ name, error = .reserved name ∧ Rule.FirstMisplaced rules name := by
    unfold ofRules at failed
    split at failed
    · rename_i name first
      exact ⟨name, (Except.error.inj failed).symm, Rule.firstMisplaced_of_reported first⟩
    · cases failed
  refine ⟨grammar_ofRules rules, ⟨fun failed => ?_, fun holds => ?_⟩, fun error => reported,
    fun c => transcript_of_ofRules⟩
  · obtain ⟨error, failed⟩ := failed
    obtain ⟨name, _, before, rule, behind, place, rfl, misplaced, _⟩ := reported failed
    exact ⟨rule, by simp, misplaced.rejected⟩
  · obtain ⟨rule, member, rejected⟩ := holds
    cases success : ofRules rules with
    | error error => exact ⟨error, rfl⟩
    | ok c =>
      obtain ⟨placed, _⟩ := Grammar.ofRules_eq_ok.mp (grammar_of_ofRules success)
      exact absurd rejected (Rule.not_rejected_of_placed (placed rule member))

end Catalogue

end SimpleLR
