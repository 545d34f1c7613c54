import SimpleLR.Proofs.Grammar.Catalogue

namespace SimpleLR.Catalogue

section Rules

variable {c : Catalogue}

theorem withHead_spec (books : c.InStep) (name : Text) :
    (c.withHead name).InStep ∧ (c.withHead name).grammar = c.grammar.withHead name := by
  unfold withHead Grammar.withHead
  rw [books.found]
  split
  · exact ⟨books, rfl⟩
  · exact ⟨books.addNonTerminal name, grammar_addNonTerminal name⟩

theorem withHeads_spec (rules : List Rule) (books : c.InStep) :
    (rules.foldl (fun c rule => c.withHead rule.head) c).InStep ∧
      (rules.foldl (fun c rule => c.withHead rule.head) c).grammar =
        rules.foldl (fun g rule => g.withHead rule.head) c.grammar := by
  induction rules generalizing c with
  | nil => exact ⟨books, rfl⟩
  | cons rule rest ih =>
    obtain ⟨next, same⟩ := withHead_spec books rule.head
    rw [List.foldl_cons, List.foldl_cons, ← same]
    exact ih next

theorem intern_spec (books : c.InStep) (name : Text) : (c.intern name).1.InStep ∧
    ((c.intern name).1.grammar, (c.intern name).2) = c.grammar.intern name := by
  unfold intern Grammar.intern
  rw [books.found]
  cases c.grammar.index? name with
  | some index => exact ⟨books, rfl⟩
  | none =>
    refine ⟨books.addTerminal name, ?_⟩
    rw [grammar_addTerminal, length_grammar]

theorem internAll_spec (books : c.InStep) (names : List Text) : (c.internAll names).1.InStep ∧
    ((c.internAll names).1.grammar, (c.internAll names).2) = c.grammar.internAll names := by
  induction names generalizing c with
  | nil => exact ⟨books, rfl⟩
  | cons name rest ih =>
    obtain ⟨next, first⟩ := intern_spec books name
    obtain ⟨last, others⟩ := ih next
    refine ⟨last, ?_⟩
    rw [Grammar.internAll, ← first]
    dsimp only
    rw [← others]
    rfl

private theorem length_internAll (c : Catalogue) (names : List Text) :
    c.entries.length ≤ (c.internAll names).1.entries.length := by
  induction names generalizing c with
  | nil => exact Nat.le_refl _
  | cons name rest ih =>
    have first : c.entries.length ≤ (c.intern name).1.entries.length := by
      unfold intern
      split
      · exact Nat.le_refl _
      · simp [addTerminal]
    exact Nat.le_trans first (ih (c.intern name).1)

theorem addRule_spec (books : c.InStep) (rule : Rule) :
    (c.addRule rule).InStep ∧ (c.addRule rule).grammar = c.grammar.addRule rule := by
  unfold addRule Grammar.addRule
  rw [books.found]
  cases finds : c.grammar.index? rule.head with
  | none => exact ⟨books, rfl⟩
  | some head =>
    obtain ⟨next, same⟩ := internAll_spec books rule.body
    obtain ⟨symbol, here, _⟩ := Grammar.spelled_of_index? finds
    have bound := length_grammar ▸ (List.getElem?_eq_some_iff.mp here).1
    dsimp only
    rw [← same]
    exact ⟨next.pushProduction (Nat.lt_of_lt_of_le bound (c.length_internAll rule.body)) _,
      grammar_pushProduction _ _⟩

theorem addRules_spec (rules : List Rule) (books : c.InStep) :
    (rules.foldl addRule c).InStep ∧ (rules.foldl addRule c).grammar = rules.foldl Grammar.addRule c.grammar := by
  induction rules generalizing c with
  | nil => exact ⟨books, rfl⟩
  | cons rule rest ih =>
    obtain ⟨next, same⟩ := addRule_spec books rule
    rw [List.foldl_cons, List.foldl_cons, ← same]
    exact ih next

theorem grammar_ofRules (rules : List Rule) : (ofRules rules).map grammar = Grammar.ofRules rules := by
  obtain ⟨heads, same⟩ := withHeads_spec rules InStep.empty
  obtain ⟨_, built⟩ := addRules_spec rules heads
  have begins : Catalogue.empty.grammar = Grammar.empty := rfl
  unfold ofRules Grammar.ofRules
  dsimp only
  rw [← begins, ← same, ← built]
  cases rules.findSome? Rule.misplaced? <;> rfl

theorem InStep.ofRules {rules : List Rule} (success : ofRules rules = .ok c) : c.InStep := by
  unfold Catalogue.ofRules at success
  split at success
  · cases success
  · obtain ⟨heads, _⟩ := withHeads_spec rules InStep.empty
    obtain rfl := Except.ok.inj success
    exact (addRules_spec rules heads).1

end Rules

/-- What can be made of a catalogue by calls, in whatever order. A failed augmentation is a call as well. -/
inductive Reached (origin : Catalogue) : Catalogue → Prop where
  | origin : Reached origin origin
  | nonTerminal {c : Catalogue} (earlier : Reached origin c) (name : Text) :
      Reached origin (c.addNonTerminal name)
  | terminal {c : Catalogue} (earlier : Reached origin c) (name : Text) : Reached origin (c.addTerminal name)
  | production {c c' : Catalogue} {head : Nat} {body : List Nat} (earlier : Reached origin c)
      (success : c.addProduction head body = .ok c') : Reached origin c'
  | augment {c : Catalogue} (earlier : Reached origin c) : Reached origin c.augment.2

/-- Every call keeps the books in step. -/
theorem InStep.reached {origin c : Catalogue} (books : origin.InStep) (reached : Reached origin c) :
    c.InStep := by
  induction reached with
  | origin => exact books
  | nonTerminal _ name ih => exact ih.addNonTerminal name
  | terminal _ name ih => exact ih.addTerminal name
  | production _ success ih => exact ih.addProduction success
  | augment _ ih => exact ih.augment

/-- Whatever is done to the empty catalogue or to one of rules, every non-terminal knows its position and
lists exactly its productions, in ascending order. No body is empty. The augmented production, once there is
one, is the first and is listed first under its head. An augmentation that fails changes nothing. -/
theorem Reached.inStep {origin c : Catalogue} (begins : origin = empty ∨ ∃ rules, ofRules rules = .ok origin)
    (reached : Reached origin c) :
    (∀ position index name listed, c.entries[position]? = some (.nonTerminal index name listed) →
      index = position ∧ c.productionsOf position = .ok listed ∧ listed.Pairwise (· < ·) ∧
        ∀ p, p ∈ listed ↔ ∃ production, c.productions[p]? = some production ∧ production.head = position) ∧
    (∀ production ∈ c.productions, production.body ≠ []) ∧
    (∀ head, c.augmented = some head → (∃ symbol, c.productions[0]? = some ⟨head, [symbol]⟩) ∧
      ∃ rest, c.productionsOf head = .ok (0 :: rest)) ∧
    ∀ failure, c.augment.1 = .error failure → c.augment.2 = c := by
  have first : origin.InStep := by
    rcases begins with rfl | built
    · exact .empty
    · obtain ⟨rules, success⟩ := built
      exact .ofRules success
  have books := first.reached reached
  refine ⟨fun position index name listed here => ?_, books.bodies, fun head marked => ?_,
    fun failure => augment_of_failure⟩
  · obtain ⟨same, lists⟩ := books.right here
    exact ⟨same, by rw [Catalogue.productionsOf, here]; rfl, lists.ascending, lists.mem⟩
  · obtain ⟨nonTerminal, start, leads⟩ := books.front marked
    obtain ⟨own, lists⟩ := books.productionsOf nonTerminal
    refine ⟨⟨start, leads⟩, ?_⟩
    have member := (lists.mem 0).mpr ⟨_, leads, rfl⟩
    rw [own]
    cases same : c.grammar.productionsOf head with
    | nil =>
      rw [same] at member
      cases member
    | cons production rest =>
      rw [same] at member lists
      rcases List.mem_cons.mp member with rfl | later
      · exact ⟨rest, rfl⟩
      · exact absurd ((List.pairwise_cons.mp lists.ascending).1 0 later) (Nat.not_lt_zero _)

/-- Two non-terminals of one name, a terminal that heads a production, and a production of the second
non-terminal that comes after the augmentation. -/
def twins : Catalogue :=
  let named := ((empty.addNonTerminal "A").addNonTerminal "A").addTerminal "a"
  ((named.pushProduction 2 [3]).pushProduction 4 []).augment.2.pushProduction 3 [4]

theorem reached_twins : Reached empty twins := by
  have named : Reached empty (((empty.addNonTerminal "A").addNonTerminal "A").addTerminal "a") :=
    ((Reached.origin.nonTerminal "A").nonTerminal "A").terminal "a"
  have first := named.production (show addProduction _ 2 [3] = .ok _ from rfl)
  have second := first.production (show addProduction _ 4 [] = .ok _ from rfl)
  exact second.augment.production (show addProduction _ 3 [4] = .ok twins from rfl)

/-- The second non-terminal lists the production that was added last, and the new head the first one. -/
theorem Reached.inStep_twins : twins.productionsOf 3 = .ok [3] ∧
    (∀ p, p ∈ [3] ↔ ∃ production, twins.productions[p]? = some production ∧ production.head = 3) ∧
    ∃ rest, twins.productionsOf 5 = .ok (0 :: rest) := by
  obtain ⟨lists, _, front, _⟩ := Reached.inStep (.inl rfl) reached_twins
  obtain ⟨_, listed, _, exact⟩ := lists 3 3 "A" [3] rfl
  exact ⟨listed, exact, (front 5 rfl).2⟩

end SimpleLR.Catalogue
