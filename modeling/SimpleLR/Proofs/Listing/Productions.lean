import SimpleLR.Listing.Productions
import SimpleLR.Proofs.Grammar.Augmentation
import SimpleLR.Proofs.Grammar.Interning
import SimpleLR.Proofs.Grammar.TextForm

namespace SimpleLR

/-- The names of a rule's body as they are shown. -/
def Rule.shown (rule : Rule) : List Text := if rule.body.isEmpty then [epsilonName] else rule.body

/-- The listing of rules. -/
def ProductionListing.ofRules (rules : List Rule) : ProductionListing :=
  ⟨(Rule.heads rules).map fun head => ⟨head, (Rule.ofHead rules head).map Rule.shown⟩⟩

namespace Grammar

variable {g g' : Grammar} {rules : List Rule}

/-- The bodies of a non-terminal by names. -/
def bodies (g : Grammar) (head : Nat) : Except Fault (List (List Text)) :=
  (g.productionsOf head).mapM fun index => do g.bodyNames (← g.production index)

theorem productions_of_nonTerminal {head : Nat} (nonTerminal : g.isNonTerminal head = true) :
    (g.productionsOf head).mapM g.production = .ok (g.productions.filter (·.head == head)) := by
  have listed : (g.productions.filter (·.head == head)) =
      (g.productions.zipIdx.filter (·.1.head == head)).map Prod.fst := by
    conv_lhs => rw [← List.zipIdx_map_fst 0 g.productions, List.filter_map]
    rfl
  rw [Result.mapM_eq_ok, productionsOf, if_pos nonTerminal, listed, List.forall₂_map_left_iff,
    List.forall₂_map_right_iff]
  refine List.forall₂_same.mpr ?_
  rintro ⟨production, index⟩ member
  exact production_ok (List.mem_zipIdx_iff_getElem?.mp (List.mem_filter.mp member).1)

theorem bodies_of_nonTerminal {head : Nat} (nonTerminal : g.isNonTerminal head = true) :
    g.bodies head = (g.productions.filter (·.head == head)).mapM g.bodyNames :=
  Result.mapM_bind_of_ok (productions_of_nonTerminal nonTerminal) g.bodyNames

section Rules

/-- What names find has these names, unless one of them is epsilon or the end mark. -/
theorem mapM_name_of_found {names : List Text} {indices : List Nat}
    (found : List.Forall₂ (fun name index => g.index? name = some index) names indices)
    (proper : ∀ name ∈ names, name ∉ Symbol.epsilon.spellings ∧ name ≠ endMarkName) :
    indices.mapM g.name = .ok names := by
  rw [Result.mapM_eq_ok]
  have each := ((List.forall₂_and_left _ _).mpr ⟨proper, found⟩).flip
  refine each.imp fun index name own => ?_
  exact name_of_index? own.2 (proper_of_index? own.2 own.1.1 own.1.2)

variable (named : g.Named)
include named

theorem Reads.bodyNames {rule : Rule} {production : Production} (reads : g.Reads rule production)
    (writable : RuleText.Writable rule) : g.bodyNames production = .ok rule.shown := by
  obtain ⟨head, body⟩ := rule
  obtain ⟨indices, found, same⟩ := reads.body
  rw [Grammar.bodyNames, same, Rule.shown]
  have spelled : indices.mapM g.name = .ok body :=
    mapM_name_of_found found fun name member => (writable.body name member).1.placed
  cases found with
  | nil =>
    have epsilon : g.name epsilonIndex = .ok epsilonName := by rw [name, named.epsilon]; rfl
    exact Result.mapM_eq_ok.mpr (.cons epsilon .nil)
  | cons first others => exact spelled

private theorem Transcribes.bodies_eq (transcribes : g.Transcribes rules)
    (writable : ∀ rule ∈ rules, RuleText.Writable rule) {head : Text} {index : Nat}
    (finds : g.index? head = some index) (nonTerminal : g.isNonTerminal index = true) :
    g.bodies index = .ok ((Rule.ofHead rules head).map Rule.shown) := by
  have own := name_of_index? finds (.inr nonTerminal)
  have pairs := (List.forall₂_and_left _ _).mpr ⟨writable, transcribes.reads⟩
  have kept := List.rel_filter (p := (·.head == head)) (q := (·.head == index))
    (fun {rule production} pair => by
      simp only [beq_iff_eq]
      constructor
      · rintro rfl
        exact Option.some.inj (pair.2.head.symm.trans finds)
      · rintro rfl
        have other := name_of_index? pair.2.head (.inr nonTerminal)
        exact Except.ok.inj (other.symm.trans own)) pairs
  rw [bodies_of_nonTerminal nonTerminal, Result.mapM_eq_ok, List.forall₂_map_right_iff]
  exact kept.flip.imp fun production rule pair => pair.2.bodyNames named pair.1

end Rules

theorem listedNonTerminals_of_bare (bare : g.augmented = none) : g.listedNonTerminals = g.nonTerminals := by
  rw [listedNonTerminals, bare, List.filter_eq_self]
  simp

/-- Every non-terminal heads a rule, and its bodies are those of the rules. -/
theorem bodies_of_ofRules (success : ofRules rules = .ok g)
    (writable : ∀ rule ∈ rules, RuleText.Writable rule) {index : Nat} {head : Text}
    (nonTerminal : g.isNonTerminal index = true) (own : g.name index = .ok head) :
    g.bodies index = .ok ((Rule.ofHead rules head).map Rule.shown) :=
  have named := (Loaded.wellFormed ⟨rules, success⟩).toNamed
  (transcribes_of_ofRules success).bodies_eq named writable (named.index?_of_name own) nonTerminal

private theorem productionsOf_ne_nil (success : ofRules rules = .ok g)
    (writable : ∀ rule ∈ rules, RuleText.Writable rule) {index : Nat}
    (nonTerminal : g.isNonTerminal index = true) : g.productionsOf index ≠ [] := by
  intro empty
  obtain ⟨head, here⟩ := isNonTerminal_iff.mp nonTerminal
  obtain ⟨rule, member, rfl⟩ := (transcribes_of_ofRules success).heads here
  have own : g.name index = .ok rule.head := by rw [name, here]; rfl
  have bodies := bodies_of_ofRules success writable nonTerminal own
  rw [Grammar.bodies, empty] at bodies
  have empty : Rule.ofHead rules rule.head = [] := List.map_eq_nil_iff.mp (Except.ok.inj bodies).symm
  exact List.not_mem_nil (empty ▸ Rule.mem_ofHead.mpr ⟨member, rfl⟩)

/-- Every non-terminal of a written grammar is listed, with the bodies of its rules. -/
theorem productionListing_of_ofRules (success : ofRules rules = .ok g)
    (writable : ∀ rule ∈ rules, RuleText.Writable rule) :
    g.productionListing = .ok (.ofRules rules) := by
  have loaded : g.Loaded := ⟨rules, success⟩
  have names := Result.mapM_eq_ok.mp (heads_of_ofRules success)
  have some : g.nonTerminals.filter (fun head => !(g.productionsOf head).isEmpty) = g.nonTerminals := by
    rw [List.filter_eq_self]
    intro index member
    simpa using productionsOf_ne_nil success writable (mem_nonTerminals.mp member)
  rw [productionListing, listedNonTerminals_of_bare loaded.augmented, some]
  refine Result.bind_eq_ok.mpr ⟨_, Result.mapM_eq_ok.mpr ?_, rfl⟩
  rw [List.forall₂_map_right_iff]
  have pairs := (List.forall₂_and_left _ _).mpr ⟨fun index => mem_nonTerminals.mp, names⟩
  refine pairs.imp fun index head pair => ?_
  have bodies := bodies_of_ofRules success writable pair.1 pair.2
  exact Result.bind_eq_ok.mpr ⟨_, bodies, Result.bind_eq_ok.mpr ⟨head, pair.2, rfl⟩⟩

section Symbols

theorem start_of_ofRules (success : ofRules rules = .ok g) :
    g.start.map g.name = (Rule.heads rules).head?.map .ok := by
  cases rules with
  | nil =>
    obtain rfl := Except.ok.inj success
    rfl
  | cons first rest =>
    obtain ⟨placed, _⟩ := ofRules_eq_ok.mp success
    obtain ⟨notEpsilon, notEnd, _⟩ := Rule.misplaced?_eq_none (placed first List.mem_cons_self)
    have transcribes := transcribes_of_ofRules success
    obtain ⟨production, _, reads, _, _⟩ := List.forall₂_cons_left_iff.mp transcribes.reads
    have finds := reads.head
    rw [transcribes.start rfl, finds, Rule.heads_cons]
    exact congrArg some (name_of_index? finds (proper_of_index? finds notEpsilon notEnd))

/-- The symbols of a written grammar have names that a text can spell. -/
theorem isName_of_ofRules (success : ofRules rules = .ok g)
    (writable : ∀ rule ∈ rules, RuleText.Writable rule) {symbol : Nat}
    (proper : g.isTerminal symbol = true ∨ g.isNonTerminal symbol = true) {name : Text}
    (own : g.name symbol = .ok name) : RuleText.IsName name := by
  have transcribes := transcribes_of_ofRules success
  rcases proper with terminal | nonTerminal
  · obtain ⟨rule, member, stands⟩ := transcribes.bodies (terminal_of_name terminal own)
    exact ((writable rule member).body _ stands).1
  · obtain ⟨rule, member, rfl⟩ := transcribes.heads (nonTerminal_of_name nonTerminal own)
    exact (writable rule member).head

/-- The terminals are the names in bodies that are no heads. -/
theorem terminal_of_ofRules (success : ofRules rules = .ok g)
    (writable : ∀ rule ∈ rules, RuleText.Writable rule) {name : Text} :
    (∃ index ∈ g.terminals, g.name index = .ok name) ↔
      (∃ rule ∈ rules, name ∈ rule.body) ∧ name ∉ Rule.heads rules := by
  have transcribes := transcribes_of_ofRules success
  have formed := Loaded.wellFormed ⟨rules, success⟩
  constructor
  · rintro ⟨index, member, own⟩
    have terminal := mem_terminals.mp member
    refine ⟨transcribes.bodies (terminal_of_name terminal own), fun head => ?_⟩
    obtain ⟨rule, inside, rfl⟩ := Rule.mem_heads.mp head
    obtain ⟨found, finds, nonTerminal⟩ := transcribes.exists_head formed inside
    obtain rfl := Option.some.inj (finds.symm.trans (formed.index?_of_name own))
    rw [isTerminal_eq_false_of_isNonTerminal nonTerminal] at terminal
    cases terminal
  · rintro ⟨⟨rule, member, stands⟩, apart⟩
    obtain ⟨index, finds⟩ := transcribes.exists_index member (.inr stands)
    obtain ⟨notEpsilon, notEnd⟩ := ((writable rule member).body name stands).1.placed
    have proper := proper_of_index? finds notEpsilon notEnd
    have own := name_of_index? finds proper
    refine ⟨index, mem_terminals.mpr (proper.resolve_right fun nonTerminal => apart ?_), own⟩
    exact Rule.mem_heads.mpr (transcribes.heads (nonTerminal_of_name nonTerminal own))

end Symbols

section Augmented

theorem Fits.lt_of_mem_body (named : g.Named) {production : Production} (fits : g.Fits production)
    {symbol : Nat} (member : symbol ∈ production.body) : symbol < g.symbols.length := by
  by_cases epsilon : production.body = [epsilonIndex]
  · rw [epsilon] at member
    obtain rfl := List.mem_singleton.mp member
    exact (List.getElem?_eq_some_iff.mp named.epsilon).1
  · apply fits.lt_of_mem_symbols
    simpa [Production.symbols, Production.isEpsilon, epsilon] using member

variable {start : Nat} (from' : g.AugmentedFrom start g') (formed : g.WellFormed)
include from'

theorem AugmentedFrom.nonTerminals : g'.nonTerminals = g.nonTerminals ++ [g.symbols.length] := by
  obtain ⟨name, grown, _⟩ := from'.symbols
  have length : g'.symbols.length = g.symbols.length + 1 := by simp [grown]
  have old : ∀ index ∈ List.range g.symbols.length, g'.isNonTerminal index = g.isNonTerminal index := by
    intro index member
    simp [from'.isNonTerminal, Nat.ne_of_lt (List.mem_range.mp member)]
  have goal : g'.isNonTerminal g.symbols.length = true := by simp [from'.isNonTerminal]
  rw [Grammar.nonTerminals, length, List.range_succ, List.filter_append, List.filter_congr old,
    List.filter_singleton, goal]
  rfl

theorem AugmentedFrom.listedNonTerminals (bare : g.augmented = none) :
    g'.listedNonTerminals = g.listedNonTerminals := by
  rw [Grammar.listedNonTerminals, from'.nonTerminals, from'.augmented, List.filter_append,
    listedNonTerminals_of_bare bare, List.filter_eq_self.mpr]
  · simp
  · intro index member
    simpa using Nat.ne_of_lt (lt_of_isNonTerminal (mem_nonTerminals.mp member))

theorem AugmentedFrom.filter_productions {head : Nat} (old : head < g.symbols.length) :
    g'.productions.filter (·.head == head) = g.productions.filter (·.head == head) := by
  rw [from'.productions, List.filter_cons_of_neg (by simpa using Nat.ne_of_gt old)]

include formed

theorem AugmentedFrom.bodies {head : Nat} (nonTerminal : g.isNonTerminal head = true) :
    g'.bodies head = g.bodies head := by
  have old := lt_of_isNonTerminal nonTerminal
  have kept : g'.isNonTerminal head = true := by simp [from'.isNonTerminal, nonTerminal]
  rw [bodies_of_nonTerminal kept, bodies_of_nonTerminal nonTerminal, from'.filter_productions old]
  apply Result.mapM_congr
  intro production member
  apply from'.mapM_name
  intro symbol inside
  exact (formed.fits production (List.mem_filter.mp member).1).lt_of_mem_body formed.toNamed inside

/-- The augmented head is not listed, and the other listings stay. -/
theorem AugmentedFrom.productionListing (bare : g.augmented = none) :
    g'.productionListing = g.productionListing := by
  have old : ∀ head ∈ g.listedNonTerminals, g.isNonTerminal head = true :=
    fun head member => isNonTerminal_of_listed member
  have some : ∀ head ∈ g.listedNonTerminals,
      (!(g'.productionsOf head).isEmpty) = !(g.productionsOf head).isEmpty := by
    intro head member
    have nonTerminal := old head member
    have kept : g'.isNonTerminal head = true := by simp [from'.isNonTerminal, nonTerminal]
    have lengths : (g'.productionsOf head).length = (g.productionsOf head).length := by
      rw [← Result.length_of_mapM (productions_of_nonTerminal kept),
        ← Result.length_of_mapM (productions_of_nonTerminal nonTerminal),
        from'.filter_productions (lt_of_isNonTerminal nonTerminal)]
    rw [Bool.eq_iff_iff]
    simp only [Bool.not_eq_true', List.isEmpty_eq_false_iff_exists_mem, ← List.length_pos_iff_exists_mem, lengths]
  rw [Grammar.productionListing, Grammar.productionListing, from'.listedNonTerminals bare,
    List.filter_congr some]
  apply congrArg (· >>= _)
  apply Result.mapM_congr
  intro head member
  have nonTerminal := old head (List.mem_filter.mp member).1
  change g'.bodies head >>= _ = g.bodies head >>= _
  rw [from'.bodies formed nonTerminal, from'.name (lt_of_isNonTerminal nonTerminal)]

end Augmented

end Grammar

end SimpleLR
