import SimpleLR.Grammar.Batch
import SimpleLR.Proofs.Grammar.Naming
import SimpleLR.Proofs.Result

namespace SimpleLR

namespace Rule

theorem misplaced?_eq_none {rule : Rule} (placed : rule.misplaced? = none) :
    rule.head ∉ Symbol.epsilon.spellings ∧ rule.head ≠ endMarkName ∧
      ∀ name ∈ rule.body, name ≠ endMarkName ∧
        (name ∈ Symbol.epsilon.spellings → rule.body.length ≤ 1) := by
  unfold misplaced? at placed
  dsimp only at placed
  split at placed
  · cases placed
  · rename_i head
    rw [List.find?_eq_none] at placed
    simp only [Bool.or_eq_true, List.contains_iff_mem, beq_iff_eq, not_or] at head
    refine ⟨head.1, head.2, fun name member => ?_⟩
    have own := placed name member
    simp only [Bool.or_eq_true, beq_iff_eq, Bool.and_eq_true, List.contains_iff_mem,
      decide_eq_true_eq, not_or, not_and] at own
    exact ⟨own.1, fun spelled => Nat.le_of_not_lt (own.2 spelled)⟩

end Rule

theorem Production.mem_body {production : Production} {symbol : Nat} (member : symbol ∈ production.symbols) :
    symbol ∈ production.body := by
  unfold symbols at member
  split at member
  · cases member
  · exact member

namespace Grammar

/-- A grammar that was built from rules. -/
def Loaded (g : Grammar) : Prop := ∃ rules, ofRules rules = .ok g

/-- A production whose head is a non-terminal and whose body holds terminals and non-terminals, or
epsilon alone. -/
structure Fits (g : Grammar) (production : Production) : Prop where
  head : g.isNonTerminal production.head = true
  body : production.body ≠ []
  symbols : ∀ symbol ∈ production.symbols, g.isTerminal symbol = true ∨ g.isNonTerminal symbol = true

/-- A grammar that names its symbols apart, and in which the start symbol is a non-terminal and
every production fits. -/
structure WellFormed (g : Grammar) : Prop extends Named g where
  chosen : ∀ {start : Nat}, g.start = some start → g.isNonTerminal start = true
  fits : ∀ production ∈ g.productions, g.Fits production

variable {g g' g'' : Grammar}

theorem Fits.lt_of_mem_symbols {production : Production} (fits : g.Fits production) {symbol : Nat}
    (member : symbol ∈ production.symbols) : symbol < g.symbols.length := by
  rcases fits.symbols symbol member with terminal | nonTerminal
  · exact lt_of_isTerminal terminal
  · exact lt_of_isNonTerminal nonTerminal

theorem WellFormed.fits_of_getElem? (formed : g.WellFormed) {index : Nat} {production : Production}
    (found : g.productions[index]? = some production) : g.Fits production :=
  formed.fits production (List.mem_of_getElem? found)

theorem WellFormed.empty : Grammar.empty.WellFormed :=
  { Named.empty with chosen := by simp [Grammar.empty], fits := by simp [Grammar.empty] }

section Interning

/-- A grammar with more terminals, in which all names still find what they found. -/
structure Interned (g g' : Grammar) : Prop where
  terminals : ∃ names : List Text, g'.symbols = g.symbols ++ names.map .terminal
  productions : g'.productions = g.productions
  start : g'.start = g.start
  augmented : g'.augmented = g.augmented
  found : ∀ {name : Text} {index : Nat}, g.index? name = some index → g'.index? name = some index

theorem Interned.refl (g : Grammar) : g.Interned g := ⟨⟨[], by simp⟩, rfl, rfl, rfl, id⟩

theorem Interned.trans (first : g.Interned g') (second : g'.Interned g'') : g.Interned g'' where
  terminals := by
    obtain ⟨names, grown⟩ := first.terminals
    obtain ⟨more, longer⟩ := second.terminals
    exact ⟨names ++ more, by rw [longer, grown, List.map_append, List.append_assoc]⟩
  productions := second.productions.trans first.productions
  start := second.start.trans first.start
  augmented := second.augmented.trans first.augmented
  found here := second.found (first.found here)

theorem Interned.isTerminal (interned : g.Interned g') {index : Nat}
    (terminal : g.isTerminal index = true) : g'.isTerminal index = true := by
  obtain ⟨names, grown⟩ := interned.terminals
  obtain ⟨name, here⟩ := isTerminal_iff.mp terminal
  apply isTerminal_iff.mpr
  refine ⟨name, ?_⟩
  rw [grown, List.getElem?_append_left (lt_of_isTerminal terminal), here]

theorem Interned.isNonTerminal (interned : g.Interned g') {index : Nat}
    (nonTerminal : g.isNonTerminal index = true) : g'.isNonTerminal index = true := by
  obtain ⟨names, grown⟩ := interned.terminals
  obtain ⟨name, here⟩ := isNonTerminal_iff.mp nonTerminal
  apply isNonTerminal_iff.mpr
  refine ⟨name, ?_⟩
  rw [grown, List.getElem?_append_left (lt_of_isNonTerminal nonTerminal), here]

theorem Interned.fits (interned : g.Interned g') {production : Production}
    (fits : g.Fits production) : g'.Fits production where
  head := interned.isNonTerminal fits.head
  body := fits.body
  symbols symbol member := (fits.symbols symbol member).imp interned.isTerminal interned.isNonTerminal

theorem WellFormed.interned (formed : g.WellFormed) (named : g'.Named)
    (interned : g.Interned g') : g'.WellFormed :=
  { named with
    chosen := fun same => interned.isNonTerminal (formed.chosen (interned.start ▸ same))
    fits := fun production member =>
      interned.fits (formed.fits production (interned.productions ▸ member)) }

theorem intern_spec (named : g.Named) (name : Text) :
    (g.intern name).1.Named ∧ g.Interned (g.intern name).1 ∧
      (g.intern name).1.index? name = some (g.intern name).2 := by
  unfold intern
  split
  · rename_i index found
    exact ⟨named, .refl g, found⟩
  · rename_i new
    have grown : (g.addTerminal name).symbols = g.symbols ++ [.terminal name] := rfl
    have spelling : (Symbol.terminal name).spellings = [name] := rfl
    refine ⟨named.grown grown (by simpa [spelling] using new), ⟨⟨[name], grown⟩, rfl, rfl, rfl, ?_⟩, ?_⟩
    · intro other index found
      rw [index?_grown grown, if_neg, found]
      intro contained
      obtain rfl : other = name := by simpa [spelling] using contained
      rw [new] at found
      cases found
    · simp [index?_grown grown, spelling]

/-- After interning, every name of the list finds the index that was returned for it. -/
theorem internAll_spec (named : g.Named) (names : List Text) :
    (g.internAll names).1.Named ∧ g.Interned (g.internAll names).1 ∧
      List.Forall₂ (fun name index => (g.internAll names).1.index? name = some index) names
        (g.internAll names).2 := by
  induction names generalizing g with
  | nil => exact ⟨named, .refl g, .nil⟩
  | cons name rest ih =>
    obtain ⟨first, grown, here⟩ := intern_spec named name
    obtain ⟨last, longer, there⟩ := ih first
    exact ⟨last, grown.trans longer, .cons (longer.found here) there⟩

end Interning

section Growth

variable (formed : g.WellFormed)
include formed

theorem WellFormed.addNonTerminal {name : Text} (new : g.index? name = none) :
    (g.addNonTerminal name).WellFormed := by
  have grown : (g.addNonTerminal name).symbols = g.symbols ++ [.nonTerminal name] := rfl
  have named := formed.toNamed.grown grown (by simpa [Symbol.spellings, Symbol.name] using new)
  have kept {index : Nat} (proper : g.isNonTerminal index = true) :
      (g.addNonTerminal name).isNonTerminal index = true := by
    rw [isNonTerminal_grown grown]
    split
    · rfl
    · exact proper
  refine { named with chosen := fun {start} chosen => ?_, fits := fun production member => ?_ }
  · cases before : g.start with
    | none =>
      obtain rfl : g.symbols.length = start := by simpa [Grammar.addNonTerminal, before] using chosen
      simp [isNonTerminal_grown grown, Symbol.isNonTerminal]
    | some first =>
      obtain rfl : first = start := by simpa [Grammar.addNonTerminal, before] using chosen
      exact kept (formed.chosen before)
  · have own := formed.fits production member
    refine ⟨kept own.head, own.body, fun symbol inside => ?_⟩
    refine (own.symbols symbol inside).imp (fun terminal => ?_) kept
    rw [isTerminal_grown grown, if_neg (Nat.ne_of_lt (lt_of_isTerminal terminal))]
    exact terminal

theorem WellFormed.addTerminal {name : Text} (new : g.index? name = none) :
    (g.addTerminal name).WellFormed := by
  have same : g.intern name = (g.addTerminal name, g.symbols.length) := by simp [intern, new]
  obtain ⟨named, interned, _⟩ := intern_spec formed.toNamed name
  rw [same] at named interned
  exact formed.interned named interned

theorem WellFormed.pushProduction {head : Nat} {body : List Nat}
    (fits : g.Fits ⟨head, if body.isEmpty then [epsilonIndex] else body⟩) :
    (g.pushProduction head body).WellFormed := by
  refine ⟨⟨formed.epsilon, formed.endMark, formed.found⟩, formed.chosen, fun production member => ?_⟩
  rcases List.mem_append.mp member with old | new
  · have own := formed.fits production old
    exact ⟨own.head, own.body, own.symbols⟩
  · obtain rfl := List.mem_singleton.mp new
    exact ⟨fits.head, fits.body, fits.symbols⟩

end Growth

section Rules

/-- The state of a grammar while its heads are read: no productions yet, and no terminals. -/
structure HeadsOnly (g : Grammar) : Prop extends WellFormed g where
  productions : g.productions = []
  augmented : g.augmented = none
  terminal : ∀ index, g.isTerminal index = false

theorem HeadsOnly.empty : Grammar.empty.HeadsOnly :=
  { WellFormed.empty with
    productions := rfl
    augmented := rfl
    terminal := by
      intro index
      match index with
      | 0 | 1 | index + 2 => rfl }

theorem HeadsOnly.addNonTerminal (only : g.HeadsOnly) {name : Text} (new : g.index? name = none) :
    (g.addNonTerminal name).HeadsOnly := by
  refine { only.toWellFormed.addNonTerminal new with
           productions := only.productions, augmented := only.augmented, terminal := fun index => ?_ }
  have grown : (g.addNonTerminal name).symbols = g.symbols ++ [.nonTerminal name] := rfl
  rw [isTerminal_grown grown]
  split
  · rfl
  · exact only.terminal index

theorem withHead_spec (only : g.HeadsOnly) (name : Text) :
    (g.withHead name).HeadsOnly ∧ (∃ index, (g.withHead name).index? name = some index) ∧
      ∀ {other index}, g.index? other = some index → (g.withHead name).index? other = some index := by
  unfold withHead
  split
  · rename_i found
    exact ⟨only, Option.isSome_iff_exists.mp found, id⟩
  · rename_i missing
    have new : g.index? name = none := by simpa using missing
    have grown : (g.addNonTerminal name).symbols = g.symbols ++ [.nonTerminal name] := rfl
    have spelling : (Symbol.nonTerminal name).spellings = [name] := rfl
    refine ⟨only.addNonTerminal new, ⟨g.symbols.length, by simp [index?_grown grown, spelling]⟩, ?_⟩
    intro other index found
    rw [index?_grown grown, if_neg, found]
    intro contained
    obtain rfl : other = name := by simpa [spelling] using contained
    rw [new] at found
    cases found

/-- Once the heads are read, the head of every rule finds a symbol. -/
theorem withHeads_spec (rules : List Rule) (only : g.HeadsOnly) :
    (rules.foldl (fun g rule => g.withHead rule.head) g).HeadsOnly ∧
      (∀ rule ∈ rules, ∃ index,
        (rules.foldl (fun g rule => g.withHead rule.head) g).index? rule.head = some index) ∧
      ∀ {other index}, g.index? other = some index →
        (rules.foldl (fun g rule => g.withHead rule.head) g).index? other = some index := by
  induction rules generalizing g with
  | nil => exact ⟨only, by simp, id⟩
  | cons rule rest ih =>
    obtain ⟨first, ⟨index, here⟩, kept⟩ := withHead_spec only rule.head
    obtain ⟨last, found, keeps⟩ := ih first
    refine ⟨last, fun other member => ?_, fun before => keeps (kept before)⟩
    rcases List.mem_cons.mp member with rfl | later
    · exact ⟨index, keeps here⟩
    · exact found other later

/-- A grammar whose productions are being read. -/
structure Loading (g : Grammar) : Prop extends WellFormed g where
  augmented : g.augmented = none

theorem HeadsOnly.loading (only : g.HeadsOnly) : g.Loading :=
  { only with augmented := only.augmented }

private theorem exists_of_mem_indices {names : List Text} {indices : List Nat} {symbol : Nat}
    (found : List.Forall₂ (fun name index => g.index? name = some index) names indices)
    (member : symbol ∈ indices) : ∃ name ∈ names, g.index? name = some symbol := by
  induction found with
  | nil => cases member
  | @cons name index _ _ own _ ih =>
    rcases List.mem_cons.mp member with rfl | later
    · exact ⟨name, List.mem_cons_self, own⟩
    · obtain ⟨other, present, finds⟩ := ih later
      exact ⟨other, List.mem_cons_of_mem name present, finds⟩

/-- The body of a placed rule is epsilon alone or holds proper symbols only. -/
private theorem fits_body (named : g.Named) {rule : Rule} (placed : rule.misplaced? = none)
    {indices : List Nat}
    (found : List.Forall₂ (fun name index => g.index? name = some index) rule.body indices)
    {head : Nat} (nonTerminal : g.isNonTerminal head = true) :
    g.Fits ⟨head, if indices.isEmpty then [epsilonIndex] else indices⟩ := by
  obtain ⟨_, _, body⟩ := Rule.misplaced?_eq_none placed
  refine ⟨nonTerminal, ?_, fun symbol member => ?_⟩
  · cases indices <;> simp
  · cases indices with
    | nil => simp [Production.symbols, Production.isEpsilon] at member
    | cons index rest =>
      have inside : symbol ∈ index :: rest ∧ index :: rest ≠ [epsilonIndex] := by
        unfold Production.symbols Production.isEpsilon at member
        by_cases epsilon : index :: rest = [epsilonIndex] <;> simp [epsilon] at member ⊢
        exact member.2
      obtain ⟨name, present, finds⟩ := exists_of_mem_indices found inside.1
      obtain ⟨notEnd, alone⟩ := body name present
      refine proper_of_index? finds (fun epsilon => ?_) notEnd
      have single : rule.body = [name] := by
        have short := alone epsilon
        match same : rule.body with
        | [] => simp [same] at present
        | [only] => simpa [same] using (by simpa [same] using present : name = only).symm
        | _ :: _ :: _ => simp [same] at short
      rw [single] at found
      have spelled := named.found named.epsilon epsilon
      cases found with
      | cons first nothing =>
        cases nothing
        rw [spelled] at first
        exact inside.2 (by simpa using (Option.some.inj first).symm)

theorem addRule_spec (loading : g.Loading) {rule : Rule} (placed : rule.misplaced? = none)
    {head : Nat} (finds : g.index? rule.head = some head)
    (nonTerminal : g.isNonTerminal head = true) :
    (g.addRule rule).Loading ∧ ∀ {name index}, g.index? name = some index →
      g.isNonTerminal index = true →
      (g.addRule rule).index? name = some index ∧ (g.addRule rule).isNonTerminal index = true := by
  obtain ⟨named, interned, found⟩ := internAll_spec loading.toNamed rule.body
  have formed := loading.toWellFormed.interned named interned
  have fits := fits_body named placed found (interned.isNonTerminal nonTerminal)
  have same : g.addRule rule =
      (g.internAll rule.body).1.pushProduction head (g.internAll rule.body).2 := by
    simp [addRule, finds]
  rw [same]
  refine ⟨⟨formed.pushProduction fits, interned.augmented.trans loading.augmented⟩, ?_⟩
  exact fun here proper => ⟨interned.found here, interned.isNonTerminal proper⟩

theorem addRules_spec (rules : List Rule) (loading : g.Loading)
    (placed : ∀ rule ∈ rules, rule.misplaced? = none)
    (heads : ∀ rule ∈ rules, ∃ head, g.index? rule.head = some head ∧ g.isNonTerminal head = true) :
    (rules.foldl addRule g).Loading := by
  induction rules generalizing g with
  | nil => exact loading
  | cons rule rest ih =>
    obtain ⟨head, finds, nonTerminal⟩ := heads rule (by simp)
    obtain ⟨next, kept⟩ := addRule_spec loading (placed rule (by simp)) finds nonTerminal
    apply ih next (fun other member => placed other (by simp [member]))
    intro other member
    obtain ⟨index, here, proper⟩ := heads other (by simp [member])
    exact ⟨index, kept here proper⟩

end Rules

/-- The heads of placed rules find non-terminals once they are read. -/
theorem exists_head_of_withHeads {rules : List Rule}
    (placed : ∀ rule ∈ rules, rule.misplaced? = none) {rule : Rule} (member : rule ∈ rules) :
    ∃ head,
      (rules.foldl (fun g rule => g.withHead rule.head) Grammar.empty).index? rule.head = some head ∧
      (rules.foldl (fun g rule => g.withHead rule.head) Grammar.empty).isNonTerminal head = true := by
  obtain ⟨only, heads, _⟩ := withHeads_spec rules HeadsOnly.empty
  obtain ⟨index, found⟩ := heads rule member
  obtain ⟨notEpsilon, notEnd, _⟩ := Rule.misplaced?_eq_none (placed rule member)
  rcases proper_of_index? found notEpsilon notEnd with terminal | nonTerminal
  · rw [only.terminal] at terminal
    cases terminal
  · exact ⟨index, found, nonTerminal⟩

theorem ofRules_eq_ok {rules : List Rule} : ofRules rules = .ok g ↔
    (∀ rule ∈ rules, rule.misplaced? = none) ∧
      g = rules.foldl addRule (rules.foldl (fun g rule => g.withHead rule.head) Grammar.empty) := by
  rw [← List.findSome?_eq_none_iff, ofRules]
  cases rules.findSome? Rule.misplaced? <;> simp [eq_comm]

/-- Every loaded grammar is well formed, and not yet augmented. -/
theorem Loaded.loading (loaded : g.Loaded) : g.Loading := by
  obtain ⟨rules, success⟩ := loaded
  obtain ⟨placed, rfl⟩ := ofRules_eq_ok.mp success
  have only := (withHeads_spec rules HeadsOnly.empty).1
  exact addRules_spec rules only.loading placed fun rule => exists_head_of_withHeads placed

theorem Loaded.wellFormed (loaded : g.Loaded) : g.WellFormed := loaded.loading.toWellFormed

theorem Loaded.augmented (loaded : g.Loaded) : g.augmented = none := loaded.loading.augmented

section Start

theorem start_withHead_new {name : Text} (unset : g.start = none) (new : g.index? name = none) :
    (g.withHead name).start = some g.symbols.length ∧
      (g.withHead name).index? name = some g.symbols.length := by
  have grown : (g.addNonTerminal name).symbols = g.symbols ++ [.nonTerminal name] := rfl
  have own : g.withHead name = g.addNonTerminal name := by simp [withHead, new]
  rw [own, index?_grown grown]
  simp [addNonTerminal, unset, Symbol.spellings, Symbol.name]

private theorem start_withHead {name : Text} {start : Nat} (chosen : g.start = some start) :
    (g.withHead name).start = some start := by
  unfold withHead
  split
  · exact chosen
  · simp [addNonTerminal, chosen]

theorem start_withHeads (rules : List Rule) {start : Nat} (chosen : g.start = some start) :
    (rules.foldl (fun g rule => g.withHead rule.head) g).start = some start := by
  induction rules generalizing g with
  | nil => exact chosen
  | cons rule rest ih => exact ih (start_withHead chosen)

private theorem start_internAll (names : List Text) : (g.internAll names).1.start = g.start := by
  induction names generalizing g with
  | nil => rfl
  | cons name rest ih =>
    have first : (g.intern name).1.start = g.start := by
      unfold intern
      split <;> rfl
    exact ih.trans first

theorem start_addRules (rules : List Rule) : (rules.foldl addRule g).start = g.start := by
  induction rules generalizing g with
  | nil => rfl
  | cons rule rest ih =>
    rw [List.foldl_cons, ih, addRule]
    split
    · rfl
    · exact start_internAll rule.body

theorem index?_empty {name : Text} (notEpsilon : name ∉ Symbol.epsilon.spellings)
    (notEnd : name ≠ endMarkName) : Grammar.empty.index? name = none := by
  cases found : Grammar.empty.index? name with
  | none => rfl
  | some index =>
    rcases proper_of_index? found notEpsilon notEnd with terminal | nonTerminal
    · rw [HeadsOnly.empty.terminal] at terminal
      cases terminal
    · match index with
      | 0 | 1 | index + 2 => cases nonTerminal

theorem Loaded.exists_start (loaded : g.Loaded) (nonEmpty : g.productions ≠ []) :
    ∃ start, g.start = some start := by
  obtain ⟨rules, success⟩ := loaded
  obtain ⟨placed, rfl⟩ := ofRules_eq_ok.mp success
  cases rules with
  | nil => exact absurd rfl nonEmpty
  | cons rule rest =>
    obtain ⟨notEpsilon, notEnd, _⟩ := Rule.misplaced?_eq_none (placed rule List.mem_cons_self)
    rw [start_addRules]
    exact ⟨_, start_withHeads rest (start_withHead_new rfl (index?_empty notEpsilon notEnd)).1⟩

end Start

theorem loaded_of_text {text : Text} (success : ofText text = .ok g) : g.Loaded := by
  obtain ⟨rules, _, built⟩ := Result.bind_eq_ok.mp success
  exact ⟨rules, built⟩

theorem loaded_of_batch {text : Text} {batch : Batch} (success : Batch.ofText text = .ok batch) :
    batch.grammar.Loaded := by
  obtain ⟨header, _, success⟩ := Result.bind_eq_ok.mp success
  obtain ⟨⟨rules, rest⟩, _, success⟩ := Result.bind_eq_ok.mp success
  obtain ⟨strings, _, success⟩ := Result.bind_eq_ok.mp success
  obtain ⟨grammar, built, same⟩ := Result.bind_eq_ok.mp success
  obtain rfl := Except.ok.inj same
  exact ⟨rules, built⟩

end Grammar

end SimpleLR
