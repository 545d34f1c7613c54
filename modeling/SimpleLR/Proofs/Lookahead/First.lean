import SimpleLR.Proofs.Grammar.Loading
import SimpleLR.Proofs.Grammar.Yield
import SimpleLR.Proofs.Lookahead.Spread

namespace SimpleLR

private theorem Production.isEpsilon_of_symbols_eq_nil {production : Production} (body : production.body ≠ [])
    (bare : production.symbols = []) : production.isEpsilon = true := by
  unfold symbols at bare
  split at bare
  · assumption
  · exact absurd bare body

namespace Grammar

variable {g : Grammar}

section Erasable

private theorem erasable_complete :
    (∀ head ∈ (g.productions.filter Production.isEpsilon).map (·.head), head ∈ g.erasable) ∧
      ∀ before last, before ++ [last] <+: g.erasable →
        ∀ head ∈ g.vanishingHeads (before ++ [last]), head ∈ g.erasable := by
  have ⟨reached, led⟩ := discover_complete (fun marked _ => g.vanishingHeads marked)
    (g.productions.map (·.head))
    (fun _ _ _ _ head leads => by
      obtain ⟨production, member, rfl⟩ := List.mem_map.mp leads
      exact List.mem_map.mpr ⟨production, (List.mem_filter.mp member).1, rfl⟩)
    g.productions.length []
    (fresh [] ((g.productions.filter Production.isEpsilon).map (·.head)))
    (by simpa using nodup_fresh _ _)
    (fun head member => by
      obtain ⟨production, inside, rfl⟩ := List.mem_map.mp (mem_fresh.mp (by simpa using member)).1
      exact List.mem_map.mpr ⟨production, (List.mem_filter.mp inside).1, rfl⟩)
    (by simp)
  exact ⟨fun head member => reached head (mem_fresh.mpr ⟨member, by simp⟩),
    fun before last found => led before last found (Nat.zero_le _)⟩

/-- Once some symbol is erasable, so is every head whose body holds epsilon and erasable symbols only. -/
theorem mem_erasable_of_vanishes (nonEmpty : g.erasable ≠ []) {production : Production}
    (member : production ∈ g.productions)
    (vanishes : ∀ symbol ∈ production.symbols, symbol = epsilonIndex ∨ symbol ∈ g.erasable) :
    production.head ∈ g.erasable := by
  obtain ⟨_, led⟩ := g.erasable_complete
  have split := List.dropLast_append_getLast nonEmpty
  refine led (g.erasable.dropLast) (g.erasable.getLast nonEmpty) ⟨[], by simpa using split⟩
    production.head ?_
  apply List.mem_map.mpr
  refine ⟨production, List.mem_filter.mpr ⟨member, ?_⟩, rfl⟩
  rw [split]
  simpa only [List.all_eq_true, Bool.or_eq_true, beq_iff_eq, List.contains_iff_mem] using vanishes

theorem mem_erasable_of_isEpsilon {production : Production} (member : production ∈ g.productions)
    (epsilon : production.isEpsilon = true) : production.head ∈ g.erasable :=
  g.erasable_complete.1 _ (List.mem_map.mpr ⟨production, List.mem_filter.mpr ⟨member, epsilon⟩, rfl⟩)

private theorem WellFormed.mem_erasable (formed : g.WellFormed) {production : Production}
    (member : production ∈ g.productions)
    (vanishes : ∀ symbol ∈ production.symbols, symbol ∈ g.erasable) :
    production.head ∈ g.erasable := by
  by_cases bare : production.symbols = []
  · have body := (formed.fits production member).body
    exact mem_erasable_of_isEpsilon member (Production.isEpsilon_of_symbols_eq_nil body bare)
  · obtain ⟨symbol, inside⟩ := List.exists_mem_of_ne_nil _ bare
    have nonEmpty : g.erasable ≠ [] := List.ne_nil_of_mem (vanishes symbol inside)
    exact mem_erasable_of_vanishes nonEmpty member fun other present => .inr (vanishes other present)

end Erasable

/-- A form of terminals and non-terminals. -/
def Proper (g : Grammar) (form : List Nat) : Prop :=
  ∀ symbol ∈ form, g.isTerminal symbol = true ∨ g.isNonTerminal symbol = true

instance (form : List Nat) : Decidable (g.Proper form) :=
  inferInstanceAs (Decidable (∀ symbol ∈ form,
    g.isTerminal symbol = true ∨ g.isNonTerminal symbol = true))

section FirstOfString

variable {first : Family} {member : Nat}

theorem ne_epsilon_of_isTerminal (named : g.Named) {symbol : Nat}
    (terminal : g.isTerminal symbol = true) : symbol ≠ epsilonIndex := by
  rintro rfl
  rw [named.isTerminal_epsilon] at terminal
  cases terminal

theorem ne_epsilon_of_isNonTerminal (named : g.Named) {symbol : Nat}
    (nonTerminal : g.isNonTerminal symbol = true) : symbol ≠ epsilonIndex := by
  rintro rfl
  rw [named.isNonTerminal_epsilon] at nonTerminal
  cases nonTerminal

theorem firstOfString_terminal (named : g.Named) {symbol : Nat}
    (terminal : g.isTerminal symbol = true) (rest : List Nat) :
    member ∈ g.firstOfString first (symbol :: rest) ↔ member = symbol := by
  unfold firstOfString
  simp [ne_epsilon_of_isTerminal named terminal, isNonTerminal_eq_false_of_isTerminal terminal]

theorem firstOfString_nonTerminal (named : g.Named) {symbol : Nat}
    (nonTerminal : g.isNonTerminal symbol = true) (rest : List Nat) :
    member ∈ g.firstOfString first (symbol :: rest) ↔
      member ≠ epsilonIndex ∧ member ∈ first.get symbol ∨
        epsilonIndex ∈ first.get symbol ∧ member ∈ g.firstOfString first rest := by
  rw [firstOfString]
  simp only [beq_iff_eq, ne_epsilon_of_isNonTerminal named nonTerminal, nonTerminal, if_true, if_false]
  split
  · simp [*, and_comm]
  · simp [*, and_comm]

/-- What a scan of a body finds is what the FIRST set of the body holds beside epsilon. -/
theorem mem_firstOfString_iff_leading (named : g.Named) {erasable form : List Nat}
    (proper : g.Proper form)
    (marked : ∀ symbol, g.isNonTerminal symbol = true →
      (epsilonIndex ∈ first.get symbol ↔ symbol ∈ erasable))
    (nonEmpty : member ≠ epsilonIndex) :
    member ∈ g.firstOfString first form ↔ (g.leading erasable form).2 = some member ∨
      ∃ part ∈ (g.leading erasable form).1, member ∈ first.get part := by
  induction form with
  | nil => simp [firstOfString, leading, nonEmpty]
  | cons symbol rest ih =>
    have inner := ih fun other inside => proper other (by simp [inside])
    rcases proper symbol (by simp) with terminal | nonTerminal
    · rw [firstOfString_terminal named terminal]
      simp [leading, isNonTerminal_eq_false_of_isTerminal terminal, eq_comm]
    · rw [firstOfString_nonTerminal named nonTerminal, marked symbol nonTerminal]
      unfold leading
      by_cases vanishes : symbol ∈ erasable
      · simp [nonTerminal, vanishes, nonEmpty, inner, or_left_comm]
      · simp [nonTerminal, vanishes, nonEmpty]

theorem epsilon_mem_firstOfString (named : g.Named) {erasable form : List Nat}
    (proper : g.Proper form)
    (marked : ∀ symbol, g.isNonTerminal symbol = true →
      (epsilonIndex ∈ first.get symbol ↔ symbol ∈ erasable))
    (vanishes : epsilonIndex ∈ g.firstOfString first form) : ∀ symbol ∈ form, symbol ∈ erasable := by
  induction form with
  | nil => simp
  | cons symbol rest ih =>
    rcases proper symbol (by simp) with terminal | nonTerminal
    · rw [firstOfString_terminal named terminal] at vanishes
      exact absurd vanishes.symm (ne_epsilon_of_isTerminal named terminal)
    · rw [firstOfString_nonTerminal named nonTerminal, marked symbol nonTerminal] at vanishes
      obtain ⟨own, behind⟩ := vanishes.resolve_left fun ⟨other, _⟩ => other rfl
      intro other inside
      rcases List.mem_cons.mp inside with rfl | later
      · exact own
      · exact ih (fun other inside => proper other (by simp [inside])) behind other later

end FirstOfString

section FirstSets

theorem isTerminal_of_leading {erasable form : List Nat} (proper : g.Proper form) {member : Nat}
    (leads : (g.leading erasable form).2 = some member) : g.isTerminal member = true := by
  induction form with
  | nil => simp [leading] at leads
  | cons symbol rest ih =>
    unfold leading at leads
    rcases proper symbol (by simp) with terminal | nonTerminal
    · simp only [isNonTerminal_eq_false_of_isTerminal terminal] at leads
      exact Option.some.inj leads ▸ terminal
    · by_cases vanishes : symbol ∈ erasable
      · simp only [nonTerminal, List.contains_iff_mem.mpr vanishes, if_true] at leads
        exact ih (fun other inside => proper other (by simp [inside])) leads
      · simp [nonTerminal, vanishes] at leads

/-- The dependencies between FIRST sets: what a body leads with is part of its head's set. -/
def firstGraph (g : Grammar) : Dependencies :=
  ⟨(g.productions.map fun production =>
      (production.head, g.leading g.erasable production.symbols)).flatMap fun (head, parts, _) =>
    parts.map fun part => (part, head)⟩

theorem mem_firstGraph_edges {part head : Nat} : (part, head) ∈ g.firstGraph.edges ↔
    ∃ production ∈ g.productions, production.head = head ∧
      part ∈ (g.leading g.erasable production.symbols).1 := by
  simp only [firstGraph, List.mem_flatMap, List.mem_map, Prod.mk.injEq]
  constructor
  · intro holds
    obtain ⟨_, ⟨production, member, rfl⟩, _, inside, rfl, rfl⟩ := holds
    exact ⟨production, member, rfl, inside⟩
  · intro holds
    obtain ⟨production, member, rfl, inside⟩ := holds
    exact ⟨_, ⟨production, member, rfl⟩, part, inside, rfl, rfl⟩

theorem mem_firstSets {symbol member : Nat} : member ∈ g.firstSets.get symbol ↔
    symbol ∈ g.erasable ∧ member = epsilonIndex ∨
      ∃ production ∈ g.productions, g.isNonTerminal production.head = true ∧
        (g.leading g.erasable production.symbols).2 = some member ∧
        g.firstGraph.Reaches production.head symbol := by
  unfold firstSets
  dsimp only
  rw [mem_get_spreadAll, Family.mem_get_addAll]
  change _ ∨ (∃ source, _ ∧ _ ∧ g.firstGraph.Reaches source symbol) ↔ _
  simp only [not_mem_get_blankFamily, false_or, SortedSet.mem_ofList, List.mem_singleton,
    Family.mem_get_foldl_add, Family.not_mem_get_empty, List.mem_map, Option.mem_toList]
  refine or_congr_right ⟨?_, ?_⟩
  · intro holds
    obtain ⟨_, nonTerminal, ⟨_, ⟨production, inside, rfl⟩, rfl, leads⟩, path⟩ := holds
    exact ⟨production, inside, nonTerminal, leads, path⟩
  · intro holds
    obtain ⟨production, inside, nonTerminal, leads, path⟩ := holds
    exact ⟨_, nonTerminal, ⟨_, ⟨production, inside, rfl⟩, rfl, leads⟩, path⟩

variable (formed : g.WellFormed)
include formed

theorem WellFormed.proper_symbols {production : Production} (member : production ∈ g.productions) :
    g.Proper production.symbols := (formed.fits production member).symbols

theorem WellFormed.epsilon_mem_firstSets {symbol : Nat} :
    epsilonIndex ∈ g.firstSets.get symbol ↔ symbol ∈ g.erasable := by
  rw [mem_firstSets]
  refine ⟨fun found => ?_, fun vanishes => .inl ⟨vanishes, rfl⟩⟩
  rcases found with ⟨vanishes, _⟩ | ⟨production, inside, _, leads, _⟩
  · exact vanishes
  · have terminal := isTerminal_of_leading (formed.proper_symbols inside) leads
    exact absurd rfl (ne_epsilon_of_isTerminal formed.toNamed terminal)

theorem WellFormed.isTerminal_of_mem_firstSets {symbol member : Nat}
    (inside : member ∈ g.firstSets.get symbol) (nonEmpty : member ≠ epsilonIndex) :
    g.isTerminal member = true := by
  rcases mem_firstSets.mp inside with ⟨_, empty⟩ | ⟨production, present, _, leads, _⟩
  · exact absurd empty nonEmpty
  · exact isTerminal_of_leading (formed.proper_symbols present) leads

theorem WellFormed.lt_of_mem_firstSets {symbol member : Nat}
    (inside : member ∈ g.firstSets.get symbol) : member < g.symbols.length := by
  by_cases empty : member = epsilonIndex
  · exact empty ▸ (List.getElem?_eq_some_iff.mp formed.epsilon).1
  · exact lt_of_isTerminal (formed.isTerminal_of_mem_firstSets inside empty)

theorem WellFormed.isTerminal_of_mem_firstOfString {form : List Nat} (proper : g.Proper form)
    {member : Nat} (inside : member ∈ g.firstOfString g.firstSets form)
    (nonEmpty : member ≠ epsilonIndex) : g.isTerminal member = true := by
  induction form with
  | nil => exact absurd (by simpa [firstOfString] using inside) nonEmpty
  | cons symbol rest ih =>
    rcases proper symbol (by simp) with terminal | nonTerminal
    · rw [firstOfString_terminal formed.toNamed terminal] at inside
      exact inside ▸ terminal
    · rw [firstOfString_nonTerminal formed.toNamed nonTerminal] at inside
      rcases inside with ⟨_, own⟩ | ⟨_, later⟩
      · exact formed.isTerminal_of_mem_firstSets own nonEmpty
      · exact ih (fun other present => proper other (by simp [present])) later

/-- The FIRST set of a head holds the FIRST set of each of its bodies. -/
theorem WellFormed.mem_firstSets_of_body {production : Production}
    (member : production ∈ g.productions) {symbol : Nat}
    (inside : symbol ∈ g.firstOfString g.firstSets production.symbols) :
    symbol ∈ g.firstSets.get production.head := by
  have proper := formed.proper_symbols member
  have marked : ∀ symbol, g.isNonTerminal symbol = true →
      (epsilonIndex ∈ g.firstSets.get symbol ↔ symbol ∈ g.erasable) :=
    fun _ _ => formed.epsilon_mem_firstSets
  by_cases empty : symbol = epsilonIndex
  · subst empty
    have vanishes := epsilon_mem_firstOfString formed.toNamed proper marked inside
    exact formed.epsilon_mem_firstSets.mpr (formed.mem_erasable member vanishes)
  · have nonTerminal := (formed.fits production member).head
    rw [mem_firstOfString_iff_leading formed.toNamed proper marked empty] at inside
    rcases inside with leads | ⟨part, present, deeper⟩
    · exact mem_firstSets.mpr (.inr ⟨production, member, nonTerminal, leads, .here⟩)
    · rcases mem_firstSets.mp deeper with ⟨_, bare⟩ | ⟨source, origin, proper, leads, path⟩
      · exact absurd bare empty
      · have edge := mem_firstGraph_edges.mpr ⟨production, member, rfl, present⟩
        exact mem_firstSets.mpr (.inr ⟨source, origin, proper, leads, path.edge edge⟩)

/-- The FIRST set of a form holds the first terminal of everything that the form yields, and
epsilon if the form yields nothing. -/
theorem WellFormed.mem_firstOfString_of_yields {form word reductions : List Nat}
    (yields : g.Yields form word reductions) :
    word.headD epsilonIndex ∈ g.firstOfString g.firstSets form := by
  induction yields with
  | nil => simp [firstOfString]
  | terminal terminal _ _ => simp [firstOfString_terminal formed.toNamed terminal]
  | @production index production rest inner outer within beyond found body _ inside behind =>
    have member := List.mem_of_getElem? found
    rw [firstOfString_nonTerminal formed.toNamed (formed.fits production member).head]
    have own := formed.mem_firstSets_of_body member inside
    cases inner with
    | nil => exact .inr ⟨own, behind⟩
    | cons symbol inner =>
      have terminal := body.terminals symbol (by simp)
      exact .inl ⟨ne_epsilon_of_isTerminal formed.toNamed terminal, own⟩

end FirstSets

end Grammar

end SimpleLR
