import SimpleLR.Proofs.Lookahead.First

namespace SimpleLR.Grammar

variable {g : Grammar}

theorem mem_occurrences {form rest : List Nat} {symbol : Nat} :
    (symbol, rest) ∈ g.occurrences form ↔
      g.isNonTerminal symbol = true ∧ ∃ before, form = before ++ symbol :: rest := by
  induction form with
  | nil => simp [occurrences]
  | cons head tail ih =>
    have split : (∃ before, head :: tail = before ++ symbol :: rest) ↔
        head = symbol ∧ tail = rest ∨ ∃ before, tail = before ++ symbol :: rest := by
      constructor
      · intro holds
        obtain ⟨before, same⟩ := holds
        cases before with
        | nil => exact .inl (by simpa using same)
        | cons first before =>
          simp only [List.cons_append, List.cons.injEq] at same
          exact .inr ⟨before, same.2⟩
      · intro holds
        rcases holds with ⟨rfl, rfl⟩ | ⟨before, rfl⟩
        · exact ⟨[], rfl⟩
        · exact ⟨head :: before, rfl⟩
    rw [split]
    unfold occurrences
    by_cases nonTerminal : g.isNonTerminal head = true
    · simp only [nonTerminal, if_true, List.mem_cons, Prod.mk.injEq, ih]
      constructor
      · intro holds
        rcases holds with ⟨rfl, rfl⟩ | ⟨proper, later⟩
        · exact ⟨nonTerminal, .inl ⟨rfl, rfl⟩⟩
        · exact ⟨proper, .inr later⟩
      · intro holds
        obtain ⟨proper, ⟨rfl, rfl⟩ | later⟩ := holds
        · exact .inl ⟨rfl, rfl⟩
        · exact .inr ⟨proper, later⟩
    · simp only [nonTerminal, Bool.false_eq_true, if_false, ih]
      refine ⟨fun ⟨proper, later⟩ => ⟨proper, .inr later⟩, fun ⟨proper, found⟩ => ⟨proper, ?_⟩⟩
      exact found.resolve_left fun ⟨same, _⟩ => nonTerminal (same ▸ proper)

/-- A non-terminal in the body of a production, with what stands behind it. -/
structure Occurs (g : Grammar) (head symbol : Nat) (rest : List Nat) : Prop where
  nonTerminal : g.isNonTerminal symbol = true
  body : ∃ production ∈ g.productions, production.head = head ∧
    ∃ before, production.symbols = before ++ symbol :: rest

/-- The occurrences of all bodies, each with the FIRST set of what stands behind it. -/
def followScans (g : Grammar) (first : Family) : List (Nat × Nat × SymbolSet) :=
  g.productions.flatMap fun production =>
    (g.occurrences production.symbols).map fun (symbol, rest) =>
      (production.head, symbol, g.firstOfString first rest)

theorem mem_followScans {first : Family} {head symbol : Nat} {behind : SymbolSet} :
    (head, symbol, behind) ∈ g.followScans first ↔
      ∃ rest, g.Occurs head symbol rest ∧ behind = g.firstOfString first rest := by
  unfold followScans
  simp only [List.mem_flatMap, List.mem_map, Prod.mk.injEq, Prod.exists, mem_occurrences]
  constructor
  · intro holds
    obtain ⟨production, member, _, rest, ⟨nonTerminal, before, same⟩, rfl, rfl, rfl⟩ := holds
    exact ⟨rest, ⟨nonTerminal, production, member, rfl, before, same⟩, rfl⟩
  · intro holds
    obtain ⟨rest, ⟨nonTerminal, production, member, rfl, before, same⟩, rfl⟩ := holds
    exact ⟨production, member, symbol, rest, ⟨nonTerminal, before, same⟩, rfl, rfl, rfl⟩

/-- The dependencies between FOLLOW sets: what follows a head follows a last symbol of its body. -/
def followGraph (g : Grammar) (first : Family) : Dependencies :=
  ⟨(g.followScans first).filterMap fun (head, symbol, behind) =>
    if epsilonIndex ∈ behind then some (head, symbol) else none⟩

theorem mem_followGraph_edges {first : Family} {head symbol : Nat} :
    (head, symbol) ∈ (g.followGraph first).edges ↔
      ∃ rest, g.Occurs head symbol rest ∧ epsilonIndex ∈ g.firstOfString first rest := by
  unfold followGraph
  simp only [List.mem_filterMap, Prod.exists, mem_followScans, Option.ite_none_right_eq_some,
    Option.some.injEq, Prod.mk.injEq]
  constructor
  · intro holds
    obtain ⟨_, _, _, ⟨rest, occurs, rfl⟩, vanishes, rfl, rfl⟩ := holds
    exact ⟨rest, occurs, vanishes⟩
  · intro holds
    obtain ⟨rest, occurs, vanishes⟩ := holds
    exact ⟨head, symbol, _, ⟨rest, occurs, rfl⟩, vanishes, rfl, rfl⟩

/-- What follows a symbol at once: the end mark behind the first head, and what can stand at the
start of the rest of a body. -/
inductive FollowsAtOnce (g : Grammar) (first : Family) (symbol : Nat) : Nat → Prop where
  | ends {production : Production} (leads : g.productions.head? = some production)
      (head : production.head = symbol) : FollowsAtOnce g first symbol endMarkIndex
  | behind {head member : Nat} {rest : List Nat} (occurs : g.Occurs head symbol rest)
      (inside : member ∈ g.firstOfString first rest) (nonEmpty : member ≠ epsilonIndex) :
      FollowsAtOnce g first symbol member

/-- The members that FOLLOW sets have before anything is spread. -/
def followSeeds (g : Grammar) (first : Family) : Family :=
  let ends := match g.productions with
    | [] => Family.empty
    | production :: _ => Family.empty.add production.head (.ofList [endMarkIndex])
  (g.followScans first).foldl (fun family (_, symbol, behind) =>
    family.add symbol (behind.filter (· != epsilonIndex))) ends

private theorem mem_followSeeds {first : Family} {symbol member : Nat} :
    member ∈ (g.followSeeds first).get symbol ↔ g.FollowsAtOnce first symbol member := by
  rw [followSeeds, Family.mem_get_foldl_add]
  constructor
  · intro holds
    rcases holds with ends | ⟨⟨head, _, behind⟩, scanned, rfl, inside⟩
    · cases same : g.productions with
      | nil => simp [same] at ends
      | cons production rest =>
        simp only [same, Family.mem_get_add, Family.not_mem_get_empty, false_or,
          SortedSet.mem_ofList, List.mem_singleton] at ends
        obtain ⟨rfl, rfl⟩ := ends
        exact .ends (by rw [same, List.head?_cons]) rfl
    · obtain ⟨rest, occurs, rfl⟩ := mem_followScans.mp scanned
      rw [SortedSet.mem_filter, bne_iff_ne] at inside
      exact .behind occurs inside.1 inside.2
  · intro holds
    rcases holds with ⟨leads, rfl⟩ | ⟨occurs, inside, nonEmpty⟩
    · obtain ⟨rest, same⟩ := List.head?_eq_some_iff.mp leads
      left
      rw [same]
      simp [Family.mem_get_add]
    · right
      refine ⟨_, mem_followScans.mpr ⟨_, occurs, rfl⟩, rfl, ?_⟩
      rw [SortedSet.mem_filter, bne_iff_ne]
      exact ⟨inside, nonEmpty⟩

/-- A FOLLOW set holds what follows at once the symbols that reach its own. -/
theorem mem_followSets {first : Family} {symbol member : Nat} :
    member ∈ (g.followSets first).get symbol ↔ ∃ source, g.isNonTerminal source = true ∧
      g.FollowsAtOnce first source member ∧ (g.followGraph first).Reaches source symbol := by
  unfold followSets
  dsimp only
  rw [mem_get_spreadAll]
  simp only [not_mem_get_blankFamily, false_or]
  exact exists_congr fun source => and_congr_right fun _ => and_congr_left fun _ => mem_followSeeds

section FirstFollow

theorem mem_follow {symbol member : Nat} : member ∈ g.firstFollow.follow.get symbol ↔
    ∃ source, g.isNonTerminal source = true ∧ g.FollowsAtOnce g.firstSets source member ∧
      (g.followGraph g.firstSets).Reaches source symbol := mem_followSets

variable (formed : g.WellFormed)
include formed

theorem WellFormed.proper_of_mem_follow {symbol member : Nat}
    (inside : member ∈ g.firstFollow.follow.get symbol) :
    g.isTerminal member = true ∨ member = endMarkIndex := by
  obtain ⟨source, _, atOnce, _⟩ := mem_follow.mp inside
  cases atOnce with
  | ends => exact .inr rfl
  | @behind head _ rest occurs inside nonEmpty =>
    obtain ⟨production, member, rfl, before, same⟩ := occurs.body
    have proper : g.Proper rest := fun other present =>
      formed.proper_symbols member other (by simp [same, present])
    exact .inl (formed.isTerminal_of_mem_firstOfString proper inside nonEmpty)

theorem WellFormed.lt_of_mem_follow {symbol member : Nat}
    (inside : member ∈ g.firstFollow.follow.get symbol) : member < g.symbols.length := by
  rcases formed.proper_of_mem_follow inside with terminal | rfl
  · exact lt_of_isTerminal terminal
  · exact (List.getElem?_eq_some_iff.mp formed.endMark).1

theorem WellFormed.endMark_mem_follow {production : Production}
    (leads : g.productions[0]? = some production) :
    endMarkIndex ∈ g.firstFollow.follow.get production.head := by
  have head := (formed.fits_of_getElem? leads).head
  rw [← List.head?_eq_getElem?] at leads
  apply mem_follow.mpr
  exact ⟨_, head, .ends leads rfl, .here⟩

omit formed in
theorem Occurs.mem_follow {head symbol member : Nat} {rest : List Nat}
    (occurs : g.Occurs head symbol rest) (inside : member ∈ g.firstOfString g.firstSets rest)
    (nonEmpty : member ≠ epsilonIndex) : member ∈ g.firstFollow.follow.get symbol :=
  Grammar.mem_follow.mpr ⟨symbol, occurs.nonTerminal, .behind occurs inside nonEmpty, .here⟩

omit formed in
theorem Occurs.follow_subset {head symbol member : Nat} {rest : List Nat}
    (occurs : g.Occurs head symbol rest) (vanishes : epsilonIndex ∈ g.firstOfString g.firstSets rest)
    (inside : member ∈ g.firstFollow.follow.get head) :
    member ∈ g.firstFollow.follow.get symbol := by
  obtain ⟨source, nonTerminal, atOnce, path⟩ := Grammar.mem_follow.mp inside
  have edge := mem_followGraph_edges.mpr ⟨rest, occurs, vanishes⟩
  apply Grammar.mem_follow.mpr
  exact ⟨source, nonTerminal, atOnce, path.edge edge⟩

/-- If the rest of a body yields a word and a symbol that follows the head comes next, then the
first of these symbols follows the non-terminal. -/
theorem WellFormed.headD_mem_follow {head symbol next : Nat} {rest word reductions : List Nat}
    (occurs : g.Occurs head symbol rest) (yields : g.Yields rest word reductions)
    (follows : next ∈ g.firstFollow.follow.get head) :
    word.headD next ∈ g.firstFollow.follow.get symbol := by
  have first := formed.mem_firstOfString_of_yields yields
  cases word with
  | nil => exact occurs.follow_subset first follows
  | cons start word =>
    exact occurs.mem_follow first
      (ne_epsilon_of_isTerminal formed.toNamed (yields.terminals start (by simp)))

end FirstFollow

end SimpleLR.Grammar
