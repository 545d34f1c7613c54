import SimpleLR.Proofs.Grammar.Augmentation
import SimpleLR.Proofs.Grammar.Forms
import SimpleLR.Proofs.Lookahead.First

namespace SimpleLR

namespace Family

variable {family : Family} {other : Nat}

theorem isSome_get?_addAll {keys : List Nat} {more : SymbolSet} :
    ((family.addAll keys more).get? other).isSome = true ↔
      other ∈ keys ∨ (family.get? other).isSome = true := by
  unfold addAll
  induction keys generalizing family with
  | nil => simp
  | cons key rest ih =>
    rw [List.foldl_cons, ih, get?_add, List.mem_cons]
    by_cases same : other = key
    · simp [same]
    · simp [same]

end Family

namespace Grammar

variable {g : Grammar} {form : List Nat} {symbol member : Nat}

section Keys

theorem isSome_get?_spreadAll {graph : Dependencies} {seeds start : Family}
    (known : (start.get? symbol).isSome = true) :
    ((g.spreadAll graph seeds start).get? symbol).isSome = true := by
  unfold spreadAll
  induction g.nonTerminals generalizing start with
  | nil => exact known
  | cons source rest ih =>
    rw [List.foldl_cons]
    apply ih
    dsimp only
    split
    · exact known
    · exact Family.isSome_get?_addAll.mpr (.inr known)

theorem isSome_get?_blankFamily (nonTerminal : g.isNonTerminal symbol = true) :
    (g.blankFamily.get? symbol).isSome = true :=
  Family.isSome_get?_addAll.mpr (.inl (mem_nonTerminals.mpr nonTerminal))

theorem get?_firstSets (nonTerminal : g.isNonTerminal symbol = true) :
    g.firstSets.get? symbol = some (g.firstSets.get symbol) := by
  have blank := isSome_get?_blankFamily nonTerminal
  have known : (g.firstSets.get? symbol).isSome = true :=
    isSome_get?_spreadAll (Family.isSome_get?_addAll.mpr (.inr blank))
  obtain ⟨set, same⟩ := Option.isSome_iff_exists.mp known
  rw [Family.get, same, Option.getD_some]

end Keys

section Scan

private theorem exists_of_leading {erasable : List Nat}
    (leads : symbol ∈ (g.leading erasable form).1 ∨ (g.leading erasable form).2 = some symbol) :
    ∃ before after, form = before ++ symbol :: after ∧ ∀ other ∈ before, other ∈ erasable := by
  induction form with
  | nil => simp [leading] at leads
  | cons head rest ih =>
    unfold leading at leads
    by_cases nonTerminal : g.isNonTerminal head = true
    · by_cases vanishes : head ∈ erasable
      · simp only [nonTerminal, List.contains_iff_mem.mpr vanishes, if_true, List.mem_cons,
          or_assoc] at leads
        rcases leads with rfl | deeper
        · exact ⟨[], rest, rfl, by simp⟩
        · obtain ⟨before, after, rfl, erased⟩ := ih deeper
          exact ⟨head :: before, after, rfl, by simpa [vanishes] using erased⟩
      · obtain rfl : symbol = head := by simpa [nonTerminal, vanishes] using leads
        exact ⟨[], rest, rfl, by simp⟩
    · obtain rfl : head = symbol := by simpa [nonTerminal] using leads
      exact ⟨[], rest, rfl, by simp⟩

end Scan

section Sound

variable (formed : g.WellFormed)
include formed

/-- A symbol is marked only if it derives the empty string. -/
theorem WellFormed.derives_nil_of_mem_erasable (erased : symbol ∈ g.erasable) :
    g.Derives [symbol] [] := by
  have vanish {production : Production} (present : production ∈ g.productions)
      (each : ∀ other ∈ production.symbols, g.Derives [other] []) : g.Derives [production.head] [] :=
    (derives_of_mem present).trans (.nil_of_each each)
  suffices all : ∀ other ∈ g.erasable, g.Derives [other] [] from all symbol erased
  refine forall_mem_discover _ ?_ ?_
  · intro head waits
    rw [List.nil_append, mem_fresh, List.mem_map] at waits
    obtain ⟨⟨production, inside, rfl⟩, _⟩ := waits
    obtain ⟨present, epsilon⟩ := List.mem_filter.mp inside
    exact vanish present (by simp [Production.symbols, epsilon])
  · intro marked _ derives _ head leads
    obtain ⟨production, inside, rfl⟩ := List.mem_map.mp leads
    obtain ⟨present, vanishes⟩ := List.mem_filter.mp inside
    apply vanish present
    intro other own
    have kept := List.all_eq_true.mp vanishes other own
    rw [Bool.or_eq_true, beq_iff_eq, List.contains_iff_mem] at kept
    rcases kept with empty | old
    · rcases formed.proper_symbols present other own with terminal | nonTerminal
      · exact absurd empty (ne_epsilon_of_isTerminal formed.toNamed terminal)
      · exact absurd empty (ne_epsilon_of_isNonTerminal formed.toNamed nonTerminal)
    · exact derives other old

/-- A head derives a form that begins with anything its body leads with. -/
theorem WellFormed.derives_of_leading {production : Production} (present : production ∈ g.productions)
    (leads : symbol ∈ (g.leading g.erasable production.symbols).1 ∨
      (g.leading g.erasable production.symbols).2 = some symbol) :
    ∃ after, g.Derives [production.head] (symbol :: after) := by
  obtain ⟨before, after, same, erased⟩ := exists_of_leading leads
  have empty : g.Derives before [] :=
    .nil_of_each fun other inside => formed.derives_nil_of_mem_erasable (erased other inside)
  have moved : g.Derives production.symbols (symbol :: after) := by
    rw [same]
    simpa using empty.within [] (symbol :: after)
  exact ⟨after, (derives_of_mem present).trans moved⟩

private theorem WellFormed.derives_of_reaches {source : Nat} (path : g.firstGraph.Reaches source symbol) :
    ∃ after, g.Derives [symbol] (source :: after) := by
  induction path with
  | here => exact ⟨[], .refl⟩
  | edge _ step ih =>
    obtain ⟨beyond, deeper⟩ := ih
    obtain ⟨production, present, rfl, leads⟩ := mem_firstGraph_edges.mp step
    obtain ⟨after, begins⟩ := formed.derives_of_leading present (.inl leads)
    exact ⟨beyond ++ after, begins.trans (by simpa using deeper.within [] after)⟩

private theorem WellFormed.derives_of_mem_firstSets (inside : member ∈ g.firstSets.get symbol)
    (nonEmpty : member ≠ epsilonIndex) : ∃ after, g.Derives [symbol] (member :: after) := by
  rcases mem_firstSets.mp inside with ⟨_, empty⟩ | ⟨production, present, _, leads, path⟩
  · exact absurd empty nonEmpty
  · obtain ⟨beyond, reached⟩ := formed.derives_of_reaches path
    obtain ⟨after, begins⟩ := formed.derives_of_leading present (.inr leads)
    exact ⟨after ++ beyond, reached.trans (by simpa using begins.within [] beyond)⟩

theorem WellFormed.derives_nil_of_mem_firstOfString (proper : g.Proper form)
    (vanishes : epsilonIndex ∈ g.firstOfString g.firstSets form) : g.Derives form [] := by
  have erased := epsilon_mem_firstOfString formed.toNamed proper
    (fun _ _ => formed.epsilon_mem_firstSets) vanishes
  exact .nil_of_each fun other inside => formed.derives_nil_of_mem_erasable (erased other inside)

theorem WellFormed.derives_of_mem_firstOfString (proper : g.Proper form)
    (inside : member ∈ g.firstOfString g.firstSets form) (nonEmpty : member ≠ epsilonIndex) :
    ∃ after, g.Derives form (member :: after) := by
  induction form with
  | nil => exact absurd (by simpa [firstOfString] using inside) nonEmpty
  | cons head rest ih =>
    have later : g.Proper rest := fun other present => proper other (by simp [present])
    rcases proper head List.mem_cons_self with terminal | nonTerminal
    · rw [firstOfString_terminal formed.toNamed terminal] at inside
      exact ⟨rest, inside ▸ .refl⟩
    · rw [firstOfString_nonTerminal formed.toNamed nonTerminal] at inside
      rcases inside with ⟨_, own⟩ | ⟨vanishes, deeper⟩
      · obtain ⟨after, begins⟩ := formed.derives_of_mem_firstSets own nonEmpty
        exact ⟨after ++ rest, by simpa using begins.within [] rest⟩
      · obtain ⟨after, begins⟩ := ih later deeper
        have empty := formed.derives_nil_of_mem_erasable (formed.epsilon_mem_firstSets.mp vanishes)
        exact ⟨after, by simpa using empty.append begins⟩

end Sound

section Complete

theorem mem_firstOfString_append (named : g.Named) {first : Family} {rest : List Nat}
    (proper : g.Proper form) : member ∈ g.firstOfString first (form ++ rest) ↔
      member ≠ epsilonIndex ∧ member ∈ g.firstOfString first form ∨
        epsilonIndex ∈ g.firstOfString first form ∧ member ∈ g.firstOfString first rest := by
  induction form with
  | nil => simp [firstOfString]
  | cons head tail ih =>
    have inner := ih fun other present => proper other (by simp [present])
    rw [List.cons_append]
    rcases proper head List.mem_cons_self with terminal | nonTerminal
    · have apart := ne_epsilon_of_isTerminal named terminal
      simp only [firstOfString_terminal named terminal, apart.symm, false_and, or_false]
      exact ⟨fun same => ⟨same ▸ apart, same⟩, And.right⟩
    · simp only [firstOfString_nonTerminal named nonTerminal, inner]
      constructor
      · rintro (⟨nonEmpty, own⟩ | ⟨vanishes, ⟨nonEmpty, later⟩ | ⟨empty, beyond⟩⟩)
        · exact .inl ⟨nonEmpty, .inl ⟨nonEmpty, own⟩⟩
        · exact .inl ⟨nonEmpty, .inr ⟨vanishes, later⟩⟩
        · exact .inr ⟨.inr ⟨vanishes, empty⟩, beyond⟩
      · rintro (⟨nonEmpty, ⟨_, own⟩ | ⟨vanishes, later⟩⟩ | ⟨⟨other, _⟩ | ⟨vanishes, empty⟩, beyond⟩)
        · exact .inl ⟨nonEmpty, own⟩
        · exact .inr ⟨vanishes, .inl ⟨nonEmpty, later⟩⟩
        · exact absurd rfl other
        · exact .inr ⟨vanishes, .inr ⟨empty, beyond⟩⟩

variable (formed : g.WellFormed)
include formed

theorem WellFormed.proper_of_derives {last : List Nat} (proper : g.Proper form)
    (path : g.Derives form last) : g.Proper last := by
  induction path with
  | refl => exact proper
  | step _ rewrites ih =>
    obtain ⟨found, before, after⟩ := rewrites
    intro symbol inside
    simp only [List.mem_append] at inside
    rcases inside with (left | body) | right
    · exact ih symbol (by simp [left])
    · exact formed.proper_symbols (List.mem_of_getElem? found) symbol body
    · exact ih symbol (by simp [right])

/-- A step of a derivation brings nothing new into the FIRST set of a form. -/
theorem WellFormed.mem_firstOfString_of_rewrites {index : Nat} {next : List Nat}
    (proper : g.Proper form) (rewrites : g.Rewrites index form next)
    (inside : member ∈ g.firstOfString g.firstSets next) :
    member ∈ g.firstOfString g.firstSets form := by
  cases rewrites with
  | @here production found before after =>
    have present := List.mem_of_getElem? found
    have left : g.Proper before := fun other own => proper other (by simp [own])
    have body := formed.proper_symbols present
    have head := (formed.fits production present).head
    have own {other : Nat} : other ∈ g.firstOfString g.firstSets production.symbols →
        other ∈ g.firstSets.get production.head := formed.mem_firstSets_of_body present
    rw [List.append_assoc, mem_firstOfString_append formed.toNamed left,
      mem_firstOfString_append formed.toNamed body] at inside
    rw [mem_firstOfString_append formed.toNamed left, firstOfString_nonTerminal formed.toNamed head]
    apply inside.imp id
    rintro ⟨vanishes, begins | ⟨empty, later⟩⟩
    · exact ⟨vanishes, .inl (begins.imp id own)⟩
    · exact ⟨vanishes, .inr ⟨own empty, later⟩⟩

theorem WellFormed.mem_firstOfString_of_derives {last : List Nat} (proper : g.Proper form)
    (path : g.Derives form last) (inside : member ∈ g.firstOfString g.firstSets last) :
    member ∈ g.firstOfString g.firstSets form := by
  induction path with
  | refl => exact inside
  | step earlier rewrites ih =>
    have between := formed.proper_of_derives proper earlier
    exact ih (formed.mem_firstOfString_of_rewrites between rewrites inside)

end Complete

section Exact

variable (formed : g.WellFormed)
include formed

/-- The FIRST set of a form holds the terminals with which something that it derives begins, and
epsilon if it derives the empty string. -/
theorem WellFormed.mem_firstOfString_iff (proper : g.Proper form) :
    member ∈ g.firstOfString g.firstSets form ↔
      g.isTerminal member = true ∧ (∃ after, g.Derives form (member :: after)) ∨
        member = epsilonIndex ∧ g.Derives form [] := by
  constructor
  · intro inside
    by_cases empty : member = epsilonIndex
    · subst empty
      exact .inr ⟨rfl, formed.derives_nil_of_mem_firstOfString proper inside⟩
    · exact .inl ⟨formed.isTerminal_of_mem_firstOfString proper inside empty,
        formed.derives_of_mem_firstOfString proper inside empty⟩
  · rintro (⟨terminal, after, path⟩ | ⟨rfl, path⟩)
    · apply formed.mem_firstOfString_of_derives proper path
      exact (firstOfString_terminal formed.toNamed terminal after).mpr rfl
    · apply formed.mem_firstOfString_of_derives proper path
      simp [firstOfString]

theorem WellFormed.mem_firstSets_iff (nonTerminal : g.isNonTerminal symbol = true) :
    member ∈ g.firstSets.get symbol ↔ member ∈ g.firstOfString g.firstSets [symbol] := by
  rw [firstOfString_nonTerminal formed.toNamed nonTerminal]
  by_cases empty : member = epsilonIndex
  · simp [empty, firstOfString]
  · simp [empty, firstOfString]

omit formed in
private theorem firstOfString_body {first : Family} (production : Production) :
    g.firstOfString first production.body = g.firstOfString first production.symbols := by
  unfold Production.symbols Production.isEpsilon
  split
  · rename_i epsilon
    rw [eq_of_beq epsilon]
    simp [firstOfString]
  · rfl

/-- The FIRST set of a non-terminal is made of those of its bodies. -/
theorem WellFormed.mem_firstSets_iff_body (nonTerminal : g.isNonTerminal symbol = true) :
    member ∈ g.firstSets.get symbol ↔ ∃ production ∈ g.productions, production.head = symbol ∧
      member ∈ g.firstOfString g.firstSets production.body := by
  simp only [firstOfString_body]
  constructor
  · intro inside
    have single : g.Proper [symbol] := fun other own => .inr (List.mem_singleton.mp own ▸ nonTerminal)
    have begun {last : List Nat} (path : g.Derives [symbol] last) (apart : [symbol] ≠ last)
        (first : member ∈ g.firstOfString g.firstSets last) : ∃ production ∈ g.productions,
          production.head = symbol ∧ member ∈ g.firstOfString g.firstSets production.symbols := by
      obtain ⟨production, present, same, rest⟩ := (path.cases_first.resolve_left apart).exists_body
      exact ⟨production, present, same,
        formed.mem_firstOfString_of_derives (formed.proper_symbols present) rest first⟩
    rw [formed.mem_firstSets_iff nonTerminal, formed.mem_firstOfString_iff single] at inside
    rcases inside with ⟨terminal, after, path⟩ | ⟨rfl, path⟩
    · refine begun path ?_ ((firstOfString_terminal formed.toNamed terminal after).mpr rfl)
      rintro same
      rw [(List.cons.inj same).1, isNonTerminal_eq_false_of_isTerminal terminal] at nonTerminal
      cases nonTerminal
    · exact begun path (by simp) (by simp [firstOfString])
  · rintro ⟨production, present, rfl, inside⟩
    exact formed.mem_firstSets_of_body present inside

end Exact

/-- The FIRST set of a string holds exactly the terminals that begin what the string derives, and
epsilon if the string can vanish. Every non-terminal has a FIRST set: that of the non-terminal as a
string, and the union of those of its bodies. -/
theorem first_exact (prepared : g.Prepared) :
    (∀ form, g.Proper form → ∀ member, member ∈ g.firstOfString g.firstFollow.first form ↔
      g.isTerminal member = true ∧ (∃ after, g.Derives form (member :: after)) ∨
        member = epsilonIndex ∧ g.Derives form []) ∧
    ∀ symbol, g.isNonTerminal symbol = true → ∃ set,
      g.firstFollow.first.get? symbol = some set ∧
      set = g.firstOfString g.firstFollow.first [symbol] ∧
      ∀ member, member ∈ set ↔ ∃ production ∈ g.productions, production.head = symbol ∧
        member ∈ g.firstOfString g.firstFollow.first production.body := by
  have formed := prepared.wellFormed
  refine ⟨fun form proper member => formed.mem_firstOfString_iff proper, ?_⟩
  intro symbol nonTerminal
  refine ⟨_, get?_firstSets nonTerminal, ?_, fun member => ?_⟩
  · apply SortedSet.ext
    exact fun member => formed.mem_firstSets_iff nonTerminal
  · exact formed.mem_firstSets_iff_body nonTerminal

/-- A grammar whose non-terminals vanish in layers, the last of them left-recursive: `S -> A B c`,
`A -> B C`, `B -> C | b` and `C -> C d | ε`. -/
def layered : Grammar where
  symbols := [.epsilon, .endMark, .nonTerminal "S", .nonTerminal "A", .nonTerminal "B",
    .nonTerminal "C", .terminal "c", .terminal "b", .terminal "d"]
  productions := [⟨2, [3, 4, 6]⟩, ⟨3, [4, 5]⟩, ⟨4, [5]⟩, ⟨4, [7]⟩, ⟨5, [5, 8]⟩, ⟨5, [epsilonIndex]⟩]
  start := some 2
  augmented := none

theorem loaded_layered : layered.Loaded :=
  ⟨[⟨"S", ["A", "B", "c"]⟩, ⟨"A", ["B", "C"]⟩, ⟨"B", ["C"]⟩, ⟨"B", ["b"]⟩, ⟨"C", ["C", "d"]⟩,
    ⟨"C", []⟩], rfl⟩

/-- In it `A B` derives something that begins with `d`, nothing that begins with `c`, and the empty
string. -/
theorem first_exact_layered : layered.Prepared ∧ layered.Proper [3, 4] ∧
    (∃ after, layered.Derives [3, 4] (8 :: after)) ∧
    (¬ ∃ after, layered.Derives [3, 4] (6 :: after)) ∧ layered.Derives [3, 4] [] := by
  have prepared : layered.Prepared := .inl loaded_layered
  have proper : layered.Proper [3, 4] := by decide
  have members := (first_exact prepared).1 [3, 4] proper
  refine ⟨prepared, proper, ?_, fun begins => ?_, ?_⟩
  · rcases (members 8).mp (by decide +kernel) with ⟨_, begins⟩ | ⟨other, _⟩
    · exact begins
    · cases other
  · have inside := (members 6).mpr (.inl ⟨rfl, begins⟩)
    exact absurd inside (by decide +kernel)
  · rcases (members epsilonIndex).mp (by decide +kernel) with ⟨other, _⟩ | ⟨_, path⟩
    · cases other
    · exact path

end Grammar

end SimpleLR
