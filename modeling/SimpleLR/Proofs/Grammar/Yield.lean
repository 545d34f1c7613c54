import SimpleLR.Grammar.Derivation

namespace SimpleLR.Grammar

/-- A form yields a word of terminals by reductions, listed in the order in which a parser makes
them. -/
inductive Yields (g : Grammar) : List Nat → List Nat → List Nat → Prop where
  | nil : Yields g [] [] []
  | terminal {symbol : Nat} {rest word reductions : List Nat}
      (isTerminal : g.isTerminal symbol = true) (later : Yields g rest word reductions) :
      Yields g (symbol :: rest) (symbol :: word) reductions
  | production {index : Nat} {production : Production} {rest inner outer within beyond : List Nat}
      (found : g.productions[index]? = some production)
      (body : Yields g production.symbols inner within) (later : Yields g rest outer beyond) :
      Yields g (production.head :: rest) (inner ++ outer) (within ++ index :: beyond)

/-- No production has a terminal as its head. -/
def HeadsApart (g : Grammar) : Prop :=
  ∀ production ∈ g.productions, g.isTerminal production.head = false

variable {g : Grammar}

theorem Yields.terminals {form word reductions : List Nat} (yields : g.Yields form word reductions) :
    ∀ symbol ∈ word, g.isTerminal symbol = true := by
  induction yields with
  | nil => simp
  | terminal isTerminal _ ih => simpa [isTerminal] using ih
  | production _ _ _ inside behind =>
    intro symbol member
    rcases List.mem_append.mp member with inner | outer
    · exact inside symbol inner
    · exact behind symbol outer

theorem Yields.of_terminals {word : List Nat} (terminals : ∀ symbol ∈ word, g.isTerminal symbol = true) :
    g.Yields word word [] := by
  induction word with
  | nil => exact .nil
  | cons symbol rest ih =>
    have later := ih fun other member => terminals other (by simp [member])
    exact .terminal (terminals symbol (by simp)) later

theorem Yields.append {first second left right before after : List Nat}
    (yields : g.Yields first left before) (more : g.Yields second right after) :
    g.Yields (first ++ second) (left ++ right) (before ++ after) := by
  induction yields with
  | nil => exact more
  | terminal isTerminal _ ih => exact .terminal isTerminal ih
  | production found body _ _ ih => simpa using Yields.production found body ih

/-- What a form yields is cut where the form is cut. -/
theorem Yields.split {first second word reductions : List Nat}
    (yields : g.Yields (first ++ second) word reductions) :
    ∃ left right before after, word = left ++ right ∧ reductions = before ++ after ∧
      g.Yields first left before ∧ g.Yields second right after := by
  induction first generalizing word reductions with
  | nil => exact ⟨[], word, [], reductions, rfl, rfl, .nil, yields⟩
  | cons symbol first ih =>
    rw [List.cons_append] at yields
    cases yields with
    | terminal isTerminal later =>
      obtain ⟨left, right, before, after, rfl, rfl, start, stop⟩ := ih later
      exact ⟨symbol :: left, right, before, after, rfl, rfl, .terminal isTerminal start, stop⟩
    | @production index production _ inner _ within _ found body later =>
      obtain ⟨left, right, before, after, rfl, rfl, start, stop⟩ := ih later
      exact ⟨inner ++ left, right, within ++ index :: before, after, by simp, by simp,
        .production found body start, stop⟩

private theorem Yields.eq_of_terminals (apart : g.HeadsApart) {form word reductions : List Nat}
    (yields : g.Yields form word reductions)
    (terminals : ∀ symbol ∈ form, g.isTerminal symbol = true) : word = form ∧ reductions = [] := by
  induction yields with
  | nil => exact ⟨rfl, rfl⟩
  | terminal _ _ ih =>
    obtain ⟨rfl, rfl⟩ := ih fun other member => terminals other (by simp [member])
    exact ⟨rfl, rfl⟩
  | production found _ _ _ _ =>
    have head := terminals _ List.mem_cons_self
    rw [apart _ (List.mem_of_getElem? found)] at head
    cases head

section Rightmost

theorem DerivesRightmost.trans {first second form middle last : List Nat}
    (path : g.DerivesRightmost first form middle) (rest : g.DerivesRightmost second middle last) :
    g.DerivesRightmost (first ++ second) form last := by
  induction path with
  | done form => exact rest
  | step rewrites _ ih => exact .step rewrites (ih rest)

/-- A rightmost derivation goes on between any form and a word of terminals. -/
theorem DerivesRightmost.within {indices form last : List Nat}
    (path : g.DerivesRightmost indices form last) (before after : List Nat)
    (terminals : ∀ symbol ∈ after, g.isTerminal symbol = true) :
    g.DerivesRightmost indices (before ++ form ++ after) (before ++ last ++ after) := by
  induction path with
  | done form => exact .done _
  | step rewrites _ ih =>
    refine .step ?_ ih
    obtain ⟨found, left, right, closed⟩ := rewrites
    have behind : ∀ symbol ∈ right ++ after, g.isTerminal symbol = true := by
      intro symbol member
      rcases List.mem_append.mp member with near | far
      · exact closed symbol near
      · exact terminals symbol far
    simpa using RewritesRightmost.here found (before ++ left) (right ++ after) behind

/-- The reductions of a yield, read from last to first, are a rightmost derivation. -/
theorem Yields.derivesRightmost {form word reductions : List Nat}
    (yields : g.Yields form word reductions) :
    g.DerivesRightmost reductions.reverse form word := by
  induction yields with
  | nil => exact .done []
  | @terminal symbol rest word reductions _ _ ih =>
    simpa using ih.within [symbol] [] (by simp)
  | @production index production rest inner outer within beyond found _ later inside behind =>
    have last := behind.within [production.head] [] (by simp)
    have rewrites := RewritesRightmost.here found [] outer later.terminals
    have first := inside.within [] outer later.terminals
    simpa using last.trans (.step (by simpa using rewrites) (by simpa using first))

theorem Yields.derives {form word reductions : List Nat} (yields : g.Yields form word reductions) :
    g.Derives form word := yields.derivesRightmost.derives

private theorem Yields.of_rewrites {index : Nat} {form next word reductions : List Nat}
    (rewrites : g.Rewrites index form next) (yields : g.Yields next word reductions) :
    ∃ earlier, g.Yields form word earlier := by
  obtain ⟨found, before, after⟩ := rewrites
  obtain ⟨_, right, first, second, rfl, rfl, opening, behind⟩ := yields.split
  obtain ⟨left, middle, start, inside, rfl, rfl, front, body⟩ := opening.split
  exact ⟨_, by simpa using front.append (.production found body behind)⟩

theorem Yields.of_derives {form next word reductions : List Nat} (path : g.Derives form next)
    (yields : g.Yields next word reductions) : ∃ earlier, g.Yields form word earlier := by
  induction path generalizing reductions with
  | refl => exact ⟨reductions, yields⟩
  | step _ rewrites ih =>
    obtain ⟨earlier, above⟩ := yields.of_rewrites rewrites
    exact ih above

/-- The steps of a rightmost derivation, read from last to first, are the reductions of a yield. -/
theorem DerivesRightmost.yields (apart : g.HeadsApart) {indices form word : List Nat}
    (path : g.DerivesRightmost indices form word)
    (terminals : ∀ symbol ∈ word, g.isTerminal symbol = true) :
    g.Yields form word indices.reverse := by
  induction path with
  | done form => exact .of_terminals terminals
  | @step index indices _ _ _ rewrites _ ih =>
    obtain ⟨found, before, after, closed⟩ := rewrites
    obtain ⟨_, right, first, second, rfl, same, opening, behind⟩ := (ih terminals).split
    obtain ⟨rfl, rfl⟩ := behind.eq_of_terminals apart closed
    obtain ⟨left, middle, start, inside, rfl, rfl, front, body⟩ := opening.split
    have whole := front.append (.production found body (.of_terminals closed))
    simpa [List.reverse_cons, same] using whole

end Rightmost

/-- A sentence is a word that the start symbol yields. -/
theorem sentence_iff_yields {word : List Nat} :
    g.Sentence word ↔ ∃ start reductions, g.start = some start ∧ g.Yields [start] word reductions := by
  constructor
  · intro holds
    obtain ⟨terminals, start, chosen, path⟩ := holds
    obtain ⟨reductions, yields⟩ := Yields.of_derives path (.of_terminals terminals)
    exact ⟨start, reductions, chosen, yields⟩
  · intro holds
    obtain ⟨start, reductions, chosen, yields⟩ := holds
    exact ⟨yields.terminals, start, chosen, yields.derives⟩

end SimpleLR.Grammar
