import SimpleLR.Grammar.Basic

namespace SimpleLR.Grammar

/-- One step of a derivation, by the production at an index. -/
inductive Rewrites (g : Grammar) (index : Nat) : List Nat → List Nat → Prop where
  | here {production : Production} (found : g.productions[index]? = some production)
      (before after : List Nat) :
      Rewrites g index (before ++ production.head :: after) (before ++ production.symbols ++ after)

/-- Any number of steps, each by some production. -/
inductive Derives (g : Grammar) (form : List Nat) : List Nat → Prop where
  | refl : Derives g form form
  | step {index : Nat} {middle last : List Nat} (path : Derives g form middle)
      (rewrites : g.Rewrites index middle last) : Derives g form last

/-- A step that replaces the last symbol that is not a terminal. -/
inductive RewritesRightmost (g : Grammar) (index : Nat) : List Nat → List Nat → Prop where
  | here {production : Production} (found : g.productions[index]? = some production)
      (before after : List Nat) (terminals : ∀ symbol ∈ after, g.isTerminal symbol = true) :
      RewritesRightmost g index (before ++ production.head :: after)
        (before ++ production.symbols ++ after)

/-- Rightmost steps by the productions of a list, one after the other. -/
inductive DerivesRightmost (g : Grammar) : List Nat → List Nat → List Nat → Prop where
  | done (form : List Nat) : DerivesRightmost g [] form form
  | step {index : Nat} {indices form middle last : List Nat}
      (rewrites : g.RewritesRightmost index form middle)
      (rest : DerivesRightmost g indices middle last) :
      DerivesRightmost g (index :: indices) form last

/-- A string of terminals that the start symbol derives. -/
def Sentence (g : Grammar) (word : List Nat) : Prop :=
  (∀ symbol ∈ word, g.isTerminal symbol = true) ∧
    ∃ start, g.start = some start ∧ g.Derives [start] word

variable {g : Grammar}

theorem Rewrites.within {index : Nat} {form next : List Nat} (rewrites : g.Rewrites index form next)
    (left right : List Nat) : g.Rewrites index (left ++ form ++ right) (left ++ next ++ right) := by
  obtain ⟨found, before, after⟩ := rewrites
  simpa using Rewrites.here found (left ++ before) (after ++ right)

theorem Derives.trans {form middle last : List Nat} (first : g.Derives form middle)
    (second : g.Derives middle last) : g.Derives form last := by
  induction second with
  | refl => exact first
  | step _ rewrites ih => exact ih.step rewrites

theorem Derives.within {form last : List Nat} (path : g.Derives form last) (left right : List Nat) :
    g.Derives (left ++ form ++ right) (left ++ last ++ right) := by
  induction path with
  | refl => exact .refl
  | step _ rewrites ih => exact ih.step (rewrites.within left right)

theorem Derives.append {form last other result : List Nat} (first : g.Derives form last)
    (second : g.Derives other result) : g.Derives (form ++ other) (last ++ result) := by
  have moved : g.Derives (form ++ other) (last ++ other) := by simpa using first.within [] other
  exact moved.trans (by simpa using second.within last [])

theorem DerivesRightmost.derives {indices form last : List Nat}
    (path : g.DerivesRightmost indices form last) : g.Derives form last := by
  induction path with
  | done form => exact .refl
  | step rewrites _ ih =>
    obtain ⟨found, before, after, _⟩ := rewrites
    exact (Derives.refl.step (.here found before after)).trans ih

end SimpleLR.Grammar
