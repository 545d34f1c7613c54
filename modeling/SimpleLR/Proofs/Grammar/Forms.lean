import SimpleLR.Grammar.Derivation

namespace SimpleLR.Grammar

variable {g : Grammar} {form last : List Nat}

/-- A derivation of at least one step. -/
def DerivesProperly (g : Grammar) (form last : List Nat) : Prop :=
  ∃ index middle, g.Rewrites index form middle ∧ g.Derives middle last

theorem Derives.cases_first (path : g.Derives form last) :
    form = last ∨ g.DerivesProperly form last := by
  induction path with
  | refl => exact .inl rfl
  | step _ rewrites ih =>
    rcases ih with rfl | ⟨index, middle, first, rest⟩
    · exact .inr ⟨_, _, rewrites, .refl⟩
    · exact .inr ⟨index, middle, first, rest.step rewrites⟩

theorem DerivesProperly.derives (path : g.DerivesProperly form last) : g.Derives form last := by
  obtain ⟨index, middle, rewrites, rest⟩ := path
  exact (Derives.refl.step rewrites).trans rest

theorem DerivesProperly.trans {middle : List Nat} (first : g.DerivesProperly form middle)
    (second : g.Derives middle last) : g.DerivesProperly form last := by
  obtain ⟨index, next, rewrites, rest⟩ := first
  exact ⟨index, next, rewrites, rest.trans second⟩

theorem derivesProperly_of_mem {production : Production} (member : production ∈ g.productions) :
    g.DerivesProperly [production.head] production.symbols := by
  obtain ⟨index, found⟩ := List.mem_iff_getElem?.mp member
  have rewrites := Rewrites.here found [] []
  exact ⟨index, _, by simpa using rewrites, .refl⟩

theorem derives_of_mem {production : Production} (member : production ∈ g.productions) :
    g.Derives [production.head] production.symbols := (derivesProperly_of_mem member).derives

theorem DerivesProperly.exists_body {symbol : Nat} (path : g.DerivesProperly [symbol] last) :
    ∃ production ∈ g.productions, production.head = symbol ∧ g.Derives production.symbols last := by
  obtain ⟨index, middle, rewrites, rest⟩ := path
  generalize whole : [symbol] = form at rewrites
  cases rewrites with
  | @here production found before after =>
    rcases List.append_eq_singleton_iff.mp whole.symm with ⟨rfl, alone⟩ | ⟨_, never⟩
    · obtain ⟨same, rfl⟩ := List.cons.inj alone
      exact ⟨production, List.mem_of_getElem? found, same, by simpa using rest⟩
    · cases never

theorem Derives.nil_of_each (each : ∀ symbol ∈ form, g.Derives [symbol] []) : g.Derives form [] := by
  induction form with
  | nil => exact .refl
  | cons symbol rest ih =>
    have later := ih fun other inside => each other (List.mem_cons_of_mem symbol inside)
    exact (each symbol List.mem_cons_self).append later

end SimpleLR.Grammar
