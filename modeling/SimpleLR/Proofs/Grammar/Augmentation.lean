import SimpleLR.Grammar.Catalogue
import SimpleLR.Proofs.Grammar.Loading
import SimpleLR.Proofs.Grammar.Yield
import Mathlib.Data.Fintype.Pigeonhole

namespace SimpleLR.Grammar

variable {g g' : Grammar}

section FreshName

/-- The search puts no quote behind a free name, so all shorter forms of the name that it finds are taken.
That name is free unless the search was given up. -/
theorem primed_spec (taken : Text → Bool) (limit : Nat) (name : Text) : ∃ quotes,
    Text.primed taken limit name = name ++ List.replicate quotes '\'' ∧
      (∀ fewer < quotes, taken (name ++ List.replicate fewer '\'') = true) ∧
      (taken (Text.primed taken limit name) = false ∨ quotes = limit) := by
  induction limit generalizing name with
  | zero => exact ⟨0, by simp [Text.primed], nofun, .inr rfl⟩
  | succ limit ih =>
    unfold Text.primed
    split
    · rename_i own
      obtain ⟨quotes, same, others, ends⟩ := ih (name ++ ['\''])
      refine ⟨quotes + 1, ?_, fun fewer bound => ?_, ends.imp id (congrArg (· + 1))⟩
      · rw [same, List.append_assoc, List.singleton_append, ← List.replicate_succ]
      · cases fewer with
        | zero => simpa using own
        | succ fewer =>
          have longer := others fewer (by omega)
          rwa [List.append_assoc, List.singleton_append, ← List.replicate_succ] at longer
    · rename_i free
      exact ⟨0, by simp, nofun, .inl (by simpa using free)⟩

private theorem length_of_spelled {symbol : Symbol} {first second : Text}
    (one : first ∈ symbol.spellings) (two : second ∈ symbol.spellings) :
    first.length = second.length := by
  cases symbol with
  | epsilon =>
    simp only [Symbol.spellings, List.mem_cons, List.not_mem_nil, or_false] at one two
    rcases one with rfl | rfl <;> rcases two with rfl | rfl <;> rfl
  | endMark | terminal _ | nonTerminal _ =>
    rw [List.mem_singleton.mp one, List.mem_singleton.mp two]

/-- There are more quoted forms of a name than symbols, and no symbol has two of them. -/
theorem index?_freshName (g : Grammar) (name : Text) : g.index? (g.freshName name) = none := by
  obtain ⟨quotes, _, taken, ends⟩ :=
    primed_spec (fun name => (g.index? name).isSome) (g.symbols.length + 1) name
  rw [Option.isSome_eq_false_iff, Option.isNone_iff_eq_none] at ends
  apply ends.resolve_right
  rintro rfl
  let symbolOf (count : Fin (g.symbols.length + 1)) : Nat :=
    (g.index? (name ++ List.replicate count '\'')).get (taken count count.isLt)
  have finds (count : Fin (g.symbols.length + 1)) :
      g.index? (name ++ List.replicate count '\'') = some (symbolOf count) := by simp [symbolOf]
  have bound (count : Fin (g.symbols.length + 1)) : symbolOf count < g.symbols.length := by
    obtain ⟨symbol, here, _⟩ := spelled_of_index? (finds count)
    exact (List.getElem?_eq_some_iff.mp here).1
  obtain ⟨first, second, apart, same⟩ := Fintype.exists_ne_map_eq_of_card_lt
    (fun count => (⟨symbolOf count, bound count⟩ : Fin g.symbols.length)) (by simp)
  obtain ⟨symbol, here, one⟩ := spelled_of_index? (finds first)
  obtain ⟨other, there, two⟩ := spelled_of_index? (finds second)
  rw [Fin.mk.inj same] at here
  obtain rfl := Option.some.inj (here.symm.trans there)
  have lengths := length_of_spelled one two
  exact apart (Fin.ext (by simpa using lengths))

/-- The fresh name has as many quotes as are needed, and no more. -/
theorem exists_freshName (g : Grammar) (name : Text) : ∃ quotes,
    g.freshName name = name ++ List.replicate quotes '\'' ∧
      ∀ fewer < quotes, (g.index? (name ++ List.replicate fewer '\'')).isSome = true := by
  obtain ⟨quotes, same, taken, _⟩ :=
    primed_spec (fun name => (g.index? name).isSome) (g.symbols.length + 1) name
  exact ⟨quotes, same, taken⟩

end FreshName

/-- A well-formed grammar whose first production leads from a non-terminal of its own, the goal, to
the start symbol. -/
structure Augmented (g : Grammar) (goal start : Nat) : Prop extends WellFormed g where
  marked : g.augmented = some goal
  begins : g.start = some start
  first : g.productions[0]? = some ⟨goal, [start]⟩
  only : ∀ {index : Nat} {production : Production}, g.productions[index]? = some production →
    production.head = goal → index = 0
  absent : ∀ production ∈ g.productions, goal ∉ production.symbols

theorem Augmented.symbols_first {goal start : Nat} (augmented : g.Augmented goal start) :
    Production.symbols ⟨goal, [start]⟩ = [start] := by
  unfold Production.symbols Production.isEpsilon
  split
  · rename_i epsilon
    have same : start = epsilonIndex := by simpa using epsilon
    have nonTerminal := augmented.chosen augmented.begins
    rw [same, augmented.isNonTerminal_epsilon] at nonTerminal
    cases nonTerminal
  · rfl

/-- The grammar `g'` is `g` with an augmented production in front. -/
structure AugmentedFrom (g : Grammar) (start : Nat) (g' : Grammar) : Prop where
  chosen : g.start = some start
  symbols : ∃ name, g'.symbols = g.symbols ++ [.nonTerminal name] ∧ g.index? name = none
  productions : g'.productions = ⟨g.symbols.length, [start]⟩ :: g.productions
  start : g'.start = g.start
  augmented : g'.augmented = some g.symbols.length

theorem augment_eq_ok (bare : g.augmented = none) (success : g.augment = .ok g') :
    ∃ start, g.AugmentedFrom start g' := by
  unfold augment at success
  rw [bare] at success
  cases chosen : g.start with
  | none => simp [chosen] at success
  | some start =>
    cases named : g.name start with
    | error fault =>
      simp [chosen, named, Failure.ofFault, Except.mapError, bind, Except.bind] at success
    | ok name =>
      simp only [chosen, named, Failure.ofFault, Except.mapError, bind, Except.bind, pure,
        Except.pure, Except.ok.injEq] at success
      subst success
      exact ⟨start, chosen, ⟨_, rfl, g.index?_freshName name⟩, rfl, chosen.symm, rfl⟩

/-- The augmented grammar in full. -/
theorem augment_of_name (bare : g.augmented = none) {start : Nat} (chosen : g.start = some start)
    {name : Text} (named : g.name start = .ok name) :
    g.augment = .ok ⟨g.symbols ++ [.nonTerminal (g.freshName name)],
      ⟨g.symbols.length, [start]⟩ :: g.productions, some start, some g.symbols.length⟩ := by
  simp [augment, bare, chosen, named, Failure.ofFault, Except.mapError, bind, Except.bind, pure,
    Except.pure]

theorem WellFormed.augment_ok (formed : g.WellFormed) (bare : g.augmented = none) {start : Nat}
    (chosen : g.start = some start) : ∃ g', g.augment = .ok g' := by
  have named := name_ok (lt_of_isNonTerminal (formed.chosen chosen))
  exact ⟨_, augment_of_name bare chosen named⟩

namespace AugmentedFrom

variable {start : Nat} (from' : g.AugmentedFrom start g')
include from'

theorem isTerminal (index : Nat) : g'.isTerminal index = g.isTerminal index := by
  obtain ⟨name, grown, _⟩ := from'.symbols
  rw [isTerminal_grown grown]
  split
  · rename_i last
    cases proper : g.isTerminal index with
    | false => rfl
    | true => exact absurd (lt_of_isTerminal proper) (by omega)
  · rfl

theorem isNonTerminal (index : Nat) : g'.isNonTerminal index =
    (decide (index = g.symbols.length) || g.isNonTerminal index) := by
  obtain ⟨name, grown, _⟩ := from'.symbols
  rw [isNonTerminal_grown grown]
  split <;> simp [*, Symbol.isNonTerminal]

theorem name {index : Nat} (old : index < g.symbols.length) : g'.name index = g.name index := by
  obtain ⟨name, grown, _⟩ := from'.symbols
  rw [name_ok old, name_ok (by simp [grown]; omega)]
  simp [grown, List.getElem_append_left old]

theorem mapM_name {word : List Nat} (old : ∀ symbol ∈ word, symbol < g.symbols.length) :
    word.mapM g'.name = word.mapM g.name := by
  induction word with
  | nil => rfl
  | cons symbol word ih =>
    rw [List.mapM_cons, List.mapM_cons, from'.name (old symbol (by simp)),
      ih fun other member => old other (by simp [member])]

theorem production (index : Nat) : g'.productions[index + 1]? = g.productions[index]? := by
  rw [from'.productions, List.getElem?_cons_succ]

theorem wellFormed (formed : g.WellFormed) : g'.WellFormed := by
  obtain ⟨name, grown, new⟩ := from'.symbols
  have kept {index : Nat} (proper : g.isNonTerminal index = true) : g'.isNonTerminal index = true := by
    simp [from'.isNonTerminal, proper]
  have nonTerminal := formed.chosen from'.chosen
  refine { formed.toNamed.grown grown (by simpa [Symbol.spellings, Symbol.name] using new) with
           chosen := ?_, fits := ?_ }
  · intro other chosen
    exact kept (formed.chosen (from'.start ▸ chosen))
  · intro production member
    rw [from'.productions] at member
    rcases List.mem_cons.mp member with rfl | old
    · refine ⟨by simp [from'.isNonTerminal], by simp, fun symbol inside => .inr ?_⟩
      exact kept (List.mem_singleton.mp (Production.mem_body inside) ▸ nonTerminal)
    · have own := formed.fits production old
      exact ⟨kept own.head, own.body,
        fun symbol inside => (own.symbols symbol inside).imp (from'.isTerminal symbol ▸ id) kept⟩

theorem augmented' (formed : g.WellFormed) : g'.Augmented g.symbols.length start := by
  have startBound := lt_of_isNonTerminal (formed.chosen from'.chosen)
  refine { from'.wellFormed formed with
           marked := from'.augmented, begins := from'.start.trans from'.chosen,
           first := by simp [from'.productions], only := ?_, absent := ?_ }
  · intro index production found own
    cases index with
    | zero => rfl
    | succ index =>
      rw [from'.production] at found
      have bound := lt_of_isNonTerminal (formed.fits_of_getElem? found).head
      omega
  · intro production member inside
    rw [from'.productions] at member
    rcases List.mem_cons.mp member with rfl | old
    · exact absurd (List.mem_singleton.mp (Production.mem_body inside)) (by omega)
    · exact absurd ((formed.fits production old).lt_of_mem_symbols inside) (by omega)

/-- What an old symbol yields in the augmented grammar, it yielded before, by productions of one
index less. -/
theorem yields {form word reductions : List Nat} (formed : g.WellFormed)
    (yields : g'.Yields form word reductions) (old : ∀ symbol ∈ form, symbol < g.symbols.length) :
    ∃ earlier, reductions = earlier.map (· + 1) ∧ g.Yields form word earlier := by
  induction yields with
  | nil => exact ⟨[], rfl, .nil⟩
  | terminal isTerminal _ ih =>
    obtain ⟨earlier, rfl, before⟩ := ih fun symbol member => old symbol (by simp [member])
    exact ⟨earlier, rfl, .terminal (from'.isTerminal _ ▸ isTerminal) before⟩
  | @production index production _ _ _ _ _ found _ _ inside behind =>
    cases index with
    | zero =>
      obtain rfl : ⟨g.symbols.length, [start]⟩ = production := by
        simpa [from'.productions] using found
      exact absurd (old _ List.mem_cons_self) (by simp)
    | succ index =>
      rw [from'.production] at found
      obtain ⟨within, rfl, body⟩ := inside fun symbol member =>
        (formed.fits_of_getElem? found).lt_of_mem_symbols member
      obtain ⟨beyond, rfl, later⟩ := behind fun symbol member => old symbol (by simp [member])
      exact ⟨within ++ index :: beyond, by simp, .production found body later⟩

theorem yields_augmented {form word reductions : List Nat} (yields : g.Yields form word reductions) :
    g'.Yields form word (reductions.map (· + 1)) := by
  induction yields with
  | nil => exact .nil
  | terminal isTerminal _ ih => exact .terminal ((from'.isTerminal _).trans isTerminal) ih
  | production found _ _ inside behind =>
    rw [List.map_append, List.map_cons]
    exact .production ((from'.production _).trans found) inside behind

end AugmentedFrom

/-- A grammar that was built from rules, before or after its augmentation. -/
def Prepared (g : Grammar) : Prop :=
  g.Loaded ∨ ∃ before : Grammar, before.Loaded ∧ before.augment = .ok g

theorem Prepared.wellFormed (prepared : g.Prepared) : g.WellFormed := by
  rcases prepared with loaded | ⟨before, loaded, success⟩
  · exact loaded.wellFormed
  · obtain ⟨start, from'⟩ := augment_eq_ok loaded.augmented success
    exact from'.wellFormed loaded.wellFormed

theorem WellFormed.headsApart (formed : g.WellFormed) : g.HeadsApart := fun production member =>
  isTerminal_eq_false_of_isNonTerminal (formed.fits production member).head

end SimpleLR.Grammar
