import SimpleLR.Proofs.Automaton.Machine
import SimpleLR.Proofs.Grammar.Reordering
import Mathlib.Data.Set.Function
import Mathlib.Order.Interval.Finset.Nat

namespace SimpleLR.Automaton

variable {g g' : Grammar} {automaton automaton' : Automaton} {word : List Nat} {number number' : Nat}

/-- The automaton of an augmented grammar. -/
structure Complete (g : Grammar) (automaton : Automaton) : Prop where
  goal : ∃ goal start, g.Augmented goal start
  canonical : automaton.Canonical g
  subsets : automaton.Subsets g

theorem complete_of_automaton {grown : Grammar} (loaded : g.Loaded)
    (success : g.automaton = .ok (grown, automaton)) : automaton.Complete grown := by
  obtain ⟨extended, collected⟩ := Grammar.automaton_eq_ok.mp success
  obtain ⟨start, from'⟩ := Grammar.augment_eq_ok loaded.augmented extended
  have goal := from'.augmented' loaded.wellFormed
  exact ⟨⟨_, _, goal⟩, Grammar.canonical_of_collection goal.first collected,
    goal.toWellFormed.subsets goal.first collected⟩

namespace Complete

variable (complete : automaton.Complete g)
include complete

private theorem lt_of_walk? (walked : automaton.walk? word = some number) :
    number < automaton.states.length := by
  obtain ⟨state, found, _⟩ := complete.subsets.items walked
  exact (List.getElem?_eq_some_iff.mp found).1

private theorem position_of_mem_kernel {state : State} (found : automaton.states[number]? = some state)
    {item : Item} (inside : item ∈ state.kernel) : item.position ≠ 0 ∨ item = Item.initial 0 := by
  obtain ⟨word, walked⟩ :=
    complete.subsets.reached number (List.getElem?_eq_some_iff.mp found).1
  rcases List.eq_nil_or_concat' word with empty | ⟨front, symbol, longer⟩
  · subst empty
    obtain ⟨first, begins, kernel⟩ := complete.canonical.start
    obtain rfl : 0 = number := Option.some.inj walked
    obtain rfl := Option.some.inj (begins.symm.trans found)
    rw [kernel, Grammar.mem_startKernel] at inside
    exact .inr inside
  · subst longer
    rw [walk?_append] at walked
    obtain ⟨before, walked, leads⟩ := Option.bind_eq_some_iff.mp walked
    obtain ⟨earlier, there, _⟩ := complete.subsets.items walked
    obtain ⟨_, next, here, kernel⟩ := (complete.canonical.transition?_iff there).mp leads
    obtain rfl := Option.some.inj (here.symm.trans found)
    rw [kernel] at inside
    obtain ⟨item, _, _, rfl⟩ := Grammar.mem_advanced.mp inside
    exact .inl (Nat.succ_ne_zero item.position)

/-- The items of a state tell its kernel: the first production is called for by no item. -/
theorem mem_kernel_iff {state : State} (found : automaton.states[number]? = some state) {item : Item} :
    item ∈ state.kernel ↔ item ∈ state.items ∧ (item.position ≠ 0 ∨ item = Item.initial 0) := by
  rw [complete.canonical.items found]
  constructor
  · intro inside
    exact ⟨.own (SortedSet.mem_toList.mpr inside), complete.position_of_mem_kernel found inside⟩
  · intro holds
    obtain ⟨called, seen⟩ := holds
    rcases called.cases_initial with own | ⟨unseen, caller, symbol, _, dot, member⟩
    · exact SortedSet.mem_toList.mp own
    · obtain rfl := seen.resolve_left (not_not_intro unseen)
      obtain ⟨goal, start, augmented⟩ := complete.goal
      obtain ⟨_, production, first, head⟩ := Grammar.mem_productionsOf.mp member
      obtain rfl := Option.some.inj (augmented.first.symm.trans first)
      obtain ⟨calling, rule, next⟩ := Grammar.afterDot?_eq_some.mp dot
      have head : goal = symbol := head
      rw [← head] at next
      exact absurd (List.mem_of_getElem? next) (augmented.absent calling (List.mem_of_getElem? rule))

private theorem eq_of_items {state state' : State} (found : automaton.states[number]? = some state)
    (found' : automaton.states[number']? = some state')
    (same : ∀ item, item ∈ state.items ↔ item ∈ state'.items) : number = number' := by
  have kernels : state.kernel = state'.kernel := SortedSet.ext fun item => by
    rw [complete.mem_kernel_iff found, complete.mem_kernel_iff found', same]
  obtain ⟨bound, here⟩ := List.getElem?_eq_some_iff.mp found
  obtain ⟨bound', there⟩ := List.getElem?_eq_some_iff.mp found'
  rw [← here, ← there] at kernels
  have apart := complete.subsets.apart
  have inside : number < (automaton.states.map State.kernel).length := by simpa using bound
  have inside' : number' < (automaton.states.map State.kernel).length := by simpa using bound'
  refine (apart.getElem_inj_iff : (automaton.states.map State.kernel)[number] =
    (automaton.states.map State.kernel)[number'] ↔ number = number').mp ?_
  simpa using kernels

private theorem eq_of_paths {word' : List Nat} (walked : automaton.walk? word = some number)
    (walked' : automaton.walk? word' = some number')
    (same : ∀ item, g.ItemPath word item ↔ g.ItemPath word' item) : number = number' := by
  obtain ⟨state, found, items⟩ := complete.subsets.items walked
  obtain ⟨state', found', items'⟩ := complete.subsets.items walked'
  exact complete.eq_of_items found found' fun item =>
    (items item).trans ((same item).trans (items' item).symm)

end Complete

/-- States to which the same word leads. -/
def Meets (automaton automaton' : Automaton) (onSymbols : Nat → Nat) (number number' : Nat) : Prop :=
  ∃ word, automaton.walk? word = some number ∧ automaton'.walk? (word.map onSymbols) = some number'

/-- The automata are the same up to the numbers of symbols, productions and states: a bijection of the
states that keeps the first one goes along with the transitions, and states that go with each other have
the same kernels and items up to numbers. -/
structure Renumbers (automaton automaton' : Automaton) (onSymbols onProductions onStates : Nat → Nat) :
    Prop where
  length : automaton'.states.length = automaton.states.length
  start : onStates Automaton.start = Automaton.start
  bijective : Set.BijOn onStates (Set.Iio automaton.states.length) (Set.Iio automaton'.states.length)
  transition? : ∀ number < automaton.states.length, ∀ symbol,
    automaton'.transition? (onStates number) (onSymbols symbol) =
      (automaton.transition? number symbol).map onStates
  states : ∀ number state, automaton.states[number]? = some state → ∃ state',
    automaton'.states[onStates number]? = some state' ∧
      (∀ item, item.renumber onProductions ∈ state'.kernel ↔ item ∈ state.kernel) ∧
      (state.items.map (Item.renumber onProductions)).Perm state'.items

/-- The automata of two matching augmented grammars, which begin with the same production. -/
structure Paired (g : Grammar) (automaton : Automaton) (g' : Grammar) (automaton' : Automaton)
    (onSymbols onProductions : Equiv.Perm Nat) : Prop where
  complete : automaton.Complete g
  complete' : automaton'.Complete g'
  matched : g.Matches g' onSymbols onProductions
  first : onProductions 0 = 0

section Pairs

variable {onSymbols onProductions : Equiv.Perm Nat}

theorem Meets.symm (meets : automaton.Meets automaton' onSymbols number number') :
    automaton'.Meets automaton onSymbols.symm number' number := by
  obtain ⟨word, walked, walked'⟩ := meets
  exact ⟨word.map onSymbols, walked', by simpa using walked⟩

theorem Meets.lt (meets : automaton.Meets automaton' onSymbols number number')
    (complete : automaton.Complete g) : number < automaton.states.length := by
  obtain ⟨_, walked, _⟩ := meets
  exact complete.lt_of_walk? walked

namespace Paired

variable (paired : Paired g automaton g' automaton' onSymbols onProductions)
include paired

theorem symm : Paired g' automaton' g automaton onSymbols.symm onProductions.symm where
  complete := paired.complete'
  complete' := paired.complete
  matched := paired.matched.symm
  first := by rw [Equiv.symm_apply_eq, paired.first]

theorem exists_walk (walked : automaton.walk? word = some number) :
    ∃ number', automaton'.walk? (word.map onSymbols) = some number' := by
  obtain ⟨item, path⟩ := (paired.complete.subsets.spelled word).mp ⟨number, walked⟩
  exact (paired.complete'.subsets.spelled _).mpr ⟨_, (paired.matched.itemPath_iff paired.first).mpr path⟩

theorem exists_meets (bound : number < automaton.states.length) :
    ∃ number', automaton.Meets automaton' onSymbols number number' := by
  obtain ⟨word, walked⟩ := paired.complete.subsets.reached number bound
  obtain ⟨number', walked'⟩ := paired.exists_walk walked
  exact ⟨number', word, walked, walked'⟩

/-- What the machine reaches along the words of a state, it reaches there along the words that go with
them. -/
theorem right_unique {other : Nat} (meets : automaton.Meets automaton' onSymbols number number')
    (meets' : automaton.Meets automaton' onSymbols number other) : number' = other := by
  obtain ⟨word, walked, there⟩ := meets
  obtain ⟨word', walked', there'⟩ := meets'
  obtain ⟨state, found, items⟩ := paired.complete.subsets.items walked
  obtain ⟨state', found', items'⟩ := paired.complete.subsets.items walked'
  obtain rfl := Option.some.inj (found.symm.trans found')
  refine paired.complete'.eq_of_paths there there' fun item => ?_
  obtain ⟨before, rfl⟩ := Item.renumber_surjective onProductions item
  rw [paired.matched.itemPath_iff paired.first, paired.matched.itemPath_iff paired.first, ← items, ← items']

private theorem left_unique {other : Nat} (meets : automaton.Meets automaton' onSymbols number number')
    (meets' : automaton.Meets automaton' onSymbols other number') : number = other :=
  paired.symm.right_unique meets.symm meets'.symm

/-- One more symbol leads to states that meet. -/
theorem step (meets : automaton.Meets automaton' onSymbols number number') {symbol target : Nat}
    (leads : automaton.transition? number symbol = some target) :
    ∃ target', automaton'.transition? number' (onSymbols symbol) = some target' ∧
      automaton.Meets automaton' onSymbols target target' := by
  obtain ⟨word, walked, walked'⟩ := meets
  have longer : automaton.walk? (word ++ [symbol]) = some target := by
    rw [walk?_append, walked, Option.bind_some, leads]
  obtain ⟨target', longer'⟩ := paired.exists_walk longer
  refine ⟨target', ?_, word ++ [symbol], longer, longer'⟩
  rw [List.map_append, List.map_singleton, walk?_append, walked', Option.bind_some] at longer'
  exact longer'

theorem exists_state {state : State} (meets : automaton.Meets automaton' onSymbols number number')
    (found : automaton.states[number]? = some state) : ∃ state',
      automaton'.states[number']? = some state' ∧
        (∀ item, item.renumber onProductions ∈ state'.kernel ↔ item ∈ state.kernel) ∧
        (state.items.map (Item.renumber onProductions)).Perm state'.items := by
  obtain ⟨word, walked, walked'⟩ := meets
  obtain ⟨_, here, items⟩ := paired.complete.subsets.items walked
  cases Option.some.inj (found.symm.trans here)
  obtain ⟨state', found', items'⟩ := paired.complete'.subsets.items walked'
  have injective := Item.renumber_injective onProductions
  have same (item : Item) : item.renumber onProductions ∈ state'.items ↔ item ∈ state.items := by
    rw [items, items', paired.matched.itemPath_iff paired.first]
  have once := paired.complete.subsets.once _ (List.mem_of_getElem? found)
  have once' := paired.complete'.subsets.once _ (List.mem_of_getElem? found')
  refine ⟨state', found', fun item => ?_, ?_⟩
  · have initial : item.renumber onProductions = Item.initial 0 ↔ item = Item.initial 0 := by
      conv_lhs => rw [← Item.renumber_initial paired.first]
      exact injective.eq_iff
    rw [paired.complete.mem_kernel_iff found, paired.complete'.mem_kernel_iff found', same, initial]
    rfl
  · refine (List.perm_ext_iff_of_nodup (once.map injective) once').mpr fun item => ?_
    obtain ⟨before, rfl⟩ := Item.renumber_surjective onProductions item
    rw [List.mem_map_of_injective injective, same]

section Choice

variable {onStates : Nat → Nat} (meets : ∀ number < automaton.states.length,
  automaton.Meets automaton' onSymbols number (onStates number))
include meets

theorem eq_of_meets (there : automaton.Meets automaton' onSymbols number number') :
    onStates number = number' :=
  paired.right_unique (meets number (there.lt paired.complete)) there

theorem bijOn : Set.BijOn onStates (Set.Iio automaton.states.length)
    (Set.Iio automaton'.states.length) := by
  refine ⟨fun number bound => ?_, fun number bound other bound' same => ?_, fun number' bound => ?_⟩
  · exact (meets number bound).symm.lt paired.complete'
  · have there := meets other bound'
    rw [← same] at there
    exact paired.left_unique (meets number bound) there
  · obtain ⟨number, there⟩ := paired.symm.exists_meets bound
    have here : automaton.Meets automaton' onSymbols number number' := there.symm
    exact ⟨number, here.lt paired.complete, paired.eq_of_meets meets here⟩

theorem transition?_eq (bound : number < automaton.states.length) (symbol : Nat) :
    automaton'.transition? (onStates number) (onSymbols symbol) =
      (automaton.transition? number symbol).map onStates := by
  cases leads : automaton.transition? number symbol with
  | some target =>
    obtain ⟨target', leads', there⟩ := paired.step (meets number bound) leads
    rw [leads', Option.map_some, paired.eq_of_meets meets there]
  | none =>
    cases leads' : automaton'.transition? (onStates number) (onSymbols symbol) with
    | none => rfl
    | some target' =>
      obtain ⟨target, again, _⟩ := paired.symm.step (meets number bound).symm leads'
      rw [Equiv.symm_apply_apply, leads] at again
      cases again

end Choice

/-- The automata of matching grammars are the same up to numbers. -/
theorem exists_renumbering : ∃ onStates,
    automaton.Renumbers automaton' onSymbols onProductions onStates := by
  choose! onStates meets using fun number (bound : number < automaton.states.length) =>
    paired.exists_meets bound
  have bijective := paired.bijOn meets
  have begins : automaton.Meets automaton' onSymbols Automaton.start Automaton.start := ⟨[], rfl, rfl⟩
  have counted : (Finset.Iio automaton.states.length).card = (Finset.Iio automaton'.states.length).card :=
    Finset.card_nbij onStates (by simpa using bijective.mapsTo) (by simpa using bijective.injOn)
      (by simpa using bijective.surjOn)
  refine ⟨onStates, by simpa using counted.symm, paired.eq_of_meets meets begins, bijective,
    fun _ => paired.transition?_eq meets, fun number state found => ?_⟩
  exact paired.exists_state (meets number (List.getElem?_eq_some_iff.mp found).1) found

end Paired

end Pairs

end SimpleLR.Automaton
