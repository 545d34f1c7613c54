import SimpleLR.Proofs.Analysis

/-! The automaton as the subset construction of the item machine. The machine goes from item to item,
over the symbol after the dot or silently to the productions of that symbol; after any string of symbols
the automaton is in the state of all items that the machine can have reached by then. -/
namespace SimpleLR

variable {g : Grammar} {automaton : Automaton} {word : List Nat} {item : Item}

namespace Grammar

/-- The edges of the item machine: over the symbol after the dot, and without a symbol to the start of
each production of that symbol. -/
inductive ItemEdge (g : Grammar) (item : Item) : Option Nat → Item → Prop where
  | across {production : Production} {symbol : Nat}
      (found : g.productions[item.production]? = some production)
      (next : production.symbols[item.position]? = some symbol) :
      ItemEdge g item (some symbol) item.advance
  | silent {production called : Production} {index : Nat}
      (found : g.productions[item.production]? = some production)
      (next : production.symbols[item.position]? = some called.head)
      (target : g.productions[index]? = some called) :
      ItemEdge g item none (Item.initial index)

/-- The items that the machine can reach from the start of the first production along a string. -/
inductive ItemPath (g : Grammar) : List Nat → Item → Prop where
  | start : ItemPath g [] (Item.initial 0)
  | across {word : List Nat} {symbol : Nat} {item next : Item} (path : ItemPath g word item)
      (edge : g.ItemEdge item (some symbol) next) : ItemPath g (word ++ [symbol]) next
  | silent {word : List Nat} {item next : Item} (path : ItemPath g word item)
      (edge : g.ItemEdge item none next) : ItemPath g word next

theorem itemEdge_some {next : Item} {symbol : Nat} : g.ItemEdge item (some symbol) next ↔
    g.afterDot? item = some symbol ∧ next = item.advance := by
  rw [afterDot?_eq_some]
  constructor
  · intro edge
    cases edge with
    | across found dot => exact ⟨⟨_, found, dot⟩, rfl⟩
  · intro holds
    obtain ⟨⟨production, found, dot⟩, rfl⟩ := holds
    exact .across found dot

theorem WellFormed.itemEdge_none (formed : g.WellFormed) {next : Item} : g.ItemEdge item none next ↔
    ∃ symbol index, g.afterDot? item = some symbol ∧ index ∈ g.productionsOf symbol ∧
      next = Item.initial index := by
  simp only [afterDot?_eq_some, mem_productionsOf]
  constructor
  · intro edge
    cases edge with
    | silent found dot target =>
      have head := (formed.fits_of_getElem? target).head
      exact ⟨_, _, ⟨_, found, dot⟩, ⟨head, _, target, rfl⟩, rfl⟩
  · intro holds
    obtain ⟨_, index, ⟨production, found, dot⟩, ⟨_, called, target, rfl⟩, rfl⟩ := holds
    exact .silent found dot target

/-- If a kernel holds the items with which the machine takes the last symbol of a string, or the first
item where there is no symbol, then along the string it reaches what the kernel calls for. -/
theorem WellFormed.itemPath_iff_called (formed : g.WellFormed) {kernel : Kernel}
    (arrives : ∀ {item}, item ∈ kernel ↔ word = [] ∧ item = Item.initial 0 ∨
      ∃ front symbol before, word = front ++ [symbol] ∧ g.ItemPath front before ∧
        g.ItemEdge before (some symbol) item) :
    g.ItemPath word item ↔ g.Called kernel.toList item := by
  constructor
  · intro path
    induction path with
    | start => exact .own (arrives.mpr (.inl ⟨rfl, rfl⟩))
    | across path edge _ => exact .own (arrives.mpr (.inr ⟨_, _, _, rfl, path, edge⟩))
    | silent _ edge ih =>
      obtain ⟨_, _, dot, member, rfl⟩ := formed.itemEdge_none.mp edge
      exact .call (ih arrives) dot member
  · intro called
    induction called with
    | own member =>
      rcases arrives.mp member with ⟨rfl, rfl⟩ | ⟨front, symbol, before, rfl, path, edge⟩
      · exact .start
      · exact .across path edge
    | call _ dot member ih => exact .silent ih (formed.itemEdge_none.mpr ⟨_, _, dot, member, rfl⟩)

private theorem WellFormed.itemPath_nil (formed : g.WellFormed) :
    g.ItemPath [] item ↔ g.Called startKernel.toList item := by
  apply formed.itemPath_iff_called
  intro item
  simp

/-- Behind one more symbol the machine is in what the items advanced over it call for. -/
theorem WellFormed.itemPath_append (formed : g.WellFormed) {symbol : Nat} {items : List Item}
    (reached : ∀ {item}, item ∈ items ↔ g.ItemPath word item) :
    g.ItemPath (word ++ [symbol]) item ↔ g.Called (g.advanced items symbol).toList item := by
  apply formed.itemPath_iff_called
  intro item
  rw [mem_advanced]
  constructor
  · intro holds
    obtain ⟨before, inside, dot, rfl⟩ := holds
    exact .inr ⟨word, symbol, before, rfl, reached.mp inside, itemEdge_some.mpr ⟨dot, rfl⟩⟩
  · rintro (⟨empty, _⟩ | ⟨front, other, before, same, path, edge⟩)
    · simp at empty
    · obtain ⟨rfl, last⟩ := List.append_inj' same rfl
      obtain rfl := (List.cons.inj last).1
      obtain ⟨dot, rfl⟩ := itemEdge_some.mp edge
      exact ⟨before, reached.mpr path, dot, rfl⟩

theorem Called.exists_advanced {items : List Item} {symbol : Nat}
    (called : g.Called (g.advanced items symbol).toList item) :
    ∃ before ∈ items, g.afterDot? before = some symbol := by
  induction called with
  | own member =>
    obtain ⟨before, inside, dot, _⟩ := mem_advanced.mp member
    exact ⟨before, inside, dot⟩
  | call _ _ _ ih => exact ih

end Grammar

namespace Automaton

/-- The state to which a string of symbols leads from the start. -/
def walk? (automaton : Automaton) (word : List Nat) : Option Nat :=
  word.foldlM automaton.transition? start

theorem walk?_append {symbol : Nat} : automaton.walk? (word ++ [symbol]) =
    (automaton.walk? word).bind fun number => automaton.transition? number symbol := by
  simp [walk?, List.foldlM_append]

namespace Canonical

variable (canonical : automaton.Canonical g)
include canonical

/-- A transition leads to the state of the advanced items, and is there if there are such items. -/
theorem transition?_iff {number symbol : Nat} {state : State}
    (found : automaton.states[number]? = some state) {target : Nat} :
    automaton.transition? number symbol = some target ↔
      (∃ item ∈ state.items, g.afterDot? item = some symbol) ∧ ∃ next,
        automaton.states[target]? = some next ∧ next.kernel = g.advanced state.items symbol := by
  rw [canonical.transition?_eq_some, ← canonical.edges found]
  constructor
  · intro holds
    obtain ⟨same, there, edge⟩ := holds
    obtain rfl := Option.some.inj (there.symm.trans found)
    exact edge
  · exact fun edge => ⟨state, found, edge⟩

/-- A walk is in the state of the items that the machine can have reached, and it breaks off where the
machine cannot go on. -/
theorem walk?_spec (formed : g.WellFormed) (word : List Nat) :
    (∃ number state, automaton.walk? word = some number ∧ automaton.states[number]? = some state ∧
        state.items ≠ [] ∧ ∀ {item}, item ∈ state.items ↔ g.ItemPath word item) ∨
      automaton.walk? word = none ∧ ∀ item, ¬ g.ItemPath word item := by
  induction word using List.reverseRecOn with
  | nil =>
    obtain ⟨state, found, kernel⟩ := canonical.start
    have items {item : Item} : item ∈ state.items ↔ g.ItemPath [] item := by
      rw [canonical.items found, kernel, formed.itemPath_nil]
    exact .inl ⟨0, state, rfl, found, List.ne_nil_of_mem (items.mpr .start), items⟩
  | append_singleton word symbol ih =>
    rw [walk?_append]
    rcases ih with ⟨number, state, walked, found, _, items⟩ | ⟨stuck, itemless⟩
    · rw [walked, Option.bind_some]
      have behind {item : Item} : g.ItemPath (word ++ [symbol]) item ↔
          g.Called (g.advanced state.items symbol).toList item := formed.itemPath_append items
      cases leads : automaton.transition? number symbol with
      | none =>
        refine .inr ⟨rfl, fun item path => ?_⟩
        obtain ⟨before, inside, dot⟩ := Grammar.Called.exists_advanced (behind.mp path)
        obtain ⟨target, edge⟩ := canonical.leads found inside dot
        rw [canonical.transition?_eq_some.mpr ⟨state, found, edge⟩] at leads
        cases leads
      | some target =>
        obtain ⟨⟨before, inside, dot⟩, next, there, kernel⟩ :=
          (canonical.transition?_iff found).mp leads
        have after {item : Item} : item ∈ next.items ↔ g.ItemPath (word ++ [symbol]) item := by
          rw [canonical.items there, kernel, behind]
        have own := Grammar.mem_advanced.mpr ⟨before, inside, dot, rfl⟩
        exact .inl ⟨target, next, rfl, there, List.ne_nil_of_mem (after.mpr (behind.mpr (.own own))),
          after⟩
    · rw [stuck]
      refine .inr ⟨rfl, fun item path => ?_⟩
      have nothing {item : Item} : item ∈ ([] : List Item) ↔ g.ItemPath word item := by
        simp [itemless item]
      obtain ⟨before, inside, _⟩ :=
        Grammar.Called.exists_advanced ((formed.itemPath_append nothing).mp path)
      cases inside

end Canonical

/-- The states of an automaton are the sets of items that the machine reaches along strings: each set
once, no item twice in a set, and no dot behind the end of a body. -/
structure Subsets (g : Grammar) (automaton : Automaton) : Prop where
  spelled : ∀ word, (∃ number, automaton.walk? word = some number) ↔ ∃ item, g.ItemPath word item
  items : ∀ {word : List Nat} {number : Nat}, automaton.walk? word = some number →
    ∃ state, automaton.states[number]? = some state ∧
      ∀ item, item ∈ state.items ↔ g.ItemPath word item
  apart : (automaton.states.map State.kernel).Nodup
  reached : ∀ number < automaton.states.length, ∃ word, automaton.walk? word = some number
  once : ∀ state ∈ automaton.states, state.items.Nodup
  within : ∀ state ∈ automaton.states, ∀ item ∈ state.items, ∃ production,
    g.productions[item.production]? = some production ∧ item.position ≤ production.length

end Automaton

namespace Grammar

private theorem nodup_items_stateOf (kernels : List Kernel) (kernel : Kernel) :
    (g.stateOf kernels kernel).items.Nodup := by
  rw [items_stateOf]
  apply nodup_discover
  simpa using SortedSet.nodup_toList kernel

section Collected

variable {first : Production} (begins : g.productions[0]? = some first)
  (collected : g.collection = .ok automaton)
include begins collected

private theorem walk?_of_mem_kernels {kernel : Kernel} (known : kernel ∈ g.kernels) :
    ∃ word number, automaton.walk? word = some number ∧ g.kernels[number]? = some kernel := by
  have canonical := canonical_of_collection begins collected
  suffices all : ∀ kernel ∈ g.kernels, (fun kernel => ∃ word number,
      automaton.walk? word = some number ∧ g.kernels[number]? = some kernel) kernel from
    all kernel known
  refine forall_mem_discover _ ?_ ?_
  · intro kernel member
    obtain rfl : kernel = startKernel := List.mem_singleton.mp member
    exact ⟨[], 0, rfl, kernels_start⟩
  · intro _ kernel holds member next leads
    obtain ⟨word, number, walked, here⟩ := holds kernel member
    obtain ⟨symbol, leaves, rfl⟩ := List.mem_map.mp leads
    obtain ⟨item, inside, dot⟩ := mem_outgoing.mp leaves
    have found : automaton.states[number]? = some (g.stateOf g.kernels kernel) := by
      rw [states_of_collection collected, List.getElem?_map, here, Option.map_some]
    rw [← items_stateOf g.kernels] at inside
    obtain ⟨target, edge⟩ := canonical.leads found inside dot
    refine ⟨word ++ [symbol], target, ?_, ((mem_edges_stateOf nodup_kernels).mp edge).2⟩
    rw [Automaton.walk?_append, walked, Option.bind_some]
    exact canonical.transition?_eq_some.mpr ⟨_, found, edge⟩

/-- The collection of a well-formed grammar is the subset construction of its item machine. -/
theorem WellFormed.subsets (formed : g.WellFormed) : automaton.Subsets g := by
  have canonical := canonical_of_collection begins collected
  have states := states_of_collection collected
  constructor
  case spelled =>
    intro word
    rcases canonical.walk?_spec formed word with
      ⟨number, state, walked, _, nonEmpty, items⟩ | ⟨stuck, itemless⟩
    · obtain ⟨item, inside⟩ := List.exists_mem_of_ne_nil _ nonEmpty
      exact ⟨fun _ => ⟨item, items.mp inside⟩, fun _ => ⟨number, walked⟩⟩
    · simp [stuck, itemless]
  case items =>
    intro word number walked
    rcases canonical.walk?_spec formed word with ⟨_, state, here, found, _, items⟩ | ⟨stuck, _⟩
    · obtain rfl := Option.some.inj (here.symm.trans walked)
      exact ⟨state, found, fun _ => items⟩
    · rw [stuck] at walked
      cases walked
  case apart =>
    have same : automaton.states.map State.kernel = g.kernels := by
      rw [states, List.map_map]
      exact List.map_id g.kernels
    rw [same]
    exact nodup_kernels
  case reached =>
    intro number bound
    rw [states, List.length_map] at bound
    obtain ⟨word, other, walked, here⟩ := walk?_of_mem_kernels begins collected (List.getElem_mem bound)
    obtain ⟨_, same⟩ := List.getElem?_eq_some_iff.mp here
    obtain rfl : other = number := nodup_kernels.getElem_inj_iff.mp same
    exact ⟨word, walked⟩
  case once =>
    intro state member
    rw [states] at member
    obtain ⟨kernel, _, rfl⟩ := List.mem_map.mp member
    exact nodup_items_stateOf g.kernels kernel
  case within =>
    intro state member item inside
    obtain ⟨number, found⟩ := List.mem_iff_getElem?.mp member
    exact mem_allItems.mp (canonical.inside found inside)

end Collected

/-- A loaded grammar with a production has an automaton, and the automaton of a loaded grammar is the
subset construction of the item machine of the augmented grammar. -/
theorem automaton_subsets (loaded : g.Loaded) :
    (g.productions ≠ [] → ∃ grown automaton, g.automaton = .ok (grown, automaton)) ∧
      ∀ grown automaton, g.automaton = .ok (grown, automaton) →
        ∃ start, g.AugmentedFrom start grown ∧ automaton.Subsets grown := by
  have formed := loaded.wellFormed
  refine ⟨fun nonEmpty => ?_, fun grown automaton success => ?_⟩
  · obtain ⟨start, chosen⟩ := loaded.exists_start nonEmpty
    obtain ⟨grown, extended⟩ := formed.augment_ok loaded.augmented chosen
    obtain ⟨_, from'⟩ := augment_eq_ok loaded.augmented extended
    obtain ⟨automaton, collected⟩ := (from'.wellFormed formed).collection_ok
    exact ⟨grown, automaton, automaton_eq_ok.mpr ⟨extended, collected⟩⟩
  · obtain ⟨extended, collected⟩ := automaton_eq_ok.mp success
    obtain ⟨start, from'⟩ := augment_eq_ok loaded.augmented extended
    refine ⟨start, from', ?_⟩
    exact WellFormed.subsets (from'.augmented' formed).first collected (from'.wellFormed formed)

/-- With nested pairs the machine goes along `a a S`, and no item begins with `b`. -/
theorem automaton_subsets_pairs : pairs.Loaded ∧ pairs.productions ≠ [] ∧
    ∃ grown automaton, pairs.automaton = .ok (grown, automaton) ∧
      (∃ item, grown.ItemPath [3, 3, 2] item) ∧ ¬ ∃ item, grown.ItemPath [4] item := by
  have nonEmpty : pairs.productions ≠ [] := List.cons_ne_nil _ _
  obtain ⟨exists_automaton, built⟩ := automaton_subsets loaded_pairs
  obtain ⟨grown, automaton, success⟩ := exists_automaton nonEmpty
  obtain ⟨_, _, subsets⟩ := built grown automaton success
  have evaluated : pairs.automaton.toOption.any (fun made =>
      (made.2.walk? [3, 3, 2]).isSome && (made.2.walk? [4]).isNone) = true := by decide +kernel
  rw [success] at evaluated
  obtain ⟨leads, stuck⟩ := Bool.and_eq_true_iff.mp evaluated
  refine ⟨loaded_pairs, nonEmpty, grown, automaton, success, ?_, fun path => ?_⟩
  · exact (subsets.spelled _).mp (Option.isSome_iff_exists.mp leads)
  · obtain ⟨number, walked⟩ := (subsets.spelled _).mpr path
    rw [walked] at stuck
    cases stuck

end Grammar

end SimpleLR
