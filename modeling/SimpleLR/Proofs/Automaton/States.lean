import SimpleLR.Proofs.Automaton.Closure
import SimpleLR.Proofs.Grammar.Augmentation
import Mathlib.Data.List.Sublists

namespace SimpleLR

theorem lookup_eq_some_iff_mem {α : Type} {entries : List (Nat × α)}
    (nodup : (entries.map Prod.fst).Nodup) {key : Nat} {value : α} :
    entries.lookup key = some value ↔ (key, value) ∈ entries := by
  induction entries with
  | nil => simp
  | cons entry rest ih =>
    obtain ⟨name, own⟩ := entry
    obtain ⟨outside, inner⟩ := List.nodup_cons.mp nodup
    by_cases same : key = name
    · subst same
      have absent : (key, value) ∉ rest := fun member => outside (List.mem_map.mpr ⟨_, member, rfl⟩)
      simp [absent, eq_comm]
    · simp [List.lookup_cons, beq_eq_false_iff_ne.mpr same, same, ih inner]

namespace Grammar

variable {g : Grammar}

section Items

/-- All items of a grammar, with every position from the start of a body to its end. -/
def allItems (g : Grammar) : List Item :=
  g.productions.zipIdx.flatMap fun (production, index) =>
    (List.range (production.length + 1)).map (Item.mk index)

theorem mem_allItems {item : Item} : item ∈ g.allItems ↔
    ∃ production, g.productions[item.production]? = some production ∧
      item.position ≤ production.length := by
  simp only [allItems, List.mem_flatMap, List.mem_map, List.mem_range, Prod.exists,
    List.mem_zipIdx_iff_getElem?]
  constructor
  · intro holds
    obtain ⟨production, index, found, position, bound, rfl⟩ := holds
    exact ⟨production, found, Nat.le_of_lt_succ bound⟩
  · intro holds
    obtain ⟨production, found, bound⟩ := holds
    exact ⟨production, item.production, found, item.position, Nat.lt_succ_of_le bound, rfl⟩

private theorem foldl_count (productions : List Production) (start count : Nat) :
    productions.foldl (fun count production => count + (production.length + 1)) count =
      count + ((productions.zipIdx start).flatMap fun (production, index) =>
        (List.range (production.length + 1)).map (Item.mk index)).length := by
  induction productions generalizing start count with
  | nil => rfl
  | cons production rest ih =>
    rw [List.foldl_cons, ih (start + 1), List.zipIdx_cons, List.flatMap_cons, List.length_append,
      List.length_map, List.length_range, Nat.add_assoc]

private theorem length_allItems : g.allItems.length = g.itemCount := by
  unfold allItems itemCount
  rw [foldl_count g.productions 0, Nat.zero_add]

theorem advance_mem_allItems {item : Item} {symbol : Nat} (dot : g.afterDot? item = some symbol) :
    item.advance ∈ g.allItems := by
  obtain ⟨production, found, here⟩ := afterDot?_eq_some.mp dot
  apply mem_allItems.mpr
  exact ⟨production, found, (List.getElem?_eq_some_iff.mp here).1⟩

theorem mem_advanced {items : List Item} {symbol : Nat} {item : Item} :
    item ∈ g.advanced items symbol ↔
      ∃ before ∈ items, g.afterDot? before = some symbol ∧ item = before.advance := by
  simp only [advanced, SortedSet.mem_ofList, List.mem_map, List.mem_filter, beq_iff_eq]
  constructor
  · intro holds
    obtain ⟨before, ⟨member, dot⟩, rfl⟩ := holds
    exact ⟨before, member, dot, rfl⟩
  · intro holds
    obtain ⟨before, member, dot, rfl⟩ := holds
    exact ⟨before, ⟨member, dot⟩, rfl⟩

theorem mem_outgoing {items : List Item} {symbol : Nat} :
    symbol ∈ g.outgoing items ↔ ∃ item ∈ items, g.afterDot? item = some symbol := by
  rw [outgoing, mem_fresh, List.mem_filterMap]
  simp

end Items

section Kernels

/-- The kernel of the first state. -/
def startKernel : Kernel := .ofList [Item.initial 0]

@[simp] theorem mem_startKernel {item : Item} : item ∈ startKernel ↔ item = Item.initial 0 := by
  simp [startKernel]

/-- All sets of items. -/
private def kernelWorld (g : Grammar) : List Kernel := g.allItems.sublists.map SortedSet.ofList

private theorem mem_kernelWorld {kernel : Kernel} (inside : ∀ item ∈ kernel, item ∈ g.allItems) :
    kernel ∈ g.kernelWorld := by
  apply List.mem_map.mpr
  refine ⟨g.allItems.filter (· ∈ kernel), ?_, ?_⟩
  · exact List.mem_sublists.mpr List.filter_sublist
  · apply SortedSet.ext
    intro item
    simp only [SortedSet.mem_ofList, List.mem_filter, decide_eq_true_eq]
    exact ⟨fun found => found.2, fun member => ⟨inside item member, member⟩⟩

private theorem length_kernelWorld : g.kernelWorld.length = Nat.pow 2 g.itemCount := by
  rw [kernelWorld, List.length_map, List.length_sublists, length_allItems]
  rfl

theorem length_le_of_nodup {kernels : List Kernel} (nodup : kernels.Nodup)
    (inside : ∀ kernel ∈ kernels, ∀ item ∈ kernel, item ∈ g.allItems) :
    kernels.length ≤ Nat.pow 2 g.itemCount := by
  rw [← length_kernelWorld]
  exact nodup.length_le_of_subset fun kernel member => mem_kernelWorld (inside kernel member)

theorem nodup_kernels : g.kernels.Nodup := nodup_discover _ (by simp)

theorem kernels_start : g.kernels[0]? = some startKernel := by
  have served := waiting_prefix_discover (fun _ kernel => g.nextKernels kernel)
    (Nat.pow 2 g.itemCount) [] [startKernel] [] (Nat.one_le_two_pow)
  obtain ⟨rest, same⟩ := served
  have split : g.kernels = [] ++ [startKernel] ++ rest := same.symm
  rw [split]
  rfl

private theorem mem_allItems_of_mem_kernels {production : Production}
    (first : g.productions[0]? = some production) {kernel : Kernel} (known : kernel ∈ g.kernels) :
    ∀ item ∈ kernel, item ∈ g.allItems := by
  suffices all : ∀ kernel ∈ g.kernels, (fun k : Kernel => ∀ item ∈ k, item ∈ g.allItems) kernel from
    all kernel known
  refine forall_mem_discover _ ?_ ?_
  · intro kernel member item inside
    obtain rfl : kernel = startKernel := List.mem_singleton.mp member
    rw [mem_startKernel.mp inside]
    apply mem_allItems.mpr
    exact ⟨production, first, Nat.zero_le _⟩
  · intro _ kernel _ _ next leads item inside
    obtain ⟨symbol, _, rfl⟩ := List.mem_map.mp leads
    obtain ⟨before, _, dot, rfl⟩ := mem_advanced.mp inside
    exact advance_mem_allItems dot

private theorem nextKernels_subset_kernels {production : Production}
    (first : g.productions[0]? = some production) {kernel next : Kernel}
    (known : kernel ∈ g.kernels) (leads : next ∈ g.nextKernels kernel) : next ∈ g.kernels := by
  have ⟨_, led⟩ := discover_complete (fun _ kernel => g.nextKernels kernel) g.kernelWorld
    (fun _ kernel _ _ next leads => by
      obtain ⟨symbol, _, rfl⟩ := List.mem_map.mp leads
      apply mem_kernelWorld
      intro item member
      obtain ⟨before, _, dot, rfl⟩ := mem_advanced.mp member
      exact advance_mem_allItems dot)
    (Nat.pow 2 g.itemCount) [] [startKernel] (by simp)
    (fun kernel member => by
      obtain rfl : kernel = startKernel := by simpa using member
      apply mem_kernelWorld
      intro item member
      rw [mem_startKernel.mp member]
      exact mem_allItems.mpr ⟨production, first, Nat.zero_le _⟩)
    (by simp [length_kernelWorld])
  obtain ⟨before, after, split⟩ := List.append_of_mem known
  refine led before kernel ⟨after, ?_⟩ (Nat.zero_le _) next leads
  rw [List.append_assoc, List.singleton_append, ← split]
  rfl

end Kernels

end Grammar

/-- The states of an automaton are the sets of items that a grammar calls for: the first state
starts the first production, each state is closed, and each symbol after a dot leads to the one state
of the advanced items. -/
structure Automaton.Canonical (g : Grammar) (automaton : Automaton) : Prop where
  start : ∃ state, automaton.states[0]? = some state ∧ state.kernel = Grammar.startKernel
  items : ∀ {number : Nat} {state : State}, automaton.states[number]? = some state →
    ∀ {item : Item}, item ∈ state.items ↔ g.Called state.kernel.toList item
  edges : ∀ {number : Nat} {state : State}, automaton.states[number]? = some state →
    ∀ {symbol target : Nat}, (symbol, target) ∈ state.edges ↔
      (∃ item ∈ state.items, g.afterDot? item = some symbol) ∧ ∃ next,
        automaton.states[target]? = some next ∧ next.kernel = g.advanced state.items symbol
  apart : ∀ {number : Nat} {state : State}, automaton.states[number]? = some state →
    (state.edges.map Prod.fst).Nodup
  leads : ∀ {number : Nat} {state : State}, automaton.states[number]? = some state →
    ∀ {item : Item}, item ∈ state.items → ∀ {symbol : Nat}, g.afterDot? item = some symbol →
      ∃ target, (symbol, target) ∈ state.edges
  inside : ∀ {number : Nat} {state : State}, automaton.states[number]? = some state →
    ∀ {item : Item}, item ∈ state.items → item ∈ g.allItems

namespace Grammar

variable {g : Grammar}

theorem items_stateOf (kernels : List Kernel) (kernel : Kernel) :
    (g.stateOf kernels kernel).items = g.closure kernel.toList := by
  obtain ⟨rest, same⟩ := g.prefix_closure kernel.toList
  simp [stateOf, State.items, ← same]

private theorem idxOf?_eq_some {kernels : List Kernel} (nodup : kernels.Nodup) {kernel : Kernel}
    {number : Nat} : kernels.idxOf? kernel = some number ↔ kernels[number]? = some kernel := by
  rw [List.idxOf?_eq_some_iff, List.getElem?_eq_some_iff]
  refine ⟨fun ⟨bound, same, _⟩ => ⟨bound, same⟩, fun ⟨bound, same⟩ => ⟨bound, same, ?_⟩⟩
  intro other before equal
  have position : other = number := nodup.getElem_inj_iff.mp (equal.trans same.symm)
  omega

theorem mem_edges_stateOf {kernels : List Kernel} (nodup : kernels.Nodup) {kernel : Kernel}
    {symbol target : Nat} : (symbol, target) ∈ (g.stateOf kernels kernel).edges ↔
      (∃ item ∈ g.closure kernel.toList, g.afterDot? item = some symbol) ∧
        kernels[target]? = some (g.advanced (g.closure kernel.toList) symbol) := by
  simp only [stateOf, List.mem_filterMap, SortedSet.mem_toList, SortedSet.mem_ofList,
    Option.map_eq_some_iff, Prod.mk.injEq, idxOf?_eq_some nodup, mem_outgoing]
  constructor
  · intro holds
    obtain ⟨_, leaves, _, found, rfl, rfl⟩ := holds
    exact ⟨leaves, found⟩
  · intro holds
    obtain ⟨leaves, found⟩ := holds
    exact ⟨symbol, leaves, target, found, rfl, rfl⟩

theorem ascending_edges_stateOf (kernels : List Kernel) (kernel : Kernel) :
    ((g.stateOf kernels kernel).edges.map Prod.fst).Pairwise (· < ·) := by
  have kept (symbols : List Nat) (targetOf : Nat → Option Nat) :
      ((symbols.filterMap fun symbol => (targetOf symbol).map fun target => (symbol, target)).map
        Prod.fst) = symbols.filter fun symbol => (targetOf symbol).isSome := by
    induction symbols with
    | nil => rfl
    | cons symbol rest ih => cases found : targetOf symbol <;> simp [found, ih]
  simp only [stateOf, kept]
  exact (SortedSet.ascending _).filter _

theorem states_of_collection {automaton : Automaton} (success : g.collection = .ok automaton) :
    automaton.states = g.kernels.map (g.stateOf g.kernels) := by
  unfold collection at success
  dsimp only at success
  split at success
  · cases success
  · obtain rfl := Except.ok.inj success
    rfl

/-- The collection of a grammar with a first production is canonical. -/
theorem canonical_of_collection {production : Production}
    (first : g.productions[0]? = some production) {automaton : Automaton}
    (success : g.collection = .ok automaton) : automaton.Canonical g := by
  have states := states_of_collection success
  have known {number : Nat} {state : State} (found : automaton.states[number]? = some state) :
      ∃ kernel, g.kernels[number]? = some kernel ∧ g.stateOf g.kernels kernel = state := by
    rw [states, List.getElem?_map, Option.map_eq_some_iff] at found
    exact found
  have items {kernel : Kernel} {item : Item} :
      item ∈ g.closure kernel.toList ↔ g.Called kernel.toList item :=
    mem_closure (SortedSet.nodup_toList _)
  refine ⟨?_, ?_, ?_, ?_, ?_, ?_⟩
  · exact ⟨g.stateOf g.kernels startKernel, by simp [states, kernels_start], rfl⟩
  · intro number state found item
    obtain ⟨kernel, _, rfl⟩ := known found
    rw [items_stateOf, items]
    rfl
  · intro number state found symbol target
    obtain ⟨kernel, _, rfl⟩ := known found
    rw [mem_edges_stateOf nodup_kernels, items_stateOf]
    refine and_congr_right fun _ => ⟨fun there => ?_, fun ⟨next, there, same⟩ => ?_⟩
    · exact ⟨g.stateOf g.kernels _, by rw [states, List.getElem?_map, there]; rfl, rfl⟩
    · obtain ⟨other, position, rfl⟩ := known there
      rw [position, ← same]
      rfl
  · intro number state found
    obtain ⟨kernel, _, rfl⟩ := known found
    exact (ascending_edges_stateOf g.kernels kernel).imp Nat.ne_of_lt
  · intro number state found item member symbol dot
    obtain ⟨kernel, position, rfl⟩ := known found
    rw [items_stateOf] at member
    have leads : g.advanced (g.closure kernel.toList) symbol ∈ g.nextKernels kernel :=
      List.mem_map.mpr ⟨symbol, mem_outgoing.mpr ⟨item, member, dot⟩, rfl⟩
    have next := nextKernels_subset_kernels first (List.mem_of_getElem? position) leads
    obtain ⟨target, there⟩ := List.mem_iff_getElem?.mp next
    exact ⟨target, (mem_edges_stateOf nodup_kernels).mpr ⟨⟨item, member, dot⟩, there⟩⟩
  · intro number state found item member
    obtain ⟨kernel, position, rfl⟩ := known found
    rw [items_stateOf, items] at member
    cases member with
    | own inside =>
      exact mem_allItems_of_mem_kernels first (List.mem_of_getElem? position) item inside
    | call _ _ inside =>
      obtain ⟨_, production, rule, _⟩ := mem_productionsOf.mp inside
      apply mem_allItems.mpr
      exact ⟨production, rule, Nat.zero_le _⟩

/-- Where every symbol of a body is a symbol, the collection is there. -/
theorem collection_of_symbols
    (symbols : ∀ production ∈ g.productions, ∀ symbol ∈ production.symbols, symbol < g.symbols.length) :
    g.collection = .ok ⟨g.itemStates⟩ := by
  unfold collection
  dsimp only
  have none : ((g.itemStates.flatMap State.items).findSome? fun item =>
      (g.afterDot? item).filter (g.symbols.length ≤ ·)) = none := by
    rw [List.findSome?_eq_none_iff]
    intro item _
    rw [Option.filter_eq_none_iff]
    intro symbol dot
    obtain ⟨production, found, here⟩ := afterDot?_eq_some.mp dot
    have bound := symbols production (List.mem_of_getElem? found) symbol (List.mem_of_getElem? here)
    simpa using bound
  rw [none]

theorem WellFormed.collection_ok (formed : g.WellFormed) :
    ∃ automaton, g.collection = .ok automaton :=
  ⟨_, collection_of_symbols fun production member _ => (formed.fits production member).lt_of_mem_symbols⟩

end Grammar

namespace Automaton

variable {g : Grammar} {automaton : Automaton}

namespace Canonical

variable (canonical : automaton.Canonical g)
include canonical

theorem transition?_eq_some {number symbol target : Nat} :
    automaton.transition? number symbol = some target ↔
      ∃ state, automaton.states[number]? = some state ∧ (symbol, target) ∈ state.edges := by
  rw [transition?, Option.bind_eq_some_iff]
  refine exists_congr fun state => and_congr_right fun found => ?_
  exact lookup_eq_some_iff_mem (canonical.apart found)

end Canonical

end Automaton

end SimpleLR
