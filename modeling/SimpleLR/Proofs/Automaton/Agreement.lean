import Mathlib.Data.List.Sort
import SimpleLR.Analysis
import SimpleLR.Proofs.Automaton.Construction
import SimpleLR.Proofs.Grammar.Transcript

/-! The construction agrees with the collection of the grammar. As long as the lists of a catalogue are in step
with its productions, serving from them discovers the same items and the same kernels in the same order. -/
namespace SimpleLR

/-- A loop that serves the values it has seen one after the other, and adds what is new among those that a value
leads to, discovers what it has seen in the end. -/
theorem Run.discovers {ε σ α : Type} [DecidableEq α] {step : σ → Except ε (Option σ)} {first last : σ}
    {path : List σ} (run : Run step first path last) {counts : Nat → σ → Prop} {count : Nat}
    (begins : counts count first) {turns : Nat} (enough : path.length ≤ turns) (seen : σ → List α)
    (next : α → List α) (stops : ∀ count current, counts count current → step current = .ok none →
      (seen current).length ≤ count)
    (serves : ∀ count current later, counts count current → step current = .ok (some later) →
      counts (count + 1) later ∧ ∃ value, (seen current)[count]? = some value ∧
        seen later = seen current ++ fresh (seen current) (next value)) :
    discover (fun _ => next) turns ((seen first).take count) ((seen first).drop count) = seen last := by
  induction run generalizing count turns with
  | stop ended =>
    have all := stops _ _ begins ended
    rw [List.drop_eq_nil_of_le all, List.take_of_length_le all, discover_nil]
  | step taken rest ih =>
    obtain ⟨counted, value, here, grown⟩ := serves _ _ _ begins taken
    cases turns with
    | zero => cases enough
    | succ turns =>
      obtain ⟨bound, rfl⟩ := List.getElem?_eq_some_iff.mp here
      rw [← ih counted (Nat.le_of_succ_le_succ enough), List.drop_eq_getElem_cons bound, discover,
        List.take_append_getElem, List.take_append_drop, grown, List.take_append_of_le_length bound,
        List.drop_append_of_le_length bound]

namespace Catalogue

variable {c : Catalogue}

section Items

theorem InStep.calledFor (books : c.InStep) (valid : c.Valid) {item : Item}
    (known : item.production < c.productions.length) : c.calledFor item = .ok (c.grammar.calledFor item) := by
  have found : c.grammar.production item.production = .ok c.productions[item.production] :=
    Grammar.production_ok (List.getElem?_eq_getElem known)
  unfold Catalogue.calledFor Grammar.calledFor
  rw [found]
  cases dot : c.grammar.afterDot? item with
  | none => rfl
  | some symbol =>
    obtain ⟨production, here, inside⟩ := Grammar.afterDot?_eq_some.mp dot
    have body := Production.mem_body (List.mem_of_getElem? inside)
    have bound := valid.bodies production (List.mem_of_getElem? here) symbol body
    simp only [bind, Except.bind, pure, Except.pure, books.productionsOf_ok bound]

theorem InStep.closure (books : c.InStep) (valid : c.Valid) {items : List Item} (known : c.Known items) :
    c.closure items = .ok (c.grammar.closure items) := by
  obtain ⟨path, last, run, enough, success, _⟩ := valid.closure known
  have discovered := run.discovers (Gathered.start c items) enough Gathering.items c.grammar.calledFor
    (fun turns gathering gathered => gathered.stopped valid known)
    (fun turns gathering later gathered taken => by
      obtain ⟨counted, item, called, here, calls, grown⟩ := gathered.stepped valid known taken
      rw [books.calledFor valid (gathered.known known item (List.mem_of_getElem? here))] at calls
      obtain rfl := Except.ok.inj calls
      exact ⟨counted, item, here, grown⟩)
  rw [success, ← discovered]
  rfl

end Items

private theorem eq_of_ascending_keys {first second : List (Nat × Nat)}
    (ascending : (first.map Prod.fst).Pairwise (· < ·))
    (ascending' : (second.map Prod.fst).Pairwise (· < ·)) (same : ∀ pair, pair ∈ first ↔ pair ∈ second) :
    first = second := by
  have irreflexive : Std.Irrefl fun a b : Nat × Nat => a.1 < b.1 := ⟨fun pair => Nat.lt_irrefl pair.1⟩
  have antisymmetric : Std.Antisymm fun a b : Nat × Nat => a.1 < b.1 :=
    ⟨fun _ _ below above => absurd below (Nat.lt_asymm above)⟩
  exact (List.pairwise_map.mp ascending).eq_of_mem_iff (List.pairwise_map.mp ascending') same

section States

variable (books : c.InStep) (valid : c.Valid)
include books valid

theorem InStep.items {built : Construction} {turns : Nat} (after : Construction.After c turns built)
    {state : State} (member : state ∈ built.states) : state.items = c.grammar.closure state.kernel.toList := by
  have known : c.Known state.kernel.toList :=
    known_of_allItems (after.inside _ (List.mem_map_of_mem member))
  have closed := after.closed state member
  rw [books.closure valid known] at closed
  exact (Except.ok.inj closed).symm

/-- The construction discovers the kernels in the order in which the grammar discovers them. -/
theorem InStep.kernels {production : Production} (first : c.productions[0]? = some production) {state : State}
    (starts : c.stateOf Grammar.startKernel = .ok state) {path : List Construction} {last : Construction}
    (run : Run c.turn (.start state) path last) : last.kernels = c.grammar.kernels := by
  obtain ⟨other, success, same, start⟩ := Construction.exists_start valid first
  rw [starts] at success
  obtain rfl := Except.ok.inj success
  obtain ⟨_, after, count⟩ := start.dequeued valid run
  have enough : path.length ≤ Nat.pow 2 c.grammar.itemCount := by
    have bound := after.length_le
    omega
  have discovered := run.discovers start enough Construction.kernels c.grammar.nextKernels
    (fun turns built after ended => by
      rw [after.stopped valid ended, Construction.kernels, List.length_map])
    (fun turns built later after taken => by
      obtain ⟨counted, _, state, here, grown⟩ := after.stepped valid taken
      rw [books.items valid after (List.mem_of_getElem? here)] at grown
      refine ⟨counted, state.kernel, ?_, grown⟩
      rw [Construction.kernels, List.getElem?_map, here]
      rfl)
  rw [← discovered, Construction.kernels, Construction.start, List.map_singleton, same]
  rfl

/-- A state that has all its edges is the state of its kernel. -/
theorem InStep.stateOf {built : Construction} (after : Construction.After c built.states.length built)
    {number : Nat} {state : State} (here : built.states[number]? = some state) :
    c.grammar.stateOf built.kernels state.kernel = state := by
  have member := List.mem_of_getElem? here
  have items := books.items valid after member
  have extend : (c.grammar.closure state.kernel.toList).drop state.kernel.toList.length = state.extend := by
    rw [← items, State.items, List.drop_left]
  have edges : (c.grammar.stateOf built.kernels state.kernel).edges = state.edges := by
    -- On both sides the edges ascend by their symbols, so they need only be compared as sets.
    apply eq_of_ascending_keys (Grammar.ascending_edges_stateOf _ _) (after.ascending state member)
    intro pair
    obtain ⟨symbol, target⟩ := pair
    rw [Grammar.mem_edges_stateOf after.apart, ← items, ← Grammar.mem_outgoing]
    constructor
    · intro holds
      obtain ⟨outgoing, there⟩ := holds
      have bound := (List.getElem?_eq_some_iff.mp here).1
      obtain ⟨edge, among, rfl⟩ := List.mem_map.mp (after.done bound here symbol outgoing)
      obtain ⟨_, other⟩ := after.leads state member edge among
      -- The edge of the symbol leads to the same kernel, and no two states have the same kernel.
      have same : target = edge.2 :=
        (List.getElem?_inj (List.getElem?_eq_some_iff.mp there).1 after.apart).mp (there.trans other.symm)
      rw [same]
      exact among
    · exact after.leads state member (symbol, target)
  calc c.grammar.stateOf built.kernels state.kernel
    _ = ⟨state.kernel, (c.grammar.closure state.kernel.toList).drop state.kernel.toList.length,
          (c.grammar.stateOf built.kernels state.kernel).edges⟩ := rfl
    _ = ⟨state.kernel, state.extend, state.edges⟩ := by rw [extend, edges]
    _ = state := rfl

/-- The construction ends with the collection of the grammar. -/
theorem InStep.collection {production : Production} (first : c.productions[0]? = some production) :
    c.collection = c.grammar.collection := by
  obtain ⟨state, path, last, starts, run, success, _, after⟩ := valid.collection first
  have kernels := books.kernels valid first starts run
  have symbols : ∀ production ∈ c.grammar.productions, ∀ symbol ∈ production.symbols,
      symbol < c.grammar.symbols.length := by
    intro production member symbol inside
    rw [length_grammar]
    exact valid.bodies production member symbol (Production.mem_body inside)
  have states : last.states = c.grammar.itemStates := by
    unfold Grammar.itemStates
    rw [← kernels, Construction.kernels, List.map_map]
    refine (List.map_id _).symm.trans (List.map_congr_left fun state member => ?_)
    obtain ⟨number, here⟩ := List.mem_iff_getElem?.mp member
    exact (books.stateOf valid after here).symm
  rw [success, states, Grammar.collection_of_symbols symbols]

end States

theorem InStep.exists_first (books : c.InStep) {head : Nat} (success : c.augment.1 = .ok head) :
    ∃ production, c.augment.2.productions[0]? = some production := by
  rcases c.augment_cases with ⟨other, marked, same⟩ | ⟨failure, _, same⟩ | ⟨start, name, _, _, _, same⟩
  · obtain ⟨_, start, leads⟩ := books.front marked
    rw [same]
    exact ⟨_, leads⟩
  · rw [same] at success
    cases success
  · rw [same]
    exact ⟨_, rfl⟩

/-- The automaton of a catalogue in step is the automaton of its grammar. -/
theorem InStep.automaton (books : c.InStep) (valid : c.Valid) :
    c.automaton = c.grammar.automaton.map Prod.snd := by
  unfold Grammar.automaton
  rw [automaton_eq rfl, books.grammar_augment]
  cases success : c.augment.1 with
  | error failure => rfl
  | ok head =>
    obtain ⟨production, first⟩ := books.exists_first success
    have same := books.augment.collection valid.augment first
    simp only [Except.bind, Except.map, bind, same]
    cases c.augment.2.grammar.collection <;> rfl

/-- For rules the construction gives the automaton of their grammar. -/
theorem automaton_of_ofRules {rules : List Rule} (success : ofRules rules = .ok c) :
    c.automaton = c.grammar.automaton.map Prod.snd := by
  have formed := Grammar.Loaded.wellFormed ⟨rules, grammar_of_ofRules success⟩
  have books := InStep.ofRules success
  apply books.automaton
  apply books.valid
  intro production member symbol inside
  rw [← length_grammar]
  exact (formed.fits production member).lt_of_mem_body formed.toNamed inside

end Catalogue

end SimpleLR
