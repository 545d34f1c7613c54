import SimpleLR.Proofs.Automaton.Gathering
import SimpleLR.Proofs.Automaton.States

/-! The construction of the automaton comes to an end. Each turn gives one more state its edges, in the order of
the numbers of the states; no two states have the same kernel, and there are only so many kernels. -/
namespace SimpleLR

namespace Catalogue

variable {c : Catalogue}

theorem Valid.stateOf (valid : c.Valid) {kernel : Kernel} (known : c.Known kernel.toList) :
    ∃ state, c.stateOf kernel = .ok state ∧ state.kernel = kernel ∧ state.edges = [] ∧
      c.closure kernel.toList = .ok state.items ∧ c.Known state.items := by
  obtain ⟨_, last, _, _, success, ⟨added, same⟩, items⟩ := valid.closure known
  have whole : kernel.toList ++ last.items.drop kernel.toList.length = last.items := by simp [← same]
  refine ⟨⟨kernel, last.items.drop kernel.toList.length, []⟩, ?_, rfl, rfl, ?_, ?_⟩
  · unfold Catalogue.stateOf
    rw [success]
    rfl
  · rw [State.items, whole, success]
  · rw [State.items, whole]
    exact items

theorem Known.productions {items : List Item} (known : c.Known items) :
    ∃ productions, items.mapM (fun item => c.grammar.production item.production) = .ok productions := by
  apply Result.mapM_ok
  intro item member
  exact ⟨_, Grammar.production_ok (List.getElem?_eq_getElem (known item member))⟩

theorem known_of_allItems {items : List Item} (inside : ∀ item ∈ items, item ∈ c.grammar.allItems) :
    c.Known items := by
  intro item member
  obtain ⟨production, found, _⟩ := Grammar.mem_allItems.mp (inside item member)
  exact (List.getElem?_eq_some_iff.mp found).1

end Catalogue

section Edges

theorem State.keys_insertEdge (symbol target : Nat) (edges : List (Nat × Nat)) :
    (insertEdge symbol target edges).map Prod.fst = SortedSet.insertInto symbol (edges.map Prod.fst) := by
  induction edges with
  | nil => rfl
  | cons edge rest ih =>
    obtain ⟨other, old⟩ := edge
    rw [insertEdge, List.map_cons, SortedSet.insertInto]
    split
    · rfl
    · split
      · rw [List.map_cons, ih]
      · have same : symbol = other := by omega
        rw [List.map_cons, same]

private theorem State.mem_of_mem_insertEdge {symbol target : Nat} {edges : List (Nat × Nat)} {edge : Nat × Nat}
    (member : edge ∈ insertEdge symbol target edges) : edge = (symbol, target) ∨ edge ∈ edges := by
  induction edges with
  | nil => exact .inl (List.mem_singleton.mp member)
  | cons first rest ih =>
    obtain ⟨other, old⟩ := first
    rw [insertEdge] at member
    split at member
    · exact List.mem_cons.mp member
    · split at member
      · rcases List.mem_cons.mp member with rfl | later
        · exact .inr List.mem_cons_self
        · exact (ih later).imp id (List.mem_cons_of_mem _)
      · exact (List.mem_cons.mp member).imp id (List.mem_cons_of_mem _)

end Edges

section Fresh

variable {α : Type} [DecidableEq α]

private theorem fresh_congr {known other found : List α} (same : ∀ x, x ∈ known ↔ x ∈ other) :
    fresh known found = fresh other found := by
  induction found generalizing known other with
  | nil => rfl
  | cons x rest ih =>
    have next : fresh (x :: known) rest = fresh (x :: other) rest := ih fun y => by simp [same y]
    unfold fresh
    rw [next, ih same]
    by_cases old : x ∈ known
    · rw [if_pos old, if_pos ((same x).mp old)]
    · rw [if_neg old, if_neg fun holds => old ((same x).mpr holds)]

private theorem fresh_cons (known : List α) (x : α) (rest : List α) :
    fresh known (x :: rest) = fresh known [x] ++ fresh (known ++ fresh known [x]) rest := by
  by_cases old : x ∈ known
  · simp [fresh, old]
  · have same : fresh (x :: known) rest = fresh (known ++ [x]) rest :=
      fresh_congr fun y => by simp [or_comm]
    simp [fresh, old, same]

end Fresh

namespace Construction

/-- The kernels of the states, by their numbers. -/
def kernels (built : Construction) : List Kernel := built.states.map State.kernel

/-- A construction in which the states from a number on wait. Kernels are found by the numbers of their
states, states are closed, and edges ascend and lead where their symbols lead. -/
structure Sound (c : Catalogue) (first : Nat) (built : Construction) : Prop where
  bound : first ≤ built.states.length
  queue : built.queue = List.range' first (built.states.length - first)
  apart : built.kernels.Nodup
  numbers : ∀ {kernel : Kernel} {number : Nat},
    built.numbers.lookup kernel = some number ↔ built.kernels[number]? = some kernel
  inside : ∀ kernel ∈ built.kernels, ∀ item ∈ kernel, item ∈ c.grammar.allItems
  closed : ∀ state ∈ built.states, c.closure state.kernel.toList = .ok state.items
  ascending : ∀ state ∈ built.states, (state.edges.map Prod.fst).Pairwise (· < ·)
  leads : ∀ state ∈ built.states, ∀ edge ∈ state.edges, edge.1 ∈ c.grammar.outgoing state.items ∧
    built.kernels[edge.2]? = some (c.grammar.advanced state.items edge.1)

/-- What stays of a construction: every state, with its number, its items and the symbols of its edges. -/
def Keeps (built next : Construction) : Prop :=
  ∀ {number : Nat} {state : State}, built.states[number]? = some state → ∃ later,
    next.states[number]? = some later ∧ later.items = state.items ∧
      ∀ symbol ∈ state.edges.map Prod.fst, symbol ∈ later.edges.map Prod.fst

variable {c : Catalogue} {first : Nat} {built next last : Construction}

theorem Keeps.refl (built : Construction) : built.Keeps built := fun {_ state} here =>
  ⟨state, here, rfl, fun _ => id⟩

theorem Keeps.trans (begins : built.Keeps next) (ends : next.Keeps last) : built.Keeps last := by
  intro number state here
  obtain ⟨later, there, items, edges⟩ := begins here
  obtain ⟨latest, found, same, more⟩ := ends there
  exact ⟨latest, found, same.trans items, fun symbol member => more symbol (edges symbol member)⟩

private theorem keeps_add (built : Construction) (state : State) : built.Keeps (built.add state) := by
  intro number other here
  refine ⟨other, ?_, rfl, fun _ => id⟩
  rw [add, List.getElem?_append_left (List.getElem?_eq_some_iff.mp here).1]
  exact here

theorem kernels_connect (built : Construction) (number symbol target : Nat) :
    (built.connect number symbol target).kernels = built.kernels := by
  unfold kernels connect
  apply map_modify_of_same
  exact fun _ => rfl

private theorem keeps_connect (built : Construction) (number symbol target : Nat) :
    built.Keeps (built.connect number symbol target) := by
  intro position state here
  rw [connect, List.getElem?_modify, here]
  refine ⟨_, rfl, ?_, fun other member => ?_⟩
  · split <;> rfl
  · split
    · simp only [State.connect, State.keys_insertEdge, SortedSet.mem_insertInto]
      exact .inr member
    · exact member

theorem state_ok {number : Nat} {state : State} (here : built.states[number]? = some state) :
    built.state number = .ok state := by
  rw [Construction.state, here]

namespace Sound

variable (sound : Sound c first built)
include sound

theorem known (valid : c.Valid) {state : State} (member : state ∈ built.states) : c.Known state.items := by
  have own : c.Known state.kernel.toList :=
    Catalogue.known_of_allItems (sound.inside _ (List.mem_map_of_mem member))
  obtain ⟨_, last, _, _, success, _, known⟩ := valid.closure own
  rw [sound.closed state member] at success
  rwa [Except.ok.inj success]

theorem length_le : built.states.length ≤ Nat.pow 2 c.grammar.itemCount := by
  have bound := Grammar.length_le_of_nodup sound.apart sound.inside
  rwa [kernels, List.length_map] at bound

/-- A state with a new kernel goes behind the others. -/
theorem add {state : State} (new : state.kernel ∉ built.kernels) (edges : state.edges = [])
    (inside : ∀ item ∈ state.kernel, item ∈ c.grammar.allItems)
    (closed : c.closure state.kernel.toList = .ok state.items) : Sound c first (built.add state) := by
  have grown : (built.add state).kernels = built.kernels ++ [state.kernel] := by
    simp [kernels, Construction.add]
  have length : built.kernels.length = built.states.length := List.length_map _
  have longer : (built.add state).states.length = built.states.length + 1 := by simp [Construction.add]
  have cases {other : State} (member : other ∈ (built.add state).states) : other ∈ built.states ∨ other = state :=
    (List.mem_append.mp member).imp id List.mem_singleton.mp
  constructor
  case bound => exact longer ▸ Nat.le_succ_of_le sound.bound
  case queue =>
    rw [longer, Nat.succ_sub sound.bound, List.range'_concat, Construction.add, sound.queue, Nat.one_mul,
      Nat.add_sub_cancel' sound.bound]
  case apart =>
    rw [grown]
    refine List.nodup_append.mpr ⟨sound.apart, List.nodup_singleton _, fun kernel old other same equal => ?_⟩
    rw [equal, List.mem_singleton.mp same] at old
    exact new old
  case numbers =>
    intro kernel number
    rw [grown, Construction.add, List.lookup_cons]
    by_cases last : number = built.kernels.length
    · subst last
      rw [List.getElem?_concat_length]
      by_cases own : kernel = state.kernel
      · simp [own, length]
      · have unknown : built.numbers.lookup kernel ≠ some built.kernels.length := by
          rw [Ne, sound.numbers, List.getElem?_eq_none (Nat.le_refl _)]
          exact nofun
        simp [beq_false_of_ne own, unknown, Ne.symm own]
    · have kept : (built.kernels ++ [state.kernel])[number]? = built.kernels[number]? := by
        rw [List.getElem?_append]
        split
        · rfl
        · rw [List.getElem?_eq_none (by simp; omega), List.getElem?_eq_none (by omega)]
      rw [kept]
      -- The table now finds the new number under the new kernel, which had no number before.
      by_cases own : kernel = state.kernel
      · have absent : built.kernels[number]? ≠ some kernel := fun there =>
          new (own ▸ List.mem_of_getElem? there)
        simp only [own, beq_self_eq_true, Option.some.injEq]
        exact ⟨fun equal => absurd (equal.symm.trans length.symm) last, fun there => absurd (own ▸ there) absent⟩
      · simp only [beq_false_of_ne own]
        exact sound.numbers
  case inside =>
    intro kernel member
    rw [grown] at member
    rcases List.mem_append.mp member with old | last
    · exact sound.inside kernel old
    · rw [List.mem_singleton.mp last]
      exact inside
  case closed =>
    intro other member
    rcases cases member with old | rfl
    · exact sound.closed other old
    · exact closed
  case ascending =>
    intro other member
    rcases cases member with old | rfl
    · exact sound.ascending other old
    · rw [edges]
      exact .nil
  case leads =>
    intro other member edge among
    rcases cases member with old | rfl
    · obtain ⟨outgoing, there⟩ := sound.leads other old edge among
      refine ⟨outgoing, ?_⟩
      rw [grown, List.getElem?_append_left (List.getElem?_eq_some_iff.mp there).1]
      exact there
    · rw [edges] at among
      cases among

/-- A state gets an edge to the state of the kernel that its symbol leads to. -/
theorem connect {number symbol target : Nat} {state : State} (here : built.states[number]? = some state)
    (outgoing : symbol ∈ c.grammar.outgoing state.items)
    (there : built.kernels[target]? = some (c.grammar.advanced state.items symbol)) :
    Sound c first (built.connect number symbol target) := by
  have same := kernels_connect built number symbol target
  have length : (built.connect number symbol target).states.length = built.states.length :=
    List.length_modify _ _ _
  have cases {other : State} (member : other ∈ (built.connect number symbol target).states) :
      other ∈ built.states ∨ other = state.connect symbol target := by
    obtain ⟨position, found⟩ := List.mem_iff_getElem?.mp member
    rw [Construction.connect, List.getElem?_modify, Option.map_eq_map, Option.map_eq_some_iff] at found
    obtain ⟨before, old, rfl⟩ := found
    split
    · rename_i own
      rw [← own, here] at old
      exact .inr (by rw [Option.some.inj old])
    · exact .inl (List.mem_of_getElem? old)
  have own := List.mem_of_getElem? here
  constructor
  case bound => exact length ▸ sound.bound
  case queue => rw [length]; exact sound.queue
  case apart => exact same ▸ sound.apart
  case numbers => exact fun {kernel position} => same ▸ sound.numbers
  case inside => exact same ▸ sound.inside
  case closed =>
    intro other member
    rcases cases member with old | rfl
    · exact sound.closed other old
    · exact sound.closed state own
  case ascending =>
    intro other member
    rcases cases member with old | rfl
    · exact sound.ascending other old
    · rw [State.connect, State.keys_insertEdge]
      exact SortedSet.ascending_insertInto symbol (sound.ascending state own)
  case leads =>
    intro other member edge among
    rw [same]
    rcases cases member with old | rfl
    · exact sound.leads other old edge among
    · rcases State.mem_of_mem_insertEdge among with rfl | old
      · exact ⟨outgoing, there⟩
      · exact sound.leads state own edge old

variable (valid : c.Valid)
include valid

/-- A kernel is found, or it gets a state. -/
theorem reach {kernel : Kernel} (inside : ∀ item ∈ kernel, item ∈ c.grammar.allItems) :
    ∃ next target, c.reach built kernel = .ok (next, target) ∧ Sound c first next ∧ built.Keeps next ∧
      next.kernels[target]? = some kernel ∧ next.kernels = built.kernels ++ fresh built.kernels [kernel] := by
  unfold Catalogue.reach
  cases found : built.numbers.lookup kernel with
  | some target =>
    have there := sound.numbers.mp found
    have old := List.mem_of_getElem? there
    exact ⟨built, target, rfl, sound, Keeps.refl built, there, by simp [fresh, old]⟩
  | none =>
    have new : kernel ∉ built.kernels := by
      intro old
      obtain ⟨number, there⟩ := List.mem_iff_getElem?.mp old
      rw [sound.numbers.mpr there] at found
      cases found
    obtain ⟨state, success, rfl, edges, closed, _⟩ := valid.stateOf (Catalogue.known_of_allItems inside)
    have grown : (built.add state).kernels = built.kernels ++ [state.kernel] := by
      simp [kernels, Construction.add]
    refine ⟨built.add state, built.states.length, ?_, sound.add new edges inside closed, keeps_add built state,
      ?_, by simp [fresh, new, grown]⟩
    · dsimp only
      rw [success]
      rfl
    · have length : built.kernels.length = built.states.length := List.length_map _
      rw [grown, ← length, List.getElem?_concat_length]

/-- Following a symbol that leaves a state gives the state an edge for it. -/
theorem follow {number symbol : Nat} {state : State} (here : built.states[number]? = some state)
    (outgoing : symbol ∈ c.grammar.outgoing state.items) :
    ∃ next, c.follow number built symbol = .ok next ∧ Sound c first next ∧ built.Keeps next ∧
      (∃ later, next.states[number]? = some later ∧ symbol ∈ later.edges.map Prod.fst) ∧
      next.kernels = built.kernels ++ fresh built.kernels [c.grammar.advanced state.items symbol] := by
  obtain ⟨item, member, dot⟩ := Grammar.mem_outgoing.mp outgoing
  have inside : ∀ item ∈ c.grammar.advanced state.items symbol, item ∈ c.grammar.allItems := by
    intro item member
    obtain ⟨before, _, dot, rfl⟩ := Grammar.mem_advanced.mp member
    exact Grammar.advance_mem_allItems dot
  have nonEmpty : (c.grammar.advanced state.items symbol).isEmpty = false := by
    rw [SortedSet.isEmpty, List.isEmpty_eq_false_iff_exists_mem]
    exact ⟨item.advance, Grammar.mem_advanced.mpr ⟨item, member, dot, rfl⟩⟩
  obtain ⟨productions, looked⟩ := (sound.known valid (List.mem_of_getElem? here)).productions
  obtain ⟨next, target, success, grown, keeps, there, kernels⟩ := sound.reach valid inside
  obtain ⟨later, position, items, _⟩ := keeps here
  have linked : (next.connect number symbol target).states[number]? = some (later.connect symbol target) := by
    rw [Construction.connect, List.getElem?_modify, position]
    simp
  refine ⟨next.connect number symbol target, ?_, ?_, keeps.trans (keeps_connect next number symbol target),
    ⟨_, linked, ?_⟩, (kernels_connect next number symbol target).trans kernels⟩
  · unfold Catalogue.follow State.derivedKernel
    simp only [state_ok here, looked, nonEmpty, success, bind, Except.bind, pure, Except.pure]
    rfl
  · apply grown.connect position
    · rwa [items]
    · rwa [items]
  · rw [State.connect, State.keys_insertEdge]
    exact SortedSet.mem_insertInto.mpr (.inl rfl)

/-- Following several symbols gives the state an edge for each of them. -/
theorem link {number : Nat} {state : State} (here : built.states[number]? = some state) {symbols : List Nat}
    (outgoing : ∀ symbol ∈ symbols, symbol ∈ c.grammar.outgoing state.items) :
    ∃ next, symbols.foldlM (c.follow number) built = .ok next ∧ Sound c first next ∧ built.Keeps next ∧
      (∃ later, next.states[number]? = some later ∧ ∀ symbol ∈ symbols, symbol ∈ later.edges.map Prod.fst) ∧
      next.kernels = built.kernels ++ fresh built.kernels (symbols.map (c.grammar.advanced state.items)) := by
  induction symbols generalizing built state with
  | nil => exact ⟨built, rfl, sound, Keeps.refl built, ⟨state, here, nofun⟩, by simp [fresh]⟩
  | cons symbol rest ih =>
    obtain ⟨next, success, grown, keeps, ⟨later, there, own⟩, kernels⟩ :=
      sound.follow valid here (outgoing symbol List.mem_cons_self)
    obtain ⟨other, position, items, _⟩ := keeps here
    obtain rfl := Option.some.inj (there.symm.trans position)
    obtain ⟨last, ends, longer, keeps', ⟨latest, found, others⟩, more⟩ := ih grown there fun other member => by
      rw [items]
      exact outgoing other (List.mem_cons_of_mem symbol member)
    obtain ⟨same, stays, _, edges⟩ := keeps' there
    obtain rfl := Option.some.inj (found.symm.trans stays)
    refine ⟨last, ?_, longer, keeps.trans keeps', ⟨latest, found, fun other member => ?_⟩, ?_⟩
    · rw [List.foldlM_cons, success]
      exact ends
    · rcases List.mem_cons.mp member with rfl | later
      · exact edges other own
      · exact others other later
    · rw [more, kernels, items, List.map_cons, fresh_cons built.kernels _ (rest.map _), List.append_assoc]

end Sound

theorem Sound.empty (c : Catalogue) : Sound c 0 ⟨[], [], []⟩ := by
  constructor <;> simp [kernels]

/-- A sound construction after a number of turns: the states before that number have all their edges. -/
structure After (c : Catalogue) (turns : Nat) (built : Construction) : Prop extends Sound c turns built where
  done : ∀ {number : Nat} {state : State}, number < turns → built.states[number]? = some state →
    ∀ symbol ∈ c.grammar.outgoing state.items, symbol ∈ state.edges.map Prod.fst

namespace After

variable {turns : Nat} (after : After c turns built) (valid : c.Valid)
include after valid

/-- A turn takes the first state that waits, which is the one whose number is the number of the turn. When none
waits, there was a turn for every state. -/
theorem turn : (c.turn built = .ok none ∧ turns = built.states.length) ∨
    ∃ state next, built.states[turns]? = some state ∧ built.queue.head? = some turns ∧
      c.turn built = .ok (some next) ∧ After c (turns + 1) next ∧
      next.kernels = built.kernels ++
        fresh built.kernels ((c.grammar.outgoing state.items).map (c.grammar.advanced state.items)) := by
  rcases Nat.eq_or_lt_of_le after.bound with last | more
  · left
    refine ⟨?_, last⟩
    rw [Catalogue.turn, after.queue, last, Nat.sub_self]
    rfl
  · right
    have here := List.getElem?_eq_getElem more
    have waits : built.queue = turns :: List.range' (turns + 1) (built.states.length - (turns + 1)) := by
      rw [after.queue, ← List.range'_succ, Nat.sub_add_eq, Nat.sub_add_cancel (Nat.sub_pos_of_lt more)]
    -- Without its first state the queue is the one of a turn more, and all that state lacks are its edges.
    let taken : Construction := { built with queue := List.range' (turns + 1) (built.states.length - (turns + 1)) }
    have sound : Sound c (turns + 1) taken := { after.toSound with bound := more, queue := rfl }
    obtain ⟨productions, looked⟩ := (after.known valid (List.mem_of_getElem? here)).productions
    obtain ⟨next, success, grown, keeps, ⟨later, there, edges⟩, kernels⟩ :=
      sound.link valid here fun symbol => id
    refine ⟨_, next, here, by rw [waits, List.head?_cons], ?_, ⟨grown, fun {number state} bound found => ?_⟩,
      kernels⟩
    · unfold Catalogue.turn State.outgoing
      simp only [waits, state_ok here, looked, bind, Except.bind, pure, Except.pure]
      simp only [success, taken]
    · rcases Nat.lt_succ_iff_lt_or_eq.mp bound with old | rfl
      · have before := List.getElem?_eq_getElem (Nat.lt_trans old more)
        obtain ⟨latest, position, items, kept⟩ := keeps before
        obtain rfl := Option.some.inj (position.symm.trans found)
        intro symbol outgoing
        rw [items] at outgoing
        exact kept symbol (after.done old before symbol outgoing)
      · obtain ⟨latest, position, items, _⟩ := keeps here
        obtain rfl := Option.some.inj (position.symm.trans found)
        obtain rfl := Option.some.inj (position.symm.trans there)
        rw [items]
        exact edges

theorem stopped (ended : c.turn built = .ok none) : turns = built.states.length := by
  rcases after.turn valid with ends | more
  · exact ends.2
  · obtain ⟨_, _, _, _, taken, _⟩ := more
    rw [ended] at taken
    cases taken

theorem stepped (taken : c.turn built = .ok (some next)) : After c (turns + 1) next ∧
    built.queue.head? = some turns ∧ ∃ state, built.states[turns]? = some state ∧
      next.kernels = built.kernels ++
        fresh built.kernels ((c.grammar.outgoing state.items).map (c.grammar.advanced state.items)) := by
  rcases after.turn valid with ends | more
  · rw [ends.1] at taken
    cases taken
  · obtain ⟨state, other, here, waits, same, later, kernels⟩ := more
    rw [taken] at same
    obtain rfl := Option.some.inj (Except.ok.inj same)
    exact ⟨later, waits, state, here, kernels⟩

end After

theorem exists_start (valid : c.Valid) {production : Production} (first : c.productions[0]? = some production) :
    ∃ state, c.stateOf Grammar.startKernel = .ok state ∧ state.kernel = Grammar.startKernel ∧
      After c 0 (start state) := by
  have inside : ∀ item ∈ Grammar.startKernel, item ∈ c.grammar.allItems := by
    intro item member
    rw [Grammar.mem_startKernel.mp member]
    exact Grammar.mem_allItems.mpr ⟨production, first, Nat.zero_le _⟩
  obtain ⟨state, success, same, edges, closed, _⟩ := valid.stateOf (Catalogue.known_of_allItems inside)
  refine ⟨state, success, same, ?_, fun bound => absurd bound (Nat.not_lt_zero _)⟩
  exact (Sound.empty c).add List.not_mem_nil edges (same ▸ inside) (same ▸ closed)

/-- The turns of a construction take the states in the order of their numbers, each one once. -/
theorem After.dequeued (valid : c.Valid) {turns : Nat} {path : List Construction}
    (after : After c turns built) (run : Run c.turn built path last) :
    path.map (·.queue.head?) = (List.range' turns path.length).map some ∧ After c (turns + path.length) last ∧
      turns + path.length = last.states.length := by
  induction run generalizing turns with
  | stop ended => exact ⟨rfl, after, after.stopped valid ended⟩
  | @step _ _ _ path taken rest ih =>
    obtain ⟨later, waits, _⟩ := after.stepped valid taken
    obtain ⟨order, ends, count⟩ := ih later
    have same : turns + 1 + path.length = turns + (path.length + 1) := by omega
    rw [same] at ends count
    exact ⟨by rw [List.map_cons, waits, order, List.length_cons, List.range'_succ, List.map_cons], ends, count⟩

end Construction

namespace Catalogue

variable {c : Catalogue}

/-- The construction comes to an end if there is a first production. -/
theorem Valid.collection (valid : c.Valid) {production : Production}
    (first : c.productions[0]? = some production) :
    ∃ state path last, c.stateOf Grammar.startKernel = .ok state ∧ Run c.turn (.start state) path last ∧
      c.collection = .ok ⟨last.states⟩ ∧ path.map (·.queue.head?) = (List.range last.states.length).map some ∧
      Construction.After c last.states.length last := by
  obtain ⟨state, success, _, start⟩ := Construction.exists_start valid first
  obtain ⟨path, last, run, ends⟩ := exists_run
    (fun after => Nat.le_trans after.bound after.length_le)
    (fun after => (after.turn valid).imp And.left fun more => by
      obtain ⟨_, next, _, _, taken, later, _⟩ := more
      exact ⟨next, taken, later⟩) start
  obtain ⟨order, _, count⟩ := start.dequeued valid run
  have steps := Nat.le_trans ends.bound ends.length_le
  rw [Nat.zero_add] at count steps ends
  refine ⟨state, path, last, success, run, ?_, ?_, count ▸ ends⟩
  · unfold Catalogue.collection
    dsimp only
    rw [show SortedSet.ofList [Item.initial 0] = Grammar.startKernel from rfl, success]
    simp only [bind, Except.bind, pure, Except.pure, run.repeated Fault.stepLimit (Nat.lt_succ_of_le steps)]
  · rw [order, count, List.range_eq_range']

theorem collection_of_nil (empty : c.productions = []) : c.collection = .error (.noProduction 0) := by
  have missing : c.grammar.production (Item.initial 0).production = .error (.noProduction 0) := by
    rw [Grammar.production, show c.grammar.productions = [] from empty]
    rfl
  have gone : c.closure (SortedSet.ofList [Item.initial 0]).toList = .error (.noProduction 0) := by
    unfold Catalogue.closure
    rw [show (SortedSet.ofList [Item.initial 0]).toList = [Item.initial 0] from rfl, empty]
    simp only [repeated, serve, calledFor, missing, List.getElem?_cons_zero, bind, Except.bind]
  unfold Catalogue.collection Catalogue.stateOf
  rw [gone]
  rfl

theorem automaton_eq {result : Except Failure Nat} (augmented : c.augment.1 = result) : c.automaton =
    result.bind fun _ => Failure.ofFault c.augment.2.collection := by
  unfold Catalogue.automaton
  cases extended : c.augment with
  | mk outcome grown =>
    rw [extended] at augmented
    subst augmented
    cases outcome <;> rfl

/-- For a valid catalogue all loops come to an end. Items of productions have a closure, a new name is found for
the head of the augmented production, and if there is a first production the construction ends. It has a turn
for each state, in the order of their numbers. No two states have the same kernel, kernels hold items of the
grammar only, and edges lead to states. -/
theorem Valid.automaton_ends (valid : c.Valid) :
    (∀ kernel : Kernel, (∀ item ∈ kernel, item.production < c.productions.length) → ∃ path last,
      Run c.serve ⟨kernel.toList, 0⟩ path last ∧ c.closure kernel.toList = .ok last.items) ∧
    (∀ name, c.index? (c.freshName name) = none) ∧
    (∀ failure, c.augment.1 = .error failure → c.automaton = .error failure) ∧
    (∀ head, c.augment.1 = .ok head → c.augment.2.productions = [] →
      c.automaton = .error (.broken (.noProduction 0))) ∧
    ∀ head production, c.augment.1 = .ok head → c.augment.2.productions[0]? = some production →
      ∃ state path last, c.augment.2.stateOf Grammar.startKernel = .ok state ∧
        Run c.augment.2.turn (.start state) path last ∧ c.automaton = .ok ⟨last.states⟩ ∧
        path.map (·.queue.head?) = (List.range last.states.length).map some ∧
        last.kernels.Nodup ∧
        (∀ kernel ∈ last.kernels, ∀ item ∈ kernel, ∃ production,
          c.augment.2.productions[item.production]? = some production ∧ item.position ≤ production.length) ∧
        ∀ state ∈ last.states, ∀ edge ∈ state.edges, edge.2 < last.states.length := by
  refine ⟨fun kernel known => ?_, c.index?_freshName, fun failure failed => ?_, fun head success empty => ?_,
    fun head production success first => ?_⟩
  · obtain ⟨path, last, run, _, closed, _⟩ := valid.closure known
    exact ⟨path, last, run, closed⟩
  · rw [automaton_eq failed]
    rfl
  · rw [automaton_eq success, collection_of_nil empty]
    rfl
  · obtain ⟨state, path, last, starts, run, collected, order, after⟩ := valid.augment.collection first
    refine ⟨state, path, last, starts, run, ?_, order, after.apart, fun kernel member item inside => ?_,
      fun state member edge among => ?_⟩
    · rw [automaton_eq success, collected]
      rfl
    · exact Grammar.mem_allItems.mp (after.inside kernel member item inside)
    · obtain ⟨_, there⟩ := after.leads state member edge among
      have bound := (List.getElem?_eq_some_iff.mp there).1
      rwa [Construction.kernels, List.length_map] at bound

/-- A non-terminal that lists its productions in disorder, with epsilon and the end mark inside a body. -/
def disordered : Catalogue where
  entries := [.epsilon, .endMark, .nonTerminal 7 "A" [1, 0, 1]]
  names := []
  productions := [⟨2, [0, 2, 1]⟩, ⟨1, []⟩]
  start := some 2
  augmented := none

theorem Valid.automaton_ends_disordered : disordered.Valid ∧ disordered.augment.1 = .ok 3 ∧
    disordered.augment.2.productions[0]? = some ⟨3, [2]⟩ ∧ ∃ (path : List Construction) (last : Construction),
      disordered.automaton = .ok ⟨last.states⟩ ∧
        path.map (·.queue.head?) = (List.range last.states.length).map some := by
  have valid : disordered.Valid := ⟨by decide, by decide, by decide⟩
  obtain ⟨_, _, _, _, ends⟩ := Valid.automaton_ends valid
  obtain ⟨_, path, last, _, _, success, order, _⟩ := ends 3 ⟨3, [2]⟩ rfl rfl
  exact ⟨valid, rfl, rfl, path, last, success, order⟩

end Catalogue

end SimpleLR
