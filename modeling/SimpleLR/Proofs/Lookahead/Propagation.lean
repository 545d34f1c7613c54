import SimpleLR.Proofs.Lookahead.ExactFirst

/-! Members on their way through a graph. Nodes wait on a stack, some of them perhaps more than once; the one on
top is taken, and unless it was visited before, its set gets the members and the targets of its edges that were not
visited are put on the stack, in whatever order. Every order comes to an end, and in the end all sets are as
spreading along reachability makes them. -/
namespace SimpleLR

namespace Family

/-- Two families that keep the same sets, in whatever order they were made. -/
def Same (first second : Family) : Prop := ∀ key, first.get? key = second.get? key

private theorem same_of_members {first second : Family}
    (known : ∀ key, (first.get? key).isSome = true ↔ (second.get? key).isSome = true)
    (inside : ∀ key member, member ∈ first.get key ↔ member ∈ second.get key) : first.Same second := by
  intro key
  have members := SortedSet.ext (inside key)
  have both := known key
  unfold get at members
  cases left : first.get? key <;> cases right : second.get? key <;> simp_all

end Family

/-- Members on their way: the nodes visited so far, those that wait, the next one first, and the sets by now. -/
structure Propagation where
  visited : List Nat
  stack : List Nat
  family : Family

namespace Propagation

/-- Nothing is visited, and one node waits. -/
def start (family : Family) (node : Nat) : Propagation := ⟨[], [node], family⟩

/-- How much there is to do at most: the nodes that wait, and the edges of nodes that were not visited. -/
def work (graph : Dependencies) (current : Propagation) : Nat :=
  current.stack.length + (graph.edges.filter fun edge => decide (edge.1 ∉ current.visited)).length

end Propagation

namespace Dependencies

variable {graph : Dependencies} {members : SymbolSet}

/-- A turn of the loop: the next node is passed over or visited. The order in which the targets of its edges are put
on the stack is left open. -/
inductive Turn (graph : Dependencies) (members : SymbolSet) : Propagation → Propagation → Prop where
  | pass {visited stack : List Nat} {family : Family} {node : Nat} (seen : node ∈ visited) :
      Turn graph members ⟨visited, node :: stack, family⟩ ⟨visited, stack, family⟩
  | visit {visited stack order : List Nat} {family : Family} {node : Nat} (new : node ∉ visited)
      (once : order.Nodup)
      (leads : ∀ target, target ∈ order ↔ (node, target) ∈ graph.edges ∧ target ∉ node :: visited) :
      Turn graph members ⟨visited, node :: stack, family⟩
        ⟨node :: visited, order ++ stack, family.add node members⟩

/-- Some turns, one after the other. -/
inductive Turns (graph : Dependencies) (members : SymbolSet) : Nat → Propagation → Propagation → Prop where
  | none {current : Propagation} : Turns graph members 0 current current
  | more {count : Nat} {first next last : Propagation} (turn : Turn graph members first next)
      (rest : Turns graph members count next last) : Turns graph members (count + 1) first last

/-- The loop leaves a family, once no node waits. -/
def Propagates (graph : Dependencies) (family : Family) (node : Nat) (members : SymbolSet) (last : Family) : Prop :=
  ∃ count ended, graph.Turns members count (.start family node) ended ∧ ended.stack = [] ∧ ended.family = last

/-- The loop run for several nodes, each with its own members. -/
inductive PropagatesAll (graph : Dependencies) : Family → List (Nat × SymbolSet) → Family → Prop where
  | done {family : Family} : PropagatesAll graph family [] family
  | next {family middle last : Family} {node : Nat} {members : SymbolSet} {seeds : List (Nat × SymbolSet)}
      (first : graph.Propagates family node members middle) (rest : PropagatesAll graph middle seeds last) :
      PropagatesAll graph family ((node, members) :: seeds) last

section Ending

/-- Each turn leaves less to do. A node that is visited puts no more nodes on the stack than it has edges, and these
do not count any more. -/
theorem Turn.work_lt {current next : Propagation} (turn : graph.Turn members current next) :
    next.work graph < current.work graph := by
  cases turn with
  | pass => simp [Propagation.work]
  | @visit visited stack order family node new once leads =>
    have own : order.length ≤ (graph.edges.filter (·.1 == node)).length := by
      have inside : order ⊆ graph.successors node := fun target member =>
        mem_successors.mpr ((leads target).mp member).1
      simpa [successors] using once.length_le_of_subset inside
    -- The edges that counted are those of the node, which pay for what is put on the stack, and those that still do.
    have parts : (graph.edges.filter fun edge => decide (edge.1 ∉ visited)).length =
        (graph.edges.filter (·.1 == node)).length +
          (graph.edges.filter fun edge => decide (edge.1 ∉ node :: visited)).length := by
      rw [← List.countP_eq_length_filter, ← List.countP_eq_length_filter, ← List.countP_eq_length_filter,
        List.countP_eq_countP_filter_add _ _ (·.1 == node), List.countP_filter, List.countP_filter]
      congr 1
      · refine List.countP_congr fun edge _ => ?_
        by_cases same : edge.1 = node
        · simp [same, new]
        · simp [same]
      · refine List.countP_congr fun edge _ => ?_
        by_cases same : edge.1 = node <;> simp [same]
    simp only [Propagation.work, List.length_append, List.length_cons, parts]
    omega

private theorem Turns.add_work_le {count : Nat} {first last : Propagation}
    (turns : graph.Turns members count first last) :
    count + last.work graph ≤ first.work graph := by
  induction turns with
  | none => exact (Nat.zero_add _).le
  | more turn _ ih =>
    have less := turn.work_lt
    omega

theorem exists_turn (graph : Dependencies) (members : SymbolSet) {current : Propagation}
    (waits : current.stack ≠ []) : ∃ next, graph.Turn members current next := by
  obtain ⟨visited, stack, family⟩ := current
  obtain ⟨node, stack, rfl⟩ := List.exists_cons_of_ne_nil waits
  by_cases seen : node ∈ visited
  · exact ⟨_, .pass seen⟩
  · refine ⟨_, Turn.visit seen (nodup_fresh (node :: visited) (graph.successors node)) fun target => ?_⟩
    rw [mem_fresh, mem_successors]

private theorem exists_turns (graph : Dependencies) (members : SymbolSet) (current : Propagation) :
    ∃ count ended, graph.Turns members count current ended ∧ ended.stack = [] := by
  induction left : current.work graph using Nat.strongRecOn generalizing current with
  | ind left ih =>
    by_cases finished : current.stack = []
    · exact ⟨0, current, .none, finished⟩
    · obtain ⟨next, turn⟩ := graph.exists_turn members finished
      obtain ⟨count, ended, turns, empty⟩ := ih _ (left ▸ turn.work_lt) next rfl
      exact ⟨count + 1, ended, .more turn turns, empty⟩

theorem exists_propagates (graph : Dependencies) (family : Family) (node : Nat) (members : SymbolSet) :
    ∃ last, graph.Propagates family node members last := by
  obtain ⟨count, ended, turns, empty⟩ := graph.exists_turns members (.start family node)
  exact ⟨ended.family, count, ended, turns, empty, rfl⟩

end Ending

/-- What holds after any number of turns: only reachable nodes were visited or wait, all targets of visited nodes were
visited or wait, and the sets of the visited nodes have the members. -/
structure Visits (graph : Dependencies) (members : SymbolSet) (family : Family) (node : Nat) (current : Propagation) :
    Prop where
  begun : node ∈ current.visited ∨ node ∈ current.stack
  reached : ∀ other, other ∈ current.visited ∨ other ∈ current.stack → graph.Reaches node other
  closed : ∀ source ∈ current.visited, ∀ target, (source, target) ∈ graph.edges →
    target ∈ current.visited ∨ target ∈ current.stack
  sets : ∀ other, current.family.get? other =
    if other ∈ current.visited then some ((family.get? other).elim members (· ∪ members)) else family.get? other

namespace Visits

variable {family : Family} {node : Nat} {current next : Propagation}

theorem start (graph : Dependencies) (members : SymbolSet) (family : Family) (node : Nat) :
    graph.Visits members family node (.start family node) where
  begun := .inr List.mem_cons_self
  reached := by
    intro other waits
    have same : other = node := by simpa [Propagation.start] using waits
    exact same ▸ .here
  closed := nofun
  sets := fun other => (if_neg List.not_mem_nil).symm

theorem turn (visits : graph.Visits members family node current) (turn : graph.Turn members current next) :
    graph.Visits members family node next := by
  obtain ⟨begun, reached, closed, sets⟩ := visits
  cases turn with
  | @pass visited stack _ top seen =>
    have kept {other : Nat} : other ∈ visited ∨ other ∈ top :: stack ↔ other ∈ visited ∨ other ∈ stack := by
      rw [List.mem_cons]
      refine ⟨fun member => ?_, Or.imp_right .inr⟩
      rcases member with old | rfl | waits
      · exact .inl old
      · exact .inl seen
      · exact .inr waits
    exact ⟨kept.mp begun, fun other member => reached other (kept.mpr member),
      fun source old target edge => kept.mp (closed source old target edge), sets⟩
  | @visit visited stack order before top new once leads =>
    have kept {other : Nat} (member : other ∈ visited ∨ other ∈ top :: stack) :
        other ∈ top :: visited ∨ other ∈ order ++ stack := by
      rw [List.mem_cons, List.mem_append]
      rcases member with old | member
      · exact .inl (.inr old)
      · exact (List.mem_cons.mp member).imp .inl .inr
    have path : graph.Reaches node top := reached top (.inr List.mem_cons_self)
    constructor
    case begun => exact kept begun
    case reached =>
      intro other member
      rw [List.mem_cons, List.mem_append] at member
      rcases member with (rfl | old) | pushed | waits
      · exact path
      · exact reached other (.inl old)
      · exact path.edge ((leads other).mp pushed).1
      · exact reached other (.inr (List.mem_cons_of_mem top waits))
    case closed =>
      intro source member target edge
      -- Only nodes that were visited before are not put on the stack.
      rcases List.mem_cons.mp member with rfl | old
      · by_cases known : target ∈ source :: visited
        · exact .inl known
        · exact .inr (List.mem_append_left stack ((leads target).mpr ⟨edge, known⟩))
      · exact kept (closed source old target edge)
    case sets =>
      intro other
      rw [Family.get?_add, sets top, if_neg new]
      by_cases same : other = top
      · rw [if_pos same, same, if_pos List.mem_cons_self]
      · rw [if_neg same, sets other]
        simp [same]

theorem turns {count : Nat} {last : Propagation} (visits : graph.Visits members family node current)
    (turns : graph.Turns members count current last) : graph.Visits members family node last := by
  induction turns with
  | none => exact visits
  | more turn _ ih => exact ih (visits.turn turn)

/-- When no node waits, the visited nodes are the reachable ones. -/
theorem mem_visited_iff (visits : graph.Visits members family node current) (finished : current.stack = [])
    {other : Nat} : other ∈ current.visited ↔ graph.Reaches node other := by
  have settled {other : Nat} (member : other ∈ current.visited ∨ other ∈ current.stack) :
      other ∈ current.visited := by simpa [finished] using member
  refine ⟨fun member => visits.reached other (.inl member), fun path => ?_⟩
  induction path with
  | here => exact settled visits.begun
  | edge _ edge ih => exact settled (visits.closed _ ih _ edge)

end Visits

/-- What a family gains along a graph: the nodes that can be reached from the seeds have sets, and these have the
members of their seeds. -/
structure Gains (graph : Dependencies) (family : Family) (seeds : List (Nat × SymbolSet)) (last : Family) : Prop where
  known : ∀ key, (last.get? key).isSome = true ↔
    (family.get? key).isSome = true ∨ ∃ seed ∈ seeds, graph.Reaches seed.1 key
  inside : ∀ key member, member ∈ last.get key ↔
    member ∈ family.get key ∨ ∃ seed ∈ seeds, graph.Reaches seed.1 key ∧ member ∈ seed.2

section Gains

variable {family middle last other : Family} {node : Nat} {seed : Nat × SymbolSet}
  {seeds reordered : List (Nat × SymbolSet)}

theorem Gains.none (graph : Dependencies) (family : Family) : graph.Gains family [] family :=
  ⟨by simp, by simp⟩

theorem Gains.next (first : graph.Gains family [seed] middle) (rest : graph.Gains middle seeds last) :
    graph.Gains family (seed :: seeds) last := by
  constructor
  · intro key
    simp [rest.known, first.known, or_assoc]
  · intro key member
    simp [rest.inside, first.inside, or_assoc]

/-- The gains fix the family, whatever the order of the seeds. -/
theorem Gains.same (gains : graph.Gains family seeds last) (perm : seeds.Perm reordered)
    (others : graph.Gains family reordered other) : other.Same last := by
  refine Family.same_of_members (fun key => ?_) fun key member => ?_
  · simp only [gains.known, others.known, perm.mem_iff]
  · simp only [gains.inside, others.inside, perm.mem_iff]

theorem Propagates.get?_eq (propagates : graph.Propagates family node members last) (key : Nat) :
    (graph.Reaches node key → last.get? key = some ((family.get? key).elim members (· ∪ members))) ∧
      (¬ graph.Reaches node key → last.get? key = family.get? key) := by
  obtain ⟨count, ended, turns, finished, rfl⟩ := propagates
  have visits := (Visits.start graph members family node).turns turns
  rw [visits.sets, ← visits.mem_visited_iff finished]
  exact ⟨fun visited => if_pos visited, fun apart => if_neg apart⟩

theorem Propagates.gains (propagates : graph.Propagates family seed.1 seed.2 last) :
    graph.Gains family [seed] last := by
  constructor
  · intro key
    obtain ⟨inside, outside⟩ := propagates.get?_eq key
    by_cases path : graph.Reaches seed.1 key
    · simp [inside path, path]
    · simp [outside path, path]
  · intro key member
    obtain ⟨inside, outside⟩ := propagates.get?_eq key
    by_cases path : graph.Reaches seed.1 key
    · simp only [Family.get, inside path]
      cases family.get? key <;> simp [path]
    · simp [Family.get, outside path, path]

theorem PropagatesAll.gains (propagates : graph.PropagatesAll family seeds last) : graph.Gains family seeds last := by
  induction propagates with
  | done => exact .none graph _
  | next first _ ih => exact first.gains.next ih

private theorem exists_propagatesAll (graph : Dependencies) (family : Family) (seeds : List (Nat × SymbolSet)) :
    ∃ last, graph.PropagatesAll family seeds last := by
  induction seeds generalizing family with
  | nil => exact ⟨family, .done⟩
  | cons seed rest ih =>
    obtain ⟨middle, first⟩ := graph.exists_propagates family seed.1 seed.2
    obtain ⟨last, later⟩ := ih middle
    exact ⟨last, .next first later⟩

private theorem gains_spread (graph : Dependencies) (family : Family) (seed : Nat × SymbolSet) :
    graph.Gains family [seed] (graph.spread family seed.1 seed.2) := by
  constructor
  · intro key
    rw [spread, Family.isSome_get?_addAll, mem_reachable_iff, or_comm]
    simp
  · intro key member
    rw [mem_get_spread]
    simp

private theorem gains_foldl_spread (graph : Dependencies) (family : Family) (seeds : List (Nat × SymbolSet)) :
    graph.Gains family seeds (seeds.foldl (fun family seed => graph.spread family seed.1 seed.2) family) := by
  induction seeds generalizing family with
  | nil => exact .none graph family
  | cons seed rest ih => exact (graph.gains_spread family seed).next (ih _)

end Gains

/-- The loop ends for every graph, every family, every node and all members, after at most one turn more than there
are edges, and it stops only when no node waits. Whatever the order in which targets are put on the stack, it
gives the members to the sets of the nodes that can be reached, and changes no other set. Run for several nodes, one
after the other, it leaves the same family in every order of the nodes, which is what spreading along reachability
gives. -/
theorem propagation_exact (graph : Dependencies) (family : Family) (node : Nat) (members : SymbolSet) :
    (∀ count current, graph.Turns members count (.start family node) current →
      count ≤ graph.edges.length + 1 ∧
        (current.stack = [] ↔ ¬ ∃ next, graph.Turn members current next)) ∧
    (∃ last, graph.Propagates family node members last) ∧
    (∀ last, graph.Propagates family node members last → ∀ other,
      (graph.Reaches node other →
        last.get? other = some ((family.get? other).elim members (· ∪ members))) ∧
      (¬ graph.Reaches node other → last.get? other = family.get? other)) ∧
    ∀ seeds, (∃ last, graph.PropagatesAll family seeds last) ∧
      ∀ last, graph.PropagatesAll family seeds last →
        (seeds.foldl (fun family seed => graph.spread family seed.1 seed.2) family).Same last ∧
        ∀ reordered other, seeds.Perm reordered → graph.PropagatesAll family reordered other → other.Same last := by
  refine ⟨fun count current turns => ⟨?_, ?_⟩, graph.exists_propagates family node members,
    fun last propagates => propagates.get?_eq, fun seeds => ⟨graph.exists_propagatesAll family seeds, ?_⟩⟩
  · have bound := turns.add_work_le
    have begins : (Propagation.start family node).work graph = graph.edges.length + 1 := by
      simp [Propagation.work, Propagation.start, Nat.add_comm]
    omega
  · constructor
    · rintro finished ⟨next, turn⟩
      cases turn <;> cases finished
    · intro stopped
      by_contra waits
      exact stopped (graph.exists_turn members waits)
  · intro last propagates
    exact ⟨propagates.gains.same (.refl _) (graph.gains_foldl_spread family seeds),
      fun reordered other perm later => propagates.gains.same perm later.gains⟩

/-- A cycle of two nodes, one of them with an edge to itself, and a node that only leads there. -/
def knot : Dependencies := ⟨[(2, 3), (3, 2), (3, 3), (4, 3)]⟩

/-- From `2` the members come to `3` once, whether its edge to itself or the one back is put on the stack first, and
not to `4`. -/
theorem propagation_exact_knot : ∃ last, knot.Propagates .empty 2 (.ofList [7]) last ∧
    last.get? 2 = some (.ofList [7]) ∧ last.get? 3 = some (.ofList [7]) ∧ last.get? 4 = none := by
  obtain ⟨_, ⟨last, ran⟩, sets, _⟩ := propagation_exact knot .empty 2 (.ofList [7])
  refine ⟨last, ran, (sets last ran 2).1 .here, (sets last ran 3).1 (.edge .here (by decide)),
    (sets last ran 4).2 fun path => ?_⟩
  cases path with
  | edge _ step => simp [knot] at step

end Dependencies

end SimpleLR
