import SimpleLR.Discovery
import SimpleLR.Lookahead.Family

namespace SimpleLR

/-- A directed graph, edge by edge. -/
structure Dependencies where
  edges : List (Nat × Nat)
  deriving DecidableEq

namespace Dependencies

/-- Where the edges of a node lead. -/
def successors (graph : Dependencies) (node : Nat) : List Nat :=
  (graph.edges.filter (·.1 == node)).map (·.2)

/-- A path from one node to another, with any number of edges. -/
inductive Reaches (graph : Dependencies) (start : Nat) : Nat → Prop
  | here : Reaches graph start start
  | edge {middle target : Nat} (path : Reaches graph start middle)
      (step : (middle, target) ∈ graph.edges) : Reaches graph start target

/-- The nodes that can be reached from a node, itself first, none of them twice. -/
def reachable (graph : Dependencies) (start : Nat) : List Nat :=
  discover (fun _ node => graph.successors node) (graph.edges.length + 1) [] [start]

/-- Adds members to the set of a node and to the sets of all nodes that can be reached from it. -/
def spread (graph : Dependencies) (family : Family) (start : Nat) (members : SymbolSet) : Family :=
  family.addAll (graph.reachable start) members

@[simp] theorem mem_successors {graph : Dependencies} {source target : Nat} :
    target ∈ graph.successors source ↔ (source, target) ∈ graph.edges := by
  simp [successors]

theorem mem_reachable_iff {graph : Dependencies} {start node : Nat} :
    node ∈ graph.reachable start ↔ graph.Reaches start node := by
  constructor
  · refine forall_mem_discover _ (by simpa using Reaches.here) ?_ node
    intro known middle holds member target leads
    exact (holds middle member).edge (mem_successors.mp leads)
  · intro path
    have ⟨begun, led⟩ := discover_complete (fun _ node => graph.successors node)
      (start :: graph.edges.map (·.2))
      (fun _ middle _ _ target leads => by
        simp only [mem_successors] at leads
        exact List.mem_cons_of_mem _ (List.mem_map.mpr ⟨_, leads, rfl⟩))
      (graph.edges.length + 1) [] [start] (by simp) (by simp) (by simp)
    induction path with
    | here => exact begun start (by simp)
    | @edge middle target _ step ih =>
      obtain ⟨before, after, split⟩ := List.append_of_mem ih
      refine led before middle ⟨after, ?_⟩ (Nat.zero_le _) target (mem_successors.mpr step)
      simpa [reachable] using split.symm

end Dependencies

end SimpleLR
