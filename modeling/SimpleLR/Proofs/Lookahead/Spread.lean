import SimpleLR.Lookahead.FirstFollow
import SimpleLR.Proofs.Grammar.Naming
import Mathlib.Logic.Basic

namespace SimpleLR

namespace Family

variable {family : Family} {other member : Nat}

theorem mem_get_add {key : Nat} {more : SymbolSet} :
    member ∈ (family.add key more).get other ↔
      member ∈ family.get other ∨ other = key ∧ member ∈ more := by
  unfold get
  rw [get?_add]
  by_cases same : other = key
  · subst same
    cases family.get? other <;> simp
  · simp [same]

theorem mem_get_addAll {keys : List Nat} {more : SymbolSet} :
    member ∈ (family.addAll keys more).get other ↔
      member ∈ family.get other ∨ other ∈ keys ∧ member ∈ more := by
  unfold addAll
  induction keys generalizing family with
  | nil => simp
  | cons key rest ih =>
    rw [List.foldl_cons, ih, mem_get_add, List.mem_cons, or_and_right, or_assoc]

@[simp] theorem not_mem_get_empty : member ∉ Family.empty.get other := SortedSet.not_mem_empty

theorem mem_get_foldl_add {α : Type} {items : List α} {key : α → Nat} {more : α → SymbolSet} :
    member ∈ (items.foldl (fun family item => family.add (key item) (more item)) family).get other ↔
      member ∈ family.get other ∨ ∃ item ∈ items, other = key item ∧ member ∈ more item := by
  induction items generalizing family with
  | nil => simp
  | cons item rest ih =>
    simp only [List.foldl_cons, ih, mem_get_add, List.mem_cons, exists_eq_or_imp, or_assoc]

end Family

private theorem SortedSet.isEmpty_eq_false_of_mem {s : SymbolSet} {member : Nat} (inside : member ∈ s) :
    s.isEmpty = false := by
  rw [isEmpty, List.isEmpty_eq_false_iff_exists_mem]
  exact ⟨member, inside⟩

namespace Dependencies

theorem Reaches.trans {graph : Dependencies} {start middle target : Nat}
    (first : graph.Reaches start middle) (second : graph.Reaches middle target) :
    graph.Reaches start target := by
  induction second with
  | here => exact first
  | edge _ step ih => exact ih.edge step

theorem mem_get_spread {graph : Dependencies} {family : Family} {start other member : Nat}
    {members : SymbolSet} : member ∈ (graph.spread family start members).get other ↔
      member ∈ family.get other ∨ graph.Reaches start other ∧ member ∈ members := by
  rw [spread, Family.mem_get_addAll, mem_reachable_iff]

end Dependencies

namespace Grammar

variable {g : Grammar}

/-- A member of a set after spreading was there before, or is a seed of a non-terminal that reaches
the set. -/
theorem mem_get_spreadAll {graph : Dependencies} {seeds start : Family} {other member : Nat} :
    member ∈ (g.spreadAll graph seeds start).get other ↔ member ∈ start.get other ∨
      ∃ source, g.isNonTerminal source = true ∧ member ∈ seeds.get source ∧
        graph.Reaches source other := by
  simp only [← mem_nonTerminals]
  unfold spreadAll
  induction g.nonTerminals generalizing start with
  | nil => simp
  | cons source rest ih =>
    simp only [List.foldl_cons, ih, List.mem_cons, exists_eq_or_imp]
    by_cases bare : (seeds.get source).isEmpty = true
    · have outside : member ∉ seeds.get source := fun inside => by
        simp [SortedSet.isEmpty_eq_false_of_mem inside] at bare
      simp [bare, outside]
    · simp only [bare, Bool.false_eq_true, if_false, Dependencies.mem_get_spread, or_assoc, and_comm]

@[simp] theorem not_mem_get_blankFamily {other member : Nat} : member ∉ g.blankFamily.get other := by
  simp [blankFamily, Family.mem_get_addAll]

end Grammar

end SimpleLR
