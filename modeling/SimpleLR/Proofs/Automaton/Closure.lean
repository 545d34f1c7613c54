import SimpleLR.Automaton.Collection
import SimpleLR.Proofs.Grammar.Loading

namespace SimpleLR

theorem waiting_prefix_discover {α : Type} [DecidableEq α] (next : List α → α → List α)
    (turns : Nat) (served waiting more : List α) (enough : waiting.length ≤ turns) :
    served ++ waiting <+: discover next turns served (waiting ++ more) := by
  induction waiting generalizing turns served more with
  | nil => simpa using served_prefix_discover turns served more
  | cons first waiting ih =>
    cases turns with
    | zero => simp at enough
    | succ turns =>
      rw [List.cons_append, discover, List.append_assoc]
      have later := ih turns (served ++ [first])
        (more ++ fresh (served ++ [first] ++ (waiting ++ more)) (next (served ++ [first]) first))
        (by simpa using enough)
      simpa using later

namespace Grammar

variable {g : Grammar}

/-- The items that a set of items calls for in the end, its own items among them. -/
inductive Called (g : Grammar) (items : List Item) : Item → Prop where
  | own {item : Item} (member : item ∈ items) : Called g items item
  | call {item : Item} {symbol index : Nat} (caller : Called g items item)
      (dot : g.afterDot? item = some symbol) (member : index ∈ g.productionsOf symbol) :
      Called g items (Item.initial index)

theorem mem_calledFor {caller item : Item} : item ∈ g.calledFor caller ↔
    ∃ symbol index, g.afterDot? caller = some symbol ∧ index ∈ g.productionsOf symbol ∧
      item = Item.initial index := by
  unfold calledFor
  cases g.afterDot? caller with
  | none => simp
  | some symbol => simp [eq_comm]

theorem prefix_closure (items : List Item) : items <+: g.closure items := by
  have served := waiting_prefix_discover (fun _ item => g.calledFor item)
    (items.length + g.productions.length) [] items [] (Nat.le_add_right _ _)
  simpa [closure] using served

theorem mem_closure {items : List Item} (nodup : items.Nodup) {item : Item} :
    item ∈ g.closure items ↔ g.Called items item := by
  constructor
  · refine forall_mem_discover _ (fun own member => .own (by simpa using member)) ?_ item
    intro known caller holds member called leads
    obtain ⟨symbol, index, dot, inside, rfl⟩ := mem_calledFor.mp leads
    exact .call (holds caller member) dot inside
  · intro called
    have ⟨begun, led⟩ := discover_complete (fun _ item => g.calledFor item)
      (items ++ (List.range g.productions.length).map Item.initial)
      (fun _ caller _ _ called leads => by
        obtain ⟨symbol, index, _, inside, rfl⟩ := mem_calledFor.mp leads
        obtain ⟨_, production, found, _⟩ := mem_productionsOf.mp inside
        have bound := (List.getElem?_eq_some_iff.mp found).1
        exact List.mem_append_right _ (List.mem_map.mpr ⟨index, List.mem_range.mpr bound, rfl⟩))
      (items.length + g.productions.length) [] items (by simpa using nodup)
      (fun own member => List.mem_append_left _ (by simpa using member)) (by simp)
    induction called with
    | own member => exact begun _ member
    | @call caller symbol index _ dot member ih =>
      obtain ⟨before, after, split⟩ := List.append_of_mem ih
      refine led before caller ⟨after, ?_⟩ (Nat.zero_le _) _
        (mem_calledFor.mpr ⟨symbol, index, dot, member, rfl⟩)
      simpa [closure] using split.symm

theorem Called.cases_initial {items : List Item} {item : Item} (called : g.Called items item) :
    item ∈ items ∨ item.position = 0 ∧ ∃ caller symbol, g.Called items caller ∧
      g.afterDot? caller = some symbol ∧ item.production ∈ g.productionsOf symbol := by
  cases called with
  | own member => exact .inl member
  | @call caller symbol index earlier dot member =>
    exact .inr ⟨rfl, caller, symbol, earlier, dot, member⟩

theorem afterDot?_eq_some {item : Item} {symbol : Nat} : g.afterDot? item = some symbol ↔
    ∃ production, g.productions[item.production]? = some production ∧
      production.symbols[item.position]? = some symbol := by
  rw [afterDot?, Option.bind_eq_some_iff]

/-- The rest of a body shows the symbol after the dot. -/
theorem afterDot?_of_drop {item : Item} {production : Production} {symbol : Nat} {form : List Nat}
    (found : g.productions[item.production]? = some production)
    (behind : production.symbols.drop item.position = symbol :: form) :
    g.afterDot? item = some symbol ∧ production.symbols.drop item.advance.position = form := by
  have here : production.symbols[item.position]? = some symbol := by
    rw [← List.head?_drop, behind, List.head?_cons]
  refine ⟨afterDot?_eq_some.mpr ⟨production, found, here⟩, ?_⟩
  rw [Item.advance, ← List.drop_drop, behind]
  rfl

end Grammar

end SimpleLR
