import SimpleLR.Automaton.Construction
import SimpleLR.Proofs.Automaton.Closure
import SimpleLR.Proofs.Grammar.Valid

namespace SimpleLR

section Loops

variable {ε σ : Type} {step : σ → Except ε (Option σ)}

/-- A loop from its first state to its last one, where no step is left to take. A step was taken from every
state of the path. -/
inductive Run (step : σ → Except ε (Option σ)) : σ → List σ → σ → Prop where
  | stop {last : σ} (ended : step last = .ok none) : Run step last [] last
  | step {first next last : σ} {path : List σ} (taken : step first = .ok (some next))
      (rest : Run step next path last) : Run step first (first :: path) last

/-- A loop that ends is not given up if the limit exceeds the number of its steps. -/
theorem Run.repeated {first last : σ} {path : List σ} (run : Run step first path last) (tooMany : ε)
    {limit : Nat} (enough : path.length < limit) : repeated step tooMany limit first = .ok last := by
  induction run generalizing limit with
  | stop ended =>
    obtain ⟨limit, rfl⟩ := Nat.exists_eq_add_of_lt enough
    rw [SimpleLR.repeated, ended]
    rfl
  | step taken rest ih =>
    cases limit with
    | zero => exact absurd enough (Nat.not_lt_zero _)
    | succ limit =>
      rw [SimpleLR.repeated, taken]
      exact ih (Nat.lt_of_succ_lt_succ enough)

/-- A loop ends if each step counts one more and there is a bound to what can be counted. -/
theorem exists_run {counts : Nat → σ → Prop} {bound : Nat}
    (bounded : ∀ {count : Nat} {current : σ}, counts count current → count ≤ bound)
    (progress : ∀ {count : Nat} {current : σ}, counts count current →
      step current = .ok none ∨ ∃ next, step current = .ok (some next) ∧ counts (count + 1) next)
    {count : Nat} {first : σ} (begins : counts count first) :
    ∃ path last, Run step first path last ∧ counts (count + path.length) last := by
  obtain ⟨left, same⟩ := Nat.exists_eq_add_of_le (bounded begins)
  induction left generalizing count first with
  | zero =>
    rcases progress begins with ended | more
    · exact ⟨[], first, .stop ended, begins⟩
    · obtain ⟨next, _, counted⟩ := more
      have beyond := bounded counted
      omega
  | succ left ih =>
    rcases progress begins with ended | more
    · exact ⟨[], first, .stop ended, begins⟩
    · obtain ⟨next, taken, counted⟩ := more
      obtain ⟨path, last, rest, ends⟩ := ih counted (by omega)
      refine ⟨first :: path, last, .step taken rest, ?_⟩
      rwa [List.length_cons, Nat.add_comm path.length, ← Nat.add_assoc]

end Loops

namespace Catalogue

variable {c : Catalogue}

section Items

/-- Items of productions. -/
def Known (c : Catalogue) (items : List Item) : Prop := ∀ item ∈ items, item.production < c.productions.length

/-- What an item of a production calls for are initial items of productions. -/
theorem Valid.calledFor (valid : c.Valid) {item : Item} (known : item.production < c.productions.length) :
    ∃ called, c.calledFor item = .ok called ∧
      ∀ other ∈ called, ∃ index < c.productions.length, other = Item.initial index := by
  have found : c.grammar.production item.production = .ok c.productions[item.production] :=
    Grammar.production_ok (List.getElem?_eq_getElem known)
  unfold Catalogue.calledFor
  rw [found]
  cases dot : c.grammar.afterDot? item with
  | none => exact ⟨[], rfl, nofun⟩
  | some symbol =>
    obtain ⟨production, here, inside⟩ := Grammar.afterDot?_eq_some.mp dot
    have body := Production.mem_body (List.mem_of_getElem? inside)
    have bound := valid.bodies production (List.mem_of_getElem? here) symbol body
    have entry := List.getElem?_eq_getElem bound
    refine ⟨c.entries[symbol].listed.map Item.initial, ?_, fun other member => ?_⟩
    · simp only [productionsOf, entry]
      rfl
    · obtain ⟨index, listed, rfl⟩ := List.mem_map.mp member
      exact ⟨index, valid.listed _ (List.getElem_mem bound) index listed, rfl⟩

/-- After a number of turns as many items have been served. What was added to the items are different initial
items. -/
structure Gathered (c : Catalogue) (items : List Item) (turns : Nat) (gathering : Gathering) : Prop where
  served : gathering.served = turns
  bound : turns ≤ gathering.items.length
  added : ∃ added, gathering.items = items ++ added ∧ added.Nodup ∧
    ∀ item ∈ added, ∃ index < c.productions.length, item = Item.initial index

namespace Gathered

variable {items : List Item} {turns : Nat} {gathering : Gathering}

theorem start (c : Catalogue) (items : List Item) : c.Gathered items 0 ⟨items, 0⟩ :=
  ⟨rfl, Nat.zero_le _, [], (List.append_nil items).symm, List.nodup_nil, nofun⟩

theorem length_le (gathered : c.Gathered items turns gathering) :
    gathering.items.length ≤ items.length + c.productions.length := by
  obtain ⟨added, same, nodup, initial⟩ := gathered.added
  have inside : added ⊆ (List.range c.productions.length).map Item.initial := by
    intro item member
    obtain ⟨index, bound, rfl⟩ := initial item member
    exact List.mem_map_of_mem (List.mem_range.mpr bound)
  have fewer := nodup.length_le_of_subset inside
  rw [List.length_map, List.length_range] at fewer
  rw [same, List.length_append]
  omega

theorem known (gathered : c.Gathered items turns gathering) (known : c.Known items) :
    c.Known gathering.items := by
  obtain ⟨added, same, _, initial⟩ := gathered.added
  intro item member
  rw [same] at member
  rcases List.mem_append.mp member with own | new
  · exact known item own
  · obtain ⟨index, bound, rfl⟩ := initial item new
    exact bound

/-- A turn serves the item whose place is the number of the turn. When there is none, all items were served. -/
theorem serve (gathered : c.Gathered items turns gathering) (valid : c.Valid) (known : c.Known items) :
    (c.serve gathering = .ok none ∧ gathering.items.length ≤ turns) ∨
      ∃ item called next, gathering.items[turns]? = some item ∧ c.calledFor item = .ok called ∧
        c.serve gathering = .ok (some next) ∧ c.Gathered items (turns + 1) next ∧
        next.items = gathering.items ++ fresh gathering.items called := by
  unfold Catalogue.serve
  rw [gathered.served]
  cases here : gathering.items[turns]? with
  | none => exact .inl ⟨rfl, List.getElem?_eq_none_iff.mp here⟩
  | some item =>
    obtain ⟨called, success, initial⟩ := valid.calledFor (gathered.known known item (List.mem_of_getElem? here))
    obtain ⟨added, same, nodup, before⟩ := gathered.added
    refine .inr ⟨item, called, ⟨gathering.items ++ fresh gathering.items called, turns + 1⟩, rfl, success, ?_, ?_, rfl⟩
    · dsimp only
      rw [success]
      rfl
    · refine ⟨rfl, ?_, added ++ fresh gathering.items called, ?_, ?_, ?_⟩
      · have bound := (List.getElem?_eq_some_iff.mp here).1
        rw [List.length_append]
        omega
      · rw [same, List.append_assoc]
      · refine List.nodup_append.mpr ⟨nodup, nodup_fresh _ _, fun item old other new equal => ?_⟩
        apply (mem_fresh.mp new).2
        rw [same, ← equal]
        exact List.mem_append_right items old
      · intro other member
        rcases List.mem_append.mp member with old | new
        · exact before other old
        · exact initial other (mem_fresh.mp new).1

theorem stopped (gathered : c.Gathered items turns gathering) (valid : c.Valid) (known : c.Known items)
    (ended : c.serve gathering = .ok none) : gathering.items.length ≤ turns := by
  rcases gathered.serve valid known with ends | more
  · exact ends.2
  · obtain ⟨_, _, _, _, _, taken, _⟩ := more
    rw [ended] at taken
    cases taken

theorem stepped (gathered : c.Gathered items turns gathering) (valid : c.Valid) (known : c.Known items)
    {next : Gathering} (taken : c.serve gathering = .ok (some next)) :
    c.Gathered items (turns + 1) next ∧ ∃ item called, gathering.items[turns]? = some item ∧
      c.calledFor item = .ok called ∧ next.items = gathering.items ++ fresh gathering.items called := by
  rcases gathered.serve valid known with ends | more
  · rw [ends.1] at taken
    cases taken
  · obtain ⟨item, called, other, here, calls, same, counted, grown⟩ := more
    rw [taken] at same
    obtain rfl := Option.some.inj (Except.ok.inj same)
    exact ⟨counted, item, called, here, calls, grown⟩

end Gathered

/-- The closure of items of productions comes to an end. It begins with the items, and all its items are items
of productions. -/
theorem Valid.closure (valid : c.Valid) {items : List Item} (known : c.Known items) :
    ∃ path last, Run c.serve ⟨items, 0⟩ path last ∧ path.length ≤ items.length + c.productions.length ∧
      c.closure items = .ok last.items ∧ items <+: last.items ∧ c.Known last.items := by
  obtain ⟨path, last, run, ends⟩ := exists_run
    (fun gathered => Nat.le_trans gathered.bound gathered.length_le)
    (fun gathered => (gathered.serve valid known).imp And.left fun more => by
      obtain ⟨_, _, next, _, _, taken, counted, _⟩ := more
      exact ⟨next, taken, counted⟩) (Gathered.start c items)
  obtain ⟨added, same, _⟩ := ends.added
  have steps := Nat.le_trans ends.bound ends.length_le
  rw [Nat.zero_add] at steps
  refine ⟨path, last, run, steps, ?_, ⟨added, same.symm⟩, ends.known known⟩
  unfold Catalogue.closure
  dsimp only
  rw [run.repeated _ (Nat.lt_succ_of_le steps)]
  rfl

end Items

end Catalogue

end SimpleLR
