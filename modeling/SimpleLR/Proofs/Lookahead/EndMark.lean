import SimpleLR.Proofs.Grammar.Shape
import SimpleLR.Proofs.Lookahead.ExactFollow

/-! The end mark behind the start symbol. The start symbol is the non-terminal that was added first, and the
end mark is put behind the head of the first production. In a grammar that was put together by hand these
may be different symbols, and then the end mark reaches the start symbol only along a derivation. In the
augmented grammar it always does. -/
namespace SimpleLR.Grammar

variable {g g' : Grammar} {start : Nat}

/-- A grammar put together from nothing, symbol by symbol and production by production. The heads are
non-terminals of the grammar and the bodies hold symbols that were added before. -/
inductive Assembled : Grammar → Prop where
  | empty : Assembled .empty
  | nonTerminal {g : Grammar} (before : Assembled g) (name : Text) : Assembled (g.addNonTerminal name)
  | terminal {g : Grammar} (before : Assembled g) (name : Text) : Assembled (g.addTerminal name)
  | production {g next : Grammar} {head : Nat} {body : List Nat} (before : Assembled g)
      (nonTerminal : g.isNonTerminal head = true)
      (added : ∀ symbol ∈ body, g.isTerminal symbol = true ∨ g.isNonTerminal symbol = true)
      (success : g.addProduction head body = .ok next) : Assembled next

theorem addProduction_eq_ok {head : Nat} {body : List Nat} : g.addProduction head body = .ok g' ↔
    head < g.symbols.length ∧ g.pushProduction head body = g' := by
  unfold addProduction
  split <;> simp [*]

theorem Assembled.augmented (assembled : g.Assembled) : g.augmented = none := by
  induction assembled with
  | empty => rfl
  | nonTerminal _ _ ih => exact ih
  | terminal _ _ ih => exact ih
  | production _ _ _ success ih =>
    obtain ⟨_, rfl⟩ := addProduction_eq_ok.mp success
    exact ih

section Names

theorem shape_addNonTerminal (g : Grammar) (name : Text) :
    (g.addNonTerminal name).shape = g.shape.addNonTerminal [] := by
  simp [addNonTerminal, shape, Symbol.shape]

theorem shape_addTerminal (g : Grammar) (name : Text) :
    (g.addTerminal name).shape = g.shape.addTerminal [] := by
  simp [addTerminal, shape, Symbol.shape]

theorem shape_pushProduction (g : Grammar) (head : Nat) (body : List Nat) :
    (g.pushProduction head body).shape = g.shape.pushProduction head body := rfl

private theorem fits_assembled {head : Nat} {body : List Nat} (nonTerminal : g.isNonTerminal head = true)
    (added : ∀ symbol ∈ body, g.isTerminal symbol = true ∨ g.isNonTerminal symbol = true) :
    g.Fits ⟨head, if body.isEmpty then [epsilonIndex] else body⟩ := by
  refine ⟨nonTerminal, ?_, fun symbol inside => ?_⟩
  · cases body <;> simp
  · cases body with
    | nil => simp [Production.symbols, Production.isEpsilon] at inside
    | cons first rest => exact added symbol (by simpa using Production.mem_body inside)

/-- Two symbols of an assembled grammar may have the same name. With other names the grammar is well
formed. -/
theorem Assembled.exists_wellFormed (assembled : g.Assembled) :
    ∃ named : Grammar, named.WellFormed ∧ named.shape = g.shape := by
  induction assembled with
  | empty => exact ⟨.empty, .empty, rfl⟩
  | @nonTerminal g _ name ih =>
    obtain ⟨named, formed, same⟩ := ih
    refine ⟨_, formed.addNonTerminal (named.index?_freshName name), ?_⟩
    rw [shape_addNonTerminal, shape_addNonTerminal, same]
  | @terminal g _ name ih =>
    obtain ⟨named, formed, same⟩ := ih
    refine ⟨_, formed.addTerminal (named.index?_freshName name), ?_⟩
    rw [shape_addTerminal, shape_addTerminal, same]
  | @production g _ head body _ nonTerminal added success ih =>
    obtain ⟨named, formed, same⟩ := ih
    obtain ⟨_, rfl⟩ := addProduction_eq_ok.mp success
    have fits : named.Fits ⟨head, if body.isEmpty then [epsilonIndex] else body⟩ := by
      apply fits_assembled
      · rwa [isNonTerminal_of_shape same]
      · rwa [isNonTerminal_of_shape same, isTerminal_of_shape same]
    refine ⟨_, formed.pushProduction fits, ?_⟩
    rw [shape_pushProduction, shape_pushProduction, same]

end Names

theorem Derives.of_productions {form last : List Nat} (same : g.productions = g'.productions)
    (path : g.Derives form last) : g'.Derives form last := by
  induction path with
  | refl => exact .refl
  | step _ rewrites ih =>
    obtain ⟨found, before, after⟩ := rewrites
    exact ih.step (.here (same ▸ found) before after)

/-- In a well-formed grammar the end mark follows a non-terminal exactly if the first head derives something
that ends with it. -/
theorem WellFormed.endMark_mem_follow_iff (formed : g.WellFormed) {symbol : Nat}
    (nonTerminal : g.isNonTerminal symbol = true) : endMarkIndex ∈ g.firstFollow.follow.get symbol ↔
      ∃ first before, g.productions[0]? = some first ∧ g.Derives [first.head] (before ++ [symbol]) := by
  constructor
  · intro inside
    rcases formed.cases_of_mem_follow inside with ⟨terminal, _⟩ | ⟨_, ends⟩
    · rw [formed.isTerminal_endMark] at terminal
      cases terminal
    · exact ends
  · intro ends
    obtain ⟨first, before, leads, path⟩ := ends
    exact formed.endMark_mem_follow_of_last leads nonTerminal path

/-- Once the grammar is augmented, the end mark comes to the start symbol from the new head. -/
theorem AugmentedFrom.endMark_mem_follow_start (from' : g.AugmentedFrom start g')
    (nonTerminal : g.isNonTerminal start = true) (proper : start ≠ epsilonIndex) :
    endMarkIndex ∈ g'.firstFollow.follow.get start := by
  have leads : g'.productions.head? = some ⟨g.symbols.length, [start]⟩ := by
    rw [from'.productions, List.head?_cons]
  have goal : g'.isNonTerminal g.symbols.length = true := by simp [from'.isNonTerminal]
  have last : g'.Occurs g.symbols.length start [] := by
    refine ⟨by simp [from'.isNonTerminal, nonTerminal], _, List.mem_of_mem_head? leads, rfl, [], ?_⟩
    simp [Production.symbols, Production.isEpsilon, proper]
  have edge : (g.symbols.length, start) ∈ (g'.followGraph g'.firstSets).edges :=
    mem_followGraph_edges.mpr ⟨[], last, by simp [firstOfString]⟩
  exact mem_follow.mpr ⟨_, goal, .ends leads rfl, Dependencies.Reaches.here.edge edge⟩

/-- The start symbol of an assembled grammar is followed by the end mark exactly if the head of the first
production derives something that ends with the start symbol. In the augmented grammar it is followed by the
end mark in any case. -/
theorem Assembled.endMark_follows (assembled : g.Assembled) (chosen : g.start = some start) :
    (∃ set, g.firstFollow.follow.get? start = some set ∧ (endMarkIndex ∈ set ↔
      ∃ first before, g.productions[0]? = some first ∧ g.Derives [first.head] (before ++ [start]))) ∧
    ∃ g' set, g.augment = .ok g' ∧ g'.firstFollow.follow.get? start = some set ∧ endMarkIndex ∈ set := by
  obtain ⟨named, formed, same⟩ := assembled.exists_wellFormed
  have begins : named.start = g.start := (congrArg Grammar.start same :)
  have proper := formed.chosen (begins.trans chosen)
  have nonTerminal : g.isNonTerminal start = true := by rwa [← isNonTerminal_of_shape same]
  have productions := productions_of_shape same
  constructor
  · refine ⟨_, get?_follow nonTerminal, ?_⟩
    rw [← firstFollow_of_shape same, formed.endMark_mem_follow_iff proper, productions]
    refine exists_congr fun first => exists_congr fun before => and_congr_right fun _ => ?_
    exact ⟨.of_productions productions, .of_productions productions.symm⟩
  · have extended := augment_of_name assembled.augmented chosen (name_ok (lt_of_isNonTerminal nonTerminal))
    obtain ⟨other, from'⟩ := augment_eq_ok assembled.augmented extended
    obtain rfl := Option.some.inj (chosen.symm.trans from'.chosen)
    have apart : start ≠ epsilonIndex := by
      rintro rfl
      rw [formed.isNonTerminal_epsilon] at proper
      cases proper
    refine ⟨_, _, extended, get?_follow ?_, from'.endMark_mem_follow_start nonTerminal apart⟩
    simp [from'.isNonTerminal, nonTerminal]

/-- The non-terminals `A` and `B` with `B -> b` and then `A -> b`: the start symbol heads the second
production. -/
def belated : Grammar where
  symbols := [.epsilon, .endMark, .nonTerminal "A", .nonTerminal "B", .terminal "b"]
  productions := [⟨3, [4]⟩, ⟨2, [4]⟩]
  start := some 2
  augmented := none

theorem assembled_belated : belated.Assembled := by
  have symbols : Assembled { belated with productions := [] } :=
    .terminal (.nonTerminal (.nonTerminal .empty "A") "B") "b"
  have added {g : Grammar} (terminal : g.isTerminal 4 = true) :
      ∀ symbol ∈ [4], g.isTerminal symbol = true ∨ g.isNonTerminal symbol = true :=
    List.forall_mem_singleton.mpr (.inl terminal)
  have first : Assembled { belated with productions := [⟨3, [4]⟩] } :=
    .production symbols (show _ = true from rfl) (added rfl) (show Grammar.addProduction _ 3 [4] = _ from rfl)
  exact .production first (show _ = true from rfl) (added rfl) (show Grammar.addProduction _ 2 [4] = _ from rfl)

/-- Nothing that `B` derives ends with `A`. The augmented grammar derives `A` from the new head. -/
theorem Assembled.endMark_follows_belated : belated.Assembled ∧ belated.start = some 2 ∧
    (¬ ∃ before, belated.Derives [3] (before ++ [2])) ∧
    ∃ g' set, belated.augment = .ok g' ∧ g'.firstFollow.follow.get? 2 = some set ∧ endMarkIndex ∈ set := by
  obtain ⟨⟨set, found, ends⟩, augmented⟩ := assembled_belated.endMark_follows rfl
  have evaluated : (belated.firstFollow.follow.get? 2).any (fun set => decide (endMarkIndex ∉ set)) = true := by
    decide +kernel
  rw [found, Option.any_some, decide_eq_true_eq] at evaluated
  refine ⟨assembled_belated, rfl, fun holds => ?_, augmented⟩
  obtain ⟨before, path⟩ := holds
  exact evaluated (ends.mpr ⟨_, before, rfl, path⟩)

/-- It is not so that the end mark always follows the start symbol, even if the start symbol heads a
production. -/
theorem not_always_endMark : ¬ ∀ (g : Grammar) (start : Nat), g.Assembled → g.start = some start →
    (∃ production ∈ g.productions, production.head = start) →
      endMarkIndex ∈ g.firstFollow.follow.get start := by
  intro always
  have heads : ∃ production ∈ belated.productions, production.head = 2 := ⟨⟨2, [4]⟩, by decide, rfl⟩
  have inside := always belated 2 assembled_belated rfl heads
  have outside : endMarkIndex ∉ belated.firstFollow.follow.get 2 := by decide +kernel
  exact outside inside

end SimpleLR.Grammar
