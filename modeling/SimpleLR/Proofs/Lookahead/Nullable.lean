import SimpleLR.Proofs.Lookahead.ExactFirst

/-! Which symbols derive the empty string. The marked symbols can be found in place: a loop takes them
one by one, writes epsilon over them in copies of the bodies, and marks the heads of the bodies that
hold nothing else by then. At any turn the copies are the bodies with epsilon for the symbols taken so
far, so when no symbol is left to take, the marked symbols are the erasable ones. -/
namespace SimpleLR

/-- The marking of symbols under way: what is left of each production, the symbols marked so far in the
order of their marking, and those of them that are still to be taken, the last one marked first. -/
structure Marking where
  remains : List Production
  marked : List Nat
  pending : List Nat

namespace Marking

/-- The production with epsilon written over a symbol of its body. -/
def erased (symbol : Nat) (production : Production) : Production :=
  { production with
    body := production.body.map fun other => if other = symbol then epsilonIndex else other }

/-- The heads whose bodies hold nothing but epsilon any more. -/
def vanished (remains : List Production) : List Nat :=
  (remains.filter (·.body.all (· == epsilonIndex))).map (·.head)

/-- Marks symbols one after the other, each unless it is marked already. Only then it has to be taken. -/
def mark (marking : Marking) (symbols : List Nat) : Marking :=
  let new := fresh marking.marked symbols
  { marking with marked := marking.marked ++ new, pending := new.reverse ++ marking.pending }

/-- Takes the next symbol, if there is one. -/
def turn (marking : Marking) : Marking :=
  match marking.pending with
  | [] => marking
  | symbol :: pending =>
    let remains := marking.remains.map (erased symbol)
    Marking.mark ⟨remains, marking.marked, pending⟩ (vanished remains)

end Marking

namespace Grammar

/-- The marking after a number of turns. It starts with the heads of the epsilon productions. -/
def marking (g : Grammar) : (turns : Nat) → Marking
  | 0 => Marking.mark ⟨g.productions, [], []⟩ ((g.productions.filter Production.isEpsilon).map (·.head))
  | turns + 1 => (g.marking turns).turn

/-- The sets as the marking leaves them: epsilon in the FIRST sets of the marked symbols, and nothing
else. -/
def markedSets (g : Grammar) : FirstFollow :=
  ⟨g.blankFamily.addAll g.erasable (.ofList [epsilonIndex]), g.blankFamily⟩

end Grammar

namespace Marking

/-- The production with epsilon written over all symbols of a list. -/
def cleared (taken : List Nat) (production : Production) : Production :=
  { production with
    body := production.body.map fun symbol => if symbol ∈ taken then epsilonIndex else symbol }

private theorem cleared_nil (production : Production) : cleared [] production = production := by
  simp [cleared]

private theorem erased_cleared (taken : List Nat) (symbol : Nat) (production : Production) :
    erased symbol (cleared taken production) = cleared (taken ++ [symbol]) production := by
  simp only [erased, cleared, List.map_map, Production.mk.injEq, true_and, List.map_inj_left,
    Function.comp_apply, List.mem_append, List.mem_singleton]
  intro other _
  by_cases old : other ∈ taken
  · simp [old]
  · simp [old]

/-- A body has vanished once all its symbols are epsilon or have been taken. -/
theorem mem_vanished {taken : List Nat} {productions : List Production} {head : Nat} :
    head ∈ vanished (productions.map (cleared taken)) ↔ ∃ production ∈ productions,
      production.head = head ∧ ∀ symbol ∈ production.body, symbol = epsilonIndex ∨ symbol ∈ taken := by
  have kept (production : Production) : (cleared taken production).body.all (· == epsilonIndex) = true ↔
      ∀ symbol ∈ production.body, symbol = epsilonIndex ∨ symbol ∈ taken := by
    simp only [cleared, List.all_map, List.all_eq_true, Function.comp_apply, beq_iff_eq]
    refine forall₂_congr fun symbol _ => ?_
    by_cases old : symbol ∈ taken
    · simp [old]
    · simp [old]
  simp only [vanished, List.mem_map, List.mem_filter]
  constructor
  · rintro ⟨_, ⟨⟨production, present, rfl⟩, bare⟩, rfl⟩
    exact ⟨production, present, rfl, (kept production).mp bare⟩
  · rintro ⟨production, present, rfl, bare⟩
    exact ⟨_, ⟨⟨production, present, rfl⟩, (kept production).mpr bare⟩, rfl⟩

private theorem mem_marked_mark {marking : Marking} {symbols : List Nat} {symbol : Nat} :
    symbol ∈ (marking.mark symbols).marked ↔ symbol ∈ marking.marked ∨ symbol ∈ symbols := by
  rw [mark, List.mem_append, mem_fresh]
  tauto

private theorem mark_perm {marking : Marking} {taken : List Nat}
    (split : marking.marked.Perm (taken ++ marking.pending)) (symbols : List Nat) :
    (marking.mark symbols).marked.Perm (taken ++ (marking.mark symbols).pending) := by
  refine (split.append_right _).trans ?_
  rw [List.append_assoc]
  refine List.Perm.append_left _ (List.perm_append_comm.trans ?_)
  exact List.Perm.append_right _ (List.reverse_perm _).symm

/-- What holds of a marking after `taken` were taken. -/
structure After (g : Grammar) (taken : List Nat) (marking : Marking) : Prop where
  remains : marking.remains = g.productions.map (cleared taken)
  marked : marking.marked.Perm (taken ++ marking.pending)
  once : marking.marked.Nodup
  sound : ∀ head ∈ marking.marked, head ∈ g.erasable
  heads : ∀ head ∈ marking.marked, head ∈ g.productions.map (·.head)
  begun : ∀ production ∈ g.productions, production.isEpsilon = true → production.head ∈ marking.marked
  closed : taken ≠ [] → ∀ production ∈ g.productions,
    (∀ symbol ∈ production.body, symbol = epsilonIndex ∨ symbol ∈ taken) →
      production.head ∈ marking.marked

namespace After

variable {g : Grammar} {marking : Marking} {taken : List Nat}

theorem start : After g [] (g.marking 0) where
  remains := by
    rw [Grammar.marking, mark, List.map_congr_left fun production _ => cleared_nil production, List.map_id']
  marked := by simp [Grammar.marking, mark, List.perm_reverse]
  once := by simpa [Grammar.marking, mark] using nodup_fresh _ _
  sound := by
    intro head inside
    rw [Grammar.marking, mark, List.nil_append, mem_fresh, List.mem_map] at inside
    obtain ⟨⟨production, kept, rfl⟩, _⟩ := inside
    obtain ⟨present, epsilon⟩ := List.mem_filter.mp kept
    exact Grammar.mem_erasable_of_isEpsilon present epsilon
  heads := by
    intro head inside
    rw [Grammar.marking, mark, List.nil_append, mem_fresh, List.mem_map] at inside
    obtain ⟨⟨production, kept, rfl⟩, _⟩ := inside
    exact List.mem_map_of_mem (List.mem_filter.mp kept).1
  begun := by
    intro production present epsilon
    rw [Grammar.marking, mark, List.nil_append, mem_fresh]
    exact ⟨List.mem_map_of_mem (List.mem_filter.mpr ⟨present, epsilon⟩), List.not_mem_nil⟩
  closed := fun nonEmpty => absurd rfl nonEmpty

/-- Taking a symbol marks the heads whose bodies hold epsilon and taken symbols only, with this one. -/
theorem turn (after : After g taken marking) {symbol : Nat} {pending : List Nat}
    (waits : marking.pending = symbol :: pending) : After g (taken ++ [symbol]) marking.turn := by
  have left : marking.remains.map (erased symbol) = g.productions.map (cleared (taken ++ [symbol])) := by
    rw [after.remains, List.map_map]
    exact List.map_congr_left fun production _ => erased_cleared taken symbol production
  have moved : marking.turn = Marking.mark ⟨g.productions.map (cleared (taken ++ [symbol])),
      marking.marked, pending⟩ (vanished (g.productions.map (cleared (taken ++ [symbol])))) := by
    rw [Marking.turn, waits, ← left]
  have split : marking.marked.Perm ((taken ++ [symbol]) ++ pending) := by
    simpa [waits] using after.marked
  have known {other : Nat} (inside : other ∈ taken ++ [symbol]) : other ∈ marking.marked :=
    split.mem_iff.mpr (List.mem_append_left pending inside)
  have cases {head : Nat} : head ∈ marking.turn.marked ↔ head ∈ marking.marked ∨
      head ∈ vanished (g.productions.map (cleared (taken ++ [symbol]))) := by
    rw [moved, mem_marked_mark]
  have nonEmpty : g.erasable ≠ [] := List.ne_nil_of_mem (after.sound symbol (known (by simp)))
  constructor
  case remains => rw [moved, mark]
  case marked =>
    rw [moved]
    exact mark_perm split _
  case once =>
    rw [moved, mark]
    exact nodup_append_fresh after.once
  case sound =>
    intro head inside
    rcases cases.mp inside with old | new
    · exact after.sound head old
    · obtain ⟨production, present, rfl, bare⟩ := mem_vanished.mp new
      refine Grammar.mem_erasable_of_vanishes nonEmpty present fun other own => ?_
      exact (bare other (Production.mem_body own)).imp_right fun old => after.sound other (known old)
  case heads =>
    intro head inside
    rcases cases.mp inside with old | new
    · exact after.heads head old
    · obtain ⟨production, present, rfl, _⟩ := mem_vanished.mp new
      exact List.mem_map_of_mem present
  case begun =>
    intro production present epsilon
    exact cases.mpr (.inl (after.begun production present epsilon))
  case closed =>
    intro _ production present bare
    exact cases.mpr (.inr (mem_vanished.mpr ⟨production, present, rfl, bare⟩))

theorem length_le (after : After g taken marking) :
    taken.length + marking.pending.length ≤ g.productions.length := by
  have inside : marking.marked ⊆ g.productions.map (·.head) := after.heads
  have fewer := after.once.length_le_of_subset inside
  rwa [after.marked.length_eq, List.length_append, List.length_map] at fewer

/-- When nothing is left to take, the marked symbols are the erasable ones. -/
theorem mem_marked_iff (after : After g taken marking) (finished : marking.pending = []) {symbol : Nat} :
    symbol ∈ marking.marked ↔ symbol ∈ g.erasable := by
  refine ⟨after.sound symbol, fun erased => ?_⟩
  have all := after.marked
  rw [finished, List.append_nil] at all
  suffices inside : ∀ head ∈ g.erasable, (· ∈ marking.marked) head from inside symbol erased
  refine forall_mem_discover _ ?_ ?_
  · intro head waits
    rw [List.nil_append, mem_fresh, List.mem_map] at waits
    obtain ⟨⟨production, kept, rfl⟩, _⟩ := waits
    obtain ⟨present, epsilon⟩ := List.mem_filter.mp kept
    exact after.begun production present epsilon
  · intro known last holds served head leads
    obtain ⟨production, kept, rfl⟩ := List.mem_map.mp leads
    obtain ⟨present, vanishes⟩ := List.mem_filter.mp kept
    by_cases epsilon : production.isEpsilon = true
    · exact after.begun production present epsilon
    · have nonEmpty : taken ≠ [] := List.ne_nil_of_mem (all.mem_iff.mp (holds last served))
      refine after.closed nonEmpty production present fun other own => ?_
      rw [Production.symbols, if_neg epsilon] at vanishes
      have kept := List.all_eq_true.mp vanishes other own
      rw [Bool.or_eq_true, beq_iff_eq, List.contains_iff_mem] at kept
      exact kept.imp_right fun old => all.mem_iff.mp (holds other old)

end After

end Marking

namespace Grammar

variable {g : Grammar}

/-- After a number of turns as many symbols were taken, unless there were none left to take. -/
theorem after_marking (g : Grammar) (turns : Nat) : ∃ taken, Marking.After g taken (g.marking turns) ∧
    (taken.length = turns ∨ (g.marking turns).pending = []) := by
  induction turns with
  | zero => exact ⟨[], .start, .inl rfl⟩
  | succ turns ih =>
    obtain ⟨taken, after, count⟩ := ih
    cases waits : (g.marking turns).pending with
    | nil =>
      have same : g.marking (turns + 1) = g.marking turns := by rw [marking, Marking.turn, waits]
      rw [same]
      exact ⟨taken, after, .inr waits⟩
    | cons symbol pending =>
      have counted : taken.length = turns := count.resolve_right (by simp [waits])
      exact ⟨taken ++ [symbol], after.turn waits, .inl (by simp [counted])⟩

private theorem pending_marking {turns : Nat} (enough : g.productions.length ≤ turns) :
    (g.marking turns).pending = [] := by
  obtain ⟨taken, after, count⟩ := g.after_marking turns
  rcases count with counted | finished
  · have bound := after.length_le
    exact List.eq_nil_of_length_eq_zero (by omega)
  · exact finished

private theorem nullable_markedSets {symbol : Nat} :
    g.markedSets.nullable symbol = true ↔ symbol ∈ g.erasable := by
  simp [markedSets, FirstFollow.nullable, Family.mem_get_addAll]

theorem WellFormed.nullable_firstFollow (formed : g.WellFormed) {symbol : Nat} :
    g.firstFollow.nullable symbol = true ↔ symbol ∈ g.erasable := by
  rw [FirstFollow.nullable, decide_eq_true_eq]
  exact formed.epsilon_mem_firstSets

/-- The symbols that derive the empty string are the erasable ones. -/
theorem WellFormed.mem_erasable_iff (formed : g.WellFormed) {symbol : Nat}
    (nonTerminal : g.isNonTerminal symbol = true) : symbol ∈ g.erasable ↔ g.Derives [symbol] [] := by
  refine ⟨formed.derives_nil_of_mem_erasable, fun path => ?_⟩
  have single : g.Proper [symbol] := fun other own => .inr (List.mem_singleton.mp own ▸ nonTerminal)
  have vanishes := (formed.mem_firstOfString_iff single).mpr (.inr ⟨rfl, path⟩)
  exact formed.epsilon_mem_firstSets.mp ((formed.mem_firstSets_iff nonTerminal).mpr vanishes)

/-- For every grammar the marking marks no symbol twice, so none has to be taken twice, and after as
many turns as there are productions nothing is left to take. The marked symbols are the erasable ones
then. In a grammar made from rules, augmented or not, a non-terminal is nullable exactly if it derives the
empty string, after the marking and after all FIRST and FOLLOW sets are made. -/
theorem nullable_exact (g : Grammar) :
    (∀ turns, (g.marking turns).marked.Nodup ∧ (g.marking turns).pending.Nodup ∧
      ∀ symbol ∈ (g.marking turns).pending, symbol ∈ (g.marking turns).marked) ∧
    (∀ turns, g.productions.length ≤ turns → (g.marking turns).pending = [] ∧
      ∀ symbol, symbol ∈ (g.marking turns).marked ↔ symbol ∈ g.erasable) ∧
    (g.Prepared → ∀ symbol, g.isNonTerminal symbol = true →
      (g.markedSets.nullable symbol = true ↔ g.Derives [symbol] []) ∧
      (g.firstFollow.nullable symbol = true ↔ g.Derives [symbol] [])) := by
  refine ⟨fun turns => ?_, fun turns enough => ?_, fun prepared symbol nonTerminal => ?_⟩
  · obtain ⟨taken, after, _⟩ := g.after_marking turns
    have apart := after.marked.nodup_iff.mp after.once
    refine ⟨after.once, (List.nodup_append.mp apart).2.1, fun symbol waits => ?_⟩
    exact after.marked.mem_iff.mpr (List.mem_append_right taken waits)
  · obtain ⟨_, after, _⟩ := g.after_marking turns
    have finished := pending_marking enough
    exact ⟨finished, fun symbol => after.mem_marked_iff finished⟩
  · have formed := prepared.wellFormed
    rw [nullable_markedSets, formed.nullable_firstFollow, formed.mem_erasable_iff nonTerminal]
    exact ⟨Iff.rfl, Iff.rfl⟩

/-- In the layered grammar `A` derives the empty string, and `S` does not. -/
theorem nullable_exact_layered : layered.Prepared ∧ layered.isNonTerminal 3 = true ∧
    layered.isNonTerminal 2 = true ∧ layered.Derives [3] [] ∧ ¬ layered.Derives [2] [] := by
  have prepared : layered.Prepared := .inl loaded_layered
  obtain ⟨_, _, exact'⟩ := nullable_exact layered
  have vanishes := (exact' prepared 3 rfl).2.mp (by decide +kernel)
  refine ⟨prepared, rfl, rfl, vanishes, fun path => ?_⟩
  exact absurd ((exact' prepared 2 rfl).2.mpr path) (by decide +kernel)

end Grammar

end SimpleLR
