import SimpleLR.Proofs.Lookahead.ExactFollow
import SimpleLR.Proofs.Table.Prefixes

/-! Grammars inside larger ones. If a grammar has the symbols of a smaller one under other numbers, and
for these symbols no productions but those of the smaller one, then both derive the same from them and
their item machines take the same paths. FOLLOW sets can only be larger in the larger grammar, and
unless they are, the one leaves a choice exactly if the other does. -/
namespace SimpleLR

namespace Production

/-- The production with other numbers for its symbols. -/
def renumber (onSymbols : Nat → Nat) (production : Production) : Production :=
  ⟨onSymbols production.head, production.body.map onSymbols⟩

private theorem symbols_renumber {onSymbols : Nat → Nat} (injective : Function.Injective onSymbols)
    (epsilon : onSymbols epsilonIndex = epsilonIndex) (production : Production) :
    (production.renumber onSymbols).symbols = production.symbols.map onSymbols := by
  have same : (production.renumber onSymbols).isEpsilon = production.isEpsilon := by
    have alone : [epsilonIndex] = [epsilonIndex].map onSymbols := by simp [epsilon]
    unfold isEpsilon renumber
    rw [Bool.eq_iff_iff, beq_iff_eq, beq_iff_eq, alone,
      (List.map_injective_iff.mpr injective).eq_iff, ← alone]
  unfold symbols
  rw [same]
  split <;> rfl

end Production

/-- The item with another number for its production. -/
def Item.renumber (onProductions : Nat → Nat) (item : Item) : Item :=
  ⟨onProductions item.production, item.position⟩

namespace Grammar

/-- A grammar inside a larger one: its symbols and productions have numbers there, and the larger
grammar has no other productions for these symbols. -/
structure Embeds (small big : Grammar) (onSymbols onProductions : Nat → Nat) : Prop where
  injective : Function.Injective onSymbols
  apart : Function.Injective onProductions
  epsilon : onSymbols epsilonIndex = epsilonIndex
  endMark : onSymbols endMarkIndex = endMarkIndex
  isTerminal : ∀ symbol, big.isTerminal (onSymbols symbol) = small.isTerminal symbol
  isNonTerminal : ∀ symbol, big.isNonTerminal (onSymbols symbol) = small.isNonTerminal symbol
  productions : ∀ {index : Nat} {production : Production},
    small.productions[index]? = some production →
      big.productions[onProductions index]? = some (production.renumber onSymbols)
  closed : ∀ {index symbol : Nat} {production : Production},
    big.productions[index]? = some production → production.head = onSymbols symbol →
      ∃ before own, index = onProductions before ∧ small.productions[before]? = some own

namespace Embeds

variable {small big : Grammar} {onSymbols onProductions : Nat → Nat}
  (embeds : small.Embeds big onSymbols onProductions)
include embeds

theorem symbols (production : Production) :
    (production.renumber onSymbols).symbols = production.symbols.map onSymbols :=
  Production.symbols_renumber embeds.injective embeds.epsilon production

/-- The productions of a symbol of the smaller grammar are those that it has there. -/
theorem exists_production {index symbol : Nat} {production : Production}
    (found : big.productions[index]? = some production) (head : production.head = onSymbols symbol) :
    ∃ before own, index = onProductions before ∧ small.productions[before]? = some own ∧
      production = own.renumber onSymbols ∧ own.head = symbol := by
  obtain ⟨before, own, rfl, here⟩ := embeds.closed found head
  obtain rfl := Option.some.inj (found.symm.trans (embeds.productions here))
  exact ⟨before, own, rfl, here, rfl, embeds.injective head⟩

section Derivations

theorem rewrites {index : Nat} {form next : List Nat} (rewrites : small.Rewrites index form next) :
    big.Rewrites (onProductions index) (form.map onSymbols) (next.map onSymbols) := by
  obtain ⟨found, before, after⟩ := rewrites
  have moved := Rewrites.here (embeds.productions found) (before.map onSymbols) (after.map onSymbols)
  rw [embeds.symbols] at moved
  simpa [Production.renumber] using moved

theorem derives {form last : List Nat} (path : small.Derives form last) :
    big.Derives (form.map onSymbols) (last.map onSymbols) := by
  induction path with
  | refl => exact .refl
  | step _ rewrites ih => exact ih.step (embeds.rewrites rewrites)

theorem yields {form word reductions : List Nat} (yields : small.Yields form word reductions) :
    big.Yields (form.map onSymbols) (word.map onSymbols) (reductions.map onProductions) := by
  induction yields with
  | nil => exact .nil
  | terminal proper _ ih => exact .terminal ((embeds.isTerminal _).trans proper) ih
  | production found _ _ inside behind =>
    rw [← embeds.symbols] at inside
    simpa [Production.renumber] using Yields.production (embeds.productions found) inside behind

/-- What a form of the smaller grammar yields in the larger one, it yields by itself. -/
theorem exists_yields {form word reductions : List Nat}
    (yields : big.Yields (form.map onSymbols) word reductions) :
    ∃ before earlier, word = before.map onSymbols ∧ small.Yields form before earlier := by
  generalize whole : form.map onSymbols = renumbered at yields
  induction yields generalizing form with
  | nil =>
    obtain rfl := List.map_eq_nil_iff.mp whole
    exact ⟨[], [], rfl, .nil⟩
  | terminal proper _ ih =>
    obtain ⟨symbol, rest, rfl, rfl, rfl⟩ := List.map_eq_cons_iff.mp whole
    obtain ⟨before, earlier, rfl, later⟩ := ih rfl
    exact ⟨symbol :: before, earlier, rfl, .terminal (embeds.isTerminal symbol ▸ proper) later⟩
  | production found _ _ inside behind =>
    obtain ⟨symbol, rest, rfl, head, rfl⟩ := List.map_eq_cons_iff.mp whole
    obtain ⟨_, own, rfl, here, rfl, rfl⟩ := embeds.exists_production found head.symm
    obtain ⟨inner, within, rfl, body⟩ := inside (embeds.symbols own).symm
    obtain ⟨outer, beyond, rfl, later⟩ := behind rfl
    exact ⟨inner ++ outer, _, by rw [List.map_append], .production here body later⟩

end Derivations

section Paths

variable (first : onProductions 0 = 0)

theorem getElem?_symbols {production : Production} {position symbol : Nat} :
    (production.renumber onSymbols).symbols[position]? = some symbol ↔
      ∃ before, production.symbols[position]? = some before ∧ symbol = onSymbols before := by
  rw [embeds.symbols, List.getElem?_map, Option.map_eq_some_iff]
  exact exists_congr fun before => and_congr_right fun _ => eq_comm

include first

theorem itemPath {word : List Nat} {item : Item} (path : small.ItemPath word item) :
    big.ItemPath (word.map onSymbols) (item.renumber onProductions) := by
  induction path with
  | start =>
    rw [Item.renumber, Item.initial, first]
    exact .start
  | across _ edge ih =>
    cases edge with
    | across found next =>
      rw [List.map_append]
      exact .across ih (.across (embeds.productions found) (embeds.getElem?_symbols.mpr ⟨_, next, rfl⟩))
  | silent _ edge ih =>
    cases edge with
    | silent found next target =>
      exact .silent ih (.silent (embeds.productions found)
        (embeds.getElem?_symbols.mpr ⟨_, next, rfl⟩) (embeds.productions target))

/-- The item machine of the larger grammar goes nowhere else: it begins with the same production. -/
theorem exists_itemPath {leads : Production} (begins : small.productions[0]? = some leads)
    {word : List Nat} {item : Item} (path : big.ItemPath word item) :
    ∃ before own production, word = before.map onSymbols ∧ item = own.renumber onProductions ∧
      small.productions[own.production]? = some production ∧ small.ItemPath before own := by
  induction path with
  | start =>
    refine ⟨[], Item.initial 0, leads, rfl, ?_, begins, .start⟩
    rw [Item.renumber, Item.initial, first]
  | across _ edge ih =>
    obtain ⟨before, own, production, rfl, rfl, here, path⟩ := ih
    cases edge with
    | across found next =>
      obtain rfl := Option.some.inj (found.symm.trans (embeds.productions here))
      obtain ⟨symbol, dot, rfl⟩ := embeds.getElem?_symbols.mp next
      exact ⟨before ++ [symbol], own.advance, production, by simp, rfl, here,
        .across path (.across here dot)⟩
  | silent _ edge ih =>
    obtain ⟨before, own, production, rfl, rfl, here, path⟩ := ih
    cases edge with
    | silent found next target =>
      obtain rfl := Option.some.inj (found.symm.trans (embeds.productions here))
      obtain ⟨symbol, dot, head⟩ := embeds.getElem?_symbols.mp next
      obtain ⟨index, called, rfl, there, rfl, rfl⟩ := embeds.exists_production target head
      exact ⟨before, Item.initial index, called, rfl, rfl, there, .silent path (.silent here dot there)⟩

end Paths

section Choices

variable (first : onProductions 0 = 0) (formed : small.WellFormed) (formed' : big.WellFormed)
include first formed formed'

/-- What follows a symbol in the smaller grammar follows it in the larger one. -/
theorem mem_follow {symbol member : Nat} (nonTerminal : small.isNonTerminal symbol = true)
    (follows : member ∈ small.firstFollow.follow.get symbol) :
    onSymbols member ∈ big.firstFollow.follow.get (onSymbols symbol) := by
  have own := (embeds.isNonTerminal symbol).trans nonTerminal
  rcases formed.cases_of_mem_follow follows with
    ⟨terminal, head, before, after, proper, path⟩ | ⟨rfl, leads, before, found, path⟩
  · have moved := embeds.derives path.derives
    rw [List.map_append] at moved
    exact formed'.mem_follow_of_behind ((embeds.isNonTerminal head).trans proper) own
      ((embeds.isTerminal member).trans terminal) moved
  · have moved := embeds.derives path
    have there := embeds.productions found
    rw [List.map_append] at moved
    rw [first] at there
    rw [embeds.endMark]
    exact formed'.endMark_mem_follow_of_last there own moved

theorem wants {word : List Nat} {terminal : Nat} {want : Option Nat}
    (wants : small.Wants word terminal want) :
    big.Wants (word.map onSymbols) (onSymbols terminal) (want.map onProductions) := by
  cases wants with
  | @shift item path dot proper =>
    obtain ⟨production, found, next⟩ := afterDot?_eq_some.mp dot
    refine .shift (embeds.itemPath first path) ?_ ((embeds.isTerminal terminal).trans proper)
    apply afterDot?_eq_some.mpr
    exact ⟨_, embeds.productions found, embeds.getElem?_symbols.mpr ⟨_, next, rfl⟩⟩
  | @asked item action path asks =>
    have longer {production : Production} (complete : production.length ≤ item.position) :
        (production.renumber onSymbols).length ≤ item.position := by
      rwa [Production.length, embeds.symbols, List.length_map]
    have moved := embeds.itemPath first path
    cases asks with
    | reduce rule complete later follows =>
      have head := (formed.fits_of_getElem? rule).head
      refine .asked moved (.reduce (embeds.productions rule) (longer complete) ?_
        (embeds.mem_follow first formed formed' head follows))
      exact fun zero => later (embeds.apart (zero.trans first.symm))
    | accept rule complete zero =>
      rw [embeds.endMark]
      refine .asked moved (.accept (embeds.productions rule) (longer complete) ?_)
      rw [Item.renumber, zero, first]

/-- If the larger grammar leaves no choice, neither does the smaller one. -/
theorem decided (decided : big.Decided) : small.Decided := by
  intro word terminal want want' wants wants'
  have same := decided (embeds.wants first formed formed' wants)
    (embeds.wants first formed formed' wants')
  exact Option.map_injective embeds.apart same

omit formed formed' in
/-- If nothing more follows the heads of the smaller grammar, then nothing more is wanted. -/
theorem exists_wants {leads : Production} (begins : small.productions[0]? = some leads)
    (follows : ∀ {index : Nat} {production : Production},
      small.productions[index]? = some production → index ≠ 0 →
        ∀ member ∈ big.firstFollow.follow.get (onSymbols production.head), ∃ before,
          member = onSymbols before ∧ before ∈ small.firstFollow.follow.get production.head)
    {word : List Nat} {terminal : Nat} {want : Option Nat} (wants : big.Wants word terminal want) :
    ∃ before own earlier, word = before.map onSymbols ∧ terminal = onSymbols own ∧
      want = earlier.map onProductions ∧ small.Wants before own earlier := by
  cases wants with
  | shift path dot proper =>
    obtain ⟨before, own, production, rfl, rfl, here, path⟩ := embeds.exists_itemPath first begins path
    obtain ⟨_, found, next⟩ := afterDot?_eq_some.mp dot
    obtain rfl := Option.some.inj (found.symm.trans (embeds.productions here))
    obtain ⟨symbol, behind, rfl⟩ := embeds.getElem?_symbols.mp next
    rw [embeds.isTerminal] at proper
    exact ⟨before, symbol, none, rfl, rfl, rfl,
      .shift path (afterDot?_eq_some.mpr ⟨production, here, behind⟩) proper⟩
  | asked path asks =>
    obtain ⟨before, own, production, rfl, rfl, here, path⟩ := embeds.exists_itemPath first begins path
    have shorter (complete : (production.renumber onSymbols).length ≤ own.position) :
        production.length ≤ own.position := by
      rwa [Production.length, embeds.symbols, List.length_map] at complete
    cases asks with
    | reduce rule complete later inside =>
      obtain rfl := Option.some.inj (rule.symm.trans (embeds.productions here))
      have later : own.production ≠ 0 := by
        intro zero
        exact later ((congrArg onProductions zero).trans first)
      obtain ⟨member, rfl, kept⟩ := follows here later _ inside
      exact ⟨before, member, some own.production, rfl, rfl, rfl,
        .asked path (.reduce here (shorter complete) later kept)⟩
    | accept rule complete zero =>
      obtain rfl := Option.some.inj (rule.symm.trans (embeds.productions here))
      have zero : own.production = 0 := embeds.apart (zero.trans first.symm)
      exact ⟨before, endMarkIndex, some own.production, rfl, embeds.endMark.symm, rfl,
        .asked path (.accept here (shorter complete) zero)⟩

omit formed formed' in
theorem decided_of_follow {leads : Production} (begins : small.productions[0]? = some leads)
    (follows : ∀ {index : Nat} {production : Production},
      small.productions[index]? = some production → index ≠ 0 →
        ∀ member ∈ big.firstFollow.follow.get (onSymbols production.head), ∃ before,
          member = onSymbols before ∧ before ∈ small.firstFollow.follow.get production.head)
    (decided : small.Decided) : big.Decided := by
  intro word terminal want want' wants wants'
  obtain ⟨before, own, earlier, rfl, rfl, rfl, kept⟩ :=
    embeds.exists_wants first begins follows wants
  obtain ⟨_, _, earlier', same, same', rfl, kept'⟩ :=
    embeds.exists_wants first begins follows wants'
  obtain rfl := List.map_injective_iff.mpr embeds.injective same
  obtain rfl := embeds.injective same'
  rw [decided kept kept']

end Choices

end Embeds

end Grammar

end SimpleLR
