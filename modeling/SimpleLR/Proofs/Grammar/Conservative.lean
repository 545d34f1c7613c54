import SimpleLR.CommandLine
import SimpleLR.Proofs.Analysis
import SimpleLR.Proofs.Listing.Productions
import SimpleLR.Proofs.Lookahead.ExactFollow

/-! Augmentation says nothing new about the old symbols. Nothing but the new head derives a form with
the new head in it, and from an old symbol the same forms are derived as before, so the FIRST and FOLLOW
sets of the old symbols stay what they were. The end mark moves to the new head, and comes back from there
to what the start symbol can end with. -/
namespace SimpleLR.Grammar

variable {g g' : Grammar} {start : Nat}

theorem Loaded.exists_first (loaded : g.Loaded) (nonEmpty : g.productions ≠ []) :
    ∃ first, g.productions[0]? = some first ∧ g.start = some first.head := by
  obtain ⟨rules, success⟩ := loaded
  have transcribes := transcribes_of_ofRules success
  obtain ⟨first, rest, same⟩ := List.exists_cons_of_ne_nil nonEmpty
  have leads : g.productions[0]? = some first := by rw [same, List.getElem?_cons_zero]
  obtain ⟨rule, found, reads⟩ := transcribes.exists_rule leads
  rw [← List.head?_eq_getElem?] at found
  exact ⟨first, leads, (transcribes.start found).trans reads.head⟩

namespace AugmentedFrom

variable (from' : g.AugmentedFrom start g') (formed : g.WellFormed)
include from'

section Symbols

theorem getElem?_symbols {index : Nat} (old : index < g.symbols.length) :
    g'.symbols[index]? = g.symbols[index]? := by
  obtain ⟨name, grown, _⟩ := from'.symbols
  rw [grown, List.getElem?_append_left old]

theorem productionsOf {symbol : Nat} (old : symbol < g.symbols.length) :
    g'.productionsOf symbol = (g.productionsOf symbol).map (· + 1) := by
  unfold Grammar.productionsOf
  rw [from'.isNonTerminal, decide_eq_false (Nat.ne_of_lt old), Bool.false_or]
  split
  · rw [from'.productions, List.zipIdx_cons, List.filter_cons_of_neg (by simpa using Nat.ne_of_gt old),
      List.zipIdx_succ, List.filter_map, List.map_map, List.map_map]
    rfl
  · rfl

include formed

private theorem productionsOf_goal : g'.productionsOf g.symbols.length = [0] := by
  have others : ∀ entry ∈ g.productions.zipIdx 1, ¬ (entry.1.head == g.symbols.length) = true := by
    intro entry member same
    have present := List.fst_mem_of_mem_zipIdx member
    have bound := lt_of_isNonTerminal (formed.fits _ present).head
    exact absurd (eq_of_beq same) (Nat.ne_of_lt bound)
  have own : g'.isNonTerminal g.symbols.length = true := by simp [from'.isNonTerminal]
  unfold Grammar.productionsOf
  rw [if_pos own, from'.productions, List.zipIdx_cons, List.filter_cons_of_pos (by simp), Nat.zero_add,
    List.filter_eq_nil_iff.mpr others, List.map_singleton]

end Symbols

section Derivations

theorem derives_augmented {form last : List Nat} (path : g.Derives form last) : g'.Derives form last := by
  induction path with
  | refl => exact .refl
  | step _ rewrites ih =>
    obtain ⟨found, before, after⟩ := rewrites
    exact ih.step (.here ((from'.production _).trans found) before after)

include formed

/-- From old symbols the augmented production is never used. -/
theorem derives_old {form last : List Nat} (old : ∀ symbol ∈ form, symbol < g.symbols.length)
    (path : g'.Derives form last) :
    g.Derives form last ∧ ∀ symbol ∈ last, symbol < g.symbols.length := by
  induction path with
  | refl => exact ⟨.refl, old⟩
  | @step index _ _ _ rewrites ih =>
    obtain ⟨earlier, inside⟩ := ih
    cases rewrites with
    | @here production found before after =>
      cases index with
      | zero =>
        obtain rfl : ⟨g.symbols.length, [start]⟩ = production := by simpa [from'.productions] using found
        exact absurd (inside g.symbols.length (by simp)) (Nat.lt_irrefl _)
      | succ index =>
        rw [from'.production] at found
        refine ⟨earlier.step (.here found before after), fun symbol member => ?_⟩
        simp only [List.mem_append] at member
        rcases member with (left | body) | right
        · exact inside symbol (by simp [left])
        · exact (formed.fits_of_getElem? found).lt_of_mem_symbols body
        · exact inside symbol (by simp [right])

theorem derives_iff {symbol : Nat} (old : symbol < g.symbols.length) {last : List Nat} :
    g'.Derives [symbol] last ↔ g.Derives [symbol] last := by
  refine ⟨fun path => (from'.derives_old formed ?_ path).1, from'.derives_augmented⟩
  exact fun other own => List.mem_singleton.mp own ▸ old

theorem derives_goal {last : List Nat} (path : g'.Derives [g.symbols.length] last) :
    last = [g.symbols.length] ∨ g.Derives [start] last := by
  have goal := from'.augmented' formed
  rcases path.cases_first with rfl | proper
  · exact .inl rfl
  · obtain ⟨production, member, head, rest⟩ := proper.exists_body
    obtain ⟨index, found⟩ := List.mem_iff_getElem?.mp member
    obtain rfl := goal.only found head
    obtain rfl := Option.some.inj (found.symm.trans goal.first)
    rw [goal.symbols_first] at rest
    have bound := lt_of_isNonTerminal (formed.chosen from'.chosen)
    exact .inr ((from'.derives_iff formed bound).mp rest)

theorem derives_start_of_mem {symbol : Nat} (old : symbol < g.symbols.length) {last : List Nat}
    (member : symbol ∈ last) (path : g'.Derives [g.symbols.length] last) : g.Derives [start] last := by
  refine (from'.derives_goal formed path).resolve_left fun alone => ?_
  rw [alone, List.mem_singleton] at member
  exact absurd (member ▸ old) (Nat.lt_irrefl _)

theorem derives_of_start {last : List Nat} (path : g.Derives [start] last) :
    g'.Derives [g.symbols.length] last := by
  have goal := from'.augmented' formed
  have first := derives_of_mem (List.mem_of_getElem? goal.first)
  rw [goal.symbols_first] at first
  exact first.trans (from'.derives_augmented path)

private theorem not_derives_goal {head : Nat} (nonTerminal : g'.isNonTerminal head = true)
    {before after : List Nat} (path : g'.Derives [head] (before ++ g.symbols.length :: after)) :
    head = g.symbols.length ∧ before = [] ∧ after = [] := by
  have outside {symbol : Nat} (old : symbol < g.symbols.length)
      (path : g.Derives [symbol] (before ++ g.symbols.length :: after)) : False := by
    have single : ∀ other ∈ [symbol], other < g.symbols.length :=
      fun other own => List.mem_singleton.mp own ▸ old
    have inside := (from'.derives_old formed single (from'.derives_augmented path)).2
    exact absurd (inside g.symbols.length (by simp)) (Nat.lt_irrefl _)
  rw [from'.isNonTerminal, Bool.or_eq_true, decide_eq_true_eq] at nonTerminal
  rcases nonTerminal with rfl | old
  · rcases from'.derives_goal formed path with alone | begun
    · rcases List.append_eq_singleton_iff.mp alone with ⟨rfl, same⟩ | ⟨_, never⟩
      · exact ⟨rfl, rfl, (List.cons.inj same).2⟩
      · cases never
    · exact (outside (lt_of_isNonTerminal (formed.chosen from'.chosen)) begun).elim
  · have bound := lt_of_isNonTerminal old
    exact (outside bound ((from'.derives_iff formed bound).mp path)).elim

end Derivations

section Sets

variable {symbol : Nat}
include formed

private theorem mem_firstSets_congr {other member : Nat} (nonTerminal : g'.isNonTerminal other = true)
    (nonTerminal' : g.isNonTerminal symbol = true)
    (empty : g'.Derives [other] [] ↔ g.Derives [symbol] [])
    (begins : g.isTerminal member = true → ∀ after,
      g'.Derives [other] (member :: after) ↔ g.Derives [symbol] (member :: after)) :
    member ∈ g'.firstSets.get other ↔ member ∈ g.firstSets.get symbol := by
  have formed' := from'.wellFormed formed
  have single : g'.Proper [other] := fun _ own => .inr (List.mem_singleton.mp own ▸ nonTerminal)
  have single' : g.Proper [symbol] := fun _ own => .inr (List.mem_singleton.mp own ▸ nonTerminal')
  rw [formed'.mem_firstSets_iff nonTerminal, formed.mem_firstSets_iff nonTerminal',
    formed'.mem_firstOfString_iff single, formed.mem_firstOfString_iff single', from'.isTerminal, empty]
  exact or_congr_left (and_congr_right fun terminal => exists_congr (begins terminal))

theorem first_eq (nonTerminal : g.isNonTerminal symbol = true) :
    g'.firstFollow.first.get? symbol = g.firstFollow.first.get? symbol := by
  have kept : g'.isNonTerminal symbol = true := by simp [from'.isNonTerminal, nonTerminal]
  have same {last : List Nat} : g'.Derives [symbol] last ↔ g.Derives [symbol] last :=
    from'.derives_iff formed (lt_of_isNonTerminal nonTerminal)
  change g'.firstSets.get? symbol = g.firstSets.get? symbol
  rw [get?_firstSets kept, get?_firstSets nonTerminal]
  refine congrArg some (SortedSet.ext fun member => ?_)
  exact from'.mem_firstSets_congr formed kept nonTerminal same fun _ _ => same

private theorem first_goal :
    g'.firstFollow.first.get? g.symbols.length = g.firstFollow.first.get? start := by
  have own : g'.isNonTerminal g.symbols.length = true := by simp [from'.isNonTerminal]
  have nonTerminal := formed.chosen from'.chosen
  have same {last : List Nat} (other : last ≠ [g.symbols.length]) :
      g'.Derives [g.symbols.length] last ↔ g.Derives [start] last :=
    ⟨fun path => (from'.derives_goal formed path).resolve_left other, from'.derives_of_start formed⟩
  change g'.firstSets.get? g.symbols.length = g.firstSets.get? start
  rw [get?_firstSets own, get?_firstSets nonTerminal]
  refine congrArg some (SortedSet.ext fun member => ?_)
  refine from'.mem_firstSets_congr formed own nonTerminal (same (by simp)) fun terminal after => ?_
  exact same fun alone => absurd (lt_of_isTerminal terminal) (by simp [(List.cons.inj alone).1])

theorem follow_eq {first : Production} (leads : g.productions[0]? = some first)
    (head : first.head = start) (nonTerminal : g.isNonTerminal symbol = true) :
    g'.firstFollow.follow.get? symbol = g.firstFollow.follow.get? symbol := by
  have formed' := from'.wellFormed formed
  have goal := from'.augmented' formed
  have bound := lt_of_isNonTerminal nonTerminal
  have old {other : Nat} (proper : g.isNonTerminal other = true) : g'.isNonTerminal other = true := by
    simp [from'.isNonTerminal, proper]
  rw [get?_follow (old nonTerminal), get?_follow nonTerminal]
  refine congrArg some (SortedSet.ext fun member => ⟨fun inside => ?_, fun inside => ?_⟩)
  · rcases formed'.cases_of_mem_follow inside with
      ⟨terminal, other, before, after, proper, path⟩ | ⟨rfl, _, before, found, path⟩
    · rw [from'.isTerminal] at terminal
      rw [from'.isNonTerminal, Bool.or_eq_true, decide_eq_true_eq] at proper
      rcases proper with rfl | proper
      · have begun := from'.derives_start_of_mem formed bound (by simp) path.derives
        exact formed.mem_follow_of_behind (formed.chosen from'.chosen) nonTerminal terminal begun
      · have same := (from'.derives_iff formed (lt_of_isNonTerminal proper)).mp path.derives
        exact formed.mem_follow_of_behind proper nonTerminal terminal same
    · obtain rfl := Option.some.inj (goal.first.symm.trans found)
      have begun := from'.derives_start_of_mem formed bound (by simp) path
      exact formed.endMark_mem_follow_of_last leads nonTerminal (head ▸ begun)
  · rcases formed.cases_of_mem_follow inside with
      ⟨terminal, other, before, after, proper, path⟩ | ⟨rfl, _, before, found, path⟩
    · exact formed'.mem_follow_of_behind (old proper) (old nonTerminal)
        ((from'.isTerminal member).trans terminal) (from'.derives_augmented path.derives)
    · obtain rfl := Option.some.inj (leads.symm.trans found)
      exact formed'.endMark_mem_follow_of_last goal.first (old nonTerminal)
        (from'.derives_of_start formed (head ▸ path))

private theorem follow_goal :
    g'.firstFollow.follow.get? g.symbols.length = some (.ofList [endMarkIndex]) := by
  have formed' := from'.wellFormed formed
  have goal := from'.augmented' formed
  have own : g'.isNonTerminal g.symbols.length = true := by simp [from'.isNonTerminal]
  rw [get?_follow own]
  refine congrArg some (SortedSet.ext fun member => ?_)
  rw [SortedSet.mem_ofList, List.mem_singleton]
  constructor
  · intro inside
    rcases formed'.cases_of_mem_follow inside with
      ⟨_, head, before, after, proper, path⟩ | ⟨mark, _⟩
    · obtain ⟨_, _, never⟩ := from'.not_derives_goal formed proper path.derives
      cases never
    · exact mark
  · rintro rfl
    exact formed'.endMark_mem_follow goal.first

end Sets

section Listings

theorem memberNames_eq {set : SymbolSet} (old : ∀ member ∈ set, member < g.symbols.length) :
    g'.memberNames set = g.memberNames set := by
  unfold memberNames
  rw [from'.mapM_name fun member inside => old member (SortedSet.mem_filter.mp inside).1]

include formed

/-- The sets of the old symbols are listed as before, and those of the new head are not listed. -/
theorem setListing_eq (bare : g.augmented = none) {first : Production}
    (leads : g.productions[0]? = some first) (head : first.head = start) :
    g'.setListing g'.firstFollow = g.setListing g.firstFollow := by
  unfold setListing
  rw [from'.listedNonTerminals bare]
  apply congrArg (· >>= _)
  apply Result.mapM_congr
  intro symbol member
  have nonTerminal := isNonTerminal_of_listed member
  have same : g'.firstFollow.first.get symbol = g.firstFollow.first.get symbol := by
    rw [Family.get, from'.first_eq formed nonTerminal, Family.get]
  have same' : g'.firstFollow.follow.get symbol = g.firstFollow.follow.get symbol := by
    rw [Family.get, from'.follow_eq formed leads head nonTerminal, Family.get]
  have names : g'.memberNames (g.firstFollow.first.get symbol) =
      g.memberNames (g.firstFollow.first.get symbol) :=
    from'.memberNames_eq fun _ inside => formed.lt_of_mem_firstSets inside
  have names' : g'.memberNames (g.firstFollow.follow.get symbol) =
      g.memberNames (g.firstFollow.follow.get symbol) :=
    from'.memberNames_eq fun _ inside => formed.lt_of_mem_follow inside
  rw [FirstFollow.nullable, FirstFollow.nullable, same, same', names, names',
    from'.name (lt_of_isNonTerminal nonTerminal)]

end Listings

end AugmentedFrom

/-- The grammar `g'` is `g` with one more symbol, behind the others, and with one more production, in front
of the others, that takes the new symbol to the start symbol. All else that is known of the old symbols
stays: their productions in their order, their sets, and what is printed of them. The grammar `g'` is its
own augmentation. -/
structure ConservedIn (g : Grammar) (start : Nat) (name : Text) (g' : Grammar) : Prop where
  augmented : g'.augmented = some g.symbols.length
  chosen : g'.start = some start
  symbols : g'.symbols = g.symbols ++ [.nonTerminal name]
  found : g'.index? name = some g.symbols.length
  finds : ∀ other, other ≠ name → g'.index? other = g.index? other
  leads : g'.productions[0]? = some ⟨g.symbols.length, [start]⟩
  productions : ∀ index, g'.productions[index + 1]? = g.productions[index]?
  own : g'.productionsOf g.symbols.length = [0]
  productionsOf : ∀ symbol < g.symbols.length,
    g'.productionsOf symbol = (g.productionsOf symbol).map (· + 1)
  first : ∀ symbol, g.isNonTerminal symbol = true →
    g'.firstFollow.first.get? symbol = g.firstFollow.first.get? symbol
  follow : ∀ symbol, g.isNonTerminal symbol = true →
    g'.firstFollow.follow.get? symbol = g.firstFollow.follow.get? symbol
  nullable : ∀ symbol, g.isNonTerminal symbol = true →
    g'.firstFollow.nullable symbol = g.firstFollow.nullable symbol
  firstOwn : g'.firstFollow.first.get? g.symbols.length = g.firstFollow.first.get? start
  followOwn : g'.firstFollow.follow.get? g.symbols.length = some (.ofList [endMarkIndex])
  printed : ∀ format strings, ∀ output ∈ [Output.productions, Output.sets],
    Output.render format g' strings output = Output.render format g strings output
  again : g'.augment = .ok g'
  automaton : ∃ automaton, g'.automaton = .ok (g', automaton)

theorem conservedIn_of_augment (loaded : g.Loaded) {first : Production}
    (leads : g.productions[0]? = some first) (chosen : g.start = some first.head)
    (extended : g.augment = .ok g') {name : Text}
    (grown : g'.symbols = g.symbols ++ [.nonTerminal name]) : g.ConservedIn first.head name g' := by
  have formed := loaded.wellFormed
  have bare := loaded.augmented
  obtain ⟨other, from'⟩ := augment_eq_ok bare extended
  obtain rfl := Option.some.inj (chosen.symm.trans from'.chosen)
  have again : g'.augment = .ok g' := by simp only [augment, from'.augmented]
  obtain ⟨automaton, collected⟩ := (from'.wellFormed formed).collection_ok
  exact {
    augmented := from'.augmented
    chosen := from'.start.trans chosen
    symbols := grown
    found := by simp [index?_grown grown, Symbol.spellings, Symbol.name]
    finds := fun other apart => by simp [index?_grown grown, Symbol.spellings, Symbol.name, apart]
    leads := by rw [from'.productions, List.getElem?_cons_zero]
    productions := from'.production
    own := from'.productionsOf_goal formed
    productionsOf := fun _ => from'.productionsOf
    first := fun _ => from'.first_eq formed
    follow := fun _ => from'.follow_eq formed leads rfl
    nullable := fun symbol nonTerminal => by
      rw [FirstFollow.nullable, Family.get, from'.first_eq formed nonTerminal]
      rfl
    firstOwn := from'.first_goal formed
    followOwn := from'.follow_goal formed
    printed := fun format strings output member => by
      rcases List.mem_pair.mp member with rfl | rfl
      · simp only [Output.render, from'.productionListing formed bare]
      · simp only [Output.render, from'.setListing_eq formed bare leads rfl]
    again := again
    automaton := ⟨automaton, automaton_eq_ok.mpr ⟨again, collected⟩⟩ }

/-- A loaded grammar with a production can be augmented, and nothing changes for its old symbols. The new
symbol has the name of the start symbol with the fewest quotes that make it a new name. -/
theorem augment_conservative (loaded : g.Loaded) (nonEmpty : g.productions ≠ []) :
    ∃ start name quotes g', g.start = some start ∧ g.name start = .ok name ∧ g.augment = .ok g' ∧
      g.index? (name ++ List.replicate quotes '\'') = none ∧
      (∀ fewer < quotes, (g.index? (name ++ List.replicate fewer '\'')).isSome = true) ∧
      g.ConservedIn start (name ++ List.replicate quotes '\'') g' := by
  have formed := loaded.wellFormed
  have bare := loaded.augmented
  obtain ⟨first, leads, chosen⟩ := loaded.exists_first nonEmpty
  obtain ⟨name, named⟩ : ∃ name, g.name first.head = .ok name :=
    ⟨_, name_ok (lt_of_isNonTerminal (formed.chosen chosen))⟩
  obtain ⟨quotes, spelled, taken⟩ := g.exists_freshName name
  have new := g.index?_freshName name
  have extended := augment_of_name bare chosen named
  rw [spelled] at new extended
  refine ⟨first.head, name, quotes, _, chosen, named, extended, new, taken, ?_⟩
  exact conservedIn_of_augment loaded leads chosen extended rfl

/-- `S -> S'` and `S' -> a`: the start symbol with one quote is another symbol. -/
def primes : Grammar where
  symbols := [.epsilon, .endMark, .nonTerminal "S", .nonTerminal "S'", .terminal "a"]
  productions := [⟨2, [3]⟩, ⟨3, [4]⟩]
  start := some 2
  augmented := none

theorem loaded_primes : primes.Loaded := ⟨[⟨"S", ["S'"]⟩, ⟨"S'", ["a"]⟩], rfl⟩

/-- The new symbol is `S''`, and the start symbol is followed by the end mark before and after. -/
theorem augment_conservative_primes : primes.Loaded ∧ primes.productions ≠ [] ∧
    ∃ g', primes.augment = .ok g' ∧ primes.ConservedIn 2 "S''" g' ∧
      g'.firstFollow.follow.get? 2 = some (.ofList [endMarkIndex]) := by
  refine ⟨loaded_primes, List.cons_ne_nil _ _, ?_⟩
  obtain ⟨start, name, quotes, g', chosen, named, extended, new, taken, conserved⟩ :=
    augment_conservative loaded_primes (List.cons_ne_nil _ _)
  obtain rfl : 2 = start := Option.some.inj chosen
  obtain rfl : "S" = name := Except.ok.inj named
  have two : quotes = 2 := by
    rcases Nat.lt_trichotomy quotes 2 with fewer | two | more
    · obtain rfl | rfl : quotes = 0 ∨ quotes = 1 := by omega
      · cases new
      · cases new
    · exact two
    · cases taken 2 more
  subst two
  exact ⟨g', extended, conserved, (conserved.follow 2 rfl).trans (by decide +kernel)⟩

end SimpleLR.Grammar
