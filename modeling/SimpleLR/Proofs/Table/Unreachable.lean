import SimpleLR.Proofs.Grammar.Reachable
import SimpleLR.Proofs.Parser.Language

/-! What unreachable rules change. They add no sentences, so they change no input's acceptance. But
FOLLOW sets are made of the bodies of all rules: an unreachable rule can put a terminal into the FOLLOW
set of a reachable head, and with it a conflict into the table. Nothing else that it does keeps a
grammar from being analysed. -/
namespace SimpleLR

namespace Grammar

/-- A name is that of a symbol in the FOLLOW set, as the analysis has it, of the head of a name. -/
def FollowedBy (g : Grammar) (head name : Text) : Prop :=
  ∃ grown symbol member, g.augment = .ok grown ∧ grown.name symbol = .ok head ∧
    member ∈ grown.firstFollow.follow.get symbol ∧ grown.name member = .ok name

/-- A grammar of rules beside the grammar of those that are reachable, each with its augmentation. -/
structure Pruned (rules : List Rule) (g grown g' grown' : Grammar) (start : Nat)
    (place : Nat → Nat) : Prop where
  part : g'.PartOf g (Rule.reachable rules) rules
  from' : g.AugmentedFrom (g'.symbolIn g start) grown
  from'' : g'.AugmentedFrom start grown'
  extended : g.augment = .ok grown
  extended' : g'.augment = .ok grown'
  plain : g'.Embeds g (g'.symbolIn g) place
  embeds : grown'.Embeds grown (g'.symbolIn g) (placeBehind place)

variable {rules : List Rule} {g grown g' grown' : Grammar} {start : Nat}

private theorem exists_pruned {first : Rule} {rest : List Rule} (success : ofRules (first :: rest) = .ok g) :
    ∃ grown g' grown' start place, ofRules (Rule.reachable (first :: rest)) = .ok g' ∧
      Pruned (first :: rest) g grown g' grown' start place := by
  obtain ⟨g', success', part⟩ := exists_partOf success
  obtain ⟨start, begins', begins⟩ := part.exists_start Rule.head?_reachable rfl
  have bare : g.augmented = none := Loaded.augmented ⟨_, success⟩
  have bare' : g'.augmented = none := Loaded.augmented ⟨_, success'⟩
  obtain ⟨grown, extended⟩ := part.formed'.augment_ok bare begins
  obtain ⟨grown', extended'⟩ := part.formed.augment_ok bare' begins'
  obtain ⟨_, from'⟩ := augment_eq_ok bare extended
  obtain ⟨_, from''⟩ := augment_eq_ok bare' extended'
  obtain rfl := Option.some.inj (begins.symm.trans from'.chosen)
  obtain rfl := Option.some.inj (begins'.symm.trans from''.chosen)
  obtain ⟨place, injective, places, found⟩ := Rule.exists_places (first :: rest)
  have plain := part.embeds injective places found
  have goal : g'.symbolIn g g'.symbols.length = g.symbols.length := by
    simp [PartOf.symbolIn_of_le]
  exact ⟨grown, g', grown', start, place, success', part, from', from'', extended, extended', plain,
    plain.augmented from'' from' goal rfl⟩

theorem AugmentedFrom.lt_of_mem_follow (from' : g.AugmentedFrom start grown) (formed : g.WellFormed)
    {symbol member : Nat} (inside : member ∈ grown.firstFollow.follow.get symbol) :
    member < g.symbols.length := by
  rcases (from'.wellFormed formed).cases_of_mem_follow inside with ⟨terminal, _⟩ | ⟨rfl, _⟩
  · rw [from'.isTerminal] at terminal
    exact lt_of_isTerminal terminal
  · exact (List.getElem?_eq_some_iff.mp formed.endMark).1

namespace Pruned

variable {place : Nat → Nat} (pruned : Pruned rules g grown g' grown' start place)
include pruned

/-- Unreachable rules add no sentences and take none away. -/
theorem spells_iff {names : List Text} : g.Spells names ↔ g'.Spells names := by
  have spelled {word : List Nat} (terminals : ∀ symbol ∈ word, g'.isTerminal symbol = true) :
      (word.map (g'.symbolIn g)).mapM g.name = word.mapM g'.name :=
    pruned.part.mapM_name fun symbol member => lt_of_isTerminal (terminals symbol member)
  constructor
  · rintro ⟨word, sentence, named⟩
    obtain ⟨_, reductions, chosen, yields⟩ := sentence_iff_yields.mp sentence
    obtain rfl := Option.some.inj (pruned.from'.chosen.symm.trans chosen)
    have yields : g.Yields ([start].map (g'.symbolIn g)) word reductions := yields
    obtain ⟨before, earlier, rfl, own⟩ := pruned.plain.exists_yields yields
    refine ⟨before, sentence_iff_yields.mpr ⟨start, earlier, pruned.from''.chosen, own⟩, ?_⟩
    rw [← spelled own.terminals, named]
  · exact pruned.plain.spells pruned.from''.chosen pruned.from'.chosen fun _ => pruned.part.name_symbolIn

theorem decided (decided : grown.Decided) : grown'.Decided :=
  pruned.embeds.decided rfl (pruned.from''.wellFormed pruned.part.formed)
    (pruned.from'.wellFormed pruned.part.formed') decided

/-- The symbols of the reachable rules have their names in the larger augmented grammar as well. -/
theorem name_symbolIn {index : Nat} (bound : index < g'.symbols.length) :
    grown.name (g'.symbolIn g index) = grown'.name index := by
  rw [pruned.from'.name (pruned.part.symbolIn_lt bound), pruned.from''.name bound,
    pruned.part.name_symbolIn bound]

private theorem exists_mem_follow {index member : Nat} {production : Production} {rule : Rule}
    (found : g'.productions[index]? = some production) (reads : g'.Reads rule production)
    (keeps : ∀ name, g.FollowedBy rule.head name → g'.FollowedBy rule.head name)
    (inside : member ∈ grown.firstFollow.follow.get (g'.symbolIn g production.head)) :
    ∃ before, member = g'.symbolIn g before ∧
      before ∈ grown'.firstFollow.follow.get production.head := by
  have formed := pruned.from'.wellFormed pruned.part.formed'
  have formed' := pruned.from''.wellFormed pruned.part.formed
  have nonTerminal := (pruned.part.formed.fits_of_getElem? found).head
  have bound := lt_of_isNonTerminal nonTerminal
  have head : grown'.name production.head = .ok rule.head := by
    rw [pruned.from''.name bound]
    exact name_of_index? reads.head (.inr nonTerminal)
  have named := name_ok (pruned.from'.lt_of_mem_follow pruned.part.formed' inside)
  rw [← pruned.from'.name (pruned.from'.lt_of_mem_follow pruned.part.formed' inside)] at named
  obtain ⟨_, _, before, again, head', inside', named'⟩ :=
    keeps _ ⟨grown, _, member, pruned.extended, (pruned.name_symbolIn bound).trans head, inside, named⟩
  obtain rfl := Except.ok.inj (pruned.extended'.symm.trans again)
  obtain rfl := formed'.name_injective head' head
  have kept := pruned.name_symbolIn (pruned.from''.lt_of_mem_follow pruned.part.formed inside')
  exact ⟨before, formed.name_injective named (kept.trans named'), inside'⟩

theorem decided_of_follow (keeps : ∀ rule ∈ Rule.reachable rules, ∀ name,
      g.FollowedBy rule.head name → g'.FollowedBy rule.head name)
    (decided : grown'.Decided) : grown.Decided := by
  have begins : grown'.productions[0]? = some ⟨g'.symbols.length, [start]⟩ := by
    rw [pruned.from''.productions, List.getElem?_cons_zero]
  refine pruned.embeds.decided_of_follow rfl begins ?_ decided
  intro index production found later member inside
  obtain ⟨index, rfl⟩ := Nat.exists_eq_succ_of_ne_zero later
  rw [pruned.from''.production] at found
  obtain ⟨rule, here, reads⟩ := pruned.part.small.exists_rule found
  exact pruned.exists_mem_follow found reads (keeps rule (List.mem_of_getElem? here)) inside

end Pruned

end Grammar

/-- The rules of nested pairs, `S -> a S b` and `S -> ε`, and an unreachable one in which `S` stands before
a symbol that follows it anyway. -/
def Rule.spare : List Rule := [⟨"S", ["a", "S", "b"]⟩, ⟨"S", ["ε"]⟩, ⟨"U", ["c", "S", "b"]⟩]

/-- The grammar of these rules. -/
def Grammar.spare : Grammar where
  symbols := [.epsilon, .endMark, .nonTerminal "S", .nonTerminal "U", .terminal "a", .terminal "b", .terminal "c"]
  productions := [⟨2, [4, 2, 5]⟩, ⟨2, [epsilonIndex]⟩, ⟨3, [6, 2, 5]⟩]
  start := some 2
  augmented := none

/-- The grammar of these rules with its goal. -/
def Grammar.sparePrimed : Grammar where
  symbols := spare.symbols ++ [.nonTerminal "S'"]
  productions := ⟨7, [2]⟩ :: spare.productions
  start := some 2
  augmented := some 7

/-- Rules of which the last one is unreachable and puts `A` before a `c`. -/
def Rule.leaking : List Rule :=
  [⟨"S", ["A"]⟩, ⟨"S", ["x", "c"]⟩, ⟨"A", ["x"]⟩, ⟨"U", ["A", "c"]⟩]

/-- The grammar of these rules. -/
def Grammar.leaking : Grammar where
  symbols := [.epsilon, .endMark, .nonTerminal "S", .nonTerminal "A", .nonTerminal "U",
    .terminal "x", .terminal "c"]
  productions := [⟨2, [3]⟩, ⟨2, [5, 6]⟩, ⟨3, [5]⟩, ⟨4, [3, 6]⟩]
  start := some 2
  augmented := none

namespace Analysis

/-- Without its unreachable rules a grammar is analysed if it was before, and an analysed grammar was
analysed before if no name follows the head of a reachable rule that does not follow it without the
unreachable ones. If both are analysed, both parsers accept the same inputs. -/
theorem analysed_of_reachable {rules : List Rule} {g : Grammar}
    (success : Grammar.ofRules rules = .ok g) :
    ∃ g', Grammar.ofRules (Rule.reachable rules) = .ok g' ∧
      ((∃ analysis, ofGrammar g = .ok analysis) → ∃ analysis, ofGrammar g' = .ok analysis) ∧
      ((∀ rule ∈ Rule.reachable rules, ∀ name,
          g.FollowedBy rule.head name → g'.FollowedBy rule.head name) →
        (∃ analysis, ofGrammar g' = .ok analysis) → ∃ analysis, ofGrammar g = .ok analysis) ∧
      ∀ analysis analysis', ofGrammar g = .ok analysis → ofGrammar g' = .ok analysis' → ∀ input,
        (∃ trace, analysis.Ends input .accepted trace) ↔
          ∃ trace, analysis'.Ends input .accepted trace := by
  cases rules with
  | nil =>
    refine ⟨g, success, id, fun _ => id, fun analysis analysis' one other input => ?_⟩
    obtain rfl := Except.ok.inj (one.symm.trans other)
    exact Iff.rfl
  | cons first rest =>
    obtain ⟨grown, g', grown', start, place, success', pruned⟩ := Grammar.exists_pruned success
    have loaded : g.Loaded := ⟨_, success⟩
    have loaded' : g'.Loaded := ⟨_, success'⟩
    refine ⟨g', success', ?_⟩
    rw [exists_ofGrammar_iff_decided loaded pruned.extended,
      exists_ofGrammar_iff_decided loaded' pruned.extended']
    refine ⟨pruned.decided, pruned.decided_of_follow, ?_⟩
    intro analysis analysis' one other input
    obtain ⟨_, built⟩ := built_of_ofGrammar loaded one
    obtain ⟨_, built'⟩ := built_of_ofGrammar loaded' other
    rw [built.accepted_iff_spells, built'.accepted_iff_spells, pruned.spells_iff]

private theorem followedBy_pairs_of_spare {name : Text} (followed : Grammar.spare.FollowedBy "S" name) :
    Grammar.pairs.FollowedBy "S" name := by
  obtain ⟨grown, symbol, member, extended, head, inside, named⟩ := followed
  have augmented : Grammar.spare.augment = .ok .sparePrimed := by decide +kernel
  obtain rfl := Except.ok.inj (augmented.symm.trans extended)
  obtain rfl : symbol = 2 := by
    have unique : ∀ symbol < 8, Grammar.sparePrimed.name symbol = .ok "S" → symbol = 2 := by decide +kernel
    exact unique symbol (Grammar.lt_of_name head) head
  have members : Grammar.sparePrimed.firstFollow.follow.get 2 = SortedSet.ofList [1, 5] := by decide +kernel
  obtain rfl | rfl : member = 1 ∨ member = 5 := by simpa [members, SortedSet.mem_ofList] using inside
  · exact ⟨_, 2, 1, rfl, rfl, by decide +kernel, named⟩
  · exact ⟨_, 2, 4, rfl, rfl, by decide +kernel, named⟩

theorem analysed_of_reachable_spare : ∃ analysis analysis', Grammar.ofRules Rule.spare = .ok .spare ∧
    ofGrammar .spare = .ok analysis ∧ Grammar.ofRules (Rule.reachable Rule.spare) = .ok .pairs ∧
      ofGrammar .pairs = .ok analysis' ∧
      (∀ rule ∈ Rule.reachable Rule.spare, ∀ name,
        Grammar.spare.FollowedBy rule.head name → Grammar.pairs.FollowedBy rule.head name) ∧
      ∀ input, (∃ trace, analysis.Ends input .accepted trace) ↔
        ∃ trace, analysis'.Ends input .accepted trace := by
  have loads : Grammar.ofRules Rule.spare = .ok .spare := rfl
  have pruned : Grammar.ofRules (Rule.reachable Rule.spare) = .ok .pairs := by decide +kernel
  obtain ⟨g', loads', onward, back, same⟩ := analysed_of_reachable loads
  obtain rfl := Except.ok.inj (pruned.symm.trans loads')
  have heads : ∀ rule ∈ Rule.reachable Rule.spare, rule.head = "S" := by decide +kernel
  have keeps : ∀ rule ∈ Rule.reachable Rule.spare, ∀ name,
      Grammar.spare.FollowedBy rule.head name → Grammar.pairs.FollowedBy rule.head name := by
    intro rule member name
    rw [heads rule member]
    exact followedBy_pairs_of_spare
  obtain ⟨analysis, success⟩ := back keeps
    ((exists_of_evaluated _ (fun _ => true) (by decide +kernel)).imp fun _ => And.left)
  obtain ⟨analysis', success'⟩ := onward ⟨analysis, success⟩
  exact ⟨analysis, analysis', loads, success, pruned, success', keeps, same analysis analysis' success success'⟩

/-- The grammar of the leaking rules has a conflict, though that of the reachable ones has none: behind
an `x` the `c` is to be shifted, and follows `A` in the unreachable rule only. -/
theorem conflict_of_leaking : Grammar.ofRules Rule.leaking = .ok .leaking ∧
    (¬ ∃ analysis, ofGrammar .leaking = .ok analysis) ∧
    ∃ g', Grammar.ofRules (Rule.reachable Rule.leaking) = .ok g' ∧
      ∃ analysis, ofGrammar g' = .ok analysis := by
  have failed : ofGrammar .leaking =
      .error (.rejected (.conflict 3 "c" (.shift 4) (.reduce 3))) := by decide +kernel
  refine ⟨rfl, ?_, _, rfl, ?_⟩
  · rintro ⟨analysis, success⟩
    exact nomatch failed.symm.trans success
  · exact (exists_of_evaluated _ (fun _ => true) (by decide +kernel)).imp fun _ => And.left

end Analysis

end SimpleLR
