import SimpleLR.Proofs.Grammar.Conservative
import SimpleLR.Proofs.Grammar.Reachable

/-! Rules in another order make a grammar that differs in the numbers of its symbols and productions only,
if the first head stays. Such grammars derive the same, have the same item machine, and the same sets. -/
namespace SimpleLR

section Places

/-- Places in a list with one more value in front, which keeps the first place. -/
def behind (place : Equiv.Perm Nat) : Equiv.Perm Nat where
  toFun := placeBehind place
  invFun := placeBehind place.symm
  left_inv index := by cases index <;> simp [placeBehind]
  right_inv index := by cases index <;> simp [placeBehind]

private theorem exists_places_of_perm {α : Type} {list list' : List α} (shuffled : list.Perm list') :
    ∃ place : Equiv.Perm Nat, ∀ index, list'[place index]? = list[index]? := by
  induction shuffled with
  | nil => exact ⟨.refl Nat, fun _ => rfl⟩
  | cons value _ ih =>
    obtain ⟨place, same⟩ := ih
    refine ⟨behind place, fun index => ?_⟩
    cases index with
    | zero => rfl
    | succ index => exact same index
  | swap first second rest =>
    refine ⟨Equiv.swap 0 1, fun index => ?_⟩
    match index with
    | 0 | 1 => rfl
    | index + 2 => rw [Equiv.swap_apply_of_ne_of_ne (by omega) (by omega)]; rfl
  | trans _ _ ih ih' =>
    obtain ⟨place, same⟩ := ih
    obtain ⟨place', same'⟩ := ih'
    exact ⟨place.trans place', fun index => (same' (place index)).trans (same index)⟩

end Places

private theorem Production.renumber_renumber (first second : Nat → Nat) (production : Production) :
    (production.renumber first).renumber second = production.renumber (second ∘ first) := by
  simp [Production.renumber]

theorem Production.renumber_id (production : Production) : production.renumber id = production := by
  simp [Production.renumber]

theorem Item.renumber_initial {onProductions : Nat → Nat} (first : onProductions 0 = 0) :
    (Item.initial 0).renumber onProductions = Item.initial 0 := by
  rw [renumber, initial, first]

theorem Item.renumber_injective (onProductions : Equiv.Perm Nat) :
    Function.Injective (Item.renumber onProductions) := by
  intro item other same
  obtain ⟨number, position⟩ := item
  obtain ⟨number', position'⟩ := other
  simpa [renumber] using same

theorem Item.renumber_surjective (onProductions : Equiv.Perm Nat) :
    Function.Surjective (Item.renumber onProductions) :=
  fun item => ⟨⟨onProductions.symm item.production, item.position⟩, by simp [renumber]⟩

namespace Grammar

/-- Two grammars that differ in the numbers of their symbols and productions only. The numbers behind the
symbols go to those behind the symbols. -/
structure Matches (g g' : Grammar) (onSymbols onProductions : Equiv.Perm Nat) : Prop where
  symbols : ∀ index, g'.symbols[onSymbols index]? = g.symbols[index]?
  beyond : ∀ more, onSymbols (g.symbols.length + more) = g'.symbols.length + more
  epsilon : onSymbols epsilonIndex = epsilonIndex
  endMark : onSymbols endMarkIndex = endMarkIndex
  productions : ∀ index,
    g'.productions[onProductions index]? = g.productions[index]?.map (Production.renumber onSymbols)
  start : g'.start = g.start.map onSymbols
  augmented : g'.augmented = g.augmented.map onSymbols

variable {g g' : Grammar} {onSymbols onProductions : Equiv.Perm Nat}

namespace Matches

theorem refl (g : Grammar) : g.Matches g (.refl Nat) (.refl Nat) where
  symbols _ := rfl
  beyond _ := rfl
  epsilon := rfl
  endMark := rfl
  productions index := by
    change _ = g.productions[index]?.map (Production.renumber id)
    rw [funext Production.renumber_id, Option.map_id']
    rfl
  start := by simp
  augmented := by simp

variable (matched : g.Matches g' onSymbols onProductions)
include matched

theorem symm : g'.Matches g onSymbols.symm onProductions.symm where
  symbols index := by rw [← matched.symbols, Equiv.apply_symm_apply]
  beyond more := by rw [← matched.beyond, Equiv.symm_apply_apply]
  epsilon := by rw [Equiv.symm_apply_eq, matched.epsilon]
  endMark := by rw [Equiv.symm_apply_eq, matched.endMark]
  productions index := by
    have there := matched.productions (onProductions.symm index)
    have back : Production.renumber onSymbols.symm ∘ Production.renumber onSymbols = id := by
      funext production
      simp [Production.renumber_renumber, Production.renumber_id]
    rw [Equiv.apply_symm_apply] at there
    rw [there, Option.map_map, back, Option.map_id, id]
  start := by simp [matched.start]
  augmented := by simp [matched.augmented]

theorem name {symbol : Nat} (bound : symbol < g.symbols.length) :
    g'.name (onSymbols symbol) = g.name symbol := by
  rw [Grammar.name, Grammar.name, matched.symbols, List.getElem?_eq_getElem bound]

theorem lt_iff {symbol : Nat} : onSymbols symbol < g'.symbols.length ↔ symbol < g.symbols.length := by
  rw [← not_iff_not, Nat.not_lt, Nat.not_lt, ← List.getElem?_eq_none_iff, ← List.getElem?_eq_none_iff,
    matched.symbols]

theorem mapM_name {word : List Nat} (bound : ∀ symbol ∈ word, symbol < g.symbols.length) :
    (word.map onSymbols).mapM g'.name = word.mapM g.name := by
  rw [List.mapM_map]
  exact Result.mapM_congr fun symbol member => matched.name (bound symbol member)

theorem embeds : g.Embeds g' onSymbols onProductions where
  injective := onSymbols.injective
  apart := onProductions.injective
  epsilon := matched.epsilon
  endMark := matched.endMark
  isTerminal symbol := by rw [isTerminal, isTerminal, matched.symbols]
  isNonTerminal symbol := by rw [isNonTerminal, isNonTerminal, matched.symbols]
  productions found := by rw [matched.productions, found, Option.map_some]
  closed := by
    intro index symbol production found _
    have there := matched.productions (onProductions.symm index)
    rw [Equiv.apply_symm_apply, found] at there
    obtain ⟨own, here, _⟩ := Option.map_eq_some_iff.mp there.symm
    exact ⟨onProductions.symm index, own, (Equiv.apply_symm_apply _ _).symm, here⟩

theorem derives_iff {form last : List Nat} :
    g'.Derives (form.map onSymbols) (last.map onSymbols) ↔ g.Derives form last := by
  refine ⟨fun path => ?_, matched.embeds.derives⟩
  simpa using matched.symm.embeds.derives path

section Machine

variable (first : onProductions 0 = 0)
include first

theorem itemPath_iff {word : List Nat} {item : Item} :
    g'.ItemPath (word.map onSymbols) (item.renumber onProductions) ↔ g.ItemPath word item := by
  refine ⟨fun path => ?_, matched.embeds.itemPath first⟩
  have back := matched.symm.embeds.itemPath (by rw [Equiv.symm_apply_eq, first]) path
  simpa [Item.renumber] using back

theorem decided_iff (formed : g.WellFormed) (formed' : g'.WellFormed) : g'.Decided ↔ g.Decided := by
  refine ⟨matched.embeds.decided first formed formed', ?_⟩
  exact matched.symm.embeds.decided (by rw [Equiv.symm_apply_eq, first]) formed' formed

end Machine

end Matches

section Sets

/-- The names of the members of a set. -/
def namesOf (g : Grammar) (set : SymbolSet) : Set Text := {name | ∃ member ∈ set, g.name member = .ok name}

/-- The FIRST and FOLLOW sets of the non-terminals hold the same names. -/
structure SameSets (g g' : Grammar) (onSymbols : Nat → Nat) : Prop where
  first : ∀ symbol, g.isNonTerminal symbol = true →
    g'.namesOf (g'.firstFollow.first.get (onSymbols symbol)) =
      g.namesOf (g.firstFollow.first.get symbol)
  follow : ∀ symbol, g.isNonTerminal symbol = true →
    g'.namesOf (g'.firstFollow.follow.get (onSymbols symbol)) =
      g.namesOf (g.firstFollow.follow.get symbol)

theorem Embeds.mem_firstSets (embeds : g.Embeds g' onSymbols onProductions) (formed : g.WellFormed)
    (formed' : g'.WellFormed) {symbol member : Nat} (nonTerminal : g.isNonTerminal symbol = true)
    (inside : member ∈ g.firstSets.get symbol) :
    onSymbols member ∈ g'.firstSets.get (onSymbols symbol) := by
  have own := (embeds.isNonTerminal symbol).trans nonTerminal
  have single : g.Proper [symbol] := fun _ alone => .inr (List.mem_singleton.mp alone ▸ nonTerminal)
  have single' : g'.Proper [onSymbols symbol] := fun _ alone => .inr (List.mem_singleton.mp alone ▸ own)
  rw [formed.mem_firstSets_iff nonTerminal, formed.mem_firstOfString_iff single] at inside
  rw [formed'.mem_firstSets_iff own, formed'.mem_firstOfString_iff single']
  rcases inside with ⟨terminal, after, path⟩ | ⟨rfl, path⟩
  · exact .inl ⟨(embeds.isTerminal member).trans terminal, _, embeds.derives path⟩
  · exact .inr ⟨embeds.epsilon, embeds.derives path⟩

namespace Matches

variable (matched : g.Matches g' onSymbols onProductions)
include matched

theorem namesOf_eq {set set' : SymbolSet} (bound : ∀ member ∈ set, member < g.symbols.length)
    (same : ∀ member, onSymbols member ∈ set' ↔ member ∈ set) : g'.namesOf set' = g.namesOf set := by
  ext name
  constructor
  · rintro ⟨member, inside, named⟩
    obtain ⟨before, rfl⟩ := onSymbols.surjective member
    have kept := (same before).mp inside
    exact ⟨before, kept, (matched.name (bound before kept)).symm.trans named⟩
  · rintro ⟨member, inside, named⟩
    exact ⟨onSymbols member, (same member).mpr inside, (matched.name (bound member inside)).trans named⟩

variable (first : onProductions 0 = 0) (formed : g.WellFormed) (formed' : g'.WellFormed)
include formed formed'

theorem mem_firstSets_iff {symbol member : Nat} (nonTerminal : g.isNonTerminal symbol = true) :
    onSymbols member ∈ g'.firstSets.get (onSymbols symbol) ↔ member ∈ g.firstSets.get symbol := by
  refine ⟨fun inside => ?_, matched.embeds.mem_firstSets formed formed' nonTerminal⟩
  have own := (matched.embeds.isNonTerminal symbol).trans nonTerminal
  simpa using matched.symm.embeds.mem_firstSets formed' formed own inside

include first

theorem mem_follow_iff {symbol member : Nat} (nonTerminal : g.isNonTerminal symbol = true) :
    onSymbols member ∈ g'.firstFollow.follow.get (onSymbols symbol) ↔
      member ∈ g.firstFollow.follow.get symbol := by
  refine ⟨fun inside => ?_, matched.embeds.mem_follow first formed formed' nonTerminal⟩
  have own := (matched.embeds.isNonTerminal symbol).trans nonTerminal
  have back := matched.symm.embeds.mem_follow (by rw [Equiv.symm_apply_eq, first]) formed' formed own
    inside
  simpa using back

/-- If both begin with the same production, then all sets are the same. -/
theorem sameSets : g.SameSets g' onSymbols where
  first _ nonTerminal := matched.namesOf_eq (fun _ => formed.lt_of_mem_firstSets)
    fun _ => matched.mem_firstSets_iff formed formed' nonTerminal
  follow _ nonTerminal := matched.namesOf_eq (fun _ => formed.lt_of_mem_follow)
    fun _ => matched.mem_follow_iff first formed formed' nonTerminal

end Matches

end Sets

section Augmented

theorem isSome_index?_iff (named : g.Named) {name : Text} : (g.index? name).isSome = true ↔
    ∃ (index : Nat) (symbol : Symbol), g.symbols[index]? = some symbol ∧ name ∈ symbol.spellings := by
  constructor
  · intro known
    obtain ⟨index, found⟩ := Option.isSome_iff_exists.mp known
    exact ⟨index, spelled_of_index? found⟩
  · rintro ⟨index, symbol, here, spelled⟩
    rw [named.found here spelled]
    rfl

namespace Matches

variable (matched : g.Matches g' onSymbols onProductions) (formed : g.WellFormed)
  (formed' : g'.WellFormed)
include matched formed formed'

theorem isSome_index? (name : Text) : (g'.index? name).isSome = (g.index? name).isSome := by
  rw [Bool.eq_iff_iff, isSome_index?_iff formed.toNamed, isSome_index?_iff formed'.toNamed]
  constructor
  · rintro ⟨index, symbol, here, spelled⟩
    exact ⟨onSymbols.symm index, symbol, (matched.symm.symbols index).trans here, spelled⟩
  · rintro ⟨index, symbol, here, spelled⟩
    exact ⟨onSymbols index, symbol, (matched.symbols index).trans here, spelled⟩

/-- The same names are taken, so the search for a new name ends with the same one. -/
theorem freshName (name : Text) : g'.freshName name = g.freshName name := by
  have free := g.index?_freshName name
  have free' := g'.index?_freshName name
  obtain ⟨quotes, spelled, taken⟩ := g.exists_freshName name
  obtain ⟨quotes', spelled', taken'⟩ := g'.exists_freshName name
  rw [spelled] at free
  rw [spelled'] at free'
  rw [spelled, spelled']
  rcases Nat.lt_trichotomy quotes quotes' with fewer | rfl | more
  · have known := taken' quotes fewer
    rw [matched.isSome_index? formed formed', free] at known
    cases known
  · rfl
  · have known := taken quotes' more
    rw [← matched.isSome_index? formed formed', free'] at known
    cases known

/-- The augmented productions go with each other. -/
private theorem exists_augmented (bare : g.augmented = none) {start : Nat} (chosen : g.start = some start) :
    ∃ grown grown', g.augment = .ok grown ∧ g'.augment = .ok grown' ∧
      grown.Matches grown' onSymbols (behind onProductions) := by
  have bound := lt_of_isNonTerminal (formed.chosen chosen)
  have named := name_ok bound
  have named' := (matched.name bound).trans named
  have bare' : g'.augmented = none := by rw [matched.augmented, bare, Option.map_none]
  have chosen' : g'.start = some (onSymbols start) := by rw [matched.start, chosen, Option.map_some]
  have goal : onSymbols g.symbols.length = g'.symbols.length := matched.beyond 0
  refine ⟨_, _, augment_of_name bare chosen named, augment_of_name bare' chosen' named', ?_⟩
  constructor
  case symbols =>
    intro index
    rw [matched.freshName formed formed']
    by_cases old : index < g.symbols.length
    · rw [List.getElem?_append_left (matched.lt_iff.mpr old), List.getElem?_append_left old,
        matched.symbols]
    · obtain ⟨more, rfl⟩ := Nat.exists_eq_add_of_le (Nat.le_of_not_lt old)
      rw [matched.beyond, List.getElem?_append_right (by omega), List.getElem?_append_right (by omega),
        Nat.add_sub_cancel_left, Nat.add_sub_cancel_left]
  case beyond =>
    intro more
    simp only [List.length_append, List.length_singleton, Nat.add_assoc, matched.beyond]
  case epsilon => exact matched.epsilon
  case endMark => exact matched.endMark
  case productions =>
    intro index
    cases index with
    | zero =>
      change some _ = some _
      simp [Production.renumber, goal]
    | succ index => exact matched.productions index
  case start => rfl
  case augmented => simp [goal]

end Matches

end Augmented

section Rules

variable {rules rules' : List Rule}

theorem Transcribes.productions_ne_nil (transcribes : g.Transcribes rules) (nonEmpty : rules ≠ []) :
    g.productions ≠ [] := by
  intro empty
  have reads := transcribes.reads
  rw [empty, List.forall₂_nil_right_iff] at reads
  exact nonEmpty reads

theorem Loaded.productions_ne_nil (loaded : g.Loaded) {symbol : Nat}
    (nonTerminal : g.isNonTerminal symbol = true) : g.productions ≠ [] := by
  obtain ⟨rules, success⟩ := loaded
  have transcribes := transcribes_of_ofRules success
  obtain ⟨name, here⟩ := isNonTerminal_iff.mp nonTerminal
  obtain ⟨rule, member, _⟩ := transcribes.heads here
  exact transcribes.productions_ne_nil (List.ne_nil_of_mem member)

theorem Transcribes.getElem?_eq_none (transcribes : g.Transcribes rules) {index : Nat}
    (missing : rules[index]? = none) : g.productions[index]? = none := by
  rw [List.getElem?_eq_none_iff] at missing ⊢
  rwa [← transcribes.reads.length_eq]

/-- Each of two grammars of the same rules is part of the other. -/
theorem partOf_of_perm (shuffled : rules.Perm rules') (success : ofRules rules = .ok g)
    (success' : ofRules rules' = .ok g') : g.PartOf g' rules rules' where
  formed := Loaded.wellFormed ⟨rules, success⟩
  formed' := Loaded.wellFormed ⟨rules', success'⟩
  small := transcribes_of_ofRules success
  big := transcribes_of_ofRules success'
  subset _ := shuffled.mem_iff.mp
  closed _ member _ _ _ := shuffled.mem_iff.mpr member

theorem PartOf.symbolIn_symbolIn (part : g.PartOf g' rules rules') (part' : g'.PartOf g rules' rules)
    (index : Nat) : g'.symbolIn g (g.symbolIn g' index) = index := by
  by_cases bound : index < g.symbols.length
  · have here := List.getElem?_eq_getElem bound
    have back := part'.getElem?_symbolIn (part.getElem?_symbolIn here)
    exact Option.some.inj ((part.formed.found back (Symbol.name_mem_spellings _)).symm.trans
      (part.formed.found here (Symbol.name_mem_spellings _)))
  · obtain ⟨more, rfl⟩ := Nat.exists_eq_add_of_le (Nat.le_of_not_lt bound)
    have beyond : g.symbolIn g' (g.symbols.length + more) = g'.symbols.length + more := by
      rw [PartOf.symbolIn_of_le (Nat.le_add_right _ _), Nat.add_sub_cancel_left]
    rw [beyond, PartOf.symbolIn_of_le (Nat.le_add_right _ _), Nat.add_sub_cancel_left]

private theorem PartOf.start_eq (part : g.PartOf g' rules rules')
    (leads : rules.head?.map Rule.head = rules'.head?.map Rule.head) (success : ofRules rules = .ok g)
    (success' : ofRules rules' = .ok g') : g'.start = g.start.map (g.symbolIn g') := by
  cases rules with
  | nil =>
    obtain rfl : rules' = [] := List.head?_eq_none_iff.mp (Option.map_eq_none_iff.mp leads.symm)
    obtain rfl := Except.ok.inj success
    obtain rfl := Except.ok.inj success'
    rfl
  | cons first rest =>
    obtain ⟨first', begins', same⟩ := Option.map_eq_some_iff.mp leads.symm
    obtain ⟨start, found, _⟩ := part.small.exists_head part.formed List.mem_cons_self
    rw [part.small.start rfl, part.big.start begins', same, found, part.index?_symbolIn found,
      Option.map_some]

/-- A permutation of the rules that keeps the first head makes a grammar that matches. -/
theorem exists_matches (shuffled : rules.Perm rules')
    (leads : rules.head?.map Rule.head = rules'.head?.map Rule.head) (success : ofRules rules = .ok g) :
    ∃ (g' : Grammar) (onSymbols onProductions : Equiv.Perm Nat), ofRules rules' = .ok g' ∧
      g.Matches g' onSymbols onProductions ∧ ∀ index, rules'[onProductions index]? = rules[index]? := by
  obtain ⟨placed, _⟩ := ofRules_eq_ok.mp success
  obtain ⟨g', success'⟩ : ∃ g', ofRules rules' = .ok g' :=
    ⟨_, ofRules_eq_ok.mpr ⟨fun rule member => placed rule (shuffled.mem_iff.mpr member), rfl⟩⟩
  have part := partOf_of_perm shuffled success success'
  have part' := partOf_of_perm shuffled.symm success' success
  obtain ⟨place, places⟩ := exists_places_of_perm shuffled
  refine ⟨g', ⟨g.symbolIn g', g'.symbolIn g, part.symbolIn_symbolIn part',
    part'.symbolIn_symbolIn part⟩, place, success', ?_, places⟩
  have bare := Loaded.augmented ⟨rules, success⟩
  have bare' := Loaded.augmented ⟨rules', success'⟩
  constructor
  case symbols => exact part.getElem?_symbolIn_eq
  case beyond =>
    intro more
    change g.symbolIn g' (g.symbols.length + more) = _
    rw [PartOf.symbolIn_of_le (Nat.le_add_right _ _), Nat.add_sub_cancel_left]
  case epsilon => exact part.symbolIn_epsilon
  case endMark => exact part.symbolIn_endMark
  case productions =>
    intro index
    change _ = g.productions[index]?.map (Production.renumber (g.symbolIn g'))
    cases found : rules[index]? with
    | none =>
      rw [part.small.getElem?_eq_none found, part.big.getElem?_eq_none ((places index).trans found),
        Option.map_none]
    | some rule =>
      obtain ⟨own, here, reads⟩ := part.small.exists_production found
      obtain ⟨other, there, reads'⟩ := part.big.exists_production ((places index).trans found)
      rw [here, there, part.renumber_of_reads reads reads', Option.map_some]
  case start => exact part.start_eq leads success success'
  case augmented => rw [bare, bare', Option.map_none]

end Rules

/-- Two matching grammars that were made from rules. Their augmentations match as well. -/
structure Rearranged (g grown g' grown' : Grammar) (onSymbols onProductions : Equiv.Perm Nat) : Prop where
  loaded : g.Loaded
  loaded' : g'.Loaded
  plain : g.Matches g' onSymbols onProductions
  extended : g.augment = .ok grown
  extended' : g'.augment = .ok grown'
  matched : grown.Matches grown' onSymbols (behind onProductions)

theorem Matches.exists_rearranged (matched : g.Matches g' onSymbols onProductions) (loaded : g.Loaded)
    (loaded' : g'.Loaded) {start : Nat} (chosen : g.start = some start) :
    ∃ grown grown', Rearranged g grown g' grown' onSymbols onProductions := by
  obtain ⟨grown, grown', extended, extended', goal⟩ :=
    matched.exists_augmented loaded.wellFormed loaded'.wellFormed loaded.augmented chosen
  exact ⟨grown, grown', loaded, loaded', matched, extended, extended', goal⟩

/-- A loaded grammar has the FOLLOW sets that its augmentation has for its symbols. -/
theorem Loaded.follow_eq (loaded : g.Loaded) {grown : Grammar} (extended : g.augment = .ok grown)
    {symbol : Nat} (nonTerminal : g.isNonTerminal symbol = true) :
    grown.firstFollow.follow.get symbol = g.firstFollow.follow.get symbol := by
  obtain ⟨start, from'⟩ := augment_eq_ok loaded.augmented extended
  have nonEmpty : g.productions ≠ [] := loaded.productions_ne_nil nonTerminal
  obtain ⟨first, leads, chosen⟩ := loaded.exists_first nonEmpty
  obtain rfl := Option.some.inj (chosen.symm.trans from'.chosen)
  rw [Family.get, from'.follow_eq loaded.wellFormed leads rfl nonTerminal, Family.get]

namespace Rearranged

variable {grown grown' : Grammar} (arranged : Rearranged g grown g' grown' onSymbols onProductions)
include arranged

theorem wellFormed : grown.WellFormed := Prepared.wellFormed (.inr ⟨g, arranged.loaded, arranged.extended⟩)

theorem wellFormed' : grown'.WellFormed :=
  Prepared.wellFormed (.inr ⟨g', arranged.loaded', arranged.extended'⟩)

theorem sameSets : grown.SameSets grown' onSymbols :=
  arranged.matched.sameSets rfl arranged.wellFormed arranged.wellFormed'

end Rearranged

/-- Which production comes first matters to the FOLLOW sets, but in both grammars the first head is the start
symbol. -/
theorem Matches.sameSets_of_loaded (matched : g.Matches g' onSymbols onProductions) (loaded : g.Loaded)
    (loaded' : g'.Loaded) : g.SameSets g' onSymbols where
  first _ nonTerminal := matched.namesOf_eq (fun _ => loaded.wellFormed.lt_of_mem_firstSets)
    fun _ => matched.mem_firstSets_iff loaded.wellFormed loaded'.wellFormed nonTerminal
  follow symbol nonTerminal := by
    refine matched.namesOf_eq (fun _ => loaded.wellFormed.lt_of_mem_follow) fun member => ?_
    have own := (matched.embeds.isNonTerminal symbol).trans nonTerminal
    obtain ⟨start, chosen⟩ := loaded.exists_start (loaded.productions_ne_nil nonTerminal)
    obtain ⟨grown, grown', arranged⟩ := matched.exists_rearranged loaded loaded' chosen
    obtain ⟨_, from'⟩ := augment_eq_ok loaded.augmented arranged.extended
    have kept : grown.isNonTerminal symbol = true := by simp [from'.isNonTerminal, nonTerminal]
    rw [← loaded.follow_eq arranged.extended nonTerminal, ← loaded'.follow_eq arranged.extended' own]
    exact arranged.matched.mem_follow_iff rfl arranged.wellFormed arranged.wellFormed' kept

end Grammar

end SimpleLR
