import SimpleLR.Proofs.Automaton.Machine
import SimpleLR.Proofs.Grammar.Solid
import SimpleLR.Proofs.Listing.Indexed
import SimpleLR.Proofs.Markup.Escaping

/-! Items told apart by their texts. The dot is one more word of the body, and nothing keeps a symbol from having its
name. Where no symbol has, an item is known by its text and by its formula, and a state by the texts of its
kernel. -/
namespace SimpleLR

namespace Text

/-- A head and words are told from the text that a mark and blanks make of them. -/
theorem parts_of_rule {mark head other : Text} {words others : List Text} (free : ' ' ∉ head) (free' : ' ' ∉ other)
    (solid : ∀ word ∈ words, ' ' ∉ word) (solid' : ∀ word ∈ others, ' ' ∉ word) (nonEmpty : words ≠ [])
    (nonEmpty' : others ≠ [])
    (same : head ++ ' ' :: mark ++ joined " " words = other ++ ' ' :: mark ++ joined " " others) :
    head = other ∧ words = others := by
  have cut := congrArg (cut? (' ' :: mark)) same
  rw [cut?_append free, cut?_append free'] at cut
  obtain ⟨heads, bodies⟩ := Prod.mk.inj (Option.some.inj cut)
  have pieces := congrArg (pieces (· == ' ')) bodies
  have first : Text.pieces (· == ' ') (joined " " words) = words := pieces_joined solid nonEmpty
  have second : Text.pieces (· == ' ') (joined " " others) = others := pieces_joined solid' nonEmpty'
  exact ⟨heads, first.symm.trans (pieces.trans second)⟩

end Text

private theorem Production.body_of_symbols {production other : Production} (filled : production.body ≠ [])
    (filled' : other.body ≠ []) (same : production.symbols = other.symbols) : production.body = other.body := by
  unfold symbols at same
  split at same <;> split at same
  · rename_i one two
    exact (eq_of_beq one).trans (eq_of_beq two).symm
  · exact absurd same.symm filled'
  · exact absurd same filled
  · exact same

private theorem Automaton.Subsets.number_of_kernel {g : Grammar} {automaton : Automaton} (subsets : automaton.Subsets g)
    {number other : Nat} {state state' : State} (here : automaton.states[number]? = some state)
    (there : automaton.states[other]? = some state') (same : state.kernel = state'.kernel) : number = other := by
  have bound : number < (automaton.states.map State.kernel).length := by
    rw [List.length_map]
    exact (List.getElem?_eq_some_iff.mp here).1
  apply (List.getElem?_inj bound subsets.apart).mp
  rw [List.getElem?_map, List.getElem?_map, here, there, Option.map_some, Option.map_some, same]

namespace Grammar

section Dot

variable {names others : List Text} {position place : Nat}

theorem dotted_ne_nil (position : Nat) (names : List Text) : dotted position names ≠ [] := by
  simp [dotted]

private theorem forall_mem_dotted {holds : Text → Prop} (own : holds dot) (each : ∀ name ∈ names, holds name) :
    ∀ name ∈ dotted position names, holds name := by
  intro name member
  rcases List.mem_append.mp member with before | behind
  · exact each name (List.mem_of_mem_take before)
  · rcases List.mem_cons.mp behind with rfl | after
    · exact own
    · exact each name (List.mem_of_mem_drop after)

private theorem dotted_map_escape (position : Nat) (names : List Text) :
    dotted position (names.map Tex.escape) = (dotted position names).map Tex.escape := by
  have own : Tex.escape dot = dot := Tex.escape_of_plain (by decide)
  simp [dotted, List.map_take, List.map_drop, own]

theorem count_dotted (position : Nat) (names : List Text) :
    (dotted position names).count dot = names.count dot + 1 := by
  rw [dotted, List.count_append, List.count_cons_self, ← Nat.add_assoc, ← List.count_append, List.take_append_drop]

private theorem dotted_injective (apart : dot ∉ names ∨ dot ∉ others) (inside : position ≤ names.length)
    (inside' : place ≤ others.length) (same : dotted position names = dotted place others) :
    names = others ∧ position = place := by
  -- Both lists of words have one dot more than their names, so that neither list of names has one.
  have counts := congrArg (List.count dot) same
  rw [count_dotted, count_dotted] at counts
  have free : dot ∉ names := by
    rcases apart with own | other
    · exact own
    · rw [← List.count_eq_zero] at other ⊢
      omega
  obtain ⟨before, _, behind⟩ := (List.append_cons_inj_of_notMem (fun member => free (List.mem_of_mem_take member))
    fun member => free (List.mem_of_mem_drop member)).mp same
  have lengths := congrArg List.length before
  rw [List.length_take_of_le inside, List.length_take_of_le inside'] at lengths
  refine ⟨?_, lengths⟩
  rw [← List.take_append_drop position names, before, behind, List.take_append_drop]

/-- On the two sides of a name that is that of the dot, the words are the same. -/
theorem dotted_beside (before behind : List Text) :
    dotted before.length (before ++ dot :: behind) = dotted (before.length + 1) (before ++ dot :: behind) := by
  have cut : before ++ dot :: behind = (before ++ [dot]) ++ behind := by rw [List.append_cons]
  have length : before.length + 1 = (before ++ [dot]).length := by rw [List.length_append, List.length_singleton]
  have left : dotted before.length (before ++ dot :: behind) = before ++ dot :: dot :: behind := by
    rw [dotted, List.take_left, List.drop_left]
  rw [left, cut, length, dotted, List.take_left, List.drop_left, List.append_assoc, List.singleton_append]

end Dot

/-- A production that has the name of the dot in its body. -/
def HoldsDot (g : Grammar) (index : Nat) : Prop :=
  ∃ production symbol, g.productions[index]? = some production ∧ symbol ∈ production.symbols ∧
    g.name symbol = .ok dot

variable {g : Grammar} {item first second : Item} {head : Text} {names others : List Text}

section Words

private theorem production_eq_ok {index : Nat} {production : Production} :
    g.production index = .ok production ↔ g.productions[index]? = some production := by
  refine ⟨fun success => ?_, production_ok⟩
  unfold Grammar.production at success
  split at success
  · rename_i found
    exact Except.ok.inj success ▸ found
  · cases success

theorem itemWords_eq_ok : g.itemWords item = .ok (head, names) ↔
    ∃ production, g.productions[item.production]? = some production ∧ g.name production.head = .ok head ∧
      production.symbols.mapM g.name = .ok names := by
  constructor
  · intro success
    obtain ⟨production, found, success⟩ := Result.bind_eq_ok.mp success
    obtain ⟨own, spelled, success⟩ := Result.bind_eq_ok.mp success
    obtain ⟨first, named, same⟩ := Result.bind_eq_ok.mp success
    obtain ⟨rfl, rfl⟩ := Prod.mk.inj (Except.ok.inj same)
    exact ⟨production, production_eq_ok.mp found, named, spelled⟩
  · rintro ⟨production, found, named, spelled⟩
    exact Result.bind_eq_ok.mpr ⟨_, production_ok found, Result.bind_eq_ok.mpr ⟨_, spelled,
      Result.bind_eq_ok.mpr ⟨_, named, rfl⟩⟩⟩

theorem dot_mem_iff (words : g.itemWords item = .ok (head, names)) : dot ∈ names ↔ g.HoldsDot item.production := by
  obtain ⟨production, found, _, spelled⟩ := itemWords_eq_ok.mp words
  constructor
  · intro member
    obtain ⟨symbol, inside, own⟩ := Result.exists_of_mem_results spelled member
    exact ⟨production, symbol, found, inside, own⟩
  · rintro ⟨other, symbol, there, inside, own⟩
    obtain rfl := Option.some.inj (found.symm.trans there)
    obtain ⟨place, here⟩ := List.mem_iff_getElem?.mp inside
    obtain ⟨name, stands, named⟩ := Result.getElem?_of_mapM spelled here
    obtain rfl := Except.ok.inj (own.symm.trans named)
    exact List.mem_of_getElem? stands

theorem length_of_itemWords (words : g.itemWords item = .ok (head, names)) (member : item ∈ g.allItems) :
    item.position ≤ names.length := by
  obtain ⟨production, found, _, spelled⟩ := itemWords_eq_ok.mp words
  obtain ⟨other, there, bound⟩ := mem_allItems.mp member
  obtain rfl := Option.some.inj (found.symm.trans there)
  rwa [Result.length_of_mapM spelled]

theorem itemText_of_words (words : g.itemWords item = .ok (head, names)) :
    g.itemText item = .ok (head ++ " -> " ++ Text.joined " " (dotted item.position names)) :=
  Result.bind_eq_ok.mpr ⟨_, words, rfl⟩

theorem itemTex_of_words (words : g.itemWords item = .ok (head, names)) :
    g.itemTex item = .ok ("$" ++ Tex.escape head ++ " \\rightarrow " ++
      Text.joined " " ((dotted item.position names).map Tex.escape) ++ "$") := by
  rw [← dotted_map_escape]
  exact Result.bind_eq_ok.mpr ⟨_, words, rfl⟩

end Words

section Apart

private theorem Named.mapM_name_injective (named : g.Named) {word other : List Nat} (one : word.mapM g.name = .ok names)
    (two : other.mapM g.name = .ok names) : word = other := by
  apply Result.eq_of_mapM one two
  intro symbol member symbol' _ same
  obtain ⟨place, here⟩ := List.mem_iff_getElem?.mp member
  obtain ⟨name, _, own⟩ := Result.getElem?_of_mapM one here
  exact named.name_injective own (same ▸ own)

variable (formed : g.WellFormed) (distinct : g.productions.Nodup)
include formed distinct

private theorem WellFormed.production_of_words (one : g.itemWords first = .ok (head, names))
    (two : g.itemWords second = .ok (head, names)) : first.production = second.production := by
  obtain ⟨production, found, own, spelled⟩ := itemWords_eq_ok.mp one
  obtain ⟨other, there, own', spelled'⟩ := itemWords_eq_ok.mp two
  have heads := formed.name_injective own own'
  have symbols := formed.mapM_name_injective spelled spelled'
  have bodies := Production.body_of_symbols (formed.fits_of_getElem? found).body
    (formed.fits_of_getElem? there).body symbols
  obtain ⟨bound, here⟩ := List.getElem?_eq_some_iff.mp found
  obtain ⟨bound', here'⟩ := List.getElem?_eq_some_iff.mp there
  apply distinct.getElem_inj_iff.mp
  rw [here, here']
  cases production
  cases other
  exact congrArg₂ Production.mk heads bodies

/-- Items are told from their heads and words, unless both bodies have the name of the dot. -/
theorem WellFormed.item_of_words (inside : first ∈ g.allItems) (inside' : second ∈ g.allItems)
    (one : g.itemWords first = .ok (head, names)) (two : g.itemWords second = .ok (head, others))
    (apart : g.HoldsDot first.production → ¬ g.HoldsDot second.production)
    (same : dotted first.position names = dotted second.position others) : first = second := by
  have free : dot ∉ names ∨ dot ∉ others := by
    rw [dot_mem_iff one, dot_mem_iff two]
    exact not_and_or.mp fun both => apart both.1 both.2
  obtain ⟨rfl, positions⟩ :=
    dotted_injective free (length_of_itemWords one inside) (length_of_itemWords two inside') same
  obtain ⟨production, position⟩ := first
  obtain ⟨production', position'⟩ := second
  exact congrArg₂ Item.mk (formed.production_of_words distinct one two) positions

omit distinct in
theorem WellFormed.exists_solid_words (solid : g.Solid) (inside : item ∈ g.allItems) : ∃ head names,
    g.itemWords item = .ok (head, names) ∧ (∀ c ∈ head, Text.isBlank c = false) ∧
      ∀ word ∈ dotted item.position names, ∀ c ∈ word, Text.isBlank c = false := by
  obtain ⟨production, found, _⟩ := mem_allItems.mp inside
  obtain ⟨⟨head, names⟩, words⟩ := formed.indexed.exists_itemWords (List.getElem?_eq_some_iff.mp found).1
  obtain ⟨_, _, own, spelled⟩ := itemWords_eq_ok.mp words
  refine ⟨head, names, words, solid.name own, forall_mem_dotted ?_ (solid.names spelled)⟩
  exact List.forall_mem_singleton.mpr rfl

variable (solid : g.Solid) (inside : first ∈ g.allItems) (inside' : second ∈ g.allItems)
  (apart : g.HoldsDot first.production → ¬ g.HoldsDot second.production)
include solid inside inside' apart

theorem WellFormed.item_of_text (same : g.itemText first = g.itemText second) : first = second := by
  have blank {words : List Text} (free : ∀ word ∈ words, ∀ c ∈ word, Text.isBlank c = false) :
      ∀ word ∈ words, ' ' ∉ word := fun word member => Text.blank_not_mem_of_solid (free word member)
  obtain ⟨head, names, words, free, others⟩ := formed.exists_solid_words solid inside
  obtain ⟨head', names', words', free', others'⟩ := formed.exists_solid_words solid inside'
  rw [itemText_of_words words, itemText_of_words words'] at same
  obtain ⟨rfl, bodies⟩ := Text.parts_of_rule (Text.blank_not_mem_of_solid free) (Text.blank_not_mem_of_solid free')
    (blank others) (blank others') (dotted_ne_nil _ _) (dotted_ne_nil _ _) (Except.ok.inj same)
  exact formed.item_of_words distinct inside inside' words words' apart bodies

private theorem WellFormed.item_of_tex (same : g.itemTex first = g.itemTex second) : first = second := by
  have blank {text : Text} (free : ∀ c ∈ text, Text.isBlank c = false) : ' ' ∉ Tex.escape text :=
    mt (Tex.mem_escape (by decide) (by decide)).mp (Text.blank_not_mem_of_solid free)
  have opened {text : Text} (free : ∀ c ∈ text, Text.isBlank c = false) : ' ' ∉ "$" ++ Tex.escape text := by
    rw [List.mem_append, not_or]
    exact ⟨by decide, blank free⟩
  have escaped {words : List Text} (free : ∀ word ∈ words, ∀ c ∈ word, Text.isBlank c = false) :
      ∀ word ∈ words.map Tex.escape, ' ' ∉ word :=
    List.forall_mem_map.mpr fun name member => blank (free name member)
  obtain ⟨head, names, words, free, others⟩ := formed.exists_solid_words solid inside
  obtain ⟨head', names', words', free', others'⟩ := formed.exists_solid_words solid inside'
  rw [itemTex_of_words words, itemTex_of_words words'] at same
  obtain ⟨heads, bodies⟩ := Text.parts_of_rule (opened free) (opened free') (escaped others) (escaped others')
    (by simp [dotted]) (by simp [dotted]) (List.append_cancel_right (Except.ok.inj same))
  obtain rfl := Tex.escape_injective (List.append_cancel_left heads)
  exact formed.item_of_words distinct inside inside' words words' apart
    (List.map_injective_iff.mpr Tex.escape_injective bodies)

end Apart

private theorem WellFormed.beside_of_holdsDot (formed : g.WellFormed) {index : Nat}
    (holds : g.HoldsDot index) : ∃ position,
    Item.mk index position ∈ g.allItems ∧ Item.mk index (position + 1) ∈ g.allItems ∧
      g.itemText ⟨index, position⟩ = g.itemText ⟨index, position + 1⟩ ∧
      g.itemTex ⟨index, position⟩ = g.itemTex ⟨index, position + 1⟩ := by
  have ⟨production, _, found, _⟩ := holds
  have bound := (List.getElem?_eq_some_iff.mp found).1
  obtain ⟨⟨head, names⟩, words⟩ : ∃ words, g.itemWords ⟨index, 0⟩ = .ok words := formed.indexed.exists_itemWords bound
  obtain ⟨before, behind, rfl⟩ := List.append_of_mem ((dot_mem_iff words).mpr holds)
  have shown (position : Nat) : g.itemWords ⟨index, position⟩ = .ok (head, before ++ dot :: behind) := words
  have length : before.length + 1 ≤ production.length := by
    obtain ⟨other, there, _, spelled⟩ := itemWords_eq_ok.mp words
    obtain rfl := Option.some.inj (found.symm.trans there)
    have lengths := Result.length_of_mapM spelled
    rw [List.length_append, List.length_cons] at lengths
    rw [Production.length, ← lengths]
    omega
  refine ⟨before.length, mem_allItems.mpr ⟨production, found, Nat.le_of_succ_le length⟩,
    mem_allItems.mpr ⟨production, found, length⟩, ?_, ?_⟩
  · rw [itemText_of_words (shown _), itemText_of_words (shown _), dotted_beside]
  · rw [itemTex_of_words (shown _), itemTex_of_words (shown _), dotted_beside]

theorem kernel_of_stateListing {state : State} {listing : StateListing} (success : g.stateListing state = .ok listing) :
    state.kernel.toList.mapM g.itemText = .ok listing.kernel := by
  obtain ⟨kernel, shown, success⟩ := Result.bind_eq_ok.mp success
  obtain ⟨extend, _, success⟩ := Result.bind_eq_ok.mp success
  obtain ⟨edges, _, success⟩ := Result.bind_eq_ok.mp success
  obtain ⟨formulas, _, same⟩ := Result.bind_eq_ok.mp success
  rw [← Except.ok.inj same]
  exact shown

section Kernels

variable (formed : g.WellFormed) (distinct : g.productions.Nodup) (solid : g.Solid)
include formed distinct solid

omit distinct in
private theorem WellFormed.spaced_itemText (inside : item ∈ g.allItems) {text : Text}
    (success : g.itemText item = .ok text) :
    Text.Spaced text ∧ text ≠ [] := by
  obtain ⟨head, names, words, free, others⟩ := formed.exists_solid_words solid inside
  rw [itemText_of_words words] at success
  rw [← Except.ok.inj success]
  exact ⟨Text.spaced_rule free others, by simp⟩

private theorem WellFormed.kernel_of_texts {kernel other : List Item} (inside : ∀ item ∈ kernel, item ∈ g.allItems)
    (inside' : ∀ item ∈ other, item ∈ g.allItems) {texts texts' : List Text}
    (one : kernel.mapM g.itemText = .ok texts) (two : other.mapM g.itemText = .ok texts')
    (same : Text.joined "\n" texts = Text.joined "\n" texts')
    (free : ∀ first ∈ kernel, ∀ second ∈ other, g.HoldsDot first.production → ¬ g.HoldsDot second.production) :
    kernel = other := by
  have lines {items : List Item} {texts : List Text} (inside : ∀ item ∈ items, item ∈ g.allItems)
      (shown : items.mapM g.itemText = .ok texts) : Text.lines (Text.joined "\n" texts) = texts := by
    have spaced : ∀ text ∈ texts, Text.Spaced text ∧ text ≠ [] := by
      intro text member
      obtain ⟨item, present, own⟩ := Result.exists_of_mem_results shown member
      exact formed.spaced_itemText solid (inside item present) own
    exact Text.lines_joined (fun text member => (spaced text member).1.single) fun text member => (spaced text member).2
  have texts_eq := congrArg Text.lines same
  rw [lines inside one, lines inside' two] at texts_eq
  refine Result.eq_of_mapM one (texts_eq ▸ two) fun first member second member' looks => ?_
  exact formed.item_of_text distinct solid (inside first member) (inside' second member')
    (free first member second member') looks

/-- A state is known by the texts of its kernel, with the same exception. -/
theorem WellFormed.number_of_texts {automaton : Automaton} (subsets : automaton.Subsets g) {number other : Nat}
    {state state' : State} {shown shown' : StateListing} (here : automaton.states[number]? = some state)
    (there : automaton.states[other]? = some state') (own : g.stateListing state = .ok shown)
    (own' : g.stateListing state' = .ok shown')
    (looks : Text.joined "\n" shown.kernel = Text.joined "\n" shown'.kernel)
    (free : ∀ first ∈ state.kernel, ∀ second ∈ state'.kernel,
      g.HoldsDot first.production → ¬ g.HoldsDot second.production) : number = other := by
  have inside {number : Nat} {state : State} (found : automaton.states[number]? = some state) :
      ∀ item ∈ state.kernel.toList, item ∈ g.allItems := fun item member =>
    mem_allItems.mpr (subsets.within state (List.mem_of_getElem? found) item (List.mem_append_left _ member))
  have lists := formed.kernel_of_texts distinct solid (inside here) (inside there) (kernel_of_stateListing own)
    (kernel_of_stateListing own') looks free
  refine subsets.number_of_kernel here there (SortedSet.ext fun item => ?_)
  rw [← SortedSet.mem_toList, ← SortedSet.mem_toList, lists]

end Kernels

theorem AugmentedFrom.nodup {start : Nat} {g' : Grammar} (from' : g.AugmentedFrom start g') (formed : g.WellFormed)
    (distinct : g.productions.Nodup) : g'.productions.Nodup := by
  rw [from'.productions, List.nodup_cons]
  refine ⟨fun member => ?_, distinct⟩
  have old := lt_of_isNonTerminal (formed.fits _ member).head
  exact Nat.lt_irrefl _ old

/-- Items of a grammar text without repeated productions are told apart by their texts, and by their formulas, unless
the bodies of both have a symbol with the name of the dot. In every such body two items do look the same. Two states
whose kernels look the same each have a kernel item with such a body. -/
theorem items_told_apart {text : Text} (read : ofText text = .ok g) (distinct : g.productions.Nodup) :
    (∀ item ∈ g.allItems, (∃ shown, g.itemText item = .ok shown) ∧ ∃ formula, g.itemTex item = .ok formula) ∧
    (∀ first ∈ g.allItems, ∀ second ∈ g.allItems, first ≠ second →
      (g.HoldsDot first.production → ¬ g.HoldsDot second.production) →
      g.itemText first ≠ g.itemText second ∧ g.itemTex first ≠ g.itemTex second) ∧
    (∀ index, g.HoldsDot index → ∃ position,
      Item.mk index position ∈ g.allItems ∧ Item.mk index (position + 1) ∈ g.allItems ∧
        g.itemText ⟨index, position⟩ = g.itemText ⟨index, position + 1⟩ ∧
        g.itemTex ⟨index, position⟩ = g.itemTex ⟨index, position + 1⟩) ∧
    ∀ grown automaton, g.automaton = .ok (grown, automaton) →
      ∃ listing, grown.automatonListing automaton = .ok listing ∧
        listing.states.length = automaton.states.length ∧
        ∀ (number other : Nat) state state' shown shown', number ≠ other →
          automaton.states[number]? = some state → automaton.states[other]? = some state' →
          listing.states[number]? = some shown → listing.states[other]? = some shown' →
          Text.joined "\n" shown.kernel = Text.joined "\n" shown'.kernel →
          (∃ item ∈ state.kernel, grown.HoldsDot item.production) ∧
            ∃ item ∈ state'.kernel, grown.HoldsDot item.production := by
  have loaded := loaded_of_text read
  have formed := loaded.wellFormed
  have solid := solid_of_text read
  refine ⟨fun item member => ?_, fun first inside second inside' differ free => ⟨?_, ?_⟩,
    fun index => formed.beside_of_holdsDot, fun grown automaton success => ?_⟩
  · obtain ⟨production, found, _⟩ := mem_allItems.mp member
    have bound := (List.getElem?_eq_some_iff.mp found).1
    exact ⟨formed.indexed.exists_itemText bound, formed.indexed.exists_itemTex bound⟩
  · exact fun same => differ (formed.item_of_text distinct solid inside inside' free same)
  · exact fun same => differ (formed.item_of_tex distinct solid inside inside' free same)
  · obtain ⟨extended, collected⟩ := automaton_eq_ok.mp success
    obtain ⟨start, from'⟩ := augment_eq_ok loaded.augmented extended
    have goal := from'.augmented' formed
    have canonical := canonical_of_collection goal.first collected
    obtain ⟨listing, listed⟩ := (canonical.indexed goal).exists_listing goal.toWellFormed.indexed
    obtain ⟨states, shows, same⟩ := Result.bind_eq_ok.mp listed
    obtain rfl := Except.ok.inj same
    refine ⟨_, listed, Result.length_of_mapM shows, ?_⟩
    intro number other state state' shown shown' differ here here' there there' looks
    by_contra missing
    obtain ⟨_, found, own⟩ := Result.getElem?_of_mapM shows here
    obtain rfl := Option.some.inj (there.symm.trans found)
    obtain ⟨_, found', own'⟩ := Result.getElem?_of_mapM shows here'
    obtain rfl := Option.some.inj (there'.symm.trans found')
    have subsets := WellFormed.subsets goal.first collected goal.toWellFormed
    exact differ (goal.toWellFormed.number_of_texts (from'.nodup formed distinct) (solid.augment extended) subsets
      here here' own own' looks
      fun first member second member' one two => missing ⟨⟨first, member, one⟩, second, member', two⟩)

/-- The grammar of `S -> .`, whose body is a symbol of the name of the dot. -/
def stop : Grammar where
  symbols := [.epsilon, .endMark, .nonTerminal "S", .terminal "."]
  productions := [⟨2, [3]⟩]
  start := some 2
  augmented := none

/-- A symbol may have the name of the dot, and then two items look the same. -/
theorem not_always_apart : ¬ ∀ text g, ofText text = .ok g → g.productions.Nodup →
    ∀ first ∈ g.allItems, ∀ second ∈ g.allItems, first ≠ second →
      g.itemText first ≠ g.itemText second ∧ g.itemTex first ≠ g.itemTex second := by
  intro always
  have apart := always "S -> ." stop rfl (by decide) ⟨0, 0⟩ (by decide) ⟨0, 1⟩ (by decide) (by decide)
  exact apart.1 rfl

/-- The grammar of `S -> .` and `S -> a`. -/
def stopOrLetter : Grammar where
  symbols := [.epsilon, .endMark, .nonTerminal "S", .terminal ".", .terminal "a"]
  productions := [⟨2, [3]⟩, ⟨2, [4]⟩]
  start := some 2
  augmented := none

/-- With a body of the name of the dot and another one, only the items of the first look the same, and the first two
states do not. -/
theorem items_told_apart_stop : ofText "S -> . | a" = .ok stopOrLetter ∧ stopOrLetter.productions.Nodup ∧
    stopOrLetter.itemText ⟨0, 1⟩ ≠ stopOrLetter.itemText ⟨1, 0⟩ ∧
    stopOrLetter.itemTex ⟨1, 0⟩ ≠ stopOrLetter.itemTex ⟨1, 1⟩ ∧
    (∃ position, stopOrLetter.itemText ⟨0, position⟩ = stopOrLetter.itemText ⟨0, position + 1⟩) ∧
    ∃ grown automaton listing shown shown', stopOrLetter.automaton = .ok (grown, automaton) ∧
      grown.automatonListing automaton = .ok listing ∧ listing.states[0]? = some shown ∧
      listing.states[1]? = some shown' ∧ Text.joined "\n" shown.kernel ≠ Text.joined "\n" shown'.kernel := by
  have distinct : stopOrLetter.productions.Nodup := by decide
  have holds : stopOrLetter.HoldsDot 0 := ⟨⟨2, [3]⟩, 3, rfl, by decide, rfl⟩
  have free : ¬ stopOrLetter.HoldsDot 1 := by
    rintro ⟨production, symbol, found, inside, own⟩
    obtain rfl := Option.some.inj found
    obtain rfl := List.mem_singleton.mp inside
    exact absurd (Except.ok.inj own) (by decide)
  have read : ofText "S -> . | a" = .ok stopOrLetter := rfl
  obtain ⟨_, apart, beside, states⟩ := items_told_apart read distinct
  obtain ⟨position, _, _, looks, _⟩ := beside 0 holds
  obtain ⟨⟨grown, automaton⟩, success, shows⟩ := Result.exists_of_evaluated stopOrLetter.automaton
    (fun made => made.2.states.length == 4 && made.2.states[0]?.map (·.kernel) == some startKernel &&
      made.1.productions[0]? == some ⟨5, [2]⟩ && made.1.symbols[2]? == some (.nonTerminal "S")) (by decide +kernel)
  refine ⟨read, distinct, (apart ⟨0, 1⟩ (by decide) ⟨1, 0⟩ (by decide) (by decide) fun _ => free).1,
    (apart ⟨1, 0⟩ (by decide) ⟨1, 1⟩ (by decide) (by decide) fun _ => free).2, ⟨position, looks⟩, ?_⟩
  simp only [Bool.and_eq_true, beq_iff_eq] at shows
  obtain ⟨⟨⟨count, start⟩, production⟩, symbol⟩ := shows
  obtain ⟨listing, listed, lengths, alike⟩ := states grown automaton success
  have state (number : Nat) (bound : number < 4) : ∃ state shown, automaton.states[number]? = some state ∧
      listing.states[number]? = some shown :=
    ⟨_, _, List.getElem?_eq_getElem (count ▸ bound), List.getElem?_eq_getElem (lengths ▸ count ▸ bound)⟩
  obtain ⟨first, shown, here, there⟩ := state 0 (by decide)
  obtain ⟨second, shown', here', there'⟩ := state 1 (by decide)
  refine ⟨grown, automaton, listing, shown, shown', success, listed, there, there', fun same => ?_⟩
  obtain ⟨⟨item, member, other, name, found, inside, own⟩, _⟩ :=
    alike 0 1 first second shown shown' (by decide) here here' there there' same
  rw [here, Option.map_some] at start
  rw [Option.some.inj start, mem_startKernel] at member
  rw [member] at found
  obtain rfl := Option.some.inj (production.symm.trans found)
  obtain rfl := List.mem_singleton.mp inside
  rw [Grammar.name, symbol] at own
  exact absurd (Except.ok.inj own) (by decide)

end Grammar

end SimpleLR
