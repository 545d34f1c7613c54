import SimpleLR.SortedSet
import SimpleLR.Proofs.Grammar.Augmentation

namespace SimpleLR

/-- A view of the elements of a list does not see a change of one of them that it does not see. -/
theorem map_modify_of_same {α β : Type} {view : α → β} {change : α → α}
    (same : ∀ element, view (change element) = view element) (list : List α) (index : Nat) :
    (list.modify index change).map view = list.map view := by
  apply List.ext_getElem?
  intro position
  rw [List.getElem?_map, List.getElem?_map, List.getElem?_modify]
  cases list[position]? with
  | none => rfl
  | some element => by_cases here : index = position <;> simp [here, same]

namespace Catalogue

section View

variable {c : Catalogue}

@[simp] theorem Entry.symbol_list (production : Nat) (entry : Entry) :
    (entry.list production).symbol = entry.symbol := by
  cases entry <;> rfl

@[simp] theorem Entry.symbol_move (entry : Entry) : entry.move.symbol = entry.symbol := by
  cases entry <;> rfl

theorem map_symbol_modify (entries : List Entry) (head production : Nat) :
    (entries.modify head (Entry.list production)).map Entry.symbol = entries.map Entry.symbol :=
  map_modify_of_same (Entry.symbol_list production) entries head

theorem length_grammar : c.grammar.symbols.length = c.entries.length := List.length_map _

theorem getElem?_grammar (position : Nat) :
    c.grammar.symbols[position]? = c.entries[position]?.map Entry.symbol := List.getElem?_map

theorem name_grammar : c.grammar.name = c.name := by
  funext index
  rw [Grammar.name, name, getElem?_grammar]
  cases c.entries[index]? <;> rfl

theorem grammar_addNonTerminal (name : Text) :
    (c.addNonTerminal name).grammar = c.grammar.addNonTerminal name := by
  simp [grammar, addNonTerminal, Grammar.addNonTerminal, Entry.symbol]

theorem grammar_addTerminal (name : Text) : (c.addTerminal name).grammar = c.grammar.addTerminal name := by
  simp [grammar, addTerminal, Grammar.addTerminal, Entry.symbol]

theorem grammar_pushProduction (head : Nat) (body : List Nat) :
    (c.pushProduction head body).grammar = c.grammar.pushProduction head body := by
  simp [grammar, pushProduction, Grammar.pushProduction, map_symbol_modify]

theorem grammar_putInFront (start : Nat) (name : Text) : (c.putInFront start name).grammar =
    { c.grammar with
      symbols := c.grammar.symbols ++ [.nonTerminal name]
      productions := ⟨c.grammar.symbols.length, [start]⟩ :: c.productions
      augmented := some c.grammar.symbols.length } := by
  have moved : Entry.symbol ∘ Entry.move = Entry.symbol := funext Entry.symbol_move
  simp [grammar, putInFront, map_symbol_modify, moved, Entry.symbol, Entry.move]

private theorem isNonTerminal_grammar {position : Nat} : c.grammar.isNonTerminal position = true ↔
    ∃ index name listed, c.entries[position]? = some (.nonTerminal index name listed) := by
  rw [Grammar.isNonTerminal, getElem?_grammar]
  cases c.entries[position]? with
  | none => simp
  | some entry => cases entry <;> simp [Entry.symbol, Symbol.isNonTerminal]

end View

/-- The list has the productions of a head in ascending order. -/
structure Lists (productions : List Production) (head : Nat) (listed : List Nat) : Prop where
  ascending : listed.Pairwise (· < ·)
  mem : ∀ index, index ∈ listed ↔
    ∃ production, productions[index]? = some production ∧ production.head = head

namespace Lists

variable {productions : List Production} {head : Nat} {listed : List Nat}

theorem lt_of_mem (lists : Lists productions head listed) {index : Nat} (member : index ∈ listed) :
    index < productions.length := by
  obtain ⟨production, found, _⟩ := (lists.mem index).mp member
  exact (List.getElem?_eq_some_iff.mp found).1

theorem unique {other : List Nat} (first : Lists productions head listed)
    (second : Lists productions head other) : listed = other := by
  have same : (⟨listed, first.ascending⟩ : SortedSet Nat) = ⟨other, second.ascending⟩ :=
    SortedSet.ext fun index => (first.mem index).trans (second.mem index).symm
  exact congrArg SortedSet.toList same

theorem nil (without : ∀ production ∈ productions, production.head ≠ head) : Lists productions head [] where
  ascending := .nil
  mem index := by
    refine ⟨nofun, fun holds => ?_⟩
    obtain ⟨production, found, same⟩ := holds
    exact absurd same (without production (List.mem_of_getElem? found))

/-- What the last production adds to the list of a symbol. -/
theorem concat (lists : Lists productions head listed) (last : Production) :
    Lists (productions ++ [last]) head
      (if last.head = head then listed ++ [productions.length] else listed) := by
  have kept {index : Nat} (old : index < productions.length) :
      (productions ++ [last])[index]? = productions[index]? := List.getElem?_append_left old
  have split {index : Nat} : (∃ production, (productions ++ [last])[index]? = some production ∧
      production.head = head) ↔ index ∈ listed ∨ index = productions.length ∧ last.head = head := by
    by_cases old : index < productions.length
    · rw [kept old, lists.mem]
      simp [Nat.ne_of_lt old]
    · have outside : index ∉ listed := fun member => old (lists.lt_of_mem member)
      by_cases new : index = productions.length
      · subst new
        simp [outside]
      · rw [List.getElem?_eq_none (by simp; omega)]
        simp [outside, new]
  by_cases own : last.head = head
  · rw [if_pos own]
    refine ⟨List.pairwise_append.mpr ⟨lists.ascending, List.pairwise_singleton _ _, ?_⟩, fun index => ?_⟩
    · intro index member other same
      rw [List.mem_singleton.mp same]
      exact lists.lt_of_mem member
    · simp [split, own]
  · rw [if_neg own]
    exact ⟨lists.ascending, fun index => by simp [split, own]⟩

/-- A production of another head that is put in front moves the list. -/
theorem cons (lists : Lists productions head listed) {first : Production} (other : first.head ≠ head) :
    Lists (first :: productions) head (listed.map (· + 1)) where
  ascending := List.pairwise_map.mpr (lists.ascending.imp Nat.succ_lt_succ)
  mem index := by
    cases index with
    | zero => simp [other]
    | succ index => simp [lists.mem]

/-- The first production of a head is all there is in its list. -/
theorem singleton {first : Production} (lists : Lists productions first.head []) :
    Lists (first :: productions) first.head [0] where
  ascending := List.pairwise_singleton _ _
  mem index := by
    cases index with
    | zero => simp
    | succ index => simpa using lists.mem index

end Lists

private theorem lists_productionsOf {g : Grammar} {head : Nat} (nonTerminal : g.isNonTerminal head = true) :
    Lists g.productions head (g.productionsOf head) := by
  refine ⟨?_, fun index => by simp [Grammar.mem_productionsOf, nonTerminal]⟩
  have numbered : (g.productions.zipIdx.map (·.2)).Pairwise (· < ·) := by
    rw [List.zipIdx_map_snd]
    exact List.pairwise_lt_range'
  unfold Grammar.productionsOf
  rw [if_pos nonTerminal, List.pairwise_map]
  exact (List.pairwise_map.mp numbered).filter _

/-- A non-terminal knows its position and lists its productions. -/
def Entry.Right (productions : List Production) (position : Nat) : Entry → Prop
  | .nonTerminal index _ listed => index = position ∧ Lists productions position listed
  | _ => True

namespace Entry.Right

variable {productions : List Production} {position : Nat} {entry : Entry}
  (right : entry.Right productions position)
include right

theorem concat (last : Production) :
    (if last.head = position then entry.list productions.length else entry).Right
      (productions ++ [last]) position := by
  cases entry with
  | nonTerminal index name listed =>
    have longer := right.2.concat last
    by_cases own : last.head = position
    · rw [if_pos own] at longer ⊢
      exact ⟨right.1, longer⟩
    · rw [if_neg own] at longer ⊢
      exact ⟨right.1, longer⟩
  | _ => split <;> exact trivial

theorem move {first : Production} (other : first.head ≠ position) :
    entry.move.Right (first :: productions) position := by
  cases entry with
  | nonTerminal index name listed => exact ⟨right.1, right.2.cons other⟩
  | _ => exact trivial

end Entry.Right

/-- The books of a catalogue agree with its symbols and productions, and the augmented production comes
first once there is one. -/
structure InStep (c : Catalogue) : Prop where
  found : c.index? = c.grammar.index?
  right : ∀ {position : Nat} {entry : Entry}, c.entries[position]? = some entry →
    entry.Right c.productions position
  heads : ∀ production ∈ c.productions, production.head < c.entries.length
  bodies : ∀ production ∈ c.productions, production.body ≠ []
  chosen : ∀ {start : Nat}, c.start = some start → start < c.entries.length
  front : ∀ {head : Nat}, c.augmented = some head →
    c.grammar.isNonTerminal head = true ∧ ∃ start, c.productions[0]? = some ⟨head, [start]⟩

namespace InStep

variable {c : Catalogue}

theorem empty : Catalogue.empty.InStep where
  found := by
    funext name
    by_cases mark : name = endMarkName
    · subst mark
      decide
    · by_cases epsilon : name ∈ Symbol.epsilon.spellings
      · have known : ∀ name ∈ Symbol.epsilon.spellings,
            Catalogue.empty.index? name = Catalogue.empty.grammar.index? name := by decide
        exact known name epsilon
      · have free := Grammar.index?_empty epsilon mark
        simp only [Symbol.spellings, List.mem_cons, List.not_mem_nil, or_false, not_or] at epsilon
        refine Eq.trans ?_ free.symm
        simp only [index?, Catalogue.empty, List.lookup_cons, List.lookup_nil, beq_false_of_ne mark,
          beq_false_of_ne epsilon.1, beq_false_of_ne epsilon.2]
  right {position entry} here := by
    have member := List.mem_of_getElem? here
    simp only [Catalogue.empty, List.mem_cons, List.not_mem_nil, or_false] at member
    rcases member with rfl | rfl
    · exact trivial
    · exact trivial
  heads := by simp [Catalogue.empty]
  bodies := by simp [Catalogue.empty]
  chosen := by simp [Catalogue.empty]
  front := by simp [Catalogue.empty]

variable (books : c.InStep)
include books

theorem lists_new : Lists c.productions c.entries.length [] :=
  .nil fun production member => Nat.ne_of_lt (books.heads production member)

theorem found_grown {c' : Catalogue} {name : Text} {symbol : Symbol} (spelling : symbol.spellings = [name])
    (names : c'.names = (name, c.entries.length) :: c.names)
    (grown : c'.grammar.symbols = c.grammar.symbols ++ [symbol]) : c'.index? = c'.grammar.index? := by
  funext other
  rw [Grammar.index?_grown grown, spelling, ← books.found, index?, names, List.lookup_cons, length_grammar]
  by_cases same : other = name
  · simp [same]
  · simp [same, beq_false_of_ne same, index?]

/-- Books with a symbol added are in step if what is kept about the symbol is right. -/
theorem grown {c' : Catalogue} {name : Text} {entry : Entry} (spelling : entry.symbol.spellings = [name])
    (new : entry.Right c.productions c.entries.length) (entries : c'.entries = c.entries ++ [entry])
    (names : c'.names = (name, c.entries.length) :: c.names) (productions : c'.productions = c.productions)
    (augmented : c'.augmented = c.augmented)
    (chosen : ∀ start, c'.start = some start → c.start = some start ∨ start = c.entries.length) :
    c'.InStep := by
  have symbols : c'.grammar.symbols = c.grammar.symbols ++ [entry.symbol] := by simp [grammar, entries]
  have longer : c'.entries.length = c.entries.length + 1 := by simp [entries]
  refine ⟨books.found_grown spelling names symbols, fun {position other} here => ?_, ?_, ?_, ?_, ?_⟩
  · rw [productions]
    rw [entries] at here
    rcases cases_of_getElem?_concat here with old | last
    · exact books.right old
    · obtain ⟨rfl, rfl⟩ := last
      exact new
  · intro production member
    rw [longer]
    exact Nat.lt_succ_of_lt (books.heads production (productions ▸ member))
  · exact fun production member => books.bodies production (productions ▸ member)
  · intro start here
    rw [longer]
    rcases chosen start here with old | last
    · exact Nat.lt_succ_of_lt (books.chosen old)
    · omega
  · intro head here
    obtain ⟨nonTerminal, leads⟩ := books.front (augmented ▸ here)
    rw [productions, Grammar.isNonTerminal_grown symbols,
      if_neg (Nat.ne_of_lt (Grammar.lt_of_isNonTerminal nonTerminal))]
    exact ⟨nonTerminal, leads⟩

theorem addNonTerminal (name : Text) : (c.addNonTerminal name).InStep := by
  have new : Entry.Right c.productions c.entries.length (.nonTerminal c.entries.length name []) :=
    ⟨rfl, books.lists_new⟩
  refine books.grown rfl new rfl rfl rfl rfl fun start here => ?_
  cases old : c.start with
  | none => exact .inr (by simpa [Catalogue.addNonTerminal, old, eq_comm] using here)
  | some first => exact .inl (by simpa [Catalogue.addNonTerminal, old] using here)

theorem addTerminal (name : Text) : (c.addTerminal name).InStep := by
  have new : Entry.Right c.productions c.entries.length (.terminal name) := trivial
  exact books.grown rfl new rfl rfl rfl rfl fun _ => .inl

theorem pushProduction {head : Nat} (bound : head < c.entries.length) (body : List Nat) :
    (c.pushProduction head body).InStep where
  found := by
    funext name
    rw [grammar_pushProduction]
    exact congrFun books.found name
  right {position entry} here := by
    simp only [Catalogue.pushProduction, List.getElem?_modify, Option.map_eq_map,
      Option.map_eq_some_iff] at here
    obtain ⟨old, before, rfl⟩ := here
    exact (books.right before).concat _
  heads production member := by
    simp only [Catalogue.pushProduction, List.mem_append, List.length_modify] at member ⊢
    rcases member with old | last
    · exact books.heads production old
    · rw [List.mem_singleton.mp last]
      exact bound
  bodies production member := by
    rcases List.mem_append.mp member with old | last
    · exact books.bodies production old
    · rw [List.mem_singleton.mp last]
      cases body <;> simp
  chosen here := by
    rw [Catalogue.pushProduction, List.length_modify]
    exact books.chosen here
  front {other} here := by
    obtain ⟨nonTerminal, start, leads⟩ := books.front here
    rw [grammar_pushProduction]
    refine ⟨nonTerminal, start, ?_⟩
    rw [Catalogue.pushProduction, List.getElem?_append_left (List.getElem?_eq_some_iff.mp leads).1]
    exact leads

theorem addProduction {c' : Catalogue} {head : Nat} {body : List Nat}
    (success : c.addProduction head body = .ok c') : c'.InStep := by
  unfold Catalogue.addProduction at success
  split at success
  · rename_i bound
    obtain rfl := Except.ok.inj success
    exact books.pushProduction bound body
  · cases success

theorem putInFront (start : Nat) (name : Text) : (c.putInFront start name).InStep where
  found := books.found_grown rfl rfl (congrArg Grammar.symbols (grammar_putInFront start name))
  right {position entry} here := by
    simp only [Catalogue.putInFront, List.getElem?_modify, List.getElem?_map, Option.map_eq_map,
      Option.map_eq_some_iff] at here
    obtain ⟨_, ⟨old, before, rfl⟩, rfl⟩ := here
    rcases cases_of_getElem?_concat before with kept | last
    · have apart := Nat.ne_of_gt (List.getElem?_eq_some_iff.mp kept).1
      rw [if_neg apart]
      exact (books.right kept).move apart
    · obtain ⟨rfl, rfl⟩ := last
      rw [if_pos rfl]
      exact ⟨rfl, books.lists_new.singleton⟩
  heads production member := by
    simp only [Catalogue.putInFront, List.length_modify, List.length_map, List.length_append,
      List.length_singleton]
    rcases List.mem_cons.mp member with rfl | old
    · exact Nat.lt_succ_self _
    · exact Nat.lt_succ_of_lt (books.heads production old)
  bodies production member := by
    rcases List.mem_cons.mp member with rfl | old
    · exact List.cons_ne_nil _ _
    · exact books.bodies production old
  chosen here := by
    simp only [Catalogue.putInFront, List.length_modify, List.length_map, List.length_append]
    exact Nat.lt_of_lt_of_le (books.chosen here) (Nat.le_add_right _ _)
  front {head} here := by
    obtain rfl : c.entries.length = head := Option.some.inj here
    rw [Grammar.isNonTerminal_grown (congrArg Grammar.symbols (grammar_putInFront start name)),
      length_grammar, if_pos rfl]
    exact ⟨rfl, start, rfl⟩

end InStep

section Augmentation

variable {c : Catalogue}

/-- Of as many quoted forms as there are names and one more, not all are in the table. -/
theorem index?_freshName (c : Catalogue) (name : Text) : c.index? (c.freshName name) = none := by
  obtain ⟨quotes, _, taken, ends⟩ :=
    Grammar.primed_spec (fun name => (c.index? name).isSome) (c.names.length + 1) name
  rw [Option.isSome_eq_false_iff, Option.isNone_iff_eq_none] at ends
  apply ends.resolve_right
  rintro rfl
  -- If every form were taken, the table would have more names than it has.
  let forms := (List.range (c.names.length + 1)).map fun count => name ++ List.replicate count '\''
  have apart : forms.Nodup := by
    refine List.nodup_range.map fun count other same => ?_
    simpa using congrArg List.length same
  have inside : forms ⊆ c.names.map (·.1) := by
    intro form member
    obtain ⟨count, bound, rfl⟩ := List.mem_map.mp member
    obtain ⟨index, found⟩ := Option.isSome_iff_exists.mp (taken count (List.mem_range.mp bound))
    obtain ⟨before, behind, split, _⟩ := List.lookup_eq_some_iff.mp found
    exact List.mem_map.mpr ⟨(_, index), by simp [split], rfl⟩
  have fewer := apart.length_le_of_subset inside
  simp only [forms, List.length_map, List.length_range] at fewer
  omega

private theorem primed_unique {taken : Text → Bool} {limit other : Nat} {name : Text}
    (first : taken (Text.primed taken limit name) = false)
    (second : taken (Text.primed taken other name) = false) :
    Text.primed taken limit name = Text.primed taken other name := by
  obtain ⟨quotes, same, before, _⟩ := Grammar.primed_spec taken limit name
  obtain ⟨more, alike, earlier, _⟩ := Grammar.primed_spec taken other name
  rw [same] at first ⊢
  rw [alike] at second ⊢
  have equal : quotes = more := by
    apply Nat.le_antisymm
    · apply Nat.le_of_not_lt
      intro fewer
      rw [before more fewer] at second
      cases second
    · apply Nat.le_of_not_lt
      intro fewer
      rw [earlier quotes fewer] at first
      cases first
  rw [equal]

theorem InStep.freshName (books : c.InStep) (name : Text) :
    c.freshName name = c.grammar.freshName name := by
  have own := c.index?_freshName name
  have other := c.grammar.index?_freshName name
  unfold Grammar.freshName at other ⊢
  unfold Catalogue.freshName at own ⊢
  rw [books.found] at own ⊢
  exact primed_unique (by rw [own]; rfl) (by rw [other]; rfl)

/-- What an augmentation does: nothing if it was done before, nothing if it fails, and otherwise it puts a
production in front. -/
theorem augment_cases (c : Catalogue) :
    (∃ head, c.augmented = some head ∧ c.augment = (.ok head, c)) ∨
    (∃ failure, c.augmented = none ∧ c.augment = (.error failure, c)) ∨
    ∃ start name, c.augmented = none ∧ c.start = some start ∧ c.name start = .ok name ∧
      c.augment = (.ok c.entries.length, c.putInFront start (c.freshName name)) := by
  unfold augment
  split
  · rename_i head done
    exact .inl ⟨head, done, rfl⟩
  · rename_i bare _
    exact .inr (.inl ⟨_, bare, rfl⟩)
  · rename_i start bare chosen
    split
    · exact .inr (.inl ⟨_, bare, rfl⟩)
    · rename_i name named
      exact .inr (.inr ⟨start, name, bare, chosen, named, rfl⟩)

/-- A failed augmentation changes nothing. -/
theorem augment_of_failure {failure : Failure} (failed : c.augment.1 = .error failure) :
    c.augment.2 = c := by
  rcases c.augment_cases with ⟨head, _, same⟩ | ⟨other, _, same⟩ | ⟨start, name, _, _, _, same⟩
  · rw [same]
  · rw [same]
  · rw [same] at failed
    cases failed

theorem InStep.augment (books : c.InStep) : c.augment.2.InStep := by
  rcases c.augment_cases with ⟨head, _, same⟩ | ⟨failure, _, same⟩ | ⟨start, name, _, _, _, same⟩
  · rw [same]
    exact books
  · rw [same]
    exact books
  · rw [same]
    exact books.putInFront start _

/-- A catalogue in step is augmented as its grammar is. -/
theorem InStep.grammar_augment (books : c.InStep) :
    c.grammar.augment = c.augment.1.map fun _ => c.augment.2.grammar := by
  have marked : c.grammar.augmented = c.augmented := rfl
  have begins : c.grammar.start = c.start := rfl
  unfold Grammar.augment Catalogue.augment
  rw [marked, begins, name_grammar]
  cases c.augmented with
  | some head => rfl
  | none =>
    cases chosen : c.start with
    | none => rfl
    | some start =>
      cases named : c.name start with
      | error fault => simp only [named, Failure.ofFault, Except.mapError, Except.map, bind, Except.bind]
      | ok name =>
        simp only [named, Failure.ofFault, Except.mapError, Except.map, bind, Except.bind, pure,
          Except.pure, grammar_putInFront, books.freshName, begins, chosen]
        rfl

end Augmentation

/-- The list of a non-terminal is what its grammar finds. -/
theorem InStep.productionsOf {c : Catalogue} (books : c.InStep) {position : Nat}
    (nonTerminal : c.grammar.isNonTerminal position = true) :
    c.productionsOf position = .ok (c.grammar.productionsOf position) ∧
      Lists c.productions position (c.grammar.productionsOf position) := by
  obtain ⟨index, name, listed, here⟩ := isNonTerminal_grammar.mp nonTerminal
  have lists : Lists c.productions position (c.grammar.productionsOf position) :=
    lists_productionsOf nonTerminal
  obtain ⟨_, own⟩ := books.right here
  refine ⟨?_, lists⟩
  rw [Catalogue.productionsOf, here, lists.unique own]
  rfl

theorem InStep.productionsOf_ok {c : Catalogue} (books : c.InStep) {position : Nat}
    (bound : position < c.entries.length) : c.productionsOf position = .ok (c.grammar.productionsOf position) := by
  by_cases nonTerminal : c.grammar.isNonTerminal position = true
  · exact (books.productionsOf nonTerminal).1
  · have here := List.getElem?_eq_getElem bound
    rw [Catalogue.productionsOf, here, Grammar.productionsOf, if_neg nonTerminal]
    rw [Grammar.isNonTerminal, getElem?_grammar, here] at nonTerminal
    cases same : c.entries[position] with
    | nonTerminal _ _ _ => simp [same, Entry.symbol, Symbol.isNonTerminal] at nonTerminal
    | _ => rfl

end Catalogue

end SimpleLR
