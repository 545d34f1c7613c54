import SimpleLR.Grammar.Rules
import Mathlib.Data.List.Forall2

namespace SimpleLR

theorem Symbol.name_mem_spellings (symbol : Symbol) : symbol.name ∈ symbol.spellings := by
  cases symbol <;> simp [spellings, name]

theorem cases_of_getElem?_concat {α : Type} {list : List α} {last value : α} {position : Nat}
    (here : (list ++ [last])[position]? = some value) :
    list[position]? = some value ∨ position = list.length ∧ last = value := by
  rw [List.getElem?_append] at here
  split at here
  · exact .inl here
  · rw [List.getElem?_singleton] at here
    split at here
    · exact .inr ⟨by omega, Option.some.inj here⟩
    · cases here

namespace Grammar

variable {g g' : Grammar}

theorem spelled_of_index? {name : Text} {index : Nat} (found : g.index? name = some index) :
    ∃ symbol, g.symbols[index]? = some symbol ∧ name ∈ symbol.spellings := by
  obtain ⟨⟨symbol, position⟩, chosen, rfl⟩ := Option.map_eq_some_iff.mp found
  have spelled := List.find?_some chosen
  have member := List.mem_of_find?_eq_some chosen
  rw [List.mem_reverse, List.mem_zipIdx_iff_getElem?] at member
  exact ⟨symbol, member, by simpa using spelled⟩

theorem index?_grown {symbol : Symbol} (grown : g'.symbols = g.symbols ++ [symbol]) (name : Text) :
    g'.index? name =
      if symbol.spellings.contains name then some g.symbols.length else g.index? name := by
  rw [index?, grown, List.zipIdx_append]
  simp only [List.zipIdx_singleton, List.reverse_append, List.reverse_singleton,
    List.singleton_append, List.find?_cons, Nat.zero_add]
  cases symbol.spellings.contains name <;> rfl

private theorem any_grown {symbol : Symbol} (grown : g'.symbols = g.symbols ++ [symbol])
    (test : Symbol → Bool) (index : Nat) : g'.symbols[index]?.any test =
      if index = g.symbols.length then test symbol else g.symbols[index]?.any test := by
  rw [grown]
  by_cases last : index = g.symbols.length
  · simp [last]
  · rw [if_neg last, List.getElem?_append]
    split
    · rfl
    · rw [List.getElem?_eq_none (by simp; omega), List.getElem?_eq_none (by omega)]

theorem isTerminal_grown {symbol : Symbol} (grown : g'.symbols = g.symbols ++ [symbol])
    (index : Nat) : g'.isTerminal index =
      if index = g.symbols.length then symbol.isTerminal else g.isTerminal index :=
  any_grown grown _ index

theorem isNonTerminal_grown {symbol : Symbol} (grown : g'.symbols = g.symbols ++ [symbol])
    (index : Nat) : g'.isNonTerminal index =
      if index = g.symbols.length then symbol.isNonTerminal else g.isNonTerminal index :=
  any_grown grown _ index

section Kinds

variable {index : Nat}

theorem isTerminal_iff :
    g.isTerminal index = true ↔ ∃ name, g.symbols[index]? = some (.terminal name) := by
  unfold isTerminal
  cases g.symbols[index]? with
  | none => simp
  | some symbol => cases symbol <;> simp [Symbol.isTerminal]

theorem isNonTerminal_iff :
    g.isNonTerminal index = true ↔ ∃ name, g.symbols[index]? = some (.nonTerminal name) := by
  unfold isNonTerminal
  cases g.symbols[index]? with
  | none => simp
  | some symbol => cases symbol <;> simp [Symbol.isNonTerminal]

theorem lt_of_isTerminal (terminal : g.isTerminal index = true) : index < g.symbols.length := by
  obtain ⟨name, found⟩ := isTerminal_iff.mp terminal
  exact (List.getElem?_eq_some_iff.mp found).1

theorem lt_of_isNonTerminal (nonTerminal : g.isNonTerminal index = true) :
    index < g.symbols.length := by
  obtain ⟨name, found⟩ := isNonTerminal_iff.mp nonTerminal
  exact (List.getElem?_eq_some_iff.mp found).1

theorem mem_terminals : index ∈ g.terminals ↔ g.isTerminal index = true := by
  rw [terminals, List.mem_filter, List.mem_range, and_iff_right_iff_imp]
  exact lt_of_isTerminal

theorem mem_nonTerminals : index ∈ g.nonTerminals ↔ g.isNonTerminal index = true := by
  rw [nonTerminals, List.mem_filter, List.mem_range, and_iff_right_iff_imp]
  exact lt_of_isNonTerminal

theorem mem_productionsOf {index symbol : Nat} : index ∈ g.productionsOf symbol ↔
    g.isNonTerminal symbol = true ∧
      ∃ production, g.productions[index]? = some production ∧ production.head = symbol := by
  unfold productionsOf
  split
  · rename_i nonTerminal
    simp only [nonTerminal, true_and, List.mem_map, List.mem_filter, beq_iff_eq, Prod.exists]
    constructor
    · intro holds
      obtain ⟨production, _, ⟨member, same⟩, rfl⟩ := holds
      exact ⟨production, List.mem_zipIdx_iff_getElem?.mp member, same⟩
    · intro holds
      obtain ⟨production, found, same⟩ := holds
      exact ⟨production, index, ⟨List.mem_zipIdx_iff_getElem?.mpr found, same⟩, rfl⟩
  · rename_i other
    simp [other]

theorem isNonTerminal_of_listed (listed : index ∈ g.listedNonTerminals) : g.isNonTerminal index = true :=
  mem_nonTerminals.mp (List.mem_filter.mp listed).1

theorem isTerminal_eq_false_of_isNonTerminal (nonTerminal : g.isNonTerminal index = true) :
    g.isTerminal index = false := by
  obtain ⟨name, found⟩ := isNonTerminal_iff.mp nonTerminal
  simp [isTerminal, found, Symbol.isTerminal]

theorem isNonTerminal_eq_false_of_isTerminal (terminal : g.isTerminal index = true) :
    g.isNonTerminal index = false := by
  obtain ⟨name, found⟩ := isTerminal_iff.mp terminal
  simp [isNonTerminal, found, Symbol.isNonTerminal]

theorem name_ok (bound : index < g.symbols.length) : g.name index = .ok g.symbols[index].name := by
  simp [name, List.getElem?_eq_getElem bound]

theorem production_ok {production : Production} (found : g.productions[index]? = some production) :
    g.production index = .ok production := by
  rw [Grammar.production, found]

theorem lt_of_name {name : Text} (named : g.name index = .ok name) : index < g.symbols.length := by
  unfold Grammar.name at named
  split at named
  · rename_i found
    exact (List.getElem?_eq_some_iff.mp found).1
  · cases named

theorem terminal_of_name {name : Text} (terminal : g.isTerminal index = true) (own : g.name index = .ok name) :
    g.symbols[index]? = some (.terminal name) := by
  obtain ⟨other, here⟩ := isTerminal_iff.mp terminal
  obtain rfl : other = name := by simpa [Grammar.name, here, Symbol.name] using own
  exact here

theorem nonTerminal_of_name {name : Text} (nonTerminal : g.isNonTerminal index = true)
    (own : g.name index = .ok name) : g.symbols[index]? = some (.nonTerminal name) := by
  obtain ⟨other, here⟩ := isNonTerminal_iff.mp nonTerminal
  obtain rfl : other = name := by simpa [Grammar.name, here, Symbol.name] using own
  exact here

end Kinds

/-- What a name finds that is neither epsilon nor the end mark is a terminal or a non-terminal. -/
theorem proper_of_index? {index : Nat} {name : Text} (found : g.index? name = some index)
    (notEpsilon : name ∉ Symbol.epsilon.spellings) (notEnd : name ≠ endMarkName) :
    g.isTerminal index = true ∨ g.isNonTerminal index = true := by
  obtain ⟨symbol, here, spelled⟩ := spelled_of_index? found
  cases symbol with
  | epsilon => exact absurd spelled notEpsilon
  | endMark => exact absurd (List.mem_singleton.mp spelled) notEnd
  | terminal name => exact .inl (isTerminal_iff.mpr ⟨name, here⟩)
  | nonTerminal name => exact .inr (isNonTerminal_iff.mpr ⟨name, here⟩)

theorem name_of_index? {index : Nat} {name : Text} (found : g.index? name = some index)
    (proper : g.isTerminal index = true ∨ g.isNonTerminal index = true) :
    g.name index = .ok name := by
  obtain ⟨symbol, here, spelled⟩ := spelled_of_index? found
  rcases proper with terminal | nonTerminal
  · obtain ⟨own, same⟩ := isTerminal_iff.mp terminal
    obtain rfl := Option.some.inj (here.symm.trans same)
    obtain rfl := List.mem_singleton.mp spelled
    simp [Grammar.name, here, Symbol.name]
  · obtain ⟨own, same⟩ := isNonTerminal_iff.mp nonTerminal
    obtain rfl := Option.some.inj (here.symm.trans same)
    obtain rfl := List.mem_singleton.mp spelled
    simp [Grammar.name, here, Symbol.name]

/-- A grammar whose first two symbols are epsilon and the end mark, and in which every name of a
symbol finds that symbol. -/
structure Named (g : Grammar) : Prop where
  epsilon : g.symbols[epsilonIndex]? = some .epsilon
  endMark : g.symbols[endMarkIndex]? = some .endMark
  found : ∀ {index : Nat} {symbol : Symbol} {name : Text}, g.symbols[index]? = some symbol →
    name ∈ symbol.spellings → g.index? name = some index

theorem Named.empty : Grammar.empty.Named where
  epsilon := rfl
  endMark := rfl
  found := by
    intro index symbol name here spelled
    match index with
    | 0 =>
      obtain rfl : Symbol.epsilon = symbol := by simpa [Grammar.empty] using here
      rcases List.mem_cons.mp spelled with rfl | other
      · decide
      · obtain rfl := List.mem_singleton.mp other
        decide
    | 1 =>
      obtain rfl : Symbol.endMark = symbol := by simpa [Grammar.empty] using here
      obtain rfl := List.mem_singleton.mp spelled
      decide
    | index + 2 => simp [Grammar.empty] at here

section Named

variable (named : g.Named)
include named

theorem Named.grown {symbol : Symbol} (grown : g'.symbols = g.symbols ++ [symbol])
    (new : ∀ name ∈ symbol.spellings, g.index? name = none) : g'.Named where
  epsilon := by
    rw [grown, List.getElem?_append_left (List.getElem?_eq_some_iff.mp named.epsilon).1]
    exact named.epsilon
  endMark := by
    rw [grown, List.getElem?_append_left (List.getElem?_eq_some_iff.mp named.endMark).1]
    exact named.endMark
  found := by
    intro index other name here spelled
    rw [index?_grown grown]
    rw [grown] at here
    rcases cases_of_getElem?_concat here with before | last
    · have kept := named.found before spelled
      have apart : symbol.spellings.contains name = false := by
        rw [Bool.eq_false_iff]
        intro contained
        rw [new name (by simpa using contained)] at kept
        cases kept
      rw [apart]
      exact kept
    · obtain ⟨rfl, rfl⟩ := last
      rw [if_pos (by simpa using spelled)]

theorem Named.index?_of_name {index : Nat} {name : Text} (named' : g.name index = .ok name) :
    g.index? name = some index := by
  unfold Grammar.name at named'
  split at named'
  · rename_i symbol here
    cases named'
    exact named.found here symbol.name_mem_spellings
  · cases named'

theorem Named.name_injective {index other : Nat} {name : Text} (first : g.name index = .ok name)
    (second : g.name other = .ok name) : index = other := by
  have same := (named.index?_of_name first).symm.trans (named.index?_of_name second)
  exact Option.some.inj same

theorem Named.index?_endMarkName : g.index? endMarkName = some endMarkIndex :=
  named.found named.endMark (by simp [Symbol.spellings, Symbol.name])

theorem Named.isTerminal_endMark : g.isTerminal endMarkIndex = false := by
  simp [isTerminal, named.endMark, Symbol.isTerminal]

theorem Named.isTerminal_epsilon : g.isTerminal epsilonIndex = false := by
  simp [isTerminal, named.epsilon, Symbol.isTerminal]

theorem Named.isNonTerminal_epsilon : g.isNonTerminal epsilonIndex = false := by
  simp [isNonTerminal, named.epsilon, Symbol.isNonTerminal]

theorem Named.name_ne_endMarkName {index : Nat} {name : Text}
    (terminal : g.isTerminal index = true) (named' : g.name index = .ok name) :
    name ≠ endMarkName := by
  rintro rfl
  have same := (named.index?_of_name named').symm.trans named.index?_endMarkName
  rw [Option.some.inj same, named.isTerminal_endMark] at terminal
  cases terminal

theorem Named.endMarkName_not_mem {word : List Nat} {names : List Text}
    (terminals : ∀ symbol ∈ word, g.isTerminal symbol = true)
    (spelled : List.Forall₂ (fun symbol name => g.name symbol = .ok name) word names) :
    endMarkName ∉ names := by
  induction spelled with
  | nil => simp
  | cons own _ ih =>
    have apart := named.name_ne_endMarkName (terminals _ List.mem_cons_self) own
    have later := ih fun symbol member => terminals symbol (by simp [member])
    simp [apart.symm, later]

end Named

end Grammar

end SimpleLR
