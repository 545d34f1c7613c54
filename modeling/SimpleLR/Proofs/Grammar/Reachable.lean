import SimpleLR.Discovery
import SimpleLR.Proofs.Automaton.Closure
import SimpleLR.Proofs.Grammar.Embedding
import SimpleLR.Proofs.Grammar.Spelling

namespace SimpleLR

namespace Rule

/-- The names that a name leads to, over the bodies of the rules that it heads. -/
inductive Reached (rules : List Rule) (root : Text) : Text → Prop where
  | root : Reached rules root root
  | body {rule : Rule} {name : Text} (head : Reached rules root rule.head) (member : rule ∈ rules)
      (inside : name ∈ rule.body) : Reached rules root name

/-- These names in the order of discovery. -/
def reachedNames (rules : List Rule) (root : Text) : List Text :=
  discover (fun _ name => (rules.filter (·.head == name)).flatMap Rule.body)
    (1 + (rules.flatMap Rule.body).length) [] [root]

/-- The rules whose heads the first head leads to. -/
def reachable : List Rule → List Rule
  | [] => []
  | first :: rest => (first :: rest).filter fun rule =>
      (reachedNames (first :: rest) first.head).contains rule.head

variable {rules : List Rule} {root name : Text}

private theorem mem_next {head : Text} :
    name ∈ (rules.filter (·.head == head)).flatMap Rule.body ↔
      ∃ rule ∈ rules, rule.head = head ∧ name ∈ rule.body := by
  simp [List.mem_flatMap, and_assoc]

theorem mem_reachedNames : name ∈ reachedNames rules root ↔ Reached rules root name := by
  constructor
  · intro member
    refine forall_mem_discover _ (fun own waits => ?_) ?_ name member
    · obtain rfl : own = root := by simpa using waits
      exact .root
    · intro known head holds served own leads
      obtain ⟨rule, present, rfl, inside⟩ := mem_next.mp leads
      exact .body (holds _ served) present inside
  · intro reached
    have ⟨begun, led⟩ := discover_complete
      (fun _ name => (rules.filter (·.head == name)).flatMap Rule.body)
      (root :: rules.flatMap Rule.body)
      (fun _ head _ _ own leads => by
        obtain ⟨rule, present, _, inside⟩ := mem_next.mp leads
        exact List.mem_cons_of_mem root (List.mem_flatMap.mpr ⟨rule, present, inside⟩))
      (1 + (rules.flatMap Rule.body).length) [] [root] (by simp) (by simp)
      (by simp [Nat.add_comm])
    induction reached with
    | root => exact begun root (by simp)
    | @body rule name _ present inside ih =>
      obtain ⟨before, after, split⟩ := List.append_of_mem ih
      refine led before rule.head ⟨after, ?_⟩ (Nat.zero_le _) name
        (mem_next.mpr ⟨rule, present, rfl, inside⟩)
      simpa [reachedNames] using split.symm

theorem mem_reachable {first rule : Rule} {rest : List Rule} : rule ∈ reachable (first :: rest) ↔
    rule ∈ first :: rest ∧ Reached (first :: rest) first.head rule.head := by
  rw [reachable, List.mem_filter, List.contains_iff_mem, mem_reachedNames]

theorem mem_of_mem_reachable {rule : Rule} (member : rule ∈ reachable rules) : rule ∈ rules := by
  cases rules with
  | nil => exact member
  | cons first rest => exact (mem_reachable.mp member).1

theorem head?_reachable : (reachable rules).head? = rules.head? := by
  cases rules with
  | nil => rfl
  | cons first rest =>
    have own : first.head ∈ reachedNames (first :: rest) first.head := mem_reachedNames.mpr .root
    simp [reachable, own]

private theorem mem_reachable_of_occurs {rule other : Rule} (member : rule ∈ rules)
    (reached : other ∈ reachable rules)
    (occurs : rule.head = other.head ∨ rule.head ∈ other.body) : rule ∈ reachable rules := by
  cases rules with
  | nil => exact member
  | cons first rest =>
    obtain ⟨present, head⟩ := mem_reachable.mp reached
    apply mem_reachable.mpr
    refine ⟨member, ?_⟩
    rcases occurs with same | inside
    · exact same ▸ head
    · exact .body head present inside

end Rule

/-- Places in a list with one more value in front, which keeps the first place. -/
def placeBehind (place : Nat → Nat) : Nat → Nat
  | 0 => 0
  | index + 1 => place index + 1

theorem placeBehind_injective {place : Nat → Nat} (injective : Function.Injective place) :
    Function.Injective (placeBehind place) := by
  intro first second same
  cases first <;> cases second <;> simp_all [placeBehind, injective.eq_iff]

/-- What is kept of a list stands at certain places of the list. -/
private theorem exists_places_of_filter {α : Type} (keep : α → Bool) (list : List α) :
    ∃ place : Nat → Nat, Function.Injective place ∧
      (∀ {index value}, (list.filter keep)[index]? = some value → list[place index]? = some value) ∧
      ∀ {index value}, list[index]? = some value → keep value = true →
        ∃ before, index = place before ∧ (list.filter keep)[before]? = some value := by
  induction list with
  | nil => exact ⟨id, Function.injective_id, by simp, by simp⟩
  | cons first rest ih =>
    obtain ⟨place, injective, kept, found⟩ := ih
    by_cases own : keep first = true
    · rw [List.filter_cons_of_pos own]
      refine ⟨placeBehind place, placeBehind_injective injective, ?_, ?_⟩
      · intro index value here
        cases index with
        | zero => exact here
        | succ index => exact kept here
      · intro index value here keeps
        cases index with
        | zero => exact ⟨0, rfl, here⟩
        | succ index =>
          obtain ⟨before, rfl, there⟩ := found here keeps
          exact ⟨before + 1, rfl, there⟩
    · rw [List.filter_cons_of_neg own]
      refine ⟨fun index => place index + 1, fun _ _ same => injective (Nat.succ.inj same), kept, ?_⟩
      intro index value here keeps
      cases index with
      | zero => exact absurd (Option.some.inj here ▸ keeps) own
      | succ index =>
        obtain ⟨before, rfl, there⟩ := found here keeps
        exact ⟨before, rfl, there⟩

theorem Rule.exists_places (rules : List Rule) : ∃ place : Nat → Nat, Function.Injective place ∧
    (∀ {index rule}, (reachable rules)[index]? = some rule → rules[place index]? = some rule) ∧
    ∀ {index rule}, rules[index]? = some rule → rule ∈ reachable rules →
      ∃ before, index = place before ∧ (reachable rules)[before]? = some rule := by
  cases rules with
  | nil => exact ⟨id, Function.injective_id, id, fun found _ => ⟨_, rfl, found⟩⟩
  | cons first rest =>
    obtain ⟨place, injective, kept, found⟩ := exists_places_of_filter
      (fun rule => (reachedNames (first :: rest) first.head).contains rule.head) (first :: rest)
    exact ⟨place, injective, kept, fun here reached => found here (List.mem_filter.mp reached).2⟩

namespace Grammar

/-- The number that a symbol of a grammar has in another grammar, by its name. What is no symbol of the
one is none of the other. -/
def symbolIn (small big : Grammar) (index : Nat) : Nat :=
  match small.symbols[index]? with
  | some symbol => (big.index? symbol.name).getD epsilonIndex
  | none => big.symbols.length + (index - small.symbols.length)

/-- A grammar that was made of some of the rules of another one: of all rules whose heads stand in
one of these rules. -/
structure PartOf (small big : Grammar) (kept rules : List Rule) : Prop where
  formed : small.WellFormed
  formed' : big.WellFormed
  small : small.Transcribes kept
  big : big.Transcribes rules
  subset : ∀ rule ∈ kept, rule ∈ rules
  closed : ∀ rule ∈ rules, ∀ other ∈ kept, rule.head = other.head ∨ rule.head ∈ other.body → rule ∈ kept

namespace PartOf

variable {small big : Grammar} {kept rules : List Rule} (part : small.PartOf big kept rules)
include part

/-- A name that is found in the smaller grammar is found in the larger one, as the number there. -/
theorem index?_symbolIn {name : Text} {index : Nat} (found : small.index? name = some index) :
    big.index? name = some (small.symbolIn big index) := by
  obtain ⟨symbol, here, spelled⟩ := spelled_of_index? found
  have known {rule : Rule} (member : rule ∈ kept) (occurs : name = rule.head ∨ name ∈ rule.body)
      (own : symbol.name = name) : big.index? name = some (small.symbolIn big index) := by
    obtain ⟨other, there⟩ := part.big.exists_index (part.subset rule member) occurs
    simp [symbolIn, here, own, there]
  cases symbol with
  | epsilon =>
    have own := part.formed'.found part.formed'.epsilon (Symbol.name_mem_spellings .epsilon)
    simp [symbolIn, here, own, part.formed'.found part.formed'.epsilon spelled]
  | endMark =>
    have own := part.formed'.found part.formed'.endMark (Symbol.name_mem_spellings .endMark)
    simp [symbolIn, here, own, part.formed'.found part.formed'.endMark spelled]
  | terminal own =>
    obtain rfl := List.mem_singleton.mp spelled
    obtain ⟨rule, member, inside⟩ := part.small.bodies here
    exact known member (.inr inside) rfl
  | nonTerminal own =>
    obtain rfl := List.mem_singleton.mp spelled
    obtain ⟨rule, member, head⟩ := part.small.heads here
    exact known member (.inl head.symm) rfl

theorem symbolIn_epsilon : small.symbolIn big epsilonIndex = epsilonIndex := by
  have found := part.formed.found part.formed.epsilon (Symbol.name_mem_spellings .epsilon)
  have found' := part.formed'.found part.formed'.epsilon (Symbol.name_mem_spellings .epsilon)
  exact Option.some.inj ((part.index?_symbolIn found).symm.trans found')

theorem symbolIn_endMark : small.symbolIn big endMarkIndex = endMarkIndex :=
  Option.some.inj
    ((part.index?_symbolIn part.formed.index?_endMarkName).symm.trans part.formed'.index?_endMarkName)

/-- A symbol has the same kind and name in the larger grammar. -/
theorem getElem?_symbolIn {index : Nat} {symbol : Symbol}
    (here : small.symbols[index]? = some symbol) :
    big.symbols[small.symbolIn big index]? = some symbol := by
  have own := part.formed.found here symbol.name_mem_spellings
  obtain ⟨other, there, spelled⟩ := spelled_of_index? (part.index?_symbolIn own)
  cases symbol with
  | epsilon =>
    obtain rfl := Option.some.inj (own.symm.trans
      (part.formed.found part.formed.epsilon (Symbol.name_mem_spellings .epsilon)))
    rw [part.symbolIn_epsilon, part.formed'.epsilon]
  | endMark =>
    obtain rfl := Option.some.inj (own.symm.trans part.formed.index?_endMarkName)
    rw [part.symbolIn_endMark, part.formed'.endMark]
  | nonTerminal name =>
    obtain ⟨rule, member, rfl⟩ := part.small.heads here
    obtain ⟨head, found, nonTerminal⟩ :=
      part.big.exists_head part.formed' (part.subset rule member)
    obtain rfl := Option.some.inj (found.symm.trans (part.index?_symbolIn own))
    obtain ⟨name, same⟩ := isNonTerminal_iff.mp nonTerminal
    obtain rfl := Option.some.inj (there.symm.trans same)
    rw [show rule.head = name from List.mem_singleton.mp spelled]
    exact there
  | terminal name =>
    cases other with
    | epsilon =>
      obtain rfl := Option.some.inj (own.symm.trans (part.formed.found part.formed.epsilon spelled))
      exact nomatch here.symm.trans part.formed.epsilon
    | endMark =>
      obtain rfl := Option.some.inj (own.symm.trans (part.formed.found part.formed.endMark spelled))
      exact nomatch here.symm.trans part.formed.endMark
    | terminal other =>
      rw [show name = other from List.mem_singleton.mp spelled]
      exact there
    | nonTerminal other =>
      -- A rule of the larger grammar with this head would be in the smaller one as well.
      obtain rfl := List.mem_singleton.mp spelled
      obtain ⟨rule, member, inside⟩ := part.small.bodies here
      obtain ⟨header, present, rfl⟩ := part.big.heads there
      have again := part.closed header present rule member (.inr inside)
      obtain ⟨head, found, nonTerminal⟩ := part.small.exists_head part.formed again
      obtain rfl := Option.some.inj (found.symm.trans own)
      obtain ⟨_, same⟩ := isNonTerminal_iff.mp nonTerminal
      exact nomatch here.symm.trans same

omit part in
theorem symbolIn_of_le {index : Nat} (beyond : small.symbols.length ≤ index) :
    small.symbolIn big index = big.symbols.length + (index - small.symbols.length) := by
  rw [symbolIn, List.getElem?_eq_none beyond]

theorem symbolIn_lt {index : Nat} (bound : index < small.symbols.length) :
    small.symbolIn big index < big.symbols.length :=
  (List.getElem?_eq_some_iff.mp (part.getElem?_symbolIn (List.getElem?_eq_getElem bound))).1

private theorem symbolIn_injective : Function.Injective (small.symbolIn big) := by
  intro first second same
  by_cases one : first < small.symbols.length <;> by_cases two : second < small.symbols.length
  · have here := List.getElem?_eq_getElem one
    have there := List.getElem?_eq_getElem two
    have equal := (part.getElem?_symbolIn here).symm.trans (same ▸ part.getElem?_symbolIn there)
    rw [← Option.some.inj equal] at there
    exact Option.some.inj ((part.formed.found here (Symbol.name_mem_spellings _)).symm.trans
      (part.formed.found there (Symbol.name_mem_spellings _)))
  · have inside := part.symbolIn_lt one
    rw [same, symbolIn_of_le (Nat.le_of_not_lt two)] at inside
    omega
  · have inside := part.symbolIn_lt two
    rw [← same, symbolIn_of_le (Nat.le_of_not_lt one)] at inside
    omega
  · rw [symbolIn_of_le (Nat.le_of_not_lt one), symbolIn_of_le (Nat.le_of_not_lt two)] at same
    omega

theorem getElem?_symbolIn_eq (index : Nat) :
    big.symbols[small.symbolIn big index]? = small.symbols[index]? := by
  by_cases bound : index < small.symbols.length
  · have here := List.getElem?_eq_getElem bound
    rw [here, part.getElem?_symbolIn here]
  · have beyond := Nat.le_of_not_lt bound
    rw [symbolIn_of_le beyond, List.getElem?_eq_none beyond, List.getElem?_eq_none (by omega)]

theorem any_symbolIn (test : Symbol → Bool) (index : Nat) :
    big.symbols[small.symbolIn big index]?.any test = small.symbols[index]?.any test := by
  rw [part.getElem?_symbolIn_eq]

theorem name_symbolIn {index : Nat} (bound : index < small.symbols.length) :
    big.name (small.symbolIn big index) = small.name index := by
  rw [Grammar.name, Grammar.name, part.getElem?_symbolIn_eq, List.getElem?_eq_getElem bound]

theorem mapM_name {word : List Nat} (bound : ∀ symbol ∈ word, symbol < small.symbols.length) :
    (word.map (small.symbolIn big)).mapM big.name = word.mapM small.name := by
  induction word with
  | nil => rfl
  | cons symbol word ih =>
    rw [List.map_cons, List.mapM_cons, List.mapM_cons, part.name_symbolIn (bound symbol (by simp)),
      ih fun other member => bound other (by simp [member])]

/-- The productions of a rule differ in the numbers of their symbols only. -/
theorem renumber_of_reads {rule : Rule} {own other : Production} (reads : small.Reads rule own)
    (reads' : big.Reads rule other) : other = own.renumber (small.symbolIn big) := by
  obtain ⟨head, indices, found, body⟩ := reads
  obtain ⟨head', indices', found', body'⟩ := reads'
  have same : indices' = indices.map (small.symbolIn big) := by
    clear body body'
    generalize rule.body = names at found found'
    induction found generalizing indices' with
    | nil => cases found'; rfl
    | cons first _ ih =>
      cases found' with
      | cons first' rest' =>
        rw [List.map_cons, ← ih _ rest',
          Option.some.inj (first'.symm.trans (part.index?_symbolIn first))]
  obtain ⟨own, form⟩ := own
  obtain ⟨other, form'⟩ := other
  obtain rfl := Option.some.inj (head'.symm.trans (part.index?_symbolIn head))
  obtain rfl : form = _ := body
  obtain rfl : form' = _ := body'
  subst same
  cases indices with
  | nil => simp [Production.renumber, part.symbolIn_epsilon]
  | cons first rest => rfl

theorem embeds {place : Nat → Nat} (injective : Function.Injective place)
    (places : ∀ {index rule}, kept[index]? = some rule → rules[place index]? = some rule)
    (found : ∀ {index rule}, rules[index]? = some rule → rule ∈ kept →
      ∃ before, index = place before ∧ kept[before]? = some rule) :
    small.Embeds big (small.symbolIn big) place where
  injective := part.symbolIn_injective
  apart := injective
  epsilon := part.symbolIn_epsilon
  endMark := part.symbolIn_endMark
  isTerminal := part.any_symbolIn Symbol.isTerminal
  isNonTerminal := part.any_symbolIn Symbol.isNonTerminal
  productions := by
    intro index production here
    obtain ⟨rule, own, reads⟩ := part.small.exists_rule here
    obtain ⟨other, there, reads'⟩ := part.big.exists_production (places own)
    rw [there, part.renumber_of_reads reads reads']
  closed := by
    intro index symbol production here head
    obtain ⟨rule, own, reads⟩ := part.big.exists_rule here
    have nonTerminal := (part.formed'.fits_of_getElem? here).head
    rw [head, isNonTerminal, part.any_symbolIn] at nonTerminal
    obtain ⟨name, known⟩ := isNonTerminal_iff.mp nonTerminal
    obtain ⟨other, member, rfl⟩ := part.small.heads known
    obtain ⟨_, there, spelled⟩ := spelled_of_index? (head ▸ reads.head)
    obtain rfl := Option.some.inj (there.symm.trans (part.getElem?_symbolIn known))
    have reached := part.closed rule (List.mem_of_getElem? own) other member
      (.inl (List.mem_singleton.mp spelled))
    obtain ⟨before, rfl, kept'⟩ := found own reached
    obtain ⟨production', there', _⟩ := part.small.exists_production kept'
    exact ⟨before, production', rfl, there'⟩

end PartOf

/-- The augmented productions go with each other. -/
theorem Embeds.augmented {small big grown grown' : Grammar} {onSymbols place : Nat → Nat}
    {start start' : Nat} (embeds : small.Embeds big onSymbols place)
    (from' : small.AugmentedFrom start grown) (from'' : big.AugmentedFrom start' grown')
    (goal : onSymbols small.symbols.length = big.symbols.length)
    (begins : onSymbols start = start') :
    grown.Embeds grown' onSymbols (placeBehind place) where
  injective := embeds.injective
  apart := placeBehind_injective embeds.apart
  epsilon := embeds.epsilon
  endMark := embeds.endMark
  isTerminal symbol := by rw [from'.isTerminal, from''.isTerminal, embeds.isTerminal]
  isNonTerminal symbol := by
    simp only [from'.isNonTerminal, from''.isNonTerminal, embeds.isNonTerminal, ← goal,
      embeds.injective.eq_iff]
  productions := by
    intro index production here
    cases index with
    | zero =>
      obtain rfl : ⟨small.symbols.length, [start]⟩ = production := by
        simpa [from'.productions] using here
      simp [placeBehind, from''.productions, Production.renumber, goal, begins]
    | succ index =>
      rw [from'.production] at here
      exact (from''.production _).trans (embeds.productions here)
  closed := by
    intro index symbol production here head
    cases index with
    | zero => exact ⟨0, _, rfl, by simp [from'.productions]; rfl⟩
    | succ index =>
      rw [from''.production] at here
      obtain ⟨before, own, rfl, there⟩ := embeds.closed here head
      exact ⟨before + 1, own, rfl, (from'.production _).trans there⟩

/-- Both have the same start symbol if the first rule is kept. -/
theorem PartOf.exists_start {small big : Grammar} {kept rules : List Rule}
    (part : small.PartOf big kept rules) {rule : Rule} (first : kept.head? = some rule)
    (first' : rules.head? = some rule) :
    ∃ start, small.start = some start ∧ big.start = some (small.symbolIn big start) := by
  obtain ⟨start, found, _⟩ := part.small.exists_head part.formed (List.mem_of_head? first)
  exact ⟨start, (part.small.start first).trans found,
    (part.big.start first').trans (part.index?_symbolIn found)⟩

/-- The grammar of the reachable rules is there, and part of the grammar of all rules. -/
theorem exists_partOf {rules : List Rule} {g : Grammar} (success : ofRules rules = .ok g) :
    ∃ g', ofRules (Rule.reachable rules) = .ok g' ∧ g'.PartOf g (Rule.reachable rules) rules := by
  obtain ⟨placed, _⟩ := ofRules_eq_ok.mp success
  have success' := ofRules_eq_ok.mpr
    ⟨fun rule member => placed rule (Rule.mem_of_mem_reachable member), rfl⟩
  refine ⟨_, success', ⟨Loaded.wellFormed ⟨_, success'⟩, Loaded.wellFormed ⟨_, success⟩,
    transcribes_of_ofRules success', transcribes_of_ofRules success, ?_, ?_⟩⟩
  · exact fun rule => Rule.mem_of_mem_reachable
  · exact fun rule member other reached => Rule.mem_reachable_of_occurs member reached

end Grammar

end SimpleLR
