import SimpleLR.Proofs.Grammar.Loading
import SimpleLR.Proofs.Grammar.Regrouping

namespace SimpleLR.Grammar

variable {g g' : Grammar}

/-- A production that spells a rule: each name of the rule finds the symbol in its place. -/
structure Reads (g : Grammar) (rule : Rule) (production : Production) : Prop where
  head : g.index? rule.head = some production.head
  body : ∃ indices, List.Forall₂ (fun name index => g.index? name = some index) rule.body indices ∧
    production.body = if indices.isEmpty then [epsilonIndex] else indices

private theorem Reads.mono {rule : Rule} {production : Production} (reads : g.Reads rule production)
    (kept : ∀ {name index}, g.index? name = some index → g'.index? name = some index) :
    g'.Reads rule production := by
  obtain ⟨head, indices, found, same⟩ := reads
  exact ⟨kept head, indices, found.imp fun _ _ => kept, same⟩

/-- A grammar whose productions spell rules, one by one, and which has no other symbols than their
names. -/
structure Transcribes (g : Grammar) (rules : List Rule) : Prop where
  reads : List.Forall₂ g.Reads rules g.productions
  heads : ∀ {index : Nat} {name : Text}, g.symbols[index]? = some (.nonTerminal name) →
    ∃ rule ∈ rules, rule.head = name
  bodies : ∀ {index : Nat} {name : Text}, g.symbols[index]? = some (.terminal name) →
    ∃ rule ∈ rules, name ∈ rule.body
  start : ∀ {rule : Rule}, rules.head? = some rule → g.start = g.index? rule.head

section Heads

private theorem nonTerminal_of_withHeads (rules : List Rule) {index : Nat} {name : Text}
    (found : (rules.foldl (fun g rule => g.withHead rule.head) g).symbols[index]? =
      some (.nonTerminal name)) :
    g.symbols[index]? = some (.nonTerminal name) ∨ ∃ rule ∈ rules, rule.head = name := by
  induction rules generalizing g with
  | nil => exact .inl found
  | cons rule rest ih =>
    rcases ih found with earlier | ⟨other, member, same⟩
    · change (g.withHead rule.head).symbols[index]? = _ at earlier
      unfold withHead at earlier
      split at earlier
      · exact .inl earlier
      · rw [addNonTerminal, List.getElem?_append] at earlier
        split at earlier
        · exact .inl earlier
        · have own := List.mem_singleton.mp (List.mem_of_getElem? earlier)
          exact .inr ⟨rule, List.mem_cons_self, (Symbol.nonTerminal.inj own).symm⟩
    · exact .inr ⟨other, List.mem_cons_of_mem rule member, same⟩

private theorem start_eq_of_withHeads {rule : Rule} (rest : List Rule)
    (new : Grammar.empty.index? rule.head = none) :
    ((rule :: rest).foldl (fun g rule => g.withHead rule.head) Grammar.empty).start =
      ((rule :: rest).foldl (fun g rule => g.withHead rule.head) Grammar.empty).index? rule.head := by
  obtain ⟨chosen, found⟩ := start_withHead_new (g := Grammar.empty) rfl new
  have only := (withHead_spec HeadsOnly.empty rule.head).1
  rw [List.foldl_cons, start_withHeads rest chosen]
  exact ((withHeads_spec rest only).2.2 found).symm

end Heads

section Bodies

theorem isNone_index?_intern (name other : Text) : ((g.intern name).1.index? other).isNone =
    ((g.index? other).isNone && other != name) := by
  cases found : g.index? name with
  | some index =>
    have same : (g.intern name).1 = g := by simp [intern, found]
    rw [same]
    by_cases own : other = name <;> simp [own, found]
  | none =>
    have grown : (g.intern name).1.symbols = g.symbols ++ [.terminal name] := by
      simp [intern, found, addTerminal]
    rw [index?_grown grown]
    by_cases own : other = name <;> simp [own, Symbol.spellings, Symbol.name]

/-- After interning, a name finds nothing if it found nothing before and is none of those interned. -/
theorem isNone_index?_internAll (names : List Text) (other : Text) :
    ((g.internAll names).1.index? other).isNone = ((g.index? other).isNone && !names.contains other) := by
  induction names generalizing g with
  | nil => simp [internAll]
  | cons name rest ih =>
    have first := ih (g := (g.intern name).1)
    rw [isNone_index?_intern, Bool.and_assoc] at first
    rw [internAll, first, List.contains_cons, Bool.not_or]
    rfl

private theorem symbols_internAll (names : List Text) : (g.internAll names).1.symbols =
    g.symbols ++ (names.eraseDups.filter fun name => (g.index? name).isNone).map .terminal := by
  induction names generalizing g with
  | nil => simp [internAll]
  | cons name rest ih =>
    have later := ih (g := (g.intern name).1)
    simp only [isNone_index?_intern] at later
    rw [← List.filter_filter] at later
    rw [internAll, later, List.eraseDups_cons, List.filter_cons, eraseDups_filter]
    cases found : g.index? name with
    | some index => simp [intern, found, bne]
    | none => simp [intern, found, addTerminal, bne]

/-- Adding rules makes terminals of the new names in their bodies, each one where it appears first. -/
theorem symbols_addRules (rules : List Rule) (heads : ∀ rule ∈ rules, ∃ head, g.index? rule.head = some head) :
    (rules.foldl addRule g).symbols = g.symbols ++
      ((rules.flatMap Rule.body).eraseDups.filter fun name => (g.index? name).isNone).map .terminal := by
  induction rules generalizing g with
  | nil => simp
  | cons rule rest ih =>
    obtain ⟨head, finds⟩ := heads rule List.mem_cons_self
    have symbols : (g.addRule rule).symbols = (g.internAll rule.body).1.symbols := by
      simp [addRule, finds, pushProduction]
    have finds' (name : Text) : (g.addRule rule).index? name = (g.internAll rule.body).1.index? name := by
      rw [index?, index?, symbols]
    have kept : ∀ other ∈ rest, ∃ head, (g.addRule rule).index? other.head = some head := by
      intro other member
      obtain ⟨index, found⟩ := heads other (List.mem_cons_of_mem rule member)
      rw [← Option.isSome_iff_exists, finds', ← Option.not_isNone, isNone_index?_internAll, found]
      rfl
    rw [List.foldl_cons, ih kept, symbols, symbols_internAll, List.flatMap_cons, List.eraseDups_append,
      List.filter_append, List.map_append, List.append_assoc]
    simp only [finds', isNone_index?_internAll, List.removeAll, eraseDups_filter, List.filter_filter,
      List.elem_eq_contains]

/-- What adding the rules does to the productions: they come behind the others. Names find what they
found. -/
structure Extends (g g' : Grammar) (rules : List Rule) : Prop where
  reads : ∃ added, g'.productions = g.productions ++ added ∧ List.Forall₂ g'.Reads rules added
  found : ∀ {name : Text} {index : Nat}, g.index? name = some index → g'.index? name = some index

private theorem extends_addRule (named : g.Named) {rule : Rule} {head : Nat}
    (finds : g.index? rule.head = some head) : g.Extends (g.addRule rule) [rule] := by
  obtain ⟨_, interned, found⟩ := internAll_spec named rule.body
  have same : g.addRule rule =
      (g.internAll rule.body).1.pushProduction head (g.internAll rule.body).2 := by
    simp [addRule, finds]
  rw [same]
  refine ⟨⟨_, congrArg (· ++ _) interned.productions, .cons ?_ .nil⟩, interned.found⟩
  exact ⟨interned.found finds, _, found, rfl⟩

private theorem extends_addRules (rules : List Rule) (loading : g.Loading)
    (placed : ∀ rule ∈ rules, rule.misplaced? = none)
    (heads : ∀ rule ∈ rules, ∃ head, g.index? rule.head = some head ∧ g.isNonTerminal head = true) :
    g.Extends (rules.foldl addRule g) rules := by
  induction rules generalizing g with
  | nil => exact ⟨⟨[], by simp, .nil⟩, id⟩
  | cons rule rest ih =>
    obtain ⟨head, finds, nonTerminal⟩ := heads rule (by simp)
    obtain ⟨next, kept⟩ := addRule_spec loading (placed rule (by simp)) finds nonTerminal
    obtain ⟨⟨own, pushed, reads⟩, found⟩ := extends_addRule loading.toNamed finds
    obtain ⟨⟨others, further, later⟩, finds'⟩ :=
      ih next (fun other member => placed other (by simp [member])) fun other member => by
        obtain ⟨index, here, proper⟩ := heads other (by simp [member])
        exact ⟨index, kept here proper⟩
    refine ⟨⟨own ++ others, ?_, ?_⟩, fun here => finds' (found here)⟩
    · rw [List.foldl_cons, further, pushed, List.append_assoc]
    · exact List.rel_append (reads.imp fun _ _ own => own.mono finds') later

end Bodies

/-- A grammar transcribes the rules that it was loaded from. -/
theorem transcribes_of_ofRules {rules : List Rule} (success : ofRules rules = .ok g) :
    g.Transcribes rules := by
  obtain ⟨placed, rfl⟩ := ofRules_eq_ok.mp success
  have only := (withHeads_spec rules HeadsOnly.empty).1
  have grows := extends_addRules rules only.loading placed fun rule => exists_head_of_withHeads placed
  obtain ⟨added, pushed, reads⟩ := grows.reads
  have grown := symbols_addRules rules fun rule member => (exists_head_of_withHeads placed member).imp fun _ => And.left
  rw [only.productions, List.nil_append] at pushed
  refine ⟨pushed ▸ reads, fun {index name} found => ?_, fun {index name} found => ?_,
    fun {rule} first => ?_⟩
  · rw [grown, List.getElem?_append] at found
    split at found
    · rcases nonTerminal_of_withHeads rules found with begins | heads
      · match index with
        | 0 | 1 => cases begins
        | index + 2 => simp [Grammar.empty] at begins
      · exact heads
    · simp at found
  · rw [grown, List.getElem?_append] at found
    split at found
    · have terminal := only.terminal index
      rw [isTerminal, found] at terminal
      cases terminal
    · obtain ⟨other, present, same⟩ := List.mem_map.mp (List.mem_of_getElem? found)
      obtain rfl := Symbol.terminal.inj same
      exact List.mem_flatMap.mp (List.mem_eraseDups.mp (List.mem_filter.mp present).1)
  · obtain ⟨rest, rfl⟩ := List.head?_eq_some_iff.mp first
    obtain ⟨notEpsilon, notEnd, _⟩ := Rule.misplaced?_eq_none (placed rule List.mem_cons_self)
    obtain ⟨head, finds, _⟩ := exists_head_of_withHeads placed (List.mem_cons_self (a := rule) (l := rest))
    have chosen := start_eq_of_withHeads rest (index?_empty notEpsilon notEnd)
    rw [start_addRules, chosen, finds, grows.found finds]

section Transcribes

variable {rules : List Rule} (transcribes : g.Transcribes rules)
include transcribes

theorem Transcribes.exists_production {index : Nat} {rule : Rule} (found : rules[index]? = some rule) :
    ∃ production, g.productions[index]? = some production ∧ g.Reads rule production := by
  obtain ⟨bound, same⟩ := List.getElem?_eq_some_iff.mp found
  have pairs := List.forall₂_iff_get.mp transcribes.reads
  have bound' : index < g.productions.length := pairs.1 ▸ bound
  have reads := pairs.2 index bound bound'
  rw [List.get_eq_getElem, List.get_eq_getElem, same] at reads
  exact ⟨_, List.getElem?_eq_getElem bound', reads⟩

theorem Transcribes.exists_rule {index : Nat} {production : Production}
    (found : g.productions[index]? = some production) :
    ∃ rule, rules[index]? = some rule ∧ g.Reads rule production := by
  have bound := (List.getElem?_eq_some_iff.mp found).1
  rw [← transcribes.reads.length_eq] at bound
  obtain ⟨own, there, reads⟩ := transcribes.exists_production (List.getElem?_eq_getElem bound)
  obtain rfl := Option.some.inj (found.symm.trans there)
  exact ⟨_, List.getElem?_eq_getElem bound, reads⟩

theorem Transcribes.exists_index {rule : Rule} (member : rule ∈ rules) {name : Text}
    (occurs : name = rule.head ∨ name ∈ rule.body) : ∃ index, g.index? name = some index := by
  obtain ⟨position, found⟩ := List.mem_iff_getElem?.mp member
  obtain ⟨production, _, head, indices, finds, _⟩ := transcribes.exists_production found
  rcases occurs with rfl | inside
  · exact ⟨_, head⟩
  · obtain ⟨place, here⟩ := List.mem_iff_getElem?.mp inside
    obtain ⟨bound, same⟩ := List.getElem?_eq_some_iff.mp here
    have pairs := List.forall₂_iff_get.mp finds
    have own := pairs.2 place bound (pairs.1 ▸ bound)
    rw [List.get_eq_getElem, List.get_eq_getElem, same] at own
    exact ⟨_, own⟩

theorem Transcribes.exists_head (formed : g.WellFormed) {rule : Rule} (member : rule ∈ rules) :
    ∃ head, g.index? rule.head = some head ∧ g.isNonTerminal head = true := by
  obtain ⟨position, found⟩ := List.mem_iff_getElem?.mp member
  obtain ⟨production, there, reads⟩ := transcribes.exists_production found
  exact ⟨_, reads.head, (formed.fits_of_getElem? there).head⟩

end Transcribes

end SimpleLR.Grammar
