import SimpleLR.Proofs.Grammar.Regrouping
import SimpleLR.Proofs.Grammar.Spelling

namespace SimpleLR.Grammar

variable {g : Grammar}

section Names

private theorem names_of_kind (g : Grammar) (test : Symbol → Bool) :
    ((List.range g.symbols.length).filter fun index => g.symbols[index]?.any test).mapM g.name =
      .ok ((g.symbols.filter test).map Symbol.name) := by
  have places : List.Forall₂ (fun index symbol => g.symbols[index]? = some symbol)
      (List.range g.symbols.length) g.symbols := by
    rw [List.forall₂_iff_get]
    refine ⟨List.length_range, fun position bound inside => ?_⟩
    rw [List.get_eq_getElem, List.get_eq_getElem, List.getElem_range, List.getElem?_eq_getElem inside]
  rw [Result.mapM_eq_ok, List.forall₂_map_right_iff]
  have kept := List.rel_filter (p := fun index => g.symbols[index]?.any test) (q := test)
    (fun {index symbol} here => by simp [here]) places
  exact kept.imp fun index symbol here => by rw [name, here]

private theorem names_nonTerminals (g : Grammar) : g.nonTerminals.mapM g.name =
    .ok ((g.symbols.filter Symbol.isNonTerminal).map Symbol.name) :=
  g.names_of_kind Symbol.isNonTerminal

end Names

private theorem isNone_index?_withHead (name other : Text) : ((g.withHead name).index? other).isNone =
    ((g.index? other).isNone && other != name) := by
  cases found : g.index? name with
  | some index =>
    have same : g.withHead name = g := by simp [withHead, found]
    rw [same]
    by_cases own : other = name <;> simp [own, found]
  | none =>
    have grown : (g.withHead name).symbols = g.symbols ++ [.nonTerminal name] := by
      simp [withHead, found, addNonTerminal]
    rw [index?_grown grown]
    by_cases own : other = name <;> simp [own, Symbol.spellings, Symbol.name]

private theorem symbols_withHeads (rules : List Rule) (g : Grammar) :
    (rules.foldl (fun g rule => g.withHead rule.head) g).symbols =
      g.symbols ++ ((Rule.heads rules).filter fun head => (g.index? head).isNone).map .nonTerminal := by
  induction rules generalizing g with
  | nil => simp [Rule.heads]
  | cons rule rest ih =>
    rw [List.foldl_cons, ih, Rule.heads_cons, Rule.heads_others, List.filter_cons, List.filter_filter]
    simp only [isNone_index?_withHead]
    cases found : g.index? rule.head with
    | some index =>
      have same : g.withHead rule.head = g := by simp [withHead, found]
      rw [same]
      rfl
    | none =>
      have grown : (g.withHead rule.head).symbols = g.symbols ++ [.nonTerminal rule.head] := by
        simp [withHead, found, addNonTerminal]
      rw [grown, List.append_assoc]
      rfl

private theorem isNone_index?_withHeads (rules : List Rule) (g : Grammar) (other : Text) :
    ((rules.foldl (fun g rule => g.withHead rule.head) g).index? other).isNone =
      ((g.index? other).isNone && !(Rule.heads rules).contains other) := by
  induction rules generalizing g with
  | nil => simp [Rule.heads]
  | cons rule rest ih =>
    rw [List.foldl_cons, ih, isNone_index?_withHead, Bool.and_assoc]
    congr 1
    rw [Bool.eq_iff_iff]
    simp only [Bool.and_eq_true, bne_iff_ne, Bool.not_eq_true', List.contains_eq_mem, decide_eq_false_iff_not,
      Rule.mem_heads, List.mem_cons, exists_eq_or_imp, not_or]
    rw [eq_comm]

/-- The symbols of a grammar are epsilon, the end mark, the heads of its rules in the order of their first
rules, and then the other names in the order of their first appearance in a body. -/
theorem symbols_of_ofRules {rules : List Rule} (success : ofRules rules = .ok g) : g.symbols =
    [.epsilon, .endMark] ++ (Rule.heads rules).map .nonTerminal ++ (Rule.leaves rules).map .terminal := by
  obtain ⟨placed, rfl⟩ := ofRules_eq_ok.mp success
  have found (rule : Rule) (member : rule ∈ rules) :=
    (exists_head_of_withHeads placed member).imp fun _ => And.left
  have new : (Rule.heads rules).filter (fun head => (Grammar.empty.index? head).isNone) = Rule.heads rules := by
    rw [List.filter_eq_self]
    intro head member
    obtain ⟨rule, inside, rfl⟩ := Rule.mem_heads.mp member
    obtain ⟨notEpsilon, notEnd, _⟩ := Rule.misplaced?_eq_none (placed rule inside)
    rw [index?_empty notEpsilon notEnd]
    rfl
  have leaves : (rules.flatMap Rule.body).eraseDups.filter (fun name =>
      ((rules.foldl (fun g rule => g.withHead rule.head) Grammar.empty).index? name).isNone) =
        Rule.leaves rules := by
    apply List.filter_congr
    intro name member
    obtain ⟨rule, inside, stands⟩ := List.mem_flatMap.mp (List.mem_eraseDups.mp member)
    obtain ⟨_, _, body⟩ := Rule.misplaced?_eq_none (placed rule inside)
    rw [isNone_index?_withHeads]
    congr 1
    by_cases epsilon : name ∈ Symbol.epsilon.spellings
    · simp [epsilon, Named.empty.found Named.empty.epsilon epsilon]
    · simp [epsilon, index?_empty epsilon (body name stands).1]
  rw [symbols_addRules rules found, leaves, symbols_withHeads, new]
  rfl

/-- The non-terminals of a grammar are the heads of its rules, in the order of their first rules. -/
theorem heads_of_ofRules {rules : List Rule} (success : ofRules rules = .ok g) :
    g.nonTerminals.mapM g.name = .ok (Rule.heads rules) := by
  rw [names_nonTerminals, symbols_of_ofRules success]
  simp [List.filter_map, Function.comp_def, Symbol.isNonTerminal, Symbol.name]

end SimpleLR.Grammar
