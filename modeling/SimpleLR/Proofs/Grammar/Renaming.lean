import SimpleLR.Proofs.Grammar.Augmentation
import SimpleLR.Proofs.Grammar.Shape

namespace SimpleLR

/-- New names for old ones, different for different ones. Epsilon and the end mark keep theirs. -/
structure Renaming where
  onNames : Text → Text
  injective : Function.Injective onNames
  epsilon : ∀ name ∈ Symbol.epsilon.spellings, onNames name = name
  endMark : onNames endMarkName = endMarkName

def Symbol.rename (onNames : Text → Text) : Symbol → Symbol
  | .epsilon => .epsilon
  | .endMark => .endMark
  | .terminal name => .terminal (onNames name)
  | .nonTerminal name => .nonTerminal (onNames name)

def Rule.rename (onNames : Text → Text) (rule : Rule) : Rule :=
  ⟨onNames rule.head, rule.body.map onNames⟩

def Grammar.rename (g : Grammar) (onNames : Text → Text) : Grammar :=
  { g with symbols := g.symbols.map (Symbol.rename onNames) }

namespace Renaming

/-- The renaming that keeps all names. -/
def identity : Renaming := ⟨id, Function.injective_id, fun _ _ => rfl, rfl⟩

variable (naming : Renaming) (g : Grammar)

theorem spellings (symbol : Symbol) : (symbol.rename naming.onNames).spellings =
    symbol.spellings.map naming.onNames := by
  cases symbol with
  | epsilon =>
    have kept : Symbol.epsilon.spellings.map naming.onNames = Symbol.epsilon.spellings.map id :=
      List.map_congr_left naming.epsilon
    simpa [Symbol.rename] using kept.symm
  | endMark => simp [Symbol.rename, Symbol.spellings, Symbol.name, naming.endMark]
  | terminal | nonTerminal => rfl

theorem endMark_iff {name : Text} : naming.onNames name = endMarkName ↔ name = endMarkName := by
  rw [← naming.injective.eq_iff (a := name), naming.endMark]

theorem index? (name : Text) :
    (g.rename naming.onNames).index? (naming.onNames name) = g.index? name := by
  have found (symbol : Symbol) :
      (symbol.rename naming.onNames).spellings.contains (naming.onNames name) =
        symbol.spellings.contains name := by
    rw [naming.spellings, Bool.eq_iff_iff, List.contains_iff_mem, List.contains_iff_mem,
      List.mem_map_of_injective naming.injective]
  have test : (fun entry : Symbol × Nat =>
      (entry.1.rename naming.onNames).spellings.contains (naming.onNames name)) =
        fun entry => entry.1.spellings.contains name := funext fun entry => found entry.1
  unfold Grammar.index? Grammar.rename
  dsimp only
  rw [List.zipIdx_map, ← List.map_reverse, List.find?_map, Option.map_map]
  exact congrArg (fun test => (g.symbols.zipIdx.reverse.find? test).map (·.2)) test

theorem shape : (g.rename naming.onNames).shape = g.shape := by
  have symbols : (g.symbols.map (Symbol.rename naming.onNames)).map Symbol.shape =
      g.symbols.map Symbol.shape := by
    rw [List.map_map]
    apply List.map_congr_left
    intro symbol _
    cases symbol <;> rfl
  unfold Grammar.shape Grammar.rename
  rw [symbols]

section Rules

theorem withHead (name : Text) : (g.rename naming.onNames).withHead (naming.onNames name) =
    (g.withHead name).rename naming.onNames := by
  unfold Grammar.withHead
  rw [naming.index?]
  split
  · rfl
  · simp [Grammar.addNonTerminal, Grammar.rename, Symbol.rename]

theorem intern (name : Text) : (g.rename naming.onNames).intern (naming.onNames name) =
    ((g.intern name).1.rename naming.onNames, (g.intern name).2) := by
  unfold Grammar.intern
  rw [naming.index?]
  split
  · rfl
  · simp [Grammar.addTerminal, Grammar.rename, Symbol.rename]

theorem internAll (names : List Text) :
    (g.rename naming.onNames).internAll (names.map naming.onNames) =
      ((g.internAll names).1.rename naming.onNames, (g.internAll names).2) := by
  induction names generalizing g with
  | nil => rfl
  | cons name rest ih =>
    rw [List.map_cons, Grammar.internAll, Grammar.internAll, naming.intern]
    dsimp only
    rw [ih]

theorem addRule (rule : Rule) :
    (g.rename naming.onNames).addRule (rule.rename naming.onNames) =
      (g.addRule rule).rename naming.onNames := by
  unfold Grammar.addRule Rule.rename
  dsimp only
  rw [naming.index?, naming.internAll]
  split <;> rfl

private theorem withHeads (rules : List Rule) :
    (rules.map (Rule.rename naming.onNames)).foldl (fun g rule => g.withHead rule.head)
        (g.rename naming.onNames) =
      (rules.foldl (fun g rule => g.withHead rule.head) g).rename naming.onNames := by
  induction rules generalizing g with
  | nil => rfl
  | cons rule rest ih =>
    have own : (g.rename naming.onNames).withHead (rule.rename naming.onNames).head =
        (g.withHead rule.head).rename naming.onNames := naming.withHead g rule.head
    rw [List.map_cons, List.foldl_cons, List.foldl_cons, own, ih]

private theorem addRules (rules : List Rule) :
    (rules.map (Rule.rename naming.onNames)).foldl Grammar.addRule (g.rename naming.onNames) =
      (rules.foldl Grammar.addRule g).rename naming.onNames := by
  induction rules generalizing g with
  | nil => rfl
  | cons rule rest ih =>
    rw [List.map_cons, List.foldl_cons, List.foldl_cons, naming.addRule, ih]

/-- The grammar of renamed rules is the renamed grammar. -/
theorem ofRules {rules : List Rule} {g g' : Grammar} (success : Grammar.ofRules rules = .ok g)
    (success' : Grammar.ofRules (rules.map (Rule.rename naming.onNames)) = .ok g') :
    g' = g.rename naming.onNames := by
  obtain ⟨_, rfl⟩ := Grammar.ofRules_eq_ok.mp success
  obtain ⟨_, rfl⟩ := Grammar.ofRules_eq_ok.mp success'
  rw [← naming.addRules, ← naming.withHeads]
  rfl

end Rules

end Renaming

namespace Grammar

/-- Grammars of one shape in which words and renamed words stand for the same tokens. -/
structure Counterpart (naming : Renaming) (g g' : Grammar) : Prop where
  shape : g.shape = g'.shape
  tokens : ∀ word,
    (g'.index? (naming.onNames word)).filter g'.isToken = (g.index? word).filter g.isToken

variable {naming : Renaming} {g g' grown grown' : Grammar} {start : Nat}

theorem counterpart_rename (naming : Renaming) (g : Grammar) :
    g.Counterpart naming (g.rename naming.onNames) where
  shape := (naming.shape g).symm
  tokens word := by rw [naming.index?, isToken_of_shape (naming.shape g)]

/-- The head of the augmented production is no token. -/
theorem AugmentedFrom.tokens (from' : g.AugmentedFrom start grown) (formed : g.WellFormed)
    (word : Text) : (grown.index? word).filter grown.isToken = (g.index? word).filter g.isToken := by
  have kept : grown.isToken = g.isToken := by
    funext index
    rw [isToken, isToken, from'.isTerminal]
  obtain ⟨name, symbols, new⟩ := from'.symbols
  rw [kept, index?_grown symbols]
  split
  · rename_i spelled
    obtain rfl : word = name := by simpa [Symbol.spellings, Symbol.name] using spelled
    have second : endMarkIndex < g.symbols.length := (List.getElem?_eq_some_iff.mp formed.endMark).1
    have absent : g.isToken g.symbols.length = false := by
      have outside : g.isTerminal g.symbols.length = false := by simp [Grammar.isTerminal]
      rw [isToken, outside, Bool.false_or, beq_eq_false_iff_ne]
      omega
    simp [new, absent]
  · rfl

/-- Augmented or not, counterparts stay counterparts. -/
theorem Counterpart.augmented (pair : g.Counterpart naming g') (formed : g.WellFormed)
    (formed' : g'.WellFormed) (from' : g.AugmentedFrom start grown)
    (from'' : g'.AugmentedFrom start grown') : grown.Counterpart naming grown' where
  shape := by
    obtain ⟨name, symbols, _⟩ := from'.symbols
    obtain ⟨name', symbols', _⟩ := from''.symbols
    have same : g.symbols.map Symbol.shape = g'.symbols.map Symbol.shape :=
      (congrArg Grammar.symbols pair.shape :)
    have length := length_of_shape pair.shape
    have productions := productions_of_shape pair.shape
    have chosen : g.start = g'.start := (congrArg Grammar.start pair.shape :)
    unfold Grammar.shape
    rw [symbols, symbols', from'.productions, from''.productions, from'.start,
      from''.start, from'.augmented, from''.augmented, List.map_append, List.map_append, same, length,
      productions, chosen]
    rfl
  tokens word := by
    rw [from''.tokens formed', from'.tokens formed, pair.tokens]

end Grammar

end SimpleLR
