import SimpleLR.Grammar.Basic

/-! A grammar from rules that name their symbols. A name is a non-terminal exactly if it heads a
rule; heads come first, then the other names, each in the order of its first appearance. -/
namespace SimpleLR

/-- A rule by names. An empty body stands for epsilon. -/
structure Rule where
  head : Text
  body : List Text
  deriving DecidableEq, Repr

namespace Rule

/-- The first name of a rule that may not stand where it stands: the end mark anywhere, epsilon as
head or beside other symbols. -/
def misplaced? (rule : Rule) : Option Text :=
  let isEpsilon name := Symbol.epsilon.spellings.contains name
  if isEpsilon rule.head || rule.head == endMarkName then some rule.head
  else rule.body.find? fun name =>
    name == endMarkName || (isEpsilon name && decide (1 < rule.body.length))

end Rule

namespace Grammar

/-- The grammar in which a name is a symbol: a new name becomes a non-terminal. -/
def withHead (g : Grammar) (name : Text) : Grammar :=
  if (g.index? name).isSome then g else g.addNonTerminal name

/-- The index of a name. A new name becomes a terminal. -/
def intern (g : Grammar) (name : Text) : Grammar × Nat :=
  match g.index? name with
  | some index => (g, index)
  | none => (g.addTerminal name, g.symbols.length)

/-- The indices of names, from left to right. -/
def internAll (g : Grammar) : List Text → Grammar × List Nat
  | [] => (g, [])
  | name :: rest =>
    let (g, index) := g.intern name
    let (g, indices) := g.internAll rest
    (g, index :: indices)

/-- Adds the production of a rule whose head is a symbol. -/
def addRule (g : Grammar) (rule : Rule) : Grammar :=
  match g.index? rule.head with
  | none => g
  | some head =>
    let (g, body) := g.internAll rule.body
    g.pushProduction head body

/-- The grammar of a list of rules, unless a name is misplaced. -/
def ofRules (rules : List Rule) : Except GrammarError Grammar :=
  match rules.findSome? Rule.misplaced? with
  | some name => .error (.reserved name)
  | none =>
    let heads := rules.foldl (fun g rule => g.withHead rule.head) Grammar.empty
    .ok (rules.foldl addRule heads)

end Grammar

end SimpleLR
