import SimpleLR.Text.Basic

namespace SimpleLR

/-- A shift goes to a state, a reduction uses the production at an index. -/
inductive Action where
  | shift (target : Nat)
  | reduce (production : Nat)
  | accept
  deriving DecidableEq, Repr

namespace Action

/-- The short form: `s4`, `r2` or `acc`. -/
def short : Action → Text
  | .shift target => "s" ++ Text.ofNat target
  | .reduce production => "r" ++ Text.ofNat production
  | .accept => "acc"

end Action

/-- The row of a state. A cell that is not listed is empty. -/
structure Row where
  actions : List (Nat × Action)
  gotos : List (Nat × Nat)
  deriving DecidableEq, Repr

namespace Row

def empty : Row := ⟨[], []⟩

def action? (row : Row) (terminal : Nat) : Option Action := row.actions.lookup terminal

def goto? (row : Row) (nonTerminal : Nat) : Option Nat := row.gotos.lookup nonTerminal

def withAction (row : Row) (terminal : Nat) (action : Action) : Row :=
  { row with actions := row.actions ++ [(terminal, action)] }

def withGoto (row : Row) (nonTerminal target : Nat) : Row :=
  { row with gotos := row.gotos ++ [(nonTerminal, target)] }

end Row

/-- A table with its columns, and a row for each state. -/
structure Table where
  terminals : List Nat
  nonTerminals : List Nat
  rows : List Row
  deriving DecidableEq, Repr

namespace Table

variable (table : Table)

/-- Whether a symbol has a column among the actions. -/
def hasColumn (symbol : Nat) : Bool := table.terminals.contains symbol

/-- What to do in a state on a terminal. -/
def action? (state terminal : Nat) : Option Action :=
  table.rows[state]?.bind (·.action? terminal)

/-- The state to go to from a state after a reduction to a non-terminal. -/
def goto? (state nonTerminal : Nat) : Option Nat :=
  table.rows[state]?.bind (·.goto? nonTerminal)

/-- The action cells, row by row and in the order of the columns. -/
def actionCells : List (List (Option Action)) :=
  table.rows.map fun row => table.terminals.map row.action?

/-- The goto cells, row by row and in the order of the columns. -/
def gotoCells : List (List (Option Nat)) :=
  table.rows.map fun row => table.nonTerminals.map row.goto?

end Table

end SimpleLR
