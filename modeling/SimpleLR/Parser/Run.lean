import SimpleLR.Grammar.Basic
import SimpleLR.Parser.Trace
import SimpleLR.Table.Basic
import SimpleLR.Text.Pieces

/-! The table-driven parser. A configuration is a stack and the tokens that remain; each step looks
at the state on top and at the next token. -/
namespace SimpleLR

/-- A symbol on the stack with the state above it. -/
structure Frame where
  symbol : Text
  state : Nat
  deriving DecidableEq, Repr

/-- A stack of states: one at the bottom, and frames above it, the newest first. -/
structure Stack where
  bottom : Nat
  frames : List Frame
  deriving DecidableEq, Repr

namespace Stack

/-- The state on top. -/
def top (stack : Stack) : Nat := (stack.frames.head?.map Frame.state).getD stack.bottom

def push (stack : Stack) (symbol : Text) (state : Nat) : Stack :=
  { stack with frames := ⟨symbol, state⟩ :: stack.frames }

/-- The stack without its newest frames, if it has that many. -/
def drop? (stack : Stack) (count : Nat) : Option Stack :=
  if count ≤ stack.frames.length then some { stack with frames := stack.frames.drop count }
  else none

/-- States and symbols from the bottom to the top. -/
def entries (stack : Stack) : List StackEntry :=
  .state stack.bottom ::
    stack.frames.reverse.flatMap fun frame => [.symbol frame.symbol, .state frame.state]

end Stack

/-- The stack and the tokens that remain. -/
structure Configuration where
  stack : Stack
  input : List Text
  deriving DecidableEq, Repr

namespace Configuration

/-- The tokens of an input: its words, closed by an end mark. -/
def tokens (input : Text) : List Text :=
  let words := Text.words input
  if words.getLast? = some endMarkName then words else words ++ [endMarkName]

/-- The start of a run. -/
def initial (input : Text) : Configuration := ⟨⟨0, []⟩, tokens input⟩

/-- The next token. Behind the last one there is the end mark. -/
def lookahead (configuration : Configuration) : Text := configuration.input.head?.getD endMarkName

/-- The row of a trace that shows this configuration before a step. -/
def row (configuration : Configuration) (action : StepAction) : TraceRow :=
  ⟨configuration.stack.entries, configuration.input, action⟩

end Configuration

/-- The result of a step, with the rows of the trace that it brings. A rejection may leave a stack
that is no longer in order. -/
inductive Step where
  | next (rows : List TraceRow) (configuration : Configuration)
  | accept (rows : List TraceRow)
  | reject (rows : List TraceRow) (error : ParseError) (stack : List StackEntry)
  deriving DecidableEq, Repr

namespace Table

variable (g : Grammar) (table : Table)

/-- The symbol that a token stands for. An end mark counts only as the last token. -/
def symbolOf? (configuration : Configuration) : Option Nat :=
  if configuration.lookahead = endMarkName ∧ 1 < configuration.input.length then none
  else (g.index? configuration.lookahead).filter table.hasColumn

/-- Shifts the next token, which has to be there. -/
def shift (configuration : Configuration) (target : Nat) : Except Fault Step :=
  match configuration.input with
  | [] => .error .pastEnd
  | token :: rest =>
    .ok (.next [configuration.row (.shift target)] ⟨configuration.stack.push token target, rest⟩)

/-- Takes the body of a production off the stack and puts its head there. -/
def reduce (configuration : Configuration) (index : Nat) : Except Fault Step := do
  let production ← g.production index
  let reduced := configuration.row (.reduce index)
  match configuration.stack.drop? production.length with
  | none => return .reject [reduced] .stackUnderflow []
  | some stack =>
    let head ← g.name production.head
    let opened := stack.entries ++ [.symbol head]
    match table.goto? stack.top production.head with
    | none => return .reject [reduced] (.noAction stack.top head) opened
    | some target =>
      return .next [reduced, ⟨opened, configuration.input, .goto target⟩]
        ⟨stack.push head target, configuration.input⟩

/-- One step: what the table says for the state on top and the next token. -/
def step (configuration : Configuration) : Except Fault Step :=
  let state := configuration.stack.top
  let token := configuration.lookahead
  let reject error := .ok (.reject [] error configuration.stack.entries)
  match table.symbolOf? g configuration with
  | none => reject (.unrecognized token)
  | some symbol =>
    match table.action? state symbol with
    | none => reject (.noAction state token)
    | some (.shift target) => shift configuration target
    | some (.reduce index) => table.reduce g configuration index
    | some .accept => .ok (.accept [configuration.row .accept])

/-- Takes at most `limit` steps. The rows of the trace are gathered in reverse. There is no result
if the limit is reached. -/
def run : (limit : Nat) → Configuration → List TraceRow →
    Option (Except Fault (Outcome × List TraceRow))
  | 0, _, _ => none
  | limit + 1, configuration, trace =>
    match table.step g configuration with
    | .error fault => some (.error fault)
    | .ok (.next rows next) => run limit next (rows.reverse ++ trace)
    | .ok (.accept rows) => some (.ok (.accepted, (rows.reverse ++ trace).reverse))
    | .ok (.reject rows error stack) =>
      let last : TraceRow := ⟨stack, configuration.input, .error error.message⟩
      let trace := (last :: (rows.reverse ++ trace)).reverse
      some (.ok (.rejected error stack configuration.input, trace))

/-- The number of steps after which a run is given up. No input of a practical size needs as many
unless the run would never end. -/
def stepLimit : Nat := Nat.pow 2 64

/-- The report of the run on an input. -/
def parse (input : Text) : Except Fault Report :=
  match table.run g stepLimit (.initial input) [] with
  | none => .error .stepLimit
  | some (.error fault) => .error fault
  | some (.ok (outcome, trace)) => .ok ⟨input, outcome, trace⟩

end Table

end SimpleLR
