import SimpleLR.Text.Basic

namespace SimpleLR

/-- An entry of the parser's stack as it is shown. -/
inductive StackEntry where
  | state (number : Nat)
  | symbol (name : Text)
  deriving DecidableEq, Repr

namespace StackEntry

def text : StackEntry → Text
  | .state number => Text.ofNat number
  | .symbol name => name

end StackEntry

/-- A step of a run. A reduction is followed by a goto. -/
inductive StepAction where
  | shift (target : Nat)
  | reduce (production : Nat)
  | goto (target : Nat)
  | accept
  | error (message : Text)
  deriving DecidableEq, Repr

namespace StepAction

def text : StepAction → Text
  | .shift target => "Shift " ++ Text.ofNat target
  | .reduce production => "Reduce " ++ Text.ofNat production
  | .goto target => "Goto " ++ Text.ofNat target
  | .accept => "Accept"
  | .error message => "Error: " ++ message

end StepAction

/-- A row of a trace: stack and remaining input before a step, and the step. -/
structure TraceRow where
  stack : List StackEntry
  input : List Text
  action : StepAction
  deriving DecidableEq, Repr

/-- Why an input is rejected. -/
inductive ParseError where
  | unrecognized (token : Text)
  | noAction (state : Nat) (symbol : Text)
  | stackUnderflow
  deriving DecidableEq, Repr

namespace ParseError

def message : ParseError → Text
  | .unrecognized token =>
    "input string has a symbol (" ++ token ++ ") that is not recognized by the grammar"
  | .noAction state symbol =>
    "no table entry for state " ++ Text.ofNat state ++ " and symbol \"" ++ symbol ++ "\""
  | .stackUnderflow => "tried to pop from the parser stack but it was empty"

end ParseError

/-- How a run ends. A rejected input leaves its stack and the tokens not yet shifted. -/
inductive Outcome where
  | accepted
  | rejected (error : ParseError) (stack : List StackEntry) (remaining : List Text)
  deriving DecidableEq, Repr

namespace Outcome

def isAccepted : Outcome → Bool
  | .accepted => true
  | .rejected .. => false

def error? : Outcome → Option ParseError
  | .accepted => none
  | .rejected error _ _ => some error

end Outcome

/-- The run of the parser on one input. -/
structure Report where
  input : Text
  outcome : Outcome
  trace : List TraceRow
  deriving DecidableEq, Repr

end SimpleLR
