import SimpleLR.Table.Basic
import SimpleLR.Text.Basic

namespace SimpleLR

/-- Why a line of a grammar text is refused. -/
inductive LineError where
  | manyArrows
  | noLeftSide
  | emptyLeftSide
  | blankInLeftSide
  | reservedLeftSide (name : Text)
  | emptyBody
  | mixedEpsilon
  | endMarkInBody
  | noCounts
  | badCount (error : Text.NumeralError)
  | wrongCounts
  | fewProductions
  | notOneArrow
  | fewStrings
  deriving DecidableEq, Repr

/-- An error in a grammar: in a line of its text, or found while a parser is built from it. -/
inductive GrammarError where
  | malformed (line : Nat) (reason : LineError)
  | missingStart
  | reserved (name : Text)
  | conflict (state : Nat) (terminal : Text) (existing new : Action)
  deriving DecidableEq, Repr

/-- An index that names nothing, a token needed after the last one, a run that was stopped, or room in memory
that was not to be had. -/
inductive Fault where
  | noSymbol (index : Nat)
  | noProduction (index : Nat)
  | noState (index : Nat)
  | noColumn (symbol : Nat)
  | pastEnd
  | stepLimit
  | noRoom (bytes : Nat)
  deriving DecidableEq, Repr

/-- Why a step from a grammar to its parser has no result. -/
inductive Failure where
  | rejected (error : GrammarError)
  | broken (fault : Fault)
  deriving DecidableEq, Repr

/-- A result that is there unless an index names nothing, where errors may occur too. -/
def Failure.ofFault {α : Type} (result : Except Fault α) : Except Failure α :=
  result.mapError .broken

/-- A result that is there unless the grammar is in error, where faults may occur too. -/
def Failure.ofError {α : Type} (result : Except GrammarError α) : Except Failure α :=
  result.mapError .rejected

namespace Text.NumeralError

def message : NumeralError → Text
  | .notADigit => "invalid digit found in string"
  | .tooLarge => "number too large to fit in target type"

end Text.NumeralError

namespace LineError

def message : LineError → Text
  | .manyArrows => "too many \"->\""
  | .noLeftSide => "cannot find left side"
  | .emptyLeftSide => "empty left side"
  | .blankInLeftSide => "left side contains whitespace"
  | .reservedLeftSide name => "reserved symbol \"" ++ name ++ "\" as left side"
  | .emptyBody => "empty body, use the epsilon marker instead"
  | .mixedEpsilon => "epsilon must be the only symbol of a body"
  | .endMarkInBody => "\"$\" is reserved for the end of input"
  | .noCounts => "missing production and string counts"
  | .badCount error => error.message
  | .wrongCounts => "expected production and string counts"
  | .fewProductions => "fewer productions than announced"
  | .notOneArrow => "expected exactly one \"->\""
  | .fewStrings => "fewer input strings than announced"

end LineError

namespace GrammarError

def message : GrammarError → Text
  | .malformed line reason => "Line " ++ Text.ofNat line ++ ": " ++ reason.message
  | .missingStart => "start symbol is not set"
  | .reserved name => "reserved symbol \"" ++ name ++ "\" cannot be used here"
  | .conflict state terminal existing new =>
    "conflict in state " ++ Text.ofNat state ++ " on \"" ++ terminal ++ "\": " ++ existing.short
      ++ " vs " ++ new.short

end GrammarError

end SimpleLR
