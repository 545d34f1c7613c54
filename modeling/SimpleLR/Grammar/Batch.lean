import SimpleLR.Grammar.RuleText

/-! The batch form of a grammar: a line with the number of productions and the number of input
strings, that many productions without alternatives, and that many input strings. Blank lines
count only among the strings. -/
namespace SimpleLR

/-- A grammar with the strings to parse. -/
structure Batch where
  grammar : Grammar
  strings : List Text
  deriving DecidableEq, Repr

namespace Batch

/-- The two counts of a header line. Without the second one there are no strings. -/
def readCounts (header : Text) : Except LineError (Nat × Nat) :=
  match (Text.words header).mapM Text.readCount with
  | .error error => .error (.badCount error)
  | .ok [productions] => .ok (productions, 0)
  | .ok [productions, strings] => .ok (productions, strings)
  | .ok _ => .error .wrongCounts

/-- The rule of a production line. -/
def readRule (line : Text) : Except LineError Rule :=
  match Text.arrowParts line with
  | [left, right] => do
    let head ← RuleText.readHead left
    return ⟨head, ← RuleText.readBody right⟩
  | _ => .error .notOneArrow

/-- Reads `count` production lines. Returns their rules and the lines behind them. -/
def takeRules (header : Nat) :
    (count : Nat) → List (Nat × Text) → Except GrammarError (List Rule × List (Nat × Text))
  | 0, lines => .ok ([], lines)
  | _ + 1, [] => .error (.malformed header .fewProductions)
  | count + 1, (number, line) :: rest =>
    if Text.allBlank line then takeRules header (count + 1) rest
    else
      match readRule line with
      | .error reason => .error (.malformed number reason)
      | .ok rule => do
        let (rules, rest) ← takeRules header count rest
        return (rule :: rules, rest)

/-- The first `count` lines, trimmed. -/
def takeStrings (header count : Nat) (lines : List (Nat × Text)) :
    Except GrammarError (List Text) :=
  if lines.length < count then .error (.malformed header .fewStrings)
  else .ok ((lines.take count).map fun (_, line) => Text.trimmed line)

/-- What the header line of a batch announces, with its number and the numbered lines behind it. -/
structure Header where
  number : Nat
  productionCount : Nat
  stringCount : Nat
  lines : List (Nat × Text)
  deriving DecidableEq, Repr

/-- The header of a text is its first line that is not blank. -/
def readHeader (text : Text) : Except GrammarError Header :=
  match (Text.numberedLines text).dropWhile fun (_, line) => Text.allBlank line with
  | [] => .error (.malformed 1 .noCounts)
  | (number, line) :: lines =>
    match readCounts line with
    | .error reason => .error (.malformed number reason)
    | .ok (productionCount, stringCount) => .ok ⟨number, productionCount, stringCount, lines⟩

/-- The rules that are announced, and the lines behind them. -/
def Header.takeRules (header : Header) : Except GrammarError (List Rule × List (Nat × Text)) :=
  Batch.takeRules header.number header.productionCount header.lines

/-- The grammar and the strings that a text spells, however much room they take. -/
def ofText (text : Text) : Except GrammarError Batch := do
  let header ← readHeader text
  let (rules, rest) ← header.takeRules
  let strings ← takeStrings header.number header.stringCount rest
  return ⟨← Grammar.ofRules rules, strings⟩

section Room

/-- Nobody can ask for this many bytes. -/
def roomLimit : Nat := Nat.pow 2 63

/-- The bytes of a rule that was read: a head of two words and a body of three, of eight bytes each. -/
def ruleSize : Nat := 40

/-- The bytes of a string that was read, which has three words. -/
def stringSize : Nat := 24

/-- Asks for room in memory, where `granted` tells what is granted of what can be asked for. No room is
always had. -/
def reserve (granted : Nat → Bool) (bytes : Nat) : Except Fault Unit :=
  if bytes == 0 || decide (bytes < roomLimit) && granted bytes then .ok () else .error (.noRoom bytes)

/-- Reads a batch. Room for all productions, and later for all strings, is asked for before the first one is
read. -/
def load (granted : Nat → Bool) (text : Text) : Except Failure Batch := do
  let header ← Failure.ofError (readHeader text)
  Failure.ofFault (reserve granted (ruleSize * header.productionCount))
  let (rules, rest) ← Failure.ofError header.takeRules
  Failure.ofFault (reserve granted (stringSize * header.stringCount))
  let strings ← Failure.ofError (takeStrings header.number header.stringCount rest)
  return ⟨← Failure.ofError (Grammar.ofRules rules), strings⟩

/-- Memory that grants all that can be asked for. -/
def plenty : Nat → Bool := fun _ => true

end Room

end Batch

end SimpleLR
