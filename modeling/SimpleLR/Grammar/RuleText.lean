import SimpleLR.Grammar.Rules
import SimpleLR.Text.Pieces

/-! The text form of a grammar. A line `Head -> a b | c` holds the alternatives of one head, a line
that starts with a bar continues the head before it, and blank lines are passed over. -/
namespace SimpleLR

namespace RuleText

/-- The words that stand for epsilon as a body of one word. -/
def epsilonMarkers : List Text := ["ε", "ϵ", "epsilon", "''"]

/-- A lone quote. Two of them in a row are one more way to write epsilon. -/
def quote : Text := "'"

/-- The body that an alternative spells, empty for epsilon. -/
def readBody (alternative : Text) : Except LineError (List Text) :=
  let names := Text.words alternative
  if names.isEmpty then .error .emptyBody
  else if names == [quote, quote] then .ok []
  else if names.length == 1 && names.all epsilonMarkers.contains then .ok []
  else if names.any (quote :: epsilonMarkers).contains then .error .mixedEpsilon
  else if names.contains endMarkName then .error .endMarkInBody
  else .ok names

/-- The head that stands left of an arrow. -/
def readHead (left : Text) : Except LineError Text :=
  let name := Text.trimmed left
  if name.isEmpty then .error .emptyLeftSide
  else if (Text.words name).length != 1 then .error .blankInLeftSide
  else if name == endMarkName || epsilonMarkers.contains name || name == quote then
    .error (.reservedLeftSide name)
  else .ok name

/-- The head of a line and the text of its alternatives, given the head of the line before. -/
def splitLine (previous : Option Text) (line : Text) : Except LineError (Text × Text) :=
  match Text.arrowParts line with
  | [left, right] => do return (← readHead left, right)
  | [whole] =>
    match previous, Text.trimmed whole with
    | some head, '|' :: alternatives => .ok (head, alternatives)
    | _, _ => .error .noLeftSide
  | _ => .error .manyArrows

/-- The head of a line and the bodies of its alternatives. -/
def readLine (previous : Option Text) (line : Text) :
    Except LineError (Text × List (List Text)) := do
  let (head, alternatives) ← splitLine previous line
  return (head, ← (Text.barParts alternatives).mapM readBody)

/-- The rules of numbered lines. The first line that is refused is the error. -/
def readLines (previous : Option Text) : List (Nat × Text) → Except GrammarError (List Rule)
  | [] => .ok []
  | (number, line) :: rest =>
    if Text.allBlank line then readLines previous rest
    else
      match readLine previous line with
      | .error reason => .error (.malformed number reason)
      | .ok (head, bodies) => do
        let later ← readLines (some head) rest
        return bodies.map (Rule.mk head) ++ later

end RuleText

/-- The rules that a text spells, in order. -/
def Rule.ofText (text : Text) : Except GrammarError (List Rule) :=
  RuleText.readLines none (Text.numberedLines text)

/-- The grammar that a text spells. -/
def Grammar.ofText (text : Text) : Except GrammarError Grammar := do
  Grammar.ofRules (← Rule.ofText text)

end SimpleLR
