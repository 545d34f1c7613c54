import SimpleLR.Text.Basic

namespace SimpleLR

/-- A JSON value. The fields of an object keep their order. -/
inductive Json where
  | null
  | bool (value : Bool)
  | number (value : Nat)
  | string (value : Text)
  | array (items : List Json)
  | object (fields : List (Text × Json))
  deriving BEq

namespace Json

/-- A hexadecimal digit, in lower case. -/
def hexDigit (n : Nat) : Char := Nat.digitChar (n % 16)

/-- How one character of a string is written. Only quotes, backslashes and the control characters
below the blank are escaped. -/
def escapeChar (c : Char) : Text :=
  match c with
  | '"' => "\\\""
  | '\\' => "\\\\"
  | '\n' => "\\n"
  | '\r' => "\\r"
  | '\t' => "\\t"
  | '\x08' => "\\b"
  | '\x0c' => "\\f"
  | c => if c.toNat < 0x20 then "\\u00" ++ [hexDigit (c.toNat / 16), hexDigit c.toNat] else [c]

/-- A string between quotes. -/
def quoted (value : Text) : Text := "\"" ++ value.flatMap escapeChar ++ "\""

mutual

/-- The text of a value, without blanks between its parts. -/
def compact : Json → Text
  | .null => "null"
  | .bool true => "true"
  | .bool false => "false"
  | .number value => Text.ofNat value
  | .string value => quoted value
  | .array items => "[" ++ Text.joined "," (compactItems items) ++ "]"
  | .object fields => ['{'] ++ Text.joined "," (compactFields fields) ++ ['}']

def compactItems : List Json → List Text
  | [] => []
  | item :: rest => compact item :: compactItems rest

def compactFields : List (Text × Json) → List Text
  | [] => []
  | (name, value) :: rest => (quoted name ++ ":" ++ compact value) :: compactFields rest

end

/-- A list of strings. -/
def strings (values : List Text) : Json := .array (values.map .string)

/-- A value, or `null` where there is none. -/
def ofOption {α : Type} (encode : α → Json) : Option α → Json
  | none => .null
  | some value => encode value

end Json

end SimpleLR
