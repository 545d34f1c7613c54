import SimpleLR.Text.Basic

namespace SimpleLR.Tex

/-- How one character other than a hyphen is written. -/
def escapeChar (c : Char) : Text :=
  match c with
  | '&' => "\\&"
  | '%' => "\\%"
  | '$' => "\\$"
  | '#' => "\\#"
  | '_' => "\\_"
  | '{' => ['\\', '{']
  | '}' => ['\\', '}']
  | '[' => ['{', '[', '}']
  | ']' => ['{', ']', '}']
  | '~' => "\\textasciitilde\x7b\x7d"
  | '^' => "\\textasciicircum\x7b\x7d"
  | '<' => "\\textless\x7b\x7d"
  | '>' => "\\textgreater\x7b\x7d"
  | '!' => "!\x7b\x7d"
  | '\\' => "\\textbackslash\x7b\x7d"
  | c => [c]

/-- Writes a text so that TeX prints it, as `escape::tex` of the library `crowbook-text-processing` does. A hyphen
before another hyphen gets an empty group, which keeps the two from becoming a dash. -/
def escape : Text → Text
  | [] => []
  | ['-'] => ['-']
  | '-' :: '-' :: rest => "-\x7b\x7d" ++ escape ('-' :: rest)
  | c :: rest => escapeChar c ++ escape rest

/-- Text between braces, as an argument or a group. -/
def group (text : Text) : Text := ['{'] ++ text ++ ['}']

/-- An environment with its arguments and its content, which starts and ends with its own line
breaks. -/
def environment (name arguments content : Text) : Text :=
  "\\begin" ++ group name ++ arguments ++ content ++ "\\end" ++ group name

/-- Every epsilon of a text becomes `replacement`. -/
def replaceEpsilon (replacement text : Text) : Text :=
  text.flatMap fun c => if c == 'ε' then replacement else [c]

end SimpleLR.Tex
