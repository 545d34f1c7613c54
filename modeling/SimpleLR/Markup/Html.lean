import SimpleLR.Text.Basic

namespace SimpleLR.Html

/-- How one character is written. -/
def escapeChar (c : Char) : Text :=
  if c == '<' then "&lt;"
  else if c == '>' then "&gt;"
  else if c == '&' then "&amp;"
  else if c.toNat < 0x20 && !(c == '\t' || c == '\n' || c == '\r') then []
  else [c]

/-- Writes a text so that a page shows it, as `escape::html` of the library `crowbook-text-processing` does. -/
def escape (text : Text) : Text := text.flatMap escapeChar

/-- A cell of a table row, on a line of its own. -/
def rowCell (tag cell : Text) : Text :=
  "\t<" ++ tag ++ "> " ++ escape cell ++ " </" ++ tag ++ ">\n"

/-- A table row: a line for the opening tag, one for each cell, one for the closing tag. -/
def row (tag : Text) (cells : List Text) : Text :=
  "<tr>\n" ++ cells.flatMap (rowCell tag) ++ "</tr>\n"

/-- A row of heading cells. -/
def headingRow (cells : List Text) : Text := row "th" cells

/-- A row of data cells. -/
def dataRow (cells : List Text) : Text := row "td" cells

/-- A table around rows that are written already. -/
def table (rows : Text) : Text := "<table>\n" ++ rows ++ "</table>\n"

/-- Text shown as it stands, line by line. -/
def preformatted (text : Text) : Text := "<pre>\n" ++ text ++ "\n</pre>"

/-- A whole page that shows the elements one below the other. -/
def document (elements : List Text) : Text :=
  "<!DOCTYPE html>\n<html>\n<head>\n" ++ "\t<link rel='stylesheet' href='styles.css'>\n"
    ++ "\t<title> SLR table </title>\n</head>\n<body>\n"
    ++ elements.flatMap (fun element => element ++ ['\n']) ++ "</body>\n</html>\n"

end SimpleLR.Html
