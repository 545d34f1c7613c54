import Mathlib.Data.List.Forall2
import SimpleLR.Proofs.Markup.Escaping

namespace SimpleLR.Html

/-- A cell of a row of headings or of a row of data. -/
inductive Cell where
  | heading
  | data
  deriving DecidableEq, Repr

def Cell.tag : Cell → Text
  | .heading => "th"
  | .data => "td"

/-- The pieces of fixed markup. -/
inductive Markup where
  | documentStart
  | documentEnd
  | tableStart
  | tableEnd
  | rowStart
  | rowEnd
  | cellStart (cell : Cell)
  | cellEnd (cell : Cell)
  | blankHeading
  | spanStart (columns : Nat)
  | plainStart
  | plainEnd
  | lineEnd
  deriving DecidableEq, Repr

namespace Markup

def text : Markup → Text
  | .documentStart => "<!DOCTYPE html>\n<html>\n<head>\n" ++ "\t<link rel='stylesheet' href='styles.css'>\n"
      ++ "\t<title> SLR table </title>\n</head>\n<body>\n"
  | .documentEnd => "</body>\n</html>\n"
  | .tableStart => "<table>\n"
  | .tableEnd => "</table>\n"
  | .rowStart => "<tr>\n"
  | .rowEnd => "</tr>\n"
  | .cellStart cell => "\t<" ++ cell.tag ++ "> "
  | .cellEnd cell => " </" ++ cell.tag ++ ">\n"
  | .blankHeading => "\t<th> </th>\n"
  | .spanStart columns => "\t<th colspan = " ++ Text.ofNat columns ++ "> "
  | .plainStart => "<pre>\n"
  | .plainEnd => "\n</pre>"
  | .lineEnd => "\n"

end Markup

/-- A text that is made of the pieces of an outline, in order, and of escaped texts. -/
inductive Written : List Markup → Text → Prop where
  | nil : Written [] []
  | markup {outline : List Markup} {rest : Text} (piece : Markup) (behind : Written outline rest) :
      Written (piece :: outline) (piece.text ++ rest)
  | shown {outline : List Markup} {rest : Text} (text : Text) (behind : Written outline rest) :
      Written outline (escape text ++ rest)

namespace Written

theorem piece (piece : Markup) : Written [piece] piece.text := by
  simpa using Written.markup piece .nil

theorem escaped (text : Text) : Written [] (escape text) := by
  simpa using Written.shown text .nil

theorem append {first second : List Markup} {before after : Text} (one : Written first before)
    (two : Written second after) : Written (first ++ second) (before ++ after) := by
  induction one with
  | nil => exact two
  | markup piece _ ih => simpa using ih.markup piece
  | shown text _ ih => simpa using ih.shown text

end Written

section Tags

/-- The angle brackets of a text. -/
def angles (text : Text) : Text := text.filter fun c => c == '<' || c == '>'

private theorem angles_escape (text : Text) : angles (escape text) = [] := by
  refine List.filter_eq_nil_iff.mpr fun c member angle => not_mem_escape ?_ member
  simpa using angle

theorem Written.angles {outline : List Markup} {document : Text} (written : Written outline document) :
    Html.angles document = outline.flatMap fun piece => Html.angles piece.text := by
  induction written with
  | nil => rfl
  | markup piece _ ih =>
    rw [List.flatMap_cons, ← ih, Html.angles, List.filter_append]
    rfl
  | shown text _ ih =>
    rw [← ih, Html.angles, List.filter_append]
    exact congrArg (· ++ Html.angles _) (angles_escape text)

/-- What a character does inside a tag or outside of one: what is read of the tag afterwards, and the
tag that it closes. -/
def readTag (c : Char) : Option Text → Option Text × List Text
  | none => if c = '<' then (some [], []) else (none, [])
  | some tag => if c = '>' then (none, [tag]) else (some (tag ++ [c]), [])

/-- The tags that a text closes, and what it leaves open. -/
def tagsFrom (opened : Option Text) : Text → List Text × Option Text
  | [] => ([], opened)
  | c :: rest =>
    let (opened, closed) := readTag c opened
    let (tags, last) := tagsFrom opened rest
    (closed ++ tags, last)

/-- What stands between the angle brackets of a text, from left to right. -/
def tags (text : Text) : List Text := (tagsFrom none text).1

theorem tagsFrom_append (opened : Option Text) (first second : Text) :
    tagsFrom opened (first ++ second) =
      ((tagsFrom opened first).1 ++ (tagsFrom (tagsFrom opened first).2 second).1,
        (tagsFrom (tagsFrom opened first).2 second).2) := by
  induction first generalizing opened with
  | nil => rfl
  | cons c rest ih => simp [tagsFrom, ih]

private theorem tagsFrom_none {text : Text} (plain : '<' ∉ text) : tagsFrom none text = ([], none) := by
  induction text with
  | nil => rfl
  | cons c rest ih =>
    have apart : c ≠ '<' := fun same => plain (same ▸ List.mem_cons_self)
    simp [tagsFrom, readTag, apart, ih fun member => plain (List.mem_cons_of_mem c member)]

private theorem tagsFrom_some {tag text : Text} (plain : '>' ∉ text) :
    tagsFrom (some tag) text = ([], some (tag ++ text)) := by
  induction text generalizing tag with
  | nil => simp [tagsFrom]
  | cons c rest ih =>
    have apart : c ≠ '>' := fun same => plain (same ▸ List.mem_cons_self)
    simp [tagsFrom, readTag, apart, ih fun member => plain (List.mem_cons_of_mem c member)]

theorem not_mem_ofNat {c : Char} (other : c.isDigit = false) (n : Nat) : c ∉ Text.ofNat n := by
  intro member
  have digit := Nat.isDigit_of_mem_toDigits (by decide) (by decide) member
  rw [other] at digit
  cases digit

theorem Markup.tagsFrom_spanStart (columns : Nat) : tagsFrom none (spanStart columns).text =
    (["th colspan = " ++ Text.ofNat columns], none) := by
  let start : Text := "\t<th colspan = "
  let tag : Text := "th colspan = "
  have opened : tagsFrom none start = ([], some tag) := by decide +kernel
  have digits : '>' ∉ Text.ofNat columns := not_mem_ofNat (by decide) columns
  change tagsFrom none (start ++ Text.ofNat columns ++ ['>', ' ']) = ([tag ++ Text.ofNat columns], none)
  rw [tagsFrom_append, tagsFrom_append, opened, tagsFrom_some digits]
  rfl

theorem Markup.closed (piece : Markup) : (tagsFrom none piece.text).2 = none := by
  cases piece with
  | cellStart cell | cellEnd cell => cases cell <;> decide +kernel
  | spanStart columns => rw [tagsFrom_spanStart]
  | _ => decide +kernel

/-- The tags of what is written are those of its outline. -/
theorem Written.tags {outline : List Markup} {document : Text} (written : Written outline document) :
    Html.tags document = outline.flatMap fun piece => Html.tags piece.text := by
  induction written with
  | nil => rfl
  | markup piece _ ih =>
    rw [List.flatMap_cons, ← ih, Html.tags, tagsFrom_append, piece.closed]
    rfl
  | shown text _ ih =>
    rw [← ih, Html.tags, tagsFrom_append, tagsFrom_none (not_mem_escape (.inl rfl))]
    rfl

end Tags

private theorem Markup.not_mem_text (piece : Markup) : '&' ∉ piece.text := by
  cases piece with
  | cellStart cell | cellEnd cell => cases cell <;> decide +kernel
  | spanStart columns =>
    have digits : '&' ∉ Text.ofNat columns := not_mem_ofNat (by decide) columns
    let start : Text := "\t<th colspan = "
    have before : '&' ∉ start := by decide +kernel
    change '&' ∉ start ++ Text.ofNat columns ++ ['>', ' ']
    simp only [List.mem_append, before, digits, or_self, false_or]
    decide
  | _ => decide +kernel

theorem Written.entitiesOnly {outline : List Markup} {document : Text}
    (written : Written outline document) : EntitiesOnly document := by
  induction written with
  | nil => exact .nil
  | markup piece _ ih => exact .append piece.not_mem_text ih
  | shown text _ ih => exact ih.escape text

/-- Texts that are written with one outline. -/
def Alike (first second : Text) : Prop :=
  ∃ outline, Written outline first ∧ Written outline second

namespace Alike

theorem markup (piece : Markup) : Alike piece.text piece.text :=
  ⟨_, .piece piece, .piece piece⟩

theorem shown (first second : Text) : Alike (escape first) (escape second) :=
  ⟨_, .escaped first, .escaped second⟩

theorem append {first second before after : Text} (one : Alike first second)
    (two : Alike before after) : Alike (first ++ before) (second ++ after) := by
  obtain ⟨_, written, written'⟩ := one
  obtain ⟨_, behind, behind'⟩ := two
  exact ⟨_, written.append behind, written'.append behind'⟩

theorem tags {first second : Text} (alike : Alike first second) :
    Html.tags first = Html.tags second := by
  obtain ⟨_, written, written'⟩ := alike
  rw [written.tags, written'.tags]

section Lists

variable {α β : Type} {related : α → β → Prop} {list : List α} {other : List β}

theorem flatMap {f : α → Text} {f' : β → Text} (pairs : List.Forall₂ related list other)
    (each : ∀ value value', related value value' → Alike (f value) (f' value')) :
    Alike (list.flatMap f) (other.flatMap f') := by
  induction pairs with
  | nil => exact ⟨_, .nil, .nil⟩
  | cons own _ ih =>
    rw [List.flatMap_cons, List.flatMap_cons]
    exact (each _ _ own).append ih

theorem lines {texts texts' : List Text} (pairs : List.Forall₂ Alike texts texts') :
    Alike (Text.joined "\n" texts) (Text.joined "\n" texts') := by
  induction pairs with
  | nil => exact ⟨_, .nil, .nil⟩
  | cons own pairs ih =>
    cases pairs with
    | nil => simpa using own
    | cons =>
      rw [Text.joined_cons_cons, Text.joined_cons_cons]
      exact (own.append (markup .lineEnd)).append ih

private theorem regroup_cell {start tag close shown finish ending : Text} :
    start ++ tag ++ close ++ shown ++ finish ++ tag ++ ending =
      (start ++ tag ++ close) ++ shown ++ (finish ++ tag ++ ending) := by
  simp only [List.append_assoc]

theorem rowCell_eq (cell : Cell) (text : Text) : rowCell cell.tag text =
    (Markup.cellStart cell).text ++ escape text ++ (Markup.cellEnd cell).text := regroup_cell

theorem row (cell : Cell) {cells cells' : List Text}
    (pairs : List.Forall₂ (fun _ _ => True) cells cells') :
    Alike (Html.row cell.tag cells) (Html.row cell.tag cells') := by
  have each (text text' : Text) : Alike (rowCell cell.tag text) (rowCell cell.tag text') := by
    rw [rowCell_eq, rowCell_eq]
    exact ((markup (.cellStart cell)).append (shown text text')).append (markup (.cellEnd cell))
  exact ((markup .rowStart).append (flatMap pairs fun _ _ _ => each _ _)).append (markup .rowEnd)

theorem headingRow {cells cells' : List Text} (pairs : List.Forall₂ (fun _ _ => True) cells cells') :
    Alike (Html.headingRow cells) (Html.headingRow cells') := row .heading pairs

theorem dataRow {cells cells' : List Text} (pairs : List.Forall₂ (fun _ _ => True) cells cells') :
    Alike (Html.dataRow cells) (Html.dataRow cells') := row .data pairs

end Lists

theorem table {rows rows' : Text} (alike : Alike rows rows') :
    Alike (Html.table rows) (Html.table rows') :=
  ((markup .tableStart).append alike).append (markup .tableEnd)

theorem document {elements elements' : List Text} (pairs : List.Forall₂ Alike elements elements') :
    Alike (Html.document elements) (Html.document elements') := by
  have inner := flatMap pairs fun element element' own => own.append (markup .lineEnd)
  exact ((markup .documentStart).append inner).append (markup .documentEnd)

end Alike

end SimpleLR.Html
