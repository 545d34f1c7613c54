import SimpleLR.Listing.Reports
import SimpleLR.Listing.Sets
import SimpleLR.Listing.Tables
import SimpleLR.Proofs.Markup.Outline
import SimpleLR.Proofs.Result

namespace SimpleLR

theorem SetListing.alike {listing other : SetListing}
    (pairs : List.Forall₂ (fun _ _ => True) listing.entries other.entries) :
    Html.Alike listing.html other.html := by
  have cells (entry entry' : SetEntry) : Html.Alike entry.html entry'.html :=
    .dataRow (.cons trivial (.cons trivial (.cons trivial .nil)))
  have titles : Html.Alike (Html.headingRow ["Non-terminal", "First", "Follow"])
      (Html.headingRow ["Non-terminal", "First", "Follow"]) :=
    .headingRow (.cons trivial (.cons trivial (.cons trivial .nil)))
  exact .table (titles.append (.flatMap pairs fun entry entry' _ => cells entry entry'))

namespace TableListing

/-- Listings of one table, by names that need not be the same. -/
structure Alike (listing other : TableListing) : Prop where
  terminals : List.Forall₂ (fun _ _ => True) listing.terminals other.terminals
  nonTerminals : List.Forall₂ (fun _ _ => True) listing.nonTerminals other.nonTerminals
  productions : List.Forall₂ (fun _ _ => True) listing.productions other.productions
  actions : listing.actions = other.actions
  gotos : listing.gotos = other.gotos

variable {listing other : TableListing}

private theorem regroup {row row' blank span close word cell last first second whole before behind : Text}
    (one : whole = row ++ blank ++ span) (two : before = close ++ word ++ cell ++ span)
    (three : behind = close ++ last ++ cell ++ row') :
    whole ++ first ++ before ++ second ++ behind =
      row ++ blank ++ (span ++ first ++ close) ++ word ++ cell ++ (span ++ second ++ close) ++ last
        ++ cell ++ row' := by
  subst one two three
  simp only [List.append_assoc]

/-- The titles of the columns as pieces of markup around two words. -/
theorem titleRow_eq : listing.titleRow =
    Html.Markup.rowStart.text ++ Html.Markup.blankHeading.text
      ++ (Html.Markup.spanStart listing.terminals.length).text ++ Html.escape "ACTIONS"
      ++ (Html.Markup.cellEnd .heading).text
      ++ (Html.Markup.spanStart listing.nonTerminals.length).text ++ Html.escape "GOTO"
      ++ (Html.Markup.cellEnd .heading).text ++ Html.Markup.rowEnd.text := by
  have actions : Html.escape "ACTIONS" = "ACTIONS" := Html.escape_of_letters (by decide)
  have gotos : Html.escape "GOTO" = "GOTO" := Html.escape_of_letters (by decide)
  have opening : ("<tr>\n\t<th> </th>\n\t<th colspan = " : Text) =
      "<tr>\n" ++ "\t<th> </th>\n" ++ "\t<th colspan = " := by decide +kernel
  have middle : ("> ACTIONS </th>\n\t<th colspan = " : Text) =
      "> " ++ "ACTIONS" ++ " </th>\n" ++ "\t<th colspan = " := by decide +kernel
  have closing : ("> GOTO </th>\n</tr>\n" : Text) = "> " ++ "GOTO" ++ " </th>\n" ++ "</tr>\n" := by decide +kernel
  rw [actions, gotos]
  exact regroup opening middle closing

variable (alike : listing.Alike other)
include alike

theorem Alike.titleRow : Html.Alike listing.titleRow other.titleRow := by
  rw [titleRow_eq, titleRow_eq, alike.terminals.length_eq, alike.nonTerminals.length_eq]
  exact ((((((((Html.Alike.markup _).append (.markup _)).append (.markup _)).append
    (.shown _ _)).append (.markup _)).append (.markup _)).append (.shown _ _)).append
    (.markup _)).append (.markup _)

theorem Alike.heading : List.Forall₂ (fun _ _ => True) listing.heading other.heading :=
  List.rel_append (List.rel_append (.cons trivial .nil) alike.terminals) alike.nonTerminals

theorem Alike.rows (cell : Action → Except Fault Text) : listing.rows cell = other.rows cell := by
  unfold TableListing.rows
  rw [alike.actions, alike.gotos]

/-- Both tables are shown with one outline, or neither is. -/
theorem Alike.html : Result.Alike Eq Html.Alike listing.html other.html := by
  unfold TableListing.html
  rw [alike.rows]
  cases other.rows fun action => .ok (htmlAction action) with
  | error fault => exact .error rfl
  | ok rows =>
    have data : Html.Alike (rows.flatMap Html.dataRow) (rows.flatMap Html.dataRow) := by
      have pairs : List.Forall₂ Eq rows rows := List.forall₂_same.mpr fun _ _ => rfl
      refine .flatMap pairs fun row row' same => .dataRow ?_
      exact same ▸ List.forall₂_same.mpr fun _ _ => trivial
    have numbered : List.Forall₂ (fun _ _ => True) listing.productions.zipIdx
        other.productions.zipIdx := by
      apply List.forall₂_of_length_eq_of_get
      · simp [alike.productions.length_eq]
      · exact fun _ _ _ => trivial
    have titles : Html.Alike (Html.headingRow ["#", "Production"])
        (Html.headingRow ["#", "Production"]) := .headingRow (.cons trivial (.cons trivial .nil))
    have names := Html.Alike.headingRow alike.heading
    refine .ok ((Html.Alike.table ((alike.titleRow.append names).append data)).append
      (.table (titles.append (.flatMap numbered fun _ _ _ => ?_))))
    exact .dataRow (.cons trivial (.cons trivial .nil))

end TableListing

/-- Reports whose traces are as long are shown with one outline. -/
theorem ReportListing.alike {listing other : ReportListing}
    (pairs : List.Forall₂ (fun report report' : Report => report.trace.length = report'.trace.length)
      listing.reports other.reports) : Html.Alike listing.html other.html := by
  have trace (report report' : Report) (same : report.trace.length = report'.trace.length) :
      Html.Alike report.htmlTrace report'.htmlTrace := by
    have rows : List.Forall₂ (fun _ _ => True) report.trace report'.trace :=
      List.forall₂_of_length_eq_of_get same fun _ _ _ => trivial
    have titles : Html.Alike (Html.headingRow Report.heading) (Html.headingRow Report.heading) :=
      .headingRow (List.forall₂_same.mpr fun _ _ => trivial)
    refine .table (titles.append (.flatMap rows fun _ _ _ => .dataRow ?_))
    exact .cons trivial (.cons trivial (.cons trivial .nil))
  have titles : Html.Alike (Html.headingRow ["Input string", "Parse result"])
      (Html.headingRow ["Input string", "Parse result"]) :=
    .headingRow (.cons trivial (.cons trivial .nil))
  refine .lines (.cons (.table (titles.append (.flatMap pairs fun _ _ _ => .dataRow ?_))) ?_)
  · exact .cons trivial (.cons trivial .nil)
  · rw [List.forall₂_map_left_iff, List.forall₂_map_right_iff]
    exact pairs.imp trace

end SimpleLR
