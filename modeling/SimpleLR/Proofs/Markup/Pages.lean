import Mathlib.Logic.Equiv.Basic
import SimpleLR.CommandLine
import SimpleLR.Proofs.Grammar.BatchRoom
import SimpleLR.Proofs.Markup.Listings
import SimpleLR.Proofs.Parser.Renaming
import SimpleLR.Proofs.Table.Shape

/-! The HTML pages of grammars. The outputs that are shown as tables are fixed markup and escaped texts.
Renaming the symbols changes none of the markup, since counterparts have the same table, the same number
of names to show, and runs of the same length. -/
namespace SimpleLR

variable {naming : Renaming} {g g' : Grammar}

namespace Grammar

private theorem setListing_alike (same : g.shape = g'.shape) (sets : FirstFollow) :
    Result.Alike Eq (fun listing listing' : SetListing =>
      List.Forall₂ (fun _ _ => True) listing.entries listing'.entries)
      (g.setListing sets) (g'.setListing sets) := by
  have members (set : SymbolSet) :
      Result.Alike Eq (fun _ _ => True) (g.memberNames set) (g'.memberNames set) :=
    (names_alike same _).bind fun _ _ _ => .ok trivial
  unfold setListing
  rw [listedNonTerminals_of_shape same]
  refine (Result.Alike.mapM_same g'.listedNonTerminals fun symbol => ?_).bind fun _ _ entries =>
    .ok entries
  refine (members _).bind fun _ _ _ => (members _).bind fun _ _ _ => ?_
  exact (name_alike same symbol).bind fun _ _ _ => .ok trivial

private theorem productionText_alike (same : g.shape = g'.shape) (index : Nat) :
    Result.Alike Eq (fun _ _ => True) (g.productionText index) (g'.productionText index) := by
  unfold productionText
  rw [production_of_shape same]
  refine (Result.Alike.refl (fun _ => rfl) (g'.production index)).bind fun production _ own => ?_
  subst own
  refine (name_alike same production.head).bind fun _ _ _ => ?_
  exact (names_alike same production.body).bind fun _ _ _ => .ok trivial

private theorem tableListing_alike (same : g.shape = g'.shape) (table : Table) :
    Result.Alike Eq TableListing.Alike (g.tableListing table) (g'.tableListing table) := by
  unfold tableListing
  rw [productions_of_shape same]
  refine (names_alike same table.terminals).bind fun _ _ terminals => ?_
  refine (names_alike same table.nonTerminals).bind fun _ _ nonTerminals => ?_
  refine (Result.Alike.mapM_same _ (productionText_alike same)).bind fun _ _ productions => ?_
  exact .ok ⟨terminals, nonTerminals, productions, rfl, rfl⟩

end Grammar

/-- Batches whose rules and inputs are those of each other, renamed. -/
structure Batch.Renamed (naming : Renaming) (batch other : Batch) : Prop where
  rules : ∃ rules, Grammar.ofRules rules = .ok batch.grammar ∧
    Grammar.ofRules (rules.map (Rule.rename naming.onNames)) = .ok other.grammar
  strings : List.Forall₂ (fun input input' =>
    Text.words input' = (Text.words input).map naming.onNames) batch.strings other.strings

/-- The outputs that are shown as HTML tables. The others are shown as plain text. -/
def Output.isTabular : Output → Bool
  | .sets | .table | .reports => true
  | .productions | .automaton => false

/-- An output of a batch and that of a renamed batch have one outline. -/
theorem Batch.Renamed.render_alike {batch other : Batch} (renamed : batch.Renamed naming other)
    {output : Output} (tabular : output.isTabular = true) :
    Result.Alike Failure.Alike Html.Alike (output.render .html batch.grammar batch.strings)
      (output.render .html other.grammar other.strings) := by
  obtain ⟨rules, success, success'⟩ := renamed.rules
  have loaded : batch.grammar.Loaded := ⟨_, success⟩
  have loaded' : other.grammar.Loaded := ⟨_, success'⟩
  have pair : batch.grammar.Counterpart naming other.grammar :=
    naming.ofRules success success' ▸ Grammar.counterpart_rename naming batch.grammar
  cases output with
  | productions | automaton => cases tabular
  | sets =>
    unfold Output.render
    rw [Grammar.firstFollow_of_shape pair.shape]
    refine (Failure.alike_ofFault (Grammar.setListing_alike pair.shape _)).bind ?_
    exact fun _ _ entries => .ok (SetListing.alike entries)
  | table =>
    unfold Output.render
    refine (Analysis.ofGrammar_alike pair loaded loaded').bind fun analysis other pair => ?_
    refine Failure.alike_ofFault ?_
    rw [← pair.table]
    refine (Grammar.tableListing_alike pair.pair.shape _).bind fun _ _ listings => ?_
    exact listings.html
  | reports =>
    unfold Output.render
    refine (Analysis.ofGrammar_alike pair loaded loaded').bind fun analysis other pair => ?_
    refine (Failure.alike_ofFault (pair.parseAll_alike renamed.strings)).bind ?_
    exact fun _ _ reports => .ok (ReportListing.alike reports)

namespace CommandLine

private theorem untilFailure_alike {results results' : List (Except Failure Text)}
    (pairs : List.Forall₂ (Result.Alike Failure.Alike Html.Alike) results results') :
    List.Forall₂ Html.Alike (untilFailure results).1 (untilFailure results').1 ∧
      Option.Rel Failure.Alike (untilFailure results).2 (untilFailure results').2 := by
  induction pairs with
  | nil => exact ⟨.nil, .none⟩
  | cons own _ ih =>
    cases own with
    | ok related => exact ⟨.cons related ih.1, ih.2⟩
    | error related => exact ⟨.nil, .some related⟩

private theorem page_alike {texts texts' : List Text} (pairs : List.Forall₂ Html.Alike texts texts') :
    Html.Alike (page .html texts) (page .html texts') := by
  have documents : List.Forall₂ Html.Alike [Html.document texts] [Html.document texts'] :=
    .cons (.document pairs) .nil
  exact .flatMap documents fun _ _ own => own.append (.markup .lineEnd)

end CommandLine

namespace Order

variable {order other : Order} {input input' : Text} {batch batch' : Batch}

/-- Runs on renamed batches end alike. -/
theorem exit_alike (html : order.format = .html) (html' : other.format = .html)
    (same : other.outputs = order.outputs)
    (tabular : ∀ output ∈ order.outputs, output.isTabular = true)
    (reads : order.read input = .ok batch) (reads' : other.read input' = .ok batch')
    (renamed : batch.Renamed naming batch') :
    Result.Alike Eq (fun exit exit' => exit.code = exit'.code ∧ Html.Alike exit.stdout exit'.stdout)
      (order.exit input) (other.exit input') := by
  have results : List.Forall₂ (Result.Alike Failure.Alike Html.Alike) (order.results batch)
      (other.results batch') := by
    unfold Order.results
    rw [html, html', same, List.forall₂_map_left_iff, List.forall₂_map_right_iff, List.forall₂_same]
    intro output member
    apply renamed.render_alike
    exact tabular output (by simpa using (List.mem_filter.mp member).2)
  obtain ⟨texts, failures⟩ := CommandLine.untilFailure_alike results
  have pages := CommandLine.page_alike texts
  unfold Order.exit
  rw [reads, reads', html, html']
  dsimp only
  generalize (CommandLine.untilFailure (order.results batch)).2 = failure at failures
  generalize (CommandLine.untilFailure (other.results batch')).2 = failure' at failures
  cases failures with
  | none => exact .ok ⟨rfl, pages⟩
  | some alike =>
    cases alike with
    | rejected error error' => exact .ok ⟨rfl, pages⟩
    | broken fault => exact .error rfl

private theorem loaded_of_read (reads : order.read input = .ok batch) : batch.grammar.Loaded := by
  unfold Order.read at reads
  split at reads
  · obtain ⟨own, success, same⟩ := Result.bind_eq_ok.mp reads
    obtain rfl := Except.ok.inj same
    exact (Grammar.loaded_of_batch (Batch.ofText_of_load success) :)
  · obtain ⟨g, success, same⟩ := Result.bind_eq_ok.mp reads
    obtain rfl := Except.ok.inj same
    exact Grammar.loaded_of_text (Result.mapError_eq_ok.mp success)

private theorem renamed_identity (reads : order.read input = .ok batch) : batch.Renamed .identity batch := by
  obtain ⟨rules, loads⟩ := loaded_of_read reads
  have kept : Rule.rename id = id := by
    funext rule
    simp [Rule.rename]
  exact ⟨⟨rules, loads, by rwa [Renaming.identity, kept, List.map_id]⟩,
    List.forall₂_same.mpr fun input _ => (List.map_id _).symm⟩

/-- A page is written with an outline, also if nothing could be read. -/
theorem exists_outline (html : order.format = .html)
    (tabular : ∀ output ∈ order.outputs, output.isTabular = true) {exit : Exit}
    (ended : order.exit input = .ok exit) : ∃ outline, Html.Written outline exit.stdout := by
  cases reads : order.read input with
  | error failure =>
    unfold Order.exit at ended
    rw [reads] at ended
    cases failure with
    | rejected error =>
      obtain rfl := Except.ok.inj ended
      exact ⟨[], .nil⟩
    | broken fault => cases ended
  | ok batch =>
    have alike := exit_alike html html rfl tabular reads reads (renamed_identity reads)
    rw [ended] at alike
    cases alike with
    | ok related =>
      obtain ⟨_, outline, written, _⟩ := related
      exact ⟨outline, written⟩

/-- A page whose outputs are shown as tables is fixed markup with escaped texts in between, so its angle
brackets are those of the markup and every ampersand starts an entity. Renaming the symbols of the
grammar and of the inputs does not change its tags. -/
theorem tags_of_page (html : order.format = .html)
    (tabular : ∀ output ∈ order.outputs, output.isTabular = true) :
    (∀ input exit, order.exit input = .ok exit → ∃ outline, Html.Written outline exit.stdout ∧
      Html.angles exit.stdout = outline.flatMap (fun piece => Html.angles piece.text) ∧
      Html.EntitiesOnly exit.stdout) ∧
    ∀ (naming : Renaming) (other : Order) (input input' : Text) (batch batch' : Batch),
      other.format = .html → other.outputs = order.outputs → order.read input = .ok batch →
      other.read input' = .ok batch' → batch.Renamed naming batch' →
      ∀ exit, order.exit input = .ok exit → ∃ exit', other.exit input' = .ok exit' ∧
        exit'.code = exit.code ∧ Html.tags exit'.stdout = Html.tags exit.stdout := by
  constructor
  · intro input exit ended
    obtain ⟨outline, written⟩ := exists_outline html tabular ended
    exact ⟨outline, written, written.angles, written.entitiesOnly⟩
  · intro naming other input input' batch batch' html' same reads reads' renamed exit ended
    have alike := exit_alike html html' same tabular reads reads' renamed
    rw [ended] at alike
    generalize other.exit input' = result at alike
    cases alike with
    | ok related =>
      exact ⟨_, rfl, related.1.symm, related.2.tags.symm⟩

end Order

/-- The grammar of `S -> a S` and `S -> b`, where `a` may have another name. -/
def Grammar.chain (name : Text) : Grammar where
  symbols := [.epsilon, .endMark, .nonTerminal "S", .terminal name, .terminal "b"]
  productions := [⟨2, [3, 2]⟩, ⟨2, [4]⟩]
  start := some 2
  augmented := none

/-- The names of a terminal `a` and of an angle bracket are exchanged. -/
def Renaming.swapped : Renaming :=
  ⟨Equiv.swap ['a'] ['<'], (Equiv.swap ['a'] ['<']).injective, by decide, by decide⟩

namespace Order

/-- All outputs that are shown as tables, on one page. -/
def tables (strings : List Text) : Order := ⟨[.sets, .table, .reports], .html, false, strings, .standardInput⟩

/-- The productions on a page. -/
def plainly : Order := ⟨[.productions], .html, false, [], .standardInput⟩

/-- A page of `S -> a S` and `S -> b`, and one on which the name `a` is an angle bracket. -/
theorem tags_of_page_swapped : ∃ exit exit', (tables ["a a b"]).exit "S -> a S | b\n" = .ok exit ∧
    (tables ["< < b"]).exit "S -> < S | b\n" = .ok exit' ∧
    (∃ outline, Html.Written outline exit.stdout) ∧ Html.tags exit'.stdout = Html.tags exit.stdout := by
  have tabular (output : Output) (member : output ∈ (tables ["a a b"]).outputs) :
      output.isTabular = true := by
    revert output
    decide
  have reads : (tables ["a a b"]).read "S -> a S | b\n" = .ok ⟨Grammar.chain "a", ["a a b"]⟩ := by
    decide +kernel
  have reads' : (tables ["< < b"]).read "S -> < S | b\n" = .ok ⟨Grammar.chain "<", ["< < b"]⟩ := by
    decide +kernel
  have renamed : Batch.Renamed .swapped ⟨Grammar.chain "a", ["a a b"]⟩ ⟨Grammar.chain "<", ["< < b"]⟩ :=
    ⟨⟨[⟨"S", ["a", "S"]⟩, ⟨"S", ["b"]⟩], by decide +kernel, by decide +kernel⟩, .cons (by decide +kernel) .nil⟩
  obtain ⟨exit, ended, _⟩ := Result.exists_of_evaluated ((tables ["a a b"]).exit "S -> a S | b\n")
    (fun exit => exit.code == 0) (by decide +kernel)
  obtain ⟨written, same⟩ := tags_of_page rfl tabular
  obtain ⟨outline, own, _⟩ := written _ exit ended
  obtain ⟨exit', ended', _, tags⟩ :=
    same .swapped (tables ["< < b"]) _ _ _ _ rfl rfl reads reads' renamed exit ended
  exact ⟨exit, exit', ended, ended', ⟨outline, own⟩, tags⟩

private theorem bold_not_mem (piece : Html.Markup) : ['b'] ∉ Html.tags piece.text := by
  cases piece with
  | cellStart cell | cellEnd cell => cases cell <;> decide +kernel
  | spanStart columns => simp [Html.tags, Html.Markup.tagsFrom_spanStart]
  | _ => decide +kernel

/-- Productions are shown as they stand: a terminal `<b>` is a tag of the page, which is no markup of
its own, and the tags are not those of the page with `b` as the terminal. -/
theorem tags_of_plain_page : ∃ exit exit', plainly.exit "S -> <b>\n" = .ok exit ∧
    plainly.exit "S -> b\n" = .ok exit' ∧ (¬ ∃ outline, Html.Written outline exit.stdout) ∧
    Html.tags exit.stdout ≠ Html.tags exit'.stdout := by
  obtain ⟨exit, ended, bold⟩ := Result.exists_of_evaluated (plainly.exit "S -> <b>\n")
    (fun exit => (Html.tags exit.stdout).contains ['b']) (by decide +kernel)
  obtain ⟨exit', ended', plain⟩ := Result.exists_of_evaluated (plainly.exit "S -> b\n")
    (fun exit => !(Html.tags exit.stdout).contains ['b']) (by decide +kernel)
  refine ⟨exit, exit', ended, ended', ?_, fun same => ?_⟩
  · rintro ⟨outline, written⟩
    rw [written.tags, List.contains_iff_mem] at bold
    obtain ⟨piece, _, inside⟩ := List.mem_flatMap.mp bold
    exact bold_not_mem piece inside
  · rw [← same, bold] at plain
    cases plain

end Order

end SimpleLR
