import SimpleLR.Proofs.Grammar.Solid
import SimpleLR.Proofs.Listing.Indexed
import SimpleLR.Proofs.Markup.Escaping
import SimpleLR.Proofs.Parser.Client

/-! Productions as formulas, symbol by symbol. Formulas are escaped and searched for epsilons as whole texts, and
still each name is written by itself. An epsilon inside a longer name is written by its command too, which the
rule for symbols does not do. -/
namespace SimpleLR

namespace Text

theorem mem_joined_of_mem {separator part : Text} {parts : List Text} {c : Char} (present : part ∈ parts)
    (inside : c ∈ part) : c ∈ joined separator parts := by
  induction parts with
  | nil => cases present
  | cons first rest ih =>
    cases rest with
    | nil => rwa [joined_singleton, ← List.mem_singleton.mp present]
    | cons second more =>
      rw [joined_cons_cons, List.append_assoc, List.mem_append, List.mem_append]
      rcases List.mem_cons.mp present with rfl | later
      · exact .inl inside
      · exact .inr (.inr (ih later))

end Text

namespace Tex

section Epsilon

variable {replacement text : Text}

theorem replaceEpsilon_append (replacement first second : Text) :
    replaceEpsilon replacement (first ++ second) =
      replaceEpsilon replacement first ++ replaceEpsilon replacement second :=
  List.flatMap_append

theorem replaceEpsilon_of_not_mem (free : 'ε' ∉ text) : replaceEpsilon replacement text = text := by
  induction text with
  | nil => rfl
  | cons c rest ih =>
    obtain ⟨apart, others⟩ : 'ε' ≠ c ∧ 'ε' ∉ rest := by simpa [not_or] using free
    rw [replaceEpsilon, List.flatMap_cons, if_neg (by simpa using apart.symm), ← replaceEpsilon, ih others]
    rfl

theorem epsilon_not_mem_replaceEpsilon (free : 'ε' ∉ replacement) (text : Text) :
    'ε' ∉ replaceEpsilon replacement text := by
  intro member
  obtain ⟨c, _, inside⟩ := List.mem_flatMap.mp member
  split at inside
  · exact free inside
  · rename_i apart
    exact apart (beq_iff_eq.mpr (List.mem_singleton.mp inside).symm)

theorem replaceEpsilon_joined {separator : Text} (free : 'ε' ∉ separator) (replacement : Text) (parts : List Text) :
    replaceEpsilon replacement (Text.joined separator parts) =
      Text.joined separator (parts.map (replaceEpsilon replacement)) := by
  induction parts with
  | nil => rfl
  | cons part rest ih =>
    cases rest with
    | nil => simp
    | cons second more =>
      rw [Text.joined_cons_cons, replaceEpsilon_append, replaceEpsilon_append, replaceEpsilon_of_not_mem free, ih]
      simp

end Epsilon

/-- A name as a formula has it: escaped, and with the command for every epsilon in it. -/
def written (name : Text) : Text := replaceEpsilon "\\epsilon" (escape name)

/-- A name by the rule for symbols: the command for epsilon, and any other name escaped. -/
def symbol (name : Text) : Text := if name = epsilonName then "\\epsilon" else escape name

private theorem epsilon_not_mem_written (name : Text) : 'ε' ∉ written name :=
  epsilon_not_mem_replaceEpsilon (by decide) _

theorem epsilon_not_mem_symbol {name : Text} : 'ε' ∉ symbol name ↔ ('ε' ∈ name → name = epsilonName) := by
  unfold symbol
  split
  · rename_i same
    exact iff_of_true (by decide) fun _ => same
  · rename_i other
    rw [epsilon_mem_escape]
    exact ⟨fun free member => absurd member free, fun whole member => other (whole member)⟩

theorem written_of_not_mem {name : Text} (free : 'ε' ∉ name) : written name = escape name :=
  replaceEpsilon_of_not_mem (mt epsilon_mem_escape.mp free)

/-- A name is written by the rule if there is no epsilon in it besides other characters. -/
theorem written_eq_symbol {name : Text} (whole : 'ε' ∈ name → name = epsilonName) : written name = symbol name := by
  unfold symbol
  split
  · rename_i same
    rw [same]
    decide
  · rename_i other
    exact written_of_not_mem fun member => other (whole member)

end Tex

namespace Alternatives

/-- The row of an array, given how its head and its symbols are written. -/
def formula (head symbol : Text → Text) (alternatives : Alternatives) : Text :=
  head alternatives.head ++ " & \\rightarrow & " ++
    Text.joined " \\mid " (alternatives.bodies.map fun names => Text.joined " \\ " (names.map symbol))

/-- Every name of a row is written by itself. -/
theorem tex_eq (alternatives : Alternatives) : alternatives.tex = alternatives.formula Tex.written Tex.written := by
  have arrow : 'ε' ∉ (" & \\rightarrow & " : Text) := by decide
  have bar : 'ε' ∉ (" \\mid " : Text) := by decide
  have between : 'ε' ∉ (" \\ " : Text) := by decide
  unfold tex formula Tex.written
  simp only [Tex.replaceEpsilon_append, Tex.replaceEpsilon_of_not_mem arrow, Tex.replaceEpsilon_joined bar,
    List.map_map, Function.comp_def, Tex.replaceEpsilon_joined between]

/-- The row is written by the rule for symbols exactly if no name holds an epsilon besides other characters. -/
theorem tex_eq_formula_iff (alternatives : Alternatives) :
    alternatives.tex = alternatives.formula Tex.escape Tex.symbol ↔ 'ε' ∉ alternatives.head ∧
      ∀ names ∈ alternatives.bodies, ∀ name ∈ names, 'ε' ∈ name → name = epsilonName := by
  constructor
  · intro same
    -- No epsilon is left in a row, so that the rule may leave none either.
    have free : 'ε' ∉ alternatives.formula Tex.escape Tex.symbol :=
      same ▸ Tex.epsilon_not_mem_replaceEpsilon (by decide) _
    unfold formula at free
    simp only [List.mem_append, not_or] at free
    refine ⟨mt Tex.epsilon_mem_escape.mpr free.1.1, fun names member name inside => ?_⟩
    refine Tex.epsilon_not_mem_symbol.mp fun stands => free.2 ?_
    exact Text.mem_joined_of_mem (List.mem_map_of_mem member)
      (Text.mem_joined_of_mem (List.mem_map_of_mem inside) stands)
  · rintro ⟨head, bodies⟩
    rw [tex_eq, formula, formula, Tex.written_of_not_mem head]
    congr 2
    refine List.map_congr_left fun names member => ?_
    rw [List.map_congr_left fun name inside => Tex.written_eq_symbol (bodies names member name inside)]

/-- The rule does not hold for a name that begins with an epsilon. Its command runs into the next letter. -/
theorem not_always_formula : ¬ ∀ alternatives : Alternatives,
    alternatives.tex = alternatives.formula Tex.escape Tex.symbol := by
  intro always
  exact absurd (always ⟨"S", [["εb"]]⟩) (by decide)

example : (⟨"S", [["εb"]]⟩ : Alternatives).tex = "S & \\rightarrow & \\epsilonb" := by decide

end Alternatives

namespace TableListing

/-- The formula of a production, given how the symbols of its body are written. -/
def formula (symbol : Text → Text) (head : Text) (names : List Text) : Text :=
  "$" ++ Tex.escape head ++ " \\rightarrow " ++ Text.joined " " (names.map symbol) ++ "$"

/-- A production is cut behind its head, and every name of its body is written by itself. -/
theorem productionTex_eq {head : Text} {names : List Text} (apart : ' ' ∉ head) :
    productionTex (head ++ " -> " ++ Text.joined " " names) = formula Tex.written head names := by
  have cut : Text.cut? " -> " (head ++ " -> " ++ Text.joined " " names) = some (head, Text.joined " " names) :=
    Text.cut?_append apart
  have blank : 'ε' ∉ (" " : Text) := by decide
  rw [productionTex, cut, Option.getD_some]
  dsimp only
  rw [Tex.escape_joined, Tex.replaceEpsilon_joined blank, List.map_map]
  rfl

private theorem formula_eq_iff (head : Text) (names : List Text) :
    formula Tex.written head names = formula Tex.symbol head names ↔
      ∀ name ∈ names, 'ε' ∈ name → name = epsilonName := by
  unfold formula
  constructor
  · intro same name member
    have bodies := List.append_cancel_left (List.append_cancel_right same)
    have free : 'ε' ∉ Text.joined " " (names.map Tex.symbol) := by
      rw [← bodies]
      intro found
      rcases Text.mem_of_mem_joined found with between | ⟨part, inside, stands⟩
      · exact absurd between (by decide)
      · obtain ⟨other, _, rfl⟩ := List.mem_map.mp inside
        exact Tex.epsilon_not_mem_written other stands
    exact Tex.epsilon_not_mem_symbol.mp fun stands =>
      free (Text.mem_joined_of_mem (List.mem_map_of_mem member) stands)
  · intro whole
    rw [List.map_congr_left fun name inside => Tex.written_eq_symbol (whole name inside)]

/-- A cell with a reduction has the formula of its production. -/
theorem Names.texAction_reduce {g : Grammar} {table : Table} {listing : TableListing} (names : listing.Names g table)
    (solid : g.Solid) (formed : g.WellFormed) {index : Nat} {production : Production}
    (found : g.productions[index]? = some production) : ∃ head body,
      g.name production.head = .ok head ∧ g.bodyNames production = .ok body ∧
        listing.texAction (.reduce index) = .ok ("reduce " ++ formula Tex.written head body) := by
  have fits := formed.fits_of_getElem? found
  have own := Grammar.name_ok (Grammar.lt_of_isNonTerminal fits.head)
  obtain ⟨body, spelled⟩ := fits.exists_bodyNames formed.toNamed
  have text := names.production_eq found own spelled
  refine ⟨_, body, own, spelled, ?_⟩
  rw [← productionTex_eq (Text.blank_not_mem_of_solid (solid.name own))]
  exact Result.bind_eq_ok.mpr ⟨_, by rw [TableListing.production, text], rfl⟩

end TableListing

/-- Rows of productions are written symbol by symbol, and so are the cells with reductions in the table of a grammar
text: in both, each name is escaped and has the command for every epsilon in it. This is the rule for symbols, the
command for epsilon alone and any other name escaped, exactly where no name holds an epsilon besides other
characters. -/
theorem formulas_by_symbol (alternatives : Alternatives) :
    alternatives.tex = alternatives.formula Tex.written Tex.written ∧
    (alternatives.tex = alternatives.formula Tex.escape Tex.symbol ↔ 'ε' ∉ alternatives.head ∧
      ∀ names ∈ alternatives.bodies, ∀ name ∈ names, 'ε' ∈ name → name = epsilonName) ∧
    ∀ {text : Text} {g : Grammar} {analysis : Analysis}, Grammar.ofText text = .ok g →
      Analysis.ofGrammar g = .ok analysis →
      ∃ listing rows, analysis.grammar.tableListing analysis.table = .ok listing ∧
        listing.rows listing.texAction = .ok rows ∧
        ∀ state column terminal index, analysis.table.terminals[column]? = some terminal →
          analysis.table.action? state terminal = some (.reduce index) →
          ∃ production head body, analysis.grammar.productions[index]? = some production ∧
            analysis.grammar.name production.head = .ok head ∧ analysis.grammar.bodyNames production = .ok body ∧
            rows[state]?.bind (·[1 + column]?) = some ("reduce " ++ TableListing.formula Tex.written head body) ∧
            (TableListing.formula Tex.written head body = TableListing.formula Tex.symbol head body ↔
              ∀ name ∈ body, 'ε' ∈ name → name = epsilonName) := by
  refine ⟨alternatives.tex_eq, alternatives.tex_eq_formula_iff, ?_⟩
  intro text g analysis read success
  obtain ⟨terminals, nonTerminals⟩ := Analysis.columns_of_ofGrammar success
  obtain ⟨start, built⟩ := Analysis.built_of_ofGrammar (Grammar.loaded_of_text read) success
  obtain ⟨listing, listed⟩ := built.exists_listing terminals nonTerminals
  have names := Grammar.tableListing_eq_ok.mp listed
  have indexed := built.indexed_table success
  obtain ⟨rows, made, _⟩ := names.exists_rows (names.exists_texAction indexed)
  refine ⟨listing, rows, listed, made, fun state column terminal index here reduces => ?_⟩
  have found := List.getElem?_eq_getElem (indexed.reduce state terminal index reduces)
  obtain ⟨head, body, own, spelled, shown⟩ := names.texAction_reduce
    ((Grammar.solid_of_text read).analysis success) built.faithful.augmented.toWellFormed found
  refine ⟨_, head, body, found, own, spelled, ?_, TableListing.formula_eq_iff head body⟩
  obtain ⟨entries, present, _⟩ := Option.bind_eq_some_iff.mp reduces
  have bound := (List.getElem?_eq_some_iff.mp present).1
  have row := List.getElem?_eq_getElem (names.length_rows made ▸ bound)
  obtain ⟨text, there, cell⟩ := names.action_of_row made row here
  rw [reduces, Option.elim_some, shown] at cell
  rw [row, Option.bind_some, there, Except.ok.inj cell]

/-- The augmented grammar of `S -> εb A` and `A -> ''`. -/
def Grammar.marked : Grammar where
  symbols := [.epsilon, .endMark, .nonTerminal "S", .nonTerminal "A", .terminal "εb", .nonTerminal "S'"]
  productions := [⟨5, [2]⟩, ⟨2, [4, 3]⟩, ⟨3, [epsilonIndex]⟩]
  start := some 2
  augmented := some 5

/-- An empty body is written by the rule, and a name that begins with an epsilon is not. -/
theorem formulas_by_symbol_marked :
    (⟨"A", [[epsilonName]]⟩ : Alternatives).tex = Alternatives.formula Tex.escape Tex.symbol ⟨"A", [[epsilonName]]⟩ ∧
      ∃ g analysis listing, ∃ rows : List (List Text),
        Grammar.ofText "S -> εb A\nA -> ''" = .ok g ∧ Analysis.ofGrammar g = .ok analysis ∧
        analysis.grammar.tableListing analysis.table = .ok listing ∧ listing.rows listing.texAction = .ok rows ∧
        rows[2]?.bind (·[2]?) = some ("reduce " ++ TableListing.formula Tex.symbol "A" [epsilonName]) ∧
        rows[3]?.bind (·[2]?) = some ("reduce " ++ TableListing.formula Tex.written "S" ["εb", "A"]) := by
  obtain ⟨_, row, reductions⟩ := formulas_by_symbol ⟨"A", [[epsilonName]]⟩
  obtain ⟨g, read, loads⟩ := Result.exists_of_evaluated (Grammar.ofText "S -> εb A\nA -> ''")
    (fun g => (Analysis.ofGrammar g).toOption.any fun analysis =>
      analysis.grammar == .marked && analysis.table.terminals == [4, endMarkIndex] &&
      analysis.table.action? 2 endMarkIndex == some (.reduce 2) &&
      analysis.table.action? 3 endMarkIndex == some (.reduce 1)) (by decide +kernel)
  obtain ⟨analysis, success, shows⟩ := Analysis.exists_of_evaluated g _ loads
  simp only [Bool.and_eq_true, beq_iff_eq] at shows
  obtain ⟨⟨⟨grammar, columns⟩, empty⟩, full⟩ := shows
  obtain ⟨listing, rows, listed, made, cells⟩ := reductions read success
  have column : analysis.table.terminals[1]? = some endMarkIndex := by rw [columns]; rfl
  rw [grammar] at cells
  refine ⟨row.mpr (by decide), g, analysis, listing, rows, read, success, listed, made, ?_, ?_⟩
  · obtain ⟨production, head, body, found, own, spelled, cell, rule⟩ := cells 2 1 endMarkIndex 2 column empty
    obtain rfl := Option.some.inj found
    obtain rfl : "A" = head := Except.ok.inj own
    obtain rfl : [epsilonName] = body := Except.ok.inj spelled
    rw [← rule.mpr (by decide)]
    exact cell
  · obtain ⟨production, head, body, found, own, spelled, cell, _⟩ := cells 3 1 endMarkIndex 1 column full
    obtain rfl := Option.some.inj found
    obtain rfl : "S" = head := Except.ok.inj own
    obtain rfl : (["εb", "A"] : List Text) = body := Except.ok.inj spelled
    exact cell

end SimpleLR
