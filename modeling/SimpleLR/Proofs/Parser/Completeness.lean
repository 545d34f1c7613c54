import SimpleLR.Proofs.Parser.Valid

/-! How a sentence is parsed. While the symbols behind a dot yield the next terminals, the parser
shifts these and makes the reductions of the yield; the lookahead of each reduction follows its head
because of what the callers of its production still await. -/
namespace SimpleLR

variable {g : Grammar} {goal start : Nat} {automaton : Automaton} {table : Table}

/-- The tokens of a word of terminals, closed by an end mark. -/
inductive Grammar.Tokens (g : Grammar) : List Nat → List Text → Prop where
  | nil : Tokens g [] [endMarkName]
  | cons {terminal : Nat} {name : Text} {word : List Nat} {input : List Text}
      (proper : g.isTerminal terminal = true) (named : g.name terminal = .ok name)
      (rest : Tokens g word input) : Tokens g (terminal :: word) (name :: input)

theorem Grammar.Tokens.of_names {word : List Nat} {names : List Text}
    (terminals : ∀ symbol ∈ word, g.isTerminal symbol = true)
    (named : List.Forall₂ (fun symbol name => g.name symbol = .ok name) word names) :
    g.Tokens word (names ++ [endMarkName]) := by
  induction named with
  | nil => exact .nil
  | cons own _ ih =>
    exact .cons (terminals _ List.mem_cons_self) own
      (ih fun symbol member => terminals symbol (by simp [member]))

theorem Grammar.mapM_name_ok {word : List Nat} (bounds : ∀ symbol ∈ word, symbol < g.symbols.length) :
    ∃ names, word.mapM g.name = .ok names :=
  Result.mapM_ok fun symbol member => ⟨_, name_ok (bounds symbol member)⟩

theorem Grammar.exists_names {word : List Nat}
    (terminals : ∀ symbol ∈ word, g.isTerminal symbol = true) :
    ∃ names, List.Forall₂ (fun symbol name => g.name symbol = .ok name) word names := by
  obtain ⟨names, named⟩ := mapM_name_ok fun symbol member => lt_of_isTerminal (terminals symbol member)
  exact ⟨names, Result.mapM_eq_ok.mp named⟩

theorem Grammar.exists_tokens {word : List Nat}
    (terminals : ∀ symbol ∈ word, g.isTerminal symbol = true) : ∃ input, g.Tokens word input := by
  obtain ⟨names, named⟩ := Grammar.exists_names terminals
  exact ⟨_, .of_names terminals named⟩

/-- A word of terminals with two rightmost derivations from the start symbol. -/
def Grammar.Ambiguous (g : Grammar) : Prop :=
  ∃ start word first second, g.start = some start ∧
    (∀ symbol ∈ word, g.isTerminal symbol = true) ∧
    g.DerivesRightmost first [start] word ∧ g.DerivesRightmost second [start] word ∧ first ≠ second

/-- What is to come behind a production that was called for on top of a stack: for each of the items
that called for it, one after the other, a word that the rest of the body yields. -/
inductive Automaton.Awaits (g : Grammar) (automaton : Automaton) :
    List Frame → List Nat → Nat → List Nat → Prop where
  | nothing : Awaits g automaton [] [] 0 []
  | rest {frames : List Frame} {symbols word reductions beyond : List Nat} {caller : Item}
      {index : Nat} {outer production : Production}
      (valid : automaton.Valid g frames symbols caller)
      (rule : g.productions[caller.production]? = some outer)
      (dot : outer.symbols[caller.position]? = some production.head)
      (found : g.productions[index]? = some production)
      (yields : g.Yields (outer.symbols.drop (caller.position + 1)) word reductions)
      (later : Awaits g automaton (frames.drop caller.position) (symbols.drop caller.position)
        caller.production beyond) :
      Awaits g automaton frames symbols index (word ++ beyond)

namespace Table.Faithful

open Automaton

variable (faithful : table.Faithful g goal start automaton)
include faithful

variable {frames : List Frame} {symbols : List Nat}

theorem reads_of_tokens {word : List Nat} {input : List Text} (tokens : g.Tokens word input)
    (stack : Stack) : table.symbolOf? g ⟨stack, input⟩ = some (word.headD endMarkIndex) := by
  cases tokens with
  | nil => exact faithful.symbolOf?_endMark
  | cons proper named _ => exact faithful.symbolOf?_terminal proper named

/-- The first of what is to come follows the head of the production. -/
theorem follows_of_awaits {index : Nat} {beyond : List Nat} {production : Production}
    (awaits : automaton.Awaits g frames symbols index beyond)
    (found : g.productions[index]? = some production) :
    beyond.headD endMarkIndex ∈ g.firstFollow.follow.get production.head := by
  induction awaits generalizing production with
  | nothing => exact faithful.augmented.endMark_mem_follow found
  | @rest _ _ word _ beyond caller _ outer own _ rule dot here yields _ ih =>
    obtain rfl := Option.some.inj (here.symm.trans found)
    have occurs : g.Occurs outer.head own.head (outer.symbols.drop (caller.position + 1)) := by
      refine ⟨(faithful.augmented.fits_of_getElem? here).head, outer,
        List.mem_of_getElem? rule, rfl, outer.symbols.take caller.position, ?_⟩
      obtain ⟨bound, same⟩ := List.getElem?_eq_some_iff.mp dot
      rw [← same, ← List.drop_eq_getElem_cons bound, List.take_append_drop]
    have first : (word ++ beyond).headD endMarkIndex = word.headD (beyond.headD endMarkIndex) := by
      cases word <;> rfl
    rw [first]
    exact faithful.augmented.headD_mem_follow occurs yields (ih rule)

/-- A production that is completed on top of the stack is reduced on what is to come, and the item
that called for it advances over its head. -/
theorem moves_of_completed {index : Nat} {production : Production} {beyond : List Nat}
    {input : List Text} {caller : Item}
    (valid : automaton.Valid g frames symbols ⟨index, production.length⟩)
    (found : g.productions[index]? = some production)
    (dot : g.afterDot? caller = some production.head)
    (called : automaton.Valid g (frames.drop production.length) (symbols.drop production.length)
      caller)
    (awaits : automaton.Awaits g (frames.drop production.length) (symbols.drop production.length)
      index beyond)
    (tokens : g.Tokens beyond input) :
    ∃ rows frame, table.Moves g ⟨⟨0, frames⟩, input⟩ rows
        ⟨⟨0, frame :: frames.drop production.length⟩, input⟩ ∧
      TraceRow.reductions rows = [index] ∧
      automaton.Valid g (frame :: frames.drop production.length)
        (production.head :: symbols.drop production.length) caller.advance := by
  have later : index ≠ 0 := by
    rintro rfl
    obtain rfl := Option.some.inj (faithful.augmented.first.symm.trans found)
    obtain ⟨outer, rule, here⟩ := Grammar.afterDot?_eq_some.mp dot
    exact faithful.augmented.absent outer (List.mem_of_getElem? rule) (List.mem_of_getElem? here)
  obtain ⟨target, edge⟩ := faithful.edge_of_valid called dot
  have head := (faithful.augmented.fits_of_getElem? found).head
  have named := Grammar.name_ok (Grammar.lt_of_isNonTerminal head)
  obtain ⟨rows, moves, reduced⟩ := faithful.moves_of_reduce later found valid named edge
    (faithful.reads_of_tokens tokens _) (faithful.follows_of_awaits awaits found)
  exact ⟨rows, _, moves, reduced, .push called dot edge named⟩

private theorem position_of_completed {item : Item} {production : Production}
    (valid : automaton.Valid g frames symbols item)
    (found : g.productions[item.production]? = some production)
    (behind : production.symbols.drop item.position = []) : item.position = production.length := by
  obtain ⟨same, rule, enough, seen, _⟩ := valid.seen faithful.augmented.first
  obtain rfl := Option.some.inj (rule.symm.trans found)
  have lengths := congrArg List.length seen
  simp only [List.length_take, List.length_reverse] at lengths
  have bound := List.drop_eq_nil_iff.mp behind
  unfold Production.length
  omega

/-- While the symbols behind a dot yield the next terminals, the parser makes the reductions of the
yield, until the item is completed. -/
theorem steps_of_yields {form word reductions : List Nat} (yields : g.Yields form word reductions)
    {item : Item} {production : Production} {beyond : List Nat} {input : List Text}
    (valid : automaton.Valid g frames symbols item)
    (found : g.productions[item.production]? = some production)
    (behind : production.symbols.drop item.position = form)
    (awaits : automaton.Awaits g (frames.drop item.position) (symbols.drop item.position)
      item.production beyond)
    (tokens : g.Tokens (word ++ beyond) input) :
    ∃ count rows stack path rest,
      table.Steps g count ⟨⟨0, frames⟩, input⟩ rows ⟨⟨0, stack⟩, rest⟩ ∧
      TraceRow.reductions rows = reductions ∧ g.Tokens beyond rest ∧
      automaton.Valid g stack path ⟨item.production, production.length⟩ ∧
      stack.drop production.length = frames.drop item.position ∧
      path.drop production.length = symbols.drop item.position := by
  induction yields generalizing frames symbols item production beyond input with
  | nil =>
    have complete := faithful.position_of_completed valid found behind
    refine ⟨0, [], frames, symbols, input, .done _, rfl, tokens, ?_, ?_, ?_⟩
    · rw [← complete]
      exact valid
    · rw [complete]
    · rw [complete]
  | terminal _ _ ih =>
    obtain ⟨dot, next⟩ := Grammar.afterDot?_of_drop found behind
    obtain ⟨target, edge⟩ := faithful.edge_of_valid valid dot
    cases tokens with
    | cons proper named tokens =>
      obtain ⟨count, rows, stack, path, last, steps, same, tokens, complete, kept⟩ :=
        ih (.push valid dot edge named) found next awaits tokens
      obtain ⟨first, moves, unreduced⟩ := faithful.moves_of_shift proper named edge
      refine ⟨count + 1, _, stack, path, last, .step moves steps, ?_, tokens, complete, kept⟩
      rw [TraceRow.reductions_append, unreduced, same, List.nil_append]
  | @production index inner form inside outside within _ own _ later inward onward =>
    obtain ⟨dot, next⟩ := Grammar.afterDot?_of_drop found behind
    obtain ⟨_, rule, here⟩ := Grammar.afterDot?_eq_some.mp dot
    obtain rfl := Option.some.inj (rule.symm.trans found)
    have head := (faithful.augmented.fits_of_getElem? own).head
    have called : automaton.Valid g frames symbols (Item.initial index) :=
      .call valid dot (Grammar.mem_productionsOf.mpr ⟨head, inner, own, rfl⟩)
    have waits : automaton.Awaits g frames symbols index (outside ++ beyond) :=
      .rest valid found here own (next ▸ later) awaits
    rw [List.append_assoc] at tokens
    -- First the body of the production is completed, above the stack as it is now.
    obtain ⟨count, rows, stack, path, rest, steps, same, tokens, complete, kept, left⟩ :=
      inward called own rfl waits tokens
    rw [show frames.drop (Item.initial index).position = frames from rfl] at kept
    rw [show symbols.drop (Item.initial index).position = symbols from rfl] at left
    -- Then the production is reduced, and the item advances over its head.
    obtain ⟨more, frame, moves, reduced, advanced⟩ := faithful.moves_of_completed complete own dot
      (kept ▸ left ▸ valid) (kept ▸ left ▸ waits) tokens
    rw [kept] at moves advanced
    rw [left] at advanced
    obtain ⟨others, final, top, names, last, go, again, tokens, complete, kept⟩ :=
      onward advanced found next awaits tokens
    refine ⟨_, _, top, names, last, steps.trans (.step moves go), ?_, tokens, complete, kept⟩
    simp [same, reduced, again, Item.initial]

/-- When the first production is completed and nothing is to come, the parser accepts. -/
theorem accept_of_completed {production : Production} (leads : g.productions[0]? = some production)
    (valid : automaton.Valid g frames symbols ⟨0, production.length⟩) :
    table.step g ⟨⟨0, frames⟩, [endMarkName]⟩ =
      .ok (.accept [Configuration.row ⟨⟨0, frames⟩, [endMarkName]⟩ .accept]) := by
  obtain rfl := Option.some.inj (faithful.augmented.first.symm.trans leads)
  have one : Production.length ⟨goal, [start]⟩ = 1 :=
    congrArg List.length faithful.augmented.symbols_first
  rw [one] at valid
  have cell := (faithful.accept_cell valid.traces).mpr ⟨rfl, valid⟩
  apply step_eq_accept.mpr
  exact ⟨endMarkIndex, faithful.symbolOf?_endMark, cell, rfl⟩

/-- What the start symbol yields is accepted, by the reductions of the yield. -/
theorem accept_of_yields {word reductions : List Nat} {input : List Text}
    (yields : g.Yields [start] word reductions) (tokens : g.Tokens word input) :
    ∃ count rows last, table.Steps g count ⟨⟨0, []⟩, input⟩ rows last ∧
      table.step g last = .ok (.accept [last.row .accept]) ∧
      TraceRow.reductions rows = reductions := by
  have behind : (Production.symbols ⟨goal, [start]⟩).drop (Item.initial 0).position = [start] :=
    faithful.augmented.symbols_first
  obtain ⟨count, rows, stack, path, rest, steps, same, tokens, complete, _⟩ :=
    faithful.steps_of_yields yields .start faithful.augmented.first behind .nothing
      (by simpa using tokens)
  cases tokens with
  | nil =>
    have accepts := faithful.accept_of_completed faithful.augmented.first complete
    exact ⟨count, rows, _, steps, accepts, same⟩

private theorem reductions_unique {word first second : List Nat} (one : g.Yields [start] word first)
    (two : g.Yields [start] word second) : first = second := by
  obtain ⟨input, tokens⟩ := Grammar.exists_tokens one.terminals
  obtain ⟨count, rows, last, steps, accepts, rfl⟩ := faithful.accept_of_yields one tokens
  obtain ⟨other, more, final, again, ends, rfl⟩ := faithful.accept_of_yields two tokens
  have left : table.run g _ ⟨⟨0, []⟩, input⟩ [] = _ :=
    run_mono (run_of_accept steps accepts) (other + 1)
  have right : table.run g _ ⟨⟨0, []⟩, input⟩ [] = _ :=
    run_mono (run_of_accept again ends) (count + 1)
  rw [Nat.add_comm, right] at left
  have same := (Prod.mk.inj (Except.ok.inj (Option.some.inj left))).2
  simpa using congrArg TraceRow.reductions same.symm

end Table.Faithful

namespace Analysis

variable {analysis : Analysis}

/-- Every sentence is accepted, with or without an end mark behind it. -/
theorem accepted_of_sentence (loaded : g.Loaded) (success : ofGrammar g = .ok analysis)
    {word : List Nat} {names : List Text} {input : Text} (sentence : g.Sentence word)
    (named : word.mapM g.name = .ok names)
    (spelled : Text.words input = names ∨ Text.words input = names ++ [endMarkName]) :
    ∃ trace, analysis.Ends input .accepted trace := by
  obtain ⟨start, built⟩ := built_of_ofGrammar loaded success
  obtain ⟨other, earlier, chosen, own⟩ := Grammar.sentence_iff_yields.mp sentence
  obtain rfl := Option.some.inj (built.from'.chosen.symm.trans chosen)
  have yields := built.from'.yields_augmented own
  rw [← built.from'.mapM_name fun symbol member =>
    Grammar.lt_of_isTerminal (own.terminals symbol member), Result.mapM_eq_ok] at named
  have tokens := Grammar.Tokens.of_names yields.terminals named
  have absent := built.faithful.augmented.endMarkName_not_mem yields.terminals named
  have begun : Configuration.tokens input = names ++ [endMarkName] := by
    unfold Configuration.tokens
    rcases spelled with same | same
    · have last : names.getLast? ≠ some endMarkName := fun last => absent (List.mem_of_getLast? last)
      simp [same, last]
    · simp [same]
  rw [← begun] at tokens
  obtain ⟨count, rows, last, steps, accepts, _⟩ := built.faithful.accept_of_yields yields tokens
  exact ⟨_, count + 1, Table.run_of_accept steps accepts⟩

theorem accepted_of_sentence_pairs : ∃ analysis, ofGrammar .pairs = .ok analysis ∧
    (∃ trace, analysis.Ends "a b" .accepted trace) ∧ ∃ trace, analysis.Ends "a b $" .accepted trace := by
  obtain ⟨analysis, success, _⟩ := exists_of_evaluated .pairs (fun _ => true) (by decide +kernel)
  have pair : Grammar.pairs.productions[0]? = some ⟨2, [3, 2, 4]⟩ := rfl
  have empty : Grammar.pairs.productions[1]? = some ⟨2, [epsilonIndex]⟩ := rfl
  have opened : Grammar.pairs.Rewrites 0 [2] [3, 2, 4] := .here pair [] []
  have closed : Grammar.pairs.Rewrites 1 [3, 2, 4] [3, 4] := .here empty [3] [4]
  have sentence : Grammar.pairs.Sentence [3, 4] :=
    ⟨by decide, 2, rfl, (Grammar.Derives.refl.step opened).step closed⟩
  exact ⟨analysis, success,
    accepted_of_sentence Grammar.loaded_pairs success sentence rfl (.inl (by decide)),
    accepted_of_sentence Grammar.loaded_pairs success sentence rfl (.inr (by decide))⟩

/-- A grammar with two rightmost derivations of one word has a conflict, and a grammar that has a
parser derives every sentence in exactly one way. -/
theorem conflict_of_ambiguous (loaded : g.Loaded) :
    (g.Ambiguous → ∃ number terminal existing new,
      ofGrammar g = .error (.rejected (.conflict number terminal existing new))) ∧
    ∀ analysis, ofGrammar g = .ok analysis → ∀ word, g.Sentence word →
      ∃! steps, ∃ start, g.start = some start ∧ g.DerivesRightmost steps [start] word := by
  have unique {analysis : Analysis} (success : ofGrammar g = .ok analysis) {start : Nat}
      {word first second : List Nat} (chosen : g.start = some start)
      (terminals : ∀ symbol ∈ word, g.isTerminal symbol = true)
      (one : g.DerivesRightmost first [start] word) (two : g.DerivesRightmost second [start] word) :
      first = second := by
    obtain ⟨own, built⟩ := built_of_ofGrammar loaded success
    obtain rfl := Option.some.inj (built.from'.chosen.symm.trans chosen)
    have apart := built.formed.headsApart
    have same := built.faithful.reductions_unique
      (built.from'.yields_augmented (one.yields apart terminals))
      (built.from'.yields_augmented (two.yields apart terminals))
    have back := List.map_injective_iff.mpr (add_left_injective 1) same
    simpa using back
  constructor
  · intro holds
    obtain ⟨start, word, first, second, chosen, terminals, one, two, apart⟩ := holds
    cases result : ofGrammar g with
    | ok analysis => exact absurd (unique result chosen terminals one two) apart
    | error failure =>
      obtain ⟨number, terminal, existing, new, rfl⟩ := conflict_of_ofGrammar loaded chosen result
      exact ⟨number, terminal, existing, new, rfl⟩
  · intro analysis success word sentence
    obtain ⟨start, earlier, chosen, yields⟩ := Grammar.sentence_iff_yields.mp sentence
    refine ⟨earlier.reverse, ⟨start, chosen, yields.derivesRightmost⟩, ?_⟩
    rintro steps ⟨other, same, path⟩
    obtain rfl := Option.some.inj (chosen.symm.trans same)
    exact unique success chosen sentence.1 path yields.derivesRightmost

end Analysis

/-- A grammar that has its only production twice, `S -> a`. -/
def Grammar.twice : Grammar where
  symbols := [.epsilon, .endMark, .nonTerminal "S", .terminal "a"]
  productions := [⟨2, [3]⟩, ⟨2, [3]⟩]
  start := some 2
  augmented := none

private theorem Grammar.loaded_twice : twice.Loaded := ⟨[⟨"S", ["a"]⟩, ⟨"S", ["a"]⟩], rfl⟩

theorem Analysis.conflict_of_ambiguous_twice : Grammar.twice.Ambiguous ∧
    ∃ number terminal existing new,
      ofGrammar .twice = .error (.rejected (.conflict number terminal existing new)) := by
  have derives (index : Nat) (found : Grammar.twice.productions[index]? = some ⟨2, [3]⟩) :
      Grammar.twice.DerivesRightmost [index] [2] [3] :=
    .step (.here found [] [] (by simp)) (.done _)
  have ambiguous : Grammar.twice.Ambiguous :=
    ⟨2, [3], [0], [1], rfl, by decide, derives 0 rfl, derives 1 rfl, by decide⟩
  exact ⟨ambiguous, (conflict_of_ambiguous Grammar.loaded_twice).1 ambiguous⟩

end SimpleLR
