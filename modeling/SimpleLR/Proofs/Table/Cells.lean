import SimpleLR.Proofs.Automaton.States
import SimpleLR.Proofs.Lookahead.Follow
import SimpleLR.Proofs.Result
import SimpleLR.Table.Compile

namespace SimpleLR

/-- What a completed item asks for: its reduction on everything that follows its head, or accepting
if it completes the first production. -/
inductive Item.Asks (g : Grammar) (sets : FirstFollow) (item : Item) : Nat → Action → Prop where
  | reduce {production : Production} {terminal : Nat}
      (rule : g.productions[item.production]? = some production)
      (complete : production.length ≤ item.position) (later : item.production ≠ 0)
      (follows : terminal ∈ sets.follow.get production.head) :
      Asks g sets item terminal (.reduce item.production)
  | accept {production : Production} (rule : g.productions[item.production]? = some production)
      (complete : production.length ≤ item.position) (first : item.production = 0) :
      Asks g sets item endMarkIndex .accept

/-- The actions that a cell has to hold: shifts along edges, and what the items ask for. -/
inductive Automaton.Requires (g : Grammar) (sets : FirstFollow) (automaton : Automaton)
    (number : Nat) : Nat → Action → Prop where
  | shift {terminal target : Nat} (edge : automaton.transition? number terminal = some target)
      (isTerminal : g.isTerminal terminal = true) :
      Requires g sets automaton number terminal (.shift target)
  | asked {state : State} {item : Item} {terminal : Nat} {action : Action}
      (found : automaton.states[number]? = some state) (member : item ∈ state.items)
      (asks : item.Asks g sets terminal action) : Requires g sets automaton number terminal action

/-- A cell that gets two requests: the second from an item of the state, the first from an edge or from
an item before that one. -/
def Automaton.Contested (g : Grammar) (sets : FirstFollow) (automaton : Automaton)
    (number terminal : Nat) (existing new : Action) : Prop :=
  ∃ state before item after, automaton.states[number]? = some state ∧
    state.items = before ++ item :: after ∧ item.Asks g sets terminal new ∧
    ((∃ target, g.isTerminal terminal = true ∧
        automaton.transition? number terminal = some target ∧ existing = .shift target) ∨
      ∃ earlier ∈ before, earlier.Asks g sets terminal existing)

/-- A failure that reports two actions in the cell of a state and a terminal. -/
def Failure.Reports (g : Grammar) (failure : Failure) (number terminal : Nat)
    (existing new : Action) : Prop :=
  ∃ name, g.name terminal = .ok name ∧ failure = .rejected (.conflict number name existing new)

/-- A table that holds what its automaton requires, and the transitions on non-terminals. -/
structure Table.Compiled (g : Grammar) (sets : FirstFollow) (automaton : Automaton)
    (table : Table) : Prop where
  column : ∀ {symbol : Nat}, table.hasColumn symbol = true ↔
    g.isTerminal symbol = true ∨ symbol = endMarkIndex
  action : ∀ {number terminal : Nat} {action : Action},
    table.action? number terminal = some action ↔
      automaton.Requires g sets number terminal action
  goto : ∀ {number symbol target : Nat}, table.goto? number symbol = some target ↔
    symbol ∈ g.listedNonTerminals ∧ automaton.transition? number symbol = some target

namespace Row

section Lookup

theorem action?_withAction {row : Row} {terminal : Nat} {action : Action}
    (free : row.action? terminal = none) {other : Nat} {entry : Action} :
    (row.withAction terminal action).action? other = some entry ↔
      row.action? other = some entry ∨ other = terminal ∧ entry = action := by
  unfold Row.action? at free ⊢
  rw [withAction, List.lookup_append, Option.or_eq_some_iff]
  by_cases same : other = terminal
  · subst same
    simp [free, eq_comm]
  · simp [List.lookup_cons, beq_eq_false_iff_ne.mpr same, same]

end Lookup

variable {g : Grammar} {sets : FirstFollow} {terminals nonTerminals : List Nat}

section Edges

private theorem ofEdges_eq_ok {state : State} (listed : ∀ edge ∈ state.edges,
      g.isTerminal edge.1 = true ∨ g.isTerminal edge.1 = false ∧ edge.1 ∈ nonTerminals) :
    ofEdges g nonTerminals state = .ok
      { actions := (state.edges.filter (g.isTerminal ·.1)).map fun edge => (edge.1, .shift edge.2)
        gotos := state.edges.filter (!g.isTerminal ·.1) } := by
  have step (edges : List (Nat × Nat)) (row : Row) (listed : ∀ edge ∈ edges,
      g.isTerminal edge.1 = true ∨ g.isTerminal edge.1 = false ∧ edge.1 ∈ nonTerminals) :
      edges.foldlM (fun row edge => enterEdge g nonTerminals row edge.1 edge.2) row = .ok
        { actions := row.actions ++
            (edges.filter (g.isTerminal ·.1)).map fun edge => (edge.1, .shift edge.2)
          gotos := row.gotos ++ edges.filter (!g.isTerminal ·.1) } := by
    induction edges generalizing row with
    | nil => simp [pure, Except.pure]
    | cons edge rest ih =>
      have later := fun row => ih row fun other member => listed other (by simp [member])
      rw [List.foldlM_cons, Result.bind_eq_ok]
      rcases listed edge (by simp) with terminal | ⟨other, column⟩
      · refine ⟨row.withAction edge.1 (.shift edge.2), by simp [enterEdge, terminal], ?_⟩
        rw [later]
        simp [withAction, terminal]
      · refine ⟨row.withGoto edge.1 edge.2, by simp [enterEdge, other, column], ?_⟩
        rw [later]
        simp [withGoto, other]
  exact step state.edges Row.empty listed

end Edges

section Entries

/-- A cell takes an action if it has a column and is empty; otherwise the two actions conflict. -/
theorem enterAction_cases {number terminal : Nat} {row : Row} {action : Action}
    (column : terminal ∈ terminals) (bound : terminal < g.symbols.length) :
    row.action? terminal = none ∧
        row.enterAction g terminals number terminal action = .ok (row.withAction terminal action) ∨
      ∃ existing failure, row.action? terminal = some existing ∧
        row.enterAction g terminals number terminal action = .error failure ∧
        failure.Reports g number terminal existing action := by
  unfold enterAction
  rw [if_pos (by simpa using column)]
  cases row.action? terminal with
  | none => exact .inl ⟨rfl, rfl⟩
  | some existing =>
    refine .inr ⟨existing, _, rfl, ?_, _, Grammar.name_ok bound, rfl⟩
    dsimp only
    rw [Grammar.name_ok bound]
    rfl

/-- A list of actions that fits into a row leaves there what was there before and the list. -/
theorem foldlM_enterAction_ok {number : Nat} {requests : List (Nat × Action)} {row last : Row}
    (columns : ∀ request ∈ requests, request.1 ∈ terminals ∧ request.1 < g.symbols.length)
    (success : requests.foldlM (fun row (terminal, action) =>
      row.enterAction g terminals number terminal action) row = .ok last) :
    last.gotos = row.gotos ∧ ∀ {terminal action}, last.action? terminal = some action ↔
      row.action? terminal = some action ∨ (terminal, action) ∈ requests := by
  induction requests generalizing row with
  | nil =>
    obtain rfl := Except.ok.inj success
    simp
  | cons request rest ih =>
    obtain ⟨terminal, action⟩ := request
    rw [List.foldlM_cons, Result.bind_eq_ok] at success
    obtain ⟨next, entered, success⟩ := success
    obtain ⟨gotos, entries⟩ := ih (fun other member => columns other (by simp [member])) success
    obtain ⟨column, bound⟩ := columns _ List.mem_cons_self
    rcases enterAction_cases column bound with ⟨free, fits⟩ | ⟨_, _, _, conflict, _⟩
    · obtain rfl := Except.ok.inj (fits.symm.trans entered)
      refine ⟨gotos, ?_⟩
      intro other entry
      rw [entries, action?_withAction free, List.mem_cons, or_assoc, Prod.mk.injEq]
    · exact nomatch conflict.symm.trans entered

/-- A list of actions stops at the first one whose cell is taken, by the row or by an action before it
in the list. -/
private theorem foldlM_enterAction_error {number : Nat} {requests : List (Nat × Action)} {row : Row}
    {failure : Failure}
    (columns : ∀ request ∈ requests, request.1 ∈ terminals ∧ request.1 < g.symbols.length)
    (failed : requests.foldlM (fun row (terminal, action) =>
      row.enterAction g terminals number terminal action) row = .error failure) :
    ∃ before terminal new after existing, requests = before ++ (terminal, new) :: after ∧
      (row.action? terminal = some existing ∨ (terminal, existing) ∈ before) ∧
      failure.Reports g number terminal existing new := by
  induction requests generalizing row with
  | nil => cases failed
  | cons request rest ih =>
    obtain ⟨terminal, action⟩ := request
    rw [List.foldlM_cons, Result.bind_eq_error] at failed
    obtain ⟨column, bound⟩ := columns _ List.mem_cons_self
    rcases enterAction_cases column bound with ⟨free, fits⟩ | ⟨existing, own, taken, conflict, reports⟩
    · rcases failed with own | ⟨next, entered, later⟩
      · exact nomatch fits.symm.trans own
      · obtain rfl := Except.ok.inj (fits.symm.trans entered)
        obtain ⟨before, other, new, after, existing, rfl, first, reports⟩ :=
          ih (fun other member => columns other (by simp [member])) later
        refine ⟨(terminal, action) :: before, other, new, after, existing, rfl, ?_, reports⟩
        rw [action?_withAction free] at first
        rcases first with (there | ⟨rfl, rfl⟩) | earlier
        · exact .inl there
        · exact .inr List.mem_cons_self
        · exact .inr (List.mem_cons_of_mem _ earlier)
    · rcases failed with found | ⟨next, entered, _⟩
      · obtain rfl := Except.error.inj (conflict.symm.trans found)
        exact ⟨[], terminal, action, rest, existing, rfl, .inl taken, reports⟩
      · exact nomatch conflict.symm.trans entered

end Entries

section Items

theorem requests_spec (sets : FirstFollow) (marked : g.augmented.isSome = true) {item : Item}
    {production : Production} (rule : g.productions[item.production]? = some production) :
    ∃ list, requests g sets item = .ok list ∧ (list.map Prod.fst).Nodup ∧
      ∀ {terminal action}, (terminal, action) ∈ list ↔ item.Asks g sets terminal action := by
  have here := Grammar.production_ok rule
  rw [requests, here]
  by_cases open' : item.position < production.length
  · refine ⟨[], by simp [bind, Except.bind, open', pure, Except.pure], .nil, fun {terminal action} => ?_⟩
    simp only [List.not_mem_nil, false_iff]
    rintro (⟨same, complete, _, _⟩ | ⟨same, complete, _⟩) <;>
      · obtain rfl := Option.some.inj (rule.symm.trans same)
        omega
  · by_cases first : item.production = 0
    · refine ⟨[(endMarkIndex, .accept)],
        by simp [bind, Except.bind, open', first, marked, pure, Except.pure], by simp, ?_⟩
      intro terminal action
      rw [List.mem_singleton, Prod.mk.injEq]
      constructor
      · intro holds
        obtain ⟨rfl, rfl⟩ := holds
        exact .accept rule (Nat.le_of_not_lt open') first
      · intro holds
        rcases holds with ⟨_, _, later, _⟩ | _
        · exact absurd first later
        · exact ⟨rfl, rfl⟩
    · refine ⟨(sets.follow.get production.head).toList.map fun terminal =>
          (terminal, .reduce item.production),
        by simp [bind, Except.bind, open', first, pure, Except.pure],
        by simpa [Function.comp_def] using SortedSet.nodup_toList _, ?_⟩
      intro terminal action
      rw [List.mem_map]
      constructor
      · intro holds
        obtain ⟨_, follows, same⟩ := holds
        obtain ⟨rfl, rfl⟩ := Prod.mk.inj same
        exact .reduce rule (Nat.le_of_not_lt open') first follows
      · intro holds
        rcases holds with ⟨same, _, _, follows⟩ | ⟨_, _, zero⟩
        · obtain rfl := Option.some.inj (rule.symm.trans same)
          exact ⟨terminal, follows, rfl⟩
        · exact absurd zero first

/-- What the items of a state ask for, entered item by item. -/
private theorem enterItems_ok (marked : g.augmented.isSome = true) {number : Nat} {items : List Item}
    {row last : Row}
    (rules : ∀ item ∈ items, ∃ production, g.productions[item.production]? = some production)
    (columns : ∀ item ∈ items, ∀ terminal action, item.Asks g sets terminal action →
      terminal ∈ terminals ∧ terminal < g.symbols.length)
    (success : enterItems g sets terminals number items row = .ok last) :
    last.gotos = row.gotos ∧ ∀ {terminal action}, last.action? terminal = some action ↔
      row.action? terminal = some action ∨ ∃ item ∈ items, item.Asks g sets terminal action := by
  unfold enterItems at success
  induction items generalizing row with
  | nil =>
    obtain rfl := Except.ok.inj success
    simp
  | cons item rest ih =>
    obtain ⟨production, rule⟩ := rules item (by simp)
    obtain ⟨list, asked, _, asks⟩ := requests_spec sets marked rule
    rw [List.foldlM_cons, Result.bind_eq_ok] at success
    obtain ⟨next, entered, success⟩ := success
    rw [asked] at entered
    obtain ⟨gotos, entries⟩ := foldlM_enterAction_ok (fun request member =>
      columns item (by simp) request.1 request.2 (asks.mp member)) entered
    obtain ⟨kept, later⟩ := ih (fun other member => rules other (by simp [member]))
      (fun other member => columns other (by simp [member])) success
    refine ⟨kept.trans gotos, ?_⟩
    intro terminal action
    simp only [later, entries, asks, List.mem_cons, exists_eq_or_imp, or_assoc]

/-- The items of a state stop at the first one that asks for a cell that is taken, by the row or by what
an item before it asks for. -/
private theorem enterItems_error (marked : g.augmented.isSome = true) {number : Nat} {items : List Item}
    {row : Row} {failure : Failure}
    (rules : ∀ item ∈ items, ∃ production, g.productions[item.production]? = some production)
    (columns : ∀ item ∈ items, ∀ terminal action, item.Asks g sets terminal action →
      terminal ∈ terminals ∧ terminal < g.symbols.length)
    (failed : enterItems g sets terminals number items row = .error failure) :
    ∃ before item after terminal existing new, items = before ++ item :: after ∧
      item.Asks g sets terminal new ∧ (row.action? terminal = some existing ∨
        ∃ earlier ∈ before, earlier.Asks g sets terminal existing) ∧
      failure.Reports g number terminal existing new := by
  unfold enterItems at failed
  induction items generalizing row with
  | nil => cases failed
  | cons item rest ih =>
    obtain ⟨production, rule⟩ := rules item (by simp)
    obtain ⟨list, asked, apart, asks⟩ := requests_spec sets marked rule
    have listed : ∀ request ∈ list, request.1 ∈ terminals ∧ request.1 < g.symbols.length :=
      fun request member => columns item (by simp) request.1 request.2 (asks.mp member)
    rw [List.foldlM_cons, Result.bind_eq_error, asked] at failed
    rcases failed with own | ⟨next, entered, later⟩
    · obtain ⟨before, terminal, new, after, existing, rfl, taken, reports⟩ :=
        foldlM_enterAction_error listed own
      refine ⟨[], item, rest, terminal, existing, new, rfl, asks.mp (by simp), ?_, reports⟩
      refine .inl (taken.resolve_right fun earlier => ?_)
      -- an item asks for no cell twice
      rw [List.map_append, List.map_cons, List.nodup_middle, List.nodup_cons] at apart
      exact apart.1 (List.mem_append_left _ (List.mem_map.mpr ⟨_, earlier, rfl⟩))
    · obtain ⟨_, entries⟩ := foldlM_enterAction_ok listed entered
      obtain ⟨before, other, after, terminal, existing, new, rfl, wants, taken, reports⟩ :=
        ih (fun other member => rules other (by simp [member]))
          (fun other member => columns other (by simp [member])) later
      refine ⟨item :: before, other, after, terminal, existing, new, rfl, wants, ?_, reports⟩
      rw [entries, asks] at taken
      rcases taken with (there | own) | ⟨earlier, member, wanted⟩
      · exact .inl there
      · exact .inr ⟨item, List.mem_cons_self, own⟩
      · exact .inr ⟨earlier, List.mem_cons_of_mem _ member, wanted⟩

end Items

end Row

namespace Automaton

variable {g : Grammar} {automaton : Automaton} {goal start : Nat}

section Table

variable (augmented : g.Augmented goal start) (canonical : automaton.Canonical g)
include augmented canonical

/-- A symbol behind a dot is a terminal or one of the listed non-terminals. -/
theorem listed_of_mem_edges {number : Nat} {state : State}
    (found : automaton.states[number]? = some state) {edge : Nat × Nat} (member : edge ∈ state.edges) :
    g.isTerminal edge.1 = true ∨ g.isTerminal edge.1 = false ∧ edge.1 ∈ g.listedNonTerminals := by
  obtain ⟨symbol, target⟩ := edge
  obtain ⟨⟨item, _, dot⟩, _⟩ := (canonical.edges found).mp member
  obtain ⟨production, rule, here⟩ := Grammar.afterDot?_eq_some.mp dot
  have inside := List.mem_of_getElem? here
  have present := List.mem_of_getElem? rule
  rcases (augmented.fits production present).symbols symbol inside with terminal | nonTerminal
  · exact .inl terminal
  · refine .inr ⟨Grammar.isTerminal_eq_false_of_isNonTerminal nonTerminal, ?_⟩
    apply List.mem_filter.mpr
    refine ⟨Grammar.mem_nonTerminals.mpr nonTerminal, ?_⟩
    rw [augmented.marked, bne_iff_ne]
    intro same
    exact augmented.absent production present (Option.some.inj same ▸ inside)

omit canonical in
theorem column_of_asks {item : Item} {terminal : Nat} {action : Action}
    (asks : item.Asks g g.firstFollow terminal action) :
    terminal ∈ g.terminals ++ [endMarkIndex] ∧ terminal < g.symbols.length := by
  have proper : g.isTerminal terminal = true ∨ terminal = endMarkIndex := by
    cases asks with
    | reduce _ _ _ follows => exact augmented.proper_of_mem_follow follows
    | accept => exact .inr rfl
  rcases proper with proper | rfl
  · exact ⟨List.mem_append_left _ (Grammar.mem_terminals.mpr proper), Grammar.lt_of_isTerminal proper⟩
  · exact ⟨List.mem_append_right _ (by simp), (List.getElem?_eq_some_iff.mp augmented.endMark).1⟩

omit augmented in
theorem rule_of_mem_items {number : Nat} {state : State}
    (found : automaton.states[number]? = some state) {item : Item} (member : item ∈ state.items) :
    ∃ production, g.productions[item.production]? = some production := by
  obtain ⟨production, rule, _⟩ := Grammar.mem_allItems.mp (canonical.inside found member)
  exact ⟨production, rule⟩

/-- The row of a state before its reductions. -/
theorem ofEdges_of_canonical {number : Nat} {state : State}
    (found : automaton.states[number]? = some state) :
    ∃ row, Row.ofEdges g g.listedNonTerminals state = .ok row ∧
      (∀ {terminal action}, row.action? terminal = some action ↔ ∃ target,
        g.isTerminal terminal = true ∧ (terminal, target) ∈ state.edges ∧ action = .shift target) ∧
      ∀ {symbol target}, row.goto? symbol = some target ↔
        symbol ∈ g.listedNonTerminals ∧ (symbol, target) ∈ state.edges := by
  have keys := canonical.apart found
  refine ⟨_, Row.ofEdges_eq_ok fun edge member => listed_of_mem_edges augmented canonical found member,
    ?_, ?_⟩
  · intro terminal action
    rw [Row.action?, lookup_eq_some_iff_mem]
    · simp only [List.mem_map, List.mem_filter, Prod.mk.injEq, Prod.exists]
      constructor
      · intro holds
        obtain ⟨_, target, ⟨member, proper⟩, rfl, rfl⟩ := holds
        exact ⟨target, proper, member, rfl⟩
      · intro holds
        obtain ⟨target, proper, member, rfl⟩ := holds
        exact ⟨terminal, target, ⟨member, proper⟩, rfl, rfl⟩
    · rw [List.map_map]
      exact keys.sublist (List.filter_sublist.map Prod.fst)
  · intro symbol target
    unfold Row.goto?
    rw [lookup_eq_some_iff_mem (keys.sublist (List.filter_sublist.map Prod.fst)), List.mem_filter]
    constructor
    · intro holds
      obtain ⟨member, other⟩ := holds
      rcases listed_of_mem_edges augmented canonical found member with terminal | ⟨_, listed⟩
      · simp [terminal] at other
      · exact ⟨listed, member⟩
    · intro holds
      obtain ⟨listed, member⟩ := holds
      refine ⟨member, ?_⟩
      have nonTerminal := Grammar.isNonTerminal_of_listed listed
      simp [Grammar.isTerminal_eq_false_of_isNonTerminal nonTerminal]

omit augmented in
theorem Requires.exists_state {number terminal : Nat} {action : Action}
    (required : automaton.Requires g g.firstFollow number terminal action) :
    ∃ state, automaton.states[number]? = some state := by
  cases required with
  | shift edge _ =>
    obtain ⟨state, known, _⟩ := canonical.transition?_eq_some.mp edge
    exact ⟨state, known⟩
  | asked found _ _ => exact ⟨_, found⟩

/-- The row of a state: the row of its edges, with what its items ask for entered into it. -/
theorem row_of_state {shifts rows : List Row}
    (entered : automaton.states.mapM (Row.ofEdges g g.listedNonTerminals) = .ok shifts)
    (filled : ((automaton.states.zip shifts).zipIdx).mapM (fun ((state, row), number) =>
      Row.enterItems g g.firstFollow (g.terminals ++ [endMarkIndex]) number state.items row) = .ok rows)
    {number : Nat} {state : State} (found : automaton.states[number]? = some state) :
    ∃ row, rows[number]? = some row ∧
      (∀ {terminal action}, row.action? terminal = some action ↔
        automaton.Requires g g.firstFollow number terminal action) ∧
      ∀ {symbol target}, row.goto? symbol = some target ↔
        symbol ∈ g.listedNonTerminals ∧ (symbol, target) ∈ state.edges := by
  have marked : g.augmented.isSome = true := by rw [augmented.marked]; rfl
  obtain ⟨base, based, edges⟩ := Result.getElem?_of_mapM entered found
  have both : (automaton.states.zip shifts)[number]? = some (state, base) :=
    List.getElem?_zip_eq_some.mpr ⟨found, based⟩
  have paired : (automaton.states.zip shifts).zipIdx[number]? = some ((state, base), number) := by
    simp [List.getElem?_zipIdx, both]
  obtain ⟨row, there, asked⟩ := Result.getElem?_of_mapM filled paired
  obtain ⟨own, same, shiftsOf, gotosOf⟩ := ofEdges_of_canonical augmented canonical found
  obtain rfl := Except.ok.inj (same.symm.trans edges)
  obtain ⟨gotos, entries⟩ := Row.enterItems_ok marked
    (fun item member => rule_of_mem_items canonical found member)
    (fun _ _ _ _ asks => column_of_asks augmented asks) asked
  refine ⟨row, there, fun {terminal action} => ?_, fun {symbol target} => ?_⟩
  · rw [entries, shiftsOf]
    constructor
    · intro holds
      rcases holds with ⟨target, proper, edge, rfl⟩ | ⟨item, member, asks⟩
      · exact .shift (canonical.transition?_eq_some.mpr ⟨state, found, edge⟩) proper
      · exact .asked found member asks
    · intro required
      cases required with
      | shift edge proper =>
        obtain ⟨known, there, edge⟩ := canonical.transition?_eq_some.mp edge
        obtain rfl := Option.some.inj (there.symm.trans found)
        exact .inl ⟨_, proper, edge, rfl⟩
      | asked other member asks =>
        obtain rfl := Option.some.inj (other.symm.trans found)
        exact .inr ⟨_, member, asks⟩
  · rw [Row.goto?, gotos]
    exact gotosOf

/-- The table of a canonical automaton holds what the automaton requires. -/
theorem compiled_of_table {table : Table} (success : automaton.table g g.firstFollow = .ok table) :
    table.Compiled g g.firstFollow automaton := by
  unfold Automaton.table at success
  dsimp only at success
  rw [Result.bind_eq_ok] at success
  obtain ⟨shifts, entered, success⟩ := success
  rw [Result.bind_eq_ok] at success
  obtain ⟨rows, filled, same⟩ := success
  obtain rfl := Except.ok.inj same
  have stateOf {number : Nat} {row : Row} (found : rows[number]? = some row) :
      ∃ state, automaton.states[number]? = some state := by
    have bound := (List.getElem?_eq_some_iff.mp found).1
    rw [Result.length_of_mapM filled, List.length_zipIdx, List.length_zip] at bound
    exact ⟨_, List.getElem?_eq_getElem (Nat.lt_of_lt_of_le bound (Nat.min_le_left ..))⟩
  refine ⟨fun {symbol} => ?_, fun {number terminal action} => ?_, fun {number symbol target} => ?_⟩
  · simp [Table.hasColumn, Grammar.mem_terminals]
  · rw [Table.action?, Option.bind_eq_some_iff]
    constructor
    · intro cell
      obtain ⟨row, found, holds⟩ := cell
      obtain ⟨state, known⟩ := stateOf found
      obtain ⟨own, there, actions, _⟩ := row_of_state augmented canonical entered filled known
      obtain rfl := Option.some.inj (there.symm.trans found)
      exact actions.mp holds
    · intro required
      obtain ⟨state, known⟩ := Requires.exists_state canonical required
      obtain ⟨row, there, actions, _⟩ := row_of_state augmented canonical entered filled known
      exact ⟨row, there, actions.mpr required⟩
  · rw [Table.goto?, Option.bind_eq_some_iff, canonical.transition?_eq_some]
    constructor
    · intro cell
      obtain ⟨row, found, holds⟩ := cell
      obtain ⟨state, known⟩ := stateOf found
      obtain ⟨own, there, _, gotos⟩ := row_of_state augmented canonical entered filled known
      obtain rfl := Option.some.inj (there.symm.trans found)
      obtain ⟨listed, edge⟩ := gotos.mp holds
      exact ⟨listed, state, known, edge⟩
    · intro transition
      obtain ⟨listed, state, known, edge⟩ := transition
      obtain ⟨row, there, _, gotos⟩ := row_of_state augmented canonical entered filled known
      exact ⟨row, there, gotos.mpr ⟨listed, edge⟩⟩

/-- The only thing that keeps a canonical automaton from having a table is a cell with two requests. -/
theorem contested_of_table {failure : Failure}
    (failed : automaton.table g g.firstFollow = .error failure) :
    ∃ number terminal existing new, failure.Reports g number terminal existing new ∧
      automaton.Contested g g.firstFollow number terminal existing new := by
  have marked : g.augmented.isSome = true := by rw [augmented.marked]; rfl
  unfold Automaton.table at failed
  dsimp only at failed
  rcases Result.bind_eq_error.mp failed with edges | ⟨shifts, entered, failed⟩
  · obtain ⟨state, member, wrong⟩ := Result.mapM_eq_error edges
    obtain ⟨number, found⟩ := List.mem_iff_getElem?.mp member
    obtain ⟨row, own, _⟩ := ofEdges_of_canonical augmented canonical found
    exact nomatch own.symm.trans wrong
  · rcases Result.bind_eq_error.mp failed with items | ⟨rows, _, none⟩
    · obtain ⟨⟨⟨state, row⟩, number⟩, member, wrong⟩ := Result.mapM_eq_error items
      have paired := List.mem_zipIdx_iff_getElem?.mp member
      obtain ⟨found, based⟩ := List.getElem?_zip_eq_some.mp paired
      obtain ⟨before, item, after, terminal, existing, new, split, asks, taken, reports⟩ :=
        Row.enterItems_error marked (fun item member => rule_of_mem_items canonical found member)
          (fun _ _ _ _ asks => column_of_asks augmented asks) wrong
      refine ⟨number, terminal, existing, new, reports, state, before, item, after, found, split, asks, ?_⟩
      obtain ⟨own, same, shiftsOf, _⟩ := ofEdges_of_canonical augmented canonical found
      obtain ⟨base, there, edges⟩ := Result.getElem?_of_mapM entered found
      obtain rfl := Option.some.inj (there.symm.trans based)
      obtain rfl := Except.ok.inj (same.symm.trans edges)
      rw [shiftsOf] at taken
      refine taken.imp (fun shift => ?_) id
      obtain ⟨target, proper, edge, rfl⟩ := shift
      exact ⟨target, proper, canonical.transition?_eq_some.mpr ⟨state, found, edge⟩, rfl⟩
    · cases none

end Table

end Automaton

end SimpleLR
