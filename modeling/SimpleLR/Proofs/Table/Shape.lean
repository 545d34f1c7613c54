import SimpleLR.Analysis
import SimpleLR.Proofs.Grammar.Shape

namespace SimpleLR

/-- Failures of one kind: grammar errors, or the same fault. -/
inductive Failure.Alike : Failure → Failure → Prop where
  | rejected (error error' : GrammarError) : Alike (.rejected error) (.rejected error')
  | broken (fault : Fault) : Alike (.broken fault) (.broken fault)

theorem Failure.Alike.refl (failure : Failure) : Failure.Alike failure failure := by
  cases failure with
  | rejected error => exact .rejected error error
  | broken fault => exact .broken fault

theorem Failure.alike_ofFault {α β : Type} {related : α → β → Prop} {result : Except Fault α}
    {other : Except Fault β} (alike : Result.Alike Eq related result other) :
    Result.Alike Failure.Alike related (ofFault result) (ofFault other) :=
  alike.mapError fun fault _ same => same ▸ .broken fault

section Alike

variable {g g' : Grammar} (same : g.shape = g'.shape)
include same

namespace Row

variable (nonTerminals terminals : List Nat) (sets : FirstFollow)

private theorem enterEdge_alike (row : Row) (symbol target : Nat) : Result.Alike Failure.Alike Eq
    (row.enterEdge g nonTerminals symbol target) (row.enterEdge g' nonTerminals symbol target) := by
  unfold enterEdge
  rw [Grammar.isTerminal_of_shape same]
  split
  · exact .ok rfl
  · split
    · exact .ok rfl
    · exact (Failure.alike_ofFault (Grammar.name_alike same symbol)).bind fun _ _ _ =>
        .error (.rejected _ _)

private theorem ofEdges_alike (state : State) : Result.Alike Failure.Alike Eq
    (ofEdges g nonTerminals state) (ofEdges g' nonTerminals state) :=
  .foldlM_same state.edges (fun row edge => enterEdge_alike same nonTerminals row edge.1 edge.2) _

omit same in
theorem requests_shape (item : Item) : requests g.shape sets item = requests g sets item := rfl

private theorem enterAction_alike (number : Nat) (row : Row) (terminal : Nat) (action : Action) :
    Result.Alike Failure.Alike Eq (row.enterAction g terminals number terminal action)
      (row.enterAction g' terminals number terminal action) := by
  unfold enterAction
  split
  · split
    · exact .ok rfl
    · exact (Failure.alike_ofFault (Grammar.name_alike same terminal)).bind fun _ _ _ =>
        .error (.rejected _ _)
  · exact .error (.broken _)

private theorem enterItems_alike (number : Nat) (items : List Item) (row : Row) :
    Result.Alike Failure.Alike Eq (enterItems g sets terminals number items row)
      (enterItems g' sets terminals number items row) := by
  refine .foldlM_same items (fun row item => ?_) row
  rw [← requests_shape, same, requests_shape]
  refine (Result.Alike.refl Failure.Alike.refl _).bind fun requests _ own => own ▸ ?_
  exact .foldlM_same requests (fun row request =>
    enterAction_alike same terminals number row request.1 request.2) row

end Row

/-- Grammars of one shape have the same table, or none. Its columns of actions are the tokens. -/
theorem Automaton.table_alike (automaton : Automaton) (sets : FirstFollow) :
    Result.Alike Failure.Alike (fun table table' => table = table' ∧ table.hasColumn = g.isToken)
      (automaton.table g sets) (automaton.table g' sets) := by
  have columns : (g'.terminals ++ [endMarkIndex]).contains = g.isToken := by
    funext index
    rw [Grammar.isToken_of_shape same, Bool.eq_iff_iff]
    simp [Grammar.isToken, Grammar.mem_terminals]
  unfold Automaton.table
  rw [← g.terminals_shape, ← g.listedNonTerminals_shape, same, g'.terminals_shape,
    g'.listedNonTerminals_shape]
  refine (Result.Alike.mapM_same automaton.states
    (Row.ofEdges_alike same g'.listedNonTerminals)).bind fun shifts _ own => ?_
  rw [List.forall₂_eq_eq_eq] at own
  subst own
  refine (Result.Alike.mapM_same (automaton.states.zip shifts).zipIdx fun entry =>
    Row.enterItems_alike same (g'.terminals ++ [endMarkIndex]) sets entry.2 entry.1.1.items
      entry.1.2).bind fun rows _ own => ?_
  rw [List.forall₂_eq_eq_eq] at own
  exact .ok ⟨own ▸ rfl, columns⟩

end Alike

end SimpleLR
