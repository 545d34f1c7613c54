import SimpleLR.Proofs.Analysis
import SimpleLR.Proofs.Listing.ReadBack

namespace SimpleLR

namespace Text

theorem blank_not_mem_of_solid {text : Text} (solid : ∀ c ∈ text, isBlank c = false) : ' ' ∉ text :=
  fun member => absurd (solid ' ' member) (by decide)

theorem spaced_rule {head : Text} {words : List Text} (solid : ∀ c ∈ head, isBlank c = false)
    (others : ∀ word ∈ words, ∀ c ∈ word, isBlank c = false) : Spaced (head ++ " -> " ++ joined " " words) :=
  .append (.append (.of_solid solid) (by decide)) (.joined fun word member => .of_solid (others word member))

end Text

namespace Grammar

/-- A grammar that has no white space in the names of its symbols. -/
def Solid (g : Grammar) : Prop := ∀ symbol ∈ g.symbols, ∀ c ∈ symbol.name, Text.isBlank c = false

variable {g g' : Grammar}

namespace Solid

theorem name (solid : g.Solid) {index : Nat} {name : Text} (own : g.name index = .ok name) :
    ∀ c ∈ name, Text.isBlank c = false := by
  have bound := lt_of_name own
  obtain rfl := Except.ok.inj ((name_ok bound).symm.trans own)
  exact solid _ (List.getElem_mem bound)

theorem names (solid : g.Solid) {indices : List Nat} {names : List Text} (spelled : indices.mapM g.name = .ok names) :
    ∀ name ∈ names, ∀ c ∈ name, Text.isBlank c = false := by
  intro name member
  obtain ⟨index, _, own⟩ := Result.exists_of_mem_results spelled member
  exact solid.name own

theorem spaced_productionText (solid : g.Solid) {index : Nat} {text : Text}
    (success : g.productionText index = .ok text) : Text.Spaced text := by
  obtain ⟨production, _, success⟩ := Result.bind_eq_ok.mp success
  obtain ⟨head, own, success⟩ := Result.bind_eq_ok.mp success
  obtain ⟨body, spelled, same⟩ := Result.bind_eq_ok.mp success
  rw [← Except.ok.inj same]
  exact Text.spaced_rule (solid.name own) (solid.names spelled)

end Solid

/-- The names of a grammar that was read from a text are words of it. -/
theorem solid_of_text {text : Text} (read : ofText text = .ok g) : g.Solid := by
  obtain ⟨rules, spelled, built⟩ := Result.bind_eq_ok.mp read
  have writable := (Rule.ofText_eq_ok.mp spelled).writable (by simp)
  intro symbol member
  obtain ⟨index, here⟩ := List.mem_iff_getElem?.mp member
  have own : g.name index = .ok symbol.name := by rw [Grammar.name, here]
  cases symbol with
  | epsilon | endMark => exact List.forall_mem_singleton.mpr rfl
  | terminal _ => exact (isName_of_ofRules built writable (.inl (isTerminal_iff.mpr ⟨_, here⟩)) own).solid
  | nonTerminal _ => exact (isName_of_ofRules built writable (.inr (isNonTerminal_iff.mpr ⟨_, here⟩)) own).solid

/-- Quotes are not white space. -/
theorem Solid.augment (solid : g.Solid) (success : g.augment = .ok g') : g'.Solid := by
  unfold Grammar.augment at success
  split at success
  · exact Except.ok.inj success ▸ solid
  · cases success
  · rename_i start _ _
    obtain ⟨name, named, same⟩ := Result.bind_eq_ok.mp success
    have own : g.name start = .ok name := Result.mapError_eq_ok.mp named
    obtain ⟨quotes, fresh, _⟩ := g.exists_freshName name
    rw [← Except.ok.inj same]
    refine List.forall_mem_append.mpr ⟨solid, List.forall_mem_singleton.mpr ?_⟩
    rw [Symbol.name, fresh]
    refine List.forall_mem_append.mpr ⟨solid.name own, fun c member => ?_⟩
    rw [(List.mem_replicate.mp member).2]
    rfl

theorem Solid.analysis (solid : g.Solid) {analysis : Analysis} (success : Analysis.ofGrammar g = .ok analysis) :
    analysis.grammar.Solid := by
  unfold Analysis.ofGrammar at success
  obtain ⟨⟨grown, automaton⟩, prepared, success⟩ := Result.bind_eq_ok.mp success
  obtain ⟨table, _, same⟩ := Result.bind_eq_ok.mp success
  rw [← Except.ok.inj same]
  exact solid.augment (automaton_eq_ok.mp prepared).1

end Grammar

end SimpleLR
