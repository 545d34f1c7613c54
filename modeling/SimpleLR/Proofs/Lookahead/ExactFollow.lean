import SimpleLR.Proofs.Lookahead.ExactFirst
import SimpleLR.Proofs.Lookahead.Follow

/-! FOLLOW sets and derivations. What stands behind a non-terminal in some form is what the FOLLOW sets
hold: along the derivation of the form it moves from a body, or from the end of the form, to each
non-terminal that it comes to stand behind. -/
namespace SimpleLR

/-- An occurrence in a form of two parts lies in the one or in the other. -/
theorem append_eq_append_cons {left right before after : List Nat} {symbol : Nat}
    (whole : left ++ right = before ++ symbol :: after) :
    (∃ rest, left = before ++ symbol :: rest ∧ after = rest ++ right) ∨
      ∃ rest, right = rest ++ symbol :: after ∧ before = left ++ rest := by
  rcases List.append_eq_append_iff.mp whole with ⟨rest, rfl, rfl⟩ | ⟨rest, rfl, split⟩
  · exact .inr ⟨rest, rfl, rfl⟩
  · cases rest with
    | nil => exact .inr ⟨[], by simpa using split.symm, by simp⟩
    | cons head rest =>
      obtain ⟨rfl, rfl⟩ := List.cons.inj split
      exact .inl ⟨rest, rfl, rfl⟩

namespace Grammar

variable {g : Grammar} {symbol member : Nat}

theorem get?_follow (nonTerminal : g.isNonTerminal symbol = true) :
    g.firstFollow.follow.get? symbol = some (g.firstFollow.follow.get symbol) := by
  have known : (g.firstFollow.follow.get? symbol).isSome = true :=
    isSome_get?_spreadAll (isSome_get?_blankFamily nonTerminal)
  obtain ⟨set, same⟩ := Option.isSome_iff_exists.mp known
  rw [Family.get, same, Option.getD_some]

section Sound

variable (formed : g.WellFormed)
include formed

private theorem WellFormed.isNonTerminal_of_occurs {head : Nat} {rest : List Nat}
    (occurs : g.Occurs head symbol rest) : g.isNonTerminal head = true := by
  obtain ⟨production, present, rfl, _⟩ := occurs.body
  exact (formed.fits production present).head

theorem WellFormed.proper_of_occurs {head : Nat} {rest : List Nat}
    (occurs : g.Occurs head symbol rest) : g.Proper rest := by
  obtain ⟨production, present, _, before, same⟩ := occurs.body
  intro other inside
  exact formed.proper_symbols present other (by simp [same, inside])

omit formed in
theorem Occurs.derivesProperly {head : Nat} {rest last : List Nat}
    (occurs : g.Occurs head symbol rest) (path : g.Derives rest last) :
    ∃ before, g.DerivesProperly [head] (before ++ symbol :: last) := by
  obtain ⟨production, present, rfl, before, same⟩ := occurs.body
  have moved : g.Derives production.symbols (before ++ symbol :: last) := by
    rw [same]
    simpa using path.within (before ++ [symbol]) []
  exact ⟨before, (derivesProperly_of_mem present).trans moved⟩

private theorem WellFormed.ends_of_reaches {source : Nat}
    (path : (g.followGraph g.firstSets).Reaches source symbol) :
    ∃ before, g.Derives [source] (before ++ [symbol]) := by
  induction path with
  | here => exact ⟨[], .refl⟩
  | edge _ step ih =>
    obtain ⟨front, reached⟩ := ih
    obtain ⟨rest, occurs, vanishes⟩ := mem_followGraph_edges.mp step
    have empty := formed.derives_nil_of_mem_firstOfString (formed.proper_of_occurs occurs) vanishes
    obtain ⟨before, path⟩ := occurs.derivesProperly empty
    exact ⟨front ++ before, reached.trans (by simpa using path.derives.within front [])⟩

/-- What is in a FOLLOW set stands behind the symbol in some derived form. -/
theorem WellFormed.cases_of_mem_follow (inside : member ∈ g.firstFollow.follow.get symbol) :
    g.isTerminal member = true ∧ (∃ head before after, g.isNonTerminal head = true ∧
        g.DerivesProperly [head] (before ++ symbol :: member :: after)) ∨
      member = endMarkIndex ∧ ∃ first before, g.productions[0]? = some first ∧
        g.Derives [first.head] (before ++ [symbol]) := by
  obtain ⟨source, _, atOnce, path⟩ := mem_follow.mp inside
  obtain ⟨middle, reached⟩ := formed.ends_of_reaches path
  cases atOnce with
  | @ends first leads same =>
    rw [List.head?_eq_getElem?] at leads
    exact .inr ⟨rfl, first, middle, leads, same ▸ reached⟩
  | @behind head _ rest occurs begins nonEmpty =>
    have proper := formed.proper_of_occurs occurs
    have terminal := formed.isTerminal_of_mem_firstOfString proper begins nonEmpty
    obtain ⟨after, derived⟩ := formed.derives_of_mem_firstOfString proper begins nonEmpty
    obtain ⟨before, path⟩ := occurs.derivesProperly derived
    have inward : g.Derives (before ++ source :: member :: after)
        (before ++ middle ++ symbol :: member :: after) := by
      simpa using reached.within before (member :: after)
    exact .inl ⟨terminal, head, before ++ middle, after, formed.isNonTerminal_of_occurs occurs,
      path.trans inward⟩

end Sound

section Complete

/-- What can come next before the string `after`: a terminal that can begin it, or what may stand at
its end if it can vanish. -/
def Comes (g : Grammar) (ends : Nat → Prop) (after : List Nat) (member : Nat) : Prop :=
  member ≠ epsilonIndex ∧ member ∈ g.firstOfString g.firstSets after ∨
    epsilonIndex ∈ g.firstOfString g.firstSets after ∧ ends member

/-- A form in which everything that can come behind a non-terminal is in its FOLLOW set. -/
def Followed (g : Grammar) (ends : Nat → Prop) (form : List Nat) : Prop :=
  ∀ {before after : List Nat} {symbol member : Nat}, form = before ++ symbol :: after →
    g.isNonTerminal symbol = true → g.Comes ends after member →
      member ∈ g.firstFollow.follow.get symbol

variable {ends : Nat → Prop}

private theorem comes_append (named : g.Named) {first rest : List Nat} (proper : g.Proper first) :
    g.Comes ends (first ++ rest) member ↔ g.Comes (g.Comes ends rest) first member := by
  unfold Comes
  rw [mem_firstOfString_append named proper, mem_firstOfString_append named proper]
  constructor
  · rintro (⟨nonEmpty, own | ⟨vanishes, later⟩⟩ | ⟨⟨other, _⟩ | ⟨vanishes, empty⟩, ending⟩)
    · exact .inl own
    · exact .inr ⟨vanishes, .inl ⟨nonEmpty, later⟩⟩
    · exact absurd rfl other
    · exact .inr ⟨vanishes, .inr ⟨empty, ending⟩⟩
  · rintro (own | ⟨vanishes, ⟨nonEmpty, later⟩ | ⟨empty, ending⟩⟩)
    · exact .inl ⟨own.1, .inl own⟩
    · exact .inl ⟨nonEmpty, .inr ⟨vanishes, later⟩⟩
    · exact .inr ⟨.inr ⟨vanishes, empty⟩, ending⟩

variable (formed : g.WellFormed)
include formed

private theorem WellFormed.comes_of_rewrites {index : Nat} {after next : List Nat} (proper : g.Proper after)
    (rewrites : g.Rewrites index after next) (comes : g.Comes ends next member) :
    g.Comes ends after member :=
  comes.imp (And.imp id (formed.mem_firstOfString_of_rewrites proper rewrites))
    (And.imp (formed.mem_firstOfString_of_rewrites proper rewrites) id)

/-- A step of a derivation keeps a form followed: what comes behind a symbol of the body can begin the
rest of the body, or came behind the head. -/
private theorem WellFormed.followed_of_rewrites {index : Nat} {form next : List Nat} (proper : g.Proper form)
    (followed : g.Followed ends form) (rewrites : g.Rewrites index form next) :
    g.Followed ends next := by
  intro before after symbol member whole nonTerminal comes
  cases rewrites with
  | @here production found left right =>
    have present := List.mem_of_getElem? found
    rw [List.append_assoc] at whole
    rcases append_eq_append_cons whole with ⟨rest, rfl, rfl⟩ | ⟨rest, inner, rfl⟩
    · -- The symbol stands in front of the head that is replaced.
      have tail : g.Proper (rest ++ production.head :: right) := by
        intro other inside
        apply proper
        rw [List.append_assoc]
        exact List.mem_append_right before (List.mem_cons_of_mem symbol inside)
      have step := Rewrites.here found rest right
      rw [List.append_assoc] at step
      exact followed (List.append_assoc ..) nonTerminal (formed.comes_of_rewrites tail step comes)
    · rcases append_eq_append_cons inner with ⟨behind, body, rfl⟩ | ⟨behind, rfl, rfl⟩
      · -- The symbol stands in the body.
        have occurs : g.Occurs production.head symbol behind :=
          ⟨nonTerminal, production, present, rfl, rest, body⟩
        rw [comes_append formed.toNamed (formed.proper_of_occurs occurs)] at comes
        rcases comes with ⟨nonEmpty, own⟩ | ⟨vanishes, beyond⟩
        · exact occurs.mem_follow own nonEmpty
        · have head := followed rfl (formed.fits production present).head beyond
          exact occurs.follow_subset vanishes head
      · -- The symbol stands behind the head.
        have split : left ++ production.head :: (behind ++ symbol :: after) =
            (left ++ production.head :: behind) ++ symbol :: after := by simp
        exact followed split nonTerminal comes

/-- What a non-terminal derives is followed, if what may stand at its end follows the non-terminal. -/
theorem WellFormed.followed_of_derives {head : Nat} {form : List Nat}
    (nonTerminal : g.isNonTerminal head = true)
    (last : ∀ {other}, ends other → other ∈ g.firstFollow.follow.get head)
    (path : g.Derives [head] form) : g.Followed ends form := by
  have single : g.Proper [head] := fun other own => .inr (List.mem_singleton.mp own ▸ nonTerminal)
  induction path with
  | refl =>
    intro before after symbol member whole _ comes
    rcases List.append_eq_singleton_iff.mp whole.symm with ⟨_, alone⟩ | ⟨_, never⟩
    · obtain ⟨rfl, rfl⟩ := List.cons.inj alone
      rcases comes with ⟨nonEmpty, inside⟩ | ⟨_, ending⟩
      · exact absurd (by simpa [firstOfString] using inside) nonEmpty
      · exact last ending
    · cases never
  | step earlier rewrites ih =>
    exact formed.followed_of_rewrites (formed.proper_of_derives single earlier) ih rewrites

/-- A terminal that stands behind a non-terminal in a derived form is in its FOLLOW set. -/
theorem WellFormed.mem_follow_of_behind {head : Nat} {before after : List Nat}
    (derived : g.isNonTerminal head = true) (nonTerminal : g.isNonTerminal symbol = true)
    (terminal : g.isTerminal member = true)
    (path : g.Derives [head] (before ++ symbol :: member :: after)) :
    member ∈ g.firstFollow.follow.get symbol := by
  have followed : g.Followed (fun _ => False) (before ++ symbol :: member :: after) :=
    formed.followed_of_derives derived nofun path
  apply followed rfl nonTerminal
  left
  exact ⟨ne_epsilon_of_isTerminal formed.toNamed terminal,
    (firstOfString_terminal formed.toNamed terminal after).mpr rfl⟩

/-- The end mark is in the FOLLOW set of a non-terminal with which something ends that the first head
derives. -/
theorem WellFormed.endMark_mem_follow_of_last {first : Production} {before : List Nat}
    (leads : g.productions[0]? = some first) (nonTerminal : g.isNonTerminal symbol = true)
    (path : g.Derives [first.head] (before ++ [symbol])) :
    endMarkIndex ∈ g.firstFollow.follow.get symbol := by
  have followed : g.Followed (· = endMarkIndex) (before ++ [symbol]) := by
    refine formed.followed_of_derives (formed.fits_of_getElem? leads).head ?_ path
    rintro _ rfl
    exact formed.endMark_mem_follow leads
  apply followed rfl nonTerminal
  exact .inr ⟨by simp [firstOfString], rfl⟩

end Complete

/-- Every non-terminal has a FOLLOW set. It holds the terminals that stand behind the non-terminal in
some form that a non-terminal derives, and the end mark if the head of the first production derives a
form that ends with the non-terminal; nothing else is in it, and epsilon never is. -/
theorem follow_exact (prepared : g.Prepared) (nonTerminal : g.isNonTerminal symbol = true) :
    ∃ set, g.firstFollow.follow.get? symbol = some set ∧ epsilonIndex ∉ set ∧ ∀ member,
      member ∈ set ↔
        g.isTerminal member = true ∧ (∃ head before after, g.isNonTerminal head = true ∧
          g.DerivesProperly [head] (before ++ symbol :: member :: after)) ∨
        member = endMarkIndex ∧ ∃ first before, g.productions[0]? = some first ∧
          g.Derives [first.head] (before ++ [symbol]) := by
  have formed := prepared.wellFormed
  refine ⟨_, get?_follow nonTerminal, fun inside => ?_, fun member => ⟨fun inside => ?_, ?_⟩⟩
  · rcases formed.proper_of_mem_follow inside with terminal | mark
    · exact absurd rfl (ne_epsilon_of_isTerminal formed.toNamed terminal)
    · cases mark
  · exact formed.cases_of_mem_follow inside
  · rintro (⟨terminal, head, before, after, proper, path⟩ | ⟨rfl, first, before, leads, path⟩)
    · exact formed.mem_follow_of_behind proper nonTerminal terminal path.derives
    · exact formed.endMark_mem_follow_of_last leads nonTerminal path

/-- In the layered grammar a `b` stands behind `C` in some form, and no form that the start symbol
derives ends with `C`. -/
theorem follow_exact_layered : layered.Prepared ∧ layered.isNonTerminal 5 = true ∧
    (∃ head before after, layered.isNonTerminal head = true ∧
      layered.DerivesProperly [head] (before ++ 5 :: 7 :: after)) ∧
    ¬ ∃ before, layered.Derives [2] (before ++ [5]) := by
  have prepared : layered.Prepared := .inl loaded_layered
  have proper : layered.isNonTerminal 5 = true := rfl
  obtain ⟨set, found, _, members⟩ := follow_exact prepared proper
  have evaluated : (layered.firstFollow.follow.get? 5).any
      (fun set => decide (7 ∈ set ∧ endMarkIndex ∉ set)) = true := by decide +kernel
  rw [found, Option.any_some, decide_eq_true_eq] at evaluated
  refine ⟨prepared, proper, ?_, fun holds => ?_⟩
  · rcases (members 7).mp evaluated.1 with ⟨_, stands⟩ | ⟨other, _⟩
    · exact stands
    · cases other
  · obtain ⟨before, path⟩ := holds
    exact evaluated.2 ((members endMarkIndex).mpr (.inr ⟨rfl, _, before, rfl, path⟩))

end Grammar

end SimpleLR
