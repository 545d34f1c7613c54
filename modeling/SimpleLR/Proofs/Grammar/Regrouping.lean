import SimpleLR.Grammar.Rules
import Mathlib.Data.List.Basic
import Mathlib.Data.List.Induction

namespace SimpleLR

/-- A list in which nothing stands between two equal elements but their equals. -/
def Contiguous {α : Type} (list : List α) : Prop :=
  ∀ ⦃first other : α⦄, [first, other, first].Sublist list → other = first

namespace Contiguous

variable {α : Type} {list : List α}

theorem sublist {shorter : List α} (contiguous : Contiguous list) (sub : shorter.Sublist list) :
    Contiguous shorter :=
  fun _ _ inner => contiguous (inner.trans sub)

theorem of_map {β : Type} {f : α → β} (injective : ∀ a ∈ list, ∀ b ∈ list, f a = f b → a = b)
    (contiguous : Contiguous (list.map f)) : Contiguous list := by
  intro first other sub
  have members := sub.subset
  exact injective other (members (by simp)) first (members (by simp)) (contiguous (sub.map f))

private theorem filter_append_filter {β : Type} [BEq β] [LawfulBEq β] {key : α → β} {first : α}
    (contiguous : Contiguous ((first :: list).map key)) :
    list.filter (key · == key first) ++ list.filter (key · != key first) = list := by
  induction list with
  | nil => rfl
  | cons other rest ih =>
    by_cases same : key other = key first
    · have shorter : ((first :: rest).map key).Sublist ((first :: other :: rest).map key) :=
        ((List.sublist_cons_self other rest).cons_cons first).map key
      simpa [same] using ih (contiguous.sublist shorter)
    · have absent : key first ∉ rest.map key := fun later =>
        same (contiguous (.cons_cons _ (.cons_cons _ (List.singleton_sublist.mpr later))))
      have apart : (other :: rest).filter (key · == key first) = [] := by
        rw [List.filter_eq_nil_iff]
        intro element member equal
        rcases List.mem_cons.mp member with rfl | later
        · exact same (beq_iff_eq.mp equal)
        · exact absent (beq_iff_eq.mp equal ▸ List.mem_map_of_mem later)
      have all : (other :: rest).filter (key · != key first) = other :: rest := by
        rw [List.filter_eq_self]
        intro element member
        simpa using List.filter_eq_nil_iff.mp apart element member
      rw [apart, all, List.nil_append]

end Contiguous

theorem eraseDups_filter {α : Type} [BEq α] [LawfulBEq α] (list : List α) (test : α → Bool) :
    (list.filter test).eraseDups = list.eraseDups.filter test := by
  induction list using List.reverseRecOn with
  | nil => rfl
  | append_singleton list last ih =>
    rw [List.filter_append, List.eraseDups_append, List.eraseDups_append, ih, List.filter_append]
    congr 1
    by_cases kept : test last = true
    · by_cases old : last ∈ list <;> simp [List.removeAll, kept, old, List.eraseDups_cons]
    · by_cases old : last ∈ list <;> simp [List.removeAll, kept, old, List.eraseDups_cons]

namespace Rule

/-- The heads of rules, each one once. -/
def heads (rules : List Rule) : List Text := (rules.map Rule.head).eraseDups

/-- The names in the bodies of rules that are neither heads nor epsilon, each one once. -/
def leaves (rules : List Rule) : List Text := (rules.flatMap Rule.body).eraseDups.filter fun name =>
  !Symbol.epsilon.spellings.contains name && !(heads rules).contains name

/-- The rules of a head. -/
def ofHead (rules : List Rule) (head : Text) : List Rule := rules.filter (·.head == head)

/-- The rules sorted by head. -/
def regrouped (rules : List Rule) : List Rule := (heads rules).flatMap (ofHead rules)

variable {rules : List Rule} {head : Text}

theorem mem_heads : head ∈ heads rules ↔ ∃ rule ∈ rules, rule.head = head := by
  rw [heads, List.mem_eraseDups, List.mem_map]

theorem mem_ofHead {rule : Rule} : rule ∈ ofHead rules head ↔ rule ∈ rules ∧ rule.head = head := by
  rw [ofHead, List.mem_filter, beq_iff_eq]

theorem mem_regrouped {rule : Rule} : rule ∈ regrouped rules ↔ rule ∈ rules := by
  simp only [regrouped, List.mem_flatMap, mem_heads, mem_ofHead]
  constructor
  · rintro ⟨_, _, member, _⟩
    exact member
  · exact fun member => ⟨rule.head, ⟨rule, member, rfl⟩, member, rfl⟩

/-- The rules without those of the first head. -/
def others (first : Rule) (rest : List Rule) : List Rule := rest.filter (·.head != first.head)

theorem heads_cons (first : Rule) (rest : List Rule) :
    heads (first :: rest) = first.head :: heads (others first rest) := by
  rw [heads, List.map_cons, List.eraseDups_cons, heads, others, List.filter_map]
  rfl

theorem ofHead_cons (first : Rule) (rest : List Rule) (head : Text) :
    ofHead (first :: rest) head = (if first.head = head then [first] else []) ++ ofHead rest head := by
  rw [ofHead, List.filter_cons, ofHead]
  by_cases same : first.head = head <;> simp [same]

private theorem ofHead_append (before behind : List Rule) (head : Text) :
    ofHead (before ++ behind) head = ofHead before head ++ ofHead behind head :=
  List.filter_append before behind

theorem ofHead_others {first : Rule} (rest : List Rule) (apart : head ≠ first.head) :
    ofHead (others first rest) head = ofHead rest head := by
  rw [ofHead, others, List.filter_filter, ofHead]
  apply List.filter_congr
  intro rule _
  by_cases same : rule.head = head
  · subst same
    simpa using apart
  · simp [same]

private theorem ofHead_eq_nil (absent : head ∉ heads rules) : ofHead rules head = [] := by
  rw [List.eq_nil_iff_forall_not_mem]
  intro rule member
  obtain ⟨inside, same⟩ := mem_ofHead.mp member
  exact absent (mem_heads.mpr ⟨rule, inside, same⟩)

theorem first_not_mem_heads_others (first : Rule) (rest : List Rule) :
    first.head ∉ heads (others first rest) := by
  intro member
  obtain ⟨rule, inside, same⟩ := mem_heads.mp member
  have apart := (List.mem_filter.mp inside).2
  simp [same] at apart

/-- Induction over rules that takes away all rules of the first head. -/
theorem induction_by_head {motive : List Rule → Prop} (nil : motive [])
    (cons : ∀ first rest, motive (others first rest) → motive (first :: rest)) :
    ∀ rules, motive rules
  | [] => nil
  | first :: rest => cons first rest (induction_by_head nil cons (others first rest))
termination_by rules => rules.length
decreasing_by exact Nat.lt_succ_of_le (List.length_filter_le _ rest)

theorem regrouped_cons (first : Rule) (rest : List Rule) :
    regrouped (first :: rest) = first :: ofHead rest first.head ++ regrouped (others first rest) := by
  have kept : ∀ head ∈ heads (others first rest),
      ofHead (first :: rest) head = ofHead (others first rest) head := by
    intro head member
    have apart : head ≠ first.head := by
      rintro rfl
      exact first_not_mem_heads_others first rest member
    rw [ofHead_cons, if_neg apart.symm, ofHead_others rest apart, List.nil_append]
  rw [regrouped, heads_cons, List.flatMap_cons, List.flatMap_congr kept, ofHead_cons, if_pos rfl]
  rfl

theorem heads_others (first : Rule) (rules : List Rule) :
    heads (others first rules) = (heads rules).filter (· != first.head) := by
  rw [heads, heads, ← eraseDups_filter, others, List.filter_map]
  rfl

/-- Sorting keeps the order of the heads. -/
theorem heads_regrouped (rules : List Rule) : heads (regrouped rules) = heads rules := by
  induction rules using induction_by_head with
  | nil => rfl
  | cons first rest ih =>
    have own : others first (ofHead rest first.head) = [] := by
      rw [others, List.filter_eq_nil_iff]
      intro rule member
      simp [(mem_ofHead.mp member).2]
    have later : others first (regrouped (others first rest)) = regrouped (others first rest) := by
      rw [others, List.filter_eq_self]
      intro rule member
      exact (List.mem_filter.mp (mem_regrouped.mp member)).2
    rw [regrouped_cons, List.cons_append, heads_cons, heads_cons, others, List.filter_append]
    change _ :: heads (others first _ ++ others first _) = _
    rw [own, later, List.nil_append, ih]

/-- Sorting keeps the rules of every head in order. -/
theorem ofHead_regrouped (rules : List Rule) (head : Text) :
    ofHead (regrouped rules) head = ofHead rules head := by
  induction rules using induction_by_head with
  | nil => rfl
  | cons first rest ih =>
    rw [regrouped_cons, List.cons_append, ofHead_cons, ofHead_append, ih, ofHead_cons]
    congr 1
    by_cases same : head = first.head
    · subst same
      rw [ofHead_eq_nil (first_not_mem_heads_others first rest), List.append_nil, ofHead,
        List.filter_eq_self.mpr fun rule member => ?_]
      simpa using (mem_ofHead.mp member).2
    · have empty : ofHead (ofHead rest first.head) head = [] := by
        rw [List.eq_nil_iff_forall_not_mem]
        intro rule member
        obtain ⟨inside, own⟩ := mem_ofHead.mp member
        exact same (own.symm.trans (mem_ofHead.mp inside).2)
      rw [ofHead_others rest same, empty, List.nil_append]

theorem regrouped_of_contiguous (contiguous : Contiguous (rules.map Rule.head)) :
    regrouped rules = rules := by
  induction rules using induction_by_head with
  | nil => rfl
  | cons first rest ih =>
    have shorter : ((others first rest).map Rule.head).Sublist ((first :: rest).map Rule.head) :=
      (List.filter_sublist.cons first).map Rule.head
    rw [regrouped_cons, ih (contiguous.sublist shorter), List.cons_append]
    exact congrArg (first :: ·) contiguous.filter_append_filter

end Rule

end SimpleLR
