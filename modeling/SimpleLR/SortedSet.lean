namespace SimpleLR

universe u

/-- A finite set, held as the ascending list of its members. -/
structure SortedSet (α : Type u) [LT α] where
  toList : List α
  ascending : toList.Pairwise (· < ·)

namespace SortedSet

variable {α : Type u} [LT α]

instance [DecidableEq α] : DecidableEq (SortedSet α) := fun s t =>
  decidable_of_iff (s.toList = t.toList) (by cases s; cases t; simp)

instance : Membership α (SortedSet α) := ⟨fun s x => x ∈ s.toList⟩

instance : EmptyCollection (SortedSet α) := ⟨⟨[], .nil⟩⟩

@[simp] theorem mem_toList {s : SortedSet α} {x : α} : x ∈ s.toList ↔ x ∈ s := Iff.rfl

@[simp] theorem not_mem_empty {x : α} : x ∉ (∅ : SortedSet α) := List.not_mem_nil

instance [DecidableEq α] (s : SortedSet α) (x : α) : Decidable (x ∈ s) :=
  inferInstanceAs (Decidable (x ∈ s.toList))

def isEmpty (s : SortedSet α) : Bool := s.toList.isEmpty

/-- The members that satisfy a test. -/
def filter (s : SortedSet α) (keep : α → Bool) : SortedSet α :=
  ⟨s.toList.filter keep, s.ascending.filter keep⟩

@[simp] theorem mem_filter {s : SortedSet α} {keep : α → Bool} {x : α} :
    x ∈ s.filter keep ↔ x ∈ s ∧ keep x = true := List.mem_filter

section Insert

variable [DecidableLT α]

/-- Puts a value into an ascending list, unless it is there. -/
def insertInto (x : α) : List α → List α
  | [] => [x]
  | y :: rest =>
    if x < y then x :: y :: rest
    else if y < x then y :: insertInto x rest
    else y :: rest

variable [Trans (α := α) (β := α) (γ := α) (· < ·) (· < ·) (· < ·)]
  [Std.Trichotomous (α := α) (· < ·)]

omit [Trans (α := α) (β := α) (γ := α) (· < ·) (· < ·) (· < ·)] in
theorem mem_insertInto {x y : α} {list : List α} : y ∈ insertInto x list ↔ y = x ∨ y ∈ list := by
  induction list with
  | nil => simp [insertInto]
  | cons head rest ih =>
    by_cases before : x < head
    · simp [insertInto, before]
    · by_cases after : head < x
      · simp only [insertInto, before, after, if_false, if_true, List.mem_cons, ih]
        exact or_left_comm
      · have same : x = head := Std.Trichotomous.trichotomous _ _ before after
        subst same
        simp [insertInto, before]

theorem ascending_insertInto (x : α) {list : List α} (ascending : list.Pairwise (· < ·)) :
    (insertInto x list).Pairwise (· < ·) := by
  induction list with
  | nil => simp [insertInto]
  | cons head rest ih =>
    have ⟨below, inner⟩ := List.pairwise_cons.mp ascending
    by_cases before : x < head
    · simp only [insertInto, before, if_true]
      refine List.pairwise_cons.mpr ⟨fun y member => ?_, ascending⟩
      rcases List.mem_cons.mp member with rfl | later
      · exact before
      · exact Trans.trans before (below y later)
    · by_cases after : head < x
      · simp only [insertInto, before, after, if_false, if_true]
        refine List.pairwise_cons.mpr ⟨fun y member => ?_, ih inner⟩
        rcases mem_insertInto.mp member with rfl | later
        · exact after
        · exact below y later
      · simpa only [insertInto, before, after, if_false] using ascending

/-- The set with one more member. -/
def insert (s : SortedSet α) (x : α) : SortedSet α :=
  ⟨insertInto x s.toList, ascending_insertInto x s.ascending⟩

@[simp] theorem mem_insert {s : SortedSet α} {x y : α} : y ∈ s.insert x ↔ y = x ∨ y ∈ s :=
  mem_insertInto

/-- The set with more members. -/
def insertAll (s : SortedSet α) (list : List α) : SortedSet α := list.foldl insert s

@[simp] theorem mem_insertAll {s : SortedSet α} {list : List α} {y : α} :
    y ∈ s.insertAll list ↔ y ∈ list ∨ y ∈ s := by
  unfold insertAll
  induction list generalizing s with
  | nil => simp
  | cons head rest ih =>
    simp only [List.foldl_cons, ih, mem_insert, List.mem_cons]
    exact ⟨fun h => h.elim (.inl ∘ .inr) (·.elim (.inl ∘ .inl) .inr),
      fun h => h.elim (·.elim (.inr ∘ .inl) .inl) (.inr ∘ .inr)⟩

/-- The members of a list. -/
def ofList (list : List α) : SortedSet α := (∅ : SortedSet α).insertAll list

@[simp] theorem mem_ofList {list : List α} {y : α} : y ∈ ofList list ↔ y ∈ list := by
  simp [ofList]

/-- What is in one set or in the other. -/
def union (s t : SortedSet α) : SortedSet α := s.insertAll t.toList

instance : Union (SortedSet α) := ⟨union⟩

@[simp] theorem mem_union {s t : SortedSet α} {y : α} : y ∈ s ∪ t ↔ y ∈ s ∨ y ∈ t := by
  show y ∈ s.insertAll t.toList ↔ _
  simp only [mem_insertAll, mem_toList]
  exact or_comm

end Insert

section Order

variable [Std.Irrefl (α := α) (· < ·)]

theorem nodup_toList (s : SortedSet α) : s.toList.Nodup := by
  apply s.ascending.imp
  rintro first _ below rfl
  exact Std.Irrefl.irrefl (r := fun a b : α => a < b) first below

theorem ext [Trans (α := α) (β := α) (γ := α) (· < ·) (· < ·) (· < ·)] {s t : SortedSet α}
    (same : ∀ x, x ∈ s ↔ x ∈ t) : s = t := by
  have perm : s.toList.Perm t.toList := (List.perm_ext_iff_of_nodup s.nodup_toList t.nodup_toList).mpr same
  have lists : s.toList = t.toList := by
    refine perm.eq_of_pairwise (fun x y _ _ below above => ?_) s.ascending t.ascending
    exact absurd (Trans.trans below above) (Std.Irrefl.irrefl (r := fun a b : α => a < b) x)
  cases s
  cases t
  cases lists
  rfl

end Order

end SortedSet

end SimpleLR
