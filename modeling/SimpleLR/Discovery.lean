/-! Discovery of everything that can be reached: values wait in line, and each one that is
served brings the values it leads to that were not known before. The result holds no value twice,
holds only what is reachable, and holds all of it once the line is empty. -/
namespace SimpleLR

universe u

/-- The elements of `found` that are not in `known`, each once, in the order in which they come. -/
def fresh {α : Type u} [DecidableEq α] (known : List α) : List α → List α
  | [] => []
  | x :: found =>
    if x ∈ known then fresh known found else x :: fresh (x :: known) found

/-- Serves the values of `waiting` one by one, at most `turns` of them. A value that is served
joins `served`, and `next`, which sees all values served so far and the last of them, names the
values that it leads to. -/
def discover {α : Type u} [DecidableEq α] (next : List α → α → List α) :
    (turns : Nat) → (served waiting : List α) → List α
  | 0, served, _ => served
  | _ + 1, served, [] => served
  | turns + 1, served, x :: waiting =>
    let served := served ++ [x]
    discover next turns served (waiting ++ fresh (served ++ waiting) (next served x))

section Fresh

variable {α : Type u} [DecidableEq α]

theorem mem_fresh {known found : List α} {x : α} :
    x ∈ fresh known found ↔ x ∈ found ∧ x ∉ known := by
  induction found generalizing known with
  | nil => simp [fresh]
  | cons y rest ih =>
    by_cases old : y ∈ known
    · simp only [fresh, old, if_true, ih, List.mem_cons]
      refine ⟨fun ⟨member, new⟩ => ⟨.inr member, new⟩, fun ⟨member, new⟩ => ⟨?_, new⟩⟩
      rcases member with rfl | member
      · exact absurd old new
      · exact member
    · simp only [fresh, old, if_false, List.mem_cons, ih, not_or]
      constructor
      · rintro (rfl | ⟨member, _, new⟩)
        · exact ⟨by simp, old⟩
        · exact ⟨.inr member, new⟩
      · rintro ⟨member, new⟩
        by_cases same : x = y
        · exact .inl same
        · exact .inr ⟨member.resolve_left same, same, new⟩

theorem nodup_fresh (known found : List α) : (fresh known found).Nodup := by
  induction found generalizing known with
  | nil => simp [fresh]
  | cons y rest ih =>
    by_cases old : y ∈ known
    · simpa only [fresh, old, if_true] using ih known
    · simp only [fresh, old, if_false, List.nodup_cons, mem_fresh, List.mem_cons]
      exact ⟨fun ⟨_, new⟩ => new (by simp), ih _⟩

theorem nodup_append_fresh {known found : List α} (nodup : known.Nodup) :
    (known ++ fresh known found).Nodup := by
  refine List.nodup_append.mpr ⟨nodup, nodup_fresh _ _, fun x old y new same => ?_⟩
  exact (mem_fresh.mp new).2 (same ▸ old)

end Fresh

section Discover

variable {α : Type u} [DecidableEq α] {next : List α → α → List α}

theorem discover_nil (turns : Nat) (served : List α) : discover next turns served [] = served := by
  cases turns <;> rfl

private theorem step_nodup {served waiting : List α} {x : α}
    (nodup : (served ++ x :: waiting).Nodup) :
    (served ++ [x] ++
      (waiting ++ fresh (served ++ [x] ++ waiting) (next (served ++ [x]) x))).Nodup := by
  rw [← List.append_assoc]
  exact nodup_append_fresh (by simpa using nodup)

theorem nodup_discover (turns : Nat) {served waiting : List α}
    (nodup : (served ++ waiting).Nodup) : (discover next turns served waiting).Nodup := by
  induction turns generalizing served waiting with
  | zero => exact (List.nodup_append.mp nodup).1
  | succ turns ih =>
    cases waiting with
    | nil => simpa [discover] using nodup
    | cons x waiting => exact ih (step_nodup nodup)

theorem served_prefix_discover (turns : Nat) (served waiting : List α) :
    served <+: discover next turns served waiting := by
  induction turns generalizing served waiting with
  | zero => exact List.prefix_rfl
  | succ turns ih =>
    cases waiting with
    | nil => exact List.prefix_rfl
    | cons x waiting => exact (List.prefix_append served [x]).trans (ih _ _)

/-- A property that the first values have and that `next` hands on holds of all that is served. -/
theorem forall_mem_discover {holds : α → Prop} (turns : Nat) {served waiting : List α}
    (start : ∀ x ∈ served ++ waiting, holds x)
    (step : ∀ known x, (∀ y ∈ known, holds y) → x ∈ known → ∀ y ∈ next known x, holds y) :
    ∀ x ∈ discover next turns served waiting, holds x := by
  induction turns generalizing served waiting with
  | zero => exact fun x member => start x (List.mem_append_left _ member)
  | succ turns ih =>
    cases waiting with
    | nil => simpa [discover] using start
    | cons x waiting =>
      have before : ∀ y ∈ served ++ [x], holds y := fun y member =>
        start y (by simp at member ⊢; exact member.elim .inl (.inr ∘ .inl))
      refine ih fun y member => ?_
      simp only [List.mem_append, mem_fresh] at member
      rcases member with member | member | member
      · exact before y (by simpa using member)
      · exact start y (by simp [member])
      · exact step _ x before (by simp) y member.1

/-- With a turn for every member of a world that `next` does not leave, everything that waits
is served, and so is everything that a served value leads to once it is served. -/
theorem discover_complete (next : List α → α → List α) (world : List α)
    (closed : ∀ known x, (∀ y ∈ known, y ∈ world) → x ∈ known →
      ∀ y ∈ next known x, y ∈ world)
    (turns : Nat) (served waiting : List α) (nodup : (served ++ waiting).Nodup)
    (inside : ∀ x ∈ served ++ waiting, x ∈ world)
    (enough : world.length ≤ served.length + turns) :
    (∀ x ∈ waiting, x ∈ discover next turns served waiting) ∧
      ∀ before x, before ++ [x] <+: discover next turns served waiting →
        served.length ≤ before.length →
        ∀ y ∈ next (before ++ [x]) x, y ∈ discover next turns served waiting := by
  induction turns generalizing served waiting with
  | zero =>
    have count := nodup.length_le_of_subset inside
    have empty : waiting = [] := by
      apply List.eq_nil_of_length_eq_zero
      simp only [List.length_append] at count
      omega
    subst empty
    refine ⟨by simp, fun before x found long => ?_⟩
    have short := found.length_le
    simp only [discover, List.length_append, List.length_singleton] at short
    omega
  | succ turns ih =>
    cases waiting with
    | nil =>
      refine ⟨by simp, fun before x found long => ?_⟩
      have short := found.length_le
      simp only [discover, List.length_append, List.length_singleton] at short
      omega
    | cons x waiting =>
      have servedInside : ∀ y ∈ served ++ [x], y ∈ world := fun y member =>
        inside y (by simp at member ⊢; exact member.elim .inl (.inr ∘ .inl))
      have ⟨reached, led⟩ := ih (served ++ [x])
        (waiting ++ fresh (served ++ [x] ++ waiting) (next (served ++ [x]) x)) (step_nodup nodup)
        (fun y member => by
          simp only [List.mem_append, mem_fresh] at member
          rcases member with member | member | member
          · exact servedInside y (by simpa using member)
          · exact inside y (by simp [member])
          · exact closed _ x servedInside (by simp) y member.1)
        (by simp only [List.length_append, List.length_singleton]; omega)
      have kept : served ++ [x] <+: discover next (turns + 1) served (x :: waiting) :=
        served_prefix_discover turns _ _
      refine ⟨fun y member => ?_, fun before z found long y leads => ?_⟩
      · rcases List.mem_cons.mp member with rfl | member
        · exact kept.subset (by simp)
        · exact reached y (by simp [member])
      · by_cases same : before.length = served.length
        · have equal : before ++ [z] = served ++ [x] :=
            (List.prefix_of_prefix_length_le found kept (by simp [same])).eq_of_length
              (by simp [same])
          have ⟨_, last⟩ := List.append_inj' equal rfl
          simp only [List.cons.injEq, and_true] at last
          subst last
          rw [equal] at leads
          by_cases known : y ∈ served ++ [z] ++ waiting
          · rcases List.mem_append.mp known with old | waits
            · exact kept.subset old
            · exact reached y (by simp [waits])
          · refine reached y ?_
            simp only [List.mem_append, mem_fresh]
            exact .inr ⟨leads, by simpa [and_assoc] using known⟩
        · refine led before z found ?_ y leads
          simp only [List.length_append, List.length_singleton]
          omega

end Discover

end SimpleLR
