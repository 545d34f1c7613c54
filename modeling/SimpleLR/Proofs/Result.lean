import Mathlib.Data.List.Forall2

namespace SimpleLR.Result

variable {ε α β σ : Type}

theorem bind_eq_ok {result : Except ε α} {next : α → Except ε β} {last : β} :
    (result >>= next) = .ok last ↔ ∃ value, result = .ok value ∧ next value = .ok last := by
  cases result <;> simp [bind, Except.bind]

theorem bind_ok {result : Except ε α} {next : α → Except ε β} (begins : ∃ value, result = .ok value)
    (goesOn : ∀ value, result = .ok value → ∃ last, next value = .ok last) :
    ∃ last, (result >>= next) = .ok last := by
  obtain ⟨value, success⟩ := begins
  obtain ⟨last, later⟩ := goesOn value success
  exact ⟨last, bind_eq_ok.mpr ⟨value, success, later⟩⟩

theorem bind_eq_error {result : Except ε α} {next : α → Except ε β} {error : ε} :
    (result >>= next) = .error error ↔
      result = .error error ∨ ∃ value, result = .ok value ∧ next value = .error error := by
  cases result <;> simp [bind, Except.bind]

theorem mapM_eq_ok {f : α → Except ε β} {list : List α} {results : List β} :
    list.mapM f = .ok results ↔
      List.Forall₂ (fun value result => f value = .ok result) list results := by
  induction list generalizing results with
  | nil =>
    rw [List.mapM_nil, List.forall₂_nil_left_iff]
    exact ⟨fun same => (Except.ok.inj same).symm, fun same => same ▸ rfl⟩
  | cons value rest ih =>
    rw [List.mapM_cons, bind_eq_ok, List.forall₂_cons_left_iff]
    apply exists_congr
    intro result
    rw [bind_eq_ok]
    constructor
    · intro holds
      obtain ⟨own, others, later, same⟩ := holds
      exact ⟨others, own, ih.mp later, (Except.ok.inj same).symm⟩
    · intro holds
      obtain ⟨others, own, later, rfl⟩ := holds
      exact ⟨own, others, ih.mpr later, rfl⟩

theorem mapM_eq_error {f : α → Except ε β} {list : List α} {error : ε}
    (failed : list.mapM f = .error error) : ∃ value ∈ list, f value = .error error := by
  induction list with
  | nil => cases failed
  | cons value rest ih =>
    rw [List.mapM_cons, bind_eq_error] at failed
    rcases failed with own | ⟨result, _, failed⟩
    · exact ⟨value, by simp, own⟩
    · rcases bind_eq_error.mp failed with later | ⟨others, _, never⟩
      · obtain ⟨other, member, found⟩ := ih later
        exact ⟨other, by simp [member], found⟩
      · cases never

theorem mapM_ok {f : α → Except ε β} {list : List α}
    (each : ∀ value ∈ list, ∃ result, f value = .ok result) :
    ∃ results, list.mapM f = .ok results := by
  cases found : list.mapM f with
  | ok results => exact ⟨results, rfl⟩
  | error error =>
    obtain ⟨value, member, failed⟩ := mapM_eq_error found
    obtain ⟨result, success⟩ := each value member
    cases success.symm.trans failed

theorem filterM_ok {test : α → Except ε Bool} {list : List α}
    (each : ∀ value ∈ list, ∃ passes, test value = .ok passes) : ∃ kept, list.filterM test = .ok kept := by
  suffices more : ∀ front, ∃ kept, list.filterAuxM test front = .ok kept by
    obtain ⟨kept, success⟩ := more []
    exact ⟨kept.reverse, bind_eq_ok.mpr ⟨kept, success, rfl⟩⟩
  induction list with
  | nil => exact fun front => ⟨front, rfl⟩
  | cons value rest ih =>
    intro front
    obtain ⟨⟨passes, own⟩, others⟩ := List.forall_mem_cons.mp each
    obtain ⟨kept, later⟩ := ih others (cond passes (value :: front) front)
    exact ⟨kept, bind_eq_ok.mpr ⟨passes, own, later⟩⟩

theorem exists_of_mem_results {f : α → Except ε β} {list : List α} {results : List β}
    (success : list.mapM f = .ok results) {result : β} (member : result ∈ results) :
    ∃ value ∈ list, f value = .ok result := by
  have pairs := mapM_eq_ok.mp success
  clear success
  induction pairs with
  | nil => cases member
  | @cons value _ rest _ own _ ih =>
    rcases List.mem_cons.mp member with rfl | later
    · exact ⟨value, List.mem_cons_self, own⟩
    · obtain ⟨other, inside, found⟩ := ih later
      exact ⟨other, List.mem_cons_of_mem value inside, found⟩

/-- The result at a position is the result for the value at that position. -/
theorem getElem?_of_mapM {f : α → Except ε β} {list : List α} {results : List β}
    (success : list.mapM f = .ok results) {position : Nat} {value : α}
    (found : list[position]? = some value) :
    ∃ result, results[position]? = some result ∧ f value = .ok result := by
  have pairs := List.forall₂_iff_get.mp (mapM_eq_ok.mp success)
  obtain ⟨bound, same⟩ := List.getElem?_eq_some_iff.mp found
  have inside : position < results.length := pairs.1 ▸ bound
  refine ⟨results[position], List.getElem?_eq_getElem inside, ?_⟩
  have own := pairs.2 position bound inside
  rwa [List.get_eq_getElem, List.get_eq_getElem, same] at own

theorem length_of_mapM {f : α → Except ε β} {list : List α} {results : List β}
    (success : list.mapM f = .ok results) : results.length = list.length :=
  (mapM_eq_ok.mp success).length_eq.symm

theorem eq_of_mapM {f : α → Except ε β} {list list' : List α} {results : List β} (one : list.mapM f = .ok results)
    (two : list'.mapM f = .ok results) (apart : ∀ value ∈ list, ∀ value' ∈ list', f value = f value' → value = value') :
    list = list' := by
  have lengths := (length_of_mapM one).symm.trans (length_of_mapM two)
  refine List.ext_getElem lengths fun position bound bound' => ?_
  obtain ⟨result, here, own⟩ := getElem?_of_mapM one (List.getElem?_eq_getElem bound)
  obtain ⟨result', there, own'⟩ := getElem?_of_mapM two (List.getElem?_eq_getElem bound')
  obtain rfl := Option.some.inj (here.symm.trans there)
  exact apart _ (List.getElem_mem bound) _ (List.getElem_mem bound') (own.trans own'.symm)

theorem mapM_congr {f f' : α → Except ε β} {list : List α} (same : ∀ value ∈ list, f value = f' value) :
    list.mapM f = list.mapM f' := by
  induction list with
  | nil => rfl
  | cons value rest ih =>
    obtain ⟨own, others⟩ := List.forall_mem_cons.mp same
    rw [List.mapM_cons, List.mapM_cons, own, ih others]

theorem mapM_bind_of_ok {f : α → Except ε β} {list : List α} {results : List β}
    (success : list.mapM f = .ok results) (next : β → Except ε σ) :
    list.mapM (fun value => f value >>= next) = results.mapM next := by
  have found := mapM_eq_ok.mp success
  clear success
  induction found with
  | nil => rfl
  | cons own _ ih =>
    rw [List.mapM_cons, List.mapM_cons, own, ih]
    rfl

theorem mapError_eq_ok {ε' : Type} {change : ε → ε'} {result : Except ε α} {value : α} :
    result.mapError change = .ok value ↔ result = .ok value := by
  cases result <;> simp [Except.mapError]

theorem mapError_bind {ε' : Type} {change : ε → ε'} {result : Except ε α} {next : α → Except ε β} :
    (result >>= next).mapError change = result.mapError change >>= fun value => (next value).mapError change := by
  cases result <;> rfl

theorem bind_congr {result : Except ε α} {next next' : α → Except ε β}
    (same : ∀ value, result = .ok value → next value = next' value) : (result >>= next) = (result >>= next') := by
  cases result with
  | error error => rfl
  | ok value => exact same value rfl

theorem exists_of_evaluated (result : Except ε α) (test : α → Bool)
    (passes : result.toOption.any test = true) : ∃ value, result = .ok value ∧ test value = true := by
  cases result with
  | error error => cases passes
  | ok value => exact ⟨value, rfl, passes⟩

/-- Two results of which both are values or both are errors, and related in either case. -/
inductive Alike {ε' : Type} (onErrors : ε → ε' → Prop) (onValues : α → β → Prop) :
    Except ε α → Except ε' β → Prop where
  | ok {value : α} {other : β} (related : onValues value other) :
      Alike onErrors onValues (.ok value) (.ok other)
  | error {error : ε} {other : ε'} (related : onErrors error other) :
      Alike onErrors onValues (.error error) (.error other)

namespace Alike

variable {ε' α' β' σ' : Type} {onErrors : ε → ε' → Prop} {onValues : α → α' → Prop}
  {onNext : β → β' → Prop}

theorem refl {errors : ε → ε → Prop} (same : ∀ error, errors error error) (result : Except ε α) :
    Alike errors Eq result result := by
  cases result with
  | ok value => exact .ok rfl
  | error error => exact .error (same error)

theorem imp {onErrors' : ε → ε' → Prop} {onValues' : α → α' → Prop} {result : Except ε α}
    {other : Except ε' α'} (alike : Alike onErrors onValues result other)
    (errors : ∀ error error', onErrors error error' → onErrors' error error')
    (values : ∀ value value', onValues value value' → onValues' value value') :
    Alike onErrors' onValues' result other := by
  cases alike with
  | ok related => exact .ok (values _ _ related)
  | error related => exact .error (errors _ _ related)

theorem bind {result : Except ε α} {other : Except ε' α'} {next : α → Except ε β}
    {next' : α' → Except ε' β'} (alike : Alike onErrors onValues result other)
    (goesOn : ∀ value value', onValues value value' →
      Alike onErrors onNext (next value) (next' value')) :
    Alike onErrors onNext (result >>= next) (other >>= next') := by
  cases alike with
  | ok related => exact goesOn _ _ related
  | error related => exact .error related

theorem mapM {f : α → Except ε β} {f' : α' → Except ε' β'} {list : List α} {list' : List α'}
    (pairs : List.Forall₂ onValues list list')
    (each : ∀ value value', onValues value value' → Alike onErrors onNext (f value) (f' value')) :
    Alike onErrors (List.Forall₂ onNext) (list.mapM f) (list'.mapM f') := by
  induction pairs with
  | nil => exact .ok .nil
  | cons related _ ih =>
    rw [List.mapM_cons, List.mapM_cons]
    refine (each _ _ related).bind fun value value' own => ih.bind fun values values' others => ?_
    exact .ok (.cons own others)

theorem mapM_same {f : α → Except ε β} {f' : α → Except ε' β'} (list : List α)
    (each : ∀ value, Alike onErrors onNext (f value) (f' value)) :
    Alike onErrors (List.Forall₂ onNext) (list.mapM f) (list.mapM f') :=
  have pairs : List.Forall₂ Eq list list := List.forall₂_same.mpr fun _ _ => rfl
  mapM pairs fun value _ same => same ▸ each value

theorem foldlM_same {f : σ → α → Except ε σ} {f' : σ → α → Except ε' σ} (list : List α)
    (each : ∀ state value, Alike onErrors Eq (f state value) (f' state value)) (start : σ) :
    Alike onErrors Eq (list.foldlM f start) (list.foldlM f' start) := by
  induction list generalizing start with
  | nil => exact .ok rfl
  | cons value rest ih =>
    rw [List.foldlM_cons, List.foldlM_cons]
    exact (each start value).bind fun next _ same => same ▸ ih next

theorem mapError {η η' : Type} {onOther : η → η' → Prop} {change : ε → η} {change' : ε' → η'}
    {result : Except ε α} {other : Except ε' α'} (alike : Alike onErrors onValues result other)
    (errors : ∀ error error', onErrors error error' → onOther (change error) (change' error')) :
    Alike onOther onValues (result.mapError change) (other.mapError change') := by
  cases alike with
  | ok related => exact .ok related
  | error related => exact .error (errors _ _ related)

end Alike

end SimpleLR.Result
