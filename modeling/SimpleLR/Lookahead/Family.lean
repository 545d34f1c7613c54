import SimpleLR.SortedSet

namespace SimpleLR

/-- A set of symbol indices. -/
abbrev SymbolSet := SortedSet Nat

/-- Sets of symbols under symbols, at most one for each. -/
structure Family where
  entries : List (Nat × SymbolSet)
  deriving DecidableEq

namespace Family

def empty : Family := ⟨[]⟩

/-- The set kept under a symbol. -/
def get? (family : Family) (key : Nat) : Option SymbolSet := family.entries.lookup key

/-- The set kept under a symbol, or the empty set. -/
def get (family : Family) (key : Nat) : SymbolSet := (family.get? key).getD ∅

/-- The symbols with a set. -/
def keys (family : Family) : SymbolSet := .ofList (family.entries.map (·.1))

/-- Enlarges the set kept under a symbol. A symbol without a set gets one. -/
def add (family : Family) (key : Nat) (more : SymbolSet) : Family :=
  match family.get? key with
  | none => ⟨family.entries ++ [(key, more)]⟩
  | some _ =>
    ⟨family.entries.map fun entry => (entry.1, if entry.1 = key then entry.2 ∪ more else entry.2)⟩

/-- Enlarges the sets kept under several symbols by the same members. -/
def addAll (family : Family) (keys : List Nat) (more : SymbolSet) : Family :=
  keys.foldl (fun family key => family.add key more) family

@[simp] theorem get?_empty (key : Nat) : empty.get? key = none := rfl

private theorem lookup_enlarged (entries : List (Nat × SymbolSet)) (key other : Nat)
    (more : SymbolSet) :
    (entries.map fun entry => (entry.1, if entry.1 = key then entry.2 ∪ more else entry.2)).lookup
        other =
      (entries.lookup other).map fun set => if other = key then set ∪ more else set := by
  induction entries with
  | nil => rfl
  | cons entry rest ih =>
    obtain ⟨name, set⟩ := entry
    by_cases same : other = name
    · simp [same]
    · simp only [List.map_cons, List.lookup_cons, beq_eq_false_iff_ne.mpr same, ih]

private theorem lookup_extended (entries : List (Nat × SymbolSet)) (key other : Nat)
    (set : SymbolSet) :
    (entries ++ [(key, set)]).lookup other =
      (entries.lookup other).or (if other = key then some set else none) := by
  induction entries with
  | nil =>
    by_cases same : other = key
    · simp [same]
    · simp [List.lookup_cons, same, beq_eq_false_iff_ne.mpr same]
  | cons entry rest ih =>
    obtain ⟨name, first⟩ := entry
    by_cases same : other = name
    · simp [same]
    · simp only [List.cons_append, List.lookup_cons, beq_eq_false_iff_ne.mpr same, ih]

/-- Adding touches one set: it gets the new members, and is there afterwards. -/
theorem get?_add (family : Family) (key other : Nat) (more : SymbolSet) :
    (family.add key more).get? other =
      if other = key then some ((family.get? key).elim more (· ∪ more)) else family.get? other := by
  unfold add
  cases found : family.get? key with
  | none =>
    have absent : family.entries.lookup key = none := found
    by_cases same : other = key
    · subst same
      simp only [get?, lookup_extended, absent, if_true, Option.none_or, Option.elim_none]
    · simp only [get?, lookup_extended, same, if_false, Option.or_none]
  | some set =>
    have present : family.entries.lookup key = some set := found
    by_cases same : other = key
    · subst same
      simp only [get?, lookup_enlarged, present, if_true, Option.map_some, Option.elim_some]
    · simp only [get?, lookup_enlarged, same, if_false, Option.map_id']

end Family

end SimpleLR
