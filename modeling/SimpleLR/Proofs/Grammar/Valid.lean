import SimpleLR.Proofs.Grammar.Catalogue

namespace SimpleLR.Catalogue

/-- A catalogue in which heads and bodies name symbols and only productions are listed. -/
structure Valid (c : Catalogue) : Prop where
  heads : ∀ production ∈ c.productions, production.head < c.entries.length
  bodies : ∀ production ∈ c.productions, ∀ symbol ∈ production.body, symbol < c.entries.length
  listed : ∀ entry ∈ c.entries, ∀ index ∈ entry.listed, index < c.productions.length

variable {c : Catalogue}

theorem InStep.valid (books : c.InStep)
    (bodies : ∀ production ∈ c.productions, ∀ symbol ∈ production.body, symbol < c.entries.length) : c.Valid := by
  refine ⟨books.heads, bodies, fun entry member index among => ?_⟩
  obtain ⟨position, here⟩ := List.mem_iff_getElem?.mp member
  have right := books.right here
  cases entry with
  | nonTerminal _ _ listed => exact right.2.lt_of_mem among
  | _ => cases among

private theorem Entry.mem_listed_move {entry : Entry} {index : Nat} (member : index ∈ entry.move.listed) :
    ∃ before ∈ entry.listed, before + 1 = index := by
  cases entry with
  | nonTerminal _ _ listed => exact List.mem_map.mp member
  | _ => cases member

private theorem Entry.mem_listed_list {entry : Entry} {production index : Nat}
    (member : index ∈ (entry.list production).listed) : index ∈ entry.listed ∨ index = production := by
  cases entry with
  | nonTerminal _ _ listed => exact (List.mem_append.mp member).imp id List.mem_singleton.mp
  | _ => cases member

/-- A production of the start symbol in front keeps a catalogue valid. -/
theorem Valid.putInFront (valid : c.Valid) {start : Nat} (bound : start < c.entries.length) (name : Text) :
    (c.putInFront start name).Valid := by
  have longer : (c.putInFront start name).entries.length = c.entries.length + 1 := by
    simp [Catalogue.putInFront]
  refine ⟨fun production member => ?_, fun production member symbol inside => ?_, fun entry member index among => ?_⟩
  · rw [longer]
    rcases List.mem_cons.mp member with rfl | old
    · exact Nat.lt_succ_self _
    · exact Nat.lt_succ_of_lt (valid.heads production old)
  · rw [longer]
    rcases List.mem_cons.mp member with rfl | old
    · rw [List.mem_singleton.mp inside]
      exact Nat.lt_succ_of_lt bound
    · exact Nat.lt_succ_of_lt (valid.bodies production old symbol inside)
  · have moved : ∀ entry ∈ (c.entries ++ [Entry.nonTerminal c.entries.length name []]).map Entry.move,
        ∀ index ∈ entry.listed, index < c.productions.length + 1 := by
      intro entry member index among
      obtain ⟨before, old, rfl⟩ := List.mem_map.mp member
      obtain ⟨listed, inside, rfl⟩ := Entry.mem_listed_move among
      apply Nat.succ_lt_succ
      rcases List.mem_append.mp old with kept | new
      · exact valid.listed before kept listed inside
      · rw [List.mem_singleton.mp new] at inside
        cases inside
    obtain ⟨position, here⟩ := List.mem_iff_getElem?.mp member
    simp only [Catalogue.putInFront, List.getElem?_modify, Option.map_eq_map, Option.map_eq_some_iff] at here
    obtain ⟨before, old, rfl⟩ := here
    have kept := moved before (List.mem_of_getElem? old)
    split at among
    · rcases Entry.mem_listed_list among with inside | rfl
      · exact kept index inside
      · exact Nat.succ_pos _
    · exact kept index among

theorem Valid.augment (valid : c.Valid) : c.augment.2.Valid := by
  rcases c.augment_cases with ⟨head, _, same⟩ | ⟨failure, _, same⟩ | ⟨start, name, _, _, named, same⟩
  · rw [same]
    exact valid
  · rw [same]
    exact valid
  · rw [same]
    rw [← name_grammar] at named
    exact valid.putInFront (length_grammar ▸ Grammar.lt_of_name named) _

end SimpleLR.Catalogue
