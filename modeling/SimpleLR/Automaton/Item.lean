import SimpleLR.Grammar.Basic

namespace SimpleLR

/-- A production and a position in its body. -/
structure Item where
  production : Nat
  position : Nat
  deriving DecidableEq, Repr

namespace Item

/-- Items are ordered by production, and for one production by position. -/
instance : LT Item :=
  ⟨fun a b => a.production < b.production ∨ a.production = b.production ∧ a.position < b.position⟩

instance : DecidableLT Item := fun a b =>
  inferInstanceAs (Decidable (a.production < b.production ∨
    a.production = b.production ∧ a.position < b.position))

theorem lt_iff {a b : Item} : a < b ↔
    a.production < b.production ∨ a.production = b.production ∧ a.position < b.position := Iff.rfl

instance : Std.Irrefl (α := Item) (· < ·) := ⟨fun a h => by rw [lt_iff] at h; omega⟩

instance : Trans (α := Item) (β := Item) (γ := Item) (· < ·) (· < ·) (· < ·) :=
  ⟨fun h k => by rw [lt_iff] at *; omega⟩

instance : Std.Trichotomous (α := Item) (· < ·) := ⟨fun a b h k => by
  obtain ⟨p, m⟩ := a
  obtain ⟨q, n⟩ := b
  rw [lt_iff] at h k
  simp only [mk.injEq]
  simp only at h k
  omega⟩

/-- The item with nothing seen. -/
def initial (production : Nat) : Item := ⟨production, 0⟩

/-- The item with one more symbol seen. -/
def advance (item : Item) : Item := ⟨item.production, item.position + 1⟩

end Item

namespace Grammar

variable (g : Grammar)

/-- The symbol after an item's position. A completed item has none, and neither has an item
without a production. -/
def afterDot? (item : Item) : Option Nat :=
  g.productions[item.production]?.bind fun production => production.symbols[item.position]?

/-- Whether all symbols of an item's production have been seen. An epsilon production is completed
from the start. -/
def isCompleted (item : Item) : Except Fault Bool := do
  let production ← g.production item.production
  return decide (production.length ≤ item.position)

end Grammar

end SimpleLR
