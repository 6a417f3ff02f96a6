/-!
# Vere.Hoon.Virt

What running an arm comes to: a value, a crash, or nothing at all.
-/

namespace Vere.Hoon

/-- What running an arm comes to: `none` is running for ever, `throw` a crash of the arm
itself. -/
abbrev Virt := ExceptT Unit Option

/-- The arm does not return. -/
def Virt.never {α : Type} : Virt α := (none : Option (Except Unit α))

namespace Virt

variable {α β : Type}

theorem pure_inj {a b : α} : (pure a : Virt α) = pure b ↔ a = b := by
  constructor
  · intro h
    cases h
    rfl
  · rintro rfl
    rfl

/-- What returns first returned what it goes on with. -/
theorem bind_eq_pure {x : Virt α} {f : α → Virt β} {b : β} :
    x >>= f = pure b ↔ ∃ a, x = pure a ∧ f a = pure b := by
  constructor
  · intro h
    match x, h with
    | some (.ok a), h => exact ⟨a, rfl, h⟩
  · rintro ⟨a, rfl, h⟩
    exact h

end Virt

end Vere.Hoon
