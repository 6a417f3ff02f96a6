import Mathlib.Logic.Function.Basic
import Mathlib.Tactic.Common

/-!
# Vere.Lib.Slots

Tables with a slot at every address, most of them empty.

The rules are for the two ways to change one slot, to fill it and to empty it: what holds
of every entry, which entries there are, and that no two of them have the same key
(`Apart`).
-/

namespace Vere.Lib

open Function

variable {ι α γ : Type} [DecidableEq ι] {cell : ι → Option α} {p : ι} {x : α}

/-- The entry in a slot that was filled, and those in the others. -/
theorem slots_fill {P : ι → α → Prop} (hnew : P p x)
    (hold : ∀ q y, q ≠ p → cell q = some y → P q y) (q : ι) (y : α)
    (hy : update cell p (some x) q = some y) : P q y := by
  by_cases hq : q = p
  · subst hq
    rw [update_self] at hy
    cases hy
    exact hnew
  · exact hold q y hq ((update_of_ne hq _ _).symm.trans hy)

/-- The entries outside of a slot that was emptied. -/
theorem slots_empty {P : ι → α → Prop} (hold : ∀ q y, q ≠ p → cell q = some y → P q y) (q : ι)
    (y : α) (hy : update cell p none q = some y) : P q y := by
  have hq : q ≠ p := by
    rintro rfl
    rw [update_self] at hy
    cases hy
  exact hold q y hq ((update_of_ne hq _ _).symm.trans hy)

/-- What is left when a slot was emptied was there before. -/
theorem slot_of_empty {q : ι} {y : α} (hy : update cell p none q = some y) : cell q = some y :=
  slots_empty (P := fun q y => cell q = some y) (fun _ _ _ hy => hy) q y hy

/-- An entry stays when an empty slot is filled. -/
theorem slot_of_none (hp : cell p = none) (v : Option α) {q : ι} {y : α} (hy : cell q = some y) :
    update cell p v q = some y := by
  have hq : q ≠ p := by
    rintro rfl
    exact nomatch hy.symm.trans hp
  rw [update_of_ne hq, hy]

omit [DecidableEq ι] in
/-- Different entries are in different slots. -/
theorem slot_ne {q : ι} {y : α} (hx : cell p = some x) (hy : cell q = some y) (hne : y ≠ x) :
    q ≠ p := by
  rintro rfl
  exact hne (Option.some.inj (hy.symm.trans hx))

/-- Entries in different slots have different keys. -/
def Apart (key : α → γ) (cell : ι → Option α) : Prop :=
  ∀ p q x y, cell p = some x → cell q = some y → key x = key y → p = q

namespace Apart

variable {key : α → γ}

/-- A slot is filled with an entry whose key is in no other slot. -/
theorem fill (h : Apart key cell) (hnew : ∀ q y, q ≠ p → cell q = some y → key y ≠ key x) :
    Apart key (update cell p (some x)) := by
  intro p₁ p₂ x₁ x₂ h₁ h₂
  refine slots_fill (P := fun p₂ x₂ => key x₁ = key x₂ → p₁ = p₂) ?_ ?_ p₂ x₂ h₂
  · refine slots_fill (P := fun p₁ x₁ => key x₁ = key x → p₁ = p) ?_ ?_ p₁ x₁ h₁
    · exact fun _ => rfl
    · exact fun q y hq hy heq => absurd heq (hnew q y hq hy)
  · intro q₂ y₂ hq₂ hy₂
    refine slots_fill (P := fun p₁ x₁ => key x₁ = key y₂ → p₁ = q₂) ?_ ?_ p₁ x₁ h₁
    · exact fun heq => absurd heq.symm (hnew q₂ y₂ hq₂ hy₂)
    · exact fun q y _ hy heq => h q q₂ y y₂ hy hy₂ heq

/-- An entry is replaced by one with the same key. -/
theorem replace (h : Apart key cell) {x' : α} (hx : cell p = some x) (hkey : key x' = key x) :
    Apart key (update cell p (some x')) := by
  refine h.fill ?_
  intro q y hq hy heq
  exact hq (h q p y x hy hx (heq.trans hkey))

theorem empty (h : Apart key cell) : Apart key (update cell p none) := by
  intro p₁ p₂ x₁ x₂ h₁ h₂ heq
  exact h p₁ p₂ x₁ x₂ (slot_of_empty h₁) (slot_of_empty h₂) heq

end Apart

end Vere.Lib
