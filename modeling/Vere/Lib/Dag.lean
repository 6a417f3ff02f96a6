import Mathlib.Logic.Relation
import Mathlib.Order.WellFounded

/-!
# Vere.Lib.Dag

Directed graphs without cycles, given by who is a parent of whom.

`Up par t u` says that `u` is reached from `t` by going to parents. A set that has the parents
of its members is entered once on the way up: where it is entered from a node outside are the
nodes it `Meets`, and they have everything above them that the set has in common with the node.
-/

namespace Vere.Lib

variable {α : Type} {par : α → α → Prop} {R : α → Prop}

/-- From `t`, parents lead to `u`; `par u t` says that `u` is a parent of `t`. -/
def Up (par : α → α → Prop) : α → α → Prop := Relation.ReflTransGen fun t u => par u t

/-- The parents of members are members. -/
def UpClosed (par : α → α → Prop) (R : α → Prop) : Prop := ∀ t u, R t → par u t → R u

/-- The members of `R` that are entered from `q`: the step there starts at `q` or outside. -/
def Meets (par : α → α → Prop) (R : α → Prop) (q t : α) : Prop :=
  R t ∧ ∃ u, par t u ∧ Up par q u ∧ (u = q ∨ ¬R u)

theorem Up.refl (t : α) : Up par t t := Relation.ReflTransGen.refl

theorem Up.trans {a b c : α} (h : Up par a b) (h' : Up par b c) : Up par a c :=
  Relation.ReflTransGen.trans h h'

theorem Up.parent {t u : α} (h : par u t) : Up par t u := Relation.ReflTransGen.single h

/-- The first step up. -/
theorem up_iff {t u : α} : Up par t u ↔ t = u ∨ ∃ s, par s t ∧ Up par s u := by
  constructor
  · intro h
    rcases Relation.ReflTransGen.cases_head h with rfl | ⟨s, hs, hu⟩
    · exact .inl rfl
    · exact .inr ⟨s, hs, hu⟩
  · rintro (rfl | ⟨s, hs, hu⟩)
    · exact Up.refl t
    · exact (Up.parent hs).trans hu

theorem UpClosed.up (h : UpClosed par R) {t u : α} (ht : R t) (hu : Up par t u) : R u := by
  induction hu with
  | refl => exact ht
  | tail _ hp ih => exact h _ _ ih hp

theorem upClosed_up (p : α) : UpClosed par (Up par p) := fun _ _ ht hu => ht.trans (Up.parent hu)

/-- No node is above its own parents. -/
theorem not_up_parent (hwf : WellFounded par) {s t : α} (hs : par s t) : ¬Up par s t := by
  intro hu
  have hcyc : Relation.TransGen par t t := by
    rcases Relation.reflTransGen_iff_eq_or_transGen.mp hu with rfl | h
    · exact .single hs
    · exact (Relation.transGen_swap.mp h).trans_left (Relation.ReflTransGen.single hs)
  exact (hwf.transGen).irrefl.irrefl t hcyc

theorem up_antisymm (hwf : WellFounded par) {a b : α} (h : Up par a b) (h' : Up par b a) :
    a = b := by
  rcases up_iff.mp h with rfl | ⟨s, hs, hu⟩
  · rfl
  · exact absurd (hu.trans h') (not_up_parent hwf hs)

/-- What is met is met at a parent, or from a parent outside. -/
theorem meets_iff (h : UpClosed par R) {q t : α} :
    Meets par R q t ↔ ∃ s, par s q ∧ (R s ∧ t = s ∨ ¬R s ∧ Meets par R s t) := by
  constructor
  · rintro ⟨ht, u, htu, hu, hout⟩
    rcases hout with rfl | hnot
    · exact ⟨t, htu, .inl ⟨ht, rfl⟩⟩
    · rcases up_iff.mp hu with rfl | ⟨s, hs, hsu⟩
      · exact ⟨t, htu, .inl ⟨ht, rfl⟩⟩
      · exact ⟨s, hs, .inr ⟨fun hRs => hnot (h.up hRs hsu), ht, u, htu, hsu, .inr hnot⟩⟩
  · rintro ⟨s, hs, ⟨hRs, rfl⟩ | ⟨hRs, ht, u, htu, hsu, hout⟩⟩
    · exact ⟨hRs, q, hs, Up.refl q, .inl rfl⟩
    · refine ⟨ht, u, htu, (Up.parent hs).trans hsu, .inr ?_⟩
      rcases hout with rfl | hnot
      · exact hRs
      · exact hnot

/-- What the set has in common with a node outside is above something that is met. -/
theorem exists_meets (h : UpClosed par R) {q x : α} (hq : ¬R q) (hx : Up par q x) (hR : R x) :
    ∃ t, Meets par R q t ∧ Up par t x := by
  induction hx using Relation.ReflTransGen.head_induction_on with
  | refl => exact absurd hR hq
  | @head q s hs hu ih =>
    by_cases hRs : R s
    · exact ⟨s, (meets_iff h).mpr ⟨s, hs, .inl ⟨hRs, rfl⟩⟩, hu⟩
    · obtain ⟨t, ht, htx⟩ := ih hRs
      exact ⟨t, (meets_iff h).mpr ⟨s, hs, .inr ⟨hRs, ht⟩⟩, htx⟩

theorem Meets.up {q t : α} (h : Meets par R q t) : Up par q t := by
  obtain ⟨-, u, htu, hu, -⟩ := h
  exact hu.trans (Up.parent htu)

theorem Meets.ne (hwf : WellFounded par) {q t : α} (h : Meets par R q t) : t ≠ q := by
  rintro rfl
  obtain ⟨-, u, htu, hu, -⟩ := h
  exact not_up_parent hwf htu hu

end Vere.Lib
