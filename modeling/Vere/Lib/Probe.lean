import Mathlib.Algebra.Ring.Nat
import Vere.Lib.Slots
import Mathlib.Algebra.Group.Fin.Basic
import Mathlib.Data.Fintype.Card
import Mathlib.Data.List.FinRange

/-!
# Vere.Lib.Probe

Tables with open addressing.

Every entry has a home. It is put in the first free slot from its home on, going round at
the end of the table, and a search goes the same way and stops at the first slot that is
free or has the entry in it. A table that is only filled, and never emptied, has no free
slot between an entry and its home (`Reached`); so a search that stops at a free slot may
say that the entry is nowhere (`probe_free`).
-/

namespace Vere.Lib

open Function

variable {n : Nat} {α : Type} {cell : Fin n → Option α} {home : α → Fin n} {p : α → Bool}
  {i j : Fin n} {x y : α}

section probe

variable [NeZero n]

/-- The slots in the order in which a search from `i` comes to them. -/
def round (i : Fin n) : List (Fin n) := (List.finRange n).map (i + ·)

theorem mem_round (i j : Fin n) : j ∈ round i :=
  List.mem_map.mpr ⟨j - i, List.mem_finRange _, add_sub_cancel i j⟩

/-- The first slot from `i` on that is free or has an entry accepted by `p`. -/
def probe (p : α → Bool) (cell : Fin n → Option α) (i : Fin n) : Option (Fin n) :=
  (round i).find? fun j => (cell j).all p

/-- Where a search stops, and that it did not stop before. -/
theorem probe_first (h : probe p cell i = some j) :
    (cell j).all p = true ∧ ∀ m, m < j - i → (cell (i + m)).all p = false := by
  obtain ⟨hj, k, hk, hget, hbefore⟩ := List.find?_eq_some_iff_getElem.mp h
  refine ⟨hj, ?_⟩
  have hlen : k < n := by simpa [round] using hk
  have hjk : j = i + ⟨k, hlen⟩ := by simpa [round] using hget.symm
  intro m hm
  rw [hjk, add_sub_cancel_left] at hm
  have hmk : (m : Nat) < k := hm
  have hnot := hbefore m hmk
  simpa [round] using hnot

theorem probe_none (h : probe p cell i = none) (j : Fin n) : (cell j).all p = false := by
  have hj := List.find?_eq_none.mp h j (mem_round i j)
  simpa using hj

end probe

/-- There is no free slot between an entry and its home. -/
def Reached (home : α → Fin n) (cell : Fin n → Option α) : Prop :=
  ∀ j x, cell j = some x → ∀ m, m < j - home x → cell (home x + m) ≠ none

theorem reached_empty : Reached home fun _ => none := by
  intro j x hx
  cases hx

/-- A search that stops at a free slot has looked at every entry with the same home. -/
theorem probe_free [NeZero n] (hreach : Reached home cell) (h : probe p cell i = some j)
    (hj : cell j = none) {q : Fin n} (hx : cell q = some x) (hhome : home x = i) :
    p x = false := by
  obtain ⟨-, hbefore⟩ := probe_first h
  rcases lt_trichotomy (q - i) (j - i) with hlt | heq | hgt
  · have hq := hbefore (q - i) hlt
    rw [add_sub_cancel, hx] at hq
    simpa using hq
  · have hqj : q = j := sub_left_injective heq
    rw [hqj, hj] at hx
    cases hx
  · subst hhome
    have hsome := hreach q x hx (j - home x) hgt
    rw [add_sub_cancel] at hsome
    exact absurd hj hsome

/-- An entry is put where the search from its home found a free slot. -/
theorem Reached.fill [NeZero n] (hreach : Reached home cell) (h : probe p cell (home x) = some j)
    (hj : cell j = none) : Reached home (update cell j (some x)) := by
  intro q y hy
  refine slots_fill (P := fun q y => ∀ m, m < q - home y →
    update cell j (some x) (home y + m) ≠ none) ?_ ?_ q y hy
  · intro m hm
    have hm' := (probe_first h).2 m hm
    have hne : home x + m ≠ j := by
      intro heq
      rw [heq, hj] at hm'
      cases hm'
    rw [update_of_ne hne]
    intro hnone
    rw [hnone] at hm'
    cases hm'
  · intro q y _ hy m hm
    by_cases heq : home y + m = j
    · rw [heq, update_self]
      exact Option.some_ne_none x
    · rw [update_of_ne heq]
      exact hreach q y hy m hm

/-- An entry is replaced by one with the same home. -/
theorem Reached.replace (hreach : Reached home cell) (hy : cell j = some y)
    (hhome : home x = home y) : Reached home (update cell j (some x)) := by
  have hsome : ∀ k, cell k ≠ none → update cell j (some x) k ≠ none := by
    intro k hk
    by_cases hkj : k = j
    · rw [hkj, update_self]
      exact Option.some_ne_none x
    · rwa [update_of_ne hkj]
  intro q z hz
  refine slots_fill (P := fun q z => ∀ m, m < q - home z →
    update cell j (some x) (home z + m) ≠ none) ?_ ?_ q z hz
  · intro m hm
    rw [hhome] at hm ⊢
    exact hsome _ (hreach j y hy m hm)
  · intro q z _ hz m hm
    exact hsome _ (hreach q z hz m hm)

/-! ### How full a table is -/

section filled

variable {ι : Type} [Fintype ι] {slot : ι → Option α} {k : ι}

/-- The number of entries. -/
def filled (slot : ι → Option α) : Nat := (Finset.univ.filter fun k => (slot k).isSome).card

theorem filled_empty : filled (fun _ : ι => (none : Option α)) = 0 := by
  simp [filled]

theorem filled_fill [DecidableEq ι] (hk : slot k = none) : filled (update slot k (some x)) = filled slot + 1 := by
  have hset : (Finset.univ.filter fun q => (update slot k (some x) q).isSome)
      = insert k (Finset.univ.filter fun q => (slot q).isSome) := by
    ext q
    by_cases hq : q = k
    · simp [hq]
    · simp [hq]
  rw [filled, hset, Finset.card_insert_of_notMem (by simp [hk]), filled]

theorem filled_replace [DecidableEq ι] (hk : slot k = some y) :
    filled (update slot k (some x)) = filled slot := by
  have hset : (Finset.univ.filter fun q => (update slot k (some x) q).isSome)
      = Finset.univ.filter fun q => (slot q).isSome := by
    ext q
    by_cases hq : q = k
    · simp [hq, hk]
    · simp [hq]
  rw [filled, hset, filled]

theorem filled_eq_length (cell : Fin n → Option α) :
    ((List.finRange n).filter fun k => (cell k).isSome).length = filled cell := by
  rw [filled, ← List.toFinset_finRange, ← List.toFinset_filter,
    List.toFinset_card_of_nodup ((List.nodup_finRange n).filter _)]

/-- A table that is not full has a free slot. -/
theorem exists_free (h : filled slot < Fintype.card ι) : ∃ k, slot k = none := by
  by_contra hall
  have hset : (Finset.univ.filter fun k => (slot k).isSome) = Finset.univ := by
    ext k
    simp only [Finset.mem_filter, Finset.mem_univ, true_and, iff_true]
    exact Option.isSome_iff_ne_none.mpr fun hk => hall ⟨k, hk⟩
  rw [filled, hset, Finset.card_univ] at h
  exact lt_irrefl _ h

end filled

/-- A search in a table that is not full stops. -/
theorem probe_stops [NeZero n] (h : filled cell < n) : ∃ j, probe p cell i = some j := by
  obtain ⟨k, hk⟩ : ∃ k, cell k = none := exists_free (by simpa using h)
  cases hprobe : probe p cell i with
  | some j => exact ⟨j, rfl⟩
  | none =>
      have hall := probe_none hprobe k
      rw [hk] at hall
      cases hall

end Vere.Lib
