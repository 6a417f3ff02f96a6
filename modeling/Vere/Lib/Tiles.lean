import Mathlib.Data.Finset.Max
import Mathlib.Tactic.Common

/-!
# Vere.Lib.Tiles

A region of addresses cut into blocks that meet end to end.

`Tiling siz lo hi B` says that the blocks that start at the addresses `B`, each of the
length `siz` gives it, fill the region from `lo` to `hi` without a gap or an overlap.
The rules say what the operations of an allocator with boundary tags do to a tiling:
a block is added at the end or taken off it, cut in two, or joined with the next one.
`Tiling.tiles` gives the same blocks as a list in address order.
-/

namespace Vere.Lib

/-- The blocks at `B`, with lengths `siz`, fill the region from `lo` to `hi`. -/
structure Tiling (siz : Nat → Nat) (lo hi : Nat) (B : Finset Nat) : Prop where
  first : lo = hi ∨ lo ∈ B
  low : ∀ {a}, a ∈ B → lo ≤ a
  pos : ∀ {a}, a ∈ B → 0 < siz a
  high : ∀ {a}, a ∈ B → a + siz a ≤ hi
  next : ∀ {a}, a ∈ B → a + siz a = hi ∨ a + siz a ∈ B
  apart : ∀ {a b}, a ∈ B → b ∈ B → a < b → a + siz a ≤ b

/-- The blocks of a list, given by start and length, meet end to end from `lo` to `hi`. -/
def Tiles : Nat → List (Nat × Nat) → Nat → Prop
  | lo, [], hi => lo = hi
  | lo, b :: bs, hi => b.1 = lo ∧ 0 < b.2 ∧ Tiles (lo + b.2) bs hi

/-- Of two blocks side by side in the list, the second begins where the first ends. -/
theorem Tiles.adjacent {lo hi : Nat} {ps qs : List (Nat × Nat)} {b c : Nat × Nat}
    (h : Tiles lo (ps ++ b :: c :: qs) hi) : c.1 = b.1 + b.2 := by
  induction ps generalizing lo with
  | nil =>
    obtain ⟨hb, -, hc, -⟩ := h
    rw [hc, hb]
  | cons p ps ih => exact ih h.2.2

/-- The last block of the list ends where the region does. -/
theorem Tiles.last {lo hi : Nat} {ps : List (Nat × Nat)} {b : Nat × Nat}
    (h : Tiles lo (ps ++ [b]) hi) : b.1 + b.2 = hi := by
  induction ps generalizing lo with
  | nil =>
    obtain ⟨hb, -, hend⟩ := h
    rw [hb]
    exact hend
  | cons p ps ih => exact ih h.2.2

theorem Tiles.le {lo hi : Nat} {bs : List (Nat × Nat)} (h : Tiles lo bs hi) : lo ≤ hi := by
  induction bs generalizing lo with
  | nil => exact le_of_eq h
  | cons b bs ih => exact (Nat.le_add_right _ _).trans (ih h.2.2)

theorem Tiles.mem_le {lo hi : Nat} {bs : List (Nat × Nat)} (h : Tiles lo bs hi) {b : Nat × Nat}
    (hb : b ∈ bs) : b.1 + b.2 ≤ hi := by
  induction bs generalizing lo with
  | nil => simp at hb
  | cons c bs ih =>
    obtain ⟨hc, -, hbs⟩ := h
    rcases List.mem_cons.mp hb with rfl | hb
    · rw [hc]
      exact hbs.le
    · exact ih hbs hb

namespace Tiling

variable {siz siz' : Nat → Nat} {lo hi a b s : Nat} {B : Finset Nat}

theorem empty (siz : Nat → Nat) (lo : Nat) : Tiling siz lo lo ∅ where
  first := .inl rfl
  low h := by simp at h
  pos h := by simp at h
  high h := by simp at h
  next h := by simp at h
  apart h := by simp at h

theorem lo_le (h : Tiling siz lo hi B) : lo ≤ hi := by
  rcases h.first with he | hm
  · exact he.le
  · exact (Nat.le_add_right _ _).trans (h.high hm)

theorem lt_hi (h : Tiling siz lo hi B) (ha : a ∈ B) : a < hi := by
  have := h.high ha
  have := h.pos ha
  omega

theorem hi_notMem (h : Tiling siz lo hi B) : hi ∉ B :=
  fun hm => Nat.lt_irrefl _ (h.lt_hi hm)

/-- Two blocks are the same or one lies before the other. -/
theorem sides (h : Tiling siz lo hi B) (ha : a ∈ B) (hb : b ∈ B) :
    a = b ∨ a + siz a ≤ b ∨ b + siz b ≤ a := by
  rcases Nat.lt_trichotomy a b with hab | hab | hab
  · exact .inr (.inl (h.apart ha hb hab))
  · exact .inl hab
  · exact .inr (.inr (h.apart hb ha hab))

/-- A block is told by any address inside it. -/
theorem unique (h : Tiling siz lo hi B) (ha : a ∈ B) (hb : b ∈ B) {w : Nat} (hwa : a ≤ w)
    (hwa' : w < a + siz a) (hwb : b ≤ w) (hwb' : w < b + siz b) : a = b := by
  rcases h.sides ha hb with he | he | he <;> omega

theorem congr (h : Tiling siz lo hi B) (hs : ∀ a ∈ B, siz' a = siz a) : Tiling siz' lo hi B where
  first := h.first
  low := h.low
  pos ha := by rw [hs _ ha]; exact h.pos ha
  high ha := by rw [hs _ ha]; exact h.high ha
  next ha := by rw [hs _ ha]; exact h.next ha
  apart ha hb hab := by rw [hs _ ha]; exact h.apart ha hb hab

/-- A block added at the end. -/
theorem extend (h : Tiling siz lo hi B) (hs : ∀ a ∈ B, siz' a = siz a) (hpos : 0 < siz' hi) :
    Tiling siz' lo (hi + siz' hi) (insert hi B) where
  first := by
    right
    rcases h.first with he | hm
    · exact he ▸ Finset.mem_insert_self _ _
    · exact Finset.mem_insert_of_mem hm
  low ha := by
    rcases Finset.mem_insert.mp ha with rfl | ha
    · exact h.lo_le
    · exact h.low ha
  pos ha := by
    rcases Finset.mem_insert.mp ha with rfl | ha
    · exact hpos
    · rw [hs _ ha]
      exact h.pos ha
  high ha := by
    rcases Finset.mem_insert.mp ha with rfl | ha
    · exact le_rfl
    · rw [hs _ ha]
      exact (h.high ha).trans (Nat.le_add_right _ _)
  next ha := by
    rcases Finset.mem_insert.mp ha with rfl | ha
    · exact .inl rfl
    · rw [hs _ ha]
      exact .inr (Finset.mem_insert.mpr (h.next ha))
  apart ha' hb' hab := by
    rcases Finset.mem_insert.mp ha' with rfl | ha <;> rcases Finset.mem_insert.mp hb' with rfl | hb
    · omega
    · have := h.lt_hi hb
      omega
    · rw [hs _ ha]
      exact h.high ha
    · rw [hs _ ha]
      exact h.apart ha hb hab

/-- The last block taken off the end. -/
theorem retract (h : Tiling siz lo hi B) (ha : a ∈ B) (hlast : a + siz a = hi) :
    Tiling siz lo a (B.erase a) where
  first := by
    rcases h.first with he | hm
    · have := h.lt_hi ha
      have := h.low ha
      omega
    · by_cases hl : lo = a
      · exact .inl hl
      · exact .inr (Finset.mem_erase.mpr ⟨hl, hm⟩)
  low hb := h.low (Finset.mem_of_mem_erase hb)
  pos hb := h.pos (Finset.mem_of_mem_erase hb)
  high hb := by
    obtain ⟨hne, hb⟩ := Finset.mem_erase.mp hb
    have := h.lt_hi hb
    rcases h.sides hb ha with he | he | he
    · exact absurd he hne
    · exact he
    · omega
  next {b} hb := by
    obtain ⟨hne, hb⟩ := Finset.mem_erase.mp hb
    have hlt := h.lt_hi ha
    have hpos := h.pos ha
    rcases h.next hb with he | hm
    · rcases h.sides hb ha with he' | he' | he'
      · exact absurd he' hne
      · omega
      · have := h.lt_hi hb
        omega
    · by_cases he : b + siz b = a
      · exact .inl he
      · exact .inr (Finset.mem_erase.mpr ⟨he, hm⟩)
  apart hb hc := h.apart (Finset.mem_of_mem_erase hb) (Finset.mem_of_mem_erase hc)

/-- A block cut in two. -/
theorem split (h : Tiling siz lo hi B) (ha : a ∈ B) (hs : ∀ b ∈ B, b ≠ a → siz' b = siz b)
    (hlo : 0 < siz' a) (hlt : siz' a < siz a) (hend : siz' (a + siz' a) = siz a - siz' a) :
    Tiling siz' lo hi (insert (a + siz' a) B) where
  first := h.first.imp_right Finset.mem_insert_of_mem
  low hb := by
    rcases Finset.mem_insert.mp hb with rfl | hb
    · exact (h.low ha).trans (Nat.le_add_right _ _)
    · exact h.low hb
  pos {b} hb := by
    rcases Finset.mem_insert.mp hb with rfl | hb
    · omega
    · by_cases he : b = a
      · exact he ▸ hlo
      · exact hs b hb he ▸ h.pos hb
  high {b} hb := by
    have := h.high ha
    rcases Finset.mem_insert.mp hb with rfl | hb
    · omega
    · by_cases he : b = a
      · subst he
        omega
      · exact hs b hb he ▸ h.high hb
  next {b} hb := by
    rcases Finset.mem_insert.mp hb with rfl | hb
    · have : a + siz' a + siz' (a + siz' a) = a + siz a := by omega
      rw [this]
      exact (h.next ha).imp_right Finset.mem_insert_of_mem
    · by_cases he : b = a
      · subst he
        exact .inr (Finset.mem_insert_self _ _)
      · rw [hs b hb he]
        exact (h.next hb).imp_right Finset.mem_insert_of_mem
  apart {b c} hb' hc' hbc := by
    have hside : ∀ d ∈ B, d ≠ a → d + siz d ≤ a ∨ a + siz a ≤ d := fun d hd hne =>
      (h.sides hd ha).resolve_left hne
    rcases Finset.mem_insert.mp hb' with rfl | hb <;> rcases Finset.mem_insert.mp hc' with rfl | hc
    · omega
    · have := hside c hc (by omega)
      omega
    · by_cases he : b = a
      · subst he
        omega
      · rw [hs b hb he]
        have := hside b hb he
        omega
    · by_cases he : b = a
      · subst he
        have := h.apart hb hc hbc
        omega
      · rw [hs b hb he]
        exact h.apart hb hc hbc

/-- A block joined with the next one. -/
theorem merge (h : Tiling siz lo hi B) (ha : a ∈ B) (hb : a + siz a ∈ B)
    (hs : ∀ c ∈ B, c ≠ a → c ≠ a + siz a → siz' c = siz c)
    (hsum : siz' a = siz a + siz (a + siz a)) : Tiling siz' lo hi (B.erase (a + siz a)) where
  first := by
    have := h.pos ha
    have := h.low ha
    refine h.first.imp_right fun hm => Finset.mem_erase.mpr ⟨?_, hm⟩
    omega
  low hc := h.low (Finset.mem_of_mem_erase hc)
  pos {c} hc := by
    obtain ⟨hne, hc⟩ := Finset.mem_erase.mp hc
    by_cases he : c = a
    · subst he
      have := h.pos ha
      omega
    · exact hs c hc he hne ▸ h.pos hc
  high {c} hc := by
    obtain ⟨hne, hc⟩ := Finset.mem_erase.mp hc
    by_cases he : c = a
    · subst he
      have := h.high hb
      omega
    · exact hs c hc he hne ▸ h.high hc
  next {c} hc := by
    obtain ⟨hne, hc⟩ := Finset.mem_erase.mp hc
    have hpos := h.pos hb
    by_cases he : c = a
    · subst he
      rw [hsum, ← Nat.add_assoc]
      refine (h.next hb).imp_right fun hm => Finset.mem_erase.mpr ⟨?_, hm⟩
      omega
    · rw [hs c hc he hne]
      refine (h.next hc).imp_right fun hm => Finset.mem_erase.mpr ⟨?_, hm⟩
      intro heq
      have := h.pos hc
      have := h.pos ha
      rcases h.sides hc ha with h' | h' | h' <;> omega
  apart {c d} hc' hd' hcd := by
    obtain ⟨hne, hc⟩ := Finset.mem_erase.mp hc'
    obtain ⟨hnd, hd⟩ := Finset.mem_erase.mp hd'
    by_cases he : c = a
    · subst he
      have := h.apart hc hd hcd
      rcases h.sides hb hd with h' | h' | h'
      · exact absurd h'.symm hnd
      · omega
      · have := h.pos hd
        omega
    · rw [hs c hc he hne]
      exact h.apart hc hd hcd

/-- Every block but the first begins where another one ends. -/
theorem prev (h : Tiling siz lo hi B) (hb : b ∈ B) (hne : b ≠ lo) : ∃ a ∈ B, a + siz a = b := by
  -- of the blocks below `b`, the last one
  have hlo : lo ∈ B := by
    refine h.first.resolve_left fun he => ?_
    have := h.low hb
    have := h.lt_hi hb
    omega
  obtain ⟨a, ha, hmax⟩ := (B.filter (· < b)).exists_max_image id
    ⟨lo, Finset.mem_filter.mpr ⟨hlo, lt_of_le_of_ne (h.low hb) (Ne.symm hne)⟩⟩
  obtain ⟨ha, hab⟩ := Finset.mem_filter.mp ha
  refine ⟨a, ha, le_antisymm (h.apart ha hb hab) (Nat.le_of_not_lt fun hlt => ?_)⟩
  have hpos := h.pos ha
  rcases h.next ha with he | hm
  · have := h.lt_hi hb
    omega
  · have := hmax _ (Finset.mem_filter.mpr ⟨hm, hlt⟩)
    simp only [id] at this
    omega

/-- The blocks from `p` on, in address order. -/
theorem tilesFrom (h : Tiling siz lo hi B) (n : Nat) {p : Nat} (hp : p = hi ∨ p ∈ B)
    (hn : hi - p ≤ n) : ∃ bs : List (Nat × Nat), Tiles p bs hi ∧
      ∀ c, c ∈ bs ↔ c.1 ∈ B ∧ p ≤ c.1 ∧ c.2 = siz c.1 := by
  induction n generalizing p with
  | zero =>
    have hpe : p = hi := hp.resolve_right fun hm => by
      have := h.lt_hi hm
      omega
    refine ⟨[], hpe, fun c => ?_⟩
    have := @lt_hi siz lo hi c.1 B h
    simp only [List.not_mem_nil, false_iff]
    rintro ⟨hc, hle, -⟩
    have := this hc
    omega
  | succ n ih =>
    by_cases hm : p ∈ B
    · have hpos := h.pos hm
      obtain ⟨bs, hbs, hmem⟩ := @ih (p + siz p) (h.next hm) (by omega)
      refine ⟨(p, siz p) :: bs, ⟨rfl, hpos, hbs⟩, fun c => ?_⟩
      rw [List.mem_cons, hmem]
      constructor
      · rintro (rfl | ⟨hc, hle, hs⟩)
        · exact ⟨hm, le_rfl, rfl⟩
        · exact ⟨hc, by omega, hs⟩
      · rintro ⟨hc, hle, hs⟩
        by_cases he : c.1 = p
        · exact .inl (Prod.ext he (by rw [hs, he]))
        · exact .inr ⟨hc, h.apart hm hc (by omega), hs⟩
    · have hpe := hp.resolve_right hm
      refine ⟨[], hpe, fun c => ?_⟩
      have := @lt_hi siz lo hi c.1 B h
      simp only [List.not_mem_nil, false_iff]
      rintro ⟨hc, hle, -⟩
      have := this hc
      omega

/-- The blocks in address order. -/
theorem tiles (h : Tiling siz lo hi B) : ∃ bs : List (Nat × Nat), Tiles lo bs hi ∧
    ∀ c, c ∈ bs ↔ c.1 ∈ B ∧ c.2 = siz c.1 := by
  obtain ⟨bs, hbs, hmem⟩ := h.tilesFrom (hi - lo) h.first le_rfl
  refine ⟨bs, hbs, fun c => (hmem c).trans ⟨fun hc => ⟨hc.1, hc.2.2⟩, fun hc => ⟨hc.1, ?_, hc.2⟩⟩⟩
  exact h.low hc.1

end Tiling

end Vere.Lib
