import Vere.Jets.Bloq

/-!
# Vere.Jets.Join

Taking apart and putting together, as the jets do it one after the other.

The blocks of an atom come together again in the jets as well (`rip`, then `can` with widths of
one or `rap`), and so do the blocks of a list, while the slab for them does not wrap. `cut` is
`rsh` and then `end`, but that it returns an atom whole where `rsh` has no slab for it, and that
it counts no further than a direct atom.
-/

namespace Vere.Jets

open Vere.Lib

/-- `can` with every element given width 1. -/
def join (a : Nat) (l : List Nat) : Jet Nat := can a (l.map fun q => (1, q))

/-- Two jets return the same, where neither bails. -/
def Agree {α : Type} (r s : Jet α) : Prop := ∃ v, Right r v ∧ Right s v

theorem Agree.of_eq {α : Type} {r s : Jet α} {v w : α} (hr : r = .ok v) (hs : s = .ok w) :
    Agree r s ↔ v = w := by
  constructor
  · rintro ⟨u, hu, hu'⟩
    rw [Right.ok hr] at hu
    rw [Right.ok hs] at hu'
    rw [hu, hu']
  · rintro rfl
    exact ⟨v, .inl hr, .inl hs⟩

theorem width_ones (l : List Nat) : width (l.map fun q => (1, q)) = l.length := by
  induction l with
  | nil => rfl
  | cons q l ih => rw [List.map_cons, width_cons, ih, List.length_cons, Nat.add_comm]

theorem ones_cats (l : List Nat) : ∀ x ∈ l.map fun q => (1, q), isCat x.1 = true := by
  intro x hx
  obtain ⟨q, -, rfl⟩ := List.mem_map.mp hx
  rfl

theorem join_eq {a : Nat} {l : List Nat} (ha : a < 32) (hroom : Roomy a l.length) :
    join a l = .ok (Hoon.join a l) :=
  can_eq ha (ones_cats l) (by rwa [width_ones])

theorem join_over {a : Nat} {l : List Nat} (ha : a < 32) (hlt : l.length < 2 ^ 32)
    (hroom : ¬Roomy a l.length) : join a l = .error .fault :=
  can_over ha (ones_cats l) (by rwa [width_ones]) (by rwa [width_ones])

theorem join_fail {a : Nat} {l : List Nat} (ha : a < 32) (hle : 2 ^ 32 ≤ l.length) :
    join a l = .error .fail :=
  can_fail ha fun h => Nat.not_lt_of_le hle (by rw [← width_ones]; exact h.2)

theorem rip_fail {a : Nat} (ha : 32 ≤ a) (b : Nat) : rip a b = .error .fail := by
  rw [rip, if_pos ((guard_iff a).mpr ha)]

theorem InLoom.mono {b c : Nat} (h : c ≤ b) (hb : InLoom b) : InLoom c := by
  have hsize := Nat.size_le_size h
  rw [InLoom, wordLen] at *
  omega

theorem mem_rip_le {a b q : Nat} (h : q ∈ Hoon.rip a b) : q ≤ b := by
  rw [Hoon.rip_eq_map] at h
  obtain ⟨i, -, rfl⟩ := List.mem_map.mp h
  exact (Nat.mod_le _ _).trans (Nat.div_le_self _ _)

/-- The blocks of an atom that hold something have one block each. -/
theorem width_own_rip {a x : Nat} (h : ∀ q ∈ Hoon.rip a x, q ≠ 0) :
    width (own a (Hoon.rip a x)) = Hoon.met a x := by
  have hones : own a (Hoon.rip a x) = (Hoon.rip a x).map fun q => (1, q) :=
    List.map_congr_left fun q hq => by rw [Hoon.met_block (h q hq) (Hoon.rip_lt hq)]
  rw [hones, width_ones, Hoon.length_rip]

/-- `rip`, then `can`. -/
theorem join_rip_right {a x : Nat} (hx : InLoom x) :
    Right (rip a x >>= join a) x ↔ 32 ≤ a ∨ Roomy a (Hoon.met a x) := by
  by_cases ha : 32 ≤ a
  · exact iff_of_true (Right.fail _ (by rw [rip_fail ha]; rfl)) (.inl ha)
  have ha' : a < 32 := Nat.lt_of_not_le ha
  have hlen := Hoon.length_rip a x
  have hrun : (rip a x >>= join a) = join a (Hoon.rip a x) := by rw [rip_eq ha' hx]; rfl
  rw [hrun, ← hlen]
  by_cases hroom : Roomy a (Hoon.rip a x).length
  · refine iff_of_true (.inl ?_) (.inr hroom)
    rw [join_eq ha' hroom, Hoon.join_rip]
  · refine iff_of_false (Right.fault (join_over ha' ?_ hroom)) (by simp [ha, hroom])
    rw [hlen]
    exact met_lt ha' hx

/-- `rip`, then `rap`. -/
theorem rap_rip_right {a x : Nat} (hx : InLoom x) (h : ∀ q ∈ Hoon.rip a x, q ≠ 0) :
    Right (rip a x >>= rap a) x ↔ 32 ≤ a ∨ Roomy a (Hoon.met a x) := by
  by_cases ha : 32 ≤ a
  · exact iff_of_true (Right.fail _ (by rw [rip_fail ha]; rfl)) (.inl ha)
  have ha' : a < 32 := Nat.lt_of_not_le ha
  have hrun : (rip a x >>= rap a) = rap a (Hoon.rip a x) := by rw [rip_eq ha' hx]; rfl
  have hiff := rap_right a fun q hq => hx.mono (mem_rip_le (a := a) hq)
  have hlt := met_lt ha' hx
  rw [Hoon.rap_rip h, width_own_rip h] at hiff
  rw [hrun, hiff]
  simp only [ha, false_or]
  exact ⟨fun hor => hor.resolve_left (by omega), .inr⟩

/-- `can`, then `rip`. -/
theorem rip_join_right {a : Nat} {l : List Nat} (hlt : ∀ q ∈ l, q < 2 ^ 2 ^ a)
    (hlast : ∀ h : l ≠ [], l.getLast h ≠ 0) :
    Right (join a l >>= rip a) l ↔ 32 ≤ a ∨ 2 ^ 32 ≤ l.length ∨ Roomy a l.length := by
  by_cases ha : 32 ≤ a
  · refine iff_of_true (Right.fail _ ?_) (.inl ha)
    rw [join, can, if_pos ((guard_iff a).mpr ha)]
    rfl
  have ha' : a < 32 := Nat.lt_of_not_le ha
  by_cases hlong : 2 ^ 32 ≤ l.length
  · exact iff_of_true (Right.fail _ (by rw [join_fail ha' hlong]; rfl)) (.inr (.inl hlong))
  by_cases hroom : Roomy a l.length
  · have hmet : Hoon.met a (Hoon.join a l) = l.length := by
      rw [← Hoon.length_rip, Hoon.rip_join hlt hlast]
    have hloom : InLoom (Hoon.join a l) := by
      have hsize : (Hoon.join a l).size ≤ l.length * 2 ^ a := met_le'.mp hmet.le
      rw [Roomy] at hroom
      rw [InLoom, wordLen]
      omega
    refine iff_of_true (.inl ?_) (.inr (.inr hroom))
    rw [join_eq ha' hroom]
    exact (rip_eq ha' hloom).trans (by rw [Hoon.rip_join hlt hlast])
  · refine iff_of_false (Right.fault ?_) (by simp only [ha, hlong, hroom, or_self,
      not_false_eq_true])
    rw [join_over ha' (Nat.lt_of_not_le hlong) hroom]
    rfl

theorem end_of_not_cat {a n c : Nat} (ha : a < 32) (hn : isCat n = false) :
    «end» a n c = .ok c := by
  rw [«end», if_neg (by rw [guard_iff]; omega), if_pos (by simp [hn])]

theorem end_of_zero {a : Nat} (ha : a < 32) (n : Nat) : «end» a n 0 = .ok 0 := by
  cases hn : isCat n with
  | false => exact end_of_not_cat ha hn
  | true =>
      have hloom : InLoom 0 := by simp [InLoom, wordLen]
      rw [end_eq ha hn hloom, hoon_end_eq, field_of_zero]

/-- A field that is all there is above its place. -/
theorem field_eq_div_iff {s b p : Nat} : field s b p = s / 2 ^ b ↔ s.size ≤ b + p := by
  refine ⟨fun h => ?_, field_clip⟩
  have hlt := field_lt s b p
  rw [h, Nat.div_lt_iff_lt_mul (Nat.two_pow_pos b), ← Nat.pow_add, Nat.add_comm] at hlt
  exact Nat.size_le.mpr hlt

/-- `cut`, and `rsh` and then `end`, from a block that is a direct atom and inside. -/
theorem cut_agree_inside {a i x : Nat} (ha : a < 32) (n : Nat) (hx : InLoom x)
    (hi : isCat i = true) (hlt : i < Hoon.met a x) :
    Agree (cut a i n x) (rsh a i x >>= «end» a n) ↔
      Roomy a (Hoon.met a x - i) ∧ (isCat n = true ∨ Hoon.met a x ≤ i + 0x7fffffff) := by
  by_cases hroom : Roomy a (Hoon.met a x - i)
  swap
  · have hfault : (rsh a i x >>= «end» a n) = .error .fault := by
      rw [rsh_over ha hi hx hlt hroom]
      rfl
    exact iff_of_false (fun ⟨v, _, hv⟩ => Right.fault hfault hv) fun h => hroom h.1
  have hrsh : (rsh a i x >>= «end» a n) = «end» a n (x / 2 ^ (i * 2 ^ a)) := by
    rw [rsh_eq ha hi hx (.inr hroom), hoon_rsh_eq]
    rfl
  have hcut := cut_span ha hi hx n
  cases hn : isCat n with
  | true =>
      have hend : «end» a n (x / 2 ^ (i * 2 ^ a)) = .ok (field x (i * 2 ^ a) (n * 2 ^ a)) := by
        rw [end_eq ha hn (hx.mono (Nat.div_le_self _ _)), hoon_end_eq, field, field, Nat.pow_zero,
          Nat.div_one]
      rw [cutSpan, if_pos hn] at hcut
      exact iff_of_true ((Agree.of_eq hcut (hrsh.trans hend)).mpr rfl) ⟨hroom, .inl rfl⟩
  | false =>
      rw [cutSpan, if_neg (by simp [hn])] at hcut
      rw [Agree.of_eq hcut (hrsh.trans (end_of_not_cat ha hn)), field_eq_div_iff, ← Nat.add_mul,
        ← met_le']
      simp [hroom]

/-- `cut`, and `rsh` and then `end`. -/
theorem cut_agree {a x : Nat} (i n : Nat) (hx : InLoom x) :
    Agree (cut a i n x) (rsh a i x >>= «end» a n) ↔
      32 ≤ a ∨ isCat i = false ∨ Hoon.met a x ≤ i
        ∨ (Roomy a (Hoon.met a x - i)
          ∧ (isCat n = true ∨ Hoon.met a x ≤ i + 0x7fffffff)) := by
  by_cases ha : 32 ≤ a
  · refine iff_of_true ⟨0, Right.fail _ ?_, Right.fail _ ?_⟩ (.inl ha)
    · rw [cut, if_pos ((guard_iff a).mpr ha)]
    · rw [rsh, if_pos ((guard_iff a).mpr ha)]
      rfl
  have ha' : a < 32 := Nat.lt_of_not_le ha
  cases hi : isCat i with
  | false =>
      have hcut : cut a i n x = .ok 0 := by
        rw [cut, if_neg (by rwa [guard_iff]), if_pos (by simp [hi])]
      have hrsh : (rsh a i x >>= «end» a n) = .ok 0 := by
        rw [rsh, if_neg (by rwa [guard_iff]), if_pos (by simp [hi])]
        exact end_of_zero ha' n
      exact iff_of_true ((Agree.of_eq hcut hrsh).mpr rfl) (.inr (.inl rfl))
  | true =>
      by_cases hlen : Hoon.met a x ≤ i
      · have hcut : cut a i n x = .ok 0 := by
          rw [cut_span ha' hi hx, field_of_size_le (met_le'.mp hlen)]
        have hrsh : (rsh a i x >>= «end» a n) = .ok 0 := by
          rw [rsh_eq ha' hi hx (.inl hlen), hoon_rsh_eq,
            Nat.div_eq_of_lt (Nat.size_le.mp (met_le'.mp hlen))]
          exact end_of_zero ha' n
        exact iff_of_true ((Agree.of_eq hcut hrsh).mpr rfl) (.inr (.inr (.inl hlen)))
      · rw [cut_agree_inside ha' n hx hi (Nat.lt_of_not_le hlen)]
        simp [ha, hlen]

/-- Splitting and joining. The arms are inverse to each other on every atom and every list of
blocks that ends in one that is not zero, and `++cut` is `++rsh` and then `++end`. The jets are,
where they do not bail, unless a slab wraps, or `end` is given a count past the direct atoms
where `cut` stops. -/
theorem split_join {a x i n : Nat} {l : List Nat} (hx : InLoom x) (hlt : ∀ q ∈ l, q < 2 ^ 2 ^ a)
    (hlast : ∀ h : l ≠ [], l.getLast h ≠ 0) :
    (Hoon.join a (Hoon.rip a x) = x ∧
      ((∀ q ∈ Hoon.rip a x, q ≠ 0) → Hoon.rap a (Hoon.rip a x) = x) ∧
      Hoon.rip a (Hoon.join a l) = l ∧
      Hoon.cut a i n x = Hoon.«end» a n (Hoon.rsh a i x)) ∧
    (Right (rip a x >>= join a) x ↔ 32 ≤ a ∨ Roomy a (Hoon.met a x)) ∧
    ((∀ q ∈ Hoon.rip a x, q ≠ 0) →
      (Right (rip a x >>= rap a) x ↔ 32 ≤ a ∨ Roomy a (Hoon.met a x))) ∧
    (Right (join a l >>= rip a) l ↔ 32 ≤ a ∨ 2 ^ 32 ≤ l.length ∨ Roomy a l.length) ∧
    (Agree (cut a i n x) (rsh a i x >>= «end» a n) ↔
      32 ≤ a ∨ isCat i = false ∨ Hoon.met a x ≤ i
        ∨ (Roomy a (Hoon.met a x - i)
          ∧ (isCat n = true ∨ Hoon.met a x ≤ i + 0x7fffffff))) :=
  ⟨⟨Hoon.join_rip a x, Hoon.rap_rip, Hoon.rip_join hlt hlast, rfl⟩, join_rip_right hx,
    rap_rip_right hx, rip_join_right hlt hlast, cut_agree i n hx⟩

theorem split_join_bytes : Right (join 3 [1, 2] >>= rip 3) [1, 2] :=
  (split_join (a := 3) (x := 1) (i := 0) (n := 0) inLoom_one (l := [1, 2]) (by decide)
    (by decide)).2.2.2.1.mpr (.inr (.inr (by decide)))

/-- Two blocks of `2^31` bits: the slab for them has no words. -/
theorem not_rip_join : ¬Right (join 31 [0, 1] >>= rip 31) [0, 1] := by
  have hover : join 31 [0, 1] = .error .fault := join_over (by decide) (by decide) (by decide)
  rw [hover]
  exact Right.fault rfl

end Vere.Jets
