import Vere.Hoon.Pack

/-!
# Vere.Pack.Code

The self-delimiting code of an atom: what `++mat` writes, `++rub` reads.

A nonzero atom `a` of `b` bits, where `b` itself has `c` bits, is coded by `c`
zeros and a one, the low `c - 1` bits of `b` (its top bit is known to be set),
and the `b` bits of `a`. The two facts used elsewhere are that the code fills
its width exactly (`size_mat`), so that concatenation by length loses nothing,
and that `++rub` at any position where the code stands gives the atom and the
width back (`rub_of_field`).
-/

namespace Vere.Pack

open Vere.Lib Vere.Hoon

/-! ### The shape of a code -/

theorem mat_zero : mat 0 = (1, 1) := if_pos rfl

/-- The code of a nonzero atom, as a sum of its parts. -/
theorem mat_pos {a : Nat} (h : 0 < a) :
    mat a = (a.size.size + a.size.size + a.size,
      2 ^ a.size.size + 2 ^ (a.size.size + 1) *
        (a.size % 2 ^ (a.size.size - 1) + 2 ^ (a.size.size - 1) * a)) := by
  have hlo : a.size % 2 ^ (a.size.size - 1) < 2 ^ (a.size.size - 1) :=
    Nat.mod_lt _ (Nat.two_pow_pos _)
  rw [mat, if_neg (Nat.ne_of_gt h)]
  simp only [met_zero, bex_eq, end_zero, lsh_zero, mix_eq, cat_zero, Nat.size_pow]
  rw [xor_shift hlo]

theorem size_size_pos {a : Nat} (h : 0 < a) : 0 < a.size.size :=
  Nat.size_pos.mpr (Nat.size_pos.mpr h)

/-- The value part of a code is nonzero. -/
theorem mat_snd_pos (a : Nat) : 0 < (mat a).2 := by
  rcases Nat.eq_zero_or_pos a with rfl | h
  · rw [mat_zero]
    exact Nat.one_pos
  · rw [mat_pos h]
    exact Nat.add_pos_left (Nat.two_pow_pos _) _

/-- A code fills its width: its top bit is set. -/
theorem size_mat (a : Nat) : (mat a).2.size = (mat a).1 := by
  rcases Nat.eq_zero_or_pos a with rfl | h
  · rw [mat_zero]
    exact Nat.size_one
  · have hc := size_size_pos h
    have hlo : a.size % 2 ^ (a.size.size - 1) < 2 ^ (a.size.size - 1) :=
      Nat.mod_lt _ (Nat.two_pow_pos _)
    have hmid : 0 < a.size % 2 ^ (a.size.size - 1) + 2 ^ (a.size.size - 1) * a :=
      Nat.add_pos_right _ (Nat.mul_pos (Nat.two_pow_pos _) h)
    have hone : 2 ^ a.size.size < 2 ^ (a.size.size + 1) :=
      Nat.pow_lt_pow_right (by decide) (Nat.lt_succ_self _)
    rw [mat_pos h]
    simp only
    rw [size_add_mul hone hmid, size_add_mul hlo h]
    omega

theorem mat_snd_lt (a : Nat) : (mat a).2 < 2 ^ (mat a).1 := by
  rw [← size_mat]
  exact Nat.lt_size_self _

/-! ### Counting zeros -/

/-- A field that is zero has only zero bits. -/
theorem bit_of_field_eq_zero {s b c i : Nat} (h : field s b c = 0) (hi : i < c) :
    field s (b + i) 1 = 0 := by
  have h1 : field s b (i + 1) = 0 + 2 ^ i * 0 := by
    rw [field_initial h hi, Nat.zero_mod]
    rfl
  exact (field_split h1 (Nat.two_pow_pos i)).2

/-- The loop stops at the first set bit, if that is within its bound. -/
theorem rubLoop_of_bits {a b m c : Nat} (hset : field b (a + c) 1 ≠ 0) (hm : c ≤ m) :
    ∀ k, k ≤ c → (∀ i, k ≤ i → i < c → field b (a + i) 1 = 0) →
      rubLoop a b m k = some c := by
  intro k hk hz
  -- downwards from the set bit
  induction hk using Nat.decreasingInduction with
  | self =>
      rw [rubLoop, if_neg (Nat.not_lt.mpr hm), cut_zero, if_pos hset]
  | of_succ k hk ih =>
      have hbit : field b (a + k) 1 = 0 := hz k (Nat.le_refl k) hk
      rw [rubLoop, if_neg (by omega), cut_zero, if_neg (fun h => h hbit)]
      exact ih fun i hi => hz i (Nat.le_of_succ_le hi)

/-- The parts of the code of a nonzero atom `x` in a stream `s` at `b`: as many zeros as the
length of its length, a one, the length without its top bit, the atom. -/
structure CodeAt (s b x : Nat) : Prop where
  zeros : ∀ i < x.size.size, field s (b + i) 1 = 0
  one : field s (b + x.size.size) 1 = 1
  length : field s (b + (x.size.size + 1)) (x.size.size - 1) = x.size % 2 ^ (x.size.size - 1)
  value : field s (b + (x.size.size + 1) + (x.size.size - 1)) x.size = x

/-- The length has its top bit set. -/
theorem length_eq {x : Nat} (h : 0 < x) :
    2 ^ (x.size.size - 1) + x.size % 2 ^ (x.size.size - 1) = x.size :=
  mod_two_pow_size_pred (Nat.size_pos.mpr h)

theorem codeAt_of_field {s b x : Nat} (hx : 0 < x) (h : field s b (mat x).1 = (mat x).2) :
    CodeAt s b x := by
  have hc := size_size_pos hx
  rw [mat_pos hx] at h
  generalize hcc : x.size.size = c at *
  simp only at h
  have hw : c + c + x.size = (c + 1) + ((c - 1) + x.size) := by omega
  have hone : 2 ^ c < 2 ^ (c + 1) := Nat.pow_lt_pow_right (by decide) (Nat.lt_succ_self _)
  rw [hw] at h
  obtain ⟨hun, hrest⟩ := field_split h hone
  have hlo : x.size % 2 ^ (c - 1) < 2 ^ (c - 1) := Nat.mod_lt _ (Nat.two_pow_pos _)
  obtain ⟨hlen, hval⟩ := field_split hrest hlo
  have hun' : field s b (c + 1) = 0 + 2 ^ c * 1 := by rw [hun]; ring
  obtain ⟨hzero, hset⟩ := field_split hun' (Nat.two_pow_pos c)
  subst hcc
  exact ⟨fun i hi => bit_of_field_eq_zero hzero hi, hset, hlen, hval⟩

/-- `++rub` where a code stands: the atom and the width of its code. -/
theorem rub_of_field {s b x : Nat} (h : field s b (mat x).1 = (mat x).2) :
    rub b s = some ((mat x).1, x) := by
  rcases Nat.eq_zero_or_pos x with rfl | hx
  · rw [mat_zero] at h ⊢
    have hset : field s (b + 0) 1 ≠ 0 := by
      rw [Nat.add_zero, h]
      exact Nat.one_ne_zero
    have hloop : rubLoop b s (met 0 s) 0 = some 0 :=
      rubLoop_of_bits hset (Nat.zero_le _) 0 (Nat.le_refl 0) fun i _ hi =>
        absurd hi (Nat.not_lt_zero i)
    rw [rub, hloop]
    rfl
  · have hcode := codeAt_of_field hx h
    have hset : field s (b + x.size.size) 1 ≠ 0 := by
      rw [hcode.one]
      exact Nat.one_ne_zero
    have hm : x.size.size ≤ met 0 s := by
      have hlt := lt_size_of_field_ne_zero hset
      rw [met_zero]
      omega
    have hloop : rubLoop b s (met 0 s) 0 = some x.size.size :=
      rubLoop_of_bits hset hm 0 (Nat.zero_le _) fun i _ hi => hcode.zeros i hi
    rw [rub, hloop, mat_pos hx]
    simp only [Option.bind_eq_bind, Option.bind_some,
      if_neg (Nat.ne_of_gt (size_size_pos hx)), bex_eq, cut_zero, Option.pure_def]
    rw [hcode.length, length_eq hx, hcode.value]

end Vere.Pack
