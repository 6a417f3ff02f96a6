import Vere.Jets.PackSpec

/-!
# Vere.Jets.Rub

Codes of atoms inside a longer stream.

`++rub` finds the atom of a code wherever the code stands (`rub_of_field`), and the jet agrees
with it on streams of fewer than `2^31` bits (`rub_eq`). A longer stream has a length that is no
direct atom, and `rub` hands it on as one.
-/

namespace Vere.Jets

open Vere.Lib Vere.Pack

/-- A stream with the code of `x` between the `s` bits of `lo` and the bits of `hi`. -/
def stream (s lo x hi : Nat) : Nat :=
  lo + (Hoon.mat x).2 * 2 ^ s + hi * 2 ^ (s + (Hoon.mat x).1)

theorem field_stream {s lo : Nat} (h : lo.size ≤ s) (x hi : Nat) :
    field (stream s lo x hi) s (Hoon.mat x).1 = (Hoon.mat x).2 := by
  have hsum : stream s lo x hi
      = lo + 2 ^ s * ((Hoon.mat x).2 + 2 ^ (Hoon.mat x).1 * hi) := by
    rw [stream, Nat.pow_add]
    ring
  rw [hsum, field, Nat.add_mul_div_left _ _ (Nat.two_pow_pos s),
    Nat.div_eq_of_lt (Nat.size_le.mp h), Nat.zero_add, Nat.add_mul_mod_self_left,
    Nat.mod_eq_of_lt (mat_snd_lt x)]

/-- The codes of atoms in a stream. `++rub` finds the atom and the width that `++mat` returned
with the code, which is the length of the code. So do the jets in a stream of fewer than `2^31`
bits. -/
theorem mat_rub (x s lo hi : Nat) (hlo : Hoon.met 0 lo ≤ s) :
    Hoon.met 0 (Hoon.mat x).2 = (Hoon.mat x).1
      ∧ Hoon.rub s (stream s lo x hi) = some ((Hoon.mat x).1, x)
      ∧ (Hoon.met 0 (stream s lo x hi) < 2 ^ 31 →
        mat x = .ok (Hoon.mat x) ∧ met 0 (Hoon.mat x).2 = (Hoon.mat x).1
          ∧ rub s (stream s lo x hi) = .ok ((Hoon.mat x).1, x)) := by
  rw [Hoon.met_zero] at hlo
  have hfield := field_stream hlo x hi
  have hrub := rub_of_field hfield
  refine ⟨by rw [Hoon.met_zero, size_mat], hrub, fun hlen => ?_⟩
  rw [Hoon.met_zero] at hlen
  -- the code is no longer than the stream
  have hcode : (Hoon.mat x).1 ≤ (stream s lo x hi).size := by
    have hle : field (stream s lo x hi) s (Hoon.mat x).1 ≤ stream s lo x hi :=
      (Nat.mod_le _ _).trans (Nat.div_le_self _ _)
    rw [hfield] at hle
    rw [← size_mat]
    exact Nat.size_le_size hle
  refine ⟨mat_eq (by omega), ?_, ?_⟩
  · rw [met_zero (by rw [size_mat]; omega), size_mat]
  · rw [rub_eq hlen, hrub]
    rfl

theorem mat_rub_one : rub 3 (stream 3 1 1 1) = .ok ((Hoon.mat 1).1, 1) := by
  have hlo : Hoon.met 0 1 ≤ 3 := by
    rw [Hoon.met_zero, Nat.size_one]
    decide
  have hlen : Hoon.met 0 (stream 3 1 1 1) < 2 ^ 31 := by
    rw [Hoon.met_zero]
    have hshort : stream 3 1 1 1 < 2 ^ 10 := by
      rw [stream, mat_pos Nat.one_pos, Nat.size_one, Nat.size_one]
      simp
    have hsize := Nat.size_le.mpr hshort
    omega
  exact ((mat_rub 1 3 1 1 hlo).2.2 hlen).2.2

/-- The length of a long stream is no direct atom. -/
theorem rub_long {b : Nat} (hb : 2 ^ 31 ≤ b.size) (hword : b.size < 2 ^ 32) (s : Nat) :
    rub s b = .error .fault := by
  have hcat : ¬isCat b.size = true := by
    rw [isCat_iff]
    omega
  rw [rub, u2Met_zero hword, if_neg hcat, error_bind]

theorem size_stream_zero (s : Nat) : (stream s 0 0 0).size = s + 1 := by
  rw [stream, mat_zero, Nat.zero_mul, Nat.add_zero, Nat.zero_add, Nat.one_mul, Nat.size_pow]

/-- The code of 0 behind `2^31` zeros: the stream fits into the loom, and `rub` faults. -/
theorem rub_far :
    InLoom (stream (2 ^ 31) 0 0 0) ∧ rub (2 ^ 31) (stream (2 ^ 31) 0 0 0) = .error .fault := by
  have hsize := size_stream_zero (2 ^ 31)
  refine ⟨?_, rub_long ?_ ?_ _⟩
  · rw [InLoom, wordLen, hsize]
    norm_num
  · rw [hsize]
    omega
  · rw [hsize]
    omega

end Vere.Jets
