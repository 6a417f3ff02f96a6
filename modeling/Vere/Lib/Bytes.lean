import Mathlib.Tactic.Common
import Mathlib.Tactic.Ring
import Mathlib.Data.List.TakeDrop

/-!
# Vere.Lib.Bytes

Byte buffers: numbers in little-endian order, and reading a buffer at an offset.

A buffer that was put together from pieces is read back piece by piece. The
lemmas `bytesAt_of_drop` and `drop_of_drop` do one step of that: what is read at
an offset is the piece that starts there, and past it the next piece starts.
-/

namespace Vere.Lib

/-- The `w` low bytes of `n`, least significant first. -/
def toLE : Nat → Nat → List UInt8
  | 0, _ => []
  | w + 1, n => UInt8.ofNat n :: toLE w (n / 256)

/-- The number a list of bytes spells, least significant first. -/
def ofLE : List UInt8 → Nat
  | [] => 0
  | b :: bs => b.toNat + 256 * ofLE bs

@[simp] theorem length_toLE (w n : Nat) : (toLE w n).length = w := by
  induction w generalizing n with
  | zero => rfl
  | succ w ih => simp [toLE, ih]

theorem ofLE_toLE (w n : Nat) : ofLE (toLE w n) = n % 256 ^ w := by
  induction w generalizing n with
  | zero => simp [toLE, ofLE, Nat.mod_one]
  | succ w ih =>
      rw [toLE, ofLE, ih, Nat.pow_succ, Nat.mul_comm (256 ^ w), Nat.mod_mul]
      rfl

theorem ofLE_lt (bs : List UInt8) : ofLE bs < 256 ^ bs.length := by
  induction bs with
  | nil => simp [ofLE]
  | cons b bs ih =>
      have hb := b.toNat_lt
      rw [ofLE, List.length_cons, Nat.pow_succ]
      omega

theorem toLE_eq_map (w n : Nat) :
    toLE w n = (List.range w).map fun i => UInt8.ofNat (n / 256 ^ i) := by
  induction w generalizing n with
  | zero => rfl
  | succ w ih =>
      rw [toLE, ih, List.range_succ_eq_map, List.map_cons, List.map_map, Nat.pow_zero, Nat.div_one]
      congr 1
      refine List.map_congr_left fun i _ => ?_
      rw [Function.comp_apply, Nat.pow_succ', Nat.div_div_eq_div_mul]

/-- One byte more. -/
theorem ofLE_take_succ (bs : List UInt8) (n : Nat) :
    ofLE (bs.take (n + 1)) = ofLE (bs.take n) + 256 ^ n * (bs.getD n 0).toNat := by
  induction bs generalizing n with
  | nil => simp [ofLE]
  | cons b bs ih =>
      cases n with
      | zero => simp [ofLE]
      | succ n =>
          rw [List.take_succ_cons, ofLE, ih, List.take_succ_cons, ofLE, List.getD_cons_succ]
          ring

/-- The `n` bytes of a buffer from offset `off` on. -/
def bytesAt (buf : List UInt8) (off n : Nat) : List UInt8 := (buf.drop off).take n

theorem length_bytesAt {buf : List UInt8} {off n : Nat} (h : off + n ≤ buf.length) :
    (bytesAt buf off n).length = n := by
  rw [bytesAt, List.length_take, List.length_drop]
  omega

/-- The piece at an offset. -/
theorem bytesAt_of_drop {buf x rest : List UInt8} {off n : Nat} (h : buf.drop off = x ++ rest)
    (hx : x.length = n) : bytesAt buf off n = x := by
  rw [bytesAt, h, ← hx]
  exact List.take_left

/-- The buffer past a piece. -/
theorem drop_of_drop {buf x rest : List UInt8} {off n : Nat} (h : buf.drop off = x ++ rest)
    (hx : x.length = n) : buf.drop (off + n) = rest := by
  rw [← List.drop_drop, h, ← hx]
  exact List.drop_left

end Vere.Lib
