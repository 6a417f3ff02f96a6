import Mathlib.Data.Nat.Size
import Mathlib.Tactic.Ring
import Mathlib.Tactic.Linarith

/-!
# Vere.Lib.Bits

Bit fields of natural numbers.

`field s b p` is the number spelled by the `p` bits of `s` that start at bit
`b`, least significant first. A bit stream held in one number is read and
written in fields, so everything a self-delimiting code needs is here: how a
field splits into two adjacent ones, what lies past the end, and how a number
is put together from a low part and a high part.
-/

namespace Vere.Lib

/-- The `p` bits of `s` from bit `b` on, as a number. -/
def field (s b p : Nat) : Nat := s / 2 ^ b % 2 ^ p

theorem field_lt (s b p : Nat) : field s b p < 2 ^ p :=
  Nat.mod_lt _ (Nat.two_pow_pos p)

@[simp] theorem field_zero_width (s b : Nat) : field s b 0 = 0 := by
  simp [field, Nat.mod_one]

@[simp] theorem field_of_zero (b p : Nat) : field 0 b p = 0 := by
  simp [field]

/-- A field of width `p + q` is its low `p` bits and, above them, the next
`q`. -/
theorem field_add (s b p q : Nat) :
    field s b (p + q) = field s b p + 2 ^ p * field s (b + p) q := by
  simp only [field]
  rw [Nat.pow_add, Nat.mod_mul, Nat.div_div_eq_div_mul, ← Nat.pow_add]

/-- Reading a field back apart: the low part is bounded, so both parts are
determined. -/
theorem field_split {s b p q lo hi : Nat} (h : field s b (p + q) = lo + 2 ^ p * hi)
    (hlo : lo < 2 ^ p) : field s b p = lo ∧ field s (b + p) q = hi := by
  have hpos : 0 < 2 ^ p := Nat.two_pow_pos p
  rw [field_add] at h
  have hl := field_lt s b p
  have hlow : field s b p = lo := by
    have := congrArg (· % 2 ^ p) h
    simpa [Nat.add_mul_mod_self_left, Nat.mod_eq_of_lt hl, Nat.mod_eq_of_lt hlo] using this
  refine ⟨hlow, ?_⟩
  rw [hlow] at h
  exact Nat.eq_of_mul_eq_mul_left hpos (Nat.add_left_cancel h)

/-- A narrower field of a field. -/
theorem field_initial {s b p q x : Nat} (h : field s b p = x) (hq : q ≤ p) :
    field s b q = x % 2 ^ q := by
  subst h
  simp only [field]
  rw [Nat.mod_mod_of_dvd _ (pow_dvd_pow 2 hq)]

/-- Past the top bit there is nothing to read. -/
theorem field_of_size_le {s b : Nat} (h : s.size ≤ b) (p : Nat) : field s b p = 0 := by
  have hlt : s < 2 ^ b := Nat.size_le.mp h
  simp [field, Nat.div_eq_of_lt hlt]

/-- A nonzero field starts below the top bit. -/
theorem lt_size_of_field_ne_zero {s b p : Nat} (h : field s b p ≠ 0) : b < s.size := by
  by_contra hb
  exact h (field_of_size_le (Nat.le_of_not_lt hb) p)

/-- A field as wide as the number holds all of it. -/
theorem field_self {x p : Nat} (h : x < 2 ^ p) : field x 0 p = x := by
  simp [field, Nat.mod_eq_of_lt h]

/-- Widening a field past the top bit adds nothing. -/
theorem field_clip {s b p : Nat} (h : s.size ≤ b + p) : field s b p = s / 2 ^ b := by
  have hs : s < 2 ^ (b + p) := Nat.size_le.mp h
  rw [field, Nat.mod_eq_of_lt]
  rw [Nat.div_lt_iff_lt_mul (Nat.two_pow_pos b), ← Nat.pow_add, Nat.add_comm p b]
  exact hs

/-! ### Sizes -/

/-- The size of a number put together from a low part of `p` bits and a
nonzero high part. -/
theorem size_add_mul {lo hi p : Nat} (hlo : lo < 2 ^ p) (hhi : 0 < hi) :
    (lo + 2 ^ p * hi).size = p + hi.size := by
  apply le_antisymm
  · rw [Nat.size_le, Nat.pow_add]
    have h1 : hi + 1 ≤ 2 ^ hi.size := Nat.lt_size_self hi
    calc lo + 2 ^ p * hi < 2 ^ p + 2 ^ p * hi := by omega
      _ = 2 ^ p * (hi + 1) := by ring
      _ ≤ 2 ^ p * 2 ^ hi.size := Nat.mul_le_mul_left _ h1
  · have hs : 0 < hi.size := Nat.size_pos.mpr hhi
    have h1 : 2 ^ (hi.size - 1) ≤ hi := Nat.lt_size.mp (by omega)
    have h2 : p + hi.size - 1 < (lo + 2 ^ p * hi).size := by
      rw [Nat.lt_size]
      calc 2 ^ (p + hi.size - 1) = 2 ^ p * 2 ^ (hi.size - 1) := by
            rw [← Nat.pow_add]; congr 1; omega
        _ ≤ 2 ^ p * hi := Nat.mul_le_mul_left _ h1
        _ ≤ lo + 2 ^ p * hi := Nat.le_add_left _ _
    omega

theorem size_two_pow_mul {hi : Nat} (p : Nat) (hhi : 0 < hi) :
    (2 ^ p * hi).size = p + hi.size := by
  simpa using @size_add_mul 0 hi p (Nat.two_pow_pos p) hhi

/-- The top bit of a nonzero number. -/
theorem two_pow_size_pred_le {x : Nat} (h : 0 < x) : 2 ^ (x.size - 1) ≤ x :=
  Nat.lt_size.mp (by have := Nat.size_pos.mpr h; omega)

/-- Without its top bit a nonzero number is a remainder. -/
theorem mod_two_pow_size_pred {x : Nat} (h : 0 < x) :
    2 ^ (x.size - 1) + x % 2 ^ (x.size - 1) = x := by
  have h1 := two_pow_size_pred_le h
  have h2 : x < 2 * 2 ^ (x.size - 1) := by
    have hs := Nat.size_pos.mpr h
    have := Nat.lt_size_self x
    rw [← Nat.pow_succ']
    rwa [Nat.succ_eq_add_one, Nat.sub_add_cancel hs]
  have h3 : x / 2 ^ (x.size - 1) = 1 := by
    apply Nat.div_eq_of_lt_le <;> omega
  have := Nat.div_add_mod x (2 ^ (x.size - 1))
  rw [h3] at this
  omega

/-- Exclusive or of parts that do not overlap is their sum. -/
theorem xor_shift {lo p : Nat} (hlo : lo < 2 ^ p) (hi : Nat) :
    lo ^^^ (2 ^ p * hi) = lo + 2 ^ p * hi := by
  rw [Nat.add_comm, Nat.two_pow_add_eq_or_of_lt hlo]
  apply Nat.eq_of_testBit_eq
  intro i
  rw [Nat.testBit_xor, Nat.testBit_or, Nat.testBit_two_pow_mul]
  by_cases hi' : p ≤ i
  · have : lo.testBit i = false :=
      Nat.testBit_lt_two_pow (lt_of_lt_of_le hlo (Nat.pow_le_pow_right (by decide) hi'))
    simp [this]
  · simp [hi']

theorem two_pow_mul_xor (p x y : Nat) :
    2 ^ p * (x ^^^ y) = (2 ^ p * x) ^^^ (2 ^ p * y) := by
  have h := Nat.shiftLeft_xor_distrib (a := x) (b := y) (i := p)
  simpa [Nat.shiftLeft_eq, Nat.mul_comm] using h

/-- Copying a field in two adjacent pieces copies the whole field. -/
theorem xor_field_add (v s b p q t : Nat) :
    (v ^^^ (2 ^ t * field s b p)) ^^^ (2 ^ (t + p) * field s (b + p) q)
      = v ^^^ (2 ^ t * field s b (p + q)) := by
  rw [field_add, ← xor_shift (field_lt s b p), two_pow_mul_xor, Nat.xor_assoc,
    ← Nat.mul_assoc, ← Nat.pow_add]

theorem testBit_mod_add (p q r t : Nat) :
    (q % 2 ^ p + 2 ^ p * r).testBit t = if t < p then q.testBit t else r.testBit (t - p) := by
  rw [Nat.add_comm, Nat.testBit_two_pow_mul_add r (Nat.mod_lt _ (Nat.two_pow_pos p))]
  split
  · next ht => rw [Nat.testBit_mod_two_pow, decide_eq_true ht, Bool.true_and]
  · rfl

/-- Additive functions that agree on the powers of two agree. -/
theorem additive_ext {w : Nat} {f g : BitVec w → BitVec w}
    (hf : ∀ x y, f (x ^^^ y) = f x ^^^ f y) (hg : ∀ x y, g (x ^^^ y) = g x ^^^ g y)
    (h : ∀ i < w, f (BitVec.ofNat w (2 ^ i)) = g (BitVec.ofNat w (2 ^ i))) (x : BitVec w) :
    f x = g x := by
  have hzero {f : BitVec w → BitVec w} (hf : ∀ x y, f (x ^^^ y) = f x ^^^ f y) : f 0 = 0 := by
    have h0 := hf 0 0
    rwa [BitVec.xor_self, BitVec.xor_self] at h0
  have hlow (m : Nat) (hm : m ≤ w) (n : Nat) (hn : n < 2 ^ m) :
      f (BitVec.ofNat w n) = g (BitVec.ofNat w n) := by
    induction m generalizing n with
    | zero =>
        obtain rfl : n = 0 := by omega
        exact (hzero hf).trans (hzero hg).symm
    | succ m ih =>
        have hlo : n % 2 ^ m < 2 ^ m := Nat.mod_lt _ (Nat.two_pow_pos m)
        have hsum : BitVec.ofNat w n
            = BitVec.ofNat w (n % 2 ^ m) ^^^ BitVec.ofNat w (2 ^ m * (n / 2 ^ m)) := by
          rw [← BitVec.ofNat_xor, xor_shift hlo, Nat.mod_add_div]
        have hhi : n / 2 ^ m < 2 := by
          rw [Nat.div_lt_iff_lt_mul (Nat.two_pow_pos m), Nat.mul_comm, ← Nat.pow_succ]
          exact hn
        have hbit : f (BitVec.ofNat w (2 ^ m * (n / 2 ^ m)))
            = g (BitVec.ofNat w (2 ^ m * (n / 2 ^ m))) := by
          rcases Nat.le_one_iff_eq_zero_or_eq_one.mp (Nat.le_of_lt_succ hhi) with hb | hb
          · rw [hb, Nat.mul_zero]
            exact (hzero hf).trans (hzero hg).symm
          · rw [hb, Nat.mul_one]
            exact h m hm
        rw [hsum, hf, hg, ih (by omega) _ hlo, hbit]
  have hx := hlow w (Nat.le_refl w) x.toNat x.isLt
  rwa [BitVec.ofNat_toNat, BitVec.setWidth_eq] at hx

/-! ### Lists of pieces -/

/-- Total width of a list of pieces. -/
def width (l : List (Nat × Nat)) : Nat := (l.map Prod.fst).sum

@[simp] theorem width_nil : width [] = 0 := rfl
@[simp] theorem width_cons (x : Nat × Nat) (l : List (Nat × Nat)) :
    width (x :: l) = x.1 + width l := by
  simp [width]
theorem width_append (l k : List (Nat × Nat)) : width (l ++ k) = width l + width k := by
  simp [width]

/-- The number a list of pieces spells, lowest piece first. -/
def joined : List (Nat × Nat) → Nat
  | [] => 0
  | (p, q) :: rest => q % 2 ^ p + 2 ^ p * joined rest

theorem joined_append (l k : List (Nat × Nat)) :
    joined (l ++ k) = joined l + 2 ^ width l * joined k := by
  induction l with
  | nil => simp [joined]
  | cons x l ih =>
      obtain ⟨p, q⟩ := x
      simp only [List.cons_append, joined, ih, width_cons, Nat.pow_add]
      ring

theorem joined_lt (l : List (Nat × Nat)) : joined l < 2 ^ width l := by
  induction l with
  | nil => simp [joined]
  | cons x l ih =>
      obtain ⟨p, q⟩ := x
      have hq : q % 2 ^ p < 2 ^ p := Nat.mod_lt _ (Nat.two_pow_pos p)
      simp only [joined, width_cons, Nat.pow_add]
      calc q % 2 ^ p + 2 ^ p * joined l < 2 ^ p * (joined l + 1) := by
            rw [Nat.mul_succ]; omega
        _ ≤ 2 ^ p * 2 ^ width l := Nat.mul_le_mul_left _ ih

end Vere.Lib
