import Vere.Lib.Bits
import Vere.Noun

/-!
# Vere.Hoon.Bits

The bit-surgery arms of `hoon.hoon` (sections 2cA and 2cB), as the Hoon source
writes them: everything is arithmetic on unbounded atoms. `add`, `mul`, `div`,
`mod` and `dec` are the arms of section 2a, that is, natural-number arithmetic.
-/

namespace Vere.Hoon

open Vere.Lib

/-- `++bex`: binary exponent. -/
def bex : Nat → Nat
  | 0 => 1
  | a + 1 => 2 * bex a

@[simp] theorem bex_eq (a : Nat) : bex a = 2 ^ a := by
  induction a with
  | zero => rfl
  | succ a ih => rw [bex, ih, Nat.pow_succ']

/-- `++end`: tail. -/
def «end» (a b c : Nat) : Nat := c % bex (bex a * b)

/-- `++lsh`: left-shift. -/
def lsh (a b c : Nat) : Nat := bex (bex a * b) * c

/-- `++rsh`: right-shift. -/
def rsh (a b c : Nat) : Nat := c / bex (bex a * b)

/-- `++cut`: slice. -/
def cut (a b c d : Nat) : Nat := «end» a c (rsh a b d)

theorem rsh_one_lt {a b : Nat} (h : b ≠ 0) : rsh a 1 b < b := by
  rw [rsh, Nat.mul_one, bex_eq, bex_eq]
  exact Nat.div_lt_self (Nat.pos_of_ne_zero h)
    (Nat.one_lt_two_pow (Nat.two_pow_pos a).ne')

/-- The loop of `++met`. -/
def metLoop (a b c : Nat) : Nat :=
  if h : b = 0 then c else metLoop a (rsh a 1 b) (c + 1)
termination_by b
decreasing_by exact rsh_one_lt h

/-- `++met`: measure. -/
def met (a b : Nat) : Nat := metLoop a b 0

/-- `++cat`: concatenate. -/
def cat (a b c : Nat) : Nat := lsh a (met a b) c + b

theorem rsh_bit_lt_add {a b : Nat} (h : ¬(a = 0 ∧ b = 0)) :
    rsh 0 1 a + rsh 0 1 b < a + b := by
  have hr : ∀ x, rsh 0 1 x = x / 2 := fun x => by simp [rsh]
  rw [hr, hr]
  omega

/-- The loop of `++mix`: one bit of each argument at a time. -/
def mixLoop (a b c d : Nat) : Nat :=
  if _ : a = 0 ∧ b = 0 then d
  else
    mixLoop (rsh 0 1 a) (rsh 0 1 b) (c + 1)
      (d + lsh 0 c (loob («end» 0 1 a == «end» 0 1 b)))
termination_by a + b
decreasing_by exact rsh_bit_lt_add ‹_›

/-- `++mix`: binary xor. -/
def mix (a b : Nat) : Nat := mixLoop a b 0 0

/-- The loop of `++con`. -/
def conLoop (a b c d : Nat) : Nat :=
  if _ : a = 0 ∧ b = 0 then d
  else
    conLoop (rsh 0 1 a) (rsh 0 1 b) (c + 1)
      (d + lsh 0 c (loob («end» 0 1 a == 0 && «end» 0 1 b == 0)))
termination_by a + b
decreasing_by exact rsh_bit_lt_add ‹_›

/-- `++con`: binary or. -/
def con (a b : Nat) : Nat := conLoop a b 0 0

/-- The loop of `++dis`. -/
def disLoop (a b c d : Nat) : Nat :=
  if _ : a = 0 ∨ b = 0 then d
  else
    disLoop (rsh 0 1 a) (rsh 0 1 b) (c + 1)
      (d + lsh 0 c (loob («end» 0 1 a == 0 || «end» 0 1 b == 0)))
termination_by a
decreasing_by exact rsh_one_lt (not_or.mp ‹_›).1

/-- `++dis`: binary and. -/
def dis (a b : Nat) : Nat := disLoop a b 0 0

/-- `++can`: assemble. -/
def can (a : Nat) : List (Nat × Nat) → Nat
  | [] => 0
  | (p, q) :: t => mix («end» a p q) (lsh a p (can a t))

/-! ### What the arms compute at block size zero -/

@[simp] theorem lsh_zero (b c : Nat) : lsh 0 b c = 2 ^ b * c := by
  simp [lsh]

@[simp] theorem end_zero (b c : Nat) : «end» 0 b c = c % 2 ^ b := by
  simp [«end»]

@[simp] theorem cut_zero (b c d : Nat) : cut 0 b c d = field d b c := by
  simp [cut, rsh, field]

theorem metLoop_zero (b c : Nat) : metLoop 0 b c = b.size + c := by
  induction b, c using metLoop.induct 0 with
  | case1 c => rw [metLoop, dif_pos rfl, Nat.size_zero, Nat.zero_add]
  | case2 b c hb ih =>
      rw [metLoop, dif_neg hb, ih]
      have hr : rsh 0 1 b = b / 2 := by simp [rsh]
      have hbit : b = Nat.bit (b % 2 == 1) (b / 2) := by
        rw [Nat.bit_val]
        rcases Nat.mod_two_eq_zero_or_one b with h | h <;> simp [h] <;> omega
      have hs : b.size = (b / 2).size + 1 := by
        conv_lhs => rw [hbit]
        exact Nat.size_bit (by rw [← hbit]; exact hb)
      rw [hr, hs]
      omega

@[simp] theorem met_zero (b : Nat) : met 0 b = b.size := by
  rw [met, metLoop_zero, Nat.add_zero]

@[simp] theorem cat_zero (b c : Nat) : cat 0 b c = b + 2 ^ b.size * c := by
  rw [cat, lsh_zero, met_zero, Nat.add_comm]

/-- One round of `++mix` peels the lowest bit of each argument off. -/
theorem mixLoop_eq (a b c d : Nat) : mixLoop a b c d = d + 2 ^ c * (a ^^^ b) := by
  induction a, b, c, d using mixLoop.induct with
  | case1 a b c d h =>
      obtain ⟨rfl, rfl⟩ := h
      rw [mixLoop, dif_pos ⟨rfl, rfl⟩]
      simp
  | case2 a b c d h ih =>
      rw [mixLoop, dif_neg h, ih]
      have hr : ∀ x, rsh 0 1 x = x / 2 := fun x => by simp [rsh]
      have hdiv : (a ^^^ b) / 2 = (a / 2) ^^^ (b / 2) := Nat.xor_div_two_pow (n := 1)
      have hmod : (a ^^^ b) % 2 = (a % 2) ^^^ (b % 2) := by
        have := @Nat.xor_mod_two_pow a b 1
        simpa using this
      have hbit : loob (a % 2 == b % 2) = (a % 2) ^^^ (b % 2) := by
        rcases Nat.mod_two_eq_zero_or_one a with ha | ha <;>
          rcases Nat.mod_two_eq_zero_or_one b with hb | hb <;> simp [ha, hb, loob]
      rw [hr, hr, end_zero, end_zero, lsh_zero, Nat.pow_one, hbit, ← hdiv, ← hmod]
      have hsum := Nat.mod_add_div (a ^^^ b) 2
      rw [Nat.pow_succ]
      conv_rhs => rw [← hsum]
      ring

/-- One round of `++con` likewise. -/
theorem conLoop_eq (a b c d : Nat) : conLoop a b c d = d + 2 ^ c * (a ||| b) := by
  induction a, b, c, d using conLoop.induct with
  | case1 a b c d h =>
      obtain ⟨rfl, rfl⟩ := h
      rw [conLoop, dif_pos ⟨rfl, rfl⟩]
      simp
  | case2 a b c d h ih =>
      rw [conLoop, dif_neg h, ih]
      have hr : ∀ x, rsh 0 1 x = x / 2 := fun x => by simp [rsh]
      have hdiv : (a ||| b) / 2 = (a / 2) ||| (b / 2) := Nat.or_div_two_pow (n := 1)
      have hmod : (a ||| b) % 2 = (a % 2) ||| (b % 2) := by
        have := @Nat.or_mod_two_pow a b 1
        simpa using this
      have hbit : loob (a % 2 == 0 && b % 2 == 0) = (a % 2) ||| (b % 2) := by
        rcases Nat.mod_two_eq_zero_or_one a with ha | ha <;>
          rcases Nat.mod_two_eq_zero_or_one b with hb | hb <;> simp [ha, hb, loob]
      rw [hr, hr, end_zero, end_zero, lsh_zero, Nat.pow_one, hbit, ← hdiv, ← hmod]
      have hsum := Nat.mod_add_div (a ||| b) 2
      rw [Nat.pow_succ]
      conv_rhs => rw [← hsum]
      ring

@[simp] theorem con_eq (a b : Nat) : con a b = a ||| b := by
  rw [con, conLoop_eq]
  simp

@[simp] theorem mix_eq (a b : Nat) : mix a b = a ^^^ b := by
  rw [mix, mixLoop_eq]
  simp

/-- One round of `++dis` likewise, until one of the two is zero. -/
theorem disLoop_eq (a b c d : Nat) : disLoop a b c d = d + 2 ^ c * (a &&& b) := by
  induction a, b, c, d using disLoop.induct with
  | case1 a b c d h =>
      rw [disLoop, dif_pos h]
      rcases h with rfl | rfl <;> simp
  | case2 a b c d h ih =>
      rw [disLoop, dif_neg h, ih]
      have hr : ∀ x, rsh 0 1 x = x / 2 := fun x => by simp [rsh]
      have hdiv : (a &&& b) / 2 = (a / 2) &&& (b / 2) := Nat.and_div_two_pow (n := 1)
      have hmod : (a &&& b) % 2 = (a % 2) &&& (b % 2) := by
        have := @Nat.and_mod_two_pow a b 1
        simpa using this
      have hbit : loob (a % 2 == 0 || b % 2 == 0) = (a % 2) &&& (b % 2) := by
        rcases Nat.mod_two_eq_zero_or_one a with ha | ha <;>
          rcases Nat.mod_two_eq_zero_or_one b with hb | hb <;> simp [ha, hb, loob]
      rw [hr, hr, end_zero, end_zero, lsh_zero, Nat.pow_one, hbit, ← hdiv, ← hmod]
      have hsum := Nat.mod_add_div (a &&& b) 2
      rw [Nat.pow_succ]
      conv_rhs => rw [← hsum]
      ring

@[simp] theorem dis_eq (a b : Nat) : dis a b = a &&& b := by
  rw [dis, disLoop_eq]
  simp

@[simp] theorem can_nil (a : Nat) : can a [] = 0 := rfl

/-- The first block lies below the rest. -/
theorem can_cons (a p q : Nat) (t : List (Nat × Nat)) :
    can a ((p, q) :: t) = q % 2 ^ (2 ^ a * p) + 2 ^ (2 ^ a * p) * can a t := by
  simp only [can, «end», lsh, bex_eq, mix_eq]
  exact xor_shift (Nat.mod_lt q (Nat.two_pow_pos _)) _

end Vere.Hoon
