import Mathlib.Algebra.Order.Ring.Int
import Mathlib.Data.Int.GCD
import Mathlib.Data.Nat.ModEq
import Mathlib.Tactic.Linarith
import Mathlib.Tactic.Ring
import Vere.Hoon.Bits

/-!
# Vere.Hoon.Si

Signed integers (`hoon.hoon`, section 2cF): an even atom is half of it, an odd one minus half of
what comes after it (`val`). Each arm takes sign and magnitude apart and puts them together again,
which is what `val_new` says; the arms then compute on integers.

The modulus `dul` of a negative number subtracts its magnitude from the modulus without reducing
it first, so it crashes if the magnitude is larger.
-/

namespace Vere.Hoon.Si

open Vere.Lib

/-! ### The arms of `++si` -/

/-- `abs`: absolute value. -/
def abs (a : Nat) : Nat := «end» 0 1 a + rsh 0 1 a

/-- `syn`: sign test. -/
def syn (a : Nat) : Bool := «end» 0 1 a = 0

/-- `new`: [sign value] to @s. -/
def new (a : Bool) (b : Nat) : Nat := if a then 2 * b else if b = 0 then 0 else 2 * (b - 1) + 1

/-- `old`: [sign value]. -/
def old (a : Nat) : Bool × Nat := (syn a, abs a)

/-- `sun`: @u to @s. -/
def sun (a : Nat) : Nat := 2 * a

/-- `sum`: addition. -/
def sum (a b : Nat) : Nat :=
  let c := old a
  let d := old b
  if c.1 then
    if d.1 then new true (c.2 + d.2)
    else if c.2 ≥ d.2 then new true (c.2 - d.2)
    else new false (d.2 - c.2)
  else if d.1 then
    if c.2 ≥ d.2 then new false (c.2 - d.2)
    else new true (d.2 - c.2)
  else new false (c.2 + d.2)

/-- `dif`: subtraction. -/
def dif (a b : Nat) : Nat := sum a (new (!syn b) (abs b))

/-- `dul`: modulus. -/
def dul (a b : Nat) : Option Nat :=
  let c := old a
  if c.1 then if b = 0 then none else some (c.2 % b)
  else if b < c.2 then none
  else some (b - c.2)

/-- `fra`: divide. -/
def fra (a b : Nat) : Option Nat :=
  if abs b = 0 then none else some (new (mix (loob (syn a)) (loob (syn b)) = 0) (abs a / abs b))

/-- `pro`: multiplication. -/
def pro (a b : Nat) : Nat := new (mix (loob (syn a)) (loob (syn b)) = 0) (abs a * abs b)

/-- `rem`: remainder. -/
def rem (a b : Nat) : Option Nat := do return dif a (pro b (← fra a b))

/-- `cmp`: compare. -/
def cmp (a b : Nat) : Nat :=
  if a = b then sun 0
  else if syn a then
    if syn b then if a > b then sun 1 else new false 1
    else sun 1
  else if syn b then new false 1
  else if a > b then new false 1
  else sun 1

/-! ### What they compute -/

/-- The integer an atom stands for. -/
def val (a : Nat) : Int := if a % 2 = 0 then (a / 2 : Nat) else -((a + 1) / 2 : Nat)

theorem abs_eq (a : Nat) : abs a = a % 2 + a / 2 := by
  simp [abs, rsh]

theorem syn_eq (a : Nat) : syn a = decide (a % 2 = 0) := by
  simp [syn]

theorem abs_val (a : Nat) : abs a = (val a).natAbs := by
  rw [abs_eq, val]
  split <;> omega

theorem syn_val (a : Nat) : syn a = decide (0 ≤ val a) := by
  rw [syn_eq, val]
  split <;> simp <;> omega

/-- A sign and a magnitude. -/
theorem val_new (a : Bool) (b : Nat) : val (new a b) = if a then (b : Int) else -b := by
  cases a with
  | true => simp [new, val]
  | false =>
      by_cases h : b = 0
      · simp [new, val, h]
      · have hodd : (2 * (b - 1) + 1) % 2 ≠ 0 := by omega
        have hhalf : (2 * (b - 1) + 1 + 1) / 2 = b := by omega
        simp only [new, val, h, hodd, hhalf, if_false, Bool.false_eq_true]

/-- An integer has one atom. -/
theorem val_inj {a b : Nat} : val a = val b ↔ a = b := by
  constructor
  · unfold val
    split <;> split <;> omega
  · exact congrArg val

theorem new_old (a : Nat) : new (old a).1 (old a).2 = a := by
  rw [← val_inj, val_new]
  simp only [old, syn_val, abs_val, decide_eq_true_eq]
  split <;> omega

theorem old_new {a : Bool} {b : Nat} : old (new a b) = (a, b) ↔ a = true ∨ b ≠ 0 := by
  rw [old, syn_val, abs_val, val_new]
  cases a with
  | true => simp
  | false =>
      simp only [Bool.false_eq_true, if_false, false_or, Prod.mk.injEq, decide_eq_false_iff_not]
      omega

theorem val_sun (a : Nat) : val (sun a) = a := by
  simp [sun, val]

theorem val_sum (a b : Nat) : val (sum a b) = val a + val b := by
  simp only [sum, old, syn_val, abs_val, decide_eq_true_eq]
  repeat' split
  all_goals
    simp only [val_new, if_true, Bool.false_eq_true, if_false]
    omega

theorem val_dif (a b : Nat) : val (dif a b) = val a - val b := by
  rw [dif, val_sum, val_new, syn_val, abs_val]
  by_cases h : 0 ≤ val b
  · simp only [h, decide_true, Bool.not_true, Bool.false_eq_true, if_false]
    omega
  · simp only [h, decide_false, Bool.not_false, if_true]
    omega

theorem mix_loob (a b : Bool) : (mix (loob a) (loob b) = 0) ↔ a = b := by
  cases a <;> cases b <;> simp [loob]

/-- The sign that `fra` and `pro` compute, on integers. -/
theorem val_new_mix (a b n : Nat) :
    val (new (mix (loob (syn a)) (loob (syn b)) = 0) n) =
      if (0 ≤ val a ↔ 0 ≤ val b) then (n : Int) else -n := by
  rw [val_new]
  simp only [mix_loob, syn_val, decide_eq_decide, decide_eq_true_eq]

theorem val_pro (a b : Nat) : val (pro a b) = val a * val b := by
  rw [pro, val_new_mix, abs_val, abs_val]
  rcases le_or_gt 0 (val a) with ha | ha <;> rcases le_or_gt 0 (val b) with hb | hb
  · rw [if_pos (by omega), Int.natCast_mul, Int.natAbs_of_nonneg ha, Int.natAbs_of_nonneg hb]
  · rw [if_neg (by omega), Int.natCast_mul, Int.natAbs_of_nonneg ha,
      Int.ofNat_natAbs_of_nonpos hb.le]
    ring
  · rw [if_neg (by omega), Int.natCast_mul, Int.ofNat_natAbs_of_nonpos ha.le,
      Int.natAbs_of_nonneg hb]
    ring
  · rw [if_pos (by omega), Int.natCast_mul, Int.ofNat_natAbs_of_nonpos ha.le,
      Int.ofNat_natAbs_of_nonpos hb.le]
    ring

/-- Division truncates. -/
theorem val_fra {a b : Nat} (h : val b ≠ 0) :
    ∃ q, fra a b = some q ∧ val q = (val a).tdiv (val b) := by
  refine ⟨_, if_neg (by rw [abs_val]; omega), ?_⟩
  rw [val_new_mix, abs_val, abs_val]
  rcases le_or_gt 0 (val a) with ha | ha <;> rcases le_or_gt 0 (val b) with hb | hb
  · rw [if_pos (by omega), Int.natCast_div, Int.natAbs_of_nonneg ha, Int.natAbs_of_nonneg hb,
      Int.tdiv_eq_ediv_of_nonneg ha]
  · rw [if_neg (by omega), Int.natCast_div, Int.natAbs_of_nonneg ha,
      Int.ofNat_natAbs_of_nonpos hb.le, Int.tdiv_eq_ediv_of_nonneg ha, Int.ediv_neg, neg_neg]
  · rw [if_neg (by omega), Int.natCast_div, Int.ofNat_natAbs_of_nonpos ha.le,
      Int.natAbs_of_nonneg hb, ← Int.tdiv_eq_ediv_of_nonneg (by omega), Int.neg_tdiv, neg_neg]
  · rw [if_pos (by omega), Int.natCast_div, Int.ofNat_natAbs_of_nonpos ha.le,
      Int.ofNat_natAbs_of_nonpos hb.le, ← Int.tdiv_eq_ediv_of_nonneg (by omega), Int.neg_tdiv,
      Int.tdiv_neg, neg_neg]

theorem val_rem {a b : Nat} (h : val b ≠ 0) :
    ∃ r, rem a b = some r ∧ val r = (val a).tmod (val b) := by
  obtain ⟨q, hq, hv⟩ := val_fra (a := a) h
  refine ⟨dif a (pro b q), by simp [rem, hq], ?_⟩
  rw [val_dif, val_pro, hv, Int.tmod_def]

theorem val_cmp (a b : Nat) : val (cmp a b) = (val a - val b).sign := by
  have hone : val (sun 1) = 1 := val_sun 1
  have hneg : val (new false 1) = -1 := by rw [val_new]; rfl
  have hlt (h : val a < val b) : (val a - val b).sign = -1 := Int.sign_eq_neg_one_of_neg (by omega)
  have hgt (h : val b < val a) : (val a - val b).sign = 1 := Int.sign_eq_one_of_pos (by omega)
  by_cases hab : a = b
  · simp [cmp, hab, sun, val]
  · have hne : val a ≠ val b := fun h => hab (val_inj.1 h)
    simp only [cmp, hab, if_false, syn_eq, decide_eq_true_eq]
    -- of two of one sign the larger atom is the larger magnitude
    split_ifs <;> simp only [hone, hneg] <;> symm <;> first | apply hgt | apply hlt
    all_goals
      simp only [val] at hne ⊢
      grind

theorem dul_pos {a b : Nat} (hb : 0 < b) (h : 0 ≤ val a) :
    dul a b = some ((val a).natAbs % b) := by
  simp only [dul, old, syn_val, abs_val, decide_eq_true h, if_true]
  rw [if_neg (by omega)]

theorem dul_neg {a b : Nat} (h : val a < 0) :
    dul a b = if b < (val a).natAbs then none else some (b - (val a).natAbs) := by
  have hs : decide (0 ≤ val a) = false := decide_eq_false (by omega)
  simp only [dul, old, syn_val, abs_val, hs, Bool.false_eq_true, if_false]

/-- The modulus of a number that is not below minus the modulus. -/
theorem dul_residue {a b : Nat} (hb : 0 < b) (h : 0 ≤ val a ∨ (val a).natAbs ≤ b) :
    ∃ r, dul a b = some r ∧ r < b ∧ (r : Int) = val a % b := by
  rcases le_or_gt 0 (val a) with ha | ha
  · refine ⟨_, dul_pos hb ha, Nat.mod_lt _ hb, ?_⟩
    rw [Int.natCast_mod, Int.natAbs_of_nonneg ha]
  · have hle : (val a).natAbs ≤ b := by omega
    refine ⟨b - (val a).natAbs, by rw [dul_neg ha, if_neg (by omega)], by omega, ?_⟩
    have hmod : (val a + b) % b = val a + b := Int.emod_eq_of_lt (by omega) (by omega)
    rw [← Int.add_emod_right, hmod]
    omega

/-- Signed integers are integers, but the modulus of a negative one crashes if its magnitude is
above the modulus, and minus zero reads as zero. -/
theorem si_arith (a b : Nat) :
    val (sum a b) = val a + val b ∧ val (dif a b) = val a - val b ∧
      val (pro a b) = val a * val b ∧
      (val b ≠ 0 →
        (∃ q, fra a b = some q ∧ val q = (val a).tdiv (val b)) ∧
          ∃ r, rem a b = some r ∧ val r = (val a).tmod (val b)) ∧
      val (cmp a b) = (val a - val b).sign ∧
      new (old a).1 (old a).2 = a ∧
      (∀ s m, old (new s m) = (s, m) ↔ s = true ∨ m ≠ 0) ∧
      (0 < b →
        ((∃ r, dul a b = some r ∧ r < b ∧ (r : Int) = val a % b) ↔
          0 ≤ val a ∨ (val a).natAbs ≤ b)) := by
  refine ⟨val_sum a b, val_dif a b, val_pro a b, fun hb => ⟨val_fra hb, val_rem hb⟩, val_cmp a b,
    new_old a, fun s m => old_new, fun hb => ⟨?_, dul_residue hb⟩⟩
  rintro ⟨r, hr, -⟩
  by_contra h
  rw [dul_neg (by omega), if_pos (by omega)] at hr
  cases hr

/-- Minus three by two, and its residue by four. -/
theorem si_arith_small :
    (∃ q, fra 5 4 = some q ∧ val q = (val 5).tdiv (val 4)) ∧
      ∃ r, dul 5 4 = some r ∧ r < 4 ∧ (r : Int) = val 5 % 4 := by
  obtain ⟨-, -, -, hfra, -, -, -, hdul⟩ := si_arith 5 4
  exact ⟨(hfra (by decide)).1, (hdul (by decide)).2 (.inr (by decide))⟩

/-- Minus three has no residue by two. -/
theorem dul_deep : val 5 = -3 ∧ dul 5 2 = none := by
  decide

end Vere.Hoon.Si
