import Mathlib.Tactic.LinearCombination
import Mathlib.Tactic.Zify
import Vere.Hoon.Si

/-!
# Vere.Hoon.Fo

Euclid's algorithm on signed atoms, `++egcd`, and the arithmetic modulo a prime that rests on it,
`++fo` (`hoon.hoon`, section 2eW). Crashes are `none`.

`++inv` reduces a coefficient of `++egcd` with `dul:si`, which crashes on a number far below zero.
`Spread` is the reason it does not here: a coefficient is never larger than the modulus.
-/

namespace Vere.Hoon

open Vere.Lib

namespace Si

/-- A remainder is smaller than what it is a remainder by. -/
theorem abs_rem_lt {a b q : Nat} (h : fra a b = some q) : abs (dif a (pro q b)) < abs b := by
  have hb : val b ≠ 0 := by
    intro h0
    rw [fra, abs_val b, if_pos (by omega)] at h
    cases h
  obtain ⟨q', hq, hv⟩ := val_fra (a := a) hb
  obtain rfl : q' = q := Option.some.inj (hq.symm.trans h)
  have hmod : val (dif a (pro q' b)) = (val a).tmod (val b) := by
    rw [val_dif, val_pro, hv, Int.tmod_def, mul_comm]
  rw [abs_val, abs_val, hmod, Int.natAbs_tmod]
  exact Nat.mod_lt _ (by omega)

/-- On atoms without a sign, division is the one of atoms. -/
theorem fra_sun {a b : Nat} (h : b ≠ 0) : fra (sun a) (sun b) = some (sun (a / b)) := by
  obtain ⟨q, hq, hv⟩ := val_fra (a := sun a) (b := sun b) (by rw [val_sun]; omega)
  rw [hq, Option.some.injEq, ← val_inj, hv, val_sun, val_sun, val_sun]
  rw [Int.tdiv_eq_ediv_of_nonneg (by omega), Int.natCast_div]

theorem dif_sun (a b : Nat) : dif (sun a) (pro (sun (a / b)) (sun b)) = sun (a % b) := by
  rw [← val_inj, val_dif, val_pro, val_sun, val_sun, val_sun, val_sun]
  have h : ((a % b + b * (a / b) : Nat) : Int) = a := congrArg Nat.cast (Nat.mod_add_div a b)
  push_cast at h ⊢
  linarith

end Si

open Si

/-! ### `++egcd` -/

/-- The loop of `++egcd`. -/
def egcdLoop (c d : Nat) (u v : Nat × Nat) : Option (Nat × Nat × Nat) :=
  if sun 0 = c then some (abs d, u.2, v.2)
  else
    match _h : fra d c with
    | none => none
    | some q =>
        egcdLoop (dif d (pro q c)) c (dif u.2 (pro q u.1), u.1) (dif v.2 (pro q v.1), v.1)
termination_by abs c
decreasing_by exact abs_rem_lt _h

/-- `++egcd`: the greatest common divisor, and two signed coefficients. -/
def egcd (a b : Nat) : Option (Nat × Nat × Nat) :=
  egcdLoop (sun a) (sun b) (sun 1, sun 0) (sun 0, sun 1)

theorem egcdLoop_zero (d : Nat) (u v : Nat × Nat) :
    egcdLoop (sun 0) (sun d) u v = some (d, u.2, v.2) := by
  rw [egcdLoop.eq_def, if_pos rfl, abs_val, val_sun, Int.natAbs_natCast]

theorem egcdLoop_step {c : Nat} (d : Nat) (u v : Nat × Nat) (hc : c ≠ 0) :
    egcdLoop (sun c) (sun d) u v =
      egcdLoop (sun (d % c)) (sun c) (dif u.2 (pro (sun (d / c)) u.1), u.1)
        (dif v.2 (pro (sun (d / c)) v.1), v.1) := by
  have hne : ¬ sun 0 = sun c := by simp only [sun]; omega
  rw [egcdLoop.eq_def, if_neg hne]
  split
  next h => rw [fra_sun hc] at h; cases h
  next q h =>
      obtain rfl : sun (d / c) = q := Option.some.inj ((fra_sun hc).symm.trans h)
      rw [dif_sun]

/-- The coefficients of `++egcd` on `a` and `b`: `u` and `v` make `n` of them. -/
def Makes (a b n u v : Nat) : Prop := a * val u + b * val v = (n : Int)

theorem Makes.step {a b c d u v u' v' : Nat} (hd : Makes a b d u v) (hc : Makes a b c u' v') :
    Makes a b (d % c) (dif u (pro (sun (d / c)) u')) (dif v (pro (sun (d / c)) v')) := by
  have h : ((d % c + c * (d / c) : Nat) : Int) = d := congrArg Nat.cast (Nat.mod_add_div d c)
  unfold Makes at hd hc ⊢
  rw [val_dif, val_dif, val_pro, val_pro, val_sun]
  push_cast at h ⊢
  linear_combination hd - (d / c : Int) * hc - h

/-- Where the loop stands: the first coefficients of the two numbers have opposite signs, and
cross-multiplied they come to `m`. -/
structure Spread (m c d : Nat) (u : Nat × Nat) : Prop where
  signs : 0 ≤ val u.1 ∧ val u.2 ≤ 0 ∨ val u.1 ≤ 0 ∧ 0 ≤ val u.2
  area : (val u.1).natAbs * d + (val u.2).natAbs * c = m
  low : (val u.2).natAbs ≤ m

theorem Spread.step {m c d : Nat} {u : Nat × Nat} (h : Spread m c d u) (hd : 0 < d) :
    Spread m (d % c) c (dif u.2 (pro (sun (d / c)) u.1), u.1) := by
  obtain ⟨hsign, harea, -⟩ := h
  have hsplit := Nat.mod_add_div d c
  generalize d / c = q at hsplit ⊢
  generalize d % c = r at hsplit ⊢
  have hval : val (dif u.2 (pro (sun q) u.1)) = val u.2 - q * val u.1 := by
    rw [val_dif, val_pro, val_sun]
  have hq : (0 : Int) ≤ q := Int.natCast_nonneg _
  -- what is taken away has the sign of minus what it is taken from
  have habs : (val u.2 - q * val u.1).natAbs = (val u.2).natAbs + q * (val u.1).natAbs := by
    rcases hsign with ⟨h1, h2⟩ | ⟨h1, h2⟩
    · have := mul_nonneg hq h1
      zify
      rw [abs_of_nonpos (by linarith), abs_of_nonpos h2, abs_of_nonneg h1]
      ring
    · have := mul_nonpos_of_nonneg_of_nonpos hq h1
      zify
      rw [abs_of_nonneg (by linarith), abs_of_nonneg h2, abs_of_nonpos h1]
      ring
  refine ⟨?_, ?_, ?_⟩
  · show 0 ≤ val (dif _ _) ∧ val u.1 ≤ 0 ∨ val (dif _ _) ≤ 0 ∧ 0 ≤ val u.1
    rw [hval]
    rcases hsign with ⟨h1, h2⟩ | ⟨h1, h2⟩
    · have := mul_nonneg hq h1
      exact .inr ⟨by linarith, h1⟩
    · have := mul_nonpos_of_nonneg_of_nonpos hq h1
      exact .inl ⟨by linarith, h1⟩
  · show (val (dif _ _)).natAbs * c + (val u.1).natAbs * r = m
    rw [hval, habs, ← harea, ← hsplit]
    ring
  · show (val u.1).natAbs ≤ m
    calc (val u.1).natAbs ≤ (val u.1).natAbs * d := Nat.le_mul_of_pos_right _ hd
      _ ≤ m := by omega

/-- The loop ends with the greatest common divisor, coefficients that make it, the first of them
no larger than `m`. -/
theorem egcdLoop_spec {a b m c d : Nat} {u v : Nat × Nat} (hc : Makes a b c u.1 v.1)
    (hd : Makes a b d u.2 v.2) (hm : m ≠ 0 → 0 < d ∧ Spread m c d u) :
    ∃ u' v', egcdLoop (sun c) (sun d) u v = some (Nat.gcd c d, u', v') ∧
      Makes a b (Nat.gcd c d) u' v' ∧ (m ≠ 0 → (val u').natAbs ≤ m) := by
  induction c using Nat.strong_induction_on generalizing d u v with
  | h c ih =>
      by_cases hzero : c = 0
      · subst hzero
        rw [Nat.gcd_zero_left]
        exact ⟨u.2, v.2, egcdLoop_zero d u v, hd, fun h => (hm h).2.low⟩
      · rw [egcdLoop_step d u v hzero, Nat.gcd_rec c d]
        have hpos : 0 < c := by omega
        exact ih _ (Nat.mod_lt d hpos) (hd.step hc) hc fun h =>
          ⟨hpos, (hm h).2.step (hm h).1⟩

/-- `++egcd` finds the greatest common divisor and its coefficients, of which the first is at most
the second number. -/
theorem egcd_spec (a b : Nat) :
    ∃ u v, egcd a b = some (Nat.gcd a b, u, v) ∧ Makes a b (Nat.gcd a b) u v ∧
      (b ≠ 0 → (val u).natAbs ≤ b) := by
  refine egcdLoop_spec ?_ ?_ fun h => ⟨by omega, ⟨.inl ?_, ?_, ?_⟩⟩
  all_goals simp [Makes, val_sun]

/-! ### `++fo` -/

namespace Fo

/-- `sit`: reduce. -/
def sit (a b : Nat) : Option Nat := if a = 0 then none else some (b % a)

/-- `pro`: multiply. -/
def pro (a b c : Nat) : Option Nat := sit a (b * c)

/-- `exp`: raise `c` to the power `b`. -/
def exp (a b c : Nat) : Option Nat :=
  if _h : 0 = b then some 1
  else do
    let d ← exp a (rsh 0 1 b) c
    let e ← pro a d d
    if 0 = «end» 0 1 b then return e else pro a c e
termination_by b
decreasing_by simp [rsh]; omega

/-- `inv`: invert. -/
def inv (a b : Nat) : Option Nat := do
  let c ← egcd b a
  dul c.2.1 a

/-- `fra`: divide. -/
def fra (a b c : Nat) : Option Nat := do pro a b (← inv a c)

variable {m : Nat}

theorem sit_eq (hm : 1 < m) (n : Nat) : sit m n = some (n % m) :=
  if_neg (by omega)

/-- Raising to a power squares what is raised to half of it. -/
theorem exp_spec (hm : 1 < m) (e x : Nat) : exp m e x = some (x ^ e % m) := by
  induction e using Nat.strong_induction_on with
  | h e ih =>
      rw [exp]
      split
      next h => rw [← h, pow_zero, Nat.mod_eq_of_lt hm]
      next h =>
          have hhalf : rsh 0 1 e = e / 2 := by simp [rsh]
          have hsq : x ^ (e / 2) % m * (x ^ (e / 2) % m) % m = x ^ (2 * (e / 2)) % m := by
            rw [← Nat.mul_mod, ← pow_add, two_mul]
          simp only [hhalf, ih (e / 2) (by omega), pro, sit_eq hm, Option.bind_eq_bind,
            Option.bind_some, hsq, end_zero, pow_one]
          by_cases hpar : 0 = e % 2
          · rw [if_pos hpar, show 2 * (e / 2) = e by omega]
            rfl
          · rw [if_neg hpar, ← Nat.mul_mod_mod, Nat.mod_mod, Nat.mul_mod_mod, ← pow_succ',
              show 2 * (e / 2) + 1 = e by omega]

/-- The inverse: the coefficient is close enough to zero to be reduced. -/
theorem inv_spec {b : Nat} (hm : 1 < m) (hb : Nat.Coprime b m) :
    ∃ i, inv m b = some i ∧ i < m ∧ b * i % m = 1 := by
  obtain ⟨u, v, hrun, hmakes, hlow⟩ := egcd_spec b m
  obtain ⟨i, hdul, hlt, hi⟩ :=
    dul_residue (a := u) (b := m) (by omega) (.inr (hlow (by omega)))
  refine ⟨i, by simp [inv, hrun, hdul], hlt, ?_⟩
  rw [hb.gcd_eq_one, Makes] at hmakes
  have hmod : ((b * i : Nat) : Int) % m = ((1 : Nat) : Int) % m := by
    rw [Int.natCast_mul, hi, Int.mul_emod, Int.emod_emod, ← Int.mul_emod, ← hmakes,
      Int.add_mul_emod_self_left]
  have hnat : b * i % m = 1 % m := by exact_mod_cast hmod
  rw [hnat, Nat.mod_eq_of_lt hm]

/-- Modular arithmetic: Euclid's algorithm finds the greatest common divisor and coefficients that
make it; modulo a number that is not below two, powers are powers, and what is coprime to it has
an inverse, by which division multiplies. -/
theorem fo_arith (a b m : Nat) :
    (∃ u v, egcd a b = some (Nat.gcd a b, u, v) ∧ a * val u + b * val v = Nat.gcd a b) ∧
      (1 < m →
        (Nat.Coprime b m → ∃ i, inv m b = some i ∧ i < m ∧ b * i % m = 1 ∧
          ∀ x, fra m x b = some (x * i % m)) ∧
        ∀ e x, exp m e x = some (x ^ e % m)) := by
  refine ⟨?_, fun hm => ⟨fun hb => ?_, exp_spec hm⟩⟩
  · obtain ⟨u, v, hrun, hmakes, -⟩ := egcd_spec a b
    exact ⟨u, v, hrun, hmakes⟩
  · obtain ⟨i, hinv, hlt, hone⟩ := inv_spec hm hb
    refine ⟨i, hinv, hlt, hone, fun x => ?_⟩
    simp [fra, hinv, pro, sit_eq hm]

/-- Three modulo seven. -/
theorem fo_arith_seven :
    (∃ i, inv 7 3 = some i ∧ i < 7 ∧ 3 * i % 7 = 1 ∧ ∀ x, fra 7 x 3 = some (x * i % 7)) ∧
      exp 7 5 3 = some (3 ^ 5 % 7) := by
  obtain ⟨hinv, hexp⟩ := (fo_arith 3 3 7).2 (by decide)
  exact ⟨hinv (by decide), hexp 5 3⟩

end Fo

end Vere.Hoon
