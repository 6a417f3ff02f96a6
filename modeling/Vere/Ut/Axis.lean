import Vere.Lib.Bits
import Vere.Nock.Spec

/-!
# Vere.Ut.Axis

Tree addresses (`hoon.hoon`, section 2aB): `++peg` puts an axis below another, `++cap`
and `++mas` take the first step off an axis.

All three go down the bits of an axis by halving it. The closed forms say which bits they
keep: `cap` the leading two, `mas` the others below a new leading one, and `peg` all of one
axis below the other.
-/

namespace Vere.Ut

open Vere.Lib Vere.Nock

/-- `++peg`. At 0, which is no axis, the source recurses forever. -/
def peg (a b : Nat) : Nat :=
  if b = 0 then 0
  else if b = 1 then a
  else if b = 2 then a * 2
  else if b = 3 then a * 2 + 1
  else b % 2 + peg a (b / 2) * 2
termination_by b
decreasing_by omega

/-- `++cap`. Below 2 the source crashes. -/
def cap (a : Nat) : Nat :=
  if a < 2 then 0
  else if a = 2 then 2
  else if a = 3 then 3
  else cap (a / 2)
termination_by a
decreasing_by omega

/-- `++mas`. At 1 the source crashes, and at 0 it recurses forever. -/
def mas (a : Nat) : Nat :=
  if a < 2 then 0
  else if a = 2 then 1
  else if a = 3 then 1
  else a % 2 + mas (a / 2) * 2
termination_by a
decreasing_by omega

/-! ### Equations -/

theorem peg_one (a : Nat) : peg a 1 = a := by
  simp [peg]

/-- An axis above 1 is put down bit by bit. -/
theorem peg_step (a : Nat) {b : Nat} (h : 2 ≤ b) : peg a b = b % 2 + peg a (b / 2) * 2 := by
  rw [peg, if_neg (by omega), if_neg (by omega)]
  by_cases h2 : b = 2
  · subst h2
    simp [peg_one]
  · by_cases h3 : b = 3
    · subst h3
      simp [peg_one, Nat.add_comm]
    · rw [if_neg h2, if_neg h3]

theorem peg_two (a : Nat) : peg a 2 = a * 2 := by
  simp [peg]

theorem peg_three (a : Nat) : peg a 3 = a * 2 + 1 := by
  simp [peg]

theorem peg_half (a : Nat) {b : Nat} (h : 2 ≤ b) : peg a b / 2 = peg a (b / 2) := by
  rw [peg_step a h]
  omega

theorem peg_mod (a : Nat) {b : Nat} (h : 2 ≤ b) : peg a b % 2 = b % 2 := by
  rw [peg_step a h]
  omega

theorem peg_pos {a b : Nat} (ha : 0 < a) (hb : 0 < b) : 0 < peg a b := by
  induction b using Nat.strongRecOn with
  | ind b ih =>
      by_cases h1 : b = 1
      · rw [h1, peg_one]
        exact ha
      · have := ih (b / 2) (by omega) (by omega)
        rw [peg_step a (by omega)]
        omega

/-- The noun at an axis below another. -/
theorem slot_peg {a b : Nat} (ha : 0 < a) (hb : 0 < b) (n : Noun) :
    slot (peg a b) n = (slot a n).bind (slot b) := by
  induction b using Nat.strongRecOn with
  | ind b ih =>
      by_cases h1 : b = 1
      · subst h1
        rw [peg_one]
        cases slot a n with
        | none => rfl
        | some x => exact (slot_one x).symm
      · have hpos := peg_pos ha (show 0 < b / 2 by omega)
        have hstep : 2 ≤ peg a b := by
          rw [peg_step a (by omega)]
          omega
        rw [slot_step hstep, peg_half a (by omega), peg_mod a (by omega),
          ih (b / 2) (by omega) (by omega)]
        cases slot a n with
        | none => rfl
        | some x =>
            show _ = slot b x
            rw [slot_step (by omega : 2 ≤ b)]
            rfl

theorem peg_assoc {a b c : Nat} (hb : 0 < b) (hc : 0 < c) : peg (peg a b) c = peg a (peg b c) := by
  induction c using Nat.strongRecOn with
  | ind c ih =>
      by_cases h1 : c = 1
      · rw [h1, peg_one, peg_one]
      · have hpos := peg_pos hb (show 0 < c / 2 by omega)
        have hstep : 2 ≤ peg b c := by
          rw [peg_step b (by omega)]
          omega
        rw [peg_step _ (show 2 ≤ c by omega), peg_step a hstep, peg_half b (by omega),
          peg_mod b (by omega), ih (c / 2) (by omega) (by omega)]

/-! ### The first step of an axis -/

theorem cap_step {a : Nat} (h : 4 ≤ a) : cap a = cap (a / 2) := by
  rw [cap, if_neg (by omega), if_neg (by omega), if_neg (by omega)]

theorem mas_step {a : Nat} (h : 4 ≤ a) : mas a = a % 2 + mas (a / 2) * 2 := by
  rw [mas, if_neg (by omega), if_neg (by omega), if_neg (by omega)]

theorem cap_two_or_three {a : Nat} (h : 2 ≤ a) : cap a = 2 ∨ cap a = 3 := by
  induction a using Nat.strongRecOn with
  | ind a ih =>
      by_cases h4 : 4 ≤ a
      · rw [cap_step h4]
        exact ih (a / 2) (by omega) (by omega)
      · obtain rfl | rfl : a = 2 ∨ a = 3 := by omega
        · exact .inl (by simp [cap])
        · exact .inr (by simp [cap])

theorem mas_pos {a : Nat} (h : 2 ≤ a) : 0 < mas a := by
  induction a using Nat.strongRecOn with
  | ind a ih =>
      by_cases h4 : 4 ≤ a
      · have := ih (a / 2) (by omega) (by omega)
        rw [mas_step h4]
        omega
      · obtain rfl | rfl : a = 2 ∨ a = 3 := by omega
        · simp [mas]
        · simp [mas]

/-- What `cap` and `mas` take apart is put together by `peg`. -/
theorem peg_cap_mas {a : Nat} (h : 2 ≤ a) : peg (cap a) (mas a) = a := by
  induction a using Nat.strongRecOn with
  | ind a ih =>
      by_cases h4 : 4 ≤ a
      · have hpos := mas_pos (show 2 ≤ a / 2 by omega)
        rw [cap_step h4, mas_step h4, peg_step _ (by omega),
          show (a % 2 + mas (a / 2) * 2) % 2 = a % 2 by omega,
          show (a % 2 + mas (a / 2) * 2) / 2 = mas (a / 2) by omega, ih (a / 2) (by omega) (by omega)]
        omega
      · obtain rfl | rfl : a = 2 ∨ a = 3 := by omega
        · simp [cap, mas, peg]
        · simp [cap, mas, peg]

theorem mas_lt {a : Nat} (h : 2 ≤ a) : mas a < a := by
  induction a using Nat.strongRecOn with
  | ind a ih =>
      by_cases h4 : 4 ≤ a
      · have := ih (a / 2) (by omega) (by omega)
        rw [mas_step h4]
        omega
      · obtain rfl | rfl : a = 2 ∨ a = 3 := by omega
        · simp [mas]
        · simp [mas]

/-! ### Closed forms -/

theorem size_half {n : Nat} (h : 2 ≤ n) : n.size = (n / 2).size + 1 := by
  conv_lhs => rw [show n = n % 2 + 2 ^ 1 * (n / 2) by omega]
  rw [size_add_mul (by omega) (by omega), Nat.add_comm]

/-- `peg` puts the bits below the leading one of `b` below all of `a`. -/
theorem peg_eq (a : Nat) {b : Nat} (h : 0 < b) :
    peg a b = (b - 2 ^ (b.size - 1)) + 2 ^ (b.size - 1) * a := by
  induction b using Nat.strongRecOn with
  | ind b ih =>
      by_cases h1 : b = 1
      · subst h1
        simp [peg_one]
      · have hle := two_pow_size_pred_le (show 0 < b / 2 by omega)
        have hpos := Nat.size_pos.mpr (show 0 < b / 2 by omega)
        have hpow : 2 ^ (b.size - 1) = 2 * 2 ^ ((b / 2).size - 1) := by
          rw [size_half (by omega), Nat.add_sub_cancel, ← Nat.pow_succ']
          congr 1
          omega
        rw [peg_step a (by omega), ih (b / 2) (by omega) (by omega), hpow, Nat.add_mul, Nat.mul_assoc 2]
        omega

/-- An axis below another has the bits of both, less the leading one. -/
theorem size_peg (a : Nat) {b : Nat} (h : 0 < b) : (peg a b).size < a.size + b.size := by
  have hpos := Nat.size_pos.mpr h
  have ha := Nat.lt_size_self a
  have hb := Nat.lt_size_self b
  have hpow : 2 ^ b.size = 2 * 2 ^ (b.size - 1) := by
    rw [← Nat.pow_succ', Nat.succ_eq_add_one, Nat.sub_add_cancel hpos]
  have hlt : peg a b < 2 ^ (a.size + (b.size - 1)) := by
    calc peg a b = (b - 2 ^ (b.size - 1)) + 2 ^ (b.size - 1) * a := peg_eq a h
      _ < 2 ^ (b.size - 1) + 2 ^ (b.size - 1) * a := by omega
      _ = 2 ^ (b.size - 1) * (a + 1) := by rw [Nat.mul_add, Nat.mul_one, Nat.add_comm]
      _ ≤ 2 ^ (b.size - 1) * 2 ^ a.size := Nat.mul_le_mul_left _ ha
      _ = 2 ^ (a.size + (b.size - 1)) := by rw [← Nat.pow_add, Nat.add_comm]
  have hle := Nat.size_le.mpr hlt
  omega

/-- `cap` is the leading two bits. -/
theorem cap_eq {a : Nat} (h : 2 ≤ a) : cap a = a / 2 ^ (a.size - 2) := by
  induction a using Nat.strongRecOn with
  | ind a ih =>
      by_cases h4 : 4 ≤ a
      · have hsize := size_half h
        have hsize' := size_half (show 2 ≤ a / 2 by omega)
        have hpos := Nat.size_pos.mpr (show 0 < a / 2 / 2 by omega)
        rw [cap_step h4, ih (a / 2) (by omega) (by omega), Nat.div_div_eq_div_mul, ← Nat.pow_succ']
        congr 2
        omega
      · obtain rfl | rfl : a = 2 ∨ a = 3 := by omega
        · simp [cap, size_half]
        · simp [cap, size_half]

/-- `mas` takes off the leading two bits for a leading one. -/
theorem mas_eq {a : Nat} (h : 2 ≤ a) : mas a = a % 2 ^ (a.size - 2) + 2 ^ (a.size - 2) := by
  induction a using Nat.strongRecOn with
  | ind a ih =>
      by_cases h4 : 4 ≤ a
      · have hsize := size_half h
        have hsize' := size_half (show 2 ≤ a / 2 by omega)
        have hpos := Nat.size_pos.mpr (show 0 < a / 2 / 2 by omega)
        have hpow : 2 ^ (a.size - 2) = 2 * 2 ^ ((a / 2).size - 2) := by
          rw [← Nat.pow_succ']
          congr 1
          omega
        rw [mas_step h4, ih (a / 2) (by omega) (by omega), hpow, Nat.mod_mul]
        omega
      · obtain rfl | rfl : a = 2 ∨ a = 3 := by omega
        · simp [mas, size_half]
        · simp [mas, size_half]

/-- Without its leading bit, and the one below it set. -/
theorem mas_or {a : Nat} (h : 2 ≤ a) : (a - 2 ^ (a.size - 1)) ||| 2 ^ (a.size - 2) = mas a := by
  have hsize := size_half h
  have hpos := Nat.size_pos.mpr (show 0 < a / 2 by omega)
  have hle := two_pow_size_pred_le (show 0 < a by omega)
  have hlow : a % 2 ^ (a.size - 2) < 2 ^ (a.size - 2) := Nat.mod_lt _ (Nat.two_pow_pos _)
  have hor := Nat.two_pow_add_eq_or_of_lt hlow 1
  have hsplit := Nat.mod_add_div a (2 ^ (a.size - 2))
  have hpow : 2 ^ (a.size - 1) = 2 * 2 ^ (a.size - 2) := by
    rw [← Nat.pow_succ']
    congr 1
    omega
  rw [Nat.mul_one] at hor
  rw [← cap_eq h] at hsplit
  rw [mas_eq h]
  obtain hc | hc := cap_two_or_three h
  · rw [hc] at hsplit
    rw [show a - 2 ^ (a.size - 1) = a % 2 ^ (a.size - 2) by omega, Nat.or_comm, ← hor, Nat.add_comm]
  · rw [hc] at hsplit
    rw [show a - 2 ^ (a.size - 1) = 2 ^ (a.size - 2) + a % 2 ^ (a.size - 2) by omega, hor,
      Nat.or_assoc, Nat.or_comm (a % _), ← Nat.or_assoc, Nat.or_self, ← hor, Nat.add_comm]

/-! ### Nouns at axes -/

/-- An axis of a cell is an axis of one of its halves. -/
theorem slot_cell {a : Nat} (h : 2 ≤ a) (hed tal : Noun) :
    slot a (.cell hed tal) = slot (mas a) (if cap a = 2 then hed else tal) := by
  conv_lhs => rw [← peg_cap_mas h]
  obtain hc | hc := cap_two_or_three h
  · rw [slot_peg (by omega) (mas_pos h), hc, slot_two, if_pos rfl]
    rfl
  · rw [slot_peg (by omega) (mas_pos h), hc, slot_three, if_neg (by decide)]
    rfl

/-- An axis that has something below it is one. -/
theorem pos_of_slot {x : Nat} {a p : Noun} (h : slot x a = some p) : 0 < x := by
  refine Nat.pos_of_ne_zero ?_
  rintro rfl
  rw [slot_zero] at h
  cases h

theorem slot_atom {a x : Nat} (h : 2 ≤ a) : slot a (.atom x) = none := by
  induction a using Nat.strongRecOn with
  | ind a ih =>
      rw [slot_step h]
      by_cases h4 : 4 ≤ a
      · rw [ih (a / 2) (by omega) (by omega)]
      · rw [show a / 2 = 1 by omega, slot_one]

/-- How many steps a noun goes down. -/
def depth : Noun → Nat
  | .atom _ => 0
  | .cell h t => max (depth h) (depth t) + 1

/-- An axis is no longer than the noun is deep. -/
theorem slot_depth {n : Nat} {a p : Noun} (h : slot n a = some p) :
    depth p + n.size ≤ depth a + 1 := by
  induction n using Nat.strongRecOn generalizing p with
  | ind n ih =>
      by_cases h0 : n = 0
      · rw [h0, slot_zero] at h
        cases h
      by_cases h1 : n = 1
      · subst h1
        rw [slot_one] at h
        cases h
        rw [Nat.size_one]
      · rw [slot_step (by omega)] at h
        split at h
        · next x y heq =>
            have ih := ih (n / 2) (by omega) heq
            have hp : depth p ≤ max (depth x) (depth y) := by
              cases h
              split
              · exact Nat.le_max_left ..
              · exact Nat.le_max_right ..
            rw [size_half (by omega)]
            simp only [depth] at ih
            omega
        · cases h

/-! ### Axes that are apart -/

/-- The axis `b` is `a` or below it. -/
def Within (a b : Nat) : Prop := ∃ c, 0 < c ∧ b = peg a c

/-- Neither axis is below the other. -/
def Disjoint (a b : Nat) : Prop := ¬Within a b ∧ ¬Within b a

theorem one_peg {b : Nat} (h : 0 < b) : peg 1 b = b := by
  have hle := two_pow_size_pred_le h
  rw [peg_eq 1 h]
  omega

theorem within_one {b : Nat} (h : 0 < b) : Within 1 b := ⟨b, h, (one_peg h).symm⟩

/-- Axes that begin with the same step are apart if they are apart behind it. -/
theorem Disjoint.mas {a b : Nat} (h : Disjoint a b) (ha : 2 ≤ a) (hb : 2 ≤ b)
    (hcap : cap a = cap b) : Disjoint (mas a) (mas b) := by
  have hdown : ∀ x y, 2 ≤ x → 2 ≤ y → cap x = cap y → Within (Ut.mas x) (Ut.mas y) →
      Within x y := by
    intro x y hx hy hxy ⟨c, hc, heq⟩
    refine ⟨c, hc, ?_⟩
    rw [← peg_cap_mas hy, heq, ← peg_assoc (mas_pos hx) hc, ← hxy, peg_cap_mas hx]
  exact ⟨fun hab => h.1 (hdown a b ha hb hcap hab), fun hba => h.2 (hdown b a hb ha hcap.symm hba)⟩

/-- The first step of an axis below 2 or 3. -/
theorem cap_peg {h x : Nat} (hh : h = 2 ∨ h = 3) (hx : 0 < x) : cap (peg h x) = h := by
  induction x using Nat.strongRecOn with
  | ind x ih =>
      by_cases h1 : x = 1
      · rw [h1, peg_one, cap]
        rcases hh with rfl | rfl <;> rfl
      · have hpos := peg_pos (show 0 < h by omega) (show 0 < x / 2 by omega)
        have hge : 2 ≤ peg h (x / 2) := by
          by_contra hlt
          have hcap := ih (x / 2) (by omega) (by omega)
          rw [cap, if_pos (by omega)] at hcap
          omega
        have hhalf := peg_half h (show 2 ≤ x by omega)
        rw [cap_step (by omega), hhalf]
        exact ih (x / 2) (by omega) (by omega)

theorem peg_low {h x : Nat} (hh : 2 ≤ h) (hx : 0 < x) : 2 ≤ peg h x := by
  induction x using Nat.strongRecOn with
  | ind x ih =>
      by_cases h1 : x = 1
      · rwa [h1, peg_one]
      · have hhalf := peg_half h (show 2 ≤ x by omega)
        have hlow := ih (x / 2) (by omega) (by omega)
        omega

/-- What is behind it. -/
theorem mas_peg {h x : Nat} (hh : h = 2 ∨ h = 3) (hx : 0 < x) : mas (peg h x) = x := by
  induction x using Nat.strongRecOn with
  | ind x ih =>
      by_cases h1 : x = 1
      · rw [h1, peg_one, mas]
        rcases hh with rfl | rfl <;> rfl
      · have hx2 : 2 ≤ x := by omega
        have hhalf := peg_half h hx2
        have hlow := peg_low (show 2 ≤ h by omega) (show 0 < x / 2 by omega)
        rw [mas_step (by omega), hhalf, peg_mod h hx2, ih (x / 2) (by omega) (by omega)]
        omega

/-- The axis `a` is to the left of `b`: they part at some `c`. -/
def Before (a b : Nat) : Prop :=
  ∃ c x y, 0 < c ∧ 0 < x ∧ 0 < y ∧ a = peg c (peg 2 x) ∧ b = peg c (peg 3 y)

/-- Axes in tree order part at once or go on in tree order. -/
theorem Before.step {a b : Nat} (h : Before a b) :
    2 ≤ a ∧ 2 ≤ b ∧ (cap a = 2 ∧ cap b = 3 ∨ cap a = cap b ∧ Before (mas a) (mas b)) := by
  obtain ⟨c, x, y, hc, hx, hy, rfl, rfl⟩ := h
  have hl : 0 < peg 2 x := peg_pos (by decide) hx
  have hr : 0 < peg 3 y := peg_pos (by decide) hy
  by_cases h1 : c = 1
  · rw [h1, one_peg hl, one_peg hr]
    exact ⟨peg_low (by decide) hx, peg_low (by decide) hy,
      .inl ⟨cap_peg (.inl rfl) hx, cap_peg (.inr rfl) hy⟩⟩
  · have hc2 : 2 ≤ c := by omega
    have hm := mas_pos hc2
    have hdown : ∀ z, 0 < z → peg c z = peg (cap c) (peg (mas c) z) := by
      intro z hz
      rw [← peg_assoc hm hz, peg_cap_mas hc2]
    have hcl := peg_pos hm hl
    have hcr := peg_pos hm hr
    have hcap := cap_two_or_three hc2
    refine ⟨peg_low hc2 hl, peg_low hc2 hr, .inr ?_⟩
    rw [hdown _ hl, hdown _ hr, cap_peg hcap hcl, cap_peg hcap hcr, mas_peg hcap hcl,
      mas_peg hcap hcr]
    exact ⟨rfl, mas c, x, y, hm, hx, hy, rfl, rfl⟩

/-! ### Runs of the arms -/

/-- `++peg` of `a` and `b` comes to an end with a product. -/
inductive Pegs (a : Nat) : Nat → Nat → Prop
  | one : Pegs a 1 a
  | two : Pegs a 2 (a * 2)
  | three : Pegs a 3 (a * 2 + 1)
  | more {b c : Nat} (h : b ≠ 1 ∧ b ≠ 2 ∧ b ≠ 3) (low : Pegs a (b / 2) c) :
      Pegs a b (b % 2 + c * 2)

/-- `++cap` comes to an end, with a product or a crash. -/
inductive Caps : Nat → Option Nat → Prop
  | two : Caps 2 (some 2)
  | three : Caps 3 (some 3)
  | zero : Caps 0 none
  | one : Caps 1 none
  | more {a : Nat} {o : Option Nat} (h : a ≠ 2 ∧ a ≠ 3 ∧ a ≠ 0 ∧ a ≠ 1) (low : Caps (a / 2) o) :
      Caps a o

/-- `++mas` comes to an end, with a product or a crash. -/
inductive Mass : Nat → Option Nat → Prop
  | one : Mass 1 none
  | two : Mass 2 (some 1)
  | three : Mass 3 (some 1)
  | more {a : Nat} {o : Option Nat} (h : a ≠ 1 ∧ a ≠ 2 ∧ a ≠ 3) (low : Mass (a / 2) o) :
      Mass a (o.map fun c => a % 2 + c * 2)

theorem pegs_iff {a b v : Nat} : Pegs a b v ↔ 0 < b ∧ v = peg a b := by
  constructor
  · intro h
    induction h with
    | one => simp [peg_one]
    | two => simp [peg_two]
    | three => simp [peg_three]
    | more h low ih =>
        obtain ⟨hpos, rfl⟩ := ih
        exact ⟨by omega, (peg_step a (by omega)).symm⟩
  · rintro ⟨hpos, rfl⟩
    induction b using Nat.strongRecOn with
    | ind b ih =>
        by_cases h : b ≠ 1 ∧ b ≠ 2 ∧ b ≠ 3
        · rw [peg_step a (by omega)]
          exact .more h (ih (b / 2) (by omega) (by omega))
        · obtain rfl | rfl | rfl : b = 1 ∨ b = 2 ∨ b = 3 := by omega
          · rw [peg_one]
            exact .one
          · rw [peg_two]
            exact .two
          · rw [peg_three]
            exact .three

theorem caps_iff {a : Nat} {o : Option Nat} :
    Caps a o ↔ o = if a < 2 then none else some (cap a) := by
  constructor
  · intro h
    induction h with
    | two => rw [cap]; rfl
    | three => rw [cap]; rfl
    | zero => rfl
    | one => rfl
    | more h low ih => rw [ih, if_neg (by omega), if_neg (by omega), ← cap_step (by omega)]
  · rintro rfl
    induction a using Nat.strongRecOn with
    | ind a ih =>
        by_cases h : a ≠ 2 ∧ a ≠ 3 ∧ a ≠ 0 ∧ a ≠ 1
        · have hlow := ih (a / 2) (by omega)
          rw [if_neg (by omega), ← cap_step (by omega)] at hlow
          rw [if_neg (by omega)]
          exact .more h hlow
        · obtain rfl | rfl | rfl | rfl : a = 2 ∨ a = 3 ∨ a = 0 ∨ a = 1 := by omega
          · rw [cap]
            exact .two
          · rw [cap]
            exact .three
          · exact .zero
          · exact .one

theorem mass_iff {a : Nat} {o : Option Nat} (h : 0 < a) :
    Mass a o ↔ o = if a < 2 then none else some (mas a) := by
  constructor
  · intro h
    induction h with
    | one => rfl
    | two => rw [mas]; rfl
    | three => rw [mas]; rfl
    | more h low ih =>
        rw [ih (by omega), if_neg (by omega), if_neg (by omega), Option.map_some,
          ← mas_step (by omega)]
  · rintro rfl
    induction a using Nat.strongRecOn with
    | ind a ih =>
        by_cases hmore : a ≠ 1 ∧ a ≠ 2 ∧ a ≠ 3
        · have hlow := ih (a / 2) (by omega) (by omega)
          rw [if_neg (by omega)] at hlow
          rw [if_neg (by omega), mas_step (by omega)]
          exact .more hmore hlow
        · obtain rfl | rfl | rfl : a = 1 ∨ a = 2 ∨ a = 3 := by omega
          · exact .one
          · rw [mas]
            exact .two
          · rw [mas]
            exact .three

/-- `++mas` of 0 does not come to an end. -/
theorem not_mass_zero (o : Option Nat) : ¬Mass 0 o := by
  intro h
  generalize ha : 0 = a at h
  induction h with
  | one => cases ha
  | two => cases ha
  | three => cases ha
  | more h low ih => exact ih (by omega)

end Vere.Ut
