import Vere.Jets.Bloq
import Vere.Jets.Comb
import Vere.Jets.PackSpec
import Vere.Nock.Frag

/-!
# Vere.Jets.Axis

The axis jets of `gen164/3` beside the arms, at every size.

The arms go down an axis by halving it; the jets take it apart by its length. They agree on
crashes as far as the arms crash: where `++mas` and `++peg` are given 0 the arms have no end and
the jets exit. `mas` makes powers of two of the length, for which `bex` wants a direct atom.
-/

namespace Vere.Jets

open Vere.Lib Vere.Nock

/-- `peg`, while the length of the second axis is a direct atom and the slab for the whole does
not wrap. -/
theorem peg_roomy {a b : Nat} (ha : InLoom a) (hb : 0 < b) (hcat : b.size < 2 ^ 31)
    (hsum : a.size + b.size + 30 < 2 ^ 32) : peg a b = .ok (Ut.peg a b) := by
  have hpos := Nat.size_pos.mpr hb
  have hle := two_pow_size_pred_le hb
  have hd : isCat (b.size - 1) = true := isCat_iff.mpr (by omega)
  have hone : lsh 0 (b.size - 1) 1 = .ok (2 ^ (b.size - 1)) := by
    rw [lsh_eq (by decide) hd inLoom_one (by rw [Roomy, Hoon.met_zero, Nat.size_one]; omega),
      Hoon.lsh_zero, Nat.mul_one]
  have hup : lsh 0 (b.size - 1) a = .ok (2 ^ (b.size - 1) * a) := by
    rw [lsh_eq (by decide) hd ha (by rw [Roomy, Hoon.met_zero]; omega), Hoon.lsh_zero]
  simp only [peg, u2Met_zero (show b.size < 2 ^ 32 by omega), dec_eq hpos, bind, Except.bind,
    hone, hup, sub_eq hle, Ut.peg_eq a hb, pure, Except.pure]

theorem peg_zero (a : Nat) : peg a 0 = .error .exit := rfl

theorem met_low {a : Nat} (h : a < 2) : u2Met 0 a < 2 := by
  have hsize : a.size ≤ 1 := Nat.size_le.mpr h
  rw [u2Met_zero (by omega)]
  omega

theorem cap_low {a : Nat} (h : a < 2) : cap a = .error .exit := by
  rw [cap]
  exact if_pos (met_low h)

theorem mas_low {a : Nat} (h : a < 2) : mas a = .error .exit := by
  rw [mas]
  exact if_pos (met_low h)

/-- Equal products or crashes on both sides. -/
theorem ofHoon_iff {α : Type} {p o : Option α} {r : Jet α} (h : r = ofHoon p) :
    o = p ↔ r = ofHoon o := by
  rw [h]
  cases p <;> cases o <;> simp [ofHoon, eq_comm]

/-- `cap` is the arm, crashes included. -/
theorem caps_jet {a : Nat} (ha : InLoom a) (o : Option Nat) : Ut.Caps a o ↔ cap a = ofHoon o := by
  have hsize := ha.size_le
  rw [Ut.caps_iff]
  refine ofHoon_iff ?_
  by_cases h : a < 2
  · rw [if_pos h]
    exact cap_low h
  · rw [if_neg h]
    exact cap_eq (Nat.le_of_not_lt h) (by omega)

/-- `mas` is the arm but on 0, which the arm does not come to an end on. -/
theorem mass_jet {a : Nat} (hpos : 0 < a) (hsize : a.size ≤ 2 ^ 31) (o : Option Nat) :
    Ut.Mass a o ↔ mas a = ofHoon o := by
  rw [Ut.mass_iff hpos]
  refine ofHoon_iff ?_
  by_cases h : a < 2
  · rw [if_pos h]
    exact mas_low h
  · rw [if_neg h]
    exact mas_eq (Nat.le_of_not_lt h) hsize

/-- The algebra of axes. The arms put any axes together and take them apart, and a walk along
both is a walk along the one and then along the other. The jets are the arms: `cap` on every
atom, crashes included, `mas` on axes of at most `2^31` bits, `peg` while the lengths are
counted; at 0, where `++mas` and `++peg` have no end, they exit. -/
theorem axis_algebra :
    (∀ a b n, 0 < a → 0 < b → frag (Ut.peg a b) n = (frag a n).bind (frag b)) ∧
    (∀ a, 1 < a → Ut.peg (Ut.cap a) (Ut.mas a) = a) ∧
    (∀ a b c, 0 < a → 0 < b → 0 < c → Ut.peg (Ut.peg a b) c = Ut.peg a (Ut.peg b c)) ∧
    (∀ a, 0 < a → Ut.peg 1 a = a ∧ Ut.peg a 1 = a) ∧
    (∀ a b, InLoom a → 0 < b → b.size < 2 ^ 31 → a.size + b.size + 30 < 2 ^ 32 →
      ∀ v, Ut.Pegs a b v ↔ peg a b = .ok v) ∧
    (∀ a, InLoom a → ∀ o, Ut.Caps a o ↔ cap a = ofHoon o) ∧
    (∀ a, 0 < a → a.size ≤ 2 ^ 31 → ∀ o, Ut.Mass a o ↔ mas a = ofHoon o) ∧
    (∀ a, peg a 0 = .error .exit ∧ ∀ v, ¬Ut.Pegs a 0 v) ∧
    mas 0 = .error .exit ∧ ∀ o, ¬Ut.Mass 0 o := by
  refine ⟨fun a b n ha hb => ?_, fun a ha => Ut.peg_cap_mas ha,
    fun a b c _ hb hc => Ut.peg_assoc hb hc, fun a ha => ⟨Ut.one_peg ha, Ut.peg_one a⟩,
    fun a b ha hb hcat hsum v => ?_, fun a ha => caps_jet ha,
    fun a hpos hsize => mass_jet hpos hsize, fun a => ⟨peg_zero a, fun v hv => ?_⟩,
    mas_low (by decide), Ut.not_mass_zero⟩
  · simp only [frag_eq_slot, Ut.slot_peg ha hb]
  · rw [Ut.pegs_iff, peg_roomy ha hb hcat hsum, Except.ok.injEq, eq_comm]
    exact and_iff_right hb
  · rw [Ut.pegs_iff] at hv
    exact absurd hv.1 (Nat.lt_irrefl 0)

/-- An axis of `2^31 + 1` bits has a body, and `mas` refuses it. -/
theorem mas_wide :
    mas (2 ^ 2 ^ 31) = .error .fail ∧ Ut.Mass (2 ^ 2 ^ 31) (some (Ut.mas (2 ^ 2 ^ 31))) := by
  have hsize : (2 ^ 2 ^ 31).size = 2 ^ 31 + 1 := Nat.size_pow
  have hlow : ¬2 ^ 2 ^ 31 < 2 := by
    rw [Nat.not_lt]
    exact Nat.le_self_pow (by decide) 2
  constructor
  · rw [mas, u2Met_zero (by rw [hsize]; decide), hsize]
    rfl
  · rw [Ut.mass_iff (Nat.two_pow_pos _), if_neg hlow]

end Vere.Jets
