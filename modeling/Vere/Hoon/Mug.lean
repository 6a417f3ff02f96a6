import Vere.Hoon.Bits
import Vere.Lib.Fnv

/-!
# Vere.Hoon.Mug

The noun hash `++mug` (`hoon.hoon`, section 2cD).

The hash of an atom folds the word its bytes hash to down to 31 bits, and starts again
from the next offset if that is zero. The hash of a cell computes the same folding as `d`,
but returns the word `c` itself.
-/

namespace Vere.Hoon

open Vere.Lib Vere.Lib.Fnv

/-- `++fnv`: FNV scrambler. -/
def fnv (a : Nat) : Nat := «end» 5 1 (16777619 * a)

/-- The loop of `++mug` on a cell, with the hashes of its halves. It goes round again only
on a zero, which happens once at most, so three rounds are more than it ever takes
(`mugCell_ne_zero`). -/
def mugCell (p q : Nat) : Nat := search (fun q => fnv (mix p (fnv q))) (· + 1) 3 q

/-- The inner loop of `++mug` on an atom: `n` bytes from the byte `d` on. -/
def mugBytes (a : Nat) : Nat → Nat → Nat → Nat
  | 0, c, _ => c
  | n + 1, c, d => mugBytes a n (fnv (mix c (cut 3 d 1 a))) (d + 1)

/-- The outer loop of `++mug` on an atom. It is over in three rounds (`mugAtom_ne_zero`). -/
def mugAtom (a : Nat) : Nat :=
  search
    (fun b =>
      let c := mugBytes a (met 3 a) b 0
      mix (rsh 0 31 c) («end» 0 31 c))
    (· + 1) 3 2166136261

/-- `++mug`. -/
def mug : Noun → Nat
  | .cell h t => mugCell (mug h) (mug t)
  | .atom a => mugAtom a

/-! ### The loops on words -/

theorem fnv_eq (a : Nat) : fnv a = scramble a := by
  simp [fnv, «end», scramble, prime]

theorem mugCell_eq (p q : Nat) :
    mugCell p q = search (both p) (· + 1) 3 q := by
  simp only [mugCell, fnv_eq, mix_eq]
  rfl

theorem metLoop_add (a b c d : Nat) : metLoop a b (c + d) = metLoop a b c + d := by
  induction b, c using metLoop.induct a with
  | case1 c => rw [metLoop, dif_pos rfl, metLoop, dif_pos rfl]
  | case2 b c hb ih =>
      have hl : metLoop a b c = metLoop a (rsh a 1 b) (c + 1) := by
        rw [metLoop, dif_neg hb]
      rw [hl, ← ih, metLoop, dif_neg hb, Nat.add_right_comm]

/-- One byte more than what is left without the lowest one. -/
theorem met_byte {b : Nat} (hb : b ≠ 0) : met 3 b = met 3 (b / 256) + 1 := by
  have hr : rsh 3 1 b = b / 256 := by simp [rsh]
  rw [met, metLoop, dif_neg hb, hr, metLoop_add, met]

theorem mugBytes_eq (a n c d : Nat) (h : met 3 (a / 256 ^ d) = n) :
    mugBytes a n c d = feed c (a / 256 ^ d) := by
  induction n generalizing c d with
  | zero =>
      have hz : a / 256 ^ d = 0 := by
        by_contra hne
        rw [met_byte hne] at h
        exact absurd h (Nat.succ_ne_zero _)
      rw [mugBytes, hz, feed_zero]
  | succ n ih =>
      have hne : a / 256 ^ d ≠ 0 := by
        intro hz
        have h0 : met 3 0 = 0 := by rw [met, metLoop, dif_pos rfl]
        rw [hz, h0] at h
        exact absurd h.symm (Nat.succ_ne_zero n)
      have hdiv : a / 256 ^ d / 256 = a / 256 ^ (d + 1) := by
        rw [Nat.div_div_eq_div_mul, Nat.pow_succ]
      have hcut : cut 3 d 1 a = a / 256 ^ d % 256 := by
        simp [cut, rsh, «end», Nat.pow_mul]
      rw [met_byte hne, hdiv] at h
      rw [mugBytes, fnv_eq, mix_eq, hcut, feed_byte c hne, hdiv]
      exact ih _ _ (Nat.succ.inj h)

theorem mugAtom_eq (a : Nat) :
    mugAtom a = search (fun b => fold (feed b a)) (· + 1) 3 2166136261 := by
  have hb : ∀ b, mugBytes a (met 3 a) b 0 = feed b a := by
    intro b
    have h := mugBytes_eq a (met 3 a) b 0 (by rw [Nat.pow_zero, Nat.div_one])
    rwa [Nat.pow_zero, Nat.div_one] at h
  have hr : ∀ c, rsh 0 31 c = c / 2 ^ 31 := fun c => by simp [rsh]
  simp only [mugAtom, hb, hr, end_zero, mix_eq, fold]

/-- The hash of a cell, by what the loop does. -/
theorem mug_cell (h t : Noun) :
    mug (.cell h t) = search (both (mug h)) (· + 1) 3 (mug t) := mugCell_eq _ _

theorem mug_atom (a : Nat) :
    mug (.atom a) = search (fun b => fold (feed b a)) (· + 1) 3 2166136261 := mugAtom_eq a

/-! ### The loops end -/

theorem mugCell_ne_zero {p q : Nat} (hp : p < 2 ^ 32) (hq : q < 2 ^ 32) : mugCell p q ≠ 0 := by
  rw [mugCell_eq]
  refine search_ne_zero ?_
  intro h
  rw [← both_mod p (q + 1)] at h
  have hqq : q = (q + 1) % 2 ^ 32 := both_inj hp hq (Nat.mod_lt _ (by norm_num)) h
  omega

theorem mugAtom_ne_zero (a : Nat) : mugAtom a ≠ 0 := by
  rw [mugAtom_eq]
  refine search_fold_ne_zero ?_ ?_
  · intro i hi
    exact feed_lt (by omega) a
  · intro i hi j hj h
    have hij := feed_inj (by omega) (by omega) h
    omega

theorem mugAtom_lt (a : Nat) : mugAtom a < 2 ^ 31 := by
  have hne := mugAtom_ne_zero a
  rw [mugAtom_eq] at hne ⊢
  obtain ⟨i, hi, hd⟩ := search_eq hne
  rw [hd]
  exact fold_lt (feed_lt (by omega) a)

theorem mug_lt (n : Noun) : mug n < 2 ^ 32 := by
  cases n with
  | atom a =>
      have h := mugAtom_lt a
      rw [mug]
      omega
  | cell h t =>
      rw [mug, mugCell_eq]
      by_cases hz : search (both (mug h)) (· + 1) 3 (mug t) = 0
      · rw [hz]
        norm_num
      · obtain ⟨i, -, hi⟩ := search_eq hz
        rw [hi]
        exact both_lt _ _

/-- The loops always find a hash. -/
theorem mug_ne_zero (n : Noun) : mug n ≠ 0 := by
  cases n with
  | atom a => exact mugAtom_ne_zero a
  | cell h t => exact mugCell_ne_zero (mug_lt h) (mug_lt t)

/-! ### The hashes of a few small nouns -/

theorem mug_zero : mug (.atom 0) = 18652612 := by
  rw [mug_atom]
  decide

theorem mug_one : mug (.atom 1) = 67918732 := by
  rw [mug_atom]
  decide

theorem mug_zero_zero : mug (.cell (.atom 0) (.atom 0)) = 3244827480 := by
  rw [mug_cell, mug_zero]
  decide

theorem mug_zero_one : mug (.cell (.atom 0) (.atom 1)) = 2726460384 := by
  rw [mug_cell, mug_zero, mug_one]
  decide

/-- The double hash of `[0 0]`. -/
theorem mug_mug_zero_zero : mug (.atom 3244827480) = 2076054422 := by
  rw [mug_atom]
  decide

/-- The double hash of `[0 1]`. -/
theorem mug_mug_zero_one : mug (.atom 2726460384) = 1437702648 := by
  rw [mug_atom]
  decide

end Vere.Hoon
