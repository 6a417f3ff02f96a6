import Vere.Hoon.Bits
import Vere.Hoon.Map

/-!
# Vere.Hoon.Order

Alphabetic order (`++aor`, section 2cC of `hoon.hoon`).

`++aor` is `++dor` but for two atoms, which it compares by their bytes from the lowest up: as
text, that is from the first letter on. The loop over the bytes has no end on equal atoms;
`++aor` never starts it on them, and a byte that is equal on both sides leaves what is
different.
-/

namespace Vere.Hoon

open Vere.Lib

theorem end_byte (a : Nat) : «end» 3 1 a = a % 256 := by
  simp [«end»]

theorem rsh_byte (a : Nat) : rsh 3 1 a = a / 256 := by
  simp [rsh]

theorem rsh_byte_ne {a b : Nat} (h : a ≠ b) (heq : «end» 3 1 a = «end» 3 1 b) :
    rsh 3 1 a ≠ rsh 3 1 b := by
  rw [end_byte, end_byte] at heq
  rw [rsh_byte, rsh_byte]
  omega

/-- The loop of `++aor` over the bytes of two atoms. -/
def aorLoop (a b : Nat) (h : a ≠ b) : Bool :=
  if heq : «end» 3 1 a = «end» 3 1 b then
    aorLoop (rsh 3 1 a) (rsh 3 1 b) (rsh_byte_ne h heq)
  else «end» 3 1 a < «end» 3 1 b
termination_by a + b
decreasing_by
  rw [rsh_byte, rsh_byte]
  omega

/-- `++aor`: a-order, alphabetic. -/
def aor (a b : Noun) : Bool :=
  if h : a = b then true
  else
    match a, b with
    | .cell ha ta, .cell hb tb => if ha = hb then aor ta tb else aor ha hb
    | .cell _ _, .atom _ => false
    | .atom _, .cell _ _ => true
    | .atom a, .atom b => aorLoop a b fun e => h (congrArg Noun.atom e)

/-- `++aor` on two atoms. -/
def aorAtom (a b : Nat) : Bool := if h : a = b then true else aorLoop a b h

theorem aorAtom_refl (a : Nat) : aorAtom a a = true := dif_pos rfl

theorem aorAtom_step (a b : Nat) :
    aorAtom a b = if a % 256 = b % 256 then aorAtom (a / 256) (b / 256)
      else decide (a % 256 < b % 256) := by
  by_cases h : a = b
  · subst h
    rw [if_pos rfl, aorAtom_refl, aorAtom_refl]
  · rw [aorAtom, dif_neg h, aorLoop]
    simp only [end_byte, rsh_byte]
    by_cases heq : a % 256 = b % 256
    · rw [dif_pos heq, if_pos heq, aorAtom, dif_neg (by omega)]
    · rw [dif_neg heq, if_neg heq]

theorem aorAtom_total (a b : Nat) : aorAtom a b = true ∨ aorAtom b a = true := by
  induction h : a + b using Nat.strongRecOn generalizing a b with
  | ind n ih =>
      by_cases hab : a = b
      · left
        rw [hab, aorAtom_refl]
      · rw [aorAtom_step a, aorAtom_step b]
        by_cases heq : a % 256 = b % 256
        · rw [if_pos heq, if_pos heq.symm]
          exact ih _ (by omega) _ _ rfl
        · rw [if_neg heq, if_neg (fun e => heq e.symm), decide_eq_true_iff, decide_eq_true_iff]
          omega

theorem aorAtom_antisymm (a b : Nat) (h1 : aorAtom a b = true) (h2 : aorAtom b a = true) :
    a = b := by
  induction h : a + b using Nat.strongRecOn generalizing a b with
  | ind n ih =>
      by_cases hab : a = b
      · exact hab
      · rw [aorAtom_step] at h1 h2
        by_cases heq : a % 256 = b % 256
        · rw [if_pos heq] at h1
          rw [if_pos heq.symm] at h2
          have hrest : a / 256 = b / 256 := ih _ (by omega) _ _ h1 h2 rfl
          omega
        · rw [if_neg heq, decide_eq_true_iff] at h1
          rw [if_neg (fun e => heq e.symm), decide_eq_true_iff] at h2
          omega

theorem aorAtom_trans (a b c : Nat) (h1 : aorAtom a b = true) (h2 : aorAtom b c = true) :
    aorAtom a c = true := by
  induction h : a + b + c using Nat.strongRecOn generalizing a b c with
  | ind n ih =>
      by_cases hab : a = b
      · rwa [hab]
      · rw [aorAtom_step] at h1 h2 ⊢
        by_cases hac : a % 256 = c % 256
        · rw [if_pos hac]
          by_cases heq : a % 256 = b % 256
          · rw [if_pos heq] at h1
            rw [if_pos (by omega)] at h2
            exact ih _ (by omega) _ _ _ h1 h2 rfl
          · -- the first bytes go up from `a` to `b` and cannot come back to `a`
            rw [if_neg heq, decide_eq_true_iff] at h1
            rw [if_neg (by omega), decide_eq_true_iff] at h2
            omega
        · rw [if_neg hac, decide_eq_true_iff]
          by_cases heq : a % 256 = b % 256
          · rw [if_neg (by omega), decide_eq_true_iff] at h2
            omega
          · rw [if_neg heq, decide_eq_true_iff] at h1
            by_cases hbc : b % 256 = c % 256
            · omega
            · rw [if_neg hbc, decide_eq_true_iff] at h2
              omega

/-- Bytes from the lowest up are a total order on atoms: two atoms differ at some byte. -/
theorem aorAtom_searchOrder : SearchOrder aorAtom :=
  ⟨aorAtom_total, aorAtom_trans, aorAtom_antisymm⟩

theorem aor_refl (a : Noun) : aor a a = true := by
  unfold aor
  exact dif_pos rfl

theorem aor_structural : Structural aor aorAtom where
  atom a b := by
    rw [aor, aorAtom]
    by_cases h : a = b
    · subst h
      simp
    · simp [h]
  cell ha ta hb tb := by
    by_cases h : Noun.cell ha ta = .cell hb tb
    · obtain ⟨rfl, rfl⟩ := Noun.cell.inj h
      rw [if_pos rfl, aor_refl, aor_refl]
    · rw [aor, dif_neg h]
  atom_cell a h t := by simp [aor]
  cell_atom h t a := by simp [aor]

/-- `++aor` is a total order on nouns. -/
theorem aor_searchOrder : SearchOrder aor := aor_structural.searchOrder aorAtom_searchOrder

end Vere.Hoon
