import Vere.Jets.Bits
import Vere.Nock.Spec

/-!
# Vere.Nock.Frag

`u2_frag` (`f/loom.c`): the noun at an axis, found by walking the bits of the
axis from the top, a word at a time.

An axis that is a cat is one word; a larger one is walked from its top word down,
32 bits for each word below. The walk agrees with the axis rules of the
specification, which halve the axis instead (`frag_eq_slot`).
-/

namespace Vere.Nock

open Vere.Jets Vere.Lib

/-- The loop of `_frag_word` and `_frag_deep`: the low `dep` bits of the word
pick head or tail, top bit first. -/
def fragLoop (w : Nat) : Nat → Noun → Option Noun
  | 0, b => some b
  | _ + 1, .atom _ => none
  | dep + 1, .cell h t => fragLoop w dep (if w / 2 ^ dep % 2 = 0 then h else t)

/-- `_frag_word`: the top word of an axis, below its leading bit (`u2_ax_dep`). -/
def fragWord (w : Nat) (b : Noun) : Option Noun := fragLoop w (w.size - 1) b

/-- `_frag_deep`: a lower word of an axis. It does not test its argument for
`u2_none`, which passes for a cell: the word it then reads is one of the first
of the loom, a cat, and with 31 bits to go the walk fails at the next one. -/
def fragDeep (w : Nat) : Option Noun → Option Noun
  | none => none
  | some b => fragLoop w 32 b

/-- The loop of `_frag_phat` over the words below the top one. -/
def fragWords (a : Nat) : Nat → Option Noun → Option Noun
  | 0, b => b
  | len + 1, b => fragWords a len (fragDeep (a / 2 ^ (32 * len) % 2 ^ 32) b)

/-- `_frag_phat`. -/
def fragPhat (a : Nat) (b : Noun) : Option Noun :=
  let len := wordLen a - 1
  fragWords a len (fragWord (a / 2 ^ (32 * len)) b)

/-- `u2_frag`. -/
def frag (a : Nat) (b : Noun) : Option Noun :=
  if a = 0 then none
  else if isCat a then fragWord a b
  else fragPhat a b

/-! ### The walk and the rules -/

/-- One more step at the low end of a walk. -/
def branch (x : Nat) : Noun → Option Noun
  | .atom _ => none
  | .cell h t => some (if x = 0 then h else t)

/-- A walk of `d + e` bits is a walk of the upper `d` and then of the lower `e`. -/
theorem fragLoop_add (w e : Nat) :
    ∀ (d : Nat) (b : Noun),
      fragLoop w (d + e) b = (fragLoop (w / 2 ^ e) d b).bind (fragLoop w e) := by
  intro d
  induction d with
  | zero =>
      intro b
      rw [Nat.zero_add]
      rfl
  | succ d ih =>
      intro b
      rw [Nat.succ_add]
      cases b with
      | atom x => rfl
      | cell h t =>
          rw [fragLoop, fragLoop, Nat.div_div_eq_div_mul, ← Nat.pow_add, Nat.add_comm e d, ih]

/-- Only the low bits of the word matter. -/
theorem fragLoop_mod (w e : Nat) :
    ∀ (d : Nat), d ≤ e → ∀ b, fragLoop (w % 2 ^ e) d b = fragLoop w d b := by
  intro d
  induction d with
  | zero => exact fun _ _ => rfl
  | succ d ih =>
      intro hd b
      cases b with
      | atom x => rfl
      | cell h t =>
          have hbit : w % 2 ^ e / 2 ^ d % 2 = w / 2 ^ d % 2 := by
            have h1 := field_initial (rfl : field w d (e - d) = _) (by omega : 1 ≤ e - d)
            have h2 : w % 2 ^ e / 2 ^ d = field w d (e - d) := by
              rw [field, ← Nat.mod_mul_right_div_self, ← Nat.pow_add]
              congr 3
              omega
            rw [h2, ← Nat.pow_one 2, ← h1, field, Nat.pow_one]
          rw [fragLoop, fragLoop, hbit, ih (by omega)]

/-- The walk over a whole axis, split where its last bit is. -/
theorem fragLoop_succ (w d : Nat) (b : Noun) :
    fragLoop w (d + 1) b = (fragLoop (w / 2) d b).bind (branch (w % 2)) := by
  rw [fragLoop_add, Nat.pow_one]
  congr 1
  funext c
  cases c with
  | atom x => rfl
  | cell h t =>
      rw [fragLoop, fragLoop, Nat.pow_zero, Nat.div_one]
      rfl

/-- Walking an axis below its leading bit follows the axis rules. -/
theorem fragWord_eq_slot {n : Nat} (h : 0 < n) (b : Noun) : fragWord n b = slot n b := by
  induction n using Nat.strongRecOn with
  | ind n ih =>
      by_cases hn : n = 1
      · subst hn
        rw [slot_one, fragWord, Nat.size_one]
        rfl
      · have hhalf : n.size - 1 = (n / 2).size - 1 + 1 := by
          have hbit : n = n % 2 + 2 ^ 1 * (n / 2) := by omega
          have hs : n.size = 1 + (n / 2).size := by
            conv_lhs => rw [hbit]
            exact size_add_mul (by omega) (by omega)
          have := Nat.size_pos.mpr (by omega : 0 < n / 2)
          omega
        rw [fragWord, hhalf, fragLoop_succ, slot_step (by omega), ← ih (n / 2) (by omega)
          (by omega), fragWord]
        cases fragLoop (n / 2) ((n / 2).size - 1) b with
        | none => rfl
        | some c =>
            cases c with
            | atom x => rfl
            | cell h t => rfl

/-- The words below the top one continue the walk. -/
theorem fragWords_eq (a : Nat) (b : Noun) :
    ∀ (len d : Nat), fragWords a len (fragLoop (a / 2 ^ (32 * len)) d b)
      = fragLoop a (d + 32 * len) b := by
  intro len
  induction len with
  | zero =>
      intro d
      rw [Nat.mul_zero, Nat.pow_zero, Nat.div_one]
      rfl
  | succ len ih =>
      intro d
      have hstep : fragDeep (a / 2 ^ (32 * len) % 2 ^ 32)
          (fragLoop (a / 2 ^ (32 * (len + 1))) d b)
          = fragLoop (a / 2 ^ (32 * len)) (d + 32) b := by
        rw [fragLoop_add, Nat.div_div_eq_div_mul, ← Nat.pow_add, Nat.mul_succ]
        cases fragLoop (a / 2 ^ (32 * len + 32)) d b with
        | none => rfl
        | some c => exact fragLoop_mod _ 32 32 (Nat.le_refl 32) c
      rw [fragWords, hstep, ih]
      congr 1
      omega

/-- `u2_frag` finds the noun the axis rules give, at every axis. -/
theorem frag_eq_slot (a : Nat) (b : Noun) : frag a b = slot a b := by
  rw [frag]
  by_cases h0 : a = 0
  · rw [if_pos h0, h0, slot_zero]
  rw [if_neg h0]
  by_cases hc : isCat a = true
  · rw [if_pos hc]
    exact fragWord_eq_slot (Nat.pos_of_ne_zero h0) b
  · rw [if_neg hc, ← fragWord_eq_slot (Nat.pos_of_ne_zero h0), fragPhat]
    simp only [fragWord]
    rw [fragWords_eq]
    congr 1
    -- the top word has what the words below it leave of the size
    have hlen : 32 * (wordLen a - 1) < a.size := by
      have := Nat.size_pos.mpr (Nat.pos_of_ne_zero h0)
      unfold wordLen
      omega
    have htop : a.size = 32 * (wordLen a - 1) + (a / 2 ^ (32 * (wordLen a - 1))).size := by
      have hpos : 0 < a / 2 ^ (32 * (wordLen a - 1)) :=
        Nat.div_pos (Nat.lt_size.mp hlen) (Nat.two_pow_pos _)
      conv_lhs => rw [← Nat.mod_add_div a (2 ^ (32 * (wordLen a - 1)))]
      exact size_add_mul (Nat.mod_lt _ (Nat.two_pow_pos _)) hpos
    omega

end Vere.Nock
