import Vere.Hoon.Cord
import Vere.Jets.Chop
import Vere.Log.Clog

/-!
# Vere.Jets.Lore

The jet of `++lore` (`gen164/5/lore.c`), which takes a text apart into its lines.

The arm shifts a line off the text once it has it; the jet keeps the text and counts a position
up. A byte behind the end of the text is zero for both, so the last line ends there if it has no
newline. The loops of the jet run on until they find an end; here they have as many rounds as
the text has bytes and one more, which is enough (`lore_eq`).
-/

namespace Vere.Jets

open Vere.Lib Vere.Log

/-! ### The jet -/

/-- The inner loop: from `pos_w` on, count up to a newline or a zero. -/
def loreMeg (lub pos : Nat) : Nat → Nat → Option (Nat × UInt8)
  | 0, _ => none
  | n + 1, meg =>
      let byt := crByte (c3w (pos + meg)) lub
      if 10 = byt ∨ 0 = byt then some (meg, byt) else loreMeg lub pos n (c3w (meg + 1))

/-- The outer loop. -/
def loreLoop (lub len : Nat) : Nat → Nat → List Nat → Jet (List Nat)
  | 0, _, _ => .error .fault
  | n + 1, pos, tez =>
      if len ≤ pos then .ok tez.reverse
      else
        match loreMeg lub pos (len + 1) 0 with
        | none => .error .fault
        | some (meg, byt) =>
            if byt = 0 ∧ c3w (c3w (pos + meg) + 1) < len then .error .exit
            else do
              let a ← rlBytes meg (crBytes pos meg lub)
              loreLoop lub len n (c3w (pos + c3w (meg + 1))) (a :: tez)

/-- `lore`: atom to line list. -/
def lore (lub : Nat) : Jet (List Nat) :=
  let len := u2Met 3 lub
  loreLoop lub len (len + 1) 0 []

/-! ### It does what the arm does -/

section lore

variable {lub pos m n : Nat}

/-- A byte of what is left is a byte of the text. -/
theorem crByte_shift (pos i lub : Nat) :
    crByte (pos + i) lub = .ofNat (Hoon.cut 3 i 1 (Hoon.rsh 3 pos lub)) := by
  rw [crByte_eq, Hoon.cut_byte, Hoon.rsh_bytes, Nat.div_div_eq_div_mul, ← Nat.pow_add]
  refine UInt8.toNat_inj.mp ?_
  rw [UInt8.toNat_ofNat', UInt8.toNat_ofNat', Nat.mod_mod]

theorem byte_eq_iff {b c : Nat} (hb : b < 256) (hc : c < 256) : UInt8.ofNat b = .ofNat c ↔ b = c := by
  rw [← UInt8.toNat_inj, UInt8.toNat_ofNat', UInt8.toNat_ofNat', Nat.mod_eq_of_lt hb,
    Nat.mod_eq_of_lt hc]

theorem cut_byte_lt (i x : Nat) : Hoon.cut 3 i 1 x < 256 := by
  rw [Hoon.cut_byte]
  exact Nat.mod_lt _ (by decide)

/-- The inner loop finds the end that the arm finds. -/
theorem loreMeg_eq (hlub : pos + Hoon.loreMeg (Hoon.rsh 3 pos lub) 0 < 2 ^ 32)
    (hm : m ≤ Hoon.loreMeg (Hoon.rsh 3 pos lub) 0)
    (hn : Hoon.loreMeg (Hoon.rsh 3 pos lub) 0 - m < n) :
    loreMeg lub pos n m = some (Hoon.loreMeg (Hoon.rsh 3 pos lub) 0,
      .ofNat (Hoon.cut 3 (Hoon.loreMeg (Hoon.rsh 3 pos lub) 0) 1 (Hoon.rsh 3 pos lub))) := by
  obtain ⟨hin, hend⟩ := Hoon.loreMeg_spec (Hoon.rsh 3 pos lub) 0
  generalize Hoon.loreMeg (Hoon.rsh 3 pos lub) 0 = meg at *
  induction n generalizing m with
  | zero => omega
  | succ n ih =>
      have hbyt : (10 = crByte (c3w (pos + m)) lub ∨ 0 = crByte (c3w (pos + m)) lub) ↔
          (Hoon.cut 3 m 1 (Hoon.rsh 3 pos lub) = 10 ∨ Hoon.cut 3 m 1 (Hoon.rsh 3 pos lub) = 0) := by
        have hlt := cut_byte_lt m (Hoon.rsh 3 pos lub)
        rw [c3w_of_lt (by omega), crByte_shift, eq_comm, ← byte_eq_iff hlt (by decide), eq_comm (a := 0),
          ← byte_eq_iff hlt (by decide : 0 < 256)]
        rfl
      rw [loreMeg]
      by_cases heq : m = meg
      · subst heq
        rw [if_pos (hbyt.mpr hend), c3w_of_lt hlub, crByte_shift]
      · rw [if_neg fun h => hin m (Nat.zero_le m) (by omega) (hbyt.mp h), c3w_of_lt (by omega)]
        exact ih (by omega) (by omega)

/-- The line as an atom. -/
theorem rlBytes_line (hloom : pos + m < 2 ^ 29) (hm : m + 3 < 2 ^ 29) :
    rlBytes m (crBytes pos m lub) = .ok (Hoon.end 3 m (Hoon.rsh 3 pos lub)) := by
  have hbytes : crBytes pos m lub = toLE m (Hoon.rsh 3 pos lub) := by
    rw [crBytes, toLE_eq_map]
    refine List.map_congr_left fun i hi => ?_
    have hi := List.mem_range.mp hi
    rw [c3w_of_lt (by omega), crByte_eq, Hoon.rsh_bytes, Nat.div_div_eq_div_mul, ← Nat.pow_add]
  rw [hbytes, rlBytes_eq (by rw [length_toLE]) hm, List.take_of_length_le (by rw [length_toLE]),
    ofLE_toLE, Hoon.end_bytes]

/-- Where the arm crashes the jet bails. -/
def exits {α : Type} : Option α → Jet α
  | some v => .ok v
  | none => .error .exit

theorem rsh_eq_zero (pos lub : Nat) : Hoon.rsh 3 pos lub = 0 ↔ Hoon.met 3 lub ≤ pos := by
  rw [Hoon.rsh_bytes, Hoon.met_bytes_le, Nat.div_eq_zero_iff,
    or_iff_right (Nat.pow_pos (by decide)).ne']

/-- The line ends in the text, or right behind it. -/
theorem loreMeg_le (hpos : pos < Hoon.met 3 lub) :
    pos + Hoon.loreMeg (Hoon.rsh 3 pos lub) 0 ≤ Hoon.met 3 lub := by
  obtain ⟨hin, -⟩ := Hoon.loreMeg_spec (Hoon.rsh 3 pos lub) 0
  by_contra hgt
  refine hin (Hoon.met 3 lub - pos) (Nat.zero_le _) (by omega) (.inr ?_)
  have hlub : lub < 256 ^ Hoon.met 3 lub := Hoon.met_bytes_le.mp le_rfl
  rw [Hoon.cut_byte, Hoon.rsh_bytes, Nat.div_div_eq_div_mul, ← Nat.pow_add,
    Nat.add_sub_cancel' hpos.le, Nat.div_eq_of_lt hlub]

/-- The outer loop from a position does what the arm does with what is left. -/
theorem loreLoop_eq (hlen : Hoon.met 3 lub + 3 < 2 ^ 29) (tez : List Nat)
    (hn : Hoon.met 3 lub - pos < n) :
    loreLoop lub (Hoon.met 3 lub) n pos tez = exits (Hoon.loreLoop (Hoon.rsh 3 pos lub) tez) := by
  induction n generalizing pos tez with
  | zero => omega
  | succ n ih =>
      rw [loreLoop, Hoon.loreLoop]
      by_cases hend : Hoon.met 3 lub ≤ pos
      · rw [if_pos hend, dif_pos ((rsh_eq_zero pos lub).mpr hend)]
        rfl
      · have hle := loreMeg_le (Nat.not_le.mp hend)
        have hmeg := @loreMeg_eq lub pos 0 (Hoon.met 3 lub + 1) (by omega) (Nat.zero_le _) (by omega)
        rw [if_neg hend, dif_neg fun h0 => hend ((rsh_eq_zero pos lub).mp h0), hmeg]
        generalize Hoon.loreMeg (Hoon.rsh 3 pos lub) 0 = meg at hle
        have hshift : Hoon.rsh 3 (meg + 1) (Hoon.rsh 3 pos lub) = Hoon.rsh 3 (pos + (meg + 1)) lub := by
          rw [Hoon.rsh_bytes, Hoon.rsh_bytes, Hoon.rsh_bytes, Nat.div_div_eq_div_mul, ← Nat.pow_add]
        have hbad : (UInt8.ofNat (Hoon.cut 3 meg 1 (Hoon.rsh 3 pos lub)) = 0 ∧
            c3w (c3w (pos + meg) + 1) < Hoon.met 3 lub) ↔
            (Hoon.cut 3 meg 1 (Hoon.rsh 3 pos lub) = 0 ∧
              Hoon.rsh 3 (pos + (meg + 1)) lub ≠ 0) := by
          rw [c3w_of_lt (by omega : pos + meg < 2 ^ 32), c3w_of_lt (by omega), ne_eq, rsh_eq_zero,
            Nat.not_le, Nat.add_assoc]
          exact and_congr_left' (byte_eq_iff (cut_byte_lt meg _) (by decide : 0 < 256))
        simp only [hshift]
        by_cases hcrash : Hoon.cut 3 meg 1 (Hoon.rsh 3 pos lub) = 0 ∧
            Hoon.rsh 3 (pos + (meg + 1)) lub ≠ 0
        · rw [if_pos (hbad.mpr hcrash), if_pos hcrash]
          rfl
        · rw [if_neg fun h => hcrash (hbad.mp h), if_neg hcrash, rlBytes_line (by omega) (by omega),
            c3w_of_lt (by omega : meg + 1 < 2 ^ 32), c3w_of_lt (by omega)]
          exact ih _ (by omega)

/-- The jet returns the lines that the arm returns, and bails where it crashes. -/
theorem lore_eq (hloom : InLoom lub) : lore lub = exits (Hoon.lore lub) := by
  have hmet : u2Met 3 lub = Hoon.met 3 lub := u2Met_eq (by decide) hloom
  have hlen : Hoon.met 3 lub + 3 < 2 ^ 29 := by
    have hsize := hloom.size_le
    rw [met_div]
    omega
  have hloop := @loreLoop_eq lub 0 (Hoon.met 3 lub + 1) hlen [] (by omega)
  rw [lore, hmet, hloop, Hoon.rsh_bytes, Nat.pow_zero, Nat.div_one, Hoon.lore]

/-- Lines come back from their text, a text without a zero byte that is empty or ends in a newline
comes back from its lines, and the jet agrees with the arm on every atom. -/
theorem lore_roly_same {tez : List Nat} (htez : ∀ a ∈ tez, Hoon.LineBytes a) {a : Nat}
    (ha : ∀ i, i < Hoon.met 3 a → Hoon.cut 3 i 1 a ≠ 0)
    (hlined : a = 0 ∨ Hoon.cut 3 (Hoon.met 3 a - 1) 1 a = 10) (hloom : InLoom lub) :
    Hoon.lore (Hoon.roly tez) = some tez ∧
      (∃ ls, Hoon.lore a = some ls ∧ Hoon.roly ls = a) ∧
      lore lub = exits (Hoon.lore lub) :=
  ⟨Hoon.lore_roly htez, Hoon.roly_lore_lined ha hlined, lore_eq hloom⟩

theorem lore_roly_same_line :
    Hoon.lore (Hoon.roly [97, 0]) = some [97, 0] ∧
      (∃ ls, Hoon.lore 2657 = some ls ∧ Hoon.roly ls = 2657) ∧
      lore 97 = exits (Hoon.lore 97) := by
  have hmet : Hoon.met 3 2657 = 2 := Hoon.met_bytes_eq (n := 1) (by decide) (by decide)
  have hone : Hoon.met 3 97 = 1 := Hoon.met_bytes_eq (n := 0) (by decide) (by decide)
  have hloom : InLoom 97 := inLoom_of_word (by decide)
  refine lore_roly_same ?_ ?_ (.inr ?_) hloom
  · intro a ha i hi
    simp only [List.mem_cons, List.not_mem_nil, or_false] at ha
    rcases ha with rfl | rfl
    · rw [hone] at hi
      obtain rfl : i = 0 := by omega
      decide
    · rw [Hoon.met_bytes_zero] at hi
      cases hi
  · intro i hi
    rw [hmet] at hi
    interval_cases i <;> decide
  · rw [hmet]
    decide

end lore

end Vere.Jets
