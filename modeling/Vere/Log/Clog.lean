import Vere.Jets.PackSpec
import Vere.Log.Record

/-!
# Vere.Log.Clog

Events as bytes (`v/clog.c`): `u2_clog_o2b` jams an event into a buffer, `u2_clog_b2o` cues it
from there.

The buffer holds whole words. `u2_bytes` fills it from the jam, lowest byte first, and with
zeroes behind the last word; `u2_rl_bytes` strips zeroes at the end and puts the rest into words
again. So the same atom arrives (`rlBytes_crBytes`), whatever its length.
-/

namespace Vere.Log

open Vere.Lib Vere.Jets

/-! ### The code -/

/-- `u2_byte`: byte `a` of `b`. -/
def crByte (a b : Nat) : UInt8 :=
  if isCat b then
    if 3 < a then 0 else .ofNat (b / 2 ^ (8 * a))
  else if wordLen b ≤ a / 4 then 0
  else .ofNat (b / 2 ^ (32 * (a / 4)) % 2 ^ 32 / 2 ^ (8 * (a % 4)))

/-- `u2_bytes`: bytes `a` through `a + b - 1` of `d`. -/
def crBytes (a b d : Nat) : List UInt8 := (List.range b).map fun i => crByte (c3w (a + i)) d

/-- The first loop of `u2_rl_bytes`: strip trailing zeroes. -/
def strip (b : List UInt8) : Nat → Nat
  | 0 => 0
  | a + 1 => if b.getD a 0 = 0 then strip b a else a + 1

/-- The last loop of `u2_rl_bytes`: fill the bytes. -/
def fill (b : List UInt8) : Nat → Nat
  | 0 => 0
  | i + 1 => fill b i ||| ((b.getD i 0).toNat <<< (8 * (i % 4))) <<< (32 * (i / 4))

/-- `u2_rl_bytes`: copy `a` bytes from `b` to an LSB first atom. -/
def rlBytes (a : Nat) (b : List UInt8) : Jet Nat :=
  if b.length < a then .error .fault
  else
    let byte i := (b.getD i 0).toNat
    let a := strip b a
    if a = 0 then .ok 0
    else if a = 1 then .ok (byte 0)
    else if a = 2 then .ok (byte 0 ||| byte 1 <<< 8)
    else if a = 3 then .ok (byte 0 ||| byte 1 <<< 8 ||| byte 2 <<< 16)
    else if a = 4 ∧ byte 3 ≤ 0x7f then
      .ok (byte 0 ||| byte 1 <<< 8 ||| byte 2 <<< 16 ||| byte 3 <<< 24)
    else if 2 ^ 27 ≤ c3w (a + 3) / 4 then .error .fault
    else .ok (fill b a)

/-- What `u2_clog_o2b` returns. -/
structure Ovum where
  mallocW : Nat
  lenW : Nat
  dataY : List UInt8

/-- `u2_clog_o2b`: ovum to bytes, with space at the front for a prefix. It asserts that the host
has a key. -/
def clogO2b (key : Nat) (mug : Noun → Nat) (ovo : Noun) : Jet Ovum := do
  let ron ← jam mug ovo
  if key = 0 then .error .fault
  else
    let lenW := c3w (u2Met 5 ron * 4)
    return ⟨c3w (lenW + sizeofClpr), lenW, toLE sizeofClpr 0 ++ crBytes 0 lenW ron⟩

/-- `u2_clog_b2o`: bytes to ovum, without the prefix. -/
def clogB2o (key : Nat) (mug : Noun → Nat) (lenW : Nat) (dataY : List UInt8) : Jet Noun := do
  let ron ← rlBytes lenW dataY
  if key = 0 then .error .fault else cue mug ron

/-! ### Bytes out of an atom -/

theorem crByte_eq (a b : Nat) : crByte a b = .ofNat (b / 256 ^ a) := by
  have hpow : 256 ^ a = 2 ^ (8 * a) := by
    rw [Nat.pow_mul]
  rw [crByte, hpow]
  by_cases hcat : isCat b = true
  · rw [if_pos hcat]
    by_cases ha : 3 < a
    · have hlt : b < 2 ^ (8 * a) := (isCat_iff.mp hcat).trans_le
        (Nat.pow_le_pow_right (by decide) (by omega))
      rw [if_pos ha, Nat.div_eq_of_lt hlt]
      rfl
    · rw [if_neg ha]
  · rw [if_neg hcat]
    have hsum : 8 * a = 32 * (a / 4) + 8 * (a % 4) := by omega
    by_cases hlen : wordLen b ≤ a / 4
    · have hlt : b < 2 ^ (8 * a) := by
        refine Nat.size_le.mp ?_
        rw [wordLen] at hlen
        omega
      rw [if_pos hlen, Nat.div_eq_of_lt hlt]
      rfl
    · rw [if_neg hlen, hsum, Nat.pow_add, ← Nat.div_div_eq_div_mul]
      -- the byte ends inside of the word
      refine UInt8.toNat_inj.mp ?_
      have hword : 2 ^ 32 = 2 ^ (8 * (a % 4)) * 2 ^ (32 - 8 * (a % 4)) := by
        rw [← Nat.pow_add, Nat.add_sub_cancel' (by omega)]
      rw [hword, Nat.mod_mul_right_div_self, UInt8.toNat_ofNat', UInt8.toNat_ofNat',
        Nat.mod_mod_of_dvd _ (Nat.pow_dvd_pow 2 (by omega))]

theorem crBytes_eq {b : Nat} (h : b < 2 ^ 32) (d : Nat) : crBytes 0 b d = toLE b d := by
  rw [crBytes, toLE_eq_map]
  refine List.map_congr_left fun i hi => ?_
  rw [crByte_eq, Nat.zero_add, c3w_of_lt ((List.mem_range.mp hi).trans h)]

/-! ### An atom out of bytes -/

theorem strip_le (b : List UInt8) (a : Nat) : strip b a ≤ a := by
  induction a with
  | zero => exact Nat.le_refl 0
  | succ a ih =>
      rw [strip]
      by_cases hz : b.getD a 0 = 0
      · rw [if_pos hz]
        exact Nat.le_succ_of_le ih
      · rw [if_neg hz]

/-- Stripped bytes count for nothing. -/
theorem ofLE_strip (b : List UInt8) (a : Nat) : ofLE (b.take (strip b a)) = ofLE (b.take a) := by
  induction a with
  | zero => rfl
  | succ a ih =>
      rw [strip]
      by_cases hz : b.getD a 0 = 0
      · rw [if_pos hz, ih, ofLE_take_succ, hz]
        rfl
      · rw [if_neg hz]

theorem fill_eq (b : List UInt8) (a : Nat) : fill b a = ofLE (b.take a) := by
  induction a with
  | zero => rfl
  | succ a ih =>
      have hlt : ofLE (b.take a) < 2 ^ (8 * a) := by
        refine (ofLE_lt _).trans_le ?_
        rw [Nat.pow_mul]
        exact Nat.pow_le_pow_right (by decide) (List.length_take_le a b)
      have hsum : 8 * (a % 4) + 32 * (a / 4) = 8 * a := by omega
      rw [fill, ih, ofLE_take_succ, Nat.shiftLeft_eq, Nat.shiftLeft_eq, Nat.mul_assoc,
        ← Nat.pow_add, hsum, Nat.or_comm, Nat.mul_comm, ← Nat.two_pow_add_eq_or_of_lt hlt,
        Nat.add_comm, Nat.pow_mul]

/-- `u2_rl_bytes` makes an atom of the bytes of a buffer, if it fits the loom. -/
theorem rlBytes_eq {a : Nat} {b : List UInt8} (hlen : a ≤ b.length) (ha : a + 3 < 2 ^ 29) :
    rlBytes a b = .ok (ofLE (b.take a)) := by
  have hle := strip_le b a
  rw [rlBytes, if_neg (Nat.not_lt_of_le hlen), ← ofLE_strip, ← fill_eq]
  generalize strip b a = n at hle
  simp only
  split_ifs with h0 h1 h2 h3 h4 hmem
  · rw [h0, fill]
  · simp [h1, fill]
  · simp [h2, fill]
  · simp [h3, fill]
  · simp [h4.1, fill]
  · rw [c3w_of_lt (by omega)] at hmem
    omega
  · rfl

/-- An atom that goes through a buffer of whole words. -/
theorem rlBytes_crBytes {x n : Nat} (hx : x.size ≤ 8 * n) (hn : n + 3 < 2 ^ 29) :
    rlBytes n (crBytes 0 n x) = .ok x := by
  have hlt : x < 256 ^ n := by
    have hpow : (256 : Nat) ^ n = 2 ^ (8 * n) := by rw [Nat.pow_mul]
    rw [hpow]
    exact Nat.size_le.mp hx
  rw [crBytes_eq (by omega), rlBytes_eq (by rw [length_toLE]) hn,
    List.take_of_length_le (by rw [length_toLE]), ofLE_toLE, Nat.mod_eq_of_lt hlt]

/-! ### The round trip -/

variable {mug : Noun → Nat}

/-- A jam fits the loom: `can` has a slab for it. -/
theorem inLoom_of_jam {n : Noun} {ron : Nat} (h : jam mug n = .ok ron) : InLoom ron := by
  obtain ⟨x, -, hcan⟩ := bind_ok h
  exact inLoom_of_can hcan

/-- The buffer of an event holds all words of its jam, and gives it back. -/
theorem rlBytes_o2b {key : Nat} (hkey : key ≠ 0) {ovo : Noun} {ron : Nat}
    (h : jam mug ovo = .ok ron) :
    ∃ o, clogO2b key mug ovo = .ok o ∧ rlBytes o.lenW (o.dataY.drop sizeofClpr) = .ok ron := by
  have hloom := inLoom_of_jam h
  rw [InLoom] at hloom
  have hwords : u2Met 5 ron = wordLen ron := u2Met_five ron (by omega)
  have hlen : c3w (wordLen ron * 4) = wordLen ron * 4 := c3w_of_lt (by omega)
  refine ⟨_, by rw [clogO2b, h, ok_bind, if_neg hkey]; rfl, ?_⟩
  simp only [hwords, hlen]
  rw [List.drop_left' (length_toLE sizeofClpr 0)]
  refine rlBytes_crBytes ?_ (by omega)
  rw [wordLen]
  omega

/-- An event through a buffer is as good as `jam` and then `cue`; and these give back every event
whose jam has fewer than `2^31` bits. -/
theorem clog_round (mug : Noun → Nat) {key : Nat} (hkey : key ≠ 0) (ovo : Noun) :
    (clogO2b key mug ovo >>= fun o => clogB2o key mug o.lenW (o.dataY.drop sizeofClpr))
        = (jam mug ovo >>= cue mug)
      ∧ ((Hoon.jam mug ovo).size < 2 ^ 31 →
        (clogO2b key mug ovo >>= fun o => clogB2o key mug o.lenW (o.dataY.drop sizeofClpr))
          = .ok ovo) := by
  have hsame : (clogO2b key mug ovo >>= fun o =>
      clogB2o key mug o.lenW (o.dataY.drop sizeofClpr)) = (jam mug ovo >>= cue mug) := by
    cases hjam : jam mug ovo with
    | error e =>
        rw [clogO2b, hjam]
        rfl
    | ok ron =>
        obtain ⟨o, ho, hron⟩ := rlBytes_o2b hkey hjam
        rw [ho, ok_bind, clogB2o, hron, ok_bind, if_neg hkey, ok_bind]
  refine ⟨hsame, fun hshort => ?_⟩
  rw [hsame, jam_eq mug mug hshort, ok_bind, cue_eq mug mug hshort, Hoon.cue_jam_hoon]
  rfl

theorem clog_round_cell :
    (clogO2b 1 (fun _ => 0) (.cell (.atom 0) (.atom 0)) >>= fun o =>
      clogB2o 1 (fun _ => 0) o.lenW (o.dataY.drop sizeofClpr))
      = .ok (.cell (.atom 0) (.atom 0)) := by
  apply (clog_round (fun _ => 0) (by decide : 1 ≠ 0) _).2
  rw [Hoon.size_jam]
  simp [Pack.emit, Pack.flat, Pack.mat_zero, Function.update]

/-- An atom that has no jam has no buffer. -/
theorem clog_round_wide :
    (clogO2b 1 (fun _ => 0) (.atom (2 ^ 2 ^ 31)) >>= fun o =>
      clogB2o 1 (fun _ => 0) o.lenW (o.dataY.drop sizeofClpr)) ≠ .ok (.atom (2 ^ 2 ^ 31)) := by
  intro h
  obtain ⟨o, ho, -⟩ := bind_ok h
  obtain ⟨ron, hjam, -⟩ := bind_ok ho
  exact jam_two_pow_wide ron hjam

end Vere.Log
