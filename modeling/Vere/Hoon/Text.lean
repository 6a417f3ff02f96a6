import Vere.Hoon.Cord
import Vere.Hoon.Rule

/-!
# Vere.Hoon.Text

Text formats (`hoon.hoon`, section 2eJ): `++turf` and `++tuft` between UTF-8 and UTF-32, and
`++wood` and `++woad` between text and the characters of a span.

`++wood` writes a character it has to escape in hex, and stops where what is left is zero: the
trailing zero digits are not written, and `++woad` reads another character (`strip`). `++tuft`
writes the last character that would fit one, two or three bytes in one more.
-/

namespace Vere.Hoon

open Vere.Lib

/-- A text as an atom. -/
def cord : List Char → Nat
  | [] => 0
  | c :: t => c.toNat + 256 * cord t

/-- `++teff`: length utf8. -/
def teff (a : Nat) : Option Nat :=
  let b := «end» 3 1 a
  if b = 0 then if a = 0 then some 0 else none
  else if b ≥ 32 ∨ b = 10 then
    some (if b ≤ 127 then 1 else if b ≤ 223 then 2 else if b ≤ 239 then 3 else 4)
  else none

/-- The bits of a character of so many bytes, in `++turf`: where they are and how many. -/
def turfBits : Nat → Option (List (Nat × Nat))
  | 1 => some [(0, 7)]
  | 2 => some [(8, 6), (0, 5)]
  | 3 => some [(16, 6), (8, 6), (0, 4)]
  | 4 => some [(24, 6), (16, 6), (8, 6), (0, 3)]
  | _ => none

theorem teff_lt {a b : Nat} (h : teff a = some b) (hb : b ≠ 0) : rsh 3 b a < a := by
  obtain ⟨n, rfl⟩ := Nat.exists_eq_succ_of_ne_zero hb
  apply rsh_bytes_lt
  rintro rfl
  simp only [teff, «end», Nat.zero_mod, if_true, Option.some.injEq] at h
  exact hb h.symm

/-- The loop of `++turf`. -/
def turfLoop (a : Nat) : Option (List Nat) :=
  match _ : teff a with
  | none => none
  | some b =>
      if _ : b = 0 then some []
      else do
        let bits ← turfBits b
        return can 0 (bits.map fun x => (x.2, cut 0 x.1 x.2 a)) :: (← turfLoop (rsh 3 b a))
termination_by a
decreasing_by exact teff_lt ‹_› ‹_›

/-- `++turf`: utf8 to utf32. -/
def turf (a : Nat) : Option Nat := do return rap 5 (← turfLoop a)

/-- The bytes of a character, in `++tuft`. -/
def tuftChar (b : Nat) : List Nat :=
  if b < 0x7f then [b]
  else if b < 0x7ff then [mix 0xc0 (cut 0 6 5 b), mix 0x80 («end» 0 6 b)]
  else if b < 0xffff then [mix 0xe0 (cut 0 12 4 b), mix 0x80 (cut 0 6 6 b), mix 0x80 («end» 0 6 b)]
  else
    [mix 0xf0 (cut 0 18 3 b), mix 0x80 (cut 0 12 6 b), mix 0x80 (cut 0 6 6 b), mix 0x80 («end» 0 6 b)]

/-- The loop of `++tuft`. -/
def tuftLoop (a : Nat) : List Nat :=
  if _ : a = 0 then [] else tuftChar («end» 5 1 a) ++ tuftLoop (rsh 5 1 a)
termination_by a
decreasing_by exact rsh_one_lt ‹_›

/-- `++tuft`: utf32 to utf8 text. -/
def tuft (a : Nat) : Nat := rap 3 (tuftLoop a)

/-- `++tuba`: utf8 to utf32 tape. -/
def tuba (a : Tape) : Option (List Nat) := do return rip 5 (← turf (rap 3 a))

/-- `++tufa`: utf32 to utf8 tape. -/
def tufa (a : List Nat) : Tape := a.flatMap fun i => rip 3 (tuft i)

/-- The loops of `++woad`, over the bytes of the atom. In an escape, there is the number that
was read so far. -/
def woadLoop : Option Nat → Tape → Option (List Nat)
  | none, [] => some []
  | none, b :: c =>
      if b = '.'.toNat then do return ' ' :: (← woadLoop none c)
      else if b ≠ '~'.toNat then do return b :: (← woadLoop none c)
      else
        match c with
        | [] => none
        | e :: c =>
            if e = '.'.toNat then do return '.' :: (← woadLoop none c)
            else if e = '~'.toNat then do return '~' :: (← woadLoop none c)
            else woadLoop (some 0) (e :: c)
  | some _, [] => none
  | some d, b :: c =>
      if b = '.'.toNat then do return rip 3 (tuft d) ++ (← woadLoop none c)
      else if c = [] then none
      else if '0'.toNat ≤ b ∧ b ≤ '9'.toNat then woadLoop (some (16 * d + (b - 48))) c
      else if 'a'.toNat ≤ b ∧ b ≤ 'z'.toNat then woadLoop (some (16 * d + (b - 87))) c
      else none

/-- `++woad`: span format. -/
def woad (a : Nat) : Option Nat := do return rap 3 (← woadLoop none (rip 3 a))

/-- The hex digits of an escape in `++wood`: from the highest, to where the rest is zero. -/
def woodHex : Nat → Nat → Tape
  | 0, _ => []
  | e + 1, c =>
      if c = 0 then []
      else
        let f := rsh 2 e c
        ((if f ≤ 9 then 48 else 87) + f) :: woodHex e («end» 2 e c)

/-- What `++wood` writes for a character. -/
def woodChar (c : Nat) : Tape :=
  if ('a'.toNat ≤ c ∧ c ≤ 'z'.toNat) ∨ ('0'.toNat ≤ c ∧ c ≤ '9'.toNat) ∨ c = '-'.toNat then [c]
  else if c = ' '.toNat then ['.']
  else if c = '.'.toNat then ['~', '.']
  else if c = '~'.toNat then ['~', '~']
  else '~' :: (woodHex (met 2 c) c ++ (['.'] : Tape))

/-- The loop of `++wood`. -/
def woodLoop (a : Nat) : Option (List Nat) :=
  if a = 0 then some []
  else
    match _ : teff a with
    | none => none
    | some b =>
        if _ : b = 0 then none
        else do
          let c ← turf («end» 3 b a)
          return woodChar c ++ (← woodLoop (rsh 3 b a))
termination_by a
decreasing_by exact teff_lt ‹_› ‹_›

/-- `++wood`: span format. -/
def wood (a : Nat) : Option Nat := do return rap 3 (← woodLoop a)

/-! ### One character -/

/-- The length is read off the first byte. -/
theorem teff_byte {a b : Nat} (ha : a % 256 = b) (hb : 128 ≤ b) :
    teff a = some (if b ≤ 223 then 2 else if b ≤ 239 then 3 else 4) := by
  rw [teff, end_bytes, Nat.pow_one, ha, if_neg (by omega), if_pos (Or.inl (by omega)), if_neg (by omega)]

/-- `++turf` of no more bytes than the first one asks for. -/
theorem turf_one {a n : Nat} {bits : List (Nat × Nat)} (hn : teff a = some n) (h0 : n ≠ 0)
    (hbits : turfBits n = some bits) (hlt : a < 256 ^ n) :
    turf a = some (can 0 (bits.map fun x => (x.2, cut 0 x.1 x.2 a))) := by
  have hrest : turfLoop (rsh 3 n a) = some [] := by
    rw [rsh_bytes, Nat.div_eq_of_lt hlt, turfLoop]
    rfl
  have hloop : turfLoop a = some [can 0 (bits.map fun x => (x.2, cut 0 x.1 x.2 a))] := by
    rw [turfLoop]
    split
    · next h =>
        rw [hn] at h
        cases h
    · next b h =>
        obtain rfl : n = b := Option.some.inj (hn.symm.trans h)
        rw [dif_neg h0, hbits, hrest]
        rfl
  rw [turf, hloop]
  simp [rap, cat, lsh]

theorem turf_two {a b : Nat} (ha : a % 256 = b) (hb : 128 ≤ b) (hb' : b ≤ 223) (hlt : a < 256 ^ 2) :
    turf a = some (a / 256 % 64 + 64 * (a % 32)) := by
  have hn : teff a = some 2 := by rw [teff_byte ha hb, if_pos hb']
  rw [turf_one hn (by decide) rfl hlt]
  simp [can_cons, field]

theorem turf_three {a b : Nat} (ha : a % 256 = b) (hb : 224 ≤ b) (hb' : b ≤ 239) (hlt : a < 256 ^ 3) :
    turf a = some (a / 65536 % 64 + 64 * (a / 256 % 64 + 64 * (a % 16))) := by
  have hn : teff a = some 3 := by rw [teff_byte ha (by omega), if_neg (by omega), if_pos hb']
  rw [turf_one hn (by decide) rfl hlt]
  simp [can_cons, field]

theorem turf_four {a b : Nat} (ha : a % 256 = b) (hb : 240 ≤ b) (hlt : a < 256 ^ 4) :
    turf a = some (a / 16777216 % 64 + 64 * (a / 65536 % 64 + 64 * (a / 256 % 64 + 64 * (a % 8)))) := by
  have hn : teff a = some 4 := by rw [teff_byte ha (by omega), if_neg (by omega), if_neg (by omega)]
  rw [turf_one hn (by decide) rfl hlt]
  simp [can_cons, field]

end Vere.Hoon
