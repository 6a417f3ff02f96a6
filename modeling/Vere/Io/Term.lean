import Vere.Hoon.Text
import Vere.Lib.Bytes

/-!
# Vere.Io.Term

Terminal input (`term.c`): bytes to belts.

`_term_io_suck_char` takes the bytes one at a time. It follows escape sequences, and it gathers the
bytes of a character above 127 in `syb_y` until there are as many as the first byte asks for, which
it hands to `++turf`.

The first byte of three is 224 or more, and the first of four is 240 or more. The code asks for
three from 225 on and for four from 241 on, so a character that starts with 224 or 240 is cut a byte
short, and its last byte is taken for the first byte of another (`term_hears_iff`).
-/

namespace Vere.Io

open Vere.Lib Vere.Hoon

/-- A belt: what the terminal sends to the kernel. -/
inductive Belt
  | aro (p : Char)
  | bac
  | ctl (p : Nat)
  | met (p : Nat)
  | ret
  | txt (p : List Nat)
  deriving DecidableEq

/-- What sucking a byte does: it sends a belt, or it rings the bell. -/
inductive Blow
  | belt (b : Belt)
  | bel
  deriving DecidableEq

/-- `u2_utat`: unix terminal state; the parts that input uses. -/
structure Utat where
  /-- `esc.ape`: escape received. -/
  ape : Bool
  /-- `esc.bra`: bracket or O received. -/
  bra : Bool
  /-- `fut.syb_y`: utf8 code buffer. -/
  syb : Vector UInt8 5
  /-- `fut.len_w`: present length. -/
  len : Nat
  /-- `fut.wid_w`: total width. -/
  wid : Nat

/-- `u2_ci_bytes`: an atom of the first bytes of a buffer, the lowest first. -/
def ciBytes (n : Nat) (buf : List UInt8) : Nat := ofLE (buf.take n)

/-- The width that a first byte asks for. -/
def width (cay : UInt8) : Nat := if cay.toNat ≤ 224 then 2 else if cay.toNat ≤ 240 then 3 else 4

/-- `_term_io_suck_char`: process a single character. There is no result when the byte falls out
of the buffer, or when `++turf` crashes. -/
def suckChar (u : Utat) (cay : UInt8) : Option (Utat × List Blow) :=
  if u.ape then
    if u.bra then
      let out := match cay.toNat with
        | 65 => .belt (.aro 'u')
        | 66 => .belt (.aro 'd')
        | 67 => .belt (.aro 'r')
        | 68 => .belt (.aro 'l')
        | _ => .bel
      some ({ u with ape := false, bra := false }, [out])
    else if 97 ≤ cay.toNat ∧ cay.toNat ≤ 122 then
      some ({ u with ape := false }, [.belt (.met cay.toNat)])
    else if cay.toNat = 91 ∨ cay.toNat = 79 then some ({ u with bra := true }, [])
    else some ({ u with ape := false }, [.bel])
  else if u.wid ≠ 0 then
    if h : u.len < 5 then
      let syb := u.syb.set u.len cay h
      if u.len + 1 = u.wid then do
        let wug ← turf (ciBytes u.wid syb.toList)
        return ({ u with syb := syb, len := 0, wid := 0 }, [.belt (.txt [wug])])
      else some ({ u with syb := syb, len := u.len + 1 }, [])
    else none
  else if 32 ≤ cay.toNat ∧ cay.toNat < 127 then some (u, [.belt (.txt [cay.toNat])])
  else if cay.toNat = 0 then some (u, [.bel])
  else if cay.toNat = 8 ∨ cay.toNat = 127 then some (u, [.belt .bac])
  else if cay.toNat = 13 then some (u, [.belt .ret])
  else if cay.toNat ≤ 26 then some (u, [.belt (.ctl (97 + (cay.toNat - 1)))])
  else if cay.toNat = 27 then some ({ u with ape := true }, [])
  else if 128 ≤ cay.toNat then
    some ({ u with syb := u.syb.set 0 cay, len := 1, wid := width cay }, [])
  else some (u, [])

/-- The loop of `_term_suck` over a chunk of input. -/
def suckLoop (u : Utat) : List UInt8 → Option (Utat × List Blow)
  | [] => some (u, [])
  | cay :: buf => do
    let (u, out) ← suckChar u cay
    let (u, out') ← suckLoop u buf
    return (u, out ++ out')

/-- `_term_suck`: process a chunk of input. A chunk that could not be read has a negative size. -/
def suck (u : Utat) (buf : List UInt8) (siz : Int) : Option (Utat × List Blow) :=
  if siz < 0 then some (u, []) else suckLoop u (buf.take siz.toNat)

/-- The chunks of a terminal, one after the other. -/
def suckAll (u : Utat) : List (List UInt8) → Option (Utat × List Blow)
  | [] => some (u, [])
  | buf :: l => do
    let (u, out) ← suck u buf buf.length
    let (u, out') ← suckAll u l
    return (u, out ++ out')

/-! ### Chunks -/

theorem suckLoop_cons (u : Utat) (cay : UInt8) (buf : List UInt8) :
    suckLoop u (cay :: buf) = (suckChar u cay).bind fun x =>
      (suckLoop x.1 buf).map fun y => (y.1, x.2 ++ y.2) := by
  rw [suckLoop]
  cases suckChar u cay with
  | none => rfl
  | some x => cases hx : suckLoop x.1 buf <;> simp [hx]

theorem suckLoop_append (u : Utat) (buf buf' : List UInt8) :
    suckLoop u (buf ++ buf') = (suckLoop u buf).bind fun x =>
      (suckLoop x.1 buf').map fun y => (y.1, x.2 ++ y.2) := by
  induction buf generalizing u with
  | nil => simp [suckLoop]
  | cons cay buf ih =>
    simp only [List.cons_append, suckLoop_cons, ih]
    cases suckChar u cay with
    | none => rfl
    | some x =>
      cases hx : suckLoop x.1 buf with
      | none => simp [hx]
      | some y => cases hy : suckLoop y.1 buf' <;> simp [hx, hy]

/-- How the input is cut does not matter. -/
theorem suckAll_flatten (u : Utat) (l : List (List UInt8)) : suckAll u l = suckLoop u l.flatten := by
  induction l generalizing u with
  | nil => rfl
  | cons buf l ih =>
    have hbuf : suck u buf buf.length = suckLoop u buf := by
      rw [suck, if_neg (Int.not_lt.mpr (Int.natCast_nonneg _)), Int.toNat_natCast, List.take_length]
    rw [suckAll, hbuf, List.flatten_cons, suckLoop_append]
    cases suckLoop u buf with
    | none => rfl
    | some x => cases hx : suckLoop x.1 l.flatten <;> simp [ih, hx]

/-! ### Characters -/

/-- Nothing is pending. -/
structure Utat.Ground (u : Utat) : Prop where
  ape : u.ape = false
  bra : u.bra = false
  len : u.len = 0
  wid : u.wid = 0

/-- The bytes `b :: bs` of a character are in the buffer, and more are to come. -/
structure Utat.Holds (u : Utat) (b : UInt8) (bs : List UInt8) : Prop where
  ape : u.ape = false
  bra : u.bra = false
  lead : 128 ≤ b.toNat
  wid : u.wid = width b
  len : u.len = bs.length + 1
  short : u.len < u.wid
  syb : u.syb.toList.take u.len = b :: bs

theorem width_le (b : UInt8) : 2 ≤ width b ∧ width b ≤ 4 := by
  unfold width
  split
  · omega
  · split <;> omega

theorem take_set {α : Type} {l : List α} {n : Nat} (hn : n < l.length) (x : α) :
    (l.set n x).take (n + 1) = l.take n ++ [x] := by
  rw [List.take_add_one, List.take_set_of_le le_rfl, List.getElem?_set_self hn]
  rfl

variable {u : Utat} {b cay : UInt8} {bs : List UInt8}

theorem Utat.Holds.len_lt (hu : u.Holds b bs) : u.len < 5 := by
  have := hu.short
  have := width_le b
  have := hu.wid
  omega

/-- One more byte, when the character asks for more. -/
theorem Utat.Holds.more (hu : u.Holds b bs) (cay : UInt8) (hm : bs.length + 2 < width b) :
    ∃ u', u'.Holds b (bs ++ [cay]) ∧ suckChar u cay = some (u', []) := by
  have hlen := hu.len
  have hwid := hu.wid
  refine ⟨{ u with syb := u.syb.set u.len cay hu.len_lt, len := u.len + 1 }, ?_, ?_⟩
  · refine ⟨hu.ape, hu.bra, hu.lead, hwid, ?_, ?_, ?_⟩
    · rw [List.length_append, List.length_singleton]
      exact congrArg (· + 1) hlen
    · show u.len + 1 < u.wid
      omega
    · show (u.syb.set u.len cay hu.len_lt).toList.take (u.len + 1) = b :: (bs ++ [cay])
      rw [Vector.toList_set, take_set (by simpa using hu.len_lt), hu.syb]
      rfl
  · have hlast : u.len + 1 ≠ u.wid := by omega
    have h0 : u.wid ≠ 0 := by omega
    rw [suckChar, hu.ape, if_neg Bool.false_ne_true, if_pos h0, dif_pos hu.len_lt]
    simp only [hlast, if_false]

/-- The last byte of a character. -/
theorem Utat.Holds.last (hu : u.Holds b bs) (cay : UInt8) (hm : bs.length + 2 = width b) :
    ∃ u', u'.Ground ∧ suckChar u cay =
      (turf (ofLE (b :: (bs ++ [cay])))).map fun wug => (u', [.belt (.txt [wug])]) := by
  have hlen := hu.len
  have hwid := hu.wid
  refine ⟨{ u with syb := u.syb.set u.len cay hu.len_lt, len := 0, wid := 0 },
    ⟨hu.ape, hu.bra, rfl, rfl⟩, ?_⟩
  have hlast : u.len + 1 = u.wid := by omega
  have h0 : u.wid ≠ 0 := by omega
  have hbytes : ciBytes u.wid (u.syb.set u.len cay hu.len_lt).toList = ofLE (b :: (bs ++ [cay])) := by
    rw [ciBytes, ← hlast, Vector.toList_set, take_set (by simpa using hu.len_lt), hu.syb]
    rfl
  rw [suckChar, hu.ape, if_neg Bool.false_ne_true, if_pos h0, dif_pos hu.len_lt]
  simp only [hlast, if_true, hbytes]
  cases turf (ofLE (b :: (bs ++ [cay]))) <;> rfl

/-- The first byte of a character. -/
theorem Utat.Ground.lead (hu : u.Ground) (hcay : 128 ≤ cay.toNat) :
    ∃ u', u'.Holds cay [] ∧ suckChar u cay = some (u', []) := by
  refine ⟨{ u with syb := u.syb.set 0 cay, len := 1, wid := width cay }, ?_, ?_⟩
  · refine ⟨hu.ape, hu.bra, hcay, rfl, rfl, ?_, ?_⟩
    · exact (width_le cay).1
    · show (u.syb.set 0 cay).toList.take (0 + 1) = [cay]
      rw [Vector.toList_set, take_set (by simp)]
      rfl
  · rw [suckChar, hu.ape, hu.wid, if_neg Bool.false_ne_true, if_neg (by simp), if_neg (by omega),
      if_neg (by omega), if_neg (by omega), if_neg (by omega), if_neg (by omega), if_neg (by omega),
      if_pos hcay]

theorem Utat.Ground.plain (hu : u.Ground) (cay : UInt8) (hlo : 32 ≤ cay.toNat) (hhi : cay.toNat < 127) :
    suckChar u cay = some (u, [.belt (.txt [cay.toNat])]) := by
  rw [suckChar, hu.ape, hu.wid, if_neg Bool.false_ne_true, if_neg (by simp), if_pos ⟨hlo, hhi⟩]

/-- Bytes of a character that are not all of it. -/
theorem Utat.Holds.gather (hu : u.Holds b bs) (cs : List UInt8) (hm : bs.length + 1 + cs.length < width b) :
    ∃ u', u'.Holds b (bs ++ cs) ∧ suckLoop u cs = some (u', []) := by
  induction cs generalizing u bs with
  | nil => exact ⟨u, by rwa [List.append_nil], rfl⟩
  | cons c cs ih =>
    rw [List.length_cons] at hm
    obtain ⟨v, hv, hstep⟩ := hu.more c (by omega)
    obtain ⟨w, hw, hrest⟩ := ih hv (by rw [List.length_append, List.length_singleton]; omega)
    rw [List.append_assoc] at hw
    refine ⟨w, hw, ?_⟩
    rw [suckLoop_cons, hstep, Option.bind_some, hrest]
    rfl

/-- The bytes of a character, and all of them. -/
theorem Utat.Ground.character (hu : u.Ground) (b : UInt8) (bs : List UInt8) (hb : 128 ≤ b.toNat)
    (hm : bs.length + 1 = width b) :
    ∃ u', u'.Ground ∧
      suckLoop u (b :: bs) = (turf (ofLE (b :: bs))).map fun wug => (u', [.belt (.txt [wug])]) := by
  have hw := width_le b
  obtain ⟨v, hv, hlead⟩ := hu.lead hb
  have hne : bs ≠ [] := by
    rintro rfl
    rw [List.length_nil] at hm
    omega
  obtain ⟨cs, c, rfl⟩ : ∃ cs c, bs = cs ++ [c] := ⟨_, _, (List.dropLast_append_getLast hne).symm⟩
  rw [List.length_append, List.length_singleton] at hm
  obtain ⟨x, hx, hrest⟩ := hv.gather cs (by rw [List.length_nil]; omega)
  rw [List.nil_append] at hx
  obtain ⟨y, hy, hlast⟩ := hx.last c hm
  refine ⟨y, hy, ?_⟩
  rw [suckLoop_cons, hlead, Option.bind_some, suckLoop_append, hrest, Option.bind_some, suckLoop_cons,
    hlast]
  cases turf (ofLE (b :: (cs ++ [c]))) <;> rfl

/-- `++turf` makes something of what was gathered, however long it is. -/
theorem turf_gathered (hb : 128 ≤ b.toNat) (hm : bs.length + 1 = width b) :
    ∃ wug, turf (ofLE (b :: bs)) = some wug := by
  have hmod : ofLE (b :: bs) % 256 = b.toNat := by
    have := b.toNat_lt
    rw [ofLE]
    omega
  have hlt := ofLE_lt (b :: bs)
  have hteff := teff_byte hmod hb
  rw [List.length_cons, hm] at hlt
  unfold width at hlt
  by_cases h223 : b.toNat ≤ 223
  · rw [if_pos h223] at hteff
    rw [if_pos (by omega)] at hlt
    exact ⟨_, turf_one hteff (by decide) rfl hlt⟩
  · rw [if_neg h223] at hteff
    by_cases h239 : b.toNat ≤ 239
    · rw [if_pos h239] at hteff
      refine ⟨_, turf_one hteff (by decide) rfl (lt_of_lt_of_le hlt ?_)⟩
      exact Nat.pow_le_pow_right (by decide) (by split <;> [decide; (split <;> omega)])
    · rw [if_neg h239] at hteff
      refine ⟨_, turf_one hteff (by decide) rfl (lt_of_lt_of_le hlt ?_)⟩
      exact Nat.pow_le_pow_right (by decide) (by split <;> [decide; (split <;> decide)])

/-! ### What the bytes stand for -/

variable (b c d e : UInt8)

theorem turf_bytes_two (hlo : 128 ≤ b.toNat) (hhi : b.toNat ≤ 223) :
    turf (ofLE [b, c]) = some (c.toNat % 64 + 64 * (b.toNat % 32)) := by
  have hb := b.toNat_lt
  have hlt : ofLE [b, c] < 256 ^ 2 := ofLE_lt _
  have ha : ofLE [b, c] = b.toNat + 256 * c.toNat := by simp [ofLE]
  have hc : ofLE [b, c] / 256 = c.toNat := by omega
  have h32 : ofLE [b, c] % 32 = b.toNat % 32 := by omega
  rw [turf_two (by omega : ofLE [b, c] % 256 = b.toNat) hlo hhi hlt, hc, h32]

theorem turf_bytes_three (hlo : 224 ≤ b.toNat) (hhi : b.toNat ≤ 239) :
    turf (ofLE [b, c, d]) =
      some (d.toNat % 64 + 64 * (c.toNat % 64 + 64 * (b.toNat % 16))) := by
  have hb := b.toNat_lt
  have hc := c.toNat_lt
  have hlt : ofLE [b, c, d] < 256 ^ 3 := ofLE_lt _
  have ha : ofLE [b, c, d] = b.toNat + 256 * (c.toNat + 256 * d.toNat) := by simp [ofLE]
  have hd : ofLE [b, c, d] / 65536 = d.toNat := by omega
  have hc' : ofLE [b, c, d] / 256 = c.toNat + 256 * d.toNat := by omega
  have hc64 : (c.toNat + 256 * d.toNat) % 64 = c.toNat % 64 := by omega
  have h16 : ofLE [b, c, d] % 16 = b.toNat % 16 := by omega
  rw [turf_three (by omega : ofLE [b, c, d] % 256 = b.toNat) hlo hhi hlt, hd, hc', hc64, h16]

theorem turf_bytes_four (hlo : 240 ≤ b.toNat) :
    turf (ofLE [b, c, d, e]) =
      some (e.toNat % 64 + 64 * (d.toNat % 64 + 64 * (c.toNat % 64 + 64 * (b.toNat % 8)))) := by
  have hb := b.toNat_lt
  have hc := c.toNat_lt
  have hd := d.toNat_lt
  have hlt : ofLE [b, c, d, e] < 256 ^ 4 := ofLE_lt _
  have ha : ofLE [b, c, d, e] = b.toNat + 256 * (c.toNat + 256 * (d.toNat + 256 * e.toNat)) := by
    simp [ofLE]
  have he : ofLE [b, c, d, e] / 16777216 = e.toNat := by omega
  have hd' : ofLE [b, c, d, e] / 65536 = d.toNat + 256 * e.toNat := by omega
  have hc' : ofLE [b, c, d, e] / 256 = c.toNat + 256 * (d.toNat + 256 * e.toNat) := by omega
  have hd64 : (d.toNat + 256 * e.toNat) % 64 = d.toNat % 64 := by omega
  have hc64 : (c.toNat + 256 * (d.toNat + 256 * e.toNat)) % 64 = c.toNat % 64 := by omega
  have h8 : ofLE [b, c, d, e] % 8 = b.toNat % 8 := by omega
  rw [turf_four (by omega : ofLE [b, c, d, e] % 256 = b.toNat) hlo hlt, he, hd', hc', hd64, hc64, h8]

theorem ofLE_zero (l : List UInt8) : ofLE (l ++ [0]) = ofLE l := by
  induction l with
  | nil => rfl
  | cons x l ih => rw [List.cons_append, ofLE, ofLE, ih]

/-! ### Texts -/

/-- A byte that goes on with a character. -/
def trail (n : Nat) : UInt8 := .ofNat (0x80 + n % 64)

/-- The bytes of a code point. -/
def utf8 (c : Nat) : List UInt8 :=
  if c < 0x80 then [.ofNat c]
  else if c < 0x800 then [.ofNat (0xc0 + c / 64), trail c]
  else if c < 0x10000 then [.ofNat (0xe0 + c / 4096), trail (c / 64), trail c]
  else [.ofNat (0xf0 + c / 262144), trail (c / 4096), trail (c / 64), trail c]

/-- A code point of a text: no control character, and no half of a pair. -/
def Printable (c : Nat) : Prop :=
  32 ≤ c ∧ ¬(0x7f ≤ c ∧ c < 0xa0) ∧ ¬(0xd800 ≤ c ∧ c < 0xe000) ∧ c < 0x110000

/-- The code points whose bytes start with 224 or 240. -/
def Cramped (c : Nat) : Prop := (0x800 ≤ c ∧ c < 0x1000) ∨ (0x10000 ≤ c ∧ c < 0x40000)

instance (c : Nat) : Decidable (Printable c) := inferInstanceAs (Decidable (_ ∧ _))

instance (c : Nat) : Decidable (Cramped c) := inferInstanceAs (Decidable (_ ∨ _))

theorem toNat_byte {n : Nat} (hn : n < 256) : (UInt8.ofNat n).toNat = n := Nat.mod_eq_of_lt hn

theorem toNat_trail (n : Nat) : (trail n).toNat = 0x80 + n % 64 := toNat_byte (by omega)

theorem trail_mod (n : Nat) : (trail n).toNat % 64 = n % 64 := by
  rw [toNat_trail]
  omega

/-- A code point whose first byte tells its width. -/
theorem Utat.Ground.whole (hu : u.Ground) {n : Nat} (hn : Printable n) (hroom : ¬Cramped n) :
    ∃ u', u'.Ground ∧ suckLoop u (utf8 n) = some (u', [.belt (.txt [n])]) := by
  obtain ⟨hlo, hctl, -, hhi⟩ := hn
  rw [Cramped] at hroom
  unfold utf8
  split
  · next h =>
    have hb := toNat_byte (show n < 256 by omega)
    have hplain := hu.plain (.ofNat n) (by omega) (by omega)
    rw [hb] at hplain
    refine ⟨u, hu, ?_⟩
    rw [suckLoop_cons, hplain]
    rfl
  split
  · next h0 h =>
    have hb := toNat_byte (show 0xc0 + n / 64 < 256 by omega)
    have hw : width (.ofNat (0xc0 + n / 64)) = 2 := by rw [width, hb, if_pos (by omega)]
    obtain ⟨u', hu', hloop⟩ := hu.character (.ofNat (0xc0 + n / 64)) [trail n] (by omega)
      (by rw [hw]; rfl)
    refine ⟨u', hu', ?_⟩
    have hval : n % 64 + 64 * ((0xc0 + n / 64) % 32) = n := by omega
    rw [hloop, turf_bytes_two _ _ (by omega) (by omega), hb, trail_mod, hval]
    rfl
  split
  · next h0 h1 h =>
    have hb := toNat_byte (show 0xe0 + n / 4096 < 256 by omega)
    have hw : width (.ofNat (0xe0 + n / 4096)) = 3 := by
      rw [width, hb, if_neg (by omega), if_pos (by omega)]
    obtain ⟨u', hu', hloop⟩ := hu.character (.ofNat (0xe0 + n / 4096))
      [trail (n / 64), trail n] (by omega) (by rw [hw]; rfl)
    refine ⟨u', hu', ?_⟩
    have hval : n % 64 + 64 * (n / 64 % 64 + 64 * ((0xe0 + n / 4096) % 16)) = n := by omega
    rw [hloop, turf_bytes_three _ _ _ (by omega) (by omega), hb, trail_mod, trail_mod, hval]
    rfl
  · next h0 h1 h2 =>
    have hb := toNat_byte (show 0xf0 + n / 262144 < 256 by omega)
    have hw : width (.ofNat (0xf0 + n / 262144)) = 4 := by
      rw [width, hb, if_neg (by omega), if_neg (by omega)]
    obtain ⟨u', hu', hloop⟩ := hu.character (.ofNat (0xf0 + n / 262144))
      [trail (n / 4096), trail (n / 64), trail n] (by omega) (by rw [hw]; rfl)
    refine ⟨u', hu', ?_⟩
    have hval : n % 64 + 64 * (n / 64 % 64 + 64 * (n / 4096 % 64 + 64 * ((0xf0 + n / 262144) % 8))) =
        n := by omega
    rw [hloop, turf_bytes_four _ _ _ _ (by omega), hb, trail_mod, trail_mod, trail_mod, hval]
    rfl

/-- A code point whose first byte asks for a byte too few: the last byte is left over. -/
theorem Utat.Ground.cramped (hu : u.Ground) {n : Nat} (hn : Cramped n) :
    ∃ u', u'.Holds (trail n) [] ∧
      suckLoop u (utf8 n) = some (u', [.belt (.txt [n - n % 64])]) := by
  have hlast : 128 ≤ (trail n).toNat := by
    rw [toNat_trail]
    omega
  unfold utf8
  rcases hn with hn | hn
  · rw [if_neg (by omega), if_neg (by omega), if_pos (by omega)]
    have hb : (UInt8.ofNat (0xe0 + n / 4096)).toNat = 224 := by rw [toNat_byte (by omega)]; omega
    have hw : width (.ofNat (0xe0 + n / 4096)) = 2 := by rw [width, hb, if_pos (by omega)]
    obtain ⟨v, hv, hloop⟩ := hu.character (.ofNat (0xe0 + n / 4096)) [trail (n / 64)]
      (by omega) (by rw [hw]; rfl)
    obtain ⟨u', hu', hlead⟩ := hv.lead hlast
    refine ⟨u', hu', ?_⟩
    have hval : (0 : UInt8).toNat % 64 + 64 * (n / 64 % 64 + 64 * (224 % 16)) = n - n % 64 := by
      have : (0 : UInt8).toNat = 0 := rfl
      omega
    have hturf : turf (ofLE [.ofNat (0xe0 + n / 4096), trail (n / 64)]) = some (n - n % 64) := by
      have h := turf_bytes_three (.ofNat (0xe0 + n / 4096)) (trail (n / 64)) 0 (by omega)
        (by omega)
      rw [hb, trail_mod, hval] at h
      exact (congrArg turf (ofLE_zero [.ofNat (0xe0 + n / 4096), trail (n / 64)])).symm.trans h
    rw [show [UInt8.ofNat (0xe0 + n / 4096), trail (n / 64), trail n] =
      [.ofNat (0xe0 + n / 4096), trail (n / 64)] ++ [trail n] from rfl, suckLoop_append, hloop, hturf,
      Option.map_some, Option.bind_some, suckLoop_cons, hlead]
    rfl
  · rw [if_neg (by omega), if_neg (by omega), if_neg (by omega)]
    have hb : (UInt8.ofNat (0xf0 + n / 262144)).toNat = 240 := by rw [toNat_byte (by omega)]; omega
    have hw : width (.ofNat (0xf0 + n / 262144)) = 3 := by
      rw [width, hb, if_neg (by omega), if_pos (by omega)]
    obtain ⟨v, hv, hloop⟩ := hu.character (.ofNat (0xf0 + n / 262144))
      [trail (n / 4096), trail (n / 64)] (by omega) (by rw [hw]; rfl)
    obtain ⟨u', hu', hlead⟩ := hv.lead hlast
    refine ⟨u', hu', ?_⟩
    have hval : (0 : UInt8).toNat % 64 + 64 * (n / 64 % 64 + 64 * (n / 4096 % 64 + 64 * (240 % 8))) =
        n - n % 64 := by
      have : (0 : UInt8).toNat = 0 := rfl
      omega
    have hturf : turf (ofLE [.ofNat (0xf0 + n / 262144), trail (n / 4096), trail (n / 64)]) =
        some (n - n % 64) := by
      have h := turf_bytes_four (.ofNat (0xf0 + n / 262144)) (trail (n / 4096)) (trail (n / 64)) 0
        (by omega)
      rw [hb, trail_mod, trail_mod, hval] at h
      exact (congrArg turf
        (ofLE_zero [.ofNat (0xf0 + n / 262144), trail (n / 4096), trail (n / 64)])).symm.trans h
    rw [show [UInt8.ofNat (0xf0 + n / 262144), trail (n / 4096), trail (n / 64), trail n] =
      [.ofNat (0xf0 + n / 262144), trail (n / 4096), trail (n / 64)] ++ [trail n] from rfl,
      suckLoop_append, hloop, hturf, Option.map_some, Option.bind_some, suckLoop_cons, hlead]
    rfl

/-- The text is heard: a belt for each code point, and nothing pending after it. -/
def Hears (u : Utat) (text : List Nat) : Prop :=
  ∃ u', u'.Ground ∧ suckLoop u (text.flatMap utf8) = some (u', text.map fun n => .belt (.txt [n]))

/-- What is lost at a cramped code point makes no difference. -/
def Roomy (text : List Nat) : Prop :=
  ∀ pre n post, text = pre ++ n :: post → Cramped n →
    n % 64 = 0 ∧ ∃ d post', post = d :: post' ∧ d < 64

theorem roomy_nil : Roomy [] := fun pre n post h => absurd h.symm (by simp)

theorem roomy_cons {n : Nat} {text : List Nat} :
    Roomy (n :: text) ↔
      (Cramped n → n % 64 = 0 ∧ ∃ d post', text = d :: post' ∧ d < 64) ∧ Roomy text := by
  constructor
  · intro h
    refine ⟨h [] n text rfl, fun pre m post he => ?_⟩
    exact h (n :: pre) m post (by rw [he, List.cons_append])
  · rintro ⟨hn, h⟩ pre m post he
    cases pre with
    | nil =>
      obtain ⟨rfl, rfl⟩ := List.cons.inj he
      exact hn
    | cons x pre => exact h pre m post (List.cons.inj he).2

theorem hears_whole {u v : Utat} {n : Nat} {text : List Nat}
    (hn : suckLoop u (utf8 n) = some (v, [.belt (.txt [n])])) : Hears u (n :: text) ↔ Hears v text := by
  rw [Hears, Hears, List.flatMap_cons, suckLoop_append, hn, Option.bind_some, List.map_cons]
  refine exists_congr fun u' => and_congr_right fun _ => ?_
  cases suckLoop v (text.flatMap utf8) <;> simp [Prod.ext_iff]

/-- After a cramped code point, the next byte goes with what was left of it. -/
theorem Utat.Holds.leftover {n : Nat} (hu : u.Holds (trail n) []) (cay : UInt8) :
    ∃ u', u'.Ground ∧
      suckChar u cay = some (u', [.belt (.txt [cay.toNat % 64 + 64 * (n % 32)])]) := by
  have hb := toNat_trail n
  have hw : width (trail n) = 2 := by rw [width, hb, if_pos (by omega)]
  obtain ⟨u', hu', hlast⟩ := hu.last cay (by rw [hw]; rfl)
  refine ⟨u', hu', ?_⟩
  have hval : (0x80 + n % 64) % 32 = n % 32 := by omega
  rw [hlast, List.nil_append, turf_bytes_two _ _ (by omega) (by omega), hb, hval]
  rfl

theorem utf8_low {d : Nat} (hd : d < 64) : utf8 d = [.ofNat d] := if_pos (by omega)

theorem utf8_cons (d : Nat) : ∃ x xs, utf8 d = x :: xs := by
  unfold utf8
  split
  · exact ⟨_, _, rfl⟩
  split
  · exact ⟨_, _, rfl⟩
  split <;> exact ⟨_, _, rfl⟩

theorem not_hears_cramped (hu : u.Ground) {n : Nat} (hn : Cramped n) : ¬Hears u [n] := by
  obtain ⟨v, hv, hloop⟩ := hu.cramped hn
  rintro ⟨u', hu', he⟩
  rw [List.flatMap_cons, List.flatMap_nil, List.append_nil, hloop] at he
  obtain ⟨rfl, -⟩ := Prod.mk.inj (Option.some.inj he)
  have := hv.short
  rw [hu'.wid] at this
  exact Nat.not_lt_zero _ this

theorem hears_cramped (hu : u.Ground) {n : Nat} (d : Nat) (text : List Nat) (hn : Cramped n) :
    ∃ v, v.Ground ∧ (Hears u (n :: d :: text) ↔ n % 64 = 0 ∧ d < 64 ∧ Hears v text) := by
  obtain ⟨v, hv, hloop⟩ := hu.cramped hn
  obtain ⟨x, xs, hx⟩ := utf8_cons d
  obtain ⟨w, hw, hnext⟩ := hv.leftover x
  have hall : suckLoop u ((n :: d :: text).flatMap utf8) =
      (suckLoop w (xs ++ text.flatMap utf8)).map fun y =>
        (y.1, .belt (.txt [n - n % 64]) :: .belt (.txt [x.toNat % 64 + 64 * (n % 32)]) :: y.2) := by
    rw [List.flatMap_cons, List.flatMap_cons, hx, suckLoop_append, hloop, Option.bind_some,
      List.cons_append, suckLoop_cons, hnext, Option.bind_some, Option.map_map]
    rfl
  refine ⟨w, hw, ?_⟩
  rw [Hears, hall]
  constructor
  · rintro ⟨u', hu', he⟩
    obtain ⟨y, hy, hpair⟩ := Option.map_eq_some_iff.mp he
    obtain ⟨rfl, hout⟩ := Prod.mk.inj hpair
    rw [List.map_cons, List.map_cons] at hout
    obtain ⟨hfirst, hout⟩ := List.cons.inj hout
    obtain ⟨hsecond, hout⟩ := List.cons.inj hout
    simp only [Blow.belt.injEq, Belt.txt.injEq, List.cons.injEq, and_true] at hfirst hsecond
    have hpos : 0x800 ≤ n := by rcases hn with hn | hn <;> omega
    have hd64 : d < 64 := by omega
    rw [utf8_low hd64] at hx
    obtain ⟨-, rfl⟩ := List.cons.inj hx
    refine ⟨by omega, hd64, y.1, hu', ?_⟩
    rw [← hout]
    exact hy
  · rintro ⟨hmod, hd64, u', hu', he⟩
    rw [utf8_low hd64] at hx
    obtain ⟨rfl, rfl⟩ := List.cons.inj hx
    refine ⟨u', hu', ?_⟩
    rw [List.nil_append, he, toNat_byte (by omega), hmod]
    have h32 : d % 64 + 64 * (n % 32) = d := by omega
    rw [h32]
    rfl

/-- A text is heard exactly when nothing that is lost makes a difference. -/
theorem hears_iff_roomy : ∀ (text : List Nat) {u : Utat}, u.Ground → (∀ n ∈ text, Printable n) →
    (Hears u text ↔ Roomy text)
  | [], u, hu, _ => ⟨fun _ => roomy_nil, fun _ => ⟨u, hu, rfl⟩⟩
  | n :: text, u, hu, htext => by
    have hrest : ∀ m ∈ text, Printable m := fun m hm => htext m (List.mem_cons_of_mem _ hm)
    by_cases hn : Cramped n
    · match text with
      | [] =>
        refine ⟨fun h => absurd h (not_hears_cramped hu hn), fun h => ?_⟩
        obtain ⟨-, d, post', hnil, -⟩ := (roomy_cons.mp h).1 hn
        cases hnil
      | d :: text =>
        obtain ⟨v, hv, hiff⟩ := hears_cramped hu d text hn
        have ih := hears_iff_roomy text hv fun m hm => hrest m (List.mem_cons_of_mem _ hm)
        rw [hiff, ih, roomy_cons, roomy_cons]
        constructor
        · rintro ⟨hmod, hd, hroomy⟩
          have hd' : ¬Cramped d := by
            rw [Cramped]
            omega
          exact ⟨fun _ => ⟨hmod, d, text, rfl, hd⟩, fun hc => absurd hc hd', hroomy⟩
        · rintro ⟨hroom, -, hroomy⟩
          obtain ⟨hmod, d', text', he, hd⟩ := hroom hn
          obtain ⟨rfl, rfl⟩ := List.cons.inj he
          exact ⟨hmod, hd, hroomy⟩
    · obtain ⟨v, hv, hloop⟩ := hu.whole (htext n List.mem_cons_self) hn
      have ih := hears_iff_roomy text hv hrest
      rw [hears_whole hloop, ih, roomy_cons]
      exact ⟨fun h => ⟨fun hc => absurd hc hn, h⟩, fun h => h.2⟩

/-! ### All input -/

/-- Between two bytes, nothing is in the buffer, or the start of a character is. -/
def Utat.Good (u : Utat) : Prop :=
  (u.len = 0 ∧ u.wid = 0 ∧ (u.ape = false → u.bra = false)) ∨ ∃ b bs, u.Holds b bs

theorem Utat.Ground.good (hu : u.Ground) : u.Good := .inl ⟨hu.len, hu.wid, fun _ => hu.bra⟩

theorem Utat.Good.len_lt (hu : u.Good) : u.len < 5 := by
  rcases hu with ⟨hlen, -⟩ | ⟨b, bs, hu⟩
  · rw [hlen]
    decide
  · exact hu.len_lt

/-- In an escape sequence, the buffer stays as it is. -/
theorem suckChar_escape (hlen : u.len = 0) (hwid : u.wid = 0) (hape : u.ape = true) (cay : UInt8) :
    ∃ u' out, suckChar u cay = some (u', out) ∧ u'.Good := by
  rw [suckChar, if_pos hape]
  split
  · exact ⟨_, _, rfl, .inl ⟨hlen, hwid, fun _ => rfl⟩⟩
  · next hbra =>
    have hbra : u.bra = false := Bool.eq_false_of_not_eq_true hbra
    split
    · exact ⟨_, _, rfl, .inl ⟨hlen, hwid, fun _ => hbra⟩⟩
    split
    · exact ⟨_, _, rfl, .inl ⟨hlen, hwid, fun h => absurd (hape.symm.trans h) (by decide)⟩⟩
    · exact ⟨_, _, rfl, .inl ⟨hlen, hwid, fun _ => hbra⟩⟩

/-- From the ground, a byte below 128 leaves the buffer as it is. -/
theorem Utat.Ground.low (hu : u.Ground) (hcay : ¬128 ≤ cay.toNat) :
    ∃ u' out, suckChar u cay = some (u', out) ∧ u'.Good := by
  rw [suckChar, hu.ape, hu.wid, if_neg Bool.false_ne_true, if_neg (by simp)]
  repeat' split
  all_goals first
    | exact ⟨_, _, rfl, hu.good⟩
    | exact ⟨_, _, rfl, .inl ⟨hu.len, rfl, fun _ => hu.bra⟩⟩

theorem Utat.Good.step (hu : u.Good) (cay : UInt8) :
    ∃ u' out, suckChar u cay = some (u', out) ∧ u'.Good := by
  rcases hu with ⟨hlen, hwid, hbra⟩ | ⟨b, bs, hu⟩
  · cases hape : u.ape with
    | true => exact suckChar_escape hlen hwid hape cay
    | false =>
      have hg : u.Ground := ⟨hape, hbra hape, hlen, hwid⟩
      by_cases hcay : 128 ≤ cay.toNat
      · obtain ⟨u', hu', hstep⟩ := hg.lead hcay
        exact ⟨u', [], hstep, .inr ⟨cay, [], hu'⟩⟩
      · exact hg.low hcay
  · have hlen := hu.len
    have hwid := hu.wid
    have hshort := hu.short
    by_cases hm : bs.length + 2 = width b
    · obtain ⟨u', hu', hstep⟩ := hu.last cay hm
      have hall : (bs ++ [cay]).length + 1 = width b := by
        rw [List.length_append, List.length_singleton]
        exact hm
      obtain ⟨wug, hwug⟩ := turf_gathered hu.lead hall
      rw [hwug] at hstep
      exact ⟨u', _, hstep, hu'.good⟩
    · obtain ⟨u', hu', hstep⟩ := hu.more cay (by omega)
      exact ⟨u', [], hstep, .inr ⟨b, _, hu'⟩⟩

theorem Utat.Good.run (hu : u.Good) (buf : List UInt8) :
    ∃ u' out, suckLoop u buf = some (u', out) ∧ u'.Good := by
  induction buf generalizing u with
  | nil => exact ⟨u, [], rfl, hu⟩
  | cons cay buf ih =>
    obtain ⟨v, out, hstep, hv⟩ := hu.step cay
    obtain ⟨w, out', hrest, hw⟩ := ih hv
    refine ⟨w, out ++ out', ?_, hw⟩
    rw [suckLoop_cons, hstep, Option.bind_some, hrest]
    rfl

/-! ### The terminal -/

/-- Every code point of the text comes as one belt, in order, and nothing is pending at the end. -/
def Decoded (u : Utat) (l : List (List UInt8)) (text : List Nat) : Prop :=
  ∃ u', u'.Ground ∧ suckAll u l = some (u', text.map fun n => .belt (.txt [n]))

/-- A text, however it is cut, is decoded exactly when each of its code points that start with byte
224 or 240 is a multiple of 64 and is followed by one below 64. No input at all runs out of the
buffer. -/
theorem term_hears_iff (hu : u.Ground) {text : List Nat} (htext : ∀ n ∈ text, Printable n) :
    (∀ l, l.flatten = text.flatMap utf8 → (Decoded u l text ↔ Roomy text)) ∧
      ∀ l, ∃ u' out, suckAll u l = some (u', out) ∧ u'.len ≤ 5 := by
  constructor
  · intro l hl
    rw [Decoded, suckAll_flatten, hl]
    exact hears_iff_roomy text hu htext
  · intro l
    obtain ⟨u', out, hrun, hgood⟩ := hu.good.run l.flatten
    exact ⟨u', out, by rw [suckAll_flatten, hrun], hgood.len_lt.le⟩

/-- A new terminal. -/
def Utat.init : Utat := ⟨false, false, Vector.replicate 5 0, 0, 0⟩

theorem Utat.ground_init : Utat.init.Ground := ⟨rfl, rfl, rfl, rfl⟩

/-- A text of two letters, cut in the middle of the second. -/
theorem term_hears_two :
    Decoded .init [[0x61, 0xc3], [0xa9]] [0x61, 0xe9] ↔ Roomy [0x61, 0xe9] :=
  (term_hears_iff Utat.ground_init (by decide)).1 [[0x61, 0xc3], [0xa9]] (by decide)

/-- U+0801: the last of its three bytes stays in the buffer. -/
theorem term_drops :
    ¬∀ (u : Utat) (text : List Nat) (l : List (List UInt8)), u.Ground → (∀ n ∈ text, Printable n) →
      l.flatten = text.flatMap utf8 → Decoded u l text := by
  intro h
  have hd := h .init [0x801] [[0xe0, 0xa0, 0x81]] Utat.ground_init (by decide) (by decide)
  rw [Decoded, suckAll_flatten] at hd
  exact not_hears_cramped (n := 0x801) Utat.ground_init (.inl (by decide)) hd

end Vere.Io
