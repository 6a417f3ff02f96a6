import Mathlib.Tactic.IntervalCases
import Vere.Hoon.Bloq
import Vere.Hoon.Text

/-!
# Vere.Hoon.Wood

What is left of a text after `++wood` and `++woad`, and of a list of characters after `++tuft`
and `++turf` (`hoon.hoon`, section 2eJ).

A `Glyph` is a character and the number of bytes it is written in. Neither `++turf` nor
`++wood` asks for the shortest form, so both read any glyph (`turfLoop_glyphs`,
`woodLoop_glyphs`); `++tuft` writes some characters longer than UTF-8 does. `++woad` reads
`reread c` where `++wood` wrote `c`, which is `c` exactly if `c` is written as it is or its
lowest hex digit is not zero (`reread_eq`).
-/

namespace Vere.Hoon

open Vere.Lib

/-! ### Characters in bytes -/

/-- The characters a form of so many bytes has room for. -/
def limit : Nat → Nat
  | 1 => 0x80
  | 2 => 0x800
  | 3 => 0x10000
  | 4 => 0x200000
  | _ => 0

/-- A character and the number of bytes it is written in. -/
@[ext]
structure Glyph where
  n : Nat
  c : Nat
  fits : c < limit n

namespace Glyph

/-- The bytes of a glyph. -/
def bytes (g : Glyph) : List Nat :=
  match g.n with
  | 1 => [g.c]
  | 2 => [192 + g.c / 64, 128 + g.c % 64]
  | 3 => [224 + g.c / 4096, 128 + g.c / 64 % 64, 128 + g.c % 64]
  | _ => [240 + g.c / 262144, 128 + g.c / 4096 % 64, 128 + g.c / 64 % 64, 128 + g.c % 64]

/-- `++teff` takes the first byte: not a control character, apart from the newline. -/
def Shows (g : Glyph) : Prop := g.n = 1 → g.c = 10 ∨ 32 ≤ g.c

instance (g : Glyph) : Decidable g.Shows := inferInstanceAs (Decidable (_ → _))

theorem shows_of_ne (g : Glyph) (h : g.n ≠ 1) : g.Shows := fun h1 => absurd h1 h

theorem size_cases (g : Glyph) :
    (g.n = 1 ∧ g.c < 0x80) ∨ (g.n = 2 ∧ g.c < 0x800) ∨ (g.n = 3 ∧ g.c < 0x10000) ∨
      (g.n = 4 ∧ g.c < 0x200000) := by
  have h := g.fits
  unfold limit at h
  split at h <;> simp_all

theorem length_bytes (g : Glyph) : g.bytes.length = g.n := by
  rcases g.size_cases with ⟨h, -⟩ | ⟨h, -⟩ | ⟨h, -⟩ | ⟨h, -⟩ <;> simp [bytes, h]

theorem n_ne_zero (g : Glyph) : g.n ≠ 0 := by
  rcases g.size_cases with ⟨h, -⟩ | ⟨h, -⟩ | ⟨h, -⟩ | ⟨h, -⟩ <;> simp [h]

theorem bytes_lt (g : Glyph) : ∀ b ∈ g.bytes, b < 256 := by
  rcases g.size_cases with ⟨h, hc⟩ | ⟨h, hc⟩ | ⟨h, hc⟩ | ⟨h, hc⟩ <;> simp [bytes, h] <;> omega

/-- Only a zero is written with a zero byte. -/
theorem bytes_ne_zero {g : Glyph} (h0 : g.n = 1 → g.c ≠ 0) : ∀ b ∈ g.bytes, b ≠ 0 := by
  rcases g.size_cases with ⟨h, hc⟩ | ⟨h, hc⟩ | ⟨h, hc⟩ | ⟨h, hc⟩ <;> simp [bytes, h]
  exact h0 h

theorem chars_bytes {g : Glyph} (h0 : g.n = 1 → g.c ≠ 0) : Chars g.bytes :=
  fun b hb => ⟨bytes_ne_zero h0 b hb, g.bytes_lt b hb⟩

end Glyph

/-- The bytes of a text. -/
def glyphBytes (gs : List Glyph) : List Nat := gs.flatMap Glyph.bytes

theorem glyphBytes_cons (g : Glyph) (gs : List Glyph) :
    glyphBytes (g :: gs) = g.bytes ++ glyphBytes gs := List.flatMap_cons

/-! ### One character of a text -/

/-- The first byte of a text, and the rest of it. -/
theorem rip_first {a b : Nat} {u : List Nat} (h : rip 3 a = b :: u) :
    a ≠ 0 ∧ a % 256 = b ∧ rip 3 (a / 256) = u := by
  have ha : a ≠ 0 := by
    rintro rfl
    rw [rip, dif_pos rfl] at h
    cases h
  rw [rip, dif_neg ha, List.cons.injEq, end_bytes, rsh_bytes, Nat.pow_one] at h
  exact ⟨ha, h⟩

/-- The first bytes of a text, and the rest of it. -/
theorem rip_split {a : Nat} {u v : List Nat} (h : rip 3 a = u ++ v) :
    a % 256 ^ u.length = Nat.ofDigits 256 u ∧ rip 3 (a / 256 ^ u.length) = v := by
  induction u generalizing a with
  | nil => simpa [Nat.mod_one] using h
  | cons b u ih =>
      obtain ⟨-, hb, hrest⟩ := rip_first h
      obtain ⟨hlow, hhigh⟩ := ih hrest
      rw [Nat.div_div_eq_div_mul] at hhigh
      rw [List.length_cons, Nat.pow_succ']
      refine ⟨?_, hhigh⟩
      rw [Nat.mod_mul, hb, hlow, Nat.ofDigits_cons]

section glyph

variable {a : Nat} {g : Glyph} {gs : List Glyph}

theorem glyph_split (h : rip 3 a = glyphBytes (g :: gs)) :
    a % 256 ^ g.n = Nat.ofDigits 256 g.bytes ∧ rip 3 (rsh 3 g.n a) = glyphBytes gs := by
  rw [← g.length_bytes, rsh_bytes]
  exact rip_split h

/-- The lowest byte of a text. -/
theorem glyph_first (h : rip 3 a = glyphBytes (g :: gs)) : a ≠ 0 ∧ a % 256 = g.bytes.headD 0 := by
  have hlen := g.length_bytes
  have hn := g.n_ne_zero
  cases hb : g.bytes with
  | nil =>
      rw [hb, List.length_nil] at hlen
      exact absurd hlen.symm hn
  | cons b u =>
      rw [glyphBytes, List.flatMap_cons, hb] at h
      obtain ⟨ha, hlow, -⟩ := rip_first h
      exact ⟨ha, hlow⟩

/-- `++teff` reads off the length of a glyph, unless it is a control character. -/
theorem teff_glyph (h : rip 3 a = glyphBytes (g :: gs)) :
    teff a = if g.Shows then some g.n else none := by
  obtain ⟨ha, hlow⟩ := glyph_first h
  rcases g.size_cases with ⟨hn, hc⟩ | ⟨hn, hc⟩ | ⟨hn, hc⟩ | ⟨hn, hc⟩ <;>
    simp only [Glyph.bytes, hn, List.headD_cons] at hlow
  · rw [teff, end_bytes, Nat.pow_one, hlow]
    by_cases hs : g.Shows
    · have hs' := hs hn
      rw [if_pos hs, if_neg (by omega), if_pos (by omega), if_pos (by omega), hn]
    · have hs' : ¬(g.c = 10 ∨ 32 ≤ g.c) := fun hc => hs fun _ => hc
      rw [if_neg hs]
      by_cases h0 : g.c = 0
      · rw [if_pos h0, if_neg ha]
      · rw [if_neg h0, if_neg (by omega)]
  · rw [teff_byte hlow (by omega), if_pos (by omega), if_pos (g.shows_of_ne (by omega)), hn]
  · rw [teff_byte hlow (by omega), if_neg (by omega), if_pos (by omega),
      if_pos (g.shows_of_ne (by omega)), hn]
  · rw [teff_byte hlow (by omega), if_neg (by omega), if_neg (by omega),
      if_pos (g.shows_of_ne (by omega)), hn]

/-- A number from its bits, six at a time. -/
theorem sixes (c : Nat) :
    c % 64 + 64 * (c / 64 % 64 + 64 * (c / 4096 % 64 + 64 * (c / 262144))) = c := by
  omega

/-- The six bits of a byte that is not the first one. -/
theorem tail_bits {a c : Nat} (h : a % 256 = 128 + c % 64) : a % 64 = c % 64 := by
  omega

/-- `++turf` puts the bits of a glyph together. -/
theorem turf_glyph (h : rip 3 a = glyphBytes (g :: gs)) : ∃ bits, turfBits g.n = some bits ∧
    can 0 (bits.map fun x => (x.2, cut 0 x.1 x.2 a)) = g.c := by
  rw [glyphBytes, List.flatMap_cons] at h
  rcases g.size_cases with ⟨hn, hc⟩ | ⟨hn, hc⟩ | ⟨hn, hc⟩ | ⟨hn, hc⟩ <;>
    simp only [Glyph.bytes, hn, List.cons_append] at h <;>
    obtain ⟨-, hfirst, h⟩ := rip_first h <;>
    refine ⟨_, congrArg turfBits hn, ?_⟩ <;>
    simp [can_cons, field]
  · omega
  · have e1 : a % 32 = g.c / 64 := by omega
    obtain ⟨-, e0, -⟩ := rip_first h
    rw [tail_bits e0, e1]
    exact Nat.mod_add_div _ _
  · have e2 : a % 16 = g.c / 4096 := by omega
    obtain ⟨-, e1, h⟩ := rip_first h
    obtain ⟨-, e0, -⟩ := rip_first h
    have e0 := tail_bits e0
    rw [Nat.div_div_eq_div_mul] at e0
    rw [e0, tail_bits e1, e2]
    omega
  · have e3 : a % 8 = g.c / 262144 := by omega
    obtain ⟨-, e2, h⟩ := rip_first h
    obtain ⟨-, e1, h⟩ := rip_first h
    obtain ⟨-, e0, -⟩ := rip_first h
    have e1 := tail_bits e1
    have e0 := tail_bits e0
    rw [Nat.div_div_eq_div_mul] at e1 e0
    rw [Nat.div_div_eq_div_mul] at e0
    rw [e0, e1, tail_bits e2, e3]
    exact sixes g.c

/-- A glyph that shows has no zero byte. -/
theorem Glyph.Shows.chars (hg : g.Shows) : Chars g.bytes := by
  refine Glyph.chars_bytes fun h1 h0 => ?_
  rcases hg h1 with h | h <;> omega

/-- The first glyph alone. -/
theorem end_glyph (h : rip 3 a = glyphBytes (g :: gs)) (hg : g.Shows) :
    rip 3 («end» 3 g.n a) = glyphBytes [g] := by
  rw [end_bytes, (glyph_split h).1, ← rap_bytes hg.chars, rip_bytes, trip_rap hg.chars]
  simp [glyphBytes]

end glyph

/-! ### A text -/

/-- `++turf` reads every glyph, and crashes on a control character. -/
theorem turfLoop_glyphs {gs : List Glyph} {a : Nat} (h : rip 3 a = glyphBytes gs) :
    turfLoop a = if ∀ g ∈ gs, g.Shows then some (gs.map Glyph.c) else none := by
  induction gs generalizing a with
  | nil =>
      obtain rfl : a = 0 := by
        by_contra ha
        rw [rip, dif_neg ha] at h
        cases h
      rw [turfLoop]
      rfl
  | cons g gs ih =>
      have hteff := teff_glyph h
      rw [turfLoop]
      by_cases hg : g.Shows
      · rw [if_pos hg] at hteff
        obtain ⟨bits, hbits, hc⟩ := turf_glyph h
        split
        · next he =>
            rw [hteff] at he
            cases he
        · next b he =>
            obtain rfl : g.n = b := Option.some.inj (hteff.symm.trans he)
            rw [dif_neg g.n_ne_zero, hbits, ih (glyph_split h).2]
            by_cases hgs : ∀ g ∈ gs, g.Shows
            · rw [if_pos hgs, if_pos (List.forall_mem_cons.mpr ⟨hg, hgs⟩), List.map_cons, ← hc]
              rfl
            · rw [if_neg hgs, if_neg fun hall => hgs (List.forall_mem_cons.mp hall).2]
              rfl
      · rw [if_neg hg] at hteff
        split
        · next he => simp [hg]
        · next b he =>
            rw [hteff] at he
            cases he

/-- `++wood` writes every glyph, and crashes on a control character. -/
theorem woodLoop_glyphs {gs : List Glyph} {a : Nat} (h : rip 3 a = glyphBytes gs) :
    woodLoop a = if ∀ g ∈ gs, g.Shows then some ((gs.map Glyph.c).flatMap woodChar) else none := by
  induction gs generalizing a with
  | nil =>
      obtain rfl : a = 0 := by
        by_contra ha
        rw [rip, dif_neg ha] at h
        cases h
      rw [woodLoop]
      rfl
  | cons g gs ih =>
      have hteff := teff_glyph h
      obtain ⟨ha, -⟩ := glyph_first h
      rw [woodLoop, if_neg ha]
      by_cases hg : g.Shows
      · rw [if_pos hg] at hteff
        have hone : rip 3 («end» 3 g.n a) = glyphBytes [g] := end_glyph h hg
        have hturf : turf («end» 3 g.n a) = some g.c := by
          rw [turf, turfLoop_glyphs hone, if_pos (by simpa using hg)]
          simp [rap, cat, lsh]
        split
        · next he =>
            rw [hteff] at he
            cases he
        · next b he =>
            obtain rfl : g.n = b := Option.some.inj (hteff.symm.trans he)
            rw [dif_neg g.n_ne_zero, hturf, ih (glyph_split h).2]
            by_cases hgs : ∀ g ∈ gs, g.Shows
            · rw [if_pos hgs, if_pos (List.forall_mem_cons.mpr ⟨hg, hgs⟩)]
              rfl
            · rw [if_neg hgs, if_neg fun hall => hgs (List.forall_mem_cons.mp hall).2]
              rfl
      · rw [if_neg hg] at hteff
        split
        · next he => simp [hg]
        · next b he =>
            rw [hteff] at he
            cases he

/-! ### Glyphs that are written -/

theorem char_lt (c : Char) : c.toNat < 0x200000 := by
  have h := c.valid
  simp only [UInt32.isValidChar, Nat.isValidChar] at h
  change c.val.toNat < _
  omega

/-- A glyph of `++tuft`. -/
def tuftGlyph (w : Nat) : Glyph :=
  if h1 : w < 0x7f then ⟨1, w, Nat.lt_succ_of_lt h1⟩
  else if h2 : w < 0x7ff then ⟨2, w, Nat.lt_succ_of_lt h2⟩
  else if h3 : w < 0xffff then ⟨3, w, Nat.lt_succ_of_lt h3⟩
  else ⟨4, w % 0x200000, Nat.mod_lt w (by decide)⟩

/-- The shortest glyph of a character. -/
def shortGlyph (c : Nat) : Glyph :=
  if h1 : c < 0x80 then ⟨1, c, h1⟩
  else if h2 : c < 0x800 then ⟨2, c, h2⟩
  else if h3 : c < 0x10000 then ⟨3, c, h3⟩
  else ⟨4, c % 0x200000, Nat.mod_lt c (by decide)⟩

theorem mix_lead2 : ∀ x, x < 32 → mix 0xc0 x = 192 + x := by
  simp only [mix_eq]
  decide

theorem mix_lead3 : ∀ x, x < 16 → mix 0xe0 x = 224 + x := by
  simp only [mix_eq]
  decide

theorem mix_lead4 : ∀ x, x < 8 → mix 0xf0 x = 240 + x := by
  simp only [mix_eq]
  decide

theorem mix_tail : ∀ x, x < 64 → mix 0x80 x = 128 + x := by
  simp only [mix_eq]
  decide

theorem bytes_tuftGlyph (w : Nat) : (tuftGlyph w).bytes = tuftChar w := by
  have htail : ∀ x, mix 0x80 (x % 64) = 128 + x % 64 := fun x => mix_tail _ (Nat.mod_lt _ (by decide))
  unfold tuftGlyph tuftChar
  split
  · rfl
  · split
    · have h2 : w / 64 < 32 := by omega
      simp [Glyph.bytes, field, htail, Nat.mod_eq_of_lt h2, mix_lead2 _ h2, -mix_eq]
    · split
      · have h3 : w / 4096 < 16 := by omega
        simp [Glyph.bytes, field, htail, Nat.mod_eq_of_lt h3, mix_lead3 _ h3, -mix_eq]
      · have h4 : w / 262144 % 8 < 8 := Nat.mod_lt _ (by decide)
        simp [Glyph.bytes, field, htail, mix_lead4 _ h4, -mix_eq]
        omega

theorem tuftGlyph_c {w : Nat} (h : w < 0x200000) : (tuftGlyph w).c = w := by
  unfold tuftGlyph
  repeat' split
  · rfl
  · rfl
  · rfl
  · exact Nat.mod_eq_of_lt h

/-- The bytes of a character in UTF-8. -/
def utf8Char (c : Nat) : List Nat :=
  if c < 0x80 then [c]
  else if c < 0x800 then [192 + c / 64, 128 + c % 64]
  else if c < 0x10000 then [224 + c / 4096, 128 + c / 64 % 64, 128 + c % 64]
  else [240 + c / 262144, 128 + c / 4096 % 64, 128 + c / 64 % 64, 128 + c % 64]

/-- It is the encoding of a Unicode character. -/
theorem utf8Char_eq (c : Char) : utf8Char c.toNat = (String.utf8EncodeChar c).map UInt8.toNat := by
  have hc := char_lt c
  have hv : c.val.toNat = c.toNat := rfl
  rw [utf8Char, String.utf8EncodeChar, hv]
  by_cases h1 : c.toNat < 0x80
  · rw [if_pos h1, if_pos (by omega)]
    simp
    omega
  by_cases h2 : c.toNat < 0x800
  · rw [if_neg h1, if_pos h2, if_neg (by omega), if_pos (by omega)]
    simp
    omega
  by_cases h3 : c.toNat < 0x10000
  · rw [if_neg h1, if_neg h2, if_pos h3, if_neg (by omega), if_neg (by omega), if_pos (by omega)]
    simp
    omega
  · rw [if_neg h1, if_neg h2, if_neg h3, if_neg (by omega), if_neg (by omega), if_neg (by omega)]
    simp
    omega

/-- The bytes of a text in UTF-8. -/
def utf8 (cs : List Char) : List Nat := cs.flatMap fun c => (String.utf8EncodeChar c).map UInt8.toNat

theorem bytes_shortGlyph {c : Nat} (h : c < 0x200000) : (shortGlyph c).bytes = utf8Char c := by
  unfold shortGlyph utf8Char
  repeat' split
  · rfl
  · rfl
  · rfl
  · simp [Glyph.bytes, Nat.mod_eq_of_lt h]

theorem shortGlyph_c {c : Nat} (h : c < 0x200000) : (shortGlyph c).c = c := by
  unfold shortGlyph
  repeat' split
  · rfl
  · rfl
  · rfl
  · exact Nat.mod_eq_of_lt h

theorem utf8_eq (cs : List Char) : utf8 cs = glyphBytes ((cs.map Char.toNat).map shortGlyph) := by
  simp [utf8, glyphBytes, List.flatMap_map, bytes_shortGlyph (char_lt _), utf8Char_eq]

/-! ### Texts of the same bytes -/

/-- The number of bytes is read off the first one. -/
def firstSize (b : Nat) : Nat := if b < 128 then 1 else if b < 224 then 2 else if b < 240 then 3 else 4

theorem Glyph.first (g : Glyph) : ∃ b u, g.bytes = b :: u ∧ g.n = firstSize b := by
  rcases g.size_cases with ⟨hn, hc⟩ | ⟨hn, hc⟩ | ⟨hn, hc⟩ | ⟨hn, hc⟩ <;>
    simp only [Glyph.bytes, hn] <;> refine ⟨_, _, rfl, ?_⟩ <;> rw [firstSize]
  · rw [if_pos hc]
  · rw [if_neg (by omega), if_pos (by omega)]
  · rw [if_neg (by omega), if_neg (by omega), if_pos (by omega)]
  · rw [if_neg (by omega), if_neg (by omega), if_neg (by omega)]

theorem Glyph.bytes_inj {g h : Glyph} (hb : g.bytes = h.bytes) : g = h := by
  obtain ⟨b, u, hg, hgn⟩ := g.first
  obtain ⟨b', u', hh, hhn⟩ := h.first
  have hn : h.n = g.n := by
    rw [hg, hh, List.cons.injEq] at hb
    rw [hgn, hhn, hb.1]
  have hc : g.c = h.c := by
    rcases g.size_cases with ⟨h1, -⟩ | ⟨h1, -⟩ | ⟨h1, -⟩ | ⟨h1, -⟩ <;>
      simp [Glyph.bytes, h1, hn] at hb
    · exact hb
    · omega
    · omega
    · rw [← sixes g.c, ← sixes h.c, hb.1, hb.2.1, hb.2.2.1, hb.2.2.2]
  exact Glyph.ext hn.symm hc

/-- A text is written in one way. -/
theorem glyphBytes_inj {gs hs : List Glyph} (h : glyphBytes gs = glyphBytes hs) : gs = hs := by
  induction gs generalizing hs with
  | nil =>
      cases hs with
      | nil => rfl
      | cons k hs =>
          obtain ⟨b, u, hb, -⟩ := k.first
          simp [glyphBytes, hb] at h
  | cons g gs ih =>
      cases hs with
      | nil =>
          obtain ⟨b, u, hb, -⟩ := g.first
          simp [glyphBytes, hb] at h
      | cons k hs =>
          obtain ⟨b, u, hb, hbn⟩ := g.first
          obtain ⟨b', u', hb', hbn'⟩ := k.first
          have hfirst : b = b' := by
            simp only [glyphBytes, List.flatMap_cons, hb, hb', List.cons_append] at h
            exact (List.cons.inj h).1
          have hlen : g.bytes.length = k.bytes.length := by
            rw [g.length_bytes, k.length_bytes, hbn, hbn', hfirst]
          obtain ⟨hhead, htail⟩ := List.append_inj h hlen
          rw [Glyph.bytes_inj hhead, ih htail]

/-! ### Characters that come back from `++woad` -/

/-- `++wood` has a text of its own for the character. -/
def Plain (c : Nat) : Prop :=
  (97 ≤ c ∧ c ≤ 122) ∨ (48 ≤ c ∧ c ≤ 57) ∨ c = 45 ∨ c = 32 ∨ c = 46 ∨ c = 126

instance (c : Nat) : Decidable (Plain c) := inferInstanceAs (Decidable (_ ∨ _))

/-- The hex digits of a number without the zeros at the end. -/
def stripped (c : Nat) : Nat := if h : c ≠ 0 ∧ c % 16 = 0 then stripped (c / 16) else c
termination_by c
decreasing_by exact Nat.div_lt_self (Nat.pos_of_ne_zero h.1) (by decide)

/-- The character that `++woad` reads where `++wood` wrote another one. -/
def reread (c : Nat) : Nat := if Plain c then c else if c = 0 then 46 else stripped c

theorem stripped_le (c : Nat) : stripped c ≤ c := by
  induction c using stripped.induct with
  | case1 c h ih =>
      rw [stripped, dif_pos h]
      exact ih.trans (Nat.div_le_self c 16)
  | case2 c h => rw [stripped, dif_neg h]

theorem stripped_lt {c : Nat} (h0 : c ≠ 0) (h : c % 16 = 0) : stripped c < c := by
  rw [stripped, dif_pos ⟨h0, h⟩]
  exact (stripped_le _).trans_lt (Nat.div_lt_self (Nat.pos_of_ne_zero h0) (by decide))

theorem stripped_self {c : Nat} (h : c % 16 ≠ 0) : stripped c = c := by
  rw [stripped, dif_neg fun hc => h hc.2]

theorem stripped_ne_zero {c : Nat} (h : c ≠ 0) : stripped c ≠ 0 := by
  induction c using stripped.induct with
  | case1 c hc ih =>
      rw [stripped, dif_pos hc]
      exact ih (by omega)
  | case2 c hc =>
      rw [stripped, dif_neg hc]
      exact h

theorem stripped_mul (c e : Nat) : stripped (c * 16 ^ e) = stripped c := by
  induction e with
  | zero => simp
  | succ e ih =>
      by_cases h : c = 0
      · simp [h]
      · have hne : c * 16 ^ e ≠ 0 := Nat.mul_ne_zero h (Nat.pow_pos (by decide)).ne'
        rw [Nat.pow_succ, ← Nat.mul_assoc, stripped, dif_pos (by omega),
          Nat.mul_div_cancel _ (by decide), ih]

theorem reread_eq (c : Nat) : reread c = c ↔ Plain c ∨ c % 16 ≠ 0 := by
  unfold reread
  split
  · next h => simp [h]
  · next h =>
      split
      · next h0 => simp [h0, Plain]
      · next h0 =>
          by_cases hc : c % 16 = 0
          · simp [h, hc, (stripped_lt h0 hc).ne]
          · simp [hc, stripped_self hc]

theorem reread_ne_zero (c : Nat) : reread c ≠ 0 := by
  unfold reread
  split
  · next h => exact fun h0 => absurd (h0 ▸ h) (by decide)
  · split
    · decide
    · next h0 => exact stripped_ne_zero h0

theorem reread_lt {c n : Nat} (hn : 46 < n) (h : c < n) : reread c < n := by
  unfold reread
  split
  · exact h
  · split
    · exact hn
    · exact (stripped_le c).trans_lt h

/-! ### What `++woad` reads -/

section woad

variable {c d e : Nat} {s : Tape}

theorem woadLoop_dot : woadLoop (some d) (46 :: s) =
    (woadLoop none s).map (rip 3 (tuft d) ++ ·) := by
  rw [woadLoop]
  cases woadLoop none s <;> rfl

theorem woadLoop_digit {f : Nat} (hf : f < 16) (hs : s ≠ []) :
    woadLoop (some d) (((if f ≤ 9 then 48 else 87) + f) :: s) = woadLoop (some (16 * d + f)) s := by
  by_cases h9 : f ≤ 9
  · rw [if_pos h9, woadLoop, if_neg (by simp; omega), if_neg hs, if_pos (by simp; omega)]
    congr 2
    omega
  · rw [if_neg h9, woadLoop, if_neg (by simp; omega), if_neg hs, if_neg (by simp; omega),
      if_pos (by simp; omega)]
    congr 2
    omega

theorem rsh_nibbles (e c : Nat) : rsh 2 e c = c / 16 ^ e := by
  rw [rsh, bex_eq, bex_eq, Nat.pow_mul]
  rfl

theorem end_nibbles (e c : Nat) : «end» 2 e c = c % 16 ^ e := by
  rw [«end», bex_eq, bex_eq, Nat.pow_mul]
  rfl

theorem digit_ne {f : Nat} (hf : f < 16) :
    (if f ≤ 9 then 48 else 87) + f ≠ 46 ∧ (if f ≤ 9 then 48 else 87) + f ≠ 126 := by
  split <;> omega

theorem woodHex_zero (e : Nat) : woodHex e 0 = [] := by
  cases e <;> rfl

theorem high_nibble (hc : c < 16 ^ (e + 1)) : c / 16 ^ e < 16 := by
  rw [Nat.div_lt_iff_lt_mul (Nat.pow_pos (by decide)), ← Nat.pow_succ']
  exact hc

/-- The digits of an escape, after `d` was read. -/
theorem woadLoop_hex (hc : c < 16 ^ e) : woadLoop (some d) (woodHex e c ++ 46 :: s) =
    (woadLoop none s).map
      (rip 3 (tuft (if c = 0 then d else stripped (d * 16 ^ e + c))) ++ ·) := by
  induction e generalizing c d with
  | zero =>
      obtain rfl : c = 0 := by simpa using hc
      exact woadLoop_dot
  | succ e ih =>
      by_cases h0 : c = 0
      · subst h0
        exact woadLoop_dot
      · have hf := high_nibble hc
        have hlow : c % 16 ^ e < 16 ^ e := Nat.mod_lt _ (Nat.pow_pos (by decide))
        have hsplit : d * 16 ^ (e + 1) + c = (16 * d + c / 16 ^ e) * 16 ^ e + c % 16 ^ e := by
          conv_lhs => rw [← Nat.div_add_mod c (16 ^ e)]
          ring
        rw [woodHex, if_neg h0, rsh_nibbles, end_nibbles, List.cons_append,
          woadLoop_digit hf (by simp), ih hlow, if_neg h0, hsplit]
        by_cases hr : c % 16 ^ e = 0
        · have hdig : (16 * d + c / 16 ^ e) % 16 ≠ 0 := by
            rw [Nat.mul_add_mod, Nat.mod_eq_of_lt hf]
            intro hq
            have := Nat.div_add_mod c (16 ^ e)
            rw [hq, hr] at this
            simp at this
            exact h0 this.symm
          rw [if_pos hr, hr, Nat.add_zero, stripped_mul, stripped_self hdig]
        · rw [if_neg hr]

/-- A character of `++tuft` as a text. -/
theorem rip_tuft (h0 : c ≠ 0) (hc : c < 0x200000) : rip 3 (tuft c) = tuftChar c := by
  have hend : «end» 5 1 c = c := by
    rw [«end», bex_eq, bex_eq]
    exact Nat.mod_eq_of_lt (hc.trans (by decide))
  have hrsh : rsh 5 1 c = 0 := by
    rw [rsh, bex_eq, bex_eq]
    exact Nat.div_eq_of_lt (hc.trans (by decide))
  have hloop : tuftLoop c = tuftChar c := by
    rw [tuftLoop, dif_neg h0, hend, hrsh, tuftLoop, dif_pos rfl, List.append_nil]
  have hchars : Chars (tuftChar c) := by
    rw [← bytes_tuftGlyph]
    refine Glyph.chars_bytes fun _ => ?_
    rwa [tuftGlyph_c hc]
  rw [tuft, hloop, rip_bytes, trip_rap hchars]

theorem reread_plain (h : Plain c) : reread c = c := if_pos h

theorem tuftChar_plain (h : Plain c) : tuftChar c = [c] := by
  have hlt : c < 0x7f := by
    rcases h with h | h | h | h | h | h <;> omega
  rw [tuftChar, if_pos hlt]

theorem woadLoop_space : woadLoop none (46 :: s) = (woadLoop none s).map ([32] ++ ·) := by
  rw [woadLoop.eq_def]
  change (woadLoop none s).bind (fun t => some (32 :: t)) = _
  cases woadLoop none s <;> rfl

theorem woadLoop_same (h1 : c ≠ 46) (h2 : c ≠ 126) :
    woadLoop none (c :: s) = (woadLoop none s).map ([c] ++ ·) := by
  rw [woadLoop.eq_def]
  simp only [Char.reduceToNat, h1, if_false, ne_eq, h2, not_false_eq_true, if_true]
  cases woadLoop none s <;> rfl

theorem woadLoop_pair (h : c = 46 ∨ c = 126) :
    woadLoop none (126 :: c :: s) = (woadLoop none s).map ([c] ++ ·) := by
  rcases h with rfl | rfl <;> rw [woadLoop.eq_def]
  · change (woadLoop none s).bind (fun t => some (46 :: t)) = _
    cases woadLoop none s <;> rfl
  · change (woadLoop none s).bind (fun t => some (126 :: t)) = _
    cases woadLoop none s <;> rfl

theorem woadLoop_escape (h1 : c ≠ 46) (h2 : c ≠ 126) :
    woadLoop none (126 :: c :: s) = woadLoop (some 0) (c :: s) := by
  rw [woadLoop.eq_def]
  simp [h1, h2]

/-- What `++wood` writes for a character is read as one character. -/
theorem woadLoop_char (hc : c < 0x200000) : woadLoop none (woodChar c ++ s) =
    (woadLoop none s).map (tuftChar (reread c) ++ ·) := by
  rw [woodChar]
  split
  · next h =>
      have hp : Plain c := by
        rcases h with h | h | h
        · exact .inl h
        · exact .inr (.inl h)
        · exact .inr (.inr (.inl h))
      rw [reread_plain hp, tuftChar_plain hp]
      refine woadLoop_same ?_ ?_ <;> rintro rfl <;> revert h <;> decide
  · next hlit =>
      split
      · next h =>
          subst h
          rw [reread_plain (by decide), tuftChar_plain (by decide)]
          exact woadLoop_space
      · next hspace =>
          split
          · next h =>
              subst h
              rw [reread_plain (by decide), tuftChar_plain (by decide)]
              exact woadLoop_pair (.inl rfl)
          · next hdot =>
              split
              · next h =>
                  subst h
                  rw [reread_plain (by decide), tuftChar_plain (by decide)]
                  exact woadLoop_pair (.inr rfl)
              · next hsig =>
                  have hp : ¬Plain c := by
                    rintro (h | h | h | h | h | h)
                    · exact hlit (.inl h)
                    · exact hlit (.inr (.inl h))
                    · exact hlit (.inr (.inr h))
                    · exact hspace h
                    · exact hdot h
                    · exact hsig h
                  rw [List.cons_append, List.append_assoc, reread, if_neg hp]
                  by_cases h0 : c = 0
                  · subst h0
                    rw [if_pos rfl, tuftChar_plain (by decide), woodHex_zero]
                    exact woadLoop_pair (.inl rfl)
                  · have hmet : c < 16 ^ met 2 c := by
                      have := met_le (a := 2) (b := c).mp le_rfl
                      rwa [Nat.pow_mul] at this
                    rw [if_neg h0]
                    cases he : met 2 c with
                    | zero =>
                        rw [he] at hmet
                        omega
                    | succ e =>
                        rw [he] at hmet
                        have hf := high_nibble hmet
                        have hstep : woadLoop none (126 :: (woodHex (e + 1) c ++ (46 :: s))) =
                            woadLoop (some 0) (woodHex (e + 1) c ++ 46 :: s) := by
                          rw [woodHex, if_neg h0, List.cons_append, rsh_nibbles]
                          exact woadLoop_escape (digit_ne hf).1 (digit_ne hf).2
                        have hhex := woadLoop_hex (d := 0) (s := s) hmet
                        rw [if_neg h0, Nat.zero_mul, Nat.zero_add,
                          rip_tuft (stripped_ne_zero h0) ((stripped_le c).trans_lt hc)] at hhex
                        exact hstep.trans hhex

/-- `++woad` reads a text character by character. -/
theorem woadLoop_text {cs : List Nat} (h : ∀ c ∈ cs, c < 0x200000) :
    woadLoop none (cs.flatMap woodChar) =
      some (glyphBytes (cs.map fun c => tuftGlyph (reread c))) := by
  induction cs with
  | nil => rfl
  | cons c cs ih =>
      rw [List.flatMap_cons, woadLoop_char (h c List.mem_cons_self),
        ih fun b hb => h b (List.mem_cons_of_mem c hb), ← bytes_tuftGlyph]
      rfl

end woad

/-! ### Texts that come back -/

/-- A character that may stand in a span: what `urt` of `++ab` takes. -/
def Spanned (c : Nat) : Prop :=
  (97 ≤ c ∧ c ≤ 122) ∨ (48 ≤ c ∧ c ≤ 57) ∨ c = 45 ∨ c = 46 ∨ c = 126

instance (c : Nat) : Decidable (Spanned c) := inferInstanceAs (Decidable (_ ∨ _))

theorem Spanned.char {c : Nat} (h : Spanned c) : c ≠ 0 ∧ c < 256 := by
  rcases h with h | h | h | h | h <;> omega

theorem spanned_digit {f : Nat} (hf : f < 16) : Spanned ((if f ≤ 9 then 48 else 87) + f) := by
  unfold Spanned
  split <;> omega

theorem woodHex_spanned {e c : Nat} (hc : c < 16 ^ e) : ∀ b ∈ woodHex e c, Spanned b := by
  induction e generalizing c with
  | zero => simp [woodHex]
  | succ e ih =>
      rw [woodHex]
      split
      · simp
      · rw [rsh_nibbles, end_nibbles]
        exact List.forall_mem_cons.mpr ⟨spanned_digit (high_nibble hc),
          ih (Nat.mod_lt _ (Nat.pow_pos (by decide)))⟩

theorem woodChar_spanned (c : Nat) : ∀ b ∈ woodChar c, Spanned b := by
  have hmet : c < 16 ^ met 2 c := by
    have := met_le (a := 2) (b := c).mp le_rfl
    rwa [Nat.pow_mul] at this
  have hhex := woodHex_spanned hmet
  rw [woodChar]
  split
  · next h =>
      rcases h with h | h | h <;> simp_all [Spanned]
  · repeat' split
    · simp [Spanned]
    · simp [Spanned]
    · simp [Spanned]
    · intro b hb
      rcases List.mem_cons.mp hb with rfl | hb
      · simp [Spanned]
      · rcases List.mem_append.mp hb with hb | hb
        · exact hhex b hb
        · simp only [List.mem_singleton] at hb
          subst hb
          simp [Spanned]

theorem woodText_spanned (cs : List Nat) : ∀ b ∈ cs.flatMap woodChar, Spanned b := by
  intro b hb
  obtain ⟨c, -, hb⟩ := List.mem_flatMap.mp hb
  exact woodChar_spanned c b hb

theorem chars_of_spanned {t : List Nat} (h : ∀ b ∈ t, Spanned b) : Chars t :=
  fun b hb => (h b hb).char

/-- The characters that `++tuft` writes as short as can be. -/
def Short (c : Nat) : Prop := c ≠ 0x7f ∧ c ≠ 0x7ff ∧ c ≠ 0xffff

instance (c : Nat) : Decidable (Short c) := inferInstanceAs (Decidable (_ ∧ _))

/-- The characters that come back in a text. -/
def Kept (c : Nat) : Prop := (Plain c ∨ c % 16 ≠ 0) ∧ Short c

instance (c : Nat) : Decidable (Kept c) := inferInstanceAs (Decidable (_ ∧ _))

theorem tuftGlyph_n (w : Nat) : (tuftGlyph w).n =
    if w < 0x7f then 1 else if w < 0x7ff then 2 else if w < 0xffff then 3 else 4 := by
  unfold tuftGlyph
  repeat' split
  all_goals rfl

theorem shortGlyph_n (c : Nat) : (shortGlyph c).n =
    if c < 0x80 then 1 else if c < 0x800 then 2 else if c < 0x10000 then 3 else 4 := by
  unfold shortGlyph
  repeat' split
  all_goals rfl

/-- `++tuft` goes to the next length one character too early. -/
theorem tuft_short {v c : Nat} (hv : v < 0x200000) (hc : c < 0x200000) :
    tuftGlyph v = shortGlyph c ↔ v = c ∧ Short c := by
  rw [Glyph.ext_iff, tuftGlyph_c hv, shortGlyph_c hc, and_comm]
  refine and_congr_right ?_
  rintro rfl
  rw [tuftGlyph_n, shortGlyph_n]
  constructor
  · intro h
    refine ⟨?_, ?_, ?_⟩ <;> rintro rfl <;> simp at h
  · rintro ⟨h1, h2, h3⟩
    repeat' split
    all_goals first | rfl | omega

theorem glyphs_inj {f g : Nat → Glyph} {cs : List Nat} :
    glyphBytes (cs.map f) = glyphBytes (cs.map g) ↔ ∀ c ∈ cs, f c = g c := by
  rw [← List.map_inj_left]
  exact ⟨glyphBytes_inj, congrArg glyphBytes⟩

/-- A text comes back from `++woad` exactly if every character does. -/
theorem woad_short {cs : List Nat} (h : ∀ c ∈ cs, c < 0x200000) :
    glyphBytes (cs.map fun c => tuftGlyph (reread c)) = glyphBytes (cs.map shortGlyph) ↔
      ∀ c ∈ cs, Kept c := by
  rw [glyphs_inj]
  refine forall₂_congr fun c hc => ?_
  rw [tuft_short (reread_lt (by decide) (h c hc)) (h c hc), reread_eq, Kept]

/-- `++tuft` writes the words of an atom one by one. -/
theorem tuftLoop_eq (a : Nat) : tuftLoop a = (rip 5 a).flatMap tuftChar := by
  induction a using tuftLoop.induct with
  | case1 => rw [tuftLoop, dif_pos rfl, rip, dif_pos rfl, List.flatMap_nil]
  | case2 a h ih => rw [tuftLoop, dif_neg h, rip, dif_neg h, ih, List.flatMap_cons]

theorem rip_inj {a b : Nat} : rip 3 a = rip 3 b ↔ a = b := by
  rw [rip_eq, rip_eq, Nat.digits_inj_iff]

/-- The words of an atom that are written: `++rap` leaves a zero out. -/
def tuftGlyphs (a : Nat) : List Glyph := ((rip 5 a).filter (· ≠ 0)).map tuftGlyph

theorem rap_zeros (a : Nat) (l : List Nat) : rap a (l.filter (· ≠ 0)) = rap a l := by
  induction l with
  | nil => rfl
  | cons c l ih =>
      by_cases h : c = 0
      · subst h
        rw [List.filter_cons_of_neg (by simp), ih, rap]
        simp [cat, lsh, met, metLoop]
      · rw [List.filter_cons_of_pos (by simpa using h), rap, rap, ih]

theorem tuftGlyph_ne_zero {w : Nat} (h : w ≠ 0) : (tuftGlyph w).n = 1 → (tuftGlyph w).c ≠ 0 := by
  unfold tuftGlyph
  repeat' split
  all_goals simp [h]

theorem chars_glyphBytes {gs : List Glyph} (h : ∀ g ∈ gs, g.n = 1 → g.c ≠ 0) :
    Chars (glyphBytes gs) := by
  intro b hb
  obtain ⟨g, hg, hb⟩ := List.mem_flatMap.mp hb
  exact Glyph.chars_bytes (h g hg) b hb

theorem rip_glyphs {gs : List Glyph} (h : ∀ g ∈ gs, g.n = 1 → g.c ≠ 0) :
    rip 3 (rap 3 (glyphBytes gs)) = glyphBytes gs := by
  rw [rip_bytes, trip_rap (chars_glyphBytes h)]

theorem rip_tuft_glyphs (a : Nat) : rip 3 (tuft a) = glyphBytes (tuftGlyphs a) := by
  have hzero : (tuftChar 0).filter (· ≠ 0) = [] := by decide
  have hfilter : ∀ ws : List Nat, (ws.flatMap tuftChar).filter (· ≠ 0) =
      glyphBytes ((ws.filter (· ≠ 0)).map tuftGlyph) := by
    intro ws
    induction ws with
    | nil => rfl
    | cons w ws ih =>
        rw [List.flatMap_cons, List.filter_append, ih]
        by_cases h : w = 0
        · subst h
          rw [hzero, List.filter_cons_of_neg (by simp), List.nil_append]
        · have hself : (tuftChar w).filter (· ≠ 0) = tuftChar w := by
            refine List.filter_eq_self.mpr fun b hb => ?_
            rw [← bytes_tuftGlyph] at hb
            simpa using Glyph.bytes_ne_zero (tuftGlyph_ne_zero h) b hb
          rw [List.filter_cons_of_pos (by simpa using h), List.map_cons, glyphBytes_cons, hself,
            bytes_tuftGlyph]
  rw [tuft, tuftLoop_eq, ← rap_zeros, hfilter]
  refine rip_glyphs fun g hg => ?_
  obtain ⟨w, hw, rfl⟩ := List.mem_map.mp hg
  refine tuftGlyph_ne_zero ?_
  simpa using (List.mem_filter.mp hw).2

theorem tuftGlyph_shows (w : Nat) : (tuftGlyph w).Shows ↔ w = 10 ∨ 32 ≤ w := by
  unfold tuftGlyph Glyph.Shows
  split
  · simp
  · next h =>
      have h32 : 32 ≤ w := by omega
      repeat' split
      all_goals simp [h32]

/-! ### Text and characters -/

section text

variable {a t : Nat} {cs : List Char} {ws : List Nat}

theorem shortGlyph_shows (c : Nat) : (shortGlyph c).Shows ↔ c = 10 ∨ 32 ≤ c := by
  unfold shortGlyph Glyph.Shows
  split
  · simp
  · next h =>
      have h32 : 32 ≤ c := by omega
      repeat' split
      all_goals simp [h32]

theorem wood_glyphs {gs : List Glyph} (h : rip 3 a = glyphBytes gs) (hs : ∀ g ∈ gs, g.Shows) :
    wood a = some (rap 3 ((gs.map Glyph.c).flatMap woodChar)) := by
  rw [wood, woodLoop_glyphs h, if_pos hs]
  rfl

theorem woad_chars (h : ∀ w ∈ ws, w < 0x200000) : woad (rap 3 (ws.flatMap woodChar)) =
    some (rap 3 (glyphBytes (ws.map fun w => tuftGlyph (reread w)))) := by
  rw [woad, rip_bytes, trip_rap (chars_of_spanned (woodText_spanned ws)), woadLoop_text h]
  rfl

/-- The characters of a text in UTF-8, as glyphs. -/
theorem map_shortGlyph_c (h : ∀ w ∈ ws, w < 0x200000) : (ws.map shortGlyph).map Glyph.c = ws := by
  rw [List.map_map]
  exact (List.map_congr_left fun w hw => shortGlyph_c (h w hw)).trans (List.map_id _)

theorem code_lt (cs : List Char) : ∀ w ∈ cs.map Char.toNat, w < 0x200000 := by
  intro w hw
  obtain ⟨c, -, rfl⟩ := List.mem_map.mp hw
  exact char_lt c

/-- A text of glyphs is the text if it has the same bytes. -/
theorem rap_glyphs {gs hs : List Glyph} (h : rip 3 a = glyphBytes gs)
    (hne : ∀ g ∈ hs, g.n = 1 → g.c ≠ 0) :
    rap 3 (glyphBytes hs) = a ↔ glyphBytes hs = glyphBytes gs := by
  constructor
  · rintro rfl
    rw [← h, rip_glyphs hne]
  · intro he
    rw [he, ← h, rap_rip]
    rw [h, ← he]
    exact fun q hq => (chars_glyphBytes hne q hq).1

/-- What `++wood` writes of a text without control characters is a span, and it comes back
exactly if every character does. -/
theorem woad_wood (h : rip 3 a = utf8 cs) (hcs : ∀ c ∈ cs, c.toNat = 10 ∨ 32 ≤ c.toNat) :
    ∃ t, wood a = some t ∧ (∀ b ∈ rip 3 t, Spanned b) ∧
      (woad t = some a ↔ ∀ c ∈ cs, Kept c.toNat) := by
  rw [utf8_eq] at h
  have hlt := code_lt cs
  have hshow : ∀ g ∈ (cs.map Char.toNat).map shortGlyph, g.Shows := by
    simpa [shortGlyph_shows] using hcs
  have hwood := wood_glyphs h hshow
  rw [map_shortGlyph_c hlt] at hwood
  have hspan := woodText_spanned (cs.map Char.toNat)
  refine ⟨_, hwood, ?_, ?_⟩
  · rwa [rip_bytes, trip_rap (chars_of_spanned hspan)]
  · have hne : ∀ g ∈ (cs.map Char.toNat).map (fun w => tuftGlyph (reread w)), g.n = 1 → g.c ≠ 0 := by
      intro g hg
      obtain ⟨w, -, rfl⟩ := List.mem_map.mp hg
      exact tuftGlyph_ne_zero (reread_ne_zero w)
    rw [woad_chars hlt, Option.some.injEq, rap_glyphs h hne, woad_short hlt, List.forall_mem_map]

theorem woad_wood_letters : ∃ t, wood 16737 = some t ∧ (∀ b ∈ rip 3 t, Spanned b) ∧
    (woad t = some 16737 ↔ ∀ c ∈ ['a', 'A'], Kept c.toNat) :=
  woad_wood (by rw [rip_bytes, trip_eq]; simp; decide) (by simp)

/-- `P` is written `~5.`, without the zero, and is read as another character. -/
theorem woad_wood_zero : rip 3 80 = utf8 ['P'] ∧ ∃ t, wood 80 = some t ∧ woad t = some 5 := by
  have h : rip 3 80 = utf8 ['P'] := by
    rw [rip_bytes, trip_eq]
    simp
    decide
  have hshow : ∀ g ∈ [shortGlyph 80], g.Shows := by decide
  have hread : reread 80 = 5 := by simp [reread, Plain, stripped]
  refine ⟨h, _, wood_glyphs (h.trans (utf8_eq _)) hshow, ?_⟩
  have hw := @woad_chars [80] (by decide)
  rw [List.map_singleton, hread] at hw
  refine hw.trans (congrArg some ?_)
  rw [rap_bytes (by decide)]
  rfl

/-- The code points of `++tuft` that `++teff` takes. -/
def CodePoint (w : Nat) : Prop := (w = 10 ∨ 32 ≤ w) ∧ w < 0x110000

instance (w : Nat) : Decidable (CodePoint w) := inferInstanceAs (Decidable (_ ∧ _))

/-- Words that are not zero are split again as they were. -/
theorem rip_rap_words (h : ∀ w ∈ ws, w ≠ 0 ∧ w < 2 ^ 32) : rip 5 (rap 5 ws) = ws := by
  rw [rap_eq_join (fun q hq => (h q hq).2) (fun q hq => (h q hq).1),
    rip_join (fun q hq => (h q hq).2) (fun hne => (h _ (List.getLast_mem hne)).1)]

theorem CodePoint.word {w : Nat} (h : CodePoint w) : w ≠ 0 ∧ w < 2 ^ 32 := by
  obtain ⟨h1, h2⟩ := h
  omega

theorem tuftGlyphs_rap (h : ∀ w ∈ ws, w ≠ 0 ∧ w < 2 ^ 32) :
    tuftGlyphs (rap 5 ws) = ws.map tuftGlyph := by
  rw [tuftGlyphs, rip_rap_words h, List.filter_eq_self.mpr]
  exact fun w hw => by simpa using (h w hw).1

/-- `++tuft` of a list of code points. -/
theorem rip_tuft_words (h : ∀ w ∈ ws, w ≠ 0 ∧ w < 2 ^ 32) :
    rip 3 (tuft (rap 5 ws)) = glyphBytes (ws.map tuftGlyph) := by
  rw [rip_tuft_glyphs, tuftGlyphs_rap h]

/-- `++tuft` of some code points is UTF-8 exactly if it writes each as short as can be. -/
theorem tuft_words_short (h : ∀ w ∈ ws, w < 0x200000) :
    glyphBytes (ws.map tuftGlyph) = glyphBytes (ws.map shortGlyph) ↔ ∀ w ∈ ws, Short w := by
  rw [glyphs_inj]
  refine forall₂_congr fun w hw => ?_
  rw [tuft_short (h w hw) (h w hw), and_iff_right rfl]

/-- `++turf` takes a list of code points back, and `++tuft` a text, but not always as it was. -/
theorem turf_tuft (hws : ∀ w ∈ ws, CodePoint w) (ht : rip 3 t = utf8 cs) :
    turf (tuft (rap 5 ws)) = some (rap 5 ws) ∧
      (rip 3 (tuft (rap 5 ws)) = ws.flatMap utf8Char ↔ ∀ w ∈ ws, Short w) ∧
      ((turf t).map tuft = some t ↔
        ∀ c ∈ cs, (c.toNat = 10 ∨ 32 ≤ c.toNat) ∧ Short c.toNat) := by
  have hword : ∀ w ∈ ws, w ≠ 0 ∧ w < 2 ^ 32 := fun w hw => (hws w hw).word
  have hlt : ∀ w ∈ ws, w < 0x200000 := fun w hw => (hws w hw).2.trans (by decide)
  have hrip := rip_tuft_words hword
  refine ⟨?_, ?_, ?_⟩
  · have hshow : ∀ g ∈ ws.map tuftGlyph, g.Shows := by
      intro g hg
      obtain ⟨w, hw, rfl⟩ := List.mem_map.mp hg
      exact (tuftGlyph_shows w).mpr (hws w hw).1
    have hchars : (ws.map tuftGlyph).map Glyph.c = ws := by
      rw [List.map_map]
      exact (List.map_congr_left fun w hw => tuftGlyph_c (hlt w hw)).trans (List.map_id _)
    rw [turf, turfLoop_glyphs hrip, if_pos hshow, hchars]
    rfl
  · have hshort : ws.flatMap utf8Char = glyphBytes (ws.map shortGlyph) := by
      rw [glyphBytes, List.flatMap_map]
      exact List.flatMap_congr fun w hw => (bytes_shortGlyph (hlt w hw)).symm
    rw [hrip, hshort, tuft_words_short hlt]
  · rw [utf8_eq] at ht
    have hshow : (∀ g ∈ (cs.map Char.toNat).map shortGlyph, g.Shows) ↔
        ∀ c ∈ cs, c.toNat = 10 ∨ 32 ≤ c.toNat := by
      simp [shortGlyph_shows]
    rw [turf, turfLoop_glyphs ht, map_shortGlyph_c (code_lt cs)]
    by_cases hs : ∀ c ∈ cs, c.toNat = 10 ∨ 32 ≤ c.toNat
    · have hcode : ∀ w ∈ cs.map Char.toNat, w ≠ 0 ∧ w < 2 ^ 32 := by
        intro w hw
        obtain ⟨c, hc, rfl⟩ := List.mem_map.mp hw
        have h10 := hs c hc
        exact ⟨by omega, (char_lt c).trans (by decide)⟩
      have hback : tuft (rap 5 (cs.map Char.toNat)) = t ↔ ∀ c ∈ cs, Short c.toNat := by
        rw [← rip_inj, rip_tuft_words hcode, ht, tuft_words_short (code_lt cs), List.forall_mem_map]
      rw [if_pos (hshow.mpr hs)]
      change some (tuft (rap 5 (cs.map Char.toNat))) = some t ↔ _
      rw [Option.some.injEq, hback]
      exact forall₂_congr fun c hc => (and_iff_right (hs c hc)).symm
    · rw [if_neg fun h => hs (hshow.mp h)]
      constructor
      · intro h
        cases h
      · exact fun h => absurd (fun c hc => (h c hc).1) hs

theorem turf_tuft_mixed :
    turf (tuft (rap 5 [97, 0x20ac])) = some (rap 5 [97, 0x20ac]) ∧
      (rip 3 (tuft (rap 5 [97, 0x20ac])) = [97, 0x20ac].flatMap utf8Char ↔
        ∀ w ∈ [97, 0x20ac], Short w) ∧
      ((turf 16737).map tuft = some 16737 ↔
        ∀ c ∈ ['a', 'A'], (c.toNat = 10 ∨ 32 ≤ c.toNat) ∧ Short c.toNat) :=
  turf_tuft (by decide) (by rw [rip_bytes, trip_eq]; simp; decide)

/-- The last character with two bytes is written in three. -/
theorem turf_tuft_long : CodePoint 0x7ff ∧ utf8Char 0x7ff = [0xdf, 0xbf] ∧
    rip 3 (tuft 0x7ff) = [0xe0, 0x9f, 0xbf] ∧
    rip 3 0xbfdf = utf8 [Char.ofNat 0x7ff] ∧ (turf 0xbfdf).map tuft = some 0xbf9fe0 := by
  have hrip : rip 3 (tuft 0x7ff) = [0xe0, 0x9f, 0xbf] := by
    rw [rip_tuft (by decide) (by decide), ← bytes_tuftGlyph]
    decide
  refine ⟨by decide, by decide, hrip, ?_, ?_⟩
  · rw [rip_bytes, trip_eq]
    simp
    decide
  · have hturf : turf 0xbfdf = some 0x7ff := turf_two rfl (by decide) (by decide) (by decide)
    rw [hturf, Option.map_some, Option.some.injEq, ← rip_inj, hrip, rip_bytes, trip_eq]
    simp

end text

end Vere.Hoon
