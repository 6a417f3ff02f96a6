import Vere.Jets.Bits

/-!
# Vere.Jets.BitsSpec

What the bit jets compute while every size they handle is a cat.

Each lemma replaces a slab-and-chop body by the arithmetic it performs, under
the bound that keeps the `c3_w` sizes from wrapping. The packers never unfold a
jet again.
-/

namespace Vere.Jets

open Vere.Lib

/-! ### Measuring -/

theorem wordLen_pos {b : Nat} (h : 0 < b) : 0 < wordLen b := by
  have := Nat.size_pos.mpr h
  unfold wordLen
  omega

/-- The top word and the words below it account for every bit. -/
theorem size_top_word {b : Nat} (h : 0 < b) :
    (b / 2 ^ (32 * (wordLen b - 1))).size + 32 * (wordLen b - 1) = b.size := by
  have hs := Nat.size_pos.mpr h
  have hle : 32 * (wordLen b - 1) < b.size := by unfold wordLen; omega
  have hpow : 2 ^ (32 * (wordLen b - 1)) ≤ b := Nat.lt_size.mp hle
  have hdiv : 0 < b / 2 ^ (32 * (wordLen b - 1)) := Nat.div_pos hpow (Nat.two_pow_pos _)
  have hsplit := size_add_mul (Nat.mod_lt b (Nat.two_pow_pos (32 * (wordLen b - 1)))) hdiv
  rw [Nat.mod_add_div] at hsplit
  omega

theorem u2Met_zero {b : Nat} (h : b.size < 2 ^ 32) : u2Met 0 b = b.size := by
  unfold u2Met
  by_cases hb : b = 0
  · simp [hb]
  · rw [if_neg hb]
    dsimp only
    rw [size_top_word (Nat.pos_of_ne_zero hb)]
    simp [c3w_of_lt h]

theorem u2Met_five {b : Nat} (h : b.size < 2 ^ 32) : u2Met 5 b = wordLen b := by
  unfold u2Met
  by_cases hb : b = 0
  · simp [hb, wordLen]
  · rw [if_neg hb]
    have hpos := wordLen_pos (Nat.pos_of_ne_zero hb)
    have hlt : wordLen b < 2 ^ 32 := by unfold wordLen; omega
    simp only [Nat.sub_self, Nat.pow_zero, Nat.div_one, Nat.add_zero]
    rw [Nat.sub_add_cancel hpos, c3w_of_lt hlt]

theorem met_zero {b : Nat} (h : b.size < 2 ^ 32) : met 0 b = b.size := by
  simp [met, isCat, u2Met_zero h]

/-! ### Chopping -/

theorem Slab.hop_of_lt {s : Slab} {bat : Nat} (h : bat / 32 < s.words) (san baf src : Nat) :
    s.hop san baf bat src
      = .ok { s with val := s.val ^^^ (2 ^ bat * field src baf san) } := by
  rw [Slab.hop, if_pos h]

/-- The bit loop copies one field. The induction is on the width left; the
bounds say that neither cursor wraps and the slab is long enough. -/
theorem chopBits_eq (src : Nat) :
    ∀ (wid baf bat : Nat) (s : Slab), baf + wid < 2 ^ 32 → bat + wid < 2 ^ 32 →
      bat + wid ≤ 32 * s.words →
      chopBits 1 src wid baf bat s
        = .ok { s with val := s.val ^^^ (2 ^ bat * field src baf wid) }
  | 0, baf, bat, s, _, _, _ => by simp [chopBits]
  | wid + 1, baf, bat, s, hf, ht, hs => by
      have hin : bat / 32 < s.words := by omega
      rw [chopBits, Slab.hop_of_lt hin]
      simp only [bind, Except.bind]
      rw [c3w_of_lt (by omega : baf + 1 < 2 ^ 32), c3w_of_lt (by omega : bat + 1 < 2 ^ 32)]
      rw [chopBits_eq src wid (baf + 1) (bat + 1) _ (by omega) (by omega)
        (by dsimp only; omega)]
      dsimp only
      rw [xor_field_add, Nat.add_comm 1 wid]

theorem chop_zero_eq {fum wid tou : Nat} {s : Slab} (src : Nat) (hf : fum + wid < 2 ^ 32)
    (ht : tou + wid < 2 ^ 32) (hs : tou + wid ≤ 32 * s.words) :
    chop 0 fum wid tou s src
      = .ok { s with val := s.val ^^^ (2 ^ tou * field src fum wid) } := by
  rw [chop, if_pos (by decide)]
  simp only [Nat.pow_zero, Nat.mul_one]
  rw [c3w_of_lt (by omega : fum < 2 ^ 32), c3w_of_lt (by omega : tou < 2 ^ 32)]
  exact chopBits_eq src wid fum tou s hf ht hs

/-- Copying whole words in order copies one field. -/
theorem mixWords_eq (b : Nat) :
    ∀ (n i : Nat) (s : Slab), i + n ≤ s.words →
      mixWords b n i s
        = .ok { s with val := s.val ^^^ (2 ^ (32 * i) * field b (32 * i) (32 * n)) }
  | 0, i, s, _ => by simp [mixWords]
  | n + 1, i, s, hs => by
      rw [mixWords, Slab.hop_of_lt (by omega)]
      simp only [bind, Except.bind]
      rw [mixWords_eq b n (i + 1) _ (by dsimp only; omega)]
      dsimp only
      rw [show 32 * (i + 1) = 32 * i + 32 by ring, xor_field_add]
      rw [show 32 + 32 * n = 32 * (n + 1) by ring]

/-- With blocks of one word `u2_chop` runs the same loop as `mix`. -/
theorem chopBloqs_zero_eq (src : Nat) :
    ∀ (wid fum tou : Nat) (s : Slab), fum + wid < 2 ^ 32 → tou + wid < 2 ^ 32 →
      tou + wid ≤ s.words →
      chopBloqs 0 src wid fum tou s
        = .ok { s with
            val := s.val ^^^ (2 ^ (32 * tou) * field src (32 * fum) (32 * wid)) }
  | 0, fum, tou, s, _, _, _ => by simp [chopBloqs]
  | wid + 1, fum, tou, s, hf, ht, hs => by
      have hone : chopWords src (2 ^ 0) (c3w (fum * 2 ^ 0)) (c3w (tou * 2 ^ 0)) s
          = .ok { s with
              val := s.val ^^^ (2 ^ (32 * tou) * field src (32 * fum) 32) } := by
        simp only [Nat.pow_zero, Nat.mul_one]
        rw [c3w_of_lt (by omega : fum < 2 ^ 32), c3w_of_lt (by omega : tou < 2 ^ 32)]
        rw [chopWords, Slab.hop_of_lt (by omega)]
        simp only [bind, Except.bind, chopWords]
      rw [chopBloqs, hone]
      simp only [bind, Except.bind]
      rw [c3w_of_lt (by omega : fum + 1 < 2 ^ 32), c3w_of_lt (by omega : tou + 1 < 2 ^ 32)]
      rw [chopBloqs_zero_eq src wid (fum + 1) (tou + 1) _ (by omega) (by omega)
        (by dsimp only; omega)]
      dsimp only
      rw [show 32 * (tou + 1) = 32 * tou + 32 by ring,
        show 32 * (fum + 1) = 32 * fum + 32 by ring, xor_field_add]
      rw [show 32 + 32 * wid = 32 * (wid + 1) by ring]

/-- A bit slab is long enough for its own length. -/
theorem slaq_zero_words {len : Nat} (h : len < 2 ^ 31) :
    len ≤ 32 * (slaq 0 len).words := by
  have hw : (slaq 0 len).words = (len + 31) / 32 := by
    simp only [slaq, slab, Nat.pow_zero, Nat.mul_one]
    rw [c3w_of_lt (by omega : len < 2 ^ 32), c3w_of_lt (by omega : len + 31 < 2 ^ 32)]
  rw [hw]
  omega

@[simp] theorem slaq_val (g len : Nat) : (slaq g len).val = 0 := rfl

/-! ### The jets on sizes that are cats -/

/-- Clamping the count does not change what is read from a short atom. -/
theorem field_cutSpan {d : Nat} (hd : d.size < 2 ^ 31) (b c : Nat) :
    cutSpan c < 2 ^ 31 ∧ field d b (cutSpan c) = field d b c := by
  unfold cutSpan
  by_cases hc : c < 2 ^ 31
  · rw [if_pos (isCat_iff.mpr hc)]
    exact ⟨hc, rfl⟩
  · rw [if_neg (by simpa [isCat_iff] using hc)]
    refine ⟨by decide, ?_⟩
    rw [field_clip (by omega), field_clip (by omega)]

/-- Nor does stopping at the top bit. -/
theorem field_cutTrim {d b c : Nat} (hb : b < d.size) (hbc : b + c < 2 ^ 32) :
    b + cutTrim d.size b c ≤ d.size ∧ field d b (cutTrim d.size b c) = field d b c := by
  unfold cutTrim
  rw [c3w_of_lt hbc]
  by_cases hlt : d.size < b + c
  · rw [if_pos hlt]
    exact ⟨by omega, by rw [field_clip (by omega), field_clip (by omega)]⟩
  · rw [if_neg hlt]
    exact ⟨by omega, rfl⟩

theorem cut_zero_eq {d : Nat} (hd : d.size < 2 ^ 31) (b c : Nat) :
    cut 0 b c d = .ok (field d b c) := by
  unfold cut
  simp only [u2Met_zero (by omega : d.size < 2 ^ 32)]
  rw [if_neg (by decide)]
  by_cases hb : b < 2 ^ 31
  swap
  -- a position that is not a cat lies past the end of any atom this short
  · rw [if_pos (by simpa [isCat] using hb), field_of_size_le (by omega)]
  rw [if_neg (by simpa [isCat] using hb)]
  obtain ⟨hspan, hfield⟩ := field_cutSpan hd b c
  rw [← hfield]
  by_cases hz : cutSpan c = 0 ∨ d.size ≤ b
  · rw [if_pos hz]
    rcases hz with hz | hz
    · simp [hz]
    · rw [field_of_size_le hz]
  rw [if_neg hz]
  have hlt : b < d.size := Nat.lt_of_not_le (not_or.mp hz).2
  obtain ⟨hin, htrim⟩ := field_cutTrim hlt (by omega : b + cutSpan c < 2 ^ 32)
  rw [← htrim]
  by_cases hall : b = 0 ∧ cutTrim d.size b (cutSpan c) = d.size
  · rw [if_pos hall, hall.2, hall.1, field_self (Nat.lt_size_self d)]
  · rw [if_neg hall, chop_zero_eq d (by omega) (by omega)
      (by have := @slaq_zero_words (cutTrim d.size b (cutSpan c)) (by omega); omega)]
    simp [bind, Except.bind, malt, pure, Except.pure]

theorem end_zero_eq {c : Nat} (hc : c.size < 2 ^ 31) (b : Nat) :
    «end» 0 b c = .ok (c % 2 ^ b) := by
  unfold «end»
  simp only [isCat, Nat.reducePow, u2Met_zero (by omega : c.size < 2 ^ 32)]
  have hbig : c.size ≤ b → c % 2 ^ b = c := fun h => Nat.mod_eq_of_lt (Nat.size_le.mp h)
  by_cases hb : b < 2 ^ 31
  swap
  · rw [if_neg (by decide), if_pos (by simpa using hb), hbig (by omega)]
  rw [if_neg (by decide), if_neg (by simpa using hb)]
  by_cases hz : b = 0
  · subst hz; simp [Nat.mod_one]
  rw [if_neg hz]
  by_cases hle : c.size ≤ b
  · rw [if_pos hle, hbig hle]
  · rw [if_neg hle, chop_zero_eq c (by omega) (by omega)
      (by have := slaq_zero_words hb; omega)]
    simp [bind, Except.bind, malt, pure, Except.pure, field]

theorem lsh_zero_eq {b c : Nat} (hb : b + c.size < 2 ^ 31) :
    lsh 0 b c = .ok (2 ^ b * c) := by
  unfold lsh
  simp only [isCat, Nat.reducePow, u2Met_zero (by omega : c.size < 2 ^ 32)]
  rw [if_neg (by decide), if_neg (by simp; omega)]
  by_cases hz : c.size = 0
  · rw [if_pos hz, Nat.size_eq_zero.mp hz, Nat.mul_zero]
  rw [if_neg hz, c3w_of_lt (by omega : b + c.size < 2 ^ 32), if_neg (by omega)]
  rw [chop_zero_eq c (by omega) (by omega) (slaq_zero_words hb)]
  simp [bind, Except.bind, malt, pure, Except.pure, field_self (Nat.lt_size_self c)]

/-- A number fits the words it occupies. -/
theorem lt_two_pow_wordLen (a : Nat) : a < 2 ^ (32 * wordLen a) := by
  apply Nat.size_le.mp
  unfold wordLen
  omega

theorem mix_eq {a b : Nat} (ha : a.size < 2 ^ 32) (hb : b.size < 2 ^ 32) :
    mix a b = .ok (a ^^^ b) := by
  unfold mix
  simp only [u2Met_five ha, u2Met_five hb]
  have hwa : wordLen a < 2 ^ 32 := by unfold wordLen; omega
  by_cases hz : wordLen a = 0 ∧ wordLen b = 0
  · have ha0 : a = 0 := by by_contra h; exact absurd hz.1 (wordLen_pos (Nat.pos_of_ne_zero h)).ne'
    have hb0 : b = 0 := by by_contra h; exact absurd hz.2 (wordLen_pos (Nat.pos_of_ne_zero h)).ne'
    rw [if_pos hz, ha0, hb0]
    rfl
  rw [if_neg hz, chop, if_neg (by decide)]
  rw [chopBloqs_zero_eq a _ 0 0 _ (by omega) (by omega) (by simp [slab])]
  simp only [bind, Except.bind]
  rw [mixWords_eq b _ 0 _ (by simp [slab])]
  simp [malt, pure, Except.pure, slab, field_self (lt_two_pow_wordLen a),
    field_self (lt_two_pow_wordLen b)]

theorem bex_eq {a : Nat} (h : a < 2 ^ 31) : bex a = .ok (2 ^ a) := by
  rw [bex, if_pos (isCat_iff.mpr h)]

theorem dec_eq {a : Nat} (h : 0 < a) : dec a = .ok (a - 1) := by
  rw [dec, if_neg (by omega)]

theorem sub_eq {a b : Nat} (h : b ≤ a) : sub a b = .ok (a - b) := by
  rw [sub, if_neg (by omega)]

/-! ### Assembling a list -/

theorem canSize_eq :
    ∀ (l : List (Nat × Nat)) (tot : Nat), tot + width l < 2 ^ 31 →
      canSize tot l = .ok (tot + width l)
  | [], tot, _ => by simp [canSize]
  | (p, q) :: l, tot, h => by
      simp only [width_cons] at h
      rw [canSize, if_neg (by simp [isCat]; omega), c3w_of_lt (by omega : tot + p < 2 ^ 32),
        if_neg (by omega), canSize_eq l (tot + p) (by omega)]
      simp only [width_cons, Nat.add_assoc]

/-- The chopping pass leaves what was below its cursor and writes the pieces
above it. -/
theorem canChop_zero_eq :
    ∀ (l : List (Nat × Nat)) (pos : Nat) (s : Slab), pos + width l < 2 ^ 31 →
      pos + width l ≤ 32 * s.words → s.val < 2 ^ pos →
      canChop 0 pos l s = .ok { s with val := s.val + 2 ^ pos * joined l }
  | [], pos, s, _, _, _ => by simp [canChop, joined]
  | (p, q) :: l, pos, s, h, hw, hs => by
      simp only [width_cons] at h hw
      have hq : field q 0 p < 2 ^ p := field_lt q 0 p
      rw [canChop, chop_zero_eq q (by omega) (by omega) (by omega)]
      simp only [bind, Except.bind]
      rw [xor_shift hs, c3w_of_lt (by omega : pos + p < 2 ^ 32)]
      have hlt : s.val + 2 ^ pos * field q 0 p < 2 ^ (pos + p) := by
        calc s.val + 2 ^ pos * field q 0 p < 2 ^ pos + 2 ^ pos * field q 0 p := by omega
          _ = 2 ^ pos * (field q 0 p + 1) := by ring
          _ ≤ 2 ^ pos * 2 ^ p := Nat.mul_le_mul_left _ hq
          _ = 2 ^ (pos + p) := (Nat.pow_add 2 pos p).symm
      rw [canChop_zero_eq l (pos + p) _ (by omega) (by dsimp only; omega) hlt]
      dsimp only
      congr 2
      simp only [joined, field, Nat.pow_zero, Nat.div_one, Nat.pow_add]
      ring

theorem can_zero_eq {l : List (Nat × Nat)} (h : width l < 2 ^ 31) :
    can 0 l = .ok (joined l) := by
  unfold can
  rw [if_neg (by decide), canSize_eq l 0 (by omega)]
  simp only [bind, Except.bind, Nat.zero_add]
  by_cases hz : width l = 0
  · have := joined_lt l
    rw [hz, Nat.pow_zero] at this
    rw [if_pos hz, Nat.lt_one_iff.mp this]
    rfl
  · rw [if_neg hz, canChop_zero_eq l 0 _ (by omega)
      (by have := slaq_zero_words h; omega) (by simp)]
    simp [malt, pure, Except.pure]

end Vere.Jets
