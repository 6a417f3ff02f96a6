import Vere.Hoon.Bloq
import Vere.Jets.BitsSpec

/-!
# Vere.Jets.Chop

`u2_chop` at every block size.

While the blocks lie inside the slab, it copies one field, whatever the size of the blocks
(`chop_eq`). Blocks that run from inside the slab over its end write past it (`chop_over`),
and a slab whose size wrapped at `2^32` is too short for its blocks (`slaq_wraps`).
-/

namespace Vere.Jets

open Vere.Lib

/-! ### Atoms in the loom -/

/-- An atom lies on one beam of the loom, so that it has fewer than `2^27` words. -/
def InLoom (b : Nat) : Prop := wordLen b < 2 ^ 27

theorem inLoom_of_word {b : Nat} (h : b < 2 ^ 32) : InLoom b := by
  have hsize : b.size ≤ 32 := Nat.size_le.mpr h
  rw [InLoom, wordLen]
  omega

theorem InLoom.size_le {b : Nat} (h : InLoom b) : b.size ≤ 2 ^ 32 - 32 := by
  unfold InLoom wordLen at h
  omega

/-- The number of blocks, from the number of bits. -/
theorem met_div (a b : Nat) : Hoon.met a b = (b.size + (2 ^ a - 1)) / 2 ^ a := by
  have hpos : 0 < 2 ^ a := Nat.two_pow_pos a
  refine eq_of_forall_ge_iff fun n => ?_
  rw [Hoon.met_le, ← Nat.size_le, ← Nat.lt_succ_iff (m := _ / _), Nat.div_lt_iff_lt_mul hpos,
    Nat.succ_mul, Nat.mul_comm n]
  omega

theorem met_mul_le {a b : Nat} (ha : a < 32) (h : InLoom b) : Hoon.met a b * 2 ^ a ≤ 2 ^ 32 := by
  have hsize := h.size_le
  have hsplit : 2 ^ (32 - a) * 2 ^ a = 2 ^ 32 := by
    rw [← Nat.pow_add, Nat.sub_add_cancel ha.le]
  have hle : Hoon.met a b ≤ 2 ^ (32 - a) := by
    rw [Hoon.met_le, Nat.mul_comm, hsplit, ← Nat.size_le]
    omega
  calc Hoon.met a b * 2 ^ a ≤ 2 ^ (32 - a) * 2 ^ a := Nat.mul_le_mul_right _ hle
    _ = 2 ^ 32 := hsplit

/-- The low blocks of an atom that are fewer than all fit in its bits. -/
theorem mul_lt_size {a b n : Nat} (h : n < Hoon.met a b) : n * 2 ^ a < b.size := by
  have hnot : ¬Hoon.met a b ≤ n := Nat.not_le_of_lt h
  rw [Hoon.met_le, ← Nat.size_le, Nat.mul_comm] at hnot
  omega

/-- `u2_met` measures every atom in the loom. -/
theorem u2Met_eq {a b : Nat} (ha : a < 32) (h : InLoom b) : u2Met a b = Hoon.met a b := by
  rw [met_div]
  by_cases hb : b = 0
  · subst hb
    have hzero : 2 ^ a - 1 < 2 ^ a := Nat.sub_lt (Nat.two_pow_pos a) Nat.one_pos
    simp [u2Met, Nat.div_eq_of_lt hzero]
  have hsize := h.size_le
  have htop := size_top_word (Nat.pos_of_ne_zero hb)
  have hlen := wordLen_pos (Nat.pos_of_ne_zero hb)
  have hwords : wordLen b = (b.size + 31) / 32 := rfl
  have hge : ∀ n, b / 2 ^ (32 * (wordLen b - 1)) / 2 ^ n ≠ 0
      ↔ n < (b / 2 ^ (32 * (wordLen b - 1))).size := by
    intro n
    rw [Nat.lt_size, Ne, Nat.div_eq_zero_iff_lt (Nat.two_pow_pos n), Nat.not_lt]
  have hbits : c3w b.size = b.size := c3w_of_lt (by omega)
  match a with
  | 0 =>
      simp only [u2Met, if_neg hb, htop, hbits]
      rw [c3w_of_lt (by omega)]
  | 1 =>
      simp only [u2Met, if_neg hb, htop, hbits]
      rw [c3w_of_lt (by omega)]
  | 2 =>
      simp only [u2Met, if_neg hb, htop, hbits]
      rw [c3w_of_lt (by omega)]
  | 3 =>
      simp only [u2Met, if_neg hb, hge]
      rw [c3w_of_lt (by split_ifs <;> omega)]
      split_ifs <;> omega
  | 4 =>
      simp only [u2Met, if_neg hb, hge]
      rw [c3w_of_lt (by split_ifs <;> omega)]
      split_ifs <;> omega
  | a + 5 =>
      have hpow : 2 ^ a ≤ 2 ^ 26 := Nat.pow_le_pow_right (by decide) (by omega)
      have hpos : 0 < 2 ^ a := Nat.two_pow_pos a
      simp only [u2Met, if_neg hb, Nat.add_sub_cancel]
      rw [c3w_of_lt (by omega), Nat.sub_add_cancel hlen, Nat.pow_add, Nat.mul_comm (2 ^ a),
        ← Nat.div_div_eq_div_mul]
      congr 1
      omega

/-! ### Blocks inside the slab -/

/-- The loop for blocks inside a word copies one field. -/
theorem chopBits_run {san : Nat} (hsan : 0 < san) (src : Nat) :
    ∀ (wid baf bat : Nat) (s : Slab), baf + wid * san ≤ 2 ^ 32 → bat + wid * san ≤ 2 ^ 32 →
      bat + wid * san ≤ 32 * s.words →
      chopBits san src wid baf bat s
        = .ok { s with val := s.val ^^^ (2 ^ bat * field src baf (wid * san)) }
  | 0, baf, bat, s, _, _, _ => by simp [chopBits]
  | wid + 1, baf, bat, s, hf, ht, hs => by
      rw [Nat.succ_mul] at hf ht hs
      have hin : bat / 32 < s.words := by omega
      rw [chopBits, Slab.hop_of_lt hin]
      simp only [bind, Except.bind]
      cases wid with
      | zero => simp [chopBits]
      | succ wid =>
          rw [Nat.succ_mul] at hf ht hs
          rw [c3w_of_lt (by omega : baf + san < 2 ^ 32), c3w_of_lt (by omega : bat + san < 2 ^ 32),
            chopBits_run hsan src (wid + 1) (baf + san) (bat + san) _
              (by rw [Nat.succ_mul]; omega) (by rw [Nat.succ_mul]; omega)
              (by rw [Nat.succ_mul]; dsimp only; omega)]
          dsimp only
          rw [xor_field_add, Nat.succ_mul (wid + 1), Nat.add_comm san]

/-- The loop over the words of a block copies one field. -/
theorem chopWords_run (src : Nat) :
    ∀ (n wuf wut : Nat) (s : Slab), wuf + n ≤ 2 ^ 32 → wut + n ≤ s.words → s.words < 2 ^ 32 →
      chopWords src n wuf wut s
        = .ok { s with val := s.val ^^^ (2 ^ (32 * wut) * field src (32 * wuf) (32 * n)) }
  | 0, wuf, wut, s, _, _, _ => by simp [chopWords]
  | n + 1, wuf, wut, s, hf, ht, hs => by
      rw [chopWords, Slab.hop_of_lt (by omega)]
      simp only [bind, Except.bind]
      cases n with
      | zero => simp [chopWords]
      | succ n =>
          rw [c3w_of_lt (by omega : wuf + 1 < 2 ^ 32), c3w_of_lt (by omega : wut + 1 < 2 ^ 32),
            chopWords_run src (n + 1) (wuf + 1) (wut + 1) _ (by omega) (by dsimp only; omega)
              (by dsimp only; omega)]
          dsimp only
          rw [Nat.mul_succ 32 wut, Nat.mul_succ 32 wuf, xor_field_add, Nat.add_comm 32,
            ← Nat.mul_succ]

/-- The loop over blocks of whole words copies one field. -/
theorem chopBloqs_run (hut src : Nat) :
    ∀ (wid fum tou : Nat) (s : Slab), (fum + wid) * 2 ^ hut ≤ 2 ^ 31 →
      (tou + wid) * 2 ^ hut ≤ s.words → s.words < 2 ^ 31 →
      chopBloqs hut src wid fum tou s
        = .ok { s with val := s.val ^^^
            (2 ^ (32 * (tou * 2 ^ hut)) * field src (32 * (fum * 2 ^ hut)) (32 * (wid * 2 ^ hut))) }
  | 0, fum, tou, s, _, _, _ => by simp [chopBloqs]
  | wid + 1, fum, tou, s, hf, ht, hs => by
      have hpos : 0 < 2 ^ hut := Nat.two_pow_pos hut
      have hf' : fum * 2 ^ hut + 2 ^ hut + wid * 2 ^ hut ≤ 2 ^ 31 := by
        rw [← Nat.succ_mul, ← Nat.add_mul]
        rwa [Nat.succ_add_eq_add_succ]
      have ht' : tou * 2 ^ hut + 2 ^ hut + wid * 2 ^ hut ≤ s.words := by
        rw [← Nat.succ_mul, ← Nat.add_mul]
        rwa [Nat.succ_add_eq_add_succ]
      have hfum : fum ≤ fum * 2 ^ hut := Nat.le_mul_of_pos_right _ hpos
      have htou : tou ≤ tou * 2 ^ hut := Nat.le_mul_of_pos_right _ hpos
      rw [chopBloqs, c3w_of_lt (by omega : fum * 2 ^ hut < 2 ^ 32),
        c3w_of_lt (by omega : tou * 2 ^ hut < 2 ^ 32),
        chopWords_run src (2 ^ hut) _ _ s (by omega) (by omega) (by omega)]
      simp only [bind, Except.bind]
      rw [c3w_of_lt (by omega : fum + 1 < 2 ^ 32), c3w_of_lt (by omega : tou + 1 < 2 ^ 32),
        chopBloqs_run hut src wid (fum + 1) (tou + 1) _
          (by rwa [Nat.add_assoc, Nat.add_comm 1])
          (by dsimp only; rwa [Nat.add_assoc, Nat.add_comm 1]) (by dsimp only; omega)]
      dsimp only
      have hsplit : ∀ x, 32 * ((x + 1) * 2 ^ hut) = 32 * (x * 2 ^ hut) + 32 * 2 ^ hut := by
        intro x
        rw [Nat.add_mul, Nat.one_mul, Nat.mul_add]
      rw [hsplit, hsplit, xor_field_add, Nat.add_comm (32 * 2 ^ hut), ← hsplit]

/-- `u2_chop` inside the slab copies one field. -/
theorem chop_eq {g fum wid tou : Nat} {s : Slab} (src : Nat) (hf : (fum + wid) * 2 ^ g ≤ 2 ^ 32)
    (ht : (tou + wid) * 2 ^ g ≤ 32 * s.words) (hs : s.words < 2 ^ 27) :
    chop g fum wid tou s src
      = .ok { s with val := s.val ^^^
          (2 ^ (tou * 2 ^ g) * field src (fum * 2 ^ g) (wid * 2 ^ g)) } := by
  have hpos : 0 < 2 ^ g := Nat.two_pow_pos g
  by_cases hg : g < 5
  · rw [Nat.add_mul] at hf ht
    rw [chop, if_pos hg, c3w_of_lt (by omega : tou * 2 ^ g < 2 ^ 32)]
    cases wid with
    | zero => simp [chopBits]
    | succ wid =>
        have hwid : 0 < (wid + 1) * 2 ^ g := Nat.mul_pos (Nat.succ_pos wid) hpos
        rw [c3w_of_lt (by omega : fum * 2 ^ g < 2 ^ 32)]
        exact chopBits_run hpos src (wid + 1) _ _ s hf (by omega) ht
  · obtain ⟨h, rfl⟩ : ∃ h, g = h + 5 := ⟨g - 5, by omega⟩
    have hwords : ∀ x, x * 2 ^ (h + 5) = 32 * (x * 2 ^ h) := by
      intro x
      rw [Nat.pow_add]
      ring
    rw [hwords] at hf ht
    rw [chop, if_neg hg, Nat.add_sub_cancel, hwords, hwords, hwords]
    exact chopBloqs_run h src wid fum tou s (by omega) (by omega) (by omega)

/-! ### Blocks that run over the end -/

theorem chopBits_over {san : Nat} (hsan : 0 < san) (hdvd : san ∣ 32) (src : Nat) :
    ∀ (wid baf bat : Nat) (s : Slab), san ∣ bat → bat ≤ 32 * s.words →
      32 * s.words < bat + wid * san → s.words < 2 ^ 27 →
      chopBits san src wid baf bat s = .error .fault
  | 0, baf, bat, s, _, hle, hlt, _ => by omega
  | wid + 1, baf, bat, s, hbat, hle, hlt, hs => by
      rw [Nat.succ_mul wid] at hlt
      rw [chopBits, Slab.hop]
      by_cases hin : bat / 32 < s.words
      · -- the cursor goes by whole blocks, so it meets the end and does not pass it
        have hgap : san ≤ 32 * s.words - bat :=
          Nat.le_of_dvd (by omega) (Nat.dvd_sub (hdvd.mul_right _) hbat)
        rw [if_pos hin, c3w_of_lt (by omega : bat + san < 2 ^ 32)]
        exact chopBits_over hsan hdvd src wid _ (bat + san) _ (hbat.add (dvd_refl san))
          (by dsimp only; omega) (by dsimp only; omega) hs
      · rw [if_neg hin]
        rfl

theorem chopWords_over (src : Nat) :
    ∀ (n wuf wut : Nat) (s : Slab), wut ≤ s.words → s.words < wut + n → s.words < 2 ^ 27 →
      chopWords src n wuf wut s = .error .fault
  | 0, wuf, wut, s, hle, hlt, _ => by omega
  | n + 1, wuf, wut, s, hle, hlt, hs => by
      rw [chopWords, Slab.hop, Nat.mul_div_cancel_left _ (by decide : 0 < 32)]
      by_cases hin : wut < s.words
      · rw [if_pos hin, c3w_of_lt (by omega : wut + 1 < 2 ^ 32)]
        exact chopWords_over src n _ (wut + 1) _ (by dsimp only; omega) (by dsimp only; omega) hs
      · rw [if_neg hin]
        rfl

/-- Words inside the slab are written wherever they are read. -/
theorem chopWords_ok (src : Nat) :
    ∀ (n wuf wut : Nat) (s : Slab), wut + n ≤ s.words → s.words < 2 ^ 27 →
      ∃ v, chopWords src n wuf wut s = .ok ⟨s.words, v⟩
  | 0, wuf, wut, s, _, _ => ⟨s.val, rfl⟩
  | n + 1, wuf, wut, s, hle, hs => by
      rw [chopWords, Slab.hop_of_lt (by omega), c3w_of_lt (by omega : wut + 1 < 2 ^ 32)]
      exact chopWords_ok src n _ (wut + 1) ⟨s.words, _⟩ (by dsimp only; omega) hs

theorem chopBloqs_over (hut src : Nat) :
    ∀ (wid fum tou : Nat) (s : Slab), tou * 2 ^ hut ≤ s.words →
      s.words < (tou + wid) * 2 ^ hut → s.words < 2 ^ 27 →
      chopBloqs hut src wid fum tou s = .error .fault
  | 0, fum, tou, s, hle, hlt, _ => absurd hle (Nat.not_le_of_lt hlt)
  | wid + 1, fum, tou, s, hle, hlt, hs => by
      have htou : tou ≤ tou * 2 ^ hut := Nat.le_mul_of_pos_right _ (Nat.two_pow_pos hut)
      rw [chopBloqs, c3w_of_lt (by omega : tou * 2 ^ hut < 2 ^ 32)]
      by_cases hin : tou * 2 ^ hut + 2 ^ hut ≤ s.words
      · obtain ⟨v, hv⟩ := chopWords_ok src (2 ^ hut) (c3w (fum * 2 ^ hut)) (tou * 2 ^ hut) s hin hs
        rw [hv, c3w_of_lt (by omega : tou + 1 < 2 ^ 32)]
        refine chopBloqs_over hut src wid _ (tou + 1) ⟨s.words, v⟩ ?_ ?_ hs
        · rwa [Nat.succ_mul]
        · rwa [Nat.add_assoc, Nat.add_comm 1]
      · rw [chopWords_over src (2 ^ hut) _ _ s hle (by omega) hs]
        rfl

theorem two_pow_dvd_word {g : Nat} (hg : g < 5) : 2 ^ g ∣ 32 :=
  Nat.pow_dvd_pow 2 (by omega : g ≤ 5)

/-- `u2_chop` that starts inside the slab and goes on past its end. -/
theorem chop_over {g wid tou : Nat} {s : Slab} (fum src : Nat) (hle : tou * 2 ^ g ≤ 32 * s.words)
    (hlt : 32 * s.words < (tou + wid) * 2 ^ g) (hs : s.words < 2 ^ 27) :
    chop g fum wid tou s src = .error .fault := by
  by_cases hg : g < 5
  · rw [Nat.add_mul] at hlt
    rw [chop, if_pos hg, c3w_of_lt (by omega : tou * 2 ^ g < 2 ^ 32)]
    exact chopBits_over (Nat.two_pow_pos g) (two_pow_dvd_word hg) src wid _ _ s
      (Nat.dvd_mul_left _ _) hle hlt hs
  · obtain ⟨h, rfl⟩ : ∃ h, g = h + 5 := ⟨g - 5, by omega⟩
    have hwords : ∀ x, x * 2 ^ (h + 5) = 32 * (x * 2 ^ h) := by
      intro x
      rw [Nat.pow_add]
      ring
    rw [hwords] at hle hlt
    rw [chop, if_neg hg, Nat.add_sub_cancel]
    exact chopBloqs_over h src wid fum tou s (by omega) (by omega) hs

/-! ### Whatever is written stays inside -/

/-- A slab of `words` words whose contents fit, or a write outside of it. -/
def Ends (words : Nat) (r : Jet Slab) : Prop :=
  r = .error .fault ∨ ∃ v < 2 ^ (32 * words), r = .ok ⟨words, v⟩

theorem Slab.hop_ends {s : Slab} {san bat : Nat} (hsan : 0 < san) (hdvd : san ∣ 32)
    (hbat : san ∣ bat) (hs : s.val < 2 ^ (32 * s.words)) (baf src : Nat) :
    Ends s.words (s.hop san baf bat src) := by
  rw [Slab.hop]
  by_cases hin : bat / 32 < s.words
  · rw [if_pos hin]
    refine .inr ⟨_, Nat.xor_lt_two_pow hs ?_, rfl⟩
    have hgap : san ≤ 32 * s.words - bat :=
      Nat.le_of_dvd (by omega) (Nat.dvd_sub (hdvd.mul_right _) hbat)
    calc 2 ^ bat * field src baf san < 2 ^ bat * 2 ^ san :=
          Nat.mul_lt_mul_of_pos_left (field_lt src baf san) (Nat.two_pow_pos bat)
      _ = 2 ^ (bat + san) := (Nat.pow_add ..).symm
      _ ≤ 2 ^ (32 * s.words) := Nat.pow_le_pow_right (by decide) (by omega)
  · rw [if_neg hin]
    exact .inl rfl

/-- One write after another. -/
theorem Ends.bind {words : Nat} {r : Jet Slab} {f : Slab → Jet Slab} (h : Ends words r)
    (hf : ∀ v < 2 ^ (32 * words), Ends words (f ⟨words, v⟩)) : Ends words (r >>= f) := by
  rcases h with rfl | ⟨v, hv, rfl⟩
  · exact .inl rfl
  · exact hf v hv

theorem chopBits_ends {san : Nat} (hsan : 0 < san) (hdvd : san ∣ 32) (src : Nat) :
    ∀ (wid baf bat : Nat) (s : Slab), san ∣ bat → s.val < 2 ^ (32 * s.words) →
      Ends s.words (chopBits san src wid baf bat s)
  | 0, _, _, s, _, hs => .inr ⟨s.val, hs, rfl⟩
  | wid + 1, baf, bat, s, hbat, hs => by
      rw [chopBits]
      refine (Slab.hop_ends hsan hdvd hbat hs baf src).bind fun v hv => ?_
      have hnext : san ∣ c3w (bat + san) :=
        (Nat.dvd_mod_iff (hdvd.trans (by decide : 32 ∣ 2 ^ 32))).mpr (hbat.add (dvd_refl san))
      exact chopBits_ends hsan hdvd src wid _ _ ⟨s.words, v⟩ hnext hv

theorem chopWords_ends (src : Nat) :
    ∀ (n wuf wut : Nat) (s : Slab), s.val < 2 ^ (32 * s.words) →
      Ends s.words (chopWords src n wuf wut s)
  | 0, _, _, s, hs => .inr ⟨s.val, hs, rfl⟩
  | n + 1, wuf, wut, s, hs => by
      rw [chopWords]
      refine (Slab.hop_ends (by decide) (dvd_refl 32) (Nat.dvd_mul_right 32 wut) hs _ src).bind
        fun v hv => ?_
      exact chopWords_ends src n _ _ ⟨s.words, v⟩ hv

theorem chopBloqs_ends (hut src : Nat) :
    ∀ (wid fum tou : Nat) (s : Slab), s.val < 2 ^ (32 * s.words) →
      Ends s.words (chopBloqs hut src wid fum tou s)
  | 0, _, _, s, hs => .inr ⟨s.val, hs, rfl⟩
  | wid + 1, fum, tou, s, hs => by
      rw [chopBloqs]
      refine (chopWords_ends src _ _ _ s hs).bind fun v hv => ?_
      exact chopBloqs_ends hut src wid _ _ ⟨s.words, v⟩ hv

/-- `u2_chop` from anywhere to anywhere. -/
theorem chop_ends (g fum wid tou src : Nat) {s : Slab} (hs : s.val < 2 ^ (32 * s.words)) :
    Ends s.words (chop g fum wid tou s src) := by
  rw [chop]
  by_cases hg : g < 5
  · rw [if_pos hg]
    refine chopBits_ends (Nat.two_pow_pos g) (two_pow_dvd_word hg) src wid _ _ s ?_ hs
    exact (Nat.dvd_mod_iff ((two_pow_dvd_word hg).trans (by decide : 32 ∣ 2 ^ 32))).mpr
      (Nat.dvd_mul_left _ _)
  · rw [if_neg hg]
    exact chopBloqs_ends (g - 5) src wid fum tou s hs

/-! ### Slabs -/

/-- The size of a slab for `n` blocks does not wrap. -/
def Roomy (a n : Nat) : Prop := n * 2 ^ a + 31 < 2 ^ 32

instance (a n : Nat) : Decidable (Roomy a n) := inferInstanceAs (Decidable (_ < _))

theorem slaq_words (a n : Nat) : (slaq a n).words = c3w (n * 2 ^ a + 31) / 32 := by
  simp only [slaq, slab, c3w, Nat.mod_add_mod]

theorem slaq_words_lt (a n : Nat) : (slaq a n).words < 2 ^ 27 := by
  have hlt : c3w (n * 2 ^ a + 31) < 2 ^ 32 := Nat.mod_lt _ (by decide)
  rw [slaq_words]
  omega

theorem Roomy.mul_le {a n : Nat} (h : Roomy a n) : n * 2 ^ a ≤ 2 ^ 32 := by
  rw [Roomy] at h
  omega

/-- A slab whose size does not wrap holds its blocks. -/
theorem Roomy.le {a n : Nat} (h : Roomy a n) : n * 2 ^ a ≤ 32 * (slaq a n).words := by
  rw [Roomy] at h
  rw [slaq_words, c3w_of_lt h]
  omega

/-- A slab whose size wrapped is too short by almost `2^32` bits. -/
theorem slaq_wraps {a n : Nat} (h : ¬Roomy a n) :
    32 * (slaq a n).words + 2 ^ 32 ≤ n * 2 ^ a + 31 := by
  rw [Roomy] at h
  rw [slaq_words, c3w]
  have hmod := Nat.mod_add_div (n * 2 ^ a + 31) (2 ^ 32)
  have hdiv : 0 < (n * 2 ^ a + 31) / 2 ^ 32 := Nat.div_pos (by omega) (by decide)
  omega

theorem slaq_c3w (a n : Nat) : slaq a (c3w n) = slaq a n := by
  simp only [slaq, c3w, Nat.mod_mul_mod]

end Vere.Jets
