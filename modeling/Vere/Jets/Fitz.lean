import Vere.Jets.Chop
import Vere.Jets.Nest

/-!
# Vere.Jets.Fitz

Whether one aura goes for another: `++fitz` and its jet, `gen164/6/fitz.c`.

An aura is a name that may end in a capital, its size. The arm splits the size off and then
compares what it should have dropped: its loop runs over the sizes, so that any two names pass.
The jet compares the names, byte by byte, and skips every capital.
-/

namespace Vere.Jets

open Vere.Hoon Vere.Lib

/-! ### The two aura tests -/

section auras

variable {a yaz wix : Nat}

/-- One name is a prefix of the other, the size letters apart. -/
def Akin (yaz wix : Nat) : Prop :=
  trip (Ut.fiz yaz).2 <+: trip (Ut.fiz wix).2 ∨ trip (Ut.fiz wix).2 <+: trip (Ut.fiz yaz).2

/-- Where both have a size, that of `wix` is not the larger one. -/
def Fits (yaz wix : Nat) : Prop :=
  (Ut.fiz yaz).1 ≠ 0 → (Ut.fiz wix).1 ≠ 0 → (Ut.fiz wix).1 ≤ (Ut.fiz yaz).1

/-- Where both have a size, it is the same. -/
def Level (yaz wix : Nat) : Prop :=
  (Ut.fiz yaz).1 ≠ 0 → (Ut.fiz wix).1 ≠ 0 → (Ut.fiz wix).1 = (Ut.fiz yaz).1

/-- There is a place where the two have different bytes, neither of them a capital. -/
def Clash (yaz wix : Nat) : Prop :=
  ∃ i, smallByte i yaz ≠ 0 ∧ smallByte i wix ≠ 0 ∧ smallByte i yaz ≠ smallByte i wix

theorem u2Byte_eq (i a : Nat) : u2Byte i a = a / 256 ^ i % 256 := by
  rw [u2Byte, Nat.pow_mul]

/-- The top byte of a number. -/
theorem top_byte (h : a ≠ 0) : a / 256 ^ (Hoon.met 3 a - 1) < 256 ∧ a / 256 ^ (Hoon.met 3 a - 1) ≠ 0 := by
  obtain ⟨n, hn⟩ := met_bytes_succ h
  have hhi : a < 256 ^ (n + 1) := met_bytes_le.mp hn.le
  have hlo : 256 ^ n ≤ a := lt_met_bytes.mp (by omega)
  have hpos : 0 < 256 ^ n := Nat.pow_pos (by decide)
  rw [hn, Nat.add_sub_cancel]
  refine ⟨?_, (Nat.div_pos hlo hpos).ne'⟩
  rwa [Nat.div_lt_iff_lt_mul hpos, ← Nat.pow_succ']

/-- What `fiz` splits off, and what the jet takes for it. -/
theorem fiz_spec (h : InLoom a) :
    (Ut.fiz a = (0, a) ∧ lastCapital a = 0) ∨
      ∃ n, Hoon.met 3 a = n + 1 ∧ 65 ≤ a / 256 ^ n ∧ a / 256 ^ n ≤ 90 ∧
        Ut.fiz a = (a / 256 ^ n - 64, a % 256 ^ n) ∧ lastCapital a = a / 256 ^ n := by
  by_cases h0 : a = 0
  · subst h0
    left
    simp [Ut.fiz, lastCapital, u2Met_eq (a := 3) (by decide) h, met_bytes_zero]
  · obtain ⟨n, hn⟩ := met_bytes_succ h0
    have htop := (top_byte h0).1
    rw [hn, Nat.add_sub_cancel] at htop
    have hcap : lastCapital a = if a / 256 ^ n < 65 ∨ 90 < a / 256 ^ n then 0 else a / 256 ^ n := by
      simp only [lastCapital, u2Met_eq (a := 3) (by decide) h, hn, Nat.succ_ne_zero, if_false,
        Nat.add_sub_cancel, u2Byte_eq, Nat.mod_eq_of_lt htop]
      rfl
    have hfiz : Ut.fiz a = if 65 ≤ a / 256 ^ n ∧ a / 256 ^ n ≤ 90 then
        (a / 256 ^ n - 64, a % 256 ^ n) else (0, a) := by
      simp only [Ut.fiz, hn, Nat.succ_ne_zero, if_false, Nat.add_sub_cancel, rsh_bytes, end_bytes]
      rfl
    by_cases hc : 65 ≤ a / 256 ^ n ∧ a / 256 ^ n ≤ 90
    · refine .inr ⟨n, hn, hc.1, hc.2, ?_, ?_⟩
      · rw [hfiz, if_pos hc]
      · rw [hcap, if_neg (by omega)]
    · left
      rw [hfiz, if_neg hc, hcap, if_pos (by omega)]
      exact ⟨rfl, rfl⟩

/-- The arm asks only whether the sizes are the same. -/
theorem armFitz_iff (hy : InLoom yaz) (hw : InLoom wix) : Ut.fitz yaz wix = true ↔ Level yaz wix := by
  have hlt : ∀ {a}, InLoom a → (Ut.fiz a).1 < 256 := by
    intro a h
    rcases fiz_spec h with ⟨hf, -⟩ | ⟨n, -, -, hle, hf, -⟩
    · rw [hf]
      exact (by decide : 0 < 256)
    · rw [hf]
      exact lt_of_le_of_lt (Nat.sub_le _ _) (by omega)
  have hloop : ∀ {p q : Nat}, p < 256 → q < 256 →
      (Ut.fitzLoop p q = true ↔ (p ≠ 0 → q ≠ 0 → q = p)) := by
    intro p q hp hq
    rw [Ut.fitzLoop]
    split
    · next h0 => exact iff_of_true rfl fun hp0 hq0 => (h0.elim hp0 hq0).elim
    · next h0 =>
      have hend : Ut.fitzLoop (Hoon.rsh 3 1 p) (Hoon.rsh 3 1 q) = true := by
        rw [rsh_bytes, Nat.pow_one, Nat.div_eq_of_lt hp, Ut.fitzLoop, dif_pos (.inl rfl)]
      rw [hend, Bool.and_true, decide_eq_true_eq, end_bytes, end_bytes, Nat.pow_one,
        Nat.mod_eq_of_lt hp, Nat.mod_eq_of_lt hq]
      exact ⟨fun h _ _ => h.symm, fun h => (h (fun e => h0 (.inl e)) fun e => h0 (.inr e)).symm⟩
  simp only [Ut.fitz, Bool.and_eq_true, Bool.or_eq_true, decide_eq_true_eq, hloop (hlt hy) (hlt hw),
    Level]
  constructor
  · exact And.right
  · intro h
    refine ⟨?_, h⟩
    by_cases hp : (Ut.fiz yaz).1 = 0
    · exact .inl (.inl hp)
    by_cases hq : (Ut.fiz wix).1 = 0
    · exact .inl (.inr hq)
    exact .inr ⟨hq, (h hp hq).le⟩

theorem smallByte_of_met_le {i : Nat} (h : Hoon.met 3 a ≤ i) : smallByte i a = 0 := by
  have hlt : a < 256 ^ i := met_bytes_le.mp h
  simp [smallByte, u2Byte_eq, Nat.div_eq_of_lt hlt]

theorem fitzBytes_iff (n i : Nat) :
    fitzBytes yaz wix n i = true ↔ ∀ j, i ≤ j → j < i + n →
      ¬(smallByte j yaz ≠ 0 ∧ smallByte j wix ≠ 0 ∧ smallByte j yaz ≠ smallByte j wix) := by
  induction n generalizing i with
  | zero => exact iff_of_true rfl fun j hi hj => absurd hj (by omega)
  | succ n ih =>
      simp only [fitzBytes]
      split
      · next hc => exact iff_of_false Bool.false_ne_true fun h => h i le_rfl (by omega) hc
      · next hc =>
        rw [ih]
        constructor
        · intro h j hi hj
          by_cases hij : i = j
          · exact hij ▸ hc
          · exact h j (by omega) (by omega)
        · exact fun h j hi hj => h j (by omega) (by omega)

/-- The jet compares the sizes as it should, and the bytes that are not capitals. -/
theorem fitz_iff (hy : InLoom yaz) (hw : InLoom wix) :
    fitz yaz wix = true ↔ Fits yaz wix ∧ ¬Clash yaz wix := by
  have hsize : fitzFiz yaz wix = true ↔ Fits yaz wix := by
    simp only [fitzFiz, Fits]
    rcases fiz_spec hy with ⟨hf, hc⟩ | ⟨n, -, hlo, -, hf, hc⟩
    · simp [hf, hc]
    · rcases fiz_spec hw with ⟨hf', hc'⟩ | ⟨n', -, hlo', -, hf', hc'⟩
      · simp [hf', hc']
      · rw [hf, hf', hc, hc', if_pos (by omega)]
        simp only [Bool.not_eq_true', Bool.or_eq_false_iff, decide_eq_false_iff_not]
        omega
  have hbytes : fitzBytes yaz wix (min (u2Met 3 yaz) (u2Met 3 wix)) 0 = true ↔ ¬Clash yaz wix := by
    rw [fitzBytes_iff, u2Met_eq (by decide) hy, u2Met_eq (by decide) hw]
    constructor
    · rintro h ⟨i, hi⟩
      by_cases hlt : i < min (Hoon.met 3 yaz) (Hoon.met 3 wix)
      · exact h i (Nat.zero_le i) (by omega) hi
      · rcases Nat.le_total (Hoon.met 3 yaz) (Hoon.met 3 wix) with hle | hle
        · exact hi.1 (smallByte_of_met_le (by omega))
        · exact hi.2.1 (smallByte_of_met_le (by omega))
    · exact fun h j _ _ hj => h ⟨j, hj⟩
  rw [← hsize, ← hbytes, fitz]
  cases fitzFiz yaz wix <;> simp

/-- A byte that is not a capital is one of the name. -/
theorem name_byte (h : InLoom a) {i : Nat} (hi : smallByte i a ≠ 0) :
    (trip (Ut.fiz a).2)[i]? = some (smallByte i a) := by
  have hsmall : smallByte i a = a / 256 ^ i % 256 ∧ ¬(65 ≤ a / 256 ^ i % 256 ∧ a / 256 ^ i % 256 ≤ 90) := by
    rw [← u2Byte_eq]
    by_cases hc : 65 ≤ u2Byte i a ∧ u2Byte i a ≤ 90
    · exact absurd (if_pos hc) hi
    · exact ⟨if_neg hc, hc⟩
  have hbyte : (Ut.fiz a).2 / 256 ^ i % 256 = smallByte i a := by
    rw [hsmall.1]
    rcases fiz_spec h with ⟨hf, -⟩ | ⟨n, hn, hlo, hhi, hf, -⟩
    · rw [hf]
    · rw [hf]
      have hin : i < n := by
        by_contra hge
        rcases Nat.lt_or_ge n i with hlt | hle
        · exact hi (smallByte_of_met_le (by omega))
        · obtain rfl : i = n := by omega
          rw [Nat.mod_eq_of_lt (by omega : a / 256 ^ i < 256)] at hsmall
          exact hsmall.2 ⟨hlo, hhi⟩
      obtain ⟨k, rfl⟩ := Nat.exists_eq_add_of_lt hin
      rw [Nat.add_assoc, Nat.pow_add, Nat.mod_mul_right_div_self, Nat.pow_succ', Nat.mod_mul_right_mod]
  rw [← hbyte] at hi ⊢
  rw [trip_eq]
  have hget := Nat.getD_digits (Ut.fiz a).2 i (by decide : 2 ≤ 256)
  rw [List.getD_eq_getElem?_getD] at hget
  cases hs : (Nat.digits 256 (Ut.fiz a).2)[i]? with
  | none =>
      rw [hs] at hget
      exact absurd hget.symm hi
  | some y =>
      rw [hs] at hget
      exact congrArg some hget

/-- Names of which one is a prefix of the other agree wherever both have a byte. -/
theorem Akin.no_clash (hy : InLoom yaz) (hw : InLoom wix) (h : Akin yaz wix) : ¬Clash yaz wix := by
  rintro ⟨i, hyi, hwi, hne⟩
  have hgy := name_byte hy hyi
  have hgw := name_byte hw hwi
  refine hne (Option.some.inj ?_)
  rcases h with ⟨t, ht⟩ | ⟨t, ht⟩
  · rw [← hgw, ← ht, List.getElem?_append_left (List.getElem?_eq_some_iff.mp hgy).1, hgy]
  · rw [← hgy, ← ht, List.getElem?_append_left (List.getElem?_eq_some_iff.mp hgw).1, hgw]

/-- The jet and the arm agree, and take just the auras that go together, if the sizes do not
differ and one name is a prefix of the other, or if the sizes differ so that both have to
refuse. -/
theorem fitz_right_iff (hy : InLoom yaz) (hw : InLoom wix) :
    (fitz yaz wix = Ut.fitz yaz wix ∧ (Ut.fitz yaz wix = true ↔ Akin yaz wix ∧ Fits yaz wix)) ↔
      (Level yaz wix ∧ Akin yaz wix) ∨ (¬Level yaz wix ∧ (Fits yaz wix → Clash yaz wix)) := by
  have hfits : Level yaz wix → Fits yaz wix := fun h hp hq => (h hp hq).le
  have hakin := @Akin.no_clash yaz wix hy hw
  rw [Bool.eq_iff_iff, fitz_iff hy hw, armFitz_iff hy hw]
  tauto

/-- `%ud` goes for `%ud`. -/
theorem fitz_right_ud :
    fitz 0x6475 0x6475 = Ut.fitz 0x6475 0x6475 ∧
      (Ut.fitz 0x6475 0x6475 = true ↔ Akin 0x6475 0x6475 ∧ Fits 0x6475 0x6475) :=
  (fitz_right_iff (inLoom_of_word (by decide)) (inLoom_of_word (by decide))).mpr
    (.inl ⟨fun _ _ => rfl, .inl (List.prefix_refl _)⟩)

/-- The arm takes `%tas` for `%ud`, the jet does not. -/
theorem fitz_wrong_tas : ¬(fitz 0x6475 0x736174 = Ut.fitz 0x6475 0x736174 ∧
    (Ut.fitz 0x6475 0x736174 = true ↔ Akin 0x6475 0x736174 ∧ Fits 0x6475 0x736174)) := by
  rintro ⟨hjet, -⟩
  revert hjet
  decide +kernel

end auras

end Vere.Jets
