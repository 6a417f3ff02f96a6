import Mathlib.Data.Nat.Bitwise
import Vere.Hoon.Deep

/-!
# Vere.Hoon.Matches

What a regular expression matches, in the usual sense.

`Matches d a s t` says that `a` matches what is between two suffixes `s` and `t` of the text `d`.
Repetitions are powers of a relation (`Times`), and `times_step` takes off the first round, which
is how the matcher goes into them.
-/

namespace Vere.Hoon.Rexp

/-! ### Matching -/

/-- A relation so many times over. -/
def Times {α : Type} (R : α → α → Prop) : Nat → α → α → Prop
  | 0 => Eq
  | n + 1 => fun s t => ∃ u, R s u ∧ Times R n u t

/-- A letter, a digit or a low line. -/
def Word (i : Nat) : Prop :=
  48 ≤ i ∧ i ≤ 57 ∨ 97 ≤ i ∧ i ≤ 122 ∨ 65 ≤ i ∧ i ≤ 90 ∨ i = 95

/-- There is a word character before the suffix. -/
def WordBefore (d s : Tape) : Prop := ∃ u i, d = u ++ i :: s ∧ Word i

/-- There is one at its front. -/
def WordAt (s : Tape) : Prop := ∃ i t, s = i :: t ∧ Word i

/-- The expression matches what is between two suffixes of the text `d`. -/
def Matches (d : Tape) : Rege → Tape → Tape → Prop
  | .dote, s, t => ∃ i, s = i :: t
  | .ende, s, t => s = [] ∧ t = s
  | .sart, s, t => s = d ∧ t = s
  | .empt, s, t => t = s
  | .boun, s, t => ¬(WordBefore d s ↔ WordAt s) ∧ t = s
  | .bout, s, t => (WordBefore d s ↔ WordAt s) ∧ t = s
  | .lite p, s, t => s = p :: t
  | .brac p, s, t => ∃ i, s = i :: t ∧ p.testBit i
  | .capt p _, s, t => Matches d p s t
  | .eith p q, s, t => Matches d p s t ∨ Matches d q s t
  | .pair p q, s, t => ∃ u, Matches d p s u ∧ Matches d q u t
  | .mant p, s, t | .manl p, s, t => ∃ n, Times (Matches d p) n s t
  | .plls p, s, t | .plll p, s, t => ∃ n, 1 ≤ n ∧ Times (Matches d p) n s t
  | .bint p q, s, t | .binl p q, s, t => ∃ n, q ≤ n ∧ Times (Matches d p) n s t
  | .bant p q, s, t => Times (Matches d p) q s t
  | .betw p q r, s, t | .betl p q r, s, t => ∃ n, q ≤ n ∧ n ≤ r ∧ Times (Matches d p) n s t

theorem testBit_ranc (a b i : Nat) : (ranc a b).testBit i = decide (a ≤ i ∧ i ≤ b) := by
  induction a using ranc.induct (b := b) with
  | case1 a h =>
      rw [ranc, if_pos h, Nat.zero_testBit]
      exact (decide_eq_false (by omega)).symm
  | case2 a h ih =>
      rw [ranc, if_neg h, con_eq, bex_eq, Nat.testBit_or, ih, Nat.testBit_two_pow, ← Bool.decide_or]
      exact decide_eq_decide.mpr (by omega)

theorem dis_bex (p i : Nat) : dis p (bex i) = 0 ↔ p.testBit i = false := by
  rw [dis_eq, bex_eq, Nat.and_two_pow]
  cases p.testBit i <;> simp

theorem testBit_wordc (i : Nat) : wordc.testBit i = true ↔ Word i := by
  simp only [wordc, con_eq, bex_eq, Nat.testBit_or, digit, lower, upper, testBit_ranc,
    Nat.testBit_two_pow, Bool.or_eq_true, decide_eq_true_eq]
  rw [Word, @eq_comm _ 95 i]
  exact Iff.rfl

theorem not_word {i : Nat} : dis wordc (bex i) = 0 ↔ ¬Word i := by
  rw [dis_bex, ← testBit_wordc, Bool.not_eq_true]

theorem cuc_eq (s : Tape) : cuc s = true ↔ ¬WordAt s := by
  cases s with
  | nil => simp [cuc, WordAt]
  | cons i t =>
      rw [cuc, decide_eq_true_eq, not_word]
      simp [WordAt]

/-- The arm looks at the character before a suffix. -/
theorem luc_eq {b d : Tape} (hb : b <:+ d) :
    ∃ x, luc b d = pure x ∧ (x = true ↔ ¬WordBefore d b) := by
  obtain ⟨u, rfl⟩ := hb
  have hself {b u : Tape} (h : b = u ++ b) : u = [] := List.self_eq_append_left.mp h
  rcases List.eq_nil_or_concat u with rfl | ⟨v, i, hu⟩
  · refine ⟨true, if_pos rfl, ?_⟩
    simp only [true_iff]
    rintro ⟨v, i, hv, -⟩
    exact absurd (hself (by simpa using hv : b = (v ++ [i]) ++ b)) (by simp)
  · rw [List.concat_eq_append] at hu
    subst hu
    have hne : b ≠ v ++ [i] ++ b := fun h => absurd (hself h) (by simp)
    have hlen : ¬(v ++ [i] ++ b).length ≤ b.length := by
      simp only [List.length_append, List.length_singleton]
      omega
    have hslag : slag ((v ++ [i] ++ b).length - b.length - 1) (v ++ [i] ++ b) = i :: b := by
      have hpos : (v ++ [i] ++ b).length - b.length - 1 = v.length := by
        simp only [List.length_append, List.length_singleton]
        omega
      rw [slag_eq_drop, hpos, List.append_assoc, List.drop_left]
      rfl
    refine ⟨dis wordc (bex i) = 0, ?_, ?_⟩
    · rw [luc, if_neg hne, if_neg hlen, hslag]
    · rw [decide_eq_true_eq, not_word, not_iff_not]
      constructor
      · exact fun hi => ⟨v, i, by simp, hi⟩
      · rintro ⟨w, j, hw, hj⟩
        have hw' : (v ++ [i]) ++ b = (w ++ [j]) ++ b := by simpa using hw
        obtain ⟨-, hij⟩ := List.append_inj' (List.append_cancel_right hw') rfl
        cases hij
        exact hj

theorem boundary {b d : Tape} {x : Bool} (h : x = true ↔ ¬WordBefore d b) :
    x = cuc b ↔ (WordBefore d b ↔ WordAt b) := by
  rw [Bool.eq_iff_iff, h, cuc_eq, not_iff_not]

/-! ### Repetitions -/

section times

variable {α : Type} {R : α → α → Prop} {s t : α}

/-- Either no time at all, or once and then the rest. -/
theorem times_step (P : Nat → Prop) : (∃ n, P n ∧ Times R n s t) ↔
    (P 0 ∧ t = s) ∨ ∃ u, R s u ∧ ∃ n, P (n + 1) ∧ Times R n u t := by
  constructor
  · rintro ⟨_ | n, hP, h⟩
    · exact .inl ⟨hP, h.symm⟩
    · obtain ⟨u, hu, ht⟩ := h
      exact .inr ⟨u, hu, n, hP, ht⟩
  · rintro (⟨hP, rfl⟩ | ⟨u, hu, n, hP, ht⟩)
    · exact ⟨0, hP, rfl⟩
    · exact ⟨n + 1, hP, u, hu, ht⟩

theorem star_step : (∃ n, Times R n s t) ↔ t = s ∨ ∃ u, R s u ∧ ∃ n, Times R n u t := by
  simpa using times_step (R := R) (s := s) (t := t) fun _ => True

/-- A repetition that gets anywhere does so in one of its rounds. -/
theorem star_moves {n : Nat} (h : Times R n s t) :
    t = s ∨ ∃ u m, u ≠ s ∧ R s u ∧ Times R m u t := by
  induction n generalizing s with
  | zero => exact .inl h.symm
  | succ n ih =>
      obtain ⟨u, hu, ht⟩ := h
      by_cases hus : u = s
      · subst hus
        exact ih ht
      · exact .inr ⟨u, n, hus, hu, ht⟩

end times

/-! ### What the arm goes on as -/

section unroll

variable {d s t : Tape} {p : Rege} {q r : Nat}

theorem or_empt {α : Type} {R : α → α → Prop} {s t : α} :
    ((∃ n, Times R n s t) ∨ t = s) ↔ ∃ n, Times R n s t :=
  or_iff_left_of_imp fun h => ⟨0, h.symm⟩

theorem matches_mant : Matches d (.mant p) s t ↔
    Matches d (.eith (.pair p (.eith (.mant p) .empt)) .empt) s t := by
  simp only [Matches, or_empt]
  rw [star_step, or_comm]

theorem matches_manl : Matches d (.manl p) s t ↔
    Matches d (.eith .empt (.pair p (.eith .empt (.manl p)))) s t := by
  simp only [Matches, or_comm (a := t = _), or_empt]
  rw [star_step, or_comm]

/-- At least once is once and then the rest. -/
theorem least_step : (∃ n, q + 1 ≤ n ∧ Times (Matches d p) n s t) ↔
    ∃ u, Matches d p s u ∧ ∃ n, q ≤ n ∧ Times (Matches d p) n u t := by
  rw [times_step]
  simp

theorem least_one : (∃ n, 1 ≤ n ∧ Times (Matches d p) n s t) ↔
    ∃ u, Matches d p s u ∧ ∃ n, Times (Matches d p) n u t := by
  rw [least_step (q := 0)]
  simp

theorem least_zero : (∃ n, 0 ≤ n ∧ Times (Matches d p) n s t) ↔ ∃ n, Times (Matches d p) n s t := by
  simp

theorem most_zero : (∃ n, 0 ≤ n ∧ n ≤ 0 ∧ Times (Matches d p) n s t) ↔ t = s := by
  simpa [and_assoc] using times_step (R := Matches d p) (s := s) (t := t) fun n => 0 ≤ n ∧ n ≤ 0

theorem most_step : (∃ n, 0 ≤ n ∧ n ≤ r + 1 ∧ Times (Matches d p) n s t) ↔
    t = s ∨ ∃ u, Matches d p s u ∧ ∃ n, 0 ≤ n ∧ n ≤ r ∧ Times (Matches d p) n u t := by
  simpa [and_assoc] using times_step (R := Matches d p) (s := s) (t := t) fun n => 0 ≤ n ∧ n ≤ r + 1

theorem between_step : (∃ n, q + 1 ≤ n ∧ n ≤ r + 1 ∧ Times (Matches d p) n s t) ↔
    ∃ u, Matches d p s u ∧ ∃ n, q ≤ n ∧ n ≤ r ∧ Times (Matches d p) n u t := by
  simpa [and_assoc] using times_step (R := Matches d p) (s := s) (t := t)
    fun n => q + 1 ≤ n ∧ n ≤ r + 1

end unroll

end Vere.Hoon.Rexp
