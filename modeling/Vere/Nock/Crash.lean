import Vere.Nock.Spec

/-!
# Vere.Nock.Crash

How a reduction of `*[a f]` ends without a product.

The text of Nock 5K says that a noun no rule matches reduces to itself; `Crash a f` is the
part of that an evaluation from left to right runs into. What is left over, neither `Tar`
nor `Crash`, goes on for ever. `Comes bad a f` says that the same evaluation comes to a
formula whose operator is `bad`.
-/

namespace Vere.Nock

/-- There is a rule for the operator `n` with an argument of this shape. -/
def shaped : Nat → Noun → Bool
  | 0, .atom _ => true
  | 1, _ => true
  | 2, .cell _ _ => true
  | 3, _ => true
  | 4, _ => true
  | 5, _ => true
  | 6, .cell _ (.cell _ _) => true
  | 7, .cell _ _ => true
  | 8, .cell _ _ => true
  | 9, .cell (.atom _) _ => true
  | 10, .cell _ _ => true
  | _, _ => false

/-- An evaluation of `*[a f]` comes to a noun that no rule matches. -/
inductive Crash : Noun → Noun → Prop
  | atom {a : Noun} {n : Nat} : Crash a (.atom n)
  | shape {a b : Noun} {n : Nat} : shaped n b = false → Crash a (op n b)
  | head {a b c d : Noun} : Crash a (.cell b c) → Crash a (.cell (.cell b c) d)
  | tail {a b c d x : Noun} :
      Eval a (.cell b c) x → Crash a d → Crash a (.cell (.cell b c) d)
  | slot {a : Noun} {b : Nat} : slot b a = none → Crash a (op 0 (.atom b))
  | nockSubject {a b c : Noun} : Crash a b → Crash a (op 2 (.cell b c))
  | nockFormula {a b c x : Noun} : Eval a b x → Crash a c → Crash a (op 2 (.cell b c))
  | nock {a b c x y : Noun} :
      Eval a b x → Eval a c y → Crash x y → Crash a (op 2 (.cell b c))
  | wut {a b : Noun} : Crash a b → Crash a (op 3 b)
  | lus {a b : Noun} : Crash a b → Crash a (op 4 b)
  | lusCell {a b x y : Noun} : Eval a b (.cell x y) → Crash a (op 4 b)
  | tis {a b : Noun} : Crash a b → Crash a (op 5 b)
  | tisAtom {a b : Noun} {x : Nat} : Eval a b (.atom x) → Crash a (op 5 b)
  | test {a b c d : Noun} : Crash a b → Crash a (op 6 (.cell b (.cell c d)))
  | testValue {a b c d x : Noun} :
      Eval a b x → x ≠ .atom 0 → x ≠ .atom 1 → Crash a (op 6 (.cell b (.cell c d)))
  | then_ {a b c d : Noun} :
      Eval a b (.atom 0) → Crash a c → Crash a (op 6 (.cell b (.cell c d)))
  | else_ {a b c d : Noun} :
      Eval a b (.atom 1) → Crash a d → Crash a (op 6 (.cell b (.cell c d)))
  | first {a b c : Noun} : Crash a b → Crash a (op 7 (.cell b c))
  | second {a b c x : Noun} : Eval a b x → Crash x c → Crash a (op 7 (.cell b c))
  | pushed {a b c : Noun} : Crash a b → Crash a (op 8 (.cell b c))
  | push {a b c x : Noun} : Eval a b x → Crash (.cell x a) c → Crash a (op 8 (.cell b c))
  | core {a b c : Noun} : Crash a c → Crash a (op 9 (.cell b c))
  | armless {a c x : Noun} {b : Nat} :
      Eval a c x → Vere.Nock.slot b x = none → Crash a (op 9 (.cell (.atom b) c))
  | arm {a c x f : Noun} {b : Nat} :
      Eval a c x → Vere.Nock.slot b x = some f → Crash x f → Crash a (op 9 (.cell (.atom b) c))
  | clue {a b c d : Noun} : Crash a c → Crash a (op 10 (.cell (.cell b c) d))
  | hinted {a b c d x : Noun} :
      Eval a c x → Crash a d → Crash a (op 10 (.cell (.cell b c) d))
  | skip {a c : Noun} {b : Nat} : Crash a c → Crash a (op 10 (.cell (.atom b) c))

/-- An evaluation of `*[a f]` comes to a formula with an operator in `bad`. -/
inductive Comes (bad : Nat → Prop) : Noun → Noun → Prop
  | here {a b : Noun} {n : Nat} : bad n → Comes bad a (op n b)
  | head {a b c d : Noun} : Comes bad a (.cell b c) → Comes bad a (.cell (.cell b c) d)
  | tail {a b c d x : Noun} :
      Eval a (.cell b c) x → Comes bad a d → Comes bad a (.cell (.cell b c) d)
  | nockSubject {a b c : Noun} : Comes bad a b → Comes bad a (op 2 (.cell b c))
  | nockFormula {a b c x : Noun} :
      Eval a b x → Comes bad a c → Comes bad a (op 2 (.cell b c))
  | nock {a b c x y : Noun} :
      Eval a b x → Eval a c y → Comes bad x y → Comes bad a (op 2 (.cell b c))
  | wut {a b : Noun} : Comes bad a b → Comes bad a (op 3 b)
  | lus {a b : Noun} : Comes bad a b → Comes bad a (op 4 b)
  | tis {a b : Noun} : Comes bad a b → Comes bad a (op 5 b)
  | test {a b c d : Noun} : Comes bad a b → Comes bad a (op 6 (.cell b (.cell c d)))
  | then_ {a b c d : Noun} :
      Eval a b (.atom 0) → Comes bad a c → Comes bad a (op 6 (.cell b (.cell c d)))
  | else_ {a b c d : Noun} :
      Eval a b (.atom 1) → Comes bad a d → Comes bad a (op 6 (.cell b (.cell c d)))
  | first {a b c : Noun} : Comes bad a b → Comes bad a (op 7 (.cell b c))
  | second {a b c x : Noun} :
      Eval a b x → Comes bad x c → Comes bad a (op 7 (.cell b c))
  | pushed {a b c : Noun} : Comes bad a b → Comes bad a (op 8 (.cell b c))
  | push {a b c x : Noun} :
      Eval a b x → Comes bad (.cell x a) c → Comes bad a (op 8 (.cell b c))
  | core {a b c : Noun} : Comes bad a c → Comes bad a (op 9 (.cell b c))
  | arm {a c x f : Noun} {b : Nat} :
      Eval a c x → Vere.Nock.slot b x = some f → Comes bad x f →
      Comes bad a (op 9 (.cell (.atom b) c))
  | clue {a b c d : Noun} : Comes bad a c → Comes bad a (op 10 (.cell (.cell b c) d))
  | hinted {a b c d x : Noun} :
      Eval a c x → Comes bad a d → Comes bad a (op 10 (.cell (.cell b c) d))
  | skip {a c : Noun} {b : Nat} : Comes bad a c → Comes bad a (op 10 (.cell (.atom b) c))

/-! ### Through the macros -/

theorem crash_self {a : Noun} : ¬Crash a (op 0 (.atom 1)) := by
  intro h
  cases h with
  | shape hs => cases hs
  | slot hs =>
      rw [slot_one] at hs
      cases hs

theorem crash_const {a b : Noun} : ¬Crash a (op 1 b) := by
  intro h
  cases h with
  | shape hs => cases hs

theorem crash_slot_inv {a : Noun} {n : Nat} (h : Crash a (op 0 (.atom n))) : slot n a = none := by
  cases h with
  | shape hs => cases hs
  | slot hs => exact hs

theorem crash_nock_inv {a b c : Noun} (h : Crash a (op 2 (.cell b c))) :
    Crash a b ∨ Crash a c ∧ (∃ x, Eval a b x) ∨ ∃ x y, Eval a b x ∧ Eval a c y ∧ Crash x y := by
  cases h with
  | shape hs => cases hs
  | nockSubject hb => exact .inl hb
  | nockFormula hb hc => exact .inr (.inl ⟨hc, _, hb⟩)
  | nock hb hc hp => exact .inr (.inr ⟨_, _, hb, hc, hp⟩)

theorem crash_cons_inv {a b c d : Noun} (h : Crash a (.cell (.cell b c) d)) :
    Crash a (.cell b c) ∨ Crash a d := by
  cases h with
  | head hb => exact .inl hb
  | tail _ hd => exact .inr hd

theorem crash_lus_inv {a b : Noun} (h : Crash a (op 4 b)) :
    Crash a b ∨ ∃ x y, Eval a b (.cell x y) := by
  cases h with
  | shape hs => cases hs
  | lus hb => exact .inl hb
  | lusCell hb => exact .inr ⟨_, _, hb⟩

/-- A pick crashes while its axis is computed, or because there is nothing at it. -/
theorem crash_picks_inv {a s g : Noun}
    (h : Crash a (op 2 (.cell (op 1 s) (.cell (op 1 (.atom 0)) g)))) :
    Crash a g ∨ ∃ t, Eval a g t ∧ Crash s (op 0 t) := by
  rcases crash_nock_inv h with hs | ⟨hg, -⟩ | ⟨x, y, hx, hy, hp⟩
  · exact absurd hs crash_const
  · rcases crash_cons_inv hg with h0 | hg
    · exact absurd h0 crash_const
    · exact .inl hg
  · cases eval_const_inv hx
    obtain ⟨z, t, rfl, hz, ht⟩ := eval_cons_inv hy
    cases eval_const_inv hz
    exact .inr ⟨t, ht, hp⟩

/-- The macro of operator 6 crashes where the conditional does. -/
theorem crash_six {a b c d : Noun}
    (h : Crash a (op 2 (.cell (op 0 (.atom 1)) (op 2 (.cell (op 1 (.cell c d))
      (.cell (op 1 (.atom 0)) (op 2 (.cell (op 1 (.cell (.atom 2) (.atom 3)))
        (.cell (op 1 (.atom 0)) (op 4 (op 4 b))))))))))) :
    Crash a (op 6 (.cell b (.cell c d))) := by
  rcases crash_nock_inv h with hs | ⟨hf, -⟩ | ⟨x, f, hx, hf, hp⟩
  · exact absurd hs crash_self
  · rcases crash_picks_inv hf with hg | ⟨t, ht, hp⟩
    · -- the axis is not found: the test is no loobean
      rcases crash_picks_inv hg with hl | ⟨t, ht, hp⟩
      · rcases crash_lus_inv hl with hl | ⟨x, y, hl⟩
        · rcases crash_lus_inv hl with hb | ⟨x, y, hb⟩
          · exact .test hb
          · exact .testValue hb nofun nofun
        · obtain ⟨x, hx, -⟩ := eval_lus_inv hl
          cases hx
      · obtain ⟨k, rfl, hk⟩ := eval_lus_inv ht
        obtain ⟨x, hx, hb⟩ := eval_lus_inv hk
        cases hx
        have hs := crash_slot_inv hp
        refine .testValue hb ?_ ?_
        · rintro ⟨⟩
          rw [slot_two] at hs
          cases hs
        · rintro ⟨⟩
          rw [slot_three] at hs
          cases hs
    · -- the axis is 2 or 3, so `[c d]` has it
      rcases eval_axis_inv ht with ⟨-, rfl⟩ | ⟨-, rfl⟩
      · have hs := crash_slot_inv hp
        rw [slot_two] at hs
        cases hs
      · have hs := crash_slot_inv hp
        rw [slot_three] at hs
        cases hs
  · cases eval_self_inv hx
    rcases eval_chosen_inv hf with ⟨hb, rfl⟩ | ⟨hb, rfl⟩
    · exact .then_ hb hp
    · exact .else_ hb hp

/-- The macro of operator 7. -/
theorem crash_seven {a b c : Noun} (h : Crash a (op 2 (.cell b (op 1 c)))) :
    Crash a (op 7 (.cell b c)) := by
  rcases crash_nock_inv h with hb | ⟨hc, -⟩ | ⟨x, y, hx, hy, hp⟩
  · exact .first hb
  · exact absurd hc crash_const
  · cases eval_const_inv hy
    exact .second hx hp

section comes

variable {bad : Nat → Prop} {a b c d g s : Noun}

theorem comes_slot (hbad : ∀ n, bad n → 5 < n) : ¬Comes bad a (op 0 b) := by
  intro h
  cases h with
  | here hn => exact absurd (hbad 0 hn) (by omega)

theorem comes_const (hbad : ∀ n, bad n → 5 < n) : ¬Comes bad a (op 1 b) := by
  intro h
  cases h with
  | here hn => exact absurd (hbad 1 hn) (by omega)

theorem comes_nock_inv (hbad : ∀ n, bad n → 5 < n) (h : Comes bad a (op 2 (.cell b c))) :
    Comes bad a b ∨ Comes bad a c ∧ (∃ x, Eval a b x) ∨
      ∃ x y, Eval a b x ∧ Eval a c y ∧ Comes bad x y := by
  cases h with
  | here hn => exact absurd (hbad 2 hn) (by omega)
  | nockSubject hb => exact .inl hb
  | nockFormula hb hc => exact .inr (.inl ⟨hc, _, hb⟩)
  | nock hb hc hp => exact .inr (.inr ⟨_, _, hb, hc, hp⟩)

theorem comes_cons_inv (h : Comes bad a (.cell (.cell b c) d)) :
    Comes bad a (.cell b c) ∨ Comes bad a d := by
  cases h with
  | head hb => exact .inl hb
  | tail _ hd => exact .inr hd

theorem comes_lus_inv (hbad : ∀ n, bad n → 5 < n) (h : Comes bad a (op 4 b)) :
    Comes bad a b := by
  cases h with
  | here hn => exact absurd (hbad 4 hn) (by omega)
  | lus hb => exact hb

theorem comes_picks_inv (hbad : ∀ n, bad n → 5 < n)
    (h : Comes bad a (op 2 (.cell (op 1 s) (.cell (op 1 (.atom 0)) g)))) : Comes bad a g := by
  rcases comes_nock_inv hbad h with hs | ⟨hg, -⟩ | ⟨x, y, hx, hy, hp⟩
  · exact absurd hs (comes_const hbad)
  · rcases comes_cons_inv hg with h0 | hg
    · exact absurd h0 (comes_const hbad)
    · exact hg
  · obtain ⟨z, t, rfl, hz, -⟩ := eval_cons_inv hy
    cases eval_const_inv hz
    exact absurd hp (comes_slot hbad)

/-- The macro of operator 6 comes to what the conditional comes to. -/
theorem comes_six (hbad : ∀ n, bad n → 5 < n)
    (h : Comes bad a (op 2 (.cell (op 0 (.atom 1)) (op 2 (.cell (op 1 (.cell c d))
      (.cell (op 1 (.atom 0)) (op 2 (.cell (op 1 (.cell (.atom 2) (.atom 3)))
        (.cell (op 1 (.atom 0)) (op 4 (op 4 b))))))))))) :
    Comes bad a (op 6 (.cell b (.cell c d))) := by
  rcases comes_nock_inv hbad h with hs | ⟨hf, -⟩ | ⟨x, f, hx, hf, hp⟩
  · exact absurd hs (comes_slot hbad)
  · have hl := comes_picks_inv hbad (comes_picks_inv hbad hf)
    exact .test (comes_lus_inv hbad (comes_lus_inv hbad hl))
  · cases eval_self_inv hx
    rcases eval_chosen_inv hf with ⟨hb, rfl⟩ | ⟨hb, rfl⟩
    · exact .then_ hb hp
    · exact .else_ hb hp

/-- The macro of operator 7. -/
theorem comes_seven (hbad : ∀ n, bad n → 5 < n) (h : Comes bad a (op 2 (.cell b (op 1 c)))) :
    Comes bad a (op 7 (.cell b c)) := by
  rcases comes_nock_inv hbad h with hb | ⟨hc, -⟩ | ⟨x, y, hx, hy, hp⟩
  · exact .first hb
  · exact absurd hc (comes_const hbad)
  · cases eval_const_inv hy
    exact .second hx hp

end comes

end Vere.Nock
