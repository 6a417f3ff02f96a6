import Vere.Noun
import Mathlib.Tactic.Common

/-!
# Vere.Nock.Spec

Nock 5K, as `Spec/nock/5.txt` gives it: the reduction rules of `*[a f]` as a
big-step relation, operators 6 to 10 by the macros of the text.

`Tar a f p` says that `*[a f]` reduces to `p`. A noun that no rule matches
reduces to itself forever in the text and so has no product here; there is no
rule for operator 11 or above. `Eval` is the same relation with operators 6 to
10 read off directly, which is how an interpreter evaluates them;
`tar_iff_eval` says that the macros come to that.
-/

namespace Vere.Nock

open Noun

/-- `/[n a]`: the noun at an axis, if there is one. -/
def slot (n : Nat) (a : Noun) : Option Noun :=
  if n = 0 then none
  else if n = 1 then some a
  else
    match slot (n / 2) a with
    | some (.cell h t) => some (if n % 2 = 0 then h else t)
    | _ => none
termination_by n
decreasing_by omega

/-- `?a`: is it a cell. -/
def wut : Noun → Noun
  | .cell _ _ => .atom 0
  | .atom _ => .atom 1

/-- `=[a b]`: are they equal. -/
def tis (a b : Noun) : Noun := .atom (loob (a = b))

/-- A formula: an operator and its argument. -/
abbrev op (n : Nat) (b : Noun) : Noun := .cell (.atom n) b

/-- `*[a f]` reduces to `p`, by the rules of the text. -/
inductive Tar : Noun → Noun → Noun → Prop
  /-- `*[a [b c] d]` is `[*[a b c] *[a d]]`. -/
  | cons {a b c d x y : Noun} :
      Tar a (.cell b c) x → Tar a d y → Tar a (.cell (.cell b c) d) (.cell x y)
  /-- `*[a 0 b]` is `/[b a]`. -/
  | slot {a p : Noun} {b : Nat} : slot b a = some p → Tar a (op 0 (.atom b)) p
  /-- `*[a 1 b]` is `b`. -/
  | const {a b : Noun} : Tar a (op 1 b) b
  /-- `*[a 2 b c]` is `*[*[a b] *[a c]]`. -/
  | nock {a b c x y p : Noun} :
      Tar a b x → Tar a c y → Tar x y p → Tar a (op 2 (.cell b c)) p
  /-- `*[a 3 b]` is `?*[a b]`. -/
  | wut {a b x : Noun} : Tar a b x → Tar a (op 3 b) (wut x)
  /-- `*[a 4 b]` is `+*[a b]`. -/
  | lus {a b : Noun} {x : Nat} : Tar a b (.atom x) → Tar a (op 4 b) (.atom (x + 1))
  /-- `*[a 5 b]` is `=*[a b]`. -/
  | tis {a b x y : Noun} : Tar a b (.cell x y) → Tar a (op 5 b) (tis x y)
  /-- `*[a 6 b c d]` is `*[a 2 [0 1] 2 [1 c d] [1 0] 2 [1 2 3] [1 0] 4 4 b]`. -/
  | six {a b c d p : Noun} :
      Tar a (op 2 (.cell (op 0 (.atom 1)) (op 2 (.cell (op 1 (.cell c d))
        (.cell (op 1 (.atom 0)) (op 2 (.cell (op 1 (.cell (.atom 2) (.atom 3)))
          (.cell (op 1 (.atom 0)) (op 4 (op 4 b)))))))))) p →
      Tar a (op 6 (.cell b (.cell c d))) p
  /-- `*[a 7 b c]` is `*[a 2 b 1 c]`. -/
  | seven {a b c p : Noun} :
      Tar a (op 2 (.cell b (op 1 c))) p → Tar a (op 7 (.cell b c)) p
  /-- `*[a 8 b c]` is `*[a 7 [[7 [0 1] b] 0 1] c]`. -/
  | eight {a b c p : Noun} :
      Tar a (op 7 (.cell (.cell (op 7 (.cell (op 0 (.atom 1)) b)) (op 0 (.atom 1))) c)) p →
      Tar a (op 8 (.cell b c)) p
  /-- `*[a 9 b c]` is `*[a 7 c 2 [0 1] 0 b]`. -/
  | nine {a b c p : Noun} :
      Tar a (op 7 (.cell c (op 2 (.cell (op 0 (.atom 1)) (op 0 b))))) p →
      Tar a (op 9 (.cell b c)) p
  /-- `*[a 10 [b c] d]` is `*[a 8 c 7 [0 3] d]`. -/
  | hint {a b c d p : Noun} :
      Tar a (op 8 (.cell c (op 7 (.cell (op 0 (.atom 3)) d)))) p →
      Tar a (op 10 (.cell (.cell b c) d)) p
  /-- `*[a 10 b c]` is `*[a c]`. -/
  | skip {a c p : Noun} {b : Nat} : Tar a c p → Tar a (op 10 (.cell (.atom b) c)) p

/-- The same relation with operators 6 to 10 read off directly. -/
inductive Eval : Noun → Noun → Noun → Prop
  | cons {a b c d x y : Noun} :
      Eval a (.cell b c) x → Eval a d y → Eval a (.cell (.cell b c) d) (.cell x y)
  | slot {a p : Noun} {b : Nat} : Vere.Nock.slot b a = some p → Eval a (op 0 (.atom b)) p
  | const {a b : Noun} : Eval a (op 1 b) b
  | nock {a b c x y p : Noun} :
      Eval a b x → Eval a c y → Eval x y p → Eval a (op 2 (.cell b c)) p
  | wut {a b x : Noun} : Eval a b x → Eval a (op 3 b) (wut x)
  | lus {a b : Noun} {x : Nat} : Eval a b (.atom x) → Eval a (op 4 b) (.atom (x + 1))
  | tis {a b x y : Noun} : Eval a b (.cell x y) → Eval a (op 5 b) (tis x y)
  /-- A conditional whose test is yes. -/
  | then_ {a b c d p : Noun} :
      Eval a b (.atom 0) → Eval a c p → Eval a (op 6 (.cell b (.cell c d))) p
  /-- A conditional whose test is no. -/
  | else_ {a b c d p : Noun} :
      Eval a b (.atom 1) → Eval a d p → Eval a (op 6 (.cell b (.cell c d))) p
  /-- Composition. -/
  | seven {a b c x p : Noun} : Eval a b x → Eval x c p → Eval a (op 7 (.cell b c)) p
  /-- A product pushed on the subject. -/
  | eight {a b c x p : Noun} :
      Eval a b x → Eval (.cell x a) c p → Eval a (op 8 (.cell b c)) p
  /-- An arm pulled from a core. -/
  | nine {a c x f p : Noun} {b : Nat} :
      Eval a c x → Vere.Nock.slot b x = some f → Eval x f p → Eval a (op 9 (.cell (.atom b) c)) p
  /-- A hint whose clue is evaluated and dropped. -/
  | hint {a b c d x p : Noun} :
      Eval a c x → Eval a d p → Eval a (op 10 (.cell (.cell b c) d)) p
  | skip {a c p : Noun} {b : Nat} : Eval a c p → Eval a (op 10 (.cell (.atom b) c)) p

/-- Reducing `*[a f]` comes to a reduction that is `bad`. -/
inductive Meets (bad : Noun → Noun → Prop) : Noun → Noun → Prop
  | here {a f : Noun} : bad a f → Meets bad a f
  | head {a b c d : Noun} : Meets bad a (.cell b c) → Meets bad a (.cell (.cell b c) d)
  | tail {a b c d : Noun} : Meets bad a d → Meets bad a (.cell (.cell b c) d)
  | nockSubject {a b c : Noun} : Meets bad a b → Meets bad a (op 2 (.cell b c))
  | nockFormula {a b c : Noun} : Meets bad a c → Meets bad a (op 2 (.cell b c))
  | nock {a b c x y : Noun} :
      Tar a b x → Tar a c y → Meets bad x y → Meets bad a (op 2 (.cell b c))
  | wut {a b : Noun} : Meets bad a b → Meets bad a (op 3 b)
  | lus {a b : Noun} : Meets bad a b → Meets bad a (op 4 b)
  | tis {a b : Noun} : Meets bad a b → Meets bad a (op 5 b)
  | test {a b cd : Noun} : Meets bad a b → Meets bad a (op 6 (.cell b cd))
  | then_ {a b c d : Noun} :
      Tar a b (.atom 0) → Meets bad a c → Meets bad a (op 6 (.cell b (.cell c d)))
  | else_ {a b c d : Noun} :
      Tar a b (.atom 1) → Meets bad a d → Meets bad a (op 6 (.cell b (.cell c d)))
  | first {a b c : Noun} : Meets bad a b → Meets bad a (op 7 (.cell b c))
  | second {a b c x : Noun} : Tar a b x → Meets bad x c → Meets bad a (op 7 (.cell b c))
  | pushed {a b c : Noun} : Meets bad a b → Meets bad a (op 8 (.cell b c))
  | push {a b c x : Noun} : Tar a b x → Meets bad (.cell x a) c → Meets bad a (op 8 (.cell b c))
  | core {a b c : Noun} : Meets bad a c → Meets bad a (op 9 (.cell b c))
  | arm {a c x f : Noun} {b : Nat} :
      Tar a c x → Vere.Nock.slot b x = some f → Meets bad x f →
      Meets bad a (op 9 (.cell (.atom b) c))
  | clue {a b c d : Noun} : Meets bad a c → Meets bad a (op 10 (.cell (.cell b c) d))
  | hinted {a b d : Noun} : Meets bad a d → Meets bad a (op 10 (.cell b d))

/-- A pair that is not bad itself comes to it in one of its parts. -/
theorem Meets.cons_inv {bad : Noun → Noun → Prop} {a b c d : Noun}
    (h : Meets bad a (.cell (.cell b c) d)) (hbad : ¬bad a (.cell (.cell b c) d)) :
    Meets bad a (.cell b c) ∨ Meets bad a d := by
  generalize hf : Noun.cell (.cell b c) d = f at h hbad
  cases h with
  | here h => exact absurd h hbad
  | head h =>
      cases hf
      exact .inl h
  | tail h =>
      cases hf
      exact .inr h
  | _ => cases hf

/-- Reducing `*[a f]` comes to a formula with operator 11, which is not part of
Nock 5K. The interpreters take it as a request to the namespace. -/
abbrev Wishes : Noun → Noun → Prop := Meets fun _ f => ∃ b, f = op 11 b

/-! ### Axes -/

theorem slot_zero (a : Noun) : slot 0 a = none := by
  rw [slot, if_pos rfl]

theorem slot_one (a : Noun) : slot 1 a = some a := by
  rw [slot, if_neg Nat.one_ne_zero, if_pos rfl]

/-- An axis above 1 is reached through its parent. -/
theorem slot_step {n : Nat} (h : 2 ≤ n) (a : Noun) :
    slot n a = match slot (n / 2) a with
      | some (.cell h t) => some (if n % 2 = 0 then h else t)
      | _ => none := by
  rw [slot, if_neg (by omega), if_neg (by omega)]

theorem slot_two (h t : Noun) : slot 2 (.cell h t) = some h := by
  rw [slot_step (Nat.le_refl 2), slot_one]
  rfl

theorem slot_three (h t : Noun) : slot 3 (.cell h t) = some t := by
  rw [slot_step (by omega), slot_one]
  rfl

/-- A cell of two atoms has nothing below its parts. -/
theorem slot_atoms {n x y : Nat} (h : 4 ≤ n) : slot n (.cell (.atom x) (.atom y)) = none := by
  induction n using Nat.strongRecOn with
  | ind n ih =>
      rw [slot_step (by omega)]
      by_cases hn : 8 ≤ n
      · rw [ih (n / 2) (by omega) (by omega)]
      · have hhalf : n / 2 = 2 ∨ n / 2 = 3 := by omega
        rcases hhalf with h2 | h3
        · rw [h2, slot_two]
        · rw [h3, slot_three]

/-! ### The macros -/

/-- The product of the inner formula of a conditional is an axis of `[2 3]`. -/
theorem slot_test {x : Nat} {p : Noun} (h : slot (x + 2) (.cell (.atom 2) (.atom 3)) = some p) :
    (x = 0 ∧ p = .atom 2) ∨ (x = 1 ∧ p = .atom 3) := by
  match x with
  | 0 =>
      rw [slot_two] at h
      exact .inl ⟨rfl, (Option.some.inj h).symm⟩
  | 1 =>
      rw [slot_three] at h
      exact .inr ⟨rfl, (Option.some.inj h).symm⟩
  | x + 2 =>
      rw [slot_atoms (by omega)] at h
      cases h

theorem eval_slot_inv {a b p : Noun} (h : Eval a (op 0 b) p) :
    ∃ n, b = .atom n ∧ slot n a = some p := by
  cases h with
  | slot hs => exact ⟨_, rfl, hs⟩

theorem eval_self_inv {a p : Noun} (h : Eval a (op 0 (.atom 1)) p) : p = a := by
  obtain ⟨n, hn, hs⟩ := eval_slot_inv h
  cases hn
  rw [slot_one] at hs
  exact (Option.some.inj hs).symm

theorem eval_const_inv {a b p : Noun} (h : Eval a (op 1 b) p) : p = b := by
  cases h with
  | const => rfl

theorem eval_nock_inv {a b c p : Noun} (h : Eval a (op 2 (.cell b c)) p) :
    ∃ x y, Eval a b x ∧ Eval a c y ∧ Eval x y p := by
  cases h with
  | nock hb hc hp => exact ⟨_, _, hb, hc, hp⟩

theorem eval_lus_inv {a b p : Noun} (h : Eval a (op 4 b) p) :
    ∃ x, p = .atom (x + 1) ∧ Eval a b (.atom x) := by
  cases h with
  | lus hb => exact ⟨_, rfl, hb⟩

theorem eval_cons_inv {a b c d p : Noun} (h : Eval a (.cell (.cell b c) d) p) :
    ∃ x y, p = .cell x y ∧ Eval a (.cell b c) x ∧ Eval a d y := by
  cases h with
  | cons hx hy => exact ⟨_, _, rfl, hx, hy⟩

theorem eval_seven_inv {a b c p : Noun} (h : Eval a (op 7 (.cell b c)) p) :
    ∃ x, Eval a b x ∧ Eval x c p := by
  cases h with
  | seven hb hc => exact ⟨_, hb, hc⟩

theorem eval_eight_inv {a b c p : Noun} (h : Eval a (op 8 (.cell b c)) p) :
    ∃ x, Eval a b x ∧ Eval (.cell x a) c p := by
  cases h with
  | eight hb hc => exact ⟨_, hb, hc⟩

/-- `[2 [1 s] [1 0] g]` picks the axis of `s` that `g` computes: the shape of which the macro
of operator 6 is made. -/
theorem eval_picks_inv {a s g p : Noun}
    (h : Eval a (op 2 (.cell (op 1 s) (.cell (op 1 (.atom 0)) g))) p) :
    ∃ n, Eval a g (.atom n) ∧ slot n s = some p := by
  obtain ⟨x, y, hx, hy, hp⟩ := eval_nock_inv h
  cases eval_const_inv hx
  obtain ⟨z, t, rfl, hz, ht⟩ := eval_cons_inv hy
  cases eval_const_inv hz
  obtain ⟨n, rfl, hs⟩ := eval_slot_inv hp
  exact ⟨n, ht, hs⟩

/-- The axis of the chosen branch is an axis of `[2 3]`, two above the test. -/
theorem eval_axis_inv {a b p : Noun}
    (h : Eval a (op 2 (.cell (op 1 (.cell (.atom 2) (.atom 3)))
      (.cell (op 1 (.atom 0)) (op 4 (op 4 b))))) p) :
    (Eval a b (.atom 0) ∧ p = .atom 2) ∨ (Eval a b (.atom 1) ∧ p = .atom 3) := by
  obtain ⟨n, hn, hs⟩ := eval_picks_inv h
  obtain ⟨k, hk, hl⟩ := eval_lus_inv hn
  cases hk
  obtain ⟨x, hx, hb⟩ := eval_lus_inv hl
  cases hx
  rcases slot_test hs with ⟨rfl, hp⟩ | ⟨rfl, hp⟩
  · exact .inl ⟨hb, hp⟩
  · exact .inr ⟨hb, hp⟩

/-- The branch that operator 6 chooses. -/
theorem eval_chosen_inv {a b c d p : Noun}
    (h : Eval a (op 2 (.cell (op 1 (.cell c d))
      (.cell (op 1 (.atom 0)) (op 2 (.cell (op 1 (.cell (.atom 2) (.atom 3)))
        (.cell (op 1 (.atom 0)) (op 4 (op 4 b)))))))) p) :
    (Eval a b (.atom 0) ∧ p = c) ∨ (Eval a b (.atom 1) ∧ p = d) := by
  obtain ⟨m, hm, hs⟩ := eval_picks_inv h
  rcases eval_axis_inv hm with ⟨hb, hm2⟩ | ⟨hb, hm3⟩
  · cases hm2
    rw [slot_two] at hs
    exact .inl ⟨hb, (Option.some.inj hs).symm⟩
  · cases hm3
    rw [slot_three] at hs
    exact .inr ⟨hb, (Option.some.inj hs).symm⟩

/-- What the macro of operator 6 evaluates to. -/
theorem eval_six {a b c d p : Noun}
    (h : Eval a (op 2 (.cell (op 0 (.atom 1)) (op 2 (.cell (op 1 (.cell c d))
      (.cell (op 1 (.atom 0)) (op 2 (.cell (op 1 (.cell (.atom 2) (.atom 3)))
        (.cell (op 1 (.atom 0)) (op 4 (op 4 b)))))))))) p) :
    Eval a (op 6 (.cell b (.cell c d))) p := by
  obtain ⟨s, f, hs, hf, hp⟩ := eval_nock_inv h
  cases eval_self_inv hs
  rcases eval_chosen_inv hf with ⟨hb, rfl⟩ | ⟨hb, rfl⟩
  · exact .then_ hb hp
  · exact .else_ hb hp

/-- A reduction by the text is a direct evaluation. -/
theorem Tar.eval {a f p : Noun} (h : Tar a f p) : Eval a f p := by
  induction h with
  | cons _ _ ihx ihy => exact .cons ihx ihy
  | slot hs => exact .slot hs
  | const => exact .const
  | nock _ _ _ ihb ihc ihp => exact .nock ihb ihc ihp
  | wut _ ih => exact .wut ih
  | lus _ ih => exact .lus ih
  | tis _ ih => exact .tis ih
  | six _ ih => exact eval_six ih
  | seven _ ih =>
      obtain ⟨x, y, hx, hy, hp⟩ := eval_nock_inv ih
      cases eval_const_inv hy
      exact .seven hx hp
  | eight _ ih =>
      obtain ⟨x, hx, hp⟩ := eval_seven_inv ih
      obtain ⟨u, v, rfl, hu, hv⟩ := eval_cons_inv hx
      cases eval_self_inv hv
      obtain ⟨w, hw, hu⟩ := eval_seven_inv hu
      cases eval_self_inv hw
      exact .eight hu hp
  | nine _ ih =>
      obtain ⟨x, hx, hp⟩ := eval_seven_inv ih
      obtain ⟨u, f, hu, hf, hq⟩ := eval_nock_inv hp
      cases eval_self_inv hu
      obtain ⟨n, rfl, hs⟩ := eval_slot_inv hf
      exact .nine hx hs hq
  | hint _ ih =>
      obtain ⟨x, hx, hp⟩ := eval_eight_inv ih
      obtain ⟨y, hy, hp⟩ := eval_seven_inv hp
      obtain ⟨n, hn, hs⟩ := eval_slot_inv hy
      cases hn
      rw [slot_three] at hs
      cases hs
      exact .hint hx hp
  | skip _ ih => exact .skip ih

/-- A direct evaluation is a reduction by the text. -/
theorem Eval.tar {a f p : Noun} (h : Eval a f p) : Tar a f p := by
  induction h with
  | cons _ _ ihx ihy => exact .cons ihx ihy
  | slot hs => exact .slot hs
  | const => exact .const
  | nock _ _ _ ihb ihc ihp => exact .nock ihb ihc ihp
  | wut _ ih => exact .wut ih
  | lus _ ih => exact .lus ih
  | tis _ ih => exact .tis ih
  | then_ _ _ ihb ihc =>
      refine .six (.nock (.slot (slot_one _)) (.nock .const (.cons .const (.nock .const
        (.cons .const (.lus (.lus ihb))) (.slot (slot_two _ _)))) (.slot (slot_two _ _))) ihc)
  | else_ _ _ ihb ihd =>
      refine .six (.nock (.slot (slot_one _)) (.nock .const (.cons .const (.nock .const
        (.cons .const (.lus (.lus ihb))) (.slot (slot_three _ _)))) (.slot (slot_three _ _))) ihd)
  | seven _ _ ihb ihc => exact .seven (.nock ihb .const ihc)
  | eight _ _ ihb ihc =>
      exact .eight (.seven (.nock (.cons (.seven (.nock (.slot (slot_one _)) .const ihb))
        (.slot (slot_one _))) .const ihc))
  | nine _ hs _ ihc ihf =>
      exact .nine (.seven (.nock ihc .const (.nock (.slot (slot_one _)) (.slot hs) ihf)))
  | hint _ _ ihc ihd =>
      exact .hint (.eight (.seven (.nock (.cons (.seven (.nock (.slot (slot_one _)) .const ihc))
        (.slot (slot_one _))) .const (.seven (.nock (.slot (slot_three _ _)) .const ihd)))))
  | skip _ ih => exact .skip ih

/-- A reduction has at most one product. -/
theorem Eval.unique {a f p q : Noun} (hp : Eval a f p) (hq : Eval a f q) : p = q := by
  induction hp generalizing q with
  | cons _ _ ihx ihy =>
      cases hq with
      | cons hx hy => rw [ihx hx, ihy hy]
  | slot hs =>
      cases hq with
      | slot hs' => exact Option.some.inj (hs.symm.trans hs')
  | const =>
      cases hq with
      | const => rfl
  | nock _ _ _ ihb ihc ihp =>
      cases hq with
      | nock hb hc hp =>
          cases ihb hb
          cases ihc hc
          exact ihp hp
  | wut _ ih =>
      cases hq with
      | wut h => rw [ih h]
  | lus _ ih =>
      cases hq with
      | lus h =>
          cases ih h
          rfl
  | tis _ ih =>
      cases hq with
      | tis h =>
          cases ih h
          rfl
  | then_ _ _ ihb ihc =>
      cases hq with
      | then_ _ hc => exact ihc hc
      | else_ hb _ => cases ihb hb
  | else_ _ _ ihb ihd =>
      cases hq with
      | then_ hb _ => cases ihb hb
      | else_ _ hd => exact ihd hd
  | seven _ _ ihb ihc =>
      cases hq with
      | seven hb hc =>
          cases ihb hb
          exact ihc hc
  | eight _ _ ihb ihc =>
      cases hq with
      | eight hb hc =>
          cases ihb hb
          exact ihc hc
  | nine _ hs _ ihc ihf =>
      cases hq with
      | nine hc hs' hf =>
          cases ihc hc
          cases hs.symm.trans hs'
          exact ihf hf
  | hint _ _ _ ihd =>
      cases hq with
      | hint _ hd => exact ihd hd
  | skip _ ih =>
      cases hq with
      | skip h => exact ih h

end Vere.Nock
