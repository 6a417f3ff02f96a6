import Vere.Jets.Comb
import Vere.Ut.Fish

/-!
# Vere.Jets.Fish

The jet of `+-fish:ut`, `gen164/6/ut_fish.c`.

It builds the formula from nouns with the jets of the combinators. On a plain type that fits
in the loom it is the formula of the arm, so it tests what the arm's formula does
(`fish_tests`).
-/

namespace Vere.Jets

open Vere.Hoon Vere.Lib Vere.Nock

/-- A jet in an arm: a bail is a crash. -/
def virt {α : Type} : Jet α → Virt α
  | .ok x => pure x
  | .error _ => throw ()

/-- `_fish_in`, with a bound on its recursion. -/
def fishIn (van : Ut.Van) : Nat → Ut.Ty → Nat → List Ut.Ty → Virt Noun
  | 0, _, _, _ => .never
  | n + 1, sut, axe, vit =>
      match sut with
      | .noun => return op 1 (.atom 0)
      | .void => return op 1 (.atom 1)
      | .atom _ => virt (flip (op 3 (op 0 (.atom axe))))
      | .bull .. => throw ()
      | .cell p q => do
          let hut := op 3 (op 0 (.atom axe))
          let lef ← virt (peg axe 2)
          let rit ← virt (peg axe 3)
          let hed ← fishIn van n p lef vit
          let tal ← fishIn van n q rit vit
          let hob ← virt (flan hed tal)
          virt (flan hut hob)
      | .core .. => return op 0 (.atom 0)
      | .cube p _ => return op 5 (.cell (op 1 p) (op 0 (.atom axe)))
      | .face _ q => fishIn van n q axe vit
      | .fork p q => do
          let hed ← fishIn van n p axe vit
          let tal ← fishIn van n q axe vit
          virt (flor hed tal)
      | .hold p =>
          -- the arm makes a formula that crashes here
          if sut ∈ vit then throw ()
          else do
            let fop ← van.rest p
            fishIn van n fop axe (sut :: vit)

/-- `fish`. -/
def fish (van : Ut.Van) (n : Nat) (sut : Ut.Ty) (axe : Nat) : Virt Noun := fishIn van n sut axe []

/-- How many cells of a plain type lie below each other. -/
def height : Ut.Ty → Nat
  | .cell p q => max (height p) (height q) + 1
  | .fork p q => max (height p) (height q)
  | .face _ q => height q
  | _ => 0

theorem fishIn_settles (van : Ut.Van) (vit : List Ut.Ty) {t : Ut.Ty} (ht : t.Plain) {axe : Nat}
    (hsize : axe.size + height t < 2 ^ 30) :
    Settles (fun n => fishIn van n t axe vit) (pure (Ut.test t axe).noun) := by
  induction t generalizing axe with
  | noun | void | atom | cube => exact .call (fun _ => rfl) (.const _)
  | cell p q ihp ihq =>
      have htwo : Nat.size 2 = 2 := by decide
      have hthree : Nat.size 3 = 2 := by decide
      have hlef : peg axe 2 = .ok (Ut.peg axe 2) := peg_eq (by omega) (by omega)
      have hrit : peg axe 3 = .ok (Ut.peg axe 3) := peg_eq (by omega) (by omega)
      have hl := Ut.size_peg axe (show 0 < 2 by omega)
      have hr := Ut.size_peg axe (show 0 < 3 by omega)
      rw [height] at hsize
      have hp := @ihp ht.1 (Ut.peg axe 2) (by omega)
      have hq := @ihq ht.2 (Ut.peg axe 3) (by omega)
      have hinner := Ut.flags_flan (Ut.test_flags p (Ut.peg axe 2)) (Ut.test_flags q (Ut.peg axe 3))
      have hob : flan (Ut.test p (Ut.peg axe 2)).noun (Ut.test q (Ut.peg axe 3)).noun = .ok _ :=
        flan_eq (a := .atom 0) (Ut.test_flags p _ _) (Ut.test_flags q _ _)
      have hall : flan (Ut.Nock.wut (.slot axe)).noun _ = .ok _ :=
        flan_eq (a := .atom 0) (Ut.flags_wut _ _) (hinner _)
      have hbody : ∀ n, fishIn van (n + 1) (.cell p q) axe vit
          = (fishIn van n p (Ut.peg axe 2) vit >>= fun hed =>
              fishIn van n q (Ut.peg axe 3) vit >>= fun tal =>
              virt (flan hed tal) >>= fun hob => virt (flan (op 3 (op 0 (.atom axe))) hob)) := by
        intro n
        rw [fishIn, hlef, hrit]
        rfl
      refine .call hbody (.bind hp (.bind hq ?_))
      rw [hob]
      show Settles (fun _ => virt (flan (Ut.Nock.wut (.slot axe)).noun _)) _
      rw [hall]
      exact .const _
  | face p q ih => exact .call (fun _ => rfl) (ih ht hsize)
  | fork p q ihp ihq =>
      rw [height] at hsize
      have hflor : flor (Ut.test p axe).noun (Ut.test q axe).noun = .ok _ :=
        flor_eq (a := .atom 0) (Ut.test_flags p axe _) (Ut.test_flags q axe _)
      refine .call (fun _ => rfl) (.bind (ihp ht.1 (by omega)) (.bind (ihq ht.2 (by omega)) ?_))
      rw [hflor]
      exact .const _
  | bull | core | hold => exact ht.elim

/-- The formula of a plain type says, of every subject that has the axis, whether the noun
there is one of the type, and the jet makes the same formula of what fits in the loom. -/
theorem fish_tests (van : Ut.Van) (t : Ut.Ty) (ht : t.Plain) (axe : Nat) (a x : Noun)
    (hx : slot axe a = some x) :
    ∃ f : Ut.Nock, Settles (fun n => Ut.fish van n [] t axe) (pure f) ∧
      f.Gives a (.atom (if t.has x then 0 else 1)) ∧
      (Loomed a → height t < 2 ^ 28 → Settles (fun n => fish van n t axe) (pure f.noun)) := by
  refine ⟨Ut.test t axe, Ut.fish_settles van [] ht axe, Ut.test_gives t ht hx, ?_⟩
  intro ha hheight
  have haxe := ha.size_lt hx
  exact fishIn_settles van [] ht (by omega)

/-- A pair of a constant and an atom is found in the tail. -/
theorem fish_tests_pair : ∃ f : Ut.Nock,
    f.Gives (.cell (.atom 5) (.cell (.atom 1) (.atom 2))) (.atom 0) ∧
    Settles (fun n => fish ⟨fun _ => throw (), fun _ _ => throw (), fun _ _ _ => throw ()⟩ n
      (.cell (.cube (.atom 1) (.atom 0)) (.atom 0)) 3) (pure f.noun) := by
  obtain ⟨f, -, hgives, hjet⟩ := fish_tests
    ⟨fun _ => throw (), fun _ _ => throw (), fun _ _ _ => throw ()⟩
    (.cell (.cube (.atom 1) (.atom 0)) (.atom 0)) (by simp [Ut.Ty.Plain]) 3
    (.cell (.atom 5) (.cell (.atom 1) (.atom 2))) (.cell (.atom 1) (.atom 2)) (slot_three _ _)
  exact ⟨f, hgives, hjet (by unfold Loomed; decide) (by decide)⟩

end Vere.Jets
