import Vere.Ut.Comb
import Vere.Ut.Nest

/-!
# Vere.Ut.Fish

Types as tests: `+-fish:ut` is the formula that says whether the noun at an axis is one of
the type.

A child axis is looked at only behind the test that it exists. The formula of a plain type
has a product wherever its axis is there (`test_gives`), and wherever it has one it is a flag
(`test_flags`), which is what the folding of constants rests on.
-/

namespace Vere.Ut

open Vere.Hoon Vere.Lib Vere.Nock

/-- `+-fish:ut`. -/
def fish (van : Van) : Nat → List Ty → Ty → Nat → Virt Nock
  | 0, _, _, _ => .never
  | n + 1, vot, sut, axe =>
      match sut with
      | .void => return .const (.atom 1)
      | .noun => return .const (.atom 0)
      | .atom _ => return flip (.wut (.slot axe))
      | .bull .. => throw ()
      | .cell p q => do
          let hed ← fish van n vot p (peg axe 2)
          let tal ← fish van n vot q (peg axe 3)
          return flan (.wut (.slot axe)) (flan hed tal)
      | .core .. => return .slot 0
      | .cube p _ => return .tis (.const p) (.slot axe)
      | .face _ q => fish van n vot q axe
      | .fork p q => do
          let hed ← fish van n vot p axe
          let tal ← fish van n vot q axe
          return flor hed tal
      | .hold _ =>
          if sut ∈ vot then return .slot 0
          else do
            let rep ← repo van sut
            fish van n (sut :: vot) rep axe

/-- The formula of a plain type. -/
def test : Ty → Nat → Nock
  | .noun, _ => .const (.atom 0)
  | .atom _, axe => flip (.wut (.slot axe))
  | .cell p q, axe => flan (.wut (.slot axe)) (flan (test p (peg axe 2)) (test q (peg axe 3)))
  | .cube p _, axe => .tis (.const p) (.slot axe)
  | .face _ q, axe => test q axe
  | .fork p q, axe => flor (test p axe) (test q axe)
  | _, _ => .const (.atom 1)

theorem fish_settles (van : Van) (vot : List Ty) {t : Ty} (ht : t.Plain) (axe : Nat) :
    Settles (fun n => fish van n vot t axe) (pure (test t axe)) := by
  induction t generalizing axe with
  | noun | void | atom | cube => exact .call (fun _ => rfl) (.const _)
  | cell p q ihp ihq =>
      exact .call (fun _ => rfl) (.bind (ihp ht.1 _) (.bind (ihq ht.2 _) (.const _)))
  | face p q ih => exact .call (fun _ => rfl) (ih ht axe)
  | fork p q ihp ihq =>
      exact .call (fun _ => rfl) (.bind (ihp ht.1 axe) (.bind (ihq ht.2 axe) (.const _)))
  | bull | core | hold => exact ht.elim

/-! ### Flags -/

/-- A formula that produces nothing but flags, on any subject. -/
def Flags (f : Nock) : Prop := ∀ a p, f.Gives a p → p = .atom 0 ∨ p = .atom 1

section flags

variable {a p : Noun} {b n f : Nock}

theorem gives_wut : (Nock.wut f).Gives a p ↔ ∃ x, f.Gives a x ∧ p = wut x := by
  constructor
  · intro h
    cases Tar.eval h with
    | wut hx => exact ⟨_, hx.tar, rfl⟩
  · rintro ⟨x, hx, rfl⟩
    exact .wut hx

theorem gives_tis : (Nock.tis b n).Gives a p ↔ ∃ x y, b.Gives a x ∧ n.Gives a y ∧ p = tis x y := by
  constructor
  · intro h
    cases Tar.eval h with
    | tis hxy =>
        obtain ⟨x, y, heq, hx, hy⟩ := gives_auto.mp (show (Nock.auto b n).Gives a _ from hxy.tar)
        cases heq
        exact ⟨_, _, hx, hy, rfl⟩
  · rintro ⟨x, y, hx, hy, rfl⟩
    exact .tis (gives_auto.mpr ⟨x, y, rfl, hx, hy⟩)

theorem flags_const_zero : Flags (.const (.atom 0)) := fun _ _ h => .inl (gives_const.mp h)

theorem flags_const_one : Flags (.const (.atom 1)) := fun _ _ h => .inr (gives_const.mp h)

theorem flags_wut (f : Nock) : Flags (.wut f) := by
  intro a p h
  obtain ⟨x, -, rfl⟩ := gives_wut.mp h
  cases x with
  | atom a => exact .inr rfl
  | cell h t => exact .inl rfl

theorem flags_tis (b n : Nock) : Flags (.tis b n) := by
  intro a p h
  obtain ⟨x, y, -, -, rfl⟩ := gives_tis.mp h
  by_cases hxy : x = y
  · simp [tis, loob, hxy]
  · simp [tis, loob, hxy]

theorem flags_six {y : Nock} (hy : Flags y) (hn : Flags n) : Flags (.six b y n) := by
  intro a p h
  rcases gives_six.mp h with ⟨-, hp⟩ | ⟨-, hp⟩
  · exact hy a p hp
  · exact hn a p hp

theorem flags_flan (hb : Flags b) (hn : Flags n) : Flags (flan b n) := by
  unfold flan
  split
  · exact hb
  · exact hn
  · split
    · exact hn
    · exact hb
    · exact flags_six hn flags_const_one

theorem flags_flor (hb : Flags b) (hn : Flags n) : Flags (flor b n) := by
  unfold flor
  split
  · exact hn
  · exact hb
  · split
    · exact hb
    · exact hn
    · exact flags_six flags_const_zero hn

/-- A test produces nothing but flags, also where its axis is not there. -/
theorem test_flags (t : Ty) (axe : Nat) : Flags (test t axe) := by
  induction t generalizing axe with
  | noun => exact flags_const_zero
  | void | bull | core | hold => exact flags_const_one
  | atom p => exact flags_six flags_const_one flags_const_zero
  | cell p q ihp ihq => exact flags_flan (flags_wut _) (flags_flan (ihp _) (ihq _))
  | cube p q ih => exact flags_tis _ _
  | face p q ih => exact ih axe
  | fork p q ihp ihq => exact flags_flor (ihp axe) (ihq axe)

end flags

/-! ### What a test says -/

section gives

variable {a x : Noun} {b n : Nock} {u v : Bool}

theorem flan_gives (hb : b.Gives a (.atom (loob u))) (hn : u = true → n.Gives a (.atom (loob v))) :
    (flan b n).Gives a (.atom (loob (u && v))) := by
  apply flan_sound
  rw [gives_six]
  cases u with
  | true => exact .inl ⟨hb, hn rfl⟩
  | false => exact .inr ⟨hb, gives_const.mpr rfl⟩

theorem flor_gives (hb : b.Gives a (.atom (loob u))) (hn : n.Gives a (.atom (loob v))) :
    (flor b n).Gives a (.atom (loob (u || v))) := by
  apply flor_sound
  rw [gives_six]
  cases u with
  | true => exact .inl ⟨hb, gives_const.mpr rfl⟩
  | false => exact .inr ⟨hb, hn⟩

/-- Whether there is a cell at an axis. -/
theorem wut_gives {axe : Nat} (hx : slot axe a = some x) : (Nock.wut (.slot axe)).Gives a (wut x) :=
  gives_wut.mpr ⟨x, gives_slot.mpr hx, rfl⟩

/-- Where the axis is there, the test says whether the noun at it is one of the type. -/
theorem test_gives (t : Ty) (ht : t.Plain) {axe : Nat} (hx : slot axe a = some x) :
    (test t axe).Gives a (.atom (loob (t.has x))) := by
  induction t generalizing axe x with
  | noun => exact gives_const.mpr (by simp [loob])
  | void => exact gives_const.mpr (by simp [loob])
  | atom p =>
      refine gives_six.mpr ?_
      have hwut := wut_gives hx
      cases x with
      | atom y => exact .inr ⟨hwut, gives_const.mpr (by simp [loob])⟩
      | cell h t => exact .inl ⟨hwut, gives_const.mpr (by simp [loob])⟩
  | cell p q ihp ihq =>
      have hwut := wut_gives hx
      cases x with
      | atom y => exact flan_gives (u := false) (v := false) hwut (by intros; contradiction)
      | cell h t =>
          have hpos := pos_of_slot hx
          have hh : slot (peg axe 2) a = some h := by
            rw [slot_peg hpos (by omega), hx]
            exact slot_two h t
          have ht' : slot (peg axe 3) a = some t := by
            rw [slot_peg hpos (by omega), hx]
            exact slot_three h t
          rw [Ty.has_cell_cell]
          exact flan_gives (u := true) hwut fun _ => flan_gives (ihp ht.1 hh) fun _ => ihq ht.2 ht'
  | cube p q ih =>
      refine gives_tis.mpr ⟨p, x, gives_const.mpr rfl, gives_slot.mpr hx, ?_⟩
      rw [Ty.has_cube, tis]
      simp only [eq_comm]
  | face p q ih =>
      rw [Ty.has_face]
      exact ih ht hx
  | fork p q ihp ihq =>
      rw [Ty.has_fork]
      exact flor_gives (ihp ht.1 hx) (ihq ht.2 hx)
  | bull | core | hold => exact ht.elim

end gives

end Vere.Ut
