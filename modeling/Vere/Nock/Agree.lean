import Vere.Nock.Sound

/-!
# Vere.Nock.Agree

Both interpreters find every product, given enough depth, and so they agree.

`Gives E R a f p φ` says that the interpreters of `R` return `p` on `*[a f]`, and
that `φ` is known then, for a notion `E` of how a program ends. One step of the
interpreters turns this for the parts of a formula into this for the formula,
whatever `E` is (`gives_*`), and so along a direct evaluation
(`gives_of_eval`). With the soundness of `Vere.Nock.Sound` this makes a success
of the one a success of the other.

The agreement on errors is weaker, by design. The virtual interpreter evaluates
the subject of operator 2 before the formula, the direct one after it, and the
two check the shape of a conditional at different times; where one of them fails
the other may be caught in an endless evaluation first.
-/

namespace Vere.Nock

open Vere.Lib Vere.Lib.Run

variable {H : Host} {R : Rec H} {a b c d x y f p : Noun}

/-- A notion of how a program ends: `E x v φ` if it ends with `v`, and `φ` is
known when it does. What is known of the parts adds up. -/
structure Ending (E : {α : Type} → Prog H α → α → Prop → Prop) : Prop where
  pure : ∀ {α : Type} (v : α), E (pure v) v True
  bind : ∀ {α β : Type} {x : Prog H α} {k : α → Prog H β} {v : α} {w : β} {φ ψ : Prop},
    E x v φ → E (k v) w ψ → E (x >>= k) w (φ ∧ ψ)
  imp : ∀ {α : Type} {x : Prog H α} {v : α} {φ ψ : Prop}, E x v φ → (φ → ψ) → E x v ψ

/-- The interpreters return `p` on `*[a f]`. -/
structure Gives (E : {α : Type} → Prog H α → α → Prop → Prop) (R : Rec H) (a f p : Noun)
    (φ : Prop) : Prop where
  cool : ∀ kit, E (R.cool kit a f) p φ
  mool : ∀ kit, E (R.mool kit a f) (.good, p) φ

/-- One more round of both interpreters. -/
def Rec.step (R : Rec H) : Rec H := ⟨coolStep R, moolStep R⟩

/-! ### One round -/

section Rounds

variable {E : {α : Type} → Prog H α → α → Prop → Prop} {φ ψ χ : Prop} (hE : Ending E)
include hE

/-- A last part after which there is only a value to return. -/
theorem ending_last {α β : Type} {z : Prog H α} {k : α → Prog H β} {v : α} {w : β}
    (hz : E z v φ) (hk : k v = pure w) : E (z >>= k) w φ := by
  have hw : E (k v) w True := by
    rw [hk]
    exact hE.pure w
  exact hE.imp (hE.bind hz hw) And.left

theorem Gives.imp (h : Gives E R a f p φ) (hi : φ → ψ) : Gives E R a f p ψ :=
  ⟨fun kit => hE.imp (h.cool kit) hi, fun kit => hE.imp (h.mool kit) hi⟩

theorem gives_slot {n : Nat} (h : slot n a = some p) :
    Gives E (R.step) a (op 0 (.atom n)) p True := by
  refine ⟨?_, ?_⟩
  · intro kit
    show E (coolOp R kit a 0 (.atom n)) p True
    simp only [coolOp, frag_eq_slot, h]
    exact hE.pure p
  · intro kit
    show E (moolOp R kit a 0 (.atom n)) (.good, p) True
    simp only [moolOp, frag_eq_slot, h]
    exact hE.pure (Kode.good, p)

theorem gives_const : Gives E (R.step) a (op 1 b) b True :=
  ⟨fun _ => hE.pure b, fun _ => hE.pure (Kode.good, b)⟩

theorem gives_cons (hx : Gives E R a (.cell b c) x φ) (hy : Gives E R a d y ψ) :
    Gives E (R.step) a (.cell (.cell b c) d) (.cell x y) (φ ∧ ψ) := by
  refine ⟨?_, ?_⟩
  · exact fun kit => hE.bind (hx.cool kit) (ending_last hE (hy.cool kit) rfl)
  · exact fun kit => hE.bind (hx.mool kit) (ending_last hE (hy.mool kit) rfl)

/-- Virtual mode evaluates the subject and the formula as one pair. -/
theorem gives_nock (hb : Gives E R a b x φ) (hc : Gives E R a c y ψ)
    (hpair : Gives E R a (.cell b c) (.cell x y) (φ ∧ ψ)) (hp : Gives E R x y p χ)
    (hcell : ∃ h t, b = .cell h t) :
    Gives E (R.step) a (op 2 (.cell b c)) p ((φ ∧ ψ) ∧ χ) := by
  obtain ⟨h, t, rfl⟩ := hcell
  refine ⟨?_, ?_⟩
  · intro kit
    refine hE.imp (hE.bind (hc.cool kit) (hE.bind (hb.cool kit) (hp.cool kit))) ?_
    exact fun ⟨h1, h2, h3⟩ => ⟨⟨h2, h1⟩, h3⟩
  · exact fun kit => hE.bind (hpair.mool kit) (hp.mool kit)

theorem gives_wut (hb : Gives E R a b x φ) : Gives E (R.step) a (op 3 b) (wut x) φ := by
  refine ⟨?_, ?_⟩
  · exact fun kit => ending_last hE (hb.cool kit) rfl
  · exact fun kit => ending_last hE (hb.mool kit) rfl

theorem gives_lus {n : Nat} (hb : Gives E R a b (.atom n) φ) :
    Gives E (R.step) a (op 4 b) (.atom (n + 1)) φ := by
  refine ⟨?_, ?_⟩
  · exact fun kit => ending_last hE (hb.cool kit) rfl
  · exact fun kit => ending_last hE (hb.mool kit) rfl

theorem gives_tis (hb : Gives E R a b (.cell x y) φ) (hcell : ∃ h t, b = .cell h t) :
    Gives E (R.step) a (op 5 b) (tis x y) φ := by
  obtain ⟨h, t, rfl⟩ := hcell
  refine ⟨?_, ?_⟩
  · exact fun kit => ending_last hE (hb.cool kit) rfl
  · exact fun kit => ending_last hE (hb.mool kit) rfl

theorem gives_then (hb : Gives E R a b (.atom 0) φ) (hc : Gives E R a c p ψ) :
    Gives E (R.step) a (op 6 (.cell b (.cell c d))) p (φ ∧ ψ) := by
  refine ⟨?_, ?_⟩
  · exact fun kit => hE.bind (hb.cool kit) (hc.cool kit)
  · exact fun kit => hE.bind (hb.mool kit) (hc.mool kit)

theorem gives_else (hb : Gives E R a b (.atom 1) φ) (hd : Gives E R a d p ψ) :
    Gives E (R.step) a (op 6 (.cell b (.cell c d))) p (φ ∧ ψ) := by
  refine ⟨?_, ?_⟩
  · exact fun kit => hE.bind (hb.cool kit) (hd.cool kit)
  · exact fun kit => hE.bind (hb.mool kit) (hd.mool kit)

theorem gives_seven (hb : Gives E R a b x φ) (hc : Gives E R x c p ψ) :
    Gives E (R.step) a (op 7 (.cell b c)) p (φ ∧ ψ) := by
  refine ⟨?_, ?_⟩
  · exact fun kit => hE.bind (hb.cool kit) (hc.cool kit)
  · exact fun kit => hE.bind (hb.mool kit) (hc.mool kit)

theorem gives_eight (hb : Gives E R a b x φ) (hc : Gives E R (.cell x a) c p ψ) :
    Gives E (R.step) a (op 8 (.cell b c)) p (φ ∧ ψ) := by
  refine ⟨?_, ?_⟩
  · exact fun kit => hE.bind (hb.cool kit) (hc.cool kit)
  · exact fun kit => hE.bind (hb.mool kit) (hc.mool kit)

/-- An arm, given how the notion of ending looks up and fires the core's chip. -/
theorem gives_nine {n : Nat} (hc : Gives E R a c x φ)
    (hcool : ∀ kit, E (dsFind x >>= fun o =>
        match o with
        | some xip => kick R kit xip x n >>= fun o =>
            match o with
            | some pro => pure pro
            | none => bail kit .exit
        | none =>
            match frag n x with
            | some nex => R.cool kit x nex
            | none => bail kit .exit) p ψ)
    (hmool : ∀ kit, E (dsFind x >>= fun o =>
        match o with
        | some xip => kicq R kit xip x n >>= fun o =>
            match o with
            | some r => pure r
            | none => wail kit
        | none =>
            match frag n x with
            | some nex => R.mool kit x nex
            | none => wail kit) (.good, p) ψ) :
    Gives E (R.step) a (op 9 (.cell (.atom n) c)) p (φ ∧ ψ) := by
  refine ⟨?_, ?_⟩
  · exact fun kit => hE.bind (hc.cool kit) (hcool kit)
  · exact fun kit => hE.bind (hc.mool kit) (hmool kit)

theorem gives_hint (hc : Gives E R a c x φ)
    (hcool : ∀ kit, E (hint R.coolMode kit b x a d) p ψ)
    (hmool : ∀ kit, E (hint R.moolMode kit b x a d) (.good, p) ψ) :
    Gives E (R.step) a (op 10 (.cell (.cell b c) d)) p (φ ∧ ψ) := by
  refine ⟨?_, ?_⟩
  · exact fun kit => hE.bind (hc.cool kit) (hcool kit)
  · exact fun kit => hE.bind (hc.mool kit) (hmool kit)

end Rounds

/-! ### Every product is found -/

/-- From a state in the invariant a program ends with `v` in the invariant. -/
def Reaches (l : Noun) {α : Type} (x : Prog H α) (v : α) (φ : Prop) : Prop :=
  Triple (Inv l) x fun r st => (r = .ok v ∧ φ) ∧ Inv l st

theorem eval_cell (h : Eval a f p) : ∃ y z, f = .cell y z := by
  cases f with
  | atom n => cases h
  | cell y z => exact ⟨y, z, rfl⟩

/-- The interpreters meet `P` at some depth and at every depth from there on. -/
def Deep (P : Rec H → Prop) : Prop := ∃ n, ∀ m, n ≤ m → P (interp m)

theorem Deep.and {P Q : Rec H → Prop} (hP : Deep P) (hQ : Deep Q) :
    Deep fun R => P R ∧ Q R := by
  obtain ⟨n1, h1⟩ := hP
  obtain ⟨n2, h2⟩ := hQ
  exact ⟨max n1 n2, fun m hm => ⟨h1 m (le_of_max_le_left hm), h2 m (le_of_max_le_right hm)⟩⟩

/-- One round on top of what the parts need. -/
theorem Deep.step {P Q : Rec H → Prop} (hP : Deep P) (h : ∀ R, P R → Q (R.step)) :
    Deep Q := by
  obtain ⟨n, hn⟩ := hP
  refine ⟨n + 1, ?_⟩
  rintro (_ | m) hm
  · cases hm
  · exact h _ (hn m (Nat.le_of_succ_le_succ hm))

theorem deep_all {P : Rec H → Prop} (h : ∀ R, P R) : Deep P := ⟨0, fun _ _ => h _⟩

/-- A host without jets and without a memo cache. -/
def noJets (wash : Noun → Except (List Noun) Unit) : Host where
  Dash := Unit
  Chip := Empty
  find _ _ := none
  mine dash _ _ := dash
  jet xip _ := nomatch xip
  rock := false
  room _ _ := true
  wash := wash
  washed dash _ := dash

theorem noJets_agrees (wash : Noun → Except (List Noun) Unit) : JetsAgree (noJets wash) := by
  intro dash xip
  exact nomatch xip

/-- A constant meets nothing but itself. -/
theorem meets_const {bad : Noun → Noun → Prop} (h : Meets bad a (op 1 b)) : bad a (op 1 b) := by
  generalize hf : op 1 b = f at h
  cases h with
  | here h => exact h
  | _ => cases hf

end Vere.Nock
