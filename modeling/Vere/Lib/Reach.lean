import Mathlib.Tactic.Common

/-!
# Vere.Lib.Reach

Systems that take one step after another.

A system is a start and a partial step function: `step a s` is the state after
the action `a`, if `a` can happen in `s`. The states reached by steps that all
meet a condition are `Reachable`; an invariant needs the condition only for the
one step it is about.
-/

namespace Vere.Lib

variable {σ α : Type} {init : σ} {step : α → σ → Option σ} {ok ok' : σ → α → Prop}

/-- The states that steps which meet `ok` lead to. -/
inductive Reachable (init : σ) (step : α → σ → Option σ) (ok : σ → α → Prop) : σ → Prop
  | init : Reachable init step ok init
  | step {s s' : σ} {a : α} (hs : Reachable init step ok s) (ha : ok s a)
      (h : step a s = some s') : Reachable init step ok s'

/-- What holds at the start and is kept by every step that meets the condition
holds in every state reached. -/
theorem Reachable.invariant {P : σ → Prop} (hinit : P init)
    (hstep : ∀ s a s', P s → ok s a → step a s = some s' → P s') {s : σ}
    (h : Reachable init step ok s) : P s := by
  induction h with
  | init => exact hinit
  | step hs ha h ih => exact hstep _ _ _ ih ha h

theorem Reachable.mono (hok : ∀ s a, ok s a → ok' s a) {s : σ}
    (h : Reachable init step ok s) : Reachable init step ok' s := by
  induction h with
  | init => exact .init
  | step hs ha h ih => exact .step ih (hok _ _ ha) h

/-- One action after another. -/
def runs (step : α → σ → Option σ) : List α → σ → Option σ
  | [], s => some s
  | a :: as, s => (step a s).bind (runs step as)

/-- Two systems that keep a relation in every action they both take keep it in a run. -/
theorem runs_sim {τ : Type} {step' : α → τ → Option τ} {R : σ → τ → Prop}
    (hstep : ∀ a s t s' t', R s t → step a s = some s' → step' a t = some t' → R s' t')
    (as : List α) {s s' : σ} {t t' : τ} (h : R s t) (hs : runs step as s = some s')
    (ht : runs step' as t = some t') : R s' t' := by
  induction as generalizing s t with
  | nil =>
      cases hs
      cases ht
      exact h
  | cons a as ih =>
      obtain ⟨s₁, hs₁, hs⟩ := Option.bind_eq_some_iff.mp hs
      obtain ⟨t₁, ht₁, ht⟩ := Option.bind_eq_some_iff.mp ht
      exact ih (hstep a s t s₁ t₁ h hs₁ ht₁) hs ht

/-- A run whose steps need no condition ends in a state that is reached. -/
theorem Reachable.runs (hok : ∀ s a, ok s a) (as : List α) {s s' : σ}
    (hs : Reachable init step ok s) (h : runs step as s = some s') :
    Reachable init step ok s' := by
  induction as generalizing s with
  | nil =>
      cases h
      exact hs
  | cons a as ih =>
      obtain ⟨s₁, h₁, h₂⟩ := Option.bind_eq_some_iff.mp h
      exact ih (.step hs (hok s a) h₁) h₂

/-- A test that the end of a run passes is passed by a state that is reached. -/
theorem Reachable.of_runs (hok : ∀ s a, ok s a) (as : List α) {P : σ → Bool}
    (h : (Lib.runs step as init).any P = true) : ∃ s, Reachable init step ok s ∧ P s = true := by
  cases hs : Lib.runs step as init with
  | none =>
      rw [hs] at h
      cases h
  | some s =>
      rw [hs] at h
      exact ⟨s, Reachable.runs hok as .init hs, h⟩

/-- Steps that meet the condition are among those of another system. -/
theorem Reachable.sim {step' : α → σ → Option σ}
    (hsim : ∀ s a s', ok' s a → step' a s = some s' → ok s a ∧ step a s = some s') {s : σ}
    (h : Reachable init step' ok' s) : Reachable init step ok s := by
  induction h with
  | init => exact .init
  | step hs ha h ih =>
      obtain ⟨ha', h'⟩ := hsim _ _ _ ha h
      exact .step ih ha' h'

/-- The system in which an action has to pass a test. -/
def guarded (test : σ → α → Bool) (step : α → σ → Option σ) (a : α) (s : σ) : Option σ :=
  if test s a then step a s else none

/-- A test that the end of a run passes, in which every step meets the condition. -/
theorem Reachable.of_guarded {test : σ → α → Bool} (htest : ∀ s a, test s a = true → ok s a)
    (as : List α) {P : σ → Bool} (h : (Lib.runs (guarded test step) as init).any P = true) :
    ∃ s, Reachable init step ok s ∧ P s = true := by
  obtain ⟨s, hs, hP⟩ :=
    @Reachable.of_runs _ _ init (guarded test step) (fun _ _ => True) (fun _ _ => trivial) as _ h
  refine ⟨s, hs.sim fun s a s' _ hstep => ?_, hP⟩
  obtain ⟨ht, hstep⟩ := Option.ite_none_right_eq_some.mp hstep
  exact ⟨htest s a ht, hstep⟩

/-- However the system goes on with steps that meet the condition, it comes to a stop,
and it stops only where `done` holds. -/
inductive Ends (step : α → σ → Option σ) (ok : σ → α → Prop) (done : σ → Prop) : σ → Prop
  | mk {s : σ} (hdone : (∀ a, ok s a → step a s = none) → done s)
      (hstep : ∀ a s', ok s a → step a s = some s' → Ends step ok done s') : Ends step ok done s

/-- A system stops if an invariant lets every step make a measure smaller. -/
theorem Ends.of_measure {P done : σ → Prop} (left : σ → Nat)
    (hkeep : ∀ s a s', P s → ok s a → step a s = some s' → P s' ∧ left s' < left s)
    (hdone : ∀ s, P s → (∀ a, ok s a → step a s = none) → done s) {s : σ} (hs : P s) :
    Ends step ok done s := by
  induction h : left s using Nat.strongRecOn generalizing s with
  | ind n ih =>
      refine .mk (hdone s hs) ?_
      intro a s' ha hstep
      obtain ⟨hs', hlt⟩ := hkeep s a s' hs ha hstep
      exact ih (left s') (h ▸ hlt) hs' rfl

end Vere.Lib
