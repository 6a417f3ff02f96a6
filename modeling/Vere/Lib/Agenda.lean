import Mathlib.Data.List.Basic
import Mathlib.Tactic.Common

/-!
# Vere.Lib.Agenda

A loop over things to do, each of which may give rise to more. What is new is done before what was
there, so that the loop does with a list what a recursion does with a tree: a thing, then all that
comes of it, then the next thing (`loop_iff`).
-/

namespace Vere.Lib.Agenda

variable {α β σ : Type} {step : α → σ → Option (List β × List α × σ)}

/-- The loop, with what came out of it so far, the latest first. -/
def loop (step : α → σ → Option (List β × List α × σ)) :
    Nat → List α → List β → σ → Option (List β × σ)
  | _, [], out, s => some (out.reverse, s)
  | 0, _ :: _, _, _ => none
  | n + 1, a :: as, out, s => do
      let (new, more, s) ← step a s
      loop step n (more ++ as) (new ++ out) s

/-- Things done one after another, each with all that comes of it. -/
inductive Does (step : α → σ → Option (List β × List α × σ)) :
    List α → σ → List β → σ → Prop
  | nil (s : σ) : Does step [] s [] s
  | cons {a : α} {as more : List α} {new out out' : List β} {s s₁ s₂ s₃ : σ}
      (h : step a s = some (new, more, s₁)) (hmore : Does step more s₁ out s₂)
      (hrest : Does step as s₂ out' s₃) : Does step (a :: as) s (new.reverse ++ out ++ out') s₃

theorem Does.append {as bs : List α} {out out' : List β} {s s₁ s₂ : σ}
    (h : Does step as s out s₁) (h' : Does step bs s₁ out' s₂) :
    Does step (as ++ bs) s (out ++ out') s₂ := by
  induction h with
  | nil s => exact h'
  | cons hstep hmore _ _ ih =>
      rw [List.append_assoc]
      exact .cons hstep hmore (ih h')

theorem Does.split {as bs : List α} {out : List β} {s s₂ : σ}
    (h : Does step (as ++ bs) s out s₂) :
    ∃ out₁ s₁ out₂, Does step as s out₁ s₁ ∧ Does step bs s₁ out₂ s₂ ∧ out = out₁ ++ out₂ := by
  induction as generalizing s out with
  | nil => exact ⟨[], s, out, .nil s, h, rfl⟩
  | cons a as ih =>
      cases h with
      | cons hstep hmore hrest =>
          obtain ⟨out₁, s₁, out₂, h₁, h₂, rfl⟩ := ih hrest
          exact ⟨_, s₁, out₂, .cons hstep hmore h₁, h₂, (List.append_assoc ..).symm⟩

/-- The loop does no more than the recursion. -/
theorem Does.of_loop {n : Nat} {as : List α} {acc out : List β} {s s' : σ}
    (h : loop step n as acc s = some (out, s')) :
    ∃ new, Does step as s new s' ∧ out = acc.reverse ++ new := by
  induction n generalizing as acc s with
  | zero =>
      cases as with
      | nil =>
          cases h
          exact ⟨[], .nil _, (List.append_nil _).symm⟩
      | cons a as => cases h
  | succ n ih =>
      cases as with
      | nil =>
          cases h
          exact ⟨[], .nil _, (List.append_nil _).symm⟩
      | cons a as =>
          obtain ⟨⟨new, more, s₁⟩, hstep, h⟩ := Option.bind_eq_some_iff.1 h
          obtain ⟨later, hdoes, rfl⟩ := ih h
          obtain ⟨out₁, s₂, out₂, h₁, h₂, rfl⟩ := hdoes.split
          refine ⟨_, .cons hstep h₁ h₂, ?_⟩
          rw [List.reverse_append, List.append_assoc, List.append_assoc]

/-- What the recursion does the loop does, and goes on. -/
theorem Does.loop {as : List α} {new : List β} {s s' : σ} (h : Does step as s new s') :
    ∃ k, ∀ n bs acc, loop step (n + k) (as ++ bs) acc s = loop step n bs (new.reverse ++ acc) s' := by
  induction h with
  | nil s => exact ⟨0, fun _ _ _ => rfl⟩
  | @cons a as more new out out' s s₁ s₂ s₃ hstep hmore hrest ih ih' =>
      obtain ⟨k, hk⟩ := ih
      obtain ⟨k', hk'⟩ := ih'
      refine ⟨k' + k + 1, fun n bs acc => ?_⟩
      rw [← Nat.add_assoc, ← Nat.add_assoc, List.cons_append, Agenda.loop, hstep]
      simp only [Option.bind_eq_bind, Option.bind_some]
      rw [hk, hk']
      simp only [List.reverse_append, List.reverse_reverse, List.append_assoc]

/-- A loop with enough fuel is the recursion. -/
theorem loop_iff {as : List α} {out : List β} {s s' : σ} :
    (∃ n, loop step n as [] s = some (out, s')) ↔ Does step as s out s' := by
  constructor
  · rintro ⟨n, h⟩
    obtain ⟨new, hdoes, rfl⟩ := Does.of_loop h
    exact hdoes
  · intro h
    obtain ⟨k, hk⟩ := h.loop
    refine ⟨0 + k, ?_⟩
    have hall := hk 0 [] []
    rw [List.append_nil, List.append_nil] at hall
    rw [hall]
    simp only [Agenda.loop, List.reverse_reverse]

end Vere.Lib.Agenda
