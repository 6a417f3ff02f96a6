import Mathlib.Data.List.Forall2
import Mathlib.Tactic.Common

/-!
# Vere.Lib.Each

Lists that a step changes element by element.

`List.Forall₂` relates the elements before a step to those after it. A fact about each
element, with a parameter of its own, goes along with such steps (`forall₂_step`), and a
partial map over a list is one (`mapM_forall₂`). A partial loop over a list keeps what each of its
rounds keeps (`foldlM_keeps`).
-/

namespace Vere.Lib

variable {α β κ : Type}

/-- What each element has by its parameter, and a change of each element keeps, the new
elements have. -/
theorem forall₂_step {R R' : κ → α → Prop} {S : α → α → Prop}
    (hstep : ∀ k a b, R k a → S a b → R' k b) {ks : List κ} {as bs : List α}
    (hR : List.Forall₂ R ks as) (hS : List.Forall₂ S as bs) : List.Forall₂ R' ks bs := by
  induction hR generalizing bs with
  | nil =>
      cases hS
      exact .nil
  | cons hr _ ih =>
      cases hS with
      | cons hs hS => exact .cons (hstep _ _ _ hr hs) (ih hS)

/-- The same for a fact without a parameter. -/
theorem forall_step {P P' : α → Prop} {S : α → α → Prop} (hstep : ∀ a b, P a → S a b → P' b)
    {as bs : List α} (hP : ∀ a ∈ as, P a) (hS : List.Forall₂ S as bs) : ∀ b ∈ bs, P' b := by
  induction hS with
  | nil => exact fun b hb => nomatch hb
  | @cons a b as bs hs _ ih =>
      intro c hc
      rcases List.mem_cons.mp hc with rfl | hc
      · exact hstep a c (hP a (List.mem_cons_self ..)) hs
      · exact ih (fun a ha => hP a (List.mem_cons_of_mem _ ha)) c hc

/-- A partial map takes each element to its image. -/
theorem mapM_forall₂ {f : α → Option β} {as : List α} {bs : List β}
    (h : as.mapM f = some bs) : List.Forall₂ (fun a b => f a = some b) as bs := by
  induction as generalizing bs with
  | nil =>
      cases h
      exact .nil
  | cons a as ih =>
      rw [List.mapM_cons] at h
      obtain ⟨b, hb, h⟩ := Option.bind_eq_some_iff.mp h
      obtain ⟨bs', hbs, h⟩ := Option.bind_eq_some_iff.mp h
      cases h
      exact .cons hb (ih hbs)

/-- A partial loop keeps what a round keeps. -/
theorem foldlM_keeps {σ : Type} {f : σ → α → Option σ} {I : σ → Prop} {l : List α}
    (step : ∀ s x s', x ∈ l → I s → f s x = some s' → I s') {s s' : σ} (hs : I s)
    (h : l.foldlM f s = some s') : I s' := by
  induction l generalizing s with
  | nil =>
      cases h
      exact hs
  | cons x l ih =>
      rw [List.foldlM_cons] at h
      obtain ⟨t, ht, h⟩ := Option.bind_eq_some_iff.mp h
      refine ih (fun s y s' hy => step s y s' (List.mem_cons_of_mem x hy)) ?_ h
      exact step s x t List.mem_cons_self hs ht

end Vere.Lib
