import Mathlib.Tactic.Common

/-!
# Vere.Lib.Settles

Recursion by fuel, seen from outside: what a function gives for every fuel that is large
enough.

A recursion whose arguments do not get smaller is written with a fuel argument and a result
for having run out. `Settles f c` says that the fuel is a formality: from some amount on
the result is always `c`. The rules follow the calls of such a function, so a proof that it
settles has the shape of its recursion and never mentions an amount of fuel.
-/

namespace Vere.Lib

/-- For every fuel from some amount on, the result is `c`. -/
def Settles {γ : Type} (f : Nat → γ) (c : γ) : Prop := ∃ N, ∀ n, N ≤ n → f n = c

namespace Settles

variable {γ : Type}

/-- A function settles on one result only. -/
theorem unique {f : Nat → γ} {c d : γ} (hc : Settles f c) (hd : Settles f d) : c = d := by
  obtain ⟨N, hN⟩ := hc
  obtain ⟨M, hM⟩ := hd
  rw [← hN (max N M) (Nat.le_max_left N M), hM (max N M) (Nat.le_max_right N M)]

/-- One call: with one unit of fuel more than `g` has, `f` returns what `g` does. -/
theorem call {f g : Nat → γ} {c : γ} (hf : ∀ n, f (n + 1) = g n) (hg : Settles g c) :
    Settles f c := by
  obtain ⟨N, hN⟩ := hg
  refine ⟨N + 1, ?_⟩
  intro n hn
  obtain ⟨m, rfl⟩ : ∃ m, n = m + 1 := ⟨n - 1, by omega⟩
  rw [hf, hN m (by omega)]

theorem const (c : γ) : Settles (fun _ => c) c := ⟨0, fun _ _ => rfl⟩

theorem comp {δ : Type} {f : Nat → γ} {c : γ} (hf : Settles f c) (g : γ → δ) :
    Settles (fun n => g (f n)) (g c) := by
  obtain ⟨N, hN⟩ := hf
  exact ⟨N, fun n hn => congrArg g (hN n hn)⟩

section monad

variable {m : Type → Type} [Monad m] [LawfulMonad m] {α δ : Type}

/-- A call whose result is used by another. -/
theorem bind {g : Nat → m α} {h : α → Nat → m δ} {x : α} {c : m δ}
    (hg : Settles g (pure x)) (hh : Settles (h x) c) :
    Settles (fun n => g n >>= fun y => h y n) c := by
  obtain ⟨N, hN⟩ := hg
  obtain ⟨M, hM⟩ := hh
  refine ⟨max N M, ?_⟩
  intro n hn
  show (g n >>= fun y => h y n) = c
  rw [hN n (Nat.le_trans (Nat.le_max_left N M) hn), pure_bind, hM n (Nat.le_trans (Nat.le_max_right N M) hn)]

/-- A loop over a list, each round of which settles and keeps what is known of the items done. -/
theorem foldlM {σ β : Type} {f : Nat → σ → β → m σ} (I : List β → σ → Prop) {l : List β} {s : σ}
    (hs : I [] s)
    (step : ∀ done s x, x ∈ l → I done s →
      ∃ s', Settles (fun n => f n s x) (pure s') ∧ I (done ++ [x]) s') :
    ∃ s', Settles (fun n => l.foldlM (f n) s) (pure s') ∧ I l s' := by
  -- the items done are generalized: the induction is on those that remain
  have key : ∀ todo done s, (∀ x ∈ todo, x ∈ l) → I done s →
      ∃ s', Settles (fun n => todo.foldlM (f n) s) (pure s') ∧ I (done ++ todo) s' := by
    intro todo
    induction todo with
    | nil =>
        intro done s _ hI
        refine ⟨s, ?_, by rwa [List.append_nil]⟩
        simp only [List.foldlM_nil]
        exact .const _
    | cons x todo ih =>
        intro done s hmem hI
        obtain ⟨s₁, h₁, hI₁⟩ := step done s x (hmem x List.mem_cons_self) hI
        obtain ⟨s₂, h₂, hI₂⟩ := ih (done ++ [x]) s₁ (fun y hy => hmem y (List.mem_cons_of_mem x hy)) hI₁
        refine ⟨s₂, ?_, by rwa [List.append_assoc] at hI₂⟩
        simp only [List.foldlM_cons]
        exact h₁.bind h₂
  exact key l [] s (fun _ hx => hx) hs

end monad

end Settles

end Vere.Lib
