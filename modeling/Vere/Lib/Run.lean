import Mathlib.Tactic.Common

/-!
# Vere.Lib.Run

Programs with state, non-local exits and a bound on recursion.

A run takes a state to a result and a state. The result is a value, a *stop*
(a long jump that unwinds to the nearest handler) or `spent`, the marker of a
computation that was cut off by its recursion bound. A stop does not undo what
was done to the state before it.

The rules for the constructs are about triples `Triple P x Q`: from a state in `P`
the run ends with a result and a state in `Q`.
-/

namespace Vere.Lib

/-- How a run ends. -/
inductive Res (ε α : Type)
  | ok (a : α)
  | stop (e : ε)
  | spent
  deriving Repr, DecidableEq

/-- A program over states `σ` that can stop with an `ε`. -/
structure Run (σ ε α : Type) where
  run : σ → Res ε α × σ

namespace Run

variable {σ ε α β ι : Type}

/-- Stop at once. -/
def stop (e : ε) : Run σ ε α := ⟨fun s => (.stop e, s)⟩

/-- A computation that was cut off. -/
def spent : Run σ ε α := ⟨fun s => (.spent, s)⟩

/-- Read a part of the state. -/
def read (f : σ → α) : Run σ ε α := ⟨fun s => (.ok (f s), s)⟩

/-- Change the state. -/
def modify (f : σ → σ) : Run σ ε Unit := ⟨fun s => (.ok (), f s)⟩

/-- Run `x`, and on a stop run the handler in the state the stop left. -/
def handle (x : Run σ ε α) (h : ε → Run σ ε α) : Run σ ε α := ⟨fun s =>
  match x.run s with
  | (.stop e, s') => (h e).run s'
  | r => r⟩

/-- Run `x`, and on a value run the continuation. -/
def andThen (x : Run σ ε α) (f : α → Run σ ε β) : Run σ ε β := ⟨fun s =>
  match x.run s with
  | (.ok a, s') => (f a).run s'
  | (.stop e, s') => (.stop e, s')
  | (.spent, s') => (.spent, s')⟩

instance : Monad (Run σ ε) where
  pure a := ⟨fun s => (.ok a, s)⟩
  bind := andThen

@[simp] theorem run_pure (a : α) (s : σ) : (pure a : Run σ ε α).run s = (.ok a, s) := rfl
@[simp] theorem run_spent (s : σ) : (spent : Run σ ε α).run s = (.spent, s) := rfl
@[simp] theorem run_read (f : σ → α) (s : σ) : (read f : Run σ ε α).run s = (.ok (f s), s) :=
  rfl
@[simp] theorem run_modify (f : σ → σ) (s : σ) :
    (modify f : Run σ ε Unit).run s = (.ok (), f s) := rfl

theorem run_bind (x : Run σ ε α) (f : α → Run σ ε β) (s : σ) :
    (x >>= f).run s =
      match x.run s with
      | (.ok a, s') => (f a).run s'
      | (.stop e, s') => (.stop e, s')
      | (.spent, s') => (.spent, s') := rfl

@[simp] theorem run_pure_bind (a : α) (f : α → Run σ ε β) (s : σ) :
    ((pure a : Run σ ε α) >>= f).run s = (f a).run s := rfl
@[simp] theorem run_read_bind (g : σ → α) (f : α → Run σ ε β) (s : σ) :
    ((read g : Run σ ε α) >>= f).run s = (f (g s)).run s := rfl
@[simp] theorem run_modify_bind (g : σ → σ) (f : Unit → Run σ ε β) (s : σ) :
    ((modify g : Run σ ε Unit) >>= f).run s = (f ()).run (g s) := rfl
@[simp] theorem run_stop_bind (e : ε) (f : α → Run σ ε β) (s : σ) :
    ((stop e : Run σ ε α) >>= f).run s = (.stop e, s) := rfl

theorem run_handle (x : Run σ ε α) (h : ε → Run σ ε α) (s : σ) :
    (handle x h).run s =
      match x.run s with
      | (.stop e, s') => (h e).run s'
      | r => r := rfl

/-! ### Triples -/

/-- From a state in `P` the run ends with a result and a state in `Q`. -/
def Triple (P : σ → Prop) (x : Run σ ε α) (Q : Res ε α → σ → Prop) : Prop :=
  ∀ s, P s → Q (x.run s).1 (x.run s).2

variable {P : σ → Prop} {x : Run σ ε α} {Q Q' : Res ε α → σ → Prop}

theorem Triple.imp (h : Triple P x Q) (hq : ∀ r s, Q r s → Q' r s) : Triple P x Q' :=
  fun s hs => hq _ _ (h s hs)

theorem triple_pure {a : α} (h : ∀ s, P s → Q (.ok a) s) : Triple P (pure a) Q := h

theorem triple_stop {e : ε} (h : ∀ s, P s → Q (.stop e) s) : Triple P (stop e) Q := h

theorem triple_spent (h : ∀ s, P s → Q .spent s) : Triple P (spent : Run σ ε α) Q := h

/-- Sequencing: what the first part guarantees of a value is what the second may
use; what it guarantees of a stop or a cut must be enough as it is. -/
theorem Triple.bind {f : α → Run σ ε β} {R : Res ε β → σ → Prop}
    (hx : Triple P x Q) (hf : ∀ a, Triple (Q (.ok a)) (f a) R)
    (he : ∀ e s, Q (.stop e) s → R (.stop e) s) (hn : ∀ s, Q .spent s → R .spent s) :
    Triple P (x >>= f) R := by
  intro s hs
  have h := hx s hs
  rw [run_bind]
  revert h
  rcases x.run s with ⟨r, s'⟩
  intro h
  cases r with
  | ok a => exact hf a s' h
  | stop e => exact he e s' h
  | spent => exact hn s' h

theorem Triple.handle {h : ε → Run σ ε α} {R : Res ε α → σ → Prop} (hx : Triple P x R)
    (hok : ∀ a s, R (.ok a) s → Q (.ok a) s) (hh : ∀ e, Triple (R (.stop e)) (h e) Q)
    (hn : ∀ s, R .spent s → Q .spent s) : Triple P (handle x h) Q := by
  intro s hs
  have hxs := hx s hs
  rw [run_handle]
  revert hxs
  rcases x.run s with ⟨r, s'⟩
  intro hxs
  cases r with
  | ok a => exact hok a s' hxs
  | stop e => exact hh e s' hxs
  | spent => exact hn s' hxs

/-! ### Effects -/

/-- Whatever the run does to the state, and however it ends, is within `R`. -/
def Within (R : σ → σ → Prop) (x : Run σ ε α) : Prop := ∀ s, R s (x.run s).2

section Within

variable {R : σ → σ → Prop} (refl : ∀ s, R s s) (trans : ∀ s t u, R s t → R t u → R s u)

include refl

theorem within_pure (a : α) : Within R (pure a : Run σ ε α) := fun s => refl s

theorem within_stop (e : ε) : Within R (stop e : Run σ ε α) := fun s => refl s

theorem within_read (f : σ → α) : Within R (read f : Run σ ε α) := fun s => refl s

omit refl

theorem within_modify {f : σ → σ} (h : ∀ s, R s (f s)) : Within R (modify f : Run σ ε Unit) := h

include trans

theorem Within.bind {f : α → Run σ ε β} (hx : Within R x) (hf : ∀ a, Within R (f a)) :
    Within R (x >>= f) := by
  intro s
  have h := hx s
  rw [run_bind]
  revert h
  rcases x.run s with ⟨r, s'⟩
  intro h
  cases r with
  | ok a => exact trans _ _ _ h (hf a s')
  | stop e => exact h
  | spent => exact h

end Within

end Run

end Vere.Lib
