import Mathlib.Logic.Relation

/-!
# Vere.Lib.Ask

A recursion seen as a conversation: the body of a recursive function is a program that asks
for the values of other calls and goes on with the answers.

Written so, one body can be run in several ways. `fix` answers a question by running the
body again, which is the recursion itself with a bound; `Made` says which questions a run
asks, so a condition on a run can name the calls in it; and a run with a cache answers some
questions from the cache (`Vere.Lib.Memo`). What follows is about any body.
-/

namespace Vere.Lib

/-- What a run comes to: nothing, if it runs for ever, a crash or a value. -/
abbrev Ending := ExceptT Unit Option

/-- The run that does not end. -/
def Ending.never {α : Type} : Ending α := (none : Option (Except Unit α))

/-- A program that asks questions. It ends, in whichever way, or asks `q` and goes on with
the answer. -/
inductive Ask (Q : Type) (R : Q → Type) (α : Type)
  | stop (x : Ending α)
  | ask (q : Q) (k : R q → Ask Q R α)

namespace Ask

variable {Q : Type} {R : Q → Type} {α β : Type}

/-- One program after another. -/
def bind : Ask Q R α → (α → Ask Q R β) → Ask Q R β
  | stop none, _ => stop none
  | stop (some (.error e)), _ => stop (some (.error e))
  | stop (some (.ok a)), f => f a
  | ask q k, f => ask q fun r => (k r).bind f

instance : Monad (Ask Q R) where
  pure a := stop (pure a)
  bind := bind

/-- The program that asks one question. -/
def call (q : Q) : Ask Q R (R q) := ask q fun r => stop (pure r)

/-- Run a program with the questions answered by `rec`. -/
def run (rec : ∀ q, Ending (R q)) : Ask Q R α → Ending α
  | stop x => x
  | ask q k => rec q >>= fun r => (k r).run rec

/-- The recursion with the body `body`, with a bound on its depth. -/
def fix (body : ∀ q, Ask Q R (R q)) : Nat → ∀ q, Ending (R q)
  | 0, _ => .never
  | n + 1, q => (body q).run (fix body n)

section run

variable {rec : ∀ q, Ending (R q)}

@[simp] theorem run_pure (a : α) : (pure a : Ask Q R α).run rec = pure a := rfl

@[simp] theorem run_bind (t : Ask Q R α) (f : α → Ask Q R β) :
    (t >>= f).run rec = t.run rec >>= fun a => (f a).run rec := by
  show (t.bind f).run rec = _
  induction t with
  | stop x =>
      match x with
      | none => rfl
      | some (.error ()) => rfl
      | some (.ok a) => rfl
  | ask q k ih =>
      simp only [bind, run, ih, bind_assoc]

end run

/-! ### The questions of a run -/

/-- The question is asked by the program, if the answers are those of `ans`. -/
inductive Made (ans : ∀ q, R q → Prop) : Ask Q R α → Q → Prop
  | here {q : Q} {k : R q → Ask Q R α} : Made ans (ask q k) q
  | later {q q' : Q} {k : R q → Ask Q R α} {r : R q} (h : ans q r) (h' : Made ans (k r) q') :
      Made ans (ask q k) q'

theorem Made.mono {ans ans' : ∀ q, R q → Prop} (h : ∀ q r, ans q r → ans' q r) {t : Ask Q R α}
    {q : Q} (hq : t.Made ans q) : t.Made ans' q := by
  induction hq with
  | here => exact .here
  | later hr _ ih => exact .later (h _ _ hr) ih

/-- What the first of two programs asks, both ask. -/
theorem Made.bind {ans : ∀ q, R q → Prop} {t : Ask Q R α} {q : Q} (h : t.Made ans q)
    (f : α → Ask Q R β) : (t >>= f).Made ans q := by
  induction h with
  | here => exact .here
  | later hr _ ih => exact .later hr ih

/-- With more answers, a run that ends does not change. -/
theorem run_mono {rec rec' : ∀ q, Ending (R q)} (h : ∀ q x, rec q = some x → rec' q = some x)
    {t : Ask Q R α} {x : Except Unit α} (ht : t.run rec = some x) : t.run rec' = some x := by
  induction t with
  | stop y => exact ht
  | ask q k ih =>
      match hq : rec q with
      | none =>
          rw [run, hq] at ht
          cases ht
      | some (.error ()) =>
          rw [run, hq] at ht
          rw [run, h q _ hq]
          exact ht
      | some (.ok r) =>
          rw [run, hq] at ht
          rw [run, h q _ hq]
          exact ih r ht

section fix

variable {body : ∀ q, Ask Q R (R q)}

theorem fix_mono {n m : Nat} {q : Q} {x : Except Unit (R q)} (h : fix body n q = some x)
    (hle : n ≤ m) : fix body m q = some x := by
  induction n generalizing m q with
  | zero => cases h
  | succ n ih =>
      obtain ⟨m, rfl⟩ : ∃ k, m = k + 1 := ⟨m - 1, by omega⟩
      exact run_mono (fun q x hq => ih hq (by omega)) h

/-- The recursion comes to a value or to a crash. -/
def Comes (body : ∀ q, Ask Q R (R q)) (q : Q) (x : Except Unit (R q)) : Prop :=
  ∃ n, fix body n q = some x

theorem Comes.unique {q : Q} {x y : Except Unit (R q)} (hx : Comes body q x) (hy : Comes body q y) :
    x = y := by
  obtain ⟨n, hn⟩ := hx
  obtain ⟨m, hm⟩ := hy
  have hmax := fix_mono hn (Nat.le_max_left n m)
  rw [fix_mono hm (Nat.le_max_right n m)] at hmax
  exact (Option.some.inj hmax).symm

/-- The recursion comes to an answer. -/
def Gives (body : ∀ q, Ask Q R (R q)) (q : Q) (r : R q) : Prop := Comes body q (.ok r)

/-- The calls that a call leads to. -/
def Reaches (body : ∀ q, Ask Q R (R q)) : Q → Q → Prop :=
  Relation.ReflTransGen fun q q' => (body q).Made (Gives body) q'

theorem Reaches.self (q : Q) : Reaches body q q := .refl

theorem Reaches.step {q q' q'' : Q} (h : (body q).Made (Gives body) q') (h' : Reaches body q' q'') :
    Reaches body q q'' := .head h h'

end fix

end Ask

end Vere.Lib
