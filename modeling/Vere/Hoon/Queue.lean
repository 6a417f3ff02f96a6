import Mathlib.Data.List.Basic
import Vere.Hoon.Map

/-!
# Vere.Hoon.Queue

Queues (`++to` of `hoon.hoon`, section 2dC).

A queue is a binary tree whose order from right to left is the order of the queue: the head is
the rightmost entry and the tail is the leftmost. `++vor` on the entries decides which of them
is at the root, which no operation relies on. Each operation is read off the tree as a list
(`Qeu.list`); the rotations of `bal` do not change it.
-/

namespace Vere.Hoon

open Vere.Lib

/-- The order that balances a queue: any two entries can be compared. -/
structure Prior (α : Type) where
  vor : α → α → Bool
  total : ∀ a b, vor a b = true ∨ vor b a = true
  trans : ∀ a b c, vor a b = true → vor b c = true → vor a c = true

/-- `++vor` on the nouns that the entries are. -/
def Prior.ofNoun {α : Type} (mug : Noun → Nat) (noun : α → Noun) : Prior α where
  vor a b := Hoon.vor mug (noun a) (noun b)
  total a b := (vor_searchOrder mug).total (noun a) (noun b)
  trans a b c := (vor_searchOrder mug).trans (noun a) (noun b) (noun c)

/-- `++qeu`. -/
inductive Qeu (α : Type)
  | nil
  | node (n : α) (l r : Qeu α)
  deriving Repr, DecidableEq

namespace Qeu

variable {α : Type}

/-- The entries from the head to the tail. -/
def list : Qeu α → List α
  | nil => []
  | node n l r => r.list ++ n :: l.list

@[simp] theorem list_nil : (nil : Qeu α).list = [] := rfl

@[simp] theorem list_node (n : α) (l r : Qeu α) : (node n l r).list = r.list ++ n :: l.list := rfl

@[simp] theorem list_eq_nil (a : Qeu α) : a.list = [] ↔ a = nil := by
  cases a <;> simp

/-- The child of a root, taken apart, when it has to go above it. -/
def higher (o : Prior α) (n : α) : Qeu α → Option (α × Qeu α × Qeu α)
  | nil => none
  | node m x y => if o.vor n m then none else some (m, x, y)

theorem higher_eq_some {o : Prior α} {n m : α} {c x y : Qeu α} :
    higher o n c = some (m, x, y) ↔ c = node m x y ∧ o.vor n m = false := by
  cases c with
  | nil => simp [higher]
  | node k u v =>
    cases h : o.vor n k with
    | true =>
      simp only [higher, h, if_true, reduceCtorEq, node.injEq, false_iff]
      rintro ⟨⟨rfl, -, -⟩, hv⟩
      simp [h] at hv
    | false =>
      simp only [higher, h, Bool.false_eq_true, if_false, Option.some.injEq, Prod.mk.injEq,
        node.injEq, iff_self_and]
      rintro ⟨rfl, -, -⟩
      exact h

/-- How many entries come strictly before the one at the root, in the order that balances. -/
def above (o : Prior α) : Qeu α → Nat
  | nil => 0
  | node n l r => (node n l r).list.countP fun x => !o.vor n x

/-- A child that has to go above its parent has fewer entries left to go above it. -/
theorem countP_lt (o : Prior α) {n m : α} {es : List α} (hm : m ∈ es) (h : o.vor n m = false) :
    es.countP (fun x => !o.vor m x) < es.countP fun x => !o.vor n x := by
  have hmn : o.vor m n = true := (o.total n m).resolve_left (by simp [h])
  have hmm : o.vor m m = true := (o.total m m).elim id id
  have hle : ∀ x, (!o.vor m x) = true → (!o.vor n x) = true := by
    intro x hx
    cases hnx : o.vor n x with
    | false => rfl
    | true => simp [o.trans m n x hmn hnx] at hx
  obtain ⟨xs, ys, rfl⟩ := List.append_of_mem hm
  have hx := List.countP_mono_left (l := xs) fun x _ => hle x
  have hy := List.countP_mono_left (l := ys) fun x _ => hle x
  simp only [List.countP_append, List.countP_cons, hmm, h, Bool.not_true, Bool.not_false,
    if_true, Bool.false_eq_true, if_false]
  omega

/-- `bal`: rotate until the root is in its place. The entries and their order are those of the
tree it was given, which is also why it ends: each rotation leaves fewer entries to go above the
root. -/
def bal (o : Prior α) : (a : Qeu α) → { b : Qeu α // b.list = a.list }
  | nil => ⟨nil, rfl⟩
  | node n l r =>
    match hl : higher o n l with
    | some (m, x, y) =>
      have d := bal o (node n y r)
      have b := bal o (node m x d.val)
      ⟨b.val, by simp [b.property, d.property, (higher_eq_some.mp hl).1]⟩
    | none =>
      match hr : higher o n r with
      | some (m, x, y) =>
        have d := bal o (node n l x)
        have b := bal o (node m d.val y)
        ⟨b.val, by simp [b.property, d.property, (higher_eq_some.mp hr).1]⟩
      | none => ⟨node n l r, rfl⟩
termination_by a => (a.list.length, above o a)
decreasing_by
  · obtain ⟨rfl, -⟩ := higher_eq_some.mp hl
    exact Prod.Lex.left _ _ (by simp)
  · obtain ⟨rfl, hv⟩ := higher_eq_some.mp hl
    have he : (node m x d.val).list = (node n (node m x y) r).list := by simp [d.property]
    rw [he]
    refine Prod.Lex.right _ ?_
    simp only [above]
    rw [he]
    exact countP_lt o (by simp) hv
  · obtain ⟨rfl, -⟩ := higher_eq_some.mp hr
    exact Prod.Lex.left _ _ (by simp; omega)
  · obtain ⟨rfl, hv⟩ := higher_eq_some.mp hr
    have he : (node m d.val y).list = (node n l (node m x y)).list := by simp [d.property]
    rw [he]
    refine Prod.Lex.right _ ?_
    simp only [above]
    rw [he]
    exact countP_lt o (by simp) hv

/-- The left child goes above the root. -/
theorem bal_left {o : Prior α} {n m : α} {l r x y : Qeu α} (hl : higher o n l = some (m, x, y)) :
    (bal o (node n l r)).val = (bal o (node m x (bal o (node n y r)).val)).val := by
  rw [bal]
  split
  · next hl' =>
    rw [hl] at hl'
    cases hl'
    rfl
  · next hl' => simp [hl] at hl'

/-- The right child goes above the root. -/
theorem bal_right {o : Prior α} {n m : α} {l r x y : Qeu α} (hl : higher o n l = none)
    (hr : higher o n r = some (m, x, y)) :
    (bal o (node n l r)).val = (bal o (node m (bal o (node n l x)).val y)).val := by
  rw [bal]
  split
  · next hl' => simp [hl] at hl'
  · split
    · next hr' =>
      rw [hr] at hr'
      cases hr'
      rfl
    · next hr' => simp [hr] at hr'

/-- A tree whose root is in its place is left as it is. -/
theorem bal_done {o : Prior α} {n : α} {l r : Qeu α} (hl : higher o n l = none)
    (hr : higher o n r = none) : (bal o (node n l r)).val = node n l r := by
  rw [bal]
  split
  · next h => simp [hl] at h
  · split
    · next h => simp [hr] at h
    · rfl

@[simp] theorem list_bal (o : Prior α) (a : Qeu α) : (bal o a).val.list = a.list :=
  (bal o a).property

/-- `get`: head-tail pair. -/
def get (o : Prior α) : Qeu α → Option (α × Qeu α)
  | nil => none
  | node n l nil => some (n, l)
  | node n l (node m x y) => do
    let (p, q) ← get o (node m x y)
    match higher o n q with
    | none => return (p, node n l q)
    | some (k, u, v) => return (p, node k (node n l u) v)

/-- A queue that is not empty has a head. -/
theorem get_spec (o : Prior α) (n : α) (l r : Qeu α) :
    ∃ p q, get o (node n l r) = some (p, q) ∧ (node n l r).list = p :: q.list := by
  induction r generalizing n l with
  | nil => exact ⟨n, l, rfl, by simp⟩
  | node m x y _ ih =>
    obtain ⟨p, q, hg, hq⟩ := ih m x
    rw [list_node] at hq
    cases hv : higher o n q with
    | none => exact ⟨p, node n l q, by simp [get, hg, hv], by simp [hq]⟩
    | some c =>
      obtain ⟨k, u, v⟩ := c
      obtain ⟨rfl, -⟩ := higher_eq_some.mp hv
      exact ⟨p, node k (node n l u) v, by simp [get, hg, hv], by simp [hq]⟩

/-- `nap`: removes head. What it takes out is the entry at the root of the tree it is given. -/
def nap (o : Prior α) : Qeu α → Option (Qeu α)
  | nil => none
  | node _ nil r => some r
  | node _ (node m x y) r => do
    let (p, q) ← get o (node m x y)
    return (bal o (node p q r)).val

theorem nap_spec (o : Prior α) (n : α) (l r : Qeu α) :
    ∃ b, nap o (node n l r) = some b ∧ b.list = r.list ++ l.list := by
  cases l with
  | nil => exact ⟨r, rfl, by simp⟩
  | node m x y =>
    obtain ⟨p, q, hg, hq⟩ := get_spec o m x y
    exact ⟨(bal o (node p q r)).val, by simp [nap, hg], by rw [list_bal, hq]; rfl⟩

/-- `put`: insert new tail. -/
def put (o : Prior α) (b : α) : Qeu α → Qeu α
  | nil => node b nil nil
  | node n l r => (bal o (node n (put o b l) r)).val

@[simp] theorem list_put (o : Prior α) (b : α) (a : Qeu α) : (put o b a).list = a.list ++ [b] := by
  induction a with
  | nil => rfl
  | node n l r ihl _ => simp [put, ihl]

/-- `gas`: insert list. -/
def gas (o : Prior α) : List α → Qeu α → Qeu α
  | [], a => a
  | i :: t, a => gas o t (put o i a)

@[simp] theorem list_gas (o : Prior α) (b : List α) (a : Qeu α) :
    (gas o b a).list = a.list ++ b := by
  induction b generalizing a with
  | nil => simp [gas]
  | cons i t ih => simp [gas, ih]

/-- `tap`: adds list to end. -/
def tap : Qeu α → List α → List α
  | nil, b => b
  | node n l r, b => r.tap (n :: l.tap b)

theorem tap_eq (a : Qeu α) (b : List α) : a.tap b = a.list ++ b := by
  induction a generalizing b with
  | nil => rfl
  | node n l r ihl ihr => simp [tap, ihl, ihr]

/-- `top`: produces head. -/
def top : Qeu α → Option α
  | nil => none
  | node n _ nil => some n
  | node _ _ (node m x y) => top (node m x y)

theorem top_eq (o : Prior α) (a : Qeu α) : a.top = (get o a).map Prod.fst := by
  induction a with
  | nil => rfl
  | node n l r _ ihr =>
    cases r with
    | nil => rfl
    | node m x y =>
      obtain ⟨p, q, hg, -⟩ := get_spec o m x y
      rw [top, ihr, hg]
      cases hv : higher o n q with
      | none => simp [get, hg, hv]
      | some c => simp [get, hg, hv]

/-- Of two entries the second goes above the first, if the tree has them in this order. -/
theorem put_two {o : Prior α} {a b : α} (h : o.vor a b = false) :
    put o b (put o a nil) = node b nil (node a nil nil) := by
  have hba : o.vor b a = true := (o.total b a).resolve_right (by simp [h])
  simp only [put]
  rw [bal]
  split
  · next m x y hl =>
    simp only [higher, h, Bool.false_eq_true, if_false, Option.some.injEq, Prod.mk.injEq] at hl
    obtain ⟨rfl, rfl, rfl⟩ := hl
    have hlow : (bal o (node a nil nil)).val = node a nil nil := bal_done rfl rfl
    dsimp only
    rw [hlow]
    exact bal_done rfl (by simp [higher, hba])
  · next hl => simp [higher, h] at hl

end Qeu

end Vere.Hoon
