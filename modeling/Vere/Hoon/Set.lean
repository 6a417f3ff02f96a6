import Vere.Hoon.Union

/-!
# Vere.Hoon.Set

The set engine `++in` (`hoon.hoon`, section 2dA).

A set is a treap of nouns without values, searched by `++hor` and balanced by `++vor`.
`uni:in` is the loop of `uni:by`; `mer` and `int` swap their arguments instead of having
each branch twice.

A set is reached from `~` by any of these arms (`Reached`); what they do to membership is
collected in `set_finite`. Nothing depends on which hash it is.
-/

namespace Vere.Hoon.In

open Vere.Lib

/-- `(set)`: a treap of nouns. -/
abbrev Tree := Treap Noun Unit

/-- `+-has:in`: b exists in a check. -/
def has (mug : Noun → Nat) (a : Tree) (b : Noun) : Bool := (Treap.lookup (hor mug) a b).isSome

/-- `+-put:in`: puts b in a, sorted. -/
def put (mug : Noun → Nat) (a : Tree) (b : Noun) : Tree :=
  Treap.insert (hor mug) (vor mug) a b ()

/-- `+-del:in`: b without any a. -/
def del (mug : Noun → Nat) (a : Tree) (b : Noun) : Tree := Treap.delete (hor mug) (vor mug) a b

/-- `+-gas:in`: concatenate. -/
def gas (mug : Noun → Nat) (a : Tree) (b : List Noun) : Tree := b.foldl (put mug) a

theorem gas_cons (mug : Noun → Nat) (a : Tree) (x : Noun) (b : List Noun) :
    gas mug a (x :: b) = gas mug (put mug a x) b := rfl

/-- `+-tap:in`: list tiles a set. -/
def tap : Tree → List Noun → List Noun
  | .nil, b => b
  | .node n _ l r, b => tap r (n :: tap l b)

/-- `+-uni:in`: union. -/
def uni (mug : Noun → Nat) : Nat → Tree → Tree → Option Tree := splitUni (hor mug) (vor mug)

/-- `+-mer:in`: puts b in a, sorted. -/
def mer (mug : Noun → Nat) : Nat → Tree → Tree → Option Tree
  | 0, _, _ => none
  | _ + 1, a, .nil => some a
  | _ + 1, .nil, .node nb u lb rb => some (.node nb u lb rb)
  | n + 1, .node na u la ra, .node nb w lb rb =>
      if ¬vor mug na nb then mer mug n (.node nb w lb rb) (.node na u la ra)
      else if nb = na then do
        let l ← mer mug n la lb
        let r ← mer mug n ra rb
        return .node na u l r
      else if hor mug nb na then do
        let l ← mer mug n la (.node nb w lb .nil)
        mer mug n (.node na u l ra) rb
      else do
        let r ← mer mug n ra (.node nb w .nil rb)
        mer mug n (.node na u la r) lb

/-- `+-int:in`: intersection. -/
def int (mug : Noun → Nat) : Nat → Tree → Tree → Option Tree
  | 0, _, _ => none
  | _ + 1, _, .nil => some .nil
  | _ + 1, .nil, .node _ _ _ _ => some .nil
  | n + 1, .node na u la ra, .node nb w lb rb =>
      if ¬vor mug na nb then int mug n (.node nb w lb rb) (.node na u la ra)
      else if nb = na then do
        let l ← int mug n la lb
        let r ← int mug n ra rb
        return .node na u l r
      else if hor mug nb na then do
        let x ← int mug n la (.node nb w lb .nil)
        let y ← int mug n (.node na u la ra) rb
        uni mug n x y
      else do
        let x ← int mug n ra (.node nb w .nil rb)
        let y ← int mug n (.node na u la ra) lb
        uni mug n x y

/-! ### Membership -/

section member

variable {mug : Noun → Nat} {a b c : Tree}

/-- A set in both of its orders. -/
abbrev Good (mug : Noun → Nat) (a : Tree) : Prop := Treap.Canon (hor mug) (vor mug) a

theorem has_iff (h : Good mug a) (x : Noun) : has mug a x = true ↔ Treap.Has x a := by
  have ho := hor_searchOrder mug
  cases hx : Treap.lookup (hor mug) a x with
  | none =>
      have hno := (Treap.lookup_eq_none ho h.ordered).mp hx
      simp [has, hx, hno]
  | some u =>
      have hyes := ((Treap.lookup_eq_some ho h.ordered).mp hx).has
      simp [has, hx, hyes]

theorem good_put (h : Good mug a) (x : Noun) : Good mug (put mug a x) :=
  ⟨Treap.ordered_insert (hor_searchOrder mug) h.ordered x (),
    Treap.heaped_insert (vor_searchOrder mug) h.heaped x ()⟩

theorem good_del (h : Good mug a) (x : Noun) : Good mug (del mug a x) :=
  ⟨Treap.ordered_delete (hor_searchOrder mug) h.ordered x,
    Treap.heaped_delete (hor_searchOrder mug) (vor_searchOrder mug) h.ordered h.heaped x⟩

theorem good_gas (h : Good mug a) (l : List Noun) : Good mug (gas mug a l) := by
  induction l generalizing a with
  | nil => exact h
  | cons x l ih => exact ih (good_put h x)

theorem has_put (h : Good mug a) (b x : Noun) :
    has mug (put mug a b) x = true ↔ x = b ∨ has mug a x = true := by
  rw [has, put, Treap.lookup_insert (hor_searchOrder mug) h.ordered]
  by_cases hx : x = b
  · simp [hx]
  · simp [hx, has]

theorem has_del (h : Good mug a) (b x : Noun) :
    has mug (del mug a b) x = true ↔ x ≠ b ∧ has mug a x = true := by
  rw [has, del, Treap.lookup_delete (hor_searchOrder mug) h.ordered]
  by_cases hx : x = b
  · simp [hx]
  · simp [hx, has]

theorem has_gas (h : Good mug a) (l : List Noun) (x : Noun) :
    has mug (gas mug a l) x = true ↔ x ∈ l ∨ has mug a x = true := by
  induction l generalizing a with
  | nil => simp [gas]
  | cons y l ih =>
      rw [gas_cons, ih (good_put h y), has_put h, List.mem_cons]
      tauto

end member

/-! ### `mer` and `int` follow the derivations -/

section follow

variable {mug : Noun → Nat} {a b c : Tree}

/-- Two nodes the second of which comes first are swapped. -/
theorem mer_swap {na nb : Noun} {u w : Unit} {la ra lb rb : Tree}
    (hk : Treap.Below (vor mug) nb na) (n : Nat) :
    mer mug (n + 1) (.node na u la ra) (.node nb w lb rb)
      = mer mug n (.node nb w lb rb) (.node na u la ra) := by
  rw [mer, hk.not_le (vor_searchOrder mug), if_pos Bool.false_ne_true]

theorem int_swap {na nb : Noun} {u w : Unit} {la ra lb rb : Tree}
    (hk : Treap.Below (vor mug) nb na) (n : Nat) :
    int mug (n + 1) (.node na u la ra) (.node nb w lb rb)
      = int mug n (.node nb w lb rb) (.node na u la ra) := by
  rw [int, hk.not_le (vor_searchOrder mug), if_pos Bool.false_ne_true]

/-- One round of `mer`, whichever of its arguments comes first. -/
theorem mer_left {na nb : Noun} {u w : Unit} {la ra lb rb l : Tree}
    (hk : Treap.Below (vor mug) na nb) (hle : hor mug nb na = true)
    (hl : Settles (fun n => mer mug n la (.node nb w lb .nil)) (some l))
    (hc : Settles (fun n => mer mug n (.node na u l ra) rb) (some c)) :
    Settles (fun n => mer mug n (.node na u la ra) (.node nb w lb rb)) (some c) ∧
      Settles (fun n => mer mug n (.node nb w lb rb) (.node na u la ra)) (some c) := by
  have hstep : ∀ n, mer mug (n + 1) (.node na u la ra) (.node nb w lb rb) =
      mer mug n la (.node nb w lb .nil) >>= fun l => mer mug n (.node na u l ra) rb := by
    intro n
    rw [mer, if_neg (fun h => h hk.1), if_neg hk.2.symm, if_pos hle]
  have hfirst : Settles (fun n => mer mug n (.node na u la ra) (.node nb w lb rb)) (some c) :=
    .call hstep (hl.bind hc)
  exact ⟨hfirst, .call (mer_swap hk) hfirst⟩

theorem mer_right {na nb : Noun} {u w : Unit} {la ra lb rb r : Tree}
    (hk : Treap.Below (vor mug) na nb) (hle : hor mug nb na = false)
    (hr : Settles (fun n => mer mug n ra (.node nb w .nil rb)) (some r))
    (hc : Settles (fun n => mer mug n (.node na u la r) lb) (some c)) :
    Settles (fun n => mer mug n (.node na u la ra) (.node nb w lb rb)) (some c) ∧
      Settles (fun n => mer mug n (.node nb w lb rb) (.node na u la ra)) (some c) := by
  have hstep : ∀ n, mer mug (n + 1) (.node na u la ra) (.node nb w lb rb) =
      mer mug n ra (.node nb w .nil rb) >>= fun r => mer mug n (.node na u la r) lb := by
    intro n
    rw [mer, if_neg (fun h => h hk.1), if_neg hk.2.symm, hle, if_neg Bool.false_ne_true]
  have hfirst : Settles (fun n => mer mug n (.node na u la ra) (.node nb w lb rb)) (some c) :=
    .call hstep (hr.bind hc)
  exact ⟨hfirst, .call (mer_swap hk) hfirst⟩

/-- `mer` computes the union, in either order of its arguments. -/
theorem mer_settles (h : Treap.Union (hor mug) (vor mug) a b c) :
    Settles (fun n => mer mug n a b) (some c) ∧ Settles (fun n => mer mug n b a) (some c) := by
  have hrefl : ∀ k, vor mug k k = true := fun k => ((vor_searchOrder mug).total k k).elim id id
  have hstep : ∀ k va vb la ra lb rb n,
      mer mug (n + 1) (.node k va la ra) (.node k vb lb rb) =
        mer mug n la lb >>= fun l =>
          mer mug n ra rb >>= fun r =>
            pure (.node k vb l r) := by
    intro k va vb la ra lb rb n
    simp [mer, hrefl]
  induction h with
  | nilRight a =>
      exact ⟨.call (fun n => by cases a <;> rfl) (.const (some a)),
        .call (fun n => by cases a <;> rfl) (.const (some a))⟩
  | nilLeft b =>
      exact ⟨.call (fun n => by cases b <;> rfl) (.const (some b)),
        .call (fun n => by cases b <;> rfl) (.const (some b))⟩
  | @same k va vb la ra lb rb l r _ _ ihl ihr =>
      exact ⟨.call (hstep k va vb la ra lb rb) (ihl.1.bind (ihr.1.bind (.const _))),
        .call (hstep k vb va lb rb la ra) (ihl.2.bind (ihr.2.bind (.const _)))⟩
  | firstLeft hk hle _ _ ihl ihc => exact mer_left hk hle ihl.1 ihc.1
  | firstRight hk hle _ _ ihr ihc => exact mer_right hk hle ihr.1 ihc.1
  | secondLeft hk hle _ _ ihl ihc => exact (mer_left hk hle ihl.2 ihc.2).symm
  | secondRight hk hle _ _ ihr ihc => exact (mer_right hk hle ihr.2 ihc.2).symm

/-- One round of `int`. -/
theorem int_left {na nb : Noun} {u w : Unit} {la ra lb rb x y : Tree}
    (hk : Treap.Below (vor mug) na nb) (hle : hor mug nb na = true)
    (hx : Settles (fun n => int mug n la (.node nb w lb .nil)) (some x))
    (hy : Settles (fun n => int mug n (.node na u la ra) rb) (some y))
    (hc : Settles (fun n => uni mug n x y) (some c)) :
    Settles (fun n => int mug n (.node na u la ra) (.node nb w lb rb)) (some c) ∧
      Settles (fun n => int mug n (.node nb w lb rb) (.node na u la ra)) (some c) := by
  have hstep : ∀ n, int mug (n + 1) (.node na u la ra) (.node nb w lb rb) =
      int mug n la (.node nb w lb .nil) >>= fun x =>
        int mug n (.node na u la ra) rb >>= fun y => uni mug n x y := by
    intro n
    rw [int, if_neg (fun h => h hk.1), if_neg hk.2.symm, if_pos hle]
  have hfirst : Settles (fun n => int mug n (.node na u la ra) (.node nb w lb rb)) (some c) :=
    .call hstep (hx.bind (hy.bind hc))
  exact ⟨hfirst, .call (int_swap hk) hfirst⟩

theorem int_right {na nb : Noun} {u w : Unit} {la ra lb rb x y : Tree}
    (hk : Treap.Below (vor mug) na nb) (hle : hor mug nb na = false)
    (hx : Settles (fun n => int mug n ra (.node nb w .nil rb)) (some x))
    (hy : Settles (fun n => int mug n (.node na u la ra) lb) (some y))
    (hc : Settles (fun n => uni mug n x y) (some c)) :
    Settles (fun n => int mug n (.node na u la ra) (.node nb w lb rb)) (some c) ∧
      Settles (fun n => int mug n (.node nb w lb rb) (.node na u la ra)) (some c) := by
  have hstep : ∀ n, int mug (n + 1) (.node na u la ra) (.node nb w lb rb) =
      int mug n ra (.node nb w .nil rb) >>= fun x =>
        int mug n (.node na u la ra) lb >>= fun y => uni mug n x y := by
    intro n
    rw [int, if_neg (fun h => h hk.1), if_neg hk.2.symm, hle, if_neg Bool.false_ne_true]
  have hfirst : Settles (fun n => int mug n (.node na u la ra) (.node nb w lb rb)) (some c) :=
    .call hstep (hx.bind (hy.bind hc))
  exact ⟨hfirst, .call (int_swap hk) hfirst⟩

/-- `int` computes the intersection, in either order of its arguments. -/
theorem int_settles (h : Treap.Inter (hor mug) (vor mug) a b c) :
    Settles (fun n => int mug n a b) (some c) ∧ Settles (fun n => int mug n b a) (some c) := by
  have hv := vor_searchOrder mug
  have hrefl : ∀ k, vor mug k k = true := fun k => (hv.total k k).elim id id
  have hstep : ∀ k va vb la ra lb rb n,
      int mug (n + 1) (.node k va la ra) (.node k vb lb rb) =
        int mug n la lb >>= fun l =>
          int mug n ra rb >>= fun r =>
            pure (.node k vb l r) := by
    intro k va vb la ra lb rb n
    simp [int, hrefl]
  induction h with
  | nilRight a =>
      exact ⟨.call (fun n => by cases a <;> rfl) (.const (some Treap.nil)),
        .call (fun n => by cases a <;> rfl) (.const (some Treap.nil))⟩
  | nilLeft b =>
      exact ⟨.call (fun n => by cases b <;> rfl) (.const (some Treap.nil)),
        .call (fun n => by cases b <;> rfl) (.const (some Treap.nil))⟩
  | @same k va vb la ra lb rb l r _ _ ihl ihr =>
      exact ⟨.call (hstep k va vb la ra lb rb) (ihl.1.bind (ihr.1.bind (.const _))),
        .call (hstep k vb va lb rb la ra) (ihl.2.bind (ihr.2.bind (.const _)))⟩
  | firstLeft hk hle _ _ hu ihx ihy =>
      exact int_left hk hle ihx.1 ihy.1 (splitUni_settles hv hu)
  | firstRight hk hle _ _ hu ihx ihy =>
      exact int_right hk hle ihx.1 ihy.1 (splitUni_settles hv hu)
  | secondLeft hk hle _ _ hu ihx ihy =>
      exact (int_left hk hle ihx.2 ihy.2 (splitUni_settles hv hu)).symm
  | secondRight hk hle _ _ hu ihx ihy =>
      exact (int_right hk hle ihx.2 ihy.2 (splitUni_settles hv hu)).symm

end follow

/-! ### Sets that are reached -/

/-- The sets that can be built from `~`. -/
inductive Reached (mug : Noun → Nat) : Tree → Prop
  | nil : Reached mug .nil
  | put {a} (h : Reached mug a) (b : Noun) : Reached mug (put mug a b)
  | del {a} (h : Reached mug a) (b : Noun) : Reached mug (del mug a b)
  | gas {a} (h : Reached mug a) (b : List Noun) : Reached mug (gas mug a b)
  | uni {a b c} (ha : Reached mug a) (hb : Reached mug b)
      (hc : Settles (fun n => uni mug n a b) (some c)) : Reached mug c
  | int {a b c} (ha : Reached mug a) (hb : Reached mug b)
      (hc : Settles (fun n => int mug n a b) (some c)) : Reached mug c
  | mer {a b c} (ha : Reached mug a) (hb : Reached mug b)
      (hc : Settles (fun n => mer mug n a b) (some c)) : Reached mug c

section reached

variable {mug : Noun → Nat} {a b c : Tree}

/-- `uni` and `mer` return the same set, and `int` returns one. -/
theorem exists_settles (ha : Good mug a) (hb : Good mug b) :
    (∃ c, Settles (fun n => uni mug n a b) (some c) ∧ Settles (fun n => mer mug n a b) (some c) ∧
      Good mug c ∧ ∀ x, has mug c x = true ↔ has mug a x = true ∨ has mug b x = true) ∧
    ∃ c, Settles (fun n => int mug n a b) (some c) ∧ Good mug c ∧
      ∀ x, has mug c x = true ↔ has mug a x = true ∧ has mug b x = true := by
  have hh := hor_searchOrder mug
  have hv := vor_searchOrder mug
  obtain ⟨c, hc⟩ := Treap.exists_union hh hv a b ha hb
  obtain ⟨d, hd⟩ := Treap.exists_inter hh hv a b ha hb
  obtain ⟨gc, -⟩ := hc.spec hh hv ha hb
  obtain ⟨gd, jd⟩ := hd.spec hh hv ha hb
  refine ⟨⟨c, splitUni_settles hv hc, (mer_settles hc).1, gc, ?_⟩,
    ⟨d, (int_settles hd).1, gd, ?_⟩⟩
  · intro x
    rw [has_iff gc, has_iff ha, has_iff hb, hc.has x]
  · intro x
    rw [has_iff gd, has_iff ha, has_iff hb, jd.has x, and_comm]

theorem Reached.good (h : Reached mug a) : Good mug a := by
  induction h with
  | nil => exact Treap.canon_nil
  | put _ b ih => exact good_put ih b
  | del _ b ih => exact good_del ih b
  | gas _ b ih => exact good_gas ih b
  | uni _ _ hc iha ihb =>
      obtain ⟨⟨c, hset, -, hg, -⟩, -⟩ := exists_settles iha ihb
      rw [Option.some.inj (hc.unique hset)]
      exact hg
  | int _ _ hc iha ihb =>
      obtain ⟨-, c, hset, hg, -⟩ := exists_settles iha ihb
      rw [Option.some.inj (hc.unique hset)]
      exact hg
  | mer _ _ hc iha ihb =>
      obtain ⟨⟨c, -, hset, hg, -⟩, -⟩ := exists_settles iha ihb
      rw [Option.some.inj (hc.unique hset)]
      exact hg

theorem mem_tap (a : Tree) (l : List Noun) (x : Noun) :
    x ∈ tap a l ↔ Treap.Has x a ∨ x ∈ l := by
  induction a generalizing l with
  | nil => simp [tap]
  | node n u la ra ihl ihr =>
      rw [tap, ihr, List.mem_cons, ihl, Treap.has_node]
      tauto

theorem nodup_tap (h : Good mug a) {l : List Noun} (hl : l.Nodup)
    (hout : ∀ x ∈ l, ¬Treap.Has x a) : (tap a l).Nodup := by
  induction a generalizing l with
  | nil => exact hl
  | node n u la ra ihl ihr =>
      have hleft : ∀ x, Treap.Has x la → x ≠ n := by
        intro x hx
        exact (Treap.allKeys_iff.mp h.ordered.1 x hx).2
      have hright : ∀ x, Treap.Has x ra → x ≠ n ∧ ¬Treap.Has x la := by
        intro x hx
        have hlt := Treap.allKeys_iff.mp h.ordered.2.1 x hx
        refine ⟨hlt.2.symm, fun hxl => ?_⟩
        have hgt := Treap.allKeys_iff.mp h.ordered.1 x hxl
        exact (hlt.trans (hor_searchOrder mug) hgt).irrefl
      have hnode : ∀ x ∈ l, x ≠ n ∧ ¬Treap.Has x la ∧ ¬Treap.Has x ra := by
        intro x hx
        have := hout x hx
        rw [Treap.has_node] at this
        tauto
      rw [tap]
      refine ihr h.right ?_ ?_
      · rw [List.nodup_cons, mem_tap]
        refine ⟨?_, ihl h.left hl fun x hx => (hnode x hx).2.1⟩
        rintro (hn | hn)
        · exact hleft n hn rfl
        · exact (hnode n hn).1 rfl
      · intro x hx hxr
        rw [List.mem_cons, mem_tap] at hx
        rcases hx with hx | hx | hx
        · exact (hright x hxr).1 hx
        · exact (hright x hxr).2 hx
        · exact (hnode x hx).2.2 hxr

/-- The sets of `++in` are finite sets of nouns, whatever the mug: every set that is
reached is in both of its orders, the arms do to its members what their names say, and
`tap` lists the members, each one once. -/
theorem set_finite (mug : Noun → Nat) (a : Tree) (ha : Reached mug a) :
    Treap.Ordered (hor mug) a ∧ Treap.Heaped (vor mug) a ∧
      (∀ b x, has mug (put mug a b) x = true ↔ x = b ∨ has mug a x = true) ∧
      (∀ b x, has mug (del mug a b) x = true ↔ x ≠ b ∧ has mug a x = true) ∧
      (∀ l x, has mug (gas mug a l) x = true ↔ x ∈ l ∨ has mug a x = true) ∧
      (∀ b, Reached mug b →
        (∃ c, Settles (fun n => uni mug n a b) (some c) ∧
          ∀ x, has mug c x = true ↔ has mug a x = true ∨ has mug b x = true) ∧
        (∃ c, Settles (fun n => mer mug n a b) (some c) ∧
          ∀ x, has mug c x = true ↔ has mug a x = true ∨ has mug b x = true) ∧
        ∃ c, Settles (fun n => int mug n a b) (some c) ∧
          ∀ x, has mug c x = true ↔ has mug a x = true ∧ has mug b x = true) ∧
      (tap a []).Nodup ∧ ∀ x, x ∈ tap a [] ↔ has mug a x = true := by
  have hg := ha.good
  refine ⟨hg.ordered, hg.heaped, has_put hg, has_del hg, has_gas hg, ?_, ?_, ?_⟩
  · intro b hb
    obtain ⟨⟨c, hu, hm, -, hx⟩, d, hi, -, hy⟩ := exists_settles hg hb.good
    exact ⟨⟨c, hu, hx⟩, ⟨c, hm, hx⟩, ⟨d, hi, hy⟩⟩
  · exact nodup_tap hg List.nodup_nil (by simp)
  · intro x
    rw [mem_tap, has_iff hg]
    simp

/-- The sets of `1`, `2`, `3` and of `3`, `4`: one loses an element, and the two are joined and
cut. -/
theorem set_finite_four :
    let a := put Hoon.mug (put Hoon.mug (put Hoon.mug .nil (.atom 1)) (.atom 2)) (.atom 3)
    let b := put Hoon.mug (put Hoon.mug .nil (.atom 3)) (.atom 4)
    has Hoon.mug (del Hoon.mug a (.atom 2)) (.atom 2) = false ∧
      (∃ c, Settles (fun n => uni Hoon.mug n a b) (some c) ∧
        ∀ x, has Hoon.mug c x = true ↔ has Hoon.mug a x = true ∨ has Hoon.mug b x = true) ∧
      ∃ c, Settles (fun n => int Hoon.mug n a b) (some c) ∧ has Hoon.mug c (.atom 3) = true := by
  intro a b
  have ha : Reached Hoon.mug a := .put (.put (.put .nil _) _) _
  have hb : Reached Hoon.mug b := .put (.put .nil _) _
  obtain ⟨-, -, hput, hdel, -, hops, -⟩ := set_finite Hoon.mug a ha
  obtain ⟨huni, -, c, hint, hc⟩ := hops b hb
  refine ⟨?_, huni, c, hint, (hc _).mpr ⟨?_, ?_⟩⟩
  · exact Bool.eq_false_iff.mpr fun h => ((hdel _ _).mp h).1 rfl
  · exact ((set_finite Hoon.mug _ (.put (.put .nil (.atom 1)) (.atom 2))).2.2.1 _ _).mpr (.inl rfl)
  · exact ((set_finite Hoon.mug _ (.put .nil (.atom 3))).2.2.1 _ _).mpr
      (.inr (((set_finite Hoon.mug _ .nil).2.2.1 _ _).mpr (.inl rfl)))

end reached

end Vere.Hoon.In
