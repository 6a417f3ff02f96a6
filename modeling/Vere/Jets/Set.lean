import Vere.Hoon.Set
import Vere.Jets.Mug

/-!
# Vere.Jets.Set

The set jets, `gen164/4/in_put.c`, `in_has.c`, `in_gas.c`, `in_tap.c`, `in_uni.c`,
`in_int.c` and `in_mer.c`.

They work on the noun of a set: `~` for the empty one, `[n l r]` for a node. With the orders
of one mug they compute what the arms of `++in` do with the same mug; what is left is that
the two sides do not have the same mug (`Vere.Jets.Mug`).
-/

namespace Vere.Jets

open Vere.Lib Vere.Hoon

/-- `~`. -/
abbrev nul : Noun := .atom 0

/-- `u2_rt` of a node. -/
abbrev trel (n l r : Noun) : Noun := .cell n (.cell l r)

/-- What a jet that may call itself any number of times returns: `none` is for the fuel
that ran out. -/
abbrev Deep := ExceptT Bail Option

/-- Out of fuel. -/
def spent : Deep Noun := ExceptT.mk none

/-! ### The jets -/

/-- `in_has`. -/
def inHas (mug : Noun → Nat) (a b : Noun) : Jet Bool :=
  match a with
  | .atom 0 => .ok false
  | .cell n (.cell l r) =>
      if b = n then .ok true
      else if hor mug b n then inHas mug l b
      else inHas mug r b
  | _ => .error .exit

/-- `in_put`. -/
def inPut (mug : Noun → Nat) (a b : Noun) : Jet Noun :=
  match a with
  | .atom 0 => .ok (trel b nul nul)
  | .cell n (.atom lr) => if n = b then .ok (.cell n (.atom lr)) else .error .exit
  | .cell n (.cell l r) =>
      if n = b then .ok (trel n l r)
      else if hor mug b n then do
        match ← inPut mug l b with
        | .cell nc (.cell lc rc) =>
            if vor mug n nc then .ok (trel n (trel nc lc rc) r)
            else .ok (trel nc lc (trel n rc r))
        -- the head of an atom: `c` is always a node
        | _ => .error .fault
      else do
        match ← inPut mug r b with
        | .cell nc (.cell lc rc) =>
            if vor mug n nc then .ok (trel n l (trel nc lc rc))
            else .ok (trel nc (trel n l lc) rc)
        | _ => .error .fault
  | _ => .error .exit

/-- `in_gas`. -/
def inGas (mug : Noun → Nat) (a b : Noun) : Jet Noun :=
  match b with
  | .atom 0 => .ok a
  | .cell i t => do inGas mug (← inPut mug a i) t
  | _ => .error .exit

/-- `_tap_in`, and `in_tap`. -/
def inTap (a b : Noun) : Jet Noun :=
  match a with
  | .atom 0 => .ok b
  | .cell n (.cell l r) => do
      let c ← inTap l b
      inTap r (.cell n c)
  | _ => .error .exit

/-- `in_uni`. -/
def inUni (mug : Noun → Nat) : Nat → Noun → Noun → Deep Noun
  | 0, _, _ => spent
  | n + 1, a, b =>
      if a = nul then pure b
      else if b = nul then pure a
      else
        match a, b with
        | .cell na (.cell la ra), .cell nb (.cell lb rb) =>
            if vor mug na nb then
              if na = nb then do
                let l ← inUni mug n la lb
                let r ← inUni mug n ra rb
                return trel nb l r
              else if hor mug nb na then do
                let l ← inUni mug n la (trel nb lb nul)
                inUni mug n (trel na l ra) rb
              else do
                let r ← inUni mug n ra (trel nb nul rb)
                inUni mug n (trel na la r) lb
            else if nb = na then do
              -- the sides are the wrong way round here, where no run gets to
              let l ← inUni mug n rb ra
              let r ← inUni mug n lb la
              return trel nb l r
            else if hor mug na nb then do
              let l ← inUni mug n (trel na la nul) lb
              inUni mug n ra (trel nb l rb)
            else do
              let r ← inUni mug n (trel na nul ra) rb
              inUni mug n la (trel nb lb r)
        | _, _ => throw .exit

/-- `in_int`. The nodes are swapped before they are taken apart. -/
def inInt (mug : Noun → Nat) : Nat → Noun → Noun → Deep Noun
  | 0, _, _ => spent
  | n + 1, a, b =>
      if a = nul then pure nul
      else if b = nul then pure nul
      else
        match a, b with
        | .cell na lra, .cell nb lrb =>
            match (if vor mug nb na then (b, nb, lrb, na, lra) else (a, na, lra, nb, lrb)) with
            | (a, na, .cell la ra, nb, .cell lb rb) =>
                if na = nb then do
                  let l ← inInt mug n la lb
                  let r ← inInt mug n ra rb
                  return trel na l r
                else if hor mug nb na then do
                  let x ← inInt mug n la (trel nb lb nul)
                  let y ← inInt mug n a rb
                  inUni mug n x y
                else do
                  let x ← inInt mug n ra (trel nb nul rb)
                  let y ← inInt mug n a lb
                  inUni mug n x y
            | _ => throw .exit
        | _, _ => throw .exit

/-- `in_mer`. -/
def inMer (mug : Noun → Nat) : Nat → Noun → Noun → Deep Noun
  | 0, _, _ => spent
  | n + 1, a, b =>
      if a = nul then pure b
      else if b = nul then pure a
      else
        match a, b with
        | .cell na lra, .cell nb lrb =>
            match (if vor mug nb na then (nb, lrb, na, lra) else (na, lra, nb, lrb)) with
            | (na, .cell la ra, nb, .cell lb rb) =>
                if na = nb then do
                  let l ← inMer mug n la lb
                  let r ← inMer mug n ra rb
                  return trel na l r
                else if hor mug nb na then do
                  let l ← inMer mug n la (trel nb lb nul)
                  inMer mug n (trel na l ra) rb
                else do
                  let r ← inMer mug n ra (trel nb nul rb)
                  inMer mug n (trel na la r) lb
            | _ => throw .exit
        | _, _ => throw .exit

/-! ### On the noun of a set -/

/-- The noun of a set. -/
def setNoun : In.Tree → Noun
  | .nil => nul
  | .node n _ l r => trel n (setNoun l) (setNoun r)

/-- The noun of a list. -/
def listNoun : List Noun → Noun
  | [] => nul
  | i :: t => .cell i (listNoun t)

theorem setNoun_inj {a b : In.Tree} (h : setNoun a = setNoun b) : a = b := by
  induction a generalizing b with
  | nil =>
      cases b with
      | nil => rfl
      | node n u l r => cases h
  | node n u l r ihl ihr =>
      cases b with
      | nil => cases h
      | node n' u' l' r' =>
          obtain ⟨hn, hlr⟩ := Noun.cell.inj h
          obtain ⟨hl, hr⟩ := Noun.cell.inj hlr
          rw [hn, ihl hl, ihr hr]

theorem inHas_noun (mug : Noun → Nat) (a : In.Tree) (b : Noun) :
    inHas mug (setNoun a) b = .ok (In.has mug a b) := by
  induction a with
  | nil => rfl
  | node n u l r ihl ihr =>
      rw [setNoun, inHas, ihl, ihr, hor_eq]
      simp only [In.has, Treap.lookup]
      split
      · rfl
      · split <;> rfl

/-- An insertion leaves a node. -/
theorem put_set_node (mug : Noun → Nat) (a : In.Tree) (b : Noun) :
    ∃ n u l r, In.put mug a b = .node n u l r := by
  cases a with
  | nil => exact ⟨_, _, _, _, rfl⟩
  | node n u l r =>
      unfold In.put Treap.insert
      split
      · split <;> exact ⟨_, _, _, _, rfl⟩
      · split
        · unfold Treap.linkLeft
          split
          · exact ⟨_, _, _, _, rfl⟩
          · split <;> exact ⟨_, _, _, _, rfl⟩
        · unfold Treap.linkRight
          split
          · exact ⟨_, _, _, _, rfl⟩
          · split <;> exact ⟨_, _, _, _, rfl⟩

theorem inPut_noun (mug : Noun → Nat) (a : In.Tree) (b : Noun) :
    inPut mug (setNoun a) b = .ok (setNoun (In.put mug a b)) := by
  induction a with
  | nil => rfl
  | node n u l r ihl ihr =>
      rw [setNoun, inPut, ihl, ihr, hor_eq,
        show In.put mug (.node n u l r) b
          = Treap.insert (Hoon.hor mug) (Hoon.vor mug) (.node n u l r) b () from rfl,
        Treap.insert]
      by_cases hk : b = n
      · subst hk
        rw [if_pos rfl, if_pos rfl, if_pos rfl, setNoun]
      rw [if_neg (fun e => hk e.symm), if_neg hk]
      split
      · obtain ⟨n', u', l', r', hd⟩ := put_set_node mug l b
        rw [hd]
        rw [In.put] at hd
        rw [hd, Treap.linkLeft]
        simp only [setNoun, vor_eq, bind, Except.bind]
        split <;> rfl
      · obtain ⟨n', u', l', r', hd⟩ := put_set_node mug r b
        rw [hd]
        rw [In.put] at hd
        rw [hd, Treap.linkRight]
        simp only [setNoun, vor_eq, bind, Except.bind]
        split <;> rfl

theorem inGas_noun (mug : Noun → Nat) (a : In.Tree) (l : List Noun) :
    inGas mug (setNoun a) (listNoun l) = .ok (setNoun (In.gas mug a l)) := by
  induction l generalizing a with
  | nil => rfl
  | cons i l ih =>
      rw [listNoun, inGas, inPut_noun]
      exact ih (In.put mug a i)

theorem inTap_noun (a : In.Tree) (l : List Noun) :
    inTap (setNoun a) (listNoun l) = .ok (listNoun (In.tap a l)) := by
  induction a generalizing l with
  | nil => rfl
  | node n u la ra ihl ihr =>
      rw [setNoun, inTap, ihl]
      exact ihr (n :: In.tap la l)

/-! ### The jets follow the derivations -/

section follow

variable {mug : Noun → Nat} {a b c : In.Tree}

theorem inUni_settles (h : Treap.Union (Hoon.hor mug) (Hoon.vor mug) a b c) :
    Settles (fun n => inUni mug n (setNoun a) (setNoun b)) (pure (setNoun c)) := by
  have hv := vor_searchOrder mug
  induction h with
  | nilRight a =>
      refine .call ?_ (.const _)
      intro n
      cases a <;> rfl
  | nilLeft b => exact .call (fun n => rfl) (.const (pure (setNoun b)))
  | @same k va vb la ra lb rb l r _ _ ihl ihr =>
      have hrefl : Hoon.vor mug k k = true := (hv.total k k).elim id id
      have hstep : ∀ n, inUni mug (n + 1) (setNoun (.node k va la ra)) (setNoun (.node k vb lb rb))
          = inUni mug n (setNoun la) (setNoun lb) >>= fun l =>
              inUni mug n (setNoun ra) (setNoun rb) >>= fun r => pure (trel k l r) := by
        intro n
        simp [inUni, setNoun, vor_eq, hrefl]
      exact .call hstep (ihl.bind (ihr.bind (.const _)))
  | @firstLeft ka va la ra kb vb lb rb l c hk hle _ _ ihl ihc =>
      have hstep : ∀ n,
          inUni mug (n + 1) (setNoun (.node ka va la ra)) (setNoun (.node kb vb lb rb))
            = inUni mug n (setNoun la) (setNoun (.node kb vb lb .nil)) >>= fun l =>
                inUni mug n (trel ka l (setNoun ra)) (setNoun rb) := by
        intro n
        simp [inUni, setNoun, vor_eq, hor_eq, hk.1, hk.2, hle]
      exact .call hstep (ihl.bind ihc)
  | @firstRight ka va la ra kb vb lb rb r c hk hle _ _ ihr ihc =>
      have hstep : ∀ n,
          inUni mug (n + 1) (setNoun (.node ka va la ra)) (setNoun (.node kb vb lb rb))
            = inUni mug n (setNoun ra) (setNoun (.node kb vb .nil rb)) >>= fun r =>
                inUni mug n (trel ka (setNoun la) r) (setNoun lb) := by
        intro n
        simp [inUni, setNoun, vor_eq, hor_eq, hk.1, hk.2, hle]
      exact .call hstep (ihr.bind ihc)
  | @secondLeft ka va la ra kb vb lb rb l c hk hle _ _ ihl ihc =>
      have hstep : ∀ n,
          inUni mug (n + 1) (setNoun (.node ka va la ra)) (setNoun (.node kb vb lb rb))
            = inUni mug n (setNoun (.node ka va la .nil)) (setNoun lb) >>= fun l =>
                inUni mug n (setNoun ra) (trel kb l (setNoun rb)) := by
        intro n
        simp [inUni, setNoun, vor_eq, hor_eq, hk.not_le hv, hk.2, hle]
      exact .call hstep (ihl.bind ihc)
  | @secondRight ka va la ra kb vb lb rb r c hk hle _ _ ihr ihc =>
      have hstep : ∀ n,
          inUni mug (n + 1) (setNoun (.node ka va la ra)) (setNoun (.node kb vb lb rb))
            = inUni mug n (setNoun (.node ka va .nil ra)) (setNoun rb) >>= fun r =>
                inUni mug n (setNoun la) (trel kb (setNoun lb) r) := by
        intro n
        simp [inUni, setNoun, vor_eq, hor_eq, hk.not_le hv, hk.2, hle]
      exact .call hstep (ihr.bind ihc)

/-- One round of `in_mer`, whichever of its arguments comes first. -/
theorem inMer_left {ka kb : Noun} {va vb : Unit} {la ra lb rb l : In.Tree}
    (hk : Treap.Below (Hoon.vor mug) ka kb) (hle : Hoon.hor mug kb ka = true)
    (hl : Settles (fun n => inMer mug n (setNoun la) (setNoun (.node kb vb lb .nil)))
      (pure (setNoun l)))
    (hc : Settles (fun n => inMer mug n (setNoun (.node ka va l ra)) (setNoun rb))
      (pure (setNoun c))) :
    Settles (fun n => inMer mug n (setNoun (.node ka va la ra)) (setNoun (.node kb vb lb rb)))
        (pure (setNoun c)) ∧
      Settles (fun n => inMer mug n (setNoun (.node kb vb lb rb)) (setNoun (.node ka va la ra)))
        (pure (setNoun c)) := by
  have hv := vor_searchOrder mug
  have hfirst : ∀ n,
      inMer mug (n + 1) (setNoun (.node ka va la ra)) (setNoun (.node kb vb lb rb))
        = inMer mug n (setNoun la) (setNoun (.node kb vb lb .nil)) >>= fun l =>
            inMer mug n (trel ka l (setNoun ra)) (setNoun rb) := by
    intro n
    simp [inMer, setNoun, vor_eq, hor_eq, hk.not_le hv, hk.2, hle]
  have hsecond : ∀ n,
      inMer mug (n + 1) (setNoun (.node kb vb lb rb)) (setNoun (.node ka va la ra))
        = inMer mug n (setNoun la) (setNoun (.node kb vb lb .nil)) >>= fun l =>
            inMer mug n (trel ka l (setNoun ra)) (setNoun rb) := by
    intro n
    simp [inMer, setNoun, vor_eq, hor_eq, hk.1, hk.2, hle]
  exact ⟨.call hfirst (hl.bind hc), .call hsecond (hl.bind hc)⟩

theorem inMer_right {ka kb : Noun} {va vb : Unit} {la ra lb rb r : In.Tree}
    (hk : Treap.Below (Hoon.vor mug) ka kb) (hle : Hoon.hor mug kb ka = false)
    (hr : Settles (fun n => inMer mug n (setNoun ra) (setNoun (.node kb vb .nil rb)))
      (pure (setNoun r)))
    (hc : Settles (fun n => inMer mug n (setNoun (.node ka va la r)) (setNoun lb))
      (pure (setNoun c))) :
    Settles (fun n => inMer mug n (setNoun (.node ka va la ra)) (setNoun (.node kb vb lb rb)))
        (pure (setNoun c)) ∧
      Settles (fun n => inMer mug n (setNoun (.node kb vb lb rb)) (setNoun (.node ka va la ra)))
        (pure (setNoun c)) := by
  have hv := vor_searchOrder mug
  have hfirst : ∀ n,
      inMer mug (n + 1) (setNoun (.node ka va la ra)) (setNoun (.node kb vb lb rb))
        = inMer mug n (setNoun ra) (setNoun (.node kb vb .nil rb)) >>= fun r =>
            inMer mug n (trel ka (setNoun la) r) (setNoun lb) := by
    intro n
    simp [inMer, setNoun, vor_eq, hor_eq, hk.not_le hv, hk.2, hle]
  have hsecond : ∀ n,
      inMer mug (n + 1) (setNoun (.node kb vb lb rb)) (setNoun (.node ka va la ra))
        = inMer mug n (setNoun ra) (setNoun (.node kb vb .nil rb)) >>= fun r =>
            inMer mug n (trel ka (setNoun la) r) (setNoun lb) := by
    intro n
    simp [inMer, setNoun, vor_eq, hor_eq, hk.1, hk.2, hle]
  exact ⟨.call hfirst (hr.bind hc), .call hsecond (hr.bind hc)⟩

theorem inMer_settles (h : Treap.Union (Hoon.hor mug) (Hoon.vor mug) a b c) :
    Settles (fun n => inMer mug n (setNoun a) (setNoun b)) (pure (setNoun c)) ∧
      Settles (fun n => inMer mug n (setNoun b) (setNoun a)) (pure (setNoun c)) := by
  have hrefl : ∀ k, Hoon.vor mug k k = true :=
    fun k => ((vor_searchOrder mug).total k k).elim id id
  have hstep : ∀ k va vb la ra lb rb n,
      inMer mug (n + 1) (setNoun (.node k va la ra)) (setNoun (.node k vb lb rb))
        = inMer mug n (setNoun lb) (setNoun la) >>= fun l =>
            inMer mug n (setNoun rb) (setNoun ra) >>= fun r => pure (trel k l r) := by
    intro k va vb la ra lb rb n
    simp [inMer, setNoun, vor_eq, hrefl]
  induction h with
  | nilRight a =>
      refine ⟨.call ?_ (.const _), .call (fun n => rfl) (.const (pure (setNoun a)))⟩
      intro n
      cases a <;> rfl
  | nilLeft b =>
      refine ⟨.call (fun n => rfl) (.const (pure (setNoun b))), .call ?_ (.const _)⟩
      intro n
      cases b <;> rfl
  | @same k va vb la ra lb rb l r _ _ ihl ihr =>
      exact ⟨.call (hstep k va vb la ra lb rb) (ihl.2.bind (ihr.2.bind (.const _))),
        .call (hstep k vb va lb rb la ra) (ihl.1.bind (ihr.1.bind (.const _)))⟩
  | firstLeft hk hle _ _ ihl ihc => exact inMer_left hk hle ihl.1 ihc.1
  | firstRight hk hle _ _ ihr ihc => exact inMer_right hk hle ihr.1 ihc.1
  | secondLeft hk hle _ _ ihl ihc => exact (inMer_left hk hle ihl.2 ihc.2).symm
  | secondRight hk hle _ _ ihr ihc => exact (inMer_right hk hle ihr.2 ihc.2).symm

/-- One round of `in_int`. -/
theorem inInt_left {ka kb : Noun} {va vb : Unit} {la ra lb rb x y : In.Tree}
    (hk : Treap.Below (Hoon.vor mug) ka kb) (hle : Hoon.hor mug kb ka = true)
    (hx : Settles (fun n => inInt mug n (setNoun la) (setNoun (.node kb vb lb .nil)))
      (pure (setNoun x)))
    (hy : Settles (fun n => inInt mug n (setNoun (.node ka va la ra)) (setNoun rb))
      (pure (setNoun y)))
    (hc : Settles (fun n => inUni mug n (setNoun x) (setNoun y)) (pure (setNoun c))) :
    Settles (fun n => inInt mug n (setNoun (.node ka va la ra)) (setNoun (.node kb vb lb rb)))
        (pure (setNoun c)) ∧
      Settles (fun n => inInt mug n (setNoun (.node kb vb lb rb)) (setNoun (.node ka va la ra)))
        (pure (setNoun c)) := by
  have hv := vor_searchOrder mug
  have hfirst : ∀ n,
      inInt mug (n + 1) (setNoun (.node ka va la ra)) (setNoun (.node kb vb lb rb))
        = inInt mug n (setNoun la) (setNoun (.node kb vb lb .nil)) >>= fun x =>
            inInt mug n (setNoun (.node ka va la ra)) (setNoun rb) >>= fun y =>
              inUni mug n x y := by
    intro n
    simp [inInt, setNoun, vor_eq, hor_eq, hk.not_le hv, hk.2, hle]
  have hsecond : ∀ n,
      inInt mug (n + 1) (setNoun (.node kb vb lb rb)) (setNoun (.node ka va la ra))
        = inInt mug n (setNoun la) (setNoun (.node kb vb lb .nil)) >>= fun x =>
            inInt mug n (setNoun (.node ka va la ra)) (setNoun rb) >>= fun y =>
              inUni mug n x y := by
    intro n
    simp [inInt, setNoun, vor_eq, hor_eq, hk.1, hk.2, hle]
  exact ⟨.call hfirst (hx.bind (hy.bind hc)), .call hsecond (hx.bind (hy.bind hc))⟩

theorem inInt_right {ka kb : Noun} {va vb : Unit} {la ra lb rb x y : In.Tree}
    (hk : Treap.Below (Hoon.vor mug) ka kb) (hle : Hoon.hor mug kb ka = false)
    (hx : Settles (fun n => inInt mug n (setNoun ra) (setNoun (.node kb vb .nil rb)))
      (pure (setNoun x)))
    (hy : Settles (fun n => inInt mug n (setNoun (.node ka va la ra)) (setNoun lb))
      (pure (setNoun y)))
    (hc : Settles (fun n => inUni mug n (setNoun x) (setNoun y)) (pure (setNoun c))) :
    Settles (fun n => inInt mug n (setNoun (.node ka va la ra)) (setNoun (.node kb vb lb rb)))
        (pure (setNoun c)) ∧
      Settles (fun n => inInt mug n (setNoun (.node kb vb lb rb)) (setNoun (.node ka va la ra)))
        (pure (setNoun c)) := by
  have hv := vor_searchOrder mug
  have hfirst : ∀ n,
      inInt mug (n + 1) (setNoun (.node ka va la ra)) (setNoun (.node kb vb lb rb))
        = inInt mug n (setNoun ra) (setNoun (.node kb vb .nil rb)) >>= fun x =>
            inInt mug n (setNoun (.node ka va la ra)) (setNoun lb) >>= fun y =>
              inUni mug n x y := by
    intro n
    simp [inInt, setNoun, vor_eq, hor_eq, hk.not_le hv, hk.2, hle]
  have hsecond : ∀ n,
      inInt mug (n + 1) (setNoun (.node kb vb lb rb)) (setNoun (.node ka va la ra))
        = inInt mug n (setNoun ra) (setNoun (.node kb vb .nil rb)) >>= fun x =>
            inInt mug n (setNoun (.node ka va la ra)) (setNoun lb) >>= fun y =>
              inUni mug n x y := by
    intro n
    simp [inInt, setNoun, vor_eq, hor_eq, hk.1, hk.2, hle]
  exact ⟨.call hfirst (hx.bind (hy.bind hc)), .call hsecond (hx.bind (hy.bind hc))⟩

theorem inInt_settles (h : Treap.Inter (Hoon.hor mug) (Hoon.vor mug) a b c) :
    Settles (fun n => inInt mug n (setNoun a) (setNoun b)) (pure (setNoun c)) ∧
      Settles (fun n => inInt mug n (setNoun b) (setNoun a)) (pure (setNoun c)) := by
  have hrefl : ∀ k, Hoon.vor mug k k = true :=
    fun k => ((vor_searchOrder mug).total k k).elim id id
  have hstep : ∀ k va vb la ra lb rb n,
      inInt mug (n + 1) (setNoun (.node k va la ra)) (setNoun (.node k vb lb rb))
        = inInt mug n (setNoun lb) (setNoun la) >>= fun l =>
            inInt mug n (setNoun rb) (setNoun ra) >>= fun r => pure (trel k l r) := by
    intro k va vb la ra lb rb n
    simp [inInt, setNoun, vor_eq, hrefl]
  have hnil : ∀ (a : In.Tree) (n : Nat), inInt mug (n + 1) (setNoun a) nul = pure nul := by
    intro a n
    cases a <;> rfl
  induction h with
  | nilRight a => exact ⟨.call (hnil a) (.const _), .call (fun n => rfl) (.const (pure nul))⟩
  | nilLeft b => exact ⟨.call (fun n => rfl) (.const (pure nul)), .call (hnil b) (.const _)⟩
  | @same k va vb la ra lb rb l r _ _ ihl ihr =>
      exact ⟨.call (hstep k va vb la ra lb rb) (ihl.2.bind (ihr.2.bind (.const _))),
        .call (hstep k vb va lb rb la ra) (ihl.1.bind (ihr.1.bind (.const _)))⟩
  | firstLeft hk hle _ _ hu ihx ihy => exact inInt_left hk hle ihx.1 ihy.1 (inUni_settles hu)
  | firstRight hk hle _ _ hu ihx ihy => exact inInt_right hk hle ihx.1 ihy.1 (inUni_settles hu)
  | secondLeft hk hle _ _ hu ihx ihy =>
      exact (inInt_left hk hle ihx.2 ihy.2 (inUni_settles hu)).symm
  | secondRight hk hle _ _ hu ihx ihy =>
      exact (inInt_right hk hle ihx.2 ihy.2 (inUni_settles hu)).symm

end follow

end Vere.Jets
