import Mathlib.Algebra.Ring.Nat
import Mathlib.Data.List.Basic

/-!
# Vere.Lib.Rule

Parsing rules with ordered choice.

A rule looks at a list of tokens. It takes some of them off and gives a product, or it fails,
or it crashes: the outcome is an `Edge`. A choice tries its second rule only if the first one
failed, and never comes back to it, so a rule has one outcome on a list, and parsing a printed
text is a computation: `star_flatMap` runs a repetition over a text that was printed item by
item.

`Takes N L` says that what a rule takes off a list is in a language, `Costs w` that it takes as
many tokens as its product weighs, and `Runs m k` that it does not crash and takes `k` tokens.
-/

namespace Vere.Lib

/-- The outcome of a rule: a crash, a failure, or a product and the tokens that are left. -/
inductive Edge (τ α : Type)
  | crash
  | fail
  | done (p : α) (q : List τ)
  deriving DecidableEq

abbrev Rule (τ α : Type) := List τ → Edge τ α

namespace Edge

variable {τ α β : Type}

/-- Go on with what is left. -/
def bind (e : Edge τ α) (f : α → List τ → Edge τ β) : Edge τ β :=
  match e with
  | crash => crash
  | fail => fail
  | done p q => f p q

/-- Try another way after a failure. -/
def orElse (e : Edge τ α) (f : Edge τ α) : Edge τ α :=
  match e with
  | crash => crash
  | fail => f
  | done p q => done p q

@[simp] theorem bind_crash (f : α → List τ → Edge τ β) : (crash : Edge τ α).bind f = crash := rfl

@[simp] theorem bind_fail (f : α → List τ → Edge τ β) : (fail : Edge τ α).bind f = fail := rfl

@[simp] theorem bind_done (p : α) (q : List τ) (f : α → List τ → Edge τ β) :
    (done p q).bind f = f p q := rfl

@[simp] theorem orElse_crash (f : Edge τ α) : crash.orElse f = crash := rfl

@[simp] theorem orElse_fail (f : Edge τ α) : fail.orElse f = f := rfl

@[simp] theorem orElse_done (p : α) (q : List τ) (f : Edge τ α) :
    (done p q).orElse f = done p q := rfl

theorem bind_eq_done {e : Edge τ α} {f : α → List τ → Edge τ β} {v : β} {u : List τ} :
    e.bind f = done v u ↔ ∃ p q, e = done p q ∧ f p q = done v u := by
  cases e <;> simp

theorem orElse_eq_done {e f : Edge τ α} {v : α} {u : List τ} :
    e.orElse f = done v u ↔ e = done v u ∨ (e = fail ∧ f = done v u) := by
  cases e <;> simp

end Edge

namespace Rule

variable {τ α β γ : Type}

/-- Always parse. -/
def easy (v : α) : Rule τ α := fun s => .done v s

/-- One token. -/
def item (f : τ → Option α) : Rule τ α
  | [] => .fail
  | c :: s =>
      match f c with
      | some v => .done v s
      | none => .fail

/-- Apply a gate to the product. -/
def cook (f : α → β) (r : Rule τ α) : Rule τ β := fun s => (r s).bind fun p t => .done (f p) t

/-- Apply a gate that can crash and can refuse. -/
def sear (f : α → Option (Option β)) (r : Rule τ α) : Rule τ β := fun s =>
  (r s).bind fun p t =>
    match f p with
    | some (some v) => .done v t
    | some none => .fail
    | none => .crash

/-- One rule, then another. -/
def plug (r : Rule τ α) (r' : Rule τ β) : Rule τ (α × β) := fun s =>
  (r s).bind fun p t => (r' t).bind fun q u => .done (p, q) u

/-- One rule, then another, dropping the first product. -/
def pfix (r : Rule τ α) (r' : Rule τ β) : Rule τ β := fun s => (r s).bind fun _ t => r' t

/-- One rule, then another, dropping the second product. -/
def sfix (r : Rule τ α) (r' : Rule τ β) : Rule τ α := fun s =>
  (r s).bind fun p t => (r' t).bind fun _ u => .done p u

/-- One rule, then one for a list, with one list for their product. -/
def cons (r : Rule τ α) (r' : Rule τ (List α)) : Rule τ (List α) := fun s =>
  (r s).bind fun p t => (r' t).bind fun q u => .done (p :: q) u

/-- One rule, or another where that one fails. -/
def pose (r r' : Rule τ α) : Rule τ α := fun s => (r s).orElse (r' s)

/-- A rule where another one fails. -/
def less (r : Rule τ β) (r' : Rule τ α) : Rule τ α := fun s =>
  match r s with
  | .crash => .crash
  | .fail => r' s
  | .done _ _ => .fail

/-- As often as it goes. A rule that parses without taking anything would go on forever; that
counts as a crash. -/
def star (r : Rule τ α) (s : List τ) : Edge τ (List α) :=
  match r s with
  | .crash => .crash
  | .fail => .done [] s
  | .done p t =>
      if _ : t.length < s.length then (star r t).bind fun ps u => .done (p :: ps) u else .crash
termination_by s.length

/-- At least so often, and at most so often. -/
def stun (r : Rule τ α) : Nat → Nat → List τ → Edge τ (List α)
  | _, 0, s => .done [] s
  | les, mos + 1, s =>
      match r s with
      | .crash => .crash
      | .fail => if les = 0 then .done [] s else .fail
      | .done p t => (stun r (les - 1) mos t).bind fun ps u => .done (p :: ps) u

/-- At least once. -/
def plus (r : Rule τ α) : Rule τ (List α) := cons r (star r)

/-- At least once, with something between. -/
def most (bus : Rule τ β) (r : Rule τ α) : Rule τ (List α) := cons r (star (pfix bus r))

/-- As often as it goes, with something between. -/
def more (bus : Rule τ β) (r : Rule τ α) : Rule τ (List α) := pose (most bus r) (easy [])

/-- Up to the end of the list. -/
def full (r : Rule τ α) : Rule τ α := fun s =>
  (r s).bind fun p t => if t.isEmpty then .done p t else .fail

/-! ### Repetitions over a printed text -/

section text

variable {r : Rule τ α} {s t u : List τ} {p : α} {ps : List α}

theorem star_fail (h : r s = .fail) : star r s = .done [] s := by
  rw [star, h]

theorem star_done (h : r s = .done p t) (hlt : t.length < s.length) (ht : star r t = .done ps u) :
    star r s = .done (p :: ps) u := by
  rw [star, h]
  simp [hlt, ht]

/-- A text of items that the rule takes one by one if `P` holds of what follows, up to where it
fails. -/
theorem star_flatMap_of {P : List τ → Prop} {f : α → List τ} {l : List α}
    (hne : ∀ a ∈ l, f a ≠ []) (hl : ∀ a ∈ l, ∀ s, P s → r (f a ++ s) = .done a s)
    (hP : ∀ a ∈ l, ∀ s, P (f a ++ s)) (hPs : P s) (hs : r s = .fail) :
    star r (l.flatMap f ++ s) = .done l s := by
  induction l with
  | nil => exact star_fail hs
  | cons a l ih =>
      have htail := ih (fun b hb => hne b (List.mem_cons_of_mem a hb))
        (fun b hb => hl b (List.mem_cons_of_mem a hb))
        (fun b hb => hP b (List.mem_cons_of_mem a hb))
      have hnext : P (l.flatMap f ++ s) := by
        cases l with
        | nil => exact hPs
        | cons b l =>
            rw [List.flatMap_cons, List.append_assoc]
            exact hP b (by simp) _
      rw [List.flatMap_cons, List.append_assoc]
      refine star_done (hl a List.mem_cons_self _ hnext) ?_ htail
      have hpos := List.length_pos_iff.mpr (hne a List.mem_cons_self)
      simp only [List.length_append]
      omega

/-- A text of items that the rule takes one by one, up to where it fails. -/
theorem star_flatMap {f : α → List τ} {l : List α} (hne : ∀ a ∈ l, f a ≠ [])
    (hl : ∀ a ∈ l, ∀ s, r (f a ++ s) = .done a s) (hs : r s = .fail) :
    star r (l.flatMap f ++ s) = .done l s :=
  star_flatMap_of (P := fun _ => True) hne (fun a ha s _ => hl a ha s) (fun _ _ _ => trivial)
    trivial hs

/-- The text of a list with a token between the items. -/
theorem most_flatMap {bus : Rule τ β} {P : List τ → Prop} {f : α → List τ} {c : τ} {d : β}
    {a : α} {l : List α} (hl : ∀ b ∈ a :: l, ∀ s, P s → r (f b ++ s) = .done b s)
    (hc : ∀ s, bus (c :: s) = .done d s) (hP : ∀ s, P (c :: s)) (hPs : P s) (hs : bus s = .fail) :
    most bus r (f a ++ (l.flatMap (fun b => c :: f b) ++ s)) = .done (a :: l) s := by
  have hnext : P (l.flatMap (fun b => c :: f b) ++ s) := by
    cases l with
    | nil => exact hPs
    | cons b l => exact hP _
  have hrest : star (pfix bus r) (l.flatMap (fun b => c :: f b) ++ s) = .done l s := by
    refine star_flatMap_of (P := P) (fun _ _ => List.cons_ne_nil _ _) ?_ (fun _ _ s => hP _) hPs ?_
    · intro b hb s hPs
      rw [List.cons_append, pfix, hc, Edge.bind_done]
      exact hl b (List.mem_cons_of_mem a hb) s hPs
    · rw [pfix, hs, Edge.bind_fail]
  rw [most, cons, hl a List.mem_cons_self _ hnext, Edge.bind_done, hrest, Edge.bind_done]

end text

/-! ### What a rule takes -/

/-- The second list is left of the first, and what was taken is in the language. -/
def Taken (L : List τ → Prop) (s t : List τ) : Prop := ∃ u, s = u ++ t ∧ L u

/-- On a list that satisfies `N`, whatever the rule takes is in the language `L`. -/
def Takes (N L : List τ → Prop) (r : Rule τ α) : Prop :=
  ∀ ⦃s v t⦄, N s → r s = .done v t → Taken L s t

/-- What is left of a list keeps the one property, and lists in a row keep the other. -/
structure Joins (N L : List τ → Prop) : Prop where
  left : ∀ ⦃u s⦄, N (u ++ s) → N s
  nil : L []
  append : ∀ ⦃u v⦄, L u → L v → L (u ++ v)

section takes

variable {N L : List τ → Prop} {r r₂ : Rule τ α} {r' : Rule τ β}

theorem takes_fail : Takes N L (fun _ => .fail : Rule τ α) := nofun

theorem Joins.easy (hj : Joins N L) (v : α) : Takes N L (easy v : Rule τ α) := by
  intro s w t _ hd
  cases hd
  exact ⟨[], rfl, hj.nil⟩

theorem takes_item {f : τ → Option α} (h : ∀ c v, f c = some v → L [c]) : Takes N L (item f) := by
  intro s w t _ hd
  cases s with
  | nil => cases hd
  | cons c s =>
      rw [item] at hd
      split at hd
      · next v hv =>
          cases hd
          exact ⟨[c], rfl, h c _ hv⟩
      · cases hd

theorem Joins.bind (hj : Joins N L) (h : Takes N L r) {f : α → Rule τ β}
    (hf : ∀ v, Takes N L (f v)) : Takes N L fun s => (r s).bind f := by
  intro s w u hs hd
  obtain ⟨v, t, hr, hv⟩ := Edge.bind_eq_done.mp hd
  obtain ⟨x, rfl, hx⟩ := h hs hr
  obtain ⟨y, rfl, hy⟩ := hf v (hj.left hs) hv
  exact ⟨x ++ y, (List.append_assoc ..).symm, hj.append hx hy⟩

theorem Joins.cook (hj : Joins N L) (h : Takes N L r) (f : α → β) : Takes N L (cook f r) :=
  hj.bind h fun v => hj.easy (f v)

theorem Joins.sear (hj : Joins N L) (h : Takes N L r) (f : α → Option (Option β)) :
    Takes N L (sear f r) := by
  refine hj.bind h fun v => ?_
  cases f v with
  | none => exact nofun
  | some o =>
      cases o with
      | none => exact nofun
      | some w => exact hj.easy w

theorem Joins.plug (hj : Joins N L) (h : Takes N L r) (h' : Takes N L r') :
    Takes N L (plug r r') := hj.bind h fun v => hj.cook h' fun w => (v, w)

theorem Joins.pfix (hj : Joins N L) (h : Takes N L r) (h' : Takes N L r') :
    Takes N L (pfix r r') := hj.bind h fun _ => h'

theorem Joins.sfix (hj : Joins N L) (h : Takes N L r) (h' : Takes N L r') :
    Takes N L (sfix r r') := hj.bind h fun v => hj.cook h' fun _ => v

theorem Joins.cons (hj : Joins N L) {rs : Rule τ (List α)} (h : Takes N L r)
    (h' : Takes N L rs) : Takes N L (cons r rs) := hj.bind h fun v => hj.cook h' fun l => v :: l

theorem Takes.pose (h : Takes N L r) (h₂ : Takes N L r₂) : Takes N L (pose r r₂) := by
  intro s w t hs hd
  rcases Edge.orElse_eq_done.mp hd with hr | ⟨_, hr⟩
  · exact h hs hr
  · exact h₂ hs hr

theorem Takes.less (h : Takes N L r) (r' : Rule τ β) : Takes N L (less r' r) := by
  intro s w t hs hd
  rw [Rule.less] at hd
  split at hd
  · cases hd
  · exact h hs hd
  · cases hd

theorem Joins.star (hj : Joins N L) (h : Takes N L r) : Takes N L (star r) := by
  intro s
  induction s using star.induct r with
  | case1 s hc =>
      intro w t _ hd
      rw [Rule.star, hc] at hd
      cases hd
  | case2 s hf =>
      intro w t _ hd
      rw [star_fail hf] at hd
      cases hd
      exact ⟨[], rfl, hj.nil⟩
  | case3 s p t hr hlt ih =>
      intro w u hs hd
      rw [Rule.star, hr] at hd
      simp only [hlt, dite_true] at hd
      obtain ⟨ps, q, hst, hv⟩ := Edge.bind_eq_done.mp hd
      cases hv
      obtain ⟨x, rfl, hx⟩ := h hs hr
      obtain ⟨y, rfl, hy⟩ := ih (hj.left hs) hst
      exact ⟨x ++ y, (List.append_assoc ..).symm, hj.append hx hy⟩
  | case4 s p t hr hlt =>
      intro w u _ hd
      rw [Rule.star, hr] at hd
      simp [hlt] at hd

theorem Joins.stun (hj : Joins N L) (h : Takes N L r) (les mos : Nat) :
    Takes N L (stun r les mos) := by
  induction mos generalizing les with
  | zero => exact hj.easy []
  | succ mos ih =>
      intro s w u hs hd
      rw [Rule.stun] at hd
      split at hd
      · cases hd
      · split at hd
        · exact hj.easy [] hs hd
        · cases hd
      · next p t hr =>
          obtain ⟨x, rfl, hx⟩ := h hs hr
          obtain ⟨ps, q, hst, hv⟩ := Edge.bind_eq_done.mp hd
          cases hv
          obtain ⟨y, rfl, hy⟩ := ih _ (hj.left hs) hst
          exact ⟨x ++ y, (List.append_assoc ..).symm, hj.append hx hy⟩

theorem Joins.more (hj : Joins N L) (h' : Takes N L r') (h : Takes N L r) :
    Takes N L (more r' r) := (hj.cons h (hj.star (hj.pfix h' h))).pose (hj.easy [])

end takes

/-- A repetition whose products are the tokens it takes. -/
theorem star_echo {Q : τ → Prop} {r : Rule τ τ} (h : ∀ s v t, r s = .done v t → s = v :: t ∧ Q v)
    {s t l : List τ} (hd : star r s = .done l t) : s = l ++ t ∧ ∀ c ∈ l, Q c := by
  induction s using star.induct r generalizing l with
  | case1 s hc =>
      rw [star, hc] at hd
      cases hd
  | case2 s hf =>
      rw [star_fail hf] at hd
      cases hd
      exact ⟨rfl, nofun⟩
  | case3 s p u hr hlt ih =>
      rw [star, hr] at hd
      simp only [hlt, dite_true] at hd
      obtain ⟨ps, q, hst, hv⟩ := Edge.bind_eq_done.mp hd
      cases hv
      obtain ⟨rfl, hp⟩ := h _ _ _ hr
      obtain ⟨rfl, hps⟩ := ih hst
      exact ⟨rfl, List.forall_mem_cons.mpr ⟨hp, hps⟩⟩
  | case4 s p u hr hlt =>
      rw [star, hr] at hd
      simp [hlt] at hd

/-! ### What a product costs -/

/-- A rule takes as many tokens for a product as it weighs, or more. -/
def Costs (w : α → Nat) (r : Rule τ α) : Prop :=
  ∀ ⦃s v t⦄, r s = .done v t → t.length + w v ≤ s.length

section costs

variable {w : α → Nat} {w' : β → Nat} {r r₂ : Rule τ α} {r' : Rule τ β}

theorem costs_fail : Costs w (fun _ => .fail : Rule τ α) := nofun

theorem costs_easy {v : α} (h : w v = 0) : Costs w (easy v : Rule τ α) := by
  intro s u t hd
  cases hd
  rw [h]
  exact Nat.le_refl _

theorem costs_item {f : τ → Option α} (h : ∀ c v, f c = some v → w v ≤ 1) : Costs w (item f) := by
  intro s v t hd
  cases s with
  | nil => cases hd
  | cons c s =>
      rw [item] at hd
      split at hd
      · next u hu =>
          cases hd
          rw [List.length_cons]
          exact Nat.add_le_add_left (h c _ hu) _
      · cases hd

theorem Costs.cook (h : Costs w r) {f : α → β} (hf : ∀ v, w' (f v) ≤ w v) :
    Costs w' (cook f r) := by
  intro s v t hd
  obtain ⟨p, q, hr, hv⟩ := Edge.bind_eq_done.mp hd
  cases hv
  exact Nat.le_trans (Nat.add_le_add_left (hf p) _) (h hr)

theorem Costs.mono (h : Costs w r) {w₂ : α → Nat} (hw : ∀ v, w₂ v ≤ w v) : Costs w₂ r :=
  fun _ v _ hd => Nat.le_trans (Nat.add_le_add_left (hw v) _) (h hd)

theorem Costs.plug (h : Costs w r) (h' : Costs w' r') :
    Costs (fun x => w x.1 + w' x.2) (plug r r') := by
  intro s v t hd
  obtain ⟨p, q, hr, hv⟩ := Edge.bind_eq_done.mp hd
  obtain ⟨p', q', hr', hv⟩ := Edge.bind_eq_done.mp hv
  cases hv
  have := h hr
  have := h' hr'
  dsimp only
  omega

/-- What is dropped costs something too. -/
theorem Costs.pfix {k : Nat} (h : Costs (fun _ => k) r) (h' : Costs w' r') :
    Costs (fun v => k + w' v) (pfix r r') := by
  intro s v t hd
  obtain ⟨p, q, hr, hv⟩ := Edge.bind_eq_done.mp hd
  have := h hr
  have := h' hv
  beta_reduce at *
  omega

theorem Costs.sfix {k : Nat} (h : Costs w r) (h' : Costs (fun _ => k) r') :
    Costs (fun v => w v + k) (sfix r r') := by
  intro s v t hd
  obtain ⟨p, q, hr, hv⟩ := Edge.bind_eq_done.mp hd
  obtain ⟨p', q', hr', hv⟩ := Edge.bind_eq_done.mp hv
  cases hv
  have := h hr
  have := h' hr'
  beta_reduce at *
  omega

theorem Costs.cons {w' : List α → Nat} {rs : Rule τ (List α)} (h : Costs w r) (h' : Costs w' rs)
    {w₂ : List α → Nat} (hw : ∀ p ps, w₂ (p :: ps) ≤ w p + w' ps) : Costs w₂ (cons r rs) := by
  intro s v t hd
  obtain ⟨p, q, hr, hv⟩ := Edge.bind_eq_done.mp hd
  obtain ⟨p', q', hr', hv⟩ := Edge.bind_eq_done.mp hv
  cases hv
  have := h hr
  have := h' hr'
  have := hw p p'
  omega

theorem Costs.pose (h : Costs w r) (h₂ : Costs w r₂) : Costs w (pose r r₂) := by
  intro s v t hd
  rcases Edge.orElse_eq_done.mp hd with hr | ⟨_, hr⟩
  · exact h hr
  · exact h₂ hr

theorem Costs.star (h : Costs w r) : Costs (fun l => (l.map w).sum) (star r) := by
  intro s
  induction s using star.induct r with
  | case1 s hc =>
      intro v t hd
      rw [Rule.star, hc] at hd
      cases hd
  | case2 s hf =>
      intro v t hd
      rw [star_fail hf] at hd
      cases hd
      exact Nat.le_refl _
  | case3 s p t hr hlt ih =>
      intro v u hd
      rw [Rule.star, hr] at hd
      simp only [hlt, dite_true] at hd
      obtain ⟨ps, q, hs, hv⟩ := Edge.bind_eq_done.mp hd
      cases hv
      have hp := h hr
      have hps := ih hs
      beta_reduce at *
      rw [List.map_cons, List.sum_cons]
      omega
  | case4 s p t hr hlt =>
      intro v u hd
      rw [Rule.star, hr] at hd
      simp [hlt] at hd

/-- A bounded repetition of a rule whose products have a property. -/
theorem stun_done {Q : α → Prop} (h : ∀ s v t, r s = .done v t → Q v ∧ t.length + 1 ≤ s.length)
    {les mos : Nat} {s t : List τ} {ps : List α} (hd : stun r les mos s = .done ps t) :
    (∀ p ∈ ps, Q p) ∧ (min les mos ≤ ps.length ∧ ps.length ≤ mos) ∧
      t.length + ps.length ≤ s.length := by
  induction mos generalizing les s ps with
  | zero =>
      cases hd
      exact ⟨nofun, by simp, Nat.le_refl _⟩
  | succ mos ih =>
      rw [stun] at hd
      cases hr : r s with
      | crash => simp [hr] at hd
      | fail =>
          simp only [hr] at hd
          split at hd
          · next hles =>
              cases hd
              subst hles
              exact ⟨nofun, by simp, Nat.le_refl _⟩
          · cases hd
      | done p u =>
          simp only [hr] at hd
          obtain ⟨qs, v, hst, hv⟩ := Edge.bind_eq_done.mp hd
          cases hv
          obtain ⟨hp, hlen⟩ := h _ _ _ hr
          obtain ⟨hall, ⟨hmin, hmax⟩, hle⟩ := ih hst
          refine ⟨List.forall_mem_cons.mpr ⟨hp, hall⟩, ?_, ?_⟩
          · rw [List.length_cons]
            omega
          · rw [List.length_cons]
            omega

/-- A list with something between the items. -/
theorem Costs.more {k : Nat} (h' : Costs (fun _ => k) r') (h : Costs w r) :
    Costs (fun l => (l.map fun v => w v + k).sum - k) (more r' r) := by
  refine .pose (h.cons (h'.pfix h).star fun p ps => ?_) (costs_easy (Nat.zero_sub k))
  have hmap : (fun v => w v + k) = fun v => k + w v := funext fun v => Nat.add_comm ..
  rw [List.map_cons, List.sum_cons, hmap]
  omega

end costs

/-! ### Rules that do not crash -/

/-- On lists no longer than `m` the rule does not crash, and takes off `k` tokens or more. -/
def Runs (m k : Nat) (r : Rule τ α) : Prop :=
  ∀ s, s.length ≤ m → r s ≠ .crash ∧ ∀ v t, r s = .done v t → t.length + k ≤ s.length

section runs

variable {m m' k j : Nat} {r : Rule τ α} {r' : Rule τ β}

theorem Runs.mono (h : Runs m k r) (hm : m' ≤ m) (hk : j ≤ k) : Runs m' j r := by
  intro s hs
  obtain ⟨hne, hlen⟩ := h s (Nat.le_trans hs hm)
  exact ⟨hne, fun v t hd => Nat.le_trans (Nat.add_le_add_left hk _) (hlen v t hd)⟩

theorem Runs.any (h : Runs m k r) : Runs m 0 r := h.mono (Nat.le_refl m) (Nat.zero_le k)

theorem runs_fail : Runs m k (fun _ => .fail : Rule τ α) := fun _ _ => ⟨nofun, nofun⟩

theorem runs_easy (v : α) : Runs m 0 (easy v : Rule τ α) := by
  intro s _
  refine ⟨nofun, fun w t hd => ?_⟩
  cases hd
  exact Nat.le_refl _

theorem runs_item (f : τ → Option α) : Runs m 1 (item f) := by
  intro s _
  cases s with
  | nil => exact ⟨fun h => (by cases h), fun _ _ h => by cases h⟩
  | cons c s =>
      rw [item]
      split
      · refine ⟨fun h => (by cases h), fun w t hd => ?_⟩
        cases hd
        exact Nat.le_refl _
      · exact ⟨fun h => (by cases h), fun _ _ h => by cases h⟩

/-- What follows sees a list that is shorter by what was taken. -/
theorem Runs.bind (h : Runs m k r) {f : α → Rule τ β} (hf : k ≤ m → ∀ v, Runs (m - k) j (f v)) :
    Runs m (k + j) fun s => (r s).bind f := by
  intro s hs
  obtain ⟨hne, hlen⟩ := h s hs
  cases hr : r s with
  | crash => exact absurd hr hne
  | fail =>
      simp only [hr, Edge.bind_fail]
      exact ⟨nofun, nofun⟩
  | done v t =>
      have ht := hlen v t hr
      obtain ⟨hne', hlen'⟩ := hf (by omega) v t (by omega)
      simp only [hr, Edge.bind_done]
      refine ⟨hne', fun w u hd => ?_⟩
      have hu := hlen' w u hd
      omega

theorem Runs.cook (h : Runs m k r) (f : α → β) : Runs m k (cook f r) :=
  h.bind fun _ v => runs_easy (f v)

theorem Runs.plug (h : Runs m k r) (h' : Runs (m - k) j r') : Runs m (k + j) (plug r r') :=
  h.bind fun _ v => h'.cook fun w => (v, w)

theorem Runs.pfix (h : Runs m k r) (h' : Runs (m - k) j r') : Runs m (k + j) (pfix r r') :=
  h.bind fun _ _ => h'

theorem Runs.sfix (h : Runs m k r) (h' : Runs (m - k) j r') : Runs m (k + j) (sfix r r') :=
  h.bind fun _ v => h'.cook fun _ => v

theorem Runs.cons {rs : Rule τ (List α)} (h : Runs m k r) (h' : Runs (m - k) j rs) :
    Runs m (k + j) (cons r rs) :=
  h.bind fun _ v => h'.cook fun l => v :: l

theorem Runs.sear (h : Runs m k r) {f : α → Option (Option β)} (hf : ∀ v, f v ≠ none) :
    Runs m k (sear f r) := by
  refine h.bind (j := 0) fun _ v => ?_
  intro s _
  cases hv : f v with
  | none => exact absurd hv (hf v)
  | some o =>
      cases o with
      | none => exact ⟨nofun, nofun⟩
      | some w => exact runs_easy w s (Nat.le_refl _)

theorem Runs.pose {r₂ : Rule τ α} (h : Runs m k r) (h' : Runs m k r₂) : Runs m k (pose r r₂) := by
  intro s hs
  obtain ⟨hne, hlen⟩ := h s hs
  rw [Rule.pose]
  cases hr : r s with
  | crash => exact absurd hr hne
  | fail => exact h' s hs
  | done v t =>
      refine ⟨nofun, fun w u hd => ?_⟩
      cases hd
      exact hlen v t hr

theorem Runs.less (h : Runs m j r') (h' : Runs m k r) : Runs m k (less r' r) := by
  intro s hs
  rw [Rule.less]
  cases hr : r' s with
  | crash => exact absurd hr (h s hs).1
  | fail => exact h' s hs
  | done v t => exact ⟨nofun, nofun⟩

theorem Runs.full (h : Runs m k r) : Runs m k (full r) := by
  refine h.bind (j := 0) fun _ v => ?_
  intro s _
  beta_reduce
  split
  · exact runs_easy v s (Nat.le_refl _)
  · exact ⟨nofun, nofun⟩

theorem Runs.star (h : Runs m 1 r) : Runs m 0 (star r) := by
  intro s
  induction s using star.induct r with
  | case1 s hc => exact fun hs => absurd hc (h s hs).1
  | case2 s hf =>
      rw [star_fail hf]
      exact runs_easy [] s
  | case3 s p t hr hlt ih =>
      intro hs
      obtain ⟨hne, hlen⟩ := ih (by omega)
      rw [Rule.star, hr]
      simp only [hlt, dite_true]
      cases hst : Rule.star r t with
      | crash => exact absurd hst hne
      | fail => exact ⟨nofun, nofun⟩
      | done ps u =>
          refine ⟨nofun, fun w v hd => ?_⟩
          cases hd
          have := hlen ps u hst
          omega
  | case4 s p t hr hlt =>
      intro hs
      have := (h s hs).2 p t hr
      omega

theorem Runs.more {bus : Rule τ β} (h' : Runs m 0 bus) (h : Runs m 1 r) :
    Runs m 0 (more bus r) := by
  have hrest : Runs m 1 (Rule.pfix bus r) := h'.pfix h
  exact (h.cons (hrest.star.mono (Nat.sub_le m 1) (Nat.le_refl 0))).any.pose (runs_easy [])

theorem Runs.stun (h : Runs m 1 r) {les mos : Nat} (hle : les ≤ mos) :
    Runs m les (stun r les mos) := by
  induction mos generalizing les with
  | zero =>
      obtain rfl : les = 0 := Nat.le_zero.mp hle
      exact runs_easy []
  | succ mos ih =>
      intro s hs
      obtain ⟨hne, hlen⟩ := h s hs
      rw [Rule.stun]
      cases hr : r s with
      | crash => exact absurd hr hne
      | fail =>
          by_cases hles : les = 0
          · rw [if_pos hles, hles]
            exact runs_easy [] s hs
          · rw [if_neg hles]
            exact ⟨nofun, nofun⟩
      | done p t =>
          have ht := hlen p t hr
          obtain ⟨hne', hlen'⟩ :=
            ((ih (by omega : les - 1 ≤ mos)).cook fun ps => p :: ps) t (by omega)
          refine ⟨hne', fun w u hd => ?_⟩
          have hu := hlen' w u hd
          omega

end runs

end Rule

end Vere.Lib
