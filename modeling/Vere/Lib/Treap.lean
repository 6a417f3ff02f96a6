import Mathlib.Tactic.Common

/-!
# Vere.Lib.Treap

Search trees balanced by a heap order on their keys.

A treap is searched by one order on its keys and balanced by another: after an
insertion into a subtree, the root and the root of that subtree are swapped by
a rotation unless the heap order already holds between them. Nothing about the
heap order is needed for lookups to be right, so it is an arbitrary relation
here; the search order has to be a total order (`SearchOrder`).

The results the users of the module need are `lookup_insert` and
`lookup_delete`: an insertion or a deletion changes the lookup at its own key and
nowhere else, on trees that satisfy `Ordered`. Both keep `Ordered`, and, where the
heap order is a total order too, `Heaped`.
-/

namespace Vere.Lib

/-- A binary tree with a key and a value at each node. -/
inductive Treap (κ β : Type)
  | nil
  | node (k : κ) (v : β) (l r : Treap κ β)
  deriving Repr, DecidableEq

/-- A decidable total order, as a `Bool`-valued relation. -/
structure SearchOrder {κ : Type} (le : κ → κ → Bool) : Prop where
  /-- Any two keys are comparable. -/
  total : ∀ a b, le a b = true ∨ le b a = true
  /-- The order is transitive. -/
  trans : ∀ a b c, le a b = true → le b c = true → le a c = true
  /-- Keys that are equivalent in the order are equal. -/
  antisymm : ∀ a b, le a b = true → le b a = true → a = b

namespace Treap

variable {κ β : Type} [DecidableEq κ] {le hp : κ → κ → Bool}

/-- The value stored under a key. -/
def lookup (le : κ → κ → Bool) : Treap κ β → κ → Option β
  | nil, _ => none
  | node k v l r, j =>
      if j = k then some v
      else if le j k then lookup le l j
      else lookup le r j

/-- Put a new left subtree below a root, rotating unless the heap order holds. -/
def linkLeft (hp : κ → κ → Bool) (k : κ) (v : β) (d r : Treap κ β) : Treap κ β :=
  match d with
  | nil => node k v nil r
  | node k' v' l' r' => if hp k k' then node k v d r else node k' v' l' (node k v r' r)

/-- Put a new right subtree below a root, rotating unless the heap order holds. -/
def linkRight (hp : κ → κ → Bool) (k : κ) (v : β) (l d : Treap κ β) : Treap κ β :=
  match d with
  | nil => node k v l nil
  | node k' v' l' r' => if hp k k' then node k v l d else node k' v' (node k v l l') r'

/-- Store a value under a key. -/
def insert [DecidableEq β] (le hp : κ → κ → Bool) : Treap κ β → κ → β → Treap κ β
  | nil, j, w => node j w nil nil
  | node k v l r, j, w =>
      if j = k then if w = v then node k v l r else node j w l r
      else if le j k then linkLeft hp k v (insert le hp l j w) r
      else linkRight hp k v l (insert le hp r j w)

/-- Put two trees together: the root is the one the heap order prefers. -/
def merge (hp : κ → κ → Bool) : Treap κ β → Treap κ β → Treap κ β
  | nil, r => r
  | node k v l r, nil => node k v l r
  | node k v l r, node k' v' l' r' =>
      if hp k k' then node k v l (merge hp r (node k' v' l' r'))
      else node k' v' (merge hp (node k v l r) l') r'

/-- Remove a key. -/
def delete (le hp : κ → κ → Bool) : Treap κ β → κ → Treap κ β
  | nil, _ => nil
  | node k v l r, j =>
      if j = k then merge hp l r
      else if le j k then node k v (delete le hp l j) r
      else node k v l (delete le hp r j)

/-- Every key of the tree satisfies `P`. -/
def AllKeys (P : κ → Prop) : Treap κ β → Prop
  | nil => True
  | node k _ l r => P k ∧ AllKeys P l ∧ AllKeys P r

/-- Strictly below in the search order. -/
def Below (le : κ → κ → Bool) (a b : κ) : Prop := le a b = true ∧ a ≠ b

/-- The search invariant: keys below the root on its left, above it on its
right, at every node. -/
def Ordered (le : κ → κ → Bool) : Treap κ β → Prop
  | nil => True
  | node k _ l r =>
      AllKeys (fun j => Below le j k) l ∧ AllKeys (fun j => Below le k j) r ∧
        Ordered le l ∧ Ordered le r

/-- The heap invariant: every node is above all that is under it. -/
def Heaped (hp : κ → κ → Bool) : Treap κ β → Prop
  | nil => True
  | node k _ l r =>
      AllKeys (fun j => Below hp k j) l ∧ AllKeys (fun j => Below hp k j) r ∧
        Heaped hp l ∧ Heaped hp r

/-! ### The order -/

omit [DecidableEq κ] in
theorem Below.trans (ho : SearchOrder le) {a b c : κ} (h1 : Below le a b)
    (h2 : Below le b c) : Below le a c := by
  refine ⟨ho.trans a b c h1.1 h2.1, ?_⟩
  intro hac
  subst hac
  exact h1.2 (ho.antisymm a b h1.1 h2.1)

omit [DecidableEq κ] in
theorem Below.not_le (ho : SearchOrder le) {a b : κ} (h : Below le a b) :
    le b a = false := by
  cases hba : le b a with
  | false => rfl
  | true => exact absurd (ho.antisymm a b h.1 hba) h.2

omit [DecidableEq κ] in
theorem below_of_not_le (ho : SearchOrder le) {a b : κ} (hne : a ≠ b)
    (h : le a b = false) : Below le b a := by
  rcases ho.total a b with hab | hba
  · rw [h] at hab
    cases hab
  · exact ⟨hba, fun e => hne e.symm⟩

omit [DecidableEq κ] in
theorem AllKeys.imp {P Q : κ → Prop} {t : Treap κ β} (h : AllKeys P t)
    (hpq : ∀ j, P j → Q j) : AllKeys Q t := by
  induction t with
  | nil => trivial
  | node k v l r ihl ihr => exact ⟨hpq k h.1, ihl h.2.1, ihr h.2.2⟩

/-! ### Searching -/

theorem lookup_self (k : κ) (v : β) (l r : Treap κ β) :
    lookup le (node k v l r) k = some v := if_pos rfl

theorem lookup_below (k : κ) (v : β) (l r : Treap κ β) {j : κ} (h : Below le j k) :
    lookup le (node k v l r) j = lookup le l j := by
  rw [lookup, if_neg h.2, if_pos h.1]

theorem lookup_above (ho : SearchOrder le) (k : κ) (v : β) (l r : Treap κ β) {j : κ}
    (h : Below le k j) : lookup le (node k v l r) j = lookup le r j := by
  rw [lookup, if_neg (fun e => h.2 e.symm), h.not_le ho, if_neg Bool.false_ne_true]

/-- A rotation to the right keeps every lookup. -/
theorem lookup_rotate (ho : SearchOrder le) {k k' : κ} (v v' : β) (l' r' r : Treap κ β)
    (h : Below le k' k) (j : κ) :
    lookup le (node k' v' l' (node k v r' r)) j
      = lookup le (node k v (node k' v' l' r') r) j := by
  by_cases h1 : j = k'
  · subst h1
    rw [lookup_self, lookup_below _ _ _ _ h, lookup_self]
  cases h2 : le j k' with
  | true =>
      have hb : Below le j k' := ⟨h2, h1⟩
      rw [lookup_below _ _ _ _ hb, lookup_below _ _ _ _ (hb.trans ho h),
        lookup_below _ _ _ _ hb]
  | false =>
      have ha : Below le k' j := below_of_not_le ho h1 h2
      rw [lookup_above ho _ _ _ _ ha]
      by_cases h3 : j = k
      · subst h3
        rw [lookup_self, lookup_self]
      cases h4 : le j k with
      | true =>
          have hb : Below le j k := ⟨h4, h3⟩
          rw [lookup_below _ _ _ _ hb, lookup_below _ _ _ _ hb,
            lookup_above ho _ _ _ _ ha]
      | false =>
          have ha' : Below le k j := below_of_not_le ho h3 h4
          rw [lookup_above ho _ _ _ _ ha', lookup_above ho _ _ _ _ ha']

theorem lookup_linkLeft (ho : SearchOrder le) {k : κ} (v : β) {d : Treap κ β}
    (r : Treap κ β) (hd : AllKeys (fun j => Below le j k) d) (j : κ) :
    lookup le (linkLeft hp k v d r) j = lookup le (node k v d r) j := by
  cases d with
  | nil => rfl
  | node k' v' l' r' =>
      rw [linkLeft]
      split
      · rfl
      · exact lookup_rotate ho v v' l' r' r hd.1 j

theorem lookup_linkRight (ho : SearchOrder le) {k : κ} (v : β) (l : Treap κ β)
    {d : Treap κ β} (hd : AllKeys (fun j => Below le k j) d) (j : κ) :
    lookup le (linkRight hp k v l d) j = lookup le (node k v l d) j := by
  cases d with
  | nil => rfl
  | node k' v' l' r' =>
      rw [linkRight]
      split
      · rfl
      · exact (lookup_rotate ho v' v l l' r' hd.1 j).symm

/-! ### Inserting -/

omit [DecidableEq κ] in
theorem allKeys_linkLeft {P : κ → Prop} {k : κ} {v : β} {d r : Treap κ β} (hk : P k)
    (hd : AllKeys P d) (hr : AllKeys P r) : AllKeys P (linkLeft hp k v d r) := by
  cases d with
  | nil => exact ⟨hk, hd, hr⟩
  | node k' v' l' r' =>
      rw [linkLeft]
      split
      · exact ⟨hk, hd, hr⟩
      · exact ⟨hd.1, hd.2.1, hk, hd.2.2, hr⟩

omit [DecidableEq κ] in
theorem allKeys_linkRight {P : κ → Prop} {k : κ} {v : β} {l d : Treap κ β} (hk : P k)
    (hl : AllKeys P l) (hd : AllKeys P d) : AllKeys P (linkRight hp k v l d) := by
  cases d with
  | nil => exact ⟨hk, hl, hd⟩
  | node k' v' l' r' =>
      rw [linkRight]
      split
      · exact ⟨hk, hl, hd⟩
      · exact ⟨hd.1, ⟨hk, hl, hd.2.1⟩, hd.2.2⟩

theorem allKeys_insert [DecidableEq β] {P : κ → Prop} {t : Treap κ β} {j : κ} (w : β)
    (ht : AllKeys P t) (hj : P j) : AllKeys P (insert le hp t j w) := by
  induction t with
  | nil => exact ⟨hj, trivial, trivial⟩
  | node k v l r ihl ihr =>
      obtain ⟨hk, hl, hr⟩ := ht
      rw [insert]
      split
      · split
        · exact ⟨hk, hl, hr⟩
        · exact ⟨hj, hl, hr⟩
      · split
        · exact allKeys_linkLeft hk (ihl hl) hr
        · exact allKeys_linkRight hk hl (ihr hr)

/-! A rotation needs no more of the search order than that it is transitive. -/

omit [DecidableEq κ] in
theorem ordered_linkLeft (ht : ∀ {a b c : κ}, Below le a b → Below le b c → Below le a c)
    {k : κ} {v : β} {d r : Treap κ β} (h : Ordered le (node k v d r)) :
    Ordered le (linkLeft hp k v d r) := by
  cases d with
  | nil => exact h
  | node k' v' l' r' =>
      obtain ⟨hd, hr, ⟨hl', hr', ol', or'⟩, orr⟩ := h
      rw [linkLeft]
      split
      · exact ⟨hd, hr, ⟨hl', hr', ol', or'⟩, orr⟩
      · exact ⟨hl', ⟨hd.1, hr', hr.imp fun _ hj => ht hd.1 hj⟩, ol',
          hd.2.2, hr, or', orr⟩

omit [DecidableEq κ] in
theorem ordered_linkRight (ht : ∀ {a b c : κ}, Below le a b → Below le b c → Below le a c)
    {k : κ} {v : β} {l d : Treap κ β} (h : Ordered le (node k v l d)) :
    Ordered le (linkRight hp k v l d) := by
  cases d with
  | nil => exact h
  | node k' v' l' r' =>
      obtain ⟨hl, hd, ol, hl', hr', ol', or'⟩ := h
      rw [linkRight]
      split
      · exact ⟨hl, hd, ol, hl', hr', ol', or'⟩
      · exact ⟨⟨hd.1, hl.imp fun _ hj => ht hj hd.1, hl'⟩, hr',
          ⟨hl, hd.2.1, ol, ol'⟩, or'⟩

/-- The tree below the root after an insertion on its left. -/
theorem ordered_insert_left [DecidableEq β] {k j : κ} {v w : β} {l r : Treap κ β}
    (h : Ordered le (node k v l r)) (hj : Below le j k)
    (hi : Ordered le (insert le hp l j w)) :
    Ordered le (node k v (insert le hp l j w) r) :=
  ⟨allKeys_insert w h.1 hj, h.2.1, hi, h.2.2.2⟩

theorem ordered_insert_right [DecidableEq β] {k j : κ} {v w : β} {l r : Treap κ β}
    (h : Ordered le (node k v l r)) (hj : Below le k j)
    (hi : Ordered le (insert le hp r j w)) :
    Ordered le (node k v l (insert le hp r j w)) :=
  ⟨h.1, allKeys_insert w h.2.1 hj, h.2.2.1, hi⟩

/-- Insertion keeps the search invariant. -/
theorem ordered_insert [DecidableEq β] (ho : SearchOrder le) {t : Treap κ β} (h : Ordered le t) (j : κ)
    (w : β) : Ordered le (insert le hp t j w) := by
  induction t with
  | nil => exact ⟨trivial, trivial, trivial, trivial⟩
  | node k v l r ihl ihr =>
      rw [insert]
      by_cases hjk : j = k
      · subst hjk
        rw [if_pos rfl]
        split
        · exact h
        · exact h
      rw [if_neg hjk]
      cases hle : le j k with
      | true =>
          rw [if_pos rfl]
          exact ordered_linkLeft (Below.trans ho) (ordered_insert_left h ⟨hle, hjk⟩ (ihl h.2.2.1))
      | false =>
          rw [if_neg Bool.false_ne_true]
          exact ordered_linkRight (Below.trans ho)
            (ordered_insert_right h (below_of_not_le ho hjk hle) (ihr h.2.2.2))

/-- Looking up after an insertion: the new value at its key, the old one
everywhere else. -/
theorem lookup_insert [DecidableEq β] (ho : SearchOrder le) {t : Treap κ β}
    (h : Ordered le t) (j : κ) (w : β) (i : κ) :
    lookup le (insert le hp t j w) i = if i = j then some w else lookup le t i := by
  induction t with
  | nil =>
      simp only [insert, lookup]
      split <;> simp
  | node k v l r ihl ihr =>
      rw [insert]
      by_cases hjk : j = k
      · subst hjk
        rw [if_pos rfl]
        by_cases hij : i = j
        · subst hij
          rw [if_pos rfl]
          split
          · rename_i hw
            rw [lookup_self, hw]
          · rw [lookup_self]
        · rw [if_neg hij]
          split
          · rfl
          · rw [lookup, lookup, if_neg hij, if_neg hij]
      rw [if_neg hjk]
      cases hle : le j k with
      | true =>
          have hb : Below le j k := ⟨hle, hjk⟩
          rw [if_pos rfl, lookup_linkLeft ho v r (allKeys_insert w h.1 hb), lookup,
            ihl h.2.2.1, lookup]
          by_cases hij : i = j
          · subst hij
            rw [if_neg hjk, if_pos hle, if_pos rfl, if_pos rfl]
          · rw [if_neg hij, if_neg hij]
      | false =>
          have ha : Below le k j := below_of_not_le ho hjk hle
          rw [if_neg Bool.false_ne_true,
            lookup_linkRight ho v l (allKeys_insert w h.2.1 ha), lookup, ihr h.2.2.2, lookup]
          by_cases hij : i = j
          · subst hij
            rw [if_neg hjk, hle, if_neg Bool.false_ne_true, if_pos rfl, if_pos rfl]
          · rw [if_neg hij, if_neg hij]

/-! ### Inserting keeps the heap order -/

omit [DecidableEq κ] in
/-- What is above the root is above the whole tree. -/
theorem allKeys_of_root (ho : SearchOrder hp) {i k : κ} {v : β} {l r : Treap κ β}
    (h : Heaped hp (node k v l r)) (hik : Below hp i k) :
    AllKeys (fun j => Below hp i j) (node k v l r) :=
  ⟨hik, h.1.imp fun _ hj => hik.trans ho hj, h.2.1.imp fun _ hj => hik.trans ho hj⟩

omit [DecidableEq κ] in
/-- Of a tree that `j` was inserted into, everything but `j` stays below `k`. -/
theorem allKeys_rest {j k : κ} {t : Treap κ β}
    (h : AllKeys (fun i => i = j ∨ Below hp k i) t) (hj : AllKeys (fun i => Below hp j i) t) :
    AllKeys (fun i => Below hp k i) t := by
  induction t with
  | nil => trivial
  | node i v l r ihl ihr =>
      refine ⟨?_, ihl h.2.1 hj.2.1, ihr h.2.2 hj.2.2⟩
      rcases h.1 with heq | hbelow
      · exact absurd heq.symm hj.1.2
      · exact hbelow

omit [DecidableEq κ] in
theorem heaped_linkLeft (ho : SearchOrder hp) {j k : κ} {v : β} {d r : Treap κ β} (hjk : j ≠ k)
    (hd : Heaped hp d) (hr : Heaped hp r) (hkr : AllKeys (fun i => Below hp k i) r)
    (hkd : AllKeys (fun i => i = j ∨ Below hp k i) d) : Heaped hp (linkLeft hp k v d r) := by
  cases d with
  | nil => exact ⟨trivial, hkr, trivial, hr⟩
  | node k' v' l' r' =>
      rw [linkLeft]
      split
      · next hp' =>
        have hne : k ≠ k' := by
          intro heq
          rcases hkd.1 with hj | hb
          · exact hjk (hj.symm.trans heq.symm)
          · exact hb.2 heq
        exact ⟨allKeys_of_root ho hd ⟨hp', hne⟩, hkr, hd, hr⟩
      · next hp' =>
        -- the new key has come up to the root, or the heap order would hold
        have hroot : k' = j := by
          rcases hkd.1 with hj | hb
          · exact hj
          · exact absurd hb.1 hp'
        subst hroot
        have hup : Below hp k' k := below_of_not_le ho hjk.symm (Bool.eq_false_iff.mpr hp')
        have hnew : Heaped hp (node k v r' r) :=
          ⟨allKeys_rest hkd.2.2 hd.2.1, hkr, hd.2.2.2, hr⟩
        exact ⟨hd.1, allKeys_of_root ho hnew hup, hd.2.2.1, hnew⟩

omit [DecidableEq κ] in
theorem heaped_linkRight (ho : SearchOrder hp) {j k : κ} {v : β} {l d : Treap κ β} (hjk : j ≠ k)
    (hd : Heaped hp d) (hl : Heaped hp l) (hkl : AllKeys (fun i => Below hp k i) l)
    (hkd : AllKeys (fun i => i = j ∨ Below hp k i) d) : Heaped hp (linkRight hp k v l d) := by
  cases d with
  | nil => exact ⟨hkl, trivial, hl, trivial⟩
  | node k' v' l' r' =>
      rw [linkRight]
      split
      · next hp' =>
        have hne : k ≠ k' := by
          intro heq
          rcases hkd.1 with hj | hb
          · exact hjk (hj.symm.trans heq.symm)
          · exact hb.2 heq
        exact ⟨hkl, allKeys_of_root ho hd ⟨hp', hne⟩, hl, hd⟩
      · next hp' =>
        have hroot : k' = j := by
          rcases hkd.1 with hj | hb
          · exact hj
          · exact absurd hb.1 hp'
        subst hroot
        have hup : Below hp k' k := below_of_not_le ho hjk.symm (Bool.eq_false_iff.mpr hp')
        have hnew : Heaped hp (node k v l l') :=
          ⟨hkl, allKeys_rest hkd.2.1 hd.1, hl, hd.2.2.1⟩
        exact ⟨allKeys_of_root ho hnew hup, hd.2.1, hnew, hd.2.2.2⟩

/-- Insertion keeps the heap invariant. -/
theorem heaped_insert [DecidableEq β] (ho : SearchOrder hp) {t : Treap κ β} (h : Heaped hp t)
    (j : κ) (w : β) : Heaped hp (insert le hp t j w) := by
  induction t with
  | nil => exact ⟨trivial, trivial, trivial, trivial⟩
  | node k v l r ihl ihr =>
      obtain ⟨hkl, hkr, hl, hr⟩ := h
      rw [insert]
      by_cases hjk : j = k
      · subst hjk
        rw [if_pos rfl]
        split
        · exact ⟨hkl, hkr, hl, hr⟩
        · exact ⟨hkl, hkr, hl, hr⟩
      rw [if_neg hjk]
      split
      · exact heaped_linkLeft ho hjk (ihl hl) hr hkr
          (allKeys_insert w (hkl.imp fun _ hi => .inr hi) (.inl rfl))
      · exact heaped_linkRight ho hjk (ihr hr) hl hkl
          (allKeys_insert w (hkr.imp fun _ hi => .inr hi) (.inl rfl))

/-! ### Merging -/

section merge

variable {k : κ} {l r : Treap κ β}

omit [DecidableEq κ] in
theorem allKeys_merge {P : κ → Prop} (hl : AllKeys P l) (hr : AllKeys P r) :
    AllKeys P (merge hp l r) := by
  induction l, r using merge.induct hp with
  | case1 r => rwa [merge]
  | case2 k v l r => rwa [merge]
  | case3 k v l r k' v' l' r' hh ih =>
      rw [merge, if_pos hh]
      exact ⟨hl.1, hl.2.1, ih hl.2.2 hr⟩
  | case4 k v l r k' v' l' r' hh ih =>
      rw [merge, if_neg hh]
      exact ⟨hr.1, ih hl hr.2.1, hr.2.2⟩

omit [DecidableEq κ] in
/-- Two trees on both sides of a key merge to a search tree. -/
theorem ordered_merge (ho : SearchOrder le) (hl : AllKeys (fun j => Below le j k) l)
    (hr : AllKeys (fun j => Below le k j) r) (ol : Ordered le l) (or : Ordered le r) :
    Ordered le (merge hp l r) := by
  induction l, r using merge.induct hp with
  | case1 r => rwa [merge]
  | case2 k v l r => rwa [merge]
  | case3 kl v l r k' v' l' r' hh ih =>
      rw [merge, if_pos hh]
      have habove : AllKeys (fun j => Below le kl j) (node k' v' l' r') :=
        hr.imp fun _ hj => hl.1.trans ho hj
      exact ⟨ol.1, allKeys_merge ol.2.1 habove, ol.2.2.1, ih hl.2.2 hr ol.2.2.2 or⟩
  | case4 kl v l r k' v' l' r' hh ih =>
      rw [merge, if_neg hh]
      have hbelow : AllKeys (fun j => Below le j k') (node kl v l r) :=
        hl.imp fun _ hj => hj.trans ho hr.1
      exact ⟨allKeys_merge hbelow or.1, or.2.1, ih hl hr.2.1 ol or.2.2.1, or.2.2.2⟩

omit [DecidableEq κ] in
/-- Two trees with no key in common merge to a heap. -/
theorem heaped_merge (hoh : SearchOrder hp) (ho : SearchOrder le)
    (hl : AllKeys (fun j => Below le j k) l) (hr : AllKeys (fun j => Below le k j) r)
    (pl : Heaped hp l) (pr : Heaped hp r) : Heaped hp (merge hp l r) := by
  induction l, r using merge.induct hp with
  | case1 r => rwa [merge]
  | case2 k v l r => rwa [merge]
  | case3 kl v l r k' v' l' r' hh ih =>
      have hroot : Below hp kl k' := ⟨hh, (hl.1.trans ho hr.1).2⟩
      rw [merge, if_pos hh]
      exact ⟨pl.1, allKeys_merge pl.2.1 (allKeys_of_root hoh pr hroot), pl.2.2.1,
        ih hl.2.2 hr pl.2.2.2 pr⟩
  | case4 kl v l r k' v' l' r' hh ih =>
      have hroot : Below hp k' kl :=
        below_of_not_le hoh (hl.1.trans ho hr.1).2 (Bool.eq_false_iff.mpr hh)
      rw [merge, if_neg hh]
      exact ⟨allKeys_merge (allKeys_of_root hoh pl hroot) pr.1, pr.2.1, ih hl hr.2.1 pl pr.2.2.1,
        pr.2.2.2⟩

theorem lookup_none {t : Treap κ β} {j : κ} (h : AllKeys (fun i => i ≠ j) t) :
    lookup le t j = none := by
  induction t with
  | nil => rfl
  | node k v l r ihl ihr =>
      rw [lookup, if_neg h.1.symm, ihl h.2.1, ihr h.2.2]
      split <;> rfl

/-- Merging the sides of a node removes its key and keeps every other lookup. -/
theorem lookup_merge (ho : SearchOrder le) (w : β) (hl : AllKeys (fun j => Below le j k) l)
    (hr : AllKeys (fun j => Below le k j) r) {j : κ} (hjk : j ≠ k) :
    lookup le (merge hp l r) j = lookup le (node k w l r) j := by
  induction l, r using merge.induct hp with
  | case1 r =>
      rw [merge]
      cases hle : le j k with
      | true =>
          have hj : Below le j k := ⟨hle, hjk⟩
          have hout : AllKeys (fun i => i ≠ j) r :=
            hr.imp fun i hi => (hj.trans ho hi).2.symm
          rw [lookup_below _ _ _ _ hj, lookup_none hout, lookup]
      | false => rw [lookup_above ho _ _ _ _ (below_of_not_le ho hjk hle)]
  | case2 kl v l' r' =>
      rw [merge]
      cases hle : le j k with
      | true => rw [lookup_below _ _ _ _ ⟨hle, hjk⟩]
      | false =>
          have hj : Below le k j := below_of_not_le ho hjk hle
          have hout : AllKeys (fun i => i ≠ j) (node kl v l' r') :=
            hl.imp fun i hi => (hi.trans ho hj).2
          rw [lookup_above ho _ _ _ _ hj, lookup_none hout, lookup]
  | case3 kl v l r k' v' l' r' hh ih =>
      -- the key goes down on the right of the root of the left side
      rw [merge, if_pos hh, ← lookup_rotate ho w v l r (node k' v' l' r') hl.1, lookup, lookup,
        ih hl.2.2 hr]
  | case4 kl v l r k' v' l' r' hh ih =>
      rw [merge, if_neg hh, lookup_rotate ho v' w (node kl v l r) l' r' hr.1, lookup, lookup,
        ih hl hr.2.1]

end merge

/-! ### Deleting -/

theorem allKeys_delete {P : κ → Prop} {t : Treap κ β} (ht : AllKeys P t) (j : κ) :
    AllKeys P (delete le hp t j) := by
  induction t with
  | nil => trivial
  | node k v l r ihl ihr =>
      obtain ⟨hk, hl, hr⟩ := ht
      rw [delete]
      split
      · exact allKeys_merge hl hr
      · split
        · exact ⟨hk, ihl hl, hr⟩
        · exact ⟨hk, hl, ihr hr⟩

/-- Deletion keeps the search invariant. -/
theorem ordered_delete (ho : SearchOrder le) {t : Treap κ β} (h : Ordered le t) (j : κ) :
    Ordered le (delete le hp t j) := by
  induction t with
  | nil => trivial
  | node k v l r ihl ihr =>
      obtain ⟨hl, hr, ol, or⟩ := h
      rw [delete]
      split
      · exact ordered_merge ho hl hr ol or
      · split
        · exact ⟨allKeys_delete hl j, hr, ihl ol, or⟩
        · exact ⟨hl, allKeys_delete hr j, ol, ihr or⟩

/-- Deletion keeps the heap invariant. -/
theorem heaped_delete (ho : SearchOrder le) (hoh : SearchOrder hp) {t : Treap κ β}
    (h : Ordered le t) (hh : Heaped hp t) (j : κ) : Heaped hp (delete le hp t j) := by
  induction t with
  | nil => trivial
  | node k v l r ihl ihr =>
      obtain ⟨hl, hr, ol, or⟩ := h
      obtain ⟨hkl, hkr, pl, pr⟩ := hh
      rw [delete]
      split
      · exact heaped_merge hoh ho hl hr pl pr
      · split
        · exact ⟨allKeys_delete hkl j, hkr, ihl ol pl, pr⟩
        · exact ⟨hkl, allKeys_delete hkr j, pl, ihr or pr⟩

/-- Looking up after a deletion: nothing at its key, the old value everywhere else. -/
theorem lookup_delete (ho : SearchOrder le) {t : Treap κ β} (h : Ordered le t) (j i : κ) :
    lookup le (delete le hp t j) i = if i = j then none else lookup le t i := by
  induction t with
  | nil =>
      rw [delete, lookup]
      split <;> rfl
  | node k v l r ihl ihr =>
      obtain ⟨hl, hr, ol, or⟩ := h
      rw [delete]
      by_cases hjk : j = k
      · subst hjk
        rw [if_pos rfl]
        split
        · next hij =>
          subst hij
          refine lookup_none (allKeys_merge ?_ ?_)
          · exact hl.imp fun _ hi => hi.2
          · exact hr.imp fun _ hi => hi.2.symm
        · next hij => exact lookup_merge ho v hl hr hij
      rw [if_neg hjk]
      cases hle : le j k with
      | true =>
          rw [if_pos rfl, lookup, ihl ol, lookup]
          by_cases hij : i = j
          · subst hij
            rw [if_neg hjk, if_pos hle, if_pos rfl, if_pos rfl]
          · rw [if_neg hij, if_neg hij]
      | false =>
          rw [if_neg Bool.false_ne_true, lookup, ihr or, lookup]
          by_cases hij : i = j
          · subst hij
            rw [if_neg hjk, hle, if_neg Bool.false_ne_true, if_pos rfl, if_pos rfl]
          · rw [if_neg hij, if_neg hij]

end Treap

end Vere.Lib
