import Mathlib.Algebra.Ring.Nat
import Vere.Lib.Settles
import Vere.Lib.Treap

/-!
# Vere.Lib.Union

Unions and intersections of treaps, by splitting.

Of two roots the one the heap order prefers stays on top. The other tree is cut in two at
its own root: the half that lies on one side of the winner is put together with the
winner's subtree on that side, and the rest is tried again against what comes out. The
second call works on a tree that has grown, so this is no structural recursion and no
recursion on the sizes either; it ends because the winner stays the winner.

The recursion is given as a relation, `Union`, and so is that of the intersection, `Inter`:
the derivations are the runs. A program that takes these steps in some form, over some
representation, follows a derivation, and that is the only thing to be shown about it.

* `Canon.eq_of_lookup`: the two orders and the contents determine a treap.
* `exists_union`, `exists_inter`: every pair of treaps has one.
* `Union.spec`, `Inter.spec`: what is in it.
-/

namespace Vere.Lib.Treap

variable {κ β : Type} {le hp : κ → κ → Bool}

/-- The number of nodes. -/
def size : Treap κ β → Nat
  | nil => 0
  | node _ _ l r => l.size + r.size + 1

/-- There is a node with the key `k` and the value `v`. -/
def Holds (k : κ) (v : β) : Treap κ β → Prop
  | nil => False
  | node k' v' l r => (k = k' ∧ v = v') ∨ Holds k v l ∨ Holds k v r

/-- There is a node with the key `k`. -/
def Has (k : κ) (t : Treap κ β) : Prop := ∃ v, Holds k v t

/-- A tree in both of its orders. -/
structure Canon (le hp : κ → κ → Bool) (t : Treap κ β) : Prop where
  ordered : Ordered le t
  heaped : Heaped hp t

/-! ### Keys -/

theorem Below.irrefl {a : κ} (h : Below le a a) : False := h.2 rfl

@[simp] theorem has_nil (k : κ) : ¬Has k (nil : Treap κ β) := fun h => h.elim fun _ hv => hv

@[simp] theorem has_node {k k' : κ} {v : β} {l r : Treap κ β} :
    Has k (node k' v l r) ↔ k = k' ∨ Has k l ∨ Has k r := by
  constructor
  · rintro ⟨w, ⟨hk, _⟩ | hl | hr⟩
    · exact .inl hk
    · exact .inr (.inl ⟨w, hl⟩)
    · exact .inr (.inr ⟨w, hr⟩)
  · rintro (hk | ⟨w, hl⟩ | ⟨w, hr⟩)
    · exact ⟨v, .inl ⟨hk, rfl⟩⟩
    · exact ⟨w, .inr (.inl hl)⟩
    · exact ⟨w, .inr (.inr hr)⟩

theorem has_left {k j : κ} {v : β} {l r : Treap κ β} (h : Has j l) : Has j (node k v l r) :=
  has_node.mpr (.inr (.inl h))

theorem has_right {k j : κ} {v : β} {l r : Treap κ β} (h : Has j r) : Has j (node k v l r) :=
  has_node.mpr (.inr (.inr h))

theorem has_root (k : κ) (v : β) (l r : Treap κ β) : Has k (node k v l r) :=
  has_node.mpr (.inl rfl)

theorem has_of_upToRoot {k j : κ} {v : β} {l r : Treap κ β} (h : Has j (node k v l nil)) :
    Has j (node k v l r) := by
  rcases has_node.mp h with rfl | h | h
  · exact has_root _ _ _ _
  · exact has_left h
  · exact absurd h (has_nil j)

theorem has_of_fromRoot {k j : κ} {v : β} {l r : Treap κ β} (h : Has j (node k v nil r)) :
    Has j (node k v l r) := by
  rcases has_node.mp h with rfl | h | h
  · exact has_root _ _ _ _
  · exact absurd h (has_nil j)
  · exact has_right h

theorem Holds.has {k : κ} {v : β} {t : Treap κ β} (h : Holds k v t) : Has k t := ⟨v, h⟩

/-- A rotation keeps every node. -/
theorem holds_linkLeft {k j : κ} {v w : β} {d r : Treap κ β} :
    Holds j w (linkLeft hp k v d r) ↔ Holds j w (node k v d r) := by
  cases d with
  | nil => rfl
  | node k' v' l' r' =>
      rw [linkLeft]
      split
      · rfl
      · simp only [Holds, or_assoc, or_left_comm]

theorem holds_linkRight {k j : κ} {v w : β} {l d : Treap κ β} :
    Holds j w (linkRight hp k v l d) ↔ Holds j w (node k v l d) := by
  cases d with
  | nil => rfl
  | node k' v' l' r' =>
      rw [linkRight]
      split
      · rfl
      · simp only [Holds, or_assoc, or_left_comm]

theorem allKeys_iff {P : κ → Prop} {t : Treap κ β} : AllKeys P t ↔ ∀ k, Has k t → P k := by
  induction t with
  | nil => exact ⟨fun _ k hk => absurd hk (has_nil k), fun _ => trivial⟩
  | node k v l r ihl ihr =>
      simp only [AllKeys, ihl, ihr, has_node]
      constructor
      · rintro ⟨hk, hl, hr⟩ j (rfl | hj | hj)
        · exact hk
        · exact hl j hj
        · exact hr j hj
      · intro h
        exact ⟨h k (.inl rfl), fun j hj => h j (.inr (.inl hj)), fun j hj => h j (.inr (.inr hj))⟩

theorem Canon.left {k : κ} {v : β} {l r : Treap κ β} (h : Canon le hp (node k v l r)) :
    Canon le hp l := ⟨h.ordered.2.2.1, h.heaped.2.2.1⟩

theorem Canon.right {k : κ} {v : β} {l r : Treap κ β} (h : Canon le hp (node k v l r)) :
    Canon le hp r := ⟨h.ordered.2.2.2, h.heaped.2.2.2⟩

/-- A tree without its right side. -/
theorem Canon.upToRoot {k : κ} {v : β} {l r : Treap κ β} (h : Canon le hp (node k v l r)) :
    Canon le hp (node k v l nil) :=
  ⟨⟨h.ordered.1, trivial, h.left.ordered, trivial⟩, ⟨h.heaped.1, trivial, h.left.heaped, trivial⟩⟩

/-- A tree without its left side. -/
theorem Canon.fromRoot {k : κ} {v : β} {l r : Treap κ β} (h : Canon le hp (node k v l r)) :
    Canon le hp (node k v nil r) :=
  ⟨⟨trivial, h.ordered.2.1, trivial, h.right.ordered⟩,
    ⟨trivial, h.heaped.2.1, trivial, h.right.heaped⟩⟩

/-- A tree with another left side, whose keys fit there. -/
theorem Canon.withLeft {k : κ} {v : β} {l r l' : Treap κ β} (h : Canon le hp (node k v l r))
    (hl : Canon le hp l') (hle : AllKeys (fun j => Below le j k) l')
    (hhp : AllKeys (fun j => Below hp k j) l') : Canon le hp (node k v l' r) :=
  ⟨⟨hle, h.ordered.2.1, hl.ordered, h.right.ordered⟩,
    ⟨hhp, h.heaped.2.1, hl.heaped, h.right.heaped⟩⟩

theorem Canon.withRight {k : κ} {v : β} {l r r' : Treap κ β} (h : Canon le hp (node k v l r))
    (hr : Canon le hp r') (hle : AllKeys (fun j => Below le k j) r')
    (hhp : AllKeys (fun j => Below hp k j) r') : Canon le hp (node k v l r') :=
  ⟨⟨h.ordered.1, hle, h.left.ordered, hr.ordered⟩,
    ⟨h.heaped.1, hhp, h.left.heaped, hr.heaped⟩⟩

theorem canon_nil : Canon le hp (nil : Treap κ β) := ⟨trivial, trivial⟩

/-! ### Lookups and nodes -/

theorem holds_of_lookup [DecidableEq κ] {t : Treap κ β} {k : κ} {v : β}
    (h : lookup le t k = some v) : Holds k v t := by
  induction t with
  | nil => cases h
  | node k' v' l r ihl ihr =>
      rw [lookup] at h
      split at h
      · next hk =>
        cases h
        exact .inl ⟨hk, rfl⟩
      · split at h
        · exact .inr (.inl (ihl h))
        · exact .inr (.inr (ihr h))

theorem lookup_of_holds [DecidableEq κ] (ho : SearchOrder le) {t : Treap κ β} {k : κ} {v : β}
    (ht : Ordered le t) (h : Holds k v t) : lookup le t k = some v := by
  induction t with
  | nil => cases h
  | node k' v' l r ihl ihr =>
      obtain ⟨hl, hr, ol, or⟩ := ht
      rcases h with ⟨rfl, rfl⟩ | h | h
      · exact lookup_self _ _ _ _
      · rw [lookup_below _ _ _ _ (allKeys_iff.mp hl k h.has), ihl ol h]
      · rw [lookup_above ho _ _ _ _ (allKeys_iff.mp hr k h.has), ihr or h]

/-- In a tree in search order, a lookup finds what is there. -/
theorem lookup_eq_some [DecidableEq κ] (ho : SearchOrder le) {t : Treap κ β} {k : κ} {v : β}
    (ht : Ordered le t) : lookup le t k = some v ↔ Holds k v t :=
  ⟨holds_of_lookup, lookup_of_holds ho ht⟩

theorem lookup_eq_none [DecidableEq κ] (ho : SearchOrder le) {t : Treap κ β} {k : κ}
    (ht : Ordered le t) : lookup le t k = none ↔ ¬Has k t := by
  constructor
  · rintro h ⟨v, hv⟩
    rw [lookup_of_holds ho ht hv] at h
    cases h
  · intro h
    cases hl : lookup le t k with
    | none => rfl
    | some v => exact absurd (holds_of_lookup hl).has h

/-! ### The canonical form -/

/-- The root is above every key in the tree. -/
theorem Canon.root_le {k j : κ} {v : β} {l r : Treap κ β} (h : Canon le hp (node k v l r))
    (hj : Has j (node k v l r)) (hjk : j ≠ k) : Below hp k j := by
  rcases has_node.mp hj with rfl | hj | hj
  · exact absurd rfl hjk
  · exact allKeys_iff.mp h.heaped.1 j hj
  · exact allKeys_iff.mp h.heaped.2.1 j hj

theorem Canon.holds_left (ho : SearchOrder le) {k j : κ} {v w : β} {l r : Treap κ β}
    (h : Canon le hp (node k v l r)) :
    Holds j w l ↔ Holds j w (node k v l r) ∧ Below le j k := by
  constructor
  · exact fun hj => ⟨.inr (.inl hj), allKeys_iff.mp h.ordered.1 j hj.has⟩
  · rintro ⟨⟨hj, -⟩ | hj | hj, hlt⟩
    · exact absurd hj hlt.2
    · exact hj
    · exact absurd ((allKeys_iff.mp h.ordered.2.1 j hj.has).trans ho hlt).2 (fun e => e rfl)

theorem Canon.holds_right (ho : SearchOrder le) {k j : κ} {v w : β} {l r : Treap κ β}
    (h : Canon le hp (node k v l r)) :
    Holds j w r ↔ Holds j w (node k v l r) ∧ Below le k j := by
  constructor
  · exact fun hj => ⟨.inr (.inr hj), allKeys_iff.mp h.ordered.2.1 j hj.has⟩
  · rintro ⟨⟨hj, -⟩ | hj | hj, hlt⟩
    · exact absurd hj.symm hlt.2
    · exact absurd ((allKeys_iff.mp h.ordered.1 j hj.has).trans ho hlt).2 (fun e => e rfl)
    · exact hj

theorem Canon.value_root {k : κ} {v w : β} {l r : Treap κ β}
    (h : Canon le hp (node k v l r)) (hw : Holds k w (node k v l r)) : w = v := by
  rcases hw with ⟨-, rfl⟩ | hw | hw
  · rfl
  · exact absurd rfl (allKeys_iff.mp h.ordered.1 k hw.has).2
  · exact absurd rfl (allKeys_iff.mp h.ordered.2.1 k hw.has).2

/-- The two orders and the contents determine the tree. -/
theorem Canon.eq_of_holds (ho : SearchOrder le) (hoh : SearchOrder hp) {a b : Treap κ β}
    (ha : Canon le hp a) (hb : Canon le hp b) (h : ∀ k v, Holds k v a ↔ Holds k v b) :
    a = b := by
  induction a generalizing b with
  | nil =>
      cases b with
      | nil => rfl
      | node k v l r => exact absurd ((h k v).mpr (.inl ⟨rfl, rfl⟩)) id
  | node k v l r ihl ihr =>
      cases b with
      | nil => exact absurd ((h k v).mp (.inl ⟨rfl, rfl⟩)) id
      | node k' v' l' r' =>
          -- each root is in the other tree, so each is above the other
          have hk : k = k' := by
            by_contra hne
            have h1 : Below hp k' k := hb.root_le ((h k v).mp (.inl ⟨rfl, rfl⟩)).has hne
            have h2 : Below hp k k' :=
              ha.root_le ((h k' v').mpr (.inl ⟨rfl, rfl⟩)).has (fun e => hne e.symm)
            exact hne (hoh.antisymm k k' h2.1 h1.1)
          subst hk
          have hv : v = v' := hb.value_root ((h k v).mp (.inl ⟨rfl, rfl⟩))
          subst hv
          have hl : l = l' := by
            refine ihl ha.left hb.left ?_
            intro j w
            rw [ha.holds_left ho, hb.holds_left ho, h]
          have hr : r = r' := by
            refine ihr ha.right hb.right ?_
            intro j w
            rw [ha.holds_right ho, hb.holds_right ho, h]
          rw [hl, hr]

/-- The two orders and the lookups determine the tree. -/
theorem Canon.eq_of_lookup [DecidableEq κ] (ho : SearchOrder le) (hoh : SearchOrder hp)
    {a b : Treap κ β} (ha : Canon le hp a) (hb : Canon le hp b)
    (h : ∀ k, lookup le a k = lookup le b k) : a = b := by
  refine ha.eq_of_holds ho hoh hb ?_
  intro k v
  rw [← lookup_eq_some ho ha.ordered, ← lookup_eq_some ho hb.ordered, h]

/-! ### Unions -/

/-- `c` is put together from `a` and `b`; where both have a key, with the value it has in
`b`. -/
inductive Union (le hp : κ → κ → Bool) : Treap κ β → Treap κ β → Treap κ β → Prop
  | nilRight (a) : Union le hp a nil a
  | nilLeft (b) : Union le hp nil b b
  | same {k va vb la ra lb rb l r} :
      Union le hp la lb l → Union le hp ra rb r →
        Union le hp (node k va la ra) (node k vb lb rb) (node k vb l r)
  | firstLeft {ka va la ra kb vb lb rb l c} :
      Below hp ka kb → le kb ka = true →
        Union le hp la (node kb vb lb nil) l → Union le hp (node ka va l ra) rb c →
          Union le hp (node ka va la ra) (node kb vb lb rb) c
  | firstRight {ka va la ra kb vb lb rb r c} :
      Below hp ka kb → le kb ka = false →
        Union le hp ra (node kb vb nil rb) r → Union le hp (node ka va la r) lb c →
          Union le hp (node ka va la ra) (node kb vb lb rb) c
  | secondLeft {ka va la ra kb vb lb rb l c} :
      Below hp kb ka → le ka kb = true →
        Union le hp (node ka va la nil) lb l → Union le hp ra (node kb vb l rb) c →
          Union le hp (node ka va la ra) (node kb vb lb rb) c
  | secondRight {ka va la ra kb vb lb rb r c} :
      Below hp kb ka → le ka kb = false →
        Union le hp (node ka va nil ra) rb r → Union le hp la (node kb vb lb r) c →
          Union le hp (node ka va la ra) (node kb vb lb rb) c

namespace Union

variable {a b c : Treap κ β}

/-- What has a key in the union has it in one of the trees. -/
theorem has (h : Union le hp a b c) (k : κ) : Has k c ↔ Has k a ∨ Has k b := by
  induction h with
  | nilRight a => simp
  | nilLeft b => simp
  | same _ _ ihl ihr =>
      simp only [has_node, ihl, ihr]
      grind
  | firstLeft _ _ _ _ ihl ihc =>
      simp only [ihc, has_node, ihl, has_nil]
      grind
  | firstRight _ _ _ _ ihr ihc =>
      simp only [ihc, has_node, ihr, has_nil]
      grind
  | secondLeft _ _ _ _ ihl ihc =>
      simp only [ihc, has_node, ihl, has_nil]
      grind
  | secondRight _ _ _ _ ihr ihc =>
      simp only [ihc, has_node, ihr, has_nil]
      grind

theorem size_le (h : Union le hp a b c) : c.size ≤ a.size + b.size := by
  induction h with
  | nilRight a => exact Nat.le_add_right _ _
  | nilLeft b => exact Nat.le_add_left _ _
  | same _ _ ihl ihr =>
      simp only [size]
      omega
  | firstLeft _ _ _ _ ihl ihc =>
      simp only [size] at *
      omega
  | firstRight _ _ _ _ ihr ihc =>
      simp only [size] at *
      omega
  | secondLeft _ _ _ _ ihl ihc =>
      simp only [size] at *
      omega
  | secondRight _ _ _ _ ihr ihc =>
      simp only [size] at *
      omega

theorem allKeys {P : κ → Prop} (h : Union le hp a b c) (ha : AllKeys P a) (hb : AllKeys P b) :
    AllKeys P c := by
  rw [allKeys_iff] at *
  intro k hk
  rcases (h.has k).mp hk with hk | hk
  · exact ha k hk
  · exact hb k hk

/-- The nodes of `c` are those of `b` and those of `a` with keys that `b` has not. -/
def Joined (a b c : Treap κ β) : Prop :=
  ∀ k v, Holds k v c ↔ Holds k v b ∨ Holds k v a ∧ ¬Has k b

/-- Where a key stands in a tree in search order. -/
theorem side {k j : κ} {v : β} {l r : Treap κ β} (h : Ordered le (node k v l r)) :
    (Has j l → Below le j k) ∧ (Has j r → Below le k j) :=
  ⟨allKeys_iff.mp h.1 j, allKeys_iff.mp h.2.1 j⟩

section grown

variable {ka kb : κ} {va vb : β} {la ra lb rb t : Treap κ β}

/-! The winner with its new subtree is a tree again. -/

theorem canon_firstLeft (ho : SearchOrder le) (hoh : SearchOrder hp)
    (ha : Canon le hp (node ka va la ra)) (hb : Canon le hp (node kb vb lb rb))
    (hk : Below hp ka kb) (hlt : Below le kb ka) (hu : Union le hp la (node kb vb lb nil) t)
    (ht : Canon le hp t) : Canon le hp (node ka va t ra) :=
  ha.withLeft ht
    (hu.allKeys ha.ordered.1 ⟨hlt, hb.ordered.1.imp fun _ hj => hj.trans ho hlt, trivial⟩)
    (hu.allKeys ha.heaped.1 ⟨hk, hb.heaped.1.imp fun _ hj => hk.trans hoh hj, trivial⟩)

theorem canon_firstRight (ho : SearchOrder le) (hoh : SearchOrder hp)
    (ha : Canon le hp (node ka va la ra)) (hb : Canon le hp (node kb vb lb rb))
    (hk : Below hp ka kb) (hlt : Below le ka kb) (hu : Union le hp ra (node kb vb nil rb) t)
    (ht : Canon le hp t) : Canon le hp (node ka va la t) :=
  ha.withRight ht
    (hu.allKeys ha.ordered.2.1 ⟨hlt, trivial, hb.ordered.2.1.imp fun _ hj => hlt.trans ho hj⟩)
    (hu.allKeys ha.heaped.2.1 ⟨hk, trivial, hb.heaped.2.1.imp fun _ hj => hk.trans hoh hj⟩)

theorem canon_secondLeft (ho : SearchOrder le) (hoh : SearchOrder hp)
    (ha : Canon le hp (node ka va la ra)) (hb : Canon le hp (node kb vb lb rb))
    (hk : Below hp kb ka) (hlt : Below le ka kb) (hu : Union le hp (node ka va la nil) lb t)
    (ht : Canon le hp t) : Canon le hp (node kb vb t rb) :=
  hb.withLeft ht
    (hu.allKeys ⟨hlt, ha.ordered.1.imp fun _ hj => hj.trans ho hlt, trivial⟩ hb.ordered.1)
    (hu.allKeys ⟨hk, ha.heaped.1.imp fun _ hj => hk.trans hoh hj, trivial⟩ hb.heaped.1)

theorem canon_secondRight (ho : SearchOrder le) (hoh : SearchOrder hp)
    (ha : Canon le hp (node ka va la ra)) (hb : Canon le hp (node kb vb lb rb))
    (hk : Below hp kb ka) (hlt : Below le kb ka) (hu : Union le hp (node ka va nil ra) rb t)
    (ht : Canon le hp t) : Canon le hp (node kb vb lb t) :=
  hb.withRight ht
    (hu.allKeys ⟨hlt, trivial, ha.ordered.2.1.imp fun _ hj => hlt.trans ho hj⟩ hb.ordered.2.1)
    (hu.allKeys ⟨hk, trivial, ha.heaped.2.1.imp fun _ hj => hk.trans hoh hj⟩ hb.heaped.2.1)

/-! The keys of it. -/

theorem has_firstLeft (hu : Union le hp la (node kb vb lb nil) t) (k : κ) :
    Has k (node ka va t ra) ↔ Has k (node ka va la ra) ∨ Has k (node kb vb lb nil) := by
  simp only [has_node, hu.has, has_nil]
  grind

theorem has_firstRight (hu : Union le hp ra (node kb vb nil rb) t) (k : κ) :
    Has k (node ka va la t) ↔ Has k (node ka va la ra) ∨ Has k (node kb vb nil rb) := by
  simp only [has_node, hu.has, has_nil]
  grind

theorem has_secondLeft (hu : Union le hp (node ka va la nil) lb t) (k : κ) :
    Has k (node kb vb t rb) ↔ Has k (node kb vb lb rb) ∨ Has k (node ka va la nil) := by
  simp only [has_node, hu.has, has_nil]
  grind

theorem has_secondRight (hu : Union le hp (node ka va nil ra) rb t) (k : κ) :
    Has k (node kb vb lb t) ↔ Has k (node kb vb lb rb) ∨ Has k (node ka va nil ra) := by
  simp only [has_node, hu.has, has_nil]
  grind

end grown

/-- What a union holds, and that it is in both orders. -/
theorem spec (ho : SearchOrder le) (hoh : SearchOrder hp) (h : Union le hp a b c)
    (ha : Canon le hp a) (hb : Canon le hp b) : Canon le hp c ∧ Joined a b c := by
  induction h with
  | nilRight a => exact ⟨ha, fun k v => by simp [Holds]⟩
  | nilLeft b => exact ⟨hb, fun k v => by simp [Holds]⟩
  | @same k va vb la ra lb rb l r hul hur ihl ihr =>
      obtain ⟨cl, jl⟩ := ihl ha.left hb.left
      obtain ⟨cr, jr⟩ := ihr ha.right hb.right
      refine ⟨⟨⟨hul.allKeys ha.ordered.1 hb.ordered.1, hur.allKeys ha.ordered.2.1 hb.ordered.2.1,
        cl.ordered, cr.ordered⟩, ⟨hul.allKeys ha.heaped.1 hb.heaped.1,
        hur.allKeys ha.heaped.2.1 hb.heaped.2.1, cl.heaped, cr.heaped⟩⟩, ?_⟩
      intro j w
      have hsa := side (j := j) ha.ordered
      have hsb := side (j := j) hb.ordered
      simp only [Holds, jl j w, jr j w, has_node]
      grind [Holds.has, Below.trans, Below.irrefl]
  | @firstLeft ka va la ra kb vb lb rb l c hk hle hu hv ihl ihc =>
      have hlt : Below le kb ka := ⟨hle, hk.2.symm⟩
      obtain ⟨cl, jl⟩ := ihl ha.left hb.upToRoot
      have hnew := canon_firstLeft ho hoh ha hb hk hlt hu cl
      obtain ⟨cc, jc⟩ := ihc hnew hb.right
      refine ⟨cc, ?_⟩
      intro j w
      have hsa := side (j := j) ha.ordered
      have hsb := side (j := j) hb.ordered
      simp only [jc j w, Holds, jl j w, has_node, has_nil]
      grind [Holds.has, Below.trans, Below.irrefl]
  | @firstRight ka va la ra kb vb lb rb r c hk hle hu hv ihr ihc =>
      have hlt : Below le ka kb := below_of_not_le ho hk.2.symm hle
      obtain ⟨cr, jr⟩ := ihr ha.right hb.fromRoot
      have hnew := canon_firstRight ho hoh ha hb hk hlt hu cr
      obtain ⟨cc, jc⟩ := ihc hnew hb.left
      refine ⟨cc, ?_⟩
      intro j w
      have hsa := side (j := j) ha.ordered
      have hsb := side (j := j) hb.ordered
      simp only [jc j w, Holds, jr j w, has_node, has_nil]
      grind [Holds.has, Below.trans, Below.irrefl]
  | @secondLeft ka va la ra kb vb lb rb l c hk hle hu hv ihl ihc =>
      have hlt : Below le ka kb := ⟨hle, hk.2.symm⟩
      obtain ⟨cl, jl⟩ := ihl ha.upToRoot hb.left
      have hnew := canon_secondLeft ho hoh ha hb hk hlt hu cl
      obtain ⟨cc, jc⟩ := ihc ha.right hnew
      refine ⟨cc, ?_⟩
      intro j w
      have hsa := side (j := j) ha.ordered
      have hsb := side (j := j) hb.ordered
      simp only [jc j w, Holds, jl j w, has_node, hu.has, has_nil]
      grind [Holds.has, Below.trans, Below.irrefl]
  | @secondRight ka va la ra kb vb lb rb r c hk hle hu hv ihr ihc =>
      have hlt : Below le kb ka := below_of_not_le ho hk.2.symm hle
      obtain ⟨cr, jr⟩ := ihr ha.fromRoot hb.right
      have hnew := canon_secondRight ho hoh ha hb hk hlt hu cr
      obtain ⟨cc, jc⟩ := ihc ha.left hnew
      refine ⟨cc, ?_⟩
      intro j w
      have hsa := side (j := j) ha.ordered
      have hsb := side (j := j) hb.ordered
      simp only [jc j w, Holds, jr j w, has_node, hu.has, has_nil]
      grind [Holds.has, Below.trans, Below.irrefl]

end Union

/-- The size of the tree that loses at the root: what the second call of a round makes
smaller when the trees together get no smaller. -/
def loser (hp : κ → κ → Bool) : Treap κ β → Treap κ β → Nat
  | node ka va la ra, node kb vb lb rb =>
      if hp ka kb then (node kb vb lb rb).size else (node ka va la ra).size
  | _, _ => 0

theorem loser_first {ka : κ} {va : β} {la ra b : Treap κ β}
    (h : AllKeys (fun j => Below hp ka j) b) : loser hp (node ka va la ra) b = b.size := by
  cases b with
  | nil => rfl
  | node kb vb lb rb => rw [loser, if_pos h.1.1]

theorem loser_second (hoh : SearchOrder hp) {kb : κ} {vb : β} {lb rb a : Treap κ β}
    (h : AllKeys (fun j => Below hp kb j) a) : loser hp a (node kb vb lb rb) = a.size := by
  cases a with
  | nil => rfl
  | node ka va la ra => rw [loser, h.1.not_le hoh, if_neg Bool.false_ne_true]

/-- Any two trees have a union. -/
theorem exists_union [DecidableEq κ] (ho : SearchOrder le) (hoh : SearchOrder hp) :
    ∀ a b : Treap κ β, Canon le hp a → Canon le hp b → ∃ c, Union le hp a b c
  | a, nil, _, _ => ⟨a, .nilRight a⟩
  | nil, node kb vb lb rb, _, _ => ⟨_, .nilLeft _⟩
  | node ka va la ra, node kb vb lb rb, ha, hb => by
      by_cases heq : ka = kb
      · subst heq
        obtain ⟨l, hl⟩ := exists_union ho hoh la lb ha.left hb.left
        obtain ⟨r, hr⟩ := exists_union ho hoh ra rb ha.right hb.right
        exact ⟨_, .same hl hr⟩
      -- the winner is the winner of the second call too, against a smaller tree
      cases hh : hp ka kb with
      | true =>
          have hk : Below hp ka kb := ⟨hh, heq⟩
          have hall := allKeys_of_root hoh hb.heaped hk
          have hwas : loser hp (node ka va la ra) _ = _ := loser_first hall
          cases hle : le kb ka with
          | true =>
              have hlt : Below le kb ka := ⟨hle, hk.2.symm⟩
              obtain ⟨l, hl⟩ := exists_union ho hoh la (node kb vb lb nil) ha.left hb.upToRoot
              have hnow : loser hp (node ka va l ra) rb = _ := loser_first hall.2.2
              have hnew := Union.canon_firstLeft ho hoh ha hb hk hlt hl
                (hl.spec ho hoh ha.left hb.upToRoot).1
              have hsize := hl.size_le
              obtain ⟨c, hc⟩ := exists_union ho hoh (node ka va l ra) rb hnew hb.right
              exact ⟨c, .firstLeft hk hle hl hc⟩
          | false =>
              have hlt : Below le ka kb := below_of_not_le ho hk.2.symm hle
              obtain ⟨r, hr⟩ := exists_union ho hoh ra (node kb vb nil rb) ha.right hb.fromRoot
              have hnow : loser hp (node ka va la r) lb = _ := loser_first hall.2.1
              have hnew := Union.canon_firstRight ho hoh ha hb hk hlt hr
                (hr.spec ho hoh ha.right hb.fromRoot).1
              have hsize := hr.size_le
              obtain ⟨c, hc⟩ := exists_union ho hoh (node ka va la r) lb hnew hb.left
              exact ⟨c, .firstRight hk hle hr hc⟩
      | false =>
          have hk : Below hp kb ka := below_of_not_le hoh heq hh
          have hall := allKeys_of_root hoh ha.heaped hk
          have hwas : loser hp _ (node kb vb lb rb) = _ := loser_second hoh hall
          cases hle : le ka kb with
          | true =>
              have hlt : Below le ka kb := ⟨hle, hk.2.symm⟩
              obtain ⟨l, hl⟩ := exists_union ho hoh (node ka va la nil) lb ha.upToRoot hb.left
              have hnow : loser hp ra (node kb vb l rb) = _ := loser_second hoh hall.2.2
              have hnew := Union.canon_secondLeft ho hoh ha hb hk hlt hl
                (hl.spec ho hoh ha.upToRoot hb.left).1
              have hsize := hl.size_le
              obtain ⟨c, hc⟩ := exists_union ho hoh ra (node kb vb l rb) ha.right hnew
              exact ⟨c, .secondLeft hk hle hl hc⟩
          | false =>
              have hlt : Below le kb ka := below_of_not_le ho hk.2.symm hle
              obtain ⟨r, hr⟩ := exists_union ho hoh (node ka va nil ra) rb ha.fromRoot hb.right
              have hnow : loser hp la (node kb vb lb r) = _ := loser_second hoh hall.2.1
              have hnew := Union.canon_secondRight ho hoh ha hb hk hlt hr
                (hr.spec ho hoh ha.fromRoot hb.right).1
              have hsize := hr.size_le
              obtain ⟨c, hc⟩ := exists_union ho hoh la (node kb vb lb r) ha.left hnew
              exact ⟨c, .secondRight hk hle hr hc⟩
termination_by a b => (a.size + b.size, loser hp a b)
decreasing_by
  all_goals simp only [Prod.lex_def, size] at *
  all_goals omega

/-! ### Intersections -/

/-- `c` is what `a` and `b` have in common, with the values of `b`. -/
inductive Inter (le hp : κ → κ → Bool) : Treap κ β → Treap κ β → Treap κ β → Prop
  | nilRight (a) : Inter le hp a nil nil
  | nilLeft (b) : Inter le hp nil b nil
  | same {k va vb la ra lb rb l r} :
      Inter le hp la lb l → Inter le hp ra rb r →
        Inter le hp (node k va la ra) (node k vb lb rb) (node k vb l r)
  | firstLeft {ka va la ra kb vb lb rb x y c} :
      Below hp ka kb → le kb ka = true →
        Inter le hp la (node kb vb lb nil) x → Inter le hp (node ka va la ra) rb y →
          Union le hp x y c → Inter le hp (node ka va la ra) (node kb vb lb rb) c
  | firstRight {ka va la ra kb vb lb rb x y c} :
      Below hp ka kb → le kb ka = false →
        Inter le hp ra (node kb vb nil rb) x → Inter le hp (node ka va la ra) lb y →
          Union le hp x y c → Inter le hp (node ka va la ra) (node kb vb lb rb) c
  | secondLeft {ka va la ra kb vb lb rb x y c} :
      Below hp kb ka → le ka kb = true →
        Inter le hp (node ka va la nil) lb x → Inter le hp ra (node kb vb lb rb) y →
          Union le hp x y c → Inter le hp (node ka va la ra) (node kb vb lb rb) c
  | secondRight {ka va la ra kb vb lb rb x y c} :
      Below hp kb ka → le ka kb = false →
        Inter le hp (node ka va nil ra) rb x → Inter le hp la (node kb vb lb rb) y →
          Union le hp x y c → Inter le hp (node ka va la ra) (node kb vb lb rb) c

namespace Inter

variable {a b c : Treap κ β}

/-- The nodes of `c` are those of `b` whose keys are in `a`. -/
def Common (a b c : Treap κ β) : Prop := ∀ k v, Holds k v c ↔ Holds k v b ∧ Has k a

theorem Common.has {a b c : Treap κ β} (h : Common a b c) (k : κ) :
    Has k c ↔ Has k b ∧ Has k a := by
  constructor
  · rintro ⟨v, hv⟩
    obtain ⟨hb, ha⟩ := (h k v).mp hv
    exact ⟨hb.has, ha⟩
  · rintro ⟨⟨v, hv⟩, ha⟩
    exact ⟨v, (h k v).mpr ⟨hv, ha⟩⟩

theorem Common.allKeys {a b c : Treap κ β} (h : Common a b c) {P : κ → Prop}
    (hb : AllKeys P b) : AllKeys P c := by
  rw [allKeys_iff] at *
  exact fun k hk => hb k ((h.has k).mp hk).1

/-- What an intersection holds, and that it is in both orders. -/
theorem spec (ho : SearchOrder le) (hoh : SearchOrder hp) (h : Inter le hp a b c)
    (ha : Canon le hp a) (hb : Canon le hp b) : Canon le hp c ∧ Common a b c := by
  induction h with
  | nilRight a => exact ⟨canon_nil, fun k v => by simp [Holds]⟩
  | nilLeft b => exact ⟨canon_nil, fun k v => by simp [Holds]⟩
  | @same k va vb la ra lb rb l r _ _ ihl ihr =>
      obtain ⟨cl, jl⟩ := ihl ha.left hb.left
      obtain ⟨cr, jr⟩ := ihr ha.right hb.right
      refine ⟨⟨⟨jl.allKeys hb.ordered.1, jr.allKeys hb.ordered.2.1, cl.ordered, cr.ordered⟩,
        ⟨jl.allKeys hb.heaped.1, jr.allKeys hb.heaped.2.1, cl.heaped, cr.heaped⟩⟩, ?_⟩
      intro j w
      have hsa := Union.side (j := j) ha.ordered
      have hsb := Union.side (j := j) hb.ordered
      simp only [Holds, jl j w, jr j w, has_node]
      grind [Holds.has, Below.trans, Below.irrefl]
  | @firstLeft ka va la ra kb vb lb rb x y c hk hle _ _ hu ihx ihy =>
      have hlt : Below le kb ka := ⟨hle, hk.2.symm⟩
      obtain ⟨cx, jx⟩ := ihx ha.left hb.upToRoot
      obtain ⟨cy, jy⟩ := ihy ha hb.right
      obtain ⟨cc, jc⟩ := hu.spec ho hoh cx cy
      refine ⟨cc, ?_⟩
      intro j w
      have hsa := Union.side (j := j) ha.ordered
      have hsb := Union.side (j := j) hb.ordered
      simp only [jc j w, jx j w, jy j w, jy.has, Holds, has_node]
      grind [Holds.has, Below.trans, Below.irrefl]
  | @firstRight ka va la ra kb vb lb rb x y c hk hle _ _ hu ihx ihy =>
      have hlt : Below le ka kb := below_of_not_le ho hk.2.symm hle
      obtain ⟨cx, jx⟩ := ihx ha.right hb.fromRoot
      obtain ⟨cy, jy⟩ := ihy ha hb.left
      obtain ⟨cc, jc⟩ := hu.spec ho hoh cx cy
      refine ⟨cc, ?_⟩
      intro j w
      have hsa := Union.side (j := j) ha.ordered
      have hsb := Union.side (j := j) hb.ordered
      simp only [jc j w, jx j w, jy j w, jy.has, Holds, has_node]
      grind [Holds.has, Below.trans, Below.irrefl]
  | @secondLeft ka va la ra kb vb lb rb x y c hk hle _ _ hu ihx ihy =>
      have hlt : Below le ka kb := ⟨hle, hk.2.symm⟩
      obtain ⟨cx, jx⟩ := ihx ha.upToRoot hb.left
      obtain ⟨cy, jy⟩ := ihy ha.right hb
      obtain ⟨cc, jc⟩ := hu.spec ho hoh cx cy
      refine ⟨cc, ?_⟩
      intro j w
      have hsa := Union.side (j := j) ha.ordered
      have hsb := Union.side (j := j) hb.ordered
      simp only [jc j w, jx j w, jy j w, jy.has, Holds, has_node, has_nil]
      grind [Holds.has, Below.trans, Below.irrefl]
  | @secondRight ka va la ra kb vb lb rb x y c hk hle _ _ hu ihx ihy =>
      have hlt : Below le kb ka := below_of_not_le ho hk.2.symm hle
      obtain ⟨cx, jx⟩ := ihx ha.fromRoot hb.right
      obtain ⟨cy, jy⟩ := ihy ha.left hb
      obtain ⟨cc, jc⟩ := hu.spec ho hoh cx cy
      refine ⟨cc, ?_⟩
      intro j w
      have hsa := Union.side (j := j) ha.ordered
      have hsb := Union.side (j := j) hb.ordered
      simp only [jc j w, jx j w, jy j w, jy.has, Holds, has_node, has_nil]
      grind [Holds.has, Below.trans, Below.irrefl]

end Inter

/-- Any two trees have an intersection. -/
theorem exists_inter [DecidableEq κ] (ho : SearchOrder le) (hoh : SearchOrder hp) :
    ∀ a b : Treap κ β, Canon le hp a → Canon le hp b → ∃ c, Inter le hp a b c
  | a, nil, _, _ => ⟨nil, .nilRight a⟩
  | nil, node kb vb lb rb, _, _ => ⟨nil, .nilLeft _⟩
  | node ka va la ra, node kb vb lb rb, ha, hb => by
      by_cases heq : ka = kb
      · subst heq
        obtain ⟨l, hl⟩ := exists_inter ho hoh la lb ha.left hb.left
        obtain ⟨r, hr⟩ := exists_inter ho hoh ra rb ha.right hb.right
        exact ⟨_, .same hl hr⟩
      cases hh : hp ka kb with
      | true =>
          have hk : Below hp ka kb := ⟨hh, heq⟩
          cases hle : le kb ka with
          | true =>
              obtain ⟨x, hx⟩ := exists_inter ho hoh la (node kb vb lb nil) ha.left hb.upToRoot
              obtain ⟨y, hy⟩ := exists_inter ho hoh (node ka va la ra) rb ha hb.right
              obtain ⟨c, hc⟩ := exists_union ho hoh x y (hx.spec ho hoh ha.left hb.upToRoot).1
                (hy.spec ho hoh ha hb.right).1
              exact ⟨c, .firstLeft hk hle hx hy hc⟩
          | false =>
              obtain ⟨x, hx⟩ := exists_inter ho hoh ra (node kb vb nil rb) ha.right hb.fromRoot
              obtain ⟨y, hy⟩ := exists_inter ho hoh (node ka va la ra) lb ha hb.left
              obtain ⟨c, hc⟩ := exists_union ho hoh x y (hx.spec ho hoh ha.right hb.fromRoot).1
                (hy.spec ho hoh ha hb.left).1
              exact ⟨c, .firstRight hk hle hx hy hc⟩
      | false =>
          have hk : Below hp kb ka := below_of_not_le hoh heq hh
          cases hle : le ka kb with
          | true =>
              obtain ⟨x, hx⟩ := exists_inter ho hoh (node ka va la nil) lb ha.upToRoot hb.left
              obtain ⟨y, hy⟩ := exists_inter ho hoh ra (node kb vb lb rb) ha.right hb
              obtain ⟨c, hc⟩ := exists_union ho hoh x y (hx.spec ho hoh ha.upToRoot hb.left).1
                (hy.spec ho hoh ha.right hb).1
              exact ⟨c, .secondLeft hk hle hx hy hc⟩
          | false =>
              obtain ⟨x, hx⟩ := exists_inter ho hoh (node ka va nil ra) rb ha.fromRoot hb.right
              obtain ⟨y, hy⟩ := exists_inter ho hoh la (node kb vb lb rb) ha.left hb
              obtain ⟨c, hc⟩ := exists_union ho hoh x y (hx.spec ho hoh ha.fromRoot hb.right).1
                (hy.spec ho hoh ha.left hb).1
              exact ⟨c, .secondRight hk hle hx hy hc⟩
termination_by a b => a.size + b.size
decreasing_by
  all_goals simp only [size]
  all_goals omega

/-! ### Orders that agree on the keys -/

/-- Two relations are the same on the keys in `S`. -/
def AgreeOn (S : κ → Prop) (le le' : κ → κ → Bool) : Prop :=
  ∀ x y, S x → S y → le x y = le' x y

section agree

variable {le' hp' : κ → κ → Bool} {S : κ → Prop} {a b c t : Treap κ β}

theorem AgreeOn.below (h : AgreeOn S le le') {x y : κ} (hx : S x) (hy : S y) :
    Below le x y ↔ Below le' x y := by
  rw [Below, Below, h x y hx hy]

theorem Canon.congr (hle : AgreeOn S le le') (hhp : AgreeOn S hp hp') (hS : AllKeys S t)
    (h : Canon le hp t) : Canon le' hp' t := by
  induction t with
  | nil => exact canon_nil
  | node k v l r ihl ihr =>
      obtain ⟨hk, hl, hr⟩ := hS
      have cl := ihl hl h.left
      have cr := ihr hr h.right
      rw [allKeys_iff] at hl hr
      refine ⟨⟨?_, ?_, cl.ordered, cr.ordered⟩, ⟨?_, ?_, cl.heaped, cr.heaped⟩⟩
      · rw [allKeys_iff]
        exact fun j hj => (hle.below (hl j hj) hk).mp (allKeys_iff.mp h.ordered.1 j hj)
      · rw [allKeys_iff]
        exact fun j hj => (hle.below hk (hr j hj)).mp (allKeys_iff.mp h.ordered.2.1 j hj)
      · rw [allKeys_iff]
        exact fun j hj => (hhp.below hk (hl j hj)).mp (allKeys_iff.mp h.heaped.1 j hj)
      · rw [allKeys_iff]
        exact fun j hj => (hhp.below hk (hr j hj)).mp (allKeys_iff.mp h.heaped.2.1 j hj)

theorem linkLeft_congr (hhp : AgreeOn S hp hp') {k : κ} (v : β) {d r : Treap κ β} (hk : S k)
    (hd : AllKeys S d) : linkLeft hp k v d r = linkLeft hp' k v d r := by
  cases d with
  | nil => rfl
  | node k' v' l' r' => rw [linkLeft, linkLeft, hhp k k' hk hd.1]

theorem linkRight_congr (hhp : AgreeOn S hp hp') {k : κ} (v : β) {l d : Treap κ β} (hk : S k)
    (hd : AllKeys S d) : linkRight hp k v l d = linkRight hp' k v l d := by
  cases d with
  | nil => rfl
  | node k' v' l' r' => rw [linkRight, linkRight, hhp k k' hk hd.1]

theorem insert_congr [DecidableEq κ] [DecidableEq β] (hle : AgreeOn S le le')
    (hhp : AgreeOn S hp hp') (hS : AllKeys S t) {j : κ} (hj : S j) (w : β) :
    insert le hp t j w = insert le' hp' t j w := by
  induction t with
  | nil => rfl
  | node k v l r ihl ihr =>
      rw [insert, insert, hle j k hj hS.1, ihl hS.2.1, ihr hS.2.2,
        linkLeft_congr hhp v hS.1 (allKeys_insert w hS.2.1 hj),
        linkRight_congr hhp v hS.1 (allKeys_insert w hS.2.2 hj)]

theorem Union.congr (hle : AgreeOn S le le') (hhp : AgreeOn S hp hp') (h : Union le hp a b c)
    (ha : AllKeys S a) (hb : AllKeys S b) : Union le' hp' a b c := by
  induction h with
  | nilRight a => exact .nilRight a
  | nilLeft b => exact .nilLeft b
  | same _ _ ihl ihr => exact .same (ihl ha.2.1 hb.2.1) (ihr ha.2.2 hb.2.2)
  | @firstLeft ka va la ra kb vb lb rb l c hk hlt hu _ ihl ihc =>
      have hpart : AllKeys S (node kb vb lb nil) := ⟨hb.1, hb.2.1, trivial⟩
      exact .firstLeft ((hhp.below ha.1 hb.1).mp hk) (hle _ _ hb.1 ha.1 ▸ hlt) (ihl ha.2.1 hpart)
        (ihc ⟨ha.1, hu.allKeys ha.2.1 hpart, ha.2.2⟩ hb.2.2)
  | @firstRight ka va la ra kb vb lb rb r c hk hlt hu _ ihr ihc =>
      have hpart : AllKeys S (node kb vb nil rb) := ⟨hb.1, trivial, hb.2.2⟩
      exact .firstRight ((hhp.below ha.1 hb.1).mp hk) (hle _ _ hb.1 ha.1 ▸ hlt) (ihr ha.2.2 hpart)
        (ihc ⟨ha.1, ha.2.1, hu.allKeys ha.2.2 hpart⟩ hb.2.1)
  | @secondLeft ka va la ra kb vb lb rb l c hk hlt hu _ ihl ihc =>
      have hpart : AllKeys S (node ka va la nil) := ⟨ha.1, ha.2.1, trivial⟩
      exact .secondLeft ((hhp.below hb.1 ha.1).mp hk) (hle _ _ ha.1 hb.1 ▸ hlt) (ihl hpart hb.2.1)
        (ihc ha.2.2 ⟨hb.1, hu.allKeys hpart hb.2.1, hb.2.2⟩)
  | @secondRight ka va la ra kb vb lb rb r c hk hlt hu _ ihr ihc =>
      have hpart : AllKeys S (node ka va nil ra) := ⟨ha.1, trivial, ha.2.2⟩
      exact .secondRight ((hhp.below hb.1 ha.1).mp hk) (hle _ _ ha.1 hb.1 ▸ hlt) (ihr hpart hb.2.2)
        (ihc ha.2.1 ⟨hb.1, hb.2.1, hu.allKeys hpart hb.2.2⟩)

/-- The keys of an intersection are keys of its second tree. -/
theorem Inter.allKeys (h : Inter le hp a b c) (hb : AllKeys S b) : AllKeys S c := by
  induction h with
  | nilRight a => trivial
  | nilLeft b => trivial
  | same _ _ ihl ihr => exact ⟨hb.1, ihl hb.2.1, ihr hb.2.2⟩
  | firstLeft _ _ _ _ hu ihx ihy => exact hu.allKeys (ihx ⟨hb.1, hb.2.1, trivial⟩) (ihy hb.2.2)
  | firstRight _ _ _ _ hu ihx ihy => exact hu.allKeys (ihx ⟨hb.1, trivial, hb.2.2⟩) (ihy hb.2.1)
  | secondLeft _ _ _ _ hu ihx ihy => exact hu.allKeys (ihx hb.2.1) (ihy hb)
  | secondRight _ _ _ _ hu ihx ihy => exact hu.allKeys (ihx hb.2.2) (ihy hb)

theorem Inter.congr (hle : AgreeOn S le le') (hhp : AgreeOn S hp hp') (h : Inter le hp a b c)
    (ha : AllKeys S a) (hb : AllKeys S b) : Inter le' hp' a b c := by
  induction h with
  | nilRight a => exact .nilRight a
  | nilLeft b => exact .nilLeft b
  | same _ _ ihl ihr => exact .same (ihl ha.2.1 hb.2.1) (ihr ha.2.2 hb.2.2)
  | @firstLeft ka va la ra kb vb lb rb x y c hk hlt hx hy hu ihx ihy =>
      have hpart : AllKeys S (node kb vb lb nil) := ⟨hb.1, hb.2.1, trivial⟩
      exact .firstLeft ((hhp.below ha.1 hb.1).mp hk) (hle _ _ hb.1 ha.1 ▸ hlt) (ihx ha.2.1 hpart)
        (ihy ha hb.2.2) (hu.congr hle hhp (hx.allKeys hpart) (hy.allKeys hb.2.2))
  | @firstRight ka va la ra kb vb lb rb x y c hk hlt hx hy hu ihx ihy =>
      have hpart : AllKeys S (node kb vb nil rb) := ⟨hb.1, trivial, hb.2.2⟩
      exact .firstRight ((hhp.below ha.1 hb.1).mp hk) (hle _ _ hb.1 ha.1 ▸ hlt) (ihx ha.2.2 hpart)
        (ihy ha hb.2.1) (hu.congr hle hhp (hx.allKeys hpart) (hy.allKeys hb.2.1))
  | @secondLeft ka va la ra kb vb lb rb x y c hk hlt hx hy hu ihx ihy =>
      have hpart : AllKeys S (node ka va la nil) := ⟨ha.1, ha.2.1, trivial⟩
      exact .secondLeft ((hhp.below hb.1 ha.1).mp hk) (hle _ _ ha.1 hb.1 ▸ hlt) (ihx hpart hb.2.1)
        (ihy ha.2.2 hb) (hu.congr hle hhp (hx.allKeys hb.2.1) (hy.allKeys hb))
  | @secondRight ka va la ra kb vb lb rb x y c hk hlt hx hy hu ihx ihy =>
      have hpart : AllKeys S (node ka va nil ra) := ⟨ha.1, trivial, ha.2.2⟩
      exact .secondRight ((hhp.below hb.1 ha.1).mp hk) (hle _ _ ha.1 hb.1 ▸ hlt) (ihx hpart hb.2.2)
        (ihy ha.2.1 hb) (hu.congr hle hhp (hx.allKeys hb.2.2) (hy.allKeys hb))

end agree

/-! ### Runs that two pairs of orders share -/

section shared

/-- `c` is put together from `a` and `b`, and whatever is asked on the way both pairs of orders
answer alike. -/
inductive Shared (le le' hp hp' : κ → κ → Bool) : Treap κ β → Treap κ β → Treap κ β → Prop
  | nilRight (a) : Shared le le' hp hp' a nil a
  | nilLeft (b) : Shared le le' hp hp' nil b b
  | same {k va vb la ra lb rb l r} :
      Shared le le' hp hp' la lb l → Shared le le' hp hp' ra rb r →
        Shared le le' hp hp' (node k va la ra) (node k vb lb rb) (node k vb l r)
  | firstLeft {ka va la ra kb vb lb rb l c} :
      Below hp ka kb → Below hp' ka kb → le kb ka = true → le' kb ka = true →
        Shared le le' hp hp' la (node kb vb lb nil) l →
          Shared le le' hp hp' (node ka va l ra) rb c →
            Shared le le' hp hp' (node ka va la ra) (node kb vb lb rb) c
  | firstRight {ka va la ra kb vb lb rb r c} :
      Below hp ka kb → Below hp' ka kb → le kb ka = false → le' kb ka = false →
        Shared le le' hp hp' ra (node kb vb nil rb) r →
          Shared le le' hp hp' (node ka va la r) lb c →
            Shared le le' hp hp' (node ka va la ra) (node kb vb lb rb) c
  | secondLeft {ka va la ra kb vb lb rb l c} :
      Below hp kb ka → Below hp' kb ka → le ka kb = true → le' ka kb = true →
        Shared le le' hp hp' (node ka va la nil) lb l →
          Shared le le' hp hp' ra (node kb vb l rb) c →
            Shared le le' hp hp' (node ka va la ra) (node kb vb lb rb) c
  | secondRight {ka va la ra kb vb lb rb r c} :
      Below hp kb ka → Below hp' kb ka → le ka kb = false → le' ka kb = false →
        Shared le le' hp hp' (node ka va nil ra) rb r →
          Shared le le' hp hp' la (node kb vb lb r) c →
            Shared le le' hp hp' (node ka va la ra) (node kb vb lb rb) c

variable {le' hp' : κ → κ → Bool} {a b c t : Treap κ β} {k x y : κ}

theorem Shared.left (h : Shared le le' hp hp' a b c) : Union le hp a b c := by
  induction h with
  | nilRight a => exact .nilRight a
  | nilLeft b => exact .nilLeft b
  | same _ _ ihl ihr => exact .same ihl ihr
  | firstLeft hk _ hle _ _ _ ih ihc => exact .firstLeft hk hle ih ihc
  | firstRight hk _ hle _ _ _ ih ihc => exact .firstRight hk hle ih ihc
  | secondLeft hk _ hle _ _ _ ih ihc => exact .secondLeft hk hle ih ihc
  | secondRight hk _ hle _ _ _ ih ihc => exact .secondRight hk hle ih ihc

theorem Shared.symm (h : Shared le le' hp hp' a b c) : Shared le' le hp' hp a b c := by
  induction h with
  | nilRight a => exact .nilRight a
  | nilLeft b => exact .nilLeft b
  | same _ _ ihl ihr => exact .same ihl ihr
  | firstLeft hk hk' hle hle' _ _ ih ihc => exact .firstLeft hk' hk hle' hle ih ihc
  | firstRight hk hk' hle hle' _ _ ih ihc => exact .firstRight hk' hk hle' hle ih ihc
  | secondLeft hk hk' hle hle' _ _ ih ihc => exact .secondLeft hk' hk hle' hle ih ihc
  | secondRight hk hk' hle hle' _ _ ih ihc => exact .secondRight hk' hk hle' hle ih ihc

theorem Shared.right (h : Shared le le' hp hp' a b c) : Union le' hp' a b c := h.symm.left

/-- `c` is the intersection of `a` and `b`, and whatever is asked on the way both pairs of orders
answer alike. -/
inductive Inter.Shared (le le' hp hp' : κ → κ → Bool) : Treap κ β → Treap κ β → Treap κ β → Prop
  | nilRight (a : Treap κ β) : Inter.Shared le le' hp hp' a nil nil
  | nilLeft (b : Treap κ β) : Inter.Shared le le' hp hp' nil b nil
  | same {k va vb la ra lb rb l r} :
      Inter.Shared le le' hp hp' la lb l → Inter.Shared le le' hp hp' ra rb r →
        Inter.Shared le le' hp hp' (node k va la ra) (node k vb lb rb) (node k vb l r)
  | firstLeft {ka va la ra kb vb lb rb x y c} :
      Below hp ka kb → Below hp' ka kb → le kb ka = true → le' kb ka = true →
        Inter.Shared le le' hp hp' la (node kb vb lb nil) x →
          Inter.Shared le le' hp hp' (node ka va la ra) rb y →
            Treap.Shared le le' hp hp' x y c →
              Inter.Shared le le' hp hp' (node ka va la ra) (node kb vb lb rb) c
  | firstRight {ka va la ra kb vb lb rb x y c} :
      Below hp ka kb → Below hp' ka kb → le kb ka = false → le' kb ka = false →
        Inter.Shared le le' hp hp' ra (node kb vb nil rb) x →
          Inter.Shared le le' hp hp' (node ka va la ra) lb y →
            Treap.Shared le le' hp hp' x y c →
              Inter.Shared le le' hp hp' (node ka va la ra) (node kb vb lb rb) c
  | secondLeft {ka va la ra kb vb lb rb x y c} :
      Below hp kb ka → Below hp' kb ka → le ka kb = true → le' ka kb = true →
        Inter.Shared le le' hp hp' (node ka va la nil) lb x →
          Inter.Shared le le' hp hp' ra (node kb vb lb rb) y →
            Treap.Shared le le' hp hp' x y c →
              Inter.Shared le le' hp hp' (node ka va la ra) (node kb vb lb rb) c
  | secondRight {ka va la ra kb vb lb rb x y c} :
      Below hp kb ka → Below hp' kb ka → le ka kb = false → le' ka kb = false →
        Inter.Shared le le' hp hp' (node ka va nil ra) rb x →
          Inter.Shared le le' hp hp' la (node kb vb lb rb) y →
            Treap.Shared le le' hp hp' x y c →
              Inter.Shared le le' hp hp' (node ka va la ra) (node kb vb lb rb) c

theorem Inter.Shared.left (h : Inter.Shared le le' hp hp' a b c) : Inter le hp a b c := by
  induction h with
  | nilRight a => exact .nilRight a
  | nilLeft b => exact .nilLeft b
  | same _ _ ihl ihr => exact .same ihl ihr
  | firstLeft hk _ hle _ _ _ hu ihx ihy => exact .firstLeft hk hle ihx ihy hu.left
  | firstRight hk _ hle _ _ _ hu ihx ihy => exact .firstRight hk hle ihx ihy hu.left
  | secondLeft hk _ hle _ _ _ hu ihx ihy => exact .secondLeft hk hle ihx ihy hu.left
  | secondRight hk _ hle _ _ _ hu ihx ihy => exact .secondRight hk hle ihx ihy hu.left

theorem Inter.Shared.right (h : Inter.Shared le le' hp hp' a b c) : Inter le' hp' a b c := by
  induction h with
  | nilRight a => exact .nilRight a
  | nilLeft b => exact .nilLeft b
  | same _ _ ihl ihr => exact .same ihl ihr
  | firstLeft _ hk _ hle _ _ hu ihx ihy => exact .firstLeft hk hle ihx ihy hu.right
  | firstRight _ hk _ hle _ _ hu ihx ihy => exact .firstRight hk hle ihx ihy hu.right
  | secondLeft _ hk _ hle _ _ hu ihx ihy => exact .secondLeft hk hle ihx ihy hu.right
  | secondRight _ hk _ hle _ _ hu ihx ihy => exact .secondRight hk hle ihx ihy hu.right

/-- Going by `le` from the root one comes to the key `k`, whether or not the tree is in order. -/
def Found (le : κ → κ → Bool) (k : κ) : Treap κ β → Prop
  | nil => False
  | node n _ l r => k = n ∨ (le k n = true ∧ Found le k l) ∨ (le k n = false ∧ Found le k r)

theorem Found.has (h : Found le k t) : Has k t := by
  induction t with
  | nil => exact h.elim
  | node n v l r ihl ihr =>
      rcases h with rfl | ⟨-, h⟩ | ⟨-, h⟩
      · exact has_root _ _ _ _
      · exact has_left (ihl h)
      · exact has_right (ihr h)

/-- What `le` finds in one of two trees it finds in their union: what goes to one side of a new
root with the part it is in, goes there by itself. -/
theorem Union.found (ho : SearchOrder le) (h : Union le hp a b c) :
    Found le k a ∨ Found le k b → Found le k c := by
  have htrans := ho.trans
  have htotal := ho.total
  induction h with
  | nilRight a => exact fun h => h.elim id False.elim
  | nilLeft b => exact fun h => h.elim False.elim id
  | same _ _ ihl ihr =>
      simp only [Found]
      grind
  | firstLeft _ hle _ _ ihl ihc =>
      simp only [Found] at *
      grind
  | firstRight _ hle _ _ ihr ihc =>
      simp only [Found] at *
      grind
  | secondLeft _ hle _ _ ihl ihc =>
      simp only [Found] at *
      grind
  | secondRight _ hle _ _ ihr ihc =>
      simp only [Found] at *
      grind

/-- There is a part of the tree in which `le` finds both keys. -/
inductive Joint (le : κ → κ → Bool) (x y : κ) : Treap κ β → Prop
  | here {t : Treap κ β} : Found le x t → Found le y t → Joint le x y t
  | left {n v l r} : Joint le x y l → Joint le x y (node n v l r)
  | right {n v l r} : Joint le x y r → Joint le x y (node n v l r)

/-- A union keeps it. -/
theorem Union.joint (ho : SearchOrder le) (h : Union le hp a b c)
    (hj : Joint le x y a ∨ Joint le x y b) : Joint le x y c := by
  -- two keys found from the root are found from the root of the union
  have hroot : ∀ {a b c : Treap κ β}, Union le hp a b c → ∀ {t : Treap κ β}, t = a ∨ t = b →
      Found le x t → Found le y t → Joint le x y c := by
    rintro a b c h t (rfl | rfl) hx hy
    · exact .here (h.found ho (.inl hx)) (h.found ho (.inl hy))
    · exact .here (h.found ho (.inr hx)) (h.found ho (.inr hy))
  induction h with
  | nilRight a =>
      rcases hj with hj | hj
      · exact hj
      · cases hj with
        | here hx _ => exact hx.elim
  | nilLeft b =>
      rcases hj with hj | hj
      · cases hj with
        | here hx _ => exact hx.elim
      · exact hj
  | @same k va vb la ra lb rb l r hl hr ihl ihr =>
      have h : Union le hp (node k va la ra) (node k vb lb rb) (node k vb l r) := .same hl hr
      rcases hj with hj | hj
      · cases hj with
        | here hx hy => exact hroot h (.inl rfl) hx hy
        | left hj => exact .left (ihl (.inl hj))
        | right hj => exact .right (ihr (.inl hj))
      · cases hj with
        | here hx hy => exact hroot h (.inr rfl) hx hy
        | left hj => exact .left (ihl (.inr hj))
        | right hj => exact .right (ihr (.inr hj))
  | firstLeft hk hle hl hc ihl ihc =>
      rcases hj with hj | hj
      · cases hj with
        | here hx hy => exact hroot (.firstLeft hk hle hl hc) (.inl rfl) hx hy
        | left hj => exact ihc (.inl (.left (ihl (.inl hj))))
        | right hj => exact ihc (.inl (.right hj))
      · cases hj with
        | here hx hy => exact hroot (.firstLeft hk hle hl hc) (.inr rfl) hx hy
        | left hj => exact ihc (.inl (.left (ihl (.inr (.left hj)))))
        | right hj => exact ihc (.inr hj)
  | firstRight hk hle hr hc ihr ihc =>
      rcases hj with hj | hj
      · cases hj with
        | here hx hy => exact hroot (.firstRight hk hle hr hc) (.inl rfl) hx hy
        | left hj => exact ihc (.inl (.left hj))
        | right hj => exact ihc (.inl (.right (ihr (.inl hj))))
      · cases hj with
        | here hx hy => exact hroot (.firstRight hk hle hr hc) (.inr rfl) hx hy
        | left hj => exact ihc (.inr hj)
        | right hj => exact ihc (.inl (.right (ihr (.inr (.right hj)))))
  | secondLeft hk hle hl hc ihl ihc =>
      rcases hj with hj | hj
      · cases hj with
        | here hx hy => exact hroot (.secondLeft hk hle hl hc) (.inl rfl) hx hy
        | left hj => exact ihc (.inr (.left (ihl (.inl (.left hj)))))
        | right hj => exact ihc (.inl hj)
      · cases hj with
        | here hx hy => exact hroot (.secondLeft hk hle hl hc) (.inr rfl) hx hy
        | left hj => exact ihc (.inr (.left (ihl (.inr hj))))
        | right hj => exact ihc (.inr (.right hj))
  | secondRight hk hle hr hc ihr ihc =>
      rcases hj with hj | hj
      · cases hj with
        | here hx hy => exact hroot (.secondRight hk hle hr hc) (.inl rfl) hx hy
        | left hj => exact ihc (.inl hj)
        | right hj => exact ihc (.inr (.right (ihr (.inl (.right hj)))))
      · cases hj with
        | here hx hy => exact hroot (.secondRight hk hle hr hc) (.inr rfl) hx hy
        | left hj => exact ihc (.inr (.left hj))
        | right hj => exact ihc (.inr (.right (ihr (.inr hj))))

/-- In a tree that is in order by `le`, the two orders agree on keys that `le'` finds together. -/
theorem Joint.agree (ho : SearchOrder le) (ho' : SearchOrder le') (hxy : x ≠ y)
    (h : Joint le' x y t) (ht : Ordered le t) : le x y = le' x y := by
  induction h with
  | left _ ih => exact ih ht.2.2.1
  | right _ ih => exact ih ht.2.2.2
  | @here t hx hy =>
      have htrans := ho'.trans
      have htotal := ho'.total
      have hanti := ho'.antisymm
      induction t with
      | nil => exact hx.elim
      | node n v l r ihl ihr =>
          have hside : ∀ z, (Has z l → Below le z n) ∧ (Has z r → Below le n z) := fun z =>
            ⟨allKeys_iff.mp ht.1 z, allKeys_iff.mp ht.2.1 z⟩
          rcases hx with rfl | ⟨hxn, hx⟩ | ⟨hxn, hx⟩ <;>
            rcases hy with rfl | ⟨hyn, hy⟩ | ⟨hyn, hy⟩
          · exact absurd rfl hxy
          · have hb := (hside y).1 hy.has
            rw [hb.not_le ho]
            grind
          · have hb := (hside y).2 hy.has
            rw [hb.1]
            grind
          · have hb := (hside x).1 hx.has
            rw [hb.1, hxn]
          · exact ihl hx hy ht.2.2.1
          · have hb := ((hside x).1 hx.has).trans ho ((hside y).2 hy.has)
            rw [hb.1]
            grind
          · have hb := (hside x).2 hx.has
            rw [hb.not_le ho, hxn]
          · have hb := ((hside y).1 hy.has).trans ho ((hside x).2 hx.has)
            rw [hb.not_le ho]
            grind
          · exact ihr hx hy ht.2.2.2

/-- A union by `le'` of two trees in order by `le` shares its run with one by `le`, if it comes
out in order by `le`: a question that is answered otherwise leaves two keys that `le'` finds
together and `le` would put the other way round. -/
theorem Union.shared (ho : SearchOrder le) (ho' : SearchOrder le') (hoh : SearchOrder hp)
    (h : Union le' hp a b c) (ha : Canon le hp a) (hb : Canon le hp b) :
    Shared le le' hp hp a b c ∨ ∃ x y, x ≠ y ∧ le x y ≠ le' x y ∧ Joint le' x y c := by
  induction h with
  | nilRight a => exact .inl (.nilRight a)
  | nilLeft b => exact .inl (.nilLeft b)
  | same _ _ ihl ihr =>
      rcases ihl ha.left hb.left with hl | ⟨x, y, hxy, hne, hj⟩
      · rcases ihr ha.right hb.right with hr | ⟨x, y, hxy, hne, hj⟩
        · exact .inl (.same hl hr)
        · exact .inr ⟨x, y, hxy, hne, .right hj⟩
      · exact .inr ⟨x, y, hxy, hne, .left hj⟩
  | @firstLeft ka va la ra kb vb lb rb l c hk hle hl hc ihl ihc =>
      by_cases hq : le kb ka = le' kb ka
      · rcases ihl ha.left hb.upToRoot with sl | ⟨x, y, hxy, hne, hj⟩
        · have hnew := Union.canon_firstLeft ho hoh ha hb hk ⟨hq.trans hle, hk.2.symm⟩ sl.left
            (sl.left.spec ho hoh ha.left hb.upToRoot).1
          exact (ihc hnew hb.right).imp (.firstLeft hk hk (hq.trans hle) hle sl) id
        · exact .inr ⟨x, y, hxy, hne, hc.joint ho' (.inl (.left hj))⟩
      · have hj : Joint le' kb ka (node ka va l ra) :=
          .here (.inr (.inl ⟨hle, hl.found ho' (.inr (.inl rfl))⟩)) (.inl rfl)
        exact .inr ⟨kb, ka, hk.2.symm, hq, hc.joint ho' (.inl hj)⟩
  | @firstRight ka va la ra kb vb lb rb r c hk hle hr hc ihr ihc =>
      by_cases hq : le kb ka = le' kb ka
      · have hlt := below_of_not_le ho hk.2.symm (hq.trans hle)
        rcases ihr ha.right hb.fromRoot with sr | ⟨x, y, hxy, hne, hj⟩
        · have hnew := Union.canon_firstRight ho hoh ha hb hk hlt sr.left
            (sr.left.spec ho hoh ha.right hb.fromRoot).1
          exact (ihc hnew hb.left).imp (.firstRight hk hk (hq.trans hle) hle sr) id
        · exact .inr ⟨x, y, hxy, hne, hc.joint ho' (.inl (.right hj))⟩
      · have hj : Joint le' kb ka (node ka va la r) :=
          .here (.inr (.inr ⟨hle, hr.found ho' (.inr (.inl rfl))⟩)) (.inl rfl)
        exact .inr ⟨kb, ka, hk.2.symm, hq, hc.joint ho' (.inl hj)⟩
  | @secondLeft ka va la ra kb vb lb rb l c hk hle hl hc ihl ihc =>
      by_cases hq : le ka kb = le' ka kb
      · rcases ihl ha.upToRoot hb.left with sl | ⟨x, y, hxy, hne, hj⟩
        · have hnew := Union.canon_secondLeft ho hoh ha hb hk ⟨hq.trans hle, hk.2.symm⟩ sl.left
            (sl.left.spec ho hoh ha.upToRoot hb.left).1
          exact (ihc ha.right hnew).imp (.secondLeft hk hk (hq.trans hle) hle sl) id
        · exact .inr ⟨x, y, hxy, hne, hc.joint ho' (.inr (.left hj))⟩
      · have hj : Joint le' ka kb (node kb vb l rb) :=
          .here (.inr (.inl ⟨hle, hl.found ho' (.inl (.inl rfl))⟩)) (.inl rfl)
        exact .inr ⟨ka, kb, hk.2.symm, hq, hc.joint ho' (.inr hj)⟩
  | @secondRight ka va la ra kb vb lb rb r c hk hle hr hc ihr ihc =>
      by_cases hq : le ka kb = le' ka kb
      · have hlt := below_of_not_le ho hk.2.symm (hq.trans hle)
        rcases ihr ha.fromRoot hb.right with sr | ⟨x, y, hxy, hne, hj⟩
        · have hnew := Union.canon_secondRight ho hoh ha hb hk hlt sr.left
            (sr.left.spec ho hoh ha.fromRoot hb.right).1
          exact (ihc ha.left hnew).imp (.secondRight hk hk (hq.trans hle) hle sr) id
        · exact .inr ⟨x, y, hxy, hne, hc.joint ho' (.inr (.right hj))⟩
      · have hj : Joint le' ka kb (node kb vb lb r) :=
          .here (.inr (.inr ⟨hle, hr.found ho' (.inl (.inl rfl))⟩)) (.inl rfl)
        exact .inr ⟨ka, kb, hk.2.symm, hq, hc.joint ho' (.inr hj)⟩

theorem Union.shared_of_ordered (ho : SearchOrder le) (ho' : SearchOrder le')
    (hoh : SearchOrder hp) (h : Union le' hp a b c) (ha : Canon le hp a) (hb : Canon le hp b)
    (hc : Ordered le c) : Shared le le' hp hp a b c := by
  rcases h.shared ho ho' hoh ha hb with hs | ⟨x, y, hxy, hne, hj⟩
  · exact hs
  · exact absurd (hj.agree ho ho' hxy hc) hne

/-- No key is there twice. -/
def Distinct : Treap κ β → Prop
  | nil => True
  | node k _ l r =>
      ¬Has k l ∧ ¬Has k r ∧ (∀ j, Has j l → ¬Has j r) ∧ Distinct l ∧ Distinct r

theorem Ordered.distinct (ho : SearchOrder le) (h : Ordered le t) : Distinct t := by
  induction t with
  | nil => trivial
  | node n v l r ihl ihr =>
      have hl := allKeys_iff.mp h.1
      have hr := allKeys_iff.mp h.2.1
      refine ⟨fun hn => (hl n hn).irrefl, fun hn => (hr n hn).irrefl, fun j hj hj' => ?_,
        ihl h.2.2.1, ihr h.2.2.2⟩
      exact ((hl j hj).trans ho (hr j hj')).irrefl

/-! Insertions that two pairs of orders share. -/

section insert

variable {j : κ} {v w : β} {d d' l r : Treap κ β}

/-- The heap orders say the same of a key and the root under it. -/
def RootShared (hp hp' : κ → κ → Bool) (k : κ) : Treap κ β → Prop
  | nil => True
  | node k' _ _ _ => hp k k' = hp' k k'

theorem linkLeft_shared (h : RootShared hp hp' k d) : linkLeft hp k v d r = linkLeft hp' k v d r := by
  cases d with
  | nil => rfl
  | node k' v' l' r' =>
      have hq : hp k k' = hp' k k' := h
      rw [linkLeft, linkLeft, hq]

theorem linkRight_shared (h : RootShared hp hp' k d) :
    linkRight hp k v l d = linkRight hp' k v l d := by
  cases d with
  | nil => rfl
  | node k' v' l' r' =>
      have hq : hp k k' = hp' k k' := h
      rw [linkRight, linkRight, hq]

theorem has_linkLeft : Has x (linkLeft hp k v d r) ↔ x = k ∨ Has x d ∨ Has x r := by
  cases d with
  | nil => simp [linkLeft]
  | node k' v' l' r' =>
      rw [linkLeft]
      split_ifs
      · simp only [has_node]
      · simp only [has_node]
        tauto

theorem has_linkRight : Has x (linkRight hp k v l d) ↔ x = k ∨ Has x l ∨ Has x d := by
  cases d with
  | nil => simp [linkRight]
  | node k' v' l' r' =>
      rw [linkRight]
      split_ifs
      · simp only [has_node]
      · simp only [has_node]
        tauto

/-- What is put under a root is to be read off the tree. -/
theorem linkLeft_inj (h : linkLeft hp k v d r = linkLeft hp' k v d' r) :
    d = d' ∧ RootShared hp hp' k d := by
  cases d with
  | nil =>
      cases d' with
      | nil => exact ⟨rfl, trivial⟩
      | node k' v' l' r' =>
          rw [linkLeft, linkLeft] at h
          split_ifs at h <;> cases h
  | node kd vd ld rd =>
      cases d' with
      | nil =>
          rw [linkLeft, linkLeft] at h
          split_ifs at h <;> cases h
      | node k' v' l' r' =>
          rw [linkLeft, linkLeft] at h
          split_ifs at h with h₁ h₂ h₂ <;> cases h
          · exact ⟨rfl, h₁.trans h₂.symm⟩
          · rw [Bool.not_eq_true] at h₁ h₂
            exact ⟨rfl, h₁.trans h₂.symm⟩

theorem linkRight_inj (h : linkRight hp k v l d = linkRight hp' k v l d') :
    d = d' ∧ RootShared hp hp' k d := by
  cases d with
  | nil =>
      cases d' with
      | nil => exact ⟨rfl, trivial⟩
      | node k' v' l' r' =>
          rw [linkRight, linkRight] at h
          split_ifs at h <;> cases h
  | node kd vd ld rd =>
      cases d' with
      | nil =>
          rw [linkRight, linkRight] at h
          split_ifs at h <;> cases h
      | node k' v' l' r' =>
          rw [linkRight, linkRight] at h
          split_ifs at h with h₁ h₂ h₂ <;> cases h
          · exact ⟨rfl, h₁.trans h₂.symm⟩
          · rw [Bool.not_eq_true] at h₁ h₂
            exact ⟨rfl, h₁.trans h₂.symm⟩

/-- A key does not go to either side with the same outcome. -/
theorem linkLeft_ne_linkRight (hk : j ≠ k) (hjl : Has j d) (hjr : Has j d')
    (hd : ∀ x, Has x d → x = j ∨ Has x l) (hd' : ∀ x, Has x d' → x = j ∨ Has x r)
    (hkl : ¬Has k l) (hkr : ¬Has k r) (hlr : ∀ x, Has x l → ¬Has x r) :
    linkLeft hp k v d r ≠ linkRight hp' k v l d' := by
  have hkd : ¬Has k d := fun h => (hd k h).elim (fun e => hk e.symm) hkl
  have hkd' : ¬Has k d' := fun h => (hd' k h).elim (fun e => hk e.symm) hkr
  intro h
  cases d with
  | nil => exact absurd hjl (has_nil j)
  | node kd vd ld rd =>
      cases d' with
      | nil => exact absurd hjr (has_nil j)
      | node k' v' l' r' =>
          rw [linkLeft, linkRight] at h
          split_ifs at h
          · cases h
            exact hlr j hjl hjr
          · cases h
            exact hkd' (has_root _ _ _ _)
          · cases h
            exact hkd (has_root _ _ _ _)
          · cases h
            exact hkd (has_left (has_root _ _ _ _))

variable [DecidableEq κ] [DecidableEq β]

/-- Whatever an insertion asks, the two pairs of orders answer alike. -/
def InsertShared (le le' hp hp' : κ → κ → Bool) : Treap κ β → κ → β → Prop
  | nil, _, _ => True
  | node k _ l r, j, w =>
      j = k ∨
        (le j k = true ∧ le' j k = true ∧ InsertShared le le' hp hp' l j w ∧
          RootShared hp hp' k (insert le hp l j w)) ∨
        (le j k = false ∧ le' j k = false ∧ InsertShared le le' hp hp' r j w ∧
          RootShared hp hp' k (insert le hp r j w))

theorem InsertShared.insert_eq (h : InsertShared le le' hp hp' t j w) :
    insert le hp t j w = insert le' hp' t j w := by
  induction t with
  | nil => rfl
  | node k v l r ihl ihr =>
      rw [insert, insert]
      by_cases hk : j = k
      · rw [if_pos hk, if_pos hk]
      rw [if_neg hk, if_neg hk]
      rcases h with h | ⟨hle, hle', hi, hr⟩ | ⟨hle, hle', hi, hr⟩
      · exact absurd h hk
      · rw [if_pos hle, if_pos hle', linkLeft_shared hr, ihl hi]
      · rw [if_neg (by simp [hle]), if_neg (by simp [hle']), linkRight_shared hr, ihr hi]

theorem InsertShared.lookup_eq (h : InsertShared le le' hp hp' t j w) :
    lookup le t j = lookup le' t j := by
  induction t with
  | nil => rfl
  | node k v l r ihl ihr =>
      rw [lookup, lookup]
      by_cases hk : j = k
      · rw [if_pos hk, if_pos hk]
      rw [if_neg hk, if_neg hk]
      rcases h with h | ⟨hle, hle', hi, -⟩ | ⟨hle, hle', hi, -⟩
      · exact absurd h hk
      · rw [if_pos hle, if_pos hle', ihl hi]
      · rw [if_neg (by simp [hle]), if_neg (by simp [hle']), ihr hi]

theorem has_insert : Has x (insert le hp t j w) ↔ x = j ∨ Has x t := by
  induction t with
  | nil => simp [insert]
  | node k v l r ihl ihr =>
      rw [insert]
      split_ifs with hk hw hle
      · rw [has_node, ← hk]
        tauto
      · rw [has_node, has_node, ← hk]
        tauto
      · rw [has_linkLeft, ihl, has_node]
        tauto
      · rw [has_linkRight, ihr, has_node]
        tauto

/-- Two insertions into a tree that is in order come out the same just if they share the
run. -/
theorem insert_eq_iff (ho : SearchOrder le) (ht : Ordered le t) :
    insert le hp t j w = insert le' hp' t j w ↔ InsertShared le le' hp hp' t j w := by
  refine ⟨fun h => ?_, InsertShared.insert_eq⟩
  induction t with
  | nil => trivial
  | node k v l r ihl ihr =>
      obtain ⟨hkl, hkr, hlr, -, -⟩ := ht.distinct ho
      by_cases hk : j = k
      · exact .inl hk
      rw [insert, insert, if_neg hk, if_neg hk] at h
      cases hle : le j k <;> cases hle' : le' j k <;>
        simp only [hle, hle', if_true, if_false, Bool.false_eq_true] at h
      · obtain ⟨heq, hr⟩ := linkRight_inj h
        exact .inr (.inr ⟨hle, hle', ihr ht.2.2.2 heq, hr⟩)
      · exact absurd h.symm (linkLeft_ne_linkRight hk (has_insert.mpr (.inl rfl))
          (has_insert.mpr (.inl rfl)) (fun _ => has_insert.mp) (fun _ => has_insert.mp) hkl hkr hlr)
      · exact absurd h (linkLeft_ne_linkRight hk (has_insert.mpr (.inl rfl))
          (has_insert.mpr (.inl rfl)) (fun _ => has_insert.mp) (fun _ => has_insert.mp) hkl hkr hlr)
      · obtain ⟨heq, hr⟩ := linkLeft_inj h
        exact .inr (.inl ⟨hle, hle', ihl ht.2.2.1 heq, hr⟩)

end insert

/-! Whether a union shares its run with another is a matter of the keys only. -/

/-- The tree of the keys. -/
def keys : Treap κ β → Treap κ Unit
  | nil => nil
  | node k _ l r => node k () l.keys r.keys

theorem has_keys : Has k t.keys ↔ Has k t := by
  induction t with
  | nil => simp [keys]
  | node n v l r ihl ihr => simp only [keys, has_node, ihl, ihr]

theorem allKeys_keys {P : κ → Prop} : AllKeys P t.keys ↔ AllKeys P t := by
  simp only [allKeys_iff, has_keys]

theorem Canon.keys (h : Canon le hp t) : Canon le hp t.keys := by
  induction t with
  | nil => exact canon_nil
  | node n v l r ihl ihr =>
      exact ⟨⟨allKeys_keys.mpr h.ordered.1, allKeys_keys.mpr h.ordered.2.1, (ihl h.left).ordered,
          (ihr h.right).ordered⟩,
        ⟨allKeys_keys.mpr h.heaped.1, allKeys_keys.mpr h.heaped.2.1, (ihl h.left).heaped,
          (ihr h.right).heaped⟩⟩

theorem Shared.keys (h : Shared le le' hp hp' a b c) :
    Shared le le' hp hp' a.keys b.keys c.keys := by
  induction h with
  | nilRight a => exact .nilRight _
  | nilLeft b => exact .nilLeft _
  | same _ _ ihl ihr => exact .same ihl ihr
  | firstLeft hk hk' hle hle' _ _ ih ihc => exact .firstLeft hk hk' hle hle' ih ihc
  | firstRight hk hk' hle hle' _ _ ih ihc => exact .firstRight hk hk' hle hle' ih ihc
  | secondLeft hk hk' hle hle' _ _ ih ihc => exact .secondLeft hk hk' hle hle' ih ihc
  | secondRight hk hk' hle hle' _ _ ih ihc => exact .secondRight hk hk' hle hle' ih ihc

theorem keys_eq_nil (h : t.keys = nil) : t = nil := by
  cases t with
  | nil => rfl
  | node => cases h

theorem keys_eq_node {l r : Treap κ Unit} (h : t.keys = node k () l r) :
    ∃ v l' r', t = node k v l' r' ∧ l'.keys = l ∧ r'.keys = r := by
  cases t with
  | nil => cases h
  | node n v l' r' =>
      cases h
      exact ⟨v, l', r', rfl, rfl, rfl⟩

theorem shared_of_keys {a' b' c' : Treap κ Unit} (h : Shared le le' hp hp' a' b' c')
    (ha : a.keys = a') (hb : b.keys = b') : ∃ c, Shared le le' hp hp' a b c ∧ c.keys = c' := by
  induction h generalizing a b with
  | nilRight _ =>
      obtain rfl := keys_eq_nil hb
      exact ⟨a, .nilRight a, ha⟩
  | nilLeft _ =>
      obtain rfl := keys_eq_nil ha
      exact ⟨b, .nilLeft b, hb⟩
  | same _ _ ihl ihr =>
      obtain ⟨va, la, ra, rfl, hla, hra⟩ := keys_eq_node ha
      obtain ⟨vb, lb, rb, rfl, hlb, hrb⟩ := keys_eq_node hb
      obtain ⟨l, hl, rfl⟩ := ihl hla hlb
      obtain ⟨r, hr, rfl⟩ := ihr hra hrb
      exact ⟨_, .same hl hr, rfl⟩
  | @firstLeft ka _ _ _ kb _ _ _ _ _ hk hk' hle hle' _ _ ih ihc =>
      obtain ⟨va, la, ra, rfl, hla, hra⟩ := keys_eq_node ha
      obtain ⟨vb, lb, rb, rfl, hlb, hrb⟩ := keys_eq_node hb
      obtain ⟨l, hl, hlk⟩ := ih (b := node kb vb lb nil) hla (by rw [Treap.keys, hlb]; rfl)
      obtain ⟨c, hc, hck⟩ := ihc (a := node ka va l ra) (by rw [Treap.keys, hlk, hra]) hrb
      exact ⟨c, .firstLeft hk hk' hle hle' hl hc, hck⟩
  | @firstRight ka _ _ _ kb _ _ _ _ _ hk hk' hle hle' _ _ ih ihc =>
      obtain ⟨va, la, ra, rfl, hla, hra⟩ := keys_eq_node ha
      obtain ⟨vb, lb, rb, rfl, hlb, hrb⟩ := keys_eq_node hb
      obtain ⟨r, hr, hrk⟩ := ih (b := node kb vb nil rb) hra (by rw [Treap.keys, hrb]; rfl)
      obtain ⟨c, hc, hck⟩ := ihc (a := node ka va la r) (by rw [Treap.keys, hla, hrk]) hlb
      exact ⟨c, .firstRight hk hk' hle hle' hr hc, hck⟩
  | @secondLeft ka _ _ _ kb _ _ _ _ _ hk hk' hle hle' _ _ ih ihc =>
      obtain ⟨va, la, ra, rfl, hla, hra⟩ := keys_eq_node ha
      obtain ⟨vb, lb, rb, rfl, hlb, hrb⟩ := keys_eq_node hb
      obtain ⟨l, hl, hlk⟩ := ih (a := node ka va la nil) (by rw [Treap.keys, hla]; rfl) hlb
      obtain ⟨c, hc, hck⟩ := ihc (b := node kb vb l rb) hra (by rw [Treap.keys, hlk, hrb])
      exact ⟨c, .secondLeft hk hk' hle hle' hl hc, hck⟩
  | @secondRight ka _ _ _ kb _ _ _ _ _ hk hk' hle hle' _ _ ih ihc =>
      obtain ⟨va, la, ra, rfl, hla, hra⟩ := keys_eq_node ha
      obtain ⟨vb, lb, rb, rfl, hlb, hrb⟩ := keys_eq_node hb
      obtain ⟨r, hr, hrk⟩ := ih (a := node ka va nil ra) (by rw [Treap.keys, hra]; rfl) hrb
      obtain ⟨c, hc, hck⟩ := ihc (b := node kb vb lb r) hla (by rw [Treap.keys, hlb, hrk])
      exact ⟨c, .secondRight hk hk' hle hle' hr hc, hck⟩

/-! A tree in which every key is found is in order. -/

theorem found_of_lookup [DecidableEq κ] (h : lookup le t k ≠ none) : Found le k t := by
  induction t with
  | nil => exact h rfl
  | node n v l r ihl ihr =>
      rw [lookup] at h
      split_ifs at h with hkn hle
      · exact .inl hkn
      · exact .inr (.inl ⟨hle, ihl h⟩)
      · exact .inr (.inr ⟨Bool.not_eq_true _ ▸ hle, ihr h⟩)

theorem ordered_of_found (ho : SearchOrder le) (hd : Distinct t)
    (h : ∀ k, Has k t → Found le k t) : Ordered le t := by
  induction t with
  | nil => trivial
  | node n v l r ihl ihr =>
      obtain ⟨hnl, hnr, hlr, hdl, hdr⟩ := hd
      -- a key of the left half is looked for there, or it would be in the right half too
      have hleft : ∀ k, Has k l → le k n = true ∧ Found le k l := by
        intro k hk
        rcases h k (has_left hk) with rfl | hf | ⟨-, hf⟩
        · exact absurd hk hnl
        · exact hf
        · exact absurd hf.has (hlr k hk)
      have hright : ∀ k, Has k r → le k n = false ∧ Found le k r := by
        intro k hk
        rcases h k (has_right hk) with rfl | ⟨-, hf⟩ | hf
        · exact absurd hk hnr
        · exact absurd hk (hlr k hf.has)
        · exact hf
      have hne : ∀ k, (Has k l ∨ Has k r) → k ≠ n := by
        rintro k hk rfl
        exact hk.elim hnl hnr
      refine ⟨allKeys_iff.mpr fun k hk => ⟨(hleft k hk).1, hne k (.inl hk)⟩,
        allKeys_iff.mpr fun k hk => ?_, ihl hdl fun k hk => (hleft k hk).2,
        ihr hdr fun k hk => (hright k hk).2⟩
      exact below_of_not_le ho (hne k (.inr hk)) (hright k hk).1

/-- A union of trees without common keys has their keys, each once. -/
theorem Union.distinct (h : Union le hp a b c) (ha : Distinct a) (hb : Distinct b)
    (hab : ∀ k, Has k a → ¬Has k b) : Distinct c ∧ ∀ k, Has k c ↔ Has k a ∨ Has k b := by
  induction h with
  | nilRight a => exact ⟨ha, fun k => by simp⟩
  | nilLeft b => exact ⟨hb, fun k => by simp⟩
  | same => exact absurd (has_root _ _ _ _) (hab _ (has_root _ _ _ _))
  | firstLeft _ _ _ _ ih ihc =>
      obtain ⟨hka, hkra, hlra, hla, hra⟩ := ha
      obtain ⟨hkb, hkrb, hlrb, hlb, hrb⟩ := hb
      simp only [has_node, has_nil, Distinct, or_false] at hab ih ihc ⊢
      obtain ⟨hl, hlk⟩ := ih hla ⟨hkb, id, fun _ _ => id, hlb, trivial⟩ (by grind)
      obtain ⟨hc, hck⟩ := ihc ⟨by grind, hkra, by grind, hl, hra⟩ hrb (by grind)
      exact ⟨hc, by grind⟩
  | firstRight _ _ _ _ ih ihc =>
      obtain ⟨hka, hkra, hlra, hla, hra⟩ := ha
      obtain ⟨hkb, hkrb, hlrb, hlb, hrb⟩ := hb
      simp only [has_node, has_nil, Distinct, false_or] at hab ih ihc ⊢
      obtain ⟨hr, hrk⟩ := ih hra ⟨id, hkrb, fun _ h => h.elim, trivial, hrb⟩ (by grind)
      obtain ⟨hc, hck⟩ := ihc ⟨hka, by grind, by grind, hla, hr⟩ hlb (by grind)
      exact ⟨hc, by grind⟩
  | secondLeft _ _ _ _ ih ihc =>
      obtain ⟨hka, hkra, hlra, hla, hra⟩ := ha
      obtain ⟨hkb, hkrb, hlrb, hlb, hrb⟩ := hb
      simp only [has_node, has_nil, Distinct, or_false] at hab ih ihc ⊢
      obtain ⟨hl, hlk⟩ := ih ⟨hka, id, fun _ _ => id, hla, trivial⟩ hlb (by grind)
      obtain ⟨hc, hck⟩ := ihc hra ⟨by grind, hkrb, by grind, hl, hrb⟩ (by grind)
      exact ⟨hc, by grind⟩
  | secondRight _ _ _ _ ih ihc =>
      obtain ⟨hka, hkra, hlra, hla, hra⟩ := ha
      obtain ⟨hkb, hkrb, hlrb, hlb, hrb⟩ := hb
      simp only [has_node, has_nil, Distinct, false_or] at hab ih ihc ⊢
      obtain ⟨hr, hrk⟩ := ih ⟨id, hkra, fun _ h => h.elim, trivial, hra⟩ hrb (by grind)
      obtain ⟨hc, hck⟩ := ihc hla ⟨hkb, by grind, by grind, hlb, hr⟩ (by grind)
      exact ⟨hc, by grind⟩

end shared

/-! ### What all nodes satisfy -/

/-- Every key of the tree and its value satisfy `P`. -/
def AllNodes (P : κ → β → Prop) : Treap κ β → Prop
  | nil => True
  | node k v l r => P k v ∧ AllNodes P l ∧ AllNodes P r

section allNodes

variable {P : κ → β → Prop} {k j : κ} {v w : β} {l r d t : Treap κ β}

theorem AllNodes.holds (ht : AllNodes P t) (h : Holds k v t) : P k v := by
  induction t with
  | nil => cases h
  | node k' v' l r ihl ihr =>
      rcases h with ⟨rfl, rfl⟩ | h | h
      · exact ht.1
      · exact ihl ht.2.1 h
      · exact ihr ht.2.2 h

/-- The nodes of a union are nodes of the two trees, in whatever order these are. -/
theorem Union.allNodes {a b c : Treap κ β} (h : Union le hp a b c) (ha : AllNodes P a)
    (hb : AllNodes P b) : AllNodes P c := by
  induction h with
  | nilRight a => exact ha
  | nilLeft b => exact hb
  | same _ _ ihl ihr => exact ⟨hb.1, ihl ha.2.1 hb.2.1, ihr ha.2.2 hb.2.2⟩
  | firstLeft _ _ _ _ ih ihc =>
      exact ihc ⟨ha.1, ih ha.2.1 ⟨hb.1, hb.2.1, trivial⟩, ha.2.2⟩ hb.2.2
  | firstRight _ _ _ _ ih ihc =>
      exact ihc ⟨ha.1, ha.2.1, ih ha.2.2 ⟨hb.1, trivial, hb.2.2⟩⟩ hb.2.1
  | secondLeft _ _ _ _ ih ihc =>
      exact ihc ha.2.2 ⟨hb.1, ih ⟨ha.1, ha.2.1, trivial⟩ hb.2.1, hb.2.2⟩
  | secondRight _ _ _ _ ih ihc =>
      exact ihc ha.2.1 ⟨hb.1, hb.2.1, ih ⟨ha.1, trivial, ha.2.2⟩ hb.2.2⟩

theorem allNodes_linkLeft (hk : P k v) (hd : AllNodes P d) (hr : AllNodes P r) :
    AllNodes P (linkLeft hp k v d r) := by
  cases d with
  | nil => exact ⟨hk, hd, hr⟩
  | node k' v' l' r' =>
      rw [linkLeft]
      split
      · exact ⟨hk, hd, hr⟩
      · exact ⟨hd.1, hd.2.1, hk, hd.2.2, hr⟩

theorem allNodes_linkRight (hk : P k v) (hl : AllNodes P l) (hd : AllNodes P d) :
    AllNodes P (linkRight hp k v l d) := by
  cases d with
  | nil => exact ⟨hk, hl, hd⟩
  | node k' v' l' r' =>
      rw [linkRight]
      split
      · exact ⟨hk, hl, hd⟩
      · exact ⟨hd.1, ⟨hk, hl, hd.2.1⟩, hd.2.2⟩

theorem allNodes_insert [DecidableEq κ] [DecidableEq β] (ht : AllNodes P t) (hj : P j w) :
    AllNodes P (insert le hp t j w) := by
  induction t with
  | nil => exact ⟨hj, trivial, trivial⟩
  | node k v l r ihl ihr =>
      obtain ⟨hk, hl, hr⟩ := ht
      rw [insert]
      split
      · split
        · exact ⟨hk, hl, hr⟩
        · exact ⟨hj, hl, hr⟩
      · split
        · exact allNodes_linkLeft hk (ihl hl) hr
        · exact allNodes_linkRight hk hl (ihr hr)

end allNodes

/-! ### Listing -/

/-- The nodes in front of a list, from the last key to the first. -/
def tap : Treap κ β → List (κ × β) → List (κ × β)
  | nil, b => b
  | node k v l r, b => tap r ((k, v) :: tap l b)

section tap

variable {t : Treap κ β}

theorem mem_tap (t : Treap κ β) (l : List (κ × β)) (x : κ × β) :
    x ∈ tap t l ↔ Holds x.1 x.2 t ∨ x ∈ l := by
  induction t generalizing l with
  | nil => simp [tap, Holds]
  | node k v la ra ihl ihr =>
      have hx : x = (k, v) ↔ x.1 = k ∧ x.2 = v := Prod.ext_iff
      rw [tap, ihr, List.mem_cons, ihl, Holds, hx]
      tauto

theorem tap_append (t : Treap κ β) (l : List (κ × β)) : tap t l = tap t [] ++ l := by
  induction t generalizing l with
  | nil => rfl
  | node k v la ra ihl ihr =>
      rw [tap, tap, ihr, ihr ((k, v) :: tap la []), ihl]
      simp

/-- The list holds what a lookup finds. -/
theorem mem_tap_iff [DecidableEq κ] (ho : SearchOrder le) (h : Ordered le t) (x : κ × β) :
    x ∈ tap t [] ↔ lookup le t x.1 = some x.2 := by
  rw [mem_tap, lookup_eq_some ho h]
  simp

theorem tap_eq_nil : tap t [] = [] ↔ t = nil := by
  cases t with
  | nil => simp [tap]
  | node k v la ra =>
      rw [tap, tap_append]
      simp

/-- The keys of the list fall. -/
theorem pairwise_tap (ho : SearchOrder le) (h : Ordered le t) :
    (tap t []).Pairwise fun x y => Below le y.1 x.1 := by
  induction t with
  | nil => exact List.Pairwise.nil
  | node k v la ra ihl ihr =>
      obtain ⟨hl, hr, ol, or⟩ := h
      have hleft : ∀ x ∈ tap la [], Below le x.1 k := fun x hx =>
        allKeys_iff.mp hl _ (((mem_tap la [] x).mp hx).resolve_right List.not_mem_nil).has
      have hright : ∀ x ∈ tap ra [], Below le k x.1 := fun x hx =>
        allKeys_iff.mp hr _ (((mem_tap ra [] x).mp hx).resolve_right List.not_mem_nil).has
      rw [tap, tap_append, List.pairwise_append, List.pairwise_cons]
      refine ⟨ihr or, ⟨hleft, ihl ol⟩, ?_⟩
      intro x hx y hy
      rcases List.mem_cons.mp hy with rfl | hy
      · exact hright x hx
      · exact (hleft y hy).trans ho (hright x hx)

theorem nodup_tap (ho : SearchOrder le) (h : Ordered le t) : ((tap t []).map Prod.fst).Nodup := by
  rw [List.nodup_iff_pairwise_ne, List.pairwise_map]
  exact (pairwise_tap ho h).imp fun hxy => hxy.2.symm

/-- What a lookup finds after the nodes of a list were stored, if no key is there twice. -/
theorem lookup_foldl_insert [DecidableEq κ] [DecidableEq β] (ho : SearchOrder le) (j : κ) (w : β)
    (l : List (κ × β)) (h : Ordered le t) (hl : (l.map Prod.fst).Nodup) :
    lookup le (l.foldl (fun a x => insert le hp a x.1 x.2) t) j = some w ↔
      (j, w) ∈ l ∨ (j ∉ l.map Prod.fst ∧ lookup le t j = some w) := by
  induction l generalizing t with
  | nil => simp
  | cons x l ih =>
      obtain ⟨hx, hl⟩ := List.nodup_cons.mp hl
      have hmem : (j, w) ∈ l → j ≠ x.1 := by
        rintro hjw rfl
        exact hx (List.mem_map.mpr ⟨_, hjw, rfl⟩)
      have hcons : (j, w) = x ↔ j = x.1 ∧ w = x.2 := Prod.ext_iff
      rw [List.foldl_cons, ih (ordered_insert ho h x.1 x.2) hl, lookup_insert ho h, List.mem_cons,
        List.map_cons, List.mem_cons, hcons]
      by_cases hj : j = x.1
      · subst hj
        simp only [if_true, Option.some.injEq, true_and, true_or, not_true, false_and, or_false,
          eq_comm (a := x.2)]
        tauto
      · simp only [hj, if_false, false_and, false_or]

/-- A tree is built again from the list of its nodes. -/
theorem foldl_insert_tap [DecidableEq κ] [DecidableEq β] (ho : SearchOrder le)
    (hoh : SearchOrder hp) (h : Canon le hp t) :
    (tap t []).foldl (fun a x => insert le hp a x.1 x.2) nil = t := by
  have hcanon : ∀ (l : List (κ × β)) {t : Treap κ β}, Canon le hp t →
      Canon le hp (l.foldl (fun a x => insert le hp a x.1 x.2) t) := by
    intro l
    induction l with
    | nil => exact fun h => h
    | cons x l ih =>
        exact fun h => ih ⟨ordered_insert ho h.ordered x.1 x.2, heaped_insert hoh h.heaped x.1 x.2⟩
  refine (hcanon _ canon_nil).eq_of_lookup ho hoh h fun j => Option.ext fun w => ?_
  have hnil : Ordered le (nil : Treap κ β) := trivial
  rw [lookup_foldl_insert ho j w _ hnil (nodup_tap ho h.ordered), mem_tap_iff ho h.ordered]
  simp [lookup]

end tap

/-! ### Weights -/

/-- The weights of the nodes, summed up. -/
def weight (f : κ × β → Nat) : Treap κ β → Nat
  | nil => 0
  | node k v l r => weight f l + f (k, v) + weight f r

section weight

variable {f : κ × β → Nat} {k j : κ} {v w : β} {l r d t : Treap κ β}

theorem sum_tap (t : Treap κ β) (b : List (κ × β)) :
    ((tap t b).map f).sum = weight f t + (b.map f).sum := by
  induction t generalizing b with
  | nil => simp [tap, weight]
  | node k v l r ihl ihr =>
      rw [tap, ihr, List.map_cons, List.sum_cons, ihl, weight]
      omega

theorem weight_linkLeft : weight f (linkLeft hp k v d r) = weight f (node k v d r) := by
  cases d with
  | nil => rfl
  | node k' v' l' r' =>
      rw [linkLeft]
      split
      · rfl
      · simp only [weight]
        omega

theorem weight_linkRight : weight f (linkRight hp k v l d) = weight f (node k v l d) := by
  cases d with
  | nil => rfl
  | node k' v' l' r' =>
      rw [linkRight]
      split
      · rfl
      · simp only [weight]
        omega

/-- What is stored adds its weight at most: it can take the place of another value. -/
theorem weight_insert [DecidableEq κ] [DecidableEq β] :
    weight f (insert le hp t j w) ≤ weight f t + f (j, w) := by
  induction t with
  | nil => simp [insert, weight]
  | node k v l r ihl ihr =>
      rw [insert]
      split
      · split
        · exact Nat.le_add_right _ _
        · simp only [weight]
          omega
      · split
        · rw [weight_linkLeft, weight, weight]
          omega
        · rw [weight_linkRight, weight, weight]
          omega

theorem weight_foldl_insert [DecidableEq κ] [DecidableEq β] (l : List (κ × β)) :
    weight f (l.foldl (fun a x => insert le hp a x.1 x.2) t) ≤ weight f t + (l.map f).sum := by
  induction l generalizing t with
  | nil => simp
  | cons x l ih =>
      rw [List.foldl_cons, List.map_cons, List.sum_cons]
      calc
        _ ≤ weight f (insert le hp t x.1 x.2) + (l.map f).sum := ih
        _ ≤ weight f t + f x + (l.map f).sum := Nat.add_le_add_right weight_insert _
        _ = weight f t + (f x + (l.map f).sum) := Nat.add_assoc ..

end weight

end Vere.Lib.Treap
