import Mathlib.Data.Finmap
import Vere.Hoon.Set
import Vere.Lib.Dag

/-!
# Vere.Clay.Graph

Merge bases in the graph of commits (`++zule`, `++zear`, `++zeal` and `++mate` of `++ze`).

`zule` collects the commits that a commit reaches. `zeal` goes up from `q` until it enters what
`p` reaches, and `zear` is to leave of the commits found there those that no other reaches.

Two tests of the source look for a commit in a set of takos, which are the names of commits: the
one of `zeal` for `q` itself, and the one of `zear` for a commit below another. A commit is a
cell and a name is an atom, so both always fail (`has_names_cell`). `zeal` misses `q` when it is
an ancestor of `p`, and `zear` keeps one of the commits found, whichever is last in `++vor`
(`zear_settles`). `zeal_best_iff` is when that is right.
-/

namespace Vere.Clay

open Vere.Lib Vere.Hoon

/-- `++yaki`: commit. The files are as in memory, or as a map. -/
structure Yaki (φ : Type) where
  /-- Parents. -/
  p : List Nat
  /-- Files. -/
  q : φ
  /-- Name. -/
  r : Nat
  /-- Date. -/
  t : Nat
  deriving DecidableEq

/-- A list of takos. -/
def takos : List Nat → Noun
  | [] => .atom 0
  | i :: t => .cell (.atom i) (takos t)

def Yaki.noun (y : Yaki Noun) : Noun :=
  .cell (takos y.p) (.cell y.q (.cell (.atom y.r) (.atom y.t)))

/-- `r` of a commit. -/
def nameOf : Noun → Nat
  | .cell _ (.cell _ (.cell (.atom r) _)) => r
  | _ => 0

theorem takos_inj {a b : List Nat} (h : takos a = takos b) : a = b := by
  induction a generalizing b with
  | nil =>
    cases b with
    | nil => rfl
    | cons j b => exact Noun.noConfusion h
  | cons i a ih =>
    cases b with
    | nil => exact Noun.noConfusion h
    | cons j b =>
      simp only [takos, Noun.cell.injEq, Noun.atom.injEq] at h
      rw [h.1, ih h.2]

theorem Yaki.noun_inj {y z : Yaki Noun} (h : y.noun = z.noun) : y = z := by
  obtain ⟨p, q, r, t⟩ := y
  obtain ⟨p', q', r', t'⟩ := z
  simp only [Yaki.noun, Noun.cell.injEq, Noun.atom.injEq] at h
  obtain ⟨hp, rfl, rfl, rfl⟩ := h
  rw [takos_inj hp]

@[simp] theorem nameOf_noun (y : Yaki Noun) : nameOf y.noun = y.r := rfl

/-- `hut`: the commits by name. -/
abbrev Hut := Finmap fun _ : Nat => Yaki Noun

/-! ### The arms -/

section arms

variable (mug : Noun → Nat) (hut : Hut)

/-- `uni:in` on sets in order (`uni_settles`). -/
def union (a b : In.Tree) : In.Tree := In.gas mug a (In.tap b [])

/-- `zule`: reachable. -/
def zule {φ : Type} (hut : Finmap fun _ : Nat => Yaki φ) : Nat → Nat → Option In.Tree
  | 0, _ => none
  | n + 1, p => do
    let y ← hut.lookup p
    let t := In.put mug .nil (.atom p)
    y.p.foldlM (fun s q =>
      -- already done, hence skip
      if In.has mug s (.atom q) then some s
      else do
        let u ← zule hut n q
        return union mug s u) t

/-- `zar` of `zear`: what each of the commits reaches. -/
def zearMap (n : Nat) (unk : In.Tree) : Option (Finmap fun _ : Nat => In.Tree) :=
  (In.tap unk []).foldlM (fun qar yak => do
    let s ← zule mug hut n (nameOf yak)
    return qar.insert (nameOf yak) s) ∅

/-- The test of `zear`: the roll starts at yes. -/
def zearTest (zar : Finmap fun _ : Nat => In.Tree) (tek : Noun) (l : List Noun) : Option Bool :=
  l.foldlM (fun god tak =>
    if god then do
      let s ← zar.lookup (nameOf tak)
      return In.has mug s tek
    else some god) true

/-- The loop of `zear`. -/
def zearLoop (zar : Finmap fun _ : Nat => In.Tree) : Nat → In.Tree → In.Tree → Option In.Tree
  | 0, _, _ => none
  | _ + 1, .nil, gud => some gud
  | n + 1, .node tek u l r, gud => do
    let bun := In.del mug (.node tek u l r) tek
    -- only good + unknown
    if ← zearTest mug zar tek (In.tap (union mug gud bun) []) then
      zearLoop zar n bun (In.put mug gud tek)
    else zearLoop zar n bun gud

/-- `zear`: reduce merge points. -/
def zear (n : Nat) (unk : In.Tree) : Option In.Tree := do
  let zar ← zearMap mug hut n unk
  zearLoop mug zar n unk .nil

/-- The loop of `zeal`. -/
def zealLoop (r : In.Tree) : Nat → Yaki Noun → Option In.Tree
  | 0, _ => none
  | n + 1, q =>
    if In.has mug r q.noun then some (In.put mug .nil q.noun)
    else q.p.foldlM (fun s t => do
      let y ← hut.lookup t
      if In.has mug r (.atom t) then return In.put mug s y.noun
      else do
        let u ← zealLoop r n y
        return union mug s u) .nil

/-- `zeal`: merge points. -/
def zeal (n : Nat) (p q : Yaki Noun) : Option In.Tree := do
  let r ← zule mug hut n p.r
  let unk ← zealLoop mug hut r n q
  zear mug hut n unk

/-- `mate`: merge p,q. What is done with the merge point is `meld`. -/
def mate {μ : Type} (meld : Yaki Noun → Yaki Noun → Noun → Option μ) (n : Nat) (p q : Yaki Noun) :
    Option μ := do
  let r ← zeal mug hut n p q
  match In.tap r [] with
  | [] => none
  | [i] => meld p q i
  | _ => none

end arms

/-! ### Sets -/

section sets

variable {mug : Noun → Nat} {a b : In.Tree}

theorem good_union (ha : In.Good mug a) : In.Good mug (union mug a b) := In.good_gas ha _

theorem has_union (ha : In.Good mug a) (hb : In.Good mug b) (x : Noun) :
    In.has mug (union mug a b) x = true ↔ In.has mug a x = true ∨ In.has mug b x = true := by
  rw [union, In.has_gas ha, In.mem_tap, In.has_iff hb]
  simp [or_comm]

/-- Sets in order that have the same members are the same. -/
theorem good_ext (ha : In.Good mug a) (hb : In.Good mug b)
    (h : ∀ x, In.has mug a x = true ↔ In.has mug b x = true) : a = b := by
  refine Treap.Canon.eq_of_lookup (hor_searchOrder mug) (vor_searchOrder mug) ha hb fun x => ?_
  have hx := h x
  simp only [In.has] at hx
  cases h1 : Treap.lookup (hor mug) a x <;> cases h2 : Treap.lookup (hor mug) b x <;>
    simp [h1, h2] at hx ⊢

/-- `union` is what the arm comes to. -/
theorem uni_settles (ha : In.Good mug a) (hb : In.Good mug b) :
    Settles (fun n => In.uni mug n a b) (some (union mug a b)) := by
  obtain ⟨c, hset, -, hc, hhas⟩ := (In.exists_settles ha hb).1
  obtain rfl : c = union mug a b :=
    good_ext hc (good_union ha) fun x => (hhas x).trans (has_union ha hb x).symm
  exact hset

theorem has_nil (x : Noun) : In.has mug .nil x = false := rfl

theorem mem_tap_iff (ha : In.Good mug a) (x : Noun) : x ∈ In.tap a [] ↔ In.has mug a x = true := by
  rw [In.mem_tap, In.has_iff ha]
  simp

end sets

/-! ### The graph -/

/-- `u` is a parent of `t`. -/
def Par {φ : Type} (hut : Finmap fun _ : Nat => Yaki φ) (u t : Nat) : Prop := ∃ y, hut.lookup t = some y ∧ u ∈ y.p

/-- A finite acyclic graph, closed under parents. -/
structure Graph {φ : Type} (hut : Finmap fun _ : Nat => Yaki φ) : Prop where
  named : ∀ t y, hut.lookup t = some y → y.r = t
  closed : ∀ t y, hut.lookup t = some y → ∀ u ∈ y.p, ∃ z, hut.lookup u = some z
  acyclic : WellFounded (Par hut)

theorem Graph.up {φ : Type} {hut : Finmap fun _ : Nat => Yaki φ} (hg : Graph hut) {t u : Nat} (h : Up (Par hut) t u)
    (ht : ∃ y, hut.lookup t = some y) : ∃ z, hut.lookup u = some z := by
  induction h with
  | refl => exact ht
  | tail _ hp _ =>
    obtain ⟨y, hy, hu⟩ := hp
    exact hg.closed _ y hy _ hu

/-- A set of names. -/
structure Names (mug : Noun → Nat) (s : In.Tree) (P : Nat → Prop) : Prop where
  good : In.Good mug s
  has : ∀ x, In.has mug s x = true ↔ ∃ t, x = .atom t ∧ P t

theorem Names.atom {mug : Noun → Nat} {s : In.Tree} {P : Nat → Prop} (h : Names mug s P) (t : Nat) :
    In.has mug s (.atom t) = true ↔ P t := by
  rw [h.has]
  constructor
  · rintro ⟨u, hu, hp⟩
    rwa [Noun.atom.inj hu]
  · intro hp
    exact ⟨t, rfl, hp⟩

/-- A commit is not in a set of names. -/
theorem Names.cell {mug : Noun → Nat} {s : In.Tree} {P : Nat → Prop} (h : Names mug s P)
    (y : Yaki Noun) : In.has mug s y.noun = false := by
  refine Bool.eq_false_iff.mpr fun hy => ?_
  obtain ⟨t, ht, -⟩ := (h.has _).mp hy
  exact Noun.noConfusion ht

section reach

variable {mug : Noun → Nat}

section

variable {φ : Type} {hut : Finmap fun _ : Nat => Yaki φ}

/-- One parent of `p` in the loop of `zule`, when those before it are done. -/
theorem zule_round {p q : Nat} (hg : Graph hut) (hq : Par hut q p) {done : List Nat} {s : In.Tree}
    (hs : Names mug s fun t => t = p ∨ ∃ u ∈ done, Up (Par hut) u t)
    (ih : ∃ u, Settles (fun n => zule mug hut n q) (some u) ∧ Names mug u (Up (Par hut) q)) :
    ∃ s', Settles (fun n => if In.has mug s (.atom q) then some s else do
        let u ← zule mug hut n q
        return union mug s u) (some s') ∧
      Names mug s' fun t => t = p ∨ ∃ u ∈ done ++ [q], Up (Par hut) u t := by
  by_cases hhas : In.has mug s (.atom q) = true
  · refine ⟨s, by simp only [hhas, if_true]; exact .const _, hs.good, fun x => ?_⟩
    -- what was skipped is above something done: it is not `p`, which has it as a parent
    obtain ⟨u, hu, huq⟩ : ∃ u ∈ done, Up (Par hut) u q := by
      rcases (hs.atom q).mp hhas with rfl | h
      · exact absurd (Up.refl q) (not_up_parent hg.acyclic hq)
      · exact h
    rw [hs.has]
    constructor
    · rintro ⟨t, rfl, rfl | ⟨v, hv, hvt⟩⟩
      · exact ⟨_, rfl, .inl rfl⟩
      · exact ⟨t, rfl, .inr ⟨v, List.mem_append_left _ hv, hvt⟩⟩
    · rintro ⟨t, rfl, rfl | ⟨v, hv, hvt⟩⟩
      · exact ⟨_, rfl, .inl rfl⟩
      · rcases List.mem_append.mp hv with hv | hv
        · exact ⟨t, rfl, .inr ⟨v, hv, hvt⟩⟩
        · rw [List.mem_singleton.mp hv] at hvt
          exact ⟨t, rfl, .inr ⟨u, hu, huq.trans hvt⟩⟩
  · obtain ⟨u, hset, hu⟩ := ih
    refine ⟨union mug s u, ?_, good_union hs.good, fun x => ?_⟩
    · simp only [hhas]
      exact hset.bind (.const _)
    · rw [has_union hs.good hu.good, hs.has, hu.has]
      constructor
      · rintro (⟨t, rfl, rfl | ⟨v, hv, hvt⟩⟩ | ⟨t, rfl, ht⟩)
        · exact ⟨_, rfl, .inl rfl⟩
        · exact ⟨t, rfl, .inr ⟨v, List.mem_append_left _ hv, hvt⟩⟩
        · exact ⟨t, rfl, .inr ⟨q, by simp, ht⟩⟩
      · rintro ⟨t, rfl, rfl | ⟨v, hv, hvt⟩⟩
        · exact .inl ⟨_, rfl, .inl rfl⟩
        · rcases List.mem_append.mp hv with hv | hv
          · exact .inl ⟨t, rfl, .inr ⟨v, hv, hvt⟩⟩
          · rw [List.mem_singleton.mp hv] at hvt
            exact .inr ⟨t, rfl, hvt⟩

/-- `zule` collects what is reached. -/
theorem zule_settles (hg : Graph hut) (p : Nat) (hp : ∃ y, hut.lookup p = some y) :
    ∃ s, Settles (fun n => zule mug hut n p) (some s) ∧ Names mug s (Up (Par hut) p) := by
  induction p using hg.acyclic.induction with
  | _ p ih =>
    obtain ⟨y, hy⟩ := hp
    have hstart : Names mug (In.put mug .nil (.atom p))
        fun t => t = p ∨ ∃ u ∈ ([] : List Nat), Up (Par hut) u t := by
      refine ⟨In.good_put Treap.canon_nil _, fun x => ?_⟩
      rw [In.has_put Treap.canon_nil]
      simp [has_nil]
    obtain ⟨s, hset, hs⟩ := Settles.foldlM (l := y.p)
      (f := fun n s q => if In.has mug s (.atom q) then some s else do
        let u ← zule mug hut n q
        return union mug s u)
      (fun done s => Names mug s fun t => t = p ∨ ∃ u ∈ done, Up (Par hut) u t) hstart
      fun done s q hq hs => zule_round hg ⟨y, hy, hq⟩ hs (ih q ⟨y, hy, hq⟩ (hg.closed p y hy q hq))
    refine ⟨s, .call (fun n => by rw [zule, hy]; rfl) hset, hs.good, fun x => ?_⟩
    rw [hs.has]
    refine exists_congr fun t => and_congr_right fun _ => ?_
    rw [up_iff]
    refine or_congr eq_comm (exists_congr fun u => and_congr_left fun _ => ?_)
    exact ⟨fun hu => ⟨y, hy, hu⟩, fun ⟨z, hz, hu⟩ => by rwa [Option.some.inj (hy.symm.trans hz)]⟩

end

variable {hut : Hut}

/-- A set of commits. -/
structure Commits (mug : Noun → Nat) (hut : Hut) (s : In.Tree) (P : Nat → Prop) : Prop where
  good : In.Good mug s
  has : ∀ x, In.has mug s x = true ↔ ∃ y, x = y.noun ∧ hut.lookup y.r = some y ∧ P y.r

theorem commits_nil {P : Nat → Prop} (h : ∀ t, ¬P t) : Commits mug hut .nil P := by
  refine ⟨Treap.canon_nil, fun x => ?_⟩
  simp [has_nil, h]

/-- One parent in the loop of `zeal`. -/
theorem zeal_round {R : Nat → Prop} {r s : In.Tree} {t : Nat} {y : Yaki Noun} {done : List Nat}
    (hg : Graph hut) (hr : Names mug r R) (hy : hut.lookup t = some y)
    (hs : Commits mug hut s fun v => ∃ u ∈ done, R u ∧ v = u ∨ ¬R u ∧ Meets (Par hut) R u v)
    (ih : ∃ u, Settles (fun n => zealLoop mug hut r n y) (some u) ∧
      Commits mug hut u (Meets (Par hut) R y.r)) :
    ∃ s', Settles (fun n => do
        let y ← hut.lookup t
        if In.has mug r (.atom t) then return In.put mug s y.noun
        else do
          let u ← zealLoop mug hut r n y
          return union mug s u) (some s') ∧
      Commits mug hut s' fun v => ∃ u ∈ done ++ [t], R u ∧ v = u ∨ ¬R u ∧ Meets (Par hut) R u v := by
  have hname : y.r = t := hg.named t y hy
  simp only [hy]
  by_cases hR : R t
  · refine ⟨In.put mug s y.noun, ?_, In.good_put hs.good _, fun x => ?_⟩
    · have hhas := (hr.atom t).mpr hR
      simp only [hhas]
      exact .const _
    · rw [In.has_put hs.good, hs.has]
      constructor
      · rintro (rfl | ⟨z, rfl, hz, u, hu, hv⟩)
        · exact ⟨y, rfl, by rwa [hname], t, by simp, .inl ⟨hR, hname⟩⟩
        · exact ⟨z, rfl, hz, u, List.mem_append_left _ hu, hv⟩
      · rintro ⟨z, rfl, hz, u, hu, hv⟩
        rcases List.mem_append.mp hu with hu | hu
        · exact .inr ⟨z, rfl, hz, u, hu, hv⟩
        · rw [List.mem_singleton.mp hu] at hv
          rcases hv with ⟨-, hv⟩ | ⟨hno, -⟩
          · rw [hv, hy] at hz
            exact .inl (by rw [Option.some.inj hz])
          · exact absurd hR hno
  · obtain ⟨u, hset, hu⟩ := ih
    refine ⟨union mug s u, ?_, good_union hs.good, fun x => ?_⟩
    · have hhas : ¬In.has mug r (.atom t) = true := fun h => hR ((hr.atom t).mp h)
      simp only [hhas]
      exact hset.bind (.const _)
    · rw [has_union hs.good hu.good, hs.has, hu.has, hname]
      constructor
      · rintro (⟨z, rfl, hz, u, hu, hv⟩ | ⟨z, rfl, hz, hm⟩)
        · exact ⟨z, rfl, hz, u, List.mem_append_left _ hu, hv⟩
        · exact ⟨z, rfl, hz, t, by simp, .inr ⟨hR, hm⟩⟩
      · rintro ⟨z, rfl, hz, v, hv, hm⟩
        rcases List.mem_append.mp hv with hv | hv
        · exact .inl ⟨z, rfl, hz, v, hv, hm⟩
        · rw [List.mem_singleton.mp hv] at hm
          rcases hm with ⟨hyes, -⟩ | ⟨-, hm⟩
          · exact absurd hyes hR
          · exact .inr ⟨z, rfl, hz, hm⟩

/-- `zeal` finds what is met on the way up from `q`. -/
theorem zealLoop_settles {R : Nat → Prop} {r : In.Tree} (hg : Graph hut) (hr : Names mug r R)
    (hR : UpClosed (Par hut) R) (t : Nat) (q : Yaki Noun) (hq : hut.lookup t = some q) :
    ∃ s, Settles (fun n => zealLoop mug hut r n q) (some s) ∧
      Commits mug hut s (Meets (Par hut) R t) := by
  induction t using hg.acyclic.induction generalizing q with
  | _ t ih =>
    obtain ⟨s, hset, hs⟩ := Settles.foldlM (l := q.p)
      (f := fun n s t => do
        let y ← hut.lookup t
        if In.has mug r (.atom t) then return In.put mug s y.noun
        else do
          let u ← zealLoop mug hut r n y
          return union mug s u)
      (fun done s => Commits mug hut s
        fun v => ∃ u ∈ done, R u ∧ v = u ∨ ¬R u ∧ Meets (Par hut) R u v)
      (commits_nil (by simp)) (by
        intro done s u hu hs
        obtain ⟨y, hy⟩ := hg.closed t q hq u hu
        have hyr := hg.named u y hy
        exact zeal_round hg hr hy hs (hyr ▸ ih u ⟨q, hq, hu⟩ y hy))
    refine ⟨s, .call (fun n => by rw [zealLoop, hr.cell q]; rfl) hset, hs.good, fun x => ?_⟩
    rw [hs.has]
    refine exists_congr fun y => and_congr_right fun _ => and_congr_right fun _ => ?_
    rw [meets_iff hR]
    refine exists_congr fun u => and_congr_left fun _ => ?_
    exact ⟨fun hu => ⟨q, hq, hu⟩, fun ⟨z, hz, hu⟩ => by rwa [Option.some.inj (hq.symm.trans hz)]⟩

end reach

/-! ### One of the commits is left -/

section reduce

variable {mug : Noun → Nat} {hut : Hut} {zar : Finmap fun _ : Nat => In.Tree}

/-- For each commit of the set, `zar` has a set of names. -/
def Mapped (mug : Noun → Nat) (zar : Finmap fun _ : Nat => In.Tree) (l : List Noun) : Prop :=
  ∀ x ∈ l, ∃ s P, zar.lookup (nameOf x) = some s ∧ Names mug s P

/-- The test is passed if there is nothing to test, and else failed. -/
theorem zearTest_eq {l : List Noun} (h : Mapped mug zar l) (tek : Yaki Noun) :
    zearTest mug zar tek.noun l = some (decide (l = [])) := by
  cases l with
  | nil => rfl
  | cons x l =>
    obtain ⟨s, P, hs, hn⟩ := h x List.mem_cons_self
    have hfail : ∀ l : List Noun, l.foldlM (fun god tak => if god = true then do
        let s ← zar.lookup (nameOf tak)
        return In.has mug s tek.noun
      else some god) false = some false := by
      intro l
      induction l with
      | nil => rfl
      | cons y l ih => simpa using ih
    have hx : (do
        let s ← zar.lookup (nameOf x)
        return In.has mug s tek.noun : Option Bool) = some false := by
      rw [hs]
      simp [hn.cell tek]
    rw [zearTest, List.foldlM_cons, if_pos rfl, hx]
    simpa using hfail l

theorem zearMap_settles {P : Nat → Prop} {unk : In.Tree} (hg : Graph hut)
    (hu : Commits mug hut unk P) :
    ∃ zar, Settles (fun n => zearMap mug hut n unk) (some zar) ∧
      Mapped mug zar (In.tap unk []) := by
  refine Settles.foldlM (fun done zar => Mapped mug zar done) (by simp [Mapped]) ?_
  intro done zar x hx hm
  obtain ⟨y, rfl, hy, -⟩ := (hu.has x).mp ((mem_tap_iff hu.good x).mp hx)
  obtain ⟨s, hset, hs⟩ := @zule_settles mug _ hut hg y.r ⟨y, hy⟩
  refine ⟨zar.insert y.r s, hset.bind (.const _), ?_⟩
  intro z hz
  by_cases he : nameOf z = y.r
  · exact ⟨s, _, by rw [he, Finmap.lookup_insert], hs⟩
  · rcases List.mem_append.mp hz with hz | hz
    · obtain ⟨s', P', hl, hn⟩ := hm z hz
      exact ⟨s', P', by rw [Finmap.lookup_insert_of_ne _ he, hl], hn⟩
    · rw [List.mem_singleton.mp hz] at he
      exact absurd (nameOf_noun y) he

theorem card_tap_del {a : In.Tree} (ha : In.Good mug a) {x : Noun} (hx : In.has mug a x = true) :
    (In.tap (In.del mug a x) []).toFinset.card < (In.tap a []).toFinset.card := by
  refine Finset.card_lt_card ⟨fun y hy => ?_, fun hsub => ?_⟩
  · rw [List.mem_toFinset, mem_tap_iff (In.good_del ha x), In.has_del ha] at hy
    rw [List.mem_toFinset, mem_tap_iff ha]
    exact hy.2
  · have hmem := hsub (List.mem_toFinset.mpr ((mem_tap_iff ha x).mpr hx))
    rw [List.mem_toFinset, mem_tap_iff (In.good_del ha x), In.has_del ha] at hmem
    exact hmem.1 rfl

theorem tap_eq_nil {a : In.Tree} : In.tap a [] = [] ↔ a = .nil := by
  constructor
  · intro h
    cases a with
    | nil => rfl
    | node n u l r =>
      have hn : n ∈ In.tap (.node n u l r) [] := (In.mem_tap _ _ _).mpr (.inl (Treap.has_root n u l r))
      rw [h] at hn
      exact absurd hn List.not_mem_nil
  · rintro rfl
    rfl

/-- The last of a set in `++vor`. -/
def Last (mug : Noun → Nat) (P : Noun → Prop) (m : Noun) : Prop :=
  P m ∧ ∀ x, P x → vor mug x m = true

/-- The loop throws out the root until one commit is left, which is the last in `++vor`. -/
theorem zearLoop_settles {unk : In.Tree} (hu : In.Good mug unk) (hne : unk ≠ .nil)
    (hy : ∀ x, In.has mug unk x = true → ∃ y : Yaki Noun, x = y.noun)
    (hm : Mapped mug zar (In.tap unk [])) :
    ∃ m, Last mug (fun x => In.has mug unk x = true) m ∧
      Settles (fun n => zearLoop mug zar n unk .nil) (some (In.put mug .nil m)) := by
  induction hk : (In.tap unk []).toFinset.card using Nat.strong_induction_on generalizing unk with
  | _ k ih =>
    cases unk with
    | nil => exact absurd rfl hne
    | node tek u l r =>
      have htek : In.has mug (.node tek u l r) tek = true :=
        (In.has_iff hu tek).mpr (Treap.has_root tek u l r)
      obtain ⟨y, rfl⟩ := hy tek htek
      have hbun := In.good_del hu y.noun
      have hhas := fun x => In.has_del hu y.noun x
      have hsame : union mug .nil (In.del mug (.node y.noun u l r) y.noun) =
          In.del mug (.node y.noun u l r) y.noun := by
        refine good_ext (good_union Treap.canon_nil) hbun fun x => ?_
        rw [has_union Treap.canon_nil hbun]
        simp [has_nil]
      have hmap : Mapped mug zar (In.tap (In.del mug (.node y.noun u l r) y.noun) []) := by
        intro x hx
        rw [mem_tap_iff hbun, hhas] at hx
        exact hm x ((mem_tap_iff hu x).mpr hx.2)
      have htest := zearTest_eq hmap y
      by_cases hnil : In.del mug (.node y.noun u l r) y.noun = .nil
      · -- the only one: it is tested against nothing, and kept
        refine ⟨y.noun, ⟨htek, fun x hx => ?_⟩, ?_⟩
        · by_cases he : x = y.noun
          · rw [he]
            exact ((vor_searchOrder mug).total _ _).elim id id
          · have := (hhas x).mpr ⟨he, hx⟩
            rw [hnil, has_nil] at this
            exact absurd this Bool.false_ne_true
        · refine .call (g := fun n => zearLoop mug zar n .nil (In.put mug .nil y.noun)) ?_
            (.call (fun n => rfl) (.const _))
          intro n
          simp only [zearLoop, hsame, htest]
          simp [hnil, In.tap]
      · have hlt := card_tap_del hu htek
        rw [hk] at hlt
        obtain ⟨m, ⟨hmem, hmax⟩, hset⟩ := ih _ hlt hbun hnil
          (fun x hx => hy x ((hhas x).mp hx).2) hmap rfl
        refine ⟨m, ⟨((hhas m).mp hmem).2, fun x hx => ?_⟩, .call (fun n => ?_) hset⟩
        · by_cases he : x = y.noun
          · rw [he]
            obtain ⟨hne', hin⟩ := (hhas m).mp hmem
            exact (Treap.Canon.root_le hu ((In.has_iff hu m).mp hin) hne').1
          · exact hmax x ((hhas x).mpr ⟨he, hx⟩)
        · have hf : decide (In.tap (In.del mug (.node y.noun u l r) y.noun) [] = []) = false :=
            decide_eq_false fun h => hnil (tap_eq_nil.mp h)
          simp only [zearLoop, hsame, htest, hf]
          rfl

/-- What `zear` leaves of a set. -/
theorem zear_settles {P : Nat → Prop} {unk : In.Tree} (hg : Graph hut)
    (hu : Commits mug hut unk P) :
    ((∀ x, In.has mug unk x = false) ∧ Settles (fun n => zear mug hut n unk) (some .nil)) ∨
      ∃ m, Last mug (fun x => In.has mug unk x = true) m ∧
        Settles (fun n => zear mug hut n unk) (some (In.put mug .nil m)) := by
  obtain ⟨zar, hzar, hm⟩ := zearMap_settles hg hu
  by_cases hne : unk = .nil
  · refine .inl ⟨fun x => by rw [hne, has_nil], hzar.bind ?_⟩
    rw [hne]
    exact .call (fun n => rfl) (.const _)
  · obtain ⟨m, hlast, hset⟩ := zearLoop_settles hu.good hne (fun x hx => by
      obtain ⟨y, hy, -⟩ := (hu.has x).mp hx
      exact ⟨y, hy⟩) hm
    exact .inr ⟨m, hlast, hzar.bind hset⟩

end reduce

/-! ### When the merge bases are right -/

section bases

variable {mug : Noun → Nat} {hut : Hut} {p q : Yaki Noun}

/-- A common ancestor. -/
def Common (hut : Hut) (p q : Yaki Noun) (t : Nat) : Prop :=
  Up (Par hut) p.r t ∧ Up (Par hut) q.r t

/-- A common ancestor that no other one reaches. -/
def BestAt (hut : Hut) (p q y : Yaki Noun) : Prop :=
  hut.lookup y.r = some y ∧ Common hut p q y.r ∧
    ∀ t, Common hut p q t → Up (Par hut) t y.r → t = y.r

/-- A set of best common ancestors: every common ancestor is reached from a member, every member
is one, and none is reached from another. -/
structure BestSet (mug : Noun → Nat) (hut : Hut) (p q : Yaki Noun) (s : In.Tree) : Prop where
  cover : ∀ t, Common hut p q t →
    ∃ y : Yaki Noun, In.has mug s y.noun = true ∧ Up (Par hut) y.r t
  common : ∀ x, In.has mug s x = true →
    ∃ y, x = y.noun ∧ hut.lookup y.r = some y ∧ Common hut p q y.r
  apart : ∀ y z : Yaki Noun, In.has mug s y.noun = true → In.has mug s z.noun = true →
    Up (Par hut) y.r z.r → y = z

/-- What is expected of two commits: `zule` returns what is reached, `zeal` the best common
ancestors, and `mate` rejects two of them and accepts a single one. -/
structure MergeBases (mug : Noun → Nat) (hut : Hut) (p q : Yaki Noun) : Prop where
  zule : ∃ s, Settles (fun n => zule mug hut n p.r) (some s) ∧ Names mug s (Up (Par hut) p.r)
  zeal : ∃ s, Settles (fun n => zeal mug hut n p q) (some s) ∧ BestSet mug hut p q s
  reject : ∀ (μ : Type) (meld : Yaki Noun → Yaki Noun → Noun → Option μ) (y z : Yaki Noun),
    BestAt hut p q y → BestAt hut p q z → y ≠ z →
      Settles (fun n => mate mug hut meld n p q) none
  accept : ∀ (μ : Type) (meld : Yaki Noun → Yaki Noun → Noun → Option μ) (y : Yaki Noun),
    BestAt hut p q y → (∀ z, BestAt hut p q z → z = y) →
      Settles (fun n => mate mug hut meld n p q) (meld p q y.noun)

/-- A commit that is met on the way up from `q` by what `p` reaches. -/
def Met (hut : Hut) (p q : Yaki Noun) (x : Noun) : Prop :=
  ∃ y, x = y.noun ∧ hut.lookup y.r = some y ∧ Meets (Par hut) (Up (Par hut) p.r) q.r y.r

/-- `q` is not an ancestor of `p`, and of the commits met on the way up from `q` the last in
`++vor` reaches all common ancestors. -/
def Single (mug : Noun → Nat) (hut : Hut) (p q : Yaki Noun) : Prop :=
  ¬Up (Par hut) p.r q.r ∧
    ∀ y : Yaki Noun, Last mug (Met hut p q) y.noun → ∀ t, Common hut p q t → Up (Par hut) y.r t

theorem Last.unique {P : Noun → Prop} {m m' : Noun} (h : Last mug P m) (h' : Last mug P m') :
    m = m' :=
  (vor_searchOrder mug).antisymm m m' (h'.2 m h.1) (h.2 m' h'.1)

/-- What `zeal` returns: nothing when nothing is met, and else the last of what is. -/
theorem zeal_settles (hg : Graph hut) (hp : hut.lookup p.r = some p) (hq : hut.lookup q.r = some q) :
    ((∀ x, ¬Met hut p q x) ∧ Settles (fun n => zeal mug hut n p q) (some .nil)) ∨
      ∃ m, Last mug (Met hut p q) m ∧
        Settles (fun n => zeal mug hut n p q) (some (In.put mug .nil m)) := by
  obtain ⟨r, hrset, hr⟩ := @zule_settles mug _ hut hg p.r ⟨p, hp⟩
  obtain ⟨unk, huset, hu⟩ := zealLoop_settles hg hr (upClosed_up p.r) q.r q hq
  have hmet : (fun x => In.has mug unk x = true) = Met hut p q := funext fun x => propext (hu.has x)
  rcases zear_settles hg hu with ⟨hnone, hset⟩ | ⟨m, hlast, hset⟩
  · refine .inl ⟨fun x hx => ?_, hrset.bind (huset.bind hset)⟩
    rw [← hmet] at hx
    exact Bool.false_ne_true ((hnone x).symm.trans hx)
  · exact .inr ⟨m, hmet ▸ hlast, hrset.bind (huset.bind hset)⟩

theorem has_single (m x : Noun) : In.has mug (In.put mug .nil m) x = true ↔ x = m := by
  rw [In.has_put Treap.canon_nil]
  simp [has_nil]

theorem Met.common {x : Noun} (h : Met hut p q x) :
    ∃ y, x = y.noun ∧ hut.lookup y.r = some y ∧ Common hut p q y.r := by
  obtain ⟨y, rfl, hy, hm⟩ := h
  exact ⟨y, rfl, hy, hm.1, hm.up⟩

theorem exists_met (hg : Graph hut) (hp : hut.lookup p.r = some p) (hno : ¬Up (Par hut) p.r q.r)
    {t : Nat} (ht : Common hut p q t) : ∃ x, Met hut p q x := by
  obtain ⟨u, hu, -⟩ := exists_meets (upClosed_up p.r) hno ht.2 ht.1
  obtain ⟨y, hy⟩ := hg.up hu.1 ⟨p, hp⟩
  have hname := hg.named u y hy
  exact ⟨y.noun, y, rfl, by rw [hname, hy], by rwa [hname]⟩

theorem mate_single {μ : Type} {meld : Yaki Noun → Yaki Noun → Noun → Option μ} {m : Noun}
    (h : Settles (fun n => zeal mug hut n p q) (some (In.put mug .nil m))) :
    Settles (fun n => mate mug hut meld n p q) (meld p q m) :=
  h.bind (.const _)

theorem bases_of_single (hg : Graph hut) (hp : hut.lookup p.r = some p)
    (hq : hut.lookup q.r = some q) (h : Single mug hut p q) : MergeBases mug hut p q := by
  obtain ⟨hno, hlast⟩ := h
  rcases @zeal_settles mug hut p q hg hp hq with ⟨hnone, hset⟩ | ⟨m, hm, hset⟩
  · have hempty : ∀ t, ¬Common hut p q t := by
      intro t ht
      obtain ⟨x, hx⟩ := exists_met hg hp hno ht
      exact hnone x hx
    exact ⟨zule_settles hg p.r ⟨p, hp⟩,
      ⟨.nil, hset, fun t ht => absurd ht (hempty t), fun x hx => by simp [has_nil] at hx,
        fun y z hy => by simp [has_nil] at hy⟩,
      fun _ _ y _ hy => absurd hy.2.1 (hempty _), fun _ _ y hy => absurd hy.2.1 (hempty _)⟩
  · obtain ⟨y, rfl, hy, hcom⟩ := hm.1.common
    have hreach := hlast y hm
    -- a best common ancestor is reached from it, so it is the same
    have hbest : ∀ z, BestAt hut p q z → z = y := by
      intro z hz
      have he := hz.2.2 y.r hcom (hreach z.r hz.2.1)
      have hlook := hz.1
      rw [← he, hy] at hlook
      exact (Option.some.inj hlook).symm
    refine ⟨zule_settles hg p.r ⟨p, hp⟩, ⟨_, hset, ?_, ?_, ?_⟩, ?_, ?_⟩
    · intro t ht
      exact ⟨y, (has_single _ _).mpr rfl, hreach t ht⟩
    · intro x hx
      exact ⟨y, (has_single _ _).mp hx, hy, hcom⟩
    · intro a b ha hb _
      exact Yaki.noun_inj (((has_single _ _).mp ha).trans ((has_single _ _).mp hb).symm)
    · intro _ _ a b ha hb hab
      exact absurd ((hbest a ha).trans (hbest b hb).symm) hab
    · intro _ _ a ha _
      rw [hbest a ha]
      exact mate_single hset

theorem single_of_bases (hg : Graph hut) (hp : hut.lookup p.r = some p)
    (hq : hut.lookup q.r = some q) (h : MergeBases mug hut p q) : Single mug hut p q := by
  obtain ⟨s, hs, hbest⟩ := h.zeal
  -- whatever is returned was met, and is not `q`
  have hmet : ∀ x, In.has mug s x = true → Last mug (Met hut p q) x := by
    intro x hx
    rcases @zeal_settles mug hut p q hg hp hq with ⟨-, hset⟩ | ⟨m, hm, hset⟩
    · rw [Option.some.inj (hs.unique hset), has_nil] at hx
      exact absurd hx Bool.false_ne_true
    · rw [Option.some.inj (hs.unique hset), has_single] at hx
      rwa [hx]
  constructor
  · intro hup
    obtain ⟨y, hy, hyq⟩ := hbest.cover q.r ⟨hup, Up.refl q.r⟩
    obtain ⟨z, hz, -, hzm⟩ := (hmet _ hy).1
    have hr : y.r = z.r := congrArg nameOf hz
    exact hzm.ne hg.acyclic (up_antisymm hg.acyclic (hr ▸ hyq) hzm.up)
  · intro y hy t ht
    obtain ⟨z, hz, hzt⟩ := hbest.cover t ht
    have hr : z.r = y.r := congrArg nameOf ((hmet _ hz).unique hy)
    rwa [← hr]

/-- In every finite acyclic graph of commits, the merge bases of two commits are right if and
only if the second is not an ancestor of the first, and of the commits met on the way up from it
the last in `++vor` reaches all common ancestors. -/
theorem merge_bases_iff (mug : Noun → Nat) (hut : Hut) (hg : Graph hut) (p q : Yaki Noun)
    (hp : hut.lookup p.r = some p) (hq : hut.lookup q.r = some q) :
    MergeBases mug hut p q ↔ Single mug hut p q :=
  ⟨single_of_bases hg hp hq, bases_of_single hg hp hq⟩

/-- Names that are larger than those of the parents leave no cycle. -/
theorem graph_of_lt {φ : Type} {hut : Finmap fun _ : Nat => Yaki φ} (hnamed : ∀ t y, hut.lookup t = some y → y.r = t)
    (hlt : ∀ t y, hut.lookup t = some y → ∀ u ∈ y.p, u < t ∧ ∃ z, hut.lookup u = some z) :
    Graph hut := by
  refine ⟨hnamed, fun t y hy u hu => (hlt t y hy u hu).2, Subrelation.wf ?_ Nat.lt_wfRel.wf⟩
  rintro u t ⟨y, hy, hu⟩
  exact (hlt t y hy u hu).1

/-- A commit, and two that were made from it. -/
def root : Yaki Noun := ⟨[], .atom 0, 1, 10⟩

def left : Yaki Noun := ⟨[1], .atom 0, 2, 20⟩

def right : Yaki Noun := ⟨[1], .atom 0, 3, 30⟩

def fork : Hut := ((∅ : Hut).insert 1 root).insert 2 left |>.insert 3 right

theorem fork_lookup {t : Nat} {y : Yaki Noun} :
    fork.lookup t = some y ↔ t = 1 ∧ y = root ∨ t = 2 ∧ y = left ∨ t = 3 ∧ y = right := by
  by_cases h3 : t = 3
  · subst h3
    simp [fork, eq_comm]
  · by_cases h2 : t = 2
    · subst h2
      simp [fork, Finmap.lookup_insert_of_ne, eq_comm]
    · by_cases h1 : t = 1
      · subst h1
        simp [fork, Finmap.lookup_insert_of_ne, eq_comm]
      · simp [fork, Finmap.lookup_insert_of_ne, h1, h2, h3]

theorem fork_graph : Graph fork := by
  refine graph_of_lt ?_ ?_
  · intro t y h
    rcases fork_lookup.mp h with ⟨rfl, rfl⟩ | ⟨rfl, rfl⟩ | ⟨rfl, rfl⟩ <;> rfl
  · intro t y h u hu
    have h1 : fork.lookup 1 = some root := fork_lookup.mpr (by simp)
    rcases fork_lookup.mp h with ⟨rfl, rfl⟩ | ⟨rfl, rfl⟩ | ⟨rfl, rfl⟩
    · simp [root] at hu
    · simp only [left, List.mem_singleton] at hu
      exact ⟨by omega, root, hu ▸ h1⟩
    · simp only [right, List.mem_singleton] at hu
      exact ⟨by omega, root, hu ▸ h1⟩

theorem fork_par {u t : Nat} : Par fork u t ↔ u = 1 ∧ (t = 2 ∨ t = 3) := by
  constructor
  · rintro ⟨y, hy, hu⟩
    rcases fork_lookup.mp hy with ⟨rfl, rfl⟩ | ⟨rfl, rfl⟩ | ⟨rfl, rfl⟩
    · simp [root] at hu
    · exact ⟨by simpa [left] using hu, .inl rfl⟩
    · exact ⟨by simpa [right] using hu, .inr rfl⟩
  · rintro ⟨rfl, rfl | rfl⟩
    · exact ⟨left, fork_lookup.mpr (by simp), by simp [left]⟩
    · exact ⟨right, fork_lookup.mpr (by simp), by simp [right]⟩

theorem fork_up {t u : Nat} : Up (Par fork) t u ↔ u = t ∨ u = 1 ∧ (t = 2 ∨ t = 3) := by
  constructor
  · intro h
    rcases up_iff.mp h with rfl | ⟨s, hs, hu⟩
    · exact .inl rfl
    · obtain ⟨rfl, ht⟩ := fork_par.mp hs
      rcases up_iff.mp hu with rfl | ⟨v, hv, -⟩
      · exact .inr ⟨rfl, ht⟩
      · have := (fork_par.mp hv).2
        omega
  · rintro (rfl | ⟨rfl, ht⟩)
    · exact Up.refl _
    · exact Up.parent (fork_par.mpr ⟨rfl, ht⟩)

/-- The two sides of a fork, whose merge base is the commit they were made from. -/
theorem merge_bases_fork :
    Graph fork ∧ fork.lookup left.r = some left ∧ fork.lookup right.r = some right ∧
      MergeBases Hoon.mug fork left right := by
  have hl : fork.lookup left.r = some left := fork_lookup.mpr (by simp [left])
  have hr : fork.lookup right.r = some right := fork_lookup.mpr (by simp [right])
  refine ⟨fork_graph, hl, hr, (merge_bases_iff Hoon.mug fork fork_graph left right hl hr).mpr ?_⟩
  refine ⟨by simp [fork_up, left, right], ?_⟩
  intro y hy t ht
  have ht1 : t = 1 := by
    simp only [Common, fork_up, left, right] at ht
    omega
  obtain ⟨z, hz, -, hm, -⟩ := hy.1
  have hr : y.r = z.r := congrArg nameOf hz
  rw [ht1, fork_up]
  simp only [fork_up, left] at hm
  omega

/-- A commit and its parent: the parent is an ancestor of the commit, and is missed. -/
theorem merge_bases_parent :
    Graph fork ∧ fork.lookup left.r = some left ∧ fork.lookup root.r = some root ∧
      ¬MergeBases Hoon.mug fork left root := by
  have hl : fork.lookup left.r = some left := fork_lookup.mpr (by simp [left])
  have hr : fork.lookup root.r = some root := fork_lookup.mpr (by simp [root])
  refine ⟨fork_graph, hl, hr, fun h => (single_of_bases fork_graph hl hr h).1 ?_⟩
  simp [fork_up, left, root]

end bases

end Vere.Clay
