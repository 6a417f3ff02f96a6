import Vere.Clay.Store
import Vere.Lib.Skim

/-!
# Vere.Clay.Gack

What one ship sends another to bring it from one version to a later one (`++garg`, `++pack`,
`++hack` and `++gack` of `++ze`).

The commits are those that the later version reaches and the earlier one does not (`packLoop`
stops at what `zule` finds), and the blobs are those that they need, down the chains of changes, and
the earlier commits do not (`garg` stops at the blobs of the earlier ones). Together with what the
earlier version has, nothing is left out (`gack_closed`).
-/

namespace Vere.Clay

open Vere.Lib Vere.Hoon

/-- `++nako`: what a subscriber gets. The sets are lists of their members. -/
structure Nako where
  /-- New ids. -/
  gar : Finmap fun _ : Nat => Nat
  /-- Next id. -/
  «let» : Nat
  /-- New commits. -/
  lar : List (Yaki (Map Nat))
  /-- New content. -/
  bar : List Blob

/-! ### The arms -/

section arms

variable (mug : Noun → Nat) (z : Desk)

/-- One lobe of `garg`, and the blobs it is a change of. -/
def gargIn (lat : Lat) (b : In.Tree) : Nat → Nat → In.Tree → Option In.Tree
  | 0, _, _ => none
  | n + 1, lob, far =>
    -- don't need
    if In.has mug b (.atom lob) then some far
    else do
      let gar ← lat.lookup lob
      match gar with
      | .direct .. => some (In.put mug far (.atom lob))
      | .delta _ q _ => (gargIn lat b n q far).map fun far => In.put mug far (.atom lob)
      | .indirect _ _ _ s => (gargIn lat b n s far).map fun far => In.put mug far (.atom lob)

/-- `garg`: object hash set that aren't in b. -/
def garg (n : Nat) (b a : In.Tree) : Option In.Tree :=
  (In.tap a []).foldlM (fun bar tak => do
    let t ← hardAtom tak
    let yak ← z.hut.lookup t
    (Treap.tap yak.q []).foldlM (fun far i => gargIn mug z.lat b n i.2 far) bar) .nil

/-- The walk of `pack` onto `sar`. -/
def packLoop (hut : Finmap fun _ : Nat => Yaki (Map Nat)) (sar : In.Tree) :
    Nat → Yaki (Map Nat) → Option In.Tree
  | 0, _ => none
  | n + 1, yak =>
    if In.has mug sar (.atom yak.r) then some .nil
    else do
      let ber := In.put mug .nil (.atom yak.r)
      let bar ← yak.p.foldlM (fun bar yek =>
        -- save some time
        if In.has mug bar (.atom yek) then some bar
        else do
          let yak ← hut.lookup yek
          let u ← packLoop hut sar n yak
          return union mug bar u) .nil
      return union mug ber bar

/-- `sar` of `pack`: what the earlier commit reaches. -/
def packOld (n : Nat) (a : Option Nat) : Option In.Tree :=
  match a with
  | none => some .nil
  | some a => do
    let y ← z.hut.lookup a
    zule mug z.hut n y.r

/-- `pack`: pack a through b. -/
def pack (n : Nat) (a : Option Nat) (b : Nat) : Option (In.Tree × In.Tree) := do
  let sar ← packOld mug z n a
  let yak ← z.hut.lookup b
  -- get lobes
  let lob ← garg mug z n .nil sar
  let new ← packLoop mug z.hut sar n yak
  -- `garf`: garg & repack
  let far ← garg mug z n lob new
  return (new, far)

/-- `hack`: trivial. The sets that `++sa` makes of the commits and of the blobs are lists here, in the
order of `tap`: `edis`, which hears them, folds over their members and puts each under its name. -/
def hack (a b : In.Tree) : Option (List (Yaki (Map Nat)) × List Blob) := do
  let lar ← (In.tap a []).mapM fun tak => hardAtom tak >>= z.hut.lookup
  let bar ← (In.tap b []).mapM fun lob => hardAtom lob >>= z.lat.lookup
  return (lar, bar)

/-- `gack`: gack a through b. -/
def gack (n : Nat) (a b : Nat) : Option Nako := do
  let t ← z.hit.lookup b
  -- if a not found, a=0
  let s ← pack mug z n (z.hit.lookup a) t
  let h ← hack z s.1 s.2
  return ⟨skim (fun p => a < p ∧ p ≤ b) z.hit, b, h.1, h.2⟩

end arms

/-! ### Chains of changes -/

/-- What a blob is a change of. -/
def Blob.base : Blob → Option Nat
  | .delta _ q _ => some q
  | .direct .. => none
  | .indirect _ _ _ s => some s

/-- `u` is what `k` is a change of. -/
def Base (lat : Lat) (u k : Nat) : Prop := ∃ b, lat.lookup k = some b ∧ b.base = some u

/-- The chain of changes from a lobe ends. -/
inductive Grounded (lat : Lat) : Nat → Prop
  | mk {k : Nat} {b : Blob} (hb : lat.lookup k = some b) (hbase : ∀ u, b.base = some u → Grounded lat u) :
      Grounded lat k

/-- A set of names, grown by those above a node that are not in a closed set. -/
def Outside (par : Nat → Nat → Prop) (R : Nat → Prop) (k x : Nat) : Prop := Up par k x ∧ ¬R x

section sets

variable {mug : Noun → Nat} {s u : In.Tree} {P Q : Nat → Prop}

theorem Names.congr (hs : Names mug s P) (h : ∀ x, P x ↔ Q x) : Names mug s Q := by
  refine ⟨hs.good, fun x => ?_⟩
  rw [hs.has]
  exact exists_congr fun t => and_congr_right fun _ => h t

theorem names_nil (h : ∀ x, ¬P x) : Names mug .nil P := by
  refine ⟨Treap.canon_nil, fun x => ?_⟩
  simp [has_nil, h]

theorem Names.put (hs : Names mug s P) (k : Nat) :
    Names mug (In.put mug s (.atom k)) fun x => x = k ∨ P x := by
  refine ⟨In.good_put hs.good _, fun x => ?_⟩
  rw [In.has_put hs.good, hs.has]
  constructor
  · rintro (rfl | ⟨t, rfl, ht⟩)
    · exact ⟨k, rfl, .inl rfl⟩
    · exact ⟨t, rfl, .inr ht⟩
  · rintro ⟨t, rfl, rfl | ht⟩
    · exact .inl rfl
    · exact .inr ⟨t, rfl, ht⟩

theorem Names.union (hs : Names mug s P) (hu : Names mug u Q) :
    Names mug (union mug s u) fun x => P x ∨ Q x := by
  refine ⟨good_union hs.good, fun x => ?_⟩
  rw [has_union hs.good hu.good, hs.has, hu.has]
  constructor
  · rintro (⟨t, rfl, ht⟩ | ⟨t, rfl, ht⟩)
    · exact ⟨t, rfl, .inl ht⟩
    · exact ⟨t, rfl, .inr ht⟩
  · rintro ⟨t, rfl, ht | ht⟩
    · exact .inl ⟨t, rfl, ht⟩
    · exact .inr ⟨t, rfl, ht⟩

theorem Names.mem_tap (hs : Names mug s P) (x : Noun) :
    x ∈ In.tap s [] ↔ ∃ t, x = .atom t ∧ P t := by
  rw [mem_tap_iff hs.good, hs.has]

end sets

/-! ### What is collected -/

section collect

variable {mug : Noun → Nat} {lat : Lat} {B : Nat → Prop} {b : In.Tree}

/-- A lobe that is not in the closed set, and what it is a change of. -/
theorem outside_base {par : Nat → Nat → Prop} {R : Nat → Prop} {k : Nat} (hk : ¬R k) (x : Nat) :
    Outside par R k x ↔ x = k ∨ ∃ u, par u k ∧ Outside par R u x := by
  simp only [Outside]
  rw [up_iff]
  constructor
  · rintro ⟨rfl | ⟨u, hu, hx⟩, hR⟩
    · exact .inl rfl
    · exact .inr ⟨u, hu, hx, hR⟩
  · rintro (rfl | ⟨u, hu, hx, hR⟩)
    · exact ⟨.inl rfl, hk⟩
    · exact ⟨.inr ⟨u, hu, hx⟩, hR⟩

theorem not_outside {par : Nat → Nat → Prop} {R : Nat → Prop} (hR : UpClosed par R) {k : Nat} (hk : R k)
    (x : Nat) : ¬Outside par R k x := fun hx => hx.2 (hR.up hk hx.1)

/-- `garg` takes of a chain what is not in the closed set. -/
theorem gargIn_settles (hb : Names mug b B) (hB : UpClosed (Base lat) B) {k : Nat} (hk : Grounded lat k)
    {far : In.Tree} {P : Nat → Prop} (hfar : Names mug far P) :
    ∃ s, Settles (fun n => gargIn mug lat b n k far) (some s) ∧
      Names mug s fun x => P x ∨ Outside (Base lat) B k x := by
  induction hk generalizing far P with
  | @mk k c hc hbase ih =>
    by_cases hin : B k
    · refine ⟨far, .call (g := fun _ => some far) (fun n => ?_) (.const _), hfar.congr fun x => ?_⟩
      · rw [gargIn, if_pos ((hb.atom k).mpr hin)]
      · exact ⟨.inl, fun h => h.resolve_right (not_outside hB hin x)⟩
    · have hhas : ¬In.has mug b (.atom k) = true := fun h => hin ((hb.atom k).mp h)
      have hgo : ∀ u, c.base = some u → ∃ s,
          Settles (fun n => (gargIn mug lat b n u far).map fun far => In.put mug far (.atom k)) (some s) ∧
            Names mug s fun x => P x ∨ Outside (Base lat) B k x := by
        intro u hu
        obtain ⟨s, hset, hs⟩ := ih u hu hfar
        refine ⟨In.put mug s (.atom k), hset.comp (Option.map fun far => In.put mug far (.atom k)),
          (hs.put k).congr fun x => ?_⟩
        · have hone : ∀ v, Base lat v k ↔ v = u := by
            intro v
            constructor
            · rintro ⟨c', hc', hv⟩
              obtain rfl := Option.some.inj (hc.symm.trans hc')
              exact Option.some.inj (hv.symm.trans hu)
            · rintro rfl
              exact ⟨c, hc, hu⟩
          rw [outside_base hin]
          simp only [hone, exists_eq_left]
          tauto
      cases c with
      | direct p q r =>
        refine ⟨In.put mug far (.atom k), .call (g := fun _ => some (In.put mug far (.atom k))) (fun n => ?_)
          (.const _), (hfar.put k).congr fun x => ?_⟩
        · rw [gargIn, if_neg hhas, hc]
          rfl
        · have hnone : ∀ v, ¬Base lat v k := by
            rintro v ⟨c', hc', hv⟩
            obtain rfl := Option.some.inj (hc.symm.trans hc')
            cases hv
          rw [outside_base hin]
          simp only [hnone, false_and, exists_false, or_false]
          exact or_comm
      | delta p q r =>
        obtain ⟨s, hset, hs⟩ := hgo q rfl
        exact ⟨s, .call (fun n => by rw [gargIn, if_neg hhas, hc]; rfl) hset, hs⟩
      | indirect p q r u =>
        obtain ⟨s, hset, hs⟩ := hgo u rfl
        exact ⟨s, .call (fun n => by rw [gargIn, if_neg hhas, hc]; rfl) hset, hs⟩

variable {z : Desk} {A : Nat → Prop} {a : In.Tree}

/-- The lobes of a commit. -/
def Lobe (y : Yaki (Map Nat)) (k : Nat) : Prop := ∃ i ∈ Treap.tap y.q [], i.2 = k

/-- A blob that one of the commits needs. -/
def Need (z : Desk) (A : Nat → Prop) (x : Nat) : Prop :=
  ∃ t y k, A t ∧ z.hut.lookup t = some y ∧ Lobe y k ∧ Up (Base z.lat) k x

/-- Every lobe of the commits is grounded. -/
def Supplied (z : Desk) : Prop := ∀ t y, z.hut.lookup t = some y → ∀ k, Lobe y k → Grounded z.lat k

/-- The lobes of one commit. -/
theorem garg_yak (hb : Names mug b B) (hB : UpClosed (Base lat) B) {y : Yaki (Map Nat)}
    (hy : ∀ k, Lobe y k → Grounded lat k) {bar : In.Tree} {P : Nat → Prop} (hbar : Names mug bar P) :
    ∃ s, Settles (fun n => (Treap.tap y.q []).foldlM (fun far i => gargIn mug lat b n i.2 far) bar)
        (some s) ∧
      Names mug s fun x => P x ∨ ∃ k, Lobe y k ∧ Outside (Base lat) B k x := by
  obtain ⟨s, hset, hs⟩ := Settles.foldlM (m := Option) (l := Treap.tap y.q []) (s := bar)
    (f := fun n far i => gargIn mug lat b n i.2 far)
    (fun done far => Names mug far fun x => P x ∨ ∃ i ∈ done, Outside (Base lat) B i.2 x)
    (hbar.congr fun x => by simp) fun done far i hi hfar => by
      obtain ⟨s, hset, hs⟩ := gargIn_settles hb hB (hy i.2 ⟨i, hi, rfl⟩) hfar
      refine ⟨s, hset, hs.congr fun x => ?_⟩
      simp only [List.mem_append, List.mem_singleton, or_and_right, exists_or, exists_eq_left, or_assoc]
  refine ⟨s, hset, hs.congr fun x => or_congr_right ?_⟩
  constructor
  · rintro ⟨i, hi, hx⟩
    exact ⟨i.2, ⟨i, hi, rfl⟩, hx⟩
  · rintro ⟨k, ⟨i, hi, rfl⟩, hx⟩
    exact ⟨i, hi, hx⟩

/-- `garg` collects what the commits need and is not there. -/
theorem garg_settles (hz : Supplied z) (hb : Names mug b B) (hB : UpClosed (Base z.lat) B)
    (ha : Names mug a A) (hA : ∀ t, A t → ∃ y, z.hut.lookup t = some y) :
    ∃ s, Settles (fun n => garg mug z n b a) (some s) ∧ Names mug s fun x => Need z A x ∧ ¬B x := by
  obtain ⟨s, hset, hs⟩ := Settles.foldlM (m := Option) (l := In.tap a []) (s := .nil)
    (f := fun n bar tak => do
      let t ← hardAtom tak
      let yak ← z.hut.lookup t
      (Treap.tap yak.q []).foldlM (fun far i => gargIn mug z.lat b n i.2 far) bar)
    (fun done bar => Names mug bar fun x => ∃ t, .atom t ∈ done ∧ ∃ y, z.hut.lookup t = some y ∧
      ∃ k, Lobe y k ∧ Outside (Base z.lat) B k x)
    (names_nil fun x => by simp) fun done bar tak htak hbar => by
      obtain ⟨t, rfl, ht⟩ := (ha.mem_tap tak).mp htak
      obtain ⟨y, hy⟩ := hA t ht
      obtain ⟨s, hset, hs⟩ := garg_yak hb hB (hz t y hy) hbar
      refine ⟨s, ?_, hs.congr fun x => ?_⟩
      · simpa only [hardAtom, hy, Option.bind_eq_bind, Option.bind_some, Option.pure_def] using hset
      · simp only [List.mem_append, List.mem_singleton, Noun.atom.injEq, or_and_right, exists_or,
          exists_eq_left, hy, Option.some.injEq]
        simp only [exists_eq_left']
  refine ⟨s, hset, hs.congr fun x => ?_⟩
  constructor
  · rintro ⟨t, ht, y, hy, k, hk, hx, hB⟩
    obtain ⟨t', he, hA'⟩ := (ha.mem_tap _).mp ht
    rw [Noun.atom.inj he] at hy
    exact ⟨⟨t', y, k, hA', hy, hk, hx⟩, hB⟩
  · rintro ⟨⟨t, y, k, hA', hy, hk, hx⟩, hB⟩
    exact ⟨t, (ha.mem_tap _).mpr ⟨t, rfl, hA'⟩, y, hy, k, hk, hx, hB⟩

variable {hut : Finmap fun _ : Nat => Yaki (Map Nat)} {R : Nat → Prop} {sar : In.Tree}

/-- One parent in the walk of `pack`. -/
theorem packLoop_round {done : List Nat} {bar : In.Tree} {yek : Nat}
    (hyek : ∃ y, hut.lookup yek = some y)
    (hbar : Names mug bar fun x => ∃ u ∈ done, Outside (Par hut) R u x)
    (ih : ∀ y, hut.lookup yek = some y → ∃ s, Settles (fun n => packLoop mug hut sar n y) (some s) ∧
      Names mug s (Outside (Par hut) R yek)) :
    ∃ s, Settles (fun n => if In.has mug bar (.atom yek) then some bar
        else do
          let yak ← hut.lookup yek
          let u ← packLoop mug hut sar n yak
          return union mug bar u) (some s) ∧
      Names mug s fun x => ∃ u ∈ done ++ [yek], Outside (Par hut) R u x := by
  have hsplit : ∀ x, (∃ u ∈ done ++ [yek], Outside (Par hut) R u x) ↔
      (∃ u ∈ done, Outside (Par hut) R u x) ∨ Outside (Par hut) R yek x := by
    intro x
    simp only [List.mem_append, List.mem_singleton, or_and_right, exists_or, exists_eq_left]
  by_cases hhas : In.has mug bar (.atom yek) = true
  · refine ⟨bar, by simp only [hhas, if_true]; exact .const _, hbar.congr fun x => ?_⟩
    -- it was reached from another parent, and with it all that it reaches
    obtain ⟨u, hu, hup, -⟩ := (hbar.atom yek).mp hhas
    rw [hsplit]
    exact ⟨.inl, fun h => h.elim id fun hx => ⟨u, hu, hup.trans hx.1, hx.2⟩⟩
  · obtain ⟨y, hy⟩ := hyek
    obtain ⟨s, hset, hs⟩ := ih y hy
    refine ⟨union mug bar s, ?_, (hbar.union hs).congr fun x => (hsplit x).symm⟩
    simp only [hhas, hy]
    exact hset.bind (.const _)

/-- The walk of `pack` collects what a commit reaches and is not in the closed set. -/
theorem packLoop_settles (hg : Graph hut) (hr : Names mug sar R) (hR : UpClosed (Par hut) R) (t : Nat)
    (y : Yaki (Map Nat)) (hy : hut.lookup t = some y) :
    ∃ s, Settles (fun n => packLoop mug hut sar n y) (some s) ∧ Names mug s (Outside (Par hut) R t) := by
  induction t using hg.acyclic.induction generalizing y with
  | _ t ih =>
    have hname : y.r = t := hg.named t y hy
    by_cases hRt : R t
    · refine ⟨.nil, .call (g := fun _ => some .nil) (fun n => ?_) (.const _),
        names_nil (not_outside hR hRt)⟩
      rw [packLoop, hname, if_pos ((hr.atom t).mpr hRt)]
    · have hhas : ¬In.has mug sar (.atom t) = true := fun h => hRt ((hr.atom t).mp h)
      have hpar : ∀ u, Par hut u t ↔ u ∈ y.p := by
        intro u
        exact ⟨fun ⟨z, hz, hu⟩ => by rwa [Option.some.inj (hy.symm.trans hz)], fun hu => ⟨y, hy, hu⟩⟩
      obtain ⟨s, hset, hs⟩ := Settles.foldlM (m := Option) (l := y.p) (s := .nil)
        (f := fun n bar yek => if In.has mug bar (.atom yek) then some bar
          else do
            let yak ← hut.lookup yek
            let u ← packLoop mug hut sar n yak
            return union mug bar u)
        (fun done bar => Names mug bar fun x => ∃ u ∈ done, Outside (Par hut) R u x)
        (names_nil fun x => by simp) fun done bar yek hyek hbar =>
          packLoop_round (hg.closed t y hy yek hyek) hbar fun y' hy' => ih yek ((hpar yek).mpr hyek) y' hy'
      have hber : Names mug (In.put mug .nil (.atom t)) fun x => x = t :=
        ((names_nil fun _ => not_false).put t).congr fun x => iff_of_eq (or_false _)
      refine ⟨union mug (In.put mug .nil (.atom t)) s, .call (fun n => ?_) (hset.bind
        (h := fun bar _ => some (union mug (In.put mug .nil (.atom t)) bar)) (.const _)),
        (hber.union hs).congr fun x => ?_⟩
      · rw [packLoop, hname, if_neg hhas]
        rfl
      · rw [outside_base hRt]
        simp only [hpar]

/-- What a commit reaches, if there is one. -/
def Reaches (hut : Finmap fun _ : Nat => Yaki (Map Nat)) (a : Option Nat) (x : Nat) : Prop :=
  ∃ t, a = some t ∧ Up (Par hut) t x

theorem reaches_closed (a : Option Nat) : UpClosed (Par hut) (Reaches hut a) := by
  rintro t u ⟨s, hs, ht⟩ hu
  exact ⟨s, hs, ht.trans (Up.parent hu)⟩

theorem packOld_settles (hg : Graph z.hut) {a : Option Nat}
    (ha : ∀ t, a = some t → ∃ y, z.hut.lookup t = some y) :
    ∃ s, Settles (fun n => packOld mug z n a) (some s) ∧ Names mug s (Reaches z.hut a) := by
  cases a with
  | none => exact ⟨.nil, .const _, names_nil fun x => by simp [Reaches]⟩
  | some t =>
    obtain ⟨y, hy⟩ := ha t rfl
    obtain ⟨s, hset, hs⟩ := @zule_settles mug _ z.hut hg t ⟨y, hy⟩
    refine ⟨s, ?_, hs.congr fun x => by simp [Reaches]⟩
    simpa only [packOld, hy, hg.named t y hy, Option.bind_eq_bind, Option.bind_some] using hset

end collect

/-! ### What is sent -/

/-- A store: an acyclic graph of commits, closed under parents, in which every lobe of every commit and
everything that it is a change of is there, and every version is a commit. -/
structure Stored (z : Desk) : Prop where
  graph : Graph z.hut
  supplied : Supplied z
  versions : ∀ n t, z.hit.lookup n = some t → ∃ y, z.hut.lookup t = some y

/-- What is sent for the way from version `a` to the commit `t`, which is version `b`. -/
structure Packs (z : Desk) (a b t : Nat) (nak : Nako) : Prop where
  top : nak.let = b
  ids : ∀ p, nak.gar.lookup p = if a < p ∧ p ≤ b then z.hit.lookup p else none
  commits : ∀ y, y ∈ nak.lar ↔ ∃ u, Outside (Par z.hut) (Reaches z.hut (z.hit.lookup a)) t u ∧
    z.hut.lookup u = some y
  blobs : ∀ c, c ∈ nak.bar ↔ ∃ x, (Need z (Outside (Par z.hut) (Reaches z.hut (z.hit.lookup a)) t) x ∧
    ¬Need z (Reaches z.hut (z.hit.lookup a)) x) ∧ z.lat.lookup x = some c

section send

variable {mug : Noun → Nat} {z : Desk}

/-- What the members of a set are the names of. -/
theorem mapM_lookup {β : Type} {m : Finmap fun _ : Nat => β} {P : Nat → Prop} {s : In.Tree}
    (hs : Names mug s P) (hP : ∀ t, P t → ∃ v, m.lookup t = some v) :
    ∃ l, ((In.tap s []).mapM fun x => hardAtom x >>= fun t => m.lookup t) = some l ∧
      ∀ v, v ∈ l ↔ ∃ t, P t ∧ m.lookup t = some v := by
  have hall : ∀ L : List Noun, (∀ x ∈ L, ∃ t, x = .atom t ∧ P t) →
      ∃ l, (L.mapM fun x => hardAtom x >>= fun t => m.lookup t) = some l ∧
        ∀ v, v ∈ l ↔ ∃ t, .atom t ∈ L ∧ m.lookup t = some v := by
    intro L
    induction L with
    | nil => exact fun _ => ⟨[], rfl, by simp⟩
    | cons x L ih =>
      intro hL
      obtain ⟨t, rfl, ht⟩ := hL x List.mem_cons_self
      obtain ⟨v, hv⟩ := hP t ht
      obtain ⟨l, hl, hmem⟩ := ih fun x hx => hL x (List.mem_cons_of_mem _ hx)
      refine ⟨v :: l, ?_, fun w => ?_⟩
      · rw [List.mapM_cons, hl]
        simp only [hardAtom, hv, Option.bind_eq_bind, Option.bind_some, Option.pure_def]
      · rw [List.mem_cons, hmem]
        constructor
        · rintro (rfl | ⟨u, hu, hw⟩)
          · exact ⟨t, List.mem_cons_self, hv⟩
          · exact ⟨u, List.mem_cons_of_mem _ hu, hw⟩
        · rintro ⟨u, hu, hw⟩
          rcases List.mem_cons.mp hu with he | hu
          · rw [Noun.atom.inj he, hv] at hw
            exact .inl (Option.some.inj hw).symm
          · exact .inr ⟨u, hu, hw⟩
  obtain ⟨l, hl, hmem⟩ := hall _ fun x hx => (hs.mem_tap x).mp hx
  refine ⟨l, hl, fun v => ?_⟩
  rw [hmem]
  refine exists_congr fun t => and_congr_left fun _ => ?_
  rw [hs.mem_tap]
  constructor
  · rintro ⟨u, hu, hP⟩
    rwa [Noun.atom.inj hu]
  · exact fun hP => ⟨t, rfl, hP⟩

theorem Grounded.lookup {lat : Lat} {k : Nat} (hk : Grounded lat k) : ∃ c, lat.lookup k = some c := by
  cases hk with
  | mk hb => exact ⟨_, hb⟩

theorem Grounded.up {lat : Lat} {k x : Nat} (hk : Grounded lat k) (hx : Up (Base lat) k x) :
    Grounded lat x := by
  induction hx with
  | refl => exact hk
  | tail _ hbase ih =>
    obtain ⟨b, hb, hu⟩ := hbase
    cases ih with
    | mk hb' hg =>
      obtain rfl := Option.some.inj (hb.symm.trans hb')
      exact hg _ hu

theorem need_closed (A : Nat → Prop) : UpClosed (Base z.lat) (Need z A) := by
  rintro x u ⟨t, y, k, ht, hy, hk, hx⟩ hu
  exact ⟨t, y, k, ht, hy, hk, hx.trans (Up.parent hu)⟩

/-- What a commit needs is there. -/
theorem Need.lookup (hz : Stored z) {A : Nat → Prop} {x : Nat} (hx : Need z A x) :
    ∃ c, z.lat.lookup x = some c := by
  obtain ⟨t, y, k, -, hy, hk, hx⟩ := hx
  exact ((hz.supplied t y hy k hk).up hx).lookup

/-- `gack` returns, and this is what it sends. -/
theorem gack_settles (mug : Noun → Nat) (hz : Stored z) (a : Nat) {b t : Nat}
    (hb : z.hit.lookup b = some t) :
    ∃ nak, Settles (fun n => gack mug z n a b) (some nak) ∧ Packs z a b t nak := by
  obtain ⟨y, hy⟩ := hz.versions b t hb
  have hup : ∀ u, Up (Par z.hut) t u → ∃ y, z.hut.lookup u = some y := fun u hu =>
    hz.graph.up hu ⟨y, hy⟩
  have hold : ∀ u, Reaches z.hut (z.hit.lookup a) u → ∃ y, z.hut.lookup u = some y := by
    rintro u ⟨s, hs, hu⟩
    exact hz.graph.up hu (hz.versions a s hs)
  obtain ⟨sar, hsar, hsarN⟩ := @packOld_settles mug z hz.graph _ fun s hs => hz.versions a s hs
  have hclosed : UpClosed (Par z.hut) (Reaches z.hut (z.hit.lookup a)) := reaches_closed _
  obtain ⟨lob, hlob, hlobN⟩ := garg_settles hz.supplied (names_nil fun _ => not_false)
    (fun _ _ h => h.elim) hsarN hold
  have hlobN := hlobN.congr (Q := Need z (Reaches z.hut (z.hit.lookup a))) fun x => by simp
  obtain ⟨new, hnew, hnewN⟩ := packLoop_settles hz.graph hsarN hclosed t y hy
  obtain ⟨far, hfar, hfarN⟩ := garg_settles hz.supplied hlobN (need_closed _) hnewN fun u hu => hup u hu.1
  obtain ⟨lar, hlar, hlarM⟩ := mapM_lookup (m := z.hut) hnewN fun u hu => hup u hu.1
  obtain ⟨bar, hbar, hbarM⟩ := mapM_lookup (m := z.lat) hfarN fun x hx => hx.1.lookup hz
  have hpack : Settles (fun n => pack mug z n (z.hit.lookup a) t) (some (new, far)) := by
    refine hsar.bind ?_
    simp only [hy, Option.bind_eq_bind, Option.bind_some]
    exact hlob.bind (hnew.bind (hfar.bind (.const _)))
  have hhack : hack z new far = some (lar, bar) := by
    unfold hack
    rw [hlar, hbar]
    rfl
  refine ⟨⟨skim (fun p => a < p ∧ p ≤ b) z.hit, b, lar, bar⟩, ?_, rfl, fun p => ?_,
    fun y => ?_, fun c => ?_⟩
  · simp only [gack, hb, Option.bind_eq_bind, Option.bind_some]
    refine hpack.bind ?_
    simp only [hhack, Option.bind_some]
    exact .const _
  · rw [lookup_skim]
    simp
  · exact hlarM y
  · exact hbarM c

/-! ### What the receiver has -/

/-- The receiver has what version `a` reaches and needs, and puts there what it is sent. -/
structure Receives (z : Desk) (a : Nat) (nak : Nako) (hut : Finmap fun _ : Nat => Yaki (Map Nat))
    (lat : Lat) : Prop where
  oldCommits : ∀ t y, Reaches z.hut (z.hit.lookup a) t → z.hut.lookup t = some y → hut.lookup t = some y
  oldBlobs : ∀ x c, Need z (Reaches z.hut (z.hit.lookup a)) x → z.lat.lookup x = some c →
    lat.lookup x = some c
  newCommits : ∀ t y, z.hut.lookup t = some y → y ∈ nak.lar → hut.lookup t = some y
  newBlobs : ∀ x c, z.lat.lookup x = some c → c ∈ nak.bar → lat.lookup x = some c

/-- The receiver makes of a version the tree that the sender makes of it. -/
def ChecksOut (z : Desk) (hut : Finmap fun _ : Nat => Yaki (Map Nat)) (lat : Lat) (p : Nat) : Prop :=
  ∀ t y, z.hit.lookup p = some t → z.hut.lookup t = some y → hut.lookup t = some y ∧
    ∀ h ank, Settles (fun n => azel h z.lat n y.q) (some ank) →
      Settles (fun n => azel h lat n y.q) (some ank)

variable {a b t : Nat} {nak : Nako}

/-- A commit that the later version reaches is sent or was there. -/
theorem Packs.commit (hp : Packs z a b t nak) {u : Nat} {y : Yaki (Map Nat)} (hu : Up (Par z.hut) t u)
    (hy : z.hut.lookup u = some y) : y ∈ nak.lar ∨ Reaches z.hut (z.hit.lookup a) u := by
  by_cases hold : Reaches z.hut (z.hit.lookup a) u
  · exact .inr hold
  · exact .inl ((hp.commits y).mpr ⟨u, ⟨hu, hold⟩, hy⟩)

/-- A blob that they need is sent or was there. -/
theorem Packs.blob (hp : Packs z a b t nak) {x : Nat} {c : Blob} (hx : Need z (Up (Par z.hut) t) x)
    (hc : z.lat.lookup x = some c) : c ∈ nak.bar ∨ Need z (Reaches z.hut (z.hit.lookup a)) x := by
  by_cases hold : Need z (Reaches z.hut (z.hit.lookup a)) x
  · exact .inr hold
  · refine .inl ((hp.blobs c).mpr ⟨x, ⟨?_, hold⟩, hc⟩)
    obtain ⟨u, y, k, hu, hy, hk, hx⟩ := hx
    refine ⟨u, y, k, ⟨hu, fun hr => hold ?_⟩, hy, hk, hx⟩
    exact ⟨u, y, k, hr, hy, hk, hx⟩

/-- A blob with all that it is a change of yields the same elsewhere. -/
theorem Yields.carry {lat lut : Lat} {c : Blob} {v : Noun} (hv : Yields lat c v)
    (hsame : ∀ u, c.base = some u → ∀ x, Up (Base lat) u x → ∀ c, lat.lookup x = some c →
      lut.lookup x = some c) : Yields lut c v := by
  induction hv with
  | direct p q r => exact .direct p q r
  | indirect p q r s => exact .indirect p q r s
  | @delta p q r b u v hb _ hl ih =>
    refine .delta p (hsame q rfl q (Up.refl q) b hb) (ih fun w hw x hx => ?_) hl
    exact hsame q rfl x ((Up.parent ⟨b, hb, hw⟩).trans hx)

theorem Named.carry {lat lut : Lat} {k : Nat} {v : Noun} (hv : Named lat k v)
    (hsame : ∀ x, Up (Base lat) k x → ∀ c, lat.lookup x = some c → lut.lookup x = some c) :
    Named lut k v := by
  obtain ⟨c, hc, hy⟩ := hv
  refine ⟨c, hsame k (Up.refl k) c hc, hy.carry fun u hu x hx => hsame x ?_⟩
  exact (Up.parent ⟨c, hc, hu⟩).trans hx

/-- `azel` goes by what the lobes stand for. -/
theorem azel_carry {h : Hash} {lat lut : Lat} {q : Map Nat} {ank : Ankh}
    (hsame : ∀ i ∈ Treap.tap q [], ∀ v, Named lat i.2 v → Named lut i.2 v)
    (ha : Settles (fun n => azel h lat n q) (some ank)) : Settles (fun n => azel h lut n q) (some ank) := by
  have hloop : ∀ (l : List (Noun × Nat)) (start done : Ankh) (n : Nat),
      (∀ i ∈ l, ∀ v, Named lat i.2 v → Named lut i.2 v) →
      l.foldlM (fun ank i => do
        let zar ← zaul lat n i.2
        return azelIn h (pathOf i.1) zar ank) start = some done →
      Settles (fun n => l.foldlM (fun ank i => do
        let zar ← zaul lut n i.2
        return azelIn h (pathOf i.1) zar ank) start) (some done) := by
    intro l
    induction l with
    | nil =>
      intro start done n _ hl
      exact ⟨0, fun _ _ => hl⟩
    | cons i l ih =>
      intro start done n hmem hl
      simp only [List.foldlM_cons, Option.bind_eq_bind, Option.bind_eq_some_iff] at hl
      obtain ⟨next, ⟨v, hv, hnext⟩, hl⟩ := hl
      have hlut := hmem i List.mem_cons_self v (named_of_zaul hv)
      have hone : Settles (fun n => do
          let zar ← zaul lut n i.2
          return azelIn h (pathOf i.1) zar start) (some next) := by
        refine hlut.settles.bind ?_
        rw [← hnext]
        exact .const _
      simp only [List.foldlM_cons]
      exact hone.bind (ih next done n (fun j hj => hmem j (List.mem_cons_of_mem _ hj)) hl)
  obtain ⟨N, hN⟩ := ha
  have hN := hN N le_rfl
  simp only [azel, Option.bind_eq_bind, Option.bind_eq_some_iff] at hN
  obtain ⟨done, hdone, hank⟩ := hN
  refine (hloop _ _ done N hsame hdone).bind ?_
  rw [← hank]
  exact .const _

/-- Whatever the later version reaches can be checked out. -/
theorem Packs.checksOut (hp : Packs z a b t nak) {hut : Finmap fun _ : Nat => Yaki (Map Nat)} {lat : Lat}
    (hr : Receives z a nak hut lat) {p u : Nat} (hu : z.hit.lookup p = some u) (hup : Up (Par z.hut) t u) :
    ChecksOut z hut lat p := by
  intro u' y hu' hy
  obtain rfl := Option.some.inj (hu.symm.trans hu')
  refine ⟨?_, fun h ank => azel_carry fun i hi v hv => hv.carry fun x hx c hc => ?_⟩
  · rcases hp.commit hup hy with hnew | hold
    · exact hr.newCommits u y hy hnew
    · exact hr.oldCommits u y hold hy
  · have hneed : Need z (Up (Par z.hut) t) x := ⟨u, y, i.2, hup, hy, ⟨i, hi, rfl⟩, hx⟩
    rcases hp.blob hneed hc with hnew | hold
    · exact hr.newBlobs x c hc hnew
    · exact hr.oldBlobs x c hold hc

/-- `gack` leaves nothing out: every commit that version `b` reaches, and every blob that one of them
names or that such a blob is a change of, is sent, or belongs to version `a`. A receiver that has
version `a` can then check out every version up to `b` that version `b` reaches. -/
theorem gack_closed (mug : Noun → Nat) (hz : Stored z) (a : Nat) (hb : z.hit.lookup b = some t) :
    ∃ nak, Settles (fun n => gack mug z n a b) (some nak) ∧
      (∀ u, Up (Par z.hut) t u →
        ∃ y, z.hut.lookup u = some y ∧ (y ∈ nak.lar ∨ Reaches z.hut (z.hit.lookup a) u)) ∧
      (∀ x, Need z (Up (Par z.hut) t) x →
        ∃ c, z.lat.lookup x = some c ∧ (c ∈ nak.bar ∨ Need z (Reaches z.hut (z.hit.lookup a)) x)) ∧
      ∀ hut lat, Receives z a nak hut lat →
        ∀ p u, p ≤ b → z.hit.lookup p = some u → Up (Par z.hut) t u → ChecksOut z hut lat p := by
  obtain ⟨nak, hset, hp⟩ := gack_settles mug hz a hb
  refine ⟨nak, hset, fun u hu => ?_, fun x hx => ?_, fun hut lat hr p u _ hu hup => hp.checksOut hr hu hup⟩
  · obtain ⟨y, hy⟩ := hz.graph.up hu (hz.versions b t hb)
    exact ⟨y, hy, hp.commit hu hy⟩
  · obtain ⟨c, hc⟩ := hx.lookup hz
    exact ⟨c, hc, hp.blob hx hc⟩

end send

/-! ### Versions that follow one another -/

/-- A text, a change of it, a change of that, and another text. -/
def chainLat : Lat :=
  (((∅ : Lat).insert 10 (.direct 10 (.atom 0) .c)).insert 11
    (.delta 11 10 (.mk .c (.c [.edit [] [.atom 97]])))).insert 12 (.direct 12 (.atom 98) .c)
    |>.insert 13 (.delta 13 11 (.mk .c (.c [.edit [] [.atom 98], .skip 1])))

/-- The file `/a` alone, and it with the file `/b`. -/
def chainYaki (t : Nat) : Yaki (Map Nat) :=
  if t = 1 then ⟨[], .node (pathNoun [97]) 10 .nil .nil, 1, 0⟩
  else ⟨[t - 1], .node (pathNoun [97]) (if t = 2 then 11 else 13) .nil
    (.node (pathNoun [98]) 12 .nil .nil), t, 0⟩

/-- Three versions, each made from the one before. The file `/a` is changed in each, and the
second adds the file `/b`. -/
def chain : Desk :=
  { Desk.empty with
    «let» := 3
    hit := ((∅ : Finmap fun _ : Nat => Nat).insert 1 1).insert 2 2 |>.insert 3 3
    hut := ((∅ : Finmap fun _ : Nat => Yaki (Map Nat)).insert 1 (chainYaki 1)).insert 2 (chainYaki 2)
      |>.insert 3 (chainYaki 3)
    lat := chainLat }

theorem chain_hut {t : Nat} {y : Yaki (Map Nat)} :
    chain.hut.lookup t = some y ↔ (t = 1 ∨ t = 2 ∨ t = 3) ∧ y = chainYaki t := by
  by_cases h3 : t = 3
  · subst h3
    simp [chain, eq_comm]
  · by_cases h2 : t = 2
    · subst h2
      simp [chain, Finmap.lookup_insert_of_ne, eq_comm]
    · by_cases h1 : t = 1
      · subst h1
        simp [chain, Finmap.lookup_insert_of_ne, eq_comm]
      · simp [chain, Finmap.lookup_insert_of_ne, h1, h2, h3]

theorem chain_hit {n t : Nat} (h : chain.hit.lookup n = some t) :
    (n = 1 ∨ n = 2 ∨ n = 3) ∧ t = n := by
  by_cases h3 : n = 3
  · subst h3
    simpa [chain, eq_comm] using h
  · by_cases h2 : n = 2
    · subst h2
      simpa [chain, Finmap.lookup_insert_of_ne, eq_comm] using h
    · by_cases h1 : n = 1
      · subst h1
        simpa [chain, Finmap.lookup_insert_of_ne, eq_comm] using h
      · simp [chain, Finmap.lookup_insert_of_ne, h1, h2, h3] at h

/-- The blobs, and what they are changes of. -/
theorem chain_lat {k : Nat} :
    (∃ b, chain.lat.lookup k = some b ∧
      b.base = if k = 11 then some 10 else if k = 13 then some 11 else none) ↔
      k = 10 ∨ k = 11 ∨ k = 12 ∨ k = 13 := by
  by_cases h13 : k = 13
  · subst h13
    simp [chain, chainLat, Blob.base]
  · by_cases h12 : k = 12
    · subst h12
      simp [chain, chainLat, Blob.base, Finmap.lookup_insert_of_ne]
    · by_cases h11 : k = 11
      · subst h11
        simp [chain, chainLat, Blob.base, Finmap.lookup_insert_of_ne]
      · by_cases h10 : k = 10
        · subst h10
          simp [chain, chainLat, Blob.base, Finmap.lookup_insert_of_ne]
        · simp [chain, chainLat, Finmap.lookup_insert_of_ne, h10, h11, h12, h13]

theorem chain_par {u t : Nat} : Par chain.hut u t ↔ (t = 2 ∨ t = 3) ∧ u = t - 1 := by
  constructor
  · rintro ⟨y, hy, hu⟩
    obtain ⟨rfl | rfl | rfl, rfl⟩ := chain_hut.mp hy
    · exact absurd hu List.not_mem_nil
    · exact ⟨.inl rfl, by simpa [chainYaki] using hu⟩
    · exact ⟨.inr rfl, by simpa [chainYaki] using hu⟩
  · rintro ⟨rfl | rfl, rfl⟩
    · exact ⟨_, chain_hut.mpr ⟨.inr (.inl rfl), rfl⟩, by simp [chainYaki]⟩
    · exact ⟨_, chain_hut.mpr ⟨.inr (.inr rfl), rfl⟩, by simp [chainYaki]⟩

theorem chain_lobe {t k : Nat} (hk : Lobe (chainYaki t) k) :
    if t = 1 then k = 10 else k = (if t = 2 then 11 else 13) ∨ k = 12 := by
  obtain ⟨i, hi, rfl⟩ := hk
  by_cases h1 : t = 1
  · rw [chainYaki, if_pos h1] at hi
    rw [if_pos h1]
    simp [Treap.tap] at hi
    simp [hi]
  · rw [chainYaki, if_neg h1] at hi
    rw [if_neg h1]
    simp [Treap.tap] at hi
    rcases hi with rfl | rfl <;> simp

theorem chain_base {u k : Nat} (hu : Base chain.lat u k) : k = 11 ∧ u = 10 ∨ k = 13 ∧ u = 11 := by
  obtain ⟨b, hb, hbase⟩ := hu
  have hk : k = 10 ∨ k = 11 ∨ k = 12 ∨ k = 13 := by
    by_contra hno
    push Not at hno
    simp [chain, chainLat, Finmap.lookup_insert_of_ne, hno] at hb
  obtain ⟨b', hb', hbase'⟩ := chain_lat.mpr hk
  obtain rfl := Option.some.inj (hb.symm.trans hb')
  rw [hbase'] at hbase
  rcases hk with rfl | rfl | rfl | rfl <;> simp at hbase <;> simp [hbase]

theorem chain_grounded {k : Nat} (hk : k = 10 ∨ k = 11 ∨ k = 12 ∨ k = 13) : Grounded chain.lat k := by
  have hmk : ∀ {k : Nat}, (k = 10 ∨ k = 11 ∨ k = 12 ∨ k = 13) →
      (∀ u, Base chain.lat u k → Grounded chain.lat u) → Grounded chain.lat k := by
    intro k hk hb
    obtain ⟨b, hl, -⟩ := chain_lat.mpr hk
    exact .mk hl fun u hu => hb u ⟨b, hl, hu⟩
  have h10 : Grounded chain.lat 10 := hmk (.inl rfl) fun u hu => by have := chain_base hu; omega
  have h11 : Grounded chain.lat 11 := hmk (.inr (.inl rfl)) fun u hu => by
    obtain rfl : u = 10 := by have := chain_base hu; omega
    exact h10
  rcases hk with rfl | rfl | rfl | rfl
  · exact h10
  · exact h11
  · exact hmk (.inr (.inr (.inl rfl))) fun u hu => by have := chain_base hu; omega
  · refine hmk (.inr (.inr (.inr rfl))) fun u hu => ?_
    obtain rfl : u = 11 := by have := chain_base hu; omega
    exact h11

theorem chain_stored : Stored chain := by
  refine ⟨graph_of_lt (fun t y h => ?_) (fun t y h u hu => ?_), fun t y h k hk => ?_, fun n t h => ?_⟩
  · obtain ⟨rfl | rfl | rfl, rfl⟩ := chain_hut.mp h <;> rfl
  · obtain ⟨ht, rfl⟩ := chain_par.mp ⟨y, h, hu⟩
    exact ⟨by omega, _, chain_hut.mpr ⟨by omega, rfl⟩⟩
  · obtain ⟨ht, rfl⟩ := chain_hut.mp h
    have hlobe := chain_lobe hk
    refine chain_grounded ?_
    split_ifs at hlobe <;> omega
  · obtain ⟨hn, rfl⟩ := chain_hit h
    exact ⟨_, chain_hut.mpr ⟨hn, rfl⟩⟩

/-- The first version is one commit with one file. -/
theorem chain_first {u : Nat} (hu : Reaches chain.hut (chain.hit.lookup 1) u) : u = 1 := by
  obtain ⟨t, ht, hup⟩ := hu
  obtain ⟨-, rfl⟩ := chain_hit ht
  rcases up_iff.mp hup with rfl | ⟨s, hs, -⟩
  · rfl
  · have := (chain_par.mp hs).1
    omega

theorem chain_need {x : Nat} (hx : Need chain (Reaches chain.hut (chain.hit.lookup 1)) x) :
    x = 10 := by
  obtain ⟨t, y, k, ht, hy, hk, hup⟩ := hx
  obtain rfl := chain_first ht
  obtain ⟨-, rfl⟩ := chain_hut.mp hy
  obtain rfl : k = 10 := by simpa using chain_lobe hk
  rcases up_iff.mp hup with rfl | ⟨s, hs, -⟩
  · rfl
  · have := chain_base hs
    omega

/-- From the first version to the third the other two commits are sent, the blob that they share
and the chain of changes down to the blob of the first version, which is not sent; and who has
the first version can then check out the others. -/
theorem gack_closed_chain :
    ∃ nak, Settles (fun n => gack Hoon.mug chain n 1 3) (some nak) ∧
      chainYaki 2 ∈ nak.lar ∧ chainYaki 3 ∈ nak.lar ∧
      (∀ x c, x = 11 ∨ x = 12 ∨ x = 13 → chain.lat.lookup x = some c → c ∈ nak.bar) ∧
      ∀ hut lat, Receives chain 1 nak hut lat →
        ChecksOut chain hut lat 1 ∧ ChecksOut chain hut lat 2 ∧ ChecksOut chain hut lat 3 := by
  have h3 : chain.hit.lookup 3 = some 3 := rfl
  obtain ⟨nak, hset, hcommits, hblobs, hout⟩ := gack_closed Hoon.mug chain_stored 1 h3
  have up2 : Up (Par chain.hut) 3 2 := Up.parent (chain_par.mpr ⟨.inr rfl, rfl⟩)
  have up1 : Up (Par chain.hut) 3 1 := up2.trans (Up.parent (chain_par.mpr ⟨.inl rfl, rfl⟩))
  have hsent : ∀ u, u = 2 ∨ u = 3 → Up (Par chain.hut) 3 u → chainYaki u ∈ nak.lar := by
    intro u hu hup
    obtain ⟨y, hy, hin⟩ := hcommits u hup
    obtain ⟨-, rfl⟩ := chain_hut.mp hy
    exact hin.resolve_right fun h => by have := chain_first h; omega
  have hneed : ∀ x, x = 11 ∨ x = 12 ∨ x = 13 → Need chain (Up (Par chain.hut) 3) x := by
    have hlobe : Lobe (chainYaki 3) 13 ∧ Lobe (chainYaki 3) 12 :=
      ⟨⟨(pathNoun [97], 13), by simp [chainYaki, Treap.tap], rfl⟩,
        ⟨(pathNoun [98], 12), by simp [chainYaki, Treap.tap], rfl⟩⟩
    have hy : chain.hut.lookup 3 = some (chainYaki 3) := rfl
    have hbase : Base chain.lat 11 13 := ⟨_, rfl, rfl⟩
    rintro x (rfl | rfl | rfl)
    · exact ⟨3, _, 13, Up.refl _, hy, hlobe.1, Up.parent hbase⟩
    · exact ⟨3, _, 12, Up.refl _, hy, hlobe.2, Up.refl _⟩
    · exact ⟨3, _, 13, Up.refl _, hy, hlobe.1, Up.refl _⟩
  refine ⟨nak, hset, hsent 2 (.inl rfl) up2, hsent 3 (.inr rfl) (Up.refl _), fun x c hx hc => ?_,
    fun hut lat hr => ⟨hout hut lat hr 1 1 (by decide) rfl up1, hout hut lat hr 2 2 (by decide) rfl up2,
      hout hut lat hr 3 3 (by decide) rfl (Up.refl _)⟩⟩
  obtain ⟨c', hc', hin⟩ := hblobs x (hneed x hx)
  obtain rfl := Option.some.inj (hc.symm.trans hc')
  exact hin.resolve_right fun h => by have := chain_need h; omega

/-! ### Versions that do not descend from one another -/

/-- A commit without parents and files. -/
def lone (t : Nat) : Yaki (Map Nat) := ⟨[], .nil, t, 0⟩

/-- Three versions, none of which comes from another. -/
def lones : Desk :=
  { Desk.empty with
    «let» := 3
    hit := ((∅ : Finmap fun _ : Nat => Nat).insert 1 1).insert 2 2 |>.insert 3 3
    hut := ((∅ : Finmap fun _ : Nat => Yaki (Map Nat)).insert 1 (lone 1)).insert 2 (lone 2) |>.insert 3
      (lone 3) }

theorem lones_lookup {t : Nat} {y : Yaki (Map Nat)} (h : lones.hut.lookup t = some y) :
    (t = 1 ∨ t = 2 ∨ t = 3) ∧ y = lone t := by
  by_cases h3 : t = 3
  · subst h3
    simpa [lones, eq_comm] using h
  · by_cases h2 : t = 2
    · subst h2
      simpa [lones, Finmap.lookup_insert_of_ne, eq_comm] using h
    · by_cases h1 : t = 1
      · subst h1
        simpa [lones, Finmap.lookup_insert_of_ne, eq_comm] using h
      · simp [lones, Finmap.lookup_insert_of_ne, h1, h2, h3] at h

theorem lones_up {t u : Nat} (h : Up (Par lones.hut) t u) : t = u := by
  rcases up_iff.mp h with rfl | ⟨s, ⟨y, hy, hs⟩, -⟩
  · rfl
  · obtain ⟨-, rfl⟩ := lones_lookup hy
    exact absurd hs List.not_mem_nil

theorem lones_hit {n t : Nat} (h : lones.hit.lookup n = some t) :
    t = n ∧ ∃ y, lones.hut.lookup t = some y := by
  by_cases h3 : n = 3
  · subst h3
    obtain rfl : 3 = t := Option.some.inj h
    exact ⟨rfl, lone 3, rfl⟩
  · by_cases h2 : n = 2
    · subst h2
      obtain rfl : 2 = t := Option.some.inj h
      exact ⟨rfl, lone 2, rfl⟩
    · by_cases h1 : n = 1
      · subst h1
        obtain rfl : 1 = t := Option.some.inj h
        exact ⟨rfl, lone 1, rfl⟩
      · simp [lones, Finmap.lookup_insert_of_ne, h1, h2, h3] at h

theorem lones_stored : Stored lones := by
  refine ⟨graph_of_lt (fun t y h => ?_) (fun t y h u hu => ?_), fun t y h k hk => ?_,
    fun n t h => (lones_hit h).2⟩
  · obtain ⟨-, rfl⟩ := lones_lookup h
    rfl
  · obtain ⟨-, rfl⟩ := lones_lookup h
    exact absurd hu List.not_mem_nil
  · obtain ⟨-, rfl⟩ := lones_lookup h
    obtain ⟨i, hi, -⟩ := hk
    exact absurd hi List.not_mem_nil

/-- What is sent from the first version to the third has the name of the second, and not its
commit. -/
theorem gack_misses :
    ¬∀ (z : Desk) (a b t : Nat) (nak : Nako), Stored z → a < b → z.hit.lookup b = some t →
      Settles (fun n => gack Hoon.mug z n a b) (some nak) →
      ∀ hut lat, Receives z a nak hut lat → ∀ p ≤ b, ChecksOut z hut lat p := by
  intro h
  obtain ⟨nak, hset, hp⟩ := gack_settles Hoon.mug lones_stored 1 (rfl : lones.hit.lookup 3 = some 3)
  have hr : Receives lones 1 nak (lones.hut.erase 2) lones.lat := by
    refine ⟨fun t y ht hy => ?_, fun x c _ hc => hc, fun t y hy hl => ?_, fun x c hc _ => hc⟩
    · obtain ⟨s, hs, hup⟩ := ht
      obtain rfl := lones_up hup
      rw [Finmap.lookup_erase_ne (by rw [(lones_hit hs).1]; decide)]
      exact hy
    · obtain ⟨u, ⟨hup, -⟩, hu⟩ := (hp.commits y).mp hl
      obtain rfl := lones_up hup
      obtain ⟨-, hy3⟩ := lones_lookup hu
      obtain ⟨-, hyt⟩ := lones_lookup hy
      have ht : (3 : Nat) = t := congrArg Yaki.r (hy3.symm.trans hyt)
      rw [Finmap.lookup_erase_ne (by omega)]
      exact hy
  have hout := h lones 1 3 3 nak lones_stored (by decide) rfl hset _ _ hr 2 (by decide) 2 (lone 2) rfl rfl
  rw [Finmap.lookup_erase] at hout
  cases hout.1

end Vere.Clay
