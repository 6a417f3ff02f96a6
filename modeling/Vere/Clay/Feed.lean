import Vere.Clay.Commit

/-!
# Vere.Clay.Feed

A desk that is followed from another ship: `eave` and `wake` of `++de` where the desk is, and
`knit` with `edis` where the follower is.

A response carries a label, and the follower applies it when the label is its own version. The
first response is labelled with the version it starts from (`eaveRange`). Those after it are
labelled with the version they lead to, and start from there too (`wakeRange`): by then the
follower is one version behind, so it keeps every one of them in its cache and applies none
(`feed_delivered_iff`).
-/

namespace Vere.Clay

open Vere.Lib Vere.Hoon

/-! ### The arms of the publisher -/

/-- `++case`: ship desk case spur. -/
inductive Case
  /-- Date. -/
  | da (p : Nat)
  /-- Label. -/
  | tas (p : Nat)
  /-- Number. -/
  | ud (p : Nat)
  deriving DecidableEq

/-- `++care`: clay submode. -/
inductive Care
  | u
  | v
  | w
  | x
  | y
  | z
  deriving DecidableEq

/-- `++mood`: request in desk. -/
structure Mood where
  p : Care
  q : Case
  r : Path
  deriving DecidableEq

/-- `++moat`: change range. -/
structure Moat where
  p : Case
  q : Case

/-- `++rave`: general request. -/
inductive Rave
  /-- Single request. -/
  | one (p : Mood)
  | range (p : Moat)

/-- The data of a `++rant`. -/
inductive Dat
  | nako (p : Nako)
  | noun (p : Noun)

/-- `++riot`: response or complete. The mood is the case, the care and the spur of the `++rant`. -/
abbrev Riot := Option (Mood × Dat)

section publisher

variable (mug : Noun → Nat)

/-- The loop of `aeon` for a date. -/
def aeonDate (z : Desk) (p : Nat) : Nat → Option (Option Nat)
  -- avoid underflow
  | 0 => some (some 0)
  | n + 1 => do
    let y ← z.yak (n + 1)
    if y.t ≤ p then some (some (n + 1)) else aeonDate z p n

/-- `aeon`: act count through. -/
def aeon (lim : Nat) (z : Desk) : Case → Option (Option Nat)
  | .da p => if lim < p then some none else aeonDate z p z.let
  | .tas p => some (z.lab.lookup p)
  | .ud p => some (if z.let < p then none else some p)

/-- The label of a sequence. -/
def Mood.label (ins : Nat) : Mood := ⟨.w, .ud ins, []⟩

@[simp] theorem Mood.label_inj {v w : Nat} : Mood.label v = Mood.label w ↔ v = w := by
  simp [Mood.label]

/-- `bleb`: ship sequence. -/
def bleb (ins : Nat) (hip : Nako) : Riot := some (.label ins, .nako hip)

/-- `blub`: ship stop. -/
def blub : Riot := none

/-- `eave`, for a range: what is left of the subscription, and the responses. -/
def eaveRange (n lim : Nat) (z : Desk) (mot : Moat) : Option (Option Moat × List Riot) := do
  let nab ← aeon lim z mot.p
  let huy ← aeon lim z mot.q
  match nab with
  | none => if huy.isNone then some (some mot, []) else none
  | some nab =>
    match huy with
    | some huy =>
      if huy < nab ∨ huy = 0 ∧ nab = 0 then some (none, [blub])
      else do
        let fud ← gack mug z n nab z.let
        return (none, [bleb nab fud, blub])
    | none => do
      let fud ← gack mug z n nab z.let
      return (some ⟨.ud (z.let + 1), mot.q⟩, [bleb nab fud])

/-- `wake`, for one subscription to a range. -/
def wakeRange (n lim : Nat) (z : Desk) (mot : Moat) : Option (Option Moat × List Riot) := do
  match ← aeon lim z mot.p with
  | none => some (some mot, [])
  | some nab =>
    match ← aeon lim z mot.q with
    | none => do
      let fud ← gack mug z n nab z.let
      return (some ⟨.ud (z.let + 1), mot.q⟩, [bleb z.let fud])
    | some huy => do
      let fud ← gack mug z n nab huy
      return (none, [bleb (nab + 1) fud, blub])

end publisher

/-! ### The arms of the follower -/

/-- `haw`: simple cache. -/
abbrev Haw := Finmap fun _ : Mood => Option Dat

/-- What is used of `++rind`: request manager. -/
structure Rind where
  /-- Outstanding. -/
  bom : Finmap fun _ : Nat => Nat × Rave
  /-- Current requests. -/
  fod : Finmap fun _ : Nat => Nat
  haw : Haw

/-- What is used of `++rede`, with the commits and blobs of the ship. -/
structure Rede where
  /-- Complete to. -/
  lim : Nat
  /-- Outgoing requests. -/
  ref : Option Rind
  /-- Revision state. -/
  dom : Desk

/-- `edis`: apply subscription. -/
def edis (nak : Nako) (dom : Desk) : Desk :=
  { dom with
    hit := nak.gar ∪ dom.hit
    «let» := nak.let
    lat := nak.bar.foldl (fun yeb sar => yeb.insert (zaax sar) sar) dom.lat
    hut := nak.lar.foldl (fun yeb sar => yeb.insert sar.r sar) dom.hut }

/-- The loop of `knit`. -/
def knitLoop (haw : Haw) (dom : Desk) : Option (Haw × Desk) :=
  match _hnex : haw.lookup (.label dom.let) with
  | none => some (haw, dom)
  -- should never happen
  | some none => some (haw, dom)
  | some (some (.noun _)) => none
  | some (some (.nako nak)) => knitLoop (haw.erase (.label dom.let)) (edis nak dom)
termination_by haw.keys.card
decreasing_by
  rw [Finmap.keys_erase]
  exact Finset.card_erase_lt_of_mem (Finmap.mem_keys.mpr (Finmap.lookup_isSome.mp (by rw [_hnex]; rfl)))

/-- `knit`: external change. -/
def knit (inx : Nat) (rot : Riot) (red : Rede) : Option Rede := do
  let ref ← red.ref
  match ref.bom.lookup inx with
  | none => some red
  | some (hen, rav) =>
    let done : Rind := { ref with bom := ref.bom.erase inx, fod := ref.fod.erase hen }
    match rot, rav with
    | none, .one mun => some { red with ref := some { done with haw := ref.haw.insert mun none } }
    | none, .range ⟨_, .da p⟩ => some { red with lim := p, ref := some done }
    | none, .range _ => some { red with ref := some done }
    | some (mun, dat), rav =>
      let ref := match rav with
        | .one _ => done
        | .range _ => ref
      if mun.p = .v then none
      else
        let haw := ref.haw.insert mun (some dat)
        if mun.p = .w then do
          let s ← knitLoop haw red.dom
          return { red with ref := some { ref with haw := s.1 }, dom := s.2 }
        else some { red with ref := some { ref with haw := haw } }

/-- The responses are delivered in order. -/
def knits (inx : Nat) (rs : List Riot) (red : Rede) : Option Rede :=
  rs.foldlM (fun red rot => knit inx rot red) red

theorem knits_append (inx : Nat) (rs rs' : List Riot) (red : Rede) :
    knits inx (rs ++ rs') red = (knits inx rs red).bind (knits inx rs') := by
  rw [knits, List.foldlM_append]
  rfl

/-! ### What the two have in common -/

section agree

variable {z z' dom : Desk} {n m t : Nat} {nak : Nako}

/-- One of the versions up to `m` reaches the commit. -/
def Past (z : Desk) (m u : Nat) : Prop :=
  ∃ p t, p ≤ m ∧ z.hit.lookup p = some t ∧ Up (Par z.hut) t u

/-- The versions up to `m` are there, with every commit that they reach and every blob that one of
these needs. -/
structure Agrees (z dom : Desk) (m : Nat) : Prop where
  ids : ∀ p, p ≤ m → dom.hit.lookup p = z.hit.lookup p
  commits : ∀ u y, Past z m u → z.hut.lookup u = some y → dom.hut.lookup u = some y
  blobs : ∀ x c, Need z (Past z m) x → z.lat.lookup x = some c → dom.lat.lookup x = some c

theorem Past.lookup (hz : Desked z) {u : Nat} (hu : Past z m u) : ∃ y, z.hut.lookup u = some y := by
  obtain ⟨p, t, -, ht, hup⟩ := hu
  exact hz.graph.up hup (hz.versions p t ht)

/-- The last of the versions reaches what any of them does. -/
theorem Past.up (hz : Desked z) (hm : m ≤ z.let) (ht : z.hit.lookup m = some t) {u : Nat}
    (hu : Past z m u) : Up (Par z.hut) t u := by
  obtain ⟨p, s, hp, hs, hup⟩ := hu
  exact (hz.up hp hm hs ht).trans hup

/-- Later the same versions reach and need the same. -/
theorem Agrees.grown (hz : Desked z) (hg : Grown z z') (hm : m ≤ z.let) (ha : Agrees z dom m) :
    Agrees z' dom m := by
  have hids : ∀ p, p ≤ m → z'.hit.lookup p = z.hit.lookup p := fun p hp => hg.ids p (hp.trans hm)
  have hpast : ∀ u, Past z' m u → Past z m u := by
    rintro u ⟨p, t, hp, ht, hup⟩
    rw [hids p hp] at ht
    exact ⟨p, t, hp, ht, hg.up hz.graph (hz.versions p t ht) hup⟩
  refine ⟨fun p hp => (ha.ids p hp).trans (hids p hp).symm, fun u y hu hy => ?_, fun x c hx hc => ?_⟩
  · obtain ⟨y', hy'⟩ := (hpast u hu).lookup hz
    obtain rfl := Option.some.inj (hy.symm.trans (hg.commits u y' hy'))
    exact ha.commits u y (hpast u hu) hy'
  · obtain ⟨u, y, k, hu, hy, hk, hx⟩ := hx
    obtain ⟨y', hy'⟩ := (hpast u hu).lookup hz
    obtain rfl := Option.some.inj (hy.symm.trans (hg.commits u y' hy'))
    have hgr := hz.stored.supplied u y hy' k hk
    have hneed : Need z (Past z m) x := ⟨u, y, k, hpast u hu, hy', hk, hg.blobs.up hgr hx⟩
    obtain ⟨c', hc'⟩ := hneed.lookup hz.stored
    obtain rfl := Option.some.inj (hc.symm.trans (hg.blobs x c' hc'))
    exact ha.blobs x c hneed hc'

/-- A follower that has version `n` gets the later ones from what is sent for them. -/
theorem edis_agrees (hz : Desked z) (ha : Agrees z dom n) (ht : z.hit.lookup z.let = some t)
    (hp : Packs z n z.let t nak) : Agrees z (edis nak dom) z.let := by
  have hold : ∀ u, Reaches z.hut (z.hit.lookup n) u → Past z n u := by
    rintro u ⟨s, hs, hup⟩
    exact ⟨n, s, le_rfl, hs, hup⟩
  refine ⟨fun p hle => ?_, fun u y hu hy => ?_, fun x c hx hc => ?_⟩
  · show (nak.gar ∪ dom.hit).lookup p = _
    have hgar := hp.ids p
    by_cases hpn : n < p
    · rw [if_pos ⟨hpn, hle⟩] at hgar
      obtain ⟨s, hs⟩ := hz.full p (Nat.ne_zero_of_lt hpn) hle
      have hmem : p ∈ nak.gar := Finmap.lookup_isSome.mp (by rw [hgar, hs]; rfl)
      rw [Finmap.lookup_union_left hmem, hgar]
    · rw [if_neg fun h => hpn h.1] at hgar
      have hmem : p ∉ nak.gar := Finmap.lookup_eq_none.mp hgar
      rw [Finmap.lookup_union_right hmem, ha.ids p (Nat.le_of_not_lt hpn)]
  · have hname := hz.graph.named u y hy
    have hput := lookup_foldl_insert (f := Yaki.r) (l := nak.lar) (w := y) (m := dom.hut) ?_ ?_
    · rwa [hname] at hput
    · intro v hv hr
      obtain ⟨s, -, hs⟩ := (hp.commits v).mp hv
      rw [← hz.graph.named s v hs, hr, hname] at hs
      exact Option.some.inj (hs.symm.trans hy)
    · rw [hname]
      exact (hp.commit (hu.up hz le_rfl ht) hy).imp_right fun h => ha.commits u y (hold u h) hy
  · have hname := hz.rooted.tagged x c hc
    have hput := lookup_foldl_insert (f := zaax) (l := nak.bar) (w := c) (m := dom.lat) ?_ ?_
    · rwa [hname] at hput
    · intro v hv hr
      obtain ⟨s, -, hs⟩ := (hp.blobs v).mp hv
      rw [← hz.rooted.tagged s v hs, hr, hname] at hs
      exact Option.some.inj (hs.symm.trans hc)
    · rw [hname]
      have hneed : Need z (Up (Par z.hut) t) x := by
        obtain ⟨u, y, k, hu, hx⟩ := hx
        exact ⟨u, y, k, hu.up hz le_rfl ht, hx⟩
      refine (hp.blob hneed hc).imp_right fun h => ha.blobs x c ?_ hc
      obtain ⟨u, y, k, hu, hx⟩ := h
      exact ⟨u, y, k, hold u hu, hx⟩

end agree

/-! ### The follower -/

section follower

variable {red : Rede} {inx : Nat} {nak : Nako} {haw : Haw} {dom : Desk}

/-- The request for a range is open. -/
def Listens (red : Rede) (inx : Nat) (haw : Haw) : Prop :=
  ∃ bom fod hen mot, red.ref = some ⟨bom, fod, haw⟩ ∧ bom.lookup inx = some (hen, .range mot)

theorem knitLoop_none (h : haw.lookup (.label dom.let) = none) : knitLoop haw dom = some (haw, dom) := by
  rw [knitLoop]
  split <;> simp_all

theorem knitLoop_nako (h : haw.lookup (.label dom.let) = some (some (.nako nak))) :
    knitLoop haw dom = knitLoop (haw.erase (.label dom.let)) (edis nak dom) := by
  rw [knitLoop]
  split <;> simp_all

/-- A sequence goes through the cache. -/
theorem knit_bleb (hl : Listens red inx haw) {ins : Nat} {s : Haw × Desk}
    (hs : knitLoop (haw.insert (.label ins) (some (.nako nak))) red.dom = some s) :
    ∃ red', knit inx (bleb ins nak) red = some red' ∧ red'.dom = s.2 ∧ Listens red' inx s.1 := by
  obtain ⟨bom, fod, hen, mot, href, hbom⟩ := hl
  refine ⟨{ red with ref := some ⟨bom, fod, s.1⟩, dom := s.2 }, ?_, rfl, bom, fod, hen, mot, rfl, hbom⟩
  simp only [knit, bleb, href, hbom, Option.bind_eq_bind, Option.bind_some, Mood.label] at hs ⊢
  simp [hs]

/-- A response to the version of the follower is applied. -/
theorem knit_now (nak : Nako) (hl : Listens red inx haw) (hnone : ∀ v, haw.lookup (.label v) = none) :
    ∃ red' haw', knit inx (bleb red.dom.let nak) red = some red' ∧ red'.dom = edis nak red.dom ∧
      Listens red' inx haw' ∧ ∀ v, haw'.lookup (.label v) = none := by
  have hclear : ∀ v, ((haw.insert (Mood.label red.dom.let) (some (.nako nak))).erase
      (Mood.label red.dom.let)).lookup (Mood.label v) = none := by
    intro v
    by_cases hv : Mood.label v = Mood.label red.dom.let
    · rw [hv, Finmap.lookup_erase]
    · rw [Finmap.lookup_erase_ne hv, Finmap.lookup_insert_of_ne _ hv, hnone v]
  have hnow : (haw.insert (Mood.label red.dom.let) (some (.nako nak))).lookup (Mood.label red.dom.let) =
      some (some (.nako nak)) := Finmap.lookup_insert _
  have hloop := knitLoop_nako hnow
  rw [knitLoop_none (hclear _)] at hloop
  obtain ⟨red', hk, hdom, hl'⟩ := knit_bleb hl hloop
  exact ⟨red', _, hk, hdom, hl', hclear⟩

/-- A response to another version stays in the cache. -/
theorem knit_later (nak : Nako) (hl : Listens red inx haw)
    (hnone : haw.lookup (.label red.dom.let) = none) {ins : Nat} (hins : ins ≠ red.dom.let) :
    ∃ red', knit inx (bleb ins nak) red = some red' ∧ red'.dom = red.dom ∧
      Listens red' inx (haw.insert (.label ins) (some (.nako nak))) := by
  refine knit_bleb hl (knitLoop_none ?_)
  rwa [Finmap.lookup_insert_of_ne]
  rw [ne_eq, Mood.label_inj]
  exact Ne.symm hins

/-- Responses to later versions than the follower's leave it where it is. -/
theorem knits_later {rs : List Riot} (hl : Listens red inx haw)
    (hnone : haw.lookup (.label red.dom.let) = none)
    (hrs : ∀ rot ∈ rs, ∃ ins nak, rot = bleb ins nak ∧ red.dom.let < ins) :
    ∃ red', knits inx rs red = some red' ∧ red'.dom = red.dom := by
  induction rs generalizing red haw with
  | nil => exact ⟨red, rfl, rfl⟩
  | cons rot rs ih =>
    obtain ⟨ins, nak, rfl, hins⟩ := hrs rot List.mem_cons_self
    obtain ⟨red', hk, hdom, hl'⟩ := knit_later nak hl hnone (Nat.ne_of_gt hins)
    have hnone' : (haw.insert (Mood.label ins) (some (.nako nak))).lookup (Mood.label red'.dom.let) = none := by
      rw [hdom, Finmap.lookup_insert_of_ne, hnone]
      rw [ne_eq, Mood.label_inj]
      exact Nat.ne_of_lt hins
    obtain ⟨red'', hks, hdom'⟩ := ih hl' hnone' fun rot hrot => by
      rw [hdom]
      exact hrs rot (List.mem_cons_of_mem _ hrot)
    refine ⟨red'', ?_, hdom'.trans hdom⟩
    rw [knits, List.foldlM_cons, hk]
    exact hks

end follower

/-! ### The publisher -/

section publisher

variable {h : Hash} {z₀ z z' : Desk} {mot₀ mot mot' : Moat} {n lim t : Nat} {q : Case} {rs new : List Riot}

/-- A range that starts at a version that is there is answered at once. -/
theorem eaveRange_open (hn : n ≤ z.let) (hz : Stored z)
    (he : Settles (fun k => eaveRange h.mug k lim z ⟨.ud n, q⟩) (some (some mot, rs))) :
    ∃ nak t, z.hit.lookup z.let = some t ∧ Packs z n z.let t nak ∧ rs = [bleb n nak] ∧
      mot = ⟨.ud (z.let + 1), q⟩ := by
  have hnab : aeon lim z (.ud n) = some (some n) := by
    rw [aeon, if_neg (Nat.not_lt.mpr hn)]
  simp only [eaveRange, hnab, Option.bind_eq_bind, Option.bind_some] at he
  cases hq : aeon lim z q with
  | none =>
    simp only [hq, Option.bind_none] at he
    cases he.unique (.const _)
  | some huy =>
    simp only [hq, Option.bind_some] at he
    cases huy with
    | some huy =>
      -- the range would be complete
      obtain ⟨N, hN⟩ := he
      have hN := hN N le_rfl
      simp only at hN
      split at hN
      · cases hN
      · obtain ⟨nak, -, hN⟩ := Option.bind_eq_some_iff.mp hN
        cases hN
    | none =>
      cases ht : z.hit.lookup z.let with
      | none =>
        simp only [gack, ht, Option.bind_eq_bind, Option.bind_none] at he
        cases he.unique (.const _)
      | some t =>
        obtain ⟨nak, hset, hp⟩ := gack_settles h.mug hz n ht
        have hres : Settles (fun k => (gack h.mug z k n z.let).bind fun fud =>
            some (some (Moat.mk (.ud (z.let + 1)) q), [bleb n fud]))
            (some (some ⟨.ud (z.let + 1), q⟩, [bleb n nak])) := hset.bind (.const _)
        have hresult := Option.some.inj (he.unique hres)
        obtain ⟨hmot, hrs⟩ := Prod.mk.inj hresult
        exact ⟨nak, t, rfl, hp, hrs, Option.some.inj hmot⟩

/-- A subscription that stays open after a change: before its version nothing is sent, and at it a
response with the label of the last version. -/
theorem wakeRange_open (hw : Settles (fun k => wakeRange h.mug k lim z ⟨.ud n, q⟩) (some (some mot, rs))) :
    z.let < n ∧ mot = ⟨.ud n, q⟩ ∧ rs = [] ∨
      n ≤ z.let ∧ mot = ⟨.ud (z.let + 1), q⟩ ∧ ∃ nak, rs = [bleb z.let nak] := by
  obtain ⟨N, hN⟩ := hw
  have hN := hN N le_rfl
  simp only [wakeRange, aeon, Option.bind_eq_bind, Option.bind_some] at hN
  by_cases hn : z.let < n
  · simp only [hn, if_true, Option.some.injEq, Prod.mk.injEq] at hN
    exact .inl ⟨hn, hN.1.symm, hN.2.symm⟩
  · simp only [hn, if_false] at hN
    obtain ⟨huy, -, hN⟩ := Option.bind_eq_some_iff.mp hN
    cases huy with
    | none =>
      obtain ⟨nak, -, hN⟩ := Option.bind_eq_some_iff.mp hN
      obtain ⟨hmot, hrs⟩ := Prod.mk.inj (Option.some.inj hN)
      exact .inr ⟨Nat.le_of_not_lt hn, (Option.some.inj hmot).symm, nak, hrs.symm⟩
    | some huy =>
      obtain ⟨nak, -, hN⟩ := Option.bind_eq_some_iff.mp hN
      cases hN

/-- The publisher answers a request for an open range. -/
theorem eaveRange_settles (h : Hash) (lim : Nat) (hz : Desked z) (hn : n ≤ z.let) (h0 : z.let ≠ 0)
    (hq : aeon lim z q = some none) :
    ∃ nak, Settles (fun k => eaveRange h.mug k lim z ⟨.ud n, q⟩)
      (some (some ⟨.ud (z.let + 1), q⟩, [bleb n nak])) := by
  obtain ⟨t, ht⟩ := hz.full z.let h0 le_rfl
  obtain ⟨nak, hset, -⟩ := gack_settles h.mug hz.stored n ht
  have hnab : aeon lim z (.ud n) = some (some n) := by
    rw [aeon, if_neg (Nat.not_lt.mpr hn)]
  refine ⟨nak, ?_⟩
  simp only [eaveRange, hnab, hq, Option.bind_eq_bind, Option.bind_some]
  exact hset.bind (.const _)

/-- And so it does after a commit. -/
theorem wakeRange_settles (h : Hash) (lim : Nat) (hz : Desked z) (hn : n ≤ z.let) (h0 : z.let ≠ 0)
    (hq : aeon lim z q = some none) :
    ∃ nak, Settles (fun k => wakeRange h.mug k lim z ⟨.ud n, q⟩)
      (some (some ⟨.ud (z.let + 1), q⟩, [bleb z.let nak])) := by
  obtain ⟨t, ht⟩ := hz.full z.let h0 le_rfl
  obtain ⟨nak, hset, -⟩ := gack_settles h.mug hz.stored n ht
  have hnab : aeon lim z (.ud n) = some (some n) := by
    rw [aeon, if_neg (Nat.not_lt.mpr hn)]
  refine ⟨nak, ?_⟩
  simp only [wakeRange, hnab, hq, Option.bind_eq_bind, Option.bind_some]
  exact hset.bind (.const _)

/-- Runs of a desk, from `z₀` with the subscription `mot₀`, that leave the subscription open: the
desk, the subscription and the responses so far. Subscribers are updated after every commit, and
may be at any time. -/
inductive Fed (h : Hash) (z₀ : Desk) (mot₀ : Moat) : Desk → Moat → List Riot → Prop
  | start : Fed h z₀ mot₀ z₀ mot₀ []
  | exec {z z' : Desk} {mot mot' : Moat} {rs new : List Riot} {n lim wen : Nat} {lem : Nori}
      (hr : Fed h z₀ mot₀ z mot rs) (he : axel h n wen lem z = some z')
      -- no two commits share a name
      (hnew : ∀ t y, z.hut.lookup t = some y → z'.hut.lookup t = some y)
      (hw : Settles (fun k => wakeRange h.mug k lim z' mot) (some (some mot', new))) :
      Fed h z₀ mot₀ z' mot' (rs ++ new)
  | wake {z : Desk} {mot mot' : Moat} {rs new : List Riot} {lim : Nat} (hr : Fed h z₀ mot₀ z mot rs)
      (hw : Settles (fun k => wakeRange h.mug k lim z mot) (some (some mot', new))) :
      Fed h z₀ mot₀ z mot' (rs ++ new)

/-- What holds throughout such a run. -/
structure Feeding (z₀ z : Desk) (mot : Moat) (q : Case) (rs : List Riot) : Prop where
  desk : Desked z
  grown : Grown z₀ z
  range : mot = ⟨.ud (z.let + 1), q⟩
  late : ∀ rot ∈ rs, ∃ ins nak, rot = bleb ins nak ∧ z₀.let < ins
  quiet : z.let = z₀.let → rs = []

/-- The subscribers are updated. -/
theorem Feeding.wake (hf : Feeding z₀ z mot q rs) (hz : Desked z') (hg : Grown z z')
    (hw : Settles (fun k => wakeRange h.mug k lim z' mot) (some (some mot', new))) :
    Feeding z₀ z' mot' q (rs ++ new) := by
  have htop := hf.grown.top
  rw [hf.range] at hw
  rcases wakeRange_open hw with ⟨hlt, rfl, rfl⟩ | ⟨hle, rfl, nak, rfl⟩
  · -- no new version
    have heq : z'.let = z.let := Nat.le_antisymm (Nat.le_of_lt_succ hlt) hg.top
    rw [List.append_nil]
    exact ⟨hz, hf.grown.trans hg, by rw [heq], hf.late, fun h => hf.quiet (heq ▸ h)⟩
  · have hlt : z₀.let < z'.let := Nat.lt_of_le_of_lt htop hle
    refine ⟨hz, hf.grown.trans hg, rfl, fun rot hrot => ?_, fun h => absurd h (Nat.ne_of_gt hlt)⟩
    rcases List.mem_append.mp hrot with hrot | hrot
    · exact hf.late rot hrot
    · exact ⟨z'.let, nak, List.mem_singleton.mp hrot, hlt⟩

theorem Fed.feeding (hz : Desked z₀) (hr : Fed h z₀ ⟨.ud (z₀.let + 1), q⟩ z mot rs) :
    Feeding z₀ z mot q rs := by
  induction hr with
  | start => exact ⟨hz, .refl z₀, rfl, fun rot hrot => (nomatch hrot), fun _ => rfl⟩
  | exec _ he hnew hw ih =>
    obtain ⟨hz', hg⟩ := axel_desked ih.desk he hnew
    exact ih.wake hz' hg hw
  | wake _ hw ih => exact ih.wake ih.desk (.refl _) hw

end publisher

/-! ### The two together -/

section both

variable {h : Hash} {z₀ z : Desk} {red : Rede} {mot₀ mot : Moat} {inx lim : Nat} {q : Case}
  {first rs : List Riot}

/-- A follower that has the first versions of a desk, and an open request for its changes. -/
structure Subscribes (z : Desk) (red : Rede) (inx : Nat) : Prop where
  current : red.dom.let ≤ z.let
  agrees : Agrees z red.dom red.dom.let
  request : ∃ haw, Listens red inx haw ∧ ∀ v, haw.lookup (.label v) = none

/-- The follower has all versions, and no response is left in the cache. -/
structure Delivered (z : Desk) (red : Rede) (inx : Nat) : Prop where
  top : red.dom.let = z.let
  agrees : Agrees z red.dom z.let
  applied : ∃ haw, Listens red inx haw ∧ ∀ v, haw.lookup (.label v) = none

/-- The first response, and those after it. -/
theorem knits_fed (hz : Desked z₀) (hs : Subscribes z₀ red inx)
    (he : Settles (fun k => eaveRange h.mug k lim z₀ ⟨.ud red.dom.let, q⟩) (some (some mot₀, first)))
    (hr : Fed h z₀ mot₀ z mot rs) :
    ∃ red₁ red₂, knits inx first red = some red₁ ∧ Delivered z₀ red₁ inx ∧ knits inx rs red₁ = some red₂ ∧
      red₂.dom = red₁.dom ∧ Feeding z₀ z mot q rs := by
  obtain ⟨haw, hl, hnone⟩ := hs.request
  obtain ⟨nak, t, ht, hp, rfl, rfl⟩ := eaveRange_open hs.current hz.stored he
  obtain ⟨red₁, haw₁, hk, hdom, hl₁, hnone₁⟩ := knit_now nak hl hnone
  have htop : red₁.dom.let = z₀.let := by
    rw [hdom]
    exact hp.top
  have hf := hr.feeding hz
  obtain ⟨red₂, hks, hdom₂⟩ := knits_later hl₁ (hnone₁ _) fun rot hrot => by
    rw [htop]
    exact hf.late rot hrot
  refine ⟨red₁, red₂, ?_, ⟨htop, ?_, haw₁, hl₁, hnone₁⟩, hks, hdom₂, hf⟩
  · rw [knits, List.foldlM_cons, hk]
    rfl
  · rw [hdom]
    exact edis_agrees hz hs.agrees ht hp

/-- A follower is brought up to date once, by the first response. Whatever is committed after it,
the follower has the desk if and only if none of the commits made a new version. -/
theorem feed_delivered_iff (hz : Desked z₀) (hs : Subscribes z₀ red inx)
    (he : Settles (fun k => eaveRange h.mug k lim z₀ ⟨.ud red.dom.let, q⟩) (some (some mot₀, first)))
    (hr : Fed h z₀ mot₀ z mot rs) :
    ∃ red', knits inx (first ++ rs) red = some red' ∧ (Delivered z red' inx ↔ z.let = z₀.let) := by
  obtain ⟨red₁, red₂, hfirst, hd, hrest, hdom, hf⟩ := knits_fed hz hs he hr
  refine ⟨red₂, ?_, fun h => ?_, fun h => ?_⟩
  · rw [knits_append, hfirst, Option.bind_some, hrest]
  · rw [← h.top, hdom, hd.top]
  · obtain rfl := hf.quiet h
    obtain rfl := Option.some.inj hrest
    refine ⟨hd.top.trans h.symm, ?_, hd.applied⟩
    rw [h]
    exact hd.agrees.grown hz hf.grown le_rfl

end both

/-! ### A file that is deleted -/

/-- One version, with the file `/a`. -/
def filed : Desk :=
  { Desk.empty with
    «let» := 1
    hit := (∅ : Finmap fun _ : Nat => Nat).insert 1 1
    hut := (∅ : Finmap fun _ : Nat => Yaki (Map Nat)).insert 1 ⟨[], .node (pathNoun [97]) 7 .nil .nil, 1, 0⟩
    lat := (∅ : Lat).insert 7 (.direct 7 (.atom 0) .c) }

/-- A follower without versions. -/
def follower : Rede :=
  ⟨0, some ⟨(∅ : Finmap fun _ : Nat => Nat × Rave).insert 0 (0, .range ⟨.ud 0, .ud 9⟩), ∅, ∅⟩, .empty⟩

theorem lookup_insert_empty {β : Type} {k j : Nat} {v w : β}
    (h : ((∅ : Finmap fun _ : Nat => β).insert k v).lookup j = some w) : j = k ∧ w = v := by
  by_cases hj : j = k
  · subst hj
    rw [Finmap.lookup_insert] at h
    exact ⟨rfl, (Option.some.inj h).symm⟩
  · rw [Finmap.lookup_insert_of_ne _ hj, Finmap.lookup_empty] at h
    cases h

theorem filed_desked : Desked filed := by
  have hblob : filed.lat.lookup 7 = some (.direct 7 (.atom 0) .c) := Finmap.lookup_insert _
  refine ⟨graph_of_lt (fun t y hy => ?_) (fun t y hy u hu => ?_), ⟨fun k c hc => ?_, fun k c hc => ?_⟩,
    fun t y hy k hk => ?_, fun p t hp => ?_, rfl, fun p hp0 hp => ?_, fun p t u hp ht _ => ?_⟩
  · obtain ⟨rfl, rfl⟩ := lookup_insert_empty hy
    rfl
  · obtain ⟨rfl, rfl⟩ := lookup_insert_empty hy
    cases hu
  · obtain ⟨rfl, rfl⟩ := lookup_insert_empty hc
    rfl
  · obtain ⟨rfl, rfl⟩ := lookup_insert_empty hc
    exact .mk hc fun u hu => nomatch hu
  · obtain ⟨rfl, rfl⟩ := lookup_insert_empty hy
    obtain ⟨i, hi, rfl⟩ := hk
    obtain rfl := List.mem_singleton.mp hi
    exact ⟨_, hblob⟩
  · obtain ⟨rfl, rfl⟩ := lookup_insert_empty hp
    exact ⟨_, Finmap.lookup_insert _⟩
  · obtain rfl : p = 1 := Nat.le_antisymm hp (Nat.one_le_iff_ne_zero.mpr hp0)
    exact ⟨1, Finmap.lookup_insert _⟩
  · obtain ⟨rfl, -⟩ := lookup_insert_empty ht
    exact absurd hp (Nat.lt_irrefl _)

/-- A desk without versions has what version zero has. -/
theorem agrees_zero {z : Desk} (hz : Desked z) : Agrees z .empty 0 := by
  have hnone : ∀ u, ¬Past z 0 u := by
    rintro u ⟨p, t, hp, ht, -⟩
    rw [Nat.le_zero.mp hp, hz.first] at ht
    cases ht
  refine ⟨fun p hp => ?_, fun u y hu => absurd hu (hnone u), fun x c hx => ?_⟩
  · rw [Nat.le_zero.mp hp, hz.first]
    rfl
  · obtain ⟨t, y, k, ht, -⟩ := hx
    exact absurd ht (hnone t)

theorem follower_subscribes : Subscribes filed follower 0 :=
  ⟨Nat.zero_le _, agrees_zero filed_desked, ∅, ⟨_, _, 0, _, rfl, Finmap.lookup_insert _⟩, fun _ => rfl⟩

/-- The deletion makes a version, and the follower is sent it. -/
theorem filed_fed : ∃ first rs z mot,
    Settles (fun k => eaveRange plainHash.mug k 0 filed ⟨.ud 0, .ud 9⟩) (some (some ⟨.ud 2, .ud 9⟩, first)) ∧
      Fed plainHash filed ⟨.ud 2, .ud 9⟩ z mot rs ∧ z.let = 2 := by
  obtain ⟨nak, he⟩ := eaveRange_settles (n := 0) (q := .ud 9) plainHash 0 filed_desked (Nat.zero_le _)
    (by decide) rfl
  have haxel : axel plainHash 0 0 (.delta ⟨(0, 0), [([97], .del (.atom 0))]⟩) filed =
      some (axelNext (zoal plainHash [1] .nil 0) (cosh plainHash .bare) filed) := rfl
  have hnew : ∀ t y, filed.hut.lookup t = some y →
      (axelNext (zoal plainHash [1] .nil 0) (cosh plainHash .bare) filed).hut.lookup t = some y := by
    intro t y hy
    obtain ⟨rfl, -⟩ := lookup_insert_empty hy
    rw [← hy]
    refine Finmap.lookup_insert_of_ne _ ?_
    show 1 ≠ cat 7 1 1
    decide +kernel
  obtain ⟨nak', hw⟩ := wakeRange_settles (n := 2) (q := .ud 9) plainHash 0
    (axel_desked filed_desked haxel hnew).1 le_rfl (by decide) rfl
  exact ⟨_, _, _, _, he, Fed.exec .start haxel hnew hw, rfl⟩

/-- After the deletion the follower is one version behind. -/
theorem feed_delivered_deletion : ∃ first rs z mot red',
    Fed plainHash filed ⟨.ud 2, .ud 9⟩ z mot rs ∧ knits 0 (first ++ rs) follower = some red' ∧
      ¬Delivered z red' 0 := by
  obtain ⟨first, rs, z, mot, he, hr, htop⟩ := filed_fed
  obtain ⟨red', hk, hiff⟩ := feed_delivered_iff filed_desked follower_subscribes he hr
  refine ⟨first, rs, z, mot, red', hr, hk, fun hd => ?_⟩
  have hsame := hiff.mp hd
  rw [htop] at hsame
  cases hsame

/-- Not every commit reaches the follower. -/
theorem feed_stalls :
    ¬∀ (z₀ z : Desk) (red : Rede) (inx lim : Nat) (q : Case) (mot₀ mot : Moat) (first rs : List Riot),
      Desked z₀ → Subscribes z₀ red inx →
      Settles (fun k => eaveRange plainHash.mug k lim z₀ ⟨.ud red.dom.let, q⟩) (some (some mot₀, first)) →
      Fed plainHash z₀ mot₀ z mot rs →
      ∃ red', knits inx (first ++ rs) red = some red' ∧ Delivered z red' inx := by
  intro h
  obtain ⟨first, rs, z, mot, he, hr, htop⟩ := filed_fed
  obtain ⟨red', hk, hd⟩ := h _ _ _ _ _ _ _ _ _ _ filed_desked follower_subscribes he hr
  obtain ⟨red₁, red₂, hfirst, hd₁, hrest, hdom, -⟩ := knits_fed filed_desked follower_subscribes he hr
  have hsame : red' = red₂ := by
    rw [knits_append, hfirst, Option.bind_some, hrest] at hk
    exact (Option.some.inj hk).symm
  have htop' := hd.top
  rw [hsame, hdom, hd₁.top, htop] at htop'
  cases htop'

end Vere.Clay
