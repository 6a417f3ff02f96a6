import Vere.Ames.Flow
import Vere.Hoon.Queue

/-!
# Vere.Ames.Pump

The packet pump (`++pu` of `ames.hoon`, section 4aF): what was sent to a friend and is not
acknowledged yet.

A `Shed` keeps four records of the same packets: the queue `puq`, the number of each hash
(`diq`), the number of packets left of each message (`pyz`) and the number of packets that are
live (`nif`). `whap` adds a message, `bick` takes out the packet with an acknowledged hash, and
`harv` sends as many of the others as the window `caw` has room for. `wept` takes packets back to
be sent again, after a hole in the acknowledgments (`bock`) or a timeout (`wack`).

`Sound` says how the records fit together, and `pump_sound` that they do after every operation.
`Stowed` is the part of it that needs nothing of the times and the counts. A crash of the source
is `none`.
-/

namespace Vere.Ames

open Vere.Hoon

/-- `++soup`: new statement id. -/
structure Soup where
  p : Path
  q : Nat
  deriving DecidableEq

/-- `++soul`: packet in travel. -/
structure Soul where
  /-- Message identity. -/
  gom : Soup
  /-- Transmission count. -/
  nux : Nat
  /-- Deemed live. -/
  liv : Bool
  /-- Last sent. -/
  lys : Nat
  /-- Packet data. -/
  pac : Nat
  deriving DecidableEq

/-- An entry of the queue, with its sequence number. -/
abbrev Entry := Nat × Soul

/-- `++shed`: packet flow. -/
structure Shed where
  /-- Smoothed round trip time. -/
  rtt : Nat
  /-- Retransmit timeout. -/
  rto : Nat
  /-- Next timeout. -/
  rtn : Option Nat
  /-- Last heard from. -/
  rue : Option Nat
  /-- Number sent. -/
  nus : Nat
  /-- Number live. -/
  nif : Nat
  /-- Next expected. -/
  nep : Nat
  /-- Logical window. -/
  caw : Nat
  /-- Congestion threshold. -/
  cag : Nat
  /-- Packets sent. -/
  diq : Dict Nat Nat
  /-- Message/unacked. -/
  pyz : Dict Soup Nat
  /-- Packet queue. -/
  puq : Qeu Entry

/-! ### The noun that an entry is -/

def pathNoun : Path → Noun
  | [] => .atom 0
  | i :: t => .cell (.atom i) (pathNoun t)

def Soup.noun (g : Soup) : Noun := .cell (pathNoun g.p) (.atom g.q)

def Soul.noun (s : Soul) : Noun :=
  .cell s.gom.noun (.cell (.atom s.nux) (.cell (.atom (loob s.liv))
    (.cell (.atom s.lys) (.atom s.pac))))

/-- The queue is balanced by `++vor` on the whole entry, whose fields change while it is there. -/
def entryPrior (mug : Noun → Nat) : Prior Entry :=
  Prior.ofNoun mug fun e => .cell (.atom e.1) e.2.noun

/-! ### Times -/

/-- `~s1`. -/
def second : Nat := 2 ^ 64

/-- `~2000.1.1`. -/
def epoch : Nat := 0x8000000d070b5100 * 2 ^ 64

/-- `++sub`: subtract, which crashes below zero. -/
def sub (a b : Nat) : Option Nat := if b ≤ a then some (a - b) else none

/-! ### The arms -/

/-- `ahoy`: initialize. -/
def ahoy : Shed where
  rtt := second
  rto := 4 * second
  rtn := none
  rue := none
  nus := 0
  nif := 0
  nep := 0
  caw := 2
  cag := 64
  diq := ∅
  pyz := ∅
  puq := .nil

/-- One for a live packet. -/
def Soul.live (s : Soul) : Nat := if s.liv then 1 else 0

/-- `bilk`: inbound packet. -/
def bilk (now : Nat) (s : Shed) : Shed :=
  let trt := 2 * s.rtt
  { s with rue := some now, rto := trt, rtn := if s.puq = .nil then none else some (now + trt) }

/-- The live entries, as `bike` adds them up. -/
def liveIn : Qeu Entry → Nat
  | .nil => 0
  | .node n l r => n.2.live + liveIn l + liveIn r

/-- `bike`: check stats. -/
def bike (s : Shed) : Option Shed := if s.nif = liveIn s.puq then some s else none

/-- The first number of the queue above `nep`. -/
def foh (nep : Nat) : Qeu Entry → Option Nat
  | .nil => none
  | .node n l r => if n.1 ≤ nep then foh nep l else (foh nep r).orElse fun _ => some n.1

/-- `beet`: advance unacked. -/
def beet (s : Shed) : Shed := { s with nep := (foh s.nep s.puq).getD s.nus }

/-- The round trip time with that of a packet that is acknowledged. One that was sent more than
once does not count: the acknowledgment may be for any of them. -/
def trip (now rtt : Nat) (n : Soul) : Option Nat :=
  if n.liv ∧ n.nux = 1 then (sub now n.lys).map fun gap => (2 * rtt + gap) / 3 else some rtt

/-- `bine`: apply ack. The search goes down the queue, which is rebuilt on the way back. -/
def bine (mug : Noun → Nat) (now num : Nat) (s : Shed) :
    Qeu Entry → Option (Option Soup × Shed)
  | .nil => none
  | .node n l r =>
    if num ≠ n.1 then
      if num > n.1 then do
        let (gub, lef) ← bine mug now num s l
        return (gub, { lef with puq := .node n lef.puq r })
      else do
        let (gub, rig) ← bine mug now num s r
        return (gub, { rig with puq := .node n l rig.puq })
    else do
      let rtt ← trip now s.rtt n.2
      let nif ← sub s.nif n.2.live
      let lez ← (s.pyz.lookup n.2.gom).bind fun k => sub k 1
      let (gub, pyz) :=
        if lez = 0 then (some n.2.gom, s.pyz.erase n.2.gom)
        else (none, s.pyz.insert n.2.gom lez)
      let puq ← Qeu.nap (entryPrior mug) (.node n l r)
      return (gub, { s with rtt := rtt, nif := nif, pyz := pyz, puq := puq })

/-- The loop of `wept`, with the number of live packets. -/
def weptApse (fip lap : Nat) : Qeu Entry → Nat → Option (Qeu Entry × Nat)
  | .nil, nif => some (.nil, nif)
  | .node n l r, nif =>
    if n.1 < fip then do
      let (l, nif) ← weptApse fip lap l nif
      return (.node n l r, nif)
    else if n.1 ≥ lap then do
      let (r, nif) ← weptApse fip lap r nif
      return (.node n l r, nif)
    else do
      let (r, nif) ← weptApse fip lap r nif
      let nif ← sub nif n.2.live
      let (l, nif) ← weptApse fip lap l nif
      return (.node (n.1, { n.2 with liv := false }) l r, nif)

/-- `wept`: take back the packets from `fip` thru `lap - 1`. -/
def wept (fip lap : Nat) (s : Shed) : Option Shed := do
  let (puq, nif) ← weptApse fip lap s.puq s.nif
  return { s with puq := puq, nif := nif }

/-- `bock`: ack by sequence. -/
def bock (mug : Noun → Nat) (now num : Nat) (s : Shed) : Option (Option Soup × Shed) := do
  let (gym, s) ← bine mug now num s s.puq
  if num > s.nep then
    let cam := max 2 (s.caw / 2)
    let t ← wept s.nep num { s with nep := num, cag := cam, caw := cam }
    return (gym, beet t)
  else
    let caw :=
      if s.caw < s.cag then s.caw + 1
      else s.caw + if mug (.atom now) % s.caw = 0 then 1 else 0
    let s := { s with caw := caw }
    return (gym, if num = s.nep then beet s else s)

/-- What the loop of `harv` counts: the room in the window, the packets taken, latest first, and
the live ones. -/
structure Reap where
  wid : Nat
  rub : List Nat
  nif : Nat

/-- The step of `harv` at an entry. -/
def reapAt (now : Nat) (n : Entry) (c : Reap) : Entry × Reap :=
  if c.wid = 0 then (n, c)
  else if n.2.liv then (n, c)
  else ((n.1, { n.2 with liv := true, nux := n.2.nux + 1, lys := now }),
    ⟨c.wid - 1, n.2.pac :: c.rub, c.nif + 1⟩)

/-- The loop of `harv`, from the head of the queue. -/
def harvApse (now : Nat) : Qeu Entry → Reap → Qeu Entry × Reap
  | .nil, c => (.nil, c)
  | .node n l r, c =>
    if c.wid = 0 then (.node n l r, c)
    else
      let (r, c) := harvApse now r c
      let (n, c) := reapAt now n c
      let (l, c) := harvApse now l c
      (.node n l r, c)

/-- `harv`: harvest queue. -/
def harv (now : Nat) (s : Shed) : List Nat × Shed :=
  if s.puq = .nil then ([], { s with rtn := none })
  else if s.caw > s.nif then
    let (puq, c) := harvApse now s.puq ⟨s.caw - s.nif, [], s.nif⟩
    let s := { s with puq := puq, nif := c.nif }
    if c.rub = [] then ([], s) else (c.rub.reverse, { s with rtn := some (s.rto + now) })
  else ([], s)

/-- `bick`: ack by hash. -/
def bick (mug : Noun → Nat) (now fap : Nat) (s : Shed) :
    Option ((Option Soup × List Nat) × Shed) :=
  match s.diq.lookup fap with
  | none => some ((none, []), s)
  | some sun => do
    let (gub, s) ← bock mug now sun { s with diq := s.diq.erase fap }
    let (yop, s) := harv now s
    return ((gub, yop), s)

/-- The days since the friend was heard from, at least one. -/
def days (now : Nat) : Option Nat → Option Nat
  | none => some 1
  | some rue => (sub now rue).map fun gap => gap / (86400 * second) + 1

/-- `wack`: wakeup (timeout). -/
def wack (now : Nat) (s : Shed) : Option (List Nat × Shed) :=
  match s.rtn with
  | none => some ([], s)
  | some rtn =>
    if now ≥ rtn then do
      let s ← wept 0 s.nus s
      if s.nif = 0 then
        let far ← days now s.rue
        let rto := min (2 * s.rto) (min (120 * second) (16 * second * far))
        return harv now { s with caw := 2, rto := rto }
      else none
    else some ([], s)

/-- The loop of `whap`. -/
def whapLoop (mug : Noun → Nat) (flap : Nat → Nat) (gom : Soup) : List Nat → Shed → Shed
  | [], s => s
  | pac :: wyv, s => whapLoop mug flap gom wyv
      { s with
        nus := s.nus + 1
        diq := s.diq.insert (flap pac) s.nus
        puq := s.puq.put (entryPrior mug) (s.nus, ⟨gom, 0, false, epoch, pac⟩) }

/-- `whap`: send a message. The hash of a packet is `shaf %flap`. -/
def whap (mug : Noun → Nat) (flap : Nat → Nat) (now : Nat) (gom : Soup) (wyv : List Nat)
    (s : Shed) : List Nat × Shed :=
  harv now (whapLoop mug flap gom wyv { s with pyz := s.pyz.insert gom wyv.length })

/-! ### What the arms do to the queue -/

/-- The entries that are live. -/
def lives (es : List Entry) : Nat := es.countP fun e => e.2.liv

@[simp] theorem lives_nil : lives [] = 0 := rfl

@[simp] theorem lives_cons (e : Entry) (es : List Entry) :
    lives (e :: es) = lives es + e.2.live := by
  simp [lives, List.countP_cons, Soul.live]

@[simp] theorem lives_append (es fs : List Entry) : lives (es ++ fs) = lives es + lives fs := by
  simp [lives]

theorem liveIn_eq (t : Qeu Entry) : liveIn t = lives t.list := by
  induction t with
  | nil => rfl
  | node n l r ihl ihr =>
    simp only [liveIn, ihl, ihr, Qeu.list_node, lives_append, lives_cons]
    omega

/-- What of an entry stays as long as it is in the queue. -/
def tag (e : Entry) : Nat × Soup × Nat := (e.1, e.2.gom, e.2.pac)

/-- A live packet was sent, and not after this time. -/
def Timed (now : Nat) (es : List Entry) : Prop := ∀ e ∈ es, e.2.liv = true → e.2.lys ≤ now

theorem timed_append {now : Nat} {es fs : List Entry} :
    Timed now (es ++ fs) ↔ Timed now es ∧ Timed now fs := by
  simp only [Timed, List.mem_append, or_imp, forall_and]

theorem timed_cons {now : Nat} {e : Entry} {es : List Entry} :
    Timed now (e :: es) ↔ (e.2.liv = true → e.2.lys ≤ now) ∧ Timed now es := by
  simp only [Timed, List.mem_cons, forall_eq_or_imp]

/-- Entries were sent or taken back, where they are, and the live ones counted. -/
structure Edit (now : Nat) (es fs : List Entry) (nif nif' : Nat) : Prop where
  tags : fs.map tag = es.map tag
  count : nif' + lives es = nif + lives fs
  timed : Timed now es → Timed now fs

theorem Edit.refl (now : Nat) (es : List Entry) (nif : Nat) : Edit now es es nif nif :=
  ⟨rfl, rfl, id⟩

theorem Edit.append {now : Nat} {es es' fs fs' : List Entry} {a b c : Nat}
    (h : Edit now es es' a b) (h' : Edit now fs fs' b c) :
    Edit now (es ++ fs) (es' ++ fs') a c := by
  refine ⟨?_, ?_, ?_⟩
  · rw [List.map_append, List.map_append, h.tags, h'.tags]
  · have h1 := h.count
    have h2 := h'.count
    simp only [lives_append]
    omega
  · intro ht
    obtain ⟨h1, h2⟩ := timed_append.mp ht
    exact timed_append.mpr ⟨h.timed h1, h'.timed h2⟩

theorem reapAt_edit (now : Nat) (n : Entry) (c : Reap) :
    Edit now [n] [(reapAt now n c).1] c.nif (reapAt now n c).2.nif := by
  unfold reapAt
  split
  · exact Edit.refl ..
  · split
    · exact Edit.refl ..
    · next hliv =>
      refine ⟨rfl, ?_, ?_⟩
      · simp [Soul.live, hliv]
      · intro _
        simp [Timed]

theorem harvApse_edit (now : Nat) (t : Qeu Entry) (c : Reap) :
    Edit now t.list (harvApse now t c).1.list c.nif (harvApse now t c).2.nif := by
  induction t generalizing c with
  | nil => exact Edit.refl ..
  | node n l r ihl ihr =>
    unfold harvApse
    split
    · exact Edit.refl ..
    · have hr := ihr c
      have hn := reapAt_edit now n (harvApse now r c).2
      have hl := ihl (reapAt now n (harvApse now r c).2).2
      exact hr.append (hn.append hl)

theorem sub_eq {a b : Nat} (h : b ≤ a) : sub a b = some (a - b) := if_pos h

/-- Taking packets back never runs out of live ones to count. -/
theorem weptApse_edit (now fip lap : Nat) (t : Qeu Entry) (nif : Nat) (h : lives t.list ≤ nif) :
    ∃ t' nif', weptApse fip lap t nif = some (t', nif') ∧ Edit now t.list t'.list nif nif' := by
  induction t generalizing nif with
  | nil => exact ⟨.nil, nif, rfl, Edit.refl ..⟩
  | node n l r ihl ihr =>
    simp only [Qeu.list_node, lives_append, lives_cons] at h
    unfold weptApse
    split
    · obtain ⟨l', k, hw, he⟩ := ihl nif (by omega)
      refine ⟨.node n l' r, k, by simp [hw], ?_⟩
      exact (Edit.refl now r.list nif).append ((Edit.refl now [n] nif).append he)
    · split
      · obtain ⟨r', k, hw, he⟩ := ihr nif (by omega)
        refine ⟨.node n l r', k, by simp [hw], ?_⟩
        exact he.append (Edit.refl now (n :: l.list) k)
      · obtain ⟨r', k, hwr, her⟩ := ihr nif (by omega)
        have hk := her.count
        have hn : Edit now [n] [(n.1, { n.2 with liv := false })] k (k - n.2.live) := by
          have hoff : ({ n.2 with liv := false } : Soul).live = 0 := rfl
          refine ⟨rfl, ?_, by simp [Timed]⟩
          simp only [lives_cons, lives_nil, hoff]
          omega
        obtain ⟨l', k', hwl, hel⟩ := ihl (k - n.2.live) (by omega)
        refine ⟨.node (n.1, { n.2 with liv := false }) l' r', k', ?_, her.append (hn.append hel)⟩
        have hs : sub k n.2.live = some (k - n.2.live) := sub_eq (by omega)
        simp [hwr, hs, hwl]

/-- Taking back all numbers leaves no live packet. -/
theorem weptApse_all {lap : Nat} {t t' : Qeu Entry} {nif nif' : Nat}
    (h : weptApse 0 lap t nif = some (t', nif')) (hlap : ∀ e ∈ t.list, e.1 < lap) :
    lives t'.list = 0 := by
  induction t generalizing t' nif nif' with
  | nil =>
    simp only [weptApse, Option.some.injEq, Prod.mk.injEq] at h
    simp [← h.1]
  | node n l r ihl ihr =>
    have hn : ¬n.1 ≥ lap := Nat.not_le.mpr (hlap n (by simp))
    rw [weptApse, if_neg (Nat.not_lt_zero _), if_neg hn] at h
    simp only [Option.bind_eq_bind, Option.bind_eq_some_iff, Prod.exists] at h
    obtain ⟨r', k, hr, m, -, l', k', hl, hx⟩ := h
    simp only [Option.pure_def, Option.some.injEq, Prod.mk.injEq] at hx
    rw [← hx.1]
    have h1 := ihr hr fun e he => hlap e (by simp [he])
    have h2 := ihl hl fun e he => hlap e (by simp [he])
    simp [h1, h2, Soul.live]

theorem mem_lives {e : Entry} {es : List Entry} (h : e ∈ es) : e.2.live ≤ lives es := by
  obtain ⟨xs, ys, rfl⟩ := List.append_of_mem h
  simp only [lives_append, lives_cons]
  omega

theorem trip_some {now : Nat} (rtt : Nat) {n : Soul} (h : n.liv = true → n.lys ≤ now) :
    ∃ t, trip now rtt n = some t := by
  unfold trip
  split
  · next hc => exact ⟨_, by rw [sub_eq (h hc.1)]; rfl⟩
  · exact ⟨_, rfl⟩

theorem filter_ne_self {es : List Entry} {num : Nat} (h : ∀ x ∈ es, x.1 ≠ num) :
    es.filter (fun x => x.1 ≠ num) = es :=
  List.filter_eq_self.mpr fun x hx => decide_eq_true (h x hx)

/-- The entry that `bine` takes out, and what it does with it. -/
theorem bine_spec (mug : Noun → Nat) {now k : Nat} {s : Shed} {t : Qeu Entry} {e : Entry}
    (hord : t.list.Pairwise fun a b => a.1 < b.1) (he : e ∈ t.list) (hnif : e.2.live ≤ s.nif)
    (htime : e.2.liv = true → e.2.lys ≤ now) (hpyz : s.pyz.lookup e.2.gom = some (k + 1)) :
    ∃ rtt puq, bine mug now e.1 s t = some (if k = 0 then some e.2.gom else none,
      { s with
        rtt := rtt
        nif := s.nif - e.2.live
        pyz := if k = 0 then s.pyz.erase e.2.gom else s.pyz.insert e.2.gom k
        puq := puq }) ∧ puq.list = t.list.filter fun x => x.1 ≠ e.1 := by
  induction t with
  | nil => simp at he
  | node n l r ihl ihr =>
    rw [Qeu.list_node, List.pairwise_append, List.pairwise_cons] at hord
    obtain ⟨hr, ⟨hnl, hl⟩, hrn⟩ := hord
    have hrn' : ∀ x ∈ r.list, x.1 < n.1 := fun x hx => hrn x hx n (by simp)
    simp only [Qeu.list_node, List.mem_append, List.mem_cons] at he
    rcases Nat.lt_trichotomy e.1 n.1 with hlt | heq | hgt
    · have hmem : e ∈ r.list := by
        rcases he with h | rfl | h
        · exact h
        · omega
        · have := hnl e h
          omega
      obtain ⟨rtt, puq, hb, hq⟩ := ihr hr hmem
      refine ⟨rtt, .node n l puq, ?_, ?_⟩
      · have h1 : e.1 ≠ n.1 := by omega
        have h2 : ¬e.1 > n.1 := by omega
        rw [bine, if_pos h1, if_neg h2, hb]
        rfl
      · have hn : n.1 ≠ e.1 := by omega
        have hkeep : l.list.filter (fun x => x.1 ≠ e.1) = l.list :=
          filter_ne_self fun x hx => by have := hnl x hx; omega
        rw [Qeu.list_node, Qeu.list_node, hq, List.filter_append, List.filter_cons, hkeep]
        simp [hn]
    · have hen : e = n := by
        rcases he with h | h | h
        · have := hrn' e h
          omega
        · exact h
        · have := hnl e h
          omega
      subst hen
      obtain ⟨puq, hp, hq⟩ := Qeu.nap_spec (entryPrior mug) e l r
      obtain ⟨rtt, hrtt⟩ := trip_some s.rtt htime
      refine ⟨rtt, puq, ?_, ?_⟩
      · rw [bine, if_neg (by simp), hrtt, sub_eq hnif, hpyz, hp]
        by_cases hk : k = 0
        · simp [sub, hk]
        · simp [sub, hk]
      · have hkr : r.list.filter (fun x => x.1 ≠ e.1) = r.list :=
          filter_ne_self fun x hx => by have := hrn' x hx; omega
        have hkl : l.list.filter (fun x => x.1 ≠ e.1) = l.list :=
          filter_ne_self fun x hx => by have := hnl x hx; omega
        rw [hq, Qeu.list_node, List.filter_append, List.filter_cons, hkr, hkl]
        simp
    · have hmem : e ∈ l.list := by
        rcases he with h | rfl | h
        · have := hrn' e h
          omega
        · omega
        · exact h
      obtain ⟨rtt, puq, hb, hq⟩ := ihl hl hmem
      refine ⟨rtt, .node n puq r, ?_, ?_⟩
      · have h1 : e.1 ≠ n.1 := by omega
        rw [bine, if_pos h1, if_pos hgt, hb]
        rfl
      · have hn : n.1 ≠ e.1 := by omega
        have hkeep : r.list.filter (fun x => x.1 ≠ e.1) = r.list :=
          filter_ne_self fun x hx => by have := hrn' x hx; omega
        rw [Qeu.list_node, Qeu.list_node, hq, List.filter_append, List.filter_cons, hkeep]
        simp [hn]

/-! ### How the records fit together -/

/-- The number, the message and the data of each packet in the queue, from its head. -/
def tags (s : Shed) : List (Nat × Soup × Nat) := s.puq.list.map tag

/-- The queue, the hashes and the number of live packets fit together. -/
structure Filed (flap : Nat → Nat) (s : Shed) : Prop where
  /-- The numbers are distinct, and increase from the head to the tail. -/
  order : (tags s).Pairwise fun a b => a.1 < b.1
  fresh : ∀ x ∈ tags s, x.1 < s.nus
  nif : s.nif = s.puq.list.countP fun e => e.2.liv
  diq : ∀ fap num, s.diq.lookup fap = some num ↔ ∃ x ∈ tags s, flap x.2.2 = fap ∧ x.1 = num

/-- The pump holds the packets `fly`, and its records say so. -/
structure Sound (flap : Nat → Nat) (fly : List (Soup × Nat)) (s : Shed) : Prop
    extends Filed flap s where
  puq : (tags s).map Prod.snd = fly
  pyz : ∀ g, s.pyz.lookup g =
    if g ∈ fly.map Prod.fst then some (fly.countP fun x => x.1 = g) else none
  caw : 2 ≤ s.caw

theorem Filed.bike {flap : Nat → Nat} {s : Shed} (h : Filed flap s) : bike s = some s := by
  rw [Ames.bike, if_pos (by rw [h.nif, liveIn_eq, lives])]

/-- What the pump knows of the time is past. -/
structure Past (now : Nat) (s : Shed) : Prop where
  timed : Timed now s.puq.list
  rue : ∀ r, s.rue = some r → r ≤ now

theorem Past.mono {now now' : Nat} {s : Shed} (h : Past now s) (hle : now ≤ now') :
    Past now' s :=
  ⟨fun e he hl => (h.timed e he hl).trans hle, fun r hr => (h.rue r hr).trans hle⟩

/-- Nothing but the transmissions of the packets changed, and what is not recorded of them. -/
structure Sends (now : Nat) (s t : Shed) : Prop where
  edit : Edit now s.puq.list t.puq.list s.nif t.nif
  nus : t.nus = s.nus
  diq : t.diq = s.diq
  pyz : t.pyz = s.pyz
  rue : t.rue = s.rue

theorem Sends.refl (now : Nat) (s : Shed) : Sends now s s := ⟨Edit.refl .., rfl, rfl, rfl, rfl⟩

theorem Sends.filed {flap : Nat → Nat} {now : Nat} {s t : Shed} (h : Sends now s t)
    (hs : Filed flap s) : Filed flap t := by
  have ht : tags t = tags s := h.edit.tags
  refine ⟨?_, ?_, ?_, ?_⟩
  · rw [ht]
    exact hs.order
  · rw [ht, h.nus]
    exact hs.fresh
  · have hc := h.edit.count
    have hn := hs.nif
    simp only [lives] at hc
    omega
  · rw [h.diq, ht]
    exact hs.diq

theorem Sends.sound {flap : Nat → Nat} {now : Nat} {fly : List (Soup × Nat)} {s t : Shed}
    (h : Sends now s t) (hs : Sound flap fly s) (hcaw : 2 ≤ t.caw) : Sound flap fly t := by
  have ht : tags t = tags s := h.edit.tags
  refine ⟨h.filed hs.toFiled, ?_, ?_, hcaw⟩
  · rw [ht]
    exact hs.puq
  · rw [h.pyz]
    exact hs.pyz

theorem Sends.past {now : Nat} {s t : Shed} (h : Sends now s t) (hs : Past now s) : Past now t :=
  ⟨h.edit.timed hs.timed, by rw [h.rue]; exact hs.rue⟩

theorem harv_sends (now : Nat) (s : Shed) : Sends now s (harv now s).2 := by
  unfold harv
  split
  · exact ⟨Edit.refl .., rfl, rfl, rfl, rfl⟩
  · split
    · have he := harvApse_edit now s.puq ⟨s.caw - s.nif, [], s.nif⟩
      simp only
      split
      · exact ⟨he, rfl, rfl, rfl, rfl⟩
      · exact ⟨he, rfl, rfl, rfl, rfl⟩
    · exact Sends.refl ..

theorem harv_caw (now : Nat) (s : Shed) : (harv now s).2.caw = s.caw := by
  unfold harv
  split
  · rfl
  · split
    · simp only
      split <;> rfl
    · rfl

theorem wept_sends {flap : Nat → Nat} {s : Shed} (now fip lap : Nat) (hs : Filed flap s) :
    ∃ t, wept fip lap s = some t ∧ Sends now s t ∧ t.caw = s.caw := by
  obtain ⟨puq, nif, hw, he⟩ := weptApse_edit now fip lap s.puq s.nif (by rw [hs.nif, lives])
  exact ⟨{ s with puq := puq, nif := nif }, by simp [wept, hw], ⟨he, rfl, rfl, rfl, rfl⟩, rfl⟩

/-! ### Sending -/

/-- One packet more. -/
def whapOne (mug : Noun → Nat) (flap : Nat → Nat) (gom : Soup) (pac : Nat) (s : Shed) : Shed :=
  whapLoop mug flap gom [pac] s

theorem tags_whapOne (mug : Noun → Nat) (flap : Nat → Nat) (gom : Soup) (pac : Nat) (s : Shed) :
    tags (whapOne mug flap gom pac s) = tags s ++ [(s.nus, gom, pac)] := by
  simp [tags, whapOne, whapLoop, tag]

theorem whapOne_filed (mug : Noun → Nat) {flap : Nat → Nat} (gom : Soup) {pac : Nat} {s : Shed}
    (hs : Filed flap s) (hnew : ∀ x ∈ tags s, flap x.2.2 ≠ flap pac) :
    Filed flap (whapOne mug flap gom pac s) := by
  refine ⟨?_, ?_, ?_, ?_⟩
  · rw [tags_whapOne, List.pairwise_append]
    refine ⟨hs.order, List.pairwise_singleton _ _, ?_⟩
    intro x hx y hy
    rw [List.mem_singleton.mp hy]
    exact hs.fresh x hx
  · intro x hx
    rw [tags_whapOne, List.mem_append, List.mem_singleton] at hx
    show x.1 < s.nus + 1
    rcases hx with hx | rfl
    · exact (hs.fresh x hx).trans (Nat.lt_succ_self _)
    · exact Nat.lt_succ_self _
  · simp [whapOne, whapLoop, hs.nif]
  · intro fap num
    have hdiq : (whapOne mug flap gom pac s).diq = s.diq.insert (flap pac) s.nus := rfl
    rw [tags_whapOne, hdiq, lookup_insert_eq]
    simp only [List.mem_append, List.mem_singleton]
    by_cases hf : fap = flap pac
    · rw [if_pos hf, Option.some.injEq]
      constructor
      · rintro rfl
        exact ⟨_, .inr rfl, hf.symm, rfl⟩
      · rintro ⟨x, hx | rfl, hfx, hn⟩
        · exact absurd (hfx.trans hf) (hnew x hx)
        · exact hn
    · rw [if_neg hf, hs.diq fap num]
      constructor
      · rintro ⟨x, hx, hfx⟩
        exact ⟨x, .inl hx, hfx⟩
      · rintro ⟨x, hx | rfl, hfx, hn⟩
        · exact ⟨x, hx, hfx, hn⟩
        · exact absurd hfx.symm hf

/-- What the loop of `whap` leaves: the packets are at the end of the queue. -/
structure Whaps (flap : Nat → Nat) (gom : Soup) (wyv : List Nat) (s t : Shed) : Prop where
  filed : Filed flap t
  puq : (tags t).map Prod.snd = (tags s).map Prod.snd ++ wyv.map fun pac => (gom, pac)
  pyz : t.pyz = s.pyz
  caw : t.caw = s.caw
  past : ∀ now, Past now s → Past now t

theorem whapLoop_whaps (mug : Noun → Nat) {flap : Nat → Nat} (gom : Soup) {wyv : List Nat}
    {s : Shed} (hs : Filed flap s) (hnd : (wyv.map flap).Nodup)
    (hnew : ∀ pac ∈ wyv, ∀ x ∈ tags s, flap x.2.2 ≠ flap pac) :
    Whaps flap gom wyv s (whapLoop mug flap gom wyv s) := by
  induction wyv generalizing s with
  | nil => exact ⟨hs, by simp [whapLoop], rfl, rfl, fun _ h => h⟩
  | cons pac wyv ih =>
    rw [List.map_cons, List.nodup_cons] at hnd
    have hone := whapOne_filed mug gom hs (hnew pac (by simp))
    have hrest := ih hone hnd.2 (by
      intro q hq x hx
      rw [tags_whapOne, List.mem_append, List.mem_singleton] at hx
      rcases hx with hx | rfl
      · exact hnew q (by simp [hq]) x hx
      · intro he
        exact hnd.1 (List.mem_map.mpr ⟨q, hq, he.symm⟩))
    refine ⟨hrest.filed, ?_, hrest.pyz, hrest.caw, ?_⟩
    · have h := hrest.puq
      rw [tags_whapOne] at h
      rw [show whapLoop mug flap gom (pac :: wyv) s =
        whapLoop mug flap gom wyv (whapOne mug flap gom pac s) from rfl, h]
      simp
    · intro now hp
      refine hrest.past now ⟨?_, hp.rue⟩
      have hl : (whapOne mug flap gom pac s).puq.list =
          s.puq.list ++ [(s.nus, ⟨gom, 0, false, epoch, pac⟩)] := by
        simp [whapOne, whapLoop]
      rw [hl, timed_append]
      exact ⟨hp.timed, by simp [Timed]⟩

theorem whap_sound (mug : Noun → Nat) {flap : Nat → Nat} {now : Nat} {gom : Soup} {wyv : List Nat}
    {fly : List (Soup × Nat)} {s : Shed} (hs : Sound flap fly s) (hp : Past now s)
    (hne : wyv ≠ []) (hgom : gom ∉ fly.map Prod.fst) (hnd : (wyv.map flap).Nodup)
    (hnew : ∀ pac ∈ wyv, ∀ x ∈ fly, flap x.2 ≠ flap pac) :
    Sound flap (fly ++ wyv.map fun pac => (gom, pac)) (whap mug flap now gom wyv s).2 ∧
      Past now (whap mug flap now gom wyv s).2 := by
  have hs0 : Filed flap { s with pyz := s.pyz.insert gom wyv.length } :=
    ⟨hs.order, hs.fresh, hs.nif, hs.diq⟩
  have hw := whapLoop_whaps mug gom hs0 hnd (by
    intro pac hpac x hx
    exact hnew pac hpac x.2 (by rw [← hs.puq]; exact List.mem_map_of_mem hx))
  have hsend := harv_sends now (whapLoop mug flap gom wyv { s with pyz := s.pyz.insert gom wyv.length })
  refine ⟨hsend.sound ⟨hw.filed, ?_, ?_, ?_⟩ ?_, hsend.past (hw.past now ⟨hp.timed, hp.rue⟩)⟩
  · rw [hw.puq]
    exact congrArg (· ++ _) hs.puq
  · intro g
    rw [hw.pyz, lookup_insert_eq, hs.pyz g]
    by_cases hg : g = gom
    · have h0 : fly.countP (fun x => x.1 = gom) = 0 := by
        rw [List.countP_eq_zero]
        intro x hx hxg
        exact hgom (List.mem_map.mpr ⟨x, hx, of_decide_eq_true hxg⟩)
      have hmem : gom ∈ (fly ++ wyv.map fun pac => (gom, pac)).map Prod.fst := by
        obtain ⟨pac, hpac⟩ := List.exists_mem_of_ne_nil wyv hne
        simp only [List.map_append, List.map_map, List.mem_append, List.mem_map]
        exact .inr ⟨pac, hpac, rfl⟩
      subst hg
      rw [if_pos rfl, if_pos hmem, List.countP_append, h0, List.countP_map]
      simp [Function.comp_def]
    · have h0 : (wyv.map fun pac => (gom, pac)).countP (fun x => x.1 = g) = 0 := by
        simp [List.countP_eq_zero, Ne.symm hg]
      have hiff : g ∈ (fly ++ wyv.map fun pac => (gom, pac)).map Prod.fst ↔
          g ∈ fly.map Prod.fst := by
        have hw : g ∉ (wyv.map fun pac => (gom, pac)).map Prod.fst := by
          simp only [List.map_map, List.mem_map, Function.comp_apply, not_exists, not_and]
          intro _ _ he
          exact hg he.symm
        rw [List.map_append, List.mem_append, or_iff_left hw]
      rw [if_neg hg, List.countP_append, h0, Nat.add_zero]
      simp only [hiff]
  · rw [hw.caw]
    exact hs.caw
  · rw [harv_caw, hw.caw]
    exact hs.caw

/-! ### Acknowledgment and timeout -/

/-- What is reported at the acknowledgment of a hash, when the packets `fly` are out: the message
of the packet, if no other packet of it is out. -/
def report (flap : Nat → Nat) (fly : List (Soup × Nat)) (fap : Nat) : Option Soup :=
  (fly.find? fun x => flap x.2 = fap).bind fun x =>
    if fly.countP (fun y => y.1 = x.1) = 1 then some x.1 else none

theorem mem_fst_iff {fly : List (Soup × Nat)} {g : Soup} :
    g ∈ fly.map Prod.fst ↔ fly.countP (fun x => x.1 = g) ≠ 0 := by
  rw [Nat.ne_zero_iff_zero_lt, List.countP_pos_iff, List.mem_map]
  simp

theorem tags_split {s : Shed} {pre post : List Entry} {e : Entry}
    (h : s.puq.list = pre ++ e :: post) :
    tags s = pre.map tag ++ tag e :: post.map tag := by
  simp [tags, h]

theorem filter_split {pre post : List Entry} {e : Entry}
    (h : (pre ++ e :: post).Pairwise fun a b => a.1 < b.1) :
    (pre ++ e :: post).filter (fun x => x.1 ≠ e.1) = pre ++ post := by
  rw [List.pairwise_append, List.pairwise_cons] at h
  obtain ⟨-, ⟨hpost, -⟩, hpre⟩ := h
  have h1 : ∀ x ∈ pre, x.1 ≠ e.1 := fun x hx => Nat.ne_of_lt (hpre x hx e (by simp))
  have h2 : ∀ x ∈ post, x.1 ≠ e.1 := fun x hx => Nat.ne_of_gt (hpost x hx)
  rw [List.filter_append, List.filter_cons, filter_ne_self h1, filter_ne_self h2]
  simp

/-- The packets in the queue have different hashes. -/
theorem Filed.flap_inj {flap : Nat → Nat} {s : Shed} (hs : Filed flap s)
    {x y : Nat × Soup × Nat} (hx : x ∈ tags s) (hy : y ∈ tags s)
    (h : flap x.2.2 = flap y.2.2) : x.1 = y.1 := by
  have h1 := (hs.diq (flap x.2.2) x.1).mpr ⟨x, hx, rfl, rfl⟩
  have h2 := (hs.diq (flap x.2.2) y.1).mpr ⟨y, hy, h.symm, rfl⟩
  exact Option.some.inj (h1.symm.trans h2)

/-- The records without one entry. -/
theorem Filed.drop {flap : Nat → Nat} {s t : Shed} {pre post : List Entry} {e : Entry}
    (hs : Filed flap s) (hes : s.puq.list = pre ++ e :: post) (ht : t.puq.list = pre ++ post)
    (hnus : t.nus = s.nus) (hnif : t.nif = s.nif - e.2.live)
    (hdiq : t.diq = s.diq.erase (flap e.2.pac)) : Filed flap t := by
  have hts := tags_split hes
  have htt : tags t = pre.map tag ++ post.map tag := by rw [tags, ht, List.map_append]
  have hsub : ∀ x ∈ tags t, x ∈ tags s := by
    intro x hx
    rw [htt, List.mem_append] at hx
    rw [hts, List.mem_append, List.mem_cons]
    exact hx.imp_right .inr
  have hord := hs.order
  rw [hts, List.pairwise_append, List.pairwise_cons] at hord
  obtain ⟨hpre, ⟨hepost, hpost⟩, hcross⟩ := hord
  have hne : ∀ x ∈ tags t, x.1 ≠ e.1 := by
    intro x hx
    rw [htt, List.mem_append] at hx
    rcases hx with hx | hx
    · exact Nat.ne_of_lt (hcross x hx (tag e) (by simp))
    · exact Nat.ne_of_gt (hepost x hx)
  refine ⟨?_, ?_, ?_, ?_⟩
  · rw [htt, List.pairwise_append]
    exact ⟨hpre, hpost, fun x hx y hy => hcross x hx y (by simp [hy])⟩
  · intro x hx
    rw [hnus]
    exact hs.fresh x (hsub x hx)
  · have hn : s.nif = lives s.puq.list := hs.nif
    rw [hes, lives_append, lives_cons] at hn
    show t.nif = lives t.puq.list
    rw [hnif, hn, ht, lives_append]
    omega
  · have hte : tag e ∈ tags s := by rw [hts]; simp
    intro fap num
    rw [hdiq, lookup_erase_eq]
    by_cases hf : fap = flap e.2.pac
    · rw [if_pos hf]
      refine iff_of_false (by simp) ?_
      rintro ⟨x, hx, hfx, -⟩
      exact hne x hx (hs.flap_inj (hsub x hx) hte (hfx.trans hf))
    · rw [if_neg hf, hs.diq fap num]
      constructor
      · rintro ⟨x, hx, hfx, hnum⟩
        refine ⟨x, ?_, hfx, hnum⟩
        rw [hts, List.mem_append, List.mem_cons] at hx
        rw [htt, List.mem_append]
        rcases hx with hx | rfl | hx
        · exact .inl hx
        · exact absurd hfx.symm hf
        · exact .inr hx
      · rintro ⟨x, hx, hfx⟩
        exact ⟨x, hsub x hx, hfx⟩

/-- The entry with an acknowledged hash. -/
theorem Filed.find {flap : Nat → Nat} {fap num : Nat} {s : Shed} (hs : Filed flap s)
    (hsun : s.diq.lookup fap = some num) :
    ∃ e pre post, s.puq.list = pre ++ e :: post ∧ e.1 = num ∧ flap e.2.pac = fap ∧
      (∀ y ∈ pre, flap y.2.pac ≠ fap) ∧ ∀ y ∈ post, flap y.2.pac ≠ fap := by
  obtain ⟨x, hx, hfx, hxn⟩ := (hs.diq fap num).mp hsun
  obtain ⟨e, he, rfl⟩ := List.mem_map.mp hx
  obtain ⟨pre, post, hes⟩ := List.append_of_mem he
  have hord := hs.order
  rw [tags_split hes, List.pairwise_append, List.pairwise_cons] at hord
  have hmem : ∀ y, y ∈ pre ∨ y ∈ post → tag y ∈ tags s := by
    intro y hy
    refine List.mem_map_of_mem ?_
    rw [hes, List.mem_append, List.mem_cons]
    exact hy.imp_right .inr
  refine ⟨e, pre, post, hes, hxn, hfx, ?_, ?_⟩
  · intro y hy hf
    have hlt := hord.2.2 (tag y) (List.mem_map_of_mem hy) (tag e) (by simp)
    exact absurd (hs.flap_inj (hmem y (.inl hy)) hx (hf.trans hfx.symm)) (Nat.ne_of_lt hlt)
  · intro y hy hf
    have hlt := hord.2.1.1 (tag y) (List.mem_map_of_mem hy)
    exact absurd (hs.flap_inj (hmem y (.inr hy)) hx (hf.trans hfx.symm)) (Nat.ne_of_gt hlt)

/-- The message and the data of the packets, without the one of a hash. -/
theorem filter_flap {flap : Nat → Nat} {fap : Nat} {xs ys : List (Soup × Nat)} {x : Soup × Nat}
    (hx : flap x.2 = fap) (hxs : ∀ y ∈ xs, flap y.2 ≠ fap) (hys : ∀ y ∈ ys, flap y.2 ≠ fap) :
    (xs ++ x :: ys).filter (fun y => flap y.2 ≠ fap) = xs ++ ys := by
  have hself : ∀ zs : List (Soup × Nat), (∀ y ∈ zs, flap y.2 ≠ fap) →
      zs.filter (fun y => flap y.2 ≠ fap) = zs :=
    fun zs hzs => List.filter_eq_self.mpr fun y hy => decide_eq_true (hzs y hy)
  rw [List.filter_append, List.filter_cons, hself xs hxs, hself ys hys, if_neg (by simp [hx])]

theorem report_eq {flap : Nat → Nat} {fap : Nat} {xs ys : List (Soup × Nat)} {x : Soup × Nat}
    (hx : flap x.2 = fap) (hxs : ∀ y ∈ xs, flap y.2 ≠ fap) :
    report flap (xs ++ x :: ys) fap =
      if (xs ++ ys).countP (fun y => y.1 = x.1) = 0 then some x.1 else none := by
  have hnone : xs.find? (fun y => flap y.2 = fap) = none :=
    List.find?_eq_none.mpr fun y hy => by simpa using hxs y hy
  have hcount : (xs ++ x :: ys).countP (fun y => y.1 = x.1) =
      (xs ++ ys).countP (fun y => y.1 = x.1) + 1 := by
    simp only [List.countP_append, List.countP_cons, decide_true, if_true]
    omega
  rw [report, List.find?_append, hnone, List.find?_cons_of_pos (by simp [hx])]
  simp only [Option.none_or, Option.bind_some, hcount, Nat.add_eq_right]

/-- The count of its message goes down. -/
theorem pyz_drop {pyz : Dict Soup Nat} {xs ys : List (Soup × Nat)} {x : Soup × Nat} {k : Nat}
    (h : ∀ g, pyz.lookup g = if g ∈ (xs ++ x :: ys).map Prod.fst then
      some ((xs ++ x :: ys).countP fun y => y.1 = g) else none)
    (hk : (xs ++ ys).countP (fun y => y.1 = x.1) = k) (g : Soup) :
    (if k = 0 then pyz.erase x.1 else pyz.insert x.1 k).lookup g =
      if g ∈ (xs ++ ys).map Prod.fst then some ((xs ++ ys).countP fun y => y.1 = g) else none := by
  by_cases hg : g = x.1
  · subst hg
    by_cases h0 : k = 0
    · have hnot : x.1 ∉ (xs ++ ys).map Prod.fst := fun hm => mem_fst_iff.mp hm (hk.trans h0)
      rw [if_pos h0, lookup_erase_eq, if_pos rfl, if_neg hnot]
    · have hmem : x.1 ∈ (xs ++ ys).map Prod.fst := mem_fst_iff.mpr (hk ▸ h0)
      rw [if_neg h0, lookup_insert_eq, if_pos rfl, if_pos hmem, hk]
  · have hmem : g ∈ (xs ++ x :: ys).map Prod.fst ↔ g ∈ (xs ++ ys).map Prod.fst := by
      simp [hg]
    have hcount : (xs ++ x :: ys).countP (fun y => y.1 = g) =
        (xs ++ ys).countP (fun y => y.1 = g) := by
      simp [List.countP_append, Ne.symm hg]
    have hlook : (if k = 0 then pyz.erase x.1 else pyz.insert x.1 k).lookup g = pyz.lookup g := by
      split
      · rw [lookup_erase_eq, if_neg hg]
      · rw [lookup_insert_eq, if_neg hg]
    rw [hlook, h g, hcount]
    simp only [hmem]

/-- An acknowledged packet leaves the pump, and is reported if its message has no other. -/
theorem bine_sound (mug : Noun → Nat) {flap : Nat → Nat} {now fap num : Nat}
    {fly : List (Soup × Nat)} {s : Shed} (hs : Sound flap fly s) (hp : Past now s)
    (hsun : s.diq.lookup fap = some num) :
    ∃ t, bine mug now num { s with diq := s.diq.erase fap } s.puq = some (report flap fly fap, t) ∧
      Sound flap (fly.filter fun x => flap x.2 ≠ fap) t ∧ Past now t := by
  obtain ⟨e, pre, post, hes, rfl, rfl, hpre, hpost⟩ := hs.toFiled.find hsun
  have hord : s.puq.list.Pairwise fun a b => a.1 < b.1 := by
    have := hs.order
    rwa [tags, List.pairwise_map] at this
  have he : e ∈ s.puq.list := by simp [hes]
  -- the packets that are out, around this one
  let xs := pre.map fun e => (tag e).2
  let ys := post.map fun e => (tag e).2
  have hfly : fly = xs ++ (tag e).2 :: ys := by
    rw [← hs.puq, tags_split hes]
    simp [xs, ys, Function.comp_def]
  have hxs : ∀ y ∈ xs, flap y.2 ≠ flap e.2.pac := List.forall_mem_map.mpr hpre
  have hys : ∀ y ∈ ys, flap y.2 ≠ flap e.2.pac := List.forall_mem_map.mpr hpost
  obtain ⟨k, hk⟩ : ∃ k, (xs ++ ys).countP (fun y => y.1 = (tag e).2.1) = k := ⟨_, rfl⟩
  have hcount : s.pyz.lookup e.2.gom = some (k + 1) := by
    rw [hs.pyz, hfly, if_pos (by simp [tag]), ← hk]
    simp only [List.countP_append, List.countP_cons, tag, decide_true, if_true]
    rfl
  obtain ⟨rtt, puq, hb, hq⟩ := bine_spec (s := { s with diq := s.diq.erase (flap e.2.pac) }) mug
    hord he (hs.nif ▸ mem_lives he) (hp.timed e he) hcount
  rw [hes, filter_split (hes ▸ hord)] at hq
  have hfap : flap (tag e).2.2 = flap e.2.pac := rfl
  rw [hfly, filter_flap hfap hxs hys, report_eq hfap hxs, hk]
  refine ⟨_, hb, ⟨hs.toFiled.drop hes hq rfl rfl rfl, ?_, ?_, hs.caw⟩, ?_, hp.rue⟩
  · simp [tags, hq, xs, ys, Function.comp_def]
  · exact pyz_drop (hfly ▸ hs.pyz) hk
  · have htimed := hp.timed
    rw [hes, timed_append, timed_cons] at htimed
    rw [hq]
    exact timed_append.mpr ⟨htimed.1, htimed.2.2⟩

theorem bock_sound (mug : Noun → Nat) {flap : Nat → Nat} {now fap num : Nat}
    {fly : List (Soup × Nat)} {s : Shed} (hs : Sound flap fly s) (hp : Past now s)
    (hsun : s.diq.lookup fap = some num) :
    ∃ t, bock mug now num { s with diq := s.diq.erase fap } = some (report flap fly fap, t) ∧
      Sound flap (fly.filter fun x => flap x.2 ≠ fap) t ∧ Past now t := by
  obtain ⟨t, hb, ht, hpt⟩ := bine_sound mug hs hp hsun
  by_cases hnum : num > t.nep
  · -- a hole: what was sent before this packet goes out again
    have ht' : Sends now t
        { t with nep := num, cag := max 2 (t.caw / 2), caw := max 2 (t.caw / 2) } :=
      ⟨Edit.refl .., rfl, rfl, rfl, rfl⟩
    obtain ⟨u, hu, hsend, hcaw⟩ := wept_sends now t.nep num (ht'.filed ht.toFiled)
    have hu2 : Sends now u (beet u) := ⟨Edit.refl .., rfl, rfl, rfl, rfl⟩
    have hcaw' : 2 ≤ u.caw := by
      rw [hcaw]
      exact le_max_left ..
    have hsu := hsend.sound (ht'.sound ht (le_max_left ..)) hcaw'
    refine ⟨beet u, ?_, hu2.sound hsu hcaw', hu2.past (hsend.past (ht'.past hpt))⟩
    simp [bock, hb, hnum, hu]
  · generalize hc : (if t.caw < t.cag then t.caw + 1
      else t.caw + if mug (.atom now) % t.caw = 0 then 1 else 0) = c
    have hle : 2 ≤ c := by
      have := ht.caw
      rw [← hc]
      split <;> omega
    have hgrow : Sends now t { t with caw := c } := ⟨Edit.refl .., rfl, rfl, rfl, rfl⟩
    have hbeet : Sends now t (beet { t with caw := c }) := ⟨Edit.refl .., rfl, rfl, rfl, rfl⟩
    by_cases heq : num = t.nep
    · subst heq
      exact ⟨_, by simp [bock, hb, hc], hbeet.sound ht hle, hbeet.past hpt⟩
    · exact ⟨_, by simp [bock, hb, hnum, hc, heq], hgrow.sound ht hle, hgrow.past hpt⟩

theorem harv_sound {flap : Nat → Nat} {now : Nat} {fly : List (Soup × Nat)} {s : Shed}
    (hs : Sound flap fly s) (hp : Past now s) :
    Sound flap fly (harv now s).2 ∧ Past now (harv now s).2 := by
  have h := harv_sends now s
  refine ⟨h.sound hs ?_, h.past hp⟩
  rw [harv_caw]
  exact hs.caw

theorem bilk_sound {flap : Nat → Nat} {now : Nat} {fly : List (Soup × Nat)} {s : Shed}
    (hs : Sound flap fly s) (hp : Past now s) :
    Sound flap fly (bilk now s) ∧ Past now (bilk now s) := by
  refine ⟨⟨⟨hs.order, hs.fresh, hs.nif, hs.diq⟩, hs.puq, hs.pyz, hs.caw⟩, hp.timed, ?_⟩
  rintro r hr
  exact (Option.some.inj hr).ge

theorem wack_sound {flap : Nat → Nat} {now : Nat} {fly : List (Soup × Nat)} {s : Shed}
    (hs : Sound flap fly s) (hp : Past now s) :
    ∃ out t, wack now s = some (out, t) ∧ Sound flap fly t ∧ Past now t := by
  unfold wack
  split
  · exact ⟨[], s, rfl, hs, hp⟩
  · split
    · obtain ⟨puq, nif, hw, he⟩ := weptApse_edit now 0 s.nus s.puq s.nif (by rw [hs.nif, lives])
      have hall : lives puq.list = 0 := by
        refine weptApse_all hw fun e he => ?_
        exact hs.fresh (tag e) (List.mem_map_of_mem he)
      have hnif : nif = 0 := by
        have hc := he.count
        have hn : s.nif = lives s.puq.list := hs.nif
        omega
      obtain ⟨far, hfar⟩ : ∃ far, days now s.rue = some far := by
        cases hr : s.rue with
        | none => exact ⟨1, rfl⟩
        | some r => exact ⟨_, by rw [days, sub_eq (hp.rue r hr)]; rfl⟩
      let u : Shed := { s with
        puq := puq, nif := 0, caw := 2
        rto := min (2 * s.rto) (min (120 * second) (16 * second * far)) }
      have hsend : Sends now s u := by
        rw [hnif] at he
        exact ⟨he, rfl, rfl, rfl, rfl⟩
      have hu := harv_sound (hsend.sound hs (Nat.le_refl 2)) (hsend.past hp)
      refine ⟨(harv now u).1, (harv now u).2, ?_, hu⟩
      simp [wept, hw, hnif, hfar, u]
    · exact ⟨[], s, rfl, hs, hp⟩

theorem bick_sound (mug : Noun → Nat) {flap : Nat → Nat} {now : Nat} (fap : Nat)
    {fly : List (Soup × Nat)} {s : Shed} (hs : Sound flap fly s) (hp : Past now s) :
    ∃ yop t, bick mug now fap s = some ((report flap fly fap, yop), t) ∧
      Sound flap (fly.filter fun x => flap x.2 ≠ fap) t ∧ Past now t := by
  unfold bick
  cases hsun : s.diq.lookup fap with
  | none =>
    -- no packet that is out has this hash
    have hno : ∀ x ∈ fly, flap x.2 ≠ fap := by
      intro x hx hf
      rw [← hs.puq] at hx
      obtain ⟨y, hy, rfl⟩ := List.mem_map.mp hx
      have := (hs.diq fap y.1).mpr ⟨y, hy, hf, rfl⟩
      simp [hsun] at this
    have hfind : fly.find? (fun x => flap x.2 = fap) = none :=
      List.find?_eq_none.mpr fun x hx => by simpa using hno x hx
    have hfil : fly.filter (fun x => flap x.2 ≠ fap) = fly :=
      List.filter_eq_self.mpr fun x hx => decide_eq_true (hno x hx)
    exact ⟨[], s, by rw [report, hfind]; rfl, hfil.symm ▸ hs, hp⟩
  | some num =>
    obtain ⟨t, hb, ht, hpt⟩ := bock_sound mug hs hp hsun
    have hh := harv_sound ht hpt
    exact ⟨(harv now t).1, (harv now t).2, by simp [hb], hh⟩

/-! ### The packets in the queue -/

theorem weptApse_tags {fip lap : Nat} {t t' : Qeu Entry} {nif nif' : Nat}
    (h : weptApse fip lap t nif = some (t', nif')) : t'.list.map tag = t.list.map tag := by
  induction t generalizing t' nif nif' with
  | nil =>
    simp only [weptApse, Option.some.injEq, Prod.mk.injEq] at h
    rw [← h.1]
  | node n l r ihl ihr =>
    rw [weptApse] at h
    split at h
    · obtain ⟨⟨l', k⟩, hl, h⟩ := Option.bind_eq_some_iff.mp h
      cases h
      simp [ihl hl]
    · split at h
      · obtain ⟨⟨r', k⟩, hr, h⟩ := Option.bind_eq_some_iff.mp h
        cases h
        simp [ihr hr]
      · obtain ⟨⟨r', k⟩, hr, h⟩ := Option.bind_eq_some_iff.mp h
        obtain ⟨m, -, h⟩ := Option.bind_eq_some_iff.mp h
        obtain ⟨⟨l', k'⟩, hl, h⟩ := Option.bind_eq_some_iff.mp h
        cases h
        simp [ihl hl, ihr hr, tag]

/-- What the queue holds, whatever else is in the records: numbered in order, with its hashes, and
of packets with the property `P`. -/
structure Stowed (flap : Nat → Nat) (P : Soup → Nat → Prop) (s : Shed) : Prop where
  order : (tags s).Pairwise fun a b => a.1 < b.1
  fresh : ∀ x ∈ tags s, x.1 < s.nus
  diq : ∀ fap num, s.diq.lookup fap = some num →
    num < s.nus ∧ ∀ x ∈ tags s, x.1 = num → flap x.2.2 = fap
  all : ∀ x ∈ tags s, P x.2.1 x.2.2

section stowed

variable {flap : Nat → Nat} {P Q : Soup → Nat → Prop} {s t : Shed}

theorem Stowed.mono (h : Stowed flap P s) (hpq : ∀ gom pac, P gom pac → Q gom pac) :
    Stowed flap Q s :=
  ⟨h.order, h.fresh, h.diq, fun x hx => hpq _ _ (h.all x hx)⟩

/-- Fewer packets, and fewer hashes. -/
theorem Stowed.sub (h : Stowed flap P s) (htags : (tags t).Sublist (tags s)) (hnus : t.nus = s.nus)
    (hdiq : ∀ fap num, t.diq.lookup fap = some num → s.diq.lookup fap = some num) :
    Stowed flap P t := by
  refine ⟨h.order.sublist htags, ?_, ?_, fun x hx => h.all x (htags.subset hx)⟩
  · intro x hx
    rw [hnus]
    exact h.fresh x (htags.subset hx)
  · intro fap num hl
    obtain ⟨hlt, hall⟩ := h.diq fap num (hdiq fap num hl)
    rw [hnus]
    exact ⟨hlt, fun x hx => hall x (htags.subset hx)⟩

theorem Stowed.sends {now : Nat} (h : Stowed flap P s) (hs : Sends now s t) : Stowed flap P t := by
  have ht : tags t = tags s := hs.edit.tags
  exact h.sub (ht ▸ List.Sublist.refl _) hs.nus fun fap num => by rw [hs.diq]; exact id

theorem ahoy_stowed : Stowed flap P ahoy := by
  refine ⟨List.Pairwise.nil, by simp [tags, ahoy], by simp [ahoy], by simp [tags, ahoy]⟩

theorem bilk_stowed (now : Nat) (h : Stowed flap P s) : Stowed flap P (bilk now s) :=
  ⟨h.order, h.fresh, h.diq, h.all⟩

/-- What is sent is in the queue. -/
theorem harvApse_rub {now pac : Nat} {t : Qeu Entry} {c : Reap}
    (h : pac ∈ (harvApse now t c).2.rub) : pac ∈ c.rub ∨ ∃ x ∈ t.list.map tag, x.2.2 = pac := by
  induction t generalizing c with
  | nil => exact .inl h
  | node n l r ihl ihr =>
    rw [harvApse] at h
    split at h
    · exact .inl h
    · have hin : ∀ x, (x ∈ r.list.map tag ∨ x = tag n ∨ x ∈ l.list.map tag) →
          x ∈ (Qeu.node n l r).list.map tag := by
        intro x hx
        simpa using hx
      rcases ihl h with h | ⟨x, hx, he⟩
      · have hmid : pac ∈ (harvApse now r c).2.rub ∨ pac = n.2.pac := by
          simp only [reapAt] at h
          split at h
          · exact .inl h
          · split at h
            · exact .inl h
            · exact (List.mem_cons.mp h).symm
        rcases hmid with h | rfl
        · rcases ihr h with h | ⟨x, hx, he⟩
          · exact .inl h
          · exact .inr ⟨x, hin x (.inl hx), he⟩
        · exact .inr ⟨tag n, hin _ (.inr (.inl rfl)), rfl⟩
      · exact .inr ⟨x, hin x (.inr (.inr hx)), he⟩

theorem harv_out {now pac : Nat} (h : pac ∈ (harv now s).1) : ∃ x ∈ tags s, x.2.2 = pac := by
  rw [harv] at h
  split at h
  · simp at h
  · split at h
    · dsimp only at h
      split at h
      · simp at h
      · have hrub : pac ∈ (harvApse now s.puq ⟨s.caw - s.nif, [], s.nif⟩).2.rub := by simpa using h
        exact (harvApse_rub hrub).resolve_left List.not_mem_nil
    · simp at h

/-- The entry that `bine` takes out, if it comes to an end. -/
theorem bine_inv {mug : Noun → Nat} {now num : Nat} {t : Qeu Entry} {gub : Option Soup} {u : Shed}
    (h : bine mug now num s t = some (gub, u)) :
    (u.puq.list.Sublist t.list ∧ u.nus = s.nus ∧ u.diq = s.diq) ∧
      ∃ e ∈ t.list, e.1 = num ∧ ∀ gom, gub = some gom → gom = e.2.gom ∧ s.pyz.lookup gom = some 1 := by
  induction t generalizing gub u with
  | nil => cases h
  | node n l r ihl ihr =>
    rw [bine] at h
    split at h
    · split at h
      · obtain ⟨⟨gub', lef⟩, hl, h⟩ := Option.bind_eq_some_iff.mp h
        cases h
        obtain ⟨⟨hsub, hrest⟩, e, he, hrep⟩ := ihl hl
        refine ⟨⟨?_, hrest⟩, e, by simp [he], hrep⟩
        simpa using hsub
      · obtain ⟨⟨gub', rig⟩, hr, h⟩ := Option.bind_eq_some_iff.mp h
        cases h
        obtain ⟨⟨hsub, hrest⟩, e, he, hrep⟩ := ihr hr
        refine ⟨⟨?_, hrest⟩, e, by simp [he], hrep⟩
        simpa using hsub
    · next hnum =>
      obtain ⟨rtt, -, h⟩ := Option.bind_eq_some_iff.mp h
      obtain ⟨nif, -, h⟩ := Option.bind_eq_some_iff.mp h
      obtain ⟨lez, hlez, h⟩ := Option.bind_eq_some_iff.mp h
      obtain ⟨puq, hnap, h⟩ := Option.bind_eq_some_iff.mp h
      obtain ⟨k, hk, hsub⟩ := Option.bind_eq_some_iff.mp hlez
      obtain ⟨puq', hp, hq⟩ := Qeu.nap_spec (entryPrior mug) n l r
      obtain rfl : puq = puq' := Option.some.inj (hnap.symm.trans hp)
      have hlist : puq.list.Sublist (Qeu.node n l r).list := by
        rw [hq, Qeu.list_node]
        exact (List.Sublist.refl _).append (List.sublist_cons_self _ _)
      cases lez with
      | zero =>
        cases h
        refine ⟨⟨hlist, rfl, rfl⟩, n, by simp, (not_not.mp hnum).symm, ?_⟩
        intro gom hgom
        obtain rfl : n.2.gom = gom := Option.some.inj hgom
        obtain ⟨hle, he⟩ := Option.ite_none_right_eq_some.mp hsub
        have hone : k = 1 := by
          have := Option.some.inj he
          omega
        exact ⟨rfl, hone ▸ hk⟩
      | succ lez =>
        cases h
        exact ⟨⟨hlist, rfl, rfl⟩, n, by simp, (not_not.mp hnum).symm, fun gom hgom => by cases hgom⟩

theorem wept_inv {fip lap : Nat} (h : wept fip lap s = some t) :
    tags t = tags s ∧ t.nus = s.nus ∧ t.diq = s.diq := by
  obtain ⟨⟨puq, nif⟩, hw, h⟩ := Option.bind_eq_some_iff.mp h
  cases h
  exact ⟨weptApse_tags hw, rfl, rfl⟩

/-- The message of which the packet with a hash is the last that is out. -/
def lastOf (s : Shed) (fap : Nat) : Option Soup := do
  let num ← s.diq.lookup fap
  let x ← (tags s).find? fun x => x.1 = num
  if s.pyz.lookup x.2.1 = some 1 then some x.2.1 else none

/-- What `bock` takes out of the queue, if it comes to an end. -/
theorem bock_inv {mug : Noun → Nat} {now num : Nat} {gub : Option Soup}
    (h : bock mug now num s = some (gub, t)) :
    ((tags t).Sublist (tags s) ∧ t.nus = s.nus ∧ t.diq = s.diq) ∧
      ∃ x ∈ tags s, x.1 = num ∧ ∀ gom, gub = some gom → gom = x.2.1 ∧ s.pyz.lookup gom = some 1 := by
  obtain ⟨⟨gym, u⟩, hb, h⟩ := Option.bind_eq_some_iff.mp h
  obtain ⟨⟨hsub, hnus, hdiq⟩, e, he, hnum, hrep⟩ := bine_inv hb
  have hx : tag e ∈ tags s := List.mem_map_of_mem he
  have hut : (tags u).Sublist (tags s) := hsub.map tag
  dsimp only at h
  split at h
  · obtain ⟨v, hw, h⟩ := Option.bind_eq_some_iff.mp h
    cases h
    obtain ⟨htags, hnus', hdiq'⟩ := wept_inv hw
    have hbeet : tags (beet v) = tags u := htags
    exact ⟨⟨hbeet ▸ hut, hnus'.trans hnus, hdiq'.trans hdiq⟩, tag e, hx, hnum, hrep⟩
  · split at h
    · cases h
      exact ⟨⟨hut, hnus, hdiq⟩, tag e, hx, hnum, hrep⟩
    · cases h
      exact ⟨⟨hut, hnus, hdiq⟩, tag e, hx, hnum, hrep⟩

/-- An acknowledged hash: it is of no packet, or the packet leaves the queue, and is the one that
`lastOf` finds if a message is reported. -/
theorem bick_inv {mug : Noun → Nat} {now fap : Nat} {gub : Option Soup} {yop : List Nat}
    (hs : Stowed flap P s) (h : bick mug now fap s = some ((gub, yop), t)) :
    Stowed flap P t ∧ (∀ pac ∈ yop, ∃ x ∈ tags s, x.2.2 = pac) ∧
      ∀ gom, gub = some gom → lastOf s fap = some gom ∧ ∃ x ∈ tags s, x.2.1 = gom ∧ flap x.2.2 = fap := by
  rw [bick] at h
  split at h
  · cases h
    exact ⟨hs, by simp, by simp⟩
  · next num hnum =>
    obtain ⟨⟨gym, u⟩, hb, h⟩ := Option.bind_eq_some_iff.mp h
    cases h
    obtain ⟨⟨hsub, hnus, hdiq⟩, x, hx, rfl, hrep⟩ := bock_inv hb
    have hut : (tags u).Sublist (tags s) := hsub
    have hx : x ∈ tags s := hx
    have hu : Stowed flap P u := by
      refine hs.sub hut hnus fun f n hl => ?_
      rw [hdiq, lookup_erase_eq] at hl
      split at hl
      · cases hl
      · exact hl
    refine ⟨hu.sends (harv_sends now u), ?_, ?_⟩
    · intro pac hpac
      obtain ⟨y, hy, he⟩ := harv_out hpac
      exact ⟨y, hut.subset hy, he⟩
    · rintro gom rfl
      obtain ⟨rfl, hone⟩ := hrep gom rfl
      refine ⟨?_, x, hx, rfl, (hs.diq fap x.1 hnum).2 x hx rfl⟩
      have hfind : (tags s).find? (fun y => y.1 = x.1) = some x := by
        obtain ⟨pre, post, hes⟩ := List.append_of_mem hx
        have hord := hs.order
        rw [hes, List.pairwise_append] at hord
        rw [hes, List.find?_append, List.find?_eq_none.mpr ?_, List.find?_cons_of_pos (by simp)]
        · rfl
        · intro y hy
          simpa using Nat.ne_of_lt (hord.2.2 y hy x (by simp))
      simp [lastOf, hnum, hfind, hone]

/-- A message that is sent. -/
theorem whapLoop_stowed (mug : Noun → Nat) {gom : Soup} {wyv : List Nat} (hs : Stowed flap P s)
    (hw : ∀ pac ∈ wyv, P gom pac) : Stowed flap P (whapLoop mug flap gom wyv s) := by
  induction wyv generalizing s with
  | nil => exact hs
  | cons pac wyv ih =>
    refine ih (s := whapOne mug flap gom pac s) ?_ fun q hq => hw q (List.mem_cons_of_mem _ hq)
    have hmem : ∀ x, x ∈ tags (whapOne mug flap gom pac s) ↔ x ∈ tags s ∨ x = (s.nus, gom, pac) := by
      intro x
      rw [tags_whapOne, List.mem_append, List.mem_singleton]
    have hnus : (whapOne mug flap gom pac s).nus = s.nus + 1 := rfl
    have hdiq : (whapOne mug flap gom pac s).diq = s.diq.insert (flap pac) s.nus := rfl
    refine ⟨?_, ?_, ?_, ?_⟩
    · rw [tags_whapOne, List.pairwise_append]
      refine ⟨hs.order, List.pairwise_singleton _ _, fun x hx y hy => ?_⟩
      rw [List.mem_singleton.mp hy]
      exact hs.fresh x hx
    · intro x hx
      rw [hnus]
      rcases (hmem x).mp hx with hx | rfl
      · exact (hs.fresh x hx).trans (Nat.lt_succ_self _)
      · exact Nat.lt_succ_self _
    · intro fap num hl
      rw [hdiq, lookup_insert_eq] at hl
      rw [hnus]
      split at hl
      · next hf =>
        obtain rfl : s.nus = num := Option.some.inj hl
        refine ⟨Nat.lt_succ_self _, fun x hx he => ?_⟩
        rcases (hmem x).mp hx with hx | rfl
        · exact absurd he (Nat.ne_of_lt (hs.fresh x hx))
        · exact hf.symm
      · obtain ⟨hlt, hall⟩ := hs.diq fap num hl
        refine ⟨hlt.trans (Nat.lt_succ_self _), fun x hx he => ?_⟩
        rcases (hmem x).mp hx with hx | rfl
        · exact hall x hx he
        · exact absurd he (Nat.ne_of_gt hlt)
    · intro x hx
      rcases (hmem x).mp hx with hx | rfl
      · exact hs.all x hx
      · exact hw pac List.mem_cons_self

theorem whap_stowed (mug : Noun → Nat) {now : Nat} {gom : Soup} {wyv : List Nat}
    (hs : Stowed flap P s) (hw : ∀ pac ∈ wyv, P gom pac) :
    Stowed flap P (whap mug flap now gom wyv s).2 ∧
      ∀ pac ∈ (whap mug flap now gom wyv s).1, ∃ gom, P gom pac := by
  have hs0 : Stowed flap P { s with pyz := s.pyz.insert gom wyv.length } :=
    ⟨hs.order, hs.fresh, hs.diq, hs.all⟩
  have hl := whapLoop_stowed mug hs0 hw
  refine ⟨hl.sends (harv_sends now _), fun pac hpac => ?_⟩
  obtain ⟨x, hx, rfl⟩ := harv_out hpac
  exact ⟨x.2.1, hl.all x hx⟩

theorem wack_stowed {now : Nat} {out : List Nat} (hs : Stowed flap P s)
    (h : wack now s = some (out, t)) :
    Stowed flap P t ∧ ∀ pac ∈ out, ∃ gom, P gom pac := by
  rw [wack] at h
  split at h
  · cases h
    exact ⟨hs, by simp⟩
  · split at h
    · obtain ⟨u, hw, h⟩ := Option.bind_eq_some_iff.mp h
      obtain ⟨htags, hnus, hdiq⟩ := wept_inv hw
      have hu : Stowed flap P u := hs.sub (htags ▸ List.Sublist.refl _) hnus fun _ _ hl => hdiq ▸ hl
      split at h
      · obtain ⟨far, -, h⟩ := Option.bind_eq_some_iff.mp h
        have hv : Stowed flap P { u with
            caw := 2, rto := min (2 * u.rto) (min (120 * second) (16 * second * far)) } :=
          ⟨hu.order, hu.fresh, hu.diq, hu.all⟩
        have he := Option.some.inj h
        rw [← show _ = t from congrArg Prod.snd he, ← show _ = out from congrArg Prod.fst he]
        refine ⟨hv.sends (harv_sends now _), fun pac hpac => ?_⟩
        obtain ⟨x, hx, rfl⟩ := harv_out hpac
        exact ⟨x.2.1, hv.all x hx⟩
      · cases h
    · cases h
      exact ⟨hs, by simp⟩

end stowed
/-! ### Every sequence of operations -/

/-- An operation on the pump. -/
inductive Op
  | whap (gom : Soup) (wyv : List Nat)
  | bick (fap : Nat)
  | bilk
  | wack
  | harv

/-- The message that an operation reports as complete, and the state after it. -/
def Op.apply (mug : Noun → Nat) (flap : Nat → Nat) (now : Nat) (s : Shed) :
    Op → Option (Option Soup × Shed)
  | .whap gom wyv => some (none, (Ames.whap mug flap now gom wyv s).2)
  | .bick fap => (Ames.bick mug now fap s).map fun x => (x.1.1, x.2)
  | .bilk => some (none, Ames.bilk now s)
  | .wack => (Ames.wack now s).map fun x => (none, x.2)
  | .harv => some (none, (Ames.harv now s).2)

/-- What a history of operations and their times, the latest first, reports and leaves. -/
def pump (mug : Noun → Nat) (flap : Nat → Nat) :
    List (Nat × Op) → Option (List (Option Soup) × Shed)
  | [] => some ([], ahoy)
  | (now, op) :: his => do
    let (out, s) ← pump mug flap his
    let (gub, s) ← op.apply mug flap now s
    return (gub :: out, s)

/-- The packets that an operation sends for the first time. -/
def Op.adds : Op → List (Soup × Nat)
  | .whap gom wyv => wyv.map fun pac => (gom, pac)
  | _ => []

/-- The packets that are out after an operation: an acknowledgment takes out those with its
hash. -/
def Op.leaves (flap : Nat → Nat) (fly : List (Soup × Nat)) : Op → List (Soup × Nat)
  | .whap gom wyv => fly ++ wyv.map fun pac => (gom, pac)
  | .bick fap => fly.filter fun x => flap x.2 ≠ fap
  | _ => fly

/-- The report that is due: at the acknowledgment of the last packet of a message. -/
def Op.due (flap : Nat → Nat) (fly : List (Soup × Nat)) : Op → Option Soup
  | .bick fap => report flap fly fap
  | _ => none

/-- The packets that a history sent. -/
def sent : List (Nat × Op) → List (Soup × Nat)
  | [] => []
  | x :: his => sent his ++ x.2.adds

/-- Those of them whose hash was not acknowledged since. -/
def outstanding (flap : Nat → Nat) : List (Nat × Op) → List (Soup × Nat)
  | [] => []
  | x :: his => x.2.leaves flap (outstanding flap his)

/-- The reports of a history that are due, the latest first. -/
def reports (flap : Nat → Nat) : List (Nat × Op) → List (Option Soup)
  | [] => []
  | x :: his => x.2.due flap (outstanding flap his) :: reports flap his

/-- A message with packets, and nothing of it was sent before. -/
def Op.New (flap : Nat → Nat) (old : List (Soup × Nat)) : Op → Prop
  | .whap gom wyv => wyv ≠ [] ∧ gom ∉ old.map Prod.fst ∧ (wyv.map flap).Nodup ∧
      ∀ pac ∈ wyv, ∀ x ∈ old, flap x.2 ≠ flap pac
  | _ => True

/-- Time does not go back, and every message is new. -/
def Timely (flap : Nat → Nat) : List (Nat × Op) → Prop
  | [] => True
  | (now, op) :: his => (∀ x ∈ his, x.1 ≤ now) ∧ op.New flap (sent his) ∧ Timely flap his

theorem leaves_sublist (flap : Nat → Nat) (fly : List (Soup × Nat)) (op : Op) :
    (op.leaves flap fly).Sublist (fly ++ op.adds) := by
  cases op with
  | whap gom wyv => exact List.Sublist.refl _
  | bick fap => exact List.filter_sublist.trans (List.sublist_append_left ..)
  | bilk => exact List.sublist_append_left ..
  | wack => exact List.sublist_append_left ..
  | harv => exact List.sublist_append_left ..

theorem outstanding_sublist (flap : Nat → Nat) (his : List (Nat × Op)) :
    (outstanding flap his).Sublist (sent his) := by
  induction his with
  | nil => exact List.Sublist.refl _
  | cons x his ih => exact (leaves_sublist flap _ x.2).trans (ih.append (List.Sublist.refl _))

/-- One operation keeps the records, and reports what is due. -/
theorem apply_sound (mug : Noun → Nat) {flap : Nat → Nat} {now : Nat} {op : Op}
    {his : List (Nat × Op)} {s : Shed} (hs : Sound flap (outstanding flap his) s)
    (hp : Past now s) (hnew : op.New flap (sent his)) :
    ∃ gub t, op.apply mug flap now s = some (gub, t) ∧
      gub :: reports flap his = reports flap ((now, op) :: his) ∧
      Sound flap (outstanding flap ((now, op) :: his)) t ∧ Past now t := by
  cases op with
  | whap gom wyv =>
    obtain ⟨hne, hgom, hnd, hfresh⟩ := hnew
    have hgom' : gom ∉ (outstanding flap his).map Prod.fst := by
      intro hm
      obtain ⟨x, hx, rfl⟩ := List.mem_map.mp hm
      exact hgom (List.mem_map_of_mem ((outstanding_sublist flap his).subset hx))
    have hw := whap_sound mug hs hp hne hgom' hnd fun pac hpac x hx =>
      hfresh pac hpac x ((outstanding_sublist flap his).subset hx)
    exact ⟨_, _, rfl, rfl, hw⟩
  | bick fap =>
    obtain ⟨yop, t, hb, ht⟩ := bick_sound mug fap hs hp
    exact ⟨_, t, by rw [Op.apply, hb]; rfl, rfl, ht⟩
  | bilk => exact ⟨_, _, rfl, rfl, bilk_sound hs hp⟩
  | wack =>
    obtain ⟨out, t, hw, ht⟩ := wack_sound hs hp
    exact ⟨_, t, by rw [Op.apply, hw]; rfl, rfl, ht⟩
  | harv => exact ⟨_, _, rfl, rfl, harv_sound hs hp⟩

theorem ahoy_sound (flap : Nat → Nat) : Sound flap [] ahoy := by
  refine ⟨⟨List.Pairwise.nil, by simp [tags, ahoy], rfl, ?_⟩, rfl, ?_, Nat.le_refl 2⟩
  · simp [tags, ahoy]
  · simp [ahoy]

theorem pump_step (mug : Noun → Nat) {flap : Nat → Nat} {his : List (Nat × Op)}
    (h : Timely flap his) :
    ∃ s, pump mug flap his = some (reports flap his, s) ∧
      Sound flap (outstanding flap his) s ∧ ∀ now, (∀ x ∈ his, x.1 ≤ now) → Past now s := by
  induction his with
  | nil => exact ⟨ahoy, rfl, ahoy_sound flap, fun now _ => ⟨by simp [Timed, ahoy], by simp [ahoy]⟩⟩
  | cons y his ih =>
    obtain ⟨now, op⟩ := y
    obtain ⟨hnow, hnew, hrest⟩ := h
    obtain ⟨s, hrun, hs, hp⟩ := ih hrest
    obtain ⟨gub, t, ha, hrep, ht, hpt⟩ := apply_sound mug hs (hp now hnow) hnew
    refine ⟨t, ?_, ht, ?_⟩
    · rw [pump, hrun, ← hrep]
      simp [ha]
    · intro later hlater
      exact hpt.mono (hlater (now, op) (by simp))

theorem nodup_sent {flap : Nat → Nat} {his : List (Nat × Op)} (h : Timely flap his) :
    ((sent his).map fun x => flap x.2).Nodup := by
  induction his with
  | nil => exact List.nodup_nil
  | cons y his ih =>
    obtain ⟨now, op⟩ := y
    obtain ⟨-, hnew, hrest⟩ := h
    have hold : ((sent his ++ []).map fun x : Soup × Nat => flap x.2).Nodup := by
      rw [List.append_nil]
      exact ih hrest
    cases op with
    | whap gom wyv =>
      obtain ⟨-, -, hnd, hfresh⟩ := hnew
      rw [sent, Op.adds, List.map_append, List.map_map, List.nodup_append]
      refine ⟨ih hrest, hnd, ?_⟩
      intro a ha b hb
      obtain ⟨x, hx, rfl⟩ := List.mem_map.mp ha
      obtain ⟨pac, hpac, rfl⟩ := List.mem_map.mp hb
      exact hfresh pac hpac x hx
    | bick fap => exact hold
    | bilk => exact hold
    | wack => exact hold
    | harv => exact hold

/-- The packet with an acknowledged hash, if one is out. -/
theorem ack_cases {flap : Nat → Nat} {fly : List (Soup × Nat)} (fap : Nat)
    (h : (fly.map fun x => flap x.2).Nodup) :
    (report flap fly fap = none ∧ fly.filter (fun x => flap x.2 ≠ fap) = fly) ∨
      ∃ xs x ys, fly = xs ++ x :: ys ∧ fly.filter (fun x => flap x.2 ≠ fap) = xs ++ ys ∧
        report flap fly fap =
          if (xs ++ ys).countP (fun y => y.1 = x.1) = 0 then some x.1 else none := by
  cases hfind : fly.find? fun x => flap x.2 = fap with
  | none =>
    rw [List.find?_eq_none] at hfind
    refine .inl ⟨by rw [report, List.find?_eq_none.mpr hfind]; rfl, ?_⟩
    exact List.filter_eq_self.mpr fun x hx => by simpa using hfind x hx
  | some x =>
    have hx : flap x.2 = fap := by simpa using List.find?_some hfind
    obtain ⟨xs, ys, rfl⟩ := List.append_of_mem (List.mem_of_find?_eq_some hfind)
    rw [List.map_append, List.map_cons, List.nodup_append, List.nodup_cons] at h
    have hxs : ∀ y ∈ xs, flap y.2 ≠ fap := fun y hy =>
      hx ▸ h.2.2 _ (List.mem_map_of_mem hy) _ (by simp)
    have hys : ∀ y ∈ ys, flap y.2 ≠ fap := fun y hy he =>
      h.2.1.1 (List.mem_map.mpr ⟨y, hy, he.trans hx.symm⟩)
    exact .inr ⟨xs, x, ys, rfl, filter_flap hx hxs hys, report_eq hx hxs⟩

/-- A message is over when it was sent and nothing of it is out. -/
def Over (old fly : List (Soup × Nat)) (g : Soup) : Prop :=
  g ∈ old.map Prod.fst ∧ g ∉ fly.map Prod.fst

instance (old fly : List (Soup × Nat)) (g : Soup) : Decidable (Over old fly g) :=
  inferInstanceAs (Decidable (_ ∧ _))

/-- An operation reports the message that it makes over, and no message is made over twice. -/
theorem over_step {flap : Nat → Nat} {old fly : List (Soup × Nat)} {op : Op} (g : Soup)
    (hsub : fly.Sublist old) (hnd : (old.map fun x => flap x.2).Nodup) (hnew : op.New flap old) :
    (Over (old ++ op.adds) (op.leaves flap fly) g ↔ Over old fly g ∨ op.due flap fly = some g) ∧
      (Over old fly g → op.due flap fly ≠ some g) := by
  cases op with
  | whap gom wyv =>
    obtain ⟨hne, hgom, -, -⟩ := hnew
    have hiff : ∀ l : List (Soup × Nat),
        g ∈ (l ++ wyv.map fun pac => (gom, pac)).map Prod.fst ↔ g ∈ l.map Prod.fst ∨ g = gom := by
      intro l
      obtain ⟨pac, hpac⟩ := List.exists_mem_of_ne_nil wyv hne
      simp only [List.map_append, List.map_map, List.mem_append, List.mem_map,
        Function.comp_apply]
      constructor
      · exact Or.imp_right fun ⟨_, _, he⟩ => he.symm
      · exact Or.imp_right fun he => ⟨pac, hpac, he.symm⟩
    have hfirst : g = gom → g ∉ old.map Prod.fst := fun he => he ▸ hgom
    simp only [Over, Op.adds, Op.leaves, Op.due, hiff, reduceCtorEq, or_false, ne_eq,
      not_false_eq_true, implies_true, and_true]
    tauto
  | bick fap =>
    simp only [Over, Op.adds, Op.leaves, Op.due, List.append_nil]
    rcases ack_cases fap (hnd.sublist (hsub.map _)) with ⟨hr, hf⟩ | ⟨xs, x, ys, rfl, hf, hr⟩
    · rw [hr, hf]
      simp
    · rw [hr, hf]
      have hold : x.1 ∈ old.map Prod.fst := (hsub.map Prod.fst).subset (by simp)
      have hiff : g ∈ (xs ++ x :: ys).map Prod.fst ↔ g = x.1 ∨ g ∈ (xs ++ ys).map Prod.fst := by
        simp only [List.map_append, List.map_cons, List.mem_append, List.mem_cons]
        tauto
      -- reported is the message of the packet, and only if the others have none of it
      have hdue : (if (xs ++ ys).countP (fun y => y.1 = x.1) = 0 then some x.1 else none) = some g ↔
          g = x.1 ∧ x.1 ∉ (xs ++ ys).map Prod.fst := by
        rw [mem_fst_iff, not_not]
        by_cases h0 : (xs ++ ys).countP (fun y => y.1 = x.1) = 0
        · rw [if_pos h0, and_iff_left h0, Option.some.injEq, eq_comm]
        · rw [if_neg h0]
          exact iff_of_false (by simp) fun h => h0 h.2
      rw [hdue, hiff]
      constructor
      · constructor
        · rintro ⟨ho, hn⟩
          by_cases hg : g = x.1
          · exact .inr ⟨hg, hg ▸ hn⟩
          · exact .inl ⟨ho, fun h => h.elim hg hn⟩
        · rintro (⟨ho, hn⟩ | ⟨rfl, hn⟩)
          · exact ⟨ho, fun h => hn (.inr h)⟩
          · exact ⟨hold, hn⟩
      · intro ho hg
        exact ho.2 (.inl (hdue.mp hg).1)
  | bilk => simp [Op.adds, Op.leaves, Op.due]
  | wack => simp [Op.adds, Op.leaves, Op.due]
  | harv => simp [Op.adds, Op.leaves, Op.due]

/-- A message is reported once, when all of it was acknowledged. -/
theorem count_reports {flap : Nat → Nat} {his : List (Nat × Op)} (h : Timely flap his) (g : Soup) :
    (reports flap his).count (some g) =
      if Over (sent his) (outstanding flap his) g then 1 else 0 := by
  induction his with
  | nil => rfl
  | cons x his ih =>
    obtain ⟨-, hnew, hrest⟩ := h
    obtain ⟨hiff, hnot⟩ := over_step g (outstanding_sublist flap his) (nodup_sent hrest) hnew
    rw [reports, List.count_cons, ih hrest, sent, outstanding]
    simp only [hiff, beq_iff_eq]
    by_cases ho : Over (sent his) (outstanding flap his) g
    · simp [ho, hnot ho]
    · simp [ho]

/-- No sequence of operations with messages that are all new crashes the pump. Its records fit
together after each, it holds the packets that were sent and not acknowledged, and it reports a
message at the acknowledgment of its last packet, once. -/
theorem pump_sound (mug : Noun → Nat) (flap : Nat → Nat) (his : List (Nat × Op))
    (h : Timely flap his) :
    ∃ s, pump mug flap his = some (reports flap his, s) ∧ Sound flap (outstanding flap his) s ∧
      bike s = some s ∧
      ∀ g, (reports flap his).count (some g) =
        if Over (sent his) (outstanding flap his) g then 1 else 0 := by
  obtain ⟨s, hrun, hs, -⟩ := pump_step mug h
  exact ⟨s, hrun, hs, hs.toFiled.bike, count_reports h⟩

/-- Two packets of a message; both acknowledgments come, in the wrong order, and one of no
packet. The message is reported at the last. -/
theorem pump_sound_two :
    let his : List (Nat × Op) :=
      [(7, .bick 11), (6, .wack), (5, .bick 12), (4, .bick 99), (3, .bilk), (2, .harv),
        (1, .whap ⟨[], 0⟩ [11, 12])]
    Timely id his ∧ reports id his = [some ⟨[], 0⟩, none, none, none, none, none, none] ∧
      ∃ s, pump (fun _ => 0) id his = some (reports id his, s) ∧ Sound id [] s ∧ bike s = some s := by
  intro his
  have h : Timely id his := by simp [his, Timely, Op.New, sent]
  obtain ⟨s, hrun, hs, hb, -⟩ := pump_sound (fun _ => 0) id his h
  exact ⟨h, by decide, s, hrun, hs, hb⟩

end Vere.Ames
