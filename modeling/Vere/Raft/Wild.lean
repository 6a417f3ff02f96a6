import Vere.Raft.Store

/-!
# Vere.Raft.Wild

Servers among strangers: anybody can connect to a server, and any message can come in
on a connection.

The assertions of the handlers rest on facts that other handlers establish: a name
that is known has at most one connection, no response is pending to a follower that it
could count, the count is that of the flags (`Stout`). They hold in every run, but for
a start that finds its own vote, which leaves all flags set, and the wrap of the term.
Then there is one message that ends the process: a request for a vote in the name of
somebody who is not a peer, on a connection that has no name (`handled_iff`).
-/

namespace Vere.Raft

open Vere.Lib Function

/-! ### Strangers -/

inductive Wild
  /-- What servers and the network do. -/
  | plain (a : Action)
  /-- Somebody who is not a member opens a connection. -/
  | knock (src dst : Cstr)
  /-- A message comes from anywhere. -/
  | forge (e : End) (it : Item)

def wild (c : Cluster) : Wild → State → Option State
  | .plain a, s => step c a s
  | .knock src dst, s =>
      if src ∉ c.names ∧ dst ∈ c.names then
        some { s with net := { s.net with links := s.net.links ++ [⟨src, dst, false⟩] } }
      else none
  | .forge e it, s =>
      some { s with net := { s.net with flow := update s.net.flow e (s.net.flow e ++ [it]) } }

/-- A start does not find the vote for itself, and an election is not started in the
last term. -/
def Civil (s : State) : Wild → Prop
  | .plain (.boot p tail) => (s.net.sis p .vote).map (· ++ tail.str) ≠ some p.str
  | .plain (.time p _) => ∀ raf, s.mem p = some raf → raf.typE ≠ .lead → raf.temW ≠ 0xffffffff
  | _ => True

/-! ### Servers -/

/-- A request that waits for its response. A follower has none for a vote in its term. -/
structure Waits (raf : Server) (r : Rreq) : Prop where
  body : r.msgU.body.isRasp = false
  term : r.msgU.temW ≤ raf.temW
  old : raf.typE = .foll → r.isRevo = true → r.msgU.temW < raf.temW

/-- What the assertions of a server rest on. -/
structure Stout (c : Cluster) (p : Cstr) (net : Net) (raf : Server) : Prop where
  strC : raf.strC = p
  namU : raf.namU = c.peers p
  pop : raf.popW = 1 + raf.namU.length
  typ : raf.typE ≠ .none
  ronU : ∀ nam l, raf.ronU nam = some l → ∃ ron, raf.rons l = some ron ∧ ron.namU = some nam
  named : ∀ l ron nam, raf.rons l = some ron → ron.namU = some nam → nam ∈ raf.namU
  joined : ∀ l ron, raf.rons l = some ron → net.joins l p = true
  waits : ∀ l ron r, raf.rons l = some ron → r ∈ ron.outU → Waits raf r
  foll : raf.typE = .foll → raf.votW = 0
  count : raf.typE ≠ .foll → raf.votW = 1 + raf.namU.countP raf.vog

/-- The count of a server: none for a follower, for a candidate its own vote and those
of the peers whose flag is set, and never more than there are servers. -/
def Counted (raf : Server) : Prop :=
  (raf.typE = .foll → raf.votW = 0) ∧
    (raf.typE = .cand → raf.votW = 1 + raf.namU.countP raf.vog) ∧ raf.votW ≤ raf.popW

/-- Links between different servers, and all those that were there. -/
structure Grown (net net' : Net) : Prop where
  joins : ∀ l q, net.joins l q = true → net'.joins l q = true
  ends : ∀ k ∈ net'.links, k.src ≠ k.dst

section Stout

variable {c : Cluster} {p : Cstr} {net net' : Net} {raf : Server}

theorem Stout.counted (h : Stout c p net raf) : Counted raf := by
  refine ⟨h.foll, fun hcand => h.count (by rw [hcand]; exact fun he => nomatch he), ?_⟩
  rw [h.pop]
  by_cases hfoll : raf.typE = .foll
  · rw [h.foll hfoll]
    exact Nat.zero_le _
  · rw [h.count hfoll]
    exact Nat.add_le_add_left List.countP_le_length 1

theorem Stout.grow (h : Stout c p net raf) (hg : ∀ l, net.joins l p = true → net'.joins l p = true) :
    Stout c p net' raf :=
  { h with joined := fun l ron hr => hg l (h.joined l ron hr) }

theorem joins_links (h : net'.links = net.links) (l : Link) (q : Cstr)
    (hj : net.joins l q = true) : net'.joins l q = true :=
  (joins_congr h l q).trans hj

theorem Grown.links {net'' : Net} (h : Grown net net') (hl : net''.links = net'.links) :
    Grown net net'' :=
  ⟨fun l q hj => joins_links hl l q (h.joins l q hj), hl ▸ h.ends⟩

/-- A connection changes, but not its name, and no request is added. -/
theorem Stout.setRon {l : Link} {ron ron' : Rcon} (h : Stout c p net raf)
    (hr : raf.rons l = some ron) (hnam : ron'.namU = ron.namU)
    (hout : ∀ r ∈ ron'.outU, Waits raf r) :
    Stout c p net { raf with rons := update raf.rons l (some ron') } where
  strC := h.strC
  namU := h.namU
  pop := h.pop
  typ := h.typ
  ronU := by
    intro nam l' hl'
    obtain ⟨ron'', hr'', hn''⟩ := h.ronU nam l' hl'
    by_cases hl : l' = l
    · subst hl
      cases hr.symm.trans hr''
      exact ⟨ron', update_self .., hnam.trans hn''⟩
    · exact ⟨ron'', (update_of_ne hl _ _).trans hr'', hn''⟩
  named := by
    intro l' ron'' nam hr'' hn''
    by_cases hl : l' = l
    · subst hl
      cases (update_self l' _ _).symm.trans hr''
      exact h.named l' ron nam hr (hnam.symm.trans hn'')
    · exact h.named l' ron'' nam ((update_of_ne hl _ _).symm.trans hr'') hn''
  joined := by
    intro l' ron'' hr''
    by_cases hl : l' = l
    · subst hl
      exact h.joined l' ron hr
    · exact h.joined l' ron'' ((update_of_ne hl _ _).symm.trans hr'')
  waits := by
    intro l' ron'' r hr'' hmem
    by_cases hl : l' = l
    · subst hl
      cases (update_self l' _ _).symm.trans hr''
      exact ⟨(hout r hmem).body, (hout r hmem).term, (hout r hmem).old⟩
    · have hw := h.waits l' ron'' r ((update_of_ne hl _ _).symm.trans hr'') hmem
      exact ⟨hw.body, hw.term, hw.old⟩
  foll := h.foll
  count := h.count

/-- A newer term turns a server into a follower, and makes all its requests old. -/
theorem Stout.raise {temW : UInt32} {vogC : Option Cstr} (h : Stout c p net raf)
    (hlt : raf.temW < temW) :
    Stout c p net { raf with temW := temW, vogC := vogC, votW := 0, typE := .foll } :=
  { strC := h.strC, namU := h.namU, pop := h.pop, typ := fun he => nomatch he
    ronU := h.ronU, named := h.named, joined := h.joined
    waits := fun l ron r hr hmem => by
      have hw := h.waits l ron r hr hmem
      exact ⟨hw.body, UInt32.le_of_lt (UInt32.lt_of_le_of_lt hw.term hlt),
        fun _ _ => UInt32.lt_of_le_of_lt hw.term hlt⟩
    foll := fun _ => rfl
    count := fun hne => absurd rfl hne }

/-- The flag of a peer is set and its vote counted. -/
theorem Stout.vote {nam : Cstr} (h : Stout c p net raf) (hnam : nam ∈ raf.namU)
    (hflag : raf.vog nam = false) (htyp : raf.typE ≠ .foll) :
    Stout c p net { raf with vog := update raf.vog nam true, votW := raf.votW + 1 } := by
  have hcount : raf.namU.countP (update raf.vog nam true) = raf.namU.countP raf.vog + 1 := by
    have hnodup : raf.namU.Nodup := by
      rw [h.namU]
      exact c.nodup.filter _
    exact countP_update hnodup hnam hflag
  refine
    { strC := h.strC, namU := h.namU, pop := h.pop, typ := h.typ, ronU := h.ronU, named := h.named
      joined := h.joined
      waits := fun l ron r hr hmem => ⟨(h.waits l ron r hr hmem).body,
        (h.waits l ron r hr hmem).term, (h.waits l ron r hr hmem).old⟩
      foll := fun hf => absurd hf htyp
      count := fun _ => ?_ }
  show raf.votW + 1 = 1 + raf.namU.countP (update raf.vog nam true)
  rw [hcount, h.count htyp]
  rfl

end Stout

/-! ### Messages -/

/-- Whether a connection has a name. -/
def Proc.named (s : Proc) (l : Link) : Bool := (s.raf.rons l).any (·.namU.isSome)

/-- Inside a callback of `p` on a connection, since `net`. -/
structure Well (c : Cluster) (p : Cstr) (net : Net) (l : Link) (s : Proc) : Prop where
  stout : Stout c p s.net s.raf
  grown : Grown net s.net
  here : ∃ ron, s.raf.rons l = some ron

/-- How a part of a callback that began in `s₀` ends: well, after at most `k` system
calls, with the connection named or not, or with the process killed at one of them. -/
def Pays (c : Cluster) (p : Cstr) (net : Net) (l : Link) (k : Nat) (s₀ : Proc) (b : Bool)
    {α : Type} : Res Unit α → Proc → Prop
  | .ok _, s => Well c p net l s ∧ s₀.fuse ≤ s.fuse + k ∧ s.net.flow = s₀.net.flow ∧ s.named l = b
  | _, s => s₀.fuse < k ∧ Grown net s.net

/-- A part of a callback that makes at most `k` system calls and does not stop, but when
the process is killed. -/
def Cheap (c : Cluster) (p : Cstr) (net : Net) (l : Link) (k : Nat) (f : Bool → Bool) {α : Type}
    (x : Act α) : Prop :=
  ∀ s, Well c p net l s → Pays c p net l k s (f (s.named l)) (x.run s).1 (x.run s).2

/-- The process ends. -/
def Fails (net : Net) {α : Type} : Res Unit α → Proc → Prop
  | .ok _, _ => False
  | _, s => Grown net s.net

/-- A name among the peers. -/
def known (nams : List Cstr) (rest : Rest) : Bool := nams.any fun nam => nam.str = rest.name

section Cheap

variable {c : Cluster} {p : Cstr} {net : Net} {l : Link} {α β : Type} {s : Proc}

/-- Sequencing: the second part may use that the first has left things well. -/
theorem Pays.next {k m : Nat} {b b' : Bool} {x : Act α} {y : α → Act β}
    (hx : Pays c p net l k s b (x.run s).1 (x.run s).2)
    (hy : ∀ a t, Well c p net l t → t.named l = b →
      Pays c p net l m t b' ((y a).run t).1 ((y a).run t).2) :
    Pays c p net l (k + m) s b' ((x >>= y).run s).1 ((x >>= y).run s).2 := by
  rw [Run.run_bind]
  revert hx
  rcases x.run s with ⟨r, t⟩
  intro hx
  cases r with
  | stop e => exact ⟨Nat.lt_add_right m hx.1, hx.2⟩
  | spent => exact ⟨Nat.lt_add_right m hx.1, hx.2⟩
  | ok a =>
      obtain ⟨ht, hfuse, hflow, hb⟩ := hx
      have hfuse : s.fuse ≤ t.fuse + k := hfuse
      have h := hy a t ht hb
      revert h
      simp only
      rcases (y a).run t with ⟨r, u⟩
      intro h
      cases r with
      | ok a' =>
          obtain ⟨hu, hfuse', hflow', hb'⟩ := h
          have hfuse' : t.fuse ≤ u.fuse + m := hfuse'
          refine ⟨hu, ?_, hflow'.trans hflow, hb'⟩
          show s.fuse ≤ u.fuse + (k + m)
          omega
      | stop e =>
          have hlt : t.fuse < m := h.1
          exact ⟨by omega, h.2⟩
      | spent =>
          have hlt : t.fuse < m := h.1
          exact ⟨by omega, h.2⟩

theorem Pays.bind {k m : Nat} {b : Bool} {g : Bool → Bool} {x : Act α} {y : α → Act β}
    (hx : Pays c p net l k s b (x.run s).1 (x.run s).2) (hy : ∀ a, Cheap c p net l m g (y a)) :
    Pays c p net l (k + m) s (g b) ((x >>= y).run s).1 ((x >>= y).run s).2 :=
  hx.next fun a t ht hb => hb ▸ hy a t ht

theorem Cheap.bind {k k' : Nat} {f g : Bool → Bool} {x : Act α} {y : α → Act β}
    (hx : Cheap c p net l k f x) (hy : ∀ a, Cheap c p net l k' g (y a)) :
    Cheap c p net l (k + k') (g ∘ f) (x >>= y) :=
  fun s hs => (hx s hs).bind hy

/-- More system calls are allowed than are made. -/
theorem Pays.more {k k' : Nat} {b : Bool} {r : Res Unit α} {t : Proc} (hk : k ≤ k')
    (h : Pays c p net l k s b r t) : Pays c p net l k' s b r t := by
  cases r with
  | ok a =>
      obtain ⟨ht, hfuse, hrest⟩ := h
      exact ⟨ht, hfuse.trans (Nat.add_le_add_left hk t.fuse), hrest⟩
  | stop e => exact ⟨Nat.lt_of_lt_of_le h.1 hk, h.2⟩
  | spent => exact ⟨Nat.lt_of_lt_of_le h.1 hk, h.2⟩

theorem named_eq {ron : Rcon} (h : s.raf.rons l = some ron) : s.named l = ron.namU.isSome := by
  rw [Proc.named, h, Option.any_some]

/-- A connection changes, but not its name. -/
theorem Well.setRon {l' : Link} {ron ron' : Rcon} (h : Well c p net l s)
    (hr : s.raf.rons l' = some ron) (hnam : ron'.namU = ron.namU)
    (hout : ∀ r ∈ ron'.outU, r ∈ ron.outU) :
    Well c p net l { s with raf := { s.raf with rons := update s.raf.rons l' (some ron') } } ∧
      Proc.named { s with raf := { s.raf with rons := update s.raf.rons l' (some ron') } } l
        = s.named l := by
  obtain ⟨ronl, hl⟩ := h.here
  have hst := h.stout.setRon hr hnam fun r hmem => h.stout.waits l' ron r hr (hout r hmem)
  by_cases hll : l = l'
  · subst hll
    refine ⟨⟨hst, h.grown, ron', update_self ..⟩, ?_⟩
    simp [Proc.named, hr, hnam]
  · refine ⟨⟨hst, h.grown, ronl, (update_of_ne hll _ _).trans hl⟩, ?_⟩
    simp [Proc.named, hll]

/-- The net changes, but not its links. -/
theorem Well.setNet {net' : Net} (h : Well c p net l s) (hlinks : net'.links = s.net.links) :
    Well c p net l { s with net := net' } where
  stout := h.stout.grow fun l' hj => joins_links hlinks l' p hj
  grown := h.grown.links hlinks
  here := h.here

theorem close_flow (net : Net) (l : Link) (p : Cstr) : (net.close l p).flow = net.flow := by
  unfold Net.close
  split <;> rfl

theorem pays_connDead {l' : Link} {ron : Rcon} (h : Well c p net l s)
    (hr : s.raf.rons l' = some ron) :
    Pays c p net l 0 s (s.named l) ((connDead l').run s).1 ((connDead l').run s).2 := by
  unfold connDead
  rw [run_deref s hr]
  split
  · rw [Run.run_bind, run_modRon s hr]
    obtain ⟨hw, hn⟩ := @Well.setRon c p net l s l' ron { ron with stat := .dead } h hr rfl
      fun _ hmem => hmem
    simp only
    exact ⟨hw.setNet (close_quieter s.net l' s.raf.strC).links, Nat.le_refl _,
      close_flow s.net l' s.raf.strC, hn⟩
  · exact ⟨h, Nat.le_refl _, rfl, rfl⟩

/-- Giving a connection its name. -/
theorem Well.setName {ron : Rcon} {nam : Cstr} (h : Well c p net l s)
    (hr : s.raf.rons l = some ron) (hnone : ron.namU = none) (hnam : nam ∈ s.raf.namU) :
    Well c p net l { s with raf := { s.raf with
      ronU := update s.raf.ronU nam (some l)
      rons := update s.raf.rons l (some { ron with namU := some nam }) } } where
  stout := by
    have hst := h.stout
    refine
      { strC := hst.strC, namU := hst.namU, pop := hst.pop, typ := hst.typ, foll := hst.foll
        count := hst.count, ronU := ?_, named := ?_, joined := ?_, waits := ?_ }
    · intro nam' l' hl'
      by_cases hn : nam' = nam
      · subst hn
        cases (update_self nam' _ _).symm.trans hl'
        exact ⟨_, update_self .., rfl⟩
      · obtain ⟨ron', hr', hn'⟩ := hst.ronU nam' l' ((update_of_ne hn _ _).symm.trans hl')
        -- a connection that had no name was nobody's
        have hll : l' ≠ l := by
          intro he
          subst he
          cases hr.symm.trans hr'
          cases hnone.symm.trans hn'
        exact ⟨ron', (update_of_ne hll _ _).trans hr', hn'⟩
    · intro l' ron' nam' hr' hn'
      by_cases hll : l' = l
      · subst hll
        cases (update_self l' _ _).symm.trans hr'
        cases hn'
        exact hnam
      · exact hst.named l' ron' nam' ((update_of_ne hll _ _).symm.trans hr') hn'
    · intro l' ron' hr'
      by_cases hll : l' = l
      · subst hll
        exact hst.joined l' ron hr
      · exact hst.joined l' ron' ((update_of_ne hll _ _).symm.trans hr')
    · intro l' ron' r hr' hmem
      by_cases hll : l' = l
      · subst hll
        cases (update_self l' _ _).symm.trans hr'
        have hw := hst.waits l' ron r hr hmem
        exact ⟨hw.body, hw.term, hw.old⟩
      · have hw := hst.waits l' ron' r ((update_of_ne hll _ _).symm.trans hr') hmem
        exact ⟨hw.body, hw.term, hw.old⟩
  grown := h.grown
  here := ⟨_, update_self ..⟩

theorem pays_closeOld {ron : Rcon} {nam : Cstr} (h : Well c p net l s)
    (hr : s.raf.rons l = some ron) (hnone : ron.namU = none) :
    Pays c p net l 0 s false ((closeOld l (s.raf.ronU nam)).run s).1
      ((closeOld l (s.raf.ronU nam)).run s).2 := by
  have hn : s.named l = false := by rw [named_eq hr, hnone]; rfl
  cases hold : s.raf.ronU nam with
  | none => exact ⟨h, Nat.le_refl _, rfl, hn⟩
  | some old =>
      obtain ⟨ron', hr', hn'⟩ := h.stout.ronU nam old hold
      have hne : old ≠ l := by
        intro he
        subst he
        cases hr.symm.trans hr'
        cases hnone.symm.trans hn'
      rw [closeOld, run_check, if_pos hne, ← hn]
      exact pays_connDead h hr'

theorem cheap_restName (rest : Rest) :
    Cheap c p net l 0 (· || known (c.peers p) rest) (restName l rest.name) := by
  intro s hs
  obtain ⟨ron, hr⟩ := hs.here
  unfold restName
  rw [run_deref s hr]
  cases hnam : ron.namU with
  | some nam =>
      have hn : s.named l = true := by rw [named_eq hr, hnam]; rfl
      simp only [hn, Bool.true_or]
      split
      · exact ⟨hs, Nat.le_refl _, rfl, hn⟩
      · exact hn ▸ pays_connDead hs hr
  | none =>
      have hn : s.named l = false := by rw [named_eq hr, hnam]; rfl
      simp only [hn, Bool.false_or]
      rw [run_getRaf, hs.stout.namU]
      cases hfind : (c.peers p).find? fun nam => decide (nam.str = rest.name) with
      | none =>
          have hno : known (c.peers p) rest = false := by
            rw [known, List.any_eq_false]
            simpa using List.find?_eq_none.mp hfind
          rw [hno, ← hn]
          exact pays_connDead hs hr
      | some nam =>
          have hmem := List.mem_of_find?_eq_some hfind
          have hyes : known (c.peers p) rest = true :=
            List.any_eq_true.mpr ⟨nam, hmem, by simpa using List.find?_some hfind⟩
          rw [hyes]
          simp only
          refine (pays_closeOld hs hr hnam).next (m := 0) fun _ t ht hb => ?_
          obtain ⟨ront, hrt⟩ := ht.here
          have hnone : ront.namU = none := by
            rw [named_eq hrt] at hb
            exact Option.not_isSome_iff_eq_none.mp (by simp [hb])
          have hset := ht.setName hrt hnone (ht.stout.namU ▸ hmem)
          rw [run_modRaf,
            run_modRon { t with raf := { t.raf with ronU := update t.raf.ronU nam (some l) } } hrt]
          exact ⟨hset, Nat.le_refl _, rfl, by simp [Proc.named]⟩

/-- Only what the connections do not depend on changes. -/
theorem Well.setRaf {raf : Server} (h : Well c p net l s) (hst : Stout c p s.net raf)
    (hrons : raf.rons = s.raf.rons) : Well c p net l { s with raf := raf } where
  stout := hst
  grown := h.grown
  here := by
    obtain ⟨ron, hr⟩ := h.here
    exact ⟨ron, hrons ▸ hr⟩

/-- An action that makes one system call. It changes the memory in a known way, and
links and streams not at all. -/
def OneCall (x : Act Unit) (g : Server → Server) : Prop :=
  ∀ s : Proc,
    (s.fuse = 0 ∧ ∃ t, x.run s = (.stop (), t) ∧ t.net.links = s.net.links) ∨
      ∃ n net', s.fuse = n + 1 ∧
        x.run s = (.ok (), { s with raf := g s.raf, net := net', fuse := n }) ∧
        net'.links = s.net.links ∧ net'.flow = s.net.flow

theorem oneCall_saveTerm : OneCall saveTerm id := by
  intro s
  obtain ⟨raf, net, fuse, torn⟩ := s
  cases fuse with
  | zero => cases torn <;> exact .inl ⟨rfl, _, rfl, rfl⟩
  | succ n => exact .inr ⟨n, _, rfl, rfl, rfl, rfl⟩

theorem oneCall_saveVote (nam : Cstr) :
    OneCall (saveVote nam) fun raf => { raf with vogC := some nam } := by
  intro s
  obtain ⟨raf, net, fuse, torn⟩ := s
  cases fuse with
  | zero => cases torn <;> exact .inl ⟨rfl, _, rfl, rfl⟩
  | succ n => exact .inr ⟨n, _, rfl, rfl, rfl, rfl⟩

theorem oneCall_clearVote : OneCall clearVote fun raf => { raf with vogC := none } := by
  intro s
  obtain ⟨raf, net, fuse, torn⟩ := s
  cases fuse with
  | zero => cases torn <;> exact .inl ⟨rfl, _, rfl, rfl⟩
  | succ n => exact .inr ⟨n, _, rfl, rfl, rfl, rfl⟩

theorem Well.call {raf : Server} {net' : Net} {n : Nat} (h : Well c p net l s)
    (hst : Stout c p s.net raf) (hrons : raf.rons = s.raf.rons) (hlinks : net'.links = s.net.links) :
    Well c p net l { s with raf := raf, net := net', fuse := n } where
  stout := hst.grow fun l' hj => joins_links hlinks l' p hj
  grown := h.grown.links hlinks
  here := by
    obtain ⟨ron, hr⟩ := h.here
    exact ⟨ron, hrons ▸ hr⟩

theorem cheap_noteTerm (temW : UInt32) : Cheap c p net l 2 id (noteTerm temW) := by
  intro s hs
  have hst := hs.stout
  unfold noteTerm
  rw [run_getRaf]
  split
  · next hlt =>
    rw [run_modRaf, Run.run_bind]
    obtain ⟨h0, t, ht, hlinks⟩ | ⟨n, net', hn, ht, hlinks, hflow⟩ :=
      oneCall_saveTerm { s with raf := { s.raf with temW := temW } }
    · rw [ht]
      exact ⟨by show s.fuse < 2; rw [show s.fuse = 0 from h0]; decide, hs.grown.links hlinks⟩
    · have hn : s.fuse = n + 1 := hn
      rw [ht]
      simp only
      by_cases hfoll : s.raf.typE = .foll
      · rw [if_pos hfoll, check, if_pos (hst.foll hfoll)]
        have hraise := @Stout.raise c p s.net s.raf temW s.raf.vogC hst hlt
        rw [← hst.foll hfoll, ← hfoll] at hraise
        exact ⟨hs.call hraise rfl hlinks, by show s.fuse ≤ n + 2; omega, hflow, rfl⟩
      · rw [if_neg hfoll, run_check, if_pos hst.typ, demote, run_getRaf, Run.run_bind]
        obtain ⟨h0, t', ht', hlinks'⟩ | ⟨n', net'', hn', ht', hlinks', hflow'⟩ := oneCall_clearVote
          { s with raf := { s.raf with temW := temW }, net := net', fuse := n }
        · have h0 : n = 0 := h0
          rw [show (id { s.raf with temW := temW } : Server) = { s.raf with temW := temW } from rfl, ht']
          exact ⟨by show s.fuse < 2; omega, hs.grown.links (hlinks'.trans hlinks)⟩
        · have hn' : n = n' + 1 := hn'
          rw [show (id { s.raf with temW := temW } : Server) = { s.raf with temW := temW } from rfl, ht']
          simp only
          have hlead : s.raf.typE = .lead ∨ s.raf.typE = .cand := by
            cases htyp : s.raf.typE with
            | none => exact absurd htyp hst.typ
            | foll => exact absurd htyp hfoll
            | cand => exact .inr rfl
            | lead => exact .inl rfl
          rw [run_modRaf, check, if_pos hlead]
          have hraise := @Stout.raise c p s.net s.raf temW none hst hlt
          exact ⟨hs.call hraise rfl (hlinks'.trans hlinks), by show s.fuse ≤ n' + 2; omega,
            hflow'.trans hflow, rfl⟩
  · exact ⟨hs, Nat.le_add_right .., rfl, rfl⟩

theorem cheap_doRest (temW : UInt32) (rest : Rest) :
    Cheap c p net l 2 (· || known (c.peers p) rest) (doRest l temW rest) :=
  fun s hs => Nat.zero_add 2 ▸ (cheap_restName rest s hs).bind fun _ => cheap_noteTerm temW

theorem queue_flow (net : Net) (e : End) (it : Item) : (net.queue e it).flow = net.flow := by
  unfold Net.queue
  split <;> rfl

theorem cheap_modNet {f : Net → Net} (hlinks : ∀ net, (f net).links = net.links)
    (hflow : ∀ net, (f net).flow = net.flow) : Cheap c p net l 0 id (modNet f) :=
  fun s hs => ⟨hs.setNet (hlinks s.net), Nat.le_refl _, hflow s.net, rfl⟩

theorem cheap_modRon {f : Rcon → Rcon} (hnam : ∀ ron, (f ron).namU = ron.namU)
    (hout : ∀ ron, ∀ r ∈ (f ron).outU, r ∈ ron.outU) : Cheap c p net l 0 id (modRon l f) := by
  intro s hs
  obtain ⟨ron, hr⟩ := hs.here
  rw [run_modRon s hr]
  obtain ⟨hw, hn⟩ := hs.setRon hr (hnam ron) (hout ron)
  exact ⟨hw, Nat.le_refl _, rfl, hn⟩

theorem cheap_sendRasp (suc : UInt32) (req : Rreq) :
    Cheap c p net l 0 id (sendRasp l suc req) := by
  intro s hs
  unfold sendRasp rmsgQueue
  rw [run_getRaf, run_getRaf]
  refine cheap_modNet ?_ ?_ s hs
  · intro net
    split
    · exact queue_links ..
    · rfl
  · intro net
    split
    · exact queue_flow ..
    · rfl

theorem cheap_saveVote (nam : Cstr) : Cheap c p net l 1 id (saveVote nam) := by
  intro s hs
  have hst := hs.stout
  obtain ⟨h0, t, ht, hlinks⟩ | ⟨n, net', hn, ht, hlinks, hflow⟩ := oneCall_saveVote nam s
  · rw [ht]
    exact ⟨by rw [h0]; decide, hs.grown.links hlinks⟩
  · rw [ht]
    have hst' : Stout c p s.net { s.raf with vogC := some nam } :=
      { hst with waits := fun l ron r hr hmem =>
          ⟨(hst.waits l ron r hr hmem).body, (hst.waits l ron r hr hmem).term,
            (hst.waits l ron r hr hmem).old⟩ }
    exact ⟨hs.call hst' rfl hlinks, Nat.le_of_eq hn, hflow, rfl⟩

/-- A request for a vote that finds a name, or brings one. -/
theorem pays_doRevo {temW : UInt32} {rest : Rest} {req : Rreq} (hs : Well c p net l s)
    (hname : (s.named l || known (c.peers p) rest) = true) :
    Pays c p net l 3 s true ((doRevo l temW rest req).run s).1
      ((doRevo l temW rest req).run s).2 := by
  refine (cheap_doRest temW rest s hs).next (m := 1) fun _ t ht hb => ?_
  have hb := hb.trans hname
  obtain ⟨ron, hr⟩ := ht.here
  have hsome := hb
  rw [named_eq hr] at hsome
  obtain ⟨nam, hnam⟩ := Option.isSome_iff_exists.mp hsome
  rw [run_deref t hr, run_getRaf, hnam, ← hb]
  simp only
  split
  · exact (cheap_saveVote nam t ht).bind fun _ => cheap_sendRasp 1 req
  · exact (cheap_sendRasp 0 req t ht).more (Nat.zero_le 1)

/-- One in the name of somebody who is not a peer, on a connection without a name. -/
theorem doRevo_stops {temW : UInt32} {rest : Rest} {req : Rreq} (hs : Well c p net l s)
    (hname : (s.named l || known (c.peers p) rest) = false) :
    Fails net ((doRevo l temW rest req).run s).1 ((doRevo l temW rest req).run s).2 := by
  have hrest := cheap_doRest temW rest s hs
  unfold doRevo
  rw [Run.run_bind]
  revert hrest
  rcases (doRest l temW rest).run s with ⟨r, t⟩
  intro hrest
  cases r with
  | stop e => exact hrest.2
  | spent => exact hrest.2
  | ok a =>
      obtain ⟨ht, -, -, hb⟩ := hrest
      have ht : Well c p net l t := ht
      have hb : t.named l = false := hb.trans hname
      obtain ⟨ron, hr⟩ := ht.here
      rw [named_eq hr] at hb
      have hnone : ron.namU = none := Option.not_isSome_iff_eq_none.mp (by simp [hb])
      simp only
      rw [run_deref t hr, run_getRaf, hnone]
      exact ht.grown

/-! ### Responses -/

theorem cheap_promote (hs : Well c p net l s) (hmaj : s.raf.popW / 2 < s.raf.votW) :
    Pays c p net l 0 s (s.named l) (promote.run s).1 (promote.run s).2 := by
  have hst := hs.stout
  have hfoll : s.raf.typE ≠ .foll := by
    intro hf
    rw [hst.foll hf] at hmaj
    exact Nat.not_lt_zero _ hmaj
  unfold promote
  rw [run_getRaf]
  split
  · exact ⟨hs, Nat.le_refl _, rfl, rfl⟩
  · next hlead =>
    have hcand : s.raf.popW = 1 ∨ s.raf.typE = .cand := by
      cases htyp : s.raf.typE with
      | none => exact absurd htyp hst.typ
      | foll => exact absurd htyp hfoll
      | cand => exact .inr rfl
      | lead => exact absurd htyp hlead
    rw [run_check, if_pos hcand]
    have hst' : Stout c p s.net { s.raf with typE := .lead } :=
      { hst with
        typ := fun he => nomatch he
        waits := fun l ron r hr hmem => ⟨(hst.waits l ron r hr hmem).body,
          (hst.waits l ron r hr hmem).term, fun he => nomatch he⟩
        foll := fun he => nomatch he
        count := fun _ => hst.count hfoll }
    exact ⟨hs.setRaf hst' rfl, Nat.le_refl _, rfl, rfl⟩

theorem pays_countVote {nam : Cstr} {req : Rreq} (sucW : UInt32) (hs : Well c p net l s)
    (hnam : nam ∈ s.raf.namU) (hreq : Waits s.raf req) (hrevo : req.isRevo = true) :
    Pays c p net l 0 s (s.named l) ((countVote nam req sucW).run s).1
      ((countVote nam req sucW).run s).2 := by
  unfold countVote
  rw [run_getRaf]
  split
  · next hvote =>
    obtain ⟨-, hterm, hflag⟩ := hvote
    have hfoll : s.raf.typE ≠ .foll := by
      intro hf
      have hlt := hreq.old hf hrevo
      rw [hterm] at hlt
      exact UInt32.lt_irrefl _ hlt
    exact ⟨hs.setRaf (hs.stout.vote hnam hflag hfoll) rfl, Nat.le_refl _, rfl, rfl⟩
  · exact ⟨hs, Nat.le_refl _, rfl, rfl⟩

theorem pays_rreqDone {nam : Cstr} {req : Rreq} (sucW : UInt32) (hs : Well c p net l s)
    (hnam : nam ∈ s.raf.namU) (hreq : Waits s.raf req) :
    Pays c p net l 0 s (s.named l) ((rreqDone nam req sucW).run s).1
      ((rreqDone nam req sucW).run s).2 := by
  unfold rreqDone
  split
  · exact ⟨hs, Nat.le_refl _, rfl, rfl⟩
  · next rest hbody =>
    have hrevo : req.isRevo = true := by
      rw [Rreq.isRevo, hbody]
      rfl
    refine (pays_countVote sucW hs hnam hreq hrevo).next (m := 0) fun _ t ht hb => ?_
    rw [run_getRaf, ← hb]
    split
    · next hmaj => exact cheap_promote ht hmaj
    · exact ⟨ht, Nat.le_refl _, rfl, rfl⟩
  · next sucW' hbody =>
    have hrasp := hreq.body
    rw [hbody] at hrasp
    cases hrasp

/-- Take the request off the queue. -/
theorem cheap_pop : Cheap c p net l 0 id (modRon l fun ron => { ron with outU := ron.outU.tail }) :=
  cheap_modRon (fun _ => rfl) fun _ _ hmem => List.mem_of_mem_tail hmem

theorem cheap_doRasp (temW sucW : UInt32) (ask : Rreq) :
    Cheap c p net l 2 id (doRasp l temW sucW ask) := by
  intro s hs
  obtain ⟨ron, hr⟩ := hs.here
  unfold doRasp
  rw [run_deref s hr, run_modNet]
  generalize (⟨ron.sent, ron.outU.head?, ask⟩ : Match) = m
  have hs' : Well c p net l { s with net := { s.net with log := m :: s.net.log } } :=
    hs.setNet rfl
  have hdead : Pays c p net l 2 s (s.named l) _ _ := (pays_connDead hs' hr).more (Nat.zero_le 2)
  cases hnam : ron.namU with
  | none => exact hdead
  | some nam =>
      cases hout : ron.outU with
      | nil => exact hdead
      | cons req reqs =>
          have hin := hs.stout.named l ron nam hr hnam
          have hreq := hs.stout.waits l ron req hr (by rw [hout]; exact List.mem_cons_self ..)
          have hpop := (pays_rreqDone sucW hs' hin hreq).bind fun _ =>
            (cheap_noteTerm temW).bind fun _ => cheap_pop
          exact hpop

/-- What a message does to the name of its connection. -/
def Item.names (nams : List Cstr) (it : Item) : Bool :=
  match it.msg.body with
  | .rasp _ => false
  | .revo rest => known nams rest
  | .apen rest _ _ _ => known nams rest

/-- A request for a vote on a connection without a name that it does not get. -/
def Item.rude (nams : List Cstr) (named : Bool) (it : Item) : Bool :=
  it.msg.body.isRevo && !(named || it.names nams)

theorem pays_connMsg {it : Item} (hs : Well c p net l s)
    (hpolite : it.rude (c.peers p) (s.named l) = false) :
    Pays c p net l 3 s (s.named l || it.names (c.peers p)) ((connMsg l it).run s).1
      ((connMsg l it).run s).2 := by
  unfold connMsg Item.names
  unfold Item.rude Item.names at hpolite
  cases hbody : it.msg.body with
  | rasp sucW =>
      simp only [Bool.or_false]
      exact (cheap_doRasp it.msg.temW sucW it.req s hs).more (by decide)
  | revo rest =>
      simp only [hbody, Body.isRevo, Bool.true_and, Bool.not_eq_false'] at hpolite
      simp only [hpolite]
      exact pays_doRevo hs hpolite
  | apen rest citD entD entU =>
      exact (cheap_doRest it.msg.temW rest s hs).more (by decide)

theorem connMsg_stops {it : Item} (hs : Well c p net l s)
    (hrude : it.rude (c.peers p) (s.named l) = true) :
    Fails net ((connMsg l it).run s).1 ((connMsg l it).run s).2 := by
  unfold Item.rude Item.names at hrude
  unfold connMsg
  cases hbody : it.msg.body with
  | rasp sucW => simp [hbody, Body.isRevo] at hrude
  | apen rest citD entD entU => simp [hbody, Body.isRevo] at hrude
  | revo rest =>
      simp only [hbody, Body.isRevo, Bool.true_and, Bool.not_eq_true'] at hrude
      exact doRevo_stops hs hrude

/-- No message of a chunk is rude when its turn comes. -/
def polite (nams : List Cstr) : Bool → List Item → Bool
  | _, [] => true
  | named, it :: its => !it.rude nams named && polite nams (named || it.names nams) its

theorem connFlush_ends (hs : Well c p net l s) :
    (∃ t, (connFlush l).run s = (.ok (), t) ∧ Stout c p t.net t.raf ∧ Grown net t.net) ∨
      (s.fuse = 0 ∧ Fails net ((connFlush l).run s).1 ((connFlush l).run s).2) := by
  have hst := hs.stout
  unfold connFlush
  rw [run_getRaf, run_getNet]
  split
  · next q hq =>
    split
    · exact .inl ⟨s, rfl, hst, hs.grown⟩
    · obtain ⟨raf, net', fuse, torn⟩ := s
      cases fuse with
      | zero => cases torn <;> exact .inr ⟨rfl, hs.grown⟩
      | succ n =>
          exact .inl ⟨_, rfl, hst.grow fun l' hj => joins_links rfl l' p hj, hs.grown.links rfl⟩
  · exact .inl ⟨s, rfl, hst, hs.grown⟩

/-- A chunk is handled to its end exactly if it is polite. -/
theorem connWork_ends (n : Nat) (hs : Well c p net l s)
    (hn : n ≤ (s.net.flow (l, p)).length) :
    (polite (c.peers p) (s.named l) ((s.net.flow (l, p)).take n) = true ∧
      (∃ t, (connWork l n).run s = (.ok (), t) ∧ Stout c p t.net t.raf ∧ Grown net t.net)) ∨
      ((polite (c.peers p) (s.named l) ((s.net.flow (l, p)).take n) = false ∨ s.fuse < 3 * n + 1) ∧
        Fails net ((connWork l n).run s).1 ((connWork l n).run s).2) := by
  induction n generalizing s with
  | zero =>
      obtain h | ⟨h0, h⟩ := connFlush_ends hs
      · exact .inl ⟨rfl, h⟩
      · exact .inr ⟨.inr (by rw [h0]; decide), h⟩
  | succ n ih =>
      cases hflow : s.net.flow (l, p) with
      | nil =>
          rw [hflow] at hn
          cases hn
      | cons it its =>
          rw [hflow, List.length_cons] at hn
          rw [List.take_succ_cons, polite]
          have hs' : Well c p net l { s with net := { s.net with
              flow := update s.net.flow (l, p) its } } := hs.setNet rfl
          have hrun : (connWork l (n + 1)).run s = (connMsg l it >>= fun _ => connWork l n).run
              { s with net := { s.net with flow := update s.net.flow (l, p) its } } := by
            rw [connWork, connNext, Run.run_bind, run_getRaf, run_getNet, hs.stout.strC, hflow]
            rfl
          rw [hrun, Run.run_bind]
          cases hrude : it.rude (c.peers p) (s.named l) with
          | true =>
              have hfail := connMsg_stops hs' hrude
              refine .inr ⟨.inl rfl, ?_⟩
              revert hfail
              rcases (connMsg l it).run { s with net := { s.net with
                flow := update s.net.flow (l, p) its } } with ⟨r, t⟩
              intro hfail
              cases r with
              | ok a => exact hfail.elim
              | stop e => exact hfail
              | spent => exact hfail
          | false =>
              have hpays := pays_connMsg hs' hrude
              revert hpays
              rcases (connMsg l it).run { s with net := { s.net with
                flow := update s.net.flow (l, p) its } } with ⟨r, t⟩
              intro hpays
              cases r with
              | stop e =>
                  have hlt : s.fuse < 3 := hpays.1
                  exact .inr ⟨.inr (by omega), hpays.2⟩
              | spent =>
                  have hlt : s.fuse < 3 := hpays.1
                  exact .inr ⟨.inr (by omega), hpays.2⟩
              | ok a =>
                  obtain ⟨ht, hfuse, hsame, hb⟩ := hpays
                  have ht : Well c p net l t := ht
                  have hfuse : s.fuse ≤ t.fuse + 3 := hfuse
                  have hb : t.named l = (s.named l || it.names (c.peers p)) := hb
                  have hits : t.net.flow (l, p) = its := by
                    have hsame : t.net.flow = update s.net.flow (l, p) its := hsame
                    rw [hsame, update_self]
                  have h := ih ht (by rw [hits]; omega)
                  rw [hits, hb] at h
                  simp only [Bool.not_false, Bool.true_and]
                  refine h.imp_right fun hno => ⟨hno.1.imp_right fun hlt => ?_, hno.2⟩
                  omega

end Cheap

/-! ### Other callbacks -/

/-- How a callback ends. -/
def Stays (c : Cluster) (p : Cstr) (net : Net) {α : Type} : Res Unit α → Proc → Prop
  | .ok _, s => Stout c p s.net s.raf ∧ Grown net s.net
  | _, s => Grown net s.net

/-- Inside a callback of a server that is not a follower. -/
structure Busy (c : Cluster) (p : Cstr) (net : Net) (s : Proc) : Prop where
  stout : Stout c p s.net s.raf
  grown : Grown net s.net
  typ : s.raf.typE ≠ .foll

/-- How a part of such a callback ends. -/
def Does (c : Cluster) (p : Cstr) (net : Net) {α : Type} : Res Unit α → Proc → Prop
  | .ok _, s => Busy c p net s
  | _, s => Grown net s.net

def Works (c : Cluster) (p : Cstr) (net : Net) {α : Type} (x : Act α) : Prop :=
  Run.Triple (Busy c p net) x (Does c p net)

section Works

variable {c : Cluster} {p : Cstr} {net : Net} {α β : Type} {s : Proc} {l : Link}

theorem Fails.stays {r : Res Unit α} (h : Fails net r s) : Stays c p net r s := by
  cases r with
  | ok a => exact h.elim
  | stop e => exact h
  | spent => exact h

theorem Works.bind {x : Act α} {f : α → Act β} (hx : Works c p net x)
    (hf : ∀ a, Works c p net (f a)) : Works c p net (x >>= f) :=
  Run.Triple.bind hx hf (fun _ _ h => h) fun _ h => h

theorem works_pure (a : α) : Works c p net (pure a) := fun _ h => h

theorem works_getRaf : Works c p net getRaf := fun _ h => h

theorem works_getNet : Works c p net getNet := fun _ h => h

theorem works_deref (l : Link) : Works c p net (deref l) := by
  intro s hs
  unfold deref
  rw [run_getRaf]
  split
  · exact hs
  · exact hs.grown

theorem works_modNet {f : Net → Net} (hlinks : ∀ net, (f net).links = net.links) :
    Works c p net (modNet f) :=
  fun s hs => ⟨hs.stout.grow fun l' hj => joins_links (hlinks s.net) l' p hj,
    hs.grown.links (hlinks s.net), hs.typ⟩

theorem works_syscall : Works c p net (syscall id) := by
  intro s hs
  obtain h | ⟨-, h⟩ | ⟨n, h⟩ := syscall_cases s id
  · rw [h]
    exact hs.grown
  · rw [h]
    exact hs.grown
  · rw [h]
    exact ⟨hs.stout, hs.grown, hs.typ⟩

theorem works_connFlush (l : Link) : Works c p net (connFlush l) := by
  refine works_getRaf.bind fun raf => works_getNet.bind fun net' => ?_
  split
  · split
    · exact works_pure ()
    · exact works_syscall.bind fun _ => works_modNet fun _ => rfl
  · exact works_pure ()

theorem works_rmsgQueue (l : Link) (it : Item) : Works c p net (rmsgQueue l it) := by
  refine works_getRaf.bind fun raf => works_modNet fun net' => ?_
  split
  · exact queue_links ..
  · rfl

theorem works_sendRreq {msg : Self → Rmsg} (hbody : ∀ raf, (msg raf).body.isRasp = false)
    (hterm : ∀ raf, (msg raf).temW = raf.temW) (l : Link) : Works c p net (sendRreq msg l) := by
  intro s hs
  unfold sendRreq
  cases hr : s.raf.rons l with
  | none =>
      rw [run_deref_none s hr]
      exact hs.grown
  | some ron =>
      rw [run_deref s hr, run_getRaf, run_check]
      split
      · rw [Run.run_bind, run_modRon s hr]
        refine works_rmsgQueue l _ _ ⟨?_, hs.grown, hs.typ⟩
        refine hs.stout.setRon hr rfl fun r hmem => ?_
        rcases List.mem_append.mp hmem with hold | hnew
        · exact hs.stout.waits l ron r hr hold
        · cases List.mem_singleton.mp hnew
          exact ⟨hbody _, UInt32.le_of_eq (hterm _), fun hf => absurd hf hs.typ⟩
      · exact hs.grown

theorem works_connNew {nam : Cstr} (hnam : nam ∈ c.peers p) : Works c p net (connNew nam) := by
  intro s hs
  have hst := hs.stout
  have hne : p ≠ nam := fun e => (mem_peers.mp hnam).2 e.symm
  have hfresh : ∀ l ron, s.raf.rons l = some ron → l < s.net.links.length :=
    fun l ron hr => joins_lt (hst.joined l ron hr)
  refine ⟨?_, ⟨?_, ?_⟩, hs.typ⟩
  · refine { hst with ronU := ?_, named := ?_, joined := ?_, waits := ?_ }
    · intro nam' l' hl'
      by_cases hn : nam' = nam
      · subst hn
        cases (update_self nam' _ _).symm.trans hl'
        exact ⟨_, update_self .., rfl⟩
      · obtain ⟨ron, hr, hn'⟩ := hst.ronU nam' l' ((update_of_ne hn _ _).symm.trans hl')
        have hll : l' ≠ s.net.links.length := Nat.ne_of_lt (hfresh l' ron hr)
        exact ⟨ron, (update_of_ne hll _ _).trans hr, hn'⟩
    · intro l' ron nam' hr hn
      by_cases hll : l' = s.net.links.length
      · subst hll
        cases (update_self s.net.links.length _ _).symm.trans hr
        cases hn
        exact hst.namU ▸ hnam
      · exact hst.named l' ron nam' ((update_of_ne hll _ _).symm.trans hr) hn
    · intro l' ron hr
      by_cases hll : l' = s.net.links.length
      · subst hll
        have hnew := open_joins_new s.net s.raf.strC nam p
        exact hnew.trans (decide_eq_true hst.strC)
      · have hj := hst.joined l' ron ((update_of_ne hll _ _).symm.trans hr)
        exact (open_joins_old s.raf.strC nam (joins_lt hj) p).trans hj
    · intro l' ron r hr hmem
      by_cases hll : l' = s.net.links.length
      · subst hll
        cases (update_self s.net.links.length _ _).symm.trans hr
        cases hmem
      · have hw := hst.waits l' ron r ((update_of_ne hll _ _).symm.trans hr) hmem
        exact ⟨hw.body, hw.term, hw.old⟩
  · intro l' q hj
    have hj := hs.grown.joins l' q hj
    exact (open_joins_old s.raf.strC nam (joins_lt hj) q).trans hj
  · intro k hk
    rcases List.mem_append.mp hk with hold | hnew
    · exact hs.grown.ends k hold
    · cases List.mem_singleton.mp hnew
      rw [hst.strC]
      exact hne

theorem works_connAll {conF : Link → Act Unit} (hcon : ∀ l, Works c p net (conF l))
    (nams : List Cstr) (hnams : ∀ nam ∈ nams, nam ∈ c.peers p) :
    Works c p net (connAll conF nams) := by
  induction nams with
  | nil => exact works_pure ()
  | cons nam nams ih =>
      have hlive : Works c p net (connLive nam) := by
        refine works_getRaf.bind fun raf => ?_
        split
        · exact works_pure _
        · exact (works_deref _).bind fun ron => works_pure _
      refine Works.bind (hlive.bind fun l => ?_) fun _ =>
        ih fun x hx => hnams x (List.mem_cons_of_mem _ hx)
      split
      · exact (hcon _).bind fun _ => works_connFlush _
      · exact (works_connNew (hnams nam (List.mem_cons_self ..))).bind fun l => hcon l

theorem Works.stays {x : Act α} (hx : Works c p net x) (hs : Busy c p net s) :
    Stays c p net (x.run s).1 (x.run s).2 := by
  have h := hx s hs
  revert h
  rcases x.run s with ⟨r, t⟩
  intro h
  cases r with
  | ok a => exact ⟨h.stout, h.grown⟩
  | stop e => exact h
  | spent => exact h

theorem works_revoAll (hs : Busy c p net s) :
    Stays c p net ((connAll sendRevo s.raf.namU).run s).1 ((connAll sendRevo s.raf.namU).run s).2 :=
  (works_connAll (works_sendRreq (fun _ => rfl) fun _ => rfl) _
    fun _ hnam => hs.stout.namU ▸ hnam).stays hs

theorem works_beatAll (hs : Busy c p net s) :
    Stays c p net ((connAll sendBeat s.raf.namU).run s).1 ((connAll sendBeat s.raf.namU).run s).2 :=
  (works_connAll (works_sendRreq (fun _ => rfl) fun _ => rfl) _
    fun _ hnam => hs.stout.namU ▸ hnam).stays hs

/-- A server becomes a candidate in the next term, with its own vote. -/
theorem Stout.elect {raf : Server} (h : Stout c p net raf) (hmax : raf.temW ≠ 0xffffffff) :
    Stout c p net { raf with
      temW := raf.temW + 1, typE := .cand, vog := fun _ => false, votW := 1 } :=
  { strC := h.strC, namU := h.namU, pop := h.pop, typ := fun he => nomatch he
    ronU := h.ronU, named := h.named, joined := h.joined
    waits := fun l ron r hr hmem => ⟨(h.waits l ron r hr hmem).body,
      UInt32.le_of_lt (UInt32.lt_of_le_of_lt (h.waits l ron r hr hmem).term (lt_add_one hmax)),
      fun he => nomatch he⟩
    foll := fun he => nomatch he
    count := fun _ => by simp }

theorem startElection_stays {raf : Server} (hst : Stout c p s.net raf) (hg : Grown net s.net)
    (hraf : s.raf = { raf with typE := .cand }) (hmax : raf.temW ≠ 0xffffffff) :
    Stays c p net (startElection.run s).1 (startElection.run s).2 := by
  unfold startElection
  rw [run_modRaf, Run.run_bind]
  obtain ⟨-, t, ht, hlinks⟩ | ⟨n, net', -, ht, hlinks, -⟩ :=
    oneCall_saveTerm { s with raf := { s.raf with temW := s.raf.temW + 1 } }
  · rw [ht]
    exact hg.links hlinks
  · rw [ht]
    simp only
    rw [run_modRaf, run_getRaf, Run.run_bind]
    obtain ⟨-, t', ht', hlinks'⟩ | ⟨n', net'', -, ht', hlinks', -⟩ := oneCall_saveVote s.raf.strC
      { s with
        raf := { s.raf with temW := s.raf.temW + 1, vog := fun _ => false, votW := 1 }
        net := net', fuse := n }
    · simp only [id]
      rw [ht']
      exact hg.links (hlinks'.trans hlinks)
    · simp only [id]
      rw [ht']
      simp only
      rw [run_getRaf]
      have hel := (hst.elect hmax).grow fun l' hj =>
        @joins_links s.net net'' (hlinks'.trans hlinks) l' p hj
      refine works_revoAll ⟨?_, hg.links (hlinks'.trans hlinks), ?_⟩
      · simp only [hraf]
        exact { hel with waits := fun l ron r hr hmem => ⟨(hel.waits l ron r hr hmem).body,
          (hel.waits l ron r hr hmem).term, (hel.waits l ron r hr hmem).old⟩ }
      · simp only [hraf]
        exact fun he => nomatch he

theorem timeCb_stays (hst : Stout c p s.net s.raf) (hg : Grown net s.net)
    (hmax : s.raf.typE ≠ .lead → s.raf.temW ≠ 0xffffffff) :
    Stays c p net (timeCb.run s).1 (timeCb.run s).2 := by
  unfold timeCb
  rw [run_getRaf]
  cases htyp : s.raf.typE with
  | none => exact hg
  | foll =>
      simp only
      rw [run_modRaf]
      exact startElection_stays hst hg rfl (hmax (by rw [htyp]; exact fun he => nomatch he))
  | cand =>
      refine startElection_stays hst hg ?_ (hmax (by rw [htyp]; exact fun he => nomatch he))
      rw [← htyp]
  | lead =>
      simp only [heartbeat]
      rw [run_getRaf]
      exact works_beatAll ⟨hst, hg, by rw [htyp]; exact fun he => nomatch he⟩

theorem connectCb_stays (hs : Well c p net l s) :
    Stays c p net ((connectCb l).run s).1 ((connectCb l).run s).2 := by
  obtain ⟨ron, hr⟩ := hs.here
  unfold connectCb
  rw [run_deref s hr, run_check]
  split
  · rw [Run.run_bind, run_modRon s hr]
    simp only
    obtain ⟨hw, -⟩ := @Well.setRon c p net l s l ron { ron with stat := .live } hs hr rfl
      fun _ hmem => hmem
    obtain ⟨t, ht, hst, hg⟩ | ⟨-, hfail⟩ := connFlush_ends hw
    · rw [ht]
      exact ⟨hst, hg⟩
    · exact hfail.stays
  · exact hs.grown

theorem connFree_stays (hs : Well c p net l s) :
    Stays c p net ((connFree l).run s).1 ((connFree l).run s).2 := by
  obtain ⟨ron, hr⟩ := hs.here
  have hst := hs.stout
  unfold connFree
  rw [run_deref s hr, run_modRaf, run_getRaf]
  have hlinks := (close_quieter s.net l s.raf.strC).links
  refine ⟨?_, hs.grown.links hlinks⟩
  refine Stout.grow ?_ fun l' hj => joins_links hlinks l' p hj
  refine { hst with ronU := ?_, named := ?_, joined := ?_, waits := ?_ }
  · intro nam l' hl'
    change (if ron.namU = some nam ∧ s.raf.ronU nam = some l then none else s.raf.ronU nam)
      = some l' at hl'
    split at hl'
    · cases hl'
    · next hne =>
      obtain ⟨ron', hr', hn'⟩ := hst.ronU nam l' hl'
      have hll : l' ≠ l := by
        intro he
        subst he
        cases hr.symm.trans hr'
        exact hne ⟨hn', hl'⟩
      exact ⟨ron', (update_of_ne hll _ _).trans hr', hn'⟩
  · intro l' ron' nam hr' hn'
    by_cases hll : l' = l
    · subst hll
      cases (update_self l' _ _).symm.trans hr'
    · exact hst.named l' ron' nam ((update_of_ne hll _ _).symm.trans hr') hn'
  · intro l' ron' hr'
    by_cases hll : l' = l
    · subst hll
      cases (update_self l' _ _).symm.trans hr'
    · exact hst.joined l' ron' ((update_of_ne hll _ _).symm.trans hr')
  · intro l' ron' r hr' hmem
    by_cases hll : l' = l
    · subst hll
      cases (update_self l' _ _).symm.trans hr'
    · have hw := hst.waits l' ron' r ((update_of_ne hll _ _).symm.trans hr') hmem
      exact ⟨hw.body, hw.term, hw.old⟩

theorem connDead_stays (hs : Well c p net l s) :
    Stays c p net ((connDead l).run s).1 ((connDead l).run s).2 := by
  obtain ⟨ron, hr⟩ := hs.here
  have h := pays_connDead hs hr
  revert h
  rcases (connDead l).run s with ⟨r, t⟩
  intro h
  cases r with
  | ok a => exact ⟨h.1.stout, h.1.grown⟩
  | stop e => exact h.2
  | spent => exact h.2

theorem connWork_stays {n : Nat} (hs : Well c p net l s) (hn : n ≤ (s.net.flow (l, p)).length) :
    Stays c p net ((connWork l n).run s).1 ((connWork l n).run s).2 := by
  obtain ⟨-, t, ht, hst, hg⟩ | ⟨-, hfail⟩ := connWork_ends n hs hn
  · rw [ht]
    exact ⟨hst, hg⟩
  · exact hfail.stays

end Works

/-! ### Runs -/

/-- Between callbacks, every server that is up is in order. -/
structure Sturdy (c : Cluster) (s : State) : Prop where
  stout : ∀ p raf, s.mem p = some raf → Stout c p s.net raf
  ends : ∀ k ∈ s.net.links, k.src ≠ k.dst

section steps

variable {c : Cluster} {p : Cstr} {s s' : State} {l : Link}

/-- The links of the net stay, and servers go. -/
theorem Sturdy.less {mem : Cstr → Option Server} {net : Net} (h : Sturdy c s)
    (hlinks : net.links = s.net.links) (hmem : ∀ p raf, mem p = some raf → s.mem p = some raf) :
    Sturdy c ⟨mem, net⟩ where
  stout := fun p raf hraf =>
    (h.stout p raf (hmem p raf hraf)).grow fun l hj => joins_links hlinks l p hj
  ends := by
    rw [show (State.mk mem net).net.links = s.net.links from hlinks]
    exact h.ends

theorem update_none {mem : Cstr → Option Server} {p' : Cstr} {raf : Server}
    (h : update mem p none p' = some raf) : mem p' = some raf := by
  by_cases hp : p' = p
  · subst hp
    cases (update_self p' _ _).symm.trans h
  · exact (update_of_ne hp _ _).symm.trans h

theorem Sturdy.exec {act : Act Unit} {kill : Kill} (h : Sturdy c s)
    (hact : ∀ t : Proc, s.mem p = some t.raf → t.net = s.net →
      Stays c p s.net (act.run t).1 (act.run t).2)
    (hexec : s.exec p kill act = some s') : Sturdy c s' := by
  obtain ⟨raf, hraf, rfl⟩ := Option.map_eq_some_iff.mp hexec
  have hstays := hact ⟨raf, s.net, kill.fuse, kill.torn⟩ hraf rfl
  revert hstays
  rcases act.run ⟨raf, s.net, kill.fuse, kill.torn⟩ with ⟨r, t⟩
  intro hstays
  have hgone : Grown s.net t.net → Sturdy c (State.crash ⟨s.mem, t.net⟩ p) := fun hg =>
    ⟨fun p' raf' hraf' => (h.stout p' raf' (update_none hraf')).grow fun l hj =>
      joins_links rfl l p' (hg.joins l p' hj), hg.ends⟩
  cases r with
  | ok a =>
      refine ⟨fun p' raf' hraf' => ?_, hstays.2.ends⟩
      by_cases hp : p' = p
      · subst hp
        cases (update_self p' _ _).symm.trans hraf'
        exact hstays.1
      · exact (h.stout p' raf' ((update_of_ne hp _ _).symm.trans hraf')).grow fun l hj =>
          hstays.2.joins l p' hj
  | stop e => exact hgone hstays
  | spent => exact hgone hstays

theorem Sturdy.refl (h : Sturdy c s) : Grown s.net s.net := ⟨fun _ _ hj => hj, h.ends⟩

/-- A callback on a connection that is there. -/
theorem Sturdy.well (h : Sturdy c s) {t : Proc} {stat : Stat} (ht : s.mem p = some t.raf)
    (hnet : t.net = s.net) (hstat : s.stat p l = some stat) : Well c p s.net l t := by
  rw [State.stat, ht] at hstat
  obtain ⟨ron, hr, -⟩ := Option.map_eq_some_iff.mp hstat
  exact ⟨hnet ▸ h.stout p t.raf ht, hnet ▸ h.refl, ron, hr⟩

theorem follInit_stout {sis : Sist} {tail : Cstr} {raf : Server} (net : Net)
    (hvote : (sis .vote).map (· ++ tail.str) ≠ some p.str)
    (h : follInit c p sis tail = some raf) : Stout c p net raf := by
  have hraf : raf.strC = p ∧ raf.namU = c.peers p ∧ raf.popW = 1 + (c.peers p).length ∧
      raf.typE = .foll ∧ raf.votW = 0 ∧ (∀ nam, raf.ronU nam = none) ∧
      ∀ l, raf.rons l = none := by
    unfold follInit at h
    split at h
    · cases h
    · cases h
    · split at h
      · cases h
        exact ⟨rfl, rfl, rfl, rfl, rfl, fun _ => rfl, fun _ => rfl⟩
      · next hv =>
        split at h
        · next heq =>
          subst heq
          exact absurd hv hvote
        · cases h
          exact ⟨rfl, rfl, rfl, rfl, rfl, fun _ => rfl, fun _ => rfl⟩
  obtain ⟨hstr, hnam, hpop, htyp, hvot, hronU, hrons⟩ := hraf
  refine
    { strC := hstr, namU := hnam, pop := ?_, typ := ?_, foll := fun _ => hvot
      count := fun hne => absurd htyp hne, ronU := ?_, named := ?_, joined := ?_, waits := ?_ }
  · rw [hpop, hnam]
  · rw [htyp]
    exact fun he => nomatch he
  · intro nam l hl
    cases (hronU nam).symm.trans hl
  · intro l ron nam hr
    cases (hrons l).symm.trans hr
  · intro l ron hr
    cases (hrons l).symm.trans hr
  · intro l ron r hr
    cases (hrons l).symm.trans hr

theorem Sturdy.accept (h : Sturdy c s) (hs : s.accept p l = some s') : Sturdy c s' := by
  obtain ⟨raf, hraf, hs⟩ := Option.bind_eq_some_iff.mp hs
  obtain ⟨k, hk, hs⟩ := Option.bind_eq_some_iff.mp hs
  obtain ⟨⟨rfl, hacc⟩, hs⟩ := Option.ite_none_right_eq_some.mp hs
  cases hs
  have hgrow : ∀ l' q, s.net.joins l' q = true → (s.net.join l k).joins l' q = true :=
    fun l' q hj => joins_of_join hk hj
  refine ⟨fun p' raf' hraf' => ?_, ?_⟩
  · by_cases hp : p' = k.dst
    · subst hp
      cases (update_self k.dst _ _).symm.trans hraf'
      have hst := (h.stout k.dst raf hraf).grow fun l' hj => hgrow l' k.dst hj
      -- the server had no end of this connection before
      have hnone : raf.rons l = none := by
        cases hr : raf.rons l with
        | none => rfl
        | some ron =>
            have hj := (h.stout k.dst raf hraf).joined l ron hr
            have hsrc := h.ends k (List.mem_of_getElem? hk)
            simp [Net.joins, hk, hacc, hsrc] at hj
      refine { hst with ronU := ?_, named := ?_, joined := ?_, waits := ?_ }
      · intro nam l' hl'
        obtain ⟨ron, hr, hn⟩ := hst.ronU nam l' hl'
        have hll : l' ≠ l := by
          intro he
          subst he
          cases hnone.symm.trans hr
        exact ⟨ron, (update_of_ne hll _ _).trans hr, hn⟩
      · intro l' ron nam hr hn
        by_cases hll : l' = l
        · subst hll
          cases (update_self l' _ _).symm.trans hr
          cases hn
        · exact hst.named l' ron nam ((update_of_ne hll _ _).symm.trans hr) hn
      · intro l' ron hr
        by_cases hll : l' = l
        · subst hll
          exact joins_join_dst hk
        · exact hst.joined l' ron ((update_of_ne hll _ _).symm.trans hr)
      · intro l' ron r hr hmem
        by_cases hll : l' = l
        · subst hll
          cases (update_self l' _ _).symm.trans hr
          cases hmem
        · have hw := hst.waits l' ron r ((update_of_ne hll _ _).symm.trans hr) hmem
          exact ⟨hw.body, hw.term, hw.old⟩
    · exact (h.stout p' raf' ((update_of_ne hp _ _).symm.trans hraf')).grow fun l' hj =>
        hgrow l' p' hj
  · intro k' hk'
    rcases List.mem_or_eq_of_mem_set hk' with hold | rfl
    · exact h.ends k' hold
    · exact h.ends k (List.mem_of_getElem? hk)

theorem Sturdy.next {a : Wild} (h : Sturdy c s) (hcivil : Civil s a)
    (hstep : wild c a s = some s') : Sturdy c s' := by
  cases a with
  | knock src dst =>
      obtain ⟨⟨hsrc, hdst⟩, hs⟩ := Option.ite_none_right_eq_some.mp hstep
      cases hs
      refine ⟨fun p raf hraf => (h.stout p raf hraf).grow fun l hj => ?_, fun k hk => ?_⟩
      · exact (open_joins_old src dst (joins_lt hj) p).trans hj
      · rcases List.mem_append.mp hk with hold | hnew
        · exact h.ends k hold
        · cases List.mem_singleton.mp hnew
          intro he
          have he : src = dst := he
          exact hsrc (he ▸ hdst)
  | forge e it =>
      cases hstep
      exact h.less rfl fun _ _ hraf => hraf
  | plain a =>
      cases a with
      | boot p tail =>
          obtain ⟨-, hs⟩ := Option.ite_none_right_eq_some.mp hstep
          cases hs
          refine ⟨fun p' raf hraf => ?_, h.ends⟩
          by_cases hp : p' = p
          · subst hp
            exact follInit_stout s.net hcivil ((update_self p' _ _).symm.trans hraf)
          · exact h.stout p' raf ((update_of_ne hp _ _).symm.trans hraf)
      | time p kill =>
          exact h.exec (fun t ht hnet => timeCb_stays (hnet ▸ h.stout p t.raf ht)
            (hnet ▸ h.refl) (hcivil t.raf ht)) hstep
      | work p l n kill =>
          obtain ⟨⟨hstat, hn⟩, hs⟩ := Option.ite_none_right_eq_some.mp hstep
          exact h.exec (fun t ht hnet => connWork_stays (h.well ht hnet hstat) (hnet ▸ hn)) hs
      | connect p l kill =>
          obtain ⟨hstat, hs⟩ := Option.ite_none_right_eq_some.mp hstep
          exact h.exec (fun t ht hnet => connectCb_stays (h.well ht hnet hstat)) hs
      | refuse p l =>
          obtain ⟨hstat, hs⟩ := Option.ite_none_right_eq_some.mp hstep
          exact h.exec (fun t ht hnet => connFree_stays (h.well ht hnet hstat)) hs
      | accept p l => exact h.accept hstep
      | lost p l =>
          obtain ⟨hstat, hs⟩ := Option.ite_none_right_eq_some.mp hstep
          exact h.exec (fun t ht hnet => connDead_stays (h.well ht hnet hstat)) hs
      | free p l =>
          obtain ⟨hstat, hs⟩ := Option.ite_none_right_eq_some.mp hstep
          exact h.exec (fun t ht hnet => connFree_stays (h.well ht hnet hstat)) hs
      | crash p =>
          obtain ⟨-, hs⟩ := Option.ite_none_left_eq_some.mp hstep
          cases hs
          exact h.less rfl fun _ _ hraf => update_none hraf
      | cut e n =>
          cases hstep
          exact h.less rfl fun _ _ hraf => hraf

theorem sturdy_init (c : Cluster) : Sturdy c State.init :=
  ⟨(fun _ _ h => nomatch h), List.forall_mem_nil _⟩

/-- In every run among strangers whose steps keep clear of the two slips: a chunk of
messages, whatever they are, is handled to its end and leaves the count in order
exactly if none of them asks for a vote on a connection that has no name when its turn
comes, in a name that is not a peer's. The process is not killed meanwhile, which three
system calls for each message and one at the end are enough for. -/
theorem handled_iff (c : Cluster) (h : Reachable State.init (wild c) Civil s) {raf : Server}
    (hraf : s.mem p = some raf) (hlive : s.stat p l = some .live) (n : Nat)
    (hn : n ≤ (s.net.flow (l, p)).length) (kill : Kill) (hkill : 3 * n + 1 ≤ kill.fuse) :
    (∃ t, (connWork l n).run ⟨raf, s.net, kill.fuse, kill.torn⟩ = (.ok (), t) ∧ Counted t.raf) ↔
      polite (c.peers p) ((raf.rons l).any (·.namU.isSome)) ((s.net.flow (l, p)).take n)
        = true := by
  have hs := h.invariant (sturdy_init c) fun _ _ _ hs hcivil hstep => hs.next hcivil hstep
  have hw : Well c p s.net l ⟨raf, s.net, kill.fuse, kill.torn⟩ := hs.well hraf rfl hlive
  obtain ⟨hyes, t, ht, hst, -⟩ | ⟨hno, hfail⟩ := connWork_ends n hw hn
  · exact ⟨fun _ => hyes, fun _ => ⟨t, ht, hst.counted⟩⟩
  · refine ⟨?_, fun hyes => ?_⟩
    · rintro ⟨t, ht, -⟩
      rw [ht] at hfail
      exact hfail.elim
    · obtain hno | hlt := hno
      · cases hyes.symm.trans hno
      · have hlt : kill.fuse < 3 * n + 1 := hlt
        omega

/-- The same for the whole run: between callbacks the count is always in order. -/
theorem counted_always (c : Cluster) (h : Reachable State.init (wild c) Civil s) {raf : Server}
    (hraf : s.mem p = some raf) : Counted raf :=
  ((h.invariant (sturdy_init c) fun _ _ _ hs hcivil hstep => hs.next hcivil hstep).stout p raf
    hraf).counted

/-! ### A stranger -/

/-- Whether a step is civil. -/
def civil (s : State) : Wild → Bool
  | .plain (.boot p tail) => (s.net.sis p .vote).map (· ++ tail.str) != some p.str
  | .plain (.time p _) => (s.mem p).all fun raf => raf.typE = .lead || raf.temW != 0xffffffff
  | _ => true

theorem civil_iff {a : Wild} (h : civil s a = true) : Civil s a := by
  cases a with
  | plain a =>
      cases a with
      | boot p tail => simpa [civil, Civil] using h
      | time p kill =>
          intro raf hraf hlead
          simpa [civil, hraf, hlead] using h
      | _ => trivial
  | _ => trivial

/-- A request for a vote in a name. -/
def askFrom (nam : Cstr) : Item :=
  let msg : Rmsg := ⟨0, 0, 1, .revo ⟨0, 0, 1, nam.str ++ [0]⟩⟩
  ⟨msg, ⟨msg, 0⟩⟩

/-- Somebody connects to the first server and asks for its vote in the name `nam`. -/
def visitA (nam : Cstr) : List Wild :=
  [.plain (.boot nameA nul), .knock nameC nameA, .plain (.accept nameA 0),
    .forge (0, nameA) (askFrom nam)]

/-- The first server after a stranger has asked for its vote. -/
theorem counted_always_visitA : ∃ s raf,
    Reachable State.init (wild duo) Civil s ∧ s.mem nameA = some raf ∧ Counted raf := by
  have hrun : ((runs (guarded civil (wild duo)) (visitA nameC) State.init).any fun s =>
      (s.mem nameA).isSome) = true := by decide
  obtain ⟨s, hs, htest⟩ := Reachable.of_guarded (fun _ _ => civil_iff) (visitA nameC) hrun
  obtain ⟨raf, hraf⟩ := Option.isSome_iff_exists.mp htest
  exact ⟨s, raf, hs, hraf, counted_always duo hs hraf⟩

/-- In the name of the second server the vote is given, also to a stranger. -/
theorem handled_iff_visitA : ∃ s raf t,
    Reachable State.init (wild duo) Civil s ∧ s.mem nameA = some raf ∧
      (connWork 0 1).run ⟨raf, s.net, 100, false⟩ = (.ok (), t) ∧ Counted t.raf := by
  have hrun : ((runs (guarded civil (wild duo)) (visitA nameB) State.init).any fun s =>
      (s.mem nameA).any fun raf => s.stat nameA 0 = some .live &&
        decide (1 ≤ (s.net.flow (0, nameA)).length) &&
        polite (duo.peers nameA) ((raf.rons 0).any (·.namU.isSome))
          ((s.net.flow (0, nameA)).take 1)) = true := by decide
  obtain ⟨s, hs, htest⟩ := Reachable.of_guarded (fun _ _ => civil_iff) (visitA nameB) hrun
  simp only [Option.any_eq_true, Bool.and_eq_true, decide_eq_true_eq] at htest
  obtain ⟨raf, hraf, ⟨hlive, hn⟩, hpolite⟩ := htest
  obtain ⟨t, ht, hcount⟩ :=
    (handled_iff duo hs hraf hlive 1 hn ⟨100, false⟩ (by decide)).mpr hpolite
  exact ⟨s, raf, t, hs, hraf, ht, hcount⟩

/-- In a name that nobody has, it ends the process, although nothing kills it. -/
theorem stranger_stops : ∃ s raf,
    Reachable State.init (wild duo) Civil s ∧ s.mem nameA = some raf ∧
      s.stat nameA 0 = some .live ∧ s.net.flow (0, nameA) = [askFrom nameC] ∧
      ((connWork 0 1).run ⟨raf, s.net, 100, false⟩).1 = .stop () := by
  have hrun : ((runs (guarded civil (wild duo)) (visitA nameC) State.init).any fun s =>
      (s.mem nameA).any fun raf => s.stat nameA 0 = some .live &&
        decide (s.net.flow (0, nameA) = [askFrom nameC]) &&
        decide (((connWork 0 1).run ⟨raf, s.net, 100, false⟩).1 = .stop ())) = true := by
    decide
  obtain ⟨s, hs, htest⟩ := Reachable.of_guarded (fun _ _ => civil_iff) (visitA nameC) hrun
  simp only [Option.any_eq_true, Bool.and_eq_true, decide_eq_true_eq] at htest
  obtain ⟨raf, hraf, ⟨hlive, hflow⟩, hstop⟩ := htest
  exact ⟨s, raf, hs, hraf, hlive, hflow, hstop⟩

end steps

end Vere.Raft
