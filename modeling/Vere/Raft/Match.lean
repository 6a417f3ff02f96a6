import Vere.Raft.Conn

/-!
# Vere.Raft.Match

Which request a response is processed against.

`_raft_do_rasp` takes the request at the head of the queue, and `_raft_do_apen`
does not respond. So from the first heartbeat on, the queue of a connection is
ahead of the responses: a response is processed against the request it answers
exactly if no heartbeat was sent on the connection before that request
(`response_matched_iff`). In particular a server that led, lost the lead and asks
for votes again over the same connections does not count the votes it is given
(`vote_lost_behind_beat`).
-/

namespace Vere.Raft

open Vere.Lib Function

/-! ### Steps that do not touch connections -/

namespace SameLinks

theorem refl (s : Proc) : SameLinks s s := ⟨rfl, rfl, rfl, rfl, rfl, rfl, rfl, rfl⟩

theorem trans (s t u : Proc) (h : SameLinks s t) (h' : SameLinks t u) : SameLinks s u :=
  ⟨h'.strC.trans h.strC, h'.namU.trans h.namU, h'.rons.trans h.rons, h'.links.trans h.links,
    h'.wri.trans h.wri, h'.flow.trans h.flow, h'.shut.trans h.shut, h'.log.trans h.log⟩

end SameLinks

/-- Whatever the action does, the connections stay as they are. -/
def Inert {α : Type} (x : Act α) : Prop := Run.Within SameLinks x

section Inert

variable {α β : Type}

theorem inert_pure (a : α) : Inert (pure a) := Run.within_pure SameLinks.refl a

theorem inert_stop : Inert (Run.stop () : Act α) := Run.within_stop SameLinks.refl ()

theorem inert_getRaf : Inert getRaf := Run.within_read SameLinks.refl _

theorem Inert.bind {x : Act α} {f : α → Act β} (hx : Inert x) (hf : ∀ a, Inert (f a)) :
    Inert (x >>= f) :=
  Run.Within.bind SameLinks.trans hx hf

theorem inert_check (P : Prop) [Decidable P] : Inert (check P) := by
  unfold check
  split
  · exact inert_pure ()
  · exact inert_stop

theorem inert_syscall {torn : Net → Net} (h : ∀ s : Proc, SameLinks s { s with net := torn s.net }) :
    Inert (syscall torn) := by
  intro s
  obtain hs | ⟨-, hs⟩ | ⟨n, hs⟩ := syscall_cases s torn
  · rw [hs]
    exact SameLinks.refl s
  · rw [hs]
    exact h s
  · rw [hs]
    exact ⟨rfl, rfl, rfl, rfl, rfl, rfl, rfl, rfl⟩

theorem inert_sistPut (key : Key) (val : List UInt8) : Inert (sistPut key val) :=
  inert_getRaf.bind fun _ => (inert_syscall fun _ => ⟨rfl, rfl, rfl, rfl, rfl, rfl, rfl, rfl⟩).bind
    fun _ _ => ⟨rfl, rfl, rfl, rfl, rfl, rfl, rfl, rfl⟩

theorem inert_sistNil (key : Key) : Inert (sistNil key) :=
  inert_getRaf.bind fun _ => (inert_syscall SameLinks.refl).bind
    fun _ _ => ⟨rfl, rfl, rfl, rfl, rfl, rfl, rfl, rfl⟩

theorem inert_saveTerm : Inert saveTerm :=
  inert_getRaf.bind fun _ => (inert_sistPut _ _).bind fun _ _ =>
    ⟨rfl, rfl, rfl, rfl, rfl, rfl, rfl, rfl⟩

theorem inert_saveVote (nam : Cstr) : Inert (saveVote nam) := by
  unfold saveVote
  refine Inert.bind ?_ fun _ => inert_getRaf.bind fun raf => (inert_sistPut _ _).bind fun _ => ?_
  · exact fun s => ⟨rfl, rfl, rfl, rfl, rfl, rfl, rfl, rfl⟩
  · exact fun s => ⟨rfl, rfl, rfl, rfl, rfl, rfl, rfl, rfl⟩

theorem inert_clearVote : Inert clearVote := by
  unfold clearVote
  refine Inert.bind ?_ fun _ => inert_getRaf.bind fun raf => (inert_sistNil _).bind fun _ => ?_
  · exact fun s => ⟨rfl, rfl, rfl, rfl, rfl, rfl, rfl, rfl⟩
  · exact fun s => ⟨rfl, rfl, rfl, rfl, rfl, rfl, rfl, rfl⟩

theorem inert_demote : Inert demote := by
  unfold demote
  refine inert_getRaf.bind fun raf => inert_clearVote.bind fun _ => Inert.bind ?_ fun _ =>
    inert_check _
  exact fun s => ⟨rfl, rfl, rfl, rfl, rfl, rfl, rfl, rfl⟩

theorem inert_noteTerm (temW : UInt32) : Inert (noteTerm temW) := by
  unfold noteTerm
  refine inert_getRaf.bind fun raf => ?_
  split
  · refine Inert.bind ?_ fun _ => inert_saveTerm.bind fun _ => ?_
    · exact fun s => ⟨rfl, rfl, rfl, rfl, rfl, rfl, rfl, rfl⟩
    · split
      · exact inert_check _
      · exact (inert_check _).bind fun _ => inert_demote
  · exact inert_pure ()

theorem inert_promote : Inert promote := by
  unfold promote
  refine inert_getRaf.bind fun raf => ?_
  split
  · exact inert_pure ()
  · refine (inert_check _).bind fun _ => ?_
    exact fun s => ⟨rfl, rfl, rfl, rfl, rfl, rfl, rfl, rfl⟩

theorem inert_countVote (nam : Cstr) (req : Rreq) (sucW : UInt32) :
    Inert (countVote nam req sucW) := by
  unfold countVote
  refine inert_getRaf.bind fun raf => ?_
  split
  · exact fun s => ⟨rfl, rfl, rfl, rfl, rfl, rfl, rfl, rfl⟩
  · exact inert_pure ()

theorem inert_rreqDone (nam : Cstr) (req : Rreq) (sucW : UInt32) :
    Inert (rreqDone nam req sucW) := by
  unfold rreqDone
  split
  · exact inert_pure ()
  · refine (inert_countVote nam req sucW).bind fun _ => inert_getRaf.bind fun raf => ?_
    split
    · exact inert_promote
    · exact inert_pure ()
  · exact inert_stop

theorem inert_deref (l : Link) : Inert (deref l) := by
  unfold deref
  refine inert_getRaf.bind fun raf => ?_
  split
  · exact inert_pure _
  · exact inert_stop

end Inert

/-! ### Callbacks -/

/-- How a part of a callback of `p` ends: as it should, or with the process gone. -/
def Fine (c : Cluster) (mem : Cstr → Option Server) (p : Cstr) (front : Front) {α : Type} :
    Res Unit α → Proc → Prop
  | .ok _, s => Keeps c mem p front s
  | _, s => Gone c mem p s

/-- A part of a callback of `p` that starts with `front` in hand and ends with
`front'`. -/
def Holds (c : Cluster) (mem : Cstr → Option Server) (p : Cstr) (front front' : Front) {α : Type}
    (x : Act α) : Prop :=
  Run.Triple (Keeps c mem p front) x (Fine c mem p front')

variable {c : Cluster} {mem : Cstr → Option Server} {p : Cstr} {front front' front'' : Front}

theorem Holds.bind {α β : Type} {x : Act α} {f : α → Act β} (hx : Holds c mem p front front' x)
    (hf : ∀ a, Holds c mem p front' front'' (f a)) : Holds c mem p front front'' (x >>= f) :=
  Run.Triple.bind hx hf (fun _ _ h => h) fun _ h => h

theorem holds_pure {α : Type} (a : α) : Holds c mem p front front (pure a) := fun _ h => h

theorem Inert.holds {α : Type} {x : Act α} (hx : Inert x) : Holds c mem p front front x := by
  intro s hs
  have h : Keeps c mem p front (x.run s).2 := hs.same (hx s)
  revert h
  rcases x.run s with ⟨r, s'⟩
  intro h
  cases r with
  | ok a => exact h
  | stop e => exact h.gone
  | spent => exact h.gone

theorem holds_connDead (l : Link) : Holds c mem p front front (connDead l) := by
  intro s hs
  unfold connDead
  cases hr : s.raf.rons l with
  | none =>
      rw [run_deref_none s hr]
      exact hs.gone
  | some ron =>
      rw [run_deref s hr]
      by_cases hlive : ron.stat = .live
      · rw [if_pos hlive]
        refine hs.quieter (close_quieter s.net l _) (close_log ..) rfl rfl ?_
        intro l' ron' hr'
        by_cases hl : l' = l
        · subst hl
          cases ((update_self l' _ _).symm.trans hr').symm.trans (congrArg _ hr)
          exact ⟨ron, hr, rfl, rfl, rfl⟩
        · exact ⟨ron', (update_of_ne hl _ _).symm.trans hr', rfl, rfl, rfl⟩
      · rw [if_neg hlive]
        exact hs

theorem stream_flush (net : Net) (e : End) (front : Front) (e' : End) :
    (net.flush e).stream front e' = net.stream front e' := by
  by_cases he : e' = e
  · subst he
    simp [Net.flush, Net.stream]
  · simp [Net.flush, Net.stream, he]

theorem holds_connFlush (l : Link) : Holds c mem p front front (connFlush l) := by
  intro s hs
  unfold connFlush
  rw [run_getRaf, run_getNet]
  split
  · next q hq =>
    split
    · exact hs
    · obtain h | ⟨-, h⟩ | ⟨n, h⟩ := syscall_cases s id
      · rw [Run.run_bind, h]
        exact hs.gone
      · rw [Run.run_bind, h]
        exact hs.gone
      · rw [Run.run_bind, h]
        exact hs.reframe rfl rfl rfl hs.log (stream_flush s.net (l, q) front) hs.front
  · exact hs

/-! ### Requests -/

/-- A function that fills in a request of the server `p`. -/
structure Asks (p : Cstr) (msg : Self → Rmsg) : Prop where
  isReq : ∀ raf, (msg raf).body.isRasp = false
  item : ∀ raf n, raf.strC = p → ItemOk p ⟨msg raf, ⟨msg raf, n⟩⟩

theorem asks_beat (hp : p ∈ c.names) : Asks p fun raf => writeApen raf 0 0 0 ⟨[], by decide⟩ where
  isReq _ := rfl
  item := by
    intro raf n h
    have hname := @writeRest_name raf (h ▸ c.short p hp) 0 0
    rw [h] at hname
    exact hname

theorem asks_revo (hp : p ∈ c.names) : Asks p writeRevo where
  isReq _ := rfl
  item := by
    intro raf n h
    have hname := @writeRest_name raf (h ▸ c.short p hp) raf.entD raf.latW
    rw [h] at hname
    exact ⟨rfl, hname⟩

theorem holds_sendRreq {msg : Self → Rmsg} (hmsg : Asks p msg) (l : Link) :
    Holds c mem p idle idle (sendRreq msg l) := by
  intro s hs
  unfold sendRreq
  cases hr : s.raf.rons l with
  | none =>
      rw [run_deref_none s hr]
      exact hs.gone
  | some ron =>
      obtain ⟨q, hc⟩ := hs.own.rons l ron hr
      rw [run_deref s hr, run_getRaf, run_check]
      split
      · next hnam =>
        have hk := hs.send hr hnam (hmsg.isReq s.raf.toSelf) hc.other
          (hmsg.item s.raf.toSelf ron.sent.length hs.own.strC)
        have hother : s.net.other l s.raf.strC = some q := hs.own.strC ▸ hc.other
        rw [Run.run_bind, run_modRon s hr]
        simp only
        rw [run_rmsgQueue (q := q)]
        · exact hk
        · exact hother
      · exact hs.gone

theorem holds_connNew {nam : Cstr} (hnam : nam ∈ c.peers p) :
    Holds c mem p front front (connNew nam) := by
  intro s hs
  have hk := hs.open hnam (update s.raf.ronU nam (some s.net.links.length))
  rw [← hs.own.strC] at hk
  nth_rewrite 1 [hs.own.strC] at hk
  exact hk

theorem holds_connLive (nam : Cstr) : Holds c mem p front front (connLive nam) := by
  refine Holds.bind inert_getRaf.holds fun raf => ?_
  split
  · exact holds_pure _
  · exact (inert_deref _).holds.bind fun ron => holds_pure _

theorem holds_connAll {msg : Self → Rmsg} (hmsg : Asks p msg) (nams : List Cstr)
    (hnams : ∀ nam ∈ nams, nam ∈ c.peers p) :
    Holds c mem p idle idle (connAll (sendRreq msg) nams) := by
  induction nams with
  | nil => exact holds_pure ()
  | cons nam nams ih =>
      refine Holds.bind ?_ fun _ => ih fun x hx => hnams x (List.mem_cons_of_mem _ hx)
      refine Holds.bind (holds_connLive nam) fun l => ?_
      cases l with
      | some l => exact (holds_sendRreq hmsg l).bind fun _ => holds_connFlush l
      | none =>
          refine (holds_connNew (hnams nam (List.mem_cons_self ..))).bind fun l => ?_
          exact holds_sendRreq hmsg l

/-! ### Messages -/

variable {l : Link} {it : Item}

theorem holds_closeOld (l : Link) (old : Option Link) :
    Holds c mem p front front (closeOld l old) := by
  cases old with
  | none => exact holds_pure ()
  | some old => exact (inert_check _).holds.bind fun _ => holds_connDead old

/-- An end gets its name from the first request that comes in. -/
theorem holds_setName {nam : Cstr}
    (hnam : ∀ s q, Keeps c mem p front s → s.net.other l p = some q → nam = q) :
    Holds c mem p front front (modRon l fun ron => { ron with namU := some nam }) := by
  intro s hs
  cases hr : s.raf.rons l with
  | none =>
      rw [run_modRon_none s hr]
      exact hs
  | some ron =>
      rw [run_modRon s hr]
      exact hs.setRon hr fun q hc =>
        { hc with
          named := fun n hn => by cases hn; exact hnam s q hs hc.other
          nameless := fun h => nomatch h }

theorem holds_restName {namC : List UInt8}
    (hname : ∀ s q, Keeps c mem p front s → s.net.other l p = some q → namC = q.str) :
    Holds c mem p front front (restName l namC) := by
  refine (inert_deref l).holds.bind fun ron => ?_
  split
  · split
    · exact holds_pure ()
    · exact holds_connDead l
  · refine inert_getRaf.holds.bind fun raf => ?_
    split
    · exact holds_connDead l
    · next nam hfind =>
      refine (holds_closeOld l _).bind fun _ => Holds.bind (Inert.holds ?_) fun _ =>
        holds_setName fun s q hs hq => ?_
      · exact fun s => ⟨rfl, rfl, rfl, rfl, rfl, rfl, rfl, rfl⟩
      · have hstr := List.find?_some hfind
        exact Cstr.ext ((of_decide_eq_true hstr).trans (hname s q hs hq))

theorem Keeps.item {s : Proc} {q : Cstr} (h : Keeps c mem p (hold l p [it]) s)
    (hq : s.net.other l p = some q) : ItemOk q it := by
  refine h.wires.items l p q it hq ?_
  rw [stream_hold]
  exact List.mem_cons_self ..

theorem holds_doRest {rest : Rest} (temW : UInt32)
    (hname : ∀ q, ItemOk q it → rest.name = q.str) :
    Holds c mem p (hold l p [it]) (hold l p [it]) (doRest l temW rest) :=
  (holds_restName fun _ q hs hq => hname q (hs.item hq)).bind fun _ => (inert_noteTerm temW).holds

theorem holds_doApen {rest : Rest} {citD entD : UInt64} {entU : List Rent}
    (hbody : it.msg.body = .apen rest citD entD entU) (temW : UInt32) :
    Holds c mem p (hold l p [it]) (hold l p []) (doApen l temW rest) := by
  have hname : ∀ q, ItemOk q it → rest.name = q.str := by
    intro q h
    unfold ItemOk at h
    rw [hbody] at h
    exact h
  refine (holds_doRest temW hname).imp fun r s h => ?_
  cases r with
  | ok a =>
      obtain ⟨q, hq⟩ := h.other
      exact h.skip (by rw [hbody]; rfl) (by rw [hbody]; rfl) hq
  | stop e => exact h
  | spent => exact h

theorem holds_sendRasp (hit : it.msg.body.isRevo = true) (suc : UInt32) :
    Holds c mem p (hold l p [it]) (hold l p []) (sendRasp l suc it.req) := by
  intro s hs
  obtain ⟨q, hq⟩ := hs.other
  have hother : s.net.other l s.raf.strC = some q := hs.own.strC ▸ hq
  unfold sendRasp
  rw [run_getRaf, run_rmsgQueue hother]
  exact hs.serve rfl hit hq

theorem holds_doRevo {rest : Rest} (hbody : it.msg.body = .revo rest) (temW : UInt32) :
    Holds c mem p (hold l p [it]) (hold l p []) (doRevo l temW rest it.req) := by
  have hrevo : it.msg.body.isRevo = true := by rw [hbody]; rfl
  have hname : ∀ q, ItemOk q it → rest.name = q.str := by
    intro q h
    unfold ItemOk at h
    rw [hbody] at h
    exact h.2
  refine (holds_doRest temW hname).bind fun _ => (inert_deref l).holds.bind fun ron =>
    inert_getRaf.holds.bind fun raf => ?_
  split
  · exact fun s hs => hs.gone
  · split
    · exact (inert_saveVote _).holds.bind fun _ => holds_sendRasp hrevo 1
    · exact holds_sendRasp hrevo 0

/-- The head of the queue is taken off. -/
theorem holds_popRreq (hrasp : it.msg.body.isRasp = true) :
    Holds c mem p (hold l p [it]) (hold l p [])
      (modRon l fun ron => { ron with outU := ron.outU.tail }) := by
  intro s hs
  cases hr : s.raf.rons l with
  | none =>
      obtain ⟨q, hq⟩ := hs.other
      rw [run_modRon_none s hr]
      refine hs.drop (isRevo_of_isRasp hrasp) hq rfl rfl rfl (fun _ _ => rfl) ?_
      intro ron hron
      cases hr.symm.trans hron
  | some ron =>
      rw [run_modRon s hr]
      exact hs.pop hrasp hr

theorem holds_doRasp {sucW : UInt32} (hbody : it.msg.body = .rasp sucW) (temW : UInt32) :
    Holds c mem p (hold l p [it]) (hold l p []) (doRasp l temW sucW it.req) := by
  have hrasp : it.msg.body.isRasp = true := by rw [hbody]; rfl
  intro s hs
  unfold doRasp
  cases hr : s.raf.rons l with
  | none =>
      rw [run_deref_none s hr]
      exact hs.gone
  | some ron =>
      obtain ⟨q, hc⟩ := hs.own.rons l ron hr
      have hpend := hc.pipe.pending (answers_hold hrasp ron)
      simp only [pipeOf] at hpend
      have hlog : Keeps c mem p (hold l p [it])
          { s with net := { s.net with
            log := ⟨ron.sent, ron.outU.head?, it.req⟩ :: s.net.log } } := by
        refine hs.reframe rfl rfl rfl ?_ (fun _ => rfl) hs.front
        intro m hm
        cases hm with
        | head => exact hc.match_ok hrasp
        | tail _ hm => exact hs.log m hm
      rw [run_deref s hr, run_modNet]
      split
      · -- a connection without a name has made no requests
        next hnam =>
        rw [hc.nameless hnam] at hpend
        cases hpend
      · next hout =>
        rw [hout] at hpend
        exact absurd hpend (Nat.lt_irrefl _)
      · next nam req tail hnam hout =>
        have h : Holds c mem p (hold l p [it]) (hold l p []) (do
            rreqDone nam req sucW
            noteTerm temW
            modRon l fun ron => { ron with outU := ron.outU.tail }) :=
          (inert_rreqDone nam req sucW).holds.bind fun _ =>
            (inert_noteTerm temW).holds.bind fun _ => holds_popRreq hrasp
        exact h _ hlog

theorem holds_connMsg : Holds c mem p (hold l p [it]) (hold l p []) (connMsg l it) := by
  unfold connMsg
  split
  · next hbody => exact holds_doApen hbody _
  · next hbody => exact holds_doRevo hbody _
  · next hbody => exact holds_doRasp hbody _

theorem holds_connNext (l : Link) : Holds c mem p (hold l p []) (hold l p []) (connNext l) := by
  intro s hs
  unfold connNext
  rw [run_getRaf, run_getNet, hs.own.strC]
  cases hflow : s.net.flow (l, p) with
  | nil => exact hs
  | cons it its => exact holds_connMsg _ (hs.take hflow)

theorem holds_connWork (l : Link) (n : Nat) :
    Holds c mem p (hold l p []) (hold l p []) (connWork l n) := by
  induction n with
  | zero => exact holds_connFlush l
  | succ n ih => exact (holds_connNext l).bind fun _ => ih

/-! ### Timeouts and connections -/

theorem holds_connPeers {msg : Self → Rmsg} (hmsg : Asks p msg) :
    Holds c mem p idle idle (getRaf >>= fun raf => connAll (sendRreq msg) raf.namU) := by
  intro s hs
  rw [run_getRaf]
  exact holds_connAll hmsg s.raf.namU (fun nam h => hs.own.namU ▸ h) s hs

theorem holds_startElection (hp : p ∈ c.names) : Holds c mem p idle idle startElection := by
  unfold startElection
  refine Holds.bind (Inert.holds ?_) fun _ => inert_saveTerm.holds.bind fun _ =>
    Holds.bind (Inert.holds ?_) fun _ => inert_getRaf.holds.bind fun raf =>
      (inert_saveVote raf.strC).holds.bind fun _ => holds_connPeers (asks_revo hp)
  · exact fun s => ⟨rfl, rfl, rfl, rfl, rfl, rfl, rfl, rfl⟩
  · exact fun s => ⟨rfl, rfl, rfl, rfl, rfl, rfl, rfl, rfl⟩

theorem holds_timeCb (hp : p ∈ c.names) : Holds c mem p idle idle timeCb := by
  unfold timeCb
  refine inert_getRaf.holds.bind fun raf => ?_
  split
  · exact fun s hs => hs.gone
  · refine Holds.bind (Inert.holds ?_) fun _ => holds_startElection hp
    exact fun s => ⟨rfl, rfl, rfl, rfl, rfl, rfl, rfl, rfl⟩
  · exact holds_startElection hp
  · exact holds_connPeers (asks_beat hp)

theorem holds_connectCb (l : Link) : Holds c mem p front front (connectCb l) := by
  unfold connectCb
  refine (inert_deref l).holds.bind fun ron => (inert_check _).holds.bind fun _ =>
    Holds.bind ?_ fun _ => holds_connFlush l
  intro s hs
  cases hr : s.raf.rons l with
  | none =>
      rw [run_modRon_none s hr]
      exact hs
  | some ron =>
      rw [run_modRon s hr]
      exact hs.setRon hr fun q hc => { hc with }

theorem holds_connFree (l : Link) : Holds c mem p front front (connFree l) := by
  intro s hs
  unfold connFree
  cases hr : s.raf.rons l with
  | none =>
      rw [run_deref_none s hr]
      exact hs.gone
  | some ron =>
      rw [run_deref s hr]
      refine hs.quieter (close_quieter s.net l _) (close_log ..) rfl rfl ?_
      intro l' ron' hr'
      by_cases hl : l' = l
      · subst hl
        cases (update_self l' _ _).symm.trans hr'
      · exact ⟨ron', (update_of_ne hl _ _).symm.trans hr', rfl, rfl, rfl⟩

/-! ### Steps -/

variable {s s' : State}

theorem Linked.keeps (h : Linked c s) {raf : Server} (hraf : s.mem p = some raf) (kill : Kill) :
    Keeps c s.mem p idle ⟨raf, s.net, kill.fuse, kill.torn⟩ where
  wires := h.wires
  own := h.conns p raf hraf
  rest := fun p' raf' _ hraf' => h.conns p' raf' hraf'
  log := h.log
  front := fun _ he => absurd rfl he

theorem Keeps.linked {t : Proc} (h : Keeps c s.mem p idle t) :
    Linked c ⟨update s.mem p (some t.raf), t.net⟩ where
  wires := h.wires
  conns := by
    intro p' raf hraf
    by_cases hp : p' = p
    · subst hp
      cases (update_self p' _ _).symm.trans hraf
      exact h.own
    · exact h.rest p' raf hp ((update_of_ne hp _ _).symm.trans hraf)
  log := h.log

theorem Linked.exec {act : Act Unit} {kill : Kill} (h : Linked c s)
    (hact : ∀ t : Proc, s.mem p = some t.raf → Keeps c s.mem p idle t →
      Fine c s.mem p idle (act.run t).1 (act.run t).2)
    (hexec : s.exec p kill act = some s') : Linked c s' := by
  obtain ⟨raf, hraf, rfl⟩ := Option.map_eq_some_iff.mp hexec
  have hfine := hact ⟨raf, s.net, kill.fuse, kill.torn⟩ hraf (h.keeps hraf kill)
  revert hfine
  rcases act.run ⟨raf, s.net, kill.fuse, kill.torn⟩ with ⟨r, t⟩
  intro hfine
  cases r with
  | ok a => exact Keeps.linked hfine
  | stop e => exact hfine
  | spent => exact hfine

theorem Linked.quieter {net : Net} (h : Linked c s) (hq : Quieter s.net net)
    (hlog : net.log = s.net.log) (hmem : ∀ p raf, mem p = some raf → s.mem p = some raf) :
    Linked c ⟨mem, net⟩ where
  wires := hq.wires h.wires
  conns := fun p raf hraf => hq.conns (h.conns p raf (hmem p raf hraf))
  log := hlog ▸ h.log

theorem follInit_conns {sis : Sist} {tail : Cstr} {raf : Server} (hp : p ∈ c.names) {net : Net}
    (h : follInit c p sis tail = some raf) : Conns c idle net p raf := by
  unfold follInit at h
  have hrons : raf.strC = p ∧ raf.namU = c.peers p ∧ ∀ l, raf.rons l = none := by
    split at h
    · cases h
    · cases h
    · split at h
      · cases h
        exact ⟨rfl, rfl, fun _ => rfl⟩
      · split at h
        · cases h
          exact ⟨rfl, rfl, fun _ => rfl⟩
        · cases h
          exact ⟨rfl, rfl, fun _ => rfl⟩
  refine ⟨hrons.1, hp, hrons.2.1, ?_⟩
  intro l ron hr
  cases (hrons.2.2 l).symm.trans hr

/-! ### Accepting -/

/-- A link is accepted. -/
def Net.join (net : Net) (l : Link) (k : Lnk) : Net :=
  { net with links := net.links.set l { k with acc := true } }

section accept

variable {net : Net} {l : Link} {k : Lnk} (hk : net.links[l]? = some k)

include hk

theorem join_other (l' : Link) (p : Cstr) : (net.join l k).other l' p = net.other l' p := by
  have hlt := (List.getElem?_eq_some_iff.mp hk).1
  by_cases hl : l' = l
  · subst hl
    simp only [Net.other, Net.join, List.getElem?_set_self hlt, hk, Option.bind_some]
  · simp [Net.other, Net.join, List.getElem?_set_ne (Ne.symm hl)]

theorem joins_of_join {l' : Link} {p : Cstr} (h : net.joins l' p = true) :
    (net.join l k).joins l' p = true := by
  have hlt := (List.getElem?_eq_some_iff.mp hk).1
  by_cases hl : l' = l
  · subst hl
    simp only [Net.joins, hk, Option.any_some, Bool.or_eq_true, Bool.and_eq_true,
      decide_eq_true_eq] at h
    simp only [Net.joins, Net.join, List.getElem?_set_self hlt, Option.any_some, Bool.true_and,
      Bool.or_eq_true, decide_eq_true_eq]
    exact h.imp_right And.right
  · simpa [Net.joins, Net.join, List.getElem?_set_ne (Ne.symm hl)] using h

theorem joins_join_dst : (net.join l k).joins l k.dst = true := by
  have hlt := (List.getElem?_eq_some_iff.mp hk).1
  simp [Net.joins, Net.join, hlt]

end accept

theorem Linked.accept {l : Link} (h : Linked c s) (hs : s.accept p l = some s') :
    Linked c s' := by
  obtain ⟨raf, hraf, hs⟩ := Option.bind_eq_some_iff.mp hs
  obtain ⟨k, hk, hs⟩ := Option.bind_eq_some_iff.mp hs
  split at hs
  · next hacc =>
    obtain ⟨rfl, hacc⟩ := hacc
    cases hs
    have hother := join_other hk
    have hconns : ∀ p' raf, Conns c idle s.net p' raf → Conns c idle (s.net.join l k) p' raf := by
      intro p' raf hc
      refine { hc with rons := fun l' ron hr => (hc.rons l' ron hr).imp fun q hq => ?_ }
      exact hq.congr ((hother l' p').trans hq.other) (joins_of_join hk hq.joins) rfl rfl rfl rfl
    refine ⟨⟨?_, ?_, ?_, ?_⟩, ?_, h.log⟩
    · intro l' p' q ho
      exact h.wires.ends l' p' q ((hother l' p').symm.trans ho)
    · intro l' p' ho
      exact h.wires.unused l' p' ((hother l' p').symm.trans ho)
    · intro l' p' q ho hj
      refine h.wires.unjoined l' p' q ((hother l' p').symm.trans ho) ?_
      by_contra hne
      cases (joins_of_join hk (Bool.not_eq_false _ ▸ hne)).symm.trans hj
    · intro l' p' q it ho hit
      exact h.wires.items l' p' q it ((hother l' p').symm.trans ho) hit
    · intro p' raf' hraf'
      by_cases hp : p' = k.dst
      · subst hp
        cases (update_self k.dst _ _).symm.trans hraf'
        have hc := hconns k.dst raf (h.conns k.dst raf hraf)
        refine { hc with rons := ?_ }
        intro l' ron hr
        by_cases hl : l' = l
        · subst hl
          cases (update_self l' _ _).symm.trans hr
          -- nothing was sent from this end before, and so nothing was answered
          obtain ⟨q, hq⟩ := joins_other (joins_join_dst hk)
          have hq' := (hother l' k.dst).symm.trans hq
          have hsrc : k.src ≠ k.dst := by
            intro he
            have hself : s.net.other l' k.dst = some k.dst := by simp [Net.other, hk, he]
            exact (h.wires.ends l' k.dst k.dst hself).2.2 rfl
          have hunjoined : s.net.joins l' k.dst = false := by simp [Net.joins, hk, hacc, hsrc]
          obtain ⟨hout, hin⟩ := h.wires.unjoined l' k.dst q hq' hunjoined
          refine ⟨q, hq, joins_join_dst hk, (fun _ h => by cases h), fun _ => rfl, ?_,
            List.suffix_rfl, ?_⟩
          · intro i r hi
            cases hi
          · exact pipe_unused hin hout
        · exact hc.rons l' ron ((update_of_ne hl _ _).symm.trans hr)
      · exact hconns p' raf' (h.conns p' raf' ((update_of_ne hp _ _).symm.trans hraf'))
  · cases hs

/-! ### Runs -/

theorem Linked.next {a : Action} (h : Linked c s) (hstep : step c a s = some s') :
    Linked c s' := by
  have hmember : ∀ p raf, s.mem p = some raf → p ∈ c.names := fun p raf hraf =>
    (h.conns p raf hraf).member
  cases a with
  | boot p tail =>
      obtain ⟨⟨hp, -⟩, hs⟩ := Option.ite_none_right_eq_some.mp hstep
      cases hs
      refine { h with conns := ?_ }
      intro p' raf hraf
      by_cases hpp : p' = p
      · subst hpp
        exact follInit_conns hp ((update_self p' _ _).symm.trans hraf)
      · exact h.conns p' raf ((update_of_ne hpp _ _).symm.trans hraf)
  | time p kill =>
      exact h.exec (fun t ht hk => holds_timeCb (hmember p _ ht) t hk) hstep
  | work p l n kill =>
      obtain ⟨⟨hstat, -⟩, hs⟩ := Option.ite_none_right_eq_some.mp hstep
      refine h.exec (fun t ht hk => ?_) hs
      rw [State.stat, ht] at hstat
      obtain ⟨ron, hr, -⟩ := Option.map_eq_some_iff.mp hstat
      have hfine := holds_connWork l n t (hk.start hr)
      revert hfine
      rcases (connWork l n).run t with ⟨r, t'⟩
      intro hfine
      cases r with
      | ok a => exact Keeps.finish hfine
      | stop e => exact hfine
      | spent => exact hfine
  | connect p l kill =>
      obtain ⟨-, hs⟩ := Option.ite_none_right_eq_some.mp hstep
      exact h.exec (fun t _ hk => holds_connectCb l t hk) hs
  | refuse p l =>
      obtain ⟨-, hs⟩ := Option.ite_none_right_eq_some.mp hstep
      exact h.exec (fun t _ hk => holds_connFree l t hk) hs
  | accept p l => exact h.accept hstep
  | lost p l =>
      obtain ⟨-, hs⟩ := Option.ite_none_right_eq_some.mp hstep
      exact h.exec (fun t _ hk => holds_connDead l t hk) hs
  | free p l =>
      obtain ⟨-, hs⟩ := Option.ite_none_right_eq_some.mp hstep
      exact h.exec (fun t _ hk => holds_connFree l t hk) hs
  | crash p =>
      obtain ⟨-, hs⟩ := Option.ite_none_left_eq_some.mp hstep
      cases hs
      refine h.quieter (exit_quieter s.net p) rfl ?_
      intro p' raf hraf
      by_cases hp : p' = p
      · subst hp
        cases (update_self p' _ _).symm.trans hraf
      · exact (update_of_ne hp _ _).symm.trans hraf
  | cut e n =>
      cases hstep
      exact h.quieter (cut_quieter s.net e n) rfl fun _ _ hraf => hraf

theorem linked_init (c : Cluster) : Linked c State.init where
  wires := by
    refine ⟨?_, fun _ _ _ => rfl, ?_, ?_⟩
    · intro l p q ho
      cases ho
    · intro l p q ho
      cases ho
    · intro l p q it ho
      cases ho
  conns := fun _ _ h => nomatch h
  log := List.forall_mem_nil _

/-- In every run, a response is processed against the request it answers, which is a
request for a vote, exactly if no heartbeat was sent on the connection before that
request. -/
theorem response_matched_iff (c : Cluster)
    (h : Reachable State.init (step c) (fun _ _ => True) s) (m : Match) (hm : m ∈ s.net.log) :
    m.ask.isRevo = true ∧
      (m.head = some m.ask ↔ ∀ r ∈ m.sent, r.seq < m.ask.seq → r.isRevo = true) :=
  (h.invariant (linked_init c) fun _ _ _ hs _ hstep => hs.next hstep).log m hm

/-! ### Two servers -/

/-- The name `b:1`, for concrete cases. -/
def nameB : Cstr := ⟨[98, 58, 49], by decide⟩

/-- Memory that happens to hold a terminator. -/
def nul : Cstr := ⟨[], by decide⟩

def duo : Cluster where
  names := [nameA, nameB]
  nodup := by decide
  many := by decide
  filled := by decide
  short := by decide

/-- Not killed in this callback. -/
def spared : Kill := ⟨100, false⟩

/-- The first server asks the second for its vote and is elected. -/
def electA : List Action :=
  [.boot nameA nul, .boot nameB nul, .time nameA spared, .connect nameA 0 spared, .accept nameB 0,
    .work nameB 0 1 spared, .work nameA 0 1 spared]

/-- Then it sends a heartbeat, loses an election to the second, and asks for its vote
again, all over the same connection. -/
def electAgain : List Action :=
  electA ++
    [.time nameA spared, .work nameB 0 1 spared, .time nameB spared, .work nameA 0 1 spared,
      .work nameB 0 1 spared, .time nameA spared, .work nameB 0 1 spared, .work nameA 0 1 spared]

theorem reached {acts : List Action} {P : State → Bool}
    (h : (runs (step c) acts State.init).any P = true) :
    ∃ s, Reachable State.init (step c) (fun _ _ => True) s ∧ P s = true :=
  Reachable.of_runs (fun _ _ => trivial) acts h

theorem response_matched_first : ∃ s m,
    Reachable State.init (step duo) (fun _ _ => True) s ∧ m ∈ s.net.log ∧
      m.head = some m.ask := by
  have hrun : ((runs (step duo) electA State.init).any fun s => s.net.log.any fun m =>
      m.sent.all fun r => r.isRevo) = true := by decide
  obtain ⟨s, hs, hlog⟩ := reached hrun
  obtain ⟨m, hm, hsent⟩ := List.any_eq_true.mp hlog
  refine ⟨s, m, hs, hm, (response_matched_iff duo hs m hm).2.mpr ?_⟩
  intro r hr _
  exact List.all_eq_true.mp hsent r hr

/-- The vote the second server gives is taken for a response to the heartbeat, and
not counted. -/
theorem vote_lost_behind_beat : ∃ s m r raf,
    Reachable State.init (step duo) (fun _ _ => True) s ∧ m ∈ s.net.log ∧
      m.head = some r ∧ r.isRevo = false ∧ m.ask.isRevo = true ∧
      ⟨nameB, 3, nameA⟩ ∈ s.net.casts ∧ s.mem nameA = some raf ∧
      raf.temW = 3 ∧ raf.typE = .cand ∧ raf.votW = 1 := by
  have hrun : ((runs (step duo) electAgain State.init).any fun s =>
      (s.net.log.any fun m => (m.head.any fun r => !r.isRevo) && m.ask.isRevo) &&
      decide (⟨nameB, 3, nameA⟩ ∈ s.net.casts) &&
      (s.mem nameA).any fun raf => raf.temW = 3 && raf.typE = .cand && raf.votW = 1) = true := by
    decide
  obtain ⟨s, hs, htest⟩ := reached hrun
  simp only [Bool.and_eq_true, List.any_eq_true, Option.any_eq_true, decide_eq_true_eq,
    Bool.not_eq_true'] at htest
  obtain ⟨⟨⟨m, hm, ⟨r, hr, hapen⟩, hask⟩, hcast⟩, raf, hraf, ⟨hterm, htyp⟩, hvot⟩ := htest
  exact ⟨s, m, r, raf, hs, hm, hr, hapen, hask, hcast, hraf, hterm, htyp, hvot⟩

end Vere.Raft
