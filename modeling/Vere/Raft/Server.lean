import Vere.Lib.Run
import Vere.Raft.Wire
import Mathlib.Logic.Function.Basic

/-!
# Vere.Raft.Server

The server of `v/raft.c`: its state, the handlers of messages and timeouts, and
the start from the `sist` store.

A handler runs in one process. It changes the memory of the process (`Server`) and
what outlasts it (`Net`): the files of the store and the streams of the
connections. It ends early when an assertion fails, a freed pointer is followed
or the process is killed, and memory is lost then.

* **System calls.** The process can be killed before any of them. A `put` is an
  `open` with `O_TRUNC` and a `write`; a *torn* kill falls between the two and
  leaves an empty file.
* **Connections.** A connection is a `Link`, a number shared by its two ends. What
  a server has written is on the way to the other end, in order; what it has only
  queued (`wri_u`) is lost with the process. A closed end adds nothing more.
* **History.** `sent`, `wrote`, `casts`, `log`, the `seq` of a request and the
  `req` of a message are not in the source and decide nothing. They say which
  requests were made, what was stored, who voted for whom, and which request a
  response answers.

Timers are left out: a timeout can come at any time. `run_u`, the list of nameless
connections, is not kept apart from the other connections.
-/

namespace Vere.Raft

open Vere.Lib Function

/-! ### Store -/

/-- The keys the server stores under. -/
inductive Key
  | term
  | vote
  deriving Repr, DecidableEq

/-- The files of the `sist` store. -/
abbrev Sist := Key → Option (List UInt8)

/-! ### Memory -/

/-- `u2_raty`. -/
inductive Raty
  | none
  | foll
  | cand
  | lead
  deriving Repr, DecidableEq

/-- A connection, as both of its ends know it. -/
abbrev Link := Nat

/-- `u2_rreq`: a request that was sent. `seq` is how many were made before it on
its connection. -/
structure Rreq where
  msgU : Rmsg
  seq : Nat
  deriving Repr, DecidableEq

/-- A message on the way. `req` is the request it is, or the request it answers. -/
structure Item where
  msg : Rmsg
  req : Rreq
  deriving Repr, DecidableEq

/-- `liv` of a connection, which is no before it is up and after it was closed. -/
inductive Stat
  | wait
  | live
  | dead
  deriving Repr, DecidableEq

/-- `u2_rcon`: one end of a connection, with the queue of its requests. `sent` are
all requests that were ever made on it. -/
structure Rcon where
  namU : Option Cstr
  stat : Stat
  outU : List Rreq
  sent : List Rreq

/-- `u2_raft`. The list of peers is split into their names, their `ron_u` and their
`vog`. -/
structure Server extends Self where
  typE : Raty
  popW : Nat
  votW : Nat
  vogC : Option Cstr
  namU : List Cstr
  ronU : Cstr → Option Link
  vog : Cstr → Bool
  rons : Link → Option Rcon

/-! ### Outside of the process -/

/-- An end of a connection: the link and the server there. -/
abbrev End := Link × Cstr

/-- Who opened a connection and who is to accept it. -/
structure Lnk where
  src : Cstr
  dst : Cstr
  acc : Bool
  deriving DecidableEq

/-- A vote that was stored. -/
structure Cast where
  who : Cstr
  tem : UInt32
  cand : Cstr
  deriving DecidableEq

/-- A response that was processed: the requests made on its connection, the one at
the head of the queue, and the one it answers. -/
structure Match where
  sent : List Rreq
  head : Option Rreq
  ask : Rreq
  deriving DecidableEq

/-- The stores and the streams. A stream is named by the end it leads to. -/
structure Net where
  sis : Cstr → Sist
  links : List Lnk
  wri : End → List Item
  flow : End → List Item
  shut : End → Bool
  wrote : Cstr → UInt32 × Option Cstr
  casts : List Cast
  log : List Match

/-- The server at the other end, if `p` is at one. -/
def Net.other (net : Net) (l : Link) (p : Cstr) : Option Cstr :=
  net.links[l]?.bind fun k =>
    if k.src = p then some k.dst else if k.dst = p then some k.src else none

/-- Nothing more is added to a stream, and what is queued for it is lost. -/
def Net.hush (net : Net) (e : End) : Net :=
  { net with shut := update net.shut e true, wri := update net.wri e [] }

/-- Queue a message for a stream. Nothing is added to one that is shut. -/
def Net.queue (net : Net) (e : End) (it : Item) : Net :=
  if net.shut e then net else { net with wri := update net.wri e (net.wri e ++ [it]) }

/-- Write what is queued for a stream. -/
def Net.flush (net : Net) (e : End) : Net :=
  { net with
    flow := update net.flow e (net.flow e ++ net.wri e)
    wri := update net.wri e [] }

/-- Close the socket at `p`. -/
def Net.close (net : Net) (l : Link) (p : Cstr) : Net :=
  match net.other l p with
  | some q => net.hush (l, q)
  | none => net

/-! ### Processes -/

/-- A running server. `fuse` is the number of system calls until it is killed. -/
structure Proc where
  raf : Server
  net : Net
  fuse : Nat
  torn : Bool

/-- What a server does. It stops when the process is gone. -/
abbrev Act := Run Proc Unit

def getRaf : Act Server := Run.read (·.raf)
def getNet : Act Net := Run.read (·.net)
def modRaf (f : Server → Server) : Act Unit := Run.modify fun s => { s with raf := f s.raf }
def modNet (f : Net → Net) : Act Unit := Run.modify fun s => { s with net := f s.net }

/-- `c3_assert`. -/
def check (P : Prop) [Decidable P] : Act Unit := if P then pure () else Run.stop ()

/-- A system call is about to be made; `torn` is what a torn kill leaves. -/
def syscall (torn : Net → Net) : Act Unit := ⟨fun s =>
  match s.fuse with
  | 0 => (.stop (), if s.torn then { s with net := torn s.net } else s)
  | n + 1 => (.ok (), { s with fuse := n })⟩

/-- The connection a pointer leads to, which is gone if it was freed. -/
def deref (l : Link) : Act Rcon := do
  match (← getRaf).rons l with
  | some ron => pure ron
  | none => Run.stop ()

def modRon (l : Link) (f : Rcon → Rcon) : Act Unit :=
  modRaf fun raf => { raf with rons := update raf.rons l ((raf.rons l).map f) }

section running

variable {β : Type} (s : Proc)

@[simp] theorem run_getRaf (f : Server → Act β) : (getRaf >>= f).run s = (f s.raf).run s := rfl

@[simp] theorem run_getNet (f : Net → Act β) : (getNet >>= f).run s = (f s.net).run s := rfl

@[simp] theorem run_modRaf (g : Server → Server) (f : Unit → Act β) :
    (modRaf g >>= f).run s = (f ()).run { s with raf := g s.raf } := rfl

@[simp] theorem run_modNet (g : Net → Net) (f : Unit → Act β) :
    (modNet g >>= f).run s = (f ()).run { s with net := g s.net } := rfl

theorem run_check {P : Prop} [Decidable P] (f : Unit → Act β) :
    (check P >>= f).run s = if P then (f ()).run s else (.stop (), s) := by
  unfold check
  split <;> rfl

theorem run_deref {l : Link} {ron : Rcon} (h : s.raf.rons l = some ron) (f : Rcon → Act β) :
    (deref l >>= f).run s = (f ron).run s := by
  show ((match s.raf.rons l with
    | some ron => pure ron
    | none => Run.stop () : Act Rcon) >>= f).run s = _
  rw [h]
  rfl

theorem run_deref_none {l : Link} (h : s.raf.rons l = none) (f : Rcon → Act β) :
    (deref l >>= f).run s = (.stop (), s) := by
  show ((match s.raf.rons l with
    | some ron => pure ron
    | none => Run.stop () : Act Rcon) >>= f).run s = _
  rw [h]
  rfl

theorem run_modRon {l : Link} {ron : Rcon} (h : s.raf.rons l = some ron) (g : Rcon → Rcon) :
    (modRon l g).run s
      = (.ok (), { s with raf := { s.raf with rons := update s.raf.rons l (some (g ron)) } }) := by
  show (Res.ok (), { s with raf := { s.raf with
    rons := update s.raf.rons l ((s.raf.rons l).map g) } }) = _
  rw [h]
  rfl

theorem run_modRon_none {l : Link} (h : s.raf.rons l = none) (g : Rcon → Rcon) :
    (modRon l g).run s = (.ok (), s) := by
  show (Res.ok (), { s with raf := { s.raf with
    rons := update s.raf.rons l ((s.raf.rons l).map g) } }) = _
  rw [h, Option.map_none, ← h, update_eq_self]

/-- A system call is made, or the process is gone before it or in the middle of it. -/
theorem syscall_cases (torn : Net → Net) :
    (syscall torn).run s = (.stop (), s) ∨
      (s.torn = true ∧ (syscall torn).run s = (.stop (), { s with net := torn s.net })) ∨
      ∃ n, (syscall torn).run s = (.ok (), { s with fuse := n }) := by
  cases s with
  | mk raf net fuse isTorn =>
      cases fuse with
      | zero =>
          cases isTorn with
          | false => exact .inl rfl
          | true => exact .inr (.inl ⟨rfl, rfl⟩)
      | succ n => exact .inr (.inr ⟨n, rfl⟩)

end running

/-! ### Storing -/

def Net.write (net : Net) (p : Cstr) (key : Key) (val : Option (List UInt8)) : Net :=
  { net with sis := update net.sis p (update (net.sis p) key val) }

/-- `u2_sist_put`. -/
def sistPut (key : Key) (val : List UInt8) : Act Unit := do
  let raf ← getRaf
  syscall (·.write raf.strC key (some []))
  modNet (·.write raf.strC key (some val))

/-- `u2_sist_nil`. -/
def sistNil (key : Key) : Act Unit := do
  let raf ← getRaf
  syscall id
  modNet (·.write raf.strC key none)

/-- History: a server has stored a term. -/
def Net.wroteTerm (net : Net) (p : Cstr) (temW : UInt32) : Net :=
  { net with wrote := update net.wrote p (temW, (net.wrote p).2) }

/-- History: a server has stored a vote, or removed it. -/
def Net.wroteVote (net : Net) (p : Cstr) (vogC : Option Cstr) : Net :=
  { net with wrote := update net.wrote p ((net.wrote p).1, vogC) }

/-- History: a vote is cast. -/
def Net.vote (net : Net) (x : Cast) : Net := { net with casts := x :: net.casts }

/-- Store the term. -/
def saveTerm : Act Unit := do
  let raf ← getRaf
  sistPut .term (word raf.temW)
  modNet (·.wroteTerm raf.strC raf.temW)

/-- Set `vog_c` and store it, without a terminator. -/
def saveVote (nam : Cstr) : Act Unit := do
  modRaf fun raf => { raf with vogC := some nam }
  let raf ← getRaf
  sistPut .vote nam.str
  modNet fun net => (net.wroteVote raf.strC (some nam)).vote ⟨raf.strC, raf.temW, nam⟩

/-- Clear `vog_c` and remove it from the store. -/
def clearVote : Act Unit := do
  modRaf fun raf => { raf with vogC := none }
  let raf ← getRaf
  sistNil .vote
  modNet (·.wroteVote raf.strC none)

/-! ### Connections -/

/-- `_raft_conn_dead`. -/
def connDead (l : Link) : Act Unit := do
  let ron ← deref l
  if ron.stat = .live then
    modRon l fun ron => { ron with stat := .dead }
    let raf ← getRaf
    modNet (·.close l raf.strC)
  else pure ()

/-- `_raft_rmsg_send`. -/
def rmsgQueue (l : Link) (it : Item) : Act Unit := do
  let raf ← getRaf
  modNet fun net =>
    match net.other l raf.strC with
    | some q => net.queue (l, q) it
    | none => net

theorem run_rmsgQueue {s : Proc} {l : Link} {q : Cstr} (h : s.net.other l s.raf.strC = some q)
    (it : Item) : (rmsgQueue l it).run s = (.ok (), { s with net := s.net.queue (l, q) it }) := by
  show (Res.ok (), { s with net := match s.net.other l s.raf.strC with
    | some q => s.net.queue (l, q) it
    | none => s.net }) = _
  rw [h]

/-- The end of `_raft_conn_work`: write what is queued. -/
def connFlush (l : Link) : Act Unit := do
  let raf ← getRaf
  let net ← getNet
  match net.other l raf.strC with
  | some q =>
      if net.wri (l, q) = [] then pure ()
      else
        syscall id
        modNet (·.flush (l, q))
  | none => pure ()

/-- `_raft_rreq_new` and the send that follows it, which asserts a name. -/
def sendRreq (msg : Self → Rmsg) (l : Link) : Act Unit := do
  let ron ← deref l
  let raf ← getRaf
  check (ron.namU ≠ none)
  let req : Rreq := ⟨msg raf.toSelf, ron.sent.length⟩
  modRon l fun ron => { ron with outU := ron.outU ++ [req], sent := ron.sent ++ [req] }
  rmsgQueue l ⟨req.msgU, req⟩

/-- `_raft_send_beat`. -/
def sendBeat : Link → Act Unit := sendRreq fun raf => writeApen raf 0 0 0 ⟨[], by decide⟩

/-- `_raft_send_revo`. -/
def sendRevo : Link → Act Unit := sendRreq writeRevo

/-- `_raft_send_rasp`. -/
def sendRasp (l : Link) (suc : UInt32) (req : Rreq) : Act Unit := do
  let raf ← getRaf
  rmsgQueue l ⟨writeRasp raf.toSelf suc, req⟩

/-- `_raft_conn_new` for a peer. -/
def connNew (nam : Cstr) : Act Link := do
  let raf ← getRaf
  let l := (← getNet).links.length
  modNet fun net => { net with links := net.links ++ [⟨raf.strC, nam, false⟩] }
  modRaf fun raf =>
    { raf with
      rons := update raf.rons l (some ⟨some nam, .wait, [], []⟩)
      ronU := update raf.ronU nam (some l) }
  pure l

/-- The connection to a peer, if it has one that is live. -/
def connLive (nam : Cstr) : Act (Option Link) := do
  match (← getRaf).ronU nam with
  | none => pure none
  | some l =>
      let ron ← deref l
      pure (if ron.stat = .live then some l else none)

/-- The body of the loop in `_raft_conn_all`. -/
def connPeer (conF : Link → Act Unit) (nam : Cstr) : Act Unit := do
  match ← connLive nam with
  | some l =>
      conF l
      connFlush l
  | none =>
      let l ← connNew nam
      conF l

/-- `_raft_conn_all`, for the peers that are left. -/
def connAll (conF : Link → Act Unit) : List Cstr → Act Unit
  | [] => pure ()
  | nam :: nams => do
      connPeer conF nam
      connAll conF nams

/-! ### Handlers -/

/-- `_raft_promote`. -/
def promote : Act Unit := do
  let raf ← getRaf
  if raf.typE = .lead then pure ()
  else
    check (raf.popW = 1 ∨ raf.typE = .cand)
    modRaf fun raf => { raf with typE := .lead }

/-- `_raft_demote`. -/
def demote : Act Unit := do
  let raf ← getRaf
  clearVote
  modRaf fun raf => { raf with votW := 0, typE := .foll }
  check (raf.typE = .lead ∨ raf.typE = .cand)

/-- `_raft_note_term`. -/
def noteTerm (temW : UInt32) : Act Unit := do
  let raf ← getRaf
  if raf.temW < temW then
    modRaf fun raf => { raf with temW := temW }
    saveTerm
    if raf.typE = .foll then check (raf.votW = 0)
    else
      check (raf.typE ≠ .none)
      demote
  else pure ()

/-- In `_raft_rest_name`: close the connection a peer had. -/
def closeOld (l : Link) : Option Link → Act Unit
  | some old => do
      check (old ≠ l)
      connDead old
  | none => pure ()

/-- `_raft_rest_name`. -/
def restName (l : Link) (namC : List UInt8) : Act Unit := do
  let ron ← deref l
  match ron.namU with
  | some nam => if nam.str = namC then pure () else connDead l
  | none =>
      let raf ← getRaf
      match raf.namU.find? fun nam => nam.str = namC with
      | none => connDead l
      | some nam =>
          closeOld l (raf.ronU nam)
          modRaf fun raf => { raf with ronU := update raf.ronU nam (some l) }
          modRon l fun ron => { ron with namU := some nam }

/-- The name in a request, which ends at its first zero byte. -/
def Rest.name (rest : Rest) : List UInt8 := rest.namC.takeWhile (· ≠ 0)

/-- `_raft_do_rest`. -/
def doRest (l : Link) (temW : UInt32) (rest : Rest) : Act Unit := do
  restName l rest.name
  noteTerm temW

/-- `_raft_do_apen`, which does not answer. -/
def doApen (l : Link) (temW : UInt32) (rest : Rest) : Act Unit := doRest l temW rest

/-- Whether `_raft_do_revo` grants a vote to `nam`. -/
def grants (raf : Server) (nam : Cstr) (temW : UInt32) (rest : Rest) : Bool :=
  raf.temW ≤ temW && (raf.vogC = none || raf.vogC = some nam) &&
    (raf.latW < rest.latW || (raf.latW = rest.latW && raf.entD ≤ rest.laiD))

/-- `_raft_do_revo`. -/
def doRevo (l : Link) (temW : UInt32) (rest : Rest) (req : Rreq) : Act Unit := do
  doRest l temW rest
  let ron ← deref l
  let raf ← getRaf
  match ron.namU with
  | none => Run.stop ()
  | some nam =>
      if grants raf nam temW rest then
        saveVote nam
        sendRasp l 1 req
      else sendRasp l 0 req

/-- In `_raft_revo_done`: count a vote for the current term, once for each peer. -/
def countVote (nam : Cstr) (req : Rreq) (sucW : UInt32) : Act Unit := do
  let raf ← getRaf
  if sucW ≠ 0 ∧ req.msgU.temW = raf.temW ∧ raf.vog nam = false then
    modRaf fun raf => { raf with vog := update raf.vog nam true, votW := raf.votW + 1 }
  else pure ()

/-- `_raft_revo_done`. -/
def revoDone (nam : Cstr) (req : Rreq) (sucW : UInt32) : Act Unit := do
  countVote nam req sucW
  let raf ← getRaf
  if raf.popW / 2 < raf.votW then promote else pure ()

/-- In `_raft_do_rasp`: what a response to a request does, by the type of the
request. `_raft_apen_done` does nothing. -/
def rreqDone (nam : Cstr) (req : Rreq) (sucW : UInt32) : Act Unit :=
  match req.msgU.body with
  | .apen _ _ _ _ => pure ()
  | .revo _ => revoDone nam req sucW
  | .rasp _ => Run.stop ()

/-- `_raft_do_rasp`. -/
def doRasp (l : Link) (temW : UInt32) (sucW : UInt32) (ask : Rreq) : Act Unit := do
  let ron ← deref l
  modNet fun net => { net with log := ⟨ron.sent, ron.outU.head?, ask⟩ :: net.log }
  match ron.namU, ron.outU with
  | none, _ => connDead l
  | some _, [] => connDead l
  | some nam, req :: _ =>
      rreqDone nam req sucW
      noteTerm temW
      modRon l fun ron => { ron with outU := ron.outU.tail }

/-- What `_raft_conn_work` does with a message. -/
def connMsg (l : Link) (it : Item) : Act Unit :=
  match it.msg.body with
  | .apen rest _ _ _ => doApen l it.msg.temW rest
  | .revo rest => doRevo l it.msg.temW rest it.req
  | .rasp sucW => doRasp l it.msg.temW sucW it.req

/-- Take the next message from the stream and process it. -/
def connNext (l : Link) : Act Unit := do
  let raf ← getRaf
  match (← getNet).flow (l, raf.strC) with
  | [] => pure ()
  | it :: its =>
      modNet fun net => { net with flow := update net.flow (l, raf.strC) its }
      connMsg l it

/-- `_raft_conn_work` on a chunk of `n` messages. They are all processed, also if
the connection is closed on the way. -/
def connWork (l : Link) : Nat → Act Unit
  | 0 => connFlush l
  | n + 1 => do
      connNext l
      connWork l n

/-- `_raft_start_election`. -/
def startElection : Act Unit := do
  modRaf fun raf => { raf with temW := raf.temW + 1 }
  saveTerm
  modRaf fun raf => { raf with vog := fun _ => false, votW := 1 }
  saveVote (← getRaf).strC
  connAll sendRevo (← getRaf).namU

/-- `_raft_heartbeat`. -/
def heartbeat : Act Unit := do
  connAll sendBeat (← getRaf).namU

/-- `_raft_time_cb`. -/
def timeCb : Act Unit := do
  match (← getRaf).typE with
  | .none => Run.stop ()
  | .foll =>
      modRaf fun raf => { raf with typE := .cand }
      startElection
  | .cand => startElection
  | .lead => heartbeat

/-- `_raft_connect_cb`, when the connection is up. -/
def connectCb (l : Link) : Act Unit := do
  let ron ← deref l
  check (ron.namU ≠ none)
  modRon l fun ron => { ron with stat := .live }
  connFlush l

/-- `_raft_conn_free`. -/
def connFree (l : Link) : Act Unit := do
  let ron ← deref l
  modRaf fun raf =>
    { raf with
      ronU := fun nam => if ron.namU = some nam ∧ raf.ronU nam = some l then none else raf.ronU nam
      rons := update raf.rons l none }
  let raf ← getRaf
  modNet (·.close l raf.strC)

/-! ### Starting -/

/-- The servers of a flotilla, from the option all of them are started with. -/
structure Cluster where
  names : List Cstr
  nodup : names.Nodup
  many : 2 ≤ names.length
  filled : ∀ nam ∈ names, nam.str ≠ []
  short : ∀ nam ∈ names, nam.str.length < 2 ^ 31

/-- `u2_raft_readopt`, the peers of a server. -/
def Cluster.peers (c : Cluster) (p : Cstr) : List Cstr := c.names.filter (· ≠ p)

/-- The term a file gives, if it passes the assertion on its size. -/
def readTerm : Option (List UInt8) → Option UInt32
  | none => some 0
  | some b => if b.length = 4 then some (.ofNat (ofLE b)) else none

/-- `_raft_foll_init`. A stored vote is compared as a string, which goes on to the
first zero byte: `tail` is what the memory behind the allocation holds up to there. -/
def follInit (c : Cluster) (p : Cstr) (sis : Sist) (tail : Cstr) : Option Server :=
  match readTerm (sis .term), sis .vote with
  | none, _ => none
  | some _, some [] => none
  | some temW, vote =>
      let raf : Server :=
        { strC := p, entD := 0, latW := 0, temW, typE := .foll, popW := 1 + (c.peers p).length,
          votW := 0, vogC := none, namU := c.peers p, ronU := fun _ => none
          -- the peers are allocated with `calloc`, and zero is yes
          vog := fun _ => true, rons := fun _ => none }
      match vote.map (· ++ tail.str) with
      | none => some raf
      | some vogC =>
          if vogC = p.str then some { raf with vogC := some p, votW := 1, typE := .cand }
          else some { raf with vogC := (c.peers p).find? fun nam => nam.str = vogC }

end Vere.Raft
