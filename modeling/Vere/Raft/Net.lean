import Vere.Lib.Reach
import Vere.Raft.Server

/-!
# Vere.Raft.Net

A flotilla of servers: what each of them and the network between them can do.

A step is one callback of one server, or something that happens to a server or
to a connection. Messages on one connection keep their order; those on different
connections do not. A stream can be cut at any point, after which nothing more
comes out of it. A server can be killed between callbacks or in the middle of
one, and be started again on the store it left.
-/

namespace Vere.Raft

open Vere.Lib Function

/-- The memory of the servers that are up, and what is outside of them. -/
structure State where
  mem : Cstr → Option Server
  net : Net

/-- No server was ever started. -/
def State.init : State where
  mem := fun _ => none
  net :=
    { sis := fun _ _ => none, links := [], wri := fun _ => [], flow := fun _ => []
      shut := fun _ => false, wrote := fun _ => (0, none), casts := [], log := [] }

/-- When a process is killed. -/
structure Kill where
  fuse : Nat
  torn : Bool

inductive Action
  /-- Start a server. -/
  | boot (p tail : Cstr)
  /-- The timer goes off. -/
  | time (p : Cstr) (kill : Kill)
  /-- A chunk of `n` messages is read. -/
  | work (p : Cstr) (l : Link) (n : Nat) (kill : Kill)
  /-- A connection a server opened is up. -/
  | connect (p : Cstr) (l : Link) (kill : Kill)
  /-- A connection a server opened could not be made. -/
  | refuse (p : Cstr) (l : Link)
  /-- A connection is accepted. -/
  | accept (p : Cstr) (l : Link)
  /-- Reading from a connection fails. -/
  | lost (p : Cstr) (l : Link)
  /-- A closed connection is freed. -/
  | free (p : Cstr) (l : Link)
  /-- A server is killed between callbacks. -/
  | crash (p : Cstr)
  /-- Only `n` messages more come out of a stream. -/
  | cut (e : End) (n : Nat)

/-- `p` has opened or accepted a connection. -/
def Net.joins (net : Net) (l : Link) (p : Cstr) : Bool :=
  net.links[l]?.any fun k => k.src = p || (k.acc && k.dst = p)

/-- `p` writes the stream. -/
def Net.writes (net : Net) (p : Cstr) (e : End) : Bool :=
  net.other e.1 e.2 = some p && net.joins e.1 p

/-- All sockets of a server are closed. -/
def Net.exit (net : Net) (p : Cstr) : Net :=
  { net with
    shut := fun e => net.shut e || net.writes p e
    wri := fun e => if net.writes p e then [] else net.wri e }

def State.crash (s : State) (p : Cstr) : State := ⟨update s.mem p none, s.net.exit p⟩

/-- Run a callback of a server. -/
def State.exec (s : State) (p : Cstr) (kill : Kill) (act : Act Unit) : Option State :=
  (s.mem p).map fun raf =>
    match act.run ⟨raf, s.net, kill.fuse, kill.torn⟩ with
    | (.ok _, s') => ⟨update s.mem p (some s'.raf), s'.net⟩
    | (_, s') => State.crash ⟨s.mem, s'.net⟩ p

/-- The state of an end of a connection. -/
def State.stat (s : State) (p : Cstr) (l : Link) : Option Stat :=
  (s.mem p).bind fun raf => (raf.rons l).map (·.stat)

/-- A callback that makes no system call the process could be killed at. -/
def noKill : Kill := ⟨0, false⟩

/-- `_raft_listen_cb`. -/
def State.accept (s : State) (p : Cstr) (l : Link) : Option State := do
  let raf ← s.mem p
  let k ← s.net.links[l]?
  if k.dst = p ∧ k.acc = false then
    some
      ⟨update s.mem p (some { raf with rons := update raf.rons l (some ⟨none, .live, [], []⟩) }),
        { s.net with links := s.net.links.set l { k with acc := true } }⟩
  else none

def step (c : Cluster) : Action → State → Option State
  | .boot p tail, s =>
      if p ∈ c.names ∧ s.mem p = none then
        some { s with mem := update s.mem p (follInit c p (s.net.sis p) tail) }
      else none
  | .time p kill, s => s.exec p kill timeCb
  | .work p l n kill, s =>
      if s.stat p l = some .live ∧ n ≤ (s.net.flow (l, p)).length then
        s.exec p kill (connWork l n)
      else none
  | .connect p l kill, s =>
      if s.stat p l = some .wait then s.exec p kill (connectCb l) else none
  | .refuse p l, s => if s.stat p l = some .wait then s.exec p noKill (connFree l) else none
  | .accept p l, s => s.accept p l
  | .lost p l, s => if s.stat p l = some .live then s.exec p noKill (connDead l) else none
  | .free p l, s => if s.stat p l = some .dead then s.exec p noKill (connFree l) else none
  | .crash p, s => if s.mem p = none then none else some (s.crash p)
  | .cut e n, s =>
      some
        { s with
          net := { s.net.hush e with flow := update s.net.flow e ((s.net.flow e).take n) } }

end Vere.Raft
