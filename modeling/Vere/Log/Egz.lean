import Vere.Lib.Reach
import Vere.Log.Queue
import Vere.Log.Record

/-!
# Vere.Log.Egz

The file log of `v/egzh.c`: the main thread that pushes events, the threads that write
them to quick files, the callbacks that log them a second time, and the consolidator
that moves quick files into `egz.hope`.

A step is what one of them does up to the next system call or lock. A thread opens its
file, writes it, enters its name into the queue, and hands the baton back to the main
loop or ends; the consolidator takes a name, reads the file, appends it and deletes it.
No step fails for lack of memory or of room on the disk, so what is left of `exit` are
the checks the code makes of itself.

A thread hands its baton back by a handle of its own, which `uv_async_init` links into the loop's
list of handles (`outside/libuv/src/unix/async.c`). That is done in the thread, in two parts that
those of another thread may come between, and the callback frees the handle and leaves it in the
list. So a walk through the list need not find every handle that was linked, and the callback of
one that it does not find is not run.

Quick files are named by the number of the event and the type of the record. The event
counter goes up from any start; it is a plain number, and an event has its number in
the 64 bits of the prefix.
-/

namespace Vere.Log

open Vere.Lib Function

/-- What names a quick file: the number of an event and the type of a record. -/
abbrev Name := Nat × MsgType

/-! ### Threads -/

/-- `clog_thread_baton`, with the buffer it points to. -/
structure Baton where
  bobY : List UInt8
  lenW : Nat
  seqD : Nat
  typ : MsgType

def Baton.name (b : Baton) : Name := (b.seqD, b.typ)

/-- Where the baton of an event is. -/
inductive Task
  /-- In a new thread. -/
  | start (b : Baton)
  /-- The quick file is open, and empty. -/
  | opened (b : Baton)
  /-- The quick file is written, synced and closed. -/
  | written (b : Baton)
  /-- The name of the quick file is in the queue. -/
  | queued (b : Baton)
  /-- In `uv_async_init` of the handle `asyncU`, behind the read of the last node of the list. -/
  | linking (b : Baton) (asyncU : Nat) (prev : Option Nat)
  /-- Sent to the main loop. -/
  | async (b : Baton) (asyncU : Nat)

def Task.baton : Task → Baton
  | start b | opened b | written b | queued b | linking b _ _ | async b _ => b

/-- What the consolidator is about to do. -/
inductive Con
  | idle
  | took (name : Name)
  | read (name : Name) (fullentryY : List UInt8)
  | wrote (name : Name)

/-- `ngx_queue_insert_tail`, behind its read of `prev`: what a walk through the list finds when the
node `x` points to the end of the list and `prev` to `x`. -/
def insertTail (prev x : Nat) : List Nat → List Nat
  | [] => []
  | y :: ys =>
      if y = x then [x]
      else if y = prev then [prev, x]
      else y :: insertTail prev x ys

structure Egz where
  entD : Nat
  tasks : Nat → Option Task
  quick : Name → Option (List UInt8)
  que : Queue Name
  con : Con
  hope : List UInt8
  exited : Bool
  /-- The handles that a walk through `async_handles` finds. -/
  asyncHandles : List Nat
  /-- The last node of `async_handles`, or none if that is the list itself. -/
  lastU : Option Nat
  /-- Which handles have memory. -/
  handle : Nat → Bool
  /-- The events that were pushed, by the number the push returned. -/
  pushed : Nat → Option Ron

/-- `u2_egz_push_ova(.., LOG_MSG_PRECOMMIT)`, with the thread `k`. -/
def Egz.push (s : Egz) (k : Nat) (ron : Ron) : Option Egz :=
  if s.tasks k = none then
    let b : Baton :=
      ⟨egzPushOva ron (.ofNat s.entD) .precommit, ron.mallocW, s.entD, .precommit⟩
    some
      { s with
        entD := s.entD + 1
        tasks := update s.tasks k (some (.start b))
        pushed := update s.pushed s.entD (some ron) }
  else none

/-- `_egz_push_in_thread_inner` and `_egz_finalize_and_emit`, with the thread `k` and the address
`p` for a node of the queue or for a handle. -/
def Egz.run (s : Egz) (k p : Nat) : Task → Option Egz
  | .start b =>
      if b.lenW = 0 then some { s with exited := true }
      else
        some
          { s with
            quick := update s.quick b.name (some [])
            tasks := update s.tasks k (some (.opened b)) }
  | .opened b =>
      some
        { s with
          quick := update s.quick b.name (some (b.bobY.take b.lenW))
          tasks := update s.tasks k (some (.written b)) }
  | .written b =>
      if s.que.cell p = none then
        some { s with que := enqueue p b.name s.que, tasks := update s.tasks k (some (.queued b)) }
      else none
  | .queued b =>
      if b.typ = .postcommit then some { s with tasks := update s.tasks k none }
      else if s.handle p then none
      else
        some
          { s with
            handle := update s.handle p true
            tasks := update s.tasks k (some (.linking b p s.lastU)) }
  | .linking b asyncU prev =>
      some
        { s with
          asyncHandles := prev.elim [asyncU] fun q => insertTail q asyncU s.asyncHandles
          lastU := some asyncU
          tasks := update s.tasks k (some (.async b asyncU)) }
  | .async b asyncU =>
      if asyncU ∉ s.asyncHandles then none
      else if b.typ ≠ .precommit then some { s with exited := true }
      else
        let b : Baton :=
          { b with
            bobY := setClpr (fun p => { p with msgTypeY := MsgType.postcommit.y }) b.bobY
            typ := .postcommit }
        some
          { s with
            handle := update s.handle asyncU false
            tasks := update s.tasks k (some (.start b)) }

/-- `_egz_consolidator`. -/
def Egz.consolidate (s : Egz) : Option Egz :=
  match s.con with
  | .idle =>
      if s.que.tailU = none then none
      else
        match dequeue s.que with
        | none => some { s with exited := true }
        | some (name, q) => some { s with que := q, con := .took name }
  | .took name =>
      match s.quick name with
      | none => some { s with exited := true }
      | some file =>
          let totalsizeW := c3w ((clprAt file).lenW.toNat + sizeofClpr)
          if file.length < sizeofClpr ∨ file.length < totalsizeW then
            some { s with exited := true }
          else some { s with con := .read name (file.take totalsizeW) }
  | .read name fullentryY => some { s with hope := s.hope ++ fullentryY, con := .wrote name }
  | .wrote name => some { s with quick := update s.quick name none, con := .idle }

/-- The memory `p` of a handle that was freed is given to something else: if it was still in the
list, what comes behind it is lost. -/
def Egz.reuse (s : Egz) (p : Nat) : Option Egz :=
  if s.handle p then none
  else some { s with asyncHandles := s.asyncHandles.takeWhile (· ≠ p) }

inductive Action
  | push (k : Nat) (ron : Ron)
  | task (k p : Nat)
  | consolidate
  | reuse (p : Nat)

def step (a : Action) (s : Egz) : Option Egz :=
  if s.exited then none
  else
    match a with
    | .push k ron => s.push k ron
    | .task k p => (s.tasks k).bind (s.run k p)
    | .consolidate => s.consolidate
    | .reuse p => s.reuse p

/-- `u2_egz_init` on a file that has a header, with anything in the directory of quick
files. -/
def Egz.init (led : List UInt8) (entD : Nat) (quick : Name → Option (List UInt8)) : Egz where
  entD := entD
  tasks := fun _ => none
  quick := quick
  que := ⟨fun _ => none, none, none⟩
  con := .idle
  hope := led
  exited := false
  asyncHandles := []
  lastU := none
  handle := fun _ => false
  pushed := fun _ => none

end Vere.Log
