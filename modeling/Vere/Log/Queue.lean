import Vere.Lib.Chain
import Vere.Lib.Reach

/-!
# Vere.Log.Queue

The queue between the threads of the file log and its consolidator (`v/egzh.c`): linked nodes,
with a pointer to the one to take next and a pointer to the one to add to. Each call holds the
mutex of the queue while it runs, so a run is one call after another.

The allocator gives an address that no node has. A call that follows a null pointer has no result.
-/

namespace Vere.Log

open Vere.Lib Function

variable {α : Type}

/-- The `_minilog_node`s, with `head_u` and `tail_u`. -/
structure Queue (α : Type) where
  cell : Nat → Option (Node α)
  headU : Option Nat
  tailU : Option Nat

/-- `_enqueue`, with the node at `p`. -/
def enqueue (p : Nat) (name : α) (q : Queue α) : Queue α where
  cell :=
    let cell := update q.cell p (some ⟨name, none⟩)
    match q.tailU with
    | some t => update cell t ((cell t).map fun n => { n with nex := some p })
    | none => cell
  headU := if q.headU = none then some p else q.headU
  tailU := some p

/-- The part of `_dequeue` for a queue that is not empty; nothing if it follows a null
pointer. -/
def dequeue (q : Queue α) : Option (α × Queue α) := do
  let p ← q.headU
  let tmp ← q.cell p
  some (tmp.val,
    { cell := update q.cell p none
      headU := tmp.nex
      tailU := if tmp.nex = none then none else q.tailU })

/-- `_dequeue`: the item, if there is one, and the queue it leaves. -/
def Queue.dequeue (q : Queue α) : Option (Option α × Queue α) :=
  if q.tailU = none then some (none, q)
  else (Log.dequeue q).map fun r => (some r.1, r.2)

/-- A call of a thread. -/
inductive Line.Call (α : Type)
  /-- `_enqueue`; `malloc` returns `p`. -/
  | enqueue (p : Nat) (name : α)
  | dequeue

/-- The queue, and what went in and came out. -/
structure Line (α : Type) where
  que : Queue α
  sent : List α
  got : List α

def Line.init : Line α where
  que := ⟨fun _ => none, none, none⟩
  sent := []
  got := []

def Line.step : Line.Call α → Line α → Option (Line α)
  | .enqueue p name, s =>
      if s.que.cell p = none then
        some { s with que := Log.enqueue p name s.que, sent := s.sent ++ [name] }
      else none
  | .dequeue, s =>
      s.que.dequeue.map fun r => { s with que := r.2, got := s.got ++ r.1.toList }

/-! ### The queue is a list -/

section Holds

variable {q : Queue α} {ns : List (Nat × α)} {p : Nat}

/-- The nodes of a queue. -/
def Queue.Holds (q : Queue α) (ns : List (Nat × α)) : Prop := Linked q.cell q.headU q.tailU ns

theorem Queue.Holds.enqueue (h : q.Holds ns) (hp : q.cell p = none) (name : α) :
    (enqueue p name q).Holds (ns ++ [(p, name)]) := by
  cases htail : q.tailU with
  | none =>
      have hnil := h.tail_none_iff.mp htail
      have hhead := h.head_none_iff.mpr hnil
      subst hnil
      simpa [Queue.Holds, Log.enqueue, htail, hhead] using linked_single q.cell p name
  | some t =>
      have hsome : Linked q.cell q.headU (some t) ns := htail ▸ h
      obtain ⟨x, hx, hpush⟩ := hsome.push hp name
      have hne : t ≠ p := by
        rintro rfl
        exact nomatch hx.symm.trans hp
      have hhead : q.headU ≠ none := by
        intro hnone
        exact nomatch htail.symm.trans (h.tail_none_iff.mpr (h.head_none_iff.mp hnone))
      simpa [Queue.Holds, Log.enqueue, htail, hhead, hx, hne] using hpush

theorem Queue.Holds.dequeue {name : α} (h : q.Holds ((p, name) :: ns)) :
    ∃ q', Log.dequeue q = some (name, q') ∧ q'.Holds ns := by
  obtain ⟨hhead, hcell, -, hpop⟩ := h.pop
  have hnil : first ns = none ↔ ns = [] := by
    cases ns <;> simp [first]
  refine ⟨⟨update q.cell p none, first ns, if ns = [] then none else q.tailU⟩, ?_, hpop⟩
  simp [Log.dequeue, hhead, hcell, hnil]

theorem Queue.Holds.dequeue_nil (h : q.Holds []) : q.dequeue = some (none, q) :=
  if_pos (h.tail_none_iff.mpr rfl)

theorem Queue.Holds.dequeue_cons {name : α} (h : q.Holds ((p, name) :: ns)) :
    ∃ q', q.dequeue = some (some name, q') ∧ q'.Holds ns := by
  obtain ⟨q', hq, hns⟩ := Holds.dequeue h
  have htail : q.tailU ≠ none := fun hnil => nomatch h.tail_none_iff.mp hnil
  exact ⟨q', by rw [Queue.dequeue, if_neg htail, hq]; rfl, hns⟩

end Holds

/-! ### Runs -/

/-- The queue holds what has gone in and not come out. -/
def Line.Sound (s : Line α) : Prop :=
  ∃ ns, s.que.Holds ns ∧ s.sent = s.got ++ ns.map (·.2)

theorem Line.sound_init : (Line.init : Line α).Sound :=
  ⟨[], linked_nil _, rfl⟩

theorem Line.Sound.step {c : Line.Call α} {s s' : Line α} (h : s.Sound) (hs : Line.step c s = some s') :
    s'.Sound := by
  obtain ⟨ns, hns, hsent⟩ := h
  cases c with
  | enqueue p name =>
      obtain ⟨hp, hs'⟩ := Option.ite_none_right_eq_some.mp hs
      cases hs'
      refine ⟨ns ++ [(p, name)], hns.enqueue hp name, ?_⟩
      simp [hsent]
  | dequeue =>
      cases ns with
      | nil =>
          simp only [Line.step, hns.dequeue_nil, Option.map_some, Option.some.injEq] at hs
          cases hs
          exact ⟨[], hns, by simpa using hsent⟩
      | cons n ns =>
          obtain ⟨p, name⟩ := n
          obtain ⟨q', hq, hns'⟩ := hns.dequeue_cons
          simp only [Line.step, hq, Option.map_some, Option.some.injEq] at hs
          cases hs
          exact ⟨ns, hns', by simpa using hsent⟩

/-- What comes out is what went in, in order; what comes next is the first item that is left, if
there is one. The pointers are null exactly when nothing is left. -/
theorem queue_fifo {s : Line α} (h : Reachable Line.init Line.step (fun _ _ => True) s) :
    s.got <+: s.sent ∧ (s.que.headU = none ↔ s.got = s.sent) ∧
      (s.que.tailU = none ↔ s.got = s.sent) ∧
      ∃ q, s.que.dequeue = some ((s.sent.drop s.got.length).head?, q) := by
  obtain ⟨ns, hns, hsent⟩ :=
    h.invariant (P := Line.Sound) Line.sound_init fun _ _ _ hs _ hstep => hs.step hstep
  have hempty : ns = [] ↔ s.got = s.sent := by
    rw [hsent, List.self_eq_append_right, List.map_eq_nil_iff]
  refine ⟨⟨_, hsent.symm⟩, hns.head_none_iff.trans hempty, hns.tail_none_iff.trans hempty, ?_⟩
  rw [hsent, List.drop_left]
  cases ns with
  | nil => exact ⟨_, hns.dequeue_nil⟩
  | cons n ns =>
      obtain ⟨p, name⟩ := n
      obtain ⟨q', hq, -⟩ := hns.dequeue_cons
      exact ⟨q', hq⟩

/-- Two items in, one out. -/
theorem queue_fifo_three : ∃ s : Line (UInt64 × UInt8), s.sent = [(10, 0), (20, 0)] ∧
    s.got <+: s.sent ∧ (s.que.headU = none ↔ s.got = s.sent) ∧
      (s.que.tailU = none ↔ s.got = s.sent) ∧
      ∃ q, s.que.dequeue = some ((s.sent.drop s.got.length).head?, q) :=
  ⟨_, rfl, queue_fifo
    (Reachable.runs (fun _ _ => trivial) [.enqueue 1 (10, 0), .enqueue 2 (20, 0), .dequeue]
      .init rfl)⟩

end Vere.Log
