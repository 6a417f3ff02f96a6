import Vere.Lib.Chain
import Vere.Lib.Reach
import Vere.Lib.Run
import Vere.Noun

/-!
# Vere.Log.Work

The work loop of `v/raft.c`: events are planned (`u2_reck_plan`), poked into the kernel,
logged, and their effects kicked (`u2_raft_work`).

The kernel is a noun that is not part of the source, and what it makes of an event also
depends on the time and on limits of time and memory: it is a function of the event, the
core and the number of the call. So is what a kick does, of which only the events it
plans are kept. Whether the kernel goes on sending itself packets to hear again
(`u2_reck_nick`) is not known either; that recursion has a bound.

`sures` and `ops` are histories: the events that came through, and what the main thread
did to the outside.
-/

namespace Vere.Log

open Vere.Lib Function

def c3hear : Nat := c3s4 'h' 'e' 'a' 'r'
def c3hole : Nat := c3s4 'h' 'o' 'l' 'e'
def c3crud : Nat := c3s4 'c' 'r' 'u' 'd'
def c3warn : Nat := c3s4 'w' 'a' 'r' 'n'
def c3exit : Nat := c3s4 'e' 'x' 'i' 't'

/-- `u2_ci_tape`. -/
def tape (txt : String) : Noun := txt.toList.foldr (fun c n => .cell (.atom c.toNat) n) (.atom 0)

/-- What `u2_lo_soft` gives: the effects and the new core, or why it failed and where. -/
abbrev Gon := Except (Noun × Noun) (List Noun × Noun)

structure Arvo where
  /-- `u2_reck_poke` or `u2_reck_pike` of an event, on a core. -/
  soft : Nat → Noun → Noun → Gon
  /-- `u2_reck_kick` of an effect: the events it plans, or nothing if it ends the
  process. -/
  kick : Nat → Noun → Option (List Noun)

/-- Ways the work loop ends the process. -/
inductive Halt
  /-- The form of an event, or an effect that says goodbye. -/
  | bail
  /-- The kernel takes neither an event nor the news of its failure. -/
  | crud
  /-- Events in the queue of a server that does not lead. -/
  | demoted
  /-- Another assertion. -/
  | assert
  deriving Repr, DecidableEq

/-- `u2_cart`. -/
structure Cart where
  vir : List Noun
  log : Bool
  done : Bool
  entD : Nat

/-- An entry of `roe`: effects, and the event unless it is null. -/
abbrev Roe := List Noun × Option Noun

/-- An event that was applied, with its effects, and whether it changed the core. -/
structure Sure where
  ovo : Noun
  vir : List Noun
  changed : Bool
  deriving DecidableEq

inductive Op
  | push (ovo : Noun)
  | kick (ovo : Noun)
  deriving DecidableEq

/-- `u2_reck`, with `typ_e` and `lug_u.len_d` of `u2_raft`. -/
structure Reck where
  lead : Bool
  lenD : Nat
  tick : Nat
  roe : List Roe
  roc : Noun
  cell : Nat → Option (Node Cart)
  eggU : Option Nat
  gegU : Option Nat
  brk : Nat
  entD : Nat
  sures : List Sure
  ops : List Op

abbrev Work := Run Reck Halt

/-- Count the calls that depend on more than the state. -/
def tickUp : Work Nat := do
  let tick ← Run.read (·.tick)
  Run.modify fun s => { s with tick := tick + 1 }
  pure tick

section Work

variable (arvo : Arvo)

/-- `u2_lo_soft`. -/
def soft (cor ovo : Noun) : Work Gon := do
  let tick ← tickUp
  pure (arvo.soft tick cor ovo)

/-- `_raft_sure`. -/
def sure (ovo : Noun) (vir : List Noun) (cor : Noun) : Work Unit :=
  Run.modify fun s =>
    if cor ≠ s.roc then
      { s with
        roe := (vir, some ovo) :: s.roe, roc := cor, sures := s.sures ++ [⟨ovo, vir, true⟩] }
    else { s with roe := (vir, none) :: s.roe, sures := s.sures ++ [⟨ovo, vir, false⟩] }

/-- A packet the kernel wants to hear again. -/
def isHear : Noun → Bool
  | .cell _ (.cell h _) => h = .atom c3hear
  | _ => false

/-- `u2_reck_nick`. -/
def nick : Nat → List Noun → Noun → Work Gon
  | 0, _, _ => Run.spent
  | _ + 1, [], cor => pure (.ok ([], cor))
  | fuel + 1, i :: vir, cor => do
      if isHear i then
        let gon ← soft arvo cor i
        match gon with
        | .error e => pure (.error e)
        | .ok (vix, cor) => nick fuel (vix ++ vir) cor
      else
        let nez ← nick fuel vir cor
        match nez with
        | .error e => pure (.error e)
        | .ok (viz, cor) => pure (.ok (i :: viz, cor))

/-- `_raft_lame`. -/
def lame (ovo why tan : Noun) : Work Unit :=
  match ovo with
  | .cell pax (.cell tag dat) => do
      let bov : Noun :=
        if why = .atom c3exit ∧ tag = .atom c3hear then .cell pax (.cell (.atom c3hole) dat)
        else .cell pax (.cell (.atom c3crud) (.cell why tan))
      let gon ← soft arvo (← Run.read (·.roc)) bov
      match gon with
      | .ok (vir, cor) => sure bov vir cor
      | .error _ => do
          let vab : Noun := .cell pax (.cell (.atom c3warn) (tape "crude crash!"))
          let nog ← soft arvo (← Run.read (·.roc)) vab
          match nog with
          | .ok (vir, cor) => sure vab vir cor
          | .error _ => Run.stop .crud
  | _ => Run.stop .bail

/-- `_raft_punk`. -/
def punk (fuel : Nat) (ovo : Noun) : Work Unit :=
  match ovo with
  -- The wire and the card of the event are looked into.
  | .cell (.cell _ (.cell _ _)) (.cell _ _) => do
      let gon ← soft arvo (← Run.read (·.roc)) ovo
      match gon with
      | .error (why, tan) => lame arvo ovo why tan
      | .ok (vir, cor) => do
          let nug ← nick arvo fuel vir cor
          match nug with
          | .error (why, tan) => lame arvo ovo why tan
          | .ok (vir, cor) => sure ovo vir cor
  | _ => Run.stop .bail

/-- The loop of `u2_raft_work` that pokes pending events. -/
def pokeAll (fuel : Nat) : List Roe → Work Unit
  | [] => pure ()
  | (_, none) :: _ => Run.stop .bail
  | (vir, some ovo) :: ova => do
      punk arvo fuel ovo
      if vir ≠ [] then Run.stop .assert
      pokeAll fuel ova

/-- `u2_reck_plan`. -/
def plan (egg : Noun) (s : Reck) : Reck :=
  if s.lead then { s with roe := ([], some egg) :: s.roe } else s

/-- `_raft_kick_all`. -/
def kickAll : List Noun → Work Unit
  | [] => pure ()
  | ovo :: vir => do
      Run.modify fun s => { s with ops := s.ops ++ [.kick ovo] }
      let tick ← tickUp
      match arvo.kick tick ovo with
      | none => Run.stop .bail
      | some eggs => do
          Run.modify fun s => eggs.foldl (fun s egg => plan egg s) s
          kickAll vir

/-- A new carton enters the queue. -/
def enter (egg : Cart) : Work Nat := do
  let s ← Run.read id
  let p := s.brk
  let cell := update s.cell p (some ⟨egg, none⟩)
  match s.gegU with
  | none =>
      if s.eggU ≠ none then Run.stop .assert
      Run.modify fun s => { s with brk := p + 1, cell := cell, eggU := some p, gegU := some p }
  | some t =>
      match s.cell t with
      | some ⟨last, none⟩ =>
          Run.modify fun s =>
            { s with brk := p + 1, cell := update cell t (some ⟨last, some p⟩), gegU := some p }
      | _ => Run.stop .assert
  pure p

/-- The loop of `u2_raft_work` that logs events and kicks their effects. -/
def logAll : List Roe → Work Unit
  | [] => pure ()
  | (_, none) :: ova => logAll ova
  | (vir, some ovo) :: ova => do
      let bid ← Run.read (·.entD)
      Run.modify fun s => { s with entD := bid + 1, ops := s.ops ++ [.push ovo] }
      let p ← enter ⟨vir, false, false, bid⟩
      kickAll arvo vir
      Run.modify fun s =>
        { s with
          cell := update s.cell p ((s.cell p).map fun n =>
            { n with val := { n.val with done := true } }) }
      logAll ova

/-- The loop of `u2_raft_work` that deletes finished events. -/
def deleteDone : Nat → Work Unit
  | 0 => Run.spent
  | fuel + 1 => do
      let s ← Run.read id
      match s.eggU with
      | none => pure ()
      | some p =>
          match s.cell p with
          | none => Run.stop .assert
          | some n =>
              if n.val.done then
                if s.gegU = some p then
                  if n.nex ≠ none then Run.stop .assert
                  Run.modify fun s =>
                    { s with cell := update s.cell p none, eggU := none, gegU := none }
                else
                  if n.nex = none then Run.stop .assert
                  Run.modify fun s => { s with cell := update s.cell p none, eggU := n.nex }
                deleteDone fuel
              else pure ()

/-- `u2_raft_work`. -/
def raftWork (fuel : Nat) : Work Unit := do
  let s ← Run.read id
  if s.lead = false then
    if s.eggU ≠ none then Run.stop .demoted
    Run.modify fun s => { s with roe := [] }
  else
    deleteDone (s.brk + 1)
    if s.lenD = 0 then pure ()
    else
      Run.modify fun s => { s with roe := [] }
      pokeAll arvo fuel s.roe.reverse
      let roe ← Run.read (·.roe)
      Run.modify fun s => { s with roe := [] }
      logAll arvo roe.reverse

end Work

/-! ### Runs -/

/-- What happens to the work loop. -/
inductive Deed
  /-- Somebody plans an event. -/
  | plan (egg : Noun)
  /-- The end of a callback. -/
  | work (fuel : Nat)
  /-- An election is won or lost. -/
  | turn (lead : Bool)
  /-- The log is opened, and grows. -/
  | grow (lenD : Nat)

def deed (arvo : Arvo) : Deed → Reck → Option Reck
  | .plan egg, s => some (plan egg s)
  | .work fuel, s =>
      match (raftWork arvo fuel).run s with
      | (.ok _, s') => some s'
      | _ => none
  | .turn lead, s => some { s with lead := lead }
  | .grow lenD, s => some { s with lenD := lenD }

/-- `u2_reck_boot`. -/
def Reck.init (roc : Noun) (entD : Nat) : Reck where
  lead := false
  lenD := 0
  tick := 0
  roe := []
  roc := roc
  cell := fun _ => none
  eggU := none
  gegU := none
  brk := 0
  entD := entD
  sures := []
  ops := []

end Vere.Log
