import Vere.Lib.Run
import Vere.Nock.Frag

/-!
# Vere.Nock.Interp

The two interpreters of `f/nock.c`: `_nock_cool`, which bails out of an error,
and `_nock_mool`, which reports a status in `*pon`, with the hints, jets and
namespace they share.

* **Recursion.** Each interpreter is one step over a record `Rec` of the
  interpreters it calls; the `continue` of the C loops is such a call. `interp n`
  nests the step `n` deep and is `spent` below that.
* **State.** `St` holds what outlives a call: the namespace stack `lad`, the memo
  cache and the dashboard of registered cores. None of it is undone by a bail.
* **Traces.** A bail unwinds to the nearest kite and carries the trace pushed
  since. `Kit` is the stack of those traces, one segment for each kite.
* **Host.** The dashboard, the jets and the printer of tanks are parameters. A jet is a function
  of its core; `u2_ds_mine` gives back an equal core and changes the dashboard only.

Reference counts and the bookkeeping of `u2_tx_*` are left out.
-/

namespace Vere.Nock

open Vere.Lib

/-- What an evaluation can bail with. -/
inductive Mote
  | exit
  | need
  | fail
  deriving Repr, DecidableEq

/-- A long jump: a bail with its mote and report, and how many kites it passes
before one catches it; or a failed assertion. -/
inductive Stop
  | bail (how : Mote) (dat : Noun) (skip : Nat)
  | fault
  deriving Repr, DecidableEq

/-- `u2_kode`: the status of a virtual evaluation. -/
inductive Kode
  | good
  | need
  | exit
  deriving Repr, DecidableEq

/-- What lies outside the interpreters: the dashboard (`u2_ds_find`,
`u2_ds_mine`), the jets (`_ho_conquer` and `u2_ho_use`), and the rail the memo
cache lives in (whether it has one, and whether a slot can be allocated); and the
kernel's `++wash`, which turns a tank into lines or exits with a trace, and may register
cores as it runs. -/
structure Host where
  Dash : Type
  Chip : Type
  find : Dash → Noun → Option Chip
  mine : Dash → Noun → Noun → Dash
  jet : Chip → Nat → Option (Noun → Except (Mote × List Noun) Noun)
  rock : Bool
  room : Noun → Noun → Bool
  wash : Noun → Except (List Noun) Unit
  washed : Dash → Noun → Dash

variable {H : Host}

/-- The state of the interpreters. -/
structure St (H : Host) where
  lad : Noun
  cash : List ((Noun × Noun) × Noun)
  dash : H.Dash

/-- A program of the interpreters. -/
abbrev Prog (H : Host) (α : Type) := Run (St H) Stop α

/-! ### Kites and traces -/

/-- A list as a noun. -/
def nounList : List Noun → Noun
  | [] => .atom 0
  | x :: xs => .cell x (nounList xs)

/-- The trace since the nearest kite, newest first, and those of the kites
around it. -/
structure Kit where
  seg : List Noun
  rest : List (List Noun)

/-- `u2_cm_rind`: a new kite. -/
def Kit.rind (kit : Kit) : Kit := ⟨[], kit.seg :: kit.rest⟩

/-- Push an entry on the trace. -/
def Kit.push (kit : Kit) (tac : Noun) : Kit := { kit with seg := tac :: kit.seg }

/-- `u2_cm_wail`: the local trace. -/
def Kit.wail (kit : Kit) : Noun := nounList kit.seg

/-- `u2_cm_bail`. -/
def bail {α : Type} (kit : Kit) (how : Mote) : Prog H α := .stop (.bail how kit.wail 0)

/-- `u2_cm_bowl`: bail with a preset report. -/
def bowl {α : Type} (how : Mote) (dat : Noun) : Prog H α := .stop (.bail how dat 0)

/-- `u2_cm_trap` around `x`. -/
def trap {α : Type} (x : Prog H α) (h : Mote → Noun → Prog H α) : Prog H α :=
  .handle x fun
    | .bail how dat 0 => h how dat
    | .bail how dat (k + 1) => .stop (.bail how dat k)
    | .fault => .stop .fault

/-! ### State -/

def getLad : Prog H Noun := .read St.lad

def setLad (lad : Noun) : Prog H Unit := .modify fun st => { st with lad := lad }

/-- `u2_ds_find`. -/
def dsFind (cor : Noun) : Prog H (Option H.Chip) := .read fun st => H.find st.dash cor

/-- `u2_ds_mine`: register a core; the core given back is equal to it. -/
def dsMine (clu cor : Noun) : Prog H Unit :=
  .modify fun st => { st with dash := H.mine st.dash clu cor }

/-- The product cached under a key, the last one saved. -/
def cashFind (cash : List ((Noun × Noun) × Noun)) (bus nex : Noun) : Option Noun :=
  (cash.find? fun e => e.1 = (bus, nex)).map Prod.snd

/-- `u2_rl_find_cell`. -/
def findCell (bus nex : Noun) : Prog H (Option Noun) :=
  .read fun st => if H.rock then cashFind st.cash bus nex else none

/-- `u2_rl_save_cell`. -/
def saveCell (bus nex pro : Noun) : Prog H Unit :=
  .modify fun st =>
    if H.rock && H.room bus nex then { st with cash := ((bus, nex), pro) :: st.cash } else st

/-! ### Calls out of a step -/

/-- The interpreters a step calls. -/
structure Rec (H : Host) where
  cool : Kit → Noun → Noun → Prog H Noun
  mool : Kit → Noun → Noun → Prog H (Kode × Noun)

/-- `u2_ho_kick`: fire the arm at `axe`, by its jet if there is one and softly if
not; nothing if the core has no such arm. -/
def kick (R : Rec H) (kit : Kit) (xip : H.Chip) (cor : Noun) (axe : Nat) :
    Prog H (Option Noun) :=
  match frag axe cor with
  | none => pure none
  | some fol =>
      match H.jet xip axe with
      | none => do
          let pro ← R.cool kit cor fol
          return some pro
      | some jet =>
          match jet cor with
          | .ok pro => pure (some pro)
          | .error (how, tac) => .stop (.bail how (nounList (tac ++ kit.seg)) 0)

/-- `u2_ho_kicq`: as `kick`, with exits and blocks turned into a status. -/
def kicq (R : Rec H) (kit : Kit) (xip : H.Chip) (cor : Noun) (axe : Nat) :
    Prog H (Option (Kode × Noun)) :=
  trap (do
      let pro ← kick R kit.rind xip cor axe
      return pro.map fun p => (.good, p))
    fun how dat =>
      match how with
      | .exit => pure (some (.exit, dat))
      | .need => pure (some (.need, dat))
      | .fail => bail kit .fail

/-- `u2_cn_mung`: call a gate with a sample (`u2_nk_mong`). -/
def mung (R : Rec H) (kit : Kit) (gat sam : Noun) : Prog H Noun :=
  match gat with
  | .cell bat (.cell _ con) => do
      let cor := Noun.cell bat (.cell sam con)
      match ← dsFind cor with
      | some xip =>
          match ← kick R kit xip cor 2 with
          | some pro => return pro
          | none => bail kit .exit
      | none => R.cool kit cor bat
  | _ => bail kit .exit

/-- `_nock_molg`: the same in virtual mode. -/
def molg (R : Rec H) (kit : Kit) (gat sam : Noun) : Prog H (Kode × Noun) :=
  match gat with
  | .cell bat (.cell _ con) => R.mool kit (.cell bat (.cell sam con)) bat
  | _ => pure (.exit, kit.wail)

/-- `_nock_pray_mool`: load from the namespace, in virtual mode. A bail inside
the gate is passed on after `u2_cm_done` has dropped the kite around the call,
and leaves the namespace stack popped. -/
def prayMool (R : Rec H) (kit : Kit) (gof : Noun) : Prog H (Kode × Noun) := do
  match ← getLad with
  | .atom _ => .stop .fault
  | .cell i t => do
      setLad t
      let r ← trap (do
          if t = .atom 0 then
            let pro ← mung R kit.rind i gof
            return (.good, pro)
          else molg R kit.rind i gof)
        fun how _ =>
          match kit.rest with
          | [] => .stop .fault
          | up :: _ => .stop (.bail how (nounList (kit.seg ++ up)) 1)
      let now ← getLad
      if now ≠ t then .stop .fault
      else do
        setLad (.cell i t)
        match r with
        | (.good, .atom _) => return (.need, .cell gof (.atom 0))
        | (.good, .cell _ res) => return (.good, res)
        | r => return r

/-- `_nock_pray_cool`: load from the namespace, in kernel mode. -/
def prayCool (R : Rec H) (kit : Kit) (gof : Noun) : Prog H Noun := do
  match ← getLad with
  | .atom 0 => bowl .need (.cell gof (.atom 0))
  | _ =>
      match ← prayMool R kit gof with
      | (.good, mog) => return mog
      | (.need, mog) => bowl .need mog
      | (.exit, mog) => bowl .exit mog

/-! ### Hints -/

/-- The hints that push their clue on the trace. -/
def traceHints : List Nat :=
  [c3s4 'l' 'o' 's' 'e', c3s4 'y' 'e' 'l' 'p', c3s4 'b' 'e' 'a' 'n', c3s4 'm' 'e' 'a' 'n',
    c3s4 's' 'p' 'o' 't']

/-- What `_nock_hint` needs of the mode it runs in: the interpreter, the noun in
a result, the test `!pon || (u2_no != *pon)`, and a noun as a result. -/
structure Mode (H : Host) (β : Type) where
  run : Kit → Noun → Noun → Prog H β
  pro : β → Noun
  fine : β → Bool
  hit : Noun → β

/-- Kernel mode, `pon` null. -/
def Rec.coolMode (R : Rec H) : Mode H Noun := ⟨R.cool, id, fun _ => true, id⟩

/-- Virtual mode. -/
def Rec.moolMode (R : Rec H) : Mode H (Kode × Noun) :=
  ⟨R.mool, Prod.snd, fun r => r.1 ≠ .need, fun p => (.good, p)⟩

/-- The clue of a `%fast` hint in the form the dashboard takes. -/
def fastClue : Noun → Option Noun
  | .cell p (.cell q r) =>
      some (.cell (if q = .cell (.atom 1) (.atom 0) then .atom 0 else q) (.cell p r))
  | _ => none

/-- `%memo`: answer from the cache, or evaluate and save. -/
def memoHint {β : Type} (M : Mode H β) (kit : Kit) (bus nex : Noun) : Prog H β := do
  match ← findCell bus nex with
  | some pro => return M.hit pro
  | none =>
      let r ← M.run kit bus nex
      if M.fine r then saveCell bus nex (M.pro r)
      return r

/-- `%mine` and `%fast`: evaluate, then register the product. -/
def mineHint {β : Type} (M : Mode H β) (kit : Kit) (clu : Option Noun) (bus nex : Noun) :
    Prog H β := do
  let r ← M.run kit bus nex
  match clu with
  | none => return r
  | some clu => do
      if M.fine r then dsMine clu (M.pro r)
      return r

/-- `%slog`: print the tank of the clue, then evaluate. `u2_lo_punt` calls the kernel to print it,
outside of any kite of its own. -/
def slogHint {β : Type} (M : Mode H β) (kit : Kit) (hod bus nex : Noun) : Prog H β :=
  match hod with
  | .atom _ => M.run kit bus nex
  | .cell _ tac =>
      match H.wash tac with
      | .error tax => .stop (.bail .exit (nounList (tax ++ kit.seg)) 0)
      | .ok () => do
          Run.modify fun st => { st with dash := H.washed st.dash tac }
          M.run kit bus nex

/-- `_nock_hint`. The hints not named here (`%germ`, `%ping`, `%live`, `%sole` and unknown ones)
count or share storage and leave the product as it is. -/
def hint {β : Type} (M : Mode H β) (kit : Kit) (zep hod bus nex : Noun) :
    Prog H β :=
  match zep with
  | .cell _ _ => M.run kit bus nex
  | .atom z =>
      if z ∈ traceHints then M.run (kit.push (.cell zep hod)) bus nex
      else if z = c3s4 's' 'l' 'o' 'g' then slogHint M kit hod bus nex
      else if z = c3s4 'm' 'i' 'n' 'e' then mineHint M kit (some hod) bus nex
      else if z = c3s4 'f' 'a' 's' 't' then mineHint M kit (fastClue hod) bus nex
      else if z = c3s4 'm' 'e' 'm' 'o' then memoHint M kit bus nex
      else M.run kit bus nex

/-! ### `_nock_cool` -/

/-- One operator of `_nock_cool`. -/
def coolOp (R : Rec H) (kit : Kit) (bus : Noun) (hib : Nat) (gal : Noun) :
    Prog H Noun :=
  match hib with
  | 0 =>
      match gal with
      | .cell _ _ => bail kit .exit
      | .atom b =>
          match frag b bus with
          | some pro => pure pro
          | none => bail kit .exit
  | 1 => pure gal
  | 2 =>
      match gal with
      | .atom _ => bail kit .exit
      | .cell b c => do
          let nex ← R.cool kit bus c
          let seb ← R.cool kit bus b
          R.cool kit seb nex
  | 3 => do
      let gof ← R.cool kit bus gal
      return wut gof
  | 4 => do
      match ← R.cool kit bus gal with
      | .atom x => return .atom (x + 1)
      | .cell _ _ => bail kit .exit
  | 5 =>
      match gal with
      | .atom _ => bail kit .exit
      | .cell _ _ => do
          match ← R.cool kit bus gal with
          | .cell x y => return tis x y
          | .atom _ => bail kit .exit
  | 6 =>
      match gal with
      | .cell b (.cell c d) => do
          let tys ← R.cool kit bus b
          if tys = .atom 0 then R.cool kit bus c
          else if tys = .atom 1 then R.cool kit bus d
          else bail kit .exit
      | _ => bail kit .exit
  | 7 =>
      match gal with
      | .atom _ => bail kit .exit
      | .cell b c => do
          let bod ← R.cool kit bus b
          R.cool kit bod c
  | 8 =>
      match gal with
      | .atom _ => bail kit .exit
      | .cell b c => do
          let wib ← R.cool kit bus b
          R.cool kit (.cell wib bus) c
  | 9 =>
      match gal with
      | .cell (.atom b) c => do
          let seb ← R.cool kit bus c
          match ← dsFind seb with
          | some xip =>
              match ← kick R kit xip seb b with
              | some pro => return pro
              | none => bail kit .exit
          | none =>
              match frag b seb with
              | some nex => R.cool kit seb nex
              | none => bail kit .exit
      | _ => bail kit .exit
  | 10 =>
      match gal with
      | .atom _ => bail kit .exit
      | .cell (.cell b c) d => do
          let hod ← R.cool kit bus c
          hint R.coolMode kit b hod bus d
      | .cell (.atom b) c => hint R.coolMode kit (.atom b) (.atom 0) bus c
  | 11 => do
      let gof ← R.cool kit bus gal
      prayCool R kit gof
  | _ => bail kit .exit

/-- One round of `_nock_cool`. -/
def coolStep (R : Rec H) (kit : Kit) (bus fol : Noun) : Prog H Noun :=
  match fol with
  | .atom _ => bail kit .exit
  | .cell (.cell b c) gal => do
      let poz ← R.cool kit bus (.cell b c)
      let riv ← R.cool kit bus gal
      return .cell poz riv
  | .cell (.atom hib) gal => coolOp R kit bus hib gal

/-! ### `_nock_mool` -/

/-- `if ( 0 != *pon ) return`: go on with a good product, give anything else
back. -/
def onGood (x : Prog H (Kode × Noun)) (f : Noun → Prog H (Kode × Noun)) :
    Prog H (Kode × Noun) := do
  match ← x with
  | (.good, p) => f p
  | r => return r

/-- `*pon = 2; return u2_cm_wail();` -/
def wail (kit : Kit) : Prog H (Kode × Noun) := pure (.exit, kit.wail)

/-- `u2_ckb_weld`: concatenate two lists. -/
def weld : Noun → Noun → Noun
  | .atom _, b => b
  | .cell h t, b => .cell h (weld t b)

/-- The status of a pair from those of its parts, both evaluated. -/
def pairUp : Kode × Noun → Kode × Noun → Kode × Noun
  | _, (.exit, riv) => (.exit, riv)
  | (.good, poz), (.good, riv) => (.good, .cell poz riv)
  | (.good, _), (.need, riv) => (.need, riv)
  | (_, poz), (.good, _) => (.need, poz)
  | (_, poz), (.need, riv) => (.need, weld poz riv)

/-- One operator of `_nock_mool`. -/
def moolOp (R : Rec H) (kit : Kit) (bus : Noun) (hib : Nat) (gal : Noun) :
    Prog H (Kode × Noun) :=
  match hib with
  | 0 =>
      match gal with
      | .cell _ _ => wail kit
      | .atom b =>
          match frag b bus with
          | some pro => pure (.good, pro)
          | none => wail kit
  | 1 => pure (.good, gal)
  | 2 =>
      match gal with
      | .cell (.cell b c) d =>
          onGood (R.mool kit bus (.cell (.cell b c) d)) fun neb =>
            match neb with
            | .cell seb nex => R.mool kit seb nex
            | .atom _ => .stop .fault
      | _ => wail kit
  | 3 => onGood (R.mool kit bus gal) fun gof => pure (.good, wut gof)
  | 4 =>
      onGood (R.mool kit bus gal) fun gof =>
        match gof with
        | .atom x => pure (.good, .atom (x + 1))
        | .cell _ _ => wail kit
  | 5 =>
      onGood (R.mool kit bus gal) fun gof =>
        match gof with
        | .cell x y => pure (.good, tis x y)
        | .atom _ => wail kit
  | 6 =>
      match gal with
      | .atom _ => wail kit
      | .cell b cd =>
          onGood (R.mool kit bus b) fun tys =>
            match cd with
            | .atom _ => wail kit
            | .cell c d =>
                if tys = .atom 0 then R.mool kit bus c
                else if tys = .atom 1 then R.mool kit bus d
                else wail kit
  | 7 =>
      match gal with
      | .atom _ => wail kit
      | .cell b c => onGood (R.mool kit bus b) fun bod => R.mool kit bod c
  | 8 =>
      match gal with
      | .atom _ => wail kit
      | .cell b c => onGood (R.mool kit bus b) fun wib => R.mool kit (.cell wib bus) c
  | 9 =>
      match gal with
      | .cell (.atom b) c =>
          onGood (R.mool kit bus c) fun seb => do
            match ← dsFind seb with
            | some xip =>
                match ← kicq R kit xip seb b with
                | some r => return r
                | none => wail kit
            | none =>
                match frag b seb with
                | some nex => R.mool kit seb nex
                | none => wail kit
      | _ => wail kit
  | 10 =>
      match gal with
      | .atom _ => wail kit
      | .cell (.cell b c) d =>
          onGood (R.mool kit bus c) fun hod => hint R.moolMode kit b hod bus d
      | .cell (.atom b) c => hint R.moolMode kit (.atom b) (.atom 0) bus c
  | 11 => onGood (R.mool kit bus gal) fun gof => prayMool R kit gof
  | _ => wail kit

/-- One round of `_nock_mool`. -/
def moolStep (R : Rec H) (kit : Kit) (bus fol : Noun) : Prog H (Kode × Noun) :=
  match fol with
  | .atom _ => wail kit
  | .cell (.cell b c) gal => do
      match ← R.mool kit bus (.cell b c) with
      | (.exit, poz) => return (.exit, poz)
      | h => do
          let t ← R.mool kit bus gal
          return pairUp h t
  | .cell (.atom hib) gal => moolOp R kit bus hib gal

/-! ### The interpreters -/

/-- Both interpreters, `n` rounds deep. -/
def interp : Nat → Rec H
  | 0 => ⟨fun _ _ _ => .spent, fun _ _ _ => .spent⟩
  | n + 1 => ⟨coolStep (interp n), moolStep (interp n)⟩

/-- `_nock_cool`, cut off at depth `n`. -/
def cool (n : Nat) : Kit → Noun → Noun → Prog H Noun := (interp n).cool

/-- `_nock_mool`, cut off at depth `n`. -/
def mool (n : Nat) : Kit → Noun → Noun → Prog H (Kode × Noun) := (interp n).mool

end Vere.Nock
