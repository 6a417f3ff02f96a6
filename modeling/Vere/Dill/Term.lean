import Vere.Dill.Edit

/-!
# Vere.Dill.Term

The terminal vane (`dill.hoon`): terminals that take requests, `lear`, and responses, `leap`, each
on its own `++yard`. Between them the vane is the map `dug` from terminals to yards.

A `++tank` is printed by `win` of `++re`, to lines of a width. Which lines those are plays no part
here, so it is a parameter.
-/

namespace Vere.Dill

open Vere.Hoon

/-- `++kiss`: in request. A `%flog` goes to every terminal and is no request to one. -/
inductive Kiss (Tank : Type)
  | belt (p : Belt)
  | blew (p q : Nat)
  | boot (p : Noun)
  | crud (p : Nat) (q : List Tank)
  | hail
  | hook
  | harm
  | noop
  | talk (p : Tank)
  | text (p : Tape)

/-- `++prod`: prompt. -/
structure Prod where
  p : Prom
  q : Tape
  r : Tape

/-- `++sign`: in result. -/
inductive Sign (Tank : Type)
  | crud (p : Nat) (q : List Tank)
  | hail
  | helo (p : List Nat) (q : Prod)
  | init (p : Nat)
  | logo (p : Nat)
  | note (p : Nat) (q : Tank)
  | save (p : List Nat) (q : Nat)
  | sage (p : List Nat) (q : Noun)
  | talk (p : Tank)
  | tell (p : List Nat)
  | text (p : Tape)
  | verb
  | veer (p : Nat) (q : List Nat) (r : Nat)
  | vega (p : List Nat)
  | warn (p : Tape)

/-- How tanks are made and printed: `%leaf`, and `win` of `++re` with an indent and a width. -/
structure Re (Tank : Type) where
  leaf : Tape → Tank
  win : Nat → Nat → Tank → List Tape

section Core

variable {Duct Tank : Type} [DecidableEq Duct] (re : Re Tank) (d : Dy Duct)

/-- The lines of a wall, each with its newline. -/
def wall : List Tape → Option (List Blit)
  | [] => some []
  | i :: t => do return .lin (← tuba i) :: .mor :: (← wall t)

/-- `furl`: print wall. -/
def furl (wol : List Tape) : Option (Dy Duct) := do
  let d := d.curb (← wall wol).reverse
  match d.yar.bed with
  | none => return d
  | some bed => return edit d bed

/-- A line with a prefix in place of its first two characters. -/
def prefixed (pef : Nat) : Tape → Option Tape
  | _ :: _ :: t => some (pef :: ' '.toNat :: t)
  | _ => none

/-- `fume`: print tank, prefix. -/
def fume (pef : Nat) (tac : Tank) : Option (Dy Duct) := do
  furl d (← (re.win 2 d.yar.cols tac).mapM (prefixed pef))

/-- The loop of `%crud`: the last tank first. -/
def trace : List Tank → Option (Dy Duct)
  | [] => some d
  | i :: t => do fume re (← trace t) '!'.toNat i

/-- `%helo` of `leap`: trigger prompt. -/
def helo (p : List Nat) (q : Prod) : Option (Dy Duct) :=
  let hyt := (d.yar.hist p).getD ⟨0, []⟩
  let hyt : Hist := ⟨hyt.p + 1, 0 :: hyt.q⟩
  let fresh : Option (Dy Duct) := do
    let zon ← tuba q.r
    return edit d ⟨zon.length, zon.length, zon, q.p, 0, p, fun _ => none, hyt, none, q.q.length, q.q⟩
  match d.yar.bed with
  | none => fresh
  | some bed =>
      if p = bed.hux then
        some (edit d { bed with hyt := hyt, pot := q.q, pol := q.q.length, buy := q.p })
      else fresh

/-- `lear`: handle request. -/
def lear : Kiss Tank → Option (Dy Duct)
  | .belt b => belt d b
  | .blew p _ => some { d with yar := { d.yar with cols := p } }
  | .boot p => some (d.move (.pass (.boot p)))
  | .crud p q => trace re d (re.leaf (trip p) :: q)
  | .hail => some (d.move (.pass .hail))
  -- What is kept of this terminal is overwritten by `yerk`.
  | .harm => some ({ d with dug := fun _ => none }.move (.pass .harm))
  | .hook => some ({ d with dug := Function.update d.dug d.hen none }.move (.pass .hook))
  | .noop => some d
  | .talk p => furl d (re.win 0 d.yar.cols p)
  | .text p => furl d (re.win 0 d.yar.cols (re.leaf p))

/-- `leap`: accept response. -/
def leap : Sign Tank → Option (Dy Duct)
  | .crud p q => trace re d (re.leaf (trip p) :: q)
  | .hail => some (d.move (.pass .hail))
  | .helo p q => helo d p q
  | .init p => some (d.move (.give (.init p)))
  | .logo p => some (d.move (.give (.logo p)))
  | .note p q => if d.yar.verbose then fume re d p q else some d
  | .save p q => some (d.move (.give (.blit [.sav p q])))
  | .sage p q => some (d.move (.give (.blit [.sag p q])))
  | .talk p => furl d (re.win 0 d.yar.cols p)
  | .tell p => furl d (p.map trip)
  | .text p => furl d (re.win 0 d.yar.cols (re.leaf p))
  | .verb => some (d.move (.give .verb))
  | .veer p q r => some (d.move (.give (.veer p q r)))
  | .vega p => some (d.move (.give (.vega p)))
  | .warn p => fume re d '~'.toNat (re.leaf p)

end Core

/-- The vane: its terminals, and every move it has made, the latest first. -/
structure Vane (Duct : Type) where
  dug : Duct → Option Yard
  mos : List (Duct × Act)

namespace Vane

variable {Duct Tank : Type} [DecidableEq Duct] (re : Re Tank)

/-- What happens at a terminal. -/
inductive Event (Duct Tank : Type)
  | call (hen : Duct) (kyz : Kiss Tank)
  | take (hen : Duct) (sih : Sign Tank)

/-- A yard that is new. -/
def yard : Yard := ⟨true, 80, none, ⟨0, 0, []⟩, fun _ => none⟩

/-- `++dy`: a terminal goes to work. -/
def dy (s : Vane Duct) (hen : Duct) : Dy Duct := ⟨hen, s.dug, (s.dug hen).getD yard, []⟩

/-- `yerk`: complete core. -/
def yerk (s : Vane Duct) (d : Dy Duct) : Vane Duct :=
  ⟨Function.update d.dug d.hen (some d.yar), d.mos ++ s.mos⟩

/-- `call` and `take`. -/
def step : Event Duct Tank → Vane Duct → Option (Vane Duct)
  | .call hen kyz, s => do return s.yerk (← lear re (s.dy hen) kyz)
  | .take hen sih, s => do return s.yerk (← leap re (s.dy hen) sih)

/-- The vane before its first event. -/
def init : Vane Duct := ⟨fun _ => none, []⟩

end Vane

end Vere.Dill
