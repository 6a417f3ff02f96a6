import Vere.Hoon.Text
import Vere.Hoon.Bits
import Vere.Lib.Agenda

/-!
# Vere.Arvo.Core

The Arvo core (`hoon.hoon`, section 3bE): how an event is handed from vane to vane.

A `%pass` puts the wire it is given on the duct, under the name of the vane that passes, and a
`%give` takes it off again; what is given on a duct of one wire leaves the core. What comes of an
event is done with a list of moves that are still to be made (`kick`).

What a vane does, and whether it can be given a card of some type, is code that is compiled and run
by the core (`++vent`), and plays no part here: it is a parameter.
-/

namespace Vere.Arvo

open Vere.Hoon

/-- `++wire`: event pretext. -/
abbrev Wire := List Nat

/-- `++duct`: causal history. -/
abbrev Duct := List Wire

/-- `++arvo`: arvo card, for cards of a type. -/
inductive Mold (Mill : Type)
  /-- Advance. -/
  | pass (p : Wire) (lal : Nat) (q : Mill)
  /-- Lateral. -/
  | slip (lal : Nat) (p : Mill)
  /-- Lame refactoring. -/
  | sick (p : Mill)
  /-- Retreat. -/
  | give (p : Mill)

/-- `++move`: arvo move. -/
structure Move (Mill : Type) where
  p : Duct
  q : Mold Mill

/-- `++muse`: sourced move. -/
structure Muse (Mill : Type) where
  p : Nat
  q : Duct
  r : Mold Mill

/-- `++ovum`: typeless ovum. -/
structure Ovum (Curd : Type) where
  p : Wire
  q : Curd

/-- The vanes, by name. -/
abbrev Fan (Vase : Type) := List (Nat × Vase)

/-- What vanes are to the core. -/
structure Vent (Mill Vase Curd : Type) where
  /-- `swim`: a card is given to a vane at a time, with the vanes whose name space it may read:
  from whom, on what wire if it is a response, on what duct. -/
  swim : Nat → Fan Vase → (org : Nat) → (pux : Option Wire) → (hen : Duct) → (hil : Mill) →
    (ves : Vase) → Option (List (Move Mill) × Vase)
  /-- A card without its type. -/
  curd : Mill → Curd
  /-- A `%soft` card, with no type. -/
  soft : Curd → Mill

section Core

variable {Mill Vase Curd : Type} (ven : Vent Mill Vase Curd) (now : Nat)

/-- `dint`: input routing. -/
def dint : Wire → Option Nat
  | _ :: hap :: _ =>
      if hap = cord "ames".toList ∨ hap = cord "newt".toList then some 'a'.toNat
      else if hap = cord "batz".toList then some 'b'.toNat
      else if hap = cord "clay".toList ∨ hap = cord "sync".toList then some 'c'.toNat
      else if hap = cord "term".toList then some 'd'.toNat
      else if hap = cord "http".toList then some 'e'.toNat
      else none
  | _ => none

/-- The loop of `fire`: the first vane of a name takes the card. -/
def fireLoop (fan : Fan Vase) (org lal : Nat) (pux : Option Wire) (hen : Duct) (hil : Mill) :
    Fan Vase → Option (List (Muse Mill) × Fan Vase)
  | [] => some ([], [])
  | (p, q) :: naf =>
      if lal = p then do
        let fiq ← ven.swim now fan org pux hen hil q
        return (fiq.1.map fun a => ⟨lal, a.p, a.q⟩, (p, fiq.2) :: naf)
      else do
        let tuh ← fireLoop fan org lal pux hen hil naf
        return (tuh.1, (p, q) :: tuh.2)

/-- `fire`: execute. What is taken at the end of its duct leaves the core. -/
def fire (org lal : Nat) (pux : Option Wire) (hen : Duct) (hil : Mill) (fan : Fan Vase) :
    Option (List (Ovum Curd) × List (Muse Mill) × Fan Vase) :=
  match pux, hen with
  | some w, [] => some ([⟨lal :: w, ven.curd hil⟩], [], fan)
  | _, _ => do
      let (q, fan) ← fireLoop ven now fan org lal pux hen hil fan
      return ([], q, fan)

/-- Where a card goes, in `jack`: to what vane, on what wire, on what duct. -/
def Muse.aim (gum : Muse Mill) : Option (Nat × Option Wire × Duct × Mill) :=
  match gum.r with
  | .pass p lal q => some (lal, none, (gum.p :: p) :: gum.q, q)
  | .give p =>
      match gum.q with
      | (i :: t) :: q => some (i, some t, q, p)
      | _ => none
  | .slip lal p => some (lal, none, gum.q, p)
  | .sick p =>
      match gum.q with
      | (i :: t) :: q => some (i, if t.isEmpty then none else some t, q, p)
      | _ => none

/-- `jack`: dispatch card. -/
def jack (gum : Muse Mill) (fan : Fan Vase) :
    Option (List (Ovum Curd) × List (Muse Mill) × Fan Vase) := do
  let (lal, pux, hen, hil) ← gum.aim
  fire ven now gum.p lal pux hen hil fan

/-- `kick`: new main loop. -/
def kick : Nat → List (Muse Mill) → List (Ovum Curd) → Fan Vase →
    Option (List (Ovum Curd) × Fan Vase)
  | _, [], ova, fan => some (ova.reverse, fan)
  | 0, _ :: _, _, _ => none
  | n + 1, i :: mor, ova, fan => do
      let nyx ← jack ven now i fan
      kick n (nyx.2.1 ++ mor) (nyx.1 ++ ova) nyx.2.2

/-- The first move of an event, in `hurl`. -/
def first (ovo : Ovum Curd) : Option (Muse Mill) :=
  match ovo.p with
  | [] => none
  | i :: t => do return ⟨i, [], .pass t (← dint (i :: t)) (ven.soft ovo.q)⟩

/-- `hurl`: start loop. -/
def hurl (n : Nat) (ovo : Ovum Curd) (fan : Fan Vase) : Option (List (Ovum Curd) × Fan Vase) := do
  kick ven now n [← first ven ovo] [] fan

end Core

end Vere.Arvo
