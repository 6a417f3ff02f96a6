import Vere.Hoon.Bits
import Vere.Hoon.Map

/-!
# Vere.Hoon.Pack

The packing arms of `hoon.hoon` (section 2eA): `++mat` and `++rub` code an atom
with its own length, `++jam` and `++cue` code a noun.

A crash of the Hoon program (`?<` in `++rub`, `need` in `++cue`) is `none`; the
arms that cannot crash are total functions. Every arm keeps the faces of its
product: `p` is the number of bits written or consumed, `q` the product itself
and `r` the map threaded through the loop.
-/

namespace Vere.Hoon

open Vere.Lib

/-- `++mat`: length-encode. -/
def mat (a : Nat) : Nat × Nat :=
  if a = 0 then (1, 1)
  else
    let b := met 0 a
    let c := met 0 b
    (c + c + b, cat 0 (bex c) (mix («end» 0 (c - 1) b) (lsh 0 (c - 1) a)))

/-- The loop of `++rub`: count zero bits from `a + c` on, no more than `m`. -/
def rubLoop (a b m c : Nat) : Option Nat :=
  if m < c then none
  else if cut 0 (a + c) 1 b ≠ 0 then some c
  else rubLoop a b m (c + 1)
termination_by m + 1 - c

/-- `++rub`: length-decode. -/
def rub (a b : Nat) : Option (Nat × Nat) := do
  let c ← rubLoop a b (met 0 b) 0
  if c = 0 then return (1, 0)
  let d := a + (c + 1)
  let e := bex (c - 1) + cut 0 d (c - 1) b
  return (c + c + e, cut 0 (d + (c - 1)) e b)

/-- The product of the loop of `++jam`. -/
structure Jam where
  p : Nat
  q : Nat
  r : Map Nat

/-- The loop of `++jam`. -/
def jamLoop (mug : Noun → Nat) (a : Noun) (b : Nat) (m : Map Nat) : Jam :=
  match get mug m a with
  | none =>
      match a with
      | .atom x => ⟨1 + (mat x).1, lsh 0 1 (mat x).2, put mug m a b⟩
      | .cell h t =>
          let d := jamLoop mug h (2 + b) (put mug m a b)
          let e := jamLoop mug t (2 + b + d.p) d.r
          ⟨2 + (d.p + e.p), mix 1 (lsh 0 2 (cat 0 d.q e.q)), e.r⟩
  | some c =>
      match a with
      | .atom x =>
          if met 0 x ≤ met 0 c then ⟨1 + (mat x).1, lsh 0 1 (mat x).2, m⟩
          else ⟨2 + (mat c).1, mix 3 (lsh 0 2 (mat c).2), m⟩
      | .cell _ _ => ⟨2 + (mat c).1, mix 3 (lsh 0 2 (mat c).2), m⟩

/-- `++jam`: pack. -/
def jam (mug : Noun → Nat) (a : Noun) : Nat := (jamLoop mug a 0 .nil).q

/-- The product of the loop of `++cue`. -/
structure Cue where
  p : Nat
  q : Noun
  r : Map Noun

theorem cue_lt {a b c : Nat} (h : ¬cut 0 b 1 a = 0) (hc : b < c) :
    a.size - c < a.size - b := by
  rw [cut_zero] at h
  have hb := lt_size_of_field_ne_zero h
  omega

/-- The loop of `++cue`. A cell is read only where there is a set bit, so the
cursor stays below the top bit of `a` and the loop ends on every input. -/
def cueLoop (mug : Noun → Nat) (a b : Nat) (m : Map Noun) : Option Cue :=
  if h : cut 0 b 1 a = 0 then do
    let c ← rub (b + 1) a
    return ⟨c.1 + 1, .atom c.2, put mug m (.atom b) (.atom c.2)⟩
  else if cut 0 (b + 1) 1 a = 0 then do
    let u ← cueLoop mug a (2 + b) m
    let v ← cueLoop mug a (u.p + (2 + b)) u.r
    let w := Noun.cell u.q v.q
    return ⟨2 + (u.p + v.p), w, put mug v.r (.atom b) w⟩
  else do
    let d ← rub (2 + b) a
    let w ← get mug m (.atom d.2)
    return ⟨2 + d.1, w, m⟩
termination_by a.size - b
decreasing_by
  · exact cue_lt h (by omega)
  · exact cue_lt h (by omega)

/-- `++cue`: unpack. -/
def cue (mug : Noun → Nat) (a : Nat) : Option Noun := do
  let c ← cueLoop mug a 0 .nil
  return c.q

end Vere.Hoon
