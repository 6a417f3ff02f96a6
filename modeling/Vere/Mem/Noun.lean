import Vere.Mem.Bloq
import Vere.Noun

/-!
# Vere.Mem.Noun

Nouns in the loom, and their reference counts (`f/rail.c`).

A noun is a word: a *cat*, which is a direct atom, or a *dog*, which is the ray of an atom (a *pug*)
or a cell (a *pom*) in a box. A box counts in its second word how many references there are to what
it holds. A count that has come to `0x7fffffff` stays there.

`u2_rl_gain` and `u2_rl_lose` go down in a noun only where it is not counted, in the can, or is let
go. How far down they go is bounded by fuel: no further than there are words below the hat.
-/

namespace Vere.Mem

/-! ### Words of nouns -/

/-- `u2_dog_of`. -/
def dogOf (a b c : Nat) : Nat := 2 ^ 31 ||| (a <<< 2) % 2 ^ 32 ||| b <<< 1 ||| c

/-- `u2_pom_of(a, 0)`. -/
def pomOf (a : Nat) : Nat := dogOf a 0 0

/-- `u2_pug_of(a, 0)`. -/
def pugOf (a : Nat) : Nat := dogOf a 0 1

/-- `u2_none`: no noun. -/
def noNoun : Nat := dogOf 0 0 0

/-- `u2_fly_is_cat`. -/
def flyIsCat (fly : Nat) : Bool := fly / 2 ^ 31 = 0

/-- `u2_dog_a`: the ray of a dog. -/
def dogA (dog : Nat) : Nat := dog % 2 ^ 31 / 4

/-- `u2_dog_is_pom`. -/
def dogIsPom (dog : Nat) : Bool := dog % 2 = 0

/-! ### Reference counts -/

/-- `u2_rl_gain`: gain a reference. -/
def rlGain : Nat → Rail → Nat → Except Stop Rail
  | 0, _, _ => .error .spent
  | n + 1, r, som =>
    if som = noNoun ∨ flyIsCat som then .ok r
    else
      let ray := dogA som
      if rayA ray = rayA r.hat then
        if r.hip = .rock ∧ r.rut < ray then do
          let use := r.loom (sub32 ray 2 + 1)
          must (use ≠ 0)
          if use ≠ 0x7fffffff then
            return { r with loom := r.loom.set (sub32 ray 2 + 1) (add32 use 1) }
          else return r
        else .ok r
      else if dogIsPom som ∧ r.mat ≤ ray then do
        -- In the can counting propagates down.
        let r ← rlGain n r (r.loom (ray + 1))
        rlGain n r (r.loom (ray + 2))
      else .ok r

/-- `u2_rl_lose` from `top` on: lose a reference to what may be `u2_none`. -/
def loseTop : Nat → Rail → Nat → Except Stop Rail
  | 0, _, _ => .error .spent
  | n + 1, r, som =>
    if flyIsCat som then .ok r
    else
      let ray := dogA som
      if rayA ray = rayA r.hat then
        if r.hip = .rock ∧ r.rut ≤ ray then
          let box := sub32 ray 2
          let use := r.loom (box + 1)
          if use = 1 then
            if dogIsPom som then do
              let hed := r.loom (ray + 1)
              let tel := r.loom (ray + 2)
              let r ← if hed = noNoun then pure r else loseTop n r hed
              let r ← release r box
              loseTop n r tel
            else release r box
          else do
            must (use ≠ 0)
            if use ≠ 0x7fffffff then
              return { r with loom := r.loom.set (box + 1) (use - 1) }
            else return r
        else .ok r
      else if dogIsPom som ∧ r.mat ≤ ray then do
        let hed := r.loom (ray + 1)
        let tel := r.loom (ray + 2)
        let r ← if hed = noNoun then pure r else loseTop n r hed
        loseTop n r tel
      else .ok r

/-- `u2_rl_lose`: lose a reference, and free what is no longer referred to. -/
def rlLose (n : Nat) (r : Rail) (som : Nat) : Except Stop Rail :=
  if som = noNoun then .ok r else loseTop n r som

/-! ### Making nouns -/

/-- `u2_ray_fnit`: the place of a ray. -/
def fnit (ray : Nat) : Nat := if rayA ray ≠ 0 then sub32 (halfSize - 1) (rayB ray) else ray

/-- `u2_rl_junior`: whether a noun must be copied to be referenced on the hat. -/
def junior (r : Rail) (som : Nat) : Bool :=
  if flyIsCat som then false
  else if rayA r.hat = 0 then
    fnit r.hat ≤ fnit (dogA som) && fnit (dogA som) ≤ fnit r.mat
  else fnit r.mat ≤ fnit (dogA som) && fnit (dogA som) ≤ fnit r.hat

/-- `u2_rl_cell`: a cell of two nouns, which it takes over. -/
def rlCell (n : Nat) (r : Rail) (a b : Nat) : Except Stop (Rail × Nat) :=
  if a = noNoun ∨ b = noNoun then do
    let r ← rlLose n r a
    let r ← rlLose n r b
    return (r, noNoun)
  else do
    must (junior r a = false)
    must (junior r b = false)
    let (r, nov) ← bloqGrab r 3
    let m := ((r.loom.set nov 0).set (nov + 1) a).set (nov + 2) b
    return ({ r with loom := m }, pomOf nov)

/-- The words of a list, from a ray on. -/
def fill (m : Loom) (ray : Nat) : List Nat → Loom
  | [] => m
  | w :: ws => fill (m.set ray w) (ray + 1) ws

/-- Words without the zeroes at their end. -/
def strip (ws : List Nat) : List Nat := (ws.reverse.dropWhile (· = 0)).reverse

/-- `u2_rl_words`: the atom of some words. -/
def rlWords (r : Rail) (ws : List Nat) : Except Stop (Rail × Nat) :=
  let ws := strip ws
  match ws with
  | [] => .ok (r, 0)
  | w :: rest =>
    if rest = [] ∧ flyIsCat w then .ok (r, w)
    else do
      must (ws.length < 2 ^ 27)
      if rlOpen r (ws.length + 2) = false then return (r, noNoun)
      else
        let (r, nov) ← bloqGrab r (ws.length + 2)
        let m := fill ((r.loom.set nov 0).set (nov + 1) ws.length) (nov + 2) ws
        return ({ r with loom := m }, pugOf nov)

/-! ### What nouns are -/

/-- The number that the words from a ray on are the digits of. -/
def number (m : Loom) (ray : Nat) : Nat → Nat
  | 0 => 0
  | n + 1 => m ray + 2 ^ 32 * number m (ray + 1) n

/-- A word is a noun in a loom. -/
def Reads (m : Loom) : Noun → Nat → Prop
  | .atom x, som =>
      flyIsCat som ∧ x = som ∨
        flyIsCat som = false ∧ dogIsPom som = false ∧ x = number m (dogA som + 2) (m (dogA som + 1))
  | .cell h t, som =>
      flyIsCat som = false ∧ dogIsPom som = true ∧ Reads m h (m (dogA som + 1)) ∧
        Reads m t (m (dogA som + 2))

end Vere.Mem
