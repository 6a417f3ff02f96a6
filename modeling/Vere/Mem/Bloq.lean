import Mathlib.Algebra.Ring.Nat
import Mathlib.Tactic.Common

/-!
# Vere.Mem.Bloq

The liquid allocator of a rail (`f/rail.c`): the blocks between `rut` and `hat`.

A rail is a record of rays into the loom, and the loom is one array of 32-bit words.
With `LoomFold` undefined a ray is its own offset in that array, so the memory here
is a function from rays to words. A rail of the model `rock` begins with its *soup*
(28 heads of free lists, a cache slot of three words and the count of live words,
`U2_PROFILE_MEMORY` being on) and goes on with *boxes*: a size word, a use count, the
user's data, and the size again. A free box keeps the links of its free list in the
first two words of its data.

Every word is written as the natural number it is; the sums and differences that the
source computes in a `c3_w` are `add32` and `sub32`. A failed `c3_assert`, and with it
`u2_loop_signal_memory`, ends a run with `Stop.assert`.
-/

namespace Vere.Mem

/-! ## Words and rays -/

/-- The sum of two words. -/
def add32 (a b : Nat) : Nat := (a + b) % 2 ^ 32

/-- The difference of two words. -/
def sub32 (a b : Nat) : Nat := (a + (2 ^ 32 - b)) % 2 ^ 32

/-- `HalfSize`: the words of one beam. -/
def halfSize : Nat := 2 ^ 27

/-- `u2_ray_a`: the beam of a ray. -/
def rayA (ray : Nat) : Nat := ray / halfSize

/-- `u2_ray_b`: the offset on the beam. -/
def rayB (ray : Nat) : Nat := ray % halfSize

/-- The words of the loom. -/
abbrev Loom := Nat → Nat

/-- `*u2_at_ray(a) = v`. -/
def Loom.set (m : Loom) (a v : Nat) : Loom := fun w => if w = a then v else m w

/-- Why a call does not return: a failed assertion, or a bound on a loop of the model
that was too small. -/
inductive Stop
  | assert
  | spent
  deriving Repr, DecidableEq

/-- `c3_assert`. -/
def must (p : Prop) [Decidable p] : Except Stop Unit :=
  if p then .ok () else .error .assert

/-! ## Rails -/

/-- The memory model of a rail, `c3__rock` or `c3__sand`. -/
inductive Hip
  | rock
  | sand
  deriving Repr, DecidableEq

/-- A rail (`u2_loom_rail`), with the loom it lies in and the option `u2_Host.ops_u.mem`. -/
structure Rail where
  /-- top of the transient region -/
  cap : Nat
  /-- top of the new durable region -/
  hat : Nat
  /-- bottom of the transient region -/
  mat : Nat
  /-- bottom of the new durable region -/
  rut : Nat
  hip : Hip
  /-- `-M`, memory madness -/
  mem : Bool
  loom : Loom

/-- `u2_soup_free_no`. -/
def soupFreeNo : Nat := 28

/-- Where the soup counts the live words (`liv_w`). -/
def soupLiv : Nat := 31

/-- `c3_wiseof(u2_loom_soup)`. -/
def soupSize : Nat := 32

/-- `_rl_feed`: the soup of an empty rail. The cache slot is the business of
`u2_cs_init`, which marks it empty. -/
def rlFeed (r : Rail) : Rail :=
  match r.hip with
  | .sand => r
  | .rock =>
    let heads : Loom := fun w => if r.rut ≤ w ∧ w < r.rut + soupFreeNo then 0 else r.loom w
    { r with
      hat := add32 r.hat soupSize
      loom := (heads.set (r.rut + soupLiv) 0).set (r.rut + soupFreeNo) (2 ^ 31) }

/-- `u2_rl_init`: an empty rail between `hat` and `mat`; the rail record takes five
words. -/
def rlInit (hip : Hip) (mem : Bool) (loom : Loom) (hat mat : Nat) : Rail :=
  rlFeed
    { cap := mat, hat := add32 hat 5, mat := mat, rut := add32 hat 5, hip := hip, mem := mem
      loom := loom }

/-- `u2_rl_boot`: an empty rail in an empty loom. -/
def rlBoot (hip : Hip) (mem : Bool) (loom : Loom) : Rail := rlInit hip mem loom 0 halfSize

/-- `u2_rl_open`: yes iff `a` more words remain in the pad. -/
def rlOpen (r : Rail) (a : Nat) : Bool :=
  if halfSize ≤ add32 (add32 a (rayB r.hat)) (rayB r.cap) then r.mem else true

/-! ## Boxes and free lists -/

/-- `_rl_bloq_make`: a block at `box`, with size `siz` and use count `use`. -/
def bloqMake (m : Loom) (box siz use : Nat) : Except Stop Loom := do
  must (5 ≤ siz)
  return ((m.set box siz).set (add32 box 1) use).set (sub32 (add32 box siz) 1) siz

/-- The loop of `_rl_free_select`, with the number of lists still to try. -/
def freeSelectFrom : Nat → Nat → Nat
  | 0, _ => soupFreeNo - 1
  | n + 1, siz => if siz < 16 then soupFreeNo - (n + 1) else freeSelectFrom n (add32 siz 1 / 2)

/-- `_rl_free_select`: the free list for a block of size `siz`. -/
def freeSelect (siz : Nat) : Nat :=
  if siz = 6 then 0 else freeSelectFrom (soupFreeNo - 1) siz

/-- `_rl_bloq_attach`: put the block at `box` on its free list. -/
def bloqAttach (rut : Nat) (m : Loom) (box : Nat) : Except Stop Loom := do
  let sel := freeSelect (m box)
  let fre := m (rut + sel)
  let m₁ := m.set (box + 2) 0
  let m₂ := m₁.set (box + 3) (m₁ (rut + sel))
  if fre ≠ 0 then
    must (m₂ (fre + 2) = 0)
    return (m₂.set (fre + 2) box).set (rut + sel) box
  else
    return m₂.set (rut + sel) box

/-- `_rl_bloq_detach`: take the block at `box` off its free list. -/
def bloqDetach (rut : Nat) (m : Loom) (box : Nat) : Loom :=
  let sel := freeSelect (m box)
  let pre := m (box + 2)
  let nex := m (box + 3)
  let m₁ := if pre ≠ 0 then m.set (pre + 3) nex else m.set (rut + sel) nex
  if nex ≠ 0 then m₁.set (nex + 2) pre else m₁

/-- `_rl_live_grab`: count `wad` more live words. -/
def liveGrab (rut : Nat) (m : Loom) (wad : Nat) : Loom :=
  m.set (rut + soupLiv) (add32 (m (rut + soupLiv)) wad)

/-! ## Allocation -/

/-- The inner loop of `_rl_bloq_grab`: along one free list from the pointer at `pfr`, the
pointer to the first block of at least `siz` words, if there is one. -/
def seek (m : Loom) (siz : Nat) : Nat → Nat → Except Stop (Option Nat)
  | 0, _ => .error .spent
  | n + 1, pfr =>
    if m pfr = 0 then .ok none
    else if siz > m (m pfr) then seek m siz n (m pfr + 3)
    else .ok (some pfr)

/-- The outer loop of `_rl_bloq_grab`: the last `k` free lists in order. The inner loop is
bounded by `fuel`. -/
def seekLists (m : Loom) (rut siz fuel : Nat) : Nat → Except Stop (Option Nat)
  | 0 => .ok none
  | k + 1 => do
    match ← seek m siz fuel (rut + (soupFreeNo - (k + 1))) with
    | some pfr => return some pfr
    | none => seekLists m rut siz fuel k

/-- Nothing in the free lists: chip away at the hat. -/
def chip (r : Rail) (siz : Nat) : Except Stop (Rail × Nat) := do
  must (rlOpen r siz = true)
  let m ← bloqMake r.loom r.hat siz 1
  return ({ r with hat := add32 r.hat siz, loom := liveGrab r.rut m siz }, add32 r.hat 2)

/-- The block that the pointer at `pfr` leads to, taken off its list and cut to size. -/
def carve (r : Rail) (siz pfr : Nat) : Except Stop (Rail × Nat) := do
  let box := r.loom pfr
  let pre := r.loom (box + 2)
  let nex := r.loom (box + 3)
  must (pre = 0 ∨ pfr = pre + 3)
  let m₁ := r.loom.set pfr nex
  let m₂ := if nex ≠ 0 then m₁.set (nex + 2) pre else m₁
  if add32 siz 6 < m₂ box then
    -- split the block
    let tail := add32 box siz
    let m₃ ← bloqMake m₂ tail (sub32 (m₂ box) siz) 0
    let m₄ ← bloqAttach r.rut m₃ tail
    let m₅ ← bloqMake m₄ box siz 1
    return ({ r with loom := liveGrab r.rut m₅ siz }, add32 box 2)
  else
    must (m₂ (box + 1) = 0)
    let m₃ := m₂.set (box + 1) 1
    return ({ r with loom := liveGrab r.rut m₃ (m₃ box) }, add32 box 2)

/-- The first free list that `_rl_bloq_grab` looks at for a block of size `siz`. -/
def grabSelect (siz : Nat) : Nat :=
  let sel := freeSelect siz
  if sel ≠ 0 ∧ sel ≠ soupFreeNo - 1 then sel + 1 else sel

/-- `_rl_bloq_grab`: allocate `len` words of memory on the rail. There are fewer free
blocks than words below the hat, which bounds the search of one list. -/
def bloqGrab (r : Rail) (len : Nat) : Except Stop (Rail × Nat) :=
  match r.hip with
  | .sand => do
    must (rlOpen r len = true)
    return ({ r with hat := add32 r.hat len }, r.hat)
  | .rock => do
    let siz := (len + 3) % 2 ^ 32
    match ← seekLists r.loom r.rut siz (r.hat + 1) (soupFreeNo - grabSelect siz) with
    | none => chip r siz
    | some pfr => carve r siz pfr

/-! ## Release -/

/-- The words of a block's data, cleared for debugging. -/
def clear (m : Loom) (box : Nat) : Loom := fun w =>
  if box + 2 ≤ w ∧ w + 1 < add32 box (m box) then 0xdeadbeef else m w

/-- Try to coalesce with the previous block. -/
def joinPrev (rut : Nat) (m : Loom) (box : Nat) : Except Stop (Loom × Nat) :=
  if box ≠ add32 rut soupSize then do
    let las := m (sub32 box 1)
    let tod := sub32 box las
    if m (tod + 1) = 0 then
      let m₁ := bloqDetach rut m tod
      let m₂ ← bloqMake m₁ tod (add32 las (m₁ box)) 0
      return (m₂, tod)
    else
      return (m, box)
  else
    return (m, box)

/-- Try to coalesce with the next block, or with the wilderness. -/
def joinNext (r : Rail) (m : Loom) (box : Nat) : Except Stop Rail :=
  let hob := add32 box (m box)
  if hob = r.hat then
    return { r with hat := box, loom := m }
  else do
    let m₁ ←
      if m (hob + 1) = 0 then
        let m₁ := bloqDetach r.rut m hob
        bloqMake m₁ box (add32 (m box) (m₁ hob)) 0
      else pure m
    let m₂ ← bloqAttach r.rut m₁ box
    return { r with loom := m₂ }

/-- `_rl_bloq_free`: release and coalesce a block. -/
def bloqFree (r : Rail) (box : Nat) : Except Stop Rail := do
  must (r.hip = .rock)
  must (r.loom (box + 1) = 0)
  must (rayA box = rayA r.rut)
  must (r.rut ≤ box)
  let m₁ := clear r.loom box
  let m₂ := liveGrab r.rut m₁ (sub32 0 (m₁ box))
  let (m₃, box') ← joinPrev r.rut m₂ box
  joinNext r m₃ box'

/-- A block released as its owners do it: the use count goes to zero, then the block
is freed. -/
def release (r : Rail) (box : Nat) : Except Stop Rail :=
  bloqFree { r with loom := r.loom.set (box + 1) 0 } box

/-- `u2_rl_ralloc`: allocate `siz` words of raw storage. -/
def rlRalloc (r : Rail) (siz : Nat) : Except Stop (Rail × Nat) := bloqGrab r siz

/-- `u2_rl_rfree`: free raw storage. -/
def rlRfree (r : Rail) (nov : Nat) : Except Stop Rail :=
  match r.hip with
  | .sand => return r
  | .rock => do
    must (r.loom (sub32 nov 2 + 1) = 1)
    release r (sub32 nov 2)

end Vere.Mem
