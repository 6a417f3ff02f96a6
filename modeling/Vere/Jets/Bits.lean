import Vere.Lib.Bits
import Vere.Noun

/-!
# Vere.Jets.Bits

The bit-surgery jets of `gen164/3` (and the arithmetic jets of `gen164/1` that
go straight to GMP), as the packers call them.

A jet that builds an atom allocates a slab of zeroed words, XORs pieces of its
arguments in with `u2_chop`, and closes the slab with `u2_rl_malt`, which drops
leading zero words. A slab is modelled by the number it spells together with
its length in words; a piece that would land outside the slab is a `fault`. All
sizes are `c3_w`, so sums and shifts of them wrap at `2^32`.
-/

namespace Vere.Jets

open Vere.Lib

/-- Words an atom occupies. -/
def wordLen (a : Nat) : Nat := (a.size + 31) / 32

/-- `u2_met` (`f/loom.c`): the length of `b` in blocks of `2^a` bits. -/
def u2Met (a b : Nat) : Nat :=
  if b = 0 then 0
  else
    let gal := wordLen b - 1
    let daz := b / 2 ^ (32 * gal)
    match a with
    | 0 | 1 | 2 => c3w (c3w (daz.size + 32 * gal) + (2 ^ a - 1)) / 2 ^ a
    | 3 =>
        c3w (4 * gal + if daz / 2 ^ 24 ≠ 0 then 4 else if daz / 2 ^ 16 ≠ 0 then 3
          else if daz / 2 ^ 8 ≠ 0 then 2 else 1)
    | 4 => c3w (2 * gal + if daz / 2 ^ 16 ≠ 0 then 2 else 1)
    | _ => c3w (gal + 1 + (2 ^ (a - 5) - 1)) / 2 ^ (a - 5)

/-! ### Slabs -/

/-- An atomic slab under construction: its length in words and its contents. -/
structure Slab where
  words : Nat
  val : Nat
  deriving Repr, DecidableEq

/-- `u2_rl_slab`: a blank slab of `len` words. -/
def slab (len : Nat) : Slab := ⟨len, 0⟩

/-- `u2_rl_slaq`: a blank slab of `len` blocks of size `g`. -/
def slaq (g len : Nat) : Slab := slab (c3w (c3w (len * 2 ^ g) + 31) / 32)

/-- `u2_rl_malt`: close a slab, dropping leading zero words. -/
def malt (s : Slab) : Nat := s.val

/-- XOR the `san` bits of `src` at bit `baf` into the slab at bit `bat`. -/
def Slab.hop (s : Slab) (san baf bat src : Nat) : Jet Slab :=
  if bat / 32 < s.words then
    .ok { s with val := s.val ^^^ (2 ^ bat * field src baf san) }
  else .error .fault

/-- The block loop of `u2_chop` for blocks inside a word. -/
def chopBits (san src : Nat) : Nat → Nat → Nat → Slab → Jet Slab
  | 0, _, _, s => .ok s
  | wid + 1, baf, bat, s => do
      let s ← s.hop san baf bat src
      chopBits san src wid (c3w (baf + san)) (c3w (bat + san)) s

/-- The inner word loop of `u2_chop` for blocks of whole words. -/
def chopWords (src : Nat) : Nat → Nat → Nat → Slab → Jet Slab
  | 0, _, _, s => .ok s
  | san + 1, wuf, wut, s => do
      let s ← s.hop 32 (32 * wuf) (32 * wut) src
      chopWords src san (c3w (wuf + 1)) (c3w (wut + 1)) s

/-- The outer block loop of `u2_chop` for blocks of whole words. -/
def chopBloqs (hut src : Nat) : Nat → Nat → Nat → Slab → Jet Slab
  | 0, _, _, s => .ok s
  | wid + 1, fum, tou, s => do
      let s ← chopWords src (2 ^ hut) (c3w (fum * 2 ^ hut)) (c3w (tou * 2 ^ hut)) s
      chopBloqs hut src wid (c3w (fum + 1)) (c3w (tou + 1)) s

/-- `u2_chop` (`f/loom.c`): into the block space of `g`, from position `fum`
for a span of `wid`, to position `tou`, XOR from `src` into the slab. -/
def chop (g fum wid tou : Nat) (s : Slab) (src : Nat) : Jet Slab :=
  if g < 5 then
    chopBits (2 ^ g) src wid (c3w (fum * 2 ^ g)) (c3w (tou * 2 ^ g)) s
  else chopBloqs (g - 5) src wid fum tou s

/-! ### The jets -/

/-- `met`: the measure of `b` as an atom. -/
def met (a b : Nat) : Nat :=
  if !isCat a || 32 ≤ a then (if b = 0 then 0 else 1) else u2Met a b

/-- `bex`: two to the power `a`. -/
def bex (a : Nat) : Jet Nat :=
  if isCat a then .ok (2 ^ a) else .error .fail

/-- `dec`: exits on zero, `u2_bl_error(.., "decrement-underflow")`. -/
def dec (a : Nat) : Jet Nat :=
  if a = 0 then .error .exit else .ok (a - 1)

/-- `sub`: exits on underflow. -/
def sub (a b : Nat) : Jet Nat :=
  if a < b then .error .exit else .ok (a - b)

/-- The count `cut` works with: one that is not a cat becomes the largest. -/
def cutSpan (c : Nat) : Nat := if isCat c then c else 0x7fffffff

/-- The count `cut` copies: no more than the `len` blocks there are. -/
def cutTrim (len b c : Nat) : Nat := if len < c3w (b + c) then len - b else c

/-- `cut`: the `c` blocks of `d` from block `b` on. -/
def cut (a b c d : Nat) : Jet Nat :=
  if !isCat a || 32 ≤ a then .error .fail
  else if !isCat b then .ok 0
  else
    let c := cutSpan c
    let len := u2Met a d
    if c = 0 ∨ len ≤ b then .ok 0
    else
      let c := cutTrim len b c
      if b = 0 ∧ c = len then .ok d
      else do
        let s ← chop a b c 0 (slaq a c) d
        return malt s

/-- `end`: the low `b` blocks of `c`. -/
def «end» (a b c : Nat) : Jet Nat :=
  if !isCat a || 32 ≤ a then .error .fail
  else if !isCat b then .ok c
  else
    let len := u2Met a c
    if b = 0 then .ok 0
    else if len ≤ b then .ok c
    else do
      let s ← chop a 0 b 0 (slaq a b) c
      return malt s

/-- `lsh`: shift `c` left by `b` blocks. -/
def lsh (a b c : Nat) : Jet Nat :=
  if !isCat a || 32 ≤ a then .error .fail
  else if !isCat b then .error .fail
  else
    let len := u2Met a c
    if len = 0 then .ok 0
    else if c3w (b + len) < len then .error .exit
    else do
      let s ← chop a 0 len b (slaq a (c3w (b + len))) c
      return malt s

/-- `cat`: `b` with `c` above it. -/
def cat (a b c : Nat) : Jet Nat :=
  if !isCat a || 32 ≤ a then .error .fail
  else
    let lew := u2Met a b
    let ler := u2Met a c
    let all := c3w (lew + ler)
    if all = 0 then .ok 0
    else do
      let s ← chop a 0 lew 0 (slaq a all) b
      let s ← chop a 0 ler lew s c
      return malt s

/-- The word loop of `mix` over its second argument. -/
def mixWords (b : Nat) : Nat → Nat → Slab → Jet Slab
  | 0, _, s => .ok s
  | n + 1, i, s => do
      let s ← s.hop 32 (32 * i) (32 * i) b
      mixWords b n (i + 1) s

/-- `mix`: exclusive or. -/
def mix (a b : Nat) : Jet Nat :=
  let lna := u2Met 5 a
  let lnb := u2Met 5 b
  if lna = 0 ∧ lnb = 0 then .ok 0
  else do
    let s ← chop 5 0 lna 0 (slab (max lna lnb)) a
    let s ← mixWords b lnb 0 s
    return malt s

/-- The measuring pass of `can`: every width must be a cat and the total must
not wrap. -/
def canSize : Nat → List (Nat × Nat) → Jet Nat
  | tot, [] => .ok tot
  | tot, (p, _) :: rest =>
      if !isCat p then .error .fail
      else if c3w (tot + p) < tot then .error .fail
      else canSize (c3w (tot + p)) rest

/-- The chopping pass of `can`. -/
def canChop (a : Nat) : Nat → List (Nat × Nat) → Slab → Jet Slab
  | _, [], s => .ok s
  | pos, (p, q) :: rest, s => do
      let s ← chop a 0 p pos s q
      canChop a (c3w (pos + p)) rest s

/-- `can`: assemble a list of pieces, each of its own width in blocks. -/
def can (a : Nat) (b : List (Nat × Nat)) : Jet Nat :=
  if !isCat a || 32 ≤ a then .error .fail
  else do
    let tot ← canSize 0 b
    if tot = 0 then return 0
    else
      let s ← canChop a 0 b (slaq a tot)
      return malt s

end Vere.Jets
