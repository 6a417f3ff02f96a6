import Vere.Lib.Bytes
import Vere.Noun

/-!
# Vere.Raft.Wire

The wire format of `v/raft.c`: how messages are filled in (`_raft_write_*`), put
into a write buffer (`_raft_rmsg_send`, `_raft_rbuf_grow`) and taken out of a read
buffer (`_raft_rmsg_read`).

* **Arithmetic.** Words and double words are `UInt32` and `UInt64`. A product or
  sum that the code computes in one of these widths is written with its modulus;
  offsets stay below `2 ^ 33` and are plain numbers.
* **Storage.** A name or a blob is the list of bytes of its allocation. What
  `malloc` leaves in it, whether `calloc` finds room, and what the stack holds in
  a message that was not filled in come from an `Env`.
* **Faults.** A failed assertion, an access outside an allocation and a free of an
  indeterminate pointer are one outcome, `fault`.

A message is read in the width of its type tag, so the union of the C struct is an
inductive type and the tag is a function of it.
-/

namespace Vere.Raft

open Vere.Lib

/-- `u2_rent`: a log entry. -/
structure Rent where
  temW : UInt32
  typW : UInt32
  lenW : UInt32
  bobW : List UInt8
  deriving Repr, DecidableEq

/-- The fields of a request. -/
structure Rest where
  laiD : UInt64
  latW : UInt32
  namW : UInt32
  namC : List UInt8
  deriving Repr, DecidableEq

/-- The union of `u2_rmsg`. -/
inductive Body
  | rasp (sucW : UInt32)
  | revo (rest : Rest)
  | apen (rest : Rest) (citD : UInt64) (entD : UInt64) (entU : List Rent)
  deriving Repr, DecidableEq

/-- `u2_rmsg`. -/
structure Rmsg where
  verW : UInt32
  lenD : UInt64
  temW : UInt32
  body : Body
  deriving Repr, DecidableEq

def c3rasp : Nat := c3s4 'r' 'a' 's' 'p'
def c3apen : Nat := c3s4 'a' 'p' 'e' 'n'
def c3revo : Nat := c3s4 'r' 'e' 'v' 'o'

/-- `typ_w`. -/
def Body.typW : Body → UInt32
  | rasp _ => .ofNat c3rasp
  | revo _ => .ofNat c3revo
  | apen _ _ _ _ => .ofNat c3apen

/-- `u2_cr_mug('a')`: the FNV hash of one byte, folded to 31 bits. -/
def mugA : UInt32 :=
  let has : UInt32 := (2166136261 ^^^ 97) * 16777619
  (has >>> 31) ^^^ (has &&& 0x7fffffff)

/-! ### Memory -/

/-- `uv_strlcpy`: copy the string at `src` into storage `dst` of `siz` bytes. -/
def strlcpy (dst src : List UInt8) (siz : Nat) : List UInt8 :=
  if siz = 0 then dst
  else
    let str := (src.take (siz - 1)).takeWhile (· ≠ 0)
    str ++ 0 :: dst.drop (str.length + 1)

/-- How many bytes of `src` that reads. -/
def strlcpyReads (src : List UInt8) (siz : Nat) : Nat :=
  min ((src.take (siz - 1)).takeWhile (· ≠ 0)).length.succ (siz - 1)

/-- What a call finds in memory: the bytes of a fresh allocation, whether
`calloc` finds room, and whether the `ent_u` of a message on the stack is non-null
before it is set. -/
structure Env where
  junk : Nat → UInt8
  calloc : Nat → Bool
  stack : Bool

/-- `malloc`. -/
def Env.malloc (env : Env) (siz : Nat) : List UInt8 := (List.range siz).map env.junk

/-- `sizeof(u2_rent)`. -/
def sizeofRent : Nat := 24

/-- `_raft_rbuf`: a buffer with its capacity; `len_w` is the number of bytes. -/
structure Rbuf where
  capW : Nat
  bufY : List UInt8
  deriving Repr, DecidableEq

/-- `_raft_rbuf_grow`; nothing if it writes past the end of the storage. -/
def rbufGrow (buf : Option Rbuf) (bufY : List UInt8) : Option Rbuf :=
  let buf := buf.getD ⟨bufY.length % 2 ^ 32, []⟩
  let tot := buf.bufY.length + bufY.length
  let cap := if buf.capW < tot then max (2 * buf.capW % 2 ^ 32) tot % 2 ^ 32 else buf.capW
  if cap < tot then none else some ⟨cap, buf.bufY ++ bufY⟩

/-! ### Sending -/

def word (w : UInt32) : List UInt8 := toLE 4 w.toNat
def dword (d : UInt64) : List UInt8 := toLE 8 d.toNat

/-- `4 * nam_w` and the like, in 32 bits. -/
def times4 (w : UInt32) : Nat := 4 * w.toNat % 2 ^ 32

/-- The pieces of a request's fields. -/
def Rest.pieces (r : Rest) : List (List UInt8) :=
  [dword r.laiD, word r.latW, word r.namW, r.namC.take (times4 r.namW)]

/-- The pieces of an entry. As many bytes of the blob are sent as it has words. -/
def Rent.pieces (e : Rent) : List (List UInt8) :=
  [word e.temW, word e.typW, word e.lenW, e.bobW.take e.lenW.toNat]

/-- What `_raft_rmsg_send` gives to `_raft_bytes_send`, one piece a call. -/
def Rmsg.pieces (m : Rmsg) : List (List UInt8) :=
  [word m.verW, dword m.lenD, word m.temW, word m.body.typW] ++
    match m.body with
    | .rasp sucW => [word sucW]
    | .revo r => r.pieces
    | .apen r citD entD entU => r.pieces ++ [dword citD, dword entD] ++ entU.flatMap Rent.pieces

/-- The bytes `_raft_rmsg_send` counts in `len_d`. -/
def Rmsg.sentD (m : Rmsg) : Nat :=
  match m.body with
  | .rasp _ => 8 + 3 * 4 + 4
  | .revo r => (8 + 3 * 4 + (8 + 2 * 4 + times4 r.namW)) % 2 ^ 64
  | .apen r _ _ entU =>
      entU.foldl (fun d e => (d + (3 * 4 + e.lenW.toNat)) % 2 ^ 64)
        ((8 + 3 * 4 + (8 + 2 * 4 + times4 r.namW) + 2 * 8) % 2 ^ 64)

/-- `_raft_rmsg_send`; nothing on a fault. -/
def rmsgSend (wri : Option Rbuf) (m : Rmsg) : Option (Option Rbuf) := do
  let wri ← m.pieces.foldlM (fun wri piece => (rbufGrow wri piece).map some) wri
  if m.sentD = 4 * m.lenD.toNat % 2 ^ 64 then some wri else none

/-! ### Filling in -/

/-- A C string. -/
@[ext]
structure Cstr where
  str : List UInt8
  nonzero : 0 ∉ str
  deriving DecidableEq

/-- The fields of `u2_raft` that messages are filled in from. -/
structure Self where
  strC : Cstr
  entD : UInt64
  latW : UInt32
  temW : UInt32

/-- `_raft_write_base`. -/
def writeBase (raf : Self) (body : Body) : Rmsg := ⟨mugA, 5, raf.temW, body⟩

/-- `nam_w`: the name in words, with its terminator. -/
def nameWords (strC : Cstr) : UInt32 := .ofNat (1 + strC.str.length / 4)

/-- `_raft_write_rest`, the fields. -/
def writeRest (raf : Self) (laiD : UInt64) (latW : UInt32) : Rest :=
  let namW := nameWords raf.strC
  { laiD, latW, namW
    namC := strlcpy (List.replicate (times4 namW) 0) (raf.strC.str ++ [0]) (times4 namW) }

/-- `_raft_write_rest`, the length: `4 + nam_w` is computed in 32 bits. -/
def restLen (r : Rest) : UInt64 := 5 + (4 + r.namW).toUInt64

/-- A log entry given to `_raft_write_apen`: a blob of whole words, as many as
`len_w` can say. -/
structure Entry where
  temW : UInt32
  typW : UInt32
  bobW : List UInt32
  fits : bobW.length < 2 ^ 32

def Entry.rent (e : Entry) : Rent where
  temW := e.temW
  typW := e.typW
  lenW := .ofNat e.bobW.length
  bobW := e.bobW.flatMap word

/-- The array given to `_raft_write_apen`, as many entries as `ent_d` can say. -/
structure Entries where
  entU : List Entry
  fits : entU.length < 2 ^ 64

/-- `_raft_write_apen`. -/
def writeApen (raf : Self) (laiD : UInt64) (latW : UInt32) (citD : UInt64) (ents : Entries) :
    Rmsg :=
  let rest := writeRest raf laiD latW
  let entU := ents.entU.map Entry.rent
  { writeBase raf (.apen rest citD (.ofNat ents.entU.length) entU) with
    lenD := entU.foldl (fun d e => d + (3 + e.lenW).toUInt64) (restLen rest + 4) }

/-- `_raft_write_revo`. -/
def writeRevo (raf : Self) : Rmsg :=
  let rest := writeRest raf raf.entD raf.latW
  { writeBase raf (.revo rest) with lenD := restLen rest }

/-- The message of `_raft_send_rasp`. -/
def writeRasp (raf : Self) (sucW : UInt32) : Rmsg :=
  { writeBase raf (.rasp sucW) with lenD := 5 + 1 }

/-! ### Reading -/

/-- How `_raft_rmsg_read` ends: more bytes are needed, the message is refused, or
it is taken, with the bytes consumed and one past the last byte looked at. -/
inductive Read
  | more
  | reject
  | accept (redI top : Nat) (msg : Rmsg)
  | fault
  deriving Repr, DecidableEq

def wordAt (buf : List UInt8) (off : Nat) : UInt32 := .ofNat (ofLE (bytesAt buf off 4))
def dwordAt (buf : List UInt8) (off : Nat) : UInt64 := .ofNat (ofLE (bytesAt buf off 8))

/-- An entry of the buffer and where the next one starts. -/
def entAt (buf : List UInt8) (off : Nat) : Rent × Nat :=
  let lenW := wordAt buf (off + 8)
  (⟨wordAt buf off, wordAt buf (off + 4), lenW, bytesAt buf (off + 12) (times4 lenW)⟩,
    off + 12 + times4 lenW)

/-- How the loop over the entries ends. -/
inductive Ents
  | done (entU : List Rent) (redI : Nat)
  | fail
  | fault
  deriving Repr, DecidableEq

/-- The loop over the entries of an `apen`, from entry `i` on, `n` of them left.
`ent` is the size of the array, or nothing if `ent_u` is null. -/
def readEnts (buf : List UInt8) (ben : Nat) (ent : Option Nat) : Nat → Nat → Nat → Ents
  | _, redI, 0 => .done [] redI
  | i, redI, n + 1 =>
      if ben < redI + 12 then .fail
      -- the first field of `ent_u[i]` is written here
      else if ent.all (· < (i + 1) * sizeofRent) then .fault
      else if ben < (entAt buf redI).2 then .fail
      else
        match readEnts buf ben ent (i + 1) (entAt buf redI).2 n with
        | .done entU end_ => .done ((entAt buf redI).1 :: entU) end_
        | r => r

/-- The `fail` label: free the message and refuse it. The array is walked over
`ent_d` entries. -/
def failApen (ent : Option Nat) (entD : UInt64) : Read :=
  if ent.any (· < entD.toNat * sizeofRent) then .fault else .reject

/-- The last check. -/
def finish (ben redI top : Nat) (msg : Rmsg) : Read :=
  if redI = ben then .accept redI top msg else .reject

/-- The fields of a request from offset 20 on. -/
def restAt (env : Env) (buf : List UInt8) : Rest :=
  let namW := wordAt buf 32
  ⟨dwordAt buf 20, wordAt buf 28, namW,
    strlcpy (env.malloc (times4 namW)) (buf.drop 36) (times4 namW)⟩

/-- One past the last byte looked at for the name. -/
def nameTop (buf : List UInt8) : Nat := 36 + strlcpyReads (buf.drop 36) (times4 (wordAt buf 32))

/-- The rest of an `apen` whose name ends at `redI`. -/
def readApen (env : Env) (buf : List UInt8) (ben redI : Nat) (msg : Body → Rmsg) (rest : Rest) :
    Read :=
  if ben < redI + 2 * 8 then
    -- `ent_u` is not set yet
    if env.stack then .fault else .reject
  else
    let citD := dwordAt buf redI
    let entD := dwordAt buf (redI + 8)
    let siz := entD.toNat * sizeofRent % 2 ^ 64
    let ent := if env.calloc siz then some siz else none
    match readEnts buf ben ent 0 (redI + 16) entD.toNat with
    | .fault => .fault
    | .fail => failApen ent entD
    | .done entU end_ =>
        if end_ = ben then .accept end_ end_ (msg (.apen rest citD entD entU))
        else failApen ent entD

/-- The fields after the header of a message of `ben` bytes, by its type. -/
def readBody (env : Env) (buf : List UInt8) (ben : Nat) (msg : Body → Rmsg) : Read :=
  let typW := (wordAt buf 16).toNat
  if typW = c3rasp then
    if ben < 20 + 4 then .reject
    else finish ben 24 24 (msg (.rasp (wordAt buf 20)))
  else if typW = c3apen ∨ typW = c3revo then
    if ben < 20 + 8 + 2 * 4 then .reject
    else
      let rest := restAt env buf
      let redI := 36 + times4 rest.namW
      if ben < redI then .reject
      else if typW = c3apen then readApen env buf ben redI msg rest
      else finish ben redI (nameTop buf) (msg (.revo rest))
  else .reject

/-- `_raft_rmsg_read`. -/
def rmsgRead (env : Env) (buf : List UInt8) : Read :=
  if buf.length < 4 + 8 then .more
  else
    let verW := wordAt buf 0
    if verW ≠ mugA then .reject
    else
      let lenD := dwordAt buf 4
      if lenD < 4 then .reject
      else
        let ben := 4 * lenD.toNat % 2 ^ 64
        if buf.length < ben then .more
        else if ben < 12 + 2 * 4 then .reject
        else readBody env buf ben (Rmsg.mk verW lenD (wordAt buf 12))

end Vere.Raft
