import Vere.Jets.Bits
import Vere.Lib.Bytes

/-!
# Vere.Log.Record

The records of the event log (`v/clog.c`), as the file log (`v/egzh.c`) and Kafka
(`v/kafk.c`) write them and read them back.

A record is a prefix, `u2_clpr`, and behind it the jammed event. The prefix is the
32 bytes a 64-bit machine lays it out in. Both writers put it into a buffer that
`u2_clog_o2b` has filled with zeroes up to the event: Kafka through
`u2_clog_write_prefix`, the file log by hand, and it leaves out the version. So a
record of Kafka passes `u2_clog_check_prefix` and one of the file log never does
(`record_accepted_iff`). Both are read back as they were written.
-/

namespace Vere.Log

open Vere.Lib Vere.Jets

/-! ### The prefix -/

/-- `u2_clpr`. -/
structure Clpr where
  synW : UInt32
  entD : UInt64
  lenW : UInt32
  mugW : UInt32
  msgTypeY : UInt8
  verC : UInt32
  deriving Repr, DecidableEq

/-- `sizeof(u2_clpr)`. -/
def sizeofClpr : Nat := 32

def Clpr.bytes (p : Clpr) : List UInt8 :=
  toLE 4 p.synW.toNat ++ (toLE 4 0 ++ (toLE 8 p.entD.toNat ++ (toLE 4 p.lenW.toNat ++
    (toLE 4 p.mugW.toNat ++ (toLE 1 p.msgTypeY.toNat ++ (toLE 3 0 ++ toLE 4 p.verC.toNat))))))

/-- The prefix at the start of a buffer. -/
def clprAt (buf : List UInt8) : Clpr where
  synW := .ofNat (ofLE (bytesAt buf 0 4))
  entD := .ofNat (ofLE (bytesAt buf 8 8))
  lenW := .ofNat (ofLE (bytesAt buf 16 4))
  mugW := .ofNat (ofLE (bytesAt buf 20 4))
  msgTypeY := .ofNat (ofLE (bytesAt buf 24 1))
  verC := .ofNat (ofLE (bytesAt buf 28 4))

/-- Fields of the prefix at the start of a buffer are assigned to. -/
def setClpr (f : Clpr → Clpr) (buf : List UInt8) : List UInt8 :=
  (f (clprAt buf)).bytes ++ buf.drop sizeofClpr

/-- `LOG_MSG_PRECOMMIT` and `LOG_MSG_POSTCOMMIT`. -/
inductive MsgType
  | precommit
  | postcommit
  deriving Repr, DecidableEq

def MsgType.y : MsgType → UInt8
  | precommit => 0
  | postcommit => 1

/-- `memset` to zero. -/
def Clpr.zero : Clpr := ⟨0, 0, 0, 0, 0, 0⟩

/-- `u2_clog_write_prefix`. -/
def writePrefix (entD : UInt64) (msgTypeY : UInt8) (lenW : UInt32) (_ : Clpr) : Clpr :=
  { Clpr.zero with entD := entD, lenW := lenW, msgTypeY := msgTypeY, verC := 104 }

/-- `u2_clog_check_prefix`. -/
def checkPrefix (p : Clpr) : Bool :=
  p.verC = 104 && (p.msgTypeY = MsgType.precommit.y || p.msgTypeY = MsgType.postcommit.y)

/-! ### Writing -/

/-- A jammed event. Like every atom it fits the loom. -/
structure Ron where
  val : Nat
  fits : wordLen val < 2 ^ 28

/-- `len_w` of `u2_clog_o2b`. -/
def Ron.lenW (ron : Ron) : Nat := c3w (u2Met 5 ron.val * 4)

/-- `malloc_w` of `u2_clog_o2b`. -/
def Ron.mallocW (ron : Ron) : Nat := c3w (c3w (u2Met 5 ron.val * 4) + sizeofClpr)

/-- What `u2_cr_bytes` copies of the event. -/
def Ron.payload (ron : Ron) : List UInt8 := toLE ron.lenW ron.val

/-- `data_y` of `u2_clog_o2b`: zeroes, and the event behind the space for a prefix. -/
def o2b (ron : Ron) : List UInt8 := toLE sizeofClpr 0 ++ ron.payload

/-- The record of `u2_egz_push_ova`. -/
def egzPushOva (ron : Ron) (seqD : UInt64) (typ : MsgType) : List UInt8 :=
  (setClpr (fun p => { p with entD := seqD, lenW := .ofNat ron.lenW, msgTypeY := typ.y })
    (o2b ron)).take ron.mallocW

/-- The record of `u2_kafk_push_ova`. -/
def kafkPushOva (ron : Ron) (seqD : UInt64) (typ : MsgType) : List UInt8 :=
  (setClpr (writePrefix seqD typ.y (.ofNat ron.lenW)) (o2b ron)).take ron.mallocW

/-! ### Reading -/

/-- What `pull_one` returns. -/
structure Pulled where
  entD : UInt64
  msgTypeY : UInt8
  lenW : UInt32
  dataY : List UInt8
  deriving Repr, DecidableEq

/-- `u2_egz_pull_one`, and what is left of the file. -/
def egzPullOne (file : List UInt8) : Option (Pulled × List UInt8) :=
  if file.length < sizeofClpr then none
  else
    let p := clprAt file
    let file := file.drop sizeofClpr
    if file.length < p.lenW.toNat then none
    else some (⟨p.entD, p.msgTypeY, p.lenW, file.take p.lenW.toNat⟩, file.drop p.lenW.toNat)

/-- `u2_kafk_pull_one` of one message; nothing also if it copies past the end of the
message. -/
def kafkPullOne (msg : List UInt8) : Option Pulled :=
  if msg.length < sizeofClpr then none
  else
    let p := clprAt msg
    if checkPrefix p = false then none
    else if msg.length < sizeofClpr + p.lenW.toNat then none
    else some ⟨p.entD, p.msgTypeY, p.lenW, bytesAt msg sizeofClpr p.lenW.toNat⟩

/-! ### Layout -/

theorem length_bytes (p : Clpr) : p.bytes.length = sizeofClpr := by
  simp [Clpr.bytes, sizeofClpr]

theorem ofNat32_ofLE (w : UInt32) : UInt32.ofNat (ofLE (toLE 4 w.toNat)) = w := by
  rw [ofLE_toLE, Nat.mod_eq_of_lt (show w.toNat < 256 ^ 4 from w.toNat_lt), UInt32.ofNat_toNat]

theorem ofNat64_ofLE (d : UInt64) : UInt64.ofNat (ofLE (toLE 8 d.toNat)) = d := by
  rw [ofLE_toLE, Nat.mod_eq_of_lt (show d.toNat < 256 ^ 8 from d.toNat_lt), UInt64.ofNat_toNat]

theorem ofNat8_ofLE (y : UInt8) : UInt8.ofNat (ofLE (toLE 1 y.toNat)) = y := by
  rw [ofLE_toLE, Nat.mod_eq_of_lt (show y.toNat < 256 ^ 1 from y.toNat_lt), UInt8.ofNat_toNat]

/-- A prefix is read as it was written. -/
@[simp] theorem clprAt_bytes (p : Clpr) (rest : List UInt8) : clprAt (p.bytes ++ rest) = p := by
  have h0 : (p.bytes ++ rest).drop 0 = toLE 4 p.synW.toNat ++ (toLE 4 0 ++ (toLE 8 p.entD.toNat ++
      (toLE 4 p.lenW.toNat ++ (toLE 4 p.mugW.toNat ++ (toLE 1 p.msgTypeY.toNat ++
        (toLE 3 0 ++ (toLE 4 p.verC.toNat ++ rest))))))) := by
    simp only [Clpr.bytes, List.append_assoc, List.drop_zero]
  have h4 := drop_of_drop h0 (length_toLE ..)
  have h8 := drop_of_drop h4 (length_toLE ..)
  have h16 := drop_of_drop h8 (length_toLE ..)
  have h20 := drop_of_drop h16 (length_toLE ..)
  have h24 := drop_of_drop h20 (length_toLE ..)
  have h25 := drop_of_drop h24 (length_toLE ..)
  have h28 := drop_of_drop h25 (length_toLE ..)
  rw [clprAt, bytesAt_of_drop h0 (length_toLE ..), bytesAt_of_drop h8 (length_toLE ..),
    bytesAt_of_drop h16 (length_toLE ..), bytesAt_of_drop h20 (length_toLE ..),
    bytesAt_of_drop h24 (length_toLE ..), bytesAt_of_drop h28 (length_toLE ..)]
  simp only [ofNat32_ofLE, ofNat64_ofLE, ofNat8_ofLE]

theorem zero_bytes : Clpr.zero.bytes = toLE sizeofClpr 0 := by decide

theorem drop_bytes (p : Clpr) (rest : List UInt8) : (p.bytes ++ rest).drop sizeofClpr = rest := by
  rw [← length_bytes p]
  exact List.drop_left

/-- Assigning to fields of a prefix. -/
theorem setClpr_bytes (f : Clpr → Clpr) (p : Clpr) (rest : List UInt8) :
    setClpr f (p.bytes ++ rest) = (f p).bytes ++ rest := by
  rw [setClpr, clprAt_bytes, drop_bytes]

/-! ### Sizes -/

section Ron

variable (ron : Ron)

theorem u2Met_five (a : Nat) (h : wordLen a < 2 ^ 28) : u2Met 5 a = wordLen a := by
  by_cases ha : a = 0
  · subst ha
    rfl
  · have hpos : 0 < wordLen a := by
      have := Nat.size_pos.mpr (Nat.pos_of_ne_zero ha)
      unfold wordLen
      omega
    simp only [u2Met, ha, if_false, Nat.sub_self, Nat.pow_zero, Nat.add_zero, Nat.div_one]
    rw [Nat.sub_add_cancel hpos, c3w_of_lt (by omega)]

theorem Ron.lenW_lt : ron.lenW < 2 ^ 30 := by
  have hfits := ron.fits
  rw [Ron.lenW, u2Met_five ron.val hfits, c3w_of_lt (by omega)]
  omega

theorem Ron.mallocW_eq : ron.mallocW = sizeofClpr + ron.lenW := by
  have hlen := ron.lenW_lt
  show c3w (ron.lenW + sizeofClpr) = sizeofClpr + ron.lenW
  rw [c3w_of_lt (by unfold sizeofClpr; omega), Nat.add_comm]

theorem Ron.length_payload : ron.payload.length = ron.lenW := length_toLE ..

theorem Ron.toNat_lenW : (UInt32.ofNat ron.lenW).toNat = ron.lenW := by
  have hlen := ron.lenW_lt
  exact UInt32.toNat_ofNat_of_lt' (show ron.lenW < 2 ^ 32 by omega)

/-- The whole buffer is written. -/
theorem take_mallocW (p : Clpr) :
    (p.bytes ++ ron.payload).take ron.mallocW = p.bytes ++ ron.payload := by
  apply List.take_of_length_le
  rw [List.length_append, length_bytes, ron.length_payload, ron.mallocW_eq]

end Ron

/-! ### Records -/

inductive Back
  | egz
  | kafk
  deriving Repr, DecidableEq

/-- The prefix a back end writes. -/
def Back.clpr (back : Back) (ron : Ron) (seqD : UInt64) (typ : MsgType) : Clpr :=
  { synW := 0, entD := seqD, lenW := .ofNat ron.lenW, mugW := 0, msgTypeY := typ.y
    verC := if back = .kafk then 104 else 0 }

/-- `push_ova` of a back end. -/
def Back.pushOva : Back → Ron → UInt64 → MsgType → List UInt8
  | egz => egzPushOva
  | kafk => kafkPushOva

/-- `pull_one` of a back end, of a record and what comes behind it. Kafka keeps the
records apart. -/
def Back.pullOne : Back → List UInt8 → List UInt8 → Option Pulled
  | egz, record, rest => (egzPullOne (record ++ rest)).map (·.1)
  | kafk, record, _ => kafkPullOne record

section Back

variable (back : Back) (ron : Ron) (seqD : UInt64) (typ : MsgType)

theorem egzPushOva_eq : egzPushOva ron seqD typ = (Back.egz.clpr ron seqD typ).bytes ++ ron.payload := by
  rw [egzPushOva, o2b, ← zero_bytes, setClpr_bytes, take_mallocW]
  rfl

theorem kafkPushOva_eq :
    kafkPushOva ron seqD typ = (Back.kafk.clpr ron seqD typ).bytes ++ ron.payload := by
  rw [kafkPushOva, o2b, ← zero_bytes, setClpr_bytes, take_mallocW]
  rfl

theorem pushOva_eq : back.pushOva ron seqD typ = (back.clpr ron seqD typ).bytes ++ ron.payload := by
  cases back with
  | egz => exact egzPushOva_eq ron seqD typ
  | kafk => exact kafkPushOva_eq ron seqD typ

theorem typ_checked : (typ.y = MsgType.precommit.y || typ.y = MsgType.postcommit.y) = true := by
  cases typ <;> rfl

theorem checkPrefix_clpr : checkPrefix (back.clpr ron seqD typ) = true ↔ back = .kafk := by
  rw [checkPrefix, show (back.clpr ron seqD typ).msgTypeY = typ.y from rfl, typ_checked typ,
    Bool.and_true, decide_eq_true_iff]
  cases back with
  | egz => exact ⟨fun h => absurd h (by decide : ¬(0 : UInt32) = 104), fun h => nomatch h⟩
  | kafk => exact ⟨fun _ => rfl, fun _ => rfl⟩

/-- The file log reads the record at the start of the file, and stops behind it. -/
theorem egzPullOne_append (rest : List UInt8) :
    egzPullOne (egzPushOva ron seqD typ ++ rest)
      = some (⟨seqD, typ.y, .ofNat ron.lenW, ron.payload⟩, rest) := by
  have hlen : ron.payload.length = (Back.egz.clpr ron seqD typ).lenW.toNat :=
    ron.length_payload.trans ron.toNat_lenW.symm
  have hshort : ¬((Back.egz.clpr ron seqD typ).bytes ++ (ron.payload ++ rest)).length < sizeofClpr := by
    rw [List.length_append, length_bytes]
    omega
  have hshort' : ¬(ron.payload ++ rest).length < (Back.egz.clpr ron seqD typ).lenW.toNat := by
    rw [List.length_append, hlen]
    omega
  rw [egzPushOva_eq, List.append_assoc, egzPullOne, if_neg hshort]
  simp only [clprAt_bytes, drop_bytes]
  rw [if_neg hshort', ← hlen, List.take_left, List.drop_left]
  rfl

theorem kafkPullOne_eq :
    kafkPullOne (kafkPushOva ron seqD typ)
      = some ⟨seqD, typ.y, .ofNat ron.lenW, ron.payload⟩ := by
  have hlen : ron.payload.length = (Back.kafk.clpr ron seqD typ).lenW.toNat :=
    ron.length_payload.trans ron.toNat_lenW.symm
  have hsize : ((Back.kafk.clpr ron seqD typ).bytes ++ ron.payload).length
      = sizeofClpr + (Back.kafk.clpr ron seqD typ).lenW.toNat := by
    rw [List.length_append, length_bytes, hlen]
  have hcheck := (checkPrefix_clpr .kafk ron seqD typ).mpr rfl
  have hshort : ¬((Back.kafk.clpr ron seqD typ).bytes ++ ron.payload).length < sizeofClpr := by
    rw [hsize]
    omega
  have hclpr := clprAt_bytes (Back.kafk.clpr ron seqD typ) ron.payload
  rw [kafkPushOva_eq, kafkPullOne, if_neg hshort]
  simp only [hclpr, hcheck, hsize, lt_irrefl, if_false, Bool.true_eq_false]
  rw [bytesAt, drop_bytes, ← hlen, List.take_length]
  rfl

/-- Both back ends read back what they have written. -/
theorem pullOne_pushOva (rest : List UInt8) :
    back.pullOne (back.pushOva ron seqD typ) rest
      = some ⟨seqD, typ.y, .ofNat ron.lenW, ron.payload⟩ := by
  cases back with
  | egz =>
      show (egzPullOne (egzPushOva ron seqD typ ++ rest)).map (·.1) = _
      rw [egzPullOne_append]
      rfl
  | kafk => exact kafkPullOne_eq ron seqD typ

/-- The record of an event passes the check and is read back, with the event, its
number and the type it was written with, exactly if it was written to Kafka. -/
theorem record_accepted_iff (rest : List UInt8) :
    (checkPrefix (clprAt (back.pushOva ron seqD typ)) = true ∧
      back.pullOne (back.pushOva ron seqD typ) rest
        = some ⟨seqD, typ.y, .ofNat ron.payload.length, ron.payload⟩) ↔ back = .kafk := by
  rw [ron.length_payload, pullOne_pushOva, and_iff_left rfl, pushOva_eq, clprAt_bytes]
  exact checkPrefix_clpr back ron seqD typ

end Back

/-- The jammed event `0`. -/
def ronNul : Ron := ⟨2, by decide⟩

/-- The record of the first event in the file log: the version is missing. -/
theorem egz_record_rejected :
    checkPrefix (clprAt (egzPushOva ronNul 1 .precommit)) = false ∧
      (clprAt (egzPushOva ronNul 1 .precommit)).verC = 0 := by decide

end Vere.Log
