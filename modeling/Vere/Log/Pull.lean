import Vere.Log.Record

/-!
# Vere.Log.Pull

How far `u2_kafk_pull_one` (`v/kafk.c`) reads into a message.

Kafka gives a pointer and a length; what lies behind that length in memory is not part of the
message. The function checks the length against the prefix, but not against the length field in
the prefix, and copies as many bytes as the field says (`pull_inside`). `u2_egz_pull_one` refuses a
record that is shorter than its field.
-/

namespace Vere.Log

open Vere.Lib

/-- `rd_kafka_message_t`: the memory from `payload` on, of which `len` bytes are the message. -/
structure Message where
  len : Nat
  payload : Nat → UInt8

/-- Bytes of memory, from an offset of the payload on. -/
def Message.read (m : Message) (off n : Nat) : List UInt8 :=
  (List.range n).map fun i => m.payload (off + i)

/-- The message itself. -/
def Message.bytes (m : Message) : List UInt8 := m.read 0 m.len

/-- What a call returns, and how far it has read. -/
structure Pull where
  ret : Option Pulled
  reach : Nat
  deriving DecidableEq

/-- `u2_kafk_pull_one`, of a message that came without an error. -/
def Message.pullOne (m : Message) : Pull :=
  if m.len < sizeofClpr then ⟨none, 0⟩
  else
    let clogU := clprAt (m.read 0 sizeofClpr)
    if checkPrefix clogU = false then ⟨none, sizeofClpr⟩
    else
      { ret := some
          { entD := clogU.entD
            msgTypeY := clogU.msgTypeY
            lenW := clogU.lenW
            dataY := m.read sizeofClpr clogU.lenW.toNat }
        reach := sizeofClpr + clogU.lenW.toNat }

variable {m : Message}

theorem length_read (m : Message) (off n : Nat) : (m.read off n).length = n := by
  simp [Message.read]

theorem length_bytes_message (m : Message) : m.bytes.length = m.len := length_read m 0 m.len

/-- A piece of the message. -/
theorem bytesAt_bytes {off n : Nat} (h : off + n ≤ m.len) : bytesAt m.bytes off n = m.read off n := by
  refine List.ext_getElem ?_ fun i h₁ h₂ => ?_
  · rw [length_bytesAt (by rwa [length_bytes_message]), length_read]
  · simp [bytesAt, Message.bytes, Message.read]

/-- The prefix lies in the first bytes of a buffer. -/
theorem clprAt_take (buf : List UInt8) : clprAt (buf.take sizeofClpr) = clprAt buf := by
  have hpiece : ∀ off n, off + n ≤ sizeofClpr →
      bytesAt (buf.take sizeofClpr) off n = bytesAt buf off n := by
    intro off n h
    rw [bytesAt, bytesAt, List.drop_take, List.take_take, min_eq_left (by omega)]
  simp only [clprAt]
  rw [hpiece 0 4 (by decide), hpiece 8 8 (by decide), hpiece 16 4 (by decide),
    hpiece 20 4 (by decide), hpiece 24 1 (by decide), hpiece 28 4 (by decide)]

/-- The prefix that is read is the one of the message. -/
theorem clprAt_read (h : sizeofClpr ≤ m.len) : clprAt (m.read 0 sizeofClpr) = clprAt m.bytes := by
  rw [← clprAt_take m.bytes, ← bytesAt_bytes (by omega)]
  rfl

/-- The record of a message reaches past its end. -/
def Message.Short (m : Message) : Prop :=
  sizeofClpr ≤ m.len ∧ checkPrefix (clprAt m.bytes) = true ∧
    m.len < sizeofClpr + (clprAt m.bytes).lenW.toNat

/-- What the function does to a message whose record fits: it is `kafkPullOne`. -/
theorem pullOne_fits (h : ¬ m.Short) :
    m.pullOne.ret = kafkPullOne m.bytes ∧ m.pullOne.reach ≤ m.len := by
  unfold Message.pullOne kafkPullOne
  rw [length_bytes_message]
  by_cases hsmall : m.len < sizeofClpr
  · simp [hsmall]
  · have hclpr := clprAt_read (m := m) (by omega)
    cases hcheck : checkPrefix (clprAt m.bytes) with
    | false =>
        simp only [hsmall, hclpr, hcheck, if_true, if_false, true_and]
        omega
    | true =>
        have hfits : sizeofClpr + (clprAt m.bytes).lenW.toNat ≤ m.len := by
          by_contra hlt
          exact h ⟨by omega, hcheck, by omega⟩
        simp only [hsmall, hclpr, hcheck, if_false, Bool.true_eq_false, not_lt.2 hfits,
          bytesAt_bytes hfits, true_and]
        exact hfits

theorem pullOne_short (h : m.Short) : m.len < m.pullOne.reach := by
  obtain ⟨hlen, hcheck, hlt⟩ := h
  have hsmall : ¬ m.len < sizeofClpr := by omega
  simp only [Message.pullOne, hsmall, clprAt_read hlen, hcheck, if_false, Bool.true_eq_false]
  exact hlt

theorem kafkPullOne_some {msg : List UInt8} {r : Pulled} (h : kafkPullOne msg = some r) :
    sizeofClpr + r.lenW.toNat ≤ msg.length ∧
      r = ⟨(clprAt msg).entD, (clprAt msg).msgTypeY, (clprAt msg).lenW,
        bytesAt msg sizeofClpr (clprAt msg).lenW.toNat⟩ := by
  obtain ⟨-, h⟩ := Option.ite_none_left_eq_some.1 h
  obtain ⟨-, h⟩ := Option.ite_none_left_eq_some.1 h
  obtain ⟨hfits, h⟩ := Option.ite_none_left_eq_some.1 h
  cases h
  exact ⟨not_lt.1 hfits, rfl⟩

/-- A call stays inside the message, and returns only bytes of it, unless the length in the prefix
says more than the message has. -/
theorem pull_inside (m : Message) :
    (m.pullOne.reach ≤ m.len ∧ ∀ r, m.pullOne.ret = some r →
      r.dataY = bytesAt m.bytes sizeofClpr r.lenW.toNat ∧ r.dataY.length = r.lenW.toNat) ↔
    ¬ (sizeofClpr ≤ m.len ∧ checkPrefix (clprAt m.bytes) = true ∧
      m.len < sizeofClpr + (clprAt m.bytes).lenW.toNat) := by
  constructor
  · rintro ⟨hreach, -⟩ hshort
    exact absurd (pullOne_short hshort) (by omega)
  · intro h
    obtain ⟨hret, hreach⟩ := pullOne_fits h
    refine ⟨hreach, fun r hr => ?_⟩
    rw [hret] at hr
    obtain ⟨hfits, hr'⟩ := kafkPullOne_some hr
    subst hr'
    exact ⟨rfl, length_bytesAt hfits⟩

/-- A message that is a prefix and no more, and says that one byte follows. -/
def lone : Message where
  len := 32
  payload := fun i => (Clpr.bytes ⟨0, 1, 1, 0, 0, 104⟩).getD i 0xff

/-- The byte behind the message is returned. -/
theorem pull_outside :
    lone.pullOne = ⟨some ⟨1, 0, 1, [0xff]⟩, 33⟩ ∧ lone.len < lone.pullOne.reach := by
  decide

end Vere.Log
