import Mathlib.Data.List.Perm.Basic
import Vere.Lib.Reach
import Vere.Lib.Slots
import Vere.Log.Egz

/-!
# Vere.Log.Kafk

The Kafka log of `v/kafk.c`: every event is produced twice, the second time when the
delivery of the first was reported.

One baton goes from `u2_kafk_push_ova` to the callback of librdkafka, from there to a
callback of the main loop that changes it in place and produces it again, and is freed by
the second callback of librdkafka. Callbacks of librdkafka run only while `u2_kafk_push`
polls, callbacks of the main loop only while it does not. The addresses of freed batons
are used again by later events.

The offsets are assigned, not compared: the callback warns of a report that comes out of
order, and then takes its offset as the largest (`two_phase`, `offset_falls`).
-/

namespace Vere.Log

open Vere.Lib Function

/-- Why the process has ended. -/
inductive Exit
  /-- A report that a message was not delivered. -/
  | delivery
  /-- The check of `_kafka_finalize_and_emit`. -/
  | panic
  deriving DecidableEq

structure Kafk where
  /-- `u2A->ent_d`. -/
  entD : Nat
  /-- The batons that are allocated, each with its buffer. -/
  heap : Nat → Option Baton
  /-- The batons of the messages that were produced and not reported yet. -/
  outq : List Nat
  /-- The batons that were sent to the main loop. -/
  asyncs : List Nat
  /-- `u2_kafk_push` waits for reports. -/
  polling : Bool
  largestOffsetSeenDs : Int
  largestOffsetSeenPrecomDs : Int
  exited : Option Exit
  /-- A baton was used that is not allocated. -/
  stale : Bool
  /-- The events that were pushed, by the number the push returned. -/
  pushed : Nat → Option Ron
  /-- The messages that were produced, with the numbers of their events. -/
  sent : List (Nat × List UInt8)
  /-- The offsets that were reported, with the types of their messages. -/
  acked : List (Int × MsgType)
  /-- The events whose buffers and batons were freed. -/
  freed : List Nat

/-- `u2_kafk_push`, up to the wait; `taken` is whether `rd_kafka_produce` takes the
message. -/
def Kafk.push (s : Kafk) (seqD : Nat) (msgY : List UInt8) (lenW p : Nat) (taken : Bool) : Kafk :=
  if taken then
    { s with
      outq := s.outq ++ [p], sent := s.sent ++ [(seqD, msgY.take lenW)], polling := true }
  else { s with polling := true }

/-- `u2_kafk_push_ova`, with the baton at `p`. -/
def Kafk.pushOva (s : Kafk) (p : Nat) (ron : Ron) (typ : MsgType) (taken : Bool) : Option Kafk :=
  if s.heap p = none then
    let b : Baton :=
      { bobY := setClpr (writePrefix (.ofNat s.entD) typ.y (.ofNat ron.lenW)) (o2b ron)
        lenW := c3w (ron.lenW + sizeofClpr), seqD := s.entD, typ := typ }
    let s' : Kafk :=
      { s with
        entD := s.entD + 1
        heap := update s.heap p (some b)
        pushed := update s.pushed s.entD (some ron) }
    some (s'.push b.seqD b.bobY ron.mallocW p taken)
  else none

/-- `_kafka_msg_delivered_cb`, of the message `i` in the queue. -/
def Kafk.msgDelivered (s : Kafk) (i : Nat) (offset : Int) (err : Bool) : Option Kafk :=
  s.outq[i]?.map fun p =>
    if err then { s with exited := some .delivery }
    else
      let s : Kafk := { s with outq := s.outq.eraseIdx i }
      match s.heap p with
      | none => { s with stale := true }
      | some b =>
          let s : Kafk :=
            { s with
              largestOffsetSeenDs := offset
              largestOffsetSeenPrecomDs :=
                if b.typ = .precommit then offset else s.largestOffsetSeenPrecomDs
              acked := s.acked ++ [(offset, b.typ)] }
          if b.typ = .postcommit then
            { s with heap := update s.heap p none, freed := s.freed ++ [b.seqD] }
          else { s with asyncs := s.asyncs ++ [p] }

/-- The types in the header and in the baton are changed. -/
def Baton.finalize (b : Baton) : Baton :=
  { b with
    bobY := setClpr (fun p => { p with msgTypeY := MsgType.postcommit.y }) b.bobY
    typ := .postcommit }

@[simp] theorem Baton.finalize_seqD (b : Baton) : b.finalize.seqD = b.seqD := rfl

@[simp] theorem Baton.finalize_lenW (b : Baton) : b.finalize.lenW = b.lenW := rfl

@[simp] theorem Baton.finalize_typ (b : Baton) : b.finalize.typ = .postcommit := rfl

/-- `_kafka_finalize_and_emit`, of the handle `j` that was sent to the loop. -/
def Kafk.finalizeAndEmit (s : Kafk) (j : Nat) (taken : Bool) : Option Kafk :=
  s.asyncs[j]?.map fun p =>
    let s : Kafk := { s with asyncs := s.asyncs.eraseIdx j }
    match s.heap p with
    | none => { s with stale := true }
    | some b =>
        if b.typ ≠ .precommit then { s with exited := some .panic }
        else
          let b := b.finalize
          let s : Kafk := { s with heap := update s.heap p (some b) }
          s.push b.seqD b.bobY b.lenW p taken

inductive Call
  /-- `u2_raft_work` pushes an event. -/
  | pushOva (p : Nat) (ron : Ron) (taken : Bool)
  | msgDelivered (i : Nat) (offset : Int) (err : Bool)
  | finalizeAndEmit (j : Nat) (taken : Bool)
  /-- `rd_kafka_outq_len` is zero, and `u2_kafk_push` returns. -/
  | back

def Kafk.call (a : Call) (s : Kafk) : Option Kafk :=
  if s.exited ≠ none then none
  else
    match a with
    | .pushOva p ron taken => if s.polling then none else s.pushOva p ron .precommit taken
    | .msgDelivered i offset err => if s.polling then s.msgDelivered i offset err else none
    | .finalizeAndEmit j taken => if s.polling then none else s.finalizeAndEmit j taken
    | .back => if s.polling ∧ s.outq = [] then some { s with polling := false } else none

def Call.isPush : Call → Bool
  | .pushOva .. => true
  | _ => false

/-- `u2_kafk_init`. -/
def Kafk.init (entD : Nat) : Kafk where
  entD := entD
  heap := fun _ => none
  outq := []
  asyncs := []
  polling := false
  largestOffsetSeenDs := 0
  largestOffsetSeenPrecomDs := 0
  exited := none
  stale := false
  pushed := fun _ => none
  sent := []
  acked := []
  freed := []

/-! ### Messages -/

/-- The messages of an event, in the order they were produced in. -/
def sentOf (sent : List (Nat × List UInt8)) (n : Nat) : List (List UInt8) :=
  (sent.filter (·.1 = n)).map (·.2)

@[simp] theorem sentOf_nil (n : Nat) : sentOf [] n = [] := rfl

theorem sentOf_snoc_self (sent : List (Nat × List UInt8)) (n : Nat) (msg : List UInt8) :
    sentOf (sent ++ [(n, msg)]) n = sentOf sent n ++ [msg] := by
  simp [sentOf]

theorem sentOf_snoc_of_ne (sent : List (Nat × List UInt8)) {m n : Nat} (h : m ≠ n)
    (msg : List UInt8) : sentOf (sent ++ [(m, msg)]) n = sentOf sent n := by
  simp [sentOf, h]

/-- The messages of an event up to one of a type. -/
def messages (ron : Ron) (n : Nat) : MsgType → List (List UInt8)
  | .precommit => [kafkPushOva ron (.ofNat n) .precommit]
  | .postcommit =>
      [kafkPushOva ron (.ofNat n) .precommit, kafkPushOva ron (.ofNat n) .postcommit]

section Ron

variable (ron : Ron) (seqD : UInt64) (typ : MsgType)

theorem take_kafkPushOva :
    (kafkPushOva ron seqD typ).take ron.mallocW = kafkPushOva ron seqD typ := by
  rw [kafkPushOva_eq, take_mallocW]

/-- The buffer is as long as the message. -/
theorem setClpr_o2b :
    setClpr (writePrefix seqD typ.y (.ofNat ron.lenW)) (o2b ron) = kafkPushOva ron seqD typ := by
  rw [kafkPushOva_eq, o2b, ← zero_bytes, setClpr_bytes]
  rfl

/-- The type in the header is changed. -/
theorem setClpr_kafkPushOva :
    setClpr (fun p => { p with msgTypeY := MsgType.postcommit.y }) (kafkPushOva ron seqD typ)
      = kafkPushOva ron seqD .postcommit := by
  rw [kafkPushOva_eq, kafkPushOva_eq, setClpr_bytes]
  rfl

end Ron

/-! ### Batons -/

section Ledger

variable {entD : Nat} {heap : Nat → Option Baton} {pushed pushed' : Nat → Option Ron}
  {sent sent' : List (Nat × List UInt8)} {freed freed' : List Nat} {p : Nat} {b : Baton} {ron : Ron}

/-- The buffer of a baton is the message of its type, and this is the last that was
produced for its event. -/
structure Baton.Ok (pushed : Nat → Option Ron) (sent : List (Nat × List UInt8)) (freed : List Nat)
    (b : Baton) : Prop where
  buffer : ∃ ron, pushed b.seqD = some ron ∧ b.lenW = ron.mallocW ∧
    b.bobY = kafkPushOva ron (.ofNat b.seqD) b.typ ∧
    sentOf sent b.seqD = messages ron b.seqD b.typ
  kept : b.seqD ∉ freed

/-- Both messages of an event were produced, and its baton was freed once. -/
def Finished (pushed : Nat → Option Ron) (sent : List (Nat × List UInt8)) (freed : List Nat)
    (n : Nat) : Prop :=
  ∃ ron, pushed n = some ron ∧ sentOf sent n = messages ron n .postcommit ∧ freed.count n = 1

/-- Every event that was pushed has a baton or is finished. -/
structure Ledger (entD : Nat) (heap : Nat → Option Baton) (pushed : Nat → Option Ron)
    (sent : List (Nat × List UInt8)) (freed : List Nat) : Prop where
  fresh : ∀ n, entD ≤ n → pushed n = none
  new : ∀ n, pushed n = none → sentOf sent n = [] ∧ n ∉ freed
  batons : ∀ p b, heap p = some b → b.Ok pushed sent freed
  apart : Apart Baton.seqD heap
  rest : ∀ n, (pushed n).isSome → (∃ p b, heap p = some b ∧ b.seqD = n) ∨
    Finished pushed sent freed n

theorem Baton.Ok.keep (h : b.Ok pushed sent freed) (hpushed : pushed' b.seqD = pushed b.seqD)
    (hsent : sentOf sent' b.seqD = sentOf sent b.seqD)
    (hfreed : b.seqD ∈ freed' → b.seqD ∈ freed) : b.Ok pushed' sent' freed' where
  buffer := by
    rw [hpushed, hsent]
    exact h.buffer
  kept hmem := h.kept (hfreed hmem)

theorem Finished.keep {n : Nat} (h : Finished pushed sent freed n) (hpushed : pushed' n = pushed n)
    (hsent : sentOf sent' n = sentOf sent n) (hfreed : freed'.count n = freed.count n) :
    Finished pushed' sent' freed' n := by
  unfold Finished
  rw [hpushed, hsent, hfreed]
  exact h

theorem Ledger.init (entD : Nat) : Ledger entD (fun _ => none) (fun _ => none) [] [] where
  fresh _ _ := rfl
  new _ _ := ⟨rfl, List.not_mem_nil⟩
  batons _ _ hb := nomatch hb
  apart _ _ _ _ hb := nomatch hb
  rest _ hn := nomatch hn

/-- The number of a baton is one of an event. -/
theorem Ledger.ne_of_none (h : Ledger entD heap pushed sent freed) (hb : heap p = some b) {n : Nat}
    (hn : pushed n = none) : b.seqD ≠ n := by
  rintro rfl
  obtain ⟨ron, hron, -⟩ := (h.batons p b hb).buffer
  exact nomatch hron.symm.trans hn

/-- A baton is allocated for a new event, and its first message is produced. -/
theorem Ledger.push (h : Ledger entD heap pushed sent freed) (hp : heap p = none)
    (hseq : b.seqD = entD) (hlen : b.lenW = ron.mallocW)
    (hbob : b.bobY = kafkPushOva ron (.ofNat entD) .precommit) (htyp : b.typ = .precommit) :
    Ledger (entD + 1) (update heap p (some b)) (update pushed entD (some ron))
      (sent ++ [(entD, kafkPushOva ron (.ofNat entD) .precommit)]) freed := by
  have hnew := h.fresh entD (Nat.le_refl entD)
  obtain ⟨hsent, hfreed⟩ := h.new entD hnew
  refine { fresh := ?_, new := ?_, batons := slots_fill ?_ ?_, apart := h.apart.fill ?_, rest := ?_ }
  · intro n hn
    rw [update_of_ne (by omega), h.fresh n (by omega)]
  · intro n hn
    have hne : n ≠ entD := by
      rintro rfl
      rw [update_self] at hn
      cases hn
    rw [sentOf_snoc_of_ne _ hne.symm]
    exact h.new n ((update_of_ne hne _ _).symm.trans hn)
  · refine ⟨⟨ron, ?_, hlen, ?_, ?_⟩, ?_⟩
    · rw [hseq, update_self]
    · rw [hseq, htyp, hbob]
    · rw [hseq, htyp, sentOf_snoc_self, hsent]
      rfl
    · rwa [hseq]
  · intro p' b' _ hb'
    have hne := h.ne_of_none hb' hnew
    exact (h.batons p' b' hb').keep (update_of_ne hne _ _) (sentOf_snoc_of_ne _ hne.symm _) id
  · intro p' b' _ hb'
    rw [hseq]
    exact h.ne_of_none hb' hnew
  · intro n hn
    by_cases hne : n = entD
    · exact .inl ⟨p, b, update_self .., hseq.trans hne.symm⟩
    · rw [update_of_ne hne] at hn
      obtain ⟨p', b', hb', hn'⟩ | hfin := h.rest n hn
      · exact .inl ⟨p', b', slot_of_none hp _ hb', hn'⟩
      · exact .inr (hfin.keep (update_of_ne hne _ _) (sentOf_snoc_of_ne _ (Ne.symm hne) _) rfl)

/-- No other baton is one of the same event. -/
theorem Ledger.other (h : Ledger entD heap pushed sent freed) (hb : heap p = some b) {p' : Nat}
    {b' : Baton} (hp : p' ≠ p) (hb' : heap p' = some b') : b'.seqD ≠ b.seqD :=
  fun heq => hp (h.apart p' p b' b hb' hb heq)

/-- The second message is produced. -/
theorem Ledger.emit (h : Ledger entD heap pushed sent freed) (hb : heap p = some b)
    (htyp : b.typ = .precommit) :
    Ledger entD (update heap p (some b.finalize)) pushed
      (sent ++ [(b.seqD, b.finalize.bobY.take b.lenW)]) freed := by
  obtain ⟨⟨ron, hron, hlen, hbob, hsent⟩, hkept⟩ := h.batons p b hb
  have hbob' : b.finalize.bobY = kafkPushOva ron (.ofNat b.seqD) .postcommit := by
    rw [Baton.finalize, hbob, setClpr_kafkPushOva]
  rw [hlen, hbob', take_kafkPushOva]
  rw [htyp] at hsent
  refine
    { fresh := h.fresh, new := ?_, batons := slots_fill ?_ ?_, apart := h.apart.replace hb rfl
      rest := ?_ }
  · intro n hn
    rw [sentOf_snoc_of_ne _ (h.ne_of_none hb hn)]
    exact h.new n hn
  · refine ⟨⟨ron, hron, hlen, hbob', ?_⟩, hkept⟩
    exact (sentOf_snoc_self ..).trans (congrArg (· ++ _) hsent)
  · intro p₁ b₁ hp₁ hb₁
    exact (h.batons p₁ b₁ hb₁).keep rfl (sentOf_snoc_of_ne _ (h.other hb hp₁ hb₁).symm _) id
  · intro n hn
    by_cases hne : n = b.seqD
    · exact .inl ⟨p, b.finalize, update_self .., hne.symm⟩
    · obtain ⟨p₁, b₁, hb₁, hn₁⟩ | hfin := h.rest n hn
      · have hp₁ : p₁ ≠ p := slot_ne hb hb₁ fun heq => hne (heq ▸ hn₁.symm)
        exact .inl ⟨p₁, b₁, (update_of_ne hp₁ _ _).trans hb₁, hn₁⟩
      · exact .inr (hfin.keep rfl (sentOf_snoc_of_ne _ (Ne.symm hne) _) rfl)

/-- A baton whose event has both messages is freed. -/
theorem Ledger.free (h : Ledger entD heap pushed sent freed) (hb : heap p = some b)
    (htyp : b.typ = .postcommit) :
    Ledger entD (update heap p none) pushed sent (freed ++ [b.seqD]) := by
  obtain ⟨⟨ron, hron, -, -, hsent⟩, hkept⟩ := h.batons p b hb
  rw [htyp] at hsent
  refine
    { fresh := h.fresh, new := ?_, batons := slots_empty ?_, apart := h.apart.empty, rest := ?_ }
  · intro n hn
    obtain ⟨hnone, hfreed⟩ := h.new n hn
    refine ⟨hnone, ?_⟩
    simpa [hfreed] using (h.ne_of_none hb hn).symm
  · intro p₁ b₁ hp₁ hb₁
    refine (h.batons p₁ b₁ hb₁).keep rfl rfl ?_
    simp [h.other hb hp₁ hb₁]
  · intro n hn
    by_cases hne : n = b.seqD
    · subst hne
      refine .inr ⟨ron, hron, hsent, ?_⟩
      rw [List.count_append, List.count_eq_zero.mpr hkept, List.count_singleton_self]
    · obtain ⟨p₁, b₁, hb₁, hn₁⟩ | hfin := h.rest n hn
      · have hp₁ : p₁ ≠ p := slot_ne hb hb₁ fun heq => hne (heq ▸ hn₁.symm)
        exact .inl ⟨p₁, b₁, (update_of_ne hp₁ _ _).trans hb₁, hn₁⟩
      · refine .inr (hfin.keep rfl rfl ?_)
        rw [List.count_append, List.count_singleton, if_neg (by simpa using Ne.symm hne), Nat.add_zero]

end Ledger

/-! ### Pointers -/

section Held

variable {heap : Nat → Option Baton} {outq asyncs : List Nat} {polling : Bool} {i p : Nat} {b : Baton}

/-- The pointers to batons are in the queue of the producer and in the main loop, one for
each baton. -/
structure Held (heap : Nat → Option Baton) (outq asyncs : List Nat) (polling : Bool) : Prop where
  nodup : (outq ++ asyncs).Nodup
  live : ∀ p, (heap p).isSome ↔ p ∈ outq ++ asyncs
  first : ∀ p ∈ asyncs, ∀ b, heap p = some b → b.typ = .precommit
  waits : outq ≠ [] → polling = true

theorem perm_eraseIdx {ps : List Nat} (h : ps[i]? = some p) : ps.Perm (p :: ps.eraseIdx i) := by
  obtain ⟨hi, rfl⟩ := List.getElem?_eq_some_iff.mp h
  exact (List.getElem_cons_eraseIdx_perm hi).symm

theorem isSome_update (hb : heap p = some b) (b' : Baton) (q : Nat) :
    (update heap p (some b') q).isSome = (heap q).isSome := by
  by_cases hq : q = p
  · subst hq
    rw [update_self, hb]
    rfl
  · rw [update_of_ne hq]

theorem Held.baton (h : Held heap outq asyncs polling) (hp : p ∈ outq ++ asyncs) :
    ∃ b, heap p = some b :=
  Option.isSome_iff_exists.mp ((h.live p).mpr hp)

/-- A baton is allocated, and its first message is in the queue. -/
theorem Held.push (h : Held heap outq asyncs polling) (hp : heap p = none) (b : Baton) :
    Held (update heap p (some b)) (outq ++ [p]) asyncs true := by
  have hnew : p ∉ outq ++ asyncs := by
    intro hmem
    rw [← h.live, hp] at hmem
    cases hmem
  have hperm : (outq ++ [p] ++ asyncs).Perm (p :: (outq ++ asyncs)) := by
    rw [List.append_assoc]
    exact List.perm_middle
  refine
    { nodup := hperm.nodup_iff.mpr (List.nodup_cons.mpr ⟨hnew, h.nodup⟩), live := ?_, first := ?_
      waits := fun _ => rfl }
  · intro q
    rw [hperm.mem_iff, List.mem_cons, ← h.live]
    by_cases hq : q = p
    · simp [hq]
    · simp [hq]
  · intro q hq
    have hne : q ≠ p := by
      rintro rfl
      exact hnew (List.mem_append_right _ hq)
    rw [update_of_ne hne]
    exact h.first q hq

/-- The first message is reported. -/
theorem Held.report (h : Held heap outq asyncs true) (hi : outq[i]? = some p)
    (hb : heap p = some b) (htyp : b.typ = .precommit) :
    Held heap (outq.eraseIdx i) (asyncs ++ [p]) true := by
  have hperm : (outq ++ asyncs).Perm (outq.eraseIdx i ++ (asyncs ++ [p])) := by
    refine ((perm_eraseIdx hi).append_right asyncs).trans ?_
    rw [← List.append_assoc]
    exact (List.perm_append_singleton _ _).symm
  refine
    { nodup := hperm.nodup_iff.mp h.nodup, live := ?_, first := ?_, waits := fun _ => rfl }
  · intro q
    rw [h.live, hperm.mem_iff]
  · intro q hq b' hb'
    obtain hq | hq := List.mem_append.mp hq
    · exact h.first q hq b' hb'
    · cases List.mem_singleton.mp hq
      cases hb.symm.trans hb'
      exact htyp

/-- The second message is in the queue. -/
theorem Held.emit (h : Held heap outq asyncs polling) (hi : asyncs[i]? = some p)
    (hb : heap p = some b) (b' : Baton) :
    Held (update heap p (some b')) (outq ++ [p]) (asyncs.eraseIdx i) true := by
  have hperm : (outq ++ asyncs).Perm (outq ++ [p] ++ asyncs.eraseIdx i) := by
    rw [List.append_assoc]
    exact (perm_eraseIdx hi).append_left outq
  have hnodup := hperm.nodup_iff.mp h.nodup
  refine { nodup := hnodup, live := ?_, first := ?_, waits := fun _ => rfl }
  · intro q
    rw [isSome_update hb, h.live, hperm.mem_iff]
  · intro q hq
    have hne : q ≠ p := by
      rintro rfl
      have hmem : q ∈ outq ++ [q] := List.mem_append_right _ (List.mem_singleton_self q)
      exact (List.nodup_append.mp hnodup).2.2 q hmem q hq rfl
    rw [update_of_ne hne]
    exact h.first q (List.mem_of_mem_eraseIdx hq)

/-- The second message is reported, and its baton is freed. -/
theorem Held.free (h : Held heap outq asyncs true) (hi : outq[i]? = some p) :
    Held (update heap p none) (outq.eraseIdx i) asyncs true := by
  have hperm : (outq ++ asyncs).Perm (p :: (outq.eraseIdx i ++ asyncs)) :=
    (perm_eraseIdx hi).append_right asyncs
  obtain ⟨hout, hnodup⟩ := List.nodup_cons.mp (hperm.nodup_iff.mp h.nodup)
  refine { nodup := hnodup, live := ?_, first := ?_, waits := fun _ => rfl }
  · intro q
    by_cases hq : q = p
    · subst hq
      simpa using hout
    · rw [update_of_ne hq, h.live, hperm.mem_iff, List.mem_cons, or_iff_right hq]
  · intro q hq b hb
    exact h.first q hq b (slot_of_empty hb)

end Held

/-! ### Offsets -/

/-- The largest offset that was reported, or the offset `u2_kafk_init` starts with. -/
def maxOffset (acked : List (Int × MsgType)) : Int := (acked.map (·.1)).max?.getD 0

/-- The same of the first messages. -/
def maxPrecom (acked : List (Int × MsgType)) : Int := maxOffset (acked.filter (·.2 = .precommit))

theorem maxOffset_snoc {acked : List (Int × MsgType)} {offset : Int} (typ : MsgType)
    (h : maxOffset acked ≤ offset) : maxOffset (acked ++ [(offset, typ)]) = offset := by
  have hmax : (acked.map (·.1) ++ [offset]).max? = some offset := by
    rw [List.max?_eq_some_iff]
    refine ⟨by simp, ?_⟩
    intro x hx
    obtain hx | hx := List.mem_append.mp hx
    · cases hold : (acked.map (·.1)).max? with
      | none => simp [List.max?_eq_none_iff.mp hold] at hx
      | some y =>
          have hy : y ≤ offset := by simpa [maxOffset, hold] using h
          exact Int.le_trans ((List.max?_eq_some_iff.mp hold).2 x hx) hy
    · exact Int.le_of_eq (List.mem_singleton.mp hx)
  rw [maxOffset, List.map_append]
  exact congrArg (·.getD 0) hmax

structure Offsets (seen seenPrecom : Int) (acked : List (Int × MsgType)) : Prop where
  largest : seen = maxOffset acked
  precom : seenPrecom = maxPrecom acked
  le : seenPrecom ≤ seen

/-- A message is reported whose offset is not smaller than the last. -/
theorem Offsets.report {seen seenPrecom offset : Int} {acked : List (Int × MsgType)}
    (h : Offsets seen seenPrecom acked) (hle : seen ≤ offset) (typ : MsgType) :
    Offsets offset (if typ = .precommit then offset else seenPrecom) (acked ++ [(offset, typ)]) := by
  have hmax := maxOffset_snoc typ (h.largest ▸ hle)
  have hprecom : seenPrecom ≤ offset := Int.le_trans h.le hle
  cases typ with
  | precommit =>
      refine ⟨hmax.symm, ?_, Int.le_refl offset⟩
      have hpre : maxPrecom acked ≤ offset := h.precom ▸ hprecom
      simpa [maxPrecom] using (maxOffset_snoc .precommit hpre).symm
  | postcommit => exact ⟨hmax.symm, by simpa [maxPrecom] using h.precom, hprecom⟩

/-! ### Steps -/

/-- Every message is taken, and an offset that is reported is not smaller than the one
reported before. -/
def InOrder (s : Kafk) : Call → Prop
  | .pushOva _ _ taken | .finalizeAndEmit _ taken => taken = true
  | .msgDelivered _ offset err => err = true ∨ s.largestOffsetSeenDs ≤ offset
  | .back => True

instance (s : Kafk) : (a : Call) → Decidable (InOrder s a)
  | .pushOva _ _ taken | .finalizeAndEmit _ taken => inferInstanceAs (Decidable (taken = true))
  | .msgDelivered _ offset err =>
      inferInstanceAs (Decidable (err = true ∨ s.largestOffsetSeenDs ≤ offset))
  | .back => inferInstanceAs (Decidable True)

namespace Kafk

variable {s s' : Kafk} {a : Call}

structure Ok (s : Kafk) : Prop where
  used : s.stale = false
  calm : s.exited ≠ some .panic
  ledger : Ledger s.entD s.heap s.pushed s.sent s.freed
  held : Held s.heap s.outq s.asyncs s.polling
  offsets : Offsets s.largestOffsetSeenDs s.largestOffsetSeenPrecomDs s.acked

/-- The baton of `u2_kafk_push_ova`. -/
def newBaton (s : Kafk) (ron : Ron) : Baton where
  bobY := kafkPushOva ron (.ofNat s.entD) .precommit
  lenW := ron.mallocW
  seqD := s.entD
  typ := .precommit

/-- What a call does. -/
inductive Goes (s : Kafk) : Call → Kafk → Prop
  | push {p : Nat} {ron : Ron} (hidle : s.polling = false) (hp : s.heap p = none) :
      Goes s (.pushOva p ron true)
        { s with
          entD := s.entD + 1
          heap := update s.heap p (some (s.newBaton ron))
          pushed := update s.pushed s.entD (some ron)
          outq := s.outq ++ [p]
          sent := s.sent ++ [(s.entD, kafkPushOva ron (.ofNat s.entD) .precommit)]
          polling := true }
  | fail {i : Nat} {offset : Int} :
      Goes s (.msgDelivered i offset true) { s with exited := some .delivery }
  | first {i p : Nat} {offset : Int} {b : Baton} (hpoll : s.polling = true)
      (hi : s.outq[i]? = some p) (hb : s.heap p = some b) (htyp : b.typ = .precommit)
      (hle : s.largestOffsetSeenDs ≤ offset) :
      Goes s (.msgDelivered i offset false)
        { s with
          outq := s.outq.eraseIdx i
          largestOffsetSeenDs := offset
          largestOffsetSeenPrecomDs := offset
          acked := s.acked ++ [(offset, .precommit)]
          asyncs := s.asyncs ++ [p] }
  | second {i p : Nat} {offset : Int} {b : Baton} (hpoll : s.polling = true)
      (hi : s.outq[i]? = some p) (hb : s.heap p = some b) (htyp : b.typ = .postcommit)
      (hle : s.largestOffsetSeenDs ≤ offset) :
      Goes s (.msgDelivered i offset false)
        { s with
          outq := s.outq.eraseIdx i
          largestOffsetSeenDs := offset
          acked := s.acked ++ [(offset, .postcommit)]
          heap := update s.heap p none
          freed := s.freed ++ [b.seqD] }
  | emit {j p : Nat} {b : Baton} (hidle : s.polling = false) (hj : s.asyncs[j]? = some p)
      (hb : s.heap p = some b) (htyp : b.typ = .precommit) :
      Goes s (.finalizeAndEmit j true)
        { s with
          asyncs := s.asyncs.eraseIdx j
          heap := update s.heap p (some b.finalize)
          outq := s.outq ++ [p]
          sent := s.sent ++ [(b.seqD, b.finalize.bobY.take b.lenW)]
          polling := true }
  | back (hpoll : s.polling = true) (hout : s.outq = []) :
      Goes s .back { s with polling := false }

/-- In a state that is in order no call finds a baton missing or of the wrong type. -/
theorem Ok.goes (h : s.Ok) (ha : InOrder s a) (hs : s.call a = some s') :
    s.exited = none ∧ s.Goes a s' := by
  unfold Kafk.call at hs
  obtain ⟨halive, hs⟩ := Option.ite_none_left_eq_some.mp hs
  refine ⟨not_not.mp halive, ?_⟩
  cases a with
  | pushOva p ron taken =>
      cases (show taken = true from ha)
      obtain ⟨hidle, hs⟩ := Option.ite_none_left_eq_some.mp hs
      obtain ⟨hp, hs⟩ := Option.ite_none_right_eq_some.mp hs
      simp only [Kafk.push, setClpr_o2b, take_kafkPushOva, if_true, Option.some.injEq] at hs
      subst hs
      exact .push (Bool.not_eq_true _ ▸ hidle) hp
  | msgDelivered i offset err =>
      obtain ⟨hpoll, hs⟩ := Option.ite_none_right_eq_some.mp hs
      obtain ⟨p, hi, rfl⟩ := Option.map_eq_some_iff.mp hs
      cases err with
      | true => exact .fail
      | false =>
          have hle : s.largestOffsetSeenDs ≤ offset := ha.resolve_left Bool.false_ne_true
          obtain ⟨b, hb⟩ := h.held.baton (List.mem_append_left _ (List.mem_of_getElem? hi))
          cases htyp : b.typ with
          | precommit => simpa [hb, htyp] using Goes.first hpoll hi hb htyp hle
          | postcommit => simpa [hb, htyp] using Goes.second hpoll hi hb htyp hle
  | finalizeAndEmit j taken =>
      cases (show taken = true from ha)
      obtain ⟨hidle, hs⟩ := Option.ite_none_left_eq_some.mp hs
      obtain ⟨p, hj, rfl⟩ := Option.map_eq_some_iff.mp hs
      have hmem := List.mem_of_getElem? hj
      obtain ⟨b, hb⟩ := h.held.baton (List.mem_append_right _ hmem)
      have htyp := h.held.first p hmem b hb
      simpa [hb, htyp, Kafk.push] using Goes.emit (Bool.not_eq_true _ ▸ hidle) hj hb htyp
  | back =>
      obtain ⟨⟨hpoll, hout⟩, hs⟩ := Option.ite_none_right_eq_some.mp hs
      cases hs
      exact .back hpoll hout

theorem Ok.init (entD : Nat) : (Kafk.init entD).Ok where
  used := rfl
  calm := nofun
  ledger := Ledger.init entD
  held := ⟨List.nodup_nil, by simp [Kafk.init], nofun, nofun⟩
  offsets := ⟨rfl, rfl, Int.le_refl 0⟩

theorem Ok.step (h : s.Ok) (ha : InOrder s a) (hs : s.call a = some s') : s'.Ok := by
  obtain ⟨-, hgoes⟩ := h.goes ha hs
  cases hgoes with
  | push hidle hp =>
      exact
        { h with
          ledger := h.ledger.push hp rfl rfl rfl rfl
          held := h.held.push hp _ }
  | fail => exact { h with calm := nofun }
  | first hpoll hi hb htyp hle =>
      have hheld := hpoll ▸ h.held
      exact
        { h with
          held := hpoll ▸ hheld.report hi hb htyp
          offsets := h.offsets.report hle .precommit }
  | second hpoll hi hb htyp hle =>
      have hheld := hpoll ▸ h.held
      exact
        { h with
          ledger := h.ledger.free hb htyp
          held := hpoll ▸ hheld.free hi
          offsets := h.offsets.report hle .postcommit }
  | emit hidle hj hb htyp =>
      exact
        { h with
          ledger := h.ledger.emit hb htyp
          held := h.held.emit hj hb _ }
  | back hpoll hout => exact { h with held := { h.held with waits := fun hne => absurd hout hne } }

/-! ### Progress -/

/-- How many calls a message in the queue still leads to. -/
def weight : Option Baton → Nat
  | some b => if b.typ = .precommit then 4 else 1
  | none => 0

/-- How many calls there are left at most, if no event is pushed. -/
def left (s : Kafk) : Nat :=
  (s.outq.map fun p => weight (s.heap p)).sum + 3 * s.asyncs.length + s.polling.toNat
    + if s.exited = none then 1 else 0

theorem weight_sum_update {heap : Nat → Option Baton} {ps : List Nat} {p : Nat} (hp : p ∉ ps)
    (v : Option Baton) :
    (ps.map fun q => weight (update heap p v q)) = ps.map fun q => weight (heap q) := by
  apply List.map_congr_left
  intro q hq
  have hne : q ≠ p := by
    rintro rfl
    exact hp hq
  rw [update_of_ne hne]

theorem weight_sum_eraseIdx (heap : Nat → Option Baton) {ps : List Nat} {i p : Nat}
    (hi : ps[i]? = some p) :
    (ps.map fun q => weight (heap q)).sum
      = weight (heap p) + ((ps.eraseIdx i).map fun q => weight (heap q)).sum := by
  have hperm := (perm_eraseIdx hi).map fun q => weight (heap q)
  rw [hperm.sum_nat, List.map_cons, List.sum_cons]

/-- Every call but a push leaves fewer of them. -/
theorem Ok.left_lt (h : s.Ok) (ha : InOrder s a) (hpush : a.isPush = false)
    (hs : s.call a = some s') : s'.left < s.left := by
  obtain ⟨halive, hgoes⟩ := h.goes ha hs
  cases hgoes with
  | push hidle hp => cases hpush
  | fail => simp [left, halive]
  | @first i p offset b hpoll hi hb htyp hle =>
      have hweight : weight (s.heap p) = 4 := by simp [weight, hb, htyp]
      simp only [left, weight_sum_eraseIdx s.heap hi, hweight, List.length_append,
        List.length_singleton]
      omega
  | @second i p offset b hpoll hi hb htyp hle =>
      have hweight : weight (s.heap p) = 1 := by simp [weight, hb, htyp]
      have hnodup := h.held.nodup.of_append_left
      have hout := (List.nodup_cons.mp ((perm_eraseIdx hi).nodup_iff.mp hnodup)).1
      simp only [left, weight_sum_eraseIdx s.heap hi, hweight, weight_sum_update hout]
      omega
  | @emit j p b hidle hj hb htyp =>
      have hmem := List.mem_of_getElem? hj
      have hout : p ∉ s.outq := fun hp => (List.nodup_append.mp h.held.nodup).2.2 p hp p hmem rfl
      have hlen : (s.asyncs.eraseIdx j).length + 1 = s.asyncs.length :=
        (perm_eraseIdx hj).length_eq.symm
      simp only [left, List.map_append, List.sum_append, weight_sum_update hout, hidle]
      simp only [List.map_cons, List.map_nil, List.sum_singleton, update_self, weight,
        Baton.finalize_typ, reduceCtorEq, if_false, Bool.toNat_true, Bool.toNat_false]
      omega
  | back hpoll hout =>
      simp only [left, hpoll, Bool.toNat_true, Bool.toNat_false]
      omega

/-- Only where nothing is in flight is there no call left to make. -/
theorem Ok.stopped (h : s.Ok) (halive : s.exited = none)
    (hstop : ∀ a, InOrder s a ∧ a.isPush = false → s.call a = none) :
    s.outq = [] ∧ s.asyncs = [] := by
  have hcall : ∀ a, InOrder s a → a.isPush = false → s.call a = none :=
    fun a ha hpush => hstop a ⟨ha, hpush⟩
  have hout : s.outq = [] := by
    cases hq : s.outq with
    | nil => rfl
    | cons p ps =>
        have hpoll : s.polling = true := h.held.waits (by simp [hq])
        have hnone := hcall (.msgDelivered 0 s.largestOffsetSeenDs false) (.inr (Int.le_refl _)) rfl
        simp [Kafk.call, halive, hpoll, msgDelivered, hq] at hnone
  have hidle : s.polling = false := by
    cases hpoll : s.polling with
    | false => rfl
    | true =>
        have hnone := hcall .back trivial rfl
        simp [Kafk.call, halive, hpoll, hout] at hnone
  refine ⟨hout, ?_⟩
  cases hq : s.asyncs with
  | nil => rfl
  | cons p ps =>
      have hnone := hcall (.finalizeAndEmit 0 true) rfl rfl
      simp [Kafk.call, halive, hidle, finalizeAndEmit, hq] at hnone

/-- What the log has done for the events pushed so far: each has its first message, or
both in their order, and its baton is freed once at most, behind both. -/
structure TwoPhase (s : Kafk) : Prop where
  used : s.stale = false
  calm : s.exited ≠ some .panic
  pointers : (s.outq ++ s.asyncs).Nodup ∧ ∀ p, (s.heap p).isSome ↔ p ∈ s.outq ++ s.asyncs
  unpushed : ∀ n, s.pushed n = none → sentOf s.sent n = [] ∧ n ∉ s.freed
  events : ∀ n ron, s.pushed n = some ron →
    ((∃ typ, sentOf s.sent n = messages ron n typ) ∧ n ∉ s.freed) ∨
      (sentOf s.sent n = messages ron n .postcommit ∧ s.freed.count n = 1)
  largest : s.largestOffsetSeenDs = maxOffset s.acked
  largestPrecom : s.largestOffsetSeenPrecomDs = maxPrecom s.acked

theorem Ok.twoPhase (h : s.Ok) : s.TwoPhase where
  used := h.used
  calm := h.calm
  pointers := ⟨h.held.nodup, h.held.live⟩
  unpushed := h.ledger.new
  events n ron hron := by
    obtain ⟨p, b, hb, rfl⟩ | ⟨ron', hron', hfin⟩ := h.ledger.rest n (by simp [hron])
    · obtain ⟨⟨ron', hron', -, -, hsent⟩, hkept⟩ := h.ledger.batons p b hb
      cases hron.symm.trans hron'
      exact .inl ⟨⟨b.typ, hsent⟩, hkept⟩
    · cases hron.symm.trans hron'
      exact .inr hfin
  largest := h.offsets.largest
  largestPrecom := h.offsets.precom

/-- Every event that was pushed was produced twice, and its baton freed; or the process
has ended because a message was not delivered. -/
def Complete (s : Kafk) : Prop :=
  s.exited = some .delivery ∨ ∀ n, (s.pushed n).isSome → Finished s.pushed s.sent s.freed n

theorem Ok.complete (h : s.Ok)
    (hstop : ∀ a, InOrder s a ∧ a.isPush = false → s.call a = none) : s.Complete := by
  cases hexit : s.exited with
  | some e =>
      cases e with
      | delivery => exact .inl hexit
      | panic => exact absurd hexit h.calm
  | none =>
      obtain ⟨hout, hasync⟩ := h.stopped hexit hstop
      refine .inr ?_
      intro n hn
      obtain ⟨p, b, hb, -⟩ | hfin := h.ledger.rest n hn
      · have hmem := (h.held.live p).mp (by simp [hb])
        simp [hout, hasync] at hmem
      · exact hfin

end Kafk

/-- If every message is taken and the offsets are reported in their order, every event is
produced in two phases and its baton freed, in every order of the callbacks; the recorded
offsets are the largest; and when no more events are pushed the callbacks come to an end
that leaves no event behind. -/
theorem two_phase (entD : Nat) {s : Kafk}
    (h : Reachable (Kafk.init entD) Kafk.call InOrder s) :
    s.TwoPhase ∧
      Ends Kafk.call (fun s a => InOrder s a ∧ a.isPush = false) Kafk.Complete s := by
  have hok : s.Ok :=
    h.invariant (Kafk.Ok.init entD) fun _ _ _ hs ha hstep => hs.step ha hstep
  refine ⟨hok.twoPhase, Ends.of_measure (P := Kafk.Ok) Kafk.left ?_ ?_ hok⟩
  · intro s a s' hs ha hstep
    exact ⟨hs.step ha.1 hstep, hs.left_lt ha.1 ha.2 hstep⟩
  · intro s hs hstop
    exact hs.complete hstop

/-- Two events are pushed, and the loop takes them up in the other order. -/
theorem two_phase_two : ∃ s,
    Reachable (Kafk.init 5) Kafk.call InOrder s ∧ s.freed = [6, 5] ∧
      s.largestOffsetSeenDs = 9 ∧ s.largestOffsetSeenPrecomDs = 4 ∧ s.TwoPhase := by
  obtain ⟨s, hs, htest⟩ := @Reachable.of_guarded _ _ (Kafk.init 5) Kafk.call InOrder
    (fun s a => decide (InOrder s a)) (fun _ _ => of_decide_eq_true)
    [.pushOva 0 ronNul true, .msgDelivered 0 3 false, .back,
      .pushOva 1 ronNul true, .msgDelivered 0 4 false, .back,
      .finalizeAndEmit 1 true, .msgDelivered 0 8 false, .back,
      .finalizeAndEmit 0 true, .msgDelivered 0 9 false, .back]
    (fun s => s.freed = [6, 5] && s.largestOffsetSeenDs = 9 && s.largestOffsetSeenPrecomDs = 4)
    (by decide)
  simp only [Bool.and_eq_true, decide_eq_true_eq] at htest
  exact ⟨s, hs, htest.1.1, htest.1.2, htest.2, (two_phase 5 hs).1⟩

/-- The messages of an event go to different partitions, and the second has the smaller
offset. -/
theorem offset_falls : ∃ s,
    Reachable (Kafk.init 5) Kafk.call (fun _ _ => True) s ∧
      s.acked = [(5, .precommit), (3, .postcommit)] ∧ maxOffset s.acked = 5 ∧
      s.largestOffsetSeenDs = 3 := by
  obtain ⟨s, hs, htest⟩ := @Reachable.of_runs _ _ (Kafk.init 5) Kafk.call (fun _ _ => True)
    (fun _ _ => trivial)
    [.pushOva 0 ronNul true, .msgDelivered 0 5 false, .back,
      .finalizeAndEmit 0 true, .msgDelivered 0 3 false]
    (fun s => s.acked = [(5, .precommit), (3, .postcommit)] && s.largestOffsetSeenDs = 3)
    (by decide)
  simp only [Bool.and_eq_true, decide_eq_true_eq] at htest
  refine ⟨s, hs, htest.1, ?_, htest.2⟩
  rw [htest.1]
  rfl

end Vere.Log
