import Vere.Jets.Mug
import Vere.Log.Integrity

/-!
# Vere.Log.Length

The length that the file log keeps of `egz.hope` in memory, `lug_u.len_d` (`v/egzh.c`).

It is a length in words: `u2_egz_write_header` and `u2_egz_open` set it to the words of the file.
At the end of a round the consolidator adds what it has appended (`_u2_egz_note_larger_size`), but
that is a number of bytes. So the length is right until something is appended, and wrong from
then on (`length_kept`).

A move is a step of the log (`Vere.Log.Egz`), the end of a round, or the creation or the opening of
the file. The counters are plain numbers: a file is shorter than `2^63` bytes.
-/

namespace Vere.Log

open Vere.Lib Vere.Jets Function

/-! ### The header -/

/-- `u2_eghd`. -/
structure Eghd where
  magL : UInt32
  knoW : UInt32
  salL : UInt32
  keyL : UInt32
  sevL : UInt32
  tnoL : UInt32

def Eghd.bytes (p : Eghd) : List UInt8 :=
  toLE 4 p.magL.toNat ++ (toLE 4 p.knoW.toNat ++ (toLE 4 p.salL.toNat ++ (toLE 4 p.keyL.toNat ++
    (toLE 4 p.sevL.toNat ++ toLE 4 p.tnoL.toNat))))

/-- `sizeof(u2_eghd)`. -/
def sizeofEghd : Nat := 24

/-- `c3_wiseof`, of a size. -/
def wiseof (size : Nat) : Nat := (size + 3) / 4

/-- The header at the start of a file. -/
def eghdAt (buf : List UInt8) : Eghd where
  magL := .ofNat (ofLE (bytesAt buf 0 4))
  knoW := .ofNat (ofLE (bytesAt buf 4 4))
  salL := .ofNat (ofLE (bytesAt buf 8 4))
  keyL := .ofNat (ofLE (bytesAt buf 12 4))
  sevL := .ofNat (ofLE (bytesAt buf 16 4))
  tnoL := .ofNat (ofLE (bytesAt buf 20 4))

/-- The parts of `u2_reck` that the header is about. -/
structure RecU where
  knoW : UInt32
  key : Noun
  sevL : UInt32

/-- The header of `u2_egz_write_header`. -/
def RecU.eghd (recU : RecU) (salL : UInt32) : Eghd where
  magL := .ofNat (u2Mug (.atom 104))
  knoW := recU.knoW
  salL := salL
  keyL := if recU.key = .atom 0 then 0 else .ofNat (u2Mug recU.key)
  sevL := recU.sevL
  tnoL := 1

/-! ### Moves -/

/-- The log with the length that is kept of its file. -/
structure Lug where
  egz : Egz
  /-- There is a file `egz.hope`. -/
  there : Bool
  /-- `lug_u.len_d`: length in words. -/
  lenD : Nat
  /-- `new_bytes_d` of the consolidator. -/
  newBytesD : Nat
  /-- How long the file was when `len_d` was set, if it was. -/
  base : Option Nat
  /-- The bytes that were noted since then. -/
  noted : Nat

inductive Lug.Move
  | act (a : Action)
  | pushInThread (k : Nat) (b : Baton)
  /-- The consolidator has found the queue empty. -/
  | sleep
  | writeHeader (recU : RecU) (salL : UInt32)
  | openHope (recU : RecU)

def Con.isIdle : Con → Bool
  | .idle => true
  | _ => false

/-- The consolidator takes a name, and opens `egz.hope`. -/
def takes (s : Egz) : Action → Bool
  | .consolidate => s.con.isIdle
  | _ => false

/-- What a step appends to `egz.hope`. -/
def appended (s : Egz) : Action → Nat
  | .consolidate =>
      match s.con with
      | .read _ fullentryY => fullentryY.length
      | _ => 0
  | _ => 0

/-- A check fails, or `u2_lo_bail`. -/
def Lug.exit (s : Lug) : Lug := { s with egz := { s.egz with exited := true } }

/-- A step of the log. -/
def Lug.act (s : Lug) (a : Action) : Option Lug :=
  (Log.step a s.egz).map fun egz =>
    if takes s.egz a && !s.there then s.exit
    else { s with egz := egz, newBytesD := s.newBytesD + appended s.egz a }

/-- `_egz_push_in_thread`, of any buffer, with the thread `k`. -/
def Lug.pushInThread (s : Lug) (k : Nat) (b : Baton) : Option Lug :=
  if s.egz.tasks k = none then
    some { s with egz := { s.egz with tasks := update s.egz.tasks k (some (.start b)) } }
  else none

/-- `_u2_egz_note_larger_size`, at the end of a round of the consolidator. -/
def Lug.noteLargerSize (s : Lug) : Option Lug :=
  if s.egz.con.isIdle && s.egz.que.tailU.isNone then
    some
      { s with lenD := s.lenD + s.newBytesD, newBytesD := 0, noted := s.noted + s.newBytesD }
  else none

/-- `u2_egz_write_header`. -/
def Lug.writeHeader (s : Lug) (recU : RecU) (salL : UInt32) : Lug :=
  if s.there then s.exit
  else
    { s with
      egz := { s.egz with hope := (recU.eghd salL).bytes }
      there := true
      lenD := wiseof sizeofEghd
      base := some sizeofEghd
      noted := 0 }

/-- `u2_egz_open`. -/
def Lug.openHope (s : Lug) (recU : RecU) : Lug :=
  let ledU := eghdAt s.egz.hope
  if !s.there || s.egz.hope.length < sizeofEghd then s.exit
  else if ledU.magL ≠ .ofNat (u2Mug (.atom 104)) ∨ ledU.sevL = recU.sevL then s.exit
  else
    { s with
      lenD := (s.egz.hope.length + 3) / 4
      base := some s.egz.hope.length
      noted := 0 }

def Lug.step (m : Lug.Move) (s : Lug) : Option Lug :=
  if s.egz.exited then none
  else
    match m with
    | .act a => s.act a
    | .pushInThread k b => s.pushInThread k b
    | .sleep => s.noteLargerSize
    | .writeHeader recU salL => some (s.writeHeader recU salL)
    | .openHope recU => some (s.openHope recU)

/-- A process starts, with or without a file. -/
def Lug.init (file : Option (List UInt8)) (entD : Nat) (quick : Name → Option (List UInt8)) :
    Lug where
  egz := Egz.init (file.getD []) entD quick
  there := file.isSome
  lenD := 0
  newBytesD := 0
  base := none
  noted := 0

/-! ### The length -/

/-- The length kept is the length of the file, in words. -/
def Lug.InWords (s : Lug) : Prop := s.lenD = (s.egz.hope.length + 3) / 4

instance (s : Lug) : Decidable s.InWords := inferInstanceAs (Decidable (_ = _))

/-- Nothing is appended. -/
def Lug.Still (s : Lug) : Lug.Move → Prop
  | .act a => appended s.egz a = 0
  | _ => True

/-- What the length kept is made of. -/
structure Lug.Counted (s : Lug) (b : Nat) : Prop where
  len : s.lenD = (b + 3) / 4 + s.noted
  low : b ≤ s.egz.hope.length
  high : s.egz.hope.length ≤ b + s.noted + s.newBytesD

/-- Only the consolidator makes the file longer. -/
theorem length_hope {a : Action} {s s' : Egz} (h : Log.step a s = some s') :
    s'.hope.length = s.hope.length + appended s a := by
  by_cases hex : s.exited = true
  · simp [Log.step, hex] at h
  simp only [Log.step, if_neg hex] at h
  cases a with
  | push k ron =>
      simp only [Egz.push] at h
      split at h <;> cases h
      rfl
  | task k p =>
      obtain ⟨t, -, ht⟩ := Option.bind_eq_some_iff.mp h
      cases t with
      | start b =>
          rw [Egz.run] at ht
          split at ht <;> cases ht <;> rfl
      | opened b =>
          cases ht
          rfl
      | written b =>
          rw [Egz.run] at ht
          split at ht <;> cases ht
          rfl
      | queued b =>
          rw [Egz.run] at ht
          split at ht
          · cases ht
            rfl
          · obtain ⟨-, ht⟩ := Option.ite_none_left_eq_some.mp ht
            cases ht
            rfl
      | linking b asyncU prev =>
          cases ht
          rfl
      | async b asyncU =>
          rw [Egz.run] at ht
          obtain ⟨-, ht⟩ := Option.ite_none_left_eq_some.mp ht
          split at ht <;> cases ht <;> rfl
  | reuse p =>
      obtain ⟨-, h⟩ := Option.ite_none_left_eq_some.mp h
      cases h
      rfl
  | consolidate =>
      rw [Egz.consolidate] at h
      cases hc : s.con with
      | idle =>
          rw [hc] at h
          simp only at h
          split at h
          · cases h
          · split at h <;> cases h <;> simp [appended, hc]
      | took name =>
          rw [hc] at h
          simp only at h
          split at h
          · cases h
            simp [appended, hc]
          · split at h <;> cases h <;> simp [appended, hc]
      | read name bytes =>
          rw [hc] at h
          cases h
          simp [appended, hc]
      | wrote name =>
          rw [hc] at h
          cases h
          simp [appended, hc]

section Lug

variable {s s' : Lug} {m : Lug.Move}

/-- The length is counted, once it is set. -/
def Lug.Kept (s : Lug) : Prop := ∀ b, s.base = some b → s.Counted b

theorem Lug.Kept.exit (h : s.Kept) : s.exit.Kept := fun b hb =>
  ⟨(h b hb).len, (h b hb).low, (h b hb).high⟩

theorem Lug.Kept.act {a : Action} (h : s.Kept) (hs : s.act a = some s') : s'.Kept := by
  obtain ⟨egz, hegz, rfl⟩ := Option.map_eq_some_iff.mp hs
  have hlen := length_hope hegz
  split
  · exact h.exit
  · intro b hb
    obtain ⟨hlenD, hlow, hhigh⟩ := h b hb
    refine ⟨hlenD, ?_, ?_⟩
    · show b ≤ egz.hope.length
      omega
    · show egz.hope.length ≤ b + s.noted + (s.newBytesD + appended s.egz a)
      omega

theorem Lug.Kept.noteLargerSize (h : s.Kept) (hs : s.noteLargerSize = some s') : s'.Kept := by
  rw [Lug.noteLargerSize] at hs
  split at hs <;> cases hs
  intro b hb
  obtain ⟨hlenD, hlow, hhigh⟩ := h b hb
  refine ⟨?_, hlow, ?_⟩
  · show s.lenD + s.newBytesD = (b + 3) / 4 + (s.noted + s.newBytesD)
    omega
  · show s.egz.hope.length ≤ b + (s.noted + s.newBytesD) + 0
    omega

theorem Lug.Kept.writeHeader (h : s.Kept) (recU : RecU) (salL : UInt32) :
    (s.writeHeader recU salL).Kept := by
  rw [Lug.writeHeader]
  split
  · exact h.exit
  · intro b hb
    cases hb
    have hlen : (recU.eghd salL).bytes.length = sizeofEghd := by simp [Eghd.bytes, sizeofEghd]
    refine ⟨rfl, hlen.ge, ?_⟩
    show (recU.eghd salL).bytes.length ≤ sizeofEghd + 0 + s.newBytesD
    omega

theorem Lug.Kept.openHope (h : s.Kept) (recU : RecU) : (s.openHope recU).Kept := by
  simp only [Lug.openHope]
  split
  · exact h.exit
  split
  · exact h.exit
  · intro b hb
    cases hb
    exact ⟨rfl, Nat.le_refl _, Nat.le_add_right_of_le (Nat.le_add_right _ _)⟩

theorem Lug.Kept.step (h : s.Kept) (hs : Lug.step m s = some s') : s'.Kept := by
  unfold Lug.step at hs
  split at hs
  · cases hs
  cases m with
  | act a => exact h.act hs
  | pushInThread k b =>
      replace hs : s.pushInThread k b = some s' := hs
      rw [Lug.pushInThread] at hs
      split at hs <;> cases hs
      exact fun b hb => ⟨(h b hb).len, (h b hb).low, (h b hb).high⟩
  | sleep => exact h.noteLargerSize hs
  | writeHeader recU salL =>
      cases hs
      exact h.writeHeader recU salL
  | openHope recU =>
      cases hs
      exact h.openHope recU

/-- With nothing appended there is nothing to note. -/
theorem Lug.Still.step (h : s.newBytesD = 0 ∧ s.noted = 0) (hm : s.Still m)
    (hs : Lug.step m s = some s') : s'.newBytesD = 0 ∧ s'.noted = 0 := by
  unfold Lug.step at hs
  split at hs
  · cases hs
  cases m with
  | act a =>
      obtain ⟨egz, -, rfl⟩ := Option.map_eq_some_iff.mp hs
      split
      · exact h
      · exact ⟨by rw [h.1, show appended s.egz a = 0 from hm], h.2⟩
  | pushInThread k b =>
      replace hs : s.pushInThread k b = some s' := hs
      rw [Lug.pushInThread] at hs
      split at hs <;> cases hs
      exact h
  | sleep =>
      replace hs : s.noteLargerSize = some s' := hs
      rw [Lug.noteLargerSize] at hs
      split at hs <;> cases hs
      exact ⟨rfl, by rw [h.1, h.2]⟩
  | writeHeader recU salL =>
      cases hs
      rw [Lug.writeHeader]
      split
      · exact h
      · exact ⟨h.1, rfl⟩
  | openHope recU =>
      cases hs
      simp only [Lug.openHope]
      split
      · exact h
      split
      · exact h
      · exact ⟨h.1, rfl⟩

theorem Lug.kept_init (file : Option (List UInt8)) (entD : Nat)
    (quick : Name → Option (List UInt8)) : (Lug.init file entD quick).Kept :=
  fun _ hb => nomatch hb

/-- Runs in which nothing is appended keep the length of the file. Where all that was appended
has been noted, the length kept is right if nothing has been noted since it was set, and else only
if that is a single byte behind whole words. -/
theorem length_kept (file : Option (List UInt8)) (entD : Nat)
    (quick : Name → Option (List UInt8)) :
    (∀ s, Reachable (Lug.init file entD quick) Lug.step Lug.Still s →
        s.base.isSome → s.InWords) ∧
      ∀ s, Reachable (Lug.init file entD quick) Lug.step (fun _ _ => True) s →
        s.newBytesD = 0 → ∀ b, s.base = some b →
          (s.InWords ↔ s.noted = 0 ∨ s.noted = 1 ∧ 4 ∣ b ∧ s.egz.hope.length = b + 1) := by
  refine ⟨fun s hs hbase => ?_, fun s hs hnew b hb => ?_⟩
  · have hkept : s.Kept ∧ s.newBytesD = 0 ∧ s.noted = 0 :=
      hs.invariant (P := fun t => t.Kept ∧ t.newBytesD = 0 ∧ t.noted = 0)
        ⟨Lug.kept_init file entD quick, rfl, rfl⟩
        fun _ _ _ ht hm hstep => ⟨ht.1.step hstep, Lug.Still.step ht.2 hm hstep⟩
    obtain ⟨hkept, hnew, hnoted⟩ := hkept
    obtain ⟨b, hb⟩ := Option.isSome_iff_exists.mp hbase
    obtain ⟨hlen, hlow, hhigh⟩ := hkept b hb
    rw [Lug.InWords]
    omega
  · have hkept : s.Kept :=
      hs.invariant (Lug.kept_init file entD quick) fun _ _ _ ht _ hstep => ht.step hstep
    obtain ⟨hlen, hlow, hhigh⟩ := hkept b hb
    rw [Lug.InWords]
    omega

theorem length_kept_header : ∃ s,
    Reachable (Lug.init none 1 fun _ => none) Lug.step Lug.Still s ∧ s.base = some 24 ∧
      s.InWords := by
  have hs : Reachable (Lug.init none 1 fun _ => none) Lug.step Lug.Still
      ((Lug.init none 1 fun _ => none).writeHeader ⟨0, .atom 0, 0⟩ 0) :=
    .step .init (a := .writeHeader ⟨0, .atom 0, 0⟩ 0) trivial rfl
  exact ⟨_, hs, rfl, (length_kept none 1 fun _ => none).1 _ hs rfl⟩

/-- A new file, and one event that is pushed and consolidated. -/
def roundOne : List Lug.Move :=
  [.writeHeader ⟨0, .atom 0, 0⟩ 0, .act (.push 7 ronNul), .act (.task 7 0), .act (.task 7 0),
    .act (.task 7 0), .act .consolidate, .act .consolidate, .act .consolidate, .act .consolidate,
    .sleep]

/-- The file has 60 bytes, which are 15 words. The length kept is 42: 6 words and 36 bytes. -/
theorem length_mixed : ∃ s,
    Reachable (Lug.init none 1 fun _ => none) Lug.step (fun _ _ => True) s ∧
      s.egz.exited = false ∧ s.base = some 24 ∧ s.newBytesD = 0 ∧
      s.egz.hope.length = 60 ∧ s.lenD = 42 ∧ ¬s.InWords := by
  have hrun : ((runs Lug.step roundOne (Lug.init none 1 fun _ => none)).any fun s =>
      !s.egz.exited && s.base = some 24 && s.newBytesD = 0 && s.egz.hope.length = 60 &&
        s.lenD = 42) = true := by
    decide
  obtain ⟨s, hs, htest⟩ := Reachable.of_runs (fun _ _ => trivial) roundOne hrun
  simp only [Bool.and_eq_true, Bool.not_eq_true', decide_eq_true_eq] at htest
  obtain ⟨⟨⟨⟨hex, hbase⟩, hnew⟩, hhope⟩, hlen⟩ := htest
  refine ⟨s, hs, hex, hbase, hnew, hhope, hlen, ?_⟩
  rw [Lug.InWords, hhope, hlen]
  decide

end Lug

end Vere.Log
