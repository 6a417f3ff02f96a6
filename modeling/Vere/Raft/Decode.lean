import Vere.Raft.RoundTrip

/-!
# Vere.Raft.Decode

What `_raft_rmsg_read` does with any bytes a peer may send.

The decoder compares every length it is given with the bytes it has, but the
comparisons are on products that can wrap. A declared length of `2 ^ 62 + 6` words
passes as 24 bytes, a name of `2 ^ 30 + 1` words as 4, and a name of no words is
left without a terminator. And one way to refuse a message frees an array that was
never allocated, or walks over one that is shorter than its count.

`rmsgRead_eq` says for every buffer how the call ends, in terms of the fields at
their offsets: `Breaks` is when it faults, `Accepted` when it takes a message.
`read_safe_iff` is then the exact condition for the decoder to be safe.
-/

namespace Vere.Raft

open Vere.Lib

variable {env : Env} {buf : List UInt8}

/-! ### The fields of a buffer -/

/-- The declared length in bytes, in 64 bits. -/
def benAt (buf : List UInt8) : Nat := 4 * (dwordAt buf 4).toNat % 2 ^ 64

def typAt (buf : List UInt8) : Nat := (wordAt buf 16).toNat

def namAt (buf : List UInt8) : UInt32 := wordAt buf 32

/-- Where the name of a request ends, by its length in 32 bits. -/
def namEnd (buf : List UInt8) : Nat := 36 + times4 (namAt buf)

/-- `ent_d` of an `apen`. -/
def entsAt (buf : List UInt8) : UInt64 := dwordAt buf (namEnd buf + 8)

/-- The header is there, with the whole message, and passes its checks. -/
structure Headed (buf : List UInt8) : Prop where
  head : 12 ≤ buf.length
  version : wordAt buf 0 = mugA
  short : ¬dwordAt buf 4 < 4
  whole : benAt buf ≤ buf.length
  type : 20 ≤ benAt buf

/-- Where the `n`th entry after offset `off` starts. -/
def entEnd (buf : List UInt8) : Nat → Nat → Nat
  | off, 0 => off
  | off, n + 1 => entEnd buf (entAt buf off).2 n

/-- The `n` entries from offset `off` on. -/
def entsFrom (buf : List UInt8) : Nat → Nat → List Rent
  | _, 0 => []
  | off, n + 1 => (entAt buf off).1 :: entsFrom buf (entAt buf off).2 n

theorem entAt_le (buf : List UInt8) (off : Nat) : off + 12 ≤ (entAt buf off).2 := by
  rw [entAt]
  omega

theorem entEnd_le (buf : List UInt8) (n : Nat) : ∀ off, off + 12 * n ≤ entEnd buf off n := by
  induction n with
  | zero =>
      intro off
      exact Nat.le_refl _
  | succ n ih =>
      intro off
      have h1 := entAt_le buf off
      have h2 := ih (entAt buf off).2
      rw [entEnd]
      omega

@[simp] theorem length_entsFrom (buf : List UInt8) (n : Nat) :
    ∀ off, (entsFrom buf off n).length = n := by
  induction n with
  | zero => exact fun _ => rfl
  | succ n ih => exact fun off => congrArg Nat.succ (ih _)

/-! ### The loop over the entries -/

/-- With room for all entries the loop takes them if they end in the message. -/
theorem readEnts_room {ben siz : Nat} (n : Nat) : ∀ i redI, redI ≤ ben →
    (i + n) * sizeofRent ≤ siz →
    readEnts buf ben (some siz) i redI n
      = if entEnd buf redI n ≤ ben then .done (entsFrom buf redI n) (entEnd buf redI n)
        else .fail := by
  induction n with
  | zero =>
      intro i redI hred _
      rw [readEnts, entEnd, if_pos hred, entsFrom]
  | succ n ih =>
      intro i redI hred hsiz
      have hnext := entAt_le buf redI
      have hend := entEnd_le buf n (entAt buf redI).2
      have hwrite : ¬siz < (i + 1) * sizeofRent :=
        Nat.not_lt.mpr (le_trans (Nat.mul_le_mul_right _ (by omega)) hsiz)
      rw [readEnts, entEnd, entsFrom]
      by_cases hg : ben < redI + 12
      · rw [if_pos hg, if_neg (by omega)]
      · by_cases hh : ben < (entAt buf redI).2
        · simp only [if_neg hg, if_pos hh, Option.all_some, decide_eq_true_eq, if_neg hwrite]
          rw [if_neg (by omega)]
        · have hnxt := ih (i + 1) (entAt buf redI).2 (Nat.not_lt.mp hh)
            (by rw [Nat.add_right_comm]; exact hsiz)
          simp only [if_neg hg, if_neg hh, Option.all_some, decide_eq_true_eq, if_neg hwrite, hnxt]
          by_cases he : entEnd buf (entAt buf redI).2 n ≤ ben
          · rw [if_pos he, if_pos he]
          · rw [if_neg he, if_neg he]

/-- Without room for all entries the loop does not come to its end. -/
theorem readEnts_short {ben siz : Nat} (n : Nat) : ∀ i redI, i * sizeofRent ≤ siz →
    siz < (i + n) * sizeofRent →
    readEnts buf ben (some siz) i redI n = .fail ∨
      readEnts buf ben (some siz) i redI n = .fault := by
  induction n with
  | zero =>
      intro i redI hle hlt
      exact absurd hlt (Nat.not_lt.mpr hle)
  | succ n ih =>
      intro i redI _ hlt
      rw [readEnts]
      by_cases hg : ben < redI + 12
      · rw [if_pos hg]
        exact .inl rfl
      by_cases hw : siz < (i + 1) * sizeofRent
      · simp only [if_neg hg, Option.all_some, decide_eq_true_eq, if_pos hw]
        exact .inr trivial
      by_cases hh : ben < (entAt buf redI).2
      · simp only [if_neg hg, Option.all_some, decide_eq_true_eq, if_neg hw, if_pos hh]
        exact .inl trivial
      · simp only [if_neg hg, Option.all_some, decide_eq_true_eq, if_neg hw, if_neg hh]
        rcases ih (i + 1) (entAt buf redI).2 (Nat.not_lt.mp hw)
          (by rw [Nat.add_right_comm]; exact hlt) with h | h
        · rw [h]
          exact .inl rfl
        · rw [h]
          exact .inr rfl

/-- Without an array the first entry is written through a null pointer. -/
theorem readEnts_null (ben redI n : Nat) :
    readEnts buf ben none 0 redI n
      = if n = 0 then .done [] redI else if ben < redI + 12 then .fail else .fault := by
  cases n with
  | zero => rfl
  | succ n =>
      rw [readEnts, if_neg (Nat.succ_ne_zero n)]
      rfl

/-! ### How a call ends -/

/-- The tail of an `apen` makes the decoder fault: it ends before its count while
the stack holds a pointer, its array is shorter than its count says, or it has
entries and no array. -/
def ApenBreaks (env : Env) (buf : List UInt8) (ben redI : Nat) : Prop :=
  (ben < redI + 16 ∧ env.stack = true) ∨
    (redI + 16 ≤ ben ∧
      if env.calloc ((dwordAt buf (redI + 8)).toNat * sizeofRent % 2 ^ 64) = true then
        2 ^ 64 ≤ (dwordAt buf (redI + 8)).toNat * sizeofRent
      else 0 < (dwordAt buf (redI + 8)).toNat ∧ redI + 28 ≤ ben)

theorem readApen_fault {ben redI : Nat} {msg : Body → Rmsg} {rest : Rest}
    (h : ApenBreaks env buf ben redI) : readApen env buf ben redI msg rest = .fault := by
  rw [readApen]
  rcases h with ⟨hf, hs⟩ | ⟨hf, hb⟩
  · rw [if_pos hf, if_pos hs]
  · rw [if_neg (by omega)]
    by_cases hc : env.calloc ((dwordAt buf (redI + 8)).toNat * sizeofRent % 2 ^ 64) = true
    · rw [if_pos hc] at hb
      have hshort : (dwordAt buf (redI + 8)).toNat * sizeofRent % 2 ^ 64
          < (dwordAt buf (redI + 8)).toNat * sizeofRent :=
        lt_of_lt_of_le (Nat.mod_lt _ (by decide)) hb
      have hfail : failApen (some ((dwordAt buf (redI + 8)).toNat * sizeofRent % 2 ^ 64))
          (dwordAt buf (redI + 8)) = .fault := by
        rw [failApen, Option.any_some, if_pos (decide_eq_true hshort)]
      have hshort' : (dwordAt buf (redI + 8)).toNat * sizeofRent % 2 ^ 64
          < (0 + (dwordAt buf (redI + 8)).toNat) * sizeofRent := by
        rw [Nat.zero_add]
        exact hshort
      have hends := @readEnts_short buf ben _ _ 0 (redI + 16) (by simp) hshort'
      simp only [if_pos hc]
      rcases hends with h | h
      · rw [h]
        exact hfail
      · rw [h]
    · rw [if_neg hc] at hb
      simp only [if_neg hc, readEnts_null]
      rw [if_neg (by omega), if_neg (by omega)]

theorem readApen_eq {ben redI : Nat} {msg : Body → Rmsg} {rest : Rest}
    (h : ¬ApenBreaks env buf ben redI) :
    readApen env buf ben redI msg rest =
      if redI + 16 ≤ ben ∧ entEnd buf (redI + 16) (dwordAt buf (redI + 8)).toNat = ben then
        .accept ben ben (msg (.apen rest (dwordAt buf redI) (dwordAt buf (redI + 8))
          (entsFrom buf (redI + 16) (dwordAt buf (redI + 8)).toNat)))
      else .reject := by
  have hend := entEnd_le buf (dwordAt buf (redI + 8)).toNat (redI + 16)
  rw [ApenBreaks, not_or] at h
  rw [readApen]
  by_cases hf : ben < redI + 16
  · have hs : ¬env.stack = true := fun hs => h.1 ⟨hf, hs⟩
    rw [if_pos hf, if_neg hs, if_neg (by omega)]
  rw [if_neg hf]
  have hb := fun hb => h.2 ⟨Nat.not_lt.mp hf, hb⟩
  by_cases hc : env.calloc ((dwordAt buf (redI + 8)).toNat * sizeofRent % 2 ^ 64) = true
  · simp only [if_pos hc] at hb ⊢
    have hlt : (dwordAt buf (redI + 8)).toNat * sizeofRent < 2 ^ 64 := Nat.not_le.mp hb
    have hfail : failApen (some ((dwordAt buf (redI + 8)).toNat * sizeofRent))
        (dwordAt buf (redI + 8)) = .reject := by
      rw [failApen, Option.any_some, if_neg]
      simp
    rw [Nat.mod_eq_of_lt hlt, readEnts_room _ 0 _ (Nat.not_lt.mp hf) (by rw [Nat.zero_add])]
    by_cases he : entEnd buf (redI + 16) (dwordAt buf (redI + 8)).toNat ≤ ben
    · rw [if_pos he]
      by_cases heq : entEnd buf (redI + 16) (dwordAt buf (redI + 8)).toNat = ben
      · rw [if_pos ⟨Nat.not_lt.mp hf, heq⟩]
        simp only [heq, if_true]
      · rw [if_neg (fun h => heq h.2)]
        simp only [if_neg heq, hfail]
    · rw [if_neg he, if_neg (by omega)]
      exact hfail
  · simp only [if_neg hc] at hb ⊢
    rw [readEnts_null]
    by_cases h0 : (dwordAt buf (redI + 8)).toNat = 0
    · have hfail : failApen none (dwordAt buf (redI + 8)) = .reject := rfl
      simp only [h0, if_true, entEnd, entsFrom]
      by_cases heq : redI + 16 = ben
      · rw [if_pos heq, if_pos ⟨Nat.not_lt.mp hf, heq⟩, heq]
      · rw [if_neg heq, if_neg (fun h => heq h.2), hfail]
    · have hg : ben < redI + 16 + 12 := by
        by_contra hg
        exact hb ⟨Nat.pos_of_ne_zero h0, by omega⟩
      rw [if_neg h0, if_pos hg, if_neg (by omega)]
      rfl

/-- The buffer makes the decoder fault. -/
structure Breaks (env : Env) (buf : List UInt8) : Prop where
  headed : Headed buf
  apen : typAt buf = c3apen
  rest : 36 ≤ benAt buf
  name : namEnd buf ≤ benAt buf
  tail : ApenBreaks env buf (benAt buf) (namEnd buf)

/-- The buffer starts with a message, by the lengths as the code computes them. -/
structure Accepted (buf : List UInt8) : Prop where
  headed : Headed buf
  sizes : (typAt buf = c3rasp ∧ benAt buf = 24) ∨
    (typAt buf = c3revo ∧ benAt buf = namEnd buf) ∨
    (typAt buf = c3apen ∧ benAt buf = entEnd buf (namEnd buf + 16) (entsAt buf).toNat)

/-- The body of an accepted message. -/
def bodyAt (env : Env) (buf : List UInt8) : Body :=
  if typAt buf = c3rasp then .rasp (wordAt buf 20)
  else if typAt buf = c3apen then
    .apen (restAt env buf) (dwordAt buf (namEnd buf)) (entsAt buf)
      (entsFrom buf (namEnd buf + 16) (entsAt buf).toNat)
  else .revo (restAt env buf)

/-- One past the last byte looked at in an accepted message. -/
def topAt (buf : List UInt8) : Nat := if typAt buf = c3revo then nameTop buf else benAt buf

theorem rmsgRead_head (env : Env) (h : Headed buf) :
    rmsgRead env buf
      = readBody env buf (benAt buf) (Rmsg.mk mugA (dwordAt buf 4) (wordAt buf 12)) := by
  obtain ⟨h1, h2, h3, h4, h5⟩ := h
  rw [benAt] at h4 h5 ⊢
  rw [rmsgRead, if_neg (by omega)]
  simp only [h2, ne_eq, not_true_eq_false, if_false, h3]
  rw [if_neg (by omega), if_neg (by omega)]

/-- Without a header the decoder waits or refuses. -/
theorem rmsgRead_headless (env : Env) (h : ¬Headed buf) :
    rmsgRead env buf = .more ∨ rmsgRead env buf = .reject := by
  rw [rmsgRead]
  by_cases h1 : buf.length < 4 + 8
  · rw [if_pos h1]
    exact .inl rfl
  rw [if_neg h1]
  by_cases h2 : wordAt buf 0 = mugA
  · simp only [h2, ne_eq, not_true_eq_false, if_false]
    by_cases h3 : dwordAt buf 4 < 4
    · rw [if_pos h3]
      exact .inr rfl
    rw [if_neg h3]
    by_cases h4 : buf.length < 4 * (dwordAt buf 4).toNat % 2 ^ 64
    · rw [if_pos h4]
      exact .inl rfl
    rw [if_neg h4]
    by_cases h5 : 4 * (dwordAt buf 4).toNat % 2 ^ 64 < 12 + 2 * 4
    · rw [if_pos h5]
      exact .inr rfl
    · exact absurd ⟨by omega, h2, h3, Nat.not_lt.mp h4, Nat.not_lt.mp h5⟩ h
  · simp only [ne_eq, h2, not_false_eq_true, if_true]
    exact .inr trivial

theorem rmsgRead_fault (h : Breaks env buf) : rmsgRead env buf = .fault := by
  rw [rmsgRead_head env h.headed, readBody]
  have hna : ¬c3apen = c3rasp := by decide
  have ht : (wordAt buf 16).toNat = c3apen := h.apen
  have hname := h.name
  have hrest := h.rest
  simp only [ht, if_neg hna, true_or, if_true]
  rw [if_neg (by omega), if_neg (by exact Nat.not_lt.mpr hname)]
  exact readApen_fault h.tail

/-- The message in a buffer. -/
def msgAt (env : Env) (buf : List UInt8) : Rmsg :=
  ⟨mugA, dwordAt buf 4, wordAt buf 12, bodyAt env buf⟩

/-- How the decoder ends on a headed buffer that does not make it fault. -/
def Decided (env : Env) (buf : List UInt8) (r : Read) : Prop :=
  (Accepted buf ∧ r = .accept (benAt buf) (topAt buf) (msgAt env buf)) ∨
    (¬Accepted buf ∧ r = .reject)

/-- A sum of its sizes decides whether a message of a known type is accepted. -/
theorem decided_of_iff {r : Read} {p : Prop} (hacc : Accepted buf ↔ p)
    (hyes : p → r = .accept (benAt buf) (topAt buf) (msgAt env buf)) (hno : ¬p → r = .reject) :
    Decided env buf r := by
  by_cases hp : p
  · exact .inl ⟨hacc.mpr hp, hyes hp⟩
  · exact .inr ⟨fun h => hp (hacc.mp h), hno hp⟩

theorem rasp_ne_apen : ¬c3rasp = c3apen := by decide
theorem rasp_ne_revo : ¬c3rasp = c3revo := by decide
theorem revo_ne_apen : ¬c3revo = c3apen := by decide

theorem accepted_rasp (h : Headed buf) (ht : typAt buf = c3rasp) :
    Accepted buf ↔ benAt buf = 24 := by
  refine ⟨?_, fun hs => ⟨h, .inl ⟨ht, hs⟩⟩⟩
  rintro ⟨-, ⟨-, hs⟩ | ⟨ht', -⟩ | ⟨ht', -⟩⟩
  · exact hs
  · exact absurd (ht.symm.trans ht') rasp_ne_revo
  · exact absurd (ht.symm.trans ht') rasp_ne_apen

theorem accepted_revo (h : Headed buf) (ht : typAt buf = c3revo) :
    Accepted buf ↔ benAt buf = namEnd buf := by
  refine ⟨?_, fun hs => ⟨h, .inr (.inl ⟨ht, hs⟩)⟩⟩
  rintro ⟨-, ⟨ht', -⟩ | ⟨-, hs⟩ | ⟨ht', -⟩⟩
  · exact absurd (ht'.symm.trans ht) rasp_ne_revo
  · exact hs
  · exact absurd (ht.symm.trans ht') revo_ne_apen

theorem accepted_apen (h : Headed buf) (ht : typAt buf = c3apen) :
    Accepted buf ↔ benAt buf = entEnd buf (namEnd buf + 16) (entsAt buf).toNat := by
  refine ⟨?_, fun hs => ⟨h, .inr (.inr ⟨ht, hs⟩)⟩⟩
  rintro ⟨-, ⟨ht', -⟩ | ⟨ht', -⟩ | ⟨-, hs⟩⟩
  · exact absurd (ht'.symm.trans ht) rasp_ne_apen
  · exact absurd (ht'.symm.trans ht) revo_ne_apen
  · exact hs

theorem decided_rasp (h : Headed buf) (ht : typAt buf = c3rasp) :
    Decided env buf (rmsgRead env buf) := by
  have hread : rmsgRead env buf
      = if benAt buf < 20 + 4 then .reject
        else finish (benAt buf) 24 24 ⟨mugA, dwordAt buf 4, wordAt buf 12, .rasp (wordAt buf 20)⟩ := by
    rw [rmsgRead_head env h, readBody, show (wordAt buf 16).toNat = typAt buf from rfl, ht]
    rfl
  rw [hread]
  refine decided_of_iff (accepted_rasp h ht) ?_ ?_
  · intro hben
    rw [if_neg (by omega), finish, if_pos hben.symm, topAt, msgAt, bodyAt, if_neg (by rw [ht]; decide),
      if_pos ht, hben]
  · intro hben
    rw [finish, if_neg (Ne.symm hben)]
    split
    · rfl
    · rfl

theorem decided_revo (h : Headed buf) (ht : typAt buf = c3revo) :
    Decided env buf (rmsgRead env buf) := by
  have hname : 36 ≤ namEnd buf := Nat.le_add_right _ _
  have hread : rmsgRead env buf
      = if benAt buf < 20 + 8 + 2 * 4 then .reject
        else if benAt buf < namEnd buf then .reject
        else finish (benAt buf) (namEnd buf) (nameTop buf)
          ⟨mugA, dwordAt buf 4, wordAt buf 12, .revo (restAt env buf)⟩ := by
    rw [rmsgRead_head env h, readBody, show (wordAt buf 16).toNat = typAt buf from rfl, ht]
    rfl
  rw [hread]
  refine decided_of_iff (accepted_revo h ht) ?_ ?_
  · intro hben
    rw [if_neg (by omega), if_neg (by omega), finish, if_pos hben.symm, topAt, if_pos ht, msgAt,
      bodyAt, if_neg (by rw [ht]; decide), if_neg (by rw [ht]; decide), hben]
  · intro hben
    rw [finish, if_neg (Ne.symm hben)]
    split
    · rfl
    · split
      · rfl
      · rfl

theorem decided_apen (h : Headed buf) (ht : typAt buf = c3apen) (hb : ¬Breaks env buf) :
    Decided env buf (rmsgRead env buf) := by
  have hends := entEnd_le buf (entsAt buf).toNat (namEnd buf + 16)
  have hname : 36 ≤ namEnd buf := Nat.le_add_right _ _
  have hread : rmsgRead env buf
      = if benAt buf < 20 + 8 + 2 * 4 then .reject
        else if benAt buf < namEnd buf then .reject
        else readApen env buf (benAt buf) (namEnd buf)
          (Rmsg.mk mugA (dwordAt buf 4) (wordAt buf 12)) (restAt env buf) := by
    rw [rmsgRead_head env h, readBody, show (wordAt buf 16).toNat = typAt buf from rfl, ht]
    rfl
  rw [hread]
  refine decided_of_iff (accepted_apen h ht) ?_ ?_
  · intro hben
    have htail : ¬ApenBreaks env buf (benAt buf) (namEnd buf) := fun htail =>
      hb ⟨h, ht, by omega, by omega, htail⟩
    rw [if_neg (by omega), if_neg (by omega), readApen_eq htail,
      if_pos ⟨by omega, (hben.symm : _ = benAt buf)⟩, topAt, if_neg (by rw [ht]; decide), msgAt,
      bodyAt, if_neg (by rw [ht]; decide), if_pos ht]
    rfl
  · intro hben
    by_cases h36 : benAt buf < 20 + 8 + 2 * 4
    · rw [if_pos h36]
    rw [if_neg h36]
    by_cases hlt : benAt buf < namEnd buf
    · rw [if_pos hlt]
    rw [if_neg hlt]
    have htail : ¬ApenBreaks env buf (benAt buf) (namEnd buf) := fun htail =>
      hb ⟨h, ht, by omega, Nat.not_lt.mp hlt, htail⟩
    rw [readApen_eq htail, if_neg (fun e => hben e.2.symm)]

/-- How the decoder ends on a headed buffer that does not make it fault. -/
theorem rmsgRead_eq (h : Headed buf) (hb : ¬Breaks env buf) :
    Decided env buf (rmsgRead env buf) := by
  by_cases h1 : typAt buf = c3rasp
  · exact decided_rasp h h1
  by_cases h2 : typAt buf = c3apen
  · exact decided_apen h h2 hb
  by_cases h3 : typAt buf = c3revo
  · exact decided_revo h h3
  · refine .inr ⟨?_, ?_⟩
    · rintro ⟨-, ⟨ht, -⟩ | ⟨ht, -⟩ | ⟨ht, -⟩⟩
      · exact h1 ht
      · exact h3 ht
      · exact h2 ht
    · rw [rmsgRead_head env h, readBody, show (wordAt buf 16).toNat = typAt buf from rfl]
      simp only [if_neg h1, if_neg (not_or.mpr ⟨h2, h3⟩)]

/-- What is accepted is a message of the declared length. -/
theorem rmsgRead_accept {redI top : Nat} {m : Rmsg} (h : rmsgRead env buf = .accept redI top m) :
    Accepted buf ∧ redI = benAt buf ∧ m = msgAt env buf := by
  by_cases hh : Headed buf
  · by_cases hb : Breaks env buf
    · cases (rmsgRead_fault hb).symm.trans h
    · rcases rmsgRead_eq hh hb with ⟨ha, he⟩ | ⟨-, he⟩
      · cases he.symm.trans h
        exact ⟨ha, rfl, rfl⟩
      · cases he.symm.trans h
  · rcases rmsgRead_headless env hh with he | he
    · cases he.symm.trans h
    · cases he.symm.trans h

/-! ### Safety -/

/-- The request part of a body. -/
def Body.rest? : Body → Option Rest
  | rasp _ => none
  | revo r => some r
  | apen r _ _ _ => some r

/-- Entries that stand in the buffer one after the other, from an offset to an
offset, each with its whole blob. -/
inductive Laid (buf : List UInt8) : Nat → List Rent → Nat → Prop
  | nil {off : Nat} : Laid buf off [] off
  | cons {off last : Nat} {e : Rent} {es : List Rent} :
      e.temW = wordAt buf off → e.typW = wordAt buf (off + 4) → e.lenW = wordAt buf (off + 8) →
      e.bobW = bytesAt buf (off + 12) (4 * e.lenW.toNat) → e.bobW.length = 4 * e.lenW.toNat →
      Laid buf (off + 12 + 4 * e.lenW.toNat) es last → Laid buf off (e :: es) last

/-- What accepting a message should mean: exactly its declared length is consumed
and nothing past it was looked at, the name ends inside its storage, which has the
declared size, and the entries are those in the buffer. -/
structure Contained (buf : List UInt8) (redI top : Nat) (m : Rmsg) : Prop where
  consumed : redI = 4 * m.lenD.toNat
  inside : top ≤ 4 * m.lenD.toNat
  within : 4 * m.lenD.toNat ≤ buf.length
  name : ∀ r, m.body.rest? = some r → r.namC.length = 4 * r.namW.toNat ∧ 0 ∈ r.namC
  entries : ∀ r citD entD entU, m.body = .apen r citD entD entU →
    entU.length = entD.toNat ∧ entD.toNat * sizeofRent < 2 ^ 64 ∧
      Laid buf (36 + 4 * r.namW.toNat + 16) entU redI

/-- The decoder waits, refuses, or accepts a contained message. -/
def Safe (env : Env) (buf : List UInt8) : Prop :=
  match rmsgRead env buf with
  | .more => True
  | .reject => True
  | .fault => False
  | .accept redI top m => Contained buf redI top m

/-- No length of the message wraps, and its name has room for a terminator. -/
structure Tight (buf : List UInt8) : Prop where
  length : (dwordAt buf 4).toNat < 2 ^ 62
  name : typAt buf ≠ c3rasp → 0 < (namAt buf).toNat ∧ (namAt buf).toNat < 2 ^ 30
  entries : typAt buf = c3apen → ∀ i, i < (entsAt buf).toNat →
    (wordAt buf (entEnd buf (namEnd buf + 16) i + 8)).toNat < 2 ^ 30

theorem times4_eq {w : UInt32} (h : w.toNat < 2 ^ 30) : times4 w = 4 * w.toNat :=
  Nat.mod_eq_of_lt (by omega)

theorem times4_lt {w : UInt32} (h : 4 * w.toNat ≤ times4 w) : w.toNat < 2 ^ 30 := by
  have := Nat.mod_lt (4 * w.toNat) (show 0 < 2 ^ 32 by decide)
  rw [times4] at h
  omega

theorem laid_entsFrom (n : Nat) : ∀ off,
    (∀ i, i < n → (wordAt buf (entEnd buf off i + 8)).toNat < 2 ^ 30) →
    entEnd buf off n ≤ buf.length → Laid buf off (entsFrom buf off n) (entEnd buf off n) := by
  induction n with
  | zero => exact fun _ _ _ => .nil
  | succ n ih =>
      intro off hlen hend
      have hw : (wordAt buf (off + 8)).toNat < 2 ^ 30 := hlen 0 (Nat.succ_pos n)
      have hnext : (entAt buf off).2 = off + 12 + 4 * (wordAt buf (off + 8)).toNat := by
        rw [← times4_eq hw]
        rfl
      have hrest := ih (entAt buf off).2 (fun i hi => hlen (i + 1) (Nat.succ_lt_succ hi)) hend
      have hle := le_trans (entEnd_le buf n (entAt buf off).2) hend
      have hbob : (entAt buf off).1.bobW
          = bytesAt buf (off + 12) (4 * (wordAt buf (off + 8)).toNat) := by
        rw [← times4_eq hw]
        rfl
      refine .cons rfl rfl rfl hbob ?_ (hnext ▸ hrest)
      rw [hbob]
      exact length_bytesAt (by omega)

theorem lens_of_laid (n : Nat) : ∀ off last, Laid buf off (entsFrom buf off n) last →
    ∀ i, i < n → (wordAt buf (entEnd buf off i + 8)).toNat < 2 ^ 30 := by
  induction n with
  | zero => exact fun _ _ _ _ hi => absurd hi (Nat.not_lt_zero _)
  | succ n ih =>
      intro off last h i hi
      cases h with
      | cons _ _ _ _ hblob hes =>
          have hw : (wordAt buf (off + 8)).toNat < 2 ^ 30 := by
            refine times4_lt (le_trans (le_of_eq hblob.symm) ?_)
            exact List.length_take_le _ _
          cases i with
          | zero => exact hw
          | succ i =>
              have hnext : off + 12 + 4 * (entAt buf off).1.lenW.toNat = (entAt buf off).2 :=
                congrArg (off + 12 + ·) (times4_eq hw).symm
              rw [hnext] at hes
              exact ih (entAt buf off).2 last hes i (Nat.lt_of_succ_lt_succ hi)

theorem rest_bodyAt {r : Rest} (h : (bodyAt env buf).rest? = some r) :
    typAt buf ≠ c3rasp ∧ r = restAt env buf := by
  rw [bodyAt] at h
  split at h
  · cases h
  · next ht =>
    split at h
    · cases h
      exact ⟨ht, rfl⟩
    · cases h
      exact ⟨ht, rfl⟩

theorem rest_bodyAt_of_ne (env : Env) (h : typAt buf ≠ c3rasp) :
    (bodyAt env buf).rest? = some (restAt env buf) := by
  rw [bodyAt, if_neg h]
  split
  · rfl
  · rfl

theorem length_name (env : Env) (buf : List UInt8) :
    (restAt env buf).namC.length = times4 (namAt buf) :=
  length_strlcpy (by simp [Env.malloc])

theorem nameTop_le (buf : List UInt8) : nameTop buf ≤ namEnd buf := by
  have hmin : strlcpyReads (buf.drop 36) (times4 (namAt buf)) ≤ times4 (namAt buf) - 1 :=
    min_le_right _ _
  rw [nameTop, namEnd]
  exact Nat.add_le_add_left (le_trans hmin (Nat.sub_le _ _)) _

theorem contained_of_tight (ha : Accepted buf) (ht : Tight buf) (hb : ¬Breaks env buf) :
    Contained buf (benAt buf) (topAt buf) (msgAt env buf) := by
  have hben : benAt buf = 4 * (dwordAt buf 4).toNat := by
    have := ht.length
    rw [benAt]
    omega
  have hwhole := ha.headed.whole
  refine ⟨hben, ?_, hben ▸ hwhole, ?_, ?_⟩
  · show topAt buf ≤ 4 * (dwordAt buf 4).toNat
    rw [← hben, topAt]
    split
    · next hv =>
      rw [(accepted_revo ha.headed hv).mp ha]
      exact nameTop_le buf
    · exact Nat.le_refl _
  · intro r hr
    obtain ⟨hne, rfl⟩ := rest_bodyAt hr
    obtain ⟨h0, h30⟩ := ht.name hne
    have hsiz : times4 (namAt buf) ≠ 0 := by
      rw [times4_eq h30]
      omega
    refine ⟨(length_name env buf).trans (times4_eq h30), ?_⟩
    show 0 ∈ strlcpy _ _ (times4 (namAt buf))
    rw [strlcpy_eq hsiz]
    simp
  · intro r citD entD entU hbody
    have hap : typAt buf = c3apen := by
      by_contra hne
      simp only [msgAt, bodyAt, if_neg hne] at hbody
      split at hbody
      · cases hbody
      · cases hbody
    obtain ⟨h0, h30⟩ := ht.name (by rw [hap]; decide)
    have hsizes := (accepted_apen ha.headed hap).mp ha
    have hends := entEnd_le buf (entsAt buf).toNat (namEnd buf + 16)
    simp only [msgAt, bodyAt, hap, if_neg (show ¬c3apen = c3rasp by decide)] at hbody
    cases hbody
    have hoff : 36 + 4 * (restAt env buf).namW.toNat = namEnd buf := by
      rw [namEnd, times4_eq h30]
      rfl
    refine ⟨length_entsFrom _ _ _, ?_, ?_⟩
    · -- otherwise the array would have been too short, or missing
      by_contra hge
      have hname : 36 ≤ namEnd buf := Nat.le_add_right _ _
      refine hb ⟨ha.headed, hap, by omega, by omega, .inr ⟨by omega, ?_⟩⟩
      split
      · exact Nat.not_lt.mp hge
      · refine ⟨Nat.pos_of_ne_zero ?_, ?_⟩
        · intro hz
          rw [entsAt] at hge
          simp [hz] at hge
        · rcases Nat.eq_zero_or_pos (entsAt buf).toNat with hz | hz
          · simp [hz] at hge
          · omega
    · rw [hoff, hsizes]
      exact laid_entsFrom _ _ (ht.entries hap) (hsizes ▸ hwhole)

theorem tight_of_contained (hc : Contained buf (benAt buf) (topAt buf) (msgAt env buf)) :
    Tight buf := by
  have hlt : benAt buf < 2 ^ 64 := Nat.mod_lt _ (by decide)
  have hben : benAt buf = 4 * (dwordAt buf 4).toNat := hc.consumed
  have hname : typAt buf ≠ c3rasp → 0 < (namAt buf).toNat ∧ (namAt buf).toNat < 2 ^ 30 := by
    intro hne
    obtain ⟨hlen, hz⟩ := hc.name _ (rest_bodyAt_of_ne env hne)
    rw [length_name] at hlen
    have hnam : times4 (namAt buf) = 4 * (namAt buf).toNat := hlen
    refine ⟨?_, times4_lt (le_of_eq hnam.symm)⟩
    have hpos := List.length_pos_of_mem hz
    rw [length_name] at hpos
    omega
  refine ⟨by omega, hname, ?_⟩
  intro hap
  obtain ⟨h0, h30⟩ := hname (by rw [hap]; decide)
  have hoff : 36 + 4 * (restAt env buf).namW.toNat = namEnd buf := by
    rw [namEnd, times4_eq h30]
    rfl
  obtain ⟨-, -, hlaid⟩ := hc.entries (restAt env buf) (dwordAt buf (namEnd buf)) (entsAt buf)
    (entsFrom buf (namEnd buf + 16) (entsAt buf).toNat)
    (by simp [msgAt, bodyAt, hap, show ¬c3apen = c3rasp by decide])
  rw [hoff] at hlaid
  exact lens_of_laid _ _ _ hlaid

/-- The decoder is safe on a buffer exactly when a message it takes has lengths
that do not wrap and a name with room for a terminator, and the buffer is not one
that makes it fault. -/
theorem read_safe_iff (env : Env) (buf : List UInt8) :
    Safe env buf ↔ (Accepted buf → Tight buf) ∧ ¬Breaks env buf := by
  rw [Safe]
  by_cases hb : Breaks env buf
  · rw [rmsgRead_fault hb]
    exact ⟨False.elim, fun h => h.2 hb⟩
  by_cases hh : Headed buf
  · rcases rmsgRead_eq hh hb with ⟨ha, hread⟩ | ⟨ha, hread⟩
    · rw [hread]
      exact ⟨fun hc => ⟨fun _ => tight_of_contained hc, hb⟩,
        fun h => contained_of_tight ha (h.1 ha) hb⟩
    · rw [hread]
      exact ⟨fun _ => ⟨fun h => absurd h ha, hb⟩, fun _ => trivial⟩
  · have hno : ¬Accepted buf := fun h => hh h.headed
    rcases rmsgRead_headless env hh with hread | hread
    · rw [hread]
      exact ⟨fun _ => ⟨fun h => absurd h hno, hb⟩, fun _ => trivial⟩
    · rw [hread]
      exact ⟨fun _ => ⟨fun h => absurd h hno, hb⟩, fun _ => trivial⟩

/-- A length in words whose length in bytes is 24 in 64 bits. -/
def longD : UInt64 := .ofNat (2 ^ 62 + 6)

theorem longD_toNat : longD.toNat = 2 ^ 62 + 6 := UInt64.toNat_ofNat_of_lt' (by decide)

/-- A response that declares `2 ^ 62 + 6` words: 24 bytes of it are taken as the
whole message. -/
def wrapped : List UInt8 :=
  word mugA ++ dword longD ++ word 1 ++ word (.ofNat c3rasp) ++ word 1

/-- A vote request with a name of no words: accepted with a name that has no
terminator. -/
def nameless : List UInt8 :=
  word mugA ++ dword 9 ++ word 1 ++ word (.ofNat c3revo) ++ dword 0 ++ word 0 ++ word 0

/-- An `apen` that ends after its name: refused by freeing what the stack holds. -/
def truncated : List UInt8 :=
  word mugA ++ dword 10 ++ word 1 ++ word (.ofNat c3apen) ++ dword 0 ++ word 0 ++ word 1 ++ word 97

theorem read_unsafe : ¬Safe roomy wrapped ∧ ¬Safe roomy nameless ∧ ¬Safe roomy truncated := by
  refine ⟨?_, ?_, ?_⟩
  · have hread : rmsgRead roomy wrapped
        = .accept 24 24 ⟨mugA, longD, 1, .rasp 1⟩ := by decide
    rw [Safe, hread]
    intro h
    have hconsumed := h.consumed
    rw [longD_toNat] at hconsumed
    omega
  · have hread : rmsgRead roomy nameless
        = .accept 36 36 ⟨mugA, 9, 1, .revo ⟨0, 0, 0, []⟩⟩ := by decide
    rw [Safe, hread]
    intro h
    exact absurd (h.name _ rfl).2 (List.not_mem_nil)
  · have hread : rmsgRead roomy truncated = .fault := by decide
    rw [Safe, hread]
    exact id

end Vere.Raft
