import Vere.Raft.Wire
import Mathlib.Algebra.BigOperators.Group.List.Basic
import Mathlib.Data.List.TakeWhile

/-!
# Vere.Raft.RoundTrip

Which messages come back from the wire as they were sent.

The length of a message is computed when it is filled in, counted again while it
is sent, and checked while it is read. The three agree on everything but the
blobs of log entries: `_raft_write_apen` counts `len_w` words, and
`_raft_rmsg_send` sends and counts `len_w` bytes. So an `apen` with a blob fails
the assertion at the end of `_raft_rmsg_send`, whatever else it holds
(`apen_blob_faults`), and a message comes back exactly when every blob in it is
empty and it fits a buffer, whose length is a 32-bit word
(`roundTrip_iff`).
-/

namespace Vere.Raft

open Vere.Lib

@[simp] theorem length_word (w : UInt32) : (word w).length = 4 := length_toLE 4 _

@[simp] theorem length_dword (d : UInt64) : (dword d).length = 8 := length_toLE 8 _

/-! ### The write buffer -/

/-- The bytes waiting in a write buffer. -/
def held : Option Rbuf → List UInt8
  | none => []
  | some b => b.bufY

/-- A buffer as `_raft_rbuf_grow` leaves it: a capacity that is a word, and not
exceeded. -/
def Sound : Option Rbuf → Prop
  | none => True
  | some b => b.bufY.length ≤ b.capW ∧ b.capW < 2 ^ 32

theorem rbufGrow_fits {wri : Option Rbuf} (hw : Sound wri) {x : List UInt8}
    (hx : (held wri ++ x).length < 2 ^ 32) :
    ∃ b, rbufGrow wri x = some b ∧ b.bufY = held wri ++ x ∧ Sound (some b) := by
  cases wri with
  | none =>
      have hl : x.length % 2 ^ 32 = x.length := Nat.mod_eq_of_lt (by simpa [held] using hx)
      refine ⟨⟨x.length, x⟩, ?_, rfl, Nat.le_refl _, by simpa [held] using hx⟩
      simp only [rbufGrow, Option.getD_none, List.length_nil, Nat.zero_add, hl, lt_irrefl, if_false,
        List.nil_append]
  | some b =>
      simp only [held, List.length_append] at hx
      obtain ⟨-, hcap⟩ := hw
      simp only [rbufGrow, Option.getD_some]
      by_cases hc : b.capW < b.bufY.length + x.length
      · -- the buffer is reallocated: the new capacity is no less than what is needed
        have hm : max (2 * b.capW % 2 ^ 32) (b.bufY.length + x.length) < 2 ^ 32 :=
          max_lt (Nat.mod_lt _ (by decide)) hx
        rw [if_pos hc, Nat.mod_eq_of_lt hm, if_neg (Nat.not_lt.mpr (le_max_right _ _))]
        exact ⟨_, rfl, rfl, by simp, hm⟩
      · rw [if_neg hc, if_neg hc]
        exact ⟨_, rfl, rfl, by simpa using Nat.not_lt.mp hc, hcap⟩

theorem rbufGrow_overflows {wri : Option Rbuf} (hw : Sound wri) {x : List UInt8}
    (hx : ¬(held wri ++ x).length < 2 ^ 32) : rbufGrow wri x = none := by
  cases wri with
  | none =>
      simp only [held, List.nil_append, not_lt] at hx
      have hl : x.length % 2 ^ 32 < x.length := lt_of_lt_of_le (Nat.mod_lt _ (by decide)) hx
      have hm : max (2 * (x.length % 2 ^ 32) % 2 ^ 32) x.length % 2 ^ 32 < x.length :=
        lt_of_lt_of_le (Nat.mod_lt _ (by decide)) hx
      simp only [rbufGrow, Option.getD_none, List.length_nil, Nat.zero_add]
      rw [if_pos hl, if_pos hm]
  | some b =>
      simp only [held, List.length_append, not_lt] at hx
      obtain ⟨-, hcap⟩ := hw
      have hc : b.capW < b.bufY.length + x.length := lt_of_lt_of_le hcap hx
      have hm : max (2 * b.capW % 2 ^ 32) (b.bufY.length + x.length) % 2 ^ 32
          < b.bufY.length + x.length := lt_of_lt_of_le (Nat.mod_lt _ (by decide)) hx
      simp only [rbufGrow, Option.getD_some]
      rw [if_pos hc, if_pos hm]

/-- All pieces fit, or some piece overflows the buffer. -/
theorem foldlM_grow (pieces : List (List UInt8)) : ∀ {wri : Option Rbuf}, Sound wri →
    ((held wri ++ pieces.flatten).length < 2 ^ 32 →
      ∃ wri', pieces.foldlM (fun w p => (rbufGrow w p).map some) wri = some wri' ∧
        held wri' = held wri ++ pieces.flatten ∧ Sound wri') ∧
    (¬(held wri ++ pieces.flatten).length < 2 ^ 32 →
      pieces ≠ [] → pieces.foldlM (fun w p => (rbufGrow w p).map some) wri = none) := by
  induction pieces with
  | nil =>
      intro wri hw
      refine ⟨fun _ => ⟨wri, rfl, by simp, hw⟩, fun _ h => absurd rfl h⟩
  | cons p ps ih =>
      intro wri hw
      by_cases hp : (held wri ++ p).length < 2 ^ 32
      · obtain ⟨b, hb, hheld, hs⟩ := rbufGrow_fits hw hp
        have hstep : (p :: ps).foldlM (fun w p => (rbufGrow w p).map some) wri
            = ps.foldlM (fun w p => (rbufGrow w p).map some) (some b) := by
          simp [List.foldlM_cons, hb]
        have hflat : held wri ++ (p :: ps).flatten = held (some b) ++ ps.flatten := by
          show _ = b.bufY ++ ps.flatten
          simp [hheld]
        rw [hstep, hflat]
        refine ⟨(ih hs).1, ?_⟩
        intro hno _
        refine (ih hs).2 hno ?_
        rintro rfl
        refine hno ?_
        show (b.bufY ++ List.flatten []).length < 2 ^ 32
        simpa [hheld] using hp
      · refine ⟨?_, ?_⟩
        · intro h
          simp only [List.flatten_cons, List.length_append] at h hp
          omega
        · intro _ _
          simp [List.foldlM_cons, rbufGrow_overflows hw hp]

theorem pieces_ne_nil (m : Rmsg) : m.pieces ≠ [] := by
  simp [Rmsg.pieces]

/-- What `_raft_rmsg_send` puts into an empty buffer, and when it does not fail. -/
theorem rmsgSend_iff (m : Rmsg) (bytes : List UInt8) :
    (∃ b, rmsgSend none m = some (some b) ∧ b.bufY = bytes) ↔
      bytes = m.pieces.flatten ∧ bytes.length < 2 ^ 32 ∧
        m.sentD = 4 * m.lenD.toNat % 2 ^ 64 := by
  obtain ⟨hfit, hover⟩ := @foldlM_grow m.pieces none trivial
  simp only [held, List.nil_append] at hfit hover
  refine ⟨?_, ?_⟩
  · rintro ⟨b, hsend, rfl⟩
    by_cases hlen : m.pieces.flatten.length < 2 ^ 32
    · obtain ⟨wri', hfold, hheld, -⟩ := hfit hlen
      rw [rmsgSend, hfold] at hsend
      simp only [Option.bind_eq_bind, Option.bind_some] at hsend
      split at hsend
      · next hd =>
        cases hsend
        have hb : b.bufY = m.pieces.flatten := hheld
        exact ⟨hb, hb ▸ hlen, hd⟩
      · cases hsend
    · rw [rmsgSend, hover hlen (pieces_ne_nil m)] at hsend
      cases hsend
  · rintro ⟨rfl, hlen, hd⟩
    obtain ⟨wri', hfold, hheld, -⟩ := hfit hlen
    cases wri' with
    | none =>
        have hnil : 0 = m.pieces.flatten.length := congrArg List.length hheld
        simp only [Rmsg.pieces, List.cons_append, List.flatten_cons, List.length_append,
          length_word] at hnil
        omega
    | some b =>
        refine ⟨b, ?_, hheld⟩
        rw [rmsgSend, hfold]
        simp [hd]

/-! ### Lengths -/

/-- The bytes an entry takes on the wire as it is sent. -/
def sentSize (e : Rent) : Nat := 3 * 4 + e.lenW.toNat

theorem foldl_sent (entU : List Rent) (d : Nat) :
    entU.foldl (fun d e => (d + (3 * 4 + e.lenW.toNat)) % 2 ^ 64) (d % 2 ^ 64)
      = (d + (entU.map sentSize).sum) % 2 ^ 64 := by
  induction entU generalizing d with
  | nil => simp
  | cons e es ih =>
      rw [List.foldl_cons, Nat.mod_add_mod, ih, List.map_cons, List.sum_cons, Nat.add_assoc]
      rfl

theorem foldl_written (entU : List Rent) (d : UInt64) :
    (entU.foldl (fun d e => d + (3 + e.lenW).toUInt64) d).toNat
      = (d.toNat + (entU.map fun e => (3 + e.lenW.toNat) % 2 ^ 32).sum) % 2 ^ 64 := by
  induction entU generalizing d with
  | nil => simp [Nat.mod_eq_of_lt d.toNat_lt]
  | cons e es ih =>
      rw [List.foldl_cons, ih, List.map_cons, List.sum_cons, UInt64.toNat_add, Nat.mod_add_mod,
        Nat.add_assoc]
      rfl

theorem length_entries {entU : List Rent} (h : ∀ e ∈ entU, e.lenW.toNat ≤ e.bobW.length) :
    (entU.flatMap Rent.pieces).flatten.length = (entU.map sentSize).sum := by
  induction entU with
  | nil => rfl
  | cons e es ih =>
      have he := h e (List.mem_cons_self ..)
      have hes := ih fun x hx => h x (List.mem_cons_of_mem e hx)
      rw [List.flatMap_cons, List.flatten_append, List.length_append, hes, List.map_cons,
        List.sum_cons, sentSize]
      simp only [Rent.pieces, List.flatten_cons, List.flatten_nil, List.length_append, length_word,
        List.length_take, List.length_nil, min_eq_left he]
      ring

/-- A name as it is filled in takes its whole storage. -/
theorem length_strlcpy {dst src : List UInt8} {siz : Nat} (h : dst.length = siz) :
    (strlcpy dst src siz).length = siz := by
  rw [strlcpy]
  split
  · exact h
  · have hle : ((src.take (siz - 1)).takeWhile (· ≠ 0)).length ≤ siz - 1 :=
      (List.takeWhile_prefix _).length_le.trans (List.length_take_le _ _)
    simp only [List.length_append, List.length_cons, List.length_drop, h]
    omega

theorem length_restPieces {r : Rest} (h : times4 r.namW ≤ r.namC.length) :
    r.pieces.flatten.length = 16 + times4 r.namW := by
  simp only [Rest.pieces, List.flatten_cons, List.flatten_nil, List.length_append, length_word,
    length_dword, List.length_take, List.length_nil, min_eq_left h]
  omega

/-! ### Calls -/

/-- A message and the function that fills it in. -/
inductive Call
  | rasp (sucW : UInt32)
  | revo
  | apen (laiD : UInt64) (latW : UInt32) (citD : UInt64) (ents : Entries)

def Call.msg (raf : Self) : Call → Rmsg
  | rasp sucW => writeRasp raf sucW
  | revo => writeRevo raf
  | apen laiD latW citD ents => writeApen raf laiD latW citD ents

/-- Every blob is empty, and the message fits a buffer. -/
def Call.Fits (raf : Self) : Call → Prop
  | rasp _ => True
  | revo => 36 + 4 * (nameWords raf.strC).toNat < 2 ^ 32
  | apen _ _ _ ents =>
      (∀ e ∈ ents.entU, e.bobW = []) ∧
        52 + 4 * (nameWords raf.strC).toNat + 12 * ents.entU.length < 2 ^ 32

theorem restLen_toNat (r : Rest) : (restLen r).toNat = 5 + (4 + r.namW.toNat) % 2 ^ 32 := by
  have h : (4 + r.namW.toNat) % 2 ^ 32 < 2 ^ 32 := Nat.mod_lt _ (by decide)
  rw [restLen, UInt64.toNat_add, UInt32.toNat_toUInt64, UInt32.toNat_add,
    show UInt64.toNat 5 = 5 from rfl, show UInt32.toNat 4 = 4 from rfl]
  exact Nat.mod_eq_of_lt (by omega)

@[simp] theorem writeRest_namW (raf : Self) (laiD : UInt64) (latW : UInt32) :
    (writeRest raf laiD latW).namW = nameWords raf.strC := rfl

theorem length_writeRest (raf : Self) (laiD : UInt64) (latW : UInt32) :
    (writeRest raf laiD latW).namC.length = times4 (nameWords raf.strC) :=
  length_strlcpy List.length_replicate

theorem rent_lenW (e : Entry) : e.rent.lenW.toNat = e.bobW.length :=
  UInt32.toNat_ofNat_of_lt' e.fits

theorem length_rent_bobW (e : Entry) : e.rent.bobW.length = 4 * e.bobW.length := by
  show (e.bobW.flatMap word).length = _
  induction e.bobW with
  | nil => rfl
  | cons w ws ih =>
      rw [List.flatMap_cons, List.length_append, ih, length_word, List.length_cons]
      ring

/-- The words in the blobs of an array. -/
def blobs (ents : List Entry) : Nat := (ents.map fun e => e.bobW.length).sum

theorem sum_sentSize (ents : List Entry) :
    ((ents.map Entry.rent).map sentSize).sum = 12 * ents.length + blobs ents := by
  induction ents with
  | nil => rfl
  | cons e es ih =>
      simp only [blobs] at ih ⊢
      simp only [List.map_cons, List.sum_cons, ih, sentSize, rent_lenW, List.length_cons]
      ring

/-- The words counted for entries that are small enough for the sum in 32 bits. -/
theorem sum_writtenSize (ents : List Entry) (h : blobs ents + 3 < 2 ^ 32) :
    ((ents.map Entry.rent).map fun e => (3 + e.lenW.toNat) % 2 ^ 32).sum
      = 3 * ents.length + blobs ents := by
  induction ents with
  | nil => rfl
  | cons e es ih =>
      simp only [blobs, List.map_cons, List.sum_cons] at h ih ⊢
      rw [ih (by omega), rent_lenW, Nat.mod_eq_of_lt (by omega), List.length_cons]
      ring

theorem blobs_eq_zero (ents : List Entry) : blobs ents = 0 ↔ ∀ e ∈ ents, e.bobW = [] := by
  rw [blobs, List.sum_eq_zero_iff_forall_eq_nat]
  simp [List.length_eq_zero_iff]

/-- `4 * n` and `4 + n` in 32 bits: exact, or both off by multiples of `2 ^ 32`. -/
theorem wraps {n : Nat} (hn : n < 2 ^ 32) :
    (n < 2 ^ 30 ∧ 4 * n % 2 ^ 32 = 4 * n ∧ (4 + n) % 2 ^ 32 = 4 + n) ∨
      (4 * n % 2 ^ 32 + 2 ^ 32 ≤ 4 * n ∧ (4 + n) % 2 ^ 32 = 4 + n) ∨
      (4 * n % 2 ^ 32 + 3 * 2 ^ 32 = 4 * n ∧ (4 + n) % 2 ^ 32 + 2 ^ 32 = 4 + n) := by
  by_cases h1 : n < 2 ^ 30
  · exact .inl ⟨h1, Nat.mod_eq_of_lt (by omega), Nat.mod_eq_of_lt (by omega)⟩
  by_cases h2 : 4 + n < 2 ^ 32
  · refine .inr (.inl ⟨?_, Nat.mod_eq_of_lt h2⟩)
    omega
  · refine .inr (.inr ⟨?_, ?_⟩)
    · omega
    · omega

/-- The three lengths of an `apen` agree only without blobs: the words written are
`13 + nam_w + 3 * ent_d` and the blobs, the bytes sent `52 + 4 * nam_w + 12 * ent_d`
and the blobs. -/
theorem apen_lengths {n k s : Nat} (hn : n < 2 ^ 32) :
    (52 + 4 * n % 2 ^ 32 + 12 * k + s < 2 ^ 32 ∧
      52 + 4 * n % 2 ^ 32 + 12 * k + s = 4 * (9 + (4 + n) % 2 ^ 32 + (3 * k + s))) ↔
      s = 0 ∧ 52 + 4 * n + 12 * k < 2 ^ 32 := by
  have hw := wraps hn
  generalize 4 * n % 2 ^ 32 = t at *
  generalize (4 + n) % 2 ^ 32 = u at *
  rcases hw with ⟨_, ht, hu⟩ | ⟨ht, hu⟩ | ⟨ht, hu⟩
  · omega
  · omega
  · omega

theorem length_flatten_revo (raf : Self) :
    (writeRevo raf).pieces.flatten.length = 36 + times4 (nameWords raf.strC) := by
  have h := length_restPieces (r := writeRest raf raf.entD raf.latW)
    (by rw [length_writeRest, writeRest_namW])
  simp only [writeRevo, writeBase, Rmsg.pieces, List.flatten_append, List.length_append, h,
    List.flatten_cons, List.flatten_nil, length_word, length_dword, List.length_nil,
    writeRest_namW]
  omega

theorem length_flatten_apen (raf : Self) (laiD : UInt64) (latW : UInt32) (citD : UInt64)
    (ents : Entries) :
    (writeApen raf laiD latW citD ents).pieces.flatten.length
      = 52 + times4 (nameWords raf.strC) + 12 * ents.entU.length + blobs ents.entU := by
  have h := length_restPieces (r := writeRest raf laiD latW)
    (by rw [length_writeRest, writeRest_namW])
  have hents : ∀ e ∈ ents.entU.map Entry.rent, e.lenW.toNat ≤ e.bobW.length := by
    intro e he
    obtain ⟨x, -, rfl⟩ := List.mem_map.mp he
    rw [rent_lenW, length_rent_bobW]
    omega
  simp only [writeApen, writeBase, Rmsg.pieces, List.flatten_append, List.length_append, h,
    length_entries hents, sum_sentSize, List.flatten_cons, List.flatten_nil, length_word,
    length_dword, List.length_nil, writeRest_namW]
  omega

theorem writeRevo_lenD (raf : Self) :
    (writeRevo raf).lenD.toNat = 5 + (4 + (nameWords raf.strC).toNat) % 2 ^ 32 :=
  restLen_toNat _

theorem writeApen_lenD (raf : Self) (laiD : UInt64) (latW : UInt32) (citD : UInt64)
    (ents : Entries) :
    (writeApen raf laiD latW citD ents).lenD.toNat
      = (9 + (4 + (nameWords raf.strC).toNat) % 2 ^ 32 +
        ((ents.entU.map Entry.rent).map fun e => (3 + e.lenW.toNat) % 2 ^ 32).sum) % 2 ^ 64 := by
  simp only [writeApen]
  rw [foldl_written, UInt64.toNat_add, restLen_toNat, writeRest_namW, Nat.mod_add_mod,
    show UInt64.toNat 4 = 4 from rfl]
  congr 1
  omega

/-- The bytes counted while sending are those sent. -/
theorem sentD_eq (raf : Self) (c : Call) :
    (c.msg raf).sentD = (c.msg raf).pieces.flatten.length % 2 ^ 64 := by
  cases c with
  | rasp sucW =>
      show (Rmsg.mk _ _ _ (.rasp sucW)).sentD
        = (Rmsg.mk _ _ _ (.rasp sucW)).pieces.flatten.length % 2 ^ 64
      simp [Rmsg.pieces, Rmsg.sentD]
  | revo =>
      rw [Call.msg, length_flatten_revo]
      simp only [writeRevo, writeBase, Rmsg.sentD, writeRest_namW]
      omega
  | apen laiD latW citD ents =>
      rw [Call.msg, length_flatten_apen]
      simp only [writeApen, writeBase, Rmsg.sentD, writeRest_namW, foldl_sent, sum_sentSize]
      omega

/-- The bytes sent are the words declared exactly when the message fits. -/
theorem lengths_iff (raf : Self) (c : Call) :
    ((c.msg raf).pieces.flatten.length < 2 ^ 32 ∧
      (c.msg raf).pieces.flatten.length = 4 * (c.msg raf).lenD.toNat) ↔ c.Fits raf := by
  have hn := (nameWords raf.strC).toNat_lt
  have hu : (4 + (nameWords raf.strC).toNat) % 2 ^ 32 < 2 ^ 32 := Nat.mod_lt _ (by decide)
  cases c with
  | rasp sucW =>
      refine ⟨fun _ => trivial, fun _ => ?_⟩
      show (Rmsg.pieces ⟨mugA, 5 + 1, raf.temW, .rasp sucW⟩).flatten.length < 2 ^ 32 ∧
        (Rmsg.pieces ⟨mugA, 5 + 1, raf.temW, .rasp sucW⟩).flatten.length = 4 * 6
      simp [Rmsg.pieces]
  | revo =>
      have hw := wraps hn
      simp only [Call.msg, Call.Fits, length_flatten_revo, writeRevo_lenD, times4]
      generalize 4 * (nameWords raf.strC).toNat % 2 ^ 32 = t at *
      generalize (4 + (nameWords raf.strC).toNat) % 2 ^ 32 = u at *
      rcases hw with ⟨_, ht, hu⟩ | ⟨ht, hu⟩ | ⟨ht, hu⟩
      · omega
      · omega
      · omega
  | apen laiD latW citD ents =>
      simp only [Call.msg, Call.Fits, length_flatten_apen, ← blobs_eq_zero]
      rw [← apen_lengths hn]
      refine and_congr_right fun hlt => ?_
      rw [writeApen_lenD, sum_writtenSize _ (by omega), ← times4, Nat.mod_eq_of_lt (by omega)]

/-- The words declared of a message that fits a buffer are far from wrapping. -/
theorem lenD_lt (raf : Self) (c : Call) (h : (c.msg raf).pieces.flatten.length < 2 ^ 32) :
    (c.msg raf).lenD.toNat < 2 ^ 62 := by
  have hu : (4 + (nameWords raf.strC).toNat) % 2 ^ 32 < 2 ^ 32 := Nat.mod_lt _ (by decide)
  cases c with
  | rasp sucW =>
      show 6 < 2 ^ 62
      decide
  | revo =>
      rw [Call.msg, writeRevo_lenD]
      omega
  | apen laiD latW citD ents =>
      rw [Call.msg, length_flatten_apen] at h
      rw [Call.msg, writeApen_lenD, sum_writtenSize _ (by omega)]
      generalize (4 + (nameWords raf.strC).toNat) % 2 ^ 32 = u at *
      omega

/-! ### Reading a field back -/

theorem wordAt_of_drop {buf rest : List UInt8} {off : Nat} {w : UInt32}
    (h : buf.drop off = word w ++ rest) : wordAt buf off = w ∧ buf.drop (off + 4) = rest := by
  refine ⟨?_, drop_of_drop h (length_word w)⟩
  rw [wordAt, bytesAt_of_drop h (length_word w), word, ofLE_toLE,
    Nat.mod_eq_of_lt (show w.toNat < 256 ^ 4 from w.toNat_lt)]
  exact UInt32.ofNat_toNat

theorem dwordAt_of_drop {buf rest : List UInt8} {off : Nat} {d : UInt64}
    (h : buf.drop off = dword d ++ rest) : dwordAt buf off = d ∧ buf.drop (off + 8) = rest := by
  refine ⟨?_, drop_of_drop h (length_dword d)⟩
  rw [dwordAt, bytesAt_of_drop h (length_dword d), dword, ofLE_toLE,
    Nat.mod_eq_of_lt (show d.toNat < 256 ^ 8 from d.toNat_lt)]
  exact UInt64.ofNat_toNat

/-- A name without what its storage holds past the terminator. -/
def Rest.trim (r : Rest) : Rest := { r with namC := r.namC.takeWhile (· ≠ 0) }

def Body.trim : Body → Body
  | rasp sucW => .rasp sucW
  | revo r => .revo r.trim
  | apen r citD entD entU => .apen r.trim citD entD entU

/-- A message as its reader sees it. -/
def Rmsg.trim (m : Rmsg) : Rmsg := { m with body := m.body.trim }

theorem takeWhile_terminated {str t : List UInt8} (h : ∀ b ∈ str, b ≠ 0) :
    (str ++ 0 :: t).takeWhile (· ≠ 0) = str := by
  rw [List.takeWhile_append_of_pos (by simpa using h)]
  simp

/-- The string `uv_strlcpy` copies. -/
def copied (src : List UInt8) (siz : Nat) : List UInt8 := (src.take (siz - 1)).takeWhile (· ≠ 0)

theorem copied_ne_zero {src : List UInt8} {siz : Nat} : ∀ b ∈ copied src siz, b ≠ 0 := by
  intro b hb
  simpa using List.mem_takeWhile_imp hb

theorem length_copied_le (src : List UInt8) (siz : Nat) : (copied src siz).length ≤ siz - 1 :=
  (List.takeWhile_prefix _).length_le.trans (List.length_take_le _ _)

theorem strlcpy_eq {dst src : List UInt8} {siz : Nat} (h : siz ≠ 0) :
    strlcpy dst src siz
      = copied src siz ++ 0 :: dst.drop ((copied src siz).length + 1) := by
  rw [strlcpy, if_neg h]
  rfl

/-- Copying a copy gives the same string. -/
theorem copied_strlcpy {dst src rest : List UInt8} {siz : Nat} (h : siz ≠ 0) :
    copied (strlcpy dst src siz ++ rest) siz = copied src siz := by
  rw [strlcpy_eq h, copied, List.append_assoc, List.take_append,
    List.take_of_length_le (length_copied_le src siz),
    List.takeWhile_append_of_pos (by simpa using copied_ne_zero)]
  cases siz - 1 - (copied src siz).length with
  | zero => simp
  | succ k => simp

/-- The name read from a name that was filled in. -/
theorem name_back {dst dst' src rest : List UInt8} {siz : Nat} (hd : dst.length = siz)
    (hd' : dst'.length = siz) :
    (strlcpy dst' (strlcpy dst src siz ++ rest) siz).takeWhile (· ≠ 0)
      = (strlcpy dst src siz).takeWhile (· ≠ 0) := by
  by_cases h : siz = 0
  · subst h
    rw [List.length_eq_zero_iff.mp hd, List.length_eq_zero_iff.mp hd']
    rfl
  · rw [strlcpy_eq h, copied_strlcpy h, strlcpy_eq h, takeWhile_terminated copied_ne_zero,
      takeWhile_terminated copied_ne_zero]

theorem restAt_of_drop (env : Env) {buf tail : List UInt8} {raf : Self} {laiD : UInt64}
    {latW : UInt32}
    (h : buf.drop 20 = (writeRest raf laiD latW).pieces.flatten ++ tail) :
    (restAt env buf).trim = (writeRest raf laiD latW).trim ∧
      (restAt env buf).namW = nameWords raf.strC ∧
      buf.drop (36 + times4 (nameWords raf.strC)) = tail := by
  have hlen := length_writeRest raf laiD latW
  have htake : (writeRest raf laiD latW).namC.take (times4 (writeRest raf laiD latW).namW)
      = (writeRest raf laiD latW).namC := List.take_of_length_le (le_of_eq hlen)
  simp only [Rest.pieces, List.flatten_cons, List.flatten_nil, List.append_nil, htake,
    List.append_assoc] at h
  obtain ⟨hlai, h⟩ := dwordAt_of_drop h
  obtain ⟨hlat, h⟩ := wordAt_of_drop h
  obtain ⟨hnam, h⟩ := wordAt_of_drop h
  have hnam' : wordAt buf 32 = nameWords raf.strC := hnam
  refine ⟨?_, hnam', drop_of_drop h hlen⟩
  simp only [restAt, Rest.trim, hlai, hlat, hnam', Rest.mk.injEq]
  refine ⟨trivial, trivial, rfl, ?_⟩
  rw [show buf.drop 36 = _ from h]
  exact name_back List.length_replicate (by simp [Env.malloc])

/-- Entries without blobs, read back. -/
theorem readEnts_of_drop {buf tail : List UInt8} {siz : Nat} :
    ∀ (entU : List Rent) (i redI : Nat), (∀ e ∈ entU, e.lenW = 0 ∧ e.bobW = []) →
      buf.drop redI = (entU.flatMap Rent.pieces).flatten ++ tail →
      (i + entU.length) * sizeofRent ≤ siz →
      readEnts buf (redI + 12 * entU.length) (some siz) i redI entU.length
        = .done entU (redI + 12 * entU.length)
  | [], _, _, _, _, _ => rfl
  | e :: es, i, redI, hz, h, hsiz => by
      obtain ⟨hlen0, hbob⟩ := hz e (List.mem_cons_self ..)
      simp only [List.flatMap_cons, Rent.pieces, hbob, List.take_nil, List.flatten_append,
        List.flatten_cons, List.flatten_nil, List.append_nil, List.append_assoc] at h
      obtain ⟨htem, h⟩ := wordAt_of_drop h
      obtain ⟨htyp, h⟩ := wordAt_of_drop h
      obtain ⟨hlen, h⟩ := wordAt_of_drop h
      have hlenW : wordAt buf (redI + 8) = 0 := hlen.trans hlen0
      have hent : entAt buf redI = (e, redI + 12) := by
        have h0 : times4 0 = 0 := rfl
        obtain ⟨temW, typW, lenW, bobW⟩ := e
        simp only at hlen0 hbob htem htyp
        simp [entAt, hlenW, h0, bytesAt, htem, htyp, hlen0, hbob]
      have ih := readEnts_of_drop es (i + 1) (redI + 12)
        (fun x hx => hz x (List.mem_cons_of_mem e hx)) h
        (le_of_eq_of_le (by rw [List.length_cons, Nat.add_right_comm]; rfl) hsiz)
      have hben : redI + 12 * (e :: es).length = redI + 12 + 12 * es.length := by
        rw [List.length_cons]
        ring
      rw [hben, List.length_cons, readEnts, if_neg (by omega), if_neg, hent, if_neg (by omega), ih]
      · rw [List.length_cons] at hsiz
        simp only [Option.all_some, decide_eq_true_eq, not_lt]
        exact le_trans (Nat.mul_le_mul_right _ (by omega)) hsiz

/-! ### Messages -/

theorem rmsgRead_of_head (env : Env) {buf rest : List UInt8} {lenD : UInt64}
    {temW typW : UInt32}
    (hbuf : buf = word mugA ++ (dword lenD ++ (word temW ++ (word typW ++ rest))))
    (hlen : buf.length = 4 * lenD.toNat) (hlt : buf.length < 2 ^ 32) :
    rmsgRead env buf = readBody env buf buf.length (Rmsg.mk mugA lenD temW) ∧
      wordAt buf 16 = typW ∧ buf.drop 20 = rest := by
  have h20 : 20 ≤ buf.length := by
    rw [hbuf]
    simp only [List.length_append, length_word, length_dword]
    omega
  have hb : buf.drop 0 = word mugA ++ (dword lenD ++ (word temW ++ (word typW ++ rest))) := hbuf
  obtain ⟨hver, hb⟩ := wordAt_of_drop hb
  obtain ⟨hd, hb⟩ := dwordAt_of_drop hb
  obtain ⟨htem, hb⟩ := wordAt_of_drop hb
  obtain ⟨htyp, hb⟩ := wordAt_of_drop hb
  refine ⟨?_, htyp, hb⟩
  have h4 : ¬lenD < 4 := by
    rw [UInt64.lt_iff_toNat_lt, show UInt64.toNat 4 = 4 from rfl]
    omega
  have hben : 4 * lenD.toNat % 2 ^ 64 = buf.length := by omega
  rw [rmsgRead, if_neg (by omega)]
  simp only [hver, ne_eq, not_true_eq_false, if_false, show dwordAt buf 4 = lenD from hd, h4, hben,
    lt_irrefl, show wordAt buf 12 = temW from htem]
  rw [if_neg (by omega)]

theorem typ_revo : (UInt32.ofNat c3revo).toNat = c3revo := by decide

theorem typ_apen : (UInt32.ofNat c3apen).toNat = c3apen := by decide

/-- A message that fits is read back. -/
theorem read_back (env : Env) (hroom : ∀ siz, siz < 2 ^ 33 → env.calloc siz = true)
    (raf : Self) (c : Call) (hfits : c.Fits raf) :
    ∃ top m', rmsgRead env (c.msg raf).pieces.flatten
        = .accept (c.msg raf).pieces.flatten.length top m' ∧ m'.trim = (c.msg raf).trim := by
  obtain ⟨hlt, hlen⟩ := (lengths_iff raf c).mpr hfits
  generalize hbuf : (c.msg raf).pieces.flatten = buf at hlt hlen ⊢
  cases c with
  | rasp sucW =>
      have hhead : buf = word mugA ++ (dword (writeRasp raf sucW).lenD ++ (word raf.temW ++
          (word (.ofNat c3rasp) ++ word sucW))) := by
        rw [← hbuf]
        rfl
      obtain ⟨hread, htyp, hb⟩ := rmsgRead_of_head env hhead hlen hlt
      rw [← List.append_nil (word sucW)] at hb
      have hsuc : wordAt buf 20 = sucW := (wordAt_of_drop hb).1
      have h24 : buf.length = 24 := hlen
      refine ⟨24, writeRasp raf sucW, ?_, rfl⟩
      rw [hread, readBody, htyp, h24]
      simp only [finish, hsuc]
      rfl
  | revo =>
      have hhead : buf = word mugA ++ (dword (writeRevo raf).lenD ++ (word raf.temW ++
          (word (.ofNat c3revo) ++ (writeRest raf raf.entD raf.latW).pieces.flatten))) := by
        rw [← hbuf]
        simp [Call.msg, writeRevo, writeBase, Rmsg.pieces, Body.typW]
      obtain ⟨hread, htyp, hb⟩ := rmsgRead_of_head env hhead hlen hlt
      rw [← List.append_nil (Rest.pieces _).flatten] at hb
      obtain ⟨htrim, hnam, -⟩ := restAt_of_drop env hb
      have hlen' : buf.length = 36 + times4 (nameWords raf.strC) := by
        rw [← hbuf]
        exact length_flatten_revo raf
      refine ⟨nameTop buf, ⟨mugA, (writeRevo raf).lenD, raf.temW, .revo (restAt env buf)⟩, ?_, ?_⟩
      · rw [hread, readBody, htyp, typ_revo, if_neg (by decide), if_pos (.inr rfl),
          if_neg (by omega)]
        simp only [hnam]
        rw [if_neg (by omega), if_neg (by decide), finish, if_pos hlen'.symm, hlen']
      · simp only [Rmsg.trim, Body.trim, htrim]
        rfl
  | apen laiD latW citD ents =>
      obtain ⟨hblobs, hsize⟩ := hfits
      have hhead : buf = word mugA ++ (dword (writeApen raf laiD latW citD ents).lenD ++
          (word raf.temW ++ (word (.ofNat c3apen) ++ ((writeRest raf laiD latW).pieces.flatten ++
            (dword citD ++ (dword (.ofNat ents.entU.length) ++
              ((ents.entU.map Entry.rent).flatMap Rent.pieces).flatten)))))) := by
        rw [← hbuf]
        simp [Call.msg, writeApen, writeBase, Rmsg.pieces, Body.typW]
      obtain ⟨hread, htyp, hb⟩ := rmsgRead_of_head env hhead hlen hlt
      obtain ⟨htrim, hnam, hb⟩ := restAt_of_drop env hb
      obtain ⟨hcit, hb⟩ := dwordAt_of_drop hb
      obtain ⟨hent, hb⟩ := dwordAt_of_drop hb
      have hentD : (UInt64.ofNat ents.entU.length).toNat = ents.entU.length :=
        UInt64.toNat_ofNat_of_lt' ents.fits
      have hzero : ∀ e ∈ ents.entU.map Entry.rent, e.lenW = 0 ∧ e.bobW = [] := by
        intro e he
        obtain ⟨x, hx, rfl⟩ := List.mem_map.mp he
        simp [Entry.rent, hblobs x hx]
      have hlen' : buf.length = 36 + times4 (nameWords raf.strC) + 16 +
          12 * (ents.entU.map Entry.rent).length := by
        rw [← hbuf, Call.msg, length_flatten_apen, (blobs_eq_zero _).mpr hblobs, List.length_map]
        omega
      have hsiz : ents.entU.length * sizeofRent % 2 ^ 64 = ents.entU.length * sizeofRent := by
        rw [sizeofRent]
        omega
      have hcalloc : env.calloc (ents.entU.length * sizeofRent) = true := by
        refine hroom _ ?_
        rw [sizeofRent]
        omega
      have hroom : (0 + (ents.entU.map Entry.rent).length) * sizeofRent
          ≤ ents.entU.length * sizeofRent := by
        rw [List.length_map, Nat.zero_add]
      rw [← List.append_nil (List.flatMap _ _).flatten] at hb
      have hents := readEnts_of_drop _ 0 _ hzero hb hroom
      refine ⟨buf.length, ⟨mugA, (writeApen raf laiD latW citD ents).lenD, raf.temW,
        .apen (restAt env buf) citD (.ofNat ents.entU.length) (ents.entU.map Entry.rent)⟩,
        ?_, ?_⟩
      · rw [hread, readBody, htyp, typ_apen, if_neg (by decide), if_pos (.inl rfl),
          if_neg (by omega)]
        simp only [hnam, if_true]
        rw [if_neg (by omega), readApen, if_neg (by omega)]
        simp only [hcit, hent, hentD, hsiz, hcalloc, if_true]
        rw [List.length_map] at hents hlen'
        rw [hlen', hents]
        simp only [if_true]
      · simp only [Rmsg.trim, Body.trim, htrim]
        rfl

/-- A message can be sent exactly when it fits. -/
theorem sends_iff (raf : Self) (c : Call) :
    (∃ b, rmsgSend none (c.msg raf) = some (some b)) ↔ c.Fits raf := by
  refine ⟨?_, ?_⟩
  · rintro ⟨b, hsend⟩
    obtain ⟨hb, hlt, hd⟩ := (rmsgSend_iff _ _).mp ⟨b, hsend, rfl⟩
    rw [hb] at hlt
    have hlenD := lenD_lt raf c hlt
    refine (lengths_iff raf c).mp ⟨hlt, ?_⟩
    rw [sentD_eq] at hd
    omega
  · intro hfits
    obtain ⟨hlt, hlen⟩ := (lengths_iff raf c).mpr hfits
    obtain ⟨b, hsend, -⟩ := (rmsgSend_iff (c.msg raf) _).mpr ⟨rfl, hlt, by rw [sentD_eq, hlen]⟩
    exact ⟨b, hsend⟩

/-- The bytes `_raft_rmsg_send` puts into an empty buffer are read by
`_raft_rmsg_read` to their end, as the message that was sent. -/
def RoundTrip (env : Env) (m : Rmsg) : Prop :=
  ∃ b top m', rmsgSend none m = some (some b) ∧
    rmsgRead env b.bufY = .accept b.bufY.length top m' ∧ m'.trim = m.trim

/-- A message comes back from the wire exactly when every blob in it is empty and
it fits a buffer. -/
theorem roundTrip_iff (env : Env) (hroom : ∀ siz, siz < 2 ^ 33 → env.calloc siz = true)
    (raf : Self) (c : Call) : RoundTrip env (c.msg raf) ↔ c.Fits raf := by
  refine ⟨?_, ?_⟩
  · rintro ⟨b, top, m', hsend, -, -⟩
    exact (sends_iff raf c).mp ⟨b, hsend⟩
  · intro hfits
    obtain ⟨top, m', hread, htrim⟩ := read_back env hroom raf c hfits
    obtain ⟨b, hsend⟩ := (sends_iff raf c).mpr hfits
    obtain ⟨hb, -⟩ := (rmsgSend_iff (c.msg raf) _).mp ⟨b, hsend, rfl⟩
    rw [← hb] at hread
    exact ⟨b, top, m', hsend, hread, htrim⟩

/-- The name `a:1`, for concrete cases. -/
def nameA : Cstr := ⟨[97, 58, 49], by decide⟩

/-- Memory in which every allocation succeeds. -/
def roomy : Env := ⟨fun _ => 170, fun _ => true, true⟩

/-- A heartbeat comes back. -/
theorem roundTrip_beat :
    RoundTrip roomy (writeApen ⟨nameA, 0, 0, 1⟩ 0 0 0 ⟨[], by decide⟩) :=
  (roundTrip_iff roomy (fun _ _ => rfl) ⟨nameA, 0, 0, 1⟩ (.apen 0 0 0 ⟨[], by decide⟩)).mpr
    ⟨List.forall_mem_nil _, by decide⟩

/-- An entry with a blob of one word is not even sent: one byte of it is, and the
length check fails. -/
theorem apen_blob_faults :
    rmsgSend none (writeApen ⟨nameA, 0, 0, 1⟩ 0 0 0 ⟨[⟨1, 2, [5], by decide⟩], by decide⟩) = none ∧
      ¬RoundTrip roomy
        (writeApen ⟨nameA, 0, 0, 1⟩ 0 0 0 ⟨[⟨1, 2, [5], by decide⟩], by decide⟩) := by
  have hsend : rmsgSend none
      (writeApen ⟨nameA, 0, 0, 1⟩ 0 0 0 ⟨[⟨1, 2, [5], by decide⟩], by decide⟩) = none := by
    decide
  refine ⟨hsend, ?_⟩
  rintro ⟨b, top, m', hs, -, -⟩
  rw [hsend] at hs
  cases hs

end Vere.Raft
