import Vere.Hoon.PackSpec
import Vere.Jets.Bloq
import Vere.Jets.Pack

/-!
# Vere.Jets.PackSpec

The packing jets implement the packed format of `Vere.Pack.Stream`, and so agree
with the Hoon arms they replace, as long as the stream is shorter than `2^31`
bits.

The bound is where the C side stops by design: bit positions are kept as direct
atoms, `can` and `lsh` refuse a width that is not one, and `cut` reads nothing
from a position that is not one. Below it no size wraps and every piece lands
inside its slab.
-/

namespace Vere.Jets

open Vere.Lib Vere.Pack

theorem ok_bind {α β : Type} (a : α) (f : α → Jet β) : ((.ok a : Jet α) >>= f) = f a := rfl

theorem error_bind {α β : Type} (e : Bail) (f : α → Jet β) :
    ((.error e : Jet α) >>= f) = .error e := rfl

/-- A sequence that gives a result has its first part give one. -/
theorem bind_ok {α β : Type} {x : Jet α} {f : α → Jet β} {r : β} (h : (x >>= f) = .ok r) :
    ∃ a, x = .ok a ∧ f a = .ok r := by
  cases x with
  | error e => cases h
  | ok a => exact ⟨a, rfl, h⟩

/-- A product of Hoon as the result of a jet: a crash is an exit. -/
def ofHoon {α : Type} : Option α → Jet α
  | none => .error .exit
  | some a => .ok a

/-! ### Codes of atoms -/

theorem size_le_mat_fst (a : Nat) : a.size ≤ (Hoon.mat a).1 := by
  rcases Nat.eq_zero_or_pos a with rfl | h
  · rw [Nat.size_zero]
    exact Nat.zero_le _
  · rw [mat_pos h]
    exact Nat.le_add_left _ _

/-- `mat` agrees with `++mat` on every atom whose code has room in a slab. -/
theorem mat_roomy {a : Nat} (h : (Hoon.mat a).1 + 31 < 2 ^ 32) : mat a = .ok (Hoon.mat a) := by
  rcases Nat.eq_zero_or_pos a with rfl | ha
  · rfl
  have hc := size_size_pos ha
  have hle : a.size.size ≤ a.size := Nat.size_le.mpr Nat.lt_two_pow_self
  have hlong : a.size.size ≤ 32 := by
    rw [mat_pos ha] at h
    exact Nat.size_le.mpr (by omega)
  have hloom : ∀ b : Nat, b.size + 31 < 2 ^ 32 → InLoom b := by
    intro b hb
    rw [InLoom, wordLen]
    omega
  rw [mat_pos ha] at h
  have hlo : a.size % 2 ^ (a.size.size - 1) < 2 ^ (a.size.size - 1) :=
    Nat.mod_lt _ (Nat.two_pow_pos _)
  have hsz : (a.size % 2 ^ (a.size.size - 1) + 2 ^ (a.size.size - 1) * a).size
      = (a.size.size - 1) + a.size := size_add_mul hlo ha
  have hlos : (a.size % 2 ^ (a.size.size - 1)).size ≤ a.size.size - 1 := Nat.size_le.mpr hlo
  have hhis : (2 ^ (a.size.size - 1) * a).size = (a.size.size - 1) + a.size :=
    size_two_pow_mul _ ha
  have hlsh : lsh 0 (a.size.size - 1) a = .ok (2 ^ (a.size.size - 1) * a) := by
    rw [lsh_eq (by decide) (isCat_iff.mpr (by omega)) (hloom a (by omega)) (by
      rw [Roomy, Hoon.met_zero]
      omega), Hoon.lsh_zero]
  have hcat : ∀ z : Nat, z.size = (a.size.size - 1) + a.size →
      cat 0 (2 ^ a.size.size) z = .ok (2 ^ a.size.size + 2 ^ (2 ^ a.size.size).size * z) := by
    intro z hz
    rw [cat_eq (by decide) (hloom _ (by rw [Nat.size_pow]; omega)) (hloom z (by omega)) (by
      rw [Roomy, Hoon.met_zero, Hoon.met_zero, Nat.size_pow]
      omega), Hoon.cat_zero]
  rw [mat_pos ha, mat, if_neg (Nat.ne_of_gt ha), met_zero (by omega : a.size < 2 ^ 32)]
  simp only
  rw [met_zero (by omega : a.size.size < 2 ^ 32), dec_eq hc, ok_bind, bex_eq (by omega), ok_bind,
    end_zero_eq (by omega), ok_bind, hlsh, ok_bind, mix_eq (by omega) (by omega), ok_bind,
    xor_shift hlo, hcat _ hsz, ok_bind, Nat.size_pow]
  rfl

theorem mat_eq {a : Nat} (h : (Hoon.mat a).1 < 2 ^ 31) : mat a = .ok (Hoon.mat a) :=
  mat_roomy (by omega)

/-- The loop of `rub` counts as the loop of `++rub` does and gives up at the
same bit: `++rub` stops as soon as its count passes the bound, `rub` as soon as
it also finds a zero there, and past the end every bit is zero. -/
theorem rubLoop_eq {b : Nat} (hb : b.size < 2 ^ 31) (a : Nat) :
    ∀ c, rubLoop b (a + b.size) (a + c) =
      (ofHoon (Hoon.rubLoop a b b.size c) >>= fun c => .ok (a + c)) := by
  intro c
  induction c using Hoon.rubLoop.induct a b b.size with
  | case1 c hm =>
      have hz : field b (a + c) 1 = 0 := field_of_size_le (by omega) 1
      rw [rubLoop, cut_zero_eq hb, Hoon.rubLoop, if_pos hm]
      simp only
      rw [if_pos hz, if_pos (by omega)]
      rfl
  | case2 c hm hset =>
      rw [Hoon.rubLoop, if_neg hm, if_pos hset]
      rw [Hoon.cut_zero] at hset
      rw [rubLoop, cut_zero_eq hb]
      simp only
      rw [if_neg hset]
      rfl
  | case3 c hm hset ih =>
      rw [Hoon.rubLoop, if_neg hm, if_neg hset]
      rw [Hoon.cut_zero, not_not] at hset
      rw [rubLoop, cut_zero_eq hb]
      simp only
      rw [if_pos hset, if_neg (by omega)]
      exact ih

/-- A count that `++rub` returns is within its bound. -/
theorem rubLoop_le {a b m c k : Nat} (h : Hoon.rubLoop a b m k = some c) : c ≤ m := by
  induction k using Hoon.rubLoop.induct a b m with
  | case1 k hm =>
      rw [Hoon.rubLoop, if_pos hm] at h
      cases h
  | case2 k hm hset =>
      rw [Hoon.rubLoop, if_neg hm, if_pos hset] at h
      cases h
      exact Nat.le_of_not_lt hm
  | case3 k hm hset ih =>
      rw [Hoon.rubLoop, if_neg hm, if_neg hset] at h
      exact ih h

/-- `rub` agrees with `++rub` at every position, crashes included. -/
theorem rub_eq {b : Nat} (hb : b.size < 2 ^ 31) (a : Nat) :
    rub a b = ofHoon (Hoon.rub a b) := by
  have hloop := rubLoop_eq hb a 0
  rw [Nat.add_zero] at hloop
  rw [rub, Hoon.rub, u2Met_zero (by omega), if_pos (isCat_iff.mpr hb), ok_bind]
  simp only [Hoon.met_zero]
  rw [hloop]
  cases hc : Hoon.rubLoop a b b.size 0 with
  | none => rfl
  | some c =>
      have hle := rubLoop_le hc
      simp only [ofHoon, ok_bind, Option.bind_eq_bind, Option.bind_some]
      rcases Nat.eq_zero_or_pos c with rfl | hpos
      · rw [if_pos (Nat.add_zero a), if_pos rfl]
        rfl
      · rw [if_neg (by omega), if_neg (by omega), sub_eq (by omega), ok_bind,
          Nat.add_sub_cancel_left, dec_eq hpos, ok_bind, bex_eq (by omega), ok_bind,
          cut_zero_eq hb, ok_bind, cut_zero_eq hb, ok_bind, Hoon.bex_eq, Hoon.cut_zero,
          Hoon.cut_zero, Nat.add_assoc a c 1]
        rfl

/-! ### `jam` -/

theorem jamInFlat_eq {x : Nat} (l : List (Nat × Nat)) (h : (flat x).1 < 2 ^ 31) :
    jamInFlat x l = .ok ((flat x).1, flat x :: l) := by
  rw [flat] at h
  simp only at h
  rw [jamInFlat, mat_eq (by omega), ok_bind, lsh_zero_eq (by rw [size_mat]; exact h), ok_bind]
  rfl

theorem jamInPtr_eq {c : Nat} (l : List (Nat × Nat)) (h : (ptr c).1 < 2 ^ 31) :
    jamInPtr c l = .ok ((ptr c).1, ptr c :: l) := by
  rw [ptr] at h
  simp only at h
  have hsize : (2 ^ 2 * (Hoon.mat c).2).size = 2 + (Hoon.mat c).1 := by
    rw [size_two_pow_mul 2 (mat_snd_pos c), size_mat]
  have hthree : (3 : Nat).size < 2 ^ 32 := Nat.lt_of_le_of_lt (Nat.size_le.mpr
    (by decide : 3 < 2 ^ 2)) (by decide)
  rw [jamInPtr, mat_eq (by omega), ok_bind, lsh_zero_eq (by rw [size_mat]; exact h), ok_bind]
  simp only
  rw [mix_eq hthree (by omega), ok_bind, xor_shift (by decide)]
  rfl

/-- What `_jam_in` may rely on about the table it is called with: positions lie
below the cursor and the atoms in it have been written out. -/
structure TableOk (mug : Noun → Nat) (tm : Nash Nat) (m : Dict) (b : Nat) : Prop where
  reads : tm.Reads mug m
  below : ∀ k pos, m k = some pos → pos < b
  short : ∀ x pos, m (.atom x) = some pos → x.size < 2 ^ 31

variable {mug : Noun → Nat}

theorem tableOk_make (mug : Noun → Nat) : TableOk mug Nash.make (fun _ => none) 0 :=
  ⟨Nash.reads_make mug, fun _ _ h => absurd h (by simp), fun _ _ h => absurd h (by simp)⟩

theorem TableOk.put {tm : Nash Nat} {m : Dict} {b b' : Nat} (h : TableOk mug tm m b)
    (a : Noun) (hb : b < b') (ha : ∀ x, a = .atom x → x.size < 2 ^ 31) :
    TableOk mug (tm.put mug a b) (Function.update m a (some b)) b' := by
  refine ⟨h.reads.put a b, ?_, ?_⟩
  · intro k pos hk
    rcases update_entry hk with ⟨-, rfl⟩ | hk
    · exact hb
    · exact Nat.lt_trans (h.below k pos hk) hb
  · intro x pos hk
    rcases update_entry hk with ⟨he, -⟩ | hk
    · exact ha x he.symm
    · exact h.short x pos hk

theorem TableOk.advance {tm : Nash Nat} {m : Dict} {b b' : Nat} (h : TableOk mug tm m b)
    (hb : b ≤ b') : TableOk mug tm m b' :=
  ⟨h.reads, fun k pos hk => Nat.lt_of_lt_of_le (h.below k pos hk) hb, h.short⟩

/-- What a call of `_jam_in` that emits `e` returns. -/
def JamInOf (mug : Noun → Nat) (r : Jet JamIn) (b : Nat) (l : List (Nat × Nat)) (e : Emit) :
    Prop :=
  ∃ tm, r = .ok ⟨width e.pieces, e.pieces.reverse ++ l, tm⟩ ∧
    TableOk mug tm e.dict (b + width e.pieces)

theorem jamInOf_flat {tm : Nash Nat} {m : Dict} {b x : Nat} {l : List (Nat × Nat)}
    (h : TableOk mug tm m (b + width [flat x])) (hw : width [flat x] < 2 ^ 31) :
    JamInOf mug (jamInFlat x l >>= fun r => .ok ⟨r.1, r.2, tm⟩) b l ⟨[flat x], m⟩ := by
  refine ⟨tm, ?_, h⟩
  rw [width_single] at hw
  rw [jamInFlat_eq l hw, ok_bind, width_single]
  rfl

theorem jamInOf_ptr {tm : Nash Nat} {m : Dict} {b c : Nat} {l : List (Nat × Nat)}
    (h : TableOk mug tm m b) (hw : width [ptr c] < 2 ^ 31) :
    JamInOf mug (jamInPtr c l >>= fun r => .ok ⟨r.1, r.2, tm⟩) b l ⟨[ptr c], m⟩ := by
  refine ⟨tm, ?_, h.advance (Nat.le_add_right _ _)⟩
  rw [width_single] at hw
  rw [jamInPtr_eq l hw, ok_bind, width_single]
  rfl

theorem size_lt_of_flat {x : Nat} (h : width [flat x] < 2 ^ 31) : x.size < 2 ^ 31 := by
  have hle := size_le_mat_fst x
  rw [width_single, flat] at h
  simp only at h
  omega

theorem size_lt_of_lt {c : Nat} (h : c < 2 ^ 31) : c.size < 2 ^ 32 :=
  Nat.lt_of_le_of_lt (Nat.size_le.mpr h) (by decide)

/-- `_jam_in` follows the format while the stream is short enough. -/
theorem jamIn_emit (a : Noun) :
    ∀ (b : Nat) (l : List (Nat × Nat)) (tm : Nash Nat) (m : Dict), TableOk mug tm m b →
      b + width (emit a b m).pieces < 2 ^ 31 →
      JamInOf mug (jamIn mug a b l tm) b l (emit a b m) := by
  induction a with
  | atom x =>
      intro b l tm m ht hb
      rw [jamIn, ht.reads]
      cases hm : m (.atom x) with
      | none =>
          rw [emit_atom_new hm] at hb ⊢
          simp only at hb ⊢
          have hpos : b < b + width [flat x] := by
            rw [width_single]
            exact Nat.lt_add_of_pos_right (flat_fst_pos x)
          have hx : x.size < 2 ^ 31 := size_lt_of_flat (by omega)
          refine jamInOf_flat (ht.put (.atom x) hpos ?_) (by omega)
          intro y hy
          rwa [← Noun.atom.inj hy]
      | some c =>
          have hxs := ht.short x c hm
          have hcs := size_lt_of_lt (Nat.lt_trans (ht.below _ c hm) (by omega))
          rw [emit, hm] at hb ⊢
          simp only at hb ⊢
          rw [u2Met_zero (by omega), u2Met_zero hcs]
          by_cases hx : x.size ≤ c.size
          · rw [if_pos hx] at hb ⊢
            rw [if_pos hx]
            simp only at hb
            exact jamInOf_flat (ht.advance (Nat.le_add_right _ _)) (by omega)
          · rw [if_neg hx] at hb ⊢
            rw [if_neg hx]
            simp only at hb
            exact jamInOf_ptr ht (by omega)
  | cell h t ihh iht =>
      intro b l tm m ht hb
      rw [jamIn, ht.reads]
      cases hm : m (.cell h t) with
      | none =>
          rw [emit_cell_new hm] at hb ⊢
          simp only [width_cons, width_append] at hb ⊢
          have hput := ht.put (.cell h t) (by omega : b < 2 + b) fun _ e => by cases e
          have hhead : JamInOf mug (jamIn mug h (2 + b) ((2, 1) :: l) _) (2 + b)
              ((2, 1) :: l) (emitHead h t b m) :=
            ihh (2 + b) ((2, 1) :: l) _ _ hput (by simp only [emitHead] at hb; omega)
          obtain ⟨tmd, hd, htd⟩ := hhead
          have htail : JamInOf mug (jamIn mug t (2 + b + width (emitHead h t b m).pieces)
              ((emitHead h t b m).pieces.reverse ++ (2, 1) :: l) tmd) _ _ (emitTail h t b m) :=
            iht _ _ _ _ htd (by simp only [emitTail] at hb; omega)
          obtain ⟨tme, he, hte⟩ := htail
          refine ⟨tme, ?_, hte.advance ?_⟩
          · rw [hd, ok_bind]
            simp only
            rw [he, ok_bind]
            simp only [width_cons, width_append, List.reverse_cons, List.reverse_append,
              List.append_assoc, List.singleton_append]
            rfl
          · rw [width_cons, width_append]
            omega
      | some c =>
          rw [emit, hm] at hb ⊢
          exact jamInOf_ptr ht (by simp only at hb; omega)

/-- `jam` agrees with `++jam` on every noun whose jam has fewer than `2^31` bits. -/
theorem jam_eq (mug mug' : Noun → Nat) {n : Noun} (h : (Hoon.jam mug' n).size < 2 ^ 31) :
    jam mug n = .ok (Hoon.jam mug' n) := by
  rw [Hoon.size_jam] at h
  obtain ⟨tm, hr, -⟩ := jamIn_emit n 0 [] _ _ (tableOk_make mug) (by omega)
  rw [jam, hr, ok_bind]
  simp only [List.append_nil, List.reverse_reverse]
  rw [can_zero_eq h, Hoon.jam_eq]

/-! ### `cue` -/

/-- What `_cue_in` returns where the format decodes to `d`. -/
def CueInOf (mug : Noun → Nat) (r : Jet CueIn) : Option Decoded → Prop
  | none => r = .error .exit
  | some d => ∃ tr, r = .ok ⟨d.len, d.noun, tr⟩ ∧ tr.Reads mug d.seen

/-- `_cue_in` at a bit that is clear. -/
theorem cueIn_atom {a b : Nat} {tr : Nash Noun} (h : cut 0 b 1 a = .ok 0) :
    cueIn mug a b tr = (rub (b + 1) a >>= fun c =>
      .ok ⟨c.1 + 1, .atom c.2, tr.put mug (.atom b) (.atom c.2)⟩) := by
  rw [cueIn]
  split
  · rename_i e he
    rw [h] at he
    cases he
  · rename_i z hz
    rw [h] at hz
    cases hz
    rfl

/-- `_cue_in` at a bit that is set: a cell or a back-reference. -/
theorem cueIn_tagged {a b z : Nat} {tr : Nash Noun} (h : cut 0 b 1 a = .ok z) (hz : ¬z = 0) :
    cueIn mug a b tr = (cut 0 (b + 1) 1 a >>= fun z =>
      if z = 0 then
        cueIn mug a (2 + b) tr >>= fun u => cueIn mug a (u.p + (2 + b)) u.tr >>= fun v =>
          .ok ⟨2 + (u.p + v.p), .cell u.q v.q, v.tr.put mug (.atom b) (.cell u.q v.q)⟩
      else
        rub (2 + b) a >>= fun d =>
          match tr.get mug (.atom d.2) with
          | none => .error .exit
          | some x => .ok ⟨2 + d.1, x, tr⟩) := by
  rw [cueIn]
  split
  · rename_i e he
    rw [h] at he
    cases he
  · rename_i y hy
    rw [h] at hy
    cases hy
    rw [dif_neg hz]
    rfl

/-- `_cue_in` follows the format on every atom of fewer than `2^31` bits, well
formed or not. -/
theorem cueIn_decode {a : Nat} (ha : a.size < 2 ^ 31) (b : Nat) (tr : Nash Noun)
    (m : Noun → Option Noun) (h : tr.Reads mug m) :
    CueInOf mug (cueIn mug a b tr) (decode a b m) := by
  induction b, m using decode.induct a generalizing tr with
  | case1 b m hbit =>
      have hcut : cut 0 b 1 a = .ok 0 := by rw [cut_zero_eq ha, hbit]
      rw [cueIn_atom hcut, rub_eq ha, decode, dif_pos hbit]
      cases Hoon.rub (b + 1) a with
      | none => rfl
      | some c => exact ⟨_, rfl, h.put _ _⟩
  | case2 b m hbit hnext ihu ihv =>
      rw [cueIn_tagged (cut_zero_eq ha b 1) hbit, cut_zero_eq ha, ok_bind, if_pos hnext,
        decode, dif_neg hbit, if_pos hnext]
      have hu := ihu tr h
      revert hu
      cases decode a (2 + b) m with
      | none =>
          intro hu
          rw [show cueIn mug a (2 + b) tr = .error .exit from hu, error_bind]
          rfl
      | some u =>
          rintro ⟨tru, hru, hu⟩
          rw [hru, ok_bind]
          simp only [Option.bind_eq_bind, Option.bind_some]
          have hv := ihv u tru hu
          revert hv
          cases decode a (u.len + (2 + b)) u.seen with
          | none =>
              intro hv
              rw [show cueIn mug a (u.len + (2 + b)) tru = .error .exit from hv, error_bind]
              rfl
          | some v =>
              rintro ⟨trv, hrv, hv⟩
              rw [hrv, ok_bind]
              exact ⟨_, rfl, hv.put _ _⟩
  | case3 b m hbit hnext =>
      rw [cueIn_tagged (cut_zero_eq ha b 1) hbit, cut_zero_eq ha, ok_bind, if_neg hnext,
        decode, dif_neg hbit, if_neg hnext, rub_eq ha]
      cases Hoon.rub (2 + b) a with
      | none => rfl
      | some d =>
          simp only [ofHoon, ok_bind, Option.bind_eq_bind, Option.bind_some]
          rw [h (.atom d.2)]
          cases m (.atom d.2) with
          | none => rfl
          | some w => exact ⟨tr, rfl, h⟩

/-- `cue` agrees with `++cue` on every atom of fewer than `2^31` bits: the same
noun, or an exit where `++cue` crashes. -/
theorem cue_eq (mug mug' : Noun → Nat) {a : Nat} (h : a.size < 2 ^ 31) :
    cue mug a = ofHoon (Hoon.cue mug' a) := by
  have hd := cueIn_decode h 0 Nash.make _ (Nash.reads_make mug)
  rw [cue, Hoon.cue_eq]
  revert hd
  cases decode a 0 (fun _ => none) with
  | none =>
      intro hd
      rw [show cueIn mug a 0 Nash.make = .error .exit from hd]
      rfl
  | some d =>
      rintro ⟨tr, hr, -⟩
      rw [hr]
      rfl

/-! ### Past the bound -/

/-- The width `mat` returns covers the atom. -/
theorem met_le_mat {a : Nat} {d : Nat × Nat} (ha : ¬a = 0) (h : mat a = .ok d) :
    met 0 a ≤ d.1 := by
  rw [mat, if_neg ha] at h
  obtain ⟨u, -, h⟩ := bind_ok h
  obtain ⟨w, -, h⟩ := bind_ok h
  obtain ⟨x, -, h⟩ := bind_ok h
  obtain ⟨y, -, h⟩ := bind_ok h
  obtain ⟨z, -, h⟩ := bind_ok h
  obtain ⟨q, -, h⟩ := bind_ok h
  cases h
  exact Nat.le_add_left _ _

/-- `jam` gives no result on an atom whose length is not a direct atom: `can`
refuses its piece. -/
theorem jam_atom_wide {a : Nat} (ha : ¬a = 0) (h : 2 ^ 31 ≤ met 0 a) (v : Nat) :
    jam mug (.atom a) ≠ .ok v := by
  intro hv
  obtain ⟨x, hx, hcan⟩ := bind_ok hv
  obtain ⟨r, hr, hx⟩ := bind_ok (show (jamInFlat a [] >>= fun r => (.ok ⟨r.1, r.2,
    Nash.make.put mug (.atom a) 0⟩ : Jet JamIn)) = .ok x from hx)
  cases hx
  obtain ⟨d, hd, hr⟩ := bind_ok hr
  obtain ⟨y, -, hr⟩ := bind_ok hr
  cases hr
  have hle := met_le_mat ha hd
  have hcat : (!isCat (1 + d.1)) = true := by
    simp only [isCat, Bool.not_eq_true', decide_eq_false_iff_not]
    omega
  rw [can, if_neg (by decide)] at hcan
  obtain ⟨tot, htot, -⟩ := bind_ok hcan
  rw [List.reverse_singleton, canSize, if_pos hcat] at htot
  cases htot

/-- An atom of `2^31 + 1` bits has no jam. -/
theorem jam_two_pow_wide (v : Nat) : jam mug (.atom (2 ^ 2 ^ 31)) ≠ .ok v := by
  have hsize : (2 ^ 2 ^ 31).size = 2 ^ 31 + 1 := Nat.size_pow
  apply jam_atom_wide (Nat.two_pow_pos _).ne'
  rw [met_zero (by rw [hsize]; decide), hsize]
  exact Nat.le_succ _

/-! ### The packers as a pair -/

/-- A noun jams in C as it does in Hoon, and an atom cues in C as it does in
Hoon, crashes included, while the stream has fewer than `2^31` bits. The hashes
of the two sides need not be the same. -/
theorem jets_refine_hoon (mug mug' : Noun → Nat) :
    (∀ n : Noun, (Hoon.jam mug' n).size < 2 ^ 31 → jam mug n = .ok (Hoon.jam mug' n)) ∧
      ∀ a : Nat, a.size < 2 ^ 31 →
        (∀ n, Hoon.cue mug' a = some n → cue mug a = .ok n) ∧
          (Hoon.cue mug' a = none → cue mug a = .error .exit) := by
  refine ⟨fun n h => jam_eq mug mug' h, ?_⟩
  intro a ha
  refine ⟨?_, ?_⟩
  · intro n hn
    rw [cue_eq mug mug' ha, hn]
    rfl
  · intro hn
    rw [cue_eq mug mug' ha, hn]
    rfl

theorem jets_refine_hoon_cell :
    jam (fun _ => 0) (.cell (.atom 0) (.atom 0)) =
      .ok (Hoon.jam (fun _ => 0) (.cell (.atom 0) (.atom 0))) := by
  apply (jets_refine_hoon (fun _ => 0) fun _ => 0).1
  rw [Hoon.size_jam]
  simp [emit, flat, mat_zero, Function.update]

theorem jam_ne_hoon_wide :
    jam (fun _ => 0) (.atom (2 ^ 2 ^ 31)) ≠ .ok (Hoon.jam (fun _ => 0) (.atom (2 ^ 2 ^ 31))) :=
  jam_two_pow_wide _

/-- The C packers are inverse to each other on every noun whose jam has fewer
than `2^31` bits. -/
theorem cue_jam_jets (mug : Noun → Nat) (n : Noun) (h : (Hoon.jam mug n).size < 2 ^ 31) :
    ∃ a, jam mug n = .ok a ∧ cue mug a = .ok n := by
  refine ⟨Hoon.jam mug n, jam_eq mug mug h, ?_⟩
  rw [cue_eq mug mug h, Hoon.cue_jam_hoon]
  rfl

theorem cue_jam_jets_cell :
    ∃ a, jam (fun _ => 0) (.cell (.atom 0) (.atom 0)) = .ok a ∧
      cue (fun _ => 0) a = .ok (.cell (.atom 0) (.atom 0)) := by
  apply cue_jam_jets
  rw [Hoon.size_jam]
  simp [emit, flat, mat_zero, Function.update]

theorem not_cue_jam_wide :
    ¬∃ a, jam (fun _ => 0) (.atom (2 ^ 2 ^ 31)) = .ok a ∧
      cue (fun _ => 0) a = .ok (.atom (2 ^ 2 ^ 31)) := by
  rintro ⟨a, ha, -⟩
  exact jam_two_pow_wide a ha

end Vere.Jets
