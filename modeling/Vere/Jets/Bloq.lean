import Vere.Jets.Chop

/-!
# Vere.Jets.Bloq

The jets that take atoms apart into blocks and put them together, `gen164/3/rsh.c`, `rap.c` and
`rip.c` beside those of `Vere.Jets.Bits`, at every block size.

Each jet sizes its slab in `c3_w` arithmetic. Where the size does not wrap (`Roomy`) it returns
what the arm does. Where it wraps the slab is short by almost `2^32` bits, and none of them
checks: `lsh` returns another atom or writes outside the slab, the others write outside.
-/

namespace Vere.Jets

open Vere.Lib

/-! ### The jets -/

/-- `rsh`: shift `c` right by `b` blocks. -/
def rsh (a b c : Nat) : Jet Nat :=
  if !isCat a || 32 ≤ a then .error .fail
  else if !isCat b then .ok 0
  else
    let len := u2Met a c
    if len ≤ b then .ok 0
    else do
      let s ← chop a b (len - b) 0 (slaq a (len - b)) c
      return malt s

/-- The measuring pass of `rap`: the total must not wrap. -/
def rapSize (a : Nat) : Nat → List Nat → Jet Nat
  | tot, [] => .ok tot
  | tot, q :: cab =>
      let len := u2Met a q
      if c3w (tot + len) < tot then .error .fail
      else rapSize a (c3w (tot + len)) cab

/-- The chopping pass of `rap`. -/
def rapChop (a : Nat) : Nat → List Nat → Slab → Jet Slab
  | _, [], s => .ok s
  | pos, q :: cab, s => do
      let len := u2Met a q
      let s ← chop a 0 len pos s q
      rapChop a (c3w (pos + len)) cab s

/-- `rap`: assemble atoms, each of its own length. -/
def rap (a : Nat) (b : List Nat) : Jet Nat :=
  if !isCat a || 32 ≤ a then .error .exit
  else do
    let tot ← rapSize a 0 b
    if tot = 0 then return 0
    else
      let s ← rapChop a 0 b (slaq a tot)
      return malt s

/-- `u2_atom_word`: the word `w` of an atom. -/
def atomWord (b w : Nat) : Nat := b / 2 ^ (32 * w) % 2 ^ 32

/-- The loop of `rip` for blocks inside a word, from the top block down. -/
def ripBits (a b len : Nat) : Nat → Nat → List Nat → List Nat
  | 0, _, pir => pir
  | n + 1, i, pir =>
      let pat := len - (i + 1)
      let bit := c3w (pat * 2 ^ a)
      let wor := bit / 32
      let sif := bit % 32
      let src := atomWord b wor
      ripBits a b len n (i + 1) (src / 2 ^ sif % 2 ^ 2 ^ a :: pir)

/-- Write the word `w` at place `j` of a slab. -/
def Slab.put (s : Slab) (j w : Nat) : Jet Slab :=
  if j < s.words then
    .ok { s with val := s.val % 2 ^ (32 * j) + 2 ^ (32 * j) * w
            + 2 ^ (32 * (j + 1)) * (s.val / 2 ^ (32 * (j + 1))) }
  else .error .fault

/-- The inner loop of `rip` for blocks of whole words: copy words of `b` from `wut` on. -/
def ripWords (b wut : Nat) : Nat → Nat → Slab → Jet Slab
  | 0, _, s => .ok s
  | n + 1, j, s => do
      let s ← s.put j (atomWord b (c3w (wut + j)))
      ripWords b wut n (j + 1) s

/-- The outer loop of `rip` for blocks of whole words. The top block has only `tub` words. -/
def ripBloqs (san b len tub : Nat) : Nat → Nat → List Nat → Jet (List Nat)
  | 0, _, pir => .ok pir
  | n + 1, i, pir => do
      let pat := len - (i + 1)
      let wut := c3w (pat * 2 ^ san)
      let sap := if i = 0 then tub else 2 ^ san
      let s ← ripWords b wut sap 0 (slab sap)
      ripBloqs san b len tub n (i + 1) (malt s :: pir)

/-- `rip`: disassemble. -/
def rip (a b : Nat) : Jet (List Nat) :=
  if !isCat a || 32 ≤ a then .error .fail
  else if a < 5 then
    let len := u2Met a b
    .ok (ripBits a b len len 0 [])
  else
    let met := u2Met a b
    let len := u2Met 5 b
    let san := a - 5
    let dif := c3w (c3w (met * 2 ^ san) + (2 ^ 32 - len))
    let tub := if dif = 0 then 2 ^ san else c3w (2 ^ san + (2 ^ 32 - dif))
    ripBloqs san b met tub met 0 []

/-- A jet returns what the arm does, or bails. -/
def Right {α : Type} (r : Jet α) (v : α) : Prop :=
  r = .ok v ∨ r = .error .exit ∨ r = .error .fail

theorem Right.ok {α : Type} {r : Jet α} {v w : α} (h : r = .ok w) : Right r v ↔ w = v := by
  simp [Right, h]

theorem Right.fault {α : Type} {r : Jet α} {v : α} (h : r = .error .fault) : ¬Right r v := by
  simp [Right, h]

theorem Right.fail {α : Type} {r : Jet α} (v : α) (h : r = .error .fail) : Right r v :=
  .inr (.inr h)

/-! ### Shifting and slicing -/

/-- What every jet checks of its block size. -/
theorem guard_iff (a : Nat) : ((!isCat a || decide (32 ≤ a)) = true) ↔ 32 ≤ a := by
  simp only [isCat, Bool.or_eq_true, Bool.not_eq_true', decide_eq_false_iff_not,
    decide_eq_true_eq]
  omega

/-- Blocks of one atom, copied into a slab of their own. -/
theorem slice_eq {a n : Nat} (b c : Nat) (hf : (b + n) * 2 ^ a ≤ 2 ^ 32) (hroom : Roomy a n) :
    (do let s ← chop a b n 0 (slaq a n) c; return malt s : Jet Nat)
      = .ok (field c (b * 2 ^ a) (n * 2 ^ a)) := by
  rw [chop_eq c hf (by rw [Nat.zero_add]; exact hroom.le) (slaq_words_lt a n)]
  simp [bind, Except.bind, malt, pure, Except.pure]

theorem hoon_end_eq (a b c : Nat) : Hoon.«end» a b c = field c 0 (b * 2 ^ a) := by
  rw [Hoon.«end», Hoon.bex_eq, Hoon.bex_eq, field, Nat.pow_zero, Nat.div_one, Nat.mul_comm b]

theorem hoon_rsh_eq (a b c : Nat) : Hoon.rsh a b c = c / 2 ^ (b * 2 ^ a) := by
  rw [Hoon.rsh, Hoon.bex_eq, Hoon.bex_eq, Nat.mul_comm b]

theorem hoon_cut_eq (a b c d : Nat) : Hoon.cut a b c d = field d (b * 2 ^ a) (c * 2 ^ a) := by
  rw [Hoon.cut, hoon_end_eq, hoon_rsh_eq, field, field, Nat.pow_zero, Nat.div_one]

theorem met_le' {a b n : Nat} : Hoon.met a b ≤ n ↔ b.size ≤ n * 2 ^ a := by
  rw [Hoon.met_le, ← Nat.size_le, Nat.mul_comm]

theorem met_eq_zero {a b : Nat} : Hoon.met a b = 0 ↔ b = 0 := by
  rw [← Nat.le_zero, met_le', Nat.zero_mul, Nat.le_zero, Nat.size_eq_zero]

theorem met_lt {a b : Nat} (ha : a < 32) (h : InLoom b) : Hoon.met a b < 2 ^ 32 := by
  have hmul := met_mul_le ha h
  cases a with
  | zero =>
      have hsize := h.size_le
      rw [Hoon.met_zero]
      omega
  | succ a =>
      have hpow : 2 ≤ 2 ^ (a + 1) := Nat.le_self_pow (Nat.succ_ne_zero a) 2
      have htwice := Nat.mul_le_mul_left (Hoon.met (a + 1) b) hpow
      omega

/-- Fewer blocks than an atom has are fewer bits than the loom has. -/
theorem roomy_of_lt {a n c : Nat} (hc : InLoom c) (h : n < Hoon.met a c) : Roomy a n := by
  have hlt := mul_lt_size h
  have hsize := hc.size_le
  rw [Roomy]
  omega

theorem end_eq {a b c : Nat} (ha : a < 32) (hb : isCat b = true) (hc : InLoom c) :
    «end» a b c = .ok (Hoon.«end» a b c) := by
  have hguard : ¬(!isCat a || decide (32 ≤ a)) = true := by
    rw [guard_iff]
    omega
  rw [hoon_end_eq, «end», if_neg hguard, if_neg (by simpa using hb), u2Met_eq ha hc]
  simp only
  by_cases hzero : b = 0
  · simp [hzero]
  rw [if_neg hzero]
  by_cases hlen : Hoon.met a c ≤ b
  · rw [if_pos hlen, field_self (Nat.size_le.mp (met_le'.mp hlen))]
  · have hlt : b < Hoon.met a c := Nat.lt_of_not_le hlen
    have hroom := roomy_of_lt hc hlt
    rw [if_neg hlen, slice_eq 0 c (by rw [Nat.zero_add]; exact hroom.mul_le) hroom,
      Nat.zero_mul]

/-- `end` is right unless the count is not a direct atom and the atom is longer. -/
theorem end_right {a b c : Nat} (hc : InLoom c) :
    Right («end» a b c) (Hoon.«end» a b c) ↔ 32 ≤ a ∨ isCat b = true ∨ Hoon.met a c ≤ b := by
  by_cases ha : 32 ≤ a
  · refine iff_of_true (Right.fail _ ?_) (.inl ha)
    rw [«end», if_pos ((guard_iff a).mpr ha)]
  by_cases hb : isCat b = true
  · exact iff_of_true (.inl (end_eq (Nat.lt_of_not_le ha) hb hc)) (.inr (.inl hb))
  · have hend : «end» a b c = .ok c := by
      rw [«end», if_neg (by rwa [guard_iff]), if_pos (by simpa using hb)]
    rw [Right.ok hend, Hoon.met_le, Hoon.«end», Hoon.bex_eq, Hoon.bex_eq]
    constructor
    · intro h
      rw [h]
      exact .inr (.inr (Nat.mod_lt _ (Nat.two_pow_pos _)))
    · rintro (h | h | h)
      · exact absurd h ha
      · exact absurd h hb
      · exact (Nat.mod_eq_of_lt h).symm

theorem rsh_eq {a b c : Nat} (ha : a < 32) (hb : isCat b = true) (hc : InLoom c)
    (h : Hoon.met a c ≤ b ∨ Roomy a (Hoon.met a c - b)) :
    rsh a b c = .ok (Hoon.rsh a b c) := by
  have hguard : ¬(!isCat a || decide (32 ≤ a)) = true := by
    rw [guard_iff]
    omega
  rw [hoon_rsh_eq, rsh, if_neg hguard, if_neg (by simpa using hb), u2Met_eq ha hc]
  simp only
  by_cases hlen : Hoon.met a c ≤ b
  · rw [if_pos hlen, Nat.div_eq_of_lt (Nat.size_le.mp (met_le'.mp hlen))]
  · have hsum : b + (Hoon.met a c - b) = Hoon.met a c := by omega
    rw [if_neg hlen, slice_eq b c (by rw [hsum]; exact met_mul_le ha hc) (h.resolve_left hlen),
      field_clip]
    rw [← Nat.add_mul, hsum]
    exact met_le'.mp (Nat.le_refl _)

/-- Where the slab wraps it has no words at all: an atom of the loom has no more than `2^32` bits
in blocks. -/
theorem rsh_over {a b c : Nat} (ha : a < 32) (hb : isCat b = true) (hc : InLoom c)
    (hlen : b < Hoon.met a c) (hroom : ¬Roomy a (Hoon.met a c - b)) :
    rsh a b c = .error .fault := by
  have hwrap := slaq_wraps hroom
  have hmet := met_mul_le ha hc
  have hpos : 0 < (Hoon.met a c - b) * 2 ^ a := Nat.mul_pos (by omega) (Nat.two_pow_pos a)
  have hle : (Hoon.met a c - b) * 2 ^ a ≤ Hoon.met a c * 2 ^ a :=
    Nat.mul_le_mul_right _ (Nat.sub_le _ _)
  rw [rsh, if_neg (by rw [guard_iff]; omega), if_neg (by simpa using hb), u2Met_eq ha hc]
  simp only
  rw [if_neg (by omega), chop_over b c (by rw [Nat.zero_mul]; exact Nat.zero_le _)
    (by rw [Nat.zero_add]; omega) (slaq_words_lt a _)]
  rfl

/-- `rsh` is right if the shift leaves nothing, or if it is a direct atom and the slab for what
it leaves does not wrap. -/
theorem rsh_right {a b c : Nat} (hc : InLoom c) :
    Right (rsh a b c) (Hoon.rsh a b c) ↔
      32 ≤ a ∨ Hoon.met a c ≤ b ∨ (isCat b = true ∧ Roomy a (Hoon.met a c - b)) := by
  by_cases ha : 32 ≤ a
  · refine iff_of_true (Right.fail _ ?_) (.inl ha)
    rw [rsh, if_pos ((guard_iff a).mpr ha)]
  have ha' : a < 32 := Nat.lt_of_not_le ha
  by_cases hb : isCat b = true
  · by_cases h : Hoon.met a c ≤ b ∨ Roomy a (Hoon.met a c - b)
    · exact iff_of_true (.inl (rsh_eq ha' hb hc h)) (.inr (h.imp_right fun h => ⟨hb, h⟩))
    · obtain ⟨hlen, hroom⟩ := not_or.mp h
      refine iff_of_false (Right.fault (rsh_over ha' hb hc (Nat.lt_of_not_le hlen) hroom)) ?_
      rintro (h' | h' | ⟨-, h'⟩)
      · exact ha h'
      · exact hlen h'
      · exact hroom h'
  · have hrsh : rsh a b c = .ok 0 := by
      rw [rsh, if_neg (by rwa [guard_iff]), if_pos (by simpa using hb)]
    rw [Right.ok hrsh, hoon_rsh_eq, eq_comm, Nat.div_eq_zero_iff_lt (Nat.two_pow_pos _),
      ← Nat.size_le, ← met_le']
    constructor
    · exact fun h => .inr (.inl h)
    · rintro (h | h | ⟨h, -⟩)
      · exact absurd h ha
      · exact h
      · exact absurd h hb

theorem cutSpan_lt (c : Nat) : cutSpan c < 2 ^ 31 := by
  unfold cutSpan
  by_cases hc : isCat c = true
  · rw [if_pos hc]
    exact isCat_iff.mp hc
  · rw [if_neg hc]
    decide

/-- Stopping at the top block does not change what is read. -/
theorem cutTrim_spec {a b c d : Nat} (hb : b < Hoon.met a d) (hbc : b + c < 2 ^ 32) :
    b + cutTrim (Hoon.met a d) b c ≤ Hoon.met a d
      ∧ field d (b * 2 ^ a) (cutTrim (Hoon.met a d) b c * 2 ^ a)
        = field d (b * 2 ^ a) (c * 2 ^ a) := by
  unfold cutTrim
  rw [c3w_of_lt hbc]
  by_cases hlt : Hoon.met a d < b + c
  · have hsum : b + (Hoon.met a d - b) = Hoon.met a d := by omega
    rw [if_pos hlt]
    refine ⟨hsum.le, ?_⟩
    rw [field_clip, field_clip]
    · rw [← Nat.add_mul]
      exact met_le'.mp hlt.le
    · rw [← Nat.add_mul, hsum]
      exact met_le'.mp (Nat.le_refl _)
  · rw [if_neg hlt]
    exact ⟨by omega, rfl⟩

/-- `cut` from a block that is a direct atom on: no more blocks than a direct atom counts. -/
theorem cut_span {a b d : Nat} (ha : a < 32) (hb : isCat b = true) (hd : InLoom d) (c : Nat) :
    cut a b c d = .ok (field d (b * 2 ^ a) (cutSpan c * 2 ^ a)) := by
  have hspan := cutSpan_lt c
  have hb' : b < 2 ^ 31 := isCat_iff.mp hb
  rw [cut, if_neg (by rw [guard_iff]; omega), if_neg (by simpa using hb), u2Met_eq ha hd]
  simp only
  by_cases hz : cutSpan c = 0 ∨ Hoon.met a d ≤ b
  · rw [if_pos hz]
    rcases hz with hz | hz
    · simp [hz]
    · rw [field_of_size_le (met_le'.mp hz)]
  rw [if_neg hz]
  have hlt : b < Hoon.met a d := Nat.lt_of_not_le (not_or.mp hz).2
  obtain ⟨hin, htrim⟩ := cutTrim_spec hlt (by omega : b + cutSpan c < 2 ^ 32)
  rw [← htrim]
  by_cases hall : b = 0 ∧ cutTrim (Hoon.met a d) b (cutSpan c) = Hoon.met a d
  · rw [if_pos hall, hall.2, hall.1, Nat.zero_mul,
      field_self (Nat.size_le.mp (met_le'.mp (Nat.le_refl _)))]
  · rw [if_neg hall]
    exact slice_eq b d ((Nat.mul_le_mul_right _ hin).trans (met_mul_le ha hd))
      (roomy_of_lt hd (by omega))

/-- `cut` is right on counts that are direct atoms, and on others if there is nothing in the
blocks that it leaves out. -/
theorem cut_right {a b c d : Nat} (hd : InLoom d) :
    Right (cut a b c d) (Hoon.cut a b c d) ↔
      32 ≤ a ∨ (isCat b = true ∧ isCat c = true)
        ∨ (isCat b = false ∧ field d (b * 2 ^ a) (c * 2 ^ a) = 0)
        ∨ (isCat b = true ∧ isCat c = false
          ∧ field d ((b + 0x7fffffff) * 2 ^ a) ((c - 0x7fffffff) * 2 ^ a) = 0) := by
  by_cases ha : 32 ≤ a
  · refine iff_of_true (Right.fail _ ?_) (.inl ha)
    rw [cut, if_pos ((guard_iff a).mpr ha)]
  have ha' : a < 32 := Nat.lt_of_not_le ha
  rw [hoon_cut_eq]
  cases hb : isCat b with
  | false =>
      have hcut : cut a b c d = .ok 0 := by
        rw [cut, if_neg (by rwa [guard_iff]), if_pos (by simp [hb])]
      rw [Right.ok hcut, eq_comm (a := 0)]
      simp [ha]
  | true =>
      rw [Right.ok (cut_span ha' hb hd c)]
      cases hc : isCat c with
      | true => simp [cutSpan, hc]
      | false =>
          have hle : 2 ^ 31 ≤ c := by simpa [isCat] using hc
          obtain ⟨e, rfl⟩ : ∃ e, c = 0x7fffffff + e := ⟨c - 0x7fffffff, by omega⟩
          rw [cutSpan, if_neg (by simp [hc]), Nat.add_mul 0x7fffffff, field_add, ← Nat.add_mul,
            Nat.add_sub_cancel_left]
          simp [ha]

theorem lsh_eq {a b c : Nat} (ha : a < 32) (hb : isCat b = true) (hc : InLoom c)
    (hroom : Roomy a (b + Hoon.met a c)) : lsh a b c = .ok (Hoon.lsh a b c) := by
  rw [lsh, if_neg (by rw [guard_iff]; omega), if_neg (by simpa using hb), u2Met_eq ha hc]
  simp only
  by_cases hlen : Hoon.met a c = 0
  · rw [if_pos hlen, met_eq_zero.mp hlen]
    simp [Hoon.lsh]
  have hmet := met_mul_le ha hc
  have hsum : b + Hoon.met a c ≤ (b + Hoon.met a c) * 2 ^ a :=
    Nat.le_mul_of_pos_right _ (Nat.two_pow_pos a)
  have hlt : (b + Hoon.met a c) * 2 ^ a + 31 < 2 ^ 32 := hroom
  have hself : field c 0 (Hoon.met a c * 2 ^ a) = c :=
    field_self (Nat.size_le.mp (met_le'.mp (Nat.le_refl _)))
  rw [if_neg hlen, c3w_of_lt (by omega), if_neg (by omega),
    chop_eq c (by rwa [Nat.zero_add]) hroom.le (slaq_words_lt a _), Nat.zero_mul, hself]
  simp [bind, Except.bind, malt, pure, Except.pure, Hoon.lsh, Nat.mul_comm b]

/-- `lsh` is right if it refuses the shift, if there is nothing to shift, or if the slab for what
it makes does not wrap. -/
theorem lsh_right {a b c : Nat} (hc : InLoom c) :
    Right (lsh a b c) (Hoon.lsh a b c) ↔
      32 ≤ a ∨ isCat b = false ∨ c = 0 ∨ 2 ^ 32 ≤ b + Hoon.met a c
        ∨ Roomy a (b + Hoon.met a c) := by
  by_cases ha : 32 ≤ a
  · refine iff_of_true (Right.fail _ ?_) (.inl ha)
    rw [lsh, if_pos ((guard_iff a).mpr ha)]
  have ha' : a < 32 := Nat.lt_of_not_le ha
  cases hb : isCat b with
  | false =>
      refine iff_of_true (Right.fail _ ?_) (.inr (.inl rfl))
      rw [lsh, if_neg (by rwa [guard_iff]), if_pos (by simp [hb])]
  | true =>
  by_cases hroom : Roomy a (b + Hoon.met a c)
  · exact iff_of_true (.inl (lsh_eq ha' hb hc hroom)) (.inr (.inr (.inr (.inr hroom))))
  have hb' : b < 2 ^ 31 := isCat_iff.mp hb
  rw [lsh, if_neg (by rwa [guard_iff]), if_neg (by simp [hb]), u2Met_eq ha' hc]
  simp only
  rcases Nat.eq_zero_or_pos c with rfl | hpos
  · refine iff_of_true (.inl ?_) (.inr (.inr (.inl rfl)))
    simp [met_eq_zero.mpr rfl, Hoon.lsh]
  have hlen : Hoon.met a c ≠ 0 := fun h0 => hpos.ne' (met_eq_zero.mp h0)
  have hmet := met_lt ha' hc
  rw [if_neg hlen]
  by_cases hwrap : 2 ^ 32 ≤ b + Hoon.met a c
  · have hless : c3w (b + Hoon.met a c) < Hoon.met a c := by
      rw [c3w]
      omega
    refine iff_of_true (.inr (.inl ?_)) (.inr (.inr (.inr (.inl hwrap))))
    rw [if_pos hless]
  rw [c3w_of_lt (by omega), if_neg (by omega)]
  refine iff_of_false ?_ (by simp only [ha, hpos.ne', hwrap, hroom, reduceCtorEq, or_self,
    not_false_eq_true])
  rcases chop_ends a 0 (Hoon.met a c) b c (s := slaq a (b + Hoon.met a c))
    (Nat.two_pow_pos _) with h | ⟨v, hv, h⟩
  · exact Right.fault (by rw [h]; rfl)
  · -- what the slab holds is below what the shift makes
    rw [Right.ok (w := v) (by rw [h]; rfl)]
    refine Nat.ne_of_lt (hv.trans_le ?_)
    have hshort := slaq_wraps hroom
    have hbits := mul_lt_size (Nat.sub_lt (Nat.pos_of_ne_zero hlen) Nat.one_pos)
    have hpow : 2 ^ a ≤ 2 ^ 31 := Nat.pow_le_pow_right (by decide) (by omega)
    rw [Nat.sub_mul, Nat.one_mul] at hbits
    rw [Nat.add_mul] at hshort
    calc 2 ^ (32 * (slaq a (b + Hoon.met a c)).words)
        ≤ 2 ^ (b * 2 ^ a + (c.size - 1)) := Nat.pow_le_pow_right (by decide) (by omega)
      _ = 2 ^ (b * 2 ^ a) * 2 ^ (c.size - 1) := Nat.pow_add ..
      _ ≤ 2 ^ (b * 2 ^ a) * c := Nat.mul_le_mul_left _ (two_pow_size_pred_le hpos)
      _ = Hoon.lsh a b c := by rw [Hoon.lsh, Hoon.bex_eq, Hoon.bex_eq, Nat.mul_comm b]

/-! ### Putting pieces together -/

/-- The chopping pass leaves what was below its cursor and writes the pieces above it. -/
theorem canChop_eq {a : Nat} :
    ∀ (l : List (Nat × Nat)) (pos : Nat) (s : Slab), (pos + width l) * 2 ^ a ≤ 32 * s.words →
      s.words < 2 ^ 27 → s.val < 2 ^ (pos * 2 ^ a) →
      canChop a pos l s = .ok { s with val := s.val + 2 ^ (pos * 2 ^ a) * Hoon.can a l }
  | [], pos, s, _, _, _ => by simp [canChop]
  | (p, q) :: l, pos, s, hin, hs, hval => by
      rw [width_cons, ← Nat.add_assoc] at hin
      have hpos : 0 < 2 ^ a := Nat.two_pow_pos a
      have hsum : pos + p ≤ (pos + p) * 2 ^ a := Nat.le_mul_of_pos_right _ hpos
      have hpiece : (pos + p) * 2 ^ a ≤ 32 * s.words :=
        (Nat.mul_le_mul_right _ (Nat.le_add_right _ _)).trans hin
      have hsrc : p * 2 ^ a ≤ (pos + p) * 2 ^ a := Nat.mul_le_mul_right _ (Nat.le_add_left _ _)
      rw [canChop, chop_eq q (by rw [Nat.zero_add]; omega) hpiece hs, Nat.zero_mul]
      simp only [bind, Except.bind]
      rw [xor_shift hval, c3w_of_lt (by omega : pos + p < 2 ^ 32)]
      have hlt : s.val + 2 ^ (pos * 2 ^ a) * field q 0 (p * 2 ^ a) < 2 ^ ((pos + p) * 2 ^ a) := by
        have hq := field_lt q 0 (p * 2 ^ a)
        calc s.val + 2 ^ (pos * 2 ^ a) * field q 0 (p * 2 ^ a)
            < 2 ^ (pos * 2 ^ a) + 2 ^ (pos * 2 ^ a) * field q 0 (p * 2 ^ a) := by omega
          _ = 2 ^ (pos * 2 ^ a) * (field q 0 (p * 2 ^ a) + 1) := by ring
          _ ≤ 2 ^ (pos * 2 ^ a) * 2 ^ (p * 2 ^ a) := Nat.mul_le_mul_left _ hq
          _ = 2 ^ ((pos + p) * 2 ^ a) := by rw [← Nat.pow_add, ← Nat.add_mul]
      rw [canChop_eq l (pos + p) _ (by dsimp only; exact hin) (by dsimp only; exact hs) hlt]
      dsimp only
      rw [Hoon.can_cons, field, Nat.pow_zero, Nat.div_one, Nat.add_mul, Nat.pow_add,
        Nat.mul_comm (2 ^ a) p]
      congr 2
      ring

/-- Pieces that do not fit in the slab. -/
theorem canChop_over {a : Nat} :
    ∀ (l : List (Nat × Nat)) (pos : Nat) (s : Slab), pos * 2 ^ a ≤ 32 * s.words →
      32 * s.words < (pos + width l) * 2 ^ a → s.words < 2 ^ 27 →
      canChop a pos l s = .error .fault
  | [], pos, s, hle, hlt, _ => absurd hle (Nat.not_le_of_lt hlt)
  | (p, q) :: l, pos, s, hle, hlt, hs => by
      rw [width_cons, ← Nat.add_assoc] at hlt
      have hsum : pos + p ≤ (pos + p) * 2 ^ a := Nat.le_mul_of_pos_right _ (Nat.two_pow_pos a)
      have hsrc : p * 2 ^ a ≤ (pos + p) * 2 ^ a := Nat.mul_le_mul_right _ (Nat.le_add_left _ _)
      rw [canChop]
      by_cases hpiece : (pos + p) * 2 ^ a ≤ 32 * s.words
      · rw [chop_eq q (by rw [Nat.zero_add]; omega) hpiece hs,
          c3w_of_lt (by omega : pos + p < 2 ^ 32)]
        exact canChop_over l (pos + p) _ hpiece hlt hs
      · rw [chop_over 0 q hle (Nat.lt_of_not_le hpiece) hs]
        rfl

/-- Pieces into a slab that is sized for them. -/
theorem canChop_slaq {a : Nat} {l : List (Nat × Nat)} (hroom : Roomy a (width l)) :
    (do let s ← canChop a 0 l (slaq a (width l)); return malt s : Jet Nat)
      = .ok (Hoon.can a l) := by
  rw [canChop_eq l 0 _ (by rw [Nat.zero_add]; exact hroom.le) (slaq_words_lt a _) (by simp)]
  simp [bind, Except.bind, malt, pure, Except.pure]

theorem canChop_wraps {a : Nat} {l : List (Nat × Nat)} (hroom : ¬Roomy a (width l)) :
    (do let s ← canChop a 0 l (slaq a (width l)); return malt s : Jet Nat) = .error .fault := by
  have hshort := slaq_wraps hroom
  rw [canChop_over l 0 _ (by rw [Nat.zero_mul]; exact Nat.zero_le _)
    (by rw [Nat.zero_add]; omega) (slaq_words_lt a _)]
  rfl

theorem canChop_right (a : Nat) (l : List (Nat × Nat)) :
    Right (do let s ← canChop a 0 l (slaq a (width l)); return malt s : Jet Nat) (Hoon.can a l)
      ↔ Roomy a (width l) := by
  by_cases hroom : Roomy a (width l)
  · exact iff_of_true (.inl (canChop_slaq hroom)) hroom
  · exact iff_of_false (Right.fault (canChop_wraps hroom)) hroom

theorem can_zero_width {a : Nat} {l : List (Nat × Nat)} (h : width l = 0) : Hoon.can a l = 0 := by
  induction l with
  | nil => rfl
  | cons x l ih =>
      rw [width_cons, Nat.add_eq_zero_iff] at h
      rw [← Prod.mk.eta (p := x), Hoon.can_cons, h.1, ih h.2, Nat.mul_zero, Nat.pow_zero,
        Nat.mod_one]

theorem roomy_zero (a : Nat) : Roomy a 0 := by
  rw [Roomy, Nat.zero_mul]
  decide

/-- The measuring pass of `can` accepts the widths that it can count. -/
theorem canSize_cases :
    ∀ (l : List (Nat × Nat)) (tot : Nat), tot < 2 ^ 32 →
      ((∀ x ∈ l, isCat x.1 = true) ∧ tot + width l < 2 ^ 32 → canSize tot l = .ok (tot + width l))
        ∧ (¬((∀ x ∈ l, isCat x.1 = true) ∧ tot + width l < 2 ^ 32) →
          canSize tot l = .error .fail)
  | [], tot, h => by
      rw [canSize, width_nil, Nat.add_zero]
      exact ⟨fun _ => rfl, fun hnot => absurd ⟨by simp, h⟩ hnot⟩
  | (p, q) :: l, tot, h => by
      rw [canSize, width_cons, ← Nat.add_assoc]
      cases hp : isCat p with
      | false => simp [hp]
      | true =>
          have hlt : p < 2 ^ 31 := isCat_iff.mp hp
          rw [if_neg (by simp)]
          by_cases hwrap : tot + p < 2 ^ 32
          · obtain ⟨hok, hfail⟩ := canSize_cases l (tot + p) hwrap
            rw [c3w_of_lt hwrap, if_neg (by omega)]
            refine ⟨fun hall => hok ⟨fun x hx => hall.1 x (List.mem_cons_of_mem _ hx), hall.2⟩,
              fun hnot => hfail fun hall => hnot ⟨fun x hx => ?_, hall.2⟩⟩
            rcases List.mem_cons.mp hx with rfl | hx
            · exact hp
            · exact hall.1 x hx
          · have hless : c3w (tot + p) < tot := by
              rw [c3w]
              omega
            rw [if_pos hless]
            exact ⟨fun hall => absurd hall.2 (by omega), fun _ => rfl⟩

theorem can_eq {a : Nat} {l : List (Nat × Nat)} (ha : a < 32) (hcats : ∀ x ∈ l, isCat x.1 = true)
    (hroom : Roomy a (width l)) : can a l = .ok (Hoon.can a l) := by
  have hwidth : width l ≤ width l * 2 ^ a := Nat.le_mul_of_pos_right _ (Nat.two_pow_pos a)
  have hlt : width l < 2 ^ 32 := Nat.lt_of_le_of_lt (hwidth.trans (Nat.le_add_right _ 31)) hroom
  have hok := (canSize_cases l 0 (by decide)).1
  rw [Nat.zero_add] at hok
  rw [can, if_neg (by rw [guard_iff]; omega), hok ⟨hcats, hlt⟩]
  simp only [bind, Except.bind]
  by_cases hz : width l = 0
  · rw [if_pos hz, can_zero_width hz]
    rfl
  · rw [if_neg hz]
    exact canChop_slaq hroom

theorem can_over {a : Nat} {l : List (Nat × Nat)} (ha : a < 32)
    (hcats : ∀ x ∈ l, isCat x.1 = true) (hlt : width l < 2 ^ 32) (hroom : ¬Roomy a (width l)) :
    can a l = .error .fault := by
  have hok := (canSize_cases l 0 (by decide)).1
  rw [Nat.zero_add] at hok
  rw [can, if_neg (by rw [guard_iff]; omega), hok ⟨hcats, hlt⟩]
  simp only [bind, Except.bind]
  rw [if_neg fun hz => hroom (by rw [hz]; exact roomy_zero a)]
  exact canChop_wraps hroom

theorem canChop_ends (a : Nat) :
    ∀ (l : List (Nat × Nat)) (pos : Nat) (s : Slab), s.val < 2 ^ (32 * s.words) →
      Ends s.words (canChop a pos l s)
  | [], _, s, hs => .inr ⟨s.val, hs, rfl⟩
  | (p, q) :: l, pos, s, hs => by
      rw [canChop]
      refine (chop_ends a 0 p pos q hs).bind fun v hv => ?_
      exact canChop_ends a l _ ⟨s.words, v⟩ hv

/-- Whatever `can` returns fits the loom. -/
theorem inLoom_of_can {a v : Nat} {l : List (Nat × Nat)} (h : can a l = .ok v) : InLoom v := by
  rw [can] at h
  by_cases hguard : (!isCat a || decide (32 ≤ a)) = true
  · rw [if_pos hguard] at h
    cases h
  rw [if_neg hguard] at h
  cases htot : canSize 0 l with
  | error e =>
      rw [htot] at h
      cases h
  | ok tot =>
      simp only [htot, bind, Except.bind, pure, Except.pure] at h
      by_cases hzero : tot = 0
      · rw [if_pos hzero] at h
        cases h
        simp [InLoom, wordLen]
      · rw [if_neg hzero] at h
        have hends : Ends (slaq a tot).words (canChop a 0 l (slaq a tot)) :=
          canChop_ends a l 0 _ (by simp)
        rcases hends with hfault | ⟨w, hw, hok⟩
        · rw [hfault] at h
          cases h
        · rw [hok] at h
          cases h
          have hsize := Nat.size_le.mpr hw
          have hwords := slaq_words_lt a tot
          show (w.size + 31) / 32 < 2 ^ 27
          omega

theorem can_fail {a : Nat} {l : List (Nat × Nat)} (ha : a < 32)
    (h : ¬((∀ x ∈ l, isCat x.1 = true) ∧ width l < 2 ^ 32)) : can a l = .error .fail := by
  have hfail := (canSize_cases l 0 (by decide)).2
  rw [Nat.zero_add] at hfail
  rw [can, if_neg (by rw [guard_iff]; omega), hfail h]
  rfl

/-- `can` is right if it refuses the widths or the slab for them does not wrap. -/
theorem can_right (a : Nat) (l : List (Nat × Nat)) :
    Right (can a l) (Hoon.can a l) ↔
      32 ≤ a ∨ (∃ x ∈ l, isCat x.1 = false) ∨ 2 ^ 32 ≤ width l ∨ Roomy a (width l) := by
  by_cases ha : 32 ≤ a
  · refine iff_of_true (Right.fail _ ?_) (.inl ha)
    rw [can, if_pos ((guard_iff a).mpr ha)]
  have ha' : a < 32 := Nat.lt_of_not_le ha
  by_cases hcats : ∀ x ∈ l, isCat x.1 = true
  swap
  · obtain ⟨x, hx, hp⟩ := not_forall₂.mp hcats
    exact iff_of_true (Right.fail _ (can_fail ha' fun h => hcats h.1))
      (.inr (.inl ⟨x, hx, by simpa using hp⟩))
  by_cases hlt : width l < 2 ^ 32
  swap
  · exact iff_of_true (Right.fail _ (can_fail ha' fun h => hlt h.2))
      (.inr (.inr (.inl (Nat.le_of_not_lt hlt))))
  by_cases hroom : Roomy a (width l)
  · exact iff_of_true (.inl (can_eq ha' hcats hroom)) (.inr (.inr (.inr hroom)))
  · refine iff_of_false (Right.fault (can_over ha' hcats hlt hroom)) ?_
    rintro (h | ⟨x, hx, h⟩ | h | h)
    · exact ha h
    · rw [hcats x hx] at h
      cases h
    · omega
    · exact hroom h

/-- Each atom with its length. -/
def own (a : Nat) (l : List Nat) : List (Nat × Nat) := l.map fun q => (Hoon.met a q, q)

@[simp] theorem own_cons (a q : Nat) (l : List Nat) :
    own a (q :: l) = (Hoon.met a q, q) :: own a l := rfl

theorem cat_own {a b c : Nat} : Hoon.can a (own a [b, c]) = Hoon.cat a b c := by
  rw [own, Hoon.can_own]
  simp [Hoon.rap, Hoon.cat, Hoon.lsh]

/-- The two chops of `cat` are a chopping pass over both atoms. -/
theorem cat_chop {a b : Nat} (ha : a < 32) (hb : InLoom b) (c : Nat) (s : Slab) :
    (do let s ← chop a 0 (Hoon.met a b) 0 s b
        let s ← chop a 0 (Hoon.met a c) (Hoon.met a b) s c
        return malt s : Jet Nat)
      = (do let s ← canChop a 0 (own a [b, c]) s; return malt s : Jet Nat) := by
  rw [own_cons, canChop, Nat.zero_add, c3w_of_lt (met_lt ha hb), own_cons]
  cases chop a 0 (Hoon.met a b) 0 s b with
  | error e => rfl
  | ok t =>
      show (do let s ← chop a 0 (Hoon.met a c) (Hoon.met a b) t c; return malt s : Jet Nat)
        = (do let s ← canChop a (Hoon.met a b) ((Hoon.met a c, c) :: own a []) t; return malt s)
      rw [canChop]
      cases chop a 0 (Hoon.met a c) (Hoon.met a b) t c <;> rfl

/-- `cat` is right if the slab for the two atoms does not wrap. -/
theorem cat_right {a b c : Nat} (hb : InLoom b) (hc : InLoom c) :
    Right (cat a b c) (Hoon.cat a b c) ↔ 32 ≤ a ∨ Roomy a (Hoon.met a b + Hoon.met a c) := by
  by_cases ha : 32 ≤ a
  · refine iff_of_true (Right.fail _ ?_) (.inl ha)
    rw [cat, if_pos ((guard_iff a).mpr ha)]
  have ha' : a < 32 := Nat.lt_of_not_le ha
  have hwidth : width (own a [b, c]) = Hoon.met a b + Hoon.met a c := by simp [own]
  have hiff := canChop_right a (own a [b, c])
  rw [cat_own, hwidth] at hiff
  simp only [ha, false_or]
  rw [cat, if_neg (by rwa [guard_iff]), u2Met_eq ha' hb, u2Met_eq ha' hc]
  simp only
  by_cases hall : c3w (Hoon.met a b + Hoon.met a c) = 0
  · rw [if_pos hall, Right.ok rfl]
    by_cases hzero : Hoon.met a b + Hoon.met a c = 0
    · have hcat : Hoon.cat a b c = 0 := by rw [← cat_own, can_zero_width (hwidth.trans hzero)]
      exact iff_of_true hcat.symm (by rw [hzero]; exact roomy_zero a)
    · -- the number of blocks itself wraps to nothing
      have hlarge : 2 ^ 32 ≤ Hoon.met a b + Hoon.met a c := by
        by_contra hlt
        exact hzero (by rwa [c3w_of_lt (Nat.lt_of_not_le hlt)] at hall)
      refine iff_of_false (fun h => hzero ?_) (fun h => ?_)
      · rw [Hoon.cat, Hoon.lsh, eq_comm, Nat.add_eq_zero_iff, Nat.mul_eq_zero, Hoon.bex_eq] at h
        have hc0 : c = 0 := h.1.resolve_left (Nat.two_pow_pos _).ne'
        rw [h.2, hc0, met_eq_zero.mpr rfl]
      · have hle : Hoon.met a b + Hoon.met a c ≤ (Hoon.met a b + Hoon.met a c) * 2 ^ a :=
          Nat.le_mul_of_pos_right _ (Nat.two_pow_pos a)
        have hroom := h.mul_le
        rw [Roomy] at h
        omega
  · rw [if_neg hall, slaq_c3w, ← hiff, cat_chop ha' hb]

theorem cat_eq {a b c : Nat} (ha : a < 32) (hb : InLoom b) (hc : InLoom c)
    (hroom : Roomy a (Hoon.met a b + Hoon.met a c)) : cat a b c = .ok (Hoon.cat a b c) := by
  have hwidth : width (own a [b, c]) = Hoon.met a b + Hoon.met a c := by simp [own]
  have hle : Hoon.met a b + Hoon.met a c ≤ (Hoon.met a b + Hoon.met a c) * 2 ^ a :=
    Nat.le_mul_of_pos_right _ (Nat.two_pow_pos a)
  have hlt : Hoon.met a b + Hoon.met a c < 2 ^ 32 := by
    rw [Roomy] at hroom
    omega
  rw [cat, if_neg (by rw [guard_iff]; omega), u2Met_eq ha hb, u2Met_eq ha hc]
  simp only
  rw [c3w_of_lt hlt]
  by_cases hzero : Hoon.met a b + Hoon.met a c = 0
  · rw [if_pos hzero, ← cat_own, can_zero_width (hwidth.trans hzero)]
  · rw [if_neg hzero, ← cat_own, ← canChop_slaq (hwidth ▸ hroom), hwidth]
    exact cat_chop ha hb c _

theorem rapChop_own {a : Nat} (ha : a < 32) :
    ∀ (l : List Nat) (pos : Nat) (s : Slab), (∀ q ∈ l, InLoom q) →
      rapChop a pos l s = canChop a pos (own a l) s
  | [], _, _, _ => rfl
  | q :: l, pos, s, hl => by
      rw [rapChop, own_cons, canChop, u2Met_eq ha (hl q List.mem_cons_self)]
      congr 1
      funext s
      exact rapChop_own ha l _ s fun r hr => hl r (List.mem_cons_of_mem q hr)

theorem rapSize_cases {a : Nat} (ha : a < 32) :
    ∀ (l : List Nat) (tot : Nat), tot < 2 ^ 32 → (∀ q ∈ l, InLoom q) →
      (tot + width (own a l) < 2 ^ 32 → rapSize a tot l = .ok (tot + width (own a l)))
        ∧ (2 ^ 32 ≤ tot + width (own a l) → rapSize a tot l = .error .fail)
  | [], tot, h, _ => ⟨fun _ => rfl, fun hle => absurd hle (Nat.not_le_of_lt h)⟩
  | q :: l, tot, h, hl => by
      have hq := hl q List.mem_cons_self
      have hlt := met_lt ha hq
      have hl' : ∀ r ∈ l, InLoom r := fun r hr => hl r (List.mem_cons_of_mem q hr)
      rw [rapSize, u2Met_eq ha hq, own_cons, width_cons, ← Nat.add_assoc]
      simp only
      by_cases hwrap : tot + Hoon.met a q < 2 ^ 32
      · rw [c3w_of_lt hwrap, if_neg (by omega)]
        exact rapSize_cases ha l _ hwrap hl'
      · have hless : c3w (tot + Hoon.met a q) < tot := by
          rw [c3w]
          omega
        rw [if_pos hless]
        exact ⟨fun hall => absurd hall (by omega), fun _ => rfl⟩

/-- `rap` is right if it refuses the length or the slab for it does not wrap. -/
theorem rap_right (a : Nat) {l : List Nat} (hl : ∀ q ∈ l, InLoom q) :
    Right (rap a l) (Hoon.rap a l) ↔
      32 ≤ a ∨ 2 ^ 32 ≤ width (own a l) ∨ Roomy a (width (own a l)) := by
  by_cases ha : 32 ≤ a
  · refine iff_of_true (.inr (.inl ?_)) (.inl ha)
    rw [rap, if_pos ((guard_iff a).mpr ha)]
  have ha' : a < 32 := Nat.lt_of_not_le ha
  obtain ⟨hok, hfail⟩ := rapSize_cases ha' l 0 (by decide) hl
  rw [Nat.zero_add] at hok hfail
  rw [rap, if_neg (by rwa [guard_iff])]
  by_cases hsize : 2 ^ 32 ≤ width (own a l)
  · exact iff_of_true (Right.fail _ (by rw [hfail hsize]; rfl)) (.inr (.inl hsize))
  · simp only [ha, hsize, false_or]
    rw [hok (Nat.lt_of_not_le hsize)]
    simp only [bind, Except.bind]
    by_cases hz : width (own a l) = 0
    · rw [if_pos hz, hz, ← Hoon.can_own]
      exact iff_of_true (.inl (by rw [← own, can_zero_width hz]; rfl)) (roomy_zero a)
    · rw [if_neg hz, rapChop_own ha' l 0 _ hl, ← Hoon.can_own]
      exact canChop_right a (own a l)

/-! ### Taking apart -/

/-- Bits inside one word. -/
theorem atomWord_field {bit san : Nat} (b : Nat) (h : bit % 32 + san ≤ 32) :
    atomWord b (bit / 32) / 2 ^ (bit % 32) % 2 ^ san = field b bit san := by
  have hsplit : 2 ^ 32 = 2 ^ (bit % 32) * 2 ^ (32 - bit % 32) := by
    rw [← Nat.pow_add]
    congr 1
    omega
  have hdvd : 2 ^ san ∣ 2 ^ (32 - bit % 32) := Nat.pow_dvd_pow 2 (by omega)
  rw [atomWord, hsplit, Nat.mod_mul_right_div_self, Nat.mod_mod_of_dvd _ hdvd,
    Nat.div_div_eq_div_mul, ← Nat.pow_add, Nat.div_add_mod, field]

theorem ripBits_eq {a len : Nat} (b : Nat) (ha : a < 5) (hlen : len * 2 ^ a ≤ 2 ^ 32) :
    ∀ (n i : Nat) (pir : List Nat), n + i = len →
      ripBits a b len n i pir
        = (List.range n).map (fun j => field b (j * 2 ^ a) (2 ^ a)) ++ pir
  | 0, _, _, _ => rfl
  | n + 1, i, pir, h => by
      have hpat : len - (i + 1) = n := by omega
      have hlt : n * 2 ^ a < len * 2 ^ a :=
        Nat.mul_lt_mul_of_pos_right (by omega) (Nat.two_pow_pos a)
      have hin : n * 2 ^ a % 32 + 2 ^ a ≤ 32 := by
        have hgap : 2 ^ a ≤ 32 - n * 2 ^ a % 32 := by
          refine Nat.le_of_dvd (by omega) (Nat.dvd_sub (two_pow_dvd_word ha) ?_)
          exact (Nat.dvd_mod_iff (two_pow_dvd_word ha)).mpr (Nat.dvd_mul_left _ _)
        omega
      rw [ripBits, hpat, c3w_of_lt (by omega : n * 2 ^ a < 2 ^ 32), atomWord_field b hin,
        ripBits_eq b ha hlen n (i + 1) _ (by omega), List.range_succ, List.map_append,
        List.append_assoc]
      rfl

/-- Words are copied in order. -/
theorem ripWords_eq (b wut : Nat) :
    ∀ (n j : Nat) (s : Slab), s.val < 2 ^ (32 * j) → j + n ≤ s.words → wut + j + n ≤ 2 ^ 32 →
      ripWords b wut n j s
        = .ok { s with val := s.val + 2 ^ (32 * j) * field b (32 * (wut + j)) (32 * n) }
  | 0, j, s, _, _, _ => by simp [ripWords]
  | n + 1, j, s, hval, hin, hwut => by
      have hnext : s.val + 2 ^ (32 * j) * field b (32 * (wut + j)) 32 < 2 ^ (32 * (j + 1)) := by
        have hw := field_lt b (32 * (wut + j)) 32
        calc s.val + 2 ^ (32 * j) * field b (32 * (wut + j)) 32
            < 2 ^ (32 * j) + 2 ^ (32 * j) * field b (32 * (wut + j)) 32 := by omega
          _ = 2 ^ (32 * j) * (field b (32 * (wut + j)) 32 + 1) := by ring
          _ ≤ 2 ^ (32 * j) * 2 ^ 32 := Nat.mul_le_mul_left _ hw
          _ = 2 ^ (32 * (j + 1)) := by rw [← Nat.pow_add, Nat.mul_succ]
      have hpow : 2 ^ (32 * j) ≤ 2 ^ (32 * (j + 1)) :=
        Nat.pow_le_pow_right (by decide) (Nat.mul_le_mul_left 32 (Nat.le_succ j))
      have hput : s.put j (atomWord b (c3w (wut + j)))
          = .ok { s with val := s.val + 2 ^ (32 * j) * field b (32 * (wut + j)) 32 } := by
        rw [Slab.put, if_pos (by omega), c3w_of_lt (by omega), Nat.mod_eq_of_lt hval,
          Nat.div_eq_of_lt (hval.trans_le hpow), Nat.mul_zero, Nat.add_zero, atomWord, field]
      rw [ripWords, hput]
      simp only [bind, Except.bind]
      rw [ripWords_eq b wut n (j + 1) _ hnext (by dsimp only; omega) (by omega)]
      dsimp only
      rw [Nat.mul_succ 32 n, Nat.add_comm (32 * n), field_add, Nat.mul_succ 32 j, Nat.pow_add,
        ← Nat.add_assoc wut, Nat.mul_succ 32 (wut + j)]
      congr 2
      ring

/-- The blocks are taken off from the top down; the words that the top one lacks are zero. -/
theorem ripBloqs_eq {san len tub : Nat} (b : Nat) (hlen : len * 2 ^ san ≤ 2 ^ 32)
    (htub : len ≠ 0 → tub ≤ 2 ^ san
      ∧ b.size ≤ 32 * ((len - 1) * 2 ^ san + tub)) :
    ∀ (n i : Nat) (pir : List Nat), n + i = len →
      ripBloqs san b len tub n i pir
        = .ok ((List.range n).map (fun j => field b (j * 2 ^ (san + 5)) (2 ^ (san + 5))) ++ pir)
  | 0, _, _, _ => rfl
  | n + 1, i, pir, h => by
      have hpat : len - (i + 1) = n := by omega
      have hwords : ∀ x, x * 2 ^ (san + 5) = 32 * (x * 2 ^ san) := by
        intro x
        rw [Nat.pow_add]
        ring
      have hpow : 2 ^ (san + 5) = 32 * 2 ^ san := by rw [Nat.pow_add, Nat.mul_comm]
      have htop : (n + 1) * 2 ^ san ≤ len * 2 ^ san := Nat.mul_le_mul_right _ (by omega)
      rw [Nat.succ_mul] at htop
      have hpos : 0 < 2 ^ san := Nat.two_pow_pos san
      have hblock : ∀ sap, sap ≤ 2 ^ san → field b (32 * (n * 2 ^ san)) (32 * sap)
            = field b (32 * (n * 2 ^ san)) (32 * 2 ^ san) →
          ripWords b (n * 2 ^ san) sap 0 (slab sap)
            = .ok ⟨sap, field b (n * 2 ^ (san + 5)) (2 ^ (san + 5))⟩ := by
        intro sap hsap hfield
        rw [ripWords_eq b _ sap 0 (slab sap) (by simp [slab]) (by simp [slab]) (by omega),
          hwords, hpow, ← hfield]
        simp [slab]
      rw [ripBloqs, hpat, c3w_of_lt (by omega)]
      have hcut : ripWords b (n * 2 ^ san) (if i = 0 then tub else 2 ^ san) 0
          (slab (if i = 0 then tub else 2 ^ san))
            = .ok ⟨if i = 0 then tub else 2 ^ san, field b (n * 2 ^ (san + 5)) (2 ^ (san + 5))⟩ := by
        by_cases hi : i = 0
        · obtain ⟨hle, hsize⟩ := htub (by omega)
          have hn : len - 1 = n := by omega
          rw [hn, Nat.mul_add] at hsize
          rw [if_pos hi]
          refine hblock tub hle ?_
          rw [field_clip hsize, field_clip (hsize.trans (by omega))]
        · rw [if_neg hi]
          exact hblock _ (Nat.le_refl _) rfl
      rw [hcut]
      simp only [bind, Except.bind, malt]
      rw [ripBloqs_eq b hlen htub n (i + 1) _ (by omega), List.range_succ, List.map_append,
        List.append_assoc]
      rfl

theorem rip_eq {a b : Nat} (ha : a < 32) (hb : InLoom b) : rip a b = .ok (Hoon.rip a b) := by
  rw [rip, if_neg (by rw [guard_iff]; omega), u2Met_eq ha hb, Hoon.rip_eq_map]
  simp only
  have hmul := met_mul_le ha hb
  by_cases hsmall : a < 5
  · rw [if_pos hsmall, ripBits_eq b hsmall hmul _ 0 [] (Nat.add_zero _), List.append_nil]
  · obtain ⟨san, rfl⟩ : ∃ san, a = san + 5 := ⟨a - 5, by omega⟩
    have hwords : ∀ x, x * 2 ^ (san + 5) = 32 * (x * 2 ^ san) := by
      intro x
      rw [Nat.pow_add]
      ring
    rw [if_neg hsmall, Nat.add_sub_cancel, u2Met_eq (by decide) hb]
    rw [hwords] at hmul
    have hself : b.size ≤ Hoon.met 5 b * 2 ^ 5 := met_le'.mp (Nat.le_refl _)
    have hle : Hoon.met 5 b ≤ Hoon.met (san + 5) b * 2 ^ san := by
      have hsize : b.size ≤ Hoon.met (san + 5) b * 2 ^ (san + 5) := met_le'.mp (Nat.le_refl _)
      rw [hwords] at hsize
      rw [met_le']
      omega
    have hlast : Hoon.met (san + 5) b ≠ 0 →
        (Hoon.met (san + 5) b - 1) * 2 ^ san < Hoon.met 5 b := by
      intro hmet
      have hbits := mul_lt_size (Nat.sub_lt (Nat.pos_of_ne_zero hmet) Nat.one_pos)
      rw [hwords] at hbits
      omega
    have hpos : 0 < 2 ^ san := Nat.two_pow_pos san
    have hdif : c3w (c3w (Hoon.met (san + 5) b * 2 ^ san) + (2 ^ 32 - Hoon.met 5 b))
        = Hoon.met (san + 5) b * 2 ^ san - Hoon.met 5 b := by
      rw [c3w_of_lt (by omega : Hoon.met (san + 5) b * 2 ^ san < 2 ^ 32), c3w]
      omega
    rw [hdif, ripBloqs_eq b (by omega) (fun hmet => ?_) _ 0 [] (Nat.add_zero _), List.append_nil]
    have hless := hlast hmet
    have hsucc : (Hoon.met (san + 5) b - 1) * 2 ^ san + 2 ^ san
        = Hoon.met (san + 5) b * 2 ^ san := by
      rw [← Nat.succ_mul, Nat.succ_eq_add_one, Nat.sub_add_cancel (Nat.pos_of_ne_zero hmet)]
    by_cases hzero : Hoon.met (san + 5) b * 2 ^ san - Hoon.met 5 b = 0
    · rw [if_pos hzero]
      exact ⟨Nat.le_refl _, by omega⟩
    · have hpow : 2 ^ san ≤ 2 ^ 26 := Nat.pow_le_pow_right (by decide) (by omega)
      have htub : c3w (2 ^ san + (2 ^ 32 - (Hoon.met (san + 5) b * 2 ^ san - Hoon.met 5 b)))
          = 2 ^ san - (Hoon.met (san + 5) b * 2 ^ san - Hoon.met 5 b) := by
        rw [c3w]
        omega
      rw [if_neg hzero, htub]
      exact ⟨Nat.sub_le _ _, by omega⟩

/-- `rip` is right at every size. -/
theorem rip_right {a b : Nat} (hb : InLoom b) : Right (rip a b) (Hoon.rip a b) := by
  by_cases ha : 32 ≤ a
  · refine Right.fail _ ?_
    rw [rip, if_pos ((guard_iff a).mpr ha)]
  · exact .inl (rip_eq (Nat.lt_of_not_le ha) hb)

/-- When the jets return what the arms do, or bail, on atoms of the loom: always for `rip`; for
the others unless a count is past the direct atoms where the jet does not look, or the size of
the slab wraps. -/
theorem bloq_jets (a m n : Nat) {b c : Nat} (l : List (Nat × Nat)) {k : List Nat}
    (hb : InLoom b) (hc : InLoom c) (hk : ∀ q ∈ k, InLoom q) :
    (Right (can a l) (Hoon.can a l) ↔
      32 ≤ a ∨ (∃ x ∈ l, isCat x.1 = false) ∨ 2 ^ 32 ≤ width l ∨ Roomy a (width l)) ∧
    (Right (cat a b c) (Hoon.cat a b c) ↔ 32 ≤ a ∨ Roomy a (Hoon.met a b + Hoon.met a c)) ∧
    (Right (cut a m n c) (Hoon.cut a m n c) ↔
      32 ≤ a ∨ (isCat m = true ∧ isCat n = true)
        ∨ (isCat m = false ∧ field c (m * 2 ^ a) (n * 2 ^ a) = 0)
        ∨ (isCat m = true ∧ isCat n = false
          ∧ field c ((m + 0x7fffffff) * 2 ^ a) ((n - 0x7fffffff) * 2 ^ a) = 0)) ∧
    (Right («end» a n c) (Hoon.«end» a n c) ↔ 32 ≤ a ∨ isCat n = true ∨ Hoon.met a c ≤ n) ∧
    (Right (lsh a n c) (Hoon.lsh a n c) ↔
      32 ≤ a ∨ isCat n = false ∨ c = 0 ∨ 2 ^ 32 ≤ n + Hoon.met a c
        ∨ Roomy a (n + Hoon.met a c)) ∧
    (Right (rsh a n c) (Hoon.rsh a n c) ↔
      32 ≤ a ∨ Hoon.met a c ≤ n ∨ (isCat n = true ∧ Roomy a (Hoon.met a c - n))) ∧
    (Right (rap a k) (Hoon.rap a k) ↔
      32 ≤ a ∨ 2 ^ 32 ≤ width (own a k) ∨ Roomy a (width (own a k))) ∧
    Right (rip a c) (Hoon.rip a c) :=
  ⟨can_right a l, cat_right hb hc, cut_right hc, end_right hc, lsh_right hc, rsh_right hc,
    rap_right a hk, rip_right hc⟩

theorem inLoom_one : InLoom 1 := inLoom_of_word (by decide)

theorem bloq_jets_lsh_wide : Right (lsh 7 (2 ^ 31) 1) (Hoon.lsh 7 (2 ^ 31) 1) :=
  (bloq_jets 7 0 (2 ^ 31) [] inLoom_one inLoom_one (k := []) (by simp)).2.2.2.2.1.mpr
    (.inr (.inl (by decide)))

/-- A shift by `2^30` blocks of four words each: the slab wraps to four words, the place to zero,
and the atom comes back as it was. -/
theorem lsh_wraps :
    lsh 7 (2 ^ 30) 1 = .ok 1 ∧ ¬Right (lsh 7 (2 ^ 30) 1) (Hoon.lsh 7 (2 ^ 30) 1) := by
  have hmet : u2Met 7 1 = 1 := by
    rw [u2Met_eq (by decide) inLoom_one]
    exact Hoon.met_block (by decide) (Nat.one_lt_two_pow (by decide))
  have hlsh : lsh 7 (2 ^ 30) 1 = .ok 1 := by
    rw [lsh, hmet]
    rfl
  refine ⟨hlsh, ?_⟩
  rw [Right.ok hlsh, Hoon.lsh, Nat.mul_one]
  simp only [Hoon.bex_eq]
  exact (Nat.one_lt_two_pow (by decide)).ne

end Vere.Jets
