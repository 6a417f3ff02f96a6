import Vere.Hoon.Cord

/-!
# Vere.Hoon.Bloq

Splitting an atom into blocks and joining them again (`++rip`, `++can`, `++rep`, `++rap`).

`++rip` gives the digits to the base `2^(2^a)`, the lowest first and none above the highest
that is not zero. `++can` with every width 1 and `++rep` take them back, zero or not; `++rap` gives each
atom the width that it has, so that it loses a zero.
-/

namespace Vere.Hoon

open Vere.Lib

/-- `++can` with every element given width 1. -/
def join (a : Nat) (l : List Nat) : Nat := can a (l.map fun q => (1, q))

theorem join_nil (a : Nat) : join a [] = 0 := rfl

theorem join_cons (a q : Nat) (l : List Nat) :
    join a (q :: l) = q % 2 ^ 2 ^ a + 2 ^ 2 ^ a * join a l := by
  rw [join, List.map_cons, can_cons, Nat.mul_one]
  rfl

/-- The loop of `++rep`. -/
def repLoop (a : Nat) : Nat → List Nat → Nat
  | _, [] => 0
  | c, i :: b => con (lsh a c («end» a 1 i)) (repLoop a (c + 1) b)

/-- `++rep`: assemble single. -/
def rep (a : Nat) (b : List Nat) : Nat := repLoop a 0 b

theorem repLoop_eq (a c : Nat) (l : List Nat) : repLoop a c l = 2 ^ (2 ^ a * c) * join a l := by
  induction l generalizing c with
  | nil => rfl
  | cons i l ih =>
      have hlt : i % 2 ^ 2 ^ a < 2 ^ 2 ^ a := Nat.mod_lt _ (Nat.two_pow_pos _)
      have hpow : 2 ^ (2 ^ a * (c + 1)) = 2 ^ (2 ^ a * c) * 2 ^ 2 ^ a := by
        rw [Nat.mul_succ, Nat.pow_add]
      have hor (p x y : Nat) : (2 ^ p * x) ||| (2 ^ p * y) = 2 ^ p * (x ||| y) := by
        have h := Nat.shiftLeft_or_distrib (a := x) (b := y) (i := p)
        simpa [Nat.shiftLeft_eq, Nat.mul_comm] using h.symm
      rw [repLoop, ih, join_cons, lsh, «end», con_eq, bex_eq, bex_eq, bex_eq, Nat.mul_one, hpow,
        Nat.mul_assoc, hor, Nat.or_comm, ← Nat.two_pow_add_eq_or_of_lt hlt, Nat.add_comm]

theorem rep_eq (a : Nat) (l : List Nat) : rep a l = join a l := by
  rw [rep, repLoop_eq, Nat.mul_zero, Nat.pow_zero, Nat.one_mul]

theorem rip_zero (a : Nat) : rip a 0 = [] := by
  rw [rip, dif_pos rfl]

theorem rip_step {a b : Nat} (h : b ≠ 0) :
    rip a b = b % 2 ^ 2 ^ a :: rip a (b / 2 ^ 2 ^ a) := by
  rw [rip, dif_neg h]
  simp only [«end», rsh, bex_eq, Nat.mul_one]

/-- The blocks in order are the digits. -/
theorem rip_eq_digits (a b : Nat) : rip a b = Nat.digits (2 ^ 2 ^ a) b := by
  have hbase : 1 < 2 ^ 2 ^ a := Nat.one_lt_two_pow (Nat.two_pow_pos a).ne'
  induction b using Nat.strongRecOn with
  | ind b ih =>
      by_cases h : b = 0
      · rw [h, rip_zero, Nat.digits_zero]
      · rw [rip_step h, Nat.digits_def' hbase (Nat.pos_of_ne_zero h),
          ih _ (Nat.div_lt_self (Nat.pos_of_ne_zero h) hbase)]

/-- The blocks joined are the atom. -/
theorem join_rip (a x : Nat) : join a (rip a x) = x := by
  induction x using Nat.strongRecOn with
  | ind x ih =>
      by_cases h : x = 0
      · rw [h, rip_zero, join_nil]
      · have hlt : x / 2 ^ 2 ^ a < x := Nat.div_lt_self (Nat.pos_of_ne_zero h)
          (Nat.one_lt_two_pow (Nat.two_pow_pos a).ne')
        rw [rip_step h, join_cons, ih _ hlt, Nat.mod_mod, Nat.mod_add_div]

theorem met_block {a q : Nat} (h0 : q ≠ 0) (hlt : q < 2 ^ 2 ^ a) : met a q = 1 := by
  refine le_antisymm (met_le.mpr (by rwa [Nat.mul_one])) ?_
  by_contra hzero
  have hle : met a q ≤ 0 := by omega
  rw [met_le, Nat.mul_zero, Nat.pow_zero] at hle
  omega

/-- Blocks that are not zero are joined by `++rap` as well. -/
theorem rap_eq_join {a : Nat} {l : List Nat} (hlt : ∀ q ∈ l, q < 2 ^ 2 ^ a)
    (h0 : ∀ q ∈ l, q ≠ 0) : rap a l = join a l := by
  induction l with
  | nil => rfl
  | cons q l ih =>
      have hq := hlt q List.mem_cons_self
      rw [rap, join_cons, ih (fun r hr => hlt r (List.mem_cons_of_mem q hr))
        (fun r hr => h0 r (List.mem_cons_of_mem q hr)), cat, lsh,
        met_block (h0 q List.mem_cons_self) hq, bex_eq, bex_eq, Nat.mul_one, Nat.mod_eq_of_lt hq,
        Nat.add_comm]

theorem rip_lt {a x q : Nat} (h : q ∈ rip a x) : q < 2 ^ 2 ^ a := by
  rw [rip_eq_digits] at h
  exact Nat.digits_lt_base (Nat.one_lt_two_pow (Nat.two_pow_pos a).ne') h

theorem rap_rip {a x : Nat} (h : ∀ q ∈ rip a x, q ≠ 0) : rap a (rip a x) = x := by
  rw [rap_eq_join (fun q hq => rip_lt hq) h, join_rip]

theorem join_eq_ofDigits {a : Nat} {l : List Nat} (hlt : ∀ q ∈ l, q < 2 ^ 2 ^ a) :
    join a l = Nat.ofDigits (2 ^ 2 ^ a) l := by
  induction l with
  | nil => rfl
  | cons q l ih =>
      rw [join_cons, Nat.ofDigits_cons, Nat.mod_eq_of_lt (hlt q List.mem_cons_self),
        ih fun r hr => hlt r (List.mem_cons_of_mem q hr)]

/-- Blocks of which the last is not zero are split again as they were. -/
theorem rip_join {a : Nat} {l : List Nat} (hlt : ∀ q ∈ l, q < 2 ^ 2 ^ a)
    (hlast : ∀ h : l ≠ [], l.getLast h ≠ 0) : rip a (join a l) = l := by
  rw [rip_eq_digits, join_eq_ofDigits hlt]
  exact Nat.digits_ofDigits _ (Nat.one_lt_two_pow (Nat.two_pow_pos a).ne') l hlt hlast

/-- The number of blocks. -/
theorem length_rip (a x : Nat) : (rip a x).length = met a x := by
  induction x using Nat.strongRecOn with
  | ind x ih =>
      by_cases h : x = 0
      · rw [h, rip_zero, met, metLoop, dif_pos rfl, List.length_nil]
      · have hlt : x / 2 ^ 2 ^ a < x := Nat.div_lt_self (Nat.pos_of_ne_zero h)
          (Nat.one_lt_two_pow (Nat.two_pow_pos a).ne')
        have hmet : met a x = met a (x / 2 ^ 2 ^ a) + 1 := by
          refine le_antisymm ?_ ?_
          · rw [met_le, Nat.mul_add, Nat.mul_one, Nat.pow_add, ← Nat.div_lt_iff_lt_mul
              (Nat.two_pow_pos _)]
            exact met_le.mp (Nat.le_refl _)
          · have hpos : 0 < met a x := by
              by_contra hzero
              have hle : met a x ≤ 0 := by omega
              rw [met_le, Nat.mul_zero, Nat.pow_zero] at hle
              omega
            have hle : met a (x / 2 ^ 2 ^ a) ≤ met a x - 1 := by
              rw [met_le, Nat.div_lt_iff_lt_mul (Nat.two_pow_pos _), ← Nat.pow_add]
              have hx := met_le.mp (Nat.le_refl (met a x))
              have hsplit : 2 ^ a * (met a x - 1) + 2 ^ a = 2 ^ a * met a x := by
                rw [← Nat.mul_succ, Nat.succ_eq_add_one, Nat.sub_add_cancel hpos]
              rwa [hsplit]
            omega
        rw [rip_step h, List.length_cons, ih _ hlt, hmet]

/-- The blocks by their places. -/
theorem rip_eq_map (a x : Nat) :
    rip a x = (List.range (met a x)).map fun i => field x (i * 2 ^ a) (2 ^ a) := by
  induction x using Nat.strongRecOn with
  | ind x ih =>
      by_cases h : x = 0
      · rw [← length_rip, h, rip_zero]
        rfl
      · have hlt : x / 2 ^ 2 ^ a < x := Nat.div_lt_self (Nat.pos_of_ne_zero h)
          (Nat.one_lt_two_pow (Nat.two_pow_pos a).ne')
        have hmet : met a x = met a (x / 2 ^ 2 ^ a) + 1 := by
          rw [← length_rip, rip_step h, List.length_cons, length_rip]
        rw [hmet, List.range_succ_eq_map, rip_step h, ih _ hlt, List.map_cons, List.map_map]
        refine congrArg₂ List.cons ?_ (List.map_congr_left fun i _ => ?_)
        · rw [field, Nat.zero_mul, Nat.pow_zero, Nat.div_one]
        · rw [field, Function.comp_apply, field, Nat.div_div_eq_div_mul, ← Nat.pow_add,
            Nat.succ_mul, Nat.add_comm]

/-- `++rap` is `++can` that gives each atom its own length. -/
theorem can_own (a : Nat) (l : List Nat) : can a (l.map fun q => (met a q, q)) = rap a l := by
  induction l with
  | nil => rfl
  | cons q l ih =>
      rw [List.map_cons, can_cons, ih, rap, cat, lsh, bex_eq, bex_eq,
        Nat.mod_eq_of_lt (met_le.mp (Nat.le_refl _)), Nat.add_comm]

/-! ### Single blocks -/

theorem cut_one (a i c : Nat) : cut a i 1 c = c / 2 ^ (2 ^ a * i) % 2 ^ 2 ^ a := by
  rw [cut, «end», rsh, bex_eq, bex_eq, bex_eq, Nat.mul_one]

theorem cut_succ (a i c : Nat) : cut a (i + 1) 1 c = cut a i 1 (c / 2 ^ 2 ^ a) := by
  rw [cut_one, cut_one, Nat.div_div_eq_div_mul, ← Nat.pow_add, Nat.mul_succ, Nat.add_comm]

theorem join_lt (a : Nat) (l : List Nat) : join a l < 2 ^ (2 ^ a * l.length) := by
  induction l with
  | nil => exact Nat.two_pow_pos _
  | cons q l ih =>
      have hlt : q % 2 ^ 2 ^ a < 2 ^ 2 ^ a := Nat.mod_lt _ (Nat.two_pow_pos _)
      rw [join_cons, List.length_cons, Nat.mul_succ, Nat.pow_add]
      calc q % 2 ^ 2 ^ a + 2 ^ 2 ^ a * join a l
          < 2 ^ 2 ^ a * (join a l + 1) := by rw [Nat.mul_succ]; omega
        _ ≤ 2 ^ 2 ^ a * 2 ^ (2 ^ a * l.length) := Nat.mul_le_mul_left _ ih
        _ = 2 ^ (2 ^ a * l.length) * 2 ^ 2 ^ a := Nat.mul_comm _ _

theorem cut_join {a i : Nat} {l : List Nat} (h : i < l.length) :
    cut a i 1 (join a l) = l[i] % 2 ^ 2 ^ a := by
  induction l generalizing i with
  | nil => cases h
  | cons q l ih =>
      cases i with
      | zero =>
          rw [cut_one, join_cons, Nat.mul_zero, Nat.pow_zero, Nat.div_one,
            Nat.add_mul_mod_self_left, Nat.mod_mod]
          rfl
      | succ i =>
          have hlt : q % 2 ^ 2 ^ a < 2 ^ 2 ^ a := Nat.mod_lt _ (Nat.two_pow_pos _)
          rw [cut_succ, join_cons, Nat.add_mul_div_left _ _ (Nat.two_pow_pos _),
            Nat.div_eq_of_lt hlt, Nat.zero_add]
          exact ih (Nat.lt_of_succ_lt_succ h)

/-- The lowest blocks joined are what the atom has there. -/
theorem join_cuts (a b c : Nat) :
    join a ((List.range b).map fun i => cut a i 1 c) = c % 2 ^ (2 ^ a * b) := by
  induction b generalizing c with
  | zero => rw [Nat.mul_zero, Nat.pow_zero, Nat.mod_one]; rfl
  | succ b ih =>
      have hmap : ((List.range b).map Nat.succ).map (fun i => cut a i 1 c)
          = (List.range b).map fun i => cut a i 1 (c / 2 ^ 2 ^ a) := by
        rw [List.map_map]
        exact List.map_congr_left fun i _ => cut_succ a i c
      rw [List.range_succ_eq_map, List.map_cons, hmap, join_cons, ih, cut_one, Nat.mul_zero,
        Nat.pow_zero, Nat.div_one, Nat.mod_mod, Nat.mul_succ, Nat.add_comm (2 ^ a * b), Nat.pow_add,
        Nat.mod_mul]

theorem xor_join (a : Nat) {l k : List Nat} (h : l.length = k.length) :
    join a l ^^^ join a k = join a (List.zipWith (· ^^^ ·) l k) := by
  induction l generalizing k with
  | nil =>
      obtain rfl : k = [] := List.eq_nil_of_length_eq_zero h.symm
      rw [join_nil, Nat.xor_self, List.zipWith_nil_left, join_nil]
  | cons x l ih =>
      cases k with
      | nil => cases h
      | cons y k =>
          have hx : x % 2 ^ 2 ^ a < 2 ^ 2 ^ a := Nat.mod_lt _ (Nat.two_pow_pos _)
          have hy : y % 2 ^ 2 ^ a < 2 ^ 2 ^ a := Nat.mod_lt _ (Nat.two_pow_pos _)
          have hxy : (x ^^^ y) % 2 ^ 2 ^ a < 2 ^ 2 ^ a := Nat.mod_lt _ (Nat.two_pow_pos _)
          rw [List.zipWith_cons_cons, join_cons, join_cons, join_cons,
            ← ih (Nat.succ.inj h), ← xor_shift hx, ← xor_shift hy, ← xor_shift hxy,
            two_pow_mul_xor, Nat.xor_mod_two_pow]
          ac_rfl

end Vere.Hoon
