import Vere.Hoon.Bloq
import Vere.Hoon.Rule

/-!
# Vere.Zuse.Base64

Base-64 encoding (`++sifo`, section 3bF of `zuse.hoon`).

The bytes of the atom, the first highest, are filled up to a multiple of three and read as one
number; its digits to the base 64 are the text, and as many of them as bytes were added are
replaced by `=`. A number does not begin with zeros: if the first six bits of the text are zero,
the digits they should give are missing. So the encoding is the standard one if the first byte
is 4 or more (`sifo_iff`).
-/

namespace Vere.Zuse

open Vere.Lib Vere.Hoon

/-- `++swap`: reverse bloq order. -/
def swap (a b : Nat) : Nat := rep a (rip a b).reverse

/-- The loop of `++fil`, with `n` blocks to go. -/
def filLoop (a c : Nat) : Nat → Nat → Nat
  | 0, d => rsh a 1 d
  | n + 1, d => filLoop a c n (c + lsh a 1 d)

/-- `++fil`: fill bloqstream. -/
def fil (a b c : Nat) : Nat := filLoop a c b c

/-- `ska` of `++sifo`. -/
def ska : Tape :=
  [ 'A', 'B', 'C', 'D', 'E', 'F', 'G', 'H', 'I', 'J', 'K', 'L', 'M', 'N', 'O', 'P',
    'Q', 'R', 'S', 'T', 'U', 'V', 'W', 'X', 'Y', 'Z', 'a', 'b', 'c', 'd', 'e', 'f',
    'g', 'h', 'i', 'j', 'k', 'l', 'm', 'n', 'o', 'p', 'q', 'r', 's', 't', 'u', 'v',
    'w', 'x', 'y', 'z', '0', '1', '2', '3', '4', '5', '6', '7', '8', '9', '+', '/' ]

/-- A digit. `++snag` does not crash on a number of six bits. -/
def digit (d : Nat) : Nat := ska.getD d 0

/-- The loop of `++sifo`: the digits, the lowest first. -/
def sifLoop (pad : Nat) : Tape :=
  if _ : pad = 0 then [] else digit («end» 0 6 pad) :: sifLoop (rsh 0 6 pad)
termination_by pad
decreasing_by
  simp only [rsh, bex_eq]
  exact Nat.div_lt_self (Nat.pos_of_ne_zero (by assumption)) (by decide)

/-- `++sifo`: 64-bit encode. -/
def sifo (tig : Nat) : Option Tape :=
  let poc := (3 - met 3 tig % 3) % 3
  let pad := lsh 3 poc (swap 3 tig)
  let sif := (sifLoop pad).reverse
  if sif.length < poc then none
  else some (sif.take (sif.length - poc) ++ trip (fil 3 poc '='))

/-! ### The standard encoding -/

/-- The base-64 encoding of a byte string: four digits for three bytes, with `=` where bytes are
missing. -/
def base64 : List Nat → Tape
  | [] => []
  | [a] => [digit (a / 4), digit (a % 4 * 16), '='.toNat, '='.toNat]
  | [a, b] => [digit (a / 4), digit (a % 4 * 16 + b / 16), digit (b % 16 * 4), '='.toNat]
  | a :: b :: c :: t =>
      digit (a / 4) :: digit (a % 4 * 16 + b / 16) :: digit (b % 16 * 4 + c / 64) ::
        digit (c % 64) :: base64 t

example : base64 [77, 97] = ['T', 'W', 'E', '='] := by decide

/-- The groups of six bits in a byte string with a length divisible by three. -/
def sextets : List Nat → List Nat
  | a :: b :: c :: t =>
      a / 4 :: (a % 4 * 16 + b / 16) :: (b % 16 * 4 + c / 64) :: c % 64 :: sextets t
  | _ => []

section bytes

variable {l k : List Nat} {a : Nat}

theorem ska_nodup : ska.Nodup := by decide

theorem digit_inj {d e : Nat} (hd : d < 64) (he : e < 64) (h : digit d = digit e) : d = e := by
  have hlen : ska.length = 64 := rfl
  have hget : ∀ d, (hd : d < 64) → digit d = ska.get ⟨d, hlen ▸ hd⟩ := fun d hd => by
    have hd : d < ska.length := hlen ▸ hd
    simp [digit, hd]
  rw [hget d hd, hget e he] at h
  exact Fin.mk.inj (List.nodup_iff_injective_get.mp ska_nodup h)

theorem digit_ne_tis : ∀ d < 64, digit d ≠ '='.toNat := by decide

theorem sextets_lt (hl : ∀ x ∈ l, x < 256) : ∀ d ∈ sextets l, d < 64 := by
  induction l using sextets.induct with
  | case1 a b c t ih =>
      have ha := hl a (by simp)
      have hb := hl b (by simp)
      have hc := hl c (by simp)
      intro d hd
      simp only [sextets, List.mem_cons] at hd
      rcases hd with rfl | rfl | rfl | rfl | hd
      · omega
      · omega
      · omega
      · omega
      · exact ih (fun x hx => hl x (by simp [hx])) d hd
  | case2 l hno =>
      intro d hd
      rw [sextets.eq_2 l hno] at hd
      cases hd

theorem length_lt_three (h : ∀ a b c t, l = a :: b :: c :: t → False) : l.length < 3 := by
  match l with
  | [] => simp
  | [_] => simp
  | [_, _] => simp
  | a :: b :: c :: t => exact (h a b c t rfl).elim

theorem length_sextets (l : List Nat) : (sextets l).length = 4 * (l.length / 3) := by
  induction l using sextets.induct with
  | case1 a b c t ih =>
      simp only [sextets, List.length_cons, ih]
      omega
  | case2 l hno =>
      rw [sextets.eq_2 l hno]
      have hlt := length_lt_three hno
      rw [Nat.div_eq_of_lt hlt]
      rfl

/-- The groups spell the number that the bytes spell, the highest first. -/
theorem sextets_value (hl : ∀ x ∈ l, x < 256) (h3 : l.length % 3 = 0) :
    Nat.ofDigits 64 (sextets l).reverse = Nat.ofDigits 256 l.reverse := by
  induction l using sextets.induct with
  | case1 a b c t ih =>
      have ht : t.length % 3 = 0 := by
        simp only [List.length_cons] at h3
        omega
      have hlen : 64 ^ (4 * (t.length / 3)) = 256 ^ t.length := by
        rw [show t.length = 3 * (t.length / 3) by omega, Nat.pow_mul, Nat.pow_mul]
        simp
      have ih := ih (fun x hx => hl x (by simp [hx])) ht
      have ha := hl a (by simp)
      have hb := hl b (by simp)
      have hc := hl c (by simp)
      have hgroup : c % 64 + 64 * (b % 16 * 4 + c / 64 + 64 * (a % 4 * 16 + b / 16 + 64 * (a / 4))) =
          c + 256 * (b + 256 * a) := by
        omega
      simp only [sextets, List.reverse_cons, List.append_assoc, Nat.ofDigits_append, ih,
        List.length_reverse, length_sextets, hlen, Nat.ofDigits_singleton, List.length_singleton,
        Nat.pow_one, hgroup]
  | case2 l hno =>
      have hlt := length_lt_three hno
      obtain rfl : l = [] := List.eq_nil_of_length_eq_zero (by omega)
      rfl

/-- How many bytes are missing. -/
def missing (n : Nat) : Nat := (3 - n % 3) % 3

/-- The standard encoding by the groups of the bytes that were filled up. -/
theorem base64_eq (l : List Nat) :
    base64 l =
      ((sextets (l ++ List.replicate (missing l.length) 0)).map digit).take
          (4 * ((l.length + missing l.length) / 3) - missing l.length) ++
        List.replicate (missing l.length) '='.toNat := by
  induction l using base64.induct with
  | case1 => rfl
  | case2 a => simp [base64, missing, sextets, List.replicate]
  | case3 a b => simp [base64, missing, sextets]
  | case4 a b c t ih =>
      have hm : missing (t.length + 1 + 1 + 1) = missing t.length := by
        unfold missing
        omega
      have hle : missing t.length ≤ 2 := by
        unfold missing
        omega
      have hlen : 4 * ((t.length + 1 + 1 + 1 + missing t.length) / 3) - missing t.length =
          4 * ((t.length + missing t.length) / 3) - missing t.length + 4 := by
        unfold missing
        omega
      rw [base64, ih]
      simp only [List.length_cons, hm, hlen, List.cons_append, sextets, List.map_cons,
        List.take_succ_cons]

theorem length_base64 (l : List Nat) :
    (base64 l).length = 4 * ((l.length + missing l.length) / 3) := by
  have hm : missing l.length ≤ 2 ∧ (l.length + missing l.length) % 3 = 0 := by
    unfold missing
    omega
  rw [base64_eq, List.length_append, List.length_take, List.length_map, length_sextets,
    List.length_append, List.length_replicate, List.length_replicate]
  omega

/-- Three bytes by their groups. -/
theorem group_inj {a b c a' b' c' : Nat} (hc : c < 256) (hc' : c' < 256) (hb : b < 256)
    (hb' : b' < 256) (ha : a < 256) (ha' : a' < 256) (h1 : digit (a / 4) = digit (a' / 4))
    (h2 : digit (a % 4 * 16 + b / 16) = digit (a' % 4 * 16 + b' / 16))
    (h3 : digit (b % 16 * 4 + c / 64) = digit (b' % 16 * 4 + c' / 64))
    (h4 : digit (c % 64) = digit (c' % 64)) : a = a' ∧ b = b' ∧ c = c' := by
  have h1 := digit_inj (by omega) (by omega) h1
  have h2 := digit_inj (by omega) (by omega) h2
  have h3 := digit_inj (by omega) (by omega) h3
  have h4 := digit_inj (by omega) (by omega) h4
  omega

/-- Different byte strings have different encodings. -/
theorem base64_inj (hl : ∀ x ∈ l, x < 256) (hk : ∀ x ∈ k, x < 256) (h : base64 l = base64 k) :
    l = k := by
  have hzero : digit 0 = digit 0 := rfl
  have hlt : 0 < 256 := by decide
  induction l using base64.induct generalizing k with
  | case1 =>
      match k with
      | [] => rfl
      | [_] => cases h
      | [_, _] => cases h
      | _ :: _ :: _ :: _ => cases h
  | case2 a =>
      have ha := hl a (by simp)
      match k with
      | [] => cases h
      | [a'] =>
          have ha' := hk a' (by simp)
          simp only [base64, List.cons.injEq] at h
          rw [(group_inj hlt hlt hlt hlt ha ha' h.1 h.2.1 hzero hzero).1]
      | [_, b'] =>
          have hb' := hk b' (by simp)
          simp only [base64, List.cons.injEq] at h
          exact absurd h.2.2.1.symm (digit_ne_tis _ (by omega))
      | _ :: b' :: c' :: _ =>
          have hb' := hk b' (by simp)
          have hc' := hk c' (by simp)
          simp only [base64, List.cons.injEq] at h
          exact absurd h.2.2.1.symm (digit_ne_tis _ (by omega))
  | case3 a b =>
      have ha := hl a (by simp)
      have hb := hl b (by simp)
      match k with
      | [] => cases h
      | [_] =>
          simp only [base64, List.cons.injEq] at h
          exact absurd h.2.2.1 (digit_ne_tis _ (by omega))
      | [a', b'] =>
          have ha' := hk a' (by simp)
          have hb' := hk b' (by simp)
          simp only [base64, List.cons.injEq] at h
          obtain ⟨rfl, rfl, -⟩ := group_inj hlt hlt hb hb' ha ha' h.1 h.2.1 h.2.2.1 hzero
          rfl
      | _ :: _ :: c' :: _ =>
          simp only [base64, List.cons.injEq] at h
          exact absurd h.2.2.2.1.symm (digit_ne_tis _ (by omega))
  | case4 a b c t ih =>
      have ha := hl a (by simp)
      have hb := hl b (by simp)
      have hc := hl c (by simp)
      match k with
      | [] => cases h
      | [_] =>
          simp only [base64, List.cons.injEq] at h
          exact absurd h.2.2.1 (digit_ne_tis _ (by omega))
      | [_, _] =>
          simp only [base64, List.cons.injEq] at h
          exact absurd h.2.2.2.1 (digit_ne_tis _ (by omega))
      | a' :: b' :: c' :: t' =>
          have ha' := hk a' (by simp)
          have hb' := hk b' (by simp)
          have hc' := hk c' (by simp)
          simp only [base64, List.cons.injEq] at h
          obtain ⟨rfl, rfl, rfl⟩ := group_inj hc hc' hb hb' ha ha' h.1 h.2.1 h.2.2.1 h.2.2.2.1
          rw [ih (fun x hx => hl x (by simp [hx])) (fun x hx => hk x (by simp [hx])) h.2.2.2.2]

end bytes

/-! ### What `++sifo` computes -/

section sifo

variable {tig : Nat}

theorem sifLoop_eq (pad : Nat) : sifLoop pad = (Nat.digits 64 pad).map digit := by
  induction pad using sifLoop.induct with
  | case1 => rw [sifLoop, dif_pos rfl, Nat.digits_zero, List.map_nil]
  | case2 pad h ih =>
      rw [sifLoop, dif_neg h, ih, Nat.digits_def' (by decide) (Nat.pos_of_ne_zero h), List.map_cons]
      simp [«end», rsh]

theorem trip_fil {poc : Nat} (h : poc < 3) :
    trip (fil 3 poc '=') = List.replicate poc '='.toNat := by
  match poc, h with
  | 0, _ => simp [fil, filLoop, trip_eq]
  | 1, _ => simp [fil, filLoop, trip_eq, lsh]
  | 2, _ => simp [fil, filLoop, trip_eq, lsh]

/-- The number that is written out is the one that the groups spell. -/
theorem pad_eq (tig : Nat) :
    lsh 3 (missing (met 3 tig)) (swap 3 tig) =
      Nat.ofDigits 64 (sextets (rip 3 tig ++ List.replicate (missing (met 3 tig)) 0)).reverse := by
  have hbytes : ∀ x ∈ rip 3 tig, x < 256 := fun x hx => rip_lt hx
  rw [sextets_value]
  · rw [List.reverse_append, List.reverse_replicate, Nat.ofDigits_append, Nat.ofDigits_replicate_zero,
      Nat.zero_add, List.length_replicate, swap, rep_eq, join_eq_ofDigits fun x hx =>
        hbytes x (List.mem_reverse.mp hx), lsh, bex_eq, bex_eq, two_pow_bytes]
    rfl
  · intro x hx
    rcases List.mem_append.mp hx with hx | hx
    · exact hbytes x hx
    · rw [List.eq_of_mem_replicate hx]
      decide
  · rw [List.length_append, List.length_replicate, length_rip]
    unfold missing
    omega

/-- What is written out: the digits of the number, without those for the bytes that were added. -/
theorem sifo_eq (tig : Nat) {sif : Tape}
    (hsif : sif = ((Nat.digits 64 (Nat.ofDigits 64
      (sextets (rip 3 tig ++ List.replicate (missing (met 3 tig)) 0)).reverse)).reverse.map digit)) :
    sifo tig =
      if sif.length < missing (met 3 tig) then none
      else some (sif.take (sif.length - missing (met 3 tig)) ++
        List.replicate (missing (met 3 tig)) '='.toNat) := by
  have hm : missing (met 3 tig) < 3 := Nat.mod_lt _ (by decide)
  have hloop : (sifLoop (lsh 3 (missing (met 3 tig)) (swap 3 tig))).reverse = sif := by
    rw [hsif, pad_eq, sifLoop_eq, List.map_reverse]
  have hpoc : (3 - met 3 tig % 3) % 3 = missing (met 3 tig) := rfl
  simp only [sifo, hpoc, hloop, trip_fil hm]

/-- The first group of the text is that of the first byte. -/
theorem sextets_rip (h : tig ≠ 0) :
    ∃ S, sextets (rip 3 tig ++ List.replicate (missing (met 3 tig)) 0) = tig % 256 / 4 :: S := by
  have hrip : rip 3 tig = tig % 256 :: rip 3 (tig / 256) := rip_step h
  have hlen : (rip 3 tig ++ List.replicate (missing (met 3 tig)) 0).length % 3 = 0 := by
    rw [List.length_append, List.length_replicate, length_rip]
    unfold missing
    omega
  rw [hrip, List.cons_append] at hlen ⊢
  generalize rip 3 (tig / 256) ++ List.replicate (missing (met 3 tig)) 0 = t at hlen ⊢
  match t, hlen with
  | [], hlen => simp at hlen
  | [_], hlen => simp at hlen
  | b :: c :: t, _ => exact ⟨_, rfl⟩

/-- The atoms that are encoded as they should be. -/
def Encodes (tig : Nat) : Prop := tig = 0 ∨ 4 ≤ tig % 256

instance (tig : Nat) : Decidable (Encodes tig) := inferInstanceAs (Decidable (_ ∨ _))

theorem sifo_standard (h : Encodes tig) : sifo tig = some (base64 (rip 3 tig)) := by
  rw [sifo_eq tig rfl, base64_eq, length_rip]
  by_cases h0 : tig = 0
  · subst h0
    simp [rip_zero, met, metLoop, missing, sextets]
  · have h4 : 4 ≤ tig % 256 := h.resolve_left h0
    obtain ⟨S, hS⟩ := sextets_rip h0
    have hbytes : ∀ x ∈ rip 3 tig ++ List.replicate (missing (met 3 tig)) 0, x < 256 := by
      intro x hx
      rcases List.mem_append.mp hx with hx | hx
      · exact rip_lt hx
      · rw [List.eq_of_mem_replicate hx]
        decide
    have hlt := sextets_lt hbytes
    have hlen := length_sextets (rip 3 tig ++ List.replicate (missing (met 3 tig)) 0)
    rw [List.length_append, List.length_replicate, length_rip] at hlen
    have hdigits : Nat.digits 64 (Nat.ofDigits 64
        (sextets (rip 3 tig ++ List.replicate (missing (met 3 tig)) 0)).reverse) =
          (sextets (rip 3 tig ++ List.replicate (missing (met 3 tig)) 0)).reverse := by
      refine Nat.digits_ofDigits 64 (by decide) _ (fun d hd => hlt d (List.mem_reverse.mp hd)) ?_
      intro hne
      rw [List.getLast_reverse]
      simp only [hS, List.head_cons]
      omega
    have hm : missing (met 3 tig) < 3 := Nat.mod_lt _ (by decide)
    have hpos : 0 < (sextets (rip 3 tig ++ List.replicate (missing (met 3 tig)) 0)).length := by
      rw [hS]
      exact Nat.succ_pos _
    rw [hdigits, List.reverse_reverse, List.length_map, if_neg (by omega), hlen]

theorem sifo_short (h : ¬Encodes tig) : sifo tig ≠ some (base64 (rip 3 tig)) := by
  unfold Encodes at h
  rw [not_or] at h
  obtain ⟨S, hS⟩ := sextets_rip h.1
  have hlen := length_sextets (rip 3 tig ++ List.replicate (missing (met 3 tig)) 0)
  rw [List.length_append, List.length_replicate, length_rip] at hlen
  have hbytes : ∀ x ∈ rip 3 tig ++ List.replicate (missing (met 3 tig)) 0, x < 256 := by
    intro x hx
    rcases List.mem_append.mp hx with hx | hx
    · exact rip_lt hx
    · rw [List.eq_of_mem_replicate hx]
      decide
  have hlt := sextets_lt hbytes
  rw [hS] at hlen hlt
  -- the first group is zero, so that the number has fewer digits than there are groups
  have hvalue : Nat.ofDigits 64 (tig % 256 / 4 :: S).reverse < 64 ^ S.length := by
    rw [List.reverse_cons, Nat.ofDigits_append, show tig % 256 / 4 = 0 by omega,
      Nat.ofDigits_singleton, Nat.mul_zero, Nat.add_zero, ← List.length_reverse]
    exact Nat.ofDigits_lt_base_pow_length (by decide) fun d hd =>
      hlt d (List.mem_cons_of_mem _ (List.mem_reverse.mp hd))
  have hdigits := (Nat.digits_length_le_iff (by decide : 1 < 64) _).mpr hvalue
  rw [sifo_eq tig rfl, hS]
  intro heq
  split at heq
  · cases heq
  · next hle =>
      have heq := congrArg List.length (Option.some.inj heq)
      rw [length_base64, length_rip, List.length_append, List.length_take, List.length_replicate,
        List.length_map, List.length_reverse] at heq
      rw [List.length_map, List.length_reverse] at hle
      rw [List.length_cons] at hlen
      omega

/-- The encoding of an atom is the standard one of its bytes, the lowest first, exactly if the
first byte is 4 or more. Atoms for which it is have different encodings. -/
theorem sifo_iff (tig : Nat) :
    (sifo tig = some (base64 (rip 3 tig)) ↔ Encodes tig) ∧
      ∀ gat, Encodes tig → Encodes gat → sifo tig = sifo gat → tig = gat := by
  refine ⟨⟨fun h => ?_, sifo_standard⟩, fun gat ht hg heq => ?_⟩
  · by_contra hno
    exact sifo_short hno h
  · rw [sifo_standard ht, sifo_standard hg] at heq
    have hrip := base64_inj (fun x hx => rip_lt hx) (fun x hx => rip_lt hx) (Option.some.inj heq)
    rw [← join_rip 3 tig, hrip, join_rip]

/-- The atom 1 has six zero bits in front, and its encoding is a digit short. -/
theorem one_short : ¬∀ tig : Nat, sifo tig = some (base64 (rip 3 tig)) := by
  intro h
  have h1 := (sifo_iff 1).1.mp (h 1)
  exact absurd h1 (by decide)

end sifo

end Vere.Zuse
