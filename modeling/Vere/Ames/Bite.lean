import Vere.Ames.Carp
import Vere.Hoon.Mug

/-!
# Vere.Ames.Bite

Packets (`ames.hoon`, section 4aB): `++spit` writes a cake into an atom and `++bite` reads it.

The header is a word: the version, a checksum of the rest, how wide the two addresses are, and the
skin. An address takes two, four, eight or sixteen bytes, the least that holds it, so a cake comes
back when its addresses fit sixteen bytes, and whatever `bite` accepts has such addresses
(`bite_spit_round`).
-/

namespace Vere.Ames

open Vere.Lib Vere.Hoon

/-- `++cake`: sender and receiver, skin, content. -/
structure Cake where
  p : Nat × Nat
  q : Skin
  r : Nat
  deriving DecidableEq

/-- `++bite`: packet to cake. -/
def bite (pac : Nat) : Option Cake :=
  let mag := «end» 5 1 pac
  let bod := rsh 5 1 pac
  -- protocol version
  let vez := «end» 0 3 mag
  -- checksum
  let chk := cut 0 3 20 mag
  -- width of receiver
  let wix := bex (cut 0 23 2 mag + 1)
  -- width of sender
  let vix := bex (cut 0 25 2 mag + 1)
  -- message type
  let tay := cut 0 27 5 mag
  if 6 = vez then
    if chk = «end» 0 20 (mug (.atom bod)) then do
      let sin ← kins tay
      return ⟨(«end» 3 wix bod, cut 3 wix vix bod), sin, rsh 3 (wix + vix) bod⟩
    else none
  else none

/-- `yax` and `qax` of `++spit`: the width of an address of so many bytes. -/
def axle (wim : Nat) : Nat := if wim ≤ 2 then 0 else if wim ≤ 4 then 1 else if wim ≤ 8 then 2 else 3

/-- `++spit`: cake to packet. -/
def spit (kec : Cake) : Nat :=
  let yax := axle (met 3 kec.p.1)
  let qax := axle (met 3 kec.p.2)
  let wix := bex (yax + 1)
  let vix := bex (qax + 1)
  let bod := mix kec.p.1 (mix (lsh 3 wix kec.p.2) (lsh 3 (wix + vix) kec.r))
  let tay := ksin kec.q
  mix (can 0 [(3, 6), (20, mug (.atom bod)), (2, yax), (2, qax), (5, tay)]) (lsh 5 1 bod)

/-! ### The body -/

/-- The body of a packet: the addresses in their widths, and the content. -/
def body (wix vix p q r : Nat) : Nat := p + 256 ^ wix * (q + 256 ^ vix * r)

section body

variable {wix vix p q r : Nat}

theorem lsh_bytes (b c : Nat) : lsh 3 b c = 2 ^ (8 * b) * c := by
  simp [lsh]

theorem mix_body (hp : p < 256 ^ wix) (hq : q < 256 ^ vix) :
    mix p (mix (lsh 3 wix q) (lsh 3 (wix + vix) r)) = body wix vix p q r := by
  have h256 : ∀ n, 2 ^ (8 * n) = 256 ^ n := fun n => by rw [Nat.pow_mul]
  have hp' : p < 2 ^ (8 * wix) := by rwa [h256]
  have hq' : q < 2 ^ (8 * vix) := by rwa [h256]
  rw [mix_eq, mix_eq, lsh_bytes, lsh_bytes, Nat.mul_add, Nat.pow_add, Nat.mul_assoc, ← two_pow_mul_xor,
    xor_shift hq', xor_shift hp', body, h256, h256]

theorem body_low (hp : p < 256 ^ wix) : «end» 3 wix (body wix vix p q r) = p := by
  rw [end_bytes, body, Nat.add_mul_mod_self_left, Nat.mod_eq_of_lt hp]

theorem body_rsh (hp : p < 256 ^ wix) : rsh 3 wix (body wix vix p q r) = q + 256 ^ vix * r := by
  rw [rsh_bytes, body, Nat.add_mul_div_left _ _ (Nat.pow_pos (by decide)), Nat.div_eq_of_lt hp,
    Nat.zero_add]

theorem body_mid (hp : p < 256 ^ wix) (hq : q < 256 ^ vix) :
    cut 3 wix vix (body wix vix p q r) = q := by
  rw [cut, body_rsh hp, end_bytes, Nat.add_mul_mod_self_left, Nat.mod_eq_of_lt hq]

theorem body_high (hp : p < 256 ^ wix) (hq : q < 256 ^ vix) :
    rsh 3 (wix + vix) (body wix vix p q r) = r := by
  have hrsh : rsh 3 (wix + vix) (body wix vix p q r) = rsh 3 vix (rsh 3 wix (body wix vix p q r)) := by
    rw [rsh_bytes, rsh_bytes, rsh_bytes, Nat.pow_add, Nat.div_div_eq_div_mul]
  rw [hrsh, body_rsh hp, rsh_bytes, Nat.add_mul_div_left _ _ (Nat.pow_pos (by decide)),
    Nat.div_eq_of_lt hq, Nat.zero_add]

end body

/-! ### The header -/

/-- The header of a packet. -/
def header (chk yax qax tay : Nat) : Nat := 6 + 8 * (chk + 1048576 * (yax + 4 * (qax + 4 * tay)))

section header

variable {chk yax qax tay : Nat}

theorem can_header (hy : yax < 4) (hq : qax < 4) (ht : tay < 32) (mug : Nat) :
    can 0 [(3, 6), (20, mug), (2, yax), (2, qax), (5, tay)] =
      header («end» 0 20 mug) yax qax tay := by
  simp only [can_cons, can_nil, end_zero, header]
  omega

theorem header_lt (hc : chk < 1048576) (hy : yax < 4) (hq : qax < 4) (ht : tay < 32) :
    header chk yax qax tay < 2 ^ 32 := by
  unfold header
  omega

theorem header_fields (hc : chk < 1048576) (hy : yax < 4) (hq : qax < 4) (ht : tay < 32) :
    «end» 0 3 (header chk yax qax tay) = 6 ∧ cut 0 3 20 (header chk yax qax tay) = chk ∧
      cut 0 23 2 (header chk yax qax tay) = yax ∧ cut 0 25 2 (header chk yax qax tay) = qax ∧
      cut 0 27 5 (header chk yax qax tay) = tay := by
  simp only [end_zero, cut_zero, field, header]
  omega

end header

/-! ### Round trips -/

theorem axle_lt (wim : Nat) : axle wim < 4 := by
  unfold axle
  split
  · decide
  split
  · decide
  split <;> decide

/-- An address of sixteen bytes at most fits its width. -/
theorem axle_fits {p : Nat} (hp : p < 2 ^ 128) : p < 256 ^ bex (axle (met 3 p) + 1) := by
  have hmet : met 3 p ≤ 16 := met_bytes_le.mpr (by simpa using hp)
  rw [← met_bytes_le, bex_eq]
  unfold axle
  split
  · assumption
  split
  · assumption
  split
  · assumption
  · exact hmet

theorem ksin_lt (sin : Skin) : ksin sin < 32 := by cases sin <;> decide

/-- A cake with addresses of sixteen bytes comes back. -/
theorem bite_of_spit (kec : Cake) (hp : kec.p.1 < 2 ^ 128) (hq : kec.p.2 < 2 ^ 128) :
    bite (spit kec) = some kec := by
  obtain ⟨⟨p, q⟩, sin, r⟩ := kec
  have hp' := axle_fits hp
  have hq' := axle_fits hq
  have hy := axle_lt (met 3 p)
  have hx := axle_lt (met 3 q)
  have ht := ksin_lt sin
  generalize hbod : body (bex (axle (met 3 p) + 1)) (bex (axle (met 3 q) + 1)) p q r = bod
  have hc : «end» 0 20 (mug (.atom bod)) < 1048576 := by
    rw [end_zero]
    exact Nat.mod_lt _ (by decide)
  have hmag := header_lt hc hy hx ht
  obtain ⟨hvez, hchk, hwix, hvix, htay⟩ := header_fields hc hy hx ht
  have hspit : spit ⟨(p, q), sin, r⟩ =
      header («end» 0 20 (mug (.atom bod))) (axle (met 3 p)) (axle (met 3 q)) (ksin sin) +
        2 ^ 32 * bod := by
    have hlsh : lsh 5 1 bod = 2 ^ 32 * bod := by simp [lsh]
    simp only [spit]
    rw [mix_body hp' hq', hbod, can_header hy hx ht, hlsh, mix_eq, xor_shift hmag]
  have hend : «end» 5 1 (spit ⟨(p, q), sin, r⟩) =
      header («end» 0 20 (mug (.atom bod))) (axle (met 3 p)) (axle (met 3 q)) (ksin sin) := by
    rw [hspit, «end», bex_eq, bex_eq]
    exact (Nat.add_mul_mod_self_left _ _ _).trans (Nat.mod_eq_of_lt hmag)
  have hrsh : rsh 5 1 (spit ⟨(p, q), sin, r⟩) = bod := by
    rw [hspit, rsh, bex_eq, bex_eq]
    refine (Nat.add_mul_div_left _ _ (Nat.two_pow_pos 32)).trans ?_
    rw [Nat.div_eq_of_lt hmag, Nat.zero_add]
  simp only [bite, hend, hrsh, hvez, hchk, hwix, hvix, htay, if_true, kins_ksin]
  rw [← hbod, body_low hp', body_mid hp' hq', body_high hp' hq']
  rfl

/-- What `bite` accepts has addresses of sixteen bytes at most. -/
theorem bite_lt {pac : Nat} {kec : Cake} (h : bite pac = some kec) :
    kec.p.1 < 2 ^ 128 ∧ kec.p.2 < 2 ^ 128 := by
  simp only [bite] at h
  split at h
  · split at h
    · obtain ⟨sin, -, hkec⟩ := Option.bind_eq_some_iff.mp h
      obtain rfl := Option.some.inj hkec
      have hwide : ∀ b : Nat, 256 ^ bex (cut 0 b 2 («end» 5 1 pac) + 1) ≤ 2 ^ 128 := by
        intro b
        have hlt : cut 0 b 2 («end» 5 1 pac) < 4 := by
          rw [cut_zero]
          exact field_lt _ _ _
        have hpow : 2 ^ (cut 0 b 2 («end» 5 1 pac) + 1) ≤ 2 ^ 4 :=
          Nat.pow_le_pow_right (by decide) hlt
        rw [bex_eq]
        exact Nat.pow_le_pow_right (by decide) hpow
      refine ⟨lt_of_lt_of_le ?_ (hwide 23), lt_of_lt_of_le ?_ (hwide 25)⟩
      · rw [end_bytes]
        exact Nat.mod_lt _ (Nat.pow_pos (Nat.zero_lt_succ 255))
      · show cut 3 _ _ _ < _
        rw [cut, end_bytes]
        exact Nat.mod_lt _ (Nat.pow_pos (Nat.zero_lt_succ 255))
    · cases h
  · cases h

/-- Cakes with addresses below 2^128 come back, and what `bite` makes of a packet it makes of the
packet written anew. -/
theorem bite_spit_round :
    (∀ kec : Cake, kec.p.1 < 2 ^ 128 → kec.p.2 < 2 ^ 128 → bite (spit kec) = some kec) ∧
      ∀ (pac : Nat) (kec : Cake), bite pac = some kec → bite (spit kec) = some kec := by
  refine ⟨bite_of_spit, fun pac kec h => ?_⟩
  obtain ⟨hp, hq⟩ := bite_lt h
  exact bite_of_spit kec hp hq

/-- Addresses of no byte and of three, and a content that starts with a zero byte. -/
theorem bite_spit_zero :
    bite (spit ⟨(0, 0x10000), .fast, 0x500⟩) = some ⟨(0, 0x10000), .fast, 0x500⟩ :=
  bite_spit_round.1 ⟨(0, 0x10000), .fast, 0x500⟩ (by decide) (by decide)

end Vere.Ames
