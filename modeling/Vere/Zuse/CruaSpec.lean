import Vere.Zuse.Crua

/-!
# Vere.Zuse.CruaSpec

What the suite of `Vere.Zuse.Crua` gets back: padding, signatures and sealed messages
(`crua_suite`).
-/

namespace Vere.Zuse

open Vere.Hoon Vere.Lib

variable {p q : Nat}

/-- Two primes that make a key of the suite. -/
structure Key (p q : Nat) : Prop where
  prime_p : p.Prime
  prime_q : q.Prime
  odd_p : p ≠ 2
  odd_q : q ≠ 2
  ne : p ≠ q
  coprime : Nat.Coprime ((p - 1) * (q - 1)) 15
  size : 400 ≤ met 0 (p * q)

/-! ### `++fu` -/

theorem fu_spec (h : Key p q) : ∃ b, fu p q = some ⟨p, q, b⟩ ∧ q * b % p = 1 := by
  have hp := h.prime_p.one_lt
  have hcop : Nat.Coprime (q % p) p := by
    rw [Nat.Coprime, ← Nat.gcd_rec]
    exact (Nat.coprime_primes h.prime_p h.prime_q).2 h.ne
  obtain ⟨b, hinv, -, hone⟩ := Fo.inv_spec hp hcop
  refine ⟨b, ?_, by rw [← Nat.mod_mul_mod, hone]⟩
  rw [fu, if_neg (by omega), Fo.sit_eq hp]
  simp [hinv]

namespace Fu

/-- Garner's formula meets both residues below the product. -/
theorem out_spec {b : Nat} (h : Key p q) (hb : q * b % p = 1) {c : Nat × Nat}
    (hd : c.2 < q) : ∃ n, out ⟨p, q, b⟩ c = some n ∧ n < p * q ∧ n ≡ c.1 [MOD p] ∧
      n ≡ c.2 [MOD q] := by
  have hp := h.prime_p.one_lt
  have hlt := Nat.mod_lt c.2 (by omega : p > 0)
  refine ⟨c.2 + q * (b * ((p + c.1 - c.2 % p) % p) % p), ?_, ?_, ?_, ?_⟩
  · simp only [out, foDif, Fo.pro, Fo.sit_eq hp, Option.bind_eq_bind, Option.bind_some,
      Nat.mod_mod]
    rw [if_neg (by omega)]
    rfl
  · have hr := Nat.mod_lt (b * ((p + c.1 - c.2 % p) % p)) (by omega : p > 0)
    calc _ < q * 1 + q * (b * ((p + c.1 - c.2 % p) % p) % p) := by omega
      _ = q * (b * ((p + c.1 - c.2 % p) % p) % p + 1) := by ring
      _ ≤ q * p := Nat.mul_le_mul_left q hr
      _ = p * q := Nat.mul_comm q p
  · have hone : q * b ≡ 1 [MOD p] := hb.trans (Nat.mod_eq_of_lt hp).symm
    calc c.2 + q * (b * ((p + c.1 - c.2 % p) % p) % p)
        ≡ c.2 + q * (b * (p + c.1 - c.2 % p)) [MOD p] :=
          .add_left _ (.mul_left _ ((Nat.mod_modEq _ _).trans (.mul_left _ (Nat.mod_modEq _ _))))
      _ ≡ c.2 % p + 1 * (p + c.1 - c.2 % p) [MOD p] := by
          rw [← Nat.mul_assoc]
          exact (Nat.mod_modEq _ _).symm.add (hone.mul_right _)
      _ = p + c.1 := by omega
      _ ≡ c.1 [MOD p] := by simp [Nat.ModEq]
  · simp [Nat.ModEq]

end Fu

namespace Crua

/-- To raise is to raise modulo both primes. -/
theorem raise_spec {b : Nat} (h : Key p q) (hb : q * b % p = 1) (d x : Nat) :
    ∃ n, raise ⟨p, q, b⟩ d x = some n ∧ n < p * q ∧ n ≡ x ^ (d % (p - 1)) [MOD p] ∧
      n ≡ x ^ (d % (q - 1)) [MOD q] := by
  have hp := h.prime_p.one_lt
  have hq := h.prime_q.one_lt
  obtain ⟨n, hn, hlt, hl, hr⟩ := Fu.out_spec h hb
    (c := ((x % p) ^ (d % (p - 1)) % p, (x % q) ^ (d % (q - 1)) % q))
    (Nat.mod_lt _ (by omega))
  refine ⟨n, ?_, hlt, ?_, ?_⟩
  · rw [raise, Fu.sit, if_neg (by simp only; omega), Option.bind_eq_bind, Option.bind_some, Fu.exp,
      if_neg (by simp only; omega), Fo.exp_spec hp, Fo.exp_spec hq]
    exact hn
  · exact hl.trans ((Nat.mod_modEq _ _).trans ((Nat.mod_modEq _ _).pow _))
  · exact hr.trans ((Nat.mod_modEq _ _).trans ((Nat.mod_modEq _ _).pow _))

/-- An exponent of a key inverts modulo what both primes leave. -/
theorem eldm_spec {e : Nat} (h : Key p q) (he : e ∣ 15) :
    ∃ d, eldm e p q = some d ∧ d * e % (p - 1) = 1 ∧ d * e % (q - 1) = 1 := by
  have hp : 1 < p - 1 := by have := h.prime_p.two_le; have := h.odd_p; omega
  have hq : 1 < q - 1 := by have := h.prime_q.two_le; have := h.odd_q; omega
  obtain ⟨u, v, hgcd, -⟩ := egcd_spec (p - 1) (q - 1)
  have hpos : Nat.gcd (p - 1) (q - 1) ≠ 0 := (Nat.gcd_pos_of_pos_left _ (by omega)).ne'
  have hlcm : elcm (p - 1) (q - 1) = some (Nat.lcm (p - 1) (q - 1)) := by
    simp [elcm, hgcd, hpos, Nat.lcm_eq_mul_div]
  have hl := Nat.dvd_lcm_left (p - 1) (q - 1)
  have hr := Nat.dvd_lcm_right (p - 1) (q - 1)
  have hone : 1 < Nat.lcm (p - 1) (q - 1) :=
    hp.trans_le (Nat.le_of_dvd (Nat.lcm_pos (by omega) (by omega)) hl)
  have hcop : Nat.Coprime e (Nat.lcm (p - 1) (q - 1)) :=
    ((h.coprime.coprime_dvd_right he).coprime_dvd_left (Nat.lcm_dvd_mul _ _)).symm
  obtain ⟨d, hinv, -, hmod⟩ := Fo.inv_spec hone hcop
  refine ⟨d, ?_, ?_, ?_⟩
  · rw [eldm, if_neg (by omega), hlcm]
    exact hinv
  · rw [Nat.mul_comm, ← Nat.mod_mod_of_dvd _ hl, hmod, Nat.mod_eq_of_lt hp]
  · rw [Nat.mul_comm, ← Nat.mod_mod_of_dvd _ hr, hmod, Nat.mod_eq_of_lt hq]

/-- Two different primes, and an exponent with its inverse. -/
structure Inverse (p q e d : Nat) : Prop where
  key : Key p q
  left : d * e % (p - 1) = 1
  right : d * e % (q - 1) = 1

/-- What is raised modulo the primes is taken back modulo the product. -/
theorem power_raise {b d e x : Nat} (h : Inverse p q e d) (hb : q * b % p = 1) (hx : x < p * q) :
    ∃ n, raise ⟨p, q, b⟩ d x = some n ∧ n < p * q ∧ Fo.exp (p * q) e n = some x := by
  have hk := h.key
  obtain ⟨n, hn, hlt, hl, hr⟩ := raise_spec hk hb d x
  have hone : 1 < p * q := one_lt_mul'' hk.prime_p.one_lt hk.prime_q.one_lt
  refine ⟨n, hn, hlt, ?_⟩
  rw [Fo.exp_spec hone, Option.some.injEq]
  refine eq_of_modEq hk.prime_p hk.prime_q hk.ne (Nat.mod_lt _ (by omega)) hx ?_ ?_
  · exact ((Nat.mod_modEq _ _).of_mul_right q).trans
      ((hl.pow e).trans (pow_pow_modEq hk.prime_p h.left x))
  · exact ((Nat.mod_modEq _ _).of_mul_left p).trans
      ((hr.pow e).trans (pow_pow_modEq hk.prime_q h.right x))

/-- What is raised modulo the product is taken back modulo the primes. -/
theorem raise_power {b d e x : Nat} (h : Inverse p q e d) (hb : q * b % p = 1) (hx : x < p * q) :
    ∃ n, Fo.exp (p * q) e x = some n ∧ n < p * q ∧ raise ⟨p, q, b⟩ d n = some x := by
  have hk := h.key
  have hone : 1 < p * q := one_lt_mul'' hk.prime_p.one_lt hk.prime_q.one_lt
  obtain ⟨n, hn, hlt, hl, hr⟩ := raise_spec hk hb d (x ^ e % (p * q))
  refine ⟨_, Fo.exp_spec hone e x, Nat.mod_lt _ (by omega), ?_⟩
  rw [hn, Option.some.injEq]
  refine eq_of_modEq hk.prime_p hk.prime_q hk.ne hlt hx ?_ ?_
  · refine (hl.trans (((Nat.mod_modEq _ _).of_mul_right q).pow _)).trans ?_
    rw [← pow_mul, Nat.mul_comm, pow_mul]
    exact pow_pow_modEq hk.prime_p h.left x
  · refine (hr.trans (((Nat.mod_modEq _ _).of_mul_left p).pow _)).trans ?_
    rw [← pow_mul, Nat.mul_comm, pow_mul]
    exact pow_pow_modEq hk.prime_q h.right x

/-- A secret suite: it takes back what any suite of its product raises, and the other way round. -/
structure Opens (k : Crua) : Prop where
  size : 400 ≤ met 0 k.mos
  pump : ∀ x < k.mos, ∃ n, k.pump x = some n ∧ n < k.mos ∧
    ∀ her : Crua, her.mos = k.mos → her.pull n = some x
  punt : ∀ x < k.mos, ∃ n, k.punt n = some x ∧ n < k.mos ∧
    ∀ her : Crua, her.mos = k.mos → her.push x = some n

theorem ofPrimes_opens (h : Key p q) : ∃ k, ofPrimes p q = some k ∧ k.mos = p * q ∧ Opens k := by
  obtain ⟨b, hfu, hb⟩ := fu_spec h
  obtain ⟨d, hd, hdl, hdr⟩ := eldm_spec h (by decide : 3 ∣ 15)
  obtain ⟨f, hf, hfl, hfr⟩ := eldm_spec h (by decide : 5 ∣ 15)
  refine ⟨⟨p * q, some ⟨p, q, (d, f), ⟨p, q, b⟩⟩⟩, ?_, rfl, h.size, fun x hx => ?_, fun x hx => ?_⟩
  · simp [ofPrimes, ersa, hd, hf, hfu]
  · obtain ⟨n, hn, hlt, hpow⟩ := power_raise ⟨h, hdl, hdr⟩ hb hx
    exact ⟨n, hn, hlt, fun her hher => by rw [pull, hher, hpow]⟩
  · obtain ⟨n, hpow, hlt, hn⟩ := raise_power ⟨h, hfl, hfr⟩ hb hx
    exact ⟨n, hn, hlt, fun her hher => by rw [push, hher, hpow]⟩

/-! ### Padding -/

section Suite

variable (sha : Sha) (mug : Noun → Nat) {k her : Crua}

theorem pad_isSome {w x r m : Nat} (hx : x ≤ w) (hm : x + met 0 m ≤ w) :
    ∃ dog, pad sha w (x, r) m = some dog := by
  rw [pad, if_neg (by simp only; omega)]
  simp only
  rw [if_neg (by omega)]
  exact ⟨_, rfl⟩

variable {sha} in
/-- What is padded is read back, and is below the width. -/
theorem dap_pad {w x r m dog : Nat} (h : pad sha w (x, r) m = some dog) (hr : met 0 r ≤ x) :
    dap sha w x dog = some (r, m) ∧ dog < 2 ^ w := by
  rw [pad] at h
  split at h
  · cases h
  next hw =>
  simp only at h hw
  split at h
  · cases h
  next hm =>
  rw [met_zero] at hr hm
  have hr2 := Nat.size_le.1 hr
  have hm2 := Nat.size_le.1 (Nat.le_of_not_lt hm)
  have hsplit : 2 ^ w = 2 ^ x * 2 ^ (w - x) := by
    rw [← pow_add, Nat.add_sub_cancel' (Nat.le_of_not_lt hw)]
  rw [mix_eq, mix_eq] at h
  set qoy := m ^^^ sha.shaw (rap 3 ['p', 'a', 'd', '-', 'a']) (w - x) r with hqoy
  set dez := r ^^^ sha.shaw (rap 3 ['p', 'a', 'd', '-', 'b']) x qoy with hdez
  have hq : qoy < 2 ^ (w - x) := Nat.xor_lt_two_pow hm2 (sha.shaw_lt _ _ _)
  have hd : dez < 2 ^ x := Nat.xor_lt_two_pow hr2 (sha.shaw_lt _ _ _)
  have hdog : dog = dez + 2 ^ x * qoy := by
    rw [← Option.some.inj h, can_cons, can_cons, can_nil, pow_zero, one_mul, one_mul,
      Nat.mod_eq_of_lt hd, Nat.mod_eq_of_lt hq]
    simp
  have hcut : cut 0 x (w - x) dog = qoy := by
    rw [cut_zero, field, hdog, Nat.add_mul_div_left _ _ (Nat.two_pow_pos x),
      Nat.div_eq_of_lt hd, Nat.zero_add, Nat.mod_eq_of_lt hq]
  have hend : «end» 0 x dog = dez := by
    rw [end_zero, hdog, Nat.add_mul_mod_self_left, Nat.mod_eq_of_lt hd]
  refine ⟨?_, ?_⟩
  · rw [dap, if_neg hw]
    simp only [hcut, hend, mix_eq]
    rw [hdez, Nat.xor_assoc, Nat.xor_self, Nat.xor_zero, hqoy, Nat.xor_assoc, Nat.xor_self,
      Nat.xor_zero]
  · rw [hdog, hsplit]
    calc dez + 2 ^ x * qoy < 2 ^ x + 2 ^ x * qoy := by omega
      _ = 2 ^ x * (qoy + 1) := by ring
      _ ≤ 2 ^ x * 2 ^ (w - x) := Nat.mul_le_mul_left _ hq

/-! ### Messages -/

@[simp] theorem end_mark (det : Bool) (n : Nat) :
    «end» 0 1 (mark (det, n)) = if det then 0 else 1 := by
  cases det <;> simp [mark]

@[simp] theorem rsh_mark (det : Bool) (n : Nat) : rsh 0 1 (mark (det, n)) = n := by
  cases det
  · simp only [mark, rsh, bex_eq, lsh_zero]
    norm_num
    omega
  · simp [mark, rsh]

/-- What was sent beside a message comes back with it. -/
theorem gox_mark (det : Bool) (hog n : Nat) :
    gox mug det (rsh 0 1 (mark (det, if det then hog
      else jam mug (.cell (.atom hog) (.atom n))))) = some (hog, if det then 0 else n) := by
  rw [rsh_mark]
  cases det
  · simp [gox, cue_jam_hoon, hardPair]
  · simp [gox]

theorem det_mark (det : Bool) (n : Nat) : decide (0 = «end» 0 1 (mark (det, n))) = det := by
  rw [end_mark]
  cases det <;> rfl

theorem haul_pub (k : Crua) : haul (pub k) = some ⟨k.mos, none⟩ := by
  have hmet : met 3 'a'.toNat = 1 := met_block (by decide) (by decide)
  have hlt : 'a'.toNat < 256 := by decide
  have hpub : pub k = 'a'.toNat + 256 * k.mos := by
    rw [pub, cat, hmet, lsh, Nat.add_comm]
    norm_num
  rw [haul, hpub, «end», rsh]
  simp only [bex_eq, mul_one]
  norm_num
  omega

theorem Opens.mx_eq (h : Opens k) : mx k = some (met 0 k.mos - 1) := by
  have := h.size
  rw [mx, if_neg (by omega)]

/-- What is padded to the width of a suite is below its product. -/
theorem Opens.lt_mos (h : Opens k) {dog : Nat} (hd : dog < 2 ^ (met 0 k.mos - 1)) :
    dog < k.mos := by
  have hs := h.size
  rw [met_zero] at hs hd
  refine hd.trans_le (two_pow_size_pred_le (Nat.pos_of_ne_zero ?_))
  intro h0
  rw [h0, Nat.size_zero] at hs
  omega

/-- A signature, and how long it is where it holds what it signs. -/
theorem sign_eq (h : Opens k) (a b : Nat) : ∃ dog hog,
    pad sha (met 0 k.mos - 1) (128, sha.shaf (mix (rap 3 ['a', 'g', 'i', 's']) a) b)
      (if decide (128 + met 0 b ≤ met 0 k.mos - 1) then b else 0) = some dog ∧ hog < k.mos ∧
    (∀ her : Crua, her.mos = k.mos → her.pull hog = some dog) ∧
    sign sha mug k a b = some (mark (decide (128 + met 0 b ≤ met 0 k.mos - 1),
      if decide (128 + met 0 b ≤ met 0 k.mos - 1) then hog
      else jam mug (.cell (.atom hog) (.atom b)))) := by
  have hs := h.size
  have hfit : 128 + met 0 (if decide (128 + met 0 b ≤ met 0 k.mos - 1) then b else 0) ≤
      met 0 k.mos - 1 := by
    split
    next hdet => exact of_decide_eq_true hdet
    · rw [met_zero, Nat.size_zero]
      omega
  obtain ⟨dog, hdog⟩ := pad_isSome sha
    (r := sha.shaf (mix (rap 3 ['a', 'g', 'i', 's']) a) b) (by omega) hfit
  have hhec := Nat.size_le.2 (sha.shaf_lt (mix (rap 3 ['a', 'g', 'i', 's']) a) b)
  rw [← met_zero] at hhec
  obtain ⟨hog, hpump, hlt, hpull⟩ := h.pump dog (h.lt_mos (dap_pad hdog hhec).2)
  refine ⟨dog, hog, hdog, hlt, hpull, ?_⟩
  simp only [sign, h.mx_eq, Option.bind_eq_bind, Option.bind_some, hdog, hpump]
  rfl

/-- A signature that holds what it signs is hardly longer than a key. -/
theorem sign_short (h : Opens k) {a b : Nat} (hdet : 128 + met 0 b ≤ met 0 k.mos - 1) :
    ∃ s, sign sha mug k a b = some s ∧ met 0 s ≤ met 0 k.mos + 1 := by
  obtain ⟨dog, hog, -, hlt, -, hsign⟩ := sign_eq sha mug h a b
  rw [decide_eq_true hdet, if_pos rfl] at hsign
  refine ⟨_, hsign, ?_⟩
  rw [met_zero, met_zero, Nat.size_le]
  have hmos := Nat.lt_size_self k.mos
  have hmark : mark (true, hog) = 2 * hog := by simp [mark]
  rw [hmark, pow_succ]
  omega

/-- A signature is good on every suite of the same product. -/
theorem sure_sign_of (h : Opens k) (hher : her.mos = k.mos) (a b : Nat) :
    ∃ s, sign sha mug k a b = some s ∧ sure sha mug her a s = some (some b) := by
  obtain ⟨dog, hog, hdog, -, hpull, hsign⟩ := sign_eq sha mug h a b
  refine ⟨_, hsign, ?_⟩
  have hhec := Nat.size_le.2 (sha.shaf_lt (mix (rap 3 ['a', 'g', 'i', 's']) a) b)
  rw [← met_zero] at hhec
  have hmx : mx her = some (met 0 k.mos - 1) := by rw [← h.mx_eq, mx, mx, hher]
  generalize decide (128 + met 0 b ≤ met 0 k.mos - 1) = det at hdog
  rw [sure]
  simp only [det_mark, gox_mark, Option.bind_eq_bind, Option.bind_some, hpull her hher, hmx,
    (dap_pad hdog hhec).1]
  cases det
  · simp only [Bool.false_eq_true, if_false, if_true]
    rfl
  · simp only [if_true]
    rfl

/-- A message that fits in one block is read by whom it was sealed for. -/
theorem tear_seal_of (h : Opens k) (hher : Opens her) {b c s : Nat} (hb : met 0 b ≤ 256)
    (hs : sign sha mug k b c = some s) (hfit : 256 + met 0 s ≤ met 0 her.mos - 1) :
    ∃ box, «seal» sha mug k (pub her) b c = some box ∧
      tear sha mug her (pub k) box = some (some (b, c)) := by
  obtain ⟨s', hs', hsure⟩ := sure_sign_of sha mug h
    (show Crua.mos ⟨k.mos, none⟩ = k.mos from rfl) b c
  obtain rfl := Option.some.inj (hs'.symm.trans hs)
  obtain ⟨dog, hdog⟩ := pad_isSome sha (r := b) (by omega) hfit
  obtain ⟨hdap, hlt⟩ := dap_pad hdog hb
  obtain ⟨hog, hpunt, -, hpush⟩ := hher.punt dog (hher.lt_mos hlt)
  have hmx : mx ⟨her.mos, none⟩ = some (met 0 her.mos - 1) := hher.mx_eq
  refine ⟨mark (true, hog), ?_, ?_⟩
  · simp only [«seal», hs', haul_pub, hmx, Option.bind_eq_bind, Option.bind_some, decide_eq_true hfit,
      if_true, hdog, hpush ⟨her.mos, none⟩ rfl]
    rfl
  · have hgox := gox_mark mug true hog 0
    simp only [if_true] at hgox
    rw [tear, haul_pub]
    simp only [det_mark, hgox, Option.bind_eq_bind, Option.bind_some, hpunt, hher.mx_eq, hdap,
      if_true, hsure]
    rfl

end Suite

/-- The suite gets back what it hides: a padded message, a signed one of any length, and one that
is sealed for another key and fits in one block. -/
theorem crua_suite (sha : Sha) (mug : Noun → Nat) {p q p' q' : Nat} (h : Key p q)
    (h' : Key p' q') :
    (∀ w x r m dog, pad sha w (x, r) m = some dog → met 0 r ≤ x →
      dap sha w x dog = some (r, m)) ∧
    ∃ k her, ofPrimes p q = some k ∧ ofPrimes p' q' = some her ∧
      (∀ a b, ∃ s, sign sha mug k a b = some s ∧ sure sha mug k a s = some (some b)) ∧
      ∀ b c s wid, met 0 b ≤ 256 → sign sha mug k b c = some s → mx her = some wid →
        256 + met 0 s ≤ wid →
          ∃ box, «seal» sha mug k (pub her) b c = some box ∧
            tear sha mug her (pub k) box = some (some (b, c)) := by
  obtain ⟨k, hk, -, hopen⟩ := ofPrimes_opens h
  obtain ⟨her, hher, -, hopen'⟩ := ofPrimes_opens h'
  refine ⟨fun w x r m dog hpad hr => (dap_pad hpad hr).1, k, her, hk, hher,
    fun a b => sure_sign_of sha mug hopen rfl a b, fun b c s wid hb hs hwid hfit => ?_⟩
  obtain rfl := Option.some.inj (hopen'.mx_eq.symm.trans hwid)
  exact tear_seal_of sha mug hopen hopen' hb hs hfit

theorem prime_large : (7 * 2 ^ 432 + 1).Prime :=
  prime_of_squares (c := 7) (a := 3) (n := 431) Nat.prime_seven (by norm_num) (by decide +kernel)
    (by decide +kernel) (by decide +kernel)

theorem prime_middle : (7 * 2 ^ 390 + 1).Prime :=
  prime_of_squares (c := 7) (a := 3) (n := 389) Nat.prime_seven (by norm_num) (by decide +kernel)
    (by decide +kernel) (by decide +kernel)

theorem key_small : Key 3 (7 * 2 ^ 432 + 1) where
  prime_p := Nat.prime_three
  prime_q := prime_large
  odd_p := by decide
  odd_q := by decide +kernel
  ne := by decide +kernel
  coprime := by decide +kernel
  size := by
    rw [met_zero]
    exact Nat.lt_size.2 (by decide +kernel)

theorem key_large : Key (7 * 2 ^ 390 + 1) (7 * 2 ^ 432 + 1) where
  prime_p := prime_middle
  prime_q := prime_large
  odd_p := by decide +kernel
  odd_q := by decide +kernel
  ne := by decide +kernel
  coprime := by decide +kernel
  size := by
    rw [met_zero]
    exact Nat.lt_size.2 (by decide +kernel)

/-- The number 7, signed and sealed under the key 5, over a hash that is zero. -/
theorem crua_suite_seven : ∃ k her box,
    ofPrimes 3 (7 * 2 ^ 432 + 1) = some k ∧
    ofPrimes (7 * 2 ^ 390 + 1) (7 * 2 ^ 432 + 1) = some her ∧
    «seal» (Sha.ofShax (fun _ => 0) fun _ => Nat.two_pow_pos 256) (fun _ => 0) k (pub her) 5 7 =
      some box ∧
    tear (Sha.ofShax (fun _ => 0) fun _ => Nat.two_pow_pos 256) (fun _ => 0) her (pub k) box =
      some (some (5, 7)) := by
  obtain ⟨-, k, her, hk, hher, -, hseal⟩ :=
    crua_suite (Sha.ofShax (fun _ => 0) fun _ => Nat.two_pow_pos 256) (fun _ => 0) key_small
      key_large
  obtain ⟨k', hk', hmos, hopen⟩ := ofPrimes_opens key_small
  obtain ⟨her', hher', hmos', hopen'⟩ := ofPrimes_opens key_large
  obtain rfl := Option.some.inj (hk.symm.trans hk')
  obtain rfl := Option.some.inj (hher.symm.trans hher')
  have hlow : 400 ≤ met 0 k.mos := hopen.size
  have hsmall : met 0 k.mos ≤ 437 := by
    rw [hmos, met_zero]
    exact Nat.size_le.2 (by decide +kernel)
  have hlarge : 826 ≤ met 0 her.mos := by
    rw [hmos', met_zero]
    exact Nat.lt_size.2 (by decide +kernel)
  have hseven : met 0 7 = 3 := by
    rw [met_zero]
    decide
  obtain ⟨s, hs, hlen⟩ := sign_short (Sha.ofShax (fun _ => 0) fun _ => Nat.two_pow_pos 256) (fun _ => 0)
    (a := 5) (b := 7) hopen (by omega)
  obtain ⟨box, hbox, htear⟩ := hseal 5 7 s _ (by rw [met_zero]; decide) hs hopen'.mx_eq (by omega)
  exact ⟨k, her, box, hk, hher, hbox, htear⟩

end Crua

end Vere.Zuse
