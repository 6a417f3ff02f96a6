import Vere.Hoon.Bits
import Vere.Hoon.Virt

/-!
# Vere.Hoon.Ga

A field of binary polynomials (`++ga`, section 2eW of `hoon.hoon`).

An element is an atom below `2^p`, the bits its coefficients. `++toe` makes tables of the powers
of the generator and of their logarithms with a slow product, and the products and powers of the
core are taken from the tables. A table is a function from keys.

In the field of AES the tables have the slow product by each of the numbers that a column is
mixed with (`pro_mul`), and that product is `mul`, which is linear in the first factor.
-/

namespace Vere.Hoon

namespace Ga

/-- `a=[p=@ q=@ r=@]`: dimension, polynomial, generator. -/
structure Dim where
  p : Nat
  q : Nat
  r : Nat

/-- `(map ,@ ,@)`. -/
abbrev Table := Nat → Option Nat

/-- `put:by`. -/
def Table.put (d : Table) (c b : Nat) : Table := fun x => if x = c then some b else d x

section door

variable (a : Dim)

/-- `si`: the number of elements. -/
def si : Nat := bex a.p

/-- `ma`. -/
def ma : Nat := si a - 1

/-- `sit:ga`: reduce. -/
def sit (b : Nat) : Nat := b % bex a.p

/-- `dif:ga`: add and sub. -/
def dif (b c : Nat) : Virt Nat := if b < si a ∧ c < si a then return mix b c else throw ()

/-- `dub:ga`: mul by x. -/
def dub (b : Nat) : Virt Nat :=
  if b < si a then
    if 1 = cut 0 (a.p - 1) 1 b then dif a (sit a a.q) (sit a (lsh 0 1 b)) else return lsh 0 1 b
  else throw ()

/-- `pro:ga` of the inner core: slow multiply. -/
def slow (b c : Nat) : Virt Nat :=
  if _ : b = 0 then return 0
  else if 1 = dis 1 b then do
    let d ← dub a c
    let e ← slow (rsh 0 1 b) d
    dif a c e
  else do
    let d ← dub a c
    slow (rsh 0 1 b) d
termination_by b
decreasing_by all_goals exact rsh_one_lt ‹_›

/-- The loop of `nu`. -/
def nuLoop (b : Nat) : Nat → Table → Table
  | 0, d => d
  | c + 1, d => nuLoop b c (d.put (c + 1) b)

/-- `nu` of `++toe`. -/
def nu (b c : Nat) : Table := nuLoop b c fun _ => none

/-- The loop of `++toe`, with fuel: `c` goes up to `ma`. -/
def toeLoop : Nat → Nat → Nat → Table → Table → Virt (Table × Table)
  | n, b, c, p, q =>
      if ma a = c then return (p.put c b, q)
      else
        match n with
        | 0 => .never
        | n + 1 => do
            let d ← slow a a.r b
            toeLoop n d (c + 1) (p.put c b) (q.put b c)

/-- `toe:ga`: exp/log tables. -/
def toe : Virt (Table × Table) := toeLoop a (ma a) 1 0 (nu 0 (bex a.p)) (nu (ma a) (ma a))

variable (p q : Table)

/-- `pro:ga`: multiply. -/
def pro (b c : Nat) : Virt Nat :=
  match q b with
  | none => return 0
  | some d =>
      match q c with
      | none => return 0
      | some e =>
          match p ((d + e) % ma a) with
          | none => throw ()
          | some f => return f

/-- The loop of `pow:ga`, over the bits from `f` on. -/
def powLoop (b : Nat) : Nat → Nat → Nat → Nat → Virt Nat
  | 0, d, _, _ => return d
  | n + 1, d, e, f =>
      if 1 = cut 0 f 1 b then do
        let d ← pro a p q d e
        let e ← pro a p q e e
        powLoop b n d e (f + 1)
      else do
        let e ← pro a p q e e
        powLoop b n d e (f + 1)

/-- `pow:ga`: exponent. -/
def pow (b c : Nat) : Virt Nat := powLoop a p q b a.p 1 c 0

end door

/-! ### The field of AES -/

/-- `0x11b` and `3`. -/
def aes : Dim := ⟨8, 0x11b, 3⟩

/-- `x` times a byte. -/
def xt (c : Nat) : Nat := (2 * c % 256) ^^^ (27 * (c / 128 % 2))

/-- The product by the first `n` bits of `b`. -/
def mulLoop : Nat → Nat → Nat → Nat
  | 0, _, _ => 0
  | n + 1, b, c => (c * (b % 2)) ^^^ mulLoop n (b / 2) (xt c)

/-- The product of two bytes. -/
def mul (b c : Nat) : Nat := mulLoop 8 b c

/-- A byte of a table that is written as a number. -/
def byte (n i : Nat) : Nat := n / 256 ^ i % 256

/-- A number of rows of sixteen bytes, the highest first. -/
def wide (l : List Nat) : Nat := l.foldl (fun n row => 2 ^ 128 * n + row) 0

/-- The powers of 3, from the lowest byte up. -/
def powers : Nat :=
  wide [
    0x00f652c7b46c241cfda297847cdd4b39, 0x170df2a794858a8f8c8d7b29ee5a3612,
    0x0ef351c6423ee3a891868b79de4acf45, 0xca46cbb099772d1b0907f4a563211ffc,
    0x54c543c8b16f25eaaf6523e858c1b69b, 0x80898e7adfbc9d827e2aefac64d5ba9f,
    0x75dabf9c742ced5bc040c9473de25ec3, 0x413f15fa5632e75dc2b76dd24e3a16fb,
    0xa06020e9ae93712fecad92877d2b19fe, 0xa361d6bb69271d0bf0503010f957c4b5,
    0x9a76db49ceb398817fdcbd6bd0b99e83, 0x8878281808f1a662d74d3be0a967d44c,
    0xcdb26ed3b868d14fcc443c140c04f553, 0x31e6ab9070d9be6a26eb5937e45c34e5,
    0xaa66221e0a0602f7a49573d84838e15f, 0x3513f8a196722e1aff5533110f050301]

/-- Their logarithms. -/
def logs : Nat :=
  wide [
    0x0770f7c0808c630d18fe31c5deed4a67, 0xa5e3997726b87cb4892e2023d9921144,
    0xabd3f2565d9e2a14476da2413c843953, 0xd15b3f37cdcf95bcfcdcbe619087b297,
    0x9d2955aa6ca1523b86b160fb5a3ebbcc, 0xb77b76a42d1f43d8ec49c4176ff60c7f,
    0xa051a99cb05fcb59f50b16eb7a75d72c, 0xe8ade6e7d5e9ae4f74d6eaf450a858af,
    0x57a773f3e5acd44eca5e9f9b150a792b, 0xba3d85fa54286b3a421eb6a3c3486e7e,
    0x1091882298e225b3628b06bf30fddd66, 0x38834640f1d25c1394ced036bddb8f96,
    0x8eda93354582f01224e10f21058a2f65, 0x7809c99a72a6e44d6a27b9f9b51dc27d,
    0xc11c69f8c808714cef818d340ee00464, 0x03dfee33681bc74bc61a023201190000]

/-- A power of 3. -/
def pw (d : Nat) : Nat := byte powers (d % 255)

theorem byte_lt (n i : Nat) : byte n i < 256 := Nat.mod_lt _ (by decide)

theorem pw_lt (d : Nat) : pw d < 256 := byte_lt _ _

theorem xt_lt (c : Nat) : xt c < 256 := by
  have h : 27 * (c / 128 % 2) < 2 ^ 8 := by omega
  exact Nat.xor_lt_two_pow (n := 8) (Nat.mod_lt _ (by decide)) h

theorem mulLoop_lt (n b : Nat) {c : Nat} (hc : c < 256) : mulLoop n b c < 256 := by
  induction n generalizing b c with
  | zero => exact Nat.zero_lt_succ 255
  | succ n ih =>
      rw [mulLoop]
      refine Nat.xor_lt_two_pow (n := 8) ?_ (ih (b / 2) (xt_lt c))
      rcases Nat.mod_two_eq_zero_or_one b with h | h <;> simp [h, hc]

theorem mulLoop_zero (n c : Nat) : mulLoop n 0 c = 0 := by
  induction n generalizing c with
  | zero => rfl
  | succ n ih => simp [mulLoop, ih]

/-- The product is linear in the first factor. -/
theorem mulLoop_xor (n x y c : Nat) : mulLoop n (x ^^^ y) c = mulLoop n x c ^^^ mulLoop n y c := by
  induction n generalizing x y c with
  | zero => simp [mulLoop]
  | succ n ih =>
      have hhalf : (x ^^^ y) / 2 = x / 2 ^^^ y / 2 := Nat.xor_div_two_pow (n := 1)
      have hbit : (x ^^^ y) % 2 = x % 2 ^^^ y % 2 := Nat.xor_mod_two_pow (n := 1)
      have hc : c * ((x ^^^ y) % 2) = c * (x % 2) ^^^ c * (y % 2) := by
        rw [hbit]
        rcases Nat.mod_two_eq_zero_or_one x with hx | hx <;>
          rcases Nat.mod_two_eq_zero_or_one y with hy | hy <;> simp [hx, hy]
      rw [mulLoop, mulLoop, mulLoop, hhalf, hc, ih]
      ac_rfl

theorem mul_xor (x y c : Nat) : mul (x ^^^ y) c = mul x c ^^^ mul y c := mulLoop_xor 8 x y c

theorem si_aes : si aes = 256 := rfl

theorem dif_aes {b c : Nat} (hb : b < 256) (hc : c < 256) : dif aes b c = pure (b ^^^ c) := by
  rw [dif, si_aes, if_pos ⟨hb, hc⟩, mix_eq]

theorem dub_aes {c : Nat} (hc : c < 256) : dub aes c = pure (xt c) := by
  have hbit : cut 0 (aes.p - 1) 1 c = c / 128 % 2 := by simp [aes, cut, rsh]
  have hsit : sit aes (lsh 0 1 c) = 2 * c % 256 := by simp [aes, sit]
  rw [dub, si_aes, if_pos hc, hbit, hsit]
  rcases Nat.mod_two_eq_zero_or_one (c / 128) with h | h
  · have hsmall : 2 * c % 256 = 2 * c := Nat.mod_eq_of_lt (by omega)
    rw [h, if_neg (by decide), xt, h, hsmall]
    simp
  · rw [h, if_pos rfl, dif_aes (by decide) (Nat.mod_lt _ (by decide)), xt, h, Nat.xor_comm]
    rfl

theorem slow_eq {n b c : Nat} (hb : b < 2 ^ n) (hc : c < 256) :
    slow aes b c = pure (mulLoop n b c) := by
  induction n generalizing b c with
  | zero =>
      obtain rfl : b = 0 := by omega
      rw [slow, dif_pos rfl]
      rfl
  | succ n ih =>
      have hhalf : rsh 0 1 b = b / 2 := by simp [rsh]
      have hlt : b / 2 < 2 ^ n := by omega
      have hstep := ih hlt (xt_lt c)
      by_cases h0 : b = 0
      · rw [h0, slow, dif_pos rfl, mulLoop_zero]
      · rw [slow, dif_neg h0, dis_eq, Nat.one_and_eq_mod_two, hhalf, dub_aes hc, pure_bind, hstep, mulLoop]
        rcases Nat.mod_two_eq_zero_or_one b with h | h
        · rw [h, if_neg (by decide), pure_bind, hstep]
          simp
        · rw [h, if_pos rfl, pure_bind, dif_aes hc (mulLoop_lt n _ (xt_lt c)), Nat.mul_one]

/-! ### The tables -/

theorem mul_three_pw : ∀ d < 255, mul 3 (pw d) = pw (d + 1) := by decide +kernel

theorem logs_pw : ∀ d < 255, byte logs (pw d) = d := by decide +kernel

theorem pw_logs : ∀ x < 256, x ≠ 0 → byte logs x < 255 ∧ pw (byte logs x) = x := by decide +kernel

/-- The numbers that columns are mixed with, and their logarithms. -/
def coefs : List (Nat × Nat) :=
  [(1, 0), (2, 25), (3, 1), (9, 199), (11, 104), (13, 238), (14, 223)]

theorem mul_pw_coef : ∀ k ∈ coefs, ∀ d < 255, mul (pw d) k.1 = pw (d + k.2) := by decide +kernel

theorem pw_coef : ∀ k ∈ coefs, k.2 < 255 ∧ pw k.2 = k.1 := by decide

theorem pw_mod (d : Nat) : pw (d % 255) = pw d := by rw [pw, pw, Nat.mod_mod]

theorem pw_ne_zero {d : Nat} (h : d < 255) : pw d ≠ 0 := by
  intro h0
  have hlog := logs_pw d h
  rw [h0] at hlog
  have hd : byte logs 0 = 0 := by decide
  have hone : pw 0 = 1 := by decide
  rw [hd] at hlog
  rw [← hlog, hone] at h0
  cases h0

/-- What the tables say. -/
structure Tables (p q : Table) : Prop where
  exp : ∀ d < 255, p d = some (pw d)
  log : ∀ d < 255, q (pw d) = some d
  zero : q 0 = none

theorem nuLoop_outside (b c x : Nat) {d : Table} (h : x = 0 ∨ c < x) : nuLoop b c d x = d x := by
  induction c generalizing d with
  | zero => rfl
  | succ c ih =>
      rw [nuLoop, ih (by omega), Table.put, if_neg (by omega)]

/-- What the rest of the loop puts in the tables. -/
theorem toeLoop_eq {n c : Nat} (hc : c + n = 255) (p q : Table) :
    ∃ p' q', toeLoop aes n (pw c) c p q = pure (p', q') ∧
      (∀ d, p' d = if c ≤ d ∧ d ≤ 255 then some (pw d) else p d) ∧
      (∀ d, c ≤ d → d < 255 → q' (pw d) = some d) ∧
      (∀ x, (∀ d, c ≤ d → d < 255 → pw d ≠ x) → q' x = q x) := by
  have hma : ma aes = 255 := rfl
  induction n generalizing c p q with
  | zero =>
      obtain rfl : c = 255 := hc
      refine ⟨p.put 255 (pw 255), q, ?_, fun d => ?_, fun d h1 h2 => by omega, fun _ _ => rfl⟩
      · rw [toeLoop, hma, if_pos rfl]
      · rw [Table.put]
        by_cases hd : d = 255
        · rw [if_pos hd, if_pos (by omega), hd]
        · rw [if_neg hd, if_neg (by omega)]
  | succ n ih =>
      obtain ⟨p', q', hrun, hexp, hlog, hrest⟩ := ih (c := c + 1) (by omega) (p.put c (pw c))
        (q.put (pw c) c)
      have hstep : slow aes aes.r (pw c) = pure (pw (c + 1)) := by
        have hmul := mul_three_pw c (by omega)
        rw [slow_eq (n := 8) (by decide) (pw_lt c)]
        exact congrArg pure hmul
      refine ⟨p', q', ?_, fun d => ?_, fun d h1 h2 => ?_, fun x hx => ?_⟩
      · rw [toeLoop, hma, if_neg (by omega)]
        simp only [hstep, pure_bind]
        exact hrun
      · rw [hexp, Table.put]
        by_cases hd : d = c
        · rw [if_neg (by omega), if_pos hd, if_pos (by omega), hd]
        · rw [if_neg hd]
          by_cases hle : c + 1 ≤ d ∧ d ≤ 255
          · rw [if_pos hle, if_pos (by omega)]
          · rw [if_neg hle, if_neg (by omega)]
      · by_cases hd : d = c
        · rw [hd, hrest, Table.put, if_pos rfl]
          intro d' h1' h2' heq
          have := logs_pw d' h2'
          rw [heq, logs_pw c (by omega)] at this
          omega
        · exact hlog d (by omega) h2
      · rw [hrest x fun d h1 h2 => hx d (by omega) h2, Table.put,
          if_neg (hx c (Nat.le_refl c) (by omega)).symm]

theorem toe_tables : ∃ p q, toe aes = pure (p, q) ∧ Tables p q := by
  obtain ⟨p, q, hrun, hexp, hlog, hrest⟩ :=
    toeLoop_eq (n := 255) (c := 0) rfl (nu 0 (bex aes.p)) (nu (ma aes) (ma aes))
  have hone : pw 0 = 1 := by decide
  rw [hone] at hrun
  refine ⟨p, q, hrun, ⟨fun d hd => ?_, fun d hd => hlog d (Nat.zero_le d) hd, ?_⟩⟩
  · rw [hexp, if_pos (by omega)]
  · rw [hrest 0 fun d _ hd => pw_ne_zero hd, nu, nuLoop_outside _ _ _ (.inl rfl)]

section pro

variable {p q : Table} (ht : Tables p q)
include ht

/-- A product is a byte. -/
theorem pro_lt (b c : Nat) : ∃ e < 256, pro aes p q b c = pure e := by
  rw [pro]
  split
  · exact ⟨0, by decide, rfl⟩
  · split
    · exact ⟨0, by decide, rfl⟩
    · next d _ e _ =>
      have hma : ma aes = 255 := rfl
      rw [hma, ht.exp _ (Nat.mod_lt _ (by decide))]
      exact ⟨_, pw_lt _, rfl⟩

theorem powLoop_lt (b n d e f : Nat) (hd : d < 256) :
    ∃ r < 256, powLoop aes p q b n d e f = pure r := by
  induction n generalizing d e f with
  | zero => exact ⟨d, hd, rfl⟩
  | succ n ih =>
      obtain ⟨x, hx, hxeq⟩ := pro_lt ht d e
      obtain ⟨y, -, hyeq⟩ := pro_lt ht e e
      rw [powLoop]
      split
      · obtain ⟨r, hr, hreq⟩ := ih x y (f + 1) hx
        exact ⟨r, hr, by rw [hxeq, pure_bind, hyeq, pure_bind, hreq]⟩
      · obtain ⟨r, hr, hreq⟩ := ih d y (f + 1) hd
        exact ⟨r, hr, by rw [hyeq, pure_bind, hreq]⟩

theorem pow_lt (b c : Nat) : ∃ e < 256, pow aes p q b c = pure e :=
  powLoop_lt ht b _ 1 c 0 (by decide)

/-- By a number that columns are mixed with, the tables give the slow product. -/
theorem pro_mul {x : Nat} (hx : x < 256) {k : Nat × Nat} (hk : k ∈ coefs) :
    pro aes p q x k.1 = pure (mul x k.1) := by
  obtain ⟨hlt, hpw⟩ := pw_coef k hk
  have hq : q k.1 = some k.2 := by rw [← hpw, ht.log _ hlt]
  by_cases h0 : x = 0
  · rw [h0, pro, ht.zero, mul, mulLoop_zero]
  · obtain ⟨hlog, hx'⟩ := pw_logs x hx h0
    have hma : ma aes = 255 := rfl
    rw [← hx', pro, ht.log _ hlog, mul_pw_coef k hk _ hlog]
    simp only [hq]
    rw [hma, ht.exp _ (Nat.mod_lt _ (by decide)), pw_mod]

end pro

end Ga

end Vere.Hoon
