import Mathlib.FieldTheory.Finite.Basic
import Mathlib.NumberTheory.LucasPrimality

/-!
# Vere.Lib.Power

Powers modulo a prime.

Exponents that are inverse to each other modulo `p - 1` undo each other modulo `p`, also on a
multiple of `p` (`pow_pow_modEq`); what holds modulo two different primes holds modulo their
product (`eq_of_modEq`).

`prime_of_squares` is Lucas's test on a number `c * 2 ^ n + 1`, where every power it asks for is
squared from the one before.
-/

namespace Vere.Lib

/-- Exponents that are inverse modulo `p - 1` undo each other. -/
theorem pow_pow_modEq {p d e : Nat} (hp : p.Prime) (h : d * e % (p - 1) = 1)
    (x : Nat) : (x ^ (d % (p - 1))) ^ e ≡ x [MOD p] := by
  have := Fact.mk hp
  rw [← pow_mul, ← ZMod.natCast_eq_natCast_iff]
  push_cast
  have hmod : d % (p - 1) * e % (p - 1) = 1 := by rw [Nat.mod_mul_mod, h]
  rw [← Nat.mod_add_div (d % (p - 1) * e) (p - 1), hmod, pow_add, pow_one, pow_mul]
  by_cases hx : (x : ZMod p) = 0
  · rw [hx, zero_mul]
  · rw [ZMod.pow_card_sub_one_eq_one hx, one_pow, mul_one]

/-- What is known of a number modulo two different primes settles it below their product. -/
theorem eq_of_modEq {p q m n : Nat} (hp : p.Prime) (hq : q.Prime) (hne : p ≠ q) (hm : m < p * q)
    (hn : n < p * q) (h : m ≡ n [MOD p]) (h' : m ≡ n [MOD q]) : m = n :=
  (((Nat.modEq_and_modEq_iff_modEq_mul ((Nat.coprime_primes hp hq).2 hne)).1
    ⟨h, h'⟩).eq_of_lt_of_lt hm hn)

/-- Square `k` times. -/
def squares (q : Nat) : Nat → Nat → Nat
  | 0, x => x
  | k + 1, x => squares q k (x * x % q)

theorem squares_eq (q k x : Nat) : squares q k x % q = x ^ 2 ^ k % q := by
  induction k generalizing x with
  | zero => rw [squares, pow_zero, pow_one]
  | succ k ih => rw [squares, ih, ← Nat.pow_mod, ← sq, ← pow_mul, pow_succ']

/-- Lucas's test on a number that is one more than a prime times a power of two. -/
theorem prime_of_squares {a c n q : Nat} (hc : c.Prime) (hq : q = c * 2 ^ (n + 1) + 1)
    (hone : squares q (n + 1) (a ^ c) % q = 1) (htwo : squares q n (a ^ c) % q ≠ 1)
    (hcof : squares q (n + 1) a % q ≠ 1) : q.Prime := by
  have hlt : 1 < q := by
    have := Nat.mul_pos hc.pos (Nat.two_pow_pos (n + 1))
    omega
  have hiff : ∀ m, (a : ZMod q) ^ m = 1 ↔ a ^ m % q = 1 := fun m => by
    rw [← Nat.cast_pow, ← Nat.cast_one, ZMod.natCast_eq_natCast_iff', Nat.mod_eq_of_lt hlt]
  rw [squares_eq, ← pow_mul] at hone htwo
  rw [squares_eq] at hcof
  have hpred : q - 1 = c * 2 ^ (n + 1) := by omega
  refine lucas_primality q (a : ZMod q) ?_ fun r hr hdvd => ?_
  · rw [hiff, hpred]
    exact hone
  · rw [Ne, hiff]
    rw [hpred] at hdvd ⊢
    rcases (Nat.Prime.dvd_mul hr).1 hdvd with h | h
    · obtain rfl := (Nat.prime_dvd_prime_iff_eq hr hc).1 h
      rwa [Nat.mul_div_cancel_left _ hr.pos]
    · obtain rfl := (Nat.prime_dvd_prime_iff_eq hr Nat.prime_two).1 (hr.dvd_of_dvd_pow h)
      rwa [pow_succ, ← mul_assoc, Nat.mul_div_cancel _ hr.pos]

end Vere.Lib
