import Mathlib.Data.Nat.Digits.Lemmas
import Mathlib.Tactic.Ring
import Vere.Lib.Bits

/-!
# Vere.Lib.Fnv

Hashing by rounds of xor and multiplication on 32-bit words, in the manner of FNV.

A round takes a byte into the word that has been hashed so far. It is a bijection of the
words, because the multiplier is odd, and that is all a hash that tries again on an
unwanted value needs in order to end: among three starts in a row at most two can lead to
one of two unwanted values (`search_fold_ne_zero`).

The bytes of a number are its digits to the base 256. `feed_word` and `feed_last` say how
the digits come out of 32-bit words.
-/

namespace Vere.Lib.Fnv

/-- The multiplier. -/
def prime : Nat := 16777619

/-- Multiply, in 32 bits. -/
def scramble (a : Nat) : Nat := prime * a % 2 ^ 32

/-- One round: take `x` into the hash `c`. -/
def round (c x : Nat) : Nat := scramble (c ^^^ x)

/-- The word of a pair. -/
def both (p q : Nat) : Nat := scramble (p ^^^ scramble q)

/-- Take the bytes of a number into the hash, the lowest first. -/
def feed (c a : Nat) : Nat := (Nat.digits 256 a).foldl round c

/-- The top bit of a word, xored onto the other 31. -/
def fold (c : Nat) : Nat := c / 2 ^ 31 ^^^ c % 2 ^ 31

/-- The first value of `f` that is not zero, among those at `b`, `next b` and so on, `n`
of them; `0` if there is none. -/
def search (f next : Nat → Nat) : Nat → Nat → Nat
  | 0, _ => 0
  | n + 1, b => if f b = 0 then search f next n (next b) else f b

/-! ### Rounds -/

theorem scramble_lt (a : Nat) : scramble a < 2 ^ 32 := Nat.mod_lt _ (by norm_num)

theorem scramble_inj {a b : Nat} (ha : a < 2 ^ 32) (hb : b < 2 ^ 32)
    (h : scramble a = scramble b) : a = b := by
  have hodd : Nat.gcd (2 ^ 32) prime = 1 := by decide
  have hmod : a ≡ b [MOD 2 ^ 32] := Nat.ModEq.cancel_left_of_coprime hodd h
  rw [Nat.ModEq, Nat.mod_eq_of_lt ha, Nat.mod_eq_of_lt hb] at hmod
  exact hmod

theorem round_lt (c x : Nat) : round c x < 2 ^ 32 := scramble_lt _

theorem round_inj {c d x : Nat} (hc : c < 2 ^ 32) (hd : d < 2 ^ 32) (hx : x < 2 ^ 32)
    (h : round c x = round d x) : c = d := by
  have hxor : c ^^^ x = d ^^^ x :=
    scramble_inj (Nat.xor_lt_two_pow hc hx) (Nat.xor_lt_two_pow hd hx) h
  calc c = c ^^^ x ^^^ x := by rw [Nat.xor_assoc, Nat.xor_self, Nat.xor_zero]
    _ = d ^^^ x ^^^ x := by rw [hxor]
    _ = d := by rw [Nat.xor_assoc, Nat.xor_self, Nat.xor_zero]

theorem both_lt (p q : Nat) : both p q < 2 ^ 32 := scramble_lt _

theorem both_inj {p q r : Nat} (hp : p < 2 ^ 32) (hq : q < 2 ^ 32) (hr : r < 2 ^ 32)
    (h : both p q = both p r) : q = r := by
  have hx : p ^^^ scramble q = p ^^^ scramble r :=
    scramble_inj (Nat.xor_lt_two_pow hp (scramble_lt q)) (Nat.xor_lt_two_pow hp (scramble_lt r)) h
  have hs := congrArg (p ^^^ ·) hx
  simp only [← Nat.xor_assoc, Nat.xor_self, Nat.zero_xor] at hs
  exact scramble_inj hq hr hs

theorem both_mod (p q : Nat) : both p (q % 2 ^ 32) = both p q := by
  have hs : scramble (q % 2 ^ 32) = scramble q := by rw [scramble, scramble, Nat.mul_mod_mod]
  rw [both, both, hs]

theorem feed_lt {c : Nat} (hc : c < 2 ^ 32) (a : Nat) : feed c a < 2 ^ 32 := by
  have hall : ∀ (l : List Nat) (c : Nat), c < 2 ^ 32 → l.foldl round c < 2 ^ 32 := by
    intro l
    induction l with
    | nil => exact fun _ hc => hc
    | cons x l ih => exact fun c _ => ih _ (round_lt c x)
  exact hall _ c hc

theorem feed_inj {c d a : Nat} (hc : c < 2 ^ 32) (hd : d < 2 ^ 32)
    (h : feed c a = feed d a) : c = d := by
  have hall : ∀ (l : List Nat) (c d : Nat), (∀ x ∈ l, x < 2 ^ 32) → c < 2 ^ 32 → d < 2 ^ 32 →
      l.foldl round c = l.foldl round d → c = d := by
    intro l
    induction l with
    | nil => exact fun _ _ _ _ _ h => h
    | cons x l ih =>
        intro c d hl hc hd h
        have hcd := ih _ _ (fun y hy => hl y (List.mem_cons_of_mem x hy)) (round_lt c x)
          (round_lt d x) h
        exact round_inj hc hd (hl x List.mem_cons_self) hcd
  refine hall _ c d ?_ hc hd h
  intro x hx
  have hx256 : x < 256 := Nat.digits_lt_base (by norm_num) hx
  omega

/-! ### Bytes of words -/

theorem feed_zero (c : Nat) : feed c 0 = c := by
  simp [feed]

/-- The lowest byte goes in first. -/
theorem feed_byte (c : Nat) {a : Nat} (ha : a ≠ 0) :
    feed c a = feed (round c (a % 256)) (a / 256) := by
  rw [feed, Nat.digits_def' (by norm_num) (Nat.pos_of_ne_zero ha), List.foldl_cons, feed]

/-- A word that is followed by more gives all four of its bytes. -/
theorem feed_word (c w : Nat) {a : Nat} (hw : w < 2 ^ 32) (ha : a ≠ 0) :
    feed c (w + 2 ^ 32 * a)
      = feed (round (round (round (round c (w % 256)) (w / 2 ^ 8 % 256)) (w / 2 ^ 16 % 256))
          (w / 2 ^ 24 % 256)) a := by
  rw [feed_byte _ (by omega), feed_byte _ (by omega), feed_byte _ (by omega),
    feed_byte _ (by omega)]
  have h0 : (w + 2 ^ 32 * a) % 256 = w % 256 := by omega
  have h1 : (w + 2 ^ 32 * a) / 256 % 256 = w / 2 ^ 8 % 256 := by omega
  have h2 : (w + 2 ^ 32 * a) / 256 / 256 % 256 = w / 2 ^ 16 % 256 := by omega
  have h3 : (w + 2 ^ 32 * a) / 256 / 256 / 256 % 256 = w / 2 ^ 24 % 256 := by omega
  have h4 : (w + 2 ^ 32 * a) / 256 / 256 / 256 / 256 = a := by omega
  rw [h0, h1, h2, h3, h4]

/-! ### Folding to 31 bits -/

theorem fold_of_lt {c : Nat} (h : c < 2 ^ 31) : fold c = c := by
  rw [fold, Nat.div_eq_of_lt h, Nat.mod_eq_of_lt h, Nat.zero_xor]

theorem fold_lt {c : Nat} (h : c < 2 ^ 32) : fold c < 2 ^ 31 := by
  have htop : c / 2 ^ 31 < 2 ^ 31 := by omega
  exact Nat.xor_lt_two_pow htop (Nat.mod_lt _ (by norm_num))

/-- Two words fold to zero. -/
theorem fold_eq_zero {c : Nat} (hc : c < 2 ^ 32) : fold c = 0 ↔ c = 0 ∨ c = 2 ^ 31 + 1 := by
  constructor
  · intro h
    have heq : c / 2 ^ 31 = c % 2 ^ 31 := by
      calc c / 2 ^ 31 = c / 2 ^ 31 ^^^ c % 2 ^ 31 ^^^ c % 2 ^ 31 := by
            rw [Nat.xor_assoc, Nat.xor_self, Nat.xor_zero]
        _ = c % 2 ^ 31 := by rw [show c / 2 ^ 31 ^^^ c % 2 ^ 31 = 0 from h, Nat.zero_xor]
    omega
  · rintro (rfl | rfl) <;> rfl

/-! ### Trying again -/

/-- What is found is one of the values. -/
theorem search_eq {f : Nat → Nat} {n b : Nat} (h : search f (· + 1) n b ≠ 0) :
    ∃ i < n, search f (· + 1) n b = f (b + i) := by
  induction n generalizing b with
  | zero => exact absurd rfl h
  | succ n ih =>
      rw [search] at h ⊢
      split
      · next hz =>
        rw [if_pos hz] at h
        obtain ⟨i, hi, heq⟩ := ih h
        refine ⟨i + 1, Nat.succ_lt_succ hi, ?_⟩
        rw [heq, Nat.add_assoc, Nat.add_comm 1 i]
      · exact ⟨0, Nat.succ_pos n, rfl⟩

/-- Searching from `b`, which of two step functions is used matters only where the
search can get to. -/
theorem search_congr {f g next : Nat → Nat} {n b : Nat}
    (hf : ∀ i < n, f (b + i) = g (b + i)) (hn : ∀ i < n, next (b + i) = b + i + 1) :
    search f next n b = search g (· + 1) n b := by
  induction n generalizing b with
  | zero => rfl
  | succ n ih =>
      have h0 : f b = g b := hf 0 (Nat.succ_pos n)
      have hnext : next b = b + 1 := hn 0 (Nat.succ_pos n)
      rw [search, search, h0, hnext]
      split
      · refine ih ?_ ?_
        · intro i hi
          have hs := hf (i + 1) (Nat.succ_lt_succ hi)
          rwa [show b + (i + 1) = b + 1 + i by ring] at hs
        · intro i hi
          have hs := hn (i + 1) (Nat.succ_lt_succ hi)
          rwa [show b + (i + 1) = b + 1 + i by ring] at hs
      · rfl

/-- If the words at three starts in a row are three different ones, one of them does not
fold to zero. -/
theorem search_fold_ne_zero {g : Nat → Nat} {b : Nat} (hlt : ∀ i < 3, g (b + i) < 2 ^ 32)
    (hinj : ∀ i < 3, ∀ j < 3, g (b + i) = g (b + j) → i = j) :
    search (fun c => fold (g c)) (· + 1) 3 b ≠ 0 := by
  have hne : ∀ i < 3, ∀ j < 3, i ≠ j → g (b + i) ≠ g (b + j) :=
    fun i hi j hj hij h => hij (hinj i hi j hj h)
  have h01 := hne 0 (by omega) 1 (by omega) (by omega)
  have h02 := hne 0 (by omega) 2 (by omega) (by omega)
  have h12 := hne 1 (by omega) 2 (by omega) (by omega)
  simp only [search]
  split
  · next h0 =>
    split
    · next h1 =>
      split
      · next h2 =>
        have e0 := (fold_eq_zero (hlt 0 (by omega))).mp h0
        have e1 := (fold_eq_zero (hlt 1 (by omega))).mp h1
        have e2 := (fold_eq_zero (hlt 2 (by omega))).mp h2
        omega
      · next h2 => exact h2
    · next h1 => exact h1
  · next h0 => exact h0

/-- If the values at two starts in a row differ, one of them is not zero. -/
theorem search_ne_zero {g : Nat → Nat} {b n : Nat} (h : g b ≠ g (b + 1)) :
    search g (· + 1) (n + 2) b ≠ 0 := by
  simp only [search]
  split
  · next h0 =>
    split
    · next h1 => exact absurd (h0.trans h1.symm) h
    · next h1 => exact h1
  · next h0 => exact h0

/-- Folding does not change a search that finds a word below `2^31`. -/
theorem search_fold {g : Nat → Nat} {n b : Nat} (h : search g (· + 1) n b < 2 ^ 31) :
    search (fun c => fold (g c)) (· + 1) n b = search g (· + 1) n b := by
  induction n generalizing b with
  | zero => rfl
  | succ n ih =>
      rw [search] at h
      rw [search, search]
      by_cases hz : g b = 0
      · rw [if_pos hz] at h
        rw [if_pos hz, hz, fold_of_lt (by norm_num), if_pos rfl]
        exact ih h
      · rw [if_neg hz] at h
        rw [if_neg hz, fold_of_lt h, if_neg hz]

end Vere.Lib.Fnv
