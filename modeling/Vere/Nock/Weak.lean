import Vere.Nock.Frag

/-!
# Vere.Nock.Weak

What `u2_frag` reads.

`u2_none` is the word of a cell at ray 0, so that `u2_dust` takes it for a cell. The loop of
`_frag_phat` tests what each `_frag_deep` returns, but not what `_frag_word` returned before
it: if the walk fails in the top word of an axis of several words, one word is read at ray 1
or 2, as the head or the tail of `u2_none`. There the first rail of the loom keeps two rays of
its own, which are cats, and the walk fails after all.
-/

namespace Vere.Nock

open Vere.Jets

/-- A walk: its result, and if it read through `u2_none` on the way. -/
structure Walk where
  out : Option Noun
  wild : Bool
  deriving DecidableEq

/-- `_frag_deep`, where `low` are the cats at rays 1 and 2. -/
def deep (low : Nat → Nat) (w : Nat) : Option Noun → Walk
  | some b => ⟨fragLoop w 32 b, false⟩
  | none => ⟨fragLoop w 31 (.atom (low (w / 2 ^ 31 % 2))), true⟩

/-- The loop of `_frag_phat`. -/
def deepWords (low : Nat → Nat) (a : Nat) : Nat → Walk → Walk
  | 0, b => b
  | len + 1, b =>
      let r := deep low (a / 2 ^ (32 * len) % 2 ^ 32) b.out
      let b := ⟨r.out, b.wild || r.wild⟩
      if b.out = none then b else deepWords low a len b

/-- `_frag_phat`, with what it reads. -/
def phat (low : Nat → Nat) (a : Nat) (b : Noun) : Walk :=
  let len := wordLen a - 1
  deepWords low a len ⟨fragWord (a / 2 ^ (32 * len)) b, false⟩

/-- `u2_frag`, with what it reads. -/
def walk (low : Nat → Nat) (a : Nat) (b : Noun) : Walk :=
  if a = 0 then ⟨none, false⟩
  else if isCat a then ⟨fragWord a b, false⟩
  else phat low a b

/-- A walk that failed goes on failing. -/
theorem fragWords_none (a len : Nat) : fragWords a len none = none := by
  induction len with
  | zero => rfl
  | succ len ih => rw [fragWords, fragDeep, ih]

theorem deep_out (low : Nat → Nat) (w : Nat) (b : Option Noun) :
    (deep low w b).out = fragDeep w b := by
  cases b with
  | some b => rfl
  | none => rfl

/-- What is read through `u2_none` makes no difference to the result. -/
theorem deepWords_out (low : Nat → Nat) (a len : Nat) (b : Walk) :
    (deepWords low a len b).out = fragWords a len b.out := by
  induction len generalizing b with
  | zero => rfl
  | succ len ih =>
      rw [deepWords, fragWords]
      split
      · next h =>
        rw [← deep_out low, show (deep low _ b.out).out = none from h, fragWords_none]
      · rw [ih, deep_out]

/-- From a noun on, the loop reads through `u2_none` no more. -/
theorem deepWords_wild (low : Nat → Nat) (a len : Nat) (b : Walk) (h : b.out ≠ none) :
    (deepWords low a len b).wild = b.wild := by
  induction len generalizing b with
  | zero => rfl
  | succ len ih =>
      obtain ⟨c, hc⟩ := Option.ne_none_iff_exists'.mp h
      have hread : (deep low (a / 2 ^ (32 * len) % 2 ^ 32) b.out).wild = false := by
        rw [hc]
        rfl
      rw [deepWords]
      split
      · rw [hread, Bool.or_false]
      · next hb => rw [ih _ hb, hread, Bool.or_false]

theorem walk_out (low : Nat → Nat) (a : Nat) (b : Noun) : (walk low a b).out = frag a b := by
  rw [walk, frag]
  split
  · rfl
  · split
    · rfl
    · rw [phat, deepWords_out]
      rfl

/-- An axis of several words is read through `u2_none` if the walk fails in its top word. -/
theorem walk_wild (low : Nat → Nat) (a : Nat) (b : Noun) :
    (walk low a b).wild = true
      ↔ 1 < wordLen a ∧ slot (a / 2 ^ (32 * (wordLen a - 1))) b = none := by
  by_cases hlen : wordLen a ≤ 1
  · have hzero : wordLen a - 1 = 0 := by omega
    have hcalm : (walk low a b).wild = false := by
      rw [walk]
      split
      · rfl
      · split
        · rfl
        · rw [phat, hzero]
          rfl
    rw [hcalm]
    simp only [Bool.false_eq_true, false_iff, not_and]
    intro hmany
    omega
  · have hmany : 1 < wordLen a := by omega
    obtain ⟨len, hlen⟩ : ∃ len, wordLen a - 1 = len + 1 := ⟨wordLen a - 2, by omega⟩
    have hsize : 32 * (len + 1) < a.size := by
      rw [wordLen] at hlen
      omega
    have htop : 0 < a / 2 ^ (32 * (len + 1)) :=
      Nat.div_pos (Nat.lt_size.mp hsize) (Nat.two_pow_pos _)
    have hpos : a ≠ 0 := by
      rintro rfl
      rw [Nat.zero_div] at htop
      exact absurd htop (lt_irrefl 0)
    have hcat : ¬isCat a = true := by
      rw [isCat_iff, Nat.not_lt]
      exact le_trans (Nat.pow_le_pow_right (by decide) (by omega)) (Nat.lt_size.mp hsize)
    rw [walk, if_neg hpos, if_neg hcat, phat, hlen, fragWord_eq_slot htop]
    simp only [hmany, true_and]
    cases hslot : slot (a / 2 ^ (32 * (len + 1))) b with
    | none => simp [deepWords, deep, fragLoop]
    | some c =>
        rw [deepWords_wild _ _ _ _ (Option.some_ne_none c)]
        simp

/-- `u2_frag` returns the noun at the axis, whatever it reads; and it reads through no `u2_none`
unless the axis has more than one word and there is no noun at the axis in its top word. -/
theorem frag_safe_iff (low : Nat → Nat) (a : Nat) (b : Noun) :
    ((walk low a b).out = slot a b ∧ (walk low a b).wild = false)
      ↔ (wordLen a ≤ 1 ∨ (slot (a / 2 ^ (32 * (wordLen a - 1))) b).isSome = true) := by
  rw [walk_out, frag_eq_slot, ← Bool.not_eq_true, walk_wild, Option.isSome_iff_ne_none]
  constructor
  · rintro ⟨-, h⟩
    by_cases hlen : wordLen a ≤ 1
    · exact .inl hlen
    · exact .inr fun hnone => h ⟨Nat.lt_of_not_le hlen, hnone⟩
  · intro h
    refine ⟨rfl, fun ⟨hmany, hnone⟩ => ?_⟩
    rcases h with hlen | hsome
    · exact absurd hmany (Nat.not_lt_of_le hlen)
    · exact hsome hnone

/-- The axis `2^33` is that of a head in its top word, and an atom has none. -/
theorem frag_reads_none : ¬∀ (low : Nat → Nat) (a : Nat) (b : Noun),
    (walk low a b).out = slot a b ∧ (walk low a b).wild = false := by
  intro h
  have hwild : (walk (fun _ => 0) (2 ^ 33) (.atom 0)).wild = true := by decide
  have hcalm := (h (fun _ => 0) (2 ^ 33) (.atom 0)).2
  rw [hwild] at hcalm
  cases hcalm

end Vere.Nock
