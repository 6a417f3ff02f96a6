import Vere.Hoon.Mug
import Vere.Jets.Map

/-!
# Vere.Jets.Mug

The noun hash `u2_mug` (`f/loom.c`), and where it is the hash `++mug`.

`u2_mug` folds the word of a cell to 31 bits as it folds the word of an atom; `++mug`
returns the word of a cell as it is. The two are the same on atoms, and on a cell if the
top bit of its word is clear, there and at every cell inside (`Narrow`). The hash a noun
keeps in its box once it has been computed is left out: it is the value of the function.
-/

namespace Vere.Jets

open Vere.Lib Vere.Lib.Fnv

/-! ### `u2_mug` -/

/-- `_mug_fnv`. -/
def mugFnv (has : Nat) : Nat := c3w (has * 16777619)

/-- `_mug_out`. -/
def mugOut (has : Nat) : Nat := (has >>> 31) ^^^ (has &&& 0x7fffffff)

/-- `_mug_both`. It calls itself twice at most (`u2Mug_ne_zero`). -/
def mugBoth (lef rit : Nat) : Nat :=
  search (fun rit => mugOut (mugFnv (lef ^^^ mugFnv rit))) (fun rit => c3w (rit + 1)) 3 rit

/-- The four bytes of a word. -/
def mugWord (off x : Nat) : Nat :=
  let off := mugFnv (off ^^^ (x &&& 0xff))
  let off := mugFnv (off ^^^ ((x >>> 8) &&& 0xff))
  let off := mugFnv (off ^^^ ((x >>> 16) &&& 0xff))
  mugFnv (off ^^^ ((x >>> 24) &&& 0xff))

/-- The bytes of the last word, up to its highest byte that is not zero. -/
def mugLast (off x : Nat) : Nat :=
  if x = 0 then off
  else
    let off := mugFnv (off ^^^ (x &&& 0xff))
    let x := x >>> 8
    if x = 0 then off
    else
      let off := mugFnv (off ^^^ (x &&& 0xff))
      let x := x >>> 8
      if x = 0 then off
      else
        let off := mugFnv (off ^^^ (x &&& 0xff))
        let x := x >>> 8
        if x = 0 then off else mugFnv (off ^^^ (x &&& 0xff))

/-- `_mug_words_in`. -/
def mugWordsIn (off : Nat) : List Nat → Nat
  | [] => off
  | [x] => mugLast off x
  | x :: y :: wod => mugWordsIn (mugWord off x) (y :: wod)

/-- `_mug_words_in_buf`: the same on the words of an indirect atom. -/
def mugWordsInBuf (off : Nat) (veb : List Nat) : Nat := mugWordsIn off veb

/-- `_mug_words`. -/
def mugWords (off : Nat) (wod : List Nat) : Nat :=
  search (fun off => mugOut (mugWordsIn off wod)) (fun off => c3w (off + 1)) 3 off

/-- `_mug_words_buf`. -/
def mugWordsBuf (off : Nat) (veb : List Nat) : Nat :=
  search (fun off => mugOut (mugWordsInBuf off veb)) (fun off => c3w (off + 1)) 3 off

/-- `u2_mug`. The words of an indirect atom are its digits to the base `2^32`. -/
def u2Mug : Noun → Nat
  | .atom a =>
      if isCat a then mugWords 2166136261 (if a = 0 then [] else [a])
      else mugWordsBuf 2166136261 (Nat.digits (2 ^ 32) a)
  | .cell hed tel => mugBoth (u2Mug hed) (u2Mug tel)

/-! ### Words and bytes -/

theorem mugFnv_eq (has : Nat) : mugFnv has = scramble has := by
  rw [mugFnv, c3w, scramble, prime, Nat.mul_comm]

theorem mugOut_eq (has : Nat) : mugOut has = fold has := by
  have hand : has &&& 0x7fffffff = has % 2 ^ 31 := Nat.and_two_pow_sub_one_eq_mod has 31
  rw [mugOut, fold, Nat.shiftRight_eq_div_pow, hand]

theorem byte_eq (x : Nat) : x &&& 0xff = x % 256 := Nat.and_two_pow_sub_one_eq_mod x 8

theorem mugWord_eq (off x : Nat) :
    mugWord off x
      = round (round (round (round off (x % 256)) (x / 2 ^ 8 % 256)) (x / 2 ^ 16 % 256))
          (x / 2 ^ 24 % 256) := by
  simp only [mugWord, mugFnv_eq, byte_eq, Nat.shiftRight_eq_div_pow]
  rfl

/-- A word gives its bytes up to the highest that is not zero. -/
theorem mugLast_eq (off : Nat) {x : Nat} (hx : x < 2 ^ 32) : mugLast off x = feed off x := by
  have hbyte : ∀ (c : Nat) {y : Nat}, y ≠ 0 →
      feed c y = feed (mugFnv (c ^^^ (y &&& 0xff))) (y >>> 8) := by
    intro c y hy
    rw [feed_byte c hy, mugFnv_eq, byte_eq, Nat.shiftRight_eq_div_pow]
    rfl
  simp only [mugLast]
  split
  · next h0 => rw [h0, feed_zero]
  · next h0 =>
    rw [hbyte off h0]
    split
    · next h1 => rw [h1, feed_zero]
    · next h1 =>
      rw [hbyte _ h1]
      split
      · next h2 => rw [h2, feed_zero]
      · next h2 =>
        rw [hbyte _ h2]
        split
        · next h3 => rw [h3, feed_zero]
        · next h3 =>
          have h4 : x >>> 8 >>> 8 >>> 8 >>> 8 = 0 := by
            simp only [Nat.shiftRight_eq_div_pow]
            omega
          rw [hbyte _ h3, h4, feed_zero]

theorem mugWordsIn_digits (off a : Nat) : mugWordsIn off (Nat.digits (2 ^ 32) a) = feed off a := by
  induction a using Nat.strong_induction_on generalizing off with
  | _ a ih =>
      by_cases ha : a = 0
      · subst ha
        rw [Nat.digits_zero, mugWordsIn, feed_zero]
      have hd : Nat.digits (2 ^ 32) a = a % 2 ^ 32 :: Nat.digits (2 ^ 32) (a / 2 ^ 32) :=
        Nat.digits_def' (by norm_num) (Nat.pos_of_ne_zero ha)
      have hlow : a % 2 ^ 32 < 2 ^ 32 := Nat.mod_lt _ (by norm_num)
      by_cases hq : a / 2 ^ 32 = 0
      · have hmod : a % 2 ^ 32 = a := by omega
        rw [hd, hq, Nat.digits_zero, mugWordsIn, mugLast_eq off hlow, hmod]
      · have hd' : Nat.digits (2 ^ 32) (a / 2 ^ 32)
            = a / 2 ^ 32 % 2 ^ 32 :: Nat.digits (2 ^ 32) (a / 2 ^ 32 / 2 ^ 32) :=
          Nat.digits_def' (by norm_num) (Nat.pos_of_ne_zero hq)
        have hih := ih (a / 2 ^ 32) (by omega) (mugWord off (a % 2 ^ 32))
        rw [hd'] at hih
        rw [hd, hd', mugWordsIn, hih, mugWord_eq, ← feed_word _ _ hlow hq, Nat.mod_add_div]

theorem u2Mug_atom (a : Nat) :
    u2Mug (.atom a) = search (fun b => fold (feed b a)) (· + 1) 3 2166136261 := by
  have hwords : u2Mug (.atom a) = mugWords 2166136261 (Nat.digits (2 ^ 32) a) := by
    rw [u2Mug]
    split
    · next hcat =>
      rw [isCat_iff] at hcat
      split
      · next h0 => rw [h0, Nat.digits_zero]
      · next h0 => rw [Nat.digits_of_lt _ _ h0 (by omega)]
    · rfl
  rw [hwords, mugWords]
  refine search_congr ?_ ?_
  · intro i _
    rw [mugWordsIn_digits, mugOut_eq]
  · intro i hi
    exact c3w_of_lt (by omega)

/-- On atoms the two hashes are the same. -/
theorem u2Mug_atom_eq (a : Nat) : u2Mug (.atom a) = Hoon.mug (.atom a) := by
  rw [u2Mug_atom, Hoon.mug, Hoon.mugAtom_eq]

theorem mugBoth_eq (lef : Nat) {rit : Nat} (h : rit < 2 ^ 31) :
    mugBoth lef rit = search (fun r => fold (both lef r)) (· + 1) 3 rit := by
  rw [mugBoth]
  refine search_congr ?_ ?_
  · intro i _
    rw [mugOut_eq, mugFnv_eq, mugFnv_eq]
    rfl
  · intro i hi
    exact c3w_of_lt (by omega)

/-! ### The hash is a 31-bit word that is not zero -/

theorem u2Mug_lt (n : Noun) : u2Mug n < 2 ^ 31 := by
  induction n with
  | atom a =>
      rw [u2Mug_atom_eq]
      exact Hoon.mugAtom_lt a
  | cell h t _ iht =>
      rw [u2Mug, mugBoth_eq _ iht]
      by_cases hz : search (fun r => fold (both (u2Mug h) r)) (· + 1) 3 (u2Mug t) = 0
      · rw [hz]
        norm_num
      · obtain ⟨i, -, hi⟩ := search_eq hz
        rw [hi]
        exact fold_lt (both_lt _ _)

/-! ### Where the two hashes are the same -/

/-- The word a cell hashes to, before it is folded: `_mug_both` of the hashes of its halves,
or, if that is zero, the next one it tries. -/
def cellWord (hed tel : Noun) : Nat :=
  search (fun rit => mugFnv (u2Mug hed ^^^ mugFnv rit)) (· + 1) 3 (u2Mug tel)

/-- No cell in the noun hashes to a word with its top bit set. -/
def Narrow : Noun → Prop
  | .atom _ => True
  | .cell h t => Narrow h ∧ Narrow t ∧ cellWord h t < 2 ^ 31

/-- `m` is the noun, or one inside it. -/
def Inside (m : Noun) : Noun → Prop
  | .atom a => m = .atom a
  | .cell h t => m = .cell h t ∨ Inside m h ∨ Inside m t

theorem cellWord_eq (h t : Noun) :
    cellWord h t = search (both (u2Mug h)) (· + 1) 3 (u2Mug t) := by
  simp only [cellWord, mugFnv_eq]
  rfl

/-- The hash of a narrow cell is its word, on both sides. -/
theorem u2Mug_cell {h t : Noun} (hw : cellWord h t < 2 ^ 31) :
    u2Mug (.cell h t) = cellWord h t := by
  rw [cellWord_eq] at *
  rw [u2Mug, mugBoth_eq _ (u2Mug_lt t), search_fold hw]

theorem mug_cell_eq_word {h t : Noun} (hh : u2Mug h = Hoon.mug h) (ht : u2Mug t = Hoon.mug t) :
    Hoon.mug (.cell h t) = cellWord h t := by
  rw [Hoon.mug_cell, cellWord_eq, hh, ht]

theorem Narrow.mug_eq {n : Noun} (h : Narrow n) : u2Mug n = Hoon.mug n := by
  induction n with
  | atom a => exact u2Mug_atom_eq a
  | cell hd tl ihh iht => rw [u2Mug_cell h.2.2, mug_cell_eq_word (ihh h.1) (iht h.2.1)]

theorem Narrow.inside {m n : Noun} (h : Narrow n) (hm : Inside m n) : Narrow m := by
  induction n with
  | atom a =>
      rw [Inside] at hm
      rw [hm]
      exact h
  | cell hd tl ihh iht =>
      rcases hm with hm | hm | hm
      · rw [hm]
        exact h
      · exact ihh h.1 hm
      · exact iht h.2.1 hm

theorem inside_self (n : Noun) : Inside n n := by
  cases n with
  | atom a => rfl
  | cell h t => exact .inl rfl

/-- What is wanted of the two hashes on a noun. -/
def SameMug (n : Noun) : Prop := u2Mug n = Hoon.mug n ∧ Hoon.mug n ≠ 0 ∧ Hoon.mug n < 2 ^ 31

/-- The two hashes are the same 31-bit word on a noun and on all that is inside it just if
the noun is narrow. -/
theorem sameMug_iff (n : Noun) : (∀ m, Inside m n → SameMug m) ↔ Narrow n := by
  constructor
  · intro h
    induction n with
    | atom a => trivial
    | cell hd tl ihh iht =>
        have hh := h hd (.inr (.inl (inside_self hd)))
        have ht := h tl (.inr (.inr (inside_self tl)))
        refine ⟨ihh fun m hm => h m (.inr (.inl hm)), iht fun m hm => h m (.inr (.inr hm)), ?_⟩
        rw [← mug_cell_eq_word hh.1 ht.1]
        exact (h _ (.inl rfl)).2.2
  · intro h m hm
    have heq := (h.inside hm).mug_eq
    exact ⟨heq, Hoon.mug_ne_zero m, heq ▸ u2Mug_lt m⟩

/-- On narrow nouns the orders are the same. -/
theorem Narrow.orders_eq {a b : Noun} (ha : Narrow a) (hb : Narrow b) :
    gor u2Mug a b = Hoon.gor Hoon.mug a b ∧ hor u2Mug a b = Hoon.hor Hoon.mug a b ∧
      vor u2Mug a b = Hoon.vor Hoon.mug a b := by
  have hgor : ∀ {a b : Noun}, Narrow a → Narrow b →
      Hoon.gor u2Mug a b = Hoon.gor Hoon.mug a b := by
    intro a b ha hb
    rw [Hoon.gor, Hoon.gor, Hoon.keyOrder, Hoon.keyOrder, ha.mug_eq, hb.mug_eq]
  rw [gor_eq, hor_eq, vor_eq]
  refine ⟨hgor ha hb, ?_, ?_⟩
  · rcases a with a | ⟨h, t⟩ <;> rcases b with b | ⟨h', t'⟩
    · exact hgor ha hb
    · rfl
    · rfl
    · rw [Hoon.hor, Hoon.hor, hgor ha.1 hb.1, hgor ha.2.1 hb.2.1]
  · rw [Hoon.vor, Hoon.vor, Hoon.keyOrder, Hoon.keyOrder, u2Mug_atom_eq, u2Mug_atom_eq, ha.mug_eq,
      hb.mug_eq]

/-! ### Two wide cells -/

theorem u2Mug_cell_fold (h t : Noun) :
    u2Mug (.cell h t) = search (fun r => fold (both (u2Mug h) r)) (· + 1) 3 (u2Mug t) := by
  rw [u2Mug, mugBoth_eq _ (u2Mug_lt t)]

theorem u2Mug_zero_zero : u2Mug (.cell (.atom 0) (.atom 0)) = 1097343833 := by
  rw [u2Mug_cell_fold, u2Mug_atom_eq, Hoon.mug_zero]
  decide

theorem u2Mug_zero_one : u2Mug (.cell (.atom 0) (.atom 1)) = 578976737 := by
  rw [u2Mug_cell_fold, u2Mug_atom_eq, u2Mug_atom_eq, Hoon.mug_zero, Hoon.mug_one]
  decide

end Vere.Jets
