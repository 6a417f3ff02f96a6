import Vere.Hoon.Mug
import Vere.Hoon.Parse
import Vere.Lib.Union

/-!
# Vere.Hoon.Stew

The tree of `++stew` (`hoon.hoon`, section 2eC).

A rule is put in by where its range ends and looked for by where it begins: `wor` compares the
end of its first key with the beginning of the second. Of keys with no character in common, one
is wholly before the other, and the two uses of `wor` agree. They do so only if the keys have
characters: a range that ends before it begins may come between a character and its rule
(`stew_past_empty`).

Nothing depends on the order of the list, nor on which hash the tree is balanced by.
-/

namespace Vere.Hoon.Parse

open Vere.Lib

namespace Key

/-- The first character of a key. -/
def low : Key → Nat
  | .one p => p
  | .two p _ => p

/-- The last character of a key. -/
def high : Key → Nat
  | .one p => p
  | .two _ q => q

/-- The key has a character. -/
def Full (p : Key) : Prop := p.low ≤ p.high

/-- The keys have no character in common. -/
def Apart (p q : Key) : Prop := ∀ i, p.has i = true → q.has i = false

/-- The key is wholly before the other. -/
def before (p q : Key) : Bool := p.low ≤ p.high ∧ p.high < q.low ∧ q.low ≤ q.high

theorem has_iff (p : Key) (i : Nat) : p.has i = true ↔ p.low ≤ i ∧ i ≤ p.high := by
  cases p with
  | one p =>
      simp only [has, low, high, decide_eq_true_eq]
      omega
  | two p q => simp [has, low, high]

theorem wor_iff (p q : Key) : wor p q = true ↔ p.high < q.low := by
  cases p <;> cases q <;> simp [wor, low, high]

theorem before_iff (p q : Key) : p.before q = true ↔ p.Full ∧ p.high < q.low ∧ q.Full := by
  simp [before, Full]

theorem before_trans {p q r : Key} (hpq : Treap.Below before p q)
    (hqr : Treap.Below before q r) : Treap.Below before p r := by
  obtain ⟨hp, hlt, hq⟩ := (before_iff p q).mp hpq.1
  obtain ⟨-, hlt', hr⟩ := (before_iff q r).mp hqr.1
  rw [Full] at hq hr
  refine ⟨(before_iff p r).mpr ⟨hp, by omega, hr⟩, ?_⟩
  rintro rfl
  omega

/-- Of two keys with no character in common, `wor` holds if the first is before, and otherwise
the second is. -/
theorem Apart.below_or {p q : Key} (h : p.Apart q) (hp : p.Full) (hq : q.Full) :
    if wor p q = true then Treap.Below before p q else Treap.Below before q p := by
  rw [Full] at hp hq
  split
  next hw =>
    have hlt := (wor_iff p q).mp hw
    refine ⟨(before_iff p q).mpr ⟨hp, hlt, hq⟩, ?_⟩
    rintro rfl
    omega
  next hw =>
    -- they overlap in the greater of the two beginnings, or the second ends before the first
    have hle : q.low ≤ p.high := by
      have := mt (wor_iff p q).mpr hw
      omega
    have hlt : q.high < p.low := by
      by_contra hge
      have hmax := h (max p.low q.low) ((has_iff p _).mpr (by omega))
      have := mt (has_iff q (max p.low q.low)).mpr (by simp [hmax])
      omega
    refine ⟨(before_iff q p).mpr ⟨hq, hlt, hp⟩, ?_⟩
    rintro rfl
    omega

/-- A character of a key is on the side of another that the key itself is on. -/
theorem wor_of_below {p q : Key} {i : Nat} (hi : p.has i = true) :
    (Treap.Below before p q → q.has i = false ∧ wor (.one i) q = true) ∧
      (Treap.Below before q p → q.has i = false ∧ wor (.one i) q = false) := by
  have hpi := (has_iff p i).mp hi
  refine ⟨fun hb => ?_, fun hb => ?_⟩
  · have hlt := ((before_iff p q).mp hb.1).2.1
    refine ⟨Bool.eq_false_iff.mpr fun hq => ?_, (wor_iff _ q).mpr (by simp only [high]; omega)⟩
    have := (has_iff q i).mp hq
    omega
  · obtain ⟨hq, hlt, -⟩ := (before_iff q p).mp hb.1
    rw [Full] at hq
    refine ⟨Bool.eq_false_iff.mpr fun hq' => ?_, Bool.eq_false_iff.mpr fun hw => ?_⟩
    · have := (has_iff q i).mp hq'
      omega
    · have := (wor_iff _ q).mp hw
      simp only [high] at this
      omega

end Key

/-! ### The tree -/

section tree

variable {β : Type} {mug : Noun → Nat} {p : Key} {q : β} {hel : Treap Key β}

theorem holds_stewPut (j : Key) (w : β) :
    Treap.Holds j w (stewPut mug p q hel) ↔ (j = p ∧ w = q) ∨ Treap.Holds j w hel := by
  induction hel with
  | nil => simp [stewPut, Treap.Holds]
  | node pn qn l r ihl ihr =>
      rw [stewPut]
      split
      · rw [Treap.holds_linkLeft, Treap.Holds, ihl, Treap.Holds, or_assoc, or_left_comm]
      · rw [Treap.holds_linkRight, Treap.Holds, ihr, Treap.Holds,
          or_left_comm (b := j = p ∧ w = q), or_left_comm]

theorem allKeys_stewPut {P : Key → Prop} (hp : P p) (h : Treap.AllKeys P hel) :
    Treap.AllKeys P (stewPut mug p q hel) := by
  induction hel with
  | nil => exact ⟨hp, trivial, trivial⟩
  | node pn qn l r ihl ihr =>
      obtain ⟨hn, hl, hr⟩ := h
      rw [stewPut]
      split
      · exact Treap.allKeys_linkLeft hn (ihl hl) hr
      · exact Treap.allKeys_linkRight hn hl (ihr hr)

/-- A key that has no character in common with those in the tree goes where it belongs. -/
theorem ordered_stewPut (hfull : p.Full) (hel_full : Treap.AllKeys Key.Full hel)
    (hapart : Treap.AllKeys p.Apart hel) (h : Treap.Ordered Key.before hel) :
    Treap.Ordered Key.before (stewPut mug p q hel) := by
  induction hel with
  | nil => exact ⟨trivial, trivial, trivial, trivial⟩
  | node pn qn l r ihl ihr =>
      obtain ⟨hl, hr, ol, or⟩ := h
      have hside := hapart.1.below_or hfull hel_full.1
      rw [stewPut]
      split at hside
      next hw =>
        rw [if_pos hw]
        exact Treap.ordered_linkLeft Key.before_trans
          ⟨allKeys_stewPut hside hl, hr, ihl hel_full.2.1 hapart.2.1 ol, or⟩
      next hw =>
        rw [if_neg hw]
        exact Treap.ordered_linkRight Key.before_trans
          ⟨hl, allKeys_stewPut hside hr, ol, ihr hel_full.2.2 hapart.2.2 or⟩

theorem holds_stewTree (leh : List (Key × β)) (j : Key) (w : β) :
    Treap.Holds j w (stewTree mug leh) ↔ (j, w) ∈ leh := by
  induction leh with
  | nil => simp [stewTree, Treap.Holds]
  | cons i t ih =>
      rw [stewTree, List.foldr_cons, holds_stewPut, ← stewTree, ih, List.mem_cons, Prod.ext_iff]

theorem allKeys_stewTree {P : Key → Prop} {leh : List (Key × β)} (h : ∀ i ∈ leh, P i.1) :
    Treap.AllKeys P (stewTree mug leh) := by
  rw [Treap.allKeys_iff]
  rintro k ⟨w, hw⟩
  exact h (k, w) ((holds_stewTree leh k w).mp hw)

theorem ordered_stewTree {leh : List (Key × β)} (hfull : ∀ i ∈ leh, i.1.Full)
    (hapart : leh.Pairwise fun i j => i.1.Apart j.1) :
    Treap.Ordered Key.before (stewTree mug leh) := by
  induction leh with
  | nil => trivial
  | cons i t ih =>
      obtain ⟨hi, ht⟩ := List.forall_mem_cons.mp hfull
      rw [List.pairwise_cons] at hapart
      exact ordered_stewPut hi (allKeys_stewTree ht) (allKeys_stewTree hapart.1) (ih ht hapart.2)

/-- A rule whose key has the character is the one that is found. -/
theorem stewFind_holds {i : Nat} (h : Treap.Ordered Key.before hel)
    (hw : Treap.Holds p q hel) (hi : p.has i = true) : stewFind i hel = some q := by
  induction hel with
  | nil => exact absurd hw id
  | node pn qn l r ihl ihr =>
      obtain ⟨hl, hr, ol, or⟩ := h
      rw [stewFind]
      rcases hw with ⟨rfl, rfl⟩ | hw | hw
      · rw [if_pos hi]
      · obtain ⟨hno, hwor⟩ := (Key.wor_of_below hi).1 (Treap.allKeys_iff.mp hl p hw.has)
        rw [hno, if_neg Bool.false_ne_true, if_pos hwor]
        exact ihl ol hw
      · obtain ⟨hno, hwor⟩ := (Key.wor_of_below hi).2 (Treap.allKeys_iff.mp hr p hw.has)
        rw [hno, if_neg Bool.false_ne_true, hwor, if_neg Bool.false_ne_true]
        exact ihr or hw

/-- What is found is in the tree, under a key that has the character. -/
theorem holds_of_stewFind {i : Nat} (h : stewFind i hel = some q) :
    ∃ p : Key, p.has i = true ∧ Treap.Holds p q hel := by
  induction hel with
  | nil => exact absurd h nofun
  | node pn qn l r ihl ihr =>
      rw [stewFind] at h
      split at h
      next hi =>
        cases h
        exact ⟨pn, hi, .inl ⟨rfl, rfl⟩⟩
      next =>
        split at h
        · obtain ⟨p, hi, hw⟩ := ihl h
          exact ⟨p, hi, .inr (.inl hw)⟩
        · obtain ⟨p, hi, hw⟩ := ihr h
          exact ⟨p, hi, .inr (.inr hw)⟩

end tree

/-- The rule that `++stew` calls is the one whose key has the first character; with none it
fails. The keys all have characters, and no two have one in common. -/
theorem stew_calls {β : Type} (mug : Noun → Nat) (slam : β → Rule) (leh : List (Key × β))
    (hfull : ∀ i ∈ leh, i.1.Full) (hapart : leh.Pairwise fun i j => i.1.Apart j.1)
    (p : Hair) (c : Nat) (t : List Nat) :
    (∀ i ∈ leh, i.1.has c = true → stew mug slam leh ⟨p, c :: t⟩ = slam i.2 ⟨p, c :: t⟩) ∧
      ((∀ i ∈ leh, i.1.has c = false) →
        stew mug slam leh ⟨p, c :: t⟩ = return fail ⟨p, c :: t⟩) := by
  constructor
  · intro i hi hc
    have hw : Treap.Holds i.1 i.2 (stewTree mug leh) := (holds_stewTree leh i.1 i.2).mpr hi
    rw [stew_cons, stewFind_holds (ordered_stewTree hfull hapart) hw hc]
  · intro hno
    rw [stew_cons]
    cases hf : stewFind c (stewTree mug leh) with
    | none => rfl
    | some q =>
        obtain ⟨k, hc, hw⟩ := holds_of_stewFind hf
        have hfalse := hno (k, q) ((holds_stewTree leh k q).mp hw)
        rw [hc] at hfalse
        cases hfalse

/-- A zero or the other digits, as keys. -/
theorem stew_calls_digit :
    stew mug (fun n tub => return easy (.atom n) tub) [(.one 48, 0), (.two 49 57, 1)]
        ⟨⟨1, 1⟩, [53]⟩
      = return easy (.atom 1) ⟨⟨1, 1⟩, [53]⟩ := by
  refine (stew_calls mug (fun n tub => return easy (.atom n) tub) _ ?_ ?_ ⟨1, 1⟩ 53 []).1
    (.two 49 57, 1) ?_ rfl
  · simp [Key.Full, Key.low, Key.high]
  · simp only [List.pairwise_cons, List.mem_singleton, forall_eq, List.not_mem_nil]
    refine ⟨fun i hi => ?_, by simp, .nil⟩
    rw [Key.has_iff] at hi
    rw [Bool.eq_false_iff, ne_eq, Key.has_iff]
    simp only [Key.low, Key.high] at hi ⊢
    omega
  · simp

theorem mug_four_zero : mug (.cell (.atom 4) (.atom 0)) = 3189050509 := by
  have hfour : mug (.atom 4) = 17585875 := by
    rw [mug_atom]
    decide
  rw [mug_cell, hfour, mug_zero]
  decide

/-- `[4 0]` comes above `1` in the tree. -/
theorem vor_one_four : vor mug (.atom 1) (.cell (.atom 4) (.atom 0)) = false := by
  have hone : mug (.atom 67918732) = 991546673 := by
    rw [mug_atom]
    decide
  have hfour : mug (.atom 3189050509) = 36749167 := by
    rw [mug_atom]
    decide
  rw [vor, keyOrder, mug_one, hone, mug_four_zero, hfour]
  rfl

/-- A range from 4 down to 0 has no characters, and comes between the root and the rule for
character 1: it is greater than the range ends, and less than it begins. -/
theorem stew_past_empty :
    ¬∀ (leh : List (Key × Rule)) (p : Hair) (c : Nat) (t : List Nat),
      (leh.Pairwise fun i j => i.1.Apart j.1) →
        ∀ i ∈ leh, i.1.has c = true → stew mug id leh ⟨p, c :: t⟩ = i.2 ⟨p, c :: t⟩ := by
  intro h
  have hone := h [(.two 4 0, fun tub => return next tub), (.one 1, fun tub => return next tub)]
    ⟨1, 1⟩ 1 [] ?_ (.one 1, fun tub => return next tub) (by simp) rfl
  · have htree (a b : Rule) : stewTree mug [(.two 4 0, a), (.one 1, b)]
        = .node (.two 4 0) a .nil (.node (.one 1) b .nil .nil) := by
      simp [stewTree, stewPut, Treap.linkLeft, wor, Key.noun, vor_one_four]
    rw [stew_cons, htree] at hone
    cases hone
  · simp only [List.pairwise_cons, List.mem_singleton, forall_eq, List.not_mem_nil]
    refine ⟨fun i hi => ?_, by simp, .nil⟩
    rw [Key.has_iff] at hi
    simp only [Key.low, Key.high] at hi
    omega

end Vere.Hoon.Parse
