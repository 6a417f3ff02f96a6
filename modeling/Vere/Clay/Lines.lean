import Vere.Clay.Merge

/-!
# Vere.Clay.Lines

What `++qeal` of `++ze` does to the lines of a file.

A change is a hunk: the line at which it starts, what it deletes and what it inserts, both
backwards. Two changes of different sides clash when they start at one line or when one starts in
what the other deletes. `amend` makes the changes of a list in a text, each at its line.

`qeal` without conflict marks merges two patches exactly when no change of one clashes with one of
the other, and the merged patch makes the changes of both (`qeal_disjoint`).
-/

namespace Vere.Clay

open Vere.Lib Vere.Hoon

variable {α : Type}

/-- A change: where it starts, what it deletes and what it inserts. -/
abbrev Hunk (α : Type) := Nat × List α × List α

/-- The changes start at one line, or one starts in what the other deletes. -/
def Clash (a b : Hunk α) : Prop :=
  a.1 = b.1 ∨ (a.1 < b.1 ∧ b.1 < a.1 + a.2.1.length) ∨ (b.1 < a.1 ∧ a.1 < b.1 + b.2.1.length)

instance (a b : Hunk α) : Decidable (Clash a b) := inferInstanceAs (Decidable (_ ∨ _))

theorem Clash.symm {a b : Hunk α} (hc : Clash a b) : Clash b a := by
  rcases hc with he | hab | hba
  · exact .inl he.symm
  · exact .inr (.inr hab)
  · exact .inr (.inl hba)

/-! ### Texts with changes -/

/-- What the changes insert before line `n`. -/
def inserted (H : List (Hunk α)) (n : Nat) : List α :=
  (H.filter fun a => a.1 = n).flatMap fun a => a.2.2.reverse

/-- One of the changes deletes line `n`. -/
def deleted (H : List (Hunk α)) (n : Nat) : Bool :=
  H.any fun a => a.1 ≤ n && n < a.1 + a.2.1.length

/-- The text from line `n` on, with every deletion and insertion of the changes. -/
def amend (H : List (Hunk α)) : Nat → List α → List α
  | n, [] => inserted H n
  | n, x :: r => inserted H n ++ (if deleted H n then [] else [x]) ++ amend H (n + 1) r

section amend

variable {H H' : List (Hunk α)} {n k : Nat}

theorem inserted_cons (a : Hunk α) :
    inserted (a :: H) n = if a.1 = n then a.2.2.reverse ++ inserted H n else inserted H n := by
  by_cases ha : a.1 = n <;> simp [inserted, ha]

theorem deleted_cons (a : Hunk α) :
    deleted (a :: H) n = (decide (a.1 ≤ n) && decide (n < a.1 + a.2.1.length) || deleted H n) := rfl

/-- Before all changes nothing is inserted. -/
theorem inserted_before (hH : ∀ a ∈ H, n < a.1) : inserted H n = [] := by
  have hnone : H.filter (fun a => a.1 = n) = [] := by
    rw [List.filter_eq_nil_iff]
    intro a ha he
    exact (hH a ha).ne' (of_decide_eq_true he)
  rw [inserted, hnone, List.flatMap_nil]

theorem deleted_before (hH : ∀ a ∈ H, n < a.1) : deleted H n = false := by
  rw [deleted, List.any_eq_false]
  intro a ha hd
  rw [Bool.and_eq_true, decide_eq_true_eq] at hd
  exact absurd hd.1 (Nat.not_le_of_lt (hH a ha))

theorem amend_congr (r : List α) (hi : ∀ k, n ≤ k → inserted H k = inserted H' k)
    (hd : ∀ k, n ≤ k → deleted H k = deleted H' k) : amend H n r = amend H' n r := by
  induction r generalizing n with
  | nil => exact hi n le_rfl
  | cons x r ih =>
    rw [amend, amend, hi n le_rfl, hd n le_rfl,
      ih (fun k hk => hi k (Nat.le_of_succ_le hk)) (fun k hk => hd k (Nat.le_of_succ_le hk))]

/-- Before all changes the text stays. -/
theorem amend_keep (s h : List α) (hH : ∀ a ∈ H, n + s.length ≤ a.1) :
    amend H n (s ++ h) = s ++ amend H (n + s.length) h := by
  induction s generalizing n with
  | nil => rfl
  | cons x s ih =>
    have hlt : ∀ a ∈ H, n < a.1 := by
      intro a ha
      have := hH a ha
      rw [List.length_cons] at this
      omega
    have hs : n + 1 + s.length = n + (x :: s).length := by rw [List.length_cons]; omega
    rw [List.cons_append, amend, inserted_before hlt, deleted_before hlt, ih (by rwa [hs]), hs]
    rfl

/-- Within a deletion nothing stays. -/
theorem amend_within {p q : List α} (l h : List α) (hn : n < k) (hk : k + l.length = n + p.length)
    (hH : ∀ a ∈ H, n + p.length ≤ a.1) :
    amend ((n, p, q) :: H) k (l ++ h) = amend H (n + p.length) h := by
  induction l generalizing k with
  | nil =>
    rw [List.length_nil, Nat.add_zero] at hk
    subst hk
    refine amend_congr h (fun j hj => ?_) (fun j hj => ?_)
    · rw [inserted_cons, if_neg]
      intro he
      exact (lt_of_lt_of_le hn hj).ne he
    · rw [deleted_cons]
      simp [Nat.not_lt_of_le hj]
  | cons x l ih =>
    rw [List.length_cons] at hk
    have hlt : k < n + p.length := by omega
    have hins : inserted ((n, p, q) :: H) k = [] := by
      rw [inserted_cons, if_neg hn.ne]
      exact inserted_before fun a ha => lt_of_lt_of_le hlt (hH a ha)
    have hdel : deleted ((n, p, q) :: H) k = true := by
      rw [deleted_cons]
      simp [hn.le, hlt]
    rw [List.cons_append, amend, hins, hdel, ih (Nat.lt_succ_of_lt hn) (by omega)]
    rfl

/-- A change at the head of the text. -/
theorem amend_edit {p q : List α} (l h : List α) (hl : l.length = p.length)
    (hH : ∀ a ∈ H, n + p.length ≤ a.1) :
    amend ((n, p, q) :: H) n (l ++ h) = q.reverse ++ amend H (n + p.length) h := by
  cases l with
  | nil =>
    obtain rfl := List.length_eq_zero_iff.mp hl.symm
    have hlater : ∀ r, amend ((n, [], q) :: H) (n + 1) r = amend H (n + 1) r := by
      refine fun r => amend_congr r (fun j hj => ?_) (fun j hj => ?_)
      · rw [inserted_cons, if_neg (Nat.ne_of_lt hj)]
      · rw [deleted_cons]
        simp [Nat.le_of_lt hj]
    have hdel : deleted ((n, [], q) :: H) n = deleted H n := by
      rw [deleted_cons]
      simp
    cases h with
    | nil => simp [amend, inserted_cons]
    | cons x h => simp [amend, inserted_cons, hlater, hdel]
  | cons x l =>
    rw [List.length_cons] at hl
    have hlt : ∀ a ∈ H, n < a.1 := fun a ha => lt_of_lt_of_le (by omega) (hH a ha)
    have hdel : deleted ((n, p, q) :: H) n = true := by
      rw [deleted_cons]
      simp [show n < n + p.length by omega]
    rw [List.cons_append, amend, inserted_cons, if_pos rfl, inserted_before hlt, hdel,
      amend_within l h (Nat.lt_succ_self n) (by omega) hH]
    simp

/-- The order of changes that start at different lines does not matter. -/
theorem amend_perm (hp : H.Perm H') (hH : (H.map Prod.fst).Nodup) (n : Nat) (r : List α) :
    amend H n r = amend H' n r := by
  refine amend_congr r (fun k _ => ?_) (fun k _ => hp.any_eq)
  have hf := hp.filter (fun a => a.1 = k)
  have hone : H.filter (fun a => a.1 = k) = H'.filter fun a => a.1 = k := by
    cases hl : H.filter (fun a => a.1 = k) with
    | nil =>
      rw [hl] at hf
      exact (List.nil_perm.mp hf).symm
    | cons a l =>
      cases l with
      | nil =>
        rw [hl] at hf
        exact List.singleton_perm.mp hf
      | cons b l =>
        have hnd : ((a :: b :: l).map Prod.fst).Nodup := hl ▸ hH.sublist (List.filter_sublist.map _)
        have ha : a ∈ H.filter (fun a => a.1 = k) := hl ▸ List.mem_cons_self
        have hb : b ∈ H.filter (fun a => a.1 = k) := hl ▸ List.mem_cons_of_mem _ List.mem_cons_self
        have hab : a.1 = b.1 :=
          (of_decide_eq_true (List.mem_filter.mp ha).2).trans
            (of_decide_eq_true (List.mem_filter.mp hb).2).symm
        rw [List.map_cons, List.nodup_cons, hab] at hnd
        exact absurd List.mem_cons_self hnd.1
  rw [inserted, inserted, hone]

end amend

/-! ### Patches -/

theorem hunks_start {n : Nat} {s : List (Unce Noun)} {a : Hunk Noun} (ha : a ∈ hunks n s) :
    n ≤ a.1 := by
  induction s generalizing n with
  | nil => exact absurd ha List.not_mem_nil
  | cons i s ih =>
    cases i with
    | skip p => exact le_trans (Nat.le_add_right _ _) (ih ha)
    | edit p q =>
      rcases List.mem_cons.mp ha with rfl | ha
      · exact le_rfl
      · exact le_trans (Nat.le_add_right _ _) (ih ha)

/-- A patch makes its changes. -/
theorem amend_turns {s : List (Unce Noun)} {r v : List Noun} (ht : Turns s r v) (n : Nat) :
    amend (hunks n s) n r = v := by
  induction ht generalizing n with
  | nil => rfl
  | skip l _ ih =>
    rw [hunks, amend_keep l _ fun a ha => hunks_start ha, ih]
  | edit p q _ ih =>
    rw [hunks, amend_edit p.reverse _ (List.length_reverse) fun a ha => hunks_start ha, ih]

/-- Skips and edits take turns, and no skip is empty. -/
structure Woven (s : List (Unce α)) : Prop where
  spaced : Spaced s
  skips : s.IsChain fun a b => ∀ m n, ¬(a = .skip m ∧ b = .skip n)
  pos : ∀ n, .skip n ∈ s → 0 < n

theorem Woven.tail {i : Unce α} {s : List (Unce α)} (hw : Woven (i :: s)) : Woven s :=
  ⟨hw.spaced.tail, hw.skips.tail, fun n hn => hw.pos n (List.mem_cons_of_mem _ hn)⟩

theorem Woven.head {n : Nat} {s : List (Unce α)} (hw : Woven (.skip n :: s)) : 0 < n :=
  hw.pos n List.mem_cons_self

/-- After a skip comes an edit. -/
theorem Woven.after {n : Nat} {s : List (Unce α)} (hw : Woven (.skip n :: s)) :
    s = [] ∨ ∃ p q s', s = .edit p q :: s' := by
  cases s with
  | nil => exact .inl rfl
  | cons i s =>
    cases i with
    | skip m => exact absurd ⟨rfl, rfl⟩ ((List.isChain_cons_cons.mp hw.skips).1 n m)
    | edit p q => exact .inr ⟨p, q, s, rfl⟩

/-- After an edit comes a skip. -/
theorem Woven.next {p q : List α} {s : List (Unce α)} (hw : Woven (.edit p q :: s)) :
    s = [] ∨ ∃ n s', s = .skip n :: s' := by
  cases s with
  | nil => exact .inl rfl
  | cons i s =>
    cases i with
    | skip n => exact .inr ⟨n, s, rfl⟩
    | edit p' q' => exact absurd ⟨rfl, rfl⟩ ((List.isChain_cons_cons.mp hw.spaced).1 p q p' q')

/-- A part of a skip is left. -/
theorem Woven.shrink {m n : Nat} {s : List (Unce α)} (hw : Woven (.skip n :: s)) (hm : 0 < m) :
    Woven (.skip m :: s) := by
  refine ⟨spaced_skip hw.tail.spaced, ?_, fun k hk => ?_⟩
  · rcases hw.after with rfl | ⟨p, q, s', rfl⟩
    · exact List.isChain_singleton _
    · refine List.isChain_cons_cons.mpr ⟨?_, hw.tail.skips⟩
      rintro a b ⟨-, hb⟩
      cases hb
  · rcases List.mem_cons.mp hk with he | hk
    · cases he
      exact hm
    · exact hw.tail.pos k hk

theorem Woven.edit {s : List (Unce α)} (hw : Woven s) (hs : s = [] ∨ ∃ n s', s = .skip n :: s')
    (p q : List α) : Woven (.edit p q :: s) := by
  refine ⟨?_, ?_, fun n hn => ?_⟩
  · rcases hs with rfl | ⟨n, s', rfl⟩
    · exact List.isChain_singleton _
    · exact spaced_cons_skip hw.spaced
  · cases s with
    | nil => exact List.isChain_singleton _
    | cons i s =>
      refine List.isChain_cons_cons.mpr ⟨?_, hw.skips⟩
      rintro m n ⟨hm, -⟩
      cases hm
  · rcases List.mem_cons.mp hn with he | hn
    · cases he
    · exact hw.pos n hn

theorem Woven.skip {s : List (Unce α)} (hw : Woven s) (hs : s = [] ∨ ∃ p q s', s = .edit p q :: s')
    {n : Nat} (hn : 0 < n) : Woven (.skip n :: s) := by
  refine ⟨spaced_skip hw.spaced, ?_, fun m hm => ?_⟩
  · rcases hs with rfl | ⟨p, q, s', rfl⟩
    · exact List.isChain_singleton _
    · refine List.isChain_cons_cons.mpr ⟨?_, hw.skips⟩
      rintro a b ⟨-, hb⟩
      cases hb
  · rcases List.mem_cons.mp hm with he | hm
    · cases he
      exact hn
    · exact hw.pos m hm

theorem qael_hunks {s : List (Unce Noun)} (hs : Spaced s) (n : Nat) :
    hunks n (qael s) = hunks n s := by
  induction s using qael.induct generalizing n with
  | case1 => rw [qael]
  | case2 i => rw [qael]
  | case3 p p' t ih =>
    rw [qael, ih (spaced_skip hs.tail.tail), hunks, hunks, hunks, Nat.add_assoc]
  | case4 p p' q' t ih =>
    rw [qael, hunks, ih hs.tail]
    rfl
  | case5 p q p' q' t ih => exact absurd ⟨rfl, rfl⟩ ((List.isChain_cons_cons.mp hs).1 p q p' q')
  | case6 p q p' t ih =>
    rw [qael, hunks, ih hs.tail]
    rfl

theorem qael_edit {p q : List Noun} {s : List (Unce Noun)} (hs : Spaced (.edit p q :: s)) :
    qael (.edit p q :: s) = .edit p q :: qael s := by
  cases s with
  | nil => rw [qael, qael]
  | cons i s =>
    cases i with
    | skip n => rw [qael]
    | edit p' q' => exact absurd ⟨rfl, rfl⟩ ((List.isChain_cons_cons.mp hs).1 p q p' q')

theorem qael_skip (n : Nat) (s : List (Unce Noun)) :
    ∃ m s', qael (.skip n :: s) = .skip m :: s' := by
  induction s generalizing n with
  | nil => exact ⟨n, [], by rw [qael]⟩
  | cons i s ih =>
    cases i with
    | skip k =>
      rw [qael]
      exact ih (n + k)
    | edit p q =>
      rw [qael]
      exact ⟨n, _, rfl⟩

/-- `qael` puts skips together, and keeps the rest. -/
theorem qael_woven {s : List (Unce Noun)} (hs : Spaced s) (hpos : ∀ n, .skip n ∈ s → 0 < n) :
    Woven (qael s) := by
  induction s using qael.induct with
  | case1 =>
    rw [qael]
    exact ⟨hs, List.isChain_nil, hpos⟩
  | case2 i =>
    rw [qael]
    exact ⟨hs, List.isChain_singleton _, hpos⟩
  | case3 p p' t ih =>
    rw [qael]
    refine ih (spaced_skip hs.tail.tail) fun n hn => ?_
    rcases List.mem_cons.mp hn with he | hn
    · cases he
      exact Nat.add_pos_left (hpos p List.mem_cons_self) p'
    · exact hpos n (List.mem_cons_of_mem _ (List.mem_cons_of_mem _ hn))
  | case4 p p' q' t ih =>
    have ht := ih hs.tail fun n hn => hpos n (List.mem_cons_of_mem _ hn)
    rw [qael]
    refine ht.skip (.inr ?_) (hpos p List.mem_cons_self)
    exact ⟨p', q', qael t, qael_edit hs.tail⟩
  | case5 p q p' q' t ih => exact absurd ⟨rfl, rfl⟩ ((List.isChain_cons_cons.mp hs).1 p q p' q')
  | case6 p q p' t ih =>
    have ht := ih hs.tail fun n hn => hpos n (List.mem_cons_of_mem _ hn)
    rw [qael]
    exact ht.edit (.inr (qael_skip p' t)) p q

theorem lusk_woven {r v l : List Noun} {s : List (Unce Noun)} (hs : lusk r v l = some s) :
    Woven (qael s) :=
  qael_woven (lusk_spaced hs) fun _ hn => lusk_pos hs hn

/-! ### Patches that fit a text -/

/-- The patch applies to the text. -/
def Applies (s : List (Unce α)) (r : List α) : Prop := ∃ v, Turns s r v

theorem applies_nil {r : List α} : Applies [] r ↔ r = [] := by
  constructor
  · rintro ⟨v, ht⟩
    cases ht
    rfl
  · rintro rfl
    exact ⟨[], .nil⟩

theorem applies_skip {n : Nat} {s : List (Unce α)} {r : List α} :
    Applies (.skip n :: s) r ↔ n ≤ r.length ∧ Applies s (r.drop n) := by
  constructor
  · rintro ⟨v, ht⟩
    cases ht with
    | skip l ht =>
      refine ⟨by simp, ?_⟩
      rw [List.drop_left]
      exact ⟨_, ht⟩
  · rintro ⟨hn, v, ht⟩
    have := Turns.skip (r.take n) ht
    rw [List.length_take_of_le hn, List.take_append_drop] at this
    exact ⟨_, this⟩

theorem applies_edit {p q : List α} {s : List (Unce α)} {r : List α} :
    Applies (.edit p q :: s) r ↔ r.take p.length = p.reverse ∧ Applies s (r.drop p.length) := by
  constructor
  · rintro ⟨v, ht⟩
    cases ht with
    | edit _ _ ht =>
      rw [← List.length_reverse, List.take_left, List.drop_left]
      exact ⟨rfl, _, ht⟩
  · rintro ⟨hp, v, ht⟩
    have := Turns.edit p q ht
    rw [← hp, List.take_append_drop] at this
    exact ⟨_, this⟩

/-- A part of a skip is left. -/
theorem Applies.drop_skip {m n : Nat} {s : List (Unce α)} {r : List α} (hr : Applies (.skip n :: s) r)
    (hm : m ≤ n) : Applies (.skip (n - m) :: s) (r.drop m) := by
  rw [applies_skip] at hr ⊢
  rw [List.length_drop, List.drop_drop, Nat.add_sub_of_le hm]
  exact ⟨Nat.sub_le_sub_right hr.1 m, hr.2⟩

/-- `qael` puts skips together, which makes the same text. -/
theorem qael_turns {s : List (Unce Noun)} {r v : List Noun} (hs : Spaced s) (ht : Turns s r v) :
    Turns (qael s) r v := by
  induction s using qael.induct generalizing r v with
  | case1 => rwa [qael]
  | case2 i => rwa [qael]
  | case3 p p' t ih =>
    rw [qael]
    refine ih (spaced_skip hs.tail.tail) ?_
    cases ht with
    | skip l ht =>
      cases ht with
      | skip l' ht =>
        rw [← List.append_assoc, ← List.append_assoc, ← List.length_append]
        exact .skip (l ++ l') ht
  | case4 p p' q' t ih =>
    rw [qael]
    cases ht with
    | skip l ht => exact .skip l (ih hs.tail ht)
  | case5 p q p' q' t ih => exact absurd ⟨rfl, rfl⟩ ((List.isChain_cons_cons.mp hs).1 p q p' q')
  | case6 p q p' t ih =>
    rw [qael]
    cases ht with
    | edit _ _ ht => exact .edit p q (ih hs.tail ht)

/-! ### The merge without marks -/

/-- The merged patch fits the text that both fit. -/
theorem qealLoop_applies {s t m : List (Unce Noun)} {r : List Noun} (hm : qealLoop s t = some m)
    (hs : Applies s r) (ht : Applies t r) : Applies m r := by
  induction s, t using qealLoop.induct generalizing m r with
  | case1 t =>
    rw [qealLoop] at hm
    obtain rfl := Option.some.inj hm
    exact ht
  | case2 i s =>
    rw [qealLoop] at hm
    obtain rfl := Option.some.inj hm
    exact hs
  | case3 s a t ih =>
    rw [qealLoop, if_pos rfl] at hm
    obtain ⟨m', hm', rfl⟩ := Option.map_eq_some_iff.mp hm
    rw [applies_skip] at hs ht ⊢
    exact ⟨hs.1, ih hm' hs.2 ht.2⟩
  | case4 a s b t hab hlt ih =>
    rw [qealLoop, if_neg hab, if_pos hlt] at hm
    obtain ⟨m', hm', rfl⟩ := Option.map_eq_some_iff.mp hm
    rw [applies_skip] at ht ⊢
    exact ⟨ht.1, ih hm' (hs.drop_skip hlt.le) ht.2⟩
  | case5 a s b t hab hlt ih =>
    rw [qealLoop, if_neg hab, if_neg hlt] at hm
    obtain ⟨m', hm', rfl⟩ := Option.map_eq_some_iff.mp hm
    rw [applies_skip] at hs ⊢
    exact ⟨hs.1, ih hm' hs.2 (ht.drop_skip (Nat.le_of_not_lt hlt))⟩
  | case6 s p q t ih =>
    rw [qealLoop, if_pos rfl] at hm
    obtain ⟨m', hm', rfl⟩ := Option.map_eq_some_iff.mp hm
    rw [applies_edit] at ht ⊢
    exact ⟨ht.1, ih hm' (applies_skip.mp hs).2 ht.2⟩
  | case7 a s p q t hab hlt ih =>
    rw [qealLoop, if_neg hab, if_pos hlt] at hm
    obtain ⟨m', hm', rfl⟩ := Option.map_eq_some_iff.mp hm
    rw [applies_edit] at ht ⊢
    exact ⟨ht.1, ih hm' (hs.drop_skip hlt.le) ht.2⟩
  | case8 a s p q t hab hlt =>
    rw [qealLoop, if_neg hab, if_neg hlt] at hm
    cases hm
  | case9 =>
    rw [qealLoop] at hm
    cases hm
  | case10 p q s t ih =>
    rw [qealLoop, if_pos rfl] at hm
    obtain ⟨m', hm', rfl⟩ := Option.map_eq_some_iff.mp hm
    rw [applies_edit] at hs ⊢
    exact ⟨hs.1, ih hm' hs.2 (applies_skip.mp ht).2⟩
  | case11 p q s b t hab hlt ih =>
    rw [qealLoop, if_neg hab, if_pos hlt] at hm
    obtain ⟨m', hm', rfl⟩ := Option.map_eq_some_iff.mp hm
    rw [applies_edit] at hs ⊢
    exact ⟨hs.1, ih hm' hs.2 (ht.drop_skip hlt.le)⟩
  | case12 p q s b t hab hlt =>
    rw [qealLoop, if_neg hab, if_neg hlt] at hm
    cases hm

/-- A change of one list clashes with one of the other. -/
def Meet (H K : List (Hunk α)) : Prop := ∃ a ∈ H, ∃ b ∈ K, Clash a b

instance (H K : List (Hunk α)) : Decidable (Meet H K) :=
  inferInstanceAs (Decidable (∃ a ∈ H, ∃ b ∈ K, Clash a b))

theorem Meet.symm {H K : List (Hunk α)} (hm : Meet H K) : Meet K H := by
  obtain ⟨a, ha, b, hb, hc⟩ := hm
  exact ⟨b, hb, a, ha, hc.symm⟩

/-- A change before all of the other side clashes with none. -/
theorem meet_cons {H K : List (Hunk α)} {a : Hunk α} (hK : ∀ b ∈ K, a.1 < b.1 ∧ a.1 + a.2.1.length ≤ b.1) :
    Meet (a :: H) K ↔ Meet H K := by
  constructor
  · rintro ⟨c, hc, b, hb, hcb⟩
    rcases List.mem_cons.mp hc with rfl | hc
    · obtain ⟨hlt, hle⟩ := hK b hb
      rcases hcb with he | ⟨-, hin⟩ | ⟨hgt, -⟩
      · exact absurd he hlt.ne
      · exact absurd hin (Nat.not_lt_of_le hle)
      · exact absurd hgt hlt.asymm
    · exact ⟨c, hc, b, hb, hcb⟩
  · rintro ⟨c, hc, b, hb, hcb⟩
    exact ⟨c, List.mem_cons_of_mem _ hc, b, hb, hcb⟩

theorem meet_nil {H : List (Hunk α)} : ¬Meet H [] := by
  rintro ⟨a, -, b, hb, -⟩
  exact List.not_mem_nil hb

/-- What comes after a skip starts after it. -/
theorem Woven.hunks_lt {n a : Nat} {s : List (Unce Noun)} (hw : Woven (.skip a :: s)) {b : Hunk Noun}
    (hb : b ∈ hunks (n + a) s) : n < b.1 ∧ n + a ≤ b.1 := by
  have := hunks_start hb
  have := hw.head
  omega

/-- A deletion that goes on after the skip of the other side ends clashes with what comes there. -/
theorem meet_short {n a : Nat} {s t : List (Unce Noun)} {p q r : List Noun} (hw : Woven (.skip a :: s))
    (hs : Applies (.skip a :: s) r) (ht : Applies (.edit p q :: t) r) (ha : a < p.length) :
    Meet (hunks n (.skip a :: s)) (hunks n (.edit p q :: t)) := by
  rcases hw.after with rfl | ⟨p', q', s', rfl⟩
  · rw [applies_skip, applies_nil, List.drop_eq_nil_iff] at hs
    have hlen : p.length ≤ r.length := by
      rw [← List.length_reverse, ← (applies_edit.mp ht).1]
      exact List.length_take_le' _ _
    omega
  · refine ⟨(n + a, p', q'), List.mem_cons_self, (n, p, q), List.mem_cons_self, .inr (.inr ⟨?_, ?_⟩)⟩
    · exact Nat.lt_add_of_pos_right hw.head
    · exact Nat.add_lt_add_left ha n

/-- The merge succeeds exactly when no changes clash. -/
theorem qealLoop_isSome {s t : List (Unce Noun)} {r : List Noun} (hws : Woven s) (hwt : Woven t)
    (hs : Applies s r) (ht : Applies t r) (n : Nat) :
    (qealLoop s t).isSome ↔ ¬Meet (hunks n s) (hunks n t) := by
  induction s, t using qealLoop.induct generalizing n r with
  | case1 t =>
    rw [qealLoop]
    exact ⟨fun _ hm => meet_nil hm.symm, fun _ => rfl⟩
  | case2 i s =>
    rw [qealLoop]
    exact ⟨fun _ hm => meet_nil hm, fun _ => rfl⟩
  | case3 s a t ih =>
    rw [qealLoop, if_pos rfl, Option.isSome_map]
    exact ih hws.tail hwt.tail (applies_skip.mp hs).2 (applies_skip.mp ht).2 (n + a)
  | case4 a s b t hab hlt ih =>
    rw [qealLoop, if_neg hab, if_pos hlt, Option.isSome_map,
      ih (hws.shrink (Nat.sub_pos_of_lt hlt)) hwt.tail (hs.drop_skip hlt.le) (applies_skip.mp ht).2 (n + b),
      hunks, hunks, hunks, show n + b + (a - b) = n + a by omega]
  | case5 a s b t hab hlt ih =>
    rw [qealLoop, if_neg hab, if_neg hlt, Option.isSome_map,
      ih hws.tail (hwt.shrink (by omega)) (applies_skip.mp hs).2 (ht.drop_skip (Nat.le_of_not_lt hlt)) (n + a),
      hunks, hunks, hunks, show n + a + (b - a) = n + b by omega]
  | case6 s p q t ih =>
    rw [qealLoop, if_pos rfl, Option.isSome_map,
      ih hws.tail hwt.tail (applies_skip.mp hs).2 (applies_edit.mp ht).2 (n + p.length), hunks, hunks]
    exact not_congr ⟨fun hm => ((meet_cons fun b hb => hws.hunks_lt hb).mpr hm.symm).symm,
      fun hm => ((meet_cons fun b hb => hws.hunks_lt hb).mp hm.symm).symm⟩
  | case7 a s p q t hab hlt ih =>
    have hlater : ∀ b ∈ hunks (n + a) s, n < b.1 ∧ n + p.length ≤ b.1 := by
      intro b hb
      have := hunks_start hb
      omega
    rw [qealLoop, if_neg hab, if_pos hlt, Option.isSome_map,
      ih (hws.shrink (Nat.sub_pos_of_lt hlt)) hwt.tail (hs.drop_skip hlt.le) (applies_edit.mp ht).2
        (n + p.length), hunks, hunks, hunks, show n + p.length + (a - p.length) = n + a by omega]
    exact not_congr ⟨fun hm => ((meet_cons hlater).mpr hm.symm).symm,
      fun hm => ((meet_cons hlater).mp hm.symm).symm⟩
  | case8 a s p q t hab hlt =>
    rw [qealLoop, if_neg hab, if_neg hlt]
    exact ⟨fun h => absurd h Bool.false_ne_true, fun hm => absurd (meet_short hws hs ht (by omega)) hm⟩
  | case9 p q s p' q' t =>
    rw [qealLoop]
    refine ⟨fun h => absurd h Bool.false_ne_true, fun hm => absurd ?_ hm⟩
    exact ⟨(n, p, q), List.mem_cons_self, (n, p', q'), List.mem_cons_self, .inl rfl⟩
  | case10 p q s t ih =>
    rw [qealLoop, if_pos rfl, Option.isSome_map,
      ih hws.tail hwt.tail (applies_edit.mp hs).2 (applies_skip.mp ht).2 (n + p.length), hunks, hunks,
      meet_cons fun b hb => hwt.hunks_lt hb]
  | case11 p q s b t hab hlt ih =>
    have hlater : ∀ c ∈ hunks (n + b) t, n < c.1 ∧ n + p.length ≤ c.1 := by
      intro c hc
      have := hunks_start hc
      omega
    rw [qealLoop, if_neg hab, if_pos hlt, Option.isSome_map,
      ih hws.tail (hwt.shrink (Nat.sub_pos_of_lt hlt)) (applies_edit.mp hs).2 (ht.drop_skip hlt.le)
        (n + p.length), hunks, hunks, hunks, show n + p.length + (b - p.length) = n + b by omega,
      meet_cons hlater]
  | case12 p q s b t hab hlt =>
    rw [qealLoop, if_neg hab, if_neg hlt]
    exact ⟨fun h => absurd h Bool.false_ne_true, fun hm => absurd (meet_short hwt ht hs (by omega)).symm hm⟩

/-- No two changes of a patch start at one line. -/
theorem Woven.nodup {s : List (Unce Noun)} (hw : Woven s) (n : Nat) :
    ((hunks n s).map Prod.fst).Nodup := by
  induction s generalizing n with
  | nil => exact List.nodup_nil
  | cons i s ih =>
    cases i with
    | skip a => exact ih hw.tail (n + a)
    | edit p q =>
      rw [hunks, List.map_cons, List.nodup_cons]
      refine ⟨fun hn => ?_, ih hw.tail _⟩
      obtain ⟨b, hb, hbn⟩ := List.mem_map.mp hn
      rcases hw.next with rfl | ⟨a, s', rfl⟩
      · exact absurd hb List.not_mem_nil
      · have : n + p.length + a ≤ b.1 := hunks_start hb
        have := hw.tail.head
        dsimp only at hbn
        omega

theorem nodup_both {H K : List (Hunk α)} (hH : (H.map Prod.fst).Nodup) (hK : (K.map Prod.fst).Nodup)
    (hm : ¬Meet H K) : ((H ++ K).map Prod.fst).Nodup := by
  rw [List.map_append, List.nodup_append]
  refine ⟨hH, hK, fun x hx y hy hxy => hm ?_⟩
  obtain ⟨a, ha, rfl⟩ := List.mem_map.mp hx
  obtain ⟨b, hb, rfl⟩ := List.mem_map.mp hy
  exact ⟨a, ha, b, hb, .inl hxy⟩

/-- The text of the merged patch. -/
theorem qealLoop_lurk {s t m : List (Unce Noun)} {r : List Noun} (hws : Woven s) (hwt : Woven t)
    (hs : Applies s r) (ht : Applies t r) (hm : qealLoop s t = some m) :
    lurk r m = some (amend (hunks 0 s ++ hunks 0 t) 0 r) := by
  have hno := (qealLoop_isSome hws hwt hs ht 0).mp (by rw [hm]; rfl)
  obtain ⟨x, hx⟩ := qealLoop_applies hm hs ht
  have hperm := qealLoop_hunks hm 0
  rw [lurk_turns hx, ← amend_turns hx 0]
  refine congrArg some (amend_perm hperm ?_ 0 r)
  exact (hperm.map _).nodup_iff.mpr (nodup_both (hws.nodup 0) (hwt.nodup 0) hno)

section lusk

variable {r v w ls lt : List Noun} {s t : List (Unce Noun)} {pum puq : Umph}

/-- Two patches of one file merge exactly when no change of one clashes with a change of the
other, and the merged patch makes the deletions and the insertions of both, each at its line. -/
theorem qeal_disjoint (hs : lusk r v ls = some s) (ht : lusk r w lt = some t) :
    ((qeal (.mk pum (.c s)) (.mk puq (.c t))).isSome ↔ ¬Meet (hunks 0 s) (hunks 0 t)) ∧
      ∀ m, qeal (.mk pum (.c s)) (.mk puq (.c t)) = some m →
        ∃ u u', m = .mk .c (.c u) ∧ lurk r u = some (amend (hunks 0 s ++ hunks 0 t) 0 r) ∧
          qeal (.mk puq (.c t)) (.mk pum (.c s)) = some (.mk .c (.c u')) ∧
          lurk r u' = some (amend (hunks 0 s ++ hunks 0 t) 0 r) := by
  have hws := lusk_woven hs
  have hwt := lusk_woven ht
  have has : Applies (qael s) r := ⟨v, qael_turns (lusk_spaced hs) (lusk_turns hs)⟩
  have hat : Applies (qael t) r := ⟨w, qael_turns (lusk_spaced ht) (lusk_turns ht)⟩
  constructor
  · rw [qeal, Option.isSome_map, qealLoop_isSome hws hwt has hat 0, qael_hunks (lusk_spaced hs),
      qael_hunks (lusk_spaced ht)]
  · intro m hm
    have hsymm := qeal_symm (.mk pum (.c s)) (.mk puq (.c t))
    have hm' := hm
    rw [qeal, Option.map_eq_some_iff] at hm'
    obtain ⟨u, hu, rfl⟩ := hm'
    have htext := qealLoop_lurk hws hwt has hat hu
    rw [qael_hunks (lusk_spaced hs), qael_hunks (lusk_spaced ht)] at htext
    exact ⟨u, u, rfl, htext, hsymm ▸ hm, htext⟩

/-- One side changes the first line, the other the last. -/
theorem qeal_disjoint_ends :
    (qeal (.mk .c (.c [.edit [.atom 0] [.atom 5], .skip 2]))
        (.mk .c (.c [.skip 2, .edit [.atom 2] [.atom 6]]))).isSome ↔
      ¬Meet [(0, [Noun.atom 0], [Noun.atom 5])] [(2, [Noun.atom 2], [Noun.atom 6])] := by
  have hs : lusk [Noun.atom 0, .atom 1, .atom 2] [Noun.atom 5, .atom 1, .atom 2]
      [Noun.atom 1, .atom 2] = some [.edit [.atom 0] [.atom 5], .skip 2] := by decide +kernel
  have ht : lusk [Noun.atom 0, .atom 1, .atom 2] [Noun.atom 0, .atom 1, .atom 6]
      [Noun.atom 0, .atom 1] = some [.skip 2, .edit [.atom 2] [.atom 6]] := by decide +kernel
  exact (qeal_disjoint hs ht).1

end lusk

end Vere.Clay
