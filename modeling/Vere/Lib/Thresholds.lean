import Mathlib.Data.List.Chain
import Mathlib.Data.List.Pairwise
import Mathlib.Tactic.Common

/-!
# Vere.Lib.Thresholds

How long a common subsequence of two lists can be, by one element of the first list after another.

The threshold of a length is the least index of the second list by which there is a common
subsequence that long. With one more element in the first list, a match at an index lowers the
threshold that is the first one above it, unless an earlier match already has; `seats` says which
match goes to which threshold, with the search for it starting behind the last place.
-/

namespace Vere.Lib

/-! ### Places among thresholds -/

/-- How many thresholds are below an index. -/
def below (T : List Nat) (g : Nat) : Nat := T.countP (· < g)

/-- How many thresholds are not above an index. -/
def upto (T : List Nat) (g : Nat) : Nat := T.countP (· ≤ g)

/-- The places that the matches take, from place `inx` on. -/
def seats (T : List Nat) : Nat → List Nat → List (Nat × Nat)
  | _, [] => []
  | inx, g :: gay =>
      let m := max inx (upto T g)
      if m ≤ below T g then (m, g) :: seats T (m + 1) gay else seats T m gay

section seats

variable {T gay : List Nat} {inx g i k m t : Nat}

/-- Where what holds of a member holds of all before it, the first members are counted. -/
theorem lt_countP_iff {p : Nat → Bool} (hp : T.Pairwise fun a b => p b = true → p a = true)
    (ht : T[i]? = some t) : i < T.countP p ↔ p t = true := by
  induction T generalizing i with
  | nil => cases ht
  | cons a T ih =>
      obtain ⟨ha, hT⟩ := List.pairwise_cons.mp hp
      by_cases hpa : p a = true
      · rw [List.countP_cons_of_pos hpa]
        cases i with
        | zero =>
            cases ht
            simp [hpa]
        | succ i =>
            rw [Nat.add_lt_add_iff_right]
            exact ih hT ht
      · have hnone : ∀ b ∈ a :: T, ¬ p b = true := by
          intro b hb
          rcases List.mem_cons.mp hb with rfl | hb
          · exact hpa
          · exact fun h => hpa (ha b hb h)
        rw [List.countP_eq_zero.mpr hnone]
        exact iff_of_false (Nat.not_lt_zero i) (hnone t (List.mem_of_getElem? ht))

theorem lt_below_iff (hT : T.Pairwise (· < ·)) (ht : T[i]? = some t) : i < below T g ↔ t < g := by
  rw [below, lt_countP_iff (hT.imp fun hab h => ?_) ht, decide_eq_true_eq]
  simp only [decide_eq_true_eq] at h ⊢
  omega

theorem lt_upto_iff (hT : T.Pairwise (· < ·)) (ht : T[i]? = some t) : i < upto T g ↔ t ≤ g := by
  rw [upto, lt_countP_iff (hT.imp fun hab h => ?_) ht, decide_eq_true_eq]
  simp only [decide_eq_true_eq] at h ⊢
  omega

theorem below_le_length (T : List Nat) (g : Nat) : below T g ≤ T.length := List.countP_le_length

theorem upto_le_length (T : List Nat) (g : Nat) : upto T g ≤ T.length := List.countP_le_length

theorem below_le_upto (T : List Nat) (g : Nat) : below T g ≤ upto T g := by
  refine List.countP_mono_left fun a _ h => ?_
  simp only [decide_eq_true_eq] at h ⊢
  omega

/-- At most one threshold is the index itself. -/
theorem upto_le_succ (hT : T.Pairwise (· < ·)) (g : Nat) : upto T g ≤ below T g + 1 := by
  by_contra hgt
  have hlen := upto_le_length T g
  have hk : T[below T g]? = some T[below T g] := List.getElem?_eq_getElem (by omega)
  have hk' : T[below T g + 1]? = some T[below T g + 1] := List.getElem?_eq_getElem (by omega)
  have hle := (lt_upto_iff hT hk').mp (Nat.not_le.mp hgt)
  have hlt := List.pairwise_iff_getElem.mp hT _ _ (by omega) (by omega) (Nat.lt_succ_self (below T g))
  exact absurd ((lt_below_iff hT hk).mpr (hlt.trans_le hle)) (lt_irrefl _)

theorem upto_mono (T : List Nat) {g i : Nat} (h : g ≤ i) : upto T g ≤ upto T i := by
  refine List.countP_mono_left fun a _ ha => ?_
  simp only [decide_eq_true_eq] at ha ⊢
  omega

/-- No place is past the end. -/
theorem seats_of_length_lt (h : T.length < inx) : seats T inx gay = [] := by
  induction gay generalizing inx with
  | nil => rfl
  | cons g gay ih =>
      have := below_le_length T g
      rw [seats, if_neg (by omega)]
      exact ih (by omega)

/-- A place is above the thresholds below the match, and below the others. -/
theorem seats_mem (h : (m, g) ∈ seats T inx gay) :
    g ∈ gay ∧ inx ≤ m ∧ m ≤ below T g ∧ upto T g ≤ m := by
  induction gay generalizing inx with
  | nil => cases h
  | cons i gay ih =>
      rw [seats] at h
      split at h
      · rcases List.mem_cons.mp h with heq | h
        · obtain ⟨rfl, rfl⟩ := Prod.mk.inj heq
          exact ⟨List.mem_cons_self, le_max_left _ _, by assumption, le_max_right _ _⟩
        · obtain ⟨hg, hm, hrest⟩ := ih h
          exact ⟨List.mem_cons_of_mem _ hg, by omega, hrest⟩
      · obtain ⟨hg, hm, hrest⟩ := ih h
        exact ⟨List.mem_cons_of_mem _ hg, by omega, hrest⟩

/-- Later matches have later places. -/
theorem seats_sorted (hgay : gay.Pairwise (· < ·)) :
    (seats T inx gay).Pairwise fun a b => a.1 < b.1 ∧ a.2 < b.2 := by
  induction gay generalizing inx with
  | nil => exact .nil
  | cons g gay ih =>
      obtain ⟨hg, hgay⟩ := List.pairwise_cons.mp hgay
      rw [seats]
      split
      · refine List.pairwise_cons.mpr ⟨fun b hb => ?_, ih hgay⟩
        obtain ⟨hmem, hm, -⟩ := seats_mem hb
        exact ⟨hm, hg _ hmem⟩
      · exact ih hgay

theorem seats_lt (hgay : gay.Pairwise (· < ·)) (hg : (k, g) ∈ seats T inx gay)
    (hi : (m, i) ∈ seats T inx gay) (hkm : k < m) : g < i := by
  have hpw := @seats_sorted T gay inx hgay
  have hforward : (seats T inx gay).Pairwise fun a b => a.1 < b.1 → a.2 < b.2 :=
    hpw.imp fun hab _ => hab.2
  have hback : (seats T inx gay).Pairwise (flip fun a b => a.1 < b.1 → a.2 < b.2) :=
    hpw.imp fun hab hba => absurd hab.1 (by omega)
  exact hforward.forall_of_forall_of_flip (fun _ _ h => absurd h (lt_irrefl _)) hback hg hi hkm

/-- A match between two thresholds has its place, or an earlier match has it. -/
theorem seats_hit (hgay : gay.Pairwise (· < ·)) (hi : i ∈ gay) (hlow : k ≤ below T i)
    (hhigh : upto T i ≤ k) (hinx : inx ≤ k) : ∃ g, g ≤ i ∧ (k, g) ∈ seats T inx gay := by
  induction gay generalizing inx with
  | nil => cases hi
  | cons g gay ih =>
      obtain ⟨hg, hgay⟩ := List.pairwise_cons.mp hgay
      rw [seats]
      rcases List.mem_cons.mp hi with rfl | hi
      · have hm : max inx (upto T i) = k := by
          have := below_le_upto T i
          omega
        rw [hm, if_pos hlow]
        exact ⟨i, le_rfl, List.mem_cons_self⟩
      · have hle : max inx (upto T g) ≤ k := max_le hinx ((upto_mono T (hg i hi).le).trans hhigh)
        split
        · by_cases hm : max inx (upto T g) = k
          · exact ⟨g, (hg i hi).le, hm ▸ List.mem_cons_self⟩
          · obtain ⟨g', hle', hmem⟩ := @ih (max inx (upto T g) + 1) hgay hi (by omega)
            exact ⟨g', hle', List.mem_cons_of_mem _ hmem⟩
        · exact ih hgay hi hle

end seats

/-! ### Thresholds of a common subsequence -/

section least

variable {α : Type} {hel hev : List α} {T T' gay : List Nat} {x : α}

/-- The thresholds go up, and no common subsequence ends before its threshold. -/
structure Least (hel hev : List α) (T : List Nat) : Prop where
  sorted : T.Pairwise (· < ·)
  low : ∀ (c : List α) (j : Nat), c ≠ [] → c.Sublist hel → c.Sublist (hev.take (j + 1)) →
    ∃ t, T[c.length - 1]? = some t ∧ t ≤ j

theorem least_nil (hev : List α) : Least [] hev [] :=
  ⟨.nil, fun _ _ hne hc _ => absurd (List.sublist_nil.mp hc) hne⟩

/-- The matches have taken their places. -/
structure Seated (T : List Nat) (gay : List Nat) (T' : List Nat) : Prop where
  new : ∀ m g, (m, g) ∈ seats T 0 gay → T'[m]? = some g
  old : ∀ k, (∀ g, (k, g) ∉ seats T 0 gay) → T'[k]? = T[k]?

/-- A place is taken, which may be the one behind the last. -/
def setTop {β : Type} (T : List β) (z : Nat × β) : List β :=
  if z.1 = T.length then T ++ [z.2] else T.set z.1 z.2

theorem length_le_setTop {β : Type} (T : List β) (z : Nat × β) : T.length ≤ (setTop T z).length := by
  unfold setTop
  split <;> simp

theorem getElem?_setTop {β : Type} {T : List β} {z : Nat × β} (h : z.1 ≤ T.length) (k : Nat) :
    (setTop T z)[k]? = if k = z.1 then some z.2 else T[k]? := by
  unfold setTop
  split
  next hz =>
      by_cases hk : k = z.1
      · rw [if_pos hk, hk, hz, List.getElem?_concat_length]
      · rw [if_neg hk, List.getElem?_append]
        split
        · rfl
        · rw [List.getElem?_eq_none (by simp; omega), List.getElem?_eq_none (by omega)]
  next hz =>
      rw [List.getElem?_set]
      by_cases hk : z.1 = k
      · rw [if_pos hk, if_pos hk.symm, if_pos (by omega)]
      · rw [if_neg hk, if_neg (Ne.symm hk)]

/-- Places are taken from the last one down. -/
theorem getElem?_foldl_setTop {zs : List (Nat × Nat)} (hzs : ∀ z ∈ zs, z.1 ≤ T.length)
    (hpw : zs.Pairwise fun a b => b.1 < a.1) :
    (∀ z ∈ zs, (zs.foldl setTop T)[z.1]? = some z.2) ∧
      ∀ k, (∀ z ∈ zs, z.1 ≠ k) → (zs.foldl setTop T)[k]? = T[k]? := by
  induction zs generalizing T with
  | nil => exact ⟨fun z hz => absurd hz List.not_mem_nil, fun _ _ => rfl⟩
  | cons z zs ih =>
      obtain ⟨hz, hpw⟩ := List.pairwise_cons.mp hpw
      have hset := getElem?_setTop (hzs z List.mem_cons_self)
      obtain ⟨hnew, hold⟩ := ih (T := setTop T z)
        (fun y hy => (hzs y (List.mem_cons_of_mem z hy)).trans (length_le_setTop T z)) hpw
      refine ⟨fun y hy => ?_, fun k hk => ?_⟩
      · rcases List.mem_cons.mp hy with rfl | hy
        · rw [List.foldl_cons, hold y.1 fun x hx => (hz x hx).ne, hset, if_pos rfl]
        · exact hnew y hy
      · rw [List.foldl_cons, hold k fun y hy => hk y (List.mem_cons_of_mem z hy), hset,
          if_neg (hk z List.mem_cons_self).symm]

theorem seated_foldl (hgay : gay.Pairwise (· < ·)) :
    Seated T gay ((seats T 0 gay).reverse.foldl setTop T) := by
  obtain ⟨hnew, hold⟩ := @getElem?_foldl_setTop T (seats T 0 gay).reverse
    (fun z hz => by
      obtain ⟨-, -, hlow, -⟩ := seats_mem (List.mem_reverse.mp hz)
      exact hlow.trans (below_le_length T _))
    (List.pairwise_reverse.mpr ((seats_sorted hgay).imp fun hab => hab.1))
  refine ⟨fun m g h => hnew (m, g) (List.mem_reverse.mpr h), fun k hk => hold k fun z hz hzk => ?_⟩
  obtain ⟨m, g⟩ := z
  exact hk g (hzk ▸ List.mem_reverse.mp hz)

/-- A threshold is one of the old ones, or a match in its place. -/
theorem Seated.cases (h : Seated T gay T') {k t : Nat} (ht : T'[k]? = some t) :
    (k, t) ∈ seats T 0 gay ∨ T[k]? = some t := by
  by_cases hk : ∃ g, (k, g) ∈ seats T 0 gay
  · obtain ⟨g, hg⟩ := hk
    obtain rfl := Option.some.inj ((h.new k g hg).symm.trans ht)
    exact .inl hg
  · exact .inr ((h.old k (not_exists.mp hk)).symm.trans ht)

/-- No threshold goes up. -/
theorem Seated.le (h : Seated T gay T') (hT : T.Pairwise (· < ·)) {k t : Nat} (ht : T[k]? = some t) :
    ∃ t', T'[k]? = some t' ∧ t' ≤ t := by
  by_cases hk : ∃ g, (k, g) ∈ seats T 0 gay
  · obtain ⟨g, hg⟩ := hk
    obtain ⟨-, -, -, hup⟩ := seats_mem hg
    have hnot : ¬ t ≤ g := fun hle => by
      have := (lt_upto_iff hT ht).mpr hle
      omega
    exact ⟨g, h.new k g hg, by omega⟩
  · exact ⟨t, (h.old k (not_exists.mp hk)).trans ht, le_rfl⟩

theorem Seated.sorted (h : Seated T gay T') (hT : T.Pairwise (· < ·)) (hgay : gay.Pairwise (· < ·)) :
    T'.Pairwise (· < ·) := by
  rw [← List.isChain_iff_pairwise, List.isChain_iff_getElem]
  intro k hk
  have h1 : T'[k]? = some T'[k] := List.getElem?_eq_getElem (by omega)
  have h2 : T'[k + 1]? = some T'[k + 1] := List.getElem?_eq_getElem hk
  generalize T'[k] = a at h1 ⊢
  generalize T'[k + 1] = b at h2 ⊢
  rcases h.cases h1 with ha | ha <;> rcases h.cases h2 with hb | hb
  · exact seats_lt hgay ha hb (Nat.lt_succ_self k)
  · -- what was at the place of the match is above it, and below the next threshold
    have hlt : k < T.length := by
      have := (List.getElem?_eq_some_iff.mp hb).1
      omega
    obtain ⟨-, -, -, hup⟩ := seats_mem ha
    have hk : T[k]? = some T[k] := List.getElem?_eq_getElem hlt
    have hnot : ¬ T[k] ≤ a := fun hle => by
      have := (lt_upto_iff hT hk).mpr hle
      omega
    have hb' : T[k] < b := by
      obtain ⟨hk', rfl⟩ := List.getElem?_eq_some_iff.mp hb
      exact List.pairwise_iff_getElem.mp hT k (k + 1) hlt hk' (Nat.lt_succ_self k)
    omega
  · obtain ⟨-, -, hlow, -⟩ := seats_mem hb
    exact (lt_below_iff hT ha).mp (by omega)
  · obtain ⟨hk, rfl⟩ := List.getElem?_eq_some_iff.mp ha
    obtain ⟨hk', rfl⟩ := List.getElem?_eq_some_iff.mp hb
    exact List.pairwise_iff_getElem.mp hT k (k + 1) hk hk' (Nat.lt_succ_self k)

/-- A common subsequence that ends with an element has a last match, and what is before it. -/
theorem sublist_take_snoc {c : List α} {j : Nat} (h : (c ++ [x]).Sublist (hev.take (j + 1))) :
    ∃ i, i ≤ j ∧ hev[i]? = some x ∧ c.Sublist (hev.take i) := by
  obtain ⟨r₁, r₂, hr, hc, hx⟩ := List.append_sublist_iff.mp h
  obtain ⟨s, t, rfl⟩ := List.append_of_mem (List.singleton_sublist.mp hx)
  have hlen := congrArg List.length hr
  have hpre : r₁ ++ s <+: hev := by
    refine List.IsPrefix.trans ⟨x :: t, ?_⟩ (List.take_prefix (j + 1) hev)
    rw [hr, List.append_assoc]
  have htake : hev.take (r₁ ++ s).length = r₁ ++ s := (List.prefix_iff_eq_take.mp hpre).symm
  have hget : (hev.take (j + 1))[(r₁ ++ s).length]? = some x := by
    rw [hr, ← List.append_assoc, List.getElem?_append_right le_rfl, Nat.sub_self]
    rfl
  have hle : (r₁ ++ s).length ≤ j := by
    simp only [List.length_take, List.length_append, List.length_cons] at hlen ⊢
    omega
  refine ⟨(r₁ ++ s).length, hle, ?_, ?_⟩
  · rwa [List.getElem?_take_of_lt (by omega)] at hget
  · rw [htake]
    exact hc.trans (List.sublist_append_left r₁ s)

/-- One more element of the first list. -/
theorem Least.snoc (h : Least hel hev T) (hgay : gay.Pairwise (· < ·))
    (hall : ∀ j, hev[j]? = some x → j ∈ gay) (hT' : Seated T gay T') :
    Least (hel ++ [x]) hev T' := by
  refine ⟨hT'.sorted h.sorted hgay, fun c j hne hc hj => ?_⟩
  obtain ⟨c₁, c₂, rfl, hc₁, hc₂⟩ := List.sublist_append_iff.mp hc
  rcases List.sublist_singleton.mp hc₂ with rfl | rfl
  · -- without the new element
    rw [List.append_nil] at hne hj ⊢
    obtain ⟨t, ht, htj⟩ := h.low c₁ j hne hc₁ hj
    obtain ⟨t', ht', hle⟩ := hT'.le h.sorted ht
    exact ⟨t', ht', hle.trans htj⟩
  · obtain ⟨i, hij, hi, hci⟩ := sublist_take_snoc hj
    rw [List.length_append, List.length_singleton, Nat.add_sub_cancel]
    by_cases hold : ∃ t, T[c₁.length]? = some t ∧ t ≤ i
    · obtain ⟨t, ht, hti⟩ := hold
      obtain ⟨t', ht', hle⟩ := hT'.le h.sorted ht
      exact ⟨t', ht', by omega⟩
    · -- the match is above the threshold of what it extends, and below the next one
      have hlow : c₁.length ≤ below T i := by
        by_cases hnil : c₁ = []
        · rw [hnil]
          exact Nat.zero_le _
        · have hpos := List.length_pos_iff.mpr hnil
          have hi0 : i ≠ 0 := by
            rintro rfl
            exact hnil (List.sublist_nil.mp hci)
          obtain ⟨t, ht, hti⟩ := h.low c₁ (i - 1) hnil hc₁ (by rwa [Nat.sub_add_cancel (by omega)])
          have := (lt_below_iff (g := i) h.sorted ht).mpr (by omega)
          omega
      have hhigh : upto T i ≤ c₁.length := by
        by_contra hgt
        have hlt : c₁.length < T.length := (Nat.not_le.mp hgt).trans_le (upto_le_length T i)
        have ht : T[c₁.length]? = some T[c₁.length] := List.getElem?_eq_getElem hlt
        exact hold ⟨_, ht, (lt_upto_iff h.sorted ht).mp (Nat.not_le.mp hgt)⟩
      obtain ⟨g, hgi, hmem⟩ := seats_hit hgay (hall i hi) hlow hhigh (Nat.zero_le _)
      exact ⟨g, hT'.new _ g hmem, hgi.trans hij⟩

/-- There are as many thresholds as a common subsequence can be long. -/
theorem Least.length_le (h : Least hel hev T) {c : List α} (hc : c.Sublist hel)
    (hc' : c.Sublist hev) : c.length ≤ T.length := by
  by_cases hnil : c = []
  · rw [hnil]
    exact Nat.zero_le _
  · have hpos := List.length_pos_iff.mpr hnil
    have htake : c.Sublist (hev.take (hev.length + 1)) := by
      rwa [List.take_of_length_le (Nat.le_succ _)]
    obtain ⟨t, ht, -⟩ := h.low c hev.length hnil hc htake
    have := (List.getElem?_eq_some_iff.mp ht).1
    omega

end least

end Vere.Lib
