import Vere.Hoon.Diff
import Vere.Lib.Thresholds

/-!
# Vere.Hoon.Loss

Two lists always have a patch: `++loss` does not crash, and what it returns is a subsequence of
both, which is all that `++lusk` asserts. So `++diff` makes a patch of any two texts.

`++loss` keeps for each length a subsequence of the lines it has seen that is found in the other
list up to some index (`Found`). The indices are the thresholds of the lengths (`Tops`), so the
longest of these subsequences is a longest one.
-/

namespace Vere.Hoon

open Vere.Lib

/-! ### A patch from a common subsequence -/

theorem luskMain_some {α : Type} [DecidableEq α] (hel hev lcs : List α) (rag : Rag α)
    (hh : lcs.Sublist hel) (hv : lcs.Sublist hev) : ∃ rag', luskMain hel hev lcs rag = some rag' := by
  induction hel, hev, lcs, rag using luskMain.induct with
  | case1 rag => exact ⟨rag, by rw [luskMain, if_pos rfl]⟩
  | case2 lcs rag hc => exact absurd (List.sublist_nil.mp hh) hc
  | case3 j hev lcs rag ih =>
    rw [List.sublist_nil.mp hh] at ih ⊢
    rw [luskMain]
    exact ih (List.Sublist.refl _) (List.nil_sublist _)
  | case4 i hel lcs rag ih =>
    rw [List.sublist_nil.mp hv] at ih ⊢
    rw [luskMain]
    exact ih (List.nil_sublist _) (List.Sublist.refl _)
  | case5 i hel j hev rag => exact ⟨_, by rw [luskMain]⟩
  | case6 hel hev c lcs rag ih =>
    rw [luskMain, if_pos rfl, if_pos rfl]
    exact ih (List.cons_sublist_cons.mp hh) (List.cons_sublist_cons.mp hv)
  | case7 hel j hev c lcs rag hj ih =>
    rw [luskMain, if_pos rfl, if_neg hj]
    exact ih hh (hv.of_cons_of_ne (Ne.symm hj))
  | case8 i hel hev c lcs rag hi ih =>
    rw [luskMain, if_neg hi, if_pos rfl]
    exact ih (hh.of_cons_of_ne (Ne.symm hi)) hv
  | case9 i hel j hev c lcs rag hi hj ih =>
    rw [luskMain, if_neg hi, if_neg hj]
    exact ih (hh.of_cons_of_ne (Ne.symm hi)) (hv.of_cons_of_ne (Ne.symm hj))

/-- A common subsequence gives a patch from each list to the other, in which skips, none of
them empty, and edits alternate. -/
theorem lusk_patches {α : Type} [DecidableEq α] {hel hev lcs : List α} (hh : lcs.Sublist hel)
    (hv : lcs.Sublist hev) :
    ∃ rug, lusk hel hev lcs = some rug ∧ lurk hel rug = some hev ∧ lurk hev (berk rug) = some hel ∧
      Alternates rug ∧ ∀ n, .skip n ∈ rug → 0 < n := by
  obtain ⟨rag, hrag⟩ := luskMain_some hel hev lcs ⟨.skip 0, []⟩ hh hv
  have hlusk : lusk hel hev lcs = some rag.abet := by rw [lusk, hrag]; rfl
  have hturns := lusk_turns hlusk
  exact ⟨_, hlusk, lurk_turns hturns, lurk_turns hturns.berk, lusk_alternates hlusk,
    fun n hn => lusk_pos hlusk hn⟩

theorem lusk_patches_word : ∃ rug, lusk [1, 2, 3] [2, 4] [2] = some rug ∧
    lurk [1, 2, 3] rug = some [2, 4] ∧ lurk [2, 4] (berk rug) = some [1, 2, 3] ∧
      Alternates rug ∧ ∀ n, .skip n ∈ rug → 0 < n :=
  lusk_patches (by decide) (by decide)

/-! ### What `++loss` keeps -/

section found

variable {mug : Noun → Nat} {hel hev : List Noun} {gox : Gox}

/-- A subsequence, backwards, of the lines so far, and of the other list up to an index. -/
structure Ends (hel hev : List Noun) (e : Nat × List Noun) : Prop where
  first : e.2.reverse.Sublist hel
  second : e.2.reverse.Sublist (hev.take (e.1 + 1))

/-- For each length there is one. -/
structure Found (mug : Noun → Nat) (hel hev : List Noun) (gox : Gox) : Prop where
  sorted : Treap.Ordered (gor mug) gox.q
  entry : ∀ k, k < gox.p → ∃ e, get mug gox.q (.atom k) = some e ∧ Ends hel hev e

theorem Found.more (h : Found mug hel hev gox) (i : Noun) : Found mug (hel ++ [i]) hev gox := by
  refine ⟨h.sorted, fun k hk => ?_⟩
  obtain ⟨e, he, h1, h2⟩ := h.entry k hk
  exact ⟨e, he, h1.trans (List.sublist_append_left ..), h2⟩

/-- A place where a line extends something: above the subsequence that is one shorter. -/
structure Extends (mug : Noun → Nat) (gox : Gox) (gay : List Nat) (z : Nat × Nat) : Prop where
  le : z.1 ≤ gox.p
  mem : z.2 ∈ gay
  above : z.1 = 0 ∨ ∃ e, get mug gox.q (.atom (z.1 - 1)) = some e ∧ e.1 < z.2

theorem zes_some (hf : Found mug hel hev gox) (all : List Nat) (inx : Nat)
    (zes : List (Nat × Nat)) (gay : List Nat) (hgay : ∀ i ∈ gay, i ∈ all)
    (hz : ∀ z ∈ zes, Extends mug gox all z ∧ z.1 < inx)
    (hpw : zes.Pairwise fun a b => b.1 < a.1) :
    ∃ zes', gox.zes mug inx zes gay = some zes' ∧ (∀ z ∈ zes', Extends mug gox all z) ∧
      zes'.Pairwise fun a b => b.1 < a.1 := by
  induction inx, zes, gay using Gox.zes.induct gox with
  | case1 inx zes =>
    exact ⟨zes, by rw [Gox.zes], fun z h => (hz z h).1, hpw⟩
  | case2 inx zes i gay hinx =>
    exact ⟨zes, by rw [Gox.zes, if_pos hinx], fun z h => (hz z h).1, hpw⟩
  | case3 inx zes i gay hinx ih1 ih2 ih3 =>
    have hrest : ∀ j ∈ gay, j ∈ all := fun j hj => hgay j (List.mem_cons_of_mem i hj)
    have hnext : ∀ z ∈ zes, Extends mug gox all z ∧ z.1 < inx + 1 :=
      fun z h => ⟨(hz z h).1, Nat.lt_succ_of_lt (hz z h).2⟩
    obtain ⟨b, hlonk, hb⟩ : ∃ b, gox.lonk mug inx i = some b ∧
        (b = true → inx = 0 ∨ ∃ e, get mug gox.q (.atom (inx - 1)) = some e ∧ e.1 < i) := by
      unfold Gox.lonk
      split
      · next h0 => exact ⟨true, rfl, fun _ => .inl h0⟩
      · obtain ⟨e, he, -⟩ := hf.entry (inx - 1) (by omega)
        exact ⟨decide (i > e.1), by rw [he]; rfl, fun h => .inr ⟨e, he, of_decide_eq_true h⟩⟩
    obtain ⟨c, hhink⟩ : ∃ c, gox.hink mug inx i = some c := by
      unfold Gox.hink
      split
      · exact ⟨true, rfl⟩
      · obtain ⟨e, he, -⟩ := hf.entry inx (by omega)
        exact ⟨decide (i < e.1), by rw [he]; rfl⟩
    rw [Gox.zes, if_neg hinx, hlonk]
    cases b with
    | false => exact ih1 hrest hz hpw
    | true =>
      have hnew : Extends mug gox all (inx, i) := ⟨by omega, hgay i List.mem_cons_self, hb rfl⟩
      simp only [Option.bind_eq_bind, Option.bind_some, Bool.not_true, Bool.false_eq_true, if_false,
        hhink]
      cases c with
      | false => exact ih2 hgay hnext hpw
      | true =>
        refine ih3 hrest ?_ (List.pairwise_cons.mpr ⟨fun z h => (hz z h).2, hpw⟩)
        intro z h
        rcases List.mem_cons.mp h with rfl | h
        · exact ⟨hnew, Nat.lt_succ_self _⟩
        · exact hnext z h

/-- The extension of what an element extends. -/
theorem lune_eq {g : Gox} {inx goy : Nat} {i : Noun} {rest : List Noun} (hi : hev[goy]? = some i)
    (hrest : (if inx = 0 then some [] else (get mug g.q (.atom (inx - 1))).map Prod.snd)
      = some rest) :
    g.lune mug hev inx goy =
      some ⟨if inx = g.p then g.p + 1 else g.p, put mug g.q (.atom inx) (goy, i :: rest)⟩ := by
  rw [Gox.lune, hi]
  by_cases h0 : inx = 0
  · rw [if_pos h0] at hrest
    simp [h0, Option.some.inj hrest]
  · rw [if_neg h0] at hrest
    simp only [Option.bind_eq_bind, Option.bind_some, h0, if_false, hrest]
    rfl

/-- One extension. The subsequence that is extended is one of those before the line. -/
theorem lune_found {g : Gox} {gay : List Nat} {i : Noun} {z : Nat × Nat}
    (hgay : ∀ j ∈ gay, hev[j]? = some i) (hf : Found mug hel hev gox)
    (hg : Found mug (hel ++ [i]) hev g) (hz : Extends mug gox gay z)
    (hsame : z.1 ≠ 0 → get mug g.q (.atom (z.1 - 1)) = get mug gox.q (.atom (z.1 - 1))) :
    ∃ g', g.lune mug hev z.1 z.2 = some g' ∧ Found mug (hel ++ [i]) hev g' ∧
      ∀ k, k < z.1 → get mug g'.q (.atom k) = get mug g.q (.atom k) := by
  have hnew := hgay z.2 hz.mem
  -- the line after what it extends
  obtain ⟨rest, hrest, h1, h2⟩ : ∃ rest,
      (if z.1 = 0 then some [] else (get mug g.q (.atom (z.1 - 1))).map Prod.snd) = some rest ∧
        rest.reverse.Sublist hel ∧ rest.reverse.Sublist (hev.take z.2) := by
    by_cases h0 : z.1 = 0
    · exact ⟨[], if_pos h0, List.nil_sublist _, List.nil_sublist _⟩
    · obtain ⟨e, he, hlt⟩ := hz.above.resolve_left h0
      have hle := hz.le
      obtain ⟨e', he', hends⟩ := hf.entry (z.1 - 1) (by omega)
      obtain rfl := Option.some.inj (he.symm.trans he')
      refine ⟨e.2, by rw [if_neg h0, hsame h0, he]; rfl, hends.first, hends.second.trans ?_⟩
      exact (List.take_prefix_take_left (by omega)).sublist
  have hends : Ends (hel ++ [i]) hev (z.2, i :: rest) := by
    obtain ⟨hlt, hget⟩ := List.getElem?_eq_some_iff.mp hnew
    refine ⟨?_, ?_⟩
    · rw [List.reverse_cons]
      exact h1.append (List.Sublist.refl _)
    · rw [List.reverse_cons, List.take_add_one, hnew]
      exact h2.append (List.Sublist.refl _)
  have hput : ∀ k, get mug (put mug g.q (.atom z.1) (z.2, i :: rest)) (.atom k) =
      if k = z.1 then some (z.2, i :: rest) else get mug g.q (.atom k) := by
    intro k
    rw [get, put, Treap.lookup_insert (gor_searchOrder mug) hg.sorted]
    simp [get]
  refine ⟨_, lune_eq hnew hrest,
    ⟨Treap.ordered_insert (gor_searchOrder mug) hg.sorted _ _, fun k hk => ?_⟩, ?_⟩
  · rw [hput]
    by_cases hkz : k = z.1
    · rw [if_pos hkz]
      exact ⟨_, rfl, hends⟩
    · rw [if_neg hkz]
      refine hg.entry k ?_
      simp only at hk
      split at hk <;> omega
  · intro k hk
    rw [hput, if_neg (by omega)]

theorem merg_found {gay : List Nat} {i : Noun} (hgay : ∀ j ∈ gay, hev[j]? = some i)
    (hf : Found mug hel hev gox) :
    ∃ g, gox.merg mug hev gay = some g ∧ Found mug (hel ++ [i]) hev g := by
  obtain ⟨zes, hzes, hext, hpw⟩ := zes_some hf gay 0 [] gay (fun _ h => h) (by simp) List.Pairwise.nil
  -- the extensions are made from the longest down, so what each extends is still there
  have key : ∀ (zs : List (Nat × Nat)) (g : Gox), (∀ z ∈ zs, Extends mug gox gay z) →
      zs.Pairwise (fun a b => b.1 < a.1) → Found mug (hel ++ [i]) hev g →
      (∀ z ∈ zs, ∀ k, k < z.1 → get mug g.q (.atom k) = get mug gox.q (.atom k)) →
      ∃ g', zs.foldlM (fun gox z => gox.lune mug hev z.1 z.2) g = some g' ∧
        Found mug (hel ++ [i]) hev g' := by
    intro zs
    induction zs with
    | nil => exact fun g _ _ hg _ => ⟨g, rfl, hg⟩
    | cons z zs ih =>
      intro g hz hdec hg hsame
      rw [List.pairwise_cons] at hdec
      obtain ⟨g1, hl, hg1, hk1⟩ := lune_found hgay hf hg (hz z List.mem_cons_self)
        fun h0 => hsame z List.mem_cons_self _ (by omega)
      obtain ⟨g2, hfold, hg2⟩ := ih g1 (fun y hy => hz y (List.mem_cons_of_mem z hy)) hdec.2 hg1
        fun y hy k hk => by
          have hlt := hdec.1 y hy
          rw [hk1 k (by omega)]
          exact hsame z List.mem_cons_self k (by omega)
      exact ⟨g2, by rw [List.foldlM_cons, hl]; exact hfold, hg2⟩
  obtain ⟨g, hfold, hg⟩ := key zes gox hext hpw (hf.more i) fun _ _ _ _ => rfl
  exact ⟨g, by rw [Gox.merg, hzes]; exact hfold, hg⟩

/-- The places of a line, the last one first. -/
def Stands (hev : List Noun) (i : Noun) (js : List Nat) : Prop :=
  js.Pairwise (fun a b => b < a) ∧ ∀ j, j ∈ js ↔ hev[j]? = some i

theorem lossSev_stands (todo done : List Noun) (sev : Map (List Nat))
    (hs : Treap.Ordered (gor mug) sev) (h : ∀ i, Stands done i ((get mug sev i).getD [])) :
    ∀ i, Stands (done ++ todo) i ((get mug (lossSev mug todo done.length sev) i).getD []) := by
  induction todo generalizing done sev with
  | nil => rwa [List.append_nil]
  | cons x todo ih =>
    have hlen : done.length + 1 = (done ++ [x]).length := by simp
    rw [lossSev, hlen, List.append_cons]
    refine ih (done ++ [x]) _ (Treap.ordered_insert (gor_searchOrder mug) hs _ _) fun i => ?_
    obtain ⟨hpw, hmem⟩ := h i
    have hin : ∀ j, (done ++ [x])[j]? = some i ↔ (j = done.length ∧ x = i) ∨ done[j]? = some i := by
      intro j
      rw [List.getElem?_append]
      split
      · next hj =>
        exact (or_iff_right fun heq => absurd heq.1 hj.ne).symm
      · next hj =>
        rw [List.getElem?_eq_none (Nat.not_lt.mp hj), List.getElem?_singleton]
        by_cases h0 : j - done.length = 0
        · rw [if_pos h0]
          simp only [Option.some.injEq, reduceCtorEq, or_false]
          exact ⟨fun hx => ⟨by omega, hx⟩, fun hx => hx.2⟩
        · rw [if_neg h0]
          simp only [reduceCtorEq, or_false, false_iff, not_and]
          exact fun hx => absurd hx (by omega)
    rw [get, put, Treap.lookup_insert (gor_searchOrder mug) hs]
    by_cases hx : i = x
    · subst hx
      rw [if_pos rfl, Option.getD_some]
      refine ⟨List.pairwise_cons.mpr ⟨fun j hj => ?_, hpw⟩, fun j => ?_⟩
      · exact (List.getElem?_eq_some_iff.mp ((hmem j).mp hj)).1
      · rw [List.mem_cons, hin, and_iff_left rfl]
        exact or_congr_right (hmem j)
    · rw [if_neg hx]
      refine ⟨hpw, fun j => ?_⟩
      rw [hin, or_iff_right fun heq => hx heq.2.symm]
      exact hmem j

/-- The matches of a line, in order. -/
theorem lossSev_matches (mug : Noun → Nat) (hev : List Noun) (i : Noun) :
    (((get mug (lossSev mug hev 0 .nil) i).getD []).reverse).Pairwise (· < ·) ∧
      ∀ j, j ∈ ((get mug (lossSev mug hev 0 .nil) i).getD []).reverse ↔ hev[j]? = some i := by
  obtain ⟨hpw, hmem⟩ := @lossSev_stands mug hev [] .nil trivial
    (fun i => ⟨.nil, fun j => by simp [get, Treap.lookup]⟩) i
  exact ⟨List.pairwise_reverse.mpr hpw, fun j => by rw [List.mem_reverse]; exact hmem j⟩

end found

/-! ### It is the longest -/

section tops

variable {mug : Noun → Nat} {hev : List Noun} {gox : Gox} {T gay : List Nat}

/-- The candidates have the thresholds `T`, and as many elements as they should. -/
structure Tops (mug : Noun → Nat) (T : List Nat) (gox : Gox) : Prop where
  count : gox.p = T.length
  sorted : Treap.Ordered (gor mug) gox.q
  entry : ∀ k t, T[k]? = some t →
    ∃ ns, get mug gox.q (.atom k) = some (t, ns) ∧ ns.length = k + 1

theorem Tops.get (h : Tops mug T gox) {k : Nat} (hk : k < gox.p) :
    ∃ t ns, T[k]? = some t ∧ Hoon.get mug gox.q (.atom k) = some (t, ns) ∧ ns.length = k + 1 := by
  have hlt : k < T.length := h.count ▸ hk
  have ht : T[k]? = some T[k] := List.getElem?_eq_getElem hlt
  obtain ⟨ns, hns⟩ := h.entry k _ ht
  exact ⟨_, ns, ht, hns⟩

theorem Tops.lonk (h : Tops mug T gox) (hT : T.Pairwise (· < ·)) {inx : Nat} (hinx : inx ≤ gox.p)
    (i : Nat) : gox.lonk mug inx i = some (decide (inx ≤ below T i)) := by
  unfold Gox.lonk
  by_cases h0 : inx = 0
  · simp [h0]
  · obtain ⟨t, ns, ht, hget, -⟩ := h.get (k := inx - 1) (by omega)
    have hiff : inx ≤ below T i ↔ t < i := by
      rw [← lt_below_iff hT ht]
      omega
    rw [if_neg h0, hget]
    simp [hiff]

theorem Tops.hink (h : Tops mug T gox) (hT : T.Pairwise (· < ·)) {inx : Nat} (hinx : inx ≤ gox.p)
    (i : Nat) : gox.hink mug inx i = some (decide (upto T i ≤ inx)) := by
  unfold Gox.hink
  by_cases hp : gox.p = inx
  · have := upto_le_length T i
    have := h.count
    rw [if_pos hp, decide_eq_true (by omega)]
  · obtain ⟨t, ns, ht, hget, -⟩ := h.get (k := inx) (by omega)
    have hiff : upto T i ≤ inx ↔ i < t := by
      rw [← Nat.not_lt, lt_upto_iff hT ht, Nat.not_le]
    rw [if_neg hp, hget]
    simp [hiff]

/-- The scan finds the places of the matches. -/
theorem Tops.zes (h : Tops mug T gox) (hT : T.Pairwise (· < ·)) (inx : Nat)
    (zes : List (Nat × Nat)) (gay : List Nat) :
    gox.zes mug inx zes gay = some ((seats T inx gay).reverse ++ zes) := by
  induction inx, zes, gay using Gox.zes.induct gox with
  | case1 inx zes =>
      rw [Gox.zes]
      rfl
  | case2 inx zes i gay hinx =>
      rw [Gox.zes, if_pos hinx, seats_of_length_lt (h.count ▸ hinx)]
      rfl
  | case3 inx zes i gay hinx ih1 ih2 ih3 =>
      have hsucc := upto_le_succ hT i
      rw [Gox.zes, if_neg hinx, h.lonk hT (by omega), h.hink hT (by omega)]
      simp only [Option.bind_eq_bind, Option.bind_some, Bool.not_eq_true']
      by_cases hlonk : inx ≤ below T i
      · rw [if_neg (by simpa using hlonk)]
        by_cases hhink : upto T i ≤ inx
        · rw [if_neg (by simpa using hhink), ih3, seats, max_eq_left hhink, if_pos hlonk,
            List.reverse_cons, List.append_assoc]
          rfl
        · have hmax : max (inx + 1) (upto T i) = max inx (upto T i) := by omega
          rw [if_pos (by simpa using hhink), ih2, seats, seats, hmax]
      · have hmax : max inx (upto T i) = inx := by omega
        rw [if_pos (by simpa using hlonk), ih1, seats, hmax, if_neg hlonk]

/-- A match takes its place. -/
theorem Tops.lune (h : Tops mug T gox) {z : Nat × Nat} {i : Noun} (hz : z.1 ≤ T.length)
    (hi : hev[z.2]? = some i) :
    ∃ g, gox.lune mug hev z.1 z.2 = some g ∧ Tops mug (setTop T z) g := by
  obtain ⟨rest, hrest, hlen⟩ : ∃ rest,
      (if z.1 = 0 then some [] else (Hoon.get mug gox.q (.atom (z.1 - 1))).map Prod.snd) = some rest ∧
        rest.length = z.1 := by
    by_cases h0 : z.1 = 0
    · exact ⟨[], if_pos h0, h0.symm⟩
    · have := h.count
      obtain ⟨t, ns, -, hget, hns⟩ := h.get (k := z.1 - 1) (by omega)
      exact ⟨ns, by rw [if_neg h0, hget]; rfl, by omega⟩
  refine ⟨⟨if z.1 = gox.p then gox.p + 1 else gox.p, put mug gox.q (.atom z.1) (z.2, i :: rest)⟩,
    ?_, ?_, Treap.ordered_insert (gor_searchOrder mug) h.sorted _ _, fun k t ht => ?_⟩
  · exact lune_eq hi hrest
  · show (if z.1 = gox.p then gox.p + 1 else gox.p) = (setTop T z).length
    rw [setTop, h.count]
    split <;> simp
  · rw [getElem?_setTop hz] at ht
    rw [Hoon.get, put, Treap.lookup_insert (gor_searchOrder mug) h.sorted]
    by_cases hk : k = z.1
    · rw [if_pos hk] at ht
      obtain rfl := Option.some.inj ht
      exact ⟨i :: rest, by rw [hk, if_pos rfl], by rw [List.length_cons, hlen, hk]⟩
    · rw [if_neg hk] at ht
      rw [if_neg (by simpa using hk)]
      exact h.entry k t ht

theorem Tops.foldl (h : Tops mug T gox) {zs : List (Nat × Nat)} {i : Noun}
    (hzs : ∀ z ∈ zs, z.1 ≤ T.length ∧ hev[z.2]? = some i) :
    ∃ g, zs.foldlM (fun gox z => gox.lune mug hev z.1 z.2) gox = some g ∧
      Tops mug (zs.foldl setTop T) g := by
  induction zs generalizing T gox with
  | nil => exact ⟨gox, rfl, h⟩
  | cons z zs ih =>
      obtain ⟨hz, hi⟩ := hzs z List.mem_cons_self
      obtain ⟨g, hg, htops⟩ := h.lune hz hi
      obtain ⟨g', hg', htops'⟩ := ih htops fun y hy =>
        ⟨(hzs y (List.mem_cons_of_mem z hy)).1.trans (length_le_setTop T z),
          (hzs y (List.mem_cons_of_mem z hy)).2⟩
      exact ⟨g', by rw [List.foldlM_cons, hg]; exact hg', htops'⟩

/-- All matches of a line take their places. -/
theorem Tops.merg (h : Tops mug T gox) (hT : T.Pairwise (· < ·)) {i : Noun}
    (hgay : ∀ j ∈ gay, hev[j]? = some i) :
    ∃ g, gox.merg mug hev gay = some g ∧
      Tops mug ((seats T 0 gay).reverse.foldl setTop T) g := by
  obtain ⟨g, hg, htops⟩ := @Tops.foldl mug hev gox T h (seats T 0 gay).reverse i
    fun z hz => by
      obtain ⟨hmem, -, hlow, -⟩ := seats_mem (List.mem_reverse.mp hz)
      exact ⟨hlow.trans (below_le_length T _), hgay _ hmem⟩
  refine ⟨g, ?_, htops⟩
  rw [Gox.merg, h.zes hT, List.append_nil]
  exact hg

/-- The candidates after some lines. -/
structure Grown (mug : Noun → Nat) (hel hev : List Noun) (T : List Nat) (gox : Gox) : Prop where
  found : Found mug hel hev gox
  tops : Tops mug T gox
  least : Least hel hev T

variable {hel : List Noun}

theorem grown_nil (mug : Noun → Nat) (hev : List Noun) : Grown mug [] hev [] ⟨0, .nil⟩ where
  found := ⟨trivial, fun _ hk => absurd hk (Nat.not_lt_zero _)⟩
  tops := ⟨rfl, trivial, fun _ _ ht => nomatch ht⟩
  least := least_nil hev

/-- One line more. -/
theorem Grown.merg (h : Grown mug hel hev T gox) (i : Noun) :
    ∃ g T', gox.merg mug hev ((Hoon.get mug (lossSev mug hev 0 .nil) i).getD []).reverse = some g ∧
      Grown mug (hel ++ [i]) hev T' g := by
  obtain ⟨hsorted, hmem⟩ := lossSev_matches mug hev i
  generalize ((Hoon.get mug (lossSev mug hev 0 .nil) i).getD []).reverse = gay at *
  obtain ⟨g, hg, hfound⟩ := merg_found (fun j => (hmem j).mp) h.found
  obtain ⟨g', hg', htops⟩ := h.tops.merg h.least.sorted fun j => (hmem j).mp
  obtain rfl := Option.some.inj (hg.symm.trans hg')
  exact ⟨g, _, hg, hfound, htops,
    h.least.snoc hsorted (fun j => (hmem j).mpr) (seated_foldl hsorted)⟩

theorem foldlM_grown (todo done : List Noun) (h : Grown mug done hev T gox) :
    ∃ g T', todo.foldlM (fun (gox : Gox) i =>
        gox.merg mug hev ((Hoon.get mug (lossSev mug hev 0 .nil) i).getD []).reverse) gox = some g ∧
      Grown mug (done ++ todo) hev T' g := by
  induction todo generalizing done T gox with
  | nil => exact ⟨gox, T, rfl, by rwa [List.append_nil]⟩
  | cons i todo ih =>
      obtain ⟨g1, T1, hm, h1⟩ := h.merg i
      obtain ⟨g2, T2, hfold, h2⟩ := ih (done ++ [i]) h1
      exact ⟨g2, T2, by rw [List.foldlM_cons, hm]; exact hfold, by rwa [List.append_assoc] at h2⟩

/-- The longest candidate. -/
theorem Grown.last (h : Grown mug hel hev T gox) (hp : gox.p ≠ 0) :
    ∃ e, Hoon.get mug gox.q (.atom (gox.p - 1)) = some e ∧ e.2.reverse.Sublist hel ∧
      e.2.reverse.Sublist hev ∧ e.2.length = T.length := by
  have hcount := h.tops.count
  obtain ⟨t, ns, -, hget, hlen⟩ := h.tops.get (k := gox.p - 1) (by omega)
  obtain ⟨e, he, hends⟩ := h.found.entry (gox.p - 1) (by omega)
  obtain rfl := Option.some.inj (hget.symm.trans he)
  exact ⟨(t, ns), hget, hends.first, hends.second.trans (List.take_sublist ..), by
    rw [hlen]
    omega⟩

/-- A candidate is a subsequence of both lists. -/
theorem Grown.length_le (h : Grown mug hel hev T gox) :
    T.length ≤ hel.length ∧ T.length ≤ hev.length := by
  have hcount := h.tops.count
  by_cases h0 : gox.p = 0
  · omega
  · obtain ⟨e, -, hh, hv, hlen⟩ := h.last h0
    rw [← hlen, ← List.length_reverse]
    exact ⟨hh.length_le, hv.length_le⟩

end tops

/-- `++loss` returns a common subsequence, and no common subsequence is longer. -/
theorem loss_longest (mug : Noun → Nat) (hel hev : List Noun) :
    ∃ lcs, loss mug hel hev = some lcs ∧ lcs.Sublist hel ∧ lcs.Sublist hev ∧
      ∀ c : List Noun, c.Sublist hel → c.Sublist hev → c.length ≤ lcs.length := by
  obtain ⟨g, T, hfold, hg⟩ := foldlM_grown hel [] (grown_nil mug hev)
  rw [List.nil_append] at hg
  have hmost : ∀ c : List Noun, c.Sublist hel → c.Sublist hev → c.length ≤ T.length :=
    fun c hc hc' => hg.least.length_le hc hc'
  have hcount := hg.tops.count
  rw [loss, hfold]
  by_cases h0 : g.p = 0
  · rw [← hcount, h0] at hmost
    exact ⟨[], by simp [h0], List.nil_sublist _, List.nil_sublist _, hmost⟩
  · obtain ⟨e, he, hh, hv, hlen⟩ := hg.last h0
    rw [← hlen, ← List.length_reverse] at hmost
    exact ⟨e.2.reverse, by simp [h0, he], hh, hv, hmost⟩

/-- Two texts have a patch of their lines, which takes each to the other. -/
theorem diff_text (mug : Noun → Nat) (n : Nat) {old new : Noun} {hel hev : List Noun}
    (hold : loreNoun old = some hel) (hnew : loreNoun new = some hev) :
    ∃ rug, diff mug n .c old new = some (.mk .c (.c rug)) ∧ Turns rug hel hev := by
  obtain ⟨lcs, hlcs, hh, hv, -⟩ := loss_longest mug hel hev
  obtain ⟨rag, hrag⟩ := luskMain_some hel hev lcs ⟨.skip 0, []⟩ hh hv
  have hlusk : lusk hel hev lcs = some rag.abet := by rw [lusk, hrag]; rfl
  exact ⟨rag.abet, by simp [diff, hold, hnew, hlcs, hlusk], lusk_turns hlusk⟩

end Vere.Hoon
