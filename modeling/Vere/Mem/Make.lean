import Vere.Mem.Lose

/-!
# Vere.Mem.Make

Nouns are made: a box is allocated, its data is written, and it is counted from then on
(`rlCell_ok`, `rlWords_ok`).
-/

namespace Vere.Mem

open Vere.Lib

section Make

variable {r r' : Rail} {m m' : Loom} {rut hat : Nat} {B : Finset Nat} {fl : Nat → List Nat}
  {live : Finset Nat} {held : List Nat} {raw : Finset Nat} {a b d w len p nov : Nat}

/-- The data of a box in use is written. -/
theorem Heap.rewrite (h : Heap m rut hat B fl ∅) (hb : Live m B b)
    (hout : ∀ w, w < b + 2 ∨ b + m b ≤ w + 1 → m' w = m w) : Heap m' rut hat B fl ∅ := by
  have hlow := h.low hb.1
  have hmin := h.min hb.1
  have hother : ∀ {c w}, c ∈ B → c ≠ b → c ≤ w → w < c + m c → m' w = m w := by
    intro c w hc hne hlo hhi
    rcases h.tiling.sides hc hb.1 with he | he | he
    · exact absurd he hne
    · exact hout w (by omega)
    · exact hout w (by omega)
  have hword : ∀ {c}, c ∈ B → m' c = m c ∧ m' (c + 1) = m (c + 1) ∧
      m' (c + m c - 1) = m (c + m c - 1) := by
    intro c hc
    have hminc := h.min hc
    by_cases hne : c = b
    · subst hne
      exact ⟨hout _ (by omega), hout _ (by omega), hout _ (by omega)⟩
    · exact ⟨hother hc hne le_rfl (by omega), hother hc hne (by omega) (by omega),
        hother hc hne (by omega) (by omega)⟩
  refine h.frame (fun i hi => hout _ (by omega)) (fun hc => (hword hc).1) (fun hc => (hword hc).2.2)
    (fun {c} hc => ?_) (fun hc => by rw [(hword hc).2.1]) fun hc => absurd hc (Finset.notMem_empty _)
  obtain ⟨hcB, -, huse⟩ := h.onList_iff.1 hc
  have hminc := h.min hcB
  have hne : c ≠ b := by
    rintro rfl
    exact hb.2 huse
  exact ⟨hother hcB hne (by omega) (by omega), hother hcB hne (by omega) (by omega)⟩

namespace Counted

/-- The data of a box that is not counted is written. -/
theorem rewrite (h : Counted r B fl live held raw) (hb : b ∈ raw)
    (hout : ∀ w, w < b + 2 ∨ b + r.loom b ≤ w + 1 → m' w = r.loom w) :
    Counted { r with loom := m' } B fl live held raw ∧
      Spares r { r with loom := m' } live (raw.erase b) := by
  have hlive := h.idle hb
  have hother : ∀ {c w}, Live r.loom B c → c ≠ b → c ≤ w → w < c + r.loom c →
      m' w = r.loom w := by
    intro c w hc hne hlo hhi
    rcases h.heap.tiling.sides hc.1 hlive.1 with he | he | he
    · exact absurd he hne
    · exact hout w (by omega)
    · exact hout w (by omega)
  have hne : ∀ {d}, d ∈ live → boxOf d ≠ b := fun hd he => (h.box hd).2 (he ▸ hb)
  have hword : ∀ {d}, d ∈ live → ∀ w, boxOf d ≤ w → w < boxOf d + r.loom (boxOf d) →
      m' w = r.loom w := fun hd w => hother (h.box hd).1 (hne hd)
  have huse : ∀ {c}, c ∈ B → m' (c + 1) = r.loom (c + 1) := by
    intro c hc
    have hmin := h.heap.min hc
    rcases h.heap.tiling.sides hc hlive.1 with he | he | he
    · exact hout _ (by omega)
    · exact hout _ (by omega)
    · exact hout _ (by omega)
  have hlives : ∀ {c}, Live m' B c ↔ Live r.loom B c := by
    intro c
    refine and_congr_right fun hc => ?_
    rw [huse hc]
  refine ⟨h.carry rfl rfl ⟨h.on.lt, h.on.beam⟩ (h.heap.rewrite hlive hout) hword
    (fun hd => ⟨hlives.2 (h.box hd).1, (h.box hd).2⟩) (fun hc => hlives.2 (h.idle hc))
    fun hc => h.all (hlives.1 hc), fun hd => h.fixed_of_words hd (hword hd),
    fun hd => h.stuck_of_words hd (hword hd), fun {c} hc w hlo hhi => ?_, rfl⟩
  obtain ⟨hcb, hc⟩ := Finset.mem_erase.1 hc
  exact hother (h.idle hc) hcb hlo hhi

/-- The hat moves only if there is room below the cap. -/
theorem on_of_grab (h : Counted r B fl live held raw) (hlen : len < 2 ^ 28)
    (hrun : bloqGrab r len = .ok (r', p)) : OnBeam r' := by
  have hhalf : halfSize = 2 ^ 27 := rfl
  rcases bloqGrab_cases h.heap h.rock len with heq | ⟨q, i, -, hi, hq, heq⟩
  · rw [heq, grabSize, Nat.mod_eq_of_lt (by omega), chip] at hrun
    obtain ⟨hopen, hrun⟩ := must_bind_ok.1 hrun
    obtain ⟨m', -, hrun⟩ := bind_ok.1 hrun
    cases hrun
    have hb : rayB r.hat < halfSize := Nat.mod_lt _ (by omega)
    have hc : rayB r.cap < halfSize := Nat.mod_lt _ (by omega)
    rw [rlOpen, add32_eq (show len + 3 + rayB r.hat < 2 ^ 32 by omega), add32_eq (by omega),
      h.mem] at hopen
    have hfits : ¬ halfSize ≤ len + 3 + rayB r.hat + rayB r.cap := by
      intro hle
      rw [if_pos hle] at hopen
      cases hopen
    obtain ⟨hlt, hbeam⟩ := h.on.grow (n := len + 3) (by omega)
    have hadd : add32 r.hat (len + 3) = r.hat + (len + 3) := add32_eq (by omega)
    exact ⟨hadd ▸ hlt, hadd ▸ hbeam⟩
  · rw [heq, carve_eq h.heap hi hq] at hrun
    simp only at hrun
    split at hrun
    · obtain ⟨m₁, -, hrun⟩ := bind_ok.1 hrun
      obtain ⟨m₂, -, hrun⟩ := bind_ok.1 hrun
      obtain ⟨m₃, -, hrun⟩ := bind_ok.1 hrun
      cases hrun
      exact ⟨h.on.lt, h.on.beam⟩
    · cases hrun
      exact ⟨h.on.lt, h.on.beam⟩

/-- A box is allocated, and not counted yet. -/
theorem grab (h : Counted r B fl live held raw) (hlen : len < 2 ^ 28)
    (hrun : bloqGrab r len = .ok (r', p)) :
    ∃ b B' fl', p = b + 2 ∧ b ∉ raw ∧ Counted r' B' fl' live held (insert b raw) ∧
      r'.loom (b + 1) = 1 ∧ len + 3 ≤ r'.loom b ∧ Spares r r' live raw := by
  have hlow := h.on.lt
  have hon := h.on_of_grab hlen hrun
  have hwrap : ¬ Wraps r len := fun hw => by
    have := hw.2.2
    omega
  obtain ⟨b, B', fl', rfl, hg⟩ := grab_ok h.heap h.rock (by omega) hwrap hrun
  obtain ⟨hat', m', rfl, -⟩ := hg.rail
  have hnew : ∀ {c}, Live r.loom B c → c ≠ b := by
    rintro c hc rfl
    exact hg.fresh hc
  have hword : ∀ {d}, d ∈ live → Live m' B' (boxOf d) ∧
      ∀ w, boxOf d ≤ w → w < boxOf d + r.loom (boxOf d) → m' w = r.loom w :=
    fun hd => hg.live (h.box hd).1
  refine ⟨b, B', fl', rfl, fun hb => hnew (h.idle hb) rfl, h.carry rfl rfl hon hg.heap
    (fun hd => (hword hd).2) (fun {d} hd => ⟨(hword hd).1, fun hm => ?_⟩) (fun {c} hc => ?_)
    fun {c} hc => ?_, hg.use, hg.room, fun hd => h.fixed_of_words hd (hword hd).2,
    fun hd => h.stuck_of_words hd (hword hd).2, fun {c} hc w hlo hhi => (hg.live (h.idle hc)).2 w hlo hhi, rfl⟩
  · rcases Finset.mem_insert.1 hm with hm | hm
    · exact hnew (h.box hd).1 hm
    · exact (h.box hd).2 hm
  · rcases Finset.mem_insert.1 hc with rfl | hc
    · exact ⟨hg.mem, fun hz => by rw [hg.use] at hz; cases hz⟩
    · exact (hg.live (h.idle hc)).1
  · rcases hg.back hc with rfl | hc
    · exact .inl (Finset.mem_insert_self _ _)
    · exact (h.all hc).imp Finset.mem_insert_of_mem id

theorem ne_none (h : Counted r B fl live held raw) (hw : flyIsCat w = true ∨ w ∈ live) :
    w ≠ noNoun := by
  rcases hw with hw | hw
  · rintro rfl
    rw [noNoun_eq] at hw
    cases hw
  · exact h.ne_noNoun hw

theorem reads_of (h : Counted r B fl live held raw) (hw : flyIsCat w = true ∨ w ∈ live) :
    ∃ n, Reads r.loom n w := by
  rcases hw with hw | hw
  · exact ⟨.atom w, .inl ⟨hw, rfl⟩⟩
  · exact h.reads hw

/-- What is spared reads as it did. -/
theorem reads_spared (h : Counted r B fl live held raw) (hs : Spares r r' live raw)
    (hw : flyIsCat w = true ∨ w ∈ live) {n : Noun} (hn : Reads r.loom n w) : Reads r'.loom n w :=
  hn.fixed (fun _ hd => ⟨h.room hd, hs.fixed hd⟩) (fun _ hd => h.kid hd) hw

theorem grab_lt (h : Counted r B fl live held raw) (hlen : len < 2 ^ 28)
    (hrun : bloqGrab r len = .ok (r', p)) : p < 2 ^ 28 := by
  obtain ⟨b, B', fl', rfl, -, h₁, -⟩ := h.grab hlen hrun
  have hbelow := (h₁.below (h₁.idle (Finset.mem_insert_self b raw))).2
  have hlow := h₁.on.lt
  omega

/-- A box is allocated and written. -/
theorem place (h : Counted r B fl live held raw) (hlen : len < 2 ^ 28)
    (hrun : bloqGrab r len = .ok (r', p)) (hout : ∀ w, w < p ∨ p + len ≤ w → m' w = r'.loom w) :
    (∃ b B' fl', p = b + 2 ∧ b ∉ raw ∧
      Counted { r' with loom := m' } B' fl' live held (insert b raw) ∧ m' (b + 1) = 1 ∧
      len + 3 ≤ m' b) ∧ Spares r { r' with loom := m' } live raw := by
  obtain ⟨b, B', fl', rfl, hraw, h₁, huse, hsize, hs₁⟩ := h.grab hlen hrun
  obtain ⟨h₂, hs₂⟩ := h₁.rewrite (Finset.mem_insert_self b raw) fun w hw =>
    hout w (hw.imp id fun hw => by omega)
  rw [Finset.erase_insert hraw] at hs₂
  refine ⟨⟨b, B', fl', rfl, hraw, h₂, ?_, ?_⟩, hs₁.trans hs₂ fun hc => h.size_pos hc⟩
  · rw [hout _ (.inl (by omega))]
    exact huse
  · rw [hout _ (.inl (by omega))]
    exact hsize

/-- What is placed in a box is a noun from now on. -/
theorem settle (h : Counted r B fl live (kids m' d ++ held) raw) (hlen : len < 2 ^ 28)
    (hrun : bloqGrab r len = .ok (r', p)) (hdog : d = pomOf p ∨ d = pugOf p)
    (hout : ∀ w, w < p ∨ p + len ≤ w → m' w = r'.loom w) (hroom : extent m' d = len)
    (hreads : ∃ n, Reads m' n d) :
    ∃ B' fl', Counted { r' with loom := m' } B' fl' (insert d live) (d :: held) raw := by
  have hlt := h.grab_lt hlen hrun
  obtain ⟨hray, -⟩ := dog_eq (by omega) hdog
  obtain ⟨⟨b, B', fl', rfl, hraw, h₁, huse, hsize⟩, -⟩ := h.place hlen hrun hout
  have hb : boxOf d = b := by
    rw [boxOf, hray, Nat.add_sub_cancel]
  rw [← hb] at h₁ hraw huse hsize
  exact ⟨B', fl', h₁.adopt (by rw [hray]; exact hdog) ⟨by omega, by rw [hroom]; exact hsize⟩ hraw
    huse hreads⟩

end Counted

/-- A cell takes its parts over. -/
theorem rlCell_ok (h : Counted r B fl live (a :: b :: held) raw) {n : Nat}
    (hrun : rlCell n r a b = .ok (r', nov)) :
    (∃ B' fl', Counted r' B' fl' (insert nov live) (nov :: held) raw) ∧ Spares r r' live raw ∧
      ∀ x y, Reads r.loom x a → Reads r.loom y b → Reads r'.loom (.cell x y) nov := by
  have ha := h.keep a List.mem_cons_self
  have hb := h.keep b (List.mem_cons_of_mem _ List.mem_cons_self)
  rw [rlCell, if_neg (not_or.2 ⟨h.ne_none ha, h.ne_none hb⟩)] at hrun
  obtain ⟨-, hrun⟩ := must_bind_ok.1 hrun
  obtain ⟨-, hrun⟩ := must_bind_ok.1 hrun
  obtain ⟨⟨r₁, p⟩, hgrab, hrun⟩ := bind_ok.1 hrun
  cases hrun
  have hlt := h.grab_lt (by omega) hgrab
  obtain ⟨hray, hcat, -⟩ := dog_eq (a := p) (by omega) (.inl rfl)
  have hpom : dogIsPom (pomOf p) = true := by
    rw [pomOf_eq (by omega), dogIsPom, decide_eq_true_iff]
    omega
  generalize hm : ((r₁.loom.set p 0).set (p + 1) a).set (p + 2) b = m'
  have hhed : m' (p + 1) = a := by
    rw [← hm, Loom.set_ne (by omega), Loom.set_same]
  have htel : m' (p + 2) = b := by
    rw [← hm, Loom.set_same]
  have hout : ∀ w, w < p ∨ p + 3 ≤ w → m' w = r₁.loom w := by
    intro w hw
    rw [← hm, Loom.set_ne (by omega), Loom.set_ne (by omega), Loom.set_ne (by omega)]
  have hkids : kids m' (pomOf p) = [a, b] := by
    rw [kids, if_pos hpom, hray, hhed, htel]
  have hcell : ∀ x y, Reads m' x a → Reads m' y b → Reads m' (.cell x y) (pomOf p) := by
    intro x y hx hy
    refine ⟨hcat, hpom, ?_, ?_⟩
    · rw [hray, hhed]
      exact hx
    · rw [hray, htel]
      exact hy
  have hs := (h.place (by omega) hgrab hout).2
  obtain ⟨x, hx⟩ := h.reads_of ha
  obtain ⟨y, hy⟩ := h.reads_of hb
  have hreads := hcell x y (h.reads_spared hs ha hx) (h.reads_spared hs hb hy)
  have hparts : Counted r B fl live (kids m' (pomOf p) ++ held) raw := by
    rw [hkids]
    exact h
  exact ⟨hparts.settle (by omega) hgrab (.inl rfl) hout (if_pos hpom) ⟨_, hreads⟩, hs,
    fun x y hx hy => hcell x y (h.reads_spared hs ha hx) (h.reads_spared hs hb hy)⟩

/-! ### Atoms -/

/-- The number that words are the digits of. -/
def value : List Nat → Nat
  | [] => 0
  | w :: ws => w + 2 ^ 32 * value ws

theorem value_append_zero (ws : List Nat) : value (ws ++ [0]) = value ws := by
  induction ws with
  | nil => rfl
  | cons w ws ih => rw [List.cons_append, value, value, ih]

theorem value_strip (ws : List Nat) : value (strip ws) = value ws := by
  induction ws using List.reverseRecOn with
  | nil => rfl
  | append_singleton ws w ih =>
      rw [strip, List.reverse_append, List.reverse_singleton, List.singleton_append,
        List.dropWhile_cons]
      by_cases hw : w = 0
      · rw [if_pos (by simp [hw]), hw, value_append_zero]
        exact ih
      · rw [if_neg (by simp [hw]), List.reverse_cons, List.reverse_reverse]

theorem fill_out {ray : Nat} {ws : List Nat} (hw : w < ray ∨ ray + ws.length ≤ w) :
    fill m ray ws w = m w := by
  induction ws generalizing m ray with
  | nil => rfl
  | cons x ws ih =>
      rw [List.length_cons] at hw
      rw [fill, ih (by omega), Loom.set_ne (by omega)]

theorem number_fill (m : Loom) (ray : Nat) (ws : List Nat) :
    number (fill m ray ws) ray ws.length = value ws := by
  induction ws generalizing m ray with
  | nil => rfl
  | cons x ws ih =>
      rw [fill, List.length_cons, number, ih, fill_out (.inl (Nat.lt_succ_self ray)),
        Loom.set_same, value]

/-- The atom of some words is a cat, or there was no room, or it is a new noun. -/
theorem rlWords_ok (h : Counted r B fl live held raw) {ws : List Nat}
    (hrun : rlWords r ws = .ok (r', nov)) :
    nov = noNoun ∧ r' = r ∨
      (∃ B' fl' live', Counted r' B' fl' live' (nov :: held) raw ∧ live ⊆ live') ∧
        Spares r r' live raw ∧ Reads r'.loom (.atom (value ws)) nov := by
  rw [← value_strip ws]
  rw [rlWords] at hrun
  generalize strip ws = ws at hrun ⊢
  cases ws with
  | nil =>
      cases hrun
      exact .inr ⟨⟨B, fl, live, h.cat rfl, Finset.Subset.refl _⟩, .refl r live raw, .inl ⟨rfl, rfl⟩⟩
  | cons w ws =>
      simp only at hrun
      split at hrun
      next hcat =>
        cases hrun
        obtain ⟨rfl, hcat⟩ := hcat
        exact .inr ⟨⟨B, fl, live, h.cat hcat, Finset.Subset.refl _⟩, .refl r live raw,
          .inl ⟨hcat, rfl⟩⟩
      next =>
        obtain ⟨hlen, hrun⟩ := must_bind_ok.1 hrun
        split at hrun
        · cases hrun
          exact .inl ⟨rfl, rfl⟩
        obtain ⟨⟨r₁, p⟩, hgrab, hrun⟩ := bind_ok.1 hrun
        cases hrun
        generalize hws : w :: ws = words at hlen hgrab ⊢
        have hlt := h.grab_lt (by omega) hgrab
        obtain ⟨hray, hcat, -⟩ := dog_eq (a := p) (by omega) (.inr rfl)
        have hpug : dogIsPom (pugOf p) = false := by
          rw [pugOf_eq (by omega), dogIsPom, decide_eq_false_iff_not]
          omega
        generalize hm : fill ((r₁.loom.set p 0).set (p + 1) words.length) (p + 2) words = m'
        have hlength : m' (p + 1) = words.length := by
          rw [← hm, fill_out (.inl (by omega)), Loom.set_same]
        have hout : ∀ w, w < p ∨ p + (words.length + 2) ≤ w → m' w = r₁.loom w := by
          intro w hw
          rw [← hm, fill_out (by omega), Loom.set_ne (by omega), Loom.set_ne (by omega)]
        have hreads : Reads m' (.atom (value words)) (pugOf p) := by
          refine .inr ⟨hcat, hpug, ?_⟩
          rw [hray, hlength, ← hm, number_fill]
        have hkids : kids m' (pugOf p) = [] := if_neg (by simp [hpug])
        have hextent : extent m' (pugOf p) = words.length + 2 := by
          rw [extent, if_neg (by simp [hpug]), hray, hlength]
        have hs := (h.place (by omega) hgrab hout).2
        have hparts : Counted r B fl live (kids m' (pugOf p) ++ held) raw := by
          rw [hkids]
          exact h
        obtain ⟨B', fl', h'⟩ := hparts.settle (by omega) hgrab (.inr rfl) hout hextent ⟨_, hreads⟩
        exact .inr ⟨⟨B', fl', _, h', Finset.subset_insert _ _⟩, hs, hreads⟩

end Make

end Vere.Mem
