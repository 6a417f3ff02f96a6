import Vere.Mem.Heap

/-!
# Vere.Mem.Free

Releasing a block: `_rl_bloq_free` returns on every live box of a heap, and leaves a
heap in which exactly that box is no longer live (`release_ok`).

The box being released is loose from the moment its use count is zero. It is joined with
the box before it and the box after it, if these are free, and then either goes to a
free list or takes the hat down with it.
-/

namespace Vere.Mem

open Vere.Lib

variable {m m' : Loom} {r r' : Rail} {rut hat a b c w : Nat} {B B' X X' : Finset Nat}
  {fl fl' : Nat → List Nat}

namespace Heap

/-- If the box before `c` is in use, it still is after an edit that keeps the live
boxes. -/
theorem keep_prev (h : Heap m rut hat B fl X) (h' : Heap m' rut hat B' fl' X')
    (hk : Keeps rut hat m B m' B') (hc : c ∈ B) (hprev : ∀ {p}, p ∈ B → p + m p = c → m (p + 1) ≠ 0)
    {p : Nat} (hp : p ∈ B') (hpc : p + m' p = c) : m' (p + 1) ≠ 0 := by
  have hpos := h'.min hp
  by_cases hlo : c = rut + 32
  · have := h'.low hp
    omega
  · obtain ⟨q, hq, hqc⟩ := h.tiling.prev hc hlo
    obtain ⟨hq', hw⟩ := hk.live ⟨hq, hprev hq hqc⟩
    have hminq := h.min hq
    have hsame : m' q = m q := hw q le_rfl (by omega)
    have heq : p = q :=
      @Tiling.unique m' (rut + 32) hat p q B' h'.tiling hp hq'.1 (c - 1)
        (by omega) (by omega) (by omega) (by omega)
    exact heq ▸ hq'.2

/-- A live box whose use count is set to zero is loose. -/
theorem loosen (h : Heap m rut hat B fl ∅) (ha : Live m B a) :
    Heap (m.set (a + 1) 0) rut hat B fl {a} := by
  refine h.setUse ha.1 (fun hne => by simp [hne]) ?_ fun _ => rfl
  simp [ha.2]

/-- The data of a loose box, and the count of live words in the soup, can be anything. -/
theorem scrub (h : Heap m rut hat B fl X) (ha : a ∈ X)
    (hw : ∀ {w}, w ≠ rut + 31 → w < a + 2 ∨ a + m a ≤ w + 1 → m' w = m w) :
    Heap m' rut hat B fl X ∧ Keeps rut hat m B m' B := by
  obtain ⟨haB, hau⟩ := h.loose ha
  have hlow := h.low haB
  have hhigh := h.tiling.high haB
  have hmin := h.min haB
  -- the words of the other boxes
  have hout : ∀ {c w}, c ∈ B → c ≠ a → c ≤ w → w < c + m c → m' w = m w := by
    intro c w hc hne hlo hhi
    have := h.low hc
    rcases h.tiling.sides hc haB with he | he | he
    · exact absurd he hne
    · exact hw (by omega) (by omega)
    · exact hw (by omega) (by omega)
  -- the tags of any box
  have htag : ∀ {c k}, c ∈ B → k < m c → k < 2 ∨ k + 1 = m c → m' (c + k) = m (c + k) := by
    intro c k hc hk htag
    by_cases he : c = a
    · subst he
      exact hw (by omega) (by omega)
    · exact hout hc he (by omega) (by omega)
  have huse : ∀ {c}, c ∈ B → m' (c + 1) = m (c + 1) := fun {c} hc => by
    have := h.min hc
    exact htag hc (by omega) (by omega)
  refine ⟨?_, ?_, ?_, ?_⟩
  · refine h.frame (fun i hi => hw (by omega) (by omega)) ?_ ?_ ?_ ?_ ?_
    · intro c hc
      have := h.min hc
      exact @htag c 0 hc (by omega) (by omega)
    · intro c hc
      have := h.min hc
      rw [show c + m c - 1 = c + (m c - 1) by omega]
      exact htag hc (by omega) (by omega)
    · intro c hc
      obtain ⟨hcB, hcX, -⟩ := h.onList_iff.mp hc
      have := h.min hcB
      have hne : c ≠ a := fun he => hcX (he ▸ ha)
      exact ⟨hout hcB hne (by omega) (by omega), hout hcB hne (by omega) (by omega)⟩
    · intro c hc
      rw [huse hc]
    · intro c hc
      rw [huse (h.loose hc).1]
      exact h.loose hc
  · rintro c ⟨hc, hcu⟩
    exact ⟨⟨hc, (huse hc).symm ▸ hcu⟩, fun w => hout hc fun he => hcu (he ▸ hau)⟩
  · rintro c ⟨hc, hcu⟩
    exact ⟨hc, huse hc ▸ hcu⟩
  · exact fun hout => hw (by omega) (by omega)

end Heap

/-! ## The two joins -/

/-- The loose box after `joinPrev` has no free box before it. -/
theorem joinPrev_ok (h : Heap m rut hat B fl {b}) :
    ∃ m' c B' fl', joinPrev rut m b = .ok (m', c) ∧ Heap m' rut hat B' fl' {c} ∧
      Keeps rut hat m B m' B' ∧ ∀ {p}, p ∈ B' → p + m' p = c → m' (p + 1) ≠ 0 := by
  obtain ⟨hb, -⟩ := h.loose (Finset.mem_singleton_self b)
  have hlt := h.lt hb
  have hlow := h.low hb
  unfold joinPrev
  rw [show add32 rut soupSize = rut + 32 from add32_eq (by unfold soupSize; omega)]
  by_cases hlo : b = rut + 32
  · refine ⟨m, b, B, fl, if_neg (not_not.mpr hlo), h, Keeps.refl _ _ _ _, ?_⟩
    intro p hp hpb
    have := h.low hp
    have := h.min hp
    omega
  · obtain ⟨t, ht, htb⟩ := h.tiling.prev hb hlo
    have hmint := h.min ht
    have hlas : m (b - 1) = m t := htb ▸ h.foot ht
    have hne : t ≠ b := by omega
    have htod : sub32 b (m t) = t := by
      rw [sub32_eq (by omega) (by omega)]
      omega
    rw [if_pos hlo]
    simp only [sub32_eq (show 1 ≤ b by omega) (show b < 2 ^ 32 by omega), hlas, htod]
    by_cases hu : m (t + 1) = 0
    · -- the box before is free
      simp only [hu, if_true]
      have htX : t ∉ ({b} : Finset Nat) := fun hc => hne (Finset.mem_singleton.mp hc)
      obtain ⟨hd, hkd, hsiz⟩ := h.detach ht htX hu
      have htsiz := hsiz ht
      have hbsiz := hsiz hb
      have hnext : t + bloqDetach rut m t t = b := by rw [htsiz, htb]
      obtain ⟨hm, hkm⟩ := hd.merge (Finset.mem_insert_self t {b}) (by rw [hnext]; simp)
      rw [hnext] at hm hkm
      have hX : ({t, b} : Finset Nat).erase b = {t} := by
        ext x
        simp only [Finset.mem_erase, Finset.mem_insert, Finset.mem_singleton]
        omega
      rw [hX] at hm
      have hk := hkd.trans hkm
      refine ⟨_, t, _, _, ?_, hm, hk, ?_⟩
      · rw [add32_eq (by rw [hbsiz]; omega), ← htsiz, bloqMake_eq (by omega) (by omega)]
        rfl
      · have hprev : ∀ {p}, p ∈ B → p + m p = t → m (p + 1) ≠ 0 := by
          intro p hp hpt
          have hpb : p ∉ ({b} : Finset Nat) := fun hc => by
            have := Finset.mem_singleton.mp hc
            omega
          exact (h.adj hp (hpt ▸ ht) hpb (hpt ▸ htX)).resolve_right
            (by rw [hpt]; exact not_not.mpr hu)
        intro p
        exact h.keep_prev hm hk ht hprev
    · refine ⟨m, b, B, fl, ?_, h, Keeps.refl _ _ _ _, ?_⟩
      · simp only [hu, if_false]
        rfl
      · intro p hp hpb
        have hminp := h.min hp
        have heq : p = t :=
          @Tiling.unique m (rut + 32) hat p t B h.tiling hp ht (b - 1)
            (by omega) (by omega) (by omega) (by omega)
        exact heq ▸ hu

/-- A loose box with no free box before it goes to a free list, or the hat comes down
to it. -/
theorem joinNext_ok (h : Heap m r.rut r.hat B fl {c})
    (hprev : ∀ {p}, p ∈ B → p + m p = c → m (p + 1) ≠ 0) :
    ∃ m' hat' B' fl', joinNext r m c = .ok { r with hat := hat', loom := m' } ∧ hat' ≤ r.hat ∧
      Heap m' r.rut hat' B' fl' ∅ ∧ Keeps r.rut r.hat m B m' B' := by
  have hc := Finset.mem_singleton_self c
  obtain ⟨hcB, hcu⟩ := h.loose hc
  have hlt := h.lt hcB
  have hminc := h.min hcB
  unfold joinNext
  simp only
  rw [add32_eq hlt]
  by_cases hend : c + m c = r.hat
  · rw [if_pos hend]
    obtain ⟨hh, hk⟩ := h.retract hc hend hprev
    rw [Finset.erase_singleton] at hh
    exact ⟨m, c, _, fl, rfl, by omega, hh, hk⟩
  · rw [if_neg hend]
    have hhob : c + m c ∈ B := (h.tiling.next hcB).resolve_left hend
    have hmin := h.min hhob
    have hnX : c + m c ∉ ({c} : Finset Nat) := fun hc => by
      have := Finset.mem_singleton.mp hc
      omega
    by_cases hu : m (c + m c + 1) = 0
    · -- the box after is free, and what comes after that is not
      rw [if_pos hu]
      obtain ⟨hd, hkd, hdsiz⟩ := h.detach hhob hnX hu
      have hcsiz := hdsiz hcB
      have hhsiz := hdsiz hhob
      obtain ⟨hm, hkm⟩ := hd.merge (Finset.mem_insert_of_mem hc) (by rw [hcsiz]; simp)
      rw [hcsiz, hhsiz] at hm hkm
      have hX : (insert (c + m c) {c} : Finset Nat).erase (c + m c) = {c} :=
        Finset.erase_insert hnX
      rw [hX] at hm
      have hk := hkd.trans hkm
      have hlt' := h.lt hhob
      have hnext : c + m c + m (c + m c) ∈ B ∧ m (c + m c + m (c + m c) + 1) ≠ 0 := by
        have hin := (h.tiling.next hhob).resolve_left fun he => h.last hhob hnX he hu
        refine ⟨hin, (h.adj hhob hin hnX fun hx => ?_).resolve_left (not_not.mpr hu)⟩
        have := Finset.mem_singleton.mp hx
        omega
      obtain ⟨hlive, -⟩ := hk.live hnext
      have hsiz : made (bloqDetach r.rut m (c + m c)) c (m c + m (c + m c)) 0 c =
          m c + m (c + m c) := made_siz (by omega)
      obtain ⟨m', hrun, hh, hka⟩ := hm.attach hc (h.keep_prev hm hk hcB hprev) (by
        rw [hsiz, ← Nat.add_assoc]
        exact hlive)
      refine ⟨m', r.hat, _, _, ?_, le_rfl, Finset.erase_singleton c ▸ hh, hk.trans hka⟩
      rw [hhsiz, add32_eq (by omega), bloqMake_eq (by omega) (by omega)]
      simp only [bind, Except.bind, hrun]
      rfl
    · rw [if_neg hu]
      obtain ⟨m', hrun, hh, hka⟩ := h.attach hc hprev ⟨hhob, hu⟩
      refine ⟨m', r.hat, B, _, ?_, le_rfl, Finset.erase_singleton c ▸ hh, hka⟩
      simp only [bind, Except.bind, pure, Except.pure, hrun]

/-! ## Release -/

/-- The heap after a box is released. -/
structure Released (r : Rail) (B : Finset Nat) (b : Nat) (r' : Rail) (B' : Finset Nat)
    (fl' : Nat → List Nat) : Prop where
  rail : ∃ hat' m', r' = { r with hat := hat', loom := m' } ∧ hat' ≤ r.hat
  heap : Heap r'.loom r'.rut r'.hat B' fl' ∅
  live : ∀ {a}, a ≠ b → Live r.loom B a →
    Live r'.loom B' a ∧ ∀ w, a ≤ w → w < a + r.loom a → r'.loom w = r.loom w
  back : ∀ {a}, Live r'.loom B' a → a ≠ b ∧ Live r.loom B a
  out : ∀ {w}, w < r.rut ∨ r.hat ≤ w → r'.loom w = r.loom w

/-- What is kept once the use count of `b` is zero is everything but `b`. -/
theorem Released.of_keeps (h : Heap r.loom r.rut r.hat B fl ∅) (hb : Live r.loom B b)
    (hrail : ∃ hat' m', r' = { r with hat := hat', loom := m' } ∧ hat' ≤ r.hat)
    (hh : Heap r'.loom r'.rut r'.hat B' fl' ∅)
    (hk : Keeps r.rut r.hat (r.loom.set (b + 1) 0) B r'.loom B') : Released r B b r' B' fl' := by
  have hlow := h.low hb.1
  have hhigh := h.tiling.high hb.1
  have hmin := h.min hb.1
  -- no word of another box is the use count of `b`
  have hword : ∀ {a w}, a ∈ B → a ≠ b → a ≤ w → w < a + r.loom a →
      r.loom.set (b + 1) 0 w = r.loom w := by
    intro a w ha hne hlo hhi
    rcases (h.tiling.sides ha hb.1).resolve_left hne with he | he
    · exact Loom.set_ne (by omega)
    · exact Loom.set_ne (by omega)
  have hlive : ∀ {a}, Live (r.loom.set (b + 1) 0) B a ↔ a ≠ b ∧ Live r.loom B a := by
    intro a
    unfold Live
    by_cases he : a = b
    · simp [he]
    · rw [Loom.set_ne (by omega)]
      simp [he]
  refine ⟨hrail, hh, fun {a} hne ha => ?_, fun {a} ha => hlive.mp (hk.back ha), fun {w} hw => ?_⟩
  · have hmina := h.min ha.1
    obtain ⟨ha', hw⟩ := hk.live (hlive.mpr ⟨hne, ha⟩)
    refine ⟨ha', fun w hlo hhi => ?_⟩
    rw [hw w hlo (by rw [hword ha.1 hne le_rfl (by omega)]; exact hhi), hword ha.1 hne hlo hhi]
  · rw [hk.out hw]
    exact Loom.set_ne (by omega)

/-- Releasing a live box of the rail's own beam returns, and the box is no longer live. -/
theorem release_ok (h : Heap r.loom r.rut r.hat B fl ∅) (hrock : r.hip = .rock)
    (hb : Live r.loom B b) (hray : rayA b = rayA r.rut) :
    ∃ r' B' fl', release r b = .ok r' ∧ Released r B b r' B' fl' := by
  have hlow := h.low hb.1
  have hlt := h.lt hb.1
  have hmin := h.min hb.1
  have hhigh := h.tiling.high hb.1
  have hloose := h.loosen hb
  generalize hm₀ : r.loom.set (b + 1) 0 = m₀ at hloose
  have hzero : m₀ (b + 1) = 0 := by rw [← hm₀, Loom.set_same]
  have hsiz : m₀ b = r.loom b := by
    rw [← hm₀]
    exact Loom.set_ne (by omega)
  -- the loom when the joins begin
  generalize hm₂ : liveGrab r.rut (clear m₀ b) (sub32 0 (clear m₀ b b)) = m₂
  have hedit : ∀ {w}, w ≠ r.rut + 31 → w < b + 2 ∨ b + m₀ b ≤ w + 1 → m₂ w = m₀ w := by
    intro w hw hout
    rw [← hm₂]
    unfold liveGrab soupLiv
    rw [Loom.set_ne hw]
    unfold clear
    rw [add32_eq (by omega), if_neg (by omega)]
  obtain ⟨hh₂, hk₂⟩ := hloose.scrub (Finset.mem_singleton_self b) hedit
  obtain ⟨m₃, c, B₃, fl₃, hrun₃, hh₃, hk₃, hprev⟩ := joinPrev_ok hh₂
  obtain ⟨m', hat', B', fl', hrun, hle, hh, hk⟩ := @joinNext_ok m₃ r c B₃ fl₃ hh₃ hprev
  refine ⟨{ r with hat := hat', loom := m' }, B', fl', ?_,
    .of_keeps h hb ⟨hat', m', rfl, hle⟩ hh ?_⟩
  · unfold release bloqFree
    simp only [hm₀]
    rw [must_bind hrock, must_bind hzero, must_bind hray, must_bind (by omega)]
    simp only [hm₂, hrun₃, bind, Except.bind]
    exact hrun
  · rw [hm₀]
    exact (hk₂.trans hk₃).trans hk

end Vere.Mem
