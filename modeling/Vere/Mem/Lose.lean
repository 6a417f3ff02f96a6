import Vere.Mem.Counts

/-!
# Vere.Mem.Lose

References are gained and lost. A noun that the last reference is lost to is freed, and its own
references are lost (`loseTop_ok`); everything else stays as it is (`Spares`).
-/

namespace Vere.Mem

open Vere.Lib

/-- Nouns and boxes that are as they were. -/
structure Spares (r r' : Rail) (live raw : Finset Nat) : Prop where
  fixed : ∀ {d}, d ∈ live → Fixed r.loom r'.loom d
  sticks : ∀ {d}, d ∈ live → r.loom (boxOf d + 1) = stuck → r'.loom (boxOf d + 1) = stuck
  idle : ∀ {b}, b ∈ raw → ∀ w, b ≤ w → w < b + r.loom b → r'.loom w = r.loom w
  rut : r'.rut = r.rut

section Lose

variable {r r' r'' : Rail} {B B' : Finset Nat} {fl fl' : Nat → List Nat} {live live' : Finset Nat}
  {held held' : List Nat} {raw : Finset Nat} {d e b u v w som : Nat}

theorem Spares.refl (r : Rail) (live raw : Finset Nat) : Spares r r live raw :=
  ⟨fun _ => .refl _ _, fun _ => id, fun _ _ _ _ => rfl, rfl⟩

theorem Spares.mono {raw' : Finset Nat} (h : Spares r r' live raw) (hl : live' ⊆ live)
    (hr : raw' ⊆ raw) : Spares r r' live' raw' :=
  ⟨fun hd => h.fixed (hl hd), fun hd => h.sticks (hl hd), fun hb => h.idle (hr hb), h.rut⟩

theorem Spares.trans (h : Spares r r' live raw) (h' : Spares r' r'' live raw)
    (hB : ∀ {b}, b ∈ raw → 0 < r.loom b) : Spares r r'' live raw := by
  refine ⟨fun hd => (h.fixed hd).trans (h'.fixed hd),
    fun hd hstuck => h'.sticks hd (h.sticks hd hstuck), fun {b} hb w hlo hhi => ?_,
    h'.rut.trans h.rut⟩
  have hsize : r'.loom b = r.loom b := h.idle hb b le_rfl (by have := hB hb; omega)
  rw [h'.idle hb w hlo (by rw [hsize]; exact hhi), h.idle hb w hlo hhi]

namespace Counted

theorem size_pos (h : Counted r B fl live held raw) (hb : b ∈ raw) : 0 < r.loom b := by
  have hmin := h.heap.min (h.idle hb).1
  omega

/-- A stuck count is one of the words of a box. -/
theorem stuck_of_words (h : Counted r B fl live held raw) (hd : d ∈ live)
    (hword : ∀ w, boxOf d ≤ w → w < boxOf d + r.loom (boxOf d) → r'.loom w = r.loom w)
    (hstuck : r.loom (boxOf d + 1) = stuck) : r'.loom (boxOf d + 1) = stuck := by
  have hroom := (h.room hd).2
  rw [hword _ (by omega) (by omega), hstuck]

/-- A box that is not counted is freed. -/
theorem free (h : Counted r B fl live held raw) (hb : b ∈ raw) :
    ∃ r' B' fl', release r b = .ok r' ∧ Counted r' B' fl' live held (raw.erase b) ∧
      Spares r r' live (raw.erase b) := by
  have hlive := h.idle hb
  obtain ⟨hlo, hhi⟩ := h.below hlive
  have hray : rayA b = rayA r.rut := by
    rw [h.on.ray (by omega) (by omega), h.on.beam]
  obtain ⟨r', B', fl', hrun, hrel⟩ := release_ok h.heap h.rock hlive hray
  obtain ⟨hat', m', rfl, hle⟩ := hrel.rail
  have hother : ∀ {d}, d ∈ live → boxOf d ≠ b := fun hd he => (h.box hd).2 (he ▸ hb)
  have hword : ∀ {d}, d ∈ live → Live m' B' (boxOf d) ∧
      ∀ w, boxOf d ≤ w → w < boxOf d + r.loom (boxOf d) → m' w = r.loom w :=
    fun hd => hrel.live (hother hd) (h.box hd).1
  refine ⟨_, B', fl', hrun, h.carry rfl rfl ?_ hrel.heap (fun hd => (hword hd).2)
    (fun {d} hd => ⟨(hword hd).1, fun hm => (h.box hd).2 (Finset.mem_of_mem_erase hm)⟩)
    (fun {c} hc => ?_) fun {c} hc => ?_, fun hd => h.fixed_of_words hd (hword hd).2,
    fun hd => h.stuck_of_words hd (hword hd).2, fun {c} hc w hlo hhi => ?_, rfl⟩
  · have hlow := hrel.heap.tiling.lo_le
    exact h.on.shrink (Nat.le_of_add_right_le hlow) hle m'
  · obtain ⟨hne, hc⟩ := Finset.mem_erase.1 hc
    exact (hrel.live hne (h.idle hc)).1
  · obtain ⟨hne, hc⟩ := hrel.back hc
    rcases h.all hc with hc | hc
    · exact .inl (Finset.mem_erase.2 ⟨hne, hc⟩)
    · exact .inr hc
  · obtain ⟨hne, hc⟩ := Finset.mem_erase.1 hc
    exact (hrel.live hne (h.idle hc)).2 w hlo hhi

/-- What changes a use count that is not stuck spares all. -/
theorem spares_use (h : Counted r B fl live held raw) (hd : d ∈ live)
    (hstuck : r.loom (boxOf d + 1) ≠ stuck) (u : Nat) :
    Spares r { r with loom := r.loom.set (boxOf d + 1) u } live raw := by
  refine ⟨fun he => h.fixed_use hd he u, fun {e} he hst => ?_, fun {b} hb w hlo hhi => ?_, rfl⟩
  · have hne : boxOf e + 1 ≠ boxOf d + 1 := by
      intro heq
      rw [Nat.add_right_cancel heq] at hst
      exact hstuck hst
    exact (Loom.set_ne hne).trans hst
  have hne : b ≠ boxOf d := fun he => (h.box hd).2 (he ▸ hb)
  exact Loom.set_ne (h.use_ne hd (h.idle hb) hne hlo hhi)

/-- The box of a dog, as the source finds it. -/
theorem box_eq (h : Counted r B fl live held raw) (hd : d ∈ live) :
    sub32 (dogA d) 2 = boxOf d ∧ boxOf d + 2 = dogA d ∧ rayA (dogA d) = rayA r.hat ∧
      r.rut < dogA d := by
  obtain ⟨hray, hlo, hhi⟩ := h.ray hd
  have hbelow := (h.below (h.box hd).1).2
  exact ⟨sub32_eq (by omega) (by omega), hray.symm, h.on.ray (by omega) (by omega), by omega⟩

theorem ends (h : Counted r B fl live held raw) (hd : d ∈ live) :
    r.loom (boxOf d + 1) ≠ 0 := (h.box hd).1.2

/-- A reference is gained. -/
theorem gain (h : Counted r B fl live held raw) (hsom : flyIsCat som = true ∨ som ∈ live)
    (n : Nat) : ∃ r', rlGain (n + 1) r som = .ok r' ∧ Counted r' B fl live (som :: held) raw ∧
      Spares r r' live raw := by
  rw [rlGain]
  by_cases hcat : flyIsCat som = true
  · exact ⟨r, by rw [if_pos (.inr hcat)], h.cat hcat, .refl r live raw⟩
  have hd := hsom.resolve_left hcat
  have hno : ¬(som = noNoun ∨ flyIsCat som = true) := not_or.2 ⟨h.ne_noNoun hd, hcat⟩
  obtain ⟨hbox, -, hbeam, hrut⟩ := h.box_eq hd
  have hheld : ∀ k ∈ som :: held, flyIsCat k = true ∨ k ∈ live := by
    intro k hk
    rcases List.mem_cons.1 hk with rfl | hk
    · exact .inr hd
    · exact h.keep k hk
  have hother : ∀ e ∈ live, e ≠ som →
      refs (kids r.loom) live (som :: held) e = refs (kids r.loom) live held e :=
    fun e _ hne => refs_cons_ne hne.symm _ _ _
  simp only [if_neg hno, if_pos hbeam, if_pos (And.intro h.rock hrut), hbox,
    must_bind (h.ends hd)]
  by_cases hstuck : r.loom (boxOf som + 1) = 0x7fffffff
  · rw [if_neg (not_not_intro hstuck)]
    refine ⟨r, rfl, { h with keep := hheld, use := fun {e} he => ?_ }, .refl r live raw⟩
    by_cases heq : e = som
    · exact .inl (heq ▸ hstuck)
    · rw [hother e he heq]
      exact h.use he
  · rw [if_pos hstuck]
    obtain ⟨hlt, huse⟩ := (h.use hd).resolve_left hstuck
    have hadd : add32 (r.loom (boxOf som + 1)) 1 = r.loom (boxOf som + 1) + 1 := by
      refine add32_eq ?_
      rw [stuck] at hlt
      omega
    rw [hadd]
    refine ⟨_, rfl, h.recount hd (Nat.succ_ne_zero _) hheld ?_ hother, h.spares_use hd hstuck _⟩
    rw [refs_cons_self, ← huse]
    omega

/-- A reference is lost, but not the last one. -/
theorem lower (h : Counted r B fl live (som :: held) raw) (hd : som ∈ live)
    (hone : r.loom (boxOf som + 1) ≠ 1) :
    Counted (if r.loom (boxOf som + 1) ≠ 0x7fffffff then
      { r with loom := r.loom.set (boxOf som + 1) (r.loom (boxOf som + 1) - 1) } else r)
      B fl live held raw := by
  have hzero := h.ends hd
  have hheld : ∀ k ∈ held, flyIsCat k = true ∨ k ∈ live :=
    fun k hk => h.keep k (List.mem_cons_of_mem _ hk)
  have hother : ∀ e ∈ live, e ≠ som →
      refs (kids r.loom) live held e = refs (kids r.loom) live (som :: held) e :=
    fun e _ hne => (refs_cons_ne hne.symm _ _ _).symm
  by_cases hstuck : r.loom (boxOf som + 1) = 0x7fffffff
  · rw [if_neg (not_not_intro hstuck)]
    refine { h with keep := hheld, use := fun {e} he => ?_ }
    by_cases heq : e = som
    · exact .inl (heq ▸ hstuck)
    · rw [hother e he heq]
      exact h.use he
  · rw [if_pos hstuck]
    obtain ⟨hlt, huse⟩ := (h.use hd).resolve_left hstuck
    rw [refs_cons_self] at huse
    exact h.recount hd (by omega) hheld (.inr ⟨by omega, by omega⟩) hother

end Counted

/-- A reference is lost: what nothing refers to any more is freed, and nothing else changes. -/
theorem loseTop_ok (n : Nat) (h : Counted r B fl live (som :: held) raw) (hn : live.card < n) :
    ∃ r' B' fl' live', loseTop n r som = .ok r' ∧ Counted r' B' fl' live' held raw ∧
      live' ⊆ live ∧ (∀ d ∈ live, r.loom (boxOf d + 1) = stuck → d ∈ live') ∧
        Spares r r' live' raw := by
  induction n generalizing r B fl live held raw som with
  | zero => omega
  | succ n ih =>
      rw [loseTop]
      by_cases hcat : flyIsCat som = true
      · exact ⟨r, B, fl, live, by rw [if_pos hcat], h.dropCat hcat, Finset.Subset.refl _,
          fun _ he _ => he, .refl r live raw⟩
      have hd := (h.keep som List.mem_cons_self).resolve_left hcat
      obtain ⟨hbox, hray, hbeam, hrut⟩ := h.box_eq hd
      simp only [if_neg hcat, if_pos hbeam, if_pos (And.intro h.rock hrut.le), hbox]
      by_cases hone : r.loom (boxOf som + 1) = 1
      · rw [if_pos hone]
        have huse := h.use hd
        rw [hone, stuck] at huse
        have hpart := h.part hd (huse.resolve_left (by decide)).2.symm
        have hraw : boxOf som ∉ raw := (h.box hd).2
        have hsub : live.erase som ⊆ live := Finset.erase_subset _ _
        have hcard : (live.erase som).card < n := by
          have := Finset.card_erase_lt_of_mem hd
          omega
        have hkeep : ∀ e ∈ live, r.loom (boxOf e + 1) = stuck → e ∈ live.erase som := by
          intro e he hst
          refine Finset.mem_erase.2 ⟨?_, he⟩
          rintro rfl
          rw [hone] at hst
          cases hst
        by_cases hpom : dogIsPom som = true
        · have hkids : kids r.loom som = [r.loom (dogA som + 1), r.loom (dogA som + 2)] :=
            if_pos hpom
          rw [hkids] at hpart
          -- The box is in no list and not counted while what it holds is lost.
          have hhed : r.loom (dogA som + 1) ≠ noNoun := by
            rcases hpart.keep _ List.mem_cons_self with hc | hc
            · rintro he
              rw [he, noNoun_eq] at hc
              cases hc
            · exact hpart.ne_noNoun hc
          obtain ⟨r₁, B₁, fl₁, live₁, hrun₁, h₁, hsub₁, hst₁, hspare₁⟩ := ih hpart hcard
          obtain ⟨r₂, B₂, fl₂, hrun₂, h₂, hspare₂⟩ := h₁.free (Finset.mem_insert_self _ _)
          rw [Finset.erase_insert hraw] at h₂ hspare₂
          have hcard₁ := (Finset.card_le_card hsub₁).trans_lt hcard
          obtain ⟨r₃, B₃, fl₃, live₃, hrun₃, h₃, hsub₃, hst₃, hspare₃⟩ := ih h₂ hcard₁
          refine ⟨r₃, B₃, fl₃, live₃, ?_, h₃, (hsub₃.trans hsub₁).trans hsub, fun e he hst => ?_, ?_⟩
          · simp only [if_pos hpom, if_neg hhed, hrun₁, hrun₂, bind, Except.bind]
            exact hrun₃
          · have he₁ := hst₁ e (hkeep e he hst) hst
            exact hst₃ e he₁ (hspare₂.sticks he₁ (hspare₁.sticks he₁ hst))
          · have h₁₂ := (hspare₁.mono hsub₃ (Finset.subset_insert _ _)).trans
              (hspare₂.mono hsub₃ (Finset.Subset.refl _)) fun hb => h.size_pos hb
            exact h₁₂.trans hspare₃ fun hb => h.size_pos hb
        · have hkids : kids r.loom som = [] := if_neg hpom
          rw [hkids] at hpart
          obtain ⟨r₁, B₁, fl₁, hrun₁, h₁, hspare₁⟩ := hpart.free (Finset.mem_insert_self _ _)
          rw [Finset.erase_insert hraw] at h₁ hspare₁
          exact ⟨r₁, B₁, fl₁, live.erase som, by rw [if_neg hpom]; exact hrun₁, h₁, hsub, hkeep,
            hspare₁⟩
      · rw [if_neg hone, must_bind (h.ends hd)]
        refine ⟨_, B, fl, live, ?_, h.lower hd hone, Finset.Subset.refl _, fun _ he _ => he, ?_⟩
        · split <;> rfl
        · split
          next hstuck => exact h.spares_use hd hstuck _
          next => exact .refl r live raw

end Lose

end Vere.Mem
