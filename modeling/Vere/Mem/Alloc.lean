import Vere.Lib.Reach
import Vere.Mem.Free
import Vere.Mem.Grab

/-!
# Vere.Mem.Alloc

The allocator over a whole run: any sequence of `_rl_bloq_grab` and `_rl_bloq_free` on a
fresh rail, with frees only of blocks that were handed out and not freed since.

`Sound` is the invariant of the heap as a reader of `f/rail.c` would put it, with the boxes
as a list in address order. It holds in every state of every run in which no grab wraps
(`heap_sound`). A grab that asks for nearly `2 ^ 32` words does wrap: its request passes
`u2_rl_open`, and the hat comes down instead of going up (`heap_unsound`).
-/

namespace Vere.Mem

open Vere.Lib

/-- A rail, and the blocks handed out and not freed since: where the data is, and how many
words were asked for. -/
structure Arena where
  rail : Rail
  live : List (Nat × Nat)

/-- What the users of the allocator do. -/
inductive Op
  | grab (len : Nat)
  | free (nov : Nat)
  deriving Repr, DecidableEq

/-- One call. A call that does not return has no state after it. -/
def step : Op → Arena → Option Arena
  | .grab len, s =>
    match bloqGrab s.rail len with
    | .ok (r, nov) => some ⟨r, (nov, len) :: s.live⟩
    | .error _ => none
  | .free nov, s =>
    match release s.rail (nov - 2) with
    | .ok r => some ⟨r, s.live.filter (·.1 ≠ nov)⟩
    | .error _ => none

/-- The length of a grab is a word, and only a live block is freed. -/
def Legal (s : Arena) : Op → Prop
  | .grab len => len < 2 ^ 32
  | .free nov => nov ∈ s.live.map (·.1)

/-- The call is no grab that wraps. -/
def Fits (s : Arena) : Op → Prop
  | .grab len => ¬ Wraps s.rail len
  | .free _ => True

/-- A rail with no boxes yet. -/
structure Fresh (r : Rail) : Prop where
  rock : r.hip = .rock
  hat : r.hat = r.rut + 32
  lt : r.hat < 2 ^ 32
  empty : ∀ i < 28, r.loom (r.rut + i) = 0

/-- The invariant of the allocator: the boxes `bs`, given by address and size in address
order, and the free lists `fl`. -/
structure Sound (s : Arena) (bs : List (Nat × Nat)) (fl : Nat → List Nat) : Prop where
  /-- the boxes exactly tile the region from the end of the soup to the hat -/
  tiles : Tiles (s.rail.rut + 32) bs s.rail.hat
  /-- a box has its size at both ends, and is no smaller than the smallest one -/
  tags : ∀ b ∈ bs, 5 ≤ b.2 ∧ s.rail.loom b.1 = b.2 ∧ s.rail.loom (b.1 + b.2 - 1) = b.2
  /-- the free lists are linked forward and back -/
  links : ∀ i < 28, (fl i).Nodup ∧ Links 0 (fun x => s.rail.loom (x + 2))
    (fun x => s.rail.loom (x + 3)) 0 (s.rail.loom (s.rail.rut + i)) (fl i)
  /-- a list holds exactly the boxes with a zero use count and a size of its class -/
  listed : ∀ i < 28, ∀ a, a ∈ fl i ↔
    ∃ siz, (a, siz) ∈ bs ∧ s.rail.loom (a + 1) = 0 ∧ freeSelect siz = i
  /-- of two neighbours one is in use -/
  adjacent : ∀ ps b c qs, bs = ps ++ b :: c :: qs →
    s.rail.loom (b.1 + 1) ≠ 0 ∨ s.rail.loom (c.1 + 1) ≠ 0
  /-- and so is the last box -/
  last : ∀ ps b, bs = ps ++ [b] → s.rail.loom (b.1 + 1) ≠ 0
  /-- the boxes in use are the live blocks -/
  live : ∀ b ∈ bs, s.rail.loom (b.1 + 1) ≠ 0 ↔ b.1 + 2 ∈ s.live.map (·.1)
  /-- a live block is the data of a box that holds what was asked for -/
  room : ∀ x ∈ s.live, ∃ b ∈ bs, x.1 = b.1 + 2 ∧ x.2 + 3 ≤ b.2
  /-- and no two of them share a word -/
  disjoint : s.live.Pairwise fun x y => x.1 + x.2 ≤ y.1 ∨ y.1 + y.2 ≤ x.1

/-! ## The invariant of a run -/

/-- The heap of an arena, with its live blocks. -/
structure Arena.Ok (s : Arena) (B : Finset Nat) (fl : Nat → List Nat) : Prop where
  rock : s.rail.hip = .rock
  heap : Heap s.rail.loom s.rail.rut s.rail.hat B fl ∅
  live : ∀ {a}, Live s.rail.loom B a ↔ a + 2 ∈ s.live.map (·.1)
  room : ∀ {x}, x ∈ s.live → ∃ a ∈ B, x.1 = a + 2 ∧ x.2 + 3 ≤ s.rail.loom a
  nodup : (s.live.map (·.1)).Nodup

variable {s s' : Arena} {r r' : Rail} {B : Finset Nat} {fl : Nat → List Nat}

theorem Fresh.heap (h : Fresh r) : Heap r.loom r.rut r.hat ∅ (fun _ => []) ∅ := by
  constructor
  case hat_lt => exact h.lt
  case tiling =>
    rw [h.hat]
    exact Tiling.empty _ _
  case lists =>
    refine ⟨fun hi => h.empty _ hi, fun _ => List.nodup_nil, ?_⟩
    intro i j x _ _ hx
    exact absurd hx List.not_mem_nil
  all_goals simp

theorem Fresh.ok (h : Fresh r) : Arena.Ok ⟨r, []⟩ ∅ (fun _ => []) where
  rock := h.rock
  heap := h.heap
  live := by simp [Live]
  room := by simp
  nodup := List.nodup_nil

theorem Arena.Ok.grab (h : s.Ok B fl) {len nov : Nat} (hlen : len < 2 ^ 32)
    (hfits : ¬ Wraps s.rail len) (hrun : bloqGrab s.rail len = .ok (r', nov)) :
    ∃ B' fl', Arena.Ok ⟨r', (nov, len) :: s.live⟩ B' fl' := by
  obtain ⟨b, B', fl', rfl, hg⟩ := grab_ok h.heap h.rock hlen hfits hrun
  obtain ⟨hat', m', rfl, -⟩ := hg.rail
  refine ⟨B', fl', h.rock, hg.heap, ?_, ?_, ?_⟩
  · intro a
    simp only [List.map_cons, List.mem_cons, Nat.add_left_inj]
    rw [← h.live]
    constructor
    · exact hg.back
    · rintro (rfl | ha)
      · exact ⟨hg.mem, fun hz => absurd (hg.use.symm.trans hz) (by decide)⟩
      · exact (hg.live ha).1
  · intro x hx
    rcases List.mem_cons.mp hx with rfl | hx
    · exact ⟨b, hg.mem, rfl, hg.room⟩
    · obtain ⟨a, ha, hxa, hroom⟩ := h.room hx
      have hlive : Live s.rail.loom B a :=
        h.live.mpr (List.mem_map.mpr ⟨x, hx, hxa⟩)
      obtain ⟨hlive', hw⟩ := hg.live hlive
      have hmin := h.heap.min ha
      exact ⟨a, hlive'.1, hxa, by rw [hw a le_rfl (by omega)]; exact hroom⟩
  · refine List.nodup_cons.mpr ⟨fun hm => ?_, h.nodup⟩
    exact hg.fresh (h.live.mpr hm)

/-- A block that is released lies on the beam of its rail. -/
theorem release_beam {b : Nat} (hrun : release r b = .ok r') : rayA b = rayA r.rut := by
  unfold release bloqFree at hrun
  simp only [must_bind_ok] at hrun
  exact hrun.2.2.1

theorem Arena.Ok.free (h : s.Ok B fl) {nov : Nat} (hnov : nov ∈ s.live.map (·.1))
    (hrun : release s.rail (nov - 2) = .ok r') :
    ∃ B' fl', Arena.Ok ⟨r', s.live.filter (·.1 ≠ nov)⟩ B' fl' := by
  obtain ⟨x, hx, rfl⟩ := List.mem_map.mp hnov
  obtain ⟨b, hb, hxb, -⟩ := h.room hx
  rw [hxb, Nat.add_sub_cancel] at hrun
  have hlive : Live s.rail.loom B b := h.live.mpr (hxb ▸ hnov)
  obtain ⟨r₁, B', fl', hrun', hrel⟩ := release_ok h.heap h.rock hlive (release_beam hrun)
  rw [hrun] at hrun'
  obtain rfl := Except.ok.inj hrun'
  obtain ⟨hat', m', rfl, -⟩ := hrel.rail
  refine ⟨B', fl', h.rock, hrel.heap, ?_, ?_, ?_⟩
  · intro a
    have hkeep : Live m' B' a ↔ a ≠ b ∧ Live s.rail.loom B a :=
      ⟨hrel.back, fun ha => (hrel.live ha.1 ha.2).1⟩
    rw [hkeep, h.live, List.mem_map, List.mem_map]
    constructor
    · rintro ⟨hne, y, hy, hya⟩
      exact ⟨y, List.mem_filter.mpr ⟨hy, by simp; omega⟩, hya⟩
    · rintro ⟨y, hy, hya⟩
      obtain ⟨hy, hne⟩ := List.mem_filter.mp hy
      refine ⟨?_, y, hy, hya⟩
      rintro rfl
      simp [hxb, hya] at hne
  · intro y hy
    obtain ⟨hy, hne⟩ := List.mem_filter.mp hy
    obtain ⟨a, ha, hya, hroom⟩ := h.room hy
    have hmin := h.heap.min ha
    have hab : a ≠ b := by
      rintro rfl
      simp [hxb, hya] at hne
    obtain ⟨hla, hw⟩ := hrel.live hab (h.live.mpr (List.mem_map.mpr ⟨y, hy, hya⟩))
    exact ⟨a, hla.1, hya, hroom.trans_eq (hw a le_rfl (by omega)).symm⟩
  · exact (List.Sublist.map _ List.filter_sublist).nodup h.nodup

/-- Every call keeps the invariant, unless it is a grab that wraps. -/
theorem Arena.Ok.step {op : Op} (h : ∃ B fl, s.Ok B fl) (hlegal : Legal s op) (hfits : Fits s op)
    (hstep : step op s = some s') : ∃ B fl, s'.Ok B fl := by
  obtain ⟨B, fl, h⟩ := h
  cases op with
  | grab len =>
    cases hrun : bloqGrab s.rail len with
    | error e => simp [Mem.step, hrun] at hstep
    | ok y =>
      obtain ⟨r', nov⟩ := y
      simp only [Mem.step, hrun, Option.some.injEq] at hstep
      subst hstep
      exact h.grab hlegal hfits hrun
  | free nov =>
    cases hrun : release s.rail (nov - 2) with
    | error e => simp [Mem.step, hrun] at hstep
    | ok r' =>
      simp only [Mem.step, hrun, Option.some.injEq] at hstep
      subst hstep
      exact h.free hlegal hrun

/-! ## The invariant in address order -/

theorem Arena.Ok.sound (h : s.Ok B fl) : ∃ bs, Sound s bs fl := by
  obtain ⟨bs, hbs, hmem⟩ := h.heap.tiling.tiles
  have hbox : ∀ {a siz}, (a, siz) ∈ bs ↔ a ∈ B ∧ siz = s.rail.loom a := fun {a siz} => hmem (a, siz)
  refine ⟨bs, hbs, ?_, ?_, ?_, ?_, ?_, ?_, ?_, ?_⟩
  · rintro ⟨a, siz⟩ hb
    obtain ⟨ha, rfl⟩ := hbox.mp hb
    exact ⟨h.heap.min ha, rfl, h.heap.foot ha⟩
  · exact fun i hi => ⟨h.heap.lists.nodup hi, h.heap.lists.links hi⟩
  · intro i hi a
    rw [h.heap.listed hi]
    constructor
    · rintro ⟨ha, -, hu, hsel⟩
      exact ⟨_, hbox.mpr ⟨ha, rfl⟩, hu, hsel⟩
    · rintro ⟨siz, hb, hu, hsel⟩
      obtain ⟨ha, rfl⟩ := hbox.mp hb
      exact ⟨ha, by simp, hu, hsel⟩
  · rintro ps ⟨b, t⟩ ⟨c, u⟩ qs rfl
    obtain ⟨hb, rfl⟩ := hbox.mp (show (b, t) ∈ ps ++ (b, t) :: (c, u) :: qs by simp)
    obtain ⟨hc, -⟩ := hbox.mp (show (c, u) ∈ ps ++ (b, s.rail.loom b) :: (c, u) :: qs by simp)
    obtain rfl := hbs.adjacent
    exact h.heap.adj hb hc (by simp) (by simp)
  · rintro ps ⟨b, t⟩ rfl
    obtain ⟨hb, rfl⟩ := hbox.mp (show (b, t) ∈ ps ++ [(b, t)] by simp)
    exact h.heap.last hb (by simp) hbs.last
  · rintro ⟨a, siz⟩ hb
    obtain ⟨ha, -⟩ := hbox.mp hb
    rw [← h.live]
    exact ⟨fun hu => ⟨ha, hu⟩, fun hl => hl.2⟩
  · intro x hx
    obtain ⟨a, ha, hxa, hroom⟩ := h.room hx
    exact ⟨(a, s.rail.loom a), hbox.mpr ⟨ha, rfl⟩, hxa, hroom⟩
  · have hpair : s.live.Pairwise fun x y => x.1 ≠ y.1 := List.pairwise_map.mp h.nodup
    refine hpair.imp_of_mem fun {x y} hx hy hne => ?_
    obtain ⟨a, ha, hxa, hxroom⟩ := h.room hx
    obtain ⟨b, hb, hyb, hyroom⟩ := h.room hy
    rcases h.heap.tiling.sides ha hb with he | he | he <;> omega

/-! ## Every run -/

/-- In every state that a fresh rail reaches by grabs and frees, frees only of live
blocks and no grab that wraps, the heap is sound. -/
theorem heap_sound (hr : Fresh r)
    (hs : Reachable ⟨r, []⟩ step (fun s op => Legal s op ∧ Fits s op) s) :
    ∃ bs fl, Sound s bs fl := by
  have hok : ∃ B fl, s.Ok B fl := by
    refine hs.invariant (P := fun s => ∃ B fl, s.Ok B fl) ⟨∅, _, hr.ok⟩ fun s op s' h hop hstep => ?_
    exact Arena.Ok.step h hop.1 hop.2 hstep
  obtain ⟨B, fl, h⟩ := hok
  obtain ⟨bs, hsound⟩ := h.sound
  exact ⟨bs, fl, hsound⟩

theorem rlBoot_fresh (mem : Bool) (loom : Loom) : Fresh (rlBoot .rock mem loom) where
  rock := rfl
  hat := rfl
  lt := show 5 + 32 < 2 ^ 32 by decide
  empty i hi := by
    have h1 : (5 + i : Nat) ≠ 5 + 28 := by omega
    have h2 : (5 + i : Nat) ≠ 5 + 31 := by omega
    show Loom.set (Loom.set _ (5 + 31) 0) (5 + 28) (2 ^ 31) (5 + i) = 0
    rw [Loom.set_ne h1, Loom.set_ne h2]
    exact if_pos (show 5 ≤ 5 + i ∧ 5 + i < 5 + 28 by omega)

instance (r : Rail) (len : Nat) : Decidable (Wraps r len) :=
  inferInstanceAs (Decidable (_ ∧ _ ∧ _))

instance (s : Arena) : (op : Op) → Decidable (Legal s op)
  | .grab len => inferInstanceAs (Decidable (len < 2 ^ 32))
  | .free nov => inferInstanceAs (Decidable (nov ∈ s.live.map (·.1)))

instance (s : Arena) : (op : Op) → Decidable (Fits s op)
  | .grab len => inferInstanceAs (Decidable (¬ Wraps s.rail len))
  | .free _ => inferInstanceAs (Decidable True)

/-- A loom of zeroes with one rail, three blocks grabbed, the second freed and half of it
grabbed again. -/
theorem heap_sound_boot :
    ∃ s, Reachable ⟨rlBoot .rock false fun _ => 0, []⟩ step (fun s op => Legal s op ∧ Fits s op) s ∧
      s.live = [(45, 8), (68, 3), (39, 3)] ∧ ∃ bs fl, Sound s bs fl := by
  have hrun : (runs (guarded (fun s op => decide (Legal s op ∧ Fits s op)) step)
      [.grab 3, .grab 20, .grab 3, .free 45, .grab 8] ⟨rlBoot .rock false fun _ => 0, []⟩).any
      (fun s => decide (s.live = [(45, 8), (68, 3), (39, 3)])) = true := by
    decide
  obtain ⟨s, hs, htest⟩ := Reachable.of_guarded (fun _ _ => of_decide_eq_true) _ hrun
  exact ⟨s, hs, of_decide_eq_true htest, heap_sound (rlBoot_fresh _ _) hs⟩

/-! ## A grab that wraps -/

/-- A grab that wraps hands out a block above the hat. -/
theorem wraps_unsound {len : Nat} (h : s.Ok B fl) (hhat : s.rail.hat < 2 ^ 31)
    (hwrap : Wraps s.rail len) :
    ∃ s', step (.grab len) s = some s' ∧ ¬ ∃ bs fl, Sound s' bs fl := by
  obtain ⟨hlt, hopen, hge⟩ := hwrap
  have hsize : grabSize len = len + 3 := Nat.mod_eq_of_lt hlt
  rcases bloqGrab_cases h.heap h.rock len with heq | ⟨q, i, -, hi, hq, -⟩
  · have hmake : ∃ m', bloqMake s.rail.loom s.rail.hat (len + 3) 1 = .ok m' :=
      ⟨_, must_bind (by omega) _⟩
    obtain ⟨m', hmake⟩ := hmake
    have hrun : bloqGrab s.rail len = .ok
        ({ s.rail with
            hat := s.rail.hat + (len + 3) - 2 ^ 32
            loom := liveGrab s.rail.rut m' (len + 3) }, s.rail.hat + 2) := by
      have hnew : add32 s.rail.hat (len + 3) = s.rail.hat + (len + 3) - 2 ^ 32 := by
        unfold add32
        omega
      rw [heq, hsize]
      unfold chip
      rw [must_bind hopen, hmake, hnew, add32_eq (by omega)]
      rfl
    refine ⟨_, by simp only [step, hrun]; rfl, ?_⟩
    rintro ⟨bs, fl', hsound⟩
    obtain ⟨b, hb, hdata, hroom⟩ := hsound.room _ List.mem_cons_self
    have hend := hsound.tiles.mem_le hb
    simp only at hdata hroom hend
    omega
  · -- no free box is that large
    have hB := ((h.heap.listed hi).mp hq.mem).1
    have hroom := hq.room
    have hhigh := h.heap.tiling.high hB
    omega

/-- The allocator does not keep its heap sound: on a rail just booted, a grab of
`2 ^ 32 - 10` words passes `u2_rl_open` and brings the hat down from 37 to 30. -/
theorem heap_unsound :
    ¬ ∀ r, Fresh r → ∀ s, Reachable ⟨r, []⟩ step Legal s → ∃ bs fl, Sound s bs fl := by
  intro hall
  have hfresh := rlBoot_fresh false fun _ => 0
  obtain ⟨s', hstep, hnot⟩ := wraps_unsound hfresh.ok (show (37 : Nat) < 2 ^ 31 by decide)
    (show Wraps (rlBoot .rock false fun _ => 0) (2 ^ 32 - 10) by decide)
  have hlegal : Legal ⟨rlBoot .rock false fun _ => 0, []⟩ (.grab (2 ^ 32 - 10)) := by decide
  exact hnot (hall _ hfresh s' (.step .init hlegal hstep))

end Vere.Mem
