import Vere.Lib.Tiles
import Vere.Mem.Lists

/-!
# Vere.Mem.Heap

The invariant of the allocator, and what each edit of the heap does to it.

`Heap m rut hat B fl X` says that the loom `m` holds a heap between `rut` and `hat`:
the boxes at `B` tile the region, each with its size at both ends; the free lists hold
exactly the boxes with a zero use count; and no two neighbours are free, nor is the last
box. The boxes of `X` are *loose*: their use count is zero, but they are on no list and
may lie next to a free box. A loose box only exists while a block is being released or
carved.

* `Heap.frame`: writing data of live boxes, or their use counts
* `Heap.detach`, `Heap.attach`: a box leaves its free list, or joins one
* `Heap.merge`: two loose neighbours become one box
* `Heap.retract`, `Heap.extend`: the hat moves down, or up

`Keeps` is the frame of all of them: the live boxes stay where they are, with every
word they hold.
-/

namespace Vere.Mem

open Vere.Lib

/-- The heap between `rut` and `hat`. -/
structure Heap (m : Loom) (rut hat : Nat) (B : Finset Nat) (fl : Nat → List Nat)
    (X : Finset Nat) : Prop where
  hat_lt : hat < 2 ^ 32
  tiling : Tiling m (rut + 32) hat B
  min : ∀ {a}, a ∈ B → 5 ≤ m a
  foot : ∀ {a}, a ∈ B → m (a + m a - 1) = m a
  loose : ∀ {a}, a ∈ X → a ∈ B ∧ m (a + 1) = 0
  lists : Lists m rut fl
  listed : ∀ {i a}, i < 28 →
    (a ∈ fl i ↔ a ∈ B ∧ a ∉ X ∧ m (a + 1) = 0 ∧ freeSelect (m a) = i)
  adj : ∀ {a}, a ∈ B → a + m a ∈ B → a ∉ X → a + m a ∉ X →
    m (a + 1) ≠ 0 ∨ m (a + m a + 1) ≠ 0
  last : ∀ {a}, a ∈ B → a ∉ X → a + m a = hat → m (a + 1) ≠ 0

/-- The box is in use. -/
def Live (m : Loom) (B : Finset Nat) (a : Nat) : Prop := a ∈ B ∧ m (a + 1) ≠ 0

/-- The live boxes are the same before and after, with the same words, and nothing
changes outside the heap. -/
structure Keeps (rut hat : Nat) (m : Loom) (B : Finset Nat) (m' : Loom) (B' : Finset Nat) :
    Prop where
  live : ∀ {a}, Live m B a → Live m' B' a ∧ ∀ w, a ≤ w → w < a + m a → m' w = m w
  back : ∀ {a}, Live m' B' a → Live m B a
  out : ∀ {w}, w < rut ∨ hat ≤ w → m' w = m w

variable {m m' m'' : Loom} {rut hat a b c w s u : Nat} {B B' B'' X X' : Finset Nat}
  {fl : Nat → List Nat}

theorem Keeps.refl (rut hat : Nat) (m : Loom) (B : Finset Nat) : Keeps rut hat m B m B :=
  ⟨fun h => ⟨h, fun _ _ _ => rfl⟩, fun h => h, fun _ => rfl⟩

theorem Keeps.trans (h : Keeps rut hat m B m' B') (h' : Keeps rut hat m' B' m'' B'') :
    Keeps rut hat m B m'' B'' where
  live {a} ha := by
    obtain ⟨ha', hw⟩ := h.live ha
    obtain ⟨ha'', hw'⟩ := h'.live ha'
    refine ⟨ha'', fun w hlo hhi => ?_⟩
    have hsize : m' a = m a := hw a le_rfl (by omega)
    rw [hw' w hlo (by rw [hsize]; exact hhi), hw w hlo hhi]
  back ha := h.back (h'.back ha)
  out hw := (h'.out hw).trans (h.out hw)

namespace Heap

theorem lt (h : Heap m rut hat B fl X) (ha : a ∈ B) : a + m a < 2 ^ 32 :=
  (h.tiling.high ha).trans_lt h.hat_lt

theorem low (h : Heap m rut hat B fl X) (ha : a ∈ B) : rut + 32 ≤ a := h.tiling.low ha

theorem onList_iff (h : Heap m rut hat B fl X) :
    OnList fl a ↔ a ∈ B ∧ a ∉ X ∧ m (a + 1) = 0 := by
  constructor
  · rintro ⟨i, hi, ha⟩
    obtain ⟨hB, hX, hu, -⟩ := (h.listed hi).mp ha
    exact ⟨hB, hX, hu⟩
  · rintro ⟨hB, hX, hu⟩
    exact ⟨_, freeSelect_lt (m a), (h.listed (freeSelect_lt _)).mpr ⟨hB, hX, hu, rfl⟩⟩

/-- The boxes of a heap are far enough apart for their links. -/
theorem spread (h : Heap m rut hat B fl X) : Spread rut (· ∈ B) where
  low := h.low
  apart {x y} hx hy := by
    have := h.min hx
    have := h.min hy
    rcases h.tiling.sides hx hy with he | he | he
    · exact .inl he
    · exact .inr (.inl (by omega))
    · exact .inr (.inr (by omega))

/-- A word of a box survives the editing of links, unless it is itself a link. -/
theorem relinked_word (h : Heap m rut hat B fl X) {S : Nat → Prop} (hr : Relinked rut S m m')
    (hS : ∀ x, S x → x ∈ B) (ha : a ∈ B) (hlo : a ≤ w) (hhi : w < a + m a)
    (hlink : S a → w ≠ a + 2 ∧ w ≠ a + 3) : m' w = m w := by
  have hlow := h.low ha
  refine hr w (fun i hi => by omega) fun x hx => ?_
  have hmin := h.min (hS x hx)
  rcases h.tiling.sides (hS x hx) ha with he | he | he
  · exact he ▸ hlink (he ▸ hx)
  · omega
  · omega

/-- The size and the use count of a box survive the editing of links. -/
theorem relinked_tags (h : Heap m rut hat B fl X) {S : Nat → Prop} (hr : Relinked rut S m m')
    (hS : ∀ x, S x → x ∈ B) (ha : a ∈ B) :
    m' a = m a ∧ m' (a + 1) = m (a + 1) ∧ m' (a + m a - 1) = m (a + m a - 1) := by
  have hmin := h.min ha
  refine ⟨?_, ?_, ?_⟩ <;>
    exact h.relinked_word hr hS ha (by omega) (by omega) fun _ => by omega

/-- Editing links keeps the live boxes. -/
theorem relinked_keeps (h : Heap m rut hat B fl X) {S : Nat → Prop} (hr : Relinked rut S m m')
    (hS : ∀ x, S x → x ∈ B ∧ m (x + 1) = 0) : Keeps rut hat m B m' B where
  live {a} ha := by
    have hS' : ∀ x, S x → x ∈ B := fun x hx => (hS x hx).1
    obtain ⟨-, hu, -⟩ := h.relinked_tags hr hS' ha.1
    refine ⟨⟨ha.1, hu ▸ ha.2⟩, fun w hlo hhi => ?_⟩
    exact h.relinked_word hr hS' ha.1 hlo hhi fun hx => absurd (hS a hx).2 ha.2
  back {a} ha := by
    obtain ⟨-, hu, -⟩ := h.relinked_tags hr (fun x hx => (hS x hx).1) ha.1
    exact ⟨ha.1, hu ▸ ha.2⟩
  out {w} hw := by
    have hlo := h.tiling.lo_le
    refine hr w (fun i hi => by omega) fun x hx => ?_
    have hx' := (hS x hx).1
    have := h.low hx'
    have := h.min hx'
    have := h.tiling.high hx'
    omega

/-- A heap whose boxes and links are as before, with other use counts and other data. The
box that stops being loose, or becomes so, is told by the change of `X`. -/
theorem frame (h : Heap m rut hat B fl X) (hhead : ∀ i < 28, m' (rut + i) = m (rut + i))
    (hsiz : ∀ {a}, a ∈ B → m' a = m a)
    (hfoot : ∀ {a}, a ∈ B → m' (a + m a - 1) = m (a + m a - 1))
    (hlink : ∀ {a}, OnList fl a → m' (a + 2) = m (a + 2) ∧ m' (a + 3) = m (a + 3))
    (huse : ∀ {a}, a ∈ B → (a ∉ X' ∧ m' (a + 1) = 0 ↔ a ∉ X ∧ m (a + 1) = 0))
    (hloose : ∀ {a}, a ∈ X' → a ∈ B ∧ m' (a + 1) = 0) : Heap m' rut hat B fl X' where
  hat_lt := h.hat_lt
  tiling := h.tiling.congr fun a ha => hsiz ha
  min ha := by
    rw [hsiz ha]
    exact h.min ha
  foot ha := by
    rw [hsiz ha, hfoot ha]
    exact h.foot ha
  loose := hloose
  lists := h.lists.congr hhead fun x hx => hlink hx
  listed {i a} hi := by
    rw [h.listed hi]
    constructor
    · rintro ⟨ha, hX, hu, hs⟩
      obtain ⟨hX', hu'⟩ := (huse ha).mpr ⟨hX, hu⟩
      exact ⟨ha, hX', hu', by rw [hsiz ha]; exact hs⟩
    · rintro ⟨ha, hX, hu, hs⟩
      obtain ⟨hX', hu'⟩ := (huse ha).mp ⟨hX, hu⟩
      exact ⟨ha, hX', hu', by rw [← hsiz ha]; exact hs⟩
  adj {a} ha hn hX hX' := by
    rw [hsiz ha] at hn hX' ⊢
    by_contra hc
    rw [not_or, not_not, not_not] at hc
    obtain ⟨h1, h2⟩ := (huse ha).mp ⟨hX, hc.1⟩
    obtain ⟨h3, h4⟩ := (huse hn).mp ⟨hX', hc.2⟩
    exact (h.adj ha hn h1 h3).elim (· h2) (· h4)
  last {a} ha hX hl hu := by
    rw [hsiz ha] at hl
    obtain ⟨h1, h2⟩ := (huse ha).mp ⟨hX, hu⟩
    exact h.last ha h1 hl h2

/-- The use count of a box set to `u`, with the change of `X` that goes with it. -/
theorem setUse (h : Heap m rut hat B fl X) (ha : a ∈ B)
    (hX : ∀ {c}, c ≠ a → (c ∈ X' ↔ c ∈ X)) (huse : a ∉ X' ∧ u = 0 ↔ a ∉ X ∧ m (a + 1) = 0)
    (hloose : a ∈ X' → u = 0) : Heap (m.set (a + 1) u) rut hat B fl X' := by
  have hlow := h.low ha
  -- no other word of a box is a use count
  have hfar : ∀ {c k}, c ∈ B → k < m c → k ≠ 1 → c + k ≠ a + 1 := by
    intro c k hc hk hk1 he
    have := h.min ha
    rcases h.tiling.sides hc ha with he' | he' | he' <;> omega
  refine h.frame (fun i hi => Loom.set_ne (by omega)) ?_ ?_ ?_ ?_ ?_
  · intro c hc
    have := h.min hc
    exact Loom.set_ne (@hfar c 0 hc (by omega) (by omega))
  · intro c hc
    have := h.min hc
    rw [show c + m c - 1 = c + (m c - 1) by omega]
    exact Loom.set_ne (hfar hc (by omega) (by omega))
  · intro c hc
    have hcB := (h.onList_iff.mp hc).1
    have := h.min hcB
    exact ⟨Loom.set_ne (hfar hcB (by omega) (by omega)),
      Loom.set_ne (hfar hcB (by omega) (by omega))⟩
  · intro c hc
    by_cases he : c = a
    · subst he
      rw [Loom.set_same]
      exact huse
    · rw [Loom.set_ne (by omega), hX he]
  · intro c hc
    by_cases he : c = a
    · subst he
      rw [Loom.set_same]
      exact ⟨ha, hloose hc⟩
    · rw [Loom.set_ne (by omega)]
      exact h.loose ((hX he).mp hc)

/-! ## Leaving and joining a free list -/

/-- A heap with other links and other loose boxes. -/
theorem relist (h : Heap m rut hat B fl X) {S : Nat → Prop} (hr : Relinked rut S m m')
    (hS : ∀ x, S x → x ∈ B) {fl' : Nat → List Nat} (hl : Lists m' rut fl')
    (hloose : ∀ {b}, b ∈ X' → b ∈ B ∧ m (b + 1) = 0)
    (hlisted : ∀ {i b}, i < 28 →
      (b ∈ fl' i ↔ b ∈ B ∧ b ∉ X' ∧ m (b + 1) = 0 ∧ freeSelect (m b) = i))
    (hadj : ∀ {b}, b ∈ B → b + m b ∈ B → b ∉ X' → b + m b ∉ X' →
      m (b + 1) ≠ 0 ∨ m (b + m b + 1) ≠ 0)
    (hlast : ∀ {b}, b ∈ B → b ∉ X' → b + m b = hat → m (b + 1) ≠ 0) :
    Heap m' rut hat B fl' X' := by
  have hsiz : ∀ {b}, b ∈ B → m' b = m b := fun hb => (h.relinked_tags hr hS hb).1
  have huse : ∀ {b}, b ∈ B → m' (b + 1) = m (b + 1) := fun hb => (h.relinked_tags hr hS hb).2.1
  constructor
  case hat_lt => exact h.hat_lt
  case tiling => exact h.tiling.congr fun b hb => hsiz hb
  case min =>
    intro b hb
    rw [hsiz hb]
    exact h.min hb
  case foot =>
    intro b hb
    rw [hsiz hb, (h.relinked_tags hr hS hb).2.2]
    exact h.foot hb
  case loose =>
    intro b hb
    rw [huse (hloose hb).1]
    exact hloose hb
  case lists => exact hl
  case listed =>
    intro i b hi
    rw [hlisted hi]
    refine and_congr_right fun hb => ?_
    rw [huse hb, hsiz hb]
  case adj =>
    intro b hb hn hbX hnX
    rw [hsiz hb] at hn hnX ⊢
    rw [huse hb, huse hn]
    exact hadj hb hn hbX hnX
  case last =>
    intro b hb hbX hl
    rw [hsiz hb] at hl
    rw [huse hb]
    exact hlast hb hbX hl

/-- A free box taken off its list is loose. -/
theorem detach (h : Heap m rut hat B fl X) (ha : a ∈ B) (hX : a ∉ X) (hu : m (a + 1) = 0) :
    Heap (bloqDetach rut m a) rut hat B
        (Function.update fl (freeSelect (m a)) ((fl (freeSelect (m a))).erase a)) (insert a X) ∧
      Keeps rut hat m B (bloqDetach rut m a) B ∧ ∀ {b}, b ∈ B → bloqDetach rut m a b = m b := by
  have hmem : a ∈ fl (freeSelect (m a)) :=
    (h.listed (freeSelect_lt _)).mpr ⟨ha, hX, hu, rfl⟩
  have hS : ∀ x, OnList fl x → x ∈ B := fun x hx => (h.onList_iff.mp hx).1
  obtain ⟨hl, hr⟩ := h.lists.detach (h.spread.mono hS) hmem
  refine ⟨h.relist hr hS hl ?_ ?_ ?_ ?_, ?_, fun hb => (h.relinked_tags hr hS hb).1⟩
  · intro b hb
    rcases Finset.mem_insert.mp hb with rfl | hb
    · exact ⟨ha, hu⟩
    · exact h.loose hb
  · intro i b hi
    have hiff : b ∈ Function.update fl (freeSelect (m a)) ((fl (freeSelect (m a))).erase a) i ↔
        b ≠ a ∧ b ∈ fl i := by
      by_cases he : i = freeSelect (m a)
      · rw [he, Function.update_self, (h.lists.nodup (freeSelect_lt _)).mem_erase_iff]
      · rw [Function.update_of_ne he]
        refine ⟨fun hb => ⟨?_, hb⟩, fun hb => hb.2⟩
        rintro rfl
        exact he (h.lists.disj hi (freeSelect_lt _) hb hmem)
    rw [hiff, h.listed hi, Finset.mem_insert, not_or]
    tauto
  · intro b hb hn hbX hnX
    exact h.adj hb hn (fun hc => hbX (Finset.mem_insert_of_mem hc))
      (fun hc => hnX (Finset.mem_insert_of_mem hc))
  · intro b hb hbX
    exact h.last hb fun hc => hbX (Finset.mem_insert_of_mem hc)
  · exact h.relinked_keeps hr fun x hx => ⟨hS x hx, (h.onList_iff.mp hx).2.2⟩

/-- A loose box whose neighbours are in use joins its free list. -/
theorem attach (h : Heap m rut hat B fl X) (ha : a ∈ X)
    (hprev : ∀ {b}, b ∈ B → b + m b = a → m (b + 1) ≠ 0)
    (hnext : a + m a ∈ B ∧ m (a + m a + 1) ≠ 0) :
    ∃ m', bloqAttach rut m a = .ok m' ∧
      Heap m' rut hat B
        (Function.update fl (freeSelect (m a)) (a :: fl (freeSelect (m a)))) (X.erase a) ∧
      Keeps rut hat m B m' B := by
  obtain ⟨haB, hu⟩ := h.loose ha
  have hfree : ∀ x, x = a ∨ OnList fl x → x ∈ B ∧ m (x + 1) = 0 := by
    rintro x (rfl | hx)
    · exact ⟨haB, hu⟩
    · exact ⟨(h.onList_iff.mp hx).1, (h.onList_iff.mp hx).2.2⟩
  have hS : ∀ x, x = a ∨ OnList fl x → x ∈ B := fun x hx => (hfree x hx).1
  obtain ⟨m', hrun, hl, hr⟩ := h.lists.attach (h.spread.mono hS)
    fun hc => (h.onList_iff.mp hc).2.1 ha
  -- the only box that is no longer loose is `a`
  have hX : ∀ {b}, b ≠ a → b ∉ X.erase a → b ∉ X := fun hne hb hc =>
    hb (Finset.mem_erase.mpr ⟨hne, hc⟩)
  refine ⟨m', hrun, h.relist hr hS hl ?_ ?_ ?_ ?_, h.relinked_keeps hr hfree⟩
  · exact fun hb => h.loose (Finset.mem_of_mem_erase hb)
  · intro i b hi
    have hiff : b ∈ Function.update fl (freeSelect (m a)) (a :: fl (freeSelect (m a))) i ↔
        (b = a ∧ freeSelect (m a) = i) ∨ b ∈ fl i := by
      by_cases he : i = freeSelect (m a)
      · rw [he, Function.update_self, List.mem_cons]
        simp
      · rw [Function.update_of_ne he]
        simp [Ne.symm he]
    rw [hiff, h.listed hi]
    constructor
    · rintro (⟨rfl, hs⟩ | ⟨hB, hbX, hb0, hs⟩)
      · exact ⟨haB, Finset.notMem_erase _ _, hu, hs⟩
      · exact ⟨hB, fun hc => hbX (Finset.mem_of_mem_erase hc), hb0, hs⟩
    · rintro ⟨hB, hbX, hb0, hs⟩
      by_cases he : b = a
      · exact .inl ⟨he, he ▸ hs⟩
      · exact .inr ⟨hB, hX he hbX, hb0, hs⟩
  · intro b hb hn hbX hnX
    by_cases he : b = a
    · exact .inr (he ▸ hnext.2)
    · by_cases he' : b + m b = a
      · exact .inl (hprev hb he')
      · exact h.adj hb hn (hX he hbX) (hX he' hnX)
  · intro b hb hbX hend
    by_cases he : b = a
    · subst he
      exact absurd (hend ▸ hnext.1) h.tiling.hi_notMem
    · exact h.last hb (hX he hbX) hend

end Heap

/-! ## Making a box -/

/-- The loom after `bloqMake`. -/
def made (m : Loom) (a s u : Nat) : Loom := fun w =>
  if w = a + s - 1 then s else if w = a + 1 then u else if w = a then s else m w

theorem bloqMake_eq (hs : 5 ≤ s) (hlt : a + s < 2 ^ 32) :
    bloqMake m a s u = .ok (made m a s u) := by
  unfold bloqMake
  rw [must_bind hs, add32_eq (by omega), add32_eq hlt, sub32_eq (by omega) hlt]
  rfl

theorem made_siz (hs : 5 ≤ s) : made m a s u a = s := by
  unfold made
  rw [if_neg (by omega), if_neg (by omega), if_pos rfl]

theorem made_use (hs : 5 ≤ s) : made m a s u (a + 1) = u := by
  unfold made
  rw [if_neg (by omega), if_pos rfl]

theorem made_foot : made m a s u (a + s - 1) = s := if_pos rfl

theorem made_out (hs : 5 ≤ s) (hw : w < a ∨ a + s ≤ w) : made m a s u w = m w := by
  unfold made
  rw [if_neg (by omega), if_neg (by omega), if_neg (by omega)]

namespace Heap

/-- Two loose neighbours made into one loose box. -/
theorem merge (h : Heap m rut hat B fl X) (ha : a ∈ X) (hb : a + m a ∈ X) :
    Heap (made m a (m a + m (a + m a)) 0) rut hat (B.erase (a + m a)) fl (X.erase (a + m a)) ∧
      Keeps rut hat m B (made m a (m a + m (a + m a)) 0) (B.erase (a + m a)) := by
  obtain ⟨haB, hau⟩ := h.loose ha
  obtain ⟨hbB, hbu⟩ := h.loose hb
  have hmina := h.min haB
  have hminb := h.min hbB
  generalize hs : m a + m (a + m a) = s
  have hs5 : 5 ≤ s := by omega
  -- the other boxes lie outside the new one
  have hout : ∀ {c w}, c ∈ B → c ≠ a → c ≠ a + m a → c ≤ w → w < c + m c →
      made m a s 0 w = m w := by
    intro c w hc hne hne' hlo hhi
    refine made_out hs5 ?_
    rcases h.tiling.sides hc haB with he | he | he
    · exact absurd he hne
    · exact .inl (by omega)
    · rcases h.tiling.sides hc hbB with he' | he' | he'
      · exact absurd he' hne'
      · omega
      · exact .inr (by omega)
  have hsiz : ∀ {c}, c ∈ B → c ≠ a → c ≠ a + m a → made m a s 0 c = m c := fun {c} hc hne hne' => by
    have := h.min hc
    exact hout hc hne hne' le_rfl (by omega)
  have huse : ∀ {c}, c ∈ B → c ≠ a → c ≠ a + m a → made m a s 0 (c + 1) = m (c + 1) :=
    fun {c} hc hne hne' => by
      have := h.min hc
      exact hout hc hne hne' (by omega) (by omega)
  have hnotX : ∀ {c}, c ∉ X → c ≠ a ∧ c ≠ a + m a := fun {c} hc =>
    ⟨fun he => hc (he ▸ ha), fun he => hc (he ▸ hb)⟩
  have hX : ∀ {c}, c ≠ a + m a → c ∉ X.erase (a + m a) → c ∉ X := fun hne hc hc' =>
    hc (Finset.mem_erase.mpr ⟨hne, hc'⟩)
  have htil := h.tiling.merge haB hbB (fun c hc => hsiz hc) (by rw [made_siz hs5, ← hs])
  refine ⟨?_, ?_, ?_, ?_⟩
  · constructor
    case hat_lt => exact h.hat_lt
    case tiling => exact htil
    case min =>
      intro c hc
      obtain ⟨hne, hc⟩ := Finset.mem_erase.mp hc
      by_cases he : c = a
      · rw [he, made_siz hs5]
        exact hs5
      · rw [hsiz hc he hne]
        exact h.min hc
    case foot =>
      intro c hc
      obtain ⟨hne, hc⟩ := Finset.mem_erase.mp hc
      by_cases he : c = a
      · rw [he, made_siz hs5, made_foot]
      · have := h.min hc
        rw [hsiz hc he hne, hout hc he hne (by omega) (by omega)]
        exact h.foot hc
    case loose =>
      intro c hc
      obtain ⟨hne, hc⟩ := Finset.mem_erase.mp hc
      obtain ⟨hcB, hcu⟩ := h.loose hc
      refine ⟨Finset.mem_erase.mpr ⟨hne, hcB⟩, ?_⟩
      by_cases he : c = a
      · rw [he, made_use hs5]
      · rw [huse hcB he hne]
        exact hcu
    case lists =>
      refine h.lists.congr (fun i hi => made_out hs5 (.inl ?_)) fun x hx => ?_
      · have := h.low haB
        omega
      · obtain ⟨hxB, hxX, -⟩ := h.onList_iff.mp hx
        obtain ⟨hne, hne'⟩ := hnotX hxX
        have := h.min hxB
        exact ⟨hout hxB hne hne' (by omega) (by omega), hout hxB hne hne' (by omega) (by omega)⟩
    case listed =>
      intro i c hi
      rw [h.listed hi]
      constructor
      · rintro ⟨hc, hcX, hcu, hcs⟩
        obtain ⟨hne, hne'⟩ := hnotX hcX
        refine ⟨Finset.mem_erase.mpr ⟨hne', hc⟩, fun hm => hcX (Finset.mem_of_mem_erase hm), ?_, ?_⟩
        · rw [huse hc hne hne']
          exact hcu
        · rw [hsiz hc hne hne']
          exact hcs
      · rintro ⟨hc, hcX, hcu, hcs⟩
        obtain ⟨hne', hc⟩ := Finset.mem_erase.mp hc
        have hcX' := hX hne' hcX
        obtain ⟨hne, -⟩ := hnotX hcX'
        rw [huse hc hne hne'] at hcu
        rw [hsiz hc hne hne'] at hcs
        exact ⟨hc, hcX', hcu, hcs⟩
    case adj =>
      intro c hc hn hcX hnX
      obtain ⟨hne', hc⟩ := Finset.mem_erase.mp hc
      have hcX' := hX hne' hcX
      obtain ⟨hne, -⟩ := hnotX hcX'
      rw [hsiz hc hne hne'] at hn hnX ⊢
      obtain ⟨hmne', hn⟩ := Finset.mem_erase.mp hn
      have hnX' := hX hmne' hnX
      obtain ⟨hmne, -⟩ := hnotX hnX'
      rw [huse hc hne hne', huse hn hmne hmne']
      exact h.adj hc hn hcX' hnX'
    case last =>
      intro c hc hcX hend
      obtain ⟨hne', hc⟩ := Finset.mem_erase.mp hc
      have hcX' := hX hne' hcX
      obtain ⟨hne, -⟩ := hnotX hcX'
      rw [hsiz hc hne hne'] at hend
      rw [huse hc hne hne']
      exact h.last hc hcX' hend
  · rintro c ⟨hc, hcu⟩
    have hne : c ≠ a := fun he => hcu (he ▸ hau)
    have hne' : c ≠ a + m a := fun he => hcu (he ▸ hbu)
    refine ⟨⟨Finset.mem_erase.mpr ⟨hne', hc⟩, ?_⟩, fun w => hout hc hne hne'⟩
    rw [huse hc hne hne']
    exact hcu
  · rintro c ⟨hc, hcu⟩
    obtain ⟨hne', hc⟩ := Finset.mem_erase.mp hc
    have hne : c ≠ a := by
      rintro rfl
      exact hcu (made_use hs5)
    rw [huse hc hne hne'] at hcu
    exact ⟨hc, hcu⟩
  · intro w hw
    have := h.low haB
    have := h.tiling.high hbB
    exact made_out hs5 (by omega)

/-- The last box, loose, given back to the wilderness. -/
theorem retract (h : Heap m rut hat B fl X) (ha : a ∈ X) (hend : a + m a = hat)
    (hprev : ∀ {b}, b ∈ B → b + m b = a → m (b + 1) ≠ 0) :
    Heap m rut a (B.erase a) fl (X.erase a) ∧ Keeps rut hat m B m (B.erase a) := by
  obtain ⟨haB, hau⟩ := h.loose ha
  have hX : ∀ {c}, c ≠ a → c ∉ X.erase a → c ∉ X := fun hne hc hc' =>
    hc (Finset.mem_erase.mpr ⟨hne, hc'⟩)
  refine ⟨?_, ?_, ?_, ?_⟩
  · constructor
    case hat_lt => exact (h.tiling.lt_hi haB).trans h.hat_lt
    case tiling => exact h.tiling.retract haB hend
    case min => exact fun hc => h.min (Finset.mem_of_mem_erase hc)
    case foot => exact fun hc => h.foot (Finset.mem_of_mem_erase hc)
    case loose =>
      intro c hc
      obtain ⟨hne, hc⟩ := Finset.mem_erase.mp hc
      exact ⟨Finset.mem_erase.mpr ⟨hne, (h.loose hc).1⟩, (h.loose hc).2⟩
    case lists => exact h.lists
    case listed =>
      intro i c hi
      rw [h.listed hi]
      constructor
      · rintro ⟨hc, hcX, hcu, hcs⟩
        have hne : c ≠ a := fun he => hcX (he ▸ ha)
        exact ⟨Finset.mem_erase.mpr ⟨hne, hc⟩, fun hm => hcX (Finset.mem_of_mem_erase hm), hcu, hcs⟩
      · rintro ⟨hc, hcX, hcu, hcs⟩
        obtain ⟨hne, hc⟩ := Finset.mem_erase.mp hc
        exact ⟨hc, hX hne hcX, hcu, hcs⟩
    case adj =>
      intro c hc hn hcX hnX
      obtain ⟨hne, hc⟩ := Finset.mem_erase.mp hc
      obtain ⟨hne', hn⟩ := Finset.mem_erase.mp hn
      exact h.adj hc hn (hX hne hcX) (hX hne' hnX)
    case last =>
      intro c hc _ he
      exact hprev (Finset.mem_of_mem_erase hc) he
  · rintro c ⟨hc, hcu⟩
    exact ⟨⟨Finset.mem_erase.mpr ⟨fun he => hcu (he ▸ hau), hc⟩, hcu⟩, fun _ _ _ => rfl⟩
  · rintro c ⟨hc, hcu⟩
    exact ⟨Finset.mem_of_mem_erase hc, hcu⟩
  · exact fun _ => rfl

/-- A box in use added at the hat. -/
theorem extend (h : Heap m rut hat B fl X) (hs : 5 ≤ s) (hlt : hat + s < 2 ^ 32) :
    Heap (made m hat s 1) rut (hat + s) (insert hat B) fl X := by
  have hout : ∀ {c w}, c ∈ B → w < c + m c → made m hat s 1 w = m w := fun {c w} hc hw => by
    have := h.tiling.high hc
    exact made_out hs (.inl (by omega))
  have hsiz : ∀ {c}, c ∈ B → made m hat s 1 c = m c := fun {c} hc => by
    have := h.min hc
    exact hout hc (by omega)
  have huse : ∀ {c}, c ∈ B → made m hat s 1 (c + 1) = m (c + 1) := fun {c} hc => by
    have := h.min hc
    exact hout hc (by omega)
  constructor
  case hat_lt => exact hlt
  case tiling =>
    have := h.tiling.extend (fun c hc => hsiz hc) (by rw [made_siz hs]; omega)
    rwa [made_siz hs] at this
  case min =>
    intro c hc
    rcases Finset.mem_insert.mp hc with rfl | hc
    · rw [made_siz hs]
      exact hs
    · rw [hsiz hc]
      exact h.min hc
  case foot =>
    intro c hc
    rcases Finset.mem_insert.mp hc with rfl | hc
    · rw [made_siz hs, made_foot]
    · have := h.min hc
      rw [hsiz hc, hout hc (by omega)]
      exact h.foot hc
  case loose =>
    intro c hc
    obtain ⟨hcB, hcu⟩ := h.loose hc
    rw [huse hcB]
    exact ⟨Finset.mem_insert_of_mem hcB, hcu⟩
  case lists =>
    refine h.lists.congr (fun i hi => made_out hs (.inl ?_)) fun x hx => ?_
    · have := h.tiling.lo_le
      omega
    · have hxB := (h.onList_iff.mp hx).1
      have := h.min hxB
      exact ⟨hout hxB (by omega), hout hxB (by omega)⟩
  case listed =>
    intro i c hi
    rw [h.listed hi]
    constructor
    · rintro ⟨hc, hcX, hcu, hcs⟩
      rw [huse hc, hsiz hc]
      exact ⟨Finset.mem_insert_of_mem hc, hcX, hcu, hcs⟩
    · rintro ⟨hc, hcX, hcu, hcs⟩
      rcases Finset.mem_insert.mp hc with rfl | hc
      · rw [made_use hs] at hcu
        exact absurd hcu (by decide)
      · rw [huse hc] at hcu
        rw [hsiz hc] at hcs
        exact ⟨hc, hcX, hcu, hcs⟩
  case adj =>
    intro c hc hn hcX hnX
    rcases Finset.mem_insert.mp hc with rfl | hc
    · rw [made_use hs]
      exact .inl (by decide)
    · rw [hsiz hc] at hn hnX ⊢
      rcases Finset.mem_insert.mp hn with he | hn
      · rw [he, made_use hs]
        exact .inr (by decide)
      · rw [huse hc, huse hn]
        exact h.adj hc hn hcX hnX
  case last =>
    intro c hc hcX hend
    rcases Finset.mem_insert.mp hc with rfl | hc
    · rw [made_use hs]
      decide
    · rw [hsiz hc] at hend
      have := h.tiling.high hc
      omega

end Heap

end Vere.Mem
