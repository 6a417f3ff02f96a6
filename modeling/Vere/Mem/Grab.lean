import Vere.Mem.Heap

/-!
# Vere.Mem.Grab

Allocating a block: when `_rl_bloq_grab` returns on a heap, it leaves a heap in which one
more box is live, with room for the words that were asked for (`grab_ok`).

The block is carved from the first free box that is large enough, or chipped off the
hat. The one way out of a heap is the sum `hat_r + siz_w` running past the end of a word
(`Wraps`), which `u2_rl_open` does not see because its own sum wraps as well.
-/

namespace Vere.Mem

open Vere.Lib

variable {m m' : Loom} {r r' : Rail} {rut hat a b c w s siz len : Nat} {B B' X X' : Finset Nat}
  {fl fl' : Nat → List Nat}

/-! ## Cutting a box in two -/

/-- The loose box `a` cut at `s`: its front is in use, its tail on a free list. The tail is
made and attached before the front is. -/
theorem Heap.split (h : Heap m rut hat B fl {a}) (hs : 5 ≤ s) (hlt : s + 5 ≤ m a)
    (hnext : a + m a ∈ B ∧ m (a + m a + 1) ≠ 0) :
    ∃ m₁ fl', bloqAttach rut (made m (a + s) (m a - s) 0) (a + s) = .ok m₁ ∧
      Heap (made m₁ a s 1) rut hat (insert (a + s) B) fl' ∅ ∧
      (∀ {c w}, Live m B c → c ≤ w → w < c + m c → made m₁ a s 1 w = m w) ∧
      (∀ {c}, c ∈ B → c ≠ a → made m₁ a s 1 (c + 1) = m (c + 1)) ∧
      made m₁ a s 1 (a + s + 1) = 0 ∧
      ∀ {w}, w < rut ∨ hat ≤ w → made m₁ a s 1 w = m w := by
  obtain ⟨haB, hau⟩ := h.loose (Finset.mem_singleton_self a)
  have hlow := h.low haB
  have hhigh := h.tiling.high haB
  have hts : 5 ≤ m a - s := by omega
  generalize hm₀ : made m (a + s) (m a - s) 0 = m₀
  have htsiz : m₀ (a + s) = m a - s := hm₀ ▸ made_siz hts
  have htuse : m₀ (a + s + 1) = 0 := hm₀ ▸ made_use hts
  have htfoot : m₀ (a + m a - 1) = m a - s := by
    rw [← hm₀, show a + m a - 1 = a + s + (m a - s) - 1 by omega]
    exact made_foot
  have hm₀out : ∀ {w}, w < a + s ∨ a + m a ≤ w → m₀ w = m w := fun hw =>
    hm₀ ▸ made_out hts (by omega)
  -- the other boxes are as far from the tail as from the whole box
  have hfar : ∀ {c}, c ∈ B → c ≠ a → c + m c ≤ a ∨ a + m a ≤ c := fun hc hne =>
    (h.tiling.sides hc haB).resolve_left hne
  have hon : ∀ {x}, OnList fl x → x ∈ B ∧ x ≠ a ∧ m (x + 1) = 0 := by
    intro x hx
    obtain ⟨hxB, hxX, hxu⟩ := h.onList_iff.mp hx
    exact ⟨hxB, fun he => hxX (Finset.mem_singleton.mpr he), hxu⟩
  have hlists : Lists m₀ rut fl := by
    refine h.lists.congr (fun i hi => hm₀out (by omega)) fun x hx => ?_
    obtain ⟨hxB, hxa, -⟩ := hon hx
    have := hfar hxB hxa
    have := h.min hxB
    exact ⟨hm₀out (by omega), hm₀out (by omega)⟩
  have hspread : Spread rut (fun x => x = a + s ∨ OnList fl x) := by
    refine ⟨?_, ?_⟩
    · rintro x (rfl | hx)
      · omega
      · exact h.low (hon hx).1
    · have htail : ∀ {x}, OnList fl x → x + 5 ≤ a + s ∨ a + s + 5 ≤ x := by
        intro x hx
        obtain ⟨hxB, hxa, -⟩ := hon hx
        have := hfar hxB hxa
        have := h.min hxB
        omega
      rintro x y (rfl | hx) (rfl | hy)
      · exact .inl rfl
      · exact .inr (htail hy).symm
      · exact .inr (htail hx)
      · exact h.spread.apart (hon hx).1 (hon hy).1
  have hnotB : a + s ∉ B := by
    intro hc
    have := h.min hc
    rcases hfar hc (by omega) with he | he <;> omega
  obtain ⟨m₁, hrun, hl, hr⟩ := hlists.attach hspread fun hc => hnotB (hon hc).1
  rw [htsiz] at hl
  -- a word of the heap that no link is kept in
  have hword : ∀ {w}, rut + 28 ≤ w ∨ w < rut →
      (∀ x, x = a + s ∨ OnList fl x → w ≠ x + 2 ∧ w ≠ x + 3) → w < a ∨ a + s ≤ w →
      made m₁ a s 1 w = m₀ w := fun hw hx hout => by
    rw [made_out hs hout]
    exact hr _ (fun i hi => by omega) hx
  -- the words of the other boxes
  have hother : ∀ {c w}, c ∈ B → c ≠ a → c ≤ w → w < c + m c →
      (m (c + 1) = 0 → w ≠ c + 2 ∧ w ≠ c + 3) → made m₁ a s 1 w = m w := by
    intro c w hc hne hlo hhi hlink
    have hca := hfar hc hne
    have := h.low hc
    rw [hword (by omega) ?_ (by omega)]
    · exact hm₀out (by omega)
    · rintro x (rfl | hx)
      · omega
      · obtain ⟨hxB, -, hxu⟩ := hon hx
        have := h.min hxB
        rcases h.tiling.sides hxB hc with he | he | he
        · exact he ▸ hlink (he ▸ hxu)
        · omega
        · omega
  have htag : ∀ {c k}, c ∈ B → c ≠ a → k < m c → k < 2 ∨ k + 1 = m c →
      made m₁ a s 1 (c + k) = m (c + k) := fun {c k} hc hne hk htag => by
    have := h.min hc
    exact hother hc hne (by omega) (by omega) fun _ => by omega
  have hsiz : ∀ {c}, c ∈ B → c ≠ a → made m₁ a s 1 c = m c := fun {c} hc hne => by
    have := h.min hc
    exact @htag c 0 hc hne (by omega) (by omega)
  have huse : ∀ {c}, c ∈ B → c ≠ a → made m₁ a s 1 (c + 1) = m (c + 1) := fun {c} hc hne => by
    have := h.min hc
    exact htag hc hne (by omega) (by omega)
  -- the tags of the tail
  have htail : ∀ {w}, w = a + s ∨ w = a + s + 1 ∨ w = a + m a - 1 → made m₁ a s 1 w = m₀ w := by
    intro w hw
    refine hword (by omega) ?_ (by omega)
    rintro x (rfl | hx)
    · omega
    · obtain ⟨hxB, hxa, -⟩ := hon hx
      have := hfar hxB hxa
      have := h.min hxB
      omega
  have hasiz : made m₁ a s 1 a = s := made_siz hs
  have htsiz' : made m₁ a s 1 (a + s) = m a - s := (htail (.inl rfl)).trans htsiz
  refine ⟨m₁, Function.update fl (freeSelect (m a - s)) ((a + s) :: fl (freeSelect (m a - s))),
    hrun, ?_, ?_, huse, (htail (.inr (.inl rfl))).trans htuse, ?_⟩
  · constructor
    case hat_lt => exact h.hat_lt
    case tiling =>
      have := h.tiling.split haB (fun c hc hne => hsiz hc hne) (by rw [hasiz]; omega)
        (by rw [hasiz]; omega) (by rw [hasiz]; exact htsiz')
      rwa [hasiz] at this
    case min =>
      intro c hc
      rcases Finset.mem_insert.mp hc with rfl | hc
      · rw [htsiz']
        exact hts
      · by_cases he : c = a
        · rw [he, hasiz]
          exact hs
        · rw [hsiz hc he]
          exact h.min hc
    case foot =>
      intro c hc
      rcases Finset.mem_insert.mp hc with rfl | hc
      · rw [htsiz', show a + s + (m a - s) - 1 = a + m a - 1 by omega,
          htail (.inr (.inr rfl)), htfoot]
      · by_cases he : c = a
        · rw [he, hasiz, made_foot]
        · have := h.min hc
          rw [hsiz hc he, show c + m c - 1 = c + (m c - 1) by omega,
            htag hc he (by omega) (by omega), ← Nat.add_sub_assoc (by omega)]
          exact h.foot hc
    case loose =>
      intro c hc
      simp at hc
    case lists =>
      refine hl.congr (fun i hi => made_out hs (by omega)) fun x hx => ?_
      have hx' : x = a + s ∨ OnList fl x := by
        obtain ⟨i, hi, hx⟩ := hx
        by_cases he : i = freeSelect (m a - s)
        · rw [he, Function.update_self, List.mem_cons] at hx
          exact hx.imp_right fun hx => ⟨_, freeSelect_lt _, hx⟩
        · rw [Function.update_of_ne he] at hx
          exact .inr ⟨i, hi, hx⟩
      rcases hx' with rfl | hx
      · exact ⟨made_out hs (by omega), made_out hs (by omega)⟩
      · obtain ⟨hxB, hxa, -⟩ := hon hx
        have := hfar hxB hxa
        have := h.min hxB
        exact ⟨made_out hs (by omega), made_out hs (by omega)⟩
    case listed =>
      intro i c hi
      have hiff : c ∈ Function.update fl (freeSelect (m a - s))
          ((a + s) :: fl (freeSelect (m a - s))) i ↔
          (c = a + s ∧ freeSelect (m a - s) = i) ∨ c ∈ fl i := by
        by_cases he : i = freeSelect (m a - s)
        · rw [he, Function.update_self, List.mem_cons]
          simp
        · rw [Function.update_of_ne he]
          simp [Ne.symm he]
      rw [hiff, h.listed hi]
      constructor
      · rintro (⟨rfl, hsel⟩ | ⟨hc, hcX, hcu, hcs⟩)
        · refine ⟨Finset.mem_insert_self _ _, by simp, ?_, ?_⟩
          · rw [htail (.inr (.inl rfl)), htuse]
          · rw [htsiz']
            exact hsel
        · have hne : c ≠ a := fun he => hcX (Finset.mem_singleton.mpr he)
          rw [huse hc hne, hsiz hc hne]
          exact ⟨Finset.mem_insert_of_mem hc, by simp, hcu, hcs⟩
      · rintro ⟨hc, -, hcu, hcs⟩
        rcases Finset.mem_insert.mp hc with rfl | hc
        · rw [htsiz'] at hcs
          exact .inl ⟨rfl, hcs⟩
        · have hne : c ≠ a := by
            rintro rfl
            rw [made_use hs] at hcu
            exact absurd hcu (by decide)
          rw [huse hc hne] at hcu
          rw [hsiz hc hne] at hcs
          exact .inr ⟨hc, fun hm => hne (Finset.mem_singleton.mp hm), hcu, hcs⟩
    case adj =>
      intro c hc hn _ _
      rcases Finset.mem_insert.mp hc with rfl | hc
      · -- after the tail comes the box that came after the whole
        right
        rw [htsiz', show a + s + (m a - s) = a + m a by omega,
          huse hnext.1 (by omega)]
        exact hnext.2
      · by_cases he : c = a
        · rw [he, made_use hs]
          exact .inl (by decide)
        · rw [hsiz hc he] at hn ⊢
          rcases Finset.mem_insert.mp hn with hn | hn
          · have := hfar hc he
            have := h.min hc
            omega
          · by_cases he' : c + m c = a
            · rw [he', made_use hs]
              exact .inr (by decide)
            · rw [huse hc he, huse hn he']
              exact h.adj hc hn (fun hm => he (Finset.mem_singleton.mp hm))
                (fun hm => he' (Finset.mem_singleton.mp hm))
    case last =>
      intro c hc _ hend
      rcases Finset.mem_insert.mp hc with rfl | hc
      · rw [htsiz', show a + s + (m a - s) = a + m a by omega] at hend
        exact absurd (hend ▸ hnext.1) h.tiling.hi_notMem
      · by_cases he : c = a
        · rw [he, made_use hs]
          decide
        · rw [hsiz hc he] at hend
          rw [huse hc he]
          exact h.last hc (fun hm => he (Finset.mem_singleton.mp hm)) hend
  · intro c w hc hlo hhi
    exact hother hc.1 (fun he => hc.2 (he ▸ hau)) hlo hhi fun hz => absurd hz hc.2
  · intro w hw
    rw [hword (by omega) ?_ (by omega)]
    · exact hm₀out (by omega)
    · rintro x (rfl | hx)
      · omega
      · obtain ⟨hxB, -, -⟩ := hon hx
        have := h.low hxB
        have := h.min hxB
        have := h.tiling.high hxB
        omega

/-! ## Searching the free lists -/

/-- The pointer at `q` leads to a box of `xs` that is large enough: it is `pfr` itself, where the
search began, or the link of the box before. -/
structure Found (m : Loom) (siz pfr p : Nat) (xs : List Nat) (q : Nat) : Prop where
  mem : m q ∈ xs
  room : siz ≤ m (m q)
  link : (q = pfr ∧ m (m q + 2) = p) ∨ (q = m (m q + 2) + 3 ∧ m (m q + 2) ∈ xs)

/-- The search of one list ends, at a box that is large enough or at the end. -/
theorem seek_ok {xs : List Nat} {n p pfr : Nat}
    (hl : Links 0 (fun x => m (x + 2)) (fun x => m (x + 3)) p (m pfr) xs) (hn : xs.length < n) :
    seek m siz n pfr = .ok none ∨
      ∃ q, seek m siz n pfr = .ok (some q) ∧ Found m siz pfr p xs q := by
  induction xs generalizing n p pfr with
  | nil =>
    obtain ⟨n, rfl⟩ : ∃ k, n = k + 1 := ⟨n - 1, by simp at hn; omega⟩
    have hz : m pfr = 0 := hl
    exact .inl (by simp [seek, hz])
  | cons x xs ih =>
    obtain ⟨n, rfl⟩ : ∃ k, n = k + 1 := ⟨n - 1, by simp at hn; omega⟩
    obtain ⟨hx, hne, hpre, hxs⟩ := hl
    unfold seek
    rw [hx, if_neg hne]
    by_cases hsmall : siz > m x
    · rw [if_pos hsmall]
      rcases @ih n x (x + 3) hxs (by simpa using hn) with hnone | ⟨q, hrun, hq⟩
      · exact .inl hnone
      · refine .inr ⟨q, hrun, List.mem_cons_of_mem _ hq.mem, hq.room, .inr ?_⟩
        rcases hq.link with ⟨rfl, hp⟩ | ⟨hq', hmem⟩
        · rw [hp]
          exact ⟨rfl, List.mem_cons_self⟩
        · exact ⟨hq', List.mem_cons_of_mem _ hmem⟩
    · rw [if_neg hsmall]
      refine .inr ⟨pfr, rfl, ?_, ?_, .inl ⟨rfl, ?_⟩⟩
      · rw [hx]
        exact List.mem_cons_self
      · rw [hx]
        omega
      · rw [hx]
        exact hpre

/-- The search of the lists ends. -/
theorem seekLists_ok {n k : Nat} (h : Lists m rut fl) (hn : ∀ i < 28, (fl i).length < n)
    (hk : k ≤ 28) : seekLists m rut siz n k = .ok none ∨
      ∃ q i, 28 - k ≤ i ∧ i < 28 ∧ seekLists m rut siz n k = .ok (some q) ∧
        Found m siz (rut + i) 0 (fl i) q := by
  induction k with
  | zero => exact .inl rfl
  | succ k ih =>
    have hi : 28 - (k + 1) < 28 := by omega
    unfold seekLists soupFreeNo
    rcases @seek_ok m siz (fl (28 - (k + 1))) n 0 _ (h.links hi) (hn _ hi) with hnone | ⟨q, hrun, hq⟩
    · simp only [hnone, bind, Except.bind]
      refine (ih (by omega)).imp_right ?_
      rintro ⟨q, i, hlo, hhi, hrun, hq⟩
      exact ⟨q, i, by omega, hhi, hrun, hq⟩
    · refine .inr ⟨q, _, le_rfl, hi, ?_, hq⟩
      simp only [hrun, bind, Except.bind]
      rfl

/-- A free list has no more boxes than there are words below the hat. -/
theorem Heap.length_le (h : Heap m rut hat B fl X) {i : Nat} (hi : i < 28) :
    (fl i).length ≤ hat := by
  have hsub : (fl i).toFinset ⊆ Finset.range hat := fun x hx =>
    Finset.mem_range.mpr (h.tiling.lt_hi ((h.listed hi).mp (List.mem_toFinset.mp hx)).1)
  have hcard := Finset.card_le_card hsub
  rwa [List.toFinset_card_of_nodup (h.lists.nodup hi), Finset.card_range] at hcard

/-- Taking the found box off its list by way of the pointer that leads to it does what
`bloqDetach` does. -/
theorem Found.unlink {i q : Nat} (hq : Found m siz (rut + i) 0 (fl i) q)
    (hsel : freeSelect (m (m q)) = i) (hz : ∀ x ∈ fl i, x ≠ 0) :
    (m (m q + 2) = 0 ∨ q = m (m q + 2) + 3) ∧
    (if m (m q + 3) ≠ 0 then (m.set q (m (m q + 3))).set (m (m q + 3) + 2) (m (m q + 2))
      else m.set q (m (m q + 3))) = bloqDetach rut m (m q) := by
  unfold bloqDetach
  simp only [hsel]
  rcases hq.link with ⟨hqi, hp⟩ | ⟨hqp, hmem⟩
  · refine ⟨.inl hp, ?_⟩
    simp only [hp, ne_eq, not_true_eq_false, if_false, ← hqi]
  · refine ⟨.inr hqp, ?_⟩
    have hne := hz _ hmem
    simp only [ne_eq, hne, not_false_eq_true, if_true, ← hqp]

/-! ## The block that is handed out -/

/-- The heap after the box `b`, of at least `siz` words, is handed out. -/
structure Grabbed (r : Rail) (B : Finset Nat) (siz : Nat) (r' : Rail) (b : Nat) (B' : Finset Nat)
    (fl' : Nat → List Nat) : Prop where
  rail : ∃ hat' m', r' = { r with hat := hat', loom := m' } ∧ r.hat ≤ hat'
  heap : Heap r'.loom r'.rut r'.hat B' fl' ∅
  mem : b ∈ B'
  use : r'.loom (b + 1) = 1
  room : siz ≤ r'.loom b
  fresh : ¬ Live r.loom B b
  live : ∀ {a}, Live r.loom B a →
    Live r'.loom B' a ∧ ∀ w, a ≤ w → w < a + r.loom a → r'.loom w = r.loom w
  back : ∀ {a}, Live r'.loom B' a → a = b ∨ Live r.loom B a
  out : ∀ {w}, w < r.rut ∨ r'.hat ≤ w → r'.loom w = r.loom w

theorem liveGrab_ne {wad : Nat} (hw : w ≠ rut + 31) : liveGrab rut m wad w = m w :=
  Loom.set_ne hw

/-- The count of live words is no part of the heap. -/
theorem Heap.liveGrab (h : Heap m rut hat B fl X) (wad : Nat) :
    Heap (liveGrab rut m wad) rut hat B fl X := by
  have hne : ∀ {c k}, c ∈ B → Mem.liveGrab rut m wad (c + k) = m (c + k) := fun {c k} hc => by
    have := h.low hc
    exact liveGrab_ne (by omega)
  refine h.frame (fun i hi => liveGrab_ne (by omega)) (fun hc => @hne _ 0 hc) ?_ ?_ ?_ ?_
  · intro c hc
    have := h.min hc
    rw [Nat.add_sub_assoc (by omega)]
    exact hne hc
  · intro c hc
    have hcB := (h.onList_iff.mp hc).1
    exact ⟨hne hcB, hne hcB⟩
  · intro c hc
    rw [hne hc]
  · intro c hc
    rw [hne (h.loose hc).1]
    exact h.loose hc

/-- The last thing a grab does is to count the words of the box. -/
theorem Grabbed.counted {hat' : Nat} (h : Heap r.loom r.rut r.hat B fl ∅)
    (hh : Heap m' r.rut hat' B' fl' ∅) (hle : r.hat ≤ hat') (hb : b ∈ B') (huse : m' (b + 1) = 1)
    (hroom : siz ≤ m' b) (hfresh : ¬ Live r.loom B b)
    (hlive : ∀ {a}, Live r.loom B a →
      a ∈ B' ∧ ∀ w, a ≤ w → w < a + r.loom a → m' w = r.loom w)
    (hback : ∀ {a}, a ≠ b → Live m' B' a → Live r.loom B a)
    (hout : ∀ {w}, w < r.rut ∨ hat' ≤ w → m' w = r.loom w) (wad : Nat) :
    Grabbed r B siz { r with hat := hat', loom := liveGrab r.rut m' wad } b B' fl' := by
  have hne : ∀ {c k}, c ∈ B' → liveGrab r.rut m' wad (c + k) = m' (c + k) := fun {c k} hc => by
    have := hh.low hc
    exact liveGrab_ne (by omega)
  have hlo := hh.tiling.lo_le
  constructor
  case rail => exact ⟨_, _, rfl, hle⟩
  case heap => exact hh.liveGrab wad
  case mem => exact hb
  case use => exact (hne hb).trans huse
  case room => exact hroom.trans_eq (@hne b 0 hb).symm
  case fresh => exact hfresh
  case live =>
    intro c hc
    obtain ⟨hcB, hw⟩ := hlive hc
    have hmin := h.min hc.1
    have hw' : ∀ w, c ≤ w → w < c + r.loom c → liveGrab r.rut m' wad w = r.loom w := by
      intro w hlo hhi
      obtain ⟨k, rfl⟩ := Nat.exists_eq_add_of_le hlo
      rw [hne hcB, hw _ hlo hhi]
    refine ⟨⟨hcB, ?_⟩, hw'⟩
    exact fun hz => hc.2 ((hw' (c + 1) (by omega) (by omega)).symm.trans hz)
  case back =>
    rintro c ⟨hc, hcu⟩
    by_cases he : c = b
    · exact .inl he
    · exact .inr (hback he ⟨hc, fun hz => hcu ((hne hc).trans hz)⟩)
  case out =>
    intro w hw
    exact (liveGrab_ne (by simp only at hw; omega)).trans (hout hw)

/-- The hat gives a box of exactly the size asked for. -/
theorem chip_ok (h : Heap r.loom r.rut r.hat B fl ∅) (hs : 5 ≤ siz) (hopen : rlOpen r siz = true)
    (hlt : r.hat + siz < 2 ^ 32) :
    ∃ r' B' fl', chip r siz = .ok (r', r.hat + 2) ∧ Grabbed r B siz r' r.hat B' fl' := by
  have hlo := h.tiling.lo_le
  have hold : ∀ {c w}, c ∈ B → w < c + r.loom c → made r.loom r.hat siz 1 w = r.loom w :=
    fun hc hhi => by
      have := h.tiling.high hc
      exact made_out hs (.inl (by omega))
  have hrun : chip r siz = .ok
      ({ r with hat := r.hat + siz, loom := liveGrab r.rut (made r.loom r.hat siz 1) siz },
        r.hat + 2) := by
    unfold chip
    rw [must_bind hopen, bloqMake_eq hs hlt, add32_eq hlt, add32_eq (by omega)]
    rfl
  refine ⟨_, insert r.hat B, fl, hrun, Grabbed.counted h (h.extend hs hlt) (by omega)
    (Finset.mem_insert_self _ _) (made_use hs) (made_siz hs).ge
    (fun hc => h.tiling.hi_notMem hc.1) ?_ ?_ ?_ siz⟩
  · exact fun hc => ⟨Finset.mem_insert_of_mem hc.1, fun w _ hhi => hold hc.1 hhi⟩
  · rintro c hne ⟨hc, hcu⟩
    have hcB := (Finset.mem_insert.mp hc).resolve_left hne
    have := h.min hcB
    rw [hold hcB (by omega)] at hcu
    exact ⟨hcB, hcu⟩
  · exact fun hw => made_out hs (by omega)

/-! ### Carving a free box -/

section Carve

variable {i q : Nat}

/-- The free box, off its list. -/
theorem carve_eq (h : Heap r.loom r.rut r.hat B fl ∅) (hi : i < 28)
    (hq : Found r.loom siz (r.rut + i) 0 (fl i) q) :
    carve r siz q =
      let m := bloqDetach r.rut r.loom (r.loom q)
      let tail := add32 (r.loom q) siz
      if add32 siz 6 < r.loom (r.loom q) then do
        let m₁ ← bloqMake m tail (sub32 (r.loom (r.loom q)) siz) 0
        let m₂ ← bloqAttach r.rut m₁ tail
        let m₃ ← bloqMake m₂ (r.loom q) siz 1
        return ({ r with loom := liveGrab r.rut m₃ siz }, r.loom q + 2)
      else
        let m₁ := m.set (r.loom q + 1) 1
        return ({ r with loom := liveGrab r.rut m₁ (m₁ (r.loom q)) }, r.loom q + 2) := by
  obtain ⟨hB, -, hu, hsel⟩ := (h.listed hi).mp hq.mem
  obtain ⟨hassert, hunlink⟩ := hq.unlink hsel fun x hx => (h.lists.links hi).ne_nil hx
  obtain ⟨hd, -, hdsiz⟩ := h.detach hB (by simp) hu
  have hmin := h.min hB
  have hlt := h.lt hB
  unfold carve
  simp only [hunlink]
  rw [must_bind hassert, hdsiz hB, must_bind (hd.loose (Finset.mem_insert_self _ _)).2,
    add32_eq (show r.loom q + 2 < 2 ^ 32 by omega)]

/-- A free box that is just large enough is handed out whole. -/
theorem carve_whole (h : Heap r.loom r.rut r.hat B fl ∅) (hi : i < 28)
    (hq : Found r.loom siz (r.rut + i) 0 (fl i) q) (hfit : ¬ add32 siz 6 < r.loom (r.loom q)) :
    ∃ r' B' fl', carve r siz q = .ok (r', r.loom q + 2) ∧
      Grabbed r B siz r' (r.loom q) B' fl' := by
  obtain ⟨hB, -, hu, -⟩ := (h.listed hi).mp hq.mem
  obtain ⟨hd, hkd, hdsiz⟩ := h.detach hB (by simp) hu
  have hroom := hq.room
  have hmin := h.min hB
  rw [carve_eq h hi hq]
  simp only [hfit, if_false]
  generalize r.loom q = x at *
  generalize bloqDetach r.rut r.loom x = m₂ at *
  have hh : Heap (m₂.set (x + 1) 1) r.rut r.hat B _ ∅ :=
    hd.setUse hB (fun hne => by simp [hne]) (by simp) (by simp)
  -- no word of another box is the use count
  have hfar : ∀ {c w}, c ∈ B → c ≠ x → c ≤ w → w < c + r.loom c → w ≠ x + 1 := by
    intro c w hc hne hlo hhi
    rcases (h.tiling.sides hc hB).resolve_left hne with he | he <;> omega
  refine ⟨_, B, _, rfl, Grabbed.counted h hh le_rfl hB (Loom.set_same _ _ _) ?_
    (fun hc => hc.2 hu) ?_ ?_ ?_ _⟩
  · rw [Loom.set_ne (by omega), hdsiz hB]
    exact hroom
  · intro c hc
    have hne : c ≠ x := fun he => hc.2 (he ▸ hu)
    refine ⟨hc.1, fun w hlo hhi => ?_⟩
    rw [Loom.set_ne (hfar hc.1 hne hlo hhi)]
    exact (hkd.live hc).2 w hlo hhi
  · rintro c hne ⟨hc, hcu⟩
    have := h.min hc
    rw [Loom.set_ne (hfar hc hne (by omega) (by omega))] at hcu
    exact hkd.back ⟨hc, hcu⟩
  · intro w hw
    have := h.low hB
    have := h.tiling.high hB
    rw [Loom.set_ne (by omega), hkd.out hw]

/-- A larger one is cut, and the tail is free. -/
theorem carve_split (h : Heap r.loom r.rut r.hat B fl ∅) (hi : i < 28)
    (hq : Found r.loom siz (r.rut + i) 0 (fl i) q) (hfit : add32 siz 6 < r.loom (r.loom q))
    (hs : 5 ≤ siz) (htail : siz + 5 ≤ r.loom (r.loom q)) :
    ∃ r' B' fl', carve r siz q = .ok (r', r.loom q + 2) ∧
      Grabbed r B siz r' (r.loom q) B' fl' := by
  obtain ⟨hB, -, hu, -⟩ := (h.listed hi).mp hq.mem
  obtain ⟨hd, hkd, hdsiz⟩ := h.detach hB (by simp) hu
  have hlt := h.lt hB
  rw [carve_eq h hi hq]
  simp only [hfit, if_true]
  generalize r.loom q = x at *
  rw [sub32_eq (by omega) (by omega), add32_eq (by omega), bloqMake_eq (by omega) (by omega)]
  generalize bloqDetach r.rut r.loom x = m₂ at *
  rw [insert_empty_eq] at hd
  -- the box after a free one is in use
  have hnext : x + m₂ x ∈ B ∧ m₂ (x + m₂ x + 1) ≠ 0 := by
    rw [hdsiz hB]
    have hin := (h.tiling.next hB).resolve_left fun he => h.last hB (by simp) he hu
    have hlive : Live r.loom B (x + r.loom x) :=
      ⟨hin, (h.adj hB hin (by simp) (by simp)).resolve_left (not_not.mpr hu)⟩
    exact (hkd.live hlive).1
  obtain ⟨m₁, fl', hatt, hh, hlive, huse, htu, hout⟩ := hd.split hs (by rw [hdsiz hB]; omega) hnext
  rw [hdsiz hB] at hatt
  have hrun : (do
      let m₁ ← (.ok (made m₂ (x + siz) (r.loom x - siz) 0) : Except Stop Loom)
      let m₂ ← bloqAttach r.rut m₁ (x + siz)
      let m₃ ← bloqMake m₂ x siz 1
      return (({ r with loom := liveGrab r.rut m₃ siz } : Rail), x + 2)) =
      .ok ({ r with loom := liveGrab r.rut (made m₁ x siz 1) siz }, x + 2) := by
    simp only [bind, Except.bind, hatt, bloqMake_eq hs (show x + siz < 2 ^ 32 by omega)]
    rfl
  refine ⟨_, insert (x + siz) B, fl', hrun, Grabbed.counted h hh le_rfl
    (Finset.mem_insert_of_mem hB) (made_use hs) (made_siz hs).ge (fun hc => hc.2 hu) ?_ ?_ ?_ siz⟩
  · intro c hc
    obtain ⟨hc₂, hw₂⟩ := hkd.live hc
    refine ⟨Finset.mem_insert_of_mem hc.1, fun w hlo hhi => ?_⟩
    rw [hlive hc₂ hlo (by rw [hdsiz hc.1]; exact hhi), hw₂ w hlo hhi]
  · rintro c hne ⟨hc, hcu⟩
    rcases Finset.mem_insert.mp hc with rfl | hc
    · exact absurd htu hcu
    · rw [huse hc hne] at hcu
      exact hkd.back ⟨hc, hcu⟩
  · intro w hw
    rw [hout hw, hkd.out hw]

end Carve

/-! ## The whole call -/

/-- The size of the box for `len` words, as the call computes it. -/
def grabSize (len : Nat) : Nat := (len + 3) % 2 ^ 32

/-- The free lists are searched to the end, and then the hat is asked. -/
theorem bloqGrab_cases (h : Heap r.loom r.rut r.hat B fl ∅) (hrock : r.hip = .rock) (len : Nat) :
    bloqGrab r len = chip r (grabSize len) ∨
      ∃ q i, grabSelect (grabSize len) ≤ i ∧ i < 28 ∧
        Found r.loom (grabSize len) (r.rut + i) 0 (fl i) q ∧
        bloqGrab r len = carve r (grabSize len) q := by
  have hsel : grabSelect (grabSize len) ≤ 28 := by
    have := freeSelect_lt (grabSize len)
    unfold grabSelect soupFreeNo
    simp only
    split <;> omega
  unfold bloqGrab
  simp only [hrock]
  unfold soupFreeNo
  rcases @seekLists_ok r.loom r.rut (grabSize len) fl (r.hat + 1) (28 - grabSelect (grabSize len))
    h.lists (fun i hi => Nat.lt_succ_of_le (h.length_le hi)) (by omega) with
    hnone | ⟨q, i, hlo, hhi, hrun, hq⟩
  · left
    unfold grabSize at hnone ⊢
    simp only [hnone, bind, Except.bind]
  · refine .inr ⟨q, i, by omega, hhi, hq, ?_⟩
    unfold grabSize at hrun ⊢
    simp only [hrun, bind, Except.bind]

theorem freeSelect_small (hs : s < 16) (hne : s ≠ 6) : freeSelect s = 1 := by
  simp [freeSelect, freeSelectFrom, soupFreeNo, hs, hne]

theorem bloqMake_siz {box use : Nat} (hrun : bloqMake m box siz use = .ok m') : 5 ≤ siz := by
  unfold bloqMake at hrun
  exact (must_bind_ok.mp hrun).1

/-- A box of less than five words is never made: the lists that are searched for one hold
only boxes that would have to be cut. -/
theorem five_le_of_grab (h : Heap r.loom r.rut r.hat B fl ∅) (hrock : r.hip = .rock)
    {y : Rail × Nat} (hrun : bloqGrab r len = .ok y) : 5 ≤ grabSize len := by
  by_contra hsmall
  rcases bloqGrab_cases h hrock len with heq | ⟨q, i, hsel, hi, hq, heq⟩
  · rw [heq] at hrun
    unfold chip at hrun
    obtain ⟨-, hrun⟩ := must_bind_ok.mp hrun
    obtain ⟨m', hmake, -⟩ := bind_ok.mp hrun
    exact hsmall (bloqMake_siz hmake)
  · have hone : freeSelect (grabSize len) = 1 := freeSelect_small (by omega) (by omega)
    have htwo : 2 ≤ i := by
      unfold grabSelect soupFreeNo at hsel
      simpa [hone] using hsel
    have hbig : 16 ≤ r.loom (r.loom q) := by
      obtain ⟨-, -, -, hi'⟩ := (h.listed hi).mp hq.mem
      by_contra hlt
      by_cases hsix : r.loom (r.loom q) = 6
      · have hzero : freeSelect 6 = 0 := rfl
        rw [hsix, hzero] at hi'
        omega
      · have := freeSelect_small (show r.loom (r.loom q) < 16 by omega) hsix
        omega
    rw [heq, carve_eq h hi hq] at hrun
    rw [add32_eq (show grabSize len + 6 < 2 ^ 32 by omega)] at hrun
    simp only [show grabSize len + 6 < r.loom (r.loom q) by omega, if_true] at hrun
    obtain ⟨m₁, -, hrun⟩ := bind_ok.mp hrun
    obtain ⟨m₂, -, hrun⟩ := bind_ok.mp hrun
    obtain ⟨m₃, hmake, -⟩ := bind_ok.mp hrun
    exact hsmall (bloqMake_siz hmake)

/-- A call for two words or more returns if the hat has room for them. -/
theorem grab_returns (h : Heap r.loom r.rut r.hat B fl ∅) (hrock : r.hip = .rock) (hlen : 2 ≤ len)
    (hroom : len + 3 + rayB r.hat + rayB r.cap < halfSize) (hhat : r.hat + (len + 3) < 2 ^ 32) :
    ∃ y, bloqGrab r len = .ok y := by
  have hhalf : halfSize = 2 ^ 27 := rfl
  have hsize : grabSize len = len + 3 := Nat.mod_eq_of_lt (by omega)
  rcases bloqGrab_cases h hrock len with heq | ⟨q, i, -, hi, hq, heq⟩
  · have hopen : rlOpen r (len + 3) = true := by
      have hsum : add32 (len + 3) (rayB r.hat) = len + 3 + rayB r.hat := add32_eq (by omega)
      unfold rlOpen
      rw [hsum, add32_eq (by omega), if_neg (by omega)]
    obtain ⟨r', B', fl', hrun, -⟩ := chip_ok h (by omega) hopen hhat
    exact ⟨_, heq.trans (hsize ▸ hrun)⟩
  · rw [hsize] at hq heq
    by_cases hfit : add32 (len + 3) 6 < r.loom (r.loom q)
    · obtain ⟨r', B', fl', hrun, -⟩ := carve_split h hi hq hfit (by omega)
        (by rw [add32_eq (by omega)] at hfit; omega)
      exact ⟨_, heq.trans hrun⟩
    · obtain ⟨r', B', fl', hrun, -⟩ := carve_whole h hi hq hfit
      exact ⟨_, heq.trans hrun⟩

/-- The call passes `u2_rl_open`, but the new hat runs past the end of a word. -/
def Wraps (r : Rail) (len : Nat) : Prop :=
  len + 3 < 2 ^ 32 ∧ rlOpen r (len + 3) = true ∧ 2 ^ 32 ≤ r.hat + (len + 3)

/-- When a call returns, one more box is live, with room for `len` words. -/
theorem grab_ok (h : Heap r.loom r.rut r.hat B fl ∅) (hrock : r.hip = .rock) (hlen : len < 2 ^ 32)
    (hwrap : ¬ Wraps r len) {p : Nat} (hrun : bloqGrab r len = .ok (r', p)) :
    ∃ b B' fl', p = b + 2 ∧ Grabbed r B (len + 3) r' b B' fl' := by
  have hfive := five_le_of_grab h hrock hrun
  have hlt : len + 3 < 2 ^ 32 := by
    unfold grabSize at hfive
    omega
  have hsize : grabSize len = len + 3 := Nat.mod_eq_of_lt hlt
  rcases bloqGrab_cases h hrock len with heq | ⟨q, i, -, hi, hq, heq⟩
  · rw [heq, hsize] at hrun
    have hopen : rlOpen r (len + 3) = true := by
      unfold chip at hrun
      exact (must_bind_ok.mp hrun).1
    have hhat : r.hat + (len + 3) < 2 ^ 32 := by
      by_contra hge
      exact hwrap ⟨hlt, hopen, by omega⟩
    obtain ⟨r₁, B', fl', hchip, hg⟩ := chip_ok h (hsize ▸ hfive) hopen hhat
    rw [hrun] at hchip
    obtain ⟨rfl, rfl⟩ := Prod.mk.inj (Except.ok.inj hchip)
    exact ⟨_, B', fl', rfl, hg⟩
  · rw [hsize] at hq hfive
    rw [heq, hsize] at hrun
    by_cases hfit : add32 (len + 3) 6 < r.loom (r.loom q)
    · have hroom := hq.room
      have htail : len + 3 + 5 ≤ r.loom (r.loom q) := by
        have hB := ((h.listed hi).mp hq.mem).1
        have := h.lt hB
        rw [carve_eq h hi hq] at hrun
        simp only [hfit, if_true] at hrun
        obtain ⟨m₁, hmake, -⟩ := bind_ok.mp hrun
        have := bloqMake_siz hmake
        rw [sub32_eq hroom (by omega)] at this
        omega
      obtain ⟨r₁, B', fl', hcarve, hg⟩ := carve_split h hi hq hfit hfive htail
      rw [hrun] at hcarve
      obtain ⟨rfl, rfl⟩ := Prod.mk.inj (Except.ok.inj hcarve)
      exact ⟨_, B', fl', rfl, hg⟩
    · obtain ⟨r₁, B', fl', hcarve, hg⟩ := carve_whole h hi hq hfit
      rw [hrun] at hcarve
      obtain ⟨rfl, rfl⟩ := Prod.mk.inj (Except.ok.inj hcarve)
      exact ⟨_, B', fl', rfl, hg⟩

end Vere.Mem
