import Vere.Lib.Links
import Vere.Mem.Bloq

/-!
# Vere.Mem.Lists

The free lists of a soup, and what attaching and detaching a box does to them.

The links of the free lists lie in the boxes themselves, so an edit of one list must
not touch the words of another. `Spread` is what the lists need from the layout of the
boxes for that: two boxes are at least five words apart, and none lies in the soup.
-/

namespace Vere.Mem

open Vere.Lib

/-! ## Words, and computations that can stop -/

variable {α β : Type} {m m' : Loom} {rut a b w box sel : Nat}

theorem add32_eq (h : a + b < 2 ^ 32) : add32 a b = a + b := Nat.mod_eq_of_lt h

theorem sub32_eq (hb : b ≤ a) (ha : a < 2 ^ 32) : sub32 a b = a - b := by
  unfold sub32
  omega

@[simp] theorem Loom.set_same (m : Loom) (a v : Nat) : m.set a v a = v := by
  simp [Loom.set]

theorem Loom.set_ne {v : Nat} (h : w ≠ a) : m.set a v w = m w := by
  simp [Loom.set, h]

@[simp] theorem must_bind_ok {p : Prop} [Decidable p] {f : Unit → Except Stop β} {y : β} :
    (must p >>= f) = .ok y ↔ p ∧ f () = .ok y := by
  by_cases h : p <;> simp [must, h, bind, Except.bind]

theorem bind_ok {x : Except Stop α} {f : α → Except Stop β} {y : β} :
    (x >>= f) = .ok y ↔ ∃ v, x = .ok v ∧ f v = .ok y := by
  cases x <;> simp [bind, Except.bind]

theorem must_bind {p : Prop} [Decidable p] (h : p) (f : Unit → Except Stop β) :
    (must p >>= f) = f () := by
  simp [must, h, bind, Except.bind]

/-! ## The lists -/

/-- The free list of a size is one of the lists of the soup. -/
theorem freeSelectFrom_lt (n siz : Nat) (hn : n < soupFreeNo) :
    freeSelectFrom n siz < soupFreeNo := by
  induction n generalizing siz with
  | zero =>
    unfold freeSelectFrom
    decide
  | succ n ih =>
    unfold freeSelectFrom
    split
    · unfold soupFreeNo
      omega
    · exact ih _ (Nat.lt_of_succ_lt hn)

theorem freeSelect_lt (siz : Nat) : freeSelect siz < 28 := by
  unfold freeSelect
  split
  · decide
  · exact freeSelectFrom_lt _ _ (by decide)

/-- The free lists of the soup at `rut` hold the boxes `fl`. -/
structure Lists (m : Loom) (rut : Nat) (fl : Nat → List Nat) : Prop where
  links : ∀ {i}, i < 28 →
    Links 0 (fun x => m (x + 2)) (fun x => m (x + 3)) 0 (m (rut + i)) (fl i)
  nodup : ∀ {i}, i < 28 → (fl i).Nodup
  disj : ∀ {i j x}, i < 28 → j < 28 → x ∈ fl i → x ∈ fl j → i = j

/-- The box is on a free list. -/
def OnList (fl : Nat → List Nat) (x : Nat) : Prop := ∃ i < 28, x ∈ fl i

/-- The boxes of `S` lie above the soup, with room for the links between them. -/
structure Spread (rut : Nat) (S : Nat → Prop) : Prop where
  low : ∀ {x}, S x → rut + 32 ≤ x
  apart : ∀ {x y}, S x → S y → x = y ∨ x + 5 ≤ y ∨ y + 5 ≤ x

theorem Spread.mono {S S' : Nat → Prop} (h : Spread rut S') (hs : ∀ x, S x → S' x) : Spread rut S :=
  ⟨fun hx => h.low (hs _ hx), fun hx hy => h.apart (hs _ hx) (hs _ hy)⟩

/-- Only heads of free lists and links of the boxes in `S` differ. -/
def Relinked (rut : Nat) (S : Nat → Prop) (m m' : Loom) : Prop :=
  ∀ w, (∀ i < 28, w ≠ rut + i) → (∀ x, S x → w ≠ x + 2 ∧ w ≠ x + 3) → m' w = m w

variable {fl : Nat → List Nat}

theorem Lists.congr (h : Lists m rut fl) (hhead : ∀ i < 28, m' (rut + i) = m (rut + i))
    (hlink : ∀ x, OnList fl x → m' (x + 2) = m (x + 2) ∧ m' (x + 3) = m (x + 3)) :
    Lists m' rut fl where
  links {i} hi := by
    rw [hhead i hi]
    exact (h.links hi).congr (fun y hy => (hlink y ⟨i, hi, hy⟩).1)
      (fun y hy => (hlink y ⟨i, hi, hy⟩).2)
  nodup := h.nodup
  disj := h.disj

/-- The links on the lists stay on the lists. -/
theorem Lists.pre_onList (h : Lists m rut fl) (hs : sel < 28) (hb : box ∈ fl sel)
    (hp : m (box + 2) ≠ 0) : m (box + 2) ∈ fl sel :=
  ((h.links hs).pre_mem hb).resolve_left hp

theorem Lists.nex_onList (h : Lists m rut fl) (hs : sel < 28) (hb : box ∈ fl sel)
    (hn : m (box + 3) ≠ 0) : m (box + 3) ∈ fl sel :=
  ((h.links hs).nex_mem hb).resolve_left hn

/-- One list replaced, the others left alone. -/
theorem Lists.update (h : Lists m rut fl) (hs : sel < 28) {xs : List Nat}
    (hlinks : Links 0 (fun x => m' (x + 2)) (fun x => m' (x + 3)) 0 (m' (rut + sel)) xs)
    (hnd : xs.Nodup) (hsub : ∀ x ∈ xs, x ∈ fl sel ∨ ¬ OnList fl x)
    (hrest : ∀ i < 28, i ≠ sel → m' (rut + i) = m (rut + i) ∧
      ∀ y ∈ fl i, m' (y + 2) = m (y + 2) ∧ m' (y + 3) = m (y + 3)) :
    Lists m' rut (Function.update fl sel xs) where
  links {i} hi := by
    by_cases he : i = sel
    · subst he
      rw [Function.update_self]
      exact hlinks
    · obtain ⟨hhead, hnode⟩ := hrest i hi he
      rw [Function.update_of_ne he, hhead]
      exact (h.links hi).congr (fun y hy => (hnode y hy).1) (fun y hy => (hnode y hy).2)
  nodup {i} hi := by
    by_cases he : i = sel
    · subst he
      rw [Function.update_self]
      exact hnd
    · rw [Function.update_of_ne he]
      exact h.nodup hi
  disj {i j x} hi hj hxi hxj := by
    -- a node of the new list is on no other list
    have hnew : ∀ k < 28, x ∈ xs → x ∈ fl k → k = sel := fun k hk hx hxk =>
      (hsub x hx).elim (fun hxs => h.disj hk hs hxk hxs) (fun hno => absurd ⟨k, hk, hxk⟩ hno)
    by_cases hei : i = sel <;> by_cases hej : j = sel
    · rw [hei, hej]
    · rw [hei, Function.update_self] at hxi
      rw [Function.update_of_ne hej] at hxj
      exact absurd (hnew j hj hxi hxj) hej
    · rw [hej, Function.update_self] at hxj
      rw [Function.update_of_ne hei] at hxi
      exact absurd (hnew i hi hxj hxi) hei
    · rw [Function.update_of_ne hei] at hxi
      rw [Function.update_of_ne hej] at hxj
      exact h.disj hi hj hxi hxj

/-! ## Attaching a box -/

/-- The loom after `bloqAttach` puts `box` before the first box `fre` of the list `sel`. -/
def attached (rut : Nat) (m : Loom) (box sel fre : Nat) : Loom := fun w =>
  if w = rut + sel then box
  else if fre ≠ 0 ∧ w = fre + 2 then box
  else if w = box + 3 then fre
  else if w = box + 2 then 0
  else m w

section Attach

variable {fre : Nat}

theorem bloqAttach_eq (hlow : rut + 32 ≤ box) (hs : freeSelect (m box) = sel)
    (hfre : m (rut + sel) = fre) (hpre : fre ≠ 0 → m (fre + 2) = 0)
    (hfar : fre ≠ 0 → box + 5 ≤ fre ∨ fre + 5 ≤ box) :
    bloqAttach rut m box = .ok (attached rut m box sel fre) := by
  have hlt : sel < 28 := hs ▸ freeSelect_lt _
  have hread : (m.set (box + 2) 0) (rut + sel) = fre := by
    rw [Loom.set_ne (by omega), hfre]
  unfold bloqAttach
  simp only [hs, hfre, hread]
  by_cases hz : fre = 0
  · rw [if_neg (by simpa using hz)]
    simp only [pure, Except.pure, Except.ok.injEq]
    funext w
    simp [attached, Loom.set, hz]
  · have hfar' := hfar hz
    have hassert : ((m.set (box + 2) 0).set (box + 3) fre) (fre + 2) = 0 := by
      rw [Loom.set_ne (by omega), Loom.set_ne (by omega)]
      exact hpre hz
    rw [if_pos hz, must_bind hassert]
    simp only [pure, Except.pure, Except.ok.injEq]
    funext w
    simp [attached, Loom.set, hz]

theorem attached_head {i : Nat} (hi : i < 28) (hlow : rut + 32 ≤ box)
    (hfre : fre ≠ 0 → rut + 32 ≤ fre) :
    attached rut m box sel fre (rut + i) = if i = sel then box else m (rut + i) := by
  unfold attached
  by_cases he : i = sel
  · simp [he]
  · have hne : ¬ (fre ≠ 0 ∧ rut + i = fre + 2) := by
      rintro ⟨hz, hw⟩
      have := hfre hz
      omega
    rw [if_neg (by omega), if_neg hne, if_neg (by omega), if_neg (by omega), if_neg he]

/-- The words of a box that is neither the new one nor the one it is put before. -/
theorem attached_other {x k : Nat} (hs : sel < 28) (hk : k < 5) (hlow : rut + 32 ≤ x)
    (hbox : x + 5 ≤ box ∨ box + 5 ≤ x) (hfre : fre ≠ 0 → x + 5 ≤ fre ∨ fre + 5 ≤ x) :
    attached rut m box sel fre (x + k) = m (x + k) := by
  have hne : ¬ (fre ≠ 0 ∧ x + k = fre + 2) := by
    rintro ⟨hz, hw⟩
    have := hfre hz
    omega
  unfold attached
  rw [if_neg (by omega), if_neg hne, if_neg (by omega), if_neg (by omega)]

/-- `bloqAttach` always returns, puts the box at the front of its list, and changes
nothing but heads and links. -/
theorem Lists.attach (h : Lists m rut fl) (hsp : Spread rut (fun x => x = box ∨ OnList fl x))
    (hnew : ¬ OnList fl box) :
    ∃ m', bloqAttach rut m box = .ok m' ∧
      Lists m' rut
        (Function.update fl (freeSelect (m box)) (box :: fl (freeSelect (m box)))) ∧
      Relinked rut (fun x => x = box ∨ OnList fl x) m m' := by
  generalize hsel : freeSelect (m box) = sel
  have hs : sel < 28 := hsel ▸ freeSelect_lt _
  have hlow : rut + 32 ≤ box := hsp.low (.inl rfl)
  generalize hfre : m (rut + sel) = fre
  have hlink := h.links hs
  rw [hfre] at hlink
  have hon : fre ≠ 0 → OnList fl fre := fun hz => ⟨sel, hs, hlink.head_mem hz⟩
  have hflow : fre ≠ 0 → rut + 32 ≤ fre := fun hz => hsp.low (.inr (hon hz))
  have hfar : ∀ {x}, OnList fl x → x + 5 ≤ box ∨ box + 5 ≤ x := fun {x} hx =>
    (hsp.apart (.inr hx) (.inl rfl)).resolve_left fun he => hnew (he ▸ hx)
  have hffar : fre ≠ 0 → box + 5 ≤ fre ∨ fre + 5 ≤ box := fun hz => (hfar (hon hz)).symm
  -- a box on a list other than the first of this one keeps its links
  have hkeep : ∀ {x k}, OnList fl x → x ≠ fre → k < 5 →
      attached rut m box sel fre (x + k) = m (x + k) := fun {x k} hx hne hk =>
    attached_other hs hk (hsp.low (.inr hx)) (hfar hx) fun hz =>
      (hsp.apart (.inr hx) (.inr (hon hz))).resolve_left hne
  refine ⟨_, bloqAttach_eq hlow hsel hfre hlink.pre_head hffar, h.update hs ?_ ?_ ?_ ?_, ?_⟩
  · rw [attached_head hs hlow hflow, if_pos rfl]
    refine hlink.push (by omega) ?_ ?_ (fun y hy => ?_) (fun y hy => ?_) (h.nodup hs)
    · unfold attached
      rw [if_neg (by omega), if_neg (by omega), if_neg (by omega), if_pos (by omega)]
    · unfold attached
      rw [if_neg (by omega), if_neg (by omega), if_pos (by omega)]
    · have hy' : OnList fl y := ⟨sel, hs, hy⟩
      by_cases he : y = fre
      · have hz : fre ≠ 0 := he ▸ hlink.ne_nil hy
        have := hflow hz
        rw [if_pos he]
        unfold attached
        rw [if_neg (by omega), if_pos ⟨hz, by omega⟩]
      · rw [if_neg he]
        exact hkeep hy' he (by omega)
    · have hy' : OnList fl y := ⟨sel, hs, hy⟩
      have hylow := hsp.low (.inr hy')
      have hyfar := hfar hy'
      have hyfre : fre ≠ 0 → y = fre ∨ y + 5 ≤ fre ∨ fre + 5 ≤ y := fun hz =>
        hsp.apart (.inr hy') (.inr (hon hz))
      unfold attached
      rw [if_neg (by omega), if_neg (by omega), if_neg (by omega), if_neg (by omega)]
  · exact List.nodup_cons.mpr ⟨fun hm => hnew ⟨sel, hs, hm⟩, h.nodup hs⟩
  · intro x hx
    rcases List.mem_cons.mp hx with rfl | hx
    · exact .inr hnew
    · exact .inl hx
  · intro i hi hne
    refine ⟨by rw [attached_head hi hlow hflow, if_neg hne], fun y hy => ?_⟩
    have hyf : y ≠ fre := by
      rintro rfl
      exact hne (h.disj hi hs hy (hlink.head_mem ((h.links hi).ne_nil hy)))
    exact ⟨hkeep ⟨i, hi, hy⟩ hyf (by omega), hkeep ⟨i, hi, hy⟩ hyf (by omega)⟩
  · intro w hw hx
    have hfw : ¬ (fre ≠ 0 ∧ w = fre + 2) := fun hz => (hx fre (.inr (hon hz.1))).1 hz.2
    unfold attached
    rw [if_neg (hw sel hs), if_neg hfw, if_neg (hx box (.inl rfl)).2,
      if_neg (hx box (.inl rfl)).1]

end Attach

/-! ## Detaching a box -/

theorem bloqDetach_apply (hs : freeSelect (m box) = sel) (w : Nat) :
    bloqDetach rut m box w =
      if m (box + 3) ≠ 0 ∧ w = m (box + 3) + 2 then m (box + 2)
      else if m (box + 2) ≠ 0 ∧ w = m (box + 2) + 3 then m (box + 3)
      else if m (box + 2) = 0 ∧ w = rut + sel then m (box + 3)
      else m w := by
  unfold bloqDetach
  simp only [hs]
  by_cases hp : m (box + 2) = 0 <;> by_cases hn : m (box + 3) = 0 <;>
    simp [Loom.set, hp, hn]

/-- `bloqDetach` takes the box off its list and changes nothing but heads and links. -/
theorem Lists.detach (h : Lists m rut fl) (hsp : Spread rut (OnList fl))
    (hbox : box ∈ fl (freeSelect (m box))) :
    Lists (bloqDetach rut m box) rut
        (Function.update fl (freeSelect (m box)) ((fl (freeSelect (m box))).erase box)) ∧
      Relinked rut (OnList fl) m (bloqDetach rut m box) := by
  generalize hsel : freeSelect (m box) = sel at hbox ⊢
  have hs : sel < 28 := hsel ▸ freeSelect_lt _
  have hlink := h.links hs
  have hnd : (0 :: fl sel).Nodup :=
    List.nodup_cons.mpr ⟨fun h0 => hlink.ne_nil h0 rfl, h.nodup hs⟩
  have happ := @bloqDetach_apply m rut box sel hsel
  generalize hpre : m (box + 2) = pre at happ
  generalize hnex : m (box + 3) = nex at happ
  have hon : OnList fl box := ⟨sel, hs, hbox⟩
  have hponl : pre ≠ 0 → OnList fl pre := fun hz =>
    ⟨sel, hs, hpre ▸ h.pre_onList hs hbox (hpre.symm ▸ hz)⟩
  have hnonl : nex ≠ 0 → OnList fl nex := fun hz =>
    ⟨sel, hs, hnex ▸ h.nex_onList hs hbox (hnex.symm ▸ hz)⟩
  have hpfar : ∀ {y}, OnList fl y → pre ≠ 0 → y = pre ∨ y + 5 ≤ pre ∨ pre + 5 ≤ y :=
    fun hy hz => hsp.apart hy (hponl hz)
  have hnfar : ∀ {y}, OnList fl y → nex ≠ 0 → y = nex ∨ y + 5 ≤ nex ∨ nex + 5 ≤ y :=
    fun hy hz => hsp.apart hy (hnonl hz)
  have hhead : ∀ {i}, i < 28 → bloqDetach rut m box (rut + i) =
      if pre = 0 ∧ i = sel then nex else m (rut + i) := by
    intro i hi
    have h1 : ¬ (nex ≠ 0 ∧ rut + i = nex + 2) := fun hc => by
      have := hsp.low (hnonl hc.1)
      omega
    have h2 : ¬ (pre ≠ 0 ∧ rut + i = pre + 3) := fun hc => by
      have := hsp.low (hponl hc.1)
      omega
    rw [happ, if_neg h1, if_neg h2]
    simp only [Nat.add_left_cancel_iff]
  have hp : ∀ {y}, OnList fl y → bloqDetach rut m box (y + 2) =
      if y = nex then pre else m (y + 2) := by
    intro y hy
    have hlow := hsp.low hy
    have := hpfar hy
    rw [happ]
    by_cases he : y = nex
    · rw [if_pos (by omega), if_pos he]
    · rw [if_neg (by omega), if_neg (by omega), if_neg (by omega), if_neg he]
  have hn : ∀ {y}, OnList fl y → bloqDetach rut m box (y + 3) =
      if y = pre then nex else m (y + 3) := by
    intro y hy
    have hlow := hsp.low hy
    have := hnfar hy
    rw [happ, if_neg (by omega)]
    by_cases he : y = pre
    · rw [if_pos (by omega), if_pos he]
    · rw [if_neg (by omega), if_neg (by omega), if_neg he]
  refine ⟨h.update hs ?_ ((h.nodup hs).erase _) (fun x hx => .inl (List.mem_of_mem_erase hx)) ?_, ?_⟩
  · have herase := hlink.erase hnd hbox (fun y hy => (hp ⟨sel, hs, hy⟩).trans (by rw [hnex, hpre]))
      (fun y hy => (hn ⟨sel, hs, hy⟩).trans (by rw [hpre, hnex]))
    rw [hpre, hnex] at herase
    rw [hhead hs]
    simpa using herase
  · intro i hi hne
    refine ⟨by rw [hhead hi, if_neg fun hc => hne hc.2], fun y hy => ?_⟩
    have hy' : OnList fl y := ⟨i, hi, hy⟩
    have hynot : ∀ {z}, z ∈ fl sel → y ≠ z := by
      rintro z hz rfl
      exact hne (h.disj hi hs hy hz)
    have hyz : y ≠ 0 := (h.links hi).ne_nil hy
    constructor
    · rw [hp hy', if_neg]
      rintro rfl
      exact hynot (hnex ▸ h.nex_onList hs hbox (hnex.symm ▸ hyz)) rfl
    · rw [hn hy', if_neg]
      rintro rfl
      exact hynot (hpre ▸ h.pre_onList hs hbox (hpre.symm ▸ hyz)) rfl
  · intro w hw hx
    rw [happ, if_neg fun hc => (hx nex (hnonl hc.1)).1 hc.2,
      if_neg fun hc => (hx pre (hponl hc.1)).2 hc.2, if_neg fun hc => hw sel hs hc.2]

end Vere.Mem
