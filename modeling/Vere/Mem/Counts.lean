import Vere.Lib.Refs
import Vere.Mem.Grab
import Vere.Mem.Free
import Vere.Mem.Noun

/-!
# Vere.Mem.Counts

The invariant of the reference counts, and what each edit of the heap does to it.

`Counted r B fl live held raw` says of the heap of a rail that its boxes in use are those of the
nouns `live` and the boxes `raw`, which are not counted: storage of the C code, or a box that is
being made or let go. References to a noun are those of its fellows and those of the C code,
`held`; the use count of its box is their number, or is stuck.

* `Counted.recount`: a reference is gained or lost
* `Counted.part`, `Counted.adopt`: a noun is let go, or made, of the box that holds it
* `Counted.grab`, `Counted.write`, `Counted.free`: what is done to a box that is not counted
-/

namespace Vere.Mem

open Vere.Lib

/-! ### Words -/

theorem dogOf_eq {a c : Nat} (ha : a < 2 ^ 29) (hc : c < 2) : dogOf a 0 c = 2 ^ 31 + 4 * a + c := by
  have hshift : (a <<< 2) % 2 ^ 32 = 4 * a := by
    rw [Nat.shiftLeft_eq]
    omega
  have hdog : 2 ^ 31 ||| 4 * a = 2 ^ 31 + 4 * a :=
    ((Nat.two_pow_add_eq_or_of_lt (i := 31) (by omega) 1).trans (by rw [Nat.mul_one])).symm
  have hlast : 2 ^ 31 + 4 * a = 2 ^ 2 * (2 ^ 29 + a) := by omega
  rw [dogOf, hshift, Nat.zero_shiftLeft, Nat.or_zero, hdog, hlast,
    ← Nat.two_pow_add_eq_or_of_lt (by omega)]

section Words

variable {a d : Nat}

theorem pomOf_eq (ha : a < 2 ^ 29) : pomOf a = 2 ^ 31 + 4 * a := dogOf_eq ha (by omega)

theorem pugOf_eq (ha : a < 2 ^ 29) : pugOf a = 2 ^ 31 + 4 * a + 1 := dogOf_eq ha (by omega)

theorem noNoun_eq : noNoun = 2 ^ 31 := dogOf_eq (by omega) (by omega)

theorem flyIsCat_iff : flyIsCat d = true ↔ d < 2 ^ 31 := by
  rw [flyIsCat, decide_eq_true_iff, Nat.div_eq_zero_iff]
  omega

/-- A dog is told by its ray and its kind. -/
theorem dog_eq (ha : a < 2 ^ 29) (h : d = pomOf a ∨ d = pugOf a) :
    dogA d = a ∧ flyIsCat d = false ∧ (dogIsPom d = true → d = pomOf a) ∧
      (dogIsPom d = false → d = pugOf a) := by
  rw [pomOf_eq ha, pugOf_eq ha] at h ⊢
  rw [← Bool.not_eq_true, flyIsCat_iff, dogA, dogIsPom, decide_eq_true_iff, decide_eq_false_iff_not]
  omega

end Words

/-! ### What nouns hold -/

/-- The box of a dog. -/
def boxOf (d : Nat) : Nat := dogA d - 2

/-- The references that a dog holds. -/
def kids (m : Loom) (d : Nat) : List Nat :=
  if dogIsPom d then [m (dogA d + 1), m (dogA d + 2)] else []

/-- How many words a dog has in its box. -/
def extent (m : Loom) (d : Nat) : Nat := if dogIsPom d then 3 else m (dogA d + 1) + 2

/-- A dog whose box is as large as before, with the same words but for the count. -/
structure Fixed (m m' : Loom) (d : Nat) : Prop where
  size : m' (boxOf d) = m (boxOf d)
  data : ∀ w, dogA d ≤ w → w + 1 < boxOf d + m (boxOf d) → m' w = m w

section Fixed

variable {m m' m'' : Loom} {d : Nat}

theorem Fixed.refl (m : Loom) (d : Nat) : Fixed m m d := ⟨rfl, fun _ _ _ => rfl⟩

theorem Fixed.trans (h : Fixed m m' d) (h' : Fixed m' m'' d) : Fixed m m'' d := by
  refine ⟨h'.size.trans h.size, fun w hlo hhi => ?_⟩
  rw [h'.data w hlo (by rw [h.size]; exact hhi), h.data w hlo hhi]

/-- A dog fits its box, after the size and the count and before the size again. -/
def Roomy (m : Loom) (d : Nat) : Prop := 2 ≤ dogA d ∧ extent m d + 3 ≤ m (boxOf d)

theorem Fixed.word (h : Fixed m m' d) (hroom : Roomy m d) {k : Nat} (hk : k < extent m d) :
    m' (dogA d + k) = m (dogA d + k) := by
  obtain ⟨hlo, hroom⟩ := hroom
  have hbox : boxOf d + 2 = dogA d := Nat.sub_add_cancel hlo
  exact h.data _ (Nat.le_add_right _ _) (by omega)

theorem Fixed.kids (h : Fixed m m' d) (hroom : Roomy m d) : kids m' d = kids m d := by
  rw [Mem.kids, Mem.kids]
  by_cases hpom : dogIsPom d = true
  · have hextent : extent m d = 3 := if_pos hpom
    rw [if_pos hpom, if_pos hpom, h.word hroom (by omega), h.word hroom (by omega)]
  · rw [if_neg hpom, if_neg hpom]

theorem Fixed.extent (h : Fixed m m' d) (hroom : Roomy m d) : extent m' d = extent m d := by
  rw [Mem.extent, Mem.extent]
  by_cases hpom : dogIsPom d = true
  · rw [if_pos hpom, if_pos hpom]
  · have hextent : Mem.extent m d = m (dogA d + 1) + 2 := if_neg hpom
    rw [if_neg hpom, if_neg hpom, h.word hroom (by omega)]

theorem Fixed.roomy (h : Fixed m m' d) (hroom : Roomy m d) : Roomy m' d := by
  refine ⟨hroom.1, ?_⟩
  rw [h.extent hroom, h.size]
  exact hroom.2

theorem number_congr {ray n : Nat} (h : ∀ k < n, m' (ray + k) = m (ray + k)) :
    number m' ray n = number m ray n := by
  induction n generalizing ray with
  | zero => rfl
  | succ n ih =>
      have hhead := h 0 (by omega)
      rw [Nat.add_zero] at hhead
      rw [number, number, hhead, ih fun k hk => by
        rw [Nat.add_assoc, Nat.add_comm 1 k]
        exact h (k + 1) (by omega)]

/-- A noun is what it was if all of its dogs are. -/
theorem Reads.fixed {S : Nat → Prop} (hS : ∀ d, S d → Roomy m d ∧ Fixed m m' d)
    (hkid : ∀ d, S d → ∀ k ∈ Mem.kids m d, flyIsCat k = true ∨ S k) {n : Noun}
    (hd : flyIsCat d = true ∨ S d) (h : Reads m n d) : Reads m' n d := by
  induction n generalizing d with
  | atom x =>
      rcases h with h | ⟨hcat, hpom, hx⟩
      · exact .inl h
      · refine .inr ⟨hcat, hpom, ?_⟩
        obtain ⟨hroom, hfix⟩ := hS d (hd.resolve_left (by simp [hcat]))
        have hextent : extent m d = m (dogA d + 1) + 2 := if_neg (by simp [hpom])
        rw [hfix.word hroom (k := 1) (by omega), hx]
        refine (number_congr fun k hk => ?_).symm
        rw [Nat.add_assoc]
        exact hfix.word hroom (by omega)
  | cell a b iha ihb =>
      obtain ⟨hcat, hpom, ha, hb⟩ := h
      have hSd : S d := hd.resolve_left (by simp [hcat])
      obtain ⟨hroom, hfix⟩ := hS d hSd
      have hextent : extent m d = 3 := if_pos hpom
      have hkids : Mem.kids m d = [m (dogA d + 1), m (dogA d + 2)] := if_pos hpom
      refine ⟨hcat, hpom, ?_, ?_⟩
      · rw [hfix.word hroom (k := 1) (by omega)]
        exact iha (hkid d hSd _ (by rw [hkids]; exact List.mem_cons_self)) ha
      · rw [hfix.word hroom (k := 2) (by omega)]
        exact ihb (hkid d hSd _ (by rw [hkids]; simp)) hb

end Fixed

/-! ### The invariant -/

/-- The heap lies on one beam of the loom. -/
structure OnBeam (r : Rail) : Prop where
  lt : r.hat < 2 ^ 28
  beam : rayA r.rut = rayA r.hat

namespace OnBeam

variable {r : Rail} {n hat : Nat}

theorem ray (h : OnBeam r) (hlo : r.rut ≤ n) (hhi : n ≤ r.hat) : rayA n = rayA r.hat :=
  le_antisymm (Nat.div_le_div_right hhi) (h.beam.ge.trans (Nat.div_le_div_right hlo))

theorem shrink (h : OnBeam r) (hlo : r.rut ≤ hat) (hhi : hat ≤ r.hat) (m : Loom) :
    OnBeam { r with hat := hat, loom := m } :=
  ⟨hhi.trans_lt h.lt, h.beam.trans (h.ray hlo hhi).symm⟩

theorem grow (h : OnBeam r) (hn : n + rayB r.hat < halfSize) :
    r.hat + n < 2 ^ 28 ∧ rayA r.rut = rayA (r.hat + n) := by
  have hhalf : halfSize = 2 ^ 27 := rfl
  have hlt := h.lt
  have hbeam := h.beam
  simp only [rayA, rayB, hhalf] at hn hbeam ⊢
  omega

end OnBeam

/-- A use count that stays as it is. -/
def stuck : Nat := 0x7fffffff

/-- The nouns of a rail and their counts. -/
structure Counted (r : Rail) (B : Finset Nat) (fl : Nat → List Nat) (live : Finset Nat)
    (held : List Nat) (raw : Finset Nat) : Prop where
  rock : r.hip = .rock
  mem : r.mem = false
  on : OnBeam r
  heap : Heap r.loom r.rut r.hat B fl ∅
  dog : ∀ {d}, d ∈ live → d = pomOf (dogA d) ∨ d = pugOf (dogA d)
  room : ∀ {d}, d ∈ live → Roomy r.loom d
  box : ∀ {d}, d ∈ live → Live r.loom B (boxOf d) ∧ boxOf d ∉ raw
  inj : ∀ {d e}, d ∈ live → e ∈ live → boxOf d = boxOf e → d = e
  idle : ∀ {b}, b ∈ raw → Live r.loom B b
  all : ∀ {b}, Live r.loom B b → b ∈ raw ∨ ∃ d ∈ live, boxOf d = b
  kid : ∀ {d}, d ∈ live → ∀ k ∈ kids r.loom d, flyIsCat k = true ∨ k ∈ live
  keep : ∀ k ∈ held, flyIsCat k = true ∨ k ∈ live
  use : ∀ {d}, d ∈ live → r.loom (boxOf d + 1) = stuck ∨
    r.loom (boxOf d + 1) < stuck ∧ r.loom (boxOf d + 1) = refs (kids r.loom) live held d
  reads : ∀ {d}, d ∈ live → ∃ n, Reads r.loom n d

section Counted

variable {r r' : Rail} {B B' : Finset Nat} {fl fl' : Nat → List Nat} {live : Finset Nat}
  {held held' : List Nat} {raw : Finset Nat} {d e b u v w : Nat}

namespace Counted

theorem below (h : Counted r B fl live held raw) (hb : Live r.loom B b) :
    r.rut + 32 ≤ b ∧ b + 5 ≤ r.hat := by
  have hmin := h.heap.min hb.1
  have hhigh := h.heap.tiling.high hb.1
  exact ⟨h.heap.low hb.1, by omega⟩

/-- Where a dog is. -/
theorem ray (h : Counted r B fl live held raw) (hd : d ∈ live) :
    dogA d = boxOf d + 2 ∧ r.rut + 34 ≤ dogA d ∧ dogA d < 2 ^ 28 := by
  have htwo := (h.room hd).1
  have hlow := h.on.lt
  obtain ⟨hlo, hhi⟩ := h.below (h.box hd).1
  have hbox : boxOf d + 2 = dogA d := Nat.sub_add_cancel htwo
  omega

theorem notCat (h : Counted r B fl live held raw) (hd : d ∈ live) : flyIsCat d = false := by
  have hray := (h.ray hd).2.2
  have hhalf : halfSize = 2 ^ 27 := rfl
  exact (dog_eq (by omega) (h.dog hd)).2.1

theorem ne_noNoun (h : Counted r B fl live held raw) (hd : d ∈ live) : d ≠ noNoun := by
  rintro rfl
  have hray := (h.ray hd).2.1
  rw [noNoun_eq, dogA] at hray
  omega

/-- References that are held in another order. -/
theorem perm (h : Counted r B fl live held raw) (hp : held.Perm held') :
    Counted r B fl live held' raw :=
  { h with
    keep := fun k hk => h.keep k (hp.mem_iff.2 hk)
    use := fun {d} hd => by
      have huse := h.use hd
      rw [refs, hp.count_eq] at huse
      exact huse }

/-- No word of another box is the use count of this one. -/
theorem use_ne (h : Counted r B fl live held raw) (hd : d ∈ live) (hb : Live r.loom B b)
    (hne : b ≠ boxOf d) (hlo : b ≤ w) (hhi : w < b + r.loom b) : w ≠ boxOf d + 1 := by
  have hbox := (h.box hd).1.1
  have hmin := h.heap.min hbox
  rcases h.heap.tiling.sides hb.1 hbox with he | he | he
  · exact absurd he hne
  · omega
  · omega

/-- A noun whose count is changed is fixed. -/
theorem fixed_use (h : Counted r B fl live held raw) (hd : d ∈ live) (he : e ∈ live) (u : Nat) :
    Fixed r.loom (r.loom.set (boxOf d + 1) u) e := by
  obtain ⟨hray, -, -⟩ := h.ray he
  have hmin := h.heap.min (h.box he).1.1
  by_cases heq : e = d
  · subst heq
    exact ⟨Loom.set_ne (by omega), fun w hlo hhi => Loom.set_ne (by omega)⟩
  · have hne : boxOf e ≠ boxOf d := fun hbox => heq (h.inj he hd hbox)
    refine ⟨Loom.set_ne (h.use_ne hd (h.box he).1 hne le_rfl (by omega)), fun w hlo hhi => ?_⟩
    exact Loom.set_ne (h.use_ne hd (h.box he).1 hne (by omega) (by omega))

/-- The invariant from a loom in which all nouns are fixed. -/
theorem reads_fixed (h : Counted r B fl live held raw) {m' : Loom}
    (hfix : ∀ {e}, e ∈ live → Fixed r.loom m' e) (hd : d ∈ live) : ∃ n, Reads m' n d := by
  obtain ⟨n, hn⟩ := h.reads hd
  exact ⟨n, hn.fixed (fun e he => ⟨h.room he, hfix he⟩) (fun e he => h.kid he) (.inr hd)⟩

/-- A noun in a box whose words are as they were is fixed. -/
theorem fixed_of_words (h : Counted r B fl live held raw) (hd : d ∈ live) {m' : Loom}
    (hword : ∀ w, boxOf d ≤ w → w < boxOf d + r.loom (boxOf d) → m' w = r.loom w) :
    Fixed r.loom m' d := by
  have hray := (h.ray hd).1
  have hmin := h.heap.min (h.box hd).1.1
  exact ⟨hword _ le_rfl (by omega), fun w hlo hhi => hword w (by omega) (by omega)⟩

/-- The nouns of a rail that is changed, but not in the boxes of its nouns. -/
theorem carry {raw' : Finset Nat} (h : Counted r B fl live held raw) (hhip : r'.hip = r.hip)
    (hmem : r'.mem = r.mem) (hon : OnBeam r')
    (hheap : Heap r'.loom r'.rut r'.hat B' fl' ∅)
    (hword : ∀ {e}, e ∈ live → ∀ w, boxOf e ≤ w → w < boxOf e + r.loom (boxOf e) →
      r'.loom w = r.loom w)
    (hbox : ∀ {e}, e ∈ live → Live r'.loom B' (boxOf e) ∧ boxOf e ∉ raw')
    (hidle : ∀ {b}, b ∈ raw' → Live r'.loom B' b)
    (hall : ∀ {b}, Live r'.loom B' b → b ∈ raw' ∨ ∃ e ∈ live, boxOf e = b) :
    Counted r' B' fl' live held raw' := by
  have hfix : ∀ {e}, e ∈ live → Fixed r.loom r'.loom e := fun he => h.fixed_of_words he (hword he)
  have hkids : ∀ e ∈ live, kids r'.loom e = kids r.loom e := fun e he => (hfix he).kids (h.room he)
  refine ⟨hhip.trans h.rock, hmem.trans h.mem, hon, hheap, h.dog,
    fun he => (hfix he).roomy (h.room he), hbox, h.inj, hidle, hall,
    fun {e} he k hk => h.kid he k (hkids e he ▸ hk), h.keep, fun {e} he => ?_,
    fun he => h.reads_fixed hfix he⟩
  have hmin := h.heap.min (h.box he).1.1
  rw [refs_congr hkids, hword he _ (by omega) (by omega)]
  exact h.use he

/-- A reference to a noun that is counted. -/
theorem recount (h : Counted r B fl live held raw) (hd : d ∈ live) (hu : u ≠ 0)
    (hheld : ∀ k ∈ held', flyIsCat k = true ∨ k ∈ live)
    (huse : u = stuck ∨ u < stuck ∧ u = refs (kids r.loom) live held' d)
    (hother : ∀ e ∈ live, e ≠ d →
      refs (kids r.loom) live held' e = refs (kids r.loom) live held e) :
    Counted { r with loom := r.loom.set (boxOf d + 1) u } B fl live held' raw := by
  have hbox := (h.box hd).1
  have hfix : ∀ {e}, e ∈ live → Fixed r.loom (r.loom.set (boxOf d + 1) u) e :=
    fun he => h.fixed_use hd he u
  have hkids : ∀ e ∈ live, kids (r.loom.set (boxOf d + 1) u) e = kids r.loom e :=
    fun e he => (hfix he).kids (h.room he)
  have hlive : ∀ {c}, Live (r.loom.set (boxOf d + 1) u) B c ↔ Live r.loom B c := by
    intro c
    rw [Live, Live]
    by_cases hc : c = boxOf d
    · rw [hc, Loom.set_same]
      exact ⟨fun _ => hbox, fun _ => ⟨hbox.1, hu⟩⟩
    · rw [Loom.set_ne (by omega)]
  have hheap : Heap (r.loom.set (boxOf d + 1) u) r.rut r.hat B fl ∅ :=
    h.heap.setUse hbox.1 (fun _ => Iff.rfl) ⟨fun hz => absurd hz.2 hu, fun hz => absurd hz.2 hbox.2⟩
      (fun hm => absurd hm (Finset.notMem_empty _))
  refine ⟨h.rock, h.mem, ⟨h.on.lt, h.on.beam⟩, hheap, h.dog, fun he => (hfix he).roomy (h.room he),
    fun he => ⟨hlive.2 (h.box he).1, (h.box he).2⟩, h.inj, fun hb => hlive.2 (h.idle hb),
    fun hb => h.all (hlive.1 hb), fun {e} he k hk => h.kid he k (hkids e he ▸ hk), hheld, ?_,
    fun he => h.reads_fixed hfix he⟩
  intro e he
  simp only
  rw [refs_congr hkids]
  by_cases heq : e = d
  · rw [heq, Loom.set_same]
    exact huse
  · have hne : boxOf e ≠ boxOf d := fun hbe => heq (h.inj he hd hbe)
    rw [Loom.set_ne (by omega), hother e he heq]
    exact h.use he

/-- A direct atom that is held, or not. -/
theorem cat (h : Counted r B fl live held raw) (hw : flyIsCat w = true) :
    Counted r B fl live (w :: held) raw := by
  refine { h with
    keep := fun k hk => ?_
    use := fun {d} hd => ?_ }
  · rcases List.mem_cons.1 hk with rfl | hk
    · exact .inl hw
    · exact h.keep k hk
  · have hne : w ≠ d := fun he => by
      rw [he, h.notCat hd] at hw
      cases hw
    rw [refs_cons_ne hne]
    exact h.use hd

theorem dropCat (h : Counted r B fl live (w :: held) raw) (hw : flyIsCat w = true) :
    Counted r B fl live held raw := by
  refine { h with
    keep := fun k hk => h.keep k (List.mem_cons_of_mem _ hk)
    use := fun {d} hd => ?_ }
  have hne : w ≠ d := fun he => by
    rw [he, h.notCat hd] at hw
    cases hw
  have huse := h.use hd
  rwa [refs_cons_ne hne] at huse

/-- A noun that only one reference is left to is no longer counted. -/
theorem part (h : Counted r B fl live (d :: held) raw) (hd : d ∈ live)
    (hone : refs (kids r.loom) live (d :: held) d = 1) :
    Counted r B fl (live.erase d) (kids r.loom d ++ held) (insert (boxOf d) raw) := by
  rw [refs_cons_self] at hone
  have hnone : ¬ 0 < refs (kids r.loom) live held d := by omega
  rw [refs_pos, not_or, not_exists] at hnone
  obtain ⟨hheld, hkid⟩ := hnone
  have hstay : ∀ k, k ≠ d → (flyIsCat k = true ∨ k ∈ live) →
      flyIsCat k = true ∨ k ∈ live.erase d := by
    intro k hne hk
    exact hk.imp id fun hk => Finset.mem_erase.2 ⟨hne, hk⟩
  have hkids : ∀ e ∈ live, ∀ k ∈ kids r.loom e, k ≠ d := by
    rintro e he k hk rfl
    exact hkid e ⟨he, hk⟩
  refine ⟨h.rock, h.mem, h.on, h.heap, fun he => h.dog (Finset.mem_of_mem_erase he),
    fun he => h.room (Finset.mem_of_mem_erase he), fun {e} he => ?_,
    fun he he' => h.inj (Finset.mem_of_mem_erase he) (Finset.mem_of_mem_erase he'),
    fun {b} hb => ?_, fun {b} hb => ?_, fun {e} he k hk => ?_, fun k hk => ?_, fun {e} he => ?_,
    fun he => h.reads (Finset.mem_of_mem_erase he)⟩
  · obtain ⟨hne, he⟩ := Finset.mem_erase.1 he
    refine ⟨(h.box he).1, fun hm => ?_⟩
    rcases Finset.mem_insert.1 hm with hm | hm
    · exact hne (h.inj he hd hm)
    · exact (h.box he).2 hm
  · rcases Finset.mem_insert.1 hb with rfl | hb
    · exact (h.box hd).1
    · exact h.idle hb
  · rcases h.all hb with hb | ⟨e, he, rfl⟩
    · exact .inl (Finset.mem_insert_of_mem hb)
    · by_cases heq : e = d
      · exact .inl (heq ▸ Finset.mem_insert_self _ _)
      · exact .inr ⟨e, Finset.mem_erase.2 ⟨heq, he⟩, rfl⟩
  · have he := Finset.mem_of_mem_erase he
    exact hstay k (hkids e he k hk) (h.kid he k hk)
  · rcases List.mem_append.1 hk with hk | hk
    · exact hstay k (hkids d hd k hk) (h.kid hd k hk)
    · exact hstay k (fun he => hheld (he ▸ hk)) (h.keep k (List.mem_cons_of_mem _ hk))
  · obtain ⟨hne, he⟩ := Finset.mem_erase.1 he
    have huse := h.use he
    rwa [refs_cons_ne hne.symm, ← refs_erase hd] at huse

/-- A box that is not counted becomes a noun, which is held. -/
theorem adopt (h : Counted r B fl live (kids r.loom d ++ held) (insert (boxOf d) raw))
    (hdog : d = pomOf (dogA d) ∨ d = pugOf (dogA d)) (hroom : Roomy r.loom d)
    (hraw : boxOf d ∉ raw) (huse : r.loom (boxOf d + 1) = 1) (hreads : ∃ n, Reads r.loom n d) :
    Counted r B fl (insert d live) (d :: held) raw := by
  have hbox : Live r.loom B (boxOf d) := h.idle (Finset.mem_insert_self _ _)
  have hnew : ∀ {e}, e ∈ live → boxOf e ≠ boxOf d := fun he heq =>
    (h.box he).2 (heq ▸ Finset.mem_insert_self _ _)
  have hd : d ∉ live := fun hd => hnew hd rfl
  have hmore : ∀ k, (flyIsCat k = true ∨ k ∈ live) → flyIsCat k = true ∨ k ∈ insert d live :=
    fun k hk => hk.imp id Finset.mem_insert_of_mem
  have hcat : flyIsCat d = false := by
    have hlow := h.on.lt
    have hhi := (h.below hbox).2
    have hray : boxOf d + 2 = dogA d := Nat.sub_add_cancel hroom.1
    have hhalf : halfSize = 2 ^ 27 := rfl
    exact (dog_eq (by omega) hdog).2.1
  refine ⟨h.rock, h.mem, h.on, h.heap, fun {e} he => ?_, fun {e} he => ?_, fun {e} he => ?_,
    fun {e e'} he he' heq => ?_, fun hb => h.idle (Finset.mem_insert_of_mem hb), fun {b} hb => ?_,
    fun {e} he k hk => ?_, fun k hk => ?_, fun {e} he => ?_, fun {e} he => ?_⟩
  · rcases Finset.mem_insert.1 he with rfl | he
    · exact hdog
    · exact h.dog he
  · rcases Finset.mem_insert.1 he with rfl | he
    · exact hroom
    · exact h.room he
  · rcases Finset.mem_insert.1 he with rfl | he
    · exact ⟨hbox, hraw⟩
    · exact ⟨(h.box he).1, fun hm => (h.box he).2 (Finset.mem_insert_of_mem hm)⟩
  · rcases Finset.mem_insert.1 he with hd₁ | hin
    · rcases Finset.mem_insert.1 he' with hd₂ | hin'
      · rw [hd₁, hd₂]
      · exact absurd (hd₁ ▸ heq.symm) (hnew hin')
    · rcases Finset.mem_insert.1 he' with hd₂ | hin'
      · exact absurd (hd₂ ▸ heq) (hnew hin)
      · exact h.inj hin hin' heq
  · rcases h.all hb with hb | ⟨e, he, rfl⟩
    · rcases Finset.mem_insert.1 hb with rfl | hb
      · exact .inr ⟨d, Finset.mem_insert_self _ _, rfl⟩
      · exact .inl hb
    · exact .inr ⟨e, Finset.mem_insert_of_mem he, rfl⟩
  · rcases Finset.mem_insert.1 he with rfl | he
    · exact hmore k (h.keep k (List.mem_append_left _ hk))
    · exact hmore k (h.kid he k hk)
  · rcases List.mem_cons.1 hk with rfl | hk
    · exact .inr (Finset.mem_insert_self _ _)
    · exact hmore k (h.keep k (List.mem_append_right _ hk))
  · rcases Finset.mem_insert.1 he with rfl | he
    · have hzero : ¬ 0 < refs (kids r.loom) live (kids r.loom e ++ held) e := by
        rw [refs_pos, not_or, not_exists]
        refine ⟨fun hk => ?_, fun c hc => ?_⟩
        · exact hd ((h.keep e hk).resolve_left (by simp [hcat]))
        · exact hd ((h.kid hc.1 e hc.2).resolve_left (by simp [hcat]))
      rw [refs_cons_self, refs_insert hd, huse]
      exact .inr ⟨by decide, by omega⟩
    · have hne : d ≠ e := fun heq => hd (heq ▸ he)
      rw [refs_cons_ne hne, refs_insert hd]
      exact h.use he
  · rcases Finset.mem_insert.1 he with rfl | he
    · exact hreads
    · exact h.reads he

end Counted

end Counted

end Vere.Mem
