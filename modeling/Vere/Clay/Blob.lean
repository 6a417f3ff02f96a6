import Mathlib.Data.Finmap
import Vere.Clay.Tree

/-!
# Vere.Clay.Blob

Blobs and their names (`++zaul`, `++zaru`, `++zeol`, `++zeul` and `++aqel` of `++ze`).

A blob is stored under a hash of its content, as the content itself or as a change of another
blob. `Yields` says what content a blob has. The store only grows, and a name that is taken keeps
its blob, so that a blob goes on yielding what it yields (`Yields.mono`); that a name always
stands for one content (`Sound`) rests on the names not clashing (`Apart`).
-/

namespace Vere.Clay

open Vere.Lib Vere.Hoon

/-! ### Paths as keys -/

/-- A path as a noun. -/
def pathNoun : Path → Noun
  | [] => .atom 0
  | i :: t => .cell (.atom i) (pathNoun t)

/-- The path that a noun is. -/
def pathOf : Noun → Path
  | .cell (.atom i) t => i :: pathOf t
  | _ => []

@[simp] theorem pathOf_noun (pax : Path) : pathOf (pathNoun pax) = pax := by
  induction pax with
  | nil => rfl
  | cons i t ih => rw [pathNoun, pathOf, ih]

theorem pathNoun_inj {p q : Path} (h : pathNoun p = pathNoun q) : p = q := by
  rw [← pathOf_noun p, h, pathOf_noun]

@[simp] theorem pathNoun_eq_iff {p q : Path} : pathNoun p = pathNoun q ↔ p = q :=
  ⟨pathNoun_inj, congrArg pathNoun⟩

/-! ### The arms -/

/-- `++blob`. -/
inductive Blob
  /-- A change of `q`. -/
  | delta (p q : Nat) (r : Udon)
  | direct (p : Nat) (q : Noun) (r : Umph)
  | indirect (p : Nat) (q : Noun) (r : Udon) (s : Nat)
  deriving DecidableEq

/-- `++zaax`: the name of a blob. -/
def zaax : Blob → Nat
  | .delta p _ _ => p
  | .direct p _ _ => p
  | .indirect p _ _ _ => p

/-- `lat`: the blobs by name. -/
abbrev Lat := Finmap fun _ : Nat => Blob

section arms

variable (h : Hash) (lat : Lat)

/-- `zaal`: grab blob, raw. -/
def zaal (p : Nat) : Option Blob := lat.lookup p

/-- `zaru`: grab blob. -/
def zaru : Nat → Blob → Option Noun
  | _, .direct _ q _ => some q
  | _, .indirect _ q _ _ => some q
  | 0, .delta .. => none
  | n + 1, .delta _ q r => do
    let b ← zaal lat q
    let u ← zaru n b
    lump r u

/-- `zaul`: grab blob. -/
def zaul (n : Nat) (p : Nat) : Option Noun := do
  let b ← zaal lat p
  zaru lat n b

/-- The hash of `zeol`. -/
def Hash.lobe (z : Noun) : Nat :=
  -- the tags are `%blob` and `%lobe`
  cat 7 (h.sham (.cell (.atom 0x626f6c62) z)) (h.sham (.cell (.atom 0x65626f6c) z))

/-- `zeol`: make blob delta. -/
def zeol (n : Nat) (p : Nat) (q : Udon) : Option Blob := do
  let z ← zaru lat n (.delta 0 p q)
  return .delta (h.lobe z) p q

/-- `zeul`: make blob. -/
def zeul (p : Noun) (q : Umph) : Blob := .direct (h.mug p) p q

/-- The loop of `aqel`. -/
def aqelLoop : List (Noun × Blob) → Lat × Map Nat → Lat × Map Nat
  | [], s => s
  | (pat, bar) :: l, (lut, gar) =>
    if (lut.lookup (zaax bar)).isSome then aqelLoop l (lut, put h.mug gar pat (zaax bar))
    else aqelLoop l (lut.insert (zaax bar) bar, put h.mug gar pat (zaax bar))

/-- `aqel`: fix lat. -/
def aqel (lag : Map Blob) (sta : Lat) : Lat × Map Nat := aqelLoop h (Treap.tap lag []) (sta, .nil)

end arms

/-! ### What a blob yields -/

/-- The content of a blob. -/
inductive Yields (lat : Lat) : Blob → Noun → Prop
  | direct (p : Nat) (q : Noun) (r : Umph) : Yields lat (.direct p q r) q
  | indirect (p : Nat) (q : Noun) (r : Udon) (s : Nat) : Yields lat (.indirect p q r s) q
  | delta (p : Nat) {q : Nat} {r : Udon} {b : Blob} {u v : Noun} (hb : lat.lookup q = some b)
      (hu : Yields lat b u) (hv : lump r u = some v) : Yields lat (.delta p q r) v

/-- The content that a name stands for. -/
def Named (lat : Lat) (k : Nat) (v : Noun) : Prop := ∃ b, lat.lookup k = some b ∧ Yields lat b v

/-- More blobs, under the same names. -/
def Grows (lat lut : Lat) : Prop := ∀ k b, lat.lookup k = some b → lut.lookup k = some b

section yields

variable {lat lut : Lat} {b : Blob} {u v : Noun} {k : Nat}

theorem Grows.refl (lat : Lat) : Grows lat lat := fun _ _ hb => hb

theorem Grows.trans {lit : Lat} (h₁ : Grows lat lut) (h₂ : Grows lut lit) : Grows lat lit :=
  fun k b hb => h₂ k b (h₁ k b hb)

theorem Yields.mono (hg : Grows lat lut) (hy : Yields lat b v) : Yields lut b v := by
  induction hy with
  | direct p q r => exact .direct p q r
  | indirect p q r s => exact .indirect p q r s
  | delta p hb _ hv ih => exact .delta p (hg _ _ hb) ih hv

theorem Named.mono (hg : Grows lat lut) (hn : Named lat k v) : Named lut k v := by
  obtain ⟨b, hb, hy⟩ := hn
  exact ⟨b, hg k b hb, hy.mono hg⟩

theorem Yields.unique (hu : Yields lat b u) (hv : Yields lat b v) : u = v := by
  induction hu generalizing v with
  | direct p q r => cases hv; rfl
  | indirect p q r s => cases hv; rfl
  | delta p hb _ hl ih =>
    cases hv with
    | delta _ hb' hu' hl' =>
      obtain rfl := Option.some.inj (hb.symm.trans hb')
      obtain rfl := ih hu'
      exact Option.some.inj (hl.symm.trans hl')

theorem Named.unique (hu : Named lat k u) (hv : Named lat k v) : u = v := by
  obtain ⟨b, hb, hy⟩ := hu
  obtain ⟨b', hb', hy'⟩ := hv
  obtain rfl := Option.some.inj (hb.symm.trans hb')
  exact hy.unique hy'

/-- What `zaru` returns is what the blob yields. -/
theorem yields_of_zaru {n : Nat} (h : zaru lat n b = some v) : Yields lat b v := by
  induction n generalizing b v with
  | zero =>
    cases b with
    | delta p q r => cases h
    | direct p q r => cases h; exact .direct p _ r
    | indirect p q r s => cases h; exact .indirect p _ r s
  | succ n ih =>
    cases b with
    | delta p q r =>
      simp only [zaru, zaal, Option.bind_eq_bind, Option.bind_eq_some_iff] at h
      obtain ⟨b, hb, u, hu, hv⟩ := h
      exact .delta p hb (ih hu) hv
    | direct p q r => cases h; exact .direct p _ r
    | indirect p q r s => cases h; exact .indirect p _ r s

/-- With fuel enough `zaru` returns what the blob yields. -/
theorem Yields.settles (hy : Yields lat b v) : Settles (fun n => zaru lat n b) (some v) := by
  induction hy with
  | direct p q r => exact ⟨0, fun n _ => by cases n <;> rfl⟩
  | indirect p q r s => exact ⟨0, fun n _ => by cases n <;> rfl⟩
  | delta p hb _ hv ih =>
    obtain ⟨N, hN⟩ := ih
    refine ⟨N + 1, fun n hn => ?_⟩
    obtain ⟨m, rfl⟩ : ∃ m, n = m + 1 := ⟨n - 1, by omega⟩
    simp only [zaru, zaal, hb, Option.bind_eq_bind, Option.bind_some, hN m (by omega), hv]

theorem named_of_zaul {n : Nat} (h : zaul lat n k = some v) : Named lat k v := by
  simp only [zaul, zaal, Option.bind_eq_bind, Option.bind_eq_some_iff] at h
  obtain ⟨b, hb, hv⟩ := h
  exact ⟨b, hb, yields_of_zaru hv⟩

theorem Named.settles (hn : Named lat k v) : Settles (fun n => zaul lat n k) (some v) := by
  obtain ⟨b, hb, hy⟩ := hn
  obtain ⟨N, hN⟩ := hy.settles
  refine ⟨N, fun n hle => ?_⟩
  simp only [zaul, zaal, hb, Option.bind_eq_bind, Option.bind_some, hN n hle]

end yields

/-! ### Names that do not clash -/

/-- The names that the source gives to a content. -/
def Keyed (h : Hash) (v : Noun) (k : Nat) : Prop := k = h.mug v ∨ k = h.lobe v

/-- No two of these contents have a name in common. -/
def Apart (h : Hash) (C : Noun → Prop) : Prop :=
  ∀ u v k, C u → C v → Keyed h u k → Keyed h v k → u = v

/-- Every name in the store is one of the content it stands for. -/
def Sound (h : Hash) (C : Noun → Prop) (lat : Lat) : Prop :=
  ∀ k b, lat.lookup k = some b → zaax b = k ∧ ∃ v, C v ∧ Yields lat b v ∧ Keyed h v k

section sound

variable {h : Hash} {C : Noun → Prop} {lat : Lat}

/-- A blob that is ready to be stored. -/
def Ready (h : Hash) (C : Noun → Prop) (lat : Lat) (b : Blob) (v : Noun) : Prop :=
  C v ∧ Yields lat b v ∧ Keyed h v (zaax b)

theorem Ready.mono {lut : Lat} (hg : Grows lat lut) {b : Blob} {v : Noun} (hr : Ready h C lat b v) :
    Ready h C lut b v := ⟨hr.1, hr.2.1.mono hg, hr.2.2⟩

/-- In the store a name of a content stands for it. -/
theorem Sound.named (hs : Sound h C lat) (hC : Apart h C) {k : Nat} {b : Blob} {v : Noun}
    (hb : lat.lookup k = some b) (hv : C v) (hk : Keyed h v k) : Yields lat b v := by
  obtain ⟨-, u, hu, hy, hku⟩ := hs k b hb
  rwa [hC u v k hu hv hku hk] at hy

theorem grows_insert {k : Nat} (hk : lat.lookup k = none) (b : Blob) : Grows lat (lat.insert k b) := by
  intro j c hc
  have hne : j ≠ k := by
    rintro rfl
    rw [hk] at hc
    cases hc
  rw [Finmap.lookup_insert_of_ne _ hne, hc]

theorem Sound.insert (hs : Sound h C lat) {b : Blob} {v : Noun} (hb : Ready h C lat b v)
    (hk : lat.lookup (zaax b) = none) : Sound h C (lat.insert (zaax b) b) := by
  have hg := grows_insert hk b
  intro k c hc
  by_cases hkb : k = zaax b
  · subst hkb
    rw [Finmap.lookup_insert] at hc
    obtain rfl := Option.some.inj hc
    exact ⟨rfl, v, hb.1, hb.2.1.mono hg, hb.2.2⟩
  · rw [Finmap.lookup_insert_of_ne _ hkb] at hc
    obtain ⟨hz, u, hu, hy, hn⟩ := hs k c hc
    exact ⟨hz, u, hu, hy.mono hg, hn⟩

/-- A map of files to names, and the files. -/
structure Shows (h : Hash) (lat : Lat) (q : Map Nat) (F : Path → Option Noun) : Prop where
  sorted : Treap.Ordered (gor h.mug) q
  found : ∀ x k, get h.mug q x = some k → ∃ pat v, x = pathNoun pat ∧ F pat = some v ∧ Named lat k v
  absent : ∀ pat, get h.mug q (pathNoun pat) = none → F pat = none

theorem Shows.mono {lut : Lat} (hg : Grows lat lut) {q : Map Nat} {F : Path → Option Noun}
    (hs : Shows h lat q F) : Shows h lut q F := by
  refine ⟨hs.sorted, fun x k hx => ?_, hs.absent⟩
  obtain ⟨pat, v, rfl, hv, hn⟩ := hs.found x k hx
  exact ⟨pat, v, rfl, hv, hn.mono hg⟩

/-- The file at a path, by the name that the map has there. -/
theorem Shows.file {q : Map Nat} {F : Path → Option Noun} (hs : Shows h lat q F) {pat : Path}
    {k : Nat} (hk : get h.mug q (pathNoun pat) = some k) : ∃ v, F pat = some v ∧ Named lat k v := by
  obtain ⟨pat', v, he, hv, hn⟩ := hs.found _ k hk
  rw [pathNoun_inj he]
  exact ⟨v, hv, hn⟩

/-- A map of files to blobs that are ready, and the files. -/
structure Brings (h : Hash) (C : Noun → Prop) (lat : Lat) (lag : Map Blob) (F : Path → Option Noun) :
    Prop where
  sorted : Treap.Ordered (gor h.mug) lag
  found : ∀ x b, get h.mug lag x = some b → ∃ pat v, x = pathNoun pat ∧ F pat = some v ∧ Ready h C lat b v
  absent : ∀ pat, get h.mug lag (pathNoun pat) = none → F pat = none

theorem get_put {β : Type} [DecidableEq β] {mug : Noun → Nat} {m : Map β}
    (ho : Treap.Ordered (gor mug) m) (b d : Noun) (c : β) :
    get mug (put mug m b c) d = if d = b then some c else get mug m d :=
  Treap.lookup_insert (gor_searchOrder mug) ho b c d

theorem get_del {β : Type} {mug : Noun → Nat} {m : Map β} (ho : Treap.Ordered (gor mug) m)
    (b d : Noun) : get mug (del mug m b) d = if d = b then none else get mug m d :=
  Treap.lookup_delete (gor_searchOrder mug) ho b d

theorem ordered_put {β : Type} [DecidableEq β] {mug : Noun → Nat} {m : Map β}
    (ho : Treap.Ordered (gor mug) m) (b : Noun) (c : β) : Treap.Ordered (gor mug) (put mug m b c) :=
  Treap.ordered_insert (gor_searchOrder mug) ho b c

theorem ordered_del {β : Type} {mug : Noun → Nat} {m : Map β} (ho : Treap.Ordered (gor mug) m)
    (b : Noun) : Treap.Ordered (gor mug) (del mug m b) :=
  Treap.ordered_delete (gor_searchOrder mug) ho b

/-- The loop of `aqel` keeps the store sound, and names each file of the list. -/
theorem aqelLoop_spec {l : List (Noun × Blob)} {gar : Map Nat} (hs : Sound h C lat)
    (hready : ∀ i ∈ l, ∃ v, Ready h C lat i.2 v) (hl : (l.map Prod.fst).Nodup)
    (ho : Treap.Ordered (gor h.mug) gar) :
    Grows lat (aqelLoop h l (lat, gar)).1 ∧ Sound h C (aqelLoop h l (lat, gar)).1 ∧
      Treap.Ordered (gor h.mug) (aqelLoop h l (lat, gar)).2 ∧
      (∀ x, (∀ i ∈ l, i.1 ≠ x) → get h.mug (aqelLoop h l (lat, gar)).2 x = get h.mug gar x) ∧
      ∀ i ∈ l, get h.mug (aqelLoop h l (lat, gar)).2 i.1 = some (zaax i.2) ∧
        ∃ b, (aqelLoop h l (lat, gar)).1.lookup (zaax i.2) = some b := by
  induction l generalizing lat gar with
  | nil => exact ⟨.refl lat, hs, ho, fun _ _ => rfl, by simp⟩
  | cons i l ih =>
    obtain ⟨pat, bar⟩ := i
    rw [List.map_cons, List.nodup_cons] at hl
    -- a name that is taken keeps its blob
    obtain ⟨lut, hloop, hg, hsound, b, hlook⟩ : ∃ lut,
        aqelLoop h ((pat, bar) :: l) (lat, gar) =
          aqelLoop h l (lut, put h.mug gar pat (zaax bar)) ∧ Grows lat lut ∧ Sound h C lut ∧
        ∃ b, lut.lookup (zaax bar) = some b := by
      rw [aqelLoop]
      cases hk : lat.lookup (zaax bar) with
      | some b => exact ⟨lat, by simp, .refl lat, hs, b, hk⟩
      | none =>
        obtain ⟨v, hv⟩ := hready (pat, bar) List.mem_cons_self
        exact ⟨lat.insert (zaax bar) bar, by simp, grows_insert hk bar, hs.insert hv hk, bar,
          Finmap.lookup_insert _⟩
    obtain ⟨hg', hs', ho', hout, hin⟩ := ih hsound
      (fun i hi => (hready i (List.mem_cons_of_mem _ hi)).imp fun v hv => hv.mono hg) hl.2
      (ordered_put ho pat (zaax bar))
    rw [hloop]
    refine ⟨hg.trans hg', hs', ho', fun x hx => ?_, fun i hi => ?_⟩
    · rw [hout x fun i hi => hx i (List.mem_cons_of_mem _ hi), get_put ho,
        if_neg (hx _ List.mem_cons_self).symm]
    · rcases List.mem_cons.mp hi with rfl | hi
      · refine ⟨?_, b, hg' _ _ hlook⟩
        rw [hout pat, get_put ho, if_pos rfl]
        exact fun j hj he => hl.1 (List.mem_map.mpr ⟨j, hj, he⟩)
      · exact hin i hi

/-- `aqel` stores blobs that are ready, and names the files. -/
theorem aqel_spec (hC : Apart h C) (hs : Sound h C lat) {lag : Map Blob} {F : Path → Option Noun}
    (hb : Brings h C lat lag F) :
    Grows lat (aqel h lag lat).1 ∧ Sound h C (aqel h lag lat).1 ∧
      Shows h (aqel h lag lat).1 (aqel h lag lat).2 F := by
  have hmem := Treap.mem_tap_iff (gor_searchOrder h.mug) hb.sorted
  have hready : ∀ i ∈ Treap.tap lag [], ∃ v, Ready h C lat i.2 v := by
    intro i hi
    obtain ⟨_, v, _, _, hr⟩ := hb.found i.1 i.2 ((hmem i).mp hi)
    exact ⟨v, hr⟩
  have hnil : Treap.Ordered (gor h.mug) (.nil : Map Nat) := trivial
  obtain ⟨hg, hs', ho, hout, hin⟩ := aqelLoop_spec hs hready
    (Treap.nodup_tap (gor_searchOrder h.mug) hb.sorted) hnil
  refine ⟨hg, hs', ho, fun x k hx => ?_, fun pat hx => ?_⟩
  · cases hl : get h.mug lag x with
    | none =>
      rw [aqel, hout x] at hx
      · cases hx
      · rintro i hi rfl
        have hi' : get h.mug lag i.1 = some i.2 := (hmem i).mp hi
        rw [hi'] at hl
        cases hl
    | some b =>
      obtain ⟨pat, v, rfl, hv, hr⟩ := hb.found x b hl
      obtain ⟨hk, c, hc⟩ := hin _ ((hmem (pathNoun pat, b)).mpr hl)
      obtain rfl := Option.some.inj (hk.symm.trans hx)
      exact ⟨pat, v, rfl, hv, c, hc, hs'.named hC hc hr.1 hr.2.2⟩
  · refine hb.absent pat ?_
    cases hl : get h.mug lag (pathNoun pat) with
    | none => rfl
    | some b =>
      rw [aqel, (hin _ ((hmem (pathNoun pat, b)).mpr hl)).1] at hx
      cases hx

end sound

end Vere.Clay
