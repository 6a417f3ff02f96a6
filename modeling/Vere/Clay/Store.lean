import Vere.Clay.Blob
import Vere.Clay.Graph

/-!
# Vere.Clay.Store

The version store (`++axel`, `++azel`, `++azal`, `++azol`, `++equi` and `++argo` of `++ze`).

A commit names its files by path. `azal` makes of a list of changes the blobs of the next
commit, `aqel` stores those that are new, and `azel` builds the tree of a commit.

`azel` puts the files into the tree in the order in which the map lists them, and a file that is
put at a path replaces the folders that are there. Of two files, one of which is in the folder
with the name of the other, the one below is lost if it is listed first (`azelIn_file`,
`Unshadowed`). `azal` on the other hand goes by the commit: a file that is deleted and changed in
one list is there again.
-/

namespace Vere.Clay

open Vere.Lib Vere.Hoon

/-- The files of a tree. -/
abbrev Files := Path → Option Noun

/-- A map of files as a noun. -/
def mapNoun : Map Nat → Noun
  | .nil => .atom 0
  | .node k v l r => .cell (.cell k (.atom v)) (.cell (mapNoun l) (mapNoun r))

/-- What is used of `++dome` and `++rang`. -/
structure Desk where
  /-- State. -/
  ank : Ankh
  /-- Top id. -/
  «let» : Nat
  /-- Changes by id. -/
  hit : Finmap fun _ : Nat => Nat
  /-- Labels. -/
  lab : Finmap fun _ : Nat => Nat
  hut : Finmap fun _ : Nat => Yaki (Map Nat)
  lat : Lat

/-- A desk without versions. -/
def Desk.empty : Desk := ⟨.bare, 0, ∅, ∅, ∅, ∅⟩

/-- `++nori`: repository action. -/
inductive Nori
  | delta (q : Soba)
  | label (p : Nat)

/-! ### The arms -/

section arms

variable (h : Hash)

/-- `(need (~(get by hut) (need (~(get by hit) n))))`. -/
def Desk.yak (z : Desk) (n : Nat) : Option (Yaki (Map Nat)) := do
  let t ← z.hit.lookup n
  z.hut.lookup t

/-- `zoal`: make yaki. -/
def zoal (p : List Nat) (q : Map Nat) (t : Nat) : Yaki (Map Nat) :=
  let body := Noun.cell (.atom p.sum) (.cell (mapNoun q) (.atom t))
  -- the tags are `%yaki` and `%tako`
  ⟨p, q, cat 7 (h.sham (.cell (.atom 0x696b6179) body)) (h.sham (.cell (.atom 0x6f6b6174) body)), t⟩

/-- One change of `azal`. -/
def azalOne (n : Nat) (lat : Lat) (hat : Map Nat) (bar : Map Blob) (i : Path × Miso) :
    Option (Map Blob) :=
  let pat := pathNoun i.1
  match i.2 with
  | .ins p =>
    if (get h.mug bar pat).isSome then none
    else if (get h.mug hat pat).isSome then none
    else some (put h.mug bar pat (zeul h p .c))
  | .del _ =>
    if (get h.mug hat pat).isSome ∨ (get h.mug bar pat).isSome then some (del h.mug bar pat) else none
  | .mut p =>
    match get h.mug bar pat with
    | none => do
      let har ← get h.mug hat pat
      let b ← zeol h lat n har p
      return put h.mug bar pat b
    | some ber => do
      let b ← zeol h lat n (zaax ber) p
      return put h.mug bar pat b

/-- `find unchanged` of `azal`. -/
def azalKeep (lat : Lat) (sar : List Noun) (bat : Map Blob) (i : Noun × Nat) : Option (Map Blob) :=
  -- has update
  if i.1 ∈ sar then some bat
  else do
    let b ← zaal lat i.2
    return put h.mug bat i.1 b

/-- `hat` of `azal`: current state. The initial commit has nothing. -/
def Desk.hat (z : Desk) : Option (Map Nat) :=
  if z.let = 0 then some .nil else (z.yak z.let).map Yaki.q

/-- `azal`: store changes. -/
def azal (n : Nat) (lar : List (Path × Miso)) (z : Desk) : Option (Map Blob) := do
  let hat ← z.hat
  let bar ← lar.foldlM (azalOne h n z.lat hat) .nil
  (Treap.tap hat []).foldlM (azalKeep h z.lat (lar.map fun i => pathNoun i.1)) bar

/-- `++cosh`: locally rehash. -/
def cosh (ank : Ankh) : Ankh := .mk (dash h ank) ank.q ank.r

/-- A file of `azel`. -/
def azelIn : Path → Noun → Ankh → Ankh
  | [], zar, _ => cosh h (.mk 0 (some (h.sham zar, zar)) .nil)
  | i :: t, zar, ank =>
    let nak := Dir.get h.mug ank.r i
    cosh h (.mk ank.p ank.q (Dir.put h.mug ank.r i (azelIn t zar (nak.getD .bare))))

/-- `azel`: checkout commit. -/
def azel (lat : Lat) (n : Nat) (hat : Map Nat) : Option Ankh := do
  let ank ← (Treap.tap hat []).foldlM (fun ank i => do
    let zar ← zaul lat n i.2
    return azelIn h (pathOf i.1) zar ank) .bare
  return cosh h ank

/-- `azol`: forge yaki. -/
def azol (n : Nat) (wen : Nat) (par : Option Nat) (lem : Soba) (z : Desk) :
    Option (Yaki (Map Nat) × Lat) := do
  let lag ← azal h n lem.q z
  let gar := aqel h lag z.lat
  return (zoal h par.toList gar.2 wen, gar.1)

/-- `equi`: test paths. -/
def equi (lat : Lat) (n : Nat) (p q : Map Nat) : Option Bool := do
  let qat ← (Treap.tap p []).foldlM (fun eq i =>
    if eq then
      match get h.mug q i.1 with
      | none => some false
      | some zat => do
        let u ← zaul lat n zat
        let v ← zaul lat n i.2
        return u == v
    else some false) true
  if qat then return (Treap.tap q []).foldl (fun eq i => eq && (get h.mug p i.1).isSome) true
  else return false

/-- The parents of the next commit. The initial import has none. -/
def Desk.par (z : Desk) : Option (Option Nat) :=
  if z.let = 0 then some none else (z.yak z.let).map fun y => some y.r

/-- Whether `axel` makes a version of a commit. -/
def axelTest (n : Nat) (yak : Yaki (Map Nat)) (z : Desk) : Option Bool :=
  if z.let = 0 ∨ yak.p.length ≠ 1 then some true
  else do
    let y ← z.yak z.let
    let same ← equi h z.lat n yak.q y.q
    return !same

/-- The next version of `axel`. -/
def axelNext (yak : Yaki (Map Nat)) (ank : Ankh) (z : Desk) : Desk :=
  { z with
    ank := ank
    «let» := z.let + 1
    hit := z.hit.insert (z.let + 1) yak.r
    hut := z.hut.insert yak.r yak }

/-- `axel`: edit. -/
def axel (n : Nat) (wen : Nat) (lem : Nori) (z : Desk) : Option Desk :=
  match lem with
  | .delta q => do
    let par ← z.par
    let yet ← azol h n wen par q z
    -- merge objects
    let z := { z with lat := yet.2 }
    if ← axelTest h n yet.1 z then (azel h z.lat n yet.1.q).map fun ank => axelNext yet.1 ank z
    -- silently ignore
    else some z
  | .label p => if (z.lab.lookup p).isSome then none else some { z with lab := z.lab.insert p z.let }

/-- `argo`: rewind to aeon. -/
def argo (n : Nat) (oan : Nat) (z : Desk) : Option Desk :=
  if z.let = oan then some z
  -- don't have this version
  else if z.let < oan then none
  else do
    let y ← z.yak oan
    let ank ← azel h z.lat n y.q
    return { z with ank := ank, «let» := oan }

end arms

/-! ### Changes of files -/

/-- The files with a list of changes applied. Every content that is written is in `C`. -/
inductive Applied (C : Noun → Prop) : Files → List (Path × Miso) → Files → Prop
  | nil (F : Files) : Applied C F [] F
  | ins {F G : Files} {l : List (Path × Miso)} {pat : Path} {v : Noun} (hv : C v)
      (hl : Applied C (Function.update F pat (some v)) l G) : Applied C F ((pat, .ins v) :: l) G
  | del {F G : Files} {l : List (Path × Miso)} {pat : Path} {v : Noun}
      (hl : Applied C (Function.update F pat none) l G) : Applied C F ((pat, .del v) :: l) G
  | «mut» {F G : Files} {l : List (Path × Miso)} {pat : Path} {d : Udon} {u v : Noun}
      (hu : F pat = some u) (hd : lump d u = some v) (hv : C v)
      (hl : Applied C (Function.update F pat (some v)) l G) : Applied C F ((pat, .mut d) :: l) G

section changes

variable {h : Hash} {C : Noun → Prop} {lat : Lat} {hat : Map Nat} {F G G' : Files} {n : Nat}

/-- The blobs made so far: those of the paths touched, less the files deleted. -/
structure Midway (h : Hash) (C : Noun → Prop) (lat : Lat) (F : Files) (sar : List Path) (bar : Map Blob)
    (G : Files) : Prop where
  sorted : Treap.Ordered (gor h.mug) bar
  found : ∀ x b, get h.mug bar x = some b →
    ∃ pat v, x = pathNoun pat ∧ G pat = some v ∧ Ready h C lat b v ∧ pat ∈ sar
  absent : ∀ pat, get h.mug bar (pathNoun pat) = none → G pat = if pat ∈ sar then none else F pat

theorem Midway.file {sar : List Path} {bar : Map Blob} (hm : Midway h C lat F sar bar G) {pat : Path}
    {b : Blob} (hb : get h.mug bar (pathNoun pat) = some b) :
    ∃ v, G pat = some v ∧ Ready h C lat b v ∧ pat ∈ sar := by
  obtain ⟨pat', v, he, hv⟩ := hm.found _ b hb
  rw [pathNoun_inj he]
  exact ⟨v, hv⟩

/-- A file is written. -/
theorem Midway.put {sar : List Path} {bar : Map Blob} (hm : Midway h C lat F sar bar G) (pat : Path)
    {b : Blob} {v : Noun} (hb : Ready h C lat b v) :
    Midway h C lat F (sar ++ [pat]) (put h.mug bar (pathNoun pat) b)
      (Function.update G pat (some v)) := by
  refine ⟨ordered_put hm.sorted _ _, fun x c hc => ?_, fun p hp => ?_⟩
  · rw [get_put hm.sorted] at hc
    by_cases hx : x = pathNoun pat
    · rw [if_pos hx] at hc
      obtain rfl := Option.some.inj hc
      exact ⟨pat, v, hx, Function.update_self .., hb, by simp⟩
    · rw [if_neg hx] at hc
      obtain ⟨p, w, rfl, hw, hr, hmem⟩ := hm.found x c hc
      refine ⟨p, w, rfl, ?_, hr, List.mem_append_left _ hmem⟩
      rwa [Function.update_of_ne fun he => hx (congrArg pathNoun he)]
  · rw [get_put hm.sorted] at hp
    by_cases hx : p = pat
    · rw [if_pos (congrArg pathNoun hx)] at hp
      cases hp
    · rw [if_neg fun he => hx (pathNoun_inj he)] at hp
      rw [Function.update_of_ne hx, hm.absent p hp]
      simp [hx]

/-- A file is deleted. -/
theorem Midway.del {sar : List Path} {bar : Map Blob} (hm : Midway h C lat F sar bar G) (pat : Path) :
    Midway h C lat F (sar ++ [pat]) (del h.mug bar (pathNoun pat)) (Function.update G pat none) := by
  refine ⟨ordered_del hm.sorted _, fun x c hc => ?_, fun p hp => ?_⟩
  · rw [get_del hm.sorted] at hc
    by_cases hx : x = pathNoun pat
    · rw [if_pos hx] at hc
      cases hc
    · rw [if_neg hx] at hc
      obtain ⟨p, w, rfl, hw, hr, hmem⟩ := hm.found x c hc
      refine ⟨p, w, rfl, ?_, hr, List.mem_append_left _ hmem⟩
      rwa [Function.update_of_ne fun he => hx (congrArg pathNoun he)]
  · rw [get_del hm.sorted] at hp
    by_cases hx : p = pat
    · rw [hx, Function.update_self]
      simp
    · rw [if_neg fun he => hx (pathNoun_inj he)] at hp
      rw [Function.update_of_ne hx, hm.absent p hp]
      simp [hx]

theorem zeol_ready {k : Nat} {d : Udon} {u v : Noun} {b : Blob} (hz : zeol h lat n k d = some b)
    (hk : ∀ c, lat.lookup k = some c → Yields lat c u) (hd : lump d u = some v) (hv : C v) :
    Ready h C lat b v := by
  simp only [zeol, Option.bind_eq_bind, Option.bind_eq_some_iff] at hz
  obtain ⟨w, hw, hb⟩ := hz
  obtain rfl := Option.some.inj hb
  cases yields_of_zaru hw with
  | delta _ hc hu hl =>
    obtain rfl := hu.unique (hk _ hc)
    obtain rfl := Option.some.inj (hl.symm.trans hd)
    exact ⟨hv, .delta _ hc hu hl, .inr rfl⟩

/-- The changes of a list, one after another. -/
theorem azalOne_spec (hC : Apart h C) (hs : Sound h C lat) (hat' : Shows h lat hat F)
    {l : List (Path × Miso)} (ha : Applied C G l G') {sar : List Path} {bar bar' : Map Blob}
    (hm : Midway h C lat F sar bar G) (hl : l.foldlM (azalOne h n lat hat) bar = some bar') :
    Midway h C lat F (sar ++ l.map Prod.fst) bar' G' := by
  induction ha generalizing sar bar with
  | nil G =>
    obtain rfl := Option.some.inj hl
    rwa [List.map_nil, List.append_nil]
  | @ins G G' l pat v hv _ ih =>
    simp only [List.foldlM_cons, Option.bind_eq_bind, Option.bind_eq_some_iff] at hl
    obtain ⟨b, hb, hl⟩ := hl
    simp only [azalOne] at hb
    split at hb
    · cases hb
    split at hb
    · cases hb
    obtain rfl := Option.some.inj hb
    have hr : Ready h C lat (zeul h v .c) v := ⟨hv, .direct .., .inl rfl⟩
    simpa using ih (hm.put pat hr) hl
  | @del G G' l pat v _ ih =>
    simp only [List.foldlM_cons, Option.bind_eq_bind, Option.bind_eq_some_iff] at hl
    obtain ⟨b, hb, hl⟩ := hl
    simp only [azalOne] at hb
    split at hb
    · obtain rfl := Option.some.inj hb
      simpa using ih (hm.del pat) hl
    · cases hb
  | @«mut» G G' l pat d u v hu hd hv _ ih =>
    simp only [List.foldlM_cons, Option.bind_eq_bind, Option.bind_eq_some_iff] at hl
    obtain ⟨b, hb, hl⟩ := hl
    simp only [azalOne] at hb
    cases hget : get h.mug bar (pathNoun pat) with
    | none =>
      -- the file is the one of the commit
      simp only [hget, Option.bind_eq_bind, Option.bind_eq_some_iff] at hb
      obtain ⟨k, hk, c, hc, hb⟩ := hb
      obtain rfl := Option.some.inj hb
      obtain ⟨w, hw, hn⟩ := hat'.file hk
      have hG := hm.absent pat hget
      split at hG
      · rw [hu] at hG
        cases hG
      obtain rfl : w = u := Option.some.inj (hw.symm.trans (hG.symm.trans hu))
      have hr := zeol_ready (C := C) hc (fun c hc' => by
        obtain ⟨c', hc'', hy⟩ := hn
        obtain rfl := Option.some.inj (hc'.symm.trans hc'')
        exact hy) hd hv
      simpa using ih (hm.put pat hr) hl
    | some ber =>
      -- the file was written by an earlier change
      simp only [hget, Option.bind_eq_bind, Option.bind_eq_some_iff] at hb
      obtain ⟨c, hc, hb⟩ := hb
      obtain rfl := Option.some.inj hb
      obtain ⟨w, hw, hready, -⟩ := hm.file hget
      obtain rfl := Option.some.inj (hw.symm.trans hu)
      have hr := zeol_ready (C := C) hc (fun c hc' => hs.named hC hc' hready.1 hready.2.2) hd hv
      simpa using ih (hm.put pat hr) hl

/-- The blobs of the commit that no change names are added. -/
theorem azalKeep_spec {sar : List Noun} {l : List (Noun × Nat)} {bar lag : Map Blob}
    (hl : l.foldlM (azalKeep h lat sar) bar = some lag) (hnd : (l.map Prod.fst).Nodup)
    (ho : Treap.Ordered (gor h.mug) bar) :
    Treap.Ordered (gor h.mug) lag ∧
      (∀ x, (x ∈ sar ∨ ∀ i ∈ l, i.1 ≠ x) → get h.mug lag x = get h.mug bar x) ∧
      ∀ i ∈ l, i.1 ∉ sar → ∃ b, lat.lookup i.2 = some b ∧ get h.mug lag i.1 = some b := by
  induction l generalizing bar with
  | nil =>
    obtain rfl := Option.some.inj hl
    exact ⟨ho, fun _ _ => rfl, by simp⟩
  | cons i l ih =>
    rw [List.map_cons, List.nodup_cons] at hnd
    simp only [List.foldlM_cons, Option.bind_eq_bind, Option.bind_eq_some_iff] at hl
    obtain ⟨b, hb, hl⟩ := hl
    rw [azalKeep] at hb
    split at hb
    · next hmem =>
      obtain rfl := Option.some.inj hb
      obtain ⟨ho', hout, hin⟩ := ih hl hnd.2 ho
      refine ⟨ho', fun x hx => hout x (hx.imp id fun hx j hj => hx j (List.mem_cons_of_mem i hj)), ?_⟩
      intro j hj hnot
      rcases List.mem_cons.mp hj with rfl | hj
      · exact absurd hmem hnot
      · exact hin j hj hnot
    · next hmem =>
      simp only [zaal, Option.bind_eq_bind, Option.bind_eq_some_iff] at hb
      obtain ⟨c, hc, hb⟩ := hb
      obtain rfl := Option.some.inj hb
      obtain ⟨ho', hout, hin⟩ := ih hl hnd.2 (ordered_put ho i.1 c)
      refine ⟨ho', fun x hx => ?_, fun j hj hnot => ?_⟩
      · rw [hout x (hx.imp id fun hx j hj => hx j (List.mem_cons_of_mem i hj)), get_put ho, if_neg]
        rintro rfl
        exact hx.elim hmem fun hx => hx i List.mem_cons_self rfl
      · rcases List.mem_cons.mp hj with rfl | hj
        · refine ⟨c, hc, ?_⟩
          rw [hout _ (.inr fun k hk he => hnd.1 (List.mem_map.mpr ⟨k, hk, he⟩)), get_put ho, if_pos rfl]
        · exact hin j hj hnot

/-- The two loops of `azal`. -/
theorem azal_brings (hC : Apart h C) (hs : Sound h C lat) (hat' : Shows h lat hat F)
    {lar : List (Path × Miso)} (ha : Applied C F lar G) {bar lag : Map Blob}
    (hbar : lar.foldlM (azalOne h n lat hat) .nil = some bar)
    (hlag : (Treap.tap hat []).foldlM (azalKeep h lat (lar.map fun i => pathNoun i.1)) bar = some lag) :
    Brings h C lat lag G := by
  have hstart : Midway h C lat F [] .nil F := ⟨trivial, fun _ _ hb => (nomatch hb), fun _ _ => rfl⟩
  have hm := azalOne_spec hC hs hat' ha hstart hbar
  rw [List.nil_append] at hm
  have ho := gor_searchOrder h.mug
  obtain ⟨hord, hout, hin⟩ := azalKeep_spec hlag (Treap.nodup_tap ho hat'.sorted) hm.sorted
  have hmem := Treap.mem_tap_iff ho hat'.sorted
  have hsar : ∀ {pat : Path}, pathNoun pat ∈ (lar.map fun i => pathNoun i.1) ↔ pat ∈ lar.map Prod.fst := by
    intro pat
    simp
  -- what the second loop adds at a path that no change names
  have hkeep : ∀ pat, pat ∉ lar.map Prod.fst → ∀ k, get h.mug hat (pathNoun pat) = some k →
      ∃ b v, get h.mug lag (pathNoun pat) = some b ∧ G pat = some v ∧ Ready h C lat b v := by
    intro pat hnot k hk
    obtain ⟨b, hb, hget⟩ := hin (pathNoun pat, k) ((hmem _).mpr hk) (by rwa [hsar])
    obtain ⟨v, hv, c, hc, hy⟩ := hat'.file hk
    obtain rfl := Option.some.inj (hc.symm.trans hb)
    obtain ⟨hz, u, hu, hyu, hkey⟩ := hs k c hc
    obtain rfl := hy.unique hyu
    refine ⟨c, v, hget, ?_, hu, hy, by rwa [hz]⟩
    cases hbarp : get h.mug bar (pathNoun pat) with
    | some b => exact absurd (hm.file hbarp).choose_spec.2.2 hnot
    | none => rw [hm.absent pat hbarp, if_neg hnot, hv]
  have hother : ∀ x, (∀ k, get h.mug hat x = some k → x ∈ lar.map fun i => pathNoun i.1) →
      get h.mug lag x = get h.mug bar x := by
    intro x hx
    by_cases hmem' : x ∈ lar.map fun i => pathNoun i.1
    · exact hout x (.inl hmem')
    · refine hout x (.inr ?_)
      rintro i hi rfl
      exact hmem' (hx i.2 ((hmem i).mp hi))
  refine ⟨hord, fun x b hb => ?_, fun pat hp => ?_⟩
  · by_cases hx : ∃ k, get h.mug hat x = some k ∧ x ∉ lar.map fun i => pathNoun i.1
    · obtain ⟨k, hk, hnot⟩ := hx
      obtain ⟨pat, -, rfl, -, -⟩ := hat'.found x k hk
      obtain ⟨c, v, hc, hv⟩ := hkeep pat (by rwa [hsar] at hnot) k hk
      obtain rfl := Option.some.inj (hc.symm.trans hb)
      exact ⟨pat, v, rfl, hv⟩
    · rw [hother x fun k hk => by_contra fun hnot => hx ⟨k, hk, hnot⟩] at hb
      obtain ⟨pat, v, rfl, hv, hr, -⟩ := hm.found x b hb
      exact ⟨pat, v, rfl, hv, hr⟩
  · by_cases hx : ∃ k, get h.mug hat (pathNoun pat) = some k ∧ pat ∉ lar.map Prod.fst
    · obtain ⟨k, hk, hnot⟩ := hx
      obtain ⟨c, v, hc, -⟩ := hkeep pat hnot k hk
      rw [hc] at hp
      cases hp
    · rw [hother _ fun k hk => by_contra fun hnot => hx ⟨k, hk, by rwa [hsar] at hnot⟩] at hp
      rw [hm.absent pat hp]
      by_cases hmem' : pat ∈ lar.map Prod.fst
      · rw [if_pos hmem']
      · rw [if_neg hmem']
        refine hat'.absent pat ?_
        cases hk : get h.mug hat (pathNoun pat) with
        | none => rfl
        | some k => exact absurd ⟨k, hk, hmem'⟩ hx

end changes

/-! ### The tree of a commit -/

section tree

variable {h : Hash} {lat : Lat} {q : Map Nat} {F : Files}

/-- The folders of every node are in order. -/
def Sorted (mug : Noun → Nat) (a : Ankh) : Prop :=
  ∀ pax c, a.at mug pax = some c → Dir.Good mug c.r

theorem sorted_bare (mug : Noun → Nat) : Sorted mug .bare := by
  intro pax c hc
  cases pax with
  | nil =>
    obtain rfl := Option.some.inj hc
    exact ⟨trivial, trivial⟩
  | cons i t => cases hc

theorem Sorted.folder {mug : Noun → Nat} {a : Ankh} (ha : Sorted mug a) (i : Nat) :
    Sorted mug ((Dir.get mug a.r i).getD .bare) := by
  cases hc : Dir.get mug a.r i with
  | none => exact sorted_bare mug
  | some c =>
    intro pax d hd
    refine ha (i :: pax) d ?_
    rw [Ankh.at, hc]
    exact hd

/-- A file is put at a path, and nothing is left below it. -/
theorem azelIn_file (pat : Path) (v : Noun) {a : Ankh} (ha : Sorted h.mug a) :
    Sorted h.mug (azelIn h pat v a) ∧ ∀ p, (azelIn h pat v a).file h.mug p =
      if p = pat then some v else if pat <+: p then none else a.file h.mug p := by
  induction pat generalizing a with
  | nil =>
    refine ⟨fun pax c hc => ?_, fun p => ?_⟩
    · cases pax with
      | nil =>
        obtain rfl := Option.some.inj hc
        exact ⟨trivial, trivial⟩
      | cons i t => cases hc
    · cases p with
      | nil => rfl
      | cons i t => simp [file_cons, azelIn, cosh, Dir.get, Treap.lookup]
  | cons i t ih =>
    obtain ⟨hs, hf⟩ := ih (ha.folder i)
    have hgood := ha [] a rfl
    have hget : ∀ j, Dir.get h.mug (azelIn h (i :: t) v a).r j =
        if j = i then some (azelIn h t v ((Dir.get h.mug a.r i).getD .bare)) else Dir.get h.mug a.r j :=
      fun j => Dir.get_put hgood i j _
    refine ⟨fun pax c hc => ?_, fun p => ?_⟩
    · cases pax with
      | nil =>
        obtain rfl := Option.some.inj hc
        exact Dir.good_put hgood i _
      | cons j s =>
        rw [Ankh.at, hget] at hc
        by_cases hj : j = i
        · rw [if_pos hj] at hc
          exact hs s c hc
        · rw [if_neg hj] at hc
          exact ha (j :: s) c (by rw [Ankh.at]; exact hc)
    · cases p with
      | nil => simp [file_nil, azelIn, cosh]
      | cons j s =>
        rw [file_cons, hget]
        by_cases hj : j = i
        · subst hj
          rw [if_pos rfl, Option.bind_some, hf, file_dent]
          simp [List.cons_prefix_cons]
        · rw [if_neg hj, ← file_cons]
          simp [hj, List.cons_prefix_cons, Ne.symm hj]

/-- The tree of a list of paths. -/
def grow (h : Hash) (F : Files) (l : List Path) (a : Ankh) : Ankh :=
  l.foldl (fun a pat => azelIn h pat ((F pat).getD (.atom 0)) a) a

/-- The paths of a map, in the order in which it lists them. -/
def paths (q : Map Nat) : List Path := (Treap.tap q []).map fun i => pathOf i.1

/-- The tree of a commit. -/
def checkout (h : Hash) (F : Files) (q : Map Nat) : Ankh := cosh h (grow h F (paths q) .bare)

/-- A file stays if none is put above it. -/
theorem grow_keep {l : List Path} {a : Ankh} (ha : Sorted h.mug a) {p : Path}
    (hp : ∀ p' ∈ l, ¬p' <+: p) : (grow h F l a).file h.mug p = a.file h.mug p := by
  induction l generalizing a with
  | nil => rfl
  | cons pat l ih =>
    obtain ⟨hs, hf⟩ := azelIn_file pat ((F pat).getD (.atom 0)) ha
    have hpat := hp pat List.mem_cons_self
    have hne : p ≠ pat := by
      rintro rfl
      exact hpat (List.prefix_refl p)
    rw [grow, List.foldl_cons, ← grow, ih hs fun p' hp' => hp p' (List.mem_cons_of_mem _ hp'), hf,
      if_neg hne, if_neg hpat]

/-- No file is put where the list has none. -/
theorem grow_none {l : List Path} {a : Ankh} (ha : Sorted h.mug a) {p : Path} (hp : p ∉ l)
    (hnone : a.file h.mug p = none) : (grow h F l a).file h.mug p = none := by
  induction l generalizing a with
  | nil => exact hnone
  | cons pat l ih =>
    obtain ⟨hs, hf⟩ := azelIn_file pat ((F pat).getD (.atom 0)) ha
    rw [List.mem_cons, not_or] at hp
    refine ih hs hp.2 ?_
    rw [hf, if_neg hp.1, hnone, ite_self]

/-- A file of the list is in the tree if none is put above it later. -/
theorem grow_file {l : List Path} (hF : ∀ p ∈ l, F p ≠ none) {a : Ankh} (ha : Sorted h.mug a)
    (hl : l.Pairwise fun p p' => ¬p' <+: p) {p : Path} (hp : p ∈ l) :
    (grow h F l a).file h.mug p = F p := by
  induction l generalizing a with
  | nil => cases hp
  | cons pat l ih =>
    obtain ⟨hs, hf⟩ := azelIn_file pat ((F pat).getD (.atom 0)) ha
    obtain ⟨hpat, hl⟩ := List.pairwise_cons.mp hl
    rcases List.mem_cons.mp hp with rfl | hp
    · obtain ⟨v, hv⟩ := Option.ne_none_iff_exists'.mp (hF p List.mem_cons_self)
      rw [grow, List.foldl_cons, ← grow, grow_keep hs hpat, hf, if_pos rfl, hv]
      rfl
    · exact ih (fun p' hp' => hF p' (List.mem_cons_of_mem _ hp')) hs hl hp

/-- Of two files, one of which is below the other, the map lists the lower one last. -/
def Unshadowed (mug : Noun → Nat) (F : Files) : Prop :=
  ∀ p p', F p ≠ none → F p' ≠ none → p <+: p' → p ≠ p' → gor mug (pathNoun p') (pathNoun p) = true

theorem mem_paths (hs : Shows h lat q F) {pat : Path} : pat ∈ paths q ↔ F pat ≠ none := by
  have hmem := Treap.mem_tap_iff (gor_searchOrder h.mug) hs.sorted
  rw [paths, List.mem_map]
  constructor
  · rintro ⟨i, hi, rfl⟩
    obtain ⟨p, v, hp, hv, -⟩ := hs.found i.1 i.2 ((hmem i).mp hi)
    rw [hp, pathOf_noun, hv]
    exact Option.some_ne_none v
  · intro hne
    cases hk : get h.mug q (pathNoun pat) with
    | none => exact absurd (hs.absent pat hk) hne
    | some k => exact ⟨(pathNoun pat, k), (hmem _).mpr hk, pathOf_noun pat⟩

/-- The tree of a commit has its files, if none shadows another. -/
theorem checkout_file (hs : Shows h lat q F) (hu : Unshadowed h.mug F) (pat : Path) :
    (checkout h F q).file h.mug pat = F pat := by
  have ho := gor_searchOrder h.mug
  have hpair : (paths q).Pairwise fun p p' => ¬p' <+: p := by
    rw [paths, List.pairwise_map]
    refine (Treap.pairwise_tap ho hs.sorted).imp_of_mem fun {x y} hx hy hxy hpre => ?_
    have hmem := Treap.mem_tap_iff ho hs.sorted
    obtain ⟨p, v, hp, hv, -⟩ := hs.found x.1 x.2 ((hmem x).mp hx)
    obtain ⟨p', v', hp', hv', -⟩ := hs.found y.1 y.2 ((hmem y).mp hy)
    rw [hp, hp'] at hxy hpre
    rw [pathOf_noun, pathOf_noun] at hpre
    have hle := hu p' p (by simp [hv']) (by simp [hv]) hpre fun he => hxy.2 (congrArg pathNoun he)
    exact hxy.2 (ho.antisymm _ _ hxy.1 hle)
  have hF : ∀ p ∈ paths q, F p ≠ none := fun p hp => (mem_paths hs).mp hp
  have hcosh : (checkout h F q).file h.mug pat = (grow h F (paths q) .bare).file h.mug pat := by
    cases pat <;> rfl
  rw [hcosh]
  by_cases hmem : pat ∈ paths q
  · exact grow_file hF (sorted_bare _) hpair hmem
  · -- nothing is put there, nor is anything there before
    have hnone : F pat = none := by
      by_contra hne
      exact hmem ((mem_paths hs).mpr hne)
    rw [hnone]
    exact grow_none (sorted_bare _) hmem (file_bare _ pat)

/-- A file is lost if one is listed after it at a path above. -/
theorem checkout_shadow (hs : Shows h lat q F) {p b : Path} (hp : F p ≠ none) (hpre : p <+: b)
    (hne : p ≠ b) (hle : gor h.mug (pathNoun p) (pathNoun b) = true) :
    (checkout h F q).file h.mug b = none := by
  have ho := gor_searchOrder h.mug
  have hcosh : (checkout h F q).file h.mug b = (grow h F (paths q) .bare).file h.mug b := by
    cases b <;> rfl
  obtain ⟨l, l', hl⟩ := List.append_of_mem ((mem_paths hs).mpr hp)
  have hpair : (paths q).Pairwise fun x y => Treap.Below (gor h.mug) (pathNoun y) (pathNoun x) := by
    rw [paths, List.pairwise_map]
    refine (Treap.pairwise_tap ho hs.sorted).imp_of_mem fun {x y} hx hy hxy => ?_
    have hmem := Treap.mem_tap_iff ho hs.sorted
    obtain ⟨p, v, hp, -, -⟩ := hs.found x.1 x.2 ((hmem x).mp hx)
    obtain ⟨p', v', hp', -, -⟩ := hs.found y.1 y.2 ((hmem y).mp hy)
    rw [hp, hp'] at hxy ⊢
    rwa [pathOf_noun, pathOf_noun]
  rw [hl, List.pairwise_append, List.pairwise_cons] at hpair
  have hout : b ∉ l' := by
    intro hmem
    have hbelow := hpair.2.1.1 b hmem
    exact hbelow.2 (ho.antisymm _ _ hbelow.1 hle)
  have hsort : ∀ l : List Path, ∀ a, Sorted h.mug a → Sorted h.mug (grow h F l a) := by
    intro l
    induction l with
    | nil => exact fun a ha => ha
    | cons x l ih => exact fun a ha => ih _ (azelIn_file x _ ha).1
  obtain ⟨hs', hf⟩ := azelIn_file p ((F p).getD (.atom 0)) (hsort l .bare (sorted_bare _))
  have hsplit : grow h F (l ++ p :: l') .bare =
      grow h F l' (azelIn h p ((F p).getD (.atom 0)) (grow h F l .bare)) := by
    rw [grow, List.foldl_append, List.foldl_cons]
    rfl
  rw [hcosh, hl, hsplit]
  refine grow_none hs' hout ?_
  rw [hf, if_neg (Ne.symm hne), if_pos hpre]

/-- With fuel enough `azel` builds the tree. -/
theorem azel_settles (hs : Shows h lat q F) :
    Settles (fun n => azel h lat n q) (some (checkout h F q)) := by
  have hmem := Treap.mem_tap_iff (gor_searchOrder h.mug) hs.sorted
  obtain ⟨a, hset, rfl⟩ := Settles.foldlM (m := Option)
    (f := fun n ank (i : Noun × Nat) => do
      let zar ← zaul lat n i.2
      return azelIn h (pathOf i.1) zar ank)
    (fun done a => a = grow h F (done.map fun i => pathOf i.1) .bare) (l := Treap.tap q []) (s := .bare)
    rfl (by
      rintro done - i hi rfl
      obtain ⟨pat, v, hp, hv, hn⟩ := hs.found i.1 i.2 ((hmem i).mp hi)
      refine ⟨_, hn.settles.bind (m := Option) (.const _), ?_⟩
      rw [List.map_append, grow, grow, List.foldl_append, List.map_singleton, List.foldl_cons,
        List.foldl_nil, hp, pathOf_noun, hv]
      rfl)
  exact hset.bind (m := Option) (.const _)

/-- What `azel` builds, with whatever fuel it does. -/
theorem azel_eq (hs : Shows h lat q F) {n : Nat} {a : Ankh} (ha : azel h lat n q = some a) :
    a = checkout h F q := by
  have hmem := Treap.mem_tap_iff (gor_searchOrder h.mug) hs.sorted
  have hloop : ∀ (l : List (Noun × Nat)) (a b : Ankh), (∀ i ∈ l, get h.mug q i.1 = some i.2) →
      l.foldlM (fun ank i => do
        let zar ← zaul lat n i.2
        return azelIn h (pathOf i.1) zar ank) a = some b →
      b = grow h F (l.map fun i => pathOf i.1) a := by
    intro l
    induction l with
    | nil => exact fun a b _ hb => (Option.some.inj hb).symm
    | cons i l ih =>
      intro a b hl hb
      simp only [List.foldlM_cons, Option.bind_eq_bind, Option.bind_eq_some_iff, Option.pure_def] at hb
      obtain ⟨c, ⟨zar, hz, hc⟩, hb⟩ := hb
      obtain ⟨pat, v, hp, hv, hn⟩ := hs.found i.1 i.2 (hl i List.mem_cons_self)
      obtain rfl := hn.unique (named_of_zaul hz)
      rw [ih c b (fun j hj => hl j (List.mem_cons_of_mem i hj)) hb, ← Option.some.inj hc, List.map_cons,
        grow, grow, List.foldl_cons, hp, pathOf_noun, hv]
      rfl
  simp only [azel, Option.bind_eq_bind, Option.bind_eq_some_iff, Option.pure_def] at ha
  obtain ⟨b, hb, ha⟩ := ha
  rw [← Option.some.inj ha, hloop _ _ b (fun i hi => (hmem i).mp hi) hb]
  rfl

end tree

/-! ### Runs -/

/-- The changes apply, in order, to the files of the tree, and write contents of `C` only. Of the
files that there are then, none shadows another. -/
def Plain (h : Hash) (C : Noun → Prop) (z : Desk) (lar : List (Path × Miso)) : Prop :=
  ∃ G, Applied C (z.ank.file h.mug) lar G ∧ Unshadowed h.mug G

/-- The trees that edits of an empty desk have made, each after the one before. No commit takes the
name of another. -/
inductive Edited (h : Hash) (C : Noun → Prop) : List Ankh → Desk → Prop
  | empty : Edited h C [] .empty
  | edit {vs : List Ankh} {z z' : Desk} {n wen : Nat} {q : Soba} (hr : Edited h C vs z)
      (hp : Plain h C z q.q) (he : axel h n wen (.delta q) z = some z')
      (hk : ∀ t y, z.hut.lookup t = some y → z'.hut.lookup t = some y) :
      Edited h C (if z'.let = z.let then vs else vs ++ [z'.ank]) z'
  | label {vs : List Ankh} {z z' : Desk} {n wen p : Nat} (hr : Edited h C vs z)
      (he : axel h n wen (.label p) z = some z') : Edited h C vs z'

/-- The lobes of a commit resolve to the files of a tree. -/
structure Resolves (h : Hash) (lat : Lat) (q : Map Nat) (a : Ankh) : Prop where
  lobe : ∀ x lob, get h.mug q x = some lob → ∃ pat v, x = pathNoun pat ∧
    a.file h.mug pat = some v ∧ Settles (fun k => zaul lat k lob) (some v)
  file : ∀ pat v, a.file h.mug pat = some v → ∃ lob, get h.mug q (pathNoun pat) = some lob

/-- A desk with these versions. -/
structure Faithful (h : Hash) (vs : List Ankh) (z : Desk) : Prop where
  count : z.let = vs.length
  current : z.ank = vs.getLast?.getD .bare
  /-- The history is readable. -/
  argo : ∀ n a, vs[n]? = some a → Settles (fun k => (argo h k (n + 1) z).map Desk.ank) (some a)
  /-- Every commit is of a version, and resolves to its files. -/
  commits : ∀ t y, z.hut.lookup t = some y → ∃ n a, vs[n]? = some a ∧ z.hit.lookup (n + 1) = some t ∧
    Resolves h z.lat y.q a
  versions : ∀ n a, vs[n]? = some a → ∃ t y, z.hit.lookup (n + 1) = some t ∧ z.hut.lookup t = some y

section runs

variable {h : Hash} {C : Noun → Prop} {vs : List Ankh} {z z' : Desk} {n wen : Nat}

/-- A commit shows the files of a tree that was built from it. -/
structure Version (h : Hash) (z : Desk) (n : Nat) (a : Ankh) (t : Nat) (y : Yaki (Map Nat)) : Prop where
  hit : z.hit.lookup (n + 1) = some t
  hut : z.hut.lookup t = some y
  shows : Shows h z.lat y.q (a.file h.mug)
  tree : a = checkout h (a.file h.mug) y.q

/-- The invariant of a run. -/
structure Kept (h : Hash) (C : Noun → Prop) (vs : List Ankh) (z : Desk) : Prop where
  count : z.let = vs.length
  current : z.ank = vs.getLast?.getD .bare
  sound : Sound h C z.lat
  versions : ∀ n a, vs[n]? = some a → ∃ t y, Version h z n a t y
  commits : ∀ t y, z.hut.lookup t = some y → ∃ n a, vs[n]? = some a ∧ z.hit.lookup (n + 1) = some t

theorem Version.resolves {a : Ankh} {t : Nat} {y : Yaki (Map Nat)} (hv : Version h z n a t y) :
    Resolves h z.lat y.q a := by
  refine ⟨fun x lob hx => ?_, fun pat v hp => ?_⟩
  · obtain ⟨pat, v, hx, hf, hn⟩ := hv.shows.found x lob hx
    exact ⟨pat, v, hx, hf, hn.settles⟩
  · cases hk : get h.mug y.q (pathNoun pat) with
    | some lob => exact ⟨lob, rfl⟩
    | none =>
      rw [hv.shows.absent pat hk] at hp
      cases hp

theorem Kept.faithful (hk : Kept h C vs z) : Faithful h vs z := by
  refine ⟨hk.count, hk.current, fun n a ha => ?_, fun t y hy => ?_, fun n a ha => ?_⟩
  · have hlt : n < vs.length := (List.getElem?_eq_some_iff.mp ha).1
    by_cases hn : z.let = n + 1
    · -- the version that is out
      refine ⟨0, fun k _ => ?_⟩
      have hlast : vs.getLast? = some a := by
        rw [List.getLast?_eq_getElem?, ← ha]
        congr 1
        have := hk.count
        omega
      simp only [Clay.argo, if_pos hn, Option.map_some, hk.current, hlast, Option.getD_some]
    · obtain ⟨t, y, hv⟩ := hk.versions n a ha
      obtain ⟨N, hN⟩ := azel_settles hv.shows
      refine ⟨N, fun k hle => ?_⟩
      have hle' : ¬z.let < n + 1 := by
        rw [hk.count]
        omega
      simp only [Clay.argo, hn, hle', if_false, Desk.yak, hv.hit, hv.hut, Option.bind_eq_bind,
        Option.bind_some, hN k hle, Option.pure_def, Option.map_some]
      rw [← hv.tree]
  · obtain ⟨n, a, ha, hit⟩ := hk.commits t y hy
    obtain ⟨t', y', hv⟩ := hk.versions n a ha
    obtain rfl := Option.some.inj (hv.hit.symm.trans hit)
    obtain rfl := Option.some.inj (hv.hut.symm.trans hy)
    exact ⟨n, a, ha, hit, hv.resolves⟩
  · obtain ⟨t, y, hv⟩ := hk.versions n a ha
    exact ⟨t, y, hv.hit, hv.hut⟩

/-- What an edit can do: the blobs are stored, and then there is a next version or not. -/
theorem axel_moves {q : Soba} (he : axel h n wen (.delta q) z = some z') :
    ∃ par lag, z.par = some par ∧ azal h n q.q z = some lag ∧
      (z' = { z with lat := (aqel h lag z.lat).1 } ∨
        ∃ ank, azel h (aqel h lag z.lat).1 n (aqel h lag z.lat).2 = some ank ∧
          z' = axelNext (zoal h par.toList (aqel h lag z.lat).2 wen) ank
            { z with lat := (aqel h lag z.lat).1 }) := by
  simp only [axel, azol, Option.bind_eq_bind, Option.bind_eq_some_iff, Option.pure_def,
    Option.some.injEq] at he
  obtain ⟨par, hpar, -, ⟨lag, hlag, rfl⟩, make, -, hmake⟩ := he
  refine ⟨par, lag, hpar, hlag, ?_⟩
  cases make with
  | false => exact .inl (Option.some.inj hmake).symm
  | true =>
    obtain ⟨ank, hank, rfl⟩ := Option.map_eq_some_iff.mp hmake
    exact .inr ⟨ank, hank, rfl⟩

/-- The blobs of an edit, and what it can do with them. -/
theorem axel_cases {q : Soba} (he : axel h n wen (.delta q) z = some z') :
    ∃ hat bar lag, z.hat = some hat ∧ q.q.foldlM (azalOne h n z.lat hat) .nil = some bar ∧
      (Treap.tap hat []).foldlM (azalKeep h z.lat (q.q.map fun i => pathNoun i.1)) bar = some lag ∧
      (z' = { z with lat := (aqel h lag z.lat).1 } ∨
        ∃ yak ank, yak.q = (aqel h lag z.lat).2 ∧ azel h (aqel h lag z.lat).1 n yak.q = some ank ∧
          z' = axelNext yak ank { z with lat := (aqel h lag z.lat).1 }) := by
  obtain ⟨par, lag, -, hazal, hcases⟩ := axel_moves he
  simp only [azal, Option.bind_eq_bind, Option.bind_eq_some_iff] at hazal
  obtain ⟨hat, hhat, bar, hbar, hlag⟩ := hazal
  refine ⟨hat, bar, lag, hhat, hbar, hlag, hcases.imp_right ?_⟩
  rintro ⟨ank, hank, rfl⟩
  exact ⟨_, ank, rfl, hank, rfl⟩

/-- The commit that an edit starts from shows the files of the tree. -/
theorem Kept.hat_shows (hk : Kept h C vs z) {hat : Map Nat} (hh : z.hat = some hat) :
    Shows h z.lat hat (z.ank.file h.mug) := by
  rw [Desk.hat] at hh
  split at hh
  · next h0 =>
    obtain rfl := Option.some.inj hh
    have hnil : vs = [] := List.length_eq_zero_iff.mp (hk.count ▸ h0)
    refine ⟨trivial, fun x k hx => (nomatch hx), fun pat _ => ?_⟩
    rw [hk.current, hnil]
    exact file_bare h.mug pat
  · next h0 =>
    obtain ⟨y, hy, rfl⟩ := Option.map_eq_some_iff.mp hh
    obtain ⟨n, hn⟩ := Nat.exists_eq_succ_of_ne_zero h0
    have hlt : n < vs.length := by
      rw [← hk.count, hn]
      exact Nat.lt_succ_self n
    obtain ⟨t, y', hv⟩ := hk.versions n vs[n] (List.getElem?_eq_getElem hlt)
    have hlast : vs.getLast? = some vs[n] := by
      rw [List.getLast?_eq_getElem?, ← List.getElem?_eq_getElem hlt, ← hk.count, hn]
      rfl
    rw [hn] at hy
    simp only [Desk.yak, hv.hit, hv.hut, Option.bind_eq_bind, Option.bind_some, Option.some.injEq] at hy
    subst hy
    rw [hk.current, hlast]
    exact hv.shows

/-- More blobs and commits change no version. -/
theorem Version.mono {a : Ankh} {t : Nat} {y : Yaki (Map Nat)} (hv : Version h z n a t y)
    (hg : Grows z.lat z'.lat) (hit : z'.hit.lookup (n + 1) = z.hit.lookup (n + 1))
    (hut : ∀ t y, z.hut.lookup t = some y → z'.hut.lookup t = some y) : Version h z' n a t y :=
  ⟨hit.trans hv.hit, hut t y hv.hut, hv.shows.mono hg, hv.tree⟩

/-- One edit. -/
theorem axel_kept (hC : Apart h C) (hk : Kept h C vs z) {q : Soba} {G : Files}
    (ha : Applied C (z.ank.file h.mug) q.q G) (hu : Unshadowed h.mug G)
    (he : axel h n wen (.delta q) z = some z')
    (hhut : ∀ t y, z.hut.lookup t = some y → z'.hut.lookup t = some y) :
    Kept h C (if z'.let = z.let then vs else vs ++ [z'.ank]) z' ∧
      (z'.let ≠ z.let → z'.ank.file h.mug = G) := by
  obtain ⟨hat, bar, lag, hhat, hbar, hlag, hcases⟩ := axel_cases he
  have hbr := azal_brings hC hk.sound (hk.hat_shows hhat) ha hbar hlag
  obtain ⟨hg, hs, hsh⟩ := aqel_spec hC hk.sound hbr
  rcases hcases with rfl | ⟨yak, ank, hq, hank, rfl⟩
  · -- the edit is ignored, but its blobs are stored
    refine ⟨?_, fun hne => absurd rfl hne⟩
    rw [if_pos rfl]
    refine ⟨hk.count, hk.current, hs, fun m a hm => ?_, hk.commits⟩
    obtain ⟨t, y, hv⟩ := hk.versions m a hm
    exact ⟨t, y, hv.mono hg rfl fun _ _ hy => hy⟩
  · have hne : (axelNext yak ank { z with lat := (aqel h lag z.lat).1 }).let ≠ z.let :=
      Nat.succ_ne_self z.let
    -- the tree is the one of the commit
    rw [hq] at hank
    have htree := azel_eq hsh hank
    have hfile : ank.file h.mug = G := by
      rw [htree]
      exact funext (checkout_file hsh hu)
    refine ⟨?_, fun _ => hfile⟩
    rw [if_neg hne]
    have hlen := hk.count
    refine ⟨?_, by simp [axelNext], hs, fun m a hm => ?_, fun t y hy => ?_⟩
    · simp [axelNext, hlen]
    · by_cases hmv : m < vs.length
      · rw [List.getElem?_append_left hmv] at hm
        obtain ⟨t, y, hv⟩ := hk.versions m a hm
        refine ⟨t, y, hv.mono hg ?_ hhut⟩
        refine Finmap.lookup_insert_of_ne _ ?_
        show m + 1 ≠ z.let + 1
        omega
      · obtain rfl : m = vs.length := by
          have := (List.getElem?_eq_some_iff.mp hm).1
          rw [List.length_append, List.length_singleton] at this
          omega
        rw [List.getElem?_concat_length] at hm
        obtain rfl := Option.some.inj hm
        refine ⟨yak.r, yak, ?_, Finmap.lookup_insert _, ?_, ?_⟩
        · rw [← hlen]
          exact Finmap.lookup_insert _
        · show Shows h (aqel h lag z.lat).1 yak.q (ank.file h.mug)
          rw [hq, hfile]
          exact hsh
        · show ank = checkout h (ank.file h.mug) yak.q
          rw [hq, hfile]
          exact htree
    · by_cases ht : t = yak.r
      · refine ⟨vs.length, ank, List.getElem?_concat_length, ?_⟩
        rw [ht, ← hlen]
        exact Finmap.lookup_insert _
      · have hold : z.hut.lookup t = some y := by
          rw [← hy]
          exact (Finmap.lookup_insert_of_ne _ ht).symm
        obtain ⟨m, a, hm, hit⟩ := hk.commits t y hold
        have hlt : m < vs.length := (List.getElem?_eq_some_iff.mp hm).1
        refine ⟨m, a, by rw [List.getElem?_append_left hlt]; exact hm, ?_⟩
        rw [← hit]
        refine Finmap.lookup_insert_of_ne _ ?_
        show m + 1 ≠ z.let + 1
        omega

/-- The invariant holds in every run. -/
theorem Edited.kept (hC : Apart h C) (hr : Edited h C vs z) : Kept h C vs z := by
  induction hr with
  | empty =>
    refine ⟨rfl, rfl, fun k b hb => ?_, fun n a ha => ?_, fun t y hy => ?_⟩
    · rw [Desk.empty, Finmap.lookup_empty] at hb
      cases hb
    · cases ha
    · rw [Desk.empty, Finmap.lookup_empty] at hy
      cases hy
  | edit _ hp he hk ih =>
    obtain ⟨G, ha, hu⟩ := hp
    exact (axel_kept hC ih ha hu he hk).1
  | label _ he ih =>
    simp only [axel] at he
    split at he
    · cases he
    · obtain rfl := Option.some.inj he
      refine ⟨ih.count, ih.current, ih.sound, fun n a ha => ?_, ih.commits⟩
      obtain ⟨t, y, hv⟩ := ih.versions n a ha
      exact ⟨t, y, hv.mono (.refl _) rfl fun _ _ hy => hy⟩

/-- Whatever plain edits were made, the desk shows its versions, and a plain edit that makes a new
one applies its changes to the files. -/
theorem edits_faithful (hC : Apart h C) (hr : Edited h C vs z) :
    Faithful h vs z ∧ ∀ n wen q z', Plain h C z q.q → axel h n wen (.delta q) z = some z' →
      (∀ t y, z.hut.lookup t = some y → z'.hut.lookup t = some y) → z'.let ≠ z.let →
      Applied C (z.ank.file h.mug) q.q (z'.ank.file h.mug) := by
  have hk := hr.kept hC
  refine ⟨hk.faithful, fun n wen q z' hp he hhut hne => ?_⟩
  obtain ⟨G, ha, hu⟩ := hp
  rw [(axel_kept hC hk ha hu he hhut).2 hne]
  exact ha

/-- A first edit that inserts files. -/
theorem axel_import (wen : Nat) (hC : Apart h C) {q : Soba} {G : Files} {bar : Map Blob}
    (hbar : ∀ n, q.q.foldlM (azalOne h n ∅ .nil) .nil = some bar)
    (ha : Applied C (fun _ => none) q.q G) :
    ∃ n z' q', axel h n wen (.delta q) .empty = some z' ∧ z'.let = 1 ∧ Shows h z'.lat q' G ∧
      z'.ank = checkout h G q' := by
  have hs : Sound h C ∅ := fun k b hb => by
    rw [Finmap.lookup_empty] at hb
    cases hb
  have hnil : Shows h ∅ .nil fun _ => none := ⟨trivial, fun x k hx => (nomatch hx), fun _ _ => rfl⟩
  have hbr : Brings h C ∅ bar G := azal_brings hC hs hnil ha (hbar 0) rfl
  obtain ⟨-, -, hsh⟩ := aqel_spec hC hs hbr
  obtain ⟨N, hN⟩ := azel_settles hsh
  have hazal : azal h N q.q .empty = some bar := by
    show ((q.q.foldlM (azalOne h N ∅ .nil) .nil).bind fun bar => some bar) = some bar
    rw [hbar]
    rfl
  let z : Desk := { Desk.empty with lat := (aqel h bar ∅).1 }
  refine ⟨N, axelNext (zoal h [] (aqel h bar ∅).2 wen) (checkout h G (aqel h bar ∅).2) z,
    (aqel h bar ∅).2, ?_, rfl, hsh, rfl⟩
  have hyet : azol h N wen none q .empty = some (zoal h [] (aqel h bar ∅).2 wen, (aqel h bar ∅).1) := by
    rw [azol, hazal]
    rfl
  have hpar : Desk.par .empty = some none := rfl
  have htest : axelTest h N (zoal h [] (aqel h bar ∅).2 wen) z = some true := rfl
  have hank : azel h z.lat N (zoal h [] (aqel h bar ∅).2 wen).q = some (checkout h G (aqel h bar ∅).2) :=
    hN N le_rfl
  simp only [axel, hpar, Option.bind_eq_bind, Option.bind_some, hyet]
  show ((axelTest h N (zoal h [] (aqel h bar ∅).2 wen) z).bind _) = _
  rw [htest, Option.bind_some, if_pos rfl, hank, Option.map_some]

end runs

/-! ### Two edits -/

/-- Names that can be told apart by looking at them. -/
def countHash : Hash where
  mug
    | .atom a => a + 1
    | .cell .. => 0
  shaf a b := a + b
  sham
    | .cell _ (.cell (.atom p) _) => p + 1
    | .cell _ (.atom a) => a + 10
    | _ => 0

/-- The contents 0, 1 and 2. -/
def Small (v : Noun) : Prop := v = .atom 0 ∨ v = .atom 1 ∨ v = .atom 2

theorem apart_small : Apart countHash Small := by
  rintro u v k (rfl | rfl | rfl) (rfl | rfl | rfl) (rfl | rfl) (hk | hk) <;>
    first | rfl | exact absurd hk (by decide +kernel)

/-- The files `/a` and `/b` come in. -/
def comeIn : Soba := ⟨(0, 0), [([97], .ins (.atom 0)), ([98], .ins (.atom 1))]⟩

/-- `/a` is changed. -/
def change : Soba := ⟨(0, 0), [([97], .mut (.mk .a (.a (.atom 0) (.atom 2))))]⟩

/-- The two files. -/
def twoFiles (v w : Noun) : Files :=
  Function.update (Function.update (fun _ => none) [97] (some v)) [98] (some w)

theorem unshadowed_two (mug : Noun → Nat) (v w : Noun) : Unshadowed mug (twoFiles v w) := by
  have honly (p : Path) (hp : twoFiles v w p ≠ none) : p.length = 1 := by
    by_cases hb : p = [98]
    · rw [hb]
      rfl
    by_cases ha : p = [97]
    · rw [ha]
      rfl
    · rw [twoFiles, Function.update_of_ne hb, Function.update_of_ne ha] at hp
      exact absurd rfl hp
  intro p p' hp hp' hpre hne
  exact absurd (hpre.eq_of_length ((honly p hp).trans (honly p' hp').symm)) hne

theorem comeIn_applied : Applied Small (fun _ => none) comeIn.q (twoFiles (.atom 0) (.atom 1)) :=
  .ins (.inl rfl) (.ins (.inr (.inl rfl)) (.nil _))

theorem comeIn_only {G : Files} (h : Applied Small (fun _ => none) comeIn.q G) :
    G = twoFiles (.atom 0) (.atom 1) := by
  cases h with
  | ins _ h =>
    cases h with
    | ins _ h =>
      cases h
      rfl

theorem change_applied : Applied Small (twoFiles (.atom 0) (.atom 1)) change.q
    (twoFiles (.atom 2) (.atom 1)) := by
  have hto : Function.update (twoFiles (.atom 0) (.atom 1)) [97] (some (.atom 2))
      = twoFiles (.atom 2) (.atom 1) := by
    rw [twoFiles, twoFiles, Function.update_comm (by decide), Function.update_idem]
  have happ : Applied Small (twoFiles (.atom 0) (.atom 1)) change.q
      (Function.update (twoFiles (.atom 0) (.atom 1)) [97] (some (.atom 2))) :=
    .mut (u := .atom 0) rfl rfl (.inr (.inr rfl)) (.nil _)
  rwa [hto] at happ

/-- Two versions, the second with a change of a blob of the first. -/
theorem edits_faithful_two : ∃ z₁ z₂, axel countHash 5 0 (.delta comeIn) .empty = some z₁ ∧
    axel countHash 5 1 (.delta change) z₁ = some z₂ ∧ Faithful countHash [z₁.ank, z₂.ank] z₂ ∧
      Applied Small (z₁.ank.file countHash.mug) change.q (z₂.ank.file countHash.mug) := by
  have hruns : ((axel countHash 5 0 (.delta comeIn) .empty).any fun z₁ =>
      (axel countHash 5 1 (.delta change) z₁).any fun z₂ => z₁.let = 1 ∧ z₂.let = 2 ∧
        ∀ t ∈ z₁.hut.keys, z₂.hut.lookup t = z₁.hut.lookup t) = true := by decide +kernel
  obtain ⟨z₁, h₁, hruns⟩ := (Option.any_eq_true ..).mp hruns
  obtain ⟨z₂, h₂, hruns⟩ := (Option.any_eq_true ..).mp hruns
  obtain ⟨hlet₁, hlet₂, hkeys⟩ := of_decide_eq_true hruns
  have hempty : Desk.empty.ank.file countHash.mug = fun _ => none := funext (file_bare _)
  have hnone (t : Nat) (y : Yaki (Map Nat)) : Desk.empty.hut.lookup t ≠ some y := by
    rw [Desk.empty, Finmap.lookup_empty]
    exact nofun
  have hplain₁ : Plain countHash Small .empty comeIn.q :=
    ⟨_, hempty ▸ comeIn_applied, unshadowed_two _ _ _⟩
  have hrun₁ := Edited.edit .empty hplain₁ h₁ fun t y hy => absurd hy (hnone t y)
  -- the files after the first edit
  have hfiles : z₁.ank.file countHash.mug = twoFiles (.atom 0) (.atom 1) := by
    have happ := (edits_faithful apart_small .empty).2 _ _ _ _ hplain₁ h₁
      (fun t y hy => absurd hy (hnone t y)) (by rw [hlet₁]; decide)
    rw [hempty] at happ
    exact comeIn_only happ
  have hplain₂ : Plain countHash Small z₁ change.q :=
    ⟨_, hfiles ▸ change_applied, unshadowed_two _ _ _⟩
  have hold (t : Nat) (y : Yaki (Map Nat)) (hy : z₁.hut.lookup t = some y) :
      z₂.hut.lookup t = some y := by
    rw [hkeys t (Finmap.mem_keys.mpr (Finmap.lookup_isSome.mp (by rw [hy]; rfl))), hy]
  rw [if_neg (by rw [hlet₁]; decide)] at hrun₁
  have hrun₂ := hrun₁.edit hplain₂ h₂ hold
  rw [if_neg (by rw [hlet₁, hlet₂]; decide)] at hrun₂
  exact ⟨z₁, z₂, h₁, h₂, (edits_faithful apart_small hrun₂).1,
    (edits_faithful apart_small hrun₁).2 _ _ _ _ hplain₂ h₂ hold (by rw [hlet₁, hlet₂]; decide)⟩

/-! ### A first edit that loses a file -/

/-- A store that knows the real `++mug`, and one content. -/
def plainHash : Hash := ⟨mug, fun a _ => a, fun _ => 1⟩

theorem apart_zero (h : Hash) : Apart h (· = .atom 0) := by
  rintro u v k rfl rfl - -
  rfl

theorem mug_a : mug (pathNoun [97]) = 1102345075 := by
  rw [pathNoun, pathNoun, mug_cell, mug_zero, mug_atom]
  decide

theorem mug_a_a : mug (pathNoun [97, 97]) = 1150610860 := by
  rw [pathNoun, mug_cell, mug_a, mug_atom]
  decide

/-- An import of the files `/a` and `/a/a` leaves a tree without the second. -/
theorem import_loses_file :
    ∃ n z', axel plainHash n 0 (.delta ⟨(0, 0), [([97], .ins (.atom 0)), ([97, 97], .ins (.atom 0))]⟩) .empty =
        some z' ∧ z'.let ≠ Desk.empty.let ∧ Apart plainHash (· = .atom 0) ∧
      ¬Applied (· = .atom 0) (Desk.empty.ank.file plainHash.mug)
        [([97], .ins (.atom 0)), ([97, 97], .ins (.atom 0))] (z'.ank.file plainHash.mug) := by
  have happ : Applied (· = .atom 0) (fun _ => none) [([97], .ins (.atom 0)), ([97, 97], .ins (.atom 0))]
      (Function.update (Function.update (fun _ => none) [97] (some (.atom 0))) [97, 97] (some (.atom 0))) :=
    .ins rfl (.ins rfl (.nil _))
  obtain ⟨n, z', q', he, hlet, hsh, hank⟩ := axel_import 0
    (q := ⟨(0, 0), [([97], .ins (.atom 0)), ([97, 97], .ins (.atom 0))]⟩) (apart_zero plainHash)
    (fun n => by
      have hord : Treap.Ordered (gor plainHash.mug) (.nil : Map Blob) := trivial
      have hone : get plainHash.mug (put plainHash.mug .nil (pathNoun [97]) (zeul plainHash (.atom 0) .c))
          (pathNoun [97, 97]) = none := by
        rw [get_put hord, if_neg (by simp)]
        rfl
      show ((azalOne plainHash n ∅ .nil (put plainHash.mug .nil (pathNoun [97])
        (zeul plainHash (.atom 0) .c)) ([97, 97], .ins (.atom 0))).bind fun b => some b) = _
      simp only [azalOne, hone]
      rfl) happ
  have hle : gor plainHash.mug (pathNoun [97]) (pathNoun [97, 97]) = true := by
    show gor mug _ _ = true
    rw [gor, keyOrder, mug_a, mug_a_a]
    decide
  have hlost := checkout_shadow hsh (p := [97]) (b := [97, 97]) (by simp) (by simp) (by simp) hle
  refine ⟨n, z', he, by rw [hlet]; decide, apart_zero plainHash, fun h => ?_⟩
  generalize hF : z'.ank.file plainHash.mug = F at h
  cases h with
  | ins _ h =>
    cases h with
    | ins _ h =>
      cases h with
      | nil =>
        have := congrFun hF [97, 97]
        rw [hank, hlost, Function.update_self] at this
        cases this

end Vere.Clay
