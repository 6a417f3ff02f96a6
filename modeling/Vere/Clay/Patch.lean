import Vere.Clay.Tree
import Vere.Lib.Settles

/-!
# Vere.Clay.Patch

What `++cost` finds between two trees.

`dist` keeps its cursor: for each folder it takes from the descent the list of changes only
(`dist_spec`). `dirk` does not. It goes into the first folder and stays where that ends, which is
a node without folders, so that the other folders of a removed directory are not seen
(`dirk_spec`). A patch is therefore complete exactly if no node of a removed directory has two
folders.
-/

namespace Vere.Clay

open Vere.Lib Vere.Hoon

/-- A change that fits, and whose inverse fits the other way. -/
def Swaps (u v : Option Noun) (mis : Miso) : Prop :=
  Fits u v mis ∧ ∃ mis', cure mis = some mis' ∧ Fits v u mis'

/-- Two texts differ by a change that can be taken back. -/
theorem text_swaps (mug : Noun → Nat) (n : Nat) {u v : Noun} (hu : Text u) (hv : Text v) :
    ∃ d, diff mug n .c u v = some d ∧ Swaps (some u) (some v) (.mut d) := by
  cases u with
  | cell _ _ => exact hu.elim
  | atom a =>
    cases v with
    | cell _ _ => exact hv.elim
    | atom b =>
      obtain ⟨tez, hlore, hroly⟩ := id hu
      obtain ⟨tez', hlore', hroly'⟩ := id hv
      have hold : loreNoun (.atom a) = some (tez.map Noun.atom) := by simp [loreNoun, hardAtom, hlore]
      have hnew : loreNoun (.atom b) = some (tez'.map Noun.atom) := by
        simp [loreNoun, hardAtom, hlore']
      obtain ⟨rug, hd, ht⟩ := diff_text mug n hold hnew
      refine ⟨_, hd, ⟨_, _, rfl, rfl, ?_, hv⟩, .mut (.mk .c (.c (berk rug))), rfl, _, _, rfl, rfl, ?_, hu⟩
      · exact (lump_text ht hold hnew).mpr ((roly_lore hlore').mp hroly')
      · exact (lump_text ht.berk hnew hold).mpr ((roly_lore hlore).mp hroly)

/-- A list of changes of different files, each of which can be taken back. -/
structure Delta (mug : Noun → Nat) (a b : Ankh) (l : List (Path × Miso)) : Prop where
  nodup : (l.map Prod.fst).Nodup
  swaps : ∀ x ∈ l, Swaps (a.file mug x.1) (b.file mug x.1) x.2

/-- The list names every file that is not the same in both trees. -/
def Covers (mug : Noun → Nat) (a b : Ankh) (l : List (Path × Miso)) : Prop :=
  ∀ pax, a.file mug pax ≠ b.file mug pax → pax ∈ l.map Prod.fst

/-- The inverses of the changes of a list. -/
def cures (l : List (Path × Miso)) : Option (List (Path × Miso)) :=
  l.mapM fun x => (cure x.2).map (Prod.mk x.1)

section lists

variable {mug : Noun → Nat} {a b : Ankh} {l : List (Path × Miso)}

theorem Delta.patch (hd : Delta mug a b l) : Patch mug a b l :=
  ⟨hd.nodup, fun x hx => (hd.swaps x hx).1⟩

theorem Delta.cures (hd : Delta mug a b l) :
    ∃ l', cures l = some l' ∧ l'.map Prod.fst = l.map Prod.fst ∧
      ∀ x ∈ l', Fits (b.file mug x.1) (a.file mug x.1) x.2 := by
  have hs := hd.swaps
  clear hd
  induction l with
  | nil => exact ⟨[], rfl, rfl, by simp⟩
  | cons x l ih =>
    obtain ⟨-, mis, hmis, hfits⟩ := hs x List.mem_cons_self
    obtain ⟨l', hl', hnames, hall⟩ := ih fun y hy => hs y (List.mem_cons_of_mem x hy)
    refine ⟨(x.1, mis) :: l', ?_, by rw [List.map_cons, List.map_cons, hnames], ?_⟩
    · rw [Clay.cures] at hl' ⊢
      rw [List.mapM_cons, hmis, hl']
      rfl
    · intro y hy
      rcases List.mem_cons.mp hy with rfl | hy
      · exact hfits
      · exact hall y hy

/-- The inverses, the last first, are a patch the other way. -/
theorem Delta.undo (hd : Delta mug a b l) :
    ∃ l', Clay.cures l = some l' ∧ Patch mug b a l'.reverse ∧
      ∀ pax, pax ∈ l'.reverse.map Prod.fst ↔ pax ∈ l.map Prod.fst := by
  obtain ⟨l', hl', hnames, hall⟩ := hd.cures
  refine ⟨l', hl', ⟨?_, fun x hx => hall x (List.mem_reverse.mp hx)⟩, fun pax => ?_⟩
  · rw [List.map_reverse, hnames]
    exact List.nodup_reverse.mpr hd.nodup
  · rw [List.map_reverse, List.mem_reverse, hnames]

/-- Applying a patch gives the other tree exactly if it names all that differs. -/
theorem dune_eq {h : Hash} (ha : Tidy h a) (hb : Tidy h b) (hl : Patch h.mug a b l)
    (myz : List (Path × Miso)) (ram : Path) :
    ∃ z, Zu.duneLoop h l ⟨a, myz, ram⟩ = some z ∧ (z.ank = b ↔ Covers h.mug a b l) := by
  obtain ⟨z, hz, ht, hf⟩ := dune_files ha hl myz ram
  refine ⟨z, hz, ?_, fun hc => tidy_ext ht hb fun pax => ?_⟩
  · rintro he pax hne
    by_contra hpax
    have := hf pax
    rw [if_neg hpax, he] at this
    exact hne this.symm
  · rw [hf]
    by_cases hpax : pax ∈ l.map Prod.fst
    · rw [if_pos hpax]
    · rw [if_neg hpax]
      by_contra hne
      exact hpax (hc pax hne)

end lists

/-! ### A node and its folders -/

/-- Changes of folders, as changes of the node. -/
def under (L : List (Nat × List (Path × Miso))) : List (Path × Miso) :=
  L.flatMap fun x => x.2.map fun y => (x.1 :: y.1, y.2)

/-- The folder of a name, or the empty node. -/
def Ankh.sub (mug : Noun → Nat) (a : Ankh) (i : Nat) : Ankh := (Dir.get mug a.r i).getD .bare

/-- What is to be done with the file of the node itself. -/
def Here (mug : Noun → Nat) (a b : Ankh) : Option Miso → Prop
  | none => a.file mug [] = b.file mug []
  | some mis => Swaps (a.file mug []) (b.file mug []) mis

/-- The change of the file of the node, as a list. -/
def here (mis : Option Miso) : List (Path × Miso) := mis.toList.map (Prod.mk [])

section node

variable {mug : Noun → Nat} {a b : Ankh} {L : List (Nat × List (Path × Miso))}

theorem mem_under {y : Path × Miso} :
    y ∈ under L ↔ ∃ x ∈ L, ∃ z ∈ x.2, (x.1 :: z.1, z.2) = y := by
  simp [under]

theorem mem_under_names {pax : Path} :
    pax ∈ (under L).map Prod.fst ↔ ∃ x ∈ L, ∃ t ∈ x.2.map Prod.fst, x.1 :: t = pax := by
  simp only [List.mem_map, mem_under]
  constructor
  · rintro ⟨-, ⟨x, hx, z, hz, rfl⟩, rfl⟩
    exact ⟨x, hx, z.1, ⟨z, hz, rfl⟩, rfl⟩
  · rintro ⟨x, hx, -, ⟨z, hz, rfl⟩, rfl⟩
    exact ⟨_, ⟨x, hx, z, hz, rfl⟩, rfl⟩

theorem under_append (L M : List (Nat × List (Path × Miso))) :
    under (L ++ M) = under L ++ under M := List.flatMap_append

theorem nodup_under (hnames : (L.map Prod.fst).Nodup) (hall : ∀ x ∈ L, (x.2.map Prod.fst).Nodup) :
    ((under L).map Prod.fst).Nodup := by
  induction L with
  | nil => exact List.nodup_nil
  | cons x L ih =>
    rw [List.map_cons, List.nodup_cons] at hnames
    have hcons : under (x :: L) = (x.2.map fun y => (x.1 :: y.1, y.2)) ++ under L := rfl
    rw [hcons, List.map_append, List.nodup_append]
    refine ⟨?_, ih hnames.2 fun y hy => hall y (List.mem_cons_of_mem x hy), ?_⟩
    · have hmap : (x.2.map fun y => (x.1 :: y.1, y.2)).map Prod.fst =
          (x.2.map Prod.fst).map (List.cons x.1) := by simp [Function.comp_def]
      rw [hmap]
      exact (hall x List.mem_cons_self).map fun s t hst => (List.cons.inj hst).2
    · rintro p hp q hq rfl
      obtain ⟨z, hz, t, -, htp⟩ := mem_under_names.mp hq
      simp only [List.map_map, List.mem_map, Function.comp_apply] at hp
      obtain ⟨y, -, hyp⟩ := hp
      rw [← htp] at hyp
      exact hnames.1 ((List.cons.inj hyp).1 ▸ List.mem_map_of_mem hz)

/-- Changes of the file and of each folder, put together. -/
theorem Delta.node {mis : Option Miso} (hhere : Here mug a b mis)
    (hnames : (L.map Prod.fst).Nodup)
    (hrest : ∀ i, i ∉ L.map Prod.fst → a.sub mug i = .bare ∧ b.sub mug i = .bare)
    (hall : ∀ x ∈ L, Delta mug (a.sub mug x.1) (b.sub mug x.1) x.2) :
    Delta mug a b (here mis ++ under L) ∧
      (Covers mug a b (here mis ++ under L) ↔
        ∀ x ∈ L, Covers mug (a.sub mug x.1) (b.sub mug x.1) x.2) := by
  have hmem : ∀ {pax}, pax ∈ (here mis ++ under L).map Prod.fst ↔
      (pax = [] ∧ mis ≠ none) ∨ ∃ x ∈ L, ∃ t ∈ x.2.map Prod.fst, x.1 :: t = pax := by
    intro pax
    rw [List.map_append, List.mem_append, mem_under_names]
    cases mis <;> simp [here]
  refine ⟨⟨?_, ?_⟩, ?_, ?_⟩
  · rw [List.map_append, List.nodup_append]
    refine ⟨?_, nodup_under hnames fun x hx => (hall x hx).nodup, ?_⟩
    · cases mis <;> simp [here]
    · rintro p hp q hq rfl
      obtain ⟨x, -, t, -, ht⟩ := mem_under_names.mp hq
      cases mis <;> simp [here, ← ht] at hp
  · intro y hy
    rcases List.mem_append.mp hy with hy | hy
    · cases mis with
      | none => simp [here] at hy
      | some mis =>
        obtain rfl : y = ([], mis) := by simpa [here] using hy
        exact hhere
    · obtain ⟨x, hx, z, hz, rfl⟩ := mem_under.mp hy
      have := (hall x hx).swaps z hz
      rwa [Ankh.sub, Ankh.sub, file_dent, file_dent] at this
  · intro hc x hx t hne
    rw [Ankh.sub, Ankh.sub, file_dent, file_dent] at hne
    rcases hmem.mp (hc _ hne) with ⟨h0, -⟩ | ⟨y, hy, s, hs, he⟩
    · cases h0
    · obtain ⟨hyx, rfl⟩ := List.cons.inj he
      rwa [List.inj_on_of_nodup_map hnames hy hx hyx] at hs
  · intro hc pax hne
    rw [hmem]
    cases pax with
    | nil =>
      refine .inl ⟨rfl, ?_⟩
      rintro rfl
      exact hne hhere
    | cons i t =>
      rw [← file_dent, ← file_dent mug b] at hne
      by_cases hi : i ∈ L.map Prod.fst
      · obtain ⟨x, hx, rfl⟩ := List.mem_map.mp hi
        exact .inr ⟨x, hx, t, hc x hx t hne, rfl⟩
      · -- a name that no folder has
        obtain ⟨ha, hb⟩ := hrest i hi
        rw [Ankh.sub] at ha hb
        rw [ha, hb] at hne
        exact absurd rfl hne

end node

/-! ### What the cursor lists -/

/-- No node of the tree has two folders. -/
def Thin (mug : Noun → Nat) (a : Ankh) : Prop :=
  ∀ pax c, a.at mug pax = some c → (Dir.tap c.r []).length ≤ 1

/-- Changes below a path, in the form of the cursor's list. -/
def placed (ram : Path) (l : List (Path × Miso)) : List (Path × Miso) :=
  l.map fun x => (ram.reverse ++ x.1, x.2)

theorem placed_append (ram : Path) (l m : List (Path × Miso)) :
    placed ram (l ++ m) = placed ram l ++ placed ram m := List.map_append

theorem placed_under (ram : Path) (i : Nat) (l : List (Path × Miso)) :
    placed (i :: ram) l = placed ram (under [(i, l)]) := by
  simp [placed, under]

/-- The cursor's list with more changes. -/
def noted (myz : List (Path × Miso)) (ram : Path) (l : List (Path × Miso)) : List (Path × Miso) :=
  (placed ram l).reverse ++ myz

theorem noted_append (myz : List (Path × Miso)) (ram : Path) (l m : List (Path × Miso)) :
    noted (noted myz ram l) ram m = noted myz ram (l ++ m) := by
  simp [noted, placed_append]

theorem noted_under (myz : List (Path × Miso)) (ram : Path) (i : Nat) (l : List (Path × Miso)) :
    noted myz (i :: ram) l = noted myz ram (under [(i, l)]) := by
  rw [noted, noted, placed_under]

theorem noted_here (myz : List (Path × Miso)) (ram : Path) (mis : Miso) :
    noted myz ram (here (some mis)) = (ram.reverse, mis) :: myz := by
  simp [noted, placed, here]

theorem noted_none (myz : List (Path × Miso)) (ram : Path) : noted myz ram (here none) = myz := rfl

section cursor

variable {h : Hash}

theorem thin_iff {mug : Noun → Nat} {a : Ankh} :
    Thin mug a ↔ (Dir.tap a.r []).length ≤ 1 ∧ ∀ i c, Dir.get mug a.r i = some c → Thin mug c := by
  constructor
  · intro ht
    refine ⟨ht [] a rfl, fun i c hc pax d hd => ht (i :: pax) d ?_⟩
    rw [Ankh.at, hc]
    exact hd
  · rintro ⟨h0, hall⟩ pax d hd
    cases pax with
    | nil =>
      obtain rfl := Option.some.inj hd
      exact h0
    | cons i t =>
      rw [Ankh.at] at hd
      cases hc : Dir.get mug a.r i with
      | none => rw [hc] at hd; cases hd
      | some c =>
        rw [hc] at hd
        exact hall i c hc t d hd

/-- From a node without folders the cursor finds only empty nodes. -/
theorem dirk_lost {l : List (Nat × Ankh)} {c : Ankh} (hc : c.r = .nil) (myz : List (Path × Miso))
    (ram : Path) :
    ∃ z : Zu, Settles (fun n => l.foldlM (fun z i => Zu.dirk h n (z.dent h i.1)) ⟨c, myz, ram⟩)
      (some z) ∧ z.ank.r = .nil ∧ z.myz = myz := by
  refine Settles.foldlM (m := Option) (f := fun n z (i : Nat × Ankh) => Zu.dirk h n (z.dent h i.1))
    (fun _ z => z.ank.r = .nil ∧ z.myz = myz) ⟨hc, rfl⟩ ?_
  rintro done ⟨k, m, r⟩ x - ⟨hk, rfl⟩
  have hdent : Zu.dent h x.1 ⟨k, m, r⟩ = ⟨.bare, m, x.1 :: r⟩ := by
    simp only at hk
    simp [Zu.dent, hk, Dir.get, Treap.lookup]
  refine ⟨⟨.bare, m, x.1 :: r⟩, .call (fun n => ?_) (.const _), rfl, rfl⟩
  rw [hdent]
  rfl

/-- `dirk` lists the files on the way down through the first folders, and these are all of them
exactly if there are no other folders. The cursor ends where it has nothing to go down to. -/
theorem dirk_spec {a : Ankh} (ha : Tidy h a) (myz : List (Path × Miso)) (ram : Path) :
    ∃ l, ∃ z : Zu, Settles (fun n => Zu.dirk h n ⟨a, myz, ram⟩) (some z) ∧ z.ank.r = .nil ∧
      z.myz = noted myz ram l ∧ Delta h.mug a .bare l ∧
      (Covers h.mug a .bare l ↔ Thin h.mug a) := by
  induction hn : sizeOf a using Nat.strong_induction_on generalizing a myz ram with
  | _ n ih =>
    -- the file of the node
    obtain ⟨mis, hhere, hstep⟩ : ∃ mis, Here h.mug a .bare mis ∧
        ∀ n, Zu.dirk h (n + 1) ⟨a, myz, ram⟩ =
          (Dir.tap a.r []).foldlM (fun z i => Zu.dirk h n (z.dent h i.1))
            ⟨a, noted myz ram (here mis), ram⟩ := by
      cases hq : a.q with
      | none =>
        refine ⟨none, by rw [Here, file_nil, hq]; rfl, fun n => ?_⟩
        simp only [Zu.dirk, hq]
        rfl
      | some x =>
        refine ⟨some (.del x.2), ?_, fun n => ?_⟩
        · have htext := ((tidy_iff.mp ha).2.1 x hq).2
          rw [Here, file_nil, hq]
          exact ⟨⟨rfl, rfl⟩, _, rfl, rfl, rfl, htext⟩
        · simp only [Zu.dirk, hq]
          rw [noted_here]
          rfl
    have hnames := Dir.nodup_tap ha.good
    have hget : ∀ x ∈ Dir.tap a.r [], Dir.get h.mug a.r x.1 = some x.2 :=
      fun x => (Dir.mem_tap_iff ha.good x).mp
    -- a name that is not listed
    have hrest : ∀ i, i ∉ (Dir.tap a.r []).map Prod.fst →
        a.sub h.mug i = .bare ∧ Ankh.bare.sub h.mug i = .bare := by
      intro i hi
      refine ⟨?_, rfl⟩
      rw [Ankh.sub]
      cases hc : Dir.get h.mug a.r i with
      | none => rfl
      | some c => exact absurd (List.mem_map_of_mem ((Dir.mem_tap_iff ha.good (i, c)).mpr hc)) hi
    cases htap : Dir.tap a.r [] with
    | nil =>
      have hr : a.r = .nil := Treap.tap_eq_nil.mp htap
      obtain ⟨hd, hcov⟩ := Delta.node (L := []) hhere List.nodup_nil (by rwa [htap] at hrest) (by simp)
      rw [show under [] = [] from rfl, List.append_nil] at hd hcov
      refine ⟨here mis, ⟨a, noted myz ram (here mis), ram⟩, .call hstep ?_, hr, rfl, hd, ?_⟩
      · rw [htap]
        exact .const _
      · rw [hcov, thin_iff, htap, hr]
        simp [Dir.get, Treap.lookup]
    | cons x rest =>
      have hx := hget x (by rw [htap]; exact List.mem_cons_self)
      obtain ⟨l, ⟨k, m, ram'⟩, hset, hk, hmyz, hdl, hcl⟩ :=
        ih _ (hn ▸ sizeOf_get ha hx) (ha.folder hx).1 (noted myz ram (here mis)) (x.1 :: ram) rfl
      simp only at hk hmyz
      obtain ⟨z, hset', hz, hzm⟩ := dirk_lost (h := h) (l := rest) hk m ram'
      -- the other folders are there, but nothing is listed for them
      have hsub : ∀ y ∈ x :: rest, a.sub h.mug y.1 = y.2 := by
        intro y hy
        rw [Ankh.sub, hget y (htap ▸ hy)]
        rfl
      have hL : ((x.1, l) :: rest.map fun y => (y.1, ([] : List (Path × Miso)))).map Prod.fst =
          (Dir.tap a.r []).map Prod.fst := by
        rw [htap]
        simp [Function.comp_def]
      obtain ⟨hd, hcov⟩ := Delta.node (L := (x.1, l) :: rest.map fun y => (y.1, [])) hhere
        (hL ▸ hnames) (by rwa [hL]) (by
          intro y hy
          rcases List.mem_cons.mp hy with rfl | hy
          · simp only
            rw [hsub x List.mem_cons_self]
            exact hdl
          · obtain ⟨y, -, rfl⟩ := List.mem_map.mp hy
            exact ⟨List.nodup_nil, by simp⟩)
      have hunder : under ((x.1, l) :: rest.map fun y => (y.1, [])) = under [(x.1, l)] := by
        simp [under]
      rw [hunder] at hd hcov
      refine ⟨_, z, .call hstep ?_, hz, ?_, hd, ?_⟩
      · rw [htap]
        simp only [List.foldlM_cons]
        refine Settles.bind (m := Option) (x := ⟨k, m, ram'⟩) ?_ hset'
        have hdent : Zu.dent h x.1 ⟨a, noted myz ram (here mis), ram⟩ =
            ⟨x.2, noted myz ram (here mis), x.1 :: ram⟩ := by
          simp [Zu.dent, hx]
        rw [hdent]
        exact hset
      · rw [hzm, hmyz, noted_under, noted_append]
      · rw [hcov, thin_iff, htap]
        constructor
        · intro hall
          -- a folder for which nothing is listed would have a file
          have hnil : rest = [] := by
            cases rest with
            | nil => rfl
            | cons y rest =>
              have hy : y ∈ x :: y :: rest := List.mem_cons_of_mem x List.mem_cons_self
              have hcy := hall (y.1, []) (List.mem_cons_of_mem _ List.mem_cons_self)
              simp only at hcy
              rw [hsub y hy] at hcy
              obtain ⟨hct, hcb⟩ := ha.folder (hget y (htap ▸ hy))
              obtain ⟨pax, v, hv⟩ := hct.exists_file hcb
              have hbare : Dir.get h.mug Ankh.bare.r y.1 = none := rfl
              exact absurd (hcy pax (by rw [hv, Ankh.sub, hbare]; simp [file_bare])) (by simp)
          subst hnil
          refine ⟨by simp, fun i c hc => ?_⟩
          have hmem := (Dir.mem_tap_iff ha.good (i, c)).mpr hc
          rw [htap, List.mem_singleton] at hmem
          subst hmem
          have hci := hall (i, l) List.mem_cons_self
          simp only at hci
          rw [hsub (i, c) List.mem_cons_self] at hci
          exact hcl.mp hci
        · rintro ⟨hlen, hall⟩ y hy
          obtain rfl : rest = [] := by
            cases rest with
            | nil => rfl
            | cons _ _ => simp at hlen
          obtain rfl : y = (x.1, l) := by simpa using hy
          simp only
          rw [hsub x List.mem_cons_self]
          exact hcl.mpr (hall _ _ hx)

/-- In a directory that is removed, no node has two folders. -/
def Narrow (mug : Noun → Nat) (a b : Ankh) : Prop :=
  ∀ pax c, a.at mug pax = some c → b.at mug pax = none → (Dir.tap c.r []).length ≤ 1

/-- The same below one name. -/
def NarrowAt (mug : Noun → Nat) (a b : Ankh) (i : Nat) : Prop :=
  ∀ t c, a.at mug (i :: t) = some c → b.at mug (i :: t) = none → (Dir.tap c.r []).length ≤ 1

theorem narrow_iff {mug : Noun → Nat} {a b : Ankh} : Narrow mug a b ↔ ∀ i, NarrowAt mug a b i := by
  constructor
  · exact fun hn i t => hn (i :: t)
  · intro hall pax c hc hnone
    cases pax with
    | nil => cases hnone
    | cons i t => exact hall i t c hc hnone

theorem at_cons {mug : Noun → Nat} {a c : Ankh} {i : Nat} (hc : Dir.get mug a.r i = some c)
    (t : Path) : a.at mug (i :: t) = c.at mug t := by
  rw [Ankh.at, hc]

theorem at_none {mug : Noun → Nat} {a : Ankh} {i : Nat} (hc : Dir.get mug a.r i = none)
    (t : Path) : a.at mug (i :: t) = none := by
  rw [Ankh.at, hc]

/-- A folder that stays. -/
theorem narrowAt_some {mug : Noun → Nat} {a b d : Ankh} {i : Nat} (hd : Dir.get mug b.r i = some d) :
    NarrowAt mug a b i ↔ Narrow mug (a.sub mug i) d := by
  rw [Ankh.sub]
  cases hc : Dir.get mug a.r i with
  | some c => simp only [NarrowAt, Narrow, at_cons hc, at_cons hd, Option.getD_some]
  | none =>
    refine ⟨fun _ pax c hpc hnone => ?_, fun _ t c hpc => ?_⟩
    · cases pax with
      | nil => cases hnone
      | cons j t => cases hpc
    · rw [at_none hc] at hpc
      cases hpc

/-- A folder that goes. -/
theorem narrowAt_none {mug : Noun → Nat} {a b c : Ankh} {i : Nat} (hc : Dir.get mug a.r i = some c)
    (hd : Dir.get mug b.r i = none) : NarrowAt mug a b i ↔ Thin mug c := by
  simp only [NarrowAt, Thin, at_cons hc, at_none hd, forall_const]

/-- The changes below one name, and when they are all. -/
structure Part (mug : Noun → Nat) (a b : Ankh) (x : Nat × List (Path × Miso)) : Prop where
  delta : Delta mug (a.sub mug x.1) (b.sub mug x.1) x.2
  covers : Covers mug (a.sub mug x.1) (b.sub mug x.1) x.2 ↔ NarrowAt mug a b x.1

theorem dest_spec {a b : Ankh} (ha : Tidy h a) (hb : Tidy h b) (myz : List (Path × Miso))
    (ram : Path) :
    ∃ mis, Here h.mug a b mis ∧
      ∀ n, Zu.dest h n .c b.q ⟨a, myz, ram⟩ = some ⟨a, noted myz ram (here mis), ram⟩ := by
  have hta := (tidy_iff.mp ha).2.1
  have htb := (tidy_iff.mp hb).2.1
  simp only [Here, file_nil, Zu.dest]
  cases hqa : a.q with
  | none =>
    cases hqb : b.q with
    | none => exact ⟨none, rfl, fun _ => rfl⟩
    | some y =>
      refine ⟨some (.ins y.2), ⟨⟨rfl, rfl, (htb y hqb).2⟩, _, rfl, rfl, rfl⟩, fun _ => ?_⟩
      rw [noted_here]
      rfl
  | some x =>
    cases hqb : b.q with
    | none =>
      refine ⟨some (.del x.2), ⟨⟨rfl, rfl⟩, _, rfl, rfl, rfl, (hta x hqa).2⟩, fun _ => ?_⟩
      rw [noted_here]
      rfl
    | some y =>
      by_cases hxy : y.2 = x.2
      · exact ⟨none, by simp [hxy], fun _ => by simp [hxy, noted_none]⟩
      · obtain ⟨d, hd, hsw⟩ := text_swaps h.mug 0 (hta x hqa).2 (htb y hqb).2
        refine ⟨some (.mut d), hsw, fun n => ?_⟩
        -- a patch of texts needs no fuel
        have hd' : diff h.mug n .c x.2 y.2 = some d := hd
        rw [noted_here]
        simp only [hxy, if_false, hd']
        rfl

/-- The first loop of `dist`: the folders that go. -/
theorem dist_gone {a : Ankh} (ha : Tidy h a) (b : Ankh) (myz : List (Path × Miso)) (ram : Path) :
    ∃ L : List (Nat × List (Path × Miso)),
      Settles (fun n => (Dir.tap a.r []).foldlM (fun (z : Zu) i =>
        if Dir.has h.mug b.r i.1 then some z
        else do
          let d ← Zu.dirk h n { z with ank := i.2, ram := i.1 :: z.ram }
          return { z with myz := d.myz }) ⟨a, myz, ram⟩)
        (some ⟨a, noted myz ram (under L), ram⟩) ∧
      L.map Prod.fst = ((Dir.tap a.r []).map Prod.fst).filter (fun i => !Dir.has h.mug b.r i) ∧
      ∀ x ∈ L, Part h.mug a b x := by
  obtain ⟨z, hset, L, rfl, hnames, hall⟩ := Settles.foldlM (m := Option)
    (f := fun n (z : Zu) (i : Nat × Ankh) =>
      if Dir.has h.mug b.r i.1 then some z
      else do
        let d ← Zu.dirk h n { z with ank := i.2, ram := i.1 :: z.ram }
        return { z with myz := d.myz })
    (fun done z => ∃ L : List (Nat × List (Path × Miso)), z = ⟨a, noted myz ram (under L), ram⟩ ∧
      L.map Prod.fst = (done.map Prod.fst).filter (fun i => !Dir.has h.mug b.r i) ∧
      ∀ x ∈ L, Part h.mug a b x)
    (l := Dir.tap a.r []) (s := ⟨a, myz, ram⟩) ⟨[], rfl, rfl, by simp⟩ (by
      rintro done - x hx ⟨L, rfl, hnames, hall⟩
      have hc : Dir.get h.mug a.r x.1 = some x.2 := (Dir.mem_tap_iff ha.good x).mp hx
      by_cases hhas : Dir.has h.mug b.r x.1 = true
      · refine ⟨_, ?_, L, rfl, ?_, hall⟩
        · simp only [hhas, if_true]
          exact .const _
        · rw [hnames]
          simp [hhas]
      · obtain ⟨l, z, hdirk, -, hz, hd, hcov⟩ :=
          dirk_spec (ha.folder hc).1 (noted myz ram (under L)) (x.1 :: ram)
        have hnone : Dir.get h.mug b.r x.1 = none := by simpa [Dir.has] using hhas
        refine ⟨⟨a, noted myz ram (under (L ++ [(x.1, l)])), ram⟩, ?_, L ++ [(x.1, l)], rfl, ?_, ?_⟩
        · simp only [hhas, Bool.false_eq_true, if_false]
          refine hdirk.bind (m := Option) ?_
          rw [hz, noted_under, noted_append, ← under_append]
          exact .const _
        · rw [List.map_append, List.map_append, List.filter_append, hnames]
          simp [hhas]
        · intro y hy
          rcases List.mem_append.mp hy with hy | hy
          · exact hall y hy
          · obtain rfl := List.mem_singleton.mp hy
            refine ⟨?_, ?_⟩
            · rw [Ankh.sub, Ankh.sub, hc, hnone]
              exact hd
            · rw [narrowAt_none hc hnone, Ankh.sub, Ankh.sub, hc, hnone]
              exact hcov)
  exact ⟨L, hset, hnames, hall⟩

/-- `dist` lists changes of different files, which can be taken back, and leaves its cursor where
it was. They are all changes exactly if no node of a removed directory has two folders. -/
theorem dist_spec {a b : Ankh} (ha : Tidy h a) (hb : Tidy h b) (myz : List (Path × Miso))
    (ram : Path) :
    ∃ l, Settles (fun n => Zu.dist h .c n b ⟨a, myz, ram⟩) (some ⟨a, noted myz ram l, ram⟩) ∧
      Delta h.mug a b l ∧ (Covers h.mug a b l ↔ Narrow h.mug a b) := by
  induction hn : sizeOf b using Nat.strong_induction_on generalizing a b myz ram with
  | _ n ih =>
    obtain ⟨mis, hhere, hdest⟩ := dest_spec ha hb myz ram
    obtain ⟨L, hgone, hLnames, hL⟩ := dist_gone ha b (noted myz ram (here mis)) ram
    rw [noted_append] at hgone
    -- the second loop: the folders of the other tree
    obtain ⟨z, hset, M, rfl, hMnames, hM⟩ := Settles.foldlM (m := Option)
      (f := fun n (z : Zu) (i : Nat × Ankh) => do
        let d ← Zu.dist h .c n i.2 (z.dent h i.1)
        return { z with myz := d.myz })
      (fun done z => ∃ M : List (Nat × List (Path × Miso)),
        z = ⟨a, noted myz ram (here mis ++ under (L ++ M)), ram⟩ ∧
        M.map Prod.fst = done.map Prod.fst ∧ ∀ x ∈ M, Part h.mug a b x)
      (l := Dir.tap b.r []) (s := ⟨a, noted myz ram (here mis ++ under L), ram⟩)
      ⟨[], by rw [List.append_nil], rfl, by simp⟩ (by
        rintro done - x hx ⟨M, rfl, hnames, hall⟩
        have hd : Dir.get h.mug b.r x.1 = some x.2 := (Dir.mem_tap_iff hb.good x).mp hx
        obtain ⟨l, hdist, hdl, hcl⟩ := ih _ (hn ▸ sizeOf_get hb hd) (ha.dent x.1) (hb.folder hd).1
          (noted myz ram (here mis ++ under (L ++ M))) (x.1 :: ram) rfl
        refine ⟨⟨a, noted myz ram (here mis ++ under (L ++ (M ++ [(x.1, l)]))), ram⟩, ?_,
          M ++ [(x.1, l)], rfl, by simp [hnames], ?_⟩
        · refine hdist.bind (m := Option) ?_
          rw [noted_under, noted_append, List.append_assoc, ← under_append, List.append_assoc]
          exact .const _
        · intro y hy
          rcases List.mem_append.mp hy with hy | hy
          · exact hall y hy
          · obtain rfl := List.mem_singleton.mp hy
            have hsub : b.sub h.mug x.1 = x.2 := by rw [Ankh.sub, hd]; rfl
            refine ⟨?_, ?_⟩
            · simp only [hsub]
              exact hdl
            · simp only [hsub, narrowAt_some hd]
              exact hcl)
    have hall : ∀ x ∈ L ++ M, Part h.mug a b x := fun x hx =>
      (List.mem_append.mp hx).elim (hL x) (hM x)
    have hnames : (L ++ M).map Prod.fst =
        ((Dir.tap a.r []).map Prod.fst).filter (fun i => !Dir.has h.mug b.r i) ++
          (Dir.tap b.r []).map Prod.fst := by
      rw [List.map_append, hLnames, hMnames]
    have hmemb : ∀ {i}, i ∈ (Dir.tap b.r []).map Prod.fst ↔ Dir.has h.mug b.r i = true := by
      intro i
      simp [Dir.has, Option.isSome_iff_exists, Dir.mem_tap_iff hb.good]
    have hmema : ∀ {i}, i ∈ (Dir.tap a.r []).map Prod.fst ↔ Dir.has h.mug a.r i = true := by
      intro i
      simp [Dir.has, Option.isSome_iff_exists, Dir.mem_tap_iff ha.good]
    have hmem : ∀ {i}, i ∉ (L ++ M).map Prod.fst →
        Dir.get h.mug a.r i = none ∧ Dir.get h.mug b.r i = none := by
      intro i hi
      rw [hnames, List.mem_append, not_or, List.mem_filter, hmemb, hmema] at hi
      obtain ⟨hia, hib⟩ := hi
      have hb' : Dir.get h.mug b.r i = none := by simpa [Dir.has] using hib
      refine ⟨?_, hb'⟩
      simpa [Dir.has, hb'] using hia
    obtain ⟨hd, hcov⟩ := Delta.node (L := L ++ M) hhere (by
      rw [hnames, List.nodup_append]
      refine ⟨(Dir.nodup_tap ha.good).filter _, Dir.nodup_tap hb.good, ?_⟩
      rintro i hi j hj rfl
      have := (List.mem_filter.mp hi).2
      rw [hmemb.mp hj] at this
      cases this) (fun i hi => by
        obtain ⟨hai, hbi⟩ := hmem hi
        simp [Ankh.sub, hai, hbi]) fun x hx => (hall x hx).delta
    have hloops := hgone.bind (m := Option) (h := fun z n => (Dir.tap b.r []).foldlM
      (fun z i => do
        let d ← Zu.dist h .c n i.2 (z.dent h i.1)
        return { z with myz := d.myz }) z) hset
    refine ⟨_, .call (fun n => ?_) hloops, hd, ?_⟩
    · rw [Zu.dist, hdest]
      rfl
    · rw [hcov, narrow_iff]
      constructor
      · intro hc i
        by_cases hi : i ∈ (L ++ M).map Prod.fst
        · obtain ⟨x, hx, rfl⟩ := List.mem_map.mp hi
          exact (hall x hx).covers.mp (hc x hx)
        · intro t c hpc
          rw [at_none (hmem hi).1] at hpc
          cases hpc
      · exact fun hc x hx => (hall x hx).covers.mpr (hc x.1)

end cursor

/-! ### Patches of trees -/

section cost

variable {h : Hash} {ank bus : Ankh}

theorem cost_delta (ha : Tidy h ank) (hb : Tidy h bus) :
    ∃ nyp, Settles (fun n => cost h n bus ank) (some nyp) ∧ Delta h.mug ank bus nyp.q ∧
      (Covers h.mug ank bus nyp.q ↔ Narrow h.mug ank bus) := by
  obtain ⟨l, hset, hd, hcov⟩ := dist_spec ha hb [] []
  have hlist : (noted [] [] l).reverse = l := by simp [noted, placed]
  refine ⟨⟨(ank.p, bus.p), (noted [] [] l).reverse⟩, ?_, ?_⟩
  · exact hset.bind (m := Option) (.const _)
  · simp only [hlist]
    exact ⟨hd, hcov⟩

/-- What `durn` makes of a patch, whatever its hashes say. -/
theorem durn_eq (ha : Tidy h ank) (hb : Tidy h bus) {nyp : Soba} (hp : Patch h.mug ank bus nyp.q) :
    ∃ z, Zu.durn h nyp (.new ank) = some z ∧ (z.ank = bus ↔ Covers h.mug ank bus nyp.q) :=
  dune_eq ha hb hp nyp.q []

/-- The patch from `ank` to `bus` gives `bus`, and its inverse gives `ank` back. -/
def ThereAndBack (h : Hash) (ank bus : Ankh) : Prop :=
  ∃ nyp, Settles (fun n => cost h n bus ank) (some nyp) ∧
    (∃ z, Zu.durn h nyp (.new ank) = some z ∧ z.ank = bus) ∧
    ∃ l z, cures nyp.q = some l ∧ Zu.durn h ⟨(bus.p, ank.p), l.reverse⟩ (.new bus) = some z ∧
      z.ank = ank

/-- The patch of two trees takes the one to the other, and its inverse back, exactly if no node of
a directory that is removed has two folders. -/
theorem cost_there_and_back (ha : Tidy h ank) (hb : Tidy h bus) :
    ThereAndBack h ank bus ↔ Narrow h.mug ank bus := by
  obtain ⟨nyp, hset, hd, hcov⟩ := cost_delta ha hb
  obtain ⟨z, hz, hbus⟩ := durn_eq ha hb hd.patch
  obtain ⟨l, hl, hback, hnames⟩ := hd.undo
  have hundo : Patch h.mug bus ank (⟨(bus.p, ank.p), l.reverse⟩ : Soba).q := hback
  obtain ⟨y, hy, hank⟩ := durn_eq hb ha hundo
  -- both ways ask for a change of each file that differs
  have hsame : Covers h.mug bus ank l.reverse ↔ Covers h.mug ank bus nyp.q := by
    refine forall_congr' fun pax => ?_
    rw [hnames, ne_comm]
  rw [← hcov]
  constructor
  · rintro ⟨nyp', hset', ⟨z', hz', he⟩, -⟩
    obtain rfl := Option.some.inj (hset'.unique hset)
    obtain rfl := Option.some.inj (hz'.symm.trans hz)
    exact hbus.mp he
  · intro hc
    exact ⟨nyp, hset, ⟨z, hz, hbus.mpr hc⟩, l, y, hl, hy, hank.mpr (hsame.mpr hc)⟩

/-- A node with one more folder. -/
def Ankh.with (h : Hash) (a : Ankh) (i : Nat) (c : Ankh) : Ankh :=
  .mk (dash h (.mk 0 a.q (Dir.put h.mug a.r i c))) a.q (Dir.put h.mug a.r i c)

theorem get_with {a c : Ankh} (ha : Tidy h a) (i j : Nat) :
    Dir.get h.mug (a.with h i c).r j = if j = i then some c else Dir.get h.mug a.r j :=
  Dir.get_put ha.good i j c

theorem Tidy.with {a c : Ankh} (ha : Tidy h a) (hc : Tidy h c) (hne : c ≠ .bare) (i : Nat) :
    Tidy h (a.with h i c) := by
  refine tidy_iff.mpr ⟨rfl, (tidy_iff.mp ha).2.1, Dir.good_put ha.good i c, fun j d hd => ?_⟩
  rw [get_with ha] at hd
  split at hd
  · obtain rfl := Option.some.inj hd
    exact ⟨hc, hne⟩
  · exact ha.folder hd

/-- The empty text as a node. -/
def blank (h : Hash) : Ankh := .mk (h.sham (.atom 0)) (some (h.sham (.atom 0), .atom 0)) .nil

theorem tidy_blank : Tidy h (blank h) := by
  refine tidy_iff.mpr ⟨by simp [blank, dash, dashIn], ?_, ⟨trivial, trivial⟩, fun i c hc => by cases hc⟩
  rintro x hx
  obtain rfl := Option.some.inj hx
  exact ⟨rfl, [], lore_zero, rfl⟩

theorem cost_there_and_back_one :
    ThereAndBack ⟨mug, fun a _ => a, fun _ => 1⟩
      (Ankh.bare.with ⟨mug, fun a _ => a, fun _ => 1⟩ 97 (blank ⟨mug, fun a _ => a, fun _ => 1⟩))
      .bare := by
  have hne : blank ⟨mug, fun a _ => a, fun _ => 1⟩ ≠ .bare := by simp [blank, Ankh.bare]
  refine (cost_there_and_back (tidy_bare.with tidy_blank hne 97) tidy_bare).mpr ?_
  intro pax c hc hnone
  rcases pax with _ | ⟨i, _ | ⟨j, t⟩⟩
  · cases hnone
  · rw [Ankh.at, get_with tidy_bare] at hc
    by_cases hi : i = 97
    · rw [if_pos hi] at hc
      obtain rfl := Option.some.inj hc
      simp [blank, Treap.tap]
    · rw [if_neg hi] at hc
      cases hc
  · rw [Ankh.at, get_with tidy_bare] at hc
    by_cases hi : i = 97
    · rw [if_pos hi] at hc
      cases hc
    · rw [if_neg hi] at hc
      cases hc

/-- Whatever the hashes are, the patch that removes a directory with two files in it leaves one of
them. -/
theorem cost_leaves_file : ¬ ∃ h : Hash, ∀ ank bus, Tidy h ank → Tidy h bus → ThereAndBack h ank bus := by
  rintro ⟨h, hall⟩
  have hblank : blank h ≠ .bare := by simp [blank, Ankh.bare]
  have hone := (tidy_bare (h := h)).with tidy_blank hblank 97
  have htwo := hone.with tidy_blank hblank 98
  have hne : (Ankh.bare.with h 97 (blank h)).with h 98 (blank h) ≠ .bare := by
    intro he
    have := get_with (c := blank h) hone 98 98
    rw [he, if_pos rfl] at this
    cases this
  have hank := (tidy_bare (h := h)).with htwo hne 99
  obtain ⟨nyp, hset, hd, hcov⟩ := cost_delta hank tidy_bare
  obtain ⟨z, hz, hbus⟩ := durn_eq hank tidy_bare hd.patch
  obtain ⟨nyp', hset', ⟨z', hz', he⟩, -⟩ := hall _ _ hank tidy_bare
  obtain rfl := Option.some.inj (hset'.unique hset)
  obtain rfl := Option.some.inj (hz'.symm.trans hz)
  -- the directory would have one name only
  have hlen := hcov.mp (hbus.mp he) [99] _ (by rw [Ankh.at, get_with tidy_bare, if_pos rfl]; rfl) rfl
  have ha : (97, blank h) ∈ Dir.tap ((Ankh.bare.with h 97 (blank h)).with h 98 (blank h)).r [] := by
    rw [Dir.mem_tap_iff htwo.good, get_with hone, if_neg (by simp), get_with tidy_bare, if_pos rfl]
  have hb : (98, blank h) ∈ Dir.tap ((Ankh.bare.with h 97 (blank h)).with h 98 (blank h)).r [] := by
    rw [Dir.mem_tap_iff htwo.good, get_with hone, if_pos rfl]
  obtain ⟨x, hx⟩ | hnil := (Nat.le_one_iff_eq_zero_or_eq_one.mp hlen).symm.imp List.length_eq_one_iff.mp
    List.length_eq_zero_iff.mp
  · rw [hx, List.mem_singleton] at ha hb
    exact absurd (congrArg Prod.fst (ha.trans hb.symm)) (by simp)
  · rw [hnil] at ha
    cases ha

end cost

end Vere.Clay
