import Vere.Clay.Gack
import Vere.Lib.Each

/-!
# Vere.Clay.Commit

What commits make of a store, without any assumption on the names of contents.

A blob is stored under its name, as a change of blobs that are there already (`Rooted`), and a new
version descends from the one before (`Desked`). Nothing that a version reaches is ever changed
(`Grown`), provided that no two commits share a name.
-/

namespace Vere.Clay

open Vere.Lib Vere.Hoon

/-! ### Blobs on blobs -/

section blobs

variable {h : Hash} {lat lut : Lat} {b : Blob} {k : Nat}

/-- What the blob is a change of is there. -/
def Based (lat : Lat) (b : Blob) : Prop := ∀ u, b.base = some u → ∃ c, lat.lookup u = some c

/-- Every blob is under its name, and its chain of changes ends. -/
structure Rooted (lat : Lat) : Prop where
  tagged : ∀ k c, lat.lookup k = some c → zaax c = k
  grounded : ∀ k c, lat.lookup k = some c → Grounded lat k

theorem Based.mono (hg : Grows lat lut) (hb : Based lat b) : Based lut b := by
  intro u hu
  obtain ⟨c, hc⟩ := hb u hu
  exact ⟨c, hg u c hc⟩

theorem Grounded.mono (hg : Grows lat lut) (hk : Grounded lat k) : Grounded lut k := by
  induction hk with
  | mk hb _ ih => exact .mk (hg _ _ hb) ih

theorem Rooted.based (hr : Rooted lat) (hb : lat.lookup k = some b) : Based lat b := by
  cases hr.grounded k b hb with
  | mk hb' hbase =>
    obtain rfl := Option.some.inj (hb.symm.trans hb')
    exact fun u hu => (hbase u hu).lookup

/-- A blob is stored. -/
theorem Rooted.insert (hr : Rooted lat) (hb : Based lat b) (hk : lat.lookup (zaax b) = none) :
    Rooted (lat.insert (zaax b) b) := by
  have hg := grows_insert hk b
  have hnew : Grounded (lat.insert (zaax b) b) (zaax b) := by
    refine .mk (Finmap.lookup_insert _) fun u hu => ?_
    obtain ⟨c, hc⟩ := hb u hu
    exact (hr.grounded u c hc).mono hg
  refine ⟨fun k c hc => ?_, fun k c hc => ?_⟩
  · by_cases hkb : k = zaax b
    · subst hkb
      rw [Finmap.lookup_insert] at hc
      exact congrArg zaax (Option.some.inj hc).symm
    · rw [Finmap.lookup_insert_of_ne _ hkb] at hc
      exact hr.tagged k c hc
  · by_cases hkb : k = zaax b
    · rwa [hkb]
    · rw [Finmap.lookup_insert_of_ne _ hkb] at hc
      exact (hr.grounded k c hc).mono hg

theorem zeol_based {n : Nat} {d : Udon} (hz : zeol h lat n k d = some b) : Based lat b := by
  simp only [zeol, Option.bind_eq_bind, Option.bind_eq_some_iff] at hz
  obtain ⟨v, hv, hb⟩ := hz
  obtain rfl := Option.some.inj hb
  intro u hu
  obtain rfl := Option.some.inj hu
  cases yields_of_zaru hv with
  | delta _ hc _ _ => exact ⟨_, hc⟩

/-- A map all of whose blobs can be stored. -/
structure Fresh (h : Hash) (lat : Lat) (bar : Map Blob) : Prop where
  sorted : Treap.Ordered (gor h.mug) bar
  based : ∀ x b, get h.mug bar x = some b → Based lat b

variable {bar lag : Map Blob}

theorem Fresh.put (hf : Fresh h lat bar) (x : Noun) (hb : Based lat b) :
    Fresh h lat (put h.mug bar x b) := by
  refine ⟨ordered_put hf.sorted _ _, fun y c hc => ?_⟩
  rw [get_put hf.sorted] at hc
  split at hc
  · obtain rfl := Option.some.inj hc
    exact hb
  · exact hf.based y c hc

theorem Fresh.del (hf : Fresh h lat bar) (x : Noun) : Fresh h lat (del h.mug bar x) := by
  refine ⟨ordered_del hf.sorted _, fun y c hc => ?_⟩
  rw [get_del hf.sorted] at hc
  split at hc
  · cases hc
  · exact hf.based y c hc

/-- One change. -/
theorem azalOne_fresh {n : Nat} {hat : Map Nat} {i : Path × Miso} (hf : Fresh h lat bar)
    (ho : azalOne h n lat hat bar i = some lag) : Fresh h lat lag := by
  obtain ⟨pat, mis⟩ := i
  cases mis with
  | ins p =>
    simp only [azalOne] at ho
    split at ho
    · cases ho
    split at ho
    · cases ho
    obtain rfl := Option.some.inj ho
    exact hf.put _ (by intro u hu; cases hu)
  | del p =>
    simp only [azalOne] at ho
    split at ho
    · obtain rfl := Option.some.inj ho
      exact hf.del _
    · cases ho
  | «mut» p =>
    simp only [azalOne, Option.bind_eq_bind] at ho
    split at ho
    · simp only [Option.bind_eq_some_iff] at ho
      obtain ⟨har, -, b, hb, ho⟩ := ho
      obtain rfl := Option.some.inj ho
      exact hf.put _ (zeol_based hb)
    · simp only [Option.bind_eq_some_iff] at ho
      obtain ⟨b, hb, ho⟩ := ho
      obtain rfl := Option.some.inj ho
      exact hf.put _ (zeol_based hb)

/-- The blobs of a commit are changes of stored ones. -/
theorem azal_fresh {n : Nat} {l : List (Path × Miso)} {z : Desk} (hr : Rooted z.lat)
    (ha : azal h n l z = some lag) : Fresh h z.lat lag := by
  simp only [azal, Option.bind_eq_bind, Option.bind_eq_some_iff] at ha
  obtain ⟨hat, -, bar, hbar, hlag⟩ := ha
  have hnil : Fresh h z.lat .nil := ⟨trivial, by intro x b hx; cases hx⟩
  have hmid := foldlM_keeps (fun _ _ _ _ => azalOne_fresh) hnil hbar
  refine foldlM_keeps (I := Fresh h z.lat) (fun bat i bat' _ hf hone => ?_) hmid hlag
  simp only [azalKeep, zaal, Option.bind_eq_bind] at hone
  split at hone
  · obtain rfl := Option.some.inj hone
    exact hf
  · simp only [Option.bind_eq_some_iff] at hone
    obtain ⟨b, hb, hone⟩ := hone
    obtain rfl := Option.some.inj hone
    exact hf.put _ (hr.based hb)

/-- The blobs are stored, and every file has one. -/
theorem aqelLoop_rooted {l : List (Noun × Blob)} {gar : Map Nat} (hl : ∀ i ∈ l, Based lat i.2)
    (hr : Rooted lat) (ho : Treap.Ordered (gor h.mug) gar)
    (hgar : ∀ x k, get h.mug gar x = some k → ∃ c, lat.lookup k = some c) :
    Grows lat (aqelLoop h l (lat, gar)).1 ∧ Rooted (aqelLoop h l (lat, gar)).1 ∧
      Treap.Ordered (gor h.mug) (aqelLoop h l (lat, gar)).2 ∧
      ∀ x k, get h.mug (aqelLoop h l (lat, gar)).2 x = some k →
        ∃ c, (aqelLoop h l (lat, gar)).1.lookup k = some c := by
  induction l generalizing lat gar with
  | nil => exact ⟨.refl lat, hr, ho, hgar⟩
  | cons i l ih =>
    obtain ⟨pat, bar⟩ := i
    -- the store after this blob
    obtain ⟨lut, hloop, hg, hr', c, hc⟩ : ∃ lut, aqelLoop h ((pat, bar) :: l) (lat, gar) =
        aqelLoop h l (lut, put h.mug gar pat (zaax bar)) ∧ Grows lat lut ∧ Rooted lut ∧
          ∃ c, lut.lookup (zaax bar) = some c := by
      rw [aqelLoop]
      cases hk : lat.lookup (zaax bar) with
      | some c => exact ⟨lat, rfl, .refl lat, hr, c, hk⟩
      | none =>
        refine ⟨_, rfl, grows_insert hk bar, hr.insert (hl _ List.mem_cons_self) hk, bar, ?_⟩
        exact Finmap.lookup_insert _
    rw [hloop]
    obtain ⟨hg', hres⟩ := ih (fun j hj => (hl j (List.mem_cons_of_mem _ hj)).mono hg) hr'
      (ordered_put ho pat (zaax bar)) fun x k hx => by
        rw [get_put ho] at hx
        split at hx
        · obtain rfl := Option.some.inj hx
          exact ⟨c, hc⟩
        · obtain ⟨d, hd⟩ := hgar x k hx
          exact ⟨d, hg k d hd⟩
    exact ⟨hg.trans hg', hres⟩

/-- What an edit stores, and what the next commit names. -/
theorem aqel_rooted {z : Desk} (hr : Rooted z.lat) (hf : Fresh h z.lat lag) :
    Grows z.lat (aqel h lag z.lat).1 ∧ Rooted (aqel h lag z.lat).1 ∧
      ∀ i ∈ Treap.tap (aqel h lag z.lat).2 [], ∃ c, (aqel h lag z.lat).1.lookup i.2 = some c := by
  have ho := gor_searchOrder h.mug
  obtain ⟨hg, hr', hord, hnamed⟩ := @aqelLoop_rooted h _ (Treap.tap lag []) .nil
    (fun i hi => hf.based i.1 i.2 ((Treap.mem_tap_iff ho hf.sorted i).mp hi)) hr trivial
    fun x k hx => nomatch hx
  exact ⟨hg, hr', fun i hi => hnamed i.1 i.2 ((Treap.mem_tap_iff ho hord i).mp hi)⟩

end blobs

/-! ### Versions on versions -/

/-- A desk all of whose versions are there, each on top of the one before. -/
structure Desked (z : Desk) : Prop where
  graph : Graph z.hut
  rooted : Rooted z.lat
  lobes : ∀ t y, z.hut.lookup t = some y → ∀ k, Lobe y k → ∃ c, z.lat.lookup k = some c
  versions : ∀ p t, z.hit.lookup p = some t → ∃ y, z.hut.lookup t = some y
  first : z.hit.lookup 0 = none
  full : ∀ p, p ≠ 0 → p ≤ z.let → ∃ t, z.hit.lookup p = some t
  lined : ∀ p t u, p < z.let → z.hit.lookup p = some t → z.hit.lookup (p + 1) = some u →
    Up (Par z.hut) u t

/-- A later state: nothing that there was is changed. -/
structure Grown (z z' : Desk) : Prop where
  top : z.let ≤ z'.let
  ids : ∀ p, p ≤ z.let → z'.hit.lookup p = z.hit.lookup p
  commits : ∀ t y, z.hut.lookup t = some y → z'.hut.lookup t = some y
  blobs : Grows z.lat z'.lat

section desks

variable {h : Hash} {z z' : Desk}

theorem Desked.stored (hz : Desked z) : Stored z := by
  refine ⟨hz.graph, fun t y hy k hk => ?_, hz.versions⟩
  obtain ⟨c, hc⟩ := hz.lobes t y hy k hk
  exact hz.rooted.grounded k c hc

/-- A version reaches those before it. -/
theorem Desked.up (hz : Desked z) {p q t u : Nat} (hpq : p ≤ q) (hq : q ≤ z.let)
    (hp : z.hit.lookup p = some t) (hu : z.hit.lookup q = some u) : Up (Par z.hut) u t := by
  induction q, hpq using Nat.le_induction generalizing u with
  | base =>
    obtain rfl := Option.some.inj (hp.symm.trans hu)
    exact Up.refl t
  | succ q hpq ih =>
    by_cases hq0 : q = 0
    · subst hq0
      obtain rfl := Nat.le_zero.mp hpq
      exact hz.lined 0 t u hq hp hu
    · obtain ⟨s, hs⟩ := hz.full q hq0 (Nat.le_of_succ_le hq)
      exact (hz.lined q s u hq hs hu).trans (ih (Nat.le_of_succ_le hq) hs)

theorem Grown.refl (z : Desk) : Grown z z :=
  ⟨le_rfl, fun _ _ => rfl, fun _ _ hy => hy, .refl z.lat⟩

theorem Grown.trans {z'' : Desk} (h₁ : Grown z z') (h₂ : Grown z' z'') : Grown z z'' := by
  refine ⟨h₁.top.trans h₂.top, fun p hp => ?_, fun t y hy => h₂.commits t y (h₁.commits t y hy),
    h₁.blobs.trans h₂.blobs⟩
  rw [h₂.ids p (hp.trans h₁.top), h₁.ids p hp]

/-- In a later state a commit reaches what it reached. -/
theorem Grown.up (hg : Grown z z') (hz : Graph z.hut) {t u : Nat} (ht : ∃ y, z.hut.lookup t = some y)
    (hu : Up (Par z'.hut) t u) : Up (Par z.hut) t u := by
  induction hu with
  | refl => exact Up.refl t
  | @tail s v _ hpar ih =>
    obtain ⟨y, hy, hv⟩ := hpar
    obtain ⟨x, hx⟩ := hz.up ih ht
    obtain rfl := Option.some.inj (hy.symm.trans (hg.commits s x hx))
    exact ih.trans (Up.parent ⟨y, hx, hv⟩)

theorem Par.mono {hut hut' : Finmap fun _ : Nat => Yaki (Map Nat)} {t u : Nat}
    (hg : ∀ t y, hut.lookup t = some y → hut'.lookup t = some y) (hu : Up (Par hut) t u) :
    Up (Par hut') t u := by
  induction hu with
  | refl => exact Up.refl t
  | @tail s v _ hpar ih =>
    obtain ⟨y, hy, hv⟩ := hpar
    exact ih.trans (Up.parent ⟨y, hg s y hy, hv⟩)

/-- And a blob needs what it needed. -/
theorem Grows.up {lat lut : Lat} (hg : Grows lat lut) {k x : Nat} (hk : Grounded lat k)
    (hx : Up (Base lut) k x) : Up (Base lat) k x := by
  induction hx with
  | refl => exact Up.refl k
  | @tail s v _ hbase ih =>
    obtain ⟨b, hb, hv⟩ := hbase
    obtain ⟨c, hc⟩ := (hk.up ih).lookup
    obtain rfl := Option.some.inj (hb.symm.trans (hg s c hc))
    exact ih.trans (Up.parent ⟨b, hc, hv⟩)

/-- More blobs keep a desk. -/
theorem Desked.store (hz : Desked z) {lat : Lat} (hg : Grows z.lat lat) (hr : Rooted lat) :
    Desked { z with lat := lat } := by
  refine ⟨hz.graph, hr, fun t y hy k hk => ?_, hz.versions, hz.first, hz.full, hz.lined⟩
  obtain ⟨c, hc⟩ := hz.lobes t y hy k hk
  exact ⟨c, hg k c hc⟩

/-- A commit on top of others closes no cycle. -/
theorem Graph.insert {hut : Finmap fun _ : Nat => Yaki (Map Nat)} (hz : Graph hut) {yak : Yaki (Map Nat)}
    (hpar : ∀ u ∈ yak.p, ∃ y, hut.lookup u = some y)
    (hnew : ∀ t y, hut.lookup t = some y → (hut.insert yak.r yak).lookup t = some y) :
    Graph (hut.insert yak.r yak) := by
  have hlookup : ∀ t y, (hut.insert yak.r yak).lookup t = some y →
      hut.lookup t = some y ∨ t = yak.r ∧ y = yak := by
    intro t y hy
    by_cases ht : t = yak.r
    · subst ht
      rw [Finmap.lookup_insert] at hy
      exact .inr ⟨rfl, (Option.some.inj hy).symm⟩
    · rw [Finmap.lookup_insert_of_ne _ ht] at hy
      exact .inl hy
  -- first the commits that were there
  have hold : ∀ t, (∃ y, hut.lookup t = some y) → Acc (Par (hut.insert yak.r yak)) t := by
    intro t
    induction t using hz.acyclic.induction with
    | _ t ih =>
      rintro ⟨y, hy⟩
      refine .intro t fun u hu => ?_
      obtain ⟨y', hy', hu⟩ := hu
      obtain rfl := Option.some.inj ((hnew t y hy).symm.trans hy')
      exact ih u ⟨y, hy, hu⟩ (hz.closed t y hy u hu)
  refine ⟨fun t y hy => ?_, fun t y hy u hu => ?_, ⟨fun t => .intro t fun u hu => ?_⟩⟩
  · rcases hlookup t y hy with hy | ⟨rfl, rfl⟩
    · exact hz.named t y hy
    · rfl
  · obtain ⟨x, hx⟩ : ∃ x, hut.lookup u = some x := by
      rcases hlookup t y hy with hy | ⟨rfl, rfl⟩
      · exact hz.closed t y hy u hu
      · exact hpar u hu
    exact ⟨x, hnew u x hx⟩
  · obtain ⟨y, hy, hu⟩ := hu
    rcases hlookup t y hy with hy | ⟨rfl, rfl⟩
    · exact hold u (hz.closed t y hy u hu)
    · exact hold u (hpar u hu)

section next

variable {yak : Yaki (Map Nat)} {ank : Ankh}

theorem grown_next (hnew : ∀ t y, z.hut.lookup t = some y → (axelNext yak ank z).hut.lookup t = some y) :
    Grown z (axelNext yak ank z) := by
  refine ⟨Nat.le_succ _, fun p hp => ?_, hnew, .refl _⟩
  exact Finmap.lookup_insert_of_ne _ (Nat.ne_of_lt (Nat.lt_succ_of_le hp))

/-- The next version. -/
theorem Desked.next (hz : Desked z) (hpar : ∀ u, u ∈ yak.p ↔ z.hit.lookup z.let = some u)
    (hlobes : ∀ k, Lobe yak k → ∃ c, z.lat.lookup k = some c)
    (hnew : ∀ t y, z.hut.lookup t = some y → (axelNext yak ank z).hut.lookup t = some y) :
    Desked (axelNext yak ank z) := by
  have htop : (axelNext yak ank z).hit.lookup (z.let + 1) = some yak.r := Finmap.lookup_insert _
  have hself : (axelNext yak ank z).hut.lookup yak.r = some yak := Finmap.lookup_insert _
  have hids := (grown_next hnew).ids
  have hparent : ∀ u ∈ yak.p, ∃ y, z.hut.lookup u = some y := fun u hu =>
    hz.versions z.let u ((hpar u).mp hu)
  refine ⟨hz.graph.insert hparent hnew, hz.rooted, fun t y hy k hk => ?_, fun p t hp => ?_, ?_,
    fun p hp0 hp => ?_, fun p t u hp ht hu => ?_⟩
  · by_cases ht : t = yak.r
    · subst ht
      obtain rfl := Option.some.inj (hy.symm.trans hself)
      exact hlobes k hk
    · refine hz.lobes t y ?_ k hk
      rw [← hy]
      exact (Finmap.lookup_insert_of_ne _ ht).symm
  · by_cases hp' : p = z.let + 1
    · subst hp'
      obtain rfl := Option.some.inj (htop.symm.trans hp)
      exact ⟨yak, hself⟩
    · have hold : z.hit.lookup p = some t := by
        rw [← hp]
        exact (Finmap.lookup_insert_of_ne _ hp').symm
      obtain ⟨y, hy⟩ := hz.versions p t hold
      exact ⟨y, hnew t y hy⟩
  · rw [hids 0 (Nat.zero_le _), hz.first]
  · rcases Nat.le_succ_iff.mp hp with hp | rfl
    · rw [hids p hp]
      exact hz.full p hp0 hp
    · exact ⟨yak.r, htop⟩
  · have hp : p ≤ z.let := Nat.le_of_lt_succ hp
    rw [hids p hp] at ht
    rcases hp.lt_or_eq with hlt | rfl
    · rw [hids (p + 1) hlt] at hu
      exact Par.mono hnew (hz.lined p t u hlt ht hu)
    · -- the new version is a child of the last one
      obtain rfl := Option.some.inj (htop.symm.trans hu)
      exact Up.parent ⟨yak, hself, (hpar t).mpr ht⟩

end next

/-- The parent of the next commit. -/
theorem Desked.mem_par (hz : Desked z) {par : Option Nat} (hp : z.par = some par) (u : Nat) :
    u ∈ par.toList ↔ z.hit.lookup z.let = some u := by
  rw [Desk.par] at hp
  split at hp
  · next h0 =>
    obtain rfl := Option.some.inj hp
    rw [h0, hz.first]
    simp
  · obtain ⟨y, hy, rfl⟩ := Option.map_eq_some_iff.mp hp
    simp only [Desk.yak, Option.bind_eq_bind, Option.bind_eq_some_iff] at hy
    obtain ⟨t, ht, hy⟩ := hy
    simp [ht, hz.graph.named t y hy, eq_comm]

/-- A commit keeps a desk, and changes nothing that there was. -/
theorem axel_desked (hz : Desked z) {n wen : Nat} {lem : Nori} (he : axel h n wen lem z = some z')
    (hnew : ∀ t y, z.hut.lookup t = some y → z'.hut.lookup t = some y) : Desked z' ∧ Grown z z' := by
  cases lem with
  | label p =>
    simp only [axel] at he
    split at he
    · cases he
    · obtain rfl := Option.some.inj he
      exact ⟨⟨hz.graph, hz.rooted, hz.lobes, hz.versions, hz.first, hz.full, hz.lined⟩,
        ⟨le_rfl, fun _ _ => rfl, fun _ _ hy => hy, .refl _⟩⟩
  | delta q =>
    obtain ⟨par, lag, hpar, hlag, hcases⟩ := axel_moves he
    obtain ⟨hg, hr, hlobes⟩ := aqel_rooted hz.rooted (azal_fresh hz.rooted hlag)
    have hstore := hz.store hg hr
    have hgrown : Grown z { z with lat := (aqel h lag z.lat).1 } :=
      ⟨le_rfl, fun _ _ => rfl, fun _ _ hy => hy, hg⟩
    rcases hcases with rfl | ⟨ank, -, rfl⟩
    · exact ⟨hstore, hgrown⟩
    · refine ⟨hstore.next (hz.mem_par hpar) (fun k hk => ?_) hnew, hgrown.trans (grown_next hnew)⟩
      obtain ⟨i, hi, rfl⟩ := hk
      exact hlobes i hi

end desks

end Vere.Clay
