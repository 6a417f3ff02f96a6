import Vere.Mem.Alloc
import Vere.Mem.Make

/-!
# Vere.Mem.Store

The nouns of a rail over a whole run: any sequence of references gained, references lost and
nouns made by the C code, which loses, or gives to a cell, only references it holds.

`Tidy` is what holds in every state of every run (`store_sound`): the nouns the C code holds are
what it takes them to be, the use counts count, and what is neither held nor part of what is held
has been freed. A count that is stuck stays so, in whatever comes after (`held_balanced`). None of
the calls stops the program while there is room (`store_returns`).
-/

namespace Vere.Mem

open Vere.Lib

/-! ### Parts of nouns -/

/-- The way down from a noun by `u2_h` and `u2_t`. -/
def part (m : Loom) : List Bool → Nat → Option Nat
  | [], d => some d
  | right :: path, d =>
    if flyIsCat d = false ∧ dogIsPom d then
      part m path (m (dogA d + if right then 2 else 1))
    else none

/-- The way down from a noun. -/
def under : List Bool → Noun → Option Noun
  | [], n => some n
  | right :: path, .cell h t => under path (if right then t else h)
  | _ :: _, .atom _ => none

/-- What a noun refers to. -/
def parts (m : Loom) (d : Nat) : List Nat := if flyIsCat d then [] else kids m d

section Parts

variable {m : Loom} {d e : Nat} {n k : Noun}

/-- A word is one noun only. -/
theorem Reads.unique (h : Reads m n d) (h' : Reads m k d) : n = k := by
  induction n generalizing d k with
  | atom x =>
      cases k with
      | atom y =>
          rcases h with ⟨hc, rfl⟩ | ⟨hc, hp, rfl⟩ <;> rcases h' with ⟨hc', rfl⟩ | ⟨hc', hp', rfl⟩
          · rfl
          · simp [hc] at hc'
          · simp [hc] at hc'
          · rfl
      | cell a b =>
          obtain ⟨hc', hp', -⟩ := h'
          rcases h with ⟨hc, -⟩ | ⟨-, hp, -⟩
          · simp [hc] at hc'
          · simp [hp] at hp'
  | cell a b iha ihb =>
      obtain ⟨hc, hp, ha, hb⟩ := h
      cases k with
      | atom y =>
          rcases h' with ⟨hc', -⟩ | ⟨-, hp', -⟩
          · simp [hc] at hc'
          · simp [hp] at hp'
      | cell a' b' =>
          obtain ⟨-, -, ha', hb'⟩ := h'
          rw [iha ha ha', ihb hb hb']

/-- What is found on the way down in a loom is what the noun has there. -/
theorem part_reads (h : Reads m n d) {path : List Bool} (hpart : part m path d = some e) :
    ∃ k, under path n = some k ∧ Reads m k e := by
  induction path generalizing d n with
  | nil =>
      cases hpart
      exact ⟨n, rfl, h⟩
  | cons right path ih =>
      rw [part] at hpart
      obtain ⟨⟨hcat, hpom⟩, hpart⟩ := Option.ite_none_right_eq_some.mp hpart
      cases n with
      | atom x =>
          rcases h with ⟨hc, -⟩ | ⟨-, hp, -⟩
          · simp [hcat] at hc
          · simp [hpom] at hp
      | cell a b =>
          obtain ⟨-, -, ha, hb⟩ := h
          cases right
          · exact ih ha hpart
          · exact ih hb hpart

/-- The way down stays among what the noun refers to. -/
theorem part_kid {S : Nat → Prop} (hkid : ∀ d, S d → ∀ k ∈ kids m d, flyIsCat k = true ∨ S k)
    (hd : flyIsCat d = true ∨ S d) {path : List Bool} (hpart : part m path d = some e) :
    flyIsCat e = true ∨ S e := by
  induction path generalizing d with
  | nil =>
      cases hpart
      exact hd
  | cons right path ih =>
      rw [part] at hpart
      obtain ⟨⟨hcat, hpom⟩, hpart⟩ := Option.ite_none_right_eq_some.mp hpart
      refine ih (hkid d (hd.resolve_left (by simp [hcat])) _ ?_) hpart
      rw [kids, if_pos hpom]
      cases right <;> simp

end Parts

/-! ### Runs -/

/-- A rail, and the references the C code holds: each with the noun it takes it to be. -/
structure Store where
  rail : Rail
  held : List (Nat × Noun)

namespace Store

/-- What the C code does with nouns. -/
inductive Op
  | gain (p : Nat × Noun) (path : List Bool)
  | lose (p : Nat × Noun)
  | cell (p q : Nat × Noun)
  | words (ws : List Nat)
  deriving Repr, DecidableEq

/-- One call. A call that does not return has no state after it. -/
def step : Op → Store → Option Store
  | .gain p path, s =>
    match part s.rail.loom path p.1, under path p.2 with
    | some som, some n =>
      match rlGain 1 s.rail som with
      | .ok r => some ⟨r, (som, n) :: s.held⟩
      | .error _ => none
    | _, _ => none
  | .lose p, s =>
    match rlLose (s.rail.hat + 1) s.rail p.1 with
    | .ok r => some ⟨r, s.held.erase p⟩
    | .error _ => none
  | .cell p q, s =>
    match rlCell (s.rail.hat + 1) s.rail p.1 q.1 with
    | .ok (r, nov) => some ⟨r, (nov, .cell p.2 q.2) :: (s.held.erase p).erase q⟩
    | .error _ => none
  | .words ws, s =>
    match rlWords s.rail ws with
    | .ok (r, nov) =>
      some ⟨r, if nov = noNoun then s.held else (nov, .atom (value ws)) :: s.held⟩
    | .error _ => none

/-- The C code goes down a noun that it holds, and uses up a reference that it holds. -/
def Legal (s : Store) : Op → Prop
  | .gain p path => p ∈ s.held ∧ (part s.rail.loom path p.1).isSome
  | .lose p => p ∈ s.held
  | .cell p q => p ∈ s.held ∧ q ∈ s.held.erase p
  | .words _ => True

instance (s : Store) : (op : Op) → Decidable (Legal s op)
  | .gain p path =>
      inferInstanceAs (Decidable (p ∈ s.held ∧ (part s.rail.loom path p.1).isSome = true))
  | .lose p => inferInstanceAs (Decidable (p ∈ s.held))
  | .cell p q => inferInstanceAs (Decidable (p ∈ s.held ∧ q ∈ s.held.erase p))
  | .words _ => inferInstanceAs (Decidable True)

/-- There is room for what the call makes. -/
def Room (s : Store) : Op → Prop
  | .cell _ _ => 6 + rayB s.rail.hat + rayB s.rail.cap < halfSize
  | .words ws => ws.length + 5 + rayB s.rail.hat + rayB s.rail.cap < halfSize
  | _ => True

/-- What the C code may rely on, with the dogs `live`. -/
structure Tidy (s : Store) (live : Finset Nat) : Prop where
  /-- a word that is held is the noun it is taken to be, and no other one -/
  reads : ∀ p ∈ s.held, Reads s.rail.loom p.2 p.1 ∧ ∀ n, Reads s.rail.loom n p.1 → n = p.2
  /-- what is reached from what is held has not been freed -/
  safe : ∀ d, Rooted (parts s.rail.loom) (· ∈ s.held.map Prod.fst) d →
    flyIsCat d = true ∨ d ∈ live
  /-- a use count is the number of references, unless it is stuck -/
  use : ∀ d ∈ live, s.rail.loom (boxOf d + 1) = stuck ∨
    s.rail.loom (boxOf d + 1) = refs (parts s.rail.loom) live (s.held.map Prod.fst) d
  /-- what has not been freed is reached from what is held, or from what a count is stuck at -/
  needed : ∀ d ∈ live, Rooted (parts s.rail.loom)
    (fun k => k ∈ s.held.map Prod.fst ∨ k ∈ live ∧ s.rail.loom (boxOf k + 1) = stuck) d
  /-- the boxes in use, of those that fill the heap, are the boxes of `live` -/
  boxes : ∃ bs, Tiles (s.rail.rut + 32) bs s.rail.hat ∧
    (∀ d ∈ live, ∃ b ∈ bs, b.1 + 2 = dogA d ∧ extent s.rail.loom d + 3 ≤ b.2) ∧
    ∀ b ∈ bs, s.rail.loom (b.1 + 1) ≠ 0 ↔ ∃ d ∈ live, dogA d = b.1 + 2
  /-- where nothing is held and no count is stuck, the heap is empty -/
  empty : s.held = [] → (∀ d ∈ live, s.rail.loom (boxOf d + 1) ≠ stuck) →
    live = ∅ ∧ s.rail.hat = s.rail.rut + 32

/-! ### The invariant of a run -/

/-- The counts of a store, and what its words are. -/
structure Ok (s : Store) (B : Finset Nat) (fl : Nat → List Nat) (live : Finset Nat) : Prop where
  counted : Counted s.rail B fl live (s.held.map Prod.fst) ∅
  reads : ∀ p ∈ s.held, Reads s.rail.loom p.2 p.1

variable {s s' : Store} {r r' : Rail} {B B' : Finset Nat} {fl fl' : Nat → List Nat}
  {live live' : Finset Nat} {p q : Nat × Noun}

theorem ok_fresh (h : Fresh r) (hmem : r.mem = false) (hon : OnBeam r) :
    Ok ⟨r, []⟩ ∅ (fun _ => []) ∅ := by
  refine ⟨⟨h.rock, hmem, hon, h.heap, ?_, ?_, ?_, ?_, ?_, fun hb => absurd hb.1 ?_, ?_, ?_, ?_, ?_⟩,
    ?_⟩
  all_goals simp

/-- Losing a reference that is held. -/
theorem map_erase (hp : p ∈ s.held) :
    (s.held.map Prod.fst).Perm (p.1 :: (s.held.erase p).map Prod.fst) :=
  (List.perm_cons_erase hp).map Prod.fst

theorem Ok.keep (h : s.Ok B fl live) (hp : p ∈ s.held) : flyIsCat p.1 = true ∨ p.1 ∈ live :=
  h.counted.keep p.1 (List.mem_map_of_mem hp)

/-- What is left of the nouns after some are freed reads as it did. -/
theorem reads_left {held held' : List Nat} {raw raw' : Finset Nat}
    (h : Counted r B fl live held raw) (h' : Counted r' B' fl' live' held' raw')
    (hsub : live' ⊆ live) (hs : Spares r r' live' raw') {w : Nat}
    (hw : flyIsCat w = true ∨ w ∈ live') {n : Noun} (hn : Reads r.loom n w) :
    Reads r'.loom n w := by
  refine hn.fixed (fun d hd => ⟨h.room (hsub hd), hs.fixed hd⟩) (fun d hd k hk => ?_) hw
  rw [← (hs.fixed hd).kids (h.room (hsub hd))] at hk
  exact h'.kid hd k hk

/-- No more nouns live than there are words below the hat. -/
theorem Ok.card_le (h : s.Ok B fl live) : live.card ≤ s.rail.hat := by
  have hmaps : ∀ d ∈ live, boxOf d ∈ Finset.range s.rail.hat := by
    intro d hd
    have hhi := (h.counted.below (h.counted.box hd).1).2
    exact Finset.mem_range.mpr (by omega)
  have hcard := Finset.card_le_card_of_injOn boxOf hmaps fun d hd e he => h.counted.inj hd he
  rwa [Finset.card_range] at hcard

/-- Nouns with a count that is stuck are not freed, and the count stays. -/
def Sticks (m m' : Loom) (live live' : Finset Nat) : Prop :=
  ∀ d ∈ live, m (boxOf d + 1) = stuck → d ∈ live' ∧ m' (boxOf d + 1) = stuck

theorem Ok.gain (h : s.Ok B fl live) (hp : p ∈ s.held) {path : List Bool} {som : Nat}
    (hpart : part s.rail.loom path p.1 = some som) :
    ∃ n r', under path p.2 = some n ∧ rlGain 1 s.rail som = .ok r' ∧
      Ok ⟨r', (som, n) :: s.held⟩ B fl live ∧ Sticks s.rail.loom r'.loom live live := by
  obtain ⟨n, hn, hread⟩ := part_reads (h.reads p hp) hpart
  have hsom := part_kid (fun d hd => h.counted.kid hd) (h.keep hp) hpart
  obtain ⟨r', hrun, hcounted, hs⟩ := h.counted.gain hsom 0
  refine ⟨n, r', hn, hrun, ⟨hcounted, fun q hq => ?_⟩, fun d hd hst => ⟨hd, hs.sticks hd hst⟩⟩
  rcases List.mem_cons.mp hq with rfl | hq
  · exact h.counted.reads_spared hs hsom hread
  · exact h.counted.reads_spared hs (h.keep hq) (h.reads q hq)

theorem Ok.lose (h : s.Ok B fl live) (hp : p ∈ s.held) :
    ∃ r' B' fl' live', rlLose (s.rail.hat + 1) s.rail p.1 = .ok r' ∧
      Ok ⟨r', s.held.erase p⟩ B' fl' live' ∧ Sticks s.rail.loom r'.loom live live' := by
  have hcard := h.card_le
  obtain ⟨r', B', fl', live', hrun, hcounted, hsub, hst, hs⟩ :=
    loseTop_ok (s.rail.hat + 1) (h.counted.perm (map_erase hp)) (by omega)
  refine ⟨r', B', fl', live', ?_, ⟨hcounted, fun q hq => ?_⟩, fun d hd hstuck =>
    have hd' := hst d hd hstuck
    ⟨hd', hs.sticks hd' hstuck⟩⟩
  · rw [rlLose, if_neg (h.counted.ne_none (h.keep hp))]
    exact hrun
  · exact reads_left h.counted hcounted hsub hs (hcounted.keep q.1 (List.mem_map_of_mem hq))
      (h.reads q (List.mem_of_mem_erase hq))

theorem Ok.cell (h : s.Ok B fl live) (hp : p ∈ s.held) (hq : q ∈ s.held.erase p) {nov : Nat}
    (hrun : rlCell (s.rail.hat + 1) s.rail p.1 q.1 = .ok (r', nov)) :
    ∃ B' fl', Ok ⟨r', (nov, .cell p.2 q.2) :: (s.held.erase p).erase q⟩ B' fl'
      (insert nov live) ∧ Sticks s.rail.loom r'.loom live (insert nov live) := by
  have hq' := List.mem_of_mem_erase hq
  have hperm := (map_erase hp).trans (((List.perm_cons_erase hq).map Prod.fst).cons p.1)
  obtain ⟨⟨B', fl', hcounted⟩, hs, hcell⟩ := rlCell_ok (h.counted.perm hperm) hrun
  refine ⟨B', fl', ⟨hcounted, fun e he => ?_⟩, fun d hd hst =>
    ⟨Finset.mem_insert_of_mem hd, hs.sticks hd hst⟩⟩
  rcases List.mem_cons.mp he with rfl | he
  · exact hcell _ _ (h.reads p hp) (h.reads q hq')
  · have he := List.mem_of_mem_erase (List.mem_of_mem_erase he)
    exact h.counted.reads_spared hs (h.keep he) (h.reads e he)

theorem Ok.words (h : s.Ok B fl live) {ws : List Nat} {nov : Nat}
    (hrun : rlWords s.rail ws = .ok (r', nov)) :
    ∃ B' fl' live', Ok ⟨r', if nov = noNoun then s.held else (nov, .atom (value ws)) :: s.held⟩
      B' fl' live' ∧ Sticks s.rail.loom r'.loom live live' := by
  rcases rlWords_ok h.counted hrun with ⟨rfl, rfl⟩ | ⟨⟨B', fl', live', hcounted, hsub⟩, hs, hread⟩
  · rw [if_pos rfl]
    exact ⟨B, fl, live, h, fun _ hd hst => ⟨hd, hst⟩⟩
  · rw [if_neg (hcounted.ne_none (hcounted.keep nov List.mem_cons_self))]
    refine ⟨B', fl', live', ⟨hcounted, fun e he => ?_⟩, fun d hd hst =>
      ⟨hsub hd, hs.sticks hd hst⟩⟩
    rcases List.mem_cons.mp he with rfl | he
    · exact hread
    · exact h.counted.reads_spared hs (h.keep he) (h.reads e he)

/-- Every call keeps the invariant. -/
theorem Ok.step {op : Op} (h : s.Ok B fl live) (hlegal : Legal s op)
    (hstep : Store.step op s = some s') :
    ∃ B' fl' live', s'.Ok B' fl' live' ∧ Sticks s.rail.loom s'.rail.loom live live' := by
  cases op with
  | gain p path =>
      obtain ⟨hp, hsome⟩ := hlegal
      obtain ⟨som, hpart⟩ := Option.isSome_iff_exists.mp hsome
      obtain ⟨n, r', hn, hrun, h'⟩ := h.gain hp hpart
      simp only [Store.step, hpart, hn, hrun, Option.some.injEq] at hstep
      exact hstep ▸ ⟨B, fl, live, h'⟩
  | lose p =>
      obtain ⟨r', B', fl', live', hrun, h'⟩ := h.lose hlegal
      simp only [Store.step, hrun, Option.some.injEq] at hstep
      exact hstep ▸ ⟨B', fl', live', h'⟩
  | cell p q =>
      obtain ⟨hp, hq⟩ := hlegal
      cases hrun : rlCell (s.rail.hat + 1) s.rail p.1 q.1 with
      | error e => simp [Store.step, hrun] at hstep
      | ok y =>
          obtain ⟨B', fl', h'⟩ := h.cell hp hq hrun
          simp only [Store.step, hrun, Option.some.injEq] at hstep
          exact hstep ▸ ⟨B', fl', _, h'⟩
  | words ws =>
      cases hrun : rlWords s.rail ws with
      | error e => simp [Store.step, hrun] at hstep
      | ok y =>
          have h' := h.words hrun
          simp only [Store.step, hrun, Option.some.injEq] at hstep
          exact hstep ▸ h'

/-- So does every run, and what is stuck at its start is stuck to its end. -/
theorem Ok.run (h : s.Ok B fl live) (hs : Reachable s Store.step Legal s') :
    ∃ B' fl' live', s'.Ok B' fl' live' ∧ Sticks s.rail.loom s'.rail.loom live live' := by
  refine hs.invariant (P := fun s' => ∃ B' fl' live', s'.Ok B' fl' live' ∧
    Sticks s.rail.loom s'.rail.loom live live') ⟨B, fl, live, h, fun _ hd hst => ⟨hd, hst⟩⟩ ?_
  rintro t op t' ⟨B', fl', live', h', hst⟩ hlegal hstep
  obtain ⟨B'', fl'', live'', h'', hst'⟩ := h'.step hlegal hstep
  exact ⟨B'', fl'', live'', h'', fun d hd hstuck =>
    hst' d (hst d hd hstuck).1 (hst d hd hstuck).2⟩

/-! ### Every run -/

/-- How large a noun is. -/
noncomputable def rank (m : Loom) (d : Nat) : Nat :=
  open Classical in if h : ∃ n, Reads m n d then h.choose.size else 0

theorem rank_eq {m : Loom} {d : Nat} {n : Noun} (h : Reads m n d) : rank m d = n.size := by
  have hex : ∃ n, Reads m n d := ⟨n, h⟩
  rw [rank, dif_pos hex, hex.choose_spec.unique h]

/-- A noun is larger than what it refers to. -/
theorem rank_lt {m : Loom} {d k : Nat} {n : Noun} (h : Reads m n d) (hk : k ∈ parts m d) :
    rank m k < rank m d := by
  rw [parts] at hk
  split at hk
  next => cases hk
  next hcat =>
    rw [kids] at hk
    split at hk
    next hpom =>
      cases n with
      | atom x =>
          rcases h with ⟨hc, -⟩ | ⟨-, hp, -⟩
          · exact absurd hc hcat
          · simp [hpom] at hp
      | cell a b =>
          rw [rank_eq h]
          obtain ⟨-, -, ha, hb⟩ := h
          rcases List.mem_pair.mp hk with rfl | rfl
          · rw [rank_eq ha]
            exact a.size_head_lt b
          · rw [rank_eq hb]
            exact a.size_tail_lt b
    next => cases hk

theorem Ok.parts_eq (h : s.Ok B fl live) : ∀ d ∈ live, parts s.rail.loom d = kids s.rail.loom d :=
  fun d hd => if_neg (by simp [h.counted.notCat hd])

/-- What is reached from cats and dogs that live is a cat or lives. -/
theorem Ok.reached (h : s.Ok B fl live) {root : Nat → Prop}
    (hroot : ∀ d, root d → flyIsCat d = true ∨ d ∈ live) {d : Nat}
    (hd : Rooted (parts s.rail.loom) root d) : flyIsCat d = true ∨ d ∈ live := by
  refine Rooted.mem (P := fun d => flyIsCat d = true ∨ d ∈ live) hroot (fun e he d hd => ?_) hd
  by_cases hcat : flyIsCat e = true
  · rw [parts, if_pos hcat] at hd
    cases hd
  · have hlive := he.resolve_left hcat
    rw [h.parts_eq e hlive] at hd
    exact h.counted.kid hlive d hd

theorem Ok.use (h : s.Ok B fl live) {d : Nat} (hd : d ∈ live) :
    s.rail.loom (boxOf d + 1) = stuck ∨
      s.rail.loom (boxOf d + 1) = refs (parts s.rail.loom) live (s.held.map Prod.fst) d := by
  rw [refs_congr h.parts_eq]
  exact (h.counted.use hd).imp id And.right

/-- There is no garbage. -/
theorem Ok.needed (h : s.Ok B fl live) {d : Nat} (hd : d ∈ live) :
    Rooted (parts s.rail.loom)
      (fun k => k ∈ s.held.map Prod.fst ∨ k ∈ live ∧ s.rail.loom (boxOf k + 1) = stuck) d := by
  refine rooted_of_refs (rank s.rail.loom) (fun e he k hk _ => ?_) (fun k hk => .inl hk)
    (fun e he => ?_) hd
  · obtain ⟨n, hn⟩ := h.counted.reads he
    exact rank_lt hn hk
  · have huse := (h.counted.box he).1.2
    rcases h.use he with hstuck | heq
    · exact .inr (.inr ⟨he, hstuck⟩)
    · exact .inl (by omega)

theorem Ok.tidy (h : s.Ok B fl live) : Tidy s live := by
  obtain ⟨bs, htiles, hmem⟩ := h.counted.heap.tiling.tiles
  have hbox : ∀ {a siz}, (a, siz) ∈ bs ↔ a ∈ B ∧ siz = s.rail.loom a := fun {a siz} => hmem (a, siz)
  have hray : ∀ {d}, d ∈ live → dogA d = boxOf d + 2 := fun hd => (h.counted.ray hd).1
  refine ⟨fun p hp => ⟨h.reads p hp, fun n hn => hn.unique (h.reads p hp)⟩,
    fun d hd => h.reached (fun k hk => h.counted.keep k hk) hd, fun d hd => h.use hd,
    fun d hd => h.needed hd, ⟨bs, htiles, ?_, ?_⟩, fun hheld hstuck => ?_⟩
  · intro d hd
    exact ⟨_, hbox.mpr ⟨(h.counted.box hd).1.1, rfl⟩, (hray hd).symm, (h.counted.room hd).2⟩
  · rintro ⟨a, siz⟩ hb
    obtain ⟨ha, -⟩ := hbox.mp hb
    constructor
    · intro huse
      rcases h.counted.all ⟨ha, huse⟩ with hraw | ⟨d, hd, rfl⟩
      · exact absurd hraw (Finset.notMem_empty _)
      · exact ⟨d, hd, hray hd⟩
    · rintro ⟨d, hd, heq⟩
      have hd' := hray hd
      have hbox : boxOf d = a := by
        simp only at heq
        omega
      exact hbox ▸ (h.counted.box hd).1.2
  · have hnone : live = ∅ := by
      refine Finset.eq_empty_of_forall_notMem fun d hd => ?_
      refine Rooted.mem (P := fun _ => False) (fun k hk => ?_) (fun _ he => he.elim) (h.needed hd)
      rw [hheld] at hk
      rcases hk with hk | hk
      · cases hk
      · exact hstuck k hk.1 hk.2
    refine ⟨hnone, ?_⟩
    rcases List.eq_nil_or_concat' bs with rfl | ⟨ps, ⟨a, siz⟩, rfl⟩
    · exact htiles.symm
    · -- The last box would be in use.
      obtain ⟨ha, rfl⟩ := hbox.mp (List.mem_append_right ps List.mem_cons_self)
      have huse := h.counted.heap.last ha (Finset.notMem_empty _) htiles.last
      rcases h.counted.all ⟨ha, huse⟩ with hraw | ⟨d, hd, -⟩
      · exact absurd hraw (Finset.notMem_empty _)
      · rw [hnone] at hd
        exact absurd hd (Finset.notMem_empty _)

theorem ok_of_run (hr : Fresh r) (hmem : r.mem = false) (hon : OnBeam r)
    (hs : Reachable ⟨r, []⟩ Store.step Legal s) : ∃ B fl live, s.Ok B fl live := by
  obtain ⟨B, fl, live, h, -⟩ := (ok_fresh hr hmem hon).run hs
  exact ⟨B, fl, live, h⟩

/-- In every state that a fresh rail reaches, the nouns that are held are whole, the counts count,
and what is no longer needed has been freed. -/
theorem store_sound (hr : Fresh r) (hmem : r.mem = false) (hon : OnBeam r)
    (hs : Reachable ⟨r, []⟩ Store.step Legal s) : ∃ live, Tidy s live := by
  obtain ⟨B, fl, live, h⟩ := ok_of_run hr hmem hon hs
  exact ⟨live, h.tidy⟩

theorem rlBoot_on : OnBeam (rlBoot .rock false fun _ => 0) :=
  ⟨by decide, by decide⟩

/-- A cell is made of an atom twice; its tail is gained, and the cell is lost. -/
theorem boot_run : ∃ s, Reachable ⟨rlBoot .rock false fun _ => 0, []⟩ Store.step Legal s ∧
    s.held = [(0x8000009d, .atom (2 ^ 32))] := by
  have hrun : (runs (guarded (fun s op => decide (Legal s op)) Store.step)
      [.words [0, 1], .gain (0x8000009d, .atom (2 ^ 32)) [],
        .cell (0x8000009d, .atom (2 ^ 32)) (0x8000009d, .atom (2 ^ 32)),
        .gain (0x800000b8, .cell (.atom (2 ^ 32)) (.atom (2 ^ 32))) [true],
        .lose (0x800000b8, .cell (.atom (2 ^ 32)) (.atom (2 ^ 32)))]
      ⟨rlBoot .rock false fun _ => 0, []⟩).any
      (fun s => decide (s.held = [(0x8000009d, .atom (2 ^ 32))])) = true := by
    decide
  obtain ⟨s, hs, htest⟩ := Reachable.of_guarded (fun _ _ => of_decide_eq_true) _ hrun
  exact ⟨s, hs, of_decide_eq_true htest⟩

theorem store_sound_boot : ∃ s live, s.held = [(0x8000009d, .atom (2 ^ 32))] ∧ Tidy s live := by
  obtain ⟨s, hs, hheld⟩ := boot_run
  obtain ⟨live, h⟩ := store_sound (rlBoot_fresh _ _) rfl rlBoot_on hs
  exact ⟨s, live, hheld, h⟩

/-- What lives below the hat need not be copied. -/
theorem Ok.not_junior (h : s.Ok B fl live) {w : Nat} (hw : flyIsCat w = true ∨ w ∈ live) :
    junior s.rail w = false := by
  rw [junior]
  by_cases hcat : flyIsCat w = true
  · exact if_pos hcat
  · have hd := hw.resolve_left hcat
    obtain ⟨-, hbox, hbeam, hrut⟩ := h.counted.box_eq hd
    have hbelow := (h.counted.below (h.counted.box hd).1).2
    have hhalf : halfSize = 2 ^ 27 := rfl
    have hlow : ∀ {n}, rayA n = 0 → fnit n = n := fun h => if_neg (not_not_intro h)
    have hup : ∀ {n}, rayA n ≠ 0 → fnit n = halfSize - 1 - rayB n := by
      intro n hn
      have hb : rayB n < halfSize := Nat.mod_lt _ (by omega)
      rw [fnit, if_pos hn, sub32_eq (by omega) (by omega)]
    rw [if_neg hcat]
    by_cases hhat : rayA s.rail.hat = 0
    · rw [if_pos hhat, hlow hhat, hlow (hbeam.trans hhat), Bool.and_eq_false_imp]
      intro hle
      rw [decide_eq_true_iff] at hle
      omega
    · -- On the upper beam the places go down.
      have hlt : rayB (dogA w) < rayB s.rail.hat := by
        simp only [rayA, rayB, hhalf] at hbeam ⊢
        omega
      have hb : rayB s.rail.hat < halfSize := Nat.mod_lt _ (by omega)
      rw [if_neg hhat, hup hhat, hup fun h => hhat (hbeam.symm.trans h), Bool.and_eq_false_imp]
      intro _
      rw [decide_eq_false_iff_not]
      omega

theorem strip_length_le (ws : List Nat) : (strip ws).length ≤ ws.length := by
  rw [strip, List.length_reverse]
  exact (List.dropWhile_sublist _).length_le.trans_eq List.length_reverse

theorem Ok.cell_returns (h : s.Ok B fl live) (hp : p ∈ s.held) (hq : q ∈ s.held)
    (hroom : 6 + rayB s.rail.hat + rayB s.rail.cap < halfSize) (n : Nat) :
    ∃ y, rlCell n s.rail p.1 q.1 = .ok y := by
  have hlow := h.counted.on.lt
  have hhalf : halfSize = 2 ^ 27 := rfl
  have hgrab : ∃ y, bloqGrab s.rail 3 = .ok y :=
    grab_returns h.counted.heap h.counted.rock (by omega) (by omega) (by omega)
  obtain ⟨⟨r', nov⟩, hrun⟩ := hgrab
  have hnone := not_or.mpr ⟨h.counted.ne_none (h.keep hp), h.counted.ne_none (h.keep hq)⟩
  rw [rlCell, if_neg hnone, must_bind (h.not_junior (h.keep hp)),
    must_bind (h.not_junior (h.keep hq)), hrun]
  exact ⟨_, rfl⟩

theorem Ok.words_returns (h : s.Ok B fl live) {ws : List Nat}
    (hroom : ws.length + 5 + rayB s.rail.hat + rayB s.rail.cap < halfSize) :
    ∃ y, rlWords s.rail ws = .ok y := by
  have hlow := h.counted.on.lt
  have hhalf : halfSize = 2 ^ 27 := rfl
  have hle := strip_length_le ws
  rw [rlWords]
  generalize strip ws = ws' at hle ⊢
  cases ws' with
  | nil => exact ⟨_, rfl⟩
  | cons w rest =>
      simp only
      split
      · exact ⟨_, rfl⟩
      · rw [must_bind (by omega)]
        split
        · exact ⟨_, rfl⟩
        · have hgrab : ∃ y, bloqGrab s.rail ((w :: rest).length + 2) = .ok y :=
            grab_returns h.counted.heap h.counted.rock (by omega) (by omega) (by omega)
          obtain ⟨⟨r', nov⟩, hrun⟩ := hgrab
          rw [hrun]
          exact ⟨_, rfl⟩

/-- No call of the C code stops the program where there is room for what it makes. -/
theorem store_returns (hr : Fresh r) (hmem : r.mem = false) (hon : OnBeam r)
    (hs : Reachable ⟨r, []⟩ Store.step Legal s) {op : Op} (hlegal : Legal s op)
    (hroom : Room s op) : ∃ s', Store.step op s = some s' := by
  obtain ⟨B, fl, live, h⟩ := ok_of_run hr hmem hon hs
  cases op with
  | gain p path =>
      obtain ⟨hp, hsome⟩ := hlegal
      obtain ⟨som, hpart⟩ := Option.isSome_iff_exists.mp hsome
      obtain ⟨n, r', hn, hrun, -⟩ := h.gain hp hpart
      exact ⟨_, by simp only [Store.step, hpart, hn, hrun]; rfl⟩
  | lose p =>
      obtain ⟨r', B', fl', live', hrun, -⟩ := h.lose hlegal
      exact ⟨_, by simp only [Store.step, hrun]; rfl⟩
  | cell p q =>
      obtain ⟨⟨r', nov⟩, hrun⟩ := h.cell_returns hlegal.1 (List.mem_of_mem_erase hlegal.2) hroom
        (s.rail.hat + 1)
      exact ⟨_, by simp only [Store.step, hrun]; rfl⟩
  | words ws =>
      obtain ⟨⟨r', nov⟩, hrun⟩ := h.words_returns hroom
      exact ⟨_, by simp only [Store.step, hrun]; rfl⟩

theorem store_returns_boot : ∃ s s', s.held = [(0x8000009d, .atom (2 ^ 32))] ∧
    Store.step (.lose (0x8000009d, .atom (2 ^ 32))) s = some s' := by
  obtain ⟨s, hs, hheld⟩ := boot_run
  have hlegal : Legal s (.lose (0x8000009d, .atom (2 ^ 32))) := by
    rw [Legal, hheld]
    exact List.mem_cons_self
  obtain ⟨s', hstep⟩ := store_returns (rlBoot_fresh _ _) rfl rlBoot_on hs hlegal trivial
  exact ⟨s, s', hheld, hstep⟩

end Store

end Vere.Mem
