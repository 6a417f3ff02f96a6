import Vere.Ames.Flow
import Vere.Hoon.Cord

/-!
# Vere.Ames.Carp

Messages that do not fit one packet (`weft` of `++zuul`, the `%carp` of `++dine` and `++golf`).

The content of a message is cut into blocks of `2^13` bits. Each goes into a `%carp` with its
index, the number of blocks and the hash of the content, by which the other side collects them
(`nys`) until it has all, and knows those it had all of (`olz`).

What the handler does with a `%carp` is an `Heed`: acknowledge it, or pass the content on to
`chew`. `carp_delivery` is the result, for the blocks of a message in any order and as often as
they come.
-/

namespace Vere.Ames

open Vere.Hoon

/-- `++skin`: encoding stem. -/
inductive Skin
  | none
  | open
  | fast
  | full
  deriving DecidableEq, Repr

/-- `++ksin`. -/
def ksin : Skin → Nat
  | .none => 0
  | .open => 1
  | .fast => 2
  | .full => 3

/-- `++kins`. -/
def kins (tay : Nat) : Option Skin := [Skin.none, .open, .fast, .full][tay]?

@[simp] theorem kins_ksin (sin : Skin) : kins (ksin sin) = some sin := by cases sin <;> rfl

/-- The `%carp` of a meal: skin, index, count, hash and block. -/
structure Carp where
  p : Nat
  q : Nat
  r : Nat
  s : Nat
  t : Nat
  deriving DecidableEq

/-- What a packet carries: a whole message, or a fragment without security (`wasp`). -/
inductive Pack
  | whole (sin : Skin) (msg : Nat)
  | part (ham : Carp)
  deriving DecidableEq

/-- The fragments, from an index on. -/
def weftLoop (sin : Skin) (wit gom : Nat) : Nat → List Nat → List Carp
  | _, [] => []
  | inx, i :: t => ⟨ksin sin, inx, wit, gom, i⟩ :: weftLoop sin wit gom (inx + 1) t

/-- `weft`: fragment message. The message was encoded by `wisp`; its hash is `shaf %thug`. -/
def weft (shaf : Nat → Nat) (sin : Skin) (q : Nat) : Option (List Pack) :=
  let wit := met 13 q
  if wit = 0 then none
  else if wit = 1 then some [.whole sin q]
  else some ((weftLoop sin wit (shaf q) 0 (rip 13 q)).map .part)

/-- `++dove`: the count and the blocks. -/
structure Dove where
  p : Nat
  q : Dict Nat Nat

/-- `++bait`: format, number received, specification. -/
structure Bait where
  p : Skin
  q : Nat
  r : Dove

/-- `++corn`: flow by server. -/
structure Corn where
  /-- Packets incoming. -/
  nys : Dict Nat Bait
  /-- Packets completed. -/
  olz : Dict Nat Cape

/-- What is to be done with a fragment: `cock` with this `kay`, or `chew`. -/
inductive Heed
  | cock (kay : Cape)
  | chew (sin : Skin) (msg : Nat)
  deriving DecidableEq

/-- The loop of `golf`, with `n` blocks to go. -/
def golfLoop (q : Dict Nat Nat) : Nat → Nat → List Nat → Option Nat
  | 0, _, rax => some (can 13 (rax.reverse.map fun a => (1, a)))
  | n + 1, nix, rax => do
    let a ← q.lookup nix
    golfLoop q n (nix + 1) (a :: rax)

/-- `golf`: assemble fragments. -/
def golf (sin : Skin) (duv : Dove) : Option Heed := do
  let msg ← golfLoop duv.q duv.p 0 []
  return .chew sin msg

/-- The `%carp` of `dine`. -/
def dineCarp (kay : Cape) (fud : Carp) (weg : Corn) : Option (Heed × Corn) :=
  match weg.olz.lookup fud.s with
  | some zol => some (.cock zol, weg)
  | none => do
    let sin ← kins fud.p
    let (neb, weg) :=
      match weg.nys.lookup fud.s with
      | some neb => (neb, weg)
      | none =>
        let neb : Bait := ⟨sin, 0, fud.r, ∅⟩
        (neb, { weg with nys := weg.nys.insert fud.s neb })
    if fud.q < neb.r.p ∧ sin = neb.p ∧ fud.r = neb.r.p then
      match neb.r.q.lookup fud.q with
      | some _ => some (.cock kay, weg)
      | none =>
        let neb : Bait := ⟨neb.p, neb.q + 1, neb.r.p, neb.r.q.insert fud.q fud.t⟩
        if neb.q = neb.r.p then do
          let act ← golf neb.p neb.r
          return (act, ⟨weg.nys.erase fud.s, weg.olz.insert fud.s kay⟩)
        else some (.cock kay, { weg with nys := weg.nys.insert fud.s neb })
    else none

/-! ### Blocks -/

theorem can_rip (a b : Nat) : can a ((rip a b).map fun x => (1, x)) = b := by
  induction b using rip.induct a with
  | case1 => rw [rip, dif_pos rfl]; rfl
  | case2 b hb ih =>
    rw [rip, dif_neg hb, List.map_cons, can_cons, ih]
    simp only [«end», rsh, bex_eq, Nat.mul_one, Nat.mod_mod]
    exact Nat.mod_add_div b _

theorem metLoop_rip (a b c : Nat) : metLoop a b c = (rip a b).length + c := by
  induction b, c using metLoop.induct a with
  | case1 c => rw [metLoop, dif_pos rfl, rip, dif_pos rfl, List.length_nil, Nat.zero_add]
  | case2 b c hb ih =>
    rw [metLoop, dif_neg hb, ih]
    conv_rhs => rw [rip, dif_neg hb, List.length_cons]
    omega

theorem length_rip (a b : Nat) : (rip a b).length = met a b := (metLoop_rip a b 0).symm

/-- The fragments are numbered. -/
theorem mem_weftLoop {sin : Skin} {wit gom inx : Nat} {ruv : List Nat} {ham : Carp} :
    ham ∈ weftLoop sin wit gom inx ruv ↔
      ∃ i a, ruv[i]? = some a ∧ ham = ⟨ksin sin, inx + i, wit, gom, a⟩ := by
  induction ruv generalizing inx with
  | nil => simp [weftLoop]
  | cons b ruv ih =>
    rw [weftLoop, List.mem_cons, ih]
    constructor
    · rintro (rfl | ⟨i, a, hi, rfl⟩)
      · exact ⟨0, b, rfl, rfl⟩
      · exact ⟨i + 1, a, by simpa using hi, by simp; omega⟩
    · rintro ⟨i, a, hi, rfl⟩
      cases i with
      | zero => exact .inl (by simp at hi; simp [hi])
      | succ i => exact .inr ⟨i, a, by simpa using hi, by simp; omega⟩

/-- When it has all blocks, `golf` puts them together. -/
theorem golfLoop_eq {q : Dict Nat Nat} {ruv : List Nat} (rax : List Nat) (nix : Nat)
    (h : ∀ i a, ruv[i]? = some a → q.lookup (nix + i) = some a) :
    golfLoop q ruv.length nix rax = some (can 13 ((rax.reverse ++ ruv).map fun a => (1, a))) := by
  induction ruv generalizing nix rax with
  | nil => simp [golfLoop]
  | cons b ruv ih =>
    have hb : q.lookup nix = some b := h 0 b rfl
    rw [List.length_cons, golfLoop, hb]
    show golfLoop q ruv.length (nix + 1) (b :: rax) = _
    rw [ih (b :: rax) (nix + 1) ?_]
    · simp
    · intro i a hi
      rw [Nat.add_assoc, Nat.add_comm 1 i]
      exact h (i + 1) a (by simpa using hi)

theorem card_insert {got : Dict Nat Nat} {i : Nat} (a : Nat) (h : got.lookup i = none) :
    (got.insert i a).keys.card = got.keys.card + 1 := by
  have hnot : i ∉ got.keys := by
    rw [Finmap.mem_keys]
    exact Finmap.lookup_eq_none.mp h
  have hkeys : (got.insert i a).keys = insert i got.keys := by
    ext j
    rw [Finmap.mem_keys, Finmap.mem_insert, Finset.mem_insert, Finmap.mem_keys]
  rw [hkeys, Finset.card_insert_of_notMem hnot]

/-! ### What one fragment does -/

section message

variable {gom : Nat} {sin : Skin} {ruv : List Nat}

/-- The blocks of `ruv` that were received, when some are missing. -/
structure Half (gom : Nat) (sin : Skin) (ruv : List Nat) (got : Dict Nat Nat) (weg : Corn) :
    Prop where
  olz : weg.olz.lookup gom = none
  nys : weg.nys.lookup gom = some ⟨sin, got.keys.card, ruv.length, got⟩ ∨
    weg.nys.lookup gom = none ∧ got = ∅
  blocks : ∀ i a, got.lookup i = some a → ruv[i]? = some a

theorem Half.card_lt {got : Dict Nat Nat} {weg : Corn} (h : Half gom sin ruv got weg) {i : Nat}
    (hi : i < ruv.length) (hmiss : got.lookup i = none) : got.keys.card < ruv.length := by
  have hsub : insert i got.keys ⊆ Finset.range ruv.length := by
    intro j hj
    rcases Finset.mem_insert.mp hj with rfl | hj
    · exact Finset.mem_range.mpr hi
    · obtain ⟨a, ha⟩ := Finmap.mem_iff.mp (Finmap.mem_keys.mp hj)
      exact Finset.mem_range.mpr (List.getElem?_eq_some_iff.mp (h.blocks j a ha)).1
  have hnot : i ∉ got.keys := by
    rw [Finmap.mem_keys, ← Finmap.lookup_eq_none]
    exact hmiss
  have hcard := Finset.card_le_card hsub
  rw [Finset.card_insert_of_notMem hnot, Finset.card_range] at hcard
  exact hcard

/-- The handler at a message that is not complete, whether or not a fragment of it came before. -/
theorem dineCarp_half {got : Dict Nat Nat} {weg : Corn} (h : Half gom sin ruv got weg) (kay : Cape)
    {i a : Nat} (hi : i < ruv.length) :
    ∃ weg', Half gom sin ruv got weg' ∧
      dineCarp kay ⟨ksin sin, i, ruv.length, gom, a⟩ weg =
        match got.lookup i with
        | some _ => some (.cock kay, weg')
        | none =>
          let neb : Bait := ⟨sin, got.keys.card + 1, ruv.length, got.insert i a⟩
          if neb.q = neb.r.p then do
            let act ← golf neb.p neb.r
            return (act, ⟨weg'.nys.erase gom, weg'.olz.insert gom kay⟩)
          else some (.cock kay, { weg' with nys := weg'.nys.insert gom neb }) := by
  rcases h.nys with hn | ⟨hn, rfl⟩
  · refine ⟨weg, h, ?_⟩
    rw [dineCarp, h.olz]
    simp [hn, hi]
  · refine ⟨{ weg with nys := weg.nys.insert gom ⟨sin, 0, ruv.length, ∅⟩ }, ?_, ?_⟩
    · exact ⟨h.olz, .inl (by simp), h.blocks⟩
    · rw [dineCarp, h.olz]
      simp [hn, hi]

theorem Half.put {got : Dict Nat Nat} {weg : Corn} (h : Half gom sin ruv got weg) {i a : Nat}
    (hi : ruv[i]? = some a) (hmiss : got.lookup i = none) :
    Half gom sin ruv (got.insert i a)
      { weg with nys := weg.nys.insert gom ⟨sin, got.keys.card + 1, ruv.length, got.insert i a⟩ } := by
  refine ⟨h.olz, .inl (by simp [card_insert a hmiss]), ?_⟩
  intro j b hj
  rw [lookup_insert_eq] at hj
  split at hj
  · next he =>
    rw [he, hi]
    exact hj
  · exact h.blocks j b hj

/-- All blocks are there when as many are. -/
theorem Half.full {got : Dict Nat Nat} {weg : Corn} (h : Half gom sin ruv got weg)
    (hcard : got.keys.card = ruv.length) (j a : Nat) (hj : ruv[j]? = some a) :
    got.lookup j = some a := by
  cases hl : got.lookup j with
  | none =>
    have := h.card_lt (List.getElem?_eq_some_iff.mp hj).1 hl
    omega
  | some b => exact (h.blocks j b hl).symm.trans hj

theorem Half.full_iff {got : Dict Nat Nat} {weg : Corn} (h : Half gom sin ruv got weg) :
    (∀ j, j < ruv.length → got.lookup j ≠ none) ↔ got.keys.card = ruv.length := by
  constructor
  · intro hall
    have hkeys : got.keys = Finset.range ruv.length := by
      ext j
      rw [Finmap.mem_keys, Finset.mem_range, Finmap.mem_iff]
      constructor
      · rintro ⟨a, ha⟩
        exact (List.getElem?_eq_some_iff.mp (h.blocks j a ha)).1
      · intro hj
        exact Option.ne_none_iff_exists'.mp (hall j hj)
    rw [hkeys, Finset.card_range]
  · intro hcard j hj
    rw [h.full hcard j ruv[j] (List.getElem?_eq_getElem hj)]
    simp

/-- One fragment: a block that was there, a new one, or the last. -/
theorem dineCarp_step {got : Dict Nat Nat} {weg : Corn} (h : Half gom sin ruv got weg) (kay : Cape)
    {i a : Nat} (hi : ruv[i]? = some a) :
    ∃ act weg', dineCarp kay ⟨ksin sin, i, ruv.length, gom, a⟩ weg = some (act, weg') ∧
      ((got.lookup i ≠ none ∧ act = .cock kay ∧ Half gom sin ruv got weg') ∨
        (got.lookup i = none ∧ got.keys.card + 1 ≠ ruv.length ∧ act = .cock kay ∧
          Half gom sin ruv (got.insert i a) weg') ∨
        (got.lookup i = none ∧ got.keys.card + 1 = ruv.length ∧
          act = .chew sin (can 13 (ruv.map fun a => (1, a))) ∧
          weg'.olz.lookup gom = some kay)) := by
  have hlt := (List.getElem?_eq_some_iff.mp hi).1
  obtain ⟨weg', hw, hd⟩ := dineCarp_half (a := a) h kay hlt
  rw [hd]
  cases hl : got.lookup i with
  | some b => exact ⟨_, _, rfl, .inl ⟨by simp, rfl, hw⟩⟩
  | none =>
    have hput := hw.put hi hl
    by_cases hc : got.keys.card + 1 = ruv.length
    · have hgolf : golf sin ⟨ruv.length, got.insert i a⟩ =
          some (.chew sin (can 13 (ruv.map fun a => (1, a)))) := by
        have hcard : (got.insert i a).keys.card = ruv.length := by rw [card_insert a hl, hc]
        rw [golf, golfLoop_eq [] 0 fun j b hj => by rw [Nat.zero_add]; exact hput.full hcard j b hj]
        rfl
      refine ⟨.chew sin (can 13 (ruv.map fun a => (1, a))),
        ⟨weg'.nys.erase gom, weg'.olz.insert gom kay⟩, ?_, .inr (.inr ⟨rfl, hc, rfl, ?_⟩)⟩
      · simp only [hc, if_true, hgolf]
        rfl
      · simp
    · refine ⟨.cock kay, _, ?_, .inr (.inl ⟨rfl, hc, rfl, hput⟩)⟩
      simp only [hc, if_false]

end message

/-- The handler at a fragment leaves the other messages alone, and forgets one that it passes on. -/
theorem dineCarp_frame {kay : Cape} {fud : Carp} {weg weg' : Corn} {act : Heed}
    (h : dineCarp kay fud weg = some (act, weg')) :
    (∀ g, g ≠ fud.s → weg'.nys.lookup g = weg.nys.lookup g ∧ weg'.olz.lookup g = weg.olz.lookup g) ∧
      ∀ sin msg, act = .chew sin msg → weg'.nys.lookup fud.s = none := by
  rw [dineCarp] at h
  split at h
  · cases h
    exact ⟨fun _ _ => ⟨rfl, rfl⟩, fun _ _ he => by cases he⟩
  · obtain ⟨sin, -, h⟩ := Option.bind_eq_some_iff.mp h
    obtain ⟨neb, w, hw, h⟩ : ∃ (neb : Bait) (w : Corn),
        (∀ g, g ≠ fud.s → w.nys.lookup g = weg.nys.lookup g ∧ w.olz.lookup g = weg.olz.lookup g) ∧
        (if fud.q < neb.r.p ∧ sin = neb.p ∧ fud.r = neb.r.p then
          match neb.r.q.lookup fud.q with
          | some _ => some (.cock kay, w)
          | none =>
            let neb : Bait := ⟨neb.p, neb.q + 1, neb.r.p, neb.r.q.insert fud.q fud.t⟩
            if neb.q = neb.r.p then do
              let act ← golf neb.p neb.r
              return (act, ⟨w.nys.erase fud.s, w.olz.insert fud.s kay⟩)
            else some (.cock kay, { w with nys := w.nys.insert fud.s neb })
        else none) = some (act, weg') := by
      cases hn : weg.nys.lookup fud.s with
      | some neb =>
        rw [hn] at h
        exact ⟨neb, weg, fun _ _ => ⟨rfl, rfl⟩, h⟩
      | none =>
        rw [hn] at h
        exact ⟨⟨sin, 0, fud.r, ∅⟩, { weg with nys := weg.nys.insert fud.s ⟨sin, 0, fud.r, ∅⟩ },
          fun g hg => ⟨Finmap.lookup_insert_of_ne _ hg, rfl⟩, h⟩
    split at h
    · split at h
      · cases h
        exact ⟨hw, fun _ _ he => by cases he⟩
      · dsimp only at h
        split at h
        · obtain ⟨a, -, h⟩ := Option.bind_eq_some_iff.mp h
          cases h
          refine ⟨fun g hg => ?_, fun _ _ _ => ?_⟩
          · rw [Finmap.lookup_erase_ne hg, Finmap.lookup_insert_of_ne _ hg]
            exact hw g hg
          · exact Finmap.lookup_erase _ _
        · cases h
          refine ⟨fun g hg => ?_, fun _ _ he => by cases he⟩
          rw [Finmap.lookup_insert_of_ne _ hg]
          exact hw g hg
    · cases h

/-- A fragment of a message that is going on has the encoding of those before. -/
theorem dineCarp_skin {kay : Cape} {fud : Carp} {weg : Corn} {neb : Bait} {sin : Skin}
    (holz : weg.olz.lookup fud.s = none) (hnys : weg.nys.lookup fud.s = some neb)
    (hsin : kins fud.p = some sin) (hne : sin ≠ neb.p) : dineCarp kay fud weg = none := by
  rw [dineCarp, holz, hsin, hnys]
  simp [hne]

/-! ### Every order of arrival -/

/-- The fragments of a history, the latest first, each with how it was heard. -/
abbrev Arrivals := List (Cape × Carp)

/-- What was done with each of them, the latest first. -/
def hearCarps (weg : Corn) : Arrivals → Option (List Heed × Corn)
  | [] => some ([], weg)
  | (kay, fud) :: his => do
    let (acts, weg) ← hearCarps weg his
    let (act, weg) ← dineCarp kay fud weg
    return (act :: acts, weg)

/-- What was passed on. -/
def Heed.chewed : Heed → Option (Skin × Nat)
  | .cock _ => none
  | .chew sin msg => some (sin, msg)

/-- Every packet of a message has arrived. -/
def Arrived (pax : List Pack) (his : Arrivals) : Prop := ∀ pac ∈ pax, pac ∈ his.map fun d => .part d.2

instance (pax : List Pack) (his : Arrivals) : Decidable (Arrived pax his) :=
  inferInstanceAs (Decidable (∀ pac ∈ pax, pac ∈ his.map fun d => Pack.part d.2))

section run

variable {gom : Nat} {sin : Skin} {ruv : List Nat}

/-- The packets of the blocks. -/
def parts (gom : Nat) (sin : Skin) (ruv : List Nat) : List Pack :=
  (weftLoop sin ruv.length gom 0 ruv).map .part

theorem mem_parts {fud : Carp} :
    .part fud ∈ parts gom sin ruv ↔
      ∃ i a, ruv[i]? = some a ∧ fud = ⟨ksin sin, i, ruv.length, gom, a⟩ := by
  simp [parts, mem_weftLoop]

/-- All have arrived when each index has. -/
theorem arrived_iff {his : Arrivals} (h : ∀ d ∈ his, .part d.2 ∈ parts gom sin ruv) :
    Arrived (parts gom sin ruv) his ↔ ∀ i, i < ruv.length → ∃ d ∈ his, d.2.q = i := by
  constructor
  · intro ha i hi
    have hm := ha (.part ⟨ksin sin, i, ruv.length, gom, ruv[i]⟩)
      (mem_parts.mpr ⟨i, ruv[i], List.getElem?_eq_getElem hi, rfl⟩)
    obtain ⟨d, hd, he⟩ := List.mem_map.mp hm
    exact ⟨d, hd, by rw [Pack.part.inj he]⟩
  · intro ha pac hpac
    obtain ⟨fud, hfud, rfl⟩ := List.mem_map.mp hpac
    obtain ⟨i, a, hi, rfl⟩ := mem_parts.mp hpac
    obtain ⟨d, hd, hq⟩ := ha i (List.getElem?_eq_some_iff.mp hi).1
    obtain ⟨j, b, hj, he⟩ := mem_parts.mp (h d hd)
    refine List.mem_map.mpr ⟨d, hd, ?_⟩
    have hij : j = i := by rw [← hq, he]
    subst hij
    rw [he, Option.some.inj (hj.symm.trans hi)]

/-- Where the receiver is after a history. -/
def Stage (gom : Nat) (sin : Skin) (ruv : List Nat) (his : Arrivals) (weg : Corn) : Prop :=
  (¬Arrived (parts gom sin ruv) his ∧ ∃ got, Half gom sin ruv got weg ∧
      ∀ i, got.lookup i ≠ none ↔ ∃ d ∈ his, d.2.q = i) ∨
    (Arrived (parts gom sin ruv) his ∧ ∃ kay, weg.olz.lookup gom = some kay)

/-- What is due for a fragment. -/
def Owed (pax : List Pack) (sin : Skin) (q : Nat) (d : Cape × Carp) (his : Arrivals) (act : Heed) :
    Prop :=
  if Arrived pax (d :: his) ∧ ¬Arrived pax his then act = .chew sin q else ∃ kay, act = .cock kay

theorem stage_step {his : Arrivals} {weg : Corn} {d : Cape × Carp}
    (h : ∀ x ∈ d :: his, .part x.2 ∈ parts gom sin ruv) (hs : Stage gom sin ruv his weg) :
    ∃ act weg', dineCarp d.1 d.2 weg = some (act, weg') ∧ Stage gom sin ruv (d :: his) weg' ∧
      Owed (parts gom sin ruv) sin (can 13 (ruv.map fun a => (1, a))) d his act := by
  obtain ⟨kay, fud⟩ := d
  obtain ⟨i, a, hi, rfl⟩ := mem_parts.mp (h _ List.mem_cons_self)
  have hall := arrived_iff h
  rcases hs with ⟨hno, got, hhalf, hgot⟩ | ⟨hyes, zol, holz⟩
  · obtain ⟨act, weg', hd, hcase⟩ := dineCarp_step hhalf kay hi
    refine ⟨act, weg', hd, ?_⟩
    -- the indexes that arrived are those of the blocks in hand
    have hmem : ∀ {got' : Dict Nat Nat}, (∀ j, got'.lookup j ≠ none ↔ j = i ∨ got.lookup j ≠ none) →
        ∀ j, got'.lookup j ≠ none ↔
          ∃ x ∈ (kay, (⟨ksin sin, i, ruv.length, gom, a⟩ : Carp)) :: his, x.2.q = j := by
      intro got' hg j
      rw [hg, hgot]
      simp [eq_comm]
    have hins : ∀ j, (got.insert i a).lookup j ≠ none ↔ j = i ∨ got.lookup j ≠ none := by
      intro j
      rw [lookup_insert_eq]
      split
      · next he => simp [he]
      · next he => simp [he]
    have hnot : ¬∀ j, j < ruv.length → got.lookup j ≠ none := by
      intro hc
      refine hno ((arrived_iff fun x hx => h x (List.mem_cons_of_mem _ hx)).mpr fun j hj => ?_)
      exact (hgot j).mp (hc j hj)
    rcases hcase with ⟨hl, rfl, hw⟩ | ⟨hl, hc, rfl, hw⟩ | ⟨hl, hc, rfl, hw⟩
    · have hg := @hmem got fun j => ⟨.inr, fun hj => hj.elim (fun he => he ▸ hl) id⟩
      have hno' : ¬Arrived (parts gom sin ruv) _ := fun ha =>
        hnot fun j hj => (hg j).mpr (hall.mp ha j hj)
      refine ⟨.inl ⟨hno', got, hw, hg⟩, ?_⟩
      rw [Owed, if_neg fun hx => hno' hx.1]
      exact ⟨kay, rfl⟩
    · have hg := hmem hins
      have hno' : ¬Arrived (parts gom sin ruv) _ := fun ha =>
        hc ((card_insert a hl).symm.trans
          (hw.full_iff.mp fun j hj => (hg j).mpr (hall.mp ha j hj)))
      refine ⟨.inl ⟨hno', got.insert i a, hw, hg⟩, ?_⟩
      rw [Owed, if_neg fun hx => hno' hx.1]
      exact ⟨kay, rfl⟩
    · have hg := hmem hins
      have hyes : Arrived (parts gom sin ruv) _ := hall.mpr fun j hj =>
        (hg j).mp ((hhalf.put hi hl).full_iff.mpr ((card_insert a hl).trans hc) j hj)
      refine ⟨.inr ⟨hyes, kay, hw⟩, ?_⟩
      rw [Owed, if_pos ⟨hyes, hno⟩]
  · have hd : dineCarp kay ⟨ksin sin, i, ruv.length, gom, a⟩ weg = some (.cock zol, weg) := by
      rw [dineCarp, holz]
    have hyes' : Arrived (parts gom sin ruv) ((kay, ⟨ksin sin, i, ruv.length, gom, a⟩) :: his) := by
      intro pac hpac
      rw [List.map_cons]
      exact List.mem_cons_of_mem _ (hyes pac hpac)
    refine ⟨_, weg, hd, .inr ⟨hyes', zol, holz⟩, ?_⟩
    rw [Owed, if_neg fun hc => hc.2 hyes]
    exact ⟨zol, rfl⟩

theorem stage_run (his : Arrivals) {weg : Corn} (hne : ruv ≠ [])
    (hnys : weg.nys.lookup gom = none) (holz : weg.olz.lookup gom = none)
    (h : ∀ x ∈ his, .part x.2 ∈ parts gom sin ruv) :
    ∃ acts weg', hearCarps weg his = some (acts, weg') ∧ Stage gom sin ruv his weg' ∧
      acts.filterMap Heed.chewed = if Arrived (parts gom sin ruv) his then
        [(sin, can 13 (ruv.map fun a => (1, a)))] else [] := by
  induction his with
  | nil =>
    have hno : ¬Arrived (parts gom sin ruv) [] := by
      rw [arrived_iff h]
      intro hc
      obtain ⟨d, hd, -⟩ := hc 0 (List.length_pos_of_ne_nil hne)
      simp at hd
    refine ⟨[], weg, rfl, .inl ⟨hno, ∅, ⟨holz, .inr ⟨hnys, rfl⟩, by simp⟩, by simp⟩, ?_⟩
    rw [if_neg hno]
    rfl
  | cons d his ih =>
    obtain ⟨acts, weg1, hrun, hs, hchew⟩ := ih fun x hx => h x (List.mem_cons_of_mem _ hx)
    obtain ⟨act, weg2, hd, hs2, hdue⟩ := stage_step h hs
    refine ⟨act :: acts, weg2, by simp [hearCarps, hrun, hd], hs2, ?_⟩
    have hmono : Arrived (parts gom sin ruv) his → Arrived (parts gom sin ruv) (d :: his) :=
      fun ha pac hpac => by rw [List.map_cons]; exact List.mem_cons_of_mem _ (ha pac hpac)
    rw [Owed] at hdue
    by_cases hlast : Arrived (parts gom sin ruv) (d :: his) ∧ ¬Arrived (parts gom sin ruv) his
    · rw [if_pos hlast] at hdue
      rw [if_neg hlast.2] at hchew
      rw [hdue, if_pos hlast.1, List.filterMap_cons, hchew]
      rfl
    · rw [if_neg hlast] at hdue
      obtain ⟨kay, rfl⟩ := hdue
      rw [List.filterMap_cons]
      show acts.filterMap Heed.chewed = _
      rw [hchew]
      by_cases hh : Arrived (parts gom sin ruv) his
      · rw [if_pos hh, if_pos (hmono hh)]
      · rw [if_neg hh, if_neg fun hc => hlast ⟨hc, hh⟩]

end run

theorem weft_parts {shaf : Nat → Nat} {sin : Skin} {q : Nat} (h : 1 < met 13 q) :
    weft shaf sin q = some (parts (shaf q) sin (rip 13 q)) := by
  rw [weft, if_neg (by omega), if_neg (by omega), parts, length_rip]

/-- A message longer than a block is cut into packets. However often and in whatever order they
arrive, and however far the receiver is with other messages, it does not crash. It passes the
content on when the last missing packet arrives, and once; every other packet it acknowledges. -/
theorem carp_delivery (shaf : Nat → Nat) (sin : Skin) (q : Nat) (hq : 1 < met 13 q) :
    ∃ pax, weft shaf sin q = some pax ∧
      ∀ (weg : Corn), weg.nys.lookup (shaf q) = none → weg.olz.lookup (shaf q) = none →
      ∀ (d : Cape × Carp) (his : Arrivals), (∀ x ∈ d :: his, .part x.2 ∈ pax) →
        ∃ act acts weg', hearCarps weg (d :: his) = some (act :: acts, weg') ∧
          (if Arrived pax (d :: his) ∧ ¬Arrived pax his then act = .chew sin q
            else ∃ kay, act = .cock kay) ∧
          (act :: acts).filterMap Heed.chewed =
            if Arrived pax (d :: his) then [(sin, q)] else [] := by
  refine ⟨_, weft_parts hq, fun weg hnys holz d his h => ?_⟩
  have hne : rip 13 q ≠ [] := by
    rw [← List.length_pos_iff, length_rip]
    omega
  obtain ⟨acts, weg1, hrun, hs, -⟩ :=
    stage_run his hne hnys holz fun x hx => h x (List.mem_cons_of_mem _ hx)
  obtain ⟨act, weg2, hd, -, hdue⟩ := stage_step h hs
  have hall : hearCarps weg (d :: his) = some (act :: acts, weg2) := by simp [hearCarps, hrun, hd]
  obtain ⟨acts', weg', hrun', -, hchew⟩ := stage_run (d :: his) hne hnys holz h
  obtain ⟨rfl, rfl⟩ : acts' = act :: acts ∧ weg' = weg2 := by simpa [hrun'] using hall
  rw [can_rip] at hdue hchew
  exact ⟨act, acts, _, hall, hdue, hchew⟩

theorem rip_block : rip 13 (2 ^ 2 ^ 13) = [0, 1] := by
  have hlo : «end» 13 1 (2 ^ 2 ^ 13) = 0 := by rw [«end», bex_eq, bex_eq, Nat.mul_one, Nat.mod_self]
  have hhi : rsh 13 1 (2 ^ 2 ^ 13) = 1 := by
    rw [rsh, bex_eq, bex_eq, Nat.mul_one, Nat.div_self (Nat.two_pow_pos _)]
  have hone : rip 13 1 = [1] := by
    have hlt : 1 < 2 ^ 2 ^ 13 := Nat.one_lt_two_pow (by decide)
    rw [rip, dif_neg one_ne_zero, «end», rsh, bex_eq, bex_eq, Nat.mul_one, Nat.mod_eq_of_lt hlt,
      Nat.div_eq_of_lt hlt, rip, dif_pos rfl]
  rw [rip, dif_neg (Nat.two_pow_pos _).ne', hlo, hhi, hone]

/-- The shortest message of two blocks, the second first. -/
theorem carp_delivery_two :
    let fst : Carp := ⟨0, 0, 2, 7, 0⟩
    let snd : Carp := ⟨0, 1, 2, 7, 1⟩
    1 < met 13 (2 ^ 2 ^ 13) ∧
      ∃ acts weg', hearCarps ⟨∅, ∅⟩ [(.good, fst), (.good, snd)] =
        some (.chew .none (2 ^ 2 ^ 13) :: acts, weg') := by
  intro fst snd
  have hq : 1 < met 13 (2 ^ 2 ^ 13) := by
    rw [← length_rip, rip_block]
    decide
  obtain ⟨pax, hpax, hrun⟩ := carp_delivery (fun _ => 7) .none (2 ^ 2 ^ 13) hq
  have hpax' : pax = [.part fst, .part snd] := by
    rw [weft_parts hq, rip_block] at hpax
    exact (Option.some.inj hpax).symm
  subst hpax'
  obtain ⟨act, acts, weg', hh, hact, -⟩ := hrun ⟨∅, ∅⟩ (Finmap.lookup_empty _)
    (Finmap.lookup_empty _) (.good, fst) [(.good, snd)] (by simp)
  rw [if_pos (by decide)] at hact
  exact ⟨hq, acts, weg', hact ▸ hh⟩

end Vere.Ames
