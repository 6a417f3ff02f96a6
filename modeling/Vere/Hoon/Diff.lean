import Vere.Hoon.Cord
import Vere.Hoon.PackSpec
import Vere.Hoon.Union
import Vere.Hoon.Urge
import Vere.Ut.Axis

/-!
# Vere.Hoon.Diff

Patches (`hoon.hoon`, section 2eP): `++diff` makes a patch by the filter it is given,
`++lump` applies one and `++limp` inverts it.

A patch of nouns (`%a`) is a tree edit, made by looking up the subtrees of one noun among
those of the other. It round trips however the map of them came out, because an entry of the
map is never wrong: it is the axis where the noun stands (`axes_stands`). A patch of jamfiles
(`%b`) is made, but `++lump` has no case for it. A patch of text (`%c`) is a patch of its
lines.
-/

namespace Vere.Hoon

open Vere.Lib Vere.Nock

/-- `++umph`: change filter. -/
inductive Umph
  | a
  | b
  | c
  | d (p : Nat)
  deriving DecidableEq

mutual

/-- `++upas`: tree change. -/
inductive Upas
  | cell (p q : Upas)
  | copy (p : Nat)
  | insert (p : Noun)
  | mutate (p : Nat) (q : Udon)

/-- The patch of a `++udon`. -/
inductive Patch
  | a (p q : Noun)
  | b (p : Nat) (q : List (Nat × Option (Nat × Nat)))
  | c (p : List (Unce Noun))
  | d (p q : Upas)

/-- `++udon`: abstract delta. -/
inductive Udon
  | mk (p : Umph) (q : Patch)

end

deriving instance DecidableEq for Upas, Patch, Udon

/-! ### Tree change -/

/-- `axes` of `++nude`: locs of nouns. The unions take fuel. -/
def axes (mug : Noun → Nat) (n : Nat) (a : Nat) (b : Noun) (c : Map Nat) : Option (Map Nat) :=
  let c := put mug c b a
  match b with
  | .atom _ => some c
  | .cell h t => do
      let l ← axes mug n (2 * a) h c
      let r ← axes mug n (2 * a + 1) t c
      uni mug n c (← uni mug n l r)

/-- Two changes side by side in `tred` of `++nude`: what is new in both is new. -/
def Upas.pair : Upas → Upas → Upas
  | .insert p, .insert q => .insert (.cell p q)
  | p, q => .cell p q

/-- The loop of `tred` of `++nude`. -/
def tredLoop (mug : Noun → Nat) (d : Map Nat) (b : Noun) : Upas :=
  match get mug d b with
  | some c => .copy c
  | none =>
      match b with
      | .atom _ => .insert b
      | .cell h t => (tredLoop mug d h).pair (tredLoop mug d t)

/-- `tred` of `++nude`: diff a->b. -/
def tred (mug : Noun → Nat) (n : Nat) (a b : Noun) : Option Upas := do
  let d ← axes mug n 1 a .nil
  return tredLoop mug d b

/-- `++nude`: tree change. -/
def nude (mug : Noun → Nat) (n : Nat) (a b : Noun) : Option (Upas × Upas) := do
  return (← tred mug n a b, ← tred mug n b a)

/-- `++lure`: apply tree diff. -/
def lure (a : Noun) : Upas → Option Noun
  | .cell p q => do return .cell (← lure a p) (← lure a q)
  | .copy p => slot p a
  | .insert p => some p
  | .mutate _ _ => none

/-! ### Patches by filter -/

/-- `((hard ,@) a)`. -/
def hardAtom : Noun → Option Nat
  | .atom a => some a
  | .cell _ _ => none

/-- `((hard (list)) a)`. -/
def hardList : Noun → Option (List Noun)
  | .atom a => if a = 0 then some [] else none
  | .cell i t => do return i :: (← hardList t)

/-- A list as a noun. -/
def listNoun : List Noun → Noun
  | [] => .atom 0
  | i :: t => .cell i (listNoun t)

/-- `++lore` of a noun, as the list that `++lusk` and `++lurk` work on. -/
def loreNoun (a : Noun) : Option (List Noun) := do
  let tez ← lore (← hardAtom a)
  return tez.map Noun.atom

/-- `++diff`: generate patch. -/
def diff (mug : Noun → Nat) (n : Nat) (pum : Umph) (old new : Noun) : Option Udon := do
  match pum with
  | .a =>
      let e ← nude mug n old new
      return .mk pum (.d e.1 e.2)
  | .b =>
      let hel ← cue mug (← hardAtom old)
      let hev ← cue mug (← hardAtom new)
      let e ← nude mug n hel hev
      return .mk pum (.d e.1 e.2)
  | .c =>
      let hel ← loreNoun old
      let hev ← loreNoun new
      return .mk pum (.c (← lusk hel hev (← loss mug hel hev)))
  | .d _ => none

/-- `++lump`: apply patch. -/
def lump (don : Udon) (src : Noun) : Option Noun :=
  match don with
  | .mk .a q =>
      match q with
      | .a _ q => some q
      | .c p => do return listNoun (← lurk (← hardList src) p)
      | .d p _ => lure src p
      | .b _ _ => none
  | .mk .c q => do
      let dst ← loreNoun src
      let tez ←
        match q with
        | .a _ q => hardList q
        | .c p => lurk dst p
        | _ => none
      return .atom (roly (← tez.mapM hardAtom))
  | .mk _ _ => none

/-- `++limp`: invert patch. -/
def limp : Udon → Option Udon
  | .mk p (.a q r) => some (.mk p (.a r q))
  | .mk p (.c q) => some (.mk p (.c (berk q)))
  | .mk p (.d q r) => some (.mk p (.d r q))
  | .mk _ (.b _ _) => none

/-! ### Trees come back -/

section trees

variable {mug : Noun → Nat} {a : Noun}

theorem slot_double {x : Nat} {h t : Noun} (hx : slot x a = some (.cell h t)) :
    slot (2 * x) a = some h ∧ slot (2 * x + 1) a = some t := by
  have hpos : x ≠ 0 := by
    rintro rfl
    rw [slot_zero] at hx
    cases hx
  constructor
  · rw [slot_step (by omega), show 2 * x / 2 = x by omega, hx]
    simp
  · rw [slot_step (by omega), show (2 * x + 1) / 2 = x by omega, hx]
    simp

/-- What the map says of a noun is where it stands. -/
theorem axes_stands {n x : Nat} {b : Noun} {c d : Map Nat} (hx : slot x a = some b)
    (hc : Treap.AllNodes (fun k y => slot y a = some k) c) (hd : axes mug n x b c = some d) :
    Treap.AllNodes (fun k y => slot y a = some k) d := by
  induction b generalizing x c d with
  | atom v =>
      rw [axes] at hd
      cases hd
      exact Treap.allNodes_insert hc hx
  | cell h t ihh iht =>
      have hput := @Treap.allNodes_insert _ _ (gor mug) (vor mug) _ _ _ _ _ _ hc hx
      simp only [axes, Option.bind_eq_bind, Option.bind_eq_some_iff] at hd
      obtain ⟨l, hl, r, hr, u, hu, hd⟩ := hd
      have hl := ihh (slot_double hx).1 hput hl
      have hr := iht (slot_double hx).2 hput hr
      have hv := vor_searchOrder mug
      exact (union_of_splitUni hv hd).allNodes hput ((union_of_splitUni hv hu).allNodes hl hr)

theorem lure_pair {p q : Upas} {h t : Noun} (hp : lure a p = some h) (hq : lure a q = some t) :
    lure a (p.pair q) = some (.cell h t) := by
  unfold Upas.pair
  split
  · cases hp
    cases hq
    rfl
  · simp [lure, hp, hq]

theorem lure_tredLoop {d : Map Nat} (hd : Treap.AllNodes (fun k y => slot y a = some k) d)
    (b : Noun) : lure a (tredLoop mug d b) = some b := by
  have hget : ∀ {b c}, get mug d b = some c → lure a (.copy c) = some b :=
    fun hg => hd.holds (Treap.holds_of_lookup hg)
  induction b with
  | atom v =>
      rw [tredLoop]
      split
      · next c hg => exact hget hg
      · rfl
  | cell h t ihh iht =>
      rw [tredLoop]
      split
      · next c hg => exact hget hg
      · exact lure_pair ihh iht

/-- Applying the tree change gives the other noun. -/
theorem lure_tred {n : Nat} {b : Noun} {p : Upas} (h : tred mug n a b = some p) :
    lure a p = some b := by
  simp only [tred, Option.bind_eq_bind, Option.bind_eq_some_iff] at h
  obtain ⟨d, hd, hp⟩ := h
  cases hp
  have hnil : Treap.AllNodes (fun k y => slot y a = some k) (.nil : Map Nat) := trivial
  exact lure_tredLoop (axes_stands (slot_one a) hnil hd) b

theorem nude_spec {n : Nat} {b : Noun} {e : Upas × Upas} (h : nude mug n a b = some e) :
    lure a e.1 = some b ∧ lure b e.2 = some a := by
  simp only [nude, Option.bind_eq_bind, Option.bind_eq_some_iff] at h
  obtain ⟨p, hp, q, hq, he⟩ := h
  cases he
  exact ⟨lure_tred hp, lure_tred hq⟩

end trees

/-! ### Texts come back if they end in a newline -/

/-- A text that is empty or ends in a newline. -/
def LinedText : Noun → Prop
  | .atom a => Lined a
  | .cell _ _ => False

section texts

variable {mug : Noun → Nat} {old new : Noun} {hel hev : List Noun} {rug : List (Unce Noun)}

theorem loreNoun_inv (h : loreNoun old = some hel) :
    ∃ a tez, old = .atom a ∧ lore a = some tez ∧ hel = tez.map Noun.atom := by
  cases old with
  | atom a =>
      simp only [loreNoun, hardAtom, Option.bind_eq_bind, Option.bind_some,
        Option.bind_eq_some_iff] at h
      obtain ⟨tez, htez, hhel⟩ := h
      cases hhel
      exact ⟨a, tez, rfl, htez, rfl⟩
  | cell h' t => cases h

theorem mapM_hardAtom (tez : List Nat) : (tez.map Noun.atom).mapM hardAtom = some tez := by
  induction tez with
  | nil => rfl
  | cons a tez ih => simp [hardAtom, ih]

/-- A patch of lines gives the other text if that one ends in a newline, and only then. -/
theorem lump_text (ht : Turns rug hel hev) (hold : loreNoun old = some hel)
    (hnew : loreNoun new = some hev) :
    lump (.mk .c (.c rug)) old = some new ↔ LinedText new := by
  obtain ⟨a, tez, rfl, htez, rfl⟩ := loreNoun_inv hnew
  simp only [lump, hold, lurk_turns ht, mapM_hardAtom, Option.bind_eq_bind, Option.bind_some,
    Option.pure_def, Option.some.injEq, Noun.atom.injEq]
  exact roly_lore htez

end texts

/-! ### Round trips -/

theorem lore_zero : lore 0 = some [] := by
  rw [lore, loreLoop, dif_pos rfl]
  rfl

/-- The patch from the empty text to a line `a`, with its newline or without. -/
theorem diff_line {mug : Noun → Nat} {new : Nat} (h : lore new = some [97]) :
    diff mug 0 .c (.atom 0) (.atom new) = some (.mk .c (.c [.edit [] [.atom 97]])) := by
  simp [diff, loreNoun, hardAtom, lore_zero, h, loss, lossSev, lusk, luskMain, Rag.done, Rag.abet]

/-- A patch that `++diff` makes takes the old noun to the new one and, inverted, back, exactly
if it is a patch of nouns, or one of texts that both end in a newline. -/
theorem diff_round_trip {mug : Noun → Nat} {n : Nat} {pum : Umph} {old new : Noun} {don : Udon}
    (hd : diff mug n pum old new = some don) :
    (lump don old = some new ∧ (limp don).bind (lump · new) = some old) ↔
      pum = .a ∨ (pum = .c ∧ LinedText old ∧ LinedText new) := by
  cases pum with
  | a =>
      simp only [diff, Option.bind_eq_bind, Option.bind_eq_some_iff] at hd
      obtain ⟨e, he, hdon⟩ := hd
      cases hdon
      have hback := nude_spec he
      exact ⟨fun _ => .inl rfl, fun _ => hback⟩
  | b =>
      -- the patch is made, but there is no case that applies it
      simp only [diff, Option.bind_eq_bind, Option.bind_eq_some_iff] at hd
      obtain ⟨_, _, _, _, _, _, _, _, e, _, hdon⟩ := hd
      cases hdon
      simp [lump]
  | c =>
      simp only [diff, Option.bind_eq_bind, Option.bind_eq_some_iff] at hd
      obtain ⟨hel, hold, hev, hnew, lcs, _, rug, hrug, hdon⟩ := hd
      cases hdon
      have ht := lusk_turns hrug
      have hto := lump_text ht hold hnew
      have hfro := lump_text ht.berk hnew hold
      simp only [limp, Option.bind_some, hto, hfro]
      simp [and_comm]
  | d p => cases hd

theorem diff_round_trip_line :
    lump (.mk .c (.c [.edit [] [.atom 97]])) (.atom 0) = some (.atom 2657) ∧
      (limp (.mk .c (.c [.edit [] [.atom 97]]))).bind (lump · (.atom 2657)) = some (.atom 0) := by
  have hlore : lore 2657 = some [97] := by simp [lore, loreLoop, loreMeg]
  have hmet : met 3 2657 = 2 := met_bytes_eq (n := 1) (by decide) (by decide)
  refine (diff_round_trip (@diff_line mug _ hlore)).mpr (.inr ⟨rfl, .inl rfl, .inr ?_⟩)
  rw [hmet, cut_byte]
  decide

/-- The patch from the empty text to `a` adds a newline, and a patch of jamfiles cannot be
applied. -/
theorem diff_forgets :
    (diff mug 0 .c (.atom 0) (.atom 97) = some (.mk .c (.c [.edit [] [.atom 97]])) ∧
      lump (.mk .c (.c [.edit [] [.atom 97]])) (.atom 0) = some (.atom 2657)) ∧
    (diff mug 0 .b (.atom (jam mug (.atom 0))) (.atom (jam mug (.atom 0))) =
        some (.mk .b (.d (.copy 1) (.copy 1))) ∧
      lump (.mk .b (.d (.copy 1) (.copy 1))) (.atom (jam mug (.atom 0))) = none) := by
  refine ⟨⟨diff_line ?_, ?_⟩, ?_, rfl⟩
  · simp [lore, loreLoop, loreMeg]
  · have hmet : met 3 97 = 1 := met_bytes_eq (n := 0) (by decide) (by decide)
    simp [lump, loreNoun, hardAtom, lore_zero, lurk, lurkLoop, lurkDrop, roly, rap, hmet]
  · simp [diff, hardAtom, cue_jam_hoon, nude, tred, axes, tredLoop, get, put, Treap.insert,
      Treap.lookup]

end Vere.Hoon
