import Vere.Hoon.Cord
import Vere.Lib.Reach

/-!
# Vere.Ames.Will

Identity logic (`ames.hoon`, section 4aA, and `deng`, `cluy` and `clon` of `++lax`): a ship is
known by its will, a chain of deeds in which each one is signed by the next.

The will that a packet carries is laid on the will that is stored, by `++grip`. What comes out
is a chain again (`grip_chained`), whatever the packet says. But nothing compares the ship
that the first deed names with the ship the packet claims to come from, and where the packet
brings one deed alone, `++grip` goes down the stored will for its parent and drops what stands
above. So the first deed of the stored will is the first deed of the packet's (`grip_head`),
and names the right ship at no smaller life just if that one does.

The cryptosuite and the hashes are parameters, and so is the table of imperial keyprints.
-/

namespace Vere.Ames

open Vere.Hoon Vere.Lib

/-- `++rank`: ship width class. -/
inductive Rank
  | czar
  | king
  | duke
  | earl
  | pawn
  deriving DecidableEq, Repr

/-- `++clan`: ship to rank. -/
def clan (who : Nat) : Option Rank :=
  let wid := met 3 who
  if wid ≤ 1 then some .czar
  else if wid = 2 then some .king
  else if wid ≤ 4 then some .duke
  else if wid ≤ 8 then some .earl
  else if wid ≤ 16 then some .pawn
  else none

/-- `++sein`: autoboss. -/
def sein (who : Nat) : Option Nat := do
  match ← clan who with
  | .czar => return who
  | .king => return «end» 3 1 who
  | .duke => return «end» 4 1 who
  | .earl => return «end» 5 1 who
  | .pawn => return 0

/-- `++bray`: our life, our parent's life, us, now. -/
structure Bray where
  p : Nat
  q : Option Nat
  r : Nat
  s : Nat
  deriving DecidableEq, Repr

/-- `++step`: identity stage. The general identity `q` is not looked at. -/
structure Step where
  p : Bray
  q : Noun
  r : Nat
  deriving DecidableEq, Repr

/-- `++deed`: signature, stage, whether it is fake. -/
structure Deed where
  p : Nat
  q : Step
  r : Bool
  deriving DecidableEq, Repr

/-- `++will`: certificate. -/
abbrev Will := List Deed

/-- A unit as a noun. -/
def unitNoun : Option Nat → Noun
  | none => .atom 0
  | some a => .cell (.atom 0) (.atom a)

/-- A stage as a noun, for `++sham`. -/
def Step.noun (a : Step) : Noun :=
  .cell (.cell (.atom a.p.p) (.cell (unitNoun a.p.q) (.cell (.atom a.p.r) (.atom a.p.s))))
    (.cell a.q (.atom a.r))

/-- `++acru`: what is used here of an asymmetric cryptosuite. -/
structure Acru where
  /-- `sure:as`: authenticate from us. -/
  sure : Nat → Nat → Option Nat
  /-- `tear:as`: accept from a public key. -/
  tear : Nat → Nat → Option (Nat × Nat)
  /-- `fig:ex`: fingerprint. -/
  fig : Nat
  /-- `pub:ex`: public key. -/
  pub : Nat

/-- The cryptography that the identity logic is built on. -/
structure Suite where
  /-- `++haul`: activate a public key. It crashes on a key of another suite. -/
  haul : Nat → Option Acru
  /-- `++sham`: noun hash. -/
  sham : Noun → Nat
  /-- `++shaf`: half sha-256. -/
  shaf : Nat → Nat → Nat
  /-- `++zeno`: imperial keyprint. It crashes outside of its table. -/
  zeno : Nat → Option Nat

/-- The term `%meld`. -/
def melTerm : Nat := 0x646c656d

/-- The term `%self`. -/
def selTerm : Nat := 0x666c6573

/-- `++melt`: proper connect. A crash in it is a crash of `++meld`, which asserts it. -/
def melt (new old : Deed) : Bool :=
  match clan new.q.p.r with
  | none => false
  | some rac =>
      new.r == old.r &&
        match new.q.p.q with
        | none =>
            old.q.p.r == new.q.p.r &&
              (rac != .earl && (new.q.p.p != 0 && old.q.p.p == new.q.p.p - 1))
        | some u =>
            (rac != .pawn && rac != .czar) &&
              ((new.q.p.p == 0 || rac == .earl) &&
                (some old.q.p.r == sein new.q.p.r && old.q.p.p == u))

/-- `++meld`: verify connect. It says yes or crashes; a crash is `false`. -/
def meld (cry : Suite) (new old : Deed) : Bool :=
  melt new old &&
    match cry.haul old.q.r with
    | none => false
    | some loy => loy.sure 0 new.p == some (cry.shaf melTerm (cry.sham new.q.noun))

/-- `++pier`: initial deed. It says yes or crashes. -/
def pier (cry : Suite) (wed : Deed) : Bool :=
  match clan wed.q.p.r, cry.haul wed.q.r with
  | some rac, some loy =>
      if wed.r && rac == .czar then true
      else
        wed.q.p.p == 0 &&
          (match rac with
            | .czar => some loy.fig == cry.zeno wed.q.p.r
            | .pawn => loy.fig == wed.q.p.r
            | _ => false) &&
          loy.sure 0 wed.p == some (cry.shaf selTerm (cry.sham wed.q.noun))
  | _, _ => false

/-- The loop of `++grip`: the last of the new deeds is signed by a parent, who is looked for
in the stored will. -/
def gripLoop (cry : Suite) (wet : Deed) (rul u : Nat) : Will → Option Will
  | [] => none
  | i :: t =>
      if rul = i.q.p.r ∧ i.q.p.p = u then
        if meld cry wet i then some (wet :: i :: t) else none
      else gripLoop cry wet rul u t

/-- `++grip`: extend will. -/
def grip (cry : Suite) : Will → Will → Option Will
  | [], law => some law
  | [i], law =>
      if [i] = law then some law
      else
        match law with
        | [] => if pier cry i then some [i] else none
        | j :: t =>
            match i.q.p.q with
            | none => if meld cry i j then some (i :: j :: t) else none
            | some u => do gripLoop cry i (← sein i.q.p.r) u (j :: t)
  | i :: j :: t, law =>
      if i :: j :: t = law then some law
      else if meld cry i j then do return i :: (← grip cry (j :: t) law)
      else none

/-- `clon` of `++lax`: the life of a friend. -/
def clon : Will → Nat
  | [] => 0
  | i :: _ => i.q.p.p

/-- A packet that carries a will, `%open` or `%full`: lives, will and signed content. -/
inductive Mex
  | «open» (q : Nat) (wil : Will) (r : Nat)
  | full (p q : Nat) (wil : Will) (r : Nat)

/-- The will of a packet. -/
def Mex.wil : Mex → Will
  | .open _ wil _ => wil
  | .full _ _ wil _ => wil

/-- `cluy` of `++lax`: client crypto. -/
def cluy (cry : Suite) (fak : Bool) : Will → Option (Nat × Acru)
  | [] => none
  | i :: _ => if fak = i.r then do return (i.q.p.p, ← cry.haul i.q.r) else none

/-- What `%open` and `%full` of `++chew` do to the stored will: `deng`, and the checks that
come after it. `sev` are our own keys by life. The rest of the event, which handles the
content, can crash but keeps the will. -/
def chewWill (cry : Suite) (fak : Bool) (sev : Nat → Option Acru) (mex : Mex) (lew : Will) :
    Option Will :=
  match mex with
  | .open q wil r => do
      let lew ← grip cry wil lew
      let wug ← cluy cry fak lew
      if q = wug.1 then do
        let _ ← wug.2.sure 0 r
        return lew
      else none
  | .full p q wil r => do
      let lew ← grip cry wil lew
      let wug ← cluy cry fak lew
      if q = wug.1 then do
        let gey ← sev p
        let _ ← gey.tear wug.2.pub r
        return lew
      else none

/-! ### The stored will is a chain -/

/-- Each deed is signed by the next, and the last is an initial one. -/
def Chained (cry : Suite) : Will → Prop
  | [] => False
  | [i] => pier cry i = true
  | i :: j :: t => meld cry i j = true ∧ Chained cry (j :: t)

/-- The will starts with a deed of this ship. -/
def Names (her : Nat) : Will → Prop
  | [] => False
  | i :: _ => i.q.p.r = her

section chain

variable {cry : Suite} {wet law new : Will} {i : Deed}

theorem gripLoop_head {rul u : Nat} (hg : gripLoop cry i rul u law = some new) :
    new.head? = some i := by
  induction law with
  | nil => cases hg
  | cons j t ih =>
      rw [gripLoop] at hg
      split at hg
      · split at hg
        · cases hg
          rfl
        · cases hg
      · exact ih hg

/-- The will that is stored starts with the first deed that came in. -/
theorem grip_head (hg : grip cry (i :: wet) law = some new) : new.head? = some i := by
  cases wet with
  | nil =>
      simp only [grip] at hg
      split at hg
      · next heq =>
        cases hg
        rw [← heq]
        rfl
      · cases law with
        | nil =>
            dsimp only at hg
            split at hg
            · cases hg
              rfl
            · cases hg
        | cons j t =>
            dsimp only at hg
            split at hg
            · split at hg
              · cases hg
                rfl
              · cases hg
            · obtain ⟨rul, -, hg⟩ := Option.bind_eq_some_iff.mp hg
              exact gripLoop_head hg
  | cons j t =>
      simp only [grip] at hg
      split at hg
      · next heq =>
        cases hg
        rw [← heq]
        rfl
      · split at hg
        · obtain ⟨tail, -, hg⟩ := Option.bind_eq_some_iff.mp hg
          cases hg
          rfl
        · cases hg

theorem gripLoop_chained {rul u : Nat} (h : Chained cry law)
    (hg : gripLoop cry i rul u law = some new) : Chained cry new := by
  induction law with
  | nil => cases hg
  | cons j t ih =>
      rw [gripLoop] at hg
      split at hg
      · split at hg
        · next hm =>
          cases hg
          exact ⟨hm, h⟩
        · cases hg
      · -- what stands above the parent is dropped
        cases t with
        | nil => cases hg
        | cons k t => exact ih h.2 hg

/-- What `++grip` makes of a chain is a chain. -/
theorem grip_chained (h : law = [] ∨ Chained cry law) (hg : grip cry wet law = some new) :
    new = [] ∨ Chained cry new := by
  induction wet generalizing new with
  | nil =>
      simp only [grip] at hg
      cases hg
      exact h
  | cons i wet ih =>
      cases wet with
      | nil =>
          simp only [grip] at hg
          split at hg
          · cases hg
            exact h
          · cases law with
            | nil =>
                dsimp only at hg
                split at hg
                · next hp =>
                  cases hg
                  exact .inr hp
                · cases hg
            | cons j t =>
                have hlaw := h.resolve_left (List.cons_ne_nil j t)
                dsimp only at hg
                split at hg
                · split at hg
                  · next hm =>
                    cases hg
                    exact .inr ⟨hm, hlaw⟩
                  · cases hg
                · obtain ⟨rul, -, hg⟩ := Option.bind_eq_some_iff.mp hg
                  exact .inr (gripLoop_chained hlaw hg)
      | cons j t =>
          simp only [grip] at hg
          split at hg
          · cases hg
            exact h
          · split at hg
            · next hm =>
              obtain ⟨tail, htail, hg⟩ := Option.bind_eq_some_iff.mp hg
              cases hg
              have hhead := grip_head htail
              cases tail with
              | nil => cases hhead
              | cons k tail =>
                  cases hhead
                  have hchain := (ih htail).resolve_left (List.cons_ne_nil _ _)
                  exact .inr ⟨hm, hchain⟩
            · cases hg

end chain

/-! ### Packets -/

/-- The will is empty, or is a chain whose first deed is of this ship. -/
def Bound (cry : Suite) (her : Nat) (lew : Will) : Prop :=
  lew = [] ∨ (Names her lew ∧ Chained cry lew)

/-- The first deed that the packet brings is of this ship, at no smaller life than the one
that is stored. -/
def Due (her : Nat) (lew : Will) (mex : Mex) : Prop :=
  ∀ i ∈ mex.wil.head?, i.q.p.r = her ∧ clon lew ≤ i.q.p.p

section packets

variable {cry : Suite} {fak : Bool} {sev : Nat → Option Acru} {mex : Mex} {her : Nat}
  {lew new : Will}

/-- A packet that is taken has its will laid on the stored one, and leaves one. -/
theorem chewWill_inv (h : chewWill cry fak sev mex lew = some new) :
    grip cry mex.wil lew = some new ∧ new ≠ [] := by
  have hcluy : ∀ {wug}, cluy cry fak new = some wug → new ≠ [] := by
    rintro wug hw rfl
    cases hw
  cases mex with
  | «open» q wil r =>
      simp only [chewWill, Option.bind_eq_bind, Option.bind_eq_some_iff] at h
      obtain ⟨lew', hg, wug, hw, h⟩ := h
      split at h
      · obtain ⟨_, -, h⟩ := Option.bind_eq_some_iff.mp h
        cases h
        exact ⟨hg, hcluy hw⟩
      · cases h
  | full p q wil r =>
      simp only [chewWill, Option.bind_eq_bind, Option.bind_eq_some_iff] at h
      obtain ⟨lew', hg, wug, hw, h⟩ := h
      split at h
      · simp only [Option.bind_eq_some_iff] at h
        obtain ⟨_, -, _, -, h⟩ := h
        cases h
        exact ⟨hg, hcluy hw⟩
      · cases h

/-- One packet keeps the binding just if its first deed is due. -/
theorem bound_step (hb : Bound cry her lew) (h : chewWill cry fak sev mex lew = some new) :
    (Bound cry her new ∧ clon lew ≤ clon new) ↔ Due her lew mex := by
  obtain ⟨hg, hne⟩ := chewWill_inv h
  have hchain := (grip_chained (hb.imp_right And.right) hg).resolve_left hne
  rw [Bound, or_iff_right hne, and_iff_left hchain, Due]
  cases hwil : mex.wil with
  | nil =>
      rw [hwil, grip] at hg
      cases hg
      have hnames := (hb.resolve_left hne).1
      simpa using hnames
  | cons i wet =>
      rw [hwil] at hg
      have hhead := grip_head hg
      cases new with
      | nil => cases hhead
      | cons j t =>
          cases hhead
          simp [Names, clon]

end packets

/-- Packets whose first deed is due keep the stored will a chain of this ship, and its life
never goes down; a packet whose first deed is not due breaks that. -/
theorem will_bound (cry : Suite) (fak : Bool) (sev : Nat → Option Acru) (her : Nat) (lew : Will)
    (hb : Bound cry her lew) :
    (∀ new, Reachable lew (chewWill cry fak sev) (Due her) new →
      Bound cry her new ∧ clon lew ≤ clon new) ∧
    ∀ mex new, chewWill cry fak sev mex lew = some new →
      ((Bound cry her new ∧ clon lew ≤ clon new) ↔ Due her lew mex) := by
  refine ⟨fun new hr => ?_, fun mex new h => bound_step hb h⟩
  refine Reachable.invariant (P := fun s => Bound cry her s ∧ clon lew ≤ clon s) ⟨hb, le_rfl⟩ ?_ hr
  rintro s mex s' ⟨hs, hle⟩ hdue h
  obtain ⟨hs', hle'⟩ := (bound_step hs h).mpr hdue
  exact ⟨hs', hle.trans hle'⟩

/-! ### A network of two ships

The signature of a deed is the hash it has to be of, and a fake galaxy needs none. -/

/-- A suite in which a signature is what it signs. -/
def plainSuite : Suite where
  haul a := some ⟨fun _ b => some b, fun _ b => some (0, b), a, a⟩
  sham _ := 0
  shaf a b := a + b
  zeno _ := none

/-- A deed of the galaxy `~zod`. -/
def zodDeed : Deed := ⟨0, ⟨⟨0, none, 0, 0⟩, .atom 0, 0⟩, true⟩

/-- A deed of the star `0x100`, at a life and signed by the one before or by `~zod`. -/
def starDeed (life : Nat) (par : Option Nat) : Deed :=
  ⟨melTerm, ⟨⟨life, par, 0x100, 0⟩, .atom 0, 0⟩, true⟩

theorem clan_zod : clan 0 = some .czar := by
  simp [clan, met_bytes_zero]

theorem clan_star : clan 0x100 = some .king := by
  have h : met 3 0x100 = 2 := met_bytes_eq (n := 1) (by decide) (by decide)
  simp [clan, h]

theorem sein_star : sein 0x100 = some 0 := by
  simp [sein, clan_star]

/-- The will of the star at its second life. -/
def starWill : Will := [starDeed 1 none, starDeed 0 (some 0), zodDeed]

theorem starWill_bound : Bound plainSuite 0x100 starWill := by
  refine .inr ⟨rfl, ?_, ?_, ?_⟩
  · simp [meld, melt, starDeed, clan_star, plainSuite]
  · simp [meld, melt, starDeed, zodDeed, clan_star, sein_star, plainSuite]
  · change pier plainSuite zodDeed = true
    simp [pier, zodDeed, clan_zod, plainSuite]

theorem chewWill_star :
    chewWill plainSuite true (fun _ => none) (.open 1 starWill 0) starWill = some starWill := by
  simp [chewWill, grip, starWill, cluy, starDeed, plainSuite]

/-- The star's own will, once more. -/
theorem will_bound_star :
    Bound plainSuite 0x100 starWill ∧ clon starWill ≤ clon starWill :=
  (will_bound plainSuite true (fun _ => none) 0x100 starWill starWill_bound).1 starWill
    (.step .init (by rintro i ⟨⟩; exact ⟨rfl, le_rfl⟩) chewWill_star)

/-- A packet that claims to come from `~per` and brings the will of `~zod` is taken, and `~zod`
is then stored as `~per`; and the star's first deed, sent again alone, takes its life back to
zero. -/
theorem will_not_bound :
    (chewWill plainSuite true (fun _ => none) (.open 0 [zodDeed] 0) [] = some [zodDeed] ∧
      ¬Bound plainSuite 5 [zodDeed]) ∧
    chewWill plainSuite true (fun _ => none) (.open 0 [starDeed 0 (some 0)] 0) starWill =
        some [starDeed 0 (some 0), zodDeed] ∧
      clon [starDeed 0 (some 0), zodDeed] < clon starWill := by
  refine ⟨⟨?_, ?_⟩, ?_, ?_⟩
  · simp [chewWill, grip, pier, zodDeed, clan_zod, cluy, plainSuite]
  · simp [Bound, Names, zodDeed]
  · simp [chewWill, grip, gripLoop, meld, melt, starWill, starDeed, zodDeed, clan_star, sein_star,
      cluy, plainSuite]
  · decide

end Vere.Ames
