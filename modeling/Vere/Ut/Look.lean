import Vere.Hoon.Map
import Vere.Ut.Comb
import Vere.Ut.Type

/-!
# Vere.Ut.Look

Where the arms of a core are: `+-harp:ut` lays a map of arms out as a battery, and `++look`
gives the axis of an arm in it.

The battery has the shape of the map: a leaf is its formula, any other node has its formula
at the head, and its only branch, or the pair of its branches, at the tail. Both arms follow
the map on their own, and they agree for every map (`look_slot`).
-/

namespace Vere.Ut

open Vere.Hoon Vere.Lib Vere.Nock

/-- `++look`, from an axis down. -/
def lookAt (mug : Noun → Nat) (cog : Noun) : Map Foot → Nat → Option (Nat × Foot)
  | .nil, _ => none
  | .node p q .nil .nil, axe => if cog = p then some (axe, q) else none
  | .node p q .nil r, axe =>
      if cog = p then some (peg axe 2, q)
      else if gor mug cog p then none
      else lookAt mug cog r (peg axe 3)
  | .node p q l .nil, axe =>
      if cog = p then some (peg axe 2, q)
      else if gor mug cog p then lookAt mug cog l (peg axe 3)
      else none
  | .node p q l r, axe =>
      if cog = p then some (peg axe 2, q)
      else if gor mug cog p then lookAt mug cog l (peg axe 6)
      else lookAt mug cog r (peg axe 7)

/-- `++look`. -/
def look (mug : Noun → Nat) (cog : Noun) (dab : Map Foot) : Option (Nat × Foot) :=
  lookAt mug cog dab 1

/-- `vad` of `+-harp:ut`: the formula of an arm. `mint` is told whether `vet` is turned off. -/
def vad (mint : Bool → Noun → Virt Noun) : Foot → Virt Noun
  | .ash p => mint false p
  | .elm p => mint true p
  | _ => throw ()

/-- `+-harp:ut`. -/
def harp (mint : Bool → Noun → Virt Noun) : Map Foot → Virt Noun
  | .nil => return .atom 0
  | .node _ q .nil .nil => vad mint q
  | .node _ q .nil r => do
      let v ← vad mint q
      let t ← harp mint r
      return .cell v t
  | .node _ q l .nil => do
      let v ← vad mint q
      let t ← harp mint l
      return .cell v t
  | .node _ q l r => do
      let v ← vad mint q
      let h ← harp mint l
      let t ← harp mint r
      return .cell v (.cell h t)

/-! ### What is found -/

section look

variable {mug : Noun → Nat} {mint : Bool → Noun → Virt Noun} {cog : Noun}

/-- `++look` finds what `+-get:by` finds. -/
theorem lookAt_get (mug : Noun → Nat) (cog : Noun) (dab : Map Foot) (axe : Nat) :
    (lookAt mug cog dab axe).map (·.2) = Treap.lookup (gor mug) dab cog := by
  induction dab generalizing axe with
  | nil => rfl
  | node p q l r ihl ihr =>
      rw [Treap.lookup]
      by_cases hcog : cog = p
      · cases l <;> cases r <;> simp [lookAt, hcog]
      by_cases hgor : gor mug cog p = true
      · rw [if_neg hcog, if_pos hgor]
        cases l with
        | nil => cases r <;> simp [lookAt, hcog, hgor, Treap.lookup]
        | node => cases r <;> simpa [lookAt, hcog, hgor] using ihl _
      · rw [if_neg hcog, if_neg hgor]
        cases r with
        | nil => cases l <;> simp [lookAt, hcog, hgor, Treap.lookup]
        | node => cases l <;> simpa [lookAt, hcog, hgor] using ihr _

/-- A step that has a value. -/
theorem virt_bind {α β : Type} {x : Virt α} {f : α → Virt β} {b : β} (h : (x >>= f) = pure b) :
    ∃ a, x = pure a ∧ f a = pure b := by
  match x with
  | none => cases h
  | some (.error ()) => cases h
  | some (.ok a) => exact ⟨a, rfl, h⟩

/-- In a noun that has the battery at the axis where the search begins, the arm's formula is at
the axis that is found. -/
theorem look_slot {dab : Map Foot} {axe x : Nat} {foot : Foot} {s bat : Noun}
    (hbat : harp mint dab = pure bat) (hs : slot axe s = some bat)
    (hlook : lookAt mug cog dab axe = some (x, foot)) :
    ∃ f, vad mint foot = pure f ∧ slot x s = some f := by
  induction dab generalizing axe bat with
  | nil => cases hlook
  | node p q l r ihl ihr =>
      -- the noun at an axis below the battery
      have hbelow : ∀ {k : Nat} {n : Noun}, slot k bat = some n → slot (peg axe k) s = some n := by
        intro k n hn
        rw [slot_peg (pos_of_slot hs) (pos_of_slot hn), hs]
        exact hn
      cases l with
      | nil =>
          cases r with
          | nil =>
              simp only [lookAt] at hlook
              split at hlook
              · cases hlook
                exact ⟨bat, hbat, hs⟩
              · cases hlook
          | node p' q' l' r' =>
              obtain ⟨v, hv, hbat⟩ := virt_bind hbat
              obtain ⟨t, ht, hbat⟩ := virt_bind hbat
              cases hbat
              simp only [lookAt] at hlook
              split at hlook
              · cases hlook
                exact ⟨v, hv, hbelow (slot_two v t)⟩
              · split at hlook
                · cases hlook
                · exact ihr ht (hbelow (slot_three v t)) hlook
      | node p' q' l' r' =>
          cases r with
          | nil =>
              obtain ⟨v, hv, hbat⟩ := virt_bind hbat
              obtain ⟨t, ht, hbat⟩ := virt_bind hbat
              cases hbat
              simp only [lookAt] at hlook
              split at hlook
              · cases hlook
                exact ⟨v, hv, hbelow (slot_two v t)⟩
              · split at hlook
                · exact ihl ht (hbelow (slot_three v t)) hlook
                · cases hlook
          | node p'' q'' l'' r'' =>
              obtain ⟨v, hv, hbat⟩ := virt_bind hbat
              obtain ⟨h, hh, hbat⟩ := virt_bind hbat
              obtain ⟨t, ht, hbat⟩ := virt_bind hbat
              cases hbat
              have hsix : slot 6 (.cell v (.cell h t)) = some h := by
                rw [slot_step (by omega), slot_three]
                rfl
              have hseven : slot 7 (.cell v (.cell h t)) = some t := by
                rw [slot_step (by omega), slot_three]
                rfl
              simp only [lookAt] at hlook
              split at hlook
              · cases hlook
                exact ⟨v, hv, hbelow (slot_two v _)⟩
              · split at hlook
                · exact ihl hh (hbelow hsix) hlook
                · exact ihr ht (hbelow hseven) hlook

/-- Every foot of the map is one that `+-harp:ut` compiles. -/
def Compiles (mint : Bool → Noun → Virt Noun) : Map Foot → Prop
  | .nil => True
  | .node _ q l r => (∃ f, vad mint q = pure f) ∧ Compiles mint l ∧ Compiles mint r

/-- `+-harp:ut` makes a battery of feet that compile. -/
theorem harp_pure {dab : Map Foot} (h : Compiles mint dab) : ∃ bat, harp mint dab = pure bat := by
  induction dab with
  | nil => exact ⟨_, rfl⟩
  | node p q l r ihl ihr =>
      obtain ⟨⟨f, hf⟩, hl, hr⟩ := h
      obtain ⟨bl, hbl⟩ := ihl hl
      obtain ⟨br, hbr⟩ := ihr hr
      cases l <;> cases r <;> simp only [harp, hf, hbl, hbr, pure_bind] <;> exact ⟨_, rfl⟩

theorem compiles_linkLeft {hp : Noun → Noun → Bool} {p : Noun} {q : Foot} {d r : Map Foot}
    (h : Compiles mint (.node p q d r)) : Compiles mint (Treap.linkLeft hp p q d r) := by
  cases d with
  | nil => exact h
  | node p' q' l' r' =>
      rw [Treap.linkLeft]
      split
      · exact h
      · exact ⟨h.2.1.1, h.2.1.2.1, h.1, h.2.1.2.2, h.2.2⟩

theorem compiles_linkRight {hp : Noun → Noun → Bool} {p : Noun} {q : Foot} {l d : Map Foot}
    (h : Compiles mint (.node p q l d)) : Compiles mint (Treap.linkRight hp p q l d) := by
  cases d with
  | nil => exact h
  | node p' q' l' r' =>
      rw [Treap.linkRight]
      split
      · exact h
      · exact ⟨h.2.2.1, ⟨h.1, h.2.1, h.2.2.2.1⟩, h.2.2.2.2⟩

theorem compiles_put {dab : Map Foot} {foot : Foot} (h : Compiles mint dab)
    (hfoot : ∃ f, vad mint foot = pure f) (b : Noun) : Compiles mint (put mug dab b foot) := by
  unfold put
  induction dab with
  | nil => exact ⟨hfoot, trivial, trivial⟩
  | node p q l r ihl ihr =>
      rw [Treap.insert]
      split
      · split
        · exact h
        · exact ⟨hfoot, h.2⟩
      · split
        · exact compiles_linkLeft ⟨h.1, ihl h.2.1, h.2.2⟩
        · exact compiles_linkRight ⟨h.1, h.2.1, ihr h.2.2⟩

end look

/-! ### Calling an arm -/

/-- Operator 9 runs the formula at its axis of the core. -/
theorem gives_nine {a p : Noun} {x : Nat} {c : Nock} : (Nock.nine x c).Gives a p ↔
    ∃ core f, c.Gives a core ∧ slot x core = some f ∧ Tar core f p := by
  have hseven : (Nock.nine x c).Gives a p
      ↔ (Nock.seven c (.nock (.slot 1) (.slot x))).Gives a p := by
    refine ⟨fun h => ?_, .nine⟩
    cases h with
    | nine h => exact h
  rw [hseven, gives_seven]
  constructor
  · rintro ⟨core, hcore, h⟩
    obtain ⟨s, f, hs, hf, hp⟩ := gives_nock.mp h
    rw [gives_slot, slot_one] at hs
    cases hs
    exact ⟨_, f, hcore, gives_slot.mp hf, hp⟩
  · rintro ⟨core, f, hcore, hf, hp⟩
    exact ⟨core, hcore, gives_nock.mpr ⟨core, f, gives_slot.mpr (slot_one core), gives_slot.mpr hf, hp⟩⟩

/-- The arm at an axis of the battery, called on a core. -/
theorem call_gives {x : Nat} {bat pay f p : Noun} (hf : slot x bat = some f) :
    (Nock.nine (peg 2 x) (.slot 1)).Gives (.cell bat pay) p ↔ Tar (.cell bat pay) f p := by
  have hslot : slot (peg 2 x) (.cell bat pay) = some f := by
    rw [slot_peg (by omega) (pos_of_slot hf), slot_two]
    exact hf
  rw [gives_nine]
  constructor
  · rintro ⟨core, g, hcore, hg, hp⟩
    rw [gives_slot, slot_one] at hcore
    cases hcore
    rw [hslot] at hg
    cases hg
    exact hp
  · intro hp
    exact ⟨_, f, gives_slot.mpr (slot_one _), hslot, hp⟩

end Vere.Ut
