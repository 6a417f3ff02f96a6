import Vere.Jets.Comb
import Vere.Jets.Mug
import Vere.Ut.Look

/-!
# Vere.Jets.Look

The jet of `++look`, `gen164/6/look.c`, and what is true of an arm that is found
(`look_finds`).
-/

namespace Vere.Jets

open Vere.Hoon Vere.Lib Vere.Nock

/-! ### The jet -/

/-- `u2_dust`. -/
def dust : Noun → Bool
  | .cell _ _ => true
  | .atom _ => false

/-- What `_look_in` returns at a node: the axis and the foot, or the rest of the search. -/
def lookNode (cog pn qn : Noun) (axe : Jet Nat) (rest : Jet Noun) : Jet Noun :=
  if dust qn && cog = pn then axe.map fun x => .cell (.atom 0) (.cell (.atom x) qn) else rest

/-- `_look_in`. -/
def lookIn (mug : Noun → Nat) (cog dab : Noun) (axe : Nat) : Jet Noun :=
  match dab with
  | .atom 0 => .ok (.atom 0)
  | .cell (.atom _) (.cell _ _) => .error .fail
  | .cell (.cell pn qn) (.cell l r) =>
      if l = .atom 0 ∧ r = .atom 0 then lookNode cog pn qn (.ok axe) (.ok (.atom 0))
      else if l = .atom 0 then
        lookNode cog pn qn (peg axe 2)
          (if gor mug cog pn then .ok (.atom 0)
          else do
            let axe ← peg axe 3
            lookIn mug cog r axe)
      else if r = .atom 0 then
        lookNode cog pn qn (peg axe 2)
          (if gor mug cog pn then do
            let axe ← peg axe 3
            lookIn mug cog l axe
          else .ok (.atom 0))
      else
        lookNode cog pn qn (peg axe 2)
          (if gor mug cog pn then do
            let axe ← peg axe 6
            lookIn mug cog l axe
          else do
            let axe ← peg axe 7
            lookIn mug cog r axe)
  -- the parts of a map that is none
  | _ => .error .fault

/-- `look`. -/
def look (mug : Noun → Nat) (cog dab : Noun) : Jet Noun := lookIn mug cog dab 1

/-! ### Its data -/

/-- A constant by its letters. -/
def tas (s : List Char) : Noun := .atom (s.foldr (fun c n => c.toNat + 256 * n) 0)

mutual

/-- The noun of a foot. -/
def footNoun : Ut.Foot → Noun
  | .ash p => .cell (tas ['a', 's', 'h']) p
  | .elm p => .cell (tas ['e', 'l', 'm']) p
  | .oak => .cell (tas ['o', 'a', 'k']) (.atom 0)
  | .yew p => .cell (tas ['y', 'e', 'w']) (armsNoun p)

/-- The noun of the arms in a foot. -/
def armsNoun : Ut.Arms → Noun
  | .nil => .atom 0
  | .node p q l r => .cell (.cell (.atom p) (footNoun q)) (.cell (armsNoun l) (armsNoun r))

end

/-- The noun of a map of arms. -/
def dabNoun : Map Ut.Foot → Noun
  | .nil => .atom 0
  | .node k v l r => .cell (.cell k (footNoun v)) (.cell (dabNoun l) (dabNoun r))

/-- The noun of what a search finds. -/
def postNoun : Option (Nat × Ut.Foot) → Noun
  | none => .atom 0
  | some (axe, foot) => .cell (.atom 0) (.cell (.atom axe) (footNoun foot))

theorem dust_footNoun (foot : Ut.Foot) : dust (footNoun foot) = true := by
  cases foot <;> rfl

theorem dabNoun_eq_zero (dab : Map Ut.Foot) : dabNoun dab = .atom 0 ↔ dab = .nil := by
  cases dab <;> simp [dabNoun]

/-! ### Agreement -/

section agree

variable {cog : Nat}

theorem gor_atom (a b : Nat) : gor u2Mug (.atom a) (.atom b) = Hoon.gor Hoon.mug (.atom a) (.atom b) := by
  rw [gor_eq, Hoon.gor, Hoon.gor, keyOrder, keyOrder, u2Mug_atom_eq, u2Mug_atom_eq]

/-- An axis with room for three bits can be put down. -/
theorem peg_room {a b : Nat} (hb : 0 < b) (hb' : b < 8) (ha : a.size < 2 ^ 30) :
    peg a b = .ok (Ut.peg a b) := by
  have hsize : b.size ≤ 3 := Nat.size_le.mpr hb'
  exact peg_eq hb (by omega)

/-- On a map of names that fits in the loom the jet is the arm. -/
theorem lookIn_eq {dab : Map Ut.Foot} (hkeys : Treap.AllKeys (fun k => ∃ a, k = .atom a) dab)
    {axe : Nat} (hsize : axe.size + Ut.depth (dabNoun dab) < 2 ^ 30) :
    lookIn u2Mug (.atom cog) (dabNoun dab) axe
      = .ok (postNoun (Ut.lookAt Hoon.mug (.atom cog) dab axe)) := by
  induction dab generalizing axe with
  | nil => rfl
  | node k v l r ihl ihr =>
      obtain ⟨⟨p, rfl⟩, hl, hr⟩ := hkeys
      simp only [dabNoun, Ut.depth] at hsize
      have hroom : axe.size < 2 ^ 30 := by omega
      have h3 := Ut.size_peg axe (show 0 < 3 by omega)
      have h6 := Ut.size_peg axe (show 0 < 6 by omega)
      have h7 := Ut.size_peg axe (show 0 < 7 by omega)
      rw [show Nat.size 3 = 2 by decide] at h3
      rw [show Nat.size 6 = 3 by decide] at h6
      rw [show Nat.size 7 = 3 by decide] at h7
      have hl3 := @ihl hl (Ut.peg axe 3) (by omega)
      have hl6 := @ihl hl (Ut.peg axe 6) (by omega)
      have hr3 := @ihr hr (Ut.peg axe 3) (by omega)
      have hr7 := @ihr hr (Ut.peg axe 7) (by omega)
      rw [dabNoun, lookIn]
      simp only [dabNoun_eq_zero, lookNode, dust_footNoun, Bool.true_and, decide_eq_true_eq,
        gor_atom, peg_room (show 0 < 2 by omega) (by omega) hroom,
        peg_room (show 0 < 3 by omega) (by omega) hroom,
        peg_room (show 0 < 6 by omega) (by omega) hroom,
        peg_room (show 0 < 7 by omega) (by omega) hroom, bind, Except.bind, Except.map,
        hl3, hl6, hr3, hr7]
      cases l <;> cases r <;>
        simp only [Ut.lookAt, and_self, and_true, and_false, reduceCtorEq, if_true, if_false] <;>
        split_ifs <;> rfl

end agree

/-- The map of arms that a list of `+-put:by` builds. -/
def dab (arms : List (Nat × Ut.Foot)) : Map Ut.Foot :=
  build Hoon.mug (arms.map fun e => .put (.atom e.1) e.2)

/-- What every `+-put:by` of the list keeps holds of the map. -/
theorem dab_induct {P : Map Ut.Foot → Prop} {arms : List (Nat × Ut.Foot)} (h0 : P .nil)
    (hput : ∀ m, ∀ e ∈ arms, P m → P (put Hoon.mug m (.atom e.1) e.2)) : P (dab arms) := by
  have hrun : ∀ m, P m → P ((arms.map fun e => Op.put (.atom e.1) e.2).foldl (Op.run Hoon.mug) m) := by
    clear h0
    induction arms with
    | nil => exact fun m hm => hm
    | cons e arms ih =>
        intro m hm
        exact ih (fun m x hx => hput m x (List.mem_cons_of_mem _ hx)) _ (hput m e List.mem_cons_self hm)
  exact hrun .nil h0

theorem dab_keys (arms : List (Nat × Ut.Foot)) :
    Treap.AllKeys (fun k => ∃ a, k = .atom a) (dab arms) :=
  dab_induct trivial fun _ e _ hm => Treap.allKeys_insert e.2 hm ⟨e.1, rfl⟩

/-- The names that were put are the keys. -/
theorem get_dab (arms : List (Nat × Ut.Foot)) (cog : Nat) :
    (Hoon.get Hoon.mug (dab arms) (.atom cog)).isSome ↔ cog ∈ arms.map (·.1) := by
  have hrun : ∀ (arms : List (Nat × Ut.Foot)) (f : Noun → Option Ut.Foot),
      ((arms.map fun e => Op.put (.atom e.1) e.2).foldl Op.abs f (.atom cog)).isSome ↔
        (f (.atom cog)).isSome ∨ cog ∈ arms.map (·.1) := by
    intro arms
    induction arms with
    | nil => simp
    | cons e arms ih =>
        intro f
        rw [List.map_cons, List.foldl_cons, ih, List.map_cons, List.mem_cons, Op.abs]
        by_cases hcog : cog = e.1
        · simp [hcog]
        · simp [hcog, Function.update_of_ne]
  rw [dab, (build_models Hoon.mug _).get_eq, hrun]
  simp

/-- Of every map of arms: a name is found if it is a key, and with the foot stored under it. The
formula compiled for that foot is at the axis found of the battery, and is what operator 9 runs
at that axis below the head of a core. The jet finds the same in what fits in the loom. -/
theorem look_finds (mint : Bool → Noun → Virt Noun) (arms : List (Nat × Ut.Foot)) (cog : Nat) :
    ((Ut.look Hoon.mug (.atom cog) (dab arms)).isSome ↔ cog ∈ arms.map (·.1)) ∧
    (∀ axe foot, Ut.look Hoon.mug (.atom cog) (dab arms) = some (axe, foot) →
      Hoon.get Hoon.mug (dab arms) (.atom cog) = some foot ∧
      ∀ bat, Ut.harp mint (dab arms) = pure bat →
        ∃ f, Ut.vad mint foot = pure f ∧ slot axe bat = some f ∧
          ∀ pay p, (Ut.Nock.nine (Ut.peg 2 axe) (.slot 1)).Gives (.cell bat pay) p ↔
            Tar (.cell bat pay) f p) ∧
    ((∀ e ∈ arms, ∃ f, Ut.vad mint e.2 = pure f) → ∃ bat, Ut.harp mint (dab arms) = pure bat) ∧
    (Loomed (dabNoun (dab arms)) → look u2Mug (.atom cog) (dabNoun (dab arms))
      = .ok (postNoun (Ut.look Hoon.mug (.atom cog) (dab arms)))) := by
  have hget := Ut.lookAt_get Hoon.mug (.atom cog) (dab arms) 1
  refine ⟨?_, ?_, ?_, ?_⟩
  · rw [← get_dab, Hoon.get, ← hget, Option.isSome_map]
    rfl
  · intro axe foot hlook
    refine ⟨?_, ?_⟩
    · rw [Hoon.get, ← hget, show Ut.lookAt Hoon.mug (.atom cog) (dab arms) 1 = _ from hlook]
      rfl
    · intro bat hbat
      obtain ⟨f, hf, hslot⟩ := Ut.look_slot hbat (slot_one bat) hlook
      exact ⟨f, hf, hslot, fun pay p => Ut.call_gives hslot⟩
  · intro hfeet
    exact Ut.harp_pure (dab_induct trivial fun m e he hm => Ut.compiles_put hm (hfeet e he) _)
  · intro hloom
    refine lookIn_eq (dab_keys arms) ?_
    have hone : Nat.size 1 = 1 := Nat.size_one
    unfold Loomed at hloom
    omega

end Vere.Jets
