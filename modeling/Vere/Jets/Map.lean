import Vere.Hoon.Order

/-!
# Vere.Jets.Map

The map jets, `gen164/4/by_put.c` and `by_get.c`, with the orders of `gen164/3`.

The jets work on the noun of a map: `~` for the empty one, `[[p q] l r]` for a node.
They bail on anything else, which no map built by `++by` is, and compute on maps
what `++by` does (`byPut_noun`, `byGet_noun`).
-/

namespace Vere.Jets

open Vere.Lib Vere.Hoon

/-! ### Orders -/

/-- `dor`. -/
def dor (a b : Noun) : Bool :=
  if a = b then true
  else
    match a, b with
    | .atom a, .atom b => a < b
    | .atom _, .cell _ _ => true
    | .cell _ _, .atom _ => false
    | .cell ha ta, .cell hb tb => if ha = hb then dor ta tb else dor ha hb

/-- `gor`. -/
def gor (mug : Noun → Nat) (a b : Noun) : Bool :=
  let c := mug a
  let d := mug b
  if c = d then dor a b else c < d

/-- `hor`. -/
def hor (mug : Noun → Nat) (a b : Noun) : Bool :=
  match a, b with
  | .atom a, .atom b => gor mug (.atom a) (.atom b)
  | .atom _, .cell _ _ => true
  | .cell _ _, .atom _ => false
  | .cell ha ta, .cell hb tb => if ha = hb then gor mug ta tb else gor mug ha hb

/-- `vor`. -/
def vor (mug : Noun → Nat) (a b : Noun) : Bool :=
  let c := mug (.atom (mug a))
  let d := mug (.atom (mug b))
  if c = d then dor a b else c < d

theorem dor_eq (a b : Noun) : dor a b = Hoon.dor a b := by
  induction a generalizing b with
  | atom a =>
      cases b with
      | atom b => rw [dor, Hoon.dor]
      | cell hb tb => rw [dor, Hoon.dor]
  | cell ha ta ihh iht =>
      cases b with
      | atom b => rw [dor, Hoon.dor]
      | cell hb tb => rw [dor, Hoon.dor, ihh hb, iht tb]

theorem gor_eq (mug : Noun → Nat) (a b : Noun) : gor mug a b = Hoon.gor mug a b := by
  rw [gor, Hoon.gor, keyOrder, dor_eq]

theorem hor_eq (mug : Noun → Nat) (a b : Noun) : hor mug a b = Hoon.hor mug a b := by
  rcases a with a | ⟨ha, ta⟩ <;> rcases b with b | ⟨hb, tb⟩ <;>
    simp only [hor, Hoon.hor, gor_eq]

theorem vor_eq (mug : Noun → Nat) (a b : Noun) : vor mug a b = Hoon.vor mug a b := by
  rw [vor, Hoon.vor, keyOrder, dor_eq]

/-- Each of the noun orders is total, whatever the mug, so that nouns whose mugs collide are in
order as well; and the jets answer as the arms do. -/
theorem noun_orders (mug : Noun → Nat) :
    (∀ ord ∈ [Hoon.aor, Hoon.dor, Hoon.gor mug, Hoon.hor mug, Hoon.vor mug],
      (∀ a, ord a a = true) ∧ SearchOrder ord) ∧
    ∀ a b, dor a b = Hoon.dor a b ∧ gor mug a b = Hoon.gor mug a b
      ∧ hor mug a b = Hoon.hor mug a b ∧ vor mug a b = Hoon.vor mug a b := by
  refine ⟨fun ord hord => ?_, fun a b => ⟨dor_eq a b, gor_eq mug a b, hor_eq mug a b,
    vor_eq mug a b⟩⟩
  have hall : SearchOrder ord := by
    simp only [List.mem_cons, List.not_mem_nil, or_false] at hord
    rcases hord with rfl | rfl | rfl | rfl | rfl
    · exact aor_searchOrder
    · exact dor_searchOrder
    · exact gor_searchOrder mug
    · exact hor_searchOrder mug
    · exact vor_searchOrder mug
  exact ⟨fun a => (hall.total a a).elim id id, hall⟩

/-! ### Maps -/

/-- `by_get`. -/
def byGet (mug : Noun → Nat) (a b : Noun) : Jet Noun :=
  match a with
  | .atom 0 => .ok (.atom 0)
  | .cell (.cell pn qn) (.cell l r) =>
      if b = pn then .ok (.cell (.atom 0) qn)
      else if gor mug b pn then byGet mug l b
      else byGet mug r b
  | _ => .error .exit

/-- `by_put`. -/
def byPut (mug : Noun → Nat) (a b c : Noun) : Jet Noun :=
  match a with
  | .atom 0 => .ok (.cell (.cell b c) (.cell (.atom 0) (.atom 0)))
  | .cell (.cell pn qn) (.cell l r) =>
      if pn = b then
        if qn = c then .ok (.cell (.cell pn qn) (.cell l r))
        else .ok (.cell (.cell b c) (.cell l r))
      else if gor mug b pn then do
        match ← byPut mug l b c with
        | .cell (.cell pd qd) (.cell ld rd) =>
            if vor mug pn pd then
              .ok (.cell (.cell pn qn) (.cell (.cell (.cell pd qd) (.cell ld rd)) r))
            else .ok (.cell (.cell pd qd) (.cell ld (.cell (.cell pn qn) (.cell rd r))))
        -- the head of an atom: `d` is always a node
        | _ => .error .fault
      else do
        match ← byPut mug r b c with
        | .cell (.cell pd qd) (.cell ld rd) =>
            if vor mug pn pd then
              .ok (.cell (.cell pn qn) (.cell l (.cell (.cell pd qd) (.cell ld rd))))
            else .ok (.cell (.cell pd qd) (.cell (.cell (.cell pn qn) (.cell l ld)) rd))
        | _ => .error .fault
  | _ => .error .exit

/-- The noun of a map. -/
def mapNoun : Map Noun → Noun
  | .nil => .atom 0
  | .node k v l r => .cell (.cell k v) (.cell (mapNoun l) (mapNoun r))

/-- The noun of what a lookup finds. -/
def unit : Option Noun → Noun
  | none => .atom 0
  | some u => .cell (.atom 0) u

theorem byGet_noun (mug : Noun → Nat) (m : Map Noun) (b : Noun) :
    byGet mug (mapNoun m) b = .ok (unit (get mug m b)) := by
  induction m with
  | nil => rfl
  | node k v l r ihl ihr =>
      rw [mapNoun, byGet, ihl, ihr, gor_eq]
      simp only [Hoon.get, Treap.lookup]
      split
      · rw [unit]
      · split <;> rfl

/-- An insertion leaves a node. -/
theorem put_node (mug : Noun → Nat) (m : Map Noun) (b c : Noun) :
    ∃ k v l r, put mug m b c = .node k v l r := by
  cases m with
  | nil => exact ⟨_, _, _, _, rfl⟩
  | node k v l r =>
      unfold put Treap.insert
      split
      · split <;> exact ⟨_, _, _, _, rfl⟩
      · split
        · unfold Treap.linkLeft
          split
          · exact ⟨_, _, _, _, rfl⟩
          · split <;> exact ⟨_, _, _, _, rfl⟩
        · unfold Treap.linkRight
          split
          · exact ⟨_, _, _, _, rfl⟩
          · split <;> exact ⟨_, _, _, _, rfl⟩

theorem byPut_noun (mug : Noun → Nat) (m : Map Noun) (b c : Noun) :
    byPut mug (mapNoun m) b c = .ok (mapNoun (put mug m b c)) := by
  induction m with
  | nil => rfl
  | node k v l r ihl ihr =>
      rw [mapNoun, byPut, ihl, ihr, gor_eq,
        show put mug (.node k v l r) b c
          = Treap.insert (Hoon.gor mug) (Hoon.vor mug) (.node k v l r) b c from rfl,
        Treap.insert]
      by_cases hk : b = k
      · subst hk
        rw [if_pos rfl, if_pos rfl]
        by_cases hv : c = v
        · rw [if_pos hv.symm, if_pos hv, mapNoun]
        · rw [if_neg (fun e => hv e.symm), if_neg hv, mapNoun]
      rw [if_neg (fun e => hk e.symm), if_neg hk]
      split
      · obtain ⟨k', v', l', r', hd⟩ := put_node mug l b c
        rw [hd]
        rw [put] at hd
        rw [hd, Treap.linkLeft]
        simp only [mapNoun, vor_eq, bind, Except.bind]
        split <;> rfl
      · obtain ⟨k', v', l', r', hd⟩ := put_node mug r b c
        rw [hd]
        rw [put] at hd
        rw [hd, Treap.linkRight]
        simp only [mapNoun, vor_eq, bind, Except.bind]
        split <;> rfl

/-- Whatever the mug, a map that is built from `~` by puts and deletes is in both of
its orders, a put or a delete changes it at its own key and nowhere else, and the jets
compute what the arms do. -/
theorem map_finite (mug : Noun → Nat) (ops : List (Op Noun)) :
    Treap.Ordered (Hoon.gor mug) (build mug ops) ∧ Treap.Heaped (Hoon.vor mug) (build mug ops) ∧
      (∀ k v j, get mug (put mug (build mug ops) k v) j
        = if j = k then some v else get mug (build mug ops) j) ∧
      (∀ k j, get mug (del mug (build mug ops) k) j
        = if j = k then none else get mug (build mug ops) j) ∧
      (∀ k v, byPut mug (mapNoun (build mug ops)) k v
        = .ok (mapNoun (put mug (build mug ops) k v))) ∧
      ∀ k, byGet mug (mapNoun (build mug ops)) k = .ok (unit (get mug (build mug ops) k)) := by
  have hm := build_models mug ops
  refine ⟨hm.sorted, hm.heaped, ?_, ?_, byPut_noun mug _, byGet_noun mug _⟩
  · exact fun k v j => Treap.lookup_insert (gor_searchOrder mug) hm.sorted k v j
  · exact fun k j => Treap.lookup_delete (gor_searchOrder mug) hm.sorted k j

end Vere.Jets
