import Mathlib.Logic.Function.Basic
import Vere.Lib.Treap
import Vere.Noun

/-!
# Vere.Hoon.Map

Noun orders (`hoon.hoon`, section 2cC) and the map engine `++by` (section 2dC).

A map is a treap searched by `++gor` and balanced by `++vor`. Both orders
compare hashes first and fall back on the structural order `++dor` where the
hashes collide. Nothing here depends on which hash it is, so `mug` is a
parameter and every result holds whatever collisions there are.
-/

namespace Vere.Hoon

open Vere.Lib

/-- `++dor`: d-order, structural. -/
def dor (a b : Noun) : Bool :=
  if a = b then true
  else
    match a, b with
    | .cell ha ta, .cell hb tb => if ha = hb then dor ta tb else dor ha hb
    | .cell _ _, .atom _ => false
    | .atom _, .cell _ _ => true
    | .atom a, .atom b => a < b

/-! ### The structural order is total -/

/-- An order that puts atoms before cells, and compares two cells by the first of the halves
that differ. -/
structure Structural (ord : Noun → Noun → Bool) (le : Nat → Nat → Bool) : Prop where
  atom : ∀ a b, ord (.atom a) (.atom b) = le a b
  cell : ∀ ha ta hb tb,
    ord (.cell ha ta) (.cell hb tb) = if ha = hb then ord ta tb else ord ha hb
  atom_cell : ∀ a h t, ord (.atom a) (.cell h t) = true
  cell_atom : ∀ h t a, ord (.cell h t) (.atom a) = false

namespace Structural

variable {ord : Noun → Noun → Bool} {le : Nat → Nat → Bool}

theorem total (h : Structural ord le) (hle : SearchOrder le) (a b : Noun) :
    ord a b = true ∨ ord b a = true := by
  induction a generalizing b with
  | atom a =>
      cases b with
      | atom b =>
          rw [h.atom, h.atom]
          exact hle.total a b
      | cell hb tb => exact .inl (h.atom_cell a hb tb)
  | cell ha ta ihh iht =>
      cases b with
      | atom b => exact .inr (h.atom_cell b ha ta)
      | cell hb tb =>
          rw [h.cell, h.cell]
          by_cases heq : ha = hb
          · rw [if_pos heq, if_pos heq.symm]
            exact iht tb
          · rw [if_neg heq, if_neg (fun e => heq e.symm)]
            exact ihh hb

theorem antisymm (h : Structural ord le) (hle : SearchOrder le) (a b : Noun)
    (h1 : ord a b = true) (h2 : ord b a = true) : a = b := by
  induction a generalizing b with
  | atom a =>
      cases b with
      | atom b =>
          rw [h.atom] at h1 h2
          rw [hle.antisymm a b h1 h2]
      | cell hb tb =>
          rw [h.cell_atom] at h2
          cases h2
  | cell ha ta ihh iht =>
      cases b with
      | atom b =>
          rw [h.cell_atom] at h1
          cases h1
      | cell hb tb =>
          rw [h.cell] at h1 h2
          by_cases heq : ha = hb
          · rw [if_pos heq] at h1
            rw [if_pos heq.symm] at h2
            rw [heq, iht tb h1 h2]
          · rw [if_neg heq] at h1
            rw [if_neg (fun e => heq e.symm)] at h2
            exact absurd (ihh hb h1 h2) heq

theorem trans (h : Structural ord le) (hle : SearchOrder le) (a b c : Noun)
    (h1 : ord a b = true) (h2 : ord b c = true) : ord a c = true := by
  induction a generalizing b c with
  | atom a =>
      cases c with
      | cell hc tc => exact h.atom_cell a hc tc
      | atom c =>
          cases b with
          | cell hb tb =>
              rw [h.cell_atom] at h2
              cases h2
          | atom b =>
              rw [h.atom] at *
              exact hle.trans a b c h1 h2
  | cell ha ta ihh iht =>
      cases b with
      | atom b =>
          rw [h.cell_atom] at h1
          cases h1
      | cell hb tb =>
          cases c with
          | atom c =>
              rw [h.cell_atom] at h2
              cases h2
          | cell hc tc =>
              rw [h.cell] at *
              by_cases hab : ha = hb
              · subst hab
                rw [if_pos rfl] at h1
                by_cases hbc : ha = hc
                · rw [if_pos hbc] at h2 ⊢
                  exact iht tb tc h1 h2
                · rw [if_neg hbc] at h2 ⊢
                  exact h2
              · rw [if_neg hab] at h1
                by_cases hbc : hb = hc
                · subst hbc
                  rw [if_neg hab]
                  exact h1
                · rw [if_neg hbc] at h2
                  -- the heads go strictly up twice, so they cannot meet again
                  by_cases hac : ha = hc
                  · subst hac
                    exact absurd (h.antisymm hle ha hb h1 h2) hab
                  · rw [if_neg hac]
                    exact ihh hb hc h1 h2

theorem searchOrder (h : Structural ord le) (hle : SearchOrder le) : SearchOrder ord :=
  ⟨h.total hle, h.trans hle, h.antisymm hle⟩

end Structural

theorem dor_refl (a : Noun) : dor a a = true := by
  unfold dor
  exact if_pos rfl

theorem dor_structural : Structural dor fun a b => decide (a ≤ b) where
  atom a b := by
    rw [dor]
    by_cases h : a = b
    · subst h
      simp
    · simp [h, Nat.lt_iff_le_and_ne]
  cell ha ta hb tb := by
    by_cases h : Noun.cell ha ta = .cell hb tb
    · obtain ⟨rfl, rfl⟩ := Noun.cell.inj h
      rw [if_pos rfl, dor_refl, dor_refl]
    · rw [dor, if_neg h]
  atom_cell a h t := by simp [dor]
  cell_atom h t a := by simp [dor]

/-- `++dor` is a total order on nouns. -/
theorem dor_searchOrder : SearchOrder dor := by
  refine dor_structural.searchOrder ⟨fun a b => ?_, fun a b c h1 h2 => ?_, fun a b h1 h2 => ?_⟩
  · simpa using Nat.le_total a b
  · rw [decide_eq_true_iff] at *
    exact Nat.le_trans h1 h2
  · rw [decide_eq_true_iff] at *
    exact Nat.le_antisymm h1 h2

/-! ### Orders by hash -/

/-- The shape of `++gor` and `++vor`: order by a key, and by `++dor` on nouns
with the same key. -/
def keyOrder (key : Noun → Nat) (a b : Noun) : Bool :=
  if key a = key b then dor a b else key a < key b

/-- `++gor`: g-order, by `mug`. -/
def gor (mug : Noun → Nat) : Noun → Noun → Bool := keyOrder mug

/-- `++hor`: h-order. Atoms before cells; of two cells, by `++gor` on the first of the
halves that differ. -/
def hor (mug : Noun → Nat) (a b : Noun) : Bool :=
  match a, b with
  | .atom a, .atom b => gor mug (.atom a) (.atom b)
  | .atom _, .cell _ _ => true
  | .cell _ _, .atom _ => false
  | .cell ha ta, .cell hb tb => if ha = hb then gor mug ta tb else gor mug ha hb

/-- `++vor`: v-order, by double `mug`. -/
def vor (mug : Noun → Nat) : Noun → Noun → Bool := keyOrder fun a => mug (.atom (mug a))

/-- Ordering by a key and then structurally is a total order, whatever the key. -/
theorem keyOrder_searchOrder (key : Noun → Nat) : SearchOrder (keyOrder key) := by
  refine ⟨?_, ?_, ?_⟩
  · intro a b
    rw [keyOrder, keyOrder]
    rcases Nat.lt_trichotomy (key a) (key b) with h | h | h
    · left
      rw [if_neg (Nat.ne_of_lt h)]
      exact decide_eq_true h
    · rw [if_pos h, if_pos h.symm]
      exact dor_searchOrder.total a b
    · right
      rw [if_neg (Nat.ne_of_lt h)]
      exact decide_eq_true h
  · intro a b c hab hbc
    rw [keyOrder] at *
    by_cases h1 : key a = key b
    · rw [if_pos h1] at hab
      rw [h1]
      by_cases h2 : key b = key c
      · rw [if_pos h2] at hbc ⊢
        exact dor_searchOrder.trans a b c hab hbc
      · rw [if_neg h2] at hbc ⊢
        exact hbc
    · rw [if_neg h1, decide_eq_true_iff] at hab
      by_cases h2 : key b = key c
      · rw [← h2, if_neg h1]
        exact decide_eq_true hab
      · rw [if_neg h2, decide_eq_true_iff] at hbc
        have hac : key a < key c := Nat.lt_trans hab hbc
        rw [if_neg (Nat.ne_of_lt hac)]
        exact decide_eq_true hac
  · intro a b hab hba
    rw [keyOrder] at hab hba
    by_cases h : key a = key b
    · rw [if_pos h] at hab
      rw [if_pos h.symm] at hba
      exact dor_searchOrder.antisymm a b hab hba
    · rw [if_neg h, decide_eq_true_iff] at hab
      rw [if_neg (fun e => h e.symm), decide_eq_true_iff] at hba
      exact absurd hba (Nat.lt_asymm hab)

/-- `++gor` can search a tree. -/
theorem gor_searchOrder (mug : Noun → Nat) : SearchOrder (gor mug) :=
  keyOrder_searchOrder mug

/-- `++hor` can search a tree too. -/
theorem hor_searchOrder (mug : Noun → Nat) : SearchOrder (hor mug) := by
  have hg := gor_searchOrder mug
  refine ⟨?_, ?_, ?_⟩
  · intro a b
    rcases a with a | ⟨ha, ta⟩ <;> rcases b with b | ⟨hb, tb⟩
    · exact hg.total _ _
    · exact .inl rfl
    · exact .inr rfl
    · by_cases h : ha = hb
      · simpa [hor, h] using hg.total ta tb
      · simpa [hor, h, Ne.symm h] using hg.total ha hb
  · intro a b c hab hbc
    rcases a with a | ⟨ha, ta⟩ <;> rcases b with b | ⟨hb, tb⟩ <;> rcases c with c | ⟨hc, tc⟩
    · exact hg.trans _ _ _ hab hbc
    · rfl
    · cases hbc
    · rfl
    · cases hab
    · cases hab
    · cases hbc
    · rw [hor] at *
      by_cases h1 : ha = hb
      · subst h1
        rw [if_pos rfl] at hab
        by_cases h2 : ha = hc
        · rw [if_pos h2] at hbc ⊢
          exact hg.trans _ _ _ hab hbc
        · rw [if_neg h2] at hbc ⊢
          exact hbc
      · rw [if_neg h1] at hab
        by_cases h2 : hb = hc
        · subst h2
          rw [if_neg h1]
          exact hab
        · rw [if_neg h2] at hbc
          -- the heads go strictly up twice, so they cannot meet again
          by_cases h3 : ha = hc
          · subst h3
            exact absurd (hg.antisymm _ _ hab hbc) h1
          · rw [if_neg h3]
            exact hg.trans _ _ _ hab hbc
  · intro a b hab hba
    rcases a with a | ⟨ha, ta⟩ <;> rcases b with b | ⟨hb, tb⟩
    · exact hg.antisymm _ _ hab hba
    · cases hba
    · cases hab
    · rw [hor] at hab hba
      by_cases h : ha = hb
      · rw [if_pos h] at hab
        rw [if_pos h.symm] at hba
        rw [h, hg.antisymm _ _ hab hba]
      · rw [if_neg h] at hab
        rw [if_neg (fun e => h e.symm)] at hba
        exact absurd (hg.antisymm _ _ hab hba) h

/-- `++vor` can balance it. -/
theorem vor_searchOrder (mug : Noun → Nat) : SearchOrder (vor mug) :=
  keyOrder_searchOrder fun a => mug (.atom (mug a))

/-! ### The map engine -/

/-- `(map)`: a treap of noun keys. -/
abbrev Map (β : Type) := Treap Noun β

/-- `+-get:by`: grab value by key. -/
def get {β : Type} (mug : Noun → Nat) (m : Map β) (b : Noun) : Option β :=
  Treap.lookup (gor mug) m b

/-- `+-put:by`: add a key-value pair. The rotations are those of
`Treap.linkLeft` and `Treap.linkRight`. -/
def put {β : Type} [DecidableEq β] (mug : Noun → Nat) (m : Map β) (b : Noun) (c : β) :
    Map β :=
  Treap.insert (gor mug) (vor mug) m b c

/-- `+-del:by`: delete at key. The two sides of the node are put together by
`Treap.merge`. -/
def del {β : Type} (mug : Noun → Nat) (m : Map β) (b : Noun) : Map β :=
  Treap.delete (gor mug) (vor mug) m b

/-- The map `m` is in search order and answers as the function `f` does. -/
structure Reads {β : Type} (mug : Noun → Nat) (m : Map β) (f : Noun → Option β) :
    Prop where
  /-- The search invariant. -/
  sorted : Treap.Ordered (gor mug) m
  /-- What a lookup returns. -/
  get_eq : ∀ b, get mug m b = f b

theorem reads_nil {β : Type} (mug : Noun → Nat) : Reads mug (.nil : Map β) fun _ => none :=
  ⟨trivial, fun _ => rfl⟩

/-- A `put` is an update of the function the map answers as. -/
theorem Reads.put {β : Type} [DecidableEq β] {mug : Noun → Nat} {m : Map β}
    {f : Noun → Option β} (h : Reads mug m f) (b : Noun) (c : β) :
    Reads mug (put mug m b c) (Function.update f b (some c)) := by
  refine ⟨Treap.ordered_insert (gor_searchOrder mug) h.sorted b c, ?_⟩
  intro d
  rw [get, Hoon.put, Treap.lookup_insert (gor_searchOrder mug) h.sorted,
    Function.update_apply]
  by_cases hd : d = b
  · rw [if_pos hd, if_pos hd]
  · rw [if_neg hd, if_neg hd]
    exact h.get_eq d

/-- A `del` is an update too. -/
theorem Reads.del {β : Type} {mug : Noun → Nat} {m : Map β} {f : Noun → Option β}
    (h : Reads mug m f) (b : Noun) : Reads mug (del mug m b) (Function.update f b none) := by
  refine ⟨Treap.ordered_delete (gor_searchOrder mug) h.sorted b, ?_⟩
  intro d
  rw [get, Hoon.del, Treap.lookup_delete (gor_searchOrder mug) h.sorted,
    Function.update_apply]
  by_cases hd : d = b
  · rw [if_pos hd, if_pos hd]
  · rw [if_neg hd, if_neg hd]
    exact h.get_eq d

/-! ### Maps that are built step by step -/

/-- What is done to a map. -/
inductive Op (β : Type)
  | put (b : Noun) (c : β)
  | del (b : Noun)

def Op.run {β : Type} [DecidableEq β] (mug : Noun → Nat) (m : Map β) : Op β → Map β
  | .put b c => Hoon.put mug m b c
  | .del b => Hoon.del mug m b

/-- What the same does to a function. -/
def Op.abs {β : Type} (f : Noun → Option β) : Op β → Noun → Option β
  | .put b c => Function.update f b (some c)
  | .del b => Function.update f b none

/-- The map after a sequence of puts and deletes, from `~`. -/
def build {β : Type} [DecidableEq β] (mug : Noun → Nat) (ops : List (Op β)) : Map β :=
  ops.foldl (Op.run mug) .nil

/-- A map in both of its orders that answers as the function `f` does. -/
structure Models {β : Type} (mug : Noun → Nat) (m : Map β) (f : Noun → Option β) :
    Prop extends Reads mug m f where
  heaped : Treap.Heaped (vor mug) m

theorem Models.run {β : Type} [DecidableEq β] {mug : Noun → Nat} {m : Map β}
    {f : Noun → Option β} (h : Models mug m f) (op : Op β) :
    Models mug (op.run mug m) (op.abs f) := by
  cases op with
  | put b c => exact ⟨h.toReads.put b c, Treap.heaped_insert (vor_searchOrder mug) h.heaped b c⟩
  | del b =>
      exact ⟨h.toReads.del b,
        Treap.heaped_delete (gor_searchOrder mug) (vor_searchOrder mug) h.sorted h.heaped b⟩

/-- Every map that is built is a finite map: it models the function the same steps build. -/
theorem build_models {β : Type} [DecidableEq β] (mug : Noun → Nat) (ops : List (Op β)) :
    Models mug (build mug ops) (ops.foldl Op.abs fun _ => none) := by
  have hrun : ∀ (ops : List (Op β)) (m : Map β) (f : Noun → Option β), Models mug m f →
      Models mug (ops.foldl (Op.run mug) m) (ops.foldl Op.abs f) := by
    intro ops
    induction ops with
    | nil => exact fun _ _ h => h
    | cons op ops ih => exact fun _ _ h => ih _ _ (h.run op)
  exact hrun ops .nil _ ⟨reads_nil mug, trivial⟩

end Vere.Hoon
