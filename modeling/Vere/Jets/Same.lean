import Vere.Jets.Union

/-!
# Vere.Jets.Same

Which trees come out, whoever builds them.

* A map or a set is determined by its contents (`canonical`): the two orders leave one shape
  for every set of keys, and every arm reaches that shape.
* The set jets return what `++in` returns on sets of which the orders of the two sides say the
  same wherever the arms ask them (`set_jets_shared`).
* The orders come from the two hashes; those are the same just on narrow nouns
  (`mug_same_iff`), and on narrow keys jets and arms build the same trees.
-/

namespace Vere.Jets

open Vere.Lib Vere.Hoon

/-! ### Contents and canonical form -/

theorem mapNoun_inj {a b : Map Noun} (h : mapNoun a = mapNoun b) : a = b := by
  induction a generalizing b with
  | nil =>
      cases b with
      | nil => rfl
      | node k v l r => cases h
  | node k v l r ihl ihr =>
      cases b with
      | nil => cases h
      | node k' v' l' r' =>
          obtain ⟨hn, hlr⟩ := Noun.cell.inj h
          obtain ⟨hk, hv⟩ := Noun.cell.inj hn
          obtain ⟨hl, hr⟩ := Noun.cell.inj hlr
          rw [hk, hv, ihl hl, ihr hr]

/-- What is done to a map. -/
inductive MapAct
  | put (b c : Noun)
  | del (b : Noun)
  | gas (b : List (Noun × Noun))

def MapAct.run (mug : Noun → Nat) (m : Map Noun) : MapAct → Map Noun
  | .put b c => Hoon.put mug m b c
  | .del b => Hoon.del mug m b
  | .gas b => Hoon.gas mug m b

/-- What it does to the contents. -/
def MapAct.abs (f : Noun → Option Noun) : MapAct → Noun → Option Noun
  | .put b c => Function.update f b (some c)
  | .del b => Function.update f b none
  | .gas b => b.foldl (fun f i => Function.update f i.1 (some i.2)) f

/-- The map after a sequence of acts, from `~`. -/
def mapAfter (mug : Noun → Nat) (acts : List MapAct) : Map Noun := acts.foldl (MapAct.run mug) .nil

/-- The pairs that it leaves. -/
def mapContents (acts : List MapAct) : Noun → Option Noun := acts.foldl MapAct.abs fun _ => none

/-- What is done to a set. -/
inductive SetAct
  | put (b : Noun)
  | del (b : Noun)
  | gas (b : List Noun)

def SetAct.run (mug : Noun → Nat) (a : In.Tree) : SetAct → In.Tree
  | .put b => In.put mug a b
  | .del b => In.del mug a b
  | .gas b => In.gas mug a b

def SetAct.abs (f : Noun → Prop) : SetAct → Noun → Prop
  | .put b => fun x => x = b ∨ f x
  | .del b => fun x => x ≠ b ∧ f x
  | .gas b => fun x => x ∈ b ∨ f x

/-- The set after a sequence of acts, from `~`. -/
def setAfter (mug : Noun → Nat) (acts : List SetAct) : In.Tree := acts.foldl (SetAct.run mug) .nil

/-- The elements that it leaves. -/
def setContents (acts : List SetAct) : Noun → Prop := acts.foldl SetAct.abs fun _ => False

/-- A `gas` is a number of updates. -/
theorem models_gas {mug : Noun → Nat} {m : Map Noun} {f : Noun → Option Noun}
    (h : Models mug m f) (l : List (Noun × Noun)) :
    Models mug (gas mug m l) (l.foldl (fun f i => Function.update f i.1 (some i.2)) f) := by
  induction l generalizing m f with
  | nil => exact h
  | cons i l ih => exact ih (h.run (.put i.1 i.2))

theorem mapAfter_models (mug : Noun → Nat) (acts : List MapAct) :
    Models mug (mapAfter mug acts) (mapContents acts) := by
  have hrun : ∀ (acts : List MapAct) (m : Map Noun) (f : Noun → Option Noun), Models mug m f →
      Models mug (acts.foldl (MapAct.run mug) m) (acts.foldl MapAct.abs f) := by
    intro acts
    induction acts with
    | nil => exact fun _ _ h => h
    | cons act acts ih =>
        intro m f h
        refine ih _ _ ?_
        cases act with
        | put b c => exact h.run (.put b c)
        | del b => exact h.run (.del b)
        | gas b => exact models_gas h b
  exact hrun acts .nil _ ⟨reads_nil mug, trivial⟩

theorem setAfter_has (mug : Noun → Nat) (acts : List SetAct) :
    In.Good mug (setAfter mug acts) ∧
      ∀ x, In.has mug (setAfter mug acts) x = true ↔ setContents acts x := by
  have hrun : ∀ (acts : List SetAct) (a : In.Tree) (f : Noun → Prop), In.Good mug a →
      (∀ x, In.has mug a x = true ↔ f x) →
      In.Good mug (acts.foldl (SetAct.run mug) a) ∧
        ∀ x, In.has mug (acts.foldl (SetAct.run mug) a) x = true ↔ acts.foldl SetAct.abs f x := by
    intro acts
    induction acts with
    | nil => exact fun _ _ hg h => ⟨hg, h⟩
    | cons act acts ih =>
        intro a f hg h
        cases act with
        | put b =>
            refine ih _ _ (In.good_put hg b) fun x => ?_
            rw [SetAct.run, In.has_put hg, h x]
            rfl
        | del b =>
            refine ih _ _ (In.good_del hg b) fun x => ?_
            rw [SetAct.run, In.has_del hg, h x]
            rfl
        | gas b =>
            refine ih _ _ (In.good_gas hg b) fun x => ?_
            rw [SetAct.run, In.has_gas hg, h x]
            rfl
  exact hrun acts .nil _ Treap.canon_nil fun x => by simp [In.has, Treap.lookup]

theorem mapAfter_eq_iff (mug : Noun → Nat) (p q : List MapAct) :
    mapAfter mug p = mapAfter mug q ↔ mapContents p = mapContents q := by
  have hp := mapAfter_models mug p
  have hq := mapAfter_models mug q
  constructor
  · intro h
    funext k
    rw [← hp.get_eq k, ← hq.get_eq k, h]
  · intro h
    refine Treap.Canon.eq_of_lookup (gor_searchOrder mug) (vor_searchOrder mug)
      ⟨hp.sorted, hp.heaped⟩ ⟨hq.sorted, hq.heaped⟩ ?_
    intro k
    exact (hp.get_eq k).trans ((congrFun h k).trans (hq.get_eq k).symm)

theorem setAfter_eq_iff (mug : Noun → Nat) (p q : List SetAct) :
    setAfter mug p = setAfter mug q ↔ setContents p = setContents q := by
  obtain ⟨gp, hp⟩ := setAfter_has mug p
  obtain ⟨gq, hq⟩ := setAfter_has mug q
  constructor
  · intro h
    funext x
    rw [← propext (hp x), ← propext (hq x), h]
  · intro h
    refine gp.eq_of_holds (hor_searchOrder mug) (vor_searchOrder mug) gq ?_
    intro x u
    -- there is one value, so holding it and having the key are the same
    have hunit : ∀ t : In.Tree, Treap.Holds x u t ↔ Treap.Has x t :=
      fun t => ⟨fun hx => hx.has, fun ⟨_, hx⟩ => hx⟩
    rw [hunit, hunit, ← In.has_iff gp, ← In.has_iff gq, hp x, hq x, h]

/-- Containers are canonical: two sequences of `put`, `del` and `gas` leave the same noun
just if they leave the same contents, on maps and on sets; and a `put` or a `gas` done by
the jet leaves the noun that the arm leaves. -/
theorem canonical (mug : Noun → Nat) :
    (∀ p q, mapNoun (mapAfter mug p) = mapNoun (mapAfter mug q) ↔ mapContents p = mapContents q) ∧
      (∀ p q, setNoun (setAfter mug p) = setNoun (setAfter mug q) ↔
        setContents p = setContents q) ∧
      (∀ p b c, byPut mug (mapNoun (mapAfter mug p)) b c
        = .ok (mapNoun (mapAfter mug (p ++ [.put b c])))) ∧
      (∀ p b, byGas mug (mapNoun (mapAfter mug p)) (pairsNoun b)
        = .ok (mapNoun (mapAfter mug (p ++ [.gas b])))) ∧
      (∀ p b, inPut mug (setNoun (setAfter mug p)) b
        = .ok (setNoun (setAfter mug (p ++ [.put b])))) ∧
      ∀ p b, inGas mug (setNoun (setAfter mug p)) (listNoun b)
        = .ok (setNoun (setAfter mug (p ++ [.gas b]))) := by
  refine ⟨?_, ?_, ?_, ?_, ?_, ?_⟩
  · intro p q
    rw [← mapAfter_eq_iff mug]
    exact ⟨mapNoun_inj, congrArg mapNoun⟩
  · intro p q
    rw [← setAfter_eq_iff mug]
    exact ⟨setNoun_inj, congrArg setNoun⟩
  · intro p b c
    rw [byPut_noun, mapAfter, mapAfter, List.foldl_append]
    rfl
  · intro p b
    rw [byGas_noun, mapAfter, mapAfter, List.foldl_append]
    rfl
  · intro p b
    rw [inPut_noun, setAfter, setAfter, List.foldl_append]
    rfl
  · intro p b
    rw [inGas_noun, setAfter, setAfter, List.foldl_append]
    rfl

/-! ### The set jets -/

/-- The jets return what the arms return. -/
def SameSets (a b : In.Tree) (x : Noun) : Prop :=
  inPut u2Mug (setNoun a) x = .ok (setNoun (In.put Hoon.mug a x)) ∧
    inHas u2Mug (setNoun a) x = .ok (In.has Hoon.mug a x) ∧
    inTap (setNoun a) nul = .ok (listNoun (In.tap a [])) ∧
    (∃ c, Settles (fun n => In.uni Hoon.mug n a b) (some c) ∧
      Settles (fun n => inUni u2Mug n (setNoun a) (setNoun b)) (pure (setNoun c))) ∧
    (∃ c, Settles (fun n => In.int Hoon.mug n a b) (some c) ∧
      Settles (fun n => inInt u2Mug n (setNoun a) (setNoun b)) (pure (setNoun c))) ∧
    ∃ c, Settles (fun n => In.mer Hoon.mug n a b) (some c) ∧
      Settles (fun n => inMer u2Mug n (setNoun a) (setNoun b)) (pure (setNoun c))

/-- Whatever the arms ask on these sets and this element, the orders of the jets answer alike: on
the way of the element into `a`, and in putting the two sets together and in intersecting them. -/
structure AskedAlike (a b : In.Tree) (x : Noun) : Prop where
  put : Treap.InsertShared (Hoon.hor Hoon.mug) (Hoon.hor u2Mug) (Hoon.vor Hoon.mug)
    (Hoon.vor u2Mug) a x ()
  uni : ∃ c, Treap.Shared (Hoon.hor Hoon.mug) (Hoon.hor u2Mug) (Hoon.vor Hoon.mug)
    (Hoon.vor u2Mug) a b c
  int : ∃ d, Treap.Inter.Shared (Hoon.hor Hoon.mug) (Hoon.hor u2Mug) (Hoon.vor Hoon.mug)
    (Hoon.vor u2Mug) a b d

theorem sameSets_of_askedAlike {a b : In.Tree} {x : Noun} (h : AskedAlike a b x) :
    SameSets a b x := by
  have hv := vor_searchOrder Hoon.mug
  obtain ⟨hput, ⟨c, hc⟩, ⟨d, hd⟩⟩ := h
  refine ⟨?_, ?_, inTap_noun a [], ⟨c, splitUni_settles hv hc.left, inUni_settles hc.right⟩,
    ⟨d, (In.int_settles hd.left).1, (inInt_settles hd.right).1⟩,
    ⟨c, (In.mer_settles hc.left).1, (inMer_settles hc.right).1⟩⟩
  · rw [inPut_noun, In.put, In.put, hput.insert_eq]
  · rw [inHas_noun, In.has, In.has, hput.lookup_eq]

/-- The jets return what the arms of `++in` return if the orders of the two sides answer alike
whatever the arms ask of the two sets and the element. `in_put` does so only if they answer alike
on the way of the element. -/
theorem set_jets_shared (a b : List Noun) (x : Noun) :
    (AskedAlike (In.gas Hoon.mug .nil a) (In.gas Hoon.mug .nil b) x →
      SameSets (In.gas Hoon.mug .nil a) (In.gas Hoon.mug .nil b) x) ∧
    (inPut u2Mug (setNoun (In.gas Hoon.mug .nil a)) x =
        .ok (setNoun (In.put Hoon.mug (In.gas Hoon.mug .nil a) x)) ↔
      Treap.InsertShared (Hoon.hor Hoon.mug) (Hoon.hor u2Mug) (Hoon.vor Hoon.mug)
        (Hoon.vor u2Mug) (In.gas Hoon.mug .nil a) x ()) := by
  refine ⟨sameSets_of_askedAlike, ?_⟩
  have ha : In.Good Hoon.mug (In.gas Hoon.mug .nil a) := In.good_gas Treap.canon_nil a
  rw [inPut_noun, ← Treap.insert_eq_iff (hor_searchOrder Hoon.mug) ha.ordered]
  constructor
  · exact fun h => (setNoun_inj (Except.ok.inj h)).symm
  · intro h
    rw [In.put, In.put, h]

/-- The set of `[0 0]` and `[0 1]` has another root when the jet builds it. -/
theorem set_jets_differ :
    inPut u2Mug (setNoun (In.gas Hoon.mug .nil [.cell (.atom 0) (.atom 0)]))
        (.cell (.atom 0) (.atom 1))
      = .ok (trel (.cell (.atom 0) (.atom 0)) nul (trel (.cell (.atom 0) (.atom 1)) nul nul)) ∧
    setNoun (In.put Hoon.mug (In.gas Hoon.mug .nil [.cell (.atom 0) (.atom 0)])
        (.cell (.atom 0) (.atom 1)))
      = trel (.cell (.atom 0) (.atom 1)) (trel (.cell (.atom 0) (.atom 0)) nul nul) nul ∧
    ¬SameSets (In.gas Hoon.mug .nil [.cell (.atom 0) (.atom 0)]) .nil
        (.cell (.atom 0) (.atom 1)) := by
  have hsingle : ∀ mug, In.gas mug .nil [.cell (.atom 0) (.atom 0)]
      = .node (.cell (.atom 0) (.atom 0)) () .nil .nil := fun _ => rfl
  have hjet : inPut u2Mug (setNoun (In.gas Hoon.mug .nil [.cell (.atom 0) (.atom 0)]))
      (.cell (.atom 0) (.atom 1))
      = .ok (trel (.cell (.atom 0) (.atom 0)) nul (trel (.cell (.atom 0) (.atom 1)) nul nul)) := by
    have hxx : Hoon.mug (.atom 1097343833) = 1040954098 := by
      rw [Hoon.mug_atom]
      decide
    have hyy : Hoon.mug (.atom 578976737) = 1606731732 := by
      rw [Hoon.mug_atom]
      decide
    rw [inPut_noun, hsingle]
    simp [In.put, Treap.insert, Treap.linkRight, Hoon.hor, Hoon.gor, Hoon.vor, keyOrder,
      u2Mug_atom_eq, u2Mug_zero_zero, u2Mug_zero_one, mug_zero, mug_one, hxx, hyy, setNoun]
  have harm : setNoun (In.put Hoon.mug (In.gas Hoon.mug .nil [.cell (.atom 0) (.atom 0)])
      (.cell (.atom 0) (.atom 1)))
      = trel (.cell (.atom 0) (.atom 1)) (trel (.cell (.atom 0) (.atom 0)) nul nul) nul := by
    rw [hsingle]
    simp [In.put, Treap.insert, Treap.linkRight, Hoon.hor, Hoon.gor, Hoon.vor, keyOrder,
      mug_zero_zero, mug_zero_one, mug_mug_zero_zero, mug_mug_zero_one, mug_zero, mug_one, setNoun]
  refine ⟨hjet, harm, ?_⟩
  rintro ⟨hput, -⟩
  rw [hjet, harm] at hput
  exact absurd hput (by decide)

/-! ### The two hashes -/

/-- On narrow keys, puts by either side build the same map. -/
theorem gas_narrow {m : Map Noun} {l : List (Noun × Noun)} (hm : Treap.AllKeys Narrow m)
    (hl : ∀ i ∈ l, Narrow i.1) : gas u2Mug m l = gas Hoon.mug m l := by
  have hgor : Treap.AgreeOn Narrow (Hoon.gor u2Mug) (Hoon.gor Hoon.mug) := by
    intro x y hx hy
    rw [← (hx.orders_eq hy).1, gor_eq]
  have hvor : Treap.AgreeOn Narrow (Hoon.vor u2Mug) (Hoon.vor Hoon.mug) := by
    intro x y hx hy
    rw [← (hx.orders_eq hy).2.2, vor_eq]
  induction l generalizing m with
  | nil => rfl
  | cons i l ih =>
      have hi := hl i List.mem_cons_self
      have hput : put u2Mug m i.1 i.2 = put Hoon.mug m i.1 i.2 :=
        Treap.insert_congr hgor hvor hm hi i.2
      rw [gas_cons, gas_cons, hput]
      exact ih (Treap.allKeys_insert i.2 hm hi) fun j hj => hl j (List.mem_cons_of_mem i hj)

/-- And the same set. -/
theorem setGas_narrow {a : In.Tree} {l : List Noun} (ha : Treap.AllKeys Narrow a)
    (hl : ∀ x ∈ l, Narrow x) : In.gas u2Mug a l = In.gas Hoon.mug a l := by
  have hhor : Treap.AgreeOn Narrow (Hoon.hor u2Mug) (Hoon.hor Hoon.mug) := by
    intro x y hx hy
    rw [← (hx.orders_eq hy).2.1, hor_eq]
  have hvor : Treap.AgreeOn Narrow (Hoon.vor u2Mug) (Hoon.vor Hoon.mug) := by
    intro x y hx hy
    rw [← (hx.orders_eq hy).2.2, vor_eq]
  induction l generalizing a with
  | nil => rfl
  | cons x l ih =>
      have hx := hl x List.mem_cons_self
      have hput : In.put u2Mug a x = In.put Hoon.mug a x :=
        Treap.insert_congr hhor hvor ha hx ()
      rw [In.gas_cons, In.gas_cons, hput]
      exact ih (Treap.allKeys_insert () ha hx) fun y hy => hl y (List.mem_cons_of_mem x hy)

/-- The two hashes are the same on a noun and all that is in it just if the noun is narrow.
On narrow nouns the orders are the same too, and on narrow keys the jets build the maps and
sets that the arms build. -/
theorem mug_same_iff (n : Noun) :
    ((∀ m, Inside m n → SameMug m) ↔ Narrow n) ∧
      (∀ b, Narrow n → Narrow b →
        gor u2Mug n b = Hoon.gor Hoon.mug n b ∧ hor u2Mug n b = Hoon.hor Hoon.mug n b ∧
          vor u2Mug n b = Hoon.vor Hoon.mug n b) ∧
      (∀ l : List (Noun × Noun), (∀ i ∈ l, Narrow i.1) →
        byGas u2Mug nul (pairsNoun l) = .ok (mapNoun (gas Hoon.mug .nil l))) ∧
      ∀ l : List Noun, (∀ x ∈ l, Narrow x) →
        inGas u2Mug nul (listNoun l) = .ok (setNoun (In.gas Hoon.mug .nil l)) := by
  refine ⟨sameMug_iff n, fun b hn hb => hn.orders_eq hb, ?_, ?_⟩
  · intro l hl
    have hnil : Treap.AllKeys Narrow (.nil : Map Noun) := trivial
    rw [← gas_narrow hnil hl]
    exact byGas_noun u2Mug .nil l
  · intro l hl
    have hnil : Treap.AllKeys Narrow (.nil : In.Tree) := trivial
    rw [← setGas_narrow hnil hl]
    exact inGas_noun u2Mug .nil l

/-- `++mug` of `[0 0]` is no 31-bit word, and `u2_mug` of it is one. -/
theorem mug_differs :
    u2Mug (.cell (.atom 0) (.atom 0)) = 1097343833 ∧
      Hoon.mug (.cell (.atom 0) (.atom 0)) = 3244827480 ∧
      ¬SameMug (.cell (.atom 0) (.atom 0)) := by
  refine ⟨u2Mug_zero_zero, mug_zero_zero, ?_⟩
  rintro ⟨-, -, hlt⟩
  rw [mug_zero_zero] at hlt
  exact absurd hlt (by decide)

end Vere.Jets
