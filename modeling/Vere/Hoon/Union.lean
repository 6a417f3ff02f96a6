import Vere.Hoon.Map
import Vere.Hoon.Mug
import Vere.Lib.Union

/-!
# Vere.Hoon.Union

Union and intersection of maps, `uni:by` and `int:by` (`hoon.hoon`, section 2dC).

The text of `uni:by` is that of `uni:in` with `p.n` for `n`; it is `splitUni` here, with the
two orders it is given. The arms recurse on trees they have just built, so they take fuel;
`none` means that it ran out.

`++by` splits by `++hor` in these two arms and searches by `++gor` in all its others.
-/

namespace Vere.Hoon

open Vere.Lib

/-- The loop of `uni:by` and of `uni:in`, splitting by `sp`. -/
def splitUni {β : Type} (sp hp : Noun → Noun → Bool) :
    Nat → Treap Noun β → Treap Noun β → Option (Treap Noun β)
  | 0, _, _ => none
  | _ + 1, a, .nil => some a
  | _ + 1, .nil, .node kb vb lb rb => some (.node kb vb lb rb)
  | n + 1, .node ka va la ra, .node kb vb lb rb =>
      if hp ka kb then
        if kb = ka then do
          let l ← splitUni sp hp n la lb
          let r ← splitUni sp hp n ra rb
          return .node kb vb l r
        else if sp kb ka then do
          let l ← splitUni sp hp n la (.node kb vb lb .nil)
          splitUni sp hp n (.node ka va l ra) rb
        else do
          let r ← splitUni sp hp n ra (.node kb vb .nil rb)
          splitUni sp hp n (.node ka va la r) lb
      else if ka = kb then do
        let l ← splitUni sp hp n la lb
        let r ← splitUni sp hp n ra rb
        return .node kb vb l r
      else if sp ka kb then do
        let l ← splitUni sp hp n (.node ka va la .nil) lb
        splitUni sp hp n ra (.node kb vb l rb)
      else do
        let r ← splitUni sp hp n (.node ka va .nil ra) rb
        splitUni sp hp n la (.node kb vb lb r)

/-- The loop of `int:by`. -/
def splitInt {β : Type} (sp hp : Noun → Noun → Bool) :
    Nat → Treap Noun β → Treap Noun β → Option (Treap Noun β)
  | 0, _, _ => none
  | _ + 1, _, .nil => some .nil
  | _ + 1, .nil, .node _ _ _ _ => some .nil
  | n + 1, .node ka va la ra, .node kb vb lb rb =>
      if hp ka kb then
        if kb = ka then do
          let l ← splitInt sp hp n la lb
          let r ← splitInt sp hp n ra rb
          return .node kb vb l r
        else if sp kb ka then do
          let x ← splitInt sp hp n la (.node kb vb lb .nil)
          let y ← splitInt sp hp n (.node ka va la ra) rb
          splitUni sp hp n x y
        else do
          let x ← splitInt sp hp n ra (.node kb vb .nil rb)
          let y ← splitInt sp hp n (.node ka va la ra) lb
          splitUni sp hp n x y
      else if ka = kb then do
        let l ← splitInt sp hp n la lb
        let r ← splitInt sp hp n ra rb
        return .node kb vb l r
      else if sp ka kb then do
        let x ← splitInt sp hp n (.node ka va la .nil) lb
        let y ← splitInt sp hp n ra (.node kb vb lb rb)
        splitUni sp hp n x y
      else do
        let x ← splitInt sp hp n (.node ka va .nil ra) rb
        let y ← splitInt sp hp n la (.node kb vb lb rb)
        splitUni sp hp n x y

/-- `+-uni:by`: union, merge. -/
def uni {β : Type} (mug : Noun → Nat) : Nat → Map β → Map β → Option (Map β) :=
  splitUni (hor mug) (vor mug)

/-- `+-int:by`: intersection. -/
def int {β : Type} (mug : Noun → Nat) : Nat → Map β → Map β → Option (Map β) :=
  splitInt (hor mug) (vor mug)

/-- `+-gas:by`: concatenate. -/
def gas {β : Type} [DecidableEq β] (mug : Noun → Nat) (m : Map β) (b : List (Noun × β)) :
    Map β :=
  b.foldl (fun m i => put mug m i.1 i.2) m

theorem gas_cons {β : Type} [DecidableEq β] (mug : Noun → Nat) (m : Map β) (i : Noun × β)
    (b : List (Noun × β)) : gas mug m (i :: b) = gas mug (put mug m i.1 i.2) b := rfl

/-! ### The loops follow the derivations -/

section follow

variable {β : Type} {sp hp : Noun → Noun → Bool} {a b c : Treap Noun β}

theorem splitUni_settles (hoh : SearchOrder hp) (h : Treap.Union sp hp a b c) :
    Settles (fun n => splitUni sp hp n a b) (some c) := by
  induction h with
  | nilRight a => exact .call (fun n => by cases a <;> rfl) (.const (some a))
  | nilLeft b => exact .call (fun n => by cases b <;> rfl) (.const (some b))
  | @same k va vb la ra lb rb l r _ _ ihl ihr =>
      have hstep : ∀ n, splitUni sp hp (n + 1) (.node k va la ra) (.node k vb lb rb) =
          splitUni sp hp n la lb >>= fun l =>
            splitUni sp hp n ra rb >>= fun r =>
              pure (.node k vb l r) := by
        intro n
        simp [splitUni]
      exact .call hstep (ihl.bind (ihr.bind (.const _)))
  | @firstLeft ka va la ra kb vb lb rb l c hk hle _ _ ihl ihc =>
      have hstep : ∀ n, splitUni sp hp (n + 1) (.node ka va la ra) (.node kb vb lb rb) =
          splitUni sp hp n la (.node kb vb lb .nil) >>= fun l =>
            splitUni sp hp n (.node ka va l ra) rb := by
        intro n
        rw [splitUni, if_pos hk.1, if_neg hk.2.symm, if_pos hle]
      exact .call hstep (ihl.bind ihc)
  | @firstRight ka va la ra kb vb lb rb r c hk hle _ _ ihr ihc =>
      have hstep : ∀ n, splitUni sp hp (n + 1) (.node ka va la ra) (.node kb vb lb rb) =
          splitUni sp hp n ra (.node kb vb .nil rb) >>= fun r =>
            splitUni sp hp n (.node ka va la r) lb := by
        intro n
        rw [splitUni, if_pos hk.1, if_neg hk.2.symm, hle, if_neg Bool.false_ne_true]
      exact .call hstep (ihr.bind ihc)
  | @secondLeft ka va la ra kb vb lb rb l c hk hle _ _ ihl ihc =>
      have hstep : ∀ n, splitUni sp hp (n + 1) (.node ka va la ra) (.node kb vb lb rb) =
          splitUni sp hp n (.node ka va la .nil) lb >>= fun l =>
            splitUni sp hp n ra (.node kb vb l rb) := by
        intro n
        rw [splitUni, hk.not_le hoh, if_neg Bool.false_ne_true, if_neg hk.2.symm, if_pos hle]
      exact .call hstep (ihl.bind ihc)
  | @secondRight ka va la ra kb vb lb rb r c hk hle _ _ ihr ihc =>
      have hstep : ∀ n, splitUni sp hp (n + 1) (.node ka va la ra) (.node kb vb lb rb) =
          splitUni sp hp n (.node ka va .nil ra) rb >>= fun r =>
            splitUni sp hp n la (.node kb vb lb r) := by
        intro n
        rw [splitUni, hk.not_le hoh, if_neg Bool.false_ne_true, if_neg hk.2.symm, hle,
          if_neg Bool.false_ne_true]
      exact .call hstep (ihr.bind ihc)

/-- More fuel does not change what the loop returns. -/
theorem splitUni_succ {n : Nat} (h : splitUni sp hp n a b = some c) :
    splitUni sp hp (n + 1) a b = some c := by
  induction n generalizing a b c with
  | zero => cases h
  | succ n ih =>
      cases b with
      | nil =>
          cases a <;> exact h
      | node kb vb lb rb =>
          cases a with
          | nil => exact h
          | node ka va la ra =>
              rw [splitUni] at h ⊢
              simp only [Option.bind_eq_bind, Option.pure_def] at h ⊢
              -- each branch makes two calls
              split_ifs at h ⊢ <;>
              · simp only [Option.bind_eq_some_iff] at h ⊢
                obtain ⟨l, hl, h⟩ := h
                refine ⟨l, ih hl, ?_⟩
                first
                | exact ih h
                | exact h.imp fun r hr => ⟨ih hr.1, hr.2⟩

/-- So what it returns is what it settles on. -/
theorem splitUni_eq {n : Nat} {d : Treap Noun β} (h : splitUni sp hp n a b = some c)
    (hset : Settles (fun n => splitUni sp hp n a b) (some d)) : c = d := by
  obtain ⟨N, hN⟩ := hset
  have hall : ∀ k, splitUni sp hp (n + k) a b = some c := by
    intro k
    induction k with
    | zero => exact h
    | succ k ih => exact splitUni_succ ih
  have hd : splitUni sp hp (n + N) a b = some d := hN (n + N) (Nat.le_add_left N n)
  rw [hall N] at hd
  exact Option.some.inj hd

/-- The other way round: what the loop returns has a derivation. -/
theorem union_of_splitUni (hoh : SearchOrder hp) {n : Nat} (h : splitUni sp hp n a b = some c) :
    Treap.Union sp hp a b c := by
  induction n generalizing a b c with
  | zero => cases h
  | succ n ih =>
      cases b with
      | nil =>
          rw [splitUni] at h
          cases h
          exact .nilRight _
      | node kb vb lb rb =>
          cases a with
          | nil =>
              cases h
              exact .nilLeft _
          | node ka va la ra =>
              simp only [splitUni, Option.bind_eq_bind, Option.pure_def] at h
              by_cases heq : kb = ka
              · subst heq
                -- of one key twice the same is made in both branches
                simp only [if_true, ite_self, Option.bind_eq_some_iff, Option.some.injEq] at h
                obtain ⟨l, hl, r, hr, rfl⟩ := h
                exact .same (ih hl) (ih hr)
              rw [if_neg heq, if_neg (Ne.symm heq)] at h
              by_cases hk : hp ka kb = true
              · have hb : Treap.Below hp ka kb := ⟨hk, Ne.symm heq⟩
                rw [if_pos hk] at h
                cases hle : sp kb ka with
                | true =>
                    rw [if_pos hle] at h
                    obtain ⟨l, hl, hc⟩ := Option.bind_eq_some_iff.mp h
                    exact .firstLeft hb hle (ih hl) (ih hc)
                | false =>
                    rw [if_neg (by simp [hle])] at h
                    obtain ⟨r, hr, hc⟩ := Option.bind_eq_some_iff.mp h
                    exact .firstRight hb hle (ih hr) (ih hc)
              · have hb : Treap.Below hp kb ka :=
                  Treap.below_of_not_le hoh (Ne.symm heq) (Bool.not_eq_true _ ▸ hk)
                rw [if_neg hk] at h
                cases hle : sp ka kb with
                | true =>
                    rw [if_pos hle] at h
                    obtain ⟨l, hl, hc⟩ := Option.bind_eq_some_iff.mp h
                    exact .secondLeft hb hle (ih hl) (ih hc)
                | false =>
                    rw [if_neg (by simp [hle])] at h
                    obtain ⟨r, hr, hc⟩ := Option.bind_eq_some_iff.mp h
                    exact .secondRight hb hle (ih hr) (ih hc)

theorem splitInt_settles (hoh : SearchOrder hp) (h : Treap.Inter sp hp a b c) :
    Settles (fun n => splitInt sp hp n a b) (some c) := by
  induction h with
  | nilRight a => exact .call (fun n => by cases a <;> rfl) (.const (some Treap.nil))
  | nilLeft b => exact .call (fun n => by cases b <;> rfl) (.const (some Treap.nil))
  | @same k va vb la ra lb rb l r _ _ ihl ihr =>
      have hstep : ∀ n, splitInt sp hp (n + 1) (.node k va la ra) (.node k vb lb rb) =
          splitInt sp hp n la lb >>= fun l =>
            splitInt sp hp n ra rb >>= fun r =>
              pure (.node k vb l r) := by
        intro n
        simp [splitInt]
      exact .call hstep (ihl.bind (ihr.bind (.const _)))
  | @firstLeft ka va la ra kb vb lb rb x y c hk hle _ _ hu ihx ihy =>
      have hstep : ∀ n, splitInt sp hp (n + 1) (.node ka va la ra) (.node kb vb lb rb) =
          splitInt sp hp n la (.node kb vb lb .nil) >>= fun x =>
            splitInt sp hp n (.node ka va la ra) rb >>= fun y =>
              splitUni sp hp n x y := by
        intro n
        rw [splitInt, if_pos hk.1, if_neg hk.2.symm, if_pos hle]
      exact .call hstep (ihx.bind (ihy.bind (splitUni_settles hoh hu)))
  | @firstRight ka va la ra kb vb lb rb x y c hk hle _ _ hu ihx ihy =>
      have hstep : ∀ n, splitInt sp hp (n + 1) (.node ka va la ra) (.node kb vb lb rb) =
          splitInt sp hp n ra (.node kb vb .nil rb) >>= fun x =>
            splitInt sp hp n (.node ka va la ra) lb >>= fun y =>
              splitUni sp hp n x y := by
        intro n
        rw [splitInt, if_pos hk.1, if_neg hk.2.symm, hle, if_neg Bool.false_ne_true]
      exact .call hstep (ihx.bind (ihy.bind (splitUni_settles hoh hu)))
  | @secondLeft ka va la ra kb vb lb rb x y c hk hle _ _ hu ihx ihy =>
      have hstep : ∀ n, splitInt sp hp (n + 1) (.node ka va la ra) (.node kb vb lb rb) =
          splitInt sp hp n (.node ka va la .nil) lb >>= fun x =>
            splitInt sp hp n ra (.node kb vb lb rb) >>= fun y =>
              splitUni sp hp n x y := by
        intro n
        rw [splitInt, hk.not_le hoh, if_neg Bool.false_ne_true, if_neg hk.2.symm, if_pos hle]
      exact .call hstep (ihx.bind (ihy.bind (splitUni_settles hoh hu)))
  | @secondRight ka va la ra kb vb lb rb x y c hk hle _ _ hu ihx ihy =>
      have hstep : ∀ n, splitInt sp hp (n + 1) (.node ka va la ra) (.node kb vb lb rb) =
          splitInt sp hp n (.node ka va .nil ra) rb >>= fun x =>
            splitInt sp hp n la (.node kb vb lb rb) >>= fun y =>
              splitUni sp hp n x y := by
        intro n
        rw [splitInt, hk.not_le hoh, if_neg Bool.false_ne_true, if_neg hk.2.symm, hle,
          if_neg Bool.false_ne_true]
      exact .call hstep (ihx.bind (ihy.bind (splitUni_settles hoh hu)))

end follow

/-! ### Maps that are put together -/

section maps

variable {β : Type} {mug : Noun → Nat} {S : Noun → Prop} {a b c : Map β}

theorem canon_put [DecidableEq β] (h : Treap.Canon (gor mug) (vor mug) a) (k : Noun) (v : β) :
    Treap.Canon (gor mug) (vor mug) (put mug a k v) :=
  ⟨Treap.ordered_insert (gor_searchOrder mug) h.ordered k v,
    Treap.heaped_insert (vor_searchOrder mug) h.heaped k v⟩

/-- A map that is built by puts is in both of its orders. -/
theorem canon_gas [DecidableEq β] (h : Treap.Canon (gor mug) (vor mug) a) (l : List (Noun × β)) :
    Treap.Canon (gor mug) (vor mug) (gas mug a l) := by
  induction l generalizing a with
  | nil => exact h
  | cons i l ih => exact ih (canon_put h i.1 i.2)

/-- The keys of a map that is built by puts are the keys that were put. -/
theorem allKeys_gas [DecidableEq β] (h : Treap.AllKeys S a) {l : List (Noun × β)}
    (hl : ∀ i ∈ l, S i.1) : Treap.AllKeys S (gas mug a l) := by
  induction l generalizing a with
  | nil => exact h
  | cons i l ih =>
      refine ih (Treap.allKeys_insert _ h (hl i List.mem_cons_self)) ?_
      exact fun j hj => hl j (List.mem_cons_of_mem i hj)

/-- `c` answers for both maps, for `b` where both have the key. -/
def IsUni (mug : Noun → Nat) (a b c : Map β) : Prop :=
  ∀ k, get mug c k = (get mug b k).or (get mug a k)

/-- `c` answers as `b` does where both maps have the key. -/
def IsInt (mug : Noun → Nat) (a b c : Map β) : Prop :=
  ∀ k, get mug c k = if (get mug a k).isSome then get mug b k else none

theorem isUni_of_joined (ha : Treap.Canon (gor mug) (vor mug) a)
    (hb : Treap.Canon (gor mug) (vor mug) b) (hc : Treap.Canon (gor mug) (vor mug) c)
    (h : Treap.Union.Joined a b c) : IsUni mug a b c := by
  have ho := gor_searchOrder mug
  intro k
  cases hk : get mug b k with
  | some v =>
      have hv := (Treap.lookup_eq_some ho hb.ordered).mp hk
      exact (Treap.lookup_eq_some ho hc.ordered).mpr ((h k v).mpr (.inl hv))
  | none =>
      have hno := (Treap.lookup_eq_none ho hb.ordered).mp hk
      rw [Option.none_or]
      refine Option.ext ?_
      intro v
      rw [get, get, Treap.lookup_eq_some ho hc.ordered, Treap.lookup_eq_some ho ha.ordered, h k v]
      constructor
      · rintro (hv | ⟨hv, -⟩)
        · exact absurd hv.has hno
        · exact hv
      · exact fun hv => .inr ⟨hv, hno⟩

theorem isInt_of_common (ha : Treap.Canon (gor mug) (vor mug) a)
    (hb : Treap.Canon (gor mug) (vor mug) b) (hc : Treap.Canon (gor mug) (vor mug) c)
    (h : Treap.Inter.Common a b c) : IsInt mug a b c := by
  have ho := gor_searchOrder mug
  intro k
  cases hk : get mug a k with
  | some w =>
      have hw := ((Treap.lookup_eq_some ho ha.ordered).mp hk).has
      rw [if_pos Option.isSome_some]
      refine Option.ext ?_
      intro v
      rw [get, get, Treap.lookup_eq_some ho hc.ordered, Treap.lookup_eq_some ho hb.ordered, h k v]
      exact ⟨fun hv => hv.1, fun hv => ⟨hv, hw⟩⟩
  | none =>
      have hno := (Treap.lookup_eq_none ho ha.ordered).mp hk
      rw [Option.isSome_none, if_neg Bool.false_ne_true]
      exact (Treap.lookup_eq_none ho hc.ordered).mpr fun hv => hno ((h.has k).mp hv).2

/-- What is wanted of `uni:by` on two maps: it returns, what it returns answers as it should,
and it is in the orders that the other arms rely on. -/
def Unites (mug : Noun → Nat) (a b : Map β) : Prop :=
  ∃ c, Settles (fun n => uni mug n a b) (some c) ∧ IsUni mug a b c ∧
    Treap.Ordered (gor mug) c ∧ Treap.Heaped (vor mug) c

/-- The same of `int:by`. -/
def Intersects (mug : Noun → Nat) (a b : Map β) : Prop :=
  ∃ d, Settles (fun n => int mug n a b) (some d) ∧ IsInt mug a b d ∧
    Treap.Ordered (gor mug) d ∧ Treap.Heaped (vor mug) d

theorem unites_of_shared (ha : Treap.Canon (gor mug) (vor mug) a)
    (hb : Treap.Canon (gor mug) (vor mug) b)
    (h : Treap.Shared (gor mug) (hor mug) (vor mug) (vor mug) a b c) : Unites mug a b := by
  obtain ⟨cc, jc⟩ := h.left.spec (gor_searchOrder mug) (vor_searchOrder mug) ha hb
  exact ⟨c, splitUni_settles (vor_searchOrder mug) h.right, isUni_of_joined ha hb cc jc,
    cc.ordered, cc.heaped⟩

theorem intersects_of_shared (ha : Treap.Canon (gor mug) (vor mug) a)
    (hb : Treap.Canon (gor mug) (vor mug) b)
    (h : Treap.Inter.Shared (gor mug) (hor mug) (vor mug) (vor mug) a b c) :
    Intersects mug a b := by
  obtain ⟨cc, jc⟩ := h.left.spec (gor_searchOrder mug) (vor_searchOrder mug) ha hb
  exact ⟨c, splitInt_settles (vor_searchOrder mug) h.right, isInt_of_common ha hb cc jc,
    cc.ordered, cc.heaped⟩

/-- A union that comes out in order by `++gor` was put together by answers of `++gor`. -/
theorem shared_of_unites (ha : Treap.Canon (gor mug) (vor mug) a)
    (hb : Treap.Canon (gor mug) (vor mug) b) (h : Unites mug a b) :
    ∃ c, Treap.Shared (gor mug) (hor mug) (vor mug) (vor mug) a b c := by
  have hv := vor_searchOrder mug
  obtain ⟨c, ⟨N, hN⟩, -, hord, -⟩ := h
  have hrun : Treap.Union (hor mug) (vor mug) a b c := union_of_splitUni hv (hN N le_rfl)
  exact ⟨c, hrun.shared_of_ordered (gor_searchOrder mug) (hor_searchOrder mug) hv ha hb hord⟩

/-- The union of two maps of one key each has one key below the other, on the side
`++hor` says. -/
theorem union_single {sp : Noun → Noun → Bool} {x y : Noun} {v w : β}
    (hxy : Treap.Below (vor mug) y x) :
    Treap.Union sp (vor mug) (.node x v .nil .nil) (.node y w .nil .nil)
      (if sp x y then .node y w (.node x v .nil .nil) .nil
        else .node y w .nil (.node x v .nil .nil)) := by
  cases h : sp x y with
  | true => exact .secondLeft hxy h (.nilRight _) (.nilLeft _)
  | false => exact .secondRight hxy h (.nilRight _) (.nilLeft _)

end maps

/-- On the two maps built of `a` and `b`: `uni:by` is right just if `++hor` answers as `++gor` does
whatever the loop asks on them; and then `int:by` is right too, if the same holds of its loop. -/
theorem merges_iff_shared (mug : Noun → Nat) (a b : List (Noun × Noun)) :
    (Unites mug (gas mug .nil a) (gas mug .nil b) ↔
      ∃ c, Treap.Shared (gor mug) (hor mug) (vor mug) (vor mug)
        (gas mug .nil a) (gas mug .nil b) c) ∧
    ((∃ d, Treap.Inter.Shared (gor mug) (hor mug) (vor mug) (vor mug)
        (gas mug .nil a) (gas mug .nil b) d) →
      Intersects mug (gas mug .nil a) (gas mug .nil b)) := by
  have ha : Treap.Canon (gor mug) (vor mug) (gas mug .nil a) := canon_gas Treap.canon_nil a
  have hb : Treap.Canon (gor mug) (vor mug) (gas mug .nil b) := canon_gas Treap.canon_nil b
  exact ⟨⟨shared_of_unites ha hb, fun ⟨_, h⟩ => unites_of_shared ha hb h⟩,
    fun ⟨_, h⟩ => intersects_of_shared ha hb h⟩

/-- The union of the maps of `[0 0]` and of `[0 1]` does not find the key `[0 0]`. -/
theorem uni_loses_key :
    ∃ c, Settles
        (fun n => uni mug n (gas mug .nil [(.cell (.atom 0) (.atom 0), Noun.atom 5)])
          (gas mug .nil [(.cell (.atom 0) (.atom 1), .atom 7)])) (some c) ∧
      get mug (gas mug .nil [(.cell (.atom 0) (.atom 0), Noun.atom 5)])
        (.cell (.atom 0) (.atom 0)) = some (.atom 5) ∧
      get mug (gas mug .nil [(.cell (.atom 0) (.atom 1), Noun.atom 7)])
        (.cell (.atom 0) (.atom 0)) = none ∧
      get mug c (.cell (.atom 0) (.atom 0)) = none := by
  have hvor : Treap.Below (vor mug) (.cell (.atom 0) (.atom 1)) (.cell (.atom 0) (.atom 0)) := by
    refine ⟨?_, by decide⟩
    simp only [vor, keyOrder, mug_zero_zero, mug_zero_one, mug_mug_zero_zero, mug_mug_zero_one]
    decide
  have hhor : hor mug (.cell (.atom 0) (.atom 0)) (.cell (.atom 0) (.atom 1)) = true := by
    simp only [hor, gor, keyOrder, mug_zero, mug_one]
    decide
  have hgor : gor mug (.cell (.atom 0) (.atom 0)) (.cell (.atom 0) (.atom 1)) = false := by
    simp only [gor, keyOrder, mug_zero_zero, mug_zero_one]
    decide
  refine ⟨_, splitUni_settles (vor_searchOrder mug) (union_single hvor), rfl, ?_, ?_⟩
  · show Treap.lookup (gor mug) (.node _ _ .nil .nil) _ = none
    simp [Treap.lookup, hgor]
  · rw [if_pos hhor]
    simp [get, Treap.lookup, hgor]

end Vere.Hoon
