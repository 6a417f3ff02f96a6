import Vere.Lib.Reach
import Vere.Mem.Cash
import Mathlib.Algebra.BigOperators.Fin
import Mathlib.Algebra.Order.BigOperators.Group.Finset

/-!
# Vere.Mem.CashSpec

What the memo cache holds, and that a search finds it.

The entries of a slot are where their keys lead (`Slot.Ok`): in a radix table below the
place of the next four bits, and in a collision table with no free place on the way. So no
two of them have one name, and a search finds an entry if there is one (`Slot.find_spec`).
A save puts the entry in and leaves the others, unless the key leads to a full table at the
last level, which it then does not change (`saveB_spec`).
-/

namespace Vere.Cash

open Function Vere.Lib Vere.Jets

/-! ### Entries -/

/-- The entry is that of the sample, and only its list is another one. -/
theorem Fit.sap_some {fit : Fit} {e e' : Entry} (h : fit.sap e = some e') :
    e.hed.val = fit.val ∧ e'.name = e.name ∧ e'.pro = e.pro := by
  rw [Fit.sap] at h
  split at h
  · next hany =>
    cases h
    obtain ⟨w, hw, hfing⟩ := List.any_eq_true.mp hany
    have hval : w.val = e.hed.val := by
      rcases List.mem_cons.mp hw with rfl | hw
      · rfl
      · exact e.same w hw
    exact ⟨hval.symm.trans (fit.fing_val hfing).symm, rfl, rfl⟩
  · split at h
    · next hsing =>
      have hval : e.hed.val = fit.val := (fit.sing_iff.mp hsing).symm
      cases h
      refine ⟨hval, ?_⟩
      split
      · exact ⟨rfl, rfl⟩
      · exact ⟨Prod.ext rfl (fit.make_val.trans hval.symm), rfl⟩
    · cases h

theorem Fit.sap_none {fit : Fit} {e : Entry} (h : fit.sap e = none) : e.hed.val ≠ fit.val := by
  intro hval
  rw [Fit.sap, dif_pos (fit.sing_iff.mpr hval.symm)] at h
  split at h <;> cases h

theorem hit_some {fit : Fit} {sel : Sel} {e e' : Entry} (h : e.hit fit sel = some e') :
    e.name = (sel, fit.val) ∧ e'.name = e.name ∧ e'.pro = e.pro := by
  rw [Entry.hit] at h
  split at h
  · next hsel =>
    obtain ⟨hval, hsame⟩ := Fit.sap_some h
    exact ⟨Prod.ext hsel.symm hval, hsame⟩
  · cases h

theorem hit_none {fit : Fit} {sel : Sel} {e : Entry} (h : e.hit fit sel = none) :
    e.name ≠ (sel, fit.val) := by
  intro hname
  obtain ⟨hsel, hval⟩ := Prod.mk.inj hname
  rw [Entry.hit, if_pos hsel.symm] at h
  exact Fit.sap_none h hval

theorem key_of_name {e e' : Entry} (h : e'.name = e.name) : e'.key = e.key :=
  congrArg Name.key h

theorem renew_name (ral : Rail) (pro : Word) (e : Entry) : (e.renew ral pro).name = e.name := by
  rw [Entry.renew]
  split <;> rfl

theorem renew_pro (ral : Rail) (pro : Word) (e : Entry) :
    (e.renew ral pro).pro.val = pro.val := by
  rw [Entry.renew]
  split
  · next h => exact (sing_iff.mp h).symm
  · exact ral.rx_val pro

/-! ### Contents -/

mutual

/-- The entry is in the slot. -/
def Slot.Has : {d : Nat} → Slot d → Entry → Prop
  | _, .a e, x => x = e
  | _, .b bag, x => bag.Has x
  | _, .c, _ => False

def Bag.Has : {d : Nat} → Bag d → Entry → Prop
  | _, .coll _ sid, x => ∃ j, sid j = some x
  | _ + 1, .radx _ sid, x => ∃ i, (sid i).Has x

end

/-- There is an entry of the name, with the product. -/
def Slot.Holds {d : Nat} (lot : Slot d) (k : Name) (p : Noun) : Prop :=
  ∃ x, lot.Has x ∧ x.name = k ∧ x.pro.val = p

mutual

/-- The number of entries. -/
def Slot.count : {d : Nat} → Slot d → Nat
  | _, .a _ => 1
  | _, .b bag => bag.count
  | _, .c => 0

def Bag.count : {d : Nat} → Bag d → Nat
  | _, .coll _ sid => filled sid
  | _ + 1, .radx _ sid => ∑ i, (sid i).count

end

theorem count_b {d : Nat} (bag : Bag d) : (Slot.b bag).count = bag.count := by
  rw [Slot.count]

section ok

variable (last : Nat → Fin 16)

/-- What a collision table keeps, where `P` is met by the keys that lead to it. -/
structure Table (d : Nat) (P : Nat → Prop) (rag : Nat) (sid : Fin 16 → Option Entry) :
    Prop where
  home : ∀ j x, sid j = some x → P x.key
  reach : Reached (fun x : Entry => index last d x.key) sid
  apart : Apart Entry.name sid
  rag_eq : rag = filled sid
  rag_le : d ≠ 0 → rag ≤ cashHi

mutual

/-- The entries are where their keys lead. -/
def Slot.Ok : {d : Nat} → (Nat → Prop) → Slot d → Prop
  | _, P, .a e => P e.key
  | _, P, .b bag => bag.Ok P
  | _, _, .c => True

def Bag.Ok : {d : Nat} → (Nat → Prop) → Bag d → Prop
  | d, P, .coll rag sid => Table last d P rag sid
  | d + 1, P, .radx _ sid => ∀ i, (sid i).Ok fun k => P k ∧ index last (d + 1) k = i

end

mutual

/-- The name has no entry, and its key leads to a table of the last level that has no room. -/
def Slot.Full (k : Name) : {d : Nat} → Slot d → Prop
  | _, .a _ => False
  | _, .b bag => bag.Full k
  | _, .c => False

def Bag.Full (k : Name) : {d : Nat} → Bag d → Prop
  | 0, .coll _ sid => ∀ j, ∃ x, sid j = some x ∧ x.name ≠ k
  | _ + 1, .coll _ _ => False
  | d + 1, .radx _ sid => (sid (index last (d + 1) k.key)).Full k

end

end ok

variable {last : Nat → Fin 16} {d : Nat} {P : Nat → Prop}

mutual

theorem Slot.key_of_has : ∀ {d : Nat} {P : Nat → Prop} (lot : Slot d) {x : Entry},
    lot.Ok last P → lot.Has x → P x.key
  | _, _, .a _, _, hok, hx => by
      rw [Slot.Has] at hx
      rw [Slot.Ok] at hok
      rwa [hx]
  | _, _, .b bag, _, hok, hx => by
      rw [Slot.Has] at hx
      rw [Slot.Ok] at hok
      exact Bag.key_of_has bag hok hx
  | _, _, .c, _, _, hx => by
      rw [Slot.Has] at hx
      exact hx.elim

theorem Bag.key_of_has : ∀ {d : Nat} {P : Nat → Prop} (bag : Bag d) {x : Entry},
    bag.Ok last P → bag.Has x → P x.key
  | _, _, .coll _ _, x, hok, hx => by
      rw [Bag.Has] at hx
      rw [Bag.Ok] at hok
      obtain ⟨j, hj⟩ := hx
      exact hok.home j x hj
  | _ + 1, _, .radx _ sid, _, hok, hx => by
      rw [Bag.Has] at hx
      rw [Bag.Ok] at hok
      obtain ⟨i, hi⟩ := hx
      exact (Slot.key_of_has (sid i) (hok i) hi).1

end

mutual

theorem Slot.count_of_full : ∀ {d : Nat} (lot : Slot d) {k : Name}, lot.Full last k →
    16 ≤ lot.count
  | _, .a _, _, h => by
      rw [Slot.Full] at h
      exact h.elim
  | _, .b bag, _, h => by
      rw [Slot.Full] at h
      rw [Slot.count]
      exact Bag.count_of_full bag h
  | _, .c, _, h => by
      rw [Slot.Full] at h
      exact h.elim

theorem Bag.count_of_full : ∀ {d : Nat} (bag : Bag d) {k : Name}, bag.Full last k →
    16 ≤ bag.count
  | 0, .coll _ sid, _, h => by
      rw [Bag.Full] at h
      rw [Bag.count]
      by_contra hlt
      obtain ⟨j, hj⟩ : ∃ j, sid j = none := exists_free (by simpa using hlt)
      obtain ⟨x, hx, -⟩ := h j
      rw [hj] at hx
      cases hx
  | _ + 1, .coll _ _, _, h => by
      rw [Bag.Full] at h
      exact h.elim
  | d + 1, .radx _ sid, k, h => by
      rw [Bag.Full] at h
      rw [Bag.count]
      refine le_trans (Slot.count_of_full (sid (index last (d + 1) k.key)) h) ?_
      exact Finset.single_le_sum (f := fun i => (sid i).count) (fun _ _ => Nat.zero_le _)
        (Finset.mem_univ _)

end

/-! ### Tables -/

/-- An entry of a radix table is where its key leads. -/
theorem radx_has {rag : Nat} {sid : Fin 16 → Slot d} (hok : (Bag.radx rag sid).Ok last P)
    {x : Entry} : (Bag.radx rag sid).Has x ↔ (sid (index last (d + 1) x.key)).Has x := by
  rw [Bag.Ok] at hok
  rw [Bag.Has]
  constructor
  · rintro ⟨i, hi⟩
    have hxi : index last (d + 1) x.key = i := (Slot.key_of_has (sid i) (hok i) hi).2
    rwa [hxi]
  · exact fun hx => ⟨_, hx⟩

mutual

/-- A slot that is full for a name has no entry of it. -/
theorem Slot.ne_of_full : ∀ {d : Nat} {P : Nat → Prop} (lot : Slot d) {k : Name} {x : Entry},
    lot.Ok last P → lot.Full last k → lot.Has x → x.name ≠ k
  | _, _, .a _, _, _, _, h, _ => by
      rw [Slot.Full] at h
      exact h.elim
  | _, _, .b bag, _, _, hok, h, hx => by
      rw [Slot.Ok] at hok
      rw [Slot.Full] at h
      rw [Slot.Has] at hx
      exact Bag.ne_of_full bag hok h hx
  | _, _, .c, _, _, _, h, _ => by
      rw [Slot.Full] at h
      exact h.elim

theorem Bag.ne_of_full : ∀ {d : Nat} {P : Nat → Prop} (bag : Bag d) {k : Name} {x : Entry},
    bag.Ok last P → bag.Full last k → bag.Has x → x.name ≠ k
  | 0, _, .coll _ _, _, x, _, h, hx => by
      rw [Bag.Full] at h
      rw [Bag.Has] at hx
      obtain ⟨j, hj⟩ := hx
      obtain ⟨y, hy, hne⟩ := h j
      rw [hj] at hy
      rwa [Option.some.inj hy]
  | _ + 1, _, .coll _ _, _, _, _, h, _ => by
      rw [Bag.Full] at h
      exact h.elim
  | d + 1, _, .radx _ sid, k, x, hok, h, hx => by
      intro hname
      rw [radx_has hok, Entry.key, hname] at hx
      rw [Bag.Ok] at hok
      rw [Bag.Full] at h
      exact Slot.ne_of_full (sid (index last (d + 1) k.key)) (hok _) h hx hname

end

/-- What a radix table holds of a name is where its key leads. -/
theorem radx_holds {rag : Nat} {sid : Fin 16 → Slot d} (hok : (Bag.radx rag sid).Ok last P)
    (k : Name) (p : Noun) :
    (Slot.b (.radx rag sid)).Holds k p ↔ (sid (index last (d + 1) k.key)).Holds k p := by
  constructor
  · rintro ⟨x, hx, rfl, hp⟩
    rw [Slot.Has, radx_has hok] at hx
    exact ⟨x, hx, rfl, hp⟩
  · rintro ⟨x, hx, rfl, hp⟩
    refine ⟨x, ?_, rfl, hp⟩
    rw [Slot.Has, radx_has hok]
    exact hx

theorem radx_ok {rag rag' : Nat} {sid : Fin 16 → Slot d} {i : Fin 16} {lot : Slot d}
    (hok : (Bag.radx rag sid).Ok last P)
    (hlot : lot.Ok last fun k => P k ∧ index last (d + 1) k = i) :
    (Bag.radx rag' (update sid i lot)).Ok last P := by
  rw [Bag.Ok] at hok ⊢
  intro i'
  by_cases hi : i' = i
  · subst hi
    rwa [update_self]
  · rw [update_of_ne hi]
    exact hok i'

theorem radx_count {rag rag' : Nat} {sid : Fin 16 → Slot d} {i : Fin 16} {lot : Slot d}
    (h : lot.count ≤ (sid i).count + 1) :
    (Bag.radx rag' (update sid i lot)).count ≤ (Bag.radx rag sid).count + 1 := by
  rw [Bag.count, Bag.count]
  have hnew : (fun i' => (update sid i lot i').count)
      = update (fun i' => (sid i').count) i lot.count := by
    funext i'
    by_cases hi : i' = i
    · subst hi
      rw [update_self, update_self]
    · rw [update_of_ne hi, update_of_ne hi]
  rw [hnew, Finset.sum_update_of_mem (Finset.mem_univ i),
    ← Finset.add_sum_erase _ _ (Finset.mem_univ i), Finset.sdiff_singleton_eq_erase]
  omega

namespace Table

variable {rag : Nat} {sid : Fin 16 → Option Entry} {j : Fin 16} {x y : Entry}

theorem replace (h : Table last d P rag sid) (hj : sid j = some x) (hname : y.name = x.name) :
    Table last d P rag (update sid j (some y)) where
  home := slots_fill (P := fun _ x => P x.key) (key_of_name hname ▸ h.home j x hj)
    fun q z _ hz => h.home q z hz
  reach := h.reach.replace hj (congrArg (index last d) (key_of_name hname))
  apart := h.apart.replace hj hname
  rag_eq := h.rag_eq.trans (filled_replace hj).symm
  rag_le := h.rag_le

/-- What a table holds after an entry was replaced. -/
theorem replace_holds (h : Table last d P rag sid) (hj : sid j = some x)
    (hname : y.name = x.name) (k : Name) (p : Noun) :
    (Slot.b (d := d) (.coll rag (update sid j (some y)))).Holds k p
      ↔ if k = x.name then p = y.pro.val else (Slot.b (d := d) (.coll rag sid)).Holds k p := by
  simp only [Slot.Holds, Slot.Has, Bag.Has]
  split
  · next hk =>
    constructor
    · rintro ⟨z, ⟨q, hq⟩, hz, rfl⟩
      have hqj := (h.replace hj hname).apart q j z y hq (update_self ..)
        (hz.trans (hk.trans hname.symm))
      subst hqj
      rw [update_self] at hq
      rw [Option.some.inj hq]
    · rintro rfl
      exact ⟨y, ⟨j, update_self ..⟩, hname.trans hk.symm, rfl⟩
  · next hk =>
    constructor
    · rintro ⟨z, ⟨q, hq⟩, hz, hp⟩
      have hqj : q ≠ j := by
        rintro rfl
        rw [update_self] at hq
        cases hq
        exact hk (hz.symm.trans hname)
      rw [update_of_ne hqj] at hq
      exact ⟨z, ⟨q, hq⟩, hz, hp⟩
    · rintro ⟨z, ⟨q, hq⟩, hz, hp⟩
      have hqj : q ≠ j := by
        rintro rfl
        rw [hj] at hq
        cases hq
        exact hk hz.symm
      exact ⟨z, ⟨q, by rwa [update_of_ne hqj]⟩, hz, hp⟩

end Table

/-! ### Search -/

/-- What a search for `k` returns, and what it leaves. -/
structure Finds (last : Nat → Fin 16) (P : Nat → Prop) (lot : Slot d) (k : Name)
    (r : Option Word × Slot d) : Prop where
  pro : ∀ w, r.1 = some w ↔ ∃ x, lot.Has x ∧ x.name = k ∧ x.pro = w
  ok : r.2.Ok last P
  holds : ∀ k' p, r.2.Holds k' p ↔ lot.Holds k' p

section find

variable {fit : Fit} {sel : Sel}

/-- The loop stops at an entry of the name, or there is none. -/
theorem findColl_cases (fit : Fit) (sel : Sel) (sid : Fin 16 → Option Entry) (l : List (Fin 16)) :
    (∃ j e e', sid j = some e ∧ e.hit fit sel = some e'
        ∧ findColl fit sel sid l = (some e'.pro, update sid j (some e')))
      ∨ findColl fit sel sid l = (none, sid)
        ∧ ∀ j ∈ l, ∀ e, sid j = some e → e.hit fit sel = none := by
  induction l with
  | nil => exact .inr ⟨rfl, fun _ hj => nomatch hj⟩
  | cons j rest ih =>
      rw [findColl]
      cases hhit : (sid j).bind (Entry.hit fit sel) with
      | some e' =>
          obtain ⟨e, he, hhit⟩ := Option.bind_eq_some_iff.mp hhit
          exact .inl ⟨j, e, e', he, hhit, rfl⟩
      | none =>
          refine ih.imp_right fun ⟨heq, hrest⟩ => ⟨heq, fun q hq e he => ?_⟩
          rcases List.mem_cons.mp hq with rfl | hq
          · rwa [he] at hhit
          · exact hrest q hq e he

theorem coll_find (key : Nat) {rag : Nat} {sid : Fin 16 → Option Entry}
    (hok : Table last d P rag sid) :
    Finds last P (.b (.coll rag sid)) (sel, fit.val)
      ((Slot.b (.coll rag sid) : Slot d).find last fit sel key) := by
  rw [Slot.find, Bag.find]
  rcases findColl_cases fit sel sid (round (index last d key)) with
    ⟨j, e, e', hj, hhit, heq⟩ | ⟨heq, hnone⟩
  · obtain ⟨hname, hname', hpro⟩ := hit_some hhit
    rw [heq]
    refine ⟨fun w => ?_, ?_, fun k p => ?_⟩
    · constructor
      · intro hw
        refine ⟨e, ?_, hname, hpro.symm.trans (Option.some.inj hw)⟩
        rw [Slot.Has, Bag.Has]
        exact ⟨j, hj⟩
      · rintro ⟨x, hx, hxname, rfl⟩
        rw [Slot.Has, Bag.Has] at hx
        obtain ⟨q, hq⟩ := hx
        have hqj := hok.apart q j x e hq hj (hxname.trans hname.symm)
        rw [hqj, hj] at hq
        rw [← Option.some.inj hq, hpro]
    · rw [Slot.Ok, Bag.Ok]
      exact hok.replace hj hname'
    · rw [hok.replace_holds hj hname']
      split
      · next hk =>
        simp only [Slot.Holds, Slot.Has, Bag.Has]
        constructor
        · rintro rfl
          exact ⟨e, ⟨j, hj⟩, hk.symm, by rw [hpro]⟩
        · rintro ⟨x, ⟨q, hq⟩, hx, rfl⟩
          have hqj := hok.apart q j x e hq hj (hx.trans hk)
          rw [hqj, hj] at hq
          rw [← Option.some.inj hq, hpro]
      · rfl
  · rw [heq]
    refine ⟨fun w => ⟨fun hw => (nomatch hw), ?_⟩, ?_, fun k p => Iff.rfl⟩
    · rintro ⟨x, hx, hname, -⟩
      rw [Slot.Has, Bag.Has] at hx
      obtain ⟨q, hq⟩ := hx
      exact absurd hname (hit_none (hnone q (mem_round _ q) x hq))
    · rw [Slot.Ok, Bag.Ok]
      exact hok

/-- A search in a radix table is one where the key leads. -/
theorem radx_find {rag : Nat} {sid : Fin 16 → Slot d} (hok : (Bag.radx rag sid).Ok last P)
    {i : Fin 16} (hi : index last (d + 1) (Name.key (sel, fit.val)) = i)
    (hfind : Finds last (fun k => P k ∧ index last (d + 1) k = i) (sid i) (sel, fit.val)
      ((sid i).find last fit sel (Name.key (sel, fit.val)))) :
    Finds last P (.b (.radx rag sid)) (sel, fit.val)
      ((Slot.b (.radx rag sid)).find last fit sel (Name.key (sel, fit.val))) := by
  rw [Slot.find, Bag.find, hi]
  have hok' : (Bag.radx rag (update sid i
      ((sid i).find last fit sel (Name.key (sel, fit.val))).2)).Ok last P := radx_ok hok hfind.ok
  refine ⟨fun w => ?_, ?_, fun k p => ?_⟩
  · rw [hfind.pro]
    constructor
    · rintro ⟨x, hx, hname, hw⟩
      refine ⟨x, ?_, hname, hw⟩
      rw [Slot.Has, Bag.Has]
      exact ⟨i, hx⟩
    · rintro ⟨x, hx, hname, hw⟩
      rw [Slot.Has, radx_has hok, Entry.key, hname, hi] at hx
      exact ⟨x, hx, hname, hw⟩
  · rw [Slot.Ok]
    exact hok'
  · rw [radx_holds hok', radx_holds hok]
    by_cases hk : index last (d + 1) k.key = i
    · rw [hk, update_self, hfind.holds]
    · rw [update_of_ne hk]

mutual

/-- A search in a slot that the key of the name leads to. -/
theorem Slot.find_spec : ∀ {d : Nat} {P : Nat → Prop} (lot : Slot d), lot.Ok last P →
    P (Name.key (sel, fit.val)) →
    Finds last P lot (sel, fit.val) (lot.find last fit sel (Name.key (sel, fit.val)))
  | _, P, .a e, hok, _ => by
      rw [Slot.Ok] at hok
      rw [Slot.find]
      cases hhit : e.hit fit sel with
      | some e' =>
          obtain ⟨hname, hname', hpro⟩ := hit_some hhit
          refine ⟨fun w => ?_, ?_, fun k p => ?_⟩
          · simp only [Slot.Has, exists_eq_left, hname, true_and, ← hpro, Option.some.injEq]
          · rw [Slot.Ok, key_of_name hname']
            exact hok
          · simp only [Slot.Holds, Slot.Has, exists_eq_left, hname', hpro]
      | none =>
          refine ⟨fun w => ?_, ?_, fun k p => Iff.rfl⟩
          · simp only [Slot.Has, exists_eq_left, hit_none hhit, false_and, reduceCtorEq]
          · rwa [Slot.Ok]
  | _, _, .b bag, hok, hP => by
      rw [Slot.Ok] at hok
      exact Bag.find_spec bag hok hP
  | _, _, .c, _, _ => by
      rw [Slot.find]
      refine ⟨fun w => ?_, ?_, fun k p => Iff.rfl⟩
      · simp only [Slot.Has, false_and, exists_false, reduceCtorEq]
      · rw [Slot.Ok]
        trivial

theorem Bag.find_spec : ∀ {d : Nat} {P : Nat → Prop} (bag : Bag d), bag.Ok last P →
    P (Name.key (sel, fit.val)) →
    Finds last P (.b bag) (sel, fit.val)
      ((Slot.b bag).find last fit sel (Name.key (sel, fit.val)))
  | _, _, .coll _ _, hok, _ => by
      rw [Bag.Ok] at hok
      exact coll_find _ hok
  | d + 1, _, .radx _ sid, hok, hP => by
      refine radx_find hok rfl ?_
      rw [Bag.Ok] at hok
      exact Slot.find_spec (sid _) (hok _) ⟨hP, rfl⟩

end

end find

/-! ### Saving -/

/-- What a save of `e` makes of a slot: it is put in, unless the slot is full for it. -/
structure Puts (last : Nat → Fin 16) (P : Nat → Prop) (lot : Slot d) (e : Entry)
    (lot' : Slot d) : Prop where
  ok : lot'.Ok last P
  count : lot'.count ≤ lot.count + 1
  full : lot.Full last e.name → ∀ k p, lot'.Holds k p ↔ lot.Holds k p
  holds : ¬lot.Full last e.name → ∀ k p,
    lot'.Holds k p ↔ if k = e.name then p = e.pro.val else lot.Holds k p

/-- A save into a slot does not fail, and does that. -/
def Saves (last : Nat → Fin 16) (low : Slot d → Nat → Entry → Option (Slot d × Bool)) : Prop :=
  ∀ (P : Nat → Prop) (lot : Slot d) (e : Entry), lot.Ok last P → P e.key →
    ∃ r, low lot e.key e = some r ∧ Puts last P lot e r.1

/-- The same for a save into a table. -/
def SavesB (last : Nat → Fin 16) (low : Bag d → Nat → Entry → Option (Bag d × Bool)) : Prop :=
  ∀ (P : Nat → Prop) (bag : Bag d) (e : Entry), bag.Ok last P → P e.key →
    ∃ r, low bag e.key e = some r ∧ Puts last P (.b bag) e (.b r.1)

variable {ral : Rail}

/-- Where the loop stops: nowhere, at a free place, or at an entry of the name. -/
theorem saveColl_cases (ral : Rail) (d : Nat) (e : Entry) (rag : Nat) (sid : Fin 16 → Option Entry)
    (l : List (Fin 16)) :
    match l.find? (fun j => (sid j).all fun o => (o.hit (.noun ral e.hed) e.sel).isSome) with
    | none => saveColl ral d e rag sid l = (.coll rag sid, false)
    | some j =>
        match sid j with
        | none =>
            saveColl ral d e rag sid l
              = (.coll (rag + 1) (update sid j (some (saveC ral e))), true)
        | some o => ∃ o', o.hit (.noun ral e.hed) e.sel = some o' ∧
            saveColl ral d e rag sid l
              = (.coll rag (update sid j (some (o'.renew ral e.pro))), false) := by
  induction l with
  | nil => rfl
  | cons j rest ih =>
      rw [List.find?_cons, saveColl]
      cases hj : sid j with
      | none => simp [hj]
      | some o =>
          cases hhit : o.hit (.noun ral e.hed) e.sel with
          | none => simpa [hhit] using ih
          | some o' => simp [hj, hhit]

theorem coll_full {k : Name} {rag : Nat} {sid : Fin 16 → Option Entry}
    (h : (Slot.b (d := d) (.coll rag sid)).Full last k) (j : Fin 16) :
    ∃ x, sid j = some x ∧ x.name ≠ k := by
  rw [Slot.Full] at h
  cases d with
  | zero =>
      rw [Bag.Full] at h
      exact h j
  | succ d =>
      rw [Bag.Full] at h
      exact h.elim

/-- A save into a collision table that is not to turn. -/
theorem saveColl_spec {rag : Nat} {sid : Fin 16 → Option Entry} {e : Entry}
    (hok : Table last d P rag sid) (hP : P e.key) (hrag : d ≠ 0 → rag < cashHi) :
    Puts last P (.b (.coll rag sid)) e
      (.b (saveColl ral d e rag sid (round (index last d e.key))).1) := by
  have hcases := saveColl_cases ral d e rag sid (round (index last d e.key))
  cases hprobe : probe (fun o : Entry => (o.hit (.noun ral e.hed) e.sel).isSome) sid
    (index last d e.key) with
  | none =>
      rw [probe] at hprobe
      rw [hprobe] at hcases
      rw [hcases]
      refine ⟨?_, Nat.le_succ _, fun _ _ _ => Iff.rfl, fun hfull => absurd ?_ hfull⟩
      · rw [Slot.Ok, Bag.Ok]
        exact hok
      · cases d with
        | succ d =>
            -- below the last level the table has a free place
            have hlt : filled sid < 16 := by
              have hrag := hrag (Nat.succ_ne_zero d)
              rw [← hok.rag_eq]
              exact lt_trans hrag (by decide)
            obtain ⟨j, hj⟩ := probe_stops (i := index last (d + 1) e.key)
              (p := fun o : Entry => (o.hit (.noun ral e.hed) e.sel).isSome) hlt
            rw [probe, hprobe] at hj
            cases hj
        | zero =>
            rw [Slot.Full, Bag.Full]
            intro j
            have hj := probe_none hprobe j
            cases hx : sid j with
            | none =>
                rw [hx] at hj
                cases hj
            | some x =>
                rw [hx, Option.all_some, Option.isSome_eq_false_iff, Option.isNone_iff_eq_none]
                  at hj
                exact ⟨x, rfl, hit_none hj⟩
  | some j =>
      have hstop := hprobe
      rw [probe] at hprobe
      rw [hprobe] at hcases
      cases hj : sid j with
      | none =>
          simp only [hj] at hcases
          rw [hcases]
          -- no entry has the name: the search from its home would have stopped there
          have hnew : ∀ q x, sid q = some x → x.name ≠ e.name := by
            intro q x hq hname
            have hnot := probe_free hok.reach hstop hj hq
              (congrArg (index last d) (key_of_name hname))
            rw [Option.isSome_eq_false_iff, Option.isNone_iff_eq_none] at hnot
            exact hit_none hnot hname
          have htab : Table last d P (rag + 1) (update sid j (some (saveC ral e))) := {
            home := slots_fill (x := saveC ral e) (P := fun _ x => P x.key) hP
              fun q z _ hz => hok.home q z hz
            reach := hok.reach.fill (x := saveC ral e) hstop hj
            apart := hok.apart.fill fun q z _ hz => hnew q z hz
            rag_eq := by rw [filled_fill hj, ← hok.rag_eq]
            rag_le := hrag }
          refine ⟨?_, ?_, fun hfull => ?_, fun _ k p => ?_⟩
          · rw [Slot.Ok, Bag.Ok]
            exact htab
          · rw [Slot.count, Bag.count, Slot.count, Bag.count, filled_fill hj]
          · obtain ⟨x, hx, -⟩ := coll_full hfull j
            rw [hj] at hx
            cases hx
          · simp only [Slot.Holds, Slot.Has, Bag.Has]
            split
            · next hk =>
              constructor
              · rintro ⟨x, ⟨q, hq⟩, hx, rfl⟩
                have hqj : q = j := by
                  by_contra hne
                  rw [update_of_ne hne] at hq
                  exact hnew q x hq (hx.trans hk)
                rw [hqj, update_self] at hq
                cases hq
                exact ral.rx_val _
              · rintro rfl
                exact ⟨saveC ral e, ⟨j, update_self ..⟩, hk.symm, ral.rx_val _⟩
            · next hk =>
              constructor
              · rintro ⟨x, ⟨q, hq⟩, hx, hp⟩
                refine ⟨x, ⟨q, ?_⟩, hx, hp⟩
                rwa [update_of_ne] at hq
                rintro rfl
                rw [update_self] at hq
                cases hq
                exact hk hx.symm
              · rintro ⟨x, ⟨q, hq⟩, hx, hp⟩
                exact ⟨x, ⟨q, slot_of_none hj _ hq⟩, hx, hp⟩
      | some o =>
          simp only [hj] at hcases
          obtain ⟨o', hhit, hcases⟩ := hcases
          obtain ⟨hname, hname', -⟩ := hit_some hhit
          have hrenew : (o'.renew ral e.pro).name = o.name := (renew_name ..).trans hname'
          rw [hcases]
          refine ⟨?_, ?_, fun hfull => ?_, fun _ k p => ?_⟩
          · rw [Slot.Ok, Bag.Ok]
            exact hok.replace hj hrenew
          · rw [Slot.count, Bag.count, Slot.count, Bag.count, filled_replace hj]
            exact Nat.le_succ _
          · obtain ⟨x, hx, hne⟩ := coll_full hfull j
            rw [hj] at hx
            cases hx
            exact absurd hname hne
          · have hname : o.name = e.name := hname
            rw [hok.replace_holds hj hrenew, hname, renew_pro]

/-- A save into a radix table is one where the key leads. -/
theorem saveRadx_spec {low : Slot d → Nat → Entry → Option (Slot d × Bool)}
    (hlow : Saves last low) {tab : Nat × (Fin 16 → Slot d)} {e : Entry}
    (hok : (Bag.radx tab.1 tab.2).Ok last P) (hP : P e.key) :
    ∃ r, saveRadx last low tab e.key e = some r
      ∧ Puts last P (.b (.radx tab.1 tab.2)) e (.b (.radx r.1.1 r.1.2)) := by
  obtain ⟨rag, sid⟩ := tab
  have hsid : ∀ i, (sid i).Ok last fun k => P k ∧ index last (d + 1) k = i := by
    rwa [Bag.Ok] at hok
  obtain ⟨⟨lot, ave⟩, hsave, hputs⟩ := hlow _ _ e (hsid (index last (d + 1) e.key)) ⟨hP, rfl⟩
  refine ⟨((if ave then rag + 1 else rag, update sid (index last (d + 1) e.key) lot), ave),
    ?_, ?_⟩
  · simp [saveRadx, hsave]
  have hok' : (Bag.radx (if ave then rag + 1 else rag)
      (update sid (index last (d + 1) e.key) lot)).Ok last P := radx_ok hok hputs.ok
  refine ⟨?_, ?_, fun hfull k p => ?_, fun hfull k p => ?_⟩
  · rw [Slot.Ok]
    exact hok'
  · rw [Slot.count, Slot.count]
    exact radx_count hputs.count
  · have hlot : (sid (index last (d + 1) e.key)).Full last e.name := by
      rwa [Slot.Full, Bag.Full] at hfull
    rw [radx_holds hok', radx_holds hok]
    by_cases hi : index last (d + 1) k.key = index last (d + 1) e.key
    · rw [hi, update_self]
      exact hputs.full hlot k p
    · rw [update_of_ne hi]
  · have hlot : ¬(sid (index last (d + 1) e.key)).Full last e.name := by
      rwa [Slot.Full, Bag.Full] at hfull
    rw [radx_holds hok', radx_holds hok]
    by_cases hi : index last (d + 1) k.key = index last (d + 1) e.key
    · rw [hi, update_self]
      exact hputs.holds hlot k p
    · have hk : k ≠ e.name := by
        rintro rfl
        exact hi rfl
      rw [update_of_ne hi, if_neg hk]

/-- The entries of some places of a collision table, put into a radix table one by one. -/
theorem moreB_loop {low : Slot d → Nat → Entry → Option (Slot d × Bool)}
    (hlow : Saves last low) {rag : Nat} {sid : Fin 16 → Option Entry}
    (hsid : Table last (d + 1) P rag sid) (l : List (Fin 16)) (hl : l.Nodup)
    (done : Fin 16 → Prop) (hdone : ∀ j ∈ l, ¬done j) (tab : Nat × (Fin 16 → Slot d))
    (hok : (Bag.radx tab.1 tab.2).Ok last P)
    (hcount : (Bag.radx tab.1 tab.2).count + (l.filter fun j => (sid j).isSome).length < 16)
    (hholds : ∀ k p, (Slot.b (.radx tab.1 tab.2)).Holds k p
      ↔ ∃ j x, done j ∧ sid j = some x ∧ x.name = k ∧ x.pro.val = p) :
    ∃ tab', l.foldlM (moreOne last low sid) tab = some tab'
      ∧ (Bag.radx tab'.1 tab'.2).Ok last P
      ∧ (Bag.radx tab'.1 tab'.2).count
        ≤ (Bag.radx tab.1 tab.2).count + (l.filter fun j => (sid j).isSome).length
      ∧ ∀ k p, (Slot.b (.radx tab'.1 tab'.2)).Holds k p
        ↔ ∃ j x, (done j ∨ j ∈ l) ∧ sid j = some x ∧ x.name = k ∧ x.pro.val = p := by
  induction l generalizing done tab with
  | nil => exact ⟨tab, rfl, hok, Nat.le_add_right _ _, by simpa using hholds⟩
  | cons i l ih =>
      obtain ⟨hi, hl⟩ := List.nodup_cons.mp hl
      rw [List.foldlM_cons]
      cases he : sid i with
      | none =>
          have hrest : (List.filter (fun j => (sid j).isSome) (i :: l))
              = l.filter fun j => (sid j).isSome := by simp [he]
          rw [hrest] at hcount ⊢
          obtain ⟨tab', hfold, hok', hcount', hholds'⟩ := ih hl done
            (fun j hj => hdone j (List.mem_cons_of_mem i hj)) tab hok hcount hholds
          have hone : moreOne last low sid tab i = some tab := by rw [moreOne, he]
          refine ⟨tab', by rw [hone]; exact hfold, hok', hcount',
            fun k p => (hholds' k p).trans ?_⟩
          constructor
          · rintro ⟨j, x, hj, h⟩
            exact ⟨j, x, hj.imp_right (List.mem_cons_of_mem i), h⟩
          · rintro ⟨j, x, hj, hx, h⟩
            refine ⟨j, x, hj.imp_right fun hj => ?_, hx, h⟩
            rcases List.mem_cons.mp hj with rfl | hj
            · rw [he] at hx
              cases hx
            · exact hj
      | some e =>
          have hrest : (List.filter (fun j => (sid j).isSome) (i :: l)).length
              = (l.filter fun j => (sid j).isSome).length + 1 := by simp [he]
          rw [hrest] at hcount ⊢
          obtain ⟨⟨tab₁, ave⟩, hsave, hputs⟩ := saveRadx_spec hlow hok (hsid.home i e he)
          have hok₁ : (Bag.radx tab₁.1 tab₁.2).Ok last P := by
            have hok₁ := hputs.ok
            rwa [Slot.Ok] at hok₁
          have hcount₁ : (Bag.radx tab₁.1 tab₁.2).count ≤ (Bag.radx tab.1 tab.2).count + 1 := by
            have hcount₁ := hputs.count
            rwa [Slot.count, Slot.count] at hcount₁
          have hnot : ¬(Slot.b (.radx tab.1 tab.2)).Full last e.name := by
            intro hfull
            have hmany := Slot.count_of_full _ hfull
            rw [Slot.count] at hmany
            omega
          have hholds₁ : ∀ k p, (Slot.b (.radx tab₁.1 tab₁.2)).Holds k p
              ↔ ∃ j x, (done j ∨ j = i) ∧ sid j = some x ∧ x.name = k ∧ x.pro.val = p := by
            intro k p
            rw [hputs.holds hnot]
            split
            · next hk =>
              constructor
              · rintro rfl
                exact ⟨i, e, .inr rfl, he, hk.symm, rfl⟩
              · rintro ⟨j, x, -, hx, hname, rfl⟩
                have hji := hsid.apart j i x e hx he (hname.trans hk)
                rw [hji, he] at hx
                rw [Option.some.inj hx]
            · next hk =>
              rw [hholds]
              constructor
              · rintro ⟨j, x, hj, h⟩
                exact ⟨j, x, .inl hj, h⟩
              · rintro ⟨j, x, hj | rfl, hx, hname, hp⟩
                · exact ⟨j, x, hj, hx, hname, hp⟩
                · rw [he] at hx
                  cases hx
                  exact absurd hname.symm hk
          obtain ⟨tab', hfold, hok', hcount', hholds'⟩ := ih hl (fun j => done j ∨ j = i)
            (fun j hj h => h.elim (hdone j (List.mem_cons_of_mem i hj)) fun h => hi (h ▸ hj))
            tab₁ hok₁ (by omega) hholds₁
          have hone : moreOne last low sid tab i = some tab₁ := by
            rw [moreOne, he]
            exact congrArg (Option.map Prod.fst) hsave
          refine ⟨tab', by rw [hone]; exact hfold, hok', by omega, fun k p => ?_⟩
          rw [hholds']
          simp only [List.mem_cons, or_assoc]

/-- The radix table holds what the collision table held. -/
theorem moreB_spec {low : Slot d → Nat → Entry → Option (Slot d × Bool)}
    (hlow : Saves last low) {rag : Nat} {sid : Fin 16 → Option Entry}
    (hsid : Table last (d + 1) P rag sid) :
    ∃ tab, moreB last low sid = some tab ∧ (Bag.radx tab.1 tab.2).Ok last P
      ∧ (Bag.radx tab.1 tab.2).count ≤ filled sid
      ∧ ∀ k p, (Slot.b (.radx tab.1 tab.2)).Holds k p
        ↔ (Slot.b (d := d + 1) (.coll rag sid)).Holds k p := by
  have hfew : filled sid < 16 := by
    have hle := hsid.rag_le (Nat.succ_ne_zero d)
    rw [hsid.rag_eq] at hle
    exact lt_of_le_of_lt hle (by decide)
  have hzero : (Bag.radx 0 fun _ => (.c : Slot d)).count = 0 := by
    rw [Bag.count]
    exact Finset.sum_eq_zero fun _ _ => by rw [Slot.count]
  obtain ⟨tab, hfold, hok, hcount, hholds⟩ := moreB_loop hlow hsid (List.finRange 16)
    (List.nodup_finRange 16) (fun _ => False) (fun _ _ h => h) (0, fun _ => .c)
    (by
      rw [Bag.Ok]
      intro i
      rw [Slot.Ok]
      trivial)
    (by rwa [hzero, filled_eq_length, Nat.zero_add])
    (by simp [Slot.Holds, Slot.Has, Bag.Has])
  rw [hzero, filled_eq_length, Nat.zero_add] at hcount
  refine ⟨tab, hfold, hok, hcount, fun k p => (hholds k p).trans ?_⟩
  simp only [Slot.Holds, Slot.Has, Bag.Has, List.mem_finRange, or_true, true_and]
  constructor
  · rintro ⟨j, x, hx, h⟩
    exact ⟨x, ⟨j, hx⟩, h⟩
  · rintro ⟨x, ⟨j, hx⟩, h⟩
    exact ⟨j, x, hx, h⟩

/-- The first entry of a table is added. -/
theorem saveB_first (d key : Nat) (e : Entry) :
    ∃ bag, saveB last ral d (.coll 0 fun _ => none) key e = some (bag, true) := by
  cases d with
  | zero => exact ⟨_, rfl⟩
  | succ d => exact ⟨_, rfl⟩

theorem table_empty (d : Nat) : Table last d P 0 fun _ => none where
  home := fun _ _ h => nomatch h
  reach := reached_empty
  apart := fun _ _ _ _ h => nomatch h
  rag_eq := filled_empty.symm
  rag_le := fun _ => Nat.zero_le _

/-- A save into a slot with one entry. -/
theorem saveA_spec {low : Bag d → Nat → Entry → Option (Bag d × Bool)} (hlow : SavesB last low)
    (hfirst : ∀ key e, ∃ bag, low (.coll 0 fun _ => none) key e = some (bag, true)) {o e : Entry}
    (ho : P o.key) (he : P e.key) :
    ∃ r, saveA ral low o e.key e = some r ∧ Puts last P (.a o) e r.1 := by
  have hnot : ∀ k, ¬(Slot.a o : Slot d).Full last k := by
    intro k h
    rwa [Slot.Full] at h
  rw [saveA]
  cases hhit : o.hit (.noun ral e.hed) e.sel with
  | some o' =>
      obtain ⟨hname, hname', -⟩ := hit_some hhit
      refine ⟨_, rfl, ?_, ?_, fun h => absurd h (hnot _), fun _ k p => ?_⟩
      · rw [Slot.Ok, key_of_name ((renew_name ..).trans hname')]
        exact ho
      · rw [Slot.count, Slot.count]
        exact Nat.le_succ 1
      · have hname : o.name = e.name := hname
        simp only [Slot.Holds, Slot.Has, exists_eq_left, renew_name, renew_pro, hname', hname]
        split
        · next hk => simp [hk, eq_comm]
        · next hk => simp [Ne.symm hk]
  | none =>
      obtain ⟨bag, hbag⟩ := hfirst o.key o
      have hempty : (Bag.coll 0 fun _ => none : Bag d).Ok last P := by
        rw [Bag.Ok]
        exact table_empty d
      obtain ⟨⟨bag', ave⟩, hsave, hputs⟩ := hlow P _ o hempty ho
      rw [hbag] at hsave
      cases hsave
      have hok := hputs.ok
      rw [Slot.Ok] at hok
      obtain ⟨⟨bag', ave⟩, hsave, hputs'⟩ := hlow P bag e hok he
      refine ⟨(.b bag', ave), by simp [hbag, hsave], ?_⟩
      have hnone : (Slot.b (.coll 0 fun _ => none) : Slot d).count = 0 := by
        rw [Slot.count, Bag.count]
        exact filled_empty
      have hone : (Slot.b bag).count ≤ 1 := by
        have hcount := hputs.count
        rwa [hnone] at hcount
      have hempty : ¬(Slot.b (.coll 0 fun _ => none) : Slot d).Full last o.name := by
        intro h
        have hmany := Slot.count_of_full _ h
        omega
      have hbag' : ¬(Slot.b bag).Full last e.name := by
        intro h
        have hmany := Slot.count_of_full _ h
        omega
      refine ⟨hputs'.ok, ?_, fun h => absurd h (hnot _), fun _ k p => ?_⟩
      · have hcount : (Slot.b bag').count ≤ (Slot.b bag).count + 1 := hputs'.count
        exact le_trans hcount (Nat.succ_le_succ hone)
      · have hold : (Slot.a o : Slot d).Holds k p ↔ (Slot.b bag).Holds k p := by
          rw [hputs.holds hempty]
          simp only [Slot.Holds, Slot.Has, Bag.Has, exists_eq_left]
          split
          · next hk => simp [hk, eq_comm]
          · next hk => simp [Ne.symm hk]
        rw [hputs'.holds hbag', hold]

/-- A save into a slot. -/
theorem saveIn_spec {low : Bag d → Nat → Entry → Option (Bag d × Bool)} (hlow : SavesB last low)
    (hfirst : ∀ key e, ∃ bag, low (.coll 0 fun _ => none) key e = some (bag, true)) :
    Saves last (saveIn ral low) := by
  intro P lot e hok he
  cases lot with
  | a o =>
      rw [Slot.Ok] at hok
      exact saveA_spec hlow hfirst hok he
  | b bag =>
      rw [Slot.Ok] at hok
      obtain ⟨⟨bag', ave⟩, hsave, hputs⟩ := hlow P bag e hok he
      exact ⟨(.b bag', ave), by rw [saveIn, hsave, Option.map_some], hputs⟩
  | c =>
      have hnot : ¬(Slot.c : Slot d).Full last e.name := by
        intro h
        rwa [Slot.Full] at h
      refine ⟨(.a (saveC ral e), true), rfl, ?_, ?_, fun h => absurd h hnot, fun _ k p => ?_⟩
      · rw [Slot.Ok]
        exact he
      · rw [Slot.count, Slot.count]
      · simp only [Slot.Holds, Slot.Has, exists_eq_left, false_and, exists_false]
        have hname : (saveC ral e).name = e.name := rfl
        have hpro : (saveC ral e).pro.val = e.pro.val := ral.rx_val e.pro
        rw [hname, hpro]
        split
        · next hk => simp [hk, eq_comm]
        · next hk => simp [Ne.symm hk]

/-- A save into a table, at every level. -/
theorem saveB_spec (d : Nat) : SavesB last (saveB last ral d) := by
  induction d with
  | zero =>
      intro P bag e hok he
      cases bag with
      | coll rag sid =>
          rw [Bag.Ok] at hok
          exact ⟨_, rfl, saveColl_spec hok he fun h => absurd rfl h⟩
  | succ d ih =>
      have hlow : Saves last (saveIn ral (saveB last ral d)) := saveIn_spec ih (saveB_first d)
      intro P bag e hok he
      cases bag with
      | radx rag sid =>
          obtain ⟨⟨tab, ave⟩, hsave, hputs⟩ := saveRadx_spec hlow
            (show (Bag.radx (rag, sid).1 (rag, sid).2).Ok last P from hok) he
          exact ⟨(.radx tab.1 tab.2, ave), by simp [saveB, hsave], hputs⟩
      | coll rag sid =>
          rw [Bag.Ok] at hok
          by_cases hrag : cashHi ≤ rag
          · obtain ⟨tab, hmore, hok', hcount, hholds⟩ := moreB_spec hlow hok
            obtain ⟨⟨tab', ave⟩, hsave, hputs⟩ := saveRadx_spec hlow hok' he
            refine ⟨(.radx tab'.1 tab'.2, ave), by simp [saveB, hrag, hmore, hsave], hputs.ok,
              ?_, fun h => ?_, fun _ k p => ?_⟩
            · have hput : (Slot.b (.radx tab'.1 tab'.2)).count
                  ≤ (Slot.b (.radx tab.1 tab.2)).count + 1 := hputs.count
              have hcoll : (Slot.b (.coll rag sid) : Slot (d + 1)).count = filled sid := by
                rw [Slot.count, Bag.count]
              calc (Slot.b (.radx tab'.1 tab'.2)).count
                  ≤ (Slot.b (.radx tab.1 tab.2)).count + 1 := hput
                _ ≤ filled sid + 1 := Nat.add_le_add_right ((count_b _).trans_le hcount) 1
                _ = (Slot.b (.coll rag sid) : Slot (d + 1)).count + 1 := by rw [hcoll]
            · rw [Slot.Full, Bag.Full] at h
              exact h.elim
            · have hfew := hok.rag_le (Nat.succ_ne_zero d)
              have hnot : ¬(Slot.b (.radx tab.1 tab.2)).Full last e.name := by
                intro h
                have hmany := Slot.count_of_full _ h
                rw [Slot.count] at hmany
                rw [hok.rag_eq, cashHi] at hfew
                omega
              rw [hputs.holds hnot, hholds]
          · refine ⟨_, by rw [saveB, if_neg hrag], saveColl_spec hok he fun _ => ?_⟩
            exact Nat.lt_of_not_le hrag

end Vere.Cash
