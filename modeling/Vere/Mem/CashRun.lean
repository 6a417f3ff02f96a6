import Vere.Mem.CashSpec

/-!
# Vere.Mem.CashRun

The memo cache over a run of saves and searches.

Whatever was done before, a search returns nothing or the product that was saved last under
the salt and an equal sample (`cash_memo`).
-/

namespace Vere.Cash

open Function Vere.Lib Vere.Jets

/-- A sample, whole or in parts. -/
inductive Sample
  | noun (sam : Word)
  | cell (a b : Word)
  | trel (a b c : Word)
  | qual (a b c d : Word)

namespace Sample

/-- The noun, as a tuple of the parts. -/
def val : Sample → Noun
  | noun sam => sam.val
  | cell a b => .cell a.val b.val
  | trel a b c => .cell a.val (.cell b.val c.val)
  | qual a b c d => .cell a.val (.cell b.val (.cell c.val d.val))

section

variable (last : Nat → Fin 16) (ral : Rail) (lot : Slot 8) (sel : Sel)

/-- The search for a sample in these parts. -/
def find : Sample → Option Word × Slot 8
  | noun sam => Cash.find last ral lot sel sam
  | cell a b => findCell last ral lot sel a b
  | trel a b c => findTrel last ral lot sel a b c
  | qual a b c d => findQual last ral lot sel a b c d

/-- The save for a sample in these parts. -/
def save (pro : Word) : Sample → Option (Slot 8 × Word)
  | noun sam => Cash.save last ral lot sel sam pro
  | cell a b => saveCell last ral lot sel a b pro
  | trel a b c => saveTrel last ral lot sel a b c pro
  | qual a b c d => saveQual last ral lot sel a b c d pro

end

end Sample

/-- What is done to the cache, with the rail as it is then. -/
inductive Act
  | save (ral : Rail) (sel : Sel) (sam : Sample) (pro : Word)
  | find (ral : Rail) (sel : Sel) (sam : Sample)

def step (last : Nat → Fin 16) : Act → Slot 8 → Option (Slot 8)
  | .save ral sel sam pro, lot => (sam.save last ral lot sel pro).map Prod.fst
  | .find ral sel sam, lot => some (sam.find last ral lot sel).2

/-- The product saved last under each name. -/
def record (f : Name → Option Noun) : Act → Name → Option Noun
  | .save _ sel sam pro => update f (sel, sam.val) (some pro.val)
  | .find .. => f

def latest (acts : List Act) : Name → Option Noun := acts.foldl record fun _ => none

variable {last : Nat → Fin 16} {ral : Rail} {lot : Slot 8}

/-- The whole cache is where every key leads. -/
abbrev Slot.Good (last : Nat → Fin 16) (lot : Slot 8) : Prop := lot.Ok last fun _ => True

theorem Slot.find_fit (hok : lot.Good last) (sel : Sel) (fit : Fit) :
    Finds last (fun _ => True) lot (sel, fit.val)
      (lot.find last fit sel (Name.key (sel, fit.val))) :=
  Slot.find_spec lot hok trivial

theorem Sample.find_spec (hok : lot.Good last) (sel : Sel) (sam : Sample) :
    Finds last (fun _ => True) lot (sel, sam.val) (sam.find last ral lot sel) := by
  cases sam with
  | noun sam => exact Slot.find_fit hok sel (.noun ral sam)
  | cell a b => exact Slot.find_fit hok sel (.cell ral a b)
  | trel a b c => exact Slot.find_fit hok sel (.trel ral a b c)
  | qual a b c d => exact Slot.find_fit hok sel (.qual ral a b c d)

/-- What the cache holds when `p` has been saved for `k`: nothing new if there was no room. -/
structure Stored (last : Nat → Fin 16) (lot : Slot 8) (k : Name) (p : Noun) (lot' : Slot 8) :
    Prop where
  good : lot'.Good last
  full : lot.Full last k → ∀ k' p', lot'.Holds k' p' ↔ lot.Holds k' p'
  holds : ¬lot.Full last k → ∀ k' p',
    lot'.Holds k' p' ↔ if k' = k then p' = p else lot.Holds k' p'

/-- `u2_cs_save` does not fail and returns the product. -/
theorem save_spec (ral : Rail) (hok : lot.Good last) (sel : Sel) (sam pro : Word) :
    ∃ lot', save last ral lot sel sam pro = some (lot', pro)
      ∧ Stored last lot (sel, sam.val) pro.val lot' := by
  have hval : (ral.rx sam).val = sam.val := ral.rx_val sam
  have hsaves : Saves last (saveIn ral (saveB last ral 8)) :=
    saveIn_spec (saveB_spec 8) (saveB_first 8)
  obtain ⟨⟨lot', ave⟩, hsave, hputs⟩ :=
    hsaves (fun _ => True) lot
      { sel, hed := ral.rx sam, sap := [], pro, same := by simp } hok trivial
  have hkey : Entry.key { sel, hed := ral.rx sam, sap := [], pro, same := by simp }
      = keyOf sel (u2Mug sam.val) := congrArg (fun v => keyOf sel (u2Mug v)) hval
  have hname : Entry.name { sel, hed := ral.rx sam, sap := [], pro, same := by simp }
      = (sel, sam.val) := Prod.ext rfl hval
  refine ⟨lot', ?_, hputs.ok, fun h => hputs.full (hname ▸ h), fun h k p => ?_⟩
  · rw [hkey] at hsave
    rw [save]
    exact congrArg (Option.bind · fun r => some (r.1, pro)) hsave
  · rw [hputs.holds (hname ▸ h), hname]

theorem Sample.save_spec (ral : Rail) (hok : lot.Good last) (sel : Sel) (sam : Sample) (pro : Word) :
    ∃ lot', sam.save last ral lot sel pro = some (lot', pro)
      ∧ Stored last lot (sel, sam.val) pro.val lot' := by
  cases sam with
  | noun sam => exact Cash.save_spec ral hok sel sam pro
  | cell a b =>
      have h := Cash.save_spec ral hok sel (ral.rc (ral.rx a) (ral.rx b)) pro
      rwa [Rail.rc_val, Rail.rx_val, Rail.rx_val] at h
  | trel a b c =>
      have h := Cash.save_spec ral hok sel (ral.rt (ral.rx a) (ral.rx b) (ral.rx c)) pro
      rwa [Rail.rt_val, Rail.rx_val, Rail.rx_val, Rail.rx_val] at h
  | qual a b c d =>
      have h := Cash.save_spec ral hok sel
        (ral.rq (ral.rx a) (ral.rx b) (ral.rx c) (ral.rx d)) pro
      rwa [Rail.rq_val, Rail.rx_val, Rail.rx_val, Rail.rx_val, Rail.rx_val] at h

/-! ### Runs -/

/-- One step: what the cache holds is what was saved last. -/
theorem step_good {f : Name → Option Noun} (act : Act) (hok : lot.Good last)
    (hf : ∀ k p, lot.Holds k p → f k = some p) :
    ∃ lot', step last act lot = some lot' ∧ lot'.Good last
      ∧ ∀ k p, lot'.Holds k p → record f act k = some p := by
  cases act with
  | find ral sel sam =>
      have hfind : Finds last (fun _ => True) lot (sel, sam.val) (sam.find last ral lot sel) :=
        Sample.find_spec hok sel sam
      exact ⟨_, rfl, hfind.ok, fun k p h => hf k p ((hfind.holds k p).mp h)⟩
  | save ral sel sam pro =>
      obtain ⟨lot', hsave, hstored⟩ := Sample.save_spec ral hok sel sam pro
      refine ⟨lot', by simp [step, hsave], hstored.good, fun k p h => ?_⟩
      rw [record]
      by_cases hlot : lot.Full last (sel, sam.val)
      · have hold := (hstored.full hlot k p).mp h
        have hk : k ≠ (sel, sam.val) := by
          obtain ⟨x, hx, hname, -⟩ := hold
          exact hname ▸ Slot.ne_of_full lot hok hlot hx
        rw [update_of_ne hk]
        exact hf k p hold
      · rw [hstored.holds hlot] at h
        split at h
        · next hk => rw [hk, update_self, h]
        · next hk =>
          rw [update_of_ne hk]
          exact hf k p h

/-- A run from a cache that holds what was saved last. -/
theorem runs_good {f : Name → Option Noun} (acts : List Act) (hok : lot.Good last)
    (hf : ∀ k p, lot.Holds k p → f k = some p) :
    ∃ lot', runs (step last) acts lot = some lot' ∧ lot'.Good last
      ∧ ∀ k p, lot'.Holds k p → acts.foldl record f k = some p := by
  induction acts generalizing lot f with
  | nil => exact ⟨lot, rfl, hok, hf⟩
  | cons act acts ih =>
      obtain ⟨lot₁, hstep, hok₁, hf₁⟩ := step_good act hok hf
      obtain ⟨lot', hruns, hrest⟩ := ih hok₁ hf₁
      exact ⟨lot', by rw [runs, hstep, Option.bind_some, hruns], hrest⟩

/-- What is found for a sample is the product that is held under its name. -/
theorem find_holds (ral : Rail) (hok : lot.Good last) (sel : Sel) (sam : Sample) (p : Noun) :
    (sam.find last ral lot sel).1.map Word.val = some p ↔ lot.Holds (sel, sam.val) p := by
  have hfind : Finds last (fun _ => True) lot (sel, sam.val) (sam.find last ral lot sel) :=
    Sample.find_spec hok sel sam
  rw [Option.map_eq_some_iff]
  constructor
  · rintro ⟨w, hw, rfl⟩
    obtain ⟨x, hx, hname, rfl⟩ := (hfind.pro w).mp hw
    exact ⟨x, hx, hname, rfl⟩
  · rintro ⟨x, hx, hname, rfl⟩
    exact ⟨x.pro, (hfind.pro _).mpr ⟨x, hx, hname, rfl⟩, rfl⟩

/-- Two searches for one noun, in parts or whole, find the same word. -/
theorem find_same (hok : lot.Good last) (ral' : Rail) (sel : Sel) {sam sam' : Sample}
    (h : sam'.val = sam.val) :
    (sam'.find last ral' lot sel).1 = (sam.find last ral lot sel).1 := by
  have hfind : Finds last (fun _ => True) lot (sel, sam.val) (sam.find last ral lot sel) :=
    Sample.find_spec hok sel sam
  have hfind' : Finds last (fun _ => True) lot (sel, sam'.val) (sam'.find last ral' lot sel) :=
    Sample.find_spec hok sel sam'
  ext w
  rw [hfind'.pro, hfind.pro, h]

/-- The memo cache, after any run of saves and searches on an empty slot. No assertion fails.
A search finds nothing, or what was saved last under the salt and an equal sample; a search
right after a save finds the product, unless the table that the key leads to at the last level
was full without an entry for the sample; and a search for a sample in parts is one for the
tuple. -/
theorem cash_memo (last : Nat → Fin 16) (acts : List Act) :
    ∃ lot, runs (step last) acts .c = some lot
      ∧ (∀ ral sel sam w, (Sample.find last ral lot sel sam).1 = some w →
          latest acts (sel, sam.val) = some w.val)
      ∧ (∀ ral ral' sel sam sam' pro, Sample.val sam' = Sample.val sam →
          ∃ lot', sam.save last ral lot sel pro = some (lot', pro)
            ∧ (lot.Full last (sel, sam.val) → (sam'.find last ral' lot' sel).1 = none)
            ∧ (¬lot.Full last (sel, sam.val) →
              (sam'.find last ral' lot' sel).1.map Word.val = some pro.val))
      ∧ (∀ ral ral' sel sam w, Word.val w = Sample.val sam →
          (sam.find last ral lot sel).1 = (find last ral' lot sel w).1) := by
  have hinit : (Slot.c : Slot 8).Good last := by
    rw [Slot.Good, Slot.Ok]
    trivial
  have hnone : ∀ k p, (Slot.c : Slot 8).Holds k p → (fun _ => none : Name → Option Noun) k
      = some p := by
    rintro k p ⟨x, hx, -⟩
    rw [Slot.Has] at hx
    exact hx.elim
  obtain ⟨lot, hruns, hok, hlatest⟩ := runs_good acts hinit hnone
  refine ⟨lot, hruns, ?_, ?_, ?_⟩
  · intro ral sel sam w hw
    refine hlatest _ _ ((find_holds ral hok sel sam w.val).mp ?_)
    rw [hw, Option.map_some]
  · intro ral ral' sel sam sam' pro hval
    obtain ⟨lot', hsave, hstored⟩ := Sample.save_spec ral hok sel sam pro
    refine ⟨lot', hsave, fun hfull => ?_, fun hfull => ?_⟩
    · rw [← Option.map_eq_none_iff (f := Word.val), Option.eq_none_iff_forall_ne_some]
      intro p hp
      obtain ⟨x, hx, hname, -⟩ :=
        (hstored.full hfull _ _).mp ((find_holds ral' hstored.good sel sam' p).mp hp)
      exact Slot.ne_of_full lot hok hfull hx (hname.trans (congrArg (Prod.mk sel) hval))
    · rw [find_holds ral' hstored.good, hstored.holds hfull, hval, if_pos rfl]
  · intro ral ral' sel sam w hval
    exact (find_same hok ral' sel (show (Sample.noun w).val = sam.val from hval)).symm

end Vere.Cash
