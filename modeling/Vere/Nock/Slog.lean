import Vere.Nock.Agree

/-!
# Vere.Nock.Slog

`_nock_cool` is right on `*[a f]`, whatever the jets, just if there is no product or every clue of
a `%slog` hint on the way can be printed.

That this is enough is `interp_sound`. It is needed because of a host without jets
(`noJets`): there nothing is left out of a reduction, and one that comes to a clue that is not
printed exits (`gives_printed`), product or not.
-/

namespace Vere.Nock

open Vere.Lib Vere.Lib.Run

variable {H : Host} {R : Rec H} {a b c d x y f p : Noun}
  {wash : Noun → Except (List Noun) Unit}

/-- From a state in the invariant a program ends with `v` in the invariant, and then `φ`, or it
exits. -/
def Prints (l : Noun) {α : Type} (x : Prog H α) (v : α) (φ : Prop) : Prop :=
  Triple (Inv l) x fun r st => (r = .ok v ∧ φ ∧ Inv l st) ∨ ∃ dat, r = .stop (.bail .exit dat 0)

theorem ending_prints (l : Noun) : Ending (H := H) (Prints l) where
  pure _ := triple_pure fun _ hi => .inl ⟨rfl, trivial, hi⟩
  bind := by
    intro α β x k v w φ ψ hx hk
    refine hx.bind ?_ ?_ ?_
    · rintro v' st (⟨hv, hφ, hi⟩ | ⟨dat, he⟩)
      · cases hv
        rcases hk st hi with ⟨hw, hψ, hj⟩ | hstop
        · exact .inl ⟨hw, ⟨hφ, hψ⟩, hj⟩
        · exact .inr hstop
      · cases he
    · rintro e st (⟨hv, -⟩ | ⟨dat, he⟩)
      · cases hv
      · cases he
        exact .inr ⟨dat, rfl⟩
    · rintro st (⟨hv, -⟩ | ⟨dat, he⟩)
      · cases hv
      · cases he
  imp hx hi := hx.imp fun _ _ h => h.imp (fun h => ⟨h.1, hi h.2.1, h.2.2⟩) id

/-- Without a chip an arm is a formula. -/
theorem prints_nine {R : Rec (noJets wash)} {l : Noun} {n : Nat} {φ ψ : Prop}
    (hc : Gives (Prints l) R a c x φ) (hs : slot n x = some f) (hf : Gives (Prints l) R x f p ψ) :
    Gives (Prints l) (R.step) a (op 9 (.cell (.atom n) c)) p (φ ∧ ψ) := by
  refine gives_nine (ending_prints l) hc ?_ ?_
  · intro kit st hi
    rw [run_bind]
    simp only [dsFind, noJets, frag_eq_slot, hs]
    exact hf.cool kit st hi
  · intro kit st hi
    rw [run_bind]
    simp only [dsFind, noJets, frag_eq_slot, hs]
    exact hf.mool kit st hi

/-- A clue that is not printed ends the evaluation. -/
theorem hint_bad {β : Type} {M : Mode H β} {kit : Kit} {pri tac bus nex : Noun} {tax : List Noun}
    (hwash : H.wash tac = .error tax) :
    hint M kit (.atom (c3s4 's' 'l' 'o' 'g')) (.cell pri tac) bus nex
      = .stop (.bail .exit (nounList (tax ++ kit.seg)) 0) := by
  have htrace : ¬c3s4 's' 'l' 'o' 'g' ∈ traceHints := by decide
  rw [hint, if_neg htrace, if_pos rfl, slogHint, hwash]

/-- What a hint does about its clue. -/
def Shown (wash : Noun → Except (List Noun) Unit) (zep hod : Noun) : Prop :=
  ∀ pri tac tax, zep = .atom (c3s4 's' 'l' 'o' 'g') → hod = .cell pri tac → wash tac ≠ .error tax

/-- A hint, in either mode. -/
theorem prints_hint {β : Type} {M : Mode (noJets wash) β} {l zep hod : Noun} {v : β} {φ : Prop}
    (hrun : ∀ kit, Prints l (M.run kit a d) v φ) (kit : Kit) :
    Prints l (hint M kit zep hod a d) v (φ ∧ Shown wash zep hod) := by
  by_cases hshown : Shown wash zep hod
  · refine triple_hint ?_ ?_ ?_ ?_ ?_
    · exact fun kit => (ending_prints l).imp (hrun kit) fun h => ⟨h, hshown⟩
    · rintro r st dash (⟨hr, hφ, hi⟩ | ⟨dat, he⟩)
      · exact .inl ⟨hr, hφ, hi.dash dash⟩
      · cases he
    · exact fun _ _ hrock => nomatch hrock
    · rintro r st hr -
      exact hr
    · exact fun pri tac tax dat st hz hh hwash _ => absurd hwash (hshown pri tac tax hz hh)
  · simp only [Shown, not_forall, not_not] at hshown
    obtain ⟨pri, tac, tax, rfl, rfl, hwash⟩ := hshown
    rw [hint_bad hwash]
    exact triple_stop fun _ _ => .inr ⟨_, rfl⟩

/-- A reduction that comes to such a clue comes to it in a part of the hint, or it is the
clue of the hint. -/
theorem slogs_hint (hc : Eval a c x) (h : Slogs wash a (op 10 (.cell (.cell b c) d))) :
    Slogs wash a c ∨ Slogs wash a d ∨ ¬Shown wash b x := by
  generalize hf : op 10 (.cell (.cell b c) d) = f at h
  cases h with
  | here h =>
      obtain ⟨c', d', pri, tac, tax, rfl, ht, hwash⟩ := h
      cases hf
      exact .inr (.inr fun hs => hs pri tac tax rfl (hc.unique ht.eval) hwash)
  | clue h =>
      cases hf
      exact .inl h
  | hinted h =>
      cases hf
      exact .inr (.inl h)
  | _ => cases hf

theorem not_badSlog {n : Nat} (hn : n ≠ 10) : ¬BadSlog wash a (op n b) := by
  rintro ⟨c, d, pri, tac, tax, hf, -⟩
  cases hf
  exact hn rfl

/-- Without jets a product is found with every clue on the way printed, or the evaluation
exits. -/
theorem gives_printed (wash : Noun → Except (List Noun) Unit) (l : Noun) (h : Eval a f p) :
    Deep fun R : Rec (noJets wash) => Gives (Prints l) R a f p (¬Slogs wash a f) := by
  have hE : Ending (Prints (H := noJets wash) l) := ending_prints l
  induction h with
  | slot hslot =>
      refine (deep_all fun _ => trivial).step fun _ _ => (gives_slot hE hslot).imp hE fun _ h => ?_
      cases h with
      | here h => exact not_badSlog (by decide) h
  | const =>
      refine (deep_all fun _ => trivial).step fun _ _ => (gives_const hE).imp hE fun _ h => ?_
      cases h with
      | here h => exact not_badSlog (by decide) h
  | cons _ _ ihx ihy =>
      refine (ihx.and ihy).step fun _ h => (gives_cons hE h.1 h.2).imp hE ?_
      rintro ⟨hx, hy⟩ h
      exact (h.cons_inv not_badSlog_cons).elim hx hy
  | nock hb hc _ ihb ihc ihp =>
      obtain ⟨y, z, rfl⟩ := eval_cell hb
      have hpair : Deep fun R : Rec (noJets wash) => Gives (Prints l) R _ _ _ _ :=
        (ihb.and ihc).step fun _ h => gives_cons hE h.1 h.2
      refine (((ihb.and ihc).and hpair).and ihp).step ?_
      rintro R ⟨⟨⟨h1, h2⟩, h12⟩, h3⟩
      refine (gives_nock hE h1 h2 h12 h3 ⟨y, z, rfl⟩).imp hE ?_
      rintro ⟨⟨hnb, hnc⟩, hnp⟩ h
      cases h with
      | here h => exact not_badSlog (by decide) h
      | nockSubject h => exact hnb h
      | nockFormula h => exact hnc h
      | nock hb' hc' h =>
          rw [← hb.unique hb'.eval, ← hc.unique hc'.eval] at h
          exact hnp h
  | wut _ ih =>
      refine ih.step fun _ h => (gives_wut hE h).imp hE fun hn h => ?_
      cases h with
      | here h => exact not_badSlog (by decide) h
      | wut h => exact hn h
  | lus _ ih =>
      refine ih.step fun _ h => (gives_lus hE h).imp hE fun hn h => ?_
      cases h with
      | here h => exact not_badSlog (by decide) h
      | lus h => exact hn h
  | tis hb ih =>
      refine ih.step fun _ h => (gives_tis hE h (eval_cell hb)).imp hE fun hn h => ?_
      cases h with
      | here h => exact not_badSlog (by decide) h
      | tis h => exact hn h
  | then_ hb _ ihb ihc =>
      refine (ihb.and ihc).step fun _ h => (gives_then hE h.1 h.2).imp hE ?_
      rintro ⟨hnb, hnc⟩ h
      cases h with
      | here h => exact not_badSlog (by decide) h
      | test h => exact hnb h
      | then_ _ h => exact hnc h
      | else_ hb' _ => cases hb.unique hb'.eval
  | else_ hb _ ihb ihd =>
      refine (ihb.and ihd).step fun _ h => (gives_else hE h.1 h.2).imp hE ?_
      rintro ⟨hnb, hnd⟩ h
      cases h with
      | here h => exact not_badSlog (by decide) h
      | test h => exact hnb h
      | then_ hb' _ => cases hb.unique hb'.eval
      | else_ _ h => exact hnd h
  | seven hb _ ihb ihc =>
      refine (ihb.and ihc).step fun _ h => (gives_seven hE h.1 h.2).imp hE ?_
      rintro ⟨hnb, hnc⟩ h
      cases h with
      | here h => exact not_badSlog (by decide) h
      | first h => exact hnb h
      | second hb' h =>
          rw [← hb.unique hb'.eval] at h
          exact hnc h
  | eight hb _ ihb ihc =>
      refine (ihb.and ihc).step fun _ h => (gives_eight hE h.1 h.2).imp hE ?_
      rintro ⟨hnb, hnc⟩ h
      cases h with
      | here h => exact not_badSlog (by decide) h
      | pushed h => exact hnb h
      | push hb' h =>
          rw [← hb.unique hb'.eval] at h
          exact hnc h
  | nine hc hslot _ ihc ihf =>
      refine (ihc.and ihf).step fun _ h => (prints_nine h.1 hslot h.2).imp hE ?_
      rintro ⟨hnc, hnf⟩ h
      cases h with
      | here h => exact not_badSlog (by decide) h
      | core h => exact hnc h
      | arm hc' hslot' h =>
          cases hc.unique hc'.eval
          cases hslot.symm.trans hslot'
          exact hnf h
  | hint hc _ ihc ihd =>
      refine (ihc.and ihd).step fun _ h =>
        (gives_hint hE h.1 (prints_hint h.2.cool) (prints_hint h.2.mool)).imp hE ?_
      rintro ⟨hnc, hnd, hshown⟩ h
      rcases slogs_hint hc h with h | h | h
      · exact hnc h
      · exact hnd h
      · exact h hshown
  | skip _ ih =>
      refine ih.step fun R h => Gives.imp hE
        ⟨fun kit => prints_hint h.cool kit, fun kit => prints_hint h.mool kit⟩ ?_
      rintro ⟨hn, -⟩ h
      cases h with
      | here h =>
          obtain ⟨c, d, pri, tac, tax, hf, -⟩ := h
          cases hf
      | hinted h => exact hn h

/-- What `_nock_cool` returns on `*[a f]`, from an empty memo cache, is the product; and if it
bails with exit there is none. -/
def CoolRight (H : Host) (a f : Noun) : Prop :=
  ∀ n kit (st : St H), st.cash = [] →
    (∀ p st', (cool n kit a f).run st = (.ok p, st') → Tar a f p) ∧
      ∀ dat skip st', (cool n kit a f).run st = (.stop (.bail .exit dat skip), st') →
        ∀ p, ¬Tar a f p

/-- `_nock_cool`, with any jets that agree with their formulas, on a formula that does not come to
operator 11: it is right just if there is no product, or the clue of every `%slog` hint that the
reduction comes to can be printed. -/
theorem cool_right_iff (wash : Noun → Except (List Noun) Unit) (a f : Noun) (hw : ¬Wishes a f) :
    (∀ H : Host, JetsAgree H → H.wash = wash → CoolRight H a f) ↔
      ∀ p, Tar a f p → ¬Slogs wash a f := by
  constructor
  · intro hright p hp hslog
    obtain ⟨n, hn⟩ := gives_printed wash (.atom 0) hp.eval
    have hi : Inv (.atom 0) (⟨.atom 0, [], ()⟩ : St (noJets wash)) :=
      ⟨rfl, fun _ _ _ h => nomatch h⟩
    rcases (hn n (Nat.le_refl n)).cool ⟨[], []⟩ _ hi with ⟨-, hno, -⟩ | ⟨dat, hstop⟩
    · exact hno hslog
    · exact (hright _ (noJets_agrees wash) rfl n ⟨[], []⟩ _ rfl).2 dat 0 _ (Prod.ext hstop rfl) p hp
  · rintro hprint H hJ rfl n kit st hst
    have hpost := (interp_sound hJ st.lad n).cool kit a f hw st (inv_of_empty hst)
    refine ⟨fun p st' hr => ?_, fun dat skip st' hr p hp => ?_⟩
    · rw [show (interp n).cool kit a f = cool n kit a f from rfl, hr] at hpost
      exact hpost.2.tar
    · rw [show (interp n).cool kit a f = cool n kit a f from rfl, hr] at hpost
      exact hprint p hp (hpost.2.2 p hp.eval)

/-- The tanks that are cells are printed. -/
def washCells : Noun → Except (List Noun) Unit
  | .atom _ => .error []
  | .cell _ _ => .ok ()

/-- `[10 [%slog 1 clue] d]`. -/
def slogged (clue d : Noun) : Noun :=
  op 10 (.cell (.cell (.atom (c3s4 's' 'l' 'o' 'g')) (op 1 clue)) d)

/-- A host with one jet, for the arm at axis 2 of the core `[[1 7] 0]`. -/
def oneJet : Host where
  Dash := Unit
  Chip := Unit
  find _ cor := if cor = .cell (op 1 (.atom 7)) (.atom 0) then some () else none
  mine dash _ _ := dash
  jet _ axe := if axe = 2 then some fun _ => .ok (.atom 7) else none
  rock := true
  room _ _ := true
  wash := washCells
  washed dash _ := dash

theorem oneJet_agrees : JetsAgree oneJet := by
  intro dash xip cor axe fol jet hx hs hj
  simp only [oneJet] at hx hj
  split at hx
  · rename_i hcor
    split at hj
    · rename_i haxe
      subst hcor haxe
      rw [slot_two] at hs
      cases hs
      cases hj
      exact .inl ⟨.atom 7, rfl, .const⟩
    · cases hj
  · cases hx

/-- The core of the jet. -/
def oneCore : Noun := .cell (op 1 (.atom 7)) (.atom 0)

/-- The arm is fired behind a clue. -/
def oneArm (clue : Noun) : Noun := slogged clue (op 9 (.cell (.atom 2) (op 0 (.atom 1))))

theorem meets_oneArm {bad : Noun → Noun → Prop} {clue : Noun} (h : Meets bad oneCore (oneArm clue)) :
    bad oneCore (oneArm clue) ∨ ∃ n b, n < 10 ∧ bad oneCore (op n b) := by
  cases h with
  | here h => exact .inl h
  | clue h => exact .inr ⟨1, _, by decide, meets_const h⟩
  | hinted h =>
      cases h with
      | here h => exact .inr ⟨9, _, by decide, h⟩
      | core h =>
          cases h with
          | here h => exact .inr ⟨0, _, by decide, h⟩
      | arm hc hs hf =>
          obtain ⟨n, hn, hs'⟩ := eval_slot_inv hc.eval
          cases hn
          rw [slot_one] at hs'
          cases hs'
          rw [oneCore, slot_two] at hs
          cases hs
          exact .inr ⟨1, _, by decide, meets_const hf⟩

/-- The leaf `a` is printed, and the arm is fired by its jet. -/
theorem cool_right_jet :
    CoolRight oneJet oneCore
      (oneArm (.cell (.atom 0) (.cell (.atom (c3s4 'l' 'e' 'a' 'f')) (.cell (.atom 97) (.atom 0))))) := by
  refine (cool_right_iff washCells _ _ ?_).mpr (fun p _ => ?_) oneJet oneJet_agrees rfl
  · intro h
    obtain ⟨b, hb⟩ | ⟨n, b, hn, b', hb⟩ := meets_oneArm h
    · cases hb
    · cases hb
      exact absurd hn (by decide)
  · intro h
    obtain ⟨c, d, pri, tac, tax, hf, ht, hwash⟩ | ⟨n, b, hn, hb⟩ := meets_oneArm h
    · cases hf
      cases ht.eval.unique .const
      cases hwash
    · exact not_badSlog (Nat.ne_of_lt hn) hb

/-- The clue `[0 0]` has an atom for a tank: `_nock_cool` exits, and the product is 5. -/
theorem slog_exits : ∃ H : Host, JetsAgree H ∧ H.wash = washCells ∧
    (∃ dat, ((cool 2 ⟨[], []⟩ (.atom 0) (slogged (.cell (.atom 0) (.atom 0)) (op 1 (.atom 5)))).run
      (⟨.atom 0, [], ()⟩ : St (noJets washCells))).1 = .stop (.bail .exit dat 0)) ∧
    ¬CoolRight H (.atom 0) (slogged (.cell (.atom 0) (.atom 0)) (op 1 (.atom 5))) := by
  refine ⟨noJets washCells, noJets_agrees _, rfl, ⟨_, rfl⟩, fun h => ?_⟩
  exact (h 2 ⟨[], []⟩ ⟨.atom 0, [], ()⟩ rfl).2 _ 0 _ rfl (.atom 5)
    (Eval.hint .const .const).tar

end Vere.Nock
