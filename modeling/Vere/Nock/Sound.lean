import Vere.Nock.Interp

/-!
# Vere.Nock.Sound

Both interpreters compute Nock 5K: what they return is the product, and where
they report an error there is none.

The argument is one triple for each interpreter and each operator, over the
invariant that the memo cache holds products only. A virtual evaluation that
ends in an error does not keep the invariant (`%memo` saves its trace), but such
an evaluation goes straight to its end, so nothing reads the cache after it.

A `%slog` hint prints its clue by a call of the kernel that nothing guards. Where that exits the
evaluation bails, in either mode, product or not; the triples allow for it (`Slogs`).

Jets are assumed to agree with the formula they replace (`JetsAgree`). Operator
11 is not part of Nock 5K; the results are about reductions that do not come to
it (`Wishes`).
-/

namespace Vere.Nock

open Vere.Lib Vere.Lib.Run

variable {H : Host}

/-- A jet gives the product of the arm it stands for, and exits where there is
none. -/
def JetsAgree (H : Host) : Prop :=
  ∀ dash xip cor axe fol jet, H.find dash cor = some xip → slot axe cor = some fol →
    H.jet xip axe = some jet →
    (∃ p, jet cor = .ok p ∧ Tar cor fol p) ∨
      ∃ tac, jet cor = .error (.exit, tac) ∧ ∀ p, ¬Tar cor fol p

/-- The formula is a `%slog` hint whose clue is a tank that `++wash` does not print. -/
def BadSlog (wash : Noun → Except (List Noun) Unit) (a f : Noun) : Prop :=
  ∃ c d pri tac tax, f = op 10 (.cell (.cell (.atom (c3s4 's' 'l' 'o' 'g')) c) d) ∧
    Tar a c (.cell pri tac) ∧ wash tac = .error tax

/-- Reducing `*[a f]` comes to such a hint. -/
abbrev Slogs (wash : Noun → Except (List Noun) Unit) : Noun → Noun → Prop := Meets (BadSlog wash)

theorem not_badSlog_cons {wash : Noun → Except (List Noun) Unit} {a b c d : Noun} :
    ¬BadSlog wash a (.cell (.cell b c) d) := by
  rintro ⟨c', d', pri, tac, tax, hf, -⟩
  cases hf

/-! ### What an operator's product is, once its parts are known -/

section Parts

variable {a b c d x y f p : Noun} {n : Nat}

theorem eval_nock_iff (hb : Eval a b x) (hc : Eval a c y) :
    Eval a (op 2 (.cell b c)) p ↔ Eval x y p := by
  refine ⟨?_, .nock hb hc⟩
  intro h
  obtain ⟨x', y', hx, hy, hp⟩ := eval_nock_inv h
  rw [hb.unique hx, hc.unique hy]
  exact hp

theorem eval_then_iff (hb : Eval a b (.atom 0)) :
    Eval a (op 6 (.cell b (.cell c d))) p ↔ Eval a c p := by
  refine ⟨?_, .then_ hb⟩
  intro h
  cases h with
  | then_ _ hc => exact hc
  | else_ hb' _ => cases hb.unique hb'

theorem eval_else_iff (hb : Eval a b (.atom 1)) :
    Eval a (op 6 (.cell b (.cell c d))) p ↔ Eval a d p := by
  refine ⟨?_, .else_ hb⟩
  intro h
  cases h with
  | then_ hb' _ => cases hb.unique hb'
  | else_ _ hd => exact hd

/-- A test that is neither yes nor no. -/
theorem not_eval_six {cd : Noun} (hb : Eval a b x) (h0 : ¬x = .atom 0) (h1 : ¬x = .atom 1) :
    ¬Eval a (op 6 (.cell b cd)) p := by
  intro h
  cases h with
  | then_ hb' _ => exact h0 (hb.unique hb')
  | else_ hb' _ => exact h1 (hb.unique hb')

theorem eval_seven_iff (hb : Eval a b x) : Eval a (op 7 (.cell b c)) p ↔ Eval x c p := by
  refine ⟨?_, .seven hb⟩
  intro h
  obtain ⟨x', hx, hp⟩ := eval_seven_inv h
  rw [hb.unique hx]
  exact hp

theorem eval_eight_iff (hb : Eval a b x) :
    Eval a (op 8 (.cell b c)) p ↔ Eval (.cell x a) c p := by
  refine ⟨?_, .eight hb⟩
  intro h
  obtain ⟨x', hx, hp⟩ := eval_eight_inv h
  rw [hb.unique hx]
  exact hp

theorem eval_nine_iff (hc : Eval a c x) (hs : slot n x = some f) :
    Eval a (op 9 (.cell (.atom n) c)) p ↔ Eval x f p := by
  refine ⟨?_, .nine hc hs⟩
  intro h
  cases h with
  | nine hc' hs' hf =>
      cases hc.unique hc'
      cases hs.symm.trans hs'
      exact hf

/-- A core without the arm asked for. -/
theorem not_eval_nine (hc : Eval a c x) (hs : slot n x = none) :
    ¬Eval a (op 9 (.cell (.atom n) c)) p := by
  intro h
  cases h with
  | nine hc' hs' _ =>
      cases hc.unique hc'
      cases hs.symm.trans hs'

theorem eval_hint_iff (hc : Eval a c x) :
    Eval a (op 10 (.cell (.cell b c) d)) p ↔ Eval a d p := by
  refine ⟨?_, .hint hc⟩
  intro h
  cases h with
  | hint _ hd => exact hd

theorem eval_skip_iff : Eval a (op 10 (.cell (.atom n) c)) p ↔ Eval a c p := by
  refine ⟨?_, .skip⟩
  intro h
  cases h with
  | skip hc => exact hc

end Parts

/-! ### Conditions -/

/-- The namespace stack is `l` and the memo cache holds products only. -/
structure Inv (l : Noun) (st : St H) : Prop where
  lad : st.lad = l
  cash : ∀ bus nex pro, ((bus, nex), pro) ∈ st.cash → Eval bus nex pro

/-- How `_nock_cool` may end on `*[a f]`. -/
def CoolPost (l a f : Noun) : Res Stop Noun → St H → Prop
  | .ok p, st => Inv l st ∧ Eval a f p
  | .stop e, st => Inv l st ∧ (∃ dat, e = .bail .exit dat 0) ∧ ∀ p, Eval a f p → Slogs H.wash a f
  | .spent, _ => True

/-- How `_nock_mool` may end on `*[a f]`. -/
def MoolPost (l a f : Noun) : Res Stop (Kode × Noun) → St H → Prop
  | .ok (.good, p), st => Inv l st ∧ Eval a f p
  | .ok (.exit, _), st => st.lad = l ∧ ∀ p, Eval a f p → Slogs H.wash a f
  | .ok (.need, _), _ => False
  | .stop e, st => Inv l st ∧ (∃ dat, e = .bail .exit dat 0) ∧ Slogs H.wash a f
  | .spent, _ => True

/-- How `u2_ho_kick` may end on the arm `axe` of a core. -/
def KickPost (l cor : Noun) (axe : Nat) : Res Stop (Option Noun) → St H → Prop
  | .ok none, st => Inv l st ∧ slot axe cor = none
  | .ok (some p), st => Inv l st ∧ ∃ f, slot axe cor = some f ∧ Eval cor f p
  | .stop e, st => Inv l st ∧ (∃ dat, e = .bail .exit dat 0) ∧
      ∃ f, slot axe cor = some f ∧ ∀ p, Eval cor f p → Slogs H.wash cor f
  | .spent, _ => True

variable {l a f a' f' : Noun}

/-- A tail call: the formula has the product of the one called. -/
theorem CoolPost.congr {r : Res Stop Noun} {st : St H} (h : CoolPost l a f r st)
    (hiff : ∀ p, Eval a' f' p ↔ Eval a f p) (hslog : Slogs H.wash a f → Slogs H.wash a' f') :
    CoolPost l a' f' r st := by
  cases r with
  | ok p => exact ⟨h.1, (hiff p).mpr h.2⟩
  | stop e => exact ⟨h.1, h.2.1, fun p hp => hslog (h.2.2 p ((hiff p).mp hp))⟩
  | spent => trivial

theorem MoolPost.congr {r : Res Stop (Kode × Noun)} {st : St H} (h : MoolPost l a f r st)
    (hiff : ∀ p, Eval a' f' p ↔ Eval a f p) (hslog : Slogs H.wash a f → Slogs H.wash a' f') :
    MoolPost l a' f' r st := by
  cases r with
  | ok r =>
      obtain ⟨k, p⟩ := r
      cases k with
      | good => exact ⟨h.1, (hiff p).mpr h.2⟩
      | need => exact h
      | exit => exact ⟨h.1, fun p hp => hslog (h.2 p ((hiff p).mp hp))⟩
  | stop e => exact ⟨h.1, h.2.1, hslog h.2.2⟩
  | spent => trivial

/-- A crash where there is no product. -/
theorem triple_bail {kit : Kit} (h : ∀ p, ¬Eval a f p) :
    Triple (Inv l) (bail kit .exit : Prog H Noun) (CoolPost l a f) :=
  triple_stop fun _ hs => ⟨hs, ⟨_, rfl⟩, fun p hp => absurd hp (h p)⟩

theorem triple_wail {kit : Kit} (h : ∀ p, ¬Eval a f p) :
    Triple (Inv l) (wail kit : Prog H (Kode × Noun)) (MoolPost l a f) :=
  triple_pure fun _ hs => ⟨hs.lad, fun p hp => absurd hp (h p)⟩

/-- A part evaluated by `_nock_cool`: go on with its product; without one the
whole has none. -/
theorem triple_part {x : Prog H Noun} {k : Noun → Prog H Noun}
    (hx : Triple (Inv l) x (CoolPost l a' f')) (hslog : Slogs H.wash a' f' → Slogs H.wash a f)
    (hk : ∀ v, Eval a' f' v → Triple (Inv l) (k v) (CoolPost l a f))
    (hpart : ∀ p, Eval a f p → ∃ v, Eval a' f' v) :
    Triple (Inv l) (x >>= k) (CoolPost l a f) := by
  refine hx.bind ?_ ?_ ?_
  · rintro v st ⟨hi, hv⟩
    exact hk v hv st hi
  · rintro e st ⟨hi, he, hno⟩
    refine ⟨hi, he, fun p hp => ?_⟩
    obtain ⟨v, hv⟩ := hpart p hp
    exact hslog (hno v hv)
  · exact fun _ _ => trivial

/-- A part evaluated by `_nock_mool`. -/
theorem triple_onGood {x : Prog H (Kode × Noun)} {k : Noun → Prog H (Kode × Noun)}
    (hx : Triple (Inv l) x (MoolPost l a' f')) (hslog : Slogs H.wash a' f' → Slogs H.wash a f)
    (hk : ∀ v, Eval a' f' v → Triple (Inv l) (k v) (MoolPost l a f))
    (hpart : ∀ p, Eval a f p → ∃ v, Eval a' f' v) :
    Triple (Inv l) (onGood x k) (MoolPost l a f) := by
  refine hx.bind ?_ ?_ ?_
  · rintro ⟨kode, v⟩ st h
    cases kode with
    | good => exact hk v h.2 st h.1
    | need => exact h.elim
    | exit =>
        refine ⟨h.1, fun p hp => ?_⟩
        obtain ⟨w, hw⟩ := hpart p hp
        exact hslog (h.2 w hw)
  · exact fun _ _ h => ⟨h.1, h.2.1, hslog h.2.2⟩
  · exact fun _ _ => trivial

/-! ### Jets and the dashboard -/

/-- The interpreters called keep to their conditions. -/
structure Sound (l : Noun) (R : Rec H) : Prop where
  cool : ∀ kit a f, ¬Wishes a f → Triple (Inv l) (R.cool kit a f) (CoolPost l a f)
  mool : ∀ kit a f, ¬Wishes a f → Triple (Inv l) (R.mool kit a f) (MoolPost l a f)

variable {R : Rec H} {kit : Kit} {cor : Noun} {axe : Nat} {xip : H.Chip}

/-- The dashboard is asked in some state of it. -/
theorem triple_dsFind {α : Type} {k : Option H.Chip → Prog H α} {Q : Res Stop α → St H → Prop}
    (hnone : Triple (Inv l) (k none) Q)
    (hsome : ∀ xip, (∃ dash, H.find dash cor = some xip) → Triple (Inv l) (k (some xip)) Q) :
    Triple (Inv l) (dsFind cor >>= k) Q := by
  intro st hst
  show Q ((k (H.find st.dash cor)).run st).1 ((k (H.find st.dash cor)).run st).2
  cases hf : H.find st.dash cor with
  | none => exact hnone st hst
  | some xip => exact hsome xip ⟨st.dash, hf⟩ st hst

theorem triple_kick (hJ : JetsAgree H) (hR : Sound l R)
    (hx : ∃ dash, H.find dash cor = some xip)
    (hw : ∀ f, slot axe cor = some f → ¬Wishes cor f) :
    Triple (Inv l) (kick R kit xip cor axe) (KickPost l cor axe) := by
  obtain ⟨dash, hx⟩ := hx
  rw [kick, frag_eq_slot]
  cases hs : slot axe cor with
  | none => exact triple_pure fun _ hst => ⟨hst, hs⟩
  | some fol =>
      simp only
      cases hj : H.jet xip axe with
      | none =>
          refine (hR.cool kit cor fol (hw fol hs)).bind ?_ ?_ ?_
          · rintro p st ⟨hi, hp⟩
            exact ⟨hi, fol, hs, hp⟩
          · rintro e st ⟨hi, he, hno⟩
            exact ⟨hi, he, fol, hs, hno⟩
          · exact fun _ _ => trivial
      | some jet =>
          rcases hJ dash xip cor axe fol jet hx hs hj with ⟨p, hp, ht⟩ | ⟨tac, hp, ht⟩
          · simp only [hp]
            exact triple_pure fun _ hst => ⟨hst, fol, hs, ht.eval⟩
          · simp only [hp]
            exact triple_stop fun _ hst =>
              ⟨hst, ⟨_, rfl⟩, fol, hs, fun q hq => absurd hq.tar (ht q)⟩

/-- An arm fired in kernel mode. -/
theorem triple_kick_cool
    (hk : Triple (Inv l) (kick R kit xip cor axe) (KickPost l cor axe))
    (hno : slot axe cor = none → ∀ p, ¬Eval a f p)
    (hiff : ∀ g, slot axe cor = some g → ∀ p, Eval a f p ↔ Eval cor g p)
    (hslog : ∀ g, slot axe cor = some g → Slogs H.wash cor g → Slogs H.wash a f) :
    Triple (Inv l) (kick R kit xip cor axe >>= fun o =>
      match o with
      | some pro => pure pro
      | none => bail kit .exit) (CoolPost l a f) := by
  refine hk.bind ?_ ?_ ?_
  · intro o
    cases o with
    | none =>
        rintro st ⟨hi, hs⟩
        exact ⟨hi, ⟨_, rfl⟩, fun p hp => absurd hp (hno hs p)⟩
    | some p =>
        rintro st ⟨hi, g, hs, hp⟩
        exact ⟨hi, (hiff g hs p).mpr hp⟩
  · rintro e st ⟨hi, he, g, hs, hp⟩
    exact ⟨hi, he, fun p h => hslog g hs (hp p ((hiff g hs p).mp h))⟩
  · exact fun _ _ => trivial

/-- An arm fired in virtual mode: an exit inside it becomes a status. -/
theorem triple_kicq_mool
    (hk : Triple (Inv l) (kick R kit.rind xip cor axe) (KickPost l cor axe))
    (hno : slot axe cor = none → ∀ p, ¬Eval a f p)
    (hiff : ∀ g, slot axe cor = some g → ∀ p, Eval a f p ↔ Eval cor g p)
    (hslog : ∀ g, slot axe cor = some g → Slogs H.wash cor g → Slogs H.wash a f) :
    Triple (Inv l) (kicq R kit xip cor axe >>= fun o =>
      match o with
      | some r => pure r
      | none => wail kit) (MoolPost l a f) := by
  -- what `kicq` itself may end with
  let Q : Res Stop (Option (Kode × Noun)) → St H → Prop := fun r st =>
    match r with
    | .ok none => Inv l st ∧ slot axe cor = none
    | .ok (some (.good, p)) => Inv l st ∧ Eval a f p
    | .ok (some (.exit, _)) => Inv l st ∧ ∀ p, Eval a f p → Slogs H.wash a f
    | .spent => True
    | _ => False
  have hq : Triple (Inv l) (kicq R kit xip cor axe) Q := by
    refine Triple.handle (R := fun r st =>
      match r with
      | .ok o => Q (.ok o) st
      | .stop e => Inv l st ∧ (∃ dat, e = .bail .exit dat 0) ∧ ∀ p, Eval a f p → Slogs H.wash a f
      | .spent => True) (hk.bind ?_ ?_ ?_) ?_ ?_ ?_
    · intro o
      cases o with
      | none => exact fun st h => h
      | some p =>
          rintro st ⟨hi, g, hs, hp⟩
          exact ⟨hi, (hiff g hs p).mpr hp⟩
    · rintro e st ⟨hi, he, g, hs, hp⟩
      exact ⟨hi, he, fun p h => hslog g hs (hp p ((hiff g hs p).mp h))⟩
    · exact fun _ _ => trivial
    · exact fun _ _ h => h
    · rintro e st ⟨hi, ⟨dat, rfl⟩, hp⟩
      exact ⟨hi, hp⟩
    · exact fun _ _ => trivial
  refine hq.bind ?_ ?_ ?_
  · intro o
    cases o with
    | none =>
        rintro st ⟨hi, hs⟩
        exact ⟨hi.lad, fun p hp => absurd hp (hno hs p)⟩
    | some r =>
        obtain ⟨kode, p⟩ := r
        cases kode with
        | good => exact fun st h => h
        | need => exact fun st h => h.elim
        | exit => exact fun st h => ⟨h.1.lad, h.2⟩
  · exact fun _ _ h => h.elim
  · exact fun _ _ => trivial

/-! ### Hints -/

/-- The state after a save. -/
def saved (st : St H) (bus nex pro : Noun) : St H :=
  if H.rock && H.room bus nex then { st with cash := ((bus, nex), pro) :: st.cash } else st

theorem saved_lad (st : St H) (bus nex pro : Noun) : (saved st bus nex pro).lad = st.lad := by
  rw [saved]
  split
  · rfl
  · rfl

theorem Inv.saved {st : St H} (h : Inv l st) {bus nex pro : Noun} (hp : Eval bus nex pro) :
    Inv l (saved st bus nex pro) := by
  refine ⟨(saved_lad st bus nex pro).trans h.lad, ?_⟩
  intro b n q hq
  rw [Nock.saved] at hq
  split at hq
  · rcases List.mem_cons.mp hq with he | he
    · cases he
      exact hp
    · exact h.cash b n q he
  · exact h.cash b n q hq

theorem cashFind_mem {cash : List ((Noun × Noun) × Noun)} {bus nex pro : Noun}
    (h : cashFind cash bus nex = some pro) : ((bus, nex), pro) ∈ cash := by
  obtain ⟨e, he, rfl⟩ := Option.map_eq_some_iff.mp h
  have hkey : e.1 = (bus, nex) := by simpa using List.find?_some he
  have hmem := List.mem_of_find?_eq_some he
  rw [← hkey]
  exact hmem

theorem Inv.dash {st : St H} (h : Inv l st) (dash : H.Dash) : Inv l { st with dash := dash } :=
  ⟨h.lad, h.cash⟩

/-- A hint, from what the mode's own evaluation guarantees: registering a core
and saving a product must not disturb it, and a product from the cache must be as
good as one evaluated. -/
theorem triple_hint {β : Type} {M : Mode H β} {zep hod bus nex : Noun}
    {Q : Res Stop β → St H → Prop}
    (hrun : ∀ kit, Triple (Inv l) (M.run kit bus nex) Q)
    (hmine : ∀ r st dash, Q (.ok r) st → Q (.ok r) { st with dash := dash })
    (hhit : ∀ st p, H.rock = true → Inv l st → Eval bus nex p → Q (.ok (M.hit p)) st)
    (hsave : ∀ r st, Q (.ok r) st → M.fine r = true → Q (.ok r) (saved st bus nex (M.pro r)))
    (hbad : ∀ pri tac tax dat st, zep = .atom (c3s4 's' 'l' 'o' 'g') → hod = .cell pri tac →
      H.wash tac = .error tax → Inv l st → Q (.stop (.bail .exit dat 0)) st) :
    Triple (Inv l) (hint M kit zep hod bus nex) Q := by
  have hmineHint : ∀ clu, Triple (Inv l) (mineHint M kit clu bus nex) Q := by
    intro clu
    refine (hrun kit).bind ?_ (fun _ _ h => h) (fun _ h => h)
    intro r st hr
    cases clu with
    | none => exact hr
    | some clu =>
        by_cases hf : M.fine r = true
        · simp only [hf, if_true]
          exact hmine r st _ hr
        · simp only [hf]
          exact hr
  have hmemoHint : Triple (Inv l) (memoHint M kit bus nex) Q := by
    intro st hst
    rw [memoHint]
    cases hc : (if H.rock then cashFind st.cash bus nex else none) with
    | some p =>
        obtain ⟨hrock, hfind⟩ := Option.ite_none_right_eq_some.mp hc
        rw [run_bind, findCell, run_read, hc]
        exact hhit st p hrock hst (hst.cash bus nex p (cashFind_mem hfind))
    | none =>
        rw [run_bind, findCell, run_read, hc]
        refine Triple.bind (hrun kit) ?_ (fun _ _ h => h) (fun _ h => h) st hst
        intro r st' hr
        by_cases hf : M.fine r = true
        · simp only [hf, if_true]
          exact hsave r st' hr hf
        · simp only [hf]
          exact hr
  cases zep with
  | cell _ _ => exact hrun kit
  | atom z =>
      simp only [hint]
      split
      · exact hrun _
      split
      · next hz =>
          cases hod with
          | atom x => exact hrun kit
          | cell pri tac =>
              simp only [slogHint]
              cases hwash : H.wash tac with
              | error tax =>
                  exact triple_stop fun st hst => hbad pri tac tax _ st (hz ▸ rfl) rfl hwash hst
              | ok _ => exact fun st hst => hrun kit _ (hst.dash (H.washed st.dash tac))
      split
      · exact hmineHint _
      split
      · exact hmineHint _
      split
      · exact hmemoHint
      · exact hrun kit

theorem triple_hint_cool (hR : Sound l R) {zep hod : Noun} (hw : ¬Wishes a' f')
    (hiff : ∀ p, Eval a f p ↔ Eval a' f' p) (hslog : Slogs H.wash a' f' → Slogs H.wash a f)
    (hbad : ∀ pri tac tax, zep = .atom (c3s4 's' 'l' 'o' 'g') → hod = .cell pri tac →
      H.wash tac = .error tax → Slogs H.wash a f) :
    Triple (Inv l) (hint R.coolMode kit zep hod a' f') (CoolPost l a f) := by
  apply triple_hint
  · exact fun kit => (hR.cool kit a' f' hw).imp fun r st h => h.congr hiff hslog
  · rintro r st dash ⟨hi, hp⟩
    exact ⟨hi.dash dash, hp⟩
  · exact fun st p _ hi hp => ⟨hi, (hiff p).mpr hp⟩
  · rintro r st ⟨hi, hp⟩ -
    exact ⟨hi.saved ((hiff r).mp hp), hp⟩
  · exact fun pri tac tax dat st hz hh hwash hi =>
      ⟨hi, ⟨dat, rfl⟩, fun _ _ => hbad pri tac tax hz hh hwash⟩

theorem triple_hint_mool (hR : Sound l R) {zep hod : Noun} (hw : ¬Wishes a' f')
    (hiff : ∀ p, Eval a f p ↔ Eval a' f' p) (hslog : Slogs H.wash a' f' → Slogs H.wash a f)
    (hbad : ∀ pri tac tax, zep = .atom (c3s4 's' 'l' 'o' 'g') → hod = .cell pri tac →
      H.wash tac = .error tax → Slogs H.wash a f) :
    Triple (Inv l) (hint R.moolMode kit zep hod a' f') (MoolPost l a f) := by
  apply triple_hint
  · exact fun kit => (hR.mool kit a' f' hw).imp fun r st h => h.congr hiff hslog
  · rintro ⟨kode, p⟩ st dash hr
    cases kode with
    | good => exact ⟨hr.1.dash dash, hr.2⟩
    | need => exact hr
    | exit => exact hr
  · exact fun st p _ hi hp => ⟨hi, (hiff p).mpr hp⟩
  · rintro ⟨kode, p⟩ st hr -
    cases kode with
    | good => exact ⟨hr.1.saved ((hiff p).mp hr.2), hr.2⟩
    | need => exact hr
    -- the trace is saved as if it were a product
    | exit => exact ⟨(saved_lad st a' f' p).trans hr.1, hr.2⟩
  · exact fun pri tac tax dat st hz hh hwash hi =>
      ⟨hi, ⟨dat, rfl⟩, hbad pri tac tax hz hh hwash⟩

/-! ### `_nock_cool` -/

/-- The operators the interpreters know, and the rest. -/
theorem hib_cases (n : Nat) : n = 0 ∨ n = 1 ∨ n = 2 ∨ n = 3 ∨ n = 4 ∨ n = 5 ∨ n = 6 ∨ n = 7 ∨
    n = 8 ∨ n = 9 ∨ n = 10 ∨ n = 11 ∨ 12 ≤ n := by
  omega

/-- No rule matches an operator above 10. -/
theorem not_eval_op {n : Nat} (h : 11 ≤ n) {b p : Noun} : ¬Eval a (op n b) p := by
  intro he
  generalize hf : op n b = f at he
  cases he <;>
    simp only [op, Noun.cell.injEq, Noun.atom.injEq, reduceCtorEq, false_and] at hf <;> omega

theorem coolOp_sound (hJ : JetsAgree H) (hR : Sound l R) (n : Nat) (gal : Noun)
    (hw : ¬Wishes a (op n gal)) :
    Triple (Inv l) (coolOp R kit a n gal) (CoolPost l a (op n gal)) := by
  rcases hib_cases n with rfl | rfl | rfl | rfl | rfl | rfl | rfl | rfl | rfl | rfl | rfl | rfl |
    hn
  · -- 0: the axis must be an atom
    cases gal with
    | cell y z => exact triple_bail fun p h => by cases h
    | atom b =>
        simp only [coolOp, frag_eq_slot]
        cases hs : slot b a with
        | none =>
            refine triple_bail fun p h => ?_
            cases h with
            | slot hs' => cases hs.symm.trans hs'
        | some p => exact triple_pure fun _ hi => ⟨hi, .slot hs⟩
  · exact triple_pure fun _ hi => ⟨hi, .const⟩
  · -- 2: the formula first, then the subject
    cases gal with
    | atom x => exact triple_bail fun p h => by cases h
    | cell b c =>
        refine triple_part (hR.cool kit a c fun h => hw (.nockFormula h)) .nockFormula ?_ ?_
        · intro nex hc
          refine triple_part (hR.cool kit a b fun h => hw (.nockSubject h)) .nockSubject ?_ ?_
          · intro seb hb
            refine (hR.cool kit seb nex fun h => hw (.nock hb.tar hc.tar h)).imp ?_
            exact fun r st h => h.congr (fun p => eval_nock_iff hb hc) (.nock hb.tar hc.tar)
          · intro p h
            obtain ⟨x, y, hx, -, -⟩ := eval_nock_inv h
            exact ⟨x, hx⟩
        · intro p h
          obtain ⟨x, y, -, hy, -⟩ := eval_nock_inv h
          exact ⟨y, hy⟩
  · refine triple_part (hR.cool kit a gal fun h => hw (.wut h)) .wut ?_ ?_
    · exact fun v hv => triple_pure fun _ hi => ⟨hi, .wut hv⟩
    · intro p h
      cases h with
      | wut hb => exact ⟨_, hb⟩
  · refine triple_part (hR.cool kit a gal fun h => hw (.lus h)) .lus ?_ ?_
    · intro v hv
      cases v with
      | atom x => exact triple_pure fun _ hi => ⟨hi, .lus hv⟩
      | cell y z =>
          refine triple_bail fun p h => ?_
          cases h with
          | lus hb => cases hv.unique hb
    · intro p h
      cases h with
      | lus hb => exact ⟨_, hb⟩
  · -- 5: an atom is no formula, so the check of `gal` forbids nothing else
    cases gal with
    | atom x =>
        refine triple_bail fun p h => ?_
        cases h with
        | tis hb => cases hb
    | cell y z =>
        refine triple_part (hR.cool kit a (.cell y z) fun h => hw (.tis h)) .tis ?_ ?_
        · intro v hv
          cases v with
          | cell x y => exact triple_pure fun _ hi => ⟨hi, .tis hv⟩
          | atom x =>
              refine triple_bail fun p h => ?_
              cases h with
              | tis hb => cases hv.unique hb
        · intro p h
          cases h with
          | tis hb => exact ⟨_, hb⟩
  · cases gal with
    | atom x => exact triple_bail fun p h => by cases h
    | cell b cd =>
        cases cd with
        | atom x => exact triple_bail fun p h => by cases h
        | cell c d =>
            refine triple_part (hR.cool kit a b fun h => hw (.test h)) .test ?_ ?_
            · intro tys hb
              by_cases h0 : tys = .atom 0
              · subst h0
                rw [if_pos rfl]
                refine (hR.cool kit a c fun h => hw (.then_ hb.tar h)).imp ?_
                exact fun r st h => h.congr (fun p => eval_then_iff hb) (.then_ hb.tar)
              rw [if_neg h0]
              by_cases h1 : tys = .atom 1
              · subst h1
                rw [if_pos rfl]
                refine (hR.cool kit a d fun h => hw (.else_ hb.tar h)).imp ?_
                exact fun r st h => h.congr (fun p => eval_else_iff hb) (.else_ hb.tar)
              rw [if_neg h1]
              exact triple_bail fun p => not_eval_six hb h0 h1
            · intro p h
              cases h with
              | then_ hb _ => exact ⟨_, hb⟩
              | else_ hb _ => exact ⟨_, hb⟩
  · cases gal with
    | atom x => exact triple_bail fun p h => by cases h
    | cell b c =>
        refine triple_part (hR.cool kit a b fun h => hw (.first h)) .first ?_ ?_
        · intro bod hb
          refine (hR.cool kit bod c fun h => hw (.second hb.tar h)).imp ?_
          exact fun r st h => h.congr (fun p => eval_seven_iff hb) (.second hb.tar)
        · intro p h
          obtain ⟨x, hx, -⟩ := eval_seven_inv h
          exact ⟨x, hx⟩
  · cases gal with
    | atom x => exact triple_bail fun p h => by cases h
    | cell b c =>
        refine triple_part (hR.cool kit a b fun h => hw (.pushed h)) .pushed ?_ ?_
        · intro wib hb
          refine (hR.cool kit (.cell wib a) c fun h => hw (.push hb.tar h)).imp ?_
          exact fun r st h => h.congr (fun p => eval_eight_iff hb) (.push hb.tar)
        · intro p h
          obtain ⟨x, hx, -⟩ := eval_eight_inv h
          exact ⟨x, hx⟩
  · -- 9: by the core's chip, or the arm as a formula
    cases gal with
    | atom x => exact triple_bail fun p h => by cases h
    | cell b c =>
        cases b with
        | cell y z => exact triple_bail fun p h => by cases h
        | atom b =>
            refine triple_part (hR.cool kit a c fun h => hw (.core h)) .core ?_ ?_
            · intro seb hc
              have harm : ∀ g, slot b seb = some g → ¬Wishes seb g :=
                fun g hs h => hw (.arm hc.tar hs h)
              apply triple_dsFind
              · simp only [frag_eq_slot]
                cases hs : slot b seb with
                | none => exact triple_bail fun p => not_eval_nine hc hs
                | some nex =>
                    refine (hR.cool kit seb nex (harm nex hs)).imp ?_
                    exact fun r st h => h.congr (fun p => eval_nine_iff hc hs) (.arm hc.tar hs)
              · intro xip hx
                exact triple_kick_cool (triple_kick hJ hR hx harm)
                  (fun hs p => not_eval_nine hc hs) (fun g hs p => eval_nine_iff hc hs) fun g hs =>
                    .arm hc.tar hs
            · intro p h
              cases h with
              | nine hc _ _ => exact ⟨_, hc⟩
  · cases gal with
    | atom x => exact triple_bail fun p h => by cases h
    | cell b d =>
        cases b with
        | cell b c =>
            refine triple_part (hR.cool kit a c fun h => hw (.clue h)) .clue ?_ ?_
            · intro hod hc
              refine triple_hint_cool hR (fun h => hw (.hinted h)) (fun p => eval_hint_iff hc) .hinted ?_
              rintro pri tac tax rfl rfl hwash
              exact .here ⟨c, d, pri, tac, tax, rfl, hc.tar, hwash⟩
            · intro p h
              cases h with
              | hint hc _ => exact ⟨_, hc⟩
        | atom b =>
            exact triple_hint_cool hR (fun h => hw (.hinted h)) (fun p => eval_skip_iff) .hinted
              fun pri tac tax _ hh => nomatch hh
  · exact absurd (.here ⟨gal, rfl⟩) hw
  · -- no other operator
    obtain ⟨m, rfl⟩ := Nat.exists_eq_add_of_le hn
    rw [Nat.add_comm]
    exact triple_bail fun p => not_eval_op (by omega)

theorem coolStep_sound (hJ : JetsAgree H) (hR : Sound l R) (f : Noun)
    (hw : ¬Wishes a f) : Triple (Inv l) (coolStep R kit a f) (CoolPost l a f) := by
  cases f with
  | atom x => exact triple_bail fun p h => by cases h
  | cell hib gal =>
      cases hib with
      | atom n => exact coolOp_sound hJ hR n gal hw
      | cell b c =>
          refine triple_part (hR.cool kit a (.cell b c) fun h => hw (.head h)) .head ?_ ?_
          · intro poz hx
            refine triple_part (hR.cool kit a gal fun h => hw (.tail h)) .tail ?_ ?_
            · exact fun riv hy => triple_pure fun _ hi => ⟨hi, .cons hx hy⟩
            · intro p h
              obtain ⟨x, y, -, -, hy⟩ := eval_cons_inv h
              exact ⟨y, hy⟩
          · intro p h
            obtain ⟨x, y, -, hx, -⟩ := eval_cons_inv h
            exact ⟨x, hx⟩

/-! ### `_nock_mool` -/

theorem moolOp_sound (hJ : JetsAgree H) (hR : Sound l R) (n : Nat) (gal : Noun)
    (hw : ¬Wishes a (op n gal)) :
    Triple (Inv l) (moolOp R kit a n gal) (MoolPost l a (op n gal)) := by
  rcases hib_cases n with rfl | rfl | rfl | rfl | rfl | rfl | rfl | rfl | rfl | rfl | rfl | rfl |
    hn
  · cases gal with
    | cell y z => exact triple_wail fun p h => by cases h
    | atom b =>
        simp only [moolOp, frag_eq_slot]
        cases hs : slot b a with
        | none =>
            refine triple_wail fun p h => ?_
            cases h with
            | slot hs' => cases hs.symm.trans hs'
        | some p => exact triple_pure fun _ hi => ⟨hi, .slot hs⟩
  · exact triple_pure fun _ hi => ⟨hi, .const⟩
  · -- 2: subject and formula as one pair; an atom as a formula has no product
    cases gal with
    | atom x => exact triple_wail fun p h => by cases h
    | cell b d =>
        cases b with
        | atom x =>
            refine triple_wail fun p h => ?_
            obtain ⟨x, y, hx, -, -⟩ := eval_nock_inv h
            cases hx
        | cell b c =>
            have hwp : ¬Wishes a (.cell (.cell b c) d) := fun h =>
              (h.cons_inv fun ⟨_, hf⟩ => nomatch hf).elim (fun h => hw (.nockSubject h)) fun h =>
                hw (.nockFormula h)
            have hslog : Slogs H.wash a (.cell (.cell b c) d) →
                Slogs H.wash a (op 2 (.cell (.cell b c) d)) := fun h =>
              (h.cons_inv not_badSlog_cons).elim .nockSubject .nockFormula
            refine triple_onGood (hR.mool kit a _ hwp) hslog ?_ ?_
            · intro neb hv
              obtain ⟨seb, nex, rfl, hb, hc⟩ := eval_cons_inv hv
              refine (hR.mool kit seb nex fun h => hw (.nock hb.tar hc.tar h)).imp ?_
              exact fun r st h => h.congr (fun p => eval_nock_iff hb hc) (.nock hb.tar hc.tar)
            · intro p h
              obtain ⟨x, y, hx, hy, -⟩ := eval_nock_inv h
              exact ⟨_, .cons hx hy⟩
  · refine triple_onGood (hR.mool kit a gal fun h => hw (.wut h)) .wut ?_ ?_
    · exact fun v hv => triple_pure fun _ hi => ⟨hi, .wut hv⟩
    · intro p h
      cases h with
      | wut hb => exact ⟨_, hb⟩
  · refine triple_onGood (hR.mool kit a gal fun h => hw (.lus h)) .lus ?_ ?_
    · intro v hv
      cases v with
      | atom x => exact triple_pure fun _ hi => ⟨hi, .lus hv⟩
      | cell y z =>
          refine triple_wail fun p h => ?_
          cases h with
          | lus hb => cases hv.unique hb
    · intro p h
      cases h with
      | lus hb => exact ⟨_, hb⟩
  · refine triple_onGood (hR.mool kit a gal fun h => hw (.tis h)) .tis ?_ ?_
    · intro v hv
      cases v with
      | cell x y => exact triple_pure fun _ hi => ⟨hi, .tis hv⟩
      | atom x =>
          refine triple_wail fun p h => ?_
          cases h with
          | tis hb => cases hv.unique hb
    · intro p h
      cases h with
      | tis hb => exact ⟨_, hb⟩
  · cases gal with
    | atom x => exact triple_wail fun p h => by cases h
    | cell b cd =>
        refine triple_onGood (hR.mool kit a b fun h => hw (.test h)) .test ?_ ?_
        · intro tys hb
          cases cd with
          | atom x => exact triple_wail fun p h => by cases h
          | cell c d =>
              simp only
              by_cases h0 : tys = .atom 0
              · subst h0
                rw [if_pos rfl]
                refine (hR.mool kit a c fun h => hw (.then_ hb.tar h)).imp ?_
                exact fun r st h => h.congr (fun p => eval_then_iff hb) (.then_ hb.tar)
              rw [if_neg h0]
              by_cases h1 : tys = .atom 1
              · subst h1
                rw [if_pos rfl]
                refine (hR.mool kit a d fun h => hw (.else_ hb.tar h)).imp ?_
                exact fun r st h => h.congr (fun p => eval_else_iff hb) (.else_ hb.tar)
              rw [if_neg h1]
              exact triple_wail fun p => not_eval_six hb h0 h1
        · intro p h
          cases h with
          | then_ hb _ => exact ⟨_, hb⟩
          | else_ hb _ => exact ⟨_, hb⟩
  · cases gal with
    | atom x => exact triple_wail fun p h => by cases h
    | cell b c =>
        refine triple_onGood (hR.mool kit a b fun h => hw (.first h)) .first ?_ ?_
        · intro bod hb
          refine (hR.mool kit bod c fun h => hw (.second hb.tar h)).imp ?_
          exact fun r st h => h.congr (fun p => eval_seven_iff hb) (.second hb.tar)
        · intro p h
          obtain ⟨x, hx, -⟩ := eval_seven_inv h
          exact ⟨x, hx⟩
  · cases gal with
    | atom x => exact triple_wail fun p h => by cases h
    | cell b c =>
        refine triple_onGood (hR.mool kit a b fun h => hw (.pushed h)) .pushed ?_ ?_
        · intro wib hb
          refine (hR.mool kit (.cell wib a) c fun h => hw (.push hb.tar h)).imp ?_
          exact fun r st h => h.congr (fun p => eval_eight_iff hb) (.push hb.tar)
        · intro p h
          obtain ⟨x, hx, -⟩ := eval_eight_inv h
          exact ⟨x, hx⟩
  · cases gal with
    | atom x => exact triple_wail fun p h => by cases h
    | cell b c =>
        cases b with
        | cell y z => exact triple_wail fun p h => by cases h
        | atom b =>
            refine triple_onGood (hR.mool kit a c fun h => hw (.core h)) .core ?_ ?_
            · intro seb hc
              have harm : ∀ g, slot b seb = some g → ¬Wishes seb g :=
                fun g hs h => hw (.arm hc.tar hs h)
              apply triple_dsFind
              · simp only [frag_eq_slot]
                cases hs : slot b seb with
                | none => exact triple_wail fun p => not_eval_nine hc hs
                | some nex =>
                    refine (hR.mool kit seb nex (harm nex hs)).imp ?_
                    exact fun r st h => h.congr (fun p => eval_nine_iff hc hs) (.arm hc.tar hs)
              · intro xip hx
                exact triple_kicq_mool (triple_kick hJ hR hx harm)
                  (fun hs p => not_eval_nine hc hs) (fun g hs p => eval_nine_iff hc hs) fun g hs =>
                    .arm hc.tar hs
            · intro p h
              cases h with
              | nine hc _ _ => exact ⟨_, hc⟩
  · cases gal with
    | atom x => exact triple_wail fun p h => by cases h
    | cell b d =>
        cases b with
        | cell b c =>
            refine triple_onGood (hR.mool kit a c fun h => hw (.clue h)) .clue ?_ ?_
            · intro hod hc
              refine triple_hint_mool hR (fun h => hw (.hinted h)) (fun p => eval_hint_iff hc) .hinted ?_
              rintro pri tac tax rfl rfl hwash
              exact .here ⟨c, d, pri, tac, tax, rfl, hc.tar, hwash⟩
            · intro p h
              cases h with
              | hint hc _ => exact ⟨_, hc⟩
        | atom b =>
            exact triple_hint_mool hR (fun h => hw (.hinted h)) (fun p => eval_skip_iff) .hinted
              fun pri tac tax _ hh => nomatch hh
  · exact absurd (.here ⟨gal, rfl⟩) hw
  · obtain ⟨m, rfl⟩ := Nat.exists_eq_add_of_le hn
    rw [Nat.add_comm]
    exact triple_wail fun p => not_eval_op (by omega)

theorem moolStep_sound (hJ : JetsAgree H) (hR : Sound l R) (f : Noun)
    (hw : ¬Wishes a f) : Triple (Inv l) (moolStep R kit a f) (MoolPost l a f) := by
  cases f with
  | atom x => exact triple_wail fun p h => by cases h
  | cell hib gal =>
      cases hib with
      | atom n => exact moolOp_sound hJ hR n gal hw
      | cell b c =>
          refine (hR.mool kit a (.cell b c) fun h => hw (.head h)).bind ?_ (fun _ _ h => ⟨h.1, h.2.1, .head h.2.2⟩)
            fun _ _ => trivial
          rintro ⟨hk, poz⟩
          cases hk with
          | need => exact fun _ h => h.elim
          | exit =>
              rintro st ⟨hi, hno⟩
              refine ⟨hi, ?_⟩
              intro p h
              obtain ⟨x, y, -, hx, -⟩ := eval_cons_inv h
              exact .head (hno x hx)
          | good =>
              rintro st ⟨hi, hx⟩
              suffices htail : Triple (Inv l) (R.mool kit a gal >>= fun t =>
                  pure (pairUp (.good, poz) t)) (MoolPost l a (.cell (.cell b c) gal)) from
                htail st hi
              refine (hR.mool kit a gal fun h => hw (.tail h)).bind ?_ (fun _ _ h => ⟨h.1, h.2.1, .tail h.2.2⟩)
                fun _ _ => trivial
              rintro ⟨tk, riv⟩ st' h
              cases tk with
              | good => exact ⟨h.1, .cons hx h.2⟩
              | need => exact h.elim
              | exit =>
                  refine ⟨h.1, ?_⟩
                  intro p hp
                  obtain ⟨x, y, -, -, hy⟩ := eval_cons_inv hp
                  exact .tail (h.2 y hy)

/-- Both interpreters keep to their conditions at every depth. -/
theorem interp_sound (hJ : JetsAgree H) (l : Noun) :
    ∀ n, Sound l (interp n : Rec H)
  | 0 => ⟨fun _ _ _ _ => triple_spent fun _ _ => trivial,
      fun _ _ _ _ => triple_spent fun _ _ => trivial⟩
  | n + 1 => ⟨fun _ _ f hw => coolStep_sound hJ (interp_sound hJ l n) f hw,
      fun _ _ f hw => moolStep_sound hJ (interp_sound hJ l n) f hw⟩

theorem inv_of_empty {st : St H} (h : st.cash = []) : Inv st.lad st := by
  refine ⟨rfl, ?_⟩
  intro bus nex pro hm
  rw [h] at hm
  cases hm

end Vere.Nock
