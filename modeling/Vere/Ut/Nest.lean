import Vere.Lib.Settles
import Vere.Ut.Type

/-!
# Vere.Ut.Nest

Subtyping: `+-nest:ut`.

`dext` takes the left type apart, `sint` the right one, and the two call each other. A
`%hold` is expanded, and the pair that is being compared goes into `gil`: to meet it again
is a yes. The recursion is given a bound here; what counts is what it settles on.

On plain types a yes is right: every noun of the right type is one of the left
(`nest_sound`).
-/

namespace Vere.Ut

open Vere.Hoon Vere.Lib

/-- `?&`. -/
def both (x y : Virt Bool) : Virt Bool := do
  if ← x then y else return false

/-- `?|`. -/
def either (x y : Virt Bool) : Virt Bool := do
  if ← x then return true else y

/-- `(set ,[p=type q=type])`. -/
abbrev Gil := List (Ty × Ty)

instance gilLawful : LawfulBEq (Ty × Ty) := inferInstance

mutual

/-- `cram` of `+-nest:ut`. -/
def cram (van : Van) (dext : Ty → Ty → Virt Bool) (sut ref : Ty) : Arms → Arms → Virt Bool
  | .nil, hem => return hem = .nil
  | .node .., .nil => return false
  | .node p q l r, .node p' q' l' r' =>
      both (return p = p') (both (cram van dext sut ref l l')
        (both (cram van dext sut ref r r') (cramFoot van dext sut ref q q')))

/-- The end of `cram`, for the feet of one name. -/
def cramFoot (van : Van) (dext : Ty → Ty → Virt Bool) (sut ref : Ty) : Foot → Foot → Virt Bool
  | .ash p, .ash p' => do
      let vis ← van.play sut p
      let lon ← van.play ref p'
      dext vis lon
  | .ash _, _ => return false
  | .elm p, q' => return q' = .elm p
  | .oak, .oak => return true
  | .oak, .yew _ => return true
  | .oak, _ => return false
  | .yew p, .yew p' => cram van dext sut ref p p'
  | .yew _, _ => return false

end

/-- What `cong` asks for by the metal of the left core. -/
def congMetal (van : Van) (dext : Ty → Ty → Virt Bool) (metal : Metal) (q q' : Ty) : Virt Bool :=
  match metal with
  | .gold => both (dext q q') (dext q' q)
  | .iron => do
      let s ← van.peek q .rite 2
      let r ← van.peek q' .rite 2
      dext r s
  | .lead => return true
  | .zinc => do
      let s ← van.peek q .read 2
      let r ← van.peek q' .read 2
      dext s r

section body

variable (van : Van) (dext : Bool → Gil → Ty → Ty → Virt Bool) (tel : Bool) (gil : Gil)

/-- `cong` of `+-nest:ut`, of the cores `[%core p metal q bat arms]` and
`[%core p' metal' q' bat' arms']`. -/
def cong (p : Ty) (metal : Metal) (q : Ty) (bat : Noun) (arms : Arms) (p' : Ty) (metal' : Metal)
    (q' : Ty) (bat' : Noun) (arms' : Arms) : Virt Bool :=
  if metal = metal' ∧ q = q' ∧ bat = bat' ∧ arms = arms' then dext tel gil p p'
  else
    let hud := (Ty.core p metal q bat arms, Ty.core p' metal' q' bat' arms')
    both (both (dext tel gil q p) (both (dext tel gil p q) (dext tel gil q' p')))
      (both (return metal = metal' ∨ metal' = .gold)
        (both
          (either (return hud ∈ gil)
            (cram van (dext tel (hud :: gil)) (.core q metal q bat arms)
              (.core q' metal' q' bat' arms') arms arms'))
          (congMetal van (dext tel gil) metal q q')))

/-- `sint` of `+-nest:ut`. -/
def sint (sut ref : Ty) : Virt Bool :=
  match ref with
  | .atom _ => return false
  | .cell _ _ => return false
  | .fork p q => both (dext tel gil sut p) (dext tel gil sut q)
  | .hold _ =>
      either (return (sut, ref) ∈ gil) (do
        let gam ← repo van ref
        dext tel ((sut, ref) :: gil) sut gam)
  | .noun => return false
  | .void => return true
  | _ => do
      let gam ← repo van ref
      dext tel gil sut gam

/-- `tyn` of `dext` of `+-nest:ut`. -/
def dextIn (sut ref : Ty) : Virt Bool :=
  if sut = ref then return true
  else
    match sut with
    | .void => sint van dext tel gil sut ref
    | .noun => return true
    | .atom p =>
        match ref with
        | .atom q => return fitz p q
        | _ => sint van dext tel gil sut ref
    | .cell p q =>
        match ref with
        | .cell p' q' => both (dext tel gil p p') (dext tel gil q q')
        | _ => sint van dext tel gil sut ref
    | .core p metal q bat arms =>
        match ref with
        | .core p' metal' q' bat' arms' =>
            cong van dext tel gil p metal q bat arms p' metal' q' bat' arms'
        | _ => sint van dext tel gil sut ref
    | .cube p _ =>
        match ref with
        | .cube p' _ => return p = p'
        | _ => sint van dext tel gil sut ref
    | .bull _ _ axe s q =>
        both (dext tel gil q ref) (do
          let lor ← van.peek ref .free axe
          dext tel gil s lor)
    | .face _ q => dext tel gil q ref
    | .fork p q =>
        match ref with
        | .atom _ | .noun | .cell _ _ | .cube _ _ | .core .. =>
            either (dext false gil p ref) (dext false gil q ref)
        | _ => sint van dext tel gil sut ref
    | .hold _ =>
        either (return (sut, ref) ∈ gil) (do
          let fop ← repo van sut
          dext tel ((sut, ref) :: gil) fop ref)

end body

/-- `dext` of `+-nest:ut`. -/
def dext (van : Van) : Nat → Bool → Gil → Ty → Ty → Virt Bool
  | 0, _, _, _, _ => .never
  | n + 1, tel, gil, sut, ref => do
      let tyn ← dextIn van (dext van n) tel gil sut ref
      if tyn then return true else if tel then throw () else return false

/-- `+-nest:ut`. -/
def nest (van : Van) (n : Nat) (tel : Bool) (sut ref : Ty) : Virt Bool := dext van n tel [] sut ref

/-! ### A yes -/

section yes

variable {x y : Virt Bool}

/-- What runs for ever, crashes, says yes or says no. -/
theorem virt_cases (x : Virt Bool) : x = .never ∨ x = throw () ∨ x = pure true ∨ x = pure false := by
  match x with
  | none => exact .inl rfl
  | some (.error ()) => exact .inr (.inl rfl)
  | some (.ok true) => exact .inr (.inr (.inl rfl))
  | some (.ok false) => exact .inr (.inr (.inr rfl))

theorem both_yes : both x y = pure true ↔ x = pure true ∧ y = pure true := by
  obtain rfl | rfl | rfl | rfl := virt_cases x
  · exact ⟨nofun, fun h => nomatch h.1⟩
  · exact ⟨nofun, fun h => nomatch h.1⟩
  · exact ⟨fun h => ⟨rfl, h⟩, fun h => h.2⟩
  · exact ⟨nofun, fun h => nomatch h.1⟩

theorem either_yes : either x y = pure true ↔ x = pure true ∨ (x = pure false ∧ y = pure true) := by
  obtain rfl | rfl | rfl | rfl := virt_cases x
  · exact ⟨nofun, fun h => h.elim nofun fun h => nomatch h.1⟩
  · exact ⟨nofun, fun h => h.elim nofun fun h => nomatch h.1⟩
  · exact ⟨fun _ => .inl rfl, fun _ => rfl⟩
  · exact ⟨fun h => .inr ⟨rfl, h⟩, fun h => h.elim nofun fun h => h.2⟩

theorem pure_yes {b : Bool} : (pure b : Virt Bool) = pure true ↔ b = true := by
  cases b with
  | true => exact ⟨fun _ => rfl, fun _ => rfl⟩
  | false => exact ⟨nofun, nofun⟩

theorem dext_yes {van : Van} {n : Nat} {tel : Bool} {gil : Gil} {sut ref : Ty}
    (h : dext van (n + 1) tel gil sut ref = pure true) :
    dextIn van (dext van n) tel gil sut ref = pure true := by
  rw [dext] at h
  obtain hx | hx | hx | hx := virt_cases (dextIn van (dext van n) tel gil sut ref)
  · rw [hx] at h
    cases h
  · rw [hx] at h
    cases h
  · exact hx
  · rw [hx] at h
    cases tel <;> cases h

end yes

/-! ### A yes on plain types is right -/

/-- Every noun of the second type is one of the first. -/
def Covers (sut ref : Ty) : Prop := ∀ x, ref.has x = true → sut.has x = true

section sound

variable {van : Van} {rec : Bool → Gil → Ty → Ty → Virt Bool} {tel : Bool} {gil : Gil} {sut ref : Ty}

theorem covers_cube {p : Noun} {q : Ty} (hp : q.has p = true) (h : Covers sut q) :
    Covers sut (.cube p q) := by
  intro x hx
  rw [Ty.has_cube, decide_eq_true_eq] at hx
  exact hx ▸ h p hp

theorem covers_fork {p q : Ty} (hp : Covers sut p) (hq : Covers sut q) : Covers sut (.fork p q) := by
  intro x hx
  rw [Ty.has_fork, Bool.or_eq_true] at hx
  exact hx.elim (hp x) (hq x)

theorem covers_cell {p q p' q' : Ty} (hp : Covers p p') (hq : Covers q q') :
    Covers (.cell p q) (.cell p' q') := by
  intro x hx
  cases x with
  | atom a => simp at hx
  | cell h t =>
      rw [Ty.has_cell_cell, Bool.and_eq_true] at hx ⊢
      exact ⟨hp h hx.1, hq t hx.2⟩

theorem sint_sound (ih : ∀ tel gil sut ref, sut.Plain → ref.Proper →
      rec tel gil sut ref = pure true → Covers sut ref)
    (hsut : sut.Plain) (href : ref.Proper) (h : sint van rec tel gil sut ref = pure true) :
    Covers sut ref := by
  cases ref with
  | noun | atom | cell => cases h
  | bull | core | hold => exact href.elim
  | void => exact fun x hx => by simp at hx
  | fork p q =>
      obtain ⟨hp, hq⟩ := both_yes.mp h
      exact covers_fork (ih _ _ _ _ hsut href.1 hp) (ih _ _ _ _ hsut href.2 hq)
  | cube p q => exact covers_cube href.2 (ih _ _ _ _ hsut href.1 h)
  | face p q =>
      intro x hx
      exact ih tel gil sut q hsut href h x (by simpa using hx)

theorem dextIn_sound (ih : ∀ tel gil sut ref, sut.Plain → ref.Proper →
      rec tel gil sut ref = pure true → Covers sut ref)
    (hsut : sut.Plain) (href : ref.Proper) (h : dextIn van rec tel gil sut ref = pure true) :
    Covers sut ref := by
  unfold dextIn at h
  split at h
  · next heq => exact fun x hx => heq ▸ hx
  · cases sut with
    | void => exact sint_sound ih hsut href h
    | noun => exact fun x _ => Ty.has_noun x
    | atom p =>
        cases ref with
        | atom q =>
            intro x hx
            cases x with
            | atom a => simp
            | cell h t => simp at hx
        | _ => exact sint_sound ih hsut href h
    | cell p q =>
        cases ref with
        | cell p' q' =>
            obtain ⟨hp, hq⟩ := both_yes.mp h
            exact covers_cell (ih _ _ _ _ hsut.1 href.1 hp) (ih _ _ _ _ hsut.2 href.2 hq)
        | _ => exact sint_sound ih hsut href h
    | cube p q =>
        cases ref with
        | cube p' q' =>
            have hpp : p = p' := of_decide_eq_true (pure_yes.mp h)
            intro x hx
            simpa [hpp] using hx
        | _ => exact sint_sound ih hsut href h
    | face p q =>
        intro x hx
        rw [Ty.has_face]
        exact ih tel gil q ref hsut href h x hx
    | fork p q =>
        have hdown : either (rec false gil p ref) (rec false gil q ref) = pure true →
            Covers (.fork p q) ref := by
          intro h x hx
          rw [Ty.has_fork, Bool.or_eq_true]
          rcases either_yes.mp h with hp | ⟨-, hq⟩
          · exact .inl (ih _ _ _ _ hsut.1 href hp x hx)
          · exact .inr (ih _ _ _ _ hsut.2 href hq x hx)
        cases ref with
        | atom | noun | cell | cube | core => exact hdown h
        | _ => exact sint_sound ih hsut href h
    | bull | core | hold => exact hsut.elim

/-- A yes for a proper type under a plain one, with any bound on the recursion. -/
theorem dext_sound {n : Nat} (hsut : sut.Plain) (href : ref.Proper)
    (h : dext van n tel gil sut ref = pure true) : Covers sut ref := by
  induction n generalizing tel gil sut ref with
  | zero => cases h
  | succ n ih =>
      exact dextIn_sound (fun _ _ _ _ hsut href h => ih hsut href h) hsut href (dext_yes h)

/-- Every type is under itself. -/
theorem dext_refl (van : Van) (n : Nat) (tel : Bool) (gil : Gil) (sut : Ty) :
    dext van (n + 1) tel gil sut sut = pure true := by
  simp only [dext, dextIn.eq_def, if_true]
  rfl

end sound

/-! ### An answer on plain types -/

/-- Without `tel`, the recursion comes to a yes or a no. -/
def Answers (f : Nat → Virt Bool) : Prop := ∃ b, Settles f (pure b)

namespace Answers

variable {f g : Nat → Virt Bool}

theorem of_pure (b : Bool) : Answers fun _ => pure b := ⟨b, .const _⟩

theorem both (hf : Answers f) (hg : Answers g) : Answers fun n => Ut.both (f n) (g n) := by
  obtain ⟨x, hx⟩ := hf
  obtain ⟨y, hy⟩ := hg
  cases x with
  | true => exact ⟨y, .bind hx hy⟩
  | false => exact ⟨false, .bind hx (.const _)⟩

theorem either (hf : Answers f) (hg : Answers g) : Answers fun n => Ut.either (f n) (g n) := by
  obtain ⟨x, hx⟩ := hf
  obtain ⟨y, hy⟩ := hg
  cases x with
  | true => exact ⟨true, .bind hx (.const _)⟩
  | false => exact ⟨y, .bind hx hy⟩

end Answers

section ends

variable {van : Van} {gil : Gil} {sut ref : Ty}

/-- A call, once its body has an answer. -/
theorem dext_answers (h : Answers fun n => dextIn van (dext van n) false gil sut ref) :
    Answers fun n => dext van n false gil sut ref := by
  obtain ⟨b, hb⟩ := h
  refine ⟨b, .call (fun _ => rfl) (.bind hb ?_)⟩
  cases b <;> exact .const _

theorem sint_answers (href : ref.Plain)
    (ih : ∀ r, sizeOf r < sizeOf ref → r.Plain → Answers fun n => dext van n false gil sut r) :
    Answers fun n => sint van (dext van n) false gil sut ref := by
  cases ref with
  | noun | void | atom | cell => exact .of_pure _
  | bull | core | hold => exact href.elim
  | fork p q =>
      have hsize := Ty.fork.sizeOf_spec p q
      exact (ih p (by omega) href.1).both (ih q (by omega) href.2)
  | cube p q => exact ih q (by simp) href
  | face p q => exact ih q (by simp) href

/-- `+-nest:ut` answers on plain types. -/
theorem nest_answers (van : Van) (gil : Gil) {sut ref : Ty} (hsut : sut.Plain) (href : ref.Plain) :
    Answers fun n => dext van n false gil sut ref := by
  induction hk : sizeOf sut + sizeOf ref using Nat.strongRecOn generalizing sut ref with
  | ind k ih =>
      have hsint : Answers fun n => sint van (dext van n) false gil sut ref :=
        sint_answers href fun r hr hplain => ih _ (by omega) hsut hplain rfl
      apply dext_answers
      unfold dextIn
      split
      · exact .of_pure _
      · cases sut with
        | void => exact hsint
        | noun => exact .of_pure _
        | atom p => cases ref <;> first | exact .of_pure _ | exact hsint
        | cube p q => cases ref <;> first | exact .of_pure _ | exact hsint
        | cell p q =>
            cases ref with
            | cell p' q' =>
                simp only [Ty.cell.sizeOf_spec] at hk
                exact (ih _ (by omega) hsut.1 href.1 rfl).both (ih _ (by omega) hsut.2 href.2 rfl)
            | _ => exact hsint
        | face p q =>
            simp only [Ty.face.sizeOf_spec] at hk
            exact ih _ (by omega) hsut href rfl
        | fork p q =>
            simp only [Ty.fork.sizeOf_spec] at hk
            have hdown : Answers fun n =>
                either (dext van n false gil p ref) (dext van n false gil q ref) :=
              (ih _ (by omega) hsut.1 href rfl).either (ih _ (by omega) hsut.2 href rfl)
            cases ref with
            | atom | noun | cell | cube | core => exact hdown
            | _ => exact hsint
        | bull | core | hold => exact hsut.elim

end ends

/-! ### Errors for noes -/

/-- What `dext` makes of an answer: with `tel` a no is an error. -/
def telCheck (tel tyn : Bool) : Virt Bool := if tyn = true ∨ tel = false then return tyn else throw ()

/-- Two ways to an answer that `dext` makes the same of. -/
def TelEq (tel : Bool) (x y : Virt Bool) : Prop := x >>= telCheck tel = y >>= telCheck tel

section tel

variable {van : Van} {tel : Bool} {x x' y y' : Virt Bool}

theorem TelEq.refl (x : Virt Bool) : TelEq tel x x := rfl

/-- The same, or both a failure: with `tel` a no is as good as a crash. -/
theorem TelEq.cases (h : TelEq tel x y) :
    x = y ∨ (tel = true ∧ (x = throw () ∨ x = pure false) ∧ (y = throw () ∨ y = pure false)) := by
  obtain rfl | rfl | rfl | rfl := virt_cases x <;> obtain rfl | rfl | rfl | rfl := virt_cases y <;>
    cases tel <;> first | exact .inl rfl | exact .inr ⟨rfl, by simp, by simp⟩ | cases h

theorem TelEq.fail (htel : tel = true) (hx : x = throw () ∨ x = pure false)
    (hy : y = throw () ∨ y = pure false) : TelEq tel x y := by
  subst htel
  rcases hx with rfl | rfl <;> rcases hy with rfl | rfl <;> rfl

theorem TelEq.both (hx : TelEq tel x x') (hy : TelEq tel y y') :
    TelEq tel (Ut.both x y) (Ut.both x' y') := by
  rcases hx.cases with rfl | ⟨htel, hx, hx'⟩
  · obtain rfl | rfl | rfl | rfl := virt_cases x
    · exact .refl _
    · exact .refl _
    · exact hy
    · exact .refl _
  · refine .fail htel ?_ ?_
    · rcases hx with rfl | rfl
      · exact .inl rfl
      · exact .inr rfl
    · rcases hx' with rfl | rfl
      · exact .inl rfl
      · exact .inr rfl

theorem TelEq.either (b : Bool) (hy : TelEq tel y y') :
    TelEq tel (Ut.either (pure b) y) (Ut.either (pure b) y') := by
  cases b with
  | true => exact .refl _
  | false => exact hy

theorem TelEq.bind {α : Type} (v : Virt α) {f f' : α → Virt Bool} (h : ∀ a, TelEq tel (f a) (f' a)) :
    TelEq tel (v >>= f) (v >>= f') := by
  match v with
  | none => exact .refl _
  | some (.error ()) => exact .refl _
  | some (.ok a) => exact h a

mutual

theorem cram_tel {dext dext' : Ty → Ty → Virt Bool} (h : ∀ s r, TelEq tel (dext s r) (dext' s r))
    (sut ref : Ty) : ∀ arms arms' : Arms,
      TelEq tel (cram van dext sut ref arms arms') (cram van dext' sut ref arms arms')
  | .nil, _ => .refl _
  | .node .., .nil => .refl _
  | .node _ q l r, .node _ q' l' r' =>
      .both (.refl _) (.both (cram_tel h sut ref l l') (.both (cram_tel h sut ref r r')
        (cramFoot_tel h sut ref q q')))

theorem cramFoot_tel {dext dext' : Ty → Ty → Virt Bool}
    (h : ∀ s r, TelEq tel (dext s r) (dext' s r)) (sut ref : Ty) : ∀ q q' : Foot,
      TelEq tel (cramFoot van dext sut ref q q') (cramFoot van dext' sut ref q q')
  | .ash _, .ash _ => .bind _ fun vis => .bind _ fun lon => h vis lon
  | .ash _, .elm _ => .refl _
  | .ash _, .oak => .refl _
  | .ash _, .yew _ => .refl _
  | .elm _, _ => .refl _
  | .oak, .oak => .refl _
  | .oak, .yew _ => .refl _
  | .oak, .ash _ => .refl _
  | .oak, .elm _ => .refl _
  | .yew p, .yew p' => cram_tel h sut ref p p'
  | .yew _, .ash _ => .refl _
  | .yew _, .elm _ => .refl _
  | .yew _, .oak => .refl _

end

variable {gil : Gil} {rec : Bool → Gil → Ty → Ty → Virt Bool}

theorem telCheck_telCheck {tel tel' : Bool} (h : tel' = true → tel = true) (x : Virt Bool) :
    (x >>= telCheck tel') >>= telCheck tel = x >>= telCheck tel := by
  rw [bind_assoc]
  congr 1
  funext tyn
  cases tyn with
  | true => rfl
  | false =>
      cases tel' with
      | false => rfl
      | true =>
          rw [h rfl]
          rfl

end tel

/-- On proper types a yes of `+-nest:ut` says that every noun of the right type is one of the
left, it is yes of a type and itself, and two in a row say the same of the types at the ends. -/
theorem nest_sound (van : Van) :
    (∀ n tel sut ref, sut.Proper → ref.Proper → nest van n tel sut ref = pure true →
      ∀ x, ref.has x = true → sut.has x = true) ∧
    (∀ tel sut, Settles (fun n => nest van n tel sut sut) (pure true)) ∧
    ∀ n m tel tel' a b c, a.Proper → b.Proper → c.Proper → nest van n tel a b = pure true →
      nest van m tel' b c = pure true → ∀ x, c.has x = true → a.has x = true := by
  refine ⟨?_, ?_, ?_⟩
  · intro n tel sut ref hsut href h
    exact dext_sound hsut.plain href h
  · intro tel sut
    exact .call (fun n => dext_refl van n tel [] sut) (.const _)
  · intro n m tel tel' a b c ha hb hc hab hbc x hx
    exact dext_sound ha.plain hb hab x (dext_sound hb.plain hc hbc x hx)

end Vere.Ut
