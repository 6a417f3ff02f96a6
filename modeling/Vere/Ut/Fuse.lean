import Vere.Nock.Spec
import Vere.Ut.Nest

/-!
# Vere.Ut.Fuse

Types refined by branches: `+-fuse:ut` is what is left of a type where a test holds,
`+-crop:ut` what is left of it where the test fails, and `+-firm:ut` is the test of one noun.

On proper types `fuse` is the intersection (`fuse_settles`), and `crop` is between the
difference and the type (`crop_settles`): of a cell it only crops the tail, and only if the
head is no matter.
-/

namespace Vere.Ut

open Vere.Hoon Vere.Lib

/-! ### The arms -/

/-- The body of `+-firm:ut`. -/
def firmIn (van : Van) (firm : List (Ty × Noun) → Ty → Noun → Virt Bool) (bix : List (Ty × Noun))
    (sut : Ty) (dib : Noun) : Virt Bool :=
  match sut with
  | .atom _ =>
      match dib with
      | .atom _ => return true
      | .cell _ _ => return false
  | .bull _ _ axe s q =>
      both (firm bix q dib)
        (match Vere.Nock.slot axe dib with
        | some x => firm bix s x
        | none => throw ())
  | .cell p q =>
      match dib with
      | .atom _ => return false
      | .cell h t => both (firm bix p h) (firm bix q t)
  | .core p _ _ bat _ =>
      match dib with
      | .atom _ => return false
      | .cell h t => both (firm bix p h) (if bat = .atom 0 then throw () else return t = bat)
  | .cube p _ => return dib = p
  | .face _ q => firm bix q dib
  | .fork p q => either (firm bix p dib) (firm bix q dib)
  | .hold _ =>
      either (return (sut, dib) ∈ bix) (do
        let fop ← repo van sut
        firm ((sut, dib) :: bix) fop dib)
  | .noun => return true
  | .void => return false

/-- `+-firm:ut`. -/
def firm (van : Van) : Nat → List (Ty × Noun) → Ty → Noun → Virt Bool
  | 0, _, _, _ => .never
  | n + 1, bix, sut, dib => firmIn van (firm van n) bix sut dib

/-- The body of `+-fuse:ut`. -/
def fuseIn (van : Van) (firm : Ty → Noun → Virt Bool) (fuse : Gil → Ty → Ty → Virt Ty) (bix : Gil)
    (sut ref : Ty) : Virt Ty :=
  if sut = ref ∨ ref = .noun then return sut
  else
    match sut with
    | .atom p =>
        match ref with
        | .atom q => return if fitz q p then sut else ref
        | .cell _ _ => return .void
        | _ => fuse bix ref sut
    | .bull cog hyp axe s q => do
        let vot ← fuse bix q ref
        return bull cog hyp axe s vot
    | .cell p q =>
        match ref with
        | .cell p' q' => do
            let hed ← fuse bix p p'
            let tal ← fuse bix q q'
            return cell hed tal
        | _ => fuse bix ref sut
    | .core .. => do
        let rep ← repo van sut
        fuse bix rep ref
    | .cube p q => do
        let foz ← fuse bix q ref
        let fir ← firm foz p
        return if fir then cube p foz else .void
    | .face p q => do
        let vot ← fuse bix q ref
        return face p vot
    | .fork p q => do
        let dis ← fuse bix p ref
        let dat ← fuse bix q ref
        return fork dis dat
    | .hold _ =>
        if (sut, ref) ∈ bix then throw ()
        else reco van sut fun a => fuse ((sut, ref) :: bix) a ref
    | .noun => return ref
    | .void => return .void

/-- `+-fuse:ut`. -/
def fuse (van : Van) : Nat → Gil → Ty → Ty → Virt Ty
  | 0, _, _, _ => .never
  | n + 1, bix, sut, ref => fuseIn van (firm van n []) (fuse van n) bix sut ref

/-- `sint` of `+-crop:ut`. -/
def cropSint (van : Van) (crop : Gil → Ty → Ty → Virt Ty) (bix : Gil) (sut ref : Ty) : Virt Ty :=
  match ref with
  | .core .. => return sut
  | .cube _ _ => return sut
  | .face _ _ => do
      let rep ← repo van ref
      crop bix sut rep
  | .fork p q => do
      let hin ← crop bix sut p
      crop bix hin q
  | .hold _ => do
      let rep ← repo van ref
      crop bix sut rep
  | _ => throw ()

/-- `dext` of `+-crop:ut`. -/
def cropIn (van : Van) (nest : Ty → Ty → Virt Bool) (firm : Ty → Noun → Virt Bool)
    (crop : Gil → Ty → Ty → Virt Ty) (bix : Gil) (sut ref : Ty) : Virt Ty :=
  if sut = ref ∨ ref = .noun then return .void
  else if ref = .void then return sut
  else
    match sut with
    | .atom _ =>
        match ref with
        | .atom _ => return .void
        | .cell _ _ => return sut
        | _ => cropSint van crop bix sut ref
    | .bull cog hyp axe s q => do
        let foz ← crop bix q ref
        return bull cog hyp axe s foz
    | .cell p q =>
        match ref with
        | .atom _ => return sut
        | .cell p' q' => do
            let nes ← nest p' p
            if nes then
              let foz ← crop bix q q'
              return cell p foz
            else return sut
        | _ => cropSint van crop bix sut ref
    | .core .. =>
        match ref with
        | .atom _ | .cell _ _ => return sut
        | _ => cropSint van crop bix sut ref
    | .cube p q =>
        match ref with
        | .cube p' _ => if p = p' then return .void else cropSint van crop bix sut ref
        | .atom _ | .cell _ _ => do
            let foz ← crop bix q ref
            let fir ← firm foz p
            return if fir then cube p foz else .void
        | _ => cropSint van crop bix sut ref
    | .face p q => do
        let foz ← crop bix q ref
        return face p foz
    | .fork p q => do
        let dis ← crop bix p ref
        let dat ← crop bix q ref
        return fork dis dat
    | .hold _ =>
        if (sut, ref) ∈ bix then throw ()
        else reco van sut fun a => crop ((sut, ref) :: bix) a ref
    | .noun => reco van sut fun a => crop bix a ref
    | .void => return .void

/-- `+-crop:ut`. -/
def crop (van : Van) : Nat → Gil → Ty → Ty → Virt Ty
  | 0, _, _, _ => .never
  | n + 1, bix, sut, ref => cropIn van (nest van n false) (firm van n []) (crop van n) bix sut ref

/-! ### One noun -/

theorem settles_both {f g : Nat → Virt Bool} {x y : Bool} (hf : Settles f (pure x))
    (hg : Settles g (pure y)) : Settles (fun n => both (f n) (g n)) (pure (x && y)) := by
  cases x with
  | true => exact .bind hf hg
  | false => exact .bind hf (.const _)

theorem settles_either {f g : Nat → Virt Bool} {x y : Bool} (hf : Settles f (pure x))
    (hg : Settles g (pure y)) : Settles (fun n => either (f n) (g n)) (pure (x || y)) := by
  cases x with
  | true => exact .bind hf (.const _)
  | false => exact .bind hf hg

/-- On plain types `+-firm:ut` is what they mean. -/
theorem firm_settles (van : Van) (bix : List (Ty × Noun)) {t : Ty} (ht : t.Plain) (x : Noun) :
    Settles (fun n => firm van n bix t x) (pure (t.has x)) := by
  induction t generalizing x with
  | noun => exact .call (fun _ => rfl) (.const _)
  | void => exact .call (fun _ => by simp [firm, firmIn]) (.const _)
  | atom p =>
      cases x with
      | atom a => exact .call (fun _ => by simp [firm, firmIn]) (.const _)
      | cell h t => exact .call (fun _ => by simp [firm, firmIn]) (.const _)
  | cell p q ihp ihq =>
      cases x with
      | atom a => exact .call (fun _ => by simp [firm, firmIn]) (.const _)
      | cell h t =>
          rw [Ty.has_cell_cell]
          exact .call (fun _ => rfl) (settles_both (ihp ht.1 h) (ihq ht.2 t))
  | cube p q ih => exact .call (fun _ => by simp [firm, firmIn]) (.const _)
  | face p q ih =>
      rw [Ty.has_face]
      exact .call (fun _ => rfl) (ih ht x)
  | fork p q ihp ihq =>
      rw [Ty.has_fork]
      exact .call (fun _ => rfl) (settles_either (ihp ht.1 x) (ihq ht.2 x))
  | bull | core | hold => exact ht.elim

/-! ### Both types -/

section fuse

variable {van : Van} {bix : Gil} {sut ref : Ty}

/-- `+-fuse:ut` comes to a type, and its nouns are those of both. -/
def Fuses (van : Van) (bix : Gil) (sut ref : Ty) : Prop :=
  ∃ t : Ty, Settles (fun n => fuse van n bix sut ref) (pure t) ∧ t.Proper ∧
    ∀ x, t.has x = (sut.has x && ref.has x)

/-- A type is returned at once. -/
theorem Fuses.of_pure {t : Ty}
    (h : ∀ n, fuseIn van (firm van n []) (fuse van n) bix sut ref = pure t) (ht : t.Proper)
    (hhas : ∀ x, t.has x = (sut.has x && ref.has x)) : Fuses van bix sut ref :=
  ⟨t, .call h (.const _), ht, hhas⟩

/-- The types trade places. -/
theorem Fuses.swap (h : ∀ n, fuseIn van (firm van n []) (fuse van n) bix sut ref
      = fuse van n bix ref sut) (hs : Fuses van bix ref sut) : Fuses van bix sut ref := by
  obtain ⟨t, ht, hproper, hhas⟩ := hs
  refine ⟨t, .call h ht, hproper, ?_⟩
  intro x
  rw [hhas, Bool.and_comm]

/-- Which types give way to the other: cells, then atoms. -/
def rank : Ty → Nat
  | .cell _ _ => 2
  | .atom _ => 1
  | _ => 0

theorem rank_le (t : Ty) : rank t ≤ 2 := by
  cases t <;> simp [rank]

theorem fuse_settles (van : Van) (bix : Gil) {sut ref : Ty} (hsut : sut.Proper) (href : ref.Proper) :
    Fuses van bix sut ref := by
  induction hk : 3 * (sizeOf sut + sizeOf ref) + rank sut using Nat.strongRecOn
    generalizing sut ref with
  | ind k ih =>
      by_cases heq : sut = ref ∨ ref = .noun
      · refine .of_pure (fun n => by simp [fuseIn.eq_def, heq]) hsut ?_
        rcases heq with rfl | rfl
        · simp
        · simp
      have hswap : rank ref < rank sut →
          (∀ n, fuseIn van (firm van n []) (fuse van n) bix sut ref = fuse van n bix ref sut) →
          Fuses van bix sut ref :=
        fun hrank h => .swap h (ih _ (by omega) href hsut rfl)
      cases sut with
      | noun => exact .of_pure (fun n => by simp [fuseIn.eq_def, heq]) href fun x => by simp
      | void => exact .of_pure (fun n => by simp [fuseIn.eq_def, heq]) hsut fun x => by simp
      | atom p =>
          cases ref with
          | noun => exact absurd (.inr rfl) heq
          | atom q =>
              have hbody : ∀ n, fuseIn van (firm van n []) (fuse van n) bix (.atom p) (.atom q)
                  = pure (if fitz q p then .atom p else .atom q) :=
                fun n => by rw [fuseIn.eq_def, if_neg heq]
              refine .of_pure hbody ?_ ?_
              · split <;> trivial
              · intro x
                split <;> cases x <;> simp
          | cell p' q' =>
              refine .of_pure (fun n => by simp [fuseIn.eq_def]) (t := .void) trivial ?_
              intro x
              cases x <;> simp
          | _ => exact hswap (by simp [rank]) fun n => by simp [fuseIn.eq_def]
      | cell p q =>
          cases ref with
          | noun => exact absurd (.inr rfl) heq
          | cell p' q' =>
              have hsize := Ty.cell.sizeOf_spec p q
              have hsize' := Ty.cell.sizeOf_spec p' q'
              have hp := rank_le p
              have hq := rank_le q
              obtain ⟨t, ht, htp, hth⟩ := ih (3 * (sizeOf p + sizeOf p') + rank p)
                (by omega) hsut.1 href.1 rfl
              obtain ⟨u, hu, hup, huh⟩ := ih (3 * (sizeOf q + sizeOf q') + rank q)
                (by omega) hsut.2 href.2 rfl
              have hbody : ∀ n, fuse van (n + 1) bix (.cell p q) (.cell p' q')
                  = (fuse van n bix p p' >>= fun hed => fuse van n bix q q' >>= fun tal =>
                      pure (cell hed tal)) :=
                fun n => by rw [fuse, fuseIn.eq_def, if_neg heq]
              refine ⟨cell t u, .call hbody (.bind ht (.bind hu (.const _))), proper_cell htp hup, ?_⟩
              intro x
              rw [has_cell]
              cases x with
              | atom a => simp
              | cell h t =>
                  simp only [Ty.has_cell_cell, hth, huh]
                  ac_rfl
          | _ => exact hswap (by simp [rank]) fun n => by simp [fuseIn.eq_def]
      | cube p q =>
          have hsize := Ty.cube.sizeOf_spec p q
          have hrank := rank_le q
          obtain ⟨t, ht, htp, hth⟩ := ih (3 * (sizeOf q + sizeOf ref) + rank q)
            (by omega) hsut.1 href rfl
          have hfirm := firm_settles van [] htp.plain p
          have hbody : ∀ n, fuse van (n + 1) bix (.cube p q) ref
              = (fuse van n bix q ref >>= fun foz => firm van n [] foz p >>= fun fir =>
                  pure (if fir then cube p foz else .void)) :=
            fun n => by rw [fuse, fuseIn.eq_def, if_neg heq]
          refine ⟨_, .call hbody (.bind ht (.bind hfirm (.const _))), ?_, ?_⟩
          · split
            · next hp => exact proper_cube htp hp
            · trivial
          · intro x
            have hmem : t.has p = ref.has p := by
              rw [hth, hsut.2, Bool.true_and]
            split
            · next hp =>
                rw [has_cube hp, Ty.has_cube]
                by_cases hx : x = p
                · simp [hx, ← hmem, hp]
                · simp [hx]
            · next hp =>
                rw [Ty.has_cube]
                by_cases hx : x = p
                · simp [hx, ← hmem, hp]
                · simp [hx]
      | face p q =>
          have hsize := Ty.face.sizeOf_spec p q
          have hrank := rank_le q
          have hq : q.Proper := hsut
          obtain ⟨t, ht, htp, hth⟩ := ih (3 * (sizeOf q + sizeOf ref) + rank q)
            (by omega) hq href rfl
          have hbody : ∀ n, fuse van (n + 1) bix (.face p q) ref
              = (fuse van n bix q ref >>= fun vot => pure (face p vot)) :=
            fun n => by rw [fuse, fuseIn.eq_def, if_neg heq]
          refine ⟨_, .call hbody (.bind ht (.const _)), proper_face p htp, ?_⟩
          intro x
          rw [has_face, hth, Ty.has_face]
      | fork p q =>
          have hsize := Ty.fork.sizeOf_spec p q
          have hp := rank_le p
          have hq := rank_le q
          obtain ⟨t, ht, htp, hth⟩ := ih (3 * (sizeOf p + sizeOf ref) + rank p)
            (by omega) hsut.1 href rfl
          obtain ⟨u, hu, hup, huh⟩ := ih (3 * (sizeOf q + sizeOf ref) + rank q)
            (by omega) hsut.2 href rfl
          have hbody : ∀ n, fuse van (n + 1) bix (.fork p q) ref
              = (fuse van n bix p ref >>= fun dis => fuse van n bix q ref >>= fun dat =>
                  pure (fork dis dat)) :=
            fun n => by rw [fuse, fuseIn.eq_def, if_neg heq]
          refine ⟨_, .call hbody (.bind ht (.bind hu (.const _))), proper_fork htp hup, ?_⟩
          intro x
          rw [has_fork, hth, huh, Ty.has_fork]
          exact (Bool.and_or_distrib_right ..).symm
      | bull | core | hold => exact hsut.elim

end fuse

/-! ### One type without the other -/

section crop

variable {van : Van} {bix : Gil} {sut ref : Ty}

/-- A type between the difference of two types and the first of them. -/
structure Between (sut ref t : Ty) : Prop where
  proper : t.Proper
  keeps : ∀ x, sut.has x = true → ref.has x = false → t.has x = true
  within : ∀ x, t.has x = true → sut.has x = true

/-- A recursion that comes to such a type. -/
def Crops (sut ref : Ty) (f : Nat → Virt Ty) : Prop := ∃ t, Settles f (pure t) ∧ Between sut ref t

/-- Nothing is cropped. -/
theorem Between.self (hsut : sut.Proper) : Between sut ref sut := ⟨hsut, fun _ h _ => h, fun _ h => h⟩

/-- Everything is cropped, if the second type has all of the first. -/
theorem Between.void (h : Covers ref sut) : Between sut ref .void := by
  refine ⟨trivial, ?_, ?_⟩
  · intro x hs hr
    rw [h x hs] at hr
    cases hr
  · intro x hx
    simp at hx

theorem Between.face {t : Ty} (p : Nat) (h : Between sut ref t) :
    Between (.face p sut) ref (face p t) := by
  refine ⟨proper_face p h.proper, ?_, ?_⟩
  · intro x hs hr
    rw [Ty.has_face] at hs
    rw [has_face]
    exact h.keeps x hs hr
  · intro x hx
    rw [has_face] at hx
    rw [Ty.has_face]
    exact h.within x hx

theorem Between.fork {p q t u : Ty} (hp : Between p ref t) (hq : Between q ref u) :
    Between (.fork p q) ref (fork t u) := by
  refine ⟨proper_fork hp.proper hq.proper, ?_, ?_⟩
  · intro x hs hr
    rw [Ty.has_fork, Bool.or_eq_true] at hs
    rw [has_fork, Bool.or_eq_true]
    exact hs.imp (hp.keeps x · hr) (hq.keeps x · hr)
  · intro x hx
    rw [has_fork, Bool.or_eq_true] at hx
    rw [Ty.has_fork, Bool.or_eq_true]
    exact hx.imp (hp.within x) (hq.within x)

/-- Of a cell the tail is cropped, if its head is one of the other's heads. -/
theorem Between.cell {p q p' q' u : Ty} (hp : p.Proper) (hhead : Covers p' p)
    (hq : Between q q' u) : Between (.cell p q) (.cell p' q') (cell p u) := by
  refine ⟨proper_cell hp hq.proper, ?_, ?_⟩
  · intro x hs hr
    rw [has_cell]
    cases x with
    | atom a => simp at hs
    | cell h t =>
        rw [Ty.has_cell_cell, Bool.and_eq_true] at hs ⊢
        rw [Ty.has_cell_cell, hhead h hs.1, Bool.true_and] at hr
        exact ⟨hs.1, hq.keeps t hs.2 hr⟩
  · intro x hx
    rw [has_cell] at hx
    cases x with
    | atom a => simp at hx
    | cell h t =>
        rw [Ty.has_cell_cell, Bool.and_eq_true] at hx ⊢
        exact ⟨hx.1, hq.within t hx.2⟩

/-- Of a constant all is cropped or nothing. -/
theorem Between.cube {p : Noun} {q foz : Ty} (hp : q.has p = true) (h : Between q ref foz) :
    Between (.cube p q) ref (if foz.has p = true then cube p foz else .void) := by
  split
  · next hfoz =>
      refine ⟨proper_cube h.proper hfoz, ?_, ?_⟩
      · intro x hs _
        rwa [has_cube hfoz, ← Ty.has_cube p q]
      · intro x hx
        rwa [has_cube hfoz, ← Ty.has_cube p q] at hx
  · next hfoz =>
      refine .void ?_
      intro x hx
      rw [Ty.has_cube, decide_eq_true_eq] at hx
      subst hx
      cases hr : ref.has x with
      | true => rfl
      | false => exact absurd (h.keeps x hp hr) hfoz

/-- One type is taken away after the other. -/
theorem Between.trans {p q t u : Ty} (ht : Between sut p t) (hu : Between t q u) :
    Between sut (.fork p q) u := by
  refine ⟨hu.proper, ?_, ?_⟩
  · intro x hs hr
    rw [Ty.has_fork, Bool.or_eq_false_iff] at hr
    exact hu.keeps x (ht.keeps x hs hr.1) hr.2
  · intro x hx
    exact ht.within x (hu.within x hx)

/-- How often a type can be taken apart: `%noun` is the fork of the atoms and the cells. -/
def weight : Ty → Nat
  | .noun => 4
  | .fork p q => weight p + weight q + 1
  | .cube _ q | .face _ q => weight q + 1
  | _ => 1

theorem cropSint_crops (hsut : sut.Proper) (href : ref.Proper) (hnoun : ref ≠ .noun)
    (hvoid : ref ≠ .void) (hatom : ∀ p, ref ≠ .atom p) (hcell : ∀ p q, ref ≠ .cell p q)
    (ih : ∀ s r : Ty, sizeOf r < sizeOf ref → s.Proper → r.Proper →
      Crops s r fun n => crop van n bix s r) :
    Crops sut ref fun n => cropSint van (crop van n) bix sut ref := by
  cases ref with
  | noun => exact absurd rfl hnoun
  | void => exact absurd rfl hvoid
  | atom p => exact absurd rfl (hatom p)
  | cell p q => exact absurd rfl (hcell p q)
  | cube p q => exact ⟨sut, .const _, .self hsut⟩
  | face p q =>
      obtain ⟨t, ht, hbet⟩ := ih sut q (by simp) hsut href
      refine ⟨t, ht, hbet.proper, ?_, hbet.within⟩
      intro x hs hr
      rw [Ty.has_face] at hr
      exact hbet.keeps x hs hr
  | fork p q =>
      have hsize := Ty.fork.sizeOf_spec p q
      obtain ⟨t, ht, htb⟩ := ih sut p (by omega) hsut href.1
      obtain ⟨u, hu, hub⟩ := ih t q (by omega) htb.proper href.2
      exact ⟨u, .bind ht hu, htb.trans hub⟩
  | bull | core | hold => exact href.elim

/-- A call, once its body comes to a type. -/
theorem crop_call (h : Crops sut ref fun n =>
      cropIn van (nest van n false) (firm van n []) (crop van n) bix sut ref) :
    Crops sut ref fun n => crop van n bix sut ref := by
  obtain ⟨t, ht, hbet⟩ := h
  exact ⟨t, .call (fun _ => rfl) ht, hbet⟩

/-- The case of two cells: the heads are compared, and at most the tail is cropped. -/
theorem cropCell_crops {p q p' q' : Ty} (hsut : (Ty.cell p q).Proper) (href : (Ty.cell p' q').Proper)
    (htail : Crops q q' fun n => crop van n bix q q') :
    Crops (.cell p q) (.cell p' q') fun n => do
      let nes ← nest van n false p' p
      if nes then
        let foz ← crop van n bix q q'
        return cell p foz
      else return .cell p q := by
  obtain ⟨b, hb⟩ := nest_answers van [] href.1.plain hsut.1.plain
  cases b with
  | false => exact ⟨_, .bind hb (.const _), .self hsut⟩
  | true =>
      obtain ⟨u, hu, hbet⟩ := htail
      have hhead : Covers p' p := by
        obtain ⟨N, hN⟩ := hb
        exact dext_sound href.1.plain hsut.1 (hN N le_rfl)
      exact ⟨_, .bind hb (.bind hu (.const _)), .cell hsut.1 hhead hbet⟩

theorem cropCube_crops {p : Noun} {q : Ty} (hsut : (Ty.cube p q).Proper)
    (hbase : Crops q ref fun n => crop van n bix q ref) :
    Crops (.cube p q) ref fun n => do
      let foz ← crop van n bix q ref
      let fir ← firm van n [] foz p
      return if fir then cube p foz else .void := by
  obtain ⟨foz, hfoz, hbet⟩ := hbase
  exact ⟨_, .bind hfoz (.bind (firm_settles van [] hbet.proper.plain p) (.const _)),
    .cube hsut.2 hbet⟩

/-- `%noun` is cropped as the fork of the atoms and the cells. -/
theorem cropNoun_crops (por : Ty) (hpor : ∀ x, por.has x = true) (hvoid : por ≠ .void)
    (hrec : Crops por ref fun n => crop van n bix por ref) :
    Crops .noun ref fun n => do
      let yot ← crop van n bix por ref
      if yot = por then return (if por = .void then por else .noun) else return yot := by
  obtain ⟨t, ht, hbet⟩ := hrec
  by_cases heq : t = por
  · refine ⟨.noun, .bind ht ?_, .self trivial⟩
    simp only [heq, if_true, if_neg hvoid]
    exact .const _
  · refine ⟨t, .bind ht ?_, hbet.proper, ?_, ?_⟩
    · simp only [if_neg heq]
      exact .const _
    · intro x _ hr
      exact hbet.keeps x (hpor x) hr
    · intro x _
      exact Ty.has_noun x

/-- The types get smaller on the right, or stay the same there and weigh less on the left. -/
theorem crop_settles (van : Van) (bix : Gil) {sut ref : Ty} (hsut : sut.Proper) (href : ref.Proper) :
    Crops sut ref fun n => crop van n bix sut ref := by
  induction hk : sizeOf ref using Nat.strongRecOn generalizing sut ref with
  | ind k ihr =>
      induction hw : weight sut using Nat.strongRecOn generalizing sut with
      | ind w ihs =>
          have hless : ∀ s r : Ty, sizeOf r < sizeOf ref → s.Proper → r.Proper →
              Crops s r fun n => crop van n bix s r :=
            fun s r hr hs hproper => ihr _ (by omega) hs hproper rfl
          have hlight : ∀ s : Ty, weight s < weight sut → s.Proper →
              Crops s ref fun n => crop van n bix s ref :=
            fun s hs hproper => ihs _ (by omega) hproper rfl
          apply crop_call
          unfold cropIn
          split
          · next heq =>
              refine ⟨.void, .const _, .void ?_⟩
              rcases heq with rfl | rfl
              · exact fun x hx => hx
              · exact fun x _ => Ty.has_noun x
          next heq =>
          split
          · exact ⟨sut, .const _, .self hsut⟩
          next hvoid =>
          have hnoun : ref ≠ .noun := fun h => heq (.inr h)
          have hsint : (∀ p, ref ≠ .atom p) → (∀ p q, ref ≠ .cell p q) →
              Crops sut ref fun n => cropSint van (crop van n) bix sut ref :=
            fun hatom hcell => cropSint_crops hsut href hnoun hvoid hatom hcell hless
          cases sut with
          | void => exact ⟨.void, .const _, .self trivial⟩
          | noun =>
              refine cropNoun_crops (.fork (.atom 0) (.cell .noun .noun)) ?_ nofun ?_
              · intro x
                cases x <;> simp
              · exact hlight _ (by simp [weight]) ⟨trivial, trivial, trivial⟩
          | atom p =>
              cases ref with
              | atom q =>
                  refine ⟨.void, .const _, .void ?_⟩
                  intro x hx
                  cases x with
                  | atom a => simp
                  | cell h t => simp at hx
              | cell p' q' => exact ⟨_, .const _, .self hsut⟩
              | _ => exact hsint nofun nofun
          | cell p q =>
              cases ref with
              | atom p' => exact ⟨_, .const _, .self hsut⟩
              | cell p' q' =>
                  exact cropCell_crops hsut href (hless q q' (by simp) hsut.2 href.2)
              | _ => exact hsint nofun nofun
          | cube p q =>
              have hbase := hlight q (by simp [weight]) hsut.1
              cases ref with
              | atom p' => exact cropCube_crops hsut hbase
              | cell p' q' => exact cropCube_crops hsut hbase
              | cube p' q' =>
                  dsimp only
                  split
                  · next hpp =>
                      refine ⟨.void, .const _, .void ?_⟩
                      intro x hx
                      simpa [hpp] using hx
                  · exact hsint nofun nofun
              | _ => exact hsint nofun nofun
          | face p q =>
              obtain ⟨t, ht, hbet⟩ := hlight q (by simp [weight]) hsut
              exact ⟨_, .bind ht (.const _), hbet.face p⟩
          | fork p q =>
              obtain ⟨t, ht, htb⟩ := hlight p (by simp only [weight]; omega) hsut.1
              obtain ⟨u, hu, hub⟩ := hlight q (by simp only [weight]; omega) hsut.2
              exact ⟨_, .bind ht (.bind hu (.const _)), htb.fork hub⟩
          | bull | core | hold => exact hsut.elim

end crop

/-- Of proper types, the fuse of two comes to a type of the nouns of both, and the crop comes
to one that keeps every noun of the first that is none of the second, and has no others. -/
theorem branches_sound (van : Van) (sut ref : Ty) (hsut : sut.Proper) (href : ref.Proper) :
    (∃ t, Settles (fun n => fuse van n [] sut ref) (pure t) ∧
      ∀ x, t.has x = true ↔ sut.has x = true ∧ ref.has x = true) ∧
    ∃ t, Settles (fun n => crop van n [] sut ref) (pure t) ∧
      (∀ x, sut.has x = true → ref.has x = false → t.has x = true) ∧
      ∀ x, t.has x = true → sut.has x = true := by
  obtain ⟨t, ht, -, hhas⟩ := fuse_settles van [] hsut href
  obtain ⟨u, hu, hbet⟩ := crop_settles van [] hsut href
  refine ⟨⟨t, ht, ?_⟩, u, hu, hbet.keeps, hbet.within⟩
  intro x
  rw [hhas, Bool.and_eq_true]

/-- A flag is fused with the atoms and cropped by its `%cube` of one. -/
theorem branches_sound_flag : ∃ t,
    Settles (fun n => crop ⟨fun _ => throw (), fun _ _ => throw (), fun _ _ _ => throw ()⟩ n []
      (.fork (.cube (.atom 0) (.atom 0)) (.cube (.atom 1) (.atom 0)))
      (.cube (.atom 1) (.atom 0))) (pure t) ∧ t.has (.atom 0) = true := by
  obtain ⟨-, t, ht, hkeeps, -⟩ := branches_sound
    ⟨fun _ => throw (), fun _ _ => throw (), fun _ _ _ => throw ()⟩
    (.fork (.cube (.atom 0) (.atom 0)) (.cube (.atom 1) (.atom 0))) (.cube (.atom 1) (.atom 0))
    (by simp [Ty.Proper]) (by simp [Ty.Proper])
  exact ⟨t, ht, hkeeps (.atom 0) (by decide) (by decide)⟩

end Vere.Ut
