import Vere.Ut.Axis

/-!
# Vere.Ut.Comb

The formula combinators of the compiler (`hoon.hoon`, section 2fA): `++comb`, `++cond`,
`++cons`, `++flan`, `++flip`, `++flor` and `++hike`.

Each makes a formula from others and folds what it can on the way: an axis below an axis,
neighbouring axes, constants, a known flag. What the plain formula produces, the folded one
produces too (`comb_sound` and so on). The folded one may have a product where the plain one
crashes, because a fold drops a part that is not needed.
-/

namespace Vere.Ut

open Vere.Nock

/-- `++nock`: a formula. -/
inductive Nock
  /-- Autocons. -/
  | auto (p q : Nock)
  | slot (p : Nat)
  | const (p : Noun)
  | nock (p q : Nock)
  | wut (p : Nock)
  | lus (p : Nock)
  | tis (p q : Nock)
  | six (p q r : Nock)
  | seven (p q : Nock)
  | eight (p q : Nock)
  | nine (p : Nat) (q : Nock)
  /-- A hint without a clue. -/
  | skip (p : Nat) (q : Nock)
  | hint (p : Nat) (c q : Nock)
  | wish (p : Nock)
  deriving Repr, DecidableEq

namespace Nock

/-- The noun of a formula. -/
def noun : Nock → Noun
  | auto p q => .cell p.noun q.noun
  | slot p => op 0 (.atom p)
  | const p => op 1 p
  | nock p q => op 2 (.cell p.noun q.noun)
  | wut p => op 3 p.noun
  | lus p => op 4 p.noun
  | tis p q => op 5 (.cell p.noun q.noun)
  | six p q r => op 6 (.cell p.noun (.cell q.noun r.noun))
  | seven p q => op 7 (.cell p.noun q.noun)
  | eight p q => op 8 (.cell p.noun q.noun)
  | nine p q => op 9 (.cell (.atom p) q.noun)
  | skip p q => op 10 (.cell (.atom p) q.noun)
  | hint p c q => op 10 (.cell (.cell (.atom p) c.noun) q.noun)
  | wish p => op 11 p.noun

theorem noun_cell (f : Nock) : ∃ h t, f.noun = .cell h t := by
  cases f <;> exact ⟨_, _, rfl⟩

/-- The product of a formula on a subject. -/
def Gives (f : Nock) (a p : Noun) : Prop := Tar a f.noun p

end Nock

open Nock

/-! ### The combinators -/

/-- The branch of `++comb` for an axis other than 0; nothing where `++peg` recurses
forever. -/
def combAxis (p : Nat) (buz : Nock) : Option Nock :=
  match buz with
  | .slot q => some (if q ≠ 0 then .slot (peg p q) else .seven (.slot p) buz)
  | .nock (.slot x) (.slot y) =>
      if x = 0 ∨ y = 0 then none else some (.nock (.slot (peg p x)) (.slot (peg p y)))
  | _ => some (.seven (.slot p) buz)

/-- `++comb`. -/
def comb (mal buz : Nock) : Option Nock :=
  match mal with
  | .slot p =>
      if p ≠ 0 then combAxis p buz
      else some (if buz = .slot 1 then mal else .seven mal buz)
  | .auto p (.slot 1) => some (.eight p buz)
  | _ => some (if buz = .slot 1 then mal else .seven mal buz)

/-- `++cond`. -/
def cond (pex yom woq : Nock) : Nock :=
  match pex with
  | .const (.atom 0) => yom
  | .const (.atom 1) => woq
  | _ => .six pex yom woq

/-- `++cons`. -/
def cons (vur sed : Nock) : Nock :=
  match vur, sed with
  | .slot p, .slot q => if p + 1 = q ∧ p / 2 = q / 2 then .slot (p / 2) else .auto vur sed
  | .const p, .const q => .const (.cell p q)
  | _, _ => .auto vur sed

/-- `++flan`. -/
def flan (bos nif : Nock) : Nock :=
  match bos with
  | .const (.atom 1) => bos
  | .const (.atom 0) => nif
  | _ =>
      match nif with
      | .const (.atom 1) => nif
      | .const (.atom 0) => bos
      | _ => .six bos nif (.const (.atom 1))

/-- `++flip`. -/
def flip (dyr : Nock) : Nock := .six dyr (.const (.atom 1)) (.const (.atom 0))

/-- `++flor`. -/
def flor (bos nif : Nock) : Nock :=
  match bos with
  | .const (.atom 1) => nif
  | .const (.atom 0) => bos
  | _ =>
      match nif with
      | .const (.atom 1) => bos
      | .const (.atom 0) => nif
      | _ => .six bos (.const (.atom 0)) nif

/-- The part of a list of edits that goes to one side, below it: `tum` and `gam`. -/
def side (c : Nat) (pac : List (Nat × α)) : List (Nat × α) :=
  (pac.filter fun e => cap e.1 = c).map fun e => (mas e.1, e.2)

/-- The sum of the axes. -/
def axes (pac : List (Nat × α)) : Nat := (pac.map (·.1)).sum

theorem side_cons (c : Nat) (e : Nat × α) (pac : List (Nat × α)) :
    side c (e :: pac) = if cap e.1 = c then (mas e.1, e.2) :: side c pac else side c pac := by
  by_cases h : cap e.1 = c
  · simp [side, h]
  · simp [side, h]

theorem axes_side_le (c : Nat) {pac : List (Nat × α)} (h : ∀ e ∈ pac, 2 ≤ e.1) :
    axes (side c pac) + pac.length ≤ axes pac := by
  induction pac with
  | nil => exact Nat.le_refl 0
  | cons e pac ih =>
      have hlt := mas_lt (h e List.mem_cons_self)
      have ih := ih fun x hx => h x (List.mem_cons_of_mem _ hx)
      rw [side_cons]
      by_cases hc : cap e.1 = c
      · rw [if_pos hc]
        simp only [axes, List.map_cons, List.sum_cons, List.length_cons] at ih ⊢
        omega
      · rw [if_neg hc]
        simp only [axes, List.map_cons, List.sum_cons, List.length_cons] at ih ⊢
        omega

/-- `++hike`; nothing where it crashes. -/
def hike (axe : Nat) (pac : List (Nat × Nock)) : Option Nock :=
  if _ : pac = [] then some (.slot axe)
  else
    match pac.filter (·.1 = 1) with
    | [] =>
        -- `cap` crashes at 0
        if _ : ∀ e ∈ pac, 2 ≤ e.1 then do
          let hed ← hike (peg axe 2) (side 2 pac)
          let tal ← hike (peg axe 3) (side 3 pac)
          some (cons hed tal)
        else none
    | [zet] => some zet.2
    | _ => none
termination_by axes pac
decreasing_by
  · have := axes_side_le 2 ‹_›
    have := List.length_pos_iff.mpr ‹_›
    omega
  · have := axes_side_le 3 ‹_›
    have := List.length_pos_iff.mpr ‹_›
    omega

/-! ### What they produce -/

section sound

variable {a p : Noun} {f m b v s n : Nock}

theorem gives_slot {x : Nat} : (Nock.slot x).Gives a p ↔ Vere.Nock.slot x a = some p := by
  refine ⟨fun h => ?_, fun h => .slot h⟩
  obtain ⟨y, hy, hs⟩ := eval_slot_inv h.eval
  cases hy
  exact hs

theorem gives_const {x : Noun} : (Nock.const x).Gives a p ↔ p = x :=
  ⟨fun h => eval_const_inv h.eval, fun h => h ▸ .const⟩

theorem gives_auto : (Nock.auto v s).Gives a p ↔ ∃ x y, p = .cell x y ∧ v.Gives a x ∧ s.Gives a y := by
  obtain ⟨h, t, hv⟩ := noun_cell v
  constructor
  · intro hp
    have he : Eval a (.cell (.cell h t) s.noun) p := hv ▸ Tar.eval hp
    obtain ⟨x, y, rfl, hx, hy⟩ := eval_cons_inv he
    refine ⟨x, y, rfl, ?_, hy.tar⟩
    show Tar a v.noun x
    rw [hv]
    exact hx.tar
  · rintro ⟨x, y, rfl, hx, hy⟩
    have hx : Tar a (.cell h t) x := hv ▸ hx
    show Tar a (.cell v.noun s.noun) _
    rw [hv]
    exact .cons hx hy

theorem gives_seven : (Nock.seven m b).Gives a p ↔ ∃ x, m.Gives a x ∧ b.Gives x p := by
  constructor
  · intro hp
    obtain ⟨x, hx, hp⟩ := eval_seven_inv (Tar.eval hp)
    exact ⟨x, hx.tar, hp.tar⟩
  · rintro ⟨x, hx, hp⟩
    exact (Eval.seven hx.eval hp.eval).tar

theorem gives_eight : (Nock.eight m b).Gives a p ↔ ∃ x, m.Gives a x ∧ b.Gives (.cell x a) p := by
  constructor
  · intro hp
    obtain ⟨x, hx, hp⟩ := eval_eight_inv (Tar.eval hp)
    exact ⟨x, hx.tar, hp.tar⟩
  · rintro ⟨x, hx, hp⟩
    exact (Eval.eight hx.eval hp.eval).tar

theorem gives_nock :
    (Nock.nock m b).Gives a p ↔ ∃ x y, m.Gives a x ∧ b.Gives a y ∧ Tar x y p := by
  constructor
  · intro hp
    obtain ⟨x, y, hx, hy, hp⟩ := eval_nock_inv (Tar.eval hp)
    exact ⟨x, y, hx.tar, hy.tar, hp.tar⟩
  · rintro ⟨x, y, hx, hy, hp⟩
    exact .nock hx hy hp

theorem gives_six {y n : Nock} : (Nock.six b y n).Gives a p ↔
    (b.Gives a (.atom 0) ∧ y.Gives a p) ∨ (b.Gives a (.atom 1) ∧ n.Gives a p) := by
  constructor
  · intro hp
    cases Tar.eval hp with
    | then_ hb hp => exact .inl ⟨hb.tar, hp.tar⟩
    | else_ hb hp => exact .inr ⟨hb.tar, hp.tar⟩
  · rintro (⟨hb, hp⟩ | ⟨hb, hp⟩)
    · exact (Eval.then_ hb.eval hp.eval).tar
    · exact (Eval.else_ hb.eval hp.eval).tar

theorem gives_peg {x y : Nat} {q : Noun} (hx : Vere.Nock.slot x a = some p)
    (hy : Vere.Nock.slot y p = some q) : (Nock.slot (peg x y)).Gives a q := by
  rw [gives_slot, slot_peg (pos_of_slot hx) (pos_of_slot hy), hx]
  exact hy

theorem combAxis_sound {x : Nat} (h : (Nock.seven (.slot x) b).Gives a p) :
    ∃ f, combAxis x b = some f ∧ f.Gives a p := by
  obtain ⟨q, hq, hp⟩ := gives_seven.mp h
  have hx := gives_slot.mp hq
  cases b with
  | slot y =>
      have hy := gives_slot.mp hp
      have hne : y ≠ 0 := Nat.ne_of_gt (pos_of_slot hy)
      exact ⟨_, by simp [combAxis, hne], gives_peg hx hy⟩
  | nock u w =>
      cases u <;> cases w
      case slot.slot y z =>
        obtain ⟨c, d, hc, hd, hp⟩ := gives_nock.mp hp
        rw [gives_slot] at hc hd
        have hy : y ≠ 0 := Nat.ne_of_gt (pos_of_slot hc)
        have hz : z ≠ 0 := Nat.ne_of_gt (pos_of_slot hd)
        refine ⟨.nock (.slot (peg x y)) (.slot (peg x z)), by simp [combAxis, hy, hz],
          gives_nock.mpr ⟨c, d, ?_, ?_, hp⟩⟩
        · exact gives_peg hx hc
        · exact gives_peg hx hd
      all_goals exact ⟨_, rfl, h⟩
  | _ => exact ⟨_, rfl, h⟩

/-- A composition with the whole subject is none. -/
theorem gives_self (h : (Nock.seven m b).Gives a p) :
    (if b = .slot 1 then m else .seven m b).Gives a p := by
  by_cases hb : b = .slot 1
  · rw [if_pos hb]
    obtain ⟨x, hx, hp⟩ := gives_seven.mp h
    rw [hb, gives_slot, slot_one] at hp
    cases hp
    exact hx
  · rwa [if_neg hb]

/-- `++comb` is operator 7. -/
theorem comb_sound (h : (Nock.seven m b).Gives a p) : ∃ f, comb m b = some f ∧ f.Gives a p := by
  have hself := gives_self h
  cases m with
  | slot x =>
      by_cases hx : x = 0
      · exact ⟨_, by simp only [comb, hx, ne_eq, not_true_eq_false, if_false], hx ▸ hself⟩
      · obtain ⟨f, hf, hp⟩ := combAxis_sound h
        exact ⟨f, by simp [comb, hx, hf], hp⟩
  | auto u w =>
      by_cases hw : w = .slot 1
      · subst hw
        obtain ⟨q, hq, hp⟩ := gives_seven.mp h
        obtain ⟨x, y, rfl, hx, hy⟩ := gives_auto.mp hq
        rw [gives_slot, slot_one] at hy
        cases hy
        exact ⟨_, rfl, gives_eight.mpr ⟨x, hx, hp⟩⟩
      · refine ⟨_, ?_, hself⟩
        unfold comb
        split
        · next heq => cases heq
        · next heq =>
            cases heq
            exact absurd rfl hw
        · rfl
  | _ => exact ⟨_, rfl, hself⟩

/-- `++cond` is operator 6. -/
theorem cond_sound {y w : Nock} (h : (Nock.six b y w).Gives a p) : (cond b y w).Gives a p := by
  unfold cond
  split
  · rcases gives_six.mp h with ⟨-, hp⟩ | ⟨hb, -⟩
    · exact hp
    · cases gives_const.mp hb
  · rcases gives_six.mp h with ⟨hb, -⟩ | ⟨-, hp⟩
    · cases gives_const.mp hb
    · exact hp
  · exact h

/-- Neighbouring axes have one above them. -/
theorem slot_pair {x : Nat} {h t : Noun} (hh : Vere.Nock.slot x a = some h)
    (ht : Vere.Nock.slot (x + 1) a = some t) (hx : x / 2 = (x + 1) / 2) :
    Vere.Nock.slot (x / 2) a = some (.cell h t) := by
  have hpos := pos_of_slot hh
  rw [slot_step (by omega)] at hh ht
  rw [← hx] at ht
  split at hh
  · next c d heq =>
      rw [heq] at ht ⊢
      rw [if_pos (by omega)] at hh
      simp only [show ¬(x + 1) % 2 = 0 by omega, if_false] at ht
      cases hh
      cases ht
      rfl
  · cases hh

/-- `++cons` is autocons. -/
theorem cons_sound (h : (Nock.auto v s).Gives a p) : (cons v s).Gives a p := by
  unfold cons
  split
  · next x y =>
      by_cases hxy : x + 1 = y ∧ x / 2 = y / 2
      · rw [if_pos hxy]
        obtain ⟨rfl, hhalf⟩ := hxy
        obtain ⟨c, d, rfl, hc, hd⟩ := gives_auto.mp h
        rw [gives_slot] at hc hd ⊢
        exact slot_pair hc hd hhalf
      · rwa [if_neg hxy]
  · obtain ⟨c, d, rfl, hc, hd⟩ := gives_auto.mp h
    rw [gives_const.mp hc, gives_const.mp hd]
    exact gives_const.mpr rfl
  · exact h

/-- `++flan` is a conjunction. -/
theorem flan_sound (h : (Nock.six b n (.const (.atom 1))).Gives a p) : (flan b n).Gives a p := by
  have hcases := gives_six.mp h
  rw [gives_const] at hcases
  unfold flan
  split
  · rcases hcases with ⟨hb, -⟩ | ⟨hb, rfl⟩
    · cases gives_const.mp hb
    · exact hb
  · rcases hcases with ⟨-, hp⟩ | ⟨hb, -⟩
    · exact hp
    · cases gives_const.mp hb
  · split
    · rcases hcases with ⟨-, hp⟩ | ⟨-, rfl⟩
      · exact hp
      · exact gives_const.mpr rfl
    · rcases hcases with ⟨hb, hp⟩ | ⟨hb, rfl⟩
      · exact gives_const.mp hp ▸ hb
      · exact hb
    · exact h

/-- `++flor` is a disjunction. -/
theorem flor_sound (h : (Nock.six b (.const (.atom 0)) n).Gives a p) : (flor b n).Gives a p := by
  have hcases := gives_six.mp h
  rw [gives_const] at hcases
  unfold flor
  split
  · rcases hcases with ⟨hb, -⟩ | ⟨-, hp⟩
    · cases gives_const.mp hb
    · exact hp
  · rcases hcases with ⟨hb, rfl⟩ | ⟨hb, -⟩
    · exact hb
    · cases gives_const.mp hb
  · split
    · rcases hcases with ⟨hb, rfl⟩ | ⟨hb, hp⟩
      · exact hb
      · exact gives_const.mp hp ▸ hb
    · rcases hcases with ⟨-, rfl⟩ | ⟨-, hp⟩
      · exact gives_const.mpr rfl
      · exact hp
    · exact h

end sound

/-! ### Edits -/

/-- A noun with `v` at an axis of it. -/
def poke (v : Noun) : Noun → Nat → Option Noun
  | .atom _, p => if p = 1 then some v else none
  | .cell h t, p =>
      if p = 1 then some v
      else if p = 0 then none
      else if cap p = 2 then (poke v h (mas p)).map (.cell · t)
      else (poke v t (mas p)).map (.cell h ·)

/-- One edit after another. -/
def edits (n : Noun) (pac : List (Nat × Noun)) : Option Noun :=
  pac.foldlM (fun n e => poke e.2 n e.1) n

theorem edits_cons (n : Noun) (e : Nat × Noun) (pac : List (Nat × Noun)) :
    edits n (e :: pac) = (poke e.2 n e.1).bind (edits · pac) := rfl

theorem poke_one (v n : Noun) : poke v n 1 = some v := by
  cases n <;> simp [poke]

theorem poke_cell (v h t : Noun) {p : Nat} (hp : 2 ≤ p) :
    poke v (.cell h t) p = if cap p = 2 then (poke v h (mas p)).map (.cell · t)
      else (poke v t (mas p)).map (.cell h ·) := by
  rw [poke, if_neg (by omega), if_neg (by omega)]

/-- Edits below the root of a cell are edits of its halves. -/
theorem edits_cell {pac : List (Nat × Noun)} (hpac : ∀ e ∈ pac, 2 ≤ e.1) (h t : Noun) :
    edits (.cell h t) pac
      = (edits h (side 2 pac)).bind fun h' => (edits t (side 3 pac)).map (.cell h') := by
  induction pac generalizing h t with
  | nil => rfl
  | cons e pac ih =>
      have he := hpac e List.mem_cons_self
      have ih := ih fun x hx => hpac x (List.mem_cons_of_mem _ hx)
      rw [edits_cons, poke_cell _ _ _ he, side_cons, side_cons]
      obtain hc | hc := cap_two_or_three he
      · rw [if_pos hc, if_pos hc, if_neg (by omega), edits_cons]
        cases poke e.2 h (mas e.1) with
        | none => rfl
        | some h' => exact ih h' t
      · rw [if_neg (by omega), if_neg (by omega), if_pos hc, edits_cons]
        cases poke e.2 t (mas e.1) with
        | none =>
            cases edits h (side 2 pac) with
            | none => rfl
            | some h' => rfl
        | some t' => exact ih h t'

/-- The edits of a list of formulas, by their products. -/
def worth (val : Nock → Noun) (pac : List (Nat × Nock)) : List (Nat × Noun) :=
  pac.map fun e => (e.1, val e.2)

theorem worth_side (val : Nock → Noun) (c : Nat) (pac : List (Nat × Nock)) :
    worth val (side c pac) = side c (worth val pac) := by
  induction pac with
  | nil => rfl
  | cons e pac ih =>
      show worth val (side c (e :: pac)) = side c ((e.1, val e.2) :: worth val pac)
      rw [side_cons, side_cons]
      by_cases hc : cap e.1 = c
      · rw [if_pos hc, if_pos hc, ← ih]
        rfl
      · rw [if_neg hc, if_neg hc]
        exact ih

theorem mem_side {c : Nat} {pac : List (Nat × α)} {e : Nat × α} :
    e ∈ side c pac ↔ ∃ x ∈ pac, cap x.1 = c ∧ e = (mas x.1, x.2) := by
  simp [side, and_assoc, eq_comm]

/-- The edits of one side are apart where all are. -/
theorem pairwise_side {c : Nat} {pac : List (Nat × α)} (hpac : ∀ e ∈ pac, 2 ≤ e.1)
    (h : pac.Pairwise fun x y => Disjoint x.1 y.1) :
    (side c pac).Pairwise fun x y => Disjoint x.1 y.1 := by
  rw [side, List.pairwise_map]
  refine (h.filter _).imp_of_mem ?_
  intro x y hx hy hxy
  obtain ⟨hx, hcx⟩ := List.mem_filter.mp hx
  obtain ⟨hy, hcy⟩ := List.mem_filter.mp hy
  simp only [decide_eq_true_eq] at hcx hcy
  exact hxy.mas (hpac x hx) (hpac y hy) (hcx.trans hcy.symm)

/-- An edit of the whole is the only one. -/
theorem eq_singleton_of_one {pac : List (Nat × α)} {z : Nat × α} (hz : z ∈ pac) (h1 : z.1 = 1)
    (hpos : ∀ e ∈ pac, 0 < e.1) (h : pac.Pairwise fun x y => Disjoint x.1 y.1) : pac = [z] := by
  cases pac with
  | nil => cases hz
  | cons e pac =>
      obtain ⟨hhead, -⟩ := List.pairwise_cons.mp h
      obtain rfl | hz := List.mem_cons.mp hz
      · cases pac with
        | nil => rfl
        | cons x pac =>
            have hx := within_one (hpos x (by simp))
            exact absurd (h1 ▸ hx) (hhead x List.mem_cons_self).1
      · have he := within_one (hpos e List.mem_cons_self)
        exact absurd (h1 ▸ he) (hhead z hz).2

section exist

variable {pac : List (Nat × α)} {n h t : Noun}

theorem exists_pos (hex : ∀ e ∈ pac, (Vere.Nock.slot e.1 n).isSome) : ∀ e ∈ pac, 0 < e.1 := by
  intro e he
  obtain ⟨p, hp⟩ := Option.isSome_iff_exists.mp (hex e he)
  exact pos_of_slot hp

/-- What has something below it is a cell. -/
theorem cell_of_exists (hne : pac ≠ []) (hpac : ∀ e ∈ pac, 2 ≤ e.1)
    (hex : ∀ e ∈ pac, (Vere.Nock.slot e.1 n).isSome) : ∃ h t, n = .cell h t := by
  cases n with
  | cell h t => exact ⟨h, t, rfl⟩
  | atom x =>
      obtain ⟨e, he⟩ := List.exists_mem_of_ne_nil pac hne
      have hsome := hex e he
      rw [slot_atom (hpac e he)] at hsome
      cases hsome

theorem exists_left (hpac : ∀ e ∈ pac, 2 ≤ e.1)
    (hex : ∀ e ∈ pac, (Vere.Nock.slot e.1 (.cell h t)).isSome) :
    ∀ e ∈ side 2 pac, (Vere.Nock.slot e.1 h).isSome := by
  intro e he
  obtain ⟨x, hx, hc, rfl⟩ := mem_side.mp he
  have hsome := hex x hx
  rwa [slot_cell (hpac x hx), if_pos hc] at hsome

theorem exists_right (hpac : ∀ e ∈ pac, 2 ≤ e.1)
    (hex : ∀ e ∈ pac, (Vere.Nock.slot e.1 (.cell h t)).isSome) :
    ∀ e ∈ side 3 pac, (Vere.Nock.slot e.1 t).isSome := by
  intro e he
  obtain ⟨x, hx, hc, rfl⟩ := mem_side.mp he
  have hsome := hex x hx
  rwa [slot_cell (hpac x hx), if_neg (by omega)] at hsome

end exist

theorem hike_nil (axe : Nat) : hike axe [] = some (.slot axe) := by
  rw [hike, dif_pos rfl]

theorem hike_one (axe : Nat) {z : Nat × Nock} (h1 : z.1 = 1) : hike axe [z] = some z.2 := by
  rw [hike, dif_neg (List.cons_ne_nil _ _)]
  simp [h1]

/-- Below the root `++hike` goes to both sides. -/
theorem hike_step (axe : Nat) {pac : List (Nat × Nock)} (hne : pac ≠ [])
    (hpac : ∀ e ∈ pac, 2 ≤ e.1) :
    hike axe pac = (hike (peg axe 2) (side 2 pac)).bind fun hed =>
      (hike (peg axe 3) (side 3 pac)).bind fun tal => some (cons hed tal) := by
  have hzet : pac.filter (·.1 = 1) = [] := by
    rw [List.filter_eq_nil_iff]
    intro e he
    have := hpac e he
    simp only [decide_eq_true_eq]
    omega
  rw [hike, dif_neg hne]
  simp only [hzet, dif_pos hpac]
  rfl

/-- The recursion of `++hike` on edits of a noun that are apart. -/
theorem hike_induct {a : Noun} {P : Nat → List (Nat × Nock) → Noun → Prop}
    (nil : ∀ axe n, Vere.Nock.slot axe a = some n → P axe [] n)
    (one : ∀ axe z n, z.1 = 1 → P axe [z] n)
    (cell : ∀ axe pac h t, Vere.Nock.slot axe a = some (.cell h t) → pac ≠ [] →
      (∀ e ∈ pac, 2 ≤ e.1) → (∀ e ∈ pac, (Vere.Nock.slot e.1 (.cell h t)).isSome) →
      P (peg axe 2) (side 2 pac) h → P (peg axe 3) (side 3 pac) t → P axe pac (.cell h t))
    {axe : Nat} {pac : List (Nat × Nock)} {n : Noun} (hn : Vere.Nock.slot axe a = some n)
    (hdis : pac.Pairwise fun x y => Disjoint x.1 y.1)
    (hex : ∀ e ∈ pac, (Vere.Nock.slot e.1 n).isSome) : P axe pac n := by
  induction hk : axes pac using Nat.strongRecOn generalizing axe pac n with
  | ind k ih =>
      by_cases hnil : pac = []
      · subst hnil
        exact nil axe n hn
      by_cases hone : ∃ z ∈ pac, z.1 = 1
      · obtain ⟨z, hz, h1⟩ := hone
        obtain rfl := eq_singleton_of_one hz h1 (exists_pos hex) hdis
        exact one axe z n h1
      have hpac : ∀ e ∈ pac, 2 ≤ e.1 := by
        intro e he
        have hpos := exists_pos hex e he
        have hne : e.1 ≠ 1 := fun h1 => hone ⟨e, he, h1⟩
        omega
      have hside : ∀ c, axes (side c pac) < k := by
        intro c
        have hle := axes_side_le c hpac
        have hlen := List.length_pos_iff.mpr hnil
        omega
      obtain ⟨h, t, rfl⟩ := cell_of_exists hnil hpac hex
      have haxe := pos_of_slot hn
      have hhed : Vere.Nock.slot (peg axe 2) a = some h := by
        rw [slot_peg haxe (by decide), hn]
        exact slot_two h t
      have htal : Vere.Nock.slot (peg axe 3) a = some t := by
        rw [slot_peg haxe (by decide), hn]
        exact slot_three h t
      exact cell axe pac h t hn hnil hpac hex
        (ih _ (hside 2) hhed (pairwise_side hpac hdis) (exists_left hpac hex) rfl)
        (ih _ (hside 3) htal (pairwise_side hpac hdis) (exists_right hpac hex) rfl)

/-- `++hike` edits the noun at an axis. -/
theorem hike_sound {a : Noun} (val : Nock → Noun) {axe : Nat} {pac : List (Nat × Nock)} {n : Noun}
    (hn : Vere.Nock.slot axe a = some n) (hval : ∀ e ∈ pac, e.2.Gives a (val e.2))
    (hdis : pac.Pairwise fun x y => Disjoint x.1 y.1)
    (hex : ∀ e ∈ pac, (Vere.Nock.slot e.1 n).isSome) :
    ∃ r f, edits n (worth val pac) = some r ∧ hike axe pac = some f ∧ f.Gives a r := by
  revert hval
  refine hike_induct (P := fun axe pac n => (∀ e ∈ pac, e.2.Gives a (val e.2)) →
    ∃ r f, edits n (worth val pac) = some r ∧ hike axe pac = some f ∧ f.Gives a r) ?_ ?_ ?_ hn hdis hex
  · intro axe n hn _
    exact ⟨n, .slot axe, rfl, hike_nil axe, gives_slot.mpr hn⟩
  · intro axe z n h1 hval
    refine ⟨val z.2, z.2, ?_, hike_one axe h1, hval z (List.mem_singleton_self z)⟩
    show (poke (val z.2) n z.1).bind (edits · []) = _
    rw [h1, poke_one]
    rfl
  · intro axe pac h t hn hne hpac _ ihh iht hval
    have hvals : ∀ c, ∀ e ∈ side c pac, e.2.Gives a (val e.2) := by
      intro c e he
      obtain ⟨x, hx, -, rfl⟩ := mem_side.mp he
      exact hval x hx
    have hworth : ∀ e ∈ worth val pac, 2 ≤ e.1 := by
      intro e he
      obtain ⟨x, hx, rfl⟩ := List.mem_map.mp he
      exact hpac x hx
    obtain ⟨h', hed, hh, hhike, hgives⟩ := ihh (hvals 2)
    obtain ⟨t', tal, ht, thike, tgives⟩ := iht (hvals 3)
    refine ⟨.cell h' t', cons hed tal, ?_, ?_,
      cons_sound (gives_auto.mpr ⟨h', t', rfl, hgives, tgives⟩)⟩
    · rw [edits_cell hworth, ← worth_side, ← worth_side, hh, ht]
      rfl
    · rw [hike_step axe hne hpac, hhike, thike]
      rfl

end Vere.Ut
