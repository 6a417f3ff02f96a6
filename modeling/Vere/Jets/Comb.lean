import Vere.Jets.BitsSpec
import Vere.Lib.Settles
import Vere.Ut.Comb

/-!
# Vere.Jets.Comb

The jets of the formula combinators, `gen164/6/comb.c`, `cons.c`, `flan.c`, `flip.c`,
`flor.c` and `hike.c`, with the axis jets of `gen164/3`.

The jets work on the nouns of formulas. They test less than the arms do: `flan` and `flor`
take every constant but 0 for a no, `hike` the first edit of the whole for the only one. On
formulas that produce flags and on edits that are apart that is the same
(`combinators_preserve`).
-/

namespace Vere.Jets

open Vere.Lib Vere.Nock

/-! ### Axes -/

/-- `peg`. -/
def peg (a b : Nat) : Jet Nat := do
  let c := u2Met 0 b
  let d ← dec c
  let e ← lsh 0 d 1
  let f ← sub b e
  let g ← lsh 0 d a
  return f + g

/-- `cap`. -/
def cap (a : Nat) : Jet Nat :=
  let metW := u2Met 0 a
  if metW < 2 then .error .exit
  else if a / 2 ^ (metW - 2) % 2 = 1 then .ok 3
  else .ok 2

/-- `mas`. -/
def mas (a : Nat) : Jet Nat :=
  let bW := u2Met 0 a
  if bW < 2 then .error .exit
  else do
    let c ← bex (bW - 1)
    let d ← bex (bW - 2)
    let e ← sub a c
    return e ||| d

/-- The word loop of `u2_nord`, from the lowest word up. -/
def nordWords (a b : Nat) : Nat → Nat → Nat
  | 0, _ => 1
  | n + 1, i =>
      let ai := a / 2 ^ (32 * i) % 2 ^ 32
      let bi := b / 2 ^ (32 * i) % 2 ^ 32
      if ai ≠ bi then if ai < bi then 0 else 2
      else nordWords a b n (i + 1)

/-- `u2_nord` of atoms. -/
def nord (a b : Nat) : Nat :=
  if isCat a then
    if isCat b then if a = b then 1 else if a < b then 0 else 2
    else 0
  else if isCat b then 2
  else if wordLen a ≠ wordLen b then if wordLen a < wordLen b then 0 else 2
  else nordWords a b (wordLen a) 0

/-! ### Formulas -/

/-- `peg` of what stands behind two operators 0. -/
def pegNoun : Noun → Noun → Jet Noun
  | .atom a, .atom b => (peg a b).map .atom
  | _, _ => .error .fault

/-- The branch of `comb` for an axis other than 0. -/
def combAxis (p buz : Noun) : Jet Noun :=
  match buz with
  | .cell (.atom 0) q =>
      if q ≠ .atom 0 then (pegNoun p q).map (op 0) else .ok (op 7 (.cell (op 0 p) buz))
  | .cell (.atom 2) (.cell (.cell (.atom 0) x) (.cell (.atom 0) y)) => do
      let u ← pegNoun p x
      let v ← pegNoun p y
      return op 2 (.cell (op 0 u) (op 0 v))
  | _ => .ok (op 7 (.cell (op 0 p) buz))

/-- The last branches of `comb`. -/
def combLast (mal buz : Noun) : Jet Noun :=
  match buz with
  | .cell (.atom 0) (.atom 1) => .ok mal
  | _ => .ok (op 7 (.cell mal buz))

/-- `comb`. -/
def comb (mal buz : Noun) : Jet Noun :=
  match mal with
  | .cell (.atom 0) p => if p ≠ .atom 0 then combAxis p buz else combLast mal buz
  | .cell (.cell p q) (.cell (.atom 0) (.atom 1)) => .ok (op 8 (.cell (.cell p q) buz))
  | _ => combLast mal buz

/-- `cons`, of formulas: what stands behind an operator 0 is an atom. -/
def cons (vur sed : Noun) : Jet Noun :=
  match vur, sed with
  | .cell (.atom 1) p, .cell (.atom 1) q => .ok (op 1 (.cell p q))
  | .cell (.atom 0) (.atom p), .cell (.atom 0) (.atom q) =>
      if p ≠ 1 ∧ p ≠ q ∧ nord p q = 0 then
        if p / 2 = q / 2 then .ok (op 0 (.atom (p / 2))) else .ok (.cell vur sed)
      else .ok (.cell vur sed)
  | _, _ => .ok (.cell vur sed)

/-- `flan`. -/
def flan (bos nif : Noun) : Jet Noun :=
  match bos with
  | .atom _ => .error .fault
  | .cell (.atom 1) t => .ok (if t = .atom 0 then nif else bos)
  | _ =>
      match nif with
      | .atom _ => .error .fault
      | .cell (.atom 1) t => .ok (if t = .atom 0 then bos else nif)
      | _ => .ok (op 6 (.cell bos (.cell nif (op 1 (.atom 1)))))

/-- `flip`. -/
def flip (hel : Noun) : Jet Noun :=
  match hel with
  | .atom _ => .error .fault
  | .cell (.atom 1) t =>
      if t = .atom 0 then .ok (op 1 (.atom 1))
      else if t = .atom 1 then .ok (op 1 (.atom 0))
      else .error .fault
  | _ => .ok (op 6 (.cell hel (.cell (op 1 (.atom 1)) (op 1 (.atom 0)))))

/-- `flor`. -/
def flor (bos nif : Noun) : Jet Noun :=
  match bos with
  | .atom _ => .error .fault
  | .cell (.atom 1) t => .ok (if t = .atom 0 then bos else nif)
  | _ =>
      match nif with
      | .atom _ => .error .fault
      | .cell (.atom 1) t => .ok (if t = .atom 0 then nif else bos)
      | _ => .ok (op 6 (.cell bos (.cell (op 1 (.atom 0)) nif)))

/-- `_lily_hike_belt_root`. -/
def hikeBeltRoot : List (Nat × Noun) → List Noun
  | [] => []
  | (axis, tool) :: pac => if axis = 1 then tool :: hikeBeltRoot pac else hikeBeltRoot pac

/-- The edits on one side. -/
def hikeBelt (c : Nat) : List (Nat × Noun) → Jet (List (Nat × Noun))
  | [] => .ok []
  | (axis, tool) :: pac => do
      let belt ← hikeBelt c pac
      if axis = 1 then return belt
      let side ← cap axis
      if side ≠ c then return belt
      let axisTap ← mas axis
      return (axisTap, tool) :: belt

/-- `_lily_hike_belt_l`. -/
def hikeBeltL : List (Nat × Noun) → Jet (List (Nat × Noun)) := hikeBelt 2

/-- `_lily_hike_belt_r`. -/
def hikeBeltR : List (Nat × Noun) → Jet (List (Nat × Noun)) := hikeBelt 3

/-- `hike`, with a bound on its recursion. -/
def hike : Nat → Nat → List (Nat × Noun) → Jet Noun
  | 0, _, _ => .error .fault
  | n + 1, axe, pac =>
      if pac = [] then .ok (op 0 (.atom axe))
      else
        match hikeBeltRoot pac with
        | fol :: _ => .ok fol
        | [] => do
            let tum ← hikeBeltL pac
            let gam ← hikeBeltR pac
            let hax ← peg axe 2
            let moz ← peg axe 3
            let zip ← hike n hax tum
            let dof ← hike n moz gam
            cons zip dof

/-! ### Agreement on axes -/

theorem peg_eq {a b : Nat} (hb : 0 < b) (h : a.size + b.size < 2 ^ 31) :
    peg a b = .ok (Ut.peg a b) := by
  have hpos := Nat.size_pos.mpr hb
  have hle := two_pow_size_pred_le hb
  have hone : Nat.size 1 = 1 := Nat.size_one
  simp only [peg, u2Met_zero (show b.size < 2 ^ 32 by omega), dec_eq hpos, bind, Except.bind]
  rw [lsh_zero_eq (by omega), lsh_zero_eq (by omega), Nat.mul_one]
  simp only [sub_eq hle, Ut.peg_eq a hb, pure, Except.pure]

theorem cap_eq {a : Nat} (ha : 2 ≤ a) (h : a.size < 2 ^ 32) : cap a = .ok (Ut.cap a) := by
  have hsize := Ut.size_half ha
  have hpos := Nat.size_pos.mpr (show 0 < a / 2 by omega)
  simp only [cap, u2Met_zero (show a.size < 2 ^ 32 by omega)]
  rw [if_neg (by omega), ← Ut.cap_eq ha]
  obtain hc | hc := Ut.cap_two_or_three ha
  · simp [hc]
  · simp [hc]

theorem mas_eq {a : Nat} (ha : 2 ≤ a) (h : a.size ≤ 2 ^ 31) : mas a = .ok (Ut.mas a) := by
  have hsize := Ut.size_half ha
  have hpos := Nat.size_pos.mpr (show 0 < a / 2 by omega)
  have hle := two_pow_size_pred_le (show 0 < a by omega)
  simp only [mas, u2Met_zero (show a.size < 2 ^ 32 by omega)]
  rw [if_neg (by omega), bex_eq (by omega), bex_eq (by omega)]
  simp only [bind, Except.bind, sub_eq hle, pure, Except.pure, Ut.mas_or ha]

/-- The words of neighbours differ in the lowest only. -/
theorem nord_pair {p q : Nat} (hpq : p ≠ q) (hhalf : p / 2 = q / 2) :
    nord p q = if p < q then 0 else 2 := by
  have hcat : isCat p = isCat q := by
    simp only [isCat, decide_eq_decide]
    omega
  unfold nord
  rw [hcat]
  by_cases hq : isCat q = true
  · rw [if_pos hq, if_pos hq, if_neg hpq]
  · rw [if_neg hq, if_neg hq]
    have hbig : 2 ^ 31 ≤ q := by
      rw [isCat_iff] at hq
      omega
    have hlen : wordLen p = wordLen q := by
      rw [wordLen, wordLen, Ut.size_half (by omega : 2 ≤ p), Ut.size_half (by omega : 2 ≤ q), hhalf]
    rw [hlen, if_neg (by simp)]
    obtain ⟨n, hn⟩ : ∃ n, wordLen q = n + 1 :=
      ⟨wordLen q - 1, by have := wordLen_pos (show 0 < q by omega); omega⟩
    rw [hn, nordWords]
    simp only [Nat.mul_zero, Nat.pow_zero, Nat.div_one]
    rw [if_pos (by omega)]
    by_cases hlt : p < q
    · rw [if_pos (by omega), if_pos hlt]
    · rw [if_neg (by omega), if_neg hlt]

/-! ### Agreement on formulas -/

section formulas

variable {a p : Noun} {m b v s n f : Ut.Nock}

theorem cons_slots (x y : Nat) :
    cons (op 0 (.atom x)) (op 0 (.atom y)) = .ok (Ut.cons (.slot x) (.slot y)).noun := by
  simp only [cons, Ut.cons]
  by_cases hhalf : x / 2 = y / 2
  · by_cases hxy : x = y
    · subst hxy
      simp [Ut.Nock.noun]
    · rw [nord_pair hxy hhalf]
      by_cases hlt : x < y
      · have hne : x ≠ 1 := by omega
        rw [if_pos hlt, if_pos ⟨hne, hxy, rfl⟩, if_pos hhalf, if_pos ⟨by omega, hhalf⟩]
        rfl
      · rw [if_neg hlt, if_neg (by simp), if_neg (by omega)]
        rfl
  · simp [hhalf, Ut.Nock.noun]

/-- `cons` is the arm. -/
theorem cons_eq (v s : Ut.Nock) : cons v.noun s.noun = .ok (Ut.cons v s).noun := by
  cases v with
  | slot x =>
      cases s with
      | slot y => exact cons_slots x y
      | auto u w =>
          obtain ⟨h, t, hu⟩ := Ut.Nock.noun_cell u
          change cons (op 0 (.atom x)) (.cell u.noun w.noun) = .ok (.cell _ (.cell u.noun w.noun))
          rw [hu]
          rfl
      | _ => rfl
  | const x =>
      cases s with
      | const y => rfl
      | auto u w =>
          obtain ⟨h, t, hu⟩ := Ut.Nock.noun_cell u
          change cons (op 1 x) (.cell u.noun w.noun) = .ok (.cell _ (.cell u.noun w.noun))
          rw [hu]
          rfl
      | _ => rfl
  | auto u w =>
      obtain ⟨h, t, hu⟩ := Ut.Nock.noun_cell u
      change cons (.cell u.noun w.noun) s.noun = .ok (.cell (.cell u.noun w.noun) s.noun)
      rw [hu]
      rfl
  | _ => rfl

/-- A formula that produces nothing but flags. -/
def Flag (f : Ut.Nock) (a : Noun) : Prop := ∀ p, f.Gives a p → p = .atom 0 ∨ p = .atom 1

theorem Flag.const {x : Noun} (h : Flag (.const x) a) : x = .atom 0 ∨ x = .atom 1 :=
  h x (Ut.gives_const.mpr rfl)

/-- A formula is a constant, or its noun does not begin with operator 1. -/
theorem const_or (f : Ut.Nock) :
    (∃ x, f = .const x) ∨ ∃ h t, f.noun = .cell h t ∧ h ≠ .atom 1 ∧ ∀ x, f ≠ .const x := by
  cases f with
  | const x => exact .inl ⟨x, rfl⟩
  | auto u w =>
      obtain ⟨h, t, hu⟩ := Ut.Nock.noun_cell u
      exact .inr ⟨.cell h t, w.noun, congrArg (Noun.cell · w.noun) hu, nofun, nofun⟩
  | _ => exact .inr ⟨_, _, rfl, nofun, nofun⟩

theorem flan_eq (hb : Flag b a) (hn : Flag n a) : flan b.noun n.noun = .ok (Ut.flan b n).noun := by
  rcases const_or b with ⟨x, rfl⟩ | ⟨h, t, hnoun, hne, hconst⟩
  · rcases hb.const with rfl | rfl <;> rfl
  · rcases const_or n with ⟨x, rfl⟩ | ⟨h', t', hnoun', hne', hconst'⟩
    · rcases hn.const with rfl | rfl <;> simp [flan, Ut.flan, hnoun, hne, hconst, Ut.Nock.noun]
    · simp [flan, Ut.flan, hnoun, hne, hconst, hnoun', hne', hconst', Ut.Nock.noun]

theorem flor_eq (hb : Flag b a) (hn : Flag n a) : flor b.noun n.noun = .ok (Ut.flor b n).noun := by
  rcases const_or b with ⟨x, rfl⟩ | ⟨h, t, hnoun, hne, hconst⟩
  · rcases hb.const with rfl | rfl <;> rfl
  · rcases const_or n with ⟨x, rfl⟩ | ⟨h', t', hnoun', hne', hconst'⟩
    · rcases hn.const with rfl | rfl <;> simp [flor, Ut.flor, hnoun, hne, hconst, Ut.Nock.noun]
    · simp [flor, Ut.flor, hnoun, hne, hconst, hnoun', hne', hconst', Ut.Nock.noun]

/-- The subject is in the loom. A path in it has fewer cells than the loom has words. -/
def Loomed (a : Noun) : Prop := Ut.depth a < 2 ^ 28

theorem Loomed.size_lt {x : Nat} (h : Loomed a) (hx : slot x a = some p) : x.size < 2 ^ 29 := by
  have hdepth := Ut.slot_depth hx
  unfold Loomed at h
  omega

theorem Loomed.below {x : Nat} (h : Loomed a) (hx : slot x a = some p) : Loomed p := by
  have hdepth := Ut.slot_depth hx
  have hpos := Nat.size_pos.mpr (Ut.pos_of_slot hx)
  unfold Loomed at *
  omega

/-- Two axes, one below the other, are short enough for `peg`. -/
theorem Loomed.peg {x y : Nat} {q : Noun} (h : Loomed a) (hx : slot x a = some p)
    (hy : slot y p = some q) : Jets.peg x y = .ok (Ut.peg x y) := by
  have hxs := h.size_lt hx
  have hys := (h.below hx).size_lt hy
  exact peg_eq (Ut.pos_of_slot hy) (by omega)

theorem combAxis_eq {x : Nat} (ha : Loomed a) (h : (Ut.Nock.seven (.slot x) b).Gives a p)
    (hf : Ut.combAxis x b = some f) : combAxis (.atom x) b.noun = .ok f.noun := by
  obtain ⟨q, hq, hp⟩ := Ut.gives_seven.mp h
  have hx := Ut.gives_slot.mp hq
  cases b with
  | slot y =>
      have hy := Ut.gives_slot.mp hp
      have hne : y ≠ 0 := Nat.ne_of_gt (Ut.pos_of_slot hy)
      have hyn : Noun.atom y ≠ .atom 0 := fun heq => hne (Noun.atom.inj heq)
      change some (if y ≠ 0 then Ut.Nock.slot (Ut.peg x y) else _) = some f at hf
      rw [if_pos hne, Option.some.injEq] at hf
      subst hf
      change (if Noun.atom y ≠ .atom 0 then (peg x y).map _ |>.map (op 0) else _) = _
      rw [if_pos hyn, ha.peg hx hy]
      rfl
  | nock u w =>
      obtain ⟨c, d, hc, hd, -⟩ := Ut.gives_nock.mp hp
      cases u with
      | slot y =>
          cases w with
          | slot z =>
              rw [Ut.gives_slot] at hc hd
              have hy : y ≠ 0 := Nat.ne_of_gt (Ut.pos_of_slot hc)
              have hz : z ≠ 0 := Nat.ne_of_gt (Ut.pos_of_slot hd)
              change (if y = 0 ∨ z = 0 then none else some (Ut.Nock.nock _ _)) = some f at hf
              rw [if_neg (not_or.mpr ⟨hy, hz⟩), Option.some.injEq] at hf
              subst hf
              change ((peg x y).map Noun.atom >>= fun u => (peg x z).map Noun.atom >>= fun v =>
                .ok (op 2 (.cell (op 0 u) (op 0 v)))) = _
              rw [ha.peg hx hc, ha.peg hx hd]
              rfl
          | auto g k =>
              obtain ⟨h, t, hg⟩ := Ut.Nock.noun_cell g
              cases hf
              change combAxis _ (op 2 (.cell (op 0 _) (.cell g.noun k.noun))) =
                .ok (op 7 (.cell _ (op 2 (.cell (op 0 _) (.cell g.noun k.noun)))))
              rw [hg]
              rfl
          | _ =>
              cases hf
              rfl
      | auto g k =>
          obtain ⟨h, t, hg⟩ := Ut.Nock.noun_cell g
          cases hf
          change combAxis _ (op 2 (.cell (.cell g.noun k.noun) w.noun)) =
            .ok (op 7 (.cell _ (op 2 (.cell (.cell g.noun k.noun) w.noun))))
          rw [hg]
          rfl
      | _ =>
          cases hf
          rfl
  | auto g k =>
      obtain ⟨h, t, hg⟩ := Ut.Nock.noun_cell g
      cases hf
      change combAxis _ (.cell g.noun k.noun) = .ok (op 7 (.cell _ (.cell g.noun k.noun)))
      rw [hg]
      rfl
  | _ =>
      cases hf
      rfl

theorem combLast_eq (m b : Ut.Nock) :
    combLast m.noun b.noun = .ok (if b = .slot 1 then m else .seven m b).noun := by
  cases b with
  | slot y =>
      match y with
      | 0 => rfl
      | 1 => rfl
      | y + 2 =>
          rw [if_neg (fun h => by cases h)]
          rfl
  | auto g k =>
      obtain ⟨h, t, hg⟩ := Ut.Nock.noun_cell g
      rw [if_neg nofun]
      change combLast m.noun (.cell g.noun k.noun) = .ok (op 7 (.cell _ (.cell g.noun k.noun)))
      rw [hg]
      rfl
  | _ => rfl

theorem noun_self (b : Ut.Nock) : b.noun = op 0 (.atom 1) ↔ b = .slot 1 := by
  cases b with
  | slot y => exact ⟨fun h => by cases h; rfl, fun h => by cases h; rfl⟩
  | auto g k =>
      obtain ⟨h, t, hg⟩ := Ut.Nock.noun_cell g
      refine ⟨fun heq => ?_, nofun⟩
      have hhead : Noun.cell h t = .atom 0 := hg.symm.trans (Noun.cell.inj heq).1
      cases hhead
  | _ => exact ⟨nofun, nofun⟩

/-- `comb` is the arm, where operator 7 has a product. -/
theorem comb_eq (ha : Loomed a) (h : (Ut.Nock.seven m b).Gives a p) (hf : Ut.comb m b = some f) :
    comb m.noun b.noun = .ok f.noun := by
  cases m with
  | slot x =>
      by_cases hx : x = 0
      · subst hx
        cases hf
        exact combLast_eq (.slot 0) b
      · have hxn : Noun.atom x ≠ .atom 0 := fun heq => hx (Noun.atom.inj heq)
        change (if x ≠ 0 then Ut.combAxis x b else _) = some f at hf
        rw [if_pos hx] at hf
        change (if Noun.atom x ≠ .atom 0 then combAxis (.atom x) b.noun else _) = _
        rw [if_pos hxn, combAxis_eq ha h hf]
  | auto u w =>
      obtain ⟨g, k, hu⟩ := Ut.Nock.noun_cell u
      have hlast := combLast_eq (.auto u w) b
      change combLast (.cell u.noun w.noun) b.noun = _ at hlast
      change comb (.cell u.noun w.noun) b.noun = _
      rw [hu] at hlast ⊢
      by_cases hw : w = .slot 1
      · subst hw
        cases hf
        change Except.ok (op 8 (.cell (.cell g k) b.noun)) = .ok (op 8 (.cell u.noun b.noun))
        rw [hu]
      · have hwn : w.noun ≠ op 0 (.atom 1) := fun heq => hw ((noun_self w).mp heq)
        unfold Ut.comb at hf
        split at hf
        · next heq => cases heq
        · next heq => exact absurd (Ut.Nock.auto.inj heq).2 hw
        · next =>
            cases hf
            rw [comb]
            · exact hlast
            · exact nofun
            · exact fun _ _ heq => hwn (Noun.cell.inj heq).2
  | const x =>
      cases hf
      exact combLast_eq (.const x) b
  | _ =>
      cases hf
      exact combLast_eq _ b

end formulas

/-! ### Agreement on edits -/

/-- A list of edits as the jet has it. -/
def nouns (pac : List (Nat × Ut.Nock)) : List (Nat × Noun) := pac.map fun e => (e.1, e.2.noun)

theorem hikeBelt_eq (c : Nat) {pac : List (Nat × Ut.Nock)}
    (h : ∀ e ∈ pac, 2 ≤ e.1 ∧ e.1.size < 2 ^ 31) :
    hikeBelt c (nouns pac) = .ok (nouns (Ut.side c pac)) := by
  induction pac with
  | nil => rfl
  | cons e pac ih =>
      obtain ⟨h2, hsize⟩ := h e List.mem_cons_self
      have ih := ih fun x hx => h x (List.mem_cons_of_mem _ hx)
      rw [Ut.side_cons]
      show hikeBelt c ((e.1, e.2.noun) :: nouns pac) = _
      simp only [hikeBelt, ih, bind, Except.bind, cap_eq h2 (hsize.trans (by decide)), mas_eq h2 hsize.le,
        show e.1 ≠ 1 by omega, if_false]
      by_cases hc : Ut.cap e.1 = c
      · simp only [hc, ne_eq, not_true_eq_false, if_false, if_true]
        rfl
      · simp only [hc, ne_eq, not_false_eq_true, if_false, if_true]
        rfl

theorem hikeBeltRoot_eq {pac : List (Nat × Ut.Nock)} (h : ∀ e ∈ pac, 2 ≤ e.1) :
    hikeBeltRoot (nouns pac) = [] := by
  induction pac with
  | nil => rfl
  | cons e pac ih =>
      have h2 := h e List.mem_cons_self
      show hikeBeltRoot ((e.1, e.2.noun) :: nouns pac) = _
      rw [hikeBeltRoot, if_neg (by omega)]
      exact ih fun x hx => h x (List.mem_cons_of_mem _ hx)

/-- `hike` is the arm, on edits of a noun in the loom that are apart. -/
theorem hike_eq {a : Noun} (ha : Loomed a) {axe : Nat} {pac : List (Nat × Ut.Nock)} {n : Noun}
    (hn : slot axe a = some n) (hdis : pac.Pairwise fun x y => Ut.Disjoint x.1 y.1)
    (hex : ∀ e ∈ pac, (slot e.1 n).isSome) {f : Ut.Nock} (hf : Ut.hike axe pac = some f) :
    Settles (fun k => hike k axe (nouns pac)) (.ok f.noun) := by
  revert f
  refine Ut.hike_induct (P := fun axe pac _ => ∀ {f}, Ut.hike axe pac = some f →
    Settles (fun k => hike k axe (nouns pac)) (.ok f.noun)) ?_ ?_ ?_ hn hdis hex
  · intro axe n _ f hf
    rw [Ut.hike_nil] at hf
    cases hf
    exact .call (fun _ => rfl) (.const _)
  · intro axe z n h1 f hf
    rw [Ut.hike_one axe h1] at hf
    cases hf
    refine .call (g := fun _ => .ok z.2.noun) (fun k => ?_) (.const _)
    simp [hike, nouns, hikeBeltRoot, h1]
  · intro axe pac h t hn hne hpac hex ihh iht f hf
    rw [Ut.hike_step axe hne hpac] at hf
    obtain ⟨hed, hhed, hf⟩ := Option.bind_eq_some_iff.mp hf
    obtain ⟨tal, htal, hf⟩ := Option.bind_eq_some_iff.mp hf
    cases hf
    have hsize : ∀ e ∈ pac, 2 ≤ e.1 ∧ e.1.size < 2 ^ 31 := by
      intro e he
      obtain ⟨q, hq⟩ := Option.isSome_iff_exists.mp (hex e he)
      have hlt := (ha.below hn).size_lt hq
      exact ⟨hpac e he, by omega⟩
    have hnil : nouns pac ≠ [] := by
      simpa [nouns] using hne
    have hcall : ∀ k, hike (k + 1) axe (nouns pac)
        = (hike k (Ut.peg axe 2) (nouns (Ut.side 2 pac)) >>= fun zip =>
            hike k (Ut.peg axe 3) (nouns (Ut.side 3 pac)) >>= fun dof => cons zip dof) := by
      intro k
      simp only [hike, if_neg hnil, hikeBeltRoot_eq hpac, hikeBeltL, hikeBeltR, hikeBelt_eq _ hsize,
        ha.peg hn (slot_two h t), ha.peg hn (slot_three h t), bind, Except.bind]
    refine .call hcall (.bind (ihh hhed) (.bind (iht htal) ?_))
    rw [cons_eq]
    exact .const _

/-- On every subject each combinator produces what the plain formula does, `++hike` the noun at
an axis with the products of its formulas in it, and the jets return the same formulas. The
bound on `hike` is on its recursion only. -/
theorem combinators_preserve (a : Noun) :
    (∀ m b p, (Ut.Nock.seven m b).Gives a p → ∃ f, Ut.comb m b = some f ∧ f.Gives a p ∧
      (Loomed a → comb m.noun b.noun = .ok f.noun)) ∧
    (∀ v s, (∀ p, (Ut.Nock.auto v s).Gives a p → (Ut.cons v s).Gives a p) ∧
      cons v.noun s.noun = .ok (Ut.cons v s).noun) ∧
    (∀ b y w p, (Ut.Nock.six b y w).Gives a p → (Ut.cond b y w).Gives a p) ∧
    (∀ b n, Flag b a → Flag n a →
      (∀ p, (Ut.Nock.six b n (.const (.atom 1))).Gives a p → (Ut.flan b n).Gives a p) ∧
      flan b.noun n.noun = .ok (Ut.flan b n).noun) ∧
    (∀ b n, Flag b a → Flag n a →
      (∀ p, (Ut.Nock.six b (.const (.atom 0)) n).Gives a p → (Ut.flor b n).Gives a p) ∧
      flor b.noun n.noun = .ok (Ut.flor b n).noun) ∧
    (∀ d p, (Ut.Nock.six d (.const (.atom 1)) (.const (.atom 0))).Gives a p →
      (Ut.flip d).Gives a p) ∧
    ∀ axe pac n val, slot axe a = some n → (∀ e ∈ pac, (slot e.1 n).isSome) →
      pac.Pairwise (fun x y => Ut.Disjoint x.1 y.1) → (∀ e ∈ pac, e.2.Gives a (val e.2)) →
      ∃ r f, Ut.edits n (Ut.worth val pac) = some r ∧ Ut.hike axe pac = some f ∧ f.Gives a r ∧
        (Loomed a → Settles (fun k => hike k axe (nouns pac)) (.ok f.noun)) := by
  refine ⟨?_, ?_, ?_, ?_, ?_, ?_, ?_⟩
  · intro m b p h
    obtain ⟨f, hf, hp⟩ := Ut.comb_sound h
    exact ⟨f, hf, hp, fun ha => comb_eq ha h hf⟩
  · intro v s
    exact ⟨fun p => Ut.cons_sound, cons_eq v s⟩
  · intro b y w p
    exact Ut.cond_sound
  · intro b n hb hn
    exact ⟨fun p => Ut.flan_sound, flan_eq hb hn⟩
  · intro b n hb hn
    exact ⟨fun p => Ut.flor_sound, flor_eq hb hn⟩
  · intro d p
    exact id
  · intro axe pac n val hn hex hdis hval
    obtain ⟨r, f, hr, hf, hp⟩ := Ut.hike_sound val hn hval hdis hex
    exact ⟨r, f, hr, hf, hp, fun ha => hike_eq ha hn hdis hex hf⟩

end Vere.Jets
