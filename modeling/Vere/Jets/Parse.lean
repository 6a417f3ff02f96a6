import Vere.Hoon.Stew
import Vere.Hoon.Trace
import Vere.Jets.Set

/-!
# Vere.Jets.Parse

The jets of the parsing rules, `gen164/5/parse.c`.

A jet takes nouns apart by their position and calls a gate by its noun. Gates are functions on
nouns here, the same ones for a jet and its arm; `Same` says that the two come to the same edge,
or both crash, or both run for ever.

The jets compare characters and hairs as words, and give up on numbers that do not fit. `_last`
does so on the trace of any rule that it meets, `shim` on its bounds, `stew` on the first
character and on a key.
-/

namespace Vere.Jets.Parse

open Vere.Hoon Vere.Lib

open Hoon.Parse (Hair Nail Edge Rule Sab Key)

/-- A gate that is called by `u2_nk_mong`. -/
abbrev Gate := Noun → Deep Noun

/-- `u2_bi_cell`. -/
def biCell : Noun → Deep (Noun × Noun)
  | .cell h t => return (h, t)
  | .atom _ => throw .exit

/-- `u2_bq`. -/
abbrev qual (a b c d : Noun) : Noun := .cell a (.cell b (.cell c d))

/-- `u2_rl_vint`, and `u2_bl_good`. -/
def vint : Noun → Deep Noun
  | .atom a => return .atom (a + 1)
  | .cell _ _ => throw .exit

/-- `_slip`. -/
def slip (weq naz : Noun) : Deep Noun := do
  let (pNaz, qNaz) ← biCell naz
  if weq = .atom 10 then return .cell (← vint pNaz) (.atom 1)
  else return .cell pNaz (← vint qNaz)

/-- `_fail`. -/
def fail (tub : Noun) : Deep Noun := do
  let (pTub, _) ← biCell tub
  return .cell pTub nul

/-- `_last`. -/
def last (zyc naz : Noun) : Deep Noun := do
  let (pZyc, qZyc) ← biCell zyc
  let (pNaz, qNaz) ← biCell naz
  match pZyc, qZyc, pNaz, qNaz with
  | .atom pz, .atom qz, .atom pn, .atom qn =>
      if !isCat pz || !isCat qz || !isCat pn || !isCat qn then throw .fail
      else if pz = pn then return if qz > qn then zyc else naz
      else return if pz > pn then zyc else naz
  | _, _, _, _ => throw .fail

/-- `_next`. -/
def next (tub : Noun) : Deep Noun := do
  let (pTub, qTub) ← biCell tub
  match qTub with
  | .atom _ => fail tub
  | .cell iq tq => do
      let zac ← slip iq pTub
      return .cell zac (qual nul iq zac tq)

/-- `bend`. -/
def bend (raq : Gate) (vex : Noun) (sab : Gate) : Deep Noun := do
  let (pVex, qVex) ← biCell vex
  match qVex with
  | .atom _ => return vex
  | .cell _ uqVex => do
      let (puqVex, quqVex) ← biCell uqVex
      let yit ← sab quqVex
      let (pYit, qYit) ← biCell yit
      let yur ← last pVex pYit
      match qYit with
      | .atom _ => return .cell yur qVex
      | .cell _ uqYit => do
          let (puqYit, quqYit) ← biCell uqYit
          let vux ← raq (.cell puqVex puqYit)
          if vux = nul then return .cell yur qVex
          else do
            let (_, uVux) ← biCell vux
            return qual yur nul uVux quqYit

/-- `cold`. -/
def cold (cus : Noun) (sef : Gate) (tub : Noun) : Deep Noun := do
  let vex ← sef tub
  let (pVex, qVex) ← biCell vex
  match qVex with
  | .atom _ => return vex
  | .cell _ uqVex => do
      let (_, quqVex) ← biCell uqVex
      return qual pVex nul cus quqVex

/-- `cook`. -/
def cook (poq sef : Gate) (tub : Noun) : Deep Noun := do
  let vex ← sef tub
  let (pVex, qVex) ← biCell vex
  match qVex with
  | .atom _ => return vex
  | .cell _ uqVex => do
      let (puqVex, quqVex) ← biCell uqVex
      let wag ← poq puqVex
      return qual pVex nul wag quqVex

/-- `comp`. -/
def comp (raq : Gate) (vex : Noun) (sab : Gate) : Deep Noun := do
  let (pVex, qVex) ← biCell vex
  match qVex with
  | .atom _ => return vex
  | .cell _ uqVex => do
      let (puqVex, quqVex) ← biCell uqVex
      let yit ← sab quqVex
      let (pYit, qYit) ← biCell yit
      let yur ← last pVex pYit
      match qYit with
      | .atom _ => return .cell yur qYit
      | .cell _ uqYit => do
          let (puqYit, quqYit) ← biCell uqYit
          return qual yur nul (← raq (.cell puqVex puqYit)) quqYit

/-- `easy`. -/
def easy (huf tub : Noun) : Deep Noun := do
  let (pTub, _) ← biCell tub
  return qual pTub nul huf tub

/-- `glue`. -/
def glue (bus : Gate) (vex : Noun) (sab : Gate) : Deep Noun := do
  let (pVex, qVex) ← biCell vex
  match qVex with
  | .atom _ => return vex
  | .cell _ uqVex => do
      let (puqVex, quqVex) ← biCell uqVex
      let yit ← bus quqVex
      let (pYit, qYit) ← biCell yit
      let yur ← last pVex pYit
      match qYit with
      | .atom _ => return .cell yur nul
      | .cell _ uqYit => do
          let (_, quqYit) ← biCell uqYit
          let wam ← sab quqYit
          let (pWam, qWam) ← biCell wam
          let goy ← last yur pWam
          match qWam with
          | .atom _ => return .cell goy nul
          | .cell _ uqWam => do
              let (puqWam, quqWam) ← biCell uqWam
              return qual goy nul (.cell puqVex puqWam) quqWam

/-- `here`. -/
def here (hez sef : Gate) (tub : Noun) : Deep Noun := do
  let vex ← sef tub
  let (pVex, qVex) ← biCell vex
  match qVex with
  | .atom _ => return vex
  | .cell _ uqVex => do
      let (pTub, _) ← biCell tub
      let (puqVex, quqVex) ← biCell uqVex
      let (pquqVex, _) ← biCell quqVex
      let wag ← hez (.cell (.cell pTub pquqVex) puqVex)
      return qual pVex nul wag quqVex

/-- `just`. -/
def just (daf tub : Noun) : Deep Noun := do
  let (_, qTub) ← biCell tub
  match qTub with
  | .atom _ => fail tub
  | .cell iq _ => if daf = iq then next tub else fail tub

/-- The loop of `mask`. -/
def maskLoop (iq tub : Noun) : Noun → Deep Noun
  | .atom _ => fail tub
  | .cell i t => if i = iq then next tub else maskLoop iq tub t

/-- `mask`. -/
def mask (bud tub : Noun) : Deep Noun := do
  let (_, qTub) ← biCell tub
  match qTub with
  | .atom _ => fail tub
  | .cell iq _ => maskLoop iq tub bud

/-- `pfix`. -/
def pfix (vex : Noun) (sab : Gate) : Deep Noun := do
  let (pVex, qVex) ← biCell vex
  match qVex with
  | .atom _ => return vex
  | .cell _ uqVex => do
      let (_, quqVex) ← biCell uqVex
      let yit ← sab quqVex
      let (pYit, qYit) ← biCell yit
      return .cell (← last pVex pYit) qYit

/-- `plug`. -/
def plug (vex : Noun) (sab : Gate) : Deep Noun := do
  let (pVex, qVex) ← biCell vex
  match qVex with
  | .atom _ => return vex
  | .cell _ uqVex => do
      let (puqVex, quqVex) ← biCell uqVex
      let yit ← sab quqVex
      let (pYit, qYit) ← biCell yit
      let yur ← last pVex pYit
      match qYit with
      | .atom _ => return .cell yur qYit
      | .cell _ uqYit => do
          let (puqYit, quqYit) ← biCell uqYit
          return qual yur nul (.cell puqVex puqYit) quqYit

/-- `pose`. The second rule is called by `u2_nk_kick`. -/
def pose (vex : Noun) (sab : Deep Noun) : Deep Noun := do
  let (pVex, qVex) ← biCell vex
  match qVex with
  | .cell _ _ => return vex
  | .atom _ => do
      let roq ← sab
      let (pRoq, qRoq) ← biCell roq
      return .cell (← last pVex pRoq) qRoq

/-- `sfix`. -/
def sfix (vex : Noun) (sab : Gate) : Deep Noun := do
  let (pVex, qVex) ← biCell vex
  match qVex with
  | .atom _ => return vex
  | .cell _ uqVex => do
      let (puqVex, quqVex) ← biCell uqVex
      let yit ← sab quqVex
      let (pYit, qYit) ← biCell yit
      let yur ← last pVex pYit
      match qYit with
      | .atom _ => return .cell yur nul
      | .cell _ uqYit => do
          let (_, quqYit) ← biCell uqYit
          return qual yur nul puqVex quqYit

/-- `shim`. -/
def shim (zep tub : Noun) : Deep Noun := do
  let (_, qTub) ← biCell tub
  match qTub with
  | .atom _ => fail tub
  | .cell iq _ => do
      let (pZep, qZep) ← biCell zep
      match pZep, qZep, iq with
      | .atom p, .atom q, .atom i =>
          if isCat p && isCat q && isCat i then
            if i ≥ p ∧ i ≤ q then next tub else fail tub
          else throw .fail
      | _, _, _ => throw .fail

/-- `stag`. -/
def stag (gob : Noun) (sef : Gate) (tub : Noun) : Deep Noun := do
  let vex ← sef tub
  let (pVex, qVex) ← biCell vex
  match qVex with
  | .atom _ => return vex
  | .cell _ uqVex => do
      let (puqVex, quqVex) ← biCell uqVex
      return qual pVex nul (.cell gob puqVex) quqVex

/-- `_stew_wor`, on a character that is a cat. -/
def stewWor (ort : Nat) : Noun → Deep Bool
  | .atom wan => if !isCat wan then throw .fail else return ort < wan
  | .cell (.atom wan) _ => if !isCat wan then throw .fail else return ort < wan
  | .cell (.cell _ _) _ => throw .fail

/-- The loop of `stew`, with its own calls of `u2_nk_mong`. -/
def stewLoop (mong : Noun → Gate) (tub : Noun) (iq : Nat) : Noun → Deep Noun
  | .atom _ => fail tub
  | .cell (.cell (.atom p) qn) (.cell l r) =>
      if iq = p then mong qn tub
      else do if ← stewWor iq (.atom p) then stewLoop mong tub iq l else stewLoop mong tub iq r
  | .cell (.cell (.cell h t) qn) (.cell l r) =>
      match h, t with
      | .atom p, .atom q =>
          if !isCat p || !isCat q then fail tub
          else if iq ≥ p ∧ iq ≤ q then mong qn tub
          else do
            if ← stewWor iq (.cell h t) then stewLoop mong tub iq l else stewLoop mong tub iq r
      | _, _ => fail tub
  | _ => throw .exit

/-- `stew`. -/
def stew (mong : Noun → Gate) (hel tub : Noun) : Deep Noun := do
  let (_, qTub) ← biCell tub
  match qTub with
  | .atom _ => fail tub
  | .cell (.atom iq) _ => if !isCat iq then throw .fail else stewLoop mong tub iq hel
  | .cell (.cell _ _) _ => throw .fail

/-- `stir`, with fuel for the rounds. -/
def stir (rud : Noun) (raq fel : Gate) : Nat → Noun → Deep Noun
  | 0, _ => spent
  | n + 1, tub => do
      let vex ← fel tub
      let (pVex, qVex) ← biCell vex
      match qVex with
      | .atom _ => return qual pVex nul rud tub
      | .cell _ uqVex => do
          let (puqVex, quqVex) ← biCell uqVex
          let wag ← stir rud raq fel n quqVex
          let (pWag, qWag) ← biCell wag
          match qWag with
          | .atom _ => throw .fail
          | .cell _ uqWag => do
              let (puqWag, quqWag) ← biCell uqWag
              let far ← last pVex pWag
              return qual far nul (← raq (.cell puqVex puqWag)) quqWag

/-! ### The same edge -/

/-- What a jet comes to, however it bailed. -/
def forget {α : Type} : Deep α → Virt α
  | none => none
  | some (.error _) => some (.error ())
  | some (.ok a) => some (.ok a)

section forget

variable {α β : Type}

@[simp] theorem forget_pure (a : α) : forget (pure a : Deep α) = pure a := rfl

@[simp] theorem forget_throw (b : Bail) : forget (throw b : Deep α) = throw () := rfl

@[simp] theorem forget_spent : forget spent = .never := rfl

theorem forget_bind (x : Deep α) (k : α → Deep β) :
    forget (x >>= k) = forget x >>= fun a => forget (k a) := by
  match x with
  | none => rfl
  | some (.error _) => rfl
  | some (.ok _) => rfl

end forget

/-- A jet and its arm come to the same edge, or both crash, or both run for ever. -/
def Same (x : Deep Noun) (y : Virt Edge) : Prop := forget x = Edge.noun <$> y

/-- A gate for a rule. -/
def Calls (f : Gate) (sef : Rule) : Prop := ∀ tub : Nail, Same (f tub.noun) (sef tub)

/-- Line and column are cats. -/
def NearHair (h : Hair) : Prop := h.p < 2 ^ 31 ∧ h.q < 2 ^ 31

/-- What the rule gives on the nail has a near trace. -/
def NearAt (sef : Rule) (tub : Nail) : Prop := ∀ e, sef tub = pure e → NearHair e.p

/-- What the rule gives behind an edge has one, if the edge parses. -/
def NearAfter (vex : Edge) (sef : Rule) : Prop := ∀ q, vex.rest = some q → NearAt sef q

/-- The nails that the rounds of a repetition start at. -/
inductive Rounds (sef : Rule) : Nail → Nail → Prop
  | start (tub : Nail) : Rounds sef tub tub
  | next {tub q b : Nail} {vex : Edge} (hvex : sef tub = pure vex) (hrest : vex.rest = some q)
      (hb : Rounds sef q b) : Rounds sef tub b

/-- A unit as a noun. -/
def unitNoun (u : Option Noun) : Noun := u.elim nul (.cell nul)

namespace Same

variable {α : Type} {x : Deep Noun} {y : Virt Edge}

/-- Both go on with what the same value stands for. -/
theorem through {enc : α → Noun} {z : Virt α} {k : Noun → Deep Noun} {K : α → Virt Edge}
    (h : forget x = enc <$> z) (hk : ∀ a, z = pure a → Same (k (enc a)) (K a)) :
    Same (x >>= k) (z >>= K) := by
  rw [Same, forget_bind, h]
  match z, hk with
  | none, _ => rfl
  | some (.error _), _ => rfl
  | some (.ok a), hk => exact hk a rfl

theorem bind {k : Noun → Deep Noun} {K : Edge → Virt Edge} (h : Same x y)
    (hk : ∀ e, y = pure e → Same (k e.noun) (K e)) : Same (x >>= k) (y >>= K) := through h hk

theorem call {k : Noun → Deep Noun} {K : Noun → Virt Edge} (g : Deep Noun)
    (hk : ∀ n, Same (k n) (K n)) : Same (g >>= k) (forget g >>= K) :=
  through (id_map _).symm fun n _ => hk n

end Same

/-- Near hairs are compared as numbers. -/
theorem last_near {zyc naz : Hair} (hz : NearHair zyc) (hn : NearHair naz) :
    last zyc.noun naz.noun = pure (Hoon.Parse.last zyc naz).noun := by
  have hcat : (!isCat zyc.p || !isCat zyc.q || !isCat naz.p || !isCat naz.q) = false := by
    rw [isCat_iff.mpr hz.1, isCat_iff.mpr hz.2, isCat_iff.mpr hn.1, isCat_iff.mpr hn.2]
    rfl
  simp only [last, Hoon.Parse.last, Hair.noun, biCell, pure_bind, hcat, Bool.false_eq_true,
    if_false]
  split <;> split <;> rfl

section same

variable {f g : Gate} {sef sab : Rule}

theorem fail_same (tub : Nail) : Same (fail tub.noun) (return Hoon.Parse.fail tub) := rfl

theorem next_same (tub : Nail) : Same (next tub.noun) (return Hoon.Parse.next tub) := by
  obtain ⟨p, _ | ⟨i, t⟩⟩ := tub
  · rfl
  · simp only [next, Hoon.Parse.next, Hoon.Parse.lust, slip, Nail.noun, Hair.noun, biCell,
      Hoon.Parse.tapeNoun, List.foldr_cons, pure_bind, Noun.atom.injEq]
    by_cases hi : i = 10
    · subst hi
      rfl
    · rw [if_neg hi, if_neg (Ne.symm hi)]
      rfl

theorem easy_same (huf : Noun) (tub : Nail) :
    Same (easy huf tub.noun) (return Hoon.Parse.easy huf tub) := rfl

theorem just_same (daf : Nat) (tub : Nail) :
    Same (just (.atom daf) tub.noun) (return Hoon.Parse.just daf tub) := by
  obtain ⟨p, _ | ⟨i, t⟩⟩ := tub
  · rfl
  · have hjet : just (.atom daf) (Nail.noun ⟨p, i :: t⟩)
        = if Noun.atom daf = .atom i then next (Nail.noun ⟨p, i :: t⟩)
          else fail (Nail.noun ⟨p, i :: t⟩) := rfl
    rw [hjet]
    simp only [Noun.atom.injEq, Hoon.Parse.just]
    split
    · exact next_same _
    · exact fail_same _

theorem mask_same (bud : List Nat) (tub : Nail) :
    Same (mask (listNoun (bud.map .atom)) tub.noun) (return Hoon.Parse.mask bud tub) := by
  obtain ⟨p, _ | ⟨i, t⟩⟩ := tub
  · rfl
  · have hjet : mask (listNoun (bud.map .atom)) (Nail.noun ⟨p, i :: t⟩)
        = maskLoop (.atom i) (Nail.noun ⟨p, i :: t⟩) (listNoun (bud.map .atom)) := rfl
    rw [hjet]
    clear hjet
    simp only [Hoon.Parse.mask]
    induction bud with
    | nil => exact fail_same _
    | cons a bud ih =>
        simp only [List.map_cons, listNoun, maskLoop, Noun.atom.injEq, List.any_cons,
          Bool.or_eq_true, decide_eq_true_eq]
        by_cases ha : a = i
        · rw [if_pos ha, if_pos (.inl ha.symm)]
          exact next_same _
        · rw [if_neg ha]
          simpa only [Ne.symm ha, false_or] using ih

theorem cold_same (cus : Noun) (hf : Calls f sef) (tub : Nail) :
    Same (cold cus f tub.noun) (Hoon.Parse.cold cus sef tub) := by
  refine (hf tub).bind fun vex _ => ?_
  obtain ⟨p, _ | ⟨n, q⟩⟩ := vex <;> rfl

theorem cook_same (poq : Gate) (hf : Calls f sef) (tub : Nail) :
    Same (cook poq f tub.noun) (Hoon.Parse.cook (fun n => forget (poq n)) sef tub) := by
  refine (hf tub).bind fun vex _ => ?_
  obtain ⟨p, _ | ⟨n, q⟩⟩ := vex
  · rfl
  · exact .call (poq n) fun m => rfl

theorem here_same (hez : Gate) (hf : Calls f sef) (tub : Nail) :
    Same (here hez f tub.noun) (Hoon.Parse.here (fun n => forget (hez n)) sef tub) := by
  refine (hf tub).bind fun vex _ => ?_
  obtain ⟨p, _ | ⟨n, q⟩⟩ := vex
  · rfl
  · exact .call (hez _) fun m => rfl

theorem stag_same (gob : Noun) (hf : Calls f sef) (tub : Nail) :
    Same (stag gob f tub.noun) (Hoon.Parse.stag gob sef tub) := by
  refine (hf tub).bind fun vex _ => ?_
  obtain ⟨p, _ | ⟨n, q⟩⟩ := vex <;> rfl

/-! Two traces, the farther of which goes on. -/

theorem Same.last {zyc naz : Hair} {k : Noun → Deep Noun} {y : Virt Edge} (hz : NearHair zyc)
    (hn : NearHair naz) (h : Same (k (Hoon.Parse.last zyc naz).noun) y) :
    Same (Parse.last zyc.noun naz.noun >>= k) y := by
  rw [last_near hz hn]
  exact h

variable {vex : Edge}

theorem bend_same (raq : Gate) (un : Noun → Virt (Option Noun))
    (hraq : ∀ n, forget (raq n) = unitNoun <$> un n) (hv : NearHair vex.p) (hf : Calls f sef)
    (hn : NearAfter vex sef) (tub : Nail) :
    Same (bend raq vex.noun f) (Hoon.Parse.bend un vex ⟨tub, sef⟩) := by
  obtain ⟨p, _ | ⟨n, q⟩⟩ := vex
  · rfl
  · refine (hf q).bind fun yit hy => ?_
    have hnear := hn q rfl yit hy
    obtain ⟨py, _ | ⟨m, q'⟩⟩ := yit
    · exact .last hv hnear rfl
    · refine .last hv hnear ?_
      refine .through (hraq _) fun u _ => ?_
      cases u <;> rfl

theorem comp_same (raq : Gate) (hv : NearHair vex.p) (hf : Calls f sef)
    (hn : NearAfter vex sef) (tub : Nail) :
    Same (comp raq vex.noun f)
      (Hoon.Parse.comp (fun a b => forget (raq (.cell a b))) vex ⟨tub, sef⟩) := by
  obtain ⟨p, _ | ⟨n, q⟩⟩ := vex
  · rfl
  · refine (hf q).bind fun yit hy => ?_
    have hnear := hn q rfl yit hy
    obtain ⟨py, _ | ⟨m, q'⟩⟩ := yit
    · exact .last hv hnear rfl
    · refine .last hv hnear ?_
      exact .call _ fun u => rfl

theorem pfix_same (hv : NearHair vex.p) (hf : Calls f sef) (hn : NearAfter vex sef) (tub : Nail) :
    Same (pfix vex.noun f) (Hoon.Parse.pfix vex ⟨tub, sef⟩) := by
  obtain ⟨p, _ | ⟨n, q⟩⟩ := vex
  · rfl
  · refine (hf q).bind fun yit hy => ?_
    have hnear := hn q rfl yit hy
    obtain ⟨py, _ | ⟨m, q'⟩⟩ := yit
    · exact .last hv hnear rfl
    · exact .last hv hnear rfl

theorem sfix_same (hv : NearHair vex.p) (hf : Calls f sef) (hn : NearAfter vex sef) (tub : Nail) :
    Same (sfix vex.noun f) (Hoon.Parse.sfix vex ⟨tub, sef⟩) := by
  obtain ⟨p, _ | ⟨n, q⟩⟩ := vex
  · rfl
  · refine (hf q).bind fun yit hy => ?_
    have hnear := hn q rfl yit hy
    obtain ⟨py, _ | ⟨m, q'⟩⟩ := yit
    · exact .last hv hnear rfl
    · exact .last hv hnear rfl

theorem plug_same (hv : NearHair vex.p) (hf : Calls f sef) (hn : NearAfter vex sef) (tub : Nail) :
    Same (plug vex.noun f) (Hoon.Parse.plug vex ⟨tub, sef⟩) := by
  obtain ⟨p, _ | ⟨n, q⟩⟩ := vex
  · rfl
  · refine (hf q).bind fun yit hy => ?_
    have hnear := hn q rfl yit hy
    obtain ⟨py, _ | ⟨m, q'⟩⟩ := yit
    · exact .last hv hnear rfl
    · exact .last hv hnear rfl

theorem pose_same (hv : NearHair vex.p) (hf : Calls f sef) {tub : Nail}
    (hn : vex.rest = none → NearAt sef tub) :
    Same (pose vex.noun (f tub.noun)) (Hoon.Parse.pose vex ⟨tub, sef⟩) := by
  obtain ⟨p, _ | ⟨n, q⟩⟩ := vex
  · refine (hf tub).bind fun roq hr => ?_
    exact .last hv (hn rfl roq hr) rfl
  · rfl

theorem NearHair.last {zyc naz : Hair} (hz : NearHair zyc) (hn : NearHair naz) :
    NearHair (Hoon.Parse.last zyc naz) := by
  rw [Hoon.Parse.last]
  split <;> split <;> assumption

/-- The arm runs the second rule with the third, and compares the traces from that end. -/
theorem last_assoc (a b c : Hair) :
    Hoon.Parse.last (Hoon.Parse.last a b) c = Hoon.Parse.last a (Hoon.Parse.last b c) := by
  rw [Hoon.Parse.last_eq_max, Hoon.Parse.last_eq_max, Hoon.Parse.last_eq_max,
    Hoon.Parse.last_eq_max, max_assoc]

theorem glue_same (hv : NearHair vex.p) (hf : Calls f sef) (hn : NearAfter vex sef) (hg : Calls g sab)
    (hm : ∀ q yit, vex.rest = some q → sef q = pure yit → NearAfter yit sab) (tub : Nail) :
    Same (glue f vex.noun g) (Hoon.Parse.glue sef vex ⟨tub, sab⟩) := by
  obtain ⟨p, _ | ⟨n, q⟩⟩ := vex
  · rfl
  · change Same (glue f _ g) ((sef q >>= fun yit => Hoon.Parse.pfix yit ⟨q, sab⟩) >>= _)
    rw [bind_assoc]
    refine (hf q).bind fun yit hy => ?_
    have hnear := hn q rfl yit hy
    have hafter := hm q yit rfl hy
    obtain ⟨py, _ | ⟨m, q'⟩⟩ := yit
    · exact .last hv hnear rfl
    · refine .last hv hnear ?_
      change Same _ ((sab q' >>= _) >>= _)
      rw [bind_assoc]
      refine (hg q').bind fun wam hw => ?_
      have hfar := hafter q' rfl wam hw
      obtain ⟨pw, _ | ⟨l, q''⟩⟩ := wam
      · refine .last (hv.last hnear) hfar ?_
        rw [last_assoc]
        rfl
      · refine .last (hv.last hnear) hfar ?_
        rw [last_assoc]
        rfl

/-- Every round's trace is that of the rule, or the farther of two. -/
theorem near_stirs {rud : Noun} {raq : Noun → Virt Noun} {tub : Nail}
    (hn : ∀ b, Rounds sef tub b → NearAt sef b) (n : Nat) :
    NearAt (Hoon.Parse.stirs rud raq sef n) tub := by
  induction n generalizing tub with
  | zero => exact fun e h => absurd h nofun
  | succ n ih =>
      intro e h
      obtain ⟨vex, hv, ⟨-, he⟩ | ⟨q, wag, hq, hw, hp, -⟩⟩ := Hoon.Parse.stir_cases h
      · rw [he]
        exact hn tub (.start tub) vex hv
      · rw [hp]
        exact (hn tub (.start tub) vex hv).last (ih (fun b hb => hn b (.next hv hq hb)) wag hw)

theorem stir_same (rud : Noun) (raq : Gate) (hf : Calls f sef) (n : Nat) {tub : Nail}
    (hn : ∀ b, Rounds sef tub b → NearAt sef b) :
    Same (stir rud raq f n tub.noun)
      (Hoon.Parse.stirs rud (fun m => forget (raq m)) sef n tub) := by
  induction n generalizing tub with
  | zero => rfl
  | succ n ih =>
      refine (hf tub).bind fun vex hv => ?_
      have hnear := hn tub (.start tub) vex hv
      obtain ⟨p, _ | ⟨m, q⟩⟩ := vex
      · rfl
      · have hq : ∀ b, Rounds sef q b → NearAt sef b := fun b hb => hn b (.next hv rfl hb)
        refine (ih hq).bind fun wag hw => ?_
        have hfar := near_stirs hq n wag hw
        obtain ⟨pw, _ | ⟨m', q'⟩⟩ := wag
        · rfl
        · refine .last hnear hfar ?_
          exact .call _ fun u => rfl

theorem shim_same {les mos : Nat} (hles : les < 2 ^ 31) (hmos : mos < 2 ^ 31) {tub : Nail}
    (ht : ∀ i ∈ tub.q, i < 2 ^ 31) :
    Same (shim (.cell (.atom les) (.atom mos)) tub.noun) (return Hoon.Parse.shim les mos tub) := by
  obtain ⟨p, _ | ⟨i, t⟩⟩ := tub
  · rfl
  · have hjet : shim (.cell (.atom les) (.atom mos)) (Nail.noun ⟨p, i :: t⟩)
        = if isCat les && isCat mos && isCat i then
            if i ≥ les ∧ i ≤ mos then next (Nail.noun ⟨p, i :: t⟩)
            else fail (Nail.noun ⟨p, i :: t⟩)
          else throw .fail := rfl
    rw [hjet, isCat_iff.mpr hles, isCat_iff.mpr hmos, isCat_iff.mpr (ht i List.mem_cons_self)]
    simp only [Bool.and_self, if_true, Hoon.Parse.shim]
    split
    · exact next_same _
    · exact fail_same _

end same

/-! ### The tree of `stew` -/

/-- The characters of a key are cats. -/
def NearKey (p : Key) : Prop := p.low < 2 ^ 31 ∧ p.high < 2 ^ 31

/-- The tree as a noun. -/
def helNoun {β : Type} (gate : β → Noun) : Treap Key β → Noun
  | .nil => nul
  | .node pn qn l r => trel (.cell pn.noun (gate qn)) (helNoun gate l) (helNoun gate r)

section stew

variable {β : Type} {gate : β → Noun} {mong : Noun → Gate} {slam : β → Rule}

/-- The jet finds what the arm finds. -/
theorem stewLoop_eq {hel : Treap Key β} (hkeys : Treap.AllKeys NearKey hel) (tub : Noun)
    {i : Nat} :
    stewLoop mong tub i (helNoun gate hel)
      = (Hoon.Parse.stewFind i hel).elim (fail tub) fun q => mong (gate q) tub := by
  induction hel with
  | nil => rfl
  | node pn qn l r ihl ihr =>
      obtain ⟨hp, hl, hr⟩ := hkeys
      have ihl := ihl hl
      have ihr := ihr hr
      rw [Hoon.Parse.stewFind]
      cases pn with
      | one p =>
          have hcat : isCat p = true := isCat_iff.mpr hp.1
          simp only [helNoun, trel, Key.noun, stewLoop, stewWor, hcat, ihl, ihr, Key.has,
            Hoon.Parse.wor, decide_eq_true_eq, eq_comm (a := p), Bool.not_true,
            Bool.false_eq_true, if_false, pure_bind]
          split
          · rfl
          · split <;> rfl
      | two p q =>
          have hcat : isCat p = true := isCat_iff.mpr hp.1
          have hcat' : isCat q = true := isCat_iff.mpr hp.2
          simp only [helNoun, trel, Key.noun, stewLoop, stewWor, hcat, hcat', ihl, ihr, Key.has,
            Hoon.Parse.wor, decide_eq_true_eq, Bool.not_true, Bool.or_self, Bool.false_eq_true,
            if_false, pure_bind]
          split
          · rfl
          · split <;> rfl

theorem stew_same (mug : Noun → Nat) {leh : List (Key × β)}
    (hcall : ∀ b, Calls (mong (gate b)) (slam b)) (hkeys : ∀ i ∈ leh, NearKey i.1) {tub : Nail}
    (ht : ∀ i ∈ tub.q, i < 2 ^ 31) :
    Same (stew mong (helNoun gate (Hoon.Parse.stewTree mug leh)) tub.noun)
      (Hoon.Parse.stew mug slam leh tub) := by
  obtain ⟨p, _ | ⟨i, t⟩⟩ := tub
  · rfl
  · have hjet : stew mong (helNoun gate (Hoon.Parse.stewTree mug leh)) (Nail.noun ⟨p, i :: t⟩)
        = if !isCat i then throw .fail
          else stewLoop mong (Nail.noun ⟨p, i :: t⟩) i
            (helNoun gate (Hoon.Parse.stewTree mug leh)) := rfl
    rw [hjet, isCat_iff.mpr (ht i List.mem_cons_self), if_neg (by decide),
      stewLoop_eq (Hoon.Parse.allKeys_stewTree hkeys), Hoon.Parse.stew_cons]
    cases Hoon.Parse.stewFind i (Hoon.Parse.stewTree mug leh) with
    | none => exact fail_same _
    | some q => exact hcall q _

end stew

/-- The jets come to the edges of their arms, if the traces that they meet, the characters, and
the bounds and keys they are compared with are all cats. -/
theorem parse_jets :
    (∀ (tub : Nail) (huf : Noun) (daf : Nat) (bud : List Nat),
      Same (easy huf tub.noun) (return Hoon.Parse.easy huf tub) ∧
      Same (just (.atom daf) tub.noun) (return Hoon.Parse.just daf tub) ∧
      Same (mask (listNoun (bud.map .atom)) tub.noun) (return Hoon.Parse.mask bud tub)) ∧
    (∀ (tub : Nail) (les mos : Nat), les < 2 ^ 31 → mos < 2 ^ 31 → (∀ i ∈ tub.q, i < 2 ^ 31) →
      Same (shim (.cell (.atom les) (.atom mos)) tub.noun)
        (return Hoon.Parse.shim les mos tub)) ∧
    (∀ (tub : Nail) (mug : Noun → Nat) (β : Type) (gate : β → Noun) (mong : Noun → Gate)
      (slam : β → Rule) (leh : List (Key × β)), (∀ b, Calls (mong (gate b)) (slam b)) →
      (∀ i ∈ leh, NearKey i.1) → (∀ i ∈ tub.q, i < 2 ^ 31) →
      Same (stew mong (helNoun gate (Hoon.Parse.stewTree mug leh)) tub.noun)
        (Hoon.Parse.stew mug slam leh tub)) ∧
    (∀ (tub : Nail) (f : Gate) (sef : Rule), Calls f sef → ∀ (n : Noun) (g : Gate),
      Same (cold n f tub.noun) (Hoon.Parse.cold n sef tub) ∧
      Same (cook g f tub.noun) (Hoon.Parse.cook (fun n => forget (g n)) sef tub) ∧
      Same (here g f tub.noun) (Hoon.Parse.here (fun n => forget (g n)) sef tub) ∧
      Same (stag n f tub.noun) (Hoon.Parse.stag n sef tub)) ∧
    (∀ (tub : Nail) (f : Gate) (sef : Rule), Calls f sef →
      (∀ b, Rounds sef tub b → NearAt sef b) → ∀ (rud : Noun) (raq : Gate) (rounds : Nat),
        Same (stir rud raq f rounds tub.noun)
          (Hoon.Parse.stirs rud (fun m => forget (raq m)) sef rounds tub)) ∧
    (∀ (tub : Nail) (vex : Edge) (f : Gate) (sef : Rule), NearHair vex.p → Calls f sef →
      NearAfter vex sef →
      (∀ (raq : Gate) (un : Noun → Virt (Option Noun)),
        (∀ n, forget (raq n) = unitNoun <$> un n) →
        Same (bend raq vex.noun f) (Hoon.Parse.bend un vex ⟨tub, sef⟩)) ∧
      (∀ raq : Gate, Same (comp raq vex.noun f)
        (Hoon.Parse.comp (fun a b => forget (raq (.cell a b))) vex ⟨tub, sef⟩)) ∧
      Same (pfix vex.noun f) (Hoon.Parse.pfix vex ⟨tub, sef⟩) ∧
      Same (plug vex.noun f) (Hoon.Parse.plug vex ⟨tub, sef⟩) ∧
      Same (sfix vex.noun f) (Hoon.Parse.sfix vex ⟨tub, sef⟩)) ∧
    (∀ (tub : Nail) (vex : Edge) (f : Gate) (sef : Rule), NearHair vex.p → Calls f sef →
      (vex.rest = none → NearAt sef tub) →
      Same (pose vex.noun (f tub.noun)) (Hoon.Parse.pose vex ⟨tub, sef⟩)) ∧
    ∀ (tub : Nail) (vex : Edge) (f g : Gate) (sef bus : Rule), NearHair vex.p → Calls f sef →
      Calls g bus → NearAfter vex bus →
      (∀ q yit, vex.rest = some q → bus q = pure yit → NearAfter yit sef) →
      Same (glue g vex.noun f) (Hoon.Parse.glue bus vex ⟨tub, sef⟩) := by
  refine ⟨fun tub huf daf bud => ⟨easy_same huf tub, just_same daf tub, mask_same bud tub⟩,
    fun tub les mos hles hmos ht => shim_same hles hmos ht,
    fun tub mug β gate mong slam leh hcall hkeys ht => stew_same mug hcall hkeys ht,
    fun tub f sef hf n g => ⟨cold_same n hf tub, cook_same g hf tub, here_same g hf tub,
      stag_same n hf tub⟩,
    fun tub f sef hf hn rud raq rounds => stir_same rud raq hf rounds hn,
    fun tub vex f sef hv hf hn => ⟨fun raq un hraq => bend_same raq un hraq hv hf hn tub,
      fun raq => comp_same raq hv hf hn tub, pfix_same hv hf hn tub, plug_same hv hf hn tub,
      sfix_same hv hf hn tub⟩,
    fun tub vex f sef hv hf hn => pose_same hv hf hn,
    fun tub vex f g sef bus hv hf hg hn hm => glue_same hv hg hn hf hm tub⟩

/-- `;~((glue dot) (just 'a') (just 'b'))` on `a.b`: the jet comes to the edge that the arm comes to,
at the end of the text. -/
theorem parse_jets_glue :
    Same (glue (just (.atom 46)) (Hoon.Parse.just 97 ⟨⟨1, 1⟩, [97, 46, 98]⟩).noun (just (.atom 98)))
      (pure ⟨⟨1, 4⟩, some (.cell (.atom 97) (.atom 98), ⟨⟨1, 4⟩, []⟩)⟩) := by
  have hnear : ∀ {d : Nat} {tub : Nail}, NearHair (Hoon.Parse.just d tub).p →
      NearAt (fun tub => return Hoon.Parse.just d tub) tub := by
    intro d tub hp e he
    obtain rfl := Virt.pure_inj.mp he
    exact hp
  refine parse_jets.2.2.2.2.2.2.2 ⟨⟨1, 1⟩, [97, 46, 98]⟩
    (Hoon.Parse.just 97 ⟨⟨1, 1⟩, [97, 46, 98]⟩) (just (.atom 98)) (just (.atom 46))
    (fun tub => return Hoon.Parse.just 98 tub) (fun tub => return Hoon.Parse.just 46 tub)
    ⟨by decide, by decide⟩ (just_same 98) (just_same 46) ?_ ?_
  · rintro q hq
    obtain rfl := Option.some.inj hq
    exact hnear ⟨by decide, by decide⟩
  · rintro q yit hq hy q' hq'
    obtain rfl := Option.some.inj hq
    obtain rfl := Virt.pure_inj.mp hy
    obtain rfl := Option.some.inj hq'
    exact hnear ⟨by decide, by decide⟩

/-- A range up to `2^31`: the arm takes an `a`, and the jet gives up. -/
theorem shim_far_bound :
    ¬∀ (les mos : Nat) (tub : Nail), NearHair tub.p → (∀ i ∈ tub.q, i < 2 ^ 31) →
      Same (shim (.cell (.atom les) (.atom mos)) tub.noun)
        (return Hoon.Parse.shim les mos tub) := by
  intro h
  have hsame := h 0 (2 ^ 31) ⟨⟨1, 1⟩, [97]⟩ ⟨by decide, by decide⟩ (by simp)
  cases hsame

end Vere.Jets.Parse
