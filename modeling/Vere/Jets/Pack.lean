import Vere.Jets.BitsSpec
import Vere.Jets.Nash

/-!
# Vere.Jets.Pack

The packing jets, `gen164/5/mat.c`, `rub.c`, `jam.c` and `cue.c`.

The C packers keep their dictionaries in the tables `T_m` and `T_r`, which are
global and filled in place; here they are threaded. `jam` collects its output as
a list of pieces, last piece first, and joins them with one `can` at the end.
-/

namespace Vere.Jets

open Vere.Lib

/-- `mat`. -/
def mat (a : Nat) : Jet (Nat × Nat) :=
  if a = 0 then .ok (1, 1)
  else do
    let b := met 0 a
    let c := met 0 b
    let u ← dec c
    let v := c + c
    let w ← bex c
    let x ← «end» 0 u b
    let y ← lsh 0 u a
    let z ← mix x y
    let q ← cat 0 w z
    return (v + b, q)

/-- The loop of `rub`: find a set bit from `x` on, exiting past `m`. -/
def rubLoop (b m x : Nat) : Jet Nat :=
  match cut 0 x 1 b with
  | .error e => .error e
  | .ok z =>
      if z = 0 then
        if m < x then .error .exit else rubLoop b m (x + 1)
      else .ok x
termination_by m + 1 - x

/-- `rub`. -/
def rub (a b : Nat) : Jet (Nat × Nat) := do
  -- what `u2_met` returns is handed on as a noun: from `2^31` on the word is a reference
  let m ← if isCat (u2Met 0 b) then .ok (a + u2Met 0 b) else .error .fault
  let x ← rubLoop b m a
  if x = a then return (1, 0)
  let c ← sub x a
  let d := x + 1
  let x ← dec c
  let y ← bex x
  let z ← cut 0 d x b
  let e := y + z
  let w := c + c
  let q ← cut 0 (d + x) e b
  return (w + e, q)

/-! ### `jam` -/

/-- `_jam_in_flat`. -/
def jamInFlat (a : Nat) (l : List (Nat × Nat)) : Jet (Nat × List (Nat × Nat)) := do
  let d ← mat a
  let x := 1 + d.1
  let y ← lsh 0 1 d.2
  return (x, (x, y) :: l)

/-- `_jam_in_ptr`. -/
def jamInPtr (c : Nat) (l : List (Nat × Nat)) : Jet (Nat × List (Nat × Nat)) := do
  let d ← mat c
  let x ← lsh 0 2 d.2
  let y := 2 + d.1
  let z ← mix 3 x
  return (y, (y, z) :: l)

/-- What `_jam_in` returns, with the table it leaves. -/
structure JamIn where
  p : Nat
  l : List (Nat × Nat)
  tm : Nash Nat

/-- `_jam_in`, with `_jam_in_pair` in place. -/
def jamIn (mug : Noun → Nat) (a : Noun) (b : Nat) (l : List (Nat × Nat)) (tm : Nash Nat) :
    Jet JamIn :=
  match tm.get mug a with
  | none =>
      match a with
      | .atom x => do
          let r ← jamInFlat x l
          return ⟨r.1, r.2, tm.put mug a b⟩
      | .cell h t => do
          let x := 2 + b
          let d ← jamIn mug h x ((2, 1) :: l) (tm.put mug a b)
          let e ← jamIn mug t (x + d.p) d.l d.tm
          return ⟨2 + (d.p + e.p), e.l, e.tm⟩
  | some c =>
      match a with
      | .atom x =>
          if u2Met 0 x ≤ u2Met 0 c then do
            let r ← jamInFlat x l
            return ⟨r.1, r.2, tm⟩
          else do
            let r ← jamInPtr c l
            return ⟨r.1, r.2, tm⟩
      | .cell _ _ => do
          let r ← jamInPtr c l
          return ⟨r.1, r.2, tm⟩

/-- `jam`: the pieces are collected last first, so `flop` comes before `can`. -/
def jam (mug : Noun → Nat) (a : Noun) : Jet Nat := do
  let x ← jamIn mug a 0 [] Nash.make
  can 0 x.l.reverse

/-! ### `cue` -/

/-- What `_cue_in` returns, with the table it leaves. -/
structure CueIn where
  p : Nat
  q : Noun
  tr : Nash Noun

/-- `cut` finds nothing past the end. -/
theorem lt_of_cut_bit {a b z : Nat} (h : cut 0 b 1 a = .ok z) (hz : ¬z = 0) :
    b < u2Met 0 a := by
  by_contra hb
  have hle : u2Met 0 a ≤ b := Nat.le_of_not_lt hb
  rw [cut, if_neg (by decide)] at h
  by_cases hcat : (!isCat b) = true
  · rw [if_pos hcat] at h
    exact hz (Except.ok.inj h).symm
  · rw [if_neg hcat] at h
    simp only [hle, or_true, if_true] at h
    exact hz (Except.ok.inj h).symm

/-- `_cue_in`. -/
def cueIn (mug : Noun → Nat) (a b : Nat) (tr : Nash Noun) : Jet CueIn :=
  match _ : cut 0 b 1 a with
  | .error e => .error e
  | .ok z =>
      if _ : z = 0 then do
        let c ← rub (b + 1) a
        return ⟨c.1 + 1, .atom c.2, tr.put mug (.atom b) (.atom c.2)⟩
      else do
        let c := 2 + b
        let z ← cut 0 (b + 1) 1 a
        if z = 0 then
          let u ← cueIn mug a c tr
          let v ← cueIn mug a (u.p + c) u.tr
          let w := Noun.cell u.q v.q
          return ⟨2 + (u.p + v.p), w, v.tr.put mug (.atom b) w⟩
        else
          let d ← rub c a
          match tr.get mug (.atom d.2) with
          | none => .error .exit
          | some x => return ⟨2 + d.1, x, tr⟩
termination_by u2Met 0 a - b
decreasing_by
  · have := lt_of_cut_bit ‹_› ‹_›
    omega
  · have := lt_of_cut_bit ‹_› ‹_›
    omega

/-- `cue`. -/
def cue (mug : Noun → Nat) (a : Nat) : Jet Noun := do
  let x ← cueIn mug a 0 Nash.make
  return x.q

end Vere.Jets
