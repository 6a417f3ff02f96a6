import Vere.Jets.Bits
import Vere.Lib.Ask
import Vere.Ut.Nest

/-!
# Vere.Jets.Nest

The jet of `+-nest:ut`, `gen164/6/ut_nest.c`, with `gen164/6/fitz.c`.

The functions of the jet call each other through `_nest_dext`, which a cache stands in front
of, so they are written as programs that ask for its answers.
-/

namespace Vere.Jets

open Vere.Hoon Vere.Lib

open Ut (Ty Foot Arms Metal Van Gil)

/-! ### Auras -/

/-- `u2_byte`. -/
def u2Byte (a b : Nat) : Nat := b / 2 ^ (8 * a) % 256

/-- A byte, or 0 in place of a capital. -/
def smallByte (i a : Nat) : Nat :=
  let y := u2Byte i a
  if 'A'.toNat ≤ y ∧ y ≤ 'Z'.toNat then 0 else y

/-- The last byte if it is a capital, else 0. -/
def lastCapital (a : Nat) : Nat :=
  let w := u2Met 3 a
  let y := if w = 0 then 0 else u2Byte (w - 1) a
  if y < 'A'.toNat ∨ 'Z'.toNat < y then 0 else y

/-- `_fitz_fiz`. -/
def fitzFiz (yaz wix : Nat) : Bool :=
  let yazY := lastCapital yaz
  let wixY := lastCapital wix
  if yazY ≠ 0 ∧ wixY ≠ 0 then !(wixY = 0 || yazY < wixY) else true

/-- The loop of `fitz`, `n` bytes from the `i`th on. -/
def fitzBytes (yaz wix : Nat) : Nat → Nat → Bool
  | 0, _ => true
  | n + 1, i =>
      let yazY := smallByte i yaz
      let wixY := smallByte i wix
      if yazY ≠ 0 ∧ wixY ≠ 0 ∧ yazY ≠ wixY then false else fitzBytes yaz wix n (i + 1)

/-- `fitz`. -/
def fitz (yaz wix : Nat) : Bool :=
  if !fitzFiz yaz wix then false else fitzBytes yaz wix (min (u2Met 3 yaz) (u2Met 3 wix)) 0

/-! ### The functions of the jet -/

section asks

variable {Q : Type} {R : Q → Type}

/-- `u2_and`. -/
def u2And (x y : Ask Q R Bool) : Ask Q R Bool := do
  if ← x then y else return false

/-- `u2_or`. -/
def u2Or (x y : Ask Q R Bool) : Ask Q R Bool := do
  if ← x then return true else y

section cram

variable (van : Van) (dext : Ty → Ty → Ask Q R Bool) (sut ref : Ty)

/-- The feet of one name in `_nest_cram`. -/
def nestFoot (q q' : Foot) : Ask Q R Bool :=
  match q with
  | .ash p =>
      match q' with
      | .ash p' => do
          let vis ← .stop (van.play sut p)
          let lon ← .stop (van.play ref p')
          dext vis lon
      | _ => return false
  | .elm _ => return q = q'
  | _ => .stop (throw ())

/-- `_nest_cram`. -/
def nestCram : Arms → Arms → Ask Q R Bool
  | .nil, hem => return hem = .nil
  | .node .., .nil => return false
  | .node p q l r, .node p' q' l' r' =>
      u2And (nestCram l l') (u2And (nestCram r r')
        (if p ≠ p' then return false else nestFoot van dext sut ref q q'))

end cram

variable (van : Van) (dext : Bool → Gil → Ty → Ty → Ask Q R Bool) (tel : Bool) (gil : Gil)

/-- The end of `_nest_cong`. -/
def nestMetal (metal : Metal) (q q' : Ty) : Ask Q R Bool :=
  match metal with
  | .gold => u2And (dext tel gil q q') (dext tel gil q' q)
  | .iron => do
      let s ← .stop (van.peek q .rite 2)
      let r ← .stop (van.peek q' .rite 2)
      dext tel gil r s
  | .lead => return true
  | .zinc => do
      let s ← .stop (van.peek q .read 2)
      let r ← .stop (van.peek q' .read 2)
      dext tel gil s r

/-- `_nest_cong`, of the cores `[%core p metal q bat arms]` and `[%core p' metal' q' bat' arms']`. -/
def nestCong (p : Ty) (metal : Metal) (q : Ty) (bat : Noun) (arms : Arms) (p' : Ty) (metal' : Metal)
    (q' : Ty) (bat' : Noun) (arms' : Arms) : Ask Q R Bool :=
  if metal = metal' ∧ q = q' ∧ bat = bat' ∧ arms = arms' then dext tel gil p p'
  else
    u2And (dext tel gil q p) (u2And (dext tel gil p q) (u2And (dext tel gil q' p')
      (if metal ≠ metal' ∧ metal' ≠ .gold then return false
      else
        let hud := (Ty.core p metal q bat arms, Ty.core p' metal' q' bat' arms')
        if hud ∈ gil then return true
        else
          u2And (nestCram van (dext tel (hud :: gil)) (.core q metal q bat arms)
              (.core q' metal' q' bat' arms') arms arms')
            (nestMetal van dext tel gil metal q q'))))

/-- `_nest_sint`. -/
def nestSint (sut ref : Ty) : Ask Q R Bool :=
  match ref with
  | .noun => return false
  | .void => return true
  | .atom _ => return false
  | .bull _ _ _ _ q => dext tel gil sut q
  | .cell _ _ => return false
  | .core .. => do
      let gam ← .stop (Ut.repo van ref)
      dext tel gil sut gam
  | .cube _ q => dext tel gil sut q
  | .face _ q => dext tel gil sut q
  | .fork p q => u2And (dext false gil sut p) (dext false gil sut q)
  | .hold _ =>
      if (sut, ref) ∈ gil then return true
      else do
        let gam ← .stop (Ut.repo van ref)
        dext tel ((sut, ref) :: gil) sut gam

/-- `_nest_dext_in`. -/
def nestDextIn (sut ref : Ty) : Ask Q R Bool :=
  match sut with
  | .noun => return true
  | .void => nestSint van dext tel gil sut ref
  | .atom p =>
      match ref with
      | .atom q => if !fitz p q then return false else return true
      | _ => nestSint van dext tel gil sut ref
  | .bull _ _ _ _ q => dext tel gil q ref
  | .cell p q =>
      match ref with
      | .cell p' q' => u2And (dext tel gil p p') (dext tel gil q q')
      | _ => nestSint van dext tel gil sut ref
  | .core p metal q bat arms =>
      match ref with
      | .core p' metal' q' bat' arms' =>
          nestCong van dext tel gil p metal q bat arms p' metal' q' bat' arms'
      | _ => nestSint van dext tel gil sut ref
  | .cube p _ =>
      match ref with
      | .cube p' _ => return p = p'
      | _ => nestSint van dext tel gil sut ref
  | .face _ q => dext tel gil q ref
  | .fork p q =>
      match ref with
      | .noun | .atom _ | .cell _ _ | .cube _ _ | .core .. =>
          u2Or (dext false gil p ref) (dext false gil q ref)
      | _ => nestSint van dext tel gil sut ref
  | .hold p =>
      if (sut, ref) ∈ gil then return true
      else do
        let fop ← .stop (van.rest p)
        dext tel ((sut, ref) :: gil) fop ref

/-- `_nest_dext_to`. -/
def nestDextTo (sut ref : Ty) : Ask Q R Bool := do
  let tyn ← nestDextIn van dext tel gil sut ref
  if tyn = true ∨ tel = false then return tyn else .stop (throw ())

/-- `_nest_dext`, without its cache. -/
def nestDext (sut ref : Ty) : Ask Q R Bool :=
  if sut = ref then return true else nestDextTo van dext tel gil sut ref

/-- The end of `_nest_dext_to` is that of the arm. -/
theorem run_dextTo {rec : ∀ q, Virt (R q)} (sut ref : Ty) :
    (nestDextTo van dext tel gil sut ref).run rec
      = (nestDextIn van dext tel gil sut ref).run rec >>= Ut.telCheck tel := by
  rw [nestDextTo, Ask.run_bind]
  congr 1
  funext tyn
  unfold Ut.telCheck
  split <;> rfl

end asks

/-- What `_nest_dext` is asked. -/
structure NestQ where
  tel : Bool
  gil : Gil
  sut : Ty
  ref : Ty
  deriving DecidableEq

/-- `_nest_dext` as a recursion. -/
def nestBody (van : Van) (q : NestQ) : Ask NestQ (fun _ => Bool) Bool :=
  nestDext van (fun tel gil sut ref => .call ⟨tel, gil, sut, ref⟩) q.tel q.gil q.sut q.ref

/-- A compiler core that expands nothing. -/
def flatVan : Van := ⟨fun _ => throw (), fun _ _ => throw (), fun _ _ _ => throw ()⟩

end Vere.Jets
