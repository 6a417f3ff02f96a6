import Mathlib.Data.Nat.Digits.Lemmas
import Vere.Hoon.Cord
import Vere.Hoon.Rule

/-!
# Vere.Hoon.Digits

Numbers in text (`hoon.hoon`, section 2eL): the rules of `++ab` and `++ag` for decimal and
hexadecimal numerals.
-/

namespace Vere.Hoon

open Vere.Lib Vere.Lib.Rule Glyph

/-! ### Rules for digits -/

def sed : Rule Nat Nat := cook (fun a => a - '0'.toNat) (shim '1' '9')
def sid : Rule Nat Nat := cook (fun a => a - '0'.toNat) (shim '0' '9')
def sox : Rule Nat Nat := cook (fun a => a - 87) (shim 'a' 'f')
def sex : Rule Nat Nat := pose sed sox
def six : Rule Nat Nat := pose sid sox

/-- The first of the groups in `++ab`, such as `qex`. -/
def leadGroup (bas gop : Nat) (lead dig : Rule Nat Nat) : Rule Nat Nat :=
  bass bas (cons lead (stun dig 0 (gop - 1)))

/-- The other groups in `++ab`, such as `qix`. -/
def restGroup (bas gop : Nat) (dig : Rule Nat Nat) : Rule Nat Nat := bass bas (stun dig gop gop)

def qex : Rule Nat Nat := leadGroup 16 4 sex hit
def qix : Rule Nat Nat := restGroup 16 4 six

/-- `ape` of `++ag`. -/
def ape (fel : Rule Nat Nat) : Rule Nat Nat := pose (cold 0 (just '0')) fel

/-- Groups with dots between, in `++ag`, such as `hex`. -/
def groups (wuc : Nat) (lead rest : Rule Nat Nat) : Rule Nat Nat :=
  ape (bass wuc (cons lead (star (pfix dog rest))))

def hex : Rule Nat Nat := groups 0x10000 qex qix
def dim : Rule Nat Nat := ape (bass 10 (cons sed (star sid)))

section reads

variable {s : Tape}

theorem ape_zero (fel : Rule Nat Nat) (s : Tape) : ape fel (48 :: s) = .done 0 s := by
  simp [ape, pose, cold, cook]

theorem ape_ne {fel : Rule Nat Nat} {c : Nat} (hc : c ≠ 48) : ape fel (c :: s) = fel (c :: s) := by
  simp [ape, pose, cold, cook, hc.symm]

end reads

end Vere.Hoon
