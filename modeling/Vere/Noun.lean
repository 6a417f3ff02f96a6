import Mathlib.Algebra.Ring.Nat
import Mathlib.Data.Nat.Size

/-!
# Vere.Noun

The value every layer of the system works on.

A noun is an atom (a natural number) or an ordered pair of nouns. The C side
keeps a noun in one 32-bit word: a *cat* is an atom below `2^31` held in the
word itself, anything else is a *dog*, a tagged offset into the loom. Layout,
reference counts and the loom's capacity are left out; what is kept of the
representation is which atoms are cats, because the jets branch on it.
-/

namespace Vere

/-- A noun: an atom or a cell. -/
inductive Noun
  | atom (a : Nat)
  | cell (h t : Noun)
  deriving Repr, DecidableEq, Inhabited

namespace Noun

/-- Number of atoms and cells in the tree. -/
def size : Noun → Nat
  | atom _ => 1
  | cell h t => h.size + t.size + 1

theorem size_head_lt (h t : Noun) : h.size < (cell h t).size := by
  simp only [size]
  omega

theorem size_tail_lt (h t : Noun) : t.size < (cell h t).size := by
  simp only [size]
  omega

end Noun

/-- A loobean: `0` is yes and `1` is no, in Nock, Hoon and C (`u2_yes`,
`u2_no`) alike. -/
def loob (b : Bool) : Nat := if b then 0 else 1

/-- Ways a C routine stops without a result: `u2_bl_bail` with its mote, or a
failed assertion or memory error (`fault`), which ends the process. -/
inductive Bail
  | exit
  | fail
  | fault
  deriving Repr, DecidableEq

/-- The result of a jet: a value, or the bail that unwound it. -/
abbrev Jet (α : Type) := Except Bail α

/-- `u2_fly_is_cat` on an atom: it fits a word with the top bit clear. -/
def isCat (a : Nat) : Bool := a < 2 ^ 31

/-- Wrap to a machine word, `c3_w`. -/
def c3w (n : Nat) : Nat := n % 2 ^ 32

theorem isCat_iff {a : Nat} : isCat a = true ↔ a < 2 ^ 31 := by
  simp [isCat]

theorem c3w_of_lt {n : Nat} (h : n < 2 ^ 32) : c3w n = n :=
  Nat.mod_eq_of_lt h

/-- `c3_s4`: four characters as a word. -/
def c3s4 (a b c d : Char) : Nat :=
  a.toNat + 2 ^ 8 * b.toNat + 2 ^ 16 * c.toNat + 2 ^ 24 * d.toNat

end Vere
