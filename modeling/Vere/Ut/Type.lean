import Vere.Hoon.Bits
import Vere.Hoon.Virt
import Vere.Noun

/-!
# Vere.Ut.Type

The types of the compiler (`++type`), the arms that build them, and what they mean.

Twigs, wings and the legs of a `%hold` are only compared and passed on, so they are plain
nouns here. What the compiler core does with them is in `Van`: the parts of `++ut` that
subtyping calls and that are not about types alone.

A type without `%bull`, `%core` and `%hold` is `Plain`, and means a set of nouns
(`Ty.has`), whatever the auras.
-/

namespace Vere.Ut

open Vere.Hoon

mutual

/-- `++foot`. -/
inductive Foot
  | ash (p : Noun)
  | elm (p : Noun)
  | oak
  | yew (p : Arms)
  deriving Repr, DecidableEq

/-- `(map term foot)`. -/
inductive Arms
  | nil
  | node (p : Nat) (q : Foot) (l r : Arms)
  deriving Repr, DecidableEq

end

/-- What a core may be used for. -/
inductive Metal
  | gold
  | iron
  | lead
  | zinc
  deriving Repr, DecidableEq

/-- `++type`. -/
inductive Ty
  | noun
  | void
  | atom (p : Nat)
  /-- With the `++twin` `[cog hyp axe s]`. -/
  | bull (cog : Nat) (hyp : Noun) (axe : Nat) (s q : Ty)
  | cell (p q : Ty)
  /-- With the `++coil` `[metal q bat arms]`. -/
  | core (p : Ty) (metal : Metal) (q : Ty) (bat : Noun) (arms : Arms)
  | cube (p : Noun) (q : Ty)
  | face (p : Nat) (q : Ty)
  | fork (p q : Ty)
  | hold (p : Noun)
  deriving Repr, DecidableEq

/-- `?(%read %rite %both %free)`. -/
inductive Way
  | read
  | rite
  | both
  | free
  deriving Repr, DecidableEq

/-- What `++ut` has besides the type: `++rest`, `++play` and `++peek`. -/
structure Van where
  rest : Noun → Virt Ty
  play : Ty → Noun → Virt Ty
  peek : Ty → Way → Nat → Virt Ty

/-! ### Building types -/

/-- `++bull`. -/
def bull (cog : Nat) (hyp : Noun) (axe : Nat) (s der : Ty) : Ty :=
  if der = .void ∨ s = .void then .void else .bull cog hyp axe s der

/-- `++cell`. -/
def cell (hed tal : Ty) : Ty :=
  if hed = .void then .void else if tal = .void then .void else .cell hed tal

/-- `++cube`. -/
def cube (dil : Noun) (goq : Ty) : Ty := if goq = .void then .void else .cube dil goq

/-- `++face`. -/
def face (cog : Nat) (der : Ty) : Ty := if der = .void then .void else .face cog der

/-- `++fork`. -/
def fork (hoz bur : Ty) : Ty :=
  if hoz = bur then hoz
  else if hoz = .void then bur
  else if bur = .void then hoz
  else .fork hoz bur

/-- `+-repo:ut`. -/
def repo (van : Van) : Ty → Virt Ty
  | .bull _ _ _ _ q => return q
  | .core p _ _ _ _ => return .cell .noun p
  | .cube _ q => return q
  | .face _ q => return q
  | .hold p => van.rest p
  | .noun => return .fork (.atom 0) (.cell .noun .noun)
  | _ => throw ()

/-- `+-reco:ut`. -/
def reco (van : Van) (sut : Ty) (fuy : Ty → Virt Ty) : Virt Ty := do
  let por ← repo van sut
  let yot ← fuy por
  if yot = por then return (if por = .void then por else sut) else return yot

/-! ### Auras -/

/-- `fiz` of `++fitz`: the size letter of an aura, and the rest. -/
def fiz (mot : Nat) : Nat × Nat :=
  let len := met 3 mot
  if len = 0 then (0, 0)
  else
    let tyl := rsh 3 (len - 1) mot
    if 'A'.toNat ≤ tyl ∧ tyl ≤ 'Z'.toNat then (tyl - 64, «end» 3 (len - 1) mot) else (0, mot)

/-- The loop of `++fitz`. It compares what is left of the size letters. -/
def fitzLoop (yoz wux : Nat) : Bool :=
  if _ : yoz = 0 ∨ wux = 0 then true
  else «end» 3 1 yoz = «end» 3 1 wux && fitzLoop (rsh 3 1 yoz) (rsh 3 1 wux)
termination_by yoz
decreasing_by exact rsh_one_lt (not_or.mp ‹_›).1

/-- `++fitz`. -/
def fitz (yaz wix : Nat) : Bool :=
  let yoz := fiz yaz
  let wux := fiz wix
  (yoz.1 = 0 || wux.1 = 0 || (wux.1 ≠ 0 && wux.1 ≤ yoz.1)) && fitzLoop yoz.1 wux.1

/-! ### What a type means -/

namespace Ty

/-- The noun is one of the type. Only of a plain type does this say anything. -/
def has : Ty → Noun → Bool
  | noun, _ => true
  | atom _, .atom _ => true
  | cell p q, .cell h t => p.has h && q.has t
  | cube p _, n => n = p
  | face _ q, n => q.has n
  | fork p q, n => p.has n || q.has n
  | _, _ => false

/-- Built without `%bull`, `%core` and `%hold`. -/
def Plain : Ty → Prop
  | noun | void | atom _ => True
  | cell p q | fork p q => p.Plain ∧ q.Plain
  | cube _ q | face _ q => q.Plain
  | bull .. | core .. | hold _ => False

/-- Plain, and the noun of every `%cube` in it is one of its base type. -/
def Proper : Ty → Prop
  | noun | void | atom _ => True
  | cell p q | fork p q => p.Proper ∧ q.Proper
  | cube p q => q.Proper ∧ q.has p = true
  | face _ q => q.Proper
  | bull .. | core .. | hold _ => False

theorem Proper.plain {t : Ty} (h : t.Proper) : t.Plain := by
  induction t with
  | cell p q ihp ihq => exact ⟨ihp h.1, ihq h.2⟩
  | fork p q ihp ihq => exact ⟨ihp h.1, ihq h.2⟩
  | cube p q ih => exact ih h.1
  | face p q ih => exact ih h
  | noun | void | atom => trivial
  | bull | core | hold => exact h.elim

@[simp] theorem has_noun (n : Noun) : noun.has n = true := rfl

@[simp] theorem has_void (n : Noun) : void.has n = false := rfl

@[simp] theorem has_atom_atom (p x : Nat) : (atom p).has (.atom x) = true := rfl

@[simp] theorem has_atom_cell (p : Nat) (h t : Noun) : (atom p).has (.cell h t) = false := rfl

@[simp] theorem has_cell_atom (p q : Ty) (x : Nat) : (cell p q).has (.atom x) = false := rfl

@[simp] theorem has_cell_cell (p q : Ty) (h t : Noun) :
    (cell p q).has (.cell h t) = (p.has h && q.has t) := rfl

@[simp] theorem has_cube (p : Noun) (q : Ty) (n : Noun) : (cube p q).has n = decide (n = p) := rfl

@[simp] theorem has_face (p : Nat) (q : Ty) (n : Noun) : (face p q).has n = q.has n := rfl

@[simp] theorem has_fork (p q : Ty) (n : Noun) : (fork p q).has n = (p.has n || q.has n) := rfl

end Ty

/-! ### The meaning of what is built -/

section build

variable {p q : Ty}

theorem has_cell (p q : Ty) (n : Noun) : (cell p q).has n = (Ty.cell p q).has n := by
  unfold cell
  split
  · next hp => cases n <;> simp [hp]
  · split
    · next hq => cases n <;> simp [hq]
    · rfl

theorem has_face (c : Nat) (q : Ty) (n : Noun) : (face c q).has n = q.has n := by
  unfold face
  split
  · next hq => simp [hq]
  · simp

theorem has_fork (p q : Ty) (n : Noun) : (fork p q).has n = (p.has n || q.has n) := by
  unfold fork
  split
  · next hpq => simp [hpq]
  · split
    · next hp => simp [hp]
    · split
      · next hq => simp [hq]
      · simp

/-- A `%cube` of a type that has its noun. -/
theorem has_cube {x : Noun} (h : q.has x = true) (n : Noun) : (cube x q).has n = decide (n = x) := by
  unfold cube
  split
  · next hq =>
      rw [hq, Ty.has_void] at h
      cases h
  · simp

theorem proper_cell (hp : p.Proper) (hq : q.Proper) : (cell p q).Proper := by
  unfold cell
  split
  · trivial
  · split
    · trivial
    · exact ⟨hp, hq⟩

theorem proper_face (c : Nat) (hq : q.Proper) : (face c q).Proper := by
  unfold face
  split
  · trivial
  · exact hq

theorem proper_fork (hp : p.Proper) (hq : q.Proper) : (fork p q).Proper := by
  unfold fork
  split
  · exact hp
  · split
    · exact hq
    · split
      · exact hp
      · exact ⟨hp, hq⟩

theorem proper_cube {x : Noun} (hq : q.Proper) (h : q.has x = true) : (cube x q).Proper := by
  unfold cube
  split
  · trivial
  · exact ⟨hq, h⟩

end build

end Vere.Ut
