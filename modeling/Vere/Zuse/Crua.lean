import Vere.Hoon.Bloq
import Vere.Hoon.Fo
import Vere.Hoon.PackSpec
import Vere.Hoon.Rule
import Vere.Lib.Power

/-!
# Vere.Zuse.Crua

The suite of keys that rests on RSA: arithmetic modulo a product of two primes, `++fu`, and
`++crua` (`zuse.hoon`, sections 3bA and 3bB). Crashes are `none`.

A key that is public holds the product `mos` only. One that is secret holds the primes too, with
the inverses of 3 and of 5 modulo the least common multiple of `p - 1` and `q - 1`: `pull` raises
to 3 and `pump` takes it back, `push` raises to 5 and `punt` takes it back. What is raised is
padded to one bit less than `mos` (`pad_lt`), so that nothing is lost (`power_raise`,
`raise_power`).

A message that does not fit is sent beside what is raised, and the lowest bit of a message says
which of the two it is.
-/

namespace Vere.Zuse

open Vere.Hoon Vere.Lib

/-! ### `++fu` -/

/-- The core of `++fu`. -/
structure Fu where
  p : Nat
  q : Nat
  b : Nat

/-- `++fu`: modulo `p * q`. -/
def fu (p q : Nat) : Option Fu :=
  if p = 0 ∧ q = 0 then some ⟨p, q, 0⟩
  else do
    let b ← Fo.inv p (← Fo.sit p q)
    return ⟨p, q, b⟩

namespace Fu

/-- `dif` of `++fo`. -/
def foDif (a b c : Nat) : Option Nat := do
  let d ← Fo.sit a c
  if a + b < d then none else Fo.sit a (a + b - d)

/-- `exp` of `++fu`. A modulus of zero has no exponents, nor has one of 1. -/
def exp (a : Fu) (c : Nat) (d : Nat × Nat) : Option (Nat × Nat) :=
  if a.p < 2 ∨ a.q < 2 then none
  else do
    let l ← Fo.exp a.p (c % (a.p - 1)) d.1
    let r ← Fo.exp a.q (c % (a.q - 1)) d.2
    return (l, r)

/-- `out` of `++fu`: Garner's formula. -/
def out (a : Fu) (c : Nat × Nat) : Option Nat := do
  let d ← foDif a.p c.1 (← Fo.sit a.p c.2)
  let e ← Fo.pro a.p a.b d
  return c.2 + a.q * e

/-- `sit` of `++fu`. -/
def sit (a : Fu) (c : Nat) : Option (Nat × Nat) :=
  if a.p = 0 ∨ a.q = 0 then none else some (c % a.p, c % a.q)

end Fu

/-! ### `++crua` -/

namespace Crua

/-- The hashes that the suite uses: `++shax`, and `++shaf` and `++shaw` with the widths of what
they return. -/
structure Sha where
  shax : Nat → Nat
  shaf : Nat → Nat → Nat
  shaw : Nat → Nat → Nat → Nat
  shaf_lt : ∀ sal ruz, shaf sal ruz < 2 ^ 128
  shaw_lt : ∀ sal len ruz, shaw sal len ruz < 2 ^ len

/-- `++shas`: salted hash. -/
def shas (shax : Nat → Nat) (sal ruz : Nat) : Nat := shax (mix sal (shax ruz))

/-- The loop of `raw` of `++og`. -/
def rawLoop (shax : Nat → Nat) (a c b : Nat) : List (Nat × Nat) :=
  if _h : 0 = b then []
  else
    let d := shas shax (rap 3 ['o', 'g', '-', 'b']) (mix b (mix a c))
    if b < 256 then [(b, «end» 0 b d)] else (256, d) :: rawLoop shax a d (b - 256)
termination_by b
decreasing_by omega

/-- `raw` of `++og`: random bits. -/
def raw (shax : Nat → Nat) (a b : Nat) : Nat :=
  can 0 (rawLoop shax a (shas shax (rap 3 ['o', 'g', '-', 'a']) (mix b a)) b)

theorem raw_lt (shax : Nat → Nat) (a b : Nat) : raw shax a b < 2 ^ b := by
  suffices h : ∀ c, can 0 (rawLoop shax a c b) < 2 ^ b from h _
  induction b using Nat.strong_induction_on with
  | h b ih =>
      intro c
      rw [rawLoop]
      split
      · next h => exact Nat.two_pow_pos b
      · next h =>
          simp only
          split
          · rw [can_cons, can_nil, pow_zero, one_mul, mul_zero, add_zero]
            exact Nat.mod_lt _ (Nat.two_pow_pos b)
          · next hb =>
              have hlt := ih (b - 256) (by omega)
                (shas shax (rap 3 ['o', 'g', '-', 'b']) (mix b (mix a c)))
              have hmod := Nat.mod_lt
                (shas shax (rap 3 ['o', 'g', '-', 'b']) (mix b (mix a c))) (Nat.two_pow_pos 256)
              have hpow : 2 ^ b = 2 ^ 256 * 2 ^ (b - 256) := by
                rw [← pow_add, Nat.add_sub_cancel' (by omega)]
              rw [can_cons, pow_zero, one_mul, hpow]
              calc _ < 2 ^ 256 + 2 ^ 256 * can 0 (rawLoop shax a _ (b - 256)) :=
                    Nat.add_lt_add_right hmod _
                _ = 2 ^ 256 * (can 0 (rawLoop shax a _ (b - 256)) + 1) := by ring
                _ ≤ _ := Nat.mul_le_mul_left _ hlt

/-- The hashes of `hoon.hoon` over a hash of 256 bits: `++shaf` mixes its halves, `++shaw` draws
from `++og`. -/
def Sha.ofShax (shax : Nat → Nat) (h : ∀ a, shax a < 2 ^ 256) : Sha where
  shax := shax
  shaf sal ruz := mix («end» 7 1 (shas shax sal ruz)) (rsh 7 1 (shas shax sal ruz))
  shaw sal len ruz := raw shax (shas shax sal (mix len ruz)) len
  shaf_lt sal ruz := by
    have hrsh : shas shax sal ruz / 2 ^ 128 < 2 ^ 128 :=
      Nat.div_lt_of_lt_mul ((h _).trans_le (by norm_num))
    rw [mix_eq, «end», rsh]
    simp only [bex_eq, mul_one]
    exact Nat.xor_lt_two_pow (Nat.mod_lt _ (Nat.two_pow_pos 128)) hrsh
  shaw_lt sal len ruz := raw_lt _ _ _

/-- What a secret key holds beside the product. -/
structure Pon where
  p : Nat
  q : Nat
  r : Nat × Nat
  s : Fu

end Crua

/-- The state of `++crua`. -/
structure Crua where
  mos : Nat
  pon : Option Crua.Pon

namespace Crua

/-- `mx`: bit length. -/
def mx (k : Crua) : Option Nat := if met 0 k.mos = 0 then none else some (met 0 k.mos - 1)

section Suite

variable (sha : Sha) (mug : Noun → Nat)

/-- `dap`: decode a padded message. -/
def dap (wid xar dog : Nat) : Option (Nat × Nat) :=
  if wid < xar then none
  else
    let pav := wid - xar
    let qoy := cut 0 xar pav dog
    let dez := mix («end» 0 xar dog) (sha.shaw (rap 3 ['p', 'a', 'd', '-', 'b']) xar qoy)
    some (dez, mix qoy (sha.shaw (rap 3 ['p', 'a', 'd', '-', 'a']) pav dez))

/-- `pad`: encode a padded message. -/
def pad (wid : Nat) (rax : Nat × Nat) (meg : Nat) : Option Nat :=
  if wid < rax.1 then none
  else
    let pav := wid - rax.1
    if pav < met 0 meg then none
    else
      let qoy := mix meg (sha.shaw (rap 3 ['p', 'a', 'd', '-', 'a']) pav rax.2)
      let dez := mix rax.2 (sha.shaw (rap 3 ['p', 'a', 'd', '-', 'b']) rax.1 qoy)
      some (can 0 [(rax.1, dez), (pav, qoy)])

/-- `pull`: raise to 3. -/
def pull (k : Crua) (a : Nat) : Option Nat := Fo.exp k.mos 3 a

/-- `push`: raise to 5. -/
def push (k : Crua) (a : Nat) : Option Nat := Fo.exp k.mos 5 a

/-- What `pump` and `punt` share. -/
def raise (s : Fu) (r a : Nat) : Option Nat := do s.out (← s.exp r (← s.sit a))

/-- `pump`: take `pull` back. -/
def pump (k : Crua) (a : Nat) : Option Nat := do
  let u ← k.pon
  raise u.s u.r.1 a

/-- `punt`: take `push` back. -/
def punt (k : Crua) (a : Nat) : Option Nat := do
  let u ← k.pon
  raise u.s u.r.2 a

/-- `haul`: the suite of a public key. -/
def haul (a : Nat) : Option Crua :=
  let mag := «end» 3 1 a
  let bod := rsh 3 1 a
  if 'a'.toNat = mag then some ⟨bod, none⟩ else none

/-- `pub` of `ex`. -/
def pub (k : Crua) : Nat := cat 3 'a' k.mos

/-- A message and whether it fits, in one atom. -/
def mark (mav : Bool × Nat) : Nat := (if mav.1 then 0 else 1) + lsh 0 1 mav.2

/-- `(hard ,[p=@ q=@])`. -/
def hardPair : Noun → Option (Nat × Nat)
  | .cell (.atom p) (.atom q) => some (p, q)
  | _ => none

/-- `gox` of `sure` and of `tear`. -/
def gox (det : Bool) (bod : Nat) : Option (Nat × Nat) :=
  if det then some (bod, 0) else do hardPair (← cue mug bod)

/-- `++de`: decrypt with a key of both. -/
def de (key cep : Nat) : Option Nat :=
  let toh := met 8 cep
  if toh < 2 then none
  else
    let adj := toh - 1
    let hax := «end» 8 1 cep
    let bod := rsh 8 1 cep
    let msg := mix (raw sha.shax (mix hax key) (256 * adj)) bod
    if hax = sha.shax (mix key (sha.shax (mix adj msg))) then some msg else none

/-- `++en`: encrypt with a key of both. -/
def en (key msg : Nat) : Nat :=
  let len := met 8 msg
  let adj := if 0 = len then 1 else len
  let hax := sha.shax (mix key (sha.shax (mix adj msg)))
  rap 8 [hax, mix msg (raw sha.shax (mix hax key) (256 * adj))]

/-- `sign` of `as`. -/
def sign (k : Crua) (a b : Nat) : Option Nat := do
  let mx ← k.mx
  let det : Bool := 128 + met 0 b ≤ mx
  let hec := sha.shaf (mix (rap 3 ['a', 'g', 'i', 's']) a) b
  let dog ← pad sha mx (128, hec) (if det then b else 0)
  let hog ← k.pump dog
  return mark (det, if det then hog else jam mug (.cell (.atom hog) (.atom b)))

/-- `sure` of `as`. -/
def sure (k : Crua) (a b : Nat) : Option (Option Nat) := do
  let det : Bool := 0 = «end» 0 1 b
  let bod := rsh 0 1 b
  let gox ← gox mug det bod
  let dog ← k.pull gox.1
  let pig ← dap sha (← k.mx) 128 dog
  let log := if det then pig.2 else gox.2
  return if pig.1 = sha.shaf (mix (rap 3 ['a', 'g', 'i', 's']) a) log then some log else none

/-- `seal` of `as`. -/
def «seal» (k : Crua) (a b c : Nat) : Option Nat := do
  let c ← sign sha mug k b c
  let her ← haul a
  let mx ← her.mx
  let det : Bool := 256 + met 0 c ≤ mx
  let lip := if det then c else 0
  let dog ← pad sha mx (256, b) lip
  let hog ← her.push dog
  let ben := en sha b c
  return mark (det, if det then hog else jam mug (.cell (.atom hog) (.atom ben)))

/-- `tear` of `as`. -/
def tear (k : Crua) (a b : Nat) : Option (Option (Nat × Nat)) := do
  let her ← haul a
  let det : Bool := 0 = «end» 0 1 b
  let bod := rsh 0 1 b
  let gox ← gox mug det bod
  let dog ← k.punt gox.1
  let pig ← dap sha (← k.mx) 256 dog
  match if det then some pig.2 else de sha pig.1 gox.2 with
  | none => return none
  | some cow =>
      match ← sure sha mug her pig.1 cow with
      | none => return none
      | some cow => return some (pig.1, cow)

end Suite

/-- `elcm` of `nu`. -/
def elcm (a b : Nat) : Option Nat := do
  let d ← egcd a b
  if d.1 = 0 then none else some (a * b / d.1)

/-- `eldm` of `nu`. -/
def eldm (a b c : Nat) : Option Nat :=
  if b = 0 ∨ c = 0 then none else do Fo.inv (← elcm (b - 1) (c - 1)) a

/-- `ersa` of `nu`. -/
def ersa (a b : Nat) : Option Pon := do
  let r ← eldm 3 a b
  let s ← eldm 5 a b
  return ⟨a, b, (r, s), ← fu a b⟩

/-- The secret suite that `pit` and `nol` make of two primes. -/
def ofPrimes (a b : Nat) : Option Crua := do return ⟨a * b, some (← ersa a b)⟩

end Crua

end Vere.Zuse
