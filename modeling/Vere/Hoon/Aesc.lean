import Vere.Hoon.Bloq
import Vere.Hoon.Ga
import Vere.Lib.Rounds

/-!
# Vere.Hoon.Aesc

AES with a key of 256 bits (`++aesc`, section 2eX of `hoon.hoon`).

A block is a list of four words of four bytes. The cipher substitutes the bytes, shifts the rows,
mixes the columns and adds a round key; the last round does not mix. Deciphering is the same
loop with the tables of the inverse, on the round keys in reverse order, of which `++ix` mixes
all but the first and the last back. So it is the inverse of `Vere.Lib.Rounds`, whatever the
round keys are (`de_en`).
-/

namespace Vere.Hoon

/-- `ror:fe`. -/
def ror (a b c d : Nat) : Nat :=
  let e := «end» a 1 d
  let f := bex (a - b)
  let g := c % f
  «end» a 1 (con (rsh b g e) (lsh b (f - g) e))

namespace Aesc

open Ga

/-- `[p=@ q=@ r=@ s=@]`. -/
structure Four where
  p : Nat
  q : Nat
  r : Nat
  s : Nat

def nnk : Nat := 8
def nnb : Nat := 4
def nnr : Nat := 14

/-- `++cipa`: AES params. -/
structure Cipa where
  co : Four
  ix : Nat → Virt Nat
  ro : Four
  su : Nat

/-- `++pen`: encrypt. -/
def pen : Cipa where
  co := ⟨0x2, 0x3, 1, 1⟩
  ix a := return a
  ro := ⟨0, 1, 2, 3⟩
  su := wide [
    0x16bb54b00f2d99416842e6bf0d89a18c,
    0xdf2855cee9871e9b948ed9691198f8e1,
    0x9e1dc186b95735610ef6034866b53e70,
    0x8a8bbd4b1f74dde8c6b4a61c2e2578ba,
    0x08ae7a65eaf4566ca94ed58d6d37c8e7,
    0x79e4959162acd3c25c2406490a3a32e0,
    0xdb0b5ede14b8ee4688902a22dc4f8160,
    0x73195d643d7ea7c41744975fec130ccd,
    0xd2f3ff1021dab6bcf5389d928f40a351,
    0xa89f3c507f02f94585334d43fbaaefd0,
    0xcf584c4a39becb6a5bb1fc20ed00d153,
    0x842fe329b3d63b52a05a6e1b1a2c8309,
    0x75b227ebe28012079a059618c323c704,
    0x1531d871f1e5a534ccf73f362693fdb7,
    0xc072a49cafa2d4adf04759fa7dc982ca,
    0x76abd7fe2b670130c56f6bf27b777c63]

/-- `++pin`: decrypt. -/
def pin : Cipa where
  co := ⟨0xe, 0xb, 0xd, 0x9⟩
  ix a := if a ≤ nnr then return nnr - a else throw ()
  ro := ⟨0, 3, 2, 1⟩
  su := wide [
    0x7d0c2155631469e126d677ba7e042b17,
    0x619953833cbbebc8b0f52aae4d3be0a0,
    0xef9cc9939f7ae52d0d4ab519a97f5160,
    0x5fec8027591012b131c7078833a8dd1f,
    0xf45acd78fec0db9a2079d2c64b3e56fc,
    0x1bbe18aa0e62b76f89c5291d711af147,
    0x6edf751ce837f9e28535ade72274ac96,
    0x73e6b4f0cecff297eadc674f4111913a,
    0x6b8a130103bdafc1020f3fca8f1e2cd0,
    0x0645b3b80558e4f70ad3bc8c00abd890,
    0x849d8da75746155edab9edfd5048706c,
    0x92b6655dcc5ca4d41698688664f6f872,
    0x25d18b6d49a25b76b224d92866a12e08,
    0x4ec3fa420b954cee3d23c2a632947b54,
    0xcbe9dec444438e3487ff2f9b8239e37c,
    0xfbd7f3819ea340bf38a53630d56a0952]

/-- The loop of `++pode`. It has no end if the atom is too long. -/
def podeLoop (b : Nat) (d : List Nat) (m : Nat) : Virt (List Nat) :=
  if m = b then return d
  else if m < b then podeLoop b (d ++ [0]) (m + 1)
  else .never
termination_by b - m

/-- `++pode`: explode to block. -/
def pode (a b c : Nat) : Virt (List Nat) := podeLoop b (rip a c) (met a c)

/-- `++sube`: s-box word. -/
def sube (a b : Nat) : Virt Nat := do
  let c ← pode 3 4 a
  return rep 3 (c.map fun c => cut 3 c 1 b)

/-- The tables that `gr` is made with. -/
structure Gr where
  p : Table
  q : Table

/-- `gr`: `(ga 8 0x11b 3)`. -/
def gr : Virt Gr := do
  let (p, q) ← toe aes
  return ⟨p, q⟩

section ahem

variable (gr : Gr)

/-- The sum of four products, as `++mcol` has it. -/
def difPro (a b c d : Nat × Nat) : Virt Nat := do
  let a ← pro aes gr.p gr.q a.1 a.2
  let b ← pro aes gr.p gr.q b.1 b.2
  let c ← pro aes gr.p gr.q c.1 c.2
  let d ← pro aes gr.p gr.q d.1 d.2
  let e ← dif aes c d
  let e ← dif aes b e
  dif aes a e

/-- `++mcol`. -/
def mcol (a : List Nat) (b : Four) : Virt (List Nat) :=
  match a with
  | [] => return []
  | i :: t => do
      let c : Four := ⟨cut 3 0 1 i, cut 3 1 1 i, cut 3 2 1 i, cut 3 3 1 i⟩
      let w ← difPro gr (c.p, b.p) (c.q, b.q) (c.r, b.r) (c.s, b.s)
      let x ← difPro gr (c.p, b.s) (c.q, b.p) (c.r, b.q) (c.s, b.r)
      let y ← difPro gr (c.p, b.r) (c.q, b.s) (c.r, b.p) (c.s, b.q)
      let z ← difPro gr (c.p, b.q) (c.q, b.r) (c.r, b.s) (c.s, b.p)
      let t ← mcol t b
      return rep 3 [w, x, y, z] :: t

/-! ### The block cipher -/

/-- `++ankh`: a round key. -/
def ankh (a : Cipa) (b c : Nat) : Virt (List Nat) := do
  let i ← a.ix b
  pode 5 nnb (cut 5 (i * nnb) nnb c)

/-- `++sark`: add a round key. -/
def sark : List Nat → List Nat → Virt (List Nat)
  | [], _ => return []
  | _ :: _, [] => throw ()
  | i :: c, j :: d => do
      let t ← sark c d
      return mix i j :: t

/-- A byte of a shifted row. -/
def srowByte (b : List Nat) (c f g : Nat) : Virt Nat :=
  match b[(g + c) % nnb]? with
  | none => throw ()
  | some w => return cut 3 f 1 w

/-- The loop of `++srow`, with `n` columns to go. -/
def srowLoop (e : Four) (b : List Nat) : Nat → Nat → Virt (List Nat)
  | 0, _ => return []
  | n + 1, c => do
      let w ← srowByte b c 0 e.p
      let x ← srowByte b c 1 e.q
      let y ← srowByte b c 2 e.r
      let z ← srowByte b c 3 e.s
      let t ← srowLoop e b n (c + 1)
      return rep 3 [w, x, y, z] :: t

/-- `++srow`: shift rows. -/
def srow (a : Cipa) (b : List Nat) : Virt (List Nat) := srowLoop a.ro b nnb 0

/-- `++subs`: substitute bytes. -/
def subs (a : Cipa) : List Nat → Virt (List Nat)
  | [] => return []
  | i :: b => do
      let w ← sube i a.su
      let t ← subs a b
      return w :: t

/-- The loop of `++be`, with `n` rounds to go before the last. -/
def beLoop (d : Cipa) (b : Nat) : Nat → Nat → List Nat → Virt Nat
  | 0, _, e => do
      let e ← subs d e
      let e ← srow d e
      let e ← sark e (← ankh d nnr b)
      return rep 5 e
  | n + 1, f, e => do
      let e ← subs d e
      let e ← srow d e
      let e ← mcol gr e d.co
      let e ← sark e (← ankh d f b)
      beLoop d b n (f + 1) e

/-- `++be`: block cipher. -/
def be (a : Bool) (b c : Nat) : Virt Nat := do
  let d := if a then pen else pin
  let e ← pode 5 nnb c
  let e ← sark e (← ankh d 0 b)
  beLoop gr d b (nnr - 1) 1 e

/-- The loop of `++ex`, with `n` words to go. -/
def exLoop : Nat → Nat → Nat → Virt Nat
  | 0, _, b => return b
  | n + 1, i, b => do
      let c := cut 5 (i - 1) 1 b
      let c ←
        if i % nnk = 0 then do
          let c := ror 5 3 1 c
          let c ← sube c pen.su
          let d ← pow aes gr.p gr.q (i / nnk - 1) 2
          pure (mix c d)
        else if nnk > 6 ∧ i % nnk = 4 then sube c pen.su
        else pure c
      let c := mix c (cut 5 (i - nnk) 1 b)
      exLoop n (i + 1) (can 5 [(i, b), (1, c)])

/-- `++ex`: key expand. -/
def ex (a : Nat) : Virt Nat := exLoop gr (nnb * (nnr + 1) - nnk) nnk a

/-- The loop of `++ix`, with `n` round keys to go. -/
def ixLoop : Nat → Nat → Nat → Virt Nat
  | 0, _, a => return a
  | n + 1, i, a => do
      let b ← pode 5 4 (cut 7 i 1 a)
      let b ← mcol gr b pin.co
      let j := nnr - i
      ixLoop n (i + 1) (can 7 [(i, cut 7 0 i a), (1, rep 5 b), (j, cut 7 (i + 1) j a)])

/-- `++ix`: key expand, inv. -/
def ix (a : Nat) : Virt Nat := ixLoop gr (nnr - 1) 1 a

end ahem

/-- `++en`: ECB enc. -/
def en (a b : Nat) : Virt Nat := do
  let gr ← gr
  let k ← ex gr a
  be gr true k b

/-- `++de`: ECB dec. -/
def de (a b : Nat) : Virt Nat := do
  let gr ← gr
  let k ← ex gr a
  let k ← ix gr k
  be gr false k b

end Aesc

end Vere.Hoon
