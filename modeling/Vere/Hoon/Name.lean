import Vere.Hoon.Cord
import Vere.Hoon.Rule

/-!
# Vere.Hoon.Name

Phonetic names (`hoon.hoon`, sections 2cE, 2eL and 2eN): `++po` has the syllables, `++un`
scrambles a word before it is named, and `++mu` scrambles its halves.

A scrambled word has as many bytes as the word: the top byte goes through a box that never
gives zero, and each other byte through a box and the scrambled byte above it, so going down
from the top byte undoes it (`wred_wren`).
-/

namespace Vere.Hoon

open Vere.Lib Vere.Lib.Rule Glyph

/-! ### Syllables -/

/-- `sis` of `++po`. -/
def sis : Tape :=
  [ 'd', 'o', 'z', 'm', 'a', 'r', 'b', 'i', 'n', 'w', 'a', 'n', 's', 'a', 'm', 'l', 'i', 't',
    's', 'i', 'g', 'h', 'i', 'd', 'f', 'i', 'd', 'l', 'i', 's', 's', 'o', 'g', 'd', 'i', 'r',
    'w', 'a', 'c', 's', 'a', 'b', 'w', 'i', 's', 's', 'i', 'b', 'r', 'i', 'g', 's', 'o', 'l',
    'd', 'o', 'p', 'm', 'o', 'd', 'f', 'o', 'g', 'l', 'i', 'd', 'h', 'o', 'p', 'd', 'a', 'r',
    'd', 'o', 'r', 'l', 'o', 'r', 'h', 'o', 'd', 'f', 'o', 'l', 'r', 'i', 'n', 't', 'o', 'g',
    's', 'i', 'l', 'm', 'i', 'r', 'h', 'o', 'l', 'p', 'a', 's', 'l', 'a', 'c', 'r', 'o', 'v',
    'l', 'i', 'v', 'd', 'a', 'l', 's', 'a', 't', 'l', 'i', 'b', 't', 'a', 'b', 'h', 'a', 'n',
    't', 'i', 'c', 'p', 'i', 'd', 't', 'o', 'r', 'b', 'o', 'l', 'f', 'o', 's', 'd', 'o', 't',
    'l', 'o', 's', 'd', 'i', 'l', 'f', 'o', 'r', 'p', 'i', 'l', 'r', 'a', 'm', 't', 'i', 'r',
    'w', 'i', 'n', 't', 'a', 'd', 'b', 'i', 'c', 'd', 'i', 'f', 'r', 'o', 'c', 'w', 'i', 'd',
    'b', 'i', 's', 'd', 'a', 's', 'm', 'i', 'd', 'l', 'o', 'p', 'r', 'i', 'l', 'n', 'a', 'r',
    'd', 'a', 'p', 'm', 'o', 'l', 's', 'a', 'n', 'l', 'o', 'c', 'n', 'o', 'v', 's', 'i', 't',
    'n', 'i', 'd', 't', 'i', 'p', 's', 'i', 'c', 'r', 'o', 'p', 'w', 'i', 't', 'n', 'a', 't',
    'p', 'a', 'n', 'm', 'i', 'n', 'r', 'i', 't', 'p', 'o', 'd', 'm', 'o', 't', 't', 'a', 'm',
    't', 'o', 'l', 's', 'a', 'v', 'p', 'o', 's', 'n', 'a', 'p', 'n', 'o', 'p', 's', 'o', 'm',
    'f', 'i', 'n', 'f', 'o', 'n', 'b', 'a', 'n', 'p', 'o', 'r', 'w', 'o', 'r', 's', 'i', 'p',
    'r', 'o', 'n', 'n', 'o', 'r', 'b', 'o', 't', 'w', 'i', 'c', 's', 'o', 'c', 'w', 'a', 't',
    'd', 'o', 'l', 'm', 'a', 'g', 'p', 'i', 'c', 'd', 'a', 'v', 'b', 'i', 'd', 'b', 'a', 'l',
    't', 'i', 'm', 't', 'a', 's', 'm', 'a', 'l', 'l', 'i', 'g', 's', 'i', 'v', 't', 'a', 'g',
    'p', 'a', 'd', 's', 'a', 'l', 'd', 'i', 'v', 'd', 'a', 'c', 't', 'a', 'n', 's', 'i', 'd',
    'f', 'a', 'b', 't', 'a', 'r', 'm', 'o', 'n', 'r', 'a', 'n', 'n', 'i', 's', 'w', 'o', 'l',
    'm', 'i', 's', 'p', 'a', 'l', 'l', 'a', 's', 'd', 'i', 's', 'm', 'a', 'p', 'r', 'a', 'b',
    't', 'o', 'b', 'r', 'o', 'l', 'l', 'a', 't', 'l', 'o', 'n', 'n', 'o', 'd', 'n', 'a', 'v',
    'f', 'i', 'g', 'n', 'o', 'm', 'n', 'i', 'b', 'p', 'a', 'g', 's', 'o', 'p', 'r', 'a', 'l',
    'b', 'i', 'l', 'h', 'a', 'd', 'd', 'o', 'c', 'r', 'i', 'd', 'm', 'o', 'c', 'p', 'a', 'c',
    'r', 'a', 'v', 'r', 'i', 'p', 'f', 'a', 'l', 't', 'o', 'd', 't', 'i', 'l', 't', 'i', 'n',
    'h', 'a', 'p', 'm', 'i', 'c', 'f', 'a', 'n', 'p', 'a', 't', 't', 'a', 'c', 'l', 'a', 'b',
    'm', 'o', 'g', 's', 'i', 'm', 's', 'o', 'n', 'p', 'i', 'n', 'l', 'o', 'm', 'r', 'i', 'c',
    't', 'a', 'p', 'f', 'i', 'r', 'h', 'a', 's', 'b', 'o', 's', 'b', 'a', 't', 'p', 'o', 'c',
    'h', 'a', 'c', 't', 'i', 'd', 'h', 'a', 'v', 's', 'a', 'p', 'l', 'i', 'n', 'd', 'i', 'b',
    'h', 'o', 's', 'd', 'a', 'b', 'b', 'i', 't', 'b', 'a', 'r', 'r', 'a', 'c', 'p', 'a', 'r',
    'l', 'o', 'd', 'd', 'o', 's', 'b', 'o', 'r', 't', 'o', 'c', 'h', 'i', 'l', 'm', 'a', 'c',
    't', 'o', 'm', 'd', 'i', 'g', 'f', 'i', 'l', 'f', 'a', 's', 'm', 'i', 't', 'h', 'o', 'b',
    'h', 'a', 'r', 'm', 'i', 'g', 'h', 'i', 'n', 'r', 'a', 'd', 'm', 'a', 's', 'h', 'a', 'l',
    'r', 'a', 'g', 'l', 'a', 'g', 'f', 'a', 'd', 't', 'o', 'p', 'm', 'o', 'p', 'h', 'a', 'b',
    'n', 'i', 'l', 'n', 'o', 's', 'm', 'i', 'l', 'f', 'o', 'p', 'f', 'a', 'm', 'd', 'a', 't',
    'n', 'o', 'l', 'd', 'i', 'n', 'h', 'a', 't', 'n', 'a', 'c', 'r', 'i', 's', 'f', 'o', 't',
    'r', 'i', 'b', 'h', 'o', 'c', 'n', 'i', 'm', 'l', 'a', 'r', 'f', 'i', 't', 'w', 'a', 'l',
    'r', 'a', 'p', 's', 'a', 'r', 'n', 'a', 'l', 'm', 'o', 's', 'l', 'a', 'n', 'd', 'o', 'n',
    'd', 'a', 'n', 'l', 'a', 'd', 'd', 'o', 'v', 'r', 'i', 'v', 'b', 'a', 'c', 'p', 'o', 'l',
    'l', 'a', 'p', 't', 'a', 'l', 'p', 'i', 't', 'n', 'a', 'm', 'b', 'o', 'n', 'r', 'o', 's',
    't', 'o', 'n', 'f', 'o', 'd', 'p', 'o', 'n', 's', 'o', 'v', 'n', 'o', 'c', 's', 'o', 'r',
    'l', 'a', 'v', 'm', 'a', 't', 'm', 'i', 'p', 'f', 'a', 'p' ]

/-- `dex` of `++po`. -/
def dex : Tape :=
  [ 'z', 'o', 'd', 'n', 'e', 'c', 'b', 'u', 'd', 'w', 'e', 's', 's', 'e', 'v', 'p', 'e', 'r',
    's', 'u', 't', 'l', 'e', 't', 'f', 'u', 'l', 'p', 'e', 'n', 's', 'y', 't', 'd', 'u', 'r',
    'w', 'e', 'p', 's', 'e', 'r', 'w', 'y', 'l', 's', 'u', 'n', 'r', 'y', 'p', 's', 'y', 'x',
    'd', 'y', 'r', 'n', 'u', 'p', 'h', 'e', 'b', 'p', 'e', 'g', 'l', 'u', 'p', 'd', 'e', 'p',
    'd', 'y', 's', 'p', 'u', 't', 'l', 'u', 'g', 'h', 'e', 'c', 'r', 'y', 't', 't', 'y', 'v',
    's', 'y', 'd', 'n', 'e', 'x', 'l', 'u', 'n', 'm', 'e', 'p', 'l', 'u', 't', 's', 'e', 'p',
    'p', 'e', 's', 'd', 'e', 'l', 's', 'u', 'l', 'p', 'e', 'd', 't', 'e', 'm', 'l', 'e', 'd',
    't', 'u', 'l', 'm', 'e', 't', 'w', 'e', 'n', 'b', 'y', 'n', 'h', 'e', 'x', 'f', 'e', 'b',
    'p', 'y', 'l', 'd', 'u', 'l', 'h', 'e', 't', 'm', 'e', 'v', 'r', 'u', 't', 't', 'y', 'l',
    'w', 'y', 'd', 't', 'e', 'p', 'b', 'e', 's', 'd', 'e', 'x', 's', 'e', 'f', 'w', 'y', 'c',
    'b', 'u', 'r', 'd', 'e', 'r', 'n', 'e', 'p', 'p', 'u', 'r', 'r', 'y', 's', 'r', 'e', 'b',
    'd', 'e', 'n', 'n', 'u', 't', 's', 'u', 'b', 'p', 'e', 't', 'r', 'u', 'l', 's', 'y', 'n',
    'r', 'e', 'g', 't', 'y', 'd', 's', 'u', 'p', 's', 'e', 'm', 'w', 'y', 'n', 'r', 'e', 'c',
    'm', 'e', 'g', 'n', 'e', 't', 's', 'e', 'c', 'm', 'u', 'l', 'n', 'y', 'm', 't', 'e', 'v',
    'w', 'e', 'b', 's', 'u', 'm', 'm', 'u', 't', 'n', 'y', 'x', 'r', 'e', 'x', 't', 'e', 'b',
    'f', 'u', 's', 'h', 'e', 'p', 'b', 'e', 'n', 'm', 'u', 's', 'w', 'y', 'x', 's', 'y', 'm',
    's', 'e', 'l', 'r', 'u', 'c', 'd', 'e', 'c', 'w', 'e', 'x', 's', 'y', 'r', 'w', 'e', 't',
    'd', 'y', 'l', 'm', 'y', 'n', 'm', 'e', 's', 'd', 'e', 't', 'b', 'e', 't', 'b', 'e', 'l',
    't', 'u', 'x', 't', 'u', 'g', 'm', 'y', 'r', 'p', 'e', 'l', 's', 'y', 'p', 't', 'e', 'r',
    'm', 'e', 'b', 's', 'e', 't', 'd', 'u', 't', 'd', 'e', 'g', 't', 'e', 'x', 's', 'u', 'r',
    'f', 'e', 'l', 't', 'u', 'd', 'n', 'u', 'x', 'r', 'u', 'x', 'r', 'e', 'n', 'w', 'y', 't',
    'n', 'u', 'b', 'm', 'e', 'd', 'l', 'y', 't', 'd', 'u', 's', 'n', 'e', 'b', 'r', 'u', 'm',
    't', 'y', 'n', 's', 'e', 'g', 'l', 'y', 'x', 'p', 'u', 'n', 'r', 'e', 's', 'r', 'e', 'd',
    'f', 'u', 'n', 'r', 'e', 'v', 'r', 'e', 'f', 'm', 'e', 'c', 't', 'e', 'd', 'r', 'u', 's',
    'b', 'e', 'x', 'l', 'e', 'b', 'd', 'u', 'x', 'r', 'y', 'n', 'n', 'u', 'm', 'p', 'y', 'x',
    'r', 'y', 'g', 'r', 'y', 'x', 'f', 'e', 'p', 't', 'y', 'r', 't', 'u', 's', 't', 'y', 'c',
    'l', 'e', 'g', 'n', 'e', 'm', 'f', 'e', 'r', 'm', 'e', 'r', 't', 'e', 'n', 'l', 'u', 's',
    'n', 'u', 's', 's', 'y', 'l', 't', 'e', 'c', 'm', 'e', 'x', 'p', 'u', 'b', 'r', 'y', 'm',
    't', 'u', 'c', 'f', 'y', 'l', 'l', 'e', 'p', 'd', 'e', 'b', 'b', 'e', 'r', 'm', 'u', 'g',
    'h', 'u', 't', 't', 'u', 'n', 'b', 'y', 'l', 's', 'u', 'd', 'p', 'e', 'm', 'd', 'e', 'v',
    'l', 'u', 'r', 'd', 'e', 'f', 'b', 'u', 's', 'b', 'e', 'p', 'r', 'u', 'n', 'm', 'e', 'l',
    'p', 'e', 'x', 'd', 'y', 't', 'b', 'y', 't', 't', 'y', 'p', 'l', 'e', 'v', 'm', 'y', 'l',
    'w', 'e', 'd', 'd', 'u', 'c', 'f', 'u', 'r', 'f', 'e', 'x', 'n', 'u', 'l', 'l', 'u', 'c',
    'l', 'e', 'n', 'n', 'e', 'r', 'l', 'e', 'x', 'r', 'u', 'p', 'n', 'e', 'd', 'l', 'e', 'c',
    'r', 'y', 'd', 'l', 'y', 'd', 'f', 'e', 'n', 'w', 'e', 'l', 'n', 'y', 'd', 'h', 'u', 's',
    'r', 'e', 'l', 'r', 'u', 'd', 'n', 'e', 's', 'h', 'e', 's', 'f', 'e', 't', 'd', 'e', 's',
    'r', 'e', 't', 'd', 'u', 'n', 'l', 'e', 'r', 'n', 'y', 'r', 's', 'e', 'b', 'h', 'u', 'l',
    'r', 'y', 'l', 'l', 'u', 'd', 'r', 'e', 'm', 'l', 'y', 's', 'f', 'y', 'n', 'w', 'e', 'r',
    'r', 'y', 'c', 's', 'u', 'g', 'n', 'y', 's', 'n', 'y', 'l', 'l', 'y', 'n', 'd', 'y', 'n',
    'd', 'e', 'm', 'l', 'u', 'x', 'f', 'e', 'd', 's', 'e', 'd', 'b', 'e', 'c', 'm', 'u', 'n',
    'l', 'y', 'r', 't', 'e', 's', 'm', 'u', 'd', 'n', 'y', 't', 'b', 'y', 'r', 's', 'e', 'n',
    'w', 'e', 'g', 'f', 'y', 'r', 'm', 'u', 'r', 't', 'e', 'l', 'r', 'e', 'p', 't', 'e', 'g',
    'p', 'e', 'c', 'n', 'e', 'l', 'n', 'e', 'v', 'f', 'e', 's' ]

/-- `(cut 3 [(mul 3 a) 3] tab)`, of a text that is given by its characters. -/
def syllable : Tape → Nat → Nat
  | x :: y :: z :: _, 0 => x + 256 * (y + 256 * z)
  | _ :: _ :: _ :: tab, a + 1 => syllable tab a
  | _, _ => 0

/-- `tod` of `++po`. -/
def tod (a : Nat) : Option Nat := if a < 256 then some (syllable dex a) else none

/-- `tos` of `++po`. -/
def tos (a : Nat) : Option Nat := if a < 256 then some (syllable sis a) else none

/-- The loop of `ind` and of `ins` of `++po`, with `n` syllables to go. -/
def findSyllable (tab : Tape) (a : Nat) : Nat → Nat → Option Nat
  | 0, _ => none
  | n + 1, b => if a = syllable tab b then some b else findSyllable tab a n (b + 1)

/-- `ind` of `++po`. -/
def ind (a : Nat) : Option Nat := findSyllable dex a 256 0

/-- `ins` of `++po`. -/
def ins (a : Nat) : Option Nat := findSyllable sis a 256 0

/-! ### Scrambling -/

/-- `xafo` of `++un`. -/
def xafo (a b : Nat) : Nat := (b - 1 + a) % 255 + 1

/-- `xaro` of `++un`. -/
def xaro (a b : Nat) : Nat := (b - 1 + (255 - a % 255)) % 255 + 1

/-- A long number, in rows of 32 bytes. -/
def rows (l : List Nat) : Nat := l.foldl (fun q p => p + 2 ^ 256 * q) 0

/-- The table of `zaft`. -/
def zaftBox : Nat :=
  rows
    [ 0xcc75bc86c82fb19a42f0b379a092ca21f61e41cde5fcc07e8551ae1005c72d,
      0x124607e87c64a9148d69d9f459c280381f4adca26fdf66f9f561a12e5a16f7b0,
      0xa39f364ecb7073181de1ad3163d1abd4db686a33134da760edee5434493ae323,
      0x930d8f3d3562bb810b2443cfbea5a6eb52b4022906b2670478c945ecd75e58af,
      0xc577b7b9c40e017d90c387f896fa115303727f301c32ac83ff17c6e4d36d6b55,
      0xe2ce8c718a5bb6f39d4beab58b3ce7f2a8fe95745de0bf203f15978499395f9c,
      0xe609564fd8a4b825981994aa2c088e4c9b22477a28403ed637506ef144dd89ef,
      0x6576d00afbda9ed23b6c7b0cbde92ade5c88c182481a1b0f2bfdd591272657ba ]

/-- The table of `zart`. -/
def zartBox : Nat :=
  rows
    [ 0x684f07ea1c73c975c2efc8d5595125f621a7a885915613dd5240eb65a260b7,
      0x4bcb1123ceb01bd63c842906b16419b31e955fecffbcf187fbe266807c77d30e,
      0xe94a9414fd9a017d3a7e5a558ff58bf9c181e5b66ab235da50aa92933bc0cdc6,
      0xf3bf1a584130f8443846744e36a0f205789e32d85e545c220f76fce745690d99,
      0xd26ee879dc162df4887f1ffe4dba6f5dbbcc26631762aed7af8aca20dbb49bc7,
      0xa942834c105bc4d482023e61a67190e6273dbdab3157cfa40c2edf862496f7ed,
      0x2b482a9d5318a343d128be9ca5ad6bb56dfac5e13408128d2c04033997a12ff0,
      0x49d0eeb86c0a0b37b967c347d9ace072e4097b9f15981d3f33de8ce389708e7a ]

/-- The table of `zyft`. -/
def zyftBox : Nat :=
  rows
    [ 0xbb49b71fb881b40217e46b8669b51647115fdddb7ca583714bd519a9b092605d,
      0x0d9be030a0cc78ba57064d2d986a768cf8e8c4c72f1ceffe3cae01c0253e65d3,
      0x3872ce0e7a748ac6daac7e5c647944ec41433d204af0ee6cc828deca0377249f,
      0xffcd7b4feb7d66f28951042e595a8e13f9c3a79af788619993917fab62004ce5,
      0x0758e2f17594c945d2184248afa1e61a54fb1482bea496a2347363c2e7cb155b,
      0x120a4ed7bfd8b31b4008f329fca3538095560cb287222beae96e3ac5d1bc10e3,
      0x2c52a62ab1d635aad05ef6a80f3b31ed559d09adf5856d21fd1d8d67370b26f4,
      0x70c1b92346846fbdcf8b503605399cdcd93f90681edf8f33b632d42797fa9ee1 ]

/-- The table of `zyrt`. -/
def zyrtBox : Nat :=
  rows
    [ 0x9fc827536e028fcf8b352b2055987caac9a930b09b4847ce637180f6407d00dd,
      0x0aa5ed10ecb70f5a5c3ae605c077433717bd9eda62a479a7ccb844cd8e641ec4,
      0x5b6b1842ffd81dfbfd07f2f9594c3be373c62cb68438e4348d3dea6a526872db,
      0xa0012e11de8c88d303694f7a87e2860d099125d016b9978a4bf42a1ae96cfa50,
      0x85b59aeb9dbbb2d9a2d17bba66bee81f194629a8f5d2f30c2499c1b3658389e1,
      0xee36e0b46092937ed74e2f6f513e96159c5dd581e7abfe74f01b78b1ae75af57,
      0x0ec2adc7324512bf23143967080631dccb94d43f493c54a60421c3a11c4a28ac,
      0xfc0b26ca5870e576f7f1616d905fef4133bcdf4d225e2d567fd61395a3f8c582 ]

/-- `zaft` of `++un`: forward 255-sbox. -/
def zaft (a : Nat) : Nat := cut 3 (a - 1) 1 zaftBox

/-- `zart` of `++un`: reverse 255-sbox. -/
def zart (a : Nat) : Nat := cut 3 (a - 1) 1 zartBox

/-- `zyft` of `++un`: forward 256-sbox. -/
def zyft (a : Nat) : Nat := cut 3 a 1 zyftBox

/-- `zyrt` of `++un`: reverse 256-sbox. -/
def zyrt (a : Nat) : Nat := cut 3 a 1 zyrtBox

/-- The loop of `wren`: the bytes below the one that was done last. -/
def wrenLoop (pyn : Nat) : Nat → Nat → List Nat
  | 0, _ => []
  | len + 1, mig =>
      let mog := zyft (mix mig (mix («end» 3 1 len) (cut 3 len 1 pyn)))
      mog :: wrenLoop pyn len mog

/-- `wren` of `++un`: conceal structure. -/
def wren (pyn : Nat) : Nat :=
  let len := met 3 pyn
  if len = 0 then 0
  else
    let mig := zaft (xafo (len - 1) (cut 3 (len - 1) 1 pyn))
    can 3 ((mig :: wrenLoop pyn (len - 1) mig).reverse.map fun b => (1, b))

/-- The loop of `wred`. -/
def wredLoop (cry : Nat) : Nat → Nat → List Nat
  | 0, _ => []
  | len + 1, mig =>
      let mog := cut 3 len 1 cry
      mix mig (mix («end» 3 1 len) (zyrt mog)) :: wredLoop cry len mog

/-- `wred` of `++un`: restore structure. -/
def wred (cry : Nat) : Nat :=
  let len := met 3 cry
  if len = 0 then 0
  else
    let mig := cut 3 (len - 1) 1 cry
    can 3 ((xaro (len - 1) (zart mig) :: wredLoop cry (len - 1) mig).reverse.map fun b => (1, b))

/-- `zag` of `++mu`. -/
def zag (top bot : Nat) : Nat × Nat := («end» 4 1 (top + bot), bot)

/-- `zig` of `++mu`. -/
def zig (top bot : Nat) : Nat × Nat := («end» 4 1 (top + (0x10000 - bot)), bot)

/-- `zug` of `++mu`. -/
def zug (top bot : Nat) : Nat := mix (lsh 4 1 top) bot

/-! ### Printing names -/

/-- Two syllables, for two bytes. -/
def nameHalf (p : Nat) : Option Tape := do
  return trip (← tos («end» 3 1 p)) ++ trip (← tod (rsh 3 1 p))

/-- Four syllables, for the lowest four bytes. -/
def nameWord (q : Nat) : Option Tape := do
  let syb := wren («end» 5 1 q)
  let cog := zig (rsh 4 1 syb) («end» 4 1 syb)
  let p ← nameHalf cog.1
  let q ← nameHalf cog.2
  return p ++ ('-' :: q : Tape)

/-- The loop of `++rend:co` on a name. -/
def nameLoop : Nat → Bool → Nat → Tape → Option Tape
  | 0, _, _, rex => some rex
  | dyz + 1, fin, q, rex => do
      let sep : Tape := if fin then '-' :: (if «end» 0 1 (dyz + 1) = 1 then [] else ['-']) else []
      nameLoop dyz true (rsh 5 1 q) ((← nameWord q) ++ (sep ++ rex))

/-- `++rend:co` on a name. -/
def rendName (q : Nat) (rex : Tape) : Option Tape := do
  let txt ←
    if met 3 q ≤ 1 then do pure (trip (← tod q) ++ rex)
    else if met 3 q = 2 then do pure ((← nameHalf q) ++ rex)
    else nameLoop (met 5 q) false q rex
  return '~' :: txt

/-! ### Rules for names -/

def til : Rule Nat Nat := boss 256 (stun low 3 3)
def tip : Rule Nat Nat := sear (fun a => some (ins a)) til
def tiq : Rule Nat Nat := sear (fun a => some (ind a)) til
def hif : Rule Nat Nat := boss 256 (cons tip (cons tiq (easy [])))
def huf : Rule Nat Nat :=
  cook (fun ab => let z := zag ab.1 ab.2; wred (zug z.1 z.2)) (plug hif (pfix hep hif))
def hyf : Rule Nat Nat := bass 0x100000000 (cons huf (cons (pfix hep huf) (easy [])))

/-- `fed` of `++ag`. -/
def fed : Rule Nat Nat := pose (bass 0x10000000000000000 (most doh hyf)) (pose huf (pose hif tiq))

/-! ### Every syllable is there once -/

/-- No number of the list is marked, and none comes twice. -/
def unmarked : List Nat → Nat → Bool
  | [], _ => true
  | v :: l, marks => !marks.testBit v && unmarked l (marks ||| 2 ^ v)

theorem unmarked_spec {l : List Nat} {marks : Nat} (h : unmarked l marks = true) :
    l.Nodup ∧ ∀ v ∈ l, marks.testBit v = false := by
  induction l generalizing marks with
  | nil => exact ⟨List.nodup_nil, by simp⟩
  | cons v l ih =>
      rw [unmarked, Bool.and_eq_true, Bool.not_eq_true'] at h
      obtain ⟨hnd, hm⟩ := ih h.2
      have hsplit : ∀ u ∈ l, marks.testBit u = false ∧ u ≠ v := by
        intro u hu
        have hu := hm u hu
        rw [Nat.testBit_or, Bool.or_eq_false_iff, Nat.testBit_two_pow] at hu
        exact ⟨hu.1, fun e => by simp [e] at hu⟩
      refine ⟨List.nodup_cons.mpr ⟨fun hv => (hsplit v hv).2 rfl, hnd⟩, ?_⟩
      intro u hu
      rcases List.mem_cons.mp hu with rfl | hu
      · exact h.1
      · exact (hsplit u hu).1

/-- The syllables of a table. -/
def syllables : Tape → List Nat
  | x :: y :: z :: tab => (x + 256 * (y + 256 * z)) :: syllables tab
  | _ => []

theorem syllables_get (tab : Tape) : ∀ (a : Nat) (h : a < (syllables tab).length),
    (syllables tab).get ⟨a, h⟩ = syllable tab a := by
  induction tab using syllables.induct with
  | case1 x y z tab ih =>
      intro a h
      cases a with
      | zero => rfl
      | succ a => exact ih a (by simpa [syllables] using h)
  | case2 tab hno =>
      intro a h
      rw [syllables.eq_2 tab hno] at h
      cases h

/-- A number below `26 ^ 3` for a syllable. -/
def syllableKey (v : Nat) : Nat :=
  v % 256 - 97 + 26 * (v / 256 % 256 - 97) + 676 * (v / 65536 - 97)

/-- The tables of `++po`: 256 syllables, each once, of lowercase letters. -/
structure Table (tab : Tape) : Prop where
  once : unmarked ((syllables tab).map syllableKey) 0 = true
  size : (syllables tab).length = 256
  lower : ∀ c ∈ tab, 97 ≤ c ∧ c ≤ 122

theorem tables : Table sis ∧ Table dex := by
  refine ⟨⟨?_, ?_, ?_⟩, ⟨?_, ?_, ?_⟩⟩ <;> decide +kernel

theorem table_sis : Table sis := tables.1

theorem table_dex : Table dex := tables.2

section tables

variable {tab : Tape} {b : Nat} {s : Tape}

theorem Table.inj (ht : Table tab) {a b : Nat} (ha : a < 256) (hb : b < 256)
    (h : syllable tab a = syllable tab b) : a = b := by
  have hnd := List.Nodup.of_map _ (unmarked_spec ht.once).1
  rw [← ht.size] at ha hb
  rw [← syllables_get tab a ha, ← syllables_get tab b hb] at h
  exact Fin.mk.inj ((List.nodup_iff_injective_get.mp hnd) h)

theorem Table.find (ht : Table tab) (hb : b < 256) :
    ∀ n c, c + n = 256 → c ≤ b → findSyllable tab (syllable tab b) n c = some b := by
  intro n
  induction n with
  | zero => exact fun c hc hle => absurd hb (by omega)
  | succ n ih =>
      intro c hc hle
      rw [findSyllable]
      split
      · next heq => rw [ht.inj hb (by omega) heq]
      · next hne =>
          have hcb : c ≠ b := by
            rintro rfl
            exact hne rfl
          exact ih (c + 1) (by omega) (by omega)

/-- A syllable is three lowercase letters. -/
theorem syllable_letters (hl : ∀ c ∈ tab, 97 ≤ c ∧ c ≤ 122) : ∀ {b : Nat},
    b < (syllables tab).length → ∃ x y z, syllable tab b = x + 256 * (y + 256 * z) ∧
      (97 ≤ x ∧ x ≤ 122) ∧ (97 ≤ y ∧ y ≤ 122) ∧ (97 ≤ z ∧ z ≤ 122) := by
  induction tab using syllables.induct with
  | case1 x y z tab ih =>
      intro b hb
      cases b with
      | zero => exact ⟨x, y, z, rfl, hl x (by simp), hl y (by simp), hl z (by simp)⟩
      | succ b =>
          exact ih (fun c hc => hl c (by simp [hc])) (by simpa [syllables] using hb)
  | case2 tab hno =>
      intro b hb
      rw [syllables.eq_2 tab hno] at hb
      cases hb

theorem trip_letters {x y z : Nat} (hx : 97 ≤ x ∧ x ≤ 122) (hy : 97 ≤ y ∧ y ≤ 122)
    (hz : 97 ≤ z ∧ z ≤ 122) : trip (x + 256 * (y + 256 * z)) = [x, y, z] := by
  have hchars : Chars [x, y, z] := by
    intro c hc
    simp only [List.mem_cons, List.not_mem_nil, or_false] at hc
    omega
  have hval : rap 3 [x, y, z] = x + 256 * (y + 256 * z) := by
    rw [rap_bytes hchars]
    simp [Nat.ofDigits]
  rw [← hval, trip_rap hchars]

theorem low_done {c : Nat} (hc : 97 ≤ c ∧ c ≤ 122) (s : Tape) : low (c :: s) = .done c s := by
  simp [low, hc]

theorem til_letters {x y z : Nat} (hx : 97 ≤ x ∧ x ≤ 122) (hy : 97 ≤ y ∧ y ≤ 122)
    (hz : 97 ≤ z ∧ z ≤ 122) (s : Tape) :
    til (x :: y :: z :: s) = .done (x + 256 * (y + 256 * z)) s := by
  simp [til, boss, cook, stun, low_done hx, low_done hy, low_done hz]

/-- The text of a syllable is read as its number. -/
theorem til_syllable (ht : Table tab) (hb : b < 256) (s : Tape) :
    til (trip (syllable tab b) ++ s) = .done (syllable tab b) s := by
  obtain ⟨x, y, z, he, hx, hy, hz⟩ := syllable_letters ht.lower (ht.size.symm ▸ hb)
  rw [he, trip_letters hx hy hz]
  exact til_letters hx hy hz s

theorem tip_syllable (hb : b < 256) (s : Tape) :
    tip (trip (syllable sis b) ++ s) = .done b s := by
  have hfind : ins (syllable sis b) = some b := table_sis.find hb 256 0 rfl (Nat.zero_le b)
  simp [tip, sear, til_syllable table_sis hb s, hfind]

theorem tiq_syllable (hb : b < 256) (s : Tape) :
    tiq (trip (syllable dex b) ++ s) = .done b s := by
  have hfind : ind (syllable dex b) = some b := table_dex.find hb 256 0 rfl (Nat.zero_le b)
  simp [tiq, sear, til_syllable table_dex hb s, hfind]

end tables

/-! ### Words come back -/

/-- The value of bytes, the highest first. -/
def bytesValue (l : List Nat) : Nat := Nat.ofDigits 256 l.reverse

theorem bytesValue_cons (x : Nat) (l : List Nat) :
    bytesValue (x :: l) = bytesValue l + 256 ^ l.length * x := by
  rw [bytesValue, List.reverse_cons, Nat.ofDigits_append, Nat.ofDigits_singleton,
    List.length_reverse, bytesValue]

theorem bytesValue_lt {l : List Nat} (h : ∀ x ∈ l, x < 256) : bytesValue l < 256 ^ l.length := by
  rw [← List.length_reverse]
  exact Nat.ofDigits_lt_base_pow_length (by decide) fun x hx => h x (List.mem_reverse.mp hx)

theorem can_bytes {l : List Nat} (h : ∀ x ∈ l, x < 256) :
    can 3 (l.map fun b => (1, b)) = Nat.ofDigits 256 l := by
  induction l with
  | nil => rfl
  | cons x l ih =>
      have hx : x < 256 := h x List.mem_cons_self
      rw [List.map_cons, can_cons, ih fun y hy => h y (List.mem_cons_of_mem x hy), two_pow_bytes,
        Nat.pow_one, Nat.mod_eq_of_lt hx, Nat.ofDigits_cons]

theorem zyft_lt (a : Nat) : zyft a < 256 := by
  rw [zyft, cut_byte]
  exact Nat.mod_lt _ (by decide)

/-- The reverse boxes of `++un` undo the forward ones. -/
theorem boxes : (∀ a, a < 256 → zyrtBox / 256 ^ (zyftBox / 256 ^ a % 256) % 256 = a) ∧
    ∀ a, a < 256 → a ≠ 0 →
      zartBox / 256 ^ (zaftBox / 256 ^ (a - 1) % 256 - 1) % 256 = a ∧
        zaftBox / 256 ^ (a - 1) % 256 ≠ 0 := by
  constructor <;> decide +kernel

theorem zyrt_zyft : ∀ a, a < 256 → zyrt (zyft a) = a := by
  intro a ha
  rw [zyrt, zyft, cut_byte, cut_byte, boxes.1 a ha]

theorem zart_zaft : ∀ a, a < 256 → a ≠ 0 → zart (zaft a) = a ∧ zaft a ≠ 0 ∧ zaft a < 256 := by
  intro a ha h0
  obtain ⟨hback, hne⟩ := boxes.2 a ha h0
  rw [zart, zaft, cut_byte, cut_byte]
  exact ⟨hback, hne, Nat.mod_lt _ (by decide)⟩

theorem xaro_xafo {a b : Nat} (hb : b < 256) (h0 : b ≠ 0) :
    xaro a (xafo a b) = b ∧ xafo a b < 256 ∧ xafo a b ≠ 0 := by
  simp only [xaro, xafo]
  omega

section words

variable {pyn cry : Nat}

/-- The bytes of a word below an index, the highest first. -/
def bytesBelow (pyn : Nat) : Nat → List Nat
  | 0 => []
  | len + 1 => cut 3 len 1 pyn :: bytesBelow pyn len

theorem bytesBelow_succ (pyn len : Nat) :
    bytesBelow pyn (len + 1) = cut 3 len 1 pyn :: bytesBelow pyn len := rfl

theorem length_bytesBelow (pyn len : Nat) : (bytesBelow pyn len).length = len := by
  induction len with
  | zero => rfl
  | succ len ih => rw [bytesBelow_succ, List.length_cons, ih]

theorem bytesValue_below (pyn len : Nat) : bytesValue (bytesBelow pyn len) = pyn % 256 ^ len := by
  induction len with
  | zero => simp [show bytesBelow pyn 0 = [] from rfl, bytesValue, Nat.mod_one]
  | succ len ih =>
      rw [bytesBelow_succ, bytesValue_cons, ih, length_bytesBelow, cut_byte, Nat.pow_succ, Nat.mod_mul]

theorem bytesBelow_lt (pyn len : Nat) : ∀ x ∈ bytesBelow pyn len, x < 256 := by
  induction len with
  | zero => exact fun x hx => nomatch hx
  | succ len ih =>
      intro x hx
      rcases List.mem_cons.mp hx with rfl | hx
      · rw [cut_byte]
        exact Nat.mod_lt _ (by decide)
      · exact ih x hx

theorem wrenLoop_succ (pyn len mig : Nat) : wrenLoop pyn (len + 1) mig =
    zyft (mix mig (mix («end» 3 1 len) (cut 3 len 1 pyn))) ::
      wrenLoop pyn len (zyft (mix mig (mix («end» 3 1 len) (cut 3 len 1 pyn)))) := rfl

theorem length_wrenLoop (pyn len mig : Nat) : (wrenLoop pyn len mig).length = len := by
  induction len generalizing mig with
  | zero => rfl
  | succ len ih => rw [wrenLoop_succ, List.length_cons, ih]

theorem wrenLoop_lt (pyn len mig : Nat) : ∀ x ∈ wrenLoop pyn len mig, x < 256 := by
  induction len generalizing mig with
  | zero => exact fun x hx => nomatch hx
  | succ len ih =>
      intro x hx
      rcases List.mem_cons.mp hx with rfl | hx
      · exact zyft_lt _
      · exact ih _ x hx

/-- The top byte of a number and the rest. -/
theorem byte_of_mod {len x r : Nat} (hr : r < 256 ^ len)
    (h : cry % 256 ^ (len + 1) = r + 256 ^ len * x) :
    cut 3 len 1 cry = x ∧ cry % 256 ^ len = r := by
  rw [Nat.pow_succ, Nat.mod_mul] at h
  have hpos : 0 < 256 ^ len := Nat.pow_pos (by decide)
  have hlt : cry % 256 ^ len < 256 ^ len := Nat.mod_lt _ hpos
  have hdiv := congrArg (· / 256 ^ len) h
  have hmod := congrArg (· % 256 ^ len) h
  simp only [Nat.add_mul_div_left _ _ hpos, Nat.div_eq_of_lt hlt, Nat.div_eq_of_lt hr,
    Nat.zero_add] at hdiv
  simp only [Nat.add_mul_mod_self_left, Nat.mod_eq_of_lt hlt, Nat.mod_eq_of_lt hr] at hmod
  rw [cut_byte]
  exact ⟨hdiv, hmod⟩

/-- Going down from the top byte undoes the loop. -/
theorem wredLoop_succ (cry len mig : Nat) : wredLoop cry (len + 1) mig =
    mix mig (mix («end» 3 1 len) (zyrt (cut 3 len 1 cry))) ::
      wredLoop cry len (cut 3 len 1 cry) := rfl

theorem wredLoop_wrenLoop {len mig : Nat} (hm : mig < 256)
    (h : cry % 256 ^ len = bytesValue (wrenLoop pyn len mig)) :
    wredLoop cry len mig = bytesBelow pyn len := by
  induction len generalizing mig with
  | zero => rfl
  | succ len ih =>
      rw [wrenLoop_succ, bytesValue_cons, length_wrenLoop] at h
      have hr : bytesValue (wrenLoop pyn len (zyft (mix mig (mix («end» 3 1 len) (cut 3 len 1 pyn))))) <
          256 ^ len := by
        have := bytesValue_lt (wrenLoop_lt pyn len
          (zyft (mix mig (mix («end» 3 1 len) (cut 3 len 1 pyn)))))
        rwa [length_wrenLoop] at this
      obtain ⟨hcut, hmod⟩ := byte_of_mod hr h
      have hin : mix mig (mix («end» 3 1 len) (cut 3 len 1 pyn)) < 256 := by
        have he : «end» 3 1 len < 2 ^ 8 := by
          rw [end_bytes]
          exact Nat.mod_lt _ (by decide)
        have hc : cut 3 len 1 pyn < 2 ^ 8 := by
          rw [cut_byte]
          exact Nat.mod_lt _ (by decide)
        rw [mix_eq, mix_eq]
        exact Nat.xor_lt_two_pow (n := 8) hm (Nat.xor_lt_two_pow he hc)
      rw [wredLoop_succ, bytesBelow_succ, hcut, zyrt_zyft _ hin, ih (zyft_lt _) hmod]
      congr 1
      have hback : ∀ a b : Nat, a ^^^ (a ^^^ b) = b := by
        intro a b
        rw [← Nat.xor_assoc, Nat.xor_self, Nat.zero_xor]
      simp only [mix_eq]
      rw [← Nat.xor_assoc («end» 3 1 len) mig, Nat.xor_comm («end» 3 1 len) mig, Nat.xor_assoc, hback,
        hback]

/-- Scrambling keeps the length, and can be undone. -/
theorem wren_spec (pyn : Nat) : met 3 (wren pyn) = met 3 pyn ∧ wred (wren pyn) = pyn := by
  by_cases h0 : pyn = 0
  · subst h0
    simp [wren, wred, met_bytes_zero]
  · obtain ⟨n, hn⟩ := met_bytes_succ h0
    have hhi : pyn < 256 ^ (n + 1) := met_bytes_le.mp hn.le
    have hlo : 256 ^ n ≤ pyn := lt_met_bytes.mp (by omega)
    have hpos : 0 < 256 ^ n := Nat.pow_pos (by decide)
    have htop : cut 3 n 1 pyn = pyn / 256 ^ n := by
      rw [cut_byte]
      apply Nat.mod_eq_of_lt
      rwa [Nat.div_lt_iff_lt_mul hpos, ← Nat.pow_succ']
    have htop0 : cut 3 n 1 pyn ≠ 0 := by
      rw [htop]
      exact (Nat.div_pos hlo hpos).ne'
    have htoplt : cut 3 n 1 pyn < 256 := by
      rw [cut_byte]
      exact Nat.mod_lt _ (by decide)
    obtain ⟨hxback, hxlt, hx0⟩ := @xaro_xafo n (cut 3 n 1 pyn) htoplt htop0
    obtain ⟨hzback, hz0, hzlt⟩ := zart_zaft _ hxlt hx0
    have hcry : wren pyn = bytesValue (zaft (xafo n (cut 3 n 1 pyn)) ::
        wrenLoop pyn n (zaft (xafo n (cut 3 n 1 pyn)))) := by
      simp only [wren, hn, Nat.succ_ne_zero, if_false, Nat.add_sub_cancel]
      refine can_bytes fun x hx => ?_
      rcases List.mem_cons.mp (List.mem_reverse.mp hx) with rfl | hx
      · exact hzlt
      · exact wrenLoop_lt _ _ _ x hx
    rw [bytesValue_cons, length_wrenLoop] at hcry
    have hlow : bytesValue (wrenLoop pyn n (zaft (xafo n (cut 3 n 1 pyn)))) < 256 ^ n := by
      have := bytesValue_lt (wrenLoop_lt pyn n (zaft (xafo n (cut 3 n 1 pyn))))
      rwa [length_wrenLoop] at this
    have hmet : met 3 (wren pyn) = n + 1 := by
      rw [hcry, met_bytes_cat hlow hz0,
        met_bytes_eq (n := 0) (Nat.pos_of_ne_zero hz0) (by simpa using hzlt)]
    have hcrylt : wren pyn < 256 ^ (n + 1) := met_bytes_le.mp hmet.le
    obtain ⟨hcut, hmod⟩ := byte_of_mod hlow ((Nat.mod_eq_of_lt hcrylt).trans hcry)
    refine ⟨hmet.trans hn.symm, ?_⟩
    simp only [wred, hmet, Nat.succ_ne_zero, if_false, Nat.add_sub_cancel, hcut, hzback, hxback]
    rw [wredLoop_wrenLoop hzlt hmod, can_bytes]
    · change bytesValue (cut 3 n 1 pyn :: bytesBelow pyn n) = pyn
      rw [bytesValue_cons, bytesValue_below, length_bytesBelow, htop, Nat.mod_add_div]
    · intro x hx
      rcases List.mem_cons.mp (List.mem_reverse.mp hx) with rfl | hx
      · exact htoplt
      · exact bytesBelow_lt _ _ x hx

end words

/-! ### Names are read back -/

/-- The text starts with two lowercase letters. -/
def Lettered (t : Tape) : Prop :=
  ∃ x y s, t = x :: y :: s ∧ (97 ≤ x ∧ x ≤ 122) ∧ (97 ≤ y ∧ y ≤ 122)

theorem Lettered.append {t : Tape} (h : Lettered t) (s : Tape) : Lettered (t ++ s) := by
  obtain ⟨x, y, t, rfl, hx, hy⟩ := h
  exact ⟨x, y, t ++ s, rfl, hx, hy⟩

theorem Lettered.solid {t : Tape} (h : Lettered t) : Solid t := by
  obtain ⟨x, y, t, rfl, hx, -⟩ := h
  exact solid_cons (by omega)

/-- The text of a name, or of a part of it. -/
structure NameText (t : Tape) : Prop where
  lettered : Lettered t
  chars : Chars t

theorem NameText.append {t s : Tape} (h : NameText t) (hs : Chars s) : NameText (t ++ s) :=
  ⟨h.lettered.append s, chars_append.mpr ⟨h.chars, hs⟩⟩

theorem syllable_text {tab : Tape} (ht : Table tab) {b : Nat} (hb : b < 256) :
    NameText (trip (syllable tab b)) := by
  obtain ⟨x, y, z, he, hx, hy, hz⟩ := syllable_letters ht.lower (ht.size.symm ▸ hb)
  rw [he, trip_letters hx hy hz]
  refine ⟨⟨x, y, [z], rfl, hx, hy⟩, ?_⟩
  intro c hc
  simp only [List.mem_cons, List.not_mem_nil, or_false] at hc
  omega

section names

variable {p q : Nat} {s : Tape}

/-- Two bytes have a name, and it is read back. -/
theorem hif_half (hp : p < 0x10000) :
    ∃ t, nameHalf p = some t ∧ NameText t ∧ ∀ s, hif (t ++ s) = .done p s := by
  have hlo : p % 256 < 256 := Nat.mod_lt _ (by decide)
  have hhi : p / 256 < 256 := by omega
  refine ⟨trip (syllable sis (p % 256)) ++ trip (syllable dex (p / 256)), ?_, ?_, ?_⟩
  · simp [nameHalf, tos, tod, hlo, hhi]
  · exact (syllable_text table_sis hlo).append (syllable_text table_dex hhi).chars
  · intro s
    rw [List.append_assoc]
    simp only [hif, boss, cook, cons, easy, tip_syllable hlo, tiq_syllable hhi, Edge.bind_done,
      List.foldr_cons, List.foldr_nil]
    congr 1
    omega

theorem zag_zig {a b : Nat} (ha : a < 0x10000) (hb : b < 0x10000) :
    zag (zig a b).1 (zig a b).2 = (a, b) := by
  simp only [zag, zig, «end», bex_eq, Prod.mk.injEq, and_true]
  norm_num
  omega

theorem zug_halves (n : Nat) : zug (n / 0x10000) (n % 0x10000) = n := by
  have hlo : n % 0x10000 < 2 ^ 16 := Nat.mod_lt _ (by decide)
  have h := xor_shift hlo (n / 0x10000)
  rw [zug, mix_eq, Nat.xor_comm, lsh, bex_eq, bex_eq]
  exact h.trans (Nat.mod_add_div n 0x10000)

/-- The name of a scrambled word is read as the two halves it was made of. -/
theorem plug_halves (syb : Nat) :
    ∃ t, (do
        let p ← nameHalf (zig (syb / 0x10000) (syb % 0x10000)).1
        let q ← nameHalf (zig (syb / 0x10000) (syb % 0x10000)).2
        return p ++ (45 :: q : Tape)) = some t ∧
      NameText t ∧ ∀ s, plug hif (pfix hep hif) (t ++ s) =
        .done (zig (syb / 0x10000) (syb % 0x10000)) s := by
  have hzig : (zig (syb / 0x10000) (syb % 0x10000)).1 < 0x10000 := by
    simp only [zig, «end», bex_eq]
    exact Nat.mod_lt _ (by decide)
  have hbot : (zig (syb / 0x10000) (syb % 0x10000)).2 < 0x10000 := Nat.mod_lt _ (by decide)
  obtain ⟨t₁, ht₁, hn₁, hr₁⟩ := hif_half hzig
  obtain ⟨t₂, ht₂, hn₂, hr₂⟩ := hif_half hbot
  refine ⟨t₁ ++ 45 :: t₂, ?_, ?_, ?_⟩
  · rw [ht₁, ht₂]
    rfl
  · exact hn₁.append (chars_cons.mpr ⟨by decide, hn₂.chars⟩)
  · intro s
    rw [List.append_assoc, List.cons_append]
    simp only [plug, pfix, hr₁, Edge.bind_done, hep_done, hr₂]

/-- Four bytes have a name, and it is read back. -/
theorem huf_word (q : Nat) :
    ∃ t, nameWord q = some t ∧ NameText t ∧ ∀ s, huf (t ++ s) = .done (q % 0x100000000) s := by
  have hend : «end» 5 1 q = q % 0x100000000 := by
    rw [«end», bex_eq, bex_eq]
    rfl
  obtain ⟨hmet, hback⟩ := wren_spec (q % 0x100000000)
  have hsyb : wren (q % 0x100000000) < 256 ^ 4 := by
    rw [← met_bytes_le, hmet, met_bytes_le]
    exact Nat.mod_lt _ (by decide)
  have hrsh : rsh 4 1 (wren (q % 0x100000000)) = wren (q % 0x100000000) / 0x10000 := by
    rw [rsh, bex_eq, bex_eq]
    rfl
  have hend4 : «end» 4 1 (wren (q % 0x100000000)) = wren (q % 0x100000000) % 0x10000 := by
    rw [«end», bex_eq, bex_eq]
    rfl
  obtain ⟨t, ht, hn, hr⟩ := plug_halves (wren (q % 0x100000000))
  refine ⟨t, ?_, hn, fun s => ?_⟩
  · rw [nameWord, hend, hrsh, hend4]
    exact ht
  · have hz := zag_zig (show wren (q % 0x100000000) / 0x10000 < 0x10000 by omega)
      (Nat.mod_lt (wren (q % 0x100000000)) (by decide))
    simp only [huf, cook, hr s, Edge.bind_done, hz, zug_halves, hback]

/-- Scrambling can be undone, of numbers of any length and of the halves of a word, and the
name of a word is the name of no other. -/
theorem scramble_undone :
    (∀ x, wred (wren x) = x ∧ met 3 (wren x) = met 3 x) ∧
      (∀ top bot, top < 2 ^ 16 → bot < 2 ^ 16 → zag (zig top bot).1 (zig top bot).2 = (top, bot)) ∧
      ∀ p, ∃ t, nameWord p = some t ∧ ∀ q, nameWord q = some t ↔ q % 2 ^ 32 = p % 2 ^ 32 := by
  refine ⟨fun x => (wren_spec x).symm, fun top bot => zag_zig, fun p => ?_⟩
  obtain ⟨t, ht, -, hread⟩ := huf_word p
  refine ⟨t, ht, fun q => ⟨fun hq => ?_, fun hq => ?_⟩⟩
  · obtain ⟨u, hu, -, hread'⟩ := huf_word q
    obtain rfl : u = t := Option.some.inj (hu.symm.trans hq)
    have hsame : Edge.done (q % 2 ^ 32) [] = Edge.done (p % 2 ^ 32) [] := (hread' []).symm.trans (hread [])
    injection hsame
  · have hend : «end» 5 1 q = «end» 5 1 p := by
      simp only [«end», bex_eq]
      exact hq
    rw [← ht, nameWord, nameWord, hend]

/-! ### Names of any length -/

/-- Words, the highest first. -/
def wordsHigh (q : Nat) : Nat → List Nat
  | 0 => []
  | n + 1 => wordsHigh (q / 0x100000000) n ++ [q % 0x100000000]

/-- What stands after the word that comes `k`-th from the top. -/
def nameSep (k : Nat) : Tape := 45 :: if k % 2 = 1 then [] else [45]

/-- The text of words, the highest first. -/
def nameText (k : Nat) : List Nat → Tape
  | [] => []
  | [w] => (nameWord w).getD []
  | w :: v :: ws => (nameWord w).getD [] ++ (nameSep k ++ nameText (k + 1) (v :: ws))

theorem nameText_cons (k w : Nat) {ws : List Nat} (h : ws ≠ []) :
    nameText k (w :: ws) = (nameWord w).getD [] ++ (nameSep k ++ nameText (k + 1) ws) := by
  cases ws with
  | nil => exact absurd rfl h
  | cons v ws => rw [nameText]

theorem nameWord_mod (q : Nat) : nameWord (q % 0x100000000) = nameWord q := by
  have hend : «end» 5 1 (q % 0x100000000) = «end» 5 1 q := by
    simp only [«end», bex_eq]
    exact Nat.mod_mod _ _
  rw [nameWord, nameWord, hend]

theorem nameWord_some (q : Nat) : nameWord q = some ((nameWord q).getD []) := by
  obtain ⟨t, ht, -⟩ := huf_word q
  rw [ht]
  rfl

/-- The loop puts the words in front, the lowest first. -/
theorem nameLoop_text (dyz q : Nat) {ws : List Nat} (h : ws ≠ []) :
    nameLoop dyz true q (nameText (dyz + 1) ws) = some (nameText 1 (wordsHigh q dyz ++ ws)) := by
  induction dyz generalizing q ws with
  | zero => rfl
  | succ dyz ih =>
      have hrsh : rsh 5 1 q = q / 0x100000000 := by
        rw [rsh, bex_eq, bex_eq]
        rfl
      rw [nameLoop, nameWord_some]
      simp only [Option.bind_eq_bind, Option.bind_some]
      have hstep := ih (q / 0x100000000) (List.cons_ne_nil (q % 0x100000000) ws)
      rw [nameText_cons _ _ h, nameWord_mod] at hstep
      rw [hrsh, wordsHigh, List.append_assoc, List.singleton_append, ← hstep]
      rfl

/-- The text of a name of more than two bytes. -/
theorem nameLoop_eq (n q : Nat) :
    nameLoop (n + 1) false q [] = some (nameText 1 (wordsHigh q (n + 1))) := by
  have hrsh : rsh 5 1 q = q / 0x100000000 := by
    rw [rsh, bex_eq, bex_eq]
    rfl
  have hstep := nameLoop_text n (q / 0x100000000) (List.cons_ne_nil (q % 0x100000000) [])
  rw [nameText, nameWord_mod] at hstep
  rw [nameLoop, nameWord_some]
  simp only [Option.bind_eq_bind, Option.bind_some, hrsh, wordsHigh, ← hstep]
  simp

/-! ### Pairs of words -/

/-- The words of a name, two at a time. -/
def pairValues : List Nat → List Nat
  | a :: b :: ws => (b % 0x100000000 + 0x100000000 * (a % 0x100000000)) :: pairValues ws
  | _ => []

/-- What comes after a pair of words. -/
def pairsText (ws : List Nat) : Tape := if ws = [] then [] else 45 :: 45 :: nameText 1 ws

theorem nameText_parity (k : Nat) (ws : List Nat) : nameText (k + 2) ws = nameText k ws := by
  induction ws generalizing k with
  | nil => rfl
  | cons w ws ih =>
      cases ws with
      | nil => rfl
      | cons v ws =>
          rw [nameText, nameText, ih]
          simp [nameSep]

theorem nameText_pair (a b : Nat) (ws : List Nat) :
    nameText 1 (a :: b :: ws) =
      (nameWord a).getD [] ++ 45 :: ((nameWord b).getD [] ++ pairsText ws) := by
  rw [nameText]
  cases ws with
  | nil => simp [nameText, nameSep, pairsText]
  | cons c ws =>
      rw [nameText, nameText_parity]
      simp [nameSep, pairsText]

theorem huf_getD (w : Nat) (s : Tape) :
    huf ((nameWord w).getD [] ++ s) = .done (w % 0x100000000) s := by
  obtain ⟨t, ht, -, hr⟩ := huf_word w
  rw [ht]
  exact hr s

theorem nameText_word (w : Nat) : NameText ((nameWord w).getD []) := by
  obtain ⟨t, ht, hn, -⟩ := huf_word w
  rw [ht]
  exact hn

theorem hyf_pair (a b : Nat) (s : Tape) :
    hyf ((nameWord a).getD [] ++ 45 :: ((nameWord b).getD [] ++ s)) =
      .done (b % 0x100000000 + 0x100000000 * (a % 0x100000000)) s := by
  simp [hyf, bass, cook, cons, pfix, easy, huf_getD]

/-- One word is no pair. -/
theorem hyf_single (w : Nat) : hyf ((nameWord w).getD []) = .fail := by
  have h := huf_getD w []
  rw [List.append_nil] at h
  simp [hyf, bass, cook, cons, h, pfix, hep]

theorem nameText_lettered (k : Nat) {ws : List Nat} (h : ws ≠ []) : Lettered (nameText k ws) := by
  cases ws with
  | nil => exact absurd rfl h
  | cons w ws =>
      cases ws with
      | nil => exact (nameText_word w).lettered
      | cons v ws => exact (nameText_word w).lettered.append _

theorem nameText_chars (k : Nat) (ws : List Nat) : Chars (nameText k ws) := by
  induction ws generalizing k with
  | nil => exact chars_nil
  | cons w ws ih =>
      cases ws with
      | nil => exact (nameText_word w).chars
      | cons v ws =>
          rw [nameText, chars_append, chars_append]
          refine ⟨(nameText_word w).chars, ?_, ih (k + 1)⟩
          rw [nameSep]
          split <;> decide

/-- The pairs are read up to the end, or up to a last word that has no pair. -/
theorem star_pairs (ws : List Nat) :
    ∃ rest, star (pfix doh hyf) (pairsText ws) = .done (pairValues ws) rest ∧
      (rest = [] ↔ ws.length % 2 = 0) := by
  induction ws using pairValues.induct with
  | case1 a b ws ih =>
      obtain ⟨rest, hr, hev⟩ := ih
      refine ⟨rest, ?_, by rw [hev, List.length_cons, List.length_cons]; omega⟩
      have hsolid := (nameText_lettered 1 (List.cons_ne_nil a (b :: ws))).solid
      have hpair : pfix doh hyf (pairsText (a :: b :: ws)) =
          .done (b % 0x100000000 + 0x100000000 * (a % 0x100000000)) (pairsText ws) := by
        rw [pairsText, if_neg (List.cons_ne_nil _ _), pfix, doh_solid hsolid, Edge.bind_done,
          nameText_pair, hyf_pair]
      refine star_done hpair ?_ hr
      have htext : pairsText (a :: b :: ws) = 45 :: 45 :: nameText 1 (a :: b :: ws) :=
        if_neg (List.cons_ne_nil _ _)
      rw [htext, nameText_pair]
      simp only [List.length_cons, List.length_append]
      omega
  | case2 ws hno =>
      rcases ws with _ | ⟨w, _ | ⟨b, ws⟩⟩
      · exact ⟨[], star_fail rfl, by simp⟩
      · refine ⟨45 :: 45 :: nameText 1 [w], star_fail ?_, by simp⟩
        have hsolid := (nameText_lettered 1 (List.cons_ne_nil w [])).solid
        rw [pairsText, if_neg (List.cons_ne_nil _ _), pfix, doh_solid hsolid, Edge.bind_done, nameText,
          hyf_single]
      · exact absurd rfl (hno w b ws)

theorem foldl_pairs (ws : List Nat) (h : ∀ w ∈ ws, w < 0x100000000) (hev : ws.length % 2 = 0) :
    ∀ v, (pairValues ws).foldl (fun q p => p + 0x10000000000000000 * q) v =
      ws.foldl (fun q p => p + 0x100000000 * q) v := by
  induction ws using pairValues.induct with
  | case1 a b ws ih =>
      intro v
      have ha := h a (by simp)
      have hb := h b (by simp)
      have hev' : ws.length % 2 = 0 := by
        rw [List.length_cons, List.length_cons] at hev
        omega
      rw [pairValues, List.foldl_cons, ih (fun w hw => h w (by simp [hw])) hev', List.foldl_cons,
        List.foldl_cons, Nat.mod_eq_of_lt ha, Nat.mod_eq_of_lt hb]
      congr 1
      ring
  | case2 ws hno =>
      match ws, hno with
      | [], _ => exact fun v => rfl
      | [w], _ => simp at hev
      | a :: b :: ws, hno => exact absurd rfl (hno a b ws)

theorem length_wordsHigh (q n : Nat) : (wordsHigh q n).length = n := by
  induction n generalizing q with
  | zero => rfl
  | succ n ih => rw [wordsHigh, List.length_append, ih, List.length_singleton]

theorem wordsHigh_lt (q n : Nat) : ∀ w ∈ wordsHigh q n, w < 0x100000000 := by
  induction n generalizing q with
  | zero => exact fun w hw => nomatch hw
  | succ n ih =>
      intro w hw
      rw [wordsHigh, List.mem_append, List.mem_singleton] at hw
      rcases hw with hw | rfl
      · exact ih _ w hw
      · exact Nat.mod_lt _ (by decide)

theorem wordsHigh_value (q n : Nat) :
    (wordsHigh q n).foldl (fun q p => p + 0x100000000 * q) 0 = q % 0x100000000 ^ n := by
  induction n generalizing q with
  | zero => simp [wordsHigh, Nat.mod_one]
  | succ n ih =>
      rw [wordsHigh, List.foldl_append, ih, List.foldl_cons, List.foldl_nil, Nat.pow_succ',
        Nat.mod_mul]

theorem huf_nil_fail {t : Tape} (h : ∀ s, hif (t ++ s) = .done p s) : huf t = .fail := by
  have h := h []
  rw [List.append_nil] at h
  simp [huf, cook, plug, h, pfix, hep]

theorem hyf_fail {t : Tape} (h : huf t = .fail) : hyf t = .fail := by
  simp [hyf, bass, cook, cons, h]

theorem most_fail {t : Tape} (h : hyf t = .fail) :
    bass 0x10000000000000000 (most doh hyf) t = .fail := by
  simp [bass, cook, most, cons, h]

/-- One syllable is read by the last rule only. -/
theorem fed_byte (hp : p < 256) : fed (trip (syllable dex p)) = .done p [] := by
  have htil := til_syllable table_dex hp []
  have htiq := tiq_syllable hp []
  rw [List.append_nil] at htil htiq
  have hhif : hif (trip (syllable dex p)) = .fail := by
    have htip : tip (trip (syllable dex p)) = .fail ∨ ∃ v, tip (trip (syllable dex p)) = .done v [] := by
      simp only [tip, sear, htil, Edge.bind_done]
      cases ins (syllable dex p) with
      | none => exact .inl rfl
      | some v => exact .inr ⟨v, rfl⟩
    have hnil : tiq [] = .fail := rfl
    rcases htip with h | ⟨v, h⟩ <;> simp [hif, boss, cook, cons, h, hnil]
  have hhuf : huf (trip (syllable dex p)) = .fail := by simp [huf, cook, plug, hhif]
  simp [fed, pose, most_fail (hyf_fail hhuf), hhuf, hhif, htiq]

theorem fed_half {t : Tape} (h : ∀ s, hif (t ++ s) = .done p s) : fed t = .done p [] := by
  have hhuf := huf_nil_fail h
  have hhif := h []
  rw [List.append_nil] at hhif
  simp [fed, pose, most_fail (hyf_fail hhuf), hhuf, hhif]

theorem fed_word (w : Nat) : fed ((nameWord w).getD []) = .done (w % 0x100000000) [] := by
  have hhuf := huf_getD w []
  rw [List.append_nil] at hhuf
  simp [fed, pose, most_fail (hyf_single w), hhuf]

/-- Two words or more are read in pairs. -/
theorem fed_words {ws : List Nat} (h : ∀ w ∈ ws, w < 0x100000000) (hlen : 2 ≤ ws.length) :
    ∃ v rest, fed (nameText 1 ws) = .done v rest ∧ (rest = [] ↔ ws.length % 2 = 0) ∧
      (ws.length % 2 = 0 → v = ws.foldl (fun q p => p + 0x100000000 * q) 0) := by
  match ws, hlen with
  | a :: b :: ws, _ =>
      obtain ⟨rest, hr, hev⟩ := star_pairs ws
      have hmost : most doh hyf (nameText 1 (a :: b :: ws)) = .done (pairValues (a :: b :: ws)) rest := by
        rw [nameText_pair]
        simp only [most, cons, hyf_pair, Edge.bind_done, hr, pairValues]
      refine ⟨(pairValues (a :: b :: ws)).foldl (fun q p => p + 0x10000000000000000 * q) 0, rest, ?_,
        ?_, fun he => foldl_pairs _ h he 0⟩
      · simp [fed, pose, bass, cook, hmost]
      · rw [hev, List.length_cons, List.length_cons]
        omega

/-- A name is read back, unless it has an odd number of words above one: then the last word
is left. -/
theorem fed_rendName (q : Nat) :
    ∃ t, rendName q [] = some (126 :: t) ∧ NameText t ∧ ∃ v rest, fed t = .done v rest ∧
      (if met 5 q % 2 = 0 ∨ met 5 q = 1 then v = q ∧ rest = [] else rest ≠ []) := by
  have hfive : ∀ n, met 5 q ≤ n ↔ q < 0x100000000 ^ n := by
    intro n
    rw [met_le, Nat.pow_mul]
    rfl
  by_cases h1 : met 3 q ≤ 1
  · have hq : q < 256 := by simpa using met_bytes_le.mp h1
    have h5 : met 5 q ≤ 1 := (hfive 1).mpr (by omega)
    refine ⟨trip (syllable dex q), ?_, syllable_text table_dex hq, q, [], fed_byte hq, ?_⟩
    · simp [rendName, h1, tod, hq]
    · rw [if_pos (by omega)]
      exact ⟨rfl, rfl⟩
  · by_cases h2 : met 3 q = 2
    · have hq : q < 0x10000 := met_bytes_le.mp h2.le
      have h5 : met 5 q ≤ 1 := (hfive 1).mpr (by omega)
      obtain ⟨t, ht, hn, hr⟩ := hif_half hq
      refine ⟨t, ?_, hn, q, [], fed_half hr, ?_⟩
      · simp [rendName, h2, ht]
      · rw [if_pos (by omega)]
        exact ⟨rfl, rfl⟩
    · have hq0 : q ≠ 0 := by
        rintro rfl
        exact h1 (by rw [met_bytes_zero]; omega)
      obtain ⟨n, hn⟩ : ∃ n, met 5 q = n + 1 := by
        refine Nat.exists_eq_succ_of_ne_zero fun h0 => hq0 ?_
        simpa using (hfive 0).mp h0.le
      have hval := wordsHigh_value q (n + 1)
      rw [Nat.mod_eq_of_lt ((hfive (n + 1)).mp hn.le)] at hval
      have hlen := length_wordsHigh q (n + 1)
      have hne : wordsHigh q (n + 1) ≠ [] := by
        intro he
        rw [he] at hlen
        cases hlen
      refine ⟨nameText 1 (wordsHigh q (n + 1)), ?_, ⟨nameText_lettered 1 hne, nameText_chars 1 _⟩, ?_⟩
      · rw [rendName, if_neg h1, if_neg h2, hn, nameLoop_eq]
        rfl
      · cases n with
        | zero =>
            have hq : q < 0x100000000 := by simpa using (hfive 1).mp hn.le
            refine ⟨q, [], ?_, ?_⟩
            · have hw := fed_word (q % 0x100000000)
              rw [Nat.mod_mod, Nat.mod_eq_of_lt hq] at hw
              simpa [wordsHigh, nameText, Nat.mod_eq_of_lt hq] using hw
            · rw [if_pos (.inr hn)]
              exact ⟨rfl, rfl⟩
        | succ n =>
            obtain ⟨v, rest, hf, hrest, hv⟩ := fed_words (wordsHigh_lt q (n + 1 + 1)) (by omega)
            rw [hlen] at hrest hv
            refine ⟨v, rest, hf, ?_⟩
            rw [hn]
            split
            · next hc =>
                have hev : (n + 1 + 1) % 2 = 0 := by omega
                exact ⟨(hv hev).trans hval, hrest.mpr hev⟩
            · next hc => exact fun he => hc (.inl (hrest.mp he))

end names

end Vere.Hoon
