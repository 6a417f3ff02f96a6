import Vere.Hoon.Cord
import Vere.Hoon.Rule

/-!
# Vere.Zuse.Xml

XML (`zuse.hoon`, section 3bD): `++xmlt` prints a node and `++xmlp` parses one.

A text node is an element with the empty name whose only attribute has the empty name too. The
printer writes five characters as entities. The parser reads the same five, but knows a single
quote as `&apos;` where the printer writes `&#39;`.
-/

namespace Vere.Zuse

open Vere.Lib Vere.Lib.Rule Vere.Hoon Glyph

/-- `++mane`: XML name, or one in a space. -/
inductive Mane
  | term (p : Nat)
  | cell (p q : Nat)
  deriving DecidableEq

/-- `++mart`: XML attributes. -/
abbrev Mart := List (Mane × Tape)

/-- `++marx`: XML tag. -/
structure Marx where
  n : Mane
  a : Mart

/-- `++manx`: XML node. -/
inductive Manx
  | node (g : Marx) (c : List Manx)

/-- `:/`: a text node. -/
def Manx.text (v : Tape) : Manx := .node ⟨.term 0, [(.term 0, v)]⟩ []

/-! ### Print XML -/

/-- What `++xmle` writes for a character. -/
def xmleChar (i : Nat) : Tape :=
  if i = 34 then ['&'.toNat, 'q'.toNat, 'u'.toNat, 'o'.toNat, 't'.toNat, ';'.toNat]
  else if i = 38 then ['&'.toNat, 'a'.toNat, 'm'.toNat, 'p'.toNat, ';'.toNat]
  else if i = 39 then ['&'.toNat, '#'.toNat, '3'.toNat, '9'.toNat, ';'.toNat]
  else if i = 60 then ['&'.toNat, 'l'.toNat, 't'.toNat, ';'.toNat]
  else if i = 62 then ['&'.toNat, 'g'.toNat, 't'.toNat, ';'.toNat]
  else [i]

/-- The loop of `++xmle`, from the last character on. -/
def xmleLoop : Tape → Tape → Tape
  | [], rez => rez
  | i :: xet, rez => xmleLoop xet (xmleChar i ++ rez)

/-- `++xmle`: escape for XML. -/
def xmle (unq : Bool) (tex rez : Tape) : Tape :=
  if unq then tex ++ rez else xmleLoop tex.reverse rez

/-- `++xmln`: name to tape. -/
def xmln : Mane → Tape
  | .term man => trip man
  | .cell p q => trip p ++ ':'.toNat :: trip q

/-- `++xmla`: attributes to tape. -/
def xmla : Mart → Tape → Tape
  | [], rez => rez
  | (n, v) :: t, rez =>
      let ryq := xmla t rez
      xmln n ++ ['='.toNat, '\x22'.toNat] ++
        xmle false v ('\x22'.toNat :: (if t.isEmpty then ryq else ' '.toNat :: ryq))

/-- `%script`. -/
def script : Mane := .term 0x747069726373

/-- `%style`. -/
def style : Mane := .term 0x656c797473

mutual

/-- `++xmlt`: node to tape. -/
def xmlt (unq : Bool) : Manx → Tape → Tape
  | .node ⟨.term 0, [(.term 0, v)]⟩ _, rez => xmle unq v rez
  | .node ⟨man, att⟩ c, rez =>
      let unq := unq || man = script || man = style
      let tam := xmln man
      let bod := '>'.toNat :: xmll unq c (['<'.toNat, '/'.toNat] ++ tam ++ '>'.toNat :: rez)
      '<'.toNat :: (tam ++ (if att.isEmpty then bod else ' '.toNat :: xmla att bod))

/-- `++xmll`: node list to tape. -/
def xmll (unq : Bool) : List Manx → Tape → Tape
  | [], rez => rez
  | i :: t, rez => xmlt unq i (xmll unq t rez)

end

/-! ### Parse XML -/

namespace Xmlp

/-- `chx` of `++name`. -/
def chx : Rule Nat Nat := cook (rap 3) (cons (pose cab alf) (star (pose cab (pose dot alp))))

/-- `++name`: tag name. -/
def name : Rule Nat Mane :=
  pose (cook (fun x => .cell x.1 x.2) (plug (sfix chx col) chx)) (cook .term chx)

/-- `++tail`: closing tag. -/
def tail : Rule Nat Mane := ifix (jest ['<', '/']) gar name

/-- `++whit`: whitespace. -/
def whit : Rule Nat Nat := mask [0x20, 0x9, 0xa]

/-- `++comt`: comments. -/
def comt : Rule Nat Tape :=
  ifix (jest ['<', '!', '-', '-']) (jest ['-', '-', '>'])
    (star (less (jest ['-', '-', '>']) (pose whit prn)))

/-- `++escp`. -/
def escp : Rule Nat Nat :=
  poses [less gal (less gar (less pam prn)), cold '>'.toNat (jest ['&', 'g', 't', ';']),
    cold '<'.toNat (jest ['&', 'l', 't', ';']), cold '&'.toNat (jest ['&', 'a', 'm', 'p', ';']),
    cold '\x22'.toNat (jest ['&', 'q', 'u', 'o', 't', ';']),
    cold '\x27'.toNat (jest ['&', 'a', 'p', 'o', 's', ';'])]

/-- `++attr`: attributes. -/
def attr : Rule Nat Mart :=
  star (pfix (plus whit) (plug name
    (pfix tis (pose (ifix doq doq (star (less doq escp))) (ifix soq soq (star (less soq escp)))))))

/-- `++chrd`: character data. -/
def chrd : Rule Nat Manx := cook Manx.text (plus (less soq (less doq (pose (just 10) escp))))

/-- `++empt`: self-closing tag. -/
def empt : Rule Nat Manx :=
  ifix gal (plug (stun ace 0 1) (jest ['/', '>']))
    (cook (fun x => .node ⟨x.1.1, x.1.2⟩ x.2)
      (plug (plug name attr) (cold ([] : List Manx) (star whit))))

/-- `++head`: opening tag. -/
def head : Rule Nat Marx := ifix gal gar (cook (fun x => ⟨x.1, x.2⟩) (plug name attr))

/-- `spa` of `++apex`. -/
def spa : Rule Nat Unit := pose (cold () comt) (cold () whit)

/-- A tag, what is in it, and the tag that closes it. -/
def whole (apex : Rule Nat Manx) : Rule Nat Manx :=
  sear (fun x => some (if x.2.2 = x.1.n then some (.node x.1 x.2.1) else none))
    (plug head (plug (more (star comt) (pose apex chrd)) tail))

/-- `++apex`, with a bound on the depth. -/
def apexAt : Nat → Rule Nat Manx
  | 0 => fun _ => .crash
  | n + 1 => ifix (star spa) (star spa) (pose (whole (apexAt n)) empt)

/-- `++apex`. -/
def apex : Rule Nat Manx := fun tub => apexAt (tub.length + 1) tub

end Xmlp

end Vere.Zuse
