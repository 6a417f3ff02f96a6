import Vere.Hoon.Cord
import Vere.Hoon.Map
import Vere.Hoon.Virt

/-!
# Vere.Hoon.Parse

Parsing rules with their traces (`hoon.hoon`, sections 2eB to 2eD).

A rule takes a `++nail`, a tape and the `++hair` (line and column) of its first character, to an
`++edge`: how far it looked, and a product with the nail that is left if it succeeded. `parse`
runs any rule that is put together from the arms.

A gate is a function on nouns that may crash or run for ever. A rule that calls itself does so
through `knee`, by a name that `kit` gives a rule.
-/

namespace Vere.Hoon.Parse

open Vere.Lib

/-- `++hair`: line and column. -/
structure Hair where
  p : Nat
  q : Nat
  deriving DecidableEq, Repr

/-- `++nail`: parsing input. -/
structure Nail where
  p : Hair
  q : List Nat
  deriving DecidableEq, Repr

/-- `++edge`: parsing output. -/
structure Edge where
  p : Hair
  q : Option (Noun × Nail)
  deriving DecidableEq, Repr

/-- `++rule`. -/
abbrev Rule := Nail → Virt Edge

def Hair.noun (h : Hair) : Noun := .cell (.atom h.p) (.atom h.q)

def tapeNoun (q : List Nat) : Noun := q.foldr (fun i t => .cell (.atom i) t) (.atom 0)

def Nail.noun (tub : Nail) : Noun := .cell tub.p.noun (tapeNoun tub.q)

/-- A product and the nail after it, as `(unit)`. -/
def wonkNoun : Option (Noun × Nail) → Noun
  | none => .atom 0
  | some (p, q) => .cell (.atom 0) (.cell p q.noun)

def Edge.noun (e : Edge) : Noun := .cell e.p.noun (wonkNoun e.q)

/-- `++last`: farther trace. -/
def last (zyc naz : Hair) : Hair :=
  if zyc.p = naz.p then if zyc.q > naz.q then zyc else naz
  else if zyc.p > naz.p then zyc else naz

/-- `++lust`: detect newline. -/
def lust (weq : Nat) (naz : Hair) : Hair := if 10 = weq then ⟨naz.p + 1, 1⟩ else ⟨naz.p, naz.q + 1⟩

/-! ### Rules for characters -/

/-- `++fail`: never parse. -/
def fail (tub : Nail) : Edge := ⟨tub.p, none⟩

/-- `++easy`: always parse. -/
def easy (huf : Noun) (tub : Nail) : Edge := ⟨tub.p, some (huf, tub)⟩

/-- `++next`: consume a char. -/
def next (tub : Nail) : Edge :=
  match tub.q with
  | [] => fail tub
  | i :: t =>
      let zac := lust i tub.p
      ⟨zac, some (.atom i, ⟨zac, t⟩)⟩

/-- `++just`: match a char. -/
def just (daf : Nat) (tub : Nail) : Edge :=
  match tub.q with
  | [] => fail tub
  | i :: _ => if daf = i then next tub else fail tub

/-- `++mask`: match char in set. -/
def mask (bud : List Nat) (tub : Nail) : Edge :=
  match tub.q with
  | [] => fail tub
  | i :: _ => if bud.any fun a => i = a then next tub else fail tub

/-- `++shim`: match char in range. -/
def shim (les mos : Nat) (tub : Nail) : Edge :=
  match tub.q with
  | [] => fail tub
  | i :: _ => if i ≥ les ∧ i ≤ mos then next tub else fail tub

/-- The loop of `++jest`. -/
def jestLoop (fad : Nat) : Nat → Hair → List Nat → Edge
  | daf, p, [] => if daf = 0 then ⟨p, some (.atom fad, ⟨p, []⟩)⟩ else fail ⟨p, []⟩
  | daf, p, i :: t =>
      if daf = 0 then ⟨p, some (.atom fad, ⟨p, i :: t⟩)⟩
      else if «end» 3 1 daf ≠ i then fail ⟨p, i :: t⟩
      else jestLoop fad (rsh 3 1 daf) (lust i p) t

/-- `++jest`: match a cord. -/
def jest (daf : Nat) (tub : Nail) : Edge := jestLoop daf daf tub.p tub.q

/-! ### Rules by their first character -/

/-- `?(@ [@ @])`: a character or a range of characters. -/
inductive Key
  | one (p : Nat)
  | two (p q : Nat)
  deriving DecidableEq, Repr

def Key.noun : Key → Noun
  | .one p => .atom p
  | .two p q => .cell (.atom p) (.atom q)

/-- The character is the key, or in its range. -/
def Key.has (p : Key) (i : Nat) : Bool :=
  match p with
  | .one p => p = i
  | .two p q => i ≥ p ∧ i ≤ q

/-- `wor` of `++stew`. -/
def wor (ort wan : Key) : Bool :=
  match ort, wan with
  | .one ort, .one wan => ort < wan
  | .one ort, .two wan _ => ort < wan
  | .two _ ort, .one wan => ort < wan
  | .two _ ort, .two wan _ => ort < wan

section stew

variable {β : Type} (mug : Noun → Nat)

/-- The loop of `++stew` that puts a rule in the tree. -/
def stewPut (p : Key) (q : β) : Treap Key β → Treap Key β
  | .nil => .node p q .nil .nil
  | .node pn qn l r =>
      let hp := fun a b : Key => vor mug a.noun b.noun
      if wor p pn then .linkLeft hp pn qn (stewPut p q l) r
      else .linkRight hp pn qn l (stewPut p q r)

/-- `hel` of `++stew`. -/
def stewTree (leh : List (Key × β)) : Treap Key β :=
  leh.foldr (fun i yal => stewPut mug i.1 i.2 yal) .nil

/-- The loop of `++stew` that looks for a rule. -/
def stewFind (i : Nat) : Treap Key β → Option β
  | .nil => none
  | .node pn qn l r =>
      if pn.has i then some qn
      else if wor (.one i) pn then stewFind i l
      else stewFind i r

end stew

/-- `++stew`: switch by first char. A rule is called by `slam`. -/
def stew {β : Type} (mug : Noun → Nat) (slam : β → Rule) (leh : List (Key × β)) (tub : Nail) :
    Virt Edge :=
  match tub.q with
  | [] => return fail tub
  | i :: _ =>
      match stewFind i (stewTree mug leh) with
      | none => return fail tub
      | some q => slam q tub

theorem stew_cons {β : Type} (mug : Noun → Nat) (slam : β → Rule) (leh : List (Key × β))
    (p : Hair) (c : Nat) (t : List Nat) :
    stew mug slam leh ⟨p, c :: t⟩ =
      match stewFind c (stewTree mug leh) with
      | none => return fail ⟨p, c :: t⟩
      | some q => slam q ⟨p, c :: t⟩ := rfl

/-! ### Rules made of a rule -/

/-- `++cold`: replace w/ constant. -/
def cold (cus : Noun) (sef : Rule) (tub : Nail) : Virt Edge := do
  let vex ← sef tub
  match vex.q with
  | none => return vex
  | some (_, q) => return ⟨vex.p, some (cus, q)⟩

/-- `++cook`: apply gate. -/
def cook (poq : Noun → Virt Noun) (sef : Rule) (tub : Nail) : Virt Edge := do
  let vex ← sef tub
  match vex.q with
  | none => return vex
  | some (p, q) => return ⟨vex.p, some (← poq p, q)⟩

/-- `++full`: has to fully parse. -/
def full (sef : Rule) (tub : Nail) : Virt Edge := do
  let vex ← sef tub
  match vex.q with
  | none => return vex
  | some (_, q) => return if q.q = [] then vex else ⟨vex.p, none⟩

/-- `++here`: place-based apply. -/
def here (hez : Noun → Virt Noun) (sef : Rule) (tub : Nail) : Virt Edge := do
  let vex ← sef tub
  match vex.q with
  | none => return vex
  | some (p, q) => return ⟨vex.p, some (← hez (.cell (.cell tub.p.noun q.p.noun) p), q)⟩

/-- `++sear`: conditional cook. -/
def sear (pyq : Noun → Virt (Option Noun)) (sef : Rule) (tub : Nail) : Virt Edge := do
  let vex ← sef tub
  match vex.q with
  | none => return vex
  | some (p, q) =>
      match ← pyq p with
      | none => return ⟨vex.p, none⟩
      | some u => return ⟨vex.p, some (u, q)⟩

/-- `++stag`: add a label. -/
def stag (gob : Noun) (sef : Rule) (tub : Nail) : Virt Edge := do
  let vex ← sef tub
  match vex.q with
  | none => return vex
  | some (p, q) => return ⟨vex.p, some (.cell gob p, q)⟩

/-- The body of `++stir`. It calls itself as `again`. -/
def stir (rud : Noun) (raq : Noun → Virt Noun) (fel again : Rule) (tub : Nail) : Virt Edge := do
  let vex ← fel tub
  match vex.q with
  | none => return ⟨vex.p, some (rud, tub)⟩
  | some (p, q) =>
      let wag ← again q
      match wag.q with
      | none => throw ()
      | some (p', q') => return ⟨last vex.p wag.p, some (← raq (.cell p p'), q')⟩

/-- The body of `++stun`: parse several times. It calls itself, with other bounds, as `again`. -/
def stun (les mos : Nat) (fel : Rule) (again : Nat → Nat → Rule) (tub : Nail) : Virt Edge := do
  if mos = 0 then return ⟨tub.p, some (.atom 0, tub)⟩
  let vex ← fel tub
  match vex.q with
  | none => return if les = 0 then ⟨vex.p, some (.atom 0, tub)⟩ else vex
  | some (p, q) =>
      let wag ← again (if les = 0 then 0 else les - 1) (if mos = 0 then 0 else mos - 1) q
      match wag.q with
      | none => return wag
      | some (p', q') => return ⟨wag.p, some (.cell p p', q')⟩

/-- `++stir`: parse repeatedly, with fuel for the rounds. -/
def stirs (rud : Noun) (raq : Noun → Virt Noun) (fel : Rule) : Nat → Rule
  | 0 => fun _ => .never
  | n + 1 => stir rud raq fel (stirs rud raq fel n)

/-! ### Rules made of two -/

/-- A rule as the second argument of an arm: a gate with a nail in its sample. -/
structure Sab where
  tub : Nail
  slam : Rule

/-- `(sab)`. -/
def Sab.kick (sab : Sab) : Virt Edge := sab.slam sab.tub

/-- `;~(fun vex sab)`. -/
def gonad (f : Edge → Sab → Virt Edge) (vex sab : Rule) (tub : Nail) : Virt Edge := do
  f (← vex tub) ⟨tub, sab⟩

/-- `++bend`: conditional comp. -/
def bend (raq : Noun → Virt (Option Noun)) (vex : Edge) (sab : Sab) : Virt Edge :=
  match vex.q with
  | none => return vex
  | some (p, q) => do
      let yit ← sab.slam q
      let yur := last vex.p yit.p
      match yit.q with
      | none => return ⟨yur, vex.q⟩
      | some (p', q') =>
          match ← raq (.cell p p') with
          | none => return ⟨yur, vex.q⟩
          | some u => return ⟨yur, some (u, q')⟩

/-- `++comp`: arbitrary compose. -/
def comp (raq : Noun → Noun → Virt Noun) (vex : Edge) (sab : Sab) : Virt Edge :=
  match vex.q with
  | none => return vex
  | some (p, q) => do
      let yit ← sab.slam q
      let yur := last vex.p yit.p
      match yit.q with
      | none => return ⟨yur, yit.q⟩
      | some (p', q') => return ⟨yur, some (← raq p p', q')⟩

/-- `++pfix`: discard first rule. -/
def pfix : Edge → Sab → Virt Edge := comp fun _ b => return b

/-- `++sfix`: discard second rule. -/
def sfix : Edge → Sab → Virt Edge := comp fun a _ => return a

/-- `++plug`: first then second. -/
def plug (vex : Edge) (sab : Sab) : Virt Edge :=
  match vex.q with
  | none => return vex
  | some (p, q) => do
      let yit ← sab.slam q
      let yur := last vex.p yit.p
      match yit.q with
      | none => return ⟨yur, yit.q⟩
      | some (p', q') => return ⟨yur, some (.cell p p', q')⟩

/-- `++glue`: add rule. -/
def glue (bus : Rule) (vex : Edge) (sab : Sab) : Virt Edge :=
  plug vex ⟨sab.tub, gonad pfix bus sab.slam⟩

/-- `++pose`: first or second. -/
def pose (vex : Edge) (sab : Sab) : Virt Edge :=
  match vex.q with
  | none => do
      let roq ← sab.kick
      return ⟨last vex.p roq.p, roq.q⟩
  | some _ => return vex

/-- `++less`: no first and second. -/
def less (vex : Edge) (sab : Sab) : Virt Edge :=
  match vex.q with
  | none => do
      let roq ← sab.kick
      return ⟨last vex.p roq.p, roq.q⟩
  | some _ => return ⟨vex.p, none⟩

/-- `++simu`: first and second. -/
def simu (vex : Edge) (sab : Sab) : Virt Edge :=
  match vex.q with
  | none => return vex
  | some _ => sab.kick

/-! ### Any rule -/

/-- A rule that is put together from the arms. -/
inductive Form
  | fail
  | easy (huf : Noun)
  | next
  | just (daf : Nat)
  | mask (bud : List Nat)
  | shim (les mos : Nat)
  | jest (daf : Nat)
  | stew (leh : List (Key × Form))
  | cold (cus : Noun) (sef : Form)
  | cook (poq : Noun → Virt Noun) (sef : Form)
  | full (sef : Form)
  | here (hez : Noun → Virt Noun) (sef : Form)
  | sear (pyq : Noun → Virt (Option Noun)) (sef : Form)
  | stag (gob : Noun) (sef : Form)
  | stir (rud : Noun) (raq : Noun → Virt Noun) (fel : Form)
  | stun (les mos : Nat) (fel : Form)
  | bend (raq : Noun → Virt (Option Noun)) (vex sab : Form)
  | comp (raq : Noun → Noun → Virt Noun) (vex sab : Form)
  | pfix (vex sab : Form)
  | sfix (vex sab : Form)
  | plug (vex sab : Form)
  | glue (bus vex sab : Form)
  | pose (vex sab : Form)
  | less (vex sab : Form)
  | simu (vex sab : Form)
  | knee (sef : Nat)

/-- `++star`: 0 or more times. -/
def Form.star (fel : Form) : Form := .stir (.atom 0) (fun n => return n) fel

/-- The edge of a rule, with fuel for the rules inside it one after another. -/
def parse (mug : Noun → Nat) (kit : Nat → Form) : Nat → Form → Rule
  | 0, _ => fun _ => .never
  | n + 1, f =>
      match f with
      | .fail => fun tub => return fail tub
      | .easy huf => fun tub => return easy huf tub
      | .next => fun tub => return next tub
      | .just daf => fun tub => return just daf tub
      | .mask bud => fun tub => return mask bud tub
      | .shim les mos => fun tub => return shim les mos tub
      | .jest daf => fun tub => return jest daf tub
      | .stew leh => stew mug (parse mug kit n) leh
      | .cold cus sef => cold cus (parse mug kit n sef)
      | .cook poq sef => cook poq (parse mug kit n sef)
      | .full sef => full (parse mug kit n sef)
      | .here hez sef => here hez (parse mug kit n sef)
      | .sear pyq sef => sear pyq (parse mug kit n sef)
      | .stag gob sef => stag gob (parse mug kit n sef)
      | .stir rud raq fel => stir rud raq (parse mug kit n fel) (parse mug kit n (.stir rud raq fel))
      | .stun les mos fel =>
          stun les mos (parse mug kit n fel) fun les mos => parse mug kit n (.stun les mos fel)
      | .bend raq vex sab => gonad (bend raq) (parse mug kit n vex) (parse mug kit n sab)
      | .comp raq vex sab => gonad (comp raq) (parse mug kit n vex) (parse mug kit n sab)
      | .pfix vex sab => gonad pfix (parse mug kit n vex) (parse mug kit n sab)
      | .sfix vex sab => gonad sfix (parse mug kit n vex) (parse mug kit n sab)
      | .plug vex sab => gonad plug (parse mug kit n vex) (parse mug kit n sab)
      | .glue bus vex sab =>
          gonad (glue (parse mug kit n bus)) (parse mug kit n vex) (parse mug kit n sab)
      | .pose vex sab => gonad pose (parse mug kit n vex) (parse mug kit n sab)
      | .less vex sab => gonad less (parse mug kit n vex) (parse mug kit n sab)
      | .simu vex sab => gonad simu (parse mug kit n vex) (parse mug kit n sab)
      | .knee sef => parse mug kit n (kit sef)

end Vere.Hoon.Parse
