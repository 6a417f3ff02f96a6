import Vere.Hoon.Text

/-!
# Vere.Dill.Edit

The line editor of the terminal vane (`dill.hoon`): what a key does to the text behind the prompt.

The text `but` has a length `bul` and a cursor `bus` that are kept beside it. A row of the history
that was edited is kept in the overlay `hym` until the line is entered, and what is killed goes to
a ring of at most 16 texts. A search through the history shows itself in place of the prompt.

What crashes is `none`: an index that is not in its list, or a text that `++tuba` does not decode.
A difference is a truncated one: `bus` never passes `bul` (`Vere.Dill.Runs`), so that no `++sub` of
the source crashes.
-/

namespace Vere.Dill

open Vere.Hoon

/-- `++prom`: format type. -/
inductive Prom
  | text
  | pass
  | none
  deriving DecidableEq

/-- `++hist`: depth and texts, the latest first. -/
structure Hist where
  p : Nat
  q : List Nat

/-- `++bein`: terminal control. -/
structure Bein where
  /-- Buffer length. -/
  bul : Nat
  /-- Cursor in buffer. -/
  bus : Nat
  /-- Buffer text. -/
  but : List Nat
  /-- Input style. -/
  buy : Prom
  /-- History depth. -/
  hiz : Nat
  /-- History path. -/
  hux : List Nat
  /-- History overlay. -/
  hym : Nat → Option (List Nat)
  /-- History object. -/
  hyt : Hist
  /-- History search. -/
  hyr : Option (List Nat)
  /-- Length of prompt. -/
  pol : Nat
  /-- Prompt text. -/
  pot : Tape

/-- `++blot`: kill ring. -/
structure Blot where
  /-- Length. -/
  p : Nat
  /-- Depth. -/
  q : Nat
  /-- Kills. -/
  r : List (List Nat)

/-- `++yard`: terminal state, with the columns, the prompt and the kill ring of `++blur`. -/
structure Yard where
  verbose : Bool
  cols : Nat
  bed : Option Bein
  ring : Blot
  hist : List Nat → Option Hist

/-- An arrow key. -/
inductive Arrow
  | d
  | l
  | r
  | u

/-- `++belt`: raw console input. -/
inductive Belt
  | aro (p : Arrow)
  | bac
  | ctl (p : Nat)
  | del
  | met (p : Nat)
  | ret
  | txt (p : List Nat)

/-- `++blit`: raw console output. -/
inductive Blit
  /-- Make a noise. -/
  | bel
  /-- Clear the screen. -/
  | clr
  /-- Set cursor position. -/
  | hop (p : Nat)
  /-- Set current line. -/
  | lin (p : List Nat)
  /-- Newline. -/
  | mor
  /-- Save to jamfile. -/
  | sag (p : List Nat) (q : Noun)
  /-- Save to file. -/
  | sav (p : List Nat) (q : Nat)

/-- `++gift`: out result. -/
inductive Gift
  | bbye
  | blit (p : List Blit)
  | init (p : Nat)
  | logo (p : Nat)
  | veer (p : Nat) (q : List Nat) (r : Nat)
  | vega (p : List Nat)
  | verb

/-- `++note`: out request. -/
inductive Note
  | hail
  | harm
  | hook
  | kill
  | line (p : Nat)
  | ling
  | boot (p : Noun)

/-- What a move does. -/
inductive Act
  | give (g : Gift)
  | pass (n : Note)

/-- `++dy`: a terminal `hen` at work, with the moves it has made, the latest first. -/
structure Dy (Duct : Type) where
  hen : Duct
  dug : Duct → Option Yard
  yar : Yard
  mos : List (Duct × Act)

namespace Dy

variable {Duct : Type}

/-- A move of this terminal. -/
def move (d : Dy Duct) (a : Act) : Dy Duct := { d with mos := (d.hen, a) :: d.mos }

/-- `curb`: send blits. -/
def curb (d : Dy Duct) (wab : List Blit) : Dy Duct :=
  if wab.isEmpty then d else d.move (.give (.blit wab.reverse))

/-- `beep`: send beep. -/
def beep (d : Dy Duct) : Dy Duct := d.curb [.bel]

end Dy

/-! ### Moving in the line -/

/-- `=(' ' (snag bus but))`. -/
def blank (but : List Nat) (bus : Nat) : Option Bool := do return ' '.toNat = (← but[bus]?)

theorem lt_of_blank {but : List Nat} {bus : Nat} {b : Bool} (h : blank but bus = some b) :
    bus < but.length := by
  by_contra hge
  rw [blank, List.getElem?_eq_none (Nat.le_of_not_lt hge)] at h
  cases h

/-- The loop of `wod` over a word. -/
def wodWord (bul : Nat) (but : List Nat) (bus : Nat) : Option Nat :=
  if bul = bus then some bus
  else
    match h : blank but bus with
    | none => none
    | some true => some bus
    | some false => wodWord bul but (bus + 1)
termination_by but.length - bus
decreasing_by
  have := lt_of_blank h
  omega

/-- The loop of `wod` over the blanks before a word. -/
def wodBlank (bul : Nat) (but : List Nat) (bus : Nat) : Option Nat :=
  if bul = bus then some bus
  else
    match h : blank but bus with
    | none => none
    | some true => wodBlank bul but (bus + 1)
    | some false => wodWord bul but bus
termination_by but.length - bus
decreasing_by
  have := lt_of_blank h
  omega

/-- `wod`: word forward. -/
def wod (bed : Bein) : Option Nat := wodBlank bed.bul bed.but bed.bus

/-- The loop of `wob` over a word. -/
def wobWord (but : List Nat) : Nat → Option Nat
  | 0 => some 0
  | bus + 1 => do if ← blank but bus then return bus + 1 else wobWord but bus

/-- The loop of `wob` over the blanks behind a word. -/
def wobBlank (but : List Nat) : Nat → Option Nat
  | 0 => some 0
  | bus + 1 => do if ← blank but bus then wobBlank but bus else wobWord but (bus + 1)

/-- `wob`: word backward. -/
def wob (bed : Bein) : Option Nat := wobBlank bed.but bed.bus

/-! ### Changing the line -/

section Keys

variable {Duct : Type} (d : Dy Duct) (bed : Bein)

/-- What a prompt shows of the text. -/
def Bein.shown (bed : Bein) : List Nat :=
  match bed.buy with
  | .none => bed.but
  | .text => bed.but
  | .pass => List.replicate bed.but.length '*'.toNat

/-- The prompt that a search shows. -/
def ris (txt : List Nat) : Tape :=
  "(reverse-i-search)".toList.map Char.toNat ++ ['\x27'.toNat] ++ tufa txt ++
    ['\x27'.toNat, ':'.toNat, ' '.toNat]

/-- `edit`: change the bed. -/
def edit : Dy Duct :=
  let pot := match bed.hyr with
    | none => bed.pot
    | some txt => ris txt
  let pol := match bed.hyr with
    | none => bed.pol
    | some txt => (ris txt).length
  { d with yar := { d.yar with bed := some bed } }.curb
    [.hop (pol + bed.bus), .lin (pot ++ bed.shown)]

/-- `goth`: extract history. -/
def goth (hup : Nat) : Option (List Nat) :=
  match bed.hym hup with
  | some byt => some byt
  | none => do tuba (rip 3 (← bed.hyt.q[hup]?))

/-- `gore`: move in history. -/
def gore (hup : Nat) : Option (Dy Duct) := do
  let but ← goth bed hup
  return edit d { bed with
    hiz := hup
    hym := Function.update bed.hym bed.hiz (some bed.but)
    bus := but.length
    bul := but.length
    but := but }

/-- `kill`: add to kill ring. -/
def kill (ring : Blot) (txt : List Nat) : Blot :=
  let ring := if ring.p = 16 then { ring with p := 15, r := ring.r.take 15 } else ring
  ⟨ring.p + 1, 0, txt :: ring.r⟩

/-- `beg` of `look`. -/
def beg : List Nat → List Nat → Bool
  | [], _ => true
  | _ :: _, [] => false
  | a :: as, b :: bs => a = b && beg as bs

/-- `mid` of `look`. -/
def mid : List Nat → List Nat → Bool
  | [], _ => true
  | _ :: _, [] => false
  | a, b :: bs => beg a (b :: bs) || mid a bs

/-- The loop of `look` over the rows that are left. -/
def lookLoop (txt : List Nat) : Nat → Nat → Option (Dy Duct)
  | 0, _ => some d.beep
  | n + 1, hup => do
    let but ← goth bed hup
    if mid txt but then gore d { bed with hyr := some txt } hup else lookLoop txt n (hup + 1)

/-- `look`: search in history. Past its end there is nothing to search. -/
def look (hup : Nat) (txt : List Nat) : Option (Dy Duct) :=
  if bed.hyt.p < hup then none else lookLoop d bed txt (bed.hyt.p - hup) hup

/-- An arrow. -/
def aro : Arrow → Option (Dy Duct)
  | .d => if 0 = bed.hiz then some d.beep else gore d bed (bed.hiz - 1)
  | .l => some (if 0 = bed.bus then d.beep else edit d { bed with bus := bed.bus - 1 })
  | .r => some (if bed.bul = bed.bus then d.beep else edit d { bed with bus := bed.bus + 1 })
  | .u => if bed.hiz + 1 = bed.hyt.p then some d.beep else gore d bed (bed.hiz + 1)

/-- Backspace. -/
def bac : Dy Duct :=
  if 0 = bed.bus then d.beep
  else
    edit d { bed with
      bus := bed.bus - 1
      bul := bed.bul - 1
      but := bed.but.take (bed.bus - 1) ++ bed.but.drop bed.bus }

/-- Delete. -/
def del : Dy Duct :=
  if bed.bul = bed.bus then d.beep
  else
    edit d { bed with
      bul := bed.bul - 1
      but := bed.but.take bed.bus ++ bed.but.drop (bed.bus + 1) }

/-- Text keys. -/
def txt (p : List Nat) : Dy Duct :=
  if bed.buy = .none then d.beep
  else
    edit d { bed with
      bus := p.length + bed.bus
      bul := p.length + bed.bul
      but := bed.but.take bed.bus ++ p ++ bed.but.drop bed.bus }

/-- Swap the two characters before the cursor, or those around it. -/
def swap : Option (Dy Duct) :=
  if bed.bul < 2 then some d.beep
  else do
    let pos := if bed.bul = bed.bus then bed.bus - 2 else if 0 = bed.bus then bed.bus
      else bed.bus - 1
    let fore ← bed.but[pos]?
    let aft ← bed.but[pos + 1]?
    return edit d { bed with
      bus := 2 + pos
      but := bed.but.take pos ++ [aft, fore] ++ bed.but.drop (2 + pos) }

/-- Kill what is behind the cursor. -/
def killAft : Dy Duct :=
  if bed.bul = bed.bus then d.beep
  else
    edit { d with yar := { d.yar with ring := kill d.yar.ring (bed.but.drop bed.bus) } }
      { bed with bul := bed.bus, but := bed.but.take bed.bus }

/-- Kill what is before the cursor. -/
def killFore : Dy Duct :=
  if 0 = bed.bus then d.beep
  else
    edit { d with yar := { d.yar with ring := kill d.yar.ring (bed.but.take bed.bus) } }
      { bed with bus := 0, bul := bed.bul - bed.bus, but := bed.but.drop bed.bus }

/-- Put what was killed in the line. -/
def yank : Option (Dy Duct) :=
  if 0 = d.yar.ring.p then some d.beep
  else do return txt d bed (← d.yar.ring.r[d.yar.ring.q]?)

/-- Put what was killed before it in its place. -/
def rotate : Option (Dy Duct) :=
  if 0 = d.yar.ring.p then some d.beep
  else do
    let dol ← d.yar.ring.r[d.yar.ring.q]?
    let leo := dol.length
    if bed.bus < leo then return d.beep
    let pey := bed.bus - leo
    if dol ≠ (bed.but.drop pey).take leo then return d.beep
    let q := if d.yar.ring.p = d.yar.ring.q + 1 then 0 else d.yar.ring.q + 1
    let d := { d with yar := { d.yar with ring := { d.yar.ring with q := q } } }
    let ney ← d.yar.ring.r[q]?
    let lye := ney.length
    return edit d { bed with
      bus := bed.bus + lye - leo
      bul := bed.bul + lye - leo
      but := bed.but.take pey ++ ney ++ bed.but.drop bed.bus }

/-- A control key. -/
def ctl (p : Nat) : Option (Dy Duct) :=
  if p = 'a'.toNat then some (edit d { bed with bus := 0 })
  else if p = 'b'.toNat then aro d bed .l
  else if p = 'd'.toNat then
    some (if 0 = bed.bul ∧ 0 = bed.bus then d.move (.pass .kill) else del d bed)
  else if p = 'e'.toNat then some (edit d { bed with bus := bed.bul })
  else if p = 'f'.toNat then aro d bed .r
  else if p = 'k'.toNat then some (killAft d bed)
  else if p = 't'.toNat then swap d bed
  else if p = 'l'.toNat then some (d.move (.give (.blit [.clr])))
  else if p = 'n'.toNat then aro d bed .d
  else if p = 'p'.toNat then aro d bed .u
  else if p = 'u'.toNat then some (killFore d bed)
  else if p = 'r'.toNat then some (edit d { bed with hyr := some [] })
  else if p = 'x'.toNat then some (d.move (.pass .ling))
  else if p = 'y'.toNat then yank d bed
  else some d.beep

/-- A meta key. -/
def met (p : Nat) : Option (Dy Duct) :=
  if p = 'f'.toNat then
    if bed.bul = bed.bus then some d.beep else do return edit d { bed with bus := ← wod bed }
  else if p = 'b'.toNat then
    if 0 = bed.bus then some d.beep else do return edit d { bed with bus := ← wob bed }
  else if p = 'y'.toNat then rotate d bed
  else some d.beep

/-- Return. -/
def ret : Dy Duct :=
  if bed.buy = .none then d.beep
  else
    let jab := rap 3 (tufa bed.but)
    let hist := if jab = 0 ∨ bed.buy = .pass then d.yar.hist
      else Function.update d.yar.hist bed.hux (some ⟨bed.hyt.p, jab :: bed.hyt.q.tail⟩)
    { d with
      yar := { d.yar with bed := none, hist := hist }
      mos := (d.hen, .pass .hail) :: (d.hen, .give .bbye) :: (d.hen, .pass (.line jab)) ::
        (d.hen, .give (.blit [.mor])) :: d.mos }

/-- A key outside a search. -/
def plain : Belt → Option (Dy Duct)
  | .aro p => aro d bed p
  | .bac => some (bac d bed)
  | .ctl p => ctl d bed p
  | .del => some (del d bed)
  | .met p => met d bed p
  | .ret => some (ret d bed)
  | .txt p => some (txt d bed p)

/-- A key that ends a search. -/
def leave (b : Belt) : Option (Dy Duct) :=
  let bed := { bed with hiz := 0, hyr := none }
  plain { d with yar := { d.yar with bed := some bed } } bed b

/-- A key in a search for `hyr`. -/
def search (hyr : List Nat) : Belt → Option (Dy Duct)
  | .bac =>
      some (if hyr.isEmpty then d.curb [.bel]
        else edit d { bed with hyr := some (hyr.take (hyr.length - 1)) })
  | .txt p => look d bed bed.hiz (hyr ++ p)
  | .ctl p =>
      if p = 'g'.toNat then
        some (edit d { bed with bul := 0, bus := 0, but := [], hiz := 0, hyr := none })
      else if p = 'r'.toNat then
        if bed.hyt.p = bed.hiz then some d.beep else look d bed (bed.hiz + 1) hyr
      else leave d bed (.ctl p)
  | b => leave d bed b

/-- `%belt` of `lear`: terminal input. -/
def belt (b : Belt) : Option (Dy Duct) :=
  match d.yar.bed with
  | none => some d.beep
  | some bed =>
      match bed.hyr with
      | some hyr => search d bed hyr b
      | none => plain d bed b

end Keys

end Vere.Dill
