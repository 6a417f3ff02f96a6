import Vere.Jets.Mug
import Mathlib.Logic.Function.Basic
import Mathlib.Data.List.Forall2

/-!
# Vere.Loom.Check

The checkpoint of the loom (`f/loom.c`, and `u2_wr_check_init`, `u2_wr_check_save` in
`f/wire.c`).

The loom is an array of pages in four segments, each with a data file and a control file.
Pages are mapped read-only; the first write to one faults, and the handler marks it dirty
(`u2_page_tref`) and makes it writable. A save writes the dirty pages of the used prefix of
each segment, then the control words of that prefix, and protects the segment again. A start
maps the prefix back and checks each page against its control word.

The segments are disjoint, so the pages of a segment, and its part of `LoomChem`, are kept
with it, numbered from its bottom. `Past` is history and not in the source: it says of a page
whether the running process has written it, and whether a save has passed it over since.
-/

namespace Vere.Loom

open Vere.Jets

/-- The words of a page, `1 << LoomPageWords` of them. -/
abbrev Page := List Nat

/-- A page of an anonymous mapping, or of a file where nothing was written. -/
def blank : Page := List.replicate 4096 0

/-- `HalfSize`. -/
def halfSize : Nat := 2 ^ 27

/-- `u2_page_life`. -/
inductive Life where
  | none | slow | neat | tref
deriving DecidableEq

/-- `u2_chit`: page state and 30-bit mug. -/
structure Chit where
  lif : Life
  mug : Nat
deriving DecidableEq

/-- `u2_chef`: the head of a control file. -/
structure Chef where
  ent : Nat
  ven : Nat
  bot : Nat
  pgs : Nat

/-- `nam_c`. -/
inductive Name where
  | a | b | c | d
deriving DecidableEq

/-- `u2_cheg`: a segment, with the contents of its two files and its part of the loom. -/
structure Cheg where
  nam : Name
  bot : Nat
  len : Nat
  /-- Pages in the used prefix. -/
  pgs : Nat
  /-- The control file: its head, if there is one, and the control words after it. -/
  chf : Option Chef
  chits : List Chit
  /-- The data file. -/
  dat : Nat → Page
  mem : Nat → Page
  chem : Nat → Chit
  /-- Whether the page is writable. -/
  wri : Nat → Bool

/-- What the running process has done to a page: nothing, written it (or loaded it), or
written it before a save that left it out. -/
inductive Past where
  | fresh | kept | lost
deriving DecidableEq

/-- A segment and the history of its pages. -/
structure Seg where
  ceg : Cheg
  past : Nat → Past

/-! ### Faults -/

/-- `_loom_sigsegv_handler`, in the segment of the page. -/
def sigsegvHandler (s : Cheg) (win : Nat) : Option Cheg :=
  if (s.chem win).lif = .neat ∨ (s.chem win).lif = .none then
    some { s with
      chem := Function.update s.chem win ⟨.tref, 0⟩
      pgs := if s.pgs ≤ win then win + 1 else s.pgs
      wri := Function.update s.wri win true }
  else Option.none

/-- The fault of a store, if there is one. -/
def touch (s : Cheg) (win : Nat) : Option Cheg :=
  if s.wri win then some s else sigsegvHandler s win

/-- A store to a word of a page, retried once the handler has returned. -/
def store (s : Cheg) (win off val : Nat) : Option Cheg := do
  let s ← touch s win
  return { s with mem := Function.update s.mem win ((s.mem win).set off val) }

/-- A store to a page of the loom. For a page in no segment the handler returns with the page
still protected; the store faults again, and the assertion on its state fails. -/
def write (pag off val : Nat) : List Seg → Option (List Seg)
  | [] => Option.none
  | s :: segs =>
      if s.ceg.bot ≤ pag ∧ pag - s.ceg.bot < s.ceg.len then do
        let ceg ← store s.ceg (pag - s.ceg.bot) off val
        return ⟨ceg, Function.update s.past (pag - s.ceg.bot) .kept⟩ :: segs
      else do
        let segs ← write pag off val segs
        return s :: segs

/-! ### Saving -/

/-- The page above a mark: the loop of `_wr_check_cheg` rounds up. -/
def topPage (top : Nat) : Nat := (top + (1 <<< 12 - 1)) >>> 12

/-- `_wr_check_cheg`: clip the used prefix. -/
def checkCheg (s : Cheg) (top : Nat) : Option Cheg :=
  if s.bot ≤ topPage top ∧ topPage top < s.bot + s.len then
    some { s with pgs := if topPage top - s.bot < s.pgs then topPage top - s.bot else s.pgs }
  else Option.none

/-- The mark of a segment: `hat_r` is in one half, `mat_r` in the other. -/
def topOf (hat mat : Nat) : Name → Option Nat
  | .a => some (if halfSize ≤ hat then mat else hat)
  | .b => some (if halfSize ≤ hat then hat else mat)
  | .c => Option.none
  | .d => Option.none

/-- `u2_wr_check_save`. -/
def checkSave (hat mat : Nat) (s : Cheg) : Option Cheg :=
  match topOf hat mat s.nam with
  | some top => checkCheg s top
  | Option.none => some s

/-- One turn of the data loop. `mug_e` has 30 bits. -/
def savePage (s : Cheg) (i : Nat) : Cheg :=
  if (s.chem i).lif = .tref then
    { s with
      dat := Function.update s.dat i (s.mem i)
      chem := Function.update s.chem i ⟨.neat, mugWords 2166136261 (s.mem i) % 2 ^ 30⟩ }
  else s

/-- The data loop. -/
def saveData (s : Cheg) : Nat → Cheg
  | 0 => s
  | n + 1 => savePage (saveData s n) n

/-- The control file: written from its start, and never cut. -/
def saveCtl (ent : Nat) (s : Cheg) : Cheg :=
  { s with
    chf := some ⟨ent, 0xdeafbee, s.bot, s.pgs⟩
    chits := (List.range s.pgs).map s.chem ++ s.chits.drop s.pgs }

/-- Catch future changes. -/
def protect (s : Cheg) : Cheg :=
  { s with
    wri := fun i => if i < s.len then false else s.wri i
    chem := fun i => if i < s.len then ⟨.neat, (s.chem i).mug⟩ else s.chem i }

/-- `u2_loom_save`, for one segment. -/
def saveSeg (ent : Nat) (s : Cheg) : Cheg := protect (saveCtl ent (saveData s s.pgs))

/-- A save of one segment, with what it does to the history: a dirty page that is not in the
prefix is lost. -/
def Seg.save (ent hat mat : Nat) (s : Seg) : Option Seg := do
  let ceg ← checkSave hat mat s.ceg
  let lost i := ceg.pgs ≤ i ∧ (ceg.chem i).lif = .tref
  return ⟨saveSeg ent ceg, fun i => if lost i then .lost else s.past i⟩

/-- `u2_loom_exit`, for one segment: the data file at its natural size. Opening it again fills
it with zeroes. -/
def exitSeg (s : Cheg) : Cheg := { s with dat := fun i => if i < s.pgs then s.dat i else blank }

/-! ### Starting -/

/-- `u2_wr_check_init` in a new process: nothing is used, and `LoomChem` is zero. -/
def checkInit (s : Cheg) : Cheg :=
  { s with
    pgs := 0
    mem := fun _ => blank
    chem := fun _ => ⟨.none, 0⟩
    wri := fun _ => false }

/-- The checksum loop of `_loom_deploy`. -/
def checks (s : Cheg) : Bool :=
  (List.range s.pgs).all fun i =>
    (s.chem i).lif = .none ||
      (s.chem i).lif = .neat && (0x3fffffff &&& mugWords 2166136261 (s.mem i)) = (s.chem i).mug

/-- The control words of the prefix, as far as the file goes. -/
def loadChits (s : Cheg) (pgs : Nat) : Cheg :=
  { s with chem := fun i => (s.chits.take pgs)[i]?.getD (s.chem i) }

/-- The mappings of `_loom_deploy`. -/
def mapSeg (s : Cheg) (pgs : Nat) : Cheg :=
  { s with pgs := pgs, mem := fun i => if i < pgs then s.dat i else blank, wri := fun _ => false }

/-- `_loom_deploy`, for one segment: whether it is loaded. `none` is a failed assertion. -/
def deploySeg (s : Cheg) : Option (Bool × Cheg) :=
  match s.chf with
  | Option.none => some (false, s)
  | some chf =>
      if chf.bot ≠ s.bot then Option.none
      else if s.chits.length < chf.pgs then some (false, loadChits s chf.pgs)
      else
        let s := mapSeg (loadChits s chf.pgs) chf.pgs
        some (checks s, s)

/-- `_loom_deploy`. -/
def deploy : List Cheg → Option (Bool × List Cheg)
  | [] => some (true, [])
  | s :: segs => do
      let (ok, s) ← deploySeg s
      if ok then
        let (ok, segs) ← deploy segs
        return (ok, s :: segs)
      else return (false, s :: segs)

/-- `u2_loom_boot`, for one segment. What a failed load left in `LoomChem` stays. -/
def bootSeg (s : Cheg) : Cheg := { s with mem := fun _ => blank, wri := fun _ => false }

/-- The history of a segment that was loaded. -/
def loaded (s : Cheg) : Seg :=
  ⟨s, fun i => if s.pgs ≤ i then .fresh else if (s.chem i).lif = .neat then .kept else .lost⟩

/-- A new process (`main.c`): load the checkpoint unless a new ship is asked for, or else
boot. -/
def start (nuu : Bool) (segs : List Cheg) : Option (List Seg) :=
  let boot segs := segs.map fun s => (⟨bootSeg s, fun _ => .fresh⟩ : Seg)
  if nuu then some (boot (segs.map checkInit))
  else do
    let (ok, segs) ← deploy (segs.map checkInit)
    return if ok then segs.map loaded else boot segs

/-! ### Runs -/

/-- The loom of a process that runs or has ended, and the files. -/
structure Image where
  segs : List Seg
  /-- There is a process. -/
  up : Bool
  /-- It was asked for a new ship. -/
  nuu : Bool

inductive Act where
  /-- A store to a word of the loom. -/
  | write (adr val : Nat)
  /-- `u2_loom_save` with the marks of the wire. -/
  | save (ent hat mat : Nat)
  /-- A clean shutdown: a save, and `u2_loom_exit`. -/
  | shut (ent hat mat : Nat)
  /-- The replay of the log has failed: `u2_loom_exit` alone. -/
  | suck
  /-- A new process, the old one having ended or not. -/
  | start (nuu : Bool)

/-- One action; `none` if the process dies in it, or if it cannot happen. -/
def step (act : Act) (l : Image) : Option Image :=
  match act with
  | .write adr val => do
      guard l.up
      let segs ← write (adr >>> 12) (adr % 4096) val l.segs
      return { l with segs := segs }
  | .save ent hat mat => do
      guard l.up
      let segs ← l.segs.mapM (Seg.save ent hat mat)
      return { l with segs := segs }
  | .shut ent hat mat => do
      guard l.up
      let segs ← l.segs.mapM (Seg.save ent hat mat)
      return { l with segs := segs.map fun s => ⟨exitSeg s.ceg, s.past⟩, up := false }
  | .suck => do
      guard (l.up && !l.nuu)
      return { l with segs := l.segs.map fun s => ⟨exitSeg s.ceg, s.past⟩, up := false }
  | .start nuu => do
      let segs ← start nuu (l.segs.map Seg.ceg)
      return ⟨segs, true, nuu⟩

/-- A segment with empty files. -/
def newCheg (nam : Name) (bot len : Nat) : Cheg where
  nam := nam
  bot := bot
  len := len
  pgs := 0
  chf := Option.none
  chits := []
  dat := fun _ => blank
  mem := fun _ => blank
  chem := fun _ => ⟨.none, 0⟩
  wri := fun _ => false

/-- The segments of `u2_wr_check_init`, in the order of the list. -/
def chegs : List Cheg :=
  [newCheg .a 2048 30720, newCheg .b 32768 30719, newCheg .c 63487 1, newCheg .d 0 2048]

/-- Before the first start. -/
def Image.init : Image := ⟨chegs.map fun s => ⟨s, fun _ => .fresh⟩, false, false⟩

end Vere.Loom
