import Mathlib.Data.Fintype.Option
import Vere.Jets.Mug
import Vere.Lib.Probe

/-!
# Vere.Mem.Cash

The memo cache of a rail (`f/cash.c`): a hash tree of nine levels with sixteen ways at each.

A *slot* holds nothing, one entry, or a table of sixteen. A table begins as a collision
table, in which an entry goes to the first free place from its own on; the eleventh entry
turns it into a radix table, whose places are slots for the next four bits of the key. At
the last level, where no bits are left, it does not turn and drops what it has no room for.

An entry keeps every duplicate of its sample that it was ever asked for, so that the next
search may compare words and not nouns; so a search changes the table as well.

The shift of a key by 32 at the last level, which C leaves open, is the parameter `last` of
the model. Storage that cannot be had ends the process (`u2_loop_signal_memory`). The
variants for a C string in place of a head (`_mixt`) are left out.
-/

namespace Vere.Cash

open Function Vere.Lib Vere.Jets

/-! ## Words and rails -/

/-- `u2_noun`: a direct atom in the word itself, or the ray of an atom or a cell. -/
inductive Word
  | cat (a : Fin (2 ^ 31))
  | pug (ray : Nat) (a : {a : Nat // 2 ^ 31 ≤ a})
  | pom (ray : Nat) (hed tel : Word)
  deriving DecidableEq

/-- The noun that a word stands for. -/
def Word.val : Word → Noun
  | .cat a => .atom a
  | .pug _ a => .atom a
  | .pom _ hed tel => .cell hed.val tel.val

/-- `u2_fing`: one word. -/
def fing (a b : Word) : Bool := a = b

/-- `_sing_x`, `u2_sing`. The mugs, which it compares first where both are known, are left out:
they differ only where the nouns do. -/
def sing (a b : Word) : Bool :=
  fing a b ||
    match a, b with
    | .pug _ x, .pug _ y => x.val == y.val
    | .pom _ h t, .pom _ h' t' => sing h h' && sing t t'
    | _, _ => false

theorem sing_iff {a b : Word} : sing a b = true ↔ a.val = b.val := by
  induction a generalizing b with
  | cat a =>
      cases b with
      | cat b => simp [sing, fing, Word.val, Fin.ext_iff]
      | pug r b =>
          have hne : (a : Nat) ≠ b.val := ne_of_lt (lt_of_lt_of_le a.isLt b.property)
          simp [sing, fing, Word.val, hne]
      | pom r h t => simp [sing, fing, Word.val]
  | pug r a =>
      cases b with
      | cat b =>
          have hne : a.val ≠ (b : Nat) := (ne_of_lt (lt_of_lt_of_le b.isLt a.property)).symm
          simp [sing, fing, Word.val, hne]
      | pug s b =>
          simp only [sing, fing, Word.val, Bool.or_eq_true, decide_eq_true_eq, beq_iff_eq,
            Noun.atom.injEq, Word.pug.injEq, or_iff_right_iff_imp]
          rintro ⟨-, rfl⟩
          rfl
      | pom s h t => simp [sing, fing, Word.val]
  | pom r h t ihh iht =>
      cases b with
      | cat b => simp [sing, fing, Word.val]
      | pug s b => simp [sing, fing, Word.val]
      | pom s h' t' =>
          simp only [sing, fing, Word.val, Bool.or_eq_true, decide_eq_true_eq, Bool.and_eq_true,
            ihh, iht, Noun.cell.injEq, Word.pom.injEq, or_iff_right_iff_imp]
          rintro ⟨-, rfl, rfl⟩
          exact ⟨rfl, rfl⟩

theorem val_of_fing {a b : Word} (h : fing a b = true) : a.val = b.val := by
  rw [of_decide_eq_true h]

/-- What the cache uses of a rail, as the rail is when it is asked. -/
structure Rail where
  /-- `u2_rl_junior`: the noun is not on the rail and has to be copied. -/
  junior : Word → Bool
  /-- The copy that `u2_rl_take` makes of such a noun. -/
  copy : Word → Word
  /-- `u2_rl_cell`. -/
  cell : Word → Word → Word
  copy_val : ∀ w, (copy w).val = w.val
  cell_val : ∀ a b, (cell a b).val = .cell a.val b.val

namespace Rail

variable (ral : Rail)

/-- `u2_rx`: the noun on the rail. -/
def rx (w : Word) : Word := if ral.junior w then ral.copy w else w

/-- `u2_rc`. -/
def rc (a b : Word) : Word := ral.cell a b

/-- `u2_rt`. -/
def rt (a b c : Word) : Word := ral.rc a (ral.rc b c)

/-- `u2_rq`. -/
def rq (a b c d : Word) : Word := ral.rc a (ral.rt b c d)

@[simp] theorem rx_val (w : Word) : (ral.rx w).val = w.val := by
  rw [rx]
  split
  · exact ral.copy_val w
  · rfl

@[simp] theorem rc_val (a b : Word) : (ral.rc a b).val = .cell a.val b.val := ral.cell_val a b

@[simp] theorem rt_val (a b c : Word) :
    (ral.rt a b c).val = .cell a.val (.cell b.val c.val) := by
  simp [rt]

@[simp] theorem rq_val (a b c d : Word) :
    (ral.rq a b c d).val = .cell a.val (.cell b.val (.cell c.val d.val)) := by
  simp [rq]

end Rail

/-! ## Samples -/

/-- A noun that a search is for, whole or in parts: what the versions of `_cs_find_sap` do not
share. -/
structure Fit where
  /-- The noun. -/
  val : Noun
  /-- `u2_fing` and its versions. -/
  fing : Word → Bool
  /-- `u2_sing` and its versions. -/
  sing : Word → Bool
  /-- A part of it is not on the rail. -/
  junior : Bool
  /-- The noun on the rail. -/
  make : Word
  fing_val : ∀ {w}, fing w = true → val = w.val
  sing_iff : ∀ {w}, sing w = true ↔ val = w.val
  make_val : make.val = val

/-- `u2_fing_cell`. -/
def fingCell (p q : Word) : Word → Bool
  | .pom _ h t => fing p h && fing q t
  | _ => false

/-- `u2_sing_cell`. -/
def singCell (p q : Word) : Word → Bool
  | .pom _ h t => sing p h && sing q t
  | _ => false

/-- `u2_fing_trel`. -/
def fingTrel (p q r : Word) : Word → Bool
  | .pom _ h t => fing p h && fingCell q r t
  | _ => false

/-- `u2_sing_trel`. -/
def singTrel (p q r : Word) : Word → Bool
  | .pom _ h t => sing p h && singCell q r t
  | _ => false

/-- `u2_fing_qual`. -/
def fingQual (p q r s : Word) : Word → Bool
  | .pom _ h t => fing p h && fingTrel q r s t
  | _ => false

/-- `u2_sing_qual`. -/
def singQual (p q r s : Word) : Word → Bool
  | .pom _ h t => sing p h && singTrel q r s t
  | _ => false

theorem fingCell_val {p q w : Word} (h : fingCell p q w = true) :
    Noun.cell p.val q.val = w.val := by
  cases w with
  | pom _ hed tel =>
      simp only [fingCell, Bool.and_eq_true] at h
      rw [val_of_fing h.1, val_of_fing h.2, Word.val]
  | _ => cases h

theorem singCell_iff {p q w : Word} : singCell p q w = true ↔ Noun.cell p.val q.val = w.val := by
  cases w <;> simp [singCell, Word.val, sing_iff]

theorem fingTrel_val {p q r w : Word} (h : fingTrel p q r w = true) :
    Noun.cell p.val (.cell q.val r.val) = w.val := by
  cases w with
  | pom _ hed tel =>
      simp only [fingTrel, Bool.and_eq_true] at h
      rw [val_of_fing h.1, fingCell_val h.2, Word.val]
  | _ => cases h

theorem singTrel_iff {p q r w : Word} :
    singTrel p q r w = true ↔ Noun.cell p.val (.cell q.val r.val) = w.val := by
  cases w <;> simp [singTrel, Word.val, sing_iff, singCell_iff]

theorem fingQual_val {p q r s w : Word} (h : fingQual p q r s w = true) :
    Noun.cell p.val (.cell q.val (.cell r.val s.val)) = w.val := by
  cases w with
  | pom _ hed tel =>
      simp only [fingQual, Bool.and_eq_true] at h
      rw [val_of_fing h.1, fingTrel_val h.2, Word.val]
  | _ => cases h

theorem singQual_iff {p q r s w : Word} :
    singQual p q r s w = true ↔ Noun.cell p.val (.cell q.val (.cell r.val s.val)) = w.val := by
  cases w <;> simp [singQual, Word.val, sing_iff, singTrel_iff]

namespace Fit

variable (ral : Rail)

/-- `_cs_find_sap`. -/
def noun (sam : Word) : Fit where
  val := sam.val
  fing := Cash.fing sam
  sing := Cash.sing sam
  junior := ral.junior sam
  make := ral.rx sam
  fing_val := val_of_fing
  sing_iff := Cash.sing_iff
  make_val := ral.rx_val sam

/-- `_cs_find_sap_cell`. -/
def cell (a b : Word) : Fit where
  val := .cell a.val b.val
  fing := fingCell a b
  sing := singCell a b
  junior := ral.junior a || ral.junior b
  make := ral.rc (ral.rx a) (ral.rx b)
  fing_val := fingCell_val
  sing_iff := singCell_iff
  make_val := by simp

/-- `_cs_find_sap_trel`. -/
def trel (a b c : Word) : Fit where
  val := .cell a.val (.cell b.val c.val)
  fing := fingTrel a b c
  sing := singTrel a b c
  junior := ral.junior a || ral.junior b || ral.junior c
  make := ral.rt (ral.rx a) (ral.rx b) (ral.rx c)
  fing_val := fingTrel_val
  sing_iff := singTrel_iff
  make_val := by simp

/-- `_cs_find_sap_qual`. -/
def qual (a b c d : Word) : Fit where
  val := .cell a.val (.cell b.val (.cell c.val d.val))
  fing := fingQual a b c d
  sing := singQual a b c d
  junior := ral.junior a || ral.junior b || ral.junior c || ral.junior d
  make := ral.rq (ral.rx a) (ral.rx b) (ral.rx c) (ral.rx d)
  fing_val := fingQual_val
  sing_iff := singQual_iff
  make_val := by simp

end Fit

/-! ## Slots -/

/-- A function salt. It is below `2^31`, or the slot would not be of type a. -/
abbrev Sel := Fin (2 ^ 31)

/-- `u2_cash_slot_a`: an entry. The sample list begins with `hed`. -/
structure Entry where
  sel : Sel
  hed : Word
  sap : List Word
  pro : Word
  /-- All the nouns in the sample list are equal. -/
  same : ∀ w ∈ sap, w.val = hed.val

mutual

/-- A slot with `d` levels below it. -/
inductive Slot : Nat → Type
  | a {d : Nat} (e : Entry) : Slot d
  | b {d : Nat} (bag : Bag d) : Slot d
  | c {d : Nat} : Slot d

/-- `u2_cash_slot_b`: a collision table or a radix table, with the count of its entries. The
slots of a collision table hold an entry or nothing. -/
inductive Bag : Nat → Type
  | coll {d : Nat} (rag : Nat) (sid : Fin 16 → Option Entry) : Bag d
  | radx {d : Nat} (rag : Nat) (sid : Fin 16 → Slot d) : Bag (d + 1)

end

/-- The search key. -/
def keyOf (sel : Sel) (mug : Nat) : Nat := u2Mug (.atom sel) ^^^ mug

/-- What an entry is found by. -/
abbrev Name := Sel × Noun

def Name.key (k : Name) : Nat := keyOf k.1 (u2Mug k.2)

def Entry.name (e : Entry) : Name := (e.sel, e.hed.val)

def Entry.key (e : Entry) : Nat := e.name.key

/-- `(key_w >> sif_w) & 15`, where `sif_w` is four times the levels above. -/
def index (last : Nat → Fin 16) (d key : Nat) : Fin 16 :=
  if d = 0 then last key else Fin.ofNat 16 (key >>> (32 - 4 * d))

/-- `_cs_find_sap`: the sample is in the list, or is put at its head. -/
def Fit.sap (fit : Fit) (e : Entry) : Option Entry :=
  if (e.hed :: e.sap).any fit.fing then some e
  else if h : fit.sing e.hed = true then
    some <|
      if fit.junior then e
      else
        { e with
          hed := fit.make
          sap := e.hed :: e.sap
          same := by
            have hval : fit.make.val = e.hed.val := fit.make_val.trans (fit.sing_iff.mp h)
            simpa [hval] using e.same }
  else none

/-- The entry is for the salt and the sample. -/
def Entry.hit (fit : Fit) (sel : Sel) (e : Entry) : Option Entry :=
  if sel = e.sel then fit.sap e else none

/-! ## Search -/

section find

variable (last : Nat → Fin 16) (fit : Fit) (sel : Sel) (key : Nat)

/-- The loop over a collision table. -/
def findColl (sid : Fin 16 → Option Entry) :
    List (Fin 16) → Option Word × (Fin 16 → Option Entry)
  | [] => (none, sid)
  | j :: rest =>
      match (sid j).bind (Entry.hit fit sel) with
      | some e => (some e.pro, update sid j (some e))
      | none => findColl sid rest

mutual

/-- `_cs_find_1`, `_cs_find_2`, `_cs_find_3` and `_cs_find_4`. -/
def Slot.find : {d : Nat} → Slot d → Option Word × Slot d
  | _, .a e =>
      match e.hit fit sel with
      | some e => (some e.pro, .a e)
      | none => (none, .a e)
  | _, .c => (none, .c)
  | _, .b bag =>
      let (pro, bag) := bag.find
      (pro, .b bag)

/-- The same on a table. -/
def Bag.find : {d : Nat} → Bag d → Option Word × Bag d
  | d, .coll rag sid =>
      let (pro, sid) := findColl fit sel sid (round (index last d key))
      (pro, .coll rag sid)
  | d + 1, .radx rag sid =>
      let i := index last (d + 1) key
      let (pro, lot) := (sid i).find
      (pro, .radx rag (update sid i lot))

end

end find

section

variable (last : Nat → Fin 16) (ral : Rail) (lot : Slot 8) (sel : Sel)

/-- `u2_cs_find`. -/
def find (sam : Word) : Option Word × Slot 8 :=
  lot.find last (.noun ral sam) sel (keyOf sel (u2Mug sam.val))

/-- `u2_cs_find_cell`, with `u2_mug_cell`. -/
def findCell (a b : Word) : Option Word × Slot 8 :=
  lot.find last (.cell ral a b) sel (keyOf sel (mugBoth (u2Mug a.val) (u2Mug b.val)))

/-- `u2_cs_find_trel`, with `u2_mug_trel`. -/
def findTrel (a b c : Word) : Option Word × Slot 8 :=
  lot.find last (.trel ral a b c) sel
    (keyOf sel (mugBoth (u2Mug a.val) (mugBoth (u2Mug b.val) (u2Mug c.val))))

/-- `u2_cs_find_qual`, with `u2_mug_qual`. -/
def findQual (a b c d : Word) : Option Word × Slot 8 :=
  lot.find last (.qual ral a b c d) sel
    (keyOf sel (mugBoth (u2Mug a.val)
      (mugBoth (u2Mug b.val) (mugBoth (u2Mug c.val) (u2Mug d.val)))))

end

/-! ## Saving -/

/-- `u2_tune_cash_hi`. -/
def cashHi : Nat := 10

section save

variable (last : Nat → Fin 16) (ral : Rail)

/-- `_cs_save_c`. The sample list is on the rail already. -/
def saveC (e : Entry) : Entry := { e with pro := ral.rx e.pro }

/-- The entry has another product from now on. -/
def Entry.renew (pro : Word) (e : Entry) : Entry :=
  if sing pro e.pro then e else { e with pro := ral.rx pro }

/-- The loop of `_cs_save_b` over a collision table. -/
def saveColl (d : Nat) (e : Entry) (rag : Nat) (sid : Fin 16 → Option Entry) :
    List (Fin 16) → Bag d × Bool
  | [] => (.coll rag sid, false)
  | j :: rest =>
      match sid j with
      | some o =>
          match o.hit (.noun ral e.hed) e.sel with
          | some o => (.coll rag (update sid j (some (o.renew ral e.pro))), false)
          | none => saveColl d e rag sid rest
      | none => (.coll (rag + 1) (update sid j (some (saveC ral e))), true)

variable {d : Nat}

/-- The branch of `_cs_save_b` for a radix table. -/
def saveRadx (low : Slot d → Nat → Entry → Option (Slot d × Bool)) (tab : Nat × (Fin 16 → Slot d))
    (key : Nat) (e : Entry) : Option ((Nat × (Fin 16 → Slot d)) × Bool) := do
  let i := index last (d + 1) key
  let (lot, ave) ← low (tab.2 i) key e
  some ((if ave then tab.1 + 1 else tab.1, update tab.2 i lot), ave)

/-- One place of the collision table in `_cs_more_b`. -/
def moreOne (low : Slot d → Nat → Entry → Option (Slot d × Bool)) (sid : Fin 16 → Option Entry)
    (tab : Nat × (Fin 16 → Slot d)) (i : Fin 16) : Option (Nat × (Fin 16 → Slot d)) :=
  match sid i with
  | none => some tab
  | some e => (saveRadx last low tab e.key e).map Prod.fst

/-- `_cs_more_b`: the entries of a collision table go to a radix table. -/
def moreB (low : Slot d → Nat → Entry → Option (Slot d × Bool)) (sid : Fin 16 → Option Entry) :
    Option (Nat × (Fin 16 → Slot d)) :=
  (List.finRange 16).foldlM (moreOne last low sid) (0, fun _ => .c)

/-- `_cs_save_a`: the slot has the entry `o`. -/
def saveA (saveB : Bag d → Nat → Entry → Option (Bag d × Bool)) (o : Entry) (key : Nat)
    (e : Entry) : Option (Slot d × Bool) :=
  match o.hit (.noun ral e.hed) e.sel with
  | some o => some (.a (o.renew ral e.pro), false)
  | none => do
      let (bag, ave) ← saveB (.coll 0 fun _ => none) o.key o
      -- the assertion that the old entry was added
      guard (ave = true)
      let (bag, ave) ← saveB bag key e
      some (.b bag, ave)

/-- `_cs_save_in`. -/
def saveIn (saveB : Bag d → Nat → Entry → Option (Bag d × Bool)) (lot : Slot d) (key : Nat)
    (e : Entry) : Option (Slot d × Bool) :=
  match lot with
  | .a o => saveA ral saveB o key e
  | .b bag => (saveB bag key e).map fun (bag, ave) => (.b bag, ave)
  | .c => some (.a (saveC ral e), true)

/-- `_cs_save_b`. A collision table with no levels below it does not turn. -/
def saveB : (d : Nat) → Bag d → Nat → Entry → Option (Bag d × Bool)
  | 0, .coll rag sid, key, e => some (saveColl ral 0 e rag sid (round (index last 0 key)))
  | d + 1, .coll rag sid, key, e =>
      if cashHi ≤ rag then do
        let tab ← moreB last (saveIn ral (saveB d)) sid
        let (tab, ave) ← saveRadx last (saveIn ral (saveB d)) tab key e
        some (.radx tab.1 tab.2, ave)
      else some (saveColl ral (d + 1) e rag sid (round (index last (d + 1) key)))
  | d + 1, .radx rag sid, key, e => do
      let (tab, ave) ← saveRadx last (saveIn ral (saveB d)) (rag, sid) key e
      some (.radx tab.1 tab.2, ave)

variable (lot : Slot 8) (sel : Sel)

/-- `u2_cs_save`. Nothing is returned if the assertion in `_cs_save_a` fails. -/
def save (sam pro : Word) : Option (Slot 8 × Word) := do
  let sap : Entry := { sel, hed := ral.rx sam, sap := [], pro, same := by simp }
  let (lot, _) ← saveIn ral (saveB last ral 8) lot (keyOf sel (u2Mug sam.val)) sap
  some (lot, pro)

/-- `u2_cs_save_cell`. -/
def saveCell (a b pro : Word) : Option (Slot 8 × Word) :=
  save last ral lot sel (ral.rc (ral.rx a) (ral.rx b)) pro

/-- `u2_cs_save_trel`. -/
def saveTrel (a b c pro : Word) : Option (Slot 8 × Word) :=
  save last ral lot sel (ral.rt (ral.rx a) (ral.rx b) (ral.rx c)) pro

/-- `u2_cs_save_qual`. -/
def saveQual (a b c d pro : Word) : Option (Slot 8 × Word) :=
  save last ral lot sel (ral.rq (ral.rx a) (ral.rx b) (ral.rx c) (ral.rx d)) pro

end save

end Vere.Cash
