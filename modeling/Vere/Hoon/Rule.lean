import Vere.Lib.Rule

/-!
# Vere.Hoon.Rule

Parsing rules (`hoon.hoon`, sections 2eC to 2eH), as far as the literal syntax uses them. The
combinators are those of `Vere.Lib.Rule`. A `++hair`, the line and the column, goes with every
edge in the source; it is only ever shown in an error and is left out.
-/

namespace Vere.Hoon

open Vere.Lib Vere.Lib.Rule

/-- A character is its code. -/
instance charNat : Coe Char Nat := ⟨Char.toNat⟩

/-- `++tape`: text as a list. -/
abbrev Tape := List Nat

/-- `++just`: match a char. -/
def just (daf : Nat) : Rule Nat Nat := item fun i => if daf = i then some i else none

/-- `++shim`: match char in range. -/
def shim (les mos : Nat) : Rule Nat Nat := item fun i => if les ≤ i ∧ i ≤ mos then some i else none

/-- `++mask`: match char in set. -/
def mask (bud : List Nat) : Rule Nat Nat := item fun i => if i ∈ bud then some i else none

/-- `++cold`: replace the product. -/
def cold {α β : Type} (cus : β) (sef : Rule Nat α) : Rule Nat β := cook (fun _ => cus) sef

/-- `++stag`: add a label. -/
def stag {α β : Type} (gob : β) (sef : Rule Nat α) : Rule Nat (β × α) := cook (fun v => (gob, v)) sef

/-- `++bass`: digits to atom, the highest first. -/
def bass (wuc : Nat) (tyd : Rule Nat (List Nat)) : Rule Nat Nat :=
  cook (fun waq => waq.foldl (fun q p => p + wuc * q) 0) tyd

/-- `++boss`: digits to atom, the lowest first. -/
def boss (wuc : Nat) (tyd : Rule Nat (List Nat)) : Rule Nat Nat :=
  cook (fun waq => waq.foldr (fun p q => p + wuc * q) 0) tyd

/-- `++pose` of several. -/
def poses {α : Type} : List (Rule Nat α) → Rule Nat α := List.foldr pose fun _ => .fail

/-- `++jest`: match a cord. -/
def jest : List Char → Rule Nat Unit
  | [], s => .done () s
  | _ :: _, [] => .fail
  | c :: daf, i :: s => if (c : Nat) = i then jest daf s else .fail

/-- `++ifix`. -/
def ifix {α β γ : Type} (p : Rule Nat β) (q : Rule Nat γ) (hof : Rule Nat α) : Rule Nat α :=
  pfix p (sfix hof q)

/-! ### Characters -/

namespace Glyph

def ace : Rule Nat Nat := just ' '
def bas : Rule Nat Nat := just '\x5c'
def cab : Rule Nat Nat := just '_'
def cen : Rule Nat Nat := just '%'
def col : Rule Nat Nat := just ':'
def com : Rule Nat Nat := just ','
def dot : Rule Nat Nat := just '.'
def doq : Rule Nat Nat := just '\x22'
def fas : Rule Nat Nat := just '/'
def gal : Rule Nat Nat := just '<'
def gar : Rule Nat Nat := just '>'
def hep : Rule Nat Nat := just '-'
def kel : Rule Nat Nat := just '\x7b'
def ker : Rule Nat Nat := just '\x7d'
def pam : Rule Nat Nat := just '&'
def sel : Rule Nat Nat := just '['
def ser : Rule Nat Nat := just ']'
def sig : Rule Nat Nat := just '~'
def soq : Rule Nat Nat := just '\x27'
def tis : Rule Nat Nat := just '='
def wut : Rule Nat Nat := just '?'

end Glyph

open Glyph

/-- `++low`: lowercase. -/
def low : Rule Nat Nat := shim 'a' 'z'

/-- `++nud`: numeric. -/
def nud : Rule Nat Nat := shim '0' '9'

/-- `++hig`: uppercase. -/
def hig : Rule Nat Nat := shim 'A' 'Z'

/-- `++alf`: alphabetic. -/
def alf : Rule Nat Nat := pose low hig

/-- `++alp`: alphanumeric and hep. -/
def alp : Rule Nat Nat := pose low (pose hig (pose nud hep))

/-- `++prn`. -/
def prn : Rule Nat Nat := less (just 127) (shim 32 256)

/-- `++dit`: decimal digit. -/
def dit : Rule Nat Nat := cook (fun a => a - '0'.toNat) (shim '0' '9')

/-- `++hit`: hex digits. -/
def hit : Rule Nat Nat :=
  pose dit (pose (cook (fun a => a - 87) (shim 'a' 'f')) (cook (fun a => a - 55) (shim 'A' 'F')))

/-! ### Whitespace -/

/-- `++gah`: newline or ace. -/
def gah : Rule Nat Unit := cold () (mask [10, ' '])

/-- `++vul`: comments. -/
def vul : Rule Nat Unit := cold () (plug col (plug col (plug (star prn) (just 10))))

/-- `++gaq`: end of line. -/
def gaq : Rule Nat Unit := pose (cold () (just 10)) (pose (cold () (plug gah (pose gah vul))) vul)

/-- `++gap`. -/
def gap : Rule Nat Unit := cold () (plug gaq (star (pose vul gah)))

/-- `++gay`. -/
def gay : Rule Nat Unit := pose gap (easy ())

/-- `++dog`. -/
def dog : Rule Nat Unit := cold () (plug dot gay)

/-- `++doh`. -/
def doh : Rule Nat Unit := cold () (plug (plug hep hep) gay)

/-! ### How they run -/

section run

variable {α β : Type} {c i : Nat} {s : Tape}

@[simp] theorem just_nil : just c [] = .fail := rfl

@[simp] theorem just_cons : just c (i :: s) = if c = i then .done i s else .fail := by
  by_cases h : c = i <;> simp [just, item, h]

@[simp] theorem shim_nil {les mos : Nat} : shim les mos [] = .fail := rfl

@[simp] theorem shim_cons {les mos : Nat} :
    shim les mos (i :: s) = if les ≤ i ∧ i ≤ mos then .done i s else .fail := by
  by_cases h : les ≤ i ∧ i ≤ mos <;> simp [shim, item, h]

@[simp] theorem mask_nil {bud : List Nat} : mask bud [] = .fail := rfl

@[simp] theorem mask_cons {bud : List Nat} :
    mask bud (i :: s) = if i ∈ bud then .done i s else .fail := by
  by_cases h : i ∈ bud <;> simp [mask, item, h]

@[simp] theorem dot_done : dot (46 :: s) = .done 46 s := rfl

@[simp] theorem hep_done : hep (45 :: s) = .done 45 s := rfl

@[simp] theorem sig_done : sig (126 :: s) = .done 126 s := rfl

@[simp] theorem cab_done : cab (95 :: s) = .done 95 s := rfl

/-- The text does not start with whitespace or a comment. -/
def Solid (s : Tape) : Prop := ∀ c ∈ s.head?, c ≠ 10 ∧ c ≠ 32 ∧ c ≠ 58

theorem solid_cons (h : c ≠ 10 ∧ c ≠ 32 ∧ c ≠ 58) : Solid (c :: s) := by
  intro i hi
  cases hi
  exact h

theorem gap_fail (h : Solid s) : gap s = .fail := by
  cases s with
  | nil => rfl
  | cons c s =>
      obtain ⟨h1, h2, h3⟩ := h c rfl
      simp [gap, gaq, cold, cook, plug, pose, vul, gah, col, h1.symm, h1, h2, h3.symm]

theorem gay_solid (h : Solid s) : gay s = .done () s := by
  simp [gay, pose, gap_fail h, easy]

theorem doh_solid (h : Solid s) : doh (45 :: 45 :: s) = .done () s := by
  simp [doh, cold, cook, plug, hep, gay_solid h]

@[simp] theorem jest_nil : jest [] s = .done () s := rfl

@[simp] theorem jest_end {d : Char} {daf : List Char} : jest (d :: daf) [] = .fail := rfl

@[simp] theorem jest_cons {d : Char} {daf : List Char} :
    jest (d :: daf) (i :: s) = if (d : Nat) = i then jest daf s else .fail := rfl

end run

/-! ### They do not crash -/

section runs

variable {m k : Nat} {α : Type}

theorem runs_poses {l : List (Rule Nat α)} (h : ∀ r ∈ l, Runs m k r) : Runs m k (poses l) := by
  induction l with
  | nil => exact runs_fail
  | cons r l ih =>
      rw [List.forall_mem_cons] at h
      exact h.1.pose (ih h.2)

@[simp] theorem runs_just (c : Nat) : Runs m 1 (just c) := runs_item _

@[simp] theorem runs_shim (les mos : Nat) : Runs m 1 (shim les mos) := runs_item _

@[simp] theorem runs_cold {β : Type} (v : β) {r : Rule Nat α} (h : Runs m k r) :
    Runs m k (cold v r) := h.cook _

theorem runs_jest (c : Char) (l : List Char) : Runs m 1 (jest (c :: l)) := by
  induction l generalizing c with
  | nil =>
      intro s _
      cases s with
      | nil => exact ⟨nofun, nofun⟩
      | cons i s =>
          rw [jest]
          split
          · refine ⟨nofun, fun v t hd => ?_⟩
            cases hd
            exact Nat.le_refl _
          · exact ⟨nofun, nofun⟩
  | cons d l ih =>
      intro s hs
      cases s with
      | nil => exact ⟨nofun, nofun⟩
      | cons i s =>
          obtain ⟨hne, hlen⟩ := ih d s (Nat.le_of_succ_le hs)
          rw [jest]
          split
          · exact ⟨hne, fun v t hd => Nat.le_succ_of_le (hlen v t hd)⟩
          · exact ⟨nofun, nofun⟩

section one

variable {β γ : Type} {r : Rule Nat α} {r' : Rule Nat β} {r₃ : Rule Nat γ}

/-- After a rule that takes something, any will do. -/
theorem runs_pfix (h : Runs m 1 r) (h' : Runs (m - 1) 0 r') : Runs m 1 (pfix r r') := h.pfix h'

theorem runs_plug (h : Runs m 1 r) (h' : Runs (m - 1) 0 r') : Runs m 1 (plug r r') := h.plug h'

theorem runs_cons {rs : Rule Nat (List α)} (h : Runs m 1 r) (h' : Runs (m - 1) 0 rs) :
    Runs m 1 (cons r rs) := h.cons h'

theorem runs_ifix (h : Runs m 1 r) (h₃ : 1 ≤ m → Runs (m - 1) 0 r₃) (h' : ∀ m, Runs m 0 r') :
    Runs m 1 (ifix r r' r₃) := h.bind fun hm _ => (h₃ hm).sfix (h' _)

end one

end runs

/-! ### What they take -/

theorem takes_poses {α : Type} {N L : Tape → Prop} {l : List (Rule Nat α)}
    (h : ∀ r ∈ l, Takes N L r) : Takes N L (poses l) := by
  induction l with
  | nil => exact takes_fail
  | cons r l ih =>
      rw [List.forall_mem_cons] at h
      exact h.1.pose (ih h.2)

/-! ### What they cost -/

section costs

variable {α : Type} {w : α → Nat}

theorem costs_poses {l : List (Rule Nat α)} (h : ∀ r ∈ l, Costs w r) : Costs w (poses l) := by
  induction l with
  | nil => exact costs_fail
  | cons r l ih =>
      rw [List.forall_mem_cons] at h
      exact h.1.pose (ih h.2)

theorem costs_just {w : Nat → Nat} {c : Nat} (h : w c ≤ 1) : Costs w (just c) := by
  refine costs_item fun i v hv => ?_
  split at hv
  · next hc =>
      cases hv
      exact hc ▸ h
  · cases hv

theorem costs_shim {w : Nat → Nat} {les mos : Nat} (h : ∀ i, les ≤ i → i ≤ mos → w i ≤ 1) :
    Costs w (shim les mos) := by
  refine costs_item fun i v hv => ?_
  split at hv
  · next hc =>
      cases hv
      exact h i hc.1 hc.2
  · cases hv

theorem costs_mask {w : Nat → Nat} {bud : List Nat} (h : ∀ i ∈ bud, w i ≤ 1) :
    Costs w (mask bud) := by
  refine costs_item fun i v hv => ?_
  split at hv
  · next hc =>
      cases hv
      exact h i hc
  · cases hv

theorem costs_jest (daf : List Char) : Costs (fun _ => daf.length) (jest daf) := by
  induction daf with
  | nil =>
      intro s v t hd
      cases hd
      exact Nat.le_refl _
  | cons d daf ih =>
      intro s v t hd
      cases s with
      | nil => cases hd
      | cons i s =>
          rw [jest_cons] at hd
          split at hd
          · have h := ih hd
            beta_reduce at *
            rw [List.length_cons, List.length_cons]
            omega
          · cases hd

end costs

end Vere.Hoon
