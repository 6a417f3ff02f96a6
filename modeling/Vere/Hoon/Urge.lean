import Mathlib.Data.List.Chain
import Vere.Hoon.Map

/-!
# Vere.Hoon.Urge

Patches of lists (`hoon.hoon`, section 2eP): `++loss` finds a common subsequence of two
lists, `++lusk` makes the patch from it, `++lurk` applies a patch and `++berk` inverts it.

A patch copies and replaces stretches. `Turns` says what a patch is for: the one list that it
fits, and what it makes of it. `++lusk` makes a patch that turns its first list into its
second, whatever subsequence it is given (`lusk_turns`).
-/

namespace Vere.Hoon

open Vere.Lib

variable {α : Type}

/-- `++unce`: a part of a change. The stretches are written backwards. -/
inductive Unce (α : Type)
  | skip (p : Nat)
  | edit (p q : List α)
  deriving DecidableEq

/-- `++berk`: invert diff patch. -/
def berk : List (Unce α) → List (Unce α)
  | [] => []
  | .skip p :: bur => .skip p :: berk bur
  | .edit p q :: bur => .edit q p :: berk bur

/-- The loop of `++lurk` that takes a stretch off the list. -/
def lurkDrop [DecidableEq α] : List α → List α → Option (List α)
  | [], hel => some hel
  | _ :: _, [] => none
  | g :: gur, i :: hel => if g = i then lurkDrop gur hel else none

/-- The loop of `++lurk`. -/
def lurkLoop [DecidableEq α] : List (Unce α) → List α → List α → Option (List α)
  | [], _, war => some war.reverse
  | .skip p :: rug, hel, war => lurkLoop rug (hel.drop p) ((hel.take p).reverse ++ war)
  | .edit p q :: rug, hel, war => do
      let hel ← lurkDrop p.reverse hel
      lurkLoop rug hel (q ++ war)

/-- `++lurk`: apply list patch. -/
def lurk [DecidableEq α] (hel : List α) (rug : List (Unce α)) : Option (List α) := lurkLoop rug hel []

/-- `rag` of `++lusk`: the part that is being made, and those before it, backwards. -/
structure Rag (α : Type) where
  p : Unce α
  q : List (Unce α)

/-- `abet` of `++lusk`. -/
def Rag.abet [DecidableEq α] (rag : Rag α) : List (Unce α) :=
  (if rag.p = .skip 0 then rag.q else rag.p :: rag.q).reverse

/-- `done` of `++lusk`. -/
def Rag.done (rag : Rag α) (new : Unce α) : Rag α :=
  match rag.p, new with
  | .edit p q, .edit p' q' => ⟨.edit (p' ++ p) (q' ++ q), rag.q⟩
  | .edit .., .skip _ => ⟨new, rag.p :: rag.q⟩
  | .skip p, .edit .. => ⟨new, if p = 0 then rag.q else rag.p :: rag.q⟩
  | .skip p, .skip p' => ⟨.skip (p + p'), rag.q⟩

/-- `main` of `++lusk`. -/
def luskMain [DecidableEq α] : List α → List α → List α → Rag α → Option (Rag α)
  | [], [], lcs, rag => if lcs = [] then some rag else none
  | [], v :: hev, lcs, rag => luskMain [] hev lcs (rag.done (.edit [] [v]))
  | h :: hel, [], lcs, rag => luskMain hel [] lcs (rag.done (.edit [h] []))
  | h :: hel, v :: hev, [], rag =>
      some (rag.done (.edit (h :: hel).reverse (v :: hev).reverse))
  | h :: hel, v :: hev, c :: lcs, rag =>
      if h = c then
        if v = c then luskMain hel hev lcs (rag.done (.skip 1))
        else luskMain (h :: hel) hev (c :: lcs) (rag.done (.edit [] [v]))
      else if v = c then luskMain hel (v :: hev) (c :: lcs) (rag.done (.edit [h] []))
      else luskMain hel hev (c :: lcs) (rag.done (.edit [h] [v]))
termination_by hel hev => hel.length + hev.length

/-- `++lusk`: lcs to list patch. -/
def lusk [DecidableEq α] (hel hev lcs : List α) : Option (List (Unce α)) := do
  let rag ← luskMain hel hev lcs ⟨.skip 0, []⟩
  return rag.abet

/-! ### Longest subsequence -/

/-- `gox` of `++loss`: how long the subsequences found so far are, and for each length the
one that ends first, by the index of its last element, backwards. -/
structure Gox where
  p : Nat
  q : Map (Nat × List Noun)

/-- `sev` of `++loss`: where each element of the list stands, the last place first. -/
def lossSev (mug : Noun → Nat) : List Noun → Nat → Map (List Nat) → Map (List Nat)
  | [], _, sev => sev
  | i :: hev, inx, sev => lossSev mug hev (inx + 1) (put mug sev i (inx :: (get mug sev i).getD []))

/-- `hink` of `++loss`: extend fits top. -/
def Gox.hink (mug : Noun → Nat) (gox : Gox) (inx goy : Nat) : Option Bool :=
  if gox.p = inx then some true
  else do
    let top ← get mug gox.q (.atom inx)
    return goy < top.1

/-- `lonk` of `++loss`: extend fits bottom. -/
def Gox.lonk (mug : Noun → Nat) (gox : Gox) (inx goy : Nat) : Option Bool :=
  if inx = 0 then some true
  else do
    let bot ← get mug gox.q (.atom (inx - 1))
    return goy > bot.1

/-- `lune` of `++loss`: extend. -/
def Gox.lune (mug : Noun → Nat) (hev : List Noun) (gox : Gox) (inx goy : Nat) : Option Gox := do
  let new ← hev[goy]?
  let rest ← if inx = 0 then some [] else (get mug gox.q (.atom (inx - 1))).map Prod.snd
  return ⟨if inx = gox.p then gox.p + 1 else gox.p, put mug gox.q (.atom inx) (goy, new :: rest)⟩

/-- `zes` of `merg`: the places where the matches extend something. -/
def Gox.zes (mug : Noun → Nat) (gox : Gox) (inx : Nat) (zes : List (Nat × Nat)) :
    List Nat → Option (List (Nat × Nat))
  | [] => some zes
  | i :: gay =>
      if inx > gox.p then some zes
      else do
        if !(← gox.lonk mug inx i) then gox.zes mug inx zes gay
        else if !(← gox.hink mug inx i) then gox.zes mug (inx + 1) zes (i :: gay)
        else gox.zes mug (inx + 1) ((inx, i) :: zes) gay
termination_by gay => gay.length + (gox.p + 1 - inx)

/-- `merg` of `++loss`: merge all matches. -/
def Gox.merg (mug : Noun → Nat) (hev : List Noun) (gox : Gox) (gay : List Nat) : Option Gox := do
  let zes ← gox.zes mug 0 [] gay
  zes.foldlM (fun gox z => gox.lune mug hev z.1 z.2) gox

/-- `++loss`: longest subsequence. -/
def loss (mug : Noun → Nat) (hel hev : List Noun) : Option (List Noun) := do
  let sev := lossSev mug hev 0 .nil
  let gox ← hel.foldlM (fun (gox : Gox) i => gox.merg mug hev ((get mug sev i).getD []).reverse)
    ⟨0, .nil⟩
  if gox.p = 0 then return []
  else
    let top ← get mug gox.q (.atom (gox.p - 1))
    return top.2.reverse

/-! ### What a patch is for -/

/-- The patch fits the first list, and makes the second of it. -/
inductive Turns : List (Unce α) → List α → List α → Prop
  | nil : Turns [] [] []
  | skip {rug : List (Unce α)} {h v : List α} (s : List α) (ht : Turns rug h v) :
      Turns (.skip s.length :: rug) (s ++ h) (s ++ v)
  | edit {rug : List (Unce α)} {h v : List α} (p q : List α) (ht : Turns rug h v) :
      Turns (.edit p q :: rug) (p.reverse ++ h) (q.reverse ++ v)

section turns

variable {rug rug' : List (Unce α)} {h v h' v' : List α}

/-- An inverted patch goes back. -/
theorem Turns.berk (ht : Turns rug h v) : Turns (berk rug) v h := by
  induction ht with
  | nil => exact .nil
  | skip s _ ih => exact .skip s ih
  | edit p q _ ih => exact .edit q p ih

theorem Turns.append (ht : Turns rug h v) (ht' : Turns rug' h' v') :
    Turns (rug ++ rug') (h ++ h') (v ++ v') := by
  induction ht with
  | nil => exact ht'
  | skip s _ ih =>
      rw [List.append_assoc, List.append_assoc]
      exact .skip s ih
  | edit p q _ ih =>
      rw [List.append_assoc, List.append_assoc]
      exact .edit p q ih

theorem lurkDrop_append [DecidableEq α] (p hel : List α) : lurkDrop p (p ++ hel) = some hel := by
  induction p with
  | nil => rfl
  | cons g p ih => simp [lurkDrop, ih]

theorem lurkLoop_turns [DecidableEq α] (ht : Turns rug h v) (war : List α) :
    lurkLoop rug h war = some (war.reverse ++ v) := by
  induction ht generalizing war with
  | nil => simp [lurkLoop]
  | skip s _ ih => simp [lurkLoop, ih]
  | edit p q _ ih => simp [lurkLoop, lurkDrop_append, ih]

/-- `++lurk` makes of a list what the patch is for. -/
theorem lurk_turns [DecidableEq α] (ht : Turns rug h v) : lurk h rug = some v := lurkLoop_turns ht []

/-! ### The patch of two lists -/

theorem turns_skip {n : Nat} : Turns [.skip n] h v ↔ h = v ∧ h.length = n := by
  constructor
  · intro ht
    cases ht with
    | skip s ht =>
        cases ht
        simp
  · rintro ⟨rfl, rfl⟩
    have ht := Turns.skip h (.nil (α := α))
    rwa [List.append_nil] at ht

theorem turns_edit {p q : List α} : Turns [.edit p q] h v ↔ h = p.reverse ∧ v = q.reverse := by
  constructor
  · intro ht
    cases ht with
    | edit _ _ ht =>
        cases ht
        simp
  · rintro ⟨rfl, rfl⟩
    have ht := Turns.edit p q (.nil (α := α))
    rwa [List.append_nil, List.append_nil] at ht

/-- What was made so far turns the first list into the second: the parts before the last and
the last one. -/
structure Rag.Makes (rag : Rag α) (h v : List α) : Prop where
  split : ∃ h₁ h₂ v₁ v₂, h = h₁ ++ h₂ ∧ v = v₁ ++ v₂ ∧ Turns rag.q.reverse h₁ v₁ ∧ Turns [rag.p] h₂ v₂

theorem makes_start : (⟨.skip 0, []⟩ : Rag α).Makes [] [] :=
  ⟨[], [], [], [], rfl, rfl, .nil, turns_skip.mpr ⟨rfl, rfl⟩⟩

theorem Rag.Makes.abet [DecidableEq α] {rag : Rag α} (hm : rag.Makes h v) : Turns rag.abet h v := by
  obtain ⟨h₁, h₂, v₁, v₂, rfl, rfl, hq, hp⟩ := hm.split
  unfold Rag.abet
  split
  · next hskip =>
      rw [hskip, turns_skip, List.length_eq_zero_iff] at hp
      obtain ⟨rfl, rfl⟩ := hp
      rwa [List.append_nil, List.append_nil]
  · rw [List.reverse_cons]
    exact hq.append hp

/-- One more part. -/
theorem Rag.Makes.done {rag : Rag α} (hm : rag.Makes h v) {new : Unce α} (hn : Turns [new] h' v') :
    (rag.done new).Makes (h ++ h') (v ++ v') := by
  obtain ⟨h₁, h₂, v₁, v₂, rfl, rfl, hq, hp⟩ := hm.split
  obtain ⟨p, q⟩ := rag
  have hall : Turns (p :: q).reverse (h₁ ++ h₂) (v₁ ++ v₂) := by
    rw [List.reverse_cons]
    exact hq.append hp
  cases p with
  | edit p q' =>
      cases new with
      | edit a b =>
          rw [turns_edit] at hp hn
          obtain ⟨rfl, rfl⟩ := hp
          obtain ⟨rfl, rfl⟩ := hn
          refine ⟨h₁, _, v₁, _, List.append_assoc .., List.append_assoc .., hq, ?_⟩
          rw [← List.reverse_append, ← List.reverse_append]
          exact turns_edit.mpr ⟨rfl, rfl⟩
      | skip n => exact ⟨_, h', _, v', rfl, rfl, hall, hn⟩
  | skip k =>
      cases new with
      | edit a b =>
          by_cases hk : k = 0
          · subst hk
            rw [turns_skip, List.length_eq_zero_iff] at hp
            obtain ⟨rfl, rfl⟩ := hp
            refine ⟨h₁, h', v₁, v', by simp, by simp, ?_, hn⟩
            simpa [Rag.done] using hq
          · refine ⟨_, h', _, v', rfl, rfl, ?_, hn⟩
            simpa [Rag.done, hk] using hall
      | skip n =>
          rw [turns_skip] at hp hn
          obtain ⟨rfl, rfl⟩ := hp
          obtain ⟨rfl, rfl⟩ := hn
          refine ⟨h₁, _, v₁, _, List.append_assoc .., List.append_assoc .., hq, ?_⟩
          exact turns_skip.mpr ⟨rfl, by simp⟩

/-- The loop takes the elements one by one, and each goes to the part that is being made. -/
theorem luskMain_makes [DecidableEq α] (hel hev lcs : List α) (rag : Rag α) :
    ∀ {rag' : Rag α} {h v : List α}, luskMain hel hev lcs rag = some rag' → rag.Makes h v →
      rag'.Makes (h ++ hel) (v ++ hev) := by
  induction hel, hev, lcs, rag using luskMain.induct with
  | case1 rag =>
      intro rag' h v hl hm
      rw [luskMain, if_pos rfl] at hl
      cases hl
      rwa [List.append_nil, List.append_nil]
  | case2 lcs rag hc =>
      intro rag' h v hl hm
      rw [luskMain, if_neg hc] at hl
      cases hl
  | case3 j hev lcs rag ih =>
      intro rag' h v hl hm
      rw [luskMain] at hl
      simpa using ih hl (hm.done (turns_edit.mpr ⟨rfl, rfl⟩))
  | case4 i hel lcs rag ih =>
      intro rag' h v hl hm
      rw [luskMain] at hl
      simpa using ih hl (hm.done (turns_edit.mpr ⟨rfl, rfl⟩))
  | case5 i hel j hev rag =>
      intro rag' h v hl hm
      rw [luskMain] at hl
      cases hl
      exact hm.done (turns_edit.mpr (by simp))
  | case6 hel hev c lcs rag ih =>
      intro rag' h v hl hm
      rw [luskMain, if_pos rfl, if_pos rfl] at hl
      simpa using ih hl (hm.done (turns_skip.mpr ⟨rfl, List.length_singleton (a := c)⟩))
  | case7 hel j hev c lcs rag hj ih =>
      intro rag' h v hl hm
      rw [luskMain, if_pos rfl, if_neg hj] at hl
      simpa using ih hl (hm.done (turns_edit.mpr ⟨rfl, rfl⟩))
  | case8 i hel hev c lcs rag hi ih =>
      intro rag' h v hl hm
      rw [luskMain, if_neg hi, if_pos rfl] at hl
      simpa using ih hl (hm.done (turns_edit.mpr ⟨rfl, rfl⟩))
  | case9 i hel j hev c lcs rag hi hj ih =>
      intro rag' h v hl hm
      rw [luskMain, if_neg hi, if_neg hj] at hl
      simpa using ih hl (hm.done (turns_edit.mpr ⟨rfl, rfl⟩))

/-- `++lusk` makes a patch from the first list to the second, whatever it was given as their
common subsequence. -/
theorem lusk_turns [DecidableEq α] {hel hev lcs : List α} (hl : lusk hel hev lcs = some rug) :
    Turns rug hel hev := by
  simp only [lusk, Option.bind_eq_bind, Option.bind_eq_some_iff] at hl
  obtain ⟨rag, hmain, habet⟩ := hl
  cases habet
  exact (luskMain_makes hel hev lcs _ hmain makes_start).abet

end turns

/-! ### Parts of one kind do not stand next to each other -/

def Unce.isSkip : Unce α → Bool
  | .skip _ => true
  | .edit _ _ => false

/-- No two parts of one kind stand next to each other. -/
def Alternates (rug : List (Unce α)) : Prop := rug.IsChain fun a b => a.isSkip ≠ b.isSkip

theorem alternates_reverse {rug : List (Unce α)} : Alternates rug.reverse ↔ Alternates rug := by
  simp only [Alternates, List.isChain_reverse, ne_comm]

theorem alternates_cons {a b : Unce α} {rug : List (Unce α)} :
    Alternates (a :: b :: rug) ↔ a.isSkip ≠ b.isSkip ∧ Alternates (b :: rug) := List.isChain_cons_cons

theorem alternates_single (a : Unce α) : Alternates [a] := List.isChain_singleton a

theorem Alternates.tail {a : Unce α} {rug : List (Unce α)} (h : Alternates (a :: rug)) :
    Alternates rug := List.IsChain.tail h

/-- Another part of the same kind instead of the first. -/
theorem Alternates.same {a b : Unce α} {rug : List (Unce α)} (h : Alternates (a :: rug))
    (hab : b.isSkip = a.isSkip) : Alternates (b :: rug) := by
  cases rug with
  | nil => exact alternates_single b
  | cons c rug =>
      rw [alternates_cons] at h ⊢
      rwa [hab]

/-- The parts alternate, and nothing stands before an empty part. -/
structure Rag.Good (rag : Rag α) : Prop where
  alternates : Alternates (rag.p :: rag.q)
  first : rag.p = .skip 0 → rag.q = []

theorem Rag.Good.edit {rag : Rag α} (hg : rag.Good) (p q : List α) : (rag.done (.edit p q)).Good := by
  obtain ⟨a, rug⟩ := rag
  cases a with
  | edit p' q' => exact ⟨hg.alternates.same rfl, fun h => by cases h⟩
  | skip k =>
      refine ⟨?_, fun h => by cases h⟩
      by_cases hk : k = 0
      · subst hk
        have hq := hg.first rfl
        simp only at hq
        simp only [Rag.done, if_true, hq]
        exact alternates_single _
      · simp only [Rag.done, hk, if_false]
        exact alternates_cons.mpr ⟨Bool.false_ne_true, hg.alternates⟩

theorem Rag.Good.skip {rag : Rag α} (hg : rag.Good) : (rag.done (.skip 1)).Good := by
  obtain ⟨a, rug⟩ := rag
  cases a with
  | edit p' q' =>
      exact ⟨alternates_cons.mpr ⟨Bool.false_ne_true.symm, hg.alternates⟩, fun h => by cases h⟩
  | skip k => exact ⟨hg.alternates.same rfl, fun h => by simp [Rag.done] at h⟩

/-- What a part more keeps, the loop keeps. -/
theorem luskMain_rule [DecidableEq α] {P : Rag α → Prop}
    (hedit : ∀ (rag : Rag α) (p q : List α), P rag → P (rag.done (.edit p q)))
    (hskip : ∀ rag : Rag α, P rag → P (rag.done (.skip 1))) (hel hev lcs : List α) (rag : Rag α)
    (hP : P rag) : ∀ {rag' : Rag α}, luskMain hel hev lcs rag = some rag' → P rag' := by
  induction hel, hev, lcs, rag using luskMain.induct with
  | case1 rag =>
      intro rag' hl
      rw [luskMain, if_pos rfl] at hl
      cases hl
      exact hP
  | case2 lcs rag hc =>
      intro rag' hl
      rw [luskMain, if_neg hc] at hl
      cases hl
  | case3 j hev lcs rag ih =>
      intro rag' hl
      rw [luskMain] at hl
      exact ih (hedit _ _ _ hP) hl
  | case4 i hel lcs rag ih =>
      intro rag' hl
      rw [luskMain] at hl
      exact ih (hedit _ _ _ hP) hl
  | case5 i hel j hev rag =>
      intro rag' hl
      rw [luskMain] at hl
      cases hl
      exact hedit _ _ _ hP
  | case6 hel hev c lcs rag ih =>
      intro rag' hl
      rw [luskMain, if_pos rfl, if_pos rfl] at hl
      exact ih (hskip _ hP) hl
  | case7 hel j hev c lcs rag hj ih =>
      intro rag' hl
      rw [luskMain, if_pos rfl, if_neg hj] at hl
      exact ih (hedit _ _ _ hP) hl
  | case8 i hel hev c lcs rag hi ih =>
      intro rag' hl
      rw [luskMain, if_neg hi, if_pos rfl] at hl
      exact ih (hedit _ _ _ hP) hl
  | case9 i hel j hev c lcs rag hi hj ih =>
      intro rag' hl
      rw [luskMain, if_neg hi, if_neg hj] at hl
      exact ih (hedit _ _ _ hP) hl

theorem luskMain_good [DecidableEq α] (hel hev lcs : List α) (rag : Rag α) (hg : rag.Good) :
    ∀ {rag' : Rag α}, luskMain hel hev lcs rag = some rag' → rag'.Good :=
  luskMain_rule (fun _ p q hg => hg.edit p q) (fun _ hg => hg.skip) hel hev lcs rag hg

/-- `++lusk` puts parts of one kind that meet into one. -/
theorem lusk_alternates [DecidableEq α] {hel hev lcs : List α} {rug : List (Unce α)}
    (hl : lusk hel hev lcs = some rug) : Alternates rug := by
  simp only [lusk, Option.bind_eq_bind, Option.bind_eq_some_iff] at hl
  obtain ⟨rag, hmain, habet⟩ := hl
  cases habet
  have hstart : (⟨.skip 0, []⟩ : Rag α).Good := ⟨alternates_single _, fun _ => rfl⟩
  have hg := luskMain_good hel hev lcs _ hstart hmain
  rw [Rag.abet, alternates_reverse]
  split
  · exact hg.alternates.tail
  · exact hg.alternates

/-- No two edits of a patch stand next to each other. -/
def Spaced (rug : List (Unce α)) : Prop :=
  rug.IsChain fun a b => ∀ p q p' q', ¬(a = .edit p q ∧ b = .edit p' q')

theorem spaced_skip {n : Nat} {rug : List (Unce α)} (h : Spaced rug) : Spaced (.skip n :: rug) := by
  cases rug with
  | nil => exact List.isChain_singleton _
  | cons b rug =>
      refine List.isChain_cons_cons.mpr ⟨?_, h⟩
      rintro a b a' b' ⟨ha, -⟩
      cases ha

theorem spaced_cons_skip {p q : List α} {n : Nat} {rug : List (Unce α)} (h : Spaced (.skip n :: rug)) :
    Spaced (.edit p q :: .skip n :: rug) := by
  refine List.isChain_cons_cons.mpr ⟨?_, h⟩
  rintro a b a' b' ⟨-, hb⟩
  cases hb

theorem Spaced.tail {a : Unce α} {rug : List (Unce α)} (h : Spaced (a :: rug)) : Spaced rug :=
  List.IsChain.tail h

/-- `++lusk` puts edits that meet into one. -/
theorem lusk_spaced [DecidableEq α] {hel hev lcs : List α} {rug : List (Unce α)}
    (hl : lusk hel hev lcs = some rug) : Spaced rug := by
  refine (lusk_alternates hl).imp fun a b hab p q p' q' => ?_
  rintro ⟨rfl, rfl⟩
  exact hab rfl

/-- No skip before the part that is being made is empty. -/
def Rag.Full (rag : Rag α) : Prop := ∀ n, .skip n ∈ rag.q → 0 < n

theorem Rag.Full.done {rag : Rag α} (hf : rag.Full) (new : Unce α) : (rag.done new).Full := by
  intro n hn
  obtain ⟨a, rug⟩ := rag
  cases a with
  | edit p q =>
      cases new with
      | edit p' q' => exact hf n hn
      | skip k =>
          rcases List.mem_cons.mp hn with he | hn
          · cases he
          · exact hf n hn
  | skip k =>
      cases new with
      | skip k' => exact hf n hn
      | edit p q =>
          by_cases hk : k = 0
          · simp only [Rag.done, hk, if_true] at hn
            exact hf n hn
          · simp only [Rag.done, hk, if_false] at hn
            rcases List.mem_cons.mp hn with he | hn
            · cases he
              exact Nat.pos_of_ne_zero hk
            · exact hf n hn

/-- `++lusk` writes no empty skip. -/
theorem lusk_pos [DecidableEq α] {hel hev lcs : List α} {rug : List (Unce α)}
    (hl : lusk hel hev lcs = some rug) {n : Nat} (hn : .skip n ∈ rug) : 0 < n := by
  simp only [lusk, Option.bind_eq_bind, Option.bind_eq_some_iff] at hl
  obtain ⟨rag, hmain, habet⟩ := hl
  cases habet
  have hf : rag.Full := luskMain_rule (fun _ _ _ hf => hf.done _) (fun _ hf => hf.done _) hel hev lcs
    ⟨.skip 0, []⟩ (fun n hn => absurd hn List.not_mem_nil) hmain
  rw [Rag.abet, List.mem_reverse] at hn
  split at hn
  · exact hf n hn
  · next hp =>
      rcases List.mem_cons.mp hn with he | hn
      · refine Nat.pos_of_ne_zero fun h0 => hp ?_
        rw [← he, h0]
      · exact hf n hn

end Vere.Hoon
