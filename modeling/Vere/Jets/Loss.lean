import Vere.Hoon.Loss
import Vere.Lib.Thresholds

/-!
# Vere.Jets.Loss

The jet of `++loss` (`gen164/5/loss.c`), and that what it and the arm return is as long as a common
subsequence can be.

Both keep candidates, one for each length. The arm looks for the place of a match one candidate
after another, the jet by halves (`_bink`); the arm collects the places and then extends, the jet
extends on the way back from its recursion. The jet keeps candidates as indices and the arm as
elements, which makes no difference (`Same`).

The map is one of `++by`, whose jets compute what the arms do (`byPut_noun`). A position is a word,
and no list in the loom is too long for one. What reads or writes past the end of the candidates has
no result.
-/

namespace Vere.Jets

open Vere.Lib Vere.Hoon

/-! ### The jet -/

/-- `u2_loss`: a list as an array, as a set of lists, and the candidates. There is room for `cap` of
them, and `kct_w` is how many there are. -/
structure LossU where
  hev : List Noun
  sev : Map (List Nat)
  cap : Nat
  kad : List (List Nat)

/-- The loop of `_lemp`: equivalence classes. -/
def lempLoop (mug : Noun → Nat) : List Noun → Nat → Map (List Nat) → Map (List Nat)
  | [], _, sev => sev
  | how :: hev, i, sev =>
      let hav := get mug sev how
      let teg := i :: hav.getD []
      lempLoop mug hev (i + 1) (put mug sev how teg)

/-- `_lemp`: initialize loss object. -/
def lemp (mug : Noun → Nat) (hel hev : List Noun) : LossU where
  hev := hev
  sev := lempLoop mug hev 0 .nil
  cap := 1 + min hev.length hel.length
  kad := []

namespace LossU

/-- `_lune`: apply. -/
def lune (inx goy : Nat) (u : LossU) : Option LossU := do
  let rest ← if inx = 0 then some [] else u.kad[inx - 1]?
  let kad := goy :: rest
  if u.kad.length = inx then
    if u.kad.length < 2 ^ 31 ∧ inx < u.cap then some { u with kad := u.kad ++ [kad] } else none
  else if inx < u.kad.length then some { u with kad := u.kad.set inx kad }
  else none

/-- `_hink`: extend fits top. -/
def hink (u : LossU) (inx goy : Nat) : Option Bool :=
  if u.kad.length = inx then some true
  else do
    let top ← (← u.kad[inx]?).head?
    return top > goy

/-- `_lonk`: extend fits bottom. -/
def lonk (u : LossU) (inx goy : Nat) : Option Bool :=
  if inx = 0 then some true
  else do
    let bot ← (← u.kad[inx - 1]?).head?
    return bot < goy

/-- `_bink`: search for the lowest index from `inx` to `max` that fits both, and where the search
has come to. -/
def bink (u : LossU) (inx max goy : Nat) : Option (Bool × Nat) :=
  if max < inx then none
  else if _h : max = inx then do
    if !(← u.lonk inx goy) then return (false, inx)
    else if ← u.hink inx goy then return (true, inx)
    else return (false, inx + 1)
  else do
    let mid := inx + (max - inx) / 2
    if !(← u.lonk mid goy) then u.bink inx mid goy
    else if ← u.hink mid goy then u.bink inx mid goy
    else u.bink (mid + 1) max goy
termination_by max - inx

/-- `_merg`. -/
def merg (u : LossU) (inx : Nat) : List Nat → Option LossU
  | [] => some u
  | goy :: gay =>
      if inx > u.kad.length then some u
      else do
        let (bik, inx) ← u.bink inx u.kad.length goy
        if bik then (← u.merg (inx + 1) gay).lune inx goy else u.merg inx gay

/-- `_loss`: compute lcs. -/
def run (mug : Noun → Nat) : List Noun → LossU → Option LossU
  | [], u => some u
  | i :: hel, u =>
      match get mug u.sev i with
      | some guy => do run mug hel (← u.merg 0 guy.reverse)
      | none => run mug hel u

/-- `_lext`: extract lcs. -/
def lext (u : LossU) : List Nat → Option (List Noun)
  | [] => some []
  | i :: kad => do return (← u.hev[i]?) :: (← u.lext kad)

/-- `_lexs`: extract lcs. -/
def lexs (u : LossU) : Option (List Noun) :=
  if u.kad.length = 0 then some []
  else do
    let kad ← u.kad[u.kad.length - 1]?
    return (← u.lext kad).reverse

end LossU

/-- `loss`: longest subsequence. -/
def loss (mug : Noun → Nat) (hel hev : List Noun) : Option (List Noun) := do
  (← LossU.run mug hel (lemp mug hel hev)).lexs

/-! ### The search -/

section loss

variable {mug : Noun → Nat} {u : LossU} {gox : Gox} {T : List Nat}

/-- The candidates of the jet are those of the arm, as indices. -/
structure Same (mug : Noun → Nat) (u : LossU) (gox : Gox) : Prop where
  count : u.kad.length = gox.p
  sorted : Treap.Ordered (Hoon.gor mug) gox.q
  entry : ∀ (k : Nat) (ks : List Nat), u.kad[k]? = some ks → ∃ goy rest ns,
    ks = goy :: rest ∧ get mug gox.q (.atom k) = some (goy, ns) ∧ u.lext ks = some ns

theorem Same.get (h : Same mug u gox) {k : Nat} (hk : k < gox.p) :
    ∃ goy rest ns, u.kad[k]? = some (goy :: rest) ∧
      Hoon.get mug gox.q (.atom k) = some (goy, ns) ∧ u.lext (goy :: rest) = some ns := by
  have hlt : k < u.kad.length := h.count ▸ hk
  have hks : u.kad[k]? = some u.kad[k] := List.getElem?_eq_getElem hlt
  obtain ⟨goy, rest, ns, heq, hget, hext⟩ := h.entry k _ hks
  rw [heq] at hks hext
  exact ⟨goy, rest, ns, hks, hget, hext⟩

theorem Same.lonk (h : Same mug u gox) {inx : Nat} (hinx : inx ≤ gox.p) (goy : Nat) :
    u.lonk inx goy = gox.lonk mug inx goy := by
  unfold LossU.lonk Gox.lonk
  by_cases h0 : inx = 0
  · rw [if_pos h0, if_pos h0]
  · obtain ⟨bot, rest, ns, hkad, hget, -⟩ := h.get (k := inx - 1) (by omega)
    rw [if_neg h0, if_neg h0, hkad, hget]
    rfl

theorem Same.hink (h : Same mug u gox) {inx : Nat} (hinx : inx ≤ gox.p) (goy : Nat) :
    u.hink inx goy = gox.hink mug inx goy := by
  unfold LossU.hink Gox.hink
  by_cases hp : gox.p = inx
  · rw [if_pos (h.count.trans hp), if_pos hp]
  · obtain ⟨top, rest, ns, hkad, hget, -⟩ := h.get (k := inx) (by omega)
    rw [if_neg (h.count ▸ hp), if_neg hp, hkad, hget]
    rfl

/-- Both searches come to the place of a match. -/
theorem bink_eq (h : Same mug u gox) (ht : Tops mug T gox) (hT : T.Pairwise (· < ·)) {inx hi goy : Nat}
    (hle : inx ≤ hi) (hhi : hi ≤ gox.p) (hup : upto T goy ≤ hi) :
    u.bink inx hi goy =
      some (decide (max inx (upto T goy) ≤ below T goy), max inx (upto T goy)) := by
  have hsucc := upto_le_succ hT goy
  induction hn : hi - inx using Nat.strong_induction_on generalizing inx hi with
  | h n ih =>
      rw [LossU.bink, if_neg (by omega)]
      by_cases heq : hi = inx
      · subst heq
        rw [dif_pos rfl, h.lonk hhi, h.hink hhi, ht.lonk hT hhi, ht.hink hT hhi, max_eq_left hup]
        by_cases hlonk : hi ≤ below T goy <;> simp [hlonk, hup]
      · have hmid : inx + (hi - inx) / 2 < hi := by omega
        rw [dif_neg heq]
        simp only [h.lonk (hmid.le.trans hhi), h.hink (hmid.le.trans hhi),
          ht.lonk hT (hmid.le.trans hhi), ht.hink hT (hmid.le.trans hhi), Option.bind_eq_bind,
          Option.bind_some]
        generalize hm : inx + (hi - inx) / 2 = mid at hmid ⊢
        by_cases hlonk : mid ≤ below T goy
        · by_cases hhink : upto T goy ≤ mid
          · simp only [hlonk, hhink, decide_true, Bool.not_true, Bool.false_eq_true, if_false,
              if_true]
            exact ih (mid - inx) (by omega) (by omega) (by omega) hhink rfl
          · have hmax : max (mid + 1) (upto T goy) = max inx (upto T goy) := by omega
            simp only [hlonk, hhink, decide_true, decide_false, Bool.not_true, Bool.false_eq_true,
              if_false]
            rw [ih (hi - (mid + 1)) (by omega) (by omega) hhi hup rfl, hmax]
        · simp only [hlonk, decide_false, Bool.not_false, if_true]
          exact ih (mid - inx) (by omega) (by omega) (by omega) (by omega) rfl

/-- The jet extends what the arm extends, in the same order. -/
theorem merg_eq (h : Same mug u gox) (ht : Tops mug T gox) (hT : T.Pairwise (· < ·)) (inx : Nat)
    (gay : List Nat) :
    u.merg inx gay = (seats T inx gay).reverse.foldlM (fun u z => u.lune z.1 z.2) u := by
  have hcount := h.count
  have htops := ht.count
  induction gay generalizing inx with
  | nil => rfl
  | cons goy gay ih =>
      have hup := upto_le_length T goy
      rw [LossU.merg]
      by_cases hinx : u.kad.length < inx
      · rw [if_pos hinx, seats_of_length_lt (by omega)]
        rfl
      · rw [if_neg hinx, bink_eq h ht hT (by omega) (by omega) (by omega), seats]
        simp only [Option.bind_eq_bind, Option.bind_some, decide_eq_true_eq]
        by_cases hm : max inx (upto T goy) ≤ below T goy
        · rw [if_pos hm, if_pos hm, ih, List.reverse_cons, List.foldlM_append]
          simp
        · rw [if_neg hm, if_neg hm, ih]

/-! ### The extensions -/

/-- Only the array matters. -/
theorem lext_kad (u : LossU) (kad : List (List Nat)) (ks : List Nat) :
    LossU.lext { u with kad := kad } ks = u.lext ks := by
  induction ks with
  | nil => rfl
  | cons i ks ih => rw [LossU.lext, LossU.lext, ih]

/-- One extension of both. -/
theorem Same.lune (h : Same mug u gox) {inx goy : Nat} {i : Noun} (hi : u.hev[goy]? = some i)
    (hinx : inx ≤ gox.p) (hcap : inx < u.cap) (hbig : inx < 2 ^ 31) :
    ∃ kad g, u.lune inx goy = some { u with kad := kad } ∧ gox.lune mug u.hev inx goy = some g ∧
      Same mug { u with kad := kad } g ∧ u.kad.length ≤ kad.length := by
  have hcount := h.count
  obtain ⟨rest, ns, hrest, hns, hext⟩ : ∃ rest ns,
      (if inx = 0 then some [] else u.kad[inx - 1]?) = some rest ∧
        (if inx = 0 then some [] else (Hoon.get mug gox.q (.atom (inx - 1))).map Prod.snd)
          = some ns ∧ u.lext rest = some ns := by
    by_cases h0 : inx = 0
    · exact ⟨[], [], if_pos h0, if_pos h0, rfl⟩
    · obtain ⟨bot, rest, ns, hkad, hget, hext⟩ := h.get (k := inx - 1) (by omega)
      exact ⟨bot :: rest, ns, by rw [if_neg h0, hkad], by rw [if_neg h0, hget]; rfl, hext⟩
  have hlune : u.lune inx goy = some { u with kad := setTop u.kad (inx, goy :: rest) } := by
    have hset : (if u.kad.length = inx then
          if u.kad.length < 2 ^ 31 ∧ inx < u.cap then
            some { u with kad := u.kad ++ [goy :: rest] } else none
        else if inx < u.kad.length then some { u with kad := u.kad.set inx (goy :: rest) }
        else none) = some { u with kad := setTop u.kad (inx, goy :: rest) } := by
      unfold setTop
      by_cases hlen : u.kad.length = inx
      · rw [if_pos hlen, if_pos ⟨by omega, hcap⟩, if_pos hlen.symm]
      · rw [if_neg hlen, if_pos (by omega), if_neg (Ne.symm hlen)]
    rw [← hset, LossU.lune]
    by_cases h0 : inx = 0
    · rw [if_pos h0] at hrest
      simp [h0, Option.some.inj hrest]
    · rw [if_neg h0] at hrest
      simp only [Option.bind_eq_bind, Option.bind_some, h0, if_false, hrest]
  refine ⟨_, _, hlune, lune_eq hi hns, ⟨?_, ?_, ?_⟩, length_le_setTop _ _⟩
  · show (setTop u.kad (inx, goy :: rest)).length = if inx = gox.p then gox.p + 1 else gox.p
    rw [setTop, ← hcount]
    split <;> simp
  · exact Treap.ordered_insert (gor_searchOrder mug) h.sorted _ _
  · intro k ks hks
    rw [getElem?_setTop (by rw [hcount]; exact hinx)] at hks
    rw [Hoon.get, put, Treap.lookup_insert (gor_searchOrder mug) h.sorted]
    by_cases hk : k = inx
    · rw [if_pos hk] at hks
      obtain rfl := Option.some.inj hks
      refine ⟨goy, rest, i :: ns, rfl, by rw [hk, if_pos rfl], ?_⟩
      rw [lext_kad, LossU.lext, hext, hi]
      rfl
    · rw [if_neg hk] at hks
      rw [if_neg (by simpa using hk)]
      obtain ⟨top, more, ms, heq, hget, hms⟩ := h.entry k ks hks
      exact ⟨top, more, ms, heq, hget, (lext_kad u _ ks).trans hms⟩

/-- The extensions of both, one after another. -/
theorem Same.foldlM (h : Same mug u gox) {zs : List (Nat × Nat)} {i : Noun}
    (hzs : ∀ z ∈ zs, u.hev[z.2]? = some i ∧ z.1 ≤ u.kad.length ∧ z.1 < u.cap ∧ z.1 < 2 ^ 31) :
    ∃ kad g, zs.foldlM (fun u z => u.lune z.1 z.2) u = some { u with kad := kad } ∧
      zs.foldlM (fun gox z => gox.lune mug u.hev z.1 z.2) gox = some g ∧
      Same mug { u with kad := kad } g := by
  induction zs generalizing u gox with
  | nil => exact ⟨u.kad, gox, rfl, rfl, h⟩
  | cons z zs ih =>
      obtain ⟨hi, hle, hcap, hbig⟩ := hzs z List.mem_cons_self
      obtain ⟨kad₁, g₁, hu₁, hg₁, h₁, hlen⟩ := h.lune hi (h.count ▸ hle) hcap hbig
      obtain ⟨kad₂, g₂, hu₂, hg₂, h₂⟩ := ih h₁ fun y hy => by
        obtain ⟨hi', hle', hcap', hbig'⟩ := hzs y (List.mem_cons_of_mem z hy)
        exact ⟨hi', hle'.trans hlen, hcap', hbig'⟩
      refine ⟨kad₂, g₂, ?_, ?_, h₂⟩
      · rw [List.foldlM_cons, hu₁]
        exact hu₂
      · rw [List.foldlM_cons, hg₁]
        exact hg₂

theorem lempLoop_eq (mug : Noun → Nat) (hev : List Noun) (i : Nat) (sev : Map (List Nat)) :
    lempLoop mug hev i sev = lossSev mug hev i sev := by
  induction hev generalizing i sev with
  | nil => rfl
  | cons how hev ih => exact ih _ _

theorem run_cons (mug : Noun → Nat) (i : Noun) (hel : List Noun) (u : LossU) :
    LossU.run mug (i :: hel) u =
      (u.merg 0 ((get mug u.sev i).getD []).reverse).bind (LossU.run mug hel) := by
  rw [LossU.run]
  cases Hoon.get mug u.sev i <;> rfl

/-- All matches of a line, in both. There is room, because a candidate is a subsequence. -/
theorem Same.merg (h : Same mug u gox) {hel : List Noun} (hg : Grown mug hel u.hev T gox) (i : Noun)
    (hsev : u.sev = lossSev mug u.hev 0 .nil) (hcap : min hel.length u.hev.length < u.cap)
    (hbig : u.hev.length < 2 ^ 31) :
    ∃ kad g, u.merg 0 ((Hoon.get mug u.sev i).getD []).reverse = some { u with kad := kad } ∧
      gox.merg mug u.hev ((Hoon.get mug u.sev i).getD []).reverse = some g ∧
      Same mug { u with kad := kad } g := by
  obtain ⟨hh, hv⟩ := hg.length_le
  obtain ⟨-, hmem⟩ := lossSev_matches mug u.hev i
  have hcount := h.count.trans hg.tops.count
  rw [← hsev] at hmem
  generalize ((Hoon.get mug u.sev i).getD []).reverse = gay at hmem ⊢
  rw [merg_eq h hg.tops hg.least.sorted, Gox.merg, hg.tops.zes hg.least.sorted, List.append_nil]
  refine h.foldlM (i := i) fun z hz => ?_
  obtain ⟨hgay, -, hlow, -⟩ := seats_mem (List.mem_reverse.mp hz)
  have hle := hlow.trans (below_le_length T _)
  exact ⟨(hmem _).mp hgay, by omega, by omega, by omega⟩

theorem Same.run {todo done : List Noun} (h : Same mug u gox) (hg : Grown mug done u.hev T gox)
    (hsev : u.sev = lossSev mug u.hev 0 .nil)
    (hcap : min (done ++ todo).length u.hev.length < u.cap) (hbig : u.hev.length < 2 ^ 31) :
    ∃ kad g, LossU.run mug todo u = some { u with kad := kad } ∧
      todo.foldlM (fun (gox : Gox) i =>
        gox.merg mug u.hev ((Hoon.get mug u.sev i).getD []).reverse) gox = some g ∧
      Same mug { u with kad := kad } g := by
  induction todo generalizing done u gox T with
  | nil => exact ⟨u.kad, gox, rfl, rfl, h⟩
  | cons i todo ih =>
      obtain ⟨kad₁, g₁, hu₁, hg₁, h₁⟩ := h.merg hg i hsev
        (by simp only [List.length_append, List.length_cons] at hcap; omega) hbig
      obtain ⟨g, T₁, hmerg, hgrown⟩ := hg.merg i
      rw [← hsev] at hmerg
      obtain rfl := Option.some.inj (hg₁.symm.trans hmerg)
      obtain ⟨kad₂, g₂, hu₂, hg₂, h₂⟩ := ih h₁ hgrown hsev (by rwa [List.append_assoc]) hbig
      refine ⟨kad₂, g₂, ?_, ?_, h₂⟩
      · rw [run_cons, hu₁]
        exact hu₂
      · rw [List.foldlM_cons, hg₁]
        exact hg₂

/-- What is extracted. -/
theorem Same.lexs (h : Same mug u gox) :
    u.lexs = if gox.p = 0 then some []
      else (Hoon.get mug gox.q (.atom (gox.p - 1))).map fun top => top.2.reverse := by
  unfold LossU.lexs
  rw [h.count]
  by_cases h0 : gox.p = 0
  · rw [if_pos h0, if_pos h0]
  · obtain ⟨goy, rest, ns, hkad, hget, hext⟩ := h.get (k := gox.p - 1) (by omega)
    rw [if_neg h0, if_neg h0, hkad, hget]
    simp [hext]

/-- The jet returns what the arm returns. -/
theorem loss_eq (mug : Noun → Nat) (hel : List Noun) {hev : List Noun} (hbig : hev.length < 2 ^ 31) :
    loss mug hel hev = Hoon.loss mug hel hev := by
  have hsev : (lemp mug hel hev).sev = lossSev mug hev 0 .nil := lempLoop_eq mug hev 0 .nil
  have hinit : Same mug (lemp mug hel hev) ⟨0, .nil⟩ := ⟨rfl, trivial, fun _ _ hks => nomatch hks⟩
  obtain ⟨kad, g, hrun, hfold, hsame⟩ := @Same.run mug _ _ _ hel [] hinit (grown_nil mug hev) hsev
    (by simp [lemp]; omega) hbig
  rw [hsev] at hfold
  have hfold' : hel.foldlM (fun (gox : Gox) i =>
      gox.merg mug hev ((get mug (lossSev mug hev 0 .nil) i).getD []).reverse) ⟨0, .nil⟩ = some g :=
    hfold
  have harm : Hoon.loss mug hel hev = if g.p = 0 then some []
      else (Hoon.get mug g.q (.atom (g.p - 1))).map fun top => top.2.reverse := by
    rw [Hoon.loss, hfold']
    by_cases h0 : g.p = 0
    · simp [h0]
    · simp only [Option.bind_eq_bind, Option.bind_some, h0, if_false]
      cases Hoon.get mug g.q (.atom (g.p - 1)) <;> rfl
  rw [harm, loss, hrun]
  exact hsame.lexs

/-- The longest common subsequence: what the arm returns is a subsequence of both lists, no common
subsequence is longer, and the jet returns the same list. The mug shapes the maps that the two build,
and nothing else: both only look keys up, so the list does not depend on it. -/
theorem loss_same (mug : Noun → Nat) (hel hev : List Noun) :
    ∃ lcs, Hoon.loss mug hel hev = some lcs ∧ lcs.Sublist hel ∧ lcs.Sublist hev ∧
      (∀ c : List Noun, c.Sublist hel → c.Sublist hev → c.length ≤ lcs.length) ∧
      (hev.length < 2 ^ 31 → loss mug hel hev = some lcs) := by
  obtain ⟨lcs, hlcs, hh, hv, hmost⟩ := loss_longest mug hel hev
  exact ⟨lcs, hlcs, hh, hv, hmost, fun hbig => (loss_eq mug hel hbig).trans hlcs⟩

theorem loss_same_word : ∃ lcs, Hoon.loss (fun _ => 0) [.atom 1, .atom 2] [.atom 2] = some lcs ∧
    loss (fun _ => 0) [.atom 1, .atom 2] [.atom 2] = some lcs := by
  obtain ⟨lcs, hlcs, -, -, -, hjet⟩ := loss_same (fun _ => 0) [.atom 1, .atom 2] [.atom 2]
  exact ⟨lcs, hlcs, hjet (by decide)⟩

end loss

end Vere.Jets
