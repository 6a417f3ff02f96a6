import Vere.Jets.Set
import Vere.Lib.Sink

/-!
# Vere.Jets.Union

The map jets `gen164/4/by_gas.c`, `by_uni.c` and `by_int.c`.

Where the root of the first map comes first by `vor`, the two recursive jets do what
`uni:by` and `int:by` do. Where the root of the second does, three of their branches are
wrong: `by_uni` gives its inner call the two maps the wrong way round if the root of the
first is also the higher one, so that on keys of both the values of the first map are kept,
and both branches of `by_int` look up a part of the first map in the first map itself.
-/

namespace Vere.Jets

open Vere.Lib Vere.Hoon

/-- `by_gas`. -/
def byGas (mug : Noun → Nat) (a b : Noun) : Jet Noun :=
  match b with
  | .atom 0 => .ok a
  | .cell (.cell pi qi) t => do byGas mug (← byPut mug a pi qi) t
  | _ => .error .exit

/-- `by_uni`. -/
def byUni (mug : Noun → Nat) : Nat → Noun → Noun → Deep Noun
  | 0, _, _ => spent
  | n + 1, a, b =>
      if a = nul then pure b
      else if b = nul then pure a
      else
        match a, b with
        | .cell (.cell pa qa) (.cell la ra), .cell (.cell pb qb) (.cell lb rb) =>
            if vor mug pa pb then
              if pa = pb then do
                let l ← byUni mug n la lb
                let r ← byUni mug n ra rb
                return trel (.cell pb qb) l r
              else if hor mug pb pa then do
                let l ← byUni mug n la (trel (.cell pb qb) lb nul)
                byUni mug n (trel (.cell pa qa) l ra) rb
              else do
                let r ← byUni mug n ra (trel (.cell pb qb) nul rb)
                byUni mug n (trel (.cell pa qa) la r) lb
            else if pb = pa then do
              let l ← byUni mug n rb ra
              let r ← byUni mug n lb la
              return trel (.cell pb qb) l r
            else if hor mug pa pb then do
              let l ← byUni mug n (trel (.cell pa qa) la nul) lb
              byUni mug n ra (trel (.cell pb qb) l rb)
            else do
              -- `uni:by` has `[n.a ~ r.a]` first
              let r ← byUni mug n rb (trel (.cell pa qa) nul ra)
              byUni mug n la (trel (.cell pb qb) lb r)
        | _, _ => throw .exit

/-- `by_int`. -/
def byInt (mug : Noun → Nat) : Nat → Noun → Noun → Deep Noun
  | 0, _, _ => spent
  | n + 1, a, b =>
      if a = nul then pure nul
      else if b = nul then pure nul
      else
        match a, b with
        | .cell (.cell pa qa) (.cell la ra), .cell (.cell pb qb) (.cell lb rb) =>
            if vor mug pa pb then
              if pa = pb then do
                let l ← byInt mug n la lb
                let r ← byInt mug n ra rb
                return trel (.cell pb qb) l r
              else if hor mug pb pa then do
                let x ← byInt mug n la (trel (.cell pb qb) lb nul)
                let y ← byInt mug n a rb
                byUni mug n x y
              else do
                let x ← byInt mug n ra (trel (.cell pb qb) nul rb)
                let y ← byInt mug n a lb
                byUni mug n x y
            else if pb = pa then do
              let l ← byInt mug n lb la
              let r ← byInt mug n rb ra
              return trel (.cell pb qb) l r
            else if hor mug pa pb then do
              -- `int:by` has `[n.a l.a ~]` and `l.b`, and then `r.a` and `b`
              let x ← byInt mug n lb (trel (.cell pa qa) la nul)
              let y ← byInt mug n a ra
              byUni mug n x y
            else do
              let x ← byInt mug n rb (trel (.cell pa qa) nul ra)
              let y ← byInt mug n a la
              byUni mug n x y
        | _, _ => throw .exit

/-- The noun of a list of pairs. -/
def pairsNoun (l : List (Noun × Noun)) : Noun := listNoun (l.map fun i => .cell i.1 i.2)

theorem byGas_noun (mug : Noun → Nat) (a : Map Noun) (l : List (Noun × Noun)) :
    byGas mug (mapNoun a) (pairsNoun l) = .ok (mapNoun (gas mug a l)) := by
  induction l generalizing a with
  | nil => rfl
  | cons i l ih =>
      have hcons : pairsNoun (i :: l) = .cell (.cell i.1 i.2) (pairsNoun l) := rfl
      rw [hcons, byGas, byPut_noun]
      exact ih (put mug a i.1 i.2)

/-! ### One round of the jets -/

section rounds

variable {mug : Noun → Nat} {c : Map Noun} {ka kb : Noun} {va vb : Noun}
  {la ra lb rb l r x y : Map Noun}

/-- A round of `byUni` on two nodes. -/
theorem byUni_node (n : Nat) :
    byUni mug (n + 1) (mapNoun (.node ka va la ra)) (mapNoun (.node kb vb lb rb)) =
      if vor mug ka kb then
        if ka = kb then do
          let l ← byUni mug n (mapNoun la) (mapNoun lb)
          let r ← byUni mug n (mapNoun ra) (mapNoun rb)
          return trel (.cell kb vb) l r
        else if hor mug kb ka then do
          let l ← byUni mug n (mapNoun la) (mapNoun (.node kb vb lb .nil))
          byUni mug n (trel (.cell ka va) l (mapNoun ra)) (mapNoun rb)
        else do
          let r ← byUni mug n (mapNoun ra) (mapNoun (.node kb vb .nil rb))
          byUni mug n (trel (.cell ka va) (mapNoun la) r) (mapNoun lb)
      else if kb = ka then do
        let l ← byUni mug n (mapNoun rb) (mapNoun ra)
        let r ← byUni mug n (mapNoun lb) (mapNoun la)
        return trel (.cell kb vb) l r
      else if hor mug ka kb then do
        let l ← byUni mug n (mapNoun (.node ka va la .nil)) (mapNoun lb)
        byUni mug n (mapNoun ra) (trel (.cell kb vb) l (mapNoun rb))
      else
        byUni mug n (mapNoun rb) (mapNoun (.node ka va .nil ra)) >>= fun r =>
          byUni mug n (mapNoun la) (trel (.cell kb vb) (mapNoun lb) r) := rfl

/-- A round of `byInt` on two nodes. -/
theorem byInt_node (n : Nat) :
    byInt mug (n + 1) (mapNoun (.node ka va la ra)) (mapNoun (.node kb vb lb rb)) =
      if vor mug ka kb then
        if ka = kb then do
          let l ← byInt mug n (mapNoun la) (mapNoun lb)
          let r ← byInt mug n (mapNoun ra) (mapNoun rb)
          return trel (.cell kb vb) l r
        else if hor mug kb ka then do
          let x ← byInt mug n (mapNoun la) (mapNoun (.node kb vb lb .nil))
          let y ← byInt mug n (mapNoun (.node ka va la ra)) (mapNoun rb)
          byUni mug n x y
        else do
          let x ← byInt mug n (mapNoun ra) (mapNoun (.node kb vb .nil rb))
          let y ← byInt mug n (mapNoun (.node ka va la ra)) (mapNoun lb)
          byUni mug n x y
      else if kb = ka then do
        let l ← byInt mug n (mapNoun lb) (mapNoun la)
        let r ← byInt mug n (mapNoun rb) (mapNoun ra)
        return trel (.cell kb vb) l r
      else if hor mug ka kb then do
        let x ← byInt mug n (mapNoun lb) (mapNoun (.node ka va la .nil))
        let y ← byInt mug n (mapNoun (.node ka va la ra)) (mapNoun ra)
        byUni mug n x y
      else
        byInt mug n (mapNoun rb) (mapNoun (.node ka va .nil ra)) >>= fun x =>
          byInt mug n (mapNoun (.node ka va la ra)) (mapNoun la) >>= fun y => byUni mug n x y := rfl

/-- `byUni` returns the noun of `c`. -/
abbrev Unites (mug : Noun → Nat) (a b c : Map Noun) : Prop :=
  Settles (fun n => byUni mug n (mapNoun a) (mapNoun b)) (pure (mapNoun c))

abbrev Meets (mug : Noun → Nat) (a b c : Map Noun) : Prop :=
  Settles (fun n => byInt mug n (mapNoun a) (mapNoun b)) (pure (mapNoun c))

theorem unites_nilRight (a : Map Noun) : Unites mug a .nil a := by
  refine .call ?_ (.const _)
  intro n
  cases a <;> rfl

theorem unites_nilLeft (b : Map Noun) : Unites mug .nil b b :=
  .call (fun _ => rfl) (.const (pure (mapNoun b)))

theorem unites_same (hl : Unites mug la lb l) (hr : Unites mug ra rb r) :
    Unites mug (.node ka va la ra) (.node ka vb lb rb) (.node ka vb l r) := by
  have hrefl : Hoon.vor mug ka ka = true := ((vor_searchOrder mug).total ka ka).elim id id
  have hstep : ∀ n, byUni mug (n + 1) (mapNoun (.node ka va la ra)) (mapNoun (.node ka vb lb rb))
      = byUni mug n (mapNoun la) (mapNoun lb) >>= fun l =>
          byUni mug n (mapNoun ra) (mapNoun rb) >>= fun r => pure (trel (.cell ka vb) l r) := by
    intro n
    rw [byUni_node, vor_eq, if_pos hrefl, if_pos rfl]
  exact .call hstep (hl.bind (hr.bind (.const _)))

theorem unites_firstLeft (hk : Treap.Below (Hoon.vor mug) ka kb) (hle : Hoon.hor mug kb ka = true)
    (hl : Unites mug la (.node kb vb lb .nil) l) (hc : Unites mug (.node ka va l ra) rb c) :
    Unites mug (.node ka va la ra) (.node kb vb lb rb) c := by
  have hstep : ∀ n, byUni mug (n + 1) (mapNoun (.node ka va la ra)) (mapNoun (.node kb vb lb rb))
      = byUni mug n (mapNoun la) (mapNoun (.node kb vb lb .nil)) >>= fun l =>
          byUni mug n (trel (.cell ka va) l (mapNoun ra)) (mapNoun rb) := by
    intro n
    rw [byUni_node, vor_eq, if_pos hk.1, if_neg hk.2, hor_eq, if_pos hle]
  exact .call hstep (hl.bind hc)

theorem unites_firstRight (hk : Treap.Below (Hoon.vor mug) ka kb) (hle : Hoon.hor mug kb ka = false)
    (hr : Unites mug ra (.node kb vb .nil rb) r) (hc : Unites mug (.node ka va la r) lb c) :
    Unites mug (.node ka va la ra) (.node kb vb lb rb) c := by
  have hstep : ∀ n, byUni mug (n + 1) (mapNoun (.node ka va la ra)) (mapNoun (.node kb vb lb rb))
      = byUni mug n (mapNoun ra) (mapNoun (.node kb vb .nil rb)) >>= fun r =>
          byUni mug n (trel (.cell ka va) (mapNoun la) r) (mapNoun lb) := by
    intro n
    rw [byUni_node, vor_eq, if_pos hk.1, if_neg hk.2, hor_eq, hle, if_neg Bool.false_ne_true]
  exact .call hstep (hr.bind hc)

theorem unites_secondLeft (hk : Treap.Below (Hoon.vor mug) kb ka) (hle : Hoon.hor mug ka kb = true)
    (hl : Unites mug (.node ka va la .nil) lb l) (hc : Unites mug ra (.node kb vb l rb) c) :
    Unites mug (.node ka va la ra) (.node kb vb lb rb) c := by
  have hno := hk.not_le (vor_searchOrder mug)
  have hstep : ∀ n, byUni mug (n + 1) (mapNoun (.node ka va la ra)) (mapNoun (.node kb vb lb rb))
      = byUni mug n (mapNoun (.node ka va la .nil)) (mapNoun lb) >>= fun l =>
          byUni mug n (mapNoun ra) (trel (.cell kb vb) l (mapNoun rb)) := by
    intro n
    rw [byUni_node, vor_eq, hno, if_neg Bool.false_ne_true, if_neg hk.2, hor_eq, if_pos hle]
  exact .call hstep (hl.bind hc)

/-- The branch that has its inner call the wrong way round. -/
theorem unites_secondRight (hk : Treap.Below (Hoon.vor mug) kb ka)
    (hle : Hoon.hor mug ka kb = false) (hr : Unites mug rb (.node ka va .nil ra) r)
    (hc : Unites mug la (.node kb vb lb r) c) :
    Unites mug (.node ka va la ra) (.node kb vb lb rb) c := by
  have hno := hk.not_le (vor_searchOrder mug)
  have hstep : ∀ n, byUni mug (n + 1) (mapNoun (.node ka va la ra)) (mapNoun (.node kb vb lb rb))
      = byUni mug n (mapNoun rb) (mapNoun (.node ka va .nil ra)) >>= fun r =>
          byUni mug n (mapNoun la) (trel (.cell kb vb) (mapNoun lb) r) := by
    intro n
    rw [byUni_node, vor_eq, hno, if_neg Bool.false_ne_true, if_neg hk.2, hor_eq, hle, if_neg Bool.false_ne_true]
  exact .call hstep (hr.bind hc)

theorem meets_nilRight (a : Map Noun) : Meets mug a .nil .nil := by
  refine .call ?_ (.const _)
  intro n
  cases a <;> rfl

theorem meets_nilLeft (b : Map Noun) : Meets mug .nil b .nil :=
  .call (fun _ => rfl) (.const (pure nul))

theorem meets_same (hl : Meets mug la lb l) (hr : Meets mug ra rb r) :
    Meets mug (.node ka va la ra) (.node ka vb lb rb) (.node ka vb l r) := by
  have hrefl : Hoon.vor mug ka ka = true := ((vor_searchOrder mug).total ka ka).elim id id
  have hstep : ∀ n, byInt mug (n + 1) (mapNoun (.node ka va la ra)) (mapNoun (.node ka vb lb rb))
      = byInt mug n (mapNoun la) (mapNoun lb) >>= fun l =>
          byInt mug n (mapNoun ra) (mapNoun rb) >>= fun r => pure (trel (.cell ka vb) l r) := by
    intro n
    rw [byInt_node, vor_eq, if_pos hrefl, if_pos rfl]
  exact .call hstep (hl.bind (hr.bind (.const _)))

theorem meets_firstLeft (hk : Treap.Below (Hoon.vor mug) ka kb) (hle : Hoon.hor mug kb ka = true)
    (hx : Meets mug la (.node kb vb lb .nil) x) (hy : Meets mug (.node ka va la ra) rb y)
    (hc : Unites mug x y c) : Meets mug (.node ka va la ra) (.node kb vb lb rb) c := by
  have hstep : ∀ n, byInt mug (n + 1) (mapNoun (.node ka va la ra)) (mapNoun (.node kb vb lb rb))
      = byInt mug n (mapNoun la) (mapNoun (.node kb vb lb .nil)) >>= fun x =>
          byInt mug n (mapNoun (.node ka va la ra)) (mapNoun rb) >>= fun y => byUni mug n x y := by
    intro n
    rw [byInt_node, vor_eq, if_pos hk.1, if_neg hk.2, hor_eq, if_pos hle]
  exact .call hstep (hx.bind (hy.bind hc))

theorem meets_firstRight (hk : Treap.Below (Hoon.vor mug) ka kb) (hle : Hoon.hor mug kb ka = false)
    (hx : Meets mug ra (.node kb vb .nil rb) x) (hy : Meets mug (.node ka va la ra) lb y)
    (hc : Unites mug x y c) : Meets mug (.node ka va la ra) (.node kb vb lb rb) c := by
  have hstep : ∀ n, byInt mug (n + 1) (mapNoun (.node ka va la ra)) (mapNoun (.node kb vb lb rb))
      = byInt mug n (mapNoun ra) (mapNoun (.node kb vb .nil rb)) >>= fun x =>
          byInt mug n (mapNoun (.node ka va la ra)) (mapNoun lb) >>= fun y => byUni mug n x y := by
    intro n
    rw [byInt_node, vor_eq, if_pos hk.1, if_neg hk.2, hor_eq, hle, if_neg Bool.false_ne_true]
  exact .call hstep (hx.bind (hy.bind hc))

end rounds

/-! ### Where the jets are right -/

section right

variable {mug : Noun → Nat} {a b c : Map Noun}

/-- `by_uni` is right on maps without a common key, whichever comes first. -/
theorem unites_of_disjoint (h : Treap.Union (Hoon.hor mug) (Hoon.vor mug) a b c)
    (ha : Treap.Canon (Hoon.hor mug) (Hoon.vor mug) a)
    (hb : Treap.Canon (Hoon.hor mug) (Hoon.vor mug) b) (hd : Treap.Disjoint a b) :
    Unites mug a b c ∧ Unites mug b a c := by
  have ho := hor_searchOrder mug
  have hoh := vor_searchOrder mug
  induction h with
  | nilRight a => exact ⟨unites_nilRight a, unites_nilLeft a⟩
  | nilLeft b => exact ⟨unites_nilLeft b, unites_nilRight b⟩
  | same _ _ _ _ =>
      exact absurd (Treap.has_root _ _ _ _) (hd _ (Treap.has_root _ _ _ _))
  | @firstLeft ka va la ra kb vb lb rb l c hk hle hu _ ihl ihc =>
      have hlt : Treap.Below (Hoon.hor mug) kb ka := ⟨hle, hk.2.symm⟩
      have hnew := Treap.Union.canon_firstLeft ho hoh ha hb hk hlt hu
        (hu.spec ho hoh ha.left hb.upToRoot).1
      obtain ⟨hl1, hl2⟩ := ihl ha.left hb.upToRoot
        (hd.mono (fun _ => Treap.has_left) fun _ => Treap.has_of_upToRoot)
      obtain ⟨hc1, hc2⟩ := ihc hnew hb.right (hd.grown_right ho hb (Treap.Union.has_firstLeft hu))
      exact ⟨unites_firstLeft hk hle hl1 hc1, unites_secondLeft hk hle hl2 hc2⟩
  | @firstRight ka va la ra kb vb lb rb r c hk hle hu _ ihr ihc =>
      have hlt : Treap.Below (Hoon.hor mug) ka kb := Treap.below_of_not_le ho hk.2.symm hle
      have hnew := Treap.Union.canon_firstRight ho hoh ha hb hk hlt hu
        (hu.spec ho hoh ha.right hb.fromRoot).1
      obtain ⟨hr1, -⟩ := ihr ha.right hb.fromRoot
        (hd.mono (fun _ => Treap.has_right) fun _ => Treap.has_of_fromRoot)
      obtain ⟨hc1, hc2⟩ := ihc hnew hb.left (hd.grown_left ho hb (Treap.Union.has_firstRight hu))
      exact ⟨unites_firstRight hk hle hr1 hc1, unites_secondRight hk hle hr1 hc2⟩
  | @secondLeft ka va la ra kb vb lb rb l c hk hle hu _ ihl ihc =>
      have hlt : Treap.Below (Hoon.hor mug) ka kb := ⟨hle, hk.2.symm⟩
      have hnew := Treap.Union.canon_secondLeft ho hoh ha hb hk hlt hu
        (hu.spec ho hoh ha.upToRoot hb.left).1
      obtain ⟨hl1, hl2⟩ := ihl ha.upToRoot hb.left
        (hd.mono (fun _ => Treap.has_of_upToRoot) fun _ => Treap.has_left)
      obtain ⟨hc1, hc2⟩ := ihc ha.right hnew
        (hd.symm.grown_right ho ha (Treap.Union.has_secondLeft hu)).symm
      exact ⟨unites_secondLeft hk hle hl1 hc1, unites_firstLeft hk hle hl2 hc2⟩
  | @secondRight ka va la ra kb vb lb rb r c hk hle hu _ ihr ihc =>
      have hlt : Treap.Below (Hoon.hor mug) kb ka := Treap.below_of_not_le ho hk.2.symm hle
      have hnew := Treap.Union.canon_secondRight ho hoh ha hb hk hlt hu
        (hu.spec ho hoh ha.fromRoot hb.right).1
      obtain ⟨-, hr2⟩ := ihr ha.fromRoot hb.right
        (hd.mono (fun _ => Treap.has_of_fromRoot) fun _ => Treap.has_right)
      obtain ⟨hc1, hc2⟩ := ihc ha.left hnew
        (hd.symm.grown_left ho ha (Treap.Union.has_secondRight hu)).symm
      exact ⟨unites_secondRight hk hle hr2 hc1, unites_firstRight hk hle hr2 hc2⟩

/-- `by_uni` is right where the second map sinks into the first. -/
theorem unites_of_beneath (h : Treap.Union (Hoon.hor mug) (Hoon.vor mug) a b c)
    (ha : Treap.Canon (Hoon.hor mug) (Hoon.vor mug) a)
    (hb : Treap.Canon (Hoon.hor mug) (Hoon.vor mug) b)
    (hn : Treap.Beneath (Hoon.hor mug) (Hoon.vor mug) a b) : Unites mug a b c := by
  have ho := hor_searchOrder mug
  have hoh := vor_searchOrder mug
  induction h with
  | nilRight a => exact unites_nilRight a
  | nilLeft b => exact unites_nilLeft b
  | same _ _ ihl ihr =>
      obtain ⟨hl, hr⟩ := hn.same ho ha hb
      exact unites_same (ihl ha.left hb.left hl) (ihr ha.right hb.right hr)
  | @firstLeft ka va la ra kb vb lb rb l c hk hle hu _ ihl ihc =>
      have hlt : Treap.Below (Hoon.hor mug) kb ka := ⟨hle, hk.2.symm⟩
      have hnew := Treap.Union.canon_firstLeft ho hoh ha hb hk hlt hu
        (hu.spec ho hoh ha.left hb.upToRoot).1
      exact unites_firstLeft hk hle (ihl ha.left hb.upToRoot (hn.leftHalf ho ha hb hlt))
        (ihc hnew hb.right (hn.rest_right hoh hb (Treap.Union.has_firstLeft hu)))
  | @firstRight ka va la ra kb vb lb rb r c hk hle hu _ ihr ihc =>
      have hlt : Treap.Below (Hoon.hor mug) ka kb := Treap.below_of_not_le ho hk.2.symm hle
      have hnew := Treap.Union.canon_firstRight ho hoh ha hb hk hlt hu
        (hu.spec ho hoh ha.right hb.fromRoot).1
      exact unites_firstRight hk hle (ihr ha.right hb.fromRoot (hn.rightHalf ho ha hb hlt))
        (ihc hnew hb.left (hn.rest_left hoh hb (Treap.Union.has_firstRight hu)))
  | secondLeft hk _ _ _ _ _ => exact absurd hn (Treap.Strays.here hk |>.not_beneath ho hoh ha hb)
  | secondRight hk _ _ _ _ _ => exact absurd hn (Treap.Strays.here hk |>.not_beneath ho hoh ha hb)

/-- The two parts of an intersection have no key in common. -/
theorem disjoint_parts {a' b₁ b₂ x y : Map Noun} (hx : Treap.Inter.Common a b₁ x)
    (hy : Treap.Inter.Common a' b₂ y) (hd : Treap.Disjoint b₁ b₂) : Treap.Disjoint x y :=
  hd.mono (fun k hk => ((hx.has k).mp hk).1) fun k hk => ((hy.has k).mp hk).1

/-- `by_int` is right there too. -/
theorem meets_of_beneath (h : Treap.Inter (Hoon.hor mug) (Hoon.vor mug) a b c)
    (ha : Treap.Canon (Hoon.hor mug) (Hoon.vor mug) a)
    (hb : Treap.Canon (Hoon.hor mug) (Hoon.vor mug) b)
    (hn : Treap.Beneath (Hoon.hor mug) (Hoon.vor mug) a b) : Meets mug a b c := by
  have ho := hor_searchOrder mug
  have hoh := vor_searchOrder mug
  induction h with
  | nilRight a => exact meets_nilRight a
  | nilLeft b => exact meets_nilLeft b
  | same _ _ ihl ihr =>
      obtain ⟨hl, hr⟩ := hn.same ho ha hb
      exact meets_same (ihl ha.left hb.left hl) (ihr ha.right hb.right hr)
  | @firstLeft ka va la ra kb vb lb rb x y c hk hle hx hy hu ihx ihy =>
      have hlt : Treap.Below (Hoon.hor mug) kb ka := ⟨hle, hk.2.symm⟩
      obtain ⟨cx, jx⟩ := hx.spec ho hoh ha.left hb.upToRoot
      obtain ⟨cy, jy⟩ := hy.spec ho hoh ha hb.right
      have hparts : Treap.Disjoint (.node kb vb lb .nil) rb :=
        Treap.Disjoint.grown_right ho (a := .nil) (fun k hk => absurd hk (Treap.has_nil k)) hb
          fun k => by simp
      have hunion := (unites_of_disjoint hu cx cy (disjoint_parts jx jy hparts)).1
      exact meets_firstLeft hk hle (ihx ha.left hb.upToRoot (hn.leftHalf ho ha hb hlt))
        (ihy ha hb.right (hn.mono fun _ => Treap.has_right)) hunion
  | @firstRight ka va la ra kb vb lb rb x y c hk hle hx hy hu ihx ihy =>
      have hlt : Treap.Below (Hoon.hor mug) ka kb := Treap.below_of_not_le ho hk.2.symm hle
      obtain ⟨cx, jx⟩ := hx.spec ho hoh ha.right hb.fromRoot
      obtain ⟨cy, jy⟩ := hy.spec ho hoh ha hb.left
      have hparts : Treap.Disjoint (.node kb vb .nil rb) lb :=
        Treap.Disjoint.grown_left ho (a := .nil) (fun k hk => absurd hk (Treap.has_nil k)) hb
          fun k => by simp
      have hunion := (unites_of_disjoint hu cx cy (disjoint_parts jx jy hparts)).1
      exact meets_firstRight hk hle (ihx ha.right hb.fromRoot (hn.rightHalf ho ha hb hlt))
        (ihy ha hb.left (hn.mono fun _ => Treap.has_left)) hunion
  | secondLeft hk _ _ _ _ _ _ => exact absurd hn (Treap.Strays.here hk |>.not_beneath ho hoh ha hb)
  | secondRight hk _ _ _ _ _ _ =>
      exact absurd hn (Treap.Strays.here hk |>.not_beneath ho hoh ha hb)

end right

/-! ### Maps with atoms for keys -/

/-- An atom. -/
def IsAtom (n : Noun) : Prop := ∃ a, n = .atom a

theorem agree_hor : Treap.AgreeOn IsAtom (Hoon.gor Hoon.mug) (Hoon.hor Hoon.mug) := by
  rintro _ _ ⟨x, rfl⟩ ⟨y, rfl⟩
  rfl

theorem agree_hor_jet : Treap.AgreeOn IsAtom (Hoon.gor Hoon.mug) (Hoon.hor u2Mug) := by
  rintro _ _ ⟨x, rfl⟩ ⟨y, rfl⟩
  rw [Hoon.hor, Hoon.gor, Hoon.gor, keyOrder, keyOrder, u2Mug_atom_eq, u2Mug_atom_eq]

theorem agree_vor_jet : Treap.AgreeOn IsAtom (Hoon.vor Hoon.mug) (Hoon.vor u2Mug) := by
  rintro _ _ ⟨x, rfl⟩ ⟨y, rfl⟩
  simp only [Hoon.vor, keyOrder, u2Mug_atom_eq]

/-- The jets and the arms return the same two maps. -/
def SameMaps (a b : Map Noun) : Prop :=
  (∃ c, Settles (fun n => uni Hoon.mug n a b) (some c) ∧ Unites u2Mug a b c) ∧
    ∃ c, Settles (fun n => int Hoon.mug n a b) (some c) ∧ Meets u2Mug a b c

theorem sameMaps_of_beneath {a b : Map Noun}
    (ha : Treap.Canon (Hoon.gor Hoon.mug) (Hoon.vor Hoon.mug) a)
    (hb : Treap.Canon (Hoon.gor Hoon.mug) (Hoon.vor Hoon.mug) b) (ka : Treap.AllKeys IsAtom a)
    (kb : Treap.AllKeys IsAtom b)
    (hn : Treap.Beneath (Hoon.gor Hoon.mug) (Hoon.vor Hoon.mug) a b) : SameMaps a b := by
  have hg := gor_searchOrder Hoon.mug
  have hv := vor_searchOrder Hoon.mug
  have hvv : Treap.AgreeOn IsAtom (Hoon.vor Hoon.mug) (Hoon.vor Hoon.mug) := fun _ _ _ _ => rfl
  have ha' := ha.congr agree_hor_jet agree_vor_jet ka
  have hb' := hb.congr agree_hor_jet agree_vor_jet kb
  have hn' := hn.congr agree_hor_jet agree_vor_jet ka kb
  obtain ⟨c, hc⟩ := Treap.exists_union hg hv a b ha hb
  obtain ⟨d, hd⟩ := Treap.exists_inter hg hv a b ha hb
  refine ⟨⟨c, splitUni_settles hv (hc.congr agree_hor hvv ka kb), ?_⟩,
    ⟨d, splitInt_settles hv (hd.congr agree_hor hvv ka kb), ?_⟩⟩
  · exact unites_of_beneath (hc.congr agree_hor_jet agree_vor_jet ka kb) ha' hb' hn'
  · exact meets_of_beneath (hd.congr agree_hor_jet agree_vor_jet ka kb) ha' hb' hn'

/-- On maps with atoms for keys, `by_uni` and `by_int` return what the arms return if the
second map sinks into the first: if a key of `a` that comes before all the keys of `a`
between it and a key of `b` comes before that key too. This is so just if no round of the
intersection has a second root that comes first, which are the rounds the wrong branches
are for. -/
theorem map_jets_sink (a b : List (Noun × Noun)) (ha : ∀ i ∈ a, IsAtom i.1)
    (hb : ∀ i ∈ b, IsAtom i.1) :
    (Treap.Beneath (Hoon.gor Hoon.mug) (Hoon.vor Hoon.mug) (gas Hoon.mug .nil a)
        (gas Hoon.mug .nil b) →
      SameMaps (gas Hoon.mug .nil a) (gas Hoon.mug .nil b)) ∧
    (Treap.Beneath (Hoon.gor Hoon.mug) (Hoon.vor Hoon.mug) (gas Hoon.mug .nil a)
        (gas Hoon.mug .nil b) ↔
      ¬Treap.Strays (Hoon.gor Hoon.mug) (Hoon.vor Hoon.mug) (gas Hoon.mug .nil a)
        (gas Hoon.mug .nil b)) := by
  have hg := gor_searchOrder Hoon.mug
  have hv := vor_searchOrder Hoon.mug
  have hnil : Treap.AllKeys IsAtom (.nil : Map Noun) := trivial
  have ca : Treap.Canon (Hoon.gor Hoon.mug) (Hoon.vor Hoon.mug) (gas Hoon.mug .nil a) :=
    canon_gas Treap.canon_nil a
  have cb : Treap.Canon (Hoon.gor Hoon.mug) (Hoon.vor Hoon.mug) (gas Hoon.mug .nil b) :=
    canon_gas Treap.canon_nil b
  refine ⟨?_, ?_, ?_⟩
  · exact fun hn => sameMaps_of_beneath ca cb (allKeys_gas hnil ha) (allKeys_gas hnil hb) hn
  · exact fun hn hs => hs.not_beneath hg hv ca cb hn
  · exact Treap.beneath_of_not_strays hg hv _ _ ca cb

/-- Zero comes before one by both orders. -/
theorem zero_before_one :
    Treap.Below (Hoon.vor Hoon.mug) (.atom 0) (.atom 1) ∧
      Hoon.gor Hoon.mug (.atom 1) (.atom 0) = false := by
  have hzz : Hoon.mug (.atom 18652612) = 83379353 := by
    rw [Hoon.mug_atom]
    decide
  have hoo : Hoon.mug (.atom 67918732) = 991546673 := by
    rw [Hoon.mug_atom]
    decide
  refine ⟨⟨?_, by decide⟩, ?_⟩
  · simp only [Hoon.vor, keyOrder, mug_zero, mug_one, hzz, hoo]
    decide
  · simp only [Hoon.gor, keyOrder, mug_zero, mug_one]
    decide

/-- The map of `1` sinks into the map of `0`. -/
theorem map_jets_sink_pair :
    SameMaps (gas Hoon.mug .nil [(.atom 0, .atom 5)]) (gas Hoon.mug .nil [(.atom 1, .atom 7)]) := by
  refine (map_jets_sink [(.atom 0, .atom 5)] [(.atom 1, .atom 7)] ?_ ?_).1 ?_
  · exact fun i hi => ⟨0, by simp at hi; rw [hi]⟩
  · exact fun i hi => ⟨1, by simp at hi; rw [hi]⟩
  · intro i j hi hj _
    have hi' : i = .atom 0 := by simpa [gas, Hoon.put, Treap.insert] using hi
    have hj' : j = .atom 1 := by simpa [gas, Hoon.put, Treap.insert] using hj
    rw [hi', hj']
    exact zero_before_one.1.1

/-- With `1` for a key of both maps and `0` one of the second, the jets keep the value of
the first map: `uni:by` and `int:by` give `1` the value `7`, `by_uni` and `by_int` give it
the value `5`. -/
theorem map_jets_stray :
    ∃ c d, Settles
        (fun n => uni Hoon.mug n (gas Hoon.mug .nil [(.atom 1, Noun.atom 5)])
          (gas Hoon.mug .nil [(.atom 0, Noun.atom 6), (.atom 1, Noun.atom 7)])) (some c) ∧
      Unites u2Mug (gas Hoon.mug .nil [(.atom 1, Noun.atom 5)])
        (gas Hoon.mug .nil [(.atom 0, Noun.atom 6), (.atom 1, Noun.atom 7)]) d ∧
      get Hoon.mug c (.atom 1) = some (Noun.atom 7) ∧ get Hoon.mug d (.atom 1) = some (Noun.atom 5) ∧
      ¬SameMaps (gas Hoon.mug .nil [(.atom 1, Noun.atom 5)])
        (gas Hoon.mug .nil [(.atom 0, Noun.atom 6), (.atom 1, Noun.atom 7)]) := by
  have hv := vor_searchOrder Hoon.mug
  obtain ⟨hvor, hgor⟩ := zero_before_one
  have hmap : gas Hoon.mug .nil [(.atom 0, Noun.atom 6), (.atom 1, Noun.atom 7)]
      = .node (.atom 0) (Noun.atom 6) .nil (.node (.atom 1) (Noun.atom 7) .nil .nil) := by
    simp [gas, Hoon.put, Treap.insert, Treap.linkRight, hgor, hvor.1]
  have hvor' : Treap.Below (Hoon.vor u2Mug) (.atom 0) (.atom 1) := by
    rw [Treap.Below, ← agree_vor_jet _ _ ⟨0, rfl⟩ ⟨1, rfl⟩]
    exact hvor
  have hgor' : Hoon.hor u2Mug (.atom 1) (.atom 0) = false := by
    rw [← agree_hor_jet _ _ ⟨1, rfl⟩ ⟨0, rfl⟩]
    exact hgor
  have harm : Treap.Union (Hoon.hor Hoon.mug) (Hoon.vor Hoon.mug)
      (.node (.atom 1) (Noun.atom 5) .nil .nil)
      (.node (.atom 0) (Noun.atom 6) .nil (.node (.atom 1) (Noun.atom 7) .nil .nil))
      (.node (.atom 0) (Noun.atom 6) .nil (.node (.atom 1) (Noun.atom 7) .nil .nil)) :=
    .secondRight hvor hgor (.same (.nilLeft _) (.nilLeft _)) (.nilLeft _)
  have hjet : Unites u2Mug (.node (.atom 1) (Noun.atom 5) .nil .nil)
      (.node (.atom 0) (Noun.atom 6) .nil (.node (.atom 1) (Noun.atom 7) .nil .nil))
      (.node (.atom 0) (Noun.atom 6) .nil (.node (.atom 1) (Noun.atom 5) .nil .nil)) :=
    unites_secondRight hvor' hgor'
      (unites_same (unites_nilLeft .nil) (unites_nilLeft .nil)) (unites_nilLeft _)
  have huni := splitUni_settles hv harm
  rw [hmap]
  refine ⟨_, _, huni, hjet, ?_, ?_, ?_⟩
  · simp [Hoon.get, Treap.lookup, hgor]
  · simp [Hoon.get, Treap.lookup, hgor]
  · rintro ⟨⟨c, hc, hj⟩, -⟩
    have hnoun := Except.ok.inj (Option.some.inj (hj.unique hjet))
    rw [Option.some.inj (hc.unique huni)] at hnoun
    exact absurd hnoun (by decide)

end Vere.Jets
