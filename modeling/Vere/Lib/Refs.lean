import Mathlib.Algebra.Order.BigOperators.Group.Finset
import Mathlib.Data.Finset.Lattice.Fold
import Mathlib.Tactic.Common

/-!
# Vere.Lib.Refs

References in a graph: those that are held from outside, and those of the nodes that live.

A node that is let go takes its own references with it, which then are held in its place
(`refs_erase`), and a node that is made takes over what was held (`refs_insert`). If every node
that lives is referred to and the references go round in no circle, every node is reached from
what is held: there is no garbage (`rooted_of_refs`).
-/

namespace Vere.Lib

variable {ν : Type} [DecidableEq ν] {kids kids' : ν → List ν} {live : Finset ν} {held : List ν}
  {d s : ν}

/-- How many references there are to a node. -/
def refs (kids : ν → List ν) (live : Finset ν) (held : List ν) (d : ν) : Nat :=
  held.count d + ∑ e ∈ live, (kids e).count d

theorem refs_congr (h : ∀ e ∈ live, kids' e = kids e) (held : List ν) (d : ν) :
    refs kids' live held d = refs kids live held d := by
  rw [refs, refs, Finset.sum_congr rfl fun e he => by rw [h e he]]

theorem refs_cons_self (kids : ν → List ν) (live : Finset ν) (held : List ν) (d : ν) :
    refs kids live (d :: held) d = refs kids live held d + 1 := by
  rw [refs, refs, List.count_cons_self]
  omega

theorem refs_cons_ne (h : s ≠ d) (kids : ν → List ν) (live : Finset ν) (held : List ν) :
    refs kids live (s :: held) d = refs kids live held d := by
  rw [refs, refs, List.count_cons_of_ne h]

/-- A node that is let go leaves its references. -/
theorem refs_erase (hs : s ∈ live) (held : List ν) (d : ν) :
    refs kids (live.erase s) (kids s ++ held) d = refs kids live held d := by
  rw [refs, refs, List.count_append, ← Finset.add_sum_erase live (fun e => (kids e).count d) hs]
  omega

/-- A node that is made takes references over. -/
theorem refs_insert (hs : s ∉ live) (held : List ν) (d : ν) :
    refs kids (insert s live) held d = refs kids live (kids s ++ held) d := by
  rw [refs, refs, List.count_append, Finset.sum_insert hs]
  omega

theorem refs_pos : 0 < refs kids live held d ↔ d ∈ held ∨ ∃ e ∈ live, d ∈ kids e := by
  rw [refs, Nat.add_pos_iff_pos_or_pos, List.count_pos_iff, Finset.sum_pos_iff]
  simp only [List.count_pos_iff]

/-- What references lead to. -/
inductive Rooted (kids : ν → List ν) (root : ν → Prop) : ν → Prop
  | root {d : ν} (h : root d) : Rooted kids root d
  | kid {e d : ν} (he : Rooted kids root e) (h : d ∈ kids e) : Rooted kids root d

omit [DecidableEq ν] in
/-- What is reached from inside a set that is closed is inside it. -/
theorem Rooted.mem {P root : ν → Prop} (hroot : ∀ d, root d → P d)
    (hkid : ∀ e, P e → ∀ d ∈ kids e, P d) (h : Rooted kids root d) : P d := by
  induction h with
  | root h => exact hroot _ h
  | kid _ h ih => exact hkid _ ih _ h

/-- Where everything is referred to and nothing is its own descendant, everything is reached. -/
theorem rooted_of_refs {root : ν → Prop} (rank : ν → Nat)
    (hrank : ∀ e ∈ live, ∀ d ∈ kids e, d ∈ live → rank d < rank e)
    (hroot : ∀ d ∈ held, root d) (hrefs : ∀ d ∈ live, 0 < refs kids live held d ∨ root d)
    (hd : d ∈ live) : Rooted kids root d := by
  induction hn : live.sup rank - rank d using Nat.strongRecOn generalizing d with
  | ind n ih =>
      rcases hrefs d hd with hpos | hr
      · rcases refs_pos.1 hpos with hheld | ⟨e, he, hkid⟩
        · exact .root (hroot d hheld)
        · have hlt := hrank e he d hkid hd
          have hle : rank e ≤ live.sup rank := Finset.le_sup he
          exact .kid (ih _ (by omega) he rfl) hkid
      · exact .root hr

end Vere.Lib
