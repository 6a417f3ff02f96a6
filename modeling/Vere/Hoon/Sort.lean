import Mathlib.Data.List.Perm.Basic
import Mathlib.Data.List.Pairwise

/-!
# Vere.Hoon.Sort

`++sort` (`hoon.hoon`, section 2bB): quicksort around the head of the list.

The comparison may be a total preorder or a strict one. Of the order only transitivity is
needed for the list to come out sorted (`sort_ordered`). A strict comparison sends what is
equivalent to the pivot to its right, where it was, so that the sort is stable
(`sort_stable`); one that is not strict sends it to the left.
-/

namespace Vere.Hoon

variable {α : Type}

/-- `++skim`: only. -/
def skim (b : α → Bool) : List α → List α
  | [] => []
  | i :: t => if b i then i :: skim b t else skim b t

theorem skim_eq (b : α → Bool) (a : List α) : skim b a = a.filter b := by
  induction a with
  | nil => rfl
  | cons i t ih => rw [skim, List.filter_cons, ih]

/-- `++sort`: quicksort. -/
def sort (b : α → α → Bool) : List α → List α
  | [] => []
  | i :: t => sort b (skim (fun c => b c i) t) ++ i :: sort b (skim (fun c => !b c i) t)
termination_by a => a.length
decreasing_by
  all_goals
    rw [skim_eq]
    exact Nat.lt_succ_of_le (List.length_filter_le _ t)

theorem sort_nil (b : α → α → Bool) : sort b [] = [] := by
  rw [sort]

theorem sort_cons (b : α → α → Bool) (i : α) (t : List α) :
    sort b (i :: t) = sort b (t.filter fun c => b c i) ++ i :: sort b (t.filter fun c => !b c i) := by
  rw [sort, skim_eq, skim_eq]

/-- What holds of a list if it holds of both parts of its tail. -/
theorem sort_induct (b : α → α → Bool) {P : List α → Prop} (hnil : P [])
    (hcons : ∀ i t, P (t.filter fun c => b c i) → P (t.filter fun c => !b c i) → P (i :: t))
    (a : List α) : P a := by
  induction a using sort.induct b with
  | case1 => exact hnil
  | case2 i t ihl ihr =>
      rw [skim_eq] at ihl ihr
      exact hcons i t ihl ihr

/-- A total preorder, as a comparison. -/
structure TotalPreorder (b : α → α → Bool) : Prop where
  total : ∀ x y, b x y ∨ b y x
  trans : ∀ x y z, b x y → b y z → b x z

/-- The strict part of a total preorder, as a comparison. -/
structure StrictPreorder (b : α → α → Bool) : Prop where
  asymm : ∀ x y, b x y → ¬b y x
  split : ∀ x y z, b x z → b x y ∨ b y z

/-- `x` strictly precedes `y`. -/
def Precedes (b : α → α → Bool) (x y : α) : Prop := b x y ∧ ¬b y x

/-- Neither of two elements precedes the other under a strict comparison. -/
def same (b : α → α → Bool) (x y : α) : Bool := !b x y && !b y x

/-- No element strictly precedes an earlier one. -/
def Ordered (b : α → α → Bool) (a : List α) : Prop := a.Pairwise fun x y => ¬Precedes b y x

section sort

variable {b : α → α → Bool}

theorem StrictPreorder.trans (h : StrictPreorder b) (x y z : α) (hxy : b x y) (hyz : b y z) :
    b x z := by
  rcases h.split x z y hxy with hxz | hzy
  · exact hxz
  · exact absurd hzy (h.asymm y z hyz)

theorem sort_perm (b : α → α → Bool) (a : List α) : (sort b a).Perm a := by
  induction a using sort_induct b with
  | hnil => rw [sort_nil]
  | hcons i t hl hr =>
      rw [sort_cons]
      exact List.perm_middle.trans (((hl.append hr).trans (List.filter_append_perm _ t)).cons i)

theorem mem_sort {a : List α} {x : α} : x ∈ sort b a ↔ x ∈ a := (sort_perm b a).mem_iff

/-- Sorting needs no more of the comparison than that it is transitive. -/
theorem sort_ordered (htrans : ∀ x y z, b x y → b y z → b x z) (a : List α) :
    Ordered b (sort b a) := by
  induction a using sort_induct b with
  | hnil =>
      rw [sort_nil]
      exact List.Pairwise.nil
  | hcons i t hl hr =>
      rw [sort_cons]
      have hleft : ∀ x ∈ sort b (t.filter fun c => b c i), b x i := fun x hx => by
        simpa using (List.mem_filter.mp (mem_sort.mp hx)).2
      have hright : ∀ y ∈ sort b (t.filter fun c => !b c i), ¬b y i := fun y hy => by
        simpa using (List.mem_filter.mp (mem_sort.mp hy)).2
      refine List.pairwise_append.mpr ⟨hl, List.pairwise_cons.mpr ⟨?_, hr⟩, ?_⟩
      · exact fun y hy hprec => hright y hy hprec.1
      · intro x hx y hy hprec
        rcases List.mem_cons.mp hy with rfl | hy
        · exact hprec.2 (hleft x hx)
        · exact hright y hy (htrans y x i hprec.1 (hleft x hx))

/-- What is equivalent to an element stands on the same side of a pivot that is not. -/
theorem StrictPreorder.same_side (h : StrictPreorder b) {x y i : α} (hxy : same b x y) :
    b y i = b x i := by
  simp only [same, Bool.and_eq_true, Bool.not_eq_true'] at hxy
  rw [Bool.eq_iff_iff]
  constructor
  · intro hyi
    rcases h.split y x i hyi with hyx | hxi
    · simp [hxy.2] at hyx
    · exact hxi
  · intro hxi
    rcases h.split x y i hxi with hxy' | hyi
    · simp [hxy.1] at hxy'
    · exact hyi

/-- Under a strict comparison, equivalent elements keep their order. -/
theorem sort_stable (h : StrictPreorder b) (x : α) (a : List α) :
    (sort b a).filter (same b x) = a.filter (same b x) := by
  induction a using sort_induct b with
  | hnil => rw [sort_nil]
  | hcons i t hl hr =>
      rw [sort_cons, List.filter_append, List.filter_cons, hl, hr, List.filter_filter,
        List.filter_filter, List.filter_cons]
      -- all that is equivalent to `x` stands on the side of `x`
      by_cases hxi : b x i
      · have hleft : (t.filter fun c => same b x c && b c i) = t.filter (same b x) :=
          List.filter_congr fun c _ => by
            by_cases hc : same b x c = true
            · rw [hc, h.same_side hc, hxi]
              rfl
            · simp [hc]
        have hright : (t.filter fun c => same b x c && !b c i) = [] := by
          refine List.filter_eq_nil_iff.mpr fun c _ hc => ?_
          rw [Bool.and_eq_true] at hc
          rw [h.same_side hc.1, hxi] at hc
          exact absurd hc.2 (by decide)
        have hout : same b x i = false := by simp [same, hxi]
        simp [hleft, hright, hout]
      · have hleft : (t.filter fun c => same b x c && b c i) = [] := by
          refine List.filter_eq_nil_iff.mpr fun c _ hc => ?_
          rw [Bool.and_eq_true] at hc
          rw [h.same_side hc.1] at hc
          exact hxi hc.2
        have hright : (t.filter fun c => same b x c && !b c i) = t.filter (same b x) :=
          List.filter_congr fun c _ => by
            by_cases hc : same b x c = true
            · simp [hc, h.same_side hc, hxi]
            · simp [hc]
        simp [hleft, hright]

/-- The list comes out sorted, with all its elements, whether the comparison is a total preorder
or the strict part of one; in the latter case, equivalent elements keep their order. -/
theorem sort_sorts {b : α → α → Bool} (h : TotalPreorder b ∨ StrictPreorder b) (a : List α) :
    (sort b a).Perm a ∧ Ordered b (sort b a) ∧
      (StrictPreorder b → ∀ x, (sort b a).filter (same b x) = a.filter (same b x)) := by
  have htrans : ∀ x y z, b x y → b y z → b x z := by
    rcases h with h | h
    · exact h.trans
    · exact h.trans
  exact ⟨sort_perm b a, sort_ordered htrans a, fun hs x => sort_stable hs x a⟩

/-- Sorting pairs by their first components. -/
theorem sort_sorts_pairs :
    let b : Nat × Nat → Nat × Nat → Bool := fun x y => decide (x.1 < y.1)
    (sort b [(2, 0), (1, 0), (2, 1)]).Perm [(2, 0), (1, 0), (2, 1)] ∧
      Ordered b (sort b [(2, 0), (1, 0), (2, 1)]) ∧
      (StrictPreorder b → ∀ x, (sort b [(2, 0), (1, 0), (2, 1)]).filter (same b x) =
        [(2, 0), (1, 0), (2, 1)].filter (same b x)) :=
  sort_sorts (.inr ⟨fun x y h => by simp only [decide_eq_true_eq] at h ⊢; omega,
    fun x y z h => by simp only [decide_eq_true_eq] at h ⊢; omega⟩) _

end sort

end Vere.Hoon
