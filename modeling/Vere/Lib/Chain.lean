import Mathlib.Logic.Function.Basic
import Mathlib.Data.List.Nodup
import Mathlib.Tactic.Common

/-!
# Vere.Lib.Chain

Queues of linked nodes with a pointer to either end.

A node is entered at the tail and taken out at the head. `Linked` says that the nodes
in memory, followed from the head, are those of a list, and that the tail is the last
of them; memory that is none of these nodes does not matter.
-/

namespace Vere.Lib

open Function

/-- A node, with the address of the next one. -/
structure Node (α : Type) where
  val : α
  nex : Option Nat
  deriving Repr, DecidableEq

/-- The address of the first node. -/
def first {α : Type} (ns : List (Nat × α)) : Option Nat := ns.head?.map (·.1)

/-- Nodes at their addresses, each linked to the next. -/
def Strung {α : Type} (cell : Nat → Option (Node α)) : List (Nat × α) → Prop
  | [] => True
  | (p, x) :: ns => cell p = some ⟨x, first ns⟩ ∧ Strung cell ns

/-- The nodes between a head and a tail. -/
structure Linked {α : Type} (cell : Nat → Option (Node α)) (head tail : Option Nat)
    (ns : List (Nat × α)) : Prop where
  nodup : (ns.map (·.1)).Nodup
  strung : Strung cell ns
  head : head = first ns
  tail : tail = ns.getLast?.map (·.1)

variable {α : Type} {cell : Nat → Option (Node α)} {head tail : Option Nat} {ns : List (Nat × α)}
  {p t : Nat} {x : α}

theorem linked_nil (cell : Nat → Option (Node α)) : Linked cell none none [] :=
  ⟨List.nodup_nil, trivial, rfl, rfl⟩

/-- Memory outside of the nodes does not matter. -/
theorem Strung.update (h : Strung cell ns) (hp : p ∉ ns.map (·.1)) (v : Option (Node α)) :
    Strung (update cell p v) ns := by
  induction ns with
  | nil => trivial
  | cons n ns ih =>
      obtain ⟨q, y⟩ := n
      obtain ⟨hq, hns⟩ := h
      have hne : q ≠ p := by
        rintro rfl
        exact hp List.mem_cons_self
      exact ⟨(update_of_ne hne _ _).trans hq, ih hns fun hmem => hp (List.mem_cons_of_mem _ hmem)⟩

/-- The node at the tail gets a next one. -/
theorem Strung.snoc (h : Strung cell (ns ++ [(t, x)])) (hnodup : ((ns ++ [(t, x)]).map (·.1)).Nodup)
    (hp : p ∉ (ns ++ [(t, x)]).map (·.1)) (y : α) :
    Strung (Function.update (Function.update cell p (some ⟨y, none⟩)) t (some ⟨x, some p⟩))
      (ns ++ [(t, x), (p, y)]) := by
  induction ns with
  | nil =>
      have hne : p ≠ t := by simpa using hp
      exact ⟨Function.update_self .., (update_of_ne hne _ _).trans (Function.update_self ..), trivial⟩
  | cons n ns ih =>
      obtain ⟨q, z⟩ := n
      obtain ⟨hq, hns⟩ := h
      rw [List.cons_append, List.map_cons, List.nodup_cons] at hnodup
      have hqt : q ≠ t := by
        rintro rfl
        exact hnodup.1 (by simp)
      have hqp : q ≠ p := by
        rintro rfl
        exact hp (by simp)
      refine ⟨?_, ih hns hnodup.2 fun hmem => hp (by simpa using .inr (by simpa using hmem))⟩
      rw [update_of_ne hqt, update_of_ne hqp, hq]
      cases ns <;> rfl

/-- All nodes are in memory. -/
theorem Strung.mem (h : Strung cell ns) (hmem : p ∈ ns.map (·.1)) : cell p ≠ none := by
  induction ns with
  | nil => cases hmem
  | cons n ns ih =>
      obtain ⟨hq, hns⟩ := h
      rcases List.mem_cons.mp hmem with rfl | hmem
      · exact fun hnone => nomatch hq.symm.trans hnone
      · exact ih hns hmem

theorem Strung.last (h : Strung cell (ns ++ [(t, x)])) : cell t = some ⟨x, none⟩ := by
  induction ns with
  | nil => exact h.1
  | cons n ns ih => exact ih h.2

/-- A node is entered into an empty queue. -/
theorem linked_single (cell : Nat → Option (Node α)) (p : Nat) (x : α) :
    Linked (update cell p (some ⟨x, none⟩)) (some p) (some p) [(p, x)] :=
  ⟨List.nodup_cons.mpr ⟨List.not_mem_nil, List.nodup_nil⟩, ⟨Function.update_self .., trivial⟩,
    rfl, rfl⟩

/-- A node is entered behind the tail. -/
theorem Linked.push (h : Linked cell head (some t) ns) (hp : cell p = none) (y : α) :
    ∃ x, cell t = some ⟨x, none⟩ ∧
      Linked (update (update cell p (some ⟨y, none⟩)) t (some ⟨x, some p⟩)) head (some p)
        (ns ++ [(p, y)]) := by
  have hfresh : p ∉ ns.map (·.1) := fun hmem => h.strung.mem hmem hp
  obtain rfl | ⟨ms, ⟨q, x⟩, rfl⟩ := List.eq_nil_or_concat' ns
  · cases h.tail
  · have htail := h.tail
    rw [List.getLast?_concat, Option.map_some] at htail
    cases htail
    refine ⟨x, h.strung.last, ?_, ?_, h.head.trans ?_, ?_⟩
    · rw [List.map_append]
      exact List.Nodup.append h.nodup (List.nodup_cons.mpr ⟨List.not_mem_nil, List.nodup_nil⟩)
        (List.disjoint_singleton.mpr hfresh)
    · rw [List.append_assoc]
      exact h.strung.snoc h.nodup hfresh y
    · cases ms <;> rfl
    · rw [List.getLast?_concat, Option.map_some]

/-- The node at the head is taken out. -/
theorem Linked.pop (h : Linked cell head tail ((p, x) :: ns)) :
    head = some p ∧ cell p = some ⟨x, first ns⟩ ∧ (tail = some p ↔ ns = []) ∧
      Linked (update cell p none) (first ns) (if ns = [] then none else tail) ns := by
  obtain ⟨hfresh, hnodup⟩ := List.nodup_cons.mp h.nodup
  refine ⟨h.head, h.strung.1, ?_, hnodup, h.strung.2.update hfresh _, rfl, ?_⟩
  · rw [h.tail]
    obtain rfl | ⟨ms, ⟨q, y⟩, rfl⟩ := List.eq_nil_or_concat' ns
    · exact ⟨fun _ => rfl, fun _ => rfl⟩
    · rw [← List.cons_append, List.getLast?_concat, Option.map_some]
      refine ⟨fun hq => ?_, fun hnil => ?_⟩
      · cases hq
        exact absurd (List.mem_map_of_mem (List.mem_append_right ms (List.mem_singleton_self _))) hfresh
      · cases ms <;> cases hnil
  · obtain rfl | ⟨ms, ⟨q, y⟩, rfl⟩ := List.eq_nil_or_concat' ns
    · rfl
    · rw [if_neg (by cases ms <;> exact fun hnil => nomatch hnil), h.tail, ← List.cons_append,
        List.getLast?_concat, List.getLast?_concat]

/-- A node gets a new value. -/
theorem Linked.modify (h : Linked cell head tail ns) {n : Node α} (hp : cell p = some n) (y : α) :
    Linked (update cell p (some { n with val := y })) head tail
      (ns.map fun m => if m.1 = p then (p, y) else m) := by
  have hfst : ∀ m : Nat × α, (if m.1 = p then (p, y) else m).1 = m.1 := by
    intro m
    split
    · exact Eq.symm ‹_›
    · rfl
  have hmap : (ns.map fun m => if m.1 = p then (p, y) else m).map (·.1) = ns.map (·.1) := by
    rw [List.map_map]
    exact List.map_congr_left fun m _ => hfst m
  have hfirst : ∀ ms : List (Nat × α),
      first (ms.map fun m => if m.1 = p then (p, y) else m) = first ms := by
    intro ms
    cases ms with
    | nil => rfl
    | cons m ms => exact congrArg some (hfst m)
  refine ⟨hmap ▸ h.nodup, ?_, h.head.trans (hfirst ns).symm, ?_⟩
  · have hstr := h.strung
    clear h hmap
    induction ns with
    | nil => trivial
    | cons m ns ih =>
        obtain ⟨q, x⟩ := m
        obtain ⟨hq, hns⟩ := hstr
        by_cases hqp : q = p
        · subst hqp
          cases hp.symm.trans hq
          simp only [List.map_cons, if_true]
          exact ⟨by rw [Function.update_self, hfirst], ih hns⟩
        · simp only [List.map_cons, if_neg hqp]
          exact ⟨by rw [update_of_ne hqp, hq, hfirst], ih hns⟩
  · rw [h.tail, List.getLast?_map, Option.map_map]
    congr 1
    funext m
    exact (hfst m).symm

theorem Linked.tail_none_iff (h : Linked cell head tail ns) : tail = none ↔ ns = [] := by
  rw [h.tail, Option.map_eq_none_iff, List.getLast?_eq_none_iff]

theorem Linked.head_none_iff (h : Linked cell head tail ns) : head = none ↔ ns = [] := by
  rw [h.head, first, Option.map_eq_none_iff, List.head?_eq_none_iff]

end Vere.Lib
