import Mathlib.Tactic.Common
import Mathlib.Data.List.Count

/-!
# Vere.Lib.Quorum

Majorities of a list: two of them have a member in common.
-/

namespace Vere.Lib

variable {α : Type} (P Q : α → Bool)

theorem countP_add_le (l : List α) :
    l.countP P + l.countP Q ≤ l.length + l.countP fun x => P x && Q x := by
  induction l with
  | nil => simp
  | cons x l ih =>
      simp only [List.countP_cons, List.length_cons]
      cases P x <;> cases Q x <;> simp <;> omega

/-- More than half of the members. -/
def Majority (l : List α) : Prop := l.length < 2 * l.countP P

variable {P Q}

theorem Majority.meet {l : List α} (hP : Majority P l) (hQ : Majority Q l) :
    ∃ x ∈ l, P x ∧ Q x := by
  have h := countP_add_le P Q l
  unfold Majority at hP hQ
  have hpos : 0 < l.countP fun x => P x && Q x := by omega
  obtain ⟨x, hx, hboth⟩ := List.countP_pos_iff.mp hpos
  exact ⟨x, hx, by simpa using hboth⟩

theorem Majority.mono {l : List α} (h : Majority P l) (hPQ : ∀ x, P x → Q x) :
    Majority Q l := by
  have hle := List.countP_mono_left (l := l) fun x _ => hPQ x
  unfold Majority at h ⊢
  omega

/-- One more member makes the count larger. -/
theorem countP_lt {l : List α} (hPQ : ∀ x ∈ l, P x → Q x) {x : α} (hx : x ∈ l) (hP : P x = false)
    (hQ : Q x = true) : l.countP P < l.countP Q := by
  induction l with
  | nil => cases hx
  | cons y l ih =>
      have hle : l.countP P ≤ l.countP Q :=
        List.countP_mono_left fun z hz => hPQ z (List.mem_cons_of_mem y hz)
      rw [List.countP_cons, List.countP_cons]
      cases hx with
      | head => simp [hP, hQ]; omega
      | tail _ hx =>
          have hlt := ih (fun z hz => hPQ z (List.mem_cons_of_mem y hz)) hx
          have hy := hPQ y (List.mem_cons_self ..)
          cases hPy : P y with
          | false => simp; omega
          | true => simp [hy hPy]; omega

/-- One more element of a list without duplicates is counted. -/
theorem countP_update [DecidableEq α] {l : List α} (hl : l.Nodup) {x : α} (hx : x ∈ l)
    {f : α → Bool} (hf : f x = false) :
    l.countP (Function.update f x true) = l.countP f + 1 := by
  induction l with
  | nil => cases hx
  | cons y l ih =>
      obtain ⟨hy, hl⟩ := List.nodup_cons.mp hl
      rw [List.countP_cons, List.countP_cons]
      by_cases hxy : x = y
      · subst hxy
        have hrest : l.countP (Function.update f x true) = l.countP f :=
          List.countP_congr fun z hz => by
            have hne : z ≠ x := fun e => hy (e ▸ hz)
            rw [Function.update_of_ne hne]
        rw [hrest, Function.update_self, hf]
        rfl
      · have hmem : x ∈ l := (List.mem_cons.mp hx).resolve_left hxy
        rw [ih hl hmem, Function.update_of_ne (Ne.symm hxy), Nat.add_right_comm]

end Vere.Lib
