import Mathlib.Data.Finmap

/-!
# Vere.Lib.Skim

The part of a finite map whose keys pass a test (`skim`), and maps into which the values of a list
are put, each under a key of its own (`lookup_foldl_insert`).
-/

namespace Vere.Lib

variable {α : Type} {β : α → Type}

theorem nodupKeys_filter {s : Multiset (Sigma β)} (hs : s.NodupKeys) (f : α → Bool) :
    (s.filter fun i => f i.1 = true).NodupKeys := by
  induction s using Quotient.inductionOn with
  | h l =>
    have hl : l.NodupKeys := hs
    exact hl.sublist List.filter_sublist

/-- The entries whose keys pass the test. -/
def skim (f : α → Bool) (m : Finmap β) : Finmap β :=
  ⟨m.entries.filter fun i => f i.1 = true, nodupKeys_filter m.nodupKeys f⟩

theorem lookup_skim [DecidableEq α] (f : α → Bool) (m : Finmap β) (a : α) :
    (skim f m).lookup a = if f a = true then m.lookup a else none := by
  ext b
  rw [Finmap.lookup_eq_some_iff, skim, Multiset.mem_filter, ← Finmap.lookup_eq_some_iff]
  by_cases hf : f a = true <;> simp [hf]

/-- A value that is in the list or in the map before, and shares its key with no other of the list,
is in the map after. -/
theorem lookup_foldl_insert {κ ν : Type} [DecidableEq κ] {f : ν → κ} {l : List ν} {w : ν}
    {m : Finmap fun _ : κ => ν} (hl : ∀ v ∈ l, f v = f w → v = w)
    (hw : w ∈ l ∨ m.lookup (f w) = some w) :
    (l.foldl (fun m v => m.insert (f v) v) m).lookup (f w) = some w := by
  induction l generalizing m with
  | nil => exact hw.resolve_left List.not_mem_nil
  | cons v l ih =>
    refine ih (fun u hu => hl u (List.mem_cons_of_mem v hu)) ?_
    show w ∈ l ∨ (m.insert (f v) v).lookup (f w) = some w
    by_cases hv : f v = f w
    · rw [hv, Finmap.lookup_insert, hl v List.mem_cons_self hv]
      exact .inr rfl
    · rw [Finmap.lookup_insert_of_ne _ (Ne.symm hv)]
      refine hw.imp_left fun hw => (List.mem_cons.mp hw).resolve_left ?_
      rintro rfl
      exact hv rfl

end Vere.Lib
