import Mathlib.Data.List.Nodup

/-!
# Vere.Lib.Links

Doubly linked lists whose links live in the nodes.

`Links nil pre nex p h xs` says that the pointer `h` leads, along `nex`, through
exactly the nodes `xs` and then to `nil`, and that `pre` of each node is the node
before it (`p` for the first one). The links are two functions, so that the same
rules serve any layout of the nodes in a memory: an edit of the memory enters a
rule only through what it does to `pre` and `nex` at the nodes of the list.
-/

namespace Vere.Lib

/-- The pointer `h` leads through the nodes `xs`, each of which points back to the
one before it. -/
def Links {α : Type} (nil : α) (pre nex : α → α) : α → α → List α → Prop
  | _, h, [] => h = nil
  | p, h, x :: xs => h = x ∧ x ≠ nil ∧ pre x = p ∧ Links nil pre nex x (nex x) xs

namespace Links

variable {α : Type} {nil : α} {pre nex pre' nex' : α → α} {p h x : α} {xs : List α}

theorem ne_nil (hl : Links nil pre nex p h xs) (hx : x ∈ xs) : x ≠ nil := by
  induction xs generalizing p h with
  | nil => simp at hx
  | cons y ys ih =>
    obtain ⟨-, hy, -, hys⟩ := hl
    rcases List.mem_cons.mp hx with rfl | hx
    · exact hy
    · exact ih hys hx

theorem head_mem (hl : Links nil pre nex p h xs) (hh : h ≠ nil) : h ∈ xs := by
  cases xs with
  | nil => exact absurd hl hh
  | cons y ys =>
    obtain ⟨rfl, -⟩ := hl
    exact List.mem_cons_self

theorem pre_head (hl : Links nil pre nex p h xs) (hh : h ≠ nil) : pre h = p := by
  cases xs with
  | nil => exact absurd hl hh
  | cons y ys =>
    obtain ⟨rfl, -, hp, -⟩ := hl
    exact hp

/-- Only the links of the nodes on the list matter. -/
theorem congr (hl : Links nil pre nex p h xs) (hpre : ∀ y ∈ xs, pre' y = pre y)
    (hnex : ∀ y ∈ xs, nex' y = nex y) : Links nil pre' nex' p h xs := by
  induction xs generalizing p h with
  | nil => exact hl
  | cons y ys ih =>
    obtain ⟨rfl, hy, hp, hys⟩ := hl
    refine ⟨rfl, hy, ?_, ?_⟩
    · rw [hpre _ List.mem_cons_self, hp]
    · rw [hnex _ List.mem_cons_self]
      exact ih hys (fun z hz => hpre z (List.mem_cons_of_mem _ hz))
        (fun z hz => hnex z (List.mem_cons_of_mem _ hz))

/-- The pointers back stay inside the list. -/
theorem pre_mem (hl : Links nil pre nex p h xs) (hx : x ∈ xs) : pre x = p ∨ pre x ∈ xs := by
  induction xs generalizing p h with
  | nil => simp at hx
  | cons y ys ih =>
    obtain ⟨rfl, -, hp, hys⟩ := hl
    rcases List.mem_cons.mp hx with rfl | hx
    · exact .inl hp
    · right
      rcases ih hys hx with he | hm
      · exact he ▸ List.mem_cons_self
      · exact List.mem_cons_of_mem _ hm

/-- The pointers forward stay inside the list. -/
theorem nex_mem (hl : Links nil pre nex p h xs) (hx : x ∈ xs) : nex x = nil ∨ nex x ∈ xs := by
  induction xs generalizing p h with
  | nil => simp at hx
  | cons y ys ih =>
    obtain ⟨rfl, -, -, hys⟩ := hl
    rcases List.mem_cons.mp hx with rfl | hx
    · by_cases hn : nex x = nil
      · exact .inl hn
      · exact .inr (List.mem_cons_of_mem _ (head_mem hys hn))
    · exact (ih hys hx).imp_right (List.mem_cons_of_mem _)

/-- A new node before the first one. -/
theorem push [DecidableEq α] (hl : Links nil pre nex p h xs) (hx : x ≠ nil) (hpx : pre' x = p)
    (hnx : nex' x = h) (hpre : ∀ y ∈ xs, pre' y = if y = h then x else pre y)
    (hnex : ∀ y ∈ xs, nex' y = nex y) (hnd : xs.Nodup) : Links nil pre' nex' p x (x :: xs) := by
  refine ⟨rfl, hx, hpx, ?_⟩
  rw [hnx]
  cases xs with
  | nil => exact hl
  | cons y ys =>
    obtain ⟨rfl, hy, -, hys⟩ := hl
    have hny : h ∉ ys := (List.nodup_cons.mp hnd).1
    refine ⟨rfl, hy, by simp [hpre], ?_⟩
    rw [hnex _ List.mem_cons_self]
    refine hys.congr (fun z hz => ?_) (fun z hz => hnex z (List.mem_cons_of_mem _ hz))
    rw [hpre z (List.mem_cons_of_mem _ hz), if_neg]
    exact fun he => hny (he ▸ hz)

/-- A node unlinked: its two neighbours are joined, or the pointer to the list takes
the place of the one before it. -/
theorem erase [DecidableEq α] (hl : Links nil pre nex p h xs) (hnd : (p :: xs).Nodup) (hx : x ∈ xs)
    (hpre : ∀ y ∈ xs, pre' y = if y = nex x then pre x else pre y)
    (hnex : ∀ y ∈ xs, nex' y = if y = pre x then nex x else nex y) :
    Links nil pre' nex' p (if pre x = p then nex x else h) (xs.erase x) := by
  induction xs generalizing p h with
  | nil => simp at hx
  | cons y ys ih =>
    obtain ⟨rfl, hy, hp, hys⟩ := hl
    obtain ⟨hpn, hnd'⟩ := List.nodup_cons.mp hnd
    obtain ⟨hyn, hndys⟩ := List.nodup_cons.mp hnd'
    have hpys : p ∉ ys := fun hm => hpn (List.mem_cons_of_mem _ hm)
    by_cases hxy : x = h
    · subst hxy
      rw [if_pos hp, List.erase_cons_head]
      cases ys with
      | nil => exact hys
      | cons z zs =>
        obtain ⟨hz, hzn, -, hzs⟩ := hys
        have hzz : z ∉ zs := (List.nodup_cons.mp hndys).1
        have hzp : z ≠ pre x := by
          rw [hp]
          exact fun he => hpys (he ▸ List.mem_cons_self)
        refine ⟨hz, hzn, ?_, ?_⟩
        · rw [hpre z (by simp), if_pos hz.symm, hp]
        · rw [hnex z (by simp), if_neg hzp]
          refine hzs.congr (fun w hw => ?_) (fun w hw => ?_)
          · rw [hpre w (by simp [hw]), if_neg]
            rw [hz]
            exact fun he => hzz (he ▸ hw)
          · rw [hnex w (by simp [hw]), if_neg]
            rw [hp]
            exact fun he => hpys (he ▸ List.mem_cons_of_mem _ hw)
    · have hxs : x ∈ ys := (List.mem_cons.mp hx).resolve_left hxy
      have hnp : pre x ≠ p := by
        intro he
        rcases pre_mem hys hxs with hm | hm
        · exact hpn (he ▸ hm ▸ List.mem_cons_self)
        · exact hpys (he ▸ hm)
      have hny : h ≠ nex x := by
        intro he
        rcases nex_mem hys hxs with hm | hm
        · exact hy (he.trans hm)
        · exact hyn (he ▸ hm)
      rw [if_neg hnp, List.erase_cons_tail (by simpa using fun he => hxy he.symm)]
      refine ⟨rfl, hy, ?_, ?_⟩
      · rw [hpre h List.mem_cons_self, if_neg hny, hp]
      · have hih := ih hys hnd' hxs (fun z hz => hpre z (List.mem_cons_of_mem _ hz))
          (fun z hz => hnex z (List.mem_cons_of_mem _ hz))
        rw [hnex h List.mem_cons_self]
        simpa only [eq_comm] using hih

end Links

end Vere.Lib
