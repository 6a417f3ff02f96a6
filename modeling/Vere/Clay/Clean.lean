import Vere.Clay.Blob
import Vere.Hoon.Loss

/-!
# Vere.Clay.Clean

What `++qael` does to a patch that comes from elsewhere, in which parts of one kind may stand
next to each other.

The stretches of a replacement are written backwards, so that the stretches of two neighbours
have to be joined the other way round: `mend` does that, and never changes what a patch means
(`lurk_mend`). `qael` joins them in the order in which they come. Patches of one shape that make
the same of one list are the same patch (`Shaped.eq`), so `qael` keeps the meaning only where the
order does not matter: in each run of replacements both orders give the same stretches
(`qael_keeps_iff`).
-/

namespace Vere.Clay

open Vere.Lib Vere.Hoon

/-- `qael`: clean. -/
def qael : List (Unce Noun) → List (Unce Noun)
  | [] => []
  | [i] => [i]
  | .skip p :: .skip p' :: t => qael (.skip (p + p') :: t)
  | .skip p :: .edit p' q' :: t => .skip p :: qael (.edit p' q' :: t)
  | .edit p q :: .edit p' q' :: t => qael (.edit (p ++ p') (q ++ q') :: t)
  | .edit p q :: .skip p' :: t => .edit p q :: qael (.skip p' :: t)
termination_by wig => wig.length

/-! ### Neighbours joined the right way -/

/-- A patch with all neighbours of one kind joined. -/
def mend : List (Unce Noun) → List (Unce Noun)
  | [] => []
  | [i] => [i]
  | .skip p :: .skip p' :: t => mend (.skip (p + p') :: t)
  | .skip p :: .edit p' q' :: t => .skip p :: mend (.edit p' q' :: t)
  | .edit p q :: .edit p' q' :: t => mend (.edit (p' ++ p) (q' ++ q) :: t)
  | .edit p q :: .skip p' :: t => .edit p q :: mend (.skip p' :: t)
termination_by wig => wig.length

section lurk

variable {hel war v : List Noun}

theorem lurkDrop_cat (a b : List Noun) :
    ∀ hel : List Noun, lurkDrop (a ++ b) hel = (lurkDrop a hel).bind (lurkDrop b) := by
  induction a with
  | nil => exact fun hel => rfl
  | cons g a ih =>
      intro hel
      cases hel with
      | nil => rfl
      | cons i hel =>
          by_cases hg : g = i
          · simp [lurkDrop, hg, ih]
          · simp [lurkDrop, hg]

theorem lurkDrop_some {p hel' : List Noun} :
    ∀ {hel : List Noun}, lurkDrop p hel = some hel' → hel = p ++ hel' := by
  induction p with
  | nil =>
      intro hel h
      cases h
      rfl
  | cons g p ih =>
      intro hel h
      cases hel with
      | nil => cases h
      | cons i hel =>
          rw [lurkDrop] at h
          split at h
          · next hg => rw [hg, ih h, List.cons_append]
          · cases h

/-- Joined neighbours do what the two did. -/
theorem lurkLoop_skips (p p' : Nat) (t : List (Unce Noun)) (hel war : List Noun) :
    lurkLoop (.skip (p + p') :: t) hel war = lurkLoop (.skip p :: .skip p' :: t) hel war := by
  simp only [lurkLoop, List.drop_drop, List.take_add, List.reverse_append, List.append_assoc]

theorem lurkLoop_edits (p q p' q' : List Noun) (t : List (Unce Noun)) (hel war : List Noun) :
    lurkLoop (.edit (p' ++ p) (q' ++ q) :: t) hel war =
      lurkLoop (.edit p q :: .edit p' q' :: t) hel war := by
  simp only [lurkLoop, List.reverse_append, lurkDrop_cat, Option.bind_eq_bind, Option.bind_assoc,
    List.append_assoc]

theorem lurkLoop_mend (wig : List (Unce Noun)) :
    ∀ hel war, lurkLoop (mend wig) hel war = lurkLoop wig hel war := by
  induction wig using mend.induct with
  | case1 => exact fun hel war => by rw [mend]
  | case2 i => exact fun hel war => by rw [mend]
  | case3 p p' t ih => exact fun hel war => by rw [mend, ih, lurkLoop_skips]
  | case4 p p' q' t ih =>
      intro hel war
      rw [mend, lurkLoop, lurkLoop, ih]
  | case5 p q p' q' t ih => exact fun hel war => by rw [mend, ih, lurkLoop_edits]
  | case6 p q p' t ih =>
      intro hel war
      rw [mend, lurkLoop, lurkLoop]
      exact congrArg _ (funext fun hel => ih hel _)

/-- Joining neighbours the right way keeps the meaning of a patch. -/
theorem lurk_mend (hel : List Noun) (wig : List (Unce Noun)) : lurk hel (mend wig) = lurk hel wig :=
  lurkLoop_mend wig hel []

end lurk

/-! ### Patches of one shape -/

/-- Patches whose parts are of one kind and one length, one by one. -/
inductive Shaped : List (Unce Noun) → List (Unce Noun) → Prop
  | nil : Shaped [] []
  | skip {s t : List (Unce Noun)} (n : Nat) (h : Shaped s t) : Shaped (.skip n :: s) (.skip n :: t)
  | edit {s t : List (Unce Noun)} {p q p' q' : List Noun} (hp : p.length = p'.length)
      (hq : q.length = q'.length) (h : Shaped s t) : Shaped (.edit p q :: s) (.edit p' q' :: t)

theorem shaped_refl (s : List (Unce Noun)) : Shaped s s := by
  induction s with
  | nil => exact .nil
  | cons i s ih =>
      cases i with
      | skip n => exact .skip n ih
      | edit p q => exact .edit rfl rfl ih

theorem lurkLoop_extends {t : List (Unce Noun)} :
    ∀ {hel war v : List Noun}, lurkLoop t hel war = some v → ∃ w, v = war.reverse ++ w := by
  induction t with
  | nil =>
      intro hel war v h
      cases h
      exact ⟨[], by simp⟩
  | cons i t ih =>
      intro hel war v h
      cases i with
      | skip p =>
          obtain ⟨w, rfl⟩ := ih h
          exact ⟨hel.take p ++ w, by simp⟩
      | edit p q =>
          obtain ⟨hel', -, h⟩ := Option.bind_eq_some_iff.mp h
          obtain ⟨w, rfl⟩ := ih h
          exact ⟨q.reverse ++ w, by simp⟩

/-- Patches of one shape that make the same of one list are the same. -/
theorem Shaped.eq {s t : List (Unce Noun)} (h : Shaped s t) :
    ∀ {hel war war' v : List Noun}, war.length = war'.length → lurkLoop s hel war = some v →
      lurkLoop t hel war' = some v → s = t := by
  induction h with
  | nil => exact fun _ _ _ => rfl
  | skip n h ih =>
      intro hel war war' v hlen hs ht
      rw [ih (by simp [hlen]) hs ht]
  | @edit s t p q p' q' hp hq h ih =>
      intro hel war war' v hlen hs ht
      obtain ⟨hel₁, hdrop, hs⟩ := Option.bind_eq_some_iff.mp hs
      obtain ⟨hel₂, hdrop', ht⟩ := Option.bind_eq_some_iff.mp ht
      have hsplit := (lurkDrop_some hdrop).symm.trans (lurkDrop_some hdrop')
      obtain ⟨hpp, hhel⟩ := List.append_inj hsplit (by simp [hp])
      obtain ⟨w, hw⟩ := lurkLoop_extends hs
      obtain ⟨w', hw'⟩ := lurkLoop_extends ht
      have hout := hw.symm.trans hw'
      obtain ⟨hwar, -⟩ := List.append_inj hout (by simp [hlen, hq])
      obtain ⟨hqq, -⟩ := List.append_inj (List.reverse_injective hwar) hq
      rw [List.reverse_injective hpp, hqq]
      rw [hhel] at hs
      rw [ih (by simp [hlen, hq]) hs ht]

/-- Both ways of joining give one shape. -/
theorem qael_shaped {s t : List (Unce Noun)} (h : Shaped s t) : Shaped (qael s) (mend t) := by
  induction s using qael.induct generalizing t with
  | case1 =>
      cases h
      rw [qael, mend]
      exact .nil
  | case2 i =>
      cases h with
      | skip n h =>
          cases h
          rw [qael, mend]
          exact shaped_refl _
      | edit hp hq h =>
          cases h
          rw [qael, mend]
          exact .edit hp hq .nil
  | case3 p p' s ih =>
      cases h with
      | skip n h =>
          cases h with
          | skip n' h =>
              rw [qael, mend]
              exact ih (.skip _ h)
  | case4 p p' q' s ih =>
      cases h with
      | skip n h =>
          cases h with
          | edit hp hq h =>
              rw [qael, mend]
              exact .skip _ (ih (.edit hp hq h))
  | case5 p q p' q' s ih =>
      cases h with
      | edit hp hq h =>
          cases h with
          | edit hp' hq' h =>
              rw [qael, mend]
              exact ih (.edit (by simp [hp, hp', Nat.add_comm]) (by simp [hq, hq', Nat.add_comm]) h)
  | case6 p q p' s ih =>
      cases h with
      | edit hp hq h =>
          cases h with
          | skip n h =>
              rw [qael, mend]
              exact .edit hp hq (ih (.skip _ h))

/-! ### Runs of replacements -/

/-- Replacements, one after the other. -/
def edits (run : List (List Noun × List Noun)) : List (Unce Noun) := run.map fun e => .edit e.1 e.2

/-- The patch does not begin with a replacement. -/
def NoEdit (t : List (Unce Noun)) : Prop := ∀ p q t', t ≠ .edit p q :: t'

/-- In each run of replacements, with no other before or behind it, the stretches joined in the
order of the run are those joined in the other order. -/
inductive Mirrored : List (Unce Noun) → Prop
  | nil : Mirrored []
  | skip {t : List (Unce Noun)} (n : Nat) (h : Mirrored t) : Mirrored (.skip n :: t)
  | edits {t : List (Unce Noun)} (run : List (List Noun × List Noun)) (hrun : run ≠ [])
      (hp : (run.map (·.1)).flatten = (run.reverse.map (·.1)).flatten)
      (hq : (run.map (·.2)).flatten = (run.reverse.map (·.2)).flatten)
      (ht : NoEdit t) (h : Mirrored t) : Mirrored (edits run ++ t)

theorem exists_run (t : List (Unce Noun)) : ∃ run t', t = edits run ++ t' ∧ NoEdit t' := by
  induction t with
  | nil => exact ⟨[], [], rfl, nofun⟩
  | cons i t ih =>
      cases i with
      | skip n => exact ⟨[], .skip n :: t, rfl, nofun⟩
      | edit p q =>
          obtain ⟨run, t', rfl, ht'⟩ := ih
          exact ⟨(p, q) :: run, t', rfl, ht'⟩

section runs

variable {t : List (Unce Noun)}

theorem qael_edits (ht : NoEdit t) (run : List (List Noun × List Noun)) :
    ∀ p q, qael (.edit p q :: (edits run ++ t)) =
      .edit (p ++ (run.map (·.1)).flatten) (q ++ (run.map (·.2)).flatten) :: qael t := by
  induction run with
  | nil =>
      intro p q
      cases t with
      | nil => simp [edits, qael]
      | cons i t =>
          cases i with
          | skip n => simp [edits, qael]
          | edit p' q' => exact absurd rfl (ht p' q' t)
  | cons e run ih =>
      intro p q
      change qael (.edit p q :: .edit e.1 e.2 :: (edits run ++ t)) = _
      rw [qael, ih]
      simp

theorem mend_edits (ht : NoEdit t) (run : List (List Noun × List Noun)) :
    ∀ p q, mend (.edit p q :: (edits run ++ t)) =
      .edit ((run.reverse.map (·.1)).flatten ++ p) ((run.reverse.map (·.2)).flatten ++ q) ::
        mend t := by
  induction run with
  | nil =>
      intro p q
      cases t with
      | nil => simp [edits, mend]
      | cons i t =>
          cases i with
          | skip n => simp [edits, mend]
          | edit p' q' => exact absurd rfl (ht p' q' t)
  | cons e run ih =>
      intro p q
      change mend (.edit p q :: .edit e.1 e.2 :: (edits run ++ t)) = _
      rw [mend, ih]
      simp

/-- On a run of replacements both ways agree if the order does not matter. -/
theorem run_agrees_iff (ht : NoEdit t) {run : List (List Noun × List Noun)} (hrun : run ≠ []) :
    qael (edits run ++ t) = mend (edits run ++ t) ↔
      (run.map (·.1)).flatten = (run.reverse.map (·.1)).flatten ∧
        (run.map (·.2)).flatten = (run.reverse.map (·.2)).flatten ∧ qael t = mend t := by
  cases run with
  | nil => exact absurd rfl hrun
  | cons e run =>
      change qael (.edit e.1 e.2 :: (edits run ++ t)) = mend (.edit e.1 e.2 :: (edits run ++ t)) ↔ _
      rw [qael_edits ht, mend_edits ht, List.cons.injEq, Unce.edit.injEq, and_assoc]
      simp

theorem skip_agrees_iff (t : List (Unce Noun)) :
    ∀ n, qael (.skip n :: t) = mend (.skip n :: t) ↔ qael t = mend t := by
  induction t with
  | nil => simp [qael, mend]
  | cons i t ih =>
      intro n
      cases i with
      | skip n' => rw [qael, mend, ih, ih]
      | edit p q => rw [qael, mend, List.cons.injEq, eq_self, true_and]

/-- `qael` joins as it should if the order does not matter in any run. -/
theorem qael_eq_mend_iff (wig : List (Unce Noun)) : qael wig = mend wig ↔ Mirrored wig := by
  constructor
  · induction h : wig.length using Nat.strong_induction_on generalizing wig with
    | _ n ih =>
        intro heq
        cases wig with
        | nil => exact .nil
        | cons i t =>
            rw [List.length_cons] at h
            cases i with
            | skip k => exact .skip k (ih _ (by omega) t rfl ((skip_agrees_iff t k).mp heq))
            | edit p q =>
                obtain ⟨run, t', rfl, ht'⟩ := exists_run t
                have hrun := (run_agrees_iff ht' (List.cons_ne_nil (p, q) run)).mp heq
                rw [List.length_append] at h
                exact .edits ((p, q) :: run) (List.cons_ne_nil _ _) hrun.1 hrun.2.1 ht'
                  (ih _ (by omega) t' rfl hrun.2.2)
  · intro hm
    induction hm with
    | nil => rw [qael, mend]
    | skip n h ih => exact (skip_agrees_iff _ n).mpr ih
    | edits run hrun hp hq ht h ih => exact (run_agrees_iff ht hrun).mpr ⟨hp, hq, ih⟩

end runs

/-! ### What cleaning keeps -/

theorem qael_head (i : Unce Noun) (t : List (Unce Noun)) :
    ∃ j t', qael (i :: t) = j :: t' ∧ j.isSkip = i.isSkip := by
  induction t generalizing i with
  | nil => exact ⟨i, [], by rw [qael], rfl⟩
  | cons j t ih =>
      cases i with
      | skip n =>
          cases j with
          | skip n' =>
              rw [qael]
              exact ih _
          | edit p q =>
              rw [qael]
              exact ⟨_, _, rfl, rfl⟩
      | edit p q =>
          cases j with
          | skip n =>
              rw [qael]
              exact ⟨_, _, rfl, rfl⟩
          | edit p' q' =>
              rw [qael]
              exact ih _

/-- In a patch without adjacent replacements there is nothing to join. -/
theorem mirrored_of_spaced {s : List (Unce Noun)} (hs : Spaced s) : Mirrored s := by
  induction s with
  | nil => exact .nil
  | cons i t ih =>
      have ht := ih hs.tail
      cases i with
      | skip n => exact .skip n ht
      | edit p q =>
          have hno : NoEdit t := by
            rintro p' q' t' rfl
            exact (List.isChain_cons_cons.mp hs).1 p q p' q' ⟨rfl, rfl⟩
          exact .edits [(p, q)] (by simp) rfl rfl hno ht

/-- No two parts of one kind stand next to each other after cleaning. -/
theorem qael_alternates (wig : List (Unce Noun)) : Alternates (qael wig) := by
  induction wig using qael.induct with
  | case1 =>
      rw [qael]
      exact .nil
  | case2 i =>
      rw [qael]
      exact alternates_single i
  | case3 p p' t ih =>
      rw [qael]
      exact ih
  | case4 p p' q' t ih =>
      obtain ⟨j, t', hj, hkind⟩ := qael_head (.edit p' q') t
      rw [hj] at ih
      rw [qael, hj, alternates_cons, hkind]
      exact ⟨Bool.false_ne_true.symm, ih⟩
  | case5 p q p' q' t ih =>
      rw [qael]
      exact ih
  | case6 p q p' t ih =>
      obtain ⟨j, t', hj, hkind⟩ := qael_head (.skip p') t
      rw [hj] at ih
      rw [qael, hj, alternates_cons, hkind]
      exact ⟨Bool.false_ne_true, ih⟩

/-- Each patch fits some list. -/
theorem exists_turns (wig : List (Unce Noun)) : ∃ h v, Turns wig h v := by
  induction wig with
  | nil => exact ⟨[], [], .nil⟩
  | cons i t ih =>
      obtain ⟨h, v, ht⟩ := ih
      cases i with
      | skip n =>
          refine ⟨List.replicate n (.atom 0) ++ h, List.replicate n (.atom 0) ++ v, ?_⟩
          simpa using Turns.skip (List.replicate n (.atom 0)) ht
      | edit p q => exact ⟨_, _, .edit p q ht⟩

/-- A cleaned patch makes of a list what the patch makes of it, on every list or on any that it
fits, if in each run of replacements both orders give the same stretches. -/
theorem qael_keeps_iff (wig : List (Unce Noun)) :
    Alternates (qael wig) ∧ ((∀ r, lurk r (qael wig) = lurk r wig) ↔ Mirrored wig) ∧
      ∀ r v, lurk r wig = some v → (lurk r (qael wig) = some v ↔ Mirrored wig) := by
  have hkept : Mirrored wig → ∀ r, lurk r (qael wig) = lurk r wig := by
    intro hm r
    rw [(qael_eq_mend_iff wig).mpr hm, lurk_mend]
  have hlost : ∀ r v, lurk r wig = some v → lurk r (qael wig) = some v → Mirrored wig := by
    intro r v hr hq
    rw [← lurk_mend] at hr
    exact (qael_eq_mend_iff wig).mp ((qael_shaped (shaped_refl wig)).eq rfl hq hr)
  refine ⟨qael_alternates wig, ⟨fun h => ?_, hkept⟩, fun r v hr => ⟨hlost r v hr, fun hm => ?_⟩⟩
  · obtain ⟨r, v, ht⟩ := exists_turns wig
    exact hlost r v (lurk_turns ht) ((h r).trans (lurk_turns ht))
  · rw [hkept hm, hr]

/-- Two lines deleted one after the other, as a patch from elsewhere may have them. -/
theorem two_deletions : ¬∀ (r : List Noun) (wig : List (Unce Noun)), lurk r (qael wig) = lurk r wig := by
  intro h
  have h := h [.atom 1, .atom 2] [.edit [.atom 1] [], .edit [.atom 2] []]
  rw [qael, qael] at h
  exact absurd h (by decide)

end Vere.Clay
