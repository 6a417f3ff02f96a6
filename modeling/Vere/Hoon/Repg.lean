import Mathlib.Logic.Relation
import Vere.Hoon.Deep

/-!
# Vere.Hoon.Repg

Replacing all matches of a regular expression (`++repg`, section 2eM of `hoon.hoon`).

The loop goes on with what a match leaves. Where a match is empty and there is text left, that
is where it was, and the loop does not end (`repg_stuck`); it ends exactly if this never happens
(`repg_ends`), and then the result has all characters that no match covers, in order.
-/

namespace Vere.Hoon.Rexp

/-- The loop of `++repg`. -/
def repgLoop (poc : Rege) (b c : Tape) : Nat → Tape → Virt Tape
  | 0, _ => .never
  | n + 1, d => do
      match ← matc b n poc d with
      | none =>
          match d with
          | [] => return []
          | i :: t => do
              let r ← repgLoop poc b c n t
              return i :: r
      | some u =>
          match u 0 with
          | none => throw ()
          | some ft =>
              match d with
              | [] => return c
              | _ :: _ => do
                  let r ← repgLoop poc b c n (slag ft.length d)
                  return c ++ r

/-- `++repg`: global regex replace. -/
def repg (n : Nat) (a b c : Tape) : Virt (Option Tape) := do
  match ← pars a with
  | none => return none
  | some par => do
      let r ← repgLoop (proc par 1).2 b c n b
      return some r

section

variable (poc : Rege) (b : Tape)

/-- `++matc` comes to this before `d`, in the text `b`. -/
def Answers (d : Tape) (o : Option Caps) : Prop := ∃ n, matc b n poc d = pure o

/-- From `d` the loop goes on with `d'`. -/
inductive Goes : Tape → Tape → Prop
  | keep {i : Nat} {t : Tape} (h : Answers poc b (i :: t) none) : Goes (i :: t) t
  | swap {d ft : Tape} {u : Caps} (hd : d ≠ []) (h : Answers poc b d (some u))
      (hu : u 0 = some ft) : Goes d (slag ft.length d)

/-- `++matc` comes to something before `d`, and not to an empty match while there is text left. -/
def Moves (d : Tape) : Prop := ∃ o, Answers poc b d o ∧ ∀ u, o = some u → u 0 = some [] → d = []

/-- A text, taken apart into characters before which there is no match, and matches. -/
def Covers : List (Nat ⊕ Tape) → Tape → Prop
  | [], d => d = []
  | .inl i :: ps, d => ∃ t, d = i :: t ∧ Answers poc b d none ∧ Covers ps t
  | .inr ft :: ps, d =>
      ∃ t u, d = ft ++ t ∧ Answers poc b d (some u) ∧ u 0 = some ft ∧ Covers ps t

/-- The characters as they were, and `c` for each match. -/
def swapped (c : Tape) (ps : List (Nat ⊕ Tape)) : Tape :=
  ps.flatMap fun
    | .inl i => [i]
    | .inr _ => c

/-- The result has what no match covers, in order. There may be one more match, at the end. -/
def Replaced (c d r : Tape) : Prop :=
  ∃ ps tail, Covers poc b ps d ∧ r = swapped c ps ++ tail ∧ (tail = [] ∨ tail = c)

end

section loop

variable {poc : Rege} {b c d r : Tape} {n m : Nat}

theorem Answers.unique {o o' : Option Caps} (h : Answers poc b d o) (h' : Answers poc b d o') :
    o = o' := by
  obtain ⟨n, h⟩ := h
  obtain ⟨m, h'⟩ := h'
  exact matc_unique h h'

theorem repgLoop_upto (h : n ≤ m) (d : Tape) : Upto (repgLoop poc b c n d) (repgLoop poc b c m d) := by
  induction n generalizing m d with
  | zero => exact .inl rfl
  | succ n ih =>
      obtain ⟨k, rfl⟩ : ∃ k, m = k + 1 := ⟨m - 1, by omega⟩
      have hk : n ≤ k := by omega
      have hmatc : Upto (matc b n poc d) (matc b k poc d) :=
        (deep_upto b hk poc d .empt).bind fun _ => .refl _
      refine hmatc.bind fun foo => ?_
      match foo with
      | none =>
          match d with
          | [] => exact .refl _
          | i :: t => exact (ih hk t).bind fun _ => .refl _
      | some u =>
          simp only
          match u 0 with
          | none => exact .refl _
          | some ft =>
              match d with
              | [] => exact .refl _
              | i :: t => exact (ih hk _).bind fun _ => .refl _

/-- What one round does. -/
theorem repgLoop_cases (h : repgLoop poc b c (n + 1) d = pure r) :
    (Answers poc b d none ∧ d = [] ∧ r = []) ∨
    (∃ i t r', Answers poc b d none ∧ d = i :: t ∧ repgLoop poc b c n t = pure r' ∧ r = i :: r') ∨
    (∃ u ft, Answers poc b d (some u) ∧ u 0 = some ft ∧ d = [] ∧ r = c) ∨
    ∃ u ft r', Answers poc b d (some u) ∧ u 0 = some ft ∧ d ≠ [] ∧
      repgLoop poc b c n (slag ft.length d) = pure r' ∧ r = c ++ r' := by
  obtain ⟨foo, hfoo, h⟩ := Virt.bind_eq_pure.mp h
  match foo, hfoo, h with
  | none, hfoo, h =>
      match d, h with
      | [], h => exact .inl ⟨⟨n, hfoo⟩, rfl, (Virt.pure_inj.mp h).symm⟩
      | i :: t, h =>
          obtain ⟨r', hr, h⟩ := Virt.bind_eq_pure.mp h
          exact .inr (.inl ⟨i, t, r', ⟨n, hfoo⟩, rfl, hr, (Virt.pure_inj.mp h).symm⟩)
  | some u, hfoo, h =>
      obtain ⟨ft, t, hu, -⟩ := matc_front hfoo
      simp only [hu] at h
      match d, h with
      | [], h => exact .inr (.inr (.inl ⟨u, ft, ⟨n, hfoo⟩, hu, rfl, (Virt.pure_inj.mp h).symm⟩))
      | i :: t, h =>
          obtain ⟨r', hr, h⟩ := Virt.bind_eq_pure.mp h
          exact .inr (.inr (.inr ⟨u, ft, r', ⟨n, hfoo⟩, hu, nofun, hr, (Virt.pure_inj.mp h).symm⟩))

/-- Where the match is empty the loop does not end. -/
theorem repgLoop_stuck {u : Caps} (h : Answers poc b d (some u)) (hu : u 0 = some []) (hd : d ≠ [])
    (n : Nat) (r : Tape) : repgLoop poc b c n d ≠ pure r := by
  induction n generalizing r with
  | zero => nofun
  | succ n ih =>
      intro hr
      rcases repgLoop_cases hr with ⟨-, h0, -⟩ | ⟨_, _, _, h', -⟩ | ⟨_, _, -, -, h0, -⟩ |
        ⟨u', ft, r', h', hu', -, hr', -⟩
      · exact hd h0
      · cases h.unique h'
      · exact hd h0
      · cases h.unique h'
        rw [hu] at hu'
        cases hu'
        exact ih r' hr'

theorem moves_of_run (h : repgLoop poc b c n d = pure r) : Moves poc b d := by
  cases n with
  | zero => cases h
  | succ n =>
      have hmoves {o : Option Caps} (ho : Answers poc b d o) : Moves poc b d := by
        refine ⟨o, ho, ?_⟩
        rintro u rfl hu
        by_contra hd
        exact repgLoop_stuck ho hu hd (n + 1) r h
      rcases repgLoop_cases h with ⟨ho, -⟩ | ⟨_, _, _, ho, -⟩ | ⟨_, _, ho, -⟩ | ⟨_, _, _, ho, -⟩ <;>
        exact hmoves ho

/-- A run that ends goes on with one that does. -/
theorem run_of_goes {d' : Tape} (h : repgLoop poc b c n d = pure r) (hg : Goes poc b d d') :
    ∃ n r, repgLoop poc b c n d' = pure r := by
  cases n with
  | zero => cases h
  | succ n =>
      rcases repgLoop_cases h with ⟨-, rfl, -⟩ | ⟨i, t, r', ho, rfl, hr, -⟩ | ⟨_, _, -, -, rfl, -⟩ |
        ⟨u, ft, r', ho, hu, hd, hr, -⟩
      · cases hg with
        | swap hd => exact absurd rfl hd
      · cases hg with
        | keep => exact ⟨n, r', hr⟩
        | swap _ ho' => cases ho.unique ho'
      · cases hg with
        | swap hd => exact absurd rfl hd
      · cases hg with
        | keep ho' => cases ho.unique ho'
        | swap _ ho' hu' =>
            cases ho.unique ho'
            rw [hu] at hu'
            cases hu'
            exact ⟨n, r', hr⟩

theorem moves_of_ends {e : Tape} (h : ∃ n r, repgLoop poc b c n d = pure r)
    (hg : Relation.ReflTransGen (Goes poc b) d e) : Moves poc b e := by
  induction hg using Relation.ReflTransGen.head_induction_on with
  | refl =>
      obtain ⟨n, r, h⟩ := h
      exact moves_of_run h
  | head hg _ ih =>
      obtain ⟨n, r, h⟩ := h
      exact ih (run_of_goes h hg)

theorem swapped_keep (c : Tape) (i : Nat) (ps : List (Nat ⊕ Tape)) :
    swapped c (.inl i :: ps) = i :: swapped c ps := rfl

theorem swapped_swap (c ft : Tape) (ps : List (Nat ⊕ Tape)) :
    swapped c (.inr ft :: ps) = c ++ swapped c ps := rfl

theorem Replaced.keep {i : Nat} (h : Replaced poc b c d r) (ho : Answers poc b (i :: d) none) :
    Replaced poc b c (i :: d) (i :: r) := by
  obtain ⟨ps, tail, hps, rfl, ht⟩ := h
  exact ⟨.inl i :: ps, tail, ⟨d, rfl, ho, hps⟩, by rw [swapped_keep, List.cons_append], ht⟩

theorem Replaced.swap {ft : Tape} {u : Caps} (h : Replaced poc b c d r)
    (ho : Answers poc b (ft ++ d) (some u)) (hu : u 0 = some ft) :
    Replaced poc b c (ft ++ d) (c ++ r) := by
  obtain ⟨ps, tail, hps, rfl, ht⟩ := h
  exact ⟨.inr ft :: ps, tail, ⟨d, u, rfl, ho, hu, hps⟩, by rw [swapped_swap, List.append_assoc], ht⟩

/-- If the loop moves on from everywhere that it gets, it ends. -/
theorem ends_of_moves (h : ∀ e, Relation.ReflTransGen (Goes poc b) d e → Moves poc b e) :
    ∃ n r, repgLoop poc b c n d = pure r ∧ Replaced poc b c d r := by
  induction hlen : d.length using Nat.strongRecOn generalizing d with
  | ind k ih =>
      subst hlen
      obtain ⟨o, ⟨n, ho⟩, hne⟩ := h d .refl
      -- the rest of the text, and one more round in front of it
      have hrest {d' : Tape} (hg : Goes poc b d d') (hlt : d'.length < d.length) :
          ∃ m r, n ≤ m ∧ repgLoop poc b c m d' = pure r ∧ Replaced poc b c d' r := by
        obtain ⟨m, r, hr, hrep⟩ := ih _ hlt (fun e he => h e (.head hg he)) rfl
        exact ⟨max n m, r, Nat.le_max_left n m, (repgLoop_upto (Nat.le_max_right n m) d').pure hr, hrep⟩
      match o, ho, hne with
      | none, ho, _ =>
          cases d with
          | nil =>
              refine ⟨n + 1, [], ?_, [], [], rfl, rfl, .inl rfl⟩
              simp only [repgLoop, ho, pure_bind]
          | cons i t =>
              obtain ⟨m, r, hnm, hr, hrep⟩ := hrest (.keep ⟨n, ho⟩) (Nat.lt_succ_self _)
              refine ⟨m + 1, i :: r, ?_, hrep.keep ⟨n, ho⟩⟩
              simp only [repgLoop, matc_mono hnm ho, hr, pure_bind]
      | some u, ho, hne =>
          obtain ⟨ft, t, hu, hd⟩ := matc_front ho
          by_cases h0 : d = []
          · obtain ⟨rfl, rfl⟩ := List.append_eq_nil_iff.mp (hd.symm.trans h0)
            refine ⟨n + 1, c, ?_, [], c, h0, rfl, .inr rfl⟩
            subst h0
            simp only [repgLoop, ho, hu, pure_bind]
          · have hslag : slag ft.length d = t := by rw [slag_eq_drop, hd, List.drop_left]
            have hft : ft ≠ [] := fun hft => h0 (hne u rfl (by rw [hu, hft]))
            have hlt : (slag ft.length d).length < d.length := by
              have := List.length_pos_iff.mpr hft
              rw [hslag, hd, List.length_append]
              omega
            obtain ⟨m, r, hnm, hr, hrep⟩ := hrest (.swap h0 ⟨n, ho⟩ hu) hlt
            refine ⟨m + 1, c ++ r, ?_, ?_⟩
            · obtain ⟨i, s, rfl⟩ := List.exists_cons_of_ne_nil h0
              simp only [repgLoop, matc_mono hnm ho, hu, hr, pure_bind]
            · rw [hslag] at hrep
              have := hrep.swap (hd ▸ ⟨n, ho⟩) hu
              rwa [← hd] at this

end loop

/-- The replacement of a pattern that `++pars` accepts ends exactly if from everywhere in the text
that the loop gets it moves on, and then the result is the text with its matches replaced. -/
theorem repg_ends {a : Tape} {par : Rege} (b c : Tape) (h : pars a = pure (some par)) :
    (∃ n r, repg n a b c = pure (some r) ∧ Replaced (proc par 1).2 b c b r) ↔
      ∀ d, Relation.ReflTransGen (Goes (proc par 1).2 b) b d → Moves (proc par 1).2 b d := by
  have hrun (n : Nat) (r : Tape) :
      repg n a b c = pure (some r) ↔ repgLoop (proc par 1).2 b c n b = pure r := by
    rw [repg, h, pure_bind]
    simp only [Virt.bind_eq_pure, Virt.pure_inj, Option.some.injEq, exists_eq_right]
  simp only [hrun]
  constructor
  · rintro ⟨n, r, hr, -⟩ d hd
    exact moves_of_ends ⟨n, r, hr⟩ hd
  · exact ends_of_moves

/-- `x` in `yx`, by `z`. -/
theorem repg_ends_yx :
    (∃ n r, repg n [120] [121, 120] [122] = pure (some r) ∧
        Replaced (proc (.lite 120) 1).2 [121, 120] [122] [121, 120] r) ↔
      ∀ d, Relation.ReflTransGen (Goes (proc (.lite 120) 1).2 [121, 120]) [121, 120] d →
        Moves (proc (.lite 120) 1).2 [121, 120] d := repg_ends [121, 120] [122] rfl

/-- `x*` in `y`. -/
theorem repg_stuck :
    ¬∀ (a : Tape) (par : Rege) (b c : Tape), pars a = pure (some par) →
      ∃ n r, repg n a b c = pure (some r) ∧ Replaced (proc par 1).2 b c b r := by
  intro h
  obtain ⟨n, r, hr, -⟩ := h [120, 42] (.mant (.lite 120)) [121] [122] rfl
  obtain ⟨r', hr'⟩ : ∃ r', repgLoop (.mant (.lite 120)) [121] [122] n [121] = pure r' := by
    obtain ⟨o, ho, h⟩ := Virt.bind_eq_pure.mp hr
    cases ho
    obtain ⟨r', hr', -⟩ := Virt.bind_eq_pure.mp h
    exact ⟨r', hr'⟩
  exact repgLoop_stuck (u := bare.put 0 []) ⟨2, rfl⟩ rfl (List.cons_ne_nil 121 []) n r' hr'

end Vere.Hoon.Rexp
