import Mathlib.Logic.Function.Basic
import Vere.Nock.Frag
import Vere.Ut.Axis

/-!
# Vere.Nock.Molt

Many axes at once: `u2_mean` (`f/loom.c`) and `u2_rl_molt` (`f/rail.c`).

Both go down a noun with a list of axes. At a cell the list is cut before the first axis that
goes to the right, and each of the two parts goes on with its half, every axis less its first
step. So the axes have to be in tree order (`Ut.Before`); in this order both do what one axis at
a time would (`mean_spec`, `molt_spec`).
-/

namespace Vere.Nock

open Vere.Lib Vere.Ut

variable {κ : Type}

/-! ### The code -/

/-- `u2_ax_dep`: number of axis bits. -/
def axDep (a : Nat) : Nat := a.size - 1

/-- `u2_ax_cap`: root axis, 2 or 3. -/
def axCap (a : Nat) : Nat := 2 ||| a / 2 ^ (axDep a - 1)

/-- `u2_ax_mas`: remainder after cap. -/
def axMas (a : Nat) : Nat := (a - 2 ^ axDep a) ||| 2 ^ (axDep a - 1)

/-- The loop of `_mean_cut` and `_molt_cut`: where the list is cut, and the axes less their
first step. Below 2 the macros shift by a negative count. -/
def cut {β : Type} : Nat → Option Nat → List (Nat × β) → Jet (Nat × List (Nat × β))
  | i, cutT, [] => .ok (cutT.getD i, [])
  | i, cutT, (axe, x) :: l =>
      if axe < 2 then .error .fault
      else do
        let r ← cut (i + 1) (if cutT = none ∧ axCap axe = 3 then some i else cutT) l
        return (r.1, (axMas axe, x) :: r.2)

/-- The steps of all axes of a list. -/
def steps {β : Type} (l : List (Nat × β)) : Nat := (l.map Prod.fst).sum

theorem axCap_eq {a : Nat} (h : 2 ≤ a) : axCap a = Ut.cap a := by
  have hsize := size_half h
  rw [axCap, axDep, Nat.sub_sub, ← Ut.cap_eq h]
  rcases cap_two_or_three h with hc | hc <;> rw [hc] <;> rfl

theorem axMas_eq {a : Nat} (h : 2 ≤ a) : axMas a = Ut.mas a := by
  rw [axMas, axDep, Nat.sub_sub, mas_or h]

/-- A cut takes a step off every axis. -/
theorem cut_ok {β : Type} {i w : Nat} {t : Option Nat} {l l' : List (Nat × β)}
    (h : cut i t l = .ok (w, l')) :
    l' = l.map (fun e => (Ut.mas e.1, e.2)) ∧ ∀ e ∈ l, 2 ≤ e.1 := by
  induction l generalizing i t w l' with
  | nil =>
      cases h
      exact ⟨rfl, fun _ he => nomatch he⟩
  | cons e l ih =>
      obtain ⟨axe, x⟩ := e
      rw [cut] at h
      by_cases hlow : axe < 2
      · rw [if_pos hlow] at h
        cases h
      · rw [if_neg hlow] at h
        generalize (if t = none ∧ axCap axe = 3 then some i else t) = t' at h
        cases hrest : cut (i + 1) t' l with
        | error e => simp [hrest, bind, Except.bind] at h
        | ok r =>
            obtain ⟨w', l₁⟩ := r
            obtain ⟨hmap, hall⟩ := ih hrest
            simp only [hrest, bind, Except.bind, pure, Except.pure, Except.ok.injEq,
              Prod.mk.injEq] at h
            rw [← h.2, axMas_eq (Nat.le_of_not_lt hlow), hmap]
            refine ⟨rfl, fun e he => ?_⟩
            rcases List.mem_cons.mp he with rfl | he
            · exact Nat.le_of_not_lt hlow
            · exact hall e he

theorem steps_mas_lt {β : Type} {l : List (Nat × β)} (hl : l ≠ []) (h : ∀ e ∈ l, 2 ≤ e.1) :
    steps (l.map fun e => (Ut.mas e.1, e.2)) < steps l := by
  induction l with
  | nil => exact absurd rfl hl
  | cons e l ih =>
      have hlt := mas_lt (h e List.mem_cons_self)
      by_cases hnil : l = []
      · subst hnil
        simpa [steps] using hlt
      · have hrest := ih hnil fun e he => h e (List.mem_cons_of_mem _ he)
        simp only [steps, List.map_cons, List.sum_cons] at hrest ⊢
        omega

theorem steps_split {β : Type} (l : List (Nat × β)) (w : Nat) :
    steps (l.take w) + steps (l.drop w) = steps l := by
  rw [steps, steps, ← List.sum_append, ← List.map_append, List.take_append_drop, steps]

/-- The parts of a list that is cut have fewer steps to go. -/
theorem cut_lt {β : Type} {e : Nat × β} {l l' : List (Nat × β)} {w : Nat}
    (h : cut 0 none (e :: l) = .ok (w, l')) :
    steps (l'.take w) < steps (e :: l) ∧ steps (l'.drop w) < steps (e :: l) := by
  obtain ⟨rfl, hall⟩ := cut_ok h
  have hlt := steps_mas_lt (List.cons_ne_nil e l) hall
  have hsplit := steps_split ((e :: l).map fun e => (Ut.mas e.1, e.2)) w
  omega

/-- `_molt_apply`. -/
def moltApply (som : Noun) : List (Nat × Noun) → Jet Noun
  | [] => .ok som
  | (axe, x) :: l =>
      if l = [] ∧ axe = 1 then .ok x
      else
        match _h : cut 0 none ((axe, x) :: l) with
        | .error e => .error e
        | .ok (w, l') => do
            let hed ← moltApply (match som with | .atom _ => .atom 0 | .cell a _ => a) (l'.take w)
            let tal ← moltApply (match som with | .atom _ => .atom 0 | .cell _ b => b) (l'.drop w)
            return .cell hed tal
termination_by l => steps l
decreasing_by
  · exact (cut_lt _h).1
  · exact (cut_lt _h).2

/-- `u2_rl_molt`: mutate `som` with a list of axis, noun pairs. -/
def molt (som : Noun) (pms : List (Nat × Noun)) : Jet Noun := moltApply som pms

/-- `_mean_extract`. A pair names the place that its noun is written to; the first failure
ends it. -/
def meanExtract [DecidableEq κ] (som : Noun) (mem : κ → Noun) :
    List (Nat × κ) → Jet (Bool × (κ → Noun))
  | [] => .ok (true, mem)
  | (axe, p) :: l =>
      if l = [] ∧ axe = 1 then .ok (true, Function.update mem p som)
      else
        match som with
        | .atom _ => .ok (false, mem)
        | .cell hed tal =>
            match _h : cut 0 none ((axe, p) :: l) with
            | .error e => .error e
            | .ok (w, l') => do
                let r ← meanExtract hed mem (l'.take w)
                if r.1 then meanExtract tal r.2 (l'.drop w) else return (false, r.2)
termination_by l => steps l
decreasing_by
  · exact (cut_lt _h).1
  · exact (cut_lt _h).2

/-- `u2_mean`: deconstruct `som` by axis, noun pairs. -/
def mean [DecidableEq κ] (som : Noun) (prs : List (Nat × κ)) (mem : κ → Noun) :
    Jet (Bool × (κ → Noun)) :=
  meanExtract som mem prs

/-! ### Axes in tree order -/

/-- An entry behind the first step of its axis. -/
def down {β : Type} (e : Nat × β) : Nat × β := (Ut.mas e.1, e.2)

theorem cut_some {β : Type} {l : List (Nat × β)} (h : ∀ e ∈ l, 2 ≤ e.1) (i w : Nat) :
    cut i (some w) l = .ok (w, l.map down) := by
  induction l generalizing i with
  | nil => rfl
  | cons e l ih =>
      have hlow := h e List.mem_cons_self
      have hrest := ih (fun e he => h e (List.mem_cons_of_mem _ he)) (i + 1)
      rw [← Prod.mk.eta (p := e), cut, if_neg (by omega), if_neg (by simp), hrest, axMas_eq hlow]
      rfl

/-- A list in tree order is cut where its axes turn to the right. -/
theorem cut_append {β : Type} {l r : List (Nat × β)} (hlow : ∀ e ∈ l ++ r, 2 ≤ e.1)
    (hl : ∀ e ∈ l, Ut.cap e.1 = 2) (hr : ∀ e ∈ r, Ut.cap e.1 = 3) (i : Nat) :
    cut i none (l ++ r) = .ok (i + l.length, (l ++ r).map down) := by
  induction l generalizing i with
  | nil =>
      cases r with
      | nil => rfl
      | cons e r =>
          have he := hlow e List.mem_cons_self
          have hrest := cut_some (l := r) (fun e he => hlow e (List.mem_cons_of_mem _ he)) (i + 1) i
          rw [List.nil_append, ← Prod.mk.eta (p := e), cut, if_neg (by omega),
            if_pos ⟨rfl, by rw [axCap_eq he, hr e List.mem_cons_self]⟩, hrest, axMas_eq he]
          rfl
  | cons e l ih =>
      have he := hlow e List.mem_cons_self
      have hrest := ih (fun e he => hlow e (List.mem_cons_of_mem _ he))
        (fun e he => hl e (List.mem_cons_of_mem _ he)) (i + 1)
      have hcap : axCap e.1 ≠ 3 := by
        rw [axCap_eq he, hl e List.mem_cons_self]
        decide
      rw [List.cons_append, ← Prod.mk.eta (p := e), cut, if_neg (by omega),
        if_neg (fun hand => hcap hand.2), hrest, axMas_eq he, List.length_cons]
      simp only [bind, Except.bind, pure, Except.pure, List.map_cons, down]
      congr 2
      omega

/-- The axes of a list in tree order turn to the left first. -/
theorem split_caps {β : Type} {l : List (Nat × β)} (hord : l.Pairwise fun x y => Before x.1 y.1)
    (hlow : ∀ e ∈ l, 2 ≤ e.1) :
    ∃ l₂ l₃, l = l₂ ++ l₃ ∧ (∀ e ∈ l₂, Ut.cap e.1 = 2) ∧ ∀ e ∈ l₃, Ut.cap e.1 = 3 := by
  induction l with
  | nil => exact ⟨[], [], rfl, (fun _ he => nomatch he), (fun _ he => nomatch he)⟩
  | cons e l ih =>
      obtain ⟨hfirst, hrest⟩ := List.pairwise_cons.mp hord
      rcases cap_two_or_three (hlow e List.mem_cons_self) with hc | hc
      · obtain ⟨l₂, l₃, rfl, h₂, h₃⟩ := ih hrest fun e he => hlow e (List.mem_cons_of_mem _ he)
        refine ⟨e :: l₂, l₃, rfl, fun x hx => ?_, h₃⟩
        rcases List.mem_cons.mp hx with rfl | hx
        · exact hc
        · exact h₂ x hx
      · refine ⟨[], e :: l, rfl, (fun _ he => nomatch he), fun x hx => ?_⟩
        rcases List.mem_cons.mp hx with rfl | hx
        · exact hc
        · obtain ⟨-, -, ⟨htwo, -⟩ | ⟨hsame, -⟩⟩ := (hfirst x hx).step
          · omega
          · rw [← hsame, hc]

/-- Axes below 2 stand alone in a list in tree order. -/
theorem two_le_of_before {β : Type} {l : List (Nat × β)}
    (hord : l.Pairwise fun x y => Before x.1 y.1) (hpos : ∀ e ∈ l, 0 < e.1)
    (hone : ∀ x, l ≠ [(1, x)]) : ∀ e ∈ l, 2 ≤ e.1 := by
  intro e he
  obtain ⟨xs, ys, rfl⟩ := List.append_of_mem he
  rw [List.pairwise_append, List.pairwise_cons] at hord
  obtain ⟨-, ⟨hys, -⟩, hcross⟩ := hord
  cases xs with
  | cons x xs => exact (hcross x List.mem_cons_self e List.mem_cons_self).step.2.1
  | nil =>
      cases ys with
      | cons y ys => exact (hys y List.mem_cons_self).step.1
      | nil =>
          have he0 := hpos e he
          have he1 : e.1 ≠ 1 := fun h1 => hone e.2 (by rw [← h1]; rfl)
          omega

/-- The way both go: with no axis to go, at the noun itself, or with the left axes into the head
and the right ones into the tail. -/
theorem tree_induct {β : Type} {motive : Noun → List (Nat × β) → Prop}
    (nil : ∀ som, motive som []) (here : ∀ som x, motive som [(1, x)])
    (cell : ∀ hed tal e l, ∀ l₂ l₃ : List (Nat × β), e :: l = l₂ ++ l₃ → ¬(l = [] ∧ e.1 = 1) →
      (∀ x ∈ l₂, 2 ≤ x.1 ∧ Ut.cap x.1 = 2) → (∀ x ∈ l₃, 2 ≤ x.1 ∧ Ut.cap x.1 = 3) →
      cut 0 none (e :: l) = .ok (l₂.length, l₂.map down ++ l₃.map down) →
      motive hed (l₂.map down) → motive tal (l₃.map down) → motive (.cell hed tal) (e :: l))
    {som : Noun} {l : List (Nat × β)} (hord : l.Pairwise fun x y => Before x.1 y.1)
    (hex : ∀ e ∈ l, (slot e.1 som).isSome) : motive som l := by
  induction hk : steps l using Nat.strongRecOn generalizing som l with
  | ind k ih =>
      cases l with
      | nil => exact nil som
      | cons e l =>
          by_cases hone : l = [] ∧ e.1 = 1
          · obtain ⟨rfl, h1⟩ := hone
            rw [← Prod.mk.eta (p := e), h1]
            exact here som e.2
          have hlow : ∀ x ∈ e :: l, 2 ≤ x.1 := by
            refine two_le_of_before hord (fun x hx => ?_) fun x hx => ?_
            · exact pos_of_slot (Option.get_mem (hex x hx))
            · obtain ⟨rfl, rfl⟩ := List.cons.inj hx
              exact hone ⟨rfl, rfl⟩
          obtain ⟨l₂, l₃, hsplit, h₂, h₃⟩ := split_caps hord hlow
          have hcut := cut_append (hsplit ▸ hlow) h₂ h₃ 0
          rw [← hsplit, Nat.zero_add] at hcut
          have hlt := cut_lt hcut
          rw [hsplit, List.map_append, ← List.length_map (f := down), List.take_left,
            List.drop_left, ← hsplit, hk] at hlt
          rw [hsplit, List.map_append, ← hsplit] at hcut
          rw [hsplit] at hord hlow hex
          rw [List.pairwise_append] at hord
          cases som with
          | atom x =>
              have hsome := hex e (by rw [← hsplit]; exact List.mem_cons_self)
              rw [slot_atom (hlow e (by rw [← hsplit]; exact List.mem_cons_self))] at hsome
              cases hsome
          | cell hed tal =>
              have hdown : ∀ l' : List (Nat × β), ∀ c, (∀ x ∈ l', 2 ≤ x.1 ∧ Ut.cap x.1 = c) →
                  (l'.Pairwise fun x y => Before x.1 y.1) →
                  (l'.map down).Pairwise fun x y => Before x.1 y.1 := by
                intro l' c hl' hp
                rw [List.pairwise_map]
                refine hp.imp_of_mem fun {x y} hx hy hxy => ?_
                obtain ⟨-, -, ⟨h2, h3⟩ | ⟨-, hb⟩⟩ := hxy.step
                · have hxc := (hl' x hx).2
                  have hyc := (hl' y hy).2
                  omega
                · exact hb
              have hl₂ : ∀ x ∈ l₂, 2 ≤ x.1 ∧ Ut.cap x.1 = 2 := fun x hx =>
                ⟨hlow x (List.mem_append_left _ hx), h₂ x hx⟩
              have hl₃ : ∀ x ∈ l₃, 2 ≤ x.1 ∧ Ut.cap x.1 = 3 := fun x hx =>
                ⟨hlow x (List.mem_append_right _ hx), h₃ x hx⟩
              refine cell hed tal e l l₂ l₃ hsplit hone hl₂ hl₃ hcut
                (ih _ hlt.1 (hdown l₂ 2 hl₂ hord.1) (fun x hx => ?_) rfl)
                (ih _ hlt.2 (hdown l₃ 3 hl₃ hord.2.1) (fun x hx => ?_) rfl)
              · obtain ⟨y, hy, rfl⟩ := List.mem_map.mp hx
                have hsome := hex y (List.mem_append_left _ hy)
                rwa [slot_cell (hl₂ y hy).1, if_pos (hl₂ y hy).2] at hsome
              · obtain ⟨y, hy, rfl⟩ := List.mem_map.mp hx
                have hsome := hex y (List.mem_append_right _ hy)
                rwa [slot_cell (hl₃ y hy).1, if_neg (by rw [(hl₃ y hy).2]; decide)] at hsome

/-! ### What the two do -/

/-- At an axis of a cell, what is at the rest of it in the half that it turns to. -/
theorem slot_down {β : Type} {e : Nat × β} {c : Nat} (h : 2 ≤ e.1 ∧ Ut.cap e.1 = c)
    (hed tal : Noun) :
    slot e.1 (.cell hed tal) = slot (down e).1 (if c = 2 then hed else tal) := by
  rw [slot_cell h.1, h.2]
  rfl

/-- `u2_rl_molt` puts each noun at its axis, and changes nothing elsewhere. -/
theorem molt_spec {som : Noun} {pms : List (Nat × Noun)}
    (hord : pms.Pairwise fun x y => Before x.1 y.1) (hex : ∀ e ∈ pms, (slot e.1 som).isSome) :
    ∃ r, moltApply som pms = .ok r ∧ (∀ e ∈ pms, slot e.1 r = some e.2)
      ∧ ∀ b, 0 < b → (∀ e ∈ pms, Ut.Disjoint e.1 b) → slot b r = slot b som := by
  refine tree_induct (motive := fun som pms => ∃ r, moltApply som pms = .ok r
      ∧ (∀ e ∈ pms, slot e.1 r = some e.2)
      ∧ ∀ b, 0 < b → (∀ e ∈ pms, Ut.Disjoint e.1 b) → slot b r = slot b som)
    (fun som => ?_) (fun som x => ?_) ?_ hord hex
  · exact ⟨som, by simp only [moltApply], (fun _ he => nomatch he), fun _ _ _ => rfl⟩
  · refine ⟨x, by rw [moltApply.eq_def]; exact if_pos ⟨rfl, rfl⟩, fun e he => ?_, fun b hb hdis => ?_⟩
    · rw [List.mem_singleton.mp he, slot_one]
    · exact absurd (within_one hb) (hdis _ (List.mem_singleton_self _)).1
  · intro hed tal e l l₂ l₃ hsplit hone h₂ h₃ hcut ⟨r₂, hr₂, hat₂, helse₂⟩ ⟨r₃, hr₃, hat₃, helse₃⟩
    refine ⟨.cell r₂ r₃, ?_, fun x hx => ?_, fun b hb hdis => ?_⟩
    · obtain ⟨axe, v⟩ := e
      rw [moltApply, if_neg hone]
      split
      · next h =>
        rw [hcut] at h
        cases h
      · next w l' h =>
        rw [hcut] at h
        cases h
        rw [← List.length_map (f := down), List.take_left, List.drop_left]
        simp only [hr₂, hr₃, bind, Except.bind, pure, Except.pure]
    · rw [hsplit] at hx
      rcases List.mem_append.mp hx with hx | hx
      · rw [slot_down (h₂ x hx), if_pos rfl]
        exact hat₂ _ (List.mem_map_of_mem hx)
      · rw [slot_down (h₃ x hx), if_neg (by decide)]
        exact hat₃ _ (List.mem_map_of_mem hx)
    · rw [hsplit] at hdis
      have hb2 : 2 ≤ b := by
        have hmem : e ∈ l₂ ++ l₃ := by
          rw [← hsplit]
          exact List.mem_cons_self
        by_contra hlow
        obtain rfl : b = 1 := by omega
        have hpos : 0 < e.1 := by
          rcases List.mem_append.mp hmem with he | he
          · have := (h₂ e he).1
            omega
          · have := (h₃ e he).1
            omega
        exact (hdis e hmem).2 (within_one hpos)
      rw [slot_cell hb2, slot_cell hb2]
      rcases cap_two_or_three hb2 with hc | hc
      · rw [if_pos hc, if_pos hc]
        refine helse₂ _ (mas_pos hb2) fun y hy => ?_
        obtain ⟨x, hx, rfl⟩ := List.mem_map.mp hy
        exact (hdis x (List.mem_append_left _ hx)).mas (h₂ x hx).1 hb2 (by rw [(h₂ x hx).2, hc])
      · rw [if_neg (by rw [hc]; decide), if_neg (by rw [hc]; decide)]
        refine helse₃ _ (mas_pos hb2) fun y hy => ?_
        obtain ⟨x, hx, rfl⟩ := List.mem_map.mp hy
        exact (hdis x (List.mem_append_right _ hx)).mas (h₃ x hx).1 hb2 (by rw [(h₃ x hx).2, hc])

/-- `u2_mean` writes to each place the noun at its axis, and to no other place. -/
theorem mean_spec [DecidableEq κ] {som : Noun} {prs : List (Nat × κ)}
    (hord : prs.Pairwise fun x y => Before x.1 y.1) (hex : ∀ e ∈ prs, (slot e.1 som).isSome)
    (hnd : (prs.map Prod.snd).Nodup) (mem : κ → Noun) :
    ∃ mem', meanExtract som mem prs = .ok (true, mem')
      ∧ (∀ e ∈ prs, slot e.1 som = some (mem' e.2)) ∧ ∀ p ∉ prs.map Prod.snd, mem' p = mem p := by
  refine tree_induct (motive := fun som prs => (prs.map Prod.snd).Nodup → ∀ mem : κ → Noun,
    ∃ mem', meanExtract som mem prs = .ok (true, mem')
      ∧ (∀ e ∈ prs, slot e.1 som = some (mem' e.2)) ∧ ∀ p ∉ prs.map Prod.snd, mem' p = mem p)
    (fun som hnd mem => ?_) (fun som x hnd mem => ?_) ?_ hord hex hnd mem
  · exact ⟨mem, by simp only [meanExtract], (fun _ he => nomatch he), fun _ _ => rfl⟩
  · refine ⟨Function.update mem x som, by rw [meanExtract.eq_def]; exact if_pos ⟨rfl, rfl⟩, fun e he => ?_,
      fun p hp => ?_⟩
    · rw [List.mem_singleton.mp he, slot_one, Function.update_self]
    · exact Function.update_of_ne (fun h => hp (by simp [h])) _ _
  · intro hed tal e l l₂ l₃ hsplit hone h₂ h₃ hcut ih₂ ih₃ hnd mem
    have hsnd : ∀ k : List (Nat × κ), (k.map down).map Prod.snd = k.map Prod.snd := by
      intro k
      rw [List.map_map]
      rfl
    rw [hsplit, List.map_append, List.nodup_append] at hnd
    obtain ⟨hnd₂, hnd₃, happart⟩ := hnd
    obtain ⟨mem₂, hr₂, hat₂, helse₂⟩ := ih₂ (by rwa [hsnd]) mem
    obtain ⟨mem₃, hr₃, hat₃, helse₃⟩ := ih₃ (by rwa [hsnd]) mem₂
    rw [hsnd] at helse₂ helse₃
    refine ⟨mem₃, ?_, fun x hx => ?_, fun p hp => ?_⟩
    · obtain ⟨axe, v⟩ := e
      rw [meanExtract, if_neg hone]
      split
      · next h =>
        rw [hcut] at h
        cases h
      · next w l' h =>
        rw [hcut] at h
        cases h
        rw [← List.length_map (f := down), List.take_left, List.drop_left]
        simp only [hr₂, hr₃, bind, Except.bind, if_true]
    · rw [hsplit] at hx
      rcases List.mem_append.mp hx with hx | hx
      · -- the right half does not write over it
        have hkeep : mem₃ x.2 = mem₂ x.2 :=
          helse₃ _ fun h => happart x.2 (List.mem_map_of_mem hx) x.2 h rfl
        rw [slot_down (h₂ x hx), if_pos rfl, hkeep]
        exact hat₂ _ (List.mem_map_of_mem hx)
      · rw [slot_down (h₃ x hx), if_neg (by decide)]
        exact hat₃ _ (List.mem_map_of_mem hx)
    · rw [hsplit, List.map_append, List.mem_append, not_or] at hp
      rw [helse₃ p hp.2, helse₂ p hp.1]

/-- Axes in tree order that a noun has. `u2_rl_molt` puts a noun at each of them and changes
nothing at the axes apart from them; `u2_mean` writes what `u2_frag` finds at each of them to its
place, and writes no other place. -/
theorem molt_mean (n : Noun) :
    (∀ pms : List (Nat × Noun), (pms.Pairwise fun x y => Before x.1 y.1) →
      (∀ e ∈ pms, (frag e.1 n).isSome) →
      ∃ r, molt n pms = .ok r ∧ (∀ e ∈ pms, frag e.1 r = some e.2)
        ∧ ∀ b, 0 < b → (∀ e ∈ pms, Ut.Disjoint e.1 b) → frag b r = frag b n) ∧
    ∀ (κ : Type) [DecidableEq κ] (prs : List (Nat × κ)),
      (prs.Pairwise fun x y => Before x.1 y.1) → (∀ e ∈ prs, (frag e.1 n).isSome) →
      (prs.map Prod.snd).Nodup → ∀ mem, ∃ mem', mean n prs mem = .ok (true, mem')
        ∧ (∀ e ∈ prs, frag e.1 n = some (mem' e.2))
        ∧ ∀ p ∉ prs.map Prod.snd, mem' p = mem p := by
  simp only [frag_eq_slot]
  exact ⟨fun pms hord hex => molt_spec hord hex, fun κ _ prs hord hex hnd mem =>
    mean_spec hord hex hnd mem⟩

/-- The tail of a pair before its head: the cut sends both into the tail. -/
theorem mean_unsorted :
    mean (.cell (.atom 1) (.atom 2)) [(3, true), (2, false)] (fun _ => .atom 0)
        = .ok (false, fun _ => .atom 0)
      ∧ frag 3 (.cell (.atom 1) (.atom 2)) = some (.atom 2)
      ∧ frag 2 (.cell (.atom 1) (.atom 2)) = some (.atom 1) := by
  refine ⟨?_, by decide, by decide⟩
  have hcut : cut 0 none [(3, true), (2, false)] = .ok (0, [(1, true), (1, false)]) := by decide
  rw [mean, meanExtract, if_neg (by decide)]
  split
  · next h =>
    rw [hcut] at h
    cases h
  · next w l' h =>
    rw [hcut] at h
    cases h
    rw [List.take_zero, List.drop_zero, meanExtract]
    simp only [bind, Except.bind, if_true]
    rw [meanExtract, if_neg (by decide)]

end Vere.Nock
