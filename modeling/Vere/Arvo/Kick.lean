import Vere.Arvo.Ducts

/-!
# Vere.Arvo.Kick

The main loop of the core with its list of moves is a recursion: a move, then all that comes of
it, then the next move (`kick_iff`). So an event does what its moves do one by one
(`kick_append`), the vanes stay what and where they are, and none changes that is not given a card
(`runs_keeps`).
-/

namespace Vere.Arvo

open Vere.Lib

section Kick

variable {Mill Vase Curd : Type} {ven : Vent Mill Vase Curd} {now : Nat}

theorem kick_eq_loop (n : Nat) (mor : List (Muse Mill)) (ova : List (Ovum Curd))
    (fan : Fan Vase) : kick ven now n mor ova fan = Agenda.loop (jack ven now) n mor ova fan := by
  induction n generalizing mor ova fan with
  | zero => cases mor <;> rfl
  | succ n ih =>
      cases mor with
      | nil => rfl
      | cons i mor =>
          rw [kick, Agenda.loop]
          cases jack ven now i fan with
          | none => rfl
          | some nyx => exact ih _ _ _

/-- The loop ends with a result just when the recursion has it. -/
theorem kick_iff {mor : List (Muse Mill)} {ova : List (Ovum Curd)} {fan fan' : Fan Vase} :
    (∃ n, kick ven now n mor [] fan = some (ova, fan')) ↔
      Agenda.Does (jack ven now) mor fan ova fan' := by
  simp only [kick_eq_loop]
  exact Agenda.loop_iff

/-- All that comes of the first moves is done before the moves behind them. -/
theorem kick_append {as bs : List (Muse Mill)} {ova : List (Ovum Curd)} {fan fan' : Fan Vase} :
    (∃ n, kick ven now n (as ++ bs) [] fan = some (ova, fan')) ↔
      ∃ ova₁ fan₁ ova₂, (∃ n, kick ven now n as [] fan = some (ova₁, fan₁)) ∧
        (∃ n, kick ven now n bs [] fan₁ = some (ova₂, fan')) ∧ ova = ova₁ ++ ova₂ := by
  simp only [kick_eq_loop, Agenda.loop_iff]
  constructor
  · exact Agenda.Does.split
  · rintro ⟨ova₁, fan₁, ova₂, h₁, h₂, rfl⟩
    exact h₁.append h₂

/-! ### What a card changes -/

/-- The vane of a name: the first. -/
def vane (fan : Fan Vase) (lal : Nat) : Option Vase := (fan.find? fun i => lal = i.1).map Prod.snd

/-- Vanes that are as they were, but for those that a log gives a card. -/
structure Keeps (new : List Entry) (fan fan' : Fan Vase) : Prop where
  names : fan'.map Prod.fst = fan.map Prod.fst
  vanes : ∀ lal, (∀ pux hen, .fire lal pux hen ∉ new) → vane fan' lal = vane fan lal

theorem Keeps.trans {new new' : List Entry} {fan fan₁ fan₂ : Fan Vase} (h : Keeps new fan fan₁)
    (h' : Keeps new' fan₁ fan₂) : Keeps (new' ++ new) fan fan₂ := by
  refine ⟨h'.names.trans h.names, fun lal hlal => ?_⟩
  have hlate := h'.vanes lal fun pux hen hf => hlal pux hen (List.mem_append_left _ hf)
  exact hlate.trans (h.vanes lal fun pux hen hf => hlal pux hen (List.mem_append_right _ hf))

theorem fireLoop_keeps {org lal : Nat} {pux : Option Wire} {hen : Duct} {hil : Mill}
    {fan naf : Fan Vase} {tuh : List (Muse Mill) × Fan Vase}
    (h : fireLoop ven now fan org lal pux hen hil naf = some tuh) :
    tuh.2.map Prod.fst = naf.map Prod.fst ∧ ∀ lal', lal' ≠ lal → vane tuh.2 lal' = vane naf lal' := by
  induction naf generalizing tuh with
  | nil =>
      cases h
      exact ⟨rfl, fun _ _ => rfl⟩
  | cons i naf ih =>
      obtain ⟨p, q⟩ := i
      rw [fireLoop] at h
      split at h
      next heq =>
        obtain ⟨fiq, -, h⟩ := Option.bind_eq_some_iff.1 h
        cases h
        refine ⟨rfl, fun lal' hne => ?_⟩
        have hp : lal' ≠ p := heq ▸ hne
        simp [vane, hp]
      next hne =>
        obtain ⟨tuh', htuh, h⟩ := Option.bind_eq_some_iff.1 h
        cases h
        obtain ⟨hnames, hvanes⟩ := ih htuh
        refine ⟨congrArg (p :: ·) hnames, fun lal' hlal => ?_⟩
        have hrest := hvanes lal' hlal
        by_cases hp : lal' = p
        · simp [vane, hp]
        · simpa [vane, List.find?_cons, hp] using hrest

theorem jack_keeps {i : Muse Mill} {fan : Fan Vase}
    {nyx : List (Ovum Curd) × List (Muse Mill) × Fan Vase} (h : jack ven now i fan = some nyx) :
    Keeps i.entries fan nyx.2.2 := by
  obtain ⟨⟨lal, pux, hen, hil⟩, hx, h⟩ := Option.bind_eq_some_iff.1 h
  obtain ⟨w, rfl, rfl, rfl⟩ | ⟨hland, -, hloop⟩ := fire_cases h
  · exact ⟨rfl, fun _ _ => rfl⟩
  · obtain ⟨hnames, hvanes⟩ := fireLoop_keeps hloop
    refine ⟨hnames, fun lal' hlal => hvanes lal' ?_⟩
    rintro rfl
    refine hlal pux hen ?_
    rw [Muse.entries, hx]
    simp only [hland]
    exact List.mem_cons_self

theorem Core.step_keeps {s s' : Core Mill Vase Curd} {a : Act Curd}
    (h : Core.step ven a s = some s') : ∃ new, s'.log = new ++ s.log ∧ Keeps new s.fan s'.fan := by
  obtain ⟨fan, mor, ova, log⟩ := s
  cases a with
  | poke ovo =>
      cases mor with
      | cons i mor => cases h
      | nil =>
          obtain ⟨gum, -, h⟩ := Option.bind_eq_some_iff.1 h
          cases h
          exact ⟨[.event ovo.p], rfl, rfl, fun _ _ => rfl⟩
  | jack now =>
      cases mor with
      | nil => cases h
      | cons i mor =>
          obtain ⟨nyx, hnyx, h⟩ := Option.bind_eq_some_iff.1 h
          cases h
          exact ⟨i.entries, rfl, jack_keeps hnyx⟩

/-- In every run the vanes stay what they are and where they are, and a vane that the log gives no
card does not change. -/
theorem runs_keeps (acts : List (Act Curd)) {s s' : Core Mill Vase Curd}
    (h : runs (Core.step ven) acts s = some s') :
    ∃ new, s'.log = new ++ s.log ∧ Keeps new s.fan s'.fan := by
  induction acts generalizing s with
  | nil =>
      cases h
      exact ⟨[], rfl, rfl, fun _ _ => rfl⟩
  | cons a acts ih =>
      obtain ⟨s₁, hstep, h⟩ := Option.bind_eq_some_iff.1 h
      obtain ⟨new, hlog, hkeeps⟩ := Core.step_keeps hstep
      obtain ⟨new', hlog', hkeeps'⟩ := ih h
      exact ⟨new' ++ new, by rw [hlog', hlog, List.append_assoc], hkeeps.trans hkeeps'⟩

end Kick

/-- An event at a terminal, and the request that comes of it: only that vane is given a card. -/
theorem runs_keeps_echo : ∃ (s : Core Nat Bool Nat) (new : List Entry),
    runs (Core.step echo) [.poke ⟨[0, Hoon.cord "term".toList, 1], 5⟩, .jack 0]
      (Core.init [('d'.toNat, true), ('a'.toNat, false)]) = some s ∧
      s.log = new ++ [] ∧ Keeps new [('d'.toNat, true), ('a'.toNat, false)] s.fan := by
  obtain ⟨s, hs⟩ : ∃ s, runs (Core.step echo) [.poke ⟨[0, Hoon.cord "term".toList, 1], 5⟩, .jack 0]
      (Core.init [('d'.toNat, true), ('a'.toNat, false)]) = some s := ⟨_, rfl⟩
  obtain ⟨new, hlog, hkeeps⟩ := runs_keeps _ hs
  exact ⟨s, new, hs, hlog, hkeeps⟩

end Vere.Arvo
