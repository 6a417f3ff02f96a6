import Vere.Arvo.Core
import Vere.Lib.Reach

/-!
# Vere.Arvo.Ducts

What ducts are good for: a vane hears no response that it did not ask for, and no card leaves the
core but in response to an event (`asked_before`). This takes vanes that move on no duct but one
they were given: the core does not check it (`Honest`).

The runs are those of the list of moves that `kick` works off, one `jack` after another, event
after event (`Core.step`); what has happened is kept in a log.
-/

namespace Vere.Arvo

open Vere.Hoon Vere.Lib

/-- What has happened. -/
inductive Entry
  /-- An event came in on a wire. -/
  | event (p : Wire)
  /-- A vane passed a card on a wire, on a duct. -/
  | pass (org : Nat) (p : Wire) (hen : Duct)
  /-- A vane is given a card on a duct: a request, or a response on a wire. -/
  | fire (lal : Nat) (pux : Option Wire) (hen : Duct)
  /-- A card left on a wire. -/
  | gift (p : Wire)

/-- The core at work, with the moves that are still to be made and the log, the latest first. -/
structure Core (Mill Vase Curd : Type) where
  fan : Fan Vase
  mor : List (Muse Mill)
  ova : List (Ovum Curd)
  log : List Entry

/-- An event, or a step of the loop. -/
inductive Act (Curd : Type)
  | poke (ovo : Ovum Curd)
  | jack (now : Nat)

section Step

variable {Mill Vase Curd : Type} (ven : Vent Mill Vase Curd)

/-- Where a card goes: to a vane, or out. -/
def landing (lal : Nat) : Option Wire → Duct → Entry
  | some w, [] => .gift (lal :: w)
  | pux, hen => .fire lal pux hen

/-- What a move adds to the log. -/
def Muse.entries (gum : Muse Mill) : List Entry :=
  let sent := match gum.r with
    | .pass p _ _ => [.pass gum.p p gum.q]
    | _ => []
  match gum.aim with
  | none => sent
  | some (lal, pux, hen, _) => landing lal pux hen :: sent

/-- An event begins when the one before it is done. -/
def Core.step : Act Curd → Core Mill Vase Curd → Option (Core Mill Vase Curd)
  | .poke ovo, s =>
      match s.mor with
      | [] => do return ⟨s.fan, [← first ven ovo], [], .event ovo.p :: s.log⟩
      | _ :: _ => none
  | .jack now, s =>
      match s.mor with
      | [] => none
      | i :: mor => do
          let nyx ← jack ven now i s.fan
          return ⟨nyx.2.2, nyx.2.1 ++ mor, nyx.1 ++ s.ova, i.entries ++ s.log⟩

/-- Before the first event. -/
def Core.init (fan : Fan Vase) : Core Mill Vase Curd := ⟨fan, [], [], []⟩

/-- A vane was given a duct. -/
def Heard (log : List Entry) (lal : Nat) (hen : Duct) : Prop := ∃ pux, .fire lal pux hen ∈ log

/-- A vane that makes moves makes them on ducts that it was given. -/
def Honest (s : Core Mill Vase Curd) : Act Curd → Prop
  | .poke _ => True
  | .jack now => ∀ i mor nyx, s.mor = i :: mor → jack ven now i s.fan = some nyx →
      ∀ m ∈ nyx.2.1, Heard (i.entries ++ s.log) m.p m.q

end Step

/-- A duct all of whose wires were passed, the last of them by an event. -/
def Made (log : List Entry) : Duct → Prop
  | [] => True
  | [] :: _ => False
  | (i :: t) :: hen => .pass i t hen ∈ log ∧ (hen = [] → .event (i :: t) ∈ log) ∧ Made log hen

theorem Made.mono {log log' : List Entry} (h : ∀ e ∈ log, e ∈ log') {hen : Duct}
    (hm : Made log hen) : Made log' hen := by
  induction hen with
  | nil => exact hm
  | cons w hen ih =>
      cases w with
      | nil => exact hm
      | cons i t => exact ⟨h _ hm.1, fun he => h _ (hm.2.1 he), ih hm.2.2⟩

/-- What an entry needs of the log before it: a response was asked for, and what leaves answers an
event. -/
def Asked (log : List Entry) : Entry → Prop
  | .fire lal (some w) hen => .pass lal w hen ∈ log
  | .gift p => .event p ∈ log
  | _ => True

/-- A log in which every entry has what it needs. -/
def Sound : List Entry → Prop
  | [] => True
  | e :: log => Asked log e ∧ Sound log

theorem Sound.before {l₁ l₂ : List Entry} {e : Entry} (h : Sound (l₁ ++ e :: l₂)) : Asked l₂ e := by
  induction l₁ with
  | nil => exact h.1
  | cons a l₁ ih => exact ih h.2

/-- A move that is still to be made, and where it came from: from an event, or from a vane that
was given its duct. -/
def Muse.Known {Mill : Type} (log : List Entry) (gum : Muse Mill) : Prop :=
  Made log gum.q ∧ (gum.q = [] → ∃ p lal q, gum.r = .pass p lal q ∧ .event (gum.p :: p) ∈ log)

/-- What holds of the core at all times. -/
structure Core.Ok {Mill Vase Curd : Type} (s : Core Mill Vase Curd) : Prop where
  sound : Sound s.log
  events : ∀ p, .event p ∈ s.log → 2 ≤ p.length
  heard : ∀ lal pux hen, .fire lal pux hen ∈ s.log → Made s.log hen ∧ hen ≠ []
  known : ∀ gum ∈ s.mor, gum.Known s.log
  out : ∀ o ∈ s.ova, .gift o.p ∈ s.log

section Run

variable {Mill Vase Curd : Type} {ven : Vent Mill Vase Curd} {s s' : Core Mill Vase Curd}

theorem Muse.Known.mono {log log' : List Entry} (h : ∀ e ∈ log, e ∈ log') {gum : Muse Mill}
    (hg : gum.Known log) : gum.Known log' := by
  refine ⟨hg.1.mono h, fun he => ?_⟩
  obtain ⟨p, lal, q, hr, hevent⟩ := hg.2 he
  exact ⟨p, lal, q, hr, h _ hevent⟩

theorem dint_length {p : Wire} {lal : Nat} (h : dint p = some lal) : 2 ≤ p.length := by
  match p with
  | [] => cases h
  | [_] => cases h
  | _ :: _ :: _ => simp

/-- What a move adds to the log has what it needs, and is a duct that was made. -/
structure Adds (log : List Entry) (gum : Muse Mill) : Prop where
  sound : Sound (gum.entries ++ log)
  events : ∀ p, .event p ∈ gum.entries ++ log → .event p ∈ log
  heard : ∀ lal pux hen, .fire lal pux hen ∈ gum.entries →
    Made (gum.entries ++ log) hen ∧ hen ≠ []

/-- A card that goes to a vane on a duct. -/
theorem adds_landing {log : List Entry} (hs : Sound log) (lal : Nat) (pux : Option Wire)
    {hen : Duct} (hm : Made log hen) (hne : hen = [] → pux ≠ none)
    (hpass : ∀ w, pux = some w → .pass lal w hen ∈ log)
    (hevent : ∀ w, pux = some w → hen = [] → .event (lal :: w) ∈ log) :
    Sound (landing lal pux hen :: log) ∧
      (∀ p, .event p ∈ landing lal pux hen :: log → .event p ∈ log) ∧
      ∀ lal' pux' hen', .fire lal' pux' hen' ∈ [landing lal pux hen] →
        Made (landing lal pux hen :: log) hen' ∧ hen' ≠ [] := by
  have hweak : ∀ e ∈ log, e ∈ landing lal pux hen :: log := fun e he => List.mem_cons_of_mem _ he
  cases hen with
  | nil =>
      cases pux with
      | none => exact absurd rfl (hne rfl)
      | some w =>
          refine ⟨⟨hevent w rfl rfl, hs⟩, ?_, ?_⟩
          · intro p hp
            rcases List.mem_cons.1 hp with hp | hp
            · cases hp
            · exact hp
          · intro lal' pux' hen' hf
            cases List.mem_singleton.1 hf
  | cons x hen =>
      have hland : landing lal pux (x :: hen) = .fire lal pux (x :: hen) := by
        cases pux <;> rfl
      rw [hland] at hweak ⊢
      refine ⟨⟨?_, hs⟩, ?_, ?_⟩
      · cases pux with
        | none => trivial
        | some w => exact hpass w rfl
      · intro p hp
        rcases List.mem_cons.1 hp with hp | hp
        · cases hp
        · exact hp
      · intro lal' pux' hen' hf
        cases List.mem_singleton.1 hf
        exact ⟨hm.mono hweak, List.cons_ne_nil _ _⟩

/-- A card that goes where a duct that was made says. -/
theorem Muse.adds {log : List Entry} {gum : Muse Mill} (hk : gum.Known log) (hs : Sound log)
    (hevents : ∀ p, .event p ∈ log → 2 ≤ p.length) {x : Nat × Option Wire × Duct × Mill}
    (ha : gum.aim = some x) : Adds log gum := by
  obtain ⟨org, q, r⟩ := gum
  obtain ⟨hmade, hroot⟩ := hk
  cases r with
  | pass p lal hil =>
      have hs₁ : Sound (.pass org p q :: log) := ⟨trivial, hs⟩
      have hweak : ∀ e ∈ log, e ∈ Entry.pass org p q :: log := fun e => List.mem_cons_of_mem _
      have hmade₁ : Made (.pass org p q :: log) ((org :: p) :: q) := by
        refine ⟨List.mem_cons_self, fun he => ?_, hmade.mono hweak⟩
        obtain ⟨p', lal', hil', hr, hevent⟩ := hroot he
        cases hr
        exact hweak _ hevent
      obtain ⟨hsound, hev, hheard⟩ := adds_landing hs₁ lal none hmade₁
        (fun he => absurd he (List.cons_ne_nil _ _)) (fun w hw => nomatch hw)
        (fun w hw => nomatch hw)
      refine ⟨hsound, fun p' hp' => ?_, fun lal' pux' hen' hf => ?_⟩
      · rcases List.mem_cons.1 (hev p' hp') with hp' | hp'
        · cases hp'
        · exact hp'
      · rcases List.mem_cons.1 hf with hf | hf
        · exact hheard lal' pux' hen' (List.mem_singleton.2 hf)
        · cases List.mem_singleton.1 hf
  | give hil =>
      match q with
      | [] => cases ha
      | [] :: q => cases ha
      | (i :: t) :: q =>
          obtain ⟨hpass, hevent, hm⟩ := hmade
          obtain ⟨hsound, hev, hheard⟩ := adds_landing hs i (some t) hm
            (fun _ hn => nomatch hn) (fun w hw => by cases hw; exact hpass)
            (fun w hw he => by cases hw; exact hevent he)
          exact ⟨hsound, hev, hheard⟩
  | slip lal hil =>
      have hne : q ≠ [] := fun he => by
        obtain ⟨p', lal', hil', hr, -⟩ := hroot he
        cases hr
      obtain ⟨hsound, hev, hheard⟩ := adds_landing hs lal none hmade
        (fun he => absurd he hne) (fun w hw => nomatch hw) (fun w hw => nomatch hw)
      exact ⟨hsound, hev, hheard⟩
  | sick hil =>
      match q with
      | [] => cases ha
      | [] :: q => cases ha
      | (i :: []) :: q =>
          obtain ⟨-, hevent, hm⟩ := hmade
          -- An event has a wire of two at least, so that this one is not its.
          have hne : q ≠ [] := fun he => by
            have hlen := hevents _ (hevent he)
            simp at hlen
          obtain ⟨hsound, hev, hheard⟩ := adds_landing hs i none hm
            (fun he => absurd he hne) (fun w hw => nomatch hw) (fun w hw => nomatch hw)
          exact ⟨hsound, hev, hheard⟩
      | (i :: x :: t) :: q =>
          obtain ⟨hpass, hevent, hm⟩ := hmade
          obtain ⟨hsound, hev, hheard⟩ := adds_landing hs i (some (x :: t)) hm
            (fun _ hn => nomatch hn) (fun w hw => by cases hw; exact hpass)
            (fun w hw he => by cases hw; exact hevent he)
          exact ⟨hsound, hev, hheard⟩

theorem first_eq {ovo : Ovum Curd} {gum : Muse Mill} (h : first ven ovo = some gum) :
    gum.q = [] ∧ 2 ≤ ovo.p.length ∧ ∃ p lal q, gum.r = .pass p lal q ∧ gum.p :: p = ovo.p := by
  obtain ⟨p, q⟩ := ovo
  cases p with
  | nil => cases h
  | cons i t =>
      obtain ⟨lal, hlal, h⟩ := Option.bind_eq_some_iff.1 h
      cases h
      exact ⟨rfl, dint_length hlal, t, lal, _, rfl, rfl⟩

theorem fire_cases {now org lal : Nat} {pux : Option Wire} {hen : Duct} {hil : Mill}
    {fan : Fan Vase} {nyx : List (Ovum Curd) × List (Muse Mill) × Fan Vase}
    (h : fire ven now org lal pux hen hil fan = some nyx) :
    (∃ w, pux = some w ∧ hen = [] ∧ nyx = ([⟨lal :: w, ven.curd hil⟩], [], fan)) ∨
      (landing lal pux hen = .fire lal pux hen ∧ nyx.1 = [] ∧
        fireLoop ven now fan org lal pux hen hil fan = some nyx.2) := by
  cases pux with
  | none =>
      obtain ⟨x, hx, h⟩ := Option.bind_eq_some_iff.1 h
      cases h
      exact .inr ⟨rfl, rfl, hx⟩
  | some w =>
      cases hen with
      | nil =>
          cases h
          exact .inl ⟨w, rfl, rfl, rfl⟩
      | cons x hen =>
          obtain ⟨x, hx, h⟩ := Option.bind_eq_some_iff.1 h
          cases h
          exact .inr ⟨rfl, rfl, hx⟩

/-- What leaves the core is in the log. -/
theorem jack_out {now : Nat} {i : Muse Mill} {fan : Fan Vase}
    {nyx : List (Ovum Curd) × List (Muse Mill) × Fan Vase} (h : jack ven now i fan = some nyx) :
    ∀ o ∈ nyx.1, .gift o.p ∈ i.entries := by
  intro o ho
  obtain ⟨⟨lal, pux, hen, hil⟩, hx, h⟩ := Option.bind_eq_some_iff.1 h
  obtain ⟨w, rfl, rfl, rfl⟩ | ⟨-, hnone, -⟩ := fire_cases h
  · obtain rfl := List.mem_singleton.1 ho
    rw [Muse.entries, hx]
    exact List.mem_cons_self
  · rw [hnone] at ho
    cases ho

theorem Core.Ok.step (h : s.Ok) {a : Act Curd} (ha : Honest ven s a)
    (hs : Core.step ven a s = some s') : s'.Ok := by
  obtain ⟨fan, mor, ova, log⟩ := s
  cases a with
  | poke ovo =>
      cases mor with
      | cons i mor => cases hs
      | nil =>
          obtain ⟨gum, hgum, hs⟩ := Option.bind_eq_some_iff.1 hs
          cases hs
          obtain ⟨hq, hlen, p, lal, q, hr, hwire⟩ := first_eq hgum
          have hweak : ∀ e ∈ log, e ∈ Entry.event ovo.p :: log := fun e => List.mem_cons_of_mem _
          refine ⟨⟨trivial, h.sound⟩, fun p' hp' => ?_, fun lal' pux hen hf => ?_, fun g hg => ?_,
            fun _ ho => (nomatch ho)⟩
          · rcases List.mem_cons.1 hp' with hp' | hp'
            · cases hp'
              exact hlen
            · exact h.events p' hp'
          · rcases List.mem_cons.1 hf with hf | hf
            · cases hf
            · obtain ⟨hmade, hne⟩ := h.heard lal' pux hen hf
              exact ⟨hmade.mono hweak, hne⟩
          · obtain rfl := List.mem_singleton.1 hg
            refine ⟨by rw [hq]; trivial, fun _ => ⟨p, lal, q, hr, ?_⟩⟩
            rw [hwire]
            exact List.mem_cons_self
  | jack now =>
      cases mor with
      | nil => cases hs
      | cons i mor =>
          obtain ⟨nyx, hnyx, hs⟩ := Option.bind_eq_some_iff.1 hs
          cases hs
          obtain ⟨x, hx, -⟩ := Option.bind_eq_some_iff.1 hnyx
          have hadds := Muse.adds (h.known i List.mem_cons_self) h.sound h.events hx
          have hweak : ∀ e ∈ log, e ∈ i.entries ++ log := fun e he =>
            List.mem_append_right _ he
          have hheard : ∀ lal pux hen, .fire lal pux hen ∈ i.entries ++ log →
              Made (i.entries ++ log) hen ∧ hen ≠ [] := by
            intro lal pux hen hf
            rcases List.mem_append.1 hf with hf | hf
            · exact hadds.heard lal pux hen hf
            · obtain ⟨hmade, hne⟩ := h.heard lal pux hen hf
              exact ⟨hmade.mono hweak, hne⟩
          refine ⟨hadds.sound, fun p hp => h.events p (hadds.events p hp), hheard, fun g hg => ?_,
            fun o ho => ?_⟩
          · rcases List.mem_append.1 hg with hg | hg
            · obtain ⟨pux, hf⟩ := ha i mor nyx rfl hnyx g hg
              obtain ⟨hmade, hne⟩ := hheard _ _ _ hf
              exact ⟨hmade, fun he => absurd he hne⟩
            · exact Muse.Known.mono hweak (h.known g (List.mem_cons_of_mem _ hg))
          · rcases List.mem_append.1 ho with ho | ho
            · exact List.mem_append_left _ (jack_out hnyx o ho)
            · exact hweak _ (h.out o ho)

theorem Sound.gift {log : List Entry} {p : Wire} (h : Sound log) (hp : .gift p ∈ log) :
    .event p ∈ log := by
  obtain ⟨l₁, l₂, rfl⟩ := List.append_of_mem hp
  exact List.mem_append_right _ (List.mem_cons_of_mem _ h.before)

/-- Vanes all of whose moves are on the duct they are given. -/
def Vent.Local (ven : Vent Mill Vase Curd) : Prop :=
  ∀ now fan org pux hen hil ves fiq, ven.swim now fan org pux hen hil ves = some fiq →
    ∀ m ∈ fiq.1, m.p = hen

theorem fireLoop_local (hl : ven.Local) {now org lal : Nat} {pux : Option Wire} {hen : Duct}
    {hil : Mill} {fan naf : Fan Vase} {tuh : List (Muse Mill) × Fan Vase}
    (h : fireLoop ven now fan org lal pux hen hil naf = some tuh) :
    ∀ m ∈ tuh.1, m.p = lal ∧ m.q = hen := by
  induction naf generalizing tuh with
  | nil =>
      cases h
      exact fun _ hm => nomatch hm
  | cons i naf ih =>
      obtain ⟨p, q⟩ := i
      rw [fireLoop] at h
      split at h
      · obtain ⟨fiq, hfiq, h⟩ := Option.bind_eq_some_iff.1 h
        cases h
        intro m hm
        obtain ⟨a, ha, rfl⟩ := List.mem_map.1 hm
        exact ⟨rfl, hl _ _ _ _ _ _ _ _ hfiq a ha⟩
      · obtain ⟨tuh', htuh, h⟩ := Option.bind_eq_some_iff.1 h
        cases h
        intro m hm
        exact ih htuh m hm

/-- Such vanes are honest at all times. -/
theorem Vent.Local.honest (hl : ven.Local) (s : Core Mill Vase Curd) (a : Act Curd) :
    Honest ven s a := by
  cases a with
  | poke ovo => trivial
  | jack now =>
      intro i mor nyx hmor hnyx m hm
      obtain ⟨⟨lal, pux, hen, hil⟩, hx, h⟩ := Option.bind_eq_some_iff.1 hnyx
      obtain ⟨w, rfl, rfl, rfl⟩ | ⟨hland, -, hloop⟩ := fire_cases h
      · cases hm
      · obtain ⟨rfl, rfl⟩ := fireLoop_local hl hloop m hm
        refine ⟨pux, ?_⟩
        rw [Muse.entries, hx]
        simp only [hland]
        exact List.mem_cons_self

/-- In every run of vanes that move on the ducts they were given, a vane that takes a response on a
wire and a duct has passed a card on that wire and that duct before, and a card that leaves on a
wire leaves after an event that came in on it. -/
theorem asked_before {fan : Fan Vase}
    (h : Reachable (Core.init fan) (Core.step ven) (Honest ven) s) :
    (∀ l₁ l₂ lal w hen, s.log = l₁ ++ .fire lal (some w) hen :: l₂ → .pass lal w hen ∈ l₂) ∧
      ∀ o ∈ s.ova, .event o.p ∈ s.log := by
  have hinit : (Core.init fan : Core Mill Vase Curd).Ok :=
    ⟨trivial, fun _ hp => (nomatch hp), fun _ _ _ hf => (nomatch hf), fun _ hg => (nomatch hg),
      fun _ ho => (nomatch ho)⟩
  have hok : s.Ok := h.invariant hinit fun _ _ _ hs ha hstep => hs.step ha hstep
  have hsound := hok.sound
  constructor
  · intro l₁ l₂ lal w hen hlog
    rw [hlog] at hsound
    exact hsound.before
  · intro o ho
    exact hsound.gift (hok.out o ho)

end Run

/-- Two vanes: one asks the other, and gives what it is given. -/
def echo : Vent Nat Bool Nat where
  swim _ _ _ pux hen hil ves :=
    some ([if ves && pux.isNone then ⟨hen, .pass [7] 'a'.toNat hil⟩ else ⟨hen, .give hil⟩], ves)
  curd := id
  soft := id

theorem echo_local : echo.Local := by
  intro now fan org pux hen hil ves fiq h m hm
  cases h
  obtain rfl := List.mem_singleton.1 hm
  split <;> rfl

/-- An event at a terminal, a request of it, the response and what leaves. -/
theorem asked_before_echo : ∃ (s : Core Nat Bool Nat) (l₁ l₂ : List Entry),
    s.log = l₁ ++ .fire 'd'.toNat (some [7]) [[0, cord "term".toList, 1]] :: l₂ ∧
      .pass 'd'.toNat [7] [[0, cord "term".toList, 1]] ∈ l₂ ∧
      s.ova.map Ovum.p = [[0, cord "term".toList, 1]] ∧
      .event [0, cord "term".toList, 1] ∈ s.log := by
  have hr : Reachable (Core.init [('d'.toNat, true), ('a'.toNat, false)]) (Core.step echo)
      (Honest echo) _ :=
    (((((Reachable.init.step (a := .poke ⟨[0, cord "term".toList, 1], 5⟩) (echo_local.honest _ _)
      rfl).step (a := .jack 0) (echo_local.honest _ _) rfl).step (a := .jack 0)
      (echo_local.honest _ _) rfl).step (a := .jack 0) (echo_local.honest _ _) rfl).step
      (a := .jack 0) (echo_local.honest _ _) rfl)
  obtain ⟨hasked, hout⟩ := asked_before hr
  exact ⟨_, [.gift _], _, rfl, hasked [.gift _] _ _ _ _ rfl, rfl, hout _ List.mem_cons_self⟩

end Vere.Arvo
