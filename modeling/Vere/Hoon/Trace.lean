import Mathlib.Data.Prod.Lex
import Vere.Hoon.Mug
import Vere.Hoon.Parse

/-!
# Vere.Hoon.Trace

What a rule leaves, and how far it looked (`hoon.hoon`, sections 2eB to 2eD).

A rule leaves a suffix of what it got, and the hair of that is the hair it got moved over the
characters between. Its trace is not before either. The trace is the farthest hair that any rule
in it came to, but for two arms that forget: a round of `stun` that goes on keeps the trace of
the rounds after it only, and `simu` the trace of its second rule (`trace_farthest`).
-/

namespace Vere.Hoon.Parse

/-! ### Hairs -/

theorem Hair.toLex_injective : Function.Injective fun h : Hair => toLex (h.p, h.q) := by
  intro a b h
  cases a
  cases b
  simpa using h

/-- Hairs are ordered by line, and by column in a line. -/
instance : LinearOrder Hair := LinearOrder.lift' _ Hair.toLex_injective

theorem Hair.le_iff (a b : Hair) : a ≤ b ↔ a.p < b.p ∨ a.p = b.p ∧ a.q ≤ b.q :=
  Prod.Lex.toLex_le_toLex

theorem last_eq_max (zyc naz : Hair) : last zyc naz = max zyc naz := by
  rw [last, max_def]
  simp only [Hair.le_iff]
  cases zyc
  cases naz
  split <;> split <;> split <;> simp only [Hair.mk.injEq] <;> omega

theorem le_lust (weq : Nat) (naz : Hair) : naz ≤ lust weq naz := by
  rw [Hair.le_iff, lust]
  split
  · exact .inl (Nat.lt_succ_self _)
  · exact .inr ⟨rfl, Nat.le_succ _⟩

/-- The hair moved over characters. -/
def advance (naz : Hair) (l : List Nat) : Hair := l.foldl (fun naz weq => lust weq naz) naz

theorem le_advance (naz : Hair) (l : List Nat) : naz ≤ advance naz l := by
  induction l generalizing naz with
  | nil => exact le_rfl
  | cons i l ih => exact (le_lust i naz).trans (ih _)

/-! ### Nails -/

/-- What is left of a nail after some of its characters. -/
def Nail.Leaves (tub rest : Nail) : Prop :=
  ∃ l, tub.q = l ++ rest.q ∧ rest.p = advance tub.p l

namespace Nail.Leaves

theorem refl (tub : Nail) : tub.Leaves tub := ⟨[], rfl, rfl⟩

theorem trans {a b c : Nail} (hab : a.Leaves b) (hbc : b.Leaves c) : a.Leaves c := by
  obtain ⟨l, hq, hp⟩ := hab
  obtain ⟨l', hq', hp'⟩ := hbc
  refine ⟨l ++ l', by rw [hq, hq', List.append_assoc], ?_⟩
  rw [hp', hp, advance, advance, advance, List.foldl_append]

theorem cons (p : Hair) (i : Nat) (t : List Nat) : Nail.Leaves ⟨p, i :: t⟩ ⟨lust i p, t⟩ :=
  ⟨[i], rfl, rfl⟩

theorem le {tub rest : Nail} (h : tub.Leaves rest) : tub.p ≤ rest.p := by
  obtain ⟨l, -, hp⟩ := h
  rw [hp]
  exact le_advance _ _

end Nail.Leaves

/-- The nail that an edge leaves. -/
def Edge.rest (e : Edge) : Option Nail := e.q.map Prod.snd

/-- An edge that a nail may come to: what is left is left of the nail, and the trace is before
neither. -/
structure Sane (tub : Nail) (e : Edge) : Prop where
  start : tub.p ≤ e.p
  leaves : ∀ q, e.rest = some q → tub.Leaves q
  behind : ∀ q, e.rest = some q → q.p ≤ e.p

namespace Sane

theorem failed {tub : Nail} {p : Hair} (h : tub.p ≤ p) : Sane tub ⟨p, none⟩ :=
  ⟨h, nofun, nofun⟩

theorem stays {tub : Nail} {p : Hair} (n : Noun) (h : tub.p ≤ p) : Sane tub ⟨p, some (n, tub)⟩ := by
  refine ⟨h, ?_, ?_⟩
  · rintro q ⟨⟩
    exact .refl tub
  · rintro q ⟨⟩
    exact h

/-- Less is left, or nothing, and the trace is the same. -/
theorem congr {tub : Nail} {e e' : Edge} (h : Sane tub e') (hp : e.p = e'.p)
    (hq : ∀ q, e.rest = some q → e'.rest = some q) : Sane tub e := by
  refine ⟨?_, fun q he => h.leaves q (hq q he), fun q he => ?_⟩
  · rw [hp]
    exact h.start
  · rw [hp]
    exact h.behind q (hq q he)

/-- One rule after another. -/
theorem both {tub q : Nail} {e e' : Edge} (h : Sane tub e) (hq : e.rest = some q)
    (h' : Sane q e') : Sane tub ⟨last e.p e'.p, e'.q⟩ := by
  refine ⟨?_, fun q' he => ?_, fun q' he => ?_⟩
  · rw [last_eq_max]
    exact h.start.trans (le_max_left _ _)
  · exact (h.leaves q hq).trans (h'.leaves q' he)
  · rw [last_eq_max]
    exact (h'.behind q' he).trans (le_max_right _ _)

end Sane

/-! ### The arms -/

section arms

variable {tub : Nail} {e : Edge}

theorem sane_next (tub : Nail) : Sane tub (next tub) := by
  obtain ⟨p, _ | ⟨i, t⟩⟩ := tub
  · exact .failed le_rfl
  · refine ⟨le_lust i p, ?_, ?_⟩
    · rintro q ⟨⟩
      exact .cons p i t
    · rintro q ⟨⟩
      exact le_rfl

theorem sane_just (daf : Nat) (tub : Nail) : Sane tub (just daf tub) := by
  rw [just]
  split
  · exact .failed le_rfl
  · split
    · exact sane_next tub
    · exact .failed le_rfl

theorem sane_mask (bud : List Nat) (tub : Nail) : Sane tub (mask bud tub) := by
  rw [mask]
  split
  · exact .failed le_rfl
  · split
    · exact sane_next tub
    · exact .failed le_rfl

theorem sane_shim (les mos : Nat) (tub : Nail) : Sane tub (shim les mos tub) := by
  rw [shim]
  split
  · exact .failed le_rfl
  · split
    · exact sane_next tub
    · exact .failed le_rfl

theorem sane_jestLoop (fad daf : Nat) (p : Hair) (q : List Nat) :
    Sane ⟨p, q⟩ (jestLoop fad daf p q) := by
  induction q generalizing daf p with
  | nil =>
      rw [jestLoop]
      split
      · exact .stays _ le_rfl
      · exact .failed le_rfl
  | cons i t ih =>
      rw [jestLoop]
      split
      · exact .stays _ le_rfl
      · split
        · exact .failed le_rfl
        · obtain ⟨hstart, hleaves, hbehind⟩ := ih (rsh 3 1 daf) (lust i p)
          exact ⟨(le_lust i p).trans hstart,
            fun q hq => (Nail.Leaves.cons p i t).trans (hleaves q hq), hbehind⟩

/-- The edge has the trace of the other, and what it leaves if anything. -/
def Edge.Within (e vex : Edge) : Prop := e.p = vex.p ∧ ∀ q, e.rest = some q → vex.rest = some q

theorem Edge.Within.refl (e : Edge) : e.Within e := ⟨rfl, fun _ h => h⟩

theorem Edge.Within.sane {vex : Edge} (h : e.Within vex) (hv : Sane tub vex) : Sane tub e :=
  hv.congr h.1 h.2

/-- A rule that goes on with the edge of another. -/
theorem within_of_bind {sef : Rule} {on : Edge → Virt Edge}
    (hon : ∀ vex e, on vex = pure e → e.Within vex) (h : (sef tub >>= on) = pure e) :
    ∃ vex, sef tub = pure vex ∧ e.Within vex := by
  obtain ⟨vex, hv, hk⟩ := Virt.bind_eq_pure.mp h
  exact ⟨vex, hv, hon vex e hk⟩

theorem cold_within {cus : Noun} {sef : Rule} (h : cold cus sef tub = pure e) :
    ∃ vex, sef tub = pure vex ∧ e.Within vex := by
  refine within_of_bind ?_ h
  rintro ⟨p, _ | ⟨n, q⟩⟩ e h
  · cases h
    exact .refl _
  · cases h
    exact ⟨rfl, fun _ h => h⟩

theorem cook_within {poq : Noun → Virt Noun} {sef : Rule} (h : cook poq sef tub = pure e) :
    ∃ vex, sef tub = pure vex ∧ e.Within vex := by
  refine within_of_bind ?_ h
  rintro ⟨p, _ | ⟨n, q⟩⟩ e h
  · cases h
    exact .refl _
  · obtain ⟨m, -, hm⟩ := Virt.bind_eq_pure.mp h
    cases hm
    exact ⟨rfl, fun _ h => h⟩

theorem full_within {sef : Rule} (h : full sef tub = pure e) :
    ∃ vex, sef tub = pure vex ∧ e.Within vex := by
  refine within_of_bind ?_ h
  rintro ⟨p, _ | ⟨n, q⟩⟩ e h
  · cases h
    exact .refl _
  · rw [Virt.pure_inj] at h
    subst h
    split
    · exact .refl _
    · exact ⟨rfl, nofun⟩

theorem here_within {hez : Noun → Virt Noun} {sef : Rule} (h : here hez sef tub = pure e) :
    ∃ vex, sef tub = pure vex ∧ e.Within vex := by
  refine within_of_bind ?_ h
  rintro ⟨p, _ | ⟨n, q⟩⟩ e h
  · cases h
    exact .refl _
  · obtain ⟨m, -, hm⟩ := Virt.bind_eq_pure.mp h
    cases hm
    exact ⟨rfl, fun _ h => h⟩

theorem sear_within {pyq : Noun → Virt (Option Noun)} {sef : Rule}
    (h : sear pyq sef tub = pure e) : ∃ vex, sef tub = pure vex ∧ e.Within vex := by
  refine within_of_bind ?_ h
  rintro ⟨p, _ | ⟨n, q⟩⟩ e h
  · cases h
    exact .refl _
  · obtain ⟨_ | m, -, hm⟩ := Virt.bind_eq_pure.mp h
    · cases hm
      exact ⟨rfl, nofun⟩
    · cases hm
      exact ⟨rfl, fun _ h => h⟩

theorem stag_within {gob : Noun} {sef : Rule} (h : stag gob sef tub = pure e) :
    ∃ vex, sef tub = pure vex ∧ e.Within vex := by
  refine within_of_bind ?_ h
  rintro ⟨p, _ | ⟨n, q⟩⟩ e h
  · cases h
    exact .refl _
  · cases h
    exact ⟨rfl, fun _ h => h⟩

/-- What an arm comes to that runs a second rule on what the first one left. -/
inductive Thence (vex : Edge) (sab : Rule) (e : Edge) : Prop
  | stop (hq : vex.rest = none) (he : e = vex)
  | on (q : Nail) (yit : Edge) (hq : vex.rest = some q) (hy : sab q = pure yit)
      (hp : e.p = last vex.p yit.p)
      (hr : ∀ q', e.rest = some q' → q' = q ∨ yit.rest = some q')

theorem bend_thence {raq : Noun → Virt (Option Noun)} {vex : Edge} {sab : Sab}
    (h : bend raq vex sab = pure e) : Thence vex sab.slam e := by
  obtain ⟨p, _ | ⟨n, q⟩⟩ := vex
  · cases h
    exact .stop rfl rfl
  · obtain ⟨⟨py, _ | ⟨m, q'⟩⟩, hy, h⟩ := Virt.bind_eq_pure.mp h
    · cases h
      refine .on q _ rfl hy rfl ?_
      rintro _ ⟨⟩
      exact .inl rfl
    · obtain ⟨_ | u, -, h⟩ := Virt.bind_eq_pure.mp h
      · cases h
        refine .on q _ rfl hy rfl ?_
        rintro _ ⟨⟩
        exact .inl rfl
      · cases h
        exact .on q _ rfl hy rfl fun _ h => .inr h

theorem comp_thence {raq : Noun → Noun → Virt Noun} {vex : Edge} {sab : Sab}
    (h : comp raq vex sab = pure e) : Thence vex sab.slam e := by
  obtain ⟨p, _ | ⟨n, q⟩⟩ := vex
  · cases h
    exact .stop rfl rfl
  · obtain ⟨⟨py, _ | ⟨m, q'⟩⟩, hy, h⟩ := Virt.bind_eq_pure.mp h
    · cases h
      exact .on q _ rfl hy rfl nofun
    · obtain ⟨u, -, h⟩ := Virt.bind_eq_pure.mp h
      cases h
      exact .on q _ rfl hy rfl fun _ h => .inr h

theorem plug_thence {vex : Edge} {sab : Sab} (h : plug vex sab = pure e) :
    Thence vex sab.slam e := by
  obtain ⟨p, _ | ⟨n, q⟩⟩ := vex
  · cases h
    exact .stop rfl rfl
  · obtain ⟨⟨py, _ | ⟨m, q'⟩⟩, hy, h⟩ := Virt.bind_eq_pure.mp h
    · cases h
      exact .on q _ rfl hy rfl nofun
    · cases h
      exact .on q _ rfl hy rfl fun _ h => .inr h

theorem Thence.sane {vex : Edge} {sab : Rule} (h : Thence vex sab e) (hv : Sane tub vex)
    (hs : ∀ q yit, sab q = pure yit → Sane q yit) : Sane tub e := by
  cases h with
  | stop hq he =>
      rw [he]
      exact hv
  | on q yit hq hy hp hr =>
      have hboth := hv.both hq (hs q yit hy)
      refine ⟨?_, fun q' he => ?_, fun q' he => ?_⟩
      · rw [hp]
        exact hboth.start
      · rcases hr q' he with rfl | hrest
        · exact hv.leaves _ hq
        · exact hboth.leaves q' hrest
      · rw [hp]
        rcases hr q' he with rfl | hrest
        · rw [last_eq_max]
          exact (hv.behind _ hq).trans (le_max_left _ _)
        · exact hboth.behind q' hrest

/-- What an arm comes to that runs a second rule where the first one did not parse. -/
inductive Orelse (vex : Edge) (sab : Virt Edge) (e : Edge) : Prop
  | first (q : Nail) (hq : vex.rest = some q) (he : e.Within vex)
  | second (roq : Edge) (hq : vex.rest = none) (hy : sab = pure roq)
      (he : e = ⟨last vex.p roq.p, roq.q⟩)

theorem pose_orelse {vex : Edge} {sab : Sab} (h : pose vex sab = pure e) :
    Orelse vex sab.kick e := by
  obtain ⟨p, _ | ⟨n, q⟩⟩ := vex
  · obtain ⟨roq, hy, h⟩ := Virt.bind_eq_pure.mp h
    cases h
    exact .second roq rfl hy rfl
  · cases h
    exact .first q rfl (.refl _)

theorem less_orelse {vex : Edge} {sab : Sab} (h : less vex sab = pure e) :
    Orelse vex sab.kick e := by
  obtain ⟨p, _ | ⟨n, q⟩⟩ := vex
  · obtain ⟨roq, hy, h⟩ := Virt.bind_eq_pure.mp h
    cases h
    exact .second roq rfl hy rfl
  · cases h
    exact .first q rfl ⟨rfl, nofun⟩

theorem Orelse.sane {vex : Edge} {sab : Virt Edge} (h : Orelse vex sab e) (hv : Sane tub vex)
    (hs : ∀ roq, sab = pure roq → Sane tub roq) : Sane tub e := by
  cases h with
  | first q hq he => exact he.sane hv
  | second roq hq hy he =>
      subst he
      have hr := hs roq hy
      refine ⟨?_, hr.leaves, fun q hq => ?_⟩
      · rw [last_eq_max]
        exact hr.start.trans (le_max_right _ _)
      · rw [last_eq_max]
        exact (hr.behind q hq).trans (le_max_right _ _)

/-- What a round of `stir` comes to. -/
theorem stir_cases {rud : Noun} {raq : Noun → Virt Noun} {fel again : Rule}
    (h : stir rud raq fel again tub = pure e) :
    ∃ vex, fel tub = pure vex ∧
      ((vex.rest = none ∧ e = ⟨vex.p, some (rud, tub)⟩) ∨
        ∃ q wag, vex.rest = some q ∧ again q = pure wag ∧ e.p = last vex.p wag.p ∧
          e.rest = wag.rest) := by
  obtain ⟨⟨p, _ | ⟨n, q⟩⟩, hv, h⟩ := Virt.bind_eq_pure.mp h
  · cases h
    exact ⟨_, hv, .inl ⟨rfl, rfl⟩⟩
  · obtain ⟨⟨pw, _ | ⟨m, q'⟩⟩, hw, h⟩ := Virt.bind_eq_pure.mp h
    · cases h
    · obtain ⟨u, -, h⟩ := Virt.bind_eq_pure.mp h
      cases h
      exact ⟨_, hv, .inr ⟨q, _, rfl, hw, rfl, rfl⟩⟩

/-- What a round of `stun` comes to. The trace of a round that goes on is lost. -/
theorem stun_cases {les mos : Nat} {fel : Rule} {again : Nat → Nat → Rule}
    (h : stun les mos fel again tub = pure e) :
    (mos = 0 ∧ e = ⟨tub.p, some (.atom 0, tub)⟩) ∨
      mos ≠ 0 ∧ ∃ vex, fel tub = pure vex ∧
        ((vex.rest = none ∧ (e = vex ∨ e = ⟨vex.p, some (.atom 0, tub)⟩)) ∨
          ∃ q wag, vex.rest = some q ∧ again (les - 1) (mos - 1) q = pure wag ∧ e.p = wag.p ∧
            e.rest = wag.rest) := by
  rw [stun] at h
  by_cases hmos : mos = 0
  · rw [if_pos hmos] at h
    cases h
    exact .inl ⟨hmos, rfl⟩
  refine .inr ⟨hmos, ?_⟩
  have hdec : ∀ n : Nat, (if n = 0 then 0 else n - 1) = n - 1 := by
    intro n
    split <;> omega
  rw [if_neg hmos, hdec, hdec] at h
  obtain ⟨⟨p, _ | ⟨n, q⟩⟩, hv, h⟩ := Virt.bind_eq_pure.mp h
  · refine ⟨_, hv, .inl ⟨rfl, ?_⟩⟩
    rw [Virt.pure_inj] at h
    split at h
    · exact .inr h.symm
    · exact .inl h.symm
  · obtain ⟨⟨pw, _ | ⟨m, q'⟩⟩, hw, h⟩ := Virt.bind_eq_pure.mp h
    · cases h
      exact ⟨_, hv, .inr ⟨q, _, rfl, hw, rfl, rfl⟩⟩
    · cases h
      exact ⟨_, hv, .inr ⟨q, _, rfl, hw, rfl, rfl⟩⟩

theorem simu_cases {vex : Edge} {sab : Sab} (h : simu vex sab = pure e) :
    (vex.rest = none ∧ e = vex) ∨ ∃ q, vex.rest = some q ∧ sab.kick = pure e := by
  obtain ⟨p, _ | ⟨n, q⟩⟩ := vex
  · cases h
    exact .inl ⟨rfl, rfl⟩
  · exact .inr ⟨q, rfl, h⟩

end arms

/-! ### The rules that a rule tries -/

/-- A rule that is tried in another. Its trace is kept, or forgotten. -/
structure Call where
  keep : Bool
  rule : Form
  tub : Nail

/-- What is left after a rule that returned. -/
def left : Virt Edge → Option Nail
  | some (.ok e) => e.rest
  | _ => none

section calls

variable (mug : Noun → Nat) (kit : Nat → Form) (n : Nat)

/-- A rule, and what is tried on the nail it leaves. -/
def andThen (f : Form) (tub : Nail) (on : Nail → List Call) : List Call :=
  ⟨true, f, tub⟩ :: (left (parse mug kit n f tub)).elim [] on

/-- The rules that a rule tries itself, in their order. -/
def calls (f : Form) (tub : Nail) : List Call :=
  match f with
  | .fail | .easy _ | .next | .just _ | .mask _ | .shim _ _ | .jest _ => []
  | .stew leh =>
      match tub.q with
      | [] => []
      | i :: _ => (stewFind i (stewTree mug leh)).elim [] fun q => [⟨true, q, tub⟩]
  | .cold _ sef | .cook _ sef | .full sef | .here _ sef | .sear _ sef | .stag _ sef =>
      [⟨true, sef, tub⟩]
  | .stir rud raq fel =>
      andThen mug kit n fel tub fun q => [⟨true, .stir rud raq fel, q⟩]
  | .stun les mos fel =>
      if mos = 0 then []
      else
        match left (parse mug kit n fel tub) with
        | none => [⟨true, fel, tub⟩]
        | some q => [⟨false, fel, tub⟩, ⟨true, .stun (les - 1) (mos - 1) fel, q⟩]
  | .bend _ vex sab | .comp _ vex sab | .pfix vex sab | .sfix vex sab | .plug vex sab =>
      andThen mug kit n vex tub fun q => [⟨true, sab, q⟩]
  | .glue bus vex sab =>
      andThen mug kit n vex tub fun q => andThen mug kit n bus q fun q' => [⟨true, sab, q'⟩]
  | .pose vex sab | .less vex sab =>
      match left (parse mug kit n vex tub) with
      | none => [⟨true, vex, tub⟩, ⟨true, sab, tub⟩]
      | some _ => [⟨true, vex, tub⟩]
  | .simu vex sab =>
      match left (parse mug kit n vex tub) with
      | none => [⟨true, vex, tub⟩]
      | some _ => [⟨false, vex, tub⟩, ⟨true, sab, tub⟩]
  | .knee sef => [⟨true, kit sef, tub⟩]

end calls

section step

variable {mug : Noun → Nat} {kit : Nat → Form} {n : Nat} {tub : Nail} {e : Edge}

/-- All the rules returned, none that is kept looked beyond the trace, and one did come to it. -/
structure Kept (run : Form → Rule) (cs : List Call) (p : Hair) : Prop where
  back : ∀ c ∈ cs, ∃ e, run c.rule c.tub = pure e ∧ (c.keep = true → e.p ≤ p)
  reached : cs = [] ∨ ∃ c ∈ cs, c.keep = true ∧ ∃ e, run c.rule c.tub = pure e ∧ e.p = p

namespace Kept

variable {run : Form → Rule} {f : Form} {cs : List Call} {p : Hair}

theorem nil : Kept run [] p := ⟨nofun, .inl rfl⟩

theorem one (h : run f tub = pure e) (hp : p = e.p) : Kept run [⟨true, f, tub⟩] p := by
  subst hp
  refine ⟨fun c hc => ?_, .inr ⟨_, List.mem_singleton_self _, rfl, e, h, rfl⟩⟩
  rw [List.mem_singleton] at hc
  subst hc
  exact ⟨e, h, fun _ => le_rfl⟩

/-- A rule more whose trace is kept. -/
theorem cons (h : run f tub = pure e) (hcs : Kept run cs p) :
    Kept run (⟨true, f, tub⟩ :: cs) (if cs = [] then e.p else last e.p p) := by
  split
  next hnil =>
    subst hnil
    exact one h rfl
  next hne =>
  rw [last_eq_max]
  constructor
  · intro c hc
    rcases List.mem_cons.mp hc with rfl | hc
    · exact ⟨e, h, fun _ => le_max_left _ _⟩
    · obtain ⟨e', hr, hle⟩ := hcs.back c hc
      exact ⟨e', hr, fun hk => (hle hk).trans (le_max_right _ _)⟩
  · right
    rcases le_total e.p p with hle | hle
    · obtain ⟨c, hc, hk, e', hr, he⟩ := hcs.reached.resolve_left hne
      exact ⟨c, List.mem_cons_of_mem _ hc, hk, e', hr, by rw [he, max_eq_right hle]⟩
    · exact ⟨_, List.mem_cons_self, rfl, e, h, (max_eq_left hle).symm⟩

/-- A rule before one more, whose trace is forgotten. -/
theorem drop {g : Form} {tub' : Nail} {e' : Edge} (h : run f tub = pure e)
    (hg : run g tub' = pure e') (hp : p = e'.p) :
    Kept run [⟨false, f, tub⟩, ⟨true, g, tub'⟩] p := by
  have hone := one hg hp
  constructor
  · intro c hc
    rcases List.mem_cons.mp hc with rfl | hc
    · exact ⟨e, h, nofun⟩
    · exact hone.back c hc
  · obtain ⟨c, hc, hk, hr⟩ := hone.reached.resolve_left (List.cons_ne_nil _ _)
    exact .inr ⟨c, List.mem_cons_of_mem _ hc, hk, hr⟩

end Kept

theorem left_eq {x : Virt Edge} (h : x = pure e) : left x = e.rest := by
  rw [h]
  rfl

theorem Thence.kept {vex : Form} {sab : Rule} {ve : Edge} {on : Nail → List Call}
    (h : Thence ve sab e) (hv : parse mug kit n vex tub = pure ve) (hne : ∀ q, on q ≠ [])
    (hon : ∀ q yit, sab q = pure yit → Kept (parse mug kit n) (on q) yit.p) :
    Kept (parse mug kit n) (andThen mug kit n vex tub on) e.p := by
  rw [andThen, left_eq hv]
  cases h with
  | stop hq he =>
      rw [hq, he]
      exact .one hv rfl
  | on q yit hq hy hp hr =>
      have hcons := Kept.cons hv (hon q yit hy)
      rw [if_neg (hne q)] at hcons
      rw [hq, hp]
      exact hcons

/-- The arms that run the second rule on what the first one leaves. -/
theorem thence_step {f : Edge → Sab → Virt Edge} {vex sab : Form}
    (ih : ∀ g tub e, parse mug kit n g tub = pure e → Sane tub e)
    (hf : ∀ {ve : Edge} {s : Sab} {e : Edge}, f ve s = pure e → Thence ve s.slam e)
    (h : gonad f (parse mug kit n vex) (parse mug kit n sab) tub = pure e) :
    Sane tub e ∧
      Kept (parse mug kit n) (andThen mug kit n vex tub fun q => [⟨true, sab, q⟩]) e.p := by
  obtain ⟨ve, hv, h⟩ := Virt.bind_eq_pure.mp h
  have ht := hf h
  exact ⟨ht.sane (ih _ _ _ hv) (ih sab), ht.kept hv (fun _ => List.cons_ne_nil _ _)
    fun q yit hy => .one hy rfl⟩

/-- The arms that run the second rule where the first one did not parse. -/
theorem orelse_step {f : Edge → Sab → Virt Edge} {vex sab : Form}
    (ih : ∀ g tub e, parse mug kit n g tub = pure e → Sane tub e)
    (hf : ∀ {ve : Edge} {s : Sab} {e : Edge}, f ve s = pure e → Orelse ve s.kick e)
    (h : gonad f (parse mug kit n vex) (parse mug kit n sab) tub = pure e) :
    Sane tub e ∧
      Kept (parse mug kit n)
        (match left (parse mug kit n vex tub) with
        | none => [⟨true, vex, tub⟩, ⟨true, sab, tub⟩]
        | some _ => [⟨true, vex, tub⟩]) e.p := by
  obtain ⟨ve, hv, h⟩ := Virt.bind_eq_pure.mp h
  have ho := hf h
  refine ⟨ho.sane (ih _ _ _ hv) (ih sab tub), ?_⟩
  rw [left_eq hv]
  cases ho with
  | first q hq he =>
      rw [hq]
      exact .one hv he.1
  | second roq hq hy he =>
      subst he
      rw [hq]
      exact Kept.cons hv (.one hy rfl)

/-- The arms that only change the product. -/
theorem within_step {sef : Form} (ih : ∀ g tub e, parse mug kit n g tub = pure e → Sane tub e)
    (h : ∃ vex, parse mug kit n sef tub = pure vex ∧ e.Within vex) :
    Sane tub e ∧ Kept (parse mug kit n) [⟨true, sef, tub⟩] e.p := by
  obtain ⟨vex, hv, hw⟩ := h
  exact ⟨hw.sane (ih _ _ _ hv), .one hv hw.1⟩

theorem stir_step {rud : Noun} {raq : Noun → Virt Noun} {fel : Form}
    (ih : ∀ g tub e, parse mug kit n g tub = pure e → Sane tub e)
    (h : parse mug kit (n + 1) (.stir rud raq fel) tub = pure e) :
    Sane tub e ∧ Kept (parse mug kit n) (calls mug kit n (.stir rud raq fel) tub) e.p := by
  obtain ⟨vex, hv, hcase⟩ := stir_cases h
  have hsane := ih _ _ _ hv
  rw [calls, andThen, left_eq hv]
  rcases hcase with ⟨hq, he⟩ | ⟨q, wag, hq, hw, hp, hr⟩
  · subst he
    rw [hq]
    exact ⟨.stays _ hsane.start, .one hv rfl⟩
  · rw [hq, hp]
    refine ⟨?_, Kept.cons hv (.one hw rfl)⟩
    refine (hsane.both hq (ih _ _ _ hw)).congr hp fun q' he => ?_
    rwa [hr] at he

theorem stun_step {les mos : Nat} {fel : Form}
    (ih : ∀ g tub e, parse mug kit n g tub = pure e → Sane tub e)
    (h : parse mug kit (n + 1) (.stun les mos fel) tub = pure e) :
    Sane tub e ∧ Kept (parse mug kit n) (calls mug kit n (.stun les mos fel) tub) e.p := by
  have hstun : stun les mos (parse mug kit n fel)
      (fun les mos => parse mug kit n (.stun les mos fel)) tub = pure e := h
  rw [calls]
  rcases stun_cases hstun with ⟨hmos, he⟩ | ⟨hmos, vex, hv, hcase⟩
  · subst he
    rw [if_pos hmos]
    exact ⟨.stays _ le_rfl, .nil⟩
  have hsane := ih _ _ _ hv
  rw [if_neg hmos, left_eq hv]
  rcases hcase with ⟨hq, he | he⟩ | ⟨q, wag, hq, hw, hp, hr⟩
  · subst he
    rw [hq]
    exact ⟨hsane, .one hv rfl⟩
  · subst he
    rw [hq]
    exact ⟨.stays _ hsane.start, .one hv rfl⟩
  · have hwag := ih _ _ _ hw
    rw [hq]
    refine ⟨⟨?_, fun q' he => ?_, fun q' he => ?_⟩, .drop hv hw hp⟩
    · rw [hp]
      exact (hsane.leaves q hq).le.trans hwag.start
    · rw [hr] at he
      exact (hsane.leaves q hq).trans (hwag.leaves q' he)
    · rw [hr] at he
      rw [hp]
      exact hwag.behind q' he

theorem simu_step {vex sab : Form}
    (ih : ∀ g tub e, parse mug kit n g tub = pure e → Sane tub e)
    (h : parse mug kit (n + 1) (.simu vex sab) tub = pure e) :
    Sane tub e ∧ Kept (parse mug kit n) (calls mug kit n (.simu vex sab) tub) e.p := by
  obtain ⟨ve, hv, h⟩ := Virt.bind_eq_pure.mp h
  rw [calls, left_eq hv]
  rcases simu_cases h with ⟨hq, he⟩ | ⟨q, hq, hy⟩
  · subst he
    rw [hq]
    exact ⟨ih _ _ _ hv, .one hv rfl⟩
  · rw [hq]
    exact ⟨ih _ _ _ hy, .drop hv hy rfl⟩

theorem stew_step {leh : List (Key × Form)}
    (ih : ∀ g tub e, parse mug kit n g tub = pure e → Sane tub e)
    (h : parse mug kit (n + 1) (.stew leh) tub = pure e) :
    Sane tub e ∧ Kept (parse mug kit n) (calls mug kit n (.stew leh) tub) e.p := by
  obtain ⟨p, _ | ⟨i, t⟩⟩ := tub
  · cases h
    exact ⟨.failed le_rfl, .nil⟩
  · have hcalls : calls mug kit n (.stew leh) ⟨p, i :: t⟩
        = (stewFind i (stewTree mug leh)).elim [] fun q => [⟨true, q, ⟨p, i :: t⟩⟩] := rfl
    rw [parse, stew_cons] at h
    rw [hcalls]
    cases hf : stewFind i (stewTree mug leh) with
    | none =>
        rw [hf] at h
        cases h
        exact ⟨.failed le_rfl, .nil⟩
    | some q =>
        rw [hf] at h
        exact ⟨ih _ _ _ h, .one h rfl⟩

theorem glue_step {bus vex sab : Form}
    (ih : ∀ g tub e, parse mug kit n g tub = pure e → Sane tub e)
    (h : parse mug kit (n + 1) (.glue bus vex sab) tub = pure e) :
    Sane tub e ∧ Kept (parse mug kit n) (calls mug kit n (.glue bus vex sab) tub) e.p := by
  obtain ⟨ve, hv, h⟩ := Virt.bind_eq_pure.mp h
  have ht := plug_thence h
  have hpfix (q : Nail) (yit : Edge)
      (hy : gonad pfix (parse mug kit n bus) (parse mug kit n sab) q = pure yit) :=
    thence_step ih comp_thence hy
  exact ⟨ht.sane (ih _ _ _ hv) fun q yit hy => (hpfix q yit hy).1,
    ht.kept hv (fun _ => List.cons_ne_nil _ _) fun q yit hy => (hpfix q yit hy).2⟩

/-- What one more step of the fuel comes to. -/
theorem parse_step (ih : ∀ g tub e, parse mug kit n g tub = pure e → Sane tub e) {f : Form}
    (h : parse mug kit (n + 1) f tub = pure e) :
    Sane tub e ∧ Kept (parse mug kit n) (calls mug kit n f tub) e.p := by
  cases f with
  | fail =>
      cases h
      exact ⟨.failed le_rfl, .nil⟩
  | easy huf =>
      cases h
      exact ⟨.stays _ le_rfl, .nil⟩
  | next =>
      cases h
      exact ⟨sane_next tub, .nil⟩
  | just daf =>
      cases h
      exact ⟨sane_just daf tub, .nil⟩
  | mask bud =>
      cases h
      exact ⟨sane_mask bud tub, .nil⟩
  | shim les mos =>
      cases h
      exact ⟨sane_shim les mos tub, .nil⟩
  | jest daf =>
      cases h
      exact ⟨sane_jestLoop daf daf tub.p tub.q, .nil⟩
  | stew leh => exact stew_step ih h
  | cold cus sef => exact within_step ih (cold_within h)
  | cook poq sef => exact within_step ih (cook_within h)
  | full sef => exact within_step ih (full_within h)
  | here hez sef => exact within_step ih (here_within h)
  | sear pyq sef => exact within_step ih (sear_within h)
  | stag gob sef => exact within_step ih (stag_within h)
  | stir rud raq fel => exact stir_step ih h
  | stun les mos fel => exact stun_step ih h
  | bend raq vex sab => exact thence_step ih bend_thence h
  | comp raq vex sab => exact thence_step ih comp_thence h
  | pfix vex sab => exact thence_step ih comp_thence h
  | sfix vex sab => exact thence_step ih comp_thence h
  | plug vex sab => exact thence_step ih plug_thence h
  | glue bus vex sab => exact glue_step ih h
  | pose vex sab => exact orelse_step ih pose_orelse h
  | less vex sab => exact orelse_step ih less_orelse h
  | simu vex sab => exact simu_step ih h
  | knee sef => exact ⟨ih _ _ _ h, .one h rfl⟩

/-- Every rule leaves a suffix, at its hair, and looks at least as far. -/
theorem parse_sane {f : Form} (h : parse mug kit n f tub = pure e) : Sane tub e := by
  induction n generalizing f tub e with
  | zero => cases h
  | succ n ih => exact (parse_step (fun _ _ _ hg => ih hg) h).1

theorem parse_kept {f : Form} (h : parse mug kit (n + 1) f tub = pure e) :
    Kept (parse mug kit n) (calls mug kit n f tub) e.p :=
  (parse_step (fun _ _ _ => parse_sane) h).2

end step

/-! ### Whole runs -/

section run

variable {mug : Noun → Nat} {kit : Nat → Form} {n : Nat} {f : Form} {tub : Nail} {e : Edge}

/-- What is tried in running a rule, at any depth, the rule itself included. With `all` off, only
the parts whose trace is kept all the way up. -/
inductive Tried (mug : Noun → Nat) (kit : Nat → Form) (all : Bool) :
    Nat → Form → Nail → Nat → Form → Nail → Prop
  | self (n : Nat) (f : Form) (tub : Nail) : Tried mug kit all n f tub n f tub
  | call {n m : Nat} {f g : Form} {tub nail : Nail} {c : Call}
      (hc : c ∈ calls mug kit n f tub) (hk : (all || c.keep) = true)
      (h : Tried mug kit all n c.rule c.tub m g nail) : Tried mug kit all (n + 1) f tub m g nail

/-- The hair that a rule comes to by itself, without the rules in it. -/
def looks (f : Form) (tub : Nail) : Hair :=
  match f with
  | .next => (next tub).p
  | .just daf => (just daf tub).p
  | .mask bud => (mask bud tub).p
  | .shim les mos => (shim les mos tub).p
  | .jest daf => (jest daf tub).p
  | _ => tub.p

/-- Some rule that is tried comes to the hair by itself. -/
def Comes (mug : Noun → Nat) (kit : Nat → Form) (all : Bool) (n : Nat) (f : Form) (tub : Nail)
    (p : Hair) : Prop :=
  ∃ m g nail, Tried mug kit all n f tub m g nail ∧ looks g nail = p

/-- The trace is the farthest hair that the rules that are tried come to. -/
def Farthest (mug : Noun → Nat) (kit : Nat → Form) (n : Nat) (f : Form) (tub : Nail) (p : Hair) :
    Prop :=
  Comes mug kit true n f tub p ∧
    ∀ m g nail e, Tried mug kit true n f tub m g nail → parse mug kit m g nail = pure e → e.p ≤ p

/-- The text is looked at as far in the parts that are kept all the way up as in all parts. -/
def KeepsFarthest (mug : Noun → Nat) (kit : Nat → Form) (n : Nat) (f : Form) (tub : Nail) :
    Prop :=
  ∀ p, Comes mug kit true n f tub p → ∃ p', Comes mug kit false n f tub p' ∧ p ≤ p'

/-- No step forgets a look that is farther than those of the part it keeps: a round of `stun` that
goes on does not look beyond the rounds after it, and the first rule of a `simu` that goes on does
not look beyond the second. -/
def ForgetsNothing (mug : Noun → Nat) (kit : Nat → Form) (n : Nat) (f : Form) (tub : Nail) :
    Prop :=
  ∀ m g nail c p, Tried mug kit true n f tub (m + 1) g nail → c ∈ calls mug kit m g nail →
    c.keep = false → Comes mug kit true m c.rule c.tub p →
      ∃ d ∈ calls mug kit m g nail, d.keep = true ∧
        ∃ p', Comes mug kit true m d.rule d.tub p' ∧ p ≤ p'

/-- The trace of every rule that is tried is the farthest hair of what is tried in it. -/
def AllFarthest (mug : Noun → Nat) (kit : Nat → Form) (n : Nat) (f : Form) (tub : Nail) : Prop :=
  ∀ m g nail e, Tried mug kit true n f tub m g nail → parse mug kit m g nail = pure e →
    Farthest mug kit m g nail e.p

theorem Tried.all {m : Nat} {g : Form} {nail : Nail} (h : Tried mug kit false n f tub m g nail) :
    Tried mug kit true n f tub m g nail := by
  induction h with
  | self n f tub => exact .self n f tub
  | call hc hk h ih => exact .call hc rfl ih

theorem Tried.trans {all : Bool} {m k : Nat} {g g' : Form} {nail nail' : Nail}
    (h : Tried mug kit all n f tub m g nail) (h' : Tried mug kit all m g nail k g' nail') :
    Tried mug kit all n f tub k g' nail' := by
  induction h with
  | self n f tub => exact h'
  | call hc hk h ih => exact .call hc hk (ih h')

theorem Comes.all {p : Hair} (h : Comes mug kit false n f tub p) : Comes mug kit true n f tub p := by
  obtain ⟨m, g, nail, ht, hp⟩ := h
  exact ⟨m, g, nail, ht.all, hp⟩

/-- What a tried rule comes to is come to. -/
theorem Comes.trans {all : Bool} {m : Nat} {g : Form} {nail : Nail} {p : Hair}
    (ht : Tried mug kit all n f tub m g nail) (h : Comes mug kit all m g nail p) :
    Comes mug kit all n f tub p := by
  obtain ⟨k, g', nail', ht', hp⟩ := h
  exact ⟨k, g', nail', ht.trans ht', hp⟩

theorem Tried.returns {all : Bool} {m : Nat} {g : Form} {nail : Nail}
    (ht : Tried mug kit all n f tub m g nail) (h : parse mug kit n f tub = pure e) :
    ∃ e', parse mug kit m g nail = pure e' := by
  induction ht generalizing e with
  | self n f tub => exact ⟨e, h⟩
  | call hc hk ht ih =>
      obtain ⟨ec, hr, -⟩ := (parse_kept h).back _ hc
      exact ih hr

theorem looks_le (h : parse mug kit n f tub = pure e) : looks f tub ≤ e.p := by
  have hstart := (parse_sane h).start
  cases n with
  | zero => cases h
  | succ n =>
      cases f with
      | next | just | mask | shim | jest =>
          cases h
          exact le_rfl
      | _ => exact hstart

/-- The trace of a rule that tries no others is its own. -/
theorem trace_looks (h : parse mug kit (n + 1) f tub = pure e) (hc : calls mug kit n f tub = []) :
    e.p = looks f tub := by
  cases f with
  | fail | easy | next | just | mask | shim | jest =>
      cases h
      rfl
  | stew leh =>
      obtain ⟨p, _ | ⟨i, t⟩⟩ := tub
      · cases h
        rfl
      · rw [parse, stew_cons] at h
        cases hf : stewFind i (stewTree mug leh) with
        | none =>
            rw [hf] at h
            cases h
            rfl
        | some q => simp [calls, hf] at hc
  | stun les mos fel =>
      have hstun : stun les mos (parse mug kit n fel)
          (fun les mos => parse mug kit n (.stun les mos fel)) tub = pure e := h
      rcases stun_cases hstun with ⟨-, he⟩ | ⟨hmos, -⟩
      · rw [he]
        rfl
      · rw [calls, if_neg hmos] at hc
        split at hc <;> exact absurd hc (List.cons_ne_nil _ _)
  | pose | less | simu =>
      rw [calls] at hc
      split at hc <;> exact absurd hc (List.cons_ne_nil _ _)
  | _ => exact absurd hc (List.cons_ne_nil _ _)

/-- Nothing that is kept looked beyond the trace. -/
theorem kept_le {m : Nat} {g : Form} {nail : Nail} {e' : Edge}
    (ht : Tried mug kit false n f tub m g nail) (h : parse mug kit n f tub = pure e)
    (hg : parse mug kit m g nail = pure e') : e'.p ≤ e.p := by
  induction ht generalizing e with
  | self n f tub =>
      rw [h, Virt.pure_inj] at hg
      rw [hg]
  | call hc hk ht ih =>
      obtain ⟨ec, hr, hle⟩ := (parse_kept h).back _ hc
      exact (ih hr hg).trans (hle (by simpa using hk))

theorem Comes.le {p : Hair} (hp : Comes mug kit false n f tub p)
    (h : parse mug kit n f tub = pure e) : p ≤ e.p := by
  obtain ⟨m, g, nail, ht, rfl⟩ := hp
  obtain ⟨e', hg⟩ := ht.returns h
  exact (looks_le hg).trans (kept_le ht h hg)

/-- The trace is that of a rule in the kept parts that tries no others. -/
theorem comes_trace (h : parse mug kit n f tub = pure e) : Comes mug kit false n f tub e.p := by
  induction n generalizing f tub e with
  | zero => cases h
  | succ n ih =>
      rcases (parse_kept h).reached with hnil | ⟨c, hc, hk, ec, hr, hp⟩
      · exact ⟨n + 1, f, tub, .self _ _ _, (trace_looks h hnil).symm⟩
      · rw [← hp]
        exact (ih hr).trans (.call hc hk (.self _ _ _))

theorem Farthest.le {p p' : Hair} (h : parse mug kit n f tub = pure e)
    (hf : Farthest mug kit n f tub p) (hp : Comes mug kit true n f tub p') : p' ≤ p := by
  obtain ⟨m, g, nail, ht, rfl⟩ := hp
  obtain ⟨e', hg⟩ := ht.returns h
  exact (looks_le hg).trans (hf.2 _ _ _ _ ht hg)

theorem farthest_iff (h : parse mug kit n f tub = pure e) :
    Farthest mug kit n f tub e.p ↔ KeepsFarthest mug kit n f tub := by
  constructor
  · intro hf p hp
    exact ⟨e.p, comes_trace h, hf.le h hp⟩
  · intro hkeeps
    refine ⟨(comes_trace h).all, fun m g nail e' ht hg => ?_⟩
    obtain ⟨p, hp, hle⟩ := hkeeps e'.p ((comes_trace hg).all.trans ht)
    exact hle.trans (hp.le h)

theorem ForgetsNothing.sub {m : Nat} {g : Form} {nail : Nail}
    (hf : ForgetsNothing mug kit n f tub) (ht : Tried mug kit true n f tub m g nail) :
    ForgetsNothing mug kit m g nail :=
  fun _ _ _ _ _ ht' => hf _ _ _ _ _ (ht.trans ht')

theorem ForgetsNothing.farthest (hf : ForgetsNothing mug kit n f tub)
    (h : parse mug kit n f tub = pure e) : Farthest mug kit n f tub e.p := by
  refine ⟨(comes_trace h).all, ?_⟩
  induction n generalizing f tub e with
  | zero => cases h
  | succ n ih =>
      have hkept := parse_kept h
      -- what is tried in a rule that is kept
      have hback (d : Call) (hd : d ∈ calls mug kit n f tub) (hk : d.keep = true) (p : Hair)
          (hp : Comes mug kit true n d.rule d.tub p) : p ≤ e.p := by
        obtain ⟨ed, hr, hle⟩ := hkept.back d hd
        have hfar : Farthest mug kit n d.rule d.tub ed.p :=
          ⟨(comes_trace hr).all, ih (hf.sub (.call hd rfl (.self _ _ _))) hr⟩
        exact (hfar.le hr hp).trans (hle hk)
      intro m g nail e' ht hg
      cases ht with
      | self =>
          rw [h, Virt.pure_inj] at hg
          rw [hg]
      | @call _ _ _ _ _ _ c hc hk ht =>
          have hp := (comes_trace hg).all.trans ht
          cases hkeep : c.keep with
          | true => exact hback c hc hkeep _ hp
          | false =>
              obtain ⟨d, hd, hk, p', hp', hle⟩ := hf _ _ _ c _ (.self _ _ _) hc hkeep hp
              exact hle.trans (hback d hd hk p' hp')

/-- The traces of all rules that are tried are right exactly if no step forgets a farther look. -/
theorem allFarthest_iff (h : parse mug kit n f tub = pure e) :
    AllFarthest mug kit n f tub ↔ ForgetsNothing mug kit n f tub := by
  constructor
  · intro hall m g nail c p ht hc hk hp
    obtain ⟨e', hg⟩ := ht.returns h
    have hfar := hall _ _ _ _ ht hg
    rcases (parse_kept hg).reached with hnil | ⟨d, hd, hk', ed, hr, he⟩
    · rw [hnil] at hc
      cases hc
    · refine ⟨d, hd, hk', ed.p, (comes_trace hr).all, ?_⟩
      rw [he]
      exact hfar.le hg (hp.trans (.call hc rfl (.self _ _ _)))
  · intro hf m g nail e' ht hg
    exact (hf.sub ht).farthest hg

/-- What a rule leaves is a suffix at its own hair, and the trace is not before it. The trace is
the farthest hair that was come to, exactly if the parts that `stun` and `simu` do not forget look
as far as all; and so is that of every rule in it, exactly if no step forgets a look beyond the
part that it keeps. -/
theorem trace_farthest (h : parse mug kit n f tub = pure e) :
    (∀ p q, e.q = some (p, q) →
        (∃ l, tub.q = l ++ q.q ∧ q.p = advance tub.p l) ∧ q.p ≤ e.p) ∧
      (Farthest mug kit n f tub e.p ↔ KeepsFarthest mug kit n f tub) ∧
      (AllFarthest mug kit n f tub ↔ ForgetsNothing mug kit n f tub) := by
  have hsane := parse_sane h
  refine ⟨fun p q hq => ?_, farthest_iff h, allFarthest_iff h⟩
  have hrest : e.rest = some q := by
    rw [Edge.rest, hq]
    rfl
  exact ⟨hsane.leaves q hrest, hsane.behind q hrest⟩

/-- `abc` or an `a`. -/
def abcOrA : Form := .pose (.plug (.plug (.just 97) (.just 98)) (.just 99)) (.just 97)

theorem trace_farthest_abcOrA :
    let tub : Nail := ⟨⟨1, 1⟩, [97, 97, 98, 99]⟩
    (∃ l, tub.q = l ++ [] ∧ (⟨1, 5⟩ : Hair) = advance tub.p l) ∧
      (Farthest Hoon.mug (fun _ => .fail) 6 (.stun 0 2 abcOrA) tub ⟨1, 5⟩ ↔
        KeepsFarthest Hoon.mug (fun _ => .fail) 6 (.stun 0 2 abcOrA) tub) ∧
      (AllFarthest Hoon.mug (fun _ => .fail) 6 (.stun 0 2 abcOrA) tub ↔
        ForgetsNothing Hoon.mug (fun _ => .fail) 6 (.stun 0 2 abcOrA) tub) := by
  intro tub
  let abc : Noun := .cell (.cell (.atom 97) (.atom 98)) (.atom 99)
  have hrun : parse Hoon.mug (fun _ => .fail) 6 (.stun 0 2 abcOrA) tub
      = pure ⟨⟨1, 5⟩, some (.cell (.atom 97) (.cell abc (.atom 0)), ⟨⟨1, 5⟩, []⟩)⟩ := rfl
  obtain ⟨hsuffix, hfarthest⟩ := trace_farthest hrun
  exact ⟨(hsuffix _ _ rfl).1, hfarthest⟩

/-- Up to two of them from `abx`: the first round looks as far as the `x` and goes on after the
`a`, and the second one does not look beyond the `b`. -/
theorem stun_forgets :
    ¬∀ (kit : Nat → Form) (n : Nat) (f : Form) (tub : Nail) (e : Edge),
      parse Hoon.mug kit n f tub = pure e → Farthest Hoon.mug kit n f tub e.p := by
  intro h
  have hall := (h (fun _ => .fail) 6 (.stun 0 2 abcOrA) ⟨⟨1, 1⟩, [97, 98, 120]⟩
    ⟨⟨1, 2⟩, some (.cell (.atom 97) (.atom 0), ⟨⟨1, 2⟩, [98, 120]⟩)⟩ rfl).2
  have hle := hall 5 abcOrA ⟨⟨1, 1⟩, [97, 98, 120]⟩
    ⟨⟨1, 3⟩, some (.atom 97, ⟨⟨1, 2⟩, [98, 120]⟩)⟩
    (.call (c := ⟨false, abcOrA, ⟨⟨1, 1⟩, [97, 98, 120]⟩⟩) List.mem_cons_self rfl (.self _ _ _)) rfl
  rw [Hair.le_iff] at hle
  simp at hle

end run

end Vere.Hoon.Parse
