import Vere.Dill.Line

/-!
# Vere.Dill.Turns

Terminals take turns. An event at one of them leaves the others as they are, unless it clears them
all (`turns_apart`), so that the line that is typed at a terminal is what its own keys make of it,
whatever is printed meanwhile and whatever the other terminals do (`line_runs`).
-/

namespace Vere.Dill

open Vere.Hoon Vere.Lib

section Stays

variable {Duct : Type} {d d' : Dy Duct} {bed : Bein}

@[simp] theorem edit_yar (d : Dy Duct) (bed : Bein) :
    (edit d bed).yar = { d.yar with bed := some bed } := rfl

/-- The same terminal, with the other terminals as they were. -/
structure Stays (d d' : Dy Duct) : Prop where
  hen : d'.hen = d.hen
  dug : d'.dug = d.dug

theorem Stays.refl (d : Dy Duct) : Stays d d := ⟨rfl, rfl⟩

theorem Stays.trans {d₁ d₂ d₃ : Dy Duct} (h : Stays d₁ d₂) (h' : Stays d₂ d₃) : Stays d₁ d₃ :=
  ⟨h'.hen.trans h.hen, h'.dug.trans h.dug⟩

theorem stays_move (d : Dy Duct) (a : Act) : Stays d (d.move a) := ⟨rfl, rfl⟩

theorem stays_curb (d : Dy Duct) (wab : List Blit) : Stays d (d.curb wab) := by
  rw [Dy.curb]
  split
  · exact .refl d
  · exact stays_move d _

theorem stays_edit (d : Dy Duct) (yar : Yard) (bed : Bein) :
    Stays d (edit { d with yar := yar } bed) := ⟨rfl, rfl⟩

/-- What a key may come to. -/
def Keeps (d : Dy Duct) (o : Option (Dy Duct)) : Prop := ∀ d', o = some d' → Stays d d'

theorem Stays.keeps (h : Stays d d') : Keeps d (some d') := by
  intro d₁ hd₁
  obtain rfl := Option.some.inj hd₁
  exact h

theorem keeps_ite {c : Prop} [Decidable c] {x y : Option (Dy Duct)} (hx : Keeps d x)
    (hy : Keeps d y) : Keeps d (if c then x else y) := by
  split
  · exact hx
  · exact hy

theorem keeps_bind {β : Type} {o : Option β} {f : β → Option (Dy Duct)}
    (h : ∀ x, Keeps d (f x)) : Keeps d (o.bind f) := by
  intro d' hd'
  obtain ⟨x, -, hx⟩ := Option.bind_eq_some_iff.1 hd'
  exact h x d' hx

theorem keeps_beep (d : Dy Duct) : Keeps d (some d.beep) := (stays_curb d _).keeps

theorem keeps_edit (d : Dy Duct) (bed : Bein) : Keeps d (some (edit d bed)) :=
  (stays_edit d d.yar bed).keeps

theorem keeps_gore (d : Dy Duct) (bed : Bein) (hup : Nat) : Keeps d (gore d bed hup) :=
  keeps_bind fun _ => keeps_edit d _

theorem keeps_lookLoop (d : Dy Duct) (bed : Bein) (txt : List Nat) (n hup : Nat) :
    Keeps d (lookLoop d bed txt n hup) := by
  induction n generalizing hup with
  | zero => exact keeps_beep d
  | succ n ih => exact keeps_bind fun but => keeps_ite (keeps_gore d _ _) (ih _)

theorem keeps_look (d : Dy Duct) (bed : Bein) (hup : Nat) (txt : List Nat) :
    Keeps d (look d bed hup txt) := by
  refine keeps_ite (fun d' hd' => ?_) (keeps_lookLoop d bed txt _ _)
  cases hd'

theorem keeps_aro (d : Dy Duct) (bed : Bein) (p : Arrow) : Keeps d (aro d bed p) := by
  cases p with
  | d => exact keeps_ite (keeps_beep d) (keeps_gore d bed _)
  | l =>
      rw [aro, apply_ite some]
      exact keeps_ite (keeps_beep d) (keeps_edit d _)
  | r =>
      rw [aro, apply_ite some]
      exact keeps_ite (keeps_beep d) (keeps_edit d _)
  | u => exact keeps_ite (keeps_beep d) (keeps_gore d bed _)

theorem keeps_bac (d : Dy Duct) (bed : Bein) : Keeps d (some (bac d bed)) := by
  rw [bac, apply_ite some]
  exact keeps_ite (keeps_beep d) (keeps_edit d _)

theorem keeps_del (d : Dy Duct) (bed : Bein) : Keeps d (some (del d bed)) := by
  rw [del, apply_ite some]
  exact keeps_ite (keeps_beep d) (keeps_edit d _)

theorem keeps_txt (d : Dy Duct) (bed : Bein) (p : List Nat) : Keeps d (some (txt d bed p)) := by
  rw [txt, apply_ite some]
  exact keeps_ite (keeps_beep d) (keeps_edit d _)

theorem keeps_swap (d : Dy Duct) (bed : Bein) : Keeps d (swap d bed) :=
  keeps_ite (keeps_beep d) (keeps_bind fun _ => keeps_bind fun _ => keeps_edit d _)

theorem keeps_killAft (d : Dy Duct) (bed : Bein) : Keeps d (some (killAft d bed)) := by
  rw [killAft, apply_ite some]
  exact keeps_ite (keeps_beep d) (stays_edit d _ _).keeps

theorem keeps_killFore (d : Dy Duct) (bed : Bein) : Keeps d (some (killFore d bed)) := by
  rw [killFore, apply_ite some]
  exact keeps_ite (keeps_beep d) (stays_edit d _ _).keeps

theorem keeps_yank (d : Dy Duct) (bed : Bein) : Keeps d (yank d bed) :=
  keeps_ite (keeps_beep d) (keeps_bind fun p => keeps_txt d bed p)

theorem keeps_rotate (d : Dy Duct) (bed : Bein) : Keeps d (rotate d bed) :=
  keeps_ite (keeps_beep d) (keeps_bind fun _ => keeps_ite (keeps_beep d)
    (keeps_ite (keeps_beep d) (keeps_bind fun _ => (stays_edit d _ _).keeps)))

theorem keeps_ctl (d : Dy Duct) (bed : Bein) (p : Nat) : Keeps d (ctl d bed p) := by
  have hdel : Keeps d (some (if 0 = bed.bul ∧ 0 = bed.bus then d.move (.pass .kill)
      else del d bed)) := by
    rw [apply_ite some]
    exact keeps_ite (stays_move d _).keeps (keeps_del d bed)
  rw [ctl]
  refine keeps_ite (keeps_edit d _) ?_
  refine keeps_ite (keeps_aro d bed _) ?_
  refine keeps_ite hdel ?_
  refine keeps_ite (keeps_edit d _) ?_
  refine keeps_ite (keeps_aro d bed _) ?_
  refine keeps_ite (keeps_killAft d bed) ?_
  refine keeps_ite (keeps_swap d bed) ?_
  refine keeps_ite (stays_move d _).keeps ?_
  refine keeps_ite (keeps_aro d bed _) ?_
  refine keeps_ite (keeps_aro d bed _) ?_
  refine keeps_ite (keeps_killFore d bed) ?_
  refine keeps_ite (keeps_edit d _) ?_
  refine keeps_ite (stays_move d _).keeps ?_
  exact keeps_ite (keeps_yank d bed) (keeps_beep d)

theorem keeps_met (d : Dy Duct) (bed : Bein) (p : Nat) : Keeps d (met d bed p) := by
  rw [met]
  refine keeps_ite (keeps_ite (keeps_beep d) (keeps_bind fun _ => keeps_edit d _)) ?_
  refine keeps_ite (keeps_ite (keeps_beep d) (keeps_bind fun _ => keeps_edit d _)) ?_
  exact keeps_ite (keeps_rotate d bed) (keeps_beep d)

theorem keeps_ret (d : Dy Duct) (bed : Bein) : Keeps d (some (ret d bed)) := by
  rw [ret, apply_ite some]
  exact keeps_ite (keeps_beep d) (Stays.keeps ⟨rfl, rfl⟩)

theorem keeps_plain (d : Dy Duct) (bed : Bein) (b : Belt) : Keeps d (plain d bed b) := by
  cases b with
  | aro p => exact keeps_aro d bed p
  | bac => exact keeps_bac d bed
  | ctl p => exact keeps_ctl d bed p
  | del => exact keeps_del d bed
  | met p => exact keeps_met d bed p
  | ret => exact keeps_ret d bed
  | txt p => exact keeps_txt d bed p

theorem keeps_leave (d : Dy Duct) (bed : Bein) (b : Belt) : Keeps d (leave d bed b) :=
  fun d' hd' => have h := keeps_plain _ _ b d' hd'
    ⟨h.hen, h.dug⟩

theorem keeps_search (d : Dy Duct) (bed : Bein) (hyr : List Nat) (b : Belt) :
    Keeps d (search d bed hyr b) := by
  cases b with
  | bac =>
      rw [search, apply_ite some]
      exact keeps_ite (stays_curb d _).keeps (keeps_edit d _)
  | txt p => exact keeps_look d bed _ _
  | ctl p =>
      rw [search]
      exact keeps_ite (keeps_edit d _)
        (keeps_ite (keeps_ite (keeps_beep d) (keeps_look d bed _ _)) (keeps_leave d bed _))
  | aro p => exact keeps_leave d bed (.aro p)
  | del => exact keeps_leave d bed .del
  | met p => exact keeps_leave d bed (.met p)
  | ret => exact keeps_leave d bed .ret

theorem keeps_belt (d : Dy Duct) (b : Belt) : Keeps d (belt d b) := by
  rw [belt]
  split
  · exact keeps_beep d
  · split
    · exact keeps_search d _ _ b
    · exact keeps_plain d _ b

end Stays

/-! ### Printing -/

section Spares

variable {Duct Tank : Type} {re : Re Tank} {d d' : Dy Duct}

/-- The other terminals as they were, and the line that is typed. -/
structure Spares (d d' : Dy Duct) : Prop where
  stays : Stays d d'
  line : ∀ path z, Shows d.yar path z → Shows d'.yar path z

theorem Spares.refl (d : Dy Duct) : Spares d d := ⟨.refl d, fun _ _ h => h⟩

theorem Spares.trans {d₁ d₂ d₃ : Dy Duct} (h : Spares d₁ d₂) (h' : Spares d₂ d₃) : Spares d₁ d₃ :=
  ⟨h.stays.trans h'.stays, fun path z hz => h'.line path z (h.line path z hz)⟩

theorem spares_move (d : Dy Duct) (a : Act) : Spares d (d.move a) :=
  ⟨stays_move d a, fun _ _ h => h⟩

theorem spares_curb (d : Dy Duct) (wab : List Blit) : Spares d (d.curb wab) := by
  rw [Dy.curb]
  split
  · exact .refl d
  · exact spares_move d _

/-- A prompt that is shown again. -/
theorem spares_edit {bed : Bein} (h : d.yar.bed = some bed) : Spares d (edit d bed) := by
  have hyar : (edit d bed).yar = d.yar := by
    rw [edit_yar, ← h]
  exact ⟨stays_edit d d.yar bed, fun _ _ hz => hyar ▸ hz⟩

theorem spares_furl {wol : List Tape} (hf : furl d wol = some d') : Spares d d' := by
  obtain ⟨l, -, hf⟩ := Option.bind_eq_some_iff.1 hf
  have hd := spares_curb d l.reverse
  simp only at hf
  split at hf
  · obtain rfl := Option.some.inj hf
    exact hd
  next bed hbed =>
    obtain rfl := Option.some.inj hf
    exact hd.trans (spares_edit hbed)

theorem spares_fume {pef : Nat} {tac : Tank} (hf : fume re d pef tac = some d') :
    Spares d d' := by
  obtain ⟨wol, -, hf⟩ := Option.bind_eq_some_iff.1 hf
  exact spares_furl hf

theorem spares_trace {q : List Tank} (ht : trace re d q = some d') : Spares d d' := by
  induction q generalizing d' with
  | nil =>
      obtain rfl := Option.some.inj ht
      exact .refl d
  | cons i q ih =>
      obtain ⟨d₁, hd₁, ht⟩ := Option.bind_eq_some_iff.1 ht
      exact (ih hd₁).trans (spares_fume ht)

end Spares

/-! ### Events -/

section Vane

variable {Duct Tank : Type} {re : Re Tank} {d d' : Dy Duct} {path : List Nat} {z : Line}

theorem stays_helo {p : List Nat} {q : Prod} (hl : helo d p q = some d') : Stays d d' := by
  have hkeeps : Keeps d (helo d p q) := by
    rw [helo]
    split
    · exact keeps_bind fun _ => keeps_edit d _
    · exact keeps_ite (keeps_edit d _) (keeps_bind fun _ => keeps_edit d _)
  exact hkeeps d' hl

/-- A prompt of the same path keeps the line that is typed. -/
theorem helo_shows (h : Shows d.yar path z) {q : Prod} (hq : q.p ≠ .none)
    (hl : helo d path q = some d') : Shows d'.yar path z := by
  obtain ⟨bed, h⟩ := h
  rw [helo, h.here] at hl
  simp only [if_pos h.path.symm] at hl
  obtain rfl := Option.some.inj hl
  exact ⟨_, rfl, h.path, h.plain, hq, h.but, h.bus, h.bul, h.size, h.turn, h.kills⟩

theorem spares_leap {sih : Sign Tank} (hne : ∀ p q, sih ≠ .helo p q)
    (hl : leap re d sih = some d') : Spares d d' := by
  cases sih with
  | crud p q => exact spares_trace hl
  | helo p q => exact absurd rfl (hne p q)
  | note p q =>
      simp only [leap] at hl
      split at hl
      · exact spares_fume hl
      · obtain rfl := Option.some.inj hl
        exact .refl d
  | talk p => exact spares_furl hl
  | tell p => exact spares_furl hl
  | text p => exact spares_furl hl
  | warn p => exact spares_fume hl
  | _ =>
      obtain rfl := Option.some.inj hl
      exact spares_move d _

theorem stays_leap {sih : Sign Tank} (hl : leap re d sih = some d') : Stays d d' := by
  cases sih with
  | helo p q => exact stays_helo hl
  | _ => exact (spares_leap (by rintro p q ⟨⟩) hl).stays

variable [DecidableEq Duct]

theorem dug_yerk (s : Vane Duct) (d : Dy Duct) : (s.yerk d).dug d.hen = some d.yar :=
  Function.update_self _ _ _

omit [DecidableEq Duct] in
theorem dy_yar {s : Vane Duct} {hen : Duct} {yar : Yard} (h : s.dug hen = some yar) :
    (s.dy hen).yar = yar := by
  rw [Vane.dy, h]
  rfl

theorem spares_lear {kyz : Kiss Tank} (hbelt : ∀ b, kyz ≠ .belt b) (hharm : kyz ≠ .harm)
    (hhook : kyz ≠ .hook) (hl : lear re d kyz = some d') : Spares d d' := by
  cases kyz with
  | belt b => exact absurd rfl (hbelt b)
  | blew p q =>
      obtain rfl := Option.some.inj hl
      exact ⟨⟨rfl, rfl⟩, fun _ _ ⟨bed, h⟩ =>
        ⟨bed, h.here, h.path, h.plain, h.types, h.but, h.bus, h.bul, h.size, h.turn, h.kills⟩⟩
  | crud p q => exact spares_trace hl
  | harm => exact absurd rfl hharm
  | hook => exact absurd rfl hhook
  | noop =>
      obtain rfl := Option.some.inj hl
      exact .refl d
  | talk p => exact spares_furl hl
  | text p => exact spares_furl hl
  | _ =>
      obtain rfl := Option.some.inj hl
      exact spares_move d _

namespace Vane.Event

/-- The terminal of an event. -/
def hen : Event Duct Tank → Duct
  | .call hen _ => hen
  | .take hen _ => hen

/-- What an event does to the line that is typed at the prompt `path` of a terminal. At the others
it does nothing to it, and what is printed does not either. A request that clears every terminal is
left out, and a prompt of another path or one that takes no text. -/
def edits (hen : Duct) (path : List Nat) (ev : Event Duct Tank) : Option (Line → Line) :=
  match ev with
  | .call h (.belt b) => if h = hen then b.edits else some id
  | .call h .harm => if h = hen then some id else none
  | .take h (.helo p q) =>
      if h = hen then if p = path ∧ q.p ≠ .none then some id else none else some id
  | _ => some id

/-- The line after an event. -/
def type (hen : Duct) (path : List Nat) (ev : Event Duct Tank) (z : Line) : Option Line :=
  (ev.edits hen path).map fun f => f z

end Vane.Event

open Vane.Event

theorem lear_hen {kyz : Kiss Tank} (hl : lear re d kyz = some d') : d'.hen = d.hen := by
  cases kyz with
  | belt b => exact (keeps_belt d b d' hl).hen
  | harm =>
      obtain rfl := Option.some.inj hl
      rfl
  | hook =>
      obtain rfl := Option.some.inj hl
      rfl
  | _ => exact (spares_lear (by rintro b ⟨⟩) (by rintro ⟨⟩) (by rintro ⟨⟩) hl).stays.hen

theorem lear_dug {kyz : Kiss Tank} (hharm : kyz ≠ .harm) (hl : lear re d kyz = some d') {e : Duct}
    (he : e ≠ d.hen) : d'.dug e = d.dug e := by
  cases kyz with
  | belt b => rw [(keeps_belt d b d' hl).dug]
  | harm => exact absurd rfl hharm
  | hook =>
      obtain rfl := Option.some.inj hl
      exact Function.update_of_ne he _ _
  | _ => rw [(spares_lear (by rintro b ⟨⟩) (by rintro ⟨⟩) (by rintro ⟨⟩) hl).stays.dug]

/-- An event at a terminal leaves the others as they are, unless it clears them all. -/
theorem turns_apart {ev : Vane.Event Duct Tank} {s s' : Vane Duct}
    (hs : Vane.step re ev s = some s') (hharm : ev ≠ .call ev.hen .harm) {e : Duct}
    (he : e ≠ ev.hen) : s'.dug e = s.dug e := by
  cases ev with
  | call hen kyz =>
      obtain ⟨d, hd, hs⟩ := Option.bind_eq_some_iff.1 hs
      obtain rfl := Option.some.inj hs
      have hhen : d.hen = hen := lear_hen hd
      have hkyz : kyz ≠ .harm := by
        rintro rfl
        exact hharm rfl
      exact (Function.update_of_ne (hhen ▸ he) _ _).trans (lear_dug hkyz hd he)
  | take hen sih =>
      obtain ⟨d, hd, hs⟩ := Option.bind_eq_some_iff.1 hs
      obtain rfl := Option.some.inj hs
      have hstays := stays_leap hd
      have hhen : d.hen = hen := hstays.hen
      exact (Function.update_of_ne (hhen ▸ he) _ _).trans (congrFun hstays.dug e)

theorem lear_shows (h : Shows d.yar path z) {kyz : Kiss Tank} {f : Line → Line}
    (hf : (Vane.Event.call d.hen kyz).edits d.hen path = some f)
    (hl : lear re d kyz = some d') : Shows d'.yar path (f z) := by
  cases kyz with
  | belt b =>
      rw [Vane.Event.edits, if_pos rfl] at hf
      obtain ⟨d₁, hd₁, hs⟩ := belt_shows h hf
      obtain rfl := Option.some.inj (hd₁.symm.trans hl)
      exact hs
  | harm =>
      rw [Vane.Event.edits, if_pos rfl] at hf
      obtain rfl := Option.some.inj hf
      obtain rfl := Option.some.inj hl
      exact h
  | hook =>
      obtain rfl := Option.some.inj hf
      obtain rfl := Option.some.inj hl
      exact h
  | _ =>
      obtain rfl := Option.some.inj hf
      exact (spares_lear (by rintro b ⟨⟩) (by rintro ⟨⟩) (by rintro ⟨⟩) hl).line path z h

theorem leap_shows (h : Shows d.yar path z) {sih : Sign Tank} {f : Line → Line}
    (hf : (Vane.Event.take d.hen sih).edits d.hen path = some f)
    (hl : leap re d sih = some d') : Shows d'.yar path (f z) := by
  cases sih with
  | helo p q =>
      rw [Vane.Event.edits, if_pos rfl] at hf
      obtain ⟨⟨rfl, hq⟩, hid⟩ := Option.ite_none_right_eq_some.1 hf
      obtain rfl := Option.some.inj hid
      exact helo_shows h hq hl
  | _ =>
      obtain rfl := Option.some.inj hf
      exact (spares_leap (by rintro p q ⟨⟩) hl).line path z h

/-- A line at a terminal of the vane. -/
def Vane.Shows (s : Vane Duct) (hen : Duct) (path : List Nat) (z : Line) : Prop :=
  ∃ yar, s.dug hen = some yar ∧ Dill.Shows yar path z

/-- What one event does to a line. -/
theorem Vane.Shows.step {s s' : Vane Duct} {hen : Duct} (h : s.Shows hen path z)
    {ev : Vane.Event Duct Tank} (hs : Vane.step re ev s = some s') {z' : Line}
    (hz : ev.type hen path z = some z') : s'.Shows hen path z' := by
  obtain ⟨yar, hyar, h⟩ := h
  obtain ⟨f, hf, rfl⟩ := Option.map_eq_some_iff.1 hz
  by_cases he : hen = ev.hen
  · cases ev with
    | call e kyz =>
        obtain rfl : hen = e := he
        obtain ⟨d, hd, hs⟩ := Option.bind_eq_some_iff.1 hs
        obtain rfl := Option.some.inj hs
        have hhen : d.hen = hen := lear_hen hd
        refine ⟨d.yar, by rw [← hhen]; exact dug_yerk s d, ?_⟩
        exact lear_shows (d := s.dy hen) (by rw [dy_yar hyar]; exact h) hf hd
    | take e sih =>
        obtain rfl : hen = e := he
        obtain ⟨d, hd, hs⟩ := Option.bind_eq_some_iff.1 hs
        obtain rfl := Option.some.inj hs
        have hhen : d.hen = hen := (stays_leap hd).hen
        refine ⟨d.yar, by rw [← hhen]; exact dug_yerk s d, ?_⟩
        exact leap_shows (d := s.dy hen) (by rw [dy_yar hyar]; exact h) hf hd
  · have hharm : ev ≠ .call ev.hen .harm := by
      intro heq
      rw [heq, Vane.Event.edits, if_neg fun h => he h.symm] at hf
      cases hf
    have hid : f = id := by
      cases ev with
      | call e kyz =>
          cases kyz with
          | belt b =>
              rw [Vane.Event.edits, if_neg fun h => he h.symm] at hf
              exact (Option.some.inj hf).symm
          | harm => exact absurd rfl hharm
          | _ => exact (Option.some.inj hf).symm
      | take e sih =>
          cases sih with
          | helo p q =>
              rw [Vane.Event.edits, if_neg fun h => he h.symm] at hf
              exact (Option.some.inj hf).symm
          | _ => exact (Option.some.inj hf).symm
    subst hid
    exact ⟨yar, (turns_apart hs hharm he).trans hyar, h⟩

/-- In every run, whatever is printed meanwhile and whatever the other terminals do, a line is what
its own keys make of it. -/
theorem line_runs (re : Re Tank) (evs : List (Vane.Event Duct Tank)) {s s' : Vane Duct} {hen : Duct}
    {path : List Nat} {z z' : Line} (h : s.Shows hen path z)
    (hs : runs (Vane.step re) evs s = some s') (hz : runs (Vane.Event.type hen path) evs z = some z') :
    s'.Shows hen path z' :=
  runs_sim (R := fun s z => s.Shows hen path z) (fun _ _ _ _ _ h hs hz => h.step hs hz) evs h hs hz

/-- The line of a new terminal. -/
def emptyLine : Line := ⟨[], [], ⟨[], 0, Nat.zero_le _, fun h => absurd rfl h⟩⟩

omit [DecidableEq Duct] in
theorem shows_empty : (Vane.init.yerk (edit (Vane.init.dy 0) emptyBed)).Shows 0 [] emptyLine :=
  ⟨_, rfl, emptyBed, rfl, rfl, rfl, (nomatch ·), rfl, rfl, rfl, rfl, rfl, rfl⟩

/-- Two characters are typed while there is printing, and another terminal is at work. -/
def evs : List (Vane.Event Nat Unit) :=
  [.call 0 (.belt (.txt ['a'.toNat])), .take 0 (.text ['!'.toNat]), .call 1 (.belt .ret),
    .call 0 (.belt (.txt ['b'.toNat])), .take 1 .hail, .call 0 (.belt (.aro .l))]

omit [DecidableEq Duct] in
theorem line_runs_ab : ∃ s s' : Vane Nat, runs (Vane.step quiet) evs s = some s' ∧
    s'.Shows 0 [] { emptyLine with fore := ['a'.toNat], aft := ['b'.toNat] } := by
  obtain ⟨s', hs'⟩ : ∃ s', runs (Vane.step quiet) evs
      (Vane.init.yerk (edit (Vane.init.dy 0) emptyBed)) = some s' := ⟨_, rfl⟩
  exact ⟨_, s', hs', line_runs quiet evs shows_empty hs' rfl⟩

/-! ### What keys do together -/

/-- The line after a key. -/
def Belt.press (b : Belt) (z : Line) : Option Line := b.edits.map fun f => f z

/-- Keys at a terminal. -/
def keys (hen : Duct) (bs : List Belt) : List (Vane.Event Duct Tank) :=
  bs.map fun b => .call hen (.belt b)

/-- Keys that edit have a result, and the line in it is what they make of it. -/
theorem keys_shows (re : Re Tank) (bs : List Belt) {s : Vane Duct} {hen : Duct} {z' : Line}
    (h : s.Shows hen path z) (hz : runs Belt.press bs z = some z') :
    ∃ s', runs (Vane.step re) (keys hen bs) s = some s' ∧ s'.Shows hen path z' := by
  induction bs generalizing s z with
  | nil =>
      cases hz
      exact ⟨s, rfl, h⟩
  | cons b bs ih =>
      obtain ⟨z₁, hz₁, hz⟩ := Option.bind_eq_some_iff.1 hz
      obtain ⟨f, hf, rfl⟩ := Option.map_eq_some_iff.1 hz₁
      obtain ⟨yar, hyar, hyz⟩ := h
      obtain ⟨d, hd, hs⟩ := belt_shows (d := s.dy hen) (by rw [dy_yar hyar]; exact hyz) hf
      have hhen : d.hen = hen := (keeps_belt _ _ _ hd).hen
      have hstep : Vane.step re (.call hen (.belt b)) s = some (s.yerk d) := by
        rw [Vane.step, lear, hd]
        rfl
      obtain ⟨s', hs', hshows⟩ := ih (s := s.yerk d)
        ⟨d.yar, by rw [← hhen]; exact dug_yerk s d, hs⟩ hz
      refine ⟨s', ?_, hshows⟩
      rw [keys, List.map_cons, runs, hstep]
      exact hs'

theorem press_replicate {b : Belt} {f : Line → Line} (hb : b.edits = some f) (n : Nat) (z : Line) :
    runs Belt.press (List.replicate n b) z = some (f^[n] z) := by
  induction n generalizing z with
  | zero => rfl
  | succ n ih =>
      rw [List.replicate_succ, runs, Belt.press, hb, Function.iterate_succ_apply]
      exact ih (f z)

/-- At every terminal that takes text, what is killed is yanked back, from behind the cursor and
from before it, and what is typed is rubbed out. -/
theorem line_laws (re : Re Tank) {s : Vane Duct} {hen : Duct} (h : s.Shows hen path z) :
    (z.aft ≠ [] → ∃ s', runs (Vane.step re) (keys hen [.ctl 'k'.toNat, .ctl 'y'.toNat]) s = some s' ∧
      s'.Shows hen path { z.fin with ring := z.ring.add z.aft }) ∧
    (z.fore ≠ [] → ∃ s', runs (Vane.step re) (keys hen [.ctl 'u'.toNat, .ctl 'y'.toNat]) s = some s' ∧
      s'.Shows hen path { z with ring := z.ring.add z.fore }) ∧
    ∀ t : List Nat, ∃ s', runs (Vane.step re)
      (keys hen (.txt t :: List.replicate t.length .bac)) s = some s' ∧ s'.Shows hen path z := by
  refine ⟨?_, ?_, ?_⟩
  · intro haft
    rw [← Zip.killAft_yank z haft]
    exact keys_shows re _ h rfl
  · intro hfore
    rw [← Zip.killFore_yank z hfore]
    exact keys_shows re _ h rfl
  · intro t
    refine keys_shows re _ h ?_
    have hrubs : runs Belt.press (List.replicate t.length .bac) (z.type t) =
        some (Zip.rubs t.length (z.type t)) := press_replicate rfl _ _
    rw [Zip.rubs_type] at hrubs
    exact hrubs

omit [DecidableEq Duct] in
theorem line_laws_ab : ∃ s s' : Vane Nat,
    runs (Vane.step quiet) (keys 0 [.ctl 'k'.toNat, .ctl 'y'.toNat]) s = some s' ∧
      s'.Shows 0 [] ⟨['a'.toNat, 'b'.toNat], [], emptyLine.ring.add ['b'.toNat]⟩ := by
  have htyped : runs Belt.press [.txt ['a'.toNat, 'b'.toNat], .aro .l] emptyLine =
      some { emptyLine with fore := ['a'.toNat], aft := ['b'.toNat] } := rfl
  obtain ⟨s, -, hs⟩ := keys_shows quiet _ shows_empty htyped
  obtain ⟨s', hruns, hs'⟩ := (line_laws quiet hs).1 (by simp)
  exact ⟨s, s', hruns, hs'⟩

end Vane

end Vere.Dill
