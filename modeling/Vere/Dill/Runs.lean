import Mathlib.Tactic.Common
import Vere.Dill.Term
import Vere.Hoon.Bloq
import Vere.Lib.Reach

/-!
# Vere.Dill.Runs

What holds of every terminal at all times: the lengths that are kept beside the lists are theirs,
the cursor is in the text, the kill ring and the history are read inside, and a cursor that is
shown is in the line shown with it (`dill_sound`).

Every key ends in `edit`, so that a key is sound when the bed it makes is (`edit_ok`).
-/

namespace Vere.Dill

open Vere.Hoon Vere.Lib

/-- A prompt that fits what its terminal remembers of its history. -/
structure Bein.Ok (hist : Option Hist) (bed : Bein) : Prop where
  bul : bed.bul = bed.but.length
  bus : bed.bus ≤ bed.bul
  pol : bed.pol = bed.pot.length
  depth : bed.hyt.p = bed.hyt.q.length
  rows : bed.hyt.p = (hist.getD ⟨0, []⟩).p + 1
  hiz : bed.hiz < bed.hyt.p

/-- A kill ring that is read inside. -/
structure Blot.Ok (ring : Blot) : Prop where
  size : ring.p = ring.r.length
  few : ring.p ≤ 16
  depth : ring.p ≠ 0 → ring.q < ring.p

structure Yard.Ok (yar : Yard) : Prop where
  bed : ∀ bed, yar.bed = some bed → bed.Ok (yar.hist bed.hux)
  ring : yar.ring.Ok
  hist : ∀ p h, yar.hist p = some h → h.p = h.q.length

/-- Blits in which every cursor stands in the line right before it. -/
def Fits (l : List Blit) : Prop :=
  ∀ l₁ n l₂, l = l₁ ++ .hop n :: l₂ → ∃ l₀ t, l₁ = l₀ ++ [.lin t] ∧ n ≤ t.length

/-- A move that shows no cursor outside its line. -/
def Act.Ok : Act → Prop
  | .give (.blit l) => Fits l
  | _ => True

/-- A terminal at work, among terminals. -/
structure Dy.Ok {Duct : Type} (d : Dy Duct) : Prop where
  yar : d.yar.Ok
  dug : ∀ e y, d.dug e = some y → y.Ok
  mos : ∀ m ∈ d.mos, m.2.Ok

section Fits

theorem fits_plain {l : List Blit} (h : ∀ n, .hop n ∉ l) : Fits l := by
  rintro l₁ n l₂ rfl
  exact absurd (by simp) (h n)

theorem fits_edit {t : List Nat} {n : Nat} (h : n ≤ t.length) : Fits [.lin t, .hop n] := by
  intro l₁ m l₂ he
  match l₁ with
  | [] => cases he
  | [_] =>
      cases he
      exact ⟨[], t, rfl, h⟩
  | [_, _] => cases he
  | _ :: _ :: _ :: _ => cases he

end Fits

section Core

variable {Duct : Type} {d d' : Dy Duct} {bed : Bein}

theorem Dy.Ok.move (h : d.Ok) {a : Act} (ha : a.Ok) : (d.move a).Ok := by
  refine ⟨h.yar, h.dug, fun m hm => ?_⟩
  rcases List.mem_cons.1 hm with rfl | hm
  · exact ha
  · exact h.mos m hm

theorem Dy.Ok.curb (h : d.Ok) {wab : List Blit} (hf : Fits wab.reverse) : (d.curb wab).Ok := by
  rw [Dy.curb]
  split
  · exact h
  · exact h.move hf

theorem Dy.Ok.beep (h : d.Ok) : d.beep.Ok := h.curb (fits_plain (by simp))

/-- A terminal whose yard is changed. -/
theorem Dy.Ok.yard (h : d.Ok) {yar : Yard} (hy : yar.Ok) : ({ d with yar := yar } : Dy Duct).Ok :=
  ⟨hy, h.dug, h.mos⟩

theorem length_shown (bed : Bein) : bed.shown.length = bed.but.length := by
  rw [Bein.shown]
  split <;> simp

/-- A bed that fits is shown with its cursor in the line. -/
theorem edit_ok (h : d.Ok) (hb : bed.Ok (d.yar.hist bed.hux)) : (edit d bed).Ok := by
  have hy : ({ d.yar with bed := some bed } : Yard).Ok := by
    refine ⟨fun bed' he => ?_, h.yar.ring, h.yar.hist⟩
    obtain rfl := Option.some.inj he
    exact hb
  refine (h.yard hy).curb (fits_edit ?_)
  have hbus := hb.bus
  have hpol := hb.pol
  rw [List.length_append, length_shown, ← hb.bul]
  cases bed.hyr with
  | none =>
      simp only
      omega
  | some txt =>
      simp only
      omega

/-- A prompt of another text. -/
theorem Bein.Ok.text {hist : Option Hist} (hb : bed.Ok hist) {bul bus : Nat} {but : List Nat}
    (hbul : bul = but.length) (hbus : bus ≤ bul) :
    ({ bed with bul := bul, bus := bus, but := but } : Bein).Ok hist :=
  ⟨hbul, hbus, hb.pol, hb.depth, hb.rows, hb.hiz⟩

theorem gore_ok (h : d.Ok) (hb : bed.Ok (d.yar.hist bed.hux)) {hup : Nat} (hhup : hup < bed.hyt.p)
    (hg : gore d bed hup = some d') : d'.Ok := by
  obtain ⟨but, -, hd⟩ := Option.bind_eq_some_iff.1 hg
  obtain rfl := Option.some.inj hd
  exact edit_ok h ⟨rfl, Nat.le_refl _, hb.pol, hb.depth, hb.rows, hhup⟩

theorem kill_ok {ring : Blot} (h : ring.Ok) (txt : List Nat) : (kill ring txt).Ok := by
  have hsize := h.size
  have hfew := h.few
  rw [kill]
  split
  · refine ⟨?_, ?_, fun _ => ?_⟩
    · simp only [List.length_cons, List.length_take]
      omega
    · simp
    · simp
  · refine ⟨?_, ?_, fun _ => ?_⟩
    · simp only [List.length_cons]
      omega
    · simp only
      omega
    · simp

theorem Dy.Ok.ring (h : d.Ok) {ring : Blot} (hr : ring.Ok) :
    ({ d with yar := { d.yar with ring := ring } } : Dy Duct).Ok :=
  h.yard ⟨h.yar.bed, hr, h.yar.hist⟩

theorem lookLoop_ok (h : d.Ok) (hb : bed.Ok (d.yar.hist bed.hux)) {txt : List Nat} {n hup : Nat}
    (hn : hup + n = bed.hyt.p) (hl : lookLoop d bed txt n hup = some d') : d'.Ok := by
  induction n generalizing hup with
  | zero =>
      obtain rfl := Option.some.inj hl
      exact h.beep
  | succ n ih =>
      obtain ⟨but, -, hd⟩ := Option.bind_eq_some_iff.1 hl
      split at hd
      · have hb' : ({ bed with hyr := some txt } : Bein).Ok (d.yar.hist bed.hux) :=
          ⟨hb.bul, hb.bus, hb.pol, hb.depth, hb.rows, hb.hiz⟩
        have hlt : hup < ({ bed with hyr := some txt } : Bein).hyt.p := by
          simp only
          omega
        exact gore_ok h hb' hlt hd
      · exact ih (by omega) hd

theorem look_ok (h : d.Ok) (hb : bed.Ok (d.yar.hist bed.hux)) {txt : List Nat} {hup : Nat}
    (hl : look d bed hup txt = some d') : d'.Ok := by
  rw [look] at hl
  split at hl
  · cases hl
  · exact lookLoop_ok h hb (by omega) hl

/-! ### Keys -/

theorem wodWord_le {bul bus n : Nat} {but : List Nat} (h : wodWord bul but bus = some n)
    (hbus : bus ≤ bul) : n ≤ bul := by
  induction bus using wodWord.induct bul but with
  | case1 =>
      rw [wodWord, if_pos rfl] at h
      exact (Option.some.inj h).symm.le
  | case2 bus hne hb =>
      rw [wodWord.eq_def, if_neg hne] at h
      split at h <;> simp_all
  | case3 bus hne hb =>
      rw [wodWord.eq_def, if_neg hne] at h
      split at h <;> simp_all
  | case4 bus hne hb ih =>
      rw [wodWord.eq_def, if_neg hne] at h
      split at h
      · simp_all
      · simp_all
      · exact ih h (by omega)

theorem wodBlank_le {bul bus n : Nat} {but : List Nat} (h : wodBlank bul but bus = some n)
    (hbus : bus ≤ bul) : n ≤ bul := by
  induction bus using wodBlank.induct bul but with
  | case1 =>
      rw [wodBlank, if_pos rfl] at h
      exact (Option.some.inj h).symm.le
  | case2 bus hne hb =>
      rw [wodBlank.eq_def, if_neg hne] at h
      split at h <;> simp_all
  | case3 bus hne hb ih =>
      rw [wodBlank.eq_def, if_neg hne] at h
      split at h
      · simp_all
      · exact ih h (by omega)
      · simp_all
  | case4 bus hne hb =>
      rw [wodBlank.eq_def, if_neg hne] at h
      split at h
      · simp_all
      · simp_all
      · exact wodWord_le h hbus

theorem wobWord_le {bus n : Nat} {but : List Nat} (h : wobWord but bus = some n) : n ≤ bus := by
  induction bus with
  | zero => exact (Option.some.inj h).symm.le
  | succ bus ih =>
      obtain ⟨b, -, hb⟩ := Option.bind_eq_some_iff.1 h
      split at hb
      · exact (Option.some.inj hb).symm.le
      · exact (ih hb).trans (Nat.le_succ bus)

theorem wobBlank_le {bus n : Nat} {but : List Nat} (h : wobBlank but bus = some n) : n ≤ bus := by
  induction bus with
  | zero => exact (Option.some.inj h).symm.le
  | succ bus ih =>
      obtain ⟨b, -, hb⟩ := Option.bind_eq_some_iff.1 h
      split at hb
      · exact (ih hb).trans (Nat.le_succ bus)
      · exact wobWord_le hb

section Bed

variable (h : d.Ok) (hb : bed.Ok (d.yar.hist bed.hux))

include h hb

theorem aro_ok {p : Arrow} (ha : aro d bed p = some d') : d'.Ok := by
  have hbul := hb.bul
  have hbus := hb.bus
  cases p with
  | d =>
      rw [aro] at ha
      split at ha
      · obtain rfl := Option.some.inj ha
        exact h.beep
      · have hhiz := hb.hiz
        exact gore_ok h hb (by omega) ha
  | l =>
      obtain rfl := Option.some.inj ha
      split
      · exact h.beep
      · exact edit_ok h (hb.text hbul (by omega))
  | r =>
      obtain rfl := Option.some.inj ha
      split
      · exact h.beep
      · exact edit_ok h (hb.text hbul (by omega))
  | u =>
      rw [aro] at ha
      split at ha
      · obtain rfl := Option.some.inj ha
        exact h.beep
      · have hhiz := hb.hiz
        exact gore_ok h hb (by omega) ha

theorem bac_ok : (bac d bed).Ok := by
  have hbul := hb.bul
  have hbus := hb.bus
  rw [bac]
  split
  · exact h.beep
  · refine edit_ok h (hb.text ?_ (by omega))
    rw [List.length_append, List.length_take, List.length_drop]
    omega

theorem del_ok : (del d bed).Ok := by
  have hbul := hb.bul
  have hbus := hb.bus
  rw [del]
  split
  · exact h.beep
  · refine edit_ok h (hb.text ?_ (by omega))
    rw [List.length_append, List.length_take, List.length_drop]
    omega

theorem txt_ok (p : List Nat) : (txt d bed p).Ok := by
  have hbul := hb.bul
  have hbus := hb.bus
  rw [txt]
  split
  · exact h.beep
  · refine edit_ok h (hb.text ?_ (by omega))
    rw [List.length_append, List.length_append, List.length_take, List.length_drop]
    omega

theorem swap_ok (hs : swap d bed = some d') : d'.Ok := by
  have hbul := hb.bul
  have hbus := hb.bus
  rw [swap] at hs
  split at hs
  · obtain rfl := Option.some.inj hs
    exact h.beep
  next hlong =>
  have hpos : 2 + (if bed.bul = bed.bus then bed.bus - 2 else if 0 = bed.bus then bed.bus
      else bed.bus - 1) ≤ bed.bul := by
    split
    · omega
    · split <;> omega
  simp only at hs
  generalize (if bed.bul = bed.bus then bed.bus - 2 else if 0 = bed.bus then bed.bus
    else bed.bus - 1) = pos at hpos hs
  obtain ⟨fore, -, hs⟩ := Option.bind_eq_some_iff.1 hs
  obtain ⟨aft, -, hs⟩ := Option.bind_eq_some_iff.1 hs
  obtain rfl := Option.some.inj hs
  refine edit_ok h (hb.text ?_ hpos)
  simp only [List.length_append, List.length_take, List.length_drop, List.length_cons,
    List.length_nil]
  omega

theorem killAft_ok : (killAft d bed).Ok := by
  have hbul := hb.bul
  have hbus := hb.bus
  rw [killAft]
  split
  · exact h.beep
  · refine edit_ok (h.ring (kill_ok h.yar.ring _)) (hb.text ?_ (Nat.le_refl _))
    rw [List.length_take]
    omega

theorem killFore_ok : (killFore d bed).Ok := by
  have hbul := hb.bul
  have hbus := hb.bus
  rw [killFore]
  split
  · exact h.beep
  · refine edit_ok (h.ring (kill_ok h.yar.ring _)) (hb.text ?_ (Nat.zero_le _))
    rw [List.length_drop]
    omega

theorem yank_ok (hy : yank d bed = some d') : d'.Ok := by
  rw [yank] at hy
  split at hy
  · obtain rfl := Option.some.inj hy
    exact h.beep
  · obtain ⟨p, -, hp⟩ := Option.bind_eq_some_iff.1 hy
    obtain rfl := Option.some.inj hp
    exact txt_ok h hb p

theorem rotate_ok (hr : rotate d bed = some d') : d'.Ok := by
  have hbul := hb.bul
  have hbus := hb.bus
  have hring := h.yar.ring
  rw [rotate] at hr
  split at hr
  · obtain rfl := Option.some.inj hr
    exact h.beep
  next hne =>
  obtain ⟨dol, -, hr⟩ := Option.bind_eq_some_iff.1 hr
  simp only at hr
  split at hr
  · obtain rfl := Option.some.inj hr
    exact h.beep
  next hleo =>
  split at hr
  · obtain rfl := Option.some.inj hr
    exact h.beep
  obtain ⟨ney, -, hr⟩ := Option.bind_eq_some_iff.1 hr
  obtain rfl := Option.some.inj hr
  have hnew : Blot.Ok { d.yar.ring with
      q := if d.yar.ring.p = d.yar.ring.q + 1 then 0 else d.yar.ring.q + 1 } := by
    refine ⟨hring.size, hring.few, fun hp => ?_⟩
    have hq := hring.depth hp
    simp only at hp ⊢
    split <;> omega
  refine edit_ok (h.ring hnew) (hb.text ?_ (by omega))
  simp only [List.length_append, List.length_take, List.length_drop]
  omega

theorem ctl_ok {p : Nat} (hc : ctl d bed p = some d') : d'.Ok := by
  have hbul := hb.bul
  rw [ctl] at hc
  rcases ite_eq_iff.1 hc with ⟨-, hc⟩ | ⟨-, hc⟩
  · obtain rfl := Option.some.inj hc
    exact edit_ok h (hb.text hbul (Nat.zero_le _))
  rcases ite_eq_iff.1 hc with ⟨-, hc⟩ | ⟨-, hc⟩
  · exact aro_ok h hb hc
  rcases ite_eq_iff.1 hc with ⟨-, hc⟩ | ⟨-, hc⟩
  · obtain rfl := Option.some.inj hc
    split
    · exact h.move trivial
    · exact del_ok h hb
  rcases ite_eq_iff.1 hc with ⟨-, hc⟩ | ⟨-, hc⟩
  · obtain rfl := Option.some.inj hc
    exact edit_ok h (hb.text hbul (Nat.le_refl _))
  rcases ite_eq_iff.1 hc with ⟨-, hc⟩ | ⟨-, hc⟩
  · exact aro_ok h hb hc
  rcases ite_eq_iff.1 hc with ⟨-, hc⟩ | ⟨-, hc⟩
  · obtain rfl := Option.some.inj hc
    exact killAft_ok h hb
  rcases ite_eq_iff.1 hc with ⟨-, hc⟩ | ⟨-, hc⟩
  · exact swap_ok h hb hc
  rcases ite_eq_iff.1 hc with ⟨-, hc⟩ | ⟨-, hc⟩
  · obtain rfl := Option.some.inj hc
    exact h.move (fits_plain (by simp))
  rcases ite_eq_iff.1 hc with ⟨-, hc⟩ | ⟨-, hc⟩
  · exact aro_ok h hb hc
  rcases ite_eq_iff.1 hc with ⟨-, hc⟩ | ⟨-, hc⟩
  · exact aro_ok h hb hc
  rcases ite_eq_iff.1 hc with ⟨-, hc⟩ | ⟨-, hc⟩
  · obtain rfl := Option.some.inj hc
    exact killFore_ok h hb
  rcases ite_eq_iff.1 hc with ⟨-, hc⟩ | ⟨-, hc⟩
  · obtain rfl := Option.some.inj hc
    exact edit_ok h ⟨hb.bul, hb.bus, hb.pol, hb.depth, hb.rows, hb.hiz⟩
  rcases ite_eq_iff.1 hc with ⟨-, hc⟩ | ⟨-, hc⟩
  · obtain rfl := Option.some.inj hc
    exact h.move trivial
  rcases ite_eq_iff.1 hc with ⟨-, hc⟩ | ⟨-, hc⟩
  · exact yank_ok h hb hc
  · obtain rfl := Option.some.inj hc
    exact h.beep

theorem met_ok {p : Nat} (hm : met d bed p = some d') : d'.Ok := by
  unfold met at hm
  split_ifs at hm
  · obtain rfl := Option.some.inj hm
    exact h.beep
  · obtain ⟨bus, hwod, hd⟩ := Option.bind_eq_some_iff.1 hm
    obtain rfl := Option.some.inj hd
    exact edit_ok h (hb.text hb.bul (wodBlank_le hwod hb.bus))
  · obtain rfl := Option.some.inj hm
    exact h.beep
  · obtain ⟨bus, hwob, hd⟩ := Option.bind_eq_some_iff.1 hm
    obtain rfl := Option.some.inj hd
    exact edit_ok h (hb.text hb.bul ((wobBlank_le hwob).trans hb.bus))
  · exact rotate_ok h hb hm
  · obtain rfl := Option.some.inj hm
    exact h.beep

/-- What is entered goes in place of the row that was open. -/
theorem ret_ok : (ret d bed).Ok := by
  rw [ret]
  split
  · exact h.beep
  · refine ⟨⟨?_, h.yar.ring, fun p x hx => ?_⟩, h.dug, fun m hm => ?_⟩
    · intro bed he
      cases he
    · simp only at hx
      split at hx
      · exact h.yar.hist p x hx
      · by_cases hp : p = bed.hux
        · rw [hp, Function.update_self] at hx
          obtain rfl := Option.some.inj hx
          have hdepth := hb.depth
          have hhiz := hb.hiz
          simp only [List.length_cons, List.length_tail]
          omega
        · rw [Function.update_of_ne hp] at hx
          exact h.yar.hist p x hx
    · simp only [List.mem_cons] at hm
      rcases hm with rfl | rfl | rfl | rfl | hm
      · trivial
      · trivial
      · trivial
      · exact fits_plain (by simp)
      · exact h.mos m hm

theorem plain_ok {b : Belt} (hp : plain d bed b = some d') : d'.Ok := by
  cases b with
  | aro p => exact aro_ok h hb hp
  | bac =>
      obtain rfl := Option.some.inj hp
      exact bac_ok h hb
  | ctl p => exact ctl_ok h hb hp
  | del =>
      obtain rfl := Option.some.inj hp
      exact del_ok h hb
  | met p => exact met_ok h hb hp
  | ret =>
      obtain rfl := Option.some.inj hp
      exact ret_ok h hb
  | txt p =>
      obtain rfl := Option.some.inj hp
      exact txt_ok h hb p

theorem leave_ok {b : Belt} (hl : leave d bed b = some d') : d'.Ok := by
  have hhiz := hb.hiz
  have hb' : ({ bed with hiz := 0, hyr := none } : Bein).Ok (d.yar.hist bed.hux) :=
    ⟨hb.bul, hb.bus, hb.pol, hb.depth, hb.rows, by simp only; omega⟩
  have hd : ({ d with yar := { d.yar with
      bed := some { bed with hiz := 0, hyr := none } } } : Dy Duct).Ok := by
    refine h.yard ⟨fun bed' he => ?_, h.yar.ring, h.yar.hist⟩
    obtain rfl := Option.some.inj he
    exact hb'
  exact plain_ok hd hb' hl

theorem search_ok {hyr : List Nat} {b : Belt} (hs : search d bed hyr b = some d') : d'.Ok := by
  cases b with
  | bac =>
      obtain rfl := Option.some.inj hs
      split
      · exact h.beep
      · exact edit_ok h ⟨hb.bul, hb.bus, hb.pol, hb.depth, hb.rows, hb.hiz⟩
  | txt p => exact look_ok h hb hs
  | ctl p =>
      simp only [search] at hs
      split_ifs at hs
      · obtain rfl := Option.some.inj hs
        have hhiz := hb.hiz
        exact edit_ok h ⟨rfl, Nat.le_refl _, hb.pol, hb.depth, hb.rows, by simp only; omega⟩
      · obtain rfl := Option.some.inj hs
        exact h.beep
      · exact look_ok h hb hs
      · exact leave_ok h hb hs
  | aro p => exact leave_ok h hb (b := .aro p) hs
  | del => exact leave_ok h hb (b := .del) hs
  | met p => exact leave_ok h hb (b := .met p) hs
  | ret => exact leave_ok h hb (b := .ret) hs

end Bed

theorem belt_ok (h : d.Ok) {b : Belt} (hb : belt d b = some d') : d'.Ok := by
  rw [belt] at hb
  split at hb
  · obtain rfl := Option.some.inj hb
    exact h.beep
  next bed hbed =>
  have hok := h.yar.bed bed hbed
  split at hb
  · exact search_ok h hok hb
  · exact plain_ok h hok hb

end Core

/-! ### Requests and responses -/

section Vane

variable {Duct Tank : Type} {re : Re Tank} {d d' : Dy Duct}

/-- A wall moves no cursor. -/
theorem wall_plain {wol : List Tape} {l : List Blit} (h : wall wol = some l) (n : Nat) :
    .hop n ∉ l := by
  induction wol generalizing l with
  | nil =>
      obtain rfl := Option.some.inj h
      simp
  | cons i wol ih =>
      obtain ⟨t, -, h⟩ := Option.bind_eq_some_iff.1 h
      obtain ⟨k, hk, h⟩ := Option.bind_eq_some_iff.1 h
      obtain rfl := Option.some.inj h
      simp [ih hk]

theorem furl_ok (h : d.Ok) {wol : List Tape} (hf : furl d wol = some d') : d'.Ok := by
  obtain ⟨l, hl, hf⟩ := Option.bind_eq_some_iff.1 hf
  have hd : (d.curb l.reverse).Ok := h.curb (by
    rw [List.reverse_reverse]
    exact fits_plain (wall_plain hl))
  simp only at hf
  split at hf
  · obtain rfl := Option.some.inj hf
    exact hd
  next bed hbed =>
    obtain rfl := Option.some.inj hf
    exact edit_ok hd (hd.yar.bed bed hbed)

theorem fume_ok (h : d.Ok) {pef : Nat} {tac : Tank} (hf : fume re d pef tac = some d') :
    d'.Ok := by
  obtain ⟨wol, -, hf⟩ := Option.bind_eq_some_iff.1 hf
  exact furl_ok h hf

theorem trace_ok (h : d.Ok) {q : List Tank} (ht : trace re d q = some d') : d'.Ok := by
  induction q generalizing d' with
  | nil =>
      obtain rfl := Option.some.inj ht
      exact h
  | cons i q ih =>
      obtain ⟨d₁, hd₁, ht⟩ := Option.bind_eq_some_iff.1 ht
      exact fume_ok (ih hd₁) ht

theorem helo_ok (h : d.Ok) {p : List Nat} {q : Prod} (hh : helo d p q = some d') : d'.Ok := by
  have hsize : ((d.yar.hist p).getD ⟨0, []⟩).p = ((d.yar.hist p).getD ⟨0, []⟩).q.length := by
    cases hhist : d.yar.hist p with
    | none => rfl
    | some hyt => exact h.yar.hist p hyt hhist
  have hfresh : ∀ zon : List Nat, (edit d ⟨zon.length, zon.length, zon, q.p, 0, p, fun _ => none,
      ⟨((d.yar.hist p).getD ⟨0, []⟩).p + 1, 0 :: ((d.yar.hist p).getD ⟨0, []⟩).q⟩, none,
      q.q.length, q.q⟩).Ok := fun zon =>
    edit_ok h ⟨rfl, Nat.le_refl _, rfl, congrArg (· + 1) hsize, rfl, Nat.succ_pos _⟩
  simp only [helo] at hh
  split at hh
  · obtain ⟨zon, -, hd⟩ := Option.bind_eq_some_iff.1 hh
    obtain rfl := Option.some.inj hd
    exact hfresh zon
  next bed hbed =>
    split at hh
    next hp =>
      obtain rfl := Option.some.inj hh
      have hb := h.yar.bed bed hbed
      rw [hp] at hsize ⊢
      refine edit_ok h ⟨hb.bul, hb.bus, rfl, congrArg (· + 1) hsize, rfl, ?_⟩
      rw [← hb.rows]
      exact hb.hiz
    · obtain ⟨zon, -, hd⟩ := Option.bind_eq_some_iff.1 hh
      obtain rfl := Option.some.inj hd
      exact hfresh zon

/-- A yard that is new fits. -/
theorem yard_ok : Vane.yard.Ok := by
  refine ⟨?_, ⟨rfl, Nat.zero_le _, fun hp => absurd rfl hp⟩, ?_⟩
  · intro bed he
    cases he
  · intro p x hx
    cases hx

variable [DecidableEq Duct]

theorem lear_ok (h : d.Ok) {kyz : Kiss Tank} (hl : lear re d kyz = some d') : d'.Ok := by
  cases kyz with
  | belt b => exact belt_ok h hl
  | blew p q =>
      obtain rfl := Option.some.inj hl
      exact h.yard ⟨h.yar.bed, h.yar.ring, h.yar.hist⟩
  | boot p =>
      obtain rfl := Option.some.inj hl
      exact h.move trivial
  | crud p q => exact trace_ok h hl
  | hail =>
      obtain rfl := Option.some.inj hl
      exact h.move trivial
  | hook =>
      obtain rfl := Option.some.inj hl
      refine Dy.Ok.move (d := { d with dug := Function.update d.dug d.hen none })
        ⟨h.yar, fun e y he => ?_, h.mos⟩ trivial
      simp only at he
      by_cases hhen : e = d.hen
      · rw [hhen, Function.update_self] at he
        cases he
      · rw [Function.update_of_ne hhen] at he
        exact h.dug e y he
  | harm =>
      obtain rfl := Option.some.inj hl
      refine Dy.Ok.move (d := { d with dug := fun _ => none }) ⟨h.yar, ?_, h.mos⟩ trivial
      intro e y he
      cases he
  | noop =>
      obtain rfl := Option.some.inj hl
      exact h
  | talk p => exact furl_ok h hl
  | text p => exact furl_ok h hl

omit [DecidableEq Duct] in
theorem leap_ok (h : d.Ok) {sih : Sign Tank} (hl : leap re d sih = some d') : d'.Ok := by
  cases sih with
  | crud p q => exact trace_ok h hl
  | helo p q => exact helo_ok h hl
  | note p q =>
      simp only [leap] at hl
      split at hl
      · exact fume_ok h hl
      · obtain rfl := Option.some.inj hl
        exact h
  | save p q =>
      obtain rfl := Option.some.inj hl
      exact h.move (fits_plain (by simp))
  | sage p q =>
      obtain rfl := Option.some.inj hl
      exact h.move (fits_plain (by simp))
  | talk p => exact furl_ok h hl
  | tell p => exact furl_ok h hl
  | text p => exact furl_ok h hl
  | warn p => exact fume_ok h hl
  | _ =>
      obtain rfl := Option.some.inj hl
      exact h.move trivial

/-- A vane all of whose terminals fit. -/
structure Vane.Ok (s : Vane Duct) : Prop where
  dug : ∀ e y, s.dug e = some y → y.Ok
  mos : ∀ m ∈ s.mos, m.2.Ok

omit [DecidableEq Duct] in
theorem Vane.Ok.dy {s : Vane Duct} (h : s.Ok) (hen : Duct) : (s.dy hen).Ok := by
  refine ⟨?_, h.dug, fun m hm => nomatch hm⟩
  show ((s.dug hen).getD yard).Ok
  cases hdug : s.dug hen with
  | none => exact yard_ok
  | some yar => exact h.dug hen yar hdug

theorem Vane.Ok.yerk {s : Vane Duct} (h : s.Ok) (hd : d.Ok) : (s.yerk d).Ok := by
  refine ⟨fun e y he => ?_, fun m hm => ?_⟩
  · simp only [Vane.yerk] at he
    by_cases hhen : e = d.hen
    · rw [hhen, Function.update_self] at he
      obtain rfl := Option.some.inj he
      exact hd.yar
    · rw [Function.update_of_ne hhen] at he
      exact hd.dug e y he
  · rcases List.mem_append.1 hm with hm | hm
    · exact hd.mos m hm
    · exact h.mos m hm

theorem Vane.Ok.step {s s' : Vane Duct} (h : s.Ok) {ev : Vane.Event Duct Tank}
    (hs : Vane.step re ev s = some s') : s'.Ok := by
  cases ev with
  | call hen kyz =>
      obtain ⟨d, hd, hs⟩ := Option.bind_eq_some_iff.1 hs
      obtain rfl := Option.some.inj hs
      exact h.yerk (lear_ok (h.dy hen) hd)
  | take hen sih =>
      obtain ⟨d, hd, hs⟩ := Option.bind_eq_some_iff.1 hs
      obtain rfl := Option.some.inj hs
      exact h.yerk (leap_ok (h.dy hen) hd)

end Vane

/-- In every run of the vane, whatever comes to its terminals in whatever order, each terminal
keeps its lengths, its cursor, its ring and its history in step, and no cursor is sent to a place
outside the line that is sent with it. -/
theorem dill_sound {Duct Tank : Type} [DecidableEq Duct] (re : Re Tank) {s : Vane Duct}
    (h : Reachable Vane.init (Vane.step re) (fun _ _ => True) s) :
    (∀ hen yar, s.dug hen = some yar → yar.Ok) ∧
      ∀ hen l, (hen, Act.give (.blit l)) ∈ s.mos → Fits l := by
  have hinit : (Vane.init : Vane Duct).Ok := by
    refine ⟨?_, fun _ hm => nomatch hm⟩
    intro e y he
    cases he
  have hok : s.Ok := h.invariant hinit fun _ _ _ hs _ hstep => hs.step hstep
  exact ⟨hok.dug, fun hen l hm => hok.mos _ hm⟩

theorem tuba_nil : tuba [] = some [] := by
  have hturf : turf (rap 3 []) = some 0 := by
    rw [turf, turfLoop]
    rfl
  rw [tuba, hturf, Option.bind_eq_bind, Option.bind_some, rip_zero]
  rfl

/-- A printer of nothing. -/
def quiet : Re Unit := ⟨fun _ => (), fun _ _ _ => []⟩

/-- An empty prompt. -/
def emptyBed : Bein :=
  ⟨0, 0, [], .text, 0, [], fun _ => none, ⟨1, [0]⟩, none, 1, [('>' : Nat)]⟩

theorem step_empty : Vane.step quiet (.take 0 (.helo [] ⟨.text, [('>' : Nat)], []⟩)) Vane.init =
    some (Vane.init.yerk (edit (Vane.init.dy 0) emptyBed)) := by
  simp only [Vane.step, leap, helo, tuba_nil]
  rfl

/-- Two characters at a prompt, and the cursor back between them. -/
theorem dill_sound_ab : ∃ (s : Vane Nat) (yar : Yard) (bed : Bein),
    s.dug 0 = some yar ∧ yar.bed = some bed ∧ bed.but = [('a' : Nat), 'b'] ∧ bed.bus = 1 ∧
      yar.Ok ∧ ∀ hen l, (hen, Act.give (.blit l)) ∈ s.mos → Fits l := by
  have hr : Reachable Vane.init (Vane.step quiet) (fun _ _ => True) _ :=
    .step .init trivial step_empty
  have hr := hr.step (a := .call 0 (.belt (.txt [('a' : Nat), 'b']))) trivial rfl
  have hr := hr.step (a := .call 0 (.belt (.aro .l))) trivial rfl
  obtain ⟨hdug, hmos⟩ := dill_sound quiet hr
  exact ⟨_, _, _, rfl, rfl, rfl, rfl, hdug 0 _ rfl, hmos⟩

end Vere.Dill
