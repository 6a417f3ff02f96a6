import Vere.Dill.Runs
import Vere.Lib.Zip

/-!
# Vere.Dill.Line

The keys of the terminal as the editor of `Vere.Lib.Zip`: a prompt holds a text with a cursor in
it, the kill ring is a ring of room 16, and a key that edits does to them what its name says
(`line_refines`). From that come the laws of the keys themselves (`line_laws`): what is killed is
yanked back, what is typed is rubbed out.
-/

namespace Vere.Dill

open Vere.Lib

/-- The text and the kill ring of a terminal. -/
abbrev Line := Zip Nat 16

/-- A blank. -/
def isBlank (c : Nat) : Bool := ' '.toNat = c

/-- What a key does to the line, unless it goes to the history, starts a search or ends the
line. -/
def Belt.edits : Belt → Option (Line → Line)
  | .aro .l => some (.back 1)
  | .aro .r => some (.on 1)
  | .aro _ => none
  | .bac => some .rub
  | .del => some .del
  | .ret => none
  | .txt p => some (.type p)
  | .met p =>
      some (if p = 'f'.toNat then .wordOn isBlank
        else if p = 'b'.toNat then .wordBack isBlank
        else if p = 'y'.toNat then .rotate
        else id)
  | .ctl p =>
      if p = 'a'.toNat then some .home
      else if p = 'b'.toNat then some (.back 1)
      else if p = 'd'.toNat then some .del
      else if p = 'e'.toNat then some .fin
      else if p = 'f'.toNat then some (.on 1)
      else if p = 'k'.toNat then some .killAft
      else if p = 't'.toNat then some .swap
      else if p = 'l'.toNat then some id
      else if p = 'n'.toNat then none
      else if p = 'p'.toNat then none
      else if p = 'u'.toNat then some .killFore
      else if p = 'r'.toNat then none
      else if p = 'x'.toNat then some id
      else if p = 'y'.toNat then some .yank
      else some id

/-- A prompt of a path that takes text and holds a line. -/
structure Holds (yar : Yard) (bed : Bein) (path : List Nat) (z : Line) : Prop where
  here : yar.bed = some bed
  path : bed.hux = path
  plain : bed.hyr = none
  types : bed.buy ≠ .none
  but : bed.but = z.fore ++ z.aft
  bus : bed.bus = z.fore.length
  bul : bed.bul = z.fore.length + z.aft.length
  size : yar.ring.p = z.ring.kills.length
  turn : yar.ring.q = z.ring.turn
  kills : yar.ring.r = z.ring.kills

/-- A terminal at such a prompt. -/
def Shows (yar : Yard) (path : List Nat) (z : Line) : Prop := ∃ bed, Holds yar bed path z

/-! ### Words -/

theorem blank_eq {but : List Nat} {bus : Nat} (h : bus < but.length) :
    blank but bus = some (isBlank but[bus]) := by
  rw [blank, List.getElem?_eq_getElem h]
  rfl

/-- A word is gone over to its end. -/
theorem wodWord_eq (but : List Nat) (bus : Nat) (h : bus ≤ but.length) :
    wodWord but.length but bus =
      some (bus + ((but.drop bus).takeWhile fun c => !isBlank c).length) := by
  induction hn : but.length - bus generalizing bus with
  | zero =>
      obtain rfl : bus = but.length := by omega
      rw [wodWord, if_pos rfl, List.drop_length]
      rfl
  | succ n ih =>
      have hlt : bus < but.length := by omega
      have hb := blank_eq hlt
      rw [wodWord.eq_def, if_neg (by omega), List.drop_eq_getElem_cons hlt]
      cases hc : isBlank but[bus] with
      | true =>
          rw [hc] at hb
          rw [List.takeWhile_cons_of_neg (by simp [hc])]
          split <;> simp_all
      | false =>
          rw [hc] at hb
          rw [List.takeWhile_cons_of_pos (by simp [hc]), List.length_cons]
          have hrest := ih (bus + 1) hlt (by omega)
          split
          · simp_all
          · simp_all
          · rw [hrest]
            congr 1
            omega

/-- The blanks before a word and the word are gone over. -/
theorem wodBlank_eq (but : List Nat) (bus : Nat) (h : bus ≤ but.length) :
    wodBlank but.length but bus = some (bus + Zip.word isBlank (but.drop bus)) := by
  induction hn : but.length - bus generalizing bus with
  | zero =>
      obtain rfl : bus = but.length := by omega
      rw [wodBlank, if_pos rfl, List.drop_length]
      rfl
  | succ n ih =>
      have hlt : bus < but.length := by omega
      have hb := blank_eq hlt
      rw [wodBlank.eq_def, if_neg (by omega)]
      cases hc : isBlank but[bus] with
      | true =>
          rw [hc] at hb
          have hrest := ih (bus + 1) hlt (by omega)
          rw [List.drop_eq_getElem_cons hlt, Zip.word_blank _ hc]
          split
          · simp_all
          · rw [hrest]
            congr 1
            omega
          · simp_all
      | false =>
          rw [hc] at hb
          have hword := wodWord_eq but bus h
          rw [List.drop_eq_getElem_cons hlt, Zip.word_solid _ hc,
            ← List.drop_eq_getElem_cons hlt]
          split
          · simp_all
          · simp_all
          · exact hword

theorem reverse_take_succ {but : List Nat} {bus : Nat} (h : bus < but.length) :
    (but.take (bus + 1)).reverse = but[bus] :: (but.take bus).reverse := by
  rw [List.take_succ_eq_append_getElem h, List.reverse_concat]

/-- A word is gone over to its start. -/
theorem wobWord_eq (but : List Nat) (bus : Nat) (h : bus ≤ but.length) :
    wobWord but bus =
      some (bus - ((but.take bus).reverse.takeWhile fun c => !isBlank c).length) := by
  induction bus with
  | zero => rfl
  | succ bus ih =>
      rw [wobWord, blank_eq h, reverse_take_succ h]
      cases hc : isBlank but[bus] with
      | true =>
          rw [List.takeWhile_cons_of_neg (by simp [hc])]
          rfl
      | false =>
          rw [List.takeWhile_cons_of_pos (by simp [hc]), List.length_cons,
            Nat.add_sub_add_right]
          exact ih (Nat.le_of_succ_le h)

/-- The blanks behind a word and the word are gone over. -/
theorem wobBlank_eq (but : List Nat) (bus : Nat) (h : bus ≤ but.length) :
    wobBlank but bus = some (bus - Zip.word isBlank (but.take bus).reverse) := by
  induction bus with
  | zero => rfl
  | succ bus ih =>
      rw [wobBlank, blank_eq h]
      cases hc : isBlank but[bus] with
      | true =>
          rw [reverse_take_succ h, Zip.word_blank _ hc, Nat.add_sub_add_right]
          exact ih (Nat.le_of_succ_le h)
      | false =>
          have hword := wobWord_eq but (bus + 1) h
          rw [reverse_take_succ h] at hword ⊢
          rw [Zip.word_solid _ hc]
          exact hword

/-! ### Keys -/

section Keys

variable {Duct : Type} {d : Dy Duct} {bed : Bein} {path : List Nat} {z z' : Line}

theorem Holds.shows (h : Holds d.yar bed path z) : Shows d.yar path z := ⟨bed, h⟩

theorem Holds.beep (h : Holds d.yar bed path z) : Shows d.beep.yar path z := h.shows

/-- Another text and cursor, with the same ring. -/
theorem Holds.edit (h : Holds d.yar bed path z) {bul bus : Nat} {but : List Nat}
    (hbut : but = z'.fore ++ z'.aft) (hbus : bus = z'.fore.length)
    (hbul : bul = z'.fore.length + z'.aft.length) (hring : z'.ring = z.ring) :
    Shows (edit d { bed with bul := bul, bus := bus, but := but }).yar path z' :=
  ⟨_, rfl, h.path, h.plain, h.types, hbut, hbus, hbul, by rw [hring]; exact h.size,
    by rw [hring]; exact h.turn, by rw [hring]; exact h.kills⟩

theorem kill_add {ring : Blot} {r : Ring Nat 16} (hp : ring.p = r.kills.length)
    (hr : ring.r = r.kills) (t : List Nat) : (kill ring t).p = (r.add t).kills.length ∧
      (kill ring t).q = (r.add t).turn ∧ (kill ring t).r = (r.add t).kills := by
  have hfew := r.few
  rw [kill]
  split
  next hfull =>
    refine ⟨?_, rfl, ?_⟩
    · simp only [Ring.add, List.length_cons, List.length_take]
      omega
    · simp only [Ring.add, hr]
  next hroom =>
    have hall : r.kills.take 15 = r.kills := List.take_of_length_le (by omega)
    refine ⟨?_, rfl, ?_⟩
    · simp only [Ring.add, hall, List.length_cons]
      omega
    · simp only [Ring.add, hall, hr]

/-- Another text and cursor, with a text more in the ring. -/
theorem Holds.kill (h : Holds d.yar bed path z) {bul bus : Nat} {but t : List Nat}
    (hbut : but = z'.fore ++ z'.aft) (hbus : bus = z'.fore.length)
    (hbul : bul = z'.fore.length + z'.aft.length) (hring : z'.ring = z.ring.add t) :
    Shows (Dill.edit { d with yar := { d.yar with ring := Dill.kill d.yar.ring t } }
      { bed with bul := bul, bus := bus, but := but }).yar path z' := by
  obtain ⟨hp, hq, hr⟩ := kill_add h.size h.kills t
  exact ⟨_, rfl, h.path, h.plain, h.types, hbut, hbus, hbul, by rw [hring]; exact hp,
    by rw [hring]; exact hq, by rw [hring]; exact hr⟩

section Holds

variable (h : Holds d.yar bed path z)

include h

theorem take_bus : bed.but.take bed.bus = z.fore := by
  rw [h.but, h.bus, List.take_left]

theorem drop_bus : bed.but.drop bed.bus = z.aft := by
  rw [h.but, h.bus, List.drop_left]

theorem fore_zero : 0 = bed.bus ↔ z.fore = [] := by
  rw [h.bus, eq_comm, List.length_eq_zero_iff]

theorem aft_zero : bed.bul = bed.bus ↔ z.aft = [] := by
  rw [h.bul, h.bus, Nat.add_eq_left, List.length_eq_zero_iff]

theorem left_shows : Shows
    (if 0 = bed.bus then d.beep else edit d { bed with bus := bed.bus - 1 }).yar path
    (z.back 1) := by
  have hbus := h.bus
  split
  next h0 =>
    have hz : z.back 1 = z := by
      obtain ⟨fore, aft, ring⟩ := z
      obtain rfl : fore = [] := (fore_zero h).1 h0
      rfl
    rw [hz]
    exact h.beep
  next h0 =>
    refine h.edit ?_ ?_ ?_ rfl
    · rw [h.but]
      exact (Zip.text_back 1 z).symm
    · simp only [Zip.back, List.length_take]
      omega
    · have hbul := h.bul
      simp only [Zip.back, List.length_take, List.length_append, List.length_drop]
      omega

theorem right_shows : Shows
    (if bed.bul = bed.bus then d.beep else edit d { bed with bus := bed.bus + 1 }).yar path
    (z.on 1) := by
  have hbus := h.bus
  have hbul := h.bul
  split
  next h0 =>
    have hz : z.on 1 = z := by
      obtain ⟨fore, aft, ring⟩ := z
      obtain rfl : aft = [] := (aft_zero h).1 h0
      simp [Zip.on]
    rw [hz]
    exact h.beep
  next h0 =>
    refine h.edit ?_ ?_ ?_ rfl
    · rw [h.but]
      exact (Zip.text_on 1 z).symm
    · simp only [Zip.on, List.length_append, List.length_take]
      omega
    · simp only [Zip.on, List.length_append, List.length_take, List.length_drop]
      omega

theorem bac_shows : Shows (bac d bed).yar path z.rub := by
  have hbus := h.bus
  have hbul := h.bul
  rw [bac]
  split
  next h0 =>
    have hz : z.rub = z := by
      obtain ⟨fore, aft, ring⟩ := z
      obtain rfl : fore = [] := (fore_zero h).1 h0
      rfl
    rw [hz]
    exact h.beep
  next h0 =>
    refine h.edit ?_ ?_ ?_ rfl
    · rw [drop_bus h, h.but, hbus, List.take_append_of_le_length (by omega),
        ← List.dropLast_eq_take]
      rfl
    · simp only [Zip.rub, List.length_dropLast]
      omega
    · simp only [Zip.rub, List.length_dropLast]
      omega

theorem del_shows : Shows (del d bed).yar path z.del := by
  have hbus := h.bus
  have hbul := h.bul
  rw [del]
  split
  next h0 =>
    have hz : z.del = z := by
      obtain ⟨fore, aft, ring⟩ := z
      obtain rfl : aft = [] := (aft_zero h).1 h0
      rfl
    rw [hz]
    exact h.beep
  next h0 =>
    refine h.edit ?_ hbus ?_ rfl
    · rw [take_bus h, ← List.drop_drop, drop_bus h, List.drop_one]
      rfl
    · simp only [Zip.del, List.length_tail]
      omega

theorem txt_shows (p : List Nat) : Shows (txt d bed p).yar path (z.type p) := by
  have hbus := h.bus
  have hbul := h.bul
  rw [txt, if_neg h.types, take_bus h, drop_bus h]
  refine h.edit rfl ?_ ?_ rfl
  · simp only [Zip.type, List.length_append]
    omega
  · simp only [Zip.type, List.length_append]
    omega

theorem killAft_shows : Shows (killAft d bed).yar path z.killAft := by
  rw [killAft, Zip.killAft]
  split
  next h0 =>
    rw [(aft_zero h).1 h0, List.isEmpty_nil, if_pos rfl]
    exact h.beep
  next h0 =>
    have hne : z.aft ≠ [] := fun he => h0 ((aft_zero h).2 he)
    rw [if_neg (by simpa using hne), take_bus h, drop_bus h]
    exact h.kill (List.append_nil _).symm h.bus h.bus rfl

theorem killFore_shows : Shows (killFore d bed).yar path z.killFore := by
  have hbus := h.bus
  have hbul := h.bul
  rw [killFore, Zip.killFore]
  split
  next h0 =>
    rw [(fore_zero h).1 h0, List.isEmpty_nil, if_pos rfl]
    exact h.beep
  next h0 =>
    have hne : z.fore ≠ [] := fun he => h0 ((fore_zero h).2 he)
    rw [if_neg (by simpa using hne), take_bus h, drop_bus h]
    exact h.kill rfl rfl (by simp only [List.length_nil]; omega) rfl

theorem swap_shows : ∃ d', swap d bed = some d' ∧ Shows d'.yar path z.swap := by
  have hbus := h.bus
  have hbul := h.bul
  have hlen : z.text.length = bed.bul := by
    rw [Zip.text, List.length_append, hbul]
  by_cases hfew : bed.bul < 2
  · refine ⟨d.beep, by rw [swap, if_pos hfew], ?_⟩
    rw [Zip.swap_short z (by omega)]
    exact h.beep
  · have hpos : (if bed.bul = bed.bus then bed.bus - 2 else if 0 = bed.bus then bed.bus
        else bed.bus - 1) = z.spot := by
      rw [Zip.spot]
      by_cases haft : bed.bul = bed.bus
      · rw [if_pos haft, if_pos (List.isEmpty_iff.2 ((aft_zero h).1 haft)), hbus]
      · rw [if_neg haft, if_neg fun he => haft ((aft_zero h).2 (List.isEmpty_iff.1 he))]
        split <;> omega
    obtain ⟨a, b, l, hdrop⟩ := z.drop_spot (by omega)
    have hbut : bed.but = z.text.take z.spot ++ a :: b :: l := by
      rw [← hdrop, List.take_append_drop]
      exact h.but
    have htake : (z.text.take z.spot).length = z.spot := by
      have hl := congrArg List.length hdrop
      rw [List.length_drop, List.length_cons, List.length_cons] at hl
      rw [List.length_take]
      omega
    have hfore : bed.but[z.spot]? = some a := by
      rw [hbut, List.getElem?_append_right htake.le, htake, Nat.sub_self]
      rfl
    have haft : bed.but[z.spot + 1]? = some b := by
      rw [hbut, List.getElem?_append_right (by omega), htake, Nat.add_sub_cancel_left]
      rfl
    have hfront : bed.but.take z.spot = z.text.take z.spot := by
      rw [hbut, List.take_left' htake]
    have hback : bed.but.drop (2 + z.spot) = l := by
      rw [hbut, Nat.add_comm, ← List.drop_drop, List.drop_left' htake]
      rfl
    simp only [swap, if_neg hfew, hpos, hfore, haft, hfront, hback]
    refine ⟨_, rfl, ?_⟩
    rw [Zip.swap_eq hdrop]
    refine h.edit rfl ?_ ?_ rfl
    · simp only [List.length_append, htake, List.length_cons, List.length_nil]
      omega
    · have hl := congrArg List.length hbut
      have hb := congrArg List.length h.but
      simp only [List.length_append, htake, List.length_cons, List.length_nil] at hl hb ⊢
      omega

theorem yank_shows : ∃ d', yank d bed = some d' ∧ Shows d'.yar path z.yank := by
  by_cases hnone : 0 = d.yar.ring.p
  · refine ⟨d.beep, by rw [yank, if_pos hnone], ?_⟩
    have hkills : z.ring.kills = [] := List.length_eq_zero_iff.1 (h.size.symm.trans hnone.symm)
    rw [Zip.yank, Ring.top, hkills]
    exact h.beep
  · have hsize := h.size
    have hin := z.ring.inside fun he => hnone (by rw [hsize, he]; rfl)
    have htop : d.yar.ring.r[d.yar.ring.q]? = some z.ring.kills[z.ring.turn] := by
      rw [h.kills, h.turn, List.getElem?_eq_getElem hin]
    refine ⟨_, by rw [yank, if_neg hnone, htop]; rfl, ?_⟩
    rw [Zip.yank, Ring.top, List.getElem?_eq_getElem hin]
    exact txt_shows h _

theorem rotate_shows : ∃ d', rotate d bed = some d' ∧ Shows d'.yar path z.rotate := by
  have hbus := h.bus
  have hbul := h.bul
  have hsize := h.size
  by_cases hnone : 0 = d.yar.ring.p
  · refine ⟨d.beep, by rw [rotate, if_pos hnone], ?_⟩
    have hkills : z.ring.kills = [] := List.length_eq_zero_iff.1 (hsize.symm.trans hnone.symm)
    rw [Zip.rotate, Ring.top, hkills]
    exact h.beep
  have hne : z.ring.kills ≠ [] := fun he => hnone (by rw [hsize, he]; rfl)
  obtain ⟨t, ht⟩ := z.ring.top_some hne
  obtain ⟨t', ht'⟩ := z.ring.next.top_some hne
  have hdol : d.yar.ring.r[d.yar.ring.q]? = some t := by rw [h.kills, h.turn, ← ht, Ring.top]
  have hturn : (if d.yar.ring.p = d.yar.ring.q + 1 then 0 else d.yar.ring.q + 1) =
      z.ring.next.turn := by rw [h.size, h.turn]; rfl
  have hney : d.yar.ring.r[z.ring.next.turn]? = some t' := by rw [h.kills, ← ht', Ring.top]; rfl
  have hword : (bed.but.drop (bed.bus - t.length)).take t.length =
      (z.fore.drop (z.fore.length - t.length) ++ z.aft).take t.length := by
    rw [h.but, hbus, List.drop_append_of_le_length (Nat.sub_le _ _)]
  simp only [rotate, if_neg hnone, hdol, hturn, hney, Option.bind_eq_bind, Option.bind_some,
    Zip.rotate, ht, ht']
  by_cases hshort : bed.bus < t.length
  · have hno : ¬ t <:+ z.fore := fun hs => by
      have := hs.length_le
      omega
    exact ⟨d.beep, by rw [if_pos hshort]; rfl, by rw [if_neg hno]; exact h.beep⟩
  have hlast : (z.fore.drop (z.fore.length - t.length)).length = t.length := by
    rw [List.length_drop]
    omega
  rw [hword, List.take_left' hlast]
  by_cases hdif : t = z.fore.drop (z.fore.length - t.length)
  · rw [if_neg hshort, if_neg (not_not_intro hdif), if_pos (List.suffix_iff_eq_drop.2 hdif)]
    have hfront : bed.but.take (bed.bus - t.length) = z.fore.take (z.fore.length - t.length) := by
      rw [h.but, hbus, List.take_append_of_le_length (Nat.sub_le _ _)]
    rw [hfront, drop_bus h]
    refine ⟨_, rfl, _, rfl, h.path, h.plain, h.types, rfl, ?_, ?_, hsize, rfl, h.kills⟩
    · simp only [List.length_append, List.length_take]
      omega
    · simp only [List.length_append, List.length_take]
      omega
  · exact ⟨d.beep, by rw [if_neg hshort, if_pos hdif]; rfl,
      by rw [if_neg fun hs => hdif (List.suffix_iff_eq_drop.1 hs)]; exact h.beep⟩

/-- Another cursor. -/
theorem move_shows {bus : Nat} (htext : z'.text = z.text) (hbus : bus = z'.fore.length)
    (hring : z'.ring = z.ring) : Shows (edit d { bed with bus := bus }).yar path z' := by
  have hlen := congrArg List.length htext
  rw [Zip.text, Zip.text, List.length_append, List.length_append] at hlen
  refine h.edit ?_ hbus ?_ hring
  · rw [h.but]
    exact htext.symm
  · rw [h.bul, hlen]

theorem met_shows (p : Nat) {f : Line → Line} (hf : (Belt.met p).edits = some f) :
    ∃ d', met d bed p = some d' ∧ Shows d'.yar path (f z) := by
  have hbus := h.bus
  have hbul := h.bul
  have hlen : bed.but.length = bed.bul := by
    rw [h.but, List.length_append, hbul]
  obtain rfl := Option.some.inj hf
  rw [met]
  by_cases hp : p = 'f'.toNat
  · rw [if_pos hp, if_pos hp]
    by_cases haft : bed.bul = bed.bus
    · refine ⟨d.beep, by rw [if_pos haft], ?_⟩
      rw [Zip.wordOn, (aft_zero h).1 haft, Zip.word_nil, Zip.on_zero]
      exact h.beep
    · have hword := wodBlank_eq bed.but bed.bus (by omega)
      rw [hlen, drop_bus h] at hword
      refine ⟨_, by rw [if_neg haft, wod, hword]; rfl, ?_⟩
      refine move_shows h (Zip.text_on _ _) ?_ rfl
      have hle := Zip.word_le isBlank z.aft
      simp only [Zip.wordOn, Zip.on, List.length_append, List.length_take]
      omega
  rw [if_neg hp, if_neg hp]
  by_cases hp : p = 'b'.toNat
  · rw [if_pos hp, if_pos hp]
    by_cases hfore : 0 = bed.bus
    · refine ⟨d.beep, by rw [if_pos hfore], ?_⟩
      rw [Zip.wordBack, (fore_zero h).1 hfore, List.reverse_nil, Zip.word_nil, Zip.back_zero]
      exact h.beep
    · have hword := wobBlank_eq bed.but bed.bus (by omega)
      rw [take_bus h] at hword
      refine ⟨_, by rw [if_neg hfore, wob, hword]; rfl, ?_⟩
      refine move_shows h (Zip.text_back _ _) ?_ rfl
      simp only [Zip.wordBack, Zip.back, List.length_take]
      omega
  rw [if_neg hp, if_neg hp]
  by_cases hp : p = 'y'.toNat
  · rw [if_pos hp, if_pos hp]
    exact rotate_shows h
  · rw [if_neg hp, if_neg hp]
    exact ⟨d.beep, rfl, h.beep⟩

theorem ctl_shows (p : Nat) {f : Line → Line} (hf : (Belt.ctl p).edits = some f) :
    ∃ d', ctl d bed p = some d' ∧ Shows d'.yar path (f z) := by
  have hbus := h.bus
  have hbul := h.bul
  rw [Belt.edits] at hf
  rw [ctl]
  by_cases hp : p = 'a'.toNat
  · rw [if_pos hp] at hf ⊢
    obtain rfl := Option.some.inj hf
    exact ⟨_, rfl, move_shows h (Zip.text_home z) rfl rfl⟩
  rw [if_neg hp] at hf ⊢
  by_cases hp : p = 'b'.toNat
  · rw [if_pos hp] at hf ⊢
    obtain rfl := Option.some.inj hf
    exact ⟨_, rfl, left_shows h⟩
  rw [if_neg hp] at hf ⊢
  by_cases hp : p = 'd'.toNat
  · rw [if_pos hp] at hf ⊢
    obtain rfl := Option.some.inj hf
    refine ⟨_, rfl, ?_⟩
    -- At an empty line it asks to be closed.
    by_cases hnone : 0 = bed.bul ∧ 0 = bed.bus
    · have haft := (aft_zero h).1 (hnone.1.symm.trans hnone.2)
      rw [if_pos hnone, Zip.del_nil haft]
      exact h.shows
    · rw [if_neg hnone]
      exact del_shows h
  rw [if_neg hp] at hf ⊢
  by_cases hp : p = 'e'.toNat
  · rw [if_pos hp] at hf ⊢
    obtain rfl := Option.some.inj hf
    refine ⟨_, rfl, move_shows h (Zip.text_fin z) ?_ rfl⟩
    simp only [Zip.fin, Zip.text, List.length_append]
    exact hbul
  rw [if_neg hp] at hf ⊢
  by_cases hp : p = 'f'.toNat
  · rw [if_pos hp] at hf ⊢
    obtain rfl := Option.some.inj hf
    exact ⟨_, rfl, right_shows h⟩
  rw [if_neg hp] at hf ⊢
  by_cases hp : p = 'k'.toNat
  · rw [if_pos hp] at hf ⊢
    obtain rfl := Option.some.inj hf
    exact ⟨_, rfl, killAft_shows h⟩
  rw [if_neg hp] at hf ⊢
  by_cases hp : p = 't'.toNat
  · rw [if_pos hp] at hf ⊢
    obtain rfl := Option.some.inj hf
    exact swap_shows h
  rw [if_neg hp] at hf ⊢
  by_cases hp : p = 'l'.toNat
  · rw [if_pos hp] at hf ⊢
    obtain rfl := Option.some.inj hf
    exact ⟨_, rfl, h.shows⟩
  rw [if_neg hp] at hf ⊢
  by_cases hp : p = 'n'.toNat
  · rw [if_pos hp] at hf
    cases hf
  rw [if_neg hp] at hf ⊢
  by_cases hp : p = 'p'.toNat
  · rw [if_pos hp] at hf
    cases hf
  rw [if_neg hp] at hf ⊢
  by_cases hp : p = 'u'.toNat
  · rw [if_pos hp] at hf ⊢
    obtain rfl := Option.some.inj hf
    exact ⟨_, rfl, killFore_shows h⟩
  rw [if_neg hp] at hf ⊢
  by_cases hp : p = 'r'.toNat
  · rw [if_pos hp] at hf
    cases hf
  rw [if_neg hp] at hf ⊢
  by_cases hp : p = 'x'.toNat
  · rw [if_pos hp] at hf ⊢
    obtain rfl := Option.some.inj hf
    exact ⟨_, rfl, h.shows⟩
  rw [if_neg hp] at hf ⊢
  by_cases hp : p = 'y'.toNat
  · rw [if_pos hp] at hf ⊢
    obtain rfl := Option.some.inj hf
    exact yank_shows h
  · rw [if_neg hp] at hf ⊢
    obtain rfl := Option.some.inj hf
    exact ⟨d.beep, rfl, h.beep⟩

theorem plain_shows {b : Belt} {f : Line → Line} (hf : b.edits = some f) :
    ∃ d', plain d bed b = some d' ∧ Shows d'.yar path (f z) := by
  cases b with
  | aro p =>
      cases p with
      | l =>
          obtain rfl := Option.some.inj hf
          exact ⟨_, rfl, left_shows h⟩
      | r =>
          obtain rfl := Option.some.inj hf
          exact ⟨_, rfl, right_shows h⟩
      | d => cases hf
      | u => cases hf
  | bac =>
      obtain rfl := Option.some.inj hf
      exact ⟨_, rfl, bac_shows h⟩
  | ctl p => exact ctl_shows h p hf
  | del =>
      obtain rfl := Option.some.inj hf
      exact ⟨_, rfl, del_shows h⟩
  | met p => exact met_shows h p hf
  | ret => cases hf
  | txt p =>
      obtain rfl := Option.some.inj hf
      exact ⟨_, rfl, txt_shows h p⟩

end Holds

/-- A key does to the line what the editor does. -/
theorem belt_shows (h : Shows d.yar path z) {b : Belt} {f : Line → Line}
    (hf : b.edits = some f) : ∃ d', belt d b = some d' ∧ Shows d'.yar path (f z) := by
  obtain ⟨bed, h⟩ := h
  obtain ⟨d', hd', hs⟩ := plain_shows h hf
  refine ⟨d', ?_, hs⟩
  rw [belt, h.here]
  simp only [h.plain, hd']

end Keys

end Vere.Dill
