import Vere.Hoon.Time

/-!
# Vere.Zuse.Leap

Leap seconds (`++deal` and `++lead`, section 3bC of `zuse.hoon`).

The tables of `++yu` name the inserted seconds, the last one first: `les` by the second behind
it on the clock that counts them, `lef` by the second itself on the clock that does not. An entry
of `lef` is an entry of `les` less one second for it and for each later one (`lef_les`), so that
both loops stop at the same entry and shift by the same seconds (`lead_deal`).
-/

namespace Vere.Zuse

open Vere.Hoon

/-- `~s1`. -/
def s1 : Nat := 2 ^ 64

/-- A date literal. -/
def date (y m d h mi s : Nat) : Date := ⟨true, y, m, ⟨d, h, mi, s, []⟩⟩

/-- `les` of `++yu`. -/
def les : List Date :=
  [ date 2012 7 1 0 0 0, date 2009 1 1 0 0 0, date 2006 1 1 0 0 0, date 1999 1 1 0 0 0,
    date 1997 7 1 0 0 0, date 1996 1 1 0 0 0, date 1994 7 1 0 0 0, date 1993 7 1 0 0 0,
    date 1992 7 1 0 0 0, date 1991 1 1 0 0 0, date 1990 1 1 0 0 0, date 1988 1 1 0 0 0,
    date 1985 7 1 0 0 0, date 1983 7 1 0 0 0, date 1982 7 1 0 0 0, date 1981 7 1 0 0 0,
    date 1980 1 1 0 0 0, date 1979 1 1 0 0 0, date 1978 1 1 0 0 0, date 1977 1 1 0 0 0,
    date 1976 1 1 0 0 0, date 1975 1 1 0 0 0, date 1974 1 1 0 0 0, date 1973 1 1 0 0 0,
    date 1972 7 1 0 0 0 ]

/-- `lef` of `++yu`. -/
def lef : List Date :=
  [ date 2012 6 30 23 59 59, date 2008 12 31 23 59 58, date 2005 12 31 23 59 57,
    date 1998 12 31 23 59 56, date 1997 6 30 23 59 55, date 1995 12 31 23 59 54,
    date 1994 6 30 23 59 53, date 1993 6 30 23 59 52, date 1992 6 30 23 59 51,
    date 1990 12 31 23 59 50, date 1989 12 31 23 59 49, date 1987 12 31 23 59 48,
    date 1985 6 30 23 59 47, date 1983 6 30 23 59 46, date 1982 6 30 23 59 45,
    date 1981 6 30 23 59 44, date 1979 12 31 23 59 43, date 1978 12 31 23 59 42,
    date 1977 12 31 23 59 41, date 1976 12 31 23 59 40, date 1975 12 31 23 59 39,
    date 1974 12 31 23 59 38, date 1973 12 31 23 59 37, date 1972 12 31 23 59 36,
    date 1972 6 30 23 59 35 ]

/-- `++sub`. -/
def sub (a b : Nat) : Option Nat := if a < b then none else some (a - b)

/-- An entry of a table: a date literal stands for its time. -/
def entry (n : Nat) (tab : List Date) : Option Nat := do year (← tab[n]?)

/-- Seconds added to a date, without carrying. -/
def addSec (n : Nat) (yud : Date) : Date := { yud with t := { yud.t with s := n + yud.t.s } }

/-- The loop of `++deal`, with a bound on the entries to go. -/
def dealLoop (yer : Nat) (yud : Date) : Nat → Nat → Option Date
  | 0, _ => none
  | k + 1, n => do
      let now ← entry n lef
      if yer ≥ now + s1 then yore (← year (addSec n yud))
      else if yer ≥ now ∧ yer < now + s1 then return addSec (n + 1) yud
      else if n + 1 = lef.length then yore (← year (addSec (n + 1) yud))
      else dealLoop yer yud k (n + 1)

/-- `++deal`: to leap sec time. -/
def deal (yer : Nat) : Option Date := do
  let yud ← yore yer
  dealLoop yer yud lef.length 0

/-- The loop of `++lead`, with a bound on the entries to go. -/
def leadLoop (ler : Nat) (ley : Date) : Nat → Nat → Option Nat
  | 0, _ => none
  | k + 1, n => do
      let led ← sub ler (n * s1)
      let now ← entry n les
      if ler ≥ now + s1 then return led
      else if ler ≥ now ∧ ler < now + s1 then
        if ley.t.s = 60 then sub led s1 else return led
      else if n + 1 = les.length then sub led s1
      else leadLoop ler ley k (n + 1)

/-- `++lead`: from leap sec time. -/
def lead (ley : Date) : Option Nat := do
  let ler ← year ley
  leadLoop ler ley les.length 0

/-! ### The tables -/

/-- The seconds before a date. -/
def secs (det : Date) : Nat :=
  ((yawnMot (months (292277024400 + det.y)) (det.m - 1) (det.t.d - 1)).getD 0 +
      days (292277024400 + det.y)) * 86400 +
    (det.t.h * 3600 + (det.t.m * 60 + det.t.s))

/-- A date of the common era, with a month of the calendar and no fraction of a second. -/
def Common (det : Date) : Prop :=
  det.a = true ∧ det.m ≠ 0 ∧ det.t.d ≠ 0 ∧ det.t.f = [] ∧
    (yawnMot (months (292277024400 + det.y)) (det.m - 1) (det.t.d - 1)).isSome

instance (det : Date) : Decidable (Common det) := inferInstanceAs (Decidable (_ ∧ _))

theorem year_secs {det : Date} (h : Common det) : year det = some (secs det * s1) := by
  obtain ⟨ha, hm, hd, hf, hmot⟩ := h
  obtain ⟨k, hk⟩ := Option.isSome_iff_exists.mp hmot
  have hyawn : yawn (292277024400 + det.y) det.m det.t.d =
      some (k + days (292277024400 + det.y)) := by
    simp only [yawn, hm, hd, or_self, if_false]
    unfold months at hk
    simp [hk, yawnYer_eq]
  simp only [year, ha, if_true, hyawn, yule, hf, yuleFac, secs, hk, Option.bind_eq_bind,
    Option.bind_some, Option.pure_def, Option.getD_some]
  rw [con_eq, lsh_sec, Nat.or_zero, Nat.mul_comm, s1]
  rfl

theorem tables_common : ∀ det ∈ les ++ lef, Common det := by decide +kernel

/-- The seconds behind the inserted ones, the last first. -/
def leaps : List Nat := les.map secs

/-- The second behind an inserted one is a full minute, and they are more than a minute apart. -/
theorem leaps_apart : leaps.Pairwise fun L L' => L' + 60 < L := by decide +kernel

theorem leaps_minute : ∀ L ∈ leaps, L % 60 = 0 ∧ 60 < L := by decide +kernel

/-- The tables are offset by the seconds inserted from there on. -/
theorem lef_les : lef.map secs = leaps.mapIdx fun n L => L - (n + 1) := by decide +kernel

theorem length_les : les.length = 25 := rfl

theorem length_lef : lef.length = 25 := rfl

/-- An entry of the table, in seconds. -/
def leap (n : Nat) : Nat := leaps.getD n 0

section tables

variable {n m : Nat}

theorem leap_mem (hn : n < 25) : leap n ∈ leaps := by
  have hlen : n < leaps.length := hn
  rw [leap, List.getD_eq_getElem?_getD, List.getElem?_eq_getElem hlen]
  exact List.getElem_mem hlen

theorem leap_lt (hnm : n < m) (hm : m < 25) : leap m + 60 < leap n := by
  have hlen : m < leaps.length := hm
  have h := List.pairwise_iff_getElem.mp leaps_apart n m (hnm.trans hlen) hlen hnm
  simpa [leap, hlen, hnm.trans hlen] using h

theorem entry_les (hn : n < 25) : entry n les = some (leap n * s1) := by
  have hlen : n < les.length := hn
  have hleap : leap n = secs les[n] := by simp [leap, leaps, hlen]
  rw [entry, List.getElem?_eq_getElem hlen, hleap]
  exact year_secs (tables_common _ (List.mem_append_left _ (List.getElem_mem hlen)))

theorem entry_lef (hn : n < 25) : entry n lef = some ((leap n - (n + 1)) * s1) := by
  have hlen : n < lef.length := hn
  have hsecs : secs lef[n] = leap n - (n + 1) := by
    have hleaps : n < leaps.length := hn
    have h := congrArg (·[n]?) lef_les
    simp only [List.getElem?_map, List.getElem?_mapIdx, List.getElem?_eq_getElem hlen,
      List.getElem?_eq_getElem hleaps, Option.map_some, Option.some.injEq] at h
    rw [h, leap, List.getD_eq_getElem?_getD, List.getElem?_eq_getElem hleaps, Option.getD_some]
  rw [entry, List.getElem?_eq_getElem hlen, ← hsecs]
  exact year_secs (tables_common _ (List.mem_append_right _ (List.getElem_mem hlen)))

end tables

/-! ### Shifted dates -/

section shift

variable {now n k : Nat} {yud : Date}

theorem yore_time (h : yore now = some yud) :
    year yud = some now ∧ yud.t.f = (yell now).f ∧ yud.t.s = now / s1 % 60 := by
  obtain ⟨det, hdet, hyear, hf, -⟩ := year_yore now
  cases hdet.symm.trans h
  refine ⟨hyear, hf, ?_⟩
  have hsec : (yell now).s = now / s1 % 60 := by
    simp only [yell, rsh_sec, Yo.day, Yo.hor, Yo.mit, s1]
    omega
  rw [← hsec]
  obtain ⟨⟨y, m, d⟩, -, hx⟩ := Option.bind_eq_some_iff.mp h
  by_cases hera : y > 292277024400
  · simp only [hera, if_true, Option.pure_def, Option.some.injEq] at hx
    rw [← hx]
  · simp only [hera, if_false, Option.pure_def, Option.some.injEq] at hx
    rw [← hx]

theorem yule_addSec {rip : Tarp} (h : yule rip = some now) (hf : rip.f = (yell now).f) (k : Nat) :
    yule { rip with s := k + rip.s } = some (now + k * s1) := by
  have hfac : yuleFac 4 rip.f = some (now % 2 ^ 64) := by
    rw [hf, yell, end_sec]
    exact yuleFac_yellFan (Nat.mod_lt _ (Nat.two_pow_pos _))
  have hlt : now % 2 ^ 64 < 2 ^ 64 := Nat.mod_lt _ (Nat.two_pow_pos _)
  have hcon : ∀ sec, con (lsh 6 1 sec) (now % 2 ^ 64) = 2 ^ 64 * sec + now % 2 ^ 64 := by
    intro sec
    rw [con_eq, lsh_sec, ← Nat.two_pow_add_eq_or_of_lt hlt]
  simp only [yule, hfac, hcon, Option.bind_eq_bind, Option.bind_some, Option.pure_def,
    Option.some.injEq] at h ⊢
  rw [s1]
  omega

/-- The year of a date, from the beginning of the calendar. -/
def eraYear (det : Date) : Option Nat :=
  if det.a then some (292277024400 + det.y)
  else if det.y = 0 ∨ 292277024400 < det.y - 1 then none
  else some (292277024400 - (det.y - 1))

theorem year_eq (det : Date) : year det = (eraYear det).bind fun yer =>
    (yawn yer det.m det.t.d).bind fun day => yule ⟨day, det.t.h, det.t.m, det.t.s, det.t.f⟩ := by
  unfold year eraYear
  split
  · rfl
  · split <;> rfl

/-- Seconds added to a date are added to its time. -/
theorem year_addSec (h : yore now = some yud) (k : Nat) :
    year (addSec k yud) = some (now + k * s1) := by
  obtain ⟨hyear, hf, -⟩ := yore_time h
  rw [year_eq] at hyear ⊢
  obtain ⟨yer, hyer, hyear⟩ := Option.bind_eq_some_iff.mp hyear
  obtain ⟨day, hday, hyule⟩ := Option.bind_eq_some_iff.mp hyear
  have hadd := yule_addSec hyule hf k
  exact Option.bind_eq_some_iff.mpr ⟨yer, hyer, Option.bind_eq_some_iff.mpr ⟨day, hday, hadd⟩⟩

/-! ### There -/

/-- The time is in the second that the entry names. -/
def In (now n : Nat) : Prop := (leap n - (n + 1)) * s1 ≤ now ∧ now < (leap n - (n + 1)) * s1 + s1

/-- Where `++deal` stops: behind the second that entry `n` names and before the one that the entry
before it names, or in that second, or before the second that the last entry names. -/
inductive Dealt (now : Nat) (yud : Date) : Option Date → Prop
  | shift (n : Nat) (hn : n ≤ 25) (hbefore : ∀ m < n, now < (leap m - (m + 1)) * s1)
      (hbehind : n < 25 → (leap n - (n + 1)) * s1 + s1 ≤ now) : Dealt now yud (yore (now + n * s1))
  | inside (n : Nat) (hn : n < 25) (hin : In now n) : Dealt now yud (some (addSec (n + 1) yud))

theorem dealLoop_dealt (h : yore now = some yud) : ∀ {j n : Nat}, n + j = 25 → n < 25 →
    (∀ m < n, now < (leap m - (m + 1)) * s1) → Dealt now yud (dealLoop now yud j n) := by
  intro j
  induction j with
  | zero => exact fun hj hn => absurd hn (by omega)
  | succ j ih =>
      intro n hj hn hbefore
      rw [dealLoop, entry_lef hn, Option.bind_eq_bind, Option.bind_some]
      split
      · next hge =>
          rw [year_addSec h, Option.bind_some]
          exact .shift n hn.le hbefore fun _ => hge
      · next hlt =>
          split
          · next hin => exact .inside n hn hin
          · next hout =>
              have hnow : now < (leap n - (n + 1)) * s1 :=
                Nat.not_le.mp fun hle => hout ⟨hle, Nat.not_le.mp hlt⟩
              have hbefore' : ∀ m < n + 1, now < (leap m - (m + 1)) * s1 := by
                intro m hm
                rcases Nat.lt_succ_iff_lt_or_eq.mp hm with hm | rfl
                · exact hbefore m hm
                · exact hnow
              split
              · next hlast =>
                  rw [length_lef] at hlast
                  rw [year_addSec h, Option.bind_some]
                  exact .shift (n + 1) hlast.le hbefore' fun h25 => absurd h25 (by omega)
              · next hnext =>
                  rw [length_lef] at hnext
                  exact ih (by omega) (by omega) hbefore'

theorem deal_dealt (now : Nat) : ∃ yud, yore now = some yud ∧ Dealt now yud (deal now) := by
  obtain ⟨yud, hyud, -⟩ := year_yore now
  refine ⟨yud, hyud, ?_⟩
  rw [deal, hyud, length_lef, Option.bind_eq_bind, Option.bind_some]
  exact dealLoop_dealt (j := 25) (n := 0) hyud (Nat.zero_add 25) (by decide) nofun

/-! ### And back -/

/-- The loop of `++lead` passes the entries that the time is before. -/
theorem leadLoop_skip {ler : Nat} {ley : Date} {n : Nat} (hn : n < 25) (hler : n * s1 ≤ ler)
    (hbefore : ∀ m < n, ler < leap m * s1) :
    leadLoop ler ley 25 0 = leadLoop ler ley (25 - n) n := by
  induction n with
  | zero => rw [Nat.sub_zero]
  | succ n ih =>
      have hle : n * s1 ≤ ler := (Nat.mul_le_mul_right s1 (Nat.le_succ n)).trans hler
      rw [ih (by omega) hle fun m hm => hbefore m (by omega)]
      have hlt := hbefore n (Nat.lt_succ_self n)
      have hlen : ¬n + 1 = les.length := by
        rw [length_les]
        omega
      have hout : ¬ler ≥ leap n * s1 + s1 := Nat.not_le.mpr (hlt.trans_le (Nat.le_add_right _ _))
      have hin : ¬(ler ≥ leap n * s1 ∧ ler < leap n * s1 + s1) := fun h => Nat.not_le.mpr hlt h.1
      rw [show 25 - n = (25 - (n + 1)) + 1 by omega, leadLoop, entry_les (by omega), sub,
        if_neg (Nat.not_lt.mpr hle), Option.bind_eq_bind, Option.bind_some, Option.bind_some,
        if_neg hout, if_neg hin, if_neg hlen]

/-- Where the loop of `++lead` stops: at the first entry that the time is not before. -/
theorem leadLoop_stop {ler : Nat} {ley : Date} {n : Nat} (hn : n < 25) (hle : n * s1 ≤ ler)
    (hbefore : ∀ m < n, ler < leap m * s1) (hler : leap n * s1 ≤ ler) :
    leadLoop ler ley 25 0 =
      if ler < leap n * s1 + s1 ∧ ley.t.s = 60 then sub (ler - n * s1) s1
      else some (ler - n * s1) := by
  rw [leadLoop_skip hn hle hbefore, show 25 - n = (24 - n) + 1 by omega, leadLoop, sub,
    if_neg (Nat.not_lt.mpr hle), entry_les hn, Option.bind_eq_bind, Option.bind_some,
    Option.bind_some]
  by_cases hin : ler < leap n * s1 + s1
  · rw [if_neg (Nat.not_le.mpr hin), if_pos ⟨hler, hin⟩]
    by_cases h60 : ley.t.s = 60
    · rw [if_pos h60, if_pos ⟨hin, h60⟩]
    · rw [if_neg h60, if_neg fun h => h60 h.2]
      rfl
  · rw [if_pos (Nat.not_lt.mp hin), if_neg fun h => hin h.1]
    rfl

theorem leap_gt (hn : n < 25) : 60 < leap n ∧ leap n % 60 = 0 := (leaps_minute _ (leap_mem hn)).symm

/-- An entry of `lef` with the seconds that were taken off. -/
theorem leap_back (hn : n < 25) : (leap n - (n + 1)) * s1 + s1 + n * s1 = leap n * s1 := by
  have hgt := leap_gt hn
  calc
    (leap n - (n + 1)) * s1 + s1 + n * s1 = (leap n - (n + 1) + 1 + n) * s1 := by ring
    _ = leap n * s1 := by
        congr 1
        omega

theorem leap_le {m : Nat} (hnm : m ≤ n) (hn : n < 25) : leap n * s1 ≤ leap m * s1 := by
  rcases hnm.lt_or_eq with hlt | rfl
  · exact Nat.mul_le_mul_right s1 (by have := leap_lt hlt hn; omega)
  · exact le_rfl

/-- What was shifted by the later seconds is before the entries for them. -/
theorem shift_before (hn : n ≤ 25) (hbefore : ∀ m < n, now < (leap m - (m + 1)) * s1) :
    ∀ m < n, now + n * s1 < leap m * s1 := by
  intro m hm
  obtain ⟨k, rfl⟩ : ∃ k, n = k + 1 := ⟨n - 1, by omega⟩
  have hlast := hbefore k (Nat.lt_succ_self k)
  have hback := leap_back (show k < 25 by omega)
  have hle := leap_le (show m ≤ k by omega) (show k < 25 by omega)
  calc
    now + (k + 1) * s1 < (leap k - (k + 1)) * s1 + (k + 1) * s1 := Nat.add_lt_add_right hlast _
    _ = (leap k - (k + 1)) * s1 + s1 + k * s1 := by ring
    _ = leap k * s1 := hback
    _ ≤ leap m * s1 := hle

/-- What was shifted behind an inserted second is behind the entry for it. -/
theorem shift_behind (hn : n < 25) (hbehind : (leap n - (n + 1)) * s1 + s1 ≤ now) :
    leap n * s1 ≤ now + n * s1 := by
  have h := Nat.add_le_add_right hbehind (n * s1)
  rwa [leap_back hn] at h

/-- What was shifted by every second comes back, before the last entry as well. -/
theorem leadLoop_last {ley : Date} (hbefore : ∀ m < 25, now + 25 * s1 < leap m * s1) :
    leadLoop (now + 25 * s1) ley 25 0 = some now := by
  have hlt := hbefore 24 (by decide)
  have hsum : now + 25 * s1 = now + s1 + 24 * s1 := by ring
  rw [hsum] at hlt ⊢
  have hle : 24 * s1 ≤ now + s1 + 24 * s1 := Nat.le_add_left _ _
  have hout : ¬now + s1 + 24 * s1 ≥ leap 24 * s1 + s1 :=
    Nat.not_le.mpr (hlt.trans_le (Nat.le_add_right _ _))
  have hbefore' : ∀ m < 24, now + s1 + 24 * s1 < leap m * s1 := by
    intro m hm
    rw [← hsum]
    exact hbefore m (hm.trans (by decide))
  rw [leadLoop_skip (by decide) hle hbefore', leadLoop, sub, if_neg (Nat.not_lt.mpr hle),
    entry_les (by decide), Option.bind_eq_bind, Option.bind_some, Option.bind_some, if_neg hout,
    if_neg fun h => Nat.not_le.mpr hlt h.1, if_pos length_les.symm, Nat.add_sub_cancel, sub,
    if_neg (Nat.not_lt.mpr (Nat.le_add_left _ _)), Nat.add_sub_cancel]

theorem lead_shift (hn : n ≤ 25) (hbefore : ∀ m < n, now < (leap m - (m + 1)) * s1)
    (hbehind : n < 25 → (leap n - (n + 1)) * s1 + s1 ≤ now)
    (hyud : yore (now + n * s1) = some yud) :
    lead yud = some now ∧ yud.t.s ≠ 60 := by
  obtain ⟨hyear, -, hs⟩ := yore_time hyud
  have hs60 : yud.t.s ≠ 60 := by
    rw [hs]
    exact (Nat.mod_lt _ (by decide)).ne
  have hler := shift_before hn hbefore
  refine ⟨?_, hs60⟩
  rw [lead, hyear, length_les, Option.bind_eq_bind, Option.bind_some]
  rcases hn.lt_or_eq with h25 | rfl
  · have hge := shift_behind h25 (hbehind h25)
    rw [leadLoop_stop h25 (Nat.le_add_left _ _) hler hge, if_neg fun h => hs60 h.2,
      Nat.add_sub_cancel]
  · exact leadLoop_last hler

/-- In an inserted second the date has one second more than a minute has. -/
theorem second_inside (hn : n < 25) (hin : In now n) (hyud : yore now = some yud) :
    (addSec (n + 1) yud).t.s = 60 := by
  obtain ⟨-, -, hs⟩ := yore_time hyud
  have hgt := leap_gt hn
  have hdiv : now / s1 = leap n - (n + 1) :=
    Nat.div_eq_of_lt_le hin.1 (by rw [Nat.succ_mul]; exact hin.2)
  change n + 1 + yud.t.s = 60
  rw [hs, hdiv]
  omega

theorem lead_inside (hn : n < 25) (hin : In now n) (hyud : yore now = some yud) :
    lead (addSec (n + 1) yud) = some now := by
  have hback := leap_back hn
  have hsum : now + (n + 1) * s1 = now + s1 + n * s1 := by ring
  have hge : leap n * s1 ≤ now + s1 + n * s1 :=
    shift_behind hn (Nat.add_le_add_right hin.1 s1)
  have hlt : now + s1 + n * s1 < leap n * s1 + s1 := by
    calc
      now + s1 + n * s1 = now + (n * s1 + s1) := by ring
      _ < (leap n - (n + 1)) * s1 + s1 + (n * s1 + s1) := Nat.add_lt_add_right hin.2 _
      _ = leap n * s1 + s1 := by rw [← Nat.add_assoc, hback]
  have hbefore : ∀ m < n, now + s1 + n * s1 < leap m * s1 := by
    intro m hm
    have hgap := leap_lt hm hn
    calc
      now + s1 + n * s1 < leap n * s1 + s1 := hlt
      _ = (leap n + 1) * s1 := (Nat.succ_mul _ _).symm
      _ ≤ leap m * s1 := Nat.mul_le_mul_right s1 (by omega)
  rw [lead, year_addSec hyud, length_les, Option.bind_eq_bind, Option.bind_some, hsum,
    leadLoop_stop hn (Nat.le_add_left _ _) hbefore hge,
    if_pos ⟨hlt, second_inside hn hin hyud⟩, Nat.add_sub_cancel, sub,
    if_neg (Nat.not_lt.mpr (Nat.le_add_left _ _)), Nat.add_sub_cancel]

/-- No entry names the second of a time that is shifted. -/
theorem shift_out (hbefore : ∀ m < n, now < (leap m - (m + 1)) * s1)
    (hbehind : n < 25 → (leap n - (n + 1)) * s1 + s1 ≤ now) (hk : k < 25) : ¬In now k := by
  intro hin
  rcases Nat.lt_trichotomy k n with hlt | rfl | hlt
  · exact Nat.not_le.mpr (hbefore k hlt) hin.1
  · exact Nat.not_le.mpr hin.2 (hbehind hk)
  · have hgap := leap_lt hlt hk
    refine Nat.lt_irrefl now ?_
    calc
      now < (leap k - (k + 1)) * s1 + s1 := hin.2
      _ = (leap k - (k + 1) + 1) * s1 := (Nat.succ_mul _ _).symm
      _ ≤ (leap n - (n + 1)) * s1 := Nat.mul_le_mul_right s1 (by omega)
      _ ≤ (leap n - (n + 1)) * s1 + s1 := Nat.le_add_right _ _
      _ ≤ now := hbehind (hlt.trans hk)

end shift

/-- The time is in the second that an entry of `lef` names. -/
def Inserted (yer : Nat) : Prop := ∃ n now, entry n lef = some now ∧ now ≤ yer ∧ yer < now + s1

theorem inserted_iff (yer : Nat) : Inserted yer ↔ ∃ n < 25, In yer n := by
  constructor
  · rintro ⟨n, now, hentry, hle, hlt⟩
    have hn : n < 25 := by
      by_contra hge
      rw [entry, List.getElem?_eq_none (Nat.not_lt.mp hge)] at hentry
      exact Option.some_ne_none _ hentry.symm
    rw [entry_lef hn] at hentry
    cases hentry
    exact ⟨n, hn, hle, hlt⟩
  · rintro ⟨n, hn, hle, hlt⟩
    exact ⟨n, _, entry_lef hn, hle, hlt⟩

theorem deal_spec (yer : Nat) : ∃ ley, deal yer = some ley ∧ lead ley = some yer ∧
    (ley.t.s = 60 ↔ Inserted yer) := by
  obtain ⟨yud, hyud, hdealt⟩ := deal_dealt yer
  generalize hout : deal yer = out at hdealt
  cases hdealt with
  | shift n hn hbefore hbehind =>
      obtain ⟨ley, hley, -⟩ := year_yore (yer + n * s1)
      obtain ⟨hlead, hs60⟩ := lead_shift hn hbefore hbehind hley
      refine ⟨ley, hley, hlead, fun h => absurd h hs60, fun h => ?_⟩
      obtain ⟨k, hk, hin⟩ := (inserted_iff yer).mp h
      exact absurd hin (shift_out hbefore hbehind hk)
  | inside n hn hin =>
      exact ⟨_, rfl, lead_inside hn hin hyud, fun _ => (inserted_iff yer).mpr ⟨n, hn, hin⟩,
        fun _ => second_inside hn hin hyud⟩

/-- A date with leap seconds comes back to its time, so that no two times have one date; it has
60 seconds exactly in the second that an entry of `lef` names. -/
theorem lead_deal (yer : Nat) : ∃ ley, deal yer = some ley ∧ lead ley = some yer ∧
    (∀ yer', deal yer' = some ley → yer' = yer) ∧ (ley.t.s = 60 ↔ Inserted yer) := by
  obtain ⟨ley, hdeal, hlead, hsecond⟩ := deal_spec yer
  refine ⟨ley, hdeal, hlead, fun yer' hdeal' => ?_, hsecond⟩
  obtain ⟨ley', hley', hlead', -⟩ := deal_spec yer'
  cases hdeal'.symm.trans hley'
  exact Option.some.inj (hlead'.symm.trans hlead)

end Vere.Zuse
