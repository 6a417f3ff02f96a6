import Mathlib.Tactic.IntervalCases
import Vere.Hoon.Bits

/-!
# Vere.Hoon.Time

Urbit time (`hoon.hoon`, section 2cH): `++yell` and `++yule` take a time apart into days,
hours, minutes, seconds and a fraction of the second and put it together, `++yore` and
`++year` do so with a date.

`++yawn` counts days by going down the years one by one to a multiple of four, then by fours
to a century and by centuries to an era. It comes to the closed form `days` (`yawnYer_eq`).
`++yall` goes up from the century. Within a century a year is a leap year if it is a multiple
of four, apart from the first year; that is why it can leave the other rules out.
-/

namespace Vere.Hoon

/-- `++tarp`: parsed time. -/
structure Tarp where
  d : Nat
  h : Nat
  m : Nat
  s : Nat
  f : List Nat
  deriving DecidableEq

/-- `++date`: parsed date. -/
structure Date where
  a : Bool
  y : Nat
  m : Nat
  t : Tarp
  deriving DecidableEq

/-! ### Time constants, `++yo` -/

namespace Yo

def cet : Nat := 36524
def day : Nat := 86400
def era : Nat := 146097
def hor : Nat := 3600
def mit : Nat := 60
def moh : List Nat := [31, 28, 31, 30, 31, 30, 31, 31, 30, 31, 30, 31]
def moy : List Nat := [31, 29, 31, 30, 31, 30, 31, 31, 30, 31, 30, 31]

end Yo

/-! ### Times -/

/-- `fan` of `++yell`: the fraction in blocks of 16 bits, the highest first. -/
def yellFan : Nat → Nat → List Nat
  | 0, _ => []
  | muc + 1, raw => if raw = 0 then [] else cut 4 muc 1 raw :: yellFan muc («end» 4 muc raw)

/-- `++yell`: tarp from @d. -/
def yell (now : Nat) : Tarp :=
  let sec := rsh 6 1 now
  let fan := yellFan 4 («end» 6 1 now)
  ⟨sec / Yo.day, sec % Yo.day / Yo.hor, sec % Yo.day % Yo.hor / Yo.mit,
    sec % Yo.day % Yo.hor % Yo.mit, fan⟩

/-- `fac` of `++yule`. There is no block below the lowest. -/
def yuleFac : Nat → List Nat → Option Nat
  | _, [] => some 0
  | 0, _ :: _ => none
  | muc + 1, i :: f => do return lsh 4 muc i + (← yuleFac muc f)

/-- `++yule`: time atom. -/
def yule (rip : Tarp) : Option Nat := do
  let sec := rip.d * Yo.day + (rip.h * Yo.hor + (rip.m * Yo.mit + rip.s))
  let fac ← yuleFac 4 rip.f
  return con (lsh 6 1 sec) fac

/-! ### Dates -/

/-- `++yelp`: leap year. -/
def yelp (yer : Nat) : Bool := yer % 4 = 0 ∧ (yer % 100 ≠ 0 ∨ yer % 400 = 0)

/-- The loop over the years in `++yall`. -/
def yallYer (lep : Bool) (yer day : Nat) : Bool × Nat × Nat :=
  if day < (if lep then 366 else 365) then (lep, yer, day)
  else yallYer («end» 0 2 (yer + 1) = 0) (yer + 1) (day - if lep then 366 else 365)
termination_by day
decreasing_by
  rename_i h
  split at h <;> simp_all <;> omega

/-- The loop over the months in `++yall`. -/
def yallMot : List Nat → Nat → Nat → Option (Nat × Nat)
  | [], _, _ => none
  | zis :: cah, mot, day => if day < zis then some (mot + 1, day + 1) else yallMot cah (mot + 1) (day - zis)

/-- `++yall`: day # to day of year. -/
def yall (day : Nat) : Option (Nat × Nat × Nat) := do
  let dey := day % Yo.era
  let (lep, cet, dey) :=
    if dey < Yo.cet + 1 then (true, 0, dey)
    else (false, 1 + (dey - (Yo.cet + 1)) / Yo.cet, (dey - (Yo.cet + 1)) % Yo.cet)
  let (lep, yer, dey) := yallYer lep (400 * (day / Yo.era) + 100 * cet) dey
  let (mot, dey) ← yallMot (if lep then Yo.moy else Yo.moh) 0 dey
  return (yer, mot, dey)

/-- The loop over the months in `++yawn`. -/
def yawnMot : List Nat → Nat → Nat → Option Nat
  | _, 0, day => some day
  | [], _ + 1, _ => none
  | i :: cah, mot + 1, day => yawnMot cah mot (day + i)

/-- The loop over the years in `++yawn`. -/
def yawnYer (yer day : Nat) : Nat :=
  if yer % 4 ≠ 0 then yawnYer (yer - 1) (day + if yelp (yer - 1) then 366 else 365)
  else if yer % 100 ≠ 0 then yawnYer (yer - 4) (day + if yelp (yer - 4) then 1461 else 1460)
  else if yer % 400 ≠ 0 then yawnYer (yer - 100) (day + if yelp (yer - 100) then 36525 else 36524)
  else day + yer / 400 * (1 + 4 * 36524)
termination_by yer
decreasing_by all_goals omega

/-- `++yawn`: days since Jesus. -/
def yawn (yer mot day : Nat) : Option Nat :=
  if mot = 0 ∨ day = 0 then none
  else do
    let day ← yawnMot (if yelp yer then Yo.moy else Yo.moh) (mot - 1) (day - 1)
    return yawnYer yer day

/-- `++year`: date to @d. -/
def year (det : Date) : Option Nat := do
  let yer ←
    if det.a then some (292277024400 + det.y)
    else if det.y = 0 ∨ 292277024400 < det.y - 1 then none
    else some (292277024400 - (det.y - 1))
  let day ← yawn yer det.m det.t.d
  yule ⟨day, det.t.h, det.t.m, det.t.s, det.t.f⟩

/-- `++yore`: @d to date. -/
def yore (now : Nat) : Option Date := do
  let rip := yell now
  let (y, m, d) ← yall rip.d
  let t : Tarp := ⟨d, rip.h, rip.m, rip.s, rip.f⟩
  if y > 292277024400 then return ⟨true, y - 292277024400, m, t⟩
  else return ⟨false, 292277024400 - y + 1, m, t⟩

/-! ### Times come back -/

theorem lsh_words (b c : Nat) : lsh 4 b c = 2 ^ (16 * b) * c := by
  rw [lsh, bex_eq, bex_eq]
  rfl

theorem end_words (b c : Nat) : «end» 4 b c = c % 2 ^ (16 * b) := by
  rw [«end», bex_eq, bex_eq]
  rfl

theorem cut_word (b d : Nat) : cut 4 b 1 d = d / 2 ^ (16 * b) % 2 ^ 16 := by
  rw [cut, end_words, rsh, bex_eq, bex_eq]
  rfl

theorem yuleFac_yellFan {muc raw : Nat} (h : raw < 2 ^ (16 * muc)) :
    yuleFac muc (yellFan muc raw) = some raw := by
  induction muc generalizing raw with
  | zero =>
      obtain rfl : raw = 0 := by simpa using h
      rfl
  | succ muc ih =>
      rw [yellFan]
      split
      · next h0 => rw [h0, yuleFac]
      · have htop : raw / 2 ^ (16 * muc) < 2 ^ 16 := by
          rw [Nat.div_lt_iff_lt_mul (Nat.two_pow_pos _), ← Nat.pow_add]
          rwa [Nat.mul_succ, Nat.add_comm] at h
        rw [yuleFac, end_words, ih (Nat.mod_lt _ (Nat.two_pow_pos _)), cut_word, lsh_words,
          Nat.mod_eq_of_lt htop]
        simp [Nat.div_add_mod]

theorem rsh_sec (now : Nat) : rsh 6 1 now = now / 2 ^ 64 := by
  rw [rsh, bex_eq, bex_eq]
  rfl

theorem lsh_sec (sec : Nat) : lsh 6 1 sec = 2 ^ 64 * sec := by
  rw [lsh, bex_eq, bex_eq]
  rfl

theorem end_sec (now : Nat) : «end» 6 1 now = now % 2 ^ 64 := by
  rw [«end», bex_eq, bex_eq]
  rfl

/-- A time comes back from its parts. -/
theorem yule_yell (now : Nat) : yule (yell now) = some now := by
  have hfan : yuleFac 4 (yellFan 4 («end» 6 1 now)) = some (now % 2 ^ 64) := by
    rw [end_sec]
    exact yuleFac_yellFan (Nat.mod_lt _ (Nat.two_pow_pos _))
  have hsec : ∀ sec, sec / Yo.day * Yo.day + (sec % Yo.day / Yo.hor * Yo.hor +
      (sec % Yo.day % Yo.hor / Yo.mit * Yo.mit + sec % Yo.day % Yo.hor % Yo.mit)) = sec := by
    intro sec
    simp only [Yo.day, Yo.hor, Yo.mit]
    omega
  simp only [yule, yell, hfan, hsec, Option.bind_eq_bind, Option.bind_some, Option.pure_def]
  rw [con_eq, lsh_sec, rsh_sec, ← Nat.two_pow_add_eq_or_of_lt (Nat.mod_lt _ (by decide)),
    Nat.div_add_mod]

/-! ### Dates come back -/

/-- The days before a year. -/
def days (yer : Nat) : Nat := 365 * yer + (yer + 3) / 4 + (yer + 399) / 400 - (yer + 99) / 100

/-- The years before `yer` that `n` divides. -/
def every (n yer : Nat) : Nat := (yer + (n - 1)) / n

theorem every_mul {k : Nat} (hk : 0 < k) {n : Nat} (hn : 0 < n) (yer : Nat) :
    every (k * n) (k * yer) = every n yer := by
  have hkn : 0 < k * n := Nat.mul_pos hk hn
  obtain ⟨n, rfl⟩ := Nat.exists_eq_succ_of_ne_zero hn.ne'
  obtain ⟨k, rfl⟩ := Nat.exists_eq_succ_of_ne_zero hk.ne'
  rw [every, every, ← Nat.div_div_eq_div_mul]
  have hsum : (k + 1) * yer + ((k + 1) * (n + 1) - 1) = k + (k + 1) * (yer + n) := by
    rw [Nat.mul_succ (k + 1) n, Nat.mul_add]
    omega
  rw [Nat.succ_eq_add_one, Nat.succ_eq_add_one, hsum, Nat.add_mul_div_left _ _ k.succ_pos,
    Nat.div_eq_of_lt k.lt_succ_self, Nat.zero_add, Nat.add_sub_cancel]

theorem every_succ {n : Nat} (hn : 0 < n) (yer : Nat) :
    every n (yer + 1) = every n yer + if yer % n = 0 then 1 else 0 := by
  have hd : n ∣ yer + (n - 1) + 1 ↔ yer % n = 0 := by
    rw [show yer + (n - 1) + 1 = yer + n by omega, Nat.dvd_add_self_right,
      Nat.dvd_iff_mod_eq_zero]
  rw [every, every, show yer + 1 + (n - 1) = (yer + (n - 1)) + 1 by omega, Nat.succ_div]
  simp only [hd]

/-- A step of `k` years is a step of one among the years that `k` divides. -/
theorem every_step {k : Nat} (hk : 0 < k) {n : Nat} (hn : 0 < n) (yer : Nat) :
    every (k * n) (k * (yer + 1)) = every (k * n) (k * yer) + if yer % n = 0 then 1 else 0 := by
  rw [every_mul hk hn, every_mul hk hn, every_succ hn]

/-- A year has a leap day when 4 divides it, but when 100 divides it only when 400 does. -/
theorem days_eq (yer : Nat) : days yer + every 100 yer = 365 * yer + every 4 yer + every 400 yer := by
  have hle : every 100 yer ≤ 365 * yer := by
    simp only [every]
    omega
  exact Nat.sub_add_cancel (hle.trans (by rw [Nat.add_assoc]; exact Nat.le_add_right _ _))

theorem days_succ (yer : Nat) : days (yer + 1) = days yer + if yelp yer then 366 else 365 := by
  have h := days_eq yer
  have hs := days_eq (yer + 1)
  rw [every_succ (by decide), every_succ (by decide), every_succ (by decide)] at hs
  simp only [yelp, decide_eq_true_eq]
  by_cases c4 : yer % 4 = 0
  · by_cases c100 : yer % 100 = 0
    · by_cases c400 : yer % 400 = 0
      · rw [if_pos c4, if_pos c100, if_pos c400] at hs
        rw [if_pos ⟨c4, .inr c400⟩]
        omega
      · rw [if_pos c4, if_pos c100, if_neg c400] at hs
        rw [if_neg fun h => h.2.elim (· c100) c400]
        omega
    · have c400 : ¬yer % 400 = 0 := by omega
      rw [if_pos c4, if_neg c100, if_neg c400] at hs
      rw [if_pos ⟨c4, .inl c100⟩]
      omega
  · have c100 : ¬yer % 100 = 0 := by omega
    have c400 : ¬yer % 400 = 0 := by omega
    rw [if_neg c4, if_neg c100, if_neg c400] at hs
    rw [if_neg fun h => c4 h.1]
    omega

/-- The days of four years from a year that 4 divides. -/
theorem days_four (q : Nat) :
    days (4 * (q + 1)) = days (4 * q) + if yelp (4 * q) then 1461 else 1460 := by
  have h := days_eq (4 * q)
  have hs := days_eq (4 * (q + 1))
  rw [show 100 = 4 * 25 from rfl, show 400 = 4 * 100 from rfl] at h hs
  rw [every_step (n := 25) (by decide) (by decide), every_step (n := 100) (by decide) (by decide)] at hs
  have h4 := every_step (k := 4) (n := 1) (by decide) (by decide) q
  rw [if_pos (Nat.mod_one q)] at h4
  simp only [Nat.mul_one] at h4
  have hyelp : (yelp (4 * q) = true) ↔ ¬q % 25 = 0 ∨ q % 100 = 0 := by
    simp only [yelp, decide_eq_true_eq]
    omega
  simp only [hyelp]
  by_cases c25 : q % 25 = 0
  · by_cases c100 : q % 100 = 0
    · rw [if_pos c25, if_pos c100] at hs
      rw [if_pos (.inr c100)]
      omega
    · rw [if_pos c25, if_neg c100] at hs
      rw [if_neg fun h => h.elim (· c25) c100]
      omega
  · have c100 : ¬q % 100 = 0 := by omega
    rw [if_neg c25, if_neg c100] at hs
    rw [if_pos (.inl c25)]
    omega

/-- The days of a century. -/
theorem days_hundred (c : Nat) :
    days (100 * (c + 1)) = days (100 * c) + if yelp (100 * c) then 36525 else 36524 := by
  have h := days_eq (100 * c)
  have hs := days_eq (100 * (c + 1))
  rw [show 400 = 100 * 4 from rfl] at h hs
  rw [every_step (n := 4) (by decide) (by decide)] at hs
  have h4 : ∀ c, every 4 (100 * c) = 25 * c := by
    intro c
    simp only [every]
    omega
  have h100 : ∀ c, every 100 (100 * c) = c := by
    intro c
    simp only [every]
    omega
  rw [h4, h100] at h hs
  have hyelp : (yelp (100 * c) = true) ↔ c % 4 = 0 := by
    simp only [yelp, decide_eq_true_eq]
    omega
  simp only [hyelp]
  split at hs
  · next hc =>
      rw [if_pos hc]
      omega
  · next hc =>
      rw [if_neg hc]
      omega

theorem days_mono {x y : Nat} (h : x ≤ y) : days x ≤ days y := by
  induction h with
  | refl => exact le_rfl
  | step _ ih =>
      rw [days_succ]
      omega

theorem days_century (e c : Nat) (hc : c ≤ 4) :
    days (400 * e + 100 * c) = 146097 * e + 36524 * c + if c = 0 then 0 else 1 := by
  have h := days_eq (400 * e + 100 * c)
  have h4 : every 4 (400 * e + 100 * c) = 100 * e + 25 * c := by
    simp only [every]
    omega
  have h100 : every 100 (400 * e + 100 * c) = 4 * e + c := by
    simp only [every]
    omega
  have h400 : every 400 (400 * e + 100 * c) = e + if c = 0 then 0 else 1 := by
    simp only [every]
    split <;> omega
  rw [h4, h100, h400] at h
  omega

/-- `++yawn` counts the days before the year. -/
theorem yawnYer_eq (yer day : Nat) : yawnYer yer day = day + days yer := by
  induction yer, day using yawnYer.induct with
  | case1 yer day h ih =>
      simp only [dite_eq_ite] at ih
      have hs := days_succ (yer - 1)
      rw [show yer - 1 + 1 = yer by omega] at hs
      rw [yawnYer, if_pos h, ih, hs]
      omega
  | case2 yer day h4 h100 ih =>
      simp only [dite_eq_ite] at ih
      have hs := days_four (yer / 4 - 1)
      rw [show 4 * (yer / 4 - 1 + 1) = yer by omega, show 4 * (yer / 4 - 1) = yer - 4 by omega] at hs
      rw [yawnYer, if_neg h4, if_pos h100, ih, hs]
      omega
  | case3 yer day h4 h100 h400 ih =>
      simp only [dite_eq_ite] at ih
      have hs := days_hundred (yer / 100 - 1)
      rw [show 100 * (yer / 100 - 1 + 1) = yer by omega,
        show 100 * (yer / 100 - 1) = yer - 100 by omega] at hs
      rw [yawnYer, if_neg h4, if_neg h100, if_pos h400, ih, hs]
      omega
  | case4 yer day h4 h100 h400 =>
      have he := days_century (yer / 400) 0 (by decide)
      rw [show 400 * (yer / 400) + 100 * 0 = yer by omega] at he
      rw [yawnYer, if_neg h4, if_neg h100, if_neg h400, he, if_pos rfl]
      omega

/-- The years go up from the start `cen` of a century, and stay in it. -/
theorem yallYer_spec {cen : Nat} (hcen : cen % 100 = 0) (lep : Bool) (yer day : Nat) :
    lep = yelp yer → cen ≤ yer → yer < cen + 100 → days yer + day < days (cen + 100) →
      ∃ yer' day', yallYer lep yer day = (yelp yer', yer', day') ∧
        days yer' + day' = days yer + day ∧ day' < if yelp yer' then 366 else 365 := by
  induction lep, yer, day using yallYer.induct with
  | case1 lep yer day h =>
      rintro rfl hlo hhi hlt
      simp only [dite_eq_ite] at h
      exact ⟨yer, day, by rw [yallYer, if_pos h], rfl, h⟩
  | case2 lep yer day h ih =>
      rintro rfl hlo hhi hlt
      simp only [dite_eq_ite] at h ih
      have hs := days_succ yer
      have hnext : yer + 1 < cen + 100 := by
        by_contra hge
        have := days_mono (Nat.not_lt.mp hge)
        omega
      have hlep : decide («end» 0 2 (yer + 1) = 0) = yelp (yer + 1) := by
        rw [end_zero, yelp]
        exact decide_eq_decide.mpr (by omega)
      obtain ⟨yer', day', hy, hd, hlen⟩ := ih hlep (by omega) hnext (by omega)
      refine ⟨yer', day', by rw [yallYer, if_neg h, hy], ?_, hlen⟩
      omega

theorem yallMot_spec {cah : List Nat} {mot day : Nat} (h : day < cah.sum) :
    ∃ k d, yallMot cah mot day = some (mot + k + 1, d + 1) ∧
      ∀ x, yawnMot cah k (d + x) = some (day + x) := by
  induction cah generalizing mot day with
  | nil => simp at h
  | cons zis cah ih =>
      rw [yallMot]
      split
      · exact ⟨0, day, rfl, fun x => by rw [yawnMot]⟩
      · next hge =>
        rw [List.sum_cons] at h
        obtain ⟨k, d, hm, hy⟩ := @ih (mot + 1) (day - zis) (by omega)
        refine ⟨k + 1, d, by rw [hm]; congr 2; omega, fun x => ?_⟩
        rw [yawnMot, Nat.add_assoc, hy]
        congr 1
        omega

theorem yelp_century (e c : Nat) : yelp (400 * e + 100 * c) = decide (c % 4 = 0) := by
  rw [yelp]
  exact decide_eq_decide.mpr (by omega)

/-- The century a day is in, and how far. -/
theorem century_of_day (day : Nat) : ∃ c dey,
    (if day % 146097 < 36524 + 1 then (true, 0, day % 146097)
      else (false, 1 + (day % 146097 - (36524 + 1)) / 36524, (day % 146097 - (36524 + 1)) % 36524)) =
      (decide (c % 4 = 0), c, dey) ∧ c < 4 ∧
    146097 * (day / 146097) + 36524 * c + (if c = 0 then 0 else 1) + dey = day ∧
    dey < if c = 0 then 36525 else 36524 := by
  by_cases hfirst : day % 146097 < 36524 + 1
  · refine ⟨0, day % 146097, if_pos hfirst, by decide, ?_, hfirst⟩
    simp only [if_true]
    omega
  · rw [if_neg hfirst]
    refine ⟨1 + (day % 146097 - 36525) / 36524, (day % 146097 - 36525) % 36524, ?_, ?_, ?_, ?_⟩
    · simp only [Prod.mk.injEq, and_true]
      symm
      exact decide_eq_false (by omega)
    · omega
    · rw [if_neg (by omega)]
      omega
    · rw [if_neg (by omega)]
      omega

/-- The lengths of the months of a year. -/
def months (yer : Nat) : List Nat := if yelp yer then Yo.moy else Yo.moh

theorem sum_months (yer : Nat) : (months yer).sum = if yelp yer then 366 else 365 := by
  unfold months
  split <;> rfl

/-- `++yall` finds the year that a day is in, and goes down its months. -/
theorem yall_year {day yer dey : Nat} (hday : days yer + dey = day) (hdey : dey < (months yer).sum) :
    yall day = (yallMot (months yer) 0 dey).map fun x => (yer, x.1, x.2) := by
  obtain ⟨c, rem, hcen, hc, hrem, hlt⟩ : ∃ c rem,
      (if day % Yo.era < Yo.cet + 1 then (true, 0, day % Yo.era)
        else (false, 1 + (day % Yo.era - (Yo.cet + 1)) / Yo.cet,
          (day % Yo.era - (Yo.cet + 1)) % Yo.cet)) = (decide (c % 4 = 0), c, rem) ∧ c < 4 ∧
      146097 * (day / Yo.era) + 36524 * c + (if c = 0 then 0 else 1) + rem = day ∧
      rem < if c = 0 then 36525 else 36524 := century_of_day day
  have hyer : days (400 * (day / Yo.era) + 100 * c) + rem = day := by
    rw [days_century _ _ hc.le, hrem]
  have hcentury : days (400 * (day / Yo.era) + 100 * c) + rem <
      days (400 * (day / Yo.era) + 100 * c + 100) := by
    have hnext := days_century (day / Yo.era) (c + 1) hc
    rw [show 400 * (day / Yo.era) + 100 * c + 100 = 400 * (day / Yo.era) + 100 * (c + 1) by ring,
      hnext, hyer]
    split at hlt <;> simp_all <;> omega
  obtain ⟨yer', dey', hy, hsum, hlen⟩ := yallYer_spec (by omega) _ _ rem
    (yelp_century (day / Yo.era) c).symm le_rfl (by omega) hcentury
  rw [← sum_months] at hlen
  -- there is one year that the day is in
  obtain rfl : yer' = yer := by
    have hnext := fun y => (days_succ y).trans (congrArg _ (sum_months y).symm)
    rcases Nat.lt_trichotomy yer' yer with h | h | h
    · have := hnext yer' ▸ days_mono h
      omega
    · exact h
    · have := hnext yer ▸ days_mono h
      omega
  obtain rfl : dey' = dey := by omega
  simp only [yall, hcen, hy, months, Option.bind_eq_bind, Option.pure_def]
  cases yallMot (if yelp yer' = true then Yo.moy else Yo.moh) 0 dey' <;> rfl

/-- Every day is in a year. -/
theorem exists_year (day : Nat) : ∃ yer dey, days yer + dey = day ∧ dey < (months yer).sum := by
  induction day with
  | zero => exact ⟨0, 0, rfl, by rw [sum_months]; split <;> decide⟩
  | succ day ih =>
      obtain ⟨yer, dey, hday, hdey⟩ := ih
      by_cases h : dey + 1 < (months yer).sum
      · exact ⟨yer, dey + 1, by omega, h⟩
      · refine ⟨yer + 1, 0, ?_, by rw [sum_months]; split <;> decide⟩
        rw [days_succ, ← sum_months]
        omega

/-- The number of a day comes back from its date. -/
theorem yawn_yall (day : Nat) : ∃ y m d, yall day = some (y, m, d) ∧ yawn y m d = some day := by
  obtain ⟨yer, dey, hday, hdey⟩ := exists_year day
  obtain ⟨k, d, hm, hw⟩ := @yallMot_spec _ 0 _ hdey
  refine ⟨yer, 0 + k + 1, d + 1, ?_, ?_⟩
  · rw [yall_year hday hdey, hm]
    rfl
  · have hmot := hw 0
    simp only [Nat.add_zero, months] at hmot
    simp only [yawn, Nat.zero_add, Nat.succ_ne_zero, or_self, if_false, Nat.add_sub_cancel, hmot,
      Option.bind_eq_bind, Option.bind_some, Option.pure_def, yawnYer_eq]
    congr 1
    omega

/-- The days before a month of a year, and the month and the day found again. -/
theorem yawnMot_spec {cah : List Nat} {k d mot : Nat} (hk : k < cah.length) (hd : d < cah[k]) :
    ∃ n, (∀ x, yawnMot cah k (d + x) = some (n + x)) ∧ n < cah.sum ∧
      yallMot cah mot n = some (mot + k + 1, d + 1) := by
  induction cah generalizing k mot with
  | nil => cases hk
  | cons zis cah ih =>
      cases k with
      | zero =>
          have hd : d < zis := hd
          refine ⟨d, fun x => by rw [yawnMot], ?_, by rw [yallMot, if_pos hd]⟩
          rw [List.sum_cons]
          omega
      | succ k =>
          obtain ⟨n, hn, hlt, hm⟩ := @ih k (mot + 1) (Nat.lt_of_succ_lt_succ hk) hd
          refine ⟨zis + n, fun x => ?_, ?_, ?_⟩
          · rw [yawnMot, Nat.add_assoc, hn]
            congr 1
            omega
          · rw [List.sum_cons]
            omega
          · rw [yallMot, if_neg (by omega), Nat.add_sub_cancel_left, hm]
            congr 2
            omega

/-- A month and a day of a year come back from the number of the day. -/
theorem yall_yawn {y m d : Nat} (hm : m ≠ 0) (hm' : m - 1 < (months y).length) (hd : d ≠ 0)
    (hd' : d - 1 < (months y)[m - 1]) : ∃ n, yawn y m d = some n ∧ yall n = some (y, m, d) := by
  obtain ⟨n, hn, hlt, hmot⟩ := @yawnMot_spec _ (m - 1) (d - 1) 0 hm' hd'
  have h0 := hn 0
  simp only [Nat.add_zero, months] at h0
  refine ⟨n + days y, ?_, ?_⟩
  · simp only [yawn, hm, hd, or_self, if_false, h0, yawnYer_eq, Option.bind_eq_bind, Option.bind_some,
      Option.pure_def]
  · rw [yall_year (Nat.add_comm ..) hlt, hmot, Option.map_some]
    congr 3
    · omega
    · omega

/-- A time comes back from its date. -/
theorem year_yore (now : Nat) : ∃ det, yore now = some det ∧ year det = some now ∧
    det.t.f = (yell now).f ∧ det.y ≠ 0 := by
  obtain ⟨y, m, d, hyall, hyawn⟩ := yawn_yall (yell now).d
  have hback : yule ⟨(yell now).d, (yell now).h, (yell now).m, (yell now).s, (yell now).f⟩ = some now :=
    yule_yell now
  by_cases hera : y > 292277024400
  · refine ⟨⟨true, y - 292277024400, m, ⟨d, (yell now).h, (yell now).m, (yell now).s, (yell now).f⟩⟩,
      ?_, ?_, rfl, Nat.sub_ne_zero_of_lt hera⟩
    · simp [yore, hyall, hera]
    · have hy : 292277024400 + (y - 292277024400) = y := by omega
      simp [year, hy, hyawn, hback]
  · refine ⟨⟨false, 292277024400 - y + 1, m,
      ⟨d, (yell now).h, (yell now).m, (yell now).s, (yell now).f⟩⟩, ?_, ?_, rfl, Nat.succ_ne_zero _⟩
    · simp [yore, hyall, hera]
    · have hy : 292277024400 - (292277024400 - y) = y := by omega
      simp [year, hy, hyawn, hback]

/-! ### Dates come back from their times -/

/-- The fraction of a second comes back from its blocks. -/
theorem yellFan_yuleFac {muc : Nat} {f : List Nat} (hlen : f.length ≤ muc)
    (hlt : ∀ i ∈ f, i < 0x10000) (hlast : f.getLast? ≠ some 0) :
    ∃ raw, yuleFac muc f = some raw ∧ raw < 2 ^ (16 * muc) ∧ yellFan muc raw = f := by
  induction f generalizing muc with
  | nil =>
      refine ⟨0, by rw [yuleFac], Nat.two_pow_pos _, ?_⟩
      cases muc <;> rfl
  | cons i f ih =>
      obtain ⟨muc, rfl⟩ : ∃ n, muc = n + 1 := Nat.exists_eq_succ_of_ne_zero (by rintro rfl; cases hlen)
      have hi := hlt i List.mem_cons_self
      have hlast' : f.getLast? ≠ some 0 := by
        intro h
        cases f with
        | nil => cases h
        | cons j f => exact hlast (by rwa [List.getLast?_cons_cons])
      obtain ⟨raw, hraw, hrlt, hfan⟩ := ih (Nat.le_of_succ_le_succ hlen)
        (fun j hj => hlt j (List.mem_cons_of_mem i hj)) hlast'
      have hne : 2 ^ (16 * muc) * i + raw ≠ 0 := by
        intro h0
        rw [Nat.add_eq_zero_iff, Nat.mul_eq_zero, or_iff_right (Nat.two_pow_pos _).ne'] at h0
        obtain ⟨rfl, rfl⟩ := h0
        have hf : f = [] := by
          rw [← hfan]
          cases muc <;> rfl
        exact hlast (by rw [hf]; rfl)
      refine ⟨2 ^ (16 * muc) * i + raw, ?_, ?_, ?_⟩
      · simp only [yuleFac, hraw, lsh_words, Option.bind_eq_bind, Option.bind_some, Option.pure_def]
      · calc 2 ^ (16 * muc) * i + raw < 2 ^ (16 * muc) * i + 2 ^ (16 * muc) :=
              Nat.add_lt_add_left hrlt _
          _ = 2 ^ (16 * muc) * (i + 1) := (Nat.mul_succ ..).symm
          _ ≤ 2 ^ (16 * muc) * 2 ^ 16 := Nat.mul_le_mul_left _ hi
          _ = 2 ^ (16 * (muc + 1)) := by rw [← Nat.pow_add, Nat.mul_succ]
      · rw [yellFan, if_neg hne, cut_word, end_words, Nat.mul_add_div (Nat.two_pow_pos _),
          Nat.div_eq_of_lt hrlt, Nat.add_zero, Nat.mod_eq_of_lt (show i < 2 ^ 16 from hi), Nat.mul_add_mod,
          Nat.mod_eq_of_lt hrlt, hfan]

/-- The parts of a time come back. -/
theorem yell_yule {rip : Tarp} (hh : rip.h < 24) (hm : rip.m < 60) (hs : rip.s < 60)
    (hlen : rip.f.length ≤ 4) (hlt : ∀ i ∈ rip.f, i < 0x10000) (hlast : rip.f.getLast? ≠ some 0) :
    ∃ now, yule rip = some now ∧ yell now = rip := by
  obtain ⟨fac, hfac, hfaclt, hfan⟩ := yellFan_yuleFac hlen hlt hlast
  have hcon : ∀ sec, con (lsh 6 1 sec) fac = 2 ^ 64 * sec + fac := by
    intro sec
    rw [con_eq, lsh_sec, Nat.two_pow_add_eq_or_of_lt hfaclt]
  refine ⟨2 ^ 64 * (rip.d * Yo.day + (rip.h * Yo.hor + (rip.m * Yo.mit + rip.s))) + fac,
    by simp only [yule, hfac, Option.bind_eq_bind, Option.bind_some, Option.pure_def, hcon], ?_⟩
  have hsec : ∀ sec, rsh 6 1 (2 ^ 64 * sec + fac) = sec := by
    intro sec
    rw [rsh_sec, Nat.mul_add_div (Nat.two_pow_pos _), Nat.div_eq_of_lt hfaclt, Nat.add_zero]
  have hend : ∀ sec, «end» 6 1 (2 ^ 64 * sec + fac) = fac := by
    intro sec
    rw [end_sec, Nat.mul_add_mod, Nat.mod_eq_of_lt hfaclt]
  obtain ⟨d, h, m, s, f⟩ := rip
  simp only [yell, hsec, hend, hfan, Yo.day, Yo.hor, Yo.mit] at hh hm hs ⊢
  congr 1 <;> omega

/-- The year in the Gregorian calendar, in which there is a year zero. -/
def Date.gregorian (det : Date) : Int := if det.a then det.y else 1 - det.y

/-- How long a month of a Gregorian year is. -/
def monthLength (y : Int) (m : Nat) : Nat :=
  if m = 2 then if y % 4 = 0 ∧ (y % 100 ≠ 0 ∨ y % 400 = 0) then 29 else 28
  else if m = 4 ∨ m = 6 ∨ m = 9 ∨ m = 11 then 30
  else 31

/-- A date of the calendar, from the year that `++year` counts from on. -/
structure Date.Valid (det : Date) : Prop where
  year : 1 ≤ det.y
  epoch : det.a = false → det.y ≤ 292277024401
  month : 1 ≤ det.m ∧ det.m ≤ 12
  day : 1 ≤ det.t.d ∧ det.t.d ≤ monthLength det.gregorian det.m
  hour : det.t.h < 24
  minute : det.t.m < 60
  second : det.t.s < 60
  blocks : det.t.f.length ≤ 4 ∧ ∀ i ∈ det.t.f, i < 0x10000
  last : det.t.f.getLast? ≠ some 0

/-- The year that `++year` counts with. -/
def Date.yer (det : Date) : Nat :=
  if det.a then 292277024400 + det.y else 292277024400 - (det.y - 1)

theorem Date.Valid.yelp {det : Date} (h : det.Valid) : yelp det.yer = true ↔
    det.gregorian % 4 = 0 ∧ (det.gregorian % 100 ≠ 0 ∨ det.gregorian % 400 = 0) := by
  have hy := h.year
  have he := h.epoch
  rw [Vere.Hoon.yelp, decide_eq_true_eq, Date.yer, Date.gregorian]
  cases hdet : det.a with
  | true =>
      simp only [if_true]
      omega
  | false =>
      have := he hdet
      simp only [Bool.false_eq_true, if_false]
      omega

theorem months_get {det : Date} (h : det.Valid) :
    (months det.yer)[det.m - 1]? = some (monthLength det.gregorian det.m) := by
  have hyelp := h.yelp
  obtain ⟨hlo, hhi⟩ := h.month
  rw [months, monthLength]
  simp only [← hyelp]
  generalize det.m = m at hlo hhi ⊢
  cases Vere.Hoon.yelp det.yer <;> interval_cases m <;> rfl

/-- A date comes back from its time. -/
theorem yore_year {det : Date} (h : det.Valid) : ∃ now, year det = some now ∧ yore now = some det := by
  obtain ⟨hlt, hget⟩ := List.getElem?_eq_some_iff.mp (months_get h)
  have hm := h.month
  have hd := h.day
  have hd' : det.t.d - 1 < (months det.yer)[det.m - 1] := by
    rw [hget]
    omega
  obtain ⟨n, hyawn, hyall⟩ := yall_yawn (by omega) hlt (by omega) hd'
  obtain ⟨now, hyule, hyell⟩ := @yell_yule ⟨n, det.t.h, det.t.m, det.t.s, det.t.f⟩ h.hour h.minute
    h.second h.blocks.1 h.blocks.2 h.last
  have hy := h.year
  have he := h.epoch
  obtain ⟨a, y, m, t⟩ := det
  cases a with
  | true =>
      simp only [Date.yer, if_true] at hyawn hyall
      refine ⟨now, ?_, ?_⟩
      · simp only [year, if_true, Option.bind_eq_bind, Option.bind_some, hyawn, hyule]
      · have hyear : 292277024400 + y > 292277024400 := Nat.lt_add_of_pos_right hy
        simp only [yore, hyell, hyall, Option.bind_eq_bind, Option.bind_some, if_pos hyear,
          Nat.add_sub_cancel_left, Option.pure_def]
  | false =>
      have he := he rfl
      simp only [Date.yer, Bool.false_eq_true, if_false] at hyawn hyall
      refine ⟨now, ?_, ?_⟩
      · have hok : ¬(y = 0 ∨ 292277024400 < y - 1) := by
          simp only at hy he
          omega
        simp only [year, Bool.false_eq_true, if_false, if_neg hok, Option.bind_eq_bind,
          Option.bind_some, hyawn, hyule]
      · have hyear : ¬292277024400 - (y - 1) > 292277024400 := Nat.not_lt.mpr (Nat.sub_le ..)
        have hback : 292277024400 - (292277024400 - (y - 1)) + 1 = y := by
          simp only at hy he
          omega
        simp only [yore, hyell, hyall, Option.bind_eq_bind, Option.bind_some, if_neg hyear, hback,
          Option.pure_def]

/-- Times, days and dates come back. -/
theorem calendar (now day : Nat) {det : Date} (h : det.Valid) :
    (∃ d, yore now = some d ∧ year d = some now) ∧
      (∃ y m d, yall day = some (y, m, d) ∧ yawn y m d = some day) ∧
      ∃ d, year det = some d ∧ yore d = some det := by
  obtain ⟨d, hyore, hyear, -⟩ := year_yore now
  exact ⟨⟨d, hyore, hyear⟩, yawn_yall day, yore_year h⟩

theorem calendar_first :
    (∃ d, yore 0 = some d ∧ year d = some 0) ∧
      (∃ y m d, yall 0 = some (y, m, d) ∧ yawn y m d = some 0) ∧
      ∃ d, year ⟨true, 2000, 2, ⟨29, 23, 59, 59, [0, 1]⟩⟩ = some d ∧
        yore d = some ⟨true, 2000, 2, ⟨29, 23, 59, 59, [0, 1]⟩⟩ :=
  calendar 0 0 ⟨by decide, by decide, by decide, by decide, by decide, by decide, by decide,
    by decide, by decide⟩

/-- A date before the first year has no time. -/
theorem year_early : year ⟨false, 292277024402, 1, ⟨1, 0, 0, 0, []⟩⟩ = none := by
  decide

end Vere.Hoon
