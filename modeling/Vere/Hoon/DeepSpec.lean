import Vere.Hoon.Matches

/-!
# Vere.Hoon.DeepSpec

What the matcher of regular expressions finds.

Before `++deep` goes into a repetition it tries the body once, with what follows the repetition
for the look-ahead and not the rest of the repetition, and where the trial finds nothing the
repetition matches nothing (`star_misses`). `Leaves` reads an expression in the order of the arms,
with a look-ahead that knows what can come. If the reading ends and no trial misleads (`Fair`), the
matcher is right (`matc_right`). Without such repetitions every reading is fair (`matc_bounded`).
-/

namespace Vere.Hoon.Rexp

/-! ### How an expression is read -/

/-- What a repetition that counts its rounds goes on as. -/
def goes : Rege → Option Rege
  | .plls p => some (.pair p (.mant p))
  | .plll p => some (.pair p (.manl p))
  | .binl p 0 => some (.manl p)
  | .binl p (q + 1) => some (.pair p (.binl p q))
  | .bint p 0 => some (.mant p)
  | .bint p (q + 1) => some (.pair p (.bint p q))
  | .bant p (q + 1) => some (.pair p (.bant p q))
  | .betw p 0 (r + 1) => some (.eith (.pair p (.betw p 0 r)) .empt)
  | .betl p 0 (r + 1) => some (.eith .empt (.pair p (.betl p 0 r)))
  | .betw p (q + 1) (r + 1) => some (.pair p (.betw p q r))
  | .betl p (q + 1) (r + 1) => some (.pair p (.betl p q r))
  | _ => none

/-- The body of a repetition without bound, and what that goes on as after a trial of the body. -/
def rolls : Rege → Option (Rege × Rege)
  | .manl p => some (p, .eith .empt (.pair p (.eith .empt (.manl p))))
  | .mant p => some (p, .eith (.pair p (.eith (.mant p) .empt)) .empt)
  | _ => none

/-- An expression without parts to read. -/
def Single : Rege → Prop
  | .capt .. | .eith .. | .pair .. => False
  | a => goes a = none ∧ rolls a = none

/-- Of what two alternatives leave: where more is taken, and if that is no more the first. -/
def longer : Option Tape → Option Tape → Option Tape
  | none, y => y
  | some u, none => some u
  | some u, some v => if u.length ≤ v.length then some u else some v

section reads

variable (d : Tape)

/-- The expression can come at `u`. -/
def Ahead (c : Rege) (u : Tape) : Prop := ∃ w, Matches d c u w

/-- Of what takes something, what `c` can come after. -/
def Keeps (c : Rege) (b : Tape) (x y : Option Tape) : Prop :=
  ∀ u, y = some u ↔ x = some u ∧ (u = b ∨ Ahead d c u)

/-- What is left of `b` when `a` is read in the order of the arms, without a way back, and `c`
comes after it. Looking ahead means to know whether `c` can come. -/
inductive Leaves : Rege → Rege → Tape → Option Tape → Prop
  | one {a c b u} (ha : Single a) (hu : Matches d a b u) : Leaves a c b (some u)
  | not {a c b} (ha : Single a) (hu : ¬Ahead d a b) : Leaves a c b none
  | capt {p k c b x y} (hx : Leaves p c b x) (hy : ∀ u, y = some u ↔ x = some u ∧ Ahead d c u) :
      Leaves (.capt p k) c b y
  | eith {p q c b x y x' y'} (hx : Leaves p c b x) (hy : Leaves q c b y)
      (hx' : Keeps d c b x x') (hy' : Keeps d c b y y') : Leaves (.eith p q) c b (longer x' y')
  | fails {p q c b} (hx : Leaves p (.pair q c) b none) : Leaves (.pair p q) c b none
  | pair {p q c b u y} (hx : Leaves p (.pair q c) b (some u)) (hy : Leaves q c u y) :
      Leaves (.pair p q) c b y
  | stop {a c b x p e} (h : rolls a = some (p, e)) (hx : Leaves p c b x)
      (hno : ∀ u, x = some u → u = b) : Leaves a c b (some b)
  | roll {a c b u y p e} (h : rolls a = some (p, e)) (hx : Leaves p c b (some u)) (hu : u ≠ b)
      (hy : Leaves e c b y) : Leaves a c b y
  | goes {a c b y e} (h : goes a = some e) (hy : Leaves e c b y) : Leaves a c b y

/-- Before `s`, a repetition of `p` can match something that `c` can come after, and `c` cannot
come at once. -/
def GoesOn (p c : Rege) (s : Tape) : Prop :=
  ¬Ahead d c s ∧ ∃ u v t n, u ≠ s ∧ Matches d p s u ∧ Times (Matches d p) n u v ∧ Matches d c v t

/-- At a repetition that has to go on, the trial of the body takes something; and no count is
upside down. -/
structure Honest (a : Rege) (b : Tape) (c : Rege) : Prop where
  trial : ∀ p e, rolls a = some (p, e) → GoesOn d p c b →
    ∀ x, Leaves d p c b x → ∃ u, x = some u ∧ u ≠ b
  count : ∀ p q, a = .betw p q 0 ∨ a = .betl p q 0 → q = 0

/-- What holds wherever a part of the expression is read, or what comes after it is looked for. -/
def callsIn (P : Rege → Tape → Rege → Prop) (a : Rege) (b : Tape) (c : Rege) : Prop :=
  match a with
  | .capt p _ => P p b c ∧ ∀ u, Leaves d p c b (some u) → P c u .empt
  | .eith p q =>
      P p b c ∧ P q b c ∧ ∀ r u, r = p ∨ r = q → u ≠ b → Leaves d r c b (some u) → P c u .empt
  | .pair p q => P p b (.pair q c) ∧ ∀ u, Leaves d p (.pair q c) b (some u) → P q u c
  | a =>
      (∀ e, goes a = some e → P e b c) ∧ ∀ p e, rolls a = some (p, e) →
        P p b c ∧ ∀ u, u ≠ b → Leaves d p c b (some u) → P e b c

/-- The reading comes to an end after so many steps down, and misleads at none. -/
def Fair : Nat → Rege → Tape → Rege → Prop
  | 0 => fun _ _ _ => False
  | n + 1 => fun a b c => Honest d a b c ∧ callsIn d (Fair n) a b c

/-- What is left is left by a match, and if there are matches of `a` that `c` can come after, then
one of these is found. -/
structure Right (a : Rege) (b : Tape) (c : Rege) (x : Option Tape) : Prop where
  found : ∀ {t}, x = some t → Matches d a b t
  finds : ∀ {u}, Matches d a b u → Ahead d c u → ∃ v, x = some v ∧ Ahead d c v

/-- What `++matc` finds is a match, and it finds one if there is any. -/
def Meets (a : Rege) (b : Tape) : Prop :=
  (∀ n u, matc d n a b = pure (some u) → ∃ ft t, u 0 = some ft ∧ b = ft ++ t ∧ Matches d a b t) ∧
    ((∃ t, Matches d a b t) → ∃ n u, matc d n a b = pure (some u))

/-- What a result leaves of the text. -/
inductive Took (b : Tape) : Found → Option Tape → Prop
  | none : Took b none none
  | some {f t m} (h : b = f ++ t) : Took b (some (f, m)) (some t)

/-- The call ends, and what it leaves is right, and what is left in the reading. -/
def Ends (run : Virt Found) (a : Rege) (b : Tape) (c : Rege) : Prop :=
  ∃ o x, run = pure o ∧ Took b o x ∧ Right d a b c x ∧ Leaves d a c b x

end reads

section right

variable {d : Tape} {deep : Deep} {a e p q : Rege} {b : Tape} {c : Rege} {o : Found}
  {x y : Option Tape} {u : Tape}

theorem Right.congr (h : Right d p b c x) (ha : ∀ u, Matches d a b u ↔ Matches d p b u) :
    Right d a b c x where
  found hx := (ha _).mpr (h.found hx)
  finds hu := h.finds ((ha _).mp hu)

theorem Right.keeps (h : Right d a b c x) (hk : Keeps d c b x y) : Right d a b c y where
  found hy := h.found ((hk _).mp hy).1
  finds hu hc := by
    obtain ⟨v, hv, hcv⟩ := h.finds hu hc
    exact ⟨v, (hk v).mpr ⟨hv, .inr hcv⟩, hcv⟩

theorem suffix_of_took (h : Took b o x) (hx : x = some u) : u <:+ b := by
  cases h with
  | none => cases hx
  | some h =>
      cases hx
      exact ⟨_, h.symm⟩

theorem ends_single (ha : Single a) (ho : Took b o x) (hx : ∀ u, Matches d a b u ↔ x = some u) :
    Ends d (pure o) a b c := by
  refine ⟨o, x, rfl, ho, ⟨fun h => (hx _).mpr h, fun hu hc => ⟨_, (hx _).mp hu, hc⟩⟩, ?_⟩
  cases x with
  | none => exact .not ha fun ⟨u, hu⟩ => nomatch (hx u).mp hu
  | some t => exact .one ha ((hx t).mpr rfl)

theorem ends_take {ok : Nat → Bool} (ha : Single a)
    (hm : ∀ u, Matches d a b u ↔ ∃ i, b = i :: u ∧ ok i = true) : Ends d (pure (take ok b)) a b c := by
  cases b with
  | nil => exact ends_single ha .none fun u => (hm u).trans (by simp)
  | cons i b =>
      rw [take]
      split
      · next hok => exact ends_single ha (.some (f := [i]) rfl) fun u => (hm u).trans (by simp [hok])
      · next hok => exact ends_single ha .none fun u => (hm u).trans (by simp [hok])

/-- An expression that takes nothing. -/
theorem ends_at {P : Prop} [Decidable P] (ha : Single a) (hm : ∀ u, Matches d a b u ↔ P ∧ u = b) :
    Ends d (pure (if P then blak else none)) a b c := by
  split
  · next hP => exact ends_single ha (.some (f := []) rfl) fun u => (hm u).trans (by simp [hP, eq_comm])
  · next hP => exact ends_single ha .none fun u => (hm u).trans (by simp [hP])

theorem deepIn_goes (h : goes a = some e) : deepIn d deep a b c = deep e b c := by
  unfold goes at h
  split at h <;> cases h <;> rfl

theorem matches_goes (h : goes a = some e) : Matches d a b u ↔ Matches d e b u := by
  unfold goes at h
  split at h <;> cases h
  · exact least_one
  · exact least_one
  · exact least_zero
  · exact least_step
  · exact least_zero
  · exact least_step
  · exact Iff.rfl
  · exact most_step.trans or_comm
  · exact most_step
  · exact between_step
  · exact between_step

/-- The longer of two alternatives is right, as it is the only one of the two that can stop short of
what comes after. -/
theorem longer_right (hp : Right d p b c x) (hq : Right d q b c y)
    (hx : ∀ u, x = some u → u <:+ b ∧ (u = b ∨ Ahead d c u))
    (hy : ∀ u, y = some u → u <:+ b ∧ (u = b ∨ Ahead d c u)) :
    Right d (.eith p q) b c (longer x y) := by
  match x, y with
  | none, y =>
      refine ⟨fun h => .inr (hq.found h), fun hu hc => hu.elim (fun hu => ?_) fun hu => hq.finds hu hc⟩
      obtain ⟨_, ⟨⟩, -⟩ := hp.finds hu hc
  | some u, none =>
      refine ⟨fun h => .inl (hp.found h), fun hu hc => hu.elim (fun hu => hp.finds hu hc) fun hu => ?_⟩
      obtain ⟨_, ⟨⟩, -⟩ := hq.finds hu hc
  | some u, some v =>
      obtain ⟨hub, hu⟩ := hx u rfl
      obtain ⟨hvb, hv⟩ := hy v rfl
      rw [longer]
      split
      · next hle =>
        refine ⟨fun h => .inl (hp.found h), fun hw hc => ?_⟩
        rcases hw with hw | hw
        · exact hp.finds hw hc
        · obtain ⟨_, ⟨⟩, hcv⟩ := hq.finds hw hc
          refine ⟨u, rfl, hu.elim (fun hub => ?_) id⟩
          -- the first one takes nothing, and so does the second
          subst hub
          rwa [← hvb.eq_of_length_le hle]
      · next hlt =>
        refine ⟨fun h => .inr (hq.found h), fun _ _ => ⟨v, rfl, hv.resolve_left ?_⟩⟩
        rintro rfl
        exact hlt hub.length_le

end right

theorem slag_front (ft t : Tape) : slag ft.length (ft ++ t) = t := by
  rw [slag_eq_drop, List.drop_left]

section step

variable {d : Tape} {deep : Deep} {fair : Rege → Tape → Rege → Prop} {a p q : Rege} {b : Tape}
  {c : Rege} {o : Found} {x : Option Tape}
  (ih : ∀ {a b c}, fair a b c → b <:+ d → Ends d (deep a b c) a b c)
include ih

/-- Where what comes after is looked at, the run goes on only if it is there. -/
theorem look_ahead {ft t : Tape} (hb : b <:+ d) (hbt : b = ft ++ t) (hf : fair c t .empt) :
    ∃ o, deep c (slag ft.length b) .empt = pure o ∧ (o.isSome = true ↔ Ahead d c t) := by
  have ht : t <:+ d := (hbt ▸ List.suffix_append ft t : t <:+ b).trans hb
  rw [hbt, slag_front]
  obtain ⟨o, x, ho, hx, hr, -⟩ := ih hf ht
  refine ⟨o, ho, ?_⟩
  cases hx with
  | none =>
      refine ⟨nofun, fun ⟨w, hw⟩ => ?_⟩
      obtain ⟨_, ⟨⟩, -⟩ := hr.finds hw ⟨w, rfl⟩
  | some h => exact ⟨fun _ => ⟨_, hr.found rfl⟩, fun _ => rfl⟩

theorem capt_right {k : Nat} (hb : b <:+ d) (h : callsIn d fair (.capt p k) b c) :
    Ends d (deepIn d deep (.capt p k) b c) (.capt p k) b c := by
  obtain ⟨hp, hc⟩ := h
  obtain ⟨o, x, ho, hx, hr, hl⟩ := ih hp hb
  rw [deepIn, ho, pure_bind]
  cases hx with
  | none => exact ⟨none, none, rfl, .none, hr.congr fun u => Iff.rfl, .capt hl fun u => by simp⟩
  | @some ft t m hbt =>
      obtain ⟨o', ho', hlook⟩ := look_ahead ih hb hbt (hc t hl)
      simp only [ho', pure_bind]
      cases o' with
      | none =>
          have hno : ¬Ahead d c t := mt hlook.mpr (by simp)
          refine ⟨none, none, rfl, .none, ⟨by simp, fun hu hc => ?_⟩, .capt hl fun u => ⟨by simp, ?_⟩⟩
          · obtain ⟨_, ⟨⟩, h⟩ := hr.finds hu hc
            exact absurd h hno
          · rintro ⟨⟨⟩, h⟩
            exact absurd h hno
      | some f =>
          refine ⟨_, some t, rfl, .some hbt, hr.congr fun u => Iff.rfl, .capt hl fun u => ?_⟩
          exact ⟨fun hu => ⟨hu, Option.some.inj hu ▸ hlook.mp rfl⟩, And.left⟩

/-- `++chet` keeps what takes nothing, and else what has the rest after it. -/
theorem chet_keeps (hb : b <:+ d) (hx : Took b o x)
    (hc : ∀ u, u ≠ b → x = some u → fair c u .empt) :
    ∃ o' y, chet deep o c b = pure o' ∧ Took b o' y ∧ Keeps d c b x y := by
  cases hx with
  | none => exact ⟨none, none, rfl, .none, fun u => by simp⟩
  | @some ft t m hbt =>
      cases ft with
      | nil =>
          refine ⟨_, some t, rfl, .some hbt, fun u => ⟨fun h => ⟨h, .inl ?_⟩, And.left⟩⟩
          rw [hbt, ← Option.some.inj h, List.nil_append]
      | cons i ft =>
          have hne : t ≠ b := by
            rintro rfl
            exact absurd (List.self_eq_append_left.mp hbt) (List.cons_ne_nil i ft)
          obtain ⟨o', ho', hlook⟩ := look_ahead ih hb hbt (hc t hne rfl)
          rw [chet_cons, ho', pure_bind]
          cases o' with
          | none =>
              refine ⟨none, none, rfl, .none, fun u => ⟨nofun, ?_⟩⟩
              rintro ⟨⟨⟩, h⟩
              exact absurd (hlook.mpr (h.resolve_left hne)) nofun
          | some f =>
              exact ⟨_, some t, rfl, .some hbt, fun u =>
                ⟨fun h => ⟨h, .inr (Option.some.inj h ▸ hlook.mp rfl)⟩, And.left⟩⟩

theorem eith_right (hb : b <:+ d) (h : callsIn d fair (.eith p q) b c) :
    Ends d (deepIn d deep (.eith p q) b c) (.eith p q) b c := by
  obtain ⟨hp, hq, hc⟩ := h
  obtain ⟨op, xp, hop, htp, hrp, hlp⟩ := ih hp hb
  obtain ⟨oq, xq, hoq, htq, hrq, hlq⟩ := ih hq hb
  obtain ⟨foo, x, hfoo, htx, hkx⟩ := chet_keeps ih hb htp fun u hne hu => hc p u (.inl rfl) hne (hu ▸ hlp)
  obtain ⟨bar, y, hbar, hty, hky⟩ := chet_keeps ih hb htq fun u hne hu => hc q u (.inr rfl) hne (hu ▸ hlq)
  rw [deepIn, hop, pure_bind, hfoo, pure_bind, hoq, pure_bind, hbar, pure_bind]
  have hr := longer_right (hrp.keeps hkx) (hrq.keeps hky)
    (fun u hu => ⟨suffix_of_took htx hu, ((hkx u).mp hu).2⟩) fun u hu => ⟨suffix_of_took hty hu, ((hky u).mp hu).2⟩
  have hl := Leaves.eith hlp hlq hkx hky
  cases htx with
  | none => exact ⟨bar, y, rfl, hty, hr, hl⟩
  | @some ft t m hbt =>
      cases hty with
      | none => exact ⟨_, _, rfl, .some hbt, hr, hl⟩
      | @some bt t' m' hbt' =>
          have hlen : t.length ≤ t'.length ↔ bt.length ≤ ft.length := by
            have h := congrArg List.length hbt
            have h' := congrArg List.length hbt'
            rw [List.length_append] at h h'
            omega
          rw [longer] at hr hl
          by_cases hle : bt.length ≤ ft.length
          · rw [if_pos (hlen.mpr hle)] at hr hl
            simp only [hle, if_true]
            exact ⟨_, _, rfl, .some hbt, hr, hl⟩
          · rw [if_neg fun h => hle (hlen.mp h)] at hr hl
            simp only [hle, if_false]
            exact ⟨_, _, rfl, .some hbt', hr, hl⟩

theorem pair_right (hb : b <:+ d) (h : callsIn d fair (.pair p q) b c) :
    Ends d (deepIn d deep (.pair p q) b c) (.pair p q) b c := by
  obtain ⟨hp, hq⟩ := h
  obtain ⟨o, x, ho, hx, hr, hl⟩ := ih hp hb
  -- a match of both parts that `c` can come after is one of `p` that the rest can come after
  have hfinds {u : Tape} (hu : Matches d (.pair p q) b u) (hc : Ahead d c u) :
      ∃ v w, x = some v ∧ Matches d q v w ∧ Ahead d c w := by
    obtain ⟨v, hv, hu⟩ := hu
    obtain ⟨w, hw⟩ := hc
    obtain ⟨v', hx, z, z', hz, hw'⟩ := hr.finds hv ⟨w, u, hu, hw⟩
    exact ⟨v', z', hx, hz, z, hw'⟩
  rw [deepIn, ho, pure_bind]
  cases hx with
  | none =>
      refine ⟨none, none, rfl, .none, ⟨by simp, fun hu hc => ?_⟩, .fails hl⟩
      obtain ⟨_, _, ⟨⟩, -⟩ := hfinds hu hc
  | @some ft t m hbt =>
      have hslag : slag ft.length b = t := by rw [hbt, slag_front]
      have hsuf : t <:+ d := (hbt ▸ List.suffix_append ft t : t <:+ b).trans hb
      obtain ⟨o', y, ho', hy, hr', hl'⟩ := ih (hq t hl) hsuf
      have hright : Right d (.pair p q) b c y := by
        refine ⟨fun hy => ⟨t, hr.found rfl, hr'.found hy⟩, fun hu hc => ?_⟩
        obtain ⟨_, w, ⟨⟩, hw, hc⟩ := hfinds hu hc
        exact hr'.finds hw hc
      simp only [hslag, ho', pure_bind]
      cases hy with
      | none => exact ⟨none, none, rfl, .none, hright, .pair hl hl'⟩
      | some htv =>
          exact ⟨_, _, rfl, .some (by rw [hbt, htv, List.append_assoc]), hright, .pair hl hl'⟩

/-- A repetition without bound, which goes on as `e` after a trial that found something. -/
theorem star_right {e : Rege} (hb : b <:+ d) (hroll : rolls a = some (p, e))
    (hdeep : deepIn d deep a b c = (do
      match ← deep p b c with
      | none => return blak
      | some ([], _) => return blak
      | some _ => deep e b c))
    (ha : ∀ u, Matches d a b u ↔ ∃ n, Times (Matches d p) n b u)
    (he : ∀ u, Matches d a b u ↔ Matches d e b u) (hh : Honest d a b c)
    (hf : fair p b c ∧ ∀ u, u ≠ b → Leaves d p c b (some u) → fair e b c) :
    Ends d (deepIn d deep a b c) a b c := by
  obtain ⟨o, x, ho, hx, hr, hl⟩ := ih hf.1 hb
  have hstop (hno : ∀ u, x = some u → u = b) : Ends d (pure blak) a b c := by
    refine ⟨blak, some b, rfl, .some (f := []) rfl, ⟨?_, fun hu hc => ⟨b, rfl, ?_⟩⟩, .stop hroll hl hno⟩
    · rintro _ ⟨⟩
      exact (ha b).mpr ⟨0, rfl⟩
    · obtain ⟨n, hn⟩ := (ha _).mp hu
      obtain ⟨t, ht⟩ := hc
      rcases star_moves hn with rfl | ⟨v, m, hne, hv, hm⟩
      · exact ⟨t, ht⟩
      · by_contra hc
        obtain ⟨u, hu, hne⟩ := hh.trial p e hroll ⟨hc, v, _, t, m, hne, hv, hm, ht⟩ _ hl
        exact hne (hno u hu)
  rw [hdeep, ho, pure_bind]
  cases hx with
  | none => exact hstop nofun
  | @some ft t m hbt =>
      cases ft with
      | nil => exact hstop fun u hu => by rw [hbt, ← Option.some.inj hu, List.nil_append]
      | cons i ft =>
          have hne : t ≠ b := by
            rintro rfl
            exact absurd (List.self_eq_append_left.mp hbt) (List.cons_ne_nil i ft)
          obtain ⟨o', y, ho', hy, hr', hl'⟩ := ih (hf.2 t hne hl) hb
          exact ⟨o', y, ho', hy, hr'.congr he, .roll hroll hl hne hl'⟩

theorem goes_right {e : Rege} (hb : b <:+ d) (hg : goes a = some e) (hf : fair e b c) :
    Ends d (deepIn d deep a b c) a b c := by
  obtain ⟨o, x, ho, hx, hr, hl⟩ := ih hf hb
  exact ⟨o, x, (deepIn_goes hg).trans ho, hx, hr.congr fun u => matches_goes hg, .goes hg hl⟩

theorem step_right (hb : b <:+ d) (hh : Honest d a b c) (h : callsIn d fair a b c) :
    Ends d (deepIn d deep a b c) a b c := by
  have hnone (ha : Single a) (hm : ∀ u, Matches d a b u ↔ u = b) : Ends d (pure blak) a b c :=
    ends_single ha (.some (f := []) rfl) fun u => (hm u).trans (by simp [eq_comm])
  cases a with
  | dote => exact ends_take ⟨rfl, rfl⟩ fun u => by simp [Matches]
  | lite p => exact ends_take ⟨rfl, rfl⟩ fun u => by simp [Matches, and_comm]
  | brac p =>
      refine ends_take ⟨rfl, rfl⟩ fun u => ?_
      have hbit (i : Nat) : decide (dis (bex i) p ≠ 0) = true ↔ p.testBit i = true := by
        rw [decide_eq_true_eq, dis_eq, Nat.and_comm, ← dis_eq, ne_eq, dis_bex, Bool.not_eq_false]
      simp only [Matches, hbit]
  | ende => exact ends_at ⟨rfl, rfl⟩ fun u => Iff.rfl
  | sart => exact ends_at ⟨rfl, rfl⟩ fun u => Iff.rfl
  | empt => exact hnone ⟨rfl, rfl⟩ fun u => Iff.rfl
  | boun =>
      obtain ⟨x, hx, hluc⟩ := luc_eq hb
      rw [deepIn, hx, pure_bind]
      exact ends_at ⟨rfl, rfl⟩ fun u => and_congr_left fun _ => not_congr (boundary hluc).symm
  | bout =>
      obtain ⟨x, hx, hluc⟩ := luc_eq hb
      rw [deepIn, hx, pure_bind]
      exact ends_at ⟨rfl, rfl⟩ fun u => and_congr_left fun _ => (boundary hluc).symm
  | capt p k => exact capt_right ih hb h
  | eith p q => exact eith_right ih hb h
  | pair p q => exact pair_right ih hb h
  | mant p => exact star_right ih hb rfl rfl (fun u => Iff.rfl) (fun u => matches_mant) hh (h.2 p _ rfl)
  | manl p => exact star_right ih hb rfl rfl (fun u => Iff.rfl) (fun u => matches_manl) hh (h.2 p _ rfl)
  | plls p | plll p => exact goes_right ih hb rfl (h.1 _ rfl)
  | binl p q | bint p q => cases q <;> exact goes_right ih hb rfl (h.1 _ rfl)
  | bant p q =>
      cases q with
      | zero => exact hnone ⟨rfl, rfl⟩ fun u => eq_comm
      | succ q => exact goes_right ih hb rfl (h.1 _ rfl)
  | betw p q r =>
      cases r with
      | zero =>
          obtain rfl := hh.count p q (.inl rfl)
          exact hnone ⟨rfl, rfl⟩ fun u => most_zero
      | succ r => cases q <;> exact goes_right ih hb rfl (h.1 _ rfl)
  | betl p q r =>
      cases r with
      | zero =>
          obtain rfl := hh.count p q (.inr rfl)
          exact hnone ⟨rfl, rfl⟩ fun u => most_zero
      | succ r => cases q <;> exact goes_right ih hb rfl (h.1 _ rfl)

end step

theorem deep_right {d : Tape} {n : Nat} {a : Rege} {b : Tape} {c : Rege} (h : Fair d n a b c)
    (hb : b <:+ d) : Ends d (deep d n a b c) a b c := by
  induction n generalizing a b c with
  | zero => exact h.elim
  | succ n ih => exact step_right ih hb h.1 h.2

theorem meets_of_fair {a : Rege} {b d : Tape} {n : Nat} (hb : b <:+ d) (h : Fair d n a b .empt) :
    Meets d a b := by
  obtain ⟨o, x, ho, hx, hr, -⟩ := deep_right h hb
  constructor
  · intro m u hu
    obtain ⟨o', ho', hu⟩ := Virt.bind_eq_pure.mp hu
    have heq := deep_mono (Nat.le_max_left n m) ho
    rw [deep_mono (Nat.le_max_right n m) ho', Virt.pure_inj] at heq
    subst heq
    cases hx with
    | none => cases hu
    | @some ft t m hbt =>
        cases hu
        exact ⟨ft, t, if_pos rfl, hbt, hr.found rfl⟩
  · rintro ⟨t, ht⟩
    obtain ⟨v, rfl, -⟩ := hr.finds ht ⟨t, rfl⟩
    cases hx with
    | @some ft _ m _ => exact ⟨n, m.put 0 ft, Virt.bind_eq_pure.mpr ⟨_, ho, rfl⟩⟩

/-! ### Without repetitions that have no bound -/

/-- No repetition without bound, and no count upside down. -/
def Bounded : Rege → Prop
  | .dote | .ende | .sart | .empt | .boun | .bout | .lite _ | .brac _ => True
  | .capt p _ => Bounded p
  | .pair p q | .eith p q => Bounded p ∧ Bounded q
  | .bant p _ => Bounded p
  | .betw p q r | .betl p q r => Bounded p ∧ q ≤ r
  | .mant _ | .plls _ | .bint .. | .manl _ | .plll _ | .binl .. => False

/-- How large an expression is when its counts are written out. -/
def weight : Rege → Nat
  | .capt p _ => weight p + 1
  | .pair p q | .eith p q => weight p + weight q + 1
  | .bant p n => n * (weight p + 2) + 1
  | .betw p _ r | .betl p _ r => r * (weight p + 4) + 1
  | _ => 1

theorem weight_pos (a : Rege) : 1 ≤ weight a := by
  cases a <;> simp only [weight] <;> omega

/-- How deep the calls go: what comes after counts too, and a part less than the whole. -/
def depth (a c : Rege) : Nat :=
  (weight a + weight c) * (weight a + weight c + 1) + weight a

theorem depth_lt {a c a' c' : Rege}
    (h : weight a' + weight c' < weight a + weight c ∨
      weight a' + weight c' = weight a + weight c ∧ weight a' < weight a) :
    depth a' c' < depth a c := by
  unfold depth
  rcases h with h | ⟨h, h'⟩
  · have hle : weight a' ≤ weight a' + weight c' := Nat.le_add_right _ _
    generalize weight a' + weight c' = t at *
    generalize weight a + weight c = s at *
    calc t * (t + 1) + weight a' ≤ t * (t + 1) + t := Nat.add_le_add_left hle _
      _ < (t + 1) * (t + 1 + 1) := by ring_nf; omega
      _ ≤ s * (s + 1) := Nat.mul_le_mul h (Nat.succ_le_succ h)
      _ ≤ s * (s + 1) + weight a := Nat.le_add_right _ _
  · rw [h]
    exact Nat.add_lt_add_left h' _

theorem bounded_goes {a e : Rege} (ha : Bounded a) (h : goes a = some e) :
    Bounded e ∧ weight e < weight a := by
  unfold goes at h
  split at h <;> cases h
  case h_1 | h_2 | h_3 | h_4 | h_5 | h_6 => exact ha.elim
  case h_7 => exact ⟨⟨ha, ha⟩, by simp only [weight, Nat.succ_mul]; omega⟩
  case h_8 =>
    exact ⟨⟨⟨ha.1, ha.1, Nat.zero_le _⟩, trivial⟩, by simp only [weight, Nat.succ_mul]; omega⟩
  case h_9 =>
    exact ⟨⟨trivial, ha.1, ha.1, Nat.zero_le _⟩, by simp only [weight, Nat.succ_mul]; omega⟩
  all_goals
    have hle := Nat.le_of_succ_le_succ ha.2
    exact ⟨⟨ha.1, ha.1, hle⟩, by simp only [weight, Nat.succ_mul]; omega⟩

theorem bounded_rolls {a p e : Rege} (ha : Bounded a) : rolls a ≠ some (p, e) := by
  cases a with
  | mant | manl => exact ha.elim
  | _ => exact nofun

theorem bounded_honest {d : Tape} {a : Rege} {b : Tape} {c : Rege} (ha : Bounded a) :
    Honest d a b c where
  trial _ _ h := absurd h (bounded_rolls ha)
  count p q h := by
    rcases h with rfl | rfl
    · exact Nat.le_zero.mp ha.2
    · exact Nat.le_zero.mp ha.2

theorem fair_bounded {d : Tape} {n : Nat} {a c : Rege} (ha : Bounded a) (hc : Bounded c)
    (hn : depth a c < n) (b : Tape) : Fair d n a b c := by
  induction n generalizing a b c with
  | zero => exact absurd hn (Nat.not_lt_zero _)
  | succ n ih =>
      -- a call that is smaller by one of the two measures
      have call {e f : Rege} (he : Bounded e) (hf : Bounded f)
          (h : weight e + weight f < weight a + weight c ∨
            weight e + weight f = weight a + weight c ∧ weight e < weight a) (b : Tape) :
          Fair d n e b f := ih he hf (by have := depth_lt h; omega) b
      have hpos := weight_pos
      refine ⟨bounded_honest ha, ?_⟩
      have hgoes : (∀ e, goes a = some e → Fair d n e b c) ∧ ∀ p e, rolls a = some (p, e) →
          Fair d n p b c ∧ ∀ u, u ≠ b → Leaves d p c b (some u) → Fair d n e b c := by
        refine ⟨fun e he => ?_, fun p e he => absurd he (bounded_rolls ha)⟩
        obtain ⟨hbounded, hlt⟩ := bounded_goes ha he
        exact call hbounded hc (.inl (Nat.add_lt_add_right hlt _)) b
      cases a with
      | capt p k =>
          have hp := hpos p
          refine ⟨call (e := p) ha hc (.inl ?_) b, fun u _ => call (f := .empt) hc trivial (.inl ?_) _⟩
          all_goals simp only [weight]; omega
      | eith p q =>
          have hp := hpos p
          have hq := hpos q
          refine ⟨call ha.1 hc (.inl ?_) b, call ha.2 hc (.inl ?_) b,
            fun _ _ _ _ _ => call (f := .empt) hc trivial (.inl ?_) _⟩
          all_goals simp only [weight]; omega
      | pair p q =>
          have hp := hpos p
          refine ⟨call (f := .pair q c) ha.1 ⟨ha.2, hc⟩ (.inr ?_) b,
            fun u _ => call ha.2 hc (.inl ?_) _⟩
          all_goals simp only [weight]; omega
      | _ => exact hgoes

/-- An expression without repetitions that have no bound, and with its counts in order, is
matched right everywhere. -/
theorem matc_bounded {a : Rege} {b d : Tape} (ha : Bounded a) (hb : b <:+ d) : Meets d a b :=
  meets_of_fair hb (fair_bounded (n := depth a .empt + 1) (c := .empt) ha trivial (Nat.lt_succ_self _) b)

/-- A letter or nothing, and a letter, at a text of one letter. -/
theorem matc_bounded_a :
    Meets ['a'.toNat] (.pair (.betw (.lite 'a'.toNat) 0 1) (.lite 'a'.toNat)) ['a'.toNat] :=
  matc_bounded ⟨⟨trivial, Nat.zero_le 1⟩, trivial⟩ (List.suffix_refl _)

/-! ### With them -/

/-- On a suffix of the text, if the reading ends and no trial misleads, `++matc` finds a match if
there is one, and nothing else. -/
theorem matc_right {a : Rege} {b d : Tape} (hb : b <:+ d) (h : ∃ n, Fair d n a b .empt) :
    Meets d a b := by
  obtain ⟨n, hn⟩ := h
  exact meets_of_fair hb hn

section witness

variable {d : Tape} {n p : Nat} {b : Tape} {c : Rege}

theorem fair_lite : Fair d (n + 1) (.lite p) b c := ⟨bounded_honest trivial, nofun, nofun⟩

theorem leaves_lite {x : Option Tape} (h : Leaves d (.lite p) c b x) (u : Tape) :
    x = some u ↔ b = p :: u := by
  cases h with
  | one _ hu =>
      cases hu
      simp
  | not _ hno => exact ⟨nofun, fun hu => absurd ⟨u, hu⟩ hno⟩
  | stop h | roll h | goes h => cases h

end witness

/-- `a*b` on `ab`: the repetition has to go on, and the trial of `a` takes the `a`. -/
theorem matc_right_ab : Meets [97, 98] (.pair (.mant (.lite 97)) (.lite 98)) [97, 98] := by
  refine matc_right (List.suffix_refl _) ⟨35, ⟨nofun, nofun⟩, ?_, fun u _ => fair_lite⟩
  have hc (n : Nat) (u : Tape) : Fair [97, 98] (n + 24) (.pair (.lite 98) .empt) u .empt :=
    fair_bounded (a := .pair (.lite 98) .empt) (c := .empt) ⟨trivial, trivial⟩ trivial
      (Nat.lt_of_lt_of_le (by decide) (Nat.le_add_left 24 n)) u
  have hempt (n : Nat) (u : Tape) (c : Rege) : Fair [97, 98] (n + 1) .empt u c :=
    ⟨bounded_honest trivial, nofun, nofun⟩
  have hstar : Fair [97, 98] 30 (.mant (.lite 97)) [98] (.pair (.lite 98) .empt) := by
    refine ⟨⟨fun p e h hgo => absurd ⟨[], [], rfl, rfl⟩ hgo.1, nofun⟩, nofun, ?_⟩
    rintro p e ⟨⟩
    refine ⟨fair_lite, fun u _ hl => ?_⟩
    cases (leaves_lite hl u).mp rfl
  refine ⟨⟨?_, nofun⟩, nofun, ?_⟩
  · rintro p e ⟨⟩ - x hx
    exact ⟨[98], (leaves_lite hx _).mpr rfl, by decide⟩
  · rintro p e ⟨⟩
    refine ⟨fair_lite, fun u _ _ => ⟨⟨nofun, nofun⟩, ⟨⟨nofun, nofun⟩, fair_lite, fun u hl => ?_⟩,
      hempt _ _ _, fun _ u _ _ _ => hc _ u⟩⟩
    cases (leaves_lite hl u).mp rfl
    exact ⟨⟨nofun, nofun⟩, hstar, hempt _ _ _, fun _ u _ _ _ => hc _ u⟩

/-- `(a|b)*c` on `aac`: tried before the second `a`, `a|b` finds nothing that `c` comes after. -/
theorem star_misses : ¬∀ a b d, b <:+ d → Meets d a b := by
  intro h
  have hright := h (.pair (.mant (.eith (.lite 97) (.lite 98))) (.lite 99)) [97, 97, 99] [97, 97, 99]
    (List.suffix_refl _)
  have hmatch : Matches [97, 97, 99] (.pair (.mant (.eith (.lite 97) (.lite 98))) (.lite 99))
      [97, 97, 99] [] :=
    ⟨[99], ⟨2, [97, 99], .inl rfl, [99], .inl rfl, rfl⟩, rfl⟩
  obtain ⟨n, u, hu⟩ := hright.2 ⟨[], hmatch⟩
  have hnone : matc [97, 97, 99] 20 (.pair (.mant (.eith (.lite 97) (.lite 98))) (.lite 99))
      [97, 97, 99] = pure none := rfl
  have heq := matc_mono (Nat.le_max_left n 20) hu
  rw [matc_mono (Nat.le_max_right n 20) hnone, Virt.pure_inj] at heq
  cases heq

end Vere.Hoon.Rexp
