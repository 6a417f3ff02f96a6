import Vere.Ames.Bond
import Vere.Lib.Reach

/-!
# Vere.Ames.Bund

Order of `%bund` messages, which the application acknowledges.

A channel is idle or has one message out. The observer `watch` counts the messages that were
passed on and those that were acknowledged, and allows a message only when it is the next one
and all before it are acknowledged.

`rack` calls `cook` and then `cans`. If no message is out `cook` does nothing, but `cans` goes
on to the next number all the same; and if that number is parked as `%dead`, `coat` drops the
update. So the order is kept in a run in which every acknowledgment is `Prompt`.
-/

namespace Vere.Ames

open Vere.Lib

variable {δ ρ : Type}

/-- What happens at the receiver: a `%bund` packet, an acknowledgment of the application, or a
change in what is known of the friend. -/
inductive Act (δ : Type)
  | hear (la : La) (life : Nat) (cha : Path) (num : Nat) (val : Noun)
  | rack (cha : Path) (cop : Coop)
  | drift (diz : δ)

/-- One event. -/
def act (w : Wire δ ρ) (a : Act δ) (ho : Ho δ ρ) : Option (Ho δ ρ) :=
  match a with
  | .hear la life cha num val => dineBund w la life cha num val { ho with bin := [] }
  | .rack cha cop => rack w cha cop { ho with bin := [] }
  | .drift diz => some { ho with diz := diz, bin := [] }

/-- What happened, and what came of it. -/
abbrev Log (δ ρ : Type) := List (Act δ × List (Boon ρ))

/-- One event, noted down. -/
def actLog (w : Wire δ ρ) (a : Act δ) (s : Ho δ ρ × Log δ ρ) : Option (Ho δ ρ × Log δ ρ) := do
  let ho ← act w a s.1
  return (ho, s.2 ++ [(a, ho.bin.reverse)])

/-- The number after this one is parked as `%dead`. -/
def DeadNext (rum : Race) : Prop := ∃ m, rum.mis.lookup (rum.did + 1) = some m ∧ m.p = .dead

/-- An acknowledgment comes when a message is out and the next number is not parked as `%dead`,
or when no message is out and it is. -/
def Prompt (s : Ho δ ρ × Log δ ρ) (a : Act δ) : Prop :=
  match a with
  | .rack cha _ => ∀ rum, s.1.raz.lookup cha = some rum → (rum.dod = true ↔ DeadNext rum)
  | _ => True

/-! ### The observer -/

/-- What is seen of a channel. -/
inductive Obs
  | pass (num : Nat)
  | ack

/-- The numbers of the messages that were passed on. -/
def mulks (cha : Path) (out : List (Boon ρ)) : List Nat :=
  out.filterMap fun
    | .mulk _ _ c num _ => if c = cha then some num else none
    | _ => none

/-- What is seen of a channel in an event. -/
def obsOf (cha : Path) (e : Act δ × List (Boon ρ)) : List Obs :=
  match e.1 with
  | .rack c _ => if c = cha then .ack :: (mulks cha e.2).map .pass else (mulks cha e.2).map .pass
  | _ => (mulks cha e.2).map .pass

/-- The numbers that were passed on and that were acknowledged, one after the other. The next
message is allowed when all before it are acknowledged. -/
def watch (s : Nat × Nat) : Obs → Option (Nat × Nat)
  | .pass num => if num = s.1 ∧ s.2 = s.1 then some (s.1 + 1, s.2) else none
  | .ack => some (s.1, if s.2 < s.1 then s.2 + 1 else s.2)

/-- What the observer makes of a log. -/
def watched (cha : Path) (log : Log δ ρ) : Option (Nat × Nat) :=
  (log.flatMap (obsOf cha)).foldlM watch (0, 0)

section watching

variable {cha : Path} {log : Log δ ρ} {s t : Nat × Nat}

theorem watched_snoc (e : Act δ × List (Boon ρ)) :
    watched cha (log ++ [e]) = (watched cha log).bind fun s => (obsOf cha e).foldlM watch s := by
  simp [watched, List.foldlM_append]

/-- The messages that an accepted log passes on are the numbers from zero on. -/
theorem passes_of_watch (l : List Obs) (h : l.foldlM watch s = some t) :
    s.1 ≤ t.1 ∧ (l.filterMap fun | .pass n => some n | .ack => none) =
      List.range' s.1 (t.1 - s.1) := by
  induction l generalizing s with
  | nil =>
      cases h
      simp
  | cons o l ih =>
      rw [List.foldlM_cons] at h
      obtain ⟨s', hs', h⟩ := Option.bind_eq_some_iff.mp h
      obtain ⟨hle, ih⟩ := ih h
      cases o with
      | pass num =>
          rw [watch] at hs'
          split at hs'
          · next hn =>
            cases hs'
            dsimp only at hle ih
            refine ⟨by omega, ?_⟩
            rw [List.filterMap_cons, ih, hn.1, show t.1 - s.1 = t.1 - (s.1 + 1) + 1 by omega,
              List.range'_succ]
          · cases hs'
      | ack =>
          cases hs'
          exact ⟨hle, ih⟩

theorem mulks_eq_passes (cha : Path) (e : Act δ × List (Boon ρ)) :
    ((obsOf cha e).filterMap fun | .pass n => some n | .ack => none) = mulks cha e.2 := by
  have hmap : ∀ l : List Nat,
      ((l.map Obs.pass).filterMap fun | .pass n => some n | .ack => none) = l := by
    intro l
    induction l with
    | nil => rfl
    | cons n l ih => simp [ih]
  rw [obsOf]
  split
  · split
    · rw [List.filterMap_cons, hmap]
    · exact hmap _
  · exact hmap _

end watching

/-! ### What one event does to a channel -/

/-- What is parked as good has its payload. -/
def Whole (mis : Dict Nat Miss) : Prop :=
  ∀ n m, mis.lookup n = some m → m.p = .good → ∃ val, m.s = some val

/-- The record of a channel, idle or with a message out. -/
structure Fair (rum : Race) : Prop where
  idle : rum.dod = true ↔ rum.mis.lookup rum.did = none
  whole : Whole rum.mis

/-- The counts that belong to the record of a channel. -/
def counts (rum : Race) : Nat × Nat := (rum.did + if rum.dod then 0 else 1, rum.did)

/-- An event of one channel: its record is in order again, the observer allows what was seen,
and nothing is seen of the others. -/
def Moves (cha : Path) (pre : List Obs) (ho ho' : Ho δ ρ) : Prop :=
  ∃ rum, (∀ c, raceOf ho'.raz c = if c = cha then rum else raceOf ho.raz c) ∧ Fair rum ∧
    (pre ++ (mulks cha ho'.bin.reverse).map Obs.pass).foldlM watch (counts (raceOf ho.raz cha)) =
      some (counts rum) ∧
    ∀ c, c ≠ cha → mulks c ho'.bin.reverse = []

section moves

variable {w : Wire δ ρ} {la : La} {ho ho' : Ho δ ρ} {cha : Path} {rum : Race} {pre : List Obs}

theorem coat_inv (h : coat w cha rum ho = some ho') :
    (rum.mis.lookup rum.did = none ∧ ho' = { ho with raz := ho.raz.insert cha rum }) ∨
    (∃ cun, rum.mis.lookup rum.did = some cun ∧ cun.p = .dead ∧ ho' = ho) ∨
    ∃ cun p q val, rum.mis.lookup rum.did = some cun ∧ cun.p = .good ∧
      ho' = { ho with
        raz := ho.raz.insert cha { rum with dod := false }
        bin := .mulk p q cha rum.did val :: ho.bin } := by
  rw [coat] at h
  split at h
  · next hnone =>
    cases h
    exact .inl ⟨hnone, rfl⟩
  · next cun hcun =>
    split at h
    · next hgood =>
      split at h
      · cases h
      · next val hval =>
        cases h
        exact .inr (.inr ⟨cun, _, _, val, hcun, hgood, rfl⟩)
    · next hbad =>
      cases h
      refine .inr (.inl ⟨cun, hcun, ?_, rfl⟩)
      cases hp : cun.p with
      | good => exact absurd hp hbad
      | dead => rfl

theorem cook_dup {cop : Coop} {ryn : Lane} {dam : Nat} (h : cook w cop cha (some (ryn, dam)) ho = some ho') :
    ∃ pax, ho'.raz = ho.raz ∧ ho'.bin = .tell (.buck cop dam 0) pax :: ho.bin ∧
      ∃ diz, w.zuul (.buck cop dam 0) ho.diz = some (pax, diz) := by
  rw [cook] at h
  obtain ⟨rum, -, h⟩ := Option.bind_eq_some_iff.mp h
  split at h
  · next heq => cases heq
  · next heq =>
    cases heq
    obtain ⟨⟨pax, diz⟩, hz, h⟩ := Option.bind_eq_some_iff.mp h
    cases h
    exact ⟨pax, rfl, rfl, diz, hz⟩
  · next heq => cases heq

theorem cook_own {cop : Coop} (hrum : ho.raz.lookup cha = some rum) (h : cook w cop cha none ho = some ho') :
    (rum.mis.lookup rum.did = none ∧ ho' = ho) ∨
    ∃ lat pax, rum.mis.lookup rum.did = some lat ∧
      ho'.raz = ho.raz.insert cha { rum with dod := true, bum := rum.note cop } ∧
      ho'.bin = .tell (.buck cop lat.r 0) pax :: ho.bin ∧
      ∃ diz, w.zuul (.buck cop lat.r 0) ho.diz = some (pax, diz) := by
  rw [cook, hrum, Option.bind_eq_bind, Option.bind_some] at h
  split at h
  · next hnone _ =>
    cases h
    exact .inl ⟨hnone, rfl⟩
  · next heq => cases heq
  · next lat hlat _ =>
    obtain ⟨⟨pax, diz⟩, hz, h⟩ := Option.bind_eq_some_iff.mp h
    cases h
    exact .inr ⟨lat, pax, hlat, rfl, rfl, diz, hz⟩

theorem Whole.insert {mis : Dict Nat Miss} (h : Whole mis) (num : Nat) {m : Miss}
    (hm : m.p = .good → ∃ val, m.s = some val) : Whole (mis.insert num m) := by
  intro n x hx
  rw [lookup_insert_eq] at hx
  split at hx
  · cases hx
    exact hm
  · exact h n x hx

theorem Whole.erase {mis : Dict Nat Miss} (h : Whole mis) (num : Nat) : Whole (mis.erase num) := by
  intro n x hx
  rw [lookup_erase_eq] at hx
  split at hx
  · cases hx
  · exact h n x hx

theorem Fair.park (h : Fair rum) {num : Nat} (hne : num ≠ rum.did ∨ rum.dod = false) {m : Miss}
    (hm : m.p = .good → ∃ val, m.s = some val) : Fair { rum with mis := rum.mis.insert num m } := by
  refine ⟨?_, h.whole.insert num hm⟩
  dsimp only
  rw [h.idle, lookup_insert_eq]
  split
  · next heq =>
    have hbusy := hne.resolve_left (not_not_intro heq.symm)
    rw [← h.idle, hbusy]
    simp
  · rfl

/-- A record that is stored, with nothing passed on. -/
theorem moves_store (hr : Fair rum) (hraz : ho'.raz = ho.raz.insert cha rum) (hbin : ∀ c, mulks c ho'.bin = [])
    (hw : pre.foldlM watch (counts (raceOf ho.raz cha)) = some (counts rum)) : Moves cha pre ho ho' := by
  have hrev : ∀ c, mulks c ho'.bin.reverse = [] := by
    intro c
    rw [mulks, List.filterMap_reverse, ← mulks, hbin, List.reverse_nil]
  refine ⟨rum, fun c => ?_, hr, ?_, fun c _ => hrev c⟩
  · rw [hraz, raceOf_insert]
  · rw [hrev, List.map_nil, List.append_nil, hw]

/-- A record that is left as it was. -/
theorem moves_same (hr : Fair (raceOf ho.raz cha)) (hraz : ho'.raz = ho.raz) (hbin : ∀ c, mulks c ho'.bin = [])
    (hw : pre.foldlM watch (counts (raceOf ho.raz cha)) = some (counts (raceOf ho.raz cha))) :
    Moves cha pre ho ho' := by
  have hrev : ∀ c, mulks c ho'.bin.reverse = [] := by
    intro c
    rw [mulks, List.filterMap_reverse, ← mulks, hbin, List.reverse_nil]
  refine ⟨raceOf ho.raz cha, fun c => ?_, hr, ?_, fun c _ => hrev c⟩
  · rw [hraz]
    split
    · next hc => rw [hc]
    · rfl
  · rw [hrev, List.map_nil, List.append_nil, hw]

/-- A record that is stored, with the number `did` passed on. -/
theorem moves_pass {bin : List (Boon ρ)} {p q : Nat} {val : Noun} {cun : Miss}
    (hcun : rum.mis.lookup rum.did = some cun)
    (hwhole : Whole rum.mis)
    (hraz : ho'.raz = ho.raz.insert cha { rum with dod := false })
    (hout : ho'.bin = .mulk p q cha rum.did val :: bin) (hbin : ∀ c, mulks c bin = [])
    (hw : pre.foldlM watch (counts (raceOf ho.raz cha)) = some (rum.did, rum.did)) :
    Moves cha pre ho ho' := by
  have hrev : ∀ c, mulks c ho'.bin.reverse = if c = cha then [rum.did] else [] := by
    intro c
    rw [mulks, List.filterMap_reverse, hout, List.filterMap_cons]
    have := hbin c
    rw [mulks] at this
    by_cases hc : c = cha
    · subst hc
      simp [this]
    · simp [this, hc, Ne.symm hc]
  refine ⟨{ rum with dod := false }, fun c => ?_, ⟨?_, hwhole⟩, ?_, fun c hc => ?_⟩
  · rw [hraz, raceOf_insert]
  · simp [hcun]
  · rw [hrev, if_pos rfl, List.foldlM_append, hw]
    simp [watch, counts]
  · rw [hrev, if_neg hc]

theorem heard_good {kay : Cape} {val : Noun} (h : kay = .good) : ∃ v, heard kay val = some v := by
  subst h
  exact ⟨val, rfl⟩

/-- A packet. -/
theorem deer_moves {num : Nat} {val : Noun} (hr : Fair (raceOf ho.raz cha)) (hbin : ho.bin = [])
    (h : deer w la cha num (heard la.kay val) ho = some ho') : Moves cha [] ho ho' := by
  have hnone : ∀ c, mulks c ho.bin = [] := fun c => by rw [hbin]; rfl
  rw [deer] at h
  dsimp only at h
  split at h
  · -- passed on before
    obtain ⟨pax, hraz, hout, -⟩ := cook_dup h
    refine moves_same hr hraz (fun c => ?_) rfl
    rw [hout, hbin]
    rfl
  · split at h
    · next hidle =>
      rcases coat_inv h with ⟨hgap, rfl⟩ | ⟨cun, -, -, rfl⟩ | ⟨cun, p, q, v, hcun, -, rfl⟩
      · -- parked, as it is not the number that is waited for
        have hne : num ≠ (raceOf ho.raz cha).did := by
          rintro rfl
          dsimp only at hgap
          rw [Finmap.lookup_insert] at hgap
          cases hgap
        exact moves_store (hr.park (.inl hne) heard_good) rfl hnone rfl
      · exact moves_same hr rfl hnone rfl
      · refine moves_pass hcun (hr.whole.insert num heard_good) rfl rfl hnone ?_
        simp [counts, hidle]
    · next hbusy =>
      cases h
      have hbusy' : (raceOf ho.raz cha).dod = false := by simpa using hbusy
      exact moves_store (hr.park (.inr hbusy') heard_good) rfl hnone rfl

theorem raceOf_some (h : ho.raz.lookup cha = some rum) : raceOf ho.raz cha = rum := by
  rw [raceOf, h]
  rfl

/-- An acknowledgment when a message is out. -/
theorem rack_busy {cop : Coop} (hrum : ho.raz.lookup cha = some rum) (hr : Fair rum)
    (hbusy : rum.dod = false) (hnext : ¬DeadNext rum) (hbin : ho.bin = [])
    (h : rack w cha cop ho = some ho') : Moves cha [.ack] ho ho' := by
  obtain ⟨ho₁, hcook, h⟩ := Option.bind_eq_some_iff.mp h
  rcases cook_own hrum hcook with ⟨hnone, -⟩ | ⟨lat, pax, -, hraz, hout, -⟩
  · rw [← hr.idle, hbusy] at hnone
    cases hnone
  · have hne : rum.did + 1 ≠ rum.did := Nat.succ_ne_self _
    have hnone : ∀ c, mulks c ho₁.bin = [] := fun c => by rw [hout, hbin]; rfl
    have hwatch : List.foldlM watch (counts (raceOf ho.raz cha)) [Obs.ack] =
        some (rum.did + 1, rum.did + 1) := by
      rw [raceOf_some hrum]
      simp [watch, counts, hbusy]
    have hins : ∀ r r' : Race, (ho.raz.insert cha r).insert cha r' = ho.raz.insert cha r' :=
      fun _ _ => Finmap.insert_insert _
    rw [cans, hraz, Finmap.lookup_insert, Option.bind_eq_bind, Option.bind_some] at h
    rcases coat_inv h with ⟨hgap, rfl⟩ | ⟨cun, hcun, hdead, -⟩ | ⟨cun, p, q, v, hcun, -, rfl⟩
    · refine moves_store ⟨?_, hr.whole.erase _⟩ (by dsimp only; rw [hraz, hins]) hnone ?_
      · simpa using hgap
      · rw [hwatch]
        rfl
    · dsimp only at hcun
      rw [Finmap.lookup_erase_ne hne] at hcun
      exact absurd ⟨cun, hcun, hdead⟩ hnext
    · exact moves_pass hcun (hr.whole.erase _) (by dsimp only; rw [hraz, hins]) rfl hnone hwatch

/-- An acknowledgment when no message is out, and the next number is parked as `%dead`. -/
theorem rack_idle {cop : Coop} (hrum : ho.raz.lookup cha = some rum) (hr : Fair rum)
    (hidle : rum.dod = true) (hnext : DeadNext rum) (h : rack w cha cop ho = some ho') : ho' = ho := by
  obtain ⟨ho₁, hcook, hcans⟩ := Option.bind_eq_some_iff.mp h
  have hgap := hr.idle.mp hidle
  obtain ⟨m, hm, hdead⟩ := hnext
  rcases cook_own hrum hcook with ⟨-, rfl⟩ | ⟨lat, pax, hlat, -⟩
  · simp only [cans, hrum, Option.bind_eq_bind, Option.bind_some, coat] at hcans
    rw [Finmap.lookup_erase_ne (Nat.succ_ne_self _), hm] at hcans
    dsimp only at hcans
    rw [if_neg (by rw [hdead]; decide)] at hcans
    exact (Option.some.inj hcans).symm
  · rw [hgap] at hlat
    cases hlat

end moves

/-! ### Runs -/

section runs

variable {w : Wire δ ρ} {s s' : Ho δ ρ × Log δ ρ} {a : Act δ}

/-- Every channel is in order, and the observer allowed what was seen of it. -/
def Kept (s : Ho δ ρ × Log δ ρ) : Prop :=
  ∀ c, Fair (raceOf s.1.raz c) ∧ watched c s.2 = some (counts (raceOf s.1.raz c))

theorem Kept.moves {ho : Ho δ ρ} {log : Log δ ρ} {cha : Path} {pre : List Obs} (h : Kept s)
    (hm : Moves cha pre { s.1 with bin := [] } ho) (hlog : log = s.2 ++ [(a, ho.bin.reverse)])
    (hpre : ∀ c, obsOf c (a, ho.bin.reverse) =
      (if c = cha then pre else []) ++ (mulks c ho.bin.reverse).map .pass) : Kept (ho, log) := by
  obtain ⟨rum, hraz, hr, hwatch, hothers⟩ := hm
  intro c
  dsimp only
  rw [hraz, hlog, watched_snoc, (h c).2, Option.bind_some, hpre]
  by_cases hc : c = cha
  · subst hc
    rw [if_pos rfl, if_pos rfl]
    exact ⟨hr, hwatch⟩
  · rw [if_neg hc, if_neg hc, hothers c hc]
    exact ⟨(h c).1, rfl⟩

theorem Kept.step (h : Kept s) (hp : Prompt s a) (hs : actLog w a s = some s') : Kept s' := by
  obtain ⟨ho, hact, hs⟩ := Option.bind_eq_some_iff.mp hs
  cases hs
  cases a with
  | hear la life cha num val =>
      rw [act, dineBund] at hact
      split at hact
      · refine h.moves (deer_moves (h cha).1 rfl hact) rfl fun c => ?_
        rw [ite_self, List.nil_append]
        rfl
      · cases hact
  | rack cha cop =>
      have hobs : ∀ c, obsOf c (Act.rack (δ := δ) cha cop, ho.bin.reverse) =
          (if c = cha then [.ack] else []) ++ (mulks c ho.bin.reverse).map .pass := by
        intro c
        rw [obsOf]
        dsimp only
        by_cases hc : c = cha
        · rw [if_pos hc, if_pos hc.symm]
          rfl
        · rw [if_neg hc, if_neg (Ne.symm hc)]
          rfl
      cases hrum : s.1.raz.lookup cha with
      | none =>
          rw [act, rack, cook] at hact
          simp only [hrum, Option.bind_eq_bind, Option.bind_none] at hact
          cases hact
      | some rum =>
          have hr := (h cha).1
          rw [raceOf_some hrum] at hr
          cases hdod : rum.dod with
          | false =>
              have hnext : ¬DeadNext rum := by
                rw [← hp rum hrum, hdod]
                decide
              exact h.moves (rack_busy hrum hr hdod hnext rfl hact) rfl hobs
          | true =>
              obtain rfl : ho = { s.1 with bin := [] } :=
                rack_idle hrum hr hdod ((hp rum hrum).mp hdod) hact
              refine h.moves (moves_same (h cha).1 rfl (fun c => rfl) ?_) rfl hobs
              dsimp only
              rw [raceOf_some hrum]
              simp [watch, counts, hdod]
  | drift diz =>
      cases hact
      intro c
      rw [watched_snoc, (h c).2]
      exact ⟨(h c).1, rfl⟩

theorem kept_start (diz : δ) : Kept ((⟨diz, ∅, []⟩, []) : Ho δ ρ × Log δ ρ) := by
  intro c
  refine ⟨⟨?_, ?_⟩, rfl⟩
  · exact iff_of_true rfl rfl
  · intro n m hm
    cases hm

/-- The messages of a channel that were passed on, by their numbers. -/
def mulked (cha : Path) (log : Log δ ρ) : List Nat := log.flatMap fun e => mulks cha e.2

theorem mulked_of_watched {cha : Path} {log : Log δ ρ} {m a : Nat} (h : watched cha log = some (m, a)) :
    mulked cha log = List.range m := by
  have hp := (passes_of_watch _ h).2
  rw [List.filterMap_flatMap] at hp
  simp only [mulks_eq_passes] at hp
  rw [mulked, hp, List.range_eq_range']
  rfl

end runs

/-- In every run whose acknowledgments are prompt, the messages of each channel are the numbers
from zero on, in order and each once; the observer saw each of them when all before it were
acknowledged; and an acknowledgment when none is due leaves the channels as they are. -/
theorem bund_order (w : Wire δ ρ) (diz : δ) (s : Ho δ ρ × Log δ ρ)
    (h : Reachable (⟨diz, ∅, []⟩, []) (actLog w) Prompt s) :
    ∀ cha, ∃ m a, watched cha s.2 = some (m, a) ∧ mulked cha s.2 = List.range m ∧
      ∀ cop s', m = a → Prompt s (.rack cha cop) → actLog w (.rack cha cop) s = some s' →
        s'.1.raz = s.1.raz := by
  have hk : Kept s := Reachable.invariant (kept_start diz) (fun _ _ _ hs hp hst => hs.step hp hst) h
  intro cha
  refine ⟨_, _, (hk cha).2, mulked_of_watched (hk cha).2, ?_⟩
  intro cop s' hma hp hs
  obtain ⟨ho, hact, hs⟩ := Option.bind_eq_some_iff.mp hs
  cases hs
  cases hrum : s.1.raz.lookup cha with
  | none =>
      simp only [act, rack, cook, hrum, Option.bind_eq_bind, Option.bind_none] at hact
      cases hact
  | some rum =>
      have hr := (hk cha).1
      rw [raceOf_some hrum] at hr hma
      have hidle : rum.dod = true := by
        by_contra hbusy
        simp [hbusy] at hma
      have heq : ho = { s.1 with bin := [] } := rack_idle hrum hr hidle ((hp rum hrum).mp hidle) hact
      rw [heq]

/-- A good packet, or a dead one, with the number as its hash and payload. -/
def plainHear (kay : Cape) (num : Nat) : Act Unit := .hear ⟨kay, .atom 0, num⟩ 0 [] num (.atom num)

/-- One message, and its acknowledgment. -/
theorem bund_order_one :
    ∃ s, Reachable (⟨(), ∅, []⟩, []) (actLog plainWire) Prompt s ∧ s.2.length = 2 ∧
      ∃ m a, watched [] s.2 = some (m, a) ∧ mulked [] s.2 = List.range m := by
  have h₀ : Reachable (⟨(), ∅, []⟩, []) (actLog plainWire) Prompt (⟨(), ∅, []⟩, []) := .init
  have h₁ := h₀.step (a := plainHear .good 0) trivial rfl
  have h₂ := h₁.step (a := .rack [] none) ?_ rfl
  · obtain ⟨m, a, hw, hm, -⟩ := bund_order plainWire () _ h₂ []
    exact ⟨_, h₂, rfl, m, a, hw, hm⟩
  · intro rum hrum
    cases hrum
    refine iff_of_false Bool.false_ne_true ?_
    rintro ⟨m, hm, -⟩
    cases hm

/-- Acknowledged twice, the first message takes the second number with it: the third is passed
on right after it. And when the second is parked as dead, the first is passed on again. -/
theorem bund_disorder :
    (runs (actLog plainWire) [plainHear .good 0, .rack [] none, .rack [] none, plainHear .good 2]
      (⟨(), ∅, []⟩, [])).map (fun s => mulked [] s.2) = some [0, 2] ∧
    (runs (actLog plainWire) [plainHear .good 0, plainHear .dead 1, .rack [] none, plainHear .good 0]
      (⟨(), ∅, []⟩, [])).map (fun s => mulked [] s.2) = some [0, 0] := by
  constructor <;> rfl

end Vere.Ames
