import Vere.Log.Integrity

/-!
# Vere.Log.Restart

The file log across crashes.

A crash leaves the files: `egz.hope` with at least what was synced, and the directory of
quick files with at least the synced ones. `u2_egz_init` starts the next process with an
empty queue and does not look into that directory, so a quick file that was synced but not
yet appended is never appended, and a later push of the same number overwrites it
(`unqueued_lost`). Where every crash finds the consolidator done with all that was synced
(`Quiet`), everything that was synced stays in the log (`crash_durable`).
-/

namespace Vere.Log

open Vere.Lib Function

/-- The log, and what a crash cannot take back. -/
structure Disk where
  egz : Egz
  /-- How much of `egz.hope` is synced. -/
  safe : Nat
  /-- The quick files that were written and synced, in this process and those before. -/
  synced : List (Name × List UInt8)

/-- What a step writes and syncs: the quick file of a thread that has opened it. `syncfs`
syncs the whole file system, and with it `egz.hope`. -/
def flushed (s : Egz) : Action → Option (Name × List UInt8)
  | .task k _ =>
      match s.tasks k with
      | some (.opened b) => some (b.name, b.bobY.take b.lenW)
      | _ => none
  | _ => none

inductive Turn
  | act (a : Action)
  /-- The consolidator has found the queue empty, and syncs `egz.hope`. -/
  | sleep
  /-- A crash that leaves `n` bytes of `egz.hope` and these quick files, and a start that
  goes on at `entD`. -/
  | crash (n entD : Nat) (quick : Name → Option (List UInt8))

def Disk.step (d : Turn) (s : Disk) : Option Disk :=
  match d with
  | .act a => do
      let egz ← Log.step a s.egz
      return {
        egz := egz
        safe := if (flushed s.egz a).isSome then s.egz.hope.length else s.safe
        synced := (flushed s.egz a).toList ++ s.synced }
  | .sleep => do
      guard (s.egz.con matches .idle && s.egz.que.tailU.isNone)
      return { s with safe := s.egz.hope.length }
  | .crash n entD quick =>
      let hope := s.egz.hope.take n
      some { s with egz := Egz.init hope entD quick, safe := hope.length }

/-- What a crash can leave: at least what is synced. -/
def Possible (s : Disk) : Turn → Prop
  | .crash n _ quick => s.safe ≤ n ∧
      ∀ x file, s.egz.quick x = some file → (x, file) ∈ s.synced → quick x = some file
  | _ => True

/-- Every quick file that is synced has been appended, and the appends are synced: no thread
is between the sync and the queue, the queue is empty, and the consolidator has nothing in
hand. -/
def Quiet (s : Disk) : Prop :=
  (∀ k b, s.egz.tasks k ≠ some (.written b)) ∧ s.egz.que.tailU = none ∧ s.egz.con.held = [] ∧
    s.safe = s.egz.hope.length

/-- A crash finds the log quiet. -/
def Settled (s : Disk) : Turn → Prop
  | .crash _ _ _ => Quiet s
  | _ => True

def Disk.init (led : List UInt8) (entD : Nat) (quick : Name → Option (List UInt8)) : Disk :=
  ⟨Egz.init led entD quick, led.length, []⟩

/-! ### What is in the log -/

/-- The bytes are a record. -/
def IsRecord (r : List UInt8) : Prop := ∃ ron seqD typ, r = egzPushOva ron seqD typ

/-- `egz.hope` is its beginning and then whole records, this one among them. -/
def Recorded (led hope r : List UInt8) : Prop :=
  ∃ rs : List (List UInt8), (∀ r ∈ rs, IsRecord r) ∧ hope = led ++ rs.flatten ∧ r ∈ rs

/-- The name is in the queue, or in the hands of the thread that enters it or of the
consolidator that took it out. -/
def Pending (s : Egz) (x : Name) : Prop :=
  (∃ ns, s.que.Holds ns ∧ x ∈ ns.map (·.2)) ∨ (∃ k b, s.tasks k = some (.written b) ∧ b.name = x) ∨
    s.con = .took x

/-- The event is in `egz.hope`, or it will be appended. -/
def Represented (led : List UInt8) (s : Egz) (e : Name × List UInt8) : Prop :=
  Recorded led s.hope e.2 ∨ (s.quick e.1 = some e.2 ∧ Pending s e.1) ∨ s.con = .read e.1 e.2

/-- How far a record has come that was synced: its task is about to enter it, or has. -/
def Ahead (s : Egz) (x : Name) : Prop :=
  ∀ k t, s.tasks k = some t → t.baton.seqD = x.1 →
    t.logged x.2 = true ∨ ∃ b, t = .written b ∧ b.typ = x.2

section steps

variable {led : List UInt8} {s s' : Egz} {done : List Name} {ns : List (Nat × Name)} {x : Name}

/-- A task that goes on. -/
theorem Ahead.advance (h : Ahead s x) {k : Nat} {t : Task} (ht : s.tasks k = some t)
    {o : Option Task} (hs : s'.tasks = update s.tasks k o)
    (ho : ∀ t', o = some t' → t'.baton.seqD = t.baton.seqD ∧
      ((t.logged x.2 = true ∨ ∃ b, t = .written b ∧ b.typ = x.2) →
        t'.logged x.2 = true ∨ ∃ b, t' = .written b ∧ b.typ = x.2)) : Ahead s' x := by
  intro k' t' ht' hseq
  rw [hs] at ht'
  by_cases hk : k' = k
  · subst hk
    rw [update_self] at ht'
    obtain ⟨heq, himp⟩ := ho t' ht'
    exact himp (h k' t ht (heq.symm.trans hseq))
  · rw [update_of_ne hk] at ht'
    exact h k' t' ht' hseq

theorem Ahead.run (h : Ahead s x) {k p : Nat} {t : Task} (ht : s.tasks k = some t)
    (hs : s.run k p t = some s') : Ahead s' x := by
  cases t with
  | start b =>
      rw [Egz.run] at hs
      split at hs
      · cases hs
        exact h
      · cases hs
        refine h.advance ht rfl fun t' ht' => ?_
        cases ht'
        refine ⟨rfl, ?_⟩
        rintro (hlog | ⟨b, hb, -⟩)
        · exact .inl hlog
        · cases hb
  | opened b =>
      cases hs
      refine h.advance ht rfl fun t' ht' => ?_
      cases ht'
      refine ⟨rfl, ?_⟩
      rintro (hlog | ⟨b, hb, -⟩)
      · exact .inl hlog
      · cases hb
  | written b =>
      obtain ⟨-, hs⟩ := Option.ite_none_right_eq_some.mp hs
      cases hs
      refine h.advance ht rfl fun t' ht' => ?_
      cases ht'
      refine ⟨rfl, fun hold => .inl ?_⟩
      -- entering the name logs it, whichever of the two it is
      rcases hold with hlog | ⟨b', hb, hx⟩
      · simp only [Task.logged, Bool.and_eq_true, decide_eq_true_eq] at hlog
        simp [Task.logged, hlog.1]
      · cases hb
        cases htyp : b.typ <;> simp [Task.logged, ← hx, htyp]
  | queued b =>
      rw [Egz.run] at hs
      split at hs
      · cases hs
        exact h.advance ht rfl (by intros; contradiction)
      · next htyp =>
          obtain ⟨-, hs⟩ := Option.ite_none_left_eq_some.mp hs
          cases hs
          refine h.advance ht rfl fun t' ht' => ?_
          cases ht'
          refine ⟨rfl, ?_⟩
          rintro (hlog | ⟨b', hb, -⟩)
          · simp only [Task.logged, Bool.or_eq_true, decide_eq_true_eq] at hlog
            exact .inl (decide_eq_true (hlog.resolve_left htyp))
          · cases hb
  | linking b asyncU prev =>
      cases hs
      refine h.advance ht rfl fun t' ht' => ?_
      cases ht'
      refine ⟨rfl, ?_⟩
      rintro (hlog | ⟨b', hb, -⟩)
      · exact .inl hlog
      · cases hb
  | async b asyncU =>
      rw [Egz.run] at hs
      obtain ⟨-, hs⟩ := Option.ite_none_left_eq_some.mp hs
      split at hs
      · cases hs
        exact h
      · cases hs
        refine h.advance ht rfl fun t' ht' => ?_
        cases ht'
        refine ⟨rfl, ?_⟩
        rintro (hlog | ⟨b', hb, -⟩)
        · simp only [Task.logged, decide_eq_true_eq] at hlog
          exact .inl (by simp [Task.logged, hlog])
        · cases hb

theorem run_pushed {k p : Nat} {t : Task} (hs : s.run k p t = some s') : s'.pushed = s.pushed := by
  cases t with
  | start b =>
      rw [Egz.run] at hs
      split at hs <;> cases hs <;> rfl
  | opened b =>
      cases hs
      rfl
  | written b =>
      obtain ⟨-, hs⟩ := Option.ite_none_right_eq_some.mp hs
      cases hs
      rfl
  | queued b =>
      rw [Egz.run] at hs
      split at hs
      · cases hs
        rfl
      · obtain ⟨-, hs⟩ := Option.ite_none_left_eq_some.mp hs
        cases hs
        rfl
  | linking b asyncU prev =>
      cases hs
      rfl
  | async b asyncU =>
      rw [Egz.run] at hs
      obtain ⟨-, hs⟩ := Option.ite_none_left_eq_some.mp hs
      split at hs <;> cases hs <;> rfl

/-- The events that were pushed stay what they are, and their records go on. -/
theorem Sound.keep (h : Sound led s done ns) {a : Action} (hs : step a s = some s') :
    (∀ n ron, s.pushed n = some ron → s'.pushed n = some ron) ∧
      ∀ x, (s.pushed x.1).isSome → Ahead s x → Ahead s' x := by
  unfold step at hs
  rw [if_neg (by rw [h.alive]; exact Bool.false_ne_true)] at hs
  cases a with
  | push k ron =>
      obtain ⟨hk, hs⟩ := Option.ite_none_right_eq_some.mp hs
      cases hs
      have hnew : s.pushed s.entD = none := h.fresh s.entD (Nat.le_refl _)
      have hne : ∀ n, (s.pushed n).isSome → n ≠ s.entD := by
        rintro n hn rfl
        rw [hnew] at hn
        cases hn
      refine ⟨fun n r hr => ?_, fun x hx hahead k' t ht hseq => ?_⟩
      · exact (update_of_ne (hne n (by rw [hr]; rfl)) _ _).trans hr
      · by_cases hkk : k' = k
        · subst hkk
          cases (update_self k' _ _).symm.trans ht
          exact absurd hseq.symm (hne x.1 hx)
        · exact hahead k' t ((update_of_ne hkk _ _).symm.trans ht) hseq
  | task k p =>
      obtain ⟨t, ht, hs⟩ := Option.bind_eq_some_iff.mp hs
      refine ⟨fun n ron hr => ?_, fun x _ hahead => hahead.run ht hs⟩
      rw [run_pushed hs]
      exact hr
  | consolidate =>
      obtain ⟨htasks, hpushed, -⟩ := consolidate_tasks hs
      refine ⟨fun n ron hr => ?_, fun x _ hahead k t ht => ?_⟩
      · rw [hpushed]
        exact hr
      · rw [htasks] at ht
        exact hahead k t ht
  | reuse p =>
      obtain ⟨-, hs⟩ := Option.ite_none_left_eq_some.mp hs
      cases hs
      exact ⟨fun _ _ hr => hr, fun _ _ hahead => hahead⟩

/-- A record that was synced is in the order, or its thread is about to enter it. -/
theorem Sound.found (h : Sound led s done ns) (hx : (s.pushed x.1).isSome) (hahead : Ahead s x) :
    x ∈ names s.con done ns ∨ ∃ k b, s.tasks k = some (.written b) ∧ b.name = x := by
  obtain ⟨k, t, ht, hseq⟩ | hall := h.rest x.1 hx
  · rcases hahead k t ht hseq with hlog | ⟨b, rfl, htyp⟩
    · have hmem := ((h.tasks k t ht).logged x.2).mpr hlog
      rw [hseq] at hmem
      exact .inl hmem
    · exact .inr ⟨k, b, ht, Prod.ext hseq htyp⟩
  · exact .inl (hall x.2)

theorem Sound.isRecord (h : Sound led s done ns) {y : Name} (hy : y ∈ done) :
    IsRecord (s.record y) := by
  obtain ⟨ron, hron⟩ := Option.isSome_iff_exists.mp (h.pushed y (List.mem_append_left _ hy))
  refine ⟨ron, .ofNat y.1, y.2, ?_⟩
  rw [Egz.record, hron]
  rfl

/-- What a thread syncs is the record of its name. -/
theorem Sound.flushed (h : Sound led s done ns) {a : Action} {e : Name × List UInt8}
    (he : flushed s a = some e) (hs : step a s = some s') :
    (s'.pushed e.1.1).isSome ∧ e.2 = s'.record e.1 ∧ Ahead s' e.1 := by
  obtain ⟨done', ns', h'⟩ := h.next hs
  unfold step at hs
  rw [if_neg (by rw [h.alive]; exact Bool.false_ne_true)] at hs
  unfold Log.flushed at he
  split at he
  · next k p =>
      obtain ⟨t, ht, hs⟩ := Option.bind_eq_some_iff.mp hs
      rw [ht] at he
      split at he
      · next b hb =>
          cases hb
          cases he
          cases hs
          have hok := h'.tasks k (.written b) (update_self ..)
          obtain ⟨ron, hron, -⟩ := hok.buffer
          refine ⟨Option.isSome_iff_exists.mpr ⟨ron, hron⟩, ?_, ?_⟩
          · have hfile := hok.file b rfl
            simp only [update_self, Option.some.injEq] at hfile
            exact hfile
          · intro k' t' ht' hseq
            have hk : k' = k := h'.apart k' k t' (.written b) ht' (update_self ..) hseq
            subst hk
            cases (update_self k' _ _).symm.trans ht'
            exact .inr ⟨b, rfl, rfl⟩
      · cases he
  · cases he

end steps

/-! ### Runs with crashes -/

/-- `rs` are the records of the processes before; a record that was synced is one of them, or
it is one of this process and still on its way or appended. -/
def Durable (led : List UInt8) (d : Disk) : Prop :=
  ∃ (rs : List (List UInt8)) (done : List Name) (ns : List (Nat × Name)),
    (∀ r ∈ rs, IsRecord r) ∧ Sound (led ++ rs.flatten) d.egz done ns ∧
    ∀ e ∈ d.synced, e.2 ∈ rs ∨
      ((d.egz.pushed e.1.1).isSome ∧ e.2 = d.egz.record e.1 ∧ Ahead d.egz e.1)

section runs

variable {led : List UInt8} {d d' : Disk}

theorem Durable.act (h : Durable led d) {a : Action} (hs : d.step (.act a) = some d') :
    Durable led d' := by
  obtain ⟨rs, done, ns, hrs, hsound, hsynced⟩ := h
  obtain ⟨egz, hegz, hs⟩ := Option.bind_eq_some_iff.mp hs
  cases hs
  obtain ⟨hpushed, hahead⟩ := hsound.keep hegz
  obtain ⟨done', ns', hsound'⟩ := hsound.next hegz
  refine ⟨rs, done', ns', hrs, hsound', fun e he => ?_⟩
  rcases List.mem_append.mp he with hnew | hold
  · exact .inr (hsound.flushed (Option.mem_toList.mp hnew) hegz)
  · rcases hsynced e hold with hin | ⟨hsome, hrec, hpast⟩
    · exact .inl hin
    · refine .inr ⟨?_, hrec.trans (record_keep hpushed hsome).symm, hahead e.1 hsome hpast⟩
      obtain ⟨ron, hron⟩ := Option.isSome_iff_exists.mp hsome
      rw [hpushed _ ron hron]
      rfl

/-- A crash that finds the log quiet takes nothing back that was synced. -/
theorem Durable.crash (h : Durable led d) {n entD : Nat} {quick : Name → Option (List UInt8)}
    (hn : d.safe ≤ n) (hquiet : Quiet d) (hs : d.step (.crash n entD quick) = some d') :
    Durable led d' := by
  obtain ⟨rs, done, ns, hrs, hsound, hsynced⟩ := h
  obtain ⟨hthreads, hempty, hheld, hsafe⟩ := hquiet
  cases hs
  have hall : d.egz.hope.take n = d.egz.hope := List.take_of_length_le (by omega)
  have hhope : d.egz.hope = led ++ (rs ++ done.map d.egz.record).flatten := by
    rw [hsound.hope, List.flatten_append, List.append_assoc]
  refine ⟨rs ++ done.map d.egz.record, [], [], ?_, ?_, fun e he => .inl ?_⟩
  · intro r hr
    rcases List.mem_append.mp hr with hr | hr
    · exact hrs r hr
    · obtain ⟨y, hy, rfl⟩ := List.mem_map.mp hr
      exact hsound.isRecord hy
  · simp only [hall]
    rw [hhope]
    exact sound_init ..
  · rcases hsynced e he with hin | ⟨hsome, hrec, hahead⟩
    · exact List.mem_append_left _ hin
    · refine List.mem_append_right _ (List.mem_map.mpr ⟨e.1, ?_, hrec.symm⟩)
      rcases hsound.found hsome hahead with hmem | ⟨k, b, hb, -⟩
      · -- nothing is held and nothing is queued, so the order is what is in the file
        have hnil := hsound.queue.tail_none_iff.mp hempty
        rw [names, hheld, hnil] at hmem
        simpa using hmem
      · exact absurd hb (hthreads k b)

theorem Durable.step (h : Durable led d) {e : Turn} (hp : Possible d e) (hc : Settled d e)
    (hs : d.step e = some d') : Durable led d' := by
  cases e with
  | act a => exact h.act hs
  | sleep =>
      obtain ⟨_, -, hs⟩ := Option.bind_eq_some_iff.mp hs
      cases hs
      exact h
  | crash n entD quick => exact h.crash hp.1 hc hs

theorem Durable.represented (h : Durable led d) : ∀ e ∈ d.synced, Represented led d.egz e := by
  obtain ⟨rs, done, ns, hrs, hsound, hsynced⟩ := h
  have hrecs : ∀ r ∈ rs ++ done.map d.egz.record, Recorded led d.egz.hope r := by
    intro r hr
    refine ⟨rs ++ done.map d.egz.record, fun r hr => ?_, ?_, hr⟩
    · rcases List.mem_append.mp hr with hr | hr
      · exact hrs r hr
      · obtain ⟨y, hy, rfl⟩ := List.mem_map.mp hr
        exact hsound.isRecord hy
    · rw [hsound.hope, List.flatten_append, List.append_assoc]
  intro e he
  rcases hsynced e he with hin | ⟨hsome, hrec, hahead⟩
  · exact .inl (hrecs _ (List.mem_append_left _ hin))
  · rcases hsound.found hsome hahead with hmem | ⟨k, b, hb, hname⟩
    · rcases List.mem_append.mp hmem with hdone | hmem
      · exact .inl (hrecs _ (List.mem_append_right _ (List.mem_map.mpr ⟨e.1, hdone, hrec.symm⟩)))
      · rcases List.mem_append.mp hmem with hheld | hqueued
        · -- the consolidator has it in hand
          have hcon := hsound.con
          cases hc : d.egz.con with
          | idle => simp [hc, Con.held] at hheld
          | wrote y => simp [hc, Con.held] at hheld
          | took y =>
              simp only [hc, Con.held, List.mem_singleton] at hheld
              rw [hc] at hcon
              subst hheld
              exact .inr (.inl ⟨by rw [hrec]; exact hcon, .inr (.inr hc)⟩)
          | read y file =>
              simp only [hc, Con.held, List.mem_singleton] at hheld
              rw [hc] at hcon
              subst hheld
              have hdata : file = d.egz.record e.1 := hcon
              exact .inr (.inr (by rw [hc, hdata, ← hrec]))
        · refine .inr (.inl ⟨?_, .inl ⟨ns, hsound.queue, hqueued⟩⟩)
          rw [hrec]
          exact hsound.quick _ hqueued
    · have hfile := (hsound.tasks k _ hb).file b rfl
      rw [hname] at hfile
      refine .inr (.inl ⟨?_, .inr (.inl ⟨k, b, hb, hname⟩)⟩)
      rw [hrec]
      exact hfile

/-- In every run of pushes, threads, consolidations, crashes and restarts in which every crash
finds the log quiet, what a push has written and synced is in `egz.hope`, or in a quick file
that will be appended: after every restart, and whatever is pushed later. -/
theorem crash_durable (led : List UInt8) (entD : Nat) (quick : Name → Option (List UInt8))
    (h : Reachable (Disk.init led entD quick) Disk.step
      (fun s e => Possible s e ∧ Settled s e) d) :
    ∀ e ∈ d.synced, Represented led d.egz e := by
  have hinit : Durable led (Disk.init led entD quick) := by
    refine ⟨[], [], [], nofun, ?_, nofun⟩
    rw [List.flatten_nil, List.append_nil]
    exact sound_init led entD quick
  have hdurable : Durable led d :=
    h.invariant hinit fun _ _ _ h hok hs => h.step hok.1 hok.2 hs
  exact hdurable.represented

end runs

/-! ### One event -/

/-- An event is pushed, written and synced, entered, consolidated and synced. -/
def consolidated : List Turn :=
  [.act (.push 7 ronNul), .act (.task 7 0), .act (.task 7 0), .act (.task 7 0),
    .act .consolidate, .act .consolidate, .act .consolidate, .act .consolidate, .sleep]

/-- A step that is no crash needs no condition. -/
theorem reachable_acts (acts : List Turn) (hacts : ∀ e ∈ acts, ¬∃ n entD quick, e = .crash n entD quick)
    {s d d' : Disk} (h : Reachable s Disk.step (fun s e => Possible s e ∧ Settled s e) d)
    (hs : runs Disk.step acts d = some d') :
    Reachable s Disk.step (fun s e => Possible s e ∧ Settled s e) d' := by
  induction acts generalizing d with
  | nil =>
      cases hs
      exact h
  | cons e acts ih =>
      obtain ⟨d₁, h₁, hs⟩ := Option.bind_eq_some_iff.mp hs
      refine ih (fun e he => hacts e (List.mem_cons_of_mem _ he)) (.step h ?_ h₁) hs
      cases e with
      | act a => exact ⟨trivial, trivial⟩
      | sleep => exact ⟨trivial, trivial⟩
      | crash n entD quick => exact absurd ⟨n, entD, quick, rfl⟩ (hacts _ (List.mem_cons_self ..))

/-- After a quiet crash the record of the event is in the log. -/
theorem crash_durable_one : ∃ d d',
    Reachable (Disk.init [] 5 fun _ => none) Disk.step (fun s e => Possible s e ∧ Settled s e) d ∧
      d.step (.crash d.safe 5 d.egz.quick) = some d' ∧
      ((5, .precommit), egzPushOva ronNul 5 .precommit) ∈ d'.synced ∧
      ∀ e ∈ d'.synced, Represented [] d'.egz e := by
  obtain ⟨d, hrun, hquiet, hsynced⟩ : ∃ d,
      runs Disk.step consolidated (Disk.init [] 5 fun _ => none) = some d ∧ Quiet d ∧
        ((5, .precommit), egzPushOva ronNul 5 .precommit) ∈ d.synced := by
    refine ⟨_, rfl, ⟨?_, rfl, rfl, rfl⟩, List.mem_cons_self ..⟩
    intro k b h
    by_cases hk : k = 7
    · subst hk
      cases h
    · simp only [update_of_ne hk] at h
      cases h
  have hreach := reachable_acts consolidated (by simp [consolidated]) .init hrun
  have hcrash : d.step (.crash d.safe 5 d.egz.quick) = some _ := rfl
  have hpossible : Possible d (.crash d.safe 5 d.egz.quick) :=
    ⟨Nat.le_refl _, fun _ _ hq _ => hq⟩
  refine ⟨d, _, hreach, hcrash, hsynced, ?_⟩
  exact crash_durable [] 5 (fun _ => none) (.step hreach ⟨hpossible, hquiet⟩ hcrash)

/-- An event is pushed, written and synced, and the process crashes before its thread enters
the name of the quick file into the queue. The file is still there after the restart, but
neither it nor a record of it will be appended. -/
theorem unqueued_lost : ∃ d,
    Reachable (Disk.init [] 5 fun _ => none) Disk.step Possible d ∧
      ((5, .precommit), egzPushOva ronNul 5 .precommit) ∈ d.synced ∧
      d.egz.quick (5, .precommit) = some (egzPushOva ronNul 5 .precommit) ∧
      ¬Represented [] d.egz ((5, .precommit), egzPushOva ronNul 5 .precommit) := by
  obtain ⟨d, hrun, hsynced, hquick, hhope⟩ : ∃ d,
      runs Disk.step (consolidated.take 3) (Disk.init [] 5 fun _ => none) = some d ∧
        ((5, .precommit), egzPushOva ronNul 5 .precommit) ∈ d.synced ∧
        d.egz.quick (5, .precommit) = some (egzPushOva ronNul 5 .precommit) ∧ d.egz.hope = [] :=
    ⟨_, rfl, List.mem_cons_self .., rfl, rfl⟩
  have hreach : Reachable (Disk.init [] 5 fun _ => none) Disk.step Possible d :=
    (reachable_acts _ (by simp [consolidated]) .init hrun).mono fun _ _ h => h.1
  have hcrash : d.step (.crash d.safe 5 d.egz.quick) = some _ := rfl
  have hpossible : Possible d (.crash d.safe 5 d.egz.quick) :=
    ⟨Nat.le_refl _, fun _ _ hq _ => hq⟩
  refine ⟨_, .step hreach hpossible hcrash, hsynced, hquick, ?_⟩
  rintro (⟨rs, -, hrs, hmem⟩ | ⟨-, ⟨ns, hns, hmem⟩ | ⟨k, b, hb, -⟩ | hcon⟩ | hcon)
  · -- the file is empty, and a record is not
    have hlen : (egzPushOva ronNul 5 .precommit).length ≤ rs.flatten.length :=
      (List.sublist_flatten_of_mem hmem).length_le
    have hnil : rs.flatten = [] := by
      simpa [hhope, Egz.init] using hrs.symm
    rw [hnil, length_egzPushOva] at hlen
    exact absurd hlen (by decide)
  · have hnil : ns = [] := hns.tail_none_iff.mp rfl
    rw [hnil] at hmem
    cases hmem
  · cases hb
  · cases hcon
  · cases hcon

end Vere.Log
