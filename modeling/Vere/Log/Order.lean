import Vere.Log.Integrity
import Vere.Log.Kicks

/-!
# Vere.Log.Order

The work loop together with the log it writes to: which effects are kicked before their
event is logged.

The main thread does what `u2_raft_work` does to the outside, one operation after the
other (`todo`), and the threads of the file log or the reports of Kafka come in between.
A record of the file log is durable when its quick file is synced, a record of Kafka when
its delivery is reported.

`u2_kafk_push` waits until all its messages are delivered, so Kafka has the event before
its effects are kicked, if it took the message at all. `u2_egz_push_ova` only starts a
thread, and the effects are kicked without waiting for it (`effects_logged`).
-/

namespace Vere.Log

open Vere.Lib Function

/-- What can be seen from the outside, in its order. -/
inductive Seen
  | durable (x : Name)
  | kick (n : Nat) (ovo : Noun)
  deriving DecidableEq

/-- Before an effect of an event, its first record is durable. -/
def Safe (seen : List Seen) : Prop :=
  ∀ before after n ovo, seen = before ++ .kick n ovo :: after → .durable (n, .precommit) ∈ before

structure Host where
  reck : Reck
  /-- What the main thread still has to do before it returns to the loop. -/
  todo : List Op
  /-- It is in the loop of `u2_kafk_push` that waits for deliveries. -/
  polling : Bool
  /-- What the last push returned. -/
  bidD : Nat
  /-- The work loop has ended the process. -/
  halted : Bool
  /-- The file log, and `ent_d` for both. -/
  egz : Egz
  /-- The messages in the queue of the producer. -/
  outq : List Name
  /-- The records whose delivery was reported to the main loop. -/
  asyncs : Nat → Option Name
  seen : List Seen

inductive Move
  /-- A callback of the main loop, up to the first thing it does to the outside. -/
  | deed (a : Deed)
  /-- The main thread goes on, with the thread `k` for a push to the file log; `taken` is
  whether `rd_kafka_produce` takes a message. -/
  | main (k : Nat) (taken : Bool)
  /-- A thread, a callback or the consolidator of the file log goes on. -/
  | egz (a : Action)
  /-- Kafka reports the delivery of a message, to the handle `k`. -/
  | deliver (i k : Nat)
  /-- No message is left to wait for. -/
  | poll
  /-- `_kafka_finalize_and_emit`. -/
  | async (k : Nat) (taken : Bool)

/-- The main thread is in the loop. -/
def Host.idle (s : Host) : Bool := s.todo.isEmpty && !s.polling && !s.halted

/-- `u2_kafk_push`, up to the wait. -/
def Host.produce (s : Host) (x : Name) (taken : Bool) : Host :=
  { s with outq := if taken then s.outq ++ [x] else s.outq, polling := true }

/-- What a task of the file log is about to make durable. -/
def Task.syncs : Task → Option Name
  | .opened b => some b.name
  | _ => none

/-- In the main loop, and not in a thread. -/
def Task.isAsync : Task → Bool
  | .async .. => true
  | _ => false

section Host

variable (back : Back) (arvo : Arvo) (jam : Noun → Ron)

def Host.deed (s : Host) : Deed → Option Host
  | .work fuel =>
      let r := (raftWork arvo fuel).run s.reck
      some
        { s with
          reck := r.2
          todo := r.2.ops.drop s.reck.ops.length
          halted := match r.1 with | .ok _ => false | _ => true }
  | a => (Log.deed arvo a s.reck).map fun reck => { s with reck := reck }

def Host.main (s : Host) (k : Nat) (taken : Bool) : Option Host :=
  match s.todo with
  | [] => none
  | .kick ovo :: todo => some { s with todo := todo, seen := s.seen ++ [.kick s.bidD ovo] }
  | .push ovo :: todo =>
      match back with
      | .egz =>
          (s.egz.push k (jam ovo)).map fun egz =>
            { s with todo := todo, bidD := s.egz.entD, egz := egz }
      | .kafk =>
          let s' : Host :=
            { s with
              todo := todo, bidD := s.egz.entD, egz := { s.egz with entD := s.egz.entD + 1 } }
          some (s'.produce (s.egz.entD, .precommit) taken)

def Host.task (s : Host) : Action → Option Host
  | .push _ _ => none
  | .consolidate => (step .consolidate s.egz).map fun egz => { s with egz := egz }
  | .reuse p => (step (.reuse p) s.egz).map fun egz => { s with egz := egz }
  | .task k p =>
      (s.egz.tasks k).bind fun t =>
        -- A callback waits until the main thread is back in the loop.
        if t.isAsync ∧ s.idle = false then none
        else
          (step (.task k p) s.egz).map fun egz =>
            { s with egz := egz, seen := s.seen ++ t.syncs.toList.map Seen.durable }

def Host.deliver (s : Host) (i k : Nat) : Option Host := do
  let x ← s.outq[i]?
  if x.2 = .precommit then
    if s.asyncs k = none then
      some
        { s with
          outq := s.outq.eraseIdx i, asyncs := update s.asyncs k (some x)
          seen := s.seen ++ [.durable x] }
    else none
  else some { s with outq := s.outq.eraseIdx i, seen := s.seen ++ [.durable x] }

def host : Move → Host → Option Host
  | .deed a, s => if s.idle then s.deed arvo a else none
  | .main k taken, s => if s.polling then none else s.main back jam k taken
  | .egz a, s => s.task a
  | .deliver i k, s => if s.polling then s.deliver i k else none
  | .poll, s => if s.polling ∧ s.outq = [] then some { s with polling := false } else none
  | .async k taken, s =>
      if s.idle then
        (s.asyncs k).map fun x =>
          Host.produce { s with asyncs := update s.asyncs k none } (x.1, .postcommit) taken
      else none

/-- The log has a header, and nothing was planned yet. -/
def Host.init (led : List UInt8) (roc : Noun) (entD : Nat) : Host where
  reck := Reck.init roc entD
  todo := []
  polling := false
  bidD := 0
  halted := false
  egz := Egz.init led entD fun _ => none
  outq := []
  asyncs := fun _ => none
  seen := []

/-- An event that has effects is pushed to Kafka, which takes it. -/
def Kept (s : Host) : Move → Prop
  | .main _ taken => ∀ ovo eff rest, s.todo = .push ovo :: .kick eff :: rest →
      back = .kafk ∧ taken = true
  | _ => True

end Host

/-! ### What the work loop does first -/

section Leads

variable {s s' s'' : Reck}

def SameOps (s s' : Reck) : Prop := s'.ops = s.ops

theorem SameOps.refl (s : Reck) : SameOps s s := rfl

theorem SameOps.trans (s s' s'' : Reck) (h : SameOps s s') (h' : SameOps s' s'') : SameOps s s'' :=
  Eq.trans h' h

/-- The main thread has done more. -/
def Adds (s s' : Reck) : Prop := ∃ new, s'.ops = s.ops ++ new

theorem Adds.refl (s : Reck) : Adds s s := ⟨[], (List.append_nil _).symm⟩

theorem Adds.trans (s s' s'' : Reck) (h : Adds s s') (h' : Adds s' s'') : Adds s s'' := by
  obtain ⟨new, hnew⟩ := h
  obtain ⟨new', hnew'⟩ := h'
  exact ⟨new ++ new', by rw [hnew', hnew, List.append_assoc]⟩

theorem SameOps.adds (h : SameOps s s') : Adds s s' := ⟨[], by rw [List.append_nil]; exact h⟩

/-- The main thread has done more, and it did not begin with a kick. -/
def Leads (s s' : Reck) : Prop :=
  ∃ new, s'.ops = s.ops ++ new ∧ ∀ eff, new.head? ≠ some (.kick eff)

theorem SameOps.leads (h : SameOps s s') : Leads s s' :=
  ⟨[], by rw [List.append_nil]; exact h, fun _ he => nomatch he⟩

theorem Leads.after (h : SameOps s s') (h' : Leads s' s'') : Leads s s'' := by
  obtain ⟨new, hnew, hhead⟩ := h'
  exact ⟨new, by rw [hnew, show s'.ops = s.ops from h], hhead⟩

theorem leads_push {ovo : Noun} (h : s'.ops = s.ops ++ [.push ovo]) (h' : Adds s' s'') :
    Leads s s'' := by
  obtain ⟨new, hnew⟩ := h'
  exact ⟨.push ovo :: new, by rw [hnew, h, List.append_assoc]; rfl, fun _ he => nomatch he⟩

theorem Leads.adds (h : Leads s s') : Adds s s' := by
  obtain ⟨new, hnew, -⟩ := h
  exact ⟨new, hnew⟩

variable (arvo : Arvo)

theorem soft_same (cor ovo : Noun) : Run.Within SameOps (soft arvo cor ovo) := fun _ => rfl

theorem sure_same (ovo : Noun) (vir : List Noun) (cor : Noun) :
    Run.Within SameOps (sure ovo vir cor) := by
  refine Run.within_modify fun s => ?_
  split <;> rfl

theorem nick_same (fuel : Nat) (vir : List Noun) (cor : Noun) :
    Run.Within SameOps (nick arvo fuel vir cor) := by
  induction fuel generalizing vir cor with
  | zero => exact fun s => rfl
  | succ fuel ih =>
      cases vir with
      | nil => exact Run.within_pure .refl _
      | cons i vir =>
          rw [nick]
          split
          · refine .bind .trans (soft_same arvo cor i) fun gon => ?_
            cases gon with
            | error e => exact Run.within_pure .refl _
            | ok r => exact ih _ _
          · refine .bind .trans (ih vir cor) fun nez => ?_
            cases nez with
            | error e => exact Run.within_pure .refl _
            | ok r => exact Run.within_pure .refl _

theorem lame_same (ovo why tan : Noun) : Run.Within SameOps (lame arvo ovo why tan) := by
  unfold lame
  split
  · refine .bind .trans (Run.within_read .refl _) fun roc => ?_
    refine .bind .trans (soft_same arvo roc _) fun gon => ?_
    cases gon with
    | ok r => exact sure_same _ _ _
    | error e =>
        refine .bind .trans (Run.within_read .refl _) fun roc => ?_
        refine .bind .trans (soft_same arvo roc _) fun nog => ?_
        cases nog with
        | ok r => exact sure_same _ _ _
        | error e => exact Run.within_stop .refl _
  · exact Run.within_stop .refl _

theorem punk_same (fuel : Nat) (ovo : Noun) : Run.Within SameOps (punk arvo fuel ovo) := by
  unfold punk
  split
  · refine .bind .trans (Run.within_read .refl _) fun roc => ?_
    refine .bind .trans (soft_same arvo roc _) fun gon => ?_
    cases gon with
    | error e => exact lame_same arvo _ e.1 e.2
    | ok r =>
        refine .bind .trans (nick_same arvo fuel r.1 r.2) fun nug => ?_
        cases nug with
        | error e => exact lame_same arvo _ e.1 e.2
        | ok r => exact sure_same _ _ _
  · exact Run.within_stop .refl _

theorem pokeAll_same (fuel : Nat) (ova : List Roe) :
    Run.Within SameOps (pokeAll arvo fuel ova) := by
  induction ova with
  | nil => exact Run.within_pure .refl _
  | cons r ova ih =>
      obtain ⟨vir, ovo⟩ := r
      cases ovo with
      | none => exact Run.within_stop .refl _
      | some ovo =>
          refine .bind .trans (punk_same arvo fuel ovo) fun _ => ?_
          split
          · exact .bind .trans (Run.within_stop .refl _) fun _ => ih
          · exact ih

theorem Within.adds {α : Type} {x : Work α} (h : Run.Within SameOps x) : Run.Within Adds x :=
  fun s => (h s).adds

theorem plan_same (eggs : List Noun) (s : Reck) :
    SameOps s (eggs.foldl (fun s egg => plan egg s) s) := by
  have hops := (planAll_done eggs s).1.ops
  rw [List.append_nil] at hops
  exact hops

theorem kickAll_adds (vir : List Noun) : Run.Within Adds (kickAll arvo vir) := by
  induction vir with
  | nil => exact Run.within_pure .refl _
  | cons ovo vir ih =>
      refine .bind .trans (Run.within_modify fun s => ⟨[.kick ovo], rfl⟩) fun _ => ?_
      refine .bind .trans (fun s => ⟨[], (List.append_nil _).symm⟩) fun tick => ?_
      cases arvo.kick tick ovo with
      | none => exact Run.within_stop .refl _
      | some eggs =>
          exact .bind .trans (Run.within_modify fun s => (plan_same eggs s).adds) fun _ => ih

theorem enter_same (egg : Cart) : Run.Within SameOps (enter egg) := by
  unfold enter
  refine .bind SameOps.trans (Run.within_read .refl _) fun s => ?_
  have hend : ∀ (f : Reck → Reck) (p : Nat), (∀ t, SameOps t (f t)) →
      Run.Within SameOps (do Run.modify f; pure p : Work Nat) :=
    fun f p hf => .bind .trans (Run.within_modify hf) fun _ => Run.within_pure .refl p
  simp only
  split
  · split
    · exact .bind .trans (Run.within_stop .refl _) fun _ => hend _ _ fun _ => rfl
    · exact hend _ _ fun _ => rfl
  · split
    · exact hend _ _ fun _ => rfl
    · exact .bind .trans (Run.within_stop .refl _) fun _ => Run.within_pure .refl _

theorem logAll_leads (rs : List Roe) : Run.Within Leads (logAll arvo rs) := by
  induction rs with
  | nil => exact fun s => SameOps.leads rfl
  | cons r rs ih =>
      obtain ⟨vir, ovo⟩ := r
      cases ovo with
      | none => exact ih
      | some ovo =>
          intro s
          rw [logAll, Run.run_read_bind, Run.run_modify_bind]
          -- The push comes first, and whatever is done then comes after it.
          refine @leads_push s { s with entD := s.entD + 1, ops := s.ops ++ [.push ovo] } _ ovo rfl ?_
          have hrest : Run.Within Adds (do
              let p ← enter ⟨vir, false, false, s.entD⟩
              kickAll arvo vir
              Run.modify fun s =>
                { s with
                  cell := update s.cell p ((s.cell p).map fun n =>
                    { n with val := { n.val with done := true } }) }
              logAll arvo rs) := by
            refine .bind .trans (Within.adds (enter_same _)) fun p => ?_
            refine .bind .trans (kickAll_adds arvo vir) fun _ => ?_
            refine .bind .trans (Run.within_modify fun s => (SameOps.refl s).adds) fun _ => ?_
            exact fun t => (ih t).adds
          exact hrest _

theorem deleteDone_same (fuel : Nat) : Run.Within SameOps (deleteDone fuel) := by
  induction fuel with
  | zero => exact fun s => rfl
  | succ fuel ih =>
      refine .bind .trans (Run.within_read .refl _) fun s => ?_
      have hdrop : ∀ f : Reck → Reck, (∀ t, SameOps t (f t)) →
          Run.Within SameOps (do Run.modify f; deleteDone fuel) :=
        fun f hf => .bind .trans (Run.within_modify hf) fun _ => ih
      simp only
      split
      · exact Run.within_pure .refl _
      · split
        · exact Run.within_stop .refl _
        · split
          · split
            · split
              · exact .bind .trans (Run.within_stop .refl _) fun _ => hdrop _ fun _ => rfl
              · exact hdrop _ fun _ => rfl
            · split
              · exact .bind .trans (Run.within_stop .refl _) fun _ => hdrop _ fun _ => rfl
              · exact hdrop _ fun _ => rfl
          · exact Run.within_pure .refl _

theorem leads_bind {α β : Type} {x : Work α} {f : α → Work β} (hx : Run.Within SameOps x)
    (hf : ∀ a, Run.Within Leads (f a)) : Run.Within Leads (x >>= f) := by
  intro s
  have h := hx s
  rw [Run.run_bind]
  revert h
  rcases x.run s with ⟨r, s'⟩
  intro h
  cases r with
  | ok a => exact .after h (hf a s')
  | stop e => exact h.leads
  | spent => exact h.leads

/-- However the work loop ends, the first thing it did to the outside is no kick. -/
theorem raftWork_leads (fuel : Nat) : Run.Within Leads (raftWork arvo fuel) := by
  refine leads_bind (Run.within_read .refl _) fun s => ?_
  simp only
  split
  · split
    · exact leads_bind (Run.within_stop .refl _) fun _ t => SameOps.leads rfl
    · exact fun t => SameOps.leads rfl
  · refine leads_bind (deleteDone_same _) fun _ => ?_
    split
    · exact fun t => SameOps.leads rfl
    · refine leads_bind (Run.within_modify fun _ => rfl) fun _ => ?_
      refine leads_bind (pokeAll_same arvo fuel _) fun _ => ?_
      refine leads_bind (Run.within_read .refl _) fun roe => ?_
      exact leads_bind (Run.within_modify fun _ => rfl) fun _ => logAll_leads arvo _

end Leads

/-! ### Kafka -/

/-- What the main thread rests on: it waits until nothing is left in the queue of the
producer, and the event whose effects it is about to kick is there or durable. -/
structure Logged (s : Host) : Prop where
  waits : s.polling = false → s.outq = []
  first : ∀ eff rest, s.todo = .kick eff :: rest →
    (s.bidD, .precommit) ∈ s.outq ∨ .durable (s.bidD, .precommit) ∈ s.seen
  safe : Safe s.seen

section Host

variable {back : Back} {arvo : Arvo} {jam : Noun → Ron} {s s' : Host}

theorem Safe.nil : Safe [] := by
  intro before after n ovo h
  cases before <;> cases h

/-- Something else is seen. -/
theorem Safe.snoc {seen : List Seen} {e : Seen} (h : Safe seen)
    (he : ∀ n ovo, e = .kick n ovo → .durable (n, .precommit) ∈ seen) : Safe (seen ++ [e]) := by
  intro before after n ovo heq
  obtain rfl | ⟨init, y, rfl⟩ := List.eq_nil_or_concat' after
  · obtain ⟨rfl, hlast⟩ := List.append_inj' heq rfl
    cases hlast
    exact he n ovo rfl
  · rw [← List.cons_append, ← List.append_assoc] at heq
    exact h before init n ovo (List.append_inj' heq rfl).1

/-- What is left of the operations when the main thread begins. -/
theorem drop_leads {r r' : Reck} (h : Leads r r') (eff : Noun) (rest : List Op) :
    r'.ops.drop r.ops.length ≠ .kick eff :: rest := by
  obtain ⟨new, hnew, hhead⟩ := h
  rw [hnew, List.drop_left]
  intro heq
  exact hhead eff (by rw [heq]; rfl)

theorem idle_iff : s.idle = true ↔ s.todo = [] ∧ s.polling = false ∧ s.halted = false := by
  simp [Host.idle, and_assoc]

theorem Logged.deed (h : Logged s) (hidle : s.idle = true) {a : Deed}
    (hs : s.deed arvo a = some s') : Logged s' := by
  obtain ⟨htodo, -, -⟩ := idle_iff.mp hidle
  have hempty : ∀ reck, Logged { s with reck := reck } := fun reck =>
    ⟨h.waits, (fun eff rest he => nomatch htodo.symm.trans he), h.safe⟩
  cases a with
  | work fuel =>
      cases hs
      exact ⟨h.waits, (fun eff rest he =>
        absurd he (drop_leads (raftWork_leads arvo fuel s.reck) eff rest)), h.safe⟩
  | plan egg =>
      cases hs
      exact hempty _
  | turn lead =>
      cases hs
      exact hempty _
  | grow lenD =>
      cases hs
      exact hempty _

theorem Logged.main (h : Logged s) (hpoll : s.polling = false) {k : Nat} {taken : Bool}
    (hkept : Kept back s (.main k taken)) (hs : s.main back jam k taken = some s') : Logged s' := by
  unfold Host.main at hs
  split at hs
  · cases hs
  · rename_i ovo todo htodo
    cases hs
    have hdur : Seen.durable (s.bidD, .precommit) ∈ s.seen := by
      obtain hout | hdur := h.first ovo todo htodo
      · rw [h.waits hpoll] at hout
        cases hout
      · exact hdur
    refine ⟨h.waits, fun _ _ _ => .inr (List.mem_append_left _ hdur), h.safe.snoc ?_⟩
    intro n o he
    cases he
    exact hdur
  · rename_i ovo todo htodo
    cases back with
    | egz =>
        obtain ⟨egz, hegz, rfl⟩ := Option.map_eq_some_iff.mp hs
        -- Only an event that has no effects may be pushed here.
        refine ⟨h.waits, fun eff rest he => ?_, h.safe⟩
        have he : todo = .kick eff :: rest := he
        exact nomatch (hkept ovo eff rest (he ▸ htodo)).1
    | kafk =>
        cases hs
        refine ⟨(fun hp => nomatch hp), fun eff rest he => ?_, h.safe⟩
        have he : todo = .kick eff :: rest := he
        obtain ⟨-, rfl⟩ := hkept ovo eff rest (he ▸ htodo)
        exact .inl (List.mem_append_right _ (List.mem_singleton_self _))

theorem mem_eraseIdx {x y : Name} {i : Nat} {outq : List Name} (hi : outq[i]? = some y)
    (hx : x ∈ outq) : x ∈ outq.eraseIdx i ∨ x = y := by
  obtain ⟨j, hj⟩ := List.mem_iff_getElem?.mp hx
  by_cases hij : j = i
  · subst hij
    exact .inr (Option.some.inj (hj.symm.trans hi))
  · exact .inl (List.mem_eraseIdx_iff_getElem?.mpr ⟨j, hij, hj⟩)

theorem Logged.deliver (h : Logged s) (hpoll : s.polling = true) {i k : Nat}
    (hs : s.deliver i k = some s') : Logged s' := by
  obtain ⟨x, hx, hs⟩ := Option.bind_eq_some_iff.mp hs
  have hsafe : Safe (s.seen ++ [.durable x]) := h.safe.snoc fun n ovo he => nomatch he
  have hfirst : ∀ eff rest, s.todo = .kick eff :: rest →
      (s.bidD, .precommit) ∈ s.outq.eraseIdx i ∨
        Seen.durable (s.bidD, .precommit) ∈ s.seen ++ [.durable x] := by
    intro eff rest he
    obtain hout | hdur := h.first eff rest he
    · obtain hout | rfl := mem_eraseIdx hx hout
      · exact .inl hout
      · exact .inr (List.mem_append_right _ (List.mem_singleton_self _))
    · exact .inr (List.mem_append_left _ hdur)
  have hwaits : s.polling = false → s.outq.eraseIdx i = [] :=
    fun hp => nomatch hpoll.symm.trans hp
  split at hs
  · obtain ⟨-, hs⟩ := Option.ite_none_right_eq_some.mp hs
    cases hs
    exact ⟨hwaits, hfirst, hsafe⟩
  · cases hs
    exact ⟨hwaits, hfirst, hsafe⟩

/-- What a task of the file log does is seen if it makes a record durable. -/
theorem task_seen {a : Action} (hs : s.task a = some s') :
    ∃ (egz : Egz) (xs : List Name),
      s' = { s with egz := egz, seen := s.seen ++ xs.map Seen.durable } ∧
      step a s.egz = some egz ∧
      ∀ x ∈ xs, ∃ k t, s.egz.tasks k = some t ∧ t.baton.name = x := by
  cases a with
  | push k ron => cases hs
  | consolidate =>
      obtain ⟨egz, hegz, rfl⟩ := Option.map_eq_some_iff.mp hs
      refine ⟨egz, [], ?_, hegz, fun _ hx => nomatch hx⟩
      rw [List.map_nil, List.append_nil]
  | reuse p =>
      obtain ⟨egz, hegz, rfl⟩ := Option.map_eq_some_iff.mp hs
      refine ⟨egz, [], ?_, hegz, fun _ hx => nomatch hx⟩
      rw [List.map_nil, List.append_nil]
  | task k p =>
      obtain ⟨t, ht, hs⟩ := Option.bind_eq_some_iff.mp hs
      obtain ⟨-, hs⟩ := Option.ite_none_left_eq_some.mp hs
      obtain ⟨egz, hegz, rfl⟩ := Option.map_eq_some_iff.mp hs
      refine ⟨egz, t.syncs.toList, rfl, hegz, fun x hx => ⟨k, t, ht, ?_⟩⟩
      cases t with
      | opened b =>
          cases List.mem_singleton.mp hx
          rfl
      | start b => cases hx
      | written b => cases hx
      | queued b => cases hx
      | linking b asyncU prev => cases hx
      | async b asyncU => cases hx

theorem Safe.durables {seen : List Seen} (h : Safe seen) (xs : List Name) :
    Safe (seen ++ xs.map Seen.durable) := by
  induction xs generalizing seen with
  | nil => simpa using h
  | cons x xs ih =>
      have hx : Safe (seen ++ [.durable x]) := h.snoc fun n ovo he => nomatch he
      simpa using ih hx

theorem Logged.task (h : Logged s) {a : Action} (hs : s.task a = some s') : Logged s' := by
  obtain ⟨egz, xs, rfl, -, -⟩ := task_seen hs
  refine ⟨h.waits, fun eff rest he => ?_, h.safe.durables xs⟩
  exact (h.first eff rest he).imp id fun hdur => List.mem_append_left _ hdur

/-- Every step that keeps to the condition. -/
theorem Logged.next (h : Logged s) {a : Move} (hkept : Kept back s a)
    (hs : host back arvo jam a s = some s') : Logged s' := by
  cases a with
  | deed a =>
      obtain ⟨hidle, hs⟩ := Option.ite_none_right_eq_some.mp hs
      exact h.deed hidle hs
  | main k taken =>
      obtain ⟨hpoll, hs⟩ := Option.ite_none_left_eq_some.mp hs
      exact h.main (Bool.eq_false_iff.mpr hpoll) hkept hs
  | egz a => exact h.task hs
  | deliver i k =>
      obtain ⟨hpoll, hs⟩ := Option.ite_none_right_eq_some.mp hs
      exact h.deliver hpoll hs
  | poll =>
      obtain ⟨⟨-, hout⟩, hs⟩ := Option.ite_none_right_eq_some.mp hs
      cases hs
      exact ⟨fun _ => hout, h.first, h.safe⟩
  | async k taken =>
      obtain ⟨hidle, hs⟩ := Option.ite_none_right_eq_some.mp hs
      obtain ⟨x, hx, rfl⟩ := Option.map_eq_some_iff.mp hs
      obtain ⟨htodo, -, -⟩ := idle_iff.mp hidle
      exact ⟨(fun hp => nomatch hp), (fun eff rest he => nomatch htodo.symm.trans he), h.safe⟩

theorem logged_init (led : List UInt8) (roc : Noun) (entD : Nat) :
    Logged (Host.init led roc entD) :=
  ⟨fun _ => rfl, (fun _ _ he => nomatch he), .nil⟩

/-! ### Numbers -/

/-- All numbers that are in use are below the next one. -/
structure Fresh (s : Host) : Prop where
  waits : s.polling = false → s.outq = []
  tasks : ∀ k t, s.egz.tasks k = some t → t.baton.seqD < s.egz.entD
  outq : ∀ x ∈ s.outq, x.1 < s.egz.entD
  asyncs : ∀ k x, s.asyncs k = some x → x.1 < s.egz.entD
  seen : ∀ x, .durable x ∈ s.seen → x.1 < s.egz.entD

/-- A step of the file log that is no push. -/
theorem step_seqD {egz egz' : Egz} {a : Action} (hs : step a egz = some egz')
    (hpush : ∀ k ron, a ≠ .push k ron)
    (h : ∀ k t, egz.tasks k = some t → t.baton.seqD < egz.entD) :
    egz'.entD = egz.entD ∧ ∀ k t, egz'.tasks k = some t → t.baton.seqD < egz.entD := by
  have hset : ∀ k (t t' : Task), egz.tasks k = some t → t'.baton.seqD = t.baton.seqD →
      ∀ k' t₁, update egz.tasks k (some t') k' = some t₁ → t₁.baton.seqD < egz.entD := by
    intro k t t' ht hseq k' t₁ ht₁
    by_cases hk : k' = k
    · subst hk
      cases (update_self k' _ _).symm.trans ht₁
      exact hseq ▸ h k' t ht
    · exact h k' t₁ ((update_of_ne hk _ _).symm.trans ht₁)
  unfold step at hs
  split at hs
  · cases hs
  · cases a with
    | push k ron => exact absurd rfl (hpush k ron)
    | consolidate =>
        simp only [Egz.consolidate] at hs
        repeat' split at hs
        all_goals cases hs
        all_goals exact ⟨rfl, h⟩
    | reuse p =>
        obtain ⟨-, hs⟩ := Option.ite_none_left_eq_some.mp hs
        cases hs
        exact ⟨rfl, h⟩
    | task k p =>
        obtain ⟨t, ht, hs⟩ := Option.bind_eq_some_iff.mp hs
        cases t with
        | start b =>
            simp only [Egz.run] at hs
            split at hs
            · cases hs
              exact ⟨rfl, h⟩
            · cases hs
              exact ⟨rfl, hset k _ (.opened b) ht rfl⟩
        | opened b =>
            cases hs
            exact ⟨rfl, hset k _ (.written b) ht rfl⟩
        | written b =>
            obtain ⟨-, hs⟩ := Option.ite_none_right_eq_some.mp hs
            cases hs
            exact ⟨rfl, hset k _ (.queued b) ht rfl⟩
        | queued b =>
            simp only [Egz.run] at hs
            split at hs
            · cases hs
              refine ⟨rfl, fun k' t₁ ht₁ => ?_⟩
              by_cases hk : k' = k
              · subst hk
                have he := (update_self k' _ _).symm.trans ht₁
                cases he
              · exact h k' t₁ ((update_of_ne hk _ _).symm.trans ht₁)
            · obtain ⟨-, hs⟩ := Option.ite_none_left_eq_some.mp hs
              cases hs
              exact ⟨rfl, hset k _ (.linking b p egz.lastU) ht rfl⟩
        | linking b asyncU prev =>
            cases hs
            exact ⟨rfl, hset k _ (.async b asyncU) ht rfl⟩
        | async b asyncU =>
            simp only [Egz.run] at hs
            obtain ⟨-, hs⟩ := Option.ite_none_left_eq_some.mp hs
            split at hs
            · cases hs
              exact ⟨rfl, h⟩
            · cases hs
              exact ⟨rfl, hset k _ (.start _) ht rfl⟩

theorem Fresh.deed (h : Fresh s) {a : Deed} (hs : s.deed arvo a = some s') : Fresh s' := by
  cases a with
  | work fuel =>
      cases hs
      exact ⟨h.waits, h.tasks, h.outq, h.asyncs, h.seen⟩
  | plan egg =>
      cases hs
      exact ⟨h.waits, h.tasks, h.outq, h.asyncs, h.seen⟩
  | turn lead =>
      cases hs
      exact ⟨h.waits, h.tasks, h.outq, h.asyncs, h.seen⟩
  | grow lenD =>
      cases hs
      exact ⟨h.waits, h.tasks, h.outq, h.asyncs, h.seen⟩

theorem Fresh.main (h : Fresh s) {k : Nat} {taken : Bool}
    (hs : s.main back jam k taken = some s') : Fresh s' := by
  unfold Host.main at hs
  split at hs
  · cases hs
  · cases hs
    refine ⟨h.waits, h.tasks, h.outq, h.asyncs, fun x hx => ?_⟩
    rcases List.mem_append.mp hx with hold | hnew
    · exact h.seen x hold
    · cases List.mem_singleton.mp hnew
  · cases back with
    | egz =>
        obtain ⟨egz, hegz, rfl⟩ := Option.map_eq_some_iff.mp hs
        obtain ⟨-, hegz⟩ := Option.ite_none_right_eq_some.mp hegz
        cases hegz
        refine ⟨h.waits, fun k' t ht => ?_, fun x hx => Nat.lt_succ_of_lt (h.outq x hx),
          fun k' x hx => Nat.lt_succ_of_lt (h.asyncs k' x hx),
          fun x hx => Nat.lt_succ_of_lt (h.seen x hx)⟩
        by_cases hk : k' = k
        · subst hk
          cases (update_self k' _ _).symm.trans ht
          exact Nat.lt_succ_self _
        · exact Nat.lt_succ_of_lt (h.tasks k' t ((update_of_ne hk _ _).symm.trans ht))
    | kafk =>
        cases hs
        refine ⟨(fun hp => nomatch hp), fun k' t ht => Nat.lt_succ_of_lt (h.tasks k' t ht),
          fun x hx => ?_, fun k' x hx => Nat.lt_succ_of_lt (h.asyncs k' x hx),
          fun x hx => Nat.lt_succ_of_lt (h.seen x hx)⟩
        simp only [Host.produce] at hx
        split at hx
        · rcases List.mem_append.mp hx with hold | hnew
          · exact Nat.lt_succ_of_lt (h.outq x hold)
          · cases List.mem_singleton.mp hnew
            exact Nat.lt_succ_self _
        · exact Nat.lt_succ_of_lt (h.outq x hx)

theorem Fresh.deliver (h : Fresh s) (hpoll : s.polling = true) {i k : Nat}
    (hs : s.deliver i k = some s') : Fresh s' := by
  obtain ⟨x, hx, hs⟩ := Option.bind_eq_some_iff.mp hs
  have hlt := h.outq x (List.mem_of_getElem? hx)
  have hout : ∀ y ∈ s.outq.eraseIdx i, y.1 < s.egz.entD :=
    fun y hy => h.outq y (List.mem_of_mem_eraseIdx hy)
  have hseen : ∀ y, Seen.durable y ∈ s.seen ++ [.durable x] → y.1 < s.egz.entD := by
    intro y hy
    rcases List.mem_append.mp hy with hold | hnew
    · exact h.seen y hold
    · cases List.mem_singleton.mp hnew
      exact hlt
  have hwaits : s.polling = false → s.outq.eraseIdx i = [] :=
    fun hp => nomatch hpoll.symm.trans hp
  split at hs
  · obtain ⟨-, hs⟩ := Option.ite_none_right_eq_some.mp hs
    cases hs
    refine ⟨hwaits, h.tasks, hout, fun k' y hy => ?_, hseen⟩
    by_cases hk : k' = k
    · subst hk
      cases (update_self k' _ _).symm.trans hy
      exact hlt
    · exact h.asyncs k' y ((update_of_ne hk _ _).symm.trans hy)
  · cases hs
    exact ⟨hwaits, h.tasks, hout, h.asyncs, hseen⟩

theorem Fresh.task (h : Fresh s) {a : Action} (hs : s.task a = some s') : Fresh s' := by
  have hpush : ∀ k ron, a ≠ .push k ron := by
    rintro k ron rfl
    cases hs
  obtain ⟨egz, xs, rfl, hegz, hxs⟩ := task_seen hs
  obtain ⟨hent, htasks⟩ := step_seqD hegz hpush h.tasks
  refine ⟨h.waits, hent ▸ htasks, hent ▸ h.outq, hent ▸ h.asyncs, fun x hx => ?_⟩
  show x.1 < egz.entD
  rw [hent]
  rcases List.mem_append.mp hx with hold | hnew
  · exact h.seen x hold
  · obtain ⟨y, hy, he⟩ := List.mem_map.mp hnew
    cases he
    obtain ⟨k, t, ht, rfl⟩ := hxs x hy
    exact h.tasks k t ht

theorem Fresh.next (h : Fresh s) {a : Move} (hs : host back arvo jam a s = some s') :
    Fresh s' := by
  cases a with
  | deed a =>
      obtain ⟨-, hs⟩ := Option.ite_none_right_eq_some.mp hs
      exact h.deed hs
  | main k taken =>
      obtain ⟨-, hs⟩ := Option.ite_none_left_eq_some.mp hs
      exact h.main hs
  | egz a => exact h.task hs
  | deliver i k =>
      obtain ⟨hpoll, hs⟩ := Option.ite_none_right_eq_some.mp hs
      exact h.deliver hpoll hs
  | poll =>
      obtain ⟨⟨-, hout⟩, hs⟩ := Option.ite_none_right_eq_some.mp hs
      cases hs
      exact ⟨fun _ => hout, h.tasks, h.outq, h.asyncs, h.seen⟩
  | async k taken =>
      obtain ⟨-, hs⟩ := Option.ite_none_right_eq_some.mp hs
      obtain ⟨x, hx, rfl⟩ := Option.map_eq_some_iff.mp hs
      refine ⟨(fun hp => nomatch hp), h.tasks, fun y hy => ?_, fun k' y hy => ?_, h.seen⟩
      · simp only [Host.produce] at hy
        split at hy
        · rcases List.mem_append.mp hy with hold | hnew
          · exact h.outq y hold
          · cases List.mem_singleton.mp hnew
            exact h.asyncs k x hx
        · exact h.outq y hy
      · by_cases hk : k' = k
        · subst hk
          exact nomatch (update_self k' _ _).symm.trans hy
        · exact h.asyncs k' y ((update_of_ne hk _ _).symm.trans hy)

theorem fresh_init (led : List UInt8) (roc : Noun) (entD : Nat) : Fresh (Host.init led roc entD) :=
  ⟨fun _ => rfl, (fun _ _ ht => nomatch ht), (fun _ hx => nomatch hx), (fun _ _ hx => nomatch hx),
    fun _ hx => nomatch hx⟩

/-- An effect of an event whose number is not in use yet. -/
theorem not_safe_kick {seen : List Seen} {n : Nat} {eff : Noun}
    (h : ∀ x, .durable x ∈ seen → x.1 < n) : ¬Safe (seen ++ [.kick n eff]) := by
  intro hsafe
  have hlt : n < n := h _ (hsafe seen [] n eff rfl)
  exact Nat.lt_irrefl n hlt

/-- An event that has effects is pushed to the file, or Kafka does not take it. -/
theorem Fresh.outrun (h : Fresh s) {ovo eff : Noun} {rest : List Op} {k : Nat} {taken : Bool}
    (htodo : s.todo = .push ovo :: .kick eff :: rest) (hpoll : s.polling = false)
    (hk : s.egz.tasks k = none) (hnot : ¬(back = .kafk ∧ taken = true)) :
    ∃ as s', runs (host back arvo jam) (.main k taken :: as) s = some s' ∧ ¬Safe s'.seen := by
  cases back with
  | egz =>
      refine ⟨[.main k taken], ?_⟩
      simp [runs, host, hpoll, Host.main, htodo, Egz.push, hk]
      exact not_safe_kick h.seen
  | kafk =>
      have htaken : taken = false := by
        cases taken with
        | false => rfl
        | true => exact absurd ⟨rfl, rfl⟩ hnot
      have hout := h.waits hpoll
      refine ⟨[.poll, .main k taken], ?_⟩
      simp [runs, host, hpoll, Host.main, htodo, Host.produce, htaken, hout]
      exact not_safe_kick h.seen

/-- In every run in which events that have effects are pushed to Kafka and taken by it, no
effect is kicked before its event is durable. Whenever such an event is pushed to the
file log, or not taken, there is an order of the steps in which its effects come first. -/
theorem effects_logged (back : Back) (arvo : Arvo) (jam : Noun → Ron) (led : List UInt8)
    (roc : Noun) (entD : Nat) :
    (∀ s, Reachable (Host.init led roc entD) (host back arvo jam) (Kept back) s → Safe s.seen) ∧
      ∀ s ovo eff rest k taken,
        Reachable (Host.init led roc entD) (host back arvo jam) (fun _ _ => True) s →
        s.todo = .push ovo :: .kick eff :: rest → s.polling = false → s.egz.tasks k = none →
        ¬(back = .kafk ∧ taken = true) →
        ∃ as s', runs (host back arvo jam) (.main k taken :: as) s = some s' ∧ ¬Safe s'.seen := by
  refine ⟨fun s h => ?_, fun s ovo eff rest k taken h htodo hpoll hk hnot => ?_⟩
  · exact (h.invariant (logged_init led roc entD) fun _ _ _ hs hkept hstep =>
      hs.next hkept hstep).safe
  · exact (h.invariant (fresh_init led roc entD) fun _ _ _ hs _ hstep =>
      hs.next hstep).outrun htodo hpoll hk hnot

/-! ### One event -/

/-- Whether a step keeps to the condition. -/
def kept (back : Back) (s : Host) : Move → Bool
  | .main _ taken =>
      match s.todo with
      | .push _ :: .kick _ :: _ => back = .kafk && taken
      | _ => true
  | _ => true

theorem kept_iff {a : Move} (h : kept back s a = true) : Kept back s a := by
  cases a with
  | main k taken =>
      intro ovo eff rest htodo
      simpa [kept, htodo] using h
  | _ => trivial

/-- An event that has an effect is planned, and the work loop has come to its end. -/
def begun : List Move := [.deed (.turn true), .deed (.grow 6), .deed (.plan belt), .deed (.work 5)]

theorem effects_logged_kafk : ∃ s,
    Reachable (Host.init [] (.atom 0) 1) (host .kafk (answer true) fun _ => ronNul) (Kept .kafk) s ∧
      s.seen = [.durable (1, .precommit), .kick 1 blit] ∧ Safe s.seen := by
  have hrun : ((runs (guarded (kept .kafk) (host .kafk (answer true) fun _ => ronNul))
      (begun ++ [.main 0 true, .deliver 0 0, .poll, .main 0 true])
      (Host.init [] (.atom 0) 1)).any fun s =>
        s.seen = [.durable (1, .precommit), .kick 1 blit]) = true := by decide
  obtain ⟨s, hs, htest⟩ := Reachable.of_guarded (fun _ _ => kept_iff) _ hrun
  exact ⟨s, hs, of_decide_eq_true htest,
    (effects_logged .kafk (answer true) (fun _ => ronNul) [] (.atom 0) 1).1 s hs⟩

/-- The main thread kicks the effect before the thread of the push has done anything. -/
theorem kicked_before_logged : ∃ s,
    Reachable (Host.init [] (.atom 0) 1) (host .egz (answer true) fun _ => ronNul)
        (fun _ _ => True) s ∧
      s.seen = [.kick 1 blit] ∧ ¬Safe s.seen := by
  have hrun : ((runs (host .egz (answer true) fun _ => ronNul)
      (begun ++ [.main 0 true, .main 0 true]) (Host.init [] (.atom 0) 1)).any fun s =>
        s.seen = [.kick 1 blit]) = true := by decide
  obtain ⟨s, hs, htest⟩ := Reachable.of_runs (fun _ _ => trivial) _ hrun
  have hseen := of_decide_eq_true htest
  refine ⟨s, hs, hseen, fun hsafe => ?_⟩
  cases hsafe [] [] 1 blit (by rw [hseen]; rfl)

end Host

end Vere.Log
