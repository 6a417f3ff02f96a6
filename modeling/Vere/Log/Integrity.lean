import Vere.Log.Egz
import Mathlib.Data.List.Perm.Subperm
import Mathlib.Data.List.TakeWhile

/-!
# Vere.Log.Integrity

What the file log keeps in every run.

The names that were ever entered into the queue stay in one order: those whose records
are in `egz.hope`, the one the consolidator holds, and those in the queue. An event has
at most one task, and how far the task has come says which of its two names are in that
order (`Task.logged`); an event without a task has both. The quick file of a name is
written before the name is entered, and no other task has a file of that name, so what
the consolidator appends is the record (`Sound`).
-/

namespace Vere.Log

open Vere.Lib Function

/-! ### Records -/

/-- The record of a name. -/
def Egz.record (s : Egz) (x : Name) : List UInt8 :=
  (s.pushed x.1).elim [] fun ron => egzPushOva ron (.ofNat x.1) x.2

/-- The names of which the record is in the order of the queue but not yet in the file. -/
def Con.held : Con → List Name
  | .took x | .read x _ => [x]
  | .idle | .wrote _ => []

/-- Which names of its event have been entered into the queue when a task is here. -/
def Task.logged : Task → MsgType → Bool
  | .start b, typ | .opened b, typ | .written b, typ => b.typ = .postcommit && typ = .precommit
  | .queued b, typ => b.typ = .postcommit || typ = .precommit
  | .linking .., typ | .async .., typ => typ = .precommit

/-- Behind a second record is its first. -/
def Ordered (xs : List Name) : Prop :=
  ∀ before after n, xs = before ++ (n, .postcommit) :: after → (n, .precommit) ∈ before

theorem Ordered.nil : Ordered [] := by
  intro before after n h
  cases before <;> cases h

theorem Ordered.snoc {xs : List Name} {x : Name} (h : Ordered xs)
    (hx : x.2 = .postcommit → (x.1, .precommit) ∈ xs) : Ordered (xs ++ [x]) := by
  intro before after n heq
  obtain rfl | ⟨init, y, rfl⟩ := List.eq_nil_or_concat' after
  · obtain ⟨rfl, hlast⟩ := List.append_inj' heq rfl
    cases hlast
    exact hx rfl
  · rw [← List.cons_append, ← List.append_assoc] at heq
    exact h before init n (List.append_inj' heq rfl).1

theorem Ordered.append_left {xs ys : List Name} (h : Ordered (xs ++ ys)) : Ordered xs := by
  intro before after n heq
  exact h before (after ++ ys) n (by rw [heq, List.append_assoc, List.cons_append])

/-- What the baton of a task holds, and what is in the queue and in the directory. -/
structure Task.Ok (s : Egz) (xs : List Name) (t : Task) : Prop where
  buffer : ∃ ron, s.pushed t.baton.seqD = some ron ∧ t.baton.lenW = ron.mallocW ∧
    t.baton.bobY = egzPushOva ron (.ofNat t.baton.seqD) t.baton.typ
  logged : ∀ typ, (t.baton.seqD, typ) ∈ xs ↔ t.logged typ = true
  file : ∀ b, t = .written b → s.quick b.name = some (s.record b.name)
  linking : ∀ b p prev, t = .linking b p prev → b.typ = .precommit
  async : ∀ b p, t = .async b p → b.typ = .precommit

/-- What the consolidator holds. -/
def Con.Ok (s : Egz) (done : List Name) : Con → Prop
  | .idle => True
  | .took x => s.quick x = some (s.record x)
  | .read x fullentryY => fullentryY = s.record x
  | .wrote x => x ∈ done

/-- The names in their order. -/
def names (con : Con) (done : List Name) (ns : List (Nat × Name)) : List Name :=
  done ++ (con.held ++ ns.map (·.2))

/-- `done` are the names whose records are in the file, `ns` the nodes of the queue. -/
structure Sound (led : List UInt8) (s : Egz) (done : List Name) (ns : List (Nat × Name)) :
    Prop where
  alive : s.exited = false
  queue : s.que.Holds ns
  nodup : (names s.con done ns).Nodup
  ordered : Ordered (names s.con done ns)
  pushed : ∀ x ∈ names s.con done ns, (s.pushed x.1).isSome
  fresh : ∀ n, s.entD ≤ n → s.pushed n = none
  tasks : ∀ k t, s.tasks k = some t → t.Ok s (names s.con done ns)
  apart : ∀ k k' t t', s.tasks k = some t → s.tasks k' = some t' →
    t.baton.seqD = t'.baton.seqD → k = k'
  rest : ∀ n, (s.pushed n).isSome → (∃ k t, s.tasks k = some t ∧ t.baton.seqD = n) ∨
    ∀ typ, (n, typ) ∈ names s.con done ns
  quick : ∀ x ∈ ns.map (·.2), s.quick x = some (s.record x)
  con : s.con.Ok s done
  hope : s.hope = led ++ (done.map s.record).flatten

section steps

variable {led : List UInt8} {s s' : Egz} {done : List Name} {ns : List (Nat × Name)}
  {xs xs' : List Name} {t t' : Task} {k : Nat}

/-- The events that were pushed stay what they are. -/
theorem record_keep (hpushed : ∀ n ron, s.pushed n = some ron → s'.pushed n = some ron) {x : Name}
    (hx : (s.pushed x.1).isSome) : s'.record x = s.record x := by
  obtain ⟨ron, hron⟩ := Option.isSome_iff_exists.mp hx
  rw [Egz.record, Egz.record, hron, hpushed x.1 ron hron]

theorem Task.Ok.keep (h : t.Ok s xs)
    (hpushed : ∀ n ron, s.pushed n = some ron → s'.pushed n = some ron)
    (hlogged : ∀ typ, (t.baton.seqD, typ) ∈ xs' ↔ (t.baton.seqD, typ) ∈ xs)
    (hquick : ∀ b, t = .written b → s'.quick b.name = s.quick b.name) : t.Ok s' xs' where
  buffer := by
    obtain ⟨ron, hron, hbuf⟩ := h.buffer
    exact ⟨ron, hpushed _ ron hron, hbuf⟩
  logged typ := (hlogged typ).trans (h.logged typ)
  file b hb := by
    obtain ⟨ron, hron, -⟩ := h.buffer
    subst hb
    have hsome : (s.pushed b.name.1).isSome := by
      simp only [Task.baton] at hron
      simp [Baton.name, hron]
    rw [hquick b rfl, h.file b rfl, record_keep hpushed hsome]
  linking := h.linking
  async := h.async

/-- A name that was not entered is not in the order. -/
theorem Task.Ok.unlogged (h : t.Ok s xs) (hlog : t.logged t.baton.typ = false) :
    t.baton.name ∉ xs := by
  intro hmem
  exact Bool.false_ne_true (hlog.symm.trans ((h.logged t.baton.typ).mp hmem))

theorem Con.Ok.keep {con : Con} (h : con.Ok s done)
    (hpushed : ∀ n ron, s.pushed n = some ron → s'.pushed n = some ron)
    (hheld : ∀ x ∈ con.held, (s.pushed x.1).isSome)
    (hquick : ∀ x ∈ con.held, s'.quick x = s.quick x) : con.Ok s' done := by
  cases con with
  | idle => trivial
  | wrote x => exact h
  | took x =>
      have hx : x ∈ (Con.took x).held := List.mem_singleton_self x
      exact (hquick x hx).trans (h.trans (congrArg some (record_keep hpushed (hheld x hx)).symm))
  | read x data =>
      have hx : x ∈ (Con.read x data).held := List.mem_singleton_self x
      exact Eq.trans h (record_keep hpushed (hheld x hx)).symm

/-- An event is pushed. -/
theorem Sound.push (h : Sound led s done ns) {ron : Ron} (hs : s.push k ron = some s') :
    Sound led s' done ns := by
  obtain ⟨hk, hs⟩ := Option.ite_none_right_eq_some.mp hs
  cases hs
  have hnew : s.pushed s.entD = none := h.fresh s.entD (Nat.le_refl _)
  have hkeep : ∀ n r, s.pushed n = some r → update s.pushed s.entD (some ron) n = some r := by
    intro n r hr
    have hne : n ≠ s.entD := by
      rintro rfl
      exact nomatch hr.symm.trans hnew
    rw [update_of_ne hne, hr]
  have hold : ∀ k' t', s.tasks k' = some t' → k' ≠ k ∧ t'.baton.seqD ≠ s.entD := by
    intro k' t' ht'
    refine ⟨?_, fun heq => ?_⟩
    · rintro rfl
      exact nomatch ht'.symm.trans hk
    · obtain ⟨r, hr, -⟩ := (h.tasks k' t' ht').buffer
      rw [heq] at hr
      exact nomatch hr.symm.trans hnew
  refine
    { alive := h.alive, queue := h.queue, nodup := h.nodup, ordered := h.ordered, pushed := ?_
      fresh := ?_, tasks := ?_, apart := ?_, rest := ?_, quick := ?_, con := ?_, hope := ?_ }
  · intro x hx
    obtain ⟨r, hr⟩ := Option.isSome_iff_exists.mp (h.pushed x hx)
    simp [hkeep x.1 r hr]
  · intro n hn
    have hn : s.entD + 1 ≤ n := hn
    simp only
    rw [update_of_ne (by omega), h.fresh n (by omega)]
  · intro k' t' ht'
    by_cases hkk : k' = k
    · subst hkk
      cases (update_self k' _ _).symm.trans ht'
      refine ⟨⟨ron, update_self .., rfl, rfl⟩, fun typ => ?_, (fun _ hb => nomatch hb),
        (fun _ _ _ hb => nomatch hb), fun _ _ hb => nomatch hb⟩
      have hout : (s.entD, typ) ∉ names s.con done ns := fun hmem => by
        simpa [hnew] using h.pushed _ hmem
      exact ⟨fun hmem => absurd hmem hout, fun hlog => nomatch hlog⟩
    · exact (h.tasks k' t' ((update_of_ne hkk _ _).symm.trans ht')).keep hkeep (fun _ => Iff.rfl)
        fun _ _ => rfl
  · intro k₁ k₂ t₁ t₂ h₁ h₂ heq
    by_cases hk₁ : k₁ = k <;> by_cases hk₂ : k₂ = k
    · rw [hk₁, hk₂]
    · subst hk₁
      cases (update_self k₁ _ _).symm.trans h₁
      exact absurd heq.symm (hold k₂ t₂ ((update_of_ne hk₂ _ _).symm.trans h₂)).2
    · subst hk₂
      cases (update_self k₂ _ _).symm.trans h₂
      exact absurd heq (hold k₁ t₁ ((update_of_ne hk₁ _ _).symm.trans h₁)).2
    · exact h.apart k₁ k₂ t₁ t₂ ((update_of_ne hk₁ _ _).symm.trans h₁)
        ((update_of_ne hk₂ _ _).symm.trans h₂) heq
  · intro n hn
    by_cases hnn : n = s.entD
    · exact .inl ⟨k, _, update_self .., hnn.symm⟩
    · obtain ⟨k', t', ht', hseq⟩ | hall := h.rest n (by simpa [update_of_ne hnn] using hn)
      · exact .inl ⟨k', t', (update_of_ne (hold k' t' ht').1 _ _).trans ht', hseq⟩
      · exact .inr hall
  · intro x hx
    have hmem : x ∈ names s.con done ns := List.mem_append_right _ (List.mem_append_right _ hx)
    rw [record_keep hkeep (h.pushed x hmem)]
    exact h.quick x hx
  · exact h.con.keep hkeep (fun x hx => h.pushed x (List.mem_append_right _
      (List.mem_append_left _ hx))) fun _ _ => rfl
  · show s.hope = _
    rw [h.hope]
    congr 2
    apply List.map_congr_left
    intro x hx
    exact (record_keep hkeep (h.pushed x (List.mem_append_left _ hx))).symm

/-- No other task is one of the same event. -/
theorem Sound.other (h : Sound led s done ns) (ht : s.tasks k = some t) {k' : Nat} {t₁ : Task}
    (hk : k' ≠ k) (ht₁ : s.tasks k' = some t₁) : t₁.baton.seqD ≠ t.baton.seqD :=
  fun heq => hk (h.apart k' k t₁ t ht₁ ht heq)

theorem Sound.apart_update (h : Sound led s done ns) (ht : s.tasks k = some t)
    (hseq : t'.baton.seqD = t.baton.seqD) (k₁ k₂ : Nat) (t₁ t₂ : Task)
    (h₁ : update s.tasks k (some t') k₁ = some t₁) (h₂ : update s.tasks k (some t') k₂ = some t₂)
    (heq : t₁.baton.seqD = t₂.baton.seqD) : k₁ = k₂ := by
  by_cases hk₁ : k₁ = k <;> by_cases hk₂ : k₂ = k
  · rw [hk₁, hk₂]
  · subst hk₁
    cases (update_self k₁ _ _).symm.trans h₁
    exact absurd (heq.symm.trans hseq) (h.other ht hk₂ ((update_of_ne hk₂ _ _).symm.trans h₂))
  · subst hk₂
    cases (update_self k₂ _ _).symm.trans h₂
    exact absurd (heq.trans hseq) (h.other ht hk₁ ((update_of_ne hk₁ _ _).symm.trans h₁))
  · exact h.apart k₁ k₂ t₁ t₂ ((update_of_ne hk₁ _ _).symm.trans h₁)
      ((update_of_ne hk₂ _ _).symm.trans h₂) heq

theorem Sound.rest_update (h : Sound led s done ns) (ht : s.tasks k = some t) (t' : Task)
    (hseq : t'.baton.seqD = t.baton.seqD) (n : Nat) (hn : (s.pushed n).isSome) :
    (∃ k' t₁, update s.tasks k (some t') k' = some t₁ ∧ t₁.baton.seqD = n) ∨
      ∀ typ, (n, typ) ∈ names s.con done ns := by
  obtain ⟨k', t₁, ht₁, hn'⟩ | hall := h.rest n hn
  · by_cases hk : k' = k
    · subst hk
      cases ht.symm.trans ht₁
      exact .inl ⟨k', t', update_self .., hseq.trans hn'⟩
    · exact .inl ⟨k', t₁, (update_of_ne hk _ _).trans ht₁, hn'⟩
  · exact .inr hall

/-- A task goes on, and the queue stays. The file it writes is not in the order. -/
theorem Sound.advance (h : Sound led s done ns) (ht : s.tasks k = some t) (t' : Task)
    (quick : Name → Option (List UInt8)) (hseq : t'.baton.seqD = t.baton.seqD)
    (hquick : ∀ x, x ∈ names s.con done ns ∨ x.1 ≠ t.baton.seqD → quick x = s.quick x)
    (hok : t'.Ok { s with quick := quick, tasks := update s.tasks k (some t') }
      (names s.con done ns)) :
    Sound led { s with quick := quick, tasks := update s.tasks k (some t') } done ns := by
  refine
    { alive := h.alive, queue := h.queue, nodup := h.nodup, ordered := h.ordered
      pushed := h.pushed, fresh := h.fresh, tasks := ?_, apart := h.apart_update ht hseq
      rest := h.rest_update ht t' hseq, quick := ?_, con := ?_, hope := h.hope }
  · intro k' t₁ ht₁
    by_cases hk : k' = k
    · subst hk
      cases (update_self k' _ _).symm.trans ht₁
      exact hok
    · have hold := (update_of_ne hk _ _).symm.trans ht₁
      refine (h.tasks k' t₁ hold).keep (fun _ _ hr => hr) (fun _ => Iff.rfl) fun b hb => ?_
      subst hb
      exact hquick b.name (.inr (h.other ht hk hold))
  · intro x hx
    exact (hquick x (.inl (List.mem_append_right _ (List.mem_append_right _ hx)))).trans (h.quick x hx)
  · have hheld : ∀ x ∈ s.con.held, x ∈ names s.con done ns :=
      fun x hx => List.mem_append_right _ (List.mem_append_left _ hx)
    exact h.con.keep (fun _ _ hr => hr) (fun x hx => h.pushed x (hheld x hx))
      fun x hx => hquick x (.inl (hheld x hx))

/-- Nothing of this is about the handles. -/
theorem Sound.handles (h : Sound led s done ns) (asyncHandles : List Nat) (lastU : Option Nat)
    (handle : Nat → Bool) :
    Sound led { s with asyncHandles := asyncHandles, lastU := lastU, handle := handle } done ns where
  alive := h.alive
  queue := h.queue
  nodup := h.nodup
  ordered := h.ordered
  pushed := h.pushed
  fresh := h.fresh
  tasks k t ht := (h.tasks k t ht).keep (fun _ _ hr => hr) (fun _ => Iff.rfl) fun _ _ => rfl
  apart := h.apart
  rest := h.rest
  quick := h.quick
  con := h.con.keep (fun _ _ hr => hr)
    (fun x hx => h.pushed x (List.mem_append_right _ (List.mem_append_left _ hx))) fun _ _ => rfl
  hope := h.hope

theorem names_snoc (con : Con) (done : List Name) (ns : List (Nat × Name)) (p : Nat) (x : Name) :
    names con done (ns ++ [(p, x)]) = names con done ns ++ [x] := by
  simp [names]

/-- The name of a quick file is entered into the queue. -/
theorem Sound.enqueue (h : Sound led s done ns) {b : Baton} (ht : s.tasks k = some (.written b))
    {p : Nat} (hp : s.que.cell p = none) :
    Sound led { s with que := enqueue p b.name s.que, tasks := update s.tasks k (some (.queued b)) }
      done (ns ++ [(p, b.name)]) := by
  have hok := h.tasks k _ ht
  have hfresh : b.name ∉ names s.con done ns :=
    hok.unlogged (by cases htyp : b.typ <;> simp [Task.logged, Task.baton, htyp])
  refine
    { alive := h.alive, queue := h.queue.enqueue hp b.name, nodup := ?_, ordered := ?_
      pushed := ?_, fresh := h.fresh, tasks := ?_, apart := h.apart_update ht rfl
      rest := fun n hn => ?_, quick := ?_, con := ?_, hope := h.hope }
  · simp only [names_snoc]
    exact List.Nodup.append h.nodup (List.nodup_cons.mpr ⟨List.not_mem_nil, List.nodup_nil⟩)
      (List.disjoint_singleton.mpr hfresh)
  · simp only [names_snoc]
    -- A second record is written by a task whose event has its first in the order.
    refine h.ordered.snoc fun htyp => (hok.logged .precommit).mpr ?_
    have htyp : b.typ = .postcommit := htyp
    simp [Task.logged, htyp]
  · intro x hx
    simp only [names_snoc] at hx
    rcases List.mem_append.mp hx with hold | hnew
    · exact h.pushed x hold
    · cases List.mem_singleton.mp hnew
      obtain ⟨ron, hron, -⟩ := hok.buffer
      exact Option.isSome_iff_exists.mpr ⟨ron, hron⟩
  · intro k' t₁ ht₁
    simp only [names_snoc]
    by_cases hk : k' = k
    · subst hk
      cases (update_self k' _ _).symm.trans ht₁
      refine ⟨hok.buffer, fun typ => ?_, (fun _ hb => nomatch hb), (fun _ _ _ hb => nomatch hb),
        fun _ _ hb => nomatch hb⟩
      have hlog := hok.logged typ
      simp only [Task.baton, Task.logged] at hlog ⊢
      rw [List.mem_append, hlog, List.mem_singleton, Baton.name, Prod.mk.injEq]
      revert hlog
      cases b.typ <;> cases typ <;> simp
    · have hold := (update_of_ne hk _ _).symm.trans ht₁
      refine (h.tasks k' t₁ hold).keep (fun _ _ hr => hr) (fun typ => ?_) fun _ _ => rfl
      have hne := h.other ht hk hold
      rw [List.mem_append, or_iff_left]
      intro hmem
      exact hne (congrArg Prod.fst (List.mem_singleton.mp hmem))
  · simp only [names_snoc]
    obtain htask | hall := h.rest_update ht (.queued b) rfl n hn
    · exact .inl htask
    · exact .inr fun typ => List.mem_append_left _ (hall typ)
  · intro x hx
    rw [List.map_append, List.mem_append] at hx
    rcases hx with hold | hnew
    · exact h.quick x hold
    · cases List.mem_singleton.mp hnew
      exact hok.file b rfl
  · exact h.con.keep (fun _ _ hr => hr)
      (fun x hx => h.pushed x (List.mem_append_right _ (List.mem_append_left _ hx)))
      fun _ _ => rfl

/-- The last task of an event ends. -/
theorem Sound.finish (h : Sound led s done ns) (ht : s.tasks k = some t)
    (hall : ∀ typ, t.logged typ = true) :
    Sound led { s with tasks := update s.tasks k none } done ns := by
  have hold : ∀ k' t₁, update s.tasks k none k' = some t₁ → k' ≠ k ∧ s.tasks k' = some t₁ := by
    intro k' t₁ ht₁
    have hk : k' ≠ k := by
      rintro rfl
      exact nomatch (update_self k' _ _).symm.trans ht₁
    exact ⟨hk, (update_of_ne hk _ _).symm.trans ht₁⟩
  refine
    { alive := h.alive, queue := h.queue, nodup := h.nodup, ordered := h.ordered
      pushed := h.pushed, fresh := h.fresh, tasks := ?_, apart := ?_, rest := ?_
      quick := h.quick, con := ?_, hope := h.hope }
  · intro k' t₁ ht₁
    exact (h.tasks k' t₁ (hold k' t₁ ht₁).2).keep (fun _ _ hr => hr) (fun _ => Iff.rfl)
      fun _ _ => rfl
  · intro k₁ k₂ t₁ t₂ h₁ h₂ heq
    exact h.apart k₁ k₂ t₁ t₂ (hold k₁ t₁ h₁).2 (hold k₂ t₂ h₂).2 heq
  · intro n hn
    obtain ⟨k', t₁, ht₁, hn'⟩ | hmem := h.rest n hn
    · by_cases hk : k' = k
      · subst hk
        cases ht.symm.trans ht₁
        exact .inr fun typ => hn' ▸ ((h.tasks k' t ht).logged typ).mpr (hall typ)
      · exact .inl ⟨k', t₁, (update_of_ne hk _ _).trans ht₁, hn'⟩
    · exact .inr hmem
  · exact h.con.keep (fun _ _ hr => hr)
      (fun x hx => h.pushed x (List.mem_append_right _ (List.mem_append_left _ hx)))
      fun _ _ => rfl

theorem length_egzPushOva (ron : Ron) (seqD : UInt64) (typ : MsgType) :
    (egzPushOva ron seqD typ).length = ron.mallocW := by
  rw [egzPushOva_eq, List.length_append, length_bytes, ron.length_payload, ron.mallocW_eq]

/-- The first record of an event turns into the second. -/
theorem setClpr_egzPushOva (ron : Ron) (seqD : UInt64) (typ : MsgType) :
    setClpr (fun p => { p with msgTypeY := MsgType.postcommit.y }) (egzPushOva ron seqD typ)
      = egzPushOva ron seqD .postcommit := by
  rw [egzPushOva_eq, setClpr_bytes, egzPushOva_eq]
  rfl

/-- A task does its next step. -/
theorem Sound.run (h : Sound led s done ns) (ht : s.tasks k = some t) {p : Nat}
    (hs : s.run k p t = some s') : ∃ ns', Sound led s' done ns' := by
  have hok := h.tasks k t ht
  obtain ⟨ron, hron, hlen, hbob⟩ := hok.buffer
  cases t with
  | start b =>
      have hpos : ¬b.lenW = 0 := by
        rw [show b.lenW = ron.mallocW from hlen, ron.mallocW_eq]
        exact Nat.ne_of_gt (Nat.lt_add_right _ (by decide))
      rw [Egz.run, if_neg hpos] at hs
      cases hs
      refine ⟨ns, h.advance ht (.opened b) _ rfl (fun x hx => update_of_ne ?_ _ _)
        ⟨⟨ron, hron, hlen, hbob⟩, hok.logged, (fun _ hb => nomatch hb), (fun _ _ _ hb => nomatch hb),
          fun _ _ hb => nomatch hb⟩⟩
      rintro rfl
      exact hx.elim (hok.unlogged (by cases htyp : b.typ <;> simp [Task.logged, Task.baton, htyp]))
        fun hne => hne rfl
  | opened b =>
      cases hs
      refine ⟨ns, h.advance ht (.written b) _ rfl (fun x hx => update_of_ne ?_ _ _)
        ⟨⟨ron, hron, hlen, hbob⟩, hok.logged, fun b' hb => ?_, (fun _ _ _ hb => nomatch hb),
          fun _ _ hb => nomatch hb⟩⟩
      · rintro rfl
        exact hx.elim
          (hok.unlogged (by cases htyp : b.typ <;> simp [Task.logged, Task.baton, htyp]))
          fun hne => hne rfl
      · cases hb
        have hall : b.bobY.take b.lenW = b.bobY := by
          apply List.take_of_length_le
          rw [show b.bobY = _ from hbob, length_egzPushOva, show b.lenW = _ from hlen]
        simp only [update_self, hall]
        rw [Egz.record, show s.pushed b.name.1 = some ron from hron, show b.bobY = _ from hbob]
        rfl
  | written b =>
      obtain ⟨hp, hs⟩ := Option.ite_none_right_eq_some.mp hs
      cases hs
      exact ⟨_, h.enqueue ht hp⟩
  | queued b =>
      by_cases htyp : b.typ = .postcommit
      · rw [Egz.run, if_pos htyp] at hs
        cases hs
        exact ⟨ns, h.finish ht fun typ => by simp [Task.logged, htyp]⟩
      · rw [Egz.run, if_neg htyp] at hs
        obtain ⟨-, hs⟩ := Option.ite_none_left_eq_some.mp hs
        cases hs
        have hpre : b.typ = .precommit := by
          cases hb : b.typ with
          | precommit => rfl
          | postcommit => exact absurd hb htyp
        refine ⟨ns, (h.advance ht (.linking b p s.lastU) _ rfl (fun _ _ => rfl)
          ⟨⟨ron, hron, hlen, hbob⟩, fun typ => ?_, (fun _ hb => nomatch hb), fun b' p' l' hb => ?_,
            fun _ _ hb => nomatch hb⟩).handles _ _ _⟩
        · refine (hok.logged typ).trans ?_
          simp [Task.logged, hpre]
        · cases hb
          exact hpre
  | linking b asyncU prev =>
      have hpre := hok.linking b asyncU prev rfl
      cases hs
      refine ⟨ns, (h.advance ht (.async b asyncU) _ rfl (fun _ _ => rfl)
        ⟨⟨ron, hron, hlen, hbob⟩, hok.logged, (fun _ hb => nomatch hb), (fun _ _ _ hb => nomatch hb),
          fun b' p' hb => ?_⟩).handles _ _ _⟩
      cases hb
      exact hpre
  | async b asyncU =>
      have hpre := hok.async b asyncU rfl
      rw [Egz.run] at hs
      obtain ⟨-, hs⟩ := Option.ite_none_left_eq_some.mp hs
      rw [if_neg (not_not.mpr hpre)] at hs
      cases hs
      refine ⟨ns, (h.advance ht
        (.start
          { b with
            bobY := setClpr (fun p => { p with msgTypeY := MsgType.postcommit.y }) b.bobY
            typ := .postcommit })
        _ rfl (fun _ _ => rfl) ⟨⟨ron, hron, hlen, ?_⟩, fun typ => ?_, (fun _ hb => nomatch hb),
        (fun _ _ _ hb => nomatch hb), fun _ _ hb => nomatch hb⟩).handles _ _ _⟩
      · have hbob : b.bobY = egzPushOva ron (.ofNat b.seqD) b.typ := hbob
        simp only [Task.baton]
        rw [hbob, setClpr_egzPushOva]
      · refine (hok.logged typ).trans ?_
        simp [Task.logged]

/-- What the consolidator reads from the quick file of a record is the record. -/
theorem take_record (ron : Ron) (seqD : UInt64) (typ : MsgType) :
    c3w ((clprAt (egzPushOva ron seqD typ)).lenW.toNat + sizeofClpr)
      = (egzPushOva ron seqD typ).length := by
  rw [length_egzPushOva, egzPushOva_eq, clprAt_bytes]
  show c3w ((UInt32.ofNat ron.lenW).toNat + sizeofClpr) = ron.mallocW
  rw [ron.toNat_lenW]
  rfl

/-- The consolidator does its next step. -/
theorem Sound.consolidate (h : Sound led s done ns) (hs : s.consolidate = some s') :
    ∃ done' ns', Sound led s' done' ns' := by
  have hcon := h.con
  have hnodup := h.nodup
  have hordered := h.ordered
  have hpushed := h.pushed
  have htasks := h.tasks
  have hrest := h.rest
  rw [Egz.consolidate] at hs
  cases hc : s.con with
  | idle =>
      rw [hc] at hs hcon hnodup hordered hpushed htasks hrest
      simp only at hs
      cases ns with
      | nil =>
          rw [if_pos (h.queue.tail_none_iff.mpr rfl)] at hs
          cases hs
      | cons n ns =>
          obtain ⟨p, x⟩ := n
          have hne : ¬s.que.tailU = none := fun hnone => nomatch h.queue.tail_none_iff.mp hnone
          obtain ⟨q, hq, hns⟩ := h.queue.dequeue
          rw [if_neg hne, hq] at hs
          cases hs
          -- The first name of the queue is now in the hands of the consolidator.
          exact ⟨done, ns,
            { alive := h.alive, queue := hns, nodup := hnodup, ordered := hordered
              pushed := hpushed, fresh := h.fresh
              tasks := fun k t ht => (htasks k t ht).keep (fun _ _ hr => hr) (fun _ => Iff.rfl)
                fun _ _ => rfl
              apart := h.apart, rest := hrest
              quick := fun y hy => h.quick y (List.mem_cons_of_mem _ hy)
              con := h.quick x List.mem_cons_self, hope := h.hope }⟩
  | took x =>
      rw [hc] at hs hcon hnodup hordered hpushed htasks hrest
      have hfile : s.quick x = some (s.record x) := hcon
      obtain ⟨ron, hron⟩ := Option.isSome_iff_exists.mp
        (hpushed x (List.mem_append_right _ List.mem_cons_self))
      have hrec : s.record x = egzPushOva ron (.ofNat x.1) x.2 := by
        rw [Egz.record, hron]
        rfl
      simp only [hfile, hrec, take_record, List.take_length, lt_irrefl, or_false] at hs
      rw [if_neg (by rw [length_egzPushOva, ron.mallocW_eq]; omega)] at hs
      cases hs
      exact ⟨done, ns,
        { alive := h.alive, queue := h.queue, nodup := hnodup, ordered := hordered
          pushed := hpushed, fresh := h.fresh
          tasks := fun k t ht => (htasks k t ht).keep (fun _ _ hr => hr) (fun _ => Iff.rfl)
            fun _ _ => rfl
          apart := h.apart, rest := hrest, quick := h.quick, con := hrec.symm, hope := h.hope }⟩
  | read x data =>
      rw [hc] at hs hcon hnodup hordered hpushed htasks hrest
      cases hs
      have hnames : names (.wrote x) (done ++ [x]) ns = names (.read x data) done ns := by
        simp [names, Con.held]
      refine ⟨done ++ [x], ns,
        { alive := h.alive, queue := h.queue, nodup := hnames ▸ hnodup, ordered := hnames ▸ hordered
          pushed := hnames ▸ hpushed, fresh := h.fresh, tasks := fun k t ht => ?_
          apart := h.apart, rest := hnames ▸ hrest, quick := h.quick
          con := List.mem_append_right _ (List.mem_singleton_self x), hope := ?_ }⟩
      · refine (htasks k t ht).keep (fun _ _ hr => hr) (fun typ => ?_) fun _ _ => rfl
        exact hnames ▸ Iff.rfl
      · have hdata : data = s.record x := hcon
        show s.hope ++ data = _
        rw [h.hope, hdata, List.map_append, List.flatten_append, List.append_assoc]
        simp
        rfl
  | wrote x =>
      rw [hc] at hs hcon hnodup hordered hpushed htasks hrest
      cases hs
      have hx : x ∈ done := hcon
      have hout : x ∉ ns.map (·.2) := fun hmem =>
        (List.nodup_append.mp hnodup).2.2 x hx x (List.mem_append_right _ hmem) rfl
      refine ⟨done, ns,
        { alive := h.alive, queue := h.queue, nodup := hnodup, ordered := hordered
          pushed := hpushed, fresh := h.fresh, tasks := fun k t ht => ?_
          apart := h.apart, rest := hrest, quick := fun y hy => ?_, con := trivial
          hope := h.hope }⟩
      · refine (htasks k t ht).keep (fun _ _ hr => hr) (fun _ => Iff.rfl) fun b hb => ?_
        -- The task of a name that is in the file does not write its quick file again.
        have hname : b.name ∉ names (.wrote x) done ns := by
          subst hb
          exact (htasks k _ ht).unlogged
            (by cases htyp : b.typ <;> simp [Task.logged, Task.baton, htyp])
        have hne : b.name ≠ x := by
          rintro rfl
          exact hname (List.mem_append_left _ hx)
        exact update_of_ne hne _ _
      · have hne : y ≠ x := by
          rintro rfl
          exact hout hy
        exact (update_of_ne hne _ _).trans (h.quick y hy)

theorem Sound.next (h : Sound led s done ns) {a : Action} (hs : step a s = some s') :
    ∃ done' ns', Sound led s' done' ns' := by
  unfold step at hs
  rw [if_neg (by rw [h.alive]; exact Bool.false_ne_true)] at hs
  cases a with
  | push k ron => exact ⟨done, ns, h.push hs⟩
  | task k p =>
      obtain ⟨t, ht, hs⟩ := Option.bind_eq_some_iff.mp hs
      obtain ⟨ns', h'⟩ := h.run ht hs
      exact ⟨done, ns', h'⟩
  | consolidate => exact h.consolidate hs
  | reuse p =>
      obtain ⟨-, hs⟩ := Option.ite_none_left_eq_some.mp hs
      cases hs
      exact ⟨done, ns, h.handles _ _ _⟩

theorem sound_init (led : List UInt8) (entD : Nat) (quick : Name → Option (List UInt8)) :
    Sound led (Egz.init led entD quick) [] [] where
  alive := rfl
  queue := linked_nil _
  nodup := List.nodup_nil
  ordered := .nil
  pushed := fun _ hx => nomatch hx
  fresh := fun _ _ => rfl
  tasks := fun _ _ ht => nomatch ht
  apart := fun _ _ _ _ ht => nomatch ht
  rest := fun _ hn => nomatch hn
  quick := fun _ hx => nomatch hx
  con := trivial
  hope := (List.append_nil led).symm

/-! ### The handles -/

/-- The step leaves every handle in the list: `uv_async_init` finds the end where it read it and
has memory that is not in the list, and no such memory is given away. -/
def inTurn (s : Egz) : Action → Bool
  | .push .. | .consolidate => true
  | .task k _ =>
      match s.tasks k with
      | some (.linking _ asyncU prev) => prev = s.lastU && asyncU ∉ s.asyncHandles
      | _ => true
  | .reuse p => p ∉ s.asyncHandles

/-- A walk through the list finds the handle of every baton that was sent. -/
structure Handed (s : Egz) : Prop where
  nodup : s.asyncHandles.Nodup
  last : s.lastU = s.asyncHandles.getLast?
  sent : ∀ k b asyncU, s.tasks k = some (.async b asyncU) → asyncU ∈ s.asyncHandles

theorem insertTail_last {xs : List Nat} {x q : Nat} (hnodup : xs.Nodup) (hx : x ∉ xs)
    (hq : xs.getLast? = some q) : insertTail q x xs = xs ++ [x] := by
  induction xs with
  | nil => cases hq
  | cons y ys ih =>
      obtain ⟨hy, hys⟩ := List.nodup_cons.mp hnodup
      obtain ⟨hne, hxs⟩ := not_or.mp (mt List.mem_cons.mpr hx)
      rw [insertTail, if_neg (Ne.symm hne)]
      cases ys with
      | nil =>
          cases hq
          exact if_pos rfl
      | cons z zs =>
          rw [List.getLast?_cons_cons] at hq
          have hmem : q ∈ z :: zs := List.mem_of_getLast? hq
          have hneq : ¬y = q := fun heq => hy (heq ▸ hmem)
          rw [if_neg hneq, ih hys hxs hq]
          rfl

/-- A task goes on, and the list stays. -/
theorem Handed.update (h : Handed s) {o : Option Task} (htasks : s'.tasks = update s.tasks k o)
    (ho : ∀ b asyncU, o = some (.async b asyncU) → asyncU ∈ s.asyncHandles)
    (hlist : s'.asyncHandles = s.asyncHandles) (hlast : s'.lastU = s.lastU) : Handed s' where
  nodup := hlist ▸ h.nodup
  last := by rw [hlast, hlist, h.last]
  sent k' b asyncU ht := by
    rw [hlist]
    rw [htasks] at ht
    by_cases hk : k' = k
    · subst hk
      exact ho b asyncU ((update_self k' _ _).symm.trans ht)
    · exact h.sent k' b asyncU ((update_of_ne hk _ _).symm.trans ht)

theorem Handed.run (h : Handed s) (ht : s.tasks k = some t) {p : Nat}
    (hturn : inTurn s (.task k p) = true) (hs : s.run k p t = some s') : Handed s' := by
  cases t with
  | start b =>
      rw [Egz.run] at hs
      split at hs <;> cases hs
      · exact ⟨h.nodup, h.last, h.sent⟩
      · exact h.update rfl (fun _ _ ho => nomatch ho) rfl rfl
  | opened b =>
      cases hs
      exact h.update rfl (fun _ _ ho => nomatch ho) rfl rfl
  | written b =>
      obtain ⟨-, hs⟩ := Option.ite_none_right_eq_some.mp hs
      cases hs
      exact h.update rfl (fun _ _ ho => nomatch ho) rfl rfl
  | queued b =>
      rw [Egz.run] at hs
      split at hs
      · cases hs
        exact h.update rfl (fun _ _ ho => nomatch ho) rfl rfl
      · obtain ⟨-, hs⟩ := Option.ite_none_left_eq_some.mp hs
        cases hs
        exact h.update rfl (fun _ _ ho => nomatch ho) rfl rfl
  | linking b asyncU prev =>
      simp only [inTurn, ht, Bool.and_eq_true, decide_eq_true_eq] at hturn
      obtain ⟨rfl, hnew⟩ := hturn
      -- the new node comes behind all the others
      have hlist : (s.lastU.elim [asyncU] fun q => insertTail q asyncU s.asyncHandles)
          = s.asyncHandles ++ [asyncU] := by
        rw [h.last]
        cases hl : s.asyncHandles.getLast? with
        | none => rw [List.getLast?_eq_none_iff.mp hl]; rfl
        | some q => exact insertTail_last h.nodup hnew hl
      rw [Egz.run, hlist] at hs
      cases hs
      refine ⟨?_, List.getLast?_concat.symm, fun k' b' p' ht' => ?_⟩
      · exact List.nodup_append.mpr ⟨h.nodup, List.nodup_singleton _, fun x hx y hy heq =>
          hnew (List.mem_singleton.mp hy ▸ heq ▸ hx)⟩
      · by_cases hk : k' = k
        · subst hk
          cases (update_self k' _ _).symm.trans ht'
          exact List.mem_append_right _ (List.mem_singleton_self _)
        · exact List.mem_append_left _ (h.sent k' b' p' ((update_of_ne hk _ _).symm.trans ht'))
  | async b asyncU =>
      rw [Egz.run] at hs
      obtain ⟨-, hs⟩ := Option.ite_none_left_eq_some.mp hs
      split at hs <;> cases hs
      · exact ⟨h.nodup, h.last, h.sent⟩
      · exact h.update rfl (fun _ _ ho => nomatch ho) rfl rfl

theorem consolidate_tasks (hs : s.consolidate = some s') :
    s'.tasks = s.tasks ∧ s'.pushed = s.pushed ∧ s'.asyncHandles = s.asyncHandles ∧
      s'.lastU = s.lastU := by
  unfold Egz.consolidate at hs
  split at hs
  · split at hs
    · cases hs
    · split at hs <;> cases hs <;> exact ⟨rfl, rfl, rfl, rfl⟩
  · split at hs
    · cases hs
      exact ⟨rfl, rfl, rfl, rfl⟩
    · dsimp only at hs
      split at hs <;> cases hs <;> exact ⟨rfl, rfl, rfl, rfl⟩
  · cases hs
    exact ⟨rfl, rfl, rfl, rfl⟩
  · cases hs
    exact ⟨rfl, rfl, rfl, rfl⟩

theorem Handed.next (h : Handed s) {a : Action} (hturn : inTurn s a = true)
    (hs : step a s = some s') : Handed s' := by
  unfold step at hs
  obtain ⟨-, hs⟩ := Option.ite_none_left_eq_some.mp hs
  cases a with
  | push k ron =>
      obtain ⟨-, hs⟩ := Option.ite_none_right_eq_some.mp hs
      cases hs
      exact h.update rfl (fun _ _ ho => nomatch ho) rfl rfl
  | task k p =>
      obtain ⟨t, ht, hs⟩ := Option.bind_eq_some_iff.mp hs
      exact h.run ht hturn hs
  | consolidate =>
      obtain ⟨htasks, -, hlist, hlast⟩ := consolidate_tasks hs
      exact ⟨hlist ▸ h.nodup, by rw [hlast, hlist, h.last], fun k b p ht =>
        hlist ▸ h.sent k b p (htasks ▸ ht)⟩
  | reuse p =>
      obtain ⟨-, hs⟩ := Option.ite_none_left_eq_some.mp hs
      cases hs
      have hp : p ∉ s.asyncHandles := by simpa [inTurn] using hturn
      have hall : s.asyncHandles.takeWhile (· ≠ p) = s.asyncHandles :=
        List.takeWhile_eq_self_iff.mpr fun x hx => decide_eq_true fun heq => hp (heq ▸ hx)
      exact ⟨by rw [hall]; exact h.nodup, by rw [hall]; exact h.last,
        fun k b q ht => by rw [hall]; exact h.sent k b q ht⟩

end steps

end Vere.Log
