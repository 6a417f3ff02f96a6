import Vere.Log.Work

/-!
# Vere.Log.Kicks

Which effects the work loop kicks, and in which order.

One pass of the loop pokes all planned events, and leaves an entry for each that was
applied (`pokeAll_post`). The next pass logs the entries that have an event and kicks
their effects (`logAll_post`). An event that does not change the core leaves an entry
without an event, and the effects of that one are not kicked. So what is kicked in a run
are the effects of the events that changed the core (`Sure.emit`), and these are all
effects exactly if no other event had any (`kicked_iff`).
-/

namespace Vere.Log

open Vere.Lib Function

/-- How a part of the work loop ends: well, or not by an assertion. -/
def Post {α : Type} (Q : α → Reck → Prop) : Res Halt α × Reck → Prop
  | (.ok a, s) => Q a s
  | (.stop e, _) => e ≠ .assert
  | (.spent, _) => True

section Post

variable {α β : Type} {x : Work α} {f : α → Work β} {s : Reck} {Q Q' : α → Reck → Prop}
  {R : β → Reck → Prop}

theorem post_bind (hx : Post Q (x.run s)) (hf : ∀ a t, Q a t → Post R ((f a).run t)) :
    Post R ((x >>= f).run s) := by
  rw [Run.run_bind]
  revert hx
  rcases x.run s with ⟨r, t⟩
  intro hx
  cases r with
  | ok a => exact hf a t hx
  | stop e => exact hx
  | spent => trivial

theorem Post.imp {r : Res Halt α × Reck} (h : Post Q r) (hq : ∀ a t, Q a t → Q' a t) :
    Post Q' r := by
  obtain ⟨r, t⟩ := r
  cases r with
  | ok a => exact hq a t h
  | stop e => exact h
  | spent => trivial

end Post

/-! ### Poking -/

/-- The entry an event leaves in `roe`. -/
def Sure.entry (u : Sure) : Roe := (u.vir, if u.changed then some u.ovo else none)

/-- From `s` to `s'` the events `us` were applied, and nothing else happened. -/
structure Poked (s : Reck) (us : List Sure) (s' : Reck) : Prop where
  sures : s'.sures = s.sures ++ us
  roe : s'.roe = (us.map Sure.entry).reverse ++ s.roe
  ops : s'.ops = s.ops
  cell : s'.cell = s.cell
  eggU : s'.eggU = s.eggU
  gegU : s'.gegU = s.gegU
  brk : s'.brk = s.brk

section Poked

variable {s s' s'' : Reck} {us us' : List Sure}

theorem Poked.refl (s : Reck) : Poked s [] s :=
  ⟨(List.append_nil _).symm, rfl, rfl, rfl, rfl, rfl, rfl⟩

theorem Poked.trans (h : Poked s us s') (h' : Poked s' us' s'') : Poked s (us ++ us') s'' where
  sures := by rw [h'.sures, h.sures, List.append_assoc]
  roe := by rw [h'.roe, h.roe, List.map_append, List.reverse_append, List.append_assoc]
  ops := h'.ops.trans h.ops
  cell := h'.cell.trans h.cell
  eggU := h'.eggU.trans h.eggU
  gegU := h'.gegU.trans h.gegU
  brk := h'.brk.trans h.brk

variable (arvo : Arvo)

theorem run_tickUp (s : Reck) : tickUp.run s = (.ok s.tick, { s with tick := s.tick + 1 }) := rfl

theorem soft_post (cor ovo : Noun) (s : Reck) :
    Post (fun _ s' => Poked s [] s') ((soft arvo cor ovo).run s) :=
  ⟨(List.append_nil _).symm, rfl, rfl, rfl, rfl, rfl, rfl⟩

theorem sure_post (ovo : Noun) (vir : List Noun) (cor : Noun) (s : Reck) :
    Post (fun _ s' => ∃ u, Poked s [u] s') ((sure ovo vir cor).run s) := by
  rw [sure, Run.run_modify]
  split
  · exact ⟨⟨ovo, vir, true⟩, rfl, rfl, rfl, rfl, rfl, rfl, rfl⟩
  · exact ⟨⟨ovo, vir, false⟩, rfl, rfl, rfl, rfl, rfl, rfl, rfl⟩

theorem nick_post (fuel : Nat) (vir : List Noun) (cor : Noun) (s : Reck) :
    Post (fun _ s' => Poked s [] s') ((nick arvo fuel vir cor).run s) := by
  induction fuel generalizing vir cor s with
  | zero => trivial
  | succ fuel ih =>
      cases vir with
      | nil => exact Poked.refl s
      | cons i vir =>
          rw [nick]
          split
          · refine post_bind (soft_post arvo cor i s) fun gon t ht => ?_
            cases gon with
            | error e => exact ht
            | ok r => exact (ih (r.1 ++ vir) r.2 t).imp fun _ _ h => ht.trans h
          · refine post_bind (ih vir cor s) fun nez t ht => ?_
            cases nez with
            | error e => exact ht
            | ok r => exact ht

/-- After calls that apply nothing, an event is applied. -/
theorem Poked.sure (h : Poked s [] s') (ovo : Noun) (vir : List Noun) (cor : Noun) :
    Post (fun _ s'' => ∃ u, Poked s [u] s'') ((sure ovo vir cor).run s') :=
  (sure_post ovo vir cor s').imp fun _ _ ⟨u, hu⟩ => ⟨u, h.trans hu⟩

theorem lame_post (ovo why tan : Noun) (h : Poked s [] s') :
    Post (fun _ s'' => ∃ u, Poked s [u] s'') ((lame arvo ovo why tan).run s') := by
  unfold lame
  split
  · rw [Run.run_read_bind]
    refine post_bind (soft_post arvo s'.roc _ s') fun gon t ht => ?_
    cases gon with
    | ok r => exact (h.trans ht).sure _ r.1 r.2
    | error e =>
        rw [Run.run_read_bind]
        refine post_bind (soft_post arvo t.roc _ t) fun nog t' ht' => ?_
        cases nog with
        | ok r => exact ((h.trans ht).trans ht').sure _ r.1 r.2
        | error e => exact fun he => nomatch he
  · exact fun he => nomatch he

/-- One event is applied: the one that was planned, or the news of its failure. -/
theorem punk_post (fuel : Nat) (ovo : Noun) (s : Reck) :
    Post (fun _ s' => ∃ u, Poked s [u] s') ((punk arvo fuel ovo).run s) := by
  unfold punk
  split
  · rw [Run.run_read_bind]
    refine post_bind (soft_post arvo s.roc _ s) fun gon t ht => ?_
    cases gon with
    | error e => exact lame_post arvo _ e.1 e.2 ht
    | ok r =>
        refine post_bind (nick_post arvo fuel r.1 r.2 t) fun nug t' ht' => ?_
        cases nug with
        | error e => exact lame_post arvo _ e.1 e.2 (ht.trans ht')
        | ok r => exact (ht.trans ht').sure _ r.1 r.2
  · exact fun he => nomatch he

/-- Each planned event leaves one entry, in the order they were planned. -/
theorem pokeAll_post (fuel : Nat) (ova : List Roe) (hova : ∀ r ∈ ova, r.1 = []) (s : Reck) :
    Post (fun _ s' => ∃ us, us.length = ova.length ∧ Poked s us s')
      ((pokeAll arvo fuel ova).run s) := by
  induction ova generalizing s with
  | nil => exact ⟨[], rfl, .refl s⟩
  | cons r ova ih =>
      obtain ⟨vir, ovo⟩ := r
      have hvir : vir = [] := hova _ List.mem_cons_self
      subst hvir
      cases ovo with
      | none => exact fun he => nomatch he
      | some ovo =>
          refine post_bind (punk_post arvo fuel ovo s) fun _ t ht => ?_
          obtain ⟨u, hu⟩ := ht
          refine (ih (fun r hr => hova r (List.mem_cons_of_mem _ hr)) t).imp fun _ t' ht' => ?_
          obtain ⟨us, hlen, hus⟩ := ht'
          exact ⟨u :: us, by rw [List.length_cons, hlen, List.length_cons], hu.trans hus⟩

end Poked

/-! ### The queue of cartons -/

/-- The cartons of the queue are linked, and cartons to come have room. -/
structure Eggs (s : Reck) (ns : List (Nat × Cart)) : Prop where
  linked : Linked s.cell s.eggU s.gegU ns
  room : ∀ p, s.brk ≤ p → s.cell p = none
  few : ns.length ≤ s.brk

section Eggs

variable {s s' : Reck} {ns : List (Nat × Cart)}

theorem Eggs.keep (h : Eggs s ns) (hcell : s'.cell = s.cell) (hegg : s'.eggU = s.eggU)
    (hgeg : s'.gegU = s.gegU) (hbrk : s'.brk = s.brk) : Eggs s' ns where
  linked := by rw [hcell, hegg, hgeg]; exact h.linked
  room := by rw [hcell, hbrk]; exact h.room
  few := by rw [hbrk]; exact h.few

theorem room_update {cell : Nat → Option (Node Cart)} {p : Nat}
    (h : ∀ q, p ≤ q → cell q = none) (v : Option (Node Cart)) (q : Nat) (hq : p + 1 ≤ q) :
    update cell p v q = none :=
  (update_of_ne (by omega) _ _).trans (h q (by omega))

/-- A carton enters the queue at the first address that is free. -/
theorem enter_post (h : Eggs s ns) (egg : Cart) :
    ∃ cell egg' geg, (enter egg).run s = (.ok s.brk, { s with
        brk := s.brk + 1, cell := cell, eggU := egg', gegU := geg }) ∧
      Eggs { s with brk := s.brk + 1, cell := cell, eggU := egg', gegU := geg }
        (ns ++ [(s.brk, egg)]) := by
  have hfresh := h.room s.brk (Nat.le_refl _)
  cases hgeg : s.gegU with
  | none =>
      have hnil := h.linked.tail_none_iff.mp hgeg
      have hegg := h.linked.head_none_iff.mpr hnil
      subst hnil
      refine ⟨update s.cell s.brk (some ⟨egg, none⟩), some s.brk, some s.brk, ?_,
        linked_single .., room_update h.room _, ?_⟩
      · simp [enter, hgeg, hegg]
      · exact Nat.le_add_left ..
  | some t =>
      have hlinked : Linked s.cell s.eggU (some t) ns := hgeg ▸ h.linked
      obtain ⟨x, hx, hpush⟩ := hlinked.push hfresh egg
      refine ⟨update (update s.cell s.brk (some ⟨egg, none⟩)) t (some ⟨x, some s.brk⟩), s.eggU,
        some s.brk, ?_, hpush, ?_, ?_⟩
      · simp [enter, hgeg, hx]
      · intro q hq
        have hq : s.brk + 1 ≤ q := hq
        have hne : q ≠ t := by
          rintro rfl
          exact nomatch hx.symm.trans (h.room q (by omega))
        exact (update_of_ne hne _ _).trans (room_update h.room _ q hq)
      · rw [List.length_append]
        exact Nat.add_le_add_right h.few 1

/-- A carton of the queue is marked. -/
theorem Eggs.mark (h : Eggs s ns) {p : Nat} {n : Node Cart} (hp : s.cell p = some n)
    (egg : Cart) :
    Eggs { s with cell := update s.cell p (some { n with val := egg }) }
      (ns.map fun m => if m.1 = p then (p, egg) else m) where
  linked := h.linked.modify hp egg
  room := by
    intro q hq
    have hne : q ≠ p := by
      rintro rfl
      exact nomatch hp.symm.trans (h.room q hq)
    exact (update_of_ne hne _ _).trans (h.room q hq)
  few := by
    rw [List.length_map]
    exact h.few

/-- Finished events are deleted from the head of the queue on. -/
theorem deleteDone_run (h : Eggs s ns) (fuel : Nat) (hfuel : ns.length < fuel) :
    ∃ cell egg' geg ns', (deleteDone fuel).run s = (.ok (), { s with
        cell := cell, eggU := egg', gegU := geg }) ∧
      Eggs { s with cell := cell, eggU := egg', gegU := geg } ns' := by
  induction fuel generalizing s ns with
  | zero => exact absurd hfuel (Nat.not_lt_zero _)
  | succ fuel ih =>
      cases ns with
      | nil =>
          refine ⟨s.cell, s.eggU, s.gegU, [], ?_, h⟩
          show (deleteDone (fuel + 1)).run s = (.ok (), s)
          simp [deleteDone, h.linked.head_none_iff.mpr rfl]
      | cons n ns =>
          obtain ⟨p, egg⟩ := n
          obtain ⟨hhead, hcell, htail, hpop⟩ := h.linked.pop
          by_cases hdone : egg.done = true
          · have hroom : ∀ q, s.brk ≤ q → update s.cell p none q = none := by
              intro q hq
              by_cases hqp : q = p
              · rw [hqp, update_self]
              · exact (update_of_ne hqp _ _).trans (h.room q hq)
            have hlen : ns.length < fuel := Nat.lt_of_succ_lt_succ hfuel
            have hfew : ns.length ≤ s.brk := Nat.le_of_succ_le h.few
            have hnext : first ns = none ↔ ns = [] := by
              cases ns <;> simp [first]
            -- The last carton empties the queue, another one leaves the next at its head.
            by_cases hnil : ns = []
            · have hs' : Eggs { s with cell := update s.cell p none, eggU := none, gegU := none }
                  ns := by
                refine ⟨?_, hroom, hfew⟩
                rw [if_pos hnil, hnext.mpr hnil] at hpop
                exact hpop
              obtain ⟨cell, egg', geg, ns', hrun, hns'⟩ := ih hs' hlen
              refine ⟨cell, egg', geg, ns', ?_, hns'⟩
              rw [← hrun]
              simp [deleteDone, hhead, hcell, hdone, htail.mpr hnil, hnext.mpr hnil]
            · have hs' : Eggs { s with cell := update s.cell p none, eggU := first ns } ns := by
                refine ⟨?_, hroom, hfew⟩
                rw [if_neg hnil] at hpop
                exact hpop
              obtain ⟨cell, egg', geg, ns', hrun, hns'⟩ := ih hs' hlen
              refine ⟨cell, egg', geg, ns', ?_, hns'⟩
              rw [← hrun]
              have hgeg : s.gegU ≠ some p := fun hg => hnil (htail.mp hg)
              have hsome : first ns ≠ none := fun hf => hnil (hnext.mp hf)
              simp [deleteDone, hhead, hcell, hdone, hgeg, hsome]
          · refine ⟨s.cell, s.eggU, s.gegU, (p, egg) :: ns, ?_, h⟩
            show (deleteDone (fuel + 1)).run s = (.ok (), s)
            simp [deleteDone, hhead, hcell, hdone]

end Eggs

/-! ### Kicking -/

/-- What logging an entry does to the outside. -/
def entryOps : Roe → List Op
  | (_, none) => []
  | (vir, some ovo) => .push ovo :: vir.map .kick

/-- From `s` to `s'` the main thread did `ops` to the outside, and events were planned. -/
structure Done (s : Reck) (ops : List Op) (s' : Reck) : Prop where
  ops : s'.ops = s.ops ++ ops
  sures : s'.sures = s.sures
  roe : ∃ eggs : List Noun, s'.roe = eggs.map (fun egg => ([], some egg)) ++ s.roe

section Done

variable {s s' s'' : Reck} {ops ops' : List Op}

theorem Done.refl (s : Reck) : Done s [] s := ⟨(List.append_nil _).symm, rfl, [], rfl⟩

theorem Done.trans (h : Done s ops s') (h' : Done s' ops' s'') : Done s (ops ++ ops') s'' where
  ops := by rw [h'.ops, h.ops, List.append_assoc]
  sures := h'.sures.trans h.sures
  roe := by
    obtain ⟨eggs, heggs⟩ := h.roe
    obtain ⟨eggs', heggs'⟩ := h'.roe
    exact ⟨eggs' ++ eggs, by rw [heggs', heggs, List.map_append, List.append_assoc]⟩

/-- The queue of cartons is left alone. -/
def SameEggs (s s' : Reck) : Prop :=
  s'.cell = s.cell ∧ s'.eggU = s.eggU ∧ s'.gegU = s.gegU ∧ s'.brk = s.brk

theorem plan_done (egg : Noun) (s : Reck) : Done s [] (plan egg s) ∧ SameEggs s (plan egg s) := by
  unfold plan
  split
  · exact ⟨⟨(List.append_nil _).symm, rfl, [egg], rfl⟩, rfl, rfl, rfl, rfl⟩
  · exact ⟨.refl s, rfl, rfl, rfl, rfl⟩

theorem SameEggs.trans (h : SameEggs s s') (h' : SameEggs s' s'') : SameEggs s s'' :=
  ⟨h'.1.trans h.1, h'.2.1.trans h.2.1, h'.2.2.1.trans h.2.2.1, h'.2.2.2.trans h.2.2.2⟩

theorem planAll_done (eggs : List Noun) (s : Reck) :
    Done s [] (eggs.foldl (fun s egg => plan egg s) s) ∧
      SameEggs s (eggs.foldl (fun s egg => plan egg s) s) := by
  induction eggs generalizing s with
  | nil => exact ⟨.refl s, rfl, rfl, rfl, rfl⟩
  | cons egg eggs ih =>
      obtain ⟨hd, he⟩ := plan_done egg s
      obtain ⟨hd', he'⟩ := ih (plan egg s)
      exact ⟨hd.trans hd', he.trans he'⟩

variable (arvo : Arvo)

theorem kickAll_post (vir : List Noun) (s : Reck) :
    Post (fun _ s' => Done s (vir.map .kick) s' ∧ SameEggs s s') ((kickAll arvo vir).run s) := by
  induction vir generalizing s with
  | nil => exact ⟨.refl s, rfl, rfl, rfl, rfl⟩
  | cons ovo vir ih =>
      rw [kickAll, Run.run_modify_bind, Run.run_bind, run_tickUp]
      simp only
      cases arvo.kick s.tick ovo with
      | none => exact fun he => nomatch he
      | some eggs =>
          simp only [Run.run_modify_bind]
          obtain ⟨hd, he⟩ := planAll_done eggs
            { s with ops := s.ops ++ [.kick ovo], tick := s.tick + 1 }
          refine (ih _).imp fun _ t ht => ?_
          have hk : Done s [.kick ovo] { s with ops := s.ops ++ [.kick ovo], tick := s.tick + 1 } :=
            ⟨rfl, rfl, [], rfl⟩
          exact ⟨hk.trans (hd.trans ht.1), he.trans ht.2⟩

/-- Entries that have an event are logged and their effects kicked, in their order. -/
theorem logAll_post {ns : List (Nat × Cart)} (rs : List Roe) (h : Eggs s ns) :
    Post (fun _ s' => Done s (rs.map entryOps).flatten s' ∧ ∃ ns', Eggs s' ns')
      ((logAll arvo rs).run s) := by
  induction rs generalizing s ns with
  | nil => exact ⟨.refl s, ns, h⟩
  | cons r rs ih =>
      obtain ⟨vir, ovo⟩ := r
      cases ovo with
      | none =>
          rw [logAll]
          exact ih h
      | some ovo =>
          rw [logAll, Run.run_read_bind, Run.run_modify_bind]
          have hpush : Done s [.push ovo] { s with
              entD := s.entD + 1, ops := s.ops ++ [.push ovo] } := ⟨rfl, rfl, [], rfl⟩
          have hs₁ : Eggs { s with entD := s.entD + 1, ops := s.ops ++ [.push ovo] } ns :=
            h.keep rfl rfl rfl rfl
          obtain ⟨cell, egg', geg, hrun, hs₂⟩ := enter_post hs₁ ⟨vir, false, false, s.entD⟩
          rw [Run.run_bind, hrun]
          refine post_bind (kickAll_post arvo vir _) fun _ s₃ h₃ => ?_
          obtain ⟨hkick, hcell, hegg, hgeg, hbrk⟩ := h₃
          have hs₃ := hs₂.keep hcell hegg hgeg hbrk
          obtain ⟨n, hn⟩ : ∃ n, s₃.cell s.brk = some n := by
            refine Option.ne_none_iff_exists'.mp (hs₃.linked.strung.mem ?_)
            exact List.mem_map.mpr ⟨_, List.mem_append_right _ (List.mem_singleton_self _), rfl⟩
          rw [Run.run_modify_bind]
          have hs₄ := hs₃.mark hn { n.val with done := true }
          simp only [hn, Option.map_some]
          refine (ih hs₄).imp fun _ s₅ h₅ => ?_
          obtain ⟨hrest, hns⟩ := h₅
          have hkicked : Done s (entryOps (vir, some ovo)) { s₃ with
              cell := update s₃.cell s.brk (some { n with val := { n.val with done := true } }) } :=
            let hd := hpush.trans ⟨hkick.ops, hkick.sures, hkick.roe⟩
            ⟨hd.ops, hd.sures, hd.roe⟩
          exact ⟨hkicked.trans ⟨hrest.ops, hrest.sures, hrest.roe⟩, hns⟩

end Done

/-! ### Runs -/

/-- What an event that was applied should do to the outside, as the loop does it. -/
def Sure.emit (u : Sure) : List Op := if u.changed then .push u.ovo :: u.vir.map .kick else []

/-- Between two callbacks. -/
structure Calm (s : Reck) : Prop where
  eggs : ∃ ns, Eggs s ns
  planned : ∀ r ∈ s.roe, r.1 = []
  ops : s.ops = (s.sures.map Sure.emit).flatten

section Calm

variable {arvo : Arvo} {s s' : Reck} {roc : Noun} {entD : Nat}

theorem entryOps_entry (u : Sure) : entryOps u.entry = u.emit := by
  cases hc : u.changed <;> simp [Sure.entry, Sure.emit, entryOps, hc]

/-- The work loop. No assertion fails but the one on a server that does not lead. -/
theorem Calm.raftWork (h : Calm s) (fuel : Nat) :
    Post (fun _ s' => Calm s') ((raftWork arvo fuel).run s) := by
  obtain ⟨ns, hns⟩ := h.eggs
  rw [Log.raftWork, Run.run_read_bind]
  simp only [id]
  split
  · by_cases hegg : s.eggU ≠ none
    · rw [if_pos hegg]
      exact fun he => nomatch he
    · rw [if_neg hegg]
      exact ⟨⟨ns, hns.keep rfl rfl rfl rfl⟩, (fun _ hr => nomatch hr), h.ops⟩
  · obtain ⟨cell, egg', geg, ns', hrun, hns'⟩ :=
      deleteDone_run hns (s.brk + 1) (Nat.lt_succ_of_le hns.few)
    rw [Run.run_bind, hrun]
    simp only
    split
    · exact ⟨⟨ns', hns'⟩, h.planned, h.ops⟩
    · rw [Run.run_modify_bind]
      have hova : ∀ r ∈ s.roe.reverse, r.1 = [] := fun r hr => h.planned r (List.mem_reverse.mp hr)
      refine post_bind (pokeAll_post arvo fuel s.roe.reverse hova _) fun _ t ht => ?_
      obtain ⟨us, -, hus⟩ := ht
      have ht' : Eggs t ns' := hns'.keep hus.cell hus.eggU hus.gegU hus.brk
      have hroe : t.roe.reverse = us.map Sure.entry := by
        rw [hus.roe, List.append_nil, List.reverse_reverse]
      rw [Run.run_read_bind, Run.run_modify_bind, hroe]
      refine (logAll_post arvo (us.map Sure.entry)
        (ht'.keep rfl rfl rfl rfl : Eggs { t with roe := [] } ns')).imp fun _ t' h' => ?_
      obtain ⟨hdone, hns''⟩ := h'
      obtain ⟨eggs, heggs⟩ := hdone.roe
      refine ⟨hns'', fun r hr => ?_, ?_⟩
      · rw [heggs, List.append_nil] at hr
        obtain ⟨egg, -, rfl⟩ := List.mem_map.mp hr
        rfl
      · have hmap : (us.map Sure.entry).map entryOps = us.map Sure.emit := by
          rw [List.map_map]
          exact List.map_congr_left fun u _ => entryOps_entry u
        have hops : t'.ops = t.ops ++ ((us.map Sure.entry).map entryOps).flatten := hdone.ops
        have hsures : t'.sures = t.sures := hdone.sures
        rw [hops, hsures, hmap, hus.ops, hus.sures, List.map_append, List.flatten_append]
        exact congrArg (· ++ _) h.ops

theorem Calm.plan (h : Calm s) (egg : Noun) : Calm (plan egg s) := by
  obtain ⟨ns, hns⟩ := h.eggs
  obtain ⟨hdone, hcell, hegg, hgeg, hbrk⟩ := plan_done egg s
  refine ⟨⟨ns, hns.keep hcell hegg hgeg hbrk⟩, ?_, ?_⟩
  · obtain ⟨eggs, heggs⟩ := hdone.roe
    intro r hr
    rw [heggs] at hr
    rcases List.mem_append.mp hr with hnew | hold
    · obtain ⟨egg, -, rfl⟩ := List.mem_map.mp hnew
      rfl
    · exact h.planned r hold
  · rw [hdone.ops, hdone.sures, List.append_nil]
    exact h.ops

theorem Calm.deed (h : Calm s) {a : Deed} (hstep : deed arvo a s = some s') : Calm s' := by
  cases a with
  | plan egg =>
      cases hstep
      exact h.plan egg
  | work fuel =>
      have hpost := @Calm.raftWork arvo s h fuel
      rw [Log.deed] at hstep
      revert hpost hstep
      rcases (Log.raftWork arvo fuel).run s with ⟨r, t⟩
      intro hstep hpost
      cases r with
      | ok a =>
          cases hstep
          exact hpost
      | stop e => cases hstep
      | spent => cases hstep
  | turn lead =>
      cases hstep
      obtain ⟨ns, hns⟩ := h.eggs
      exact ⟨⟨ns, hns.keep rfl rfl rfl rfl⟩, h.planned, h.ops⟩
  | grow lenD =>
      cases hstep
      obtain ⟨ns, hns⟩ := h.eggs
      exact ⟨⟨ns, hns.keep rfl rfl rfl rfl⟩, h.planned, h.ops⟩

theorem calm_init (roc : Noun) (entD : Nat) : Calm (Reck.init roc entD) :=
  ⟨⟨[], linked_nil _, (fun _ _ => rfl), Nat.zero_le _⟩, (fun _ hr => nomatch hr), rfl⟩

theorem calm (h : Reachable (Reck.init roc entD) (deed arvo) (fun _ _ => True) s) : Calm s :=
  h.invariant (calm_init roc entD) fun _ _ _ hs _ hstep => hs.deed hstep

/-- In no run does the work loop end by an assertion on its queues. -/
theorem work_not_assert (h : Reachable (Reck.init roc entD) (deed arvo) (fun _ _ => True) s)
    (fuel : Nat) : ((Log.raftWork arvo fuel).run s).1 ≠ .stop .assert := by
  have hpost := @Calm.raftWork arvo s (calm h) fuel
  revert hpost
  rcases (Log.raftWork arvo fuel).run s with ⟨r, t⟩
  intro hpost
  cases r with
  | ok a => exact fun he => nomatch he
  | spent => exact fun he => nomatch he
  | stop e =>
      intro he
      cases he
      exact hpost rfl

/-- The effects of all events that were applied, in the order they were poked. -/
def Reck.effects (s : Reck) : List Noun := (s.sures.map (·.vir)).flatten

def Op.kick? : Op → Option Noun
  | .kick ovo => some ovo
  | .push _ => none

/-- The effects that were kicked, in their order. -/
def Reck.kicked (s : Reck) : List Noun := s.ops.filterMap Op.kick?

theorem kicked_emit (u : Sure) : u.emit.filterMap Op.kick? = if u.changed then u.vir else [] := by
  have hvir : (u.vir.map Op.kick).filterMap Op.kick? = u.vir := by
    rw [List.filterMap_map]
    exact List.filterMap_some
  cases hc : u.changed with
  | false => simp [Sure.emit, hc]
  | true =>
      rw [Sure.emit, hc, if_pos rfl, if_pos rfl, List.filterMap_cons_none rfl]
      exact hvir

theorem filterMap_emit (us : List Sure) :
    (us.map Sure.emit).flatten.filterMap Op.kick?
      = (us.map fun u => if u.changed then u.vir else []).flatten := by
  induction us with
  | nil => rfl
  | cons u us ih =>
      rw [List.map_cons, List.flatten_cons, List.filterMap_append, kicked_emit, ih, List.map_cons,
        List.flatten_cons]

/-- Fewer effects are kicked if some are left out. -/
theorem length_changed_le (us : List Sure) :
    (us.map fun u => if u.changed then u.vir else []).flatten.length
      ≤ (us.map (·.vir)).flatten.length := by
  induction us with
  | nil => exact Nat.le_refl _
  | cons u us ih =>
      simp only [List.map_cons, List.flatten_cons, List.length_append]
      refine Nat.add_le_add ?_ ih
      split
      · exact Nat.le_refl _
      · exact Nat.zero_le _

theorem flatten_changed_iff (us : List Sure) :
    (us.map fun u => if u.changed then u.vir else []).flatten = (us.map (·.vir)).flatten ↔
      ∀ u ∈ us, u.changed = true ∨ u.vir = [] := by
  induction us with
  | nil => simp
  | cons u us ih =>
      rw [List.forall_mem_cons, ← ih, List.map_cons, List.flatten_cons, List.map_cons,
        List.flatten_cons]
      cases hc : u.changed with
      | true => simp
      | false =>
          simp only [Bool.false_eq_true, if_false, List.nil_append, false_or]
          refine ⟨fun heq => ?_, fun h => ?_⟩
          · have hlen := congrArg List.length heq
            have hle := length_changed_le us
            rw [List.length_append] at hlen
            have hnil : u.vir = [] := List.length_eq_zero_iff.mp (by omega)
            exact ⟨hnil, by simpa [hnil] using heq⟩
          · rw [h.1, h.2, List.nil_append]

/-- In every run the effects that are kicked are those of all events that were applied,
each once and in the order of the events, exactly if no event was applied that has
effects but leaves the core as it was. -/
theorem kicked_iff (arvo : Arvo) (roc : Noun) (entD : Nat)
    (h : Reachable (Reck.init roc entD) (deed arvo) (fun _ _ => True) s) :
    s.kicked = s.effects ↔ ∀ u ∈ s.sures, u.changed = true ∨ u.vir = [] := by
  rw [Reck.kicked, Reck.effects, (calm h).ops, filterMap_emit]
  exact flatten_changed_iff s.sures

/-! ### Two kernels -/

/-- An effect, for concrete cases. -/
def blit : Noun := .cell (.atom 0) (.cell (.atom 1) (.atom 2))

/-- An event, for concrete cases. -/
def belt : Noun := .cell (.cell (.atom 0) (.cell (.atom 1) (.atom 0))) (.cell (.atom 7) (.atom 8))

/-- A kernel that answers every event with an effect. It takes note of the event if
`notes`. -/
def answer (notes : Bool) : Arvo where
  soft _ cor ovo := .ok ([blit], if notes then .cell cor ovo else cor)
  kick _ _ := some []

/-- The log is open, and an event is planned and worked. -/
def workOne : List Deed := [.turn true, .grow 6, .plan belt, .work 5]

theorem kicked_iff_notes : ∃ s,
    Reachable (Reck.init (.atom 0) 1) (deed (answer true)) (fun _ _ => True) s ∧
      s.effects = [blit] ∧ s.kicked = s.effects := by
  have hrun : ((runs (deed (answer true)) workOne (Reck.init (.atom 0) 1)).any fun s =>
      s.sures = [⟨belt, [blit], true⟩]) = true := by decide
  obtain ⟨s, hs, htest⟩ := Reachable.of_runs (fun _ _ => trivial) workOne hrun
  have hsures := of_decide_eq_true htest
  refine ⟨s, hs, by rw [Reck.effects, hsures]; rfl, (kicked_iff (answer true) (.atom 0) 1 hs).mpr ?_⟩
  rw [hsures]
  intro u hu
  cases List.mem_singleton.mp hu
  exact .inl rfl

/-- The loop after an event that was noted. -/
theorem work_not_assert_notes : ∃ s,
    Reachable (Reck.init (.atom 0) 1) (deed (answer true)) (fun _ _ => True) s ∧
      s.sures = [⟨belt, [blit], true⟩] ∧ ((Log.raftWork (answer true) 5).run s).1 ≠ .stop .assert := by
  have hrun : ((runs (deed (answer true)) workOne (Reck.init (.atom 0) 1)).any fun s =>
      s.sures = [⟨belt, [blit], true⟩]) = true := by decide
  obtain ⟨s, hs, htest⟩ := Reachable.of_runs (fun _ _ => trivial) workOne hrun
  exact ⟨s, hs, of_decide_eq_true htest, work_not_assert hs 5⟩

/-- An event that is answered but not noted: the answer is not kicked. -/
theorem answer_lost : ∃ s,
    Reachable (Reck.init (.atom 0) 1) (deed (answer false)) (fun _ _ => True) s ∧
      s.sures = [⟨belt, [blit], false⟩] ∧ s.effects = [blit] ∧ s.kicked = [] ∧ s.roe = [] := by
  have hrun : ((runs (deed (answer false)) workOne (Reck.init (.atom 0) 1)).any fun s =>
      s.sures = [⟨belt, [blit], false⟩] && s.effects = [blit] && s.kicked = [] && s.roe = [])
        = true := by decide
  obtain ⟨s, hs, htest⟩ := Reachable.of_runs (fun _ _ => trivial) workOne hrun
  simp only [Bool.and_eq_true, decide_eq_true_eq] at htest
  obtain ⟨⟨⟨hsures, heff⟩, hkicked⟩, hroe⟩ := htest
  exact ⟨s, hs, hsures, heff, hkicked, hroe⟩

end Calm

end Vere.Log
