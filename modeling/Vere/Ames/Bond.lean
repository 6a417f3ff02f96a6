import Vere.Ames.Flow

/-!
# Vere.Ames.Bond

Ordered delivery of `%bond` messages, exactly once.

A history is the packets that were taken, each with the boons of its event. The number `did` of
a channel is the least number that was not received, and what is parked are the numbers above it
that were (`Held`). `coot` passes on the parked numbers from `did` up to the next gap
(`coot_spec`), so the messages of a history are those below the least missing number, in order.
-/

namespace Vere.Ames

variable {δ ρ : Type}

/-- An incoming `%good` packet with a `%bond`. -/
structure Bond where
  ryn : Lane
  dam : Nat
  life : Nat
  cha : Path
  num : Nat
  val : Noun

/-- The event of such a packet. -/
def hearBond (w : Wire δ ρ) (pac : Bond) (ho : Ho δ ρ) : Option (Ho δ ρ) :=
  dineBond w ⟨.good, pac.ryn, pac.dam⟩ pac.life pac.cha pac.num pac.val { ho with bin := [] }

/-- A history: the packets that were taken, and what came of each. The payloads are given by the
channel and the number. Between the events, what is known of the friend may change. -/
inductive Heard (w : Wire δ ρ) (pay : Path → Nat → Noun) :
    List (Bond × List (Boon ρ)) → Ho δ ρ → Prop
  | start (diz : δ) : Heard w pay [] ⟨diz, ∅, []⟩
  | drift {log : List (Bond × List (Boon ρ))} {ho : Ho δ ρ} (diz : δ) (h : Heard w pay log ho) :
      Heard w pay log { ho with diz := diz }
  | hear {log : List (Bond × List (Boon ρ))} {ho ho' : Ho δ ρ} {pac : Bond} (h : Heard w pay log ho)
      (hval : pac.val = pay pac.cha pac.num) (hs : hearBond w pac ho = some ho') :
      Heard w pay (log ++ [(pac, ho'.bin.reverse)]) ho'

/-- The messages that were passed on for a channel. -/
def milks (cha : Path) (out : List (Boon ρ)) : List (Nat × Noun) :=
  out.filterMap fun
    | .milk _ _ c num val => if c = cha then some (num, val) else none
    | _ => none

/-- The packets that were acknowledged with `%back`, by their hashes. -/
def backs (out : List (Boon ρ)) : List Nat :=
  out.filterMap fun
    | .tell (.back _ dam _) _ => some dam
    | _ => none

/-- The messages of a history. -/
def milked (cha : Path) (log : List (Bond × List (Boon ρ))) : List (Nat × Noun) :=
  log.flatMap fun e => milks cha e.2

/-- A packet of the channel with this number was received. -/
def Got (cha : Path) (log : List (Bond × List (Boon ρ))) (num : Nat) : Prop :=
  ∃ e ∈ log, e.1.cha = cha ∧ e.1.num = num

/-- The least number that was not received. -/
structure Least (cha : Path) (log : List (Bond × List (Boon ρ))) (k : Nat) : Prop where
  below : ∀ n, n < k → Got cha log n
  next : ¬Got cha log k

theorem Least.unique {cha : Path} {log : List (Bond × List (Boon ρ))} {k k' : Nat}
    (h : Least cha log k) (h' : Least cha log k') : k = k' := by
  rcases Nat.lt_trichotomy k k' with hlt | heq | hgt
  · exact absurd (h'.below k hlt) h.next
  · exact heq
  · exact absurd (h.below k' hgt) h'.next

/-! ### What one call does -/

/-- What is parked is good, and has the payload of its number. -/
def Parked (pay : Nat → Noun) (mis : Dict Nat Miss) : Prop :=
  ∀ n m, mis.lookup n = some m → m.p = .good ∧ m.s = some (pay n)

section calls

variable {w : Wire δ ρ} {la : La} {ho ho' : Ho δ ρ} {cha : Path}

theorem cock_inv (h : cock w la ho = some ho') :
    ∃ pax, ho'.raz = ho.raz ∧ ho'.bin = .tell (.back la.kay la.dam 0) pax :: ho.bin ∧
      ∃ diz, w.zuul (.back la.kay la.dam 0) ho.diz = some (pax, diz) := by
  simp only [cock, Option.bind_eq_bind, Option.bind_eq_some_iff] at h
  obtain ⟨⟨pax, diz⟩, hz, h⟩ := h
  cases h
  exact ⟨pax, rfl, rfl, diz, hz⟩

theorem cock_some (hz : ∀ ham diz, (w.zuul ham diz).isSome) (la : La) (ho : Ho δ ρ) :
    ∃ ho', cock w la ho = some ho' := by
  obtain ⟨⟨pax, diz⟩, hz⟩ := Option.isSome_iff_exists.mp (hz (.back la.kay la.dam 0) ho.diz)
  exact ⟨_, by simp only [cock, hz]; rfl⟩

/-- The hash of the packet that is parked at a number. -/
def damAt (mis : Dict Nat Miss) (n : Nat) : Option Nat := (mis.lookup n).map Miss.r

/-- What `coot` makes of a channel: the parked numbers up to the next gap are passed on, and
acknowledged with their own packets. -/
structure Flushed (cha : Path) (pay : Nat → Noun) (rum : Race) (ho ho' : Ho δ ρ) (k : Nat) (mis : Dict Nat Miss)
    (out : List (Boon ρ)) : Prop where
  from_did : rum.did ≤ k
  parked : ∀ n, rum.did ≤ n → n < k → ∃ m, rum.mis.lookup n = some m
  gap : mis.lookup k = none
  rest : ∀ n, mis.lookup n = if rum.did ≤ n ∧ n < k then none else rum.mis.lookup n
  stored : ho'.raz = ho.raz.insert cha { rum with did := k, mis := mis }
  boons : ho'.bin = out.reverse ++ ho.bin
  passed : milks cha out = (List.range' rum.did (k - rum.did)).map fun n => (n, pay n)
  others : ∀ c, c ≠ cha → milks c out = []
  acked : backs out = (List.range' rum.did (k - rum.did)).filterMap (damAt rum.mis)

/-- The flush of the rest, after the number `did` was passed on. -/
theorem Flushed.cons {pay : Nat → Noun} {rum : Race} {ho₁ : Ho δ ρ} {k : Nat} {mis : Dict Nat Miss}
    {out : List (Boon ρ)} {cun : Miss} {pax : List ρ} {p q : Nat} (hcun : rum.mis.lookup rum.did = some cun)
    (hraz : ho₁.raz = ho.raz)
    (hbin : ho₁.bin = .tell (.back cun.p cun.r 0) pax :: ho.bin)
    (h : Flushed cha pay { rum with mis := rum.mis.erase rum.did, did := rum.did + 1 }
      { ho₁ with bin := .milk p q cha rum.did (pay rum.did) :: ho₁.bin } ho' k mis out) :
    Flushed cha pay rum ho ho' k mis
      (.tell (.back cun.p cun.r 0) pax :: .milk p q cha rum.did (pay rum.did) :: out) := by
  have hle : rum.did + 1 ≤ k := h.from_did
  have hrange : List.range' rum.did (k - rum.did) =
      rum.did :: List.range' (rum.did + 1) (k - (rum.did + 1)) := by
    rw [show k - rum.did = k - (rum.did + 1) + 1 by omega, List.range'_succ]
  have hne : ∀ n, rum.did + 1 ≤ n → n ≠ rum.did := fun n hn => by omega
  refine ⟨by omega, ?_, h.gap, ?_, ?_, ?_, ?_, ?_, ?_⟩
  · intro n hlo hhi
    rcases Nat.eq_or_lt_of_le hlo with rfl | hlo
    · exact ⟨cun, hcun⟩
    · obtain ⟨m, hm⟩ := h.parked n hlo hhi
      rw [Finmap.lookup_erase_ne (hne n hlo)] at hm
      exact ⟨m, hm⟩
  · intro n
    rw [h.rest n]
    dsimp only
    by_cases hn : n = rum.did
    · subst hn
      rw [if_neg (by omega), if_pos (by omega), Finmap.lookup_erase]
    · rw [Finmap.lookup_erase_ne hn]
      by_cases hin : rum.did + 1 ≤ n ∧ n < k
      · rw [if_pos hin, if_pos (by omega)]
      · rw [if_neg hin, if_neg (by omega)]
  · rw [h.stored, hraz]
  · rw [h.boons, hbin]
    simp
  · rw [hrange, List.map_cons, ← h.passed]
    simp [milks]
  · intro c hc
    have := h.others c hc
    simpa [milks, hc.symm] using this
  · rw [hrange, List.filterMap_cons]
    have hdam : damAt rum.mis rum.did = some cun.r := by simp [damAt, hcun]
    have htail : (List.range' (rum.did + 1) (k - (rum.did + 1))).filterMap
        (damAt (rum.mis.erase rum.did)) =
        (List.range' (rum.did + 1) (k - (rum.did + 1))).filterMap (damAt rum.mis) := by
      apply List.filterMap_congr
      intro n hn
      have hlo := (List.mem_range'_1.mp hn).1
      rw [damAt, damAt, Finmap.lookup_erase_ne (hne n hlo)]
    rw [hdam, ← htail]
    have := h.acked
    simpa [backs] using this

theorem coot_none {rum : Race} (h : rum.mis.lookup rum.did = none) :
    coot w la cha rum ho = some { ho with raz := ho.raz.insert cha rum } := by
  rw [coot]
  split
  · rfl
  · next hsome => exact absurd (h.symm.trans hsome) (by simp)

theorem coot_good {rum : Race} {cun : Miss} {val : Noun} (h : rum.mis.lookup rum.did = some cun)
    (hgood : cun.p = .good) (hval : cun.s = some val) :
    coot w la cha rum ho =
      (cock w { la with kay := cun.p, dam := cun.r } ho).bind fun ho =>
        coot w { la with kay := cun.p, dam := cun.r } cha
          { rum with mis := rum.mis.erase rum.did, did := rum.did + 1 }
          { ho with bin := .milk w.life (w.clon ho.diz) cha rum.did val :: ho.bin } := by
  rw [coot]
  split
  · next hnone => exact absurd (h.symm.trans hnone) (by simp)
  · next cun' hsome =>
    obtain rfl : cun = cun' := Option.some.inj (h.symm.trans hsome)
    simp only [hgood, hval, if_true, Option.bind_eq_bind, Option.bind_some]

theorem Parked.erase {pay : Nat → Noun} {mis : Dict Nat Miss} (hp : Parked pay mis) (k : Nat) :
    Parked pay (mis.erase k) := by
  intro n m hm
  have hn : n ≠ k := by
    rintro rfl
    rw [Finmap.lookup_erase] at hm
    cases hm
  rw [Finmap.lookup_erase_ne hn] at hm
  exact hp n m hm

theorem Parked.insert {pay : Nat → Noun} {mis : Dict Nat Miss} (hp : Parked pay mis) {k dam : Nat}
    {ryn : Lane} {val : Noun} (hval : val = pay k) :
    Parked pay (mis.insert k ⟨.good, ryn, dam, some val⟩) := by
  intro n m hm
  rw [lookup_insert_eq] at hm
  split at hm
  · next hn =>
    cases hm
    exact ⟨rfl, by rw [hval, hn]⟩
  · exact hp n m hm

theorem coot_spec {pay : Nat → Noun} {rum : Race} (hp : Parked pay rum.mis)
    (h : coot w la cha rum ho = some ho') : ∃ k mis out, Flushed cha pay rum ho ho' k mis out := by
  induction hcard : rum.mis.keys.card using Nat.strong_induction_on generalizing la rum ho with
  | _ card ih =>
      cases hcun : rum.mis.lookup rum.did with
      | none =>
          rw [coot_none hcun] at h
          cases h
          refine ⟨rum.did, rum.mis, [], le_rfl, ?_, hcun, ?_, rfl, rfl, ?_, ?_, ?_⟩
          · intro n hlo hhi
            omega
          · intro n
            rw [if_neg (by omega)]
          · simp [milks]
          · simp [milks]
          · simp [backs]
      | some cun =>
          obtain ⟨hgood, hval⟩ := hp _ _ hcun
          rw [coot_good hcun hgood hval] at h
          obtain ⟨ho₁, hcock, h⟩ := Option.bind_eq_some_iff.mp h
          obtain ⟨pax, hraz, hbin, -⟩ := cock_inv hcock
          obtain ⟨k, mis, out, hf⟩ := ih _ (hcard ▸ card_erase_lt hcun) (hp.erase _) h rfl
          exact ⟨k, mis, _, hf.cons hcun hraz hbin⟩

theorem coot_total (hz : ∀ ham diz, (w.zuul ham diz).isSome) {pay : Nat → Noun} {rum : Race}
    (hp : Parked pay rum.mis) (la : La) (ho : Ho δ ρ) : ∃ ho', coot w la cha rum ho = some ho' := by
  induction hcard : rum.mis.keys.card using Nat.strong_induction_on generalizing la rum ho with
  | _ card ih =>
      cases hcun : rum.mis.lookup rum.did with
      | none => exact ⟨_, coot_none hcun⟩
      | some cun =>
          obtain ⟨hgood, hval⟩ := hp _ _ hcun
          rw [coot_good hcun hgood hval]
          obtain ⟨ho₁, hcock⟩ := cock_some hz { la with kay := cun.p, dam := cun.r } ho
          rw [hcock, Option.bind_some]
          exact ih _ (hcard ▸ card_erase_lt hcun) (hp.erase _) _ _ rfl

end calls

/-! ### Histories -/

section histories

variable {w : Wire δ ρ} {pay : Path → Nat → Noun} {log : List (Bond × List (Boon ρ))}
  {ho ho' : Ho δ ρ} {cha : Path} {pac : Bond} {out : List (Boon ρ)}

/-- What the record of a channel says of the history. -/
structure Held (pay : Path → Nat → Noun) (log : List (Bond × List (Boon ρ))) (cha : Path) (rum : Race) :
    Prop where
  least : Least cha log rum.did
  parked : Parked (pay cha) rum.mis
  known : ∀ n m, rum.mis.lookup n = some m →
    ∃ e ∈ log, e.1.cha = cha ∧ e.1.num = n ∧ e.1.dam = m.r
  kept : ∀ n, Got cha log n → n < rum.did ∨ ∃ m, rum.mis.lookup n = some m
  passed : milked cha log = (List.range rum.did).map fun n => (n, pay cha n)

/-- The acknowledgments of an event: a packet whose number was passed on before is acknowledged
again, and otherwise one packet of each number that the event passes on. -/
def Answered (pre : List (Bond × List (Boon ρ))) (pac : Bond) (out : List (Boon ρ)) : Prop :=
  ∀ k k', Least pac.cha pre k → Least pac.cha (pre ++ [(pac, out)]) k' →
    if pac.num < k then backs out = [pac.dam]
    else
      List.Forall₂
        (fun n dam => ∃ e ∈ pre ++ [(pac, out)], e.1.cha = pac.cha ∧ e.1.num = n ∧ e.1.dam = dam)
        (List.range' k (k' - k)) (backs out)

theorem got_snoc {num : Nat} :
    Got cha (log ++ [(pac, out)]) num ↔ Got cha log num ∨ (pac.cha = cha ∧ pac.num = num) := by
  simp [Got, or_and_right, exists_or]

theorem milked_snoc : milked cha (log ++ [(pac, out)]) = milked cha log ++ milks cha out := by
  simp [milked]

/-- A packet of another channel, or one that was passed on before. -/
theorem Held.same {rum : Race} (h : Held pay log cha rum)
    (hgot : ∀ n, Got cha (log ++ [(pac, out)]) n ↔ Got cha log n) (hout : milks cha out = []) :
    Held pay (log ++ [(pac, out)]) cha rum where
  least := ⟨fun n hn => (hgot n).mpr (h.least.below n hn), fun hn => h.least.next ((hgot _).mp hn)⟩
  parked := h.parked
  known n m hm := by
    obtain ⟨e, he, hrest⟩ := h.known n m hm
    exact ⟨e, List.mem_append_left _ he, hrest⟩
  kept n hn := h.kept n ((hgot n).mp hn)
  passed := by rw [milked_snoc, hout, List.append_nil, h.passed]

theorem got_of_ne (hne : pac.cha ≠ cha) (n : Nat) : Got cha (log ++ [(pac, out)]) n ↔ Got cha log n := by
  rw [got_snoc]
  exact or_iff_left fun h => hne h.1

/-- A packet whose number is not below `did`, after the flush. -/
theorem Held.flush {rum : Race} {ryn : Lane} {k : Nat} {mis : Dict Nat Miss}
    (h : Held pay log pac.cha rum) (hval : pac.val = pay pac.cha pac.num)
    (hf : Flushed pac.cha (pay pac.cha)
      { rum with mis := rum.mis.insert pac.num ⟨.good, ryn, pac.dam, some pac.val⟩ } ho ho' k mis out) :
    Held pay (log ++ [(pac, out)]) pac.cha { rum with did := k, mis := mis } := by
  have hdid : rum.did ≤ k := hf.from_did
  have hown : (pac, out) ∈ log ++ [(pac, out)] := List.mem_append_right _ List.mem_cons_self
  have hput : ∀ n, (rum.mis.insert pac.num ⟨.good, ryn, pac.dam, some pac.val⟩).lookup n =
      if n = pac.num then some ⟨.good, ryn, pac.dam, some pac.val⟩ else rum.mis.lookup n :=
    fun n => lookup_insert_eq _ _ n _
  -- what is parked is what was, with the packet, outside of the part that was passed on
  have hrest : ∀ n, mis.lookup n =
      if rum.did ≤ n ∧ n < k then none
      else if n = pac.num then some ⟨.good, ryn, pac.dam, some pac.val⟩ else rum.mis.lookup n := by
    intro n
    rw [hf.rest n, hput]
  have hknown : ∀ n m, (rum.mis.insert pac.num ⟨.good, ryn, pac.dam, some pac.val⟩).lookup n = some m →
      ∃ e ∈ log ++ [(pac, out)], e.1.cha = pac.cha ∧ e.1.num = n ∧ e.1.dam = m.r := by
    intro n m hm
    rw [hput] at hm
    split at hm
    · next hn =>
      cases hm
      exact ⟨_, hown, rfl, hn.symm, rfl⟩
    · obtain ⟨e, he, hrest⟩ := h.known n m hm
      exact ⟨e, List.mem_append_left _ he, hrest⟩
  have hkept : ∀ n, Got pac.cha (log ++ [(pac, out)]) n → n < k ∨ ∃ m, mis.lookup n = some m := by
    intro n hn
    by_cases hlt : n < k
    · exact .inl hlt
    · right
      rw [hrest, if_neg (fun hin => hlt hin.2)]
      split
      · exact ⟨_, rfl⟩
      · next hne =>
        rcases got_snoc.mp hn with hn | ⟨-, hn⟩
        · exact (h.kept n hn).resolve_left (by omega)
        · exact absurd hn.symm hne
  refine ⟨⟨?_, ?_⟩, ?_, ?_, hkept, ?_⟩
  · intro n hn
    by_cases hlo : n < rum.did
    · exact got_snoc.mpr (.inl (h.least.below n hlo))
    · obtain ⟨m, hm⟩ := hf.parked n (Nat.not_lt.mp hlo) hn
      obtain ⟨e, he, hcha, hnum, -⟩ := hknown n m hm
      exact ⟨e, he, hcha, hnum⟩
  · intro hn
    obtain ⟨m, hm⟩ := (hkept k hn).resolve_left (Nat.lt_irrefl k)
    rw [hf.gap] at hm
    cases hm
  · intro n m hm
    rw [hrest] at hm
    split at hm
    · cases hm
    · split at hm
      · next hn =>
        cases hm
        exact ⟨rfl, by rw [hval, hn]⟩
      · exact h.parked n m hm
  · intro n m hm
    apply hknown n m
    rw [hput]
    rw [hrest] at hm
    split at hm
    · cases hm
    · exact hm
  · have hrange : List.range k = List.range rum.did ++ List.range' rum.did (k - rum.did) := by
      have happ := List.range'_append_1 (s := 0) (m := rum.did) (n := k - rum.did)
      rw [Nat.zero_add, Nat.add_sub_cancel' hdid] at happ
      rw [List.range_eq_range', List.range_eq_range', happ]
    rw [milked_snoc, h.passed, hf.passed, hrange, List.map_append]

/-- The acknowledgments of a flush are of packets that were received. -/
theorem Held.answered {rum : Race} {ryn : Lane} {k : Nat} {mis : Dict Nat Miss}
    (h : Held pay log pac.cha rum) (hle : rum.did ≤ pac.num) (hval : pac.val = pay pac.cha pac.num)
    (hf : Flushed pac.cha (pay pac.cha)
      { rum with mis := rum.mis.insert pac.num ⟨.good, ryn, pac.dam, some pac.val⟩ } ho ho' k mis out) :
    Answered log pac out := by
  intro a b ha hb
  obtain rfl := ha.unique h.least
  obtain rfl := hb.unique (h.flush hval hf).least
  rw [if_neg (Nat.not_lt.mpr hle), hf.acked]
  have hall : ∀ n ∈ List.range' rum.did (b - rum.did), ∃ m,
      (rum.mis.insert pac.num ⟨.good, ryn, pac.dam, some pac.val⟩).lookup n = some m := by
    intro n hn
    rw [List.mem_range'_1] at hn
    exact hf.parked n hn.1 (by have := hf.from_did; dsimp only at this; omega)
  dsimp only
  revert hall
  generalize List.range' rum.did (b - rum.did) = l
  intro hall
  induction l with
  | nil => exact .nil
  | cons n l ih =>
      obtain ⟨m, hm⟩ := hall n List.mem_cons_self
      rw [List.filterMap_cons, damAt, hm]
      refine .cons ?_ (ih fun i hi => hall i (List.mem_cons_of_mem n hi))
      rw [lookup_insert_eq] at hm
      split at hm
      · next hn =>
        cases hm
        exact ⟨(pac, out), List.mem_append_right _ List.mem_cons_self, rfl, hn.symm, rfl⟩
      · obtain ⟨e, he, hrest⟩ := h.known n m hm
        exact ⟨e, List.mem_append_left _ he, hrest⟩

theorem raceOf_insert (raz : Dict Path Race) (c : Path) (rum : Race) :
    raceOf (raz.insert c rum) cha = if cha = c then rum else raceOf raz cha := by
  rw [raceOf, lookup_insert_eq]
  split <;> rfl

/-- One packet. -/
theorem hearBond_spec (h : ∀ c, Held pay log c (raceOf ho.raz c))
    (hval : pac.val = pay pac.cha pac.num) (hs : hearBond w pac ho = some ho') :
    (∀ c, Held pay (log ++ [(pac, ho'.bin.reverse)]) c (raceOf ho'.raz c)) ∧
      Answered log pac ho'.bin.reverse := by
  rw [hearBond, dineBond] at hs
  split at hs
  · rw [dear] at hs
    dsimp only at hs
    split at hs
    · -- passed on before: nothing changes but for the acknowledgment
      next hdup =>
      obtain ⟨pax, hraz, hbin, -⟩ := cock_inv hs
      have hmilks : ∀ c, milks c ho'.bin.reverse = [] := by
        intro c
        rw [hbin]
        simp [milks]
      have hgot : ∀ c n, Got c (log ++ [(pac, ho'.bin.reverse)]) n ↔ Got c log n := by
        intro c n
        rw [got_snoc]
        refine or_iff_left_of_imp ?_
        rintro ⟨rfl, rfl⟩
        exact (h pac.cha).least.below _ hdup
      refine ⟨fun c => ?_, fun k k' hk _ => ?_⟩
      · rw [hraz]
        exact (h c).same (hgot c) (hmilks c)
      · obtain rfl := hk.unique (h pac.cha).least
        rw [if_pos hdup, hbin]
        simp [backs]
    · next hnew =>
      have hle := Nat.not_lt.mp hnew
      have hheld := h pac.cha
      obtain ⟨k, mis, out, hf⟩ := coot_spec (hheld.parked.insert hval) hs
      have hout : ho'.bin.reverse = out := by
        rw [hf.boons]
        simp
      rw [hout]
      refine ⟨fun c => ?_, hheld.answered hle hval hf⟩
      rw [hf.stored, raceOf_insert]
      split
      · next hc =>
        subst hc
        exact hheld.flush hval hf
      · next hc => exact (h c).same (got_of_ne (Ne.symm hc)) (hf.others c hc)
  · cases hs

theorem held_start (c : Path) : Held pay ([] : List (Bond × List (Boon ρ))) c (raceOf ∅ c) := by
  refine ⟨⟨?_, ?_⟩, ?_, ?_, ?_, rfl⟩
  · intro n hn
    cases hn
  · rintro ⟨e, he, -⟩
    cases he
  · intro n m hm
    cases hm
  · intro n m hm
    cases hm
  · rintro n ⟨e, he, -⟩
    cases he

theorem Heard.held (h : Heard w pay log ho) (c : Path) : Held pay log c (raceOf ho.raz c) := by
  induction h generalizing c with
  | start diz => exact held_start c
  | drift diz h ih => exact ih c
  | hear h hval hs ih => exact (hearBond_spec ih hval hs).1 c

theorem Heard.answered (h : Heard w pay log ho) :
    ∀ pre pac out post, log = pre ++ (pac, out) :: post → Answered pre pac out := by
  induction h with
  | start diz =>
      intro pre pac out post heq
      simp at heq
  | drift diz h ih => exact ih
  | @hear log ho ho' pac h hval hs ih =>
      intro pre pac' out post heq
      rcases List.eq_nil_or_concat post with rfl | ⟨post, e, rfl⟩
      · obtain ⟨rfl, hlast⟩ := List.append_inj' heq rfl
        cases hlast
        exact (hearBond_spec h.held hval hs).2
      · rw [List.concat_eq_append, ← List.cons_append, ← List.append_assoc] at heq
        exact ih pre pac' out post (List.append_inj' heq rfl).1

theorem hearBond_total (hz : ∀ ham diz, (w.zuul ham diz).isSome) (h : Heard w pay log ho)
    (hlife : pac.life = w.life) (hval : pac.val = pay pac.cha pac.num) :
    ∃ ho', hearBond w pac ho = some ho' := by
  rw [hearBond, dineBond, if_pos hlife.symm, dear]
  dsimp only
  split
  · exact cock_some hz _ _
  · exact coot_total hz ((h.held pac.cha).parked.insert hval) _ _

end histories

/-- In every history the messages that were passed on for a channel are the numbers below the
least one that was not received, in order and with their own payloads; every packet whose number
was passed on before is acknowledged again, and an event acknowledges packets of the numbers it
passes on and no others. Where the encoding does not crash, every packet is taken. -/
theorem bond_delivery (w : Wire δ ρ) (pay : Path → Nat → Noun) (log : List (Bond × List (Boon ρ)))
    (ho : Ho δ ρ) (h : Heard w pay log ho) :
    (∀ cha, ∃ k, Least cha log k ∧ milked cha log = (List.range k).map fun n => (n, pay cha n)) ∧
    (∀ pre pac out post, log = pre ++ (pac, out) :: post → Answered pre pac out) ∧
    ((∀ ham diz, (w.zuul ham diz).isSome) → ∀ pac : Bond, pac.life = w.life →
      pac.val = pay pac.cha pac.num → ∃ ho', hearBond w pac ho = some ho') := by
  refine ⟨fun cha => ?_, h.answered, fun hz pac hlife hval => hearBond_total hz h hlife hval⟩
  exact ⟨_, (h.held cha).least, (h.held cha).passed⟩

/-- An encoding that leaves a meal as it is. -/
def plainWire : Wire Unit Meal where
  zuul ham diz := some ([ham], diz)
  wast _ diz := diz
  clon _ := 0
  life := 0

/-- Of two messages the second comes first. -/
theorem bond_delivery_swapped :
    ∃ log ho, Heard plainWire (fun _ n => .atom n) log ho ∧ log.map (fun e => e.1.num) = [1, 0] ∧
      ∃ k, Least [] log k ∧ milked [] log = (List.range k).map fun n => (n, .atom n) := by
  have hz : ∀ ham diz, (plainWire.zuul ham diz).isSome := fun _ _ => rfl
  have h₀ : Heard plainWire (fun _ n => .atom n) [] ⟨(), ∅, []⟩ := .start ()
  have ht₁ : ∃ ho', hearBond plainWire ⟨.atom 0, 11, 0, [], 1, .atom 1⟩ ⟨(), ∅, []⟩ = some ho' :=
    hearBond_total hz h₀ rfl rfl
  obtain ⟨ho₁, hs₁⟩ := ht₁
  have h₁ := h₀.hear rfl hs₁
  have ht₂ : ∃ ho', hearBond plainWire ⟨.atom 0, 10, 0, [], 0, .atom 0⟩ ho₁ = some ho' :=
    hearBond_total hz h₁ rfl rfl
  obtain ⟨ho₂, hs₂⟩ := ht₂
  have h₂ := h₁.hear rfl hs₂
  exact ⟨_, _, h₂, rfl, (bond_delivery plainWire (fun _ n => .atom n) _ _ h₂).1 []⟩

end Vere.Ames
