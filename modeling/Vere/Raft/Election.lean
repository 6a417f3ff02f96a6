import Mathlib.Data.List.Nodup
import Vere.Raft.Votes

/-!
# Vere.Raft.Election

Election safety.

A vote is stored without a terminator and compared as a string when it is read, so
a start finds the stored vote only if the memory behind it happens to hold a zero.
If not, the vote is not recognised and dropped, and the server votes again in the
same term: two servers can lead in one term (`two_leaders`). Where every start
finds the zero, and no election is started in the last term there is, no two servers
lead in one term (`election_safety`).
-/

namespace Vere.Raft

open Vere.Lib Function

variable {c : Cluster} {mem : Cstr → Option Server} {p : Cstr} {front front' front'' : Front}

/-! ### Storing -/

/-- The memory of a server that has come to a term. -/
def Proc.raises (s : Proc) (temW : UInt32) : Proc :=
  { s with raf := { s.raf with temW := temW } }

/-- Store a newer term. -/
theorem saveTerm_newer {s : Proc} {temW : UInt32} (h : Outside c mem p front s)
    (hst : Stored c s.net p s.raf) (hlt : s.raf.temW < temW) :
    (∃ s', saveTerm.run (s.raises temW) = (.stop (), s') ∧ Left c mem p s') ∨
      ∃ s', saveTerm.run (s.raises temW) = (.ok (), s') ∧ s'.raf = (s.raises temW).raf ∧
        Newer c mem p front s' := by
  have hstr : (s.raises temW).raf.strC = p := hst.strC
  have hnew : ∀ x ∈ s.net.casts, x.who = p → x.tem < temW := by
    intro x hx hp
    obtain ⟨hle, -⟩ := hst.cast h.book (show ⟨p, x.tem, x.cand⟩ ∈ s.net.casts from hp ▸ hx)
    exact UInt32.lt_of_le_of_lt hle hlt
  obtain hs | ⟨-, hs⟩ | ⟨n, hs⟩ := saveTerm_cases (s.raises temW)
  · exact .inl ⟨_, hs, h.left⟩
  · rw [hstr] at hs
    refine .inl ⟨_, hs, @Outside.left c mem p front _ (h.store ?_ ?_ ?_ rfl rfl rfl)⟩
    · exact h.book.writeTerm fun tem ht => nomatch ht
    · exact fun q hq => write_sis_other _ _ _ hq _
    · exact fun x hx => hx
  · rw [hstr] at hs
    refine .inr ⟨_, hs, rfl, ⟨h.store ?_ ?_ ?_ rfl rfl rfl, ?_, hnew⟩⟩
    · have hb := @Book.writeTerm c s.net p (word temW) h.book fun tem ht => by
        rw [readTerm_word] at ht
        cases ht
        exact hnew
      exact ⟨hb.once, hb.self, hb.disk, hb.vote⟩
    · exact fun q hq => write_sis_other _ _ _ hq _
    · exact fun x hx => hx
    · refine ⟨hst.strC, ?_, ?_, hst.known, hst.pop, ?_⟩
      · exact (congrArg readTerm (write_term_term ..)).trans (readTerm_word temW)
      · exact (write_term_vote ..).trans hst.vote
      · intro l ron hr
        obtain ⟨hpair, hle⟩ := hst.order l ron hr
        exact ⟨hpair, fun r hr => UInt32.le_trans (hle r hr) (UInt32.le_of_lt hlt)⟩

/-- Remove the vote of an older term. -/
theorem clearVote_newer {s : Proc} (h : Newer c mem p front s) :
    (∃ s', clearVote.run s = (.stop (), s') ∧ Left c mem p s') ∨
      ∃ s', clearVote.run s = (.ok (), s') ∧ s'.raf = s.forgets.raf ∧ Newer c mem p front s' := by
  have hstr : s.raf.strC = p := h.own.strC
  obtain hs | ⟨n, hs⟩ := clearVote_cases s
  · exact .inl ⟨_, hs, h.toOutside.left⟩
  · rw [hstr] at hs
    refine .inr ⟨_, hs, rfl, ⟨h.toOutside.store ?_ ?_ ?_ rfl rfl rfl, ?_, h.newer⟩⟩
    · have hb := h.book.writeVote (p := p) (.inr ⟨rfl, fun tem ht => by
        rw [h.own.term] at ht
        cases ht
        exact h.newer⟩)
      exact ⟨hb.once, hb.self, hb.disk, hb.vote⟩
    · exact fun q hq => write_sis_other _ _ _ hq _
    · exact fun x hx => hx
    · refine ⟨h.own.strC, ?_, ?_, (fun nam hn => nomatch hn), h.own.pop, h.own.order⟩
      · exact (congrArg readTerm (write_vote_term ..)).trans h.own.term
      · exact write_vote_vote ..

/-- Store a vote in the current term, the first one or the same again. -/
theorem saveVote_casts {s : Proc} {nam : Cstr} (h : Outside c mem p front s)
    (hst : Stored c s.net p s.raf) (hnam : nam ∈ c.names)
    (hsame : ∀ a, ⟨p, s.raf.temW, a⟩ ∈ s.net.casts → a = nam)
    (hself : nam = p ∨ ⟨nam, s.raf.temW, nam⟩ ∈ s.net.casts) :
    (∃ s', (saveVote nam).run s = (.stop (), s') ∧ Left c mem p s') ∨
      ∃ s', (saveVote nam).run s = (.ok (), s') ∧ s'.raf = (s.votes nam).raf ∧
        Outside c mem p front s' ∧ Stored c s'.net p s'.raf ∧ s'.net.links = s.net.links ∧
        s'.net.casts = ⟨p, s.raf.temW, nam⟩ :: s.net.casts := by
  have hstr : s.raf.strC = p := hst.strC
  obtain hs | ⟨-, hs⟩ | ⟨n, hs⟩ := saveVote_cases s nam
  · exact .inl ⟨_, hs, h.left⟩
  · rw [hstr] at hs
    refine .inl ⟨_, hs, @Outside.left c mem p front _ (h.store ?_ ?_ ?_ rfl rfl rfl)⟩
    · exact h.book.writeVote (.inl rfl)
    · exact fun q hq => write_sis_other _ _ _ hq _
    · exact fun x hx => hx
  · rw [hstr] at hs
    refine .inr ⟨_, hs, rfl, h.store ?_ ?_ ?_ rfl rfl rfl, ?_, rfl, rfl⟩
    · have hb := h.book.cast hnam hst.term hsame hself
      exact ⟨hb.once, hb.self, hb.disk, hb.vote⟩
    · exact fun q hq => write_sis_other _ _ _ hq _
    · exact fun x hx => List.mem_cons_of_mem _ hx
    · refine ⟨hst.strC, ?_, ?_, ?_, hst.pop, hst.order⟩
      · exact (congrArg readTerm (write_vote_term ..)).trans hst.term
      · exact write_vote_vote ..
      · intro n hn
        cases hn
        exact hnam

/-! ### Callbacks -/

/-- How a part of a callback ends, as far as votes go. -/
def Tally (c : Cluster) (mem : Cstr → Option Server) (p : Cstr) (front : Front) {α : Type} :
    Res Unit α → Proc → Prop
  | .ok _, s => Polls c mem p front s
  | _, s => Left c mem p s

theorem Voter.of_foll {net : Net} {raf : Server} (h : Stored c net p raf) (htyp : raf.typE = .foll) :
    Voter c net p raf where
  toStored := h
  count := fun hne => absurd htyp hne
  lead := fun hlead => nomatch htyp.symm.trans hlead

/-- A term from the network: afterwards ours is no older. -/
theorem noteTerm_tally {s : Proc} (h : Polls c mem p front s) (temW : UInt32) :
    Tally c mem p front ((noteTerm temW).run s).1 ((noteTerm temW).run s).2 ∧
      (((noteTerm temW).run s).1 = .ok () → temW ≤ ((noteTerm temW).run s).2.raf.temW) := by
  unfold noteTerm
  rw [run_getRaf]
  split
  · next hlt =>
    rw [run_modRaf, show { s with raf := { s.raf with temW := temW } } = s.raises temW from rfl,
      Run.run_bind]
    obtain ⟨s', hs, hleft⟩ | ⟨s', hs, hraf, hnew⟩ :=
      saveTerm_newer h.toOutside h.own.toStored hlt
    · rw [hs]
      exact ⟨hleft, fun he => nomatch he⟩
    · rw [hs]
      simp only
      split
      · next htyp =>
        have htyp' : s'.raf.typE = .foll := by rw [hraf]; exact htyp
        unfold check
        split
        · refine ⟨⟨hnew.toOutside, .of_foll hnew.own htyp'⟩, fun _ => ?_⟩
          show temW ≤ s'.raf.temW
          rw [hraf]
          exact UInt32.le_refl temW
        · exact ⟨hnew.toOutside.left, fun he => nomatch he⟩
      · -- a candidate or a leader goes back to following
        rw [run_check]
        split
        · unfold demote
          rw [run_getRaf, Run.run_bind]
          obtain ⟨s'', hs'', hleft⟩ | ⟨s'', hs'', hraf', hnew'⟩ := clearVote_newer hnew
          · rw [hs'']
            exact ⟨hleft, fun he => nomatch he⟩
          · rw [hs'']
            simp only
            rw [run_modRaf]
            have hst : Stored c s''.net p { s''.raf with votW := 0, typE := .foll } :=
              { hnew'.own with }
            have hpolls : Polls c mem p front
                { s'' with raf := { s''.raf with votW := 0, typE := .foll } } :=
              ⟨⟨hnew'.book, hnew'.rest, hnew'.items⟩, .of_foll hst rfl⟩
            unfold check
            split
            · refine ⟨hpolls, fun _ => ?_⟩
              show temW ≤ s''.raf.temW
              rw [hraf', show s'.forgets.raf.temW = s'.raf.temW from rfl, hraf]
              exact UInt32.le_refl temW
            · exact ⟨hpolls.toOutside.left, fun he => nomatch he⟩
        · exact ⟨hnew.toOutside.left, fun he => nomatch he⟩
  · next hge => exact ⟨h, fun _ => UInt32.not_lt.mp hge⟩

/-! ### Connections -/

/-- Two states of a process that differ in nothing the votes depend on, but for
messages that are gone and connections that are new. -/
structure SameVotes (s s' : Proc) : Prop where
  self : s'.raf.toSelf = s.raf.toSelf
  typE : s'.raf.typE = s.raf.typE
  popW : s'.raf.popW = s.raf.popW
  votW : s'.raf.votW = s.raf.votW
  vogC : s'.raf.vogC = s.raf.vogC
  vog : s'.raf.vog = s.raf.vog
  rons : ∀ l ron', s'.raf.rons l = some ron' →
    ron'.sent = [] ∨ ∃ ron, s.raf.rons l = some ron ∧ ron'.sent = ron.sent
  sis : s'.net.sis = s.net.sis
  casts : s'.net.casts = s.net.casts
  other : ∀ l p q, s.net.other l p = some q → s'.net.other l p = some q
  items : ∀ front e it, it ∈ s'.net.stream front e → it ∈ s.net.stream front e

namespace SameVotes

theorem refl (s : Proc) : SameVotes s s :=
  ⟨rfl, rfl, rfl, rfl, rfl, rfl, fun _ ron hr => .inr ⟨ron, hr, rfl⟩, rfl, rfl,
    fun _ _ _ h => h, fun _ _ _ h => h⟩

theorem trans (s t u : Proc) (h : SameVotes s t) (h' : SameVotes t u) : SameVotes s u where
  self := h'.self.trans h.self
  typE := h'.typE.trans h.typE
  popW := h'.popW.trans h.popW
  votW := h'.votW.trans h.votW
  vogC := h'.vogC.trans h.vogC
  vog := h'.vog.trans h.vog
  rons := by
    intro l ron hr
    obtain hnil | ⟨ron', hr', hsent'⟩ := h'.rons l ron hr
    · exact .inl hnil
    · obtain hnil | ⟨ron'', hr'', hsent''⟩ := h.rons l ron' hr'
      · exact .inl (hsent'.trans hnil)
      · exact .inr ⟨ron'', hr'', hsent'.trans hsent''⟩
  sis := h'.sis.trans h.sis
  casts := h'.casts.trans h.casts
  other := fun l p q hq => h'.other l p q (h.other l p q hq)
  items := fun front e it hit => h.items front e it (h'.items front e it hit)

/-- Only the streams change, and they get quieter. -/
theorem of_quieter {s : Proc} {net : Net} (hq : Quieter s.net net) (hsis : net.sis = s.net.sis)
    (hcasts : net.casts = s.net.casts) : SameVotes s { s with net := net } where
  self := rfl
  typE := rfl
  popW := rfl
  votW := rfl
  vogC := rfl
  vog := rfl
  rons := fun _ ron hr => .inr ⟨ron, hr, rfl⟩
  sis := hsis
  casts := hcasts
  other := fun l p _ ho => (other_congr hq.links l p).trans ho
  items := fun front e _ hit => (hq.sub front e).subset hit

/-- Only the ends change, and not in their requests. -/
theorem of_rons {s : Proc} {rons : Link → Option Rcon} (ronU : Cstr → Option Link)
    (h : ∀ l ron', rons l = some ron' →
      ron'.sent = [] ∨ ∃ ron, s.raf.rons l = some ron ∧ ron'.sent = ron.sent) :
    SameVotes s { s with raf := { s.raf with rons := rons, ronU := ronU } } where
  self := rfl
  typE := rfl
  popW := rfl
  votW := rfl
  vogC := rfl
  vog := rfl
  rons := h
  sis := rfl
  casts := rfl
  other := fun _ _ _ h => h
  items := fun _ _ _ h => h

end SameVotes

theorem Polls.same {s s' : Proc} (hs : SameVotes s s') (h : Polls c mem p front s) :
    Polls c mem p front s' where
  book := by
    have hb := h.book
    refine ⟨?_, ?_, ?_, ?_⟩
    · rw [hs.casts]
      exact hb.once
    · rw [hs.casts]
      exact hb.self
    · rw [hs.casts, hs.sis]
      exact hb.disk
    · rw [hs.sis]
      exact hb.vote
  rest := fun p' raf hp hraf =>
    (h.rest p' raf hp hraf).congr (by rw [hs.sis]) fun x hx => hs.casts ▸ hx
  items := by
    intro e it hit
    obtain ⟨q, hq, hv⟩ := h.items e it (hs.items front e it hit)
    exact ⟨q, hs.other e.1 e.2 q hq, hs.casts ▸ hv⟩
  own := by
    have htem : s'.raf.temW = s.raf.temW := congrArg Self.temW hs.self
    have hvoted : s'.net.voted p s'.raf.temW = s.net.voted p s.raf.temW := by
      unfold Net.voted
      rw [hs.casts, htem]
    refine ⟨⟨?_, ?_, ?_, ?_, ?_, ?_⟩, ?_, ?_⟩
    · exact (congrArg Self.strC hs.self).trans h.own.strC
    · rw [hs.sis, htem]
      exact h.own.term
    · rw [hs.sis, hs.vogC]
      exact h.own.vote
    · rw [hs.vogC]
      exact h.own.known
    · rw [hs.popW]
      exact h.own.pop
    · intro l ron' hr'
      rw [htem]
      obtain hnil | ⟨ron, hr, hsent⟩ := hs.rons l ron' hr'
      · rw [hnil]
        exact ⟨List.Pairwise.nil, List.forall_mem_nil _⟩
      · rw [hsent]
        exact h.own.order l ron hr
    · rw [hs.typE, hs.votW, hs.vog, hvoted]
      exact h.own.count
    · rw [hs.typE, hvoted]
      exact h.own.lead

/-- Whatever the action does, the votes stay as they are. -/
def Still {α : Type} (x : Act α) : Prop := Run.Within SameVotes x

section Still

variable {α β : Type}

theorem still_pure (a : α) : Still (pure a) := Run.within_pure SameVotes.refl a

theorem still_stop : Still (Run.stop () : Act α) := Run.within_stop SameVotes.refl ()

theorem still_getRaf : Still getRaf := Run.within_read SameVotes.refl _

theorem still_getNet : Still getNet := Run.within_read SameVotes.refl _

theorem Still.bind {x : Act α} {f : α → Act β} (hx : Still x) (hf : ∀ a, Still (f a)) :
    Still (x >>= f) :=
  Run.Within.bind SameVotes.trans hx hf

theorem still_check (P : Prop) [Decidable P] : Still (check P) := by
  unfold check
  split
  · exact still_pure ()
  · exact still_stop

theorem still_deref (l : Link) : Still (deref l) := by
  unfold deref
  refine still_getRaf.bind fun raf => ?_
  split
  · exact still_pure _
  · exact still_stop

/-- An end changes, but not in its requests. -/
theorem still_modRon (l : Link) {f : Rcon → Rcon} (hf : ∀ ron, (f ron).sent = ron.sent) :
    Still (modRon l f) := by
  intro s
  cases hr : s.raf.rons l with
  | none =>
      rw [run_modRon_none s hr]
      exact SameVotes.refl s
  | some ron =>
      rw [run_modRon s hr]
      refine SameVotes.of_rons s.raf.ronU fun l' ron' hr' => .inr ?_
      by_cases hl : l' = l
      · subst hl
        cases (update_self l' _ _).symm.trans hr'
        exact ⟨ron, hr, hf ron⟩
      · exact ⟨ron', (update_of_ne hl _ _).symm.trans hr', rfl⟩

theorem still_close (l : Link) (p : Cstr) : Still (modNet (·.close l p)) := by
  intro s
  exact SameVotes.of_quieter (close_quieter s.net l p) (close_sis ..) (close_casts ..)

theorem still_connDead (l : Link) : Still (connDead l) := by
  unfold connDead
  refine (still_deref l).bind fun ron => ?_
  split
  · refine Still.bind (still_modRon l ?_) fun _ => still_getRaf.bind fun raf =>
      still_close l raf.strC
    exact fun _ => rfl
  · exact still_pure ()

theorem flush_quieter (net : Net) (e : End) : Quieter net (net.flush e) where
  links := rfl
  stream := by
    intro e'
    left
    by_cases he : e' = e
    · subst he
      simp [Net.flush]
    · simp [Net.flush, he]

theorem still_syscall : Still (syscall id) := by
  intro s
  obtain hs | ⟨-, hs⟩ | ⟨n, hs⟩ := syscall_cases s id
  · rw [hs]
    exact SameVotes.refl s
  · rw [hs]
    exact SameVotes.refl s
  · rw [hs]
    exact { SameVotes.refl s with }

theorem still_connFlush (l : Link) : Still (connFlush l) := by
  unfold connFlush
  refine still_getRaf.bind fun raf => still_getNet.bind fun net => ?_
  split
  · split
    · exact still_pure ()
    · refine still_syscall.bind fun _ s => ?_
      exact SameVotes.of_quieter (flush_quieter s.net _) rfl rfl
  · exact still_pure ()

theorem still_connLive (nam : Cstr) : Still (connLive nam) := by
  unfold connLive
  refine still_getRaf.bind fun raf => ?_
  split
  · exact still_pure _
  · exact (still_deref _).bind fun ron => still_pure _

theorem still_connNew (nam : Cstr) : Still (connNew nam) := by
  intro s
  refine { SameVotes.refl s with rons := ?_, other := ?_ }
  · intro l ron hr
    by_cases hl : l = s.net.links.length
    · subst hl
      cases (update_self s.net.links.length _ _).symm.trans hr
      exact .inl rfl
    · exact .inr ⟨ron, (update_of_ne hl _ _).symm.trans hr, rfl⟩
  · intro l p q ho
    exact (open_other_old s.raf.strC nam (other_lt ho) p).trans ho

theorem still_restName (l : Link) (namC : List UInt8) : Still (restName l namC) := by
  unfold restName
  refine (still_deref l).bind fun ron => ?_
  split
  · split
    · exact still_pure ()
    · exact still_connDead l
  · refine still_getRaf.bind fun raf => ?_
    split
    · exact still_connDead l
    · refine Still.bind ?_ fun _ => Still.bind ?_ fun _ => still_modRon l fun _ => rfl
      · unfold closeOld
        split
        · exact (still_check _).bind fun _ => still_connDead _
        · exact still_pure ()
      · exact fun s => SameVotes.of_rons _ fun _ ron hr => .inr ⟨ron, hr, rfl⟩

theorem still_connectCb (l : Link) : Still (connectCb l) := by
  unfold connectCb
  refine (still_deref l).bind fun ron => (still_check _).bind fun _ =>
    Still.bind (still_modRon l ?_) fun _ => still_connFlush l
  exact fun _ => rfl

theorem still_connFree (l : Link) : Still (connFree l) := by
  unfold connFree
  refine (still_deref l).bind fun ron => Still.bind ?_ fun _ => still_getRaf.bind fun raf =>
    still_close l raf.strC
  intro s
  refine SameVotes.of_rons _ fun l' ron' hr' => .inr ?_
  by_cases hl : l' = l
  · subst hl
    cases (update_self l' _ _).symm.trans hr'
  · exact ⟨ron', (update_of_ne hl _ _).symm.trans hr', rfl⟩

end Still

/-! ### Messages -/

/-- Inside a callback of `p`, connections and votes are in order. -/
structure Good (c : Cluster) (mem : Cstr → Option Server) (p : Cstr) (front : Front) (s : Proc) :
    Prop where
  links : Keeps c mem p front s
  votes : Polls c mem p front s

/-- How a part of a callback of `p` ends. -/
def Ends (c : Cluster) (mem : Cstr → Option Server) (p : Cstr) (front : Front) {α : Type} :
    Res Unit α → Proc → Prop
  | .ok _, s => Good c mem p front s
  | _, s => Gone c mem p s ∧ Left c mem p s

def Elects (c : Cluster) (mem : Cstr → Option Server) (p : Cstr) (front front' : Front) {α : Type}
    (x : Act α) : Prop :=
  Run.Triple (Good c mem p front) x (Ends c mem p front')

section rules

variable {α β : Type} {x : Act α}

theorem Elects.bind {f : α → Act β} (hx : Elects c mem p front front' x)
    (hf : ∀ a, Elects c mem p front' front'' (f a)) : Elects c mem p front front'' (x >>= f) :=
  Run.Triple.bind hx hf (fun _ _ h => h) fun _ h => h

/-- Connections and votes can be looked at apart from each other. -/
theorem ends_of {r : Res Unit α} {s : Proc} (hl : Fine c mem p front r s)
    (hv : Tally c mem p front r s) : Ends c mem p front r s := by
  cases r with
  | ok a => exact ⟨hl, hv⟩
  | stop e => exact ⟨hl, hv⟩
  | spent => exact ⟨hl, hv⟩

theorem Ends.tally {r : Res Unit α} {s : Proc} (h : Ends c mem p front r s) :
    Tally c mem p front r s := by
  cases r with
  | ok a => exact h.votes
  | stop e => exact h.2
  | spent => exact h.2

theorem Elects.of (hl : Holds c mem p front front' x)
    (hv : ∀ s, Good c mem p front s → Tally c mem p front' (x.run s).1 (x.run s).2) :
    Elects c mem p front front' x :=
  fun s hs => ends_of (hl s hs.links) (hv s hs)

theorem Still.elects (hx : Still x) (hl : Holds c mem p front front x) :
    Elects c mem p front front x := by
  refine .of hl fun s hs => ?_
  have h : Polls c mem p front (x.run s).2 := hs.votes.same (hx s)
  revert h
  rcases x.run s with ⟨r, s'⟩
  intro h
  cases r with
  | ok a => exact h
  | stop e => exact h.toOutside.left
  | spent => exact h.toOutside.left

end rules

variable {l : Link} {q : Cstr} {it : Item} {s : Proc}

/-- A message is queued that says nothing wrong about votes. -/
theorem Outside.queue (h : Outside c mem p front s) (hq : s.net.other l q = some p)
    (hit : Voted s.net.casts p q it)
    (hfront : ∀ e x, x ∈ s.net.stream front' e → x ∈ s.net.stream front e) :
    Outside c mem p front' { s with net := s.net.queue (l, q) it } where
  book := by
    have hb := h.book
    refine ⟨?_, ?_, ?_, ?_⟩
    · rw [queue_casts]
      exact hb.once
    · rw [queue_casts]
      exact hb.self
    · rw [queue_casts, queue_sis]
      exact hb.disk
    · rw [queue_sis]
      exact hb.vote
  rest := fun p' raf hp hraf =>
    (h.rest p' raf hp hraf).congr (by rw [queue_sis]) fun x hx => (queue_casts ..).symm ▸ hx
  items := by
    intro e x hx
    rw [queue_casts, other_congr (queue_links ..)]
    obtain hx | ⟨rfl, rfl⟩ := mem_stream_queue _ _ _ hx
    · exact h.items e x (hfront e x hx)
    · exact ⟨p, hq, hit⟩

theorem Voter.queue {net : Net} {e : End} {raf : Server} (h : Voter c net p raf) (it : Item) :
    Voter c (net.queue e it) p raf :=
  h.congr (by rw [queue_sis]) fun x hx => (queue_casts ..).symm ▸ hx

theorem stream_hold_sub (net : Net) (l : Link) (p : Cstr) (it : Item) (e : End) {x : Item}
    (h : x ∈ net.stream (hold l p []) e) : x ∈ net.stream (hold l p [it]) e := by
  by_cases he : e = (l, p)
  · subst he
    rw [stream_hold] at h ⊢
    exact List.mem_cons_of_mem _ h
  · rw [stream_hold_of_ne _ _ he] at h ⊢
    exact h

/-- Respond to the message in hand. A vote that is granted was cast. -/
theorem sendRasp_tally {suc : UInt32} (h : Polls c mem p (hold l p [it]) s)
    (hq : s.net.other l p = some q)
    (hcast : suc ≠ 0 → ⟨p, it.req.msgU.temW, q⟩ ∈ s.net.casts) :
    Tally c mem p (hold l p []) ((sendRasp l suc it.req).run s).1
      ((sendRasp l suc it.req).run s).2 := by
  have hother : s.net.other l s.raf.strC = some q := h.own.strC.symm ▸ hq
  unfold sendRasp
  rw [run_getRaf, run_rmsgQueue hother]
  refine ⟨h.toOutside.queue (other_symm hq) ?_ ?_, h.own.queue _⟩
  · exact hcast
  · exact fun e x hx => stream_hold_sub s.net l p it e hx

theorem elects_noteTerm (temW : UInt32) : Elects c mem p front front (noteTerm temW) :=
  .of (inert_noteTerm temW).holds fun _ hs => (noteTerm_tally hs.votes temW).1

/-- A request comes in: afterwards our term is no older than that of the request. -/
theorem doRest_ends {rest : Rest} (temW : UInt32) (hname : ∀ q, ItemOk q it → rest.name = q.str) :
    Run.Triple (Good c mem p (hold l p [it])) (doRest l temW rest) fun r s =>
      Ends c mem p (hold l p [it]) r s ∧ (r = .ok () → temW ≤ s.raf.temW) := by
  have hl : Elects c mem p (hold l p [it]) (hold l p [it]) (restName l rest.name) :=
    (still_restName l _).elects (holds_restName fun _ q hs hq => hname q (hs.item hq))
  refine Run.Triple.bind hl (fun _ s hs => ?_) (fun _ _ h => ⟨h, fun he => nomatch he⟩)
    fun _ h => ⟨h, fun he => nomatch he⟩
  exact ⟨elects_noteTerm temW s hs, (noteTerm_tally hs.votes temW).2⟩

theorem Good.voted (h : Good c mem p (hold l p [it]) s) (hq : s.net.other l p = some q) :
    Voted s.net.casts q p it := by
  obtain ⟨q', hq', hv⟩ := h.votes.items (l, p) it (by rw [stream_hold]; exact List.mem_cons_self ..)
  cases hq.symm.trans hq'
  exact hv

/-- Who may be voted for: nobody yet in this term, or the same again. -/
theorem grants_same {nam : Cstr} {temW : UInt32} {rest : Rest} (h : Polls c mem p front s)
    (hg : grants s.raf nam temW rest = true) :
    s.raf.temW ≤ temW ∧ ∀ a, ⟨p, s.raf.temW, a⟩ ∈ s.net.casts → a = nam := by
  unfold grants at hg
  simp only [Bool.and_eq_true, Bool.or_eq_true, decide_eq_true_eq] at hg
  obtain ⟨⟨hle, hvog⟩, -⟩ := hg
  refine ⟨hle, fun a ha => ?_⟩
  have hv := (h.own.toStored.cast h.book ha).2 rfl
  obtain hnone | hsome := hvog
  · cases hnone.symm.trans hv
  · exact Option.some.inj (hv.symm.trans hsome)

theorem elects_doRevo {rest : Rest} (hbody : it.msg.body = .revo rest) :
    Elects c mem p (hold l p [it]) (hold l p []) (doRevo l it.msg.temW rest it.req) := by
  have hitem : ∀ q, ItemOk q it → it.req.msgU = it.msg ∧ rest.name = q.str := by
    intro q h
    unfold ItemOk at h
    rw [hbody] at h
    exact h
  refine .of (holds_doRevo hbody _) fun s hs => ?_
  have hrest := @doRest_ends c mem p l it rest it.msg.temW (fun q h => (hitem q h).2) s hs
  unfold doRevo
  rw [Run.run_bind]
  revert hrest
  rcases (doRest l it.msg.temW rest).run s with ⟨r, t⟩
  intro hrest
  cases r with
  | stop e => exact hrest.1.2
  | spent => exact hrest.1.2
  | ok a =>
      obtain ⟨hg, hle⟩ := hrest
      have hg : Good c mem p (hold l p [it]) t := hg
      have hle : it.msg.temW ≤ t.raf.temW := hle rfl
      simp only
      cases hr : t.raf.rons l with
      | none =>
          rw [run_deref_none t hr]
          exact hg.votes.toOutside.left
      | some ron =>
          obtain ⟨q, hc⟩ := hg.links.own.rons l ron hr
          rw [run_deref t hr, run_getRaf]
          split
          · exact hg.votes.toOutside.left
          · next nam hnam =>
            cases hc.named nam hnam
            have hreq := (hitem q (hg.links.item hc.other)).1
            split
            · next hgrant =>
              obtain ⟨hge, hsame⟩ := grants_same hg.votes hgrant
              have heq : t.raf.temW = it.msg.temW := UInt32.le_antisymm hge hle
              -- the candidate has voted for itself before it asked
              have hself : ⟨q, t.raf.temW, q⟩ ∈ t.net.casts := by
                have hv := hg.voted hc.other
                unfold Voted at hv
                rw [hbody] at hv
                rw [heq]
                exact hv
              rw [Run.run_bind]
              obtain ⟨u, hu, hleft⟩ | ⟨u, hu, hraf, hout, hst, hlinks, hcasts⟩ :=
                saveVote_casts hg.votes.toOutside hg.votes.own.toStored
                  (hg.links.wires.ends l p q hc.other).2.1 hsame (.inr hself)
              · rw [hu]
                exact hleft
              · rw [hu]
                have hvoter : Voter c u.net p u.raf := by
                  refine hg.votes.own.restore hst ?_ ?_ ?_ ?_ fun x hx => ?_
                  · rw [hraf]; rfl
                  · rw [hraf]; rfl
                  · rw [hraf]; rfl
                  · rw [hraf]; rfl
                  · rw [hcasts]
                    exact List.mem_cons_of_mem _ hx
                refine sendRasp_tally ⟨hout, hvoter⟩ ((other_congr hlinks l p).trans hc.other) ?_
                intro _
                rw [hcasts, hreq, ← heq]
                exact List.mem_cons_self ..
            · exact sendRasp_tally hg.votes hc.other fun h => absurd rfl h

/-! ### Counting -/

theorem mem_peers {nam : Cstr} : nam ∈ c.peers p ↔ nam ∈ c.names ∧ nam ≠ p := by
  simp [Cluster.peers]

theorem length_peers (hp : p ∈ c.names) : 1 + (c.peers p).length = c.names.length := by
  have hlen := List.length_eq_length_filter_add (l := c.names) fun nam => decide (nam ≠ p)
  have hone : (c.names.filter fun nam => !decide (nam ≠ p)).length = 1 := by
    have hfilter : (c.names.filter fun nam => !decide (nam ≠ p)) = c.names.filter (· == p) := by
      refine List.filter_congr fun nam _ => ?_
      by_cases h : nam = p <;> simp [h]
    rw [hfilter, ← List.count_eq_length_filter, List.count_eq_one_of_mem c.nodup hp]
  rw [hone] at hlen
  rw [hlen, Nat.add_comm]
  rfl

/-- The votes of the peers and our own. -/
theorem countP_peers (hp : p ∈ c.names) {f : Cstr → Bool} (hf : f p = true) :
    1 + (c.peers p).countP f ≤ c.names.countP f := by
  have hsplit := List.countP_eq_countP_filter_add c.names f fun nam => decide (nam ≠ p)
  have hpos : 0 < (c.names.filter fun nam => !decide (nam ≠ p)).countP f :=
    List.countP_pos_iff.mpr ⟨p, by simp [hp], hf⟩
  have hpeers : (c.names.filter fun nam => decide (nam ≠ p)) = c.peers p := rfl
  rw [hpeers] at hsplit
  omega

/-- Who has counted a majority was given one. -/
theorem Voter.majority {net : Net} {raf : Server} (hb : Book c net) (hp : p ∈ c.names)
    (h : Voter c net p raf) (htyp : raf.typE ≠ .foll) (hvot : raf.popW / 2 < raf.votW) :
    Majority (net.voted p raf.temW) c.names := by
  have hcount := h.count htyp
  have hle : (c.peers p).countP (fun nam => raf.vog nam && net.voted p raf.temW nam)
      ≤ (c.peers p).countP (net.voted p raf.temW) :=
    List.countP_mono_left fun nam _ hn => (Bool.and_eq_true _ _ ▸ hn).2
  have hpop := h.pop
  have hmany := c.many
  -- somebody else voted for us, so we did too
  have hpos : 0 < (c.peers p).countP (net.voted p raf.temW) := by omega
  obtain ⟨nam, -, hnam⟩ := List.countP_pos_iff.mp hpos
  have hself : net.voted p raf.temW p = true :=
    decide_eq_true (hb.self _ (of_decide_eq_true hnam))
  have hall := countP_peers hp hself
  unfold Majority
  omega

theorem promote_tally (hp : p ∈ c.names) (h : Polls c mem p front s)
    (hvot : s.raf.popW / 2 < s.raf.votW) :
    Tally c mem p front (promote.run s).1 (promote.run s).2 := by
  unfold promote
  rw [run_getRaf]
  split
  · exact h
  · rw [run_check]
    split
    · next hcand =>
      have htyp : s.raf.typE = .cand := by
        obtain hpop | hcand := hcand
        · have hmany := c.many
          rw [← h.own.pop] at hmany
          omega
        · exact hcand
      have hne : s.raf.typE ≠ .foll := by rw [htyp]; decide
      have hmaj := h.own.majority h.book hp hne hvot
      exact ⟨⟨h.book, h.rest, h.items⟩, ⟨{ h.own.toStored with }, fun _ => h.own.count hne,
        fun _ => hmaj⟩⟩
    · exact h.toOutside.left

theorem countVote_polls {nam : Cstr} {req : Rreq} {sucW : UInt32} (h : Polls c mem p front s)
    (hnam : nam ∈ c.peers p)
    (hcast : sucW ≠ 0 → req.msgU.temW = s.raf.temW → ⟨nam, s.raf.temW, p⟩ ∈ s.net.casts) :
    ∃ s', (countVote nam req sucW).run s = (.ok (), s') ∧ Polls c mem p front s' := by
  unfold countVote
  rw [run_getRaf]
  split
  · next hcond =>
    obtain ⟨hsuc, hterm, hvog⟩ := hcond
    have hvoted : s.net.voted p s.raf.temW nam = true := decide_eq_true (hcast hsuc hterm)
    refine ⟨_, rfl, ⟨h.book, h.rest, h.items⟩, { h.own.toStored with }, ?_, h.own.lead⟩
    intro htyp
    have hcount := h.own.count htyp
    have hlt : (c.peers p).countP (fun n => s.raf.vog n && s.net.voted p s.raf.temW n)
        < (c.peers p).countP fun n =>
          update s.raf.vog nam true n && s.net.voted p s.raf.temW n := by
      refine countP_lt (fun n _ hn => ?_) hnam ?_ ?_
      · by_cases he : n = nam
        · subst he
          simp [hvoted]
        · simpa [he] using hn
      · simp [hvog]
      · simp [hvoted]
    show s.raf.votW + 1 ≤ 1 + (c.peers p).countP fun n =>
      update s.raf.vog nam true n && s.net.voted p s.raf.temW n
    omega
  · exact ⟨s, rfl, h⟩

theorem rreqDone_tally {nam : Cstr} {req : Rreq} {sucW : UInt32} (hp : p ∈ c.names)
    (h : Polls c mem p front s) (hnam : nam ∈ c.peers p)
    (hcast : sucW ≠ 0 → req.msgU.temW = s.raf.temW → ⟨nam, s.raf.temW, p⟩ ∈ s.net.casts) :
    Tally c mem p front ((rreqDone nam req sucW).run s).1 ((rreqDone nam req sucW).run s).2 := by
  unfold rreqDone
  split
  · exact h
  · unfold revoDone
    obtain ⟨s', hs', hpolls⟩ := countVote_polls h hnam hcast
    rw [Run.run_bind, hs']
    simp only
    rw [run_getRaf]
    split
    · next hvot => exact promote_tally hp hpolls hvot
    · exact hpolls
  · exact h.toOutside.left

/-- A response is to a request that is no older than the one at the head of the
queue. -/
theorem head_le {net : Net} {ron : Rcon} {req : Rreq} {tail : List Rreq}
    (hc : Conn net (hold l p [it]) p l q ron) (hrasp : it.msg.body.isRasp = true)
    (hout : ron.outU = req :: tail)
    (horder : ron.sent.Pairwise fun r r' => r.msgU.temW ≤ r'.msgU.temW) :
    req.msgU.temW ≤ it.req.msgU.temW ∧ it.req ∈ ron.sent := by
  obtain ⟨i, hi, hle, -⟩ := hc.pipe.next (answers_hold hrasp ron)
  simp only [pipeOf] at hi hle
  refine ⟨?_, List.mem_of_getElem? hi⟩
  have hhead : ron.sent[ron.sent.length - ron.outU.length]? = some req := by
    rw [← List.head?_drop, ← List.suffix_iff_eq_drop.mp hc.queue, hout]
    rfl
  obtain ⟨hj, hreq⟩ := List.getElem?_eq_some_iff.mp hhead
  obtain ⟨hi', hask⟩ := List.getElem?_eq_some_iff.mp hi
  obtain hlt | heq := Nat.lt_or_eq_of_le hle
  · rw [← hreq, ← hask]
    exact List.pairwise_iff_getElem.mp horder _ _ hj hi' hlt
  · cases hhead.symm.trans (heq ▸ hi)
    exact UInt32.le_refl _

theorem Polls.drop (h : Polls c mem p (hold l p [it]) s) : Polls c mem p (hold l p []) s :=
  ⟨⟨h.book, h.rest, fun e x hx => h.items e x (stream_hold_sub s.net l p it e hx)⟩, h.own⟩

theorem elects_doRasp {sucW : UInt32} (hbody : it.msg.body = .rasp sucW) :
    Elects c mem p (hold l p [it]) (hold l p []) (doRasp l it.msg.temW sucW it.req) := by
  have hrasp : it.msg.body.isRasp = true := by rw [hbody]; rfl
  refine .of (holds_doRasp hbody _) fun s hs => ?_
  unfold doRasp
  cases hr : s.raf.rons l with
  | none =>
      rw [run_deref_none s hr]
      exact hs.votes.toOutside.left
  | some ron =>
      obtain ⟨q, hc⟩ := hs.links.own.rons l ron hr
      obtain ⟨horder, hbound⟩ := hs.votes.own.order l ron hr
      have hlog : Polls c mem p (hold l p [it])
          { s with net := { s.net with
            log := ⟨ron.sent, ron.outU.head?, it.req⟩ :: s.net.log } } :=
        hs.votes.same { SameVotes.refl s with }
      have hdead : ∀ t, Polls c mem p (hold l p [it]) t → Tally c mem p (hold l p [])
          ((connDead l).run t).1 ((connDead l).run t).2 := by
        intro t ht
        have h := (ht.same (still_connDead l t)).drop
        revert h
        rcases (connDead l).run t with ⟨r, t'⟩
        intro h
        cases r with
        | ok a => exact h
        | stop e => exact h.toOutside.left
        | spent => exact h.toOutside.left
      rw [run_deref s hr, run_modNet]
      split
      · exact hdead _ hlog
      · exact hdead _ hlog
      · next nam req tail hnam hout =>
        cases hc.named nam hnam
        obtain ⟨hpn, hqn, hpq⟩ := hs.links.wires.ends l p q hc.other
        obtain ⟨hle, hmem⟩ := head_le hc hrasp hout horder
        -- a vote that is counted was given in this term
        have hcast : sucW ≠ 0 → req.msgU.temW = s.raf.temW → ⟨q, s.raf.temW, p⟩ ∈ s.net.casts := by
          intro hsuc hterm
          have hv := hs.voted hc.other
          unfold Voted at hv
          rw [hbody] at hv
          have heq : it.req.msgU.temW = s.raf.temW :=
            UInt32.le_antisymm (hbound _ hmem) (hterm ▸ hle)
          exact heq ▸ hv hsuc
        have hdone := rreqDone_tally hpn hlog (mem_peers.mpr ⟨hqn, Ne.symm hpq⟩) hcast
        rw [Run.run_bind]
        revert hdone
        rcases (rreqDone q req sucW).run _ with ⟨r, t⟩
        intro hdone
        cases r with
        | stop e => exact hdone
        | spent => exact hdone
        | ok a =>
            simp only
            rw [Run.run_bind]
            have hterm := (noteTerm_tally (s := t) hdone it.msg.temW).1
            revert hterm
            rcases (noteTerm it.msg.temW).run t with ⟨r, u⟩
            intro hterm
            cases r with
            | stop e => exact hterm
            | spent => exact hterm
            | ok a =>
                have hpop := still_modRon l (f := fun ron => { ron with outU := ron.outU.tail })
                  (fun _ => rfl) u
                exact (Polls.same hpop hterm).drop

theorem elects_connMsg : Elects c mem p (hold l p [it]) (hold l p []) (connMsg l it) := by
  unfold connMsg
  split
  · next rest citD entD entU hbody =>
    have hname : ∀ q, ItemOk q it → rest.name = q.str := by
      intro q h
      unfold ItemOk at h
      rw [hbody] at h
      exact h
    refine .of (holds_doApen hbody _) fun s hs => ?_
    have h := (@doRest_ends c mem p l it rest it.msg.temW hname s hs).1
    unfold doApen
    revert h
    rcases (doRest l it.msg.temW rest).run s with ⟨r, t⟩
    intro h
    cases r with
    | ok a => exact h.votes.drop
    | stop e => exact h.2
    | spent => exact h.2
  · next hbody => exact elects_doRevo hbody
  · next hbody => exact elects_doRasp hbody

theorem Polls.reframe {s' : Proc} (h : Polls c mem p front s) (hraf : s'.raf = s.raf)
    (hsis : s'.net.sis = s.net.sis) (hcasts : s'.net.casts = s.net.casts)
    (hlinks : s'.net.links = s.net.links)
    (hstream : ∀ e, s'.net.stream front' e = s.net.stream front e) : Polls c mem p front' s' where
  book := by
    refine ⟨?_, ?_, ?_, ?_⟩
    · rw [hcasts]
      exact h.book.once
    · rw [hcasts]
      exact h.book.self
    · rw [hcasts, hsis]
      exact h.book.disk
    · rw [hsis]
      exact h.book.vote
  rest := fun p' raf hp hraf =>
    (h.rest p' raf hp hraf).congr (by rw [hsis]) fun x hx => hcasts ▸ hx
  items := by
    intro e it hit
    rw [hstream] at hit
    rw [hcasts, other_congr hlinks]
    exact h.items e it hit
  own := by
    rw [hraf]
    exact h.own.congr (by rw [hsis]) fun x hx => hcasts ▸ hx

theorem elects_connNext (l : Link) : Elects c mem p (hold l p []) (hold l p []) (connNext l) := by
  intro s hs
  unfold connNext
  rw [run_getRaf, run_getNet, hs.links.own.strC]
  cases hflow : s.net.flow (l, p) with
  | nil => exact hs
  | cons it its =>
      refine elects_connMsg _ ⟨hs.links.take hflow, hs.votes.reframe rfl rfl rfl rfl ?_⟩
      intro e
      by_cases he : e = (l, p)
      · rw [he, stream_hold, stream_hold]
        simp [Net.stream, idle, hflow]
      · rw [stream_hold_of_ne _ _ he, stream_hold_of_ne _ _ he]
        simp [Net.stream, he]

theorem elects_connWork (l : Link) (n : Nat) :
    Elects c mem p (hold l p []) (hold l p []) (connWork l n) := by
  induction n with
  | zero => exact (still_connFlush l).elects (holds_connFlush l)
  | succ n ih => exact (elects_connNext l).bind fun _ => ih

/-! ### Elections -/

/-- A request is sent. One for a vote needs our own. -/
theorem sendRreq_ends {msg : Self → Rmsg} (hmsg : Asks p msg)
    (htem : ∀ raf, (msg raf).temW = raf.temW) (hs : Good c mem p idle s)
    (hcast : (msg s.raf.toSelf).body.isRevo = true → ⟨p, s.raf.temW, p⟩ ∈ s.net.casts) :
    Ends c mem p idle ((sendRreq msg l).run s).1 ((sendRreq msg l).run s).2 ∧
      ((sendRreq msg l).run s).2.raf.toSelf = s.raf.toSelf ∧
      ((sendRreq msg l).run s).2.net.casts = s.net.casts := by
  have hl : Fine c mem p idle _ _ := holds_sendRreq hmsg l s hs.links
  suffices h : Tally c mem p idle ((sendRreq msg l).run s).1 ((sendRreq msg l).run s).2 ∧
      ((sendRreq msg l).run s).2.raf.toSelf = s.raf.toSelf ∧
      ((sendRreq msg l).run s).2.net.casts = s.net.casts from ⟨ends_of hl h.1, h.2⟩
  clear hl
  unfold sendRreq
  cases hr : s.raf.rons l with
  | none =>
      rw [run_deref_none s hr]
      exact ⟨hs.votes.toOutside.left, rfl, rfl⟩
  | some ron =>
      obtain ⟨q, hc⟩ := hs.links.own.rons l ron hr
      have hother : s.net.other l s.raf.strC = some q := hs.links.own.strC ▸ hc.other
      rw [run_deref s hr, run_getRaf, run_check]
      split
      · rw [Run.run_bind, run_modRon s hr]
        simp only
        rw [run_rmsgQueue (q := q)]
        · refine ⟨?_, rfl, queue_casts ..⟩
          have hvoted : Voted s.net.casts p q
              ⟨msg s.raf.toSelf, ⟨msg s.raf.toSelf, ron.sent.length⟩⟩ := by
            unfold Voted
            have hreq := hmsg.isReq s.raf.toSelf
            revert hreq hcast
            cases hbody : (msg s.raf.toSelf).body with
            | revo rest =>
                intro hcast _
                rw [htem]
                exact hcast rfl
            | apen rest citD entD entU => exact fun _ _ => trivial
            | rasp sucW => exact fun _ h => nomatch h
          have hout := hs.votes.toOutside.queue (other_symm hc.other) hvoted fun _ _ hx => hx
          refine ⟨⟨hout.book, hout.rest, hout.items⟩, ?_⟩
          refine (hs.votes.own.queue (e := (l, q))
            ⟨msg s.raf.toSelf, ⟨msg s.raf.toSelf, ron.sent.length⟩⟩).restore ?_ rfl rfl rfl rfl
            fun _ hx => hx
          have hst := (hs.votes.own.queue (e := (l, q))
            ⟨msg s.raf.toSelf, ⟨msg s.raf.toSelf, ron.sent.length⟩⟩).toStored
          refine { hst with order := ?_ }
          intro l' ron' hr'
          by_cases hll : l' = l
          · subst hll
            cases (update_self l' _ _).symm.trans hr'
            obtain ⟨hpair, hle⟩ := hs.votes.own.order l' ron hr
            refine ⟨?_, ?_⟩
            · refine List.pairwise_append.mpr ⟨hpair, List.pairwise_singleton _ _, ?_⟩
              intro r hr r' hr'
              cases List.mem_singleton.mp hr'
              show r.msgU.temW ≤ (msg s.raf.toSelf).temW
              rw [htem]
              exact hle r hr
            · intro r hr
              obtain hr | hr := List.mem_append.mp hr
              · exact hle r hr
              · cases List.mem_singleton.mp hr
                show (msg s.raf.toSelf).temW ≤ s.raf.temW
                rw [htem]
                exact UInt32.le_refl _
          · exact hs.votes.own.order l' ron' ((update_of_ne hll _ _).symm.trans hr')
        · exact hother
      · exact ⟨hs.votes.toOutside.left, rfl, rfl⟩

/-- We may ask for votes: we have our own. -/
def Entitled (c : Cluster) (mem : Cstr → Option Server) (p : Cstr) (msg : Self → Rmsg)
    (s : Proc) : Prop :=
  Good c mem p idle s ∧
    ((msg s.raf.toSelf).body.isRevo = true → ⟨p, s.raf.temW, p⟩ ∈ s.net.casts)

/-- How asking one peer ends. -/
def Asked (c : Cluster) (mem : Cstr → Option Server) (p : Cstr) (msg : Self → Rmsg) {α : Type} :
    Res Unit α → Proc → Prop
  | .ok _, s => Entitled c mem p msg s
  | _, s => Gone c mem p s ∧ Left c mem p s

theorem asked_of {msg : Self → Rmsg} {α : Type} {x : Act α} (hs : Entitled c mem p msg s)
    (hends : Ends c mem p idle (x.run s).1 (x.run s).2)
    (hself : (x.run s).2.raf.toSelf = s.raf.toSelf) (hcasts : (x.run s).2.net.casts = s.net.casts) :
    Asked c mem p msg (x.run s).1 (x.run s).2 := by
  revert hends hself hcasts
  rcases x.run s with ⟨r, t⟩
  intro hends hself hcasts
  cases r with
  | ok a =>
      refine ⟨hends, ?_⟩
      rw [show t.raf.toSelf = s.raf.toSelf from hself, show t.net.casts = s.net.casts from hcasts]
      exact hs.2
  | stop e => exact hends
  | spent => exact hends

theorem Still.asked {msg : Self → Rmsg} {α : Type} {x : Act α} (hx : Still x)
    (hl : Holds c mem p idle idle x) :
    Run.Triple (Entitled c mem p msg) x (Asked c mem p msg) :=
  fun s hs => asked_of hs (hx.elects hl s hs.1) (hx s).self (hx s).casts

theorem asked_connPeer {msg : Self → Rmsg} (hmsg : Asks p msg)
    (htem : ∀ raf, (msg raf).temW = raf.temW) {nam : Cstr} (hnam : nam ∈ c.peers p) :
    Run.Triple (Entitled c mem p msg) (connPeer (sendRreq msg) nam) (Asked c mem p msg) := by
  have hsend : ∀ l, Run.Triple (Entitled c mem p msg) (sendRreq msg l) (Asked c mem p msg) := by
    intro l s hs
    obtain ⟨hends, hself, hcasts⟩ := sendRreq_ends (l := l) hmsg htem hs.1 hs.2
    exact asked_of hs hends hself hcasts
  unfold connPeer
  refine ((still_connLive nam).asked (holds_connLive nam)).bind (fun l => ?_) (fun _ _ h => h)
    fun _ h => h
  cases l with
  | some l =>
      exact (hsend l).bind (fun _ => (still_connFlush l).asked (holds_connFlush l))
        (fun _ _ h => h) fun _ h => h
  | none =>
      exact ((still_connNew nam).asked (holds_connNew hnam)).bind (fun l => hsend l)
        (fun _ _ h => h) fun _ h => h

theorem asked_connAll {msg : Self → Rmsg} (hmsg : Asks p msg)
    (htem : ∀ raf, (msg raf).temW = raf.temW) (nams : List Cstr)
    (hnams : ∀ nam ∈ nams, nam ∈ c.peers p) :
    Run.Triple (Entitled c mem p msg) (connAll (sendRreq msg) nams) (Asked c mem p msg) := by
  induction nams with
  | nil => exact fun _ h => h
  | cons nam nams ih =>
      refine (asked_connPeer hmsg htem (hnams nam (List.mem_cons_self ..))).bind (fun _ => ?_)
        (fun _ _ h => h) fun _ h => h
      exact ih fun x hx => hnams x (List.mem_cons_of_mem _ hx)

theorem asked_connPeers {msg : Self → Rmsg} (hmsg : Asks p msg)
    (htem : ∀ raf, (msg raf).temW = raf.temW) (hs : Entitled c mem p msg s) :
    Ends c mem p idle ((getRaf >>= fun raf => connAll (sendRreq msg) raf.namU).run s).1
      ((getRaf >>= fun raf => connAll (sendRreq msg) raf.namU).run s).2 := by
  rw [run_getRaf]
  have h := asked_connAll hmsg htem s.raf.namU (fun nam h => hs.1.links.own.namU ▸ h) s hs
  revert h
  rcases (connAll (sendRreq msg) s.raf.namU).run s with ⟨r, t⟩
  intro h
  cases r with
  | ok a => exact h.1
  | stop e => exact h
  | spent => exact h

theorem lt_add_one {temW : UInt32} (h : temW ≠ 0xffffffff) : temW < temW + 1 := by
  have hlt := temW.toNat_lt
  have hne : temW.toNat ≠ 4294967295 := fun e => h (UInt32.toNat_inj.mp e)
  rw [UInt32.lt_iff_toNat_lt, UInt32.toNat_add]
  simp only [UInt32.reduceToNat]
  omega

theorem startElection_tally (hl : Keeps c mem p idle s) (h : Outside c mem p idle s)
    (hst : Stored c s.net p s.raf) (htyp : s.raf.typE = .cand) (hmax : s.raf.temW ≠ 0xffffffff) :
    Tally c mem p idle (startElection.run s).1 (startElection.run s).2 := by
  unfold startElection
  rw [run_modRaf,
    show { s with raf := { s.raf with temW := s.raf.temW + 1 } } = s.raises (s.raf.temW + 1) from rfl,
    Run.run_bind]
  have hsame := inert_saveTerm (s.raises (s.raf.temW + 1))
  obtain ⟨t, ht, hleft⟩ | ⟨t, ht, hraf, hnew⟩ := saveTerm_newer h hst (lt_add_one hmax)
  · rw [ht]
    exact hleft
  · rw [ht] at hsame ⊢
    simp only
    rw [run_modRaf, run_getRaf, Run.run_bind]
    -- our own vote is the first one in the new term
    have hraise : SameLinks s (s.raises (s.raf.temW + 1)) :=
      ⟨rfl, rfl, rfl, rfl, rfl, rfl, rfl, rfl⟩
    have hkt : Keeps c mem p idle t := Keeps.same hsame (hl.same hraise)
    have hvote := @saveVote_casts c mem p idle
      { t with raf := { t.raf with vog := fun _ => false, votW := 1 } } p
      ⟨hnew.book, hnew.rest, hnew.items⟩ { hnew.own with } hl.own.member
      (fun a ha => absurd (hnew.newer _ ha rfl) (UInt32.lt_irrefl _)) (.inl rfl)
    have hsame' := inert_saveVote p { t with raf := { t.raf with vog := fun _ => false, votW := 1 } }
    rw [show t.raf.strC = p from hnew.own.strC]
    obtain ⟨u, hu, hleft⟩ | ⟨u, hu, hraf', hout, hst', -, hcasts⟩ := hvote
    · rw [hu]
      exact hleft
    · rw [hu] at hsame' ⊢
      have hself : ⟨p, u.raf.temW, p⟩ ∈ u.net.casts := by
        rw [hcasts, hraf']
        exact List.mem_cons_self ..
      have hreset : SameLinks t { t with raf := { t.raf with vog := fun _ => false, votW := 1 } } :=
        ⟨rfl, rfl, rfl, rfl, rfl, rfl, rfl, rfl⟩
      have hku : Keeps c mem p idle u := Keeps.same hsame' (hkt.same hreset)
      have hcand : u.raf.typE = .cand := by
        rw [hraf']
        show t.raf.typE = .cand
        rw [hraf]
        exact htyp
      have hvoter : Voter c u.net p u.raf := by
        refine ⟨hst', ?_, fun hlead => nomatch hcand.symm.trans hlead⟩
        intro _
        rw [show u.raf.votW = 1 by rw [hraf']; rfl]
        exact Nat.le_add_right 1 _
      exact (asked_connPeers (asks_revo hl.own.member) (fun _ => rfl)
        (s := u) ⟨⟨hku, hout, hvoter⟩, fun _ => hself⟩).tally

theorem timeCb_ends (hs : Good c mem p idle s)
    (hmax : s.raf.typE ≠ .lead → s.raf.temW ≠ 0xffffffff) :
    Ends c mem p idle (timeCb.run s).1 (timeCb.run s).2 := by
  refine ends_of (holds_timeCb hs.links.own.member s hs.links) ?_
  have hl := hs.links
  have hv := hs.votes
  unfold timeCb
  rw [run_getRaf]
  cases htyp : s.raf.typE with
  | none => exact hv.toOutside.left
  | foll =>
      have hmax' := hmax (by rw [htyp]; decide)
      have hsame : SameLinks s { s with raf := { s.raf with typE := .cand } } :=
        ⟨rfl, rfl, rfl, rfl, rfl, rfl, rfl, rfl⟩
      exact startElection_tally (hl.same hsame) ⟨hv.book, hv.rest, hv.items⟩
        { hv.own.toStored with } rfl hmax'
  | cand =>
      exact startElection_tally hl hv.toOutside hv.own.toStored htyp (hmax (by rw [htyp]; decide))
  | lead =>
      exact (asked_connPeers (asks_beat hl.own.member) (fun _ => rfl)
        (s := s) ⟨hs, fun hrevo => nomatch hrevo⟩).tally

/-! ### Steps -/

/-- Between callbacks, connections and votes are in order. -/
structure Ruled (c : Cluster) (s : State) : Prop where
  links : Linked c s
  votes : Elected c s

/-- A step that keeps clear of both slips: a start finds a zero behind the vote, if
there is one, and an election is not started in the last term. -/
def Careful (s : State) : Action → Prop
  | .boot p tail => s.net.sis p .vote = none ∨ tail = nul
  | .time p _ => ∀ raf, s.mem p = some raf → raf.typE ≠ .lead → raf.temW ≠ 0xffffffff
  | _ => True

section steps

variable {s s' : State}

theorem Ruled.good (h : Ruled c s) {raf : Server} (hraf : s.mem p = some raf) (kill : Kill) :
    Good c s.mem p idle ⟨raf, s.net, kill.fuse, kill.torn⟩ where
  links := h.links.keeps hraf kill
  votes := ⟨⟨h.votes.book, fun p' raf' _ hraf' => h.votes.voters p' raf' hraf', h.votes.items⟩,
    h.votes.voters p raf hraf⟩

theorem Good.ruled {t : Proc} (h : Good c s.mem p idle t) :
    Ruled c ⟨update s.mem p (some t.raf), t.net⟩ where
  links := h.links.linked
  votes := by
    refine ⟨h.votes.book, ?_, h.votes.items⟩
    intro p' raf hraf
    by_cases hp : p' = p
    · subst hp
      cases (update_self p' _ _).symm.trans hraf
      exact h.votes.own
    · exact h.votes.rest p' raf hp ((update_of_ne hp _ _).symm.trans hraf)

theorem Ruled.exec {act : Act Unit} {kill : Kill} (h : Ruled c s)
    (hact : ∀ t : Proc, s.mem p = some t.raf → Good c s.mem p idle t →
      Ends c s.mem p idle (act.run t).1 (act.run t).2)
    (hexec : s.exec p kill act = some s') : Ruled c s' := by
  obtain ⟨raf, hraf, rfl⟩ := Option.map_eq_some_iff.mp hexec
  have hends := hact ⟨raf, s.net, kill.fuse, kill.torn⟩ hraf (h.good hraf kill)
  revert hends
  rcases act.run ⟨raf, s.net, kill.fuse, kill.torn⟩ with ⟨r, t⟩
  intro hends
  cases r with
  | ok a => exact Good.ruled hends
  | stop e => exact ⟨hends.1, hends.2⟩
  | spent => exact ⟨hends.1, hends.2⟩

/-- Nothing changes but that streams get quieter and servers go. -/
theorem Elected.quieter {net : Net} (h : Elected c s) (hq : Quieter s.net net)
    (hsis : net.sis = s.net.sis) (hcasts : net.casts = s.net.casts)
    (hmem : ∀ p raf, mem p = some raf → s.mem p = some raf) : Elected c ⟨mem, net⟩ where
  book := by
    refine ⟨?_, ?_, ?_, ?_⟩
    · rw [hcasts]
      exact h.book.once
    · rw [hcasts]
      exact h.book.self
    · rw [hcasts, hsis]
      exact h.book.disk
    · rw [hsis]
      exact h.book.vote
  voters := fun p raf hraf =>
    (h.voters p raf (hmem p raf hraf)).congr (by rw [hsis]) fun _ hx => hcasts ▸ hx
  items := by
    intro e it hit
    rw [hcasts, other_congr hq.links]
    exact h.items e it ((hq.sub idle e).subset hit)

theorem Elected.accept {l : Link} (h : Elected c s) (hs : s.accept p l = some s') :
    Elected c s' := by
  obtain ⟨raf, hraf, hs⟩ := Option.bind_eq_some_iff.mp hs
  obtain ⟨k, hk, hs⟩ := Option.bind_eq_some_iff.mp hs
  obtain ⟨-, hs⟩ := Option.ite_none_right_eq_some.mp hs
  cases hs
  refine ⟨⟨h.book.once, h.book.self, h.book.disk, h.book.vote⟩, ?_, ?_⟩
  · intro p' raf' hraf'
    by_cases hp : p' = p
    · subst hp
      cases (update_self p' _ _).symm.trans hraf'
      have hv := h.voters p' raf hraf
      refine hv.restore { hv.toStored with order := ?_ } rfl rfl rfl rfl fun _ hx => hx
      intro l' ron hr
      by_cases hl : l' = l
      · subst hl
        cases (update_self l' _ _).symm.trans hr
        exact ⟨List.Pairwise.nil, List.forall_mem_nil _⟩
      · exact hv.order l' ron ((update_of_ne hl _ _).symm.trans hr)
    · have hv := h.voters p' raf' ((update_of_ne hp _ _).symm.trans hraf')
      exact hv.restore { hv.toStored with } rfl rfl rfl rfl fun _ hx => hx
  · intro e it hit
    obtain ⟨q, hq, hv⟩ := h.items e it hit
    exact ⟨q, (join_other hk e.1 e.2).trans hq, hv⟩

/-- What a start reads, from a store whose vote is a member's. -/
theorem follInit_some {sis : Sist} {tail : Cstr} {raf : Server} (hp : p ∈ c.names)
    (hvote : ∀ b, sis .vote = some b → b = [] ∨ ∃ nam ∈ c.names, b = nam.str)
    (htail : sis .vote = none ∨ tail = nul) (h : follInit c p sis tail = some raf) :
    readTerm (sis .term) = some raf.temW ∧ sis .vote = raf.vogC.map (·.str) ∧
      (∀ nam, raf.vogC = some nam → nam ∈ c.names) ∧ raf.strC = p ∧
      raf.popW = c.names.length ∧ raf.votW ≤ 1 ∧ raf.typE ≠ .lead ∧ ∀ l, raf.rons l = none := by
  have hpop := length_peers hp
  unfold follInit at h
  split at h
  · cases h
  · cases h
  · next temW hterm hne =>
    cases hv : sis .vote with
    | none =>
        simp only [hv, Option.map_none] at h
        cases h
        exact ⟨hterm, rfl, (fun _ h => nomatch h), rfl, hpop, Nat.zero_le 1, (fun h => nomatch h),
          fun _ => rfl⟩
    | some b =>
        -- the memory behind the vote holds a zero, and the name is read as it was stored
        obtain htail | rfl := htail
        · rw [hv] at htail
          cases htail
        simp only [hv, Option.map_some, nul, List.append_nil] at h
        obtain rfl | ⟨nam, hnam, rfl⟩ := hvote b hv
        · exact absurd hv hne
        split at h
        · next heq =>
          cases Cstr.ext heq
          cases h
          refine ⟨hterm, rfl, ?_, rfl, hpop, Nat.le_refl 1, (fun h => nomatch h), fun _ => rfl⟩
          intro n hn
          cases hn
          exact hp
        · next hother =>
          have hmem : nam ∈ c.peers p := mem_peers.mpr ⟨hnam, fun e => hother (by rw [e])⟩
          have hfind : (c.peers p).find? (fun n => decide (n.str = nam.str)) = some nam := by
            cases hf : (c.peers p).find? fun n => decide (n.str = nam.str) with
            | none => exact absurd (List.find?_eq_none.mp hf nam hmem) (by simp)
            | some n =>
                have hstr := List.find?_some hf
                exact congrArg some (Cstr.ext (of_decide_eq_true hstr))
          cases h
          refine ⟨hterm, ?_, ?_, rfl, hpop, Nat.zero_le 1, (fun h => nomatch h), fun _ => rfl⟩
          · show some nam.str = ((c.peers p).find? _).map _
            rw [hfind]
            rfl
          · intro n hn
            cases hfind.symm.trans hn
            exact hnam

theorem Elected.boot {tail : Cstr} (hp : p ∈ c.names) (h : Elected c s)
    (htail : s.net.sis p .vote = none ∨ tail = nul) :
    Elected c { s with mem := update s.mem p (follInit c p (s.net.sis p) tail) } := by
  refine ⟨h.book, ?_, h.items⟩
  intro p' raf hraf
  by_cases hpp : p' = p
  · subst hpp
    have hinit := (update_self p' _ _).symm.trans hraf
    obtain ⟨hterm, hvote, hknown, hstr, hpop, hvot, hlead, hrons⟩ :=
      follInit_some hp (h.book.vote p') htail hinit
    refine ⟨⟨hstr, hterm, hvote, hknown, hpop, ?_⟩, ?_, fun hl => absurd hl hlead⟩
    · intro l ron hr
      cases (hrons l).symm.trans hr
    · exact fun _ => hvot.trans (Nat.le_add_right 1 _)
  · exact h.voters p' raf ((update_of_ne hpp _ _).symm.trans hraf)

theorem Ruled.next {a : Action} (h : Ruled c s) (hcare : Careful s a)
    (hstep : step c a s = some s') : Ruled c s' := by
  refine ⟨h.links.next hstep, ?_⟩
  cases a with
  | boot p tail =>
      obtain ⟨⟨hp, -⟩, hs⟩ := Option.ite_none_right_eq_some.mp hstep
      cases hs
      exact h.votes.boot hp hcare
  | time p kill => exact (h.exec (fun t ht hg => timeCb_ends hg (hcare t.raf ht)) hstep).votes
  | work p l n kill =>
      obtain ⟨⟨hstat, -⟩, hs⟩ := Option.ite_none_right_eq_some.mp hstep
      refine (h.exec (fun t ht hg => ?_) hs).votes
      rw [State.stat, ht] at hstat
      obtain ⟨ron, hr, -⟩ := Option.map_eq_some_iff.mp hstat
      have hhold : ∀ e, t.net.stream (hold l p []) e = t.net.stream idle e := by
        intro e
        by_cases he : e = (l, p)
        · rw [he, stream_hold, List.nil_append]
        · exact stream_hold_of_ne _ _ he
      have hends := elects_connWork l n t
        ⟨hg.links.start hr, hg.votes.reframe rfl rfl rfl rfl hhold⟩
      revert hends
      rcases (connWork l n).run t with ⟨r, t'⟩
      intro hends
      cases r with
      | ok a =>
          refine ⟨hends.links.finish, hends.votes.reframe rfl rfl rfl rfl ?_⟩
          intro e
          by_cases he : e = (l, p)
          · rw [he, stream_hold, List.nil_append]
          · exact (stream_hold_of_ne _ _ he).symm
      | stop e => exact hends
      | spent => exact hends
  | connect p l kill =>
      obtain ⟨-, hs⟩ := Option.ite_none_right_eq_some.mp hstep
      exact (h.exec (fun t _ hg => (still_connectCb l).elects (holds_connectCb l) t hg) hs).votes
  | refuse p l =>
      obtain ⟨-, hs⟩ := Option.ite_none_right_eq_some.mp hstep
      exact (h.exec (fun t _ hg => (still_connFree l).elects (holds_connFree l) t hg) hs).votes
  | accept p l => exact h.votes.accept hstep
  | lost p l =>
      obtain ⟨-, hs⟩ := Option.ite_none_right_eq_some.mp hstep
      exact (h.exec (fun t _ hg => (still_connDead l).elects (holds_connDead l) t hg) hs).votes
  | free p l =>
      obtain ⟨-, hs⟩ := Option.ite_none_right_eq_some.mp hstep
      exact (h.exec (fun t _ hg => (still_connFree l).elects (holds_connFree l) t hg) hs).votes
  | crash p =>
      obtain ⟨-, hs⟩ := Option.ite_none_left_eq_some.mp hstep
      cases hs
      refine h.votes.quieter (exit_quieter s.net p) rfl rfl ?_
      intro p' raf hraf
      by_cases hp : p' = p
      · subst hp
        cases (update_self p' _ _).symm.trans hraf
      · exact (update_of_ne hp _ _).symm.trans hraf
  | cut e n =>
      cases hstep
      exact h.votes.quieter (cut_quieter s.net e n) rfl rfl fun _ _ hraf => hraf

theorem ruled_init (c : Cluster) : Ruled c State.init where
  links := linked_init c
  votes := by
    refine ⟨⟨?_, List.forall_mem_nil _, List.forall_mem_nil _, ?_⟩, (fun _ _ h => nomatch h), ?_⟩
    · intro who tem a b ha
      cases ha
    · intro p b hb
      cases hb
    · intro e it hit
      cases hit

theorem ruled (h : Reachable State.init (step c) Careful s) : Ruled c s :=
  h.invariant (ruled_init c) fun _ _ _ hs hcare hstep => hs.next hcare hstep

/-- In every run whose steps keep clear of the two slips, no two servers lead in one
term. -/
theorem election_safety (c : Cluster) (h : Reachable State.init (step c) Careful s)
    {p q : Cstr} {raf raf' : Server} (hp : s.mem p = some raf) (hq : s.mem q = some raf')
    (hlead : raf.typE = .lead) (hlead' : raf'.typE = .lead) (hterm : raf.temW = raf'.temW) :
    p = q := by
  have hv := (ruled h).votes
  have hmaj := (hv.voters p raf hp).lead hlead
  have hmaj' := (hv.voters q raf' hq).lead hlead'
  rw [← hterm] at hmaj'
  obtain ⟨nam, -, hn, hn'⟩ := hmaj.meet hmaj'
  exact hv.book.once nam raf.temW p q (of_decide_eq_true hn) (of_decide_eq_true hn')

/-! ### Three servers -/

/-- Whether a step is careful. -/
def careful (s : State) : Action → Bool
  | .boot p tail => s.net.sis p .vote = none || tail = nul
  | .time p _ => (s.mem p).all fun raf => raf.typE = .lead || raf.temW != 0xffffffff
  | _ => true

theorem careful_iff {a : Action} (h : careful s a = true) : Careful s a := by
  cases a with
  | boot p tail => simpa [careful, Careful] using h
  | time p kill =>
      intro raf hraf hlead
      simpa [careful, hraf, hlead] using h
  | _ => trivial

theorem election_safety_electA : ∃ s raf,
    Reachable State.init (step duo) Careful s ∧ s.mem nameA = some raf ∧ raf.typE = .lead ∧
      ∀ q raf', s.mem q = some raf' → raf'.typE = .lead → raf.temW = raf'.temW → nameA = q := by
  have hrun : ((runs (guarded careful (step duo)) electA State.init).any fun s =>
      (s.mem nameA).any fun raf => raf.typE = .lead) = true := by decide
  obtain ⟨s, hs, htest⟩ := Reachable.of_guarded (fun _ _ => careful_iff) electA hrun
  obtain ⟨raf, hraf, hlead⟩ := Option.any_eq_true _ _ |>.mp htest
  have hlead := of_decide_eq_true hlead
  refine ⟨s, raf, hs, hraf, hlead, fun q raf' hq hlead' hterm => ?_⟩
  exact election_safety duo hs hraf hq hlead hlead' hterm

/-- The name `c:1`, for concrete cases. -/
def nameC : Cstr := ⟨[99, 58, 49], by decide⟩

/-- Memory that happens to hold an `x` and then a terminator. -/
def tailX : Cstr := ⟨[120], by decide⟩

def trio : Cluster where
  names := [nameA, nameB, nameC]
  nodup := by decide
  many := by decide
  filled := by decide
  short := by decide

/-- The first and the second server start an election, and the third votes for the
first. It is killed, and does not find its vote again. -/
def forgetA : List Action :=
  [.boot nameA nul, .boot nameB nul, .boot nameC nul, .time nameA spared, .time nameB spared,
    .connect nameA 1 spared, .accept nameC 1, .work nameC 1 1 spared, .work nameA 1 1 spared,
    .crash nameC, .boot nameC tailX]

/-- Then it votes for the second in the same term. -/
def electB : List Action :=
  forgetA ++
    [.connect nameB 3 spared, .accept nameC 3, .work nameC 3 1 spared, .work nameB 3 1 spared]

theorem two_leaders : ∃ s raf raf',
    Reachable State.init (step trio) (fun _ _ => True) s ∧ s.mem nameA = some raf ∧
      s.mem nameB = some raf' ∧ raf.typE = .lead ∧ raf'.typE = .lead ∧ raf.temW = 1 ∧
      raf'.temW = 1 ∧ nameA ≠ nameB := by
  have hrun : ((runs (step trio) electB State.init).any fun s =>
      ((s.mem nameA).any fun raf => raf.typE = .lead && raf.temW = 1) &&
      ((s.mem nameB).any fun raf => raf.typE = .lead && raf.temW = 1)) = true := by decide
  obtain ⟨s, hs, htest⟩ := reached hrun
  simp only [Bool.and_eq_true, Option.any_eq_true, decide_eq_true_eq] at htest
  obtain ⟨⟨raf, hraf, hlead, hterm⟩, raf', hraf', hlead', hterm'⟩ := htest
  exact ⟨s, raf, raf', hs, hraf, hraf', hlead, hlead', hterm, hterm', by decide⟩

end steps

end Vere.Raft
