import Vere.Raft.Election

/-!
# Vere.Raft.Store

What a server reads back when it is started again.

`wrote` is what the server has stored last, `sis` are the files. Only three
functions touch either of them (`saveTerm`, `saveVote` and `clearVote`), and unless
the process is killed between the two halves of a `put` they change both alike
(`Kept`). What a start makes of the files is then decided by the memory behind the
vote alone (`store_read_back`).
-/

namespace Vere.Raft

open Vere.Lib Function

/-- The files of a server are what it has stored, and it has cast the vote. -/
structure Kept (net : Net) (p : Cstr) : Prop where
  term : readTerm (net.sis p .term) = some (net.wrote p).1
  vote : net.sis p .vote = (net.wrote p).2.map (·.str)
  cast : ∀ nam, (net.wrote p).2 = some nam → ∃ tem, ⟨p, tem, nam⟩ ∈ net.casts

section Kept

variable {net net' : Net} {p q : Cstr}

theorem Kept.congr (h : Kept net q) (hsis : net'.sis q = net.sis q)
    (hwrote : net'.wrote q = net.wrote q) (hcasts : ∀ x ∈ net.casts, x ∈ net'.casts) :
    Kept net' q where
  term := by
    rw [hsis, hwrote]
    exact h.term
  vote := by
    rw [hsis, hwrote]
    exact h.vote
  cast := by
    rw [hwrote]
    intro nam hnam
    obtain ⟨tem, hx⟩ := h.cast nam hnam
    exact ⟨tem, hcasts _ hx⟩

theorem Kept.saveTerm (h : Kept net q) (temW : UInt32) :
    Kept ((net.write p .term (some (word temW))).wroteTerm p temW) q := by
  by_cases hq : q = p
  · subst hq
    refine ⟨?_, ?_, ?_⟩
    · simp [Net.wroteTerm, Net.write, readTerm_word]
    · simpa [Net.wroteTerm, Net.write] using h.vote
    · simpa [Net.wroteTerm, Net.write] using h.cast
  · refine h.congr ?_ ?_ fun _ hx => hx
    · exact write_sis_other net p _ hq .term
    · simp [Net.wroteTerm, Net.write, hq]

theorem Kept.clearVote (h : Kept net q) :
    Kept ((net.write p .vote none).wroteVote p none) q := by
  by_cases hq : q = p
  · subst hq
    refine ⟨?_, ?_, ?_⟩
    · simpa [Net.wroteVote, Net.write] using h.term
    · simp [Net.wroteVote, Net.write]
    · simp [Net.wroteVote, Net.write]
  · refine h.congr ?_ ?_ fun _ hx => hx
    · exact write_sis_other net p _ hq .vote
    · simp [Net.wroteVote, Net.write, hq]

theorem Kept.saveVote (h : Kept net q) (temW : UInt32) (nam : Cstr) :
    Kept (((net.write p .vote (some nam.str)).wroteVote p (some nam)).vote ⟨p, temW, nam⟩) q := by
  by_cases hq : q = p
  · subst hq
    refine ⟨?_, ?_, ?_⟩
    · simpa [Net.vote, Net.wroteVote, Net.write] using h.term
    · simp [Net.vote, Net.wroteVote, Net.write]
    · intro n hn
      have hn : some nam = some n := by simpa [Net.vote, Net.wroteVote, Net.write] using hn
      cases hn
      exact ⟨temW, List.mem_cons_self ..⟩
  · refine h.congr ?_ ?_ fun _ hx => List.mem_cons_of_mem _ hx
    · exact write_sis_other net p _ hq .vote
    · simp [Net.vote, Net.wroteVote, Net.write, hq]

end Kept

/-! ### Callbacks -/

/-- A callback that is not killed inside a `put` keeps the files in order, and all
votes it casts are its own. -/
structure Files (s s' : Proc) : Prop where
  strC : s'.raf.strC = s.raf.strC
  torn : s'.torn = s.torn
  kept : s.torn = false → (∀ q, Kept s.net q) → ∀ q, Kept s'.net q
  who : ∀ x ∈ s'.net.casts, x ∈ s.net.casts ∨ x.who = s.raf.strC

theorem Files.refl (s : Proc) : Files s s := ⟨rfl, rfl, fun _ h => h, fun _ h => .inl h⟩

theorem Files.trans (s t u : Proc) (h : Files s t) (h' : Files t u) : Files s u where
  strC := h'.strC.trans h.strC
  torn := h'.torn.trans h.torn
  kept := fun ht hk => h'.kept (h.torn.trans ht) (h.kept ht hk)
  who := by
    intro x hx
    obtain hx | hx := h'.who x hx
    · exact h.who x hx
    · exact .inr (hx.trans h.strC)

/-- Neither the files nor what is known of them change. -/
theorem Files.of_same {s s' : Proc} (strC : s'.raf.strC = s.raf.strC) (torn : s'.torn = s.torn)
    (hsis : s'.net.sis = s.net.sis) (hwrote : s'.net.wrote = s.net.wrote)
    (hcasts : s'.net.casts = s.net.casts) : Files s s' where
  strC := strC
  torn := torn
  kept := fun _ hk q =>
    (hk q).congr (congrFun hsis q) (congrFun hwrote q) fun _ hx => hcasts.symm ▸ hx
  who := fun _ hx => .inl (hcasts ▸ hx)

def Filed {α : Type} (x : Act α) : Prop := Run.Within Files x

section Filed

variable {α β : Type}

theorem filed_pure (a : α) : Filed (pure a) := Run.within_pure Files.refl a

theorem filed_stop : Filed (Run.stop () : Act α) := Run.within_stop Files.refl ()

theorem filed_getRaf : Filed getRaf := Run.within_read Files.refl _

theorem filed_getNet : Filed getNet := Run.within_read Files.refl _

theorem Filed.bind {x : Act α} {f : α → Act β} (hx : Filed x) (hf : ∀ a, Filed (f a)) :
    Filed (x >>= f) :=
  Run.Within.bind Files.trans hx hf

theorem filed_modRaf {f : Server → Server} (hf : ∀ raf, (f raf).strC = raf.strC) :
    Filed (modRaf f) :=
  fun s => .of_same (hf s.raf) rfl rfl rfl rfl

theorem filed_modNet {f : Net → Net} (hsis : ∀ net, (f net).sis = net.sis)
    (hwrote : ∀ net, (f net).wrote = net.wrote) (hcasts : ∀ net, (f net).casts = net.casts) :
    Filed (modNet f) :=
  fun s => .of_same rfl rfl (hsis s.net) (hwrote s.net) (hcasts s.net)

theorem filed_modRon (l : Link) (f : Rcon → Rcon) : Filed (modRon l f) :=
  filed_modRaf fun _ => rfl

theorem filed_check (P : Prop) [Decidable P] : Filed (check P) := by
  unfold check
  split
  · exact filed_pure ()
  · exact filed_stop

theorem filed_deref (l : Link) : Filed (deref l) := by
  refine filed_getRaf.bind fun raf => ?_
  split
  · exact filed_pure _
  · exact filed_stop

theorem filed_saveTerm : Filed saveTerm := by
  intro s
  obtain h | ⟨ht, h⟩ | ⟨n, h⟩ := saveTerm_cases s
  · rw [h]
    exact .refl s
  · rw [h]
    exact ⟨rfl, rfl, fun hf => (nomatch ht.symm.trans hf), fun _ hx => .inl hx⟩
  · rw [h]
    exact ⟨rfl, rfl, fun _ hk q => (hk q).saveTerm _, fun _ hx => .inl hx⟩

theorem filed_saveVote (nam : Cstr) : Filed (saveVote nam) := by
  intro s
  obtain h | ⟨ht, h⟩ | ⟨n, h⟩ := saveVote_cases s nam
  · rw [h]
    exact ⟨rfl, rfl, fun _ hk => hk, fun _ hx => .inl hx⟩
  · rw [h]
    exact ⟨rfl, rfl, fun hf => (nomatch ht.symm.trans hf), fun _ hx => .inl hx⟩
  · rw [h]
    refine ⟨rfl, rfl, fun _ hk q => (hk q).saveVote _ nam, ?_⟩
    intro x hx
    cases hx with
    | head => exact .inr rfl
    | tail _ hx => exact .inl hx

theorem filed_clearVote : Filed clearVote := by
  intro s
  obtain h | ⟨n, h⟩ := clearVote_cases s
  · rw [h]
    exact ⟨rfl, rfl, fun _ hk => hk, fun _ hx => .inl hx⟩
  · rw [h]
    exact ⟨rfl, rfl, fun _ hk q => (hk q).clearVote, fun _ hx => .inl hx⟩

theorem close_wrote (net : Net) (l : Link) (p : Cstr) : (net.close l p).wrote = net.wrote := by
  unfold Net.close
  split <;> rfl

theorem queue_wrote (net : Net) (e : End) (it : Item) : (net.queue e it).wrote = net.wrote := by
  unfold Net.queue
  split <;> rfl

theorem filed_close (l : Link) (p : Cstr) : Filed (modNet (·.close l p)) :=
  filed_modNet (fun _ => close_sis ..) (fun _ => close_wrote ..) fun _ => close_casts ..

theorem filed_connDead (l : Link) : Filed (connDead l) := by
  refine (filed_deref l).bind fun ron => ?_
  split
  · exact (filed_modRon l _).bind fun _ => filed_getRaf.bind fun raf => filed_close l raf.strC
  · exact filed_pure ()

theorem filed_rmsgQueue (l : Link) (it : Item) : Filed (rmsgQueue l it) := by
  refine filed_getRaf.bind fun raf => filed_modNet ?_ ?_ ?_
  · intro net
    split
    · exact queue_sis ..
    · rfl
  · intro net
    split
    · exact queue_wrote ..
    · rfl
  · intro net
    split
    · exact queue_casts ..
    · rfl

theorem filed_syscall : Filed (syscall id) := by
  intro s
  obtain h | ⟨-, h⟩ | ⟨n, h⟩ := syscall_cases s id
  · rw [h]
    exact .refl s
  · rw [h]
    exact .refl s
  · rw [h]
    exact .of_same rfl rfl rfl rfl rfl

theorem filed_connFlush (l : Link) : Filed (connFlush l) := by
  refine filed_getRaf.bind fun raf => filed_getNet.bind fun net => ?_
  split
  · split
    · exact filed_pure ()
    · exact filed_syscall.bind fun _ =>
        filed_modNet (fun _ => rfl) (fun _ => rfl) fun _ => rfl
  · exact filed_pure ()

theorem filed_sendRreq (msg : Self → Rmsg) (l : Link) : Filed (sendRreq msg l) :=
  (filed_deref l).bind fun _ => filed_getRaf.bind fun _ => (filed_check _).bind fun _ =>
    (filed_modRon l _).bind fun _ => filed_rmsgQueue l _

theorem filed_sendRasp (l : Link) (suc : UInt32) (req : Rreq) : Filed (sendRasp l suc req) :=
  filed_getRaf.bind fun _ => filed_rmsgQueue l _

theorem filed_connNew (nam : Cstr) : Filed (connNew nam) := by
  refine filed_getRaf.bind fun raf => filed_getNet.bind fun net => ?_
  refine Filed.bind (filed_modNet (fun _ => rfl) (fun _ => rfl) fun _ => rfl) fun _ => ?_
  exact Filed.bind (filed_modRaf fun _ => rfl) fun _ => filed_pure _

theorem filed_connLive (nam : Cstr) : Filed (connLive nam) := by
  refine filed_getRaf.bind fun raf => ?_
  split
  · exact filed_pure _
  · exact (filed_deref _).bind fun ron => filed_pure _

theorem filed_connAll {conF : Link → Act Unit} (hcon : ∀ l, Filed (conF l)) (nams : List Cstr) :
    Filed (connAll conF nams) := by
  induction nams with
  | nil => exact filed_pure ()
  | cons nam nams ih =>
      refine Filed.bind ((filed_connLive nam).bind fun l => ?_) fun _ => ih
      split
      · exact (hcon _).bind fun _ => filed_connFlush _
      · exact (filed_connNew nam).bind fun l => hcon l

theorem filed_noteTerm (temW : UInt32) : Filed (noteTerm temW) := by
  refine filed_getRaf.bind fun raf => ?_
  split
  · refine Filed.bind (filed_modRaf fun _ => rfl) fun _ => filed_saveTerm.bind fun _ => ?_
    split
    · exact filed_check _
    · refine (filed_check _).bind fun _ => filed_getRaf.bind fun raf => ?_
      exact filed_clearVote.bind fun _ =>
        Filed.bind (filed_modRaf fun _ => rfl) fun _ => filed_check _
  · exact filed_pure ()

theorem filed_doRest (l : Link) (temW : UInt32) (rest : Rest) : Filed (doRest l temW rest) := by
  refine Filed.bind ((filed_deref l).bind fun ron => ?_) fun _ => filed_noteTerm temW
  split
  · split
    · exact filed_pure ()
    · exact filed_connDead l
  · refine filed_getRaf.bind fun raf => ?_
    split
    · exact filed_connDead l
    · refine Filed.bind ?_ fun _ => Filed.bind (filed_modRaf fun _ => rfl) fun _ =>
        filed_modRon l _
      unfold closeOld
      split
      · exact (filed_check _).bind fun _ => filed_connDead _
      · exact filed_pure ()

theorem filed_doRevo (l : Link) (temW : UInt32) (rest : Rest) (req : Rreq) :
    Filed (doRevo l temW rest req) := by
  refine (filed_doRest l temW rest).bind fun _ => (filed_deref l).bind fun ron =>
    filed_getRaf.bind fun raf => ?_
  split
  · exact filed_stop
  · split
    · exact (filed_saveVote _).bind fun _ => filed_sendRasp l 1 req
    · exact filed_sendRasp l 0 req

theorem filed_rreqDone (nam : Cstr) (req : Rreq) (sucW : UInt32) :
    Filed (rreqDone nam req sucW) := by
  unfold rreqDone
  split
  · exact filed_pure ()
  · refine Filed.bind (filed_getRaf.bind fun raf => ?_) fun _ => filed_getRaf.bind fun raf => ?_
    · split
      · exact filed_modRaf fun _ => rfl
      · exact filed_pure ()
    · split
      · refine filed_getRaf.bind fun raf => ?_
        split
        · exact filed_pure ()
        · exact (filed_check _).bind fun _ => filed_modRaf fun _ => rfl
      · exact filed_pure ()
  · exact filed_stop

theorem filed_doRasp (l : Link) (temW : UInt32) (sucW : UInt32) (ask : Rreq) :
    Filed (doRasp l temW sucW ask) := by
  refine (filed_deref l).bind fun ron =>
    Filed.bind (filed_modNet (fun _ => rfl) (fun _ => rfl) fun _ => rfl) fun _ => ?_
  split
  · exact filed_connDead l
  · exact filed_connDead l
  · exact (filed_rreqDone _ _ _).bind fun _ => (filed_noteTerm temW).bind fun _ =>
      filed_modRon l _

theorem filed_connWork (l : Link) (n : Nat) : Filed (connWork l n) := by
  induction n with
  | zero => exact filed_connFlush l
  | succ n ih =>
      refine Filed.bind (filed_getRaf.bind fun raf => filed_getNet.bind fun net => ?_) fun _ => ih
      split
      · exact filed_pure ()
      · refine Filed.bind (filed_modNet (fun _ => rfl) (fun _ => rfl) fun _ => rfl) fun _ => ?_
        unfold connMsg
        split
        · exact filed_doRest _ _ _
        · exact filed_doRevo _ _ _ _
        · exact filed_doRasp _ _ _ _

theorem filed_startElection : Filed startElection :=
  Filed.bind (filed_modRaf fun _ => rfl) fun _ => filed_saveTerm.bind fun _ =>
    Filed.bind (filed_modRaf fun _ => rfl) fun _ => filed_getRaf.bind fun _ =>
      (filed_saveVote _).bind fun _ => filed_getRaf.bind fun _ =>
        filed_connAll (filed_sendRreq _) _

theorem filed_timeCb : Filed timeCb := by
  refine filed_getRaf.bind fun raf => ?_
  split
  · exact filed_stop
  · exact Filed.bind (filed_modRaf fun _ => rfl) fun _ => filed_startElection
  · exact filed_startElection
  · exact filed_getRaf.bind fun _ => filed_connAll (filed_sendRreq _) _

theorem filed_connectCb (l : Link) : Filed (connectCb l) :=
  (filed_deref l).bind fun _ => (filed_check _).bind fun _ => (filed_modRon l _).bind fun _ =>
    filed_connFlush l

theorem filed_connFree (l : Link) : Filed (connFree l) :=
  (filed_deref l).bind fun _ => Filed.bind (filed_modRaf fun _ => rfl) fun _ =>
    filed_getRaf.bind fun _ => filed_close l _

end Filed

/-! ### Steps -/

/-- The process is not killed between the two halves of a `put`. -/
def Whole : Action → Prop
  | .time _ kill => kill.torn = false
  | .work _ _ _ kill => kill.torn = false
  | .connect _ _ kill => kill.torn = false
  | _ => True

/-- A step that keeps clear of both slips and of torn files. -/
def Tidy (s : State) (a : Action) : Prop := Careful s a ∧ Whole a

/-- Between callbacks, everything is in order, and so are the files. -/
structure Archived (c : Cluster) (s : State) : Prop where
  ruled : Ruled c s
  kept : ∀ q, Kept s.net q
  who : ∀ x ∈ s.net.casts, x.who ∈ c.names

section steps

variable {c : Cluster} {p : Cstr} {s s' : State}

/-- What a callback of a server leaves of the files. -/
theorem exec_files {act : Act Unit} {kill : Kill} (hact : Filed act) (htorn : kill.torn = false)
    (hrule : Ruled c s) (hkept : ∀ q, Kept s.net q) (hwho : ∀ x ∈ s.net.casts, x.who ∈ c.names)
    (hexec : s.exec p kill act = some s') :
    (∀ q, Kept s'.net q) ∧ ∀ x ∈ s'.net.casts, x.who ∈ c.names := by
  obtain ⟨raf, hraf, rfl⟩ := Option.map_eq_some_iff.mp hexec
  have hstr : raf.strC = p := (hrule.votes.voters p raf hraf).strC
  have hmem : p ∈ c.names := (hrule.links.keeps hraf kill).own.member
  have hfiles := hact ⟨raf, s.net, kill.fuse, kill.torn⟩
  revert hfiles
  rcases act.run ⟨raf, s.net, kill.fuse, kill.torn⟩ with ⟨r, t⟩
  intro hfiles
  have hkept' : ∀ q, Kept t.net q := hfiles.kept htorn hkept
  have hwho' : ∀ x ∈ t.net.casts, x.who ∈ c.names := by
    intro x hx
    obtain hx | hx := hfiles.who x hx
    · exact hwho x hx
    · rw [hx]
      exact hstr.symm ▸ hmem
  have hexit : ∀ q, Kept (t.net.exit p) q := fun q => (hkept' q).congr rfl rfl fun _ hx => hx
  cases r with
  | ok a => exact ⟨hkept', hwho'⟩
  | stop e => exact ⟨hexit, hwho'⟩
  | spent => exact ⟨hexit, hwho'⟩

theorem Archived.next {a : Action} (h : Archived c s) (htidy : Tidy s a)
    (hstep : step c a s = some s') : Archived c s' := by
  obtain ⟨hcare, hwhole⟩ := htidy
  have hrule := h.ruled.next hcare hstep
  have hfiles : (∀ q, Kept s'.net q) ∧ ∀ x ∈ s'.net.casts, x.who ∈ c.names := by
    cases a with
    | boot p tail =>
        obtain ⟨-, hs⟩ := Option.ite_none_right_eq_some.mp hstep
        cases hs
        exact ⟨h.kept, h.who⟩
    | time p kill => exact exec_files filed_timeCb hwhole h.ruled h.kept h.who hstep
    | work p l n kill =>
        obtain ⟨-, hs⟩ := Option.ite_none_right_eq_some.mp hstep
        exact exec_files (filed_connWork l n) hwhole h.ruled h.kept h.who hs
    | connect p l kill =>
        obtain ⟨-, hs⟩ := Option.ite_none_right_eq_some.mp hstep
        exact exec_files (filed_connectCb l) hwhole h.ruled h.kept h.who hs
    | refuse p l =>
        obtain ⟨-, hs⟩ := Option.ite_none_right_eq_some.mp hstep
        exact exec_files (filed_connFree l) rfl h.ruled h.kept h.who hs
    | accept p l =>
        obtain ⟨raf, -, hs⟩ := Option.bind_eq_some_iff.mp hstep
        obtain ⟨k, -, hs⟩ := Option.bind_eq_some_iff.mp hs
        obtain ⟨-, hs⟩ := Option.ite_none_right_eq_some.mp hs
        cases hs
        exact ⟨fun q => (h.kept q).congr rfl rfl fun _ hx => hx, h.who⟩
    | lost p l =>
        obtain ⟨-, hs⟩ := Option.ite_none_right_eq_some.mp hstep
        exact exec_files (filed_connDead l) rfl h.ruled h.kept h.who hs
    | free p l =>
        obtain ⟨-, hs⟩ := Option.ite_none_right_eq_some.mp hstep
        exact exec_files (filed_connFree l) rfl h.ruled h.kept h.who hs
    | crash p =>
        obtain ⟨-, hs⟩ := Option.ite_none_left_eq_some.mp hstep
        cases hs
        exact ⟨fun q => (h.kept q).congr rfl rfl fun _ hx => hx, h.who⟩
    | cut e n =>
        cases hstep
        exact ⟨fun q => (h.kept q).congr rfl rfl fun _ hx => hx, h.who⟩
  exact ⟨hrule, hfiles.1, hfiles.2⟩

theorem archived_init (c : Cluster) : Archived c State.init where
  ruled := ruled_init c
  kept := fun _ => ⟨rfl, rfl, fun _ h => nomatch h⟩
  who := List.forall_mem_nil _

theorem archived (h : Reachable State.init (step c) Tidy s) : Archived c s :=
  h.invariant (archived_init c) fun _ _ _ hs htidy hstep => hs.next htidy hstep

/-- A vote that is stored is for a member, who has voted for itself. -/
theorem Archived.member (h : Archived c s) {nam : Cstr} (hnam : (s.net.wrote p).2 = some nam) :
    nam ∈ c.names := by
  obtain ⟨tem, hx⟩ := (h.kept p).cast nam hnam
  exact h.who _ (h.ruled.votes.book.self _ hx)

/-- What `follInit` takes a stored vote for. -/
theorem follInit_vote {sis : Sist} {tail nam : Cstr} {raf : Server}
    (hvote : sis .vote = some nam.str) (h : follInit c p sis tail = some raf)
    (hvog : raf.vogC = some nam) : tail = nul := by
  have hstr : nam.str ++ tail.str = nam.str := by
    unfold follInit at h
    rw [hvote] at h
    split at h
    · cases h
    · cases h
    · simp only [Option.map_some] at h
      split at h
      · next heq =>
        cases h
        cases hvog
        exact heq
      · cases h
        have hfind := List.find?_some hvog
        exact (of_decide_eq_true hfind).symm
  exact Cstr.ext (List.append_cancel_left (hstr.trans (List.append_nil _).symm))

/-- In every run whose steps keep clear of the slips and of torn files, and for every
server: a start reads the term and the vote back that were stored last exactly if
there is no vote or the memory behind it holds a zero. The vote is for a member, and
no server ever votes for two in one term. -/
theorem store_read_back (c : Cluster) (h : Reachable State.init (step c) Tidy s)
    (p : Cstr) (hp : p ∈ c.names) (tail : Cstr) :
    ((∃ raf, follInit c p (s.net.sis p) tail = some raf ∧
        (raf.temW, raf.vogC) = s.net.wrote p) ↔ (s.net.wrote p).2 = none ∨ tail = nul) ∧
      (∀ nam, (s.net.wrote p).2 = some nam → nam ∈ c.names) ∧
      ∀ tem a b, ⟨p, tem, a⟩ ∈ s.net.casts → ⟨p, tem, b⟩ ∈ s.net.casts → a = b := by
  have ha := archived h
  have hkept := ha.kept p
  refine ⟨⟨?_, ?_⟩, fun nam hnam => ha.member hnam, ?_⟩
  · rintro ⟨raf, hinit, hpair⟩
    cases hw : (s.net.wrote p).2 with
    | none => exact .inl rfl
    | some nam =>
        right
        have hvote : s.net.sis p .vote = some nam.str := by
          rw [hkept.vote, hw]
          rfl
        have hvog : raf.vogC = some nam := by
          rw [← hw, ← hpair]
        exact follInit_vote hvote hinit hvog
  · intro htail
    have htail' : s.net.sis p .vote = none ∨ tail = nul := by
      rw [hkept.vote]
      exact htail.imp (fun hn => by rw [hn]; rfl) id
    obtain ⟨raf, hinit⟩ : ∃ raf, follInit c p (s.net.sis p) tail = some raf := by
      have hfull : s.net.sis p .vote ≠ some [] := by
        rw [hkept.vote]
        intro hv
        obtain ⟨nam, hnam, hstr⟩ := Option.map_eq_some_iff.mp hv
        exact c.filled nam (ha.member hnam) hstr
      unfold follInit
      rw [hkept.term]
      split
      · next hn => cases hn
      · next hv => exact absurd hv hfull
      · split
        · exact ⟨_, rfl⟩
        · split <;> exact ⟨_, rfl⟩
    obtain ⟨hterm, hvote, -⟩ := follInit_some hp (ha.ruled.votes.book.vote p) htail' hinit
    refine ⟨raf, hinit, Prod.ext ?_ ?_⟩
    · exact Option.some.inj (hterm.symm.trans hkept.term)
    · have hmap := hvote.symm.trans hkept.vote
      exact Option.map_injective (fun _ _ he => Cstr.ext he) hmap
  · exact fun tem a b => ha.ruled.votes.book.once p tem a b

/-! ### A vote that is forgotten -/

/-- Whether a step keeps clear of the slips and of torn files. -/
def tidy (s : State) (a : Action) : Bool :=
  careful s a &&
    match a with
    | .time _ kill => !kill.torn
    | .work _ _ _ kill => !kill.torn
    | .connect _ _ kill => !kill.torn
    | _ => true

theorem tidy_iff {a : Action} (h : tidy s a = true) : Tidy s a := by
  obtain ⟨hcare, hwhole⟩ := Bool.and_eq_true_iff.mp h
  refine ⟨careful_iff hcare, ?_⟩
  cases a with
  | time p kill => simpa [Whole] using hwhole
  | work p l n kill => simpa [Whole] using hwhole
  | connect p l kill => simpa [Whole] using hwhole
  | _ => trivial

/-- A server that has voted reads its vote back when it finds a zero behind it. -/
theorem store_read_back_electA : ∃ s raf,
    Reachable State.init (step duo) Tidy s ∧ s.net.wrote nameB = (1, some nameA) ∧
      follInit duo nameB (s.net.sis nameB) nul = some raf ∧
      (raf.temW, raf.vogC) = s.net.wrote nameB := by
  have hrun : ((runs (guarded tidy (step duo)) electA State.init).any fun s =>
      s.net.wrote nameB = (1, some nameA)) = true := by decide
  obtain ⟨s, hs, htest⟩ := Reachable.of_guarded (fun _ _ => tidy_iff) electA hrun
  have hback := (store_read_back duo hs nameB (by decide) nul).1.mpr (.inr rfl)
  obtain ⟨raf, hinit, hpair⟩ := hback
  exact ⟨s, raf, hs, of_decide_eq_true htest, hinit, hpair⟩

/-- The third server votes for the first, is started again, and votes for the second in
the same term. -/
theorem vote_forgotten : ∃ s s' raf,
    Reachable State.init (step trio) (fun _ _ => True) s ∧
      s.net.wrote nameC = (1, some nameA) ∧ s.mem nameC = some raf ∧ raf.vogC = none ∧
      Reachable State.init (step trio) (fun _ _ => True) s' ∧
      ⟨nameC, 1, nameA⟩ ∈ s'.net.casts ∧ ⟨nameC, 1, nameB⟩ ∈ s'.net.casts ∧ nameA ≠ nameB := by
  have hrun : ((runs (step trio) forgetA State.init).any fun s =>
      s.net.wrote nameC = (1, some nameA) &&
      (s.mem nameC).any fun raf => raf.vogC = none) = true := by decide
  have hrun' : ((runs (step trio) electB State.init).any fun s =>
      decide (⟨nameC, 1, nameA⟩ ∈ s.net.casts) && decide (⟨nameC, 1, nameB⟩ ∈ s.net.casts)) =
        true := by decide
  obtain ⟨s, hs, htest⟩ := reached hrun
  obtain ⟨s', hs', htest'⟩ := reached hrun'
  simp only [Bool.and_eq_true, Option.any_eq_true, decide_eq_true_eq] at htest htest'
  obtain ⟨hwrote, raf, hraf, hvog⟩ := htest
  exact ⟨s, s', raf, hs, hwrote, hraf, hvog, hs', htest'.1, htest'.2, by decide⟩

end steps

end Vere.Raft
