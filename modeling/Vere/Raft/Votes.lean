import Vere.Lib.Quorum
import Vere.Raft.Match

/-!
# Vere.Raft.Votes

Votes in memory, in the store and in history.

A vote counts as cast once it is in the store. The store of a server agrees with
its memory between callbacks (`Stored`), and the votes it has cast are no newer
than the term in the store, which holds the vote of that term (`Book`). That is
what makes a server vote once in a term: before it stores another vote it has
stored a newer term.
-/

namespace Vere.Raft

open Vere.Lib Function

/-- What history says about the votes, and the stores about history. -/
structure Book (c : Cluster) (net : Net) : Prop where
  /-- No server votes twice in a term. -/
  once : ∀ who tem a b, ⟨who, tem, a⟩ ∈ net.casts → ⟨who, tem, b⟩ ∈ net.casts → a = b
  /-- Nobody votes for a server that does not vote for itself. -/
  self : ∀ x ∈ net.casts, ⟨x.cand, x.tem, x.cand⟩ ∈ net.casts
  /-- A store that can be read holds the vote of its term. -/
  disk : ∀ x ∈ net.casts, ∀ tem, readTerm (net.sis x.who .term) = some tem → x.tem ≤ tem ∧
    (x.tem = tem → net.sis x.who .vote = some x.cand.str ∨ net.sis x.who .vote = some [])
  /-- It holds no other votes than for members. -/
  vote : ∀ p b, net.sis p .vote = some b → b = [] ∨ ∃ nam ∈ c.names, b = nam.str

theorem readTerm_word (temW : UInt32) : readTerm (some (word temW)) = some temW := by
  have hlen : (word temW).length = 4 := length_word temW
  rw [readTerm, if_pos hlen, word, ofLE_toLE,
    Nat.mod_eq_of_lt (show temW.toNat < 256 ^ 4 from temW.toNat_lt), UInt32.ofNat_toNat]

section write

variable (net : Net) (p : Cstr) (val : Option (List UInt8))

theorem write_sis_other {q : Cstr} (h : q ≠ p) (key : Key) :
    (net.write p key val).sis q = net.sis q := by
  simp [Net.write, h]

theorem write_term_term : (net.write p .term val).sis p .term = val := by simp [Net.write]

theorem write_term_vote : (net.write p .term val).sis p .vote = net.sis p .vote := by
  simp [Net.write]

theorem write_vote_vote : (net.write p .vote val).sis p .vote = val := by simp [Net.write]

theorem write_vote_term : (net.write p .vote val).sis p .term = net.sis p .term := by
  simp [Net.write]

end write

section Book

variable {c : Cluster} {net : Net} {p : Cstr}

/-- A term is written, or the file is left empty: either it cannot be read, or it is
newer than the votes cast. -/
theorem Book.writeTerm {val : List UInt8} (h : Book c net)
    (hval : ∀ tem, readTerm (some val) = some tem → ∀ x ∈ net.casts, x.who = p → x.tem < tem) :
    Book c (net.write p .term (some val)) where
  once := h.once
  self := h.self
  disk := by
    intro x hx tem ht
    by_cases hp : x.who = p
    · rw [hp, write_term_term] at ht
      have hlt := hval tem ht x hx hp
      exact ⟨UInt32.le_of_lt hlt, fun he => absurd he (UInt32.ne_of_lt hlt)⟩
    · rw [write_sis_other _ _ _ hp] at ht ⊢
      exact h.disk x hx tem ht
  vote := by
    intro q b hb
    by_cases hp : q = p
    · rw [hp, write_term_vote] at hb
      exact h.vote p b hb
    · rw [write_sis_other _ _ _ hp] at hb
      exact h.vote q b hb

/-- The vote is removed or lost while no vote was cast in the term. -/
theorem Book.writeVote {val : Option (List UInt8)} (h : Book c net)
    (hval : val = some [] ∨ (val = none ∧ ∀ tem, readTerm (net.sis p .term) = some tem →
      ∀ x ∈ net.casts, x.who = p → x.tem < tem)) :
    Book c (net.write p .vote val) where
  once := h.once
  self := h.self
  disk := by
    intro x hx tem ht
    by_cases hp : x.who = p
    · rw [hp, write_vote_term] at ht
      rw [hp, write_vote_vote]
      obtain ⟨hle, -⟩ := h.disk x hx tem (hp ▸ ht)
      refine ⟨hle, fun he => ?_⟩
      obtain hv | ⟨-, hnew⟩ := hval
      · exact .inr hv
      · exact absurd he (UInt32.ne_of_lt (hnew tem ht x hx hp))
    · rw [write_sis_other _ _ _ hp] at ht ⊢
      exact h.disk x hx tem ht
  vote := by
    intro q b hb
    by_cases hp : q = p
    · rw [hp, write_vote_vote] at hb
      obtain hv | ⟨hv, -⟩ := hval
      · rw [hv] at hb
        cases hb
        exact .inl rfl
      · rw [hv] at hb
        cases hb
    · rw [write_sis_other _ _ _ hp] at hb
      exact h.vote q b hb

/-- A vote is stored in the term of the store, the first one or the same again. -/
theorem Book.cast {nam : Cstr} {temW : UInt32} (h : Book c net) (hnam : nam ∈ c.names)
    (hterm : readTerm (net.sis p .term) = some temW)
    (hsame : ∀ a, ⟨p, temW, a⟩ ∈ net.casts → a = nam)
    (hself : nam = p ∨ ⟨nam, temW, nam⟩ ∈ net.casts) :
    Book c ((net.write p .vote (some nam.str)).vote ⟨p, temW, nam⟩) where
  once := by
    intro who tem a b ha hb
    cases ha with
    | head =>
        cases hb with
        | head => rfl
        | tail _ hb => exact (hsame b hb).symm
    | tail _ ha =>
        cases hb with
        | head => exact hsame a ha
        | tail _ hb => exact h.once who tem a b ha hb
  self := by
    intro x hx
    cases hx with
    | head =>
        obtain rfl | hself := hself
        · exact List.mem_cons_self ..
        · exact List.mem_cons_of_mem _ hself
    | tail _ hx => exact List.mem_cons_of_mem _ (h.self x hx)
  disk := by
    intro x hx tem ht
    change readTerm ((net.write p .vote (some nam.str)).sis x.who .term) = some tem at ht
    change _ ∧ (_ → (net.write p .vote (some nam.str)).sis x.who .vote = _ ∨
      (net.write p .vote (some nam.str)).sis x.who .vote = _)
    by_cases hp : x.who = p
    · rw [hp, write_vote_term, hterm] at ht
      cases ht
      rw [hp, write_vote_vote]
      cases hx with
      | head => exact ⟨UInt32.le_refl _, fun _ => .inl rfl⟩
      | tail _ hx =>
          obtain ⟨hle, -⟩ := h.disk x hx temW (hp ▸ hterm)
          refine ⟨hle, fun he => .inl ?_⟩
          have hx' : ⟨p, temW, x.cand⟩ ∈ net.casts := by
            rw [← hp, ← he]
            exact hx
          rw [hsame x.cand hx']
    · rw [write_sis_other _ _ _ hp] at ht ⊢
      cases hx with
      | head => exact absurd rfl hp
      | tail _ hx => exact h.disk x hx tem ht
  vote := by
    intro q b hb
    change (net.write p .vote (some nam.str)).sis q .vote = some b at hb
    by_cases hp : q = p
    · rw [hp, write_vote_vote] at hb
      cases hb
      exact .inr ⟨nam, hnam, rfl⟩
    · rw [write_sis_other _ _ _ hp] at hb
      exact h.vote q b hb

end Book

/-! ### Servers -/

/-- `nam` has voted for `p`. -/
def Net.voted (net : Net) (p : Cstr) (temW : UInt32) (nam : Cstr) : Bool :=
  decide (⟨nam, temW, p⟩ ∈ net.casts)

/-- A server whose store agrees with its memory, and whose requests are in the order
of their terms. -/
structure Stored (c : Cluster) (net : Net) (p : Cstr) (raf : Server) : Prop where
  strC : raf.strC = p
  term : readTerm (net.sis p .term) = some raf.temW
  vote : net.sis p .vote = raf.vogC.map (·.str)
  known : ∀ nam, raf.vogC = some nam → nam ∈ c.names
  pop : raf.popW = c.names.length
  order : ∀ l ron, raf.rons l = some ron →
    ron.sent.Pairwise (fun r r' => r.msgU.temW ≤ r'.msgU.temW) ∧
      ∀ r ∈ ron.sent, r.msgU.temW ≤ raf.temW

/-- It has counted no more votes than it was given, and leads with a majority. -/
structure Voter (c : Cluster) (net : Net) (p : Cstr) (raf : Server) : Prop
    extends Stored c net p raf where
  count : raf.typE ≠ .foll →
    raf.votW ≤ 1 + (c.peers p).countP fun nam => raf.vog nam && net.voted p raf.temW nam
  lead : raf.typE = .lead → Majority (net.voted p raf.temW) c.names

/-- A message from `q` to `p`: who asks for a vote has its own, and who grants one has
cast it. -/
def Voted (casts : List Cast) (q p : Cstr) (it : Item) : Prop :=
  match it.msg.body with
  | .revo _ => ⟨q, it.msg.temW, q⟩ ∈ casts
  | .rasp sucW => sucW ≠ 0 → ⟨q, it.req.msgU.temW, p⟩ ∈ casts
  | .apen _ _ _ _ => True

/-- What is true of the votes between callbacks. -/
structure Elected (c : Cluster) (s : State) : Prop where
  book : Book c s.net
  voters : ∀ p raf, s.mem p = some raf → Voter c s.net p raf
  items : ∀ e it, it ∈ s.net.stream idle e →
    ∃ q, s.net.other e.1 e.2 = some q ∧ Voted s.net.casts q e.2 it

/-- What is true of the votes inside a callback of `p`, its own state aside. -/
structure Outside (c : Cluster) (mem : Cstr → Option Server) (p : Cstr) (front : Front)
    (s : Proc) : Prop where
  book : Book c s.net
  rest : ∀ p' raf, p' ≠ p → mem p' = some raf → Voter c s.net p' raf
  items : ∀ e it, it ∈ s.net.stream front e →
    ∃ q, s.net.other e.1 e.2 = some q ∧ Voted s.net.casts q e.2 it

/-- A callback of `p` with its own state in order. -/
structure Polls (c : Cluster) (mem : Cstr → Option Server) (p : Cstr) (front : Front) (s : Proc) :
    Prop extends Outside c mem p front s where
  own : Voter c s.net p s.raf

/-- A callback of `p` that has stored a term in which it has not voted yet. -/
structure Newer (c : Cluster) (mem : Cstr → Option Server) (p : Cstr) (front : Front) (s : Proc) :
    Prop extends Outside c mem p front s where
  own : Stored c s.net p s.raf
  newer : ∀ x ∈ s.net.casts, x.who = p → x.tem < s.raf.temW

section congr

variable {c : Cluster} {net net' : Net} {p : Cstr} {raf : Server}

theorem voted_mono (hcasts : ∀ x ∈ net.casts, x ∈ net'.casts) {temW : UInt32} {nam : Cstr}
    (h : net.voted p temW nam = true) : net'.voted p temW nam = true :=
  decide_eq_true (hcasts _ (of_decide_eq_true h))

theorem Stored.congr (hsis : net'.sis p = net.sis p) (h : Stored c net p raf) :
    Stored c net' p raf :=
  { h with term := hsis ▸ h.term, vote := hsis ▸ h.vote }

/-- More votes are cast, and the count is not touched. -/
theorem Voter.restore {raf' : Server} (h : Voter c net p raf) (hst : Stored c net' p raf')
    (typE : raf'.typE = raf.typE) (votW : raf'.votW = raf.votW) (vog : raf'.vog = raf.vog)
    (temW : raf'.temW = raf.temW) (hcasts : ∀ x ∈ net.casts, x ∈ net'.casts) :
    Voter c net' p raf' where
  toStored := hst
  count := by
    rw [typE, votW, vog, temW]
    intro htyp
    refine (h.count htyp).trans (Nat.add_le_add_left (List.countP_mono_left fun nam _ hn => ?_) 1)
    rw [Bool.and_eq_true] at hn ⊢
    exact ⟨hn.1, voted_mono hcasts hn.2⟩
  lead := by
    rw [typE, temW]
    exact fun htyp => (h.lead htyp).mono fun _ hn => voted_mono hcasts hn

theorem Voter.congr (hsis : net'.sis p = net.sis p) (hcasts : ∀ x ∈ net.casts, x ∈ net'.casts)
    (h : Voter c net p raf) : Voter c net' p raf :=
  h.restore (h.toStored.congr hsis) rfl rfl rfl rfl hcasts

theorem Voted.mono {casts casts' : List Cast} (hcasts : ∀ x ∈ casts, x ∈ casts') {q p : Cstr}
    {it : Item} (h : Voted casts q p it) : Voted casts' q p it := by
  unfold Voted at h ⊢
  revert h
  cases it.msg.body with
  | revo rest => exact fun h => hcasts _ h
  | rasp sucW => exact fun h hs => hcasts _ (h hs)
  | apen rest citD entD entU => exact fun h => h

end congr

section process

variable {c : Cluster} {mem : Cstr → Option Server} {p : Cstr} {front : Front} {s s' : Proc}

/-- The votes a server has cast itself. -/
theorem Stored.cast (hb : Book c s.net) (h : Stored c s.net p s.raf) {temW : UInt32} {nam : Cstr}
    (hx : ⟨p, temW, nam⟩ ∈ s.net.casts) :
    temW ≤ s.raf.temW ∧ (temW = s.raf.temW → s.raf.vogC = some nam) := by
  obtain ⟨hle, hvote⟩ := hb.disk _ hx s.raf.temW h.term
  refine ⟨hle, fun he => ?_⟩
  have hv := hvote he
  rw [h.vote] at hv
  cases hvog : s.raf.vogC with
  | none =>
      rw [hvog] at hv
      obtain hv | hv := hv
      · cases hv
      · cases hv
  | some v =>
      rw [hvog] at hv
      obtain hv | hv := hv
      · exact congrArg some (Cstr.ext (Option.some.inj hv))
      · exact absurd (Option.some.inj hv) (c.filled v (h.known v hvog))

/-- A step of `p` that changes its store and casts votes, but no stream. -/
theorem Outside.store (h : Outside c mem p front s) (hbook : Book c s'.net)
    (hsis : ∀ q, q ≠ p → s'.net.sis q = s.net.sis q)
    (hcasts : ∀ x ∈ s.net.casts, x ∈ s'.net.casts) (hlinks : s'.net.links = s.net.links)
    (hflow : s'.net.flow = s.net.flow) (hwri : s'.net.wri = s.net.wri) :
    Outside c mem p front s' where
  book := hbook
  rest := fun p' raf hp hraf => (h.rest p' raf hp hraf).congr (hsis p' hp) hcasts
  items := by
    intro e it hit
    have hstream : s'.net.stream front e = s.net.stream front e := by
      unfold Net.stream
      rw [hflow, hwri]
    obtain ⟨q, hq, hv⟩ := h.items e it (hstream ▸ hit)
    exact ⟨q, (other_congr hlinks e.1 e.2).trans hq, hv.mono hcasts⟩

/-- What is true when the process of `p` is gone. -/
def Left (c : Cluster) (mem : Cstr → Option Server) (p : Cstr) (s : Proc) : Prop :=
  Elected c ⟨update mem p none, s.net.exit p⟩

theorem Outside.left (h : Outside c mem p front s) : Left c mem p s where
  book := ⟨h.book.once, h.book.self, h.book.disk, h.book.vote⟩
  voters := by
    intro p' raf hraf
    have hp : p' ≠ p := by
      rintro rfl
      simp at hraf
    have hsis : (s.net.exit p).sis p' = s.net.sis p' := rfl
    exact (h.rest p' raf hp (by simpa [hp] using hraf)).congr hsis fun _ hx => hx
  items := by
    intro e it hit
    have hin : it ∈ s.net.stream front e :=
      (stream_idle_suffix s.net front e).subset (((exit_quieter s.net p).sub idle e).subset hit)
    exact h.items e it hin

end process

/-! ### Storing -/

section storing

variable (s : Proc)

theorem sistPut_cases (key : Key) (val : List UInt8) :
    (sistPut key val).run s = (.stop (), s) ∨
      (s.torn = true ∧ (sistPut key val).run s
        = (.stop (), { s with net := s.net.write s.raf.strC key (some []) })) ∨
      ∃ n, (sistPut key val).run s
        = (.ok (), { s with net := s.net.write s.raf.strC key (some val), fuse := n }) := by
  unfold sistPut
  rw [run_getRaf, Run.run_bind]
  obtain h | ⟨ht, h⟩ | ⟨n, h⟩ := syscall_cases s (·.write s.raf.strC key (some []))
  · rw [h]
    exact .inl rfl
  · rw [h]
    exact .inr (.inl ⟨ht, rfl⟩)
  · rw [h]
    exact .inr (.inr ⟨n, rfl⟩)

theorem saveTerm_cases :
    saveTerm.run s = (.stop (), s) ∨
      (s.torn = true ∧ saveTerm.run s
        = (.stop (), { s with net := s.net.write s.raf.strC .term (some []) })) ∨
      ∃ n, saveTerm.run s
        = (.ok (), { s with
          net := (s.net.write s.raf.strC .term (some (word s.raf.temW))).wroteTerm s.raf.strC
            s.raf.temW
          fuse := n }) := by
  unfold saveTerm
  rw [run_getRaf, Run.run_bind]
  obtain h | ⟨ht, h⟩ | ⟨n, h⟩ := sistPut_cases s .term (word s.raf.temW)
  · rw [h]
    exact .inl rfl
  · rw [h]
    exact .inr (.inl ⟨ht, rfl⟩)
  · rw [h]
    exact .inr (.inr ⟨n, rfl⟩)

/-- The memory of a server that has voted for `nam`. -/
def Proc.votes (nam : Cstr) : Proc := { s with raf := { s.raf with vogC := some nam } }

theorem saveVote_cases (nam : Cstr) :
    (saveVote nam).run s = (.stop (), s.votes nam) ∨
      (s.torn = true ∧ (saveVote nam).run s
        = (.stop (), { s.votes nam with net := s.net.write s.raf.strC .vote (some []) })) ∨
      ∃ n, (saveVote nam).run s
        = (.ok (), { s.votes nam with
          net := ((s.net.write s.raf.strC .vote (some nam.str)).wroteVote s.raf.strC
            (some nam)).vote ⟨s.raf.strC, s.raf.temW, nam⟩
          fuse := n }) := by
  unfold saveVote
  rw [run_modRaf, run_getRaf, Run.run_bind]
  obtain h | ⟨ht, h⟩ | ⟨n, h⟩ := sistPut_cases (s.votes nam) .vote nam.str
  · rw [show { s with raf := { s.raf with vogC := some nam } } = s.votes nam from rfl, h]
    exact .inl rfl
  · rw [show { s with raf := { s.raf with vogC := some nam } } = s.votes nam from rfl, h]
    exact .inr (.inl ⟨ht, rfl⟩)
  · rw [show { s with raf := { s.raf with vogC := some nam } } = s.votes nam from rfl, h]
    exact .inr (.inr ⟨n, rfl⟩)

/-- The memory of a server that has forgotten its vote. -/
def Proc.forgets : Proc := { s with raf := { s.raf with vogC := none } }

theorem clearVote_cases :
    clearVote.run s = (.stop (), s.forgets) ∨
      ∃ n, clearVote.run s
        = (.ok (), { s.forgets with
          net := (s.net.write s.raf.strC .vote none).wroteVote s.raf.strC none, fuse := n }) := by
  unfold clearVote sistNil
  rw [run_modRaf, run_getRaf, Run.run_bind, run_getRaf, Run.run_bind]
  obtain h | ⟨-, h⟩ | ⟨n, h⟩ := syscall_cases s.forgets id
  · rw [show { s with raf := { s.raf with vogC := none } } = s.forgets from rfl, h]
    exact .inl rfl
  · rw [show { s with raf := { s.raf with vogC := none } } = s.forgets from rfl, h]
    exact .inl rfl
  · rw [show { s with raf := { s.raf with vogC := none } } = s.forgets from rfl, h]
    exact .inr ⟨n, rfl⟩

end storing

end Vere.Raft
