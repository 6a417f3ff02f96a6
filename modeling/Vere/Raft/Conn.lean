import Vere.Lib.Pipe
import Vere.Raft.Net
import Vere.Raft.RoundTrip

/-!
# Vere.Raft.Conn

What is true of the connections of a flotilla at any time: `Linked`.

Each end of a connection is the requester's side of a pipe (`pipeOf`): its queue
of requests, the votes it asked for that are on the way to the other end, and the
responses that are on the way back. A heartbeat is a request too, but one that is
not answered. A message that is being processed counts as still on the way
(`front`), because the response to it is not.
-/

namespace Vere.Raft

open Vere.Lib Function

def Body.isRevo : Body → Bool
  | .revo _ => true
  | _ => false

def Body.isRasp : Body → Bool
  | .rasp _ => true
  | _ => false

/-- The request is one for a vote. -/
def Rreq.isRevo (r : Rreq) : Bool := r.msgU.body.isRevo

/-- The requests for votes among messages. -/
def asksOf (its : List Item) : List Rreq := (its.filter (·.msg.body.isRevo)).map (·.req)

/-- The requests that the responses among messages answer. -/
def answersOf (its : List Item) : List Rreq := (its.filter (·.msg.body.isRasp)).map (·.req)

@[simp] theorem asksOf_append (its its' : List Item) :
    asksOf (its ++ its') = asksOf its ++ asksOf its' := by simp [asksOf]

@[simp] theorem answersOf_append (its its' : List Item) :
    answersOf (its ++ its') = answersOf its ++ answersOf its' := by simp [answersOf]

theorem asksOf_mono {its its' : List Item} (h : its <+: its') : asksOf its <+: asksOf its' :=
  (h.filter _).map _

theorem answersOf_mono {its its' : List Item} (h : its <+: its') :
    answersOf its <+: answersOf its' :=
  (h.filter _).map _

/-- The streams that are being read, and what was taken from them and is being
processed. -/
abbrev Front := End → Option (List Item)

def idle : Front := fun _ => none

/-- All that is on the way to an end: being processed, written and queued. -/
def Net.stream (net : Net) (front : Front) (e : End) : List Item :=
  (front e).getD [] ++ (net.flow e ++ net.wri e)

/-- An end of a connection as the requester's side of a pipe. -/
def pipeOf (net : Net) (front : Front) (l : Link) (p q : Cstr) (ron : Rcon) : Pipe Rreq where
  sent := ron.sent
  done := ron.sent.length - ron.outU.length
  answers := answersOf (net.stream front (l, p))
  asks := asksOf (net.stream front (l, q))
  quiet := net.shut (l, p)
  deaf := net.shut (l, q)

/-- The end at `p` of the connection `l`, with `q` at the other end. -/
structure Conn (net : Net) (front : Front) (p : Cstr) (l : Link) (q : Cstr) (ron : Rcon) :
    Prop where
  other : net.other l p = some q
  joins : net.joins l p = true
  named : ∀ nam, ron.namU = some nam → nam = q
  nameless : ron.namU = none → ron.sent = []
  seqs : ∀ (i : Nat) (r : Rreq), ron.sent[i]? = some r → r.seq = i
  queue : ron.outU <:+ ron.sent
  pipe : (pipeOf net front l p q ron).Ok Rreq.isRevo

/-- A message from `q`: a request has its name, and is what is in its queue. -/
def ItemOk (q : Cstr) (it : Item) : Prop :=
  match it.msg.body with
  | .revo rest => it.req.msgU = it.msg ∧ rest.name = q.str
  | .apen rest _ _ _ => rest.name = q.str
  | .rasp _ => True

/-- The streams: they connect servers of the flotilla, and what has not been joined
has not been written to. -/
structure Wires (c : Cluster) (front : Front) (net : Net) : Prop where
  ends : ∀ l p q, net.other l p = some q → p ∈ c.names ∧ q ∈ c.names ∧ p ≠ q
  unused : ∀ l p, net.other l p = none → net.stream front (l, p) = []
  unjoined : ∀ l p q, net.other l p = some q → net.joins l p = false →
    net.stream front (l, q) = [] ∧ answersOf (net.stream front (l, p)) = []
  items : ∀ l p q it, net.other l p = some q → it ∈ net.stream front (l, p) → ItemOk q it

/-- The connections of a server. -/
structure Conns (c : Cluster) (front : Front) (net : Net) (p : Cstr) (raf : Server) : Prop where
  strC : raf.strC = p
  member : p ∈ c.names
  namU : raf.namU = c.peers p
  rons : ∀ l ron, raf.rons l = some ron → ∃ q, Conn net front p l q ron

/-- A response was processed against the request it answers exactly if no heartbeat
had been sent on its connection before that request. -/
def Match.Ok (m : Match) : Prop :=
  m.ask.isRevo = true ∧
    (m.head = some m.ask ↔ ∀ r ∈ m.sent, r.seq < m.ask.seq → r.isRevo = true)

/-- What is true between callbacks. -/
structure Linked (c : Cluster) (s : State) : Prop where
  wires : Wires c idle s.net
  conns : ∀ p raf, s.mem p = some raf → Conns c idle s.net p raf
  log : ∀ m ∈ s.net.log, m.Ok

/-- The name in a request that was filled in. -/
theorem writeRest_name {raf : Self} (h : raf.strC.str.length < 2 ^ 31) (laiD : UInt64)
    (latW : UInt32) : (writeRest raf laiD latW).name = raf.strC.str := by
  have hwords : (nameWords raf.strC).toNat = 1 + raf.strC.str.length / 4 :=
    UInt32.toNat_ofNat_of_lt' (show _ < 2 ^ 32 by omega)
  have hsiz : times4 (nameWords raf.strC) = 4 * (1 + raf.strC.str.length / 4) := by
    rw [times4, hwords]
    omega
  have hzero : ∀ b ∈ raf.strC.str, b ≠ 0 := fun b hb e => raf.strC.nonzero (e ▸ hb)
  have hcopied : copied (raf.strC.str ++ [0]) (times4 (nameWords raf.strC)) = raf.strC.str := by
    rw [copied, List.take_append, List.take_of_length_le (by omega),
      List.takeWhile_append_of_pos (by simpa using hzero)]
    cases times4 (nameWords raf.strC) - 1 - raf.strC.str.length with
    | zero => simp
    | succ k => simp
  show (strlcpy _ _ _).takeWhile (· ≠ 0) = _
  rw [strlcpy_eq (by omega), takeWhile_terminated copied_ne_zero, hcopied]

/-! ### Links -/

theorem other_symm {net : Net} {l : Link} {p q : Cstr} (h : net.other l p = some q) :
    net.other l q = some p := by
  obtain ⟨k, hk, hends⟩ := Option.bind_eq_some_iff.mp h
  refine Option.bind_eq_some_iff.mpr ⟨k, hk, ?_⟩
  split at hends
  · next hsrc =>
    cases hends
    split
    · next h => rw [hsrc] at h; rw [h]
    · simp [hsrc]
  · split at hends
    · next hdst =>
      cases hends
      simp [hdst]
    · cases hends

theorem other_congr {net net' : Net} (h : net'.links = net.links) (l : Link) (p : Cstr) :
    net'.other l p = net.other l p := by
  unfold Net.other
  rw [h]

theorem joins_congr {net net' : Net} (h : net'.links = net.links) (l : Link) (p : Cstr) :
    net'.joins l p = net.joins l p := by
  unfold Net.joins
  rw [h]

/-- A step that adds nothing to a stream, and takes away from its end only if it
shuts it. -/
structure Quieter (net net' : Net) : Prop where
  links : net'.links = net.links
  stream : ∀ e, (net'.flow e ++ net'.wri e = net.flow e ++ net.wri e ∧ net'.shut e = net.shut e) ∨
    (net'.flow e ++ net'.wri e <+: net.flow e ++ net.wri e ∧ net'.shut e = true)

section Quieter

variable {net net' : Net} (h : Quieter net net')

include h

theorem Quieter.sub (front : Front) (e : End) : net'.stream front e <+: net.stream front e := by
  refine (List.prefix_append_right_inj _).mpr ?_
  obtain ⟨h, -⟩ | ⟨h, -⟩ := h.stream e
  · exact h ▸ List.prefix_rfl
  · exact h

theorem Quieter.same (front : Front) {e : End} (he : net'.shut e = false) :
    net'.stream front e = net.stream front e ∧ net.shut e = false := by
  obtain ⟨h, hs⟩ | ⟨-, hs⟩ := h.stream e
  · refine ⟨?_, hs ▸ he⟩
    unfold Net.stream
    rw [h]
  · rw [he] at hs
    cases hs

theorem Quieter.pipe {front : Front} {l : Link} {p q : Cstr} {ron : Rcon}
    (hx : (pipeOf net front l p q ron).Ok Rreq.isRevo) :
    (pipeOf net' front l p q ron).Ok Rreq.isRevo := by
  cases hq : net'.shut (l, p) with
  | true =>
      have hy := hx.quieten (answersOf_mono (h.sub front (l, p)))
        (asksOf (net'.stream front (l, q))) (net'.shut (l, q))
      unfold pipeOf
      rw [hq]
      exact hy
  | false =>
      obtain ⟨hsame, hshut⟩ := h.same front hq
      cases hd : net'.shut (l, q) with
      | true =>
          have hy := hx.deafen (asksOf_mono (h.sub front (l, q)))
          simp only [pipeOf, hq, hd, hsame, hshut] at hy ⊢
          exact hy
      | false =>
          obtain ⟨hsame', hshut'⟩ := h.same front hd
          simp only [pipeOf, hq, hd, hsame, hsame', hshut, hshut'] at hx ⊢
          exact hx

theorem Quieter.conn {front : Front} {p : Cstr} {l : Link} {q : Cstr} {ron : Rcon}
    (hc : Conn net front p l q ron) : Conn net' front p l q ron where
  other := (other_congr h.links l p).trans hc.other
  joins := (joins_congr h.links l p).trans hc.joins
  named := hc.named
  nameless := hc.nameless
  seqs := hc.seqs
  queue := hc.queue
  pipe := h.pipe hc.pipe

theorem Quieter.conns {c : Cluster} {front : Front} {p : Cstr} {raf : Server}
    (hc : Conns c front net p raf) : Conns c front net' p raf where
  strC := hc.strC
  member := hc.member
  namU := hc.namU
  rons := fun l ron hr => (hc.rons l ron hr).imp fun _ hq => h.conn hq

theorem Quieter.wires {c : Cluster} {front : Front} (hw : Wires c front net) :
    Wires c front net' where
  ends := by
    intro l p q ho
    exact hw.ends l p q ((other_congr h.links l p).symm.trans ho)
  unused := by
    intro l p ho
    have hnil := hw.unused l p ((other_congr h.links l p).symm.trans ho)
    exact List.prefix_nil.mp (hnil ▸ h.sub front (l, p))
  unjoined := by
    intro l p q ho hj
    obtain ⟨hq, hp⟩ := hw.unjoined l p q ((other_congr h.links l p).symm.trans ho)
      ((joins_congr h.links l p).symm.trans hj)
    exact ⟨List.prefix_nil.mp (hq ▸ h.sub front (l, q)),
      List.prefix_nil.mp (hp ▸ answersOf_mono (h.sub front (l, p)))⟩
  items := by
    intro l p q it ho hit
    exact hw.items l p q it ((other_congr h.links l p).symm.trans ho) ((h.sub front (l, p)).subset hit)

end Quieter

theorem hush_quieter (net : Net) (e : End) : Quieter net (net.hush e) where
  links := rfl
  stream := by
    intro e'
    by_cases he : e' = e
    · subst he
      right
      simp [Net.hush]
    · left
      simp [Net.hush, he]

theorem close_quieter (net : Net) (l : Link) (p : Cstr) : Quieter net (net.close l p) := by
  unfold Net.close
  split
  · exact hush_quieter net _
  · exact ⟨rfl, fun e => .inl ⟨rfl, rfl⟩⟩

section close

variable (net : Net) (l : Link) (p : Cstr)

theorem close_log : (net.close l p).log = net.log := by
  unfold Net.close
  split <;> rfl

theorem close_sis : (net.close l p).sis = net.sis := by
  unfold Net.close
  split <;> rfl

theorem close_casts : (net.close l p).casts = net.casts := by
  unfold Net.close
  split <;> rfl

end close

theorem exit_quieter (net : Net) (p : Cstr) : Quieter net (net.exit p) where
  links := rfl
  stream := by
    intro e
    cases he : net.writes p e with
    | true =>
        right
        simp [Net.exit, he]
    | false =>
        left
        simp [Net.exit, he]

theorem cut_quieter (net : Net) (e : End) (n : Nat) :
    Quieter net { net.hush e with flow := update net.flow e ((net.flow e).take n) } where
  links := rfl
  stream := by
    intro e'
    by_cases he : e' = e
    · subst he
      right
      simpa [Net.hush] using (List.take_prefix n _).trans (List.prefix_append _ _)
    · left
      simp [Net.hush, he]

/-! ### Processes -/

theorem stream_idle_suffix (net : Net) (front : Front) (e : End) :
    net.stream idle e <:+ net.stream front e :=
  List.suffix_append _ _

theorem stream_of_nil {net : Net} {front : Front} {e : End} (h : front e = none) :
    net.stream front e = net.stream idle e := by
  unfold Net.stream
  rw [h]
  rfl

/-- What is being processed can be left out. -/
theorem Wires.settle {c : Cluster} {front : Front} {net : Net} (h : Wires c front net) :
    Wires c idle net where
  ends := h.ends
  unused := by
    intro l p ho
    exact List.suffix_nil.mp (h.unused l p ho ▸ stream_idle_suffix net front (l, p))
  unjoined := by
    intro l p q ho hj
    obtain ⟨hq, hp⟩ := h.unjoined l p q ho hj
    refine ⟨List.suffix_nil.mp (hq ▸ stream_idle_suffix net front (l, q)), ?_⟩
    have hs : answersOf (net.stream idle (l, p)) <:+ answersOf (net.stream front (l, p)) :=
      ((stream_idle_suffix net front (l, p)).filter _).map _
    exact List.suffix_nil.mp (hp ▸ hs)
  items := fun l p q it ho hit =>
    h.items l p q it ho ((stream_idle_suffix net front (l, p)).subset hit)

/-- What is true inside a callback of `p`. -/
structure Keeps (c : Cluster) (mem : Cstr → Option Server) (p : Cstr) (front : Front) (s : Proc) :
    Prop where
  wires : Wires c front s.net
  own : Conns c front s.net p s.raf
  rest : ∀ p' raf, p' ≠ p → mem p' = some raf → Conns c front s.net p' raf
  log : ∀ m ∈ s.net.log, m.Ok
  front : ∀ e, front e ≠ none → e.2 = p ∧ s.net.joins e.1 p = true

/-- What is true when the process of `p` is gone. -/
def Gone (c : Cluster) (mem : Cstr → Option Server) (p : Cstr) (s : Proc) : Prop :=
  Linked c ⟨update mem p none, s.net.exit p⟩

variable {c : Cluster} {mem : Cstr → Option Server} {p : Cstr} {front : Front} {s : Proc}

theorem Conn.exit {net : Net} {p' : Cstr} {l : Link} {q : Cstr} {ron : Rcon} (hp : p' ≠ p)
    (hfront : ∀ e, front e ≠ none → e.2 = p ∧ net.joins e.1 p = true)
    (h : Conn net front p' l q ron) : Conn (net.exit p) idle p' l q ron := by
  have hown : front (l, p') = none := by
    by_contra hne
    exact hp (hfront _ hne).1
  have hx := (exit_quieter net p).conn h
  refine { hx with pipe := ?_ }
  cases hq : (net.exit p).shut (l, p') with
  | true =>
      have hy := hx.pipe.quieten (List.prefix_rfl (l := answersOf ((net.exit p).stream front (l, p'))))
        (asksOf ((net.exit p).stream idle (l, q))) ((net.exit p).shut (l, q))
      simp only [pipeOf, hq, stream_of_nil hown] at hy ⊢
      exact hy
  | false =>
      -- `p` has nothing in hand that came from here: it would have closed this stream
      have hother : front (l, q) = none := by
        by_contra hne
        obtain ⟨rfl, hj⟩ := hfront _ hne
        have hw : net.writes q (l, p') = true := by
          simp only [Net.writes, h.other, decide_true, Bool.true_and]
          exact hj
        simp [Net.exit, hw] at hq
      have hy := hx.pipe
      simp only [pipeOf, stream_of_nil hown, stream_of_nil hother] at hy ⊢
      exact hy

theorem Keeps.gone (h : Keeps c mem p front s) : Gone c mem p s where
  wires := ((exit_quieter s.net p).wires h.wires).settle
  conns := by
    intro p' raf hraf
    have hp : p' ≠ p := by
      rintro rfl
      simp at hraf
    have hc := h.rest p' raf hp (by simpa [hp] using hraf)
    exact { hc with rons := fun l ron hr => (hc.rons l ron hr).imp fun _ hq => hq.exit hp h.front }
  log := h.log

/-! ### What callbacks do -/

/-- Two states of a process that differ in nothing the connections depend on. -/
structure SameLinks (s s' : Proc) : Prop where
  strC : s'.raf.strC = s.raf.strC
  namU : s'.raf.namU = s.raf.namU
  rons : s'.raf.rons = s.raf.rons
  links : s'.net.links = s.net.links
  wri : s'.net.wri = s.net.wri
  flow : s'.net.flow = s.net.flow
  shut : s'.net.shut = s.net.shut
  log : s'.net.log = s.net.log

/-- The connections that are left keep what they had, in a net where the streams
are the same or quieter. -/
theorem Keeps.quieter {s' : Proc} (h : Keeps c mem p front s) (hq : Quieter s.net s'.net)
    (hlog : s'.net.log = s.net.log) (strC : s'.raf.strC = s.raf.strC)
    (namU : s'.raf.namU = s.raf.namU)
    (hrons : ∀ l ron', s'.raf.rons l = some ron' → ∃ ron, s.raf.rons l = some ron ∧
      ron'.namU = ron.namU ∧ ron'.outU = ron.outU ∧ ron'.sent = ron.sent) :
    Keeps c mem p front s' where
  wires := hq.wires h.wires
  own := by
    refine ⟨strC.trans h.own.strC, h.own.member, namU.trans h.own.namU, ?_⟩
    intro l ron' hr'
    obtain ⟨ron, hr, hnam, hout, hsent⟩ := hrons l ron' hr'
    obtain ⟨q, hc⟩ := h.own.rons l ron hr
    have hc' := hq.conn hc
    refine ⟨q, hc'.other, hc'.joins, hnam ▸ hc'.named, ?_, hsent ▸ hc'.seqs, ?_, ?_⟩
    · rw [hnam, hsent]
      exact hc'.nameless
    · rw [hout, hsent]
      exact hc'.queue
    · have hx := hc'.pipe
      simp only [pipeOf, hout, hsent] at hx ⊢
      exact hx
  rest := fun p' raf hp hraf => hq.conns (h.rest p' raf hp hraf)
  log := hlog ▸ h.log
  front := fun e he => ⟨(h.front e he).1, (joins_congr hq.links e.1 p).trans (h.front e he).2⟩

theorem Keeps.same {s' : Proc} (hs : SameLinks s s') (h : Keeps c mem p front s) :
    Keeps c mem p front s' := by
  refine h.quieter ⟨hs.links, ?_⟩ hs.log hs.strC hs.namU ?_
  · intro e
    left
    rw [hs.flow, hs.wri, hs.shut]
    exact ⟨rfl, rfl⟩
  · intro l ron hr
    exact ⟨ron, hs.rons ▸ hr, rfl, rfl, rfl⟩

/-- The other ends of the connections of `p` see the same as before. -/
theorem Conn.congr {net net' : Net} {front front' : Front} {p : Cstr} {l : Link} {q : Cstr}
    {ron : Rcon} (h : Conn net front p l q ron) (hother : net'.other l p = some q)
    (hjoins : net'.joins l p = true)
    (hanswers : answersOf (net'.stream front' (l, p)) = answersOf (net.stream front (l, p)))
    (hasks : asksOf (net'.stream front' (l, q)) = asksOf (net.stream front (l, q)))
    (hquiet : net'.shut (l, p) = net.shut (l, p)) (hdeaf : net'.shut (l, q) = net.shut (l, q)) :
    Conn net' front' p l q ron := by
  refine { h with other := hother, joins := hjoins, pipe := ?_ }
  have hx := h.pipe
  simp only [pipeOf, hanswers, hasks, hquiet, hdeaf] at hx ⊢
  exact hx

theorem other_two {net : Net} {l : Link} {p q p' q' : Cstr} (h : net.other l p = some q)
    (h' : net.other l p' = some q') (hp : p' ≠ p) : p' = q ∧ q' = p := by
  obtain ⟨k, hk, hends⟩ := Option.bind_eq_some_iff.mp h
  obtain ⟨k', hk', hends'⟩ := Option.bind_eq_some_iff.mp h'
  rw [hk] at hk'
  cases hk'
  split at hends
  · next hsrc =>
    cases hends
    rw [if_neg fun e => hp (e.symm.trans hsrc)] at hends'
    split at hends'
    · next hdst =>
      cases hends'
      exact ⟨hdst.symm, hsrc⟩
    · cases hends'
  · split at hends
    · next hdst =>
      cases hends
      split at hends'
      · next hsrc' =>
        cases hends'
        exact ⟨hsrc'.symm, hdst⟩
      · rw [if_neg fun e => hp (e.symm.trans hdst)] at hends'
        cases hends'
    · cases hends

theorem joins_lt {net : Net} {l : Link} {p : Cstr} (h : net.joins l p = true) :
    l < net.links.length := by
  cases hk : net.links[l]? with
  | none => simp [Net.joins, hk] at h
  | some k => exact (List.getElem?_eq_some_iff.mp hk).1

theorem joins_other {net : Net} {l : Link} {p : Cstr} (h : net.joins l p = true) :
    ∃ q, net.other l p = some q := by
  unfold Net.joins at h
  unfold Net.other
  cases hk : net.links[l]? with
  | none => simp [hk] at h
  | some k =>
      simp only [hk, Option.any_some, Bool.or_eq_true, Bool.and_eq_true, decide_eq_true_eq] at h
      simp only [Option.bind_some]
      split
      · exact ⟨_, rfl⟩
      · next hsrc =>
        obtain h | ⟨-, h⟩ := h
        · exact absurd h hsrc
        · exact ⟨k.src, if_pos h⟩

section queue

variable (net : Net) (e : End) (it : Item)

@[simp] theorem queue_links : (net.queue e it).links = net.links := by
  unfold Net.queue
  split <;> rfl

@[simp] theorem queue_shut : (net.queue e it).shut = net.shut := by
  unfold Net.queue
  split <;> rfl

@[simp] theorem queue_log : (net.queue e it).log = net.log := by
  unfold Net.queue
  split <;> rfl

@[simp] theorem queue_sis : (net.queue e it).sis = net.sis := by
  unfold Net.queue
  split <;> rfl

@[simp] theorem queue_casts : (net.queue e it).casts = net.casts := by
  unfold Net.queue
  split <;> rfl

theorem stream_queue_of_ne (front : Front) {e' : End} (h : e' ≠ e) :
    (net.queue e it).stream front e' = net.stream front e' := by
  unfold Net.queue Net.stream
  split
  · rfl
  · simp [h]

theorem stream_queue_of_shut (front : Front) (h : net.shut e = true) :
    (net.queue e it).stream front e = net.stream front e := by
  unfold Net.queue
  rw [if_pos h]

theorem stream_queue (front : Front) (h : net.shut e = false) :
    (net.queue e it).stream front e = net.stream front e ++ [it] := by
  unfold Net.queue Net.stream
  simp [h]

theorem mem_stream_queue {front : Front} {e' : End} {x : Item}
    (h : x ∈ (net.queue e it).stream front e') :
    x ∈ net.stream front e' ∨ (e' = e ∧ x = it) := by
  by_cases he : e' = e
  · subst he
    cases hs : net.shut e' with
    | true => exact .inl (stream_queue_of_shut net e' it front hs ▸ h)
    | false =>
        rw [stream_queue net e' it front hs, List.mem_append, List.mem_singleton] at h
        exact h.imp_right fun hx => ⟨rfl, hx⟩
  · exact .inl (stream_queue_of_ne net e it front he ▸ h)

end queue

/-- `p` is reading from `l`, and `its` are in hand. -/
def hold (l : Link) (p : Cstr) (its : List Item) : Front := update idle (l, p) (some its)

theorem stream_hold (net : Net) (l : Link) (p : Cstr) (its : List Item) :
    net.stream (hold l p its) (l, p) = its ++ net.stream idle (l, p) := by
  simp [Net.stream, hold, idle]

theorem stream_hold_of_ne (net : Net) {l : Link} {p : Cstr} (its : List Item) {e : End}
    (h : e ≠ (l, p)) : net.stream (hold l p its) e = net.stream idle e := by
  simp [Net.stream, hold, idle, h]

theorem isRasp_of_isRevo {b : Body} (h : b.isRevo = true) : b.isRasp = false := by
  cases b with
  | revo rest => rfl
  | rasp sucW => cases h
  | apen rest citD entD entU => cases h

theorem isRevo_of_isRasp {b : Body} (h : b.isRasp = true) : b.isRevo = false := by
  cases b with
  | rasp sucW => rfl
  | revo rest => cases h
  | apen rest citD entD entU => cases h

/-- Steps that change one connection of `p` only. -/
theorem Keeps.on_link {front' : Front} {s' : Proc} {l : Link} {q : Cstr}
    (h : Keeps c mem p front s) (hq : s.net.other l p = some q)
    (hlinks : s'.net.links = s.net.links) (hshut : s'.net.shut = s.net.shut)
    (hlog : ∀ m ∈ s'.net.log, m.Ok)
    (strC : s'.raf.strC = s.raf.strC) (namU : s'.raf.namU = s.raf.namU)
    (hstream : ∀ e, e ≠ (l, p) → e ≠ (l, q) → s'.net.stream front' e = s.net.stream front e)
    (hrons : ∀ l', l' ≠ l → s'.raf.rons l' = s.raf.rons l')
    (hown : ∀ ron, s'.raf.rons l = some ron → Conn s'.net front' p l q ron)
    (hpeer : ∀ ron, Conn s.net front q l p ron → Conn s'.net front' q l p ron)
    (hjoin : s.net.joins l p = true)
    (hunjoined : s.net.joins l q = false → s'.net.stream front' (l, p) = [] ∧
      answersOf (s'.net.stream front' (l, q)) = [])
    (hp : ∀ it ∈ s'.net.stream front' (l, p), ItemOk q it)
    (hq' : ∀ it ∈ s'.net.stream front' (l, q), ItemOk p it)
    (hfront : ∀ e, front' e ≠ none → e = (l, p)) :
    Keeps c mem p front' s' := by
  have hother : ∀ l' p', s'.net.other l' p' = s.net.other l' p' := other_congr hlinks
  have hjoins : ∀ l' p', s'.net.joins l' p' = s.net.joins l' p' := joins_congr hlinks
  have hlink : ∀ l' p', l' ≠ l → s'.net.stream front' (l', p') = s.net.stream front (l', p') :=
    fun l' p' hl => hstream _ (fun e => hl (congrArg Prod.fst e)) fun e => hl (congrArg Prod.fst e)
  -- the connections that are not `l` see the same streams
  have hconn : ∀ p' l' q' ron, l' ≠ l → Conn s.net front p' l' q' ron →
      Conn s'.net front' p' l' q' ron := by
    intro p' l' q' ron hl hc
    refine hc.congr ?_ ?_ ?_ ?_ ?_ ?_
    · rw [hother, hc.other]
    · rw [hjoins, hc.joins]
    · rw [hlink l' p' hl]
    · rw [hlink l' q' hl]
    · rw [hshut]
    · rw [hshut]
  refine ⟨⟨?_, ?_, ?_, ?_⟩, ?_, ?_, hlog, ?_⟩
  · intro l' p' q' ho
    exact h.wires.ends l' p' q' (hother l' p' ▸ ho)
  · intro l' p' ho
    rw [hother] at ho
    rw [hstream (l', p') ?_ ?_]
    · exact h.wires.unused l' p' ho
    · rintro ⟨⟩
      rw [hq] at ho
      cases ho
    · rintro ⟨⟩
      rw [other_symm hq] at ho
      cases ho
  · intro l' p' q' ho hj
    rw [hother] at ho
    rw [hjoins] at hj
    by_cases hl : l' = l
    · subst hl
      by_cases hpp : p' = p
      · rw [hpp, hjoin] at hj
        cases hj
      · obtain ⟨rfl, rfl⟩ := other_two hq ho hpp
        exact hunjoined hj
    · rw [hlink _ _ hl, hlink _ _ hl]
      exact h.wires.unjoined l' p' q' ho hj
  · intro l' p' q' it ho hit
    rw [hother] at ho
    by_cases hl : l' = l
    · subst hl
      by_cases hpp : p' = p
      · subst hpp
        cases hq.symm.trans ho
        exact hp it hit
      · obtain ⟨rfl, rfl⟩ := other_two hq ho hpp
        exact hq' it hit
    · rw [hlink _ _ hl] at hit
      exact h.wires.items l' p' q' it ho hit
  · refine ⟨strC.trans h.own.strC, h.own.member, namU.trans h.own.namU, ?_⟩
    intro l' ron hr
    by_cases hl : l' = l
    · subst hl
      exact ⟨q, hown ron hr⟩
    · rw [hrons l' hl] at hr
      exact (h.own.rons l' ron hr).imp fun q' hc => hconn p l' q' ron hl hc
  · intro p' raf hpp hraf
    have hc := h.rest p' raf hpp hraf
    refine { hc with rons := ?_ }
    intro l' ron hr
    obtain ⟨q', hcon⟩ := hc.rons l' ron hr
    refine ⟨q', ?_⟩
    by_cases hl : l' = l
    · subst hl
      obtain ⟨rfl, rfl⟩ := other_two hq hcon.other hpp
      exact hpeer ron hcon
    · exact hconn p' l' q' ron hl hcon
  · intro e he
    rw [hfront e he, hjoins]
    exact ⟨rfl, hjoin⟩

theorem hold_ne_none {l : Link} {p : Cstr} {its : List Item} {e : End}
    (h : hold l p its e ≠ none) : e = (l, p) := by
  by_contra he
  simp [hold, idle, he] at h

section served

variable {l : Link} {q : Cstr} {it : Item}

/-- A response to the message in hand adds one answer, and takes one request away. -/
theorem Conn.served {net : Net} {m : Rmsg} {ron : Rcon} (hit : it.msg.body.isRevo = true)
    (hm : m.body.isRasp = true) (hpq : q ≠ p) (h : Conn net (hold l p [it]) q l p ron) :
    Conn (net.queue (l, q) ⟨m, it.req⟩) (hold l p []) q l p ron := by
  have hne : ((l, q) : End) ≠ (l, p) := fun e => hpq (congrArg Prod.snd e)
  have hasks : (pipeOf net (hold l p [it]) l q p ron).asks
      = it.req :: asksOf (net.stream (hold l p []) (l, p)) := by
    simp [pipeOf, stream_hold, asksOf, hit]
  have hstream : (net.queue (l, q) ⟨m, it.req⟩).stream (hold l p []) (l, p)
      = net.stream (hold l p []) (l, p) :=
    stream_queue_of_ne net (l, q) _ _ hne.symm
  refine { h with other := ?_, joins := ?_, pipe := ?_ }
  · rw [other_congr (queue_links ..)]
    exact h.other
  · rw [joins_congr (queue_links ..)]
    exact h.joins
  · cases hs : net.shut (l, q) with
    | true =>
        have hx := h.pipe.quieten (List.prefix_rfl (l := answersOf (net.stream (hold l p [it]) (l, q))))
          (asksOf (net.stream (hold l p []) (l, p))) (net.shut (l, p))
        simp only [pipeOf, queue_shut, hs, hstream, stream_queue_of_shut net (l, q) _ _ hs,
          stream_hold_of_ne net _ hne] at hx ⊢
        exact hx
    | false =>
        have hx := h.pipe.serve hasks hs
        simp only [pipeOf, queue_shut, hs, hstream, stream_queue net (l, q) _ _ hs,
          stream_hold_of_ne net _ hne, answersOf_append] at hx ⊢
        simpa [answersOf, hm] using hx

theorem Keeps.serve {m : Rmsg} (hm : m.body.isRasp = true) (hit : it.msg.body.isRevo = true)
    (hq : s.net.other l p = some q) (h : Keeps c mem p (hold l p [it]) s) :
    Keeps c mem p (hold l p []) { s with net := s.net.queue (l, q) ⟨m, it.req⟩ } := by
  obtain ⟨-, -, hpq⟩ := h.wires.ends l p q hq
  have hne : ((l, p) : End) ≠ (l, q) := fun e => hpq (congrArg Prod.snd e)
  have hp : (s.net.queue (l, q) ⟨m, it.req⟩).stream (hold l p []) (l, p)
      = s.net.stream idle (l, p) := by
    rw [stream_queue_of_ne _ _ _ _ hne, stream_hold, List.nil_append]
  have hjoin : s.net.joins l p = true := (h.front (l, p) (by simp [hold])).2
  have hjoin' : s.net.joins l q = true := by
    by_contra hj
    have hnil := (h.wires.unjoined l q p (other_symm hq) (by simpa using hj)).1
    rw [stream_hold] at hnil
    cases hnil
  refine h.on_link hq (queue_links ..) (queue_shut ..) ?_ rfl rfl ?_ ?_ ?_ ?_ hjoin ?_ ?_ ?_
    fun e he => hold_ne_none he
  · show ∀ x ∈ (s.net.queue (l, q) ⟨m, it.req⟩).log, x.Ok
    rw [queue_log]
    exact h.log
  · intro e he he'
    rw [stream_queue_of_ne _ _ _ _ he', stream_hold_of_ne _ _ he, stream_hold_of_ne _ _ he]
  · intro l' _
    rfl
  · intro ron hr
    obtain ⟨q', hc⟩ := h.own.rons l ron hr
    cases hq.symm.trans hc.other
    refine hc.congr ?_ ?_ ?_ ?_ ?_ ?_
    · exact (other_congr (queue_links ..) _ _).trans hc.other
    · exact (joins_congr (queue_links ..) _ _).trans hc.joins
    · rw [hp, stream_hold]
      simp [answersOf, isRasp_of_isRevo hit]
    · cases hs : s.net.shut (l, q) with
      | true => rw [stream_queue_of_shut _ _ _ _ hs, stream_hold_of_ne _ _ hne.symm,
          stream_hold_of_ne _ _ hne.symm]
      | false =>
          rw [stream_queue _ _ _ _ hs, stream_hold_of_ne _ _ hne.symm,
            stream_hold_of_ne _ _ hne.symm]
          simp [asksOf, isRevo_of_isRasp hm]
    · rw [queue_shut]
    · rw [queue_shut]
  · intro ron hc
    exact hc.served hit hm (Ne.symm hpq)
  · intro hj
    rw [hjoin'] at hj
    cases hj
  · intro x hx
    rw [hp] at hx
    refine h.wires.items l p q x hq ?_
    rw [stream_hold]
    exact List.mem_cons_of_mem _ hx
  · intro x hx
    obtain hx | ⟨-, rfl⟩ := mem_stream_queue _ _ _ hx
    · rw [stream_hold_of_ne _ _ hne.symm] at hx
      refine h.wires.items l q p x (other_symm hq) ?_
      rw [stream_hold_of_ne _ _ hne.symm]
      exact hx
    · unfold ItemOk
      revert hm
      cases m.body <;> simp [Body.isRasp]

end served

/-- The same streams, divided differently between the net and the hand. -/
theorem Keeps.reframe {front' : Front} {s' : Proc} (h : Keeps c mem p front s)
    (hraf : s'.raf = s.raf) (hlinks : s'.net.links = s.net.links) (hshut : s'.net.shut = s.net.shut)
    (hlog : ∀ m ∈ s'.net.log, m.Ok)
    (hstream : ∀ e, s'.net.stream front' e = s.net.stream front e)
    (hfront : ∀ e, front' e ≠ none → e.2 = p ∧ s.net.joins e.1 p = true) :
    Keeps c mem p front' s' := by
  have hother : ∀ l p, s'.net.other l p = s.net.other l p := other_congr hlinks
  have hjoins : ∀ l p, s'.net.joins l p = s.net.joins l p := joins_congr hlinks
  have hconns : ∀ p' raf, Conns c front s.net p' raf → Conns c front' s'.net p' raf := by
    intro p' raf hc
    refine { hc with rons := fun l ron hr => (hc.rons l ron hr).imp fun q hq => ?_ }
    refine hq.congr ?_ ?_ ?_ ?_ ?_ ?_
    · rw [hother, hq.other]
    · rw [hjoins, hq.joins]
    · rw [hstream]
    · rw [hstream]
    · rw [hshut]
    · rw [hshut]
  refine ⟨⟨?_, ?_, ?_, ?_⟩, ?_, ?_, hlog, ?_⟩
  · intro l p q ho
    exact h.wires.ends l p q (hother l p ▸ ho)
  · intro l p ho
    rw [hstream]
    exact h.wires.unused l p (hother l p ▸ ho)
  · intro l p q ho hj
    rw [hstream, hstream]
    exact h.wires.unjoined l p q (hother l p ▸ ho) (hjoins l p ▸ hj)
  · intro l p q it ho hit
    exact h.wires.items l p q it (hother l p ▸ ho) (hstream (l, p) ▸ hit)
  · rw [hraf]
    exact hconns p s.raf h.own
  · intro p' raf hp hraf'
    exact hconns p' raf (h.rest p' raf hp hraf')
  · intro e he
    rw [hjoins]
    exact hfront e he

section reading

variable {l : Link} {q : Cstr} {it : Item} {its : List Item}

theorem Keeps.start (h : Keeps c mem p idle s) {ron : Rcon} (hr : s.raf.rons l = some ron) :
    Keeps c mem p (hold l p []) s := by
  obtain ⟨q, hc⟩ := h.own.rons l ron hr
  refine h.reframe rfl rfl rfl h.log ?_ ?_
  · intro e
    by_cases he : e = (l, p)
    · rw [he, stream_hold, List.nil_append]
    · exact stream_hold_of_ne _ _ he
  · intro e he
    rw [hold_ne_none he]
    exact ⟨rfl, hc.joins⟩

theorem Keeps.other (h : Keeps c mem p (hold l p its) s) : ∃ q, s.net.other l p = some q :=
  joins_other (h.front (l, p) (by simp [hold])).2

theorem Keeps.finish (h : Keeps c mem p (hold l p []) s) : Keeps c mem p idle s := by
  refine h.reframe rfl rfl rfl h.log ?_ fun e he => absurd rfl he
  intro e
  by_cases he : e = (l, p)
  · rw [he, stream_hold, List.nil_append]
  · exact (stream_hold_of_ne _ _ he).symm

/-- A message is taken from the stream. -/
theorem Keeps.take (h : Keeps c mem p (hold l p []) s) (hit : s.net.flow (l, p) = it :: its) :
    Keeps c mem p (hold l p [it])
      { s with net := { s.net with flow := update s.net.flow (l, p) its } } := by
  refine h.reframe rfl rfl rfl h.log ?_ ?_
  · intro e
    by_cases he : e = (l, p)
    · rw [he, stream_hold, stream_hold]
      simp [Net.stream, idle, hit]
    · rw [stream_hold_of_ne _ _ he, stream_hold_of_ne _ _ he]
      simp [Net.stream, he]
  · intro e he
    rw [hold_ne_none he]
    exact ⟨rfl, (h.front (l, p) (by simp [hold])).2⟩

/-- What the other end sees does not change when the message in hand is done with,
unless it was waiting for a response to it. -/
theorem Conn.dropped {net : Net} {ron : Rcon} (hit : it.msg.body.isRevo = false) (hpq : q ≠ p)
    (h : Conn net (hold l p [it]) q l p ron) : Conn net (hold l p []) q l p ron := by
  have hne : ((l, q) : End) ≠ (l, p) := fun e => hpq (congrArg Prod.snd e)
  refine h.congr h.other h.joins ?_ ?_ rfl rfl
  · rw [stream_hold_of_ne _ _ hne, stream_hold_of_ne _ _ hne]
  · rw [stream_hold, stream_hold]
    simp [asksOf, hit]

/-- The message in hand is done with and was no request for a vote. What is left to
show is that our own end is as it should be. -/
theorem Keeps.drop {s' : Proc} (h : Keeps c mem p (hold l p [it]) s)
    (hit : it.msg.body.isRevo = false) (hq : s.net.other l p = some q) (hnet : s'.net = s.net)
    (strC : s'.raf.strC = s.raf.strC) (namU : s'.raf.namU = s.raf.namU)
    (hrons : ∀ l', l' ≠ l → s'.raf.rons l' = s.raf.rons l')
    (hown : ∀ ron, s'.raf.rons l = some ron → Conn s.net (hold l p []) p l q ron) :
    Keeps c mem p (hold l p []) s' := by
  obtain ⟨-, -, hpq⟩ := h.wires.ends l p q hq
  have hne : ((l, q) : End) ≠ (l, p) := fun e => hpq (congrArg Prod.snd e).symm
  have hsub : ∀ x ∈ s.net.stream (hold l p []) (l, p), x ∈ s.net.stream (hold l p [it]) (l, p) := by
    intro x hx
    rw [stream_hold] at hx ⊢
    exact List.mem_cons_of_mem _ hx
  refine h.on_link hq (by rw [hnet]) (by rw [hnet]) (by rw [hnet]; exact h.log) strC namU ?_ hrons
    ?_ ?_ (h.front (l, p) (by simp [hold])).2 ?_ ?_ ?_ fun e he => hold_ne_none he
  · intro e he _
    rw [hnet, stream_hold_of_ne _ _ he, stream_hold_of_ne _ _ he]
  · rw [hnet]
    exact hown
  · rw [hnet]
    intro ron hc
    exact hc.dropped hit (Ne.symm hpq)
  · intro hj
    have hnil := (h.wires.unjoined l q p (other_symm hq) hj).1
    rw [stream_hold] at hnil
    cases hnil
  · rw [hnet]
    intro x hx
    exact h.wires.items l p q x hq (hsub x hx)
  · rw [hnet]
    intro x hx
    rw [stream_hold_of_ne _ _ hne] at hx
    refine h.wires.items l q p x (other_symm hq) ?_
    rw [stream_hold_of_ne _ _ hne]
    exact hx

/-- A heartbeat is done with. -/
theorem Keeps.skip (h : Keeps c mem p (hold l p [it]) s) (hrevo : it.msg.body.isRevo = false)
    (hrasp : it.msg.body.isRasp = false) (hq : s.net.other l p = some q) :
    Keeps c mem p (hold l p []) s := by
  obtain ⟨-, -, hpq⟩ := h.wires.ends l p q hq
  have hne : ((l, q) : End) ≠ (l, p) := fun e => hpq (congrArg Prod.snd e).symm
  refine h.drop hrevo hq rfl rfl rfl (fun _ _ => rfl) ?_
  intro ron hr
  obtain ⟨q', hc⟩ := h.own.rons l ron hr
  cases hq.symm.trans hc.other
  refine hc.congr hc.other hc.joins ?_ ?_ rfl rfl
  · rw [stream_hold, stream_hold]
    simp [answersOf, hrasp]
  · rw [stream_hold_of_ne _ _ hne, stream_hold_of_ne _ _ hne]

theorem answers_hold {net : Net} (hrasp : it.msg.body.isRasp = true) (ron : Rcon) :
    (pipeOf net (hold l p [it]) l p q ron).answers
      = it.req :: answersOf (net.stream (hold l p []) (l, p)) := by
  simp [pipeOf, stream_hold, answersOf, hrasp]

theorem length_tail_suffix {α : Type} {out sent : List α} (h : out <:+ sent)
    (hpos : sent.length - out.length < sent.length) :
    sent.length - out.tail.length = sent.length - out.length + 1 := by
  have hle := h.length_le
  rw [List.length_tail]
  omega

/-- A response was processed, and the head of the queue is taken off for it. -/
theorem Keeps.pop (h : Keeps c mem p (hold l p [it]) s) (hrasp : it.msg.body.isRasp = true)
    {ron : Rcon} (hr : s.raf.rons l = some ron) :
    Keeps c mem p (hold l p [])
      { s with raf := { s.raf with
        rons := update s.raf.rons l (some { ron with outU := ron.outU.tail }) } } := by
  obtain ⟨q, hc⟩ := h.own.rons l ron hr
  obtain ⟨-, -, hpq⟩ := h.wires.ends l p q hc.other
  have hne : ((l, q) : End) ≠ (l, p) := fun e => hpq (congrArg Prod.snd e).symm
  refine h.drop (isRevo_of_isRasp hrasp) hc.other rfl rfl rfl ?_ ?_
  · intro l' hl
    exact update_of_ne hl _ _
  · intro ron' hr'
    cases (update_self l _ _).symm.trans hr'
    have hdone := length_tail_suffix hc.queue (hc.pipe.pending (answers_hold hrasp ron))
    refine { hc with queue := (List.tail_suffix _).trans hc.queue, pipe := ?_ }
    have hx := hc.pipe.pop (answers_hold hrasp ron)
    simp only [pipeOf, stream_hold_of_ne _ _ hne, hdone] at hx ⊢
    exact hx

/-- How a response is matched. -/
theorem Conn.match_ok {net : Net} {ron : Rcon} (hc : Conn net (hold l p [it]) p l q ron)
    (hrasp : it.msg.body.isRasp = true) : Match.Ok ⟨ron.sent, ron.outU.head?, it.req⟩ := by
  obtain ⟨i, hi, -, hrevo, hiff⟩ := hc.pipe.next (answers_hold hrasp ron)
  simp only [pipeOf] at hi hiff
  have hseq : it.req.seq = i := hc.seqs i _ hi
  have hhead : ron.outU.head? = ron.sent[ron.sent.length - ron.outU.length]? := by
    nth_rewrite 1 [List.suffix_iff_eq_drop.mp hc.queue]
    exact List.head?_drop
  refine ⟨hrevo, ?_⟩
  have hpos : ron.outU.head? = some it.req ↔ ron.sent.length - ron.outU.length = i := by
    rw [hhead]
    refine ⟨?_, ?_⟩
    · intro h
      exact (hc.seqs _ _ h).symm.trans hseq
    · intro h
      rw [h]
      exact hi
  show ron.outU.head? = some it.req ↔ ∀ r ∈ ron.sent, r.seq < it.req.seq → r.isRevo = true
  rw [hpos, hiff, hseq]
  refine ⟨?_, ?_⟩
  · intro h r hr hlt
    obtain ⟨j, hj⟩ := List.getElem?_of_mem hr
    rw [hc.seqs j r hj] at hlt
    exact h j r hlt hj
  · intro h j r hlt hj
    refine h r (List.mem_of_getElem? hj) ?_
    rw [hc.seqs j r hj]
    exact hlt

end reading

section sending

variable {l : Link} {q : Cstr}

/-- One end changes, and keeps what is asked of it. -/
theorem Keeps.setRon {ron ron' : Rcon} (h : Keeps c mem p front s) (hr : s.raf.rons l = some ron)
    (hc : ∀ q, Conn s.net front p l q ron → Conn s.net front p l q ron') :
    Keeps c mem p front
      { s with raf := { s.raf with rons := update s.raf.rons l (some ron') } } := by
  refine { h with own := { h.own with rons := ?_ } }
  intro l' x hx
  by_cases hl : l' = l
  · subst hl
    cases (update_self l' _ _).symm.trans hx
    exact (h.own.rons l' ron hr).imp hc
  · exact h.own.rons l' x ((update_of_ne hl _ _).symm.trans hx)

/-- A request goes to the end of the queue. -/
theorem Conn.sent {net : Net} {ron : Rcon} {msg : Rmsg} (hc : Conn net idle p l q ron)
    (hnam : ron.namU ≠ none) (hpq : p ≠ q) :
    Conn (net.queue (l, q) ⟨msg, ⟨msg, ron.sent.length⟩⟩) idle p l q
      { ron with
        outU := ron.outU ++ [⟨msg, ron.sent.length⟩], sent := ron.sent ++ [⟨msg, ron.sent.length⟩] } := by
  have hne : ((l, p) : End) ≠ (l, q) := fun e => hpq (congrArg Prod.snd e)
  refine ⟨?_, ?_, hc.named, fun h => absurd h hnam, ?_, ?_, ?_⟩
  · exact (other_congr (queue_links ..) l p).trans hc.other
  · exact (joins_congr (queue_links ..) l p).trans hc.joins
  · intro i r hi
    obtain hlt | hge := Nat.lt_or_ge i ron.sent.length
    · rw [List.getElem?_append_left hlt] at hi
      exact hc.seqs i r hi
    · rw [List.getElem?_append_right hge] at hi
      cases hk : i - ron.sent.length with
      | zero =>
          rw [hk] at hi
          cases hi
          exact Nat.le_antisymm hge (Nat.le_of_sub_eq_zero hk)
      | succ k =>
          rw [hk] at hi
          cases hi
  · obtain ⟨t, ht⟩ := hc.queue
    exact ⟨t, by rw [← List.append_assoc, ht]⟩
  · have hdone : (ron.sent ++ [(⟨msg, ron.sent.length⟩ : Rreq)]).length
        - (ron.outU ++ [(⟨msg, ron.sent.length⟩ : Rreq)]).length
          = ron.sent.length - ron.outU.length := by
      simp
    cases hs : net.shut (l, q) with
    | true =>
        have hx := hc.pipe.tell (r := ⟨msg, ron.sent.length⟩) (.inr hs)
        simp only [pipeOf, hdone, queue_shut, hs, stream_queue_of_ne _ _ _ _ hne,
          stream_queue_of_shut _ _ _ _ hs] at hx ⊢
        exact hx
    | false =>
        cases hrevo : msg.body.isRevo with
        | true =>
            have hx := hc.pipe.ask (r := ⟨msg, ron.sent.length⟩) hrevo hs
            simp only [pipeOf, hdone, queue_shut, hs, stream_queue_of_ne _ _ _ _ hne,
              stream_queue _ _ _ _ hs, asksOf_append] at hx ⊢
            simpa [asksOf, hrevo] using hx
        | false =>
            have hx := hc.pipe.tell (r := ⟨msg, ron.sent.length⟩) (.inl hrevo)
            simp only [pipeOf, hdone, queue_shut, hs, stream_queue_of_ne _ _ _ _ hne,
              stream_queue _ _ _ _ hs, asksOf_append] at hx ⊢
            simpa [asksOf, hrevo] using hx

theorem Keeps.send {ron : Rcon} {msg : Rmsg} (h : Keeps c mem p idle s)
    (hr : s.raf.rons l = some ron) (hnam : ron.namU ≠ none) (hreq : msg.body.isRasp = false)
    (hq : s.net.other l p = some q) (hitem : ItemOk p ⟨msg, ⟨msg, ron.sent.length⟩⟩) :
    Keeps c mem p idle
      { s with
        raf := { s.raf with
          rons := update s.raf.rons l (some { ron with
            outU := ron.outU ++ [⟨msg, ron.sent.length⟩]
            sent := ron.sent ++ [⟨msg, ron.sent.length⟩] }) }
        net := s.net.queue (l, q) ⟨msg, ⟨msg, ron.sent.length⟩⟩ } := by
  obtain ⟨-, -, hpq⟩ := h.wires.ends l p q hq
  obtain ⟨q', hc⟩ := h.own.rons l ron hr
  cases hq.symm.trans hc.other
  have hne : ((l, p) : End) ≠ (l, q) := fun e => hpq (congrArg Prod.snd e)
  have hanswers : answersOf ((s.net.queue (l, q) ⟨msg, ⟨msg, ron.sent.length⟩⟩).stream idle (l, q))
      = answersOf (s.net.stream idle (l, q)) := by
    cases hs : s.net.shut (l, q) with
    | true => rw [stream_queue_of_shut _ _ _ _ hs]
    | false =>
        rw [stream_queue _ _ _ _ hs]
        simp [answersOf, hreq]
  refine h.on_link hq (queue_links ..) (queue_shut ..) ?_ rfl rfl ?_ ?_ ?_ ?_ hc.joins ?_ ?_ ?_
    fun e he => absurd rfl he
  · show ∀ m ∈ (s.net.queue (l, q) _).log, m.Ok
    rw [queue_log]
    exact h.log
  · intro e _ he
    exact stream_queue_of_ne _ _ _ _ he
  · intro l' hl
    exact update_of_ne hl _ _
  · intro ron' hr'
    cases (update_self l _ _).symm.trans hr'
    exact hc.sent hnam hpq
  · intro ron' hc'
    refine hc'.congr ?_ ?_ hanswers ?_ ?_ ?_
    · exact (other_congr (queue_links ..) l q).trans hc'.other
    · exact (joins_congr (queue_links ..) l q).trans hc'.joins
    · rw [stream_queue_of_ne _ _ _ _ hne]
    · rw [queue_shut]
    · rw [queue_shut]
  · intro hj
    obtain ⟨hp, hq⟩ := h.wires.unjoined l q p (other_symm hq) hj
    exact ⟨(stream_queue_of_ne _ _ _ _ hne).trans hp, hanswers.trans hq⟩
  · intro it hit
    rw [stream_queue_of_ne _ _ _ _ hne] at hit
    exact h.wires.items l p q it hq hit
  · intro it hit
    obtain hit | ⟨-, rfl⟩ := mem_stream_queue _ _ _ hit
    · exact h.wires.items l q p it (other_symm hq) hit
    · exact hitem

end sending

/-! ### New connections -/

theorem pipe_unused {net : Net} {l : Link} {p q : Cstr} {nam : Option Cstr} {stat : Stat}
    (hin : answersOf (net.stream front (l, p)) = []) (hout : net.stream front (l, q) = []) :
    (pipeOf net front l p q ⟨nam, stat, [], []⟩).Ok Rreq.isRevo := by
  unfold pipeOf
  rw [hin, hout]
  exact Pipe.ok_new _ _

/-- A link is added. -/
def Net.open (net : Net) (p nam : Cstr) : Net :=
  { net with links := net.links ++ [⟨p, nam, false⟩] }

theorem other_lt {net : Net} {l : Link} {p q : Cstr} (h : net.other l p = some q) :
    l < net.links.length := by
  obtain ⟨k, hk, -⟩ := Option.bind_eq_some_iff.mp h
  exact (List.getElem?_eq_some_iff.mp hk).1

theorem open_other_old {net : Net} {l : Link} (p nam : Cstr) (hl : l < net.links.length)
    (p' : Cstr) : (net.open p nam).other l p' = net.other l p' := by
  simp [Net.open, Net.other, List.getElem?_append_left hl]

theorem open_joins_old {net : Net} {l : Link} (p nam : Cstr) (hl : l < net.links.length)
    (p' : Cstr) : (net.open p nam).joins l p' = net.joins l p' := by
  simp [Net.open, Net.joins, List.getElem?_append_left hl]

theorem open_other_new (net : Net) (p nam p' : Cstr) :
    (net.open p nam).other net.links.length p'
      = if p = p' then some nam else if nam = p' then some p else none := by
  simp [Net.open, Net.other]

theorem open_joins_new (net : Net) (p nam p' : Cstr) :
    (net.open p nam).joins net.links.length p' = decide (p = p') := by
  simp [Net.open, Net.joins]

theorem open_other {net : Net} {l : Link} {p nam p' q : Cstr}
    (h : (net.open p nam).other l p' = some q) :
    net.other l p' = some q ∨
      (l = net.links.length ∧ (p' = p ∧ q = nam ∨ p' = nam ∧ q = p)) := by
  obtain hlt | heq | hgt := Nat.lt_trichotomy l net.links.length
  · exact .inl ((open_other_old p nam hlt p').symm.trans h)
  · right
    subst heq
    rw [open_other_new] at h
    split at h
    · next hp =>
      cases h
      exact ⟨rfl, .inl ⟨hp.symm, rfl⟩⟩
    · split at h
      · next hn =>
        cases h
        exact ⟨rfl, .inr ⟨hn.symm, rfl⟩⟩
      · cases h
  · have hlen : l < (net.links ++ [Lnk.mk p nam false]).length := other_lt h
    rw [List.length_append, List.length_singleton] at hlen
    exact absurd hgt (Nat.not_lt.mpr (Nat.le_of_lt_succ hlen))

theorem Keeps.open {nam : Cstr} (h : Keeps c mem p front s) (hnam : nam ∈ c.peers p)
    (ronU : Cstr → Option Link) :
    Keeps c mem p front
      { s with
        raf := { s.raf with
          rons := update s.raf.rons s.net.links.length (some ⟨some nam, .wait, [], []⟩)
          ronU := ronU }
        net := s.net.open p nam } := by
  obtain ⟨hmem, hne⟩ := List.mem_filter.mp hnam
  have hpn : p ≠ nam := fun e => by simp [e] at hne
  -- nothing was ever on the way on a link that is not there
  have hnil : ∀ p', s.net.stream front (s.net.links.length, p') = [] := by
    intro p'
    refine h.wires.unused _ p' ?_
    simp [Net.other]
  have hconn : ∀ p' l q ron, Conn s.net front p' l q ron →
      Conn (s.net.open p nam) front p' l q ron := by
    intro p' l q ron hc
    have hl := other_lt hc.other
    exact hc.congr ((open_other_old p nam hl p').trans hc.other)
      ((open_joins_old p nam hl p').trans hc.joins) rfl rfl rfl rfl
  refine ⟨⟨?_, ?_, ?_, ?_⟩, ?_, ?_, h.log, ?_⟩
  · intro l p' q ho
    obtain ho | ⟨-, ⟨rfl, rfl⟩ | ⟨rfl, rfl⟩⟩ := open_other ho
    · exact h.wires.ends l p' q ho
    · exact ⟨h.own.member, hmem, hpn⟩
    · exact ⟨hmem, h.own.member, hpn.symm⟩
  · intro l p' ho
    show s.net.stream front (l, p') = []
    by_cases hl : l < s.net.links.length
    · exact h.wires.unused l p' ((open_other_old p nam hl p').symm.trans ho)
    · refine h.wires.unused l p' ?_
      simp [Net.other, List.getElem?_eq_none (Nat.not_lt.mp hl)]
  · intro l p' q ho hj
    show s.net.stream front (l, q) = [] ∧ answersOf (s.net.stream front (l, p')) = []
    obtain ho | ⟨rfl, -⟩ := open_other ho
    · exact h.wires.unjoined l p' q ho ((open_joins_old p nam (other_lt ho) p').symm.trans hj)
    · exact ⟨hnil q, by rw [hnil p']; rfl⟩
  · intro l p' q it ho hit
    obtain ho | ⟨rfl, -⟩ := open_other ho
    · exact h.wires.items l p' q it ho hit
    · rw [show (s.net.open p nam).stream front _ = s.net.stream front _ from rfl, hnil p'] at hit
      cases hit
  · refine { h.own with rons := ?_ }
    intro l ron hr
    by_cases hl : l = s.net.links.length
    · subst hl
      cases (update_self s.net.links.length _ _).symm.trans hr
      refine ⟨nam, ?_, ?_, ?_, (fun h => nomatch h), ?_, List.suffix_rfl, ?_⟩
      · rw [open_other_new, if_pos rfl]
      · rw [open_joins_new]
        exact decide_eq_true rfl
      · intro n hn
        cases hn
        rfl
      · intro i r hi
        cases hi
      · exact pipe_unused (congrArg answersOf (hnil p)) (hnil nam)
    · have hr' := (update_of_ne hl _ _).symm.trans hr
      exact (h.own.rons l ron hr').imp fun q hc => hconn p l q ron hc
  · intro p' raf hp hraf
    have hc := h.rest p' raf hp hraf
    exact { hc with rons := fun l ron hr => (hc.rons l ron hr).imp fun q hq => hconn p' l q ron hq }
  · intro e he
    obtain ⟨hp, hj⟩ := h.front e he
    refine ⟨hp, ?_⟩
    exact (open_joins_old p nam (joins_lt hj) p).trans hj

end Vere.Raft
