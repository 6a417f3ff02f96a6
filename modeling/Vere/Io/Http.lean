import Mathlib.Algebra.Order.Ring.Int
import Mathlib.Data.List.TakeWhile
import Vere.Lib.Chain
import Vere.Lib.Reach

/-!
# Vere.Io.Http

Requests and responses of one connection of the HTTP server (`http.c`).

The request under construction is `ruc`; requests that wait for their responses are a queue, linked
by `nex`, with `req` at the exit and `qer` at the entry. `_http_message_complete` links a request
behind `qer` and leaves `qer` where it is, and a chunk is parsed to its end by the parser of the
request that was under construction at its start. So neither a queue of two nor a chunk with the end
of one message and the start of another is handled. A read of nothing, which comes when the socket has
no bytes, is an error to the parser inside a message. While no request comes before the last one is
answered, no chunk goes beyond the end of a message and no message is read in part with a read of
nothing after it, all is well (`http_serves`).
-/

namespace Vere.Io.Http

open Function Vere.Lib

abbrev Bytes := List UInt8

/-! ### The code -/

/-- Ways in which the code ends. -/
inductive Halt
  | assert
  /-- A bad pointer. -/
  | wild
  /-- A loop that does not end. -/
  | spin
  /-- `u2_cm_bail`. -/
  | bail
  deriving DecidableEq

/-- `u2_hrat`: parser state. -/
inductive Hrat
  | non
  | nam
  | val
  deriving DecidableEq

/-- `u2_hreq`: incoming http request. The parser of a request has it as `data`. -/
structure Hreq where
  /-- Sequence within connection. -/
  seq : Nat
  /-- The parser has begun a message. It is not used again after its end. -/
  par : Bool
  /-- Method. -/
  met : Nat
  /-- Parser state. -/
  rat : Hrat
  url : Option Bytes
  /-- Headers, the last one first. -/
  hed : List (Bytes × Option Bytes)
  /-- Body parts. -/
  bod : List Bytes
  /-- All responses added. -/
  «end» : Bool
  /-- Next in request queue. -/
  nex : Option Nat
  /-- Exit of write queue. -/
  rub : Option Nat
  /-- Entry of write queue. -/
  bur : Option Nat

/-- What is sent to the kernel. -/
structure Ask where
  met : Nat
  url : Bytes
  hed : List (Bytes × Bytes)
  bod : Option Bytes
  deriving DecidableEq

/-- `u2_hcon`: incoming http connection, with the memory of its requests. -/
structure Hcon where
  /-- Next request number. -/
  seq : Nat
  /-- Request under construction. -/
  ruc : Option Nat
  /-- Exit of request queue. -/
  req : Option Nat
  /-- Entry of request queue. -/
  qer : Option Nat
  mem : Nat → Option Hreq
  bods : Nat → Option (Node Bytes)
  /-- Addresses from here on have not been used. -/
  brk : Nat
  /-- `_http_conn_dead` was called. -/
  dead : Bool
  /-- What `u2_reck_plan` was called with. -/
  plans : List (Nat × Ask)
  /-- What was written to the socket. -/
  out : Bytes

/-- `_http_conn_new`: create http connection. -/
def Hcon.init : Hcon := ⟨1, none, none, none, fun _ => none, fun _ => none, 0, false, [], []⟩

def Hcon.at (hon : Hcon) (p : Nat) : Except Halt Hreq :=
  match hon.mem p with
  | none => .error .wild
  | some r => .ok r

def Hcon.set (hon : Hcon) (p : Nat) (r : Hreq) : Hcon := { hon with mem := update hon.mem p (some r) }

/-- A string up to its end. -/
def cstr (s : Bytes) : Bytes := s.takeWhile (· ≠ 0)

/-- `_http_more`: extend string with new data. -/
def more (str : Option Bytes) (buf : Bytes) : Bytes :=
  match str with
  | none => buf
  | some s => cstr s ++ buf

/-- What the parser calls back with. -/
inductive Event
  | begin
  | url (buf : Bytes)
  | field (buf : Bytes)
  | value (buf : Bytes)
  | headers (met : Nat)
  | body (buf : Bytes)
  | done
  deriving DecidableEq

/-- The callbacks other than the last: there is no result if the callback returns an error. -/
def Hreq.on (r : Hreq) : Event → Except Halt (Option Hreq)
  -- `_http_message_begin`
  | .begin => .ok (some { r with par := true })
  -- `_http_url`
  | .url buf => .ok (some { r with url := some (more r.url buf) })
  -- `_http_header_field`
  | .field buf =>
    match r.rat, r.hed with
    | .nam, [] => .error .wild
    | .nam, (nam, val) :: hed => .ok (some { r with hed := (more (some nam) buf, val) :: hed })
    | _, hed => .ok (some { r with rat := .nam, hed := (more none buf, none) :: hed })
  -- `_http_header_value`
  | .value buf =>
    match r.rat, r.hed with
    | .non, _ => .ok none
    | _, [] => .error .wild
    | .nam, (nam, _) :: hed => .ok (some { r with rat := .val, hed := (nam, some (more none buf)) :: hed })
    | .val, (nam, val) :: hed => .ok (some { r with hed := (nam, some (more val buf)) :: hed })
  -- `_http_headers_complete`
  | .headers met => .ok (some { r with met := if 6 ≤ met then 6 else met })
  -- `_http_body`
  | .body buf => .ok (some { r with bod := r.bod ++ [buf] })
  | .done => .ok (some r)

/-- `_http_request_to_noun`: translate http request, or nothing. -/
def Hreq.ask (r : Hreq) : Except Halt (Option Ask) :=
  -- put, get and post
  if r.met = 4 ∨ r.met = 1 ∨ r.met = 3 then
    match r.url with
    | none => .error .wild
    | some url => .ok (some ⟨r.met, cstr url, r.hed.map fun h => (cstr h.1, (h.2.map cstr).getD []),
        if r.bod = [] then none else some r.bod.flatten⟩)
  -- strange request
  else .ok none

/-- `_http_request`: dispatch http request. -/
def request (p : Nat) (hon : Hcon) : Except Halt Hcon := do
  let r ← hon.at p
  let req ← r.ask
  match req with
  | none => return hon
  | some req => return { hon with plans := hon.plans ++ [(r.seq, req)] }

/-- `_http_message_complete`: jhttp callback. -/
def messageComplete (p : Nat) (hon : Hcon) : Except Halt Hcon := do
  if hon.ruc ≠ some p then throw .assert
  let hon := { hon with ruc := none }
  -- Queue request for response control.
  match hon.qer with
  | none =>
    if hon.req.isSome then throw .assert
    request p { hon with qer := some p, req := some p }
  | some q =>
    let r ← hon.at q
    request p (hon.set q { r with nex := some p })

/-- `http_parser_execute` of some bytes, on the parser of a request: the callbacks, and whether none
failed. -/
def execute (p : Nat) : List Event → Hcon → Except Halt (Bool × Hcon)
  | [], hon => .ok (true, hon)
  | .done :: es, hon => do
    let hon ← messageComplete p hon
    execute p es hon
  | e :: es, hon => do
    let r ← hon.at p
    match ← r.on e with
    | none => return (false, hon)
    | some r => execute p es (hon.set p r)

/-- A request that has not been read. -/
def Hreq.fresh (seq : Nat) : Hreq := ⟨seq, false, 0, .non, none, [], [], false, none, none, none⟩

/-- `_http_req_new`: new http request. -/
def reqNew (hon : Hcon) : Hcon :=
  { hon.set hon.brk (.fresh hon.seq) with
    seq := (hon.seq + 1) % 2 ^ 32
    ruc := some hon.brk
    brk := hon.brk + 1 }

/-- `http_parser_execute` of no bytes: it returns 1 unless it is before the start of a message. -/
def executeNone (p : Nat) (hon : Hcon) : Except Halt (Bool × Hcon) := do
  let r ← hon.at p
  return (!r.par, hon)

/-- `_http_conn_read_cb`: server read callback, with what the parser makes of what was read. -/
def readWith (exec : Nat → Hcon → Except Halt (Bool × Hcon)) (hon : Hcon) : Except Halt Hcon := do
  let hon := if hon.ruc.isNone then reqNew hon else hon
  match hon.ruc with
  | none => throw .wild
  | some p =>
    let s ← exec p hon
    return if s.1 then s.2 else { s.2 with dead := true }

/-- `_http_conn_read_cb` of some bytes. -/
def connRead (chunk : List Event) (hon : Hcon) : Except Halt Hcon :=
  readWith (fun p => execute p chunk) hon

/-- `_http_conn_read_cb` of no bytes (`EAGAIN`). -/
def connReadNone (hon : Hcon) : Except Halt Hcon := readWith executeNone hon

/-- The kernel's response. -/
structure Rep where
  /-- The noun of the status: the status if it is less than 2^31, and else a reference to it. -/
  p : UInt32
  /-- Headers. -/
  q : List (Bytes × Bytes)
  r : Option Bytes

/-- `u2_hrep`: outgoing http response. -/
structure Hrep where
  /-- Request number. -/
  seq : Nat
  /-- Status. -/
  sas : Nat
  /-- Headers. -/
  hed : List (Bytes × Bytes)
  /-- Body (one part). -/
  bod : Option Bytes

/-- `_http_new_response`: create http response structure. -/
def newResponse (seq : Nat) (rep : Rep) : Except Halt Hrep :=
  -- 2GB max
  if rep.r.any (2 ^ 31 ≤ ·.length) then .error .bail
  else .ok ⟨seq, rep.p.toNat, rep.q.reverse, rep.r⟩

/-- The text of a string. -/
def text (s : String) : Bytes := s.toUTF8.data.toList

/-- `%d` of an unsigned word. -/
def showD (w : Nat) : String := toString (if w < 2 ^ 31 then (w : Int) else w - 2 ^ 32)

/-- `snprintf` into a buffer of 81. -/
def line (s : String) : Bytes := (text s).take 80

/-- `_http_bud`: create a header buffer. -/
def bud (h : Bytes × Bytes) : Bytes := h.1 ++ text ": " ++ h.2 ++ text "\r\n"

/-- The status in words. -/
def reason (sas : Nat) : String :=
  if sas < 200 then "Weird"
  else if sas < 300 then "OK"
  else if sas < 400 then "Moved"
  else if sas < 500 then "Missing"
  else "Hosed"

/-- What `_http_respond_request` attaches to a request. -/
def Hrep.parts (rep : Hrep) : List Bytes :=
  let bod := rep.bod.getD (line ("HTTP error " ++ showD rep.sas ++ ".\r\n"))
  line ("HTTP/1.1 " ++ showD rep.sas ++ " " ++ reason rep.sas ++ "\r\n") :: rep.hed.map bud ++
    [line ("content-length: " ++ toString bod.length ++ "\r\n"), text "\r\n", bod]

/-- `_http_respond_body`: attach response body. -/
def respondBody (p : Nat) (hon : Hcon) (bod : Bytes) : Except Halt Hcon := do
  let r ← hon.at p
  let q := hon.brk
  let hon := { hon with bods := update hon.bods q (some ⟨bod, none⟩), brk := q + 1 }
  match r.rub, r.bur with
  | none, _ => return hon.set p { r with rub := some q, bur := some q }
  | some _, none => throw .wild
  | some _, some t =>
    match hon.bods t with
    | none => throw .wild
    | some n =>
      let hon := { hon with bods := update hon.bods t (some { n with nex := some q }) }
      return hon.set p { r with bur := some q }

/-- `_http_respond_request`: attach response to request. -/
def respondRequest (p : Nat) (rep : Hrep) (hon : Hcon) : Except Halt Hcon := do
  let hon ← rep.parts.foldlM (respondBody p) hon
  let r ← hon.at p
  if r.end then throw .assert
  return hon.set p { r with «end» := true }

/-- `_http_flush`: transmit any ready data. -/
def flush : Nat → Hcon → Except Halt Hcon
  | 0, _ => .error .spin
  | n + 1, hon =>
    match hon.req with
    | none => .ok hon
    | some p => do
      let r ← hon.at p
      match r.rub with
      | none =>
        if r.end then
          if r.nex.isNone ∧ hon.qer ≠ some p then throw .assert
          flush n { hon with
            req := r.nex
            qer := if r.nex.isNone then none else hon.qer
            mem := update hon.mem p none }
        -- not finished: we cannot start writing the next
        else return hon
      | some q =>
        match hon.bods q with
        | none => throw .wild
        | some b =>
          if b.nex.isNone ∧ r.bur ≠ some q then throw .assert
          let hon := { hon with
            -- don't respond to a dead connection
            out := if hon.dead then hon.out else hon.out ++ b.val
            bods := update hon.bods q none }
          flush n (hon.set p { r with rub := b.nex, bur := if b.nex.isNone then none else r.bur })

/-- `_http_req_find`: find http request by sequence. -/
def reqFind (hon : Hcon) (seq : Nat) : Nat → Option Nat → Except Halt (Option Nat)
  | 0, _ => .error .spin
  | _ + 1, none => .ok none
  | n + 1, some p => do
    let r ← hon.at p
    if r.seq = seq then return some p else reqFind hon seq n r.nex

/-- `_http_respond`: attach http response. -/
def respond (rep : Hrep) (hon : Hcon) : Except Halt Hcon := do
  match ← reqFind hon rep.seq (hon.brk + 1) hon.req with
  -- request not found
  | none => return hon
  | some p =>
    let hon ← respondRequest p rep hon
    flush (hon.brk + 1) hon

/-- `u2_http_ef_thou`: send %thou effect (incoming response) to http. -/
def efThou (seq : Nat) (rep : Rep) (hon : Hcon) : Except Halt Hcon := do
  let rep ← newResponse seq rep
  respond rep hon

/-! ### Requests as they come in -/

/-- A request. -/
structure Msg where
  met : Nat
  url : Bytes
  /-- The headers. -/
  hed : List (Bytes × Bytes)
  /-- The body. -/
  bod : Bytes
  /-- The headers after a chunked body. -/
  tail : List (Bytes × Bytes)

/-- A text of HTTP has no zero byte. -/
def Plain (s : Bytes) : Prop := 0 ∉ s

/-- A text is called back with in pieces. -/
def Pieces (f : Bytes → Event) (s : Bytes) (es : List Event) : Prop :=
  ∃ ps, ps ≠ [] ∧ es = ps.map f ∧ s = ps.flatten

/-- A header: pieces of its name, then of its value. -/
def Renders (h : Bytes × Bytes) (es : List Event) : Prop :=
  Plain h.1 ∧ Plain h.2 ∧ ∃ fs vs, Pieces .field h.1 fs ∧ Pieces .value h.2 vs ∧ es = fs ++ vs

/-- The callbacks for a request, the last one left out. -/
structure Arrives (m : Msg) (es : List Event) : Prop where
  url : Plain m.url
  events : ∃ (us : List Event) (hs ts : List (List Event)) (bs : List Bytes), Pieces .url m.url us ∧
    List.Forall₂ Renders m.hed hs ∧ [] ∉ bs ∧ m.bod = bs.flatten ∧ List.Forall₂ Renders m.tail ts ∧
    es = .begin :: (us ++ (hs.flatten ++ (.headers m.met :: (bs.map .body ++ ts.flatten))))

/-- What is dispatched for a request. -/
def Msg.ask (m : Msg) : Ask :=
  ⟨m.met, m.url, (m.hed ++ m.tail).reverse, if m.bod = [] then none else some m.bod⟩

/-- The server knows the method: put, get or post. -/
def Msg.Known (m : Msg) : Prop := m.met = 4 ∨ m.met = 1 ∨ m.met = 3

/-! ### One request -/

/-- The callbacks make `r'` of `r`. -/
def Takes : List Event → Hreq → Hreq → Prop
  | [], r, r' => r = r'
  | e :: es, r, r' => e ≠ .done ∧ ∃ s, r.on e = .ok (some s) ∧ Takes es s r'

section takes

variable {es es' : List Event} {r s t : Hreq}

theorem Takes.append (h : Takes es r s) (h' : Takes es' s t) : Takes (es ++ es') r t := by
  induction es generalizing r with
  | nil =>
    obtain rfl : r = s := h
    exact h'
  | cons e es ih =>
    obtain ⟨hne, q, hq, h⟩ := h
    exact ⟨hne, q, hq, ih h⟩

/-- The first callbacks of those that end well. -/
theorem Takes.split (h : Takes (es ++ es') r t) : ∃ s, Takes es r s ∧ Takes es' s t := by
  induction es generalizing r with
  | nil => exact ⟨r, rfl, h⟩
  | cons e es ih =>
    obtain ⟨hne, q, hq, h⟩ := h
    obtain ⟨s, hs, ht⟩ := ih h
    exact ⟨s, ⟨hne, q, hq, hs⟩, ht⟩

theorem Takes.not_done (h : Takes es r s) : Event.done ∉ es := by
  induction es generalizing r with
  | nil => exact List.not_mem_nil
  | cons e es ih =>
    obtain ⟨hne, q, -, h⟩ := h
    exact List.not_mem_cons_of_ne_of_not_mem (Ne.symm hne) (ih h)

theorem Plain.cstr {s : Bytes} (h : Plain s) : cstr s = s := by
  rw [Http.cstr, List.takeWhile_eq_self_iff]
  intro b hb
  refine decide_eq_true fun h0 => h ?_
  rwa [h0] at hb

theorem Plain.left {s s' : Bytes} (h : Plain (s ++ s')) : Plain s := fun h0 => h (List.mem_append_left s' h0)

theorem Plain.more {s s' : Bytes} (h : Plain (s ++ s')) : more (some s) s' = s ++ s' := by
  rw [Http.more, h.left.cstr]

/-- Pieces that each extend what there is. -/
theorem takes_pieces {f : Bytes → Event} {g : Bytes → Hreq} (hne : ∀ s, f s ≠ .done)
    (hon : ∀ s s', Plain (s ++ s') → (g s).on (f s') = .ok (some (g (s ++ s')))) {ps : List Bytes} {s : Bytes}
    (hs : Plain (s ++ ps.flatten)) : Takes (ps.map f) (g s) (g (s ++ ps.flatten)) := by
  induction ps generalizing s with
  | nil => exact congrArg g (List.append_nil s).symm
  | cons q ps ih =>
    rw [List.flatten_cons, ← List.append_assoc] at hs ⊢
    exact ⟨hne q, g (s ++ q), hon s q hs.left, ih hs⟩

/-- The same with a first piece that starts it. -/
theorem Pieces.takes {f : Bytes → Event} {g : Bytes → Hreq} {r : Hreq} {s : Bytes} (hp : Pieces f s es)
    (hs : Plain s) (hne : ∀ s, f s ≠ .done) (hfirst : ∀ s, r.on (f s) = .ok (some (g s)))
    (hon : ∀ s s', Plain (s ++ s') → (g s).on (f s') = .ok (some (g (s ++ s')))) : Takes es r (g s) := by
  obtain ⟨ps, hnil, rfl, rfl⟩ := hp
  cases ps with
  | nil => exact absurd rfl hnil
  | cons q ps => exact ⟨hne q, g q, hfirst q, takes_pieces hne hon hs⟩

/-- A header is added. -/
theorem Renders.takes {h : Bytes × Bytes} (hr : Renders h es) (hrat : r.rat ≠ .nam) :
    Takes es r { r with rat := .val, hed := (h.1, some h.2) :: r.hed } := by
  obtain ⟨hn, hv, fs, vs, hfs, hvs, rfl⟩ := hr
  refine (hfs.takes (g := fun s => { r with rat := .nam, hed := (s, none) :: r.hed }) hn
    (fun _ => nofun) (fun s => ?_) fun s s' hs => ?_).append
    (hvs.takes (g := fun s => { r with rat := .val, hed := (h.1, some s) :: r.hed }) hv (fun _ => nofun)
      (fun s => rfl) fun s s' hs => ?_)
  · simp only [Hreq.on]
    cases hr : r.rat with
    | nam => exact absurd hr hrat
    | non => rfl
    | val => rfl
  · simp only [Hreq.on, hs.more]
  · simp only [Hreq.on, hs.more]

/-- Headers as the code has them. -/
def stored (l : List (Bytes × Bytes)) : List (Bytes × Option Bytes) := (l.map fun h => (h.1, some h.2)).reverse

theorem takes_headers {l : List (Bytes × Bytes)} {hs : List (List Event)} (hl : List.Forall₂ Renders l hs)
    (hrat : r.rat ≠ .nam) :
    ∃ rat, rat ≠ .nam ∧ Takes hs.flatten r { r with rat := rat, hed := stored l ++ r.hed } := by
  induction hl generalizing r with
  | nil => exact ⟨r.rat, hrat, rfl⟩
  | @cons h es l hs hr _ ih =>
    obtain ⟨rat, hne, ht⟩ := ih (r := { r with rat := .val, hed := (h.1, some h.2) :: r.hed }) nofun
    refine ⟨rat, hne, ?_⟩
    have hall := (hr.takes hrat).append ht
    simpa only [stored, List.map_cons, List.reverse_cons, List.append_assoc, List.singleton_append,
      List.flatten_cons] using hall

theorem takes_body (bs : List Bytes) : Takes (bs.map .body) r { r with bod := r.bod ++ bs } := by
  induction bs generalizing r with
  | nil => simp [Takes]
  | cons b bs ih =>
    refine ⟨nofun, _, rfl, ?_⟩
    simpa using ih (r := { r with bod := r.bod ++ [b] })

theorem cstr_stored {l : List (Bytes × Bytes)} {hs : List (List Event)} (hl : List.Forall₂ Renders l hs) :
    (stored l).map (fun h => (cstr h.1, (h.2.map cstr).getD [])) = l.reverse := by
  rw [stored, List.map_reverse, List.map_map]
  congr 1
  induction hl with
  | nil => rfl
  | cons hr _ ih => rw [List.map_cons, ih, Function.comp_apply, hr.1.cstr, Option.map_some, Option.getD_some,
      hr.2.1.cstr]

/-- A request is read, whatever its number: nothing else of it changes, and what is dispatched is what
came in. -/
theorem Arrives.takes {m : Msg} (hm : Arrives m es) (hknown : m.Known) (seq : Nat) :
    ∃ r, Takes es (.fresh seq) r ∧ r.ask = .ok (some m.ask) ∧ r.seq = seq ∧ r.end = false ∧ r.nex = none ∧
      r.rub = none ∧ r.bur = none := by
  obtain ⟨us, hs, ts, bs, hus, hhs, hbs, hbod, hts, rfl⟩ := hm.events
  let begun : Hreq := { Hreq.fresh seq with par := true }
  have hurl : Takes us begun { begun with url := some m.url } :=
    hus.takes (g := fun s => { begun with url := some s }) hm.url (fun _ => nofun) (fun s => rfl)
      fun s s' hs => by simp only [Hreq.on, hs.more]
  obtain ⟨rat, hrat, hhed⟩ := takes_headers (r := { begun with url := some m.url }) hhs nofun
  have hmet : m.met < 6 := by
    rcases hknown with h | h | h <;> rw [h] <;> decide
  let r : Hreq := { begun with
    url := some m.url, rat := rat, met := m.met, hed := stored m.hed, bod := bs }
  have hhead : Takes (.headers m.met :: bs.map .body)
      { begun with url := some m.url, rat := rat, hed := stored m.hed ++ [] } r := by
    refine ⟨nofun, { r with bod := [] }, ?_, ?_⟩
    · simp only [Hreq.on, if_neg (Nat.not_le.mpr hmet), List.append_nil, Hreq.fresh, begun, r]
    · exact takes_body bs
  obtain ⟨rat', -, htail⟩ := takes_headers (r := r) hts hrat
  have hall : Takes _ begun _ := hurl.append (hhed.append (hhead.append htail))
  refine ⟨_, ⟨nofun, begun, rfl, hall⟩, ?_, rfl, rfl, rfl, rfl, rfl⟩
  have hnil : bs = [] ↔ m.bod = [] := by
    rw [hbod, List.flatten_eq_nil_iff]
    constructor
    · rintro rfl b hb
      cases hb
    · intro h
      cases bs with
      | nil => rfl
      | cons b bs => exact absurd (h b List.mem_cons_self ▸ List.mem_cons_self) hbs
  have hhed : (stored m.tail ++ stored m.hed).map (fun h => (cstr h.1, (h.2.map cstr).getD [])) =
      (m.hed ++ m.tail).reverse := by
    rw [List.map_append, cstr_stored hts, cstr_stored hhs, List.reverse_append]
  have hknown' : m.met = 4 ∨ m.met = 1 ∨ m.met = 3 := hknown
  simp only [Hreq.ask, r, if_pos hknown', hm.url.cstr, hhed, hnil, ← hbod, Msg.ask]

end takes

/-- The other callbacks of a chunk, up to the end of a message or of the chunk. -/
theorem execute_takes {p : Nat} {es : List Event} (es' : List Event) {r r' : Hreq} {hon : Hcon}
    (h : Takes es r r') (hmem : hon.mem p = some r) : execute p (es ++ es') hon = execute p es' (hon.set p r') := by
  induction es generalizing r hon with
  | nil =>
    obtain rfl : r = r' := h
    have hset : hon.set p r = hon := by rw [Hcon.set, ← hmem, update_eq_self]
    rw [hset, List.nil_append]
  | cons e es ih =>
    obtain ⟨hne, s, hs, h⟩ := h
    have hone : execute p (e :: (es ++ es')) hon = execute p (es ++ es') (hon.set p s) := by
      cases e with
      | done => exact absurd rfl hne
      | _ => simp only [execute, Hcon.at, hmem, hs, bind, Except.bind]
    rw [List.cons_append, hone, ih h (Function.update_self ..)]
    simp only [Hcon.set, update_idem]

/-! ### One response -/

section response

variable {hon : Hcon} {p : Nat} {r : Hreq} {ns : List (Nat × Bytes)}

/-- No other parts are in memory than those of the queue. -/
def Only (bods : Nat → Option (Node Bytes)) (ns : List (Nat × Bytes)) : Prop :=
  ∀ q, q ∉ ns.map (·.1) → bods q = none

theorem respondBody_spec (hmem : hon.mem p = some r) (hl : Linked hon.bods r.rub r.bur ns)
    (ho : Only hon.bods ns) (hns : ∀ n ∈ ns, n.1 < hon.brk) (bod : Bytes) :
    ∃ rub bur bods, respondBody p hon bod =
        .ok ({ hon with bods := bods, brk := hon.brk + 1 }.set p { r with rub := rub, bur := bur }) ∧
      Linked bods rub bur (ns ++ [(hon.brk, bod)]) ∧ Only bods (ns ++ [(hon.brk, bod)]) := by
  have hfresh : hon.brk ∉ ns.map (·.1) := by
    intro h
    obtain ⟨n, hn, he⟩ := List.mem_map.mp h
    exact absurd (hns n hn) (Nat.not_lt.mpr (Nat.le_of_eq he.symm))
  cases hrub : r.rub with
  | none =>
    obtain rfl : ns = [] := hl.head_none_iff.mp hrub
    refine ⟨some hon.brk, some hon.brk, update hon.bods hon.brk (some ⟨bod, none⟩), ?_,
      linked_single _ _ _, fun q hq => ?_⟩
    · simp only [respondBody, Hcon.at, hmem, hrub, bind, Except.bind, pure, Except.pure]
    · rw [update_of_ne (by simpa using hq)]
      exact ho q (by simp)
  | some h =>
    cases hbur : r.bur with
    | none =>
      rw [hl.tail_none_iff.mp hbur] at hl
      have hnone := hl.head
      rw [hrub] at hnone
      cases hnone
    | some t =>
      rw [hrub, hbur] at hl
      obtain ⟨x, hx, hpush⟩ := hl.push (ho _ hfresh) bod
      have ht : t ≠ hon.brk := by
        rintro rfl
        rw [ho _ hfresh] at hx
        cases hx
      refine ⟨some h, some hon.brk, _, ?_, hpush, fun q hq => ?_⟩
      · simp only [respondBody, Hcon.at, hmem, hrub, hbur, bind, Except.bind, pure, Except.pure,
          update_of_ne ht, hx, Hcon.set]
      · have hq' : q ∉ ns.map (·.1) ∧ q ≠ hon.brk := by simpa [not_or] using hq
        have hqt : q ≠ t := by
          rintro rfl
          rw [ho q hq'.1] at hx
          cases hx
        rw [update_of_ne hqt, update_of_ne hq'.2, ho q hq'.1]

/-- The parts of a response are entered into the write queue. -/
theorem attach_spec (hmem : hon.mem p = some r) (hl : Linked hon.bods r.rub r.bur ns)
    (ho : Only hon.bods ns) (hns : ∀ n ∈ ns, n.1 < hon.brk) (bods : List Bytes) :
    ∃ rub bur mem ns', bods.foldlM (respondBody p) hon =
        .ok ({ hon with bods := mem, brk := hon.brk + bods.length }.set p
          { r with rub := rub, bur := bur }) ∧
      Linked mem rub bur ns' ∧ Only mem ns' ∧ ns'.map (·.2) = ns.map (·.2) ++ bods := by
  induction bods generalizing hon r ns with
  | nil =>
    refine ⟨r.rub, r.bur, hon.bods, ns, ?_, hl, ho, (List.append_nil _).symm⟩
    simp only [List.foldlM_nil, Hcon.set, List.length_nil, Nat.add_zero, pure, Except.pure]
    rw [← hmem, update_eq_self]
  | cons bod bods ih =>
    obtain ⟨rub, bur, mem, hone, hl', ho'⟩ := respondBody_spec hmem hl ho hns bod
    let r' : Hreq := { r with rub := rub, bur := bur }
    let hon' : Hcon := { hon with bods := mem, brk := hon.brk + 1 }.set p r'
    have hmem' : hon'.mem p = some r' := Function.update_self ..
    obtain ⟨rub', bur', mem', ns', hall, hl'', ho'', hval⟩ := ih hmem' hl' ho' fun n hn => by
      rcases List.mem_append.mp hn with hn | hn
      · exact Nat.lt_succ_of_lt (hns n hn)
      · obtain rfl := List.mem_singleton.mp hn
        exact Nat.lt_succ_self hon.brk
    refine ⟨rub', bur', mem', ns', ?_, hl'', ho'', ?_⟩
    · rw [List.foldlM_cons, hone]
      show bods.foldlM (respondBody p) _ = _
      rw [hall]
      simp only [Hcon.set, update_idem, List.length_cons, Nat.add_assoc, Nat.add_comm 1, hon', r']
    · rw [hval, List.map_append, List.append_assoc]
      rfl

/-- The only request of the queue is written, and freed. -/
theorem flush_spec {n : Nat} (hn : ns.length + 2 ≤ n) (hreq : hon.req = some p) (hqer : hon.qer = some p)
    (hmem : hon.mem p = some r) (hend : r.end = true) (hnex : r.nex = none) (hdead : hon.dead = false)
    (hl : Linked hon.bods r.rub r.bur ns) (ho : Only hon.bods ns) :
    flush n hon = .ok { hon with
      req := none
      qer := none
      mem := update hon.mem p none
      bods := fun _ => none
      out := hon.out ++ (ns.map (·.2)).flatten } := by
  induction ns generalizing hon r n with
  | nil =>
    obtain ⟨n, rfl⟩ : ∃ m, n = m + 2 := ⟨n - 2, by simp at hn; omega⟩
    have hbods : hon.bods = fun _ => none := funext fun q => ho q (by simp)
    have hrub : r.rub = none := hl.head
    simp [flush, Hcon.at, hreq, hmem, hrub, hend, hnex, hqer, bind, Except.bind, hbods]
  | cons m ns ih =>
    obtain ⟨q, x⟩ := m
    obtain ⟨n, rfl⟩ : ∃ k, n = k + 1 := ⟨n - 1, by simp at hn; omega⟩
    obtain ⟨hhead, hcell, htail, hpop⟩ := hl.pop
    have hlast : first ns = none ↔ ns = [] := by
      cases ns <;> simp [first]
    have hok : ¬((first ns).isNone ∧ r.bur ≠ some q) := by
      rw [Option.isNone_iff_eq_none, hlast]
      rintro ⟨hnil, hne⟩
      exact hne (htail.mpr hnil)
    have hbur : (if (first ns).isNone then none else r.bur) = if ns = [] then none else r.bur := by
      simp only [Option.isNone_iff_eq_none, hlast]
    have honly : Only (update hon.bods q none) ns := by
      intro k hk
      by_cases hkq : k = q
      · rw [hkq, Function.update_self]
      · rw [update_of_ne hkq]
        exact ho k (by simpa [hkq] using hk)
    let r' : Hreq := { r with rub := first ns, bur := if ns = [] then none else r.bur }
    let hon' : Hcon := { hon with out := hon.out ++ x, bods := update hon.bods q none }.set p r'
    have hmem' : hon'.mem p = some r' := Function.update_self ..
    have hstep := ih (show ns.length + 2 ≤ n by simp at hn; omega) (show hon'.req = some p from hreq)
      hqer hmem' hend hnex hdead hpop honly
    have hone : flush (n + 1) hon = flush n hon' := by
      simp only [flush, Hcon.at, hreq, hmem, hhead, hcell, hdead, hok, hbur, bind, Except.bind, if_false,
        Bool.false_eq_true, hon', r']
    rw [hone, hstep]
    simp only [Hcon.set, update_idem, List.map_cons, List.flatten_cons, List.append_assoc, hon']

end response

/-! ### Runs -/

/-- The connection, what is still to come, and the responses of the kernel. -/
structure Sys where
  con : Hcon
  rest : List Event
  answers : List (Nat × Rep)

/-- What happens to a connection. -/
inductive Act
  /-- A chunk arrives. -/
  | read (n : Nat)
  /-- A read of nothing. -/
  | readNone
  /-- The kernel responds. -/
  | thou (seq : Nat) (rep : Rep)

def step : Act → Sys → Option Sys
  | .read n, s =>
    (connRead (s.rest.take n) s.con).toOption.map fun con => { s with con := con, rest := s.rest.drop n }
  | .readNone, s => (connReadNone s.con).toOption.map fun con => { s with con := con }
  | .thou seq rep, s =>
    (efThou seq rep s.con).toOption.map fun con => { s with con := con, answers := s.answers ++ [(seq, rep)] }

/-- The callbacks of all requests. -/
def stream (evss : List (List Event)) : List Event := (evss.map (· ++ [.done])).flatten

/-- A new connection on which the requests arrive. -/
def Sys.init (evss : List (List Event)) : Sys := ⟨.init, stream evss, []⟩

/-- The kernel responds once to each request, with what fits into memory. -/
def Legal (s : Sys) : Act → Prop
  | .read _ | .readNone => True
  | .thou seq rep => seq ∈ s.con.plans.map (·.1) ∧ seq ∉ s.answers.map (·.1) ∧
    rep.r.any (2 ^ 31 ≤ ·.length) = false

/-- A chunk in which a message ends ends with it, and arrives when all requests before it have been
answered, and a read of nothing comes while no message has begun. -/
def OneByOne (s : Sys) : Act → Prop
  | .read n => ∀ es es', s.rest.take n = es ++ .done :: es' →
    es' = [] ∧ ∀ seq ∈ s.con.plans.map (·.1), seq ∈ s.answers.map (·.1)
  | .readNone => ∀ p r, s.con.ruc = some p → s.con.mem p = some r → r.par = false
  | .thou .. => True

/-- The requests with their numbers. -/
def numbered : Nat → List Msg → List (Nat × Ask)
  | _, [] => []
  | n, m :: msgs => (n, m.ask) :: numbered (n + 1) msgs

/-- The bytes of a response. -/
def Rep.bytes (rep : Rep) : Bytes := (Hrep.mk 0 rep.p.toNat rep.q.reverse rep.r).parts.flatten

/-- Each request that has arrived has been dispatched once, under its number, and the responses to the
first requests, as far as all of them have been answered, have been written in their order. -/
structure Served (msgs : List Msg) (s : Sys) : Prop where
  alive : s.con.dead = false
  dispatched : s.con.plans = numbered 1 (msgs.take (msgs.length - s.rest.count .done))
  written : ∃ reps : List Rep, (∀ i rep, reps[i]? = some rep → (i + 1, rep) ∈ s.answers) ∧
    (∀ rep, (reps.length + 1, rep) ∉ s.answers) ∧ s.con.out = (reps.map Rep.bytes).flatten

section runs

variable {msgs : List Msg} {evss : List (List Event)} {s s' : Sys} {i j : Nat} {cur : List Event} {con : Hcon}

theorem numbered_snoc (n : Nat) (msgs : List Msg) (m : Msg) :
    numbered n (msgs ++ [m]) = numbered n msgs ++ [(n + msgs.length, m.ask)] := by
  induction msgs generalizing n with
  | nil => rfl
  | cons m' msgs ih => simp [numbered, ih, Nat.add_assoc, Nat.add_comm 1]

theorem map_numbered (n : Nat) (msgs : List Msg) :
    (numbered n msgs).map (·.1) = List.range' n msgs.length := by
  induction msgs generalizing n with
  | nil => rfl
  | cons m msgs ih => simp [numbered, ih, List.range'_succ]

/-- The request under construction has read `cur`. -/
def Reading (con : Hcon) (i : Nat) (cur : List Event) : Prop :=
  con.ruc = none ∧ cur = [] ∧ con.seq = i + 1 ∨
    ∃ p r, con.ruc = some p ∧ con.mem p = some r ∧ Takes cur (.fresh (i + 1)) r ∧ con.seq = i + 2

/-- Of `i` requests all are answered, or all but the last. -/
def Waiting (con : Hcon) (i j : Nat) : Prop :=
  con.req = none ∧ con.qer = none ∧ j = i ∨
    ∃ p r, con.req = some p ∧ con.qer = some p ∧ con.ruc ≠ some p ∧ con.mem p = some r ∧ r.seq = i ∧
      r.end = false ∧ r.nex = none ∧ r.rub = none ∧ r.bur = none ∧ j + 1 = i

/-- What holds between the steps: `i` requests have arrived, and `cur` of the next one. -/
structure Inv (msgs : List Msg) (evss : List (List Event)) (s : Sys) (i : Nat) (cur : List Event) : Prop where
  left : cur ++ s.rest = stream (evss.drop i)
  plain : .done ∉ cur
  le : i ≤ msgs.length
  alive : s.con.dead = false
  fresh : ∀ p, s.con.brk ≤ p → s.con.mem p = none
  bods : s.con.bods = fun _ => none
  plans : s.con.plans = numbered 1 (msgs.take i)
  ruc : Reading s.con i cur
  queue : Waiting s.con i s.answers.length
  answers : s.answers.map (·.1) = List.range' 1 s.answers.length
  out : s.con.out = (s.answers.map fun a => a.2.bytes).flatten

theorem Inv.init (msgs : List Msg) (evss : List (List Event)) : Inv msgs evss (.init evss) 0 [] :=
  ⟨rfl, List.not_mem_nil, Nat.zero_le _, rfl, fun _ _ => rfl, rfl, rfl, .inl ⟨rfl, rfl, rfl⟩,
    .inl ⟨rfl, rfl, rfl⟩, rfl, rfl⟩

theorem Takes.unique {es : List Event} {r t t' : Hreq} (h : Takes es r t) (h' : Takes es r t') : t = t' := by
  induction es generalizing r with
  | nil => exact h.symm.trans h'
  | cons e es ih =>
    obtain ⟨-, q, hq, h⟩ := h
    obtain ⟨-, q', hq', h'⟩ := h'
    obtain rfl := Option.some.inj (Except.ok.inj (hq.symm.trans hq'))
    exact ih h h'

/-- At the start of a chunk there is a request under construction. -/
theorem Inv.open (h : Inv msgs evss s i cur) (hlen : msgs.length + 2 < 2 ^ 32) :
    ∃ con p r, (if s.con.ruc.isNone then reqNew s.con else s.con) = con ∧ con.ruc = some p ∧
      con.mem p = some r ∧ Takes cur (.fresh (i + 1)) r ∧ Inv msgs evss { s with con := con } i cur := by
  rcases h.ruc with ⟨hruc, rfl, hseq⟩ | ⟨p, r, hruc, hmem, htakes, hseq⟩
  · refine ⟨reqNew s.con, s.con.brk, .fresh (i + 1), by rw [hruc]; rfl, rfl, ?_, rfl, ?_⟩
    · rw [← hseq]
      exact Function.update_self ..
    · have hle := h.le
      have hseq' : (reqNew s.con).seq = i + 2 := by
        show (s.con.seq + 1) % 2 ^ 32 = i + 2
        rw [hseq, Nat.mod_eq_of_lt (by omega)]
      refine ⟨h.left, h.plain, h.le, h.alive, fun p hp => ?_, h.bods, h.plans,
        .inr ⟨s.con.brk, .fresh (i + 1), rfl, ?_, rfl, hseq'⟩, ?_, h.answers, h.out⟩
      · exact (update_of_ne (Nat.ne_of_gt hp) _ _).trans (h.fresh p (Nat.le_of_succ_le hp))
      · rw [← hseq]
        exact Function.update_self ..
      · rcases h.queue with hidle | ⟨p, r, hreq, hqer, -, hmem, hr⟩
        · exact .inl hidle
        · have hp : p ≠ s.con.brk := by
            rintro rfl
            rw [h.fresh _ le_rfl] at hmem
            cases hmem
          refine .inr ⟨p, r, hreq, hqer, ?_, (update_of_ne hp _ _).trans hmem, hr⟩
          exact fun he => hp (Option.some.inj he).symm
  · exact ⟨s.con, p, r, by rw [hruc]; rfl, hruc, hmem, htakes, h⟩

/-- The first end of a message. -/
theorem split_done {a b c d : List Event} (h : a ++ .done :: b = c ++ .done :: d) (ha : .done ∉ a)
    (hc : .done ∉ c) : a = c ∧ b = d := by
  induction a generalizing c with
  | nil =>
    cases c with
    | nil => exact ⟨rfl, (List.cons.inj h).2⟩
    | cons e c => exact absurd ((List.cons.inj h).1 ▸ List.mem_cons_self) hc
  | cons e a ih =>
    cases c with
    | nil => exact absurd ((List.cons.inj h).1 ▸ List.mem_cons_self) ha
    | cons e' c =>
      obtain ⟨rfl, htail⟩ := List.cons.inj h
      obtain ⟨rfl, rfl⟩ := ih htail (fun hm => ha (List.mem_cons_of_mem _ hm)) fun hm =>
        hc (List.mem_cons_of_mem _ hm)
      exact ⟨rfl, rfl⟩

/-- The next message of the stream. -/
theorem stream_drop {es : List Event} (hes : evss[i]? = some es) :
    stream (evss.drop i) = es ++ .done :: stream (evss.drop (i + 1)) := by
  obtain ⟨hlt, rfl⟩ := List.getElem?_eq_some_iff.mp hes
  rw [List.drop_eq_getElem_cons hlt, stream, List.map_cons, List.flatten_cons, List.append_assoc]
  rfl

/-- A chunk that stays within a message. -/
theorem Inv.within (h : Inv msgs evss s i cur) (harr : List.Forall₂ Arrives msgs evss)
    (hknown : ∀ m ∈ msgs, m.Known) (hlen : msgs.length + 2 < 2 ^ 32) {n : Nat}
    (hn : .done ∉ s.rest.take n) :
    ∃ s', step (.read n) s = some s' ∧ Inv msgs evss s' i (cur ++ s.rest.take n) := by
  obtain ⟨con, p, r, hcon, hruc, hmem, htakes, hinv⟩ := h.open hlen
  have hleft : (cur ++ s.rest.take n) ++ s.rest.drop n = stream (evss.drop i) := by
    rw [List.append_assoc, List.take_append_drop, h.left]
  have hplain : .done ∉ cur ++ s.rest.take n := by
    rw [List.mem_append, not_or]
    exact ⟨h.plain, hn⟩
  -- the callbacks end well, since those of the whole message do
  obtain ⟨r', hr'⟩ : ∃ r', Takes (s.rest.take n) r r' := by
    cases hes : evss[i]? with
    | none =>
      have hnil : evss.drop i = [] := List.drop_eq_nil_of_le (List.getElem?_eq_none_iff.mp hes)
      rw [hnil] at hleft
      have htake := (List.append_eq_nil_iff.mp (List.append_eq_nil_iff.mp hleft).1).2
      exact ⟨r, by rw [htake]; rfl⟩
    | some es =>
      obtain ⟨m, hm, harr⟩ : ∃ m, msgs[i]? = some m ∧ Arrives m es := by
        obtain ⟨hlt, rfl⟩ := List.getElem?_eq_some_iff.mp hes
        have hlt' : i < msgs.length := harr.length_eq ▸ hlt
        exact ⟨msgs[i], List.getElem?_eq_getElem hlt', harr.get hlt' hlt⟩
      obtain ⟨t, ht, -⟩ := harr.takes (hknown m (List.mem_of_getElem? hm)) (i + 1)
      rw [stream_drop hes] at hleft
      obtain ⟨es', hes'⟩ : ∃ es', es = (cur ++ s.rest.take n) ++ es' := by
        rcases List.append_eq_append_iff.mp hleft with ⟨a, ha, -⟩ | ⟨a, ha, hb⟩
        · exact ⟨a, ha⟩
        · cases a with
          | nil => exact ⟨[], by rw [ha]; simp⟩
          | cons e a =>
            obtain rfl := (List.cons.inj hb).1
            exact absurd (ha ▸ by simp) hplain
      rw [hes'] at ht
      obtain ⟨q, hq, -⟩ := ht.split
      obtain ⟨q', hq', hr'⟩ := hq.split
      exact ⟨q, htakes.unique hq' ▸ hr'⟩
  have hexec : execute p (s.rest.take n) con = .ok (true, con.set p r') := by
    have hall := execute_takes [] hr' hmem
    rwa [List.append_nil] at hall
  refine ⟨⟨con.set p r', s.rest.drop n, s.answers⟩, ?_, hleft, hplain, h.le, hinv.alive, fun q hq => ?_,
    hinv.bods, hinv.plans, .inr ⟨p, r', hruc, Function.update_self .., ?_, ?_⟩, ?_, hinv.answers, hinv.out⟩
  · simp only [step, connRead, readWith, hcon, hruc, hexec, bind, Except.bind, pure, Except.pure, if_true]
    rfl
  · have hqp : q ≠ p := by
      rintro rfl
      have hfresh := hinv.fresh q hq
      rw [hmem] at hfresh
      cases hfresh
    exact (update_of_ne hqp _ _).trans (hinv.fresh q hq)
  · exact htakes.append hr'
  · rcases hinv.ruc with ⟨hnone, -⟩ | ⟨-, -, -, -, -, hseq⟩
    · rw [hruc] at hnone
      cases hnone
    · exact hseq
  · rcases hinv.queue with hidle | ⟨q, t, hreq, hqer, hne, hmemq, ht⟩
    · exact .inl hidle
    · have hqp : q ≠ p := fun he => hne (he ▸ hruc)
      exact .inr ⟨q, t, hreq, hqer, hne, (update_of_ne hqp _ _).trans hmemq, ht⟩

/-- A read of nothing. -/
theorem Inv.nothing (h : Inv msgs evss s i cur) (hlen : msgs.length + 2 < 2 ^ 32)
    (hone : OneByOne s .readNone) : ∃ s', step .readNone s = some s' ∧ Inv msgs evss s' i cur := by
  obtain ⟨con, p, r, hcon, hruc, hmem, htakes, hinv⟩ := h.open hlen
  have hpar : r.par = false := by
    rcases h.ruc with ⟨-, rfl, -⟩ | ⟨q, t, hq, -, -⟩
    · obtain rfl : Hreq.fresh (i + 1) = r := htakes
      rfl
    · rw [hq, Option.isNone_some, if_neg Bool.false_ne_true] at hcon
      subst hcon
      exact hone p r hruc hmem
  have hexec : executeNone p con = .ok (true, con) := by
    simp [executeNone, Hcon.at, hmem, hpar, bind, Except.bind, pure, Except.pure]
  refine ⟨{ s with con := con }, ?_, hinv⟩
  simp only [Http.step, connReadNone, readWith, hcon, hruc, hexec, bind, Except.bind, pure,
    Except.pure, if_true]
  rfl

/-- A chunk with the end of a message. -/
theorem Inv.ends (h : Inv msgs evss s i cur) (harr : List.Forall₂ Arrives msgs evss)
    (hknown : ∀ m ∈ msgs, m.Known) (hlen : msgs.length + 2 < 2 ^ 32) {n : Nat}
    (hn : .done ∈ s.rest.take n) (hone : OneByOne s (.read n)) :
    ∃ s', step (.read n) s = some s' ∧ Inv msgs evss s' (i + 1) [] := by
  obtain ⟨con, p, r, hcon, hruc, hmem, htakes, hinv⟩ := h.open hlen
  obtain ⟨l, l', hchunk, hl⟩ := List.eq_append_cons_of_mem hn
  obtain ⟨rfl, hall⟩ := hone l l' hchunk
  -- the message that ends
  have hleft : (cur ++ l) ++ .done :: s.rest.drop n = stream (evss.drop i) := by
    have hrest := List.take_append_drop n s.rest
    rw [hchunk, List.append_assoc, List.singleton_append] at hrest
    rw [← h.left, ← hrest, List.append_assoc]
    simp only [hrest]
  obtain ⟨es, hes⟩ : ∃ es, evss[i]? = some es := by
    refine Option.ne_none_iff_exists'.mp fun hnone => ?_
    rw [List.drop_eq_nil_of_le (List.getElem?_eq_none_iff.mp hnone)] at hleft
    simp [stream] at hleft
  obtain ⟨hlt, rfl⟩ := List.getElem?_eq_some_iff.mp hes
  have hlt' : i < msgs.length := harr.length_eq ▸ hlt
  have hm : Arrives msgs[i] evss[i] := harr.get hlt' hlt
  obtain ⟨t, ht, hask, hseq, hend, hnex, hrub, hbur⟩ := hm.takes (hknown _ (List.getElem_mem hlt')) (i + 1)
  rw [stream_drop hes] at hleft
  have hplain : .done ∉ cur ++ l := by
    rw [List.mem_append, not_or]
    exact ⟨h.plain, hl⟩
  obtain ⟨hbefore, hafter⟩ := split_done hleft hplain ht.not_done
  obtain ⟨r', hr', ht'⟩ : ∃ r', Takes l r r' ∧ r' = t := by
    rw [← hbefore] at ht
    obtain ⟨q, hq, hqt⟩ := ht.split
    exact ⟨t, htakes.unique hq ▸ hqt, rfl⟩
  subst ht'
  -- no other request waits
  have hidle : con.req = none ∧ con.qer = none ∧ s.answers.length = i := by
    rcases hinv.queue with hidle | ⟨q, t, -, -, -, -, -, -, -, -, -, hj⟩
    · exact hidle
    · have hi : i ∈ s.con.plans.map (·.1) := by
        rw [h.plans, map_numbered, List.length_take, List.mem_range'_1]
        omega
      have hi' := hall i hi
      rw [h.answers, List.mem_range'_1] at hi'
      replace hj : s.answers.length + 1 = i := hj
      omega
  obtain ⟨hreq, hqer, hj⟩ := hidle
  let con' : Hcon := { con.set p r' with
    ruc := none, qer := some p, req := some p, plans := con.plans ++ [(i + 1, msgs[i].ask)] }
  have hexec : execute p (s.rest.take n) con = .ok (true, con') := by
    rw [hchunk, execute_takes _ hr' hmem]
    have hself : update con.mem p (some r') p = some r' := Function.update_self ..
    simp [execute, messageComplete, request, Hcon.set, Hcon.at, hruc, hqer, hreq, hask, hseq, bind,
      Except.bind, pure, Except.pure, con']
  have hplans : con'.plans = numbered 1 (msgs.take (i + 1)) := by
    rw [List.take_add_one, List.getElem?_eq_getElem hlt', Option.toList_some, numbered_snoc, ← hinv.plans]
    simp [con', Nat.min_eq_left h.le, Nat.add_comm]
  have hmem' : con'.mem p = some r' := Function.update_self ..
  have hseq' : con'.seq = i + 1 + 1 := by
    rcases hinv.ruc with ⟨hnone, -⟩ | ⟨-, -, -, -, -, hseq⟩
    · rw [hruc] at hnone
      cases hnone
    · exact hseq
  refine ⟨⟨con', s.rest.drop n, s.answers⟩, ?_, hafter, List.not_mem_nil, hlt', hinv.alive, fun q hq => ?_,
    hinv.bods, hplans, .inl ⟨rfl, rfl, hseq'⟩,
    .inr ⟨p, r', rfl, rfl, nofun, hmem', hseq, hend, hnex, hrub, hbur, by rw [hj]⟩, hinv.answers, hinv.out⟩
  · simp only [step, connRead, readWith, hcon, hruc, hexec, bind, Except.bind, pure, Except.pure, if_true]
    rfl
  · have hqp : q ≠ p := by
      rintro rfl
      have hfresh := hinv.fresh q hq
      rw [hmem] at hfresh
      cases hfresh
    exact (update_of_ne hqp _ _).trans (hinv.fresh q hq)

/-- A response. -/
theorem Inv.thou (h : Inv msgs evss s i cur) {seq : Nat} {rep : Rep} (hlegal : Legal s (.thou seq rep)) :
    ∃ s', step (.thou seq rep) s = some s' ∧ Inv msgs evss s' i cur := by
  obtain ⟨hasked, hnew, hbig⟩ := hlegal
  rw [h.plans, map_numbered, List.length_take, Nat.min_eq_left h.le, List.mem_range'_1] at hasked
  rw [h.answers, List.mem_range'_1] at hnew
  rcases h.queue with ⟨-, -, hj⟩ | ⟨p, r, hreq, hqer, hruc, hmem, hseq, hend, hnex, hrub, hbur, hj⟩
  · omega
  · obtain rfl : seq = i := by omega
    let rep' : Hrep := ⟨seq, rep.p.toNat, rep.q.reverse, rep.r⟩
    have hnil : Linked s.con.bods r.rub r.bur [] := by
      rw [hrub, hbur]
      exact linked_nil _
    obtain ⟨rub, bur, mem, ns, hattach, hl, ho, hval⟩ := attach_spec hmem hnil
      (fun q _ => by rw [h.bods]) (fun n hn => nomatch hn) rep'.parts
    let r' : Hreq := { r with rub := rub, bur := bur, «end» := true }
    let con : Hcon := { s.con with bods := mem, brk := s.con.brk + rep'.parts.length }.set p r'
    have hself : con.mem p = some r' := Function.update_self ..
    have hp : p < s.con.brk := by
      by_contra hle
      rw [h.fresh p (Nat.le_of_not_lt hle)] at hmem
      cases hmem
    have hns : ns.length + 2 ≤ con.brk + 1 := by
      have hlen := congrArg List.length hval
      simp only [List.length_map, List.map_nil, List.nil_append] at hlen
      show ns.length + 2 ≤ s.con.brk + rep'.parts.length + 1
      omega
    have hflush := flush_spec hns (show con.req = some p from hreq) hqer hself rfl hnex h.alive hl ho
    have hfind : reqFind s.con seq (s.con.brk + 1) s.con.req = .ok (some p) := by
      simp [reqFind, hreq, Hcon.at, hmem, hseq, bind, Except.bind, pure, Except.pure]
    have hrespond : respondRequest p rep' s.con = .ok con := by
      simp [respondRequest, hattach, Hcon.at, Hcon.set, hend, bind, Except.bind, pure, Except.pure, con, r']
    have hresp : newResponse seq rep = .ok rep' := by
      rw [newResponse, hbig]
      rfl
    have hthou : efThou seq rep s.con = flush (con.brk + 1) con := by
      rw [efThou, hresp]
      show respond rep' s.con = _
      rw [respond, show reqFind s.con rep'.seq (s.con.brk + 1) s.con.req = .ok (some p) from hfind]
      show (respondRequest p rep' s.con >>= fun hon => flush (hon.brk + 1) hon) = _
      rw [hrespond]
      rfl
    rw [hflush] at hthou
    let con' : Hcon := { con with
      req := none, qer := none, mem := update con.mem p none, bods := fun _ => none
      out := con.out ++ (ns.map (·.2)).flatten }
    refine ⟨⟨con', s.rest, s.answers ++ [(seq, rep)]⟩, by rw [step, hthou]; rfl, h.left, h.plain, h.le,
      h.alive, fun q hq => ?_, rfl, h.plans, ?_,
      .inl ⟨rfl, rfl, ?_⟩, ?_, ?_⟩
    · have hqp : q ≠ p := by
        rintro rfl
        exact absurd hp (Nat.not_lt.mpr ((Nat.le_add_right _ _).trans hq))
      exact (update_of_ne hqp _ _).trans ((update_of_ne hqp _ _).trans
        (h.fresh q ((Nat.le_add_right _ _).trans hq)))
    · rcases h.ruc with ⟨hnone, hcur, hseq⟩ | ⟨q, t, hq, hmemq, ht⟩
      · exact .inl ⟨hnone, hcur, hseq⟩
      · have hqp : q ≠ p := by
          rintro rfl
          exact hruc hq
        exact .inr ⟨q, t, hq, (update_of_ne hqp _ _).trans ((update_of_ne hqp _ _).trans hmemq), ht⟩
    · rw [List.length_append, List.length_singleton, hj]
    · rw [List.map_append, h.answers, List.length_append, List.length_singleton, List.range'_concat]
      simp [← hj, Nat.add_comm]
    · show s.con.out ++ (ns.map (·.2)).flatten = _
      rw [h.out, hval, List.map_append, List.flatten_append]
      simp [Rep.bytes, rep', Hrep.parts]

/-- Each message has one end. -/
theorem count_stream (evss : List (List Event)) (h : ∀ es ∈ evss, Event.done ∉ es) :
    (stream evss).count .done = evss.length := by
  induction evss with
  | nil => rfl
  | cons es evss ih =>
    rw [List.forall_mem_cons] at h
    rw [stream, List.map_cons, List.flatten_cons, List.count_append, List.count_append,
      List.count_eq_zero_of_not_mem h.1, ← stream, ih h.2]
    simp [Nat.add_comm]

theorem Inv.served (h : Inv msgs evss s i cur) (harr : List.Forall₂ Arrives msgs evss)
    (hknown : ∀ m ∈ msgs, m.Known) : Served msgs s := by
  have hcount : s.rest.count .done = (evss.drop i).length := by
    rw [← count_stream (evss.drop i), ← h.left, List.count_append,
      List.count_eq_zero_of_not_mem h.plain, Nat.zero_add]
    intro es hes
    obtain ⟨k, hk, rfl⟩ := List.getElem_of_mem (List.mem_of_mem_drop hes)
    have hk' : k < msgs.length := harr.length_eq ▸ hk
    obtain ⟨t, ht, -⟩ := (harr.get hk' hk).takes (hknown _ (List.getElem_mem hk')) 0
    exact ht.not_done
  refine ⟨h.alive, ?_, s.answers.map (·.2), fun k rep hk => ?_, fun rep hrep => ?_, ?_⟩
  · rw [hcount, List.length_drop, ← harr.length_eq, Nat.sub_sub_self h.le, h.plans]
  · rw [List.getElem?_map, Option.map_eq_some_iff] at hk
    obtain ⟨⟨seq, rep'⟩, hget, rfl⟩ := hk
    have hlt := (List.getElem?_eq_some_iff.mp hget).1
    have hseq := congrArg (·[k]?) h.answers
    simp only [List.getElem?_map, hget, Option.map_some, List.getElem?_range' hlt] at hseq
    obtain rfl : seq = k + 1 := by simpa [Nat.add_comm] using hseq
    exact List.mem_of_getElem? hget
  · have hmem := List.mem_map_of_mem (f := (·.1)) hrep
    rw [h.answers, List.mem_range'_1, List.length_map] at hmem
    omega
  · rw [h.out, List.map_map]
    rfl

/-- One step. -/
theorem Inv.step (h : Inv msgs evss s i cur) (harr : List.Forall₂ Arrives msgs evss)
    (hknown : ∀ m ∈ msgs, m.Known) (hlen : msgs.length + 2 < 2 ^ 32) {a : Act} (hlegal : Legal s a)
    (hone : OneByOne s a) : ∃ s' i' cur', step a s = some s' ∧ Inv msgs evss s' i' cur' := by
  cases a with
  | read n =>
    by_cases hn : Event.done ∈ s.rest.take n
    · obtain ⟨s', hs', h'⟩ := h.ends harr hknown hlen hn hone
      exact ⟨s', _, _, hs', h'⟩
    · obtain ⟨s', hs', h'⟩ := h.within harr hknown hlen hn
      exact ⟨s', _, _, hs', h'⟩
  | readNone =>
    obtain ⟨s', hs', h'⟩ := h.nothing hlen hone
    exact ⟨s', _, _, hs', h'⟩
  | thou seq rep =>
    obtain ⟨s', hs', h'⟩ := h.thou hlegal
    exact ⟨s', _, _, hs', h'⟩

/-- While no request comes before the last one has been answered, no chunk goes beyond the end of a
message and no read of nothing comes inside one, nothing fails, and the responses go out in the order
of the requests. -/
theorem http_serves (harr : List.Forall₂ Arrives msgs evss) (hknown : ∀ m ∈ msgs, m.Known)
    (hlen : msgs.length + 2 < 2 ^ 32)
    (hs : Reachable (.init evss) Http.step (fun s a => Legal s a ∧ OneByOne s a) s) :
    Served msgs s ∧ ∀ a, Legal s a → OneByOne s a → ∃ s', Http.step a s = some s' := by
  have hinv : ∃ i cur, Inv msgs evss s i cur := by
    refine hs.invariant (P := fun s => ∃ i cur, Inv msgs evss s i cur) ⟨0, [], .init msgs evss⟩ ?_
    rintro s a s' ⟨i, cur, h⟩ ⟨hlegal, hone⟩ hstep
    obtain ⟨s'', i', cur', hs'', h'⟩ := h.step harr hknown hlen hlegal hone
    obtain rfl := Option.some.inj (hs''.symm.trans hstep)
    exact ⟨i', cur', h'⟩
  obtain ⟨i, cur, h⟩ := hinv
  refine ⟨h.served harr hknown, fun a hlegal hone => ?_⟩
  obtain ⟨s', i', cur', hs', -⟩ := h.step harr hknown hlen hlegal hone
  exact ⟨s', hs'⟩

end runs

/-! ### Two requests -/

theorem request_ruc {p : Nat} {hon hon' : Hcon} (h : request p hon = .ok hon') : hon'.ruc = hon.ruc := by
  simp only [request, bind, Except.bind, pure, Except.pure] at h
  split at h
  · cases h
  split at h
  · cases h
  split at h <;> cases h <;> rfl

theorem messageComplete_ruc {p : Nat} {hon hon' : Hcon} (h : messageComplete p hon = .ok hon') :
    hon.ruc = some p ∧ hon'.ruc = none := by
  by_cases hruc : hon.ruc = some p
  · refine ⟨hruc, ?_⟩
    simp only [messageComplete, hruc, ne_eq, not_true_eq_false, if_false, bind, Except.bind] at h
    cases hqer : hon.qer with
    | none =>
      simp only [hqer] at h
      split at h
      · cases h
      · exact request_ruc h
    | some q =>
      simp only [hqer] at h
      split at h
      · cases h
      · exact request_ruc h
  · simp [messageComplete, hruc, bind, Except.bind, throw, throwThe, MonadExceptOf.throw] at h

section beyond

variable {p : Nat} {es es' : List Event} {hon hon' : Hcon} {s : Bool × Hcon}

/-- A callback before the end of a message. -/
theorem execute_cons {e : Event} (he : e ≠ .done) (h : execute p (e :: es) hon = .ok s) :
    s.1 = false ∨ ∃ r, execute p es (hon.set p r) = .ok s := by
  have hexec : execute p (e :: es) hon = (do
      let r ← hon.at p
      match ← r.on e with
      | none => return (false, hon)
      | some r => execute p es (hon.set p r)) := by
    cases e with
    | done => exact absurd rfl he
    | _ => rfl
  simp only [hexec, bind, Except.bind, pure, Except.pure] at h
  split at h
  · cases h
  split at h
  · cases h
  split at h
  · cases h
    exact .inl rfl
  · exact .inr ⟨_, h⟩

/-- While no request is under construction no message ends well. -/
theorem execute_closed (hruc : hon.ruc = none) (hes : .done ∈ es) (h : execute p es hon = .ok s) :
    s.1 = false := by
  induction es generalizing hon with
  | nil => cases hes
  | cons e es ih =>
    by_cases he : e = .done
    · subst he
      simp only [execute, bind, Except.bind] at h
      split at h
      · cases h
      · rename_i hdone
        rw [(messageComplete_ruc hdone).1] at hruc
        cases hruc
    · rcases execute_cons he h with hfalse | ⟨r, hr⟩
      · exact hfalse
      · have hset : (hon.set p r).ruc = none := hruc
        exact ih hset ((List.mem_cons.mp hes).resolve_left (Ne.symm he)) hr

/-- A chunk with the ends of two messages fails, or the connection is given up. -/
theorem connRead_two (hes' : .done ∈ es') (h : connRead (es ++ .done :: es') hon = .ok hon') :
    hon'.dead = true := by
  have hexec : ∀ (p : Nat) (hon : Hcon) (s : Bool × Hcon),
      execute p (es ++ .done :: es') hon = .ok s → s.1 = false := by
    intro p hon s h
    clear! hon'
    induction es generalizing hon with
    | nil =>
      simp only [List.nil_append, execute, bind, Except.bind] at h
      split at h
      · cases h
      · rename_i hdone
        exact execute_closed (messageComplete_ruc hdone).2 hes' h
    | cons e es ih =>
      by_cases he : e = .done
      · subst he
        simp only [List.cons_append, execute, bind, Except.bind] at h
        split at h
        · cases h
        · exact ih _ h
      · rcases execute_cons he h with hfalse | ⟨r, hr⟩
        · exact hfalse
        · exact ih _ hr
  simp only [connRead, readWith, bind, Except.bind, pure, Except.pure] at h
  split at h
  · cases h
  split at h
  · cases h
  · rename_i s hs
    rw [hexec _ _ _ hs] at h
    cases h
    rfl

end beyond

/-- The end of a request, a value without a field, and another end. -/
theorem connRead_two_value : ∃ hon',
    connRead [.url [47], .headers 1, .done, .value [], .done] .init = .ok hon' ∧ hon'.dead = true := by
  obtain ⟨hon', h⟩ : ∃ hon', connRead ([.url [47], .headers 1] ++ .done :: [.value [], .done]) .init =
      .ok hon' := ⟨_, rfl⟩
  exact ⟨hon', h, connRead_two (by simp) h⟩

/-- A request for the root. -/
def root : Msg := ⟨1, [47], [], [], []⟩

theorem root_arrives : Arrives root [.begin, .url [47], .headers 1] := by
  refine ⟨by simp [Plain, root], [.url [47]], [], [], [], ⟨[[47]], by simp, rfl, rfl⟩, .nil, by simp, rfl,
    .nil, rfl⟩

theorem http_serves_root :
    ∃ s, step (.read 4) (.init [[.begin, .url [47], .headers 1]]) = some s ∧ Served [root] s := by
  have harr : List.Forall₂ Arrives [root] [[.begin, .url [47], .headers 1]] := .cons root_arrives .nil
  have hknown : ∀ m ∈ [root], m.Known := by
    intro m hm
    obtain rfl := List.mem_singleton.mp hm
    exact .inr (.inl rfl)
  have hone : OneByOne (.init [[.begin, .url [47], .headers 1]]) (.read 4) := by
    intro es es' h
    have hend : [Event.begin, .url [47], .headers 1] ++ .done :: [] = es ++ .done :: es' := h
    have hes : Event.done ∉ es := by
      intro hmem
      have hcount := congrArg (List.count Event.done) hend
      have hpos := List.count_pos_iff.mpr hmem
      simp at hcount
      omega
    exact ⟨(split_done hend (by simp) hes).2.symm, fun seq hseq => nomatch hseq⟩
  have hlegal : Legal (.init [[.begin, .url [47], .headers 1]]) (.read 4) := trivial
  obtain ⟨s, hs⟩ := (http_serves harr hknown (by simp) .init).2 (.read 4) hlegal hone
  exact ⟨s, hs, (http_serves harr hknown (by simp) (.step .init ⟨hlegal, hone⟩ hs)).1⟩

/-- What some actions lead to, as far as they can happen. -/
def after (as : List Act) (s : Sys) : Sys := as.foldl (fun s a => (step a s).getD s) s

theorem after_step (as : List Act) {a : Act} {s : Sys} (h : (step a (after as s)).isSome) :
    step a (after as s) = some (after (as ++ [a]) s) := by
  obtain ⟨s', hs'⟩ := Option.isSome_iff_exists.mp h
  have hafter : after (as ++ [a]) s = (step a (after as s)).getD (after as s) := by
    simp only [after, List.foldl_append, List.foldl_cons, List.foldl_nil]
  rw [hafter, hs', Option.getD_some]

/-- Two requests for the root. -/
def roots : Sys := .init [[.begin, .url [47], .headers 1], [.begin, .url [47], .headers 1]]

/-- A response without a body. -/
def ok : Rep := ⟨200, [], none⟩

theorem roots_reached : Reachable roots step Legal (after [.read 4, .read 4, .thou 1 ok] roots) := by
  have h₁ : step (.read 4) roots = some (after [.read 4] roots) := after_step [] (by decide)
  have h₂ := after_step [.read 4] (a := .read 4) (s := roots) (by decide)
  have h₃ := after_step [.read 4, .read 4] (a := .thou 1 ok) (s := roots) (by decide)
  have hlegal : Legal (after [.read 4, .read 4] roots) (.thou 1 ok) :=
    ⟨by decide, by decide, rfl⟩
  refine .step (.step (.step .init ?_ h₁) ?_ h₂) hlegal h₃
  · exact trivial
  · exact trivial

/-- The second of two requests that wait together cannot be answered. -/
theorem http_pipeline_fails :
    ¬∀ (msgs : List Msg) (evss : List (List Event)) (s : Sys), List.Forall₂ Arrives msgs evss →
      (∀ m ∈ msgs, m.Known) → msgs.length + 2 < 2 ^ 32 → Reachable (.init evss) step Legal s →
      Served msgs s ∧ ∀ a, Legal s a → ∃ s', step a s = some s' := by
  intro h
  have hknown : ∀ m ∈ [root, root], m.Known := by
    intro m hm
    obtain rfl : m = root := by simpa using hm
    exact .inr (.inl rfl)
  have hlegal : Legal (after [.read 4, .read 4, .thou 1 ok] roots) (.thou 2 ok) :=
    ⟨by decide, by decide, rfl⟩
  have hnone : (step (.thou 2 ok) (after [.read 4, .read 4, .thou 1 ok] roots)).isNone := by decide
  obtain ⟨s', hs'⟩ := (h [root, root] _ _ (.cons root_arrives (.cons root_arrives .nil)) hknown (by simp)
    roots_reached).2 _ hlegal
  rw [hs'] at hnone
  cases hnone

end Vere.Io.Http
