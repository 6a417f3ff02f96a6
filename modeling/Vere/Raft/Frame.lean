import Vere.Lib.Frame
import Vere.Raft.Decode
import Vere.Raft.Match

/-!
# Vere.Raft.Frame

From bytes to messages: what `_raft_conn_read_cb` does with the chunks of a stream.

A chunk is appended to the read buffer, and `_raft_conn_work` takes messages off its
front until what is left is not a whole message. So however the stream is cut, the
server does what handling the messages one by one does (`stream_framed`).
-/

namespace Vere.Raft

open Vere.Lib

/-! ### Reading looks at one message only -/

section append

variable {buf tail : List UInt8}

theorem bytesAt_append {off n : Nat} (h : off + n ≤ buf.length) :
    bytesAt (buf ++ tail) off n = bytesAt buf off n := by
  rw [bytesAt, bytesAt, List.drop_append_of_le_length (by omega), List.take_append_of_le_length]
  rw [List.length_drop]
  omega

theorem wordAt_append {off : Nat} (h : off + 4 ≤ buf.length) :
    wordAt (buf ++ tail) off = wordAt buf off := by
  rw [wordAt, wordAt, bytesAt_append h]

theorem dwordAt_append {off : Nat} (h : off + 8 ≤ buf.length) :
    dwordAt (buf ++ tail) off = dwordAt buf off := by
  rw [dwordAt, dwordAt, bytesAt_append h]

theorem entAt_append_end {off : Nat} (h : off + 12 ≤ buf.length) :
    (entAt (buf ++ tail) off).2 = (entAt buf off).2 := by
  simp only [entAt]
  rw [wordAt_append (by omega)]

theorem entAt_append {off : Nat} (h : (entAt buf off).2 ≤ buf.length) :
    entAt (buf ++ tail) off = entAt buf off := by
  simp only [entAt] at h ⊢
  rw [wordAt_append (by omega), wordAt_append (by omega), wordAt_append (by omega),
    bytesAt_append (by omega)]

theorem readEnts_append {ben : Nat} (h : ben ≤ buf.length) (ent : Option Nat) (n : Nat) :
    ∀ i redI, readEnts (buf ++ tail) ben ent i redI n = readEnts buf ben ent i redI n := by
  induction n with
  | zero => exact fun _ _ => rfl
  | succ n ih =>
      intro i redI
      rw [readEnts, readEnts]
      by_cases h12 : ben < redI + 12
      · rw [if_pos h12, if_pos h12]
      rw [if_neg h12, if_neg h12, entAt_append_end (by omega)]
      by_cases hend : ben < (entAt buf redI).2
      · rw [if_pos hend, if_pos hend]
      rw [if_neg hend, if_neg hend, entAt_append (by omega), ih]

theorem strlcpy_append {dst src : List UInt8} {siz : Nat} (h : siz ≤ src.length) :
    strlcpy dst (src ++ tail) siz = strlcpy dst src siz := by
  rw [strlcpy, strlcpy, List.take_append_of_le_length (by omega)]

theorem restAt_append (env : Env) (h : 36 + times4 (wordAt buf 32) ≤ buf.length) :
    restAt env (buf ++ tail) = restAt env buf := by
  simp only [restAt]
  rw [dwordAt_append (by omega), wordAt_append (by omega), wordAt_append (by omega),
    List.drop_append_of_le_length (by omega), strlcpy_append]
  rw [List.length_drop]
  omega

theorem nameTop_append (h : 36 + times4 (wordAt buf 32) ≤ buf.length) :
    nameTop (buf ++ tail) = nameTop buf := by
  rw [nameTop, nameTop, strlcpyReads, strlcpyReads, wordAt_append (by omega),
    List.drop_append_of_le_length (by omega), List.take_append_of_le_length]
  rw [List.length_drop]
  omega

theorem readApen_append {ben redI : Nat} (env : Env) (h : ben ≤ buf.length) (msg : Body → Rmsg)
    (rest : Rest) : readApen env (buf ++ tail) ben redI msg rest = readApen env buf ben redI msg rest := by
  rw [readApen, readApen]
  by_cases h16 : ben < redI + 2 * 8
  · rw [if_pos h16, if_pos h16]
  rw [if_neg h16, if_neg h16]
  simp only [dwordAt_append (show redI + 8 ≤ buf.length by omega),
    dwordAt_append (show redI + 8 + 8 ≤ buf.length by omega), readEnts_append h]

theorem readBody_append {ben : Nat} (env : Env) (h : ben ≤ buf.length) (h20 : 20 ≤ ben)
    (msg : Body → Rmsg) : readBody env (buf ++ tail) ben msg = readBody env buf ben msg := by
  rw [readBody, readBody, wordAt_append (by omega)]
  by_cases hrasp : (wordAt buf 16).toNat = c3rasp
  · simp only [if_pos hrasp]
    by_cases h24 : ben < 20 + 4
    · rw [if_pos h24, if_pos h24]
    · rw [if_neg h24, if_neg h24, wordAt_append (by omega)]
  simp only [if_neg hrasp]
  by_cases hreq : (wordAt buf 16).toNat = c3apen ∨ (wordAt buf 16).toNat = c3revo
  · simp only [if_pos hreq]
    by_cases h36 : ben < 20 + 8 + 2 * 4
    · rw [if_pos h36, if_pos h36]
    rw [if_neg h36, if_neg h36]
    have hnam : (restAt env (buf ++ tail)).namW = (restAt env buf).namW :=
      wordAt_append (by omega)
    rw [hnam]
    by_cases hname : ben < 36 + times4 (restAt env buf).namW
    · rw [if_pos hname, if_pos hname]
    rw [if_neg hname, if_neg hname]
    have hfits : 36 + times4 (wordAt buf 32) ≤ buf.length := by
      have hle : 36 + times4 (restAt env buf).namW ≤ ben := Nat.le_of_not_lt hname
      exact hle.trans h
    rw [restAt_append env hfits, nameTop_append hfits, readApen_append env h]
  · simp only [if_neg hreq]

/-- What comes behind a message is not looked at. -/
theorem rmsgRead_append (env : Env) (h12 : 12 ≤ buf.length) (h : benAt buf ≤ buf.length) :
    rmsgRead env (buf ++ tail) = rmsgRead env buf := by
  rw [benAt] at h
  have hlen : ¬buf.length + tail.length < 4 + 8 := by omega
  have hlen' : ¬buf.length < 4 + 8 := by omega
  rw [rmsgRead, rmsgRead, List.length_append, if_neg hlen, if_neg hlen', wordAt_append (by omega),
    dwordAt_append (by omega)]
  simp only
  by_cases hver : wordAt buf 0 ≠ mugA
  · rw [if_pos hver, if_pos hver]
  rw [if_neg hver, if_neg hver]
  by_cases h4 : dwordAt buf 4 < 4
  · rw [if_pos h4, if_pos h4]
  have hmore : ¬buf.length + tail.length < 4 * (dwordAt buf 4).toNat % 2 ^ 64 := by omega
  rw [if_neg h4, if_neg h4, if_neg hmore, if_neg (Nat.not_lt.mpr h)]
  by_cases h20 : 4 * (dwordAt buf 4).toNat % 2 ^ 64 < 12 + 2 * 4
  · rw [if_pos h20, if_pos h20]
  rw [if_neg h20, if_neg h20, wordAt_append (by omega), readBody_append env h (by omega)]

end append

/-! ### The read callback -/

/-- The loop of `_raft_conn_work`. What a read finds in memory comes from the process,
`hist` is the history of the messages. -/
def readLoop (l : Link) (hist : Rmsg → Rreq) (env : Proc → Env) (buf : List UInt8) :
    Act (List UInt8) := do
  match h : rmsgRead (← Run.read env) buf with
  | .fault => Run.stop ()
  | .reject =>
      connDead l
      pure buf
  | .more => pure buf
  | .accept redI _ msg =>
      check (4 * msg.lenD.toNat % 2 ^ 64 = redI)
      check (redI ≤ buf.length)
      connMsg l ⟨msg, hist msg.trim⟩
      readLoop l hist env (buf.drop redI)
termination_by buf.length
decreasing_by
  obtain ⟨hacc, rfl, -⟩ := rmsgRead_accept h
  have hwhole := hacc.headed.whole
  have htype := hacc.headed.type
  rw [List.length_drop]
  omega

/-- `_raft_conn_read_cb` and `_raft_conn_work`, for the bytes of a chunk. -/
def readCb (l : Link) (hist : Rmsg → Rreq) (env : Proc → Env) (red : Option Rbuf)
    (chunk : List UInt8) : Act (Option Rbuf) :=
  if chunk = [] then pure red
  else do
    if (← deref l).stat = .live then
      match rbufGrow red chunk with
      | none => Run.stop ()
      | some buf =>
          let rest ← readLoop l hist env buf.bufY
          connFlush l
          pure (some { buf with bufY := rest })
    else pure red

/-- One chunk after another. -/
def feed (l : Link) (hist : Rmsg → Rreq) (env : Proc → Env) :
    List (List UInt8) → Option Rbuf → Act (Option Rbuf)
  | [], red => pure red
  | chunk :: chunks, red => do
      let red ← readCb l hist env red chunk
      feed l hist env chunks red

/-! ### Messages -/

/-- A message that was filled in and sent, with its encoding. -/
structure Sent where
  raf : Self
  call : Call
  buf : Rbuf
  sent : rmsgSend none (call.msg raf) = some (some buf)

def Sent.msg (m : Sent) : Rmsg := m.call.msg m.raf

/-- The bytes of a message. -/
def Sent.enc (m : Sent) : List UInt8 := m.buf.bufY

/-- `calloc` finds room for the entries of a message. -/
def Env.Room (env : Env) : Prop := ∀ siz, siz < 2 ^ 33 → env.calloc siz = true

section Sent

variable {env : Env} (m : Sent)

theorem Sent.lengths : m.enc.length < 2 ^ 32 ∧ m.enc.length = 4 * m.msg.lenD.toNat := by
  have hfits := (sends_iff m.raf m.call).mp ⟨m.buf, m.sent⟩
  obtain ⟨hb, -⟩ := (rmsgSend_iff (m.call.msg m.raf) _).mp ⟨m.buf, m.sent, rfl⟩
  rw [Sent.enc, hb]
  exact (lengths_iff m.raf m.call).mpr hfits

/-- A message is read back, whatever comes behind it. -/
theorem Sent.read (hroom : env.Room) (tail : List UInt8) :
    ∃ top m', rmsgRead env (m.enc ++ tail) = .accept m.enc.length top m' ∧
      m'.trim = m.msg.trim := by
  have hfits := (sends_iff m.raf m.call).mp ⟨m.buf, m.sent⟩
  obtain ⟨hb, -⟩ := (rmsgSend_iff (m.call.msg m.raf) _).mp ⟨m.buf, m.sent, rfl⟩
  obtain ⟨top, m', hread, htrim⟩ := read_back env hroom m.raf m.call hfits
  rw [← hb] at hread
  obtain ⟨hacc, -, -⟩ := rmsgRead_accept hread
  refine ⟨top, m', ?_, htrim⟩
  rw [Sent.enc, rmsgRead_append env hacc.headed.head hacc.headed.whole]
  exact hread

/-- Of a message that has not come in whole, nothing is read. -/
theorem Sent.more (env : Env) {tail : List UInt8} (h : tail <+: m.enc)
    (hlt : tail.length < m.enc.length) : rmsgRead env tail = .more := by
  by_cases h12 : tail.length < 4 + 8
  · rw [rmsgRead, if_pos h12]
  obtain ⟨rest, hrest⟩ := h
  obtain ⟨top, m', hread, -⟩ := @Sent.read roomy m (fun _ _ => rfl) []
  rw [List.append_nil] at hread
  obtain ⟨hacc, hben, -⟩ := rmsgRead_accept hread
  have hver := hacc.headed.version
  have hshort := hacc.headed.short
  rw [benAt] at hben
  rw [← hrest, wordAt_append (by omega)] at hver
  rw [← hrest, dwordAt_append (by omega)] at hshort hben
  rw [rmsgRead, if_neg h12]
  simp only [hver, ne_eq, not_true_eq_false, if_false, hshort]
  rw [← hben, if_pos (hrest ▸ hlt)]

end Sent

theorem Rest.trim_fields {r r' : Rest} (h : r.trim = r'.trim) :
    r.name = r'.name ∧ r.latW = r'.latW ∧ r.laiD = r'.laiD := by
  obtain ⟨hlai, hlat, -, hnam⟩ := Rest.mk.inj h
  exact ⟨hnam, hlat, hlai⟩

theorem doRest_trim (l : Link) (temW : UInt32) {r r' : Rest} (h : r.trim = r'.trim) :
    doRest l temW r = doRest l temW r' := by
  rw [doRest, doRest, (Rest.trim_fields h).1]

theorem doRevo_trim (l : Link) (temW : UInt32) (req : Rreq) {r r' : Rest} (h : r.trim = r'.trim) :
    doRevo l temW r req = doRevo l temW r' req := by
  obtain ⟨-, hlat, hlai⟩ := Rest.trim_fields h
  have hgrants : ∀ raf nam, grants raf nam temW r = grants raf nam temW r' := by
    intro raf nam
    rw [grants, grants, hlat, hlai]
  rw [doRevo, doRevo, doRest_trim l temW h]
  simp only [hgrants]

/-- Handlers see the name of a message up to its terminator. -/
theorem connMsg_trim (l : Link) {m m' : Rmsg} (req : Rreq) (h : m.trim = m'.trim) :
    connMsg l ⟨m, req⟩ = connMsg l ⟨m', req⟩ := by
  obtain ⟨verW, lenD, temW, body⟩ := m
  obtain ⟨verW', lenD', temW', body'⟩ := m'
  obtain ⟨-, -, rfl, hbody⟩ := Rmsg.mk.inj h
  cases body with
  | rasp sucW =>
      cases body' with
      | rasp sucW' =>
          cases Body.rasp.inj hbody
          rfl
      | revo r' => cases hbody
      | apen r' citD' entD' entU' => cases hbody
  | revo r =>
      cases body' with
      | rasp sucW' => cases hbody
      | revo r' => exact doRevo_trim l temW req (Body.revo.inj hbody)
      | apen r' citD' entD' entU' => cases hbody
  | apen r citD entD entU =>
      cases body' with
      | rasp sucW' => cases hbody
      | revo r' => cases hbody
      | apen r' citD' entD' entU' => exact doRest_trim l temW (Body.apen.inj hbody).1

/-! ### Framing -/

/-- Handle messages in order. -/
def handle (l : Link) (hist : Rmsg → Rreq) : List Sent → Act Unit
  | [] => pure ()
  | m :: ms => do
      connMsg l ⟨m.msg, hist m.msg.trim⟩
      handle l hist ms

/-- Handle the messages of every batch and write what is queued, while the connection
is live. -/
def deliver (l : Link) (hist : Rmsg → Rreq) : List (List Sent) → Act Unit
  | [] => pure ()
  | ms :: mss => do
      if (← deref l).stat = .live then
        handle l hist ms
        connFlush l
      else pure ()
      deliver l hist mss

variable {l : Link} {hist : Rmsg → Rreq} {env : Proc → Env}

theorem run_readLoop_more {buf : List UInt8} {s : Proc} (h : rmsgRead (env s) buf = .more) :
    (readLoop l hist env buf).run s = (.ok buf, s) := by
  rw [readLoop, Run.run_bind, Run.run_read]
  simp only
  split
  · next he => cases h.symm.trans he
  · next he => cases h.symm.trans he
  · rfl
  · next he => cases h.symm.trans he

theorem run_readLoop_accept {buf : List UInt8} {s : Proc} {redI top : Nat} {m : Rmsg}
    (h : rmsgRead (env s) buf = .accept redI top m) (hlen : 4 * m.lenD.toNat % 2 ^ 64 = redI)
    (hle : redI ≤ buf.length) :
    (readLoop l hist env buf).run s
      = (connMsg l ⟨m, hist m.trim⟩ >>= fun _ => readLoop l hist env (buf.drop redI)).run s := by
  rw [readLoop, Run.run_bind, Run.run_read]
  simp only
  split
  · next he => cases h.symm.trans he
  · next he => cases h.symm.trans he
  · next he => cases h.symm.trans he
  · next he =>
    cases h.symm.trans he
    rw [run_check, if_pos hlen, run_check, if_pos hle]

/-- The loop handles the messages in the buffer and leaves a part of the next one. -/
theorem readLoop_stream (hroom : ∀ s, (env s).Room) {rest : List Sent} {tail : List UInt8}
    (hshort : Short Sent.enc rest tail) (ms : List Sent) (s : Proc) :
    (readLoop l hist env (stream Sent.enc ms ++ tail)).run s
      = (handle l hist ms >>= fun _ => pure tail).run s := by
  induction ms generalizing s with
  | nil =>
      have hmore : rmsgRead (env s) tail = .more := by
        cases rest with
        | nil =>
            cases List.prefix_nil.mp hshort.1
            rfl
        | cons m rest =>
            have hlt := hshort.2 m rfl
            refine m.more (env s) ?_ hlt
            exact List.prefix_of_prefix_length_le hshort.1 (List.prefix_append ..)
              (Nat.le_of_lt hlt)
      rw [stream_nil, List.nil_append, run_readLoop_more hmore]
      rfl
  | cons m ms ih =>
      obtain ⟨top, m', hread, htrim⟩ := m.read (hroom s) (stream Sent.enc ms ++ tail)
      obtain ⟨hlt, hlen⟩ := m.lengths
      have hlenD : m'.lenD = m.msg.lenD := (Rmsg.mk.inj htrim).2.1
      have hwhole : 4 * m'.lenD.toNat % 2 ^ 64 = m.enc.length := by
        rw [hlenD]
        omega
      rw [stream_cons, List.append_assoc, run_readLoop_accept hread hwhole (by simp),
        List.drop_left, htrim, connMsg_trim l _ htrim, handle]
      -- the rest of the loop runs in whatever state the handler leaves
      rw [Run.run_bind, Run.run_bind, Run.run_bind]
      rcases (connMsg l ⟨m.msg, hist m.msg.trim⟩).run s with ⟨r, t⟩
      cases r with
      | ok a => exact ih t
      | stop e => rfl
      | spent => rfl

/-- What a connection is live for. -/
def Proc.live (s : Proc) (l : Link) : Prop := (s.raf.rons l).any (·.stat = .live) = true

/-- Both runs end alike; if the connection is still live, the buffer holds `tail`. -/
def Leaves (l : Link) (tail : List UInt8) :
    Res Unit (Option Rbuf) × Proc → Res Unit Unit × Proc → Prop
  | (.ok red, s), (.ok _, s') => s = s' ∧ (s.live l → held red = tail)
  | (.stop _, s), (.stop _, s') => s = s'
  | (.spent, s), (.spent, s') => s = s'
  | _, _ => False

theorem Leaves.ok {tail : List UInt8} {r : Res Unit (Option Rbuf) × Proc} {r' : Res Unit Unit × Proc}
    (h : Leaves l tail r r') (hok : r'.1 = .ok ()) : ∃ red t, r = (.ok red, t) ∧ t = r'.2 := by
  obtain ⟨a, s⟩ := r
  obtain ⟨a', s'⟩ := r'
  cases hok
  cases a with
  | ok red => exact ⟨red, s, rfl, h.1⟩
  | stop e => exact h.elim
  | spent => exact h.elim

/-- A chunk that leaves the buffer within its bounds. -/
theorem readCb_stream (hroom : ∀ s, (env s).Room) {red : Option Rbuf} (hred : Sound red)
    {chunk : List UInt8} (hne : chunk ≠ []) {ms rest : List Sent} {tail : List UInt8}
    (hlt : (held red ++ chunk).length < 2 ^ 32) (hsplit : held red ++ chunk = stream Sent.enc ms ++ tail)
    (hshort : Short Sent.enc rest tail) {s : Proc} {ron : Rcon} (hr : s.raf.rons l = some ron)
    (hlive : ron.stat = .live) :
    ∃ red', Sound red' ∧ held red' = tail ∧
      (readCb l hist env red chunk).run s
        = (handle l hist ms >>= fun _ => connFlush l >>= fun _ => pure red').run s := by
  obtain ⟨b, hgrow, hbuf, hcap, hword⟩ := rbufGrow_fits hred hlt
  refine ⟨some { b with bufY := tail }, ⟨?_, hword⟩, rfl, ?_⟩
  · have hle : tail.length ≤ b.bufY.length := by
      rw [hbuf, hsplit, List.length_append]
      exact Nat.le_add_left ..
    exact hle.trans hcap
  · rw [readCb, if_neg hne, run_deref s hr, if_pos hlive, hgrow]
    simp only
    rw [hbuf, hsplit, Run.run_bind, readLoop_stream hroom hshort, Run.run_bind, Run.run_bind]
    rcases (handle l hist ms).run s with ⟨r, t⟩
    cases r with
    | ok a => rfl
    | stop e => rfl
    | spent => rfl

/-- A connection that is closed reads nothing more. -/
theorem feed_dead {s : Proc} {ron : Rcon} (hr : s.raf.rons l = some ron) (hdead : ron.stat ≠ .live)
    (chunks : List (List UInt8)) (red : Option Rbuf) :
    (feed l hist env chunks red).run s = (.ok red, s) := by
  induction chunks with
  | nil => rfl
  | cons chunk chunks ih =>
      have hcb : (readCb l hist env red chunk).run s = (.ok red, s) := by
        rw [readCb]
        split
        · rfl
        · rw [run_deref s hr, if_neg hdead]
          rfl
      rw [feed, Run.run_bind, hcb]
      exact ih

theorem deliver_dead {s : Proc} {ron : Rcon} (hr : s.raf.rons l = some ron)
    (hdead : ron.stat ≠ .live) (mss : List (List Sent)) :
    (deliver l hist mss).run s = (.ok (), s) := by
  induction mss with
  | nil => rfl
  | cons ms mss ih =>
      rw [deliver, run_deref s hr, if_neg hdead]
      exact ih

/-- At every chunk, the buffer has room for it. -/
def Roomy (ms : List Sent) (n : Nat) (chunks : List (List UInt8)) : Prop :=
  ∀ before chunk after, chunks = before ++ chunk :: after →
    pending Sent.enc ms (n + before.flatten.length) + chunk.length < 2 ^ 32

theorem feed_stream (hroom : ∀ s, (env s).Room) (chunks : List (List UInt8)) :
    ∀ {ms : List Sent} {red : Option Rbuf} (s : Proc), (∀ chunk ∈ chunks, chunk ≠ []) →
      Sound red → Short Sent.enc ms (held red) →
      held red ++ chunks.flatten <+: stream Sent.enc ms → Roomy ms (held red).length chunks →
      Leaves l (undecoded Sent.enc ms (held red ++ chunks.flatten))
        ((feed l hist env chunks red).run s)
        ((deliver l hist
          (batches Sent.enc ms (held red).length (chunks.map List.length))).run s) := by
  induction chunks with
  | nil =>
      intro ms red s _ _ hshort _ _
      refine ⟨rfl, fun _ => ?_⟩
      rw [List.flatten_nil, List.append_nil, undecoded_short hshort]
  | cons chunk chunks ih =>
      intro ms red s hne hred hshort hcut hrm
      rw [List.flatten_cons, ← List.append_assoc] at hcut ⊢
      have hpre : held red ++ chunk <+: stream Sent.enc ms :=
        (List.prefix_append _ chunks.flatten).trans hcut
      obtain ⟨tail, hsplit, htail, hshort'⟩ := split_initial hpre
      have hlen : (held red ++ chunk).length = (held red).length + chunk.length :=
        List.length_append
      have hlt : (held red ++ chunk).length < 2 ^ 32 := by
        have h := hrm [] chunk chunks rfl
        rw [List.flatten_nil, List.length_nil, Nat.add_zero, pending_short hshort.2] at h
        rw [hlen]
        exact h
      rw [undecoded_append chunks.flatten hsplit htail, List.map_cons, batches, ← hlen, feed, deliver]
      cases hr : s.raf.rons l with
      | none =>
          rw [Run.run_bind, readCb, if_neg (hne chunk (List.mem_cons_self ..)),
            run_deref_none s hr, run_deref_none s hr]
          rfl
      | some ron =>
          by_cases hlive : ron.stat = .live
          · obtain ⟨red', hred', hheld, hcb⟩ := @readCb_stream l hist env hroom red hred chunk
              (hne chunk (List.mem_cons_self ..)) _ _ _ hlt hsplit hshort' s ron hr hlive
            have hnext : held red' ++ chunks.flatten
                <+: stream Sent.enc (ms.drop (received Sent.enc ms (held red ++ chunk).length).length) := by
              rw [stream_received ms (held red ++ chunk).length] at hcut
              generalize received Sent.enc ms (held red ++ chunk).length = got at hcut hsplit ⊢
              rw [hsplit, List.append_assoc, List.prefix_append_right_inj] at hcut
              rw [hheld]
              exact hcut
            have hrm' : Roomy (ms.drop (received Sent.enc ms (held red ++ chunk).length).length)
                (held red').length chunks := by
              intro before c after heq
              have h := hrm (chunk :: before) c after (by rw [heq, List.cons_append])
              rw [List.flatten_cons, List.length_append, ← Nat.add_assoc, ← hlen, pending_add] at h
              rw [hheld, htail]
              exact h
            rw [← hheld] at hshort' ⊢
            have hstep := fun t => ih t (fun c hc => hne c (List.mem_cons_of_mem _ hc)) hred' hshort'
              hnext hrm'
            rw [Run.run_bind, hcb, run_deref s hr, if_pos hlive, ← htail, ← hheld]
            rw [Run.run_bind, Run.run_bind]
            rcases (handle l hist (received Sent.enc ms (held red ++ chunk).length)).run s with ⟨r, t⟩
            cases r with
            | stop e => rfl
            | spent => rfl
            | ok a =>
                simp only [Run.run_bind]
                rcases (connFlush l).run t with ⟨r, u⟩
                cases r with
                | stop e => rfl
                | spent => rfl
                | ok a => exact hstep u
          · have hron : ¬s.live l := by
              rw [Proc.live, hr]
              simpa using hlive
            have hcb : (readCb l hist env red chunk).run s = (.ok red, s) := by
              rw [readCb, if_neg (hne chunk (List.mem_cons_self ..)), run_deref s hr, if_neg hlive]
              rfl
            rw [Run.run_bind, hcb, run_deref s hr, if_neg hlive]
            simp only
            rw [feed_dead hr hlive, deliver_dead hr hlive]
            exact ⟨rfl, fun h => absurd h hron⟩

/-- The lengths of the chunks that are not empty. -/
def cuts (chunks : List (List UInt8)) : List Nat := (chunks.filter (· ≠ [])).map List.length

theorem feed_filter (chunks : List (List UInt8)) (red : Option Rbuf) (s : Proc) :
    (feed l hist env chunks red).run s = (feed l hist env (chunks.filter (· ≠ [])) red).run s := by
  induction chunks generalizing red s with
  | nil => rfl
  | cons chunk chunks ih =>
      by_cases hne : chunk = []
      · rw [List.filter_cons_of_neg (by simpa using hne), feed, hne, readCb, if_pos rfl,
          Run.run_pure_bind]
        exact ih red s
      · rw [List.filter_cons_of_pos (by simpa using hne), feed, feed, Run.run_bind, Run.run_bind]
        rcases (readCb l hist env red chunk).run s with ⟨r, t⟩
        cases r with
        | ok red' => exact ih red' t
        | stop e => rfl
        | spent => rfl

theorem flatten_filter (chunks : List (List UInt8)) :
    (chunks.filter (· ≠ [])).flatten = chunks.flatten := by
  induction chunks with
  | nil => rfl
  | cons chunk chunks ih =>
      by_cases hne : chunk = []
      · rw [List.filter_cons_of_neg (by simpa using hne), ih, List.flatten_cons, hne,
          List.nil_append]
      · rw [List.filter_cons_of_pos (by simpa using hne), List.flatten_cons, ih, List.flatten_cons]

theorem Sent.enc_pos (m : Sent) : 0 < m.enc.length := by
  obtain ⟨top, m', hread, -⟩ := @Sent.read roomy m (fun _ _ => rfl) []
  obtain ⟨hacc, hben, -⟩ := rmsgRead_accept hread
  have htype := hacc.headed.type
  omega

theorem sum_cuts (chunks : List (List UInt8)) : (cuts chunks).sum = chunks.flatten.length := by
  rw [cuts, ← List.length_flatten, flatten_filter]

/-- However a stream is cut into chunks, and as long as the buffer has room for them,
the server does what it does when it handles the messages one by one, in order and
each once, those a chunk completes before the next chunk. It does so until the
connection is closed, and what is then in the buffer is what comes behind the last
message that is complete. -/
theorem stream_framed (l : Link) (hist : Rmsg → Rreq) (env : Proc → Env)
    (hroom : ∀ s, (env s).Room) (ms : List Sent) (chunks : List (List UInt8))
    (hcut : chunks.flatten <+: stream Sent.enc ms) (hrm : Roomy ms 0 (chunks.filter (· ≠ [])))
    (s : Proc) :
    (batches Sent.enc ms 0 (cuts chunks)).flatten = received Sent.enc ms chunks.flatten.length ∧
      (chunks.flatten = stream Sent.enc ms →
        received Sent.enc ms chunks.flatten.length = ms ∧
          undecoded Sent.enc ms chunks.flatten = []) ∧
      Leaves l (undecoded Sent.enc ms chunks.flatten) ((feed l hist env chunks none).run s)
        ((deliver l hist (batches Sent.enc ms 0 (cuts chunks))).run s) := by
  have hstart : ∀ m ∈ ms.head?, 0 < m.enc.length := fun m _ => m.enc_pos
  refine ⟨?_, ?_, ?_⟩
  · rw [flatten_batches ms 0 (cuts chunks) hstart, Nat.zero_add, sum_cuts]
  · intro hall
    rw [undecoded, hall, received_all, List.drop_length]
    exact ⟨rfl, rfl⟩
  · have hfeed := @feed_stream l hist env hroom (chunks.filter (· ≠ [])) ms none s
      (fun chunk hc => by simpa using (List.mem_filter.mp hc).2) trivial
      ⟨List.nil_prefix, hstart⟩ ((flatten_filter chunks).symm ▸ hcut) hrm
    rw [flatten_filter] at hfeed
    rw [feed_filter]
    exact hfeed

/-! ### Two messages -/

/-- A server that was just started and has accepted a connection. -/
def greeted : Proc where
  raf :=
    let raf := (follInit duo nameB (fun _ => none) nul).get (by decide)
    { raf with rons := fun l => if l = 0 then some ⟨none, .live, [], []⟩ else none }
  net := { State.init.net with links := [⟨nameA, nameB, true⟩] }
  fuse := 100
  torn := false

/-- The name `x:1`, of no server. -/
def nameX : Cstr := ⟨[120, 58, 49], by decide⟩

theorem fits_nil : ([] : List Entry).length < 2 ^ 64 := by decide

/-- The buffer of a heartbeat. -/
def beatBuf (nam : Cstr) (temW : UInt32) : Rbuf :=
  ((rmsgSend none (writeApen ⟨nam, 0, 0, temW⟩ 0 0 0 ⟨[], fits_nil⟩)).getD none).getD ⟨0, []⟩

def beatA (temW : UInt32)
    (h : rmsgSend none (writeApen ⟨nameA, 0, 0, temW⟩ 0 0 0 ⟨[], fits_nil⟩)
      = some (some (beatBuf nameA temW))) : Sent :=
  ⟨⟨nameA, 0, 0, temW⟩, .apen 0 0 0 ⟨[], fits_nil⟩, beatBuf nameA temW, h⟩

/-- Heartbeats of the first server in its first two terms, and one of a stranger. -/
def beat1 : Sent := beatA 1 (by decide +kernel)
def beat2 : Sent := beatA 2 (by decide +kernel)
def beatX : Sent :=
  ⟨⟨nameX, 0, 0, 1⟩, .apen 0 0 0 ⟨[], fits_nil⟩, beatBuf nameX 1, by decide +kernel⟩

/-- Any history, for concrete cases. -/
def anyHist (m : Rmsg) : Rreq := ⟨m, 0⟩

/-- A short stream always has room. -/
theorem roomy_of_short {ms : List Sent} {chunks : List (List UInt8)}
    (h : chunks.flatten.length < 2 ^ 32) : Roomy ms 0 chunks := by
  intro before chunk after heq
  have hle := @pending_le _ _ Sent.enc ms (0 + before.flatten.length)
  rw [heq, List.flatten_append, List.length_append, List.flatten_cons, List.length_append] at h
  omega

/-- Two heartbeats, with a cut inside the first and one inside the second. -/
theorem stream_framed_beats :
    Leaves 0 [] ((feed 0 anyHist (fun _ => roomy) [beat1.enc.take 30,
        beat1.enc.drop 30 ++ beat2.enc.take 7, beat2.enc.drop 7] none).run greeted)
      ((deliver 0 anyHist (batches Sent.enc [beat1, beat2] 0 (cuts [beat1.enc.take 30,
        beat1.enc.drop 30 ++ beat2.enc.take 7, beat2.enc.drop 7]))).run greeted) := by
  have hall : [beat1.enc.take 30, beat1.enc.drop 30 ++ beat2.enc.take 7, beat2.enc.drop 7].flatten
      = stream Sent.enc [beat1, beat2] := by decide +kernel
  have hrm : Roomy [beat1, beat2] 0 ([beat1.enc.take 30, beat1.enc.drop 30 ++ beat2.enc.take 7,
      beat2.enc.drop 7].filter (· ≠ [])) := roomy_of_short (by decide +kernel)
  obtain ⟨-, hwhole, hleaves⟩ := stream_framed 0 anyHist (fun _ => roomy) (fun _ _ _ => rfl)
    [beat1, beat2] _ (hall ▸ List.prefix_rfl) hrm greeted
  rw [(hwhole hall).2] at hleaves
  exact hleaves

/-- The heartbeat of a stranger closes the connection, and the next one is not
handled. -/
theorem closed_reads_nothing : ∃ red t u,
    (feed 0 anyHist (fun _ => roomy) [beatX.enc, beat2.enc] none).run greeted = (.ok red, t) ∧
      (handle 0 anyHist [beatX, beat2]).run greeted = (.ok (), u) ∧
      t.raf.temW = 1 ∧ u.raf.temW = 2 := by
  have hfeed := @feed_stream 0 anyHist (fun _ => roomy) (fun _ _ _ => rfl) [beatX.enc, beat2.enc]
    [beatX, beat2] none greeted (by decide +kernel) trivial
    ⟨List.nil_prefix, fun m _ => m.enc_pos⟩ List.prefix_rfl (roomy_of_short (by decide +kernel))
  have hdeliver : ((deliver 0 anyHist (batches Sent.enc [beatX, beat2] 0
      [beatX.enc.length, beat2.enc.length])).run greeted).1 = .ok () ∧
      ((deliver 0 anyHist (batches Sent.enc [beatX, beat2] 0
        [beatX.enc.length, beat2.enc.length])).run greeted).2.raf.temW = 1 := by decide +kernel
  have hboth : ((handle 0 anyHist [beatX, beat2]).run greeted).1 = .ok () ∧
      ((handle 0 anyHist [beatX, beat2]).run greeted).2.raf.temW = 2 := by decide +kernel
  obtain ⟨red, t, hred, ht⟩ := hfeed.ok hdeliver.1
  exact ⟨red, t, _, hred, Prod.ext hboth.1 rfl, ht ▸ hdeliver.2, hboth.2⟩

end Vere.Raft
