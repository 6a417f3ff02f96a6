import Vere.Ames.Bund
import Vere.Ames.Ship

/-!
# Vere.Ames.Ack

What the sender of a `%bund` message is told.

A message is reported with `%cake` when the last of its packets is acknowledged with `%buck`, and
with `%coke` when it is acknowledged with `%back`. A `%buck` is sent when the application
acknowledges the message, for the packet that completed it. But every other packet of a long
message is acknowledged with `%back`, and so is each of them when it comes again; so the last
acknowledgment may be a `%back` that the application knows nothing of.

`careful` leaves these out, and what else leads to an acknowledgment that was not given: a
redundant `rack`, and a channel on which both kinds of messages are sent. In every run that is
`careful` the reports are `Truthful`.
-/

namespace Vere.Ames

open Vere.Hoon Vere.Lib

variable {δ : Type}

/-! ### What was acknowledged -/

/-- The number that was passed on last. -/
def lastMulk (our : Bool) (cha : Path) (log : Diary) : Option Nat :=
  log.findSome? fun
    | (who, .mulk c num) => if who = our ∧ c = cha then some num else none
    | _ => none

/-- The application acknowledged a message: it was the last that was passed on. -/
def Acked (our : Bool) (cha : Path) (num : Nat) (cop : Coop) (log : Diary) : Prop :=
  ∃ post pre, log = post ++ (our, .rack cha cop) :: pre ∧ lastMulk our cha pre = some num

/-- The outcome of an acknowledgment. -/
def outcome : Coop → Cape
  | none => .good
  | some _ => .dead

/-- Whatever is reported of a `%bund` message was acknowledged before, with this outcome. -/
def Truthful (log : Diary) : Prop :=
  ∀ our cha num post pre, (our, .wool cha num true) ∈ pre →
    (∀ cop, log = post ++ (our, .cake cha num cop) :: pre → Acked (!our) cha num cop pre) ∧
    ∀ kay, log = post ++ (our, .coke cha num kay) :: pre →
      ∃ cop, Acked (!our) cha num cop pre ∧ outcome cop = kay

/-- The meal that a packet brings. -/
def mealOf (c : Code δ) (now deep : Nat) (kay : Cape) (ryn : Lane) (pac : Nat) (s : Ship δ) :
    Option Meal :=
  match taste c now deep kay ryn pac s with
  | some (.dine _ ham, _) => some ham
  | _ => none

/-- No message of the other kind was sent on the channel; the message that the application
acknowledges is there; and a `%back` is not for the last packet of a `%bund` message. -/
def careful (c : Code δ) (deep : Nat) (p : Pair δ) (t : Turn δ) : Bool :=
  let s := (p.ship t.our).fresh
  match t.deed with
  | .wool _ cha _ ete => p.log.all fun
      | (who, .wool d _ e) => decide (who = t.our → d = cha → e = ete)
      | _ => true
  | .rack cha _ => ((s.ho.raz.lookup cha).map fun rum => rum.mis.lookup rum.did).all Option.isSome
  | .hear kay ryn pac =>
      match mealOf c t.now deep kay ryn pac s with
      | some (.back _ fap _) => (lastOf s.puz fap).all fun gom =>
          !p.log.contains (t.our, .wool gom.p gom.q true)
      | _ => true
  | _ => true

/-! ### What a packet carries -/

/-- A message that a meal is encoded as. -/
def Says (c : Code δ) (ham : Meal) (sin : Skin) (q : Nat) : Prop :=
  ∃ d r, c.wisp ham d = some ((sin, q), r)

/-- A packet that a meal is encoded in. -/
def Carries (c : Code δ) (ham : Meal) (pac : Nat) : Prop :=
  ∃ p sin q pax, c.bite pac = some p ∧ Says c ham sin q ∧ weft c.thug sin q = some pax ∧ p ∈ pax

/-- What the engine relies on, of the messages that `wisp` makes: their packets are read as the
cakes they were made of, no two of these packets and no two of these messages have one hash, and
what a message was made of is all that can be read from it. For one run it is enough that `wisp`
makes the messages of the run. -/
structure Code.Lawful (c : Code δ) : Prop where
  bite : ∀ {our ham sin q pax p}, Says c ham sin q → weft c.thug sin q = some pax → p ∈ pax →
    c.bite (c.spit our p) = some p
  flap : ∀ {ham ham' pac pac'}, Carries c ham pac → Carries c ham' pac' → c.flap pac = c.flap pac' →
    pac = pac'
  thug : ∀ {ham ham' sin sin' q q'}, Says c ham sin q → Says c ham' sin' q' → c.thug q = c.thug q' →
    q = q'
  wisp : ∀ {ham ham' sin q}, Says c ham sin q → Says c ham' sin q → ham' = ham
  east : ∀ {ham ham' sin q d r}, Says c ham sin q → c.east sin q d = some (.meal ham', r) → ham' = ham

section carries

variable {c : Code δ} {ham ham' : Meal} {pac : Nat} {sin : Skin} {q : Nat}

theorem weft_cases {shaf : Nat → Nat} {pax : List Pack} (h : weft shaf sin q = some pax) :
    (met 13 q = 1 ∧ pax = [.whole sin q]) ∨ 1 < met 13 q ∧ pax = parts (shaf q) sin (rip 13 q) := by
  by_cases h0 : met 13 q = 0
  · rw [weft, if_pos h0] at h
    cases h
  · by_cases h1 : met 13 q = 1
    · rw [weft, if_neg h0, if_pos h1] at h
      cases h
      exact .inl ⟨h1, rfl⟩
    · have hlt : 1 < met 13 q := by omega
      rw [weft_parts hlt] at h
      cases h
      exact .inr ⟨hlt, rfl⟩

theorem Carries.whole (h : Carries c ham pac) (hb : c.bite pac = some (.whole sin q)) :
    Says c ham sin q := by
  obtain ⟨p, sin', q', pax, hp, htext, hw, hmem⟩ := h
  obtain rfl : p = .whole sin q := Option.some.inj (hp.symm.trans hb)
  rcases weft_cases hw with ⟨-, rfl⟩ | ⟨-, rfl⟩
  · rw [List.mem_singleton] at hmem
    cases hmem
    exact htext
  · obtain ⟨fud, -, he⟩ := List.mem_map.mp hmem
    cases he

theorem Carries.part {fud : Carp} (h : Carries c ham pac) (hb : c.bite pac = some (.part fud)) :
    ∃ sin q i a, Says c ham sin q ∧ (rip 13 q)[i]? = some a ∧
      fud = ⟨ksin sin, i, (rip 13 q).length, c.thug q, a⟩ := by
  obtain ⟨p, sin, q, pax, hp, htext, hw, hmem⟩ := h
  obtain rfl : p = .part fud := Option.some.inj (hp.symm.trans hb)
  rcases weft_cases hw with ⟨-, rfl⟩ | ⟨-, rfl⟩
  · simp at hmem
  · obtain ⟨i, a, hi, rfl⟩ := mem_parts.mp hmem
    exact ⟨sin, q, i, a, htext, hi, rfl⟩

/-- A packet carries one meal. -/
theorem Carries.unique (hc : c.Lawful) (h : Carries c ham pac) (h' : Carries c ham' pac) :
    ham' = ham := by
  obtain ⟨p, -, -, -, hp, -⟩ := id h
  cases p with
  | whole sin q => exact hc.wisp (h.whole hp) (h'.whole hp)
  | part fud =>
      obtain ⟨sin, q, i, a, hs, -, rfl⟩ := h.part hp
      obtain ⟨sin', q', i', a', hs', -, he⟩ := h'.part hp
      obtain ⟨hsin, -, -, hq, -⟩ := Carp.mk.inj he
      obtain rfl : q = q' := hc.thug hs hs' hq
      obtain rfl : sin = sin' := by
        have := congrArg kins hsin
        simpa using this
      exact hc.wisp hs hs'

theorem wire_carries (hc : c.Lawful) {our : Bool} {diz diz' : δ} {pax : List Nat}
    (h : (c.wire our).zuul ham diz = some (pax, diz')) : ∀ pac ∈ pax, Carries c ham pac := by
  obtain ⟨⟨⟨sin, q⟩, r⟩, hw, h⟩ := Option.bind_eq_some_iff.mp h
  obtain ⟨pks, hweft, h⟩ := Option.bind_eq_some_iff.mp h
  cases h
  intro pac hpac
  obtain ⟨p, hp, rfl⟩ := List.mem_map.mp hpac
  exact ⟨p, sin, q, pks, hc.bite ⟨diz, _, hw⟩ hweft hp, ⟨diz, _, hw⟩, hweft, hp⟩

end carries

/-! ### What the packets on the way say -/

/-- A statement was made on this channel under this number. -/
def Stated (our : Bool) (log : Diary) : Meal → Soup → Prop
  | .bond _ cha num _, gom => gom = ⟨cha, num⟩ ∧ (our, .wool cha num false) ∈ log
  | .bund _ cha num _, gom => gom = ⟨cha, num⟩ ∧ (our, .wool cha num true) ∈ log
  | _, _ => False

/-- A ship says this rightly: a statement that it made, or an acknowledgment that it got from the
application for the message with the hash. -/
def Said (c : Code δ) (our : Bool) (log : Diary) : Meal → Prop
  | .buck cop dam _ => ∀ p cha num val pac, Carries c (.bund p cha num val) pac → c.flap pac = dam →
      Acked our cha num cop log
  | .back .. => True
  | ham => ∃ gom, Stated our log ham gom

/-- A packet that says something rightly. -/
def Aired (c : Code δ) (our : Bool) (log : Diary) (pac : Nat) : Prop :=
  ∃ ham, Carries c ham pac ∧ Said c our log ham

/-- No channel has both kinds of messages. -/
def Pure (log : Diary) : Prop :=
  ∀ our cha n m, (our, .wool cha n true) ∈ log → (our, .wool cha m false) ∉ log

section said

variable {c : Code δ} {our : Bool} {log log' : Diary} {ham : Meal} {gom : Soup}

theorem Acked.mono {cha : Path} {num : Nat} {cop : Coop} (h : Acked our cha num cop log)
    (hle : log <:+ log') : Acked our cha num cop log' := by
  obtain ⟨new, rfl⟩ := hle
  obtain ⟨post, pre, rfl, hm⟩ := h
  exact ⟨new ++ post, pre, by simp, hm⟩

theorem Stated.mono (h : Stated our log ham gom) (hle : log <:+ log') : Stated our log' ham gom := by
  cases ham with
  | bond p cha num val => exact ⟨h.1, hle.subset h.2⟩
  | bund p cha num val => exact ⟨h.1, hle.subset h.2⟩
  | back | buck | carp | fore => exact h

theorem Said.mono (h : Said c our log ham) (hle : log <:+ log') : Said c our log' ham := by
  cases ham with
  | buck cop dam cot => exact fun p cha num val pac hpac hdam => (h p cha num val pac hpac hdam).mono hle
  | back => trivial
  | bond | bund | carp | fore => exact h.imp fun gom hg => hg.mono hle

theorem Aired.mono {pac : Nat} (h : Aired c our log pac) (hle : log <:+ log') : Aired c our log' pac :=
  h.imp fun _ hham => hham.imp_right fun hs => hs.mono hle

theorem Stated.said (h : Stated our log ham gom) : Said c our log ham := by
  cases ham with
  | bond p cha num val => exact ⟨gom, h⟩
  | bund p cha num val => exact ⟨gom, h⟩
  | back | buck | carp | fore => exact absurd h id

end said
/-! ### Channels -/

/-- What is parked came in a packet with a statement of this number. -/
def Parks (c : Code δ) (our : Bool) (cha : Path) (log : Diary) (mis : Dict Nat Miss) : Prop :=
  ∀ num m, mis.lookup num = some m →
    ∃ pac ham, c.flap pac = m.r ∧ Carries c ham pac ∧ Stated (!our) log ham ⟨cha, num⟩

/-- The record of a channel with `%bund` messages: those below `did` were acknowledged, and the
nacks are in `bum`; the one at `did`, if it is there, was passed on last. -/
structure Even (our : Bool) (cha : Path) (log : Diary) (rum : Race) : Prop where
  bum : ∀ n res, rum.bum.lookup n = some res → Acked our cha n (some res) log
  did : ∀ n, n < rum.did → rum.bum.lookup n = none → Acked our cha n none log
  out : rum.mis.lookup rum.did ≠ none → lastMulk our cha log = some rum.did
  busy : rum.dod = false → rum.mis.lookup rum.did ≠ none

/-- The record of a channel. If it has `%bond` messages, no more is known of it than what is
parked. -/
structure Booked (c : Code δ) (our : Bool) (log : Diary) (cha : Path) (rum : Race) : Prop where
  mis : Parks c our cha log rum.mis
  even : (∀ n, (!our, .wool cha n false) ∉ log) → Even our cha log rum

section booked

variable {c : Code δ} {our : Bool} {log log' : Diary} {cha : Path} {rum : Race}

theorem Parks.mono {mis : Dict Nat Miss} (h : Parks c our cha log mis) (hle : log <:+ log') :
    Parks c our cha log' mis := by
  intro num m hm
  obtain ⟨pac, ham, hflap, hpac, hs⟩ := h num m hm
  exact ⟨pac, ham, hflap, hpac, hs.mono hle⟩

theorem Parks.put {mis : Dict Nat Miss} (h : Parks c our cha log mis) {num : Nat} {m : Miss}
    {pac : Nat} {ham : Meal} (hflap : c.flap pac = m.r) (hpac : Carries c ham pac)
    (hs : Stated (!our) log ham ⟨cha, num⟩) : Parks c our cha log (mis.insert num m) := by
  intro n x hx
  rw [lookup_insert_eq] at hx
  split at hx
  · next hn =>
    cases hx
    exact ⟨pac, ham, hflap, hpac, hn ▸ hs⟩
  · exact h n x hx

theorem Parks.drop {mis : Dict Nat Miss} (h : Parks c our cha log mis) (num : Nat) :
    Parks c our cha log (mis.erase num) := by
  intro n x hx
  rw [lookup_erase_eq] at hx
  split at hx
  · cases hx
  · exact h n x hx

theorem Even.mono (h : Even our cha log rum) (hle : log <:+ log')
    (hlast : lastMulk our cha log' = lastMulk our cha log) : Even our cha log' rum := by
  refine ⟨fun n res hn => (h.bum n res hn).mono hle, fun n hn hb => (h.did n hn hb).mono hle, ?_, h.busy⟩
  rw [hlast]
  exact h.out

theorem Booked.mono (h : Booked c our log cha rum) (hle : log <:+ log')
    (hlast : lastMulk our cha log' = lastMulk our cha log) : Booked c our log' cha rum :=
  ⟨h.mis.mono hle, fun hno => (h.even fun n hn => hno n (hle.subset hn)).mono hle hlast⟩

theorem booked_bunt : Booked c our log cha .bunt := by
  refine ⟨fun num m hm => (by cases hm), fun _ => ⟨?_, ?_, ?_, ?_⟩⟩
  · intro n res hn
    cases hn
  · intro n hn
    cases hn
  · intro hn
    exact absurd rfl hn
  · intro hd
    cases hd

end booked

/-! ### The diary -/

theorem lastMulk_cons {our : Bool} {cha : Path} {log : Diary} {e : Bool × Note}
    (he : ∀ num, e ≠ (our, .mulk cha num)) : lastMulk our cha (e :: log) = lastMulk our cha log := by
  obtain ⟨who, note⟩ := e
  rw [lastMulk, List.findSome?_cons]
  cases note with
  | mulk c num =>
      have hne : ¬(who = our ∧ c = cha) := by
        rintro ⟨rfl, rfl⟩
        exact he num rfl
      dsimp only
      rw [if_neg hne]
      rfl
  | wool | rack | cake | coke => rfl

theorem lastMulk_append {our : Bool} {cha : Path} {new log : Diary}
    (hnew : ∀ e ∈ new, ∀ num, e ≠ (our, .mulk cha num)) :
    lastMulk our cha (new ++ log) = lastMulk our cha log := by
  induction new with
  | nil => rfl
  | cons e new ih =>
      rw [List.cons_append, lastMulk_cons (hnew e List.mem_cons_self)]
      exact ih fun x hx => hnew x (List.mem_cons_of_mem _ hx)

theorem lastMulk_mulk (our : Bool) (cha : Path) (num : Nat) (log : Diary) :
    lastMulk our cha ((our, .mulk cha num) :: log) = some num := by
  simp [lastMulk]

/-- An entry is a report that is due: of a message that was acknowledged, with its outcome. -/
def Earned (log : Diary) : Bool × Note → Prop
  | (our, .cake cha num cop) => (our, .wool cha num true) ∈ log → Acked (!our) cha num cop log
  | (our, .coke cha num kay) => (our, .wool cha num true) ∈ log →
      ∃ cop, Acked (!our) cha num cop log ∧ outcome cop = kay
  | _ => True

theorem Truthful.cons {log : Diary} {e : Bool × Note} (h : Truthful log) (he : Earned log e) :
    Truthful (e :: log) := by
  intro our cha num post pre hwool
  cases post with
  | nil =>
      constructor
      · rintro cop heq
        obtain ⟨rfl, rfl⟩ := List.cons.inj heq
        exact he hwool
      · rintro kay heq
        obtain ⟨rfl, rfl⟩ := List.cons.inj heq
        exact he hwool
  | cons x post =>
      obtain ⟨hcake, hcoke⟩ := h our cha num post pre hwool
      exact ⟨fun cop heq => hcake cop (List.cons.inj heq).2,
        fun kay heq => hcoke kay (List.cons.inj heq).2⟩

theorem Pure.cons {log : Diary} {who : Bool} {note : Note} (h : Pure log)
    (he : ∀ cha n ete, note ≠ .wool cha n ete) : Pure ((who, note) :: log) := by
  have hold : ∀ our cha n ete, (our, Note.wool cha n ete) ∈ (who, note) :: log →
      (our, .wool cha n ete) ∈ log := by
    intro our cha n ete hm
    rcases List.mem_cons.mp hm with heq | hm
    · exact absurd (Prod.mk.inj heq).2.symm (he cha n ete)
    · exact hm
  exact fun our cha n m ht hf => h our cha n m (hold _ _ _ _ ht) (hold _ _ _ _ hf)

/-! ### The streams -/

/-- The diary in the middle of an event. -/
def logOf (our : Bool) (base : Diary) (bin : List (Boon Nat)) : Diary :=
  bin.filterMap (noted our) ++ base

/-- The channels, what was sent and the diary are in order. -/
structure Level (c : Code δ) (our : Bool) (base : Diary) (ho : Ho δ Nat) : Prop where
  raz : ∀ cha, Booked c our (logOf our base ho.bin) cha (raceOf ho.raz cha)
  out : ∀ bun ∈ ho.bin, ∀ pac ∈ packets bun, Aired c our (logOf our base ho.bin) pac
  clear : Pure (logOf our base ho.bin)
  told : Truthful (logOf our base ho.bin)

/-- The channels are in order again, and the diary has only become longer. -/
structure Onward (c : Code δ) (our : Bool) (base : Diary) (ho ho' : Ho δ Nat) : Prop where
  level : Level c our base ho'
  grown : logOf our base ho.bin <:+ logOf our base ho'.bin

section streams

variable {c : Code δ} {our : Bool} {base : Diary} {ho ho' ho'' : Ho δ Nat} {cha : Path} {rum : Race}
  {la : La} {bun : Boon Nat}

theorem Onward.trans (h : Onward c our base ho ho') (h' : Onward c our base ho' ho'') :
    Onward c our base ho ho'' :=
  ⟨h'.level, h.grown.trans h'.grown⟩

theorem Level.onward (h : Level c our base ho) : Onward c our base ho ho := ⟨h, List.suffix_refl _⟩

/-- A boon that is not noted. -/
theorem logOf_mute {bin : List (Boon Nat)} (h : noted our bun = none) :
    logOf our base (bun :: bin) = logOf our base bin := by
  simp [logOf, h]

theorem Level.mute (h : Level c our base ho) (hmute : noted our bun = none)
    (hpac : ∀ pac ∈ packets bun, Aired c our (logOf our base ho.bin) pac)
    (hraz : ho'.raz = ho.raz) (hbin : ho'.bin = bun :: ho.bin) : Onward c our base ho ho' := by
  have hlog : logOf our base ho'.bin = logOf our base ho.bin := by rw [hbin, logOf_mute hmute]
  refine ⟨⟨?_, ?_, ?_, ?_⟩, hlog ▸ List.suffix_refl _⟩
  · rw [hlog, hraz]
    exact h.raz
  · rw [hlog, hbin]
    intro b hb
    rcases List.mem_cons.mp hb with rfl | hb
    · exact hpac
    · exact h.out b hb
  · exact hlog ▸ h.clear
  · exact hlog ▸ h.told

/-- An acknowledgment. -/
theorem Level.tell (hc : c.Lawful) (h : Level c our base ho) {ham : Meal} {pax : List Nat} {diz diz' : δ}
    (hz : (c.wire our).zuul ham diz = some (pax, diz')) (hs : Said c our (logOf our base ho.bin) ham)
    (hraz : ho'.raz = ho.raz) (hbin : ho'.bin = .tell ham pax :: ho.bin) :
    Onward c our base ho ho' := by
  have hpac : ∀ pac ∈ packets (.tell ham pax), Aired c our (logOf our base ho.bin) pac :=
    fun pac hpac => ⟨ham, wire_carries hc hz pac hpac, hs⟩
  exact h.mute rfl hpac hraz hbin

theorem Level.cock (hc : c.Lawful) (h : Level c our base ho) (hs : cock (c.wire our) la ho = some ho') :
    Onward c our base ho ho' := by
  obtain ⟨pax, hraz, hbin, diz, hz⟩ := cock_inv hs
  exact h.tell hc hz trivial hraz hbin

/-- A channel that is stored. -/
theorem Level.store (h : Level c our base ho) (hr : Booked c our (logOf our base ho.bin) cha rum) :
    Onward c our base ho { ho with raz := ho.raz.insert cha rum } := by
  refine ⟨⟨fun d => ?_, h.out, h.clear, h.told⟩, List.suffix_refl _⟩
  dsimp only
  rw [raceOf_insert]
  split
  · next hd => exact hd ▸ hr
  · exact h.raz d

/-- A channel that is stored, with a message that is passed on. -/
theorem Level.pass (h : Level c our base ho) {p q : Nat} {val : Noun}
    (hr : Booked c our ((our, .mulk cha rum.did) :: logOf our base ho.bin) cha rum) :
    Onward c our base ho { ho with
      raz := ho.raz.insert cha rum
      bin := .mulk p q cha rum.did val :: ho.bin } := by
  have hle : logOf our base ho.bin <:+ (our, .mulk cha rum.did) :: logOf our base ho.bin :=
    List.suffix_cons _ _
  refine ⟨⟨fun d => ?_, fun b hb pac hpac => ?_, ?_, ?_⟩, hle⟩
  · show Booked c our ((our, .mulk cha rum.did) :: logOf our base ho.bin) d _
    rw [raceOf_insert]
    split
    · next hd => exact hd ▸ hr
    · next hd =>
      refine (h.raz d).mono hle (lastMulk_cons fun num he => ?_)
      cases he
      exact hd rfl
  · rcases List.mem_cons.mp hb with rfl | hb
    · exact absurd hpac List.not_mem_nil
    · exact (h.out b hb pac hpac).mono hle
  · exact h.clear.cons fun _ _ _ he => by cases he
  · exact h.told.cons trivial

/-- `coot` on a channel that has `%bond` messages. -/
theorem Level.coot (hc : c.Lawful) (h : Level c our base ho)
    (hbond : ∃ n, (!our, .wool cha n false) ∈ logOf our base ho.bin)
    (hp : Parks c our cha (logOf our base ho.bin) rum.mis)
    (hs : coot (c.wire our) la cha rum ho = some ho') : Onward c our base ho ho' := by
  induction hk : rum.mis.keys.card using Nat.strongRecOn generalizing la rum ho with
  | ind k ih =>
    rw [Ames.coot] at hs
    split at hs
    · cases hs
      obtain ⟨n, hn⟩ := hbond
      exact h.store ⟨hp, fun hno => absurd hn (hno n)⟩
    · next cun hcun =>
      obtain ⟨ho₁, hcock, hs⟩ := Option.bind_eq_some_iff.mp hs
      have h₁ := h.cock hc hcock
      obtain ⟨ho₂, h₂, hs⟩ : ∃ ho₂, Onward c our base ho₁ ho₂ ∧
          Ames.coot (c.wire our) { la with kay := cun.p, dam := cun.r } cha
            { rum with mis := rum.mis.erase rum.did, did := rum.did + 1 } ho₂ = some ho' := by
        dsimp only at hs
        split at hs
        · split at hs
          · cases hs
          · refine ⟨_, ?_, hs⟩
            exact h₁.level.mute rfl (fun _ hpac => absurd hpac List.not_mem_nil) rfl rfl
        · exact ⟨ho₁, h₁.level.onward, hs⟩
      have h₁₂ := h₁.trans h₂
      have hlt : (rum.mis.erase rum.did).keys.card < k := hk ▸ card_erase_lt hcun
      refine h₁₂.trans (ih _ hlt h₂.level ?_ ?_ hs rfl)
      rotate_left
      · exact (hp.mono h₁₂.grown).drop _
      exact hbond.imp fun n hn => h₁₂.grown.subset hn

/-- A `%bond` packet. -/
theorem Level.dineBond (hc : c.Lawful) (h : Level c our base ho) {p num pac : Nat} {val : Noun}
    (hflap : c.flap pac = la.dam) (hpac : Carries c (.bond p cha num val) pac)
    (hsaid : (!our, .wool cha num false) ∈ logOf our base ho.bin)
    (hs : dineBond (c.wire our) la p cha num val ho = some ho') : Onward c our base ho ho' := by
  rw [Ames.dineBond] at hs
  split at hs
  · rw [dear] at hs
    split at hs
    · exact h.cock hc hs
    · exact h.coot hc ⟨num, hsaid⟩ ((h.raz cha).mis.put hflap hpac ⟨rfl, hsaid⟩) hs
  · cases hs

/-- `coat` of a record in which those below `did` were acknowledged, and none is out. -/
theorem Level.coat (h : Level c our base ho) (hmis : Parks c our cha (logOf our base ho.bin) rum.mis)
    (hidle : rum.dod = true)
    (hbum : (∀ n, (!our, .wool cha n false) ∉ logOf our base ho.bin) →
      (∀ n res, rum.bum.lookup n = some res → Acked our cha n (some res) (logOf our base ho.bin)) ∧
      ∀ n, n < rum.did → rum.bum.lookup n = none → Acked our cha n none (logOf our base ho.bin))
    (hs : coat (c.wire our) cha rum ho = some ho') : Onward c our base ho ho' := by
  rcases coat_inv hs with ⟨hgap, rfl⟩ | ⟨cun, -, -, rfl⟩ | ⟨cun, p, q, val, hcun, -, rfl⟩
  · refine h.store ⟨hmis, fun hno => ⟨(hbum hno).1, (hbum hno).2, fun hn => absurd hgap hn, ?_⟩⟩
    rw [hidle]
    exact fun hb => by cases hb
  · exact h.onward
  · have hle : logOf our base ho.bin <:+ (our, .mulk cha rum.did) :: logOf our base ho.bin :=
      List.suffix_cons _ _
    refine h.pass ⟨hmis.mono hle, fun hno => ?_⟩
    obtain ⟨hres, hnice⟩ := hbum fun n hn => hno n (hle.subset hn)
    refine ⟨fun n res hn => (hres n res hn).mono hle, fun n hn hb => (hnice n hn hb).mono hle, ?_, ?_⟩
    · exact fun _ => lastMulk_mulk our cha rum.did _
    · intro _
      dsimp only
      rw [hcun]
      exact Option.some_ne_none cun

/-- A `%bund` packet. -/
theorem Level.dineBund (hc : c.Lawful) (h : Level c our base ho) {p num pac : Nat} {val : Noun}
    (hflap : c.flap pac = la.dam) (hpac : Carries c (.bund p cha num val) pac)
    (hsaid : (!our, .wool cha num true) ∈ logOf our base ho.bin)
    (hs : dineBund (c.wire our) la p cha num val ho = some ho') : Onward c our base ho ho' := by
  have hbook := h.raz cha
  have heven := hbook.even fun n => h.clear _ cha num n hsaid
  rw [Ames.dineBund] at hs
  split at hs
  · rw [deer] at hs
    dsimp only at hs
    split at hs
    · next hlt =>
      -- passed on and acknowledged before
      obtain ⟨pax, hraz, hbin, diz, hz⟩ := cook_dup hs
      refine h.tell hc hz ?_ hraz hbin
      intro p' cha' num' val' pac' hpac' hdam
      obtain rfl : pac' = pac := hc.flap hpac' hpac (hdam.trans hflap.symm)
      cases hpac.unique hc hpac'
      cases hbum : (raceOf ho.raz cha).bum.lookup num with
      | none => exact heven.did num hlt hbum
      | some res => exact heven.bum num res hbum
    · -- it is parked, whatever comes then
      have hmis := hbook.mis.put (m := ⟨la.kay, la.ryn, la.dam, heard la.kay val⟩) hflap hpac ⟨rfl, hsaid⟩
      split at hs
      · next hidle =>
        refine h.coat ?_ ?_ (fun _ => ?_) hs
        · exact hmis
        · exact hidle
        · exact ⟨heven.bum, heven.did⟩
      · next hbusy =>
        cases hs
        have hthere := heven.busy (by simpa using hbusy)
        refine h.store ⟨hmis, fun _ => ⟨heven.bum, heven.did, fun _ => heven.out hthere, fun _ => ?_⟩⟩
        dsimp only
        rw [lookup_insert_eq]
        split
        · simp
        · exact hthere
  · cases hs

/-- An acknowledgment of the application, for a message that is there. The diary has it already. -/
theorem Level.rack (hc : c.Lawful) {log : Diary} {cop : Coop}
    (h : Level c our ((our, .rack cha cop) :: log) ho) (hbin : ho.bin = [])
    (hdue : ∀ rum, ho.raz.lookup cha = some rum → rum.mis.lookup rum.did ≠ none)
    (hs : rack (c.wire our) cha cop ho = some ho') :
    Onward c our ((our, .rack cha cop) :: log) ho ho' := by
  obtain ⟨ho₁, hcook, hs⟩ := Option.bind_eq_some_iff.mp hs
  cases hrum : ho.raz.lookup cha with
  | none =>
      rw [cook, hrum] at hcook
      cases hcook
  | some rum =>
      have hlog : logOf our ((our, .rack cha cop) :: log) ho.bin = (our, .rack cha cop) :: log := by
        rw [hbin]
        rfl
      have hbook := h.raz cha
      rw [raceOf_some hrum] at hbook
      have hthere := hdue rum hrum
      -- the message that is acknowledged is the one that was passed on last
      have hacked : (∀ n, (!our, .wool cha n false) ∉ logOf our ((our, .rack cha cop) :: log) ho.bin) →
          Acked our cha rum.did cop (logOf our ((our, .rack cha cop) :: log) ho.bin) := by
        intro hno
        have hlast := (hbook.even hno).out hthere
        rw [hlog, lastMulk_cons fun num he => by cases he] at hlast
        rw [hlog]
        exact ⟨[], log, rfl, hlast⟩
      rcases cook_own hrum hcook with ⟨hnone, -⟩ | ⟨lat, pax, hlat, hraz, hout, diz, hz⟩
      · exact absurd hnone hthere
      · let rum₁ : Race := { rum with dod := true, bum := rum.note cop }
        have hsaid : Said c our (logOf our ((our, .rack cha cop) :: log) ho.bin) (.buck cop lat.r 0) := by
          intro p cha' num' val' pac' hpac' hdam
          obtain ⟨pac, ham, hflap, hpac, hst⟩ := hbook.mis rum.did lat hlat
          obtain rfl : pac' = pac := hc.flap hpac' hpac (hdam.trans hflap.symm)
          cases hpac.unique hc hpac'
          cases hst.1
          exact hacked fun n => h.clear _ cha rum.did n hst.2
        -- the nacks with this outcome
        have hbum : (∀ n, (!our, .wool cha n false) ∉ logOf our ((our, .rack cha cop) :: log) ho.bin) →
            (∀ n res, rum₁.bum.lookup n = some res →
              Acked our cha n (some res) (logOf our ((our, .rack cha cop) :: log) ho.bin)) ∧
            ∀ n, n < rum.did + 1 → rum₁.bum.lookup n = none →
              Acked our cha n none (logOf our ((our, .rack cha cop) :: log) ho.bin) := by
          intro hno
          have heven := hbook.even hno
          have hack := hacked hno
          cases cop with
          | none =>
              refine ⟨heven.bum, fun n hn hb => ?_⟩
              rcases Nat.lt_succ_iff_lt_or_eq.mp hn with hn | rfl
              · exact heven.did n hn hb
              · exact hack
          | some res =>
              have hget : ∀ n, rum₁.bum.lookup n = if n = rum.did then some res else rum.bum.lookup n :=
                fun n => lookup_insert_eq ..
              refine ⟨fun n r hn => ?_, fun n hn hb => ?_⟩
              · rw [hget] at hn
                split at hn
                · next he =>
                  cases hn
                  exact he ▸ hack
                · exact heven.bum n r hn
              · rw [hget] at hb
                split at hb
                · cases hb
                · next he => exact heven.did n (by omega) hb
        have hstore : Onward c our ((our, .rack cha cop) :: log) ho
            { ho with raz := ho.raz.insert cha rum₁ } := by
          refine h.store ⟨hbook.mis, fun hno => ⟨(hbum hno).1, ?_, (hbook.even hno).out, ?_⟩⟩
          · exact fun n hn hb => (hbum hno).2 n (Nat.lt_succ_of_lt hn) hb
          · exact fun hb => by cases hb
        have h₁ : Onward c our ((our, .rack cha cop) :: log) ho ho₁ :=
          hstore.trans (hstore.level.tell hc hz hsaid hraz hout)
        have hlog₁ : logOf our ((our, .rack cha cop) :: log) ho₁.bin =
            logOf our ((our, .rack cha cop) :: log) ho.bin := by
          rw [hout]
          exact logOf_mute rfl
        rw [cans, hraz, Finmap.lookup_insert, Option.bind_eq_bind, Option.bind_some] at hs
        refine h₁.trans (h₁.level.coat ?_ rfl ?_ hs)
        · exact (hlog₁ ▸ hbook.mis).drop _
        · rw [hlog₁]
          exact hbum

end streams
/-! ### Fragments -/

/-- What is collected of a message that the other ship sent. -/
structure Bite (c : Code δ) (our : Bool) (log : Diary) (gom : Nat) (neb : Bait) : Prop where
  text : ∃ q ham, c.thug q = gom ∧ Says c ham neb.p q ∧ Said c (!our) log ham ∧
    neb.r.p = (rip 13 q).length ∧ ∀ i a, neb.r.q.lookup i = some a → (rip 13 q)[i]? = some a
  count : neb.q = neb.r.q.keys.card

/-- Everything that is collected is of such a message, and not complete. -/
def Collects (c : Code δ) (our : Bool) (log : Diary) (weg : Corn) : Prop :=
  ∀ gom neb, weg.nys.lookup gom = some neb → weg.olz.lookup gom = none ∧ Bite c our log gom neb

section fragments

variable {c : Code δ} {our : Bool} {log log' : Diary} {weg weg' : Corn} {ham : Meal} {kay : Cape}
  {fud : Carp} {act : Heed} {pac : Nat}

theorem Collects.mono (h : Collects c our log weg) (hle : log <:+ log') : Collects c our log' weg := by
  intro gom neb hn
  obtain ⟨holz, ⟨q, ham, hq, htext, hsaid, hrest⟩, hcount⟩ := h gom neb hn
  exact ⟨holz, ⟨q, ham, hq, htext, hsaid.mono hle, hrest⟩, hcount⟩

theorem Half.bite {gom q : Nat} {sin : Skin} {got : Dict Nat Nat} (h : Half gom sin (rip 13 q) got weg)
    (hq : c.thug q = gom) (htext : Says c ham sin q) (hsaid : Said c (!our) log ham) {neb : Bait}
    (hn : weg.nys.lookup gom = some neb) : weg.olz.lookup gom = none ∧ Bite c our log gom neb := by
  rcases h.nys with hs | ⟨hs, -⟩
  · obtain rfl := Option.some.inj (hn.symm.trans hs)
    exact ⟨h.olz, ⟨q, ham, hq, htext, hsaid, rfl, h.blocks⟩, rfl⟩
  · rw [hs] at hn
    cases hn

/-- A fragment is acknowledged, or it is followed by the message that it is of. -/
theorem Collects.carp (hc : c.Lawful) (h : Collects c our log weg) (hpac : Carries c ham pac)
    (hsaid : Said c (!our) log ham) (hb : c.bite pac = some (.part fud))
    (hs : dineCarp kay fud weg = some (act, weg')) :
    Collects c our log weg' ∧
      ((∃ zol, act = .cock zol) ∨ ∃ sin q, act = .chew sin q ∧ Says c ham sin q) := by
  obtain ⟨sin, q, i, a, htext, hi, rfl⟩ := hpac.part hb
  obtain ⟨hframe, hgone⟩ := dineCarp_frame hs
  -- what is collected of other messages is as before
  have hothers : (∀ neb, weg'.nys.lookup (c.thug q) = some neb →
      weg'.olz.lookup (c.thug q) = none ∧ Bite c our log (c.thug q) neb) → Collects c our log weg' := by
    intro hthis gom neb hn
    by_cases hg : gom = c.thug q
    · subst hg
      exact hthis neb hn
    · obtain ⟨hnys, holz⟩ := hframe gom hg
      rw [holz]
      exact h gom neb (hnys ▸ hn)
  cases holz : weg.olz.lookup (c.thug q) with
  | some zol =>
      rw [dineCarp, holz] at hs
      cases hs
      exact ⟨h, .inl ⟨zol, rfl⟩⟩
  | none =>
      obtain ⟨got, hhalf⟩ : ∃ got, Half (c.thug q) sin (rip 13 q) got weg := by
        cases hn : weg.nys.lookup (c.thug q) with
        | none => exact ⟨∅, holz, .inr ⟨hn, rfl⟩, by simp⟩
        | some neb =>
            obtain ⟨-, ⟨q', ham', hq', htext', -, hlen, hblocks⟩, hcount⟩ := h _ neb hn
            obtain rfl : q' = q := hc.thug htext' htext hq'
            by_cases hsin : sin = neb.p
            · subst hsin
              refine ⟨neb.r.q, holz, .inl ?_, hblocks⟩
              rw [hn, ← hcount, ← hlen]
            · rw [dineCarp_skin holz hn (kins_ksin sin) hsin] at hs
              cases hs
      obtain ⟨act', weg'', hd, hcase⟩ := dineCarp_step hhalf kay hi
      obtain ⟨rfl, rfl⟩ : act' = act ∧ weg'' = weg' := by simpa [hs, eq_comm] using hd
      rcases hcase with ⟨-, rfl, hw⟩ | ⟨-, -, rfl, hw⟩ | ⟨-, -, rfl, -⟩
      · exact ⟨hothers fun neb hn => hw.bite rfl htext hsaid hn, .inl ⟨_, rfl⟩⟩
      · exact ⟨hothers fun neb hn => hw.bite rfl htext hsaid hn, .inl ⟨_, rfl⟩⟩
      · rw [can_rip] at hgone ⊢
        refine ⟨hothers fun neb hn => ?_, .inr ⟨sin, q, rfl, htext⟩⟩
        rw [hgone sin q rfl] at hn
        cases hn

end fragments

/-! ### Ships -/

/-- A packet in the pump is of a statement of this ship. -/
def Owns (c : Code δ) (our : Bool) (log : Diary) (gom : Soup) (pac : Nat) : Prop :=
  ∃ ham, Carries c ham pac ∧ Stated our log ham gom

/-- All that a ship keeps is in order. -/
structure Shipshape (c : Code δ) (our : Bool) (base : Diary) (s : Ship δ) : Prop where
  ho : Level c our base s.ho
  weg : Collects c our (logOf our base s.ho.bin) s.weg
  puz : Stowed c.flap (Owns c our (logOf our base s.ho.bin)) s.puz

section ships

variable {c : Code δ} {our : Bool} {now deep : Nat} {base log log' : Diary} {s s' : Ship δ} {ham : Meal}
  {la : La} {gom : Soup} {pac : Nat}

theorem Owns.mono (h : Owns c our log gom pac) (hle : log <:+ log') : Owns c our log' gom pac :=
  h.imp fun _ hham => hham.imp_right fun hs => hs.mono hle

theorem Owns.aired (h : Owns c our log gom pac) : Aired c our log pac :=
  h.imp fun _ hham => hham.imp_right Stated.said

/-- The streams went on. -/
theorem Shipshape.onward (h : Shipshape c our base s) {ho : Ho δ Nat} (ho' : Onward c our base s.ho ho) :
    Shipshape c our base { s with ho := ho } :=
  ⟨ho'.level, h.weg.mono ho'.grown, h.puz.mono fun _ _ hp => hp.mono ho'.grown⟩

theorem Shipshape.lift (h : Shipshape c our base s) {f : Ho δ Nat → Option (Ho δ Nat)}
    (hf : ∀ ho, f s.ho = some ho → Onward c our base s.ho ho) (hs : s.lift f = some s') :
    Shipshape c our base s' := by
  obtain ⟨ho, hho, hs⟩ := Option.bind_eq_some_iff.mp hs
  cases hs
  exact h.onward (hf ho hho)

/-- Something else is known of the friend. -/
theorem Shipshape.diz (h : Shipshape c our base s) (diz : δ) :
    Shipshape c our base { s with ho := { s.ho with diz := diz } } :=
  ⟨⟨h.ho.raz, h.ho.out, h.ho.clear, h.ho.told⟩, h.weg, h.puz⟩

theorem Shipshape.pump (h : Shipshape c our base s) {puz : Shed}
    (hp : Stowed c.flap (Owns c our (logOf our base s.ho.bin)) puz) :
    Shipshape c our base { s with puz := puz } :=
  ⟨h.ho, h.weg, hp⟩

theorem Shipshape.busk (h : Shipshape c our base s) {pax : List Nat}
    (hp : ∀ pac ∈ pax, ∃ gom, Owns c our (logOf our base s.ho.bin) gom pac) :
    Shipshape c our base (s.busk pax) := by
  have hair : ∀ pac ∈ packets (.ouzo pax), Aired c our (logOf our base s.ho.bin) pac := by
    intro pac hpac
    obtain ⟨gom, hg⟩ := hp pac hpac
    exact hg.aired
  exact h.onward (h.ho.mute rfl hair rfl rfl)

/-- A statement is noted when it is made. -/
theorem mem_logOf_wool {bin : List (Boon Nat)} {who : Bool} {cha : Path} {num : Nat} {ete : Bool} :
    (who, .wool cha num ete) ∈ logOf our base bin ↔ (who, .wool cha num ete) ∈ base := by
  rw [logOf, List.mem_append]
  refine or_iff_right ?_
  rw [List.mem_filterMap]
  rintro ⟨bun, -, hbun⟩
  cases bun <;> cases hbun

/-- A report. -/
theorem Level.report {ho : Ho δ Nat} (h : Level c our base ho) {bun : Boon Nat} {note : Note}
    (hnote : noted our bun = some (our, note)) (hpax : packets bun = [])
    (hmulk : ∀ cha num, note ≠ .mulk cha num) (hwool : ∀ cha num ete, note ≠ .wool cha num ete)
    (hearn : Earned (logOf our base ho.bin) (our, note)) :
    Onward c our base ho { ho with bin := bun :: ho.bin } := by
  have hlog : logOf our base (bun :: ho.bin) = (our, note) :: logOf our base ho.bin := by
    simp [logOf, hnote]
  have hle : logOf our base ho.bin <:+ (our, note) :: logOf our base ho.bin := List.suffix_cons _ _
  refine ⟨⟨fun cha => ?_, ?_, ?_, ?_⟩, hlog ▸ hle⟩
  · rw [hlog]
    exact (h.raz cha).mono hle (lastMulk_cons fun num he => hmulk cha num (Prod.mk.inj he).2)
  · rw [hlog]
    intro b hb pac hpac
    rcases List.mem_cons.mp hb with rfl | hb
    · rw [hpax] at hpac
      cases hpac
    · exact (h.out b hb pac hpac).mono hle
  · exact hlog ▸ h.clear.cons hwool
  · exact hlog ▸ h.told.cons hearn

theorem done_ho {cha : Path} {num : Nat} {hud : Option Noun} (hs : done cha num s = some (hud, s')) :
    s'.ho = s.ho ∧ s'.puz = s.puz ∧ s'.weg = s.weg := by
  obtain ⟨rol, -, hs⟩ := Option.bind_eq_some_iff.mp hs
  split at hs
  · cases hs
    exact ⟨rfl, rfl, rfl⟩
  · cases hs
    exact ⟨rfl, rfl, rfl⟩

/-- An acknowledged hash. Only the message of its packet is reported, and only if the packet was
the last. -/
theorem Shipshape.tick (h : Shipshape c our base s) {fap : Nat} {bun : Soup → Noun → Boon Nat}
    {note : Soup → Note} (hnote : ∀ gom hen, noted our (bun gom hen) = some (our, note gom))
    (hpax : ∀ gom hen, packets (bun gom hen) = [])
    (hmulk : ∀ gom cha num, note gom ≠ .mulk cha num)
    (hwool : ∀ gom cha num ete, note gom ≠ .wool cha num ete)
    (hearn : ∀ gom pac, lastOf s.puz fap = some gom → Owns c our (logOf our base s.ho.bin) gom pac →
      c.flap pac = fap → Earned (logOf our base s.ho.bin) (our, note gom))
    (hs : tick c now fap bun s = some s') : Shipshape c our base s' := by
  obtain ⟨⟨⟨gub, yop⟩, puz⟩, hb, hs⟩ := Option.bind_eq_some_iff.mp hs
  obtain ⟨hpuz, hyop, hgub⟩ := bick_inv h.puz hb
  have hown : ∀ pac ∈ yop, ∃ gom, Owns c our (logOf our base s.ho.bin) gom pac := by
    intro pac hpac
    obtain ⟨x, hx, rfl⟩ := hyop pac hpac
    exact ⟨x.2.1, h.puz.all x hx⟩
  have h₀ := h.pump hpuz
  dsimp only at hs
  cases gub with
  | none =>
      cases hs
      exact h₀.busk hown
  | some gom =>
      obtain ⟨⟨hud, s₂⟩, hdone, hs⟩ := Option.bind_eq_some_iff.mp hs
      obtain ⟨hho, hp, hw⟩ := done_ho hdone
      dsimp only at hho hp hw
      have h₂ : Shipshape c our base s₂ := by
        refine ⟨?_, ?_, ?_⟩
        · rw [hho]
          exact h₀.ho
        · rw [hho, hw]
          exact h₀.weg
        · rw [hho, hp]
          exact h₀.puz
      rw [← hho] at hearn hown
      cases hud with
      | none =>
          cases hs
          exact h₂.busk hown
      | some hen =>
          cases hs
          obtain ⟨hlast, x, hx, rfl, hflap⟩ := hgub gom rfl
          have hearned := hearn x.2.1 x.2.2 hlast (hho ▸ h.puz.all x hx) hflap
          have h₃ := h₂.ho.report (hnote _ hen) (hpax _ hen) (hmulk _) (hwool _) hearned
          refine (h₂.onward h₃).busk fun pac hpac => ?_
          obtain ⟨g, hg⟩ := hown pac hpac
          exact ⟨g, hg.mono h₃.grown⟩

/-- A `%buck`: the application acknowledged the message of its packet. -/
theorem Shipshape.tock (h : Shipshape c our base s) {cop : Coop} {fap cot : Nat}
    (hsaid : Said c (!our) (logOf our base s.ho.bin) (.buck cop fap cot))
    (hs : tock c our now cop fap s = some s') : Shipshape c our base s' := by
  refine h.tick (fun _ _ => rfl) (fun _ _ => rfl) (fun _ _ _ he => by cases he)
    (fun _ _ _ _ he => by cases he) ?_ hs
  rintro gom pac - ⟨ham, hpac, hst⟩ hflap hwool
  cases ham with
  | bund p cha num val =>
      obtain ⟨rfl, -⟩ := hst
      exact hsaid p cha num val pac hpac hflap
  | bond p cha num val =>
      obtain ⟨rfl, hfalse⟩ := hst
      exact absurd hfalse (h.ho.clear _ _ _ _ hwool)
  | back | buck | carp | fore => exact absurd hst id

/-- A `%back`, when it is not for the last packet of a `%bund` message. -/
theorem Shipshape.tuck (h : Shipshape c our base s) {kay : Cape} {fap : Nat}
    (hcare : ∀ gom, lastOf s.puz fap = some gom → (our, .wool gom.p gom.q true) ∉ base)
    (hs : tuck c our now kay fap s = some s') : Shipshape c our base s' := by
  refine h.tick (fun _ _ => rfl) (fun _ _ => rfl) (fun _ _ _ he => by cases he)
    (fun _ _ _ _ he => by cases he) ?_ hs
  intro gom pac hlast _ _ hwool
  exact absurd (mem_logOf_wool.mp hwool) (hcare gom hlast)

/-- Opening a message of the other ship gives the meal that it was made of, or nothing. -/
theorem Shipshape.chew (hc : c.Lawful) (h : Shipshape c our base s) {sin : Skin} {q : Nat}
    {dish : Dish} (htext : Says c ham sin q) (hsaid : Said c (!our) (logOf our base s.ho.bin) ham)
    (hs : chew c now la deep sin q s = some (dish, s')) :
    Shipshape c our base s' ∧ s'.ho.bin = s.ho.bin ∧ (∀ fap, lastOf s'.puz fap = lastOf s.puz fap) ∧
      (dish = .none ∨ ∃ aut, dish = .dine aut ham) := by
  cases deep with
  | zero => cases hs
  | succ deep =>
      rw [Ames.chew] at hs
      obtain ⟨⟨mal, diz⟩, heast, hs⟩ := Option.bind_eq_some_iff.mp hs
      have hbilk : ∀ d, Shipshape c our base { s with ho := { s.ho with diz := d }, puz := bilk now s.puz } :=
        fun d => (h.pump (bilk_stowed now h.puz)).diz d
      cases mal with
      | lost =>
          cases hs
          exact ⟨h, rfl, fun _ => rfl, .inl rfl⟩
      | junk =>
          cases hs
          exact ⟨hbilk _, rfl, fun _ => rfl, .inl rfl⟩
      | meal ham' =>
          obtain rfl := hc.east htext heast
          cases ham' with
          | carp => exact absurd hsaid (by rintro ⟨gom, hst⟩; exact hst)
          | back | buck | bond | bund | fore =>
              cases hs
              exact ⟨hbilk _, rfl, fun _ => rfl, .inr ⟨sin, rfl⟩⟩

theorem Shipshape.taste (hc : c.Lawful) (h : Shipshape c our base s) {kay : Cape} {ryn : Lane}
    {dish : Dish} (hpac : Carries c ham pac) (hsaid : Said c (!our) (logOf our base s.ho.bin) ham)
    (hs : taste c now deep kay ryn pac s = some (dish, s')) :
    Shipshape c our base s' ∧ s'.ho.bin = s.ho.bin ∧ (∀ fap, lastOf s'.puz fap = lastOf s.puz fap) ∧
      (dish = .none ∨ (∃ zol, dish = .cock zol) ∨ ∃ aut, dish = .dine aut ham) := by
  rw [Ames.taste] at hs
  split at hs
  · cases hs
    exact ⟨h, rfl, fun _ => rfl, .inl rfl⟩
  · next sin msg hb =>
    obtain ⟨hship, hbin, hlast, hdish⟩ := h.chew hc (hpac.whole hb) hsaid hs
    exact ⟨hship, hbin, hlast, hdish.imp_right .inr⟩
  · next fud hb =>
    obtain ⟨⟨act, weg⟩, hd, hs⟩ := Option.bind_eq_some_iff.mp hs
    obtain ⟨hweg, hact⟩ := h.weg.carp hc hpac hsaid hb hd
    have h₁ : Shipshape c our base { s with puz := bilk now s.puz, weg := weg } :=
      ⟨h.ho, hweg, bilk_stowed now h.puz⟩
    rcases hact with ⟨zol, rfl⟩ | ⟨sin, q, rfl, htext⟩
    · cases hs
      exact ⟨h₁, rfl, fun _ => rfl, .inr (.inl ⟨zol, rfl⟩)⟩
    · obtain ⟨hship, hbin, hlast, hdish⟩ := h₁.chew hc htext hsaid hs
      exact ⟨hship, hbin, hlast, hdish.imp_right .inr⟩

theorem Shipshape.finish (hc : c.Lawful) (h : Shipshape c our base s) {aut : Skin}
    (hs : finish c our la aut s = some s') :
    Shipshape c our base s' ∧ s'.puz = s.puz ∧ logOf our base s.ho.bin <:+ logOf our base s'.ho.bin := by
  rw [Ames.finish] at hs
  split at hs
  · obtain ⟨ho, hho, hs⟩ := Option.bind_eq_some_iff.mp hs
    cases hs
    have hcock := h.ho.cock hc hho
    exact ⟨h.onward hcock, rfl, hcock.grown⟩
  · cases hs
    exact ⟨h, rfl, List.suffix_refl _⟩

/-- A packet of the other ship. -/
theorem Shipshape.gnaw (hc : c.Lawful) (h : Shipshape c our base s) {kay : Cape} {ryn : Lane}
    (hair : Aired c (!our) (logOf our base s.ho.bin) pac)
    (hcare : ∀ p fap r, mealOf c now deep kay ryn pac s = some (.back p fap r) →
      ∀ gom, lastOf s.puz fap = some gom → (our, .wool gom.p gom.q true) ∉ base)
    (hs : gnaw c our now deep kay ryn pac s = some s') : Shipshape c our base s' := by
  obtain ⟨ham, hpac, hsaid⟩ := hair
  obtain ⟨⟨dish, s₁⟩, htaste, hs⟩ := Option.bind_eq_some_iff.mp hs
  obtain ⟨h₁, hbin, hlast, hdish⟩ := h.taste hc hpac hsaid htaste
  rw [← hbin] at hsaid
  rcases hdish with rfl | ⟨zol, rfl⟩ | ⟨aut, rfl⟩
  · cases hs
    exact h₁
  · exact h₁.lift (fun ho hho => h₁.ho.cock hc hho) hs
  · have hmeal : mealOf c now deep kay ryn pac s = some ham := by rw [mealOf, htaste]
    dsimp only at hs
    cases ham with
    | back p q r =>
        obtain ⟨s₂, hfin, hs⟩ := Option.bind_eq_some_iff.mp hs
        obtain ⟨h₂, hpuz, -⟩ := h₁.finish hc hfin
        refine h₂.tuck (fun gom hg => hcare p q r hmeal gom ?_) hs
        rw [← hlast, ← hpuz]
        exact hg
    | buck p q r =>
        obtain ⟨s₂, hfin, hs⟩ := Option.bind_eq_some_iff.mp hs
        obtain ⟨h₂, -, hgrown⟩ := h₁.finish hc hfin
        exact h₂.tock (hsaid.mono hgrown) hs
    | bond p cha num val =>
        obtain ⟨gom, rfl, hst⟩ := hsaid
        exact h₁.lift (fun ho hho => h₁.ho.dineBond hc rfl hpac hst hho) hs
    | bund p cha num val =>
        obtain ⟨gom, rfl, hst⟩ := hsaid
        exact h₁.lift (fun ho hho => h₁.ho.dineBund hc rfl hpac hst hho) hs
    | carp | fore =>
        cases hs
        exact h₁

/-- A statement. The diary has it already. -/
theorem Shipshape.wool (hc : c.Lawful) (h : Shipshape c our base s) {hen val : Noun} {cha : Path}
    {ete : Bool} (hnote : (our, .wool cha (rillOf s.ryl cha).sed ete) ∈ base)
    (hs : wool c our now hen cha val ete s = some s') : Shipshape c our base s' := by
  rw [Ames.wool] at hs
  obtain ⟨⟨wyv, diz⟩, hz, hs⟩ := Option.bind_eq_some_iff.mp hs
  have hown : ∀ pac ∈ wyv, Owns c our (logOf our base s.ho.bin) ⟨cha, (rillOf s.ryl cha).sed⟩ pac := by
    intro pac hpac
    refine ⟨_, wire_carries hc hz pac hpac, ?_⟩
    cases ete with
    | true => exact ⟨rfl, mem_logOf_wool.mpr hnote⟩
    | false => exact ⟨rfl, mem_logOf_wool.mpr hnote⟩
  obtain ⟨hpuz, hfeh⟩ := whap_stowed c.mug h.puz hown
  rw [← Option.some.inj hs]
  refine Shipshape.busk ?_ hfeh
  exact ⟨(h.diz diz).ho, h.weg, hpuz⟩

theorem Shipshape.thaw (h : Shipshape c our base s) (hs : thaw c now s = some s') :
    Shipshape c our base s' := by
  obtain ⟨⟨yem, puz⟩, hw, hs⟩ := Option.bind_eq_some_iff.mp hs
  obtain ⟨bom, -, hs⟩ := Option.bind_eq_some_iff.mp hs
  cases hs
  obtain ⟨hpuz, hyem⟩ := wack_stowed h.puz hw
  refine Shipshape.busk ?_ hyem
  exact ⟨(h.diz _).ho, h.weg, hpuz⟩

/-- More is in the diary, but no message that was passed on at this ship. -/
theorem Shipshape.extend (h : Shipshape c our log s.fresh) {new : Diary}
    (hnew : ∀ e ∈ new, ∀ cha num, e ≠ (our, .mulk cha num)) (hclear : Pure (new ++ log))
    (htold : Truthful (new ++ log)) : Shipshape c our (new ++ log) s.fresh := by
  have hle : log <:+ new ++ log := List.suffix_append _ _
  refine ⟨⟨fun cha => ?_, fun _ hb => absurd hb List.not_mem_nil, hclear, htold⟩, ?_, ?_⟩
  · exact (h.ho.raz cha).mono hle (lastMulk_append fun e he => hnew e he cha)
  · exact h.weg.mono hle
  · exact h.puz.mono fun _ _ hp => hp.mono hle

/-- After an event. -/
theorem Shipshape.fresh (h : Shipshape c our base s) :
    Shipshape c our (logOf our base s.ho.bin) s.fresh :=
  ⟨⟨h.ho.raz, fun _ hb => absurd hb List.not_mem_nil, h.ho.clear, h.ho.told⟩, h.weg, h.puz⟩

end ships

/-! ### Runs -/

/-- Both ships are in order, and so are the packets on the way. -/
structure Concord (c : Code δ) (p : Pair δ) : Prop where
  ship : ∀ our, Shipshape c our p.log (p.ship our).fresh
  air : ∀ our, ∀ pac ∈ p.air our, Aired c our p.log pac

theorem Pure.wool {our : Bool} {cha : Path} {num : Nat} {ete : Bool} {log : Diary} (h : Pure log)
    (hsame : ∀ n e, (our, .wool cha n e) ∈ log → e = ete) : Pure ((our, .wool cha num ete) :: log) := by
  intro who d n m ht hf
  rcases List.mem_cons.mp ht with he | ht'
  · rcases List.mem_cons.mp hf with he' | hf'
    · cases he
      cases he'
    · cases he
      exact Bool.false_ne_true (hsame m false hf')
  · rcases List.mem_cons.mp hf with he' | hf'
    · cases he'
      exact Bool.false_ne_true (hsame n true ht').symm
    · exact h who d n m ht' hf'

section runs

variable {c : Code δ} {deep : Nat} {p p' : Pair δ} {t : Turn δ} {s' : Ship δ}

/-- What is noted as an event begins. -/
theorem Concord.note (h : Concord c p) (hcare : careful c deep p t = true) :
    Shipshape c t.our (t.note (p.ship t.our) ++ p.log) (p.ship t.our).fresh := by
  have hs := h.ship t.our
  have hclear : Pure p.log := hs.ho.clear
  have htold : Truthful p.log := hs.ho.told
  obtain ⟨our, now, deed⟩ := t
  cases deed with
  | wool hen cha val ete =>
      show Shipshape c our ([(our, .wool cha (rillOf (p.ship our).ryl cha).sed ete)] ++ p.log) _
      refine hs.extend (by simp) (hclear.wool fun n e hm => ?_) (htold.cons trivial)
      have hall := List.all_eq_true.mp hcare _ hm
      exact of_decide_eq_true hall rfl rfl
  | rack cha cop =>
      show Shipshape c our ([(our, .rack cha cop)] ++ p.log) _
      exact hs.extend (by simp) (hclear.cons fun _ _ _ he => by cases he) (htold.cons trivial)
  | thaw | hear | drift => exact hs

/-- The handlers keep a ship in order. -/
theorem Concord.handle (hc : c.Lawful) (h : Concord c p) (hcare : careful c deep p t = true)
    (hsent : t.sent p = true) (hs : t.handle c deep (p.ship t.our).fresh = some s') :
    Shipshape c t.our (t.note (p.ship t.our) ++ p.log) s' := by
  have hnote := h.note hcare
  obtain ⟨our, now, deed⟩ := t
  cases deed with
  | wool hen cha val ete => exact hnote.wool hc List.mem_cons_self hs
  | rack cha cop =>
      refine hnote.lift (fun ho hho => hnote.ho.rack hc rfl (fun rum hrum => ?_) hho) hs
      have hdue : (((p.ship our).ho.raz.lookup cha).map fun rum => rum.mis.lookup rum.did).all
          Option.isSome = true := hcare
      rw [show (p.ship our).ho.raz.lookup cha = some rum from hrum] at hdue
      exact Option.isSome_iff_ne_none.mp hdue
  | thaw => exact hnote.thaw hs
  | hear kay ryn pac =>
      have hpac : pac ∈ p.air (!our) := by simpa [Turn.sent] using hsent
      refine hnote.gnaw hc (h.air (!our) pac hpac) (fun q fap r hmeal gom hlast hm => ?_) hs
      have hin : (our, .wool gom.p gom.q true) ∈ p.log := hm
      have hmeal : mealOf c now deep kay ryn pac (p.ship our).fresh = some (.back q fap r) := hmeal
      have hlast : lastOf (p.ship our).fresh.puz fap = some gom := hlast
      simp [careful, hmeal, hlast, hin] at hcare
  | drift diz =>
      cases hs
      exact hnote.diz diz

theorem noted_our {our : Bool} {bun : Boon Nat} {e : Bool × Note} (h : noted our bun = some e) :
    e.1 = our := by
  cases bun <;> cases h <;> rfl

theorem Concord.step (hc : c.Lawful) (h : Concord c p) (hcare : careful c deep p t = true)
    (hs : turn c deep t p = some p') : Concord c p' := by
  rw [turn] at hs
  split at hs
  · next hsent =>
    obtain ⟨s', hhandle, hs⟩ := Option.bind_eq_some_iff.mp hs
    cases hs
    have hship := h.handle hc hcare hsent hhandle
    have hle : p.log <:+ s'.ho.bin.filterMap (noted t.our) ++ (t.note (p.ship t.our) ++ p.log) :=
      (List.suffix_append _ _).trans (List.suffix_append _ _)
    refine ⟨fun our => ?_, fun our pac hpac => ?_⟩
    · dsimp only
      by_cases hour : our = t.our
      · subst hour
        rw [Function.update_self]
        exact hship.fresh
      · rw [Function.update_of_ne hour, ← List.append_assoc]
        have hfresh := hship.fresh
        rw [logOf, ← List.append_assoc] at hfresh
        refine (h.ship our).extend (fun e he cha num hmulk => hour ?_) hfresh.ho.clear hfresh.ho.told
        subst hmulk
        rcases List.mem_append.mp he with he | he
        · obtain ⟨bun, -, hbun⟩ := List.mem_filterMap.mp he
          exact noted_our hbun
        · obtain ⟨who, now, deed⟩ := t
          cases deed with
          | wool | rack =>
              rw [Turn.note, List.mem_singleton] at he
              cases he
          | thaw | hear | drift => cases he
    · dsimp only at hpac ⊢
      by_cases hour : our = t.our
      · subst hour
        rw [Function.update_self, List.mem_append, List.mem_flatMap] at hpac
        rcases hpac with ⟨bun, hbun, hpac⟩ | hpac
        · exact hship.ho.out bun hbun pac hpac
        · exact (h.air _ pac hpac).mono hle
      · rw [Function.update_of_ne hour] at hpac
        exact (h.air our pac hpac).mono hle
  · cases hs

theorem concord_start (c : Code δ) (diz : Bool → δ) : Concord c (Pair.start diz) := by
  refine ⟨fun our => ⟨⟨?_, ?_, ?_, ?_⟩, ?_, ahoy_stowed⟩, fun our pac hpac => absurd hpac List.not_mem_nil⟩
  · exact fun cha => booked_bunt
  · exact fun bun hbun => absurd hbun List.not_mem_nil
  · exact fun who cha n m hm => absurd hm List.not_mem_nil
  · intro who cha num post pre _
    constructor
    · intro cop he
      cases post <;> cases he
    · intro kay he
      cases post <;> cases he
  · intro gom neb hn
    cases hn

end runs

/-- In every run in which no channel has both kinds of messages, the application acknowledges only
what is there, and the last packet of a `%bund` message is never acknowledged with `%back`,
whatever is reported of such a message was acknowledged by the application before, with this
outcome. -/
theorem ack_truthful (c : Code δ) (hc : c.Lawful) (deep : Nat) (diz : Bool → δ) (p : Pair δ)
    (h : Reachable (Pair.start diz) (turn c deep) (fun p t => careful c deep p t = true) p) :
    Truthful p.log := by
  have hk : Concord c p :=
    h.invariant (concord_start c diz) fun _ _ _ hp hcare hs => hp.step hc hcare hs
  exact (hk.ship true).ho.told

/-! ### A message of two packets -/

/-- A code for one message of two blocks, and for acknowledgments that are good. -/
def tinyText : Meal → Option (Skin × Nat)
  | .bund 0 [] 0 (.atom 0) => some (.open, 2 ^ 2 ^ 13)
  | .back .good dam 0 => some (.none, dam + 1)
  | .buck none dam 0 => some (.fast, dam + 1)
  | _ => none

def tinyMeal : Skin → Nat → Option Meal
  | .open, _ => some (.bund 0 [] 0 (.atom 0))
  | .none, dam + 1 => some (.back .good dam 0)
  | .fast, dam + 1 => some (.buck none dam 0)
  | _, _ => none

theorem tinyMeal_text {ham : Meal} {sin : Skin} {q : Nat} (h : tinyText ham = some (sin, q)) :
    tinyMeal sin q = some ham := by
  unfold tinyText at h
  split at h
  all_goals cases h
  all_goals rfl

def tinySpit : Pack → Nat
  | .whole sin q => Nat.pair (ksin sin) q
  | .part ⟨p, q, r, s, t⟩ => Nat.pair 4 (Nat.pair p (Nat.pair q (Nat.pair r (Nat.pair s t))))

def tinyBite (n : Nat) : Option Pack :=
  let (tay, p) := Nat.unpair n
  if tay = 4 then
    let (p, q) := Nat.unpair p
    let (q, r) := Nat.unpair q
    let (r, s) := Nat.unpair r
    let (s, t) := Nat.unpair s
    some (.part ⟨p, q, r, s, t⟩)
  else (kins tay).map fun sin => .whole sin p

theorem tinyBite_spit (p : Pack) : tinyBite (tinySpit p) = some p := by
  cases p with
  | whole sin q => cases sin <;> simp [tinySpit, tinyBite, ksin, kins]
  | part ham => simp [tinySpit, tinyBite]

def tinyThug (k q : Nat) : Nat := if q = k then 0 else q + 1

theorem tinyThug_inj {k q q' : Nat} (h : tinyThug k q = tinyThug k q') : q = q' := by
  unfold tinyThug at h
  split at h <;> split at h <;> omega

def tinyCode : Code Unit where
  wisp ham d := (tinyText ham).map fun msg => (msg, d)
  east sin q d := (tinyMeal sin q).map fun ham => (.meal ham, d)
  spit our p := Nat.pair our.toNat (tinySpit p)
  bite n := tinyBite (Nat.unpair n).2
  flap n := n
  thug q := tinyThug (2 ^ 2 ^ 13) q
  wast _ d := d
  pode _ d := d
  clon _ := 0
  life _ := 0
  mug
    | .atom a => 1 - a
    | .cell (.atom a) _ => a
    | .cell _ _ => 0

theorem tinyCode_wisp {ham : Meal} {sin : Skin} {q : Nat} (h : Says tinyCode ham sin q) :
    tinyMeal sin q = some ham := by
  obtain ⟨d, r, h⟩ := h
  obtain ⟨_, ht, he⟩ := Option.map_eq_some_iff.mp h
  cases he
  exact tinyMeal_text ht

theorem tinyCode_lawful : tinyCode.Lawful where
  bite _ _ _ := by simp only [tinyCode, Nat.unpair_pair, tinyBite_spit]
  flap _ _ h := h
  thug _ _ h := tinyThug_inj h
  wisp h h' := Option.some.inj ((tinyCode_wisp h').symm.trans (tinyCode_wisp h))
  east h h' := by
    obtain ⟨_, ht, he⟩ := Option.map_eq_some_iff.mp h'
    cases he
    exact Option.some.inj (ht.symm.trans (tinyCode_wisp h))

/-- The packets of the message, and those that acknowledge a packet. -/
def tinyPart (i : Nat) : Nat := tinyCode.spit false (.part ⟨1, i, 2, 0, i⟩)

def tinyBack (pac : Nat) : Nat := tinyCode.spit true (.whole .none (pac + 1))

def tinyBuck (pac : Nat) : Nat := tinyCode.spit true (.whole .fast (pac + 1))

def tinyHear (our : Bool) (pac : Nat) : Turn Unit := ⟨our, 0, .hear .good (.atom 0) pac⟩

def tinyWool : Turn Unit := ⟨false, 0, .wool (.atom 0) [] (.atom 0) true⟩

def tinySoul (i : Nat) : Entry := (i, ⟨⟨[], 0⟩, 1, true, 0, tinyPart i⟩)

/-- The ship that sent the message. -/
def tinyShip : Ship Unit where
  ho := ⟨(), ∅, [.ouzo [tinyPart 0, tinyPart 1]]⟩
  puz := { ahoy with
    rtn := some (4 * second)
    nus := 2
    nif := 2
    diq := (ahoy.diq.insert (tinyPart 0) 0).insert (tinyPart 1) 1
    pyz := ahoy.pyz.insert ⟨[], 0⟩ 2
    puq := .node (tinySoul 1) .nil (.node (tinySoul 0) .nil .nil) }
  ryl := (∅ : Dict Path Rill).insert [] ⟨1, Rill.bunt.san.insert 0 (.atom 0)⟩
  weg := ⟨∅, ∅⟩

def tinySent : Pair Unit where
  ship := Function.update (Pair.start fun _ => ()).ship false tinyShip
  air := Function.update (fun _ => []) false [tinyPart 0, tinyPart 1]
  log := [(false, .wool [] 0 true)]

theorem turn_tinyWool : turn tinyCode 2 tinyWool (Pair.start fun _ => ()) = some tinySent := by
  have hz : (tinyCode.wire false).zuul (.bund 0 [] 0 (.atom 0)) () =
      some ([tinyPart 0, tinyPart 1], ()) := by decide +kernel
  have hvor : (entryPrior tinyCode.mug).vor (0, ⟨⟨[], 0⟩, 0, false, epoch, tinyPart 0⟩)
      (1, ⟨⟨[], 0⟩, 0, false, epoch, tinyPart 1⟩) = false := by decide +kernel
  have hw : whapLoop tinyCode.mug tinyCode.flap ⟨[], 0⟩ [tinyPart 0, tinyPart 1]
      { ahoy with pyz := ahoy.pyz.insert ⟨[], 0⟩ 2 } = { ahoy with
        nus := 2
        diq := (ahoy.diq.insert (tinyPart 0) 0).insert (tinyPart 1) 1
        pyz := ahoy.pyz.insert ⟨[], 0⟩ 2
        puq := .node (1, ⟨⟨[], 0⟩, 0, false, epoch, tinyPart 1⟩) .nil
          (.node (0, ⟨⟨[], 0⟩, 0, false, epoch, tinyPart 0⟩) .nil .nil) } := by
    simp only [whapLoop, ← Qeu.put_two hvor]
    rfl
  have hwind : wind tinyCode false 0 ⟨[], 0⟩ (.bund 0 [] 0 (.atom 0))
      { (Pair.start fun _ => ()).ship false with ryl := tinyShip.ryl } = some tinyShip := by
    rw [wind]
    simp only [Pair.start, hz, Option.bind_eq_bind, Option.bind_some, whap, List.length_cons,
      List.length_nil, Nat.zero_add, Nat.reduceAdd, hw]
    rfl
  have hwool : tinyWool.handle tinyCode 2 ((Pair.start fun _ => ()).ship false).fresh = some tinyShip := by
    rw [← hwind]
    rfl
  have hsent : tinyWool.sent (Pair.start fun _ => ()) = true := rfl
  rw [turn, if_pos hsent, show tinyWool.our = false from rfl, hwool]
  rfl

/-- The application says yes, and the acknowledgments come in the right order. -/
def tinyAcks : List (Turn Unit) :=
  [tinyHear true (tinyPart 0), tinyHear true (tinyPart 1), ⟨true, 0, .rack [] none⟩,
    tinyHear false (tinyBack (tinyPart 0)), tinyHear false (tinyBuck (tinyPart 1))]

theorem ack_truthful_two :
    ∃ p, Reachable (Pair.start fun _ => ()) (turn tinyCode 2)
        (fun p t => careful tinyCode 2 p t = true) p ∧
      p.log.contains (false, .cake [] 0 none) = true ∧ Truthful p.log := by
  have hfirst : guarded (careful tinyCode 2) (turn tinyCode 2) tinyWool (Pair.start fun _ => ()) =
      some tinySent := by
    rw [guarded, if_pos (by decide +kernel), turn_tinyWool]
  have hrun : (runs (guarded (careful tinyCode 2) (turn tinyCode 2)) (tinyWool :: tinyAcks)
      (Pair.start fun _ => ())).any (fun p => p.log.contains (false, .cake [] 0 none)) = true := by
    rw [runs, hfirst, Option.bind_some]
    decide +kernel
  obtain ⟨p, hp, hlog⟩ := Reachable.of_guarded (fun _ _ h => h) _ hrun
  exact ⟨p, hp, hlog, ack_truthful tinyCode tinyCode_lawful 2 _ p hp⟩

/-- The packet that completes the message comes again, and is acknowledged like the other. -/
def tinyTwice : List (Turn Unit) :=
  [tinyHear true (tinyPart 0), tinyHear true (tinyPart 1), tinyHear true (tinyPart 1),
    tinyHear false (tinyBack (tinyPart 0)), tinyHear false (tinyBack (tinyPart 1))]

/-- So the message is reported, and the application has not said a word. -/
theorem ack_untruthful :
    tinyCode.Lawful ∧ ∃ p, runs (turn tinyCode 2) (tinyWool :: tinyTwice) (Pair.start fun _ => ()) =
      some p ∧ ¬Truthful p.log := by
  have hlog : (runs (turn tinyCode 2) tinyTwice tinySent).map Pair.log =
      some [(false, .coke [] 0 .good), (true, .mulk [] 0), (false, .wool [] 0 true)] := by
    decide +kernel
  obtain ⟨p, hp, hlog⟩ := Option.map_eq_some_iff.mp hlog
  refine ⟨tinyCode_lawful, p, ?_, fun h => ?_⟩
  · rw [runs, turn_tinyWool]
    exact hp
  · rw [hlog] at h
    obtain ⟨cop, ⟨post, pre, he, -⟩, -⟩ :=
      (h false [] 0 [] [(true, .mulk [] 0), (false, .wool [] 0 true)] (by simp)).2 .good rfl
    have hm : (!false, Note.rack [] cop) ∈ post ++ (!false, .rack [] cop) :: pre := by simp
    rw [← he] at hm
    simp at hm

end Vere.Ames
