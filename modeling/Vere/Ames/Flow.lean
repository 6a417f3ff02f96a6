import Mathlib.Data.Finmap
import Vere.Noun

/-!
# Vere.Ames.Flow

Streams of messages between two ships (`++ho` of `ames.hoon`, section 4aG): a ship numbers the
messages it sends on a channel, and the other takes them in that order.

There are two kinds of messages. A `%bond` is acknowledged by the network, with `%back`, when it
is passed on (`dear`, `coot`, `cock`). A `%bund` is acknowledged end to end, with `%buck`, when
the application it was passed to says so through `rack` (`deer`, `coat`, `cook`, `cans`). Both
keep what came too early in the same record of the channel, the `Race`.

The functions of the source are arms of a core that holds the whole state of the friend. `Ho`
has the parts of it that they touch. How a meal becomes packets is a parameter, `Wire`. A crash
is `none`: the event is undone, and nothing of it is kept.
-/

namespace Vere.Ames

/-- A finite map. -/
abbrev Dict (α β : Type) := Finmap fun _ : α => β

/-- `++path`: like unix path. -/
abbrev Path := List Nat

/-- `++lane`: packet route. -/
abbrev Lane := Noun

/-- `++ares`: possible error. -/
abbrev Ares := Noun

/-- `++coop`: e2e ack. No error is a yes. -/
abbrev Coop := Option Ares

/-- `++cape`: end-to-end result. -/
inductive Cape
  | good
  | dead
  deriving DecidableEq, Repr

/-- `++meal`: payload. -/
inductive Meal
  | back (p : Cape) (q r : Nat)
  | buck (p : Coop) (q r : Nat)
  | bond (p : Nat) (q : Path) (r : Nat) (s : Noun)
  | bund (p : Nat) (q : Path) (r : Nat) (s : Noun)
  | carp (p q r s t : Nat)
  | fore (p : Nat) (q : Option Lane) (r : Nat)
  deriving DecidableEq

/-- What is kept of a message that cannot be passed on yet: how it was heard, the route, the hash
of the packet and the payload. -/
structure Miss where
  p : Cape
  q : Lane
  r : Nat
  s : Option Noun

/-- `++race`: inbound stream. -/
structure Race where
  /-- Filled sequence. -/
  did : Nat
  /-- Not processing. -/
  dod : Bool
  /-- Nacks. -/
  bum : Dict Nat Ares
  /-- Misordered. -/
  mis : Dict Nat Miss

/-- `*race`. -/
def Race.bunt : Race := ⟨0, true, ∅, ∅⟩

/-- `++rill`: outbound stream. -/
structure Rill where
  /-- Sent. -/
  sed : Nat
  /-- Outstanding. -/
  san : Dict Nat Noun

/-- `*rill`. -/
def Rill.bunt : Rill := ⟨0, ∅⟩

/-- `++boon`: what comes of an event. A `%ouzo` is kept as all the packets that are sent in one
go; those of an acknowledgment come with the meal that they encode. The lives that a message is
passed on with are `p` and `q`. -/
inductive Boon (ρ : Type)
  | cake (p q : Nat) (cha : Path) (num : Nat) (cop : Coop) (hen : Noun)
  | coke (p q : Nat) (cha : Path) (num : Nat) (kay : Cape) (hen : Noun)
  | milk (p q : Nat) (cha : Path) (num : Nat) (val : Noun)
  | mulk (p q : Nat) (cha : Path) (num : Nat) (val : Noun)
  | ouzo (pax : List ρ)
  | tell (ham : Meal) (pax : List ρ)

/-- What the streams need to know of the friend, whose state is `δ`, and of the encoding. -/
structure Wire (δ ρ : Type) where
  /-- `zuul` of `++lax`: encode message. -/
  zuul : Meal → δ → Option (List ρ × δ)
  /-- `wast` of `++lax`: set route. -/
  wast : Lane → δ → δ
  /-- `clon` of `++lax`: the life of the friend. -/
  clon : δ → Nat
  /-- `p:sen:gus`: our life. -/
  life : Nat

/-- The state of a friend, `++ho`. -/
structure Ho (δ ρ : Type) where
  diz : δ
  raz : Dict Path Race
  bin : List (Boon ρ)

/-- The packet at hand, `++la`. -/
structure La where
  kay : Cape
  ryn : Lane
  dam : Nat

variable {δ ρ : Type}

/-! ### Acknowledgment by the network -/

/-- `cock`: acknowledgment. -/
def cock (w : Wire δ ρ) (la : La) (ho : Ho δ ρ) : Option (Ho δ ρ) := do
  let (pax, diz) ← w.zuul (.back la.kay la.dam 0) ho.diz
  return { ho with diz := w.wast la.ryn diz, bin := .tell (.back la.kay la.dam 0) pax :: ho.bin }

theorem card_erase_lt {α β : Type} [DecidableEq α] {m : Dict α β} {k : α} {v : β}
    (h : m.lookup k = some v) : (m.erase k).keys.card < m.keys.card := by
  rw [Finmap.keys_erase]
  exact Finset.card_erase_lt_of_mem (Finmap.mem_keys.mpr (Finmap.mem_of_lookup_eq_some h))

theorem lookup_insert_eq {α β : Type} [DecidableEq α] (m : Dict α β) (k n : α) (v : β) :
    (m.insert k v).lookup n = if n = k then some v else m.lookup n := by
  by_cases h : n = k
  · subst h
    rw [if_pos rfl, Finmap.lookup_insert]
  · rw [if_neg h, Finmap.lookup_insert_of_ne _ h]

theorem lookup_erase_eq {α β : Type} [DecidableEq α] (m : Dict α β) (k n : α) :
    (m.erase k).lookup n = if n = k then none else m.lookup n := by
  by_cases h : n = k
  · subst h
    rw [if_pos rfl, Finmap.lookup_erase]
  · rw [if_neg h, Finmap.lookup_erase_ne h]

/-- `coot`: update input race. -/
def coot (w : Wire δ ρ) (la : La) (cha : Path) (rum : Race) (ho : Ho δ ρ) : Option (Ho δ ρ) :=
  match _h : rum.mis.lookup rum.did with
  | none => some { ho with raz := ho.raz.insert cha rum }
  | some cun => do
      let la := { la with kay := cun.p, dam := cun.r }
      let ho ← cock w la ho
      let ho ←
        if cun.p = .good then
          match cun.s with
          | none => none
          | some val =>
              some { ho with bin := .milk w.life (w.clon ho.diz) cha rum.did val :: ho.bin }
        else some ho
      coot w la cha { rum with mis := rum.mis.erase rum.did, did := rum.did + 1 } ho
termination_by rum.mis.keys.card
decreasing_by exact card_erase_lt _h

/-- The channel, with its default. -/
def raceOf (raz : Dict Path Race) (cha : Path) : Race := (raz.lookup cha).getD .bunt

/-- `dear`: interpret message. -/
def dear (w : Wire δ ρ) (la : La) (cha : Path) (num : Nat) (dut : Option Noun) (ho : Ho δ ρ) :
    Option (Ho δ ρ) :=
  let rum := raceOf ho.raz cha
  -- always ack a dup
  if num < rum.did then cock w la ho
  else coot w la cha { rum with mis := rum.mis.insert num ⟨la.kay, la.ryn, la.dam, dut⟩ } ho

/-- The payload of a packet, as it was heard. -/
def heard (kay : Cape) (val : Noun) : Option Noun :=
  match kay with
  | .dead => none
  | .good => some val

/-- `dine` of a `%bond`. -/
def dineBond (w : Wire δ ρ) (la : La) (p : Nat) (cha : Path) (num : Nat) (val : Noun)
    (ho : Ho δ ρ) : Option (Ho δ ρ) :=
  if w.life = p then dear w la cha num (heard la.kay val) ho else none

/-! ### Acknowledgment end to end -/

/-- `coat`: update input race. -/
def coat (w : Wire δ ρ) (cha : Path) (rum : Race) (ho : Ho δ ρ) : Option (Ho δ ρ) :=
  match rum.mis.lookup rum.did with
  | none => some { ho with raz := ho.raz.insert cha rum }
  | some cun =>
      if cun.p = .good then
        match cun.s with
        | none => none
        | some val =>
            some { ho with
              raz := ho.raz.insert cha { rum with dod := false }
              bin := .mulk w.life (w.clon ho.diz) cha rum.did val :: ho.bin }
      else some ho

/-- The nacks of a channel after the outcome of the number `did`. -/
def Race.note (rum : Race) : Coop → Dict Nat Ares
  | none => rum.bum
  | some res => rum.bum.insert rum.did res

/-- `cook`: acknowledgment. -/
def cook (w : Wire δ ρ) (cop : Coop) (cha : Path) (ram : Option (Lane × Nat)) (ho : Ho δ ρ) :
    Option (Ho δ ρ) := do
  let rum ← ho.raz.lookup cha
  match rum.mis.lookup rum.did, ram with
  | none, none => some ho
  | _, some (ryn, dam) => do
      let (pax, diz) ← w.zuul (.buck cop dam 0) ho.diz
      return { ho with diz := w.wast ryn diz, bin := .tell (.buck cop dam 0) pax :: ho.bin }
  | some lat, none => do
      let (pax, diz) ← w.zuul (.buck cop lat.r 0) ho.diz
      return { ho with
        raz := ho.raz.insert cha { rum with dod := true, bum := rum.note cop }
        diz := w.wast lat.q diz
        bin := .tell (.buck cop lat.r 0) pax :: ho.bin }

/-- `cans`. -/
def cans (w : Wire δ ρ) (cha : Path) (ho : Ho δ ρ) : Option (Ho δ ρ) := do
  let rum ← ho.raz.lookup cha
  coat w cha { rum with did := rum.did + 1, mis := rum.mis.erase rum.did } ho

/-- `rack` of `++am`: e2e ack. -/
def rack (w : Wire δ ρ) (cha : Path) (cop : Coop) (ho : Ho δ ρ) : Option (Ho δ ρ) := do
  cans w cha (← cook w cop cha none ho)

/-- `deer`: interpret message. -/
def deer (w : Wire δ ρ) (la : La) (cha : Path) (num : Nat) (dut : Option Noun) (ho : Ho δ ρ) :
    Option (Ho δ ρ) :=
  let rum := raceOf ho.raz cha
  -- always ack a dup
  if num < rum.did then cook w (rum.bum.lookup num) cha (some (la.ryn, la.dam)) ho
  else
    let rum := { rum with mis := rum.mis.insert num ⟨la.kay, la.ryn, la.dam, dut⟩ }
    if rum.dod then coat w cha rum ho else some { ho with raz := ho.raz.insert cha rum }

/-- `dine` of a `%bund`. -/
def dineBund (w : Wire δ ρ) (la : La) (p : Nat) (cha : Path) (num : Nat) (val : Noun)
    (ho : Ho δ ρ) : Option (Ho δ ρ) :=
  if w.life = p then deer w la cha num (heard la.kay val) ho else none

end Vere.Ames
