import Vere.Ames.Carp
import Vere.Ames.Pump
import Vere.Lib.Reach

/-!
# Vere.Ames.Ship

Two ships over a network (`++am` of `ames.hoon`, section 4aG).

A `Ship` is the whole of what one ship keeps of the other: the streams in both directions, the
packet pump and the fragments. `wool` sends a statement, `gnaw` takes a packet, `rack` is the
acknowledgment of the application, `thaw` the timeout. A packet is opened by `chew`, which stops
at a `Dish`: nothing, a fragment that is acknowledged, or a meal for `dine`.

The network is the packets that each ship sent so far. It may deliver any of them, as often as it
likes and in any order. A crash undoes the event. The texts to the user (`%wine`) are left out,
and so is the relaying of packets for others (`%fore`), which touches no stream.
-/

namespace Vere.Ames

open Vere.Hoon Vere.Lib

/-- What comes of opening a message: the key is not known, it is no meal, or it is one. -/
inductive Mail
  | lost
  | junk
  | meal (ham : Meal)

/-- How messages and packets are encoded, and what else the engine asks of the core of a friend.
What is known of the friend, with our own keys, is in `δ`. -/
structure Code (δ : Type) where
  /-- `wisp` of `++zuul`: generate message. -/
  wisp : Meal → δ → Option ((Skin × Nat) × δ)
  /-- `east` of `++chew`: open a message. -/
  east : Skin → Nat → δ → Option (Mail × δ)
  /-- `++spit`: cake to packet, with the address of the ship that sends it. -/
  spit : Bool → Pack → Nat
  /-- `++bite`: packet to cake. -/
  bite : Nat → Option Pack
  /-- `shaf %flap`. -/
  flap : Nat → Nat
  /-- `shaf %thug`. -/
  thug : Nat → Nat
  wast : Lane → δ → δ
  pode : Nat → δ → δ
  clon : δ → Nat
  life : Bool → Nat
  mug : Noun → Nat

variable {δ : Type}

/-- `zuul`: encode message. -/
def Code.wire (c : Code δ) (our : Bool) : Wire δ Nat where
  zuul ham diz := do
    let ((sin, q), diz) ← c.wisp ham diz
    let pax ← weft c.thug sin q
    return (pax.map (c.spit our), diz)
  wast := c.wast
  clon := c.clon
  life := c.life our

/-- `++bath` and the rest of `++ho`. -/
structure Ship (δ : Type) where
  ho : Ho δ Nat
  puz : Shed
  ryl : Dict Path Rill
  weg : Corn

/-- An operation on the streams. -/
def Ship.lift (f : Ho δ Nat → Option (Ho δ Nat)) (s : Ship δ) : Option (Ship δ) := do
  return { s with ho := ← f s.ho }

/-- One boon more. -/
def Ship.emit (bun : Boon Nat) (s : Ship δ) : Ship δ :=
  { s with ho := { s.ho with bin := bun :: s.ho.bin } }

/-- `busk`: send packets. -/
def Ship.busk (pax : List Nat) (s : Ship δ) : Ship δ := s.emit (.ouzo pax)

section handlers

variable (c : Code δ) (our : Bool) (now : Nat)

/-! ### Sending -/

/-- `wind`. -/
def wind (gom : Soup) (ham : Meal) (s : Ship δ) : Option (Ship δ) := do
  let (wyv, diz) ← (c.wire our).zuul ham s.ho.diz
  let (feh, puz) := whap c.mug c.flap now gom wyv s.puz
  return { s with ho := { s.ho with diz := diz }, puz := puz }.busk feh

/-- The outbound stream of a channel, with its default. -/
def rillOf (ryl : Dict Path Rill) (cha : Path) : Rill := (ryl.lookup cha).getD .bunt

/-- `wool`: send a statement. -/
def wool (hen : Noun) (cha : Path) (val : Noun) (ete : Bool) (s : Ship δ) : Option (Ship δ) :=
  let rol := rillOf s.ryl cha
  let sex := rol.sed
  let s := { s with ryl := s.ryl.insert cha ⟨rol.sed + 1, rol.san.insert sex hen⟩ }
  let cov := c.clon s.ho.diz
  wind c our now ⟨cha, sex⟩ (if ete then .bund cov cha sex val else .bond cov cha sex val) s

/-! ### Acknowledgment -/

/-- `done`: complete outgoing. -/
def done (cha : Path) (num : Nat) (s : Ship δ) : Option (Option Noun × Ship δ) := do
  let rol ← s.ryl.lookup cha
  match rol.san.lookup num with
  | none => some (none, s)
  | some rix =>
      some (some rix, { s with ryl := s.ryl.insert cha { rol with san := rol.san.erase num } })

/-- What `tock` and `tuck` share: ack by hash, and report the message that is complete. -/
def tick (fap : Nat) (bun : Soup → Noun → Boon Nat) (s : Ship δ) : Option (Ship δ) := do
  let ((gub, yop), puz) ← bick c.mug now fap s.puz
  let s := { s with puz := puz }
  let s ←
    match gub with
    | none => some s
    | some gom => do
        let (hud, s) ← done gom.p gom.q s
        match hud with
        | none => some s
        | some hen => some (s.emit (bun gom hen))
  return s.busk yop

/-- `tock`: e2e ack by hash. -/
def tock (cop : Coop) (fap : Nat) (s : Ship δ) : Option (Ship δ) :=
  tick c now fap
    (fun gom hen => .cake (c.life our) (c.clon s.ho.diz) gom.p gom.q cop hen) s

/-- `tuck`: ack by hash. -/
def tuck (kay : Cape) (fap : Nat) (s : Ship δ) : Option (Ship δ) :=
  tick c now fap
    (fun gom hen => .coke (c.life our) (c.clon s.ho.diz) gom.p gom.q kay hen) s

/-! ### Hearing -/

/-- What a packet comes to: nothing, a fragment that is acknowledged, or a meal, and how it was
encoded. -/
inductive Dish
  | none
  | cock (kay : Cape)
  | dine (aut : Skin) (ham : Meal)

/-- `chew`, with `chow` and the `%carp` of `dine`: receive. A fragment that completes a message
is followed by the message, `deep` times at most. -/
def chew (la : La) : Nat → Skin → Nat → Ship δ → Option (Dish × Ship δ)
  | 0, _, _, _ => none
  | deep + 1, sin, msg, s => do
    let (mal, diz) ← c.east sin msg s.ho.diz
    match mal with
    | .lost => some (.none, s)
    | .junk => some (.none, { s with ho := { s.ho with diz := diz }, puz := bilk now s.puz })
    | .meal ham =>
      let diz := if sin = .none then diz else c.wast la.ryn diz
      let s := { s with ho := { s.ho with diz := diz }, puz := bilk now s.puz }
      match ham with
      | .carp p q r t u => do
        let (act, weg) ← dineCarp la.kay ⟨p, q, r, t, u⟩ s.weg
        match act with
        | .cock kay => some (.cock kay, { s with weg := weg })
        | .chew sin msg => chew la deep sin msg { s with weg := weg }
      | ham => some (.dine sin ham, s)

/-- Finish key exchange: an acknowledgment in a `%full` message is acknowledged. -/
def finish (la : La) (aut : Skin) (s : Ship δ) : Option (Ship δ) :=
  if aut = .full then s.lift (cock (c.wire our) la) else some s

/-- `dine`: interpret meal. -/
def dine (la : La) (aut : Skin) (ham : Meal) (s : Ship δ) : Option (Ship δ) :=
  match ham with
  | .back p q _ => (finish c our la aut s).bind (tuck c our now p q)
  | .buck p q _ => (finish c our la aut s).bind (tock c our now p q)
  | .bond p q r t => s.lift (dineBond (c.wire our) la p q r t)
  | .bund p q r t => s.lift (dineBund (c.wire our) la p q r t)
  -- fragments were dealt with in `chew`, and other ships' packets leave the streams alone
  | .carp .. => some s
  | .fore .. => some s

/-- The packet at hand. -/
def laOf (kay : Cape) (ryn : Lane) (pac : Nat) : La := ⟨kay, ryn, c.flap pac⟩

/-- Opening a packet. -/
def taste (deep : Nat) (kay : Cape) (ryn : Lane) (pac : Nat) (s : Ship δ) :
    Option (Dish × Ship δ) :=
  match c.bite pac with
  | none => some (.none, s)
  | some (.whole sin msg) => chew c now (laOf c kay ryn pac) deep sin msg s
  | some (.part fud) => do
      let s := { s with puz := bilk now s.puz }
      let (act, weg) ← dineCarp kay fud s.weg
      match act with
      | .cock kay => some (.cock kay, { s with weg := weg })
      | .chew sin msg => chew c now (laOf c kay ryn pac) deep sin msg { s with weg := weg }

/-- `gnaw`: process packet. -/
def gnaw (deep : Nat) (kay : Cape) (ryn : Lane) (pac : Nat) (s : Ship δ) : Option (Ship δ) := do
  let (dish, s) ← taste c now deep kay ryn pac s
  let la := laOf c kay ryn pac
  match dish with
  | .none => some s
  | .cock kay => s.lift (cock (c.wire our) { la with kay := kay })
  | .dine aut ham => dine c our now la aut ham s

/-! ### Timeout -/

/-- `boom`: address timeout. -/
def boom (s : Shed) : Option Bool :=
  match s.rue with
  | none => some true
  | some rue => (sub now rue).map fun gap => decide (60 * second ≤ gap)

/-- `thaw`: wakeup bomb. -/
def thaw (s : Ship δ) : Option (Ship δ) := do
  let (yem, puz) ← wack now s.puz
  let bom ← boom now puz
  let diz := if bom then c.pode now s.ho.diz else s.ho.diz
  return { s with ho := { s.ho with diz := diz }, puz := puz }.busk yem

end handlers

/-! ### The two ships -/

/-- What a ship does: send a statement, pass on an acknowledgment of the application, look at the
clock, or hear a packet. What it knows of the other may change in between. -/
inductive Doing (δ : Type)
  | wool (hen : Noun) (cha : Path) (val : Noun) (ete : Bool)
  | rack (cha : Path) (cop : Coop)
  | thaw
  | hear (kay : Cape) (ryn : Lane) (pac : Nat)
  | drift (diz : δ)

/-- One event at one ship. -/
structure Turn (δ : Type) where
  our : Bool
  now : Nat
  deed : Doing δ

/-- The handler of an event. -/
def Turn.handle (c : Code δ) (deep : Nat) (t : Turn δ) (s : Ship δ) : Option (Ship δ) :=
  match t.deed with
  | .wool hen cha val ete => wool c t.our t.now hen cha val ete s
  | .rack cha cop => s.lift (rack (c.wire t.our) cha cop)
  | .thaw => thaw c t.now s
  | .hear kay ryn pac => gnaw c t.our t.now deep kay ryn pac s
  | .drift diz => some { s with ho := { s.ho with diz := diz } }

/-- What is seen at a ship: a statement that is sent, with its number, a message that is passed on
to the application, its acknowledgment, and the report that a message is complete. -/
inductive Note
  | wool (cha : Path) (num : Nat) (ete : Bool)
  | mulk (cha : Path) (num : Nat)
  | rack (cha : Path) (cop : Coop)
  | cake (cha : Path) (num : Nat) (cop : Coop)
  | coke (cha : Path) (num : Nat) (kay : Cape)
  deriving DecidableEq

/-- Everything that was seen, the latest first, and at which ship. -/
abbrev Diary := List (Bool × Note)

/-- What is seen of an event as it begins. -/
def Turn.note (t : Turn δ) (s : Ship δ) : Diary :=
  match t.deed with
  | .wool _ cha _ ete => [(t.our, .wool cha (rillOf s.ryl cha).sed ete)]
  | .rack cha cop => [(t.our, .rack cha cop)]
  | _ => []

/-- What is seen of a boon. -/
def noted (our : Bool) : Boon Nat → Option (Bool × Note)
  | .mulk _ _ cha num _ => some (our, .mulk cha num)
  | .cake _ _ cha num cop _ => some (our, .cake cha num cop)
  | .coke _ _ cha num kay _ => some (our, .coke cha num kay)
  | _ => none

/-- The packets of a boon. -/
def packets : Boon Nat → List Nat
  | .ouzo pax => pax
  | .tell _ pax => pax
  | _ => []

/-- Two ships, the packets that each of them sent, and the diary. -/
structure Pair (δ : Type) where
  ship : Bool → Ship δ
  air : Bool → List Nat
  log : Diary

/-- A packet is heard only if the other sent it. -/
def Turn.sent (t : Turn δ) (p : Pair δ) : Bool :=
  match t.deed with
  | .hear _ _ pac => (p.air (!t.our)).contains pac
  | _ => true

/-- A ship with no boons. -/
def Ship.fresh (s : Ship δ) : Ship δ := { s with ho := { s.ho with bin := [] } }

/-- One event. -/
def turn (c : Code δ) (deep : Nat) (t : Turn δ) (p : Pair δ) : Option (Pair δ) :=
  if t.sent p then do
    let s ← t.handle c deep (p.ship t.our).fresh
    return {
      ship := Function.update p.ship t.our s
      air := Function.update p.air t.our (s.ho.bin.flatMap packets ++ p.air t.our)
      log := s.ho.bin.filterMap (noted t.our) ++ (t.note (p.ship t.our) ++ p.log) }
  else none

/-- Two ships that have not met. -/
def Pair.start (diz : Bool → δ) : Pair δ where
  ship our := ⟨⟨diz our, ∅, []⟩, ahoy, ∅, ⟨∅, ∅⟩⟩
  air _ := []
  log := []

end Vere.Ames
