import Vere.Hoon.Bits
import Vere.Hoon.Digits
import Vere.Hoon.Virt

/-!
# Vere.Hoon.Rege

Regular expressions and their grammar (`hoon.hoon`, section 2eM, `++pars` and `++proc`).

A set of characters is an atom with one bit for each. The rules that call themselves are given
how deep they may go; `++pars` gives them more than the length of the text, which is enough: it
never runs out (`pars_total`).
-/

namespace Vere.Hoon

/-- `++rege`: parsed regex. -/
inductive Rege
  | dote
  | ende
  | sart
  | empt
  | boun
  | bout
  | lite (p : Nat)
  | pair (p q : Rege)
  | capt (p : Rege) (q : Nat)
  | brac (p : Nat)
  | eith (p q : Rege)
  | mant (p : Rege)
  | plls (p : Rege)
  | betw (p : Rege) (q r : Nat)
  | bint (p : Rege) (q : Nat)
  | bant (p : Rege) (q : Nat)
  | manl (p : Rege)
  | plll (p : Rege)
  | betl (p : Rege) (q r : Nat)
  | binl (p : Rege) (q : Nat)
  deriving DecidableEq

namespace Rexp

open Vere.Lib Vere.Lib.Rule

/-! ### Sets of characters -/

/-- `++ranc`. -/
def ranc (a b : Nat) : Nat := if b < a then 0 else con (bex a) (ranc (a + 1) b)
termination_by b + 1 - a

/-- `++flap`. -/
def flap (a : Nat) : Nat := mix a (bex 256 - 1)

def lower : Nat := ranc 'a' 'z'
def upper : Nat := ranc 'A' 'Z'
def digit : Nat := ranc '0' '9'
def print : Nat := ranc 32 126
def graph : Nat := ranc 33 126
def blank : Nat := con (bex 32) (bex 9)
def space : Nat := con (ranc 9 13) (bex ' ')
def cntrl : Nat := con (ranc 0 31) (bex 127)
def alpha : Nat := con lower upper
def alnum : Nat := con lower (con upper digit)
def punct : Nat := con (ranc '!' '/') (con (ranc ':' '@') (con (ranc '[' 96) (ranc 123 '~')))
def wordc : Nat := con digit (con lower (con upper (bex 95)))
def white : Nat := con (bex ' ') (con (ranc 9 10) (ranc 12 13))
def xdigit : Nat := con (ranc 'a' 'f') (con (ranc 'A' 'F') digit)

/-! ### Rules -/

/-- `++next`: consume a char. -/
def next : Rule Nat Nat := item some

/-- `++bend`: conditional comp, with a gate that takes everything. -/
def bend {α : Type} (raq : α → α → α) (vex sab : Rule Nat α) : Rule Nat α := fun s =>
  (vex s).bind fun p t =>
    match sab t with
    | .crash => .crash
    | .fail => .done p t
    | .done q u => .done (raq p q) u

/-- `++nor`. -/
def nor : Rule Nat Nat :=
  poses [shim 1 35, shim 37 39, shim 44 45, shim 47 62, shim 64 90, shim 93 93, shim 95 122,
    shim 123 123, shim 125 127]

def les : Rule Nat Nat := poses [shim 32 91, shim 93 126]
def alm : Rule Nat Nat := shim 32 126
def alb : Rule Nat Nat := poses [shim 32 92, shim 94 126]
def mis : Rule Nat Nat := poses [shim 32 47, shim 58 64, shim 91 96, shim 123 126]

/-- `++cit`: octal digit. -/
def cit : Rule Nat Nat := cook (fun a => a - '0'.toNat) (shim '0' '7')

/-- `++aln`: alphanumeric. -/
def aln : Rule Nat Nat := poses [low, shim 'A' 'Z', nud]

/-- `++rang`. -/
def rang : Rule Nat (Nat × Nat) :=
  sear (fun c => some (if c.1 ≤ c.2 then some c else none))
    (ifix (just '{') (just '\x7d') (plug dim (pfix (just ',') dim)))

/-- `++unid`. -/
def unid : Rule Nat Nat :=
  poses [cold digit (jest ['\\', 'd']), cold (flap digit) (jest ['\\', 'D']),
    cold white (jest ['\\', 's']), cold (flap white) (jest ['\\', 'S']),
    cold wordc (jest ['\\', 'w']), cold (flap wordc) (jest ['\\', 'W'])]

/-- A code of two or three octal digits. -/
def octal : Rule Nat Nat :=
  sear (fun a => some (if a < 256 then some a else none)) (bass 8 (stun cit 2 3))

/-- A code of two hex digits. -/
def hexes : Rule Nat Nat := bass 16 (stun hit 2 2)

/-- `++escd`. -/
def escd : Rule Nat Nat :=
  poses [cold (bex 7) (just 'a'), cold (bex 9) (just 't'), cold (bex 10) (just 'n'),
    cold (bex 11) (just 'v'), cold (bex 12) (just 'f'), cold (bex 13) (just 'r'),
    cold (bex 0) (just '0'), cook bex octal, cook bex (pfix (just 'x') hexes),
    cook bex (ifix (jest ['x', '\x7b']) (just '\x7d') hexes), cook bex mis]

/-- `++escp`. -/
def escp : Rule Nat Rege :=
  poses [cold .empt (just 'Q'), cold (.lite 0) (just '0'), cold (.lite 7) (just 'a'),
    cold (.lite 9) (just 't'), cold (.lite 10) (just 'n'), cold (.lite 11) (just 'v'),
    cold (.lite 12) (just 'f'), cold (.lite 13) (just 'r'), cook Rege.lite octal,
    cook Rege.lite (pfix (just 'x') hexes),
    cook Rege.lite (ifix (jest ['x', '\x7b']) (just '\x7d') hexes),
    cold .dote (just 'C'), cold .sart (just 'A'), cold .ende (just 'z'), cold .boun (just 'b'),
    cold .bout (just 'B'), cook Rege.brac (cold wordc (just 'w')),
    cook Rege.brac (cold (flap wordc) (just 'W')), cook Rege.lite mis]

/-- The names that `++seap` knows. -/
def sets : List (List Char × Nat) :=
  [(['l', 'o', 'w', 'e', 'r'], lower), (['u', 'p', 'p', 'e', 'r'], upper),
    (['d', 'i', 'g', 'i', 't'], digit), (['p', 'r', 'i', 'n', 't'], print),
    (['g', 'r', 'a', 'p', 'h'], graph), (['b', 'l', 'a', 'n', 'k'], blank),
    (['s', 'p', 'a', 'c', 'e'], space), (['c', 'n', 't', 'r', 'l'], cntrl),
    (['a', 'l', 'p', 'h', 'a'], alpha), (['x', 'd', 'i', 'g', 'i', 't'], xdigit),
    (['a', 'l', 'n', 'u', 'm'], alnum), (['p', 'u', 'n', 'c', 't'], punct)]

/-- A hyphen that is not the last in its brackets comes second. -/
def ranged : Tape → Bool
  | _ :: 45 :: c :: _ => c ≠ 93
  | _ => false

/-- `++seap`. -/
def seap : Rule Nat Nat :=
  poses (unid :: sets.map (fun c => cold c.2 (jest (['[', ':'] ++ c.1 ++ [':', ']']))) ++
    sets.map (fun c => cold (flap c.2) (jest (['[', ':', '^'] ++ c.1 ++ [':', ']']))) ++
    [sear (fun c => some (if c.2 < c.1 then none else some (ranc c.1 c.2)))
        (plug alm (pfix (just '-') alb)),
      fun tub => if ranged tub then .fail else cook bex les tub,
      pfix (just '\\') escd])

/-- `++sade`. -/
def sade : Nat → Rule Nat Nat
  | 0 => fun _ => .crash
  | n + 1 =>
      poses [cold (bex '-') (jest ['-', ']']), cold 0 (just ']'),
        cook (fun c => con c.1 c.2) (plug seap (sade n))]

/-- What a bracket starts with, if it is a character that is special there. -/
def lone (c n : Nat) : Rule Nat Nat
  | [] => .fail
  | i :: t =>
      if i ≠ c then .fail
      else if t = [] ∨ t = [45] ∨ ranged (i :: t) then .fail
      else pfix (just c) (cook (con (bex c)) (sade n)) (i :: t)

/-- `++sead`. -/
def sead (n : Nat) : Rule Nat Nat :=
  poses [lone ']' n, lone '-' n, cook (fun c => con c.1 c.2) (plug seap (sade n))]

/-- `++seac`. -/
def seac (n : Nat) : Rule Nat Nat
  | [] => .fail
  | i :: t => if i = '^' then pfix (just '^') (cook flap (sead n)) (i :: t) else sead n (i :: t)

/-- `++cape`. -/
def cape : Nat → Rule Nat Tape
  | 0 => fun _ => .crash
  | n + 1 =>
      poses [cold [] (jest ['\\', 'E']), cons next (cape n), cook (fun a => [a]) next,
        full (easy [])]

/-- `++chad`. -/
def chad : Rule Nat Rege :=
  poses [cook Rege.lite nor, cook Rege.brac unid, pfix (just '\\') escp]

/-- The form of a count, which is not a character. -/
def count : Rule Nat Unit :=
  cold () (plug (just '\x7b') (plug dim (poses [cold () (just '\x7d'), jest [',', '\x7d'],
    cold () (plug (just ',') (plug dim (just '\x7d')))])))

/-- `++chun`, with `anns` for what is in parentheses. The text that `\Q` quotes ends in the
default of `++rege`, which is `%dote`. -/
def chun (anns : Rule Nat Rege) (n : Nat) : Rule Nat Rege :=
  poses [cold .ende (just '$'), cold .sart (just '^'), cold .dote (just '.'),
    cook (fun a : Tape => a.foldr (fun p q => .pair (.lite p) q) .dote)
      (pfix (jest ['\\', 'Q']) (cape n)),
    less count chad,
    cook (fun a => .capt a 0) (ifix (just '(') (just ')') anns),
    cook (fun a => .capt a 0)
      (ifix (plug (jest ['(', '?', 'P', '<']) (plug (plus aln) (just '>'))) (just ')') anns),
    ifix (jest ['(', '?', ':']) (just ')') anns,
    cook Rege.brac (pfix (just '[') (seac n))]

/-- What `++bets` makes of an expression and what follows it. -/
def bet (a : Rege) : Rule Nat Rege :=
  poses [cold (.eith .empt a) (jest ['?', '?']), cold (.manl a) (jest ['*', '?']),
    cold (.plll a) (jest ['+', '?']), cold (.eith a .empt) (just '?'), cold (.mant a) (just '*'),
    cold (.plls a) (just '+'), cook (fun c => .betl a c.1 c.2) (sfix rang (just '?')),
    cook (fun c => .betw a c.1 c.2) rang,
    cook (Rege.binl a) (ifix (just '\x7b') (jest [',', '\x7d', '?']) dim),
    cook (Rege.bant a) (ifix (just '\x7b') (jest ['\x7d', '?']) dim),
    cook (Rege.bant a) (ifix (just '\x7b') (just '\x7d') dim),
    cook (Rege.bint a) (ifix (just '\x7b') (jest [',', '\x7d']) dim),
    easy a]

/-- `++bets`. -/
def bets (anns : Rule Nat Rege) (n : Nat) : Rule Nat Rege := fun tub =>
  (chun anns n tub).bind fun a t => bet a t

/-- `++mall`, with `bets` for one part. -/
def mall (bets : Rule Nat Rege) : Nat → Rule Nat Rege
  | 0 => fun _ => .crash
  | n + 1 => bend Rege.pair bets (mall bets n)

/-- `++anns`: top level rege parse. -/
def anns : Nat → Rule Nat Rege
  | 0 => fun _ => .crash
  | n + 1 =>
      poses [bend Rege.eith (mall (bets (anns n) n) n) (pfix (just '|') (anns n)),
        cook (Rege.eith .empt) (pfix (just '|') (anns n)), easy .empt]

/-- `++pars`: parse tape to rege. -/
def pars (a : Tape) : Virt (Option Rege) :=
  match full (anns (a.length + 2)) a with
  | .crash => .never
  | .fail => return none
  | .done p _ => return some p

/-- `++proc`: capture numbering. -/
def proc : Rege → Nat → Nat × Rege
  | .capt p _, b =>
      let foo := proc p (b + 1)
      (foo.1, .capt foo.2 b)
  | .eith p q, b =>
      let foo := proc p b
      let bar := proc q foo.1
      (bar.1, .eith foo.2 bar.2)
  | .pair p q, b =>
      let foo := proc p b
      let bar := proc q foo.1
      (bar.1, .pair foo.2 bar.2)
  | .manl p, b => let foo := proc p b; (foo.1, .manl foo.2)
  | .plll p, b => let foo := proc p b; (foo.1, .plll foo.2)
  | .binl p q, b => let foo := proc p b; (foo.1, .binl foo.2 q)
  | .betl p q r, b => let foo := proc p b; (foo.1, .betl foo.2 q r)
  | .mant p, b => let foo := proc p b; (foo.1, .mant foo.2)
  | .plls p, b => let foo := proc p b; (foo.1, .plls foo.2)
  | .bant p q, b => let foo := proc p b; (foo.1, .bant foo.2 q)
  | .bint p q, b => let foo := proc p b; (foo.1, .bint foo.2 q)
  | .betw p q r, b => let foo := proc p b; (foo.1, .betw foo.2 q r)
  | a, b => (b, a)

/-! ### The grammar does not run out -/

section runs

variable {m k : Nat} {α : Type}

@[simp] theorem runs_next : Runs m 1 next := runs_item _

theorem runs_dim : Runs m 1 dim :=
  (runs_cold _ (runs_just _)).pose
    ((runs_cons ((runs_shim _ _).cook _) (Runs.star ((runs_shim _ _).cook _))).cook _)

theorem runs_rang : Runs m 1 rang :=
  (runs_ifix (runs_just _) (fun _ => (runs_plug runs_dim ((runs_just _).pfix runs_dim).any).any)
    fun _ => (runs_just _).any).sear fun _ => nofun

theorem runs_nor : Runs m 1 nor := runs_poses (by simp)

theorem runs_mis : Runs m 1 mis := runs_poses (by simp)

theorem runs_unid : Runs m 1 unid := runs_poses (by simp [runs_jest])

theorem runs_cit : Runs m 1 cit := (runs_shim _ _).cook _

theorem runs_hit : Runs m 1 hit :=
  ((runs_shim _ _).cook _).pose (((runs_shim _ _).cook _).pose ((runs_shim _ _).cook _))

theorem runs_octal : Runs m 1 octal := by
  have h : Runs m 2 (bass 8 (stun cit 2 3)) := (runs_cit.stun (by decide)).cook _
  exact (h.mono (Nat.le_refl m) (by decide)).sear fun _ => nofun

theorem runs_hexes : Runs m 1 hexes := by
  have h : Runs m 2 hexes := (runs_hit.stun (Nat.le_refl 2)).cook _
  exact h.mono (Nat.le_refl m) (by decide)

theorem runs_xhexes : Runs m 1 (pfix (just 'x') hexes) := runs_pfix (runs_just _) runs_hexes.any

theorem runs_xhexes' : Runs m 1 (ifix (jest ['x', '\x7b']) (just '\x7d') hexes) :=
  runs_ifix (runs_jest _ _) (fun _ => runs_hexes.any) fun _ => (runs_just _).any

theorem runs_escd : Runs m 1 escd :=
  runs_poses (by
    simp only [List.forall_mem_cons, runs_cold, runs_just, runs_octal.cook, runs_xhexes.cook,
      runs_xhexes'.cook, runs_mis.cook, true_and, List.not_mem_nil, false_implies, implies_true])

theorem runs_escp : Runs m 1 escp :=
  runs_poses (by
    simp only [List.forall_mem_cons, runs_cold, runs_just, runs_octal.cook, runs_xhexes.cook,
      runs_xhexes'.cook, runs_mis.cook, (runs_cold _ (runs_just _)).cook, true_and,
      List.not_mem_nil, false_implies, implies_true])

theorem runs_les : Runs m 1 les := runs_poses (by simp)

theorem runs_alb : Runs m 1 alb := runs_poses (by simp)

theorem runs_seap : Runs m 1 seap := by
  refine runs_poses ?_
  simp only [List.cons_append, List.forall_mem_cons, List.forall_mem_append, List.forall_mem_map]
  refine ⟨runs_unid, ⟨fun c _ => runs_cold _ (runs_jest _ _), fun c _ => runs_cold _ (runs_jest _ _)⟩,
    ?_, ?_, ?_, nofun⟩
  · exact (runs_plug (runs_shim _ _) ((runs_just _).pfix runs_alb).any).sear fun _ => nofun
  · intro s hs
    beta_reduce
    split
    · exact ⟨nofun, nofun⟩
    · exact runs_les.cook _ s hs
  · exact runs_pfix (runs_just _) runs_escd.any

/-- A set, and what follows in its brackets. -/
theorem runs_set {n : Nat} (h : 1 ≤ m → Runs (m - 1) 1 (sade n)) :
    Runs m 1 (cook (fun c => con c.1 c.2) (plug seap (sade n))) := by
  have hplug : Runs m 1 (plug seap (sade n)) :=
    runs_seap.bind fun hm v => (h hm).any.cook fun w => (v, w)
  exact hplug.cook _

theorem runs_sade {n : Nat} (h : m < n) : Runs m 1 (sade n) := by
  induction n generalizing m with
  | zero => exact absurd h (Nat.not_lt_zero m)
  | succ n ih =>
      refine runs_poses ?_
      simp only [List.forall_mem_cons, runs_cold, runs_jest, runs_just, true_and]
      exact ⟨runs_set fun hm => ih (by omega), fun _ h => absurd h List.not_mem_nil⟩

section fuel

variable {n : Nat} (hmn : m ≤ n)
include hmn

theorem runs_lone (c : Nat) : Runs m 1 (lone c n) := by
  intro s hs
  cases s with
  | nil => exact ⟨nofun, nofun⟩
  | cons i t =>
      rw [lone]
      split
      · exact ⟨nofun, nofun⟩
      · split
        · exact ⟨nofun, nofun⟩
        · have hm : m - 1 < n := by
            rw [List.length_cons] at hs
            omega
          exact runs_pfix (runs_just c) ((runs_sade hm).cook _).any (i :: t) hs

theorem runs_sead : Runs m 1 (sead n) := by
  refine runs_poses ?_
  simp only [List.forall_mem_cons, runs_lone hmn, true_and]
  exact ⟨runs_set fun hm => runs_sade (by omega), nofun⟩

theorem runs_seac : Runs m 1 (seac n) := by
  intro s hs
  cases s with
  | nil => exact ⟨nofun, nofun⟩
  | cons i t =>
      rw [seac]
      split
      · have hpred : Runs (m - 1) 1 (sead n) :=
          (runs_sead hmn).mono (Nat.sub_le m 1) (Nat.le_refl 1)
        exact runs_pfix (runs_just _) (hpred.cook _).any (i :: t) hs
      · exact runs_sead hmn (i :: t) hs

end fuel

theorem runs_cape {n : Nat} (h : m < n) : Runs m 0 (cape n) := by
  induction n generalizing m with
  | zero => exact absurd h (Nat.not_lt_zero m)
  | succ n ih =>
      have hcons : Runs m 1 (cons next (cape n)) :=
        runs_next.bind fun hm v => (ih (m := m - 1) (by omega)).cook fun l => v :: l
      refine runs_poses ?_
      simp only [List.forall_mem_cons]
      exact ⟨(runs_cold _ (runs_jest _ _)).any, hcons.any, (runs_next.cook _).any,
        (runs_easy _).full, nofun⟩

theorem runs_count : Runs m 1 count := by
  have hrest {m : Nat} : Runs m 1 (poses [cold () (just '\x7d'), jest [',', '\x7d'],
      cold () (plug (just ',') (plug dim (just '\x7d')))]) := by
    refine runs_poses ?_
    simp only [List.forall_mem_cons, runs_cold, runs_jest, runs_just, true_and]
    exact ⟨runs_cold _ (runs_plug (runs_just _) (runs_plug runs_dim (runs_just _).any).any),
      fun _ h => absurd h List.not_mem_nil⟩
  exact runs_cold _ (runs_plug (runs_just _) (runs_plug runs_dim hrest.any).any)

theorem runs_chad : Runs m 1 chad := by
  refine runs_poses ?_
  simp only [List.forall_mem_cons, runs_nor.cook, runs_unid.cook, true_and]
  exact ⟨runs_pfix (runs_just _) runs_escp.any, nofun⟩

theorem runs_bet (a : Rege) : Runs m 0 (bet a) := by
  have hcount (daf : List Char) (c : Char) {f : Nat → Rege} :
      Runs m 0 (cook f (ifix (just '\x7b') (jest (c :: daf)) dim)) :=
    ((runs_ifix (runs_just _) (fun _ => runs_dim.any) fun _ => (runs_jest _ _).any).cook _).any
  refine runs_poses ?_
  simp only [List.forall_mem_cons, (runs_cold _ (runs_jest _ _)).any, (runs_cold _ (runs_just _)).any,
    hcount, true_and]
  exact ⟨((runs_rang.sfix (runs_just _)).cook _).any, (runs_rang.cook _).any,
    ((runs_ifix (runs_just _) (fun _ => runs_dim.any) fun _ => (runs_just _).any).cook _).any,
    runs_easy a, nofun⟩

section anns

variable {anns : Rule Nat Rege} (ha : 1 ≤ m → Runs (m - 1) 0 anns) {n : Nat} (hmn : m ≤ n)
include ha hmn

theorem runs_chun : Runs m 1 (chun anns n) := by
  have hcape : 1 ≤ m → Runs (m - 1) 0 (cape n) := fun hm => runs_cape (by omega)
  have hquote : Runs m 1 (pfix (jest ['\\', 'Q']) (cape n)) :=
    (runs_jest _ _).bind fun hm _ => hcape hm
  have hper (m : Nat) : Runs m 0 (just ')') := (runs_just _).any
  have hname : Runs m 1 (plug (jest ['(', '?', 'P', '<']) (plug (plus aln) (just '>'))) := by
    have haln {m : Nat} : Runs m 1 aln := runs_poses (by simp [low, nud])
    exact runs_plug (runs_jest _ _) (runs_plug (runs_cons haln (Runs.star haln)) (runs_just _).any).any
  refine runs_poses ?_
  simp only [List.forall_mem_cons, runs_cold, runs_just, hquote.cook, true_and]
  exact ⟨runs_count.less runs_chad, (runs_ifix (runs_just _) ha hper).cook _,
    (runs_ifix hname ha hper).cook _, runs_ifix (runs_jest _ _) ha hper,
    (runs_pfix (runs_just _) ((runs_seac hmn).mono (Nat.sub_le m 1) (Nat.zero_le 1))).cook _,
    fun _ h => absurd h List.not_mem_nil⟩

theorem runs_bets : Runs m 1 (bets anns n) := (runs_chun ha hmn).bind fun _ a => runs_bet a

end anns

/-- The second rule of a `++bend` has to run on what the first one leaves. -/
theorem runs_bend {raq : α → α → α} {vex sab : Rule Nat α} (h : Runs m 1 vex)
    (h' : 1 ≤ m → Runs (m - 1) 0 sab) : Runs m 1 (bend raq vex sab) := by
  refine h.bind (j := 0) fun hm v => ?_
  intro s hs
  obtain ⟨hne, hlen⟩ := h' hm s hs
  beta_reduce
  cases hr : sab s with
  | crash => exact absurd hr hne
  | fail => exact runs_easy v s hs
  | done q u =>
      refine ⟨nofun, fun w t hd => ?_⟩
      cases hd
      exact hlen _ _ hr

theorem runs_mall {bets : Rule Nat Rege} (hb : Runs m 1 bets) {n : Nat} (h : m < n) :
    Runs m 1 (mall bets n) := by
  induction n generalizing m with
  | zero => exact absurd h (Nat.not_lt_zero m)
  | succ n ih =>
      exact runs_bend hb fun hm => (ih (hb.mono (Nat.sub_le m 1) (Nat.le_refl 1)) (by omega)).any

theorem runs_anns {n : Nat} (h : m + 2 ≤ n) : Runs m 0 (anns n) := by
  induction n generalizing m with
  | zero => exact absurd h (Nat.not_succ_le_zero _)
  | succ n ih =>
      have hbar {m : Nat} (hm : m + 1 ≤ n) : Runs m 1 (pfix (just '|') (anns n)) :=
        (runs_just _).bind fun hm' _ => ih (by omega)
      have hmall : Runs m 1 (mall (bets (anns n) n) n) :=
        runs_mall (runs_bets (fun hm => ih (by omega)) (by omega)) (by omega)
      refine runs_poses ?_
      simp only [List.forall_mem_cons]
      exact ⟨(runs_bend hmall fun hm => (hbar (by omega)).any).any, ((hbar (by omega)).cook _).any,
        runs_easy _, nofun⟩

/-- The grammar never runs out. -/
theorem pars_total (a : Tape) : ∃ par, pars a = pure par := by
  rw [pars]
  cases h : full (anns (a.length + 2)) a with
  | crash => exact absurd h ((runs_anns (Nat.le_refl _)).full a (Nat.le_refl _)).1
  | fail => exact ⟨none, rfl⟩
  | done p t => exact ⟨some p, rfl⟩

end runs

end Rexp

end Vere.Hoon
