import Vere.Hoon.Loss

/-!
# Vere.Clay.Tree

Directory trees and patches of them (`++zu`, `++cost` and `++cure` of `zuse.hoon`).

A node has a hash, a file and folders (`Ankh`). `dist` walks two trees with a cursor, which is a
node and the reversed path to it, and lists what is to be changed; `drum` goes down to a path,
changes the file there, and puts the nodes on the way together again, without those that are
empty.

A tree without empty nodes whose hashes are right is `Tidy`. It is determined by its files
(`tidy_ext`), so that what a patch does can be said of the files alone (`drum_files`,
`dune_files`).
-/

namespace Vere.Clay

open Vere.Lib Vere.Hoon

/-- `++path`. -/
abbrev Path := List Nat

/-- The hashes of the source. -/
structure Hash where
  /-- `++mug`, which orders a map. -/
  mug : Noun → Nat
  /-- `++shaf`: half sha-256, with a salt. -/
  shaf : Nat → Nat → Nat
  /-- `++sham`: noun hash. -/
  sham : Noun → Nat

/-- `++ankh`: a node. -/
inductive Ankh
  /-- The recursive hash, the file with its hash, and the folders. -/
  | mk (p : Nat) (q : Option (Nat × Noun)) (r : Treap Nat Ankh)

namespace Ankh

def p : Ankh → Nat
  | mk p _ _ => p

def q : Ankh → Option (Nat × Noun)
  | mk _ q _ => q

def r : Ankh → Treap Nat Ankh
  | mk _ _ r => r

@[simp] theorem p_mk (p : Nat) (q : Option (Nat × Noun)) (r : Treap Nat Ankh) : (mk p q r).p = p := rfl

@[simp] theorem q_mk (p : Nat) (q : Option (Nat × Noun)) (r : Treap Nat Ankh) : (mk p q r).q = q := rfl

@[simp] theorem r_mk (p : Nat) (q : Option (Nat × Noun)) (r : Treap Nat Ankh) : (mk p q r).r = r := rfl

/-- `[0 ~ ~]`. -/
def bare : Ankh := mk 0 none .nil

end Ankh

mutual

def decAnkh : (a b : Ankh) → Decidable (a = b)
  | .mk p q r, .mk p' q' r' =>
    if hp : p = p' ∧ q = q' then
      match decDir r r' with
      | .isTrue h => .isTrue (by rw [hp.1, hp.2, h])
      | .isFalse h => .isFalse fun he => h (Ankh.mk.inj he).2.2
    else .isFalse fun he => hp ⟨(Ankh.mk.inj he).1, (Ankh.mk.inj he).2.1⟩

def decDir : (a b : Treap Nat Ankh) → Decidable (a = b)
  | .nil, .nil => .isTrue rfl
  | .nil, .node .. => .isFalse (by simp)
  | .node .., .nil => .isFalse (by simp)
  | .node k v l r, .node k' v' l' r' =>
    if hk : k = k' then
      match decAnkh v v', decDir l l', decDir r r' with
      | .isTrue hv, .isTrue hl, .isTrue hr => .isTrue (by rw [hk, hv, hl, hr])
      | .isFalse hv, _, _ => .isFalse fun he => hv (Treap.node.inj he).2.1
      | _, .isFalse hl, _ => .isFalse fun he => hl (Treap.node.inj he).2.2.1
      | _, _, .isFalse hr => .isFalse fun he => hr (Treap.node.inj he).2.2.2
    else .isFalse fun he => hk (Treap.node.inj he).1

end

instance : DecidableEq Ankh := decAnkh

/-! ### Folders -/

/-- A map of folders. -/
abbrev Dir := Treap Nat Ankh

/-- `++gor` on names. -/
def gorName (mug : Noun → Nat) (a b : Nat) : Bool := gor mug (.atom a) (.atom b)

/-- `++vor` on names. -/
def vorName (mug : Noun → Nat) (a b : Nat) : Bool := vor mug (.atom a) (.atom b)

/-- An order of nouns orders the names. -/
theorem name_order {le : Noun → Noun → Bool} (h : SearchOrder le) :
    SearchOrder fun a b : Nat => le (.atom a) (.atom b) :=
  ⟨fun _ _ => h.total _ _, fun _ _ _ => h.trans _ _ _,
    fun _ _ hab hba => Noun.atom.inj (h.antisymm _ _ hab hba)⟩

theorem gorName_order (mug : Noun → Nat) : SearchOrder (gorName mug) :=
  name_order (gor_searchOrder mug)

theorem vorName_order (mug : Noun → Nat) : SearchOrder (vorName mug) :=
  name_order (vor_searchOrder mug)

namespace Dir

variable (mug : Noun → Nat)

/-- `get:by`. -/
def get (a : Dir) (b : Nat) : Option Ankh := Treap.lookup (gorName mug) a b

/-- `has:by`. -/
def has (a : Dir) (b : Nat) : Bool := (get mug a b).isSome

/-- `put:by`. -/
def put (a : Dir) (b : Nat) (c : Ankh) : Dir := Treap.insert (gorName mug) (vorName mug) a b c

/-- `del:by`. -/
def del (a : Dir) (b : Nat) : Dir := Treap.delete (gorName mug) (vorName mug) a b

/-- `tap:by`. -/
abbrev tap (a : Dir) (b : List (Nat × Ankh)) : List (Nat × Ankh) := Treap.tap a b

end Dir

/-- `++miso`: change of a file. -/
inductive Miso
  | del (p : Noun)
  | ins (p : Noun)
  | «mut» (p : Udon)
  deriving DecidableEq

/-- `++soba`: delta. -/
structure Soba where
  p : Nat × Nat
  q : List (Path × Miso)

/-- `++cure`: invert miso. -/
def cure : Miso → Option Miso
  | .del p => some (.ins p)
  | .ins p => some (.del p)
  | .mut p => (limp p).map .mut

/-! ### The arms -/

section arms

variable (h : Hash)

/-- The loop of `dash`. -/
def dashIn : Nat → Dir → Nat
  | _, .nil => 0
  | axe, .node n v l r =>
    -- the salts are `%dash` and `%dush`
    mix (h.shaf 0x68736164 (mix axe (h.shaf 0x68737564 (mix n v.p))))
      (mix (dashIn (Ut.peg axe 2) l) (dashIn (Ut.peg axe 3) r))

/-- `dash`: local rehash. -/
def dash (a : Ankh) : Nat := mix ((a.q.map Prod.fst).getD 0) (dashIn h 1 a.r)

/-- `++zu`: filesystem. -/
structure Zu where
  ank : Ankh
  /-- Changes in reverse. -/
  myz : List (Path × Miso)
  /-- Reverse path into. -/
  ram : Path

namespace Zu

/-- `(zu ank)`. -/
def new (ank : Ankh) : Zu := ⟨ank, [], []⟩

/-- `dosh`: rehash and save. -/
def dosh (z : Zu) : Zu := { z with ank := .mk (dash h z.ank) z.ank.q z.ank.r }

/-- `dose`: ascend. -/
def dose (lol : Nat) (kan : Ankh) (z : Zu) : Option Zu :=
  match z.ram with
  | [] => none
  | i :: t =>
    if lol = i then
      some { z with
        ram := t
        ank :=
          if z.ank = .bare then
            if Dir.has h.mug kan.r lol then .mk kan.p kan.q (Dir.del h.mug kan.r lol) else kan
          else .mk kan.p kan.q (Dir.put h.mug kan.r lol z.ank) }
    else none

/-- `deaf`: add change. -/
def deaf (mis : Miso) (z : Zu) : Zu := { z with myz := (z.ram.reverse, mis) :: z.myz }

/-- `dent`: descend. -/
def dent (lol : Nat) (z : Zu) : Zu :=
  { z with ram := lol :: z.ram, ank := (Dir.get h.mug z.ank.r lol).getD .bare }

/-- `dest`: write over. -/
def dest (n : Nat) (pum : Umph) (val : Option (Nat × Noun)) (z : Zu) : Option Zu :=
  match z.ank.q, val with
  | none, none => some z
  | none, some (_, v) => some (z.deaf (.ins v))
  | some (_, u), none => some (z.deaf (.del u))
  | some (_, u), some (_, v) =>
    if v = u then some z
    else do
      let don ← diff h.mug n pum u v
      return z.deaf (.mut don)

/-- `dirk`: rm -r. The cursor stays where it came to. -/
def dirk : Nat → Zu → Option Zu
  | 0, _ => none
  | n + 1, z =>
    let z :=
      match z.ank.q with
      | none => z
      | some (_, u) => z.deaf (.del u)
    (Dir.tap z.ank.r []).foldlM (fun z i => dirk n (z.dent h i.1)) z

/-- `dist`: modify tree. -/
def dist (pum : Umph) : Nat → Ankh → Zu → Option Zu
  | 0, _, _ => none
  | n + 1, bus, z => do
    let z ← z.dest h n pum bus.q
    let z ← (Dir.tap z.ank.r []).foldlM (fun z i =>
      if Dir.has h.mug bus.r i.1 then some z
      else do
        let d ← dirk h n { z with ank := i.2, ram := i.1 :: z.ram }
        return { z with myz := d.myz }) z
    (Dir.tap bus.r []).foldlM (fun z i => do
      let d ← dist pum n i.2 (z.dent h i.1)
      return { z with myz := d.myz }) z

/-- `drum`: apply effect. -/
def drum : Path → Miso → Zu → Option Zu
  | i :: t, mis, z => do
    let d ← drum t mis (z.dent h i)
    let d ← d.dose h i z.ank
    return d.dosh h
  | [], .del p, z =>
    match z.ank.q with
    | some (c, u) => if u = p then some { z with ank := .mk (mix c z.ank.p) none z.ank.r } else none
    | none => none
  | [], .ins p, z =>
    match z.ank.q with
    | some _ => none
    | none =>
      let sam := h.sham p
      some { z with ank := .mk (mix sam z.ank.p) (some (sam, p)) z.ank.r }
  | [], .mut p, z =>
    match z.ank.q with
    | some (c, u) => do
      let nex ← lump p u
      let sam := h.sham nex
      return { z with ank := .mk (mix sam (mix c z.ank.p)) (some (sam, nex)) z.ank.r }
    | none => none

/-- The loop of `dune`. -/
def duneLoop : List (Path × Miso) → Zu → Option Zu
  | [], z => some z
  | (pax, mis) :: myz, z => do
    let z ← drum h pax mis { z with myz := myz }
    duneLoop myz z

/-- `dune`: apply. -/
def dune (z : Zu) : Option Zu := duneLoop h z.myz z

/-- `durn`: apply forward. Hashes that do not fit are only reported. -/
def durn (nyp : Soba) (z : Zu) : Option Zu := dune h { z with myz := nyp.q }

end Zu

/-- `++cost`: new external patch. -/
def cost (n : Nat) (bus ank : Ankh) : Option Soba := do
  let z ← Zu.dist h .c n bus (.new ank)
  return ⟨(ank.p, bus.p), z.myz.reverse⟩

end arms

/-! ### Folders by name -/

section dirs

variable {mug : Noun → Nat} {a : Dir}

/-- A map in both of its orders. -/
abbrev Dir.Good (mug : Noun → Nat) (a : Dir) : Prop := Treap.Canon (gorName mug) (vorName mug) a

theorem Dir.get_put (h : Dir.Good mug a) (b i : Nat) (c : Ankh) :
    Dir.get mug (Dir.put mug a b c) i = if i = b then some c else Dir.get mug a i :=
  Treap.lookup_insert (gorName_order mug) h.ordered b c i

theorem Dir.get_del (h : Dir.Good mug a) (b i : Nat) :
    Dir.get mug (Dir.del mug a b) i = if i = b then none else Dir.get mug a i :=
  Treap.lookup_delete (gorName_order mug) h.ordered b i

theorem Dir.good_put (h : Dir.Good mug a) (b : Nat) (c : Ankh) : Dir.Good mug (Dir.put mug a b c) :=
  ⟨Treap.ordered_insert (gorName_order mug) h.ordered b c,
    Treap.heaped_insert (vorName_order mug) h.heaped b c⟩

theorem Dir.good_del (h : Dir.Good mug a) (b : Nat) : Dir.Good mug (Dir.del mug a b) :=
  ⟨Treap.ordered_delete (gorName_order mug) h.ordered b,
    Treap.heaped_delete (gorName_order mug) (vorName_order mug) h.ordered h.heaped b⟩

theorem Dir.get_eq_some (h : Dir.Good mug a) {i : Nat} {c : Ankh} :
    Dir.get mug a i = some c ↔ Treap.Holds i c a :=
  Treap.lookup_eq_some (gorName_order mug) h.ordered

theorem Dir.ext {b : Dir} (ha : Dir.Good mug a) (hb : Dir.Good mug b)
    (h : ∀ i, Dir.get mug a i = Dir.get mug b i) : a = b :=
  Treap.Canon.eq_of_lookup (gorName_order mug) (vorName_order mug) ha hb h

/-- `tap` lists the folders, each name once. -/
theorem Dir.mem_tap_iff (h : Dir.Good mug a) (x : Nat × Ankh) :
    x ∈ Dir.tap a [] ↔ Dir.get mug a x.1 = some x.2 :=
  Treap.mem_tap_iff (gorName_order mug) h.ordered x

theorem Dir.nodup_tap (h : Dir.Good mug a) : ((Dir.tap a []).map Prod.fst).Nodup :=
  Treap.nodup_tap (gorName_order mug) h.ordered

/-- A folder is smaller than the map it is in. -/
theorem sizeOf_holds {i : Nat} {c : Ankh} (h : Treap.Holds i c a) : sizeOf c < sizeOf a := by
  induction a with
  | nil => exact h.elim
  | node n v la ra ihl ihr =>
    rw [Treap.node.sizeOf_spec]
    rcases h with ⟨-, rfl⟩ | h | h
    · omega
    · have := ihl h
      omega
    · have := ihr h
      omega

end dirs

/-! ### Tidy trees -/

/-- A text that its lines give back. -/
def Text : Noun → Prop
  | .atom a => ∃ tez, lore a = some tez ∧ roly tez = a
  | .cell _ _ => False

mutual

/-- The hashes are right, the files are texts, and no folder is empty. -/
def Tidy (h : Hash) : Ankh → Prop
  | .mk p q r => p = dash h (.mk p q r) ∧ (∀ x, q = some x → x.1 = h.sham x.2 ∧ Text x.2) ∧
      Dir.Good h.mug r ∧ TidyIn h r

def TidyIn (h : Hash) : Dir → Prop
  | .nil => True
  | .node _ v l r => (Tidy h v ∧ v ≠ .bare) ∧ TidyIn h l ∧ TidyIn h r

end

section tidy

variable {h : Hash}

theorem tidyIn_iff {a : Dir} : TidyIn h a ↔ ∀ i c, Treap.Holds i c a → Tidy h c ∧ c ≠ .bare := by
  induction a with
  | nil => simp [TidyIn, Treap.Holds]
  | node n v la ra ihl ihr =>
    rw [TidyIn, ihl, ihr]
    constructor
    · rintro ⟨hv, hl, hr⟩ i c (⟨-, rfl⟩ | hc | hc)
      · exact hv
      · exact hl i c hc
      · exact hr i c hc
    · intro hall
      exact ⟨hall n v (.inl ⟨rfl, rfl⟩), fun i c hc => hall i c (.inr (.inl hc)),
        fun i c hc => hall i c (.inr (.inr hc))⟩

/-- A tidy tree, by its folders. -/
theorem tidy_iff {a : Ankh} : Tidy h a ↔ a.p = dash h a ∧
    (∀ x, a.q = some x → x.1 = h.sham x.2 ∧ Text x.2) ∧ Dir.Good h.mug a.r ∧
      ∀ i c, Dir.get h.mug a.r i = some c → Tidy h c ∧ c ≠ .bare := by
  obtain ⟨p, q, r⟩ := a
  rw [Tidy, tidyIn_iff]
  refine and_congr_right fun _ => and_congr_right fun _ => and_congr_right fun hg => ?_
  refine forall_congr' fun i => forall_congr' fun c => ?_
  rw [← Dir.get_eq_some hg]
  rfl

theorem Tidy.good {a : Ankh} (ha : Tidy h a) : Dir.Good h.mug a.r := (tidy_iff.mp ha).2.2.1

theorem Tidy.folder {a c : Ankh} (ha : Tidy h a) {i : Nat} (hc : Dir.get h.mug a.r i = some c) :
    Tidy h c ∧ c ≠ .bare := (tidy_iff.mp ha).2.2.2 i c hc

theorem tidy_bare : Tidy h .bare := by
  rw [tidy_iff]
  refine ⟨?_, ?_, ⟨trivial, trivial⟩, ?_⟩
  · simp [dash, dashIn, Ankh.bare]
  · rintro x hx
    cases hx
  · rintro i c hc
    cases hc

/-- A tidy node without a file and folders is the empty one. -/
theorem Tidy.eq_bare {a : Ankh} (ha : Tidy h a) (hq : a.q = none) (hr : a.r = .nil) : a = .bare := by
  obtain ⟨p, q, r⟩ := a
  obtain ⟨hp, -⟩ := tidy_iff.mp ha
  simp only [Ankh.q_mk, Ankh.r_mk] at hq hr
  subst hq hr
  simp only [Ankh.p_mk, dash, dashIn, Ankh.q_mk, Ankh.r_mk] at hp
  simp [hp, Ankh.bare]

/-- The node at a path. -/
def Ankh.at (mug : Noun → Nat) : Ankh → Path → Option Ankh
  | a, [] => some a
  | a, i :: t =>
    match Dir.get mug a.r i with
    | some c => c.at mug t
    | none => none

/-- The content of the file at a path. -/
def Ankh.file (mug : Noun → Nat) (a : Ankh) (pax : Path) : Option Noun :=
  (a.at mug pax).bind fun c => c.q.map Prod.snd

theorem file_nil (mug : Noun → Nat) (a : Ankh) : a.file mug [] = a.q.map Prod.snd := rfl

theorem file_cons (mug : Noun → Nat) (a : Ankh) (i : Nat) (t : Path) :
    a.file mug (i :: t) = (Dir.get mug a.r i).bind fun c => c.file mug t := by
  rw [Ankh.file, Ankh.at]
  cases Dir.get mug a.r i <;> rfl

theorem file_bare (mug : Noun → Nat) (pax : Path) : Ankh.bare.file mug pax = none := by
  cases pax <;> rfl

theorem file_dent (mug : Noun → Nat) (a : Ankh) (i : Nat) (t : Path) :
    ((Dir.get mug a.r i).getD .bare).file mug t = a.file mug (i :: t) := by
  rw [file_cons]
  cases Dir.get mug a.r i with
  | none => exact file_bare mug t
  | some c => rfl

theorem Tidy.dent {a : Ankh} (ha : Tidy h a) (i : Nat) : Tidy h ((Dir.get h.mug a.r i).getD .bare) := by
  cases hc : Dir.get h.mug a.r i with
  | none => exact tidy_bare
  | some c => exact (ha.folder hc).1

theorem sizeOf_get {a c : Ankh} (ha : Tidy h a) {i : Nat} (hc : Dir.get h.mug a.r i = some c) :
    sizeOf c < sizeOf a := by
  have hlt := sizeOf_holds ((Dir.get_eq_some ha.good).mp hc)
  obtain ⟨p, q, r⟩ := a
  rw [Ankh.mk.sizeOf_spec]
  simp only [Ankh.r_mk] at hlt
  omega

/-- A tidy node that is not empty has a file somewhere. -/
theorem Tidy.exists_file {a : Ankh} (ha : Tidy h a) (hne : a ≠ .bare) :
    ∃ pax v, a.file h.mug pax = some v := by
  induction hn : sizeOf a using Nat.strong_induction_on generalizing a with
  | _ n ih =>
    cases hq : a.q with
    | some x => exact ⟨[], x.2, by rw [file_nil, hq]; rfl⟩
    | none =>
      cases hr : a.r with
      | nil => exact absurd (ha.eq_bare hq hr) hne
      | node i c l r =>
        have hc : Dir.get h.mug a.r i = some c := by
          rw [Dir.get_eq_some ha.good, hr]
          exact .inl ⟨rfl, rfl⟩
        obtain ⟨hct, hcb⟩ := ha.folder hc
        obtain ⟨pax, v, hv⟩ := ih _ (hn ▸ sizeOf_get ha hc) hct hcb rfl
        exact ⟨i :: pax, v, by rw [file_cons, hc]; exact hv⟩

/-- A tidy tree is determined by its files. -/
theorem tidy_ext {a b : Ankh} (ha : Tidy h a) (hb : Tidy h b)
    (hf : ∀ pax, a.file h.mug pax = b.file h.mug pax) : a = b := by
  induction hn : sizeOf a using Nat.strong_induction_on generalizing a b with
  | _ n ih =>
    have hq : a.q = b.q := by
      have h0 := hf []
      rw [file_nil, file_nil] at h0
      cases ha' : a.q with
      | none =>
        cases hb' : b.q with
        | none => rfl
        | some y => rw [ha', hb'] at h0; cases h0
      | some x =>
        cases hb' : b.q with
        | none => rw [ha', hb'] at h0; cases h0
        | some y =>
          rw [ha', hb'] at h0
          have hxy : x.2 = y.2 := Option.some.inj h0
          have hx := ((tidy_iff.mp ha).2.1 x ha').1
          have hy := ((tidy_iff.mp hb).2.1 y hb').1
          rw [Prod.ext (hx.trans (hxy ▸ hy.symm)) hxy]
    -- a folder that only one of them has would have a file
    have hno : ∀ {a b : Ankh}, Tidy h a → (∀ pax, a.file h.mug pax = b.file h.mug pax) → ∀ {i c},
        Dir.get h.mug a.r i = some c → Dir.get h.mug b.r i ≠ none := by
      intro a b ha hf i c hc hnone
      obtain ⟨hct, hcb⟩ := ha.folder hc
      obtain ⟨pax, v, hv⟩ := hct.exists_file hcb
      have := hf (i :: pax)
      rw [file_cons, file_cons, hc, hnone] at this
      simp [hv] at this
    have hr : a.r = b.r := by
      refine Dir.ext ha.good hb.good fun i => ?_
      cases hc : Dir.get h.mug a.r i with
      | none =>
        cases hd : Dir.get h.mug b.r i with
        | none => rfl
        | some d => exact absurd hc (hno hb (fun pax => (hf pax).symm) hd)
      | some c =>
        obtain ⟨d, hd⟩ := Option.ne_none_iff_exists'.mp (hno ha hf hc)
        rw [hd, ih _ (hn ▸ sizeOf_get ha hc) (ha.folder hc).1 (hb.folder hd).1 (fun pax => ?_) rfl]
        have := hf (i :: pax)
        rwa [file_cons, file_cons, hc, hd] at this
    have hp : a.p = b.p := by
      rw [(tidy_iff.mp ha).1, (tidy_iff.mp hb).1, dash, dash, hq, hr]
    obtain ⟨p, q, r⟩ := a
    obtain ⟨p', q', r'⟩ := b
    simp only [Ankh.p_mk, Ankh.q_mk, Ankh.r_mk] at hp hq hr
    rw [hp, hq, hr]

end tidy

/-! ### Applying changes -/

/-- A change fits a file, and makes this of it. -/
def Fits (u v : Option Noun) : Miso → Prop
  | .del p => u = some p ∧ v = none
  | .ins p => u = none ∧ v = some p ∧ Text p
  | .mut p => ∃ x y, u = some x ∧ v = some y ∧ lump p x = some y ∧ Text y

section apply

variable {h : Hash}

/-- The file is changed; the folders stay. -/
theorem tidy_file {a : Ankh} (ha : Tidy h a) {p : Nat} {q : Option (Nat × Noun)}
    (hp : p = dash h (.mk p q a.r)) (hq : ∀ x, q = some x → x.1 = h.sham x.2 ∧ Text x.2) :
    Tidy h (.mk p q a.r) :=
  tidy_iff.mpr ⟨hp, hq, ha.good, fun _ _ => ha.folder⟩

theorem file_change {mug : Noun → Nat} (a : Ankh) (p : Nat) (q : Option (Nat × Noun)) (pax : Path) :
    (Ankh.mk p q a.r).file mug pax = if pax = [] then q.map Prod.snd else a.file mug pax := by
  cases pax with
  | nil => rfl
  | cons i t => rw [if_neg (List.cons_ne_nil i t), file_cons, file_cons]; rfl

/-- A change of the file at the cursor. -/
theorem drum_here {a : Ankh} (ha : Tidy h a) {v : Option Noun} {mis : Miso}
    (hf : Fits (a.file h.mug []) v mis) (myz : List (Path × Miso)) (ram : Path) :
    ∃ p q, Zu.drum h [] mis ⟨a, myz, ram⟩ = some ⟨.mk p q a.r, myz, ram⟩ ∧
      Tidy h (.mk p q a.r) ∧ q.map Prod.snd = v := by
  obtain ⟨hp, hq, -, -⟩ := tidy_iff.mp ha
  rw [file_nil] at hf
  cases mis with
  | del x =>
    obtain ⟨hu, rfl⟩ := hf
    obtain ⟨⟨c, u⟩, hau, rfl⟩ := Option.map_eq_some_iff.mp hu
    refine ⟨mix c a.p, none, by simp [Zu.drum, hau], tidy_file ha ?_ (by simp), rfl⟩
    rw [hp]
    simp only [dash, hau, mix_eq, Ankh.q_mk, Ankh.r_mk, Option.map_some, Option.map_none,
      Option.getD_some, Option.getD_none, Nat.zero_xor]
    rw [← Nat.xor_assoc, Nat.xor_self, Nat.zero_xor]
  | ins x =>
    obtain ⟨hu, rfl, hx⟩ := hf
    have hau : a.q = none := Option.map_eq_none_iff.mp hu
    refine ⟨mix (h.sham x) a.p, some (h.sham x, x), by simp [Zu.drum, hau], tidy_file ha ?_ ?_, rfl⟩
    · rw [hp]
      simp [dash, hau]
    · rintro y hy
      obtain rfl := Option.some.inj hy
      exact ⟨rfl, hx⟩
  | «mut» x =>
    obtain ⟨u, y, hu, rfl, hl, hy⟩ := hf
    obtain ⟨⟨c, u⟩, hau, rfl⟩ := Option.map_eq_some_iff.mp hu
    simp only at hl
    refine ⟨mix (h.sham y) (mix c a.p), some (h.sham y, y), by simp [Zu.drum, hau, hl],
      tidy_file ha ?_ ?_, rfl⟩
    · rw [hp]
      simp only [dash, hau, mix_eq, Ankh.q_mk, Ankh.r_mk, Option.map_some, Option.getD_some]
      rw [← Nat.xor_assoc c, Nat.xor_self, Nat.zero_xor]
    · rintro z hz
      obtain rfl := Option.some.inj hz
      exact ⟨rfl, hy⟩

/-- Putting a folder back, or taking it out if it is empty, gives a tidy node again. -/
theorem dose_tidy {a c : Ankh} (ha : Tidy h a) (hc : Tidy h c) (i : Nat) (myz : List (Path × Miso))
    (ram : Path) :
    ∃ a', (Zu.dose h i a ⟨c, myz, i :: ram⟩).map (Zu.dosh h) = some ⟨a', myz, ram⟩ ∧ Tidy h a' ∧
      ∀ pax, a'.file h.mug pax =
        match pax with
        | [] => a.file h.mug []
        | j :: t => if j = i then c.file h.mug t else a.file h.mug (j :: t) := by
  have hq := (tidy_iff.mp ha).2.1
  -- the folders that are put together
  obtain ⟨r, hdose, hgood, hget⟩ : ∃ r,
      (Zu.dose h i a ⟨c, myz, i :: ram⟩).map (Zu.dosh h) =
        some ⟨.mk (dash h (.mk a.p a.q r)) a.q r, myz, ram⟩ ∧ Dir.Good h.mug r ∧
      ∀ j, Dir.get h.mug r j =
        if j = i then (if c = .bare then none else some c) else Dir.get h.mug a.r j := by
    by_cases hb : c = .bare
    · by_cases hhas : Dir.has h.mug a.r i = true
      · refine ⟨Dir.del h.mug a.r i, by simp [Zu.dose, Zu.dosh, hb, hhas], Dir.good_del ha.good i, ?_⟩
        intro j
        rw [Dir.get_del ha.good, if_pos hb]
      · refine ⟨a.r, by simp [Zu.dose, Zu.dosh, hb, hhas]; rfl, ha.good, fun j => ?_⟩
        by_cases hj : j = i
        · rw [if_pos hj, if_pos hb, hj]
          simpa [Dir.has] using hhas
        · rw [if_neg hj]
    · refine ⟨Dir.put h.mug a.r i c, by simp [Zu.dose, Zu.dosh, hb], Dir.good_put ha.good i c, ?_⟩
      intro j
      rw [Dir.get_put ha.good, if_neg hb]
  refine ⟨_, hdose, tidy_iff.mpr ⟨rfl, hq, hgood, ?_⟩, ?_⟩
  · intro j d hd
    rw [Ankh.r_mk, hget] at hd
    by_cases hj : j = i
    · rw [if_pos hj] at hd
      split at hd
      · cases hd
      · next hb =>
        obtain rfl := Option.some.inj hd
        exact ⟨hc, hb⟩
    · rw [if_neg hj] at hd
      exact ha.folder hd
  · intro pax
    cases pax with
    | nil => rfl
    | cons j t =>
      rw [file_cons, Ankh.r_mk, hget]
      by_cases hj : j = i
      · rw [if_pos hj]
        simp only [hj, if_true]
        by_cases hb : c = .bare
        · rw [if_pos hb, hb, file_bare]
          rfl
        · rw [if_neg hb]
          rfl
      · rw [if_neg hj]
        simp only [hj, if_false]
        rw [file_cons]

/-- `drum` changes one file, and leaves a tidy tree. -/
theorem drum_files {pax : Path} {mis : Miso} {a : Ankh} {v : Option Noun} (ha : Tidy h a)
    (hf : Fits (a.file h.mug pax) v mis) (myz : List (Path × Miso)) (ram : Path) :
    ∃ a', Zu.drum h pax mis ⟨a, myz, ram⟩ = some ⟨a', myz, ram⟩ ∧ Tidy h a' ∧
      ∀ p, a'.file h.mug p = if p = pax then v else a.file h.mug p := by
  induction pax generalizing a ram with
  | nil =>
    obtain ⟨p, q, hd, ht, hv⟩ := drum_here ha hf myz ram
    refine ⟨_, hd, ht, fun pax => ?_⟩
    rw [file_change, hv]
  | cons i t ih =>
    rw [← file_dent] at hf
    obtain ⟨c, hd, hc, hfiles⟩ := ih (ha.dent i) hf (i :: ram)
    obtain ⟨a', hdose, ha', hf'⟩ := dose_tidy ha hc i myz ram
    obtain ⟨z, hz, hdosh⟩ := Option.map_eq_some_iff.mp hdose
    refine ⟨a', ?_, ha', fun p => ?_⟩
    · rw [Zu.drum]
      show (Zu.drum h t mis ⟨(Dir.get h.mug a.r i).getD .bare, myz, i :: ram⟩ >>= _) = _
      rw [hd]
      simp [hz, hdosh]
    · rw [hf']
      cases p with
      | nil => simp
      | cons j p =>
        by_cases hj : j = i
        · subst hj
          simp only [if_true, hfiles, file_dent, List.cons.injEq, true_and]
        · simp [hj]

/-- A list of changes of different files. -/
structure Patch (mug : Noun → Nat) (a b : Ankh) (l : List (Path × Miso)) : Prop where
  nodup : (l.map Prod.fst).Nodup
  fits : ∀ x ∈ l, Fits (a.file mug x.1) (b.file mug x.1) x.2

/-- `dune` changes the files that the list names, and leaves a tidy tree. -/
theorem dune_files {l : List (Path × Miso)} {a b : Ankh} (ha : Tidy h a)
    (hl : Patch h.mug a b l) (myz : List (Path × Miso)) (ram : Path) :
    ∃ a', Zu.duneLoop h l ⟨a, myz, ram⟩ = some a' ∧ Tidy h a'.ank ∧
      ∀ p, a'.ank.file h.mug p =
        if p ∈ l.map Prod.fst then b.file h.mug p else a.file h.mug p := by
  induction l generalizing a myz with
  | nil => exact ⟨_, rfl, ha, fun p => by simp⟩
  | cons x l ih =>
    have hnd := hl.nodup
    rw [List.map_cons, List.nodup_cons] at hnd
    obtain ⟨c, hd, hc, hfc⟩ := drum_files ha (hl.fits x List.mem_cons_self) l ram
    have hrest : Patch h.mug c b l := by
      refine ⟨hnd.2, fun y hy => ?_⟩
      have hne : y.1 ≠ x.1 := fun he => hnd.1 (he ▸ List.mem_map_of_mem hy)
      rw [hfc, if_neg hne]
      exact hl.fits y (List.mem_cons_of_mem x hy)
    obtain ⟨a', hdune, ha', hfa⟩ := ih hc hrest l
    refine ⟨a', ?_, ha', fun p => ?_⟩
    · obtain ⟨pax, mis⟩ := x
      rw [Zu.duneLoop]
      show (Zu.drum h pax mis ⟨a, l, ram⟩ >>= _) = _
      rw [hd]
      exact hdune
    · rw [hfa, hfc, List.map_cons]
      by_cases hp : p = x.1
      · subst hp
        rw [if_neg hnd.1, if_pos rfl, if_pos List.mem_cons_self]
      · rw [if_neg hp]
        simp only [List.mem_cons, hp, false_or]

end apply

end Vere.Clay
