import Vere.Hoon.Virt
import Vere.Lib.Settles
import Vere.Nock.Crash
import Vere.Ut.Axis

/-!
# Vere.Hoon.Mink

The meta-interpreter `++mink` (`hoon.hoon`, section 2eO) and Nock 5K.

`mink` takes the formula apart as the text does and rewrites operators 6 to 9 into smaller
ones. Its rewriting of 8 and 9 is not the text's: 8 pushes on the wrong side of the subject,
and 9 returns the arm without evaluating it. A jet stands in for the arm at run time, so it
does not show. For an evaluation that comes to neither of them, nor to operator 11 which the
text does not have, `mink` is Nock (`mink_is_nock`): the rules below give what `mink` settles
on for each form of formula (`Yields`, `Fails`), and `mink_sound` is the way back.
-/

namespace Vere.Hoon

open Vere.Lib Vere.Nock

/-- `++tone`: a product, a list of blocking requests, or a stack trace. -/
inductive Tone where
  | good (p : Noun)
  | block (p : List Noun)
  | fail (p : List (Noun × Noun))
deriving DecidableEq

/-- `++cap`: tree head. -/
def cap (a : Nat) : Virt Nat :=
  if a = 2 then return 2
  else if a = 3 then return 3
  else if a = 0 ∨ a = 1 then throw ()
  else cap (a / 2)
termination_by a
decreasing_by omega

/-- `++mas`: tree body. For 0 it calls itself with 0 again. -/
def mas (a : Nat) : Virt Nat :=
  if a = 1 then throw ()
  else if a = 2 then return 1
  else if a = 3 then return 1
  else if a = 0 then Virt.never
  else do
    let b ← mas (a / 2)
    return a % 2 + b * 2
termination_by a
decreasing_by omega

/-- The hints that leave a frame on the stack: `%hunk`, `%lose`, `%mean`, `%spot`. -/
def frameHint : Noun → Bool
  | .atom b => b = 0x6b6e7568 || b = 0x65736f6c || b = 0x6e61656d || b = 0x746f7073
  | .cell _ _ => false

/-- `?.  ?=(%0 -.ben)  ben`: go on with a product, return anything else. -/
def onGood (ben : Tone) (go : Noun → Virt Tone) : Virt Tone :=
  match ben with
  | .good p => go p
  | ben => return ben

/-- The `?-` of an autocons, once the head is not a failure. -/
def autocons : Tone → Tone → Tone
  | .good p, .good q => .good (.cell p q)
  | .block p, .good _ => .block p
  | .good _, .block q => .block q
  | .block p, .block q => .block (p ++ q)
  | _, .fail q => .fail q
  | .fail p, _ => .fail p

/-- The `?+` over the operators. `kick` is `$` with the given `sub`, `fol` and `tax`. -/
def minkOp (sky : Noun → Virt (Option Noun))
    (kick : Noun → Noun → List (Noun × Noun) → Virt Tone) (sub : Noun)
    (tax : List (Noun × Noun)) : Nat → Noun → Virt Tone
  | 0, .atom b =>
      if b = 0 then return .fail tax
      else if b = 1 then return .good sub
      else
        match sub with
        | .atom _ => return .fail tax
        | .cell h t => do
            let now ← cap b
            let lat ← mas b
            kick (if now = 2 then h else t) (op 0 (.atom lat)) tax
  | 1, b => return .good b
  | 2, .cell (.cell b c) d => do
      let ben ← kick sub (.cell (.cell b c) d) tax
      onGood ben fun
        | .atom _ => throw ()
        | .cell s f => kick s f tax
  | 3, b => do
      let ben ← kick sub b tax
      onGood ben fun p => return .good (wut p)
  | 4, b => do
      let ben ← kick sub b tax
      onGood ben fun
        | .atom x => return .good (.atom (x + 1))
        | .cell _ _ => return .fail tax
  | 5, b => do
      let ben ← kick sub b tax
      onGood ben fun
        | .atom _ => return .fail tax
        | .cell p q => return .good (tis p q)
  | 6, .cell b (.cell c d) =>
      -- `[2 [0 1] 2 [1 c d] [1 0] 2 [1 2 3] [1 0] 4 4 b]`
      kick sub (op 2 (.cell (op 0 (.atom 1)) (op 2 (.cell (op 1 (.cell c d))
        (.cell (op 1 (.atom 0)) (op 2 (.cell (op 1 (.cell (.atom 2) (.atom 3)))
          (.cell (op 1 (.atom 0)) (op 4 (op 4 b)))))))))) tax
  | 7, .cell b c => kick sub (op 2 (.cell b (op 1 c))) tax
  | 8, .cell b c => kick sub (op 7 (.cell (.cell (op 0 (.atom 1)) b) c)) tax
  | 9, .cell b c => kick sub (op 7 (.cell c (op 0 b))) tax
  | 10, .cell (.atom _) c => kick sub c tax
  | 10, .cell (.cell b c) d => do
      let ben ← kick sub c tax
      onGood ben fun p => kick sub d (if frameHint b then (b, p) :: tax else tax)
  | 11, b => do
      let ben ← kick sub b tax
      onGood ben fun p => do
        match ← sky p with
        | none => return .block [p]
        | some v => return .good v
  | _, _ => return .fail tax

/-- `++mink`, with fuel for its recursion. -/
def mink (sky : Noun → Virt (Option Noun)) :
    Nat → Noun → Noun → List (Noun × Noun) → Virt Tone
  | 0, _, _, _ => Virt.never
  | _ + 1, _, .atom _, tax => return .fail tax
  | n + 1, sub, .cell (.cell b c) d, tax => do
      match ← mink sky n sub (.cell b c) tax with
      | .fail t => return .fail t
      | hed => do
          let tal ← mink sky n sub d tax
          return autocons hed tal
  | n + 1, sub, .cell (.atom k) b, tax => minkOp sky (mink sky n) sub tax k b

/-- `(mink [sub fol] sky)` returns `t`. -/
def Returns (sky : Noun → Virt (Option Noun)) (sub fol : Noun) (t : Tone) : Prop :=
  Settles (fun n => mink sky n sub fol []) (pure t)

/-! ### Axes -/

theorem cap_eq {b : Nat} (hb : 2 ≤ b) : cap b = pure (Ut.cap b) := by
  induction b using Nat.strongRecOn with
  | ind b ih =>
      rw [cap, Ut.cap, if_neg (show ¬b < 2 by omega)]
      by_cases h2 : b = 2
      · rw [if_pos h2, if_pos h2]
      by_cases h3 : b = 3
      · rw [if_neg h2, if_pos h3, if_neg h2, if_pos h3]
      · rw [if_neg h2, if_neg h3, if_neg (by omega), if_neg h2, if_neg h3,
          ih (b / 2) (by omega) (by omega)]

theorem mas_eq {b : Nat} (hb : 2 ≤ b) : mas b = pure (Ut.mas b) := by
  induction b using Nat.strongRecOn with
  | ind b ih =>
      rw [mas, Ut.mas, if_neg (show ¬b = 1 by omega), if_neg (show ¬b < 2 by omega)]
      by_cases h2 : b = 2
      · rw [if_pos h2, if_pos h2]
      by_cases h3 : b = 3
      · rw [if_neg h2, if_pos h3, if_neg h2, if_pos h3]
      · rw [if_neg h2, if_neg h3, if_neg (by omega), if_neg h2, if_neg h3,
          ih (b / 2) (by omega) (by omega), pure_bind]

/-- The axis `mas` leaves is taken of the side `cap` names. -/
theorem cap_mas {b : Nat} (hb : 2 ≤ b) :
    ∃ c m, cap b = pure c ∧ mas b = pure m ∧ 0 < m ∧ m < b ∧
      ∀ h t, slot b (.cell h t) = slot m (if c = 2 then h else t) :=
  ⟨Ut.cap b, Ut.mas b, cap_eq hb, mas_eq hb, Ut.mas_pos hb, Ut.mas_lt hb, Ut.slot_cell hb⟩

/-! ### What `mink` settles on -/

section rules

variable {sky : Noun → Virt (Option Noun)} {a b c d f g p x y : Noun}

/-- With any trace so far, `mink` returns the product `p`. -/
def Yields (sky : Noun → Virt (Option Noun)) (a f p : Noun) : Prop :=
  ∀ tax, Settles (fun n => mink sky n a f tax) (pure (.good p))

/-- With any trace so far, `mink` returns a trace. -/
def Fails (sky : Noun → Virt (Option Noun)) (a f : Noun) : Prop :=
  ∀ tax, ∃ t, Settles (fun n => mink sky n a f tax) (pure (.fail t))

/-- A formula that is rewritten. -/
theorem Yields.rewrite (hf : ∀ n tax, mink sky (n + 1) a f tax = mink sky n a g tax)
    (hg : Yields sky a g p) : Yields sky a f p :=
  fun tax => .call (fun n => hf n tax) (hg tax)

theorem Fails.rewrite (hf : ∀ n tax, mink sky (n + 1) a f tax = mink sky n a g tax)
    (hg : Fails sky a g) : Fails sky a f := by
  intro tax
  obtain ⟨t, ht⟩ := hg tax
  exact ⟨t, .call (fun n => hf n tax) ht⟩

/-- A formula that fails at once. -/
theorem Fails.now (hf : ∀ n tax, mink sky (n + 1) a f tax = pure (.fail tax)) :
    Fails sky a f :=
  fun tax => ⟨tax, .call (fun n => hf n tax) (.const _)⟩

section operand

variable {k : List (Noun × Noun) → Noun → Nat → Virt Tone}

/-- A formula that goes on with the product of its operand. -/
theorem Yields.operand
    (hf : ∀ n tax, mink sky (n + 1) a f tax
      = mink sky n a b tax >>= fun ben => onGood ben fun p => k tax p n)
    (hb : Yields sky a b x) (hk : ∀ tax, Settles (k tax x) (pure (.good p))) :
    Yields sky a f p := by
  intro tax
  have hbind := Settles.bind (h := fun ben n => onGood ben fun p => k tax p n) (hb tax) (hk tax)
  exact .call (fun n => hf n tax) hbind

theorem Fails.operand
    (hf : ∀ n tax, mink sky (n + 1) a f tax
      = mink sky n a b tax >>= fun ben => onGood ben fun p => k tax p n)
    (hb : Fails sky a b) : Fails sky a f := by
  intro tax
  obtain ⟨t, ht⟩ := hb tax
  have hbind := Settles.bind (h := fun ben n => onGood ben fun p => k tax p n) ht (.const _)
  exact ⟨t, .call (fun n => hf n tax) hbind⟩

/-- A formula that fails after its operand. -/
theorem Fails.after
    (hf : ∀ n tax, mink sky (n + 1) a f tax
      = mink sky n a b tax >>= fun ben => onGood ben fun p => k tax p n)
    (hb : Yields sky a b x) (hk : ∀ tax, ∃ t, Settles (k tax x) (pure (.fail t))) :
    Fails sky a f := by
  intro tax
  obtain ⟨t, ht⟩ := hk tax
  have hbind := Settles.bind (h := fun ben n => onGood ben fun p => k tax p n) (hb tax) ht
  exact ⟨t, .call (fun n => hf n tax) hbind⟩

end operand

/-- An axis. -/
theorem mink_slot (b : Nat) :
    ∀ (a : Noun) (tax : List (Noun × Noun)),
      Settles (fun n => mink sky n a (op 0 (.atom b)) tax)
        (pure (match slot b a with | some p => .good p | none => .fail tax)) := by
  induction b using Nat.strongRecOn with
  | ind b ih =>
      intro a tax
      by_cases h0 : b = 0
      · subst h0
        rw [slot_zero]
        exact .call (fun n => rfl) (.const _)
      by_cases h1 : b = 1
      · subst h1
        rw [slot_one]
        exact .call (fun n => rfl) (.const _)
      cases a with
      | atom x =>
          rw [Ut.slot_atom (by omega)]
          refine .call (fun n => ?_) (.const _)
          rw [mink, minkOp, if_neg h0, if_neg h1]
      | cell h t =>
          obtain ⟨c, m, hc, hm, hpos, hlt, hs⟩ := cap_mas (by omega : 2 ≤ b)
          rw [hs]
          refine .call (fun n => ?_) (ih m hlt (if c = 2 then h else t) tax)
          rw [mink, minkOp, if_neg h0, if_neg h1, hc, hm, pure_bind, pure_bind]

theorem Yields.slot {n : Nat} (h : Nock.slot n a = some p) : Yields sky a (op 0 (.atom n)) p := by
  intro tax
  have hs : Settles (fun i => mink sky i a (op 0 (.atom n)) tax) _ := mink_slot n a tax
  rw [h] at hs
  exact hs

theorem Fails.slot {n : Nat} (h : Nock.slot n a = none) : Fails sky a (op 0 (.atom n)) := by
  intro tax
  have hs : Settles (fun i => mink sky i a (op 0 (.atom n)) tax) _ := mink_slot n a tax
  rw [h] at hs
  exact ⟨tax, hs⟩

theorem Yields.const : Yields sky a (op 1 b) b :=
  fun _ => .call (fun _ => rfl) (.const _)

/-- What an autocons does once it has the tone of its head. -/
def afterHead (sky : Noun → Virt (Option Noun)) (a d : Noun) (tax : List (Noun × Noun))
    (hed : Tone) (n : Nat) : Virt Tone :=
  match hed with
  | .fail t => return .fail t
  | hed => do
      let tal ← mink sky n a d tax
      return autocons hed tal

theorem mink_cons (n : Nat) (tax : List (Noun × Noun)) :
    mink sky (n + 1) a (.cell (.cell b c) d) tax
      = mink sky n a (.cell b c) tax >>= fun hed => afterHead sky a d tax hed n := rfl

theorem Yields.cons (hb : Yields sky a (.cell b c) x) (hd : Yields sky a d y) :
    Yields sky a (.cell (.cell b c) d) (.cell x y) := by
  intro tax
  have htal : Settles (afterHead sky a d tax (.good x)) (pure (.good (.cell x y))) :=
    Settles.bind (h := fun tal _ => pure (autocons (.good x) tal)) (hd tax) (.const _)
  exact .call (fun n => mink_cons n tax) ((hb tax).bind htal)

theorem Fails.head (hb : Fails sky a (.cell b c)) : Fails sky a (.cell (.cell b c) d) := by
  intro tax
  obtain ⟨t, ht⟩ := hb tax
  have hrest : Settles (afterHead sky a d tax (.fail t)) (pure (.fail t)) := .const _
  exact ⟨t, .call (fun n => mink_cons n tax) (ht.bind hrest)⟩

theorem Fails.tail (hb : Yields sky a (.cell b c) x) (hd : Fails sky a d) :
    Fails sky a (.cell (.cell b c) d) := by
  intro tax
  obtain ⟨t, ht⟩ := hd tax
  have htal : Settles (afterHead sky a d tax (.good x)) (pure (.fail t)) :=
    Settles.bind (h := fun tal _ => pure (autocons (.good x) tal)) ht (.const _)
  exact ⟨t, .call (fun n => mink_cons n tax) ((hb tax).bind htal)⟩

/-- A formula in an operand is a cell. -/
theorem Yields.cell (h : Yields sky a f p) : ∃ b c, f = .cell b c := by
  cases f with
  | atom n =>
      have hfail : Settles (fun n' => mink sky n' a (.atom n) []) (pure (.fail [])) :=
        .call (fun n => rfl) (.const _)
      cases (h []).unique hfail
  | cell b c => exact ⟨b, c, rfl⟩

/-- What operator 2 does with the pair of its operands. -/
def afterPair (sky : Noun → Virt (Option Noun)) (tax : List (Noun × Noun)) (p : Noun)
    (n : Nat) : Virt Tone :=
  match p with
  | .atom _ => throw ()
  | .cell s f => mink sky n s f tax

theorem mink_nock (n : Nat) (tax : List (Noun × Noun)) :
    mink sky (n + 1) a (op 2 (.cell (.cell b c) d)) tax
      = mink sky n a (.cell (.cell b c) d) tax >>= fun ben =>
          onGood ben fun p => afterPair sky tax p n := rfl

theorem Yields.nock (hb : Yields sky a b x) (hc : Yields sky a c y) (hp : Yields sky x y p) :
    Yields sky a (op 2 (.cell b c)) p := by
  obtain ⟨b, b', rfl⟩ := hb.cell
  exact .operand mink_nock (hb.cons hc) hp

theorem Fails.nockSubject (hb : Fails sky a b) : Fails sky a (op 2 (.cell b c)) := by
  cases b with
  | atom n => exact .now fun _ _ => rfl
  | cell b b' => exact .operand mink_nock hb.head

theorem Fails.nockFormula (hb : Yields sky a b x) (hc : Fails sky a c) :
    Fails sky a (op 2 (.cell b c)) := by
  obtain ⟨b, b', rfl⟩ := hb.cell
  exact .operand mink_nock (hc.tail hb)

theorem Fails.nock (hb : Yields sky a b x) (hc : Yields sky a c y) (hp : Fails sky x y) :
    Fails sky a (op 2 (.cell b c)) := by
  obtain ⟨b, b', rfl⟩ := hb.cell
  exact .after mink_nock (hb.cons hc) hp

theorem Yields.wut (hb : Yields sky a b x) : Yields sky a (op 3 b) (wut x) :=
  .operand (k := fun _ p _ => pure (.good (Nock.wut p))) (fun _ _ => rfl) hb fun _ => .const _

/-- What operator 4 does with its operand. -/
def afterLus (tax : List (Noun × Noun)) (p : Noun) (_ : Nat) : Virt Tone :=
  match p with
  | .atom x => return .good (.atom (x + 1))
  | .cell _ _ => return .fail tax

theorem mink_lus (n : Nat) (tax : List (Noun × Noun)) :
    mink sky (n + 1) a (op 4 b) tax
      = mink sky n a b tax >>= fun ben => onGood ben fun p => afterLus tax p n := rfl

theorem Yields.lus {x : Nat} (hb : Yields sky a b (.atom x)) :
    Yields sky a (op 4 b) (.atom (x + 1)) :=
  .operand mink_lus hb fun _ => .const _

/-- What operator 5 does with its operand. -/
def afterTis (tax : List (Noun × Noun)) (p : Noun) (_ : Nat) : Virt Tone :=
  match p with
  | .atom _ => return .fail tax
  | .cell p q => return .good (tis p q)

theorem mink_tis (n : Nat) (tax : List (Noun × Noun)) :
    mink sky (n + 1) a (op 5 b) tax
      = mink sky n a b tax >>= fun ben => onGood ben fun p => afterTis tax p n := rfl

theorem Yields.tis (hb : Yields sky a b (.cell x y)) : Yields sky a (op 5 b) (tis x y) :=
  .operand mink_tis hb fun _ => .const _

theorem Yields.hint (hc : Yields sky a c x) (hd : Yields sky a d p) :
    Yields sky a (op 10 (.cell (.cell b c) d)) p :=
  .operand (k := fun tax p n => mink sky n a d (if frameHint b then (b, p) :: tax else tax))
    (fun _ _ => rfl) hc fun _ => hd _

/-- The pick of the macro of operator 6. -/
theorem Yields.pick {n : Nat} (hg : Yields sky a g (.atom n)) (hs : Nock.slot n b = some p) :
    Yields sky a (op 2 (.cell (op 1 b) (.cell (op 1 (.atom 0)) g))) p :=
  .nock .const (.cons .const hg) (.slot hs)

/-- The branch the macro of operator 6 chooses. -/
theorem Yields.chosen {n : Nat} (hb : Yields sky a b (.atom n))
    (hs : Nock.slot (n + 2) (.cell c d) = some p)
    (h23 : Nock.slot (n + 2) (.cell (.atom 2) (.atom 3)) = some (.atom (n + 2))) :
    Yields sky a (op 2 (.cell (op 1 (.cell c d))
      (.cell (op 1 (.atom 0)) (op 2 (.cell (op 1 (.cell (.atom 2) (.atom 3)))
        (.cell (op 1 (.atom 0)) (op 4 (op 4 b)))))))) p :=
  .pick (.pick hb.lus.lus h23) hs

theorem Yields.self : Yields sky a (op 0 (.atom 1)) a := .slot (slot_one a)

theorem Yields.then_ (hb : Yields sky a b (.atom 0)) (hc : Yields sky a c p) :
    Yields sky a (op 6 (.cell b (.cell c d))) p := by
  have hchosen := hb.chosen (slot_two c d) (slot_two _ _)
  exact .rewrite (fun _ _ => rfl) (.nock .self hchosen hc)

theorem Yields.else_ (hb : Yields sky a b (.atom 1)) (hd : Yields sky a d p) :
    Yields sky a (op 6 (.cell b (.cell c d))) p := by
  have hchosen := hb.chosen (slot_three c d) (slot_three _ _)
  exact .rewrite (fun _ _ => rfl) (.nock .self hchosen hd)

theorem Fails.then_ (hb : Yields sky a b (.atom 0)) (hc : Fails sky a c) :
    Fails sky a (op 6 (.cell b (.cell c d))) := by
  have hchosen := hb.chosen (slot_two c d) (slot_two _ _)
  exact .rewrite (fun _ _ => rfl) (.nock .self hchosen hc)

theorem Fails.else_ (hb : Yields sky a b (.atom 1)) (hd : Fails sky a d) :
    Fails sky a (op 6 (.cell b (.cell c d))) := by
  have hchosen := hb.chosen (slot_three c d) (slot_three _ _)
  exact .rewrite (fun _ _ => rfl) (.nock .self hchosen hd)

/-- A conditional whose axis of `[2 3]` is not computed. -/
theorem Fails.test
    (h : Fails sky a (op 2 (.cell (op 1 (.cell (.atom 2) (.atom 3)))
      (.cell (op 1 (.atom 0)) (op 4 (op 4 b)))))) :
    Fails sky a (op 6 (.cell b (.cell c d))) :=
  .rewrite (fun _ _ => rfl) (.nockFormula .self (.nockFormula .const (.tail .const h)))

theorem Fails.lus (hb : Fails sky a b) : Fails sky a (op 4 b) := .operand mink_lus hb

theorem Fails.lusCell (hb : Yields sky a b (.cell x y)) : Fails sky a (op 4 b) :=
  .after mink_lus hb fun tax => ⟨tax, .const _⟩

theorem Fails.testValue (hb : Yields sky a b x) (h0 : x ≠ .atom 0) (h1 : x ≠ .atom 1) :
    Fails sky a (op 6 (.cell b (.cell c d))) := by
  cases x with
  | atom n =>
      have hn : 4 ≤ n + 1 + 1 := by
        have hn0 : n ≠ 0 := fun h => h0 (by rw [h])
        have hn1 : n ≠ 1 := fun h => h1 (by rw [h])
        omega
      exact .test (.nock .const (.cons .const hb.lus.lus) (.slot (slot_atoms hn)))
  | cell y z => exact .test (.nockFormula .const (.tail .const (.lus (.lusCell hb))))

/-- Operator 8 puts the pushed product after the subject, not before it. -/
theorem Yields.eight (hb : Yields sky a b x) (hc : Yields sky (.cell a x) c p) :
    Yields sky a (op 8 (.cell b c)) p :=
  .rewrite (fun _ _ => rfl) (.rewrite (fun _ _ => rfl) (.nock (.cons .self hb) .const hc))

/-- Operator 9 yields the arm itself. -/
theorem Yields.nine {n : Nat} (hc : Yields sky a c x) (hs : Nock.slot n x = some p) :
    Yields sky a (op 9 (.cell (.atom n) c)) p :=
  .rewrite (fun _ _ => rfl) (.rewrite (fun _ _ => rfl) (.nock hc .const (.slot hs)))

/-- The operators that `mink` does not evaluate by a rule of the text: 8 and 9 are rewritten
otherwise, and 11 is not in the text. -/
def Astray (n : Nat) : Prop := n = 8 ∨ n = 9 ∨ n = 11

instance (n : Nat) : Decidable (Astray n) := inferInstanceAs (Decidable (_ ∨ _))

/-- A formula that has a product yields it. -/
theorem yields_of_eval (h : Eval a f p) : ¬Comes Astray a f → Yields sky a f p := by
  induction h with
  | cons hx _ ihx ihy =>
      exact fun hs => .cons (ihx fun h => hs (.head h)) (ihy fun h => hs (.tail hx h))
  | slot hs => exact fun _ => .slot hs
  | const => exact fun _ => .const
  | nock hb hc _ ihb ihc ihp =>
      exact fun hs => .nock (ihb fun h => hs (.nockSubject h)) (ihc fun h => hs (.nockFormula hb h))
        (ihp fun h => hs (.nock hb hc h))
  | wut _ ih => exact fun hs => .wut (ih fun h => hs (.wut h))
  | lus _ ih => exact fun hs => .lus (ih fun h => hs (.lus h))
  | tis _ ih => exact fun hs => .tis (ih fun h => hs (.tis h))
  | then_ hb _ ihb ihc =>
      exact fun hs => .then_ (ihb fun h => hs (.test h)) (ihc fun h => hs (.then_ hb h))
  | else_ hb _ ihb ihd =>
      exact fun hs => .else_ (ihb fun h => hs (.test h)) (ihd fun h => hs (.else_ hb h))
  | seven hb _ ihb ihc =>
      intro hs
      exact .rewrite (fun _ _ => rfl)
        (.nock (ihb fun h => hs (.first h)) .const (ihc fun h => hs (.second hb h)))
  | eight => exact fun hs => absurd (.here (.inl rfl)) hs
  | nine => exact fun hs => absurd (.here (.inr (.inl rfl))) hs
  | hint hc _ ihc ihd =>
      exact fun hs => .hint (ihc fun h => hs (.clue h)) (ihd fun h => hs (.hinted hc h))
  | skip _ ih => exact fun hs => .rewrite (fun _ _ => rfl) (ih fun h => hs (.skip h))

/-- A formula of a shape there is no rule for: a branch of `minkOp` is for a shape with a
rule, or for an operator that is astray. -/
theorem minkOp_shape {kick : Noun → Noun → List (Noun × Noun) → Virt Tone}
    {tax : List (Noun × Noun)} {n : Nat} (hn : ¬Astray n) (h : shaped n b = false) :
    minkOp sky kick a tax n b = pure (.fail tax) := by
  unfold minkOp
  split <;> first | rfl | exact absurd (by decide) hn | cases h

/-- A formula that crashes fails. -/
theorem fails_of_crash (h : Crash a f) : ¬Comes Astray a f → Fails sky a f := by
  induction h with
  | atom => exact fun _ => .now fun _ _ => rfl
  | @shape a b n hshape =>
      intro hs
      exact .now fun _ _ => minkOp_shape (fun hn => hs (.here hn)) hshape
  | head _ ih => exact fun hs => .head (ih fun h => hs (.head h))
  | tail hx _ ih =>
      intro hs
      exact .tail (yields_of_eval hx fun h => hs (.head h)) (ih fun h => hs (.tail hx h))
  | slot hs => exact fun _ => .slot hs
  | nockSubject _ ih => exact fun hs => .nockSubject (ih fun h => hs (.nockSubject h))
  | nockFormula hb _ ih =>
      intro hs
      exact .nockFormula (yields_of_eval hb fun h => hs (.nockSubject h))
        (ih fun h => hs (.nockFormula hb h))
  | nock hb hc _ ih =>
      intro hs
      exact .nock (yields_of_eval hb fun h => hs (.nockSubject h))
        (yields_of_eval hc fun h => hs (.nockFormula hb h)) (ih fun h => hs (.nock hb hc h))
  | wut _ ih =>
      intro hs
      exact .operand (k := fun _ p _ => pure (.good (Nock.wut p))) (fun _ _ => rfl)
        (ih fun h => hs (.wut h))
  | lus _ ih => exact fun hs => .lus (ih fun h => hs (.lus h))
  | lusCell hb => exact fun hs => .lusCell (yields_of_eval hb fun h => hs (.lus h))
  | tis _ ih => exact fun hs => .operand mink_tis (ih fun h => hs (.tis h))
  | tisAtom hb =>
      intro hs
      exact .after mink_tis (yields_of_eval hb fun h => hs (.tis h)) fun tax => ⟨tax, .const _⟩
  | test _ ih =>
      intro hs
      exact .test (.nockFormula .const (.tail .const (.lus (.lus (ih fun h => hs (.test h))))))
  | testValue hb h0 h1 =>
      exact fun hs => .testValue (yields_of_eval hb fun h => hs (.test h)) h0 h1
  | then_ hb _ ih =>
      exact fun hs => .then_ (yields_of_eval hb fun h => hs (.test h)) (ih fun h => hs (.then_ hb h))
  | else_ hb _ ih =>
      exact fun hs => .else_ (yields_of_eval hb fun h => hs (.test h)) (ih fun h => hs (.else_ hb h))
  | first _ ih =>
      exact fun hs => .rewrite (fun _ _ => rfl) (.nockSubject (ih fun h => hs (.first h)))
  | second hb _ ih =>
      intro hs
      exact .rewrite (fun _ _ => rfl)
        (.nock (yields_of_eval hb fun h => hs (.first h)) .const (ih fun h => hs (.second hb h)))
  | pushed => exact fun hs => absurd (.here (.inl rfl)) hs
  | push => exact fun hs => absurd (.here (.inl rfl)) hs
  | core => exact fun hs => absurd (.here (.inr (.inl rfl))) hs
  | armless => exact fun hs => absurd (.here (.inr (.inl rfl))) hs
  | arm => exact fun hs => absurd (.here (.inr (.inl rfl))) hs
  | @clue a b c d _ ih =>
      intro hs
      exact .operand
        (k := fun tax p n => mink sky n a d (if frameHint b then (b, p) :: tax else tax))
        (fun _ _ => rfl) (ih fun h => hs (.clue h))
  | @hinted a b c d x hc _ ih =>
      intro hs
      exact .after
        (k := fun tax p n => mink sky n a d (if frameHint b then (b, p) :: tax else tax))
        (fun _ _ => rfl) (yields_of_eval hc fun h => hs (.clue h))
        fun _ => ih (fun h => hs (.hinted hc h)) _
  | skip _ ih => exact fun hs => .rewrite (fun _ _ => rfl) (ih fun h => hs (.skip h))

end rules

/-! ### What `mink` returns -/

section sound

variable {sky : Noun → Virt (Option Noun)} {a b f : Noun} {r : Except Unit Tone}

/-- A result of `*[a f]` that the text bears out. -/
def Means (a f : Noun) : Except Unit Tone → Prop
  | .ok (.good p) => Eval a f p
  | .ok (.fail _) => Crash a f
  | .ok (.block _) => False
  | .error _ => False

/-- A formula that has the ends of another. -/
theorem Means.imp {a a' f f' : Noun} (h : Means a f r) (heval : ∀ p, Eval a f p → Eval a' f' p)
    (hcrash : Crash a f → Crash a' f') : Means a' f' r :=
  match r, h with
  | .ok (.good p), h => heval p h
  | .ok (.fail _), h => hcrash h

/-- What `kick` returns is borne out, but for formulas that come to an operator astray. -/
def Sound (kick : Noun → Noun → List (Noun × Noun) → Virt Tone) : Prop :=
  ∀ a f tax r, ¬Comes Astray a f → (kick a f tax).run = some r → Means a f r

/-- The operators the macros are made of have the rules of the text. -/
theorem astray_macro (n : Nat) (h : Astray n) : 5 < n := by
  rcases h with h | h | h <;> omega

theorem run_pure {t : Tone} (h : (pure t : Virt Tone).run = some r) : r = .ok t :=
  (Option.some.inj h).symm

/-- A computation that goes on after a sound one. -/
theorem sound_bind {g : Virt Tone} {k : Tone → Virt Tone}
    (hg : ∀ r, g.run = some r → Means a b r) (h : (g >>= k).run = some r) :
    (∃ x, Eval a b x ∧ (k (.good x)).run = some r) ∨
      ∃ t, Crash a b ∧ (k (.fail t)).run = some r := by
  cases hr : g.run with
  | none =>
      rw [ExceptT.run_bind, hr] at h
      cases h
  | some q =>
      rw [ExceptT.run_bind, hr] at h
      have hq := hg q hr
      match q, hq, h with
      | .ok (.good x), hq, h => exact .inl ⟨x, hq, h⟩
      | .ok (.fail t), hq, h => exact .inr ⟨t, hq, h⟩

/-- The same for an operand: a failure is passed on. -/
theorem sound_operand {g : Virt Tone} {k : Noun → Virt Tone}
    (hg : ∀ r, g.run = some r → Means a b r)
    (h : (g >>= fun ben => onGood ben k).run = some r) (hcrash : Crash a b → Crash a f)
    (hk : ∀ x, Eval a b x → (k x).run = some r → Means a f r) : Means a f r := by
  rcases sound_bind hg h with ⟨x, hx, h⟩ | ⟨t, ht, h⟩
  · exact hk x hx h
  · rw [run_pure h]
    exact hcrash ht

theorem sound_slot {kick : Noun → Noun → List (Noun × Noun) → Virt Tone} (hkick : Sound kick)
    {tax : List (Noun × Noun)} {n : Nat}
    (h : (minkOp sky kick a tax 0 (.atom n)).run = some r) : Means a (op 0 (.atom n)) r := by
  by_cases h0 : n = 0
  · subst h0
    rw [run_pure h]
    exact .slot (slot_zero a)
  by_cases h1 : n = 1
  · subst h1
    rw [run_pure h]
    exact .slot (slot_one a)
  change (if n = 0 then pure (.fail tax) else if n = 1 then _ else _ : Virt Tone).run = _ at h
  rw [if_neg h0, if_neg h1] at h
  cases a with
  | atom x =>
      rw [run_pure h]
      exact .slot (Ut.slot_atom (by omega))
  | cell p q =>
      obtain ⟨c, m, hc, hm, -, -, hs⟩ := cap_mas (by omega : 2 ≤ n)
      simp only [hc, hm, pure_bind] at h
      have hmean := hkick _ _ _ _ (comes_slot astray_macro) h
      refine hmean.imp (fun y hy => ?_) fun hcrash => .slot ((hs _ _).trans (crash_slot_inv hcrash))
      obtain ⟨i, hi, hslot⟩ := eval_slot_inv hy
      cases hi
      exact .slot ((hs _ _).trans hslot)

/-- One evaluation by an operator. -/
theorem sound_op {kick : Noun → Noun → List (Noun × Noun) → Virt Tone} (hkick : Sound kick)
    {tax : List (Noun × Noun)} {n : Nat} (hs : ¬Comes Astray a (op n b))
    (h : (minkOp sky kick a tax n b).run = some r) : Means a (op n b) r := by
  have hn : ¬Astray n := fun hn => hs (.here hn)
  cases hshape : shaped n b with
  | false =>
      rw [minkOp_shape hn hshape] at h
      rw [run_pure h]
      exact .shape hshape
  | true =>
  unfold shaped at hshape
  split at hshape
  · exact sound_slot hkick h
  · rw [run_pure h]
    exact .const
  · next b c =>
      cases b with
      | atom m =>
          rw [run_pure h]
          exact .nockSubject .atom
      | cell b b' =>
          -- the operand is the pair of subject and formula
          have hpair : ¬Comes Astray a (.cell (.cell b b') c) := by
            intro hc
            cases hc with
            | head hb => exact hs (.nockSubject hb)
            | tail hb hc => exact hs (.nockFormula hb hc)
          refine sound_operand (hkick _ _ _ · hpair) h ?_ ?_
          · intro hc
            cases hc with
            | head hb => exact .nockSubject hb
            | tail hb hc => exact .nockFormula hb hc
          · intro x hx h
            obtain ⟨y, z, rfl, hy, hz⟩ := eval_cons_inv hx
            have hmean := hkick _ _ _ _ (fun hc => hs (.nock hy hz hc)) h
            exact hmean.imp (fun _ => .nock hy hz) (.nock hy hz)
  · refine sound_operand (hkick _ _ _ · fun hb => hs (.wut hb)) h .wut ?_
    intro x hx h
    rw [run_pure h]
    exact .wut hx
  · refine sound_operand (hkick _ _ _ · fun hb => hs (.lus hb)) h .lus ?_
    intro x hx h
    cases x with
    | atom x =>
        rw [run_pure h]
        exact .lus hx
    | cell y z =>
        rw [run_pure h]
        exact .lusCell hx
  · refine sound_operand (hkick _ _ _ · fun hb => hs (.tis hb)) h .tis ?_
    intro x hx h
    cases x with
    | atom x =>
        rw [run_pure h]
        exact .tisAtom hx
    | cell y z =>
        rw [run_pure h]
        exact .tis hx
  · have hmean := hkick _ _ _ _ (fun hc => hs (comes_six astray_macro hc)) h
    exact hmean.imp (fun _ => eval_six) crash_six
  · have hmean := hkick _ _ _ _ (fun hc => hs (comes_seven astray_macro hc)) h
    refine hmean.imp (fun p hp => ?_) crash_seven
    obtain ⟨x, y, hx, hy, hp⟩ := eval_nock_inv hp
    cases eval_const_inv hy
    exact .seven hx hp
  · exact absurd (by decide) hn
  · exact absurd (by decide) hn
  · next b c =>
      cases b with
      | atom m =>
          have hmean := hkick _ _ _ _ (fun hc => hs (.skip hc)) h
          exact hmean.imp (fun _ => .skip) .skip
      | cell b b' =>
          refine sound_operand (hkick _ _ _ · fun hb => hs (.clue hb)) h .clue ?_
          intro x hx h
          have hmean := hkick _ _ _ _ (fun hc => hs (.hinted hx hc)) h
          exact hmean.imp (fun _ => .hint hx) (.hinted hx)
  · cases hshape

/-- Whatever `mink` returns is borne out by the text. -/
theorem mink_sound (n : Nat) : Sound (mink sky n) := by
  induction n with
  | zero => exact fun _ _ _ _ _ h => nomatch h
  | succ n ih =>
      intro a f tax r hs h
      match f, hs, h with
      | .atom m, _, h =>
          rw [run_pure h]
          exact .atom
      | .cell (.cell b c) d, hs, h =>
          rw [mink_cons] at h
          rcases sound_bind (ih _ _ _ · fun hb => hs (.head hb)) h with ⟨x, hx, h⟩ | ⟨t, ht, h⟩
          · rcases sound_bind (ih _ _ _ · fun hd => hs (.tail hx hd)) h with ⟨y, hy, h⟩ | ⟨t, ht, h⟩
            · rw [run_pure h]
              exact .cons hx hy
            · rw [run_pure h]
              exact .tail hx ht
          · rw [run_pure h]
            exact .head ht
      | .cell (.atom k) b, hs, h => exact sound_op ih hs h

end sound

/-- A settled result is returned for some fuel. -/
theorem Returns.means {sky : Noun → Virt (Option Noun)} {a f : Noun} {t : Tone}
    (hs : ¬Comes Astray a f) (h : Returns sky a f t) : Means a f (.ok t) := by
  obtain ⟨n, hn⟩ := h
  exact mink_sound n a f [] (.ok t) hs (congrArg ExceptT.run (hn n (Nat.le_refl n)))

/-- Where the evaluation comes to no operator that is astray, `mink` is Nock: it returns a
product where the text has one and a trace where it crashes, whatever the sky, and it neither
blocks nor crashes. -/
theorem mink_is_nock (sky : Noun → Virt (Option Noun)) (sub fol : Noun)
    (h : ¬Comes Astray sub fol) :
    (∀ p, Returns sky sub fol (.good p) ↔ Tar sub fol p) ∧
      ((∃ t, Returns sky sub fol (.fail t)) ↔ Crash sub fol) ∧
      (∀ l, ¬Returns sky sub fol (.block l)) ∧ ∀ n, mink sky n sub fol [] ≠ throw () := by
  refine ⟨fun p => ⟨fun hr => ?_, fun ht => ?_⟩, ⟨?_, fun hc => ?_⟩, ?_, ?_⟩
  · exact Eval.tar (hr.means h)
  · exact yields_of_eval ht.eval h []
  · rintro ⟨t, ht⟩
    exact ht.means h
  · exact fails_of_crash hc h []
  · exact fun l hl => hl.means h
  · intro n hn
    exact mink_sound n sub fol [] (.error ()) h (congrArg ExceptT.run hn)

/-- `[6 [5 0 1] [4 0 2] 0 0]` on `[3 3]`: the sides are equal, so one more than the head. -/
theorem mink_is_nock_test :
    Returns (fun _ => pure none) (.cell (.atom 3) (.atom 3))
      (op 6 (.cell (op 5 (op 0 (.atom 1))) (.cell (op 4 (op 0 (.atom 2))) (op 0 (.atom 0)))))
      (.good (.atom 4)) := by
  have hs : ¬Comes Astray (.cell (.atom 3) (.atom 3))
      (op 6 (.cell (op 5 (op 0 (.atom 1))) (.cell (op 4 (op 0 (.atom 2))) (op 0 (.atom 0))))) := by
    intro hc
    cases hc with
    | here hn => exact absurd hn (by decide)
    | test hb =>
        cases hb with
        | here hn => exact absurd hn (by decide)
        | tis h => exact comes_slot astray_macro h
    | then_ _ hc => exact comes_slot astray_macro (comes_lus_inv astray_macro hc)
    | else_ _ hd => exact comes_slot astray_macro hd
  have he : Eval (.cell (.atom 3) (.atom 3))
      (op 6 (.cell (op 5 (op 0 (.atom 1))) (.cell (op 4 (op 0 (.atom 2))) (op 0 (.atom 0)))))
      (.atom 4) := .then_ (.tis (.slot (slot_one _))) (.lus (.slot (slot_two _ _)))
  exact ((mink_is_nock _ _ _ hs).1 _).mpr he.tar

/-- `[8 [1 1] 0 1]` on 0 is `[1 0]`, and `mink` makes it `[0 1]`. `[9 2 0 1]` on `[[1 5] 0]` is
5, and `mink` makes it the formula `[1 5]`. -/
theorem mink_is_not_nock :
    (Tar (.atom 0) (op 8 (.cell (op 1 (.atom 1)) (op 0 (.atom 1)))) (.cell (.atom 1) (.atom 0)) ∧
      ∀ sky : Noun → Virt (Option Noun),
        ¬Returns sky (.atom 0) (op 8 (.cell (op 1 (.atom 1)) (op 0 (.atom 1))))
          (.good (.cell (.atom 1) (.atom 0)))) ∧
    Tar (.cell (op 1 (.atom 5)) (.atom 0)) (op 9 (.cell (.atom 2) (op 0 (.atom 1)))) (.atom 5) ∧
      ∀ sky : Noun → Virt (Option Noun),
        ¬Returns sky (.cell (op 1 (.atom 5)) (.atom 0)) (op 9 (.cell (.atom 2) (op 0 (.atom 1))))
          (.good (.atom 5)) := by
  refine ⟨⟨?_, ?_⟩, ?_, ?_⟩
  · exact Eval.tar (.eight .const (.slot (slot_one _)))
  · intro sky h
    have hpush : Returns sky (.atom 0) (op 8 (.cell (op 1 (.atom 1)) (op 0 (.atom 1))))
        (.good (.cell (.atom 0) (.atom 1))) :=
      Yields.eight .const .self []
    cases h.unique hpush
  · exact Eval.tar (.nine (.slot (slot_one _)) (slot_two _ _) .const)
  · intro sky h
    have harm : Returns sky (.cell (op 1 (.atom 5)) (.atom 0))
        (op 9 (.cell (.atom 2) (op 0 (.atom 1)))) (.good (op 1 (.atom 5))) :=
      Yields.nine .self (slot_two _ _) []
    cases h.unique harm

end Vere.Hoon
