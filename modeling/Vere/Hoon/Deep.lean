import Vere.Hoon.Rege

/-!
# Vere.Hoon.Deep

The matcher of regular expressions (`++deep`, `++chet` and `++matc`, section 2eM of
`hoon.hoon`).

`deep a b c d` takes an expression off the front of `b`, which is left of the whole text `d`,
and is told the expression `c` that comes after it. It does not come back to a choice: it looks
at once whether `c` can match what an alternative leaves. The arms call themselves on larger
expressions, so they get fuel here, and `Virt.never` is what they come to when it runs out.
More fuel changes no result (`deep_mono`).
-/

namespace Vere.Hoon

/-- `++slag`: suffix. -/
def slag {α : Type} : Nat → List α → List α
  | 0, b => b
  | _, [] => []
  | a + 1, _ :: b => slag a b

theorem slag_eq_drop {α : Type} (a : Nat) (b : List α) : slag a b = b.drop a := by
  induction a generalizing b with
  | zero => rfl
  | succ a ih =>
      cases b with
      | nil => rfl
      | cons i b => exact ih b

namespace Rexp

/-- `(map ,@u tape)`: what the groups matched. -/
abbrev Caps := Nat → Option Tape

/-- `put:by`. -/
def Caps.put (m : Caps) (k : Nat) (v : Tape) : Caps := fun x => if x = k then some v else m x

/-- `++cont`: the entries of both, those of the second first. -/
def cont (a b : Caps) : Caps := fun k => (b k).or (a k)

/-- `(unit ,[tape (map ,@u tape)])`. -/
abbrev Found := Option (Tape × Caps)

/-- A map without entries. -/
def bare : Caps := fun _ => none

/-- `++blak`. -/
def blak : Found := some ([], bare)

/-- There is no word character before `b` in `d`. -/
def luc (b d : Tape) : Virt Bool :=
  if b = d then return true
  else if d.length ≤ b.length then throw ()
  else
    match slag (d.length - b.length - 1) d with
    | [] => throw ()
    | i :: _ => return dis wordc (bex i) = 0

/-- There is none at the front of `b`. -/
def cuc : Tape → Bool
  | [] => true
  | i :: _ => dis wordc (bex i) = 0

/-- One character, if it is right. -/
def take (ok : Nat → Bool) : Tape → Found
  | [] => none
  | i :: _ => if ok i then some ([i], bare) else none

section deep

variable (d : Tape)

/-- `deep`, without the whole text. -/
abbrev Deep := Rege → Tape → Rege → Virt Found

/-- `++chet`. -/
def chet (deep : Deep) (a : Found) (b : Rege) (c : Tape) : Virt Found :=
  match a with
  | none => return a
  | some ([], _) => return a
  | some (ft, _) => do
      let bar ← deep b (slag ft.length c) .empt
      return if bar.isNone then none else a

theorem chet_cons (deep : Deep) (i : Nat) (ft : Tape) (m : Caps) (b : Rege) (c : Tape) :
    chet deep (some (i :: ft, m)) b c = (do
      let bar ← deep b (slag (i :: ft).length c) .empt
      return if bar.isNone then none else some (i :: ft, m)) := rfl

/-- The body of `++deep`. -/
def deepIn (deep : Deep) (a : Rege) (b : Tape) (c : Rege) : Virt Found :=
  match a with
  | .dote => return take (fun _ => true) b
  | .ende => return if b = [] then blak else none
  | .sart => return if b = d then blak else none
  | .empt => return blak
  | .boun => do
      let luc ← luc b d
      return if luc ≠ cuc b then blak else none
  | .bout => do
      let luc ← luc b d
      return if luc = cuc b then blak else none
  | .capt p q => do
      match ← deep p b c with
      | none => return none
      | some (ft, m) =>
          match ← deep c (slag ft.length b) .empt with
          | none => return none
          | some _ => return some (ft, m.put q ft)
  | .lite p => return take (fun i => i = p) b
  | .brac p => return take (fun i => dis (bex i) p ≠ 0) b
  | .eith p q => do
      let foo ← chet deep (← deep p b c) c b
      let bar ← chet deep (← deep q b c) c b
      match foo, bar with
      | none, bar => return bar
      | foo, none => return foo
      | some ft, some bt => return if bt.1.length ≤ ft.1.length then foo else bar
  | .pair p q => do
      match ← deep p b (.pair q c) with
      | none => return none
      | some (ft, m) =>
          match ← deep q (slag ft.length b) c with
          | none => return none
          | some (bt, m') => return some (ft ++ bt, cont m m')
  | .manl p => do
      match ← deep p b c with
      | none => return blak
      | some ([], _) => return blak
      | some _ => deep (.eith .empt (.pair p (.eith .empt a))) b c
  | .mant p => do
      match ← deep p b c with
      | none => return blak
      | some ([], _) => return blak
      | some _ => deep (.eith (.pair p (.eith a .empt)) .empt) b c
  | .plls p => deep (.pair p (.mant p)) b c
  | .plll p => deep (.pair p (.manl p)) b c
  | .binl p q => if q = 0 then deep (.manl p) b c else deep (.pair p (.binl p (q - 1))) b c
  | .bant p q => if q = 0 then return blak else deep (.pair p (.bant p (q - 1))) b c
  | .bint p q => if q = 0 then deep (.mant p) b c else deep (.pair p (.bint p (q - 1))) b c
  | .betw p q r =>
      if r = 0 then return blak
      else if q = 0 then deep (.eith (.pair p (.betw p 0 (r - 1))) .empt) b c
      else deep (.pair p (.betw p (q - 1) (r - 1))) b c
  | .betl p q r =>
      if r = 0 then return blak
      else if q = 0 then deep (.eith .empt (.pair p (.betl p 0 (r - 1)))) b c
      else deep (.pair p (.betl p (q - 1) (r - 1))) b c

/-- `++deep`. -/
def deep : Nat → Deep
  | 0 => fun _ _ _ => .never
  | n + 1 => deepIn d (deep n)

/-- `++matc`. -/
def matc (n : Nat) (a : Rege) (b : Tape) : Virt (Option Caps) := do
  let foo ← deep d n a b .empt
  return foo.map fun a => a.2.put 0 a.1

end deep

/-! ### More fuel -/

/-- The one is not over, or the other comes to the same. -/
def Upto {α : Type} (x y : Virt α) : Prop := x = .never ∨ x = y

section upto

variable {α β : Type} {x y : Virt α}

theorem Upto.refl (x : Virt α) : Upto x x := .inr rfl

theorem Upto.pure (h : Upto x y) {a : α} (hx : x = pure a) : y = pure a := by
  rcases h with h | h
  · rw [h] at hx
    cases hx
  · rw [← h, hx]

theorem Upto.bind {f g : α → Virt β} (h : Upto x y) (hf : ∀ a, Upto (f a) (g a)) :
    Upto (x >>= f) (y >>= g) := by
  rcases h with rfl | rfl
  · exact .inl rfl
  · match x with
    | none => exact .inl rfl
    | some (.ok a) => exact hf a
    | some (.error _) => exact .inr rfl

end upto

theorem chet_upto {f g : Deep} (h : ∀ a b c, Upto (f a b c) (g a b c)) (a : Found) (b : Rege)
    (c : Tape) : Upto (chet f a b c) (chet g a b c) := by
  match a with
  | none => exact .refl _
  | some ([], _) => exact .refl _
  | some (i :: t, m) => exact (h _ _ _).bind fun bar => .refl _

theorem deepIn_upto {d : Tape} {f g : Deep} (h : ∀ a b c, Upto (f a b c) (g a b c)) (a : Rege)
    (b : Tape) (c : Rege) : Upto (deepIn d f a b c) (deepIn d g a b c) := by
  cases a with
  | dote | ende | sart | empt | boun | bout | lite p | brac p => exact .refl _
  | capt p q =>
      refine (h p b c).bind fun foo => ?_
      match foo with
      | none => exact .refl _
      | some (ft, m) => exact (h _ _ _).bind fun bar => .refl _
  | eith p q =>
      refine (h p b c).bind fun foo => (chet_upto h foo c b).bind fun foo => ?_
      exact (h q b c).bind fun bar => (chet_upto h bar c b).bind fun bar => .refl _
  | pair p q =>
      refine (h p b _).bind fun foo => ?_
      match foo with
      | none => exact .refl _
      | some (ft, m) => exact (h _ _ _).bind fun bar => .refl _
  | manl p | mant p =>
      refine (h p b c).bind fun foo => ?_
      match foo with
      | none => exact .refl _
      | some ([], _) => exact .refl _
      | some (i :: t, m) => exact h _ _ _
  | plls p | plll p => exact h _ _ _
  | binl p q | bint p q =>
      simp only [deepIn]
      split <;> exact h _ _ _
  | bant p q =>
      simp only [deepIn]
      split
      · exact .refl _
      · exact h _ _ _
  | betw p q r | betl p q r =>
      simp only [deepIn]
      split
      · exact .refl _
      · split <;> exact h _ _ _

theorem deep_upto (d : Tape) {n m : Nat} (h : n ≤ m) (a : Rege) (b : Tape) (c : Rege) :
    Upto (deep d n a b c) (deep d m a b c) := by
  induction n generalizing m a b c with
  | zero => exact .inl rfl
  | succ n ih =>
      obtain ⟨k, rfl⟩ : ∃ k, m = k + 1 := ⟨m - 1, by omega⟩
      exact deepIn_upto (fun a b c => ih (by omega) a b c) a b c

theorem deep_mono {d : Tape} {n m : Nat} (h : n ≤ m) {a : Rege} {b : Tape} {c : Rege} {o : Found}
    (ho : deep d n a b c = pure o) : deep d m a b c = pure o := (deep_upto d h a b c).pure ho

theorem matc_mono {d : Tape} {n m : Nat} (h : n ≤ m) {a : Rege} {b : Tape} {o : Option Caps}
    (ho : matc d n a b = pure o) : matc d m a b = pure o :=
  ((deep_upto d h a b .empt).bind fun _ => .refl _).pure ho

/-- `++matc` comes to one thing only. -/
theorem matc_unique {d : Tape} {n m : Nat} {a : Rege} {b : Tape} {o o' : Option Caps}
    (h : matc d n a b = pure o) (h' : matc d m a b = pure o') : o = o' := by
  have hmax := matc_mono (Nat.le_max_left n m) h
  rw [matc_mono (Nat.le_max_right n m) h', Virt.pure_inj] at hmax
  exact hmax.symm

/-! ### What is found is at the front -/

theorem take_front {ok : Nat → Bool} {b ft : Tape} {m : Caps} (h : take ok b = some (ft, m)) :
    ft <+: b := by
  cases b with
  | nil => cases h
  | cons i b =>
      rw [take] at h
      split at h
      · cases h
        exact ⟨b, rfl⟩
      · cases h

theorem blak_front {P : Prop} [Decidable P] {b ft : Tape} {m : Caps}
    (h : (if P then blak else none) = some (ft, m)) : ft <+: b := by
  split at h
  · cases h
    exact List.nil_prefix
  · cases h

/-- `++chet` finds nothing of its own. -/
theorem chet_found {deep : Deep} {a : Found} {b : Rege} {c : Tape} {f : Tape × Caps}
    (h : chet deep a b c = pure (some f)) : a = some f := by
  match a, h with
  | some ([], _), h => exact Virt.pure_inj.mp h
  | some (i :: ft, m), h =>
      rw [chet_cons] at h
      obtain ⟨bar, -, h⟩ := Virt.bind_eq_pure.mp h
      split at h
      · cases Virt.pure_inj.mp h
      · exact Virt.pure_inj.mp h

theorem deepIn_front {d : Tape} {deep : Deep}
    (ih : ∀ {a b c ft m}, deep a b c = pure (some (ft, m)) → ft <+: b) {a : Rege} {b : Tape}
    {c : Rege} {ft : Tape} {m : Caps} (h : deepIn d deep a b c = pure (some (ft, m))) : ft <+: b := by
  have hblak {ft : Tape} {m : Caps} (h : (pure blak : Virt Found) = pure (some (ft, m))) : ft <+: b := by
    cases Virt.pure_inj.mp h
    exact List.nil_prefix
  cases a with
  | dote | lite p | brac p => exact take_front (Virt.pure_inj.mp h)
  | ende | sart => exact blak_front (Virt.pure_inj.mp h)
  | empt => exact hblak h
  | boun | bout =>
      obtain ⟨luc, -, h⟩ := Virt.bind_eq_pure.mp h
      exact blak_front (Virt.pure_inj.mp h)
  | capt p q =>
      obtain ⟨foo, hfoo, h⟩ := Virt.bind_eq_pure.mp h
      match foo, hfoo, h with
      | some (ft', m'), hfoo, h =>
          obtain ⟨bar, -, h⟩ := Virt.bind_eq_pure.mp h
          match bar, h with
          | some _, h =>
              cases Virt.pure_inj.mp h
              exact ih hfoo
  | eith p q =>
      obtain ⟨op, hp, h⟩ := Virt.bind_eq_pure.mp h
      obtain ⟨foo, hfoo, h⟩ := Virt.bind_eq_pure.mp h
      obtain ⟨oq, hq, h⟩ := Virt.bind_eq_pure.mp h
      obtain ⟨bar, hbar, h⟩ := Virt.bind_eq_pure.mp h
      have hleft : foo = some (ft, m) → ft <+: b := by
        rintro rfl
        exact ih (hp.trans (congrArg pure (chet_found hfoo)))
      have hright : bar = some (ft, m) → ft <+: b := by
        rintro rfl
        exact ih (hq.trans (congrArg pure (chet_found hbar)))
      match foo, bar, hleft, hright, h with
      | none, bar, _, hright, h => exact hright (Virt.pure_inj.mp h)
      | some f, none, hleft, _, h => exact hleft (Virt.pure_inj.mp h)
      | some f, some g, hleft, hright, h =>
          simp only at h
          split at h
          · exact hleft (Virt.pure_inj.mp h)
          · exact hright (Virt.pure_inj.mp h)
  | pair p q =>
      obtain ⟨foo, hfoo, h⟩ := Virt.bind_eq_pure.mp h
      match foo, hfoo, h with
      | some (ft', m'), hfoo, h =>
          obtain ⟨bar, hbar, h⟩ := Virt.bind_eq_pure.mp h
          match bar, hbar, h with
          | some (bt, m''), hbar, h =>
              cases Virt.pure_inj.mp h
              obtain ⟨t, rfl⟩ := ih hfoo
              rw [slag_eq_drop, List.drop_left] at hbar
              obtain ⟨t, rfl⟩ := ih hbar
              exact ⟨t, List.append_assoc ..⟩
  | manl p | mant p =>
      obtain ⟨foo, hfoo, h⟩ := Virt.bind_eq_pure.mp h
      match foo, h with
      | none, h => exact hblak h
      | some ([], _), h => exact hblak h
      | some (_ :: _, _), h => exact ih h
  | plls p | plll p => exact ih h
  | binl p q | bint p q =>
      simp only [deepIn] at h
      split at h <;> exact ih h
  | bant p q =>
      simp only [deepIn] at h
      split at h
      · exact hblak h
      · exact ih h
  | betw p q r | betl p q r =>
      simp only [deepIn] at h
      split at h
      · exact hblak h
      · split at h <;> exact ih h

theorem deep_front {d : Tape} {n : Nat} {a : Rege} {b : Tape} {c : Rege} {ft : Tape} {m : Caps}
    (h : deep d n a b c = pure (some (ft, m))) : ft <+: b := by
  induction n generalizing a b c ft m with
  | zero => cases h
  | succ n ih => exact deepIn_front ih h

/-- The text under 0 is there, and at the front. -/
theorem matc_front {d : Tape} {n : Nat} {a : Rege} {b : Tape} {u : Caps}
    (h : matc d n a b = pure (some u)) : ∃ ft t, u 0 = some ft ∧ b = ft ++ t := by
  obtain ⟨foo, hfoo, h⟩ := Virt.bind_eq_pure.mp h
  match foo, hfoo, h with
  | some (ft, m), hfoo, h =>
      cases Virt.pure_inj.mp h
      obtain ⟨t, rfl⟩ := deep_front hfoo
      exact ⟨ft, t, if_pos rfl, rfl⟩

end Rexp

end Vere.Hoon
