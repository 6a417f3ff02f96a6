import Vere.Lib.Ask

/-!
# Vere.Lib.Memo

A recursion that looks its calls up in a cache first and saves what they come to.

The cache is filed under a key that need not say everything about a call, and the body may
answer some calls itself before the cache is asked. `memo_sound` and `memo_ends` say when
the cache makes no difference: if what the cache may hold for a key is what every call with
that key comes to, or else is an answer that the caller takes as the crash it stands for.
-/

namespace Vere.Lib

/-- A cache: it finds nothing but what was saved, and may drop things. -/
structure Cash (K R : Type) where
  /-- What it stores. -/
  Store : Type
  empty : Store
  find : Store → K → Option R
  save : Store → K → R → Store
  find_empty : ∀ k, find empty k = none
  find_save : ∀ {s k r k' r'}, find (save s k r) k' = some r' →
    (k' = k ∧ r' = r) ∨ find s k' = some r'

namespace Ask

variable {Q K R α : Type} (cash : Cash K R)

/-- Run a program with questions that may change the cache. A crash leaves what was saved
before it. -/
def runMemo (rec : Q → cash.Store → Option (Except Unit R × cash.Store)) :
    Ask Q (fun _ => R) α → cash.Store → Option (Except Unit α × cash.Store)
  | stop x, s => Option.map (·, s) x
  | ask q k, s =>
      match rec q s with
      | none => none
      | some (.error e, s') => some (.error e, s')
      | some (.ok r, s') => runMemo rec (k r) s'

/-- The recursion with a cache. `now` are the calls that are answered before it is asked. -/
def memo (now : Q → Option R) (key : Q → K) (body : Q → Ask Q (fun _ => R) R) :
    Nat → Q → cash.Store → Option (Except Unit R × cash.Store)
  | 0, _, _ => none
  | n + 1, q, s =>
      match now q with
      | some r => some (.ok r, s)
      | none =>
          match cash.find s (key q) with
          | some r => some (.ok r, s)
          | none =>
              match runMemo cash (memo now key body n) (body q) s with
              | some (.ok r, s') => some (.ok r, cash.save s' (key q) r)
              | x => x

/-- An answer of the kind `soft` ends the program in a crash. -/
def Strict (soft : Q → R → Prop) : Ask Q (fun _ => R) α → Prop
  | stop _ => True
  | ask q k => (∀ r, soft q r → k r = stop (throw ())) ∧ ∀ r, (k r).Strict soft

section sound

/-- What makes a cache safe for a body. -/
structure Safe (now : Q → Option R) (key : Q → K) (body : Q → Ask Q (fun _ => R) R) where
  /-- The calls that the cache is used for. -/
  tame : Q → Prop
  /-- What the cache may hold. -/
  val : K → R → Prop
  /-- The answers that are found where the call itself crashes. -/
  soft : Q → R → Prop
  tame_made : ∀ {q q'}, tame q → (body q).Made (Gives body) q' → tame q'
  now_gives : ∀ {q r}, now q = some r → Gives body q r
  val_of_gives : ∀ {q r}, tame q → Gives body q r → val (key q) r
  of_val : ∀ {q r}, tame q → now q = none → val (key q) r →
    Gives body q r ∨ (soft q r ∧ Comes body q (.error ()))
  /-- A program that is given such an answer crashes too. -/
  strict : ∀ {q}, tame q → (body q).Strict soft

variable {cash} {now : Q → Option R} {key : Q → K} {body : Q → Ask Q (fun _ => R) R}
  (hs : Safe now key body)

/-- Everything in the cache is what it may hold. -/
def Safe.Good (s : cash.Store) : Prop := ∀ k r, cash.find s k = some r → hs.val k r

/-- What a call with the cache returns, by what the recursion comes to: the same, or an answer
found in the cache in place of a crash. -/
def Safe.Fits (s : cash.Store) (q : Q) (x : Except Unit R) : Prop :=
  Comes body q x ∨ ∃ r, x = .ok r ∧ (now q = none ∧ cash.find s (key q) = some r) ∧ hs.soft q r ∧
    Comes body q (.error ())

theorem Safe.good_empty : hs.Good cash.empty := by
  intro k r h
  rw [cash.find_empty] at h
  cases h

theorem Safe.Good.save {hs : Safe now key body} {s : cash.Store} {k : K} {r : R} (h : hs.Good s)
    (hr : hs.val k r) : hs.Good (cash.save s k r) := by
  intro k' r' hfind
  rcases cash.find_save hfind with ⟨rfl, rfl⟩ | hold
  · exact hr
  · exact h k' r' hold

/-- One program: the cache stays good, and it ends as without it. -/
theorem runMemo_sound {rec : Q → cash.Store → Option (Except Unit R × cash.Store)}
    {t : Ask Q (fun _ => R) α}
    (hrec : ∀ q, t.Made (Gives body) q → ∀ s x s', hs.Good s → rec q s = some (x, s') →
      hs.Good s' ∧ hs.Fits s q x)
    (hstrict : t.Strict hs.soft) {s s' : cash.Store} {x : Except Unit α} (hgood : hs.Good s)
    (h : runMemo cash rec t s = some (x, s')) :
    hs.Good s' ∧ ∃ n, t.run (fix body n) = some x := by
  induction t generalizing s with
  | stop y =>
      cases y with
      | none => cases h
      | some y =>
          cases h
          exact ⟨hgood, 0, rfl⟩
  | ask q k ih =>
      rw [runMemo] at h
      match hq : rec q s with
      | none =>
          rw [hq] at h
          cases h
      | some (.error e, s₁) =>
          rw [hq] at h
          cases h
          obtain ⟨hgood₁, hfits⟩ := hrec q .here s _ _ hgood hq
          refine ⟨hgood₁, ?_⟩
          rcases hfits with ⟨n, hn⟩ | ⟨r, hr, -⟩
          · exact ⟨n, by rw [run, hn]; rfl⟩
          · cases hr
      | some (.ok r, s₁) =>
          rw [hq] at h
          obtain ⟨hgood₁, hfits⟩ := hrec q .here s _ _ hgood hq
          rcases hfits with hr | ⟨r', hr', -, hsoft, n, hn⟩
          · obtain ⟨hgood', m, hm⟩ := ih r (fun q' hq' => hrec q' (.later hr hq'))
              (hstrict.2 r) hgood₁ h
            obtain ⟨n, hn⟩ := hr
            refine ⟨hgood', max n m, ?_⟩
            rw [run, fix_mono hn (Nat.le_max_left n m)]
            exact run_mono (fun _ _ hx => fix_mono hx (Nat.le_max_right n m)) hm
          · -- the answer found stands for a crash, and is taken as one
            cases hr'
            have h : runMemo cash rec (k r) s₁ = some (x, s') := h
            rw [hstrict.1 r hsoft] at h
            cases h
            exact ⟨hgood₁, n, by rw [run, hn]; rfl⟩

/-- A call with a good cache leaves one, and returns what it does without. -/
theorem memo_sound {n : Nat} {q : Q} {s s' : cash.Store} {x : Except Unit R} (htame : hs.tame q)
    (hgood : hs.Good s) (h : memo cash now key body n q s = some (x, s')) :
    hs.Good s' ∧ hs.Fits s q x := by
  induction n generalizing q s s' x with
  | zero => cases h
  | succ n ih =>
      rw [memo] at h
      match hnow : now q with
      | some r =>
          rw [hnow] at h
          cases h
          exact ⟨hgood, .inl (hs.now_gives hnow)⟩
      | none =>
          rw [hnow] at h
          match hfind : cash.find s (key q) with
          | some r =>
              rw [hfind] at h
              cases h
              refine ⟨hgood, ?_⟩
              rcases hs.of_val htame hnow (hgood _ _ hfind) with hr | ⟨hsoft, hcrash⟩
              · exact .inl hr
              · exact .inr ⟨r, rfl, ⟨hnow, hfind⟩, hsoft, hcrash⟩
          | none =>
              rw [hfind] at h
              match hrun : runMemo cash (memo cash now key body n) (body q) s with
              | none =>
                  rw [hrun] at h
                  cases h
              | some (y, s₁) =>
                  obtain ⟨hgood₁, m, hm⟩ := runMemo_sound hs
                    (fun q' hq' s x s' hg hx => ih (hs.tame_made htame hq') hg hx)
                    (hs.strict htame) hgood hrun
                  have hcomes : Comes body q y := ⟨m + 1, hm⟩
                  rw [hrun] at h
                  cases y with
                  | error e =>
                      cases h
                      exact ⟨hgood₁, .inl hcomes⟩
                  | ok r =>
                      cases h
                      exact ⟨hgood₁.save (hs.val_of_gives htame hcomes), .inl hcomes⟩

theorem runMemo_ends {rec : Q → cash.Store → Option (Except Unit R × cash.Store)} {n : Nat}
    {t : Ask Q (fun _ => R) α}
    (hrec : ∀ q, t.Made (Gives body) q → ∀ s x s', hs.Good s → rec q s = some (x, s') →
      hs.Good s' ∧ hs.Fits s q x)
    (hends : ∀ q, t.Made (Gives body) q → ∀ s x, hs.Good s → fix body n q = some x →
      ∃ y, rec q s = some y)
    (hstrict : t.Strict hs.soft) {s : cash.Store} {x : Except Unit α} (hgood : hs.Good s)
    (h : t.run (fix body n) = some x) : ∃ y, runMemo cash rec t s = some y := by
  induction t generalizing s with
  | stop y =>
      cases y with
      | none => cases h
      | some y => exact ⟨_, rfl⟩
  | ask q k ih =>
      match hq : fix body n q with
      | none =>
          rw [run, hq] at h
          cases h
      | some z =>
          obtain ⟨⟨y, s₁⟩, hy⟩ := hends q .here s z hgood hq
          obtain ⟨hgood₁, hfits⟩ := hrec q .here s y s₁ hgood hy
          rw [runMemo, hy]
          cases y with
          | error e => exact ⟨_, rfl⟩
          | ok r =>
              rcases hfits with hr | ⟨r', hr', -, hsoft, -⟩
              · rw [run, hq, Comes.unique ⟨n, hq⟩ hr] at h
                exact ih r (fun q' hq' => hrec q' (.later hr hq'))
                  (fun q' hq' => hends q' (.later hr hq')) (hstrict.2 r) hgood₁ h
              · cases hr'
                exact ⟨_, by dsimp only; rw [hstrict.1 r hsoft]; rfl⟩

/-- A call that ends without the cache ends with it. -/
theorem memo_ends {n : Nat} {q : Q} {s : cash.Store} {x : Except Unit R} (htame : hs.tame q)
    (hgood : hs.Good s) (h : fix body n q = some x) :
    ∃ y, memo cash now key body n q s = some y := by
  induction n generalizing q s x with
  | zero => cases h
  | succ n ih =>
      obtain ⟨y, hy⟩ := runMemo_ends hs
        (fun q' hq' s x s' hg hx => memo_sound hs (hs.tame_made htame hq') hg hx)
        (fun q' hq' s x hg hx => ih (hs.tame_made htame hq') hg hx) (hs.strict htame) hgood h
      rw [memo]
      match hnow : now q with
      | some r => exact ⟨_, rfl⟩
      | none =>
          match hfind : cash.find s (key q) with
          | some r => exact ⟨_, rfl⟩
          | none =>
              rw [hy]
              match y with
              | (.ok r, s') => exact ⟨_, rfl⟩
              | (.error e, s') => exact ⟨_, rfl⟩

end sound

end Ask

end Vere.Lib
