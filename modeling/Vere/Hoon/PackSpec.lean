import Vere.Pack.Stream

/-!
# Vere.Hoon.PackSpec

`++jam` and `++cue` implement the packed format of `Vere.Pack.Stream`.

The map threaded through each loop answers as the dictionary of the format does
(`Reads`), `p` is the width of the pieces and `q` the number they spell. The one
place where the two levels could come apart is `cat 0`, which places its second
argument above the *top bit* of the first; every emission is `Full`, so that is
also above its width.
-/

namespace Vere.Hoon

open Vere.Lib Vere.Pack

variable {mug : Noun → Nat}

/-- A product of the loop of `++jam` that stands for an emission. -/
structure JamOf (mug : Noun → Nat) (j : Jam) (e : Emit) : Prop where
  p_eq : j.p = width e.pieces
  q_eq : j.q = joined e.pieces
  reads : Reads mug j.r e.dict

theorem jamOf_flat {M : Map Nat} {m : Dict} (x : Nat) (h : Reads mug M m) :
    JamOf mug ⟨1 + (mat x).1, lsh 0 1 (mat x).2, M⟩ ⟨[flat x], m⟩ := by
  refine ⟨?_, ?_, h⟩
  · rw [width_single, flat]
  · rw [joined_flat, flat, lsh_zero]

theorem jamOf_ptr {M : Map Nat} {m : Dict} (c : Nat) (h : Reads mug M m) :
    JamOf mug ⟨2 + (mat c).1, mix 3 (lsh 0 2 (mat c).2), M⟩ ⟨[ptr c], m⟩ := by
  refine ⟨?_, ?_, h⟩
  · rw [width_single, ptr]
  · rw [joined_ptr, ptr, mix_eq, lsh_zero, xor_shift (by decide)]

/-- Concatenation by length puts full emissions side by side. -/
theorem mix_cat_eq {l k : List (Nat × Nat)} (hl : Full l) :
    mix 1 (lsh 0 2 (cat 0 (joined l) (joined k))) = joined ((2, 1) :: (l ++ k)) := by
  rw [mix_eq, lsh_zero, xor_shift (by decide), cat_zero, hl.2, joined_pair, joined_append]

/-- The loop of `++jam` follows the format. -/
theorem jamLoop_emit (a : Noun) (b : Nat) (M : Map Nat) (m : Dict) (h : Reads mug M m) :
    JamOf mug (jamLoop mug a b M) (emit a b m) := by
  induction a generalizing b M m with
  | atom x =>
      rw [jamLoop, emit, h.get_eq]
      cases m (.atom x) with
      | none => exact jamOf_flat x (h.put (.atom x) b)
      | some c =>
          simp only [met_zero]
          by_cases hx : x.size ≤ c.size
          · rw [if_pos hx, if_pos hx]
            exact jamOf_flat x h
          · rw [if_neg hx, if_neg hx]
            exact jamOf_ptr c h
  | cell y z ihy ihz =>
      rw [jamLoop, emit, h.get_eq]
      cases m (.cell y z) with
      | none =>
          have hd := ihy (2 + b) _ _ (h.put (.cell y z) b)
          have he := ihz (2 + b + width (emit y (2 + b)
            (Function.update m (.cell y z) (some b))).pieces) _ _ hd.reads
          simp only
          rw [hd.p_eq, hd.q_eq]
          refine ⟨?_, ?_, he.reads⟩
          · rw [he.p_eq, width_cons, width_append]
          · rw [he.q_eq]
            exact mix_cat_eq (full_emit _ _ _)
      | some c => exact jamOf_ptr c h

/-- `++jam` spells the emission of its argument. -/
theorem jam_eq (mug : Noun → Nat) (a : Noun) :
    jam mug a = joined (emit a 0 fun _ => none).pieces :=
  (jamLoop_emit a 0 .nil _ (reads_nil mug)).q_eq

theorem size_jam (mug : Noun → Nat) (a : Noun) :
    (jam mug a).size = width (emit a 0 fun _ => none).pieces := by
  rw [jam_eq]
  exact (full_emit a 0 _).2

/-- A product of the loop of `++cue` that stands for a decoding. -/
structure CueOf (mug : Noun → Nat) (u : Cue) (d : Decoded) : Prop where
  p_eq : u.p = d.len
  q_eq : u.q = d.noun
  reads : Reads mug u.r d.seen

/-- Computations that crash together or give related products stay so under
related continuations. -/
theorem rel_bind {α β γ δ : Type} {R : α → β → Prop} {S : γ → δ → Prop} {x : Option α}
    {y : Option β} {f : α → Option γ} {g : β → Option δ} (h : Option.Rel R x y)
    (hfg : ∀ a b, R a b → Option.Rel S (f a) (g b)) :
    Option.Rel S (x.bind f) (y.bind g) := by
  cases h with
  | none => exact .none
  | some hr => exact hfg _ _ hr

/-- The loop of `++cue` follows the format. -/
theorem cueLoop_decode (a b : Nat) (M : Map Noun) (m : Noun → Option Noun)
    (h : Reads mug M m) : Option.Rel (CueOf mug) (cueLoop mug a b M) (decode a b m) := by
  induction b, M using cueLoop.induct a generalizing m with
  | case1 b M hbit =>
      rw [cueLoop, dif_pos hbit]
      rw [cut_zero] at hbit
      rw [decode, dif_pos hbit]
      cases rub (b + 1) a with
      | none => exact .none
      | some c => exact .some ⟨rfl, rfl, h.put _ _⟩
  | case2 b M hbit hnext ihu ihv =>
      rw [cueLoop, dif_neg hbit, if_pos hnext]
      rw [cut_zero] at hbit hnext
      rw [decode, dif_neg hbit, if_pos hnext]
      apply rel_bind (ihu m h)
      rintro u u' ⟨hup, huq, hur⟩
      have hv := ihv u u'.seen hur
      rw [hup] at hv
      rw [hup]
      apply rel_bind hv
      rintro v v' ⟨hvp, hvq, hvr⟩
      rw [hvp, huq, hvq]
      exact .some ⟨rfl, rfl, hvr.put _ _⟩
  | case3 b M hbit hnext =>
      rw [cueLoop, dif_neg hbit, if_neg hnext]
      rw [cut_zero] at hbit hnext
      rw [decode, dif_neg hbit, if_neg hnext]
      cases rub (2 + b) a with
      | none => exact .none
      | some d =>
          simp only [Option.bind_eq_bind, Option.bind_some, Option.pure_def, h.get_eq]
          cases m (.atom d.2) with
          | none => exact .none
          | some w => exact .some ⟨rfl, rfl, h⟩

/-- `++cue` decodes from the first bit. -/
theorem cue_eq (mug : Noun → Nat) (a : Nat) :
    cue mug a = (decode a 0 fun _ => none).map Decoded.noun := by
  have h := cueLoop_decode a 0 .nil _ (reads_nil mug)
  rw [cue]
  revert h
  generalize cueLoop mug a 0 .nil = x
  generalize decode a 0 (fun _ => none) = y
  intro h
  cases h with
  | none => rfl
  | some hr => exact congrArg some hr.q_eq

/-- The Hoon packers are inverse to each other, on every noun. -/
theorem cue_jam_hoon (mug : Noun → Nat) (n : Noun) : cue mug (jam mug n) = some n := by
  obtain ⟨seen, hd⟩ := decode_joined_emit n
  rw [cue_eq, jam_eq, hd]
  rfl

end Vere.Hoon
