import Vere.Hoon.Digits

/-!
# Vere.Zuse.Url

URL escaping (`zuse.hoon`, section 3bF): `++urle` writes a character that is not plain as `%` and
two digits, `++urld` reads the text back.

The digits are written in uppercase and with a leading zero, and read by the rule for a
hexadecimal number, whose first digit is lowercase and not zero. So a character comes back if it
is plain or its first digit is from 1 to 9 (`urld_urle`).
-/

namespace Vere.Zuse

open Vere.Lib Vere.Lib.Rule Vere.Hoon

variable {c : Nat} {s tep : Tape}

/-- `xen` of `++urle`: a digit. -/
def xen (tig : Nat) : Nat := if tig ≥ 10 then tig + 55 else tig + '0'.toNat

/-- The characters that `++urle` leaves as they are. -/
def Plain (tap : Nat) : Prop :=
  ('a'.toNat ≤ tap ∧ tap ≤ 'z'.toNat) ∨ ('A'.toNat ≤ tap ∧ tap ≤ 'Z'.toNat) ∨
    ('0'.toNat ≤ tap ∧ tap ≤ '9'.toNat) ∨ tap = '.'.toNat ∨ tap = '-'.toNat ∨ tap = '~'.toNat ∨
    tap = '_'.toNat

instance (tap : Nat) : Decidable (Plain tap) := by
  unfold Plain
  infer_instance

/-- What `++urle` makes of a character. -/
def urleChar (tap : Nat) : Tape :=
  if Plain tap then [tap] else ['%'.toNat, xen (rsh 0 4 tap), xen («end» 0 4 tap)]

/-- `++urle`: URL encode. -/
def urle (tep : Tape) : Tape := (tep.map urleChar).flatten

/-- `++rust`: parse a whole tape. -/
def rust {α : Type} (los : Tape) (sab : Rule Nat α) : Option (Option α) :=
  match full sab los with
  | .crash => none
  | .fail => some none
  | .done p _ => some (some p)

/-- `++rush`: parse a whole cord. -/
def rush {α : Type} (naf : Nat) (sab : Rule Nat α) : Option (Option α) := rust (trip naf) sab

/-- `++urld`: URL decode. -/
def urld : Tape → Option (Option Tape)
  | [] => some (some [])
  | i :: t =>
      if i = '%'.toNat then
        match t with
        | a :: b :: t => do
            match ← rush (mix a (lsh 3 1 b)) hex with
            | none => return none
            | some val =>
                match ← urld t with
                | none => return none
                | some nex => return some (val :: nex)
        | _ => return none
      else do
        match ← urld t with
        | none => return none
        | some nex => return some (i :: nex)

/-! ### Digits -/

/-- A digit as `++urle` writes it. -/
def HexDigit (c : Nat) : Prop :=
  ('0'.toNat ≤ c ∧ c ≤ '9'.toNat) ∨ ('A'.toNat ≤ c ∧ c ≤ 'F'.toNat)

/-- Plain characters, and `%` with two digits behind it. -/
inductive Escaped : Tape → Prop
  | nil : Escaped []
  | plain {s : Tape} (c : Nat) (hc : Plain c) (h : Escaped s) : Escaped (c :: s)
  | digits {s : Tape} (a b : Nat) (ha : HexDigit a) (hb : HexDigit b) (h : Escaped s) :
      Escaped ('%'.toNat :: a :: b :: s)

theorem xen_digit {d : Nat} (hd : d < 16) : HexDigit (xen d) := by
  by_cases h : d ≥ 10
  · simp [HexDigit, xen, h]
    omega
  · simp [HexDigit, xen, h]
    omega

/-- A text of two digits, as a cord and back. -/
theorem trip_digits {d e : Nat} (hd : d < 16) (he : e < 16) :
    trip (mix (xen d) (lsh 3 1 (xen e))) = [xen d, xen e] := by
  have hlt : ∀ {d : Nat}, d < 16 → xen d ≠ 0 ∧ xen d < 256 := by
    intro d hd
    rcases xen_digit hd with h | h
    · simp at h
      omega
    · simp at h
      omega
  have hchars : Chars [xen d, xen e] := chars_cons.mpr ⟨hlt hd, chars_cons.mpr ⟨hlt he, chars_nil⟩⟩
  have hxor : mix (xen d) (lsh 3 1 (xen e)) = rap 3 [xen d, xen e] := by
    rw [rap_bytes hchars, mix_eq, lsh, bex_eq, bex_eq, Nat.ofDigits_cons, Nat.ofDigits_singleton]
    exact xor_shift (p := 8) (hlt hd).2 (xen e)
  rw [hxor, trip_rap hchars]

theorem hit_xen {d : Nat} (hd : d < 16) (s : Tape) : hit (xen d :: s) = .done d s := by
  by_cases h : d ≥ 10
  · have h1 : ¬d + 55 ≤ 57 := by omega
    have h2 : ¬97 ≤ d + 55 := by omega
    have h3 : 65 ≤ d + 55 ∧ d + 55 ≤ 70 := by omega
    simp [hit, dit, pose, cook, xen, h, h1, h2, h3]
  · have h1 : d + 48 ≤ 57 := by omega
    simp [hit, dit, pose, cook, xen, h, h1]

/-- Two digits are read as a number if the first is from 1 to 9. -/
theorem hex_digits {d e : Nat} (hd : d < 16) (he : e < 16) :
    full hex [xen d, xen e] = if 1 ≤ d ∧ d < 10 then .done (16 * d + e) [] else .fail := by
  by_cases h0 : d = 0
  · subst h0
    rw [full, hex, groups, show xen 0 = 48 from rfl, ape_zero]
    rfl
  · by_cases h10 : d < 10
    · have hx : xen d = d + 48 := by simp [xen, Nat.not_le.mpr h10]
      have hlead : sex (xen d :: [xen e]) = .done d [xen e] := by
        have h1 : 49 ≤ d + 48 ∧ d + 48 ≤ 57 := by omega
        simp [sex, sed, pose, cook, hx, h1]
      have hstun : stun hit 0 3 [xen e] = .done [e] [] := by
        have hnil : hit [] = .fail := rfl
        simp [stun, hit_xen he, hnil]
      have hqex : qex [xen d, xen e] = .done (e + 16 * d) [] := by
        simp [qex, leadGroup, bass, cook, cons, hlead, hstun]
      have hstar : star (pfix dog qix) [] = .done [] [] := star_fail rfl
      rw [full, hex, groups, ape_ne (by omega)]
      simp [bass, cook, cons, hqex, hstar, h10, Nat.add_comm]
      omega
    · have hx : xen d = d + 55 := by simp [xen, Nat.not_lt.mp h10]
      have hlead : sex (xen d :: [xen e]) = .fail := by
        have h1 : ¬d + 55 ≤ 57 := by omega
        have h2 : ¬97 ≤ d + 55 := by omega
        simp [sex, sed, sox, pose, cook, hx, h1, h2]
      rw [full, hex, groups, ape_ne (by omega)]
      simp [bass, cook, cons, qex, leadGroup, hlead, h10]

theorem rush_digits {d e : Nat} (hd : d < 16) (he : e < 16) :
    rush (mix (xen d) (lsh 3 1 (xen e))) hex =
      some (if 1 ≤ d ∧ d < 10 then some (16 * d + e) else none) := by
  rw [rush, trip_digits hd he, rust, hex_digits hd he]
  by_cases h : 1 ≤ d ∧ d < 10
  · rw [if_pos h, if_pos h]
  · rw [if_neg h, if_neg h]

/-! ### Tapes -/

/-- The characters that come back: plain ones, and those whose first digit is from 1 to 9. -/
def Back (c : Nat) : Prop := 16 ≤ c ∧ c < 160

instance (c : Nat) : Decidable (Back c) := inferInstanceAs (Decidable (_ ∧ _))

theorem Plain.back (h : Plain c) : Back c := by
  simp [Plain, Back] at h ⊢
  omega

theorem Plain.ne_cen (h : Plain c) : c ≠ '%'.toNat := by
  simp [Plain] at h ⊢
  omega

/-- What `++urld` makes of one escaped character and the rest. -/
theorem urld_urleChar (hc : c < 256) (s : Tape) :
    urld (urleChar c ++ s) =
      if Back c then (urld s).map (Option.map (c :: ·)) else some none := by
  have hnext : ∀ v : Nat, (do
      match ← urld s with
      | none => return none
      | some nex => return some (v :: nex) : Option (Option Tape)) =
        (urld s).map (Option.map (v :: ·)) := by
    intro v
    cases urld s with
    | none => rfl
    | some o => cases o <;> rfl
  by_cases hp : Plain c
  · rw [urleChar, if_pos hp, if_pos hp.back, List.singleton_append, urld.eq_def]
    exact (if_neg hp.ne_cen).trans (hnext c)
  · have hhi : rsh 0 4 c = c / 16 := by simp [rsh]
    have hlo : «end» 0 4 c = c % 16 := by simp [«end»]
    have hlt : c % 16 < 16 := Nat.mod_lt c (by decide)
    rw [urleChar, if_neg hp, hhi, hlo]
    change urld ('%'.toNat :: xen (c / 16) :: xen (c % 16) :: s) = _
    rw [urld, if_pos rfl, rush_digits (by omega) hlt]
    by_cases hb : Back c
    · have hdigit : 1 ≤ c / 16 ∧ c / 16 < 10 := by
        unfold Back at hb
        omega
      rw [if_pos hb, if_pos hdigit, Nat.div_add_mod, ← hnext]
      rfl
    · have hdigit : ¬(1 ≤ c / 16 ∧ c / 16 < 10) := by
        unfold Back at hb
        omega
      rw [if_neg hb, if_neg hdigit]
      rfl

theorem urle_cons (c : Nat) (tep : Tape) : urle (c :: tep) = urleChar c ++ urle tep := by
  simp [urle]

/-- A tape comes back if each of its characters does; else nothing is read. -/
theorem urld_urle_eq (h : ∀ c ∈ tep, c < 256) :
    urld (urle tep) = some (if ∀ c ∈ tep, Back c then some tep else none) := by
  induction tep with
  | nil => rfl
  | cons c tep ih =>
      rw [urle_cons, urld_urleChar (h c List.mem_cons_self),
        ih fun d hd => h d (List.mem_cons_of_mem c hd)]
      by_cases hc : Back c
      · by_cases ht : ∀ d ∈ tep, Back d
        · simp [hc]
        · simp only [hc, ht, List.forall_mem_cons, and_false, if_false]
          rfl
      · simp [hc]

theorem urle_escaped (h : ∀ c ∈ tep, c < 256) : Escaped (urle tep) := by
  induction tep with
  | nil => exact .nil
  | cons c tep ih =>
      have ih := ih fun d hd => h d (List.mem_cons_of_mem c hd)
      rw [urle_cons, urleChar]
      split
      · next hp => exact .plain c hp ih
      · have hc : c < 256 := h c List.mem_cons_self
        have hhi : rsh 0 4 c < 16 := by
          simp [rsh]
          omega
        have hlo : «end» 0 4 c < 16 := by
          simp [«end»]
          omega
        exact .digits _ _ (xen_digit hhi) (xen_digit hlo) ih

/-- A tape comes back from its escaped form exactly if the characters in it have codes from 16 to
159; the escaped form is always one of plain characters and pairs of digits. -/
theorem urld_urle (tep : Tape) (h : ∀ c ∈ tep, 1 ≤ c ∧ c < 256) :
    (urld (urle tep) = some (some tep) ↔ ∀ c ∈ tep, Back c) ∧ Escaped (urle tep) := by
  have hlt : ∀ c ∈ tep, c < 256 := fun c hc => (h c hc).2
  rw [urld_urle_eq hlt]
  refine ⟨⟨fun heq => ?_, fun hb => by rw [if_pos hb]⟩, urle_escaped hlt⟩
  by_contra hb
  rw [if_neg hb] at heq
  cases heq

/-- A slash and a letter. -/
theorem urld_urle_slash :
    (urld (urle [47, 97]) = some (some [47, 97]) ↔ ∀ c ∈ [47, 97], Back c) ∧ Escaped (urle [47, 97]) :=
  urld_urle [47, 97] (by decide)

/-- A newline is not read back. -/
theorem newline_lost :
    ¬∀ tep : Tape, (∀ c ∈ tep, 1 ≤ c ∧ c < 256) → urld (urle tep) = some (some tep) := by
  intro h
  have h := h [10] (by decide)
  rw [urld_urle_eq (by decide)] at h
  exact absurd h (by decide)

end Vere.Zuse
