import Mathlib.Data.List.Induction
import Mathlib.Logic.Function.Iterate
import Mathlib.Tactic.Common

/-!
# Vere.Lib.Zip

A line editor: a text with a cursor in it, and a ring of what was killed.

A text is held as what is before the cursor and what is behind it, so that the cursor cannot leave
it; a ring holds no more than its room and knows the entry that it gives next. The editor is meant
to lose nothing: what is killed comes back (`killAft_yank`, `killFore_yank`), what is typed is
rubbed out (`rubs_type`), and moves keep the text (`text_back`, `text_on`).
-/

namespace Vere.Lib

variable {α : Type}

/-- Texts that were killed, the latest first, and the one that is next. -/
structure Ring (α : Type) (room : Nat) where
  kills : List (List α)
  turn : Nat
  few : kills.length ≤ room
  inside : kills ≠ [] → turn < kills.length

namespace Ring

variable {room : Nat}

/-- Another text, in the place of the oldest when there is no room. -/
def add (r : Ring α (room + 1)) (t : List α) : Ring α (room + 1) where
  kills := t :: r.kills.take room
  turn := 0
  few := by
    simp only [List.length_cons, List.length_take]
    omega
  inside _ := by simp

/-- The text that is next, if there is one. -/
def top (r : Ring α room) : Option (List α) := r.kills[r.turn]?

/-- The text before it becomes the next one, and after the oldest the latest. -/
def next (r : Ring α room) : Ring α room where
  kills := r.kills
  turn := if r.kills.length = r.turn + 1 then 0 else r.turn + 1
  few := r.few
  inside h := by
    have hin := r.inside h
    split <;> omega

theorem top_some (r : Ring α room) (h : r.kills ≠ []) : ∃ t, r.top = some t :=
  ⟨_, List.getElem?_eq_getElem (r.inside h)⟩

@[simp] theorem top_add (r : Ring α (room + 1)) (t : List α) : (r.add t).top = some t := rfl

end Ring

/-- A text with a cursor in it, and a ring. -/
structure Zip (α : Type) (room : Nat) where
  fore : List α
  aft : List α
  ring : Ring α room

namespace Zip

variable {room : Nat}

/-- The text. -/
def text (z : Zip α room) : List α := z.fore ++ z.aft

/-- Type. -/
def type (t : List α) (z : Zip α room) : Zip α room := { z with fore := z.fore ++ t }

/-- Rub out the character before the cursor. -/
def rub (z : Zip α room) : Zip α room := { z with fore := z.fore.dropLast }

/-- Delete the character behind the cursor. -/
def del (z : Zip α room) : Zip α room := { z with aft := z.aft.tail }

/-- Go back by `n` characters. -/
def back (n : Nat) (z : Zip α room) : Zip α room :=
  { z with fore := z.fore.take (z.fore.length - n), aft := z.fore.drop (z.fore.length - n) ++ z.aft }

/-- Go on by `n` characters. -/
def on (n : Nat) (z : Zip α room) : Zip α room :=
  { z with fore := z.fore ++ z.aft.take n, aft := z.aft.drop n }

/-- Go to the start. -/
def home (z : Zip α room) : Zip α room := { z with fore := [], aft := z.text }

/-- Go to the end. -/
def fin (z : Zip α room) : Zip α room := { z with fore := z.text, aft := [] }

/-- How far it is to the end of a word: over the blanks, and over what is none. -/
def word (blank : α → Bool) (l : List α) : Nat :=
  (l.takeWhile blank).length + ((l.dropWhile blank).takeWhile fun c => !blank c).length

/-- Go to the end of the word. -/
def wordOn (blank : α → Bool) (z : Zip α room) : Zip α room := z.on (word blank z.aft)

/-- Go to the start of the word. -/
def wordBack (blank : α → Bool) (z : Zip α room) : Zip α room :=
  z.back (word blank z.fore.reverse)

/-- Where the two characters are that a swap is about: around the cursor, at the end before it and
at the start behind it. -/
def spot (z : Zip α room) : Nat := if z.aft.isEmpty then z.fore.length - 2 else z.fore.length - 1

/-- Swap two characters and go past them. -/
def swap (z : Zip α room) : Zip α room :=
  match z.text.drop z.spot with
  | a :: b :: l => { z with fore := z.text.take z.spot ++ [b, a], aft := l }
  | _ => z

/-- Kill what is behind the cursor. -/
def killAft (z : Zip α (room + 1)) : Zip α (room + 1) :=
  if z.aft.isEmpty then z else { z with aft := [], ring := z.ring.add z.aft }

/-- Kill what is before the cursor. -/
def killFore (z : Zip α (room + 1)) : Zip α (room + 1) :=
  if z.fore.isEmpty then z else { z with fore := [], ring := z.ring.add z.fore }

/-- Type the text that is next in the ring. -/
def yank (z : Zip α room) : Zip α room :=
  match z.ring.top with
  | none => z
  | some t => z.type t

/-- Put the text that follows in the ring in the place of the one before the cursor. -/
def rotate [DecidableEq α] (z : Zip α room) : Zip α room :=
  match z.ring.top, z.ring.next.top with
  | some t, some t' =>
      if t <:+ z.fore then
        { z with fore := z.fore.take (z.fore.length - t.length) ++ t', ring := z.ring.next }
      else z
  | _, _ => z

/-! ### What the editor is meant to do -/

theorem text_back (n : Nat) (z : Zip α room) : (z.back n).text = z.text := by
  rw [text, back, ← List.append_assoc, List.take_append_drop, text]

theorem text_on (n : Nat) (z : Zip α room) : (z.on n).text = z.text := by
  rw [text, on, List.append_assoc, List.take_append_drop, text]

theorem text_home (z : Zip α room) : z.home.text = z.text := rfl

theorem text_fin (z : Zip α room) : z.fin.text = z.text := List.append_nil _

theorem on_zero (z : Zip α room) : z.on 0 = z := by simp [on]

theorem back_zero (z : Zip α room) : z.back 0 = z := by simp [back]

theorem del_nil {z : Zip α room} (h : z.aft = []) : z.del = z := by
  obtain ⟨fore, aft, ring⟩ := z
  obtain rfl : aft = [] := h
  rfl

section Words

variable {blank : α → Bool}

theorem word_nil : word blank [] = 0 := rfl

theorem word_blank {c : α} (l : List α) (h : blank c = true) :
    word blank (c :: l) = word blank l + 1 := by
  rw [word, List.takeWhile_cons_of_pos h, List.dropWhile_cons_of_pos h, List.length_cons, word]
  omega

theorem word_solid {c : α} (l : List α) (h : blank c = false) :
    word blank (c :: l) = ((c :: l).takeWhile fun c => !blank c).length := by
  have hb : ¬ blank c = true := by simp [h]
  rw [word, List.takeWhile_cons_of_neg hb, List.dropWhile_cons_of_neg hb, List.length_nil,
    Nat.zero_add]

theorem word_le (blank : α → Bool) (l : List α) : word blank l ≤ l.length := by
  have htake := (List.takeWhile_prefix (l := l.dropWhile blank) fun c => !blank c).length_le
  have hall := congrArg List.length (List.takeWhile_append_dropWhile (p := blank) (l := l))
  rw [List.length_append] at hall
  rw [word]
  omega

end Words

/-- What was killed behind the cursor comes back, with the cursor behind it. -/
theorem killAft_yank (z : Zip α (room + 1)) (h : z.aft ≠ []) :
    z.killAft.yank = { z.fin with ring := z.ring.add z.aft } := by
  have he : z.aft.isEmpty = false := by simpa using h
  simp [killAft, he, yank, type, fin, text]

/-- What was killed before the cursor comes back where it was. -/
theorem killFore_yank (z : Zip α (room + 1)) (h : z.fore ≠ []) :
    z.killFore.yank = { z with ring := z.ring.add z.fore } := by
  have he : z.fore.isEmpty = false := by simpa using h
  simp [killFore, he, yank, type]

/-- Rub out `n` characters. -/
def rubs (n : Nat) (z : Zip α room) : Zip α room := Nat.iterate rub n z

/-- What is typed is rubbed out. -/
theorem rubs_type (t : List α) (z : Zip α room) : (z.type t).rubs t.length = z := by
  induction t using List.reverseRecOn with
  | nil => simp [rubs, type]
  | append_singleton t c ih =>
      have hone : (z.type (t ++ [c])).rub = z.type t := by
        simp [type, rub, ← List.append_assoc]
      rw [rubs, List.length_append, List.length_singleton, Function.iterate_succ_apply, hone]
      exact ih

theorem swap_eq {z : Zip α room} {a b : α} {l : List α} (h : z.text.drop z.spot = a :: b :: l) :
    z.swap = { z with fore := z.text.take z.spot ++ [b, a], aft := l } := by
  rw [swap, h]

/-- There are two characters to swap in a text of two. -/
theorem drop_spot (z : Zip α room) (h : 2 ≤ z.text.length) :
    ∃ a b l, z.text.drop z.spot = a :: b :: l := by
  have hlen : 2 ≤ (z.text.drop z.spot).length := by
    rw [List.length_drop, spot]
    rw [text, List.length_append] at h ⊢
    cases haft : z.aft with
    | nil =>
        rw [haft, List.length_nil] at h
        simp only [List.isEmpty_nil, if_true, List.length_nil]
        omega
    | cons c l =>
        rw [haft, List.length_cons] at h
        simp only [List.isEmpty_cons, Bool.false_eq_true, if_false, List.length_cons]
        omega
  match z.text.drop z.spot, hlen with
  | a :: b :: l, _ => exact ⟨a, b, l, rfl⟩

theorem swap_short (z : Zip α room) (h : z.text.length < 2) : z.swap = z := by
  rw [swap]
  split
  next a b l hdrop =>
    have hlen := congrArg List.length hdrop
    rw [List.length_drop, List.length_cons, List.length_cons] at hlen
    omega
  · rfl

end Zip

end Vere.Lib
