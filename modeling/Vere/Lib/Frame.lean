import Mathlib.Algebra.Ring.Nat
import Mathlib.Tactic.Common

/-!
# Vere.Lib.Frame

Messages on a stream that comes in pieces.

Messages are encoded one after another. After the first `n` symbols of the stream,
those messages are complete whose encodings end there (`received`), and `pending`
symbols belong to none of them. However the stream is cut, every piece completes
some messages (`batches`), and together these are the complete ones.
-/

namespace Vere.Lib

variable {α β : Type} (enc : α → List β)

/-- The encodings of messages, one after another. -/
def stream (ms : List α) : List β := ms.flatMap enc

/-- The messages that end within the first `n` symbols. -/
def received : List α → Nat → List α
  | [], _ => []
  | m :: ms, n => if (enc m).length ≤ n then m :: received ms (n - (enc m).length) else []

/-- How many of the first `n` symbols are behind these messages. -/
def pending : List α → Nat → Nat
  | [], n => n
  | m :: ms, n => if (enc m).length ≤ n then pending ms (n - (enc m).length) else n

/-- What comes behind these messages. -/
def undecoded (ms : List α) (bs : List β) : List β :=
  bs.drop (stream enc (received enc ms bs.length)).length

/-- What every piece completes, from `n` symbols that are pending. -/
def batches : List α → Nat → List Nat → List (List α)
  | _, _, [] => []
  | ms, n, k :: ks =>
      received enc ms (n + k) ::
        batches (ms.drop (received enc ms (n + k)).length) (pending enc ms (n + k)) ks

/-- A part of the next message, not all of it. -/
def Short (ms : List α) (tail : List β) : Prop :=
  tail <+: stream enc ms ∧ ∀ m ∈ ms.head?, tail.length < (enc m).length

variable {enc}

@[simp] theorem stream_nil : stream enc [] = [] := rfl

@[simp] theorem stream_cons (m : α) (ms : List α) : stream enc (m :: ms) = enc m ++ stream enc ms :=
  List.flatMap_cons

theorem received_initial (ms : List α) (n : Nat) : received enc ms n <+: ms := by
  induction ms generalizing n with
  | nil => exact List.prefix_rfl
  | cons m ms ih =>
      rw [received]
      split
      · exact List.cons_prefix_cons.mpr ⟨rfl, ih _⟩
      · exact List.nil_prefix

/-- A part of the stream is the complete messages and a part of the next one. -/
theorem split_initial {ms : List α} {pre : List β} (h : pre <+: stream enc ms) :
    ∃ tail, pre = stream enc (received enc ms pre.length) ++ tail ∧
      tail.length = pending enc ms pre.length ∧
      Short enc (ms.drop (received enc ms pre.length).length) tail := by
  induction ms generalizing pre with
  | nil =>
      have hpre : pre = [] := List.prefix_nil.mp h
      subst hpre
      exact ⟨[], rfl, rfl, List.prefix_rfl, fun _ hm => nomatch hm⟩
  | cons m ms ih =>
      rw [received, pending]
      by_cases hm : (enc m).length ≤ pre.length
      · rw [if_pos hm, if_pos hm]
        obtain ⟨rest, rfl⟩ : enc m <+: pre :=
          List.prefix_of_prefix_length_le (List.prefix_append ..) (stream_cons m ms ▸ h) hm
        rw [stream_cons, List.prefix_append_right_inj] at h
        have hlen : (enc m ++ rest).length - (enc m).length = rest.length := by simp
        obtain ⟨tail, hrest, htail, hshort⟩ := ih h
        refine ⟨tail, ?_, ?_, ?_⟩
        · rw [hlen, stream_cons, List.append_assoc, ← hrest]
        · rw [hlen, htail]
        · rw [hlen]
          exact hshort
      · rw [if_neg hm, if_neg hm]
        exact ⟨pre, rfl, rfl, h, fun x hx => by cases hx; exact Nat.lt_of_not_le hm⟩

theorem received_short {ms : List α} {n : Nat} (h : ∀ m ∈ ms.head?, n < (enc m).length) :
    received enc ms n = [] := by
  cases ms with
  | nil => rfl
  | cons m ms =>
      have hm := h m rfl
      rw [received, if_neg (by omega)]

theorem pending_short {ms : List α} {n : Nat} (h : ∀ m ∈ ms.head?, n < (enc m).length) :
    pending enc ms n = n := by
  cases ms with
  | nil => rfl
  | cons m ms =>
      have hm := h m rfl
      rw [pending, if_neg (by omega)]

/-- Symbols that come later complete what is pending. -/
theorem received_add (ms : List α) (n k : Nat) :
    received enc ms (n + k) = received enc ms n ++
      received enc (ms.drop (received enc ms n).length) (pending enc ms n + k) := by
  induction ms generalizing n with
  | nil => rfl
  | cons m ms ih =>
      by_cases hm : (enc m).length ≤ n
      · have hk : (enc m).length ≤ n + k := by omega
        have hsub : n + k - (enc m).length = n - (enc m).length + k := by omega
        rw [received, if_pos hk, hsub, ih, received, if_pos hm, pending, if_pos hm]
        rfl
      · rw [show received enc (m :: ms) n = [] by rw [received, if_neg hm], pending, if_neg hm]
        rfl

theorem pending_add (ms : List α) (n k : Nat) :
    pending enc ms (n + k)
      = pending enc (ms.drop (received enc ms n).length) (pending enc ms n + k) := by
  induction ms generalizing n with
  | nil => rfl
  | cons m ms ih =>
      by_cases hm : (enc m).length ≤ n
      · have hk : (enc m).length ≤ n + k := by omega
        have hsub : n + k - (enc m).length = n - (enc m).length + k := by omega
        rw [pending, if_pos hk, hsub, ih, received, if_pos hm, pending, if_pos hm]
        rfl
      · rw [show received enc (m :: ms) n = [] by rw [received, if_neg hm],
          show pending enc (m :: ms) n = n by rw [pending, if_neg hm]]
        rfl

/-- What is pending is less than the next message. -/
theorem pending_lt (ms : List α) (n : Nat) :
    ∀ m ∈ (ms.drop (received enc ms n).length).head?, pending enc ms n < (enc m).length := by
  induction ms generalizing n with
  | nil => exact fun m hm => nomatch hm
  | cons m ms ih =>
      rw [received, pending]
      by_cases hm : (enc m).length ≤ n
      · rw [if_pos hm, if_pos hm]
        exact ih (n - (enc m).length)
      · rw [if_neg hm, if_neg hm]
        intro x hx
        cases hx
        exact Nat.lt_of_not_le hm

theorem pending_le (ms : List α) (n : Nat) : pending enc ms n ≤ n := by
  induction ms generalizing n with
  | nil => exact Nat.le_refl n
  | cons m ms ih =>
      rw [pending]
      split
      · exact Nat.le_trans (ih _) (Nat.sub_le ..)
      · exact Nat.le_refl n

/-- All pieces together complete what their symbols complete. -/
theorem flatten_batches (ms : List α) (n : Nat) (ks : List Nat)
    (h : ∀ m ∈ ms.head?, n < (enc m).length) :
    (batches enc ms n ks).flatten = received enc ms (n + ks.sum) := by
  induction ks generalizing ms n with
  | nil => rw [batches, List.flatten_nil, List.sum_nil, Nat.add_zero, received_short h]
  | cons k ks ih =>
      rw [batches, List.flatten_cons, List.sum_cons, ← Nat.add_assoc, received_add ms (n + k) ks.sum,
        ih _ _ (pending_lt ms (n + k))]

theorem stream_append (ms ms' : List α) :
    stream enc (ms ++ ms') = stream enc ms ++ stream enc ms' := List.flatMap_append

/-- The stream goes on with the messages that are not complete. -/
theorem stream_received (ms : List α) (n : Nat) :
    stream enc ms
      = stream enc (received enc ms n) ++ stream enc (ms.drop (received enc ms n).length) := by
  obtain ⟨rest, hrest⟩ := @received_initial _ _ enc ms n
  rw [← stream_append]
  congr 1
  generalize received enc ms n = got at hrest
  rw [← hrest, List.drop_left]

theorem undecoded_short {ms : List α} {tail : List β} (h : Short enc ms tail) :
    undecoded enc ms tail = tail := by
  rw [undecoded, received_short h.2, stream_nil, List.length_nil, List.drop_zero]

/-- What comes behind the complete messages can be told from what is pending. -/
theorem undecoded_append {ms : List α} {pre tail : List β} (more : List β)
    (hpre : pre = stream enc (received enc ms pre.length) ++ tail)
    (htail : tail.length = pending enc ms pre.length) :
    undecoded enc ms (pre ++ more)
      = undecoded enc (ms.drop (received enc ms pre.length).length) (tail ++ more) := by
  rw [undecoded, undecoded, List.length_append, List.length_append, htail, received_add,
    stream_append, List.length_append, ← List.drop_drop]
  have hdrop : (pre ++ more).drop (stream enc (received enc ms pre.length)).length
      = tail ++ more := by
    generalize received enc ms pre.length = got at hpre
    rw [hpre, List.append_assoc, List.drop_left]
  rw [hdrop]

/-- The whole stream completes every message. -/
theorem received_all (ms : List α) : received enc ms (stream enc ms).length = ms := by
  induction ms with
  | nil => rfl
  | cons m ms ih =>
      rw [stream_cons, List.length_append, received, if_pos (Nat.le_add_right ..),
        Nat.add_sub_cancel_left, ih]

end Vere.Lib
