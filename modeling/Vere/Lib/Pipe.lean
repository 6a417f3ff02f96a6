import Mathlib.Tactic.Common
import Mathlib.Data.List.TakeDrop

/-!
# Vere.Lib.Pipe

Requests and answers on an ordered connection, matched by position.

The requester keeps its requests in a queue and takes one off for every answer
that comes in, whatever the answer is to. Only some requests are answered (`f`).
`Pipe` is what there is of one such connection: all requests ever sent, how many
the queue has lost, and the answers and the requests on the way. Each direction
can be shut, after which nothing more is added to it and its end may be lost.

The answers still to come are those to the requests that are answered, in order
and from the first that no answer was taken for: `Pipe.Ok`. So the answer that
comes in next is to a request that is at the head of the queue or behind it
(`Ok.next`), and it is the head exactly if every request before it was answered.
-/

namespace Vere.Lib

variable {α : Type} {f : α → Bool}

/-- The elements a filter keeps move to the front. -/
theorem getElem?_of_filter {l : List α} {n : Nat} {a : α} (h : (l.filter f)[n]? = some a) :
    ∃ i, l[i]? = some a ∧ n ≤ i ∧ f a = true ∧ (n = i ↔ ∀ j x, j < i → l[j]? = some x → f x) := by
  induction l generalizing n with
  | nil => simp at h
  | cons x l ih =>
      cases hx : f x with
      | true =>
          rw [List.filter_cons_of_pos hx] at h
          cases n with
          | zero =>
              cases h
              exact ⟨0, rfl, Nat.le_refl 0, hx, by simp⟩
          | succ n =>
              obtain ⟨i, hi, hle, ha, hiff⟩ := ih h
              refine ⟨i + 1, hi, Nat.succ_le_succ hle, ha, ?_⟩
              rw [Nat.succ_inj, hiff]
              refine ⟨?_, fun hall j y hj hy => hall (j + 1) y (Nat.succ_lt_succ hj) hy⟩
              intro hall j y hj hy
              cases j with
              | zero =>
                  cases hy
                  exact hx
              | succ j => exact hall j y (Nat.lt_of_succ_lt_succ hj) hy
      | false =>
          rw [List.filter_cons_of_neg (by simp [hx])] at h
          obtain ⟨i, hi, hle, ha, -⟩ := ih h
          refine ⟨i + 1, hi, Nat.le_succ_of_le hle, ha, ?_⟩
          refine ⟨fun he => absurd he (by omega), ?_⟩
          intro hall
          have hfx := hall 0 x (Nat.succ_pos i) rfl
          rw [hx] at hfx
          cases hfx

/-- One direction of requests and the other of answers. `quiet` and `deaf` say that
the answers and the requests are shut. -/
structure Pipe (α : Type) where
  sent : List α
  done : Nat
  answers : List α
  asks : List α
  quiet : Bool
  deaf : Bool

namespace Pipe

/-- The requests an answer may still come for. -/
def due (f : α → Bool) (x : Pipe α) : List α := (x.sent.filter f).drop x.done

/-- What is on the way is what is due, up to where a direction was shut. -/
structure Ok (f : α → Bool) (x : Pipe α) : Prop where
  done : x.done ≤ (x.sent.filter f).length
  answers : x.answers <+: x.due f
  some : x.quiet = false → x.answers ++ x.asks <+: x.due f
  all : x.quiet = false → x.deaf = false → x.answers ++ x.asks = x.due f

variable {x : Pipe α}

/-- A connection that was not used. -/
theorem ok_new (quiet deaf : Bool) : Ok f ⟨[], 0, [], [], quiet, deaf⟩ :=
  ⟨Nat.le_refl 0, List.nil_prefix, fun _ => List.nil_prefix, fun _ _ => rfl⟩

/-- The next answer is to a request at the head of the queue or behind it. -/
theorem Ok.next (h : Ok f x) {a : α} {as : List α} (ha : x.answers = a :: as) :
    ∃ i, x.sent[i]? = Option.some a ∧ x.done ≤ i ∧ f a = true ∧
      (x.done = i ↔ ∀ j y, j < i → x.sent[j]? = Option.some y → f y) := by
  obtain ⟨t, ht⟩ := h.answers
  have hdue : (x.due f)[0]? = Option.some a := by rw [← ht, ha]; rfl
  rw [due, List.getElem?_drop, Nat.add_zero] at hdue
  exact getElem?_of_filter hdue

theorem due_snoc (hd : x.done ≤ (x.sent.filter f).length) (r : α) (asks : List α) :
    due f { x with sent := x.sent ++ [r], asks := asks } = x.due f ++ [r].filter f := by
  simp only [due, List.filter_append, List.drop_append_of_le_length hd]

theorem done_snoc (hd : x.done ≤ (x.sent.filter f).length) (r : α) :
    x.done ≤ ((x.sent ++ [r]).filter f).length := by
  rw [List.filter_append, List.length_append]
  omega

/-- A request that will be answered is sent. -/
theorem Ok.ask (h : Ok f x) {r : α} (hr : f r = true) (hx : x.deaf = false) :
    Ok f { x with sent := x.sent ++ [r], asks := x.asks ++ [r] } := by
  have hdue := due_snoc h.done r (x.asks ++ [r])
  rw [List.filter_cons_of_pos hr, List.filter_nil] at hdue
  have hall : x.quiet = false →
      x.answers ++ (x.asks ++ [r]) = x.due f ++ [r] := fun hq => by
    rw [← h.all hq hx, List.append_assoc]
  refine ⟨done_snoc h.done r, ?_, ?_, ?_⟩
  · rw [hdue]
    exact h.answers.trans (List.prefix_append _ _)
  · intro hq
    rw [hdue]
    exact hall hq ▸ List.prefix_rfl
  · intro hq _
    rw [hdue]
    exact hall hq

/-- A request is sent that is not answered or does not get through. -/
theorem Ok.tell (h : Ok f x) {r : α} (hr : f r = false ∨ x.deaf = true) :
    Ok f { x with sent := x.sent ++ [r] } := by
  have hdue := due_snoc h.done r x.asks
  refine ⟨done_snoc h.done r, ?_, ?_, ?_⟩
  · rw [hdue]
    exact h.answers.trans (List.prefix_append _ _)
  · intro hq
    rw [hdue]
    exact (h.some hq).trans (List.prefix_append _ _)
  · intro hq hx
    cases hr with
    | inl hr => rw [hdue, List.filter_cons_of_neg (by simp [hr]), List.filter_nil, List.append_nil,
        ← h.all hq hx]
    | inr hr =>
        rw [hx] at hr
        cases hr

/-- A request comes in and is answered. -/
theorem Ok.serve (h : Ok f x) {r : α} {asks : List α} (hr : x.asks = r :: asks)
    (hq : x.quiet = false) : Ok f { x with answers := x.answers ++ [r], asks := asks } := by
  have heq : x.answers ++ [r] ++ asks = x.answers ++ x.asks := by
    rw [hr, List.append_assoc]
    rfl
  refine ⟨h.done, ?_, ?_, ?_⟩
  · refine List.IsPrefix.trans ?_ (h.some hq)
    rw [← heq]
    exact List.prefix_append _ _
  · intro _
    exact heq ▸ h.some hq
  · intro _ hx
    exact heq ▸ h.all hq hx

/-- Answers are lost, and no more will come. -/
theorem Ok.quieten (h : Ok f x) {answers : List α} (ha : answers <+: x.answers)
    (asks : List α) (deaf : Bool) : Ok f ⟨x.sent, x.done, answers, asks, true, deaf⟩ :=
  ⟨h.done, ha.trans h.answers, (fun hq => nomatch hq), (fun hq => nomatch hq)⟩

/-- Requests are lost, and no more will get through. -/
theorem Ok.deafen (h : Ok f x) {asks : List α} (ha : asks <+: x.asks) :
    Ok f { x with asks := asks, deaf := true } := by
  refine ⟨h.done, h.answers, ?_, (fun _ hx => nomatch hx)⟩
  intro hq
  exact ((List.prefix_append_right_inj _).mpr ha).trans (h.some hq)

/-- An answer comes in, and the head of the queue is taken off for it. -/
theorem Ok.pop (h : Ok f x) {a : α} {as : List α} (ha : x.answers = a :: as) :
    Ok f { x with done := x.done + 1, answers := as } := by
  obtain ⟨t, ht⟩ := h.answers
  rw [ha] at ht
  have hdue : due f { x with done := x.done + 1, answers := as } = (x.due f).tail := by
    simp only [due, List.tail_drop]
  have htail : (x.due f).tail = as ++ t := by
    rw [← ht]
    rfl
  have hlen : x.done < (x.sent.filter f).length := by
    have hpos : 0 < (x.due f).length := by
      rw [← ht]
      exact Nat.succ_pos _
    rw [due, List.length_drop] at hpos
    omega
  refine ⟨hlen, ?_, ?_, ?_⟩
  · rw [hdue, htail]
    exact List.prefix_append _ _
  · intro hq
    obtain ⟨u, hu⟩ := h.some hq
    rw [ha] at hu
    rw [hdue, ← hu]
    exact List.prefix_append _ _
  · intro hq hx
    have hu := h.all hq hx
    rw [ha] at hu
    rw [hdue, ← hu]
    rfl

/-- There is always a request to take off the queue for an answer. -/
theorem Ok.pending (h : Ok f x) {a : α} {as : List α} (ha : x.answers = a :: as) :
    x.done < x.sent.length := by
  obtain ⟨i, hi, hle, -⟩ := h.next ha
  exact Nat.lt_of_le_of_lt hle (List.getElem?_eq_some_iff.mp hi).1

end Pipe

end Vere.Lib
