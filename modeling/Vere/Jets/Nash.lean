import Mathlib.Logic.Function.Basic
import Vere.Noun

/-!
# Vere.Jets.Nash

Noun hash tables, `f/nash.c`.

A table maps the `mug` of a key to a bucket, an array of key-value pairs searched
from the front. The trie that holds the buckets is vendored code and is taken as
what its interface says it is, a finite map from words to buckets. `mug` is a
parameter: a collision only makes a bucket longer.
-/

namespace Vere.Jets

/-- `u2_nash`: buckets by `mug`. -/
structure Nash (β : Type) where
  sto : Nat → Option (List (Noun × β))

namespace Nash

variable {β : Type}

/-- `u2_na_make`: a new table. -/
def make : Nash β := ⟨fun _ => none⟩

/-- The loop of `u2_na_put` over a bucket: replace the value under an equal key,
or grow the bucket by one. -/
def bucketPut (key : Noun) (val : β) : List (Noun × β) → List (Noun × β)
  | [] => [(key, val)]
  | (k, v) :: rest => if k = key then (k, val) :: rest else (k, v) :: bucketPut key val rest

/-- The loop of `u2_na_get_ptr` over a bucket. -/
def bucketGet (key : Noun) : List (Noun × β) → Option β
  | [] => none
  | (k, v) :: rest => if k = key then some v else bucketGet key rest

/-- `u2_na_put`: put into nash, replacing. A missing bucket is made empty first. -/
def put (mug : Noun → Nat) (nas : Nash β) (key : Noun) (val : β) : Nash β :=
  let tom := mug key
  let buc := (nas.sto tom).getD []
  ⟨Function.update nas.sto tom (some (bucketPut key val buc))⟩

/-- `u2_na_get`: the value under a key, `u2_none` if there is none. -/
def get (mug : Noun → Nat) (nas : Nash β) (key : Noun) : Option β :=
  match nas.sto (mug key) with
  | none => none
  | some buc => bucketGet key buc

/-! ### What a table answers -/

theorem bucketGet_put_self (key : Noun) (val : β) (buc : List (Noun × β)) :
    bucketGet key (bucketPut key val buc) = some val := by
  induction buc with
  | nil => exact if_pos rfl
  | cons x buc ih =>
      obtain ⟨k, v⟩ := x
      rw [bucketPut]
      by_cases hk : k = key
      · rw [if_pos hk, bucketGet, if_pos hk]
      · rw [if_neg hk, bucketGet, if_neg hk]
        exact ih

theorem bucketGet_put_ne {key k' : Noun} (hne : k' ≠ key) (val : β)
    (buc : List (Noun × β)) :
    bucketGet k' (bucketPut key val buc) = bucketGet k' buc := by
  induction buc with
  | nil => exact if_neg fun e => hne e.symm
  | cons x buc ih =>
      obtain ⟨k, v⟩ := x
      rw [bucketPut]
      by_cases hk : k = key
      · have hk' : k ≠ k' := fun e => hne (e.symm.trans hk)
        rw [if_pos hk, bucketGet, bucketGet, if_neg hk', if_neg hk']
      · rw [if_neg hk, bucketGet, bucketGet, ih]

/-- A bucket that is missing answers as an empty one. -/
theorem get_eq (mug : Noun → Nat) (nas : Nash β) (key : Noun) :
    nas.get mug key = bucketGet key ((nas.sto (mug key)).getD []) := by
  rw [get]
  cases nas.sto (mug key) with
  | none => rfl
  | some buc => rfl

/-- The table answers as the function `f` does. -/
def Reads (mug : Noun → Nat) (nas : Nash β) (f : Noun → Option β) : Prop :=
  ∀ key, nas.get mug key = f key

theorem reads_make (mug : Noun → Nat) : Reads mug (make : Nash β) fun _ => none :=
  fun _ => rfl

/-- A `u2_na_put` is an update of the function the table answers as. -/
theorem Reads.put {mug : Noun → Nat} {nas : Nash β} {f : Noun → Option β}
    (h : Reads mug nas f) (key : Noun) (val : β) :
    Reads mug (nas.put mug key val) (Function.update f key (some val)) := by
  intro k
  rw [get_eq, Nash.put]
  simp only
  by_cases hk : k = key
  · subst hk
    rw [Function.update_self, Function.update_self]
    exact bucketGet_put_self k val _
  · rw [Function.update_of_ne hk, ← h k, get_eq]
    by_cases hm : mug k = mug key
    · rw [hm, Function.update_self]
      exact bucketGet_put_ne hk val _
    · rw [Function.update_of_ne hm]

end Nash

end Vere.Jets
