import Mathlib.Tactic.Common

/-!
# Vere.Lib.Rounds

Ciphers of rounds, and their inverses in the same shape.

A round substitutes, mixes and adds a key; a key is added before the first round, and the last
one does not mix. Where mixing back distributes over adding a key, the inverse has the same
shape: its rounds substitute back and mix back, on the keys in reverse order, of which those
between the first and the last are mixed back (`decrypt_encrypt`, `encrypt_decrypt`).
-/

namespace Vere.Lib

/-- What the rounds of a cipher are made of. -/
structure Stages (α : Type) where
  add : α → α → α
  sub : α → α
  mix : α → α

namespace Stages

variable {α : Type}

/-- The state after so many rounds. -/
def stage (s : Stages α) (key : Nat → α) (b : α) : Nat → α
  | 0 => s.add b (key 0)
  | f + 1 => s.add (s.mix (s.sub (stage s key b f))) (key (f + 1))

/-- `n` rounds and the last one. -/
def run (s : Stages α) (key : Nat → α) (n : Nat) (b : α) : α :=
  s.add (s.sub (s.stage key b n)) (key (n + 1))

/-- The stages of `t` undo those of `s`, and adding a key undoes itself. -/
structure Inverse (s t : Stages α) : Prop where
  add_eq : t.add = s.add
  add_add : ∀ a k, s.add (s.add a k) k = a
  sub_sub : ∀ a, t.sub (s.sub a) = a
  sub_sub' : ∀ a, s.sub (t.sub a) = a
  mix_mix : ∀ a, t.mix (s.mix a) = a
  mix_mix' : ∀ a, s.mix (t.mix a) = a
  mix_add : ∀ a k, t.mix (s.add a k) = s.add (t.mix a) (t.mix k)

/-- The keys in reverse order, those between the first and the last mixed. -/
def keysBack (t : Stages α) (key : Nat → α) (n j : Nat) : α :=
  if j = 0 ∨ j = n + 1 then key (n + 1 - j) else t.mix (key (n + 1 - j))

theorem keysBack_mid (t : Stages α) (key : Nat → α) {n f : Nat} (hf : f < n) :
    t.keysBack key n (f + 1) = t.mix (key (n - f)) := by
  rw [keysBack, if_neg (by omega)]
  congr 2
  omega

namespace Inverse

variable {s t : Stages α} (h : Inverse s t) (key : Nat → α) (n : Nat) (b : α)
include h

/-- Going back, the state before a round is what the round had after its substitution. -/
theorem stage_back {f : Nat} (hf : f ≤ n) :
    t.stage (t.keysBack key n) (s.run key n b) f = s.sub (s.stage key b (n - f)) := by
  induction f with
  | zero =>
      rw [stage, run, h.add_eq, keysBack, if_pos (.inl rfl)]
      exact h.add_add _ _
  | succ f ih =>
      obtain ⟨m, hm⟩ : ∃ m, n - f = m + 1 := ⟨n - f - 1, by omega⟩
      have hm' : n - (f + 1) = m := by omega
      rw [stage, ih (by omega), h.sub_sub, keysBack_mid t key (by omega), h.add_eq, ← h.mix_add,
        hm, hm', stage, h.add_add, h.mix_mix]

theorem decrypt_encrypt : t.run (t.keysBack key n) n (s.run key n b) = b := by
  rw [run, h.stage_back key n b (Nat.le_refl n), Nat.sub_self, h.sub_sub, h.add_eq, stage,
    keysBack, if_pos (.inr rfl), Nat.sub_self]
  exact h.add_add _ _

/-- The same the other way round: the state after a substitution back is that before a round. -/
theorem stage_forth {f : Nat} (hf : f ≤ n) :
    s.stage key (t.run (t.keysBack key n) n b) f
      = t.sub (t.stage (t.keysBack key n) b (n - f)) := by
  induction f with
  | zero =>
      rw [stage, run, h.add_eq, keysBack, if_pos (.inr rfl), Nat.sub_self]
      exact h.add_add _ _
  | succ f ih =>
      obtain ⟨m, hm⟩ : ∃ m, n - f = m + 1 := ⟨n - f - 1, by omega⟩
      have hm' : n - (f + 1) = m := by omega
      have hkey : n - m = f + 1 := by omega
      rw [stage, ih (by omega), h.sub_sub', hm, hm', stage, keysBack_mid t key (by omega),
        h.add_eq, ← h.mix_add, h.mix_mix', hkey, h.add_add]

theorem encrypt_decrypt : s.run key n (t.run (t.keysBack key n) n b) = b := by
  rw [run, h.stage_forth key n b (Nat.le_refl n), Nat.sub_self, h.sub_sub', stage, h.add_eq,
    keysBack, if_pos (.inl rfl)]
  exact h.add_add _ _

end Inverse

end Stages

end Vere.Lib
