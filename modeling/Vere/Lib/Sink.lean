import Vere.Lib.Union

/-!
# Vere.Lib.Sink

Two treaps the second of which sinks into the first.

If no key of `b` ever comes up past a key of `a` (`Beneath`), the root of `a` wins every
round of a union or an intersection of the two; and if it wins every round, no key of `b`
comes up past one of `a` (`beneath_of_not_strays`). A program that is right only where the
first root wins is right on such a pair.
-/

namespace Vere.Lib.Treap

variable {κ β : Type} {le hp : κ → κ → Bool}

/-- `k` lies from `i` to `j`. -/
def Between (le : κ → κ → Bool) (i j k : κ) : Prop :=
  (le i k = true ∧ le k j = true) ∨ (le j k = true ∧ le k i = true)

/-- A key of `a` that is above all the keys of `a` between it and a key of `b` is above that
key of `b` too. -/
def Beneath (le hp : κ → κ → Bool) (a b : Treap κ β) : Prop :=
  ∀ i j, Has i a → Has j b → (∀ k, Has k a → Between le i j k → hp i k = true) → hp i j = true

/-- No key is in both trees. -/
def Disjoint (a b : Treap κ β) : Prop := ∀ k, Has k a → ¬Has k b

/-- An intersection of the two trees gets to two roots the second of which comes first. -/
inductive Strays (le hp : κ → κ → Bool) : Treap κ β → Treap κ β → Prop
  | here {ka va la ra kb vb lb rb} :
      Below hp kb ka → Strays le hp (node ka va la ra) (node kb vb lb rb)
  | sameLeft {k va vb la ra lb rb} :
      Strays le hp la lb → Strays le hp (node k va la ra) (node k vb lb rb)
  | sameRight {k va vb la ra lb rb} :
      Strays le hp ra rb → Strays le hp (node k va la ra) (node k vb lb rb)
  | leftHalf {ka va la ra kb vb lb rb} :
      Below hp ka kb → le kb ka = true → Strays le hp la (node kb vb lb nil) →
        Strays le hp (node ka va la ra) (node kb vb lb rb)
  | leftRest {ka va la ra kb vb lb rb} :
      Below hp ka kb → le kb ka = true → Strays le hp (node ka va la ra) rb →
        Strays le hp (node ka va la ra) (node kb vb lb rb)
  | rightHalf {ka va la ra kb vb lb rb} :
      Below hp ka kb → le kb ka = false → Strays le hp ra (node kb vb nil rb) →
        Strays le hp (node ka va la ra) (node kb vb lb rb)
  | rightRest {ka va la ra kb vb lb rb} :
      Below hp ka kb → le kb ka = false → Strays le hp (node ka va la ra) lb →
        Strays le hp (node ka va la ra) (node kb vb lb rb)

section beneath

variable {a b b' : Treap κ β} {ka kb : κ} {va vb : β} {la ra lb rb t : Treap κ β}

theorem Beneath.mono (h : Beneath le hp a b) (hsub : ∀ j, Has j b' → Has j b) :
    Beneath le hp a b' := fun i j hi hj => h i j hi (hsub j hj)

theorem Beneath.root (hoh : SearchOrder hp) (ha : Canon le hp (node ka va la ra))
    (h : Beneath le hp (node ka va la ra) (node kb vb lb rb)) : hp ka kb = true := by
  refine h ka kb (has_root _ _ _ _) (has_root _ _ _ _) ?_
  intro k hk _
  by_cases hne : k = ka
  · rw [hne]
    exact (hoh.total ka ka).elim id id
  · exact (ha.root_le hk hne).1

/-- What lies on the left of the root sinks into the left side. -/
theorem Beneath.left (ho : SearchOrder le) (ha : Canon le hp (node ka va la ra))
    (h : Beneath le hp (node ka va la ra) b) (hb : AllKeys (fun j => Below le j ka) b) :
    Beneath le hp la b := by
  rw [allKeys_iff] at hb
  intro i j hi hj hall
  refine h i j (has_left hi) hj ?_
  intro k hk hbet
  have hil := allKeys_iff.mp ha.ordered.1 i hi
  -- a key between two keys on the left of the root is on the left of the root
  have hkl : Below le k ka := by
    have hkey : ∀ m, Below le m ka → le k m = true → Below le k ka := by
      intro m hm hkm
      refine ⟨ho.trans _ _ _ hkm hm.1, ?_⟩
      intro heq
      subst heq
      exact hm.2 (ho.antisymm _ _ hm.1 hkm)
    rcases hbet with ⟨-, hkj⟩ | ⟨-, hki⟩
    · exact hkey j (hb j hj) hkj
    · exact hkey i hil hki
  refine hall k ?_ hbet
  rcases has_node.mp hk with rfl | hk | hk
  · exact hkl.irrefl.elim
  · exact hk
  · exact ((allKeys_iff.mp ha.ordered.2.1 k hk).trans ho hkl).irrefl.elim

theorem Beneath.right (ho : SearchOrder le) (ha : Canon le hp (node ka va la ra))
    (h : Beneath le hp (node ka va la ra) b) (hb : AllKeys (fun j => Below le ka j) b) :
    Beneath le hp ra b := by
  rw [allKeys_iff] at hb
  intro i j hi hj hall
  refine h i j (has_right hi) hj ?_
  intro k hk hbet
  have hir := allKeys_iff.mp ha.ordered.2.1 i hi
  have hkr : Below le ka k := by
    have hkey : ∀ m, Below le ka m → le m k = true → Below le ka k := by
      intro m hm hmk
      refine ⟨ho.trans _ _ _ hm.1 hmk, ?_⟩
      intro heq
      subst heq
      exact hm.2 (ho.antisymm _ _ hm.1 hmk)
    rcases hbet with ⟨hik, -⟩ | ⟨hjk, -⟩
    · exact hkey i hir hik
    · exact hkey j (hb j hj) hjk
  refine hall k ?_ hbet
  rcases has_node.mp hk with rfl | hk | hk
  · exact hkr.irrefl.elim
  · exact ((allKeys_iff.mp ha.ordered.1 k hk).trans ho hkr).irrefl.elim
  · exact hk

/-- The rest of `b` sinks into what the first half of `b` has sunk into. -/
theorem Beneath.rest_right (hoh : SearchOrder hp)
    (hb : Canon le hp (node kb vb lb rb)) (h : Beneath le hp a (node kb vb lb rb))
    (ht : ∀ k, Has k t ↔ Has k a ∨ Has k (node kb vb lb nil)) : Beneath le hp t rb := by
  intro i j hi hj hall
  have hjr := allKeys_iff.mp hb.ordered.2.1 j hj
  rcases (ht i).mp hi with hi | hi
  · refine h i j hi (has_right hj) ?_
    exact fun k hk => hall k ((ht k).mpr (.inl hk))
  · rcases has_node.mp hi with rfl | hi | hi
    · exact (allKeys_iff.mp hb.heaped.2.1 j hj).1
    · -- the root of `b` stands between, and is above `i`
      have hil := allKeys_iff.mp hb.ordered.1 i hi
      have hroot : hp i kb = true :=
        hall kb ((ht kb).mpr (.inr (has_root _ _ _ _))) (.inl ⟨hil.1, hjr.1⟩)
      have hup := allKeys_iff.mp hb.heaped.1 i hi
      exact absurd (hoh.antisymm _ _ hup.1 hroot) hup.2
    · exact absurd hi (has_nil i)

theorem Beneath.rest_left (hoh : SearchOrder hp)
    (hb : Canon le hp (node kb vb lb rb)) (h : Beneath le hp a (node kb vb lb rb))
    (ht : ∀ k, Has k t ↔ Has k a ∨ Has k (node kb vb nil rb)) : Beneath le hp t lb := by
  intro i j hi hj hall
  have hjl := allKeys_iff.mp hb.ordered.1 j hj
  rcases (ht i).mp hi with hi | hi
  · refine h i j hi (has_left hj) ?_
    exact fun k hk => hall k ((ht k).mpr (.inl hk))
  · rcases has_node.mp hi with rfl | hi | hi
    · exact (allKeys_iff.mp hb.heaped.1 j hj).1
    · exact absurd hi (has_nil i)
    · have hir := allKeys_iff.mp hb.ordered.2.1 i hi
      have hroot : hp i kb = true :=
        hall kb ((ht kb).mpr (.inr (has_root _ _ _ _))) (.inr ⟨hjl.1, hir.1⟩)
      have hup := allKeys_iff.mp hb.heaped.2.1 i hi
      exact absurd (hoh.antisymm _ _ hup.1 hroot) hup.2

/-- The half of `b` that lies left of the root of `a`. -/
theorem Beneath.leftHalf (ho : SearchOrder le) (ha : Canon le hp (node ka va la ra))
    (hb : Canon le hp (node kb vb lb rb)) (hlt : Below le kb ka)
    (h : Beneath le hp (node ka va la ra) (node kb vb lb rb)) :
    Beneath le hp la (node kb vb lb nil) := by
  exact (h.mono fun _ => has_of_upToRoot).left ho ha
    ⟨hlt, hb.ordered.1.imp fun _ hj => hj.trans ho hlt, trivial⟩

theorem Beneath.rightHalf (ho : SearchOrder le) (ha : Canon le hp (node ka va la ra))
    (hb : Canon le hp (node kb vb lb rb)) (hlt : Below le ka kb)
    (h : Beneath le hp (node ka va la ra) (node kb vb lb rb)) :
    Beneath le hp ra (node kb vb nil rb) := by
  exact (h.mono fun _ => has_of_fromRoot).right ho ha
    ⟨hlt, trivial, hb.ordered.2.1.imp fun _ hj => hlt.trans ho hj⟩

theorem Beneath.same (ho : SearchOrder le) {k : κ} (ha : Canon le hp (node k va la ra))
    (hb : Canon le hp (node k vb lb rb)) (h : Beneath le hp (node k va la ra) (node k vb lb rb)) :
    Beneath le hp la lb ∧ Beneath le hp ra rb := by
  refine ⟨?_, ?_⟩
  · exact (h.mono fun j hj => has_left hj).left ho ha hb.ordered.1
  · exact (h.mono fun j hj => has_right hj).right ho ha hb.ordered.2.1

theorem Strays.not_beneath (ho : SearchOrder le) (hoh : SearchOrder hp) (h : Strays le hp a b)
    (ha : Canon le hp a) (hb : Canon le hp b) : ¬Beneath le hp a b := by
  induction h with
  | here hk =>
      intro hn
      have hroot := hn.root hoh ha
      rw [hk.not_le hoh] at hroot
      cases hroot
  | sameLeft _ ih => exact fun hn => ih ha.left hb.left (hn.same ho ha hb).1
  | sameRight _ ih => exact fun hn => ih ha.right hb.right (hn.same ho ha hb).2
  | leftHalf hk hle _ ih =>
      exact fun hn => ih ha.left hb.upToRoot (hn.leftHalf ho ha hb ⟨hle, hk.2.symm⟩)
  | leftRest _ _ _ ih =>
      exact fun hn => ih ha hb.right (hn.mono fun j hj => has_right hj)
  | rightHalf hk hle _ ih =>
      exact fun hn =>
        ih ha.right hb.fromRoot (hn.rightHalf ho ha hb (below_of_not_le ho hk.2.symm hle))
  | rightRest _ _ _ ih =>
      exact fun hn => ih ha hb.left (hn.mono fun j hj => has_left hj)

/-- A key on one side of the root is not above the keys from it to the other side: the root
is one of them. -/
theorem Canon.root_between (hoh : SearchOrder hp) (ha : Canon le hp (node ka va la ra)) {i j : κ}
    (hi : Has i (node ka va la ra)) (hne : i ≠ ka) (hbet : Between le i j ka)
    (hall : ∀ k, Has k (node ka va la ra) → Between le i j k → hp i k = true) : False := by
  have hup := ha.root_le hi hne
  have hdown := hall ka (has_root _ _ _ _) hbet
  exact hup.2 (hoh.antisymm _ _ hup.1 hdown)

/-- What sinks in on the left of the root sinks into the tree. -/
theorem Beneath.of_left (hoh : SearchOrder hp) (ha : Canon le hp (node ka va la ra))
    (h : Beneath le hp la b) (hb : AllKeys (fun j => Below le j ka ∧ hp ka j = true) b) :
    Beneath le hp (node ka va la ra) b := by
  intro i j hi hj hall
  obtain ⟨hjl, hjp⟩ := allKeys_iff.mp hb j hj
  rcases has_node.mp hi with rfl | hi' | hi'
  · exact hjp
  · exact h i j hi' hj fun k hk => hall k (has_left hk)
  · have hir := allKeys_iff.mp ha.ordered.2.1 i hi'
    exact (ha.root_between hoh hi hir.2.symm (.inr ⟨hjl.1, hir.1⟩) hall).elim

theorem Beneath.of_right (hoh : SearchOrder hp) (ha : Canon le hp (node ka va la ra))
    (h : Beneath le hp ra b) (hb : AllKeys (fun j => Below le ka j ∧ hp ka j = true) b) :
    Beneath le hp (node ka va la ra) b := by
  intro i j hi hj hall
  obtain ⟨hjr, hjp⟩ := allKeys_iff.mp hb j hj
  rcases has_node.mp hi with rfl | hi' | hi'
  · exact hjp
  · have hil := allKeys_iff.mp ha.ordered.1 i hi'
    exact (ha.root_between hoh hi hil.2 (.inl ⟨hil.1, hjr.1⟩) hall).elim
  · exact h i j hi' hj fun k hk => hall k (has_right hk)

theorem Beneath.join {b₁ b₂ : Treap κ β} (h₁ : Beneath le hp a b₁) (h₂ : Beneath le hp a b₂)
    (hb : ∀ j, Has j b → Has j b₁ ∨ Has j b₂) : Beneath le hp a b := by
  intro i j hi hj hall
  rcases hb j hj with hj | hj
  · exact h₁ i j hi hj hall
  · exact h₂ i j hi hj hall

theorem beneath_of_not_strays [DecidableEq κ] (ho : SearchOrder le) (hoh : SearchOrder hp) :
    ∀ a b : Treap κ β, Canon le hp a → Canon le hp b → ¬Strays le hp a b → Beneath le hp a b
  | _, nil, _, _, _ => fun _ j _ hj => absurd hj (has_nil j)
  | nil, node kb vb lb rb, _, _, _ => fun i _ hi => absurd hi (has_nil i)
  | node ka va la ra, node kb vb lb rb, ha, hb, hn => by
      by_cases heq : ka = kb
      · subst heq
        have hl := beneath_of_not_strays ho hoh la lb ha.left hb.left fun h => hn (.sameLeft h)
        have hr := beneath_of_not_strays ho hoh ra rb ha.right hb.right fun h => hn (.sameRight h)
        have hbl : AllKeys (fun j => Below le j ka ∧ hp ka j = true) lb := allKeys_iff.mpr fun j hj =>
          ⟨allKeys_iff.mp hb.ordered.1 j hj, (allKeys_iff.mp hb.heaped.1 j hj).1⟩
        have hbr : AllKeys (fun j => Below le ka j ∧ hp ka j = true) rb := allKeys_iff.mpr fun j hj =>
          ⟨allKeys_iff.mp hb.ordered.2.1 j hj, (allKeys_iff.mp hb.heaped.2.1 j hj).1⟩
        have hl' := hl.of_left hoh ha hbl
        have hr' := hr.of_right hoh ha hbr
        intro i j hi hj hall
        rcases has_node.mp hj with rfl | hj | hj
        · refine hall j (has_root _ _ _ _) ?_
          have hjj : le j j = true := (ho.total j j).elim id id
          rcases ho.total i j with hij | hji
          · exact .inl ⟨hij, hjj⟩
          · exact .inr ⟨hjj, hji⟩
        · exact hl' i j hi hj hall
        · exact hr' i j hi hj hall
      cases hh : hp ka kb with
      | false => exact absurd (.here (below_of_not_le hoh heq hh)) hn
      | true =>
          have hk : Below hp ka kb := ⟨hh, heq⟩
          have hall := allKeys_iff.mp (allKeys_of_root hoh hb.heaped hk)
          cases hle : le kb ka with
          | true =>
              have hlt : Below le kb ka := ⟨hle, hk.2.symm⟩
              have hx := beneath_of_not_strays ho hoh la (node kb vb lb nil) ha.left hb.upToRoot
                fun h => hn (.leftHalf hk hle h)
              have hy := beneath_of_not_strays ho hoh (node ka va la ra) rb ha hb.right
                fun h => hn (.leftRest hk hle h)
              have hkeys : AllKeys (fun j => Below le j ka ∧ hp ka j = true) (node kb vb lb nil) := by
                refine ⟨⟨hlt, hh⟩, allKeys_iff.mpr fun j hj => ?_, trivial⟩
                exact ⟨(allKeys_iff.mp hb.ordered.1 j hj).trans ho hlt,
                  (hall j (has_left hj)).1⟩
              refine (hx.of_left hoh ha hkeys).join hy ?_
              intro j hj
              rw [has_node] at hj ⊢
              tauto
          | false =>
              have hlt : Below le ka kb := below_of_not_le ho hk.2.symm hle
              have hx := beneath_of_not_strays ho hoh ra (node kb vb nil rb) ha.right hb.fromRoot
                fun h => hn (.rightHalf hk hle h)
              have hy := beneath_of_not_strays ho hoh (node ka va la ra) lb ha hb.left
                fun h => hn (.rightRest hk hle h)
              have hkeys : AllKeys (fun j => Below le ka j ∧ hp ka j = true) (node kb vb nil rb) := by
                refine ⟨⟨hlt, hh⟩, trivial, allKeys_iff.mpr fun j hj => ?_⟩
                exact ⟨hlt.trans ho (allKeys_iff.mp hb.ordered.2.1 j hj),
                  (hall j (has_right hj)).1⟩
              refine (hx.of_right hoh ha hkeys).join hy ?_
              intro j hj
              rw [has_node] at hj ⊢
              tauto
termination_by a b => a.size + b.size
decreasing_by
  all_goals simp only [size]
  all_goals omega

end beneath

theorem Beneath.congr {le' hp' : κ → κ → Bool} {S : κ → Prop} {a b : Treap κ β}
    (hle : AgreeOn S le le') (hhp : AgreeOn S hp hp') (ha : AllKeys S a) (hb : AllKeys S b)
    (h : Beneath le hp a b) : Beneath le' hp' a b := by
  rw [allKeys_iff] at ha hb
  intro i j hi hj hall
  rw [← hhp i j (ha i hi) (hb j hj)]
  refine h i j hi hj ?_
  intro k hk hbet
  rw [hhp i k (ha i hi) (ha k hk)]
  refine hall k hk ?_
  rwa [Between, ← hle i k (ha i hi) (ha k hk), ← hle k j (ha k hk) (hb j hj),
    ← hle j k (hb j hj) (ha k hk), ← hle k i (ha k hk) (ha i hi)]

/-! ### Trees that have no key in common -/

section disjoint

variable {a b : Treap κ β}

theorem Disjoint.mono {a' b' : Treap κ β} (h : Disjoint a b) (ha : ∀ k, Has k a' → Has k a)
    (hb : ∀ k, Has k b' → Has k b) : Disjoint a' b' :=
  fun k hk hk' => h k (ha k hk) (hb k hk')

/-- What was split off a tree has no key in common with the rest of it. -/
theorem Disjoint.grown_right {kb : κ} {vb : β} {lb rb t : Treap κ β} (ho : SearchOrder le)
    (h : Disjoint a (node kb vb lb rb)) (hb : Canon le hp (node kb vb lb rb))
    (ht : ∀ k, Has k t ↔ Has k a ∨ Has k (node kb vb lb nil)) : Disjoint t rb := by
  intro k hk hkr
  have hgt := allKeys_iff.mp hb.ordered.2.1 k hkr
  rcases (ht k).mp hk with hk | hk
  · exact h k hk (has_right hkr)
  · rcases has_node.mp hk with rfl | hk | hk
    · exact hgt.irrefl
    · exact ((allKeys_iff.mp hb.ordered.1 k hk).trans ho hgt).irrefl
    · exact has_nil k hk

theorem Disjoint.grown_left {kb : κ} {vb : β} {lb rb t : Treap κ β} (ho : SearchOrder le)
    (h : Disjoint a (node kb vb lb rb)) (hb : Canon le hp (node kb vb lb rb))
    (ht : ∀ k, Has k t ↔ Has k a ∨ Has k (node kb vb nil rb)) : Disjoint t lb := by
  intro k hk hkl
  have hlt := allKeys_iff.mp hb.ordered.1 k hkl
  rcases (ht k).mp hk with hk | hk
  · exact h k hk (has_left hkl)
  · rcases has_node.mp hk with rfl | hk | hk
    · exact hlt.irrefl
    · exact has_nil k hk
    · exact (hlt.trans ho (allKeys_iff.mp hb.ordered.2.1 k hk)).irrefl

theorem Disjoint.symm (h : Disjoint a b) : Disjoint b a := fun k hb ha => h k ha hb

end disjoint

end Vere.Lib.Treap
