import Vere.Hoon.Queue
import Vere.Lib.Reach

/-!
# Vere.Hoon.QueueRun

Queues over whole runs of `++to`.

A queue that is built from `~` keeps every entry below its root in the order of `++vor`
(`Heaped`): the rotations of `bal` end with a tree in this order whatever it was given below
the root, and `get` takes a tree in this order to one (`heaped_bal`, `heaped_get`). What was put
in is at every moment what the queue holds, in the order of insertion, and what was taken out
(`Records`).
-/

namespace Vere.Hoon

open Vere.Lib

namespace Qeu

variable {α : Type} {o : Prior α}

/-! ### The order from the root down -/

/-- Each entry comes before those below it. -/
def Heaped (o : Prior α) : Qeu α → Prop
  | nil => True
  | node n l r => (∀ x ∈ l.list ++ r.list, o.vor n x = true) ∧ l.Heaped o ∧ r.Heaped o

/-- Both children of the root are in order. -/
def Halves (o : Prior α) : Qeu α → Prop
  | nil => True
  | node _ l r => l.Heaped o ∧ r.Heaped o

/-- A root that a child need not go above comes before all that the child holds. -/
theorem vor_of_higher {n : α} {c : Qeu α} (hc : c.Heaped o) (h : higher o n c = none) :
    ∀ x ∈ c.list, o.vor n x = true := by
  intro x hx
  cases c with
  | nil => cases hx
  | node m l r =>
    have hnm : o.vor n m = true := by
      by_contra hv
      simp [higher, hv] at h
    rw [list_node, List.mem_append, List.mem_cons] at hx
    rcases hx with hx | rfl | hx
    · exact o.trans n m x hnm (hc.1 x (List.mem_append_right _ hx))
    · exact hnm
    · exact o.trans n m x hnm (hc.1 x (List.mem_append_left _ hx))

theorem higher_of_vor {n : α} {c : Qeu α} (h : ∀ x ∈ c.list, o.vor n x = true) :
    higher o n c = none := by
  cases c with
  | nil => rfl
  | node m l r => rw [higher, if_pos (h m (by simp))]

/-- One rotation to the right leaves fewer entries to go above the root. -/
theorem above_left_lt {n m : α} {x y r d : Qeu α} (hv : o.vor n m = false)
    (hd : d.list = (node n y r).list) :
    above o (node m x d) < above o (node n (node m x y) r) := by
  have he : (node m x d).list = (node n (node m x y) r).list := by simp [hd]
  simp only [above]
  rw [he]
  exact countP_lt o (by simp) hv

theorem above_right_lt {n m : α} {l x y d : Qeu α} (hv : o.vor n m = false)
    (hd : d.list = (node n l x).list) :
    above o (node m d y) < above o (node n l (node m x y)) := by
  have he : (node m d y).list = (node n l (node m x y)).list := by simp [hd]
  simp only [above]
  rw [he]
  exact countP_lt o (by simp) hv

/-- The induction that `bal` goes by: on the entries of the tree, and for one list of entries on
how many have to go above the root. -/
theorem bal_induct {motive : Qeu α → Prop} (nil : motive .nil)
    (left : ∀ n m x y r, o.vor n m = false → motive (node n y r) →
      (∀ d, d.list = (node n y r).list → motive (node m x d)) → motive (node n (node m x y) r))
    (right : ∀ n m l x y, higher o n l = none → o.vor n m = false → motive (node n l x) →
      (∀ d, d.list = (node n l x).list → motive (node m d y)) → motive (node n l (node m x y)))
    (done : ∀ n l r, higher o n l = none → higher o n r = none → motive (node n l r))
    (a : Qeu α) : motive a := by
  induction hk : a.list.length using Nat.strongRecOn generalizing a with
  | ind k ihk =>
    induction hj : above o a using Nat.strongRecOn generalizing a with
    | ind j ihj =>
      cases a with
      | nil => exact nil
      | node n l r =>
        cases hl : higher o n l with
        | some c =>
          obtain ⟨m, x, y⟩ := c
          obtain ⟨rfl, hv⟩ := higher_eq_some.mp hl
          refine left n m x y r hv (ihk _ ?_ _ rfl) fun d hd => ihj _ ?_ _ ?_ rfl
          · rw [← hk]
            simp
          · rw [← hj]
            exact above_left_lt hv hd
          · rw [← hk]
            simp [hd]
        | none =>
          cases hr : higher o n r with
          | some c =>
            obtain ⟨m, x, y⟩ := c
            obtain ⟨rfl, hv⟩ := higher_eq_some.mp hr
            refine right n m l x y hl hv (ihk _ ?_ _ rfl) fun d hd => ihj _ ?_ _ ?_ rfl
            · rw [← hk]
              simp
              omega
            · rw [← hj]
              exact above_right_lt hv hd
            · rw [← hk]
              simp [hd]
          | none => exact done n l r hl hr

/-- `bal` puts a root in its place. -/
theorem heaped_bal {a : Qeu α} (h : a.Halves o) : (bal o a).val.Heaped o := by
  induction a using bal_induct (o := o) with
  | nil =>
    rw [bal]
    trivial
  | left n m x y r hv ihd ih =>
    obtain ⟨⟨-, hx, hy⟩, hr⟩ := h
    rw [bal_left (higher_eq_some.mpr ⟨rfl, hv⟩)]
    exact ih _ (list_bal o _) ⟨hx, ihd ⟨hy, hr⟩⟩
  | right n m l x y hl hv ihd ih =>
    obtain ⟨hl', -, hx, hy⟩ := h
    rw [bal_right hl (higher_eq_some.mpr ⟨rfl, hv⟩)]
    exact ih _ (list_bal o _) ⟨ihd ⟨hl', hx⟩, hy⟩
  | done n l r hleft hright =>
    obtain ⟨hl, hr⟩ := h
    rw [bal_done hleft hright]
    refine ⟨fun x hx => ?_, hl, hr⟩
    rcases List.mem_append.mp hx with hx | hx
    · exact vor_of_higher hl hleft x hx
    · exact vor_of_higher hr hright x hx

theorem heaped_put {a : Qeu α} (h : a.Heaped o) (b : α) : (put o b a).Heaped o := by
  induction a with
  | nil => exact ⟨by simp, trivial, trivial⟩
  | node n l r ihl _ => exact heaped_bal ⟨ihl h.2.1, h.2.2⟩

theorem heaped_gas {a : Qeu α} (h : a.Heaped o) (b : List α) : (gas o b a).Heaped o := by
  induction b generalizing a with
  | nil => exact h
  | cons i t ih => exact ih (heaped_put h i)

/-- What is left when the head is taken out is in order: the root stays where it is. -/
theorem heaped_get {n p : α} {l r q : Qeu α} (h : (node n l r).Heaped o)
    (hg : get o (node n l r) = some (p, q)) : q.Heaped o := by
  induction r generalizing n p l q with
  | nil =>
    cases hg
    exact h.2.1
  | node m x y _ ih =>
    obtain ⟨hn, hl, hr⟩ := h
    obtain ⟨p', q', hg', hlist⟩ := get_spec o m x y
    have hq : q'.Heaped o := ih hr hg'
    have hvor : ∀ z ∈ q'.list, o.vor n z = true := by
      intro z hz
      refine hn z (List.mem_append_right _ ?_)
      rw [hlist]
      exact List.mem_cons_of_mem _ hz
    simp only [get, hg', higher_of_vor hvor, Option.bind_eq_bind, Option.bind_some,
      Option.pure_def, Option.some.injEq, Prod.mk.injEq] at hg
    obtain ⟨rfl, rfl⟩ := hg
    refine ⟨fun z hz => ?_, hl, hq⟩
    rcases List.mem_append.mp hz with hz | hz
    · exact hn z (List.mem_append_left _ hz)
    · exact hvor z hz

theorem heaped_nap {a b : Qeu α} (h : a.Heaped o) (hb : nap o a = some b) : b.Heaped o := by
  cases a with
  | nil => cases hb
  | node n l r =>
    obtain ⟨-, hl, hr⟩ := h
    cases l with
    | nil =>
      cases hb
      exact hr
    | node m x y =>
      obtain ⟨p, q, hg, -⟩ := get_spec o m x y
      simp only [nap, hg, Option.bind_eq_bind, Option.bind_some, Option.pure_def,
        Option.some.injEq] at hb
      subst hb
      exact heaped_bal ⟨heaped_get hl hg, hr⟩

/-! ### Runs -/

/-- The operations on a queue. -/
inductive Act (α : Type)
  | put (b : α)
  | gas (b : List α)
  | get
  | nap
  deriving Repr

/-- What an operation puts in. -/
def Act.adds : Act α → List α
  | .put b => [b]
  | .gas b => b
  | .get => []
  | .nap => []

/-- One operation, with the entries that have been taken out. -/
def step (o : Prior α) : Act α → Qeu α × List α → Option (Qeu α × List α)
  | .put b, (a, gone) => some (put o b a, gone)
  | .gas b, (a, gone) => some (gas o b a, gone)
  | .get, (a, gone) => (get o a).map fun c => (c.2, gone ++ [c.1])
  | .nap, (nil, _) => none
  | .nap, (node n l r, gone) => (nap o (node n l r)).map fun b => (b, gone ++ [n])

/-- The entries put in, each with its place among them, are those left, in the order of their
places, and those taken out. -/
def Records (ins left gone : List α) : Prop :=
  ∃ live out : List (α × Nat), live.map Prod.fst = left ∧ out.map Prod.fst = gone
    ∧ (live ++ out).Perm ins.zipIdx ∧ live.Pairwise fun x y => x.2 < y.2

namespace Records

variable {ins left gone xs ys : List α} {p : α}

theorem empty : Records ([] : List α) [] [] := ⟨[], [], rfl, rfl, .nil, .nil⟩

theorem add (h : Records ins left gone) (b : List α) : Records (ins ++ b) (left ++ b) gone := by
  obtain ⟨live, out, rfl, rfl, hperm, hord⟩ := h
  refine ⟨live ++ b.zipIdx ins.length, out, by simp, rfl, ?_, ?_⟩
  · rw [List.zipIdx_append, Nat.zero_add, List.append_assoc]
    refine (List.Perm.append_left live List.perm_append_comm).trans ?_
    rw [← List.append_assoc]
    exact hperm.append_right _
  · rw [List.pairwise_append]
    refine ⟨hord, ?_, fun x hx y hy => ?_⟩
    · rw [← List.pairwise_map, List.zipIdx_map_snd]
      exact List.pairwise_lt_range'
    · have hxlt := List.snd_lt_of_mem_zipIdx (hperm.mem_iff.mp (List.mem_append_left out hx))
      have hyle := List.le_snd_of_mem_zipIdx hy
      omega

theorem take (h : Records ins (xs ++ p :: ys) gone) : Records ins (xs ++ ys) (gone ++ [p]) := by
  obtain ⟨live, out, hlive, rfl, hperm, hord⟩ := h
  obtain ⟨us, vs, rfl, rfl, hvs⟩ := List.map_eq_append_iff.mp hlive
  obtain ⟨⟨p', i⟩, ws, rfl, rfl, rfl⟩ := List.map_eq_cons_iff.mp hvs
  refine ⟨us ++ ws, out ++ [(p', i)], by simp, by simp, ?_, ?_⟩
  · refine List.Perm.trans ?_ hperm
    rw [List.append_assoc, List.append_assoc, ← List.append_assoc ws]
    exact List.Perm.append_left us List.perm_append_comm
  · rw [List.pairwise_append] at hord ⊢
    obtain ⟨hus, hws, hcross⟩ := hord
    exact ⟨hus, (List.pairwise_cons.mp hws).2, fun x hx y hy =>
      hcross x hx y (List.mem_cons_of_mem _ hy)⟩

end Records

/-- One operation keeps the order from the root down, and the record of what was put in. -/
theorem step_spec {act : Act α} {a a' : Qeu α} {gone gone' ins : List α}
    (h : step o act (a, gone) = some (a', gone')) (hheap : a.Heaped o)
    (hrec : Records ins a.list gone) :
    a'.Heaped o ∧ Records (ins ++ act.adds) a'.list gone' := by
  cases act with
  | put b =>
    cases h
    exact ⟨heaped_put hheap b, by rw [list_put]; exact hrec.add [b]⟩
  | gas b =>
    cases h
    exact ⟨heaped_gas hheap b, by rw [list_gas]; exact hrec.add b⟩
  | get =>
    rw [Act.adds, List.append_nil]
    cases a with
    | nil => cases h
    | node n l r =>
      obtain ⟨p, q, hg, hlist⟩ := get_spec o n l r
      simp only [step, hg, Option.map_some, Option.some.injEq, Prod.mk.injEq] at h
      obtain ⟨rfl, rfl⟩ := h
      rw [hlist] at hrec
      have hhead : Records ins ([] ++ p :: q.list) gone := hrec
      exact ⟨heaped_get hheap hg, hhead.take⟩
  | nap =>
    rw [Act.adds, List.append_nil]
    cases a with
    | nil => cases h
    | node n l r =>
      obtain ⟨b, hb, hlist⟩ := nap_spec o n l r
      simp only [step, hb, Option.map_some, Option.some.injEq, Prod.mk.injEq] at h
      obtain ⟨rfl, rfl⟩ := h
      rw [hlist]
      exact ⟨heaped_nap hheap hb, hrec.take⟩

/-- What a run puts in, in order. -/
def inserted (acts : List (Act α)) : List α := acts.flatMap Act.adds

theorem runs_spec (acts : List (Act α)) {a a' : Qeu α} {gone gone' ins : List α}
    (h : runs (step o) acts (a, gone) = some (a', gone')) (hheap : a.Heaped o)
    (hrec : Records ins a.list gone) :
    a'.Heaped o ∧ Records (ins ++ inserted acts) a'.list gone' := by
  induction acts generalizing a gone ins with
  | nil =>
    cases h
    rw [inserted, List.flatMap_nil, List.append_nil]
    exact ⟨hheap, hrec⟩
  | cons act acts ih =>
    rw [runs] at h
    cases hstep : step o act (a, gone) with
    | none => simp [hstep] at h
    | some s =>
      have hstep' : step o act (a, gone) = some (s.1, s.2) := hstep
      obtain ⟨hheap', hrec'⟩ := step_spec hstep' hheap hrec
      rw [hstep, Option.bind_some] at h
      have hrest := ih h hheap' hrec'
      rwa [List.append_assoc] at hrest

/-- A queue that is built from `~`, whatever the nouns that its entries are and their mugs: it
holds what was put in and not taken out, in the order of insertion, and each entry comes before
those below it. `put` and `gas` add at the end; `get` takes out the oldest entry, which `top`
shows, and fails if there is none; `nap` takes out the entry at the root. On every tree `bal`
keeps the order of the entries. -/
theorem queue_run (mug : Noun → Nat) (noun : α → Noun) (acts : List (Act α)) {a : Qeu α}
    {gone : List α}
    (h : runs (step (Prior.ofNoun mug noun)) acts (nil, []) = some (a, gone)) :
    Records (inserted acts) (a.tap []) gone ∧ a.Heaped (Prior.ofNoun mug noun)
      ∧ (∀ b, (put (Prior.ofNoun mug noun) b a).tap [] = a.tap [] ++ [b])
      ∧ (∀ b, (gas (Prior.ofNoun mug noun) b a).tap [] = a.tap [] ++ b)
      ∧ (match a.tap [] with
          | [] => get (Prior.ofNoun mug noun) a = none
          | p :: t => ∃ q, get (Prior.ofNoun mug noun) a = some (p, q) ∧ q.tap [] = t)
      ∧ a.top = (get (Prior.ofNoun mug noun) a).map Prod.fst
      ∧ (match a with
          | nil => nap (Prior.ofNoun mug noun) a = none
          | node n l r => ∃ b, nap (Prior.ofNoun mug noun) a = some b
              ∧ a.tap [] = r.tap [] ++ n :: l.tap [] ∧ b.tap [] = r.tap [] ++ l.tap [])
      ∧ ∀ t : Qeu α, (bal (Prior.ofNoun mug noun) t).val.tap [] = t.tap [] := by
  obtain ⟨hheap, hrec⟩ := runs_spec acts h trivial Records.empty
  simp only [tap_eq, List.append_nil, List.nil_append] at hrec ⊢
  refine ⟨hrec, hheap, fun b => list_put _ b a, fun b => list_gas _ b a, ?_, top_eq _ a, ?_,
    list_bal _⟩
  · cases a with
    | nil => rfl
    | node n l r =>
      obtain ⟨p, q, hg, hlist⟩ := get_spec (Prior.ofNoun mug noun) n l r
      rw [hlist]
      exact ⟨q, hg, rfl⟩
  · cases a with
    | nil => rfl
    | node n l r =>
      obtain ⟨b, hb, hlist⟩ := nap_spec (Prior.ofNoun mug noun) n l r
      exact ⟨b, hb, rfl, hlist⟩

/-- Of two entries put in, `nap` takes out the second, which is at the root. -/
theorem queue_run_nap :
    Records [2, 1] ((node 2 nil nil).tap []) [1] := by
  have htwo : put (Prior.ofNoun (fun _ => 0) Noun.atom) 1
      (put (Prior.ofNoun (fun _ => 0) Noun.atom) 2 nil) = node 1 nil (node 2 nil nil) :=
    put_two (by decide)
  exact (queue_run (fun _ => 0) Noun.atom [.put 2, .put 1, .nap]
    (by simp [runs, step, htwo, nap])).1

end Qeu

end Vere.Hoon
