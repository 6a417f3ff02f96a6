import Vere.Clay.Clean
import Vere.Clay.Graph

/-!
# Vere.Clay.Merge

Three-way merges of commits (`++zerg`, `++quil`, `++qeal` and `++meld` of `++ze`), without
conflict marks: `con` is no, and a conflict crashes.

`zerg` lists what a commit changes in the base. `meld` puts the two lists together path by path,
and adds the files that neither changes. Changes of one file are put together by `qeal`, which
walks two patches of lines at once and crashes where their edits meet; the result has the hunks of
both (`qeal_hunks`).

`quil` looks only at the first change when that is a deletion. A file that one side deletes and
the other changes is then deleted without a word, in one order of the sides; in the other order it
is the conflict that it should be.
-/

namespace Vere.Clay

open Vere.Lib Vere.Hoon

/-! ### Lines -/

/-- The loop of `qeal`. What remains of the base is read by a conflict only. -/
def qealLoop : List (Unce Noun) → List (Unce Noun) → Option (List (Unce Noun))
  | [], t => some t
  | i :: s, [] => some (i :: s)
  | .skip a :: s, .skip b :: t =>
    if a = b then (qealLoop s t).map (.skip a :: ·)
    else if b < a then (qealLoop (.skip (a - b) :: s) t).map (.skip b :: ·)
    else (qealLoop s (.skip (b - a) :: t)).map (.skip a :: ·)
  | .skip a :: s, .edit p q :: t =>
    if a = p.length then (qealLoop s t).map (.edit p q :: ·)
    else if p.length < a then (qealLoop (.skip (a - p.length) :: s) t).map (.edit p q :: ·)
    else none
  | .edit _ _ :: _, .edit _ _ :: _ => none
  | .edit p q :: s, .skip b :: t =>
    if b = p.length then (qealLoop s t).map (.edit p q :: ·)
    else if p.length < b then (qealLoop s (.skip (b - p.length) :: t)).map (.edit p q :: ·)
    else none
termination_by s t => s.length + t.length

/-- `qeal`: merge p,q. -/
def qeal : Udon → Udon → Option Udon
  | .mk _ (.c s), .mk _ (.c t) => (qealLoop (qael s) (qael t)).map fun m => .mk .c (.c m)
  | _, _ => none

/-- `quil`: merge p,q. -/
def quil (p q : Option Miso) (r : Option (List Nat)) : Option (Option Miso) :=
  match p, q with
  | none, q => some q
  | some p, none => some (some p)
  | some (.ins _), some _ => none
  | some (.del x), some _ => some (some (.del x))
  | some (.mut p), some (.mut q) => do
    let _ ← r
    let m ← qeal p q
    return some (.mut m)
  | some (.mut _), some _ => none

/-! ### Commits -/

section arms

variable (h : Hash) (lat : Lat)

/-- `++loth`: keyset. -/
def loth {β : Type} (pat : Map β) : In.Tree :=
  (Treap.tap pat []).foldl (fun q i => In.put h.mug q i.1) .nil

/-- `++luth`: merge keysets. -/
def luth {β γ : Type} (p : Map β) (q : Map γ) : In.Tree := union h.mug (loth h p) (loth h q)

/-- `zump`: blob umph. -/
def zump : Blob → Umph
  | .delta _ _ (.mk p _) => p
  | .direct _ _ r => r
  | .indirect _ _ (.mk p _) _ => p

/-- The change of `zerg` from one blob to another. -/
def zergMut (n : Nat) (leb lob : Nat) : Option Udon := do
  let veq ← zaal lat leb
  let voq ← zaal lat lob
  match voq with
  | .delta _ q r =>
    -- avoid diff
    if leb = q then some r
    else do
      let zeq ← zaru lat n veq
      let zoq ← zaru lat n voq
      diff h.mug n (zump veq) zeq zoq
  | _ => do
    let zeq ← zaru lat n veq
    let zoq ← zaru lat n voq
    diff h.mug n (zump veq) zeq zoq

/-- One path of `zerg`. -/
def zergOne (n : Nat) (leb lob : Option Nat) : Option (Option Miso) :=
  match leb, lob with
  | none, none => none
  | none, some lob => (zaul lat n lob).map fun v => some (.ins v)
  | some leb, none => (zaul lat n leb).map fun v => some (.del v)
  | some leb, some lob =>
    if leb = lob then some none
    else (zergMut h lat n leb lob).map fun d => some (.mut d)

/-- A roll over paths, which puts what it finds for each. -/
def rollPut {β : Type} [DecidableEq β] (f : Noun → Option (Option β)) :
    List Noun → Map β → Option (Map β)
  | [], m => some m
  | pat :: l, m => do
    match ← f pat with
    | none => rollPut f l m
    | some v => rollPut f l (put h.mug m pat v)

/-- `zerg`: fundamental diff. -/
def zerg (n : Nat) (p q : Yaki (Map Nat)) : Option (Map Miso) :=
  rollPut h (fun pat => zergOne h lat n (get h.mug p.q pat) (get h.mug q.q pat))
    (In.tap (luth h p.q q.q) []) .nil

/-- The lines of a file of the base, for `quil`. -/
def meldLines (n : Nat) (bar : Option Nat) : Option (Option (List Nat)) :=
  match bar with
  | none => some none
  | some k => do
    let u ← zaul lat n k
    let a ← hardAtom u
    let tez ← lore a
    return some tez

/-- What `meld` puts for a change. -/
def meldPut (n : Nat) (bar : Option Nat) : Miso → Option (Option Blob)
  -- no longer exists
  | .del _ => some none
  -- new file
  | .ins p => some (some (zeul h p .c))
  -- patch from r
  | .mut p => do
    let k ← bar
    let u ← zaul lat n k
    let w ← lump p u
    return some (zeul h w .c)

/-- One path of `meld`. -/
def meldOne (n : Nat) (s t : Option Miso) (bar : Option Nat) : Option (Option Blob) := do
  let r ← meldLines lat n bar
  let v ← quil s t r
  let mis ← v
  meldPut h lat n bar mis

/-- The files of the base that are not updated. -/
def meldOld (lut : In.Tree) (r : Yaki (Map Nat)) : Option (List (Noun × Blob)) :=
  ((Treap.tap r.q []).filter fun i => !In.has h.mug lut i.1).mapM fun i =>
    (zaal lat i.2).map (Prod.mk i.1)

/-- `meld`: merge p,q from r. -/
def meld (n : Nat) (p q r : Yaki (Map Nat)) : Option (Map Blob) := do
  let s ← zerg h lat n r p
  let t ← zerg h lat n r q
  let lut := luth h s t
  let res ← rollPut h (fun pat => meldOne h lat n (get h.mug s pat) (get h.mug t pat) (get h.mug r.q pat))
    (In.tap lut []) .nil
  let old ← meldOld h lat lut r
  uni h.mug n res (gas h.mug .nil old)

end arms

/-! ### Hunks -/

/-- The edits of a patch, each with the line of the base at which it stands. -/
def hunks : Nat → List (Unce Noun) → List (Nat × List Noun × List Noun)
  | _, [] => []
  | n, .skip p :: t => hunks (n + p) t
  | n, .edit p q :: t => (n, p, q) :: hunks (n + p.length) t

/-- `qeal` does not mind the order of the sides. -/
theorem qealLoop_symm (s t : List (Unce Noun)) : qealLoop s t = qealLoop t s := by
  induction s, t using qealLoop.induct with
  | case1 t => cases t <;> simp [qealLoop]
  | case2 i s => simp [qealLoop]
  | case3 s a t ih => simp [qealLoop, ih]
  | case4 a s b t hab hlt ih =>
    rw [qealLoop, if_neg hab, if_pos hlt, ih, qealLoop.eq_def (.skip b :: t)]
    simp [Ne.symm hab, Nat.not_lt_of_lt hlt]
  | case5 a s b t hab hlt ih =>
    rw [qealLoop, if_neg hab, if_neg hlt, ih, qealLoop.eq_def (.skip b :: t)]
    have : a < b := by omega
    simp [Ne.symm hab, this]
  | case6 s p q t ih => simp [qealLoop, ih]
  | case7 a s p q t hab hlt ih => simp [qealLoop, hab, hlt, ih]
  | case8 a s p q t hab hlt => simp [qealLoop, hab, hlt]
  | case9 => simp [qealLoop]
  | case10 p q s t ih => simp [qealLoop, ih]
  | case11 p q s b t hab hlt ih => simp [qealLoop, hab, hlt, ih]
  | case12 p q s b t hab hlt => simp [qealLoop, hab, hlt]

/-- The merged patch has the hunks of both, where they stood. -/
theorem qealLoop_hunks {s t m : List (Unce Noun)} (hm : qealLoop s t = some m) (n : Nat) :
    (hunks n m).Perm (hunks n s ++ hunks n t) := by
  induction s, t using qealLoop.induct generalizing m n with
  | case1 t =>
    rw [qealLoop] at hm
    obtain rfl := Option.some.inj hm
    exact .refl _
  | case2 i s =>
    rw [qealLoop] at hm
    obtain rfl := Option.some.inj hm
    rw [hunks, List.append_nil]
  | case3 s a t ih =>
    rw [qealLoop, if_pos rfl] at hm
    obtain ⟨m', hm', rfl⟩ := Option.map_eq_some_iff.mp hm
    exact ih hm' (n + a)
  | case4 a s b t hab hlt ih =>
    rw [qealLoop, if_neg hab, if_pos hlt] at hm
    obtain ⟨m', hm', rfl⟩ := Option.map_eq_some_iff.mp hm
    have := ih hm' (n + b)
    rwa [hunks, show n + b + (a - b) = n + a by omega] at this
  | case5 a s b t hab hlt ih =>
    rw [qealLoop, if_neg hab, if_neg hlt] at hm
    obtain ⟨m', hm', rfl⟩ := Option.map_eq_some_iff.mp hm
    have := ih hm' (n + a)
    rwa [hunks, show n + a + (b - a) = n + b by omega] at this
  | case6 s p q t ih =>
    rw [qealLoop, if_pos rfl] at hm
    obtain ⟨m', hm', rfl⟩ := Option.map_eq_some_iff.mp hm
    exact ((ih hm' (n + p.length)).cons _).trans List.perm_middle.symm
  | case7 a s p q t hab hlt ih =>
    rw [qealLoop, if_neg hab, if_pos hlt] at hm
    obtain ⟨m', hm', rfl⟩ := Option.map_eq_some_iff.mp hm
    have := ih hm' (n + p.length)
    rw [hunks, show n + p.length + (a - p.length) = n + a by omega] at this
    exact (this.cons _).trans List.perm_middle.symm
  | case8 a s p q t hab hlt =>
    rw [qealLoop, if_neg hab, if_neg hlt] at hm
    cases hm
  | case9 =>
    rw [qealLoop] at hm
    cases hm
  | case10 p q s t ih =>
    rw [qealLoop, if_pos rfl] at hm
    obtain ⟨m', hm', rfl⟩ := Option.map_eq_some_iff.mp hm
    exact (ih hm' (n + p.length)).cons _
  | case11 p q s b t hab hlt ih =>
    rw [qealLoop, if_neg hab, if_pos hlt] at hm
    obtain ⟨m', hm', rfl⟩ := Option.map_eq_some_iff.mp hm
    have := ih hm' (n + p.length)
    rw [hunks, show n + p.length + (b - p.length) = n + b by omega] at this
    exact this.cons _
  | case12 p q s b t hab hlt =>
    rw [qealLoop, if_neg hab, if_neg hlt] at hm
    cases hm

theorem qeal_symm (p q : Udon) : qeal p q = qeal q p := by
  obtain ⟨pum, p⟩ := p
  obtain ⟨puq, q⟩ := q
  cases p <;> cases q <;> simp [qeal]
  rw [qealLoop_symm]

theorem qeal_hunks {d e f : Udon} (hf : qeal d e = some f) :
    ∃ pum puq s t m, d = .mk pum (.c s) ∧ e = .mk puq (.c t) ∧ f = .mk .c (.c m) ∧
      (Mirrored s → Mirrored t → (hunks 0 m).Perm (hunks 0 (mend s) ++ hunks 0 (mend t))) := by
  obtain ⟨pum, d⟩ := d
  obtain ⟨puq, e⟩ := e
  cases d with
  | c s =>
    cases e with
    | c t =>
      simp only [qeal] at hf
      obtain ⟨m, hm, rfl⟩ := Option.map_eq_some_iff.mp hf
      refine ⟨pum, puq, s, t, m, rfl, rfl, rfl, fun hs ht => ?_⟩
      have := qealLoop_hunks hm 0
      rwa [(qael_eq_mend_iff s).mpr hs, (qael_eq_mend_iff t).mpr ht] at this
    | _ => cases hf
  | _ => cases hf

/-! ### Maps path by path -/

section maps

variable {h : Hash} {lat : Lat} {n : Nat}

theorem loth_eq {β : Type} (m : Map β) :
    loth h m = In.gas h.mug .nil ((Treap.tap m []).map Prod.fst) := by
  rw [loth, In.gas, List.foldl_map]

theorem good_loth {β : Type} (m : Map β) : In.Good h.mug (loth h m) := by
  rw [loth_eq]
  exact In.good_gas Treap.canon_nil _

theorem has_loth {β : Type} {m : Map β} (hm : Treap.Ordered (gor h.mug) m) (x : Noun) :
    In.has h.mug (loth h m) x = true ↔ get h.mug m x ≠ none := by
  rw [loth_eq, In.has_gas Treap.canon_nil, has_nil, List.mem_map]
  have hmem := Treap.mem_tap_iff (gor_searchOrder h.mug) hm
  constructor
  · rintro (⟨i, hi, rfl⟩ | hf)
    · have hget : get h.mug m i.1 = some i.2 := (hmem i).mp hi
      rw [hget]
      exact Option.some_ne_none _
    · cases hf
  · intro hne
    obtain ⟨v, hv⟩ := Option.ne_none_iff_exists'.mp hne
    exact .inl ⟨(x, v), (hmem _).mpr hv, rfl⟩

theorem good_luth {β γ : Type} (p : Map β) (q : Map γ) : In.Good h.mug (luth h p q) :=
  good_union (good_loth p)

theorem has_luth {β γ : Type} {p : Map β} {q : Map γ} (hp : Treap.Ordered (gor h.mug) p)
    (hq : Treap.Ordered (gor h.mug) q) (x : Noun) :
    In.has h.mug (luth h p q) x = true ↔ get h.mug p x ≠ none ∨ get h.mug q x ≠ none := by
  rw [luth, has_union (good_loth p) (good_loth q), has_loth hp, has_loth hq]

theorem luth_symm {β γ : Type} {p : Map β} {q : Map γ} (hp : Treap.Ordered (gor h.mug) p)
    (hq : Treap.Ordered (gor h.mug) q) : luth h p q = luth h q p := by
  refine good_ext (good_luth p q) (good_luth q p) fun x => ?_
  rw [has_luth hp hq, has_luth hq hp, or_comm]

theorem nodup_luth {β γ : Type} (p : Map β) (q : Map γ) : (In.tap (luth h p q) []).Nodup :=
  In.nodup_tap (good_luth p q) List.nodup_nil (by simp)

/-- A roll has for each of its paths what was found there. -/
theorem rollPut_spec {β : Type} [DecidableEq β] {f : Noun → Option (Option β)} {l : List Noun}
    {m m' : Map β} (hr : rollPut h f l m = some m') (hl : l.Nodup)
    (hm : Treap.Canon (gor h.mug) (vor h.mug) m) :
    Treap.Canon (gor h.mug) (vor h.mug) m' ∧ (∀ x, x ∉ l → get h.mug m' x = get h.mug m x) ∧
      ∀ x ∈ l, ∃ o, f x = some o ∧ get h.mug m' x = o.or (get h.mug m x) := by
  induction l generalizing m with
  | nil =>
    obtain rfl := Option.some.inj hr
    exact ⟨hm, fun _ _ => rfl, by simp⟩
  | cons pat l ih =>
    rw [List.nodup_cons] at hl
    simp only [rollPut, Option.bind_eq_bind, Option.bind_eq_some_iff] at hr
    obtain ⟨o, ho, hr⟩ := hr
    cases o with
    | none =>
      obtain ⟨hc, hout, hin⟩ := ih hr hl.2 hm
      refine ⟨hc, fun x hx => hout x fun hmem => hx (List.mem_cons_of_mem _ hmem), fun x hx => ?_⟩
      rcases List.mem_cons.mp hx with rfl | hx
      · exact ⟨none, ho, hout x hl.1⟩
      · exact hin x hx
    | some v =>
      obtain ⟨hc, hout, hin⟩ := ih hr hl.2 (canon_put hm pat v)
      refine ⟨hc, fun x hx => ?_, fun x hx => ?_⟩
      · rw [List.mem_cons, not_or] at hx
        rw [hout x hx.2, get_put hm.ordered, if_neg hx.1]
      · rcases List.mem_cons.mp hx with rfl | hxl
        · refine ⟨some v, ho, ?_⟩
          rw [hout x hl.1, get_put hm.ordered, if_pos rfl]
          rfl
        · obtain ⟨o, ho, hget⟩ := hin x hxl
          refine ⟨o, ho, ?_⟩
          have hne : x ≠ pat := fun he => hl.1 (he ▸ hxl)
          rw [hget, get_put hm.ordered, if_neg hne]

theorem rollPut_congr {β : Type} [DecidableEq β] {f g : Noun → Option (Option β)} {l : List Noun}
    (hfg : ∀ x ∈ l, f x = g x) (m : Map β) : rollPut h f l m = rollPut h g l m := by
  induction l generalizing m with
  | nil => rfl
  | cons pat l ih =>
    rw [rollPut, rollPut, hfg pat List.mem_cons_self]
    refine congrArg _ (funext fun o => ?_)
    cases o <;> exact ih (fun x hx => hfg x (List.mem_cons_of_mem _ hx)) _

theorem rollPut_one {β : Type} [DecidableEq β] {f : Noun → Option (Option β)} {x : Noun} {o : Option β}
    (ho : f x = some o) :
    rollPut h f [x] .nil = some (o.elim .nil fun v => .node x v .nil .nil) := by
  cases o <;> simp [rollPut, ho, put, Treap.insert]

/-- What `zerg` has at a path. -/
def Changes (h : Hash) (lat : Lat) (n : Nat) (leb lob : Option Nat) (o : Option Miso) : Prop :=
  (leb = none ∧ lob = none ∧ o = none) ∨ zergOne h lat n leb lob = some o

theorem zerg_spec {p q : Yaki (Map Nat)} (hp : Treap.Ordered (gor h.mug) p.q)
    (hq : Treap.Ordered (gor h.mug) q.q) {s : Map Miso} (hs : zerg h lat n p q = some s) :
    Treap.Canon (gor h.mug) (vor h.mug) s ∧
      ∀ x, Changes h lat n (get h.mug p.q x) (get h.mug q.q x) (get h.mug s x) := by
  obtain ⟨hc, hout, hin⟩ := rollPut_spec hs (nodup_luth p.q q.q) Treap.canon_nil
  refine ⟨hc, fun x => ?_⟩
  have hmem : x ∈ In.tap (luth h p.q q.q) [] ↔ In.has h.mug (luth h p.q q.q) x = true :=
    mem_tap_iff (good_luth p.q q.q) x
  rw [has_luth hp hq] at hmem
  by_cases hx : x ∈ In.tap (luth h p.q q.q) []
  · obtain ⟨o, ho, hget⟩ := hin x hx
    have hnil : get h.mug (.nil : Map Miso) x = none := rfl
    rw [hnil, Option.or_none] at hget
    rw [hget]
    exact .inr ho
  · rw [hmem, not_or, not_ne_iff, not_ne_iff] at hx
    refine .inl ⟨hx.1, hx.2, ?_⟩
    rw [hout x (by rw [hmem]; simp [hx])]
    rfl

theorem get_gas {β : Type} [DecidableEq β] {mug : Noun → Nat} {l : List (Noun × β)} {m : Map β}
    (hl : (l.map Prod.fst).Nodup) (hm : Treap.Ordered (gor mug) m) :
    (∀ i ∈ l, get mug (gas mug m l) i.1 = some i.2) ∧
      ∀ x, x ∉ l.map Prod.fst → get mug (gas mug m l) x = get mug m x := by
  induction l generalizing m with
  | nil => exact ⟨by simp, fun _ _ => rfl⟩
  | cons i l ih =>
    rw [List.map_cons, List.nodup_cons] at hl
    obtain ⟨hin, hout⟩ := ih hl.2 (ordered_put hm i.1 i.2)
    have hcons : gas mug m (i :: l) = gas mug (put mug m i.1 i.2) l := rfl
    rw [hcons]
    refine ⟨fun j hj => ?_, fun x hx => ?_⟩
    · rcases List.mem_cons.mp hj with rfl | hj
      · rw [hout _ hl.1, get_put hm, if_pos rfl]
      · exact hin j hj
    · rw [List.map_cons, List.mem_cons, not_or] at hx
      rw [hout x hx.2, get_put hm, if_neg hx.1]

/-- The files that `meld` adds. -/
theorem meldOld_spec {lut : In.Tree} {r : Yaki (Map Nat)} (hr : Treap.Ordered (gor h.mug) r.q)
    {old : List (Noun × Blob)} (ho : meldOld h lat lut r = some old) (x : Noun) :
    (In.has h.mug lut x = true → get h.mug (gas h.mug .nil old) x = none) ∧
      (In.has h.mug lut x = false → (get h.mug r.q x = none → get h.mug (gas h.mug .nil old) x = none) ∧
        ∀ k, get h.mug r.q x = some k → ∃ b, lat.lookup k = some b ∧
          get h.mug (gas h.mug .nil old) x = some b) := by
  have hlist : ∀ (l : List (Noun × Nat)) (old : List (Noun × Blob)),
      (l.mapM fun i => (zaal lat i.2).map (Prod.mk i.1)) = some old →
      old.map Prod.fst = l.map Prod.fst ∧ ∀ i ∈ l, ∃ b, lat.lookup i.2 = some b ∧ (i.1, b) ∈ old := by
    intro l
    induction l with
    | nil =>
      intro old ho
      obtain rfl := Option.some.inj ho
      exact ⟨rfl, by simp⟩
    | cons i l ih =>
      intro old ho
      simp only [List.mapM_cons, zaal, Option.bind_eq_bind, Option.bind_eq_some_iff,
        Option.map_eq_some_iff, Option.pure_def, Option.some.injEq] at ho
      obtain ⟨-, ⟨b, hb, rfl⟩, old, hold, rfl⟩ := ho
      obtain ⟨hn, hall⟩ := ih old hold
      refine ⟨by simp [hn], fun j hj => ?_⟩
      rcases List.mem_cons.mp hj with rfl | hj
      · exact ⟨b, hb, List.mem_cons_self⟩
      · obtain ⟨c, hc, hmem⟩ := hall j hj
        exact ⟨c, hc, List.mem_cons_of_mem _ hmem⟩
  have hord := gor_searchOrder h.mug
  have hmem := Treap.mem_tap_iff hord hr
  obtain ⟨hn, hall⟩ := hlist _ old ho
  have hnd : (old.map Prod.fst).Nodup := by
    rw [hn]
    exact (Treap.nodup_tap hord hr).sublist (List.filter_sublist.map _)
  obtain ⟨hin, hout⟩ := get_gas (m := (.nil : Map Blob)) hnd trivial
  have hnames : ∀ x, x ∈ old.map Prod.fst ↔ get h.mug r.q x ≠ none ∧ In.has h.mug lut x = false := by
    intro x
    rw [hn, List.mem_map]
    constructor
    · rintro ⟨i, hi, rfl⟩
      obtain ⟨hi, hnot⟩ := List.mem_filter.mp hi
      have hget : get h.mug r.q i.1 = some i.2 := (hmem i).mp hi
      rw [hget]
      exact ⟨Option.some_ne_none _, by simpa using hnot⟩
    · rintro ⟨hne, hnot⟩
      obtain ⟨k, hk⟩ := Option.ne_none_iff_exists'.mp hne
      exact ⟨(x, k), List.mem_filter.mpr ⟨(hmem _).mpr hk, by simp [hnot]⟩, rfl⟩
  refine ⟨fun hx => ?_, fun hx => ⟨fun hk => ?_, fun k hk => ?_⟩⟩
  · rw [hout x (by simp [hnames, hx])]
    rfl
  · rw [hout x (by simp [hnames, hk])]
    rfl
  · obtain ⟨b, hb, hmb⟩ := hall (x, k) (List.mem_filter.mpr ⟨(hmem _).mpr hk, by simp [hx]⟩)
    exact ⟨b, hb, hin _ hmb⟩

end maps

/-! ### Changes of one file -/

section file

variable {h : Hash} {lat : Lat} {n : Nat}

/-- The merged file has the content of a name, or neither is there. -/
def Same (lat : Lat) (k : Option Nat) (b : Option Blob) : Prop :=
  match k with
  | none => b = none
  | some k => ∃ c v, b = some c ∧ Yields lat c v ∧ Named lat k v

theorem same_none {k : Option Nat} (hs : Same lat k none) : k = none := by
  cases k with
  | none => rfl
  | some k =>
    obtain ⟨_, _, hc, -⟩ := hs
    cases hc

/-- The merged file is the base with the hunks of both changes, where replacements next to each
other are one hunk. -/
def Joined (h : Hash) (lat : Lat) (k k₁ k₂ : Nat) (b : Option Blob) : Prop :=
  ∃ n pum puq s t m u w c, zergMut h lat n k k₁ = some (.mk pum (.c s)) ∧
    zergMut h lat n k k₂ = some (.mk puq (.c t)) ∧
    (hunks 0 m).Perm (hunks 0 (mend s) ++ hunks 0 (mend t)) ∧
    Named lat k u ∧ lump (.mk .c (.c m)) u = some w ∧ b = some c ∧ Yields lat c w

/-- What is to come of a file that both sides changed. If only one deleted it, that is a
conflict. -/
def Both (h : Hash) (lat : Lat) (k₀ : Option Nat) : Option Nat → Option Nat → Option Blob → Prop
  | none, none, b => b = none
  | some k₁, some k₂, b => ∃ k, k₀ = some k ∧ Joined h lat k k₁ k₂ b
  | _, _, _ => False

/-- What is to come of a file that has these names in the base and on the two sides. -/
structure Right (h : Hash) (lat : Lat) (k₀ k₁ k₂ : Option Nat) (b : Option Blob) : Prop where
  /-- One side changed it, or none did. -/
  left : k₁ = k₀ → Same lat k₂ b
  right : k₂ = k₀ → Same lat k₁ b
  both : k₁ ≠ k₀ → k₂ ≠ k₀ → Both h lat k₀ k₁ k₂ b

/-- A change of a file is restored: it is stored as a change of the base, or the file is not
merged as text, or it is text that ends in a newline. -/
def Ended (lat : Lat) (k k' : Nat) : Prop :=
  ∀ b b' v, lat.lookup k = some b → lat.lookup k' = some b' → Yields lat b' v →
    (∃ p d, b' = .delta p k d) ∨ zump b ≠ .c ∨ LinedText v

/-- In a change that is stored the order does not matter in which replacements next to each other
are joined. -/
def StoredMirrored (lat : Lat) (k k' : Nat) : Prop :=
  ∀ p pum s, lat.lookup k' = some (.delta p k (.mk pum (.c s))) → Mirrored s

/-- The two ways to find a change. -/
theorem zergMut_cases {k k' : Nat} {d : Udon} (hd : zergMut h lat n k k' = some d) :
    ∃ b b', lat.lookup k = some b ∧ lat.lookup k' = some b' ∧
      ((∃ p, b' = .delta p k d) ∨ ((¬∃ p e, b' = .delta p k e) ∧ ∃ u v, zaru lat n b = some u ∧
        zaru lat n b' = some v ∧ diff h.mug n (zump b) u v = some d)) := by
  simp only [zergMut, zaal, Option.bind_eq_bind, Option.bind_eq_some_iff] at hd
  obtain ⟨b, hb, b', hb', hd⟩ := hd
  refine ⟨b, b', hb, hb', ?_⟩
  cases b' with
  | delta p q r =>
    by_cases hq : k = q
    · simp only [hq, if_true] at hd
      obtain rfl := Option.some.inj hd
      exact .inl ⟨p, by rw [hq]⟩
    · simp only [hq, if_false, Option.bind_eq_some_iff] at hd
      obtain ⟨u, hu, v, hv, hd⟩ := hd
      refine .inr ⟨?_, u, v, hu, hv, hd⟩
      rintro ⟨p', e, he⟩
      cases he
      exact hq rfl
  | direct p q r =>
    simp only [Option.bind_eq_some_iff] at hd
    obtain ⟨u, hu, v, hv, hd⟩ := hd
    exact .inr ⟨by simp, u, v, hu, hv, hd⟩
  | indirect p q r t =>
    simp only [Option.bind_eq_some_iff] at hd
    obtain ⟨u, hu, v, hv, hd⟩ := hd
    exact .inr ⟨by simp, u, v, hu, hv, hd⟩

/-- A change of a file gives its content exactly if it is restored. -/
theorem zergMut_lump {k k' : Nat} {d : Udon} {u v w : Noun} (hd : zergMut h lat n k k' = some d)
    (hu : Named lat k u) (hv : Named lat k' v) (hw : lump d u = some w) : w = v ↔ Ended lat k k' := by
  obtain ⟨b, b', hb, hb', hcases⟩ := zergMut_cases hd
  obtain ⟨c, hc, hyu⟩ := hu
  obtain rfl := Option.some.inj (hb.symm.trans hc)
  obtain ⟨c', hc', hyv⟩ := hv
  obtain rfl := Option.some.inj (hb'.symm.trans hc')
  -- the condition, for the blobs that the names have
  have hended : Ended lat k k' ↔ (∃ p d, b' = .delta p k d) ∨ zump b ≠ .c ∨ LinedText v := by
    constructor
    · exact fun he => he b b' v hb hb' hyv
    · intro he c c' x hc hc' hx
      obtain rfl := Option.some.inj (hb.symm.trans hc)
      obtain rfl := Option.some.inj (hb'.symm.trans hc')
      rwa [hx.unique hyv]
  rw [hended]
  rcases hcases with ⟨p, rfl⟩ | ⟨hno, x, y, hx, hy, hdiff⟩
  · refine iff_of_true ?_ (.inl ⟨p, d, rfl⟩)
    cases hyv with
    | delta _ hb' hu' hl' =>
      obtain rfl := Option.some.inj (hb'.symm.trans hb)
      obtain rfl := hu'.unique hyu
      exact Option.some.inj (hw.symm.trans hl')
  · obtain rfl := (yields_of_zaru hx).unique hyu
    obtain rfl := (yields_of_zaru hy).unique hyv
    rw [or_iff_right hno]
    cases hz : zump b with
    | a =>
      rw [hz] at hdiff
      simp only [diff, Option.bind_eq_bind, Option.bind_eq_some_iff] at hdiff
      obtain ⟨e, he, hd⟩ := hdiff
      obtain rfl := Option.some.inj hd
      exact iff_of_true (Option.some.inj (hw.symm.trans (nude_spec he).1)) (.inl (by simp))
    | b =>
      rw [hz] at hdiff
      simp only [diff, Option.bind_eq_bind, Option.bind_eq_some_iff] at hdiff
      obtain ⟨_, _, _, _, _, _, _, _, e, _, hd⟩ := hdiff
      obtain rfl := Option.some.inj hd
      simp [lump] at hw
    | c =>
      rw [hz] at hdiff
      simp only [diff, Option.bind_eq_bind, Option.bind_eq_some_iff] at hdiff
      obtain ⟨hel, hold, hev, hnew, lcs, _, rug, hrug, hd⟩ := hdiff
      obtain rfl := Option.some.inj hd
      rw [← lump_text (lusk_turns hrug) hold hnew, hw]
      simp
    | d p =>
      rw [hz] at hdiff
      cases hdiff

theorem zergMut_mirrored {k k' : Nat} {pum : Umph} {s : List (Unce Noun)}
    (hd : zergMut h lat n k k' = some (.mk pum (.c s))) (hs : StoredMirrored lat k k') :
    Mirrored s := by
  obtain ⟨b, b', hb, hb', ⟨p, rfl⟩ | ⟨-, x, y, -, -, hdiff⟩⟩ := zergMut_cases hd
  · exact hs p pum s hb'
  · cases hz : zump b <;> rw [hz] at hdiff
    · simp only [diff, Option.bind_eq_bind, Option.bind_eq_some_iff] at hdiff
      obtain ⟨e, he, hd⟩ := hdiff
      cases hd
    · simp only [diff, Option.bind_eq_bind, Option.bind_eq_some_iff] at hdiff
      obtain ⟨_, _, _, _, _, _, _, _, e, _, hd⟩ := hdiff
      cases hd
    · simp only [diff, Option.bind_eq_bind, Option.bind_eq_some_iff] at hdiff
      obtain ⟨hel, hold, hev, hnew, lcs, _, rug, hrug, hd⟩ := hdiff
      cases hd
      exact mirrored_of_spaced (lusk_spaced hrug)
    · cases hdiff

/-- The changes of `zerg`, by kind. -/
theorem Changes.cases {k k' : Option Nat} {o : Option Miso} (hc : Changes h lat n k k' o) :
    (k' = k ∧ o = none) ∨
      (∃ j v, k = none ∧ k' = some j ∧ Named lat j v ∧ o = some (.ins v)) ∨
      (∃ i u, k = some i ∧ k' = none ∧ Named lat i u ∧ o = some (.del u)) ∨
      ∃ i j d, k = some i ∧ k' = some j ∧ i ≠ j ∧ zergMut h lat n i j = some d ∧ o = some (.mut d) := by
  rcases hc with ⟨rfl, rfl, rfl⟩ | hc
  · exact .inl ⟨rfl, rfl⟩
  · cases k with
    | none =>
      cases k' with
      | none => cases hc
      | some j =>
        obtain ⟨v, hv, rfl⟩ := Option.map_eq_some_iff.mp hc
        exact .inr (.inl ⟨j, v, rfl, rfl, named_of_zaul hv, rfl⟩)
    | some i =>
      cases k' with
      | none =>
        obtain ⟨u, hu, rfl⟩ := Option.map_eq_some_iff.mp hc
        exact .inr (.inr (.inl ⟨i, u, rfl, rfl, named_of_zaul hu, rfl⟩))
      | some j =>
        rw [zergOne] at hc
        by_cases hij : i = j
        · rw [if_pos hij] at hc
          exact .inl ⟨by rw [hij], (Option.some.inj hc).symm⟩
        · rw [if_neg hij] at hc
          obtain ⟨d, hd, rfl⟩ := Option.map_eq_some_iff.mp hc
          exact .inr (.inr (.inr ⟨i, j, d, rfl, rfl, hij, hd, rfl⟩))

/-- There is no change where the names are the same, and only there. -/
theorem Changes.same {k : Option Nat} {o : Option Miso} (hc : Changes h lat n k k o) : o = none := by
  rcases hc.cases with ⟨-, ho⟩ | ⟨_, _, rfl, he, -⟩ | ⟨_, _, rfl, he, -⟩ | ⟨_, _, _, rfl, he, hne, -⟩
  · exact ho
  · cases he
  · cases he
  · exact absurd (Option.some.inj he) hne

theorem Changes.eq_of_none {k k' : Option Nat} {o : Option Miso} (hc : Changes h lat n k k' o)
    (ho : o = none) : k' = k := by
  rcases hc.cases with ⟨he, -⟩ | ⟨_, _, -, -, -, rfl⟩ | ⟨_, _, -, -, -, rfl⟩ | ⟨_, _, _, -, -, -, -, rfl⟩
  · exact he
  · cases ho
  · cases ho
  · cases ho

/-- A file that one side changed. -/
theorem meldOne_single {k k' : Option Nat} {o : Option Miso} {b : Option Blob}
    (hc : Changes h lat n k k' o) (hne : o ≠ none)
    (hm : meldOne h lat n o none k = some b ∨ meldOne h lat n none o k = some b)
    (hstore : ∀ k b, lat.lookup k = some b → ∃ v, Yields lat b v) :
    Same lat k' b ↔ ∀ i j, k = some i → k' = some j → Ended lat i j := by
  obtain ⟨mis, rfl⟩ := Option.ne_none_iff_exists'.mp hne
  -- in either place the change goes through
  have hone : meldPut h lat n k mis = some b := by
    rcases hm with hm | hm
    all_goals
      simp only [meldOne, Option.bind_eq_bind, Option.bind_eq_some_iff] at hm
      obtain ⟨_, -, v, hv, mis', hmis, hm⟩ := hm
      obtain rfl := Option.some.inj hv
      obtain rfl := Option.some.inj hmis
      exact hm
  rcases hc.cases with ⟨-, ho⟩ | ⟨j, v, rfl, rfl, hv, ho⟩ | ⟨i, u, rfl, rfl, -, ho⟩ |
    ⟨i, j, d, rfl, rfl, -, hd, ho⟩
  · cases ho
  · obtain rfl := Option.some.inj ho
    obtain rfl := Option.some.inj hone
    exact iff_of_true ⟨_, v, rfl, .direct .., hv⟩ (by simp)
  · obtain rfl := Option.some.inj ho
    obtain rfl := Option.some.inj hone
    exact iff_of_true rfl (by simp)
  · obtain rfl := Option.some.inj ho
    simp only [meldPut, Option.bind_eq_bind, Option.bind_some, Option.bind_eq_some_iff] at hone
    obtain ⟨u, hu, w, hw, hb⟩ := hone
    obtain rfl := Option.some.inj hb
    obtain ⟨-, b', -, hb', -⟩ := zergMut_cases hd
    obtain ⟨v, hv⟩ := hstore j b' hb'
    have hlump := zergMut_lump hd (named_of_zaul hu) ⟨b', hb', hv⟩ hw
    constructor
    · rintro ⟨c, x, hc, hy, hn⟩ i' j' hi hj
      obtain rfl := Option.some.inj hi
      obtain rfl := Option.some.inj hj
      obtain rfl := Option.some.inj hc
      cases hy
      exact hlump.mp (hn.unique ⟨b', hb', hv⟩)
    · intro he
      have hwv := hlump.mpr (he i j rfl rfl)
      exact ⟨_, w, rfl, .direct .., by rw [hwv]; exact ⟨b', hb', hv⟩⟩

/-- A file that both sides changed. -/
theorem meldOne_both {k₀ k₁ k₂ : Option Nat} {o₁ o₂ : Option Miso} {b : Option Blob}
    (h₁ : Changes h lat n k₀ k₁ o₁) (h₂ : Changes h lat n k₀ k₂ o₂) (hne₁ : k₁ ≠ k₀) (hne₂ : k₂ ≠ k₀)
    (hboth : (k₁ = none ↔ k₂ = none)) (hm : meldOne h lat n o₁ o₂ k₀ = some b)
    (hs : ∀ i j j', k₀ = some i → k₁ = some j → k₂ = some j' →
      StoredMirrored lat i j ∧ StoredMirrored lat i j') :
    Both h lat k₀ k₁ k₂ b := by
  simp only [meldOne, Option.bind_eq_bind, Option.bind_eq_some_iff] at hm
  obtain ⟨r, -, v, hq, mis, rfl, hm⟩ := hm
  rcases h₁.cases with ⟨he, -⟩ | ⟨j, v, rfl, rfl, -, rfl⟩ | ⟨i, u, rfl, rfl, -, rfl⟩ |
    ⟨i, j, d, rfl, rfl, -, hd, rfl⟩
  · exact absurd he hne₁
  · -- both insert it
    rcases h₂.cases with ⟨he, -⟩ | ⟨j', v', -, rfl, -, rfl⟩ | ⟨_, _, he, -⟩ | ⟨_, _, _, he, -⟩
    · exact absurd he hne₂
    · cases hq
    · cases he
    · cases he
  · obtain rfl := hboth.mp rfl
    rcases h₂.cases with ⟨he, -⟩ | ⟨_, _, he, -⟩ | ⟨_, _, -, -, -, rfl⟩ | ⟨_, _, _, -, he, -⟩
    · cases he
    · cases he
    · obtain rfl := Option.some.inj (Option.some.inj hq)
      exact (Option.some.inj hm).symm
    · cases he
  · rcases h₂.cases with ⟨he, -⟩ | ⟨_, _, he, -⟩ | ⟨_, _, -, rfl, -, -⟩ | ⟨i', j', e, hi, rfl, -, he, rfl⟩
    · exact absurd he hne₂
    · cases he
    · exact absurd (hboth.mpr rfl) (by simp)
    · obtain rfl := Option.some.inj hi
      simp only [quil, Option.bind_eq_bind, Option.bind_eq_some_iff] at hq
      obtain ⟨_, -, f, hf, hq⟩ := hq
      obtain rfl := Option.some.inj (Option.some.inj hq)
      obtain ⟨pum, puq, s, t, m, rfl, rfl, rfl, hperm⟩ := qeal_hunks hf
      simp only [meldPut, Option.bind_eq_bind, Option.bind_some, Option.bind_eq_some_iff] at hm
      obtain ⟨u, hu, w, hw, hb⟩ := hm
      obtain rfl := Option.some.inj hb
      refine ⟨i, rfl, n, pum, puq, s, t, m, u, w, _, hd, he, ?_, named_of_zaul hu, hw, rfl, .direct ..⟩
      obtain ⟨hs₁, hs₂⟩ := hs i j j' rfl rfl rfl
      exact hperm (zergMut_mirrored hd hs₁) (zergMut_mirrored he hs₂)

/-- The order of the sides does not matter if neither deletes what the other changes. -/
theorem meldOne_symm {k₀ k₁ k₂ : Option Nat} {o₁ o₂ : Option Miso}
    (h₁ : Changes h lat n k₀ k₁ o₁) (h₂ : Changes h lat n k₀ k₂ o₂)
    (hboth : k₁ ≠ k₀ → k₂ ≠ k₀ → (k₁ = none ↔ k₂ = none)) :
    meldOne h lat n o₁ o₂ k₀ = meldOne h lat n o₂ o₁ k₀ := by
  rcases h₁.cases with ⟨-, rfl⟩ | ⟨j, v, rfl, rfl, -, rfl⟩ | ⟨i, u, rfl, rfl, -, rfl⟩ |
    ⟨i, j, d, rfl, rfl, hij, hd, rfl⟩
  · rcases h₂.cases with ⟨-, rfl⟩ | ⟨_, _, -, -, -, rfl⟩ | ⟨_, _, -, -, -, rfl⟩ | ⟨_, _, _, -, -, -, -, rfl⟩ <;>
      rfl
  · rcases h₂.cases with ⟨-, rfl⟩ | ⟨_, _, -, -, -, rfl⟩ | ⟨_, _, he, -⟩ | ⟨_, _, _, he, -⟩
    · rfl
    · rfl
    · cases he
    · cases he
  · rcases h₂.cases with ⟨-, rfl⟩ | ⟨_, _, he, -⟩ | ⟨_, _, -, -, -, rfl⟩ | ⟨i', j', _, hi, rfl, hne, -, -⟩
    · rfl
    · cases he
    · rfl
    · have := hboth (by simp) (by rw [hi]; simpa using hne.symm)
      simp at this
  · rcases h₂.cases with ⟨-, rfl⟩ | ⟨_, _, he, -⟩ | ⟨_, _, -, rfl, -, -⟩ | ⟨_, _, e, -, rfl, -, -, rfl⟩
    · rfl
    · cases he
    · have := hboth (by simpa using hij.symm) (by simp)
      simp at this
    · have hquil : ∀ r, quil (some (.mut d)) (some (.mut e)) r = quil (some (.mut e)) (some (.mut d)) r := by
        intro r
        simp only [quil, qeal_symm d e]
      simp only [meldOne, hquil]

end file

/-! ### Merges -/

section meld

variable {h : Hash} {lat : Lat} {p q r : Yaki (Map Nat)} {n : Nat} {c : Map Blob}

/-- The maps of the commits are in order. -/
structure Aligned (h : Hash) (p q r : Yaki (Map Nat)) : Prop where
  left : Treap.Ordered (gor h.mug) p.q
  right : Treap.Ordered (gor h.mug) q.q
  base : Treap.Ordered (gor h.mug) r.q

/-- The files that the merge makes, and those that it takes from the base. -/
theorem meld_parts (hr : Aligned h p q r) (hm : meld h lat n p q r = some c) :
    ∃ res old : Map Blob, Treap.Canon (gor h.mug) (vor h.mug) res ∧
      Treap.Canon (gor h.mug) (vor h.mug) old ∧ uni h.mug n res old = some c ∧
      ∀ x, ∃ o₁ o₂, Changes h lat n (get h.mug r.q x) (get h.mug p.q x) o₁ ∧
        Changes h lat n (get h.mug r.q x) (get h.mug q.q x) o₂ ∧
        ((o₁ = none ∧ o₂ = none ∧ get h.mug res x = none ∧
            (get h.mug r.q x = none → get h.mug old x = none) ∧
            ∀ k, get h.mug r.q x = some k → ∃ b, lat.lookup k = some b ∧ get h.mug old x = some b) ∨
          ((o₁ ≠ none ∨ o₂ ≠ none) ∧ get h.mug old x = none ∧
            meldOne h lat n o₁ o₂ (get h.mug r.q x) = some (get h.mug res x))) := by
  simp only [meld, Option.bind_eq_bind, Option.bind_eq_some_iff] at hm
  obtain ⟨s, hs, t, ht, res, hres, old, hold, huni⟩ := hm
  obtain ⟨hsc, hsx⟩ := zerg_spec hr.base hr.left hs
  obtain ⟨htc, htx⟩ := zerg_spec hr.base hr.right ht
  obtain ⟨hrc, hout, hin⟩ := rollPut_spec hres (nodup_luth s t) Treap.canon_nil
  have hhas : ∀ x, In.has h.mug (luth h s t) x = true ↔
      get h.mug s x ≠ none ∨ get h.mug t x ≠ none := has_luth hsc.ordered htc.ordered
  refine ⟨res, gas h.mug .nil old, hrc, canon_gas Treap.canon_nil old, huni, fun x => ?_⟩
  refine ⟨get h.mug s x, get h.mug t x, hsx x, htx x, ?_⟩
  have hmem : x ∈ In.tap (luth h s t) [] ↔ In.has h.mug (luth h s t) x = true :=
    mem_tap_iff (good_luth s t) x
  obtain ⟨hyes, hno⟩ := meldOld_spec hr.base hold x
  by_cases hx : In.has h.mug (luth h s t) x = true
  · obtain ⟨o, ho, hget⟩ := hin x (hmem.mpr hx)
    have hnil : get h.mug (.nil : Map Blob) x = none := rfl
    rw [hnil, Option.or_none] at hget
    exact .inr ⟨(hhas x).mp hx, hyes hx, hget ▸ ho⟩
  · have hnone : get h.mug s x = none ∧ get h.mug t x = none := by
      rwa [hhas, not_or, not_ne_iff, not_ne_iff] at hx
    obtain ⟨hbase, hfile⟩ := hno (Bool.not_eq_true _ ▸ hx)
    exact .inl ⟨hnone.1, hnone.2, hout x (mt hmem.mp hx), hbase, hfile⟩

/-- A path that is deleted on one side and changed on the other. -/
def Disputed (k₀ k₁ k₂ : Option Nat) : Prop := k₁ ≠ k₀ ∧ k₂ ≠ k₀ ∧ ¬(k₁ = none ↔ k₂ = none)

/-- A file of the base that neither side changed. -/
def Unchanged (k₀ k₁ k₂ : Option Nat) : Prop := k₀ ≠ none ∧ k₁ = k₀ ∧ k₂ = k₀

/-- A file that a side changed and none deleted. -/
def Remade (k₀ k₁ k₂ : Option Nat) : Prop :=
  (k₁ ≠ k₀ ∨ k₂ ≠ k₀) ∧ (k₁ ≠ k₀ → k₁ ≠ none) ∧ (k₂ ≠ k₀ → k₂ ≠ none)

/-- When the paths that are changed and those that are not are put together in one map, `++hor`
answers as `++gor` does whatever `uni:by` asks. -/
def Joins (mug : Noun → Nat) (p q r : Yaki (Map Nat)) : Prop :=
  ∃ a b c : Treap Noun Unit,
    Treap.Canon (gor mug) (vor mug) a ∧ Treap.Canon (gor mug) (vor mug) b ∧
    (∀ x, Treap.Has x a ↔ Remade (get mug r.q x) (get mug p.q x) (get mug q.q x)) ∧
    (∀ x, Treap.Has x b ↔ Unchanged (get mug r.q x) (get mug p.q x) (get mug q.q x)) ∧
    Treap.Shared (gor mug) (hor mug) (vor mug) (vor mug) a b c

/-- Without a dispute what is made of a path is there if it should be. -/
theorem meldOne_there {k₀ k₁ k₂ : Option Nat} {o₁ o₂ : Option Miso} {b : Option Blob}
    (h₁ : Changes h lat n k₀ k₁ o₁) (h₂ : Changes h lat n k₀ k₂ o₂)
    (hnone : ¬Disputed k₀ k₁ k₂) (ho : o₁ ≠ none ∨ o₂ ≠ none)
    (hm : meldOne h lat n o₁ o₂ k₀ = some b) : b ≠ none ↔ Remade k₀ k₁ k₂ := by
  simp only [meldOne, Option.bind_eq_bind, Option.bind_eq_some_iff] at hm
  obtain ⟨l, -, v, hq, mis, rfl, hm⟩ := hm
  -- only a deletion leaves no file
  have hput : b = none ↔ ∃ u, mis = .del u := by
    cases mis
    case del u =>
      obtain rfl := Option.some.inj hm
      simp
    case ins u =>
      obtain rfl := Option.some.inj hm
      simp
    case «mut» d =>
      simp only [meldPut, Option.bind_eq_bind, Option.bind_eq_some_iff] at hm
      obtain ⟨k, -, u, -, w, -, hb⟩ := hm
      obtain rfl := Option.some.inj hb
      simp
  rw [ne_eq, hput]
  rcases h₁.cases with ⟨rfl, rfl⟩ | ⟨j, u, rfl, rfl, -, rfl⟩ | ⟨i, u, rfl, rfl, -, rfl⟩ |
    ⟨i, j, d, rfl, rfl, hij, -, rfl⟩ <;>
    rcases h₂.cases with ⟨rfl, rfl⟩ | ⟨j', u', he, rfl, -, rfl⟩ | ⟨i', u', he, rfl, -, rfl⟩ |
      ⟨i', j', d', he, rfl, hij', -, rfl⟩ <;>
    simp_all [Remade, Disputed, quil, Option.bind_eq_some_iff] <;>
    grind

/-- The paths that a merge makes and those that it takes from the base, as trees. -/
theorem joins_iff {res old : Map Blob} (hres : Treap.Canon (gor h.mug) (vor h.mug) res)
    (hold : Treap.Canon (gor h.mug) (vor h.mug) old)
    (hremade : ∀ x, Treap.Has x res ↔
      Remade (get h.mug r.q x) (get h.mug p.q x) (get h.mug q.q x))
    (hkept : ∀ x, Treap.Has x old ↔
      Unchanged (get h.mug r.q x) (get h.mug p.q x) (get h.mug q.q x)) :
    Joins h.mug p q r ↔
      ∃ c, Treap.Shared (gor h.mug) (hor h.mug) (vor h.mug) (vor h.mug) res old c := by
  have hg := gor_searchOrder h.mug
  have hv := vor_searchOrder h.mug
  -- the keys determine the tree
  have huniq : ∀ {a : Treap Noun Unit} {m : Map Blob}, Treap.Canon (gor h.mug) (vor h.mug) a →
      Treap.Canon (gor h.mug) (vor h.mug) m → (∀ x, Treap.Has x a ↔ Treap.Has x m) →
      m.keys = a := by
    intro a m ha hm hk
    refine hm.keys.eq_of_holds hg hv ha fun x _ => ?_
    have hboth := (hk x).trans Treap.has_keys.symm
    exact ⟨fun hx => (hboth.mpr hx.has).elim fun _ hv => hv,
      fun hx => (hboth.mp hx.has).elim fun _ hv => hv⟩
  constructor
  · rintro ⟨a, b, c, ha, hb, hax, hbx, hs⟩
    have hra := huniq ha hres fun x => (hax x).trans (hremade x).symm
    have hob := huniq hb hold fun x => (hbx x).trans (hkept x).symm
    obtain ⟨d, hd, -⟩ := Treap.shared_of_keys hs hra hob
    exact ⟨d, hd⟩
  · rintro ⟨c, hs⟩
    exact ⟨_, _, _, hres.keys, hold.keys, fun x => Treap.has_keys.trans (hremade x),
      fun x => Treap.has_keys.trans (hkept x), hs.keys⟩

/-- Which paths a merge makes and which it takes from the base, if there is no dispute. -/
theorem meld_keys {res old : Map Blob} {x : Noun} {o₁ o₂ : Option Miso}
    (hres : Treap.Canon (gor h.mug) (vor h.mug) res) (hold : Treap.Canon (gor h.mug) (vor h.mug) old)
    (hnone : ¬Disputed (get h.mug r.q x) (get h.mug p.q x) (get h.mug q.q x))
    (h₁ : Changes h lat n (get h.mug r.q x) (get h.mug p.q x) o₁)
    (h₂ : Changes h lat n (get h.mug r.q x) (get h.mug q.q x) o₂)
    (hcase : (o₁ = none ∧ o₂ = none ∧ get h.mug res x = none ∧
        (get h.mug r.q x = none → get h.mug old x = none) ∧
        ∀ k, get h.mug r.q x = some k → ∃ b, lat.lookup k = some b ∧ get h.mug old x = some b) ∨
      ((o₁ ≠ none ∨ o₂ ≠ none) ∧ get h.mug old x = none ∧
        meldOne h lat n o₁ o₂ (get h.mug r.q x) = some (get h.mug res x))) :
    (Treap.Has x res ↔ Remade (get h.mug r.q x) (get h.mug p.q x) (get h.mug q.q x)) ∧
      (Treap.Has x old ↔ Unchanged (get h.mug r.q x) (get h.mug p.q x) (get h.mug q.q x)) := by
  have hg := gor_searchOrder h.mug
  have hhas : ∀ {m : Map Blob}, Treap.Canon (gor h.mug) (vor h.mug) m →
      (Treap.Has x m ↔ get h.mug m x ≠ none) := fun hm =>
    not_iff_not.mp ((Treap.lookup_eq_none hg hm.ordered).symm.trans not_not.symm)
  rw [hhas hres, hhas hold]
  rcases hcase with ⟨rfl, rfl, hno, hbase, hfile⟩ | ⟨ho, hno, hm⟩
  · have hp := h₁.eq_of_none rfl
    have hq := h₂.eq_of_none rfl
    refine ⟨iff_of_false (fun hne => hne hno) fun hrem => hrem.1.elim (· hp) (· hq), ?_⟩
    refine ⟨fun hne => ⟨fun hk => hne (hbase hk), hp, hq⟩, fun hun => ?_⟩
    obtain ⟨k, hk⟩ := Option.ne_none_iff_exists'.mp hun.1
    obtain ⟨b, -, hb⟩ := hfile k hk
    rw [hb]
    exact Option.some_ne_none b
  · refine ⟨meldOne_there h₁ h₂ hnone ho hm, iff_of_false (fun hne => hne hno) ?_⟩
    rintro ⟨-, hp, hq⟩
    rw [hp] at h₁
    rw [hq] at h₂
    exact ho.elim (· h₁.same) (· h₂.same)

/-- What a merge has at a path. -/
theorem meld_cases (hr : Aligned h p q r) (hj : Joins h.mug p q r)
    (hnone : ∀ x, ¬Disputed (get h.mug r.q x) (get h.mug p.q x) (get h.mug q.q x))
    (hm : meld h lat n p q r = some c) (x : Noun) :
    ∃ o₁ o₂, Changes h lat n (get h.mug r.q x) (get h.mug p.q x) o₁ ∧
      Changes h lat n (get h.mug r.q x) (get h.mug q.q x) o₂ ∧
      ((o₁ = none ∧ o₂ = none ∧ (get h.mug r.q x = none → get h.mug c x = none) ∧
          ∀ k, get h.mug r.q x = some k → ∃ b, lat.lookup k = some b ∧ get h.mug c x = some b) ∨
        ((o₁ ≠ none ∨ o₂ ≠ none) ∧ meldOne h lat n o₁ o₂ (get h.mug r.q x) = some (get h.mug c x))) := by
  obtain ⟨res, old, hres, hold, huni, hx⟩ := meld_parts hr hm
  have hkeys : ∀ x, (Treap.Has x res ↔ Remade (get h.mug r.q x) (get h.mug p.q x) (get h.mug q.q x)) ∧
      (Treap.Has x old ↔ Unchanged (get h.mug r.q x) (get h.mug p.q x) (get h.mug q.q x)) := by
    intro x
    obtain ⟨o₁, o₂, h₁, h₂, hcase⟩ := hx x
    exact meld_keys hres hold (hnone x) h₁ h₂ hcase
  obtain ⟨_, hs⟩ := (joins_iff hres hold (fun x => (hkeys x).1) fun x => (hkeys x).2).mp hj
  obtain ⟨d, hset, hd, -, -⟩ := unites_of_shared hres hold hs
  obtain rfl := splitUni_eq huni hset
  obtain ⟨o₁, o₂, h₁, h₂, hcase⟩ := hx x
  refine ⟨o₁, o₂, h₁, h₂, hcase.imp ?_ ?_⟩
  · rintro ⟨ho₁, ho₂, hno, hbase, hfile⟩
    refine ⟨ho₁, ho₂, fun hk => ?_, fun k hk => ?_⟩
    · rw [hd x, hbase hk, hno]
      rfl
    · obtain ⟨b, hb, hget⟩ := hfile k hk
      exact ⟨b, hb, by rw [hd x, hget]; rfl⟩
  · rintro ⟨ho, hno, hm⟩
    exact ⟨ho, by rw [hd x, hno, Option.none_or]; exact hm⟩

/-- A merge without disputed paths does not mind the order of the sides. -/
theorem meld_symm (hr : Aligned h p q r)
    (hnone : ∀ x, ¬Disputed (get h.mug r.q x) (get h.mug p.q x) (get h.mug q.q x)) :
    meld h lat n p q r = meld h lat n q p r := by
  cases hs : zerg h lat n r p with
  | none => cases ht : zerg h lat n r q <;> simp [meld, hs, ht]
  | some s =>
    cases ht : zerg h lat n r q with
    | none => simp [meld, hs, ht]
    | some t =>
      obtain ⟨hsc, hsx⟩ := zerg_spec hr.base hr.left hs
      obtain ⟨htc, htx⟩ := zerg_spec hr.base hr.right ht
      have hluth : luth h t s = luth h s t := luth_symm htc.ordered hsc.ordered
      have hroll := rollPut_congr (h := h) (l := In.tap (luth h s t) []) (fun x _ =>
        meldOne_symm (hsx x) (htx x) fun h₁ h₂ => by
          by_contra hne
          exact hnone x ⟨h₁, h₂, hne⟩) (.nil : Map Blob)
      simp only [meld, hs, ht, Option.bind_eq_bind, Option.bind_some, hluth, hroll]

/-- A merge that is done as it should be. -/
structure MeldRight (h : Hash) (lat : Lat) (p q r : Yaki (Map Nat)) : Prop where
  files : ∀ n c, meld h lat n p q r = some c →
    ∀ x, Right h lat (get h.mug r.q x) (get h.mug p.q x) (get h.mug q.q x) (get h.mug c x)
  there : ∀ n c, meld h lat n p q r = some c →
    ∃ m d, meld h lat m q p r = some d ∧ ∀ x, get h.mug d x = get h.mug c x
  back : ∀ n c, meld h lat n q p r = some c →
    ∃ m d, meld h lat m p q r = some d ∧ ∀ x, get h.mug d x = get h.mug c x

/-- A merge that finds all its files was put together as `++gor` has it. -/
theorem joins_of_files (hr : Aligned h p q r) (hm : meld h lat n p q r = some c)
    (hnone : ∀ x, ¬Disputed (get h.mug r.q x) (get h.mug p.q x) (get h.mug q.q x))
    (hfile : ∀ x, Right h lat (get h.mug r.q x) (get h.mug p.q x) (get h.mug q.q x)
      (get h.mug c x)) : Joins h.mug p q r := by
  have hg := gor_searchOrder h.mug
  have hv := vor_searchOrder h.mug
  obtain ⟨res, old, hres, hold, huni, hx⟩ := meld_parts hr hm
  have hkeys : ∀ x, (Treap.Has x res ↔ Remade (get h.mug r.q x) (get h.mug p.q x) (get h.mug q.q x)) ∧
      (Treap.Has x old ↔ Unchanged (get h.mug r.q x) (get h.mug p.q x) (get h.mug q.q x)) := by
    intro x
    obtain ⟨o₁, o₂, h₁, h₂, hcase⟩ := hx x
    exact meld_keys hres hold (hnone x) h₁ h₂ hcase
  have hrun := union_of_splitUni hv huni
  have hdisj : ∀ x, Treap.Has x res → ¬Treap.Has x old := by
    intro x hxr hxo
    obtain ⟨hch, -⟩ := (hkeys x).1.mp hxr
    obtain ⟨-, hp, hq⟩ := (hkeys x).2.mp hxo
    exact hch.elim (· hp) (· hq)
  obtain ⟨hdist, hhas⟩ := hrun.distinct (hres.ordered.distinct hg) (hold.ordered.distinct hg) hdisj
  -- so there is no key that the merge does not find
  have hfound : ∀ x, Treap.Has x c → Treap.Found (gor h.mug) x c := by
    intro x hxc
    refine Treap.found_of_lookup fun hno => ?_
    have hgone : get h.mug c x = none := hno
    have hright := hfile x
    rw [hgone] at hright
    rcases (hhas x).mp hxc with hxr | hxo
    · obtain ⟨hch, hp, hq⟩ := (hkeys x).1.mp hxr
      by_cases hpx : get h.mug p.q x = get h.mug r.q x
      · have hqx := hch.resolve_left (· hpx)
        exact hq hqx (same_none (hright.left hpx))
      · by_cases hqx : get h.mug q.q x = get h.mug r.q x
        · exact hp hpx (same_none (hright.right hqx))
        · have hboth := hright.both hpx hqx
          obtain ⟨k, hk⟩ := Option.ne_none_iff_exists'.mp (hp hpx)
          obtain ⟨k', hk'⟩ := Option.ne_none_iff_exists'.mp (hq hqx)
          rw [hk, hk'] at hboth
          obtain ⟨_, -, _, _, _, _, _, _, _, _, _, -, -, -, -, -, hb, -⟩ := hboth
          cases hb
    · obtain ⟨hk, hp, hq⟩ := (hkeys x).2.mp hxo
      exact hk (hq.symm.trans (same_none (hright.left hp)))
  refine (joins_iff hres hold (fun x => (hkeys x).1) fun x => (hkeys x).2).mpr ⟨c, ?_⟩
  exact hrun.shared_of_ordered hg (hor_searchOrder h.mug) hv hres hold
    (Treap.ordered_of_found hg hdist hfound)

/-- A file that only one side changed is restored. -/
def Restored (h : Hash) (lat : Lat) (p q r : Yaki (Map Nat)) : Prop :=
  ∀ x i j, get h.mug r.q x = some i → i ≠ j →
    (get h.mug p.q x = some j ∧ get h.mug q.q x = some i) ∨
      (get h.mug p.q x = some i ∧ get h.mug q.q x = some j) → Ended lat i j

/-- Where both sides changed a file, the changes that are stored can be joined in either order. -/
def BothMirrored (h : Hash) (lat : Lat) (p q r : Yaki (Map Nat)) : Prop :=
  ∀ x i j j', get h.mug r.q x = some i → get h.mug p.q x = some j → get h.mug q.q x = some j' →
    j ≠ i → j' ≠ i → StoredMirrored lat i j ∧ StoredMirrored lat i j'

/-- What is done as it should be has no dispute. -/
theorem Right.undisputed {k₀ k₁ k₂ : Option Nat} {b : Option Blob} (hb : Right h lat k₀ k₁ k₂ b) :
    ¬Disputed k₀ k₁ k₂ := by
  rintro ⟨h₁, h₂, hne⟩
  have hboth := hb.both h₁ h₂
  cases k₁ <;> cases k₂ <;> first | exact hboth | simp at hne

theorem Disputed.symm {k₀ k₁ k₂ : Option Nat} (hd : Disputed k₀ k₁ k₂) : Disputed k₀ k₂ k₁ :=
  ⟨hd.2.1, hd.1, fun he => hd.2.2 he.symm⟩

theorem Aligned.symm (hr : Aligned h p q r) : Aligned h q p r := ⟨hr.right, hr.left, hr.base⟩

theorem Joins.symm (hj : Joins h.mug p q r) : Joins h.mug q p r := by
  obtain ⟨a, b, c, ha, hb, hax, hbx, hs⟩ := hj
  refine ⟨a, b, c, ha, hb, fun x => (hax x).trans ?_, fun x => (hbx x).trans ?_, hs⟩
  · exact and_congr or_comm and_comm
  · exact and_congr_right' and_comm

section files

variable (hr : Aligned h p q r) (hj : Joins h.mug p q r)
  (hnone : ∀ x, ¬Disputed (get h.mug r.q x) (get h.mug p.q x) (get h.mug q.q x))
  (hstore : ∀ k b, lat.lookup k = some b → ∃ v, Yields lat b v)
  (hm : meld h lat n p q r = some c) {x : Noun}

include hr hj hnone hstore hm

/-- A file that neither side changed. -/
theorem meld_kept (hp : get h.mug p.q x = get h.mug r.q x)
    (hq : get h.mug q.q x = get h.mug r.q x) : Same lat (get h.mug r.q x) (get h.mug c x) := by
  obtain ⟨o₁, o₂, h₁, h₂, hcase⟩ := meld_cases hr hj hnone hm x
  rw [hp] at h₁
  rw [hq] at h₂
  rcases hcase with ⟨-, -, hno, hyes⟩ | ⟨ho | ho, -⟩
  · cases hk : get h.mug r.q x with
    | none => exact hno hk
    | some k =>
      obtain ⟨b, hb, hget⟩ := hyes k hk
      obtain ⟨v, hv⟩ := hstore k b hb
      exact ⟨b, v, hget, hv, b, hb, hv⟩
  · exact absurd h₁.same ho
  · exact absurd h₂.same ho

/-- A file that only the one side changed. -/
theorem meld_alone (hp : get h.mug p.q x ≠ get h.mug r.q x) (hq : get h.mug q.q x = get h.mug r.q x) :
    Same lat (get h.mug p.q x) (get h.mug c x) ↔
      ∀ i j, get h.mug r.q x = some i → get h.mug p.q x = some j → Ended lat i j := by
  obtain ⟨o₁, o₂, h₁, h₂, hcase⟩ := meld_cases hr hj hnone hm x
  have ho₁ : o₁ ≠ none := fun ho => hp (h₁.eq_of_none ho)
  rw [hq] at h₂
  rcases hcase with ⟨ho, -⟩ | ⟨-, hone⟩
  · exact absurd ho ho₁
  · rw [h₂.same] at hone
    exact meldOne_single h₁ ho₁ (.inl hone) hstore

end files

/-- A merge that succeeds, in one order of its sides at least, is done as it should be only if
no path is deleted on one side and changed on the other, the files that one side only changed
are restored, and the two orders put the map together alike; and then it is, if no stored change
that it joins with another is spoilt by `++qael`. -/
theorem meld_right_iff (hr : Aligned h p q r) (hstore : ∀ k b, lat.lookup k = some b → ∃ v, Yields lat b v)
    (hsome : ∃ n c, meld h lat n p q r = some c ∨ meld h lat n q p r = some c) :
    (MeldRight h lat p q r →
      (∀ x, ¬Disputed (get h.mug r.q x) (get h.mug p.q x) (get h.mug q.q x)) ∧
        Restored h lat p q r ∧ Joins h.mug p q r) ∧
    (BothMirrored h lat p q r →
      (∀ x, ¬Disputed (get h.mug r.q x) (get h.mug p.q x) (get h.mug q.q x)) ∧
        Restored h lat p q r ∧ Joins h.mug p q r → MeldRight h lat p q r) := by
  constructor
  · intro hright
    -- a merge in the one order gives one in the other
    obtain ⟨n, c, hm⟩ : ∃ n c, meld h lat n p q r = some c := by
      obtain ⟨n, c, hm | hm⟩ := hsome
      · exact ⟨n, c, hm⟩
      · obtain ⟨m, d, hd, -⟩ := hright.back n c hm
        exact ⟨m, d, hd⟩
    have hfile := hright.files n c hm
    have hnone := fun x => (hfile x).undisputed
    have hj := joins_of_files hr hm hnone hfile
    refine ⟨hnone, ?_, hj⟩
    rintro x i j hi hij (⟨hp, hq⟩ | ⟨hp, hq⟩)
    · have hne : get h.mug p.q x ≠ get h.mug r.q x := by simp [hi, hp, hij.symm]
      have hq := hq.trans hi.symm
      exact (meld_alone hr hj hnone hstore hm hne hq).mp ((hfile x).right hq) i j hi hp
    · have hne : get h.mug q.q x ≠ get h.mug r.q x := by simp [hi, hq, hij.symm]
      have hp := hp.trans hi.symm
      exact (meld_alone hr.symm hj.symm (fun x hd => hnone x hd.symm) hstore
        (meld_symm hr hnone ▸ hm) hne hp).mp ((hfile x).left hp) i j hi hq
  · rintro hmir ⟨hnone, hres, hj⟩
    have hsymm : ∀ n, meld h lat n p q r = meld h lat n q p r := fun n => meld_symm hr hnone
    refine ⟨fun n c hm x => ⟨fun hp => ?_, fun hq => ?_, fun h₁ h₂ => ?_⟩,
      fun n c hm => ⟨n, c, by rw [← hsymm, hm], fun _ => rfl⟩,
      fun n c hm => ⟨n, c, by rw [hsymm, hm], fun _ => rfl⟩⟩
    · by_cases hq : get h.mug q.q x = get h.mug r.q x
      · rw [hq]
        exact meld_kept hr hj hnone hstore hm hp hq
      · refine (meld_alone hr.symm hj.symm (fun x hd => hnone x hd.symm) hstore (hsymm n ▸ hm) hq hp).mpr
          fun i j hi hj => ?_
        refine hres x i j hi ?_ (.inr ⟨hp.trans hi, hj⟩)
        rintro rfl
        exact hq (hj.trans hi.symm)
    · by_cases hp : get h.mug p.q x = get h.mug r.q x
      · rw [hp]
        exact meld_kept hr hj hnone hstore hm hp hq
      · refine (meld_alone hr hj hnone hstore hm hp hq).mpr fun i j hi hj => ?_
        refine hres x i j hi ?_ (.inl ⟨hj, hq.trans hi⟩)
        rintro rfl
        exact hp (hj.trans hi.symm)
    · obtain ⟨o₁, o₂, hc₁, hc₂, hcase⟩ := meld_cases hr hj hnone hm x
      rcases hcase with ⟨ho, -⟩ | ⟨-, hone⟩
      · exact absurd (hc₁.eq_of_none ho) h₁
      · refine meldOne_both hc₁ hc₂ h₁ h₂ ?_ hone fun i j j' hi hj hj' => ?_
        · by_contra hne
          exact hnone x ⟨h₁, h₂, hne⟩
        · refine hmir x i j j' hi hj hj' ?_ ?_
          · rintro rfl
            exact h₁ (hj.trans hi.symm)
          · rintro rfl
            exact h₂ (hj'.trans hi.symm)

end meld

/-! ### Merges of one file -/

/-- A commit with one file. -/
def oneFile (k : Nat) : Yaki (Map Nat) := ⟨[], .node (pathNoun [97]) k .nil .nil, 0, 0⟩

/-- A commit without files. -/
def noFile : Yaki (Map Nat) := ⟨[], .nil, 0, 0⟩

/-- The empty text, and it with a line. -/
def twoBlobs : Lat :=
  (Finmap.insert 2 (.delta 2 1 (.mk .c (.c [.edit [] [.atom 97]]))) ∅).insert 1 (.direct 1 (.atom 0) .c)

/-- The hashes of the two merges: `++mug`, and two that they do not read. -/
def oneHash : Hash := ⟨mug, fun a _ => a, fun _ => 1⟩

theorem lookup_one : twoBlobs.lookup 1 = some (.direct 1 (.atom 0) .c) := Finmap.lookup_insert _

theorem lookup_two :
    twoBlobs.lookup 2 = some (.delta 2 1 (.mk .c (.c [.edit [] [.atom 97]]))) := by
  rw [twoBlobs, Finmap.lookup_insert_of_ne _ (by decide), Finmap.lookup_insert]

theorem lookup_other {k : Nat} (h₁ : k ≠ 1) (h₂ : k ≠ 2) : twoBlobs.lookup k = none := by
  rw [twoBlobs, Finmap.lookup_insert_of_ne _ h₁, Finmap.lookup_insert_of_ne _ h₂, Finmap.lookup_empty]

theorem lump_line : ∃ w, lump (.mk .c (.c [.edit [] [.atom 97]])) (.atom 0) = some w := by
  simp [lump, loreNoun, hardAtom, lore_zero, lurk, lurkLoop, lurkDrop]

theorem zerg_change : zerg oneHash twoBlobs 1 (oneFile 1) (oneFile 2) =
    some (.node (pathNoun [97]) (.mut (.mk .c (.c [.edit [] [.atom 97]]))) .nil .nil) := by
  have htap : In.tap (luth oneHash (oneFile 1).q (oneFile 2).q) [] = [pathNoun [97]] := rfl
  have hone : zergOne oneHash twoBlobs 1 (some 1) (some 2) =
      some (some (.mut (.mk .c (.c [.edit [] [.atom 97]])))) := by
    simp [zergOne, zergMut, zaal, lookup_one, lookup_two]
  rw [zerg, htap]
  exact rollPut_one (x := pathNoun [97]) (f := fun pat => zergOne oneHash twoBlobs 1
    (Hoon.get oneHash.mug (oneFile 1).q pat) (Hoon.get oneHash.mug (oneFile 2).q pat)) hone

theorem zerg_same : zerg oneHash twoBlobs 1 (oneFile 1) (oneFile 1) = some .nil := rfl

theorem zerg_gone : zerg oneHash twoBlobs 1 (oneFile 1) noFile =
    some (.node (pathNoun [97]) (.del (.atom 0)) .nil .nil) := by
  have htap : In.tap (luth oneHash (oneFile 1).q noFile.q) [] = [pathNoun [97]] := rfl
  have hone : zergOne oneHash twoBlobs 1 (some 1) none = some (some (.del (.atom 0))) := by
    simp [zergOne, zaul, zaal, lookup_one, zaru]
  rw [zerg, htap]
  exact rollPut_one (x := pathNoun [97]) (f := fun pat => zergOne oneHash twoBlobs 1
    (Hoon.get oneHash.mug (oneFile 1).q pat) (Hoon.get oneHash.mug noFile.q pat)) hone

theorem meldLines_one : meldLines twoBlobs 1 (some 1) = some (some []) := by
  simp [meldLines, zaul, zaal, lookup_one, zaru, hardAtom, lore_zero]

theorem meld_right_one : MeldRight oneHash twoBlobs (oneFile 1) (oneFile 2) (oneFile 1) := by
  have hother : ∀ k x, x ≠ pathNoun [97] → get oneHash.mug (oneFile k).q x = none := by
    intro k x hx
    show Treap.lookup _ (.node (pathNoun [97]) k .nil .nil) x = none
    simp [Treap.lookup, hx]
  have hget : ∀ k x, get oneHash.mug (oneFile k).q x ≠ none → x = pathNoun [97] := by
    intro k x hx
    by_contra hne
    exact hx (hother k x hne)
  have hat : ∀ k, get oneHash.mug (oneFile k).q (pathNoun [97]) = some k := fun k => rfl
  have hsucc : ∃ c, meld oneHash twoBlobs 1 (oneFile 1) (oneFile 2) (oneFile 1) = some c := by
    obtain ⟨w, hw⟩ := lump_line
    have hone : meldOne oneHash twoBlobs 1 none (some (.mut (.mk .c (.c [.edit [] [.atom 97]])))) (some 1) =
        some (some (zeul oneHash w .c)) := by
      simp [meldOne, meldLines_one, quil, meldPut, zaul, zaal, lookup_one, zaru, hw]
    refine ⟨.node (pathNoun [97]) (zeul oneHash w .c) .nil .nil, ?_⟩
    have htap : In.tap (luth oneHash (.nil : Map Miso) (.node (pathNoun [97])
        (Miso.mut (.mk .c (.c [.edit [] [.atom 97]]))) .nil .nil)) [] = [pathNoun [97]] := rfl
    simp only [meld, zerg_same, zerg_change, Option.bind_eq_bind, Option.bind_some, htap]
    rw [rollPut_one hone]
    rfl
  obtain ⟨c, hc⟩ := hsucc
  have hord : ∀ k, Treap.Ordered (gor oneHash.mug) (oneFile k).q := fun _ =>
    ⟨trivial, trivial, trivial, trivial⟩
  refine (meld_right_iff ⟨hord 1, hord 2, hord 1⟩ ?_ ⟨1, c, .inl hc⟩).2 ?_ ⟨?_, ?_, ?_⟩
  · intro k b hb
    by_cases h₁ : k = 1
    · rw [h₁, lookup_one] at hb
      obtain rfl := Option.some.inj hb
      exact ⟨_, .direct ..⟩
    · by_cases h₂ : k = 2
      · rw [h₂, lookup_two] at hb
        obtain rfl := Option.some.inj hb
        obtain ⟨w, hw⟩ := lump_line
        exact ⟨w, .delta 2 lookup_one (.direct ..) hw⟩
      · rw [lookup_other h₁ h₂] at hb
        cases hb
  · intro x i j j' hi hj _ hne _
    exact absurd (Option.some.inj (hj.symm.trans hi)) hne
  · rintro x ⟨hne, -⟩
    exact hne rfl
  · rintro x i j hi hij (⟨hp, -⟩ | ⟨-, hq⟩)
    · exact absurd (Option.some.inj (hi.symm.trans hp)) hij
    · obtain rfl := hget 1 x (by rw [hi]; simp)
      obtain rfl := Option.some.inj ((hat 1).symm.trans hi)
      obtain rfl := Option.some.inj ((hat 2).symm.trans hq)
      intro b b' v _ hb' _
      rw [lookup_two] at hb'
      obtain rfl := Option.some.inj hb'
      exact .inl ⟨_, _, rfl⟩
  · refine ⟨.node (pathNoun [97]) () .nil .nil, .nil, _, ⟨⟨trivial, trivial, trivial, trivial⟩,
      ⟨trivial, trivial, trivial, trivial⟩⟩, Treap.canon_nil, fun x => ?_, fun x => ?_, .nilRight _⟩
    · by_cases hx : x = pathNoun [97]
      · subst hx
        simp [hat, Remade]
      · simp [hother _ x hx, Remade, hx]
    · by_cases hx : x = pathNoun [97]
      · subst hx
        simp [hat, Unchanged]
      · simp [hother _ x hx, Unchanged]

/-- The one side deletes the file and the other adds a line to it, and the merge deletes it. -/
theorem meld_drops_change : ¬MeldRight oneHash twoBlobs noFile (oneFile 2) (oneFile 1) := by
  intro hright
  have hone : meldOne oneHash twoBlobs 1 (some (.del (.atom 0)))
      (some (.mut (.mk .c (.c [.edit [] [.atom 97]])))) (some 1) = some none := by
    simp [meldOne, meldLines_one, quil, meldPut]
  have hm : meld oneHash twoBlobs 1 noFile (oneFile 2) (oneFile 1) = some .nil := by
    have htap : In.tap (luth oneHash (.node (pathNoun [97]) (Miso.del (.atom 0)) .nil .nil)
        (.node (pathNoun [97]) (Miso.mut (.mk .c (.c [.edit [] [.atom 97]]))) .nil .nil)) [] =
          [pathNoun [97]] := rfl
    simp only [meld, zerg_gone, zerg_change, Option.bind_eq_bind, Option.bind_some, htap]
    rw [rollPut_one hone]
    rfl
  have hgone : Hoon.get oneHash.mug noFile.q (pathNoun [97]) = none := rfl
  have hat : ∀ k, Hoon.get oneHash.mug (oneFile k).q (pathNoun [97]) = some k := fun _ => rfl
  have hfile := hright.files 1 _ hm (pathNoun [97])
  rw [hgone, hat, hat] at hfile
  exact hfile.both (by simp) (by simp)

end Vere.Clay
