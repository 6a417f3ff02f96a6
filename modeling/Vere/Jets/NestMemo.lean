import Vere.Jets.Nest
import Vere.Lib.Memo

/-!
# Vere.Jets.NestMemo

The cache of the jet of `+-nest:ut`.

`_nest_dext` files every answer under the two types alone. The answer also depends on `tel`,
which turns a no into an error, on the pairs in `gil`, which are taken for granted, and on
the compiler core. Where no pair comes up while it is being compared the pairs in `gil` make
no difference (`fix_under`), and a no that is found where an error should be is an error one
call up. So with one core the cache is exact but for a query with `tel` of types that were
answered no (`memo_exact`).
-/

namespace Vere.Jets

open Vere.Hoon Vere.Lib

open Ut (Ty Foot Arms Metal Van Gil telCheck telCheck_telCheck)

/-- What the calls of one comparison ask. -/
abbrev NestAsk := Ask NestQ (fun _ => Bool) Bool

/-! ### A comparison with fewer assumptions -/

/-- The same comparison, with no more pairs taken for granted and no more errors. -/
structure Under (q q₀ : NestQ) : Prop where
  sut : q₀.sut = q.sut
  ref : q₀.ref = q.ref
  gil : q₀.gil ⊆ q.gil
  tel : q₀.tel = true → q.tel = true

/-- Programs with the same shape: the second asks what the first does with fewer assumptions,
and a no to a question with `tel` is the end of both. -/
inductive Like (tel : Bool) : NestAsk → NestAsk → Prop
  | stop (x : Virt Bool) : Like tel (.stop x) (.stop x)
  | ask {q q₀ : NestQ} {k k₀ : Bool → NestAsk} (hunder : Under q q₀) (htel : q.tel = true → tel = true)
      (hno : q.tel = true → k false = .stop (pure false) ∧ k₀ false = .stop (pure false))
      (hk : ∀ b, Like tel (k b) (k₀ b)) : Like tel (.ask q k) (.ask q₀ k₀)

section like

variable {tel tel₀ : Bool} {x x₀ y y₀ : NestAsk}

theorem Like.call {q q₀ : NestQ} (hunder : Under q q₀) (htel : q.tel = true → tel = true) :
    Like tel (.call q) (.call q₀) :=
  .ask hunder htel (fun _ => ⟨rfl, rfl⟩) fun _ => .stop _

theorem Like.and (hx : Like tel x x₀) (hy : Like tel y y₀) : Like tel (u2And x y) (u2And x₀ y₀) := by
  induction hx with
  | stop z =>
      match z with
      | none => exact .stop none
      | some (.error ()) => exact .stop (some (.error ()))
      | some (.ok true) => exact hy
      | some (.ok false) => exact .stop _
  | ask hunder htel hno _ ih =>
      refine .ask hunder htel ?_ ih
      intro hq
      obtain ⟨hk, hk₀⟩ := hno hq
      simp only [hk, hk₀]
      exact ⟨rfl, rfl⟩

/-- The first of two alternatives is asked without `tel`. -/
theorem Like.or {q q₀ : NestQ} (hunder : Under q q₀) (hq : q.tel = false) (hy : Like tel y y₀) :
    Like tel (u2Or (.call q) y) (u2Or (.call q₀) y₀) := by
  have htel : q.tel = true → tel = true := by simp [hq]
  refine .ask hunder htel (by simp [hq]) ?_
  intro b
  cases b with
  | true => exact .stop _
  | false => exact hy

theorem Like.lift {α : Type} (v : Virt α) {f f₀ : α → NestAsk} (h : ∀ a, Like tel (f a) (f₀ a)) :
    Like tel (.stop v >>= f) (.stop v >>= f₀) := by
  match v with
  | none => exact .stop none
  | some (.error ()) => exact .stop (some (.error ()))
  | some (.ok a) => exact h a

end like

section body

variable {van : Van} {tel tel₀ : Bool} {gil gil₀ : Gil} {sut ref : Ty}

/-- The question as it is asked. -/
def asks (tel : Bool) (gil : Gil) (sut ref : Ty) : NestAsk := .call ⟨tel, gil, sut, ref⟩

theorem like_asks (hgil : gil₀ ⊆ gil) (htel : tel₀ = true → tel = true) (s r : Ty) :
    Like tel (asks tel gil s r) (asks tel₀ gil₀ s r) :=
  .call ⟨rfl, rfl, hgil, htel⟩ id

theorem like_asks_no (hgil : gil₀ ⊆ gil) (s r : Ty) :
    Like tel (asks false gil s r) (asks false gil₀ s r) :=
  .call ⟨rfl, rfl, hgil, id⟩ nofun

theorem like_foot {dext dext₀ : Ty → Ty → NestAsk} (h : ∀ s r, Like tel (dext s r) (dext₀ s r))
    (q q' : Foot) :
    Like tel (nestFoot van dext sut ref q q') (nestFoot van dext₀ sut ref q q') := by
  cases q with
  | ash p =>
      cases q' with
      | ash p' => exact .lift _ fun vis => .lift _ fun lon => h vis lon
      | _ => exact .stop _
  | _ => exact .stop _

theorem like_cram {dext dext₀ : Ty → Ty → NestAsk} (h : ∀ s r, Like tel (dext s r) (dext₀ s r))
    (arms arms' : Arms) :
    Like tel (nestCram van dext sut ref arms arms') (nestCram van dext₀ sut ref arms arms') := by
  cases arms with
  | nil => exact .stop _
  | node p q l r =>
      cases arms' with
      | nil => exact .stop _
      | node p' q' l' r' =>
          refine .and (like_cram h l l') (.and (like_cram h r r') ?_)
          split
          · exact .stop _
          · exact like_foot h q q'

theorem like_metal (hgil : gil₀ ⊆ gil) (htel : tel₀ = true → tel = true) (metal : Metal) (q q' : Ty) :
    Like tel (nestMetal van asks tel gil metal q q') (nestMetal van asks tel₀ gil₀ metal q q') := by
  have h := like_asks hgil htel
  cases metal with
  | gold => exact .and (h q q') (h q' q)
  | iron => exact .lift _ fun s => .lift _ fun r => h r s
  | lead => exact .stop _
  | zinc => exact .lift _ fun s => .lift _ fun r => h s r

theorem like_cong (hgil : gil₀ ⊆ gil) (htel : tel₀ = true → tel = true) {p q p' q' : Ty}
    {metal metal' : Metal} {bat bat' : Noun} {arms arms' : Arms}
    (hhit : (Ty.core p metal q bat arms, Ty.core p' metal' q' bat' arms') ∈ gil ↔
      (Ty.core p metal q bat arms, Ty.core p' metal' q' bat' arms') ∈ gil₀) :
    Like tel (nestCong van asks tel gil p metal q bat arms p' metal' q' bat' arms')
      (nestCong van asks tel₀ gil₀ p metal q bat arms p' metal' q' bat' arms') := by
  have h := like_asks hgil htel
  unfold nestCong
  split
  · exact h p p'
  · refine .and (h q p) (.and (h p q) (.and (h q' p') ?_))
    split
    · exact .stop _
    · simp only [hhit]
      split
      · exact .stop _
      · refine .and (like_cram (fun s r => like_asks ?_ htel s r) arms arms')
          (like_metal hgil htel metal q q')
        exact List.cons_subset_cons _ hgil

theorem like_sint (hgil : gil₀ ⊆ gil) (htel : tel₀ = true → tel = true)
    (hhit : (sut, ref) ∈ gil ↔ (sut, ref) ∈ gil₀) :
    Like tel (nestSint van asks tel gil sut ref) (nestSint van asks tel₀ gil₀ sut ref) := by
  have h := like_asks hgil htel
  cases ref with
  | noun | void | atom | cell => exact .stop _
  | bull cog hyp axe s q => exact h sut q
  | core p metal q bat arms => exact .lift _ fun gam => h sut gam
  | cube p q => exact h sut q
  | face p q => exact h sut q
  | fork p q => exact .and (like_asks_no hgil sut p) (like_asks_no hgil sut q)
  | hold p =>
      simp only [nestSint, hhit]
      split
      · exact .stop _
      · exact .lift _ fun gam => like_asks (List.cons_subset_cons _ hgil) htel sut gam

theorem like_dextIn (hgil : gil₀ ⊆ gil) (htel : tel₀ = true → tel = true)
    (hhit : (sut, ref) ∈ gil ↔ (sut, ref) ∈ gil₀) :
    Like tel (nestDextIn van asks tel gil sut ref) (nestDextIn van asks tel₀ gil₀ sut ref) := by
  have h := like_asks hgil htel
  have hsint : Like tel (nestSint van asks tel gil sut ref) (nestSint van asks tel₀ gil₀ sut ref) :=
    like_sint hgil htel hhit
  cases sut with
  | noun => exact .stop _
  | void => exact hsint
  | atom p =>
      cases ref with
      | atom q =>
          simp only [nestDextIn]
          split <;> exact .stop _
      | _ => exact hsint
  | bull cog hyp axe s q => exact h q ref
  | cell p q =>
      cases ref with
      | cell p' q' => exact .and (h p p') (h q q')
      | _ => exact hsint
  | core p metal q bat arms =>
      cases ref with
      | core p' metal' q' bat' arms' => exact like_cong hgil htel hhit
      | _ => exact hsint
  | cube p q =>
      cases ref with
      | cube p' q' => exact .stop _
      | _ => exact hsint
  | face p q => exact h q ref
  | fork p q =>
      have hor : Like tel (u2Or (asks false gil p ref) (asks false gil q ref))
          (u2Or (asks false gil₀ p ref) (asks false gil₀ q ref)) :=
        .or ⟨rfl, rfl, hgil, id⟩ rfl (like_asks_no hgil q ref)
      cases ref with
      | noun | atom | cell | cube | core => exact hor
      | _ => exact hsint
  | hold p =>
      simp only [nestDextIn, hhit]
      split
      · exact .stop _
      · exact .lift _ fun fop => like_asks (List.cons_subset_cons _ hgil) htel fop ref

end body

/-! ### What the assumptions are worth -/

/-- Two programs of one shape are run alike, up to the check of `tel`. -/
theorem run_like {rec : NestQ → Virt Bool} {tel : Bool} {t t₀ : NestAsk} (h : Like tel t t₀)
    (hrec : ∀ q q₀, t.Made (fun q b => rec q = pure b) q → Under q q₀ →
      rec q = rec q₀ >>= telCheck q.tel) :
    t.run rec >>= telCheck tel = t₀.run rec >>= telCheck tel := by
  induction h with
  | stop x => rfl
  | @ask q q₀ k k₀ hunder htel hno hk ih =>
      have hq := hrec q q₀ .here hunder
      show (rec q >>= fun b => (k b).run rec) >>= telCheck tel
        = (rec q₀ >>= fun b => (k₀ b).run rec) >>= telCheck tel
      have hgo : ∀ b, rec q = pure b → (k b).run rec >>= telCheck tel = (k₀ b).run rec >>= telCheck tel :=
        fun b hb => ih b fun q' q₀' hq' => hrec q' q₀' (.later hb hq')
      match hq₀ : rec q₀ with
      | none =>
          rw [hq₀] at hq
          rw [hq]
          rfl
      | some (.error ()) =>
          rw [hq₀] at hq
          rw [hq]
          rfl
      | some (.ok true) =>
          rw [hq₀] at hq
          rw [hq]
          exact hgo true hq
      | some (.ok false) =>
          rw [hq₀] at hq
          cases hqt : q.tel with
          | false =>
              rw [hqt] at hq
              rw [hq]
              exact hgo false hq
          | true =>
              rw [hqt] at hq
              rw [hq, htel hqt]
              show _ = (k₀ false).run rec >>= telCheck true
              rw [(hno hqt).2]
              rfl

section tame

variable {van : Van} {q q₀ : NestQ}

/-- No comparison that is reached is one that is being made. -/
def Tame (van : Van) (q : NestQ) : Prop :=
  ∀ q', Ask.Reaches (nestBody van) q q' → (q'.sut, q'.ref) ∉ q'.gil

theorem Tame.made (h : Tame van q) {q' : NestQ}
    (hq' : (nestBody van q).Made (Ask.Gives (nestBody van)) q') : Tame van q' :=
  fun q'' hq'' => h q'' (.step hq' hq'')

theorem nestBody_of_ne (h : q.sut ≠ q.ref) :
    nestBody van q = nestDextTo van asks q.tel q.gil q.sut q.ref := if_neg h

/-- A comparison in which none is met again comes to the same with fewer assumptions, but that
`tel` makes a no an error. -/
theorem fix_under (htame : Tame van q) (hunder : Under q q₀) (n : Nat) :
    Ask.fix (nestBody van) n q = Ask.fix (nestBody van) n q₀ >>= telCheck q.tel := by
  induction n generalizing q q₀ with
  | zero => rfl
  | succ n ih =>
      show (nestBody van q).run _ = (nestBody van q₀).run _ >>= telCheck q.tel
      by_cases heq : q.sut = q.ref
      · have heq₀ : q₀.sut = q₀.ref := by
          rw [hunder.sut, hunder.ref, heq]
        rw [nestBody, nestBody, nestDext, nestDext, if_pos heq, if_pos heq₀]
        rfl
      · have heq₀ : q₀.sut ≠ q₀.ref := by
          rwa [hunder.sut, hunder.ref]
        have hmiss := htame q (.self q)
        have hhit : (q.sut, q.ref) ∈ q.gil ↔ (q.sut, q.ref) ∈ q₀.gil :=
          ⟨fun h => absurd h hmiss, fun h => absurd (hunder.gil h) hmiss⟩
        have hlike : Like q.tel (nestDextIn van asks q.tel q.gil q.sut q.ref)
            (nestDextIn van asks q₀.tel q₀.gil q.sut q.ref) :=
          like_dextIn hunder.gil hunder.tel hhit
        rw [nestBody_of_ne heq, nestBody_of_ne heq₀, run_dextTo, run_dextTo,
          telCheck_telCheck hunder.tel, hunder.sut, hunder.ref]
        refine run_like hlike ?_
        intro q' q₀' hq' hunder'
        refine ih (htame.made ?_) hunder'
        rw [nestBody_of_ne heq]
        exact (hq'.mono fun q b hb => ⟨n, hb⟩).bind _

/-- The comparison of the two types by themselves. -/
def bare (q : NestQ) : NestQ := ⟨false, [], q.sut, q.ref⟩

theorem under_bare (q : NestQ) : Under q (bare q) := ⟨rfl, rfl, List.nil_subset _, nofun⟩

theorem comes_of_bare (htame : Tame van q) {b : Bool} (h : Ask.Gives (nestBody van) (bare q) b) :
    Ask.Gives (nestBody van) q b ∨
      ((q.tel = true ∧ b = false) ∧ Ask.Comes (nestBody van) q (.error ())) := by
  obtain ⟨n, hn⟩ := h
  have hfix := fix_under htame (under_bare q) n
  rw [hn] at hfix
  cases htel : q.tel with
  | false =>
      rw [htel] at hfix
      exact .inl ⟨n, by rw [hfix]; cases b <;> rfl⟩
  | true =>
      rw [htel] at hfix
      cases b with
      | true => exact .inl ⟨n, hfix⟩
      | false => exact .inr ⟨⟨rfl, rfl⟩, n, hfix⟩

theorem bare_of_gives (htame : Tame van q) {b : Bool} (h : Ask.Gives (nestBody van) q b) :
    Ask.Gives (nestBody van) (bare q) b := by
  obtain ⟨n, hn⟩ := h
  refine ⟨n, ?_⟩
  rw [fix_under htame (under_bare q) n] at hn
  match hfix : Ask.fix (nestBody van) n (bare q) with
  | none =>
      rw [hfix] at hn
      cases hn
  | some (.error ()) =>
      rw [hfix] at hn
      cases hn
  | some (.ok b') =>
      rw [hfix] at hn
      cases b' with
      | true => exact hn
      | false =>
          cases htel : q.tel with
          | false =>
              rw [htel] at hn
              exact hn
          | true =>
              rw [htel] at hn
              cases hn

/-- A no to a question with `tel` is a crash of the comparison that asked it. -/
theorem strict_like {t t₀ : NestAsk} {tel : Bool} (h : Like tel t t₀) :
    Ask.Strict (fun q b => q.tel = true ∧ b = false)
      (t >>= fun tyn => if tyn = true ∨ tel = false then Pure.pure tyn else .stop (throw ())) := by
  induction h with
  | stop x =>
      match x with
      | none => trivial
      | some (.error ()) => trivial
      | some (.ok true) => trivial
      | some (.ok false) => cases tel <;> trivial
  | ask hunder htel hno hk ih =>
      refine ⟨?_, ih⟩
      rintro r ⟨hq, rfl⟩
      simp only [(hno hq).1, htel hq]
      rfl

theorem strict_nestBody (van : Van) (q : NestQ) :
    (nestBody van q).Strict fun q b => q.tel = true ∧ b = false := by
  by_cases heq : q.sut = q.ref
  · rw [nestBody, nestDext, if_pos heq]
    trivial
  · rw [nestBody_of_ne heq]
    exact strict_like (like_dextIn (List.Subset.refl _) id Iff.rfl)

end tame

/-! ### The cache -/

/-- The answer of `_nest_dext` before it looks at the cache. -/
def nestNow (q : NestQ) : Option Bool := if q.sut = q.ref then some true else none

/-- The key of `u2_rl_find_cell` and `u2_rl_save_cell` in `_nest_dext`. -/
def nestKey (q : NestQ) : Ty × Ty := (q.sut, q.ref)

/-- `_nest_dext`, with its cache. -/
def nestMemo (cash : Cash (Ty × Ty) Bool) (van : Van) (n : Nat) (q : NestQ) (s : cash.Store) :
    Option (Except Unit Bool × cash.Store) :=
  Ask.memo cash nestNow nestKey (nestBody van) n q s

/-- The cache is safe for comparisons in which none is met again. -/
def nestSafe (van : Van) : Ask.Safe nestNow nestKey (nestBody van) where
  tame := Tame van
  val k b := Ask.Gives (nestBody van) ⟨false, [], k.1, k.2⟩ b
  soft q b := q.tel = true ∧ b = false
  tame_made htame hq' := htame.made hq'
  now_gives := by
    intro q r h
    unfold nestNow at h
    split at h
    · next heq =>
        cases h
        refine ⟨1, ?_⟩
        rw [Ask.fix, nestBody, nestDext, if_pos heq]
        rfl
    · cases h
  val_of_gives htame h := bare_of_gives htame h
  of_val htame _ h := comes_of_bare htame h
  strict _ := strict_nestBody van _

/-- A query of `nest`. -/
structure NestQuery where
  van : Van
  tel : Bool
  sut : Ty
  ref : Ty

/-- What a query asks `_nest_dext`. -/
def NestQuery.ask (e : NestQuery) : NestQ := ⟨e.tel, [], e.sut, e.ref⟩

/-- Queries one after another with one cache, each of which is `ok` when it is made, with what
they return. -/
inductive NestRun (cash : Cash (Ty × Ty) Bool) (ok : cash.Store → NestQuery → Prop) :
    List (NestQuery × Except Unit Bool) → cash.Store → Prop
  | nil : NestRun cash ok [] cash.empty
  | snoc {l : List (NestQuery × Except Unit Bool)} {s s' : cash.Store} {e : NestQuery} {n : Nat}
      {x : Except Unit Bool} (hl : NestRun cash ok l s) (hok : ok s e)
      (hx : nestMemo cash e.van n e.ask s = some (x, s')) : NestRun cash ok (l ++ [(e, x)]) s'

/-- A query that the cache is exact for: of the same compiler core as the others, in which no
comparison is met again, and not one with `tel` of types that were answered no. -/
structure Exact (cash : Cash (Ty × Ty) Bool) (van : Van) (s : cash.Store) (e : NestQuery) : Prop where
  core : e.van = van
  tame : Tame van e.ask
  tel : e.tel = true → e.sut ≠ e.ref → cash.find s (e.sut, e.ref) ≠ some false

section exact

variable {cash : Cash (Ty × Ty) Bool} {van : Van} {s s' : cash.Store} {e : NestQuery}

/-- One query: the cache stays good, and what it returns is what the recursion comes to. -/
theorem nestMemo_exact {n : Nat} {x : Except Unit Bool} (hgood : (nestSafe van).Good s)
    (he : Exact cash van s e) (h : nestMemo cash van n e.ask s = some (x, s')) :
    (nestSafe van).Good s' ∧ Ask.Comes (nestBody van) e.ask x := by
  obtain ⟨hgood', hfits⟩ := Ask.memo_sound (nestSafe van) he.tame hgood h
  refine ⟨hgood', ?_⟩
  rcases hfits with hx | ⟨r, rfl, ⟨hnow, hfind⟩, ⟨htel, rfl⟩, -⟩
  · exact hx
  · have hne : e.sut ≠ e.ref := by
      intro heq
      rw [nestNow, show e.ask.sut = e.ask.ref from heq, if_pos rfl] at hnow
      cases hnow
    exact absurd hfind (he.tel htel hne)

/-- Every run leaves a cache that is good. -/
theorem NestRun.good {l : List (NestQuery × Except Unit Bool)}
    (h : NestRun cash (Exact cash van) l s) : (nestSafe van).Good s := by
  induction h with
  | nil => exact (nestSafe van).good_empty
  | snoc _ hok hx ih =>
      rw [hok.core] at hx
      exact (nestMemo_exact ih hok hx).1

end exact

/-- In a run of queries of one compiler core, in which no comparison is met again and none is
made with `tel` of types that were answered no, every query returned what the recursion
without a cache comes to, and the next one will. -/
theorem memo_exact (cash : Cash (Ty × Ty) Bool) (van : Van)
    (l : List (NestQuery × Except Unit Bool)) (s : cash.Store)
    (h : NestRun cash (Exact cash van) l s) :
    (∀ e ∈ l, Ask.Comes (nestBody e.1.van) e.1.ask e.2) ∧
    ∀ e, Exact cash van s e → ∀ x, Ask.Comes (nestBody e.van) e.ask x ↔
      ∃ n s', nestMemo cash e.van n e.ask s = some (x, s') := by
  refine ⟨?_, ?_⟩
  · induction h with
    | nil => exact nofun
    | snoc hl hok hx ih =>
        intro e he
        rcases List.mem_append.mp he with hmem | hmem
        · exact ih e hmem
        · cases List.mem_singleton.mp hmem
          rw [hok.core] at hx ⊢
          exact (nestMemo_exact hl.good hok hx).2
  · intro e he x
    rw [he.core]
    constructor
    · rintro ⟨n, hn⟩
      obtain ⟨⟨y, s'⟩, hy⟩ := Ask.memo_ends (nestSafe van) he.tame h.good hn
      have hcomes := (nestMemo_exact h.good he hy).2
      rw [Ask.Comes.unique ⟨n, hn⟩ hcomes]
      exact ⟨n, s', hy⟩
    · rintro ⟨n, s', hx⟩
      exact (nestMemo_exact h.good he hx).2

/-- The cache as a list of what was saved. -/
def listCash (K R : Type) [DecidableEq K] : Cash K R where
  Store := List (K × R)
  empty := []
  find s k := s.lookup k
  save s k r := (k, r) :: s
  find_empty _ := rfl
  find_save := by
    intro s k r k' r' h
    rw [List.lookup_cons] at h
    split at h
    · next heq => exact .inl ⟨beq_iff_eq.mp heq, (Option.some.inj h).symm⟩
    · exact .inr h

/-- Are the cells atoms. -/
def cellsAtoms (tel : Bool) : NestQuery := ⟨flatVan, tel, .atom 0, .cell .noun .noun⟩

/-- The query asks nothing else. -/
theorem exact_cellsAtoms (s : List ((Ty × Ty) × Bool)) :
    Exact (listCash (Ty × Ty) Bool) flatVan s (cellsAtoms false) := by
  refine ⟨rfl, ?_, nofun⟩
  intro q' hq'
  cases Relation.ReflTransGen.cases_head hq' with
  | inl heq =>
      subst heq
      exact List.not_mem_nil
  | inr hstep =>
      obtain ⟨q'', hmade, -⟩ := hstep
      cases hmade

/-- Asked again, the cache answers, and is left as it is. -/
theorem memo_exact_cells :
    let asked : NestQuery × Except Unit Bool := (cellsAtoms false, .ok false)
    let s : List ((Ty × Ty) × Bool) := [((.atom 0, .cell .noun .noun), false)]
    NestRun (listCash (Ty × Ty) Bool) (Exact _ flatVan) [asked] s ∧
      NestRun (listCash (Ty × Ty) Bool) (Exact _ flatVan) [asked, asked] s ∧
      Ask.Comes (nestBody flatVan) asked.1.ask asked.2 := by
  intro asked s
  have hfirst : NestRun (listCash (Ty × Ty) Bool) (Exact _ flatVan) [asked] s :=
    .snoc (n := 1) .nil (exact_cellsAtoms _) rfl
  have hsecond : NestRun (listCash (Ty × Ty) Bool) (Exact _ flatVan) [asked, asked] s :=
    .snoc (n := 1) hfirst (exact_cellsAtoms _) rfl
  exact ⟨hfirst, hsecond, (memo_exact _ flatVan _ _ hsecond).1 _ List.mem_cons_self⟩

/-- Asked again with `tel`, it is returned where the recursion crashes. -/
theorem memo_returns_no : ∃ s, NestRun (listCash (Ty × Ty) Bool) (fun _ _ => True)
      [(cellsAtoms false, .ok false), (cellsAtoms true, .ok false)] s ∧
    Ask.Comes (nestBody flatVan) (cellsAtoms true).ask (.error ()) ∧
    ¬Ask.Comes (nestBody flatVan) (cellsAtoms true).ask (.ok false) := by
  have hfirst : NestRun (listCash (Ty × Ty) Bool) (fun _ _ => True) [(cellsAtoms false, .ok false)]
      [((.atom 0, .cell .noun .noun), false)] :=
    .snoc (n := 1) .nil trivial rfl
  have hcrash : Ask.Comes (nestBody flatVan) (cellsAtoms true).ask (.error ()) := ⟨1, rfl⟩
  refine ⟨_, .snoc (n := 1) hfirst trivial rfl, hcrash, ?_⟩
  intro h
  cases h.unique hcrash

end Vere.Jets
