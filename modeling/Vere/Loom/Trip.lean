import Vere.Lib.Each
import Vere.Lib.Reach
import Vere.Loom.Check

/-!
# Vere.Loom.Trip

A checkpoint is loaded as it was saved.

`Holds` says that the files of a segment are a checkpoint of given pages; `Good` is what the
marks of a running process mean: a page whose past is `kept` is dirty, or it is in the data
file with its mug. A save of a `Good` segment leaves files that hold its pages if it is
`Filled`: below the mark, the pages of the used prefix are kept and those beyond it have
never been written. Where that fails a page is left out of the data file and yet marked neat,
because a save marks every page of the segment, and the next start refuses the checkpoint
(`hole_refused`).
-/

namespace Vere.Loom

open Vere.Jets

/-! ### One segment -/

/-- The mug of a page in its control word. -/
def mugPage (pag : Page) : Nat := mugWords 2166136261 pag % 2 ^ 30

theorem and_mugWords (pag : Page) : 0x3fffffff &&& mugWords 2166136261 pag = mugPage pag := by
  rw [Nat.and_comm]
  exact Nat.and_two_pow_sub_one_eq_mod _ 30

/-- The data loop writes the dirty pages it comes to, and nothing else. -/
theorem saveData_eq (s : Cheg) (n : Nat) :
    saveData s n = { s with
      dat := fun i => if i < n ∧ (s.chem i).lif = .tref then s.mem i else s.dat i
      chem := fun i =>
        if i < n ∧ (s.chem i).lif = .tref then ⟨.neat, mugPage (s.mem i)⟩ else s.chem i } := by
  induction n with
  | zero => simp [saveData]
  | succ n ih =>
      have hn : ¬(n < n ∧ (s.chem n).lif = .tref) := by simp
      have hlt : ∀ i, i ≠ n → (i < n + 1 ↔ i < n) := by omega
      rw [saveData, ih, savePage]
      simp only [if_neg hn]
      by_cases hdirty : (s.chem n).lif = .tref
      · rw [if_pos hdirty]
        congr 1
        · funext i
          by_cases hi : i = n
          · subst hi
            simp [hdirty]
          · rw [Function.update_of_ne hi]
            simp only [hlt i hi]
        · funext i
          by_cases hi : i = n
          · subst hi
            simp [hdirty, mugPage]
          · rw [Function.update_of_ne hi]
            simp only [hlt i hi]
      · rw [if_neg hdirty]
        congr 1
        · funext i
          by_cases hi : i = n
          · subst hi
            simp [hdirty]
          · simp only [hlt i hi]
        · funext i
          by_cases hi : i = n
          · subst hi
            simp [hdirty]
          · simp only [hlt i hi]

/-! #### The parts of a saved segment -/

section saved

variable (ent : Nat) (s : Cheg)

@[simp] theorem saveSeg_mem : (saveSeg ent s).mem = s.mem := by
  simp [saveSeg, protect, saveCtl, saveData_eq]

@[simp] theorem saveSeg_pgs : (saveSeg ent s).pgs = s.pgs := by
  simp [saveSeg, protect, saveCtl, saveData_eq]

@[simp] theorem saveSeg_len : (saveSeg ent s).len = s.len := by
  simp [saveSeg, protect, saveCtl, saveData_eq]

@[simp] theorem saveSeg_bot : (saveSeg ent s).bot = s.bot := by
  simp [saveSeg, protect, saveCtl, saveData_eq]

@[simp] theorem saveSeg_chf :
    (saveSeg ent s).chf = some ⟨ent, 0xdeafbee, s.bot, s.pgs⟩ := by
  simp [saveSeg, protect, saveCtl, saveData_eq]

theorem saveSeg_wri (i : Nat) :
    (saveSeg ent s).wri i = if i < s.len then false else s.wri i := by
  simp [saveSeg, protect, saveCtl, saveData_eq]

theorem saveSeg_dat (i : Nat) :
    (saveSeg ent s).dat i = if i < s.pgs ∧ (s.chem i).lif = .tref then s.mem i else s.dat i := by
  simp [saveSeg, protect, saveCtl, saveData_eq]

/-- A control word is written before the segment is marked neat. -/
theorem saveSeg_chits {i : Nat} (hi : i < s.pgs) :
    (saveSeg ent s).chits[i]? = some (if (s.chem i).lif = .tref
      then ⟨.neat, mugPage (s.mem i)⟩ else s.chem i) := by
  simp [saveSeg, protect, saveCtl, saveData_eq, List.getElem?_append, hi]

theorem saveSeg_chem (i : Nat) :
    (saveSeg ent s).chem i =
      let chit := if i < s.pgs ∧ (s.chem i).lif = .tref
        then ⟨.neat, mugPage (s.mem i)⟩ else s.chem i
      if i < s.len then ⟨.neat, chit.mug⟩ else chit := by
  simp [saveSeg, protect, saveCtl, saveData_eq]

end saved

/-- The files of a segment are a checkpoint of the pages `snap` below `t`. -/
structure Holds (chf : Chef) (t : Nat) (snap : Nat → Page) (s : Cheg) : Prop where
  head : s.chf = some chf
  bot : chf.bot = s.bot
  fits : chf.pgs ≤ s.len
  chit : ∀ i < chf.pgs, s.chits[i]? = some ⟨.neat, mugPage (snap i)⟩
  dat : ∀ i < chf.pgs, s.dat i = snap i
  rest : ∀ i, chf.pgs ≤ i → i < t → snap i = blank

/-- A segment as it is loaded. -/
def reload (s : Cheg) : Cheg :=
  match s.chf with
  | some chf => mapSeg (loadChits (checkInit s) chf.pgs) chf.pgs
  | Option.none => checkInit s

section holds

variable {chf : Chef} {t : Nat} {snap : Nat → Page} {s s' : Cheg}

theorem Holds.length_le (h : Holds chf t snap s) : chf.pgs ≤ s.chits.length := by
  by_contra hlt
  have hlast := h.chit s.chits.length (by omega)
  rw [List.getElem?_eq_none (Nat.le_refl _)] at hlast
  cases hlast

/-- Only the files matter, and of the data file only the pages saved. -/
theorem Holds.congr (h : Holds chf t snap s) (hchf : s'.chf = s.chf) (hbot : s'.bot = s.bot)
    (hlen : s'.len = s.len) (hchits : s'.chits = s.chits)
    (hdat : ∀ i < chf.pgs, s'.dat i = s.dat i) : Holds chf t snap s' where
  head := hchf.trans h.head
  bot := h.bot.trans hbot.symm
  fits := hlen ▸ h.fits
  chit := by
    rw [hchits]
    exact h.chit
  dat := fun i hi => (hdat i hi).trans (h.dat i hi)
  rest := h.rest

theorem Holds.reload_eq (h : Holds chf t snap s) :
    reload s = mapSeg (loadChits (checkInit s) chf.pgs) chf.pgs := by
  rw [reload, h.head]

theorem Holds.reload_chem (h : Holds chf t snap s) {i : Nat} (hi : i < chf.pgs) :
    (reload s).chem i = ⟨.neat, mugPage (snap i)⟩ := by
  have hchit := h.chit i hi
  rw [h.reload_eq]
  simp only [mapSeg, loadChits, checkInit, List.getElem?_take, if_pos hi, hchit, Option.getD_some]

theorem Holds.reload_mem (h : Holds chf t snap s) {i : Nat} (hi : i < t) :
    (reload s).mem i = snap i := by
  rw [h.reload_eq]
  show (if i < chf.pgs then s.dat i else blank) = snap i
  by_cases hp : i < chf.pgs
  · rw [if_pos hp, h.dat i hp]
  · rw [if_neg hp, h.rest i (by omega) hi]

/-- A checkpoint passes the checks. -/
theorem Holds.deploySeg (h : Holds chf t snap s) :
    deploySeg (checkInit s) = some (true, reload s) := by
  have hchecks : checks (reload s) = true := by
    refine List.all_eq_true.mpr ?_
    intro i hi
    rw [h.reload_eq] at hi
    have hp : i < chf.pgs := List.mem_range.mp hi
    have hmem : (reload s).mem i = snap i := by
      rw [h.reload_eq]
      exact (if_pos hp).trans (h.dat i hp)
    simp [h.reload_chem hp, hmem, and_mugWords]
  have hbot : ¬chf.bot ≠ (checkInit s).bot := not_not.mpr h.bot
  have hlen : ¬(checkInit s).chits.length < chf.pgs := Nat.not_lt.mpr h.length_le
  rw [Loom.deploySeg, show (checkInit s).chf = some chf from h.head]
  simp only [if_neg hbot, if_neg hlen]
  rw [← h.reload_eq, hchecks]

/-- A load leaves the files as they are. -/
theorem Holds.reload (h : Holds chf t snap s) : Holds chf t snap (reload s) := by
  rw [h.reload_eq]
  exact h.congr rfl rfl rfl rfl fun _ _ => rfl

end holds

/-! ### What the marks mean -/

/-- The number of pages of a segment below its mark. -/
def mark (hat mat : Nat) (s : Cheg) : Nat :=
  match topOf hat mat s.nam with
  | some top => topPage top - s.bot
  | Option.none => s.len

/-- The state of a segment in a running process. -/
structure Good (s : Seg) : Prop where
  pgs : s.ceg.pgs ≤ s.ceg.len
  wri : ∀ i, s.ceg.wri i = true → i < s.ceg.len ∧ (s.ceg.chem i).lif = .tref
  fresh : ∀ i, s.past i = .fresh → s.ceg.mem i = blank
  kept : ∀ i, s.past i = .kept → (s.ceg.chem i).lif = .tref ∨
    (s.ceg.dat i = s.ceg.mem i ∧ s.ceg.chem i = ⟨.neat, mugPage (s.ceg.mem i)⟩)

/-- Below the mark of a save, the pages in the used prefix have been written, or loaded, and
not been left out of a save since; the pages beyond have not been written at all. -/
def Filled (hat mat : Nat) (s : Seg) : Prop :=
  ∀ i < mark hat mat s.ceg,
    s.past i = if i < s.ceg.pgs then .kept else .fresh

instance (hat mat : Nat) (s : Seg) : Decidable (Filled hat mat s) :=
  inferInstanceAs (Decidable (∀ i < _, _))

/-- Clipping the prefix. -/
theorem checkSave_eq {hat mat : Nat} {s c : Cheg} (hpgs : s.pgs ≤ s.len)
    (h : checkSave hat mat s = some c) :
    c = { s with pgs := min s.pgs (mark hat mat s) } := by
  unfold checkSave at h
  unfold mark
  cases htop : topOf hat mat s.nam with
  | none =>
      rw [htop] at h
      cases h
      simp only [Nat.min_eq_left hpgs]
  | some top =>
      rw [htop] at h
      obtain ⟨-, h⟩ := Option.ite_none_right_eq_some.mp h
      cases h
      congr 1
      show (if topPage top - s.bot < s.pgs then topPage top - s.bot else s.pgs)
        = min s.pgs (topPage top - s.bot)
      split <;> omega

/-- What a store to page `win` leaves of a segment: the files, and the other pages; the page
itself is dirty. -/
structure Stored (s : Cheg) (win : Nat) (c : Cheg) : Prop where
  bot : c.bot = s.bot
  len : c.len = s.len
  chf : c.chf = s.chf
  chits : c.chits = s.chits
  dat : c.dat = s.dat
  dirty : (c.chem win).lif = .tref
  chem : ∀ i, i ≠ win → c.chem i = s.chem i
  mem : ∀ i, i ≠ win → c.mem i = s.mem i
  wri : ∀ i, i ≠ win → c.wri i = s.wri i
  pgs : c.pgs = s.pgs ∨ c.pgs = win + 1 ∧ s.pgs ≤ win

theorem store_stored {s c : Cheg} {win off val : Nat}
    (hwri : s.wri win = true → (s.chem win).lif = .tref) (h : store s win off val = some c) :
    Stored s win c := by
  obtain ⟨s₁, h₁, h⟩ := Option.bind_eq_some_iff.mp h
  cases h
  unfold touch at h₁
  by_cases hw : s.wri win = true
  · rw [if_pos hw] at h₁
    cases h₁
    exact ⟨rfl, rfl, rfl, rfl, rfl, hwri hw, fun _ _ => rfl,
      fun i hi => Function.update_of_ne hi .., fun _ _ => rfl, .inl rfl⟩
  · -- the page faults first
    rw [if_neg hw] at h₁
    obtain ⟨-, h₁⟩ := Option.ite_none_right_eq_some.mp h₁
    cases h₁
    refine ⟨rfl, rfl, rfl, rfl, rfl, ?_, fun i hi => Function.update_of_ne hi ..,
      fun i hi => Function.update_of_ne hi .., fun i hi => Function.update_of_ne hi .., ?_⟩
    · show (Function.update s.chem win ⟨.tref, 0⟩ win).lif = .tref
      rw [Function.update_self]
    · show (if s.pgs ≤ win then win + 1 else s.pgs) = s.pgs ∨ _
      by_cases hp : s.pgs ≤ win
      · exact .inr ⟨if_pos hp, hp⟩
      · exact .inl (if_neg hp)

section segment

variable {s s' : Seg} {hat mat ent : Nat}

/-- What a save leaves of a segment. -/
theorem save_eq (hpgs : s.ceg.pgs ≤ s.ceg.len) (h : s.save ent hat mat = some s') :
    s' = ⟨saveSeg ent { s.ceg with pgs := min s.ceg.pgs (mark hat mat s.ceg) },
      fun i => if min s.ceg.pgs (mark hat mat s.ceg) ≤ i ∧ (s.ceg.chem i).lif = .tref
        then .lost else s.past i⟩ := by
  obtain ⟨c, hc, h⟩ := Option.bind_eq_some_iff.mp h
  cases h
  rw [checkSave_eq hpgs hc]

/-- A save changes the past of a page only to `lost`. -/
theorem past_of_save {p : Prop} [Decidable p] {q r : Past}
    (h : (if p then .lost else q) = r) (hr : r ≠ .lost) : ¬p ∧ q = r := by
  by_cases hp : p
  · rw [if_pos hp] at h
    exact absurd h.symm hr
  · exact ⟨hp, (if_neg hp).symm.trans h⟩

theorem Good.save (h : Good s) (hs : s.save ent hat mat = some s') : Good s' := by
  rw [save_eq h.pgs hs]
  refine ⟨?_, ?_, ?_, ?_⟩
  · simp only [saveSeg_pgs, saveSeg_len]
    exact Nat.le_trans (Nat.min_le_left ..) h.pgs
  · intro i hi
    rw [saveSeg_wri] at hi
    by_cases hlen : i < s.ceg.len
    · rw [if_pos hlen] at hi
      cases hi
    · rw [if_neg hlen] at hi
      exact absurd (h.wri i hi).1 hlen
  · intro i hi
    rw [saveSeg_mem]
    exact h.fresh i (past_of_save hi nofun).2
  · intro i hi
    obtain ⟨hin, hkept⟩ := past_of_save hi nofun
    refine .inr ?_
    simp only [saveSeg_dat, saveSeg_chem, saveSeg_mem]
    rcases h.kept i hkept with hdirty | ⟨hdat, hchem⟩
    · -- a dirty page is in the prefix and is written now
      have hp : i < min s.ceg.pgs (mark hat mat s.ceg) := by
        by_contra hp
        exact hin ⟨Nat.le_of_not_lt hp, hdirty⟩
      simp [hp, hdirty]
    · simp [hchem, hdat]

/-- The files hold what a filled segment has when it is saved. -/
theorem Good.holds (h : Good s) (hf : Filled hat mat s) (hs : s.save ent hat mat = some s') :
    ∃ chf, Holds chf (mark hat mat s.ceg) s.ceg.mem s'.ceg ∧ chf.pgs = s'.ceg.pgs := by
  rw [save_eq h.pgs hs]
  refine ⟨⟨ent, 0xdeafbee, s.ceg.bot, min s.ceg.pgs (mark hat mat s.ceg)⟩, ?_, ?_⟩
  · have hkept : ∀ i < min s.ceg.pgs (mark hat mat s.ceg), s.past i = .kept := by
      intro i hi
      rw [hf i (by omega), if_pos (by omega)]
    refine ⟨?_, ?_, ?_, ?_, ?_, ?_⟩
    · rw [saveSeg_chf]
    · rw [saveSeg_bot]
    · rw [saveSeg_len]
      exact Nat.le_trans (Nat.min_le_left ..) h.pgs
    · intro i hi
      rw [saveSeg_chits _ _ hi]
      rcases h.kept i (hkept i hi) with hdirty | ⟨-, hchem⟩
      · simp [hdirty]
      · simp [hchem]
    · intro i hi
      rw [saveSeg_dat]
      rcases h.kept i (hkept i hi) with hdirty | ⟨hdat, hchem⟩
      · rw [if_pos ⟨hi, hdirty⟩]
      · simp [hchem, hdat]
    · intro i hle hlt
      refine h.fresh i ?_
      have hp : ¬i < s.ceg.pgs := by
        intro hp
        have : min s.ceg.pgs (mark hat mat s.ceg) ≤ i := hle
        omega
      rw [hf i hlt, if_neg hp]
  · rw [saveSeg_pgs]

theorem Good.store (h : Good s) {win : Nat} {c : Cheg} (hwin : win < s.ceg.len)
    (hs : Stored s.ceg win c) : Good ⟨c, Function.update s.past win .kept⟩ := by
  refine ⟨?_, ?_, ?_, ?_⟩
  · show c.pgs ≤ c.len
    rw [hs.len]
    rcases hs.pgs with hp | ⟨hp, -⟩
    · rw [hp]
      exact h.pgs
    · rw [hp]
      exact hwin
  · intro i hi
    rw [hs.len]
    by_cases hne : i = win
    · subst hne
      exact ⟨hwin, hs.dirty⟩
    · simp only [hs.chem i hne]
      exact h.wri i ((hs.wri i hne).symm.trans hi)
  · intro i hi
    change Function.update s.past win .kept i = .fresh at hi
    by_cases hne : i = win
    · subst hne
      rw [Function.update_self] at hi
      cases hi
    · rw [Function.update_of_ne hne] at hi
      exact (hs.mem i hne).trans (h.fresh i hi)
  · intro i hi
    change Function.update s.past win .kept i = .kept at hi
    by_cases hne : i = win
    · subst hne
      exact .inl hs.dirty
    · rw [Function.update_of_ne hne] at hi
      simp only [hs.chem i hne, hs.mem i hne, hs.dat]
      exact h.kept i hi

/-- A segment that is mapped anew. -/
theorem Good.boot (c : Cheg) : Good ⟨bootSeg (checkInit c), fun _ => .fresh⟩ :=
  ⟨Nat.zero_le _, nofun, fun _ _ => rfl, nofun⟩

/-- A segment that is loaded. -/
theorem Good.load {chf : Chef} {t : Nat} {snap : Nat → Page} {c : Cheg}
    (h : Holds chf t snap c) : Good (loaded (reload c)) := by
  have heq := h.reload_eq
  have hpgs : (reload c).pgs = chf.pgs := by rw [heq]; rfl
  have hlen : (reload c).len = c.len := by rw [heq]; rfl
  have hdat : (reload c).dat = c.dat := by rw [heq]; rfl
  have hmem : ∀ i, (reload c).mem i = if i < chf.pgs then c.dat i else blank := by
    intro i
    rw [heq]
    rfl
  refine ⟨?_, ?_, ?_, ?_⟩
  · show (reload c).pgs ≤ (reload c).len
    rw [hpgs, hlen]
    exact h.fits
  · intro i hi
    have : (reload c).wri i = false := by rw [heq]; rfl
    rw [show (loaded (reload c)).ceg = reload c from rfl, this] at hi
    cases hi
  · intro i hi
    show (reload c).mem i = blank
    rw [hmem, if_neg ?_]
    intro hlt
    have hpast : (loaded (reload c)).past i = .kept := by
      show (if (reload c).pgs ≤ i then Past.fresh else _) = _
      rw [hpgs, if_neg (by omega), h.reload_chem hlt, if_pos rfl]
    rw [hpast] at hi
    cases hi
  · intro i hi
    have hlt : i < chf.pgs := by
      by_contra hlt
      have hpast : (loaded (reload c)).past i = .fresh := by
        show (if (reload c).pgs ≤ i then Past.fresh else _) = _
        rw [hpgs, if_pos (by omega)]
      rw [hpast] at hi
      cases hi
    refine .inr ⟨?_, ?_⟩
    · show (reload c).dat i = (reload c).mem i
      rw [hdat, hmem, if_pos hlt]
    · show (reload c).chem i = ⟨.neat, mugPage ((reload c).mem i)⟩
      rw [h.reload_chem hlt, hmem, if_pos hlt, h.dat i hlt]

end segment

/-! ### The files along a run -/

/-- The files hold a checkpoint; a process that works on it has at least its pages in use. -/
def Backed (own : Bool) (chf : Chef) (t : Nat) (snap : Nat → Page) (s : Cheg) : Prop :=
  Holds chf t snap s ∧ (own = true → chf.pgs ≤ s.pgs)

/-- The process works on what was last saved: it has loaded it, or saved it itself. -/
def Image.own (l : Image) : Bool := l.up && !l.nuu

section backed

variable {own own' : Bool} {chf : Chef} {t : Nat} {snap : Nat → Page} {s : Cheg}

theorem Backed.store (h : Backed own chf t snap s) {win : Nat} {c : Cheg}
    (hs : Stored s win c) : Backed own chf t snap c := by
  refine ⟨h.1.congr hs.chf hs.bot hs.len hs.chits (fun i _ => by rw [hs.dat]), ?_⟩
  intro ho
  have hle := h.2 ho
  rcases hs.pgs with hq | ⟨hq, hlt⟩ <;> omega

theorem Backed.exit (h : Backed true chf t snap s) : Backed own chf t snap (exitSeg s) := by
  refine ⟨h.1.congr rfl rfl rfl rfl ?_, fun _ => h.2 rfl⟩
  intro i hi
  have hlt : i < s.pgs := Nat.lt_of_lt_of_le hi (h.2 rfl)
  exact if_pos hlt

theorem Backed.load (h : Backed own chf t snap s) : Backed own' chf t snap (reload s) := by
  refine ⟨h.1.reload, fun _ => ?_⟩
  rw [h.1.reload_eq]
  exact Nat.le_refl _

theorem Backed.boot (h : Backed own chf t snap s) :
    Backed false chf t snap (bootSeg (checkInit s)) :=
  ⟨h.1.congr rfl rfl rfl rfl fun _ _ => rfl, nofun⟩

theorem Backed.mono (h : Backed true chf t snap s) : Backed own chf t snap s :=
  ⟨h.1, fun _ => h.2 rfl⟩

theorem Backed.not_empty (h : Backed own chf t snap s) : s.chf ≠ Option.none := by
  rw [h.1.head]
  exact nofun

end backed

/-- A store changes one segment, and in it one page. -/
theorem write_forall₂ {pag off val : Nat} {segs segs' : List Seg}
    (h : write pag off val segs = some segs') :
    List.Forall₂ (fun s s' => s' = s ∨ ∃ win c, pag = s.ceg.bot + win ∧ win < s.ceg.len ∧
      store s.ceg win off val = some c ∧ s' = ⟨c, Function.update s.past win .kept⟩)
      segs segs' := by
  induction segs generalizing segs' with
  | nil => cases h
  | cons s segs ih =>
      rw [write] at h
      by_cases hin : s.ceg.bot ≤ pag ∧ pag - s.ceg.bot < s.ceg.len
      · rw [if_pos hin] at h
        obtain ⟨c, hc, h⟩ := Option.bind_eq_some_iff.mp h
        cases h
        have hpag : pag = s.ceg.bot + (pag - s.ceg.bot) := by omega
        exact .cons (.inr ⟨_, c, hpag, hin.2, hc, rfl⟩) (List.forall₂_same.mpr fun _ _ => .inl rfl)
      · rw [if_neg hin] at h
        obtain ⟨segs₁, h₁, h⟩ := Option.bind_eq_some_iff.mp h
        cases h
        exact .cons (.inl rfl) (ih h₁)

/-- If every segment holds a checkpoint, all are loaded. -/
theorem deploy_holds {segs : List Cheg} (h : ∀ s ∈ segs, ∃ own chf t snap, Backed own chf t snap s) :
    deploy (segs.map checkInit) = some (true, segs.map reload) := by
  induction segs with
  | nil => rfl
  | cons s segs ih =>
      obtain ⟨own, chf, t, snap, hs, -⟩ := h s (List.mem_cons_self ..)
      rw [List.map_cons, deploy, hs.deploySeg, ih fun s hs => h s (List.mem_cons_of_mem _ hs)]
      rfl

/-- A segment in a process that has booted. -/
def booted (s : Cheg) : Seg := ⟨bootSeg (checkInit s), fun _ => .fresh⟩

theorem start_new (segs : List Cheg) : start true segs = some (segs.map booted) := by
  simp only [start, if_true, List.map_map]
  rfl

theorem start_holds {segs : List Cheg} (h : ∀ s ∈ segs, ∃ own chf t snap, Backed own chf t snap s) :
    start false segs = some (segs.map fun s => loaded (reload s)) := by
  simp only [start, Bool.false_eq_true, if_false, deploy_holds h, Option.bind_eq_bind,
    Option.bind_some, if_true, List.map_map]
  rfl

theorem start_empty {segs : List Cheg} (h : ∀ s ∈ segs, s.chf = Option.none) :
    start false segs = some (segs.map booted) := by
  cases segs with
  | nil => rfl
  | cons s segs =>
      have hs : deploySeg (checkInit s) = some (false, checkInit s) := by
        rw [deploySeg, show (checkInit s).chf = Option.none from h s (List.mem_cons_self ..)]
      have hdeploy : deploy ((s :: segs).map checkInit)
          = some (false, (s :: segs).map checkInit) := by
        rw [List.map_cons, deploy, hs]
        rfl
      simp only [start, Bool.false_eq_true, if_false, hdeploy, Option.bind_eq_bind,
        Option.bind_some, List.map_map]
      rfl

/-! ### Runs -/

/-- The action writes a checkpoint. -/
def Act.saves : Act → Bool
  | .save _ _ _ => true
  | .shut _ _ _ => true
  | _ => false

/-- A save finds every segment filled. -/
def Meets (l : Image) : Act → Prop
  | .save _ hat mat => ∀ s ∈ l.segs, Filled hat mat s
  | .shut _ hat mat => ∀ s ∈ l.segs, Filled hat mat s
  | _ => True

theorem meets_of_not_saves {l : Image} {act : Act} (h : act.saves = false) : Meets l act := by
  cases act with
  | save ent hat mat => cases h
  | shut ent hat mat => cases h
  | write adr val => trivial
  | suck => trivial
  | start nuu => trivial

/-- What is true of the loom in a run whose saves find every segment filled. -/
structure Sane (l : Image) : Prop where
  good : l.up = true → ∀ s ∈ l.segs, Good s
  files : (∀ s ∈ l.segs, s.ceg.chf = Option.none) ∨
    ∀ s ∈ l.segs, ∃ chf t snap, Backed l.own chf t snap s.ceg

theorem guard_eq_some {p : Prop} [Decidable p] {α : Type} {f : Unit → Option α} {x : α}
    (h : (guard p >>= f) = some x) : p ∧ f () = some x := by
  by_cases hp : p
  · simp only [guard, if_pos hp] at h
    exact ⟨hp, h⟩
  · simp only [guard, if_neg hp] at h
    cases h

section steps

variable {l l' : Image}

/-- A store, segment by segment. -/
theorem step_write (h : Sane l) {adr val : Nat} (hs : step (.write adr val) l = some l') :
    l.up = true ∧ l'.up = l.up ∧ l'.nuu = l.nuu ∧
      List.Forall₂ (fun s s' => s' = s ∨ ∃ win c, adr >>> 12 = s.ceg.bot + win ∧
        win < s.ceg.len ∧ Stored s.ceg win c ∧ s' = ⟨c, Function.update s.past win .kept⟩)
        l.segs l'.segs := by
  obtain ⟨hup, hs⟩ := guard_eq_some hs
  obtain ⟨segs, hsegs, hs⟩ := Option.bind_eq_some_iff.mp hs
  cases hs
  refine ⟨hup, rfl, rfl, ?_⟩
  have hgood := h.good hup
  refine ((List.forall₂_and_left ..).mpr ⟨hgood, write_forall₂ hsegs⟩).imp ?_
  rintro s s' ⟨hg, rfl | ⟨win, c, hpag, hwin, hc, rfl⟩⟩
  · exact .inl rfl
  · exact .inr ⟨win, c, hpag, hwin, store_stored (fun hw => (hg.wri win hw).2) hc, rfl⟩

/-- A start: the process loads what the files hold, or it boots. -/
theorem step_start (h : Sane l) {nuu : Bool} (hs : step (.start nuu) l = some l') :
    l'.up = true ∧ l'.nuu = nuu ∧
      ((l'.segs = l.segs.map fun s => booted s.ceg) ∧
          (nuu = true ∨ ∀ s ∈ l.segs, s.ceg.chf = Option.none) ∨
        (l'.segs = l.segs.map fun s => loaded (reload s.ceg)) ∧
          ∀ s ∈ l.segs, ∃ chf t snap, Backed l.own chf t snap s.ceg) := by
  obtain ⟨segs, hsegs, hs⟩ := Option.bind_eq_some_iff.mp hs
  cases hs
  refine ⟨rfl, rfl, ?_⟩
  cases nuu with
  | true =>
      rw [start_new] at hsegs
      cases hsegs
      exact .inl ⟨List.map_map, .inl rfl⟩
  | false =>
      rcases h.files with hempty | hback
      · rw [start_empty (by simpa using hempty)] at hsegs
        cases hsegs
        exact .inl ⟨List.map_map, .inr hempty⟩
      · rw [start_holds ?_] at hsegs
        · cases hsegs
          exact .inr ⟨List.map_map, hback⟩
        · intro c hc
          obtain ⟨s, hs, rfl⟩ := List.mem_map.mp hc
          exact ⟨_, hback s hs⟩

/-- What is not a save keeps the checkpoint. -/
theorem step_backed (h : Sane l) {act : Act} (hns : act.saves = false)
    (hs : step act l = some l') :
    List.Forall₂ (fun s s' => ∀ chf t snap, Backed l.own chf t snap s.ceg →
      Backed l'.own chf t snap s'.ceg) l.segs l'.segs := by
  cases act with
  | write adr val =>
      obtain ⟨-, hup, hnuu, hsegs⟩ := step_write h hs
      refine hsegs.imp ?_
      rintro s s' (rfl | ⟨win, c, -, -, hc, rfl⟩) chf t snap hb
      · rw [Image.own, hup, hnuu]
        exact hb
      · rw [Image.own, hup, hnuu]
        exact hb.store hc
  | save ent hat mat => cases hns
  | shut ent hat mat => cases hns
  | suck =>
      obtain ⟨hown, hs⟩ := guard_eq_some hs
      cases hs
      refine List.forall₂_map_right_iff.mpr (List.forall₂_same.mpr ?_)
      intro s _ chf t snap hb
      rw [show l.own = true from hown] at hb
      exact hb.exit
  | start nuu =>
      obtain ⟨hup, hnuu, ⟨hsegs, hn⟩ | ⟨hsegs, -⟩⟩ := step_start h hs
      · rw [hsegs]
        refine List.forall₂_map_right_iff.mpr (List.forall₂_same.mpr ?_)
        intro s hmem chf t snap hb
        rcases hn with hn | hempty
        · have hown : l'.own = false := by rw [Image.own, hnuu, hn, Bool.not_true, Bool.and_false]
          rw [hown]
          exact hb.boot
        · exact absurd (hempty s hmem) hb.not_empty
      · rw [hsegs]
        refine List.forall₂_map_right_iff.mpr (List.forall₂_same.mpr ?_)
        intro s _ chf t snap hb
        exact hb.load

/-- A save, segment by segment; a shutdown cuts the data files after it. -/
theorem step_saves {act : Act} {ent hat mat : Nat}
    (hact : act = .save ent hat mat ∨ act = .shut ent hat mat) (hs : step act l = some l') :
    l.up = true ∧ List.Forall₂ (fun s s' => ∃ m, s.save ent hat mat = some m ∧
      (s' = m ∨ l'.up = false ∧ s' = ⟨exitSeg m.ceg, m.past⟩)) l.segs l'.segs := by
  rcases hact with rfl | rfl
  · obtain ⟨hup, hs⟩ := guard_eq_some hs
    obtain ⟨segs, hsegs, hs⟩ := Option.bind_eq_some_iff.mp hs
    cases hs
    exact ⟨hup, (Lib.mapM_forall₂ hsegs).imp fun s m hm => ⟨m, hm, .inl rfl⟩⟩
  · obtain ⟨hup, hs⟩ := guard_eq_some hs
    obtain ⟨segs, hsegs, hs⟩ := Option.bind_eq_some_iff.mp hs
    cases hs
    refine ⟨hup, List.forall₂_map_right_iff.mpr ?_⟩
    exact (Lib.mapM_forall₂ hsegs).imp fun s m hm => ⟨m, hm, .inr ⟨rfl, rfl⟩⟩

/-- A save of filled segments leaves a checkpoint of what they have. -/
theorem step_saves_backed (h : Sane l) {act : Act} {ent hat mat : Nat}
    (hact : act = .save ent hat mat ∨ act = .shut ent hat mat)
    (hfill : ∀ s ∈ l.segs, Filled hat mat s) (hs : step act l = some l') :
    List.Forall₂ (fun s s' => ∃ chf, chf.pgs = s'.ceg.pgs ∧
      Backed l'.own chf (mark hat mat s.ceg) s.ceg.mem s'.ceg) l.segs l'.segs := by
  obtain ⟨hup, hsegs⟩ := step_saves hact hs
  have hboth : ∀ s ∈ l.segs, Good s ∧ Filled hat mat s :=
    fun s hs => ⟨h.good hup s hs, hfill s hs⟩
  refine ((List.forall₂_and_left ..).mpr ⟨hboth, hsegs⟩).imp ?_
  rintro s s' ⟨⟨hg, hf⟩, m, hm, hcut⟩
  obtain ⟨chf, hh, hp⟩ := hg.holds hf hm
  have hb : Backed true chf (mark hat mat s.ceg) s.ceg.mem m.ceg :=
    ⟨hh, fun _ => Nat.le_of_eq hp⟩
  rcases hcut with rfl | ⟨-, rfl⟩
  · exact ⟨chf, hp, hb.mono⟩
  · exact ⟨chf, hp, hb.exit⟩

/-- The process keeps its marks. -/
theorem Sane.step_good (h : Sane l) {act : Act} (hs : step act l = some l') (hup' : l'.up = true) :
    ∀ s ∈ l'.segs, Good s := by
  cases act with
  | write adr val =>
      obtain ⟨hup, -, -, hsegs⟩ := step_write h hs
      refine Lib.forall_step ?_ (h.good hup) hsegs
      rintro s s' hg (rfl | ⟨win, c, -, hwin, hc, rfl⟩)
      · exact hg
      · exact hg.store hwin hc
  | save ent hat mat =>
      obtain ⟨hup, hsegs⟩ := step_saves (.inl rfl) hs
      refine Lib.forall_step ?_ (h.good hup) hsegs
      rintro s s' hg ⟨m, hm, rfl | ⟨hdown, -⟩⟩
      · exact hg.save hm
      · rw [hup'] at hdown
        cases hdown
  | shut ent hat mat =>
      obtain ⟨hup, hsegs⟩ := step_saves (.inr rfl) hs
      refine Lib.forall_step ?_ (h.good hup) hsegs
      rintro s s' hg ⟨m, hm, rfl | ⟨hdown, -⟩⟩
      · exact hg.save hm
      · rw [hup'] at hdown
        cases hdown
  | suck =>
      obtain ⟨-, hs⟩ := guard_eq_some hs
      cases hs
      cases hup'
  | start nuu =>
      obtain ⟨-, -, ⟨hsegs, -⟩ | ⟨hsegs, hback⟩⟩ := step_start h hs
      · rw [hsegs]
        refine List.forall_mem_map.mpr fun s _ => ?_
        exact Good.boot s.ceg
      · rw [hsegs]
        refine List.forall_mem_map.mpr fun s hmem => ?_
        obtain ⟨chf, t, snap, hh, -⟩ := hback s hmem
        exact Good.load hh

/-- Files that are empty stay so until a save. -/
theorem Sane.step_empty (h : Sane l) {act : Act} (hns : act.saves = false)
    (hempty : ∀ s ∈ l.segs, s.ceg.chf = Option.none) (hs : step act l = some l') :
    ∀ s ∈ l'.segs, s.ceg.chf = Option.none := by
  cases act with
  | write adr val =>
      obtain ⟨-, -, -, hsegs⟩ := step_write h hs
      refine Lib.forall_step ?_ hempty hsegs
      rintro s s' he (rfl | ⟨win, c, -, -, hc, rfl⟩)
      · exact he
      · exact hc.chf.trans he
  | save ent hat mat => cases hns
  | shut ent hat mat => cases hns
  | suck =>
      obtain ⟨-, hs⟩ := guard_eq_some hs
      cases hs
      refine List.forall_mem_map.mpr fun s hmem => ?_
      exact hempty s hmem
  | start nuu =>
      obtain ⟨-, -, ⟨hsegs, -⟩ | ⟨hsegs, hback⟩⟩ := step_start h hs
      · rw [hsegs]
        refine List.forall_mem_map.mpr fun s hmem => ?_
        exact hempty s hmem
      · rw [hsegs]
        refine List.forall_mem_map.mpr fun s hmem => ?_
        obtain ⟨chf, t, snap, hb⟩ := hback s hmem
        exact absurd (hempty s hmem) hb.not_empty

theorem Sane.step (h : Sane l) {act : Act} (hm : Meets l act) (hs : step act l = some l') :
    Sane l' := by
  refine ⟨h.step_good hs, ?_⟩
  cases hsave : act.saves with
  | true =>
      obtain ⟨ent, hat, mat, hact, hfill⟩ : ∃ ent hat mat,
          (act = .save ent hat mat ∨ act = .shut ent hat mat) ∧
            ∀ s ∈ l.segs, Filled hat mat s := by
        cases act with
        | save ent hat mat => exact ⟨ent, hat, mat, .inl rfl, hm⟩
        | shut ent hat mat => exact ⟨ent, hat, mat, .inr rfl, hm⟩
        | write adr val => cases hsave
        | suck => cases hsave
        | start nuu => cases hsave
      refine .inr (Lib.forall_step ?_ hfill (step_saves_backed h hact hfill hs))
      rintro s s' - ⟨chf, -, hb⟩
      exact ⟨chf, _, _, hb⟩
  | false =>
      rcases h.files with hempty | hback
      · exact .inl (h.step_empty hsave hempty hs)
      · refine .inr (Lib.forall_step ?_ hback (step_backed h hsave hs))
        rintro s s' ⟨chf, t, snap, hb⟩ hkeep
        exact ⟨chf, t, snap, hkeep chf t snap hb⟩

theorem Sane.init : Sane Image.init := by
  refine ⟨nofun, .inl ?_⟩
  simp [Image.init, chegs, newCheg]

/-! #### Pages that are not written -/

/-- The action stores to page `p`. -/
def Act.writes (p : Nat) : Act → Bool
  | .write adr _ => adr >>> 12 = p
  | _ => false

/-- Page `p`, if it is one that was saved, is not dirty. -/
def Clean (p : Nat) (chf : Chef) (s : Cheg) : Prop :=
  ∀ i < chf.pgs, s.bot + i = p → (s.chem i).lif ≠ .tref

/-- A page that is not written stays clean. -/
theorem step_clean (h : Sane l) {act : Act} {p : Nat} (hns : act.saves = false)
    (hnw : act.writes p = false) (hs : step act l = some l') :
    List.Forall₂ (fun s s' => ∀ chf t snap, Backed l.own chf t snap s.ceg → Clean p chf s.ceg →
      Clean p chf s'.ceg) l.segs l'.segs := by
  cases act with
  | write adr val =>
      obtain ⟨-, -, -, hsegs⟩ := step_write h hs
      refine hsegs.imp ?_
      rintro s s' (rfl | ⟨win, c, hadr, -, hc, rfl⟩) chf t snap - hclean
      · exact hclean
      · intro i hi hp
        change c.bot + i = p at hp
        rw [hc.bot] at hp
        have hne : i ≠ win := by
          rintro rfl
          exact of_decide_eq_false hnw (hadr.trans hp)
        change (c.chem i).lif ≠ .tref
        rw [hc.chem i hne]
        exact hclean i hi hp
  | save ent hat mat => cases hns
  | shut ent hat mat => cases hns
  | suck =>
      obtain ⟨-, hs⟩ := guard_eq_some hs
      cases hs
      refine List.forall₂_map_right_iff.mpr (List.forall₂_same.mpr ?_)
      exact fun s _ chf t snap _ hclean => hclean
  | start nuu =>
      obtain ⟨-, -, ⟨hsegs, -⟩ | ⟨hsegs, -⟩⟩ := step_start h hs
      · rw [hsegs]
        refine List.forall₂_map_right_iff.mpr (List.forall₂_same.mpr ?_)
        exact fun s _ chf t snap _ _ i _ _ => nofun
      · rw [hsegs]
        refine List.forall₂_map_right_iff.mpr (List.forall₂_same.mpr ?_)
        intro s _ chf t snap hb _ i hi _
        show ((reload s.ceg).chem i).lif ≠ .tref
        rw [hb.1.reload_chem hi]
        exact nofun

/-- After a save every page is clean, and in the data file as it was if it was clean. -/
theorem step_saves_clean (h : Sane l) {act : Act} (hsave : act.saves = true)
    (hs : step act l = some l') :
    List.Forall₂ (fun s s' => s'.ceg.pgs ≤ s'.ceg.len ∧
      ∀ i < s'.ceg.pgs, (s'.ceg.chem i).lif ≠ .tref ∧
        ((s.ceg.chem i).lif ≠ .tref → s'.ceg.dat i = s.ceg.dat i)) l.segs l'.segs := by
  obtain ⟨ent, hat, mat, hact⟩ : ∃ ent hat mat,
      act = .save ent hat mat ∨ act = .shut ent hat mat := by
    cases act with
    | save ent hat mat => exact ⟨ent, hat, mat, .inl rfl⟩
    | shut ent hat mat => exact ⟨ent, hat, mat, .inr rfl⟩
    | write adr val => cases hsave
    | suck => cases hsave
    | start nuu => cases hsave
  obtain ⟨hup, hsegs⟩ := step_saves hact hs
  refine ((List.forall₂_and_left ..).mpr ⟨h.good hup, hsegs⟩).imp ?_
  rintro s s' ⟨hg, m, hm, hcut⟩
  have hpgs := (hg.save hm).pgs
  have hpage : ∀ i < m.ceg.pgs, (m.ceg.chem i).lif ≠ .tref ∧
      ((s.ceg.chem i).lif ≠ .tref → m.ceg.dat i = s.ceg.dat i) := by
    intro i hi
    have hlen : i < s.ceg.len := by
      have heq := save_eq hg.pgs hm
      rw [heq] at hi hpgs
      simp only [saveSeg_pgs, saveSeg_len] at hi hpgs
      omega
    rw [save_eq hg.pgs hm]
    simp only [saveSeg_chem, saveSeg_dat, if_pos hlen]
    exact ⟨nofun, fun hclean => if_neg fun hd => hclean hd.2⟩
  rcases hcut with rfl | ⟨-, rfl⟩
  · exact ⟨hpgs, hpage⟩
  · refine ⟨hpgs, fun i hi => ⟨(hpage i hi).1, fun hclean => ?_⟩⟩
    exact (if_pos hi).trans ((hpage i hi).2 hclean)

end steps

/-- Until the next save the files hold what they held. -/
theorem later_backed {l₀ l₁ l : Image} {hat mat : Nat} (h₁ : Sane l₁)
    (hb : List.Forall₂ (fun s s' => ∃ chf,
      Backed l₁.own chf (mark hat mat s.ceg) s.ceg.mem s'.ceg) l₀.segs l₁.segs)
    (hl : Lib.Reachable l₁ step (fun _ a => a.saves = false) l) :
    List.Forall₂ (fun s s' => ∃ chf,
      Backed l.own chf (mark hat mat s.ceg) s.ceg.mem s'.ceg) l₀.segs l.segs := by
  refine (hl.invariant (P := fun l => Sane l ∧ List.Forall₂ (fun s s' => ∃ chf,
    Backed l.own chf (mark hat mat s.ceg) s.ceg.mem s'.ceg) l₀.segs l.segs) ⟨h₁, hb⟩ ?_).2
  rintro l act l' ⟨hsane, hb⟩ hns hs
  refine ⟨hsane.step (meets_of_not_saves hns) hs, ?_⟩
  refine Lib.forall₂_step ?_ hb (step_backed hsane hns hs)
  rintro s m m' ⟨chf, hb⟩ hkeep
  exact ⟨chf, hkeep _ _ _ hb⟩

/-- Until the next save a page that is not written stays clean, and in the data file. -/
theorem later_clean {l₁ l : Image} {p : Nat} (h₁ : Sane l₁)
    (hb : ∀ s ∈ l₁.segs, ∃ chf t snap, chf.pgs = s.ceg.pgs ∧ Backed l₁.own chf t snap s.ceg ∧
      Clean p chf s.ceg)
    (hl : Lib.Reachable l₁ step (fun _ a => a.saves = false ∧ a.writes p = false) l) :
    Sane l ∧ List.Forall₂ (fun s s' => ∃ chf t snap, chf.pgs = s.ceg.pgs ∧
      Holds chf t snap s.ceg ∧ Backed l.own chf t snap s'.ceg ∧ Clean p chf s'.ceg)
      l₁.segs l.segs := by
  refine hl.invariant (P := fun l => Sane l ∧ List.Forall₂ (fun s s' => ∃ chf t snap,
    chf.pgs = s.ceg.pgs ∧ Holds chf t snap s.ceg ∧ Backed l.own chf t snap s'.ceg ∧
      Clean p chf s'.ceg) l₁.segs l.segs) ⟨h₁, List.forall₂_same.mpr ?_⟩ ?_
  · intro s hs
    obtain ⟨chf, t, snap, hp, hb, hc⟩ := hb s hs
    exact ⟨chf, t, snap, hp, hb.1, hb, hc⟩
  · rintro l act l' ⟨hsane, hb⟩ ⟨hns, hnw⟩ hs
    refine ⟨hsane.step (meets_of_not_saves hns) hs, ?_⟩
    -- the files and the marks change by the same step
    have hboth := (step_backed hsane hns hs).mp (fun s s' hback hclean chf t snap
      (h : Backed l.own chf t snap s.ceg ∧ Clean p chf s.ceg) =>
        And.intro (hback chf t snap h.1) (hclean chf t snap h.1 h.2)) (step_clean hsane hns hnw hs)
    refine Lib.forall₂_step ?_ hb hboth
    rintro s m m' ⟨chf, t, snap, hp, hh, hb⟩ hkeep
    exact ⟨chf, t, snap, hp, hh, hkeep chf t snap hb⟩

/-- A checkpoint is loaded as it was saved. Let the saves of a run find every segment filled,
and let `l₁` be the loom right after one of them. Until the next save, whatever is written and
whatever processes come and go, loading succeeds and brings back every page that was below its
mark; and a page of the checkpoint that is not written meanwhile stays in the data file when
the next save comes. -/
theorem checkpoint_round_trip {l₀ l₁ : Image} {act : Act} {ent hat mat : Nat}
    (h₀ : Lib.Reachable Image.init step Meets l₀)
    (hact : act = .save ent hat mat ∨ act = .shut ent hat mat) (hm : Meets l₀ act)
    (h₁ : step act l₀ = some l₁) :
    (∀ l, Lib.Reachable l₁ step (fun _ a => a.saves = false) l →
      ∃ segs, deploy (l.segs.map fun s => checkInit s.ceg) = some (true, segs) ∧
        List.Forall₂ (fun s s' => ∀ i < mark hat mat s.ceg, s'.mem i = s.ceg.mem i)
          l₀.segs segs) ∧
    ∀ p l act' l₂, Lib.Reachable l₁ step (fun _ a => a.saves = false ∧ a.writes p = false) l →
      act'.saves = true → step act' l = some l₂ →
      List.Forall₂ (fun s s' => ∀ i < s.ceg.pgs, s.ceg.bot + i = p → i < s'.ceg.pgs →
        s'.ceg.dat i = s.ceg.dat i) l₁.segs l₂.segs := by
  have hsane : Sane l₀ := h₀.invariant Sane.init fun _ _ _ h hm hs => h.step hm hs
  have hsane₁ : Sane l₁ := hsane.step hm h₁
  have hfill : ∀ s ∈ l₀.segs, Filled hat mat s := by
    rcases hact with rfl | rfl <;> exact hm
  have hback := step_saves_backed hsane hact hfill h₁
  refine ⟨?_, ?_⟩
  · intro l hl
    have hl := later_backed hsane₁ (hback.imp fun s s' ⟨chf, _, hb⟩ => ⟨chf, hb⟩) hl
    refine ⟨l.segs.map fun s => reload s.ceg, ?_, ?_⟩
    · have hall : ∀ c ∈ l.segs.map Seg.ceg, ∃ own chf t snap, Backed own chf t snap c := by
        refine List.forall_mem_map.mpr (Lib.forall_step ?_ hfill hl)
        rintro s s' - ⟨chf, hb⟩
        exact ⟨_, chf, _, _, hb⟩
      have hdeploy := deploy_holds hall
      rw [List.map_map, List.map_map] at hdeploy
      exact hdeploy
    · refine List.forall₂_map_right_iff.mpr (hl.imp ?_)
      rintro s s' ⟨chf, hb⟩ i hi
      exact hb.1.reload_mem hi
  · intro p l act' l₂ hl hsave hs
    have hsaves : act.saves = true := by
      rcases hact with rfl | rfl <;> rfl
    have hclean : ∀ s ∈ l₁.segs, ∃ chf t snap, chf.pgs = s.ceg.pgs ∧
        Backed l₁.own chf t snap s.ceg ∧ Clean p chf s.ceg := by
      have hboth := (step_saves_clean hsane hsaves h₁).mp (fun _ _ => And.intro) hback
      refine Lib.forall_step ?_ hfill hboth
      rintro s s' - ⟨⟨-, hpage⟩, chf, hp, hb⟩
      exact ⟨chf, _, _, hp, hb, fun i hi _ => (hpage i (hp ▸ hi)).1⟩
    obtain ⟨hsl, hl⟩ := later_clean hsane₁ hclean hl
    refine Lib.forall₂_step ?_ hl (step_saves_clean hsl hsave hs)
    rintro s m s' ⟨chf, t, snap, hp, hh, hb, hc⟩ ⟨-, hpage⟩ i hi hbot hi'
    have hchf : i < chf.pgs := by rw [hp]; exact hi
    have hmbot : m.ceg.bot = s.ceg.bot := hb.1.bot.symm.trans hh.bot
    rw [(hpage i hi').2 (hc i hchf (by rw [hmbot]; exact hbot)), hb.1.dat i hchf, hh.dat i hchf]

/-- The first segment of a new loom after 7 is stored to its first word. -/
def firstSeg : Seg where
  ceg := { newCheg .a 2048 30720 with
    pgs := 1
    mem := Function.update (fun _ => blank) 0 (blank.set 0 7)
    chem := Function.update (fun _ => ⟨.none, 0⟩) 0 ⟨.tref, 0⟩
    wri := Function.update (fun _ => false) 0 true }
  past := Function.update (fun _ => .fresh) 0 .kept

/-- A page is written, saved and loaded. -/
theorem checkpoint_round_trip_page :
    ∃ l₁ segs, step (.save 1 (2049 * 4096) halfSize)
        ⟨firstSeg :: chegs.tail.map booted, true, false⟩ = some l₁ ∧
      deploy (l₁.segs.map fun s => checkInit s.ceg) = some (true, segs) ∧
      List.Forall₂ (fun s s' => ∀ i < mark (2049 * 4096) halfSize s.ceg, s'.mem i = s.ceg.mem i)
        (firstSeg :: chegs.tail.map booted) segs := by
  have hstart : step (.start false) Image.init = some ⟨chegs.map booted, true, false⟩ := rfl
  have hwrite : step (.write (2048 * 4096) 7) ⟨chegs.map booted, true, false⟩
      = some ⟨firstSeg :: chegs.tail.map booted, true, false⟩ := rfl
  have hmeets : Meets ⟨firstSeg :: chegs.tail.map booted, true, false⟩
      (.save 1 (2049 * 4096) halfSize) := by
    refine List.forall_mem_cons.mpr ⟨by decide, ?_⟩
    refine List.forall_mem_map.mpr fun s _ i _ => ?_
    rfl
  obtain ⟨l₁, h₁⟩ : ∃ l₁, step (.save 1 (2049 * 4096) halfSize)
      ⟨firstSeg :: chegs.tail.map booted, true, false⟩ = some l₁ := ⟨_, rfl⟩
  have h₀ : Lib.Reachable Image.init step Meets
      ⟨firstSeg :: chegs.tail.map booted, true, false⟩ :=
    .step (.step .init (meets_of_not_saves rfl) hstart) (meets_of_not_saves rfl) hwrite
  obtain ⟨segs, hdeploy, hsegs⟩ :=
    (checkpoint_round_trip h₀ (.inl rfl) hmeets h₁).1 l₁ .init
  exact ⟨l₁, segs, h₁, hdeploy, hsegs⟩

/-- The first word of the first segment. -/
def firstWord (l : Image) : Option Nat := l.segs.head?.bind fun s => (s.ceg.mem 0).head?

/-- A round takes a zero byte in as a multiplication. -/
theorem mugWordsIn_zeroes (off n : Nat) (hoff : off < 2 ^ 32) :
    mugWordsIn off (List.replicate (n + 1) 0) = 16777619 ^ (4 * n) * off % 2 ^ 32 := by
  induction n generalizing off with
  | zero => rw [Nat.mul_zero, Nat.pow_zero, Nat.one_mul, Nat.mod_eq_of_lt hoff]; rfl
  | succ n ih =>
      have hword : mugWord off 0 = 16777619 ^ 4 * off % 2 ^ 32 := by
        simp only [mugWord, mugFnv, c3w, Nat.zero_shiftRight, Nat.zero_and, Nat.xor_zero]
        omega
      rw [List.replicate_succ, List.replicate_succ, mugWordsIn, ← List.replicate_succ, hword,
        ih _ (Nat.mod_lt _ (by decide)), Nat.mul_mod_mod, ← Nat.mul_assoc, ← Nat.pow_add,
        Nat.mul_succ]

/-- The first hash stands unless it is zero. -/
theorem mugWords_of_ne_zero {off : Nat} {wod : List Nat} (h : mugOut (mugWordsIn off wod) ≠ 0) :
    mugWords off wod = mugOut (mugWordsIn off wod) := by
  rw [mugWords, Lib.Fnv.search, if_neg h]

theorem mugPage_blank : ¬mugPage blank = 0 := by
  have hin : mugWordsIn 2166136261 blank = 16777619 ^ (4 * 4095) * 2166136261 % 2 ^ 32 :=
    mugWordsIn_zeroes _ 4095 (by decide)
  have hout : mugOut (mugWordsIn 2166136261 blank) % 2 ^ 30 ≠ 0 := by
    rw [hin]
    decide +kernel
  rw [mugPage, mugWords_of_ne_zero]
  · exact hout
  · intro h0
    rw [h0] at hout
    exact hout rfl

/-- A control word that a save took from a page it had left out refuses the checkpoint. -/
theorem deploySeg_hole {s : Cheg} {chf : Chef} (hchf : s.chf = some chf) (hbot : chf.bot = s.bot)
    (hlen : chf.pgs ≤ s.chits.length) {i : Nat} (hi : i < chf.pgs)
    (hchit : s.chits[i]? = some ⟨.neat, 0⟩) (hdat : s.dat i = blank) :
    ∃ s', deploySeg s = some (false, s') := by
  have hchecks : checks (mapSeg (loadChits s chf.pgs) chf.pgs) = false := by
    refine List.all_eq_false.mpr ⟨i, List.mem_range.mpr hi, ?_⟩
    simp only [mapSeg, loadChits, List.getElem?_take_of_lt hi, hchit, Option.getD_some, if_pos hi,
      hdat, and_mugWords, mugPage_blank]
    decide
  refine ⟨mapSeg (loadChits s chf.pgs) chf.pgs, ?_⟩
  rw [deploySeg, hchf]
  simp only [hbot, ne_eq, not_true_eq_false, if_false, if_neg (Nat.not_lt.mpr hlen), hchecks]

theorem deploy_hole {s s' : Cheg} (h : deploySeg s = some (false, s')) (segs : List Cheg) :
    deploy (s :: segs) = some (false, s' :: segs) := by
  rw [deploy, h]
  rfl

/-- Two pages are written with a third between them that is not, and saved twice. The first
save leaves the page out, and marks it neat; the second writes its control word as it is, and
the checkpoint is refused. Nothing is loaded, the first page included. -/
theorem hole_refused :
    ∃ l₀ l₁ l₂, Lib.Reachable Image.init step (fun _ _ => True) l₀ ∧
      step (.save 2 (2051 * 4096) halfSize) l₀ = some l₁ ∧
      (deploy (l₁.segs.map fun s => checkInit s.ceg)).map Prod.fst = some false ∧
      step (.start false) l₁ = some l₂ ∧ firstWord l₀ = some 7 ∧ firstWord l₂ = some 0 := by
  obtain ⟨l₀, l₁, s, segs, hruns, h₁, hsegs, hword, hchf, hlen, hchit, hdat⟩ :
      ∃ l₀ l₁ s segs, Lib.runs step [.start false, .write (2048 * 4096) 7,
          .write (2050 * 4096) 7, .save 1 (2051 * 4096) halfSize] Image.init = some l₀ ∧
        step (.save 2 (2051 * 4096) halfSize) l₀ = some l₁ ∧ l₁.segs = s :: segs ∧
        firstWord l₀ = some 7 ∧ s.ceg.chf = some ⟨2, 0xdeafbee, s.ceg.bot, 3⟩ ∧
        s.ceg.chits.length = 3 ∧ s.ceg.chits[1]? = some ⟨.neat, 0⟩ ∧ s.ceg.dat 1 = blank :=
    ⟨_, _, _, _, rfl, rfl, rfl, rfl, rfl, rfl, rfl, rfl⟩
  obtain ⟨s', hno⟩ := @deploySeg_hole (checkInit s.ceg) _ hchf rfl hlen.ge 1 (show 1 < 3 by decide) hchit hdat
  have hdeploy : deploy (l₁.segs.map fun s => checkInit s.ceg)
      = some (false, s' :: segs.map fun s => checkInit s.ceg) := by
    rw [hsegs]
    exact deploy_hole hno _
  have hstart : step (.start false) l₁ = some ⟨(s' :: segs.map fun s => checkInit s.ceg).map
      fun s => ⟨bootSeg s, fun _ => .fresh⟩, true, false⟩ := by
    simp only [step, start, List.map_map, Function.comp_def, hdeploy, Option.bind_eq_bind,
      Option.bind_some]
    rfl
  exact ⟨l₀, l₁, _, Lib.Reachable.runs (fun _ _ => trivial) _ .init hruns, h₁,
    by rw [hdeploy]; rfl, hstart, hword, rfl⟩

end Vere.Loom
