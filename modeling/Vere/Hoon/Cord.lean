import Mathlib.Data.Nat.Digits.Lemmas
import Mathlib.Tactic.Ring
import Vere.Hoon.Bits

/-!
# Vere.Hoon.Cord

Text in atoms (`hoon.hoon`, sections 2cA and 2eP): a byte to a character, the first one
lowest. `++trip` makes a list of the characters and `++rap` an atom of such a list, `++lore`
takes a text apart into its lines and `++roly` writes lines.

`++lore` takes the last line with its newline or without, and `++roly` writes the newline
after every line, so a text comes back exactly if it is empty or ends in a newline
(`roly_lore`).
-/

namespace Vere.Hoon

open Vere.Lib

/-- `++rap`: assemble nonzero. -/
def rap (a : Nat) : List Nat → Nat
  | [] => 0
  | i :: b => cat a i (rap a b)

/-- `++rip`: disassemble. -/
def rip (a b : Nat) : List Nat := if _ : b = 0 then [] else «end» a 1 b :: rip a (rsh a 1 b)
termination_by b
decreasing_by exact rsh_one_lt ‹_›

theorem rsh_lt_of_met {b : Nat} (h : met 3 b ≠ 0) : rsh 3 1 b < b := by
  apply rsh_one_lt
  rintro rfl
  rw [met, metLoop] at h
  exact h rfl

/-- `++trip`: cord to tape. -/
def trip (a : Nat) : List Nat := if _ : met 3 a = 0 then [] else «end» 3 1 a :: trip (rsh 3 1 a)
termination_by a
decreasing_by exact rsh_lt_of_met ‹_›

/-! ### How long an atom is -/

theorem le_metLoop (a b c : Nat) : c ≤ metLoop a b c := by
  induction b, c using metLoop.induct a with
  | case1 c => rw [metLoop, dif_pos rfl]
  | case2 b c hb ih =>
      rw [metLoop, dif_neg hb]
      exact Nat.le_of_succ_le ih

theorem metLoop_le {a b c n : Nat} : metLoop a b c ≤ n + c ↔ b < 2 ^ (2 ^ a * n) := by
  induction b, c using metLoop.induct a generalizing n with
  | case1 c =>
      rw [metLoop, dif_pos rfl]
      exact ⟨fun _ => Nat.two_pow_pos _, fun _ => Nat.le_add_left c n⟩
  | case2 b c hb ih =>
      rw [metLoop, dif_neg hb]
      cases n with
      | zero =>
          have hle := le_metLoop a (rsh a 1 b) (c + 1)
          rw [Nat.mul_zero, Nat.pow_zero, Nat.lt_one_iff]
          exact ⟨fun h => absurd (hle.trans h) (by omega), fun h => absurd h hb⟩
      | succ n =>
          have hstep : n + 1 + c = n + (c + 1) := by omega
          rw [hstep, ih, rsh, bex_eq, bex_eq, Nat.mul_one, Nat.div_lt_iff_lt_mul (Nat.two_pow_pos _),
            Nat.mul_succ, Nat.pow_add]

/-- `++met` counts the blocks an atom fits in. -/
theorem met_le {a b n : Nat} : met a b ≤ n ↔ b < 2 ^ (2 ^ a * n) := metLoop_le (c := 0)

/-! ### What the arms compute on bytes -/

theorem two_pow_bytes (n : Nat) : 2 ^ (2 ^ 3 * n) = 256 ^ n := by
  exact Nat.pow_mul 2 8 n

theorem met_bytes_le {b n : Nat} : met 3 b ≤ n ↔ b < 256 ^ n := by
  rw [met_le, two_pow_bytes]

theorem lt_met_bytes {b n : Nat} : n < met 3 b ↔ 256 ^ n ≤ b := by
  rw [← Nat.not_le, met_bytes_le, Nat.not_lt]

@[simp] theorem end_bytes (b c : Nat) : «end» 3 b c = c % 256 ^ b := by
  rw [«end», bex_eq, bex_eq, two_pow_bytes]

@[simp] theorem rsh_bytes (b c : Nat) : rsh 3 b c = c / 256 ^ b := by
  rw [rsh, bex_eq, bex_eq, two_pow_bytes]

@[simp] theorem cut_byte (b d : Nat) : cut 3 b 1 d = d / 256 ^ b % 256 := by
  simp [cut]

@[simp] theorem cat_bytes (b c : Nat) : cat 3 b c = b + 256 ^ met 3 b * c := by
  rw [cat, lsh, bex_eq, bex_eq, two_pow_bytes, Nat.add_comm]

theorem met_bytes_zero : met 3 0 = 0 := Nat.le_zero.mp (met_bytes_le.mpr (by simp))

theorem met_bytes_eq {b n : Nat} (hlo : 256 ^ n ≤ b) (hhi : b < 256 ^ (n + 1)) : met 3 b = n + 1 :=
  Nat.le_antisymm (met_bytes_le.mpr hhi) (lt_met_bytes.mpr hlo)

theorem met_bytes_succ {b : Nat} (hb : b ≠ 0) : ∃ n, met 3 b = n + 1 := by
  refine Nat.exists_eq_succ_of_ne_zero fun h0 => hb ?_
  simpa using met_bytes_le.mp h0.le

/-- A text after another. -/
theorem met_bytes_cat {m a b : Nat} (ha : a < 256 ^ m) (hb : b ≠ 0) :
    met 3 (a + 256 ^ m * b) = m + met 3 b := by
  obtain ⟨n, hn⟩ := met_bytes_succ hb
  have hlo : 256 ^ n ≤ b := lt_met_bytes.mp (by omega)
  have hhi : b < 256 ^ (n + 1) := met_bytes_le.mp hn.le
  rw [hn, ← Nat.add_assoc]
  apply met_bytes_eq
  · calc 256 ^ (m + n) = 256 ^ m * 256 ^ n := Nat.pow_add ..
      _ ≤ 256 ^ m * b := Nat.mul_le_mul_left _ hlo
      _ ≤ a + 256 ^ m * b := Nat.le_add_left ..
  · calc a + 256 ^ m * b < 256 ^ m + 256 ^ m * b := Nat.add_lt_add_right ha _
      _ = 256 ^ m * (b + 1) := by ring
      _ ≤ 256 ^ m * 256 ^ (n + 1) := Nat.mul_le_mul_left _ hhi
      _ = 256 ^ (m + n + 1) := by rw [← Nat.pow_add, Nat.add_assoc]

/-! ### Characters -/

theorem rip_eq (a b : Nat) : rip a b = Nat.digits (2 ^ 2 ^ a) b := by
  have hbase : 1 < 2 ^ 2 ^ a := Nat.one_lt_two_pow (Nat.two_pow_pos a).ne'
  induction b using rip.induct a with
  | case1 => rw [rip, dif_pos rfl, Nat.digits_zero]
  | case2 b hb ih =>
      rw [rip, dif_neg hb, ih, Nat.digits_def' hbase (Nat.pos_of_ne_zero hb), «end», rsh, bex_eq,
        bex_eq, Nat.mul_one]

theorem trip_eq (a : Nat) : trip a = Nat.digits 256 a := by
  induction a using trip.induct with
  | case1 a h =>
      obtain rfl : a = 0 := by simpa using met_bytes_le.mp h.le
      rw [trip, dif_pos h, Nat.digits_zero]
  | case2 a h ih =>
      have ha : a ≠ 0 := by
        rintro rfl
        exact h met_bytes_zero
      rw [trip, dif_neg h, ih, Nat.digits_def' (by decide) (Nat.pos_of_ne_zero ha), end_bytes,
        rsh_bytes, Nat.pow_one]

/-- A text of characters, none of them zero. -/
def Chars (t : List Nat) : Prop := ∀ c ∈ t, c ≠ 0 ∧ c < 256

instance (t : List Nat) : Decidable (Chars t) := inferInstanceAs (Decidable (∀ c ∈ t, _))

theorem chars_append {s t : List Nat} : Chars (s ++ t) ↔ Chars s ∧ Chars t := by
  simp only [Chars, List.mem_append, or_imp]
  exact forall_and

theorem chars_cons {c : Nat} {t : List Nat} : Chars (c :: t) ↔ (c ≠ 0 ∧ c < 256) ∧ Chars t := by
  simp only [Chars, List.forall_mem_cons]

theorem chars_nil : Chars [] := by
  intro c hc
  cases hc

theorem rap_bytes {t : List Nat} (h : Chars t) : rap 3 t = Nat.ofDigits 256 t := by
  induction t with
  | nil => rfl
  | cons c t ih =>
      obtain ⟨hc, ht⟩ := chars_cons.mp h
      have hmet : met 3 c = 1 := met_bytes_eq (n := 0) (Nat.pos_of_ne_zero hc.1) (by simpa using hc.2)
      rw [rap, ih ht, cat_bytes, hmet, Nat.pow_one, Nat.ofDigits_cons]

/-- A list of characters comes back from the atom. -/
theorem trip_rap {t : List Nat} (h : Chars t) : trip (rap 3 t) = t := by
  rw [trip_eq, rap_bytes h]
  refine Nat.digits_ofDigits 256 (by decide) t (fun c hc => (h c hc).2) fun hne => ?_
  exact (h _ (List.getLast_mem hne)).1

theorem rip_bytes (a : Nat) : rip 3 a = trip a := by
  rw [rip_eq, trip_eq]
  rfl

/-! ### Lines -/

theorem lore_lt {lub meg : Nat} (h : ¬(cut 3 meg 1 lub = 10 ∨ cut 3 meg 1 lub = 0)) :
    rsh 3 (meg + 1) lub < rsh 3 meg lub := by
  rw [cut_byte, not_or] at h
  rw [rsh_bytes, rsh_bytes, Nat.pow_succ, ← Nat.div_div_eq_div_mul]
  apply Nat.div_lt_self _ (by decide)
  refine Nat.pos_of_ne_zero fun h0 => h.2 ?_
  rw [h0]

/-- `meg` of `++lore`: where the line that starts at the bottom ends. -/
def loreMeg (lub meg : Nat) : Nat :=
  if h : cut 3 meg 1 lub = 10 ∨ cut 3 meg 1 lub = 0 then meg else loreMeg lub (meg + 1)
termination_by rsh 3 meg lub
decreasing_by exact lore_lt h

theorem rsh_bytes_lt {lub : Nat} (meg : Nat) (h : lub ≠ 0) : rsh 3 (meg + 1) lub < lub := by
  rw [rsh_bytes]
  exact Nat.div_lt_self (Nat.pos_of_ne_zero h) (Nat.one_lt_pow (Nat.succ_ne_zero meg) (by decide))

/-- The loop of `++lore`. -/
def loreLoop (lub : Nat) (tez : List Nat) : Option (List Nat) :=
  if h : lub = 0 then some tez.reverse
  else
    let meg := loreMeg lub 0
    let res := rsh 3 (meg + 1) lub
    if cut 3 meg 1 lub = 0 ∧ res ≠ 0 then none
    else loreLoop res («end» 3 meg lub :: tez)
termination_by lub
decreasing_by exact rsh_bytes_lt _ h

/-- `++lore`: atom to line list. -/
def lore (lub : Nat) : Option (List Nat) := loreLoop lub []

/-- `++roly`: line list to atom. -/
def roly (tez : List Nat) : Nat := rap 3 (tez.map fun a => cat 3 a 10)

/-- The text is empty, or its last byte is a newline. -/
def Lined (lub : Nat) : Prop := lub = 0 ∨ cut 3 (met 3 lub - 1) 1 lub = 10

instance (lub : Nat) : Decidable (Lined lub) := inferInstanceAs (Decidable (_ ∨ _))

theorem roly_cons (a : Nat) (tez : List Nat) :
    roly (a :: tez) = a + 256 ^ met 3 a * (10 + 256 * roly tez) := by
  have ha : a < 256 ^ met 3 a := met_bytes_le.mp le_rfl
  have hten : met 3 10 = 1 := met_bytes_eq (n := 0) (by decide) (by decide)
  rw [roly, List.map_cons, rap, ← roly, cat_bytes, cat_bytes, met_bytes_cat ha (by decide), hten,
    Nat.pow_succ]
  ring

/-- Up to where a line ends there is neither a newline nor a zero byte, and there is one. -/
theorem loreMeg_spec (lub meg : Nat) :
    (∀ i, meg ≤ i → i < loreMeg lub meg → ¬(cut 3 i 1 lub = 10 ∨ cut 3 i 1 lub = 0)) ∧
      (cut 3 (loreMeg lub meg) 1 lub = 10 ∨ cut 3 (loreMeg lub meg) 1 lub = 0) := by
  induction meg using loreMeg.induct lub with
  | case1 meg h =>
      rw [loreMeg, dif_pos h]
      exact ⟨fun i hi hlt => absurd hlt (Nat.not_lt.mpr hi), h⟩
  | case2 meg h ih =>
      rw [loreMeg, dif_neg h]
      refine ⟨fun i hi hlt => ?_, ih.2⟩
      rcases Nat.eq_or_lt_of_le hi with rfl | hi
      · exact h
      · exact ih.1 i hi hlt

/-- A text is its first line, the byte that ends it and the rest. -/
theorem bytes_split (lub meg : Nat) :
    lub = lub % 256 ^ meg + 256 ^ meg * (lub / 256 ^ meg % 256 + 256 * (lub / 256 ^ (meg + 1))) := by
  rw [Nat.pow_succ, ← Nat.div_div_eq_div_mul, Nat.mod_add_div, Nat.mod_add_div]

/-- The line has as many bytes as were counted. -/
theorem met_line {lub meg : Nat} (h : ∀ i, i < meg → cut 3 i 1 lub ≠ 0) :
    met 3 (lub % 256 ^ meg) = meg := by
  cases meg with
  | zero => rw [Nat.pow_zero, Nat.mod_one, met_bytes_zero]
  | succ n =>
      apply met_bytes_eq _ (Nat.mod_lt _ (Nat.pow_pos (by decide)))
      have hn := h n (Nat.lt_succ_self n)
      rw [cut_byte] at hn
      rw [Nat.pow_succ, Nat.mod_mul]
      calc 256 ^ n = 256 ^ n * 1 := (Nat.mul_one _).symm
        _ ≤ 256 ^ n * (lub / 256 ^ n % 256) := Nat.mul_le_mul_left _ (Nat.pos_of_ne_zero hn)
        _ ≤ _ := Nat.le_add_left ..

/-- Whether a text ends in a newline is up to what comes after its first line. -/
theorem lined_line {m a res : Nat} (ha : a < 256 ^ m) :
    Lined (a + 256 ^ m * (10 + 256 * res)) ↔ Lined res := by
  have hne : a + 256 ^ m * (10 + 256 * res) ≠ 0 := by
    have := Nat.pow_pos (n := m) (show 0 < 256 by decide)
    have : 0 < 256 ^ m * (10 + 256 * res) := Nat.mul_pos this (by omega)
    omega
  have hhigh : ∀ k, (a + 256 ^ m * (10 + 256 * res)) / 256 ^ (m + k) = (10 + 256 * res) / 256 ^ k := by
    intro k
    rw [Nat.pow_add, ← Nat.div_div_eq_div_mul, Nat.add_mul_div_left _ _ (Nat.pow_pos (by decide)),
      Nat.div_eq_of_lt ha, Nat.zero_add]
  rw [Lined, Lined, or_iff_right hne, met_bytes_cat ha (by omega), cut_byte, cut_byte]
  by_cases hres : res = 0
  · have hten : met 3 10 = 1 := met_bytes_eq (n := 0) (by decide) (by decide)
    have h := hhigh 0
    subst hres
    simp only [Nat.mul_zero, Nat.add_zero, Nat.pow_zero, Nat.div_one, true_or, iff_true] at h ⊢
    rw [hten, Nat.add_sub_cancel, h]
  · obtain ⟨k, hk⟩ := met_bytes_succ hres
    have hmet : met 3 (10 + 256 * res) = k + 2 := by
      have := met_bytes_cat (m := 1) (a := 10) (by decide) hres
      rw [Nat.pow_one, hk] at this
      omega
    rw [hmet, hk, or_iff_right hres]
    have htop := hhigh (k + 1)
    rw [Nat.pow_succ', ← Nat.div_div_eq_div_mul _ 256 _, Nat.add_mul_div_left _ _ (by decide)] at htop
    simp only [Nat.add_sub_cancel]
    rw [show m + (k + 2) - 1 = m + (k + 1) by omega, htop, show 10 / 256 + res = res by simp]

/-- A last line without a newline. -/
theorem not_lined_line {m a : Nat} (hm : met 3 a = m) (h0 : a ≠ 0)
    (h : ∀ i, i < m → cut 3 i 1 a ≠ 10) : ¬Lined a := by
  rw [Lined, or_iff_right h0, hm]
  obtain ⟨n, hn⟩ := met_bytes_succ h0
  exact h _ (by omega)

theorem loreLoop_spec {lub : Nat} {tez ls : List Nat} (hl : loreLoop lub tez = some ls) :
    ∃ ls', ls = tez.reverse ++ ls' ∧ (roly ls' = lub ↔ Lined lub) := by
  induction lub, tez using loreLoop.induct with
  | case1 tez =>
      rw [loreLoop, dif_pos rfl] at hl
      cases hl
      exact ⟨[], (List.append_nil _).symm, by simp [roly, rap, Lined]⟩
  | case2 lub tez h meg res hbad =>
      rw [loreLoop, dif_neg h, if_pos hbad] at hl
      cases hl
  | case3 lub tez h meg res hok ih =>
      rw [loreLoop, dif_neg h, if_neg hok] at hl
      obtain ⟨ls', rfl, hback⟩ := ih hl
      refine ⟨«end» 3 meg lub :: ls', by simp, ?_⟩
      obtain ⟨hin, hend⟩ := loreMeg_spec lub 0
      have hmet : met 3 («end» 3 meg lub) = meg := by
        rw [end_bytes]
        exact met_line fun i hi h0 => hin i (Nat.zero_le i) hi (.inr h0)
      have hlt : «end» 3 meg lub < 256 ^ meg := met_bytes_le.mp hmet.le
      have hsplit := bytes_split lub meg
      rw [← end_bytes, ← cut_byte, ← rsh_bytes] at hsplit
      rw [roly_cons, hmet]
      rcases hend with hten | hzero
      · -- the line has its newline
        change cut 3 meg 1 lub = 10 at hten
        rw [hten] at hsplit
        have hpos : 256 ^ meg ≠ 0 := (Nat.pow_pos (by decide)).ne'
        have hlined : Lined lub ↔ Lined res := by
          conv_lhs => rw [hsplit]
          exact lined_line hlt
        rw [hlined, ← hback]
        conv_lhs =>
          rhs
          rw [hsplit]
        rw [Nat.add_left_cancel_iff, Nat.mul_right_inj hpos]
        omega
      · -- it has none, and nothing comes after it
        change cut 3 meg 1 lub = 0 at hzero
        have hres : rsh 3 (meg + 1) lub = 0 := by
          by_contra hne
          exact hok ⟨hzero, hne⟩
        rw [hzero, hres, Nat.mul_zero, Nat.add_zero] at hsplit
        rw [← hsplit] at hmet ⊢
        have hno := not_lined_line hmet h fun i hi h10 => hin i (Nat.zero_le i) hi (.inl h10)
        have hpos : 0 < 256 ^ meg * (10 + 256 * roly ls') :=
          Nat.mul_pos (Nat.pow_pos (by decide)) (by omega)
        exact ⟨fun heq => absurd heq (by omega), fun hyes => absurd hyes hno⟩

/-- A text comes back from its lines exactly if it is empty or ends in a newline. -/
theorem roly_lore {lub : Nat} {ls : List Nat} (hl : lore lub = some ls) :
    roly ls = lub ↔ Lined lub := by
  obtain ⟨ls', rfl, hback⟩ := loreLoop_spec hl
  simpa using hback

/-! ### Lines come back -/

/-- The end of the first line. -/
theorem loreMeg_eq {lub m : Nat} (h : ∀ i, i < m → ¬(cut 3 i 1 lub = 10 ∨ cut 3 i 1 lub = 0))
    (hm : cut 3 m 1 lub = 10 ∨ cut 3 m 1 lub = 0) : loreMeg lub 0 = m := by
  obtain ⟨hin, hend⟩ := loreMeg_spec lub 0
  rcases Nat.lt_trichotomy (loreMeg lub 0) m with hlt | heq | hgt
  · exact absurd hend (h _ hlt)
  · exact heq
  · exact absurd hm (hin m (Nat.zero_le m) hgt)

/-- No byte of a line is a zero or a newline. -/
def LineBytes (a : Nat) : Prop := ∀ i, i < met 3 a → cut 3 i 1 a ≠ 0 ∧ cut 3 i 1 a ≠ 10

theorem loreLoop_roly {tez : List Nat} (h : ∀ a ∈ tez, LineBytes a) (acc : List Nat) :
    loreLoop (roly tez) acc = some (acc.reverse ++ tez) := by
  induction tez generalizing acc with
  | nil =>
      have hnil : roly [] = 0 := rfl
      rw [hnil, loreLoop, dif_pos rfl, List.append_nil]
  | cons a tez ih =>
      have ha := h a List.mem_cons_self
      have hlt : a < 256 ^ met 3 a := met_bytes_le.mp le_rfl
      have hpos := Nat.pow_pos (n := met 3 a) (show 0 < 256 by decide)
      have hlow : ∀ i, i < met 3 a → cut 3 i 1 (roly (a :: tez)) = cut 3 i 1 a := by
        intro i hi
        have hsplit : 256 ^ met 3 a = 256 ^ i * (256 * 256 ^ (met 3 a - i - 1)) := by
          rw [← Nat.pow_succ', ← Nat.pow_add]
          congr 1
          omega
        rw [roly_cons, cut_byte, cut_byte, hsplit, Nat.mul_assoc,
          Nat.add_mul_div_left _ _ (Nat.pow_pos (by decide)), Nat.mul_assoc, Nat.add_mul_mod_self_left]
      have hten : cut 3 (met 3 a) 1 (roly (a :: tez)) = 10 := by
        rw [roly_cons, cut_byte, Nat.add_mul_div_left _ _ hpos, Nat.div_eq_of_lt hlt, Nat.zero_add,
          Nat.add_mul_mod_self_left]
      have hmeg : loreMeg (roly (a :: tez)) 0 = met 3 a := by
        refine loreMeg_eq (fun i hi => ?_) (.inl hten)
        rw [hlow i hi, not_or]
        exact (ha i hi).symm
      have hne : roly (a :: tez) ≠ 0 := by
        intro h0
        rw [h0] at hten
        simp at hten
      have hres : rsh 3 (met 3 a + 1) (roly (a :: tez)) = roly tez := by
        rw [roly_cons, rsh_bytes, Nat.pow_succ, ← Nat.div_div_eq_div_mul,
          Nat.add_mul_div_left _ _ hpos, Nat.div_eq_of_lt hlt]
        omega
      have hline : «end» 3 (met 3 a) (roly (a :: tez)) = a := by
        rw [roly_cons, end_bytes, Nat.add_mul_mod_self_left, Nat.mod_eq_of_lt hlt]
      rw [loreLoop, dif_neg hne]
      simp only [hmeg, hten, hres, hline]
      rw [if_neg (by simp), ih fun b hb => h b (List.mem_cons_of_mem a hb)]
      simp

/-- Lines come back from their text. -/
theorem lore_roly {tez : List Nat} (h : ∀ a ∈ tez, LineBytes a) : lore (roly tez) = some tez :=
  loreLoop_roly h []

/-- A text without a zero byte has lines. -/
theorem loreLoop_some {lub : Nat} {tez : List Nat} (h : ∀ i, i < met 3 lub → cut 3 i 1 lub ≠ 0) :
    ∃ ls, loreLoop lub tez = some ls := by
  induction lub, tez using loreLoop.induct with
  | case1 tez => exact ⟨_, by rw [loreLoop, dif_pos rfl]⟩
  | case2 lub tez h0 meg res hbad =>
      obtain ⟨hzero, hres⟩ := hbad
      refine absurd hzero (h _ (lt_met_bytes.mpr ?_))
      by_contra hlt
      rw [Nat.not_le] at hlt
      refine hres ?_
      change rsh 3 (meg + 1) lub = 0
      rw [rsh_bytes]
      exact Nat.div_eq_of_lt (hlt.trans (Nat.pow_lt_pow_right (by decide) (Nat.lt_succ_self _)))
  | case3 lub tez h0 meg res hok ih =>
      rw [loreLoop, dif_neg h0, if_neg hok]
      refine ih fun i hi => ?_
      change i < met 3 (rsh 3 (meg + 1) lub) at hi
      change cut 3 i 1 (rsh 3 (meg + 1) lub) ≠ 0
      rw [lt_met_bytes, rsh_bytes, Nat.le_div_iff_mul_le (Nat.pow_pos (by decide)), ← Nat.pow_add] at hi
      have hcut := h _ (lt_met_bytes.mpr hi)
      rwa [cut_byte, Nat.add_comm, Nat.pow_add, ← Nat.div_div_eq_div_mul, ← rsh_bytes (meg + 1),
        ← cut_byte] at hcut

/-- A text without a zero byte that ends in a newline comes back from its lines. -/
theorem roly_lore_lined {lub : Nat} (h : ∀ i, i < met 3 lub → cut 3 i 1 lub ≠ 0) (hl : Lined lub) :
    ∃ ls, lore lub = some ls ∧ roly ls = lub := by
  obtain ⟨ls, hls⟩ := @loreLoop_some lub [] h
  exact ⟨ls, hls, (roly_lore hls).mpr hl⟩

end Vere.Hoon
