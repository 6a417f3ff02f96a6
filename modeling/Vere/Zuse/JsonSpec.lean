import Vere.Zuse.Json

/-!
# Vere.Zuse.JsonSpec

Which JSON values come back from what `++pojo` prints.

Every text of a value is measured: none is shorter than `least`, which counts two characters for
each that can only be written with a backslash. What `++pojo` prints is never longer than that,
and as long only if no such character stands in the open (`length_pojo`). So a value comes back
exactly if it is clean (`valu_pojo`).
-/

namespace Vere.Zuse

open Vere.Lib Vere.Lib.Rule Vere.Hoon Glyph Poja

/-! ### How short a text can be -/

/-- The characters that write one in a string. -/
def cost (c : Nat) : Nat := if Raw c then 1 else 2

/-- The characters that write the bytes of a cord in a string. -/
def costs (p : Nat) : Nat := ((trip p).map cost).sum

mutual

/-- No text for the value is shorter. -/
def least : Json → Nat
  | .null => 4
  | .a p => max 2 (leastList p + 1)
  | .b true => 4
  | .b false => 5
  | .n p => (trip p).length
  | .s p => costs p + 2
  | .o p => max 2 (leastPairs (p.tap []) + 1)
termination_by val => sizeOf val
decreasing_by
  · simp
  · have h := sizeOf_tap p []
    simp at h ⊢
    omega

/-- Values with a comma each. -/
def leastList : List Json → Nat
  | [] => 0
  | v :: p => least v + 1 + leastList p
termination_by p => sizeOf p

/-- Keys and values with a comma each. -/
def leastPairs : List (Nat × Json) → Nat
  | [] => 0
  | (k, v) :: p => costs k + 3 + least v + 1 + leastPairs p
termination_by viz => sizeOf viz

end

theorem leastList_eq (p : List Json) : leastList p = (p.map fun v => least v + 1).sum := by
  induction p with
  | nil => simp [leastList]
  | cons v p ih => rw [leastList, ih, List.map_cons, List.sum_cons]

theorem leastPairs_eq (p : List (Nat × Json)) :
    leastPairs p = (p.map fun x => costs x.1 + 3 + least x.2 + 1).sum := by
  induction p with
  | nil => simp [leastPairs]
  | cons x p ih => rw [leastPairs, ih, List.map_cons, List.sum_cons]

section least

variable {c : Nat} {t : Tape}

/-- The bytes of a cord that was put together. -/
theorem trip_rap_flatMap (l : List Nat) : trip (rap 3 l) = l.flatMap trip := by
  induction l with
  | nil => simp [rap, trip_eq]
  | cons i l ih =>
      have hmet : met 3 i = (trip i).length := by rw [← rip_bytes, length_rip]
      rw [rap, List.flatMap_cons, ← ih, cat_bytes, hmet, trip_eq, trip_eq, trip_eq,
        Nat.digits_append_digits (by decide)]

theorem costs_rap (l : List Nat) : costs (rap 3 l) = (l.map costs).sum := by
  rw [costs, trip_rap_flatMap]
  induction l with
  | nil => rfl
  | cons i l ih => rw [List.flatMap_cons, List.map_append, List.sum_append, ih, List.map_cons,
      List.sum_cons, costs]

theorem trip_byte (h : c < 256) : trip c = if c = 0 then [] else [c] := by
  rw [trip_eq]
  split
  · next h0 => rw [h0, Nat.digits_zero]
  · next h0 => exact Nat.digits_of_lt 256 c h0 h

theorem cost_le (c : Nat) : cost c ≤ 2 := by
  unfold cost
  split <;> omega

theorem costs_byte (h : c < 256) : costs c ≤ cost c := by
  rw [costs, trip_byte h]
  split
  · exact Nat.zero_le _
  · simp

theorem costs_le (p : Nat) : costs p ≤ 2 * (trip p).length := by
  rw [costs]
  induction trip p with
  | nil => simp
  | cons c t ih =>
      have := cost_le c
      rw [List.map_cons, List.sum_cons, List.length_cons]
      omega

/-- A character of four digits is written with six, and has fewer bytes that need two. -/
theorem costs_tuft {w : Nat} (h : w < 65536) : costs (tuft w) ≤ 6 := by
  by_cases h0 : w = 0
  · subst h0
    simp [tuft, tuftLoop, costs, rap, trip_eq]
  · by_cases htop : w = 65535
    · subst htop
      have hbytes : tuftChar 65535 = [240, 143, 191, 191] := by
        simp [tuftChar, mix_eq, cut, «end», rsh, bex]
      rw [costs, ← rip_bytes, rip_tuft (by decide) (by decide), hbytes]
      decide
    · have hlen : (tuftChar w).length ≤ 3 := by
        unfold tuftChar
        split_ifs <;> simp
        omega
      have hbytes := rip_tuft h0 (by omega)
      have hle := costs_le (tuft w)
      rw [← rip_bytes, hbytes] at hle
      omega

end least

/-! ### What the rules cost -/

section rules

variable {mug : Noun → Nat} {r : Rule Nat Json}

theorem costs_spac : Costs (fun _ => 0) spac :=
  (costs_mask (w := fun _ => 0) fun _ _ => Nat.zero_le _).star.mono fun _ => Nat.zero_le _

theorem costs_ws {α : Type} {w : α → Nat} {sef : Rule Nat α} (h : Costs w sef) : Costs w (ws sef) :=
  (costs_spac.pfix h).mono fun v => (Nat.zero_add (w v)).ge

/-- A hex digit. -/
theorem six_lt {s t : Tape} {d : Nat} (h : six s = .done d t) :
    d < 16 ∧ t.length + 1 ≤ s.length := by
  cases s with
  | nil => cases h
  | cons c s =>
      simp only [six, sid, sox, pose, cook, shim_cons] at h
      by_cases hd : 48 ≤ c ∧ c ≤ 57
      · simp [hd] at h
        obtain ⟨rfl, rfl⟩ := h
        rw [List.length_cons]
        omega
      · by_cases hx : 97 ≤ c ∧ c ≤ 102
        · simp [hd, hx] at h
          obtain ⟨rfl, rfl⟩ := h
          rw [List.length_cons]
          omega
        · simp [hd, hx] at h

theorem qix_lt {s t : Tape} {w : Nat} (h : qix s = .done w t) :
    w < 65536 ∧ t.length + 4 ≤ s.length := by
  obtain ⟨l, u, hstun, hw⟩ := Edge.bind_eq_done.mp h
  cases hw
  obtain ⟨hall, hlen, hle⟩ := stun_done (fun _ _ _ => six_lt) hstun
  have hfour : l.length = 4 := by omega
  match l, hfour with
  | [a, b, c, d], _ =>
      simp at hall hle ⊢
      omega

theorem costs_esca : Costs costs esca := by
  have htuft : Costs (fun p => costs p - 2) (cook tuft qix) := by
    intro s v t hd
    obtain ⟨w, u, hqix, hv⟩ := Edge.bind_eq_done.mp hd
    cases hv
    obtain ⟨hw, hlen⟩ := qix_lt hqix
    have := costs_tuft hw
    beta_reduce
    omega
  have hbyte : ∀ c, c < 256 → costs c - 1 ≤ 1 := by
    intro c hc
    have := costs_byte hc
    have := cost_le c
    omega
  have hjust : ∀ c, c < 256 → Costs (fun p => costs p - 1) (just c) :=
    fun c hc => costs_just (hbyte c hc)
  have hcold : ∀ c v, v < 256 → Costs (fun p => costs p - 1) (cold v (just c)) :=
    fun c v hv => (costs_just (w := fun _ => 1) le_rfl).cook fun _ => hbyte v hv
  have hone : ∀ c, Costs (fun _ => 1) (just c) := fun c => costs_just le_rfl
  have hcode : Costs (fun p => costs p - 1) (pfix (just 'u') (cook tuft qix)) :=
    ((hone 'u').pfix htuft).mono fun v => by omega
  refine ((hone _).pfix (costs_poses (w := fun p => costs p - 1) ?_)).mono fun v => ?_
  · simp only [List.forall_mem_cons]
    exact ⟨hjust _ (by decide), hjust _ (by decide), hjust _ (by decide), hjust _ (by decide),
      hcold _ _ (by decide), hcold _ _ (by decide), hcold _ _ (by decide), hcold _ _ (by decide),
      hcold _ _ (by decide), hcode, nofun⟩
  · omega

theorem costs_jcha : Costs costs jcha := by
  have hraw : ∀ les mos, (∀ i, les ≤ i → i ≤ mos → Raw i ∧ i < 256) →
      Costs costs (shim les mos) := by
    intro les mos h
    refine costs_shim fun i hl hm => ?_
    obtain ⟨hi, hlt⟩ := h i hl hm
    have := costs_byte hlt
    rwa [cost, if_pos hi] at this
  refine costs_esca.pose (costs_poses ?_)
  simp only [List.forall_mem_cons]
  refine ⟨hraw _ _ ?_, hraw _ _ ?_, hraw _ _ ?_, hraw _ _ ?_, nofun⟩ <;>
    (intro i hl hm; unfold Raw; omega)

theorem costs_stri : Costs (fun p => costs p + 2) stri := by
  have hdoq : Costs (fun _ => 1) doq := costs_just le_rfl
  refine (hdoq.pfix (costs_jcha.star.sfix hdoq)).cook fun l => ?_
  rw [costs_rap]
  omega

/-- The bytes of a text of characters. -/
def bytes (l : Tape) : Nat := (l.flatMap trip).length

theorem trip_le {c : Nat} (h : c < 256) : (trip c).length ≤ 1 := by
  rw [trip_byte h]
  split
  · exact Nat.zero_le _
  · exact le_rfl

theorem costs_piec {bus : Rule Nat Nat} (h : Costs (fun c => (trip c).length) bus) :
    Costs bytes (piec bus) :=
  h.cook fun c => by simp [bytes]

theorem costs_twel {a b : Rule Nat Tape} (ha : Costs bytes a) (hb : Costs bytes b) :
    Costs bytes (twel a b) :=
  (ha.plug hb).cook fun x => by simp [bytes]

theorem costs_mayb {a : Rule Nat Tape} (ha : Costs bytes a) : Costs bytes (mayb a) :=
  ha.pose (costs_easy rfl)

theorem costs_digs : Costs bytes digs :=
  (costs_shim fun i _ hi => trip_le (hi.trans_lt (by decide))).star.mono fun l => by
    rw [bytes, List.length_flatMap]

theorem costs_numb : Costs bytes numb := by
  have hjust : ∀ c, c < 256 → Costs bytes (piec (just c)) :=
    fun c hc => costs_piec (costs_just (trip_le hc))
  have hmask : ∀ bud : List Nat, (∀ c ∈ bud, c < 256) → Costs bytes (piec (mask bud)) :=
    fun bud h => costs_piec (costs_mask fun c hc => trip_le (h c hc))
  have hfrac : Costs bytes frac := costs_twel (hjust _ (by decide)) costs_digs
  have hexpo : Costs bytes expo :=
    costs_twel (hmask _ (by decide)) (costs_twel (costs_mayb (hmask _ (by decide))) costs_digs)
  have hlead : Costs bytes (piec (shim '1' '9')) :=
    costs_piec (costs_shim fun i _ hi => trip_le (hi.trans_lt (by decide)))
  exact costs_twel (costs_mayb (hjust _ (by decide)))
    (costs_twel ((hjust _ (by decide)).pose (costs_twel hlead costs_digs))
      (costs_twel (costs_mayb hfrac) (costs_mayb hexpo)))

theorem costs_glyph (c : Nat) : Costs (fun _ => 1) (just c) := costs_just le_rfl

theorem costs_arra (h : Costs least r) : Costs (fun p => max 2 (leastList p + 1)) (arra r) := by
  have hmore := (costs_ws (costs_glyph ',')).more h
  refine ((costs_glyph '[').pfix (hmore.sfix (costs_ws (costs_glyph ']')))).mono fun p => ?_
  rw [leastList_eq]
  omega

theorem costs_pair (h : Costs least r) : Costs (fun x => costs x.1 + 3 + least x.2) (pair r) :=
  ((costs_ws costs_stri).sfix (costs_ws (costs_glyph ':'))).plug h

theorem costs_obje (h : Costs least r) : Costs (fun p => max 2 (leastPairs p + 1)) (obje r) := by
  have hmore := (costs_ws (costs_glyph ',')).more (costs_pair h)
  refine ((costs_ws (costs_glyph '\x7b')).pfix
    (hmore.sfix (costs_ws (costs_glyph '\x7d')))).mono fun p => ?_
  rw [leastPairs_eq]
  omega

/-- A map has no more in it than the list it was made of. -/
theorem least_mo (p : List (Nat × Json)) : least (.o (mo mug p)) ≤ max 2 (leastPairs p + 1) := by
  have htap := Treap.sum_tap (f := fun x => costs x.1 + 3 + least x.2 + 1) (mo mug p) []
  have hle : Treap.weight (fun x => costs x.1 + 3 + least x.2 + 1) (mo mug p) ≤
      Treap.weight (fun x => costs x.1 + 3 + least x.2 + 1) .nil +
        (p.map fun x => costs x.1 + 3 + least x.2 + 1).sum := Treap.weight_foldl_insert p
  rw [least, leastPairs_eq, leastPairs_eq, htap]
  simp only [Treap.weight, List.map_nil, List.sum_nil] at hle ⊢
  omega

theorem costs_box (h : Costs least r) : Costs least (box mug r) := by
  have hnull : Costs least (cold Json.null (jest ['n', 'u', 'l', 'l'])) :=
    (costs_jest _).cook fun _ => by simp [least]
  have hbool : Costs (fun b => least (.b b)) Poja.bool :=
    ((costs_jest _).cook fun _ => by simp [least]).pose
      ((costs_jest _).cook fun _ => by simp [least])
  refine costs_poses ?_
  simp only [List.forall_mem_cons]
  refine ⟨hnull, hbool.cook fun _ => le_rfl, costs_stri.cook fun p => ?_,
    costs_numb.cook fun l => ?_, (costs_arra h).cook fun p => ?_,
    (costs_obje h).cook fun p => least_mo p, nofun⟩
  · rw [least]
  · rw [least, trip_rap_flatMap, bytes]
  · rw [least]

/-- Whatever text is read, it is no shorter than the shortest there can be. -/
theorem costs_valuAt (n : Nat) : Costs least (valuAt mug n) := by
  induction n with
  | zero => exact nofun
  | succ n ih => exact costs_ws (costs_box ih)

end rules

/-! ### What is printed is short -/

section short

/-- A sum that is no more than one of larger terms. -/
theorem sum_squeeze {α : Type} {l : List α} {f g : α → Nat} (h : ∀ x ∈ l, f x ≤ g x) :
    (l.map f).sum ≤ (l.map g).sum ∧ ((l.map g).sum ≤ (l.map f).sum → ∀ x ∈ l, g x ≤ f x) := by
  induction l with
  | nil => simp
  | cons x l ih =>
      obtain ⟨hx, hl⟩ := List.forall_mem_cons.mp h
      obtain ⟨hle, hback⟩ := ih hl
      simp only [List.map_cons, List.sum_cons]
      refine ⟨Nat.add_le_add hx hle, fun hge => List.forall_mem_cons.mpr ⟨by omega, ?_⟩⟩
      exact hback (by omega)

theorem length_jesc (c : Nat) :
    (jesc c).length ≤ cost c ∧ (cost c ≤ (jesc c).length → Told c) := by
  by_cases hc : c = 10 ∨ c = 34 ∨ c = 92
  · refine ⟨?_, fun _ => .inr hc⟩
    rcases hc with rfl | rfl | rfl <;> decide
  · rw [not_or, not_or] at hc
    rw [jesc, if_neg hc.1, if_neg hc.2.1, if_neg hc.2.2, cost, List.length_singleton]
    split
    · next hraw => exact ⟨le_rfl, fun _ => .inl hraw⟩
    · exact ⟨by decide, fun h => absurd h (by decide)⟩

theorem length_string (p : Nat) :
    ((trip p).map jesc).flatten.length ≤ costs p ∧
      (costs p ≤ ((trip p).map jesc).flatten.length → ∀ c ∈ trip p, Told c) := by
  have hlen : ((trip p).map jesc).flatten.length = ((trip p).map fun c => (jesc c).length).sum := by
    rw [List.length_flatten, List.map_map]
    rfl
  obtain ⟨hle, hback⟩ := sum_squeeze (l := trip p) fun c _ => (length_jesc c).1
  rw [hlen, costs]
  exact ⟨hle, fun h c hc => (length_jesc c).2 (hback h c hc)⟩

theorem length_key (p : Nat) :
    (trip p).length ≤ costs p ∧ (costs p ≤ (trip p).length → ∀ c ∈ trip p, Raw c) := by
  have hone : ∀ c, 1 ≤ cost c := by
    intro c
    unfold cost
    split <;> decide
  have hlen : ((trip p).map fun _ => 1).sum = (trip p).length := by simp
  obtain ⟨hle, hback⟩ := sum_squeeze (l := trip p) (f := fun _ => 1) fun c _ => hone c
  rw [hlen] at hle hback
  refine ⟨hle, fun h c hc => ?_⟩
  have := hback h c hc
  by_contra hraw
  rw [cost, if_neg hraw] at this
  exact absurd this (by decide)

theorem length_listed {α : Type} (f : α → Tape) (x : α) (l : List α) :
    (f x ++ l.flatMap fun y => 44 :: f y).length + 1 =
      ((x :: l).map fun y => (f y).length + 1).sum := by
  have hl : (l.flatMap fun y => 44 :: f y).length = (l.map fun y => (f y).length + 1).sum := by
    rw [List.length_flatMap]
    rfl
  rw [List.length_append, hl, List.map_cons, List.sum_cons]
  omega

/-- No text is printed longer than the shortest there can be, and none as long that is not
clean. -/
theorem length_pojo {mug : Noun → Nat} {val : Json} (h : Valid mug val) :
    (pojo val).length ≤ least val ∧ (least val ≤ (pojo val).length → Clean val) := by
  induction h with
  | null => simp [pojo, least, Clean.null]
  | b p => cases p <;> simp [pojo, least, Clean.b]
  | n h =>
      rw [pojo_n, least]
      exact ⟨le_rfl, fun _ => .n _⟩
  | @s p h =>
      obtain ⟨hle, hback⟩ := length_string p
      rw [pojo_s, least, List.length_cons, List.length_append, List.length_singleton]
      exact ⟨by omega, fun h => .s (hback (by omega))⟩
  | @a p h ih =>
      obtain ⟨hle, hback⟩ := sum_squeeze (l := p) (f := fun v => (pojo v).length + 1)
        (g := fun v => least v + 1) fun v hv => Nat.succ_le_succ (ih v hv).1
      rw [← leastList_eq] at hle hback
      rw [pojo_a, least, List.length_cons, List.length_append, List.length_singleton]
      cases p with
      | nil => exact ⟨by simp [pojoList], fun _ => .a fun _ h => absurd h List.not_mem_nil⟩
      | cons v l =>
          have hlen := length_listed pojo v l
          rw [← pojoList_cons] at hlen
          refine ⟨by omega, fun hge => .a fun w hw => (ih w hw).2 ?_⟩
          exact Nat.le_of_succ_le_succ (hback (by omega) w hw)
  | @o p hmap hkey h ih =>
      have hpair : ∀ x ∈ p.tap [], (pairText x).length + 1 ≤ costs x.1 + 3 + least x.2 + 1 := by
        intro x hx
        have h1 := (length_key x.1).1
        have h2 := (ih x hx).1
        simp [pairText]
        omega
      obtain ⟨hle, hback⟩ := sum_squeeze hpair
      have hclean : ((p.tap []).map fun x => costs x.1 + 3 + least x.2 + 1).sum ≤
          ((p.tap []).map fun x => (pairText x).length + 1).sum → Clean (.o p) := by
        intro hge
        have hall : ∀ x ∈ p.tap [],
            costs x.1 ≤ (trip x.1).length ∧ least x.2 ≤ (pojo x.2).length := by
          intro x hx
          have h1 := (length_key x.1).1
          have h2 := (ih x hx).1
          have h3 := hback hge x hx
          simp [pairText] at h3
          omega
        exact .o (fun x hx => (length_key x.1).2 (hall x hx).1)
          fun x hx => (ih x hx).2 (hall x hx).2
      rw [← leastPairs_eq] at hle hclean
      rw [pojo_o, least, List.length_cons, List.length_append, List.length_singleton]
      rcases hviz : p.tap [] with _ | ⟨x, l⟩
      · rw [hviz] at hclean
        exact ⟨by simp [pojoPairs], fun _ => hclean (by simp [leastPairs])⟩
      · rw [hviz] at hle hclean
        have hlen := length_listed pairText x l
        rw [← pojoPairs_cons] at hlen
        exact ⟨by omega, fun hge => hclean (by omega)⟩

end short

/-! ### The round trip -/

section trip

variable {mug : Noun → Nat} {m : Nat}

theorem runs_spac : Runs m 0 spac := (runs_item _ : Runs m 1 (mask _)).star

theorem runs_ws {α : Type} {k : Nat} {sef : Rule Nat α} (h : Runs m k sef) : Runs m k (ws sef) := by
  have hws := runs_spac.pfix (m := m) h
  rwa [Nat.zero_add] at hws

theorem runs_esca : Runs m 1 esca := by
  have hqix : ∀ m, Runs m 1 qix := fun m =>
    have hsix : Runs m 1 six := ((runs_shim _ _).cook _).pose ((runs_shim _ _).cook _)
    ((hsix.stun (le_refl 4)).cook _).mono le_rfl (by decide)
  refine runs_pfix (runs_just _) (runs_poses (k := 1) ?_).any
  simp only [List.forall_mem_cons, runs_cold, runs_just, true_and]
  exact ⟨runs_just _, runs_just _, runs_just _, runs_just _,
    runs_pfix (runs_just _) ((hqix _).cook _).any,
    fun _ h => absurd h List.not_mem_nil⟩

theorem runs_jcha : Runs m 1 jcha := runs_esca.pose (runs_poses (by simp))

theorem runs_stri : Runs m 1 stri :=
  (runs_ifix (runs_just _) (fun _ => Runs.star runs_jcha) fun _ => (runs_just _).any).cook _

theorem runs_digs : Runs m 0 digs := (runs_shim _ _).star

theorem runs_mayb {a : Rule Nat Tape} (h : Runs m 0 a) : Runs m 0 (mayb a) := h.pose (runs_easy _)

theorem runs_twel {k j : Nat} {a b : Rule Nat Tape} (h : Runs m k a) (h' : Runs (m - k) j b) :
    Runs m (k + j) (twel a b) := (h.plug h').cook _

theorem runs_piec {bus : Rule Nat Nat} (h : Runs m 1 bus) : Runs m 1 (piec bus) := h.cook _

theorem runs_numb : Runs m 1 numb := by
  have hfrac : ∀ m, Runs m 0 (mayb frac) := fun m =>
    runs_mayb (runs_twel (runs_piec (runs_just _)) runs_digs).any
  have hexpo : ∀ m, Runs m 0 (mayb expo) := fun m =>
    runs_mayb (runs_twel (runs_piec (runs_item _))
      (runs_twel (runs_mayb (runs_piec (runs_item _)).any) runs_digs)).any
  have hwhole : ∀ m, Runs m 1 (pose (piec (just '0')) (twel (piec (shim '1' '9')) digs)) := fun m =>
    (runs_piec (runs_just _)).pose (runs_twel (runs_piec (runs_shim _ _)) runs_digs)
  have hrest : ∀ m, Runs m 1 (twel (pose (piec (just '0')) (twel (piec (shim '1' '9')) digs))
      (twel (mayb frac) (mayb expo))) := fun m =>
    runs_twel (hwhole m) (runs_twel (hfrac _) (hexpo _))
  exact runs_twel (runs_mayb (runs_piec (runs_just _)).any) (hrest _)

theorem runs_box {r : Rule Nat Json} (h : 1 ≤ m → Runs (m - 1) 1 r) : Runs m 1 (box mug r) := by
  have hcom : ∀ m c, Runs m 1 (ws (just c)) := fun m c => runs_ws (runs_just c)
  have hpair : 1 ≤ m → Runs (m - 1) 1 (pair r) := fun hm =>
    ((runs_ws runs_stri).sfix (hcom _ _).any).plug ((h hm).any.mono (Nat.sub_le _ _) le_rfl)
  refine runs_poses ?_
  simp only [List.forall_mem_cons]
  refine ⟨runs_cold _ (runs_jest _ _), ?_, runs_stri.cook _, runs_numb.cook _, ?_, ?_, nofun⟩
  · exact ((runs_cold _ (runs_jest _ _)).pose (runs_cold _ (runs_jest _ _))).cook _
  · exact (runs_ifix (runs_just _) (fun hm => (hcom _ _).any.more (h hm))
      fun _ => (hcom _ _).any).cook _
  · exact (runs_ifix (hcom _ _) (fun hm => (hcom _ _).any.more (hpair hm))
      fun _ => (hcom _ _).any).cook _

theorem runs_valuAt {n : Nat} (h : m < n) : Runs m 1 (valuAt mug n) := by
  induction n generalizing m with
  | zero => exact absurd h (Nat.not_lt_zero m)
  | succ n ih => exact runs_ws (runs_box fun hm => ih (by omega))

/-- The bound on the depth is never reached. -/
theorem valu_total (tub : Tape) : valu mug tub ≠ .crash :=
  (runs_valuAt (Nat.lt_succ_self tub.length) tub le_rfl).1

/-- A value comes back whole from what is printed exactly if it is clean. -/
theorem valu_pojo (val : Json) (h : Valid mug val) :
    valu mug (pojo val) = .done val [] ↔ Clean val := by
  constructor
  · intro hd
    have hcost := costs_valuAt _ hd
    rw [List.length_nil, Nat.zero_add] at hcost
    exact (length_pojo h).2 hcost
  · intro hc
    have hread := valuAt_pojo (s := []) h hc (Nat.le_succ _) nofun
    rwa [List.append_nil] at hread

/-- The object with a zero under the key `a`. -/
def zeroAt : Json := .o (.node 97 (.n 48) .nil .nil)

theorem valid_zeroAt : Valid mug zeroAt := by
  have htap : (Treap.node 97 (Json.n 48) .nil .nil).tap [] = [(97, .n 48)] := rfl
  refine .o ⟨⟨trivial, trivial, trivial, trivial⟩, trivial, trivial, trivial, trivial⟩ ?_ ?_
  · rw [htap, List.forall_mem_singleton, trip_byte (by decide)]
    decide
  · rw [htap, List.forall_mem_singleton]
    refine .n ?_
    rw [trip_byte (by decide)]
    exact ⟨[], [48], [], [], rfl, .inl rfl, .inl rfl, .inl rfl, .inl rfl⟩

theorem valu_pojo_object :
    valu (fun _ => 0) (pojo zeroAt) = .done zeroAt [] ↔ Clean zeroAt :=
  valu_pojo zeroAt valid_zeroAt

theorem valid_tab : Valid mug (.s 9) := by
  refine .s ?_
  rw [trip_byte (by decide)]
  decide

/-- A tab in a string is printed as it is, and not read. -/
theorem tab_lost : ¬∀ mug val, Valid mug val → valu mug (pojo val) = .done val [] := by
  intro h
  have hcost := costs_valuAt _ (h (fun _ => 0) (.s 9) valid_tab)
  rw [pojo_s, least, costs, trip_byte (by decide)] at hcost
  exact absurd hcost (by decide)

end trip

end Vere.Zuse
