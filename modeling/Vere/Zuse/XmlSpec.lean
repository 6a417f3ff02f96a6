import Vere.Zuse.Xml

/-!
# Vere.Zuse.XmlSpec

Which XML trees come back from what `++xmlt` prints.

The names, the attributes and the children of an element are printed one by one, and read again
one by one as long as there is no single quote (`item_read`). With one there is `&#` in the text;
whatever the rules take off a text without `<!` has no such thing in it (`takes_apexAt`), so that
nothing is read. So a tree comes back exactly if it has no single quote (`apex_xmlt`).
-/

namespace Vere.Zuse

open Vere.Lib Vere.Lib.Rule Vere.Hoon Glyph Xmlp

/-! ### Trees -/

/-- The name is one that `++name` accepts. -/
def Accepted (n : Mane) : Prop := name (xmln n) = .done n []

/-- A text of printable characters. -/
def Printable (v : Tape) : Prop := ∀ c ∈ v, 32 ≤ c ∧ c ≤ 126

/-- A text node. -/
def IsText (k : Manx) : Prop := ∃ v, k = .text v

/-- The nodes of a tree: texts that do not begin or end with a space, and elements in which no two
texts stand side by side. -/
inductive Node : Manx → Prop
  | text {v : Tape} (hne : v ≠ []) (hv : Printable v) (hfirst : v.head? ≠ some 32)
      (hlast : v.getLast? ≠ some 32) : Node (.text v)
  | elem {g : Marx} {c : List Manx} (hname : Accepted g.n) (hplain : g.n ≠ script ∧ g.n ≠ style)
      (hattr : ∀ x ∈ g.a, Accepted x.1 ∧ Printable x.2)
      (hapart : c.IsChain fun k l => ¬(IsText k ∧ IsText l)) (hkids : ∀ k ∈ c, Node k) :
      Node (.node g c)

/-- A tree: an element. -/
def Tree (k : Manx) : Prop := Node k ∧ ¬IsText k

/-- There is no single quote in the texts and attributes of the tree. -/
inductive NoSoq : Manx → Prop
  | node {g : Marx} {c : List Manx} (hattr : ∀ x ∈ g.a, 39 ∉ x.2) (hkids : ∀ k ∈ c, NoSoq k) :
      NoSoq (.node g c)

/-! ### What is printed -/

/-- A node, printed. -/
def shown (k : Manx) : Tape := xmlt false k []

/-- An attribute, printed behind a space. -/
def attrText (x : Mane × Tape) : Tape :=
  32 :: (xmln x.1 ++ 61 :: 34 :: (x.2.flatMap xmleChar ++ [34]))

theorem xmle_eq (tex rez : Tape) : xmle false tex rez = tex.flatMap xmleChar ++ rez := by
  have hloop : ∀ (xet rez : Tape), xmleLoop xet rez = xet.reverse.flatMap xmleChar ++ rez := by
    intro xet
    induction xet with
    | nil => exact fun _ => rfl
    | cons i xet ih =>
        intro rez
        rw [xmleLoop, ih]
        simp
  rw [xmle, hloop, List.reverse_reverse]
  rfl

theorem xmla_eq (att : Mart) (rez : Tape) (h : att ≠ []) :
    32 :: xmla att rez = att.flatMap attrText ++ rez := by
  induction att with
  | nil => exact absurd rfl h
  | cons x att ih =>
      obtain ⟨n, v⟩ := x
      rw [xmla, xmle_eq]
      cases att with
      | nil => simp [attrText, xmla]
      | cons y att =>
          have hrest := ih (List.cons_ne_nil y att)
          rw [List.flatMap_cons, List.append_assoc (attrText _), ← hrest]
          simp [attrText]

theorem accepted_ne {n : Mane} (h : Accepted n) : n ≠ .term 0 := by
  rintro rfl
  have hfail : name (xmln (.term 0)) = .fail := by
    rw [xmln, trip_eq, Nat.digits_zero]
    rfl
  rw [Accepted, hfail] at h
  cases h

theorem xmlt_elem {g : Marx} {c : List Manx} (hname : Accepted g.n)
    (hplain : g.n ≠ script ∧ g.n ≠ style) (rez : Tape) :
    xmlt false (.node g c) rez = 60 :: (xmln g.n ++ (g.a.flatMap attrText ++
      62 :: xmll false c (60 :: 47 :: (xmln g.n ++ 62 :: rez)))) := by
  obtain ⟨n, a⟩ := g
  have hterm := accepted_ne hname
  have hnot : ∀ v, n = .term 0 → a = [(.term 0, v)] → False := fun _ h _ => hterm h
  have hunq : (false || decide (n = script) || decide (n = style)) = false := by
    simp [hplain.1, hplain.2]
  rw [xmlt.eq_2 _ _ _ _ _ hnot, hunq]
  simp only [List.cons_append, List.nil_append]
  by_cases ha : a = []
  · subst ha
    rfl
  · have hspace := xmla_eq a (62 :: xmll false c (60 :: 47 :: (xmln n ++ 62 :: rez))) ha
    have hempty : a.isEmpty = false := by simpa using ha
    rw [← hspace, hempty]
    rfl

theorem xmlt_text (v rez : Tape) : xmlt false (.text v) rez = v.flatMap xmleChar ++ rez := by
  rw [Manx.text, xmlt, xmle_eq]

theorem xmll_eq {c : List Manx} (h : ∀ k ∈ c, ∀ rez, xmlt false k rez = shown k ++ rez)
    (rez : Tape) : xmll false c rez = c.flatMap shown ++ rez := by
  induction c with
  | nil => rw [xmll, List.flatMap_nil, List.nil_append]
  | cons k c ih =>
      obtain ⟨hk, hc⟩ := List.forall_mem_cons.mp h
      rw [xmll, ih hc, hk, List.flatMap_cons, List.append_assoc]

theorem xmlt_eq {k : Manx} (h : Node k) (rez : Tape) : xmlt false k rez = shown k ++ rez := by
  induction h generalizing rez with
  | @text v hne hv hfirst hlast => rw [shown, xmlt_text, xmlt_text, List.append_nil]
  | @elem g c hname hplain hattr hapart hkids ih =>
      rw [shown, xmlt_elem hname hplain, xmlt_elem hname hplain, xmll_eq ih, xmll_eq ih]
      simp

theorem shown_text (v : Tape) : shown (.text v) = v.flatMap xmleChar := by
  rw [shown, xmlt_text, List.append_nil]

theorem shown_elem {g : Marx} {c : List Manx} (hname : Accepted g.n)
    (hplain : g.n ≠ script ∧ g.n ≠ style) (hkids : ∀ k ∈ c, Node k) :
    shown (.node g c) = 60 :: (xmln g.n ++ (g.a.flatMap attrText ++
      62 :: (c.flatMap shown ++ 60 :: 47 :: (xmln g.n ++ [62])))) := by
  rw [shown, xmlt_elem hname hplain, xmll_eq fun k hk => xmlt_eq (hkids k hk)]

/-! ### Names -/

/-- A character that a part of a name can start with. -/
def Letter (c : Nat) : Prop := c = 95 ∨ (97 ≤ c ∧ c ≤ 122) ∨ (65 ≤ c ∧ c ≤ 90)

/-- A character that a part of a name can go on with. -/
def Inner (c : Nat) : Prop :=
  c = 95 ∨ c = 46 ∨ (97 ≤ c ∧ c ≤ 122) ∨ (65 ≤ c ∧ c ≤ 90) ∨ (48 ≤ c ∧ c ≤ 57) ∨ c = 45

instance (c : Nat) : Decidable (Letter c) := inferInstanceAs (Decidable (_ ∨ _))

instance (c : Nat) : Decidable (Inner c) := inferInstanceAs (Decidable (_ ∨ _))

/-- A part of a name. -/
def Word (t : Tape) : Prop := ∃ c u, t = c :: u ∧ Letter c ∧ ∀ d ∈ u, Inner d

section names

variable {c : Nat} {s t u : Tape}

theorem pose_item {p q : Prop} [Decidable p] [Decidable q] {r r' : Rule Nat Nat}
    (h : r s = if p then .done c t else .fail) (h' : r' s = if q then .done c t else .fail) :
    pose r r' s = if p ∨ q then .done c t else .fail := by
  rw [pose, h, h']
  by_cases hp : p
  · simp [hp]
  · simp [hp]

theorem glyph_item (d : Nat) : just d (c :: s) = if c = d then .done c s else .fail := by
  rw [just_cons]
  simp only [eq_comm]

theorem alf_item : pose cab alf (c :: s) = if Letter c then .done c s else .fail :=
  pose_item (glyph_item 95) (pose_item shim_cons shim_cons)

theorem alp_item : pose cab (pose dot alp) (c :: s) = if Inner c then .done c s else .fail :=
  pose_item (glyph_item 95) (pose_item (glyph_item 46)
    (pose_item shim_cons (pose_item shim_cons (pose_item shim_cons (glyph_item 45)))))

theorem chx_read (ht : Word t) (hs : ∀ d ∈ s.head?, ¬Inner d) :
    chx (t ++ s) = .done (rap 3 t) s := by
  obtain ⟨c, u, rfl, hc, hu⟩ := ht
  have hfail : pose cab (pose dot alp) s = .fail := by
    cases s with
    | nil => rfl
    | cons d s => exact alp_item.trans (if_neg (hs d rfl))
  have hstar := star_flatMap (f := fun c => [c]) (l := u) (fun _ _ => List.cons_ne_nil _ _)
    (fun d hd s => (alp_item.trans (if_pos (hu d hd)) :
      pose cab (pose dot alp) (d :: s) = .done d s)) hfail
  rw [List.flatMap_singleton'] at hstar
  rw [chx, cook, cons, List.cons_append, alf_item, if_pos hc, Edge.bind_done, hstar,
    Edge.bind_done, Edge.bind_done]

/-- What `chx` takes is a part of a name. -/
theorem chx_inv {p : Nat} (h : chx s = .done p u) : ∃ t, s = t ++ u ∧ Word t ∧ p = rap 3 t := by
  obtain ⟨l, v, hcons, hp⟩ := Edge.bind_eq_done.mp h
  obtain ⟨c, w, half, hrest⟩ := Edge.bind_eq_done.mp hcons
  obtain ⟨ds, x, hstar, hl⟩ := Edge.bind_eq_done.mp hrest
  cases hp
  cases hl
  cases s with
  | nil => cases half
  | cons d s =>
      rw [alf_item] at half
      split at half
      · next hd =>
          cases half
          obtain ⟨rfl, hds⟩ := star_echo (Q := Inner) (fun s v t hr => by
            cases s with
            | nil => cases hr
            | cons e s =>
                rw [alp_item] at hr
                split at hr
                · next he =>
                    cases hr
                    exact ⟨rfl, he⟩
                · cases hr) hstar
          exact ⟨_ :: ds, rfl, ⟨_, ds, rfl, hd, hds⟩, rfl⟩
      · cases half

theorem Letter.bounds (h : Letter c) : 65 ≤ c ∧ c ≤ 122 := by
  unfold Letter at h
  omega

theorem Inner.bounds (h : Inner c) : 45 ≤ c ∧ c ≤ 122 ∧ c ≠ 47 ∧ c ≠ 58 ∧ c ≠ 60 ∧ c ≠ 61 ∧
    c ≠ 62 := by
  unfold Inner at h
  omega

theorem Letter.inner (h : Letter c) : Inner c := by
  unfold Letter at h
  unfold Inner
  omega

theorem Word.inner (h : Word t) : ∀ c ∈ t, Inner c := by
  obtain ⟨c, u, rfl, hc, hu⟩ := h
  exact List.forall_mem_cons.mpr ⟨hc.inner, hu⟩

theorem Word.chars (h : Word t) : Chars t := by
  intro c hc
  have := (h.inner c hc).bounds
  omega

/-- The parts of an accepted name. -/
theorem Accepted.words {n : Mane} (h : Accepted n) : ∃ t, Word t ∧
    (n = .term (rap 3 t) ∨ ∃ u, Word u ∧ n = .cell (rap 3 t) (rap 3 u)) := by
  rcases Edge.orElse_eq_done.mp h with hd | ⟨_, hd⟩
  · obtain ⟨x, v, hplug, hn⟩ := Edge.bind_eq_done.mp hd
    obtain ⟨p, w, hp, hplug⟩ := Edge.bind_eq_done.mp hplug
    obtain ⟨q, y, hq, hx⟩ := Edge.bind_eq_done.mp hplug
    obtain ⟨p', z, hchx, hcol⟩ := Edge.bind_eq_done.mp hp
    obtain ⟨_, _, _, hp'⟩ := Edge.bind_eq_done.mp hcol
    cases hn
    cases hx
    cases hp'
    obtain ⟨t, -, ht, rfl⟩ := chx_inv hchx
    obtain ⟨u, -, hu, rfl⟩ := chx_inv hq
    exact ⟨t, ht, .inr ⟨u, hu, rfl⟩⟩
  · obtain ⟨p, v, hp, hn⟩ := Edge.bind_eq_done.mp hd
    cases hn
    obtain ⟨t, -, ht, rfl⟩ := chx_inv hp
    exact ⟨t, ht, .inl rfl⟩

theorem xmln_term (h : Word t) : xmln (.term (rap 3 t)) = t := trip_rap h.chars

theorem xmln_cell (ht : Word t) (hu : Word u) :
    xmln (.cell (rap 3 t) (rap 3 u)) = t ++ 58 :: u := by
  rw [xmln, trip_rap ht.chars, trip_rap hu.chars]
  rfl

theorem term_read (ht : Word t) (hs : ∀ d ∈ s.head?, ¬Inner d ∧ d ≠ 58) :
    name (t ++ s) = .done (.term (rap 3 t)) s := by
  have hchx := chx_read ht fun d hd => (hs d hd).1
  have hcol : col s = .fail := by
    cases s with
    | nil => rfl
    | cons d s => exact just_cons.trans (if_neg (hs d rfl).2.symm)
  rw [name, pose, cook, plug, sfix, hchx, Edge.bind_done, hcol]
  simp only [Edge.bind_fail, Edge.orElse_fail]
  rw [cook, hchx, Edge.bind_done]

theorem accepted_word (ht : Word t) : Accepted (.term (rap 3 t)) := by
  have hread := term_read (s := []) ht nofun
  rw [List.append_nil] at hread
  rwa [Accepted, xmln_term ht]

/-- A name comes back if it does not go on. -/
theorem name_read {n : Mane} (h : Accepted n) (hs : ∀ d ∈ s.head?, ¬Inner d ∧ d ≠ 58) :
    name (xmln n ++ s) = .done n s := by
  obtain ⟨t, ht, rfl | ⟨u, hu, rfl⟩⟩ := h.words
  · rw [xmln_term ht]
    exact term_read ht hs
  · have hchx : chx (t ++ 58 :: (u ++ s)) = .done (rap 3 t) (58 :: (u ++ s)) :=
      chx_read ht (by simp [Inner])
    have hcol : col (58 :: (u ++ s)) = .done 58 (u ++ s) := rfl
    rw [xmln_cell ht hu, List.append_assoc, List.cons_append, name, pose, cook, plug, sfix, hchx,
      Edge.bind_done, hcol, Edge.bind_done, Edge.bind_done, chx_read hu fun d hd => (hs d hd).1,
      Edge.bind_done, Edge.bind_done, Edge.orElse_done]

/-- A name starts with a letter and has only inner characters and colons. -/
theorem Accepted.letter {n : Mane} (h : Accepted n) :
    ∃ c u, xmln n = c :: u ∧ Letter c ∧ ∀ d ∈ u, Inner d ∨ d = 58 := by
  obtain ⟨t, ht, rfl | ⟨u, hu, rfl⟩⟩ := h.words
  · obtain ⟨c, v, rfl, hc, hv⟩ := id ht
    exact ⟨c, v, xmln_term ht, hc, fun d hd => .inl (hv d hd)⟩
  · obtain ⟨c, v, rfl, hc, hv⟩ := id ht
    refine ⟨c, v ++ 58 :: u, xmln_cell ht hu, hc, fun d hd => ?_⟩
    rcases List.mem_append.mp hd with hd | hd
    · exact .inl (hv d hd)
    · rcases List.mem_cons.mp hd with rfl | hd
      · exact .inr rfl
      · exact .inl (hu.inner d hd)

end names

/-! ### Texts and tags -/

section tags

variable {c : Nat} {s t u v : Tape}

theorem less_fail {α β : Type} {r : Rule Nat β} {r' : Rule Nat α} (h : r s = .fail) :
    less r r' s = r' s := by
  rw [less, h]

theorem just_fail {d : Nat} (h : d ≠ c) : just d (c :: s) = .fail := just_cons.trans (if_neg h)

/-- What a character is written as starts with itself or with an ampersand. -/
theorem xmleChar_head (c : Nat) : ∃ d u, xmleChar c = d :: u ∧
    (d = 38 ∨ (d = c ∧ u = [] ∧ c ≠ 34 ∧ c ≠ 38 ∧ c ≠ 39 ∧ c ≠ 60 ∧ c ≠ 62)) := by
  unfold xmleChar
  split_ifs with h1 h2 h3 h4 h5
  · exact ⟨_, _, rfl, .inl rfl⟩
  · exact ⟨_, _, rfl, .inl rfl⟩
  · exact ⟨_, _, rfl, .inl rfl⟩
  · exact ⟨_, _, rfl, .inl rfl⟩
  · exact ⟨_, _, rfl, .inl rfl⟩
  · exact ⟨_, _, rfl, .inr ⟨rfl, rfl, h1, h2, h3, h4, h5⟩⟩

theorem escp_read (hc : 32 ≤ c ∧ c ≤ 126) (hsoq : c ≠ 39) (s : Tape) :
    escp (xmleChar c ++ s) = .done c s := by
  by_cases hspecial : c = 34 ∨ c = 38 ∨ c = 60 ∨ c = 62
  · rcases hspecial with rfl | rfl | rfl | rfl <;> rfl
  · simp only [not_or] at hspecial
    obtain ⟨h34, h38, h60, h62⟩ := hspecial
    have hchar : xmleChar c = [c] := by simp [xmleChar, h34, h38, h60, h62, hsoq]
    have hprn : prn (c :: s) = .done c s := by
      rw [prn, less_fail (just_fail (by omega)), shim_cons, if_pos (by omega)]
    have hraw : less gal (less gar (less pam prn)) (c :: s) = .done c s := by
      have hgal : gal (c :: s) = .fail := just_fail (Ne.symm h60)
      have hgar : gar (c :: s) = .fail := just_fail (Ne.symm h62)
      have hpam : pam (c :: s) = .fail := just_fail (Ne.symm h38)
      rw [less_fail hgal, less_fail hgar, less_fail hpam, hprn]
    rw [hchar, List.singleton_append, escp, poses, List.foldr_cons, pose, hraw, Edge.orElse_done]

/-- A character of a text. -/
theorem chrd_char (hc : 32 ≤ c ∧ c ≤ 126) (hsoq : c ≠ 39) (s : Tape) :
    less soq (less doq (pose (just 10) escp)) (xmleChar c ++ s) = .done c s := by
  have hread := escp_read hc hsoq s
  obtain ⟨d, u, hd, hhead⟩ := xmleChar_head c
  rw [hd, List.cons_append] at hread ⊢
  have hone : soq (d :: (u ++ s)) = .fail := just_fail (show 39 ≠ d by omega)
  have hdoq : doq (d :: (u ++ s)) = .fail := just_fail (show 34 ≠ d by omega)
  have hten : just 10 (d :: (u ++ s)) = .fail := just_fail (show 10 ≠ d by omega)
  rw [less_fail hone, less_fail hdoq, pose, hten, Edge.orElse_fail, hread]

/-- A character of an attribute. -/
theorem attr_char (hc : 32 ≤ c ∧ c ≤ 126) (hsoq : c ≠ 39) (s : Tape) :
    less doq escp (xmleChar c ++ s) = .done c s := by
  have hread := escp_read hc hsoq s
  obtain ⟨d, u, hd, hhead⟩ := xmleChar_head c
  rw [hd, List.cons_append] at hread ⊢
  have hdoq : doq (d :: (u ++ s)) = .fail := just_fail (show 34 ≠ d by omega)
  rw [less_fail hdoq, hread]

theorem xmleChar_ne (c : Nat) : xmleChar c ≠ [] := by
  obtain ⟨d, u, hd, -⟩ := xmleChar_head c
  rw [hd]
  exact List.cons_ne_nil d u

theorem chrd_read (hne : v ≠ []) (hv : Printable v) (hsoq : 39 ∉ v) (s : Tape) :
    chrd (v.flatMap xmleChar ++ 60 :: s) = .done (.text v) (60 :: s) := by
  have hchar : ∀ c ∈ v, ∀ s, less soq (less doq (pose (just 10) escp)) (xmleChar c ++ s) =
      .done c s := fun c hc s => chrd_char (hv c hc) (fun h => hsoq (h ▸ hc)) s
  obtain ⟨c, w, rfl⟩ := List.exists_cons_of_ne_nil hne
  have hstar := star_flatMap (s := 60 :: s) (fun c _ => xmleChar_ne c)
    (fun d hd => hchar d (List.mem_cons_of_mem c hd)) rfl
  rw [chrd, cook, plus, cons, List.flatMap_cons, List.append_assoc, hchar c List.mem_cons_self,
    Edge.bind_done, hstar, Edge.bind_done, Edge.bind_done]

theorem attr_item {x : Mane × Tape} (hname : Accepted x.1) (hv : Printable x.2)
    (hsoq : 39 ∉ x.2) (s : Tape) :
    pfix (plus whit) (plug name (pfix tis (pose (ifix doq doq (star (less doq escp)))
      (ifix soq soq (star (less soq escp)))))) (attrText x ++ s) = .done x s := by
  obtain ⟨c, u, hn, hc, -⟩ := hname.letter
  have hstar := star_flatMap (s := 34 :: s) (fun c _ => xmleChar_ne c)
    (fun c hc s => attr_char (hv c hc) (fun h => hsoq (h ▸ hc)) s) rfl
  have hdoq : ∀ s, doq (34 :: s) = .done 34 s := fun _ => rfl
  have htis : ∀ s, tis (61 :: s) = .done 61 s := fun _ => rfl
  have hspace : ∀ s, plus whit (32 :: (xmln x.1 ++ s)) = .done [32] (xmln x.1 ++ s) := by
    intro s
    have hwhit : whit (xmln x.1 ++ s) = .fail := by
      have := hc.bounds
      rw [hn, List.cons_append, whit, mask_cons, if_neg]
      simp
      omega
    have h32 : whit (32 :: (xmln x.1 ++ s)) = .done 32 (xmln x.1 ++ s) := rfl
    rw [plus, cons, h32, Edge.bind_done, star_fail hwhit, Edge.bind_done]
  have hread : ∀ s, name (xmln x.1 ++ 61 :: s) = .done x.1 (61 :: s) := fun s =>
    name_read hname (by simp [Inner])
  have htext : attrText x ++ s =
      32 :: (xmln x.1 ++ 61 :: 34 :: (x.2.flatMap xmleChar ++ 34 :: s)) := by
    simp [attrText]
  rw [htext, pfix, hspace, Edge.bind_done, plug, hread, Edge.bind_done, pfix, htis, Edge.bind_done,
    pose, ifix, pfix, hdoq, Edge.bind_done, sfix, hstar, Edge.bind_done, hdoq, Edge.bind_done,
    Edge.orElse_done, Edge.bind_done]

theorem attr_read {a : Mart} (h : ∀ x ∈ a, Accepted x.1 ∧ Printable x.2)
    (hsoq : ∀ x ∈ a, 39 ∉ x.2) (s : Tape) :
    attr (a.flatMap attrText ++ 62 :: s) = .done a (62 :: s) :=
  star_flatMap (fun _ _ => List.cons_ne_nil _ _)
    (fun x hx => attr_item (h x hx).1 (h x hx).2 (hsoq x hx)) rfl

theorem head_read {g : Marx} (hname : Accepted g.n)
    (h : ∀ x ∈ g.a, Accepted x.1 ∧ Printable x.2) (hsoq : ∀ x ∈ g.a, 39 ∉ x.2) (s : Tape) :
    head (60 :: (xmln g.n ++ (g.a.flatMap attrText ++ 62 :: s))) = .done g s := by
  have hend : ∀ d ∈ (g.a.flatMap attrText ++ 62 :: s).head?, ¬Inner d ∧ d ≠ 58 := by
    cases g.a with
    | nil => simp [Inner]
    | cons x a => simp [attrText, Inner]
  have hgal : ∀ s, gal (60 :: s) = .done 60 s := fun _ => rfl
  have hgar : ∀ s, gar (62 :: s) = .done 62 s := fun _ => rfl
  rw [head, ifix, pfix, hgal, Edge.bind_done, sfix, cook, plug, name_read hname hend,
    Edge.bind_done, attr_read h hsoq, Edge.bind_done, Edge.bind_done, Edge.bind_done, hgar,
    Edge.bind_done]

theorem tail_read {n : Mane} (hname : Accepted n) (s : Tape) :
    tail (60 :: 47 :: (xmln n ++ 62 :: s)) = .done n s := by
  have hopen : ∀ s, jest ['<', '/'] (60 :: 47 :: s) = .done () s := fun _ => rfl
  have hgar : ∀ s, gar (62 :: s) = .done 62 s := fun _ => rfl
  rw [tail, ifix, pfix, hopen, Edge.bind_done, sfix, name_read hname (by simp [Inner]),
    Edge.bind_done, hgar, Edge.bind_done]

end tags

/-! ### Nodes -/

section nodes

variable {n c : Nat} {s u : Tape} {k : Manx} {kids : List Manx}

/-- Neither whitespace nor a comment. -/
theorem spa_fail (hc : c ≠ 32 ∧ c ≠ 9 ∧ c ≠ 10) (hbang : c = 60 → s.head? ≠ some 33) :
    spa (c :: s) = .fail := by
  have hwhit : whit (c :: s) = .fail := by
    rw [whit, mask_cons, if_neg]
    simp [hc]
  have hcomt : comt (c :: s) = .fail := by
    rw [comt, ifix, pfix, jest_cons]
    split
    · next h60 =>
        cases s with
        | nil => rfl
        | cons d s =>
            have hd : ¬ '!'.toNat = d := by
              rintro rfl
              exact hbang h60.symm rfl
            rw [jest_cons, if_neg hd, Edge.bind_fail]
    · rfl
  rw [spa, pose, cold, cook, hcomt, Edge.bind_fail, Edge.orElse_fail, cold, cook, hwhit,
    Edge.bind_fail]

theorem spa_close (s : Tape) : spa (60 :: 47 :: s) = .fail := spa_fail (by decide) (by simp)

theorem comt_fail (h : spa s = .fail) : comt s = .fail := by
  rw [spa, pose, cold, cook] at h
  cases hc : comt s with
  | fail => rfl
  | crash => simp [hc] at h
  | done p t => simp [hc] at h

theorem Node.open (h : Node k) (hk : ¬IsText k) :
    ∃ d w, shown k = 60 :: d :: w ∧ Letter d := by
  cases h with
  | @text v => exact absurd ⟨v, rfl⟩ hk
  | @elem g c hname hplain hattr hapart hkids =>
      obtain ⟨d, w, hw, hd, -⟩ := hname.letter
      rw [shown_elem hname hplain hkids, hw]
      exact ⟨d, _, rfl, hd⟩

theorem Node.spa_fail (h : Node k) (u : Tape) : spa (shown k ++ u) = .fail := by
  by_cases hk : IsText k
  · obtain ⟨v, rfl⟩ := hk
    cases h with
    | @elem g c hname => exact absurd rfl (accepted_ne hname)
    | @text v hne hv hfirst hlast =>
        obtain ⟨c, w, rfl⟩ := List.exists_cons_of_ne_nil hne
        have hc := hv c List.mem_cons_self
        have h32 : c ≠ 32 := by simpa using hfirst
        obtain ⟨d, x, hd, hhead⟩ := xmleChar_head c
        rw [shown_text, List.flatMap_cons, hd]
        exact Zuse.spa_fail (by omega) (by omega)
  · obtain ⟨d, w, hw, hd⟩ := h.open hk
    have := hd.bounds
    rw [hw]
    refine Zuse.spa_fail (by decide) fun _ => ?_
    simp
    omega

/-- What may follow a node: no whitespace and no comment, and after a text a tag. -/
def Follow (k : Manx) (u : Tape) : Prop := spa u = .fail ∧ (IsText k → ∃ w, u = 60 :: w)

theorem kids_follow (hnode : ∀ l ∈ k :: kids, Node l)
    (hapart : (k :: kids).IsChain fun k l => ¬(IsText k ∧ IsText l)) (s : Tape) :
    Follow k (kids.flatMap shown ++ 60 :: 47 :: s) := by
  cases kids with
  | nil => exact ⟨spa_close s, fun _ => ⟨_, rfl⟩⟩
  | cons l kids =>
      have hl := hnode l (by simp)
      rw [List.flatMap_cons, List.append_assoc]
      refine ⟨hl.spa_fail _, fun hk => ?_⟩
      have hnot := (List.isChain_cons_cons.mp hapart).1
      obtain ⟨d, w, hw, -⟩ := hl.open fun h => hnot ⟨hk, h⟩
      rw [hw]
      exact ⟨_, rfl⟩

section kids

variable {item : Rule Nat Manx}
  (hitem : ∀ k ∈ kids, ∀ u, Follow k u → item (shown k ++ u) = .done k u)
  (hnode : ∀ k ∈ kids, Node k) (hapart : kids.IsChain fun k l => ¬(IsText k ∧ IsText l))
  (hfail : item (60 :: 47 :: s) = .fail)
include hitem hnode hapart hfail

theorem kids_star :
    star (pfix (star comt) item) (kids.flatMap shown ++ 60 :: 47 :: s) =
      .done kids (60 :: 47 :: s) := by
  have hskip : ∀ u, spa u = .fail → pfix (star comt) item u = item u := by
    intro u hu
    rw [pfix, star_fail (comt_fail hu), Edge.bind_done]
  induction kids with
  | nil => exact star_fail ((hskip _ (spa_close s)).trans hfail)
  | cons k kids ih =>
      have hfollow := kids_follow hnode hapart s
      have hrest := ih (fun l hl => hitem l (List.mem_cons_of_mem k hl))
        (fun l hl => hnode l (List.mem_cons_of_mem k hl)) hapart.of_cons
      have hk := hnode k List.mem_cons_self
      have hread := hitem k List.mem_cons_self _ hfollow
      rw [← hskip _ (hk.spa_fail _)] at hread
      have hne : shown k ≠ [] := by
        intro hnil
        have hspa := hk.spa_fail [32]
        rw [hnil] at hspa
        exact absurd hspa (by decide)
      rw [List.flatMap_cons, List.append_assoc]
      refine star_done hread ?_ hrest
      have := List.length_pos_iff.mpr hne
      simp only [List.length_append]
      omega

/-- Children come back one by one, with no comments between them. -/
theorem kids_read :
    more (star comt) item (kids.flatMap shown ++ 60 :: 47 :: s) = .done kids (60 :: 47 :: s) := by
  cases kids with
  | nil =>
      rw [List.flatMap_nil, List.nil_append, more, pose, most, cons, hfail, Edge.bind_fail,
        Edge.orElse_fail, easy]
  | cons k kids =>
      have hrest := kids_star (fun l hl => hitem l (List.mem_cons_of_mem k hl))
        (fun l hl => hnode l (List.mem_cons_of_mem k hl)) hapart.of_cons hfail
      have hread := hitem k List.mem_cons_self _ (kids_follow hnode hapart s)
      rw [List.flatMap_cons, List.append_assoc, more, pose, most, cons, hread, Edge.bind_done,
        hrest, Edge.bind_done, Edge.orElse_done]

end kids

/-- Where no tag opens. -/
theorem name_fail (hc : ¬Letter c) (s : Tape) : name (c :: s) = .fail := by
  have hchx : chx (c :: s) = .fail := by
    rw [chx, cook, cons, alf_item, if_neg hc, Edge.bind_fail, Edge.bind_fail]
  rw [name, pose, cook, plug, sfix, hchx]
  simp only [Edge.bind_fail, Edge.orElse_fail]
  rw [cook, hchx, Edge.bind_fail]

/-- No tag opens in a text. -/
theorem tag_fail (h : gal s = .fail) : head s = .fail ∧ empt s = .fail := by
  constructor
  · rw [head, ifix, pfix, h, Edge.bind_fail]
  · rw [empt, ifix, pfix, h, Edge.bind_fail]

/-- No tag opens where one closes. -/
theorem tag_close (s : Tape) : head (60 :: 47 :: s) = .fail ∧ empt (60 :: 47 :: s) = .fail := by
  have hgal : gal (60 :: 47 :: s) = .done 60 (47 :: s) := rfl
  have hname := name_fail (c := 47) (by decide) s
  constructor
  · rw [head, ifix, pfix, hgal, Edge.bind_done, sfix, cook, plug, hname, Edge.bind_fail,
      Edge.bind_fail, Edge.bind_fail]
  · rw [empt, ifix, pfix, hgal, Edge.bind_done, sfix, cook, plug, plug, hname, Edge.bind_fail,
      Edge.bind_fail, Edge.bind_fail, Edge.bind_fail]

theorem apexAt_fail (hspa : spa s = .fail) (h : head s = .fail ∧ empt s = .fail) :
    apexAt (n + 1) s = .fail := by
  have hwhole : whole (apexAt n) s = .fail := by
    rw [whole, sear, plug, h.1, Edge.bind_fail, Edge.bind_fail]
  rw [apexAt, ifix, pfix, star_fail hspa, Edge.bind_done, sfix, pose, hwhole, Edge.orElse_fail, h.2,
    Edge.bind_fail]

/-- An element comes back if its children do. -/
theorem elem_read {g : Marx} (hname : Accepted g.n) (hplain : g.n ≠ script ∧ g.n ≠ style)
    (hattr : ∀ x ∈ g.a, Accepted x.1 ∧ Printable x.2) (hsoq : ∀ x ∈ g.a, 39 ∉ x.2)
    (hnode : ∀ k ∈ kids, Node k)
    (hkids : ∀ s, more (star comt) (pose (apexAt n) chrd) (kids.flatMap shown ++ 60 :: 47 :: s) =
      .done kids (60 :: 47 :: s)) (hu : spa u = .fail) :
    apexAt (n + 1) (shown (.node g kids) ++ u) = .done (.node g kids) u := by
  have hspa : spa (shown (.node g kids) ++ u) = .fail := by
    obtain ⟨d, w, hw, hd, -⟩ := hname.letter
    have := hd.bounds
    rw [shown_elem hname hplain hnode, hw]
    refine spa_fail (by decide) fun _ => ?_
    simp
    omega
  have htext : shown (.node g kids) ++ u = 60 :: (xmln g.n ++ (g.a.flatMap attrText ++
      62 :: (kids.flatMap shown ++ 60 :: 47 :: (xmln g.n ++ 62 :: u)))) := by
    rw [shown_elem hname hplain hnode]
    simp
  have hwhole : whole (apexAt n) (shown (.node g kids) ++ u) = .done (.node g kids) u := by
    rw [htext, whole, sear, plug, head_read hname hattr hsoq, Edge.bind_done, plug, hkids,
      Edge.bind_done, tail_read hname, Edge.bind_done, Edge.bind_done, Edge.bind_done]
    simp
  rw [apexAt, ifix, pfix, star_fail hspa, Edge.bind_done, sfix, pose, hwhole, Edge.orElse_done,
    Edge.bind_done, star_fail hu, Edge.bind_done]

theorem length_kid (hk : k ∈ kids) : (shown k).length ≤ (kids.flatMap shown).length := by
  rw [List.flatMap_def]
  exact (List.sublist_flatten_of_mem (List.mem_map_of_mem hk)).length_le

/-- A node without single quotes comes back from what is printed. -/
theorem item_read (hk : Node k) (hsoq : NoSoq k) (hn : (shown k).length ≤ n)
    (hu : Follow k u) (hne : 0 < n) :
    (¬IsText k → apexAt n (shown k ++ u) = .done k u) ∧
      pose (apexAt n) chrd (shown k ++ u) = .done k u := by
  induction n generalizing k u with
  | zero => exact absurd hne (Nat.lt_irrefl 0)
  | succ n ih =>
      cases hk with
      | @text v hv hprint hfirst hlast =>
          obtain ⟨w, rfl⟩ := hu.2 ⟨v, rfl⟩
          refine ⟨fun h => absurd ⟨v, rfl⟩ h, ?_⟩
          cases hsoq with
          | node hattr =>
              have h39 : 39 ∉ v := hattr (.term 0, v) List.mem_cons_self
              have hspa := (Node.text hv hprint hfirst hlast).spa_fail (60 :: w)
              have hgal : gal (shown (.text v) ++ 60 :: w) = .fail := by
                obtain ⟨c, x, rfl⟩ := List.exists_cons_of_ne_nil hv
                obtain ⟨d, y, hd, hhead⟩ := xmleChar_head c
                rw [shown_text, List.flatMap_cons, hd]
                exact just_fail (show 60 ≠ d by omega)
              rw [pose, apexAt_fail hspa (tag_fail hgal), Edge.orElse_fail, shown_text,
                chrd_read hv hprint h39]
      | @elem g c hname hplain hattr hapart hkids =>
          cases hsoq with
          | node hsoq hsoqs =>
              rw [shown_elem hname hplain hkids] at hn
              simp only [List.length_cons, List.length_append] at hn
              have hpos : 0 < n := by omega
              have hclosed : ∀ s, pose (apexAt n) chrd (60 :: 47 :: s) = .fail := by
                intro s
                obtain ⟨m, rfl⟩ : ∃ m, n = m + 1 := ⟨n - 1, by omega⟩
                rw [pose, apexAt_fail (spa_close s) (tag_close s)]
                rfl
              have hitem : ∀ k ∈ c, ∀ u, Follow k u →
                  pose (apexAt n) chrd (shown k ++ u) = .done k u := by
                intro k hk u hu
                have := length_kid hk
                exact (ih (hkids k hk) (hsoqs k hk) (by omega) hu hpos).2
              have hread := elem_read hname hplain hattr hsoq hkids
                (fun s => kids_read hitem hkids hapart (hclosed s)) hu.1
              exact ⟨fun _ => hread, by rw [pose, hread, Edge.orElse_done]⟩

end nodes

/-! ### Single quotes -/

/-- The one character does not stand right before the other. -/
def Parted (a b : Nat) : Tape → Prop
  | [] => True
  | c :: s => (c = a → s.head? ≠ some b) ∧ Parted a b s

/-- After the one character there is always one that is not the other. -/
def Backed (a b : Nat) : Tape → Prop
  | [] => True
  | c :: s => (c = a → ∃ d ∈ s.head?, d ≠ b) ∧ Backed a b s

section parted

variable {a b c : Nat} {s t u v : Tape}

theorem Backed.parted (h : Backed a b s) : Parted a b s := by
  induction s with
  | nil => trivial
  | cons c s ih =>
      refine ⟨fun hc hb => ?_, ih h.2⟩
      obtain ⟨d, hd, hne⟩ := h.1 hc
      exact hne (Option.some.inj (hd.symm.trans hb))

theorem Parted.left (h : Parted a b (u ++ s)) : Parted a b s := by
  induction u with
  | nil => exact h
  | cons c u ih => exact ih h.2

theorem Parted.right (h : Parted a b (u ++ s)) : Parted a b u := by
  induction u with
  | nil => trivial
  | cons c u ih =>
      refine ⟨fun hc hb => h.1 hc ?_, ih h.2⟩
      cases u with
      | nil => cases hb
      | cons d u => exact hb

theorem Backed.append (h : Backed a b u) (h' : Backed a b v) : Backed a b (u ++ v) := by
  induction u with
  | nil => exact h'
  | cons c u ih =>
      refine ⟨fun hc => ?_, ih h.2⟩
      obtain ⟨d, hd, hne⟩ := h.1 hc
      cases u with
      | nil => cases hd
      | cons e u => exact ⟨d, hd, hne⟩

theorem parted_append (hu : a ∉ u) (h : Parted a b s) : Parted a b (u ++ s) := by
  induction u with
  | nil => exact h
  | cons c u ih =>
      rw [List.mem_cons, not_or] at hu
      exact ⟨fun hc => absurd hc.symm hu.1, ih hu.2⟩

theorem parted_flatMap {α : Type} {f : α → Tape} {l : List α} (h : Parted a b (l.flatMap f)) :
    ∀ x ∈ l, Parted a b (f x) := by
  induction l with
  | nil => exact nofun
  | cons x l ih =>
      rw [List.flatMap_cons] at h
      exact List.forall_mem_cons.mpr ⟨h.right, ih h.left⟩

end parted

/-- What the rules are looked at on, and what they take off there. -/
theorem joins : Joins (Parted 60 33) (Backed 38 35) where
  left _ _ h := h.left
  nil := trivial
  append _ _ h h' := h.append h'

section takes

variable {c : Nat} {s t : Tape}

theorem backed_char (h : c ≠ 38) : Backed 38 35 [c] := ⟨fun hc => absurd hc h, trivial⟩

theorem takes_just (h : c ≠ 38) : Takes (Parted 60 33) (Backed 38 35) (just c) := by
  refine takes_item fun i v hv => ?_
  split at hv
  · next hc =>
      rw [← hc]
      exact backed_char h
  · cases hv

theorem takes_shim {les mos : Nat} (h : ∀ i, les ≤ i → i ≤ mos → i ≠ 38) :
    Takes (Parted 60 33) (Backed 38 35) (shim les mos) := by
  refine takes_item fun i v hv => ?_
  split at hv
  · next hc => exact backed_char (h i hc.1 hc.2)
  · cases hv

theorem jest_eq {daf : List Char} {v : Unit} (h : jest daf s = .done v t) :
    s = daf.map Char.toNat ++ t := by
  induction daf generalizing s with
  | nil =>
      cases h
      rfl
  | cons d daf ih =>
      cases s with
      | nil => cases h
      | cons i s =>
          rw [jest_cons] at h
          split at h
          · next hd =>
              rw [ih h, ← hd]
              rfl
          · cases h

theorem takes_jest {daf : List Char} (h : Backed 38 35 (daf.map Char.toNat)) :
    Takes (Parted 60 33) (Backed 38 35) (jest daf) := fun _ _ _ _ hd => ⟨_, jest_eq hd, h⟩

/-- There are no comments. -/
theorem takes_comt : Takes (Parted 60 33) (Backed 38 35) comt := by
  intro s v t hs hd
  obtain ⟨x, w, hopen, -⟩ := Edge.bind_eq_done.mp hd
  rw [jest_eq hopen] at hs
  exact absurd rfl (hs.1 rfl)

theorem takes_whit : Takes (Parted 60 33) (Backed 38 35) whit := by
  refine takes_item fun i v hv => ?_
  split at hv
  · next hi =>
      refine backed_char ?_
      rintro rfl
      exact absurd hi (by decide)
  · cases hv

theorem takes_spa : Takes (Parted 60 33) (Backed 38 35) (star spa) :=
  joins.star ((joins.cook takes_comt _).pose (joins.cook takes_whit _))

theorem takes_escp : Takes (Parted 60 33) (Backed 38 35) escp := by
  have hraw : Takes (Parted 60 33) (Backed 38 35) (less pam prn) := by
    intro s v t hs hd
    cases s with
    | nil => cases hd
    | cons c s =>
        by_cases hc : c = 38
        · subst hc
          cases hd
        · have hpam : pam (c :: s) = .fail := just_fail (Ne.symm hc)
          rw [less_fail hpam, prn, less] at hd
          split at hd
          · cases hd
          · rw [shim_cons] at hd
            split at hd
            · cases hd
              exact ⟨[_], rfl, backed_char hc⟩
            · cases hd
          · cases hd
  have hjest : ∀ (daf : List Char) (i : Nat), Backed 38 35 (daf.map Char.toNat) →
      Takes (Parted 60 33) (Backed 38 35) (cold i (jest daf)) :=
    fun daf i h => joins.cook (takes_jest h) _
  refine takes_poses ?_
  simp only [List.forall_mem_cons]
  refine ⟨(hraw.less gar).less gal, hjest _ _ ?_, hjest _ _ ?_, hjest _ _ ?_, hjest _ _ ?_,
    hjest _ _ ?_, nofun⟩ <;> simp [Backed]

theorem takes_name : Takes (Parted 60 33) (Backed 38 35) name := by
  have hletter : Takes (Parted 60 33) (Backed 38 35) (pose cab alf) :=
    (takes_just (by decide)).pose
      ((takes_shim fun i h _ => (Nat.lt_of_lt_of_le (show 38 < 97 by decide) h).ne').pose
        (takes_shim fun i h _ => (Nat.lt_of_lt_of_le (show 38 < 65 by decide) h).ne'))
  have hinner : Takes (Parted 60 33) (Backed 38 35) (pose cab (pose dot alp)) := by
    intro s v t _ hd
    cases s with
    | nil => cases hd
    | cons c s =>
        rw [alp_item] at hd
        split at hd
        · next hc =>
            have := hc.bounds
            cases hd
            exact ⟨[_], rfl, backed_char (by omega)⟩
        · cases hd
  have hchx : Takes (Parted 60 33) (Backed 38 35) chx :=
    joins.cook (joins.cons hletter (joins.star hinner)) _
  exact (joins.cook (joins.plug (joins.sfix hchx (takes_just (by decide))) hchx) _).pose
    (joins.cook hchx _)

theorem takes_attr : Takes (Parted 60 33) (Backed 38 35) attr := by
  have hquoted : ∀ q, q ≠ 38 → Takes (Parted 60 33) (Backed 38 35)
      (ifix (just q) (just q) (star (less (just q) escp))) := fun q hq =>
    joins.pfix (takes_just hq) (joins.sfix (joins.star (takes_escp.less _)) (takes_just hq))
  exact joins.star (joins.pfix (joins.cons takes_whit (joins.star takes_whit))
    (joins.plug takes_name (joins.pfix (takes_just (by decide))
      ((hquoted 34 (by decide)).pose (hquoted 39 (by decide))))))

theorem takes_head : Takes (Parted 60 33) (Backed 38 35) head :=
  joins.pfix (takes_just (by decide)) (joins.sfix
    (joins.cook (joins.plug takes_name takes_attr) _) (takes_just (by decide)))

theorem takes_empt : Takes (Parted 60 33) (Backed 38 35) empt :=
  joins.pfix (takes_just (by decide)) (joins.sfix
    (joins.cook (joins.plug (joins.plug takes_name takes_attr)
      (joins.cook (joins.star takes_whit) _)) _)
    (joins.plug (joins.stun (takes_just (by decide)) 0 1) (takes_jest (by simp [Backed]))))

theorem takes_tail : Takes (Parted 60 33) (Backed 38 35) tail :=
  joins.pfix (takes_jest (by simp [Backed])) (joins.sfix takes_name (takes_just (by decide)))

theorem takes_chrd : Takes (Parted 60 33) (Backed 38 35) chrd := by
  have hchar : Takes (Parted 60 33) (Backed 38 35) (less soq (less doq (pose (just 10) escp))) :=
    (((takes_just (by decide)).pose takes_escp).less doq).less soq
  exact joins.cook (joins.cons hchar (joins.star hchar)) _

theorem takes_apexAt (n : Nat) : Takes (Parted 60 33) (Backed 38 35) (apexAt n) := by
  induction n with
  | zero => exact nofun
  | succ n ih =>
      have hkids := joins.more (joins.star takes_comt) (ih.pose takes_chrd)
      have hwhole : Takes (Parted 60 33) (Backed 38 35) (whole (apexAt n)) :=
        joins.sear (joins.plug takes_head (joins.plug hkids takes_tail)) _
      exact joins.pfix takes_spa (joins.sfix (hwhole.pose takes_empt) takes_spa)

end takes

/-! ### The round trip -/

section trip

variable {k : Manx} {s : Tape}

theorem Accepted.not_mem {n : Mane} (h : Accepted n) : 60 ∉ xmln n := by
  obtain ⟨c, u, hn, hc, hu⟩ := h.letter
  intro hmem
  rw [hn] at hmem
  rcases List.mem_cons.mp hmem with rfl | hmem
  · exact absurd hc (by decide)
  · rcases hu 60 hmem with h60 | h60
    · exact absurd h60 (by decide)
    · cases h60

theorem xmleChar_not_mem (c : Nat) : 60 ∉ xmleChar c := by
  unfold xmleChar
  split_ifs with h1 h2 h3 h4 h5
  · decide
  · decide
  · decide
  · decide
  · decide
  · simpa using Ne.symm h4

theorem attrText_not_mem {x : Mane × Tape} (h : Accepted x.1) : 60 ∉ attrText x := by
  have hn := h.not_mem
  have hv : 60 ∉ x.2.flatMap xmleChar := by
    intro hmem
    obtain ⟨c, -, hc⟩ := List.mem_flatMap.mp hmem
    exact xmleChar_not_mem c hc
  simp [attrText, hn] at hv ⊢
  exact hv

/-- There is no `<!` in what is printed. -/
theorem parted_shown (h : Node k) (hs : Parted 60 33 s) : Parted 60 33 (shown k ++ s) := by
  induction h generalizing s with
  | @text v hne hv hfirst hlast =>
      rw [shown_text]
      refine parted_append (fun hmem => ?_) hs
      obtain ⟨c, -, hc⟩ := List.mem_flatMap.mp hmem
      exact xmleChar_not_mem c hc
  | @elem g c hname hplain hattr hapart hkids ih =>
      have hclose : Parted 60 33 (60 :: 47 :: (xmln g.n ++ 62 :: s)) :=
        ⟨by simp, ⟨nofun, parted_append hname.not_mem ⟨nofun, hs⟩⟩⟩
      have hall : ∀ l : List Manx, (∀ k ∈ l, k ∈ c) →
          Parted 60 33 (l.flatMap shown ++ 60 :: 47 :: (xmln g.n ++ 62 :: s)) := by
        intro l
        induction l with
        | nil => exact fun _ => hclose
        | cons k l ihl =>
            intro hl
            rw [List.flatMap_cons, List.append_assoc]
            exact ih k (hl k List.mem_cons_self)
              (ihl fun k' hk' => hl k' (List.mem_cons_of_mem k hk'))
      have hattrs : 60 ∉ g.a.flatMap attrText := by
        intro hmem
        obtain ⟨x, hx, h60⟩ := List.mem_flatMap.mp hmem
        exact attrText_not_mem (hattr x hx).1 h60
      have htext : shown (.node g c) ++ s = 60 :: (xmln g.n ++ (g.a.flatMap attrText ++
          62 :: (c.flatMap shown ++ 60 :: 47 :: (xmln g.n ++ 62 :: s)))) := by
        rw [shown_elem hname hplain hkids]
        simp
      rw [htext]
      refine ⟨fun _ => ?_, parted_append hname.not_mem
        (parted_append hattrs ⟨nofun, hall c fun k hk => hk⟩)⟩
      obtain ⟨d, u, hn, hd, -⟩ := hname.letter
      have := hd.bounds
      rw [hn]
      simp
      omega

theorem soq_not_mem {v : Tape} (h : Parted 38 35 (v.flatMap xmleChar)) : 39 ∉ v := by
  intro hmem
  have hsoq := parted_flatMap h 39 hmem
  exact absurd rfl (hsoq.1 rfl)

/-- Where `&#` is not printed there was no single quote. -/
theorem noSoq_of_parted (h : Node k) (hs : Parted 38 35 (shown k)) : NoSoq k := by
  induction h with
  | @text v hne hv hfirst hlast =>
      rw [shown_text] at hs
      refine .node (fun x hx => ?_) nofun
      obtain rfl := List.mem_singleton.mp hx
      exact soq_not_mem hs
  | @elem g c hname hplain hattr hapart hkids ih =>
      rw [shown_elem hname hplain hkids] at hs
      have hattrs : Parted 38 35 (g.a.flatMap attrText) := (Parted.left hs.2).right
      have hbody : Parted 38 35 (c.flatMap shown) := (Parted.left (Parted.left hs.2)).2.right
      refine .node (fun x hx => ?_) fun k hk => ih k hk (parted_flatMap hbody k hk)
      have hx := parted_flatMap hattrs x hx
      exact soq_not_mem (Parted.left hx.2).2.2.right

theorem noSoq_of_apex (h : Tree k) (hd : apex (xmlt false k []) = .done k []) : NoSoq k := by
  have hbang := parted_shown h.1 (s := []) trivial
  rw [List.append_nil] at hbang
  obtain ⟨u, hu, hback⟩ := takes_apexAt _ hbang hd
  rw [List.append_nil] at hu
  rw [← hu] at hback
  exact noSoq_of_parted h.1 hback.parted

/-- A tree comes back whole from what is printed exactly if it has no single quote. -/
theorem apex_xmlt (tree : Manx) (h : Tree tree) :
    apex (xmlt false tree []) = .done tree [] ↔ NoSoq tree := by
  refine ⟨noSoq_of_apex h, fun hsoq => ?_⟩
  have hfollow : Follow tree [] := ⟨rfl, fun ht => absurd ht h.2⟩
  have hread := (item_read h.1 hsoq (Nat.le_succ _) hfollow (Nat.succ_pos _)).1 h.2
  rwa [List.append_nil] at hread

/-- The element `a` with one text in it. -/
def around (v : Tape) : Manx := .node ⟨.term 97, []⟩ [.text v]

theorem tree_around {c : Nat} (hc : 32 < c ∧ c ≤ 126) : Tree (around [c]) := by
  have hname : Accepted (.term 97) := by
    have hrap : rap 3 [97] = 97 := by
      rw [rap_bytes (by decide)]
      rfl
    have hword := accepted_word (t := [97]) ⟨97, [], rfl, by decide, nofun⟩
    rwa [hrap] at hword
  have hne : c ≠ 32 := by omega
  have htext : Node (.text [c]) := by
    refine .text (List.cons_ne_nil c []) (fun d hd => ?_) (by simpa using hne) (by simpa using hne)
    obtain rfl := List.mem_singleton.mp hd
    omega
  refine ⟨.elem hname (by decide) nofun (List.isChain_singleton _) (fun k hk => ?_), ?_⟩
  · obtain rfl := List.mem_singleton.mp hk
    exact htext
  · rintro ⟨v, hv⟩
    cases hv

theorem apex_xmlt_letter :
    apex (xmlt false (around [98]) []) = .done (around [98]) [] ↔ NoSoq (around [98]) :=
  apex_xmlt (around [98]) (tree_around (by decide))

/-- A single quote is printed as an entity that is not read. -/
theorem quote_lost : ¬∀ tree, Tree tree → apex (xmlt false tree []) = .done tree [] := by
  intro h
  have htree := tree_around (c := 39) (by decide)
  cases noSoq_of_apex htree (h _ htree) with
  | node _ hkids =>
      cases hkids (.text [39]) List.mem_cons_self with
      | node hattr _ => exact hattr (.term 0, [39]) List.mem_cons_self List.mem_cons_self

/-! ### The bound on the depth -/

section runs

variable {m : Nat}

theorem runs_name : Runs m 1 name := by
  have hletter : ∀ m, Runs m 1 (pose cab alf) := fun m =>
    (runs_just _).pose ((runs_shim _ _).pose (runs_shim _ _))
  have hinner : ∀ m, Runs m 1 (pose cab (pose dot alp)) := fun m =>
    (runs_just _).pose ((runs_just _).pose ((runs_shim _ _).pose
      ((runs_shim _ _).pose ((runs_shim _ _).pose (runs_just _)))))
  have hchx : ∀ m, Runs m 1 chx := fun m => (runs_cons (hletter _) (hinner _).star).cook _
  exact ((((hchx m).sfix (runs_just _).any).plug (hchx _).any).cook _).pose ((hchx m).cook _)

theorem runs_whit : Runs m 1 whit := runs_item _

theorem runs_prn : Runs m 1 prn := (runs_just _).less (runs_shim _ _)

theorem runs_comt : Runs m 1 comt :=
  runs_ifix (runs_jest _ _) (fun _ => ((runs_jest _ _).less (runs_whit.pose runs_prn)).star)
    fun _ => (runs_jest _ _).any

theorem runs_spa : Runs m 0 (star spa) :=
  ((runs_cold _ runs_comt).pose (runs_cold _ runs_whit)).star

theorem runs_escp : Runs m 1 escp := by
  refine runs_poses ?_
  simp only [List.forall_mem_cons, runs_cold, runs_jest, true_and]
  exact ⟨(runs_just _).less ((runs_just _).less ((runs_just _).less runs_prn)),
    fun _ h => absurd h List.not_mem_nil⟩

theorem runs_attr : Runs m 0 attr := by
  have hquoted : ∀ m q, Runs m 1 (ifix (just q) (just q) (star (less (just q) escp))) := fun m q =>
    runs_ifix (runs_just _) (fun _ => ((runs_just _).less runs_escp).star)
      fun _ => (runs_just _).any
  exact (runs_pfix (runs_cons runs_whit runs_whit.star) (runs_plug runs_name
    (runs_pfix (runs_just _) ((hquoted _ _).pose (hquoted _ _)).any).any).any).star

theorem runs_chrd : Runs m 1 chrd := by
  have hchar : ∀ m, Runs m 1 (less soq (less doq (pose (just 10) escp))) := fun m =>
    (runs_just _).less ((runs_just _).less ((runs_just _).pose runs_escp))
  exact (runs_cons (hchar _) (hchar _).star).cook _

theorem runs_head : Runs m 1 head :=
  runs_ifix (runs_just _) (fun _ => ((runs_plug runs_name runs_attr).cook _).any)
    fun _ => (runs_just _).any

theorem runs_empt : Runs m 1 empt :=
  runs_ifix (runs_just _)
    (fun _ => (((runs_plug runs_name runs_attr).plug (runs_cold _ runs_whit.star)).cook _).any)
    fun _ => ((runs_just _).stun (Nat.zero_le 1)).plug (runs_jest _ _).any

theorem runs_tail : Runs m 1 tail :=
  runs_ifix (runs_jest _ _) (fun _ => runs_name.any) fun _ => (runs_just _).any

theorem runs_apexAt {n : Nat} (h : m < n) : Runs m 1 (apexAt n) := by
  induction n generalizing m with
  | zero => exact absurd h (Nat.not_lt_zero m)
  | succ n ih =>
      have hwhole : Runs m 1 (whole (apexAt n)) := by
        refine Runs.sear ?_ fun _ => nofun
        refine runs_head.bind (j := 0) fun hm v => ?_
        have hitem : Runs (m - 1) 1 (pose (apexAt n) chrd) := (ih (by omega)).pose runs_chrd
        exact ((runs_comt.star.more hitem).plug runs_tail.any).cook _
      have hapex := runs_spa.pfix (m := m) ((hwhole.pose runs_empt).sfix runs_spa)
      rwa [Nat.zero_add] at hapex

/-- The bound on the depth is never reached. -/
theorem apex_total (tub : Tape) : apex tub ≠ .crash :=
  (runs_apexAt (Nat.lt_succ_self tub.length) tub (Nat.le_refl _)).1

end runs

end trip

end Vere.Zuse
