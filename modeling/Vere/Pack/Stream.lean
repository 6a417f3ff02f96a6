import Vere.Pack.Code

/-!
# Vere.Pack.Stream

The packed format itself, free of any machine: a noun is *emitted* as a list of
pieces, each a width and a value, and *decoded* from a number by position.

Two packers implement the format, in Hoon and in C. They differ in how they
keep the dictionary (a treap, a table of hash buckets) and in how they put the
pieces together; here a dictionary is a function and the pieces stay apart. Both
are shown elsewhere to follow `emit` and `decode` step by step, so the round
trip is proved once, in `decode_emit`.
-/

namespace Vere.Pack

open Vere.Lib Vere.Hoon

/-- Positions of the nouns emitted so far. -/
abbrev Dict := Noun → Option Nat

/-- The piece of an atom written out: a zero bit and the code. -/
def flat (x : Nat) : Nat × Nat := (1 + (mat x).1, 2 ^ 1 * (mat x).2)

/-- The piece of a back-reference: two set bits and the code of a position. -/
def ptr (c : Nat) : Nat × Nat := (2 + (mat c).1, 3 + 2 ^ 2 * (mat c).2)

/-- What emitting a noun adds to the stream, and the dictionary after it. -/
structure Emit where
  pieces : List (Nat × Nat)
  dict : Dict

/-- Emit a noun at position `b`. A noun seen before becomes a back-reference,
except an atom that is no longer than its own position. -/
def emit (a : Noun) (b : Nat) (m : Dict) : Emit :=
  match m a with
  | none =>
      match a with
      | .atom x => ⟨[flat x], Function.update m a (some b)⟩
      | .cell h t =>
          let d := emit h (2 + b) (Function.update m a (some b))
          let e := emit t (2 + b + width d.pieces) d.dict
          ⟨(2, 1) :: (d.pieces ++ e.pieces), e.dict⟩
  | some c =>
      match a with
      | .atom x => if x.size ≤ c.size then ⟨[flat x], m⟩ else ⟨[ptr c], m⟩
      | .cell _ _ => ⟨[ptr c], m⟩

/-- What decoding at a position consumes and produces, and the nouns decoded so
far by position. -/
structure Decoded where
  len : Nat
  noun : Noun
  seen : Noun → Option Noun

theorem decode_lt {s b c : Nat} (h : ¬field s b 1 = 0) (hc : b < c) :
    s.size - c < s.size - b := by
  have hb := lt_size_of_field_ne_zero h
  omega

/-- Decode the noun at position `b`. -/
def decode (s b : Nat) (m : Noun → Option Noun) : Option Decoded :=
  if h : field s b 1 = 0 then do
    let c ← rub (b + 1) s
    return ⟨c.1 + 1, .atom c.2, Function.update m (.atom b) (some (.atom c.2))⟩
  else if field s (b + 1) 1 = 0 then do
    let u ← decode s (2 + b) m
    let v ← decode s (u.len + (2 + b)) u.seen
    let w := Noun.cell u.noun v.noun
    return ⟨2 + (u.len + v.len), w, Function.update v.seen (.atom b) (some w)⟩
  else do
    let d ← rub (2 + b) s
    let w ← m (.atom d.2)
    return ⟨2 + d.1, w, m⟩
termination_by s.size - b
decreasing_by
  · exact decode_lt h (by omega)
  · exact decode_lt h (by omega)

/-! ### Widths and values of the pieces -/

theorem flat_fst_pos (x : Nat) : 0 < (flat x).1 := Nat.add_pos_left Nat.one_pos _

theorem size_flat (x : Nat) : (flat x).2.size = (flat x).1 := by
  rw [flat]
  simp only
  rw [size_two_pow_mul 1 (mat_snd_pos x), size_mat]

theorem size_ptr (c : Nat) : (ptr c).2.size = (ptr c).1 := by
  rw [ptr]
  simp only
  rw [size_add_mul (by decide) (mat_snd_pos c), size_mat]

/-- One piece that fills its width is what it spells. -/
theorem joined_single {p q : Nat} (h : q.size = p) : joined [(p, q)] = q := by
  have hq : q < 2 ^ p := by
    rw [← h]
    exact Nat.lt_size_self q
  simp only [joined, Nat.mod_eq_of_lt hq, Nat.mul_zero, Nat.add_zero]

theorem joined_flat (x : Nat) : joined [flat x] = (flat x).2 := joined_single (size_flat x)

theorem joined_ptr (c : Nat) : joined [ptr c] = (ptr c).2 := joined_single (size_ptr c)

/-- The tag of a cell below its two parts. -/
theorem joined_pair (k : List (Nat × Nat)) : joined ((2, 1) :: k) = 1 + 2 ^ 2 * joined k := rfl

@[simp] theorem width_single (x : Nat × Nat) : width [x] = x.1 := by
  rw [width_cons, width_nil, Nat.add_zero]

/-- A stream that is not empty and whose top bit is set. -/
def Full (l : List (Nat × Nat)) : Prop := 0 < joined l ∧ (joined l).size = width l

theorem full_flat (x : Nat) : Full [flat x] := by
  refine ⟨?_, ?_⟩
  · rw [joined_flat]
    exact Nat.mul_pos (by decide) (mat_snd_pos x)
  · rw [joined_flat, size_flat, width_single]

theorem full_ptr (c : Nat) : Full [ptr c] := by
  refine ⟨?_, ?_⟩
  · rw [joined_ptr]
    exact Nat.add_pos_left (by decide) _
  · rw [joined_ptr, size_ptr, width_single]

/-- Anything below a full stream is full with it. -/
theorem Full.append_left {k : List (Nat × Nat)} (hk : Full k) (l : List (Nat × Nat)) :
    Full (l ++ k) := by
  obtain ⟨hpos, hsize⟩ := hk
  refine ⟨?_, ?_⟩
  · rw [joined_append]
    exact Nat.add_pos_right _ (Nat.mul_pos (Nat.two_pow_pos _) hpos)
  · rw [joined_append, size_add_mul (joined_lt l) hpos, hsize, width_append]

/-! ### Cases of an emission -/

theorem emit_atom_new {x b : Nat} {m : Dict} (h : m (.atom x) = none) :
    emit (.atom x) b m = ⟨[flat x], Function.update m (.atom x) (some b)⟩ := by
  rw [emit, h]

/-- The emission of the head of a new cell. -/
def emitHead (h t : Noun) (b : Nat) (m : Dict) : Emit :=
  emit h (2 + b) (Function.update m (.cell h t) (some b))

/-- The emission of the tail of a new cell. -/
def emitTail (h t : Noun) (b : Nat) (m : Dict) : Emit :=
  emit t (2 + b + width (emitHead h t b m).pieces) (emitHead h t b m).dict

theorem emit_cell_new {h t : Noun} {b : Nat} {m : Dict} (hm : m (.cell h t) = none) :
    emit (.cell h t) b m =
      ⟨(2, 1) :: ((emitHead h t b m).pieces ++ (emitTail h t b m).pieces),
        (emitTail h t b m).dict⟩ := by
  rw [emit, hm]
  rfl

/-- A noun seen before is one piece, and the dictionary stays. -/
theorem emit_seen {a : Noun} {b c : Nat} {m : Dict} (h : m a = some c) :
    emit a b m = ⟨[ptr c], m⟩ ∨ ∃ x, a = .atom x ∧ emit a b m = ⟨[flat x], m⟩ := by
  cases a with
  | atom x =>
      rw [emit, h]
      simp only
      by_cases hx : x.size ≤ c.size
      · exact .inr ⟨x, rfl, if_pos hx⟩
      · exact .inl (if_neg hx)
  | cell y z =>
      left
      rw [emit, h]

/-- Every emission is full. -/
theorem full_emit (a : Noun) (b : Nat) (m : Dict) : Full (emit a b m).pieces := by
  induction a generalizing b m with
  | atom x =>
      cases hm : m (.atom x) with
      | none =>
          rw [emit_atom_new hm]
          exact full_flat x
      | some c =>
          rcases emit_seen hm with he | ⟨y, -, he⟩
          · rw [he]
            exact full_ptr c
          · rw [he]
            exact full_flat y
  | cell h t _ iht =>
      cases hm : m (.cell h t) with
      | none =>
          rw [emit_cell_new hm]
          simp only
          rw [← List.cons_append]
          exact (iht _ _).append_left _
      | some c =>
          rcases emit_seen hm with he | ⟨y, -, he⟩
          · rw [he]
            exact full_ptr c
          · rw [he]
            exact full_flat y

theorem width_emit_pos (a : Noun) (b : Nat) (m : Dict) : 0 < width (emit a b m).pieces := by
  obtain ⟨hpos, hsize⟩ := full_emit a b m
  rw [← hsize]
  exact Nat.size_pos.mpr hpos

/-! ### The dictionary along an emission -/

theorem emit_dict_seen {a : Noun} {b c : Nat} {m : Dict} (h : m a = some c) :
    (emit a b m).dict = m := by
  rcases emit_seen h with he | ⟨x, -, he⟩
  · rw [he]
  · rw [he]

theorem ne_of_entry {m : Dict} {k a : Noun} {pos : Nat} (hk : m k = some pos)
    (ha : m a = none) : k ≠ a := by
  rintro rfl
  rw [ha] at hk
  cases hk

/-- Entries are never overwritten. -/
theorem emit_mono {k : Noun} {pos : Nat} (a : Noun) (b : Nat) (m : Dict)
    (hk : m k = some pos) : (emit a b m).dict k = some pos := by
  induction a generalizing b m with
  | atom x =>
      cases hm : m (.atom x) with
      | none =>
          rw [emit_atom_new hm]
          exact (Function.update_of_ne (ne_of_entry hk hm) _ _).trans hk
      | some c =>
          rw [emit_dict_seen hm]
          exact hk
  | cell h t ihh iht =>
      cases hm : m (.cell h t) with
      | none =>
          rw [emit_cell_new hm]
          apply iht
          apply ihh
          exact (Function.update_of_ne (ne_of_entry hk hm) _ _).trans hk
      | some c =>
          rw [emit_dict_seen hm]
          exact hk

/-- An entry of an updated dictionary is the new one or an old one. -/
theorem update_entry {m : Dict} {k a : Noun} {pos b : Nat}
    (h : Function.update m a (some b) k = some pos) : (k = a ∧ pos = b) ∨ m k = some pos := by
  by_cases hka : k = a
  · subst hka
    rw [Function.update_self] at h
    exact .inl ⟨rfl, (Option.some.inj h).symm⟩
  · rw [Function.update_of_ne hka] at h
    exact .inr h

/-- What an emission enters: the noun itself at the position of the emission,
its parts between there and the end. -/
theorem emit_new {k : Noun} {pos : Nat} (a : Noun) (b : Nat) (m : Dict)
    (hk : (emit a b m).dict k = some pos) :
    m k = some pos ∨ (k = a ∧ pos = b) ∨
      (b < pos ∧ pos < b + width (emit a b m).pieces) := by
  induction a generalizing b m with
  | atom x =>
      cases hm : m (.atom x) with
      | none =>
          rw [emit_atom_new hm] at hk
          rcases update_entry hk with h | h
          · exact .inr (.inl h)
          · exact .inl h
      | some c =>
          rw [emit_dict_seen hm] at hk
          exact .inl hk
  | cell h t ihh iht =>
      cases hm : m (.cell h t) with
      | none =>
          rw [emit_cell_new hm] at hk ⊢
          have hpos := width_emit_pos t (2 + b + width (emitHead h t b m).pieces)
            (emitHead h t b m).dict
          simp only [width_cons, width_append, emitTail]
          rcases iht _ _ hk with hd | ⟨-, rfl⟩ | ⟨hlo, hhi⟩
          · rcases ihh _ _ hd with hu | ⟨-, rfl⟩ | ⟨hlo, hhi⟩
            · rcases update_entry hu with h | h
              · exact .inr (.inl h)
              · exact .inl h
            · exact .inr (.inr ⟨by omega, by omega⟩)
            · simp only [emitHead]
              exact .inr (.inr ⟨by omega, by omega⟩)
          · exact .inr (.inr ⟨by omega, by omega⟩)
          · exact .inr (.inr ⟨by omega, by omega⟩)
      | some c =>
          rw [emit_dict_seen hm] at hk
          exact .inl hk

/-! ### Decoding what was emitted -/

/-- The invariant between the two dictionaries while a noun is being decoded.
`open_` holds the cells around it: emitting enters a cell before its parts,
decoding after them, so their entries are still missing on the decoding side. -/
structure Linked (m : Dict) (seen : Noun → Option Noun) (open_ : Noun → Prop) (b : Nat) :
    Prop where
  /-- A position entered is decoded, unless its noun is still open. -/
  entry : ∀ k pos, m k = some pos → seen (.atom pos) = some k ∨ open_ k
  /-- Positions entered lie below the cursor. -/
  below : ∀ k pos, m k = some pos → pos < b

/-- The last bits of a list of pieces after a first one. -/
theorem field_cons {s b p q : Nat} {l : List (Nat × Nat)} (hq : q < 2 ^ p)
    (h : field s b (width ((p, q) :: l)) = joined ((p, q) :: l)) :
    field s b p = q ∧ field s (b + p) (width l) = joined l := by
  rw [width_cons, joined, Nat.mod_eq_of_lt hq] at h
  exact field_split h hq

theorem field_append {s b : Nat} {l k : List (Nat × Nat)}
    (h : field s b (width (l ++ k)) = joined (l ++ k)) :
    field s b (width l) = joined l ∧ field s (b + width l) (width k) = joined k := by
  rw [width_append, joined_append] at h
  exact field_split h (joined_lt l)

/-- Decoding where an atom is written out. -/
theorem decode_flat {s b x : Nat} (m : Noun → Option Noun)
    (h : field s b (width [flat x]) = joined [flat x]) :
    decode s b m =
      some ⟨width [flat x], .atom x, Function.update m (.atom b) (some (.atom x))⟩ := by
  rw [joined_flat, width_single, flat] at h
  simp only at h
  have h' : field s b (1 + (mat x).1) = 0 + 2 ^ 1 * (mat x).2 := by rw [h, Nat.zero_add]
  obtain ⟨hbit, hcode⟩ := field_split h' (by decide)
  rw [decode, dif_pos hbit, rub_of_field hcode, width_single, flat, Nat.add_comm 1]
  rfl

/-- Decoding where a back-reference stands. -/
theorem decode_ptr {s b c : Nat} {n : Noun} {m : Noun → Option Noun}
    (h : field s b (width [ptr c]) = joined [ptr c]) (hm : m (.atom c) = some n) :
    decode s b m = some ⟨width [ptr c], n, m⟩ := by
  rw [joined_ptr, width_single, ptr] at h
  simp only at h
  obtain ⟨htag, hcode⟩ := field_split h (by decide)
  have htag' : field s b (1 + 1) = 1 + 2 ^ 1 * 1 := htag
  obtain ⟨hb0, hb1⟩ := field_split htag' (by decide)
  have h0 : ¬field s b 1 = 0 := by
    rw [hb0]
    exact Nat.one_ne_zero
  have h1 : ¬field s (b + 1) 1 = 0 := by
    rw [hb1]
    exact Nat.one_ne_zero
  rw [Nat.add_comm b 2] at hcode
  rw [decode, dif_neg h0, if_neg h1, rub_of_field hcode, width_single, ptr]
  simp only [Option.bind_eq_bind, Option.bind_some, hm, Option.pure_def]

/-- Decoding where a cell stands, from the decoding of its parts. -/
theorem decode_pair {s b : Nat} {m : Noun → Option Noun} {u v : Decoded}
    (htag : field s b 2 = 1) (hu : decode s (2 + b) m = some u)
    (hv : decode s (u.len + (2 + b)) u.seen = some v) :
    decode s b m = some ⟨2 + (u.len + v.len), .cell u.noun v.noun,
      Function.update v.seen (.atom b) (some (.cell u.noun v.noun))⟩ := by
  have htag' : field s b (1 + 1) = 1 + 2 ^ 1 * 0 := htag
  obtain ⟨hb0, hb1⟩ := field_split htag' (by decide)
  have h0 : ¬field s b 1 = 0 := by
    rw [hb0]
    exact Nat.one_ne_zero
  rw [decode, dif_neg h0, if_pos hb1, hu]
  simp only [Option.bind_eq_bind, Option.bind_some, hv, Option.pure_def]

/-- Entering a noun at the cursor opens it. -/
theorem Linked.enter {m : Dict} {seen : Noun → Option Noun} {open_ : Noun → Prop} {b b' : Nat}
    (h : Linked m seen open_ b) (n : Noun) (hb : b < b') :
    Linked (Function.update m n (some b)) seen (fun k => open_ k ∨ k = n) b' := by
  refine ⟨?_, ?_⟩
  · intro k pos hk
    rcases update_entry hk with ⟨rfl, -⟩ | hk
    · exact .inr (.inr rfl)
    · rcases h.entry k pos hk with he | he
      · exact .inl he
      · exact .inr (.inl he)
  · intro k pos hk
    rcases update_entry hk with ⟨-, rfl⟩ | hk
    · exact hb
    · exact Nat.lt_trans (h.below k pos hk) hb

/-- Recording an open noun at its position closes it. -/
theorem Linked.close {m : Dict} {seen : Noun → Option Noun} {open_ : Noun → Prop} {b b' : Nat}
    {n : Noun} (h : Linked m seen (fun k => open_ k ∨ k = n) b') (hn : m n = some b)
    (huniq : ∀ k, m k = some b → k = n) :
    Linked m (Function.update seen (.atom b) (some n)) open_ b' := by
  refine ⟨?_, h.below⟩
  intro k pos hk
  by_cases hpos : pos = b
  · subst hpos
    rw [huniq k hk, Function.update_self]
    exact .inl rfl
  · have hne : Noun.atom pos ≠ .atom b := fun e => hpos (Noun.atom.inj e)
    rw [Function.update_of_ne hne]
    rcases h.entry k pos hk with he | he | rfl
    · exact .inl he
    · exact .inr he
    · rw [hn] at hk
      exact absurd (Option.some.inj hk).symm hpos

/-- Recording anything at the cursor disturbs no entry. -/
theorem Linked.record {m : Dict} {seen : Noun → Option Noun} {open_ : Noun → Prop} {b b' : Nat}
    (h : Linked m seen open_ b) (v : Option Noun) (hb : b ≤ b') :
    Linked m (Function.update seen (.atom b) v) open_ b' := by
  refine ⟨?_, ?_⟩
  · intro k pos hk
    have hne : Noun.atom pos ≠ .atom b := by
      intro e
      exact Nat.ne_of_lt (h.below k pos hk) (Noun.atom.inj e)
    rw [Function.update_of_ne hne]
    exact h.entry k pos hk
  · intro k pos hk
    exact Nat.lt_of_lt_of_le (h.below k pos hk) hb

theorem Linked.advance {m : Dict} {seen : Noun → Option Noun} {open_ : Noun → Prop} {b b' : Nat}
    (h : Linked m seen open_ b) (hb : b ≤ b') : Linked m seen open_ b' :=
  ⟨h.entry, fun k pos hk => Nat.lt_of_lt_of_le (h.below k pos hk) hb⟩

/-- An entry made below the cursor is not at the cursor. -/
theorem Linked.update_uniq {m : Dict} {seen : Noun → Option Noun} {open_ : Noun → Prop}
    {b : Nat} (h : Linked m seen open_ b) (n k : Noun)
    (hk : Function.update m n (some b) k = some b) : k = n := by
  rcases update_entry hk with ⟨rfl, -⟩ | hk
  · rfl
  · exact absurd (h.below k b hk) (Nat.lt_irrefl b)

/-- Decoding a noun that had been emitted before. -/
theorem decode_emit_seen {s b c : Nat} {n : Noun} {m : Dict} {seen : Noun → Option Noun}
    {open_ : Noun → Prop} (hm : m n = some c)
    (hs : field s b (width (emit n b m).pieces) = joined (emit n b m).pieces)
    (hl : Linked m seen open_ b) (ho : ∀ k, open_ k → n.size < k.size) :
    ∃ seen', decode s b seen = some ⟨width (emit n b m).pieces, n, seen'⟩ ∧
      Linked (emit n b m).dict seen' open_ (b + width (emit n b m).pieces) := by
  rw [emit_dict_seen hm]
  rcases emit_seen hm with he | ⟨x, rfl, he⟩
  · rw [he] at hs ⊢
    -- the noun is not one of the cells around itself
    have hseen : seen (.atom c) = some n := by
      rcases hl.entry n c hm with h | h
      · exact h
      · exact absurd (ho n h) (Nat.lt_irrefl _)
    exact ⟨seen, decode_ptr hs hseen, hl.advance (Nat.le_add_right _ _)⟩
  · rw [he] at hs ⊢
    exact ⟨_, decode_flat seen hs, hl.record _ (Nat.le_add_right _ _)⟩

/-- Decoding at the position of an emission gives the noun back and consumes
exactly what was emitted, whatever stands before and after it. -/
theorem decode_emit (s : Nat) (n : Noun) :
    ∀ (b : Nat) (m : Dict) (seen : Noun → Option Noun) (open_ : Noun → Prop),
      field s b (width (emit n b m).pieces) = joined (emit n b m).pieces →
      Linked m seen open_ b → (∀ k, open_ k → n.size < k.size) →
      ∃ seen', decode s b seen = some ⟨width (emit n b m).pieces, n, seen'⟩ ∧
        Linked (emit n b m).dict seen' open_ (b + width (emit n b m).pieces) := by
  induction n with
  | atom x =>
      intro b m seen open_ hs hl ho
      cases hm : m (.atom x) with
      | some c => exact decode_emit_seen hm hs hl ho
      | none =>
          rw [emit_atom_new hm] at hs ⊢
          refine ⟨_, decode_flat seen hs, ?_⟩
          have hlt : b < b + width [flat x] := by
            rw [width_single]
            exact Nat.lt_add_of_pos_right (flat_fst_pos x)
          exact (hl.enter (.atom x) hlt).close (Function.update_self _ _ _)
            (hl.update_uniq (.atom x))
  | cell h t ihh iht =>
      intro b m seen open_ hs hl ho
      cases hm : m (.cell h t) with
      | some c => exact decode_emit_seen hm hs hl ho
      | none =>
          rw [emit_cell_new hm] at hs ⊢
          simp only at hs ⊢
          obtain ⟨htag, hparts⟩ := field_cons (by decide) hs
          obtain ⟨hhead, htail⟩ := field_append hparts
          rw [Nat.add_comm b 2] at hhead htail
          -- both parts are smaller than every cell that is open around them
          have ho1 : ∀ k, (open_ k ∨ k = .cell h t) → h.size < k.size := by
            rintro k (hk | rfl)
            · exact Nat.lt_trans (Noun.size_head_lt h t) (ho k hk)
            · exact Noun.size_head_lt h t
          have ho2 : ∀ k, (open_ k ∨ k = .cell h t) → t.size < k.size := by
            rintro k (hk | rfl)
            · exact Nat.lt_trans (Noun.size_tail_lt h t) (ho k hk)
            · exact Noun.size_tail_lt h t
          obtain ⟨seenU, hu, hlu⟩ := ihh (2 + b) _ seen _ hhead
            (hl.enter (.cell h t) (by omega)) ho1
          obtain ⟨seenV, hv, hlv⟩ := iht _ _ seenU _ htail hlu ho2
          have hv' : decode s (width (emitHead h t b m).pieces + (2 + b)) seenU =
              some ⟨width (emitTail h t b m).pieces, t, seenV⟩ := by
            rw [Nat.add_comm]
            exact hv
          refine ⟨Function.update seenV (.atom b) (some (.cell h t)), ?_, ?_⟩
          · rw [decode_pair htag hu hv', width_cons, width_append]
            rfl
          · have hself : (emitTail h t b m).dict (.cell h t) = some b :=
              emit_mono _ _ _ (emit_mono _ _ _ (Function.update_self _ _ _))
            have huniq : ∀ k, (emitTail h t b m).dict k = some b → k = .cell h t := by
              intro k hk
              rcases emit_new _ _ _ hk with hd | ⟨-, hd⟩ | ⟨hd, -⟩
              · rcases emit_new _ _ _ hd with hu | ⟨-, hu⟩ | ⟨hu, -⟩
                · exact hl.update_uniq _ k hu
                · omega
                · omega
              · omega
              · omega
            have hb' : 2 + b + width (emitHead h t b m).pieces + width (emitTail h t b m).pieces
                = b + width ((2, 1) :: ((emitHead h t b m).pieces ++
                    (emitTail h t b m).pieces)) := by
              simp only [width_cons, width_append]
              omega
            rw [← hb']
            exact Linked.close hlv hself huniq

/-- The whole stream of a noun decodes to the noun. -/
theorem decode_joined_emit (n : Noun) :
    ∃ seen, decode (joined (emit n 0 fun _ => none).pieces) 0 (fun _ => none) =
      some ⟨width (emit n 0 fun _ => none).pieces, n, seen⟩ := by
  have hs := field_self (joined_lt (emit n 0 fun _ => none).pieces)
  have hl : Linked (fun _ => none) (fun _ => none) (fun _ => False) 0 :=
    ⟨fun _ _ h => absurd h (by simp), fun _ _ h => absurd h (by simp)⟩
  obtain ⟨seen, hd, -⟩ := decode_emit _ n 0 _ _ _ hs hl (fun _ h => h.elim)
  exact ⟨seen, hd⟩

end Vere.Pack
