import Vere.Hoon.Bloq
import Vere.Hoon.Digits
import Vere.Hoon.Map
import Vere.Hoon.Wood
import Vere.Lib.Union

/-!
# Vere.Zuse.Json

JSON (`zuse.hoon`, section 3bD): `++poja` reads a tape and `++pojo` prints one.

The printer escapes a newline, a double quote and a backslash in a string and nothing else, and
escapes nothing in a key; the parser takes control characters only behind a backslash. A value is
read back if its strings and keys have no other character that needs one (`valuAt_pojo`).
-/

namespace Vere.Zuse

open Vere.Lib Vere.Lib.Rule Vere.Hoon Glyph

/-- `++json`: normal JSON value. -/
inductive Json
  | null
  | a (p : List Json)
  | b (p : Bool)
  | o (p : Treap Nat Json)
  | n (p : Nat)
  | s (p : Nat)

/-! ### Equality -/

mutual

/-- Two values are the same. -/
def Json.beq : Json → Json → Bool
  | .null, .null => true
  | .a p, .a q => beqList p q
  | .b p, .b q => p == q
  | .o p, .o q => beqTree p q
  | .n p, .n q => p == q
  | .s p, .s q => p == q
  | _, _ => false

def beqList : List Json → List Json → Bool
  | [], [] => true
  | x :: p, y :: q => x.beq y && beqList p q
  | _, _ => false

def beqTree : Treap Nat Json → Treap Nat Json → Bool
  | .nil, .nil => true
  | .node k v l r, .node k' v' l' r' => k == k' && v.beq v' && beqTree l l' && beqTree r r'
  | _, _ => false

end

mutual

theorem Json.beq_iff : ∀ x y : Json, x.beq y = true ↔ x = y
  | .null, y => by cases y <;> simp [Json.beq]
  | .a p, y => by cases y <;> simp [Json.beq, beqList_iff p]
  | .b p, y => by cases y <;> simp [Json.beq]
  | .o p, y => by cases y <;> simp [Json.beq, beqTree_iff p]
  | .n p, y => by cases y <;> simp [Json.beq]
  | .s p, y => by cases y <;> simp [Json.beq]

theorem beqList_iff : ∀ p q : List Json, beqList p q = true ↔ p = q
  | [], q => by cases q <;> simp [beqList]
  | x :: p, q => by cases q <;> simp [beqList, x.beq_iff, beqList_iff p]

theorem beqTree_iff : ∀ p q : Treap Nat Json, beqTree p q = true ↔ p = q
  | .nil, q => by cases q <;> simp [beqTree]
  | .node k v l r, q => by
      cases q <;> simp [beqTree, v.beq_iff, beqTree_iff l, beqTree_iff r, and_assoc]

end

instance : DecidableEq Json := fun x y => decidable_of_iff _ (x.beq_iff y)

/-! ### Objects -/

/-- `++gor` on cords. -/
def gorCord (mug : Noun → Nat) (a b : Nat) : Bool := gor mug (.atom a) (.atom b)

/-- `++vor` on cords. -/
def vorCord (mug : Noun → Nat) (a b : Nat) : Bool := vor mug (.atom a) (.atom b)

/-- `++mo`: make a map. -/
def mo (mug : Noun → Nat) (a : List (Nat × Json)) : Treap Nat Json :=
  a.foldl (fun m x => m.insert (gorCord mug) (vorCord mug) x.1 x.2) .nil

/-! ### Parse JSON -/

namespace Poja

/-- `++spac`: whitespace. -/
def spac : Rule Nat Tape := star (mask [9, 10, 13, ' '])

/-- `++ws`. -/
def ws {α : Type} (sef : Rule Nat α) : Rule Nat α := pfix spac sef

/-- `++twel`: one text after another. -/
def twel (a b : Rule Nat Tape) : Rule Nat Tape := cook (fun x => x.1 ++ x.2) (plug a b)

/-- `++piec`. -/
def piec (bus : Rule Nat Nat) : Rule Nat Tape := cook (fun a => [a]) bus

/-- `++mayb`. -/
def mayb (bus : Rule Nat Tape) : Rule Nat Tape := pose bus (easy [])

/-- `++digs`. -/
def digs : Rule Nat Tape := star (shim '0' '9')

/-- `++expo`: exponent part. -/
def expo : Rule Nat Tape :=
  twel (piec (mask ['e', 'E'])) (twel (mayb (piec (mask ['+', '-']))) digs)

/-- `++frac`: fractional part. -/
def frac : Rule Nat Tape := twel (piec dot) digs

/-- `++numb`: JSON numbers. -/
def numb : Rule Nat Tape :=
  twel (mayb (piec hep))
    (twel (pose (piec (just '0')) (twel (piec (shim '1' '9')) digs)) (twel (mayb frac) (mayb expo)))

/-- `++esca`: escaped character. -/
def esca : Rule Nat Nat :=
  pfix bas
    (poses [doq, fas, soq, bas, cold 8 (just 'b'), cold 9 (just 't'), cold 10 (just 'n'),
      cold 12 (just 'f'), cold 13 (just 'r'), pfix (just 'u') (cook tuft qix)])

/-- `++jcha`: character in string. -/
def jcha : Rule Nat Nat := pose esca (poses [shim 32 33, shim 35 91, shim 93 126, shim 128 255])

/-- `++stri`: JSON strings. -/
def stri : Rule Nat Nat := cook (rap 3) (ifix doq doq (star jcha))

/-- `++bool`: JSON booleans. -/
def bool : Rule Nat Bool :=
  pose (cold true (jest ['t', 'r', 'u', 'e'])) (cold false (jest ['f', 'a', 'l', 's', 'e']))

section values

variable (mug : Noun → Nat) (valu : Rule Nat Json)

/-- `++arra`. -/
def arra : Rule Nat (List Json) := ifix sel (ws ser) (more (ws com) valu)

/-- `++abox`: JSON arrays. -/
def abox : Rule Nat Json := cook Json.a (arra valu)

/-- `++pair`. -/
def pair : Rule Nat (Nat × Json) := plug (sfix (ws stri) (ws col)) valu

/-- `++obje`. -/
def obje : Rule Nat (List (Nat × Json)) := ifix (ws kel) (ws ker) (more (ws com) (pair valu))

/-- `++obox`: JSON objects. -/
def obox : Rule Nat Json := cook (fun s => .o (mo mug s)) (obje valu)

/-- What `++valu` finds behind whitespace. -/
def box : Rule Nat Json :=
  poses [cold .null (jest ['n', 'u', 'l', 'l']), cook Json.b bool, cook Json.s stri,
    cook (fun s => .n (rap 3 s)) numb, abox valu, obox mug valu]

end values

/-- `++valu`, with a bound on the depth. -/
def valuAt (mug : Noun → Nat) : Nat → Rule Nat Json
  | 0 => fun _ => .crash
  | n + 1 => pfix spac (box mug (valuAt mug n))

/-- `++valu`: JSON value. -/
def valu (mug : Noun → Nat) : Rule Nat Json := fun tub => valuAt mug (tub.length + 1) tub

end Poja

open Poja

/-! ### Print JSON -/

/-- `++jesc`. -/
def jesc (a : Nat) : Tape :=
  if a = 10 then ['\x5c'.toNat, 'n'.toNat]
  else if a = 34 then ['\x5c'.toNat, 34]
  else if a = 92 then ['\x5c'.toNat, 92]
  else [a]

theorem sizeOf_tap (t : Treap Nat Json) (b : List (Nat × Json)) :
    sizeOf (t.tap b) + 1 = sizeOf t + sizeOf b := by
  induction t generalizing b with
  | nil => simp [Treap.tap, Nat.add_comm]
  | node k v l r ihl ihr =>
      have hr := ihr ((k, v) :: l.tap b)
      have hl := ihl b
      simp only [List.cons.sizeOf_spec, Prod.mk.sizeOf_spec] at hr
      simp only [Treap.tap, Treap.node.sizeOf_spec]
      omega

mutual

/-- `++pojo`: print JSON. -/
def pojo : Json → Tape
  | .null => ['n'.toNat, 'u'.toNat, 'l'.toNat, 'l'.toNat]
  | .a p => '['.toNat :: (pojoList p ++ [']'.toNat])
  | .b true => ['t'.toNat, 'r'.toNat, 'u'.toNat, 'e'.toNat]
  | .b false => ['f'.toNat, 'a'.toNat, 'l'.toNat, 's'.toNat, 'e'.toNat]
  | .n p => trip p
  | .s p => '\x22'.toNat :: (((trip p).map jesc).flatten ++ ['\x22'.toNat])
  | .o p => '\x7b'.toNat :: (pojoPairs (p.tap []) ++ ['\x7d'.toNat])
termination_by val => sizeOf val
decreasing_by
  · simp
  · have h := sizeOf_tap p []
    simp at h ⊢
    omega

/-- The values of an array. -/
def pojoList : List Json → Tape
  | [] => []
  | i :: t => pojo i ++ (if t.isEmpty then [] else [','.toNat]) ++ pojoList t
termination_by p => sizeOf p

/-- The keys and values of an object. -/
def pojoPairs : List (Nat × Json) → Tape
  | [] => []
  | (p, q) :: t =>
      ['\x22'.toNat] ++ trip p ++ ['\x22'.toNat, ':'.toNat] ++ pojo q ++
        (if t.isEmpty then [] else [','.toNat]) ++ pojoPairs t
termination_by viz => sizeOf viz

end

/-! ### What a value may hold -/

/-- Digits. -/
def Digs (t : Tape) : Prop := ∀ c ∈ t, '0'.toNat ≤ c ∧ c ≤ '9'.toNat

/-- A JSON numeral: a sign, a whole number with no zero in front, a fraction and an exponent. -/
def Numeral (t : Tape) : Prop :=
  ∃ sign whole part scale, t = sign ++ (whole ++ (part ++ scale)) ∧
    (sign = [] ∨ sign = ['-'.toNat]) ∧
    (whole = ['0'.toNat] ∨ ∃ d ds, whole = d :: ds ∧ ('1'.toNat ≤ d ∧ d ≤ '9'.toNat) ∧ Digs ds) ∧
    (part = [] ∨ ∃ ds, part = '.'.toNat :: ds ∧ ds ≠ [] ∧ Digs ds) ∧
    (scale = [] ∨ ∃ e mark ds, scale = e :: (mark ++ ds) ∧ (e = 'e'.toNat ∨ e = 'E'.toNat) ∧
      (mark = [] ∨ mark = ['+'.toNat] ∨ mark = ['-'.toNat]) ∧ ds ≠ [] ∧ Digs ds)

/-- A value: objects are maps, text has no zero byte, and numbers are numerals. -/
inductive Valid (mug : Noun → Nat) : Json → Prop
  | null : Valid mug .null
  | a {p : List Json} (h : ∀ v ∈ p, Valid mug v) : Valid mug (.a p)
  | b (p : Bool) : Valid mug (.b p)
  | o {p : Treap Nat Json} (hmap : Treap.Canon (gorCord mug) (vorCord mug) p)
      (hkey : ∀ x ∈ p.tap [], ∀ c ∈ trip x.1, c ≠ 0) (h : ∀ x ∈ p.tap [], Valid mug x.2) :
      Valid mug (.o p)
  | n {p : Nat} (h : Numeral (trip p)) : Valid mug (.n p)
  | s {p : Nat} (h : ∀ c ∈ trip p, c ≠ 0) : Valid mug (.s p)

/-- A character that `++jcha` takes as it is. -/
def Raw (c : Nat) : Prop :=
  (32 ≤ c ∧ c ≤ 33) ∨ (35 ≤ c ∧ c ≤ 91) ∨ (93 ≤ c ∧ c ≤ 126) ∨ (128 ≤ c ∧ c ≤ 255)

instance (c : Nat) : Decidable (Raw c) := inferInstanceAs (Decidable (_ ∨ _))

/-- A character that `++jcha` takes as `++jesc` writes it. -/
def Told (c : Nat) : Prop := Raw c ∨ c = 10 ∨ c = 34 ∨ c = 92

/-- The keys of the objects in a value can be read as they are, and the strings as `++jesc` writes
them. -/
inductive Clean : Json → Prop
  | null : Clean .null
  | a {p : List Json} (h : ∀ v ∈ p, Clean v) : Clean (.a p)
  | b (p : Bool) : Clean (.b p)
  | o {p : Treap Nat Json} (hkey : ∀ x ∈ p.tap [], ∀ c ∈ trip x.1, Raw c)
      (h : ∀ x ∈ p.tap [], Clean x.2) : Clean (.o p)
  | n (p : Nat) : Clean (.n p)
  | s {p : Nat} (h : ∀ c ∈ trip p, Told c) : Clean (.s p)

/-! ### Reading what is printed -/

section read

variable {α : Type} {c : Nat} {s t u : Tape}

theorem spac_cons (h : c ∉ [9, 10, 13, 32]) : spac (c :: s) = .done [] (c :: s) := by
  refine star_fail ?_
  rw [mask_cons]
  exact if_neg h

theorem ws_cons {sef : Rule Nat α} (h : c ∉ [9, 10, 13, 32]) :
    ws sef (c :: s) = sef (c :: s) := by
  rw [ws, pfix, spac_cons h, Edge.bind_done]

theorem jcha_raw (h : Raw c) : jcha (c :: s) = .done c s := by
  have hbas : ¬92 = c := by
    rintro rfl
    exact absurd h (by decide)
  unfold Raw at h
  have hesca : esca (c :: s) = .fail := by simp [esca, pfix, bas, hbas]
  rw [jcha, pose, hesca, Edge.orElse_fail]
  simp only [poses, List.foldr, pose, shim_cons]
  rcases h with h | h | h | h
  · rw [if_pos h]
    rfl
  · rw [if_neg (by omega), if_pos h]
    rfl
  · rw [if_neg (by omega), if_neg (by omega), if_pos h]
    rfl
  · rw [if_neg (by omega), if_neg (by omega), if_neg (by omega), if_pos h]
    rfl

theorem jcha_jesc (h : Told c) : jcha (jesc c ++ s) = .done c s := by
  rcases h with h | rfl | rfl | rfl
  · have hne : ∀ d, ¬Raw d → c ≠ d := fun d hd e => hd (e ▸ h)
    rw [jesc, if_neg (hne 10 (by decide)), if_neg (hne 34 (by decide)), if_neg (hne 92 (by decide))]
    exact jcha_raw h
  · rfl
  · rfl
  · rfl

/-- A string comes back if its characters do. -/
theorem stri_text {f : Nat → Tape} {l : List Nat} (hne : ∀ c ∈ l, f c ≠ [])
    (h : ∀ c ∈ l, ∀ s, jcha (f c ++ s) = .done c s) (s : Tape) :
    stri (34 :: (l.flatMap f ++ 34 :: s)) = .done (rap 3 l) s := by
  have hstar : star jcha (l.flatMap f ++ 34 :: s) = .done l (34 :: s) := star_flatMap hne h rfl
  have hdoq : ∀ s, doq (34 :: s) = .done 34 s := fun _ => rfl
  simp only [stri, cook, ifix, pfix, sfix, hdoq, hstar, Edge.bind_done]

theorem rap_trip {p : Nat} (h : ∀ c ∈ trip p, c ≠ 0) : rap 3 (trip p) = p := by
  rw [← rip_bytes] at h ⊢
  exact rap_rip h

theorem stri_key {p : Nat} (hz : ∀ c ∈ trip p, c ≠ 0) (h : ∀ c ∈ trip p, Raw c) (s : Tape) :
    stri (34 :: (trip p ++ 34 :: s)) = .done p s := by
  have hstri := stri_text (f := fun c => [c]) (l := trip p) (fun _ _ => List.cons_ne_nil _ _)
    (fun c hc s => jcha_raw (h c hc)) s
  rwa [List.flatMap_singleton', rap_trip hz] at hstri

theorem stri_jesc {p : Nat} (hz : ∀ c ∈ trip p, c ≠ 0) (h : ∀ c ∈ trip p, Told c) (s : Tape) :
    stri (34 :: (((trip p).map jesc).flatten ++ 34 :: s)) = .done p s := by
  have hne : ∀ c, jesc c ≠ [] := by
    intro c
    unfold jesc
    split_ifs <;> exact List.cons_ne_nil _ _
  have hstri := stri_text (f := jesc) (l := trip p) (fun c _ => hne c)
    (fun c hc s => jcha_jesc (h c hc)) s
  rwa [List.flatMap_def, rap_trip hz] at hstri

/-! ### Numbers -/

/-- The text does not go on with a digit. -/
def Ends (s : Tape) : Prop := ∀ c ∈ s.head?, ¬(48 ≤ c ∧ c ≤ 57)

/-- What follows a number does not look like more of it. -/
def Stop (s : Tape) : Prop := ∀ c ∈ s.head?, ¬(48 ≤ c ∧ c ≤ 57) ∧ c ≠ 46 ∧ c ≠ 101 ∧ c ≠ 69

theorem Stop.ends (h : Stop s) : Ends s := fun c hc => (h c hc).1

theorem digs_text (ht : Digs t) (hs : Ends s) : digs (t ++ s) = .done t s := by
  have hfail : shim '0' '9' s = .fail := by
    cases s with
    | nil => rfl
    | cons c s =>
        rw [shim_cons]
        exact if_neg (hs c rfl)
  have hstar := star_flatMap (f := fun c => [c]) (l := t) (fun _ _ => List.cons_ne_nil _ _)
    (fun c hc s => (shim_cons.trans (if_pos (ht c hc)) : shim '0' '9' (c :: s) = .done c s)) hfail
  rwa [List.flatMap_singleton'] at hstar

theorem twel_done {a b : Rule Nat Tape} {x y : Tape} (ha : a s = .done x t) (hb : b t = .done y u) :
    twel a b s = .done (x ++ y) u := by
  rw [twel, cook, plug, ha, Edge.bind_done, hb, Edge.bind_done, Edge.bind_done]

theorem mayb_done {bus : Rule Nat Tape} (h : bus s = .done t u) : mayb bus s = .done t u := by
  rw [mayb, pose, h, Edge.orElse_done]

theorem mayb_fail {bus : Rule Nat Tape} (h : bus s = .fail) : mayb bus s = .done [] s := by
  rw [mayb, pose, h, Edge.orElse_fail, easy]

theorem twel_fail {a b : Rule Nat Tape} (ha : a s = .fail) : twel a b s = .fail := by
  rw [twel, cook, plug, ha, Edge.bind_fail, Edge.bind_fail]

theorem piec_fail {bus : Rule Nat Nat} (h : bus s = .fail) : piec bus s = .fail := by
  rw [piec, cook, h, Edge.bind_fail]

theorem piec_done {bus : Rule Nat Nat} (h : bus s = .done c t) : piec bus s = .done [c] t := by
  rw [piec, cook, h, Edge.bind_done]

theorem Digs.head (h : Digs (c :: t)) : 48 ≤ c ∧ c ≤ 57 := h c List.mem_cons_self

/-- An exponent, or none. -/
theorem expo_text {scale : Tape} (h : scale = [] ∨ ∃ e mark ds, scale = e :: (mark ++ ds) ∧
    (e = 'e'.toNat ∨ e = 'E'.toNat) ∧ (mark = [] ∨ mark = ['+'.toNat] ∨ mark = ['-'.toNat]) ∧
      ds ≠ [] ∧ Digs ds) (hs : Stop s) :
    mayb expo (scale ++ s) = .done scale s := by
  rcases h with rfl | ⟨e, mark, ds, rfl, he, hmark, hne, hds⟩
  · refine mayb_fail (twel_fail (piec_fail ?_))
    cases s with
    | nil => rfl
    | cons c s =>
        obtain ⟨-, -, h1, h2⟩ := hs c rfl
        simp [h1, h2]
  · have hdigs := digs_text hds hs.ends
    have hsign : mayb (piec (mask ['+', '-'])) (mark ++ (ds ++ s)) = .done mark (ds ++ s) := by
      obtain ⟨d, ds, rfl⟩ := List.exists_cons_of_ne_nil hne
      rcases hmark with rfl | rfl | rfl
      · have hd := hds.head
        refine mayb_fail (piec_fail ?_)
        have hnot : d ∉ [43, 45] := by
          simp
          omega
        exact mask_cons.trans (if_neg hnot)
      · rfl
      · rfl
    have hexp : piec (mask ['e', 'E']) (e :: (mark ++ (ds ++ s))) =
        .done [e] (mark ++ (ds ++ s)) := by
      rcases he with rfl | rfl <;> rfl
    rw [List.cons_append, List.append_assoc]
    exact mayb_done (twel_done hexp (twel_done hsign hdigs))

/-- A fraction, or none. -/
theorem frac_text {part : Tape} (h : part = [] ∨ ∃ ds, part = '.'.toNat :: ds ∧ ds ≠ [] ∧ Digs ds)
    (hs : Ends s) (hdot : ∀ c ∈ s.head?, c ≠ 46) : mayb frac (part ++ s) = .done part s := by
  rcases h with rfl | ⟨ds, rfl, -, hds⟩
  · refine mayb_fail (twel_fail (piec_fail ?_))
    cases s with
    | nil => rfl
    | cons c s => simp [dot, (hdot c rfl).symm]
  · exact mayb_done (twel_done (piec_done rfl) (digs_text hds hs))

theorem numb_text (h : Numeral t) (hs : Stop s) : numb (t ++ s) = .done t s := by
  obtain ⟨sign, whole, part, scale, rfl, hsign, hwhole, hpart, hscale⟩ := h
  have hexpo := expo_text hscale hs
  have hmark : ∀ c ∈ (scale ++ s).head?, ¬(48 ≤ c ∧ c ≤ 57) ∧ c ≠ 46 := by
    rcases hscale with rfl | ⟨e, mark, ds, rfl, rfl | rfl, -⟩
    · exact fun c hc => ⟨(hs c hc).1, (hs c hc).2.1⟩
    · simp
    · simp
  have hends : Ends (part ++ (scale ++ s)) := by
    rcases hpart with rfl | ⟨ds, rfl, -⟩
    · exact fun c hc => (hmark c hc).1
    · simp [Ends]
  have hfrac := frac_text hpart (fun c hc => (hmark c hc).1) fun c hc => (hmark c hc).2
  have hint : pose (piec (just '0')) (twel (piec (shim '1' '9')) digs)
      (whole ++ (part ++ (scale ++ s))) = .done whole (part ++ (scale ++ s)) := by
    rcases hwhole with rfl | ⟨d, ds, rfl, hd, hds⟩
    · rfl
    · have hzero : piec (just '0') (d :: (ds ++ (part ++ (scale ++ s)))) = .fail := by
        refine piec_fail (just_cons.trans (if_neg ?_))
        simp at hd ⊢
        omega
      rw [List.cons_append, pose, hzero, Edge.orElse_fail]
      exact twel_done (piec_done (shim_cons.trans (if_pos hd))) (digs_text hds hends)
  have hhep : mayb (piec hep) (sign ++ (whole ++ (part ++ (scale ++ s)))) =
      .done sign (whole ++ (part ++ (scale ++ s))) := by
    rcases hsign with rfl | rfl
    · refine mayb_fail (piec_fail ?_)
      rcases hwhole with rfl | ⟨d, ds, rfl, hd, -⟩
      · rfl
      · refine just_cons.trans (if_neg ?_)
        simp at hd ⊢
        omega
    · rfl
  simp only [List.append_assoc]
  exact twel_done hhep (twel_done hint (twel_done hfrac hexpo))

theorem Digs.ne_zero (h : Digs t) : ∀ c ∈ t, c ≠ 0 := by
  intro c hc
  have := h c hc
  simp at this
  omega

theorem Numeral.ne_zero (h : Numeral t) : ∀ c ∈ t, c ≠ 0 := by
  obtain ⟨sign, whole, part, scale, rfl, hsign, hwhole, hpart, hscale⟩ := h
  simp only [List.forall_mem_append]
  refine ⟨?_, ?_, ?_, ?_⟩
  · rcases hsign with rfl | rfl <;> decide
  · rcases hwhole with rfl | ⟨d, ds, rfl, hd, hds⟩
    · decide
    · refine List.forall_mem_cons.mpr ⟨?_, hds.ne_zero⟩
      simp at hd
      omega
  · rcases hpart with rfl | ⟨ds, rfl, -, hds⟩
    · decide
    · exact List.forall_mem_cons.mpr ⟨by decide, hds.ne_zero⟩
  · rcases hscale with rfl | ⟨e, mark, ds, rfl, he, hmark, -, hds⟩
    · decide
    · refine List.forall_mem_cons.mpr ⟨?_, List.forall_mem_append.mpr ⟨?_, hds.ne_zero⟩⟩
      · rcases he with rfl | rfl <;> decide
      · rcases hmark with rfl | rfl | rfl <;> decide

theorem Numeral.head (h : Numeral t) : ∃ c u, t = c :: u ∧ (c = 45 ∨ (48 ≤ c ∧ c ≤ 57)) := by
  obtain ⟨sign, whole, part, scale, rfl, hsign, hwhole, -⟩ := h
  rcases hsign with rfl | rfl
  · rcases hwhole with rfl | ⟨d, ds, rfl, hd, -⟩
    · exact ⟨_, _, rfl, .inr (by decide)⟩
    · refine ⟨_, _, rfl, .inr ?_⟩
      simp at hd
      omega
  · exact ⟨_, _, rfl, .inl rfl⟩

end read

/-! ### Values -/

/-- How a pair is printed. -/
def pairText (x : Nat × Json) : Tape := 34 :: (trip x.1 ++ 34 :: 58 :: pojo x.2)

theorem pojoList_cons (v : Json) (p : List Json) :
    pojoList (v :: p) = pojo v ++ p.flatMap fun w => 44 :: pojo w := by
  induction p generalizing v with
  | nil => simp [pojoList]
  | cons w p ih =>
      rw [pojoList, ih w, List.flatMap_cons]
      simp

theorem pojoPairs_cons (x : Nat × Json) (viz : List (Nat × Json)) :
    pojoPairs (x :: viz) = pairText x ++ viz.flatMap fun y => 44 :: pairText y := by
  induction viz generalizing x with
  | nil =>
      obtain ⟨k, v⟩ := x
      simp [pojoPairs, pairText]
  | cons y viz ih =>
      obtain ⟨k, v⟩ := x
      rw [pojoPairs, ih y, List.flatMap_cons]
      simp [pairText]

theorem pojo_a (p : List Json) : pojo (.a p) = 91 :: (pojoList p ++ [93]) := by
  rw [pojo]
  rfl

theorem pojo_o (p : Treap Nat Json) : pojo (.o p) = 123 :: (pojoPairs (p.tap []) ++ [125]) := by
  rw [pojo]
  rfl

theorem pojo_n (p : Nat) : pojo (.n p) = trip p := by rw [pojo]

theorem pojo_s (p : Nat) : pojo (.s p) = 34 :: (((trip p).map jesc).flatten ++ [34]) := by
  rw [pojo]
  rfl

/-- What is inside is shorter. -/
theorem length_item {α : Type} {f : α → Tape} {x : α} {l : List α} {y : α} (hy : y ∈ x :: l) :
    (f y).length ≤ (f x ++ l.flatMap fun z => 44 :: f z).length := by
  rcases List.mem_cons.mp hy with rfl | hy
  · simp
  · have hsub : (44 :: f y).length ≤ (l.flatMap fun z => 44 :: f z).length := by
      rw [List.flatMap_def]
      have hmem : 44 :: f y ∈ l.map fun z => 44 :: f z := List.mem_map.mpr ⟨y, hy, rfl⟩
      exact (List.sublist_flatten_of_mem hmem).length_le
    rw [List.length_append]
    rw [List.length_cons] at hsub
    omega

section values

variable {mug : Noun → Nat} {r : Rule Nat Json} {s t : Tape}

theorem box_string {p : Nat} (h : stri (34 :: t) = .done p s) :
    box mug r (34 :: t) = .done (.s p) s := by
  have hbox : box mug r (34 :: t) = (cook Json.s stri (34 :: t)).orElse
      (poses [cook (fun s => .n (rap 3 s)) numb, abox r, obox mug r] (34 :: t)) := rfl
  rw [hbox, cook, h, Edge.bind_done, Edge.orElse_done]

theorem box_number {c : Nat} (hc : c = 45 ∨ (48 ≤ c ∧ c ≤ 57)) {u : Tape}
    (h : numb (c :: t) = .done u s) : box mug r (c :: t) = .done (.n (rap 3 u)) s := by
  have h1 : ¬110 = c := by omega
  have h2 : ¬116 = c := by omega
  have h3 : ¬102 = c := by omega
  have h4 : ¬34 = c := by omega
  simp [box, poses, pose, cold, cook, Poja.bool, stri, ifix, pfix, doq, h1, h2, h3, h4, h]

theorem box_array {p : List Json} (h : arra r (91 :: t) = .done p s) :
    box mug r (91 :: t) = .done (.a p) s := by
  have hbox : box mug r (91 :: t) =
      (cook Json.a (arra r) (91 :: t)).orElse (poses [obox mug r] (91 :: t)) := rfl
  rw [hbox, cook, h, Edge.bind_done, Edge.orElse_done]

theorem box_object {p : List (Nat × Json)} (h : obje r (123 :: t) = .done p s) :
    box mug r (123 :: t) = .done (.o (mo mug p)) s := by
  have hbox : box mug r (123 :: t) =
      (cook (fun s => Json.o (mo mug s)) (obje r) (123 :: t)).orElse .fail := rfl
  rw [hbox, cook, h, Edge.bind_done, Edge.orElse_done]

/-- No value starts with a closing bracket. -/
theorem box_fail (s : Tape) : box mug r (93 :: s) = .fail := by
  have hbox : box mug r (93 :: s) = (obox mug r (93 :: s)).orElse .fail := rfl
  rw [hbox, obox, cook, obje, ifix, pfix, ws_cons (by decide)]
  rfl

theorem valuAt_box {n c : Nat} (h : c ∉ [9, 10, 13, 32]) :
    valuAt mug (n + 1) (c :: t) = box mug (valuAt mug n) (c :: t) := by
  rw [valuAt, pfix, spac_cons h, Edge.bind_done]

theorem stop_cons {c : Nat} (h : ¬(48 ≤ c ∧ c ≤ 57) ∧ c ≠ 46 ∧ c ≠ 101 ∧ c ≠ 69) (s : Tape) :
    Stop (c :: s) := by
  intro d hd
  cases hd
  exact h

/-- A comma and what is around it. -/
theorem ws_com (s : Tape) : ws com (44 :: s) = .done 44 s := by
  rw [ws_cons (by decide)]
  rfl

/-- A list with commas, up to the bracket that closes it. -/
theorem more_text {α : Type} {item : Rule Nat α} {f : α → Tape} {p : List α} {c : Nat} {s : Tape}
    (h : ∀ v ∈ p, ∀ s, Stop s → item (f v ++ s) = .done v s) (hitem : item (c :: s) = .fail)
    (hcom : ws com (c :: s) = .fail) (hstop : Stop (c :: s)) {u : Tape} (hnil : p = [] → u = [])
    (hu : ∀ v l, p = v :: l → u = f v ++ l.flatMap fun w => 44 :: f w) :
    more (ws com) item (u ++ c :: s) = .done p (c :: s) := by
  cases p with
  | nil =>
      rw [hnil rfl, List.nil_append, more, pose, most, cons, hitem, Edge.bind_fail,
        Edge.orElse_fail, easy]
  | cons v l =>
      have hmost : most (ws com) item (f v ++ (l.flatMap (fun w => 44 :: f w) ++ c :: s)) =
          .done (v :: l) (c :: s) :=
        most_flatMap h ws_com (stop_cons (by decide)) hstop hcom
      rw [hu v l rfl, List.append_assoc, more, pose, hmost, Edge.orElse_done]

theorem arra_text {p : List Json} (h : ∀ v ∈ p, ∀ s, Stop s → r (pojo v ++ s) = .done v s)
    (hr : ∀ s, r (93 :: s) = .fail) (s : Tape) :
    arra r (91 :: (pojoList p ++ 93 :: s)) = .done p s := by
  have hclose : ws ser (93 :: s) = .done 93 s ∧ ws com (93 :: s) = .fail := by
    rw [ws_cons (by decide), ws_cons (by decide)]
    exact ⟨rfl, rfl⟩
  have hnil : p = [] → pojoList p = [] := by
    rintro rfl
    rw [pojoList]
  have hmore := more_text h (hr s) hclose.2 (stop_cons (by decide) s) hnil fun v l hp => by
    rw [hp, pojoList_cons]
  have hopen : sel (91 :: (pojoList p ++ 93 :: s)) = .done 91 (pojoList p ++ 93 :: s) := rfl
  rw [arra, ifix, pfix, hopen, Edge.bind_done, sfix, hmore, Edge.bind_done, hclose.1,
    Edge.bind_done]

/-- A key that is text of raw characters, and a value that comes back. -/
theorem pair_text {x : Nat × Json} (hz : ∀ c ∈ trip x.1, c ≠ 0) (hkey : ∀ c ∈ trip x.1, Raw c)
    (h : ∀ s, Stop s → r (pojo x.2 ++ s) = .done x.2 s) (s : Tape) (hs : Stop s) :
    pair r (pairText x ++ s) = .done x s := by
  have htext : pairText x ++ s = 34 :: (trip x.1 ++ 34 :: 58 :: (pojo x.2 ++ s)) := by
    simp [pairText]
  have hcol : ws col (58 :: (pojo x.2 ++ s)) = .done 58 (pojo x.2 ++ s) := by
    rw [ws_cons (by decide)]
    rfl
  rw [htext, pair, plug, sfix, ws_cons (by decide), stri_key hz hkey, Edge.bind_done, hcol,
    Edge.bind_done, Edge.bind_done, h s hs, Edge.bind_done]

theorem obje_text {p : List (Nat × Json)} (hz : ∀ x ∈ p, ∀ c ∈ trip x.1, c ≠ 0)
    (hkey : ∀ x ∈ p, ∀ c ∈ trip x.1, Raw c)
    (h : ∀ x ∈ p, ∀ s, Stop s → r (pojo x.2 ++ s) = .done x.2 s) (s : Tape) :
    obje r (123 :: (pojoPairs p ++ 125 :: s)) = .done p s := by
  have hclose : ws ker (125 :: s) = .done 125 s ∧ ws com (125 :: s) = .fail := by
    rw [ws_cons (by decide), ws_cons (by decide)]
    exact ⟨rfl, rfl⟩
  have hpair : pair r (125 :: s) = .fail := by
    rw [pair, plug, sfix, ws_cons (by decide)]
    rfl
  have hnil : p = [] → pojoPairs p = [] := by
    rintro rfl
    rw [pojoPairs]
  have hmore := more_text (fun x hx => pair_text (hz x hx) (hkey x hx) (h x hx)) hpair hclose.2
    (stop_cons (by decide) s) hnil fun x l hp => by rw [hp, pojoPairs_cons]
  rw [obje, ifix, pfix, ws_cons (by decide)]
  have hopen : kel (123 :: (pojoPairs p ++ 125 :: s)) = .done 123 (pojoPairs p ++ 125 :: s) := rfl
  rw [hopen, Edge.bind_done, sfix, hmore, Edge.bind_done, hclose.1, Edge.bind_done]

theorem foldl_insert_mo {p : Treap Nat Json} (h : Treap.Canon (gorCord mug) (vorCord mug) p) :
    mo mug (p.tap []) = p := by
  have atoms : ∀ {ord : Noun → Noun → Bool}, SearchOrder ord →
      SearchOrder fun a b : Nat => ord (.atom a) (.atom b) := by
    intro ord ho
    exact ⟨fun a b => ho.total _ _, fun a b c => ho.trans _ _ _,
      fun a b hab hba => Noun.atom.inj (ho.antisymm _ _ hab hba)⟩
  exact Treap.foldl_insert_tap (atoms (gor_searchOrder mug)) (atoms (vor_searchOrder mug)) h

/-- A clean value comes back from what is printed, whatever follows. -/
theorem valuAt_pojo {n : Nat} {val : Json} (hv : Valid mug val) (hc : Clean val)
    (hn : (pojo val).length ≤ n) (hs : Stop s) : valuAt mug n (pojo val ++ s) = .done val s := by
  induction n generalizing val s with
  | zero =>
      have hnil := List.eq_nil_of_length_eq_zero (Nat.le_zero.mp hn)
      cases hv with
      | n h =>
          obtain ⟨c, u, htrip, -⟩ := h.head
          rw [pojo_n, htrip] at hnil
          cases hnil
      | b p => cases p <;> simp [pojo] at hnil
      | _ => simp [pojo] at hnil
  | succ n ih =>
      cases hv with
      | null =>
          rw [pojo]
          exact valuAt_box (by decide)
      | b p =>
          cases p with
          | true =>
              rw [pojo]
              exact valuAt_box (by decide)
          | false =>
              rw [pojo]
              exact valuAt_box (by decide)
      | n h =>
          obtain ⟨c, u, htrip, hhead⟩ := h.head
          have hnumb := numb_text h hs
          have hrap := rap_trip h.ne_zero
          have hdark : c ∉ [9, 10, 13, 32] := by
            simp
            omega
          rw [htrip] at hrap
          rw [pojo_n]
          rw [htrip, List.cons_append] at hnumb ⊢
          rw [valuAt_box hdark, box_number hhead hnumb, hrap]
      | s h =>
          cases hc with
          | s hc =>
              have hstri := stri_jesc h hc s
              rw [pojo_s, List.cons_append, List.append_assoc, List.singleton_append,
                valuAt_box (by decide), box_string hstri]
      | @a p h =>
          cases hc with
          | a hc =>
              rw [pojo_a, List.length_cons, List.length_append, List.length_singleton] at hn
              have hlt : ∀ v ∈ p, (pojo v).length ≤ n := by
                intro v hv
                obtain ⟨w, l, rfl⟩ := List.exists_cons_of_ne_nil (List.ne_nil_of_mem hv)
                rw [pojoList_cons] at hn
                have := length_item (f := pojo) hv
                omega
              have hclosed : ∀ s, valuAt mug n (93 :: s) = .fail := by
                intro s
                obtain ⟨k, rfl⟩ : ∃ k, n = k + 1 := ⟨n - 1, by omega⟩
                rw [valuAt_box (by decide), box_fail]
              have harra := arra_text
                (fun v hv s hs => ih (h v hv) (hc v hv) (hlt v hv) hs) hclosed s
              rw [pojo_a, List.cons_append, List.append_assoc, List.singleton_append,
                valuAt_box (by decide), box_array harra]
      | @o p hmap hkey h =>
          cases hc with
          | o hraw hc =>
              rw [pojo_o, List.length_cons, List.length_append, List.length_singleton] at hn
              have hlt : ∀ x ∈ p.tap [], (pojo x.2).length ≤ n := by
                intro x hx
                obtain ⟨y, l, hl⟩ := List.exists_cons_of_ne_nil (List.ne_nil_of_mem hx)
                rw [hl, pojoPairs_cons] at hn
                rw [hl] at hx
                have hpair := length_item (f := pairText) hx
                have hval : (pojo x.2).length ≤ (pairText x).length := by
                  simp [pairText]
                  omega
                omega
              have hobje := obje_text hkey hraw
                (fun x hx s hs => ih (h x hx) (hc x hx) (hlt x hx) hs) s
              rw [pojo_o, List.cons_append, List.append_assoc, List.singleton_append,
                valuAt_box (by decide), box_object hobje, foldl_insert_mo hmap]

end values

end Vere.Zuse
