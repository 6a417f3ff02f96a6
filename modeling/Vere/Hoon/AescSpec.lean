import Mathlib.Data.Fin.VecNotation
import Vere.Hoon.Aesc

/-!
# Vere.Hoon.AescSpec

Deciphering AES.

On a block of four columns of four bytes (`Block`) the arms of `++aesc` are substitution of each
byte, a shift of each row and a linear map of each column (`cipher`), and the arms with the
tables of the inverse undo them (`cipher_inverse`). So `++de` undoes `++en`, and the other way
round (`de_en`).
-/

namespace Vere.Hoon.Aesc

open Vere.Lib Ga

/-! ### Blocks of an atom -/

theorem podeLoop_eq {b m : Nat} (h : m ≤ b) (d : List Nat) :
    podeLoop b d m = pure (d ++ List.replicate (b - m) 0) := by
  induction hk : b - m generalizing m d with
  | zero =>
      obtain rfl : m = b := by omega
      rw [podeLoop, if_pos rfl, List.replicate_zero, List.append_nil]
  | succ k ih =>
      rw [podeLoop, if_neg (by omega), if_pos (by omega), ih (m := m + 1) (by omega) _ (by omega),
        List.append_assoc, List.replicate_succ]
      rfl

/-- The blocks by their places, those above the highest zero. -/
theorem pode_eq {a b c : Nat} (h : c < 2 ^ (2 ^ a * b)) :
    pode a b c = pure ((List.range b).map fun i => cut a i 1 c) := by
  have hmet : met a c ≤ b := met_le.mpr h
  rw [pode, podeLoop_eq hmet]
  refine congrArg pure (List.ext_getElem ?_ fun i h1 h2 => ?_)
  · simp [length_rip, hmet]
  · rw [List.getElem_map, List.getElem_range, cut_one, Nat.mul_comm (2 ^ a) i]
    by_cases hi : i < met a c
    · rw [List.getElem_append_left (by rwa [length_rip])]
      simp only [rip_eq_map, List.getElem_map, List.getElem_range, field]
    · rw [List.getElem_append_right (by rw [length_rip]; omega), List.getElem_replicate,
        Nat.div_eq_of_lt, Nat.zero_mod]
      refine lt_of_lt_of_le (met_le.mp (Nat.le_refl (met a c))) ?_
      rw [Nat.mul_comm i]
      exact Nat.pow_le_pow_right (by decide) (Nat.mul_le_mul_left _ (by omega))

/-- Blocks are joined by `++rep` and made again by `++pode`. -/
theorem pode_rep {a : Nat} {l : List Nat} (h : ∀ q ∈ l, q < 2 ^ 2 ^ a) :
    pode a l.length (rep a l) = pure l := by
  rw [rep_eq, pode_eq (join_lt a l)]
  refine congrArg pure (List.ext_getElem (by simp) fun i h1 h2 => ?_)
  rw [List.getElem_map, List.getElem_range, cut_join h2,
    Nat.mod_eq_of_lt (h _ (List.getElem_mem h2))]

theorem rep_lt (a : Nat) (l : List Nat) : rep a l < 2 ^ (2 ^ a * l.length) := by
  rw [rep_eq]
  exact join_lt a l

/-! ### Columns and blocks -/

/-- Four bytes. -/
abbrev Col := Fin 4 → BitVec 8

/-- Four columns. -/
abbrev Block := Fin 4 → Col

/-- The bytes of a column, the lowest first. -/
def bytes (c : Col) : List Nat := [(c 0).toNat, (c 1).toNat, (c 2).toNat, (c 3).toNat]

def word (c : Col) : Nat := rep 3 (bytes c)

def words (s : Block) : List Nat := [word (s 0), word (s 1), word (s 2), word (s 3)]

def atom (s : Block) : Nat := rep 5 (words s)

def col (n : Nat) : Col := fun i => BitVec.ofNat 8 (cut 3 i 1 n)

def block (n : Nat) : Block := fun i => col (cut 5 i 1 n)

theorem bytes_lt (c : Col) : ∀ q ∈ bytes c, q < 2 ^ 2 ^ 3 := by
  simp only [bytes, List.forall_mem_cons]
  exact ⟨(c 0).isLt, (c 1).isLt, (c 2).isLt, (c 3).isLt, by simp⟩

theorem word_lt (c : Col) : word c < 2 ^ 2 ^ 5 := rep_lt 3 (bytes c)

theorem words_lt (s : Block) : ∀ q ∈ words s, q < 2 ^ 2 ^ 5 := by
  simp only [words, List.forall_mem_cons]
  exact ⟨word_lt _, word_lt _, word_lt _, word_lt _, by simp⟩

theorem pode_word (c : Col) : pode 3 4 (word c) = pure (bytes c) := pode_rep (bytes_lt c)

theorem pode_atom (s : Block) : pode 5 4 (atom s) = pure (words s) := pode_rep (words_lt s)

theorem atom_lt (s : Block) : atom s < 2 ^ 128 := rep_lt 5 (words s)

theorem cut_lt (a i n : Nat) : cut a i 1 n < 2 ^ 2 ^ a := by
  rw [cut_one]
  exact Nat.mod_lt _ (Nat.two_pow_pos _)

theorem toNat_cut (i n : Nat) : (BitVec.ofNat 8 (cut 3 i 1 n)).toNat = cut 3 i 1 n := by
  rw [BitVec.toNat_ofNat]
  exact Nat.mod_eq_of_lt (cut_lt 3 i n)

theorem word_col {n : Nat} (h : n < 2 ^ 2 ^ 5) : word (col n) = n := by
  have hbytes : bytes (col n) = (List.range 4).map fun i => cut 3 i 1 n := by
    simp only [bytes, col, toNat_cut]
    rfl
  rw [word, rep_eq, hbytes, join_cuts]
  exact Nat.mod_eq_of_lt h

theorem atom_block {n : Nat} (h : n < 2 ^ 128) : atom (block n) = n := by
  have hwords : words (block n) = (List.range 4).map fun i => cut 5 i 1 n := by
    simp only [words, block, word_col (cut_lt 5 _ n)]
    rfl
  rw [atom, rep_eq, hwords, join_cuts]
  exact Nat.mod_eq_of_lt h

theorem col_word (c : Col) : col (word c) = c := by
  funext i
  have hi : (i : Nat) < (bytes c).length := i.isLt
  have hget : (bytes c)[(i : Nat)] = (c i).toNat := by
    match i with
    | 0 | 1 | 2 | 3 => rfl
  rw [col, word, rep_eq, cut_join hi, hget]
  apply BitVec.eq_of_toNat_eq
  rw [BitVec.toNat_ofNat]
  exact (Nat.mod_mod _ _).trans (Nat.mod_eq_of_lt (c i).isLt)

theorem cut_word (c : Col) (i : Fin 4) : cut 3 i 1 (word c) = (c i).toNat := by
  conv_rhs => rw [← col_word c, col, toNat_cut]

theorem block_atom (s : Block) : block (atom s) = s := by
  funext i
  have hi : (i : Nat) < (words s).length := i.isLt
  have hget : (words s)[(i : Nat)] = word (s i) := by
    match i with
    | 0 | 1 | 2 | 3 => rfl
  rw [block, atom, rep_eq, cut_join hi, hget, Nat.mod_eq_of_lt (word_lt _), col_word]

/-! ### What the arms do to a block -/

/-- A byte of the table. -/
def box (su : Nat) (x : BitVec 8) : BitVec 8 := BitVec.ofNat 8 (cut 3 x.toNat 1 su)

/-- The four in order. -/
def Four.nth (b : Four) : Fin 4 → Nat := ![b.p, b.q, b.r, b.s]

/-- The product of a byte. -/
def times (k : Nat) (x : BitVec 8) : BitVec 8 := BitVec.ofNat 8 (mul x.toNat k)

/-- The sum of four. -/
def sum4 (f : Fin 4 → BitVec 8) : BitVec 8 := f 0 ^^^ (f 1 ^^^ (f 2 ^^^ f 3))

/-- A column mixed: the coefficients go round by one from row to row. -/
def mixCol (co : Four) (c : Col) : Col := fun j => sum4 fun i => times (co.nth (i - j)) (c i)

/-- AES on blocks. -/
def cipher (d : Cipa) : Stages Block where
  add a k := fun c i => a c i ^^^ k c i
  sub s := fun c i => box d.su (s (Fin.ofNat 4 (d.ro.nth i + c)) i)
  mix s := fun c => mixCol d.co (s c)

theorem toNat_box (su : Nat) (x : BitVec 8) : (box su x).toNat = cut 3 x.toNat 1 su :=
  toNat_cut _ _

theorem sube_word (c : Col) (su : Nat) : sube (word c) su = pure (word fun i => box su (c i)) := by
  rw [sube, pode_word, pure_bind]
  simp [word, bytes, toNat_box]

theorem subs_words (d : Cipa) (s : Block) :
    subs d (words s) = pure (words fun c i => box d.su (s c i)) := by
  simp only [words, subs, sube_word, pure_bind]

theorem srowByte_words (s : Block) (c g : Nat) (f : Fin 4) :
    srowByte (words s) c f g = pure (s (Fin.ofNat 4 (g + c)) f).toNat := by
  have hget (i : Fin 4) : (words s)[(i : Nat)]? = some (word (s i)) := by
    match i with
    | 0 | 1 | 2 | 3 => rfl
  have hplace := hget (Fin.ofNat 4 (g + c))
  rw [Fin.val_ofNat] at hplace
  rw [srowByte, nnb, hplace]
  simp only [cut_word]

theorem srow_words (d : Cipa) (s : Block) :
    srow d (words s) = pure (words fun c i => s (Fin.ofNat 4 (d.ro.nth i + c)) i) := by
  have h0 (c g : Nat) := srowByte_words s c g 0
  have h1 (c g : Nat) := srowByte_words s c g 1
  have h2 (c g : Nat) := srowByte_words s c g 2
  have h3 (c g : Nat) := srowByte_words s c g 3
  simp only [Fin.val_zero, Fin.val_one, Fin.val_two] at h0 h1 h2
  have h3' (c g : Nat) : srowByte (words s) c 3 g = _ := h3 c g
  rw [srow, nnb]
  simp only [srowLoop, h0, h1, h2, h3', pure_bind]
  rfl

theorem mix_word (a b : Col) : mix (word a) (word b) = word fun i => a i ^^^ b i := by
  have hlen : (bytes a).length = (bytes b).length := rfl
  rw [mix_eq, word, word, rep_eq, rep_eq, xor_join 3 hlen, word, rep_eq]
  simp [bytes]

theorem sark_words (a k : Block) : sark (words a) (words k) = pure (words ((cipher pen).add a k)) := by
  simp only [words, sark, pure_bind, mix_word]
  rfl

theorem toNat_times {k : Nat} (hk : k < 256) (x : BitVec 8) :
    (times k x).toNat = mul x.toNat k := by
  rw [times, BitVec.toNat_ofNat]
  exact Nat.mod_eq_of_lt (mulLoop_lt 8 _ hk)

theorem dif_bytes (x y : BitVec 8) : dif aes x.toNat y.toNat = pure (x ^^^ y).toNat := by
  rw [dif_aes x.isLt y.isLt, BitVec.toNat_xor]

section gr

variable {gr : Gr} (ht : Tables gr.p gr.q)
include ht

theorem pro_times {k : Nat} (hk : k ∈ coefs.map Prod.fst) (x : BitVec 8) :
    pro aes gr.p gr.q x.toNat k = pure (times k x).toNat := by
  obtain ⟨c, hc, rfl⟩ := List.mem_map.mp hk
  have hlt : ∀ c ∈ coefs, c.1 < 256 := by decide
  rw [pro_mul ht x.isLt hc, toNat_times (hlt c hc)]

theorem difPro_eq {k : Fin 4 → Nat} (hk : ∀ i, k i ∈ coefs.map Prod.fst) (c : Col) :
    difPro gr ((c 0).toNat, k 0) ((c 1).toNat, k 1) ((c 2).toNat, k 2) ((c 3).toNat, k 3)
      = pure (sum4 fun i => times (k i) (c i)).toNat := by
  simp only [difPro, pro_times ht (hk _), pure_bind, dif_bytes]
  rfl

theorem mcol_words {co : Four} (hco : ∀ i, co.nth i ∈ coefs.map Prod.fst) (s : Block) :
    mcol gr (words s) co = pure (words fun c => mixCol co (s c)) := by
  have hrow (c : Col) (j : Fin 4) := difPro_eq ht (k := fun i => co.nth (i - j)) (fun i => hco _) c
  have hstep (c : Col) (t : List Nat) :
      mcol gr (word c :: t) co = do
        let t ← mcol gr t co
        return word (mixCol co c) :: t := by
    have h0 : cut 3 0 1 (word c) = _ := cut_word c 0
    have h1 : cut 3 1 1 (word c) = _ := cut_word c 1
    have h2 : cut 3 2 1 (word c) = _ := cut_word c 2
    have h3 : cut 3 3 1 (word c) = _ := cut_word c 3
    have hw : difPro gr ((c 0).toNat, co.p) ((c 1).toNat, co.q) ((c 2).toNat, co.r)
        ((c 3).toNat, co.s) = pure (mixCol co c 0).toNat := hrow c 0
    have hx : difPro gr ((c 0).toNat, co.s) ((c 1).toNat, co.p) ((c 2).toNat, co.q)
        ((c 3).toNat, co.r) = pure (mixCol co c 1).toNat := hrow c 1
    have hy : difPro gr ((c 0).toNat, co.r) ((c 1).toNat, co.s) ((c 2).toNat, co.p)
        ((c 3).toNat, co.q) = pure (mixCol co c 2).toNat := hrow c 2
    have hz : difPro gr ((c 0).toNat, co.q) ((c 1).toNat, co.r) ((c 2).toNat, co.s)
        ((c 3).toNat, co.p) = pure (mixCol co c 3).toNat := hrow c 3
    rw [mcol]
    simp only [h0, h1, h2, h3, hw, hx, hy, hz, pure_bind]
    rfl
  have hnil : mcol gr [] co = pure [] := rfl
  simp only [words, hstep, hnil, pure_bind]

end gr

/-! ### The cipher -/

/-- The round key that is this many blocks up. -/
def keyOf (k f : Nat) : Block := block (cut 5 (f * nnb) nnb k)

theorem ankh_eq {d : Cipa} {b i : Nat} (h : d.ix b = pure i) (k : Nat) :
    ankh d b k = pure (words (keyOf k i)) := by
  have hlt : cut 5 (i * nnb) nnb k < 2 ^ 128 := by
    rw [cut, «end», bex_eq]
    exact Nat.mod_lt _ (Nat.two_pow_pos _)
  rw [ankh, h, pure_bind, nnb, ← pode_atom, keyOf, atom_block hlt, nnb]

/-- What the cipher needs of its parameters: the coefficients are in the tables. -/
theorem pen_co : ∀ i, pen.co.nth i ∈ coefs.map Prod.fst := by decide

theorem pin_co : ∀ i, pin.co.nth i ∈ coefs.map Prod.fst := by decide

section gr

variable {gr : Gr} (ht : Tables gr.p gr.q) {d : Cipa}
  (hco : ∀ i, d.co.nth i ∈ coefs.map Prod.fst) {key : Nat → Block} {k : Nat}
  (hkey : ∀ f ≤ 14, ankh d f k = pure (words (key f)))
include ht hco hkey

theorem beLoop_eq {n f : Nat} (h : f + n = 13) (b : Block) :
    beLoop gr d k n (f + 1) (words ((cipher d).stage key b f))
      = pure (atom ((cipher d).run key 13 b)) := by
  induction n generalizing f with
  | zero =>
      obtain rfl : f = 13 := h
      rw [beLoop, subs_words, pure_bind, srow_words, pure_bind, nnr, hkey 14 (by decide), pure_bind,
        sark_words, pure_bind]
      rfl
  | succ n ih =>
      rw [beLoop, subs_words, pure_bind, srow_words, pure_bind, mcol_words ht hco, pure_bind,
        hkey (f + 1) (by omega), pure_bind, sark_words, pure_bind]
      exact ih (by omega)

/-- One loop is the cipher on blocks, with the round keys as its parameters index them. -/
theorem be_eq {a : Bool} (ha : (if a then pen else pin) = d) {b : Nat} (hb : b < 2 ^ 128) :
    be gr a k b = pure (atom ((cipher d).run key 13 (block b))) := by
  have hpode : pode 5 nnb b = pure (words (block b)) := by
    rw [nnb, ← pode_atom, atom_block hb]
  rw [be, ha, hpode, pure_bind, hkey 0 (by decide), pure_bind, sark_words, pure_bind]
  exact beLoop_eq ht hco hkey (f := 0) (n := 13) rfl (block b)

end gr

/-! ### Its inverse -/

theorem times_xor (k : Nat) (x y : BitVec 8) : times k (x ^^^ y) = times k x ^^^ times k y := by
  rw [times, BitVec.toNat_xor, mul_xor, BitVec.ofNat_xor]
  rfl

theorem sum4_xor (f g : Fin 4 → BitVec 8) : (sum4 fun i => f i ^^^ g i) = sum4 f ^^^ sum4 g := by
  simp only [sum4]
  ac_rfl

theorem sum4_comm (f : Fin 4 → Fin 4 → BitVec 8) :
    (sum4 fun i => sum4 fun j => f i j) = sum4 fun j => sum4 fun i => f i j := by
  simp only [sum4]
  ac_rfl

theorem mixCol_xor (co : Four) (a b : Col) (j : Fin 4) :
    mixCol co (fun i => a i ^^^ b i) j = mixCol co a j ^^^ mixCol co b j := by
  simp only [mixCol, times_xor, sum4_xor]

theorem times_sum4 (k : Nat) (f : Fin 4 → BitVec 8) :
    times k (sum4 f) = sum4 fun i => times k (f i) := by
  simp only [sum4, times_xor]

/-- What comes of one byte of a column that is mixed by `a` and then by `b`, `d` rows on. -/
def twice (a b : Four) (d : Fin 4) (x : BitVec 8) : BitVec 8 :=
  sum4 fun i => times (b.nth i) (times (a.nth (d - i)) x)

theorem twice_xor (a b : Four) (d : Fin 4) (x y : BitVec 8) :
    twice a b d (x ^^^ y) = twice a b d x ^^^ twice a b d y := by
  simp only [twice, times_xor, sum4_xor]

theorem sum4_shift (f : Fin 4 → BitVec 8) (j : Fin 4) : (sum4 fun i => f (i - j)) = sum4 f := by
  simp only [sum4]
  match j with
  | 0 => rfl
  | 1 =>
      change f 3 ^^^ (f 0 ^^^ (f 1 ^^^ f 2)) = _
      ac_rfl
  | 2 =>
      change f 2 ^^^ (f 3 ^^^ (f 0 ^^^ f 1)) = _
      ac_rfl
  | 3 =>
      change f 1 ^^^ (f 2 ^^^ (f 3 ^^^ f 0)) = _
      ac_rfl

theorem mixCol_mixCol (a b : Four) (c : Col) (j : Fin 4) :
    mixCol b (mixCol a c) j = sum4 fun k => twice a b (k - j) (c k) := by
  have hsub : ∀ i j k : Fin 4, k - i = k - j - (i - j) := by decide
  simp only [mixCol, times_sum4]
  rw [sum4_comm]
  refine congrArg sum4 (funext fun k => ?_)
  have hshift := sum4_shift (fun i => times (b.nth i) (times (a.nth (k - j - i)) (c k))) j
  rw [twice, ← hshift]
  exact congrArg sum4 (funext fun i => by rw [hsub i j k])

/-- Mixing by `b` undoes mixing by `a` if it does on each bit. -/
theorem mixCol_back {a b : Four}
    (h : ∀ d : Fin 4, ∀ i < 8, twice a b d (BitVec.ofNat 8 (2 ^ i))
      = if d = 0 then BitVec.ofNat 8 (2 ^ i) else 0) (c : Col) :
    mixCol b (mixCol a c) = c := by
  have htwice (d : Fin 4) (x : BitVec 8) : twice a b d x = if d = 0 then x else 0 := by
    refine additive_ext (g := fun x => if d = 0 then x else 0) (twice_xor a b d)
      (fun x y => ?_) (h d) x
    by_cases hd : d = 0
    · simp only [hd, if_true]
    · simp only [hd, if_false, BitVec.xor_self]
      rfl
  funext j
  rw [mixCol_mixCol]
  simp only [htwice, sum4]
  match j with
  | 0 | 1 | 2 | 3 => simp

theorem pin_pen (c : Col) : mixCol pin.co (mixCol pen.co c) = c := mixCol_back (by decide +kernel) c

theorem pen_pin (c : Col) : mixCol pen.co (mixCol pin.co c) = c := mixCol_back (by decide +kernel) c

theorem box_bytes : ∀ x < 256, byte pin.su (byte pen.su x) = x ∧ byte pen.su (byte pin.su x) = x := by
  decide +kernel

theorem toNat_box' (su : Nat) (x : BitVec 8) : (box su x).toNat = byte su x.toNat := by
  rw [toNat_box, cut_one, byte, Nat.pow_mul]
  rfl

theorem box_back (x : BitVec 8) :
    box pin.su (box pen.su x) = x ∧ box pen.su (box pin.su x) = x := by
  obtain ⟨h1, h2⟩ := box_bytes x.toNat x.isLt
  constructor <;> apply BitVec.eq_of_toNat_eq <;> simpa only [toNat_box']

theorem ro_back : ∀ i c : Fin 4,
    Fin.ofNat 4 (pen.ro.nth i + (Fin.ofNat 4 (pin.ro.nth i + c) : Fin 4)) = c
      ∧ Fin.ofNat 4 (pin.ro.nth i + (Fin.ofNat 4 (pen.ro.nth i + c) : Fin 4)) = c := by decide

theorem cipher_inverse : (cipher pen).Inverse (cipher pin) where
  add_eq := rfl
  add_add a k := by
    funext c i
    exact (BitVec.xor_assoc ..).trans (by rw [BitVec.xor_self, BitVec.xor_zero])
  sub_sub a := by
    funext c i
    change box pin.su (box pen.su (a _ i)) = a c i
    rw [(ro_back i c).1, (box_back _).1]
  sub_sub' a := by
    funext c i
    change box pen.su (box pin.su (a _ i)) = a c i
    rw [(ro_back i c).2, (box_back _).2]
  mix_mix a := funext fun c => pin_pen (a c)
  mix_mix' a := funext fun c => pen_pin (a c)
  mix_add a k := by
    funext c j
    exact mixCol_xor pin.co (a c) (k c) j

/-! ### Key expansion -/

/-- Putting a round key in place of another changes no other. -/
theorem cut_can {f i j : Nat} (h : f < i + 1 + j) (x y : Nat) :
    cut 7 f 1 (can 7 [(i, cut 7 0 i x), (1, y), (j, cut 7 (i + 1) j x)])
      = if f = i then y % 2 ^ 128 else cut 7 f 1 x := by
  rw [can_cons, can_cons, can_cons, can_nil]
  apply Nat.eq_of_testBit_eq
  intro t
  simp only [cut, «end», rsh, bex_eq, Nat.testBit_mod_two_pow, Nat.testBit_div_two_pow,
    testBit_mod_add, apply_ite (Nat.testBit · t)]
  by_cases ht : t < 128
  · rcases Nat.lt_trichotomy f i with hf | rfl | hf
    · rw [if_pos (by omega), if_neg (by omega), decide_eq_true (p := _ < 2 ^ 7 * i) (by omega),
        Bool.true_and]
      rfl
    · rw [if_neg (by omega), if_pos (by omega), if_pos rfl, Nat.add_sub_cancel]
      rfl
    · have hbit : t + 2 ^ 7 * f - 2 ^ 7 * i - 2 ^ 7 * 1 + 2 ^ 7 * (i + 1) = t + 2 ^ 7 * f := by omega
      rw [if_neg (by omega), if_neg (by omega), if_pos (by omega), if_neg (by omega), hbit,
        decide_eq_true (p := _ < 2 ^ 7 * j) (by omega), Bool.true_and]
  · simp [ht]

theorem keyOf_eq (k f : Nat) : keyOf k f = block (cut 7 f 1 k) := by
  have hcut : cut 5 (f * nnb) nnb k = cut 7 f 1 k := by
    simp only [cut, «end», rsh, bex_eq, nnb]
    have hpos : 2 ^ 5 * (f * 4) = 2 ^ 7 * f := by omega
    rw [hpos]
    rfl
  rw [keyOf, hcut]

theorem sube_some {c : Nat} (hc : c < 2 ^ 2 ^ 5) (su : Nat) : ∃ w, sube c su = pure w :=
  ⟨_, by rw [← word_col hc, sube_word]⟩

section gr

variable {gr : Gr} (ht : Tables gr.p gr.q)
include ht

/-- `++ix` mixes the round keys back from `i` on, but not the last. -/
theorem ixLoop_eq {n i : Nat} (h : i + n = 14) (k : Nat) :
    ∃ k', ixLoop gr n i k = pure k' ∧ ∀ f ≤ 14,
      keyOf k' f = if i ≤ f ∧ f < 14 then (cipher pin).mix (keyOf k f) else keyOf k f := by
  induction n generalizing i k with
  | zero => exact ⟨k, rfl, fun f hf => by rw [if_neg (by omega)]⟩
  | succ n ih =>
      have hpode : pode 5 4 (cut 7 i 1 k) = pure (words (keyOf k i)) := by
        rw [← pode_atom, keyOf_eq, atom_block (cut_lt 7 i k)]
      have hstep (f : Nat) (hf : f ≤ 14) : keyOf (can 7 [(i, cut 7 0 i k),
            (1, atom ((cipher pin).mix (keyOf k i))), (nnr - i, cut 7 (i + 1) (nnr - i) k)]) f
          = if f = i then (cipher pin).mix (keyOf k i) else keyOf k f := by
        rw [keyOf_eq, cut_can (by rw [nnr]; omega), Nat.mod_eq_of_lt (atom_lt _)]
        split
        · rw [block_atom]
        · rw [keyOf_eq]
      obtain ⟨k', hrun, hkey⟩ := ih (i := i + 1) (by omega) (can 7 [(i, cut 7 0 i k),
        (1, atom ((cipher pin).mix (keyOf k i))), (nnr - i, cut 7 (i + 1) (nnr - i) k)])
      refine ⟨k', ?_, fun f hf => ?_⟩
      · rw [ixLoop, hpode, pure_bind, mcol_words ht pin_co, pure_bind]
        exact hrun
      · rw [hkey f hf, hstep f hf]
        rcases Nat.lt_trichotomy f i with hlt | rfl | hlt
        · rw [if_neg (by omega), if_neg (by omega), if_neg (by omega)]
        · rw [if_neg (by omega), if_pos rfl, if_pos (by omega)]
        · have hne : f ≠ i := by omega
          by_cases hf' : f < 14
          · rw [if_pos (by omega), if_neg hne, if_pos (by omega)]
          · rw [if_neg (by omega), if_neg hne, if_neg (by omega)]

/-- Expanding a key returns. -/
theorem exLoop_some (n i b : Nat) : ∃ k, exLoop gr n i b = pure k := by
  induction n generalizing i b with
  | zero => exact ⟨b, rfl⟩
  | succ n ih =>
      have hror : ror 5 3 1 (cut 5 (i - 1) 1 b) < 2 ^ 2 ^ 5 := by
        simp only [ror, «end», bex_eq]
        exact Nat.mod_lt _ (Nat.two_pow_pos _)
      obtain ⟨c, hc⟩ := sube_some hror pen.su
      obtain ⟨c', hc'⟩ := sube_some (cut_lt 5 (i - 1) b) pen.su
      obtain ⟨d, -, hd⟩ := pow_lt ht (i / nnk - 1) 2
      rw [exLoop]
      split
      · simp only [hc, hd, pure_bind]
        exact ih _ _
      · split
        · simp only [hc', pure_bind]
          exact ih _ _
        · rw [pure_bind]
          exact ih _ _

/-- With the expanded key, deciphering undoes ciphering, and the other way round. -/
theorem be_back (k : Nat) {b : Nat} (hb : b < 2 ^ 128) :
    ∃ k', ix gr k = pure k' ∧
      (∃ c < 2 ^ 128, be gr true k b = pure c ∧ be gr false k' c = pure b) ∧
      ∃ c < 2 ^ 128, be gr false k' b = pure c ∧ be gr true k c = pure b := by
  obtain ⟨k', hrun, hkey⟩ := ixLoop_eq ht (i := 1) (n := 13) rfl k
  have hback (f : Nat) (hf : f ≤ 14) :
      keyOf k' (14 - f) = (cipher pin).keysBack (keyOf k) 13 f := by
    rw [hkey _ (by omega), Stages.keysBack]
    by_cases hmid : f = 0 ∨ f = 14
    · rw [if_neg (by omega), if_pos hmid]
    · rw [if_pos (by omega), if_neg hmid]
  have hpen {b : Nat} (hb : b < 2 ^ 128) :
      be gr true k b = pure (atom ((cipher pen).run (keyOf k) 13 (block b))) :=
    be_eq ht pen_co (fun f _ => ankh_eq rfl k) rfl hb
  have hpin {b : Nat} (hb : b < 2 ^ 128) : be gr false k' b
      = pure (atom ((cipher pin).run ((cipher pin).keysBack (keyOf k) 13) 13 (block b))) := by
    refine be_eq ht pin_co (fun f hf => ?_) rfl hb
    rw [← hback f hf]
    exact ankh_eq (if_pos hf) k'
  refine ⟨k', hrun, ⟨_, atom_lt _, hpen hb, ?_⟩, ⟨_, atom_lt _, hpin hb, ?_⟩⟩
  · rw [hpin (atom_lt _), block_atom, cipher_inverse.decrypt_encrypt, atom_block hb]
  · rw [hpen (atom_lt _), block_atom, cipher_inverse.encrypt_decrypt, atom_block hb]

end gr

/-- Deciphering a ciphered block gives the block, and ciphering a deciphered one. -/
theorem de_en (k : Nat) {b : Nat} (hb : b < 2 ^ 128) :
    (∃ c < 2 ^ 128, en k b = pure c ∧ de k c = pure b) ∧
      ∃ c < 2 ^ 128, de k b = pure c ∧ en k c = pure b := by
  obtain ⟨p, q, hgr, ht⟩ := toe_tables
  have hgr' : gr = pure ⟨p, q⟩ := by rw [gr, hgr, pure_bind]
  obtain ⟨e, he⟩ := @exLoop_some ⟨p, q⟩ ht (nnb * (nnr + 1) - nnk) nnk k
  obtain ⟨e', he', h1, h2⟩ := @be_back ⟨p, q⟩ ht e b hb
  have hen (b : Nat) : en k b = be ⟨p, q⟩ true e b := by
    rw [en, hgr', pure_bind, ex, he, pure_bind]
  have hde (b : Nat) : de k b = be ⟨p, q⟩ false e' b := by
    rw [de, hgr', pure_bind, ex, he, pure_bind, he', pure_bind]
  simp only [hen, hde]
  exact ⟨h1, h2⟩

theorem de_en_zero :
    (∃ c < 2 ^ 128, en 0 0 = pure c ∧ de 0 c = pure 0) ∧
      ∃ c < 2 ^ 128, de 0 0 = pure c ∧ en 0 c = pure 0 := de_en 0 (by decide)

end Vere.Hoon.Aesc
