import PxqLlama.Pxq.Dequant
import PxqLlama.Proofs.Pxq.SlabLayout

/-!
# `Proofs.Pxq.RoundTrip`: the decoders read what the scatter step stored

`RowStored` says that a memory holds the bytes of one row of a slab tensor. The
reads of a decoder are lemmas about it: the anchor (`RowStored.anchor_eq`), a scale byte
(`RowStored.scale_eq`) and a code byte (`RowStored.code_eq`), for every tier. What is
left for a tier is to undo its packing, and then its decoder returns the product of the
row's anchor, the block's sub scale and the code's book value
(`pxaDeqRowPxq2_eq` and the others).
-/

namespace PxqLlama.Pxq

open OrLoop (orLoop)

/-- The memory holds the bytes of row `row`, with codes `c`, of the `[_, K]` slab tensor
at `base`. -/
def RowStored (T : SlabTier) (m : Mem) (base K row : Nat) (c : RowCodes T.bookSize) :
    Prop :=
  ∀ l : Loc, l.WF T (K / 32) → l.row = row % 64 →
    m (base + row / 64 * T.panelBytes (K / 32) + l.addr T) = l.byte T c

/-- The scatter step stores every row of the expert. -/
theorem rowStored_run_scatterExpert {T : SlabTier} {dst R K row : Nat}
    (rows : Nat → RowCodes T.bookSize) (m : Mem) (hrow : row < R / 64 * 64) :
    RowStored T (Stores.run (scatterExpert T dst R K rows) m) dst K row (rows row) :=
  fun _ hl hlr => run_scatterExpert_apply rows m hrow hl hlr

/-! ### Reading a word back from its bytes -/

/-- The little-endian bytes of a word, read back, are the word. -/
theorem orLoop_bytes {n w : Nat} (hw : w < 2 ^ (8 * n)) :
    orLoop n (fun i => (UInt8.ofNat (w >>> (8 * i))).toNat <<< (8 * i)) = w := by
  simp only [UInt8.toNat_ofNat']
  exact OrLoop.fields_of_digits (by decide) hw

theorem and_one_eq_toNat_testBit (w e : Nat) : w >>> e &&& 1 = (w.testBit e).toNat := by
  rw [Nat.and_one_is_mod, Nat.toNat_testBit, Nat.shiftRight_eq_div_pow]

theorem toNat_testBit_zero {x : Nat} (hx : x < 2) : (x.testBit 0).toNat = x := by
  have h01 : x = 0 ∨ x = 1 := by omega
  rcases h01 with rfl | rfl <;> rfl

variable {e : Nat} {q : Nat → Nat}

/-- Bit `e` of a word of 32 one-bit fields is field `e`. -/
theorem bit_fields {v : Nat → Nat} (hv : ∀ j < 32, v j < 2) (he : e < 32) :
    orLoop 32 (fun j => v j <<< j) >>> e &&& 1 = v e := by
  have h := OrLoop.testBit_fields (n := 32) (k := 1) (by decide) hv e
  simp only [Nat.one_mul, Nat.div_one, Nat.mod_one, he, decide_true, Bool.true_and] at h
  rw [and_one_eq_toNat_testBit, h, toNat_testBit_zero (hv e he)]

/-! ### The packings undone -/

/-- The nibbles of a pair byte. -/
theorem nibbles_eq (a b : Fin 16) :
    ((UInt8.ofNat (a.val ||| b.val <<< 4)).toNat &&& 0xf = a.val) ∧
      (UInt8.ofNat (a.val ||| b.val <<< 4)).toNat >>> 4 = b.val := by
  revert a b
  decide

/-- The four 2-bit fields of a PXQ2 code byte. -/
theorem pxq2_fields_eq (a b c d : Fin 4) :
    let x := (UInt8.ofNat (a.val ||| b.val <<< 2 ||| c.val <<< 4 ||| d.val <<< 6)).toNat
    x >>> 0 &&& 3 = a.val ∧ x >>> 2 &&& 3 = b.val ∧ x >>> 4 &&& 3 = c.val ∧
      x >>> 6 &&& 3 = d.val := by
  revert a b c d
  decide

/-- The decoder's shift and mask of a PXQ2 code byte return code `e`. -/
theorem pxq2_code_eq (c : Nat → Fin 4) (e : Nat) :
    ((UInt8.ofNat (pxq2Pack (fun j => (c j).val) (e >>> 2))).toNat >>> (2 * (e &&& 3))) &&& 3
      = (c e).val := by
  obtain ⟨h0, h1, h2, h3⟩ := pxq2_fields_eq (c (4 * (e / 4))) (c (4 * (e / 4) + 1))
    (c (4 * (e / 4) + 2)) (c (4 * (e / 4) + 3))
  rw [show e >>> 2 = e / 4 from Nat.shiftRight_eq_div_pow e 2,
    show e &&& 3 = e % 4 from Nat.and_two_pow_sub_one_eq_mod e 2]
  have hdm := Nat.div_add_mod e 4
  have h4 : e % 4 = 0 ∨ e % 4 = 1 ∨ e % 4 = 2 ∨ e % 4 = 3 := by omega
  rcases h4 with h4 | h4 | h4 | h4 <;> rw [h4] at hdm ⊢
  · exact h0.trans (congrArg (fun i => (c i).val) hdm)
  · exact h1.trans (congrArg (fun i => (c i).val) hdm)
  · exact h2.trans (congrArg (fun i => (c i).val) hdm)
  · exact h3.trans (congrArg (fun i => (c i).val) hdm)

/-- The three bits of a PXQ3 code, split and joined. -/
theorem pxq3_join_eq (c : Fin 8) : (c.val &&& 3) ||| (c.val >>> 2) <<< 2 = c.val := by
  revert c
  decide

/-- The five bits of a PXQ6 code, split and joined. -/
theorem pxq6r_join_eq (c : Fin 32) : (c.val &&& 0xf) ||| (c.val >>> 4) <<< 4 = c.val := by
  revert c
  decide

/-- A PXQ1 code byte as a loop over its eight bits. -/
theorem pxq1Pack_eq (c : Nat → Nat) (i : Nat) :
    pxq1Pack c i = orLoop 8 (fun t => c (8 * i + t) <<< (1 * t)) := by
  simp [pxq1Pack, orLoop, List.range_succ]

/-- The word of a PXQ1 code row has code `e` at bit `e`. -/
theorem pxq1_word_bit (c : Nat → Fin 2) (he : e < 32) :
    orLoop 4 (fun i => (UInt8.ofNat (pxq1Pack (fun j => (c j).val) i)).toNat <<< (8 * i))
      >>> e &&& 1 = (c e).val := by
  have hbyte : ∀ i, pxq1Pack (fun j => (c j).val) i < 2 ^ 8 := by
    intro i
    rw [pxq1Pack_eq]
    refine OrLoop.orLoop_lt (fun t ht => ?_)
    exact OrLoop.shiftLeft_lt (k := 1) (c (8 * i + t)).isLt (by omega)
  have hnat : ∀ i, (UInt8.ofNat (pxq1Pack (fun j => (c j).val) i)).toNat
      = pxq1Pack (fun j => (c j).val) i := fun i => by
    rw [UInt8.toNat_ofNat', Nat.mod_eq_of_lt (hbyte i)]
  simp only [hnat]
  rw [and_one_eq_toNat_testBit, OrLoop.testBit_fields (by decide) (fun i _ => hbyte i),
    decide_eq_true (show e / 8 < 4 by omega), Bool.true_and, pxq1Pack_eq,
    OrLoop.testBit_fields (by decide) (fun t _ => (c (8 * (e / 8) + t)).isLt)]
  have hidx : 8 * (e / 8) + e % 8 = e := Nat.div_add_mod e 8
  simp only [Nat.div_one, Nat.mod_one, hidx, decide_eq_true (show e % 8 < 8 by omega),
    Bool.true_and]
  exact toNat_testBit_zero (c e).isLt

/-- The word of the third bits of a PXQ3 code row: bit `e` is the third bit of code `e`. -/
theorem pxq3_w2_bit (c : Nat → Fin 8) (he : e < 32) :
    orLoop 16 (fun j => ((c j).val >>> 2) <<< j ||| ((c (16 + j)).val >>> 2) <<< (16 + j))
      >>> e &&& 1 = (c e).val >>> 2 := by
  have hlt : ∀ x : Fin 8, x.val >>> 2 < 2 := by decide
  rw [OrLoop.orLoop_halves 16 (fun j => ((c j).val >>> 2) <<< j)]
  exact bit_fields (v := fun j => (c j).val >>> 2) (fun j _ => hlt (c j)) he

/-- The word of the fifth bits of a PXQ6 code row: bit `e` is the fifth bit of code `e`. -/
theorem pxq6r_hi_bit (c : Nat → Fin 32) (he : e < 32) :
    orLoop 16 (fun b => ((c (2 * b)).val >>> 4) <<< (2 * b)
        ||| ((c (2 * b + 1)).val >>> 4) <<< (2 * b + 1)) >>> e &&& 1 = (c e).val >>> 4 := by
  have hlt : ∀ x : Fin 32, x.val >>> 4 < 2 := by decide
  rw [OrLoop.orLoop_pairs 16 (fun j => ((c j).val >>> 4) <<< j)]
  exact bit_fields (v := fun j => (c j).val >>> 4) (fun j _ => hlt (c j)) he

/-- The low two bits of a PXQ3 code, from the word they are packed in. -/
theorem pxq3_low_bits (c : Nat → Fin 8) (he : e < 16) :
    orLoop 16 (fun j => ((c j).val &&& 3) <<< (2 * j)) >>> (2 * e) &&& 3
      = (c e).val &&& 3 := by
  have hlt : ∀ x : Fin 8, x.val &&& 3 < 2 ^ 2 := by decide
  rw [show (3 : Nat) = 2 ^ 2 - 1 from rfl, Nat.and_two_pow_sub_one_eq_mod]
  exact OrLoop.field_shiftRight_mod (v := fun j => (c j).val &&& 3)
    (fun j _ => hlt (c j)) he

/-! ### The reads of a decoder -/

theorem shiftRight_six (row : Nat) : row >>> 6 = row / 64 := Nat.shiftRight_eq_div_pow row 6

theorem and_63 (row : Nat) : row &&& 63 = row % 64 := Nat.and_two_pow_sub_one_eq_mod row 6

section
variable {T : SlabTier} {m : Mem} {base K row j : Nat} {c : RowCodes T.bookSize}

theorem RowStored.anchor_eq (h : RowStored T m base K row c) :
    readU16 m (base + (row >>> 6) * T.panelBytes (K / 32)) (row &&& 63) = c.anchor := by
  have hr : row % 64 < 64 := Nat.mod_lt row (by decide)
  have hlo := h (.anchor (row % 64) false) hr rfl
  have hhi := h (.anchor (row % 64) true) hr rfl
  have hword := orLoop_bytes (n := 2) (w := c.anchor.toNat) c.anchor.toNat_lt
  simp only [orLoop, List.range_succ, List.range_zero, List.nil_append,
    List.cons_append, List.foldl_cons, List.foldl_nil, Nat.zero_or, Nat.mul_zero,
    Nat.shiftRight_zero, Nat.shiftLeft_zero, Nat.mul_one] at hword
  simp only [Loc.addr, Loc.byte, Bool.toNat_false, Bool.toNat_true, Nat.add_zero] at hlo hhi
  rw [shiftRight_six, and_63, readU16, hlo, Nat.add_assoc, hhi, hword]
  exact UInt16.ofNat_toNat

theorem RowStored.scale_eq (h : RowStored T m base K row c) {kb i : Nat}
    (hkb : kb < K / 32) (hi : i < T.scPerRow) :
    m (base + (row >>> 6) * T.panelBytes (K / 32) + T.hdrBytes + kb * T.slabBytes
        + (T.scPerRow * (row &&& 63) + i))
      = UInt8.ofNat (T.packScales (fun i => (c.s4 (kb * (32 / T.bs) + i)).val) i) := by
  have hb := h (.scale kb (row % 64) i) ⟨hkb, Nat.mod_lt row (by decide), hi⟩ rfl
  simpa only [Loc.addr, Loc.byte, shiftRight_six, and_63, Nat.add_assoc] using hb

theorem RowStored.code_eq (h : RowStored T m base K row c) {kb b : Nat}
    (hkb : kb < K / 32) (hb : b < T.codeBytes) :
    m (base + (row >>> 6) * T.panelBytes (K / 32) + T.hdrBytes + kb * T.slabBytes + T.codeOff
        + (row &&& 63) * T.codeBytes + b)
      = UInt8.ofNat (T.packCodes (fun j => (c.codes (kb * 32 + j)).val) b) := by
  have hb := h (.code kb (row % 64) b) ⟨hkb, Nat.mod_lt row (by decide), hb⟩ rfl
  simpa only [Loc.addr, Loc.byte, shiftRight_six, and_63, Nat.add_assoc] using hb

theorem RowStored.code_eq_assoc (h : RowStored T m base K row c) {kb b : Nat}
    (hkb : kb < K / 32) (hb : b < T.codeBytes) :
    m (base + (row >>> 6) * T.panelBytes (K / 32) + T.hdrBytes + kb * T.slabBytes
        + (T.codeOff + (row &&& 63) * T.codeBytes + b))
      = UInt8.ofNat (T.packCodes (fun j => (c.codes (kb * 32 + j)).val) b) := by
  rw [← Nat.add_assoc, ← Nat.add_assoc]
  exact h.code_eq hkb hb

/-- In a tier with one scale byte for a row, the scale of column `j` is the one of the column's
16-element block. -/
theorem RowStored.eff_eq {α : Type} [Mul α] (tabs : PxqTables α) (h : RowStored T m base K row c)
    (hsc : T.scPerRow = 1) (hbs : T.bs = 16) (hpack : T.packScales = packScale16)
    (hj : j / 32 < K / 32) :
    (if j % 32 < 16 then
        tabs.fp16ToFp32 (readU16 m (base + (row >>> 6) * T.panelBytes (K / 32)) (row &&& 63))
          * tabs.sub16 ((m (base + (row >>> 6) * T.panelBytes (K / 32) + T.hdrBytes
            + j / 32 * T.slabBytes + (row &&& 63))).toNat &&& 0xf)
      else
        tabs.fp16ToFp32 (readU16 m (base + (row >>> 6) * T.panelBytes (K / 32)) (row &&& 63))
          * tabs.sub16 ((m (base + (row >>> 6) * T.panelBytes (K / 32) + T.hdrBytes
            + j / 32 * T.slabBytes + (row &&& 63))).toNat >>> 4))
      = tabs.fp16ToFp32 c.anchor * tabs.sub16 (c.s4 (j / 16)).val := by
  have hb := h.scale_eq (i := 0) hj (by omega)
  rw [hsc, Nat.one_mul, Nat.add_zero, hpack, hbs] at hb
  have hnib := nibbles_eq (c.s4 (j / 32 * 2 + 0)) (c.s4 (j / 32 * 2 + 1))
  rw [h.anchor_eq, hb]
  split
  · rename_i he
    rw [show j / 16 = j / 32 * 2 + 0 from by omega]
    exact congrArg (fun x => _ * tabs.sub16 x) hnib.1
  · rename_i he
    rw [show j / 16 = j / 32 * 2 + 1 from by omega]
    exact congrArg (fun x => _ * tabs.sub16 x) hnib.2

end

/-! ### The decoders -/

section
variable {α : Type} [Mul α] (tabs : PxqTables α) {m : Mem} {base k row j : Nat}

theorem ite_mul_ite {p : Prop} [Decidable p] (x y a b : α) :
    (if p then x * a else y * b) = (if p then x else y) * (if p then a else b) := by
  split <;> rfl

/-- The code of a column, at its place in the slab. -/
theorem codes_div_add_mod {n : Nat} (c : RowCodes n) :
    c.codes (j / 32 * 32 + j % 32) = c.codes j :=
  congrArg c.codes (Nat.div_add_mod' j 32)

theorem pxaDeqRowPxq2_eq {c : RowCodes pxq2Tier.bookSize}
    (h : RowStored pxq2Tier m base k row c) (hj : j / 32 < k / 32) :
    pxaDeqRowPxq2 tabs m base row k j
      = tabs.fp16ToFp32 c.anchor * tabs.sub16 (c.s4 (j / 16)).val
        * tabs.lm4 (c.codes j).val := by
  have hq := h.code_eq hj (show (j % 32) >>> 2 < 8 by rw [Nat.shiftRight_eq_div_pow]; omega)
  refine congrArg₂ (· * ·) (h.eff_eq tabs rfl rfl rfl hj) (congrArg tabs.lm4 ?_)
  refine (congrArg (fun b : UInt8 => b.toNat >>> (2 * (j % 32 &&& 3)) &&& 3) hq).trans ?_
  exact (pxq2_code_eq (fun i => c.codes (j / 32 * 32 + i)) (j % 32)).trans
    (congrArg Fin.val (codes_div_add_mod c))

theorem pxaDeqRowPxq1_eq {c : RowCodes pxq1Tier.bookSize}
    (h : RowStored pxq1Tier m base k row c) (hj : j / 32 < k / 32) :
    pxaDeqRowPxq1 tabs m base row k j
      = tabs.fp16ToFp32 c.anchor * tabs.sub16 (c.s4 (j / 16)).val
        * tabs.sign (c.codes j).val := by
  refine congrArg₂ (· * ·) (h.eff_eq tabs rfl rfl rfl hj) (congrArg tabs.sign ?_)
  have hw := OrLoop.orLoop_congr (n := 4) (fun i hi =>
    congrArg (fun b : UInt8 => b.toNat <<< (8 * i)) (h.code_eq hj (b := i) hi))
  refine (congrArg (· >>> (j % 32) &&& 1) hw).trans ?_
  exact (pxq1_word_bit (fun i => c.codes (j / 32 * 32 + i)) (Nat.mod_lt j (by decide))).trans
    (congrArg Fin.val (codes_div_add_mod c))

/-- A little-endian word whose four bytes are stored at `a`. -/
theorem readU32_eq {a w : Nat} (hw : w < 2 ^ (8 * 4))
    (h : ∀ i < 4, m (a + i) = UInt8.ofNat (w >>> (8 * i))) : readU32 m a = w :=
  (OrLoop.orLoop_congr (fun i hi => by rw [h i hi])).trans (orLoop_bytes hw)

/-- The three words of a PXQ3 code row. -/
theorem pxq3_words_eq {a : Nat} (hq : ∀ j, q j < 8)
    (hcode : ∀ b < 12, m (a + b) = UInt8.ofNat (pxq3Pack32 q b)) :
    readU32 m a = orLoop 16 (fun j => (q j &&& 3) <<< (2 * j)) ∧
    readU32 m (a + 4) = orLoop 16 (fun j => (q (16 + j) &&& 3) <<< (2 * j)) ∧
    readU32 m (a + 8) = orLoop 16 (fun j =>
      (q j >>> 2) <<< j ||| (q (16 + j) >>> 2) <<< (16 + j)) := by
  have hlow : ∀ x j : Nat, j < 16 → (x &&& 3) <<< (2 * j) < 2 ^ (8 * 4) := fun x j hj =>
    OrLoop.shiftLeft_lt (k := 2) (Nat.lt_succ_of_le Nat.and_le_right) (by omega)
  have hhigh : ∀ j e : Nat, e < 32 → (q j >>> 2) <<< e < 2 ^ (8 * 4) := fun j e he => by
    refine OrLoop.shiftLeft_lt (k := 1) ?_ (by omega)
    have := hq j
    rw [Nat.shiftRight_eq_div_pow]
    omega
  -- Word `w` of the row is stored in bytes `4 * w, …, 4 * w + 3`, and fits in them.
  refine ⟨readU32_eq (OrLoop.orLoop_lt (fun j hj => hlow _ j hj)) ?_,
    readU32_eq (OrLoop.orLoop_lt (fun j hj => hlow _ j hj)) ?_,
    readU32_eq (OrLoop.orLoop_lt (fun j hj => Nat.or_lt_two_pow (hhigh j j (by omega))
      (hhigh (16 + j) (16 + j) (by omega)))) ?_⟩
  · intro i hi
    rw [hcode i (by omega), pxq3Pack32, if_pos hi]
  · intro i hi
    rw [Nat.add_assoc, hcode (4 + i) (by omega), pxq3Pack32, if_neg (by omega),
      if_pos (by omega), Nat.add_sub_cancel_left]
  · intro i hi
    rw [Nat.add_assoc, hcode (8 + i) (by omega), pxq3Pack32, if_neg (by omega),
      if_neg (by omega), Nat.add_sub_cancel_left]

/-- PXQ3: an element decoded from the bytes that store its code. -/
theorem pxaDeqRowPxq3_eq {c : RowCodes pxq3Tier.bookSize}
    (h : RowStored pxq3Tier m base k row c) (hj : j / 32 < k / 32) :
    pxaDeqRowPxq3 tabs m base row k j
      = tabs.fp16ToFp32 c.anchor * tabs.sub16 (c.s4 (j / 16)).val
        * tabs.lm8 (c.codes j).val := by
  obtain ⟨hw0, hw1, hw2⟩ := pxq3_words_eq (q := fun i => (c.codes (j / 32 * 32 + i)).val)
    (fun i => (c.codes (j / 32 * 32 + i)).isLt) (fun b hb => h.code_eq hj hb)
  have hbit := pxq3_w2_bit (fun i => c.codes (j / 32 * 32 + i)) (Nat.mod_lt j (by decide))
  rw [codes_div_add_mod] at hbit
  refine (ite_mul_ite _ _ _ _).trans (congrArg₂ (· * ·) (h.eff_eq tabs rfl rfl rfl hj) ?_)
  split
  · rename_i he
    have hlow := pxq3_low_bits (fun i => c.codes (j / 32 * 32 + i)) he
    rw [codes_div_add_mod] at hlow
    refine congrArg tabs.lm8 ((congrArg₂ (· ||| · <<< 2) ?_ ?_).trans (pxq3_join_eq (c.codes j)))
    · exact (congrArg (· >>> (2 * (j % 32)) &&& 3) hw0).trans hlow
    · exact (congrArg (· >>> (j % 32) &&& 1) hw2).trans hbit
  · rename_i he
    -- The upper half reads `w1` at `e - 16` and `w2` at `16 + (e - 16)`.
    have he16 : 16 + (j % 32 - 16) = j % 32 := by omega
    have hlow := pxq3_low_bits (fun i => c.codes (j / 32 * 32 + (16 + i)))
      (show j % 32 - 16 < 16 by omega)
    rw [he16, codes_div_add_mod] at hlow
    rw [← he16] at hbit
    refine congrArg tabs.lm8 ((congrArg₂ (· ||| · <<< 2) ?_ ?_).trans (pxq3_join_eq (c.codes j)))
    · exact (congrArg (· >>> (2 * (j % 32 - 16)) &&& 3) hw1).trans hlow
    · exact (congrArg (· >>> (16 + (j % 32 - 16)) &&& 1) hw2).trans hbit

/-- The word of the fifth bits and the nibble bytes of a PXQ6 code row. -/
theorem pxq6r_reads_eq {a : Nat} (hq : ∀ j, q j < 32)
    (hcode : ∀ b < 20, m (a + b) = UInt8.ofNat (pxq6rPack32 q b)) :
    readU32 m (a + 16) = orLoop 16 (fun b =>
      (q (2 * b) >>> 4) <<< (2 * b) ||| (q (2 * b + 1) >>> 4) <<< (2 * b + 1)) ∧
    ∀ b < 16, m (a + b)
      = UInt8.ofNat ((q (2 * b) &&& 0xf) ||| (q (2 * b + 1) &&& 0xf) <<< 4) := by
  have hhigh : ∀ j e : Nat, e < 32 → (q j >>> 4) <<< e < 2 ^ (8 * 4) := fun j e he => by
    refine OrLoop.shiftLeft_lt (k := 1) ?_ (by omega)
    have := hq j
    rw [Nat.shiftRight_eq_div_pow]
    omega
  refine ⟨readU32_eq (OrLoop.orLoop_lt (fun b hb => Nat.or_lt_two_pow
    (hhigh _ _ (by omega)) (hhigh _ _ (by omega)))) ?_, ?_⟩
  · intro i hi
    rw [Nat.add_assoc, hcode (16 + i) (by omega), pxq6rPack32, if_neg (by omega),
      Nat.add_sub_cancel_left]
  · intro b hb
    rw [hcode b (by omega), pxq6rPack32, if_pos hb]

theorem and_0xf_lt (x : Nat) : x &&& 0xf < 16 := Nat.lt_succ_of_le Nat.and_le_right

/-- PXQ6R: the same, with the low and the high bits of the code joined. -/
theorem pxaDeqRowPxq6r_eq {c : RowCodes pxq6rTier.bookSize}
    (h : RowStored pxq6rTier m base k row c) (hj : j / 32 < k / 32) :
    pxaDeqRowPxq6r tabs m base row k j
      = tabs.fp16ToFp32 c.anchor * tabs.sub16 (c.s4 (j / 16)).val
        * tabs.lm32 (c.codes j).val := by
  obtain ⟨hhi, hnib⟩ := pxq6r_reads_eq (q := fun i => (c.codes (j / 32 * 32 + i)).val)
    (fun i => (c.codes (j / 32 * 32 + i)).isLt) (fun b hb => h.code_eq hj hb)
  have hbit := fun e he => pxq6r_hi_bit (fun i => c.codes (j / 32 * 32 + i)) (e := e) he
  -- Columns `2 * b` and `2 * b + 1` share nibble byte `b`.
  have hb := hnib (j % 32 / 2) (by omega)
  have hpair := nibbles_eq
    ⟨(c.codes (j / 32 * 32 + 2 * (j % 32 / 2))).val &&& 0xf, and_0xf_lt _⟩
    ⟨(c.codes (j / 32 * 32 + (2 * (j % 32 / 2) + 1))).val &&& 0xf, and_0xf_lt _⟩
  refine congrArg₂ (· * ·) (h.eff_eq tabs rfl rfl rfl hj) (congrArg tabs.lm32 ?_)
  refine Eq.trans ?_ (pxq6r_join_eq (c.codes j))
  split
  · rename_i he
    have hcode : c.codes (j / 32 * 32 + 2 * (j % 32 / 2)) = c.codes j := by
      rw [show 2 * (j % 32 / 2) = j % 32 by omega, codes_div_add_mod]
    refine congrArg₂ (· ||| · <<< 4) ?_ ?_
    · exact (congrArg (UInt8.toNat · &&& 0xf) hb).trans
        (hpair.1.trans (congrArg (Fin.val · &&& 0xf) hcode))
    · exact (congrArg (· >>> _ &&& 1) hhi).trans
        ((hbit _ (by omega)).trans (congrArg (Fin.val · >>> 4) hcode))
  · rename_i he
    have hcode : c.codes (j / 32 * 32 + (2 * (j % 32 / 2) + 1)) = c.codes j := by
      rw [show 2 * (j % 32 / 2) + 1 = j % 32 by omega, codes_div_add_mod]
    refine congrArg₂ (· ||| · <<< 4) ?_ ?_
    · exact (congrArg (UInt8.toNat · >>> 4) hb).trans
        (hpair.2.trans (congrArg (Fin.val · &&& 0xf) hcode))
    · exact (congrArg (· >>> _ &&& 1) hhi).trans
        ((hbit _ (by omega)).trans (congrArg (Fin.val · >>> 4) hcode))

/-- A nibble row read at column `i`. -/
theorem pxaDeqPairs16_eq {c : Nat → Fin 16} (book eff : Nat → α) {i : Nat}
    (hq : q (i / 2) = (UInt8.ofNat (packPairs (fun i => (c i).val) (i / 2))).toNat) :
    pxaDeqPairs16 q book eff 3 i = eff (i / 8) * book (c i).val := by
  have hpair := nibbles_eq (c (2 * (i / 2))) (c (2 * (i / 2) + 1))
  rw [pxaDeqPairs16, hq, packPairs, hpair.1, hpair.2, Nat.shiftRight_eq_div_pow]
  split
  · rename_i he
    rw [show 2 * (i / 2) = i by omega]
  · rename_i he
    rw [show 2 * (i / 2) + 1 = i by omega]

theorem pxaDeqRowPxq6_core_eq {c : RowCodes (pxq6Tier false).bookSize}
    (h : RowStored (pxq6Tier false) m base k row c) (hj : j / 32 < k / 32) :
    pxaDeqRowPxq6 tabs m base row k false j
      = tabs.fp16ToFp32 c.anchor * tabs.sub16 (c.s4 (j / 16)).val
        * tabs.px16Book (c.codes j).val := by
  have hq := congrArg UInt8.toNat (h.code_eq_assoc hj (show j % 32 / 2 < 16 by omega))
  rw [pxaDeqRowPxq6]
  refine (pxaDeqPairs16_eq (c := fun i => c.codes (j / 32 * 32 + i)) _ _ hq).trans ?_
  refine congrArg₂ (· * ·) ?_ (congrArg (tabs.px16Book ·.val) (codes_div_add_mod c))
  -- The four entries of `eff` are two scales, each for 16 columns.
  have hg : (j % 32 / 8 = 0 ∨ j % 32 / 8 = 1) ↔ j % 32 < 16 := by omega
  exact (if_congr hg rfl rfl).trans (h.eff_eq tabs rfl rfl rfl hj)

/-- PXQ6 with sub-scales of eight bits. -/
theorem pxaDeqRowPxq6_hq_eq {c : RowCodes (pxq6Tier true).bookSize}
    (h : RowStored (pxq6Tier true) m base k row c) (hj : j / 32 < k / 32) :
    pxaDeqRowPxq6 tabs m base row k true j
      = tabs.fp16ToFp32 c.anchor * tabs.sub8 (c.s4 (j / 8)).val
        * tabs.px16Book (c.codes j).val := by
  have hq := congrArg UInt8.toNat (h.code_eq_assoc hj (show j % 32 / 2 < 16 by omega))
  rw [pxaDeqRowPxq6]
  refine (pxaDeqPairs16_eq (c := fun i => c.codes (j / 32 * 32 + i)) _ _ hq).trans ?_
  refine congrArg₂ (· * ·) ?_ (congrArg (tabs.px16Book ·.val) (codes_div_add_mod c))
  have ha := congrArg tabs.fp16ToFp32 h.anchor_eq
  have hs0 := h.scale_eq (i := 0) hj (by decide)
  have hs1 := h.scale_eq (i := 1) hj (by decide)
  have hn0 := nibbles_eq (c.s4 (j / 32 * 4 + 0)) (c.s4 (j / 32 * 4 + 1))
  have hn1 := nibbles_eq (c.s4 (j / 32 * 4 + 2)) (c.s4 (j / 32 * 4 + 3))
  -- Column `j` lies in block `j % 32 / 8` of its slab.
  have hg : j % 32 / 8 = 0 ∨ j % 32 / 8 = 1 ∨ j % 32 / 8 = 2 ∨ j % 32 / 8 = 3 := by omega
  rw [show j / 8 = j / 32 * 4 + j % 32 / 8 by omega]
  rcases hg with hg | hg | hg | hg <;> rw [hg] <;> refine congrArg₂ (· * ·) ha (congrArg tabs.sub8 ?_)
  · exact (congrArg (UInt8.toNat · &&& 0xf) hs0).trans hn0.1
  · exact (congrArg (UInt8.toNat · >>> 4) hs0).trans hn0.2
  · exact (congrArg (UInt8.toNat · &&& 0xf) hs1).trans hn1.1
  · exact (congrArg (UInt8.toNat · >>> 4) hs1).trans hn1.2

/-! ### Every tier -/

/-- The row decoder of a type, on a stored row: column `j` is the row's anchor times its
block's sub scale times its code's book value. -/
theorem pxaPxqDequantRow_eq (t : PxqType) (hk : 32 ∣ k) {c : RowCodes t.tier.bookSize}
    (h : RowStored t.tier m base k row c) :
    ∃ out, pxaPxqDequantRow tabs t m base row k = some out ∧ ∀ j < k,
      out j = tabs.fp16ToFp32 c.anchor * tabs.sub t (c.s4 (j / t.tier.bs)).val
        * tabs.book t (c.codes j).val := by
  have hdiv : ∀ j < k, j / 32 < k / 32 := fun j hj => by
    obtain ⟨n, rfl⟩ := hk
    omega
  unfold pxaPxqDequantRow
  rw [if_pos (Nat.mod_eq_zero_of_dvd hk)]
  cases t with
  | pxq1 => exact ⟨_, rfl, fun j hj => pxaDeqRowPxq1_eq tabs h (hdiv j hj)⟩
  | pxq2 => exact ⟨_, rfl, fun j hj => pxaDeqRowPxq2_eq tabs h (hdiv j hj)⟩
  | pxq3 => exact ⟨_, rfl, fun j hj => pxaDeqRowPxq3_eq tabs h (hdiv j hj)⟩
  | pxq4 => exact ⟨_, rfl, fun j hj => pxaDeqRowPxq6_core_eq tabs h (hdiv j hj)⟩
  | pxq4hq => exact ⟨_, rfl, fun j hj => pxaDeqRowPxq6_hq_eq tabs h (hdiv j hj)⟩
  | pxq6 => exact ⟨_, rfl, fun j hj => pxaDeqRowPxq6r_eq tabs h (hdiv j hj)⟩

/-- **The slab layout round trip.** For every tier, the buffer left by the scatter step of
an `[R, K]` expert decodes, at every row and column, to the row's own anchor, the block's
own sub index and the element's own code. Every byte of the buffer is written, nothing
outside it is, and no byte is written for two rows. -/
theorem slab_round_trip (t : PxqType) {R K : Nat} (hR : 64 ∣ R) (hK : 32 ∣ K) (dst : Nat)
    (rows : Nat → RowCodes t.tier.bookSize) (m₀ : Mem) :
    (∀ row < R, ∃ out,
      pxaPxqDequantRow tabs t (Stores.run (scatterExpert t.tier dst R K rows) m₀) dst row K
        = some out ∧
      ∀ j < K, out j = tabs.fp16ToFp32 (rows row).anchor
        * tabs.sub t ((rows row).s4 (j / t.tier.bs)).val
        * tabs.book t ((rows row).codes j).val) ∧
    (∀ w, w ∈ scatterExpert t.tier dst R K rows ↔
      ∃ row < R, w ∈ scatterExpertRow t.tier dst K rows row) ∧
    (∀ a, (∃ row < R, ∃ w ∈ scatterExpertRow t.tier dst K rows row, w.1 = a) ↔
      dst ≤ a ∧ a < dst + R / 64 * (t.tier.hdrBytes + K / 32 * t.tier.slabBytes)) ∧
    (∀ row < R, ∀ row' < R, ∀ w ∈ scatterExpertRow t.tier dst K rows row,
      ∀ w' ∈ scatterExpertRow t.tier dst K rows row', w.1 = w'.1 → row = row') := by
  have hRe : R / 64 * 64 = R := Nat.div_mul_cancel hR
  -- decoding; the stores; the bytes that are written; no byte for two rows
  refine ⟨fun row hrow => ?_, fun w => ?_, fun a => ⟨?_, fun ha => ?_⟩, ?_⟩
  · exact pxaPxqDequantRow_eq tabs t hK
      (rowStored_run_scatterExpert rows m₀ (by rwa [hRe]))
  · rw [mem_scatterExpert, hRe]
  · rintro ⟨row, hrow, w, hw, rfl⟩
    obtain ⟨l, hl, _, rfl⟩ := mem_scatterExpertRow.mp hw
    have hp : row / 64 < R / 64 := by omega
    have hlt := SlabTier.mul_add_lt hp (t.tier.addr_lt hl)
    rw [SlabTier.panelBytes] at hlt ⊢
    exact ⟨by omega, by omega⟩
  · have h := exists_scatterExpertRow rows ha.1 ha.2
    rwa [hRe] at h
  · intro row _ row' _ w hw w' hw' heq
    obtain ⟨l, hl, hlr, rfl⟩ := mem_scatterExpertRow.mp hw
    obtain ⟨l', hl', hlr', rfl⟩ := mem_scatterExpertRow.mp hw'
    exact (scatterExpertRow_inj hl hl' hlr hlr' heq).1

end

/-- Row 5, column 23 of a 64 × 32 PXQ3 tensor, with tables that return `index + 1`:
anchor 500, sub index 1 and code 7 come back. -/
theorem slab_round_trip_pxq3 :
    let tabs : PxqTables Nat :=
      ⟨UInt16.toNat, (· + 1), (· + 1), (· + 1), (· + 1), (· + 1), (· + 1), (· + 1)⟩
    let rows : Nat → RowCodes 8 := fun r =>
      ⟨UInt16.ofNat (100 * r), fun b => Fin.ofNat 16 b, fun j => Fin.ofNat 8 j⟩
    ∃ out, pxaPxqDequantRow tabs .pxq3
        (Stores.run (scatterExpert pxq3Tier 0 64 32 rows) fun _ => 0) 0 5 32 = some out ∧
      out 23 = 500 * 2 * 8 := by
  intro tabs rows
  obtain ⟨out, hout, hval⟩ :=
    (slab_round_trip tabs .pxq3 (R := 64) (K := 32) (by decide) (by decide) 0 rows
      fun _ => 0).1 5 (by decide)
  exact ⟨out, hout, hval 23 (by decide)⟩

end PxqLlama.Pxq
