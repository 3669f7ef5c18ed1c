import PxqLlama.Pxq.Dot
import PxqLlama.Proofs.Pxq.RoundTrip
import Mathlib.Algebra.BigOperators.Ring.Finset
import Mathlib.Algebra.Order.BigOperators.Group.Finset

/-!
# `Proofs.Pxq.Dot`: both dot arms agree with the decoder

The row decoder, the scalar loop and the vector kernel read one bit layout in three
orders. `nibble q e` is the code of element `e` in the code bytes `q`. It is what the
decoder multiplies with (`pxaDeqRowPxq6_reads`), what the scalar loop adds up
(`isumRef_eq`) and what the shuffles bring to lane `e` (`toNat_avx2Cod`). The kernel's
lanes are then the same sums, and nothing saturates (`avx2P32_pair_eq`).
-/

namespace PxqLlama.Pxq

open Avx2

/-- The code of element `e` of a block with code bytes `q`. -/
def nibble (q : Nat → Nat) (e : Nat) : Nat :=
  if e % 2 = 0 then q (e / 2) &&& 0xf else q (e / 2) >>> 4

theorem nibble_lt {q : Nat → Nat} (hq : ∀ b, q b < 256) (e : Nat) : nibble q e < 16 := by
  have hb := hq (e / 2)
  rw [nibble, Nat.shiftRight_eq_div_pow]
  split
  · exact and_0xf_lt _
  · omega

/-! ### The scalar loop -/

theorem isumStep_apply (book : Nat → Int) (q : Nat → Nat) (a isum : Nat → Int)
    (b g : Nat) :
    isumStep book q a isum b g = isum g
      + (if 2 * b / 8 = g then book (nibble q (2 * b)) * a (2 * b) else 0)
      + (if (2 * b + 1) / 8 = g then book (nibble q (2 * b + 1)) * a (2 * b + 1) else 0) := by
  have h0 : nibble q (2 * b) = q b &&& 0xf := by
    rw [nibble, if_pos (by omega), Nat.mul_div_cancel_left b (by decide)]
  have h1 : nibble q (2 * b + 1) = q b >>> 4 := by
    rw [nibble, if_neg (by omega), show (2 * b + 1) / 2 = b by omega]
  have hg : (2 * b + 1) / 8 = 2 * b / 8 := by omega
  simp only [isumStep, Nat.shiftRight_eq_div_pow, show (2 : Nat) ^ 3 = 8 from rfl,
    show (2 : Nat) ^ 4 = 16 from rfl, h0, h1, hg]
  by_cases hgg : 2 * b / 8 = g
  · subst hgg
    simp
  · rw [Function.update_of_ne (Ne.symm hgg), Function.update_of_ne (Ne.symm hgg), if_neg hgg,
      if_neg hgg, add_zero, add_zero]

theorem isum_foldl (book : Nat → Int) (q : Nat → Nat) (a : Nat → Int) (n g : Nat) :
    (List.range n).foldl (isumStep book q a) (fun _ => 0) g
      = ∑ e ∈ Finset.range (2 * n), if e / 8 = g then book (nibble q e) * a e else 0 := by
  induction n with
  | zero => simp
  | succ n ih =>
    rw [List.range_succ, List.foldl_append, List.foldl_cons, List.foldl_nil, isumStep_apply,
      ih, Nat.mul_succ, Finset.sum_range_succ, Finset.sum_range_succ]

variable {β : Type} {g i : Nat}

/-- Splitting a sum over `a * b` numbers into `a` sums of `b`. -/
theorem sum_range_mul [AddCommMonoid β] (a b : Nat) (f : Nat → β) :
    ∑ i ∈ Finset.range (a * b), f i
      = ∑ i ∈ Finset.range a, ∑ j ∈ Finset.range b, f (i * b + j) := by
  induction a with
  | zero => simp
  | succ a ih => rw [Nat.succ_mul, Finset.sum_range_add, ih, Finset.sum_range_succ]

/-- `isum[g]` adds up the image of the code times the activation over the elements
`8 * g, …, 8 * g + 7`. -/
theorem isumRef_eq (book : Nat → Int) (q : Nat → Nat) (a : Nat → Int) (hg : g < 4) :
    isumRef book q a g
      = ∑ e ∈ Finset.range 8, book (nibble q (8 * g + e)) * a (8 * g + e) := by
  rw [isumRef, isum_foldl, show 2 * 16 = 4 * 8 from rfl, sum_range_mul,
    Finset.sum_eq_single_of_mem g (Finset.mem_range.mpr hg)]
  · refine Finset.sum_congr rfl (fun e he => ?_)
    have := Finset.mem_range.mp he
    rw [if_pos (by omega), Nat.mul_comm g 8]
  · intro i _ hi
    refine Finset.sum_eq_zero (fun e he => ?_)
    have := Finset.mem_range.mp he
    rw [if_neg (by omega)]

/-! ### The lanes of the kernel -/

theorem idxDup_eq (hi : i < 32) : (idxDup i).toNat = i / 2 := by
  have h : ∀ i : Fin 32, (idxDup i.val).toNat = i.val / 2 := by decide
  exact h ⟨i, hi⟩

theorem oddByte_msb (hi : i < 32) : (oddByte i).msb = decide (i % 2 = 1) := by
  have h : ∀ i : Fin 32, (oddByte i.val).msb = decide (i.val % 2 = 1) := by decide
  exact h ⟨i, hi⟩

/-- Byte `i` of the duplicated code row is code byte `i / 2`, in both halves. -/
theorem shuffle_idxDup (qc : Epi8) (hi : i < 32) :
    shuffleEpi8 (setM128i qc qc) idxDup i = qc (i / 2) := by
  have hidx := idxDup_eq hi
  rw [shuffleEpi8_of_lt (by omega), hidx, setM128i]
  split
  · rw [show 16 * (i / 16) + i / 2 = i / 2 by omega]
  · rw [show 16 * (i / 16) + i / 2 - 16 = i / 2 by omega]

/-- Lane `i` of the kernel holds the code of element `i`. -/
theorem toNat_avx2Cod (qc : Epi8) (hi : i < 32) :
    (avx2Cod qc i).toNat = nibble (fun b => (qc b).toNat) i := by
  have hhi := and_srliEpi16_four (shuffleEpi8 (setM128i qc qc) idxDup) i
  simp only [avx2Cod, blendvEpi8, oddByte_msb hi, decide_eq_true_eq]
  rw [nibble]
  split
  · rename_i hodd
    rw [if_neg (by omega), hhi, shuffle_idxDup qc hi]
  · rename_i hodd
    rw [if_pos (by omega), andSi256, shuffle_idxDup qc hi]
    rfl

/-- Lane `i` of `bv` holds the image of the code of element `i`. -/
theorem toInt_avx2Bv (B : BookI8) (qc : Epi8) (hi : i < 32) :
    (avx2Bv B qc i).toInt = B.val (nibble (fun b => (qc b).toNat) i) := by
  have hcod := toNat_avx2Cod qc hi
  have hlt := nibble_lt (fun b => (qc b).isLt) i
  have hdup : ∀ n, n < 16 → setM128i (fun i => B.i8 (Fin.ofNat 16 i))
      (fun i => B.i8 (Fin.ofNat 16 i)) (16 * (i / 16) + n) = B.i8 (Fin.ofNat 16 n) := by
    intro n hn
    rw [setM128i]
    split
    · rw [show 16 * (i / 16) + n = n by omega]
    · rw [show 16 * (i / 16) + n - 16 = n by omega]
  simp only [avx2Bv]
  rw [shuffleEpi8_of_lt (by omega), hcod, hdup _ hlt]
  rfl

theorem abs_toInt_avx2Bv (B : BookI8) (qc : Epi8) (i : Nat) : |(avx2Bv B qc i).toInt| ≤ 127 := by
  simp only [avx2Bv, shuffleEpi8]
  split
  · decide
  · rw [setM128i]
    split <;> exact B.i8_abs _

/-- **No lane saturates**: the exact value of every `maddubs` lane is a signed word, and
it is the sum of its two products. -/
theorem avx2MaddubsSum_eq (B : BookI8) (qc : Epi8) (y : PxaPxqQ8) (hi : i < 16) :
    avx2MaddubsSum B qc y i
        = B.val (nibble (fun b => (qc b).toNat) (2 * i)) * y.val (2 * i)
          + B.val (nibble (fun b => (qc b).toNat) (2 * i + 1)) * y.val (2 * i + 1) ∧
      |avx2MaddubsSum B qc y i| ≤ 32258 := by
  obtain ⟨hsum, hle⟩ := maddubsSum_sign (a := avx2Av y) (x := avx2Bv B qc)
    (fun j => y.qs_abs _) (abs_toInt_avx2Bv B qc) i
  rw [toInt_avx2Bv B qc (by omega), toInt_avx2Bv B qc (by omega)] at hsum
  exact ⟨hsum, hle⟩

/-- Doubleword lane `i` adds up elements `4 * i, …, 4 * i + 3`. -/
theorem toInt_avx2P32 (B : BookI8) (qc : Epi8) (y : PxaPxqQ8) (hi : i < 8) :
    (avx2P32 B qc y i).toInt
      = ∑ e ∈ Finset.range 4,
          B.val (nibble (fun b => (qc b).toNat) (4 * i + e)) * y.val (4 * i + e) := by
  have hlane : ∀ j < 16, (maddubsEpi16 (signEpi8 (avx2Bv B qc) (avx2Bv B qc))
      (signEpi8 (avx2Av y) (avx2Bv B qc)) j).toInt = avx2MaddubsSum B qc y j := fun j hj =>
    toInt_saturate16 (Int.le_trans (avx2MaddubsSum_eq B qc y hj).2 (by decide))
  simp only [avx2P32]
  rw [toInt_maddEpi16_one, hlane _ (by omega), hlane _ (by omega),
    (avx2MaddubsSum_eq B qc y (by omega)).1, (avx2MaddubsSum_eq B qc y (by omega)).1]
  simp only [Finset.sum_range_succ, Finset.sum_range_zero, zero_add, add_zero]
  rw [show 2 * (2 * i) = 4 * i by omega, show 2 * (2 * i + 1) = 4 * i + 2 by omega,
    show 4 * i + 2 + 1 = 4 * i + 3 by omega]
  ring

/-- A pair of doubleword lanes is one `isum` of the scalar reference. -/
theorem avx2P32_pair_eq (B : BookI8) (qc : Epi8) (y : PxaPxqQ8) (hg : g < 4) :
    (avx2P32 B qc y (2 * g)).toInt + (avx2P32 B qc y (2 * g + 1)).toInt
      = isumRef B.val (fun b => (qc b).toNat) y.val g := by
  rw [toInt_avx2P32 B qc y (by omega), toInt_avx2P32 B qc y (by omega), isumRef_eq _ _ _ hg]
  generalize (fun b => (qc b).toNat) = q
  rw [show 8 = 4 + 4 from rfl, Finset.sum_range_add]
  simp only [show 4 * (2 * g) = (4 + 4) * g by omega,
    show ∀ e, 4 * (2 * g + 1) + e = (4 + 4) * g + (4 + e) by omega]

/-! ### What the row decoder reads -/

/-- The code of column `j`. -/
def PxaDotRow.code (R : PxaDotRow) (m : Mem) (j : Nat) : Nat :=
  nibble (fun b => (R.codeBytes m (R.slab (j / 32)) b).toNat) (j % 32)

/-- The sub index of column `j`. -/
def PxaDotRow.subIndex (R : PxaDotRow) (m : Mem) (hq : Bool) (j : Nat) : Nat :=
  let byte := fun a => (m (R.slab (j / 32) + a)).toNat
  let g := j % 32 / 8
  if hq then
    if g = 0 then byte (2 * R.r) &&& 0xf
    else if g = 1 then byte (2 * R.r) >>> 4
    else if g = 2 then byte (2 * R.r + 1) &&& 0xf
    else byte (2 * R.r + 1) >>> 4
  else
    if g = 0 ∨ g = 1 then byte R.r &&& 0xf else byte R.r >>> 4

/-- The fp16 bits of the row's anchor. -/
def PxaDotRow.anchorBits (R : PxaDotRow) (m : Mem) : UInt16 := readU16 m R.panel R.r

section
variable {enabled : Bool} {tabs : PxqTables ℚ} {t : PxqType} {m : Mem} {base row k : Nat}
  {R : PxaDotRow}

/-- What a successful setup says: the type is one of the two, and `R` addresses the row. -/
theorem pxaDotRowSetup_eq_some (h : pxaDotRowSetup enabled tabs t m base row k = some R) :
    (t = .pxq4 ∨ t = .pxq4hq) ∧ k % 32 = 0 ∧ R.kbN = k / 32 ∧
      R.sub = tabs.sub t ∧ R.anchor = tabs.fp16ToFp32 (R.anchorBits m) := by
  unfold pxaDotRowSetup at h
  split at h
  · rename_i hcond
    obtain ⟨hsup, hk⟩ := hcond
    have ht : t = .pxq4 ∨ t = .pxq4hq := by
      simp only [pxaPxqDotSupported, Bool.and_eq_true, Bool.or_eq_true, beq_iff_eq] at hsup
      exact hsup.2
    have hR := Option.some.inj h
    rcases ht with rfl | rfl <;> subst hR <;> exact ⟨by simp, hk, rfl, rfl, rfl⟩
  · cases h

theorem pxaDeqPairs16_nibble [Mul β] (q : Nat → Nat) (book eff : Nat → β) (i : Nat) :
    pxaDeqPairs16 q book eff 3 i = eff (i / 8) * book (nibble q i) := by
  rw [pxaDeqPairs16, nibble, Nat.shiftRight_eq_div_pow]
  split <;> rfl

/-- The row decoder multiplies, at column `j`, the anchor, the sub scale and the book
entry that `R` addresses, whatever the tables are. -/
theorem pxaPxqDequantRow_reads (h : pxaDotRowSetup enabled tabs t m base row k = some R) [Mul β]
    (tabs' : PxqTables β) :
    ∃ out, pxaPxqDequantRow tabs' t m base row k = some out ∧ ∀ j,
      out j = tabs'.fp16ToFp32 (R.anchorBits m)
        * tabs'.sub t (R.subIndex m (t == .pxq4hq) j) * tabs'.book t (R.code m j) := by
  obtain ⟨ht, hk, -⟩ := pxaDotRowSetup_eq_some h
  unfold pxaPxqDequantRow
  rw [if_pos hk]
  unfold pxaDotRowSetup at h
  split at h
  · have hR := Option.some.inj h
    rcases ht with rfl | rfl <;> subst hR
    · -- PXQ4: two sub indices for 32 columns
      refine ⟨_, rfl, fun j => ?_⟩
      have hhq : (PxqType.pxq4 == PxqType.pxq4hq) = false := rfl
      simp only [pxaDeqRowPxq6, pxaDeqPairs16_nibble, PxaDotRow.code, PxaDotRow.codeBytes,
        PxaDotRow.subIndex, PxaDotRow.slab, PxaDotRow.anchorBits, Nat.add_assoc, hhq,
        Bool.false_eq_true, if_false]
      congr 1
      dsimp only [PxqTables.sub]
      split <;> rfl
    · -- PXQ4-HQ: four
      refine ⟨_, rfl, fun j => ?_⟩
      simp only [pxaDeqRowPxq6, pxaDeqPairs16_nibble, PxaDotRow.code, PxaDotRow.codeBytes,
        PxaDotRow.subIndex, PxaDotRow.slab, PxaDotRow.anchorBits, Nat.add_assoc,
        beq_self_eq_true, if_true]
      congr 1
      dsimp only [PxqTables.sub]
      split
      · rfl
      · split
        · rfl
        · split <;> rfl
  · cases h

end

/-! ### The scales and the block sums -/

/-- `s[g]` carries the anchor, the activation scale and the sub scale of every column of
its eight. -/
theorem pxaDotBlockScales_eq (R : PxaDotRow) (m : Mem) (kb : Nat) (d : ℚ) (hq : Bool) {e : Nat}
    (hg : g < 4) (he : e < 8) :
    pxaDotBlockScales R m (R.slab kb) d hq g
      = R.anchor * d * R.sub (R.subIndex m hq (kb * 32 + (8 * g + e))) := by
  have hkb : (kb * 32 + (8 * g + e)) / 32 = kb := by omega
  have hgrp : (kb * 32 + (8 * g + e)) % 32 / 8 = g := by omega
  simp only [pxaDotBlockScales, PxaDotRow.subIndex, hkb, hgrp]
  cases hq with
  | true =>
    simp only [if_true]
    split
    · rfl
    · split
      · rfl
      · split <;> rfl
  | false =>
    simp only [Bool.false_eq_true, if_false]
    split <;> rfl

/-- The code bytes of a slab give the codes of its columns. -/
theorem nibble_codeBytes (R : PxaDotRow) (m : Mem) (kb : Nat) {e : Nat} (he : e < 32) :
    nibble (fun b => (R.codeBytes m (R.slab kb) b).toNat) e = R.code m (kb * 32 + e) := by
  rw [PxaDotRow.code, show (kb * 32 + e) / 32 = kb by omega,
    show (kb * 32 + e) % 32 = e by omega]

/-- `isum[g]` of a block, over the codes of the row. -/
theorem isumRef_codes (R : PxaDotRow) (m : Mem) (B : BookI8) (y : PxaPxqQ8) (kb : Nat)
    (hg : g < 4) :
    isumRef B.val (fun b => (R.codeBytes m (R.slab kb) b).toNat) y.val g
      = ∑ e ∈ Finset.range 8,
          B.val (R.code m (kb * 32 + (8 * g + e))) * y.val (8 * g + e) := by
  rw [isumRef_eq _ _ _ hg]
  refine Finset.sum_congr rfl (fun e he => ?_)
  have := Finset.mem_range.mp he
  rw [nibble_codeBytes R m kb (by omega)]

/-- The sums of the reference stay far inside int32. -/
theorem isum_abs_le (B : BookI8) (q : Nat → Nat) (y : PxaPxqQ8) (hg : g < 4) :
    |isumRef B.val q y.val g| ≤ 8 * (127 * 127) := by
  rw [isumRef_eq _ _ _ hg]
  refine (Finset.abs_sum_le_sum_abs _ _).trans ?_
  refine (Finset.sum_le_card_nsmul _ _ (127 * 127) (fun e _ => ?_)).trans (by simp)
  rw [abs_mul]
  exact Int.mul_le_mul (B.i8_abs _) (y.qs_abs _) (abs_nonneg _) (by decide)

/-- The scaled sums of one block, as the reference and the kernel add them. -/
def blockSum (R : PxaDotRow) (m : Mem) (B : BookI8) (hq : Bool) (y : Nat → PxaPxqQ8)
    (kb : Nat) : ℚ :=
  ∑ g ∈ Finset.range 4, pxaDotBlockScales R m (R.slab kb) (y kb).d hq g
    * isumRef B.val (fun b => (R.codeBytes m (R.slab kb) b).toNat) (y kb).val g

/-- The decoded value of column `j` when the book is the image times its scale. -/
def imageWeight (R : PxaDotRow) (m : Mem) (B : BookI8) (hq : Bool) (j : Nat) : ℚ :=
  R.anchor * R.sub (R.subIndex m hq j) * (B.val (R.code m j) * B.scale)

/-- The sum of a block is that of the decoded products. -/
theorem blockSum_mul_scale (R : PxaDotRow) (m : Mem) (B : BookI8) (hq : Bool)
    (y : Nat → PxaPxqQ8) (kb : Nat) :
    blockSum R m B hq y kb * B.scale
      = ∑ e ∈ Finset.range 32,
          imageWeight R m B hq (kb * 32 + e) * ((y kb).d * (y kb).val e) := by
  rw [blockSum, show 32 = 4 * 8 from rfl, sum_range_mul, Finset.sum_mul]
  refine Finset.sum_congr rfl (fun g hg => ?_)
  rw [isumRef_codes R m B (y kb) kb (Finset.mem_range.mp hg), Int.cast_sum, Finset.mul_sum,
    Finset.sum_mul]
  refine Finset.sum_congr rfl (fun e he => ?_)
  rw [pxaDotBlockScales_eq R m kb (y kb).d hq (Finset.mem_range.mp hg)
    (Finset.mem_range.mp he), imageWeight, Nat.mul_comm g 8, Int.cast_mul,
    show 4 * 8 = 32 from rfl]
  ring

/-- The dot product of the decoded row with the dequantized activations. -/
def imageDot (R : PxaDotRow) (m : Mem) (B : BookI8) (hq : Bool) (y : Nat → PxaPxqQ8) : ℚ :=
  ∑ j ∈ Finset.range (R.kbN * 32),
    imageWeight R m B hq j * ((y (j / 32)).d * (y (j / 32)).val (j % 32))

theorem sum_blockSum (R : PxaDotRow) (m : Mem) (B : BookI8) (hq : Bool)
    (y : Nat → PxaPxqQ8) :
    (∑ kb ∈ Finset.range R.kbN, blockSum R m B hq y kb) * B.scale = imageDot R m B hq y := by
  rw [imageDot, sum_range_mul, Finset.sum_mul]
  refine Finset.sum_congr rfl (fun kb _ => ?_)
  rw [blockSum_mul_scale]
  refine Finset.sum_congr rfl (fun e he => ?_)
  have := Finset.mem_range.mp he
  rw [show (kb * 32 + e) / 32 = kb by omega, show (kb * 32 + e) % 32 = e by omega]

/-- A loop that adds terms to an accumulator, as a sum. -/
theorem foldl_add_eq_sum [AddCommMonoid β] (n : Nat) (f : Nat → β) :
    (List.range n).foldl (fun s i => s + f i) 0 = ∑ i ∈ Finset.range n, f i := by
  induction n with
  | zero => rfl
  | succ n ih =>
    rw [List.range_succ, List.foldl_append, ih, Finset.sum_range_succ]
    rfl

section
variable {enabled : Bool} {tabs : PxqTables ℚ} {t : PxqType} {m : Mem} {base row k : Nat}
  {R : PxaDotRow}

/-- The scalar reference returns the dot product. -/
theorem pxaPxqDotQ8Ref_eq (h : pxaDotRowSetup enabled tabs t m base row k = some R)
    (y : Nat → PxaPxqQ8) :
    pxaPxqDotQ8Ref enabled tabs t m base row k y
      = some (imageDot R m (pxaDotEnsureBook tabs.px16Book) (t == .pxq4hq) y) := by
  have hblock : ∀ kb, blockSum R m (pxaDotEnsureBook tabs.px16Book) (t == .pxq4hq) y kb = _ :=
    fun kb => by
      rw [blockSum, Finset.sum_range_succ, Finset.sum_range_succ, Finset.sum_range_succ,
        Finset.sum_range_succ, Finset.sum_range_zero, zero_add]
  rw [← sum_blockSum, ← foldl_add_eq_sum]
  simp only [pxaPxqDotQ8Ref, h, Option.bind_eq_bind, Option.bind_some, hblock]
  rfl

/-- Lane `i` of the accumulator after all blocks. -/
theorem acc_foldl (s : Nat → Nat → ℚ) (p : Nat → Nat → Int) (n i : Nat) :
    (List.range n).foldl (fun (acc : Nat → ℚ) kb i => (p kb i : ℚ) * s kb (i / 2) + acc i)
        (fun _ => 0) i
      = ∑ kb ∈ Finset.range n, (p kb i : ℚ) * s kb (i / 2) := by
  induction n with
  | zero => rfl
  | succ n ih =>
    rw [List.range_succ, List.foldl_append, Finset.sum_range_succ, ← ih, add_comm]
    rfl

/-- The vector kernel returns the dot product. -/
theorem pxaPxqDotQ8Avx2_eq (h : pxaDotRowSetup enabled tabs t m base row k = some R)
    (y : Nat → PxaPxqQ8) :
    pxaPxqDotQ8Avx2 enabled tabs t m base row k y
      = some (imageDot R m (pxaDotEnsureBook tabs.px16Book) (t == .pxq4hq) y) := by
  set B := pxaDotEnsureBook tabs.px16Book with hB
  have hpair : ∀ kb g, g < 4 →
      ((avx2P32 B (R.loadCodes m (R.slab kb)) (y kb) (2 * g)).toInt : ℚ)
        + (avx2P32 B (R.loadCodes m (R.slab kb)) (y kb) (2 * g + 1)).toInt
      = isumRef B.val (fun b => (R.codeBytes m (R.slab kb) b).toNat) (y kb).val g := by
    intro kb g hg
    rw [← Int.cast_add, avx2P32_pair_eq B _ (y kb) hg]
    rfl
  -- The lanes of one block, each with its scale, are the block's four scaled sums.
  have hlanes : ∀ kb, blockSum R m B (t == .pxq4hq) y kb
      = ∑ i ∈ Finset.range 8, ((avx2P32 B (R.loadCodes m (R.slab kb)) (y kb) i).toInt : ℚ)
          * pxaDotBlockScales R m (R.slab kb) (y kb).d (t == .pxq4hq) (i / 2) := by
    intro kb
    rw [blockSum, show 8 = 4 * 2 from rfl, sum_range_mul]
    refine Finset.sum_congr rfl (fun g hg => ?_)
    rw [← hpair kb g (Finset.mem_range.mp hg), Finset.sum_range_succ, Finset.sum_range_succ,
      Finset.sum_range_zero, zero_add, Nat.mul_comm g 2,
      show (2 * g + 0) / 2 = g by omega, show (2 * g + 1) / 2 = g by omega, Nat.add_zero]
    exact (mul_add _ _ _).trans (congrArg₂ (· + ·) (mul_comm _ _) (mul_comm _ _))
  have hacc := acc_foldl
    (fun kb => pxaDotBlockScales R m (R.slab kb) (y kb).d (t == .pxq4hq))
    (fun kb i => (avx2P32 B (R.loadCodes m (R.slab kb)) (y kb) i).toInt) R.kbN
  have hsum : ∑ kb ∈ Finset.range R.kbN, blockSum R m B (t == .pxq4hq) y kb
      = ∑ i ∈ Finset.range 8, ∑ kb ∈ Finset.range R.kbN,
          ((avx2P32 B (R.loadCodes m (R.slab kb)) (y kb) i).toInt : ℚ)
            * pxaDotBlockScales R m (R.slab kb) (y kb).d (t == .pxq4hq) (i / 2) := by
    rw [Finset.sum_comm]
    exact Finset.sum_congr rfl (fun kb _ => hlanes kb)
  simp only [Finset.sum_range_succ _ 7, Finset.sum_range_succ _ 6, Finset.sum_range_succ _ 5,
    Finset.sum_range_succ _ 4, Finset.sum_range_succ _ 3, Finset.sum_range_succ _ 2,
    Finset.sum_range_succ _ 1, Finset.sum_range_succ _ 0, Finset.sum_range_zero,
    zero_add] at hsum
  rw [← sum_blockSum, hsum]
  simp only [pxaPxqDotQ8Avx2, h, Option.bind_eq_bind, Option.bind_some, ← hB, pxaDotHsum]
  rw [hacc, hacc, hacc, hacc, hacc, hacc, hacc, hacc]
  refine congrArg (fun v => some (v * B.scale)) ?_
  ring

/-- The tables of the dequant path with the book replaced by its image times its scale. -/
def imageTables (tabs : PxqTables ℚ) : PxqTables ℚ :=
  let B := pxaDotEnsureBook tabs.px16Book
  { tabs with px16Book := fun c => B.val c * B.scale }

/-- **The integer dot agrees with the decoder and with itself.** For every buffer, row and
activation row of the two 4-bit types, in every block: no `maddubs` lane leaves the signed
words, the pairs of doubleword lanes are the four `isum`, `isum[g]` runs over the codes
of the row, and `s[g]` carries the anchor and the sub index of each of its columns. The
codes, the sub indices and the anchor are those that the row decoder reads, under every
choice of the tables. Both arms return the dot product of the decoded row, with the book
image for the book, and the dequantized activations. -/
theorem pxa_pxq_dot_exact (enabled : Bool) (tabs : PxqTables ℚ) {t : PxqType}
    (ht : pxaPxqDotSupported enabled t = true) (m : Mem) (base row : Nat) {k : Nat}
    (hk : 32 ∣ k) (x : Nat → ℚ) :
    ∃ R y, pxaDotRowSetup enabled tabs t m base row k = some R ∧
      pxaPxqQuantizeRowQ8 x k = some y ∧
      (∀ kb < k / 32,
        let B := pxaDotEnsureBook tabs.px16Book
        let qc := R.loadCodes m (R.slab kb)
        let isum := isumRef B.val (fun b => (R.codeBytes m (R.slab kb) b).toNat) (y kb).val
        (∀ i < 16, -32768 ≤ avx2MaddubsSum B qc (y kb) i ∧
          avx2MaddubsSum B qc (y kb) i ≤ 32767) ∧
        ∀ g < 4,
          (avx2P32 B qc (y kb) (2 * g)).toInt + (avx2P32 B qc (y kb) (2 * g + 1)).toInt
            = isum g ∧
          isum g = ∑ e ∈ Finset.range 8,
            B.val (R.code m (kb * 32 + (8 * g + e))) * (y kb).val (8 * g + e) ∧
          ∀ e < 8, pxaDotBlockScales R m (R.slab kb) (y kb).d (t == .pxq4hq) g
            = tabs.fp16ToFp32 (R.anchorBits m) * (y kb).d
              * tabs.sub t (R.subIndex m (t == .pxq4hq) (kb * 32 + (8 * g + e)))) ∧
      (∀ (β : Type) [Mul β] (tabs' : PxqTables β),
        ∃ out, pxaPxqDequantRow tabs' t m base row k = some out ∧ ∀ j < k,
          out j = tabs'.fp16ToFp32 (R.anchorBits m)
            * tabs'.sub t (R.subIndex m (t == .pxq4hq) j) * tabs'.book t (R.code m j)) ∧
      ∃ out, pxaPxqDequantRow (imageTables tabs) t m base row k = some out ∧
        pxaPxqDotQ8Ref enabled tabs t m base row k y
          = some (∑ j ∈ Finset.range k,
              out j * ((y (j / 32)).d * (y (j / 32)).val (j % 32))) ∧
        pxaPxqDotQ8Avx2 enabled tabs t m base row k y
          = some (∑ j ∈ Finset.range k,
              out j * ((y (j / 32)).d * (y (j / 32)).val (j % 32))) := by
  have hk0 : k % 32 = 0 := Nat.mod_eq_zero_of_dvd hk
  obtain ⟨R, hR⟩ : ∃ R, pxaDotRowSetup enabled tabs t m base row k = some R :=
    ⟨_, if_pos ⟨ht, hk0⟩⟩
  obtain ⟨hty, -, hkb, hsub, hanchor⟩ := pxaDotRowSetup_eq_some hR
  set y : Nat → PxaPxqQ8 := fun ib => quantizeBlockQ8 fun j => x (ib * 32 + j) with hy
  -- In every block: no saturation, the lane pairs, the sums and the scales. Then the decoder's
  -- reads, and the two dot products.
  refine ⟨R, y, hR, if_pos hk0, fun kb _ => ⟨fun i hi => ?_, fun g hg => ⟨?_, ?_, ?_⟩⟩,
    fun β _ tabs' => ?_, ?_⟩
  · have hle := abs_le.mp (avx2MaddubsSum_eq (pxaDotEnsureBook tabs.px16Book)
      (R.loadCodes m (R.slab kb)) (y kb) hi).2
    exact ⟨by omega, by omega⟩
  · exact avx2P32_pair_eq _ _ (y kb) hg
  · exact isumRef_codes R m _ (y kb) kb hg
  · intro e he
    rw [pxaDotBlockScales_eq R m kb _ _ hg he, hsub, hanchor]
  · obtain ⟨out, hout, hval⟩ := pxaPxqDequantRow_reads hR tabs'
    exact ⟨out, hout, fun j _ => hval j⟩
  · obtain ⟨out, hout, hval⟩ := pxaPxqDequantRow_reads hR (imageTables tabs)
    -- The decoder with the image for the book gives the weights of `imageDot`.
    have hdot : imageDot R m (pxaDotEnsureBook tabs.px16Book) (t == .pxq4hq) y
        = ∑ j ∈ Finset.range k, out j * ((y (j / 32)).d * (y (j / 32)).val (j % 32)) := by
      rw [imageDot, hkb, Nat.div_mul_cancel hk]
      refine Finset.sum_congr rfl (fun j _ => ?_)
      rw [hval j, imageWeight, hsub, hanchor]
      rcases hty with rfl | rfl <;> rfl
    refine ⟨out, hout, ?_⟩
    rw [← hdot]
    exact ⟨pxaPxqDotQ8Ref_eq hR y, pxaPxqDotQ8Avx2_eq hR y⟩

end

/-- Row 5 of a one-slab PXQ4-HQ buffer, against the activations `-10, …, 21`: both arms
return, and they return one value. -/
theorem pxa_pxq_dot_exact_hq :
    let tabs : PxqTables ℚ :=
      ⟨fun a => a.toNat, fun c => c - 7, fun i => i + 1, fun i => i + 2, fun i => i,
        fun i => i, fun i => i, fun i => i⟩
    let m : Mem := fun a => UInt8.ofNat (7 * a + 3)
    ∃ y v, pxaPxqQuantizeRowQ8 (fun j => j - 10) 32 = some y ∧
      pxaPxqDotQ8Ref true tabs .pxq4hq m 0 5 32 y = some v ∧
      pxaPxqDotQ8Avx2 true tabs .pxq4hq m 0 5 32 y = some v := by
  intro tabs m
  obtain ⟨_, y, -, hy, -, -, _, -, href, havx⟩ :=
    pxa_pxq_dot_exact true tabs (t := .pxq4hq) rfl m 0 5 (k := 32) (by decide)
      fun j => j - 10
  exact ⟨y, _, hy, href, havx⟩

end PxqLlama.Pxq
