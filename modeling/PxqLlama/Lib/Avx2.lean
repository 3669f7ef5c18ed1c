import Mathlib.Algebra.Order.Ring.Abs
import Mathlib.Tactic.Ring

/-!
# `Lib.Avx2`: integer AVX2 intrinsics, lane by lane

A 256-bit register is read as 32 bytes, 16 words or 8 doublewords, each a function from
the lane number. The definitions follow the intrinsics' documented lane behaviour:
shuffles stay inside a 128-bit half, `_mm256_maddubs_epi16` takes its first operand as
unsigned and saturates, `_mm256_sign_epi8` negates modulo `2 ^ 8`.

The lemmas are the two idioms that nibble-coded dot products use. `and_srliEpi16_four`
is the high nibble of every byte by a word shift and a mask. `maddubs_sign` multiplies
signed bytes with the unsigned-by-signed instruction: the absolute value on one side, the
sign moved to the other. With both operands in `[-127, 127]` the sum of two products
stays inside a signed word, so nothing saturates.
-/

namespace Avx2

abbrev Epi8 : Type := Nat → BitVec 8
abbrev Epi16 : Type := Nat → BitVec 16
abbrev Epi32 : Type := Nat → BitVec 32

/-- `_mm256_set_m128i(hi, lo)`. -/
def setM128i (hi lo : Epi8) : Epi8 := fun i => if i < 16 then lo i else hi (i - 16)

/-- `_mm256_setr_epi8`, from the list of its arguments. -/
def setrEpi8 (l : List (BitVec 8)) : Epi8 := fun i => l.getD i 0

/-- `_mm256_set1_epi8`. -/
def set1Epi8 (x : BitVec 8) : Epi8 := fun _ => x

/-- `_mm256_set1_epi16`. -/
def set1Epi16 (x : BitVec 16) : Epi16 := fun _ => x

/-- `_mm256_shuffle_epi8`: byte `idx & 15` of the lane's own half, or zero when the top bit
of the index is set. -/
def shuffleEpi8 (a idx : Epi8) : Epi8 := fun i =>
  if (idx i).msb then 0 else a (16 * (i / 16) + (idx i).toNat % 16)

/-- `_mm256_and_si256`, on bytes. -/
def andSi256 (a b : Epi8) : Epi8 := fun i => a i &&& b i

/-- Word `i` of a register given by its bytes. -/
def word (a : Epi8) (i : Nat) : BitVec 16 := a (2 * i + 1) ++ a (2 * i)

/-- `_mm256_srli_epi16`, as bytes. -/
def srliEpi16 (a : Epi8) (n : Nat) : Epi8 := fun i =>
  let w := word a (i / 2) >>> n
  if i % 2 = 0 then w.setWidth 8 else (w >>> 8).setWidth 8

/-- `_mm256_blendv_epi8`: the second operand where the mask's top bit is set. -/
def blendvEpi8 (a b mask : Epi8) : Epi8 := fun i => if (mask i).msb then b i else a i

/-- `_mm256_sign_epi8`. -/
def signEpi8 (a b : Epi8) : Epi8 := fun i =>
  if (b i).msb then -a i else if b i = 0 then 0 else a i

/-- The exact sum that word lane `i` of `maddubs` saturates. -/
def maddubsSum (a b : Epi8) (i : Nat) : Int :=
  (a (2 * i)).toNat * (b (2 * i)).toInt + (a (2 * i + 1)).toNat * (b (2 * i + 1)).toInt

/-- Signed saturation to 16 bits. -/
def saturate16 (x : Int) : BitVec 16 := BitVec.ofInt 16 (max (-32768) (min 32767 x))

/-- `_mm256_maddubs_epi16`. -/
def maddubsEpi16 (a b : Epi8) : Epi16 := fun i => saturate16 (maddubsSum a b i)

/-- `_mm256_madd_epi16`. -/
def maddEpi16 (a b : Epi16) : Epi32 := fun i =>
  BitVec.ofInt 32
    ((a (2 * i)).toInt * (b (2 * i)).toInt + (a (2 * i + 1)).toInt * (b (2 * i + 1)).toInt)

/-! ### Nibbles -/

theorem toNat_word (a : Epi8) (i : Nat) :
    (word a i).toNat = (a (2 * i + 1)).toNat * 256 + (a (2 * i)).toNat := by
  rw [word, BitVec.toNat_append, ← Nat.shiftLeft_add_eq_or_of_lt (a (2 * i)).isLt,
    Nat.shiftLeft_eq]

theorem toNat_and_0x0f (x : BitVec 8) : (x &&& 0x0f).toNat = x.toNat % 16 := by
  rw [BitVec.toNat_and]
  exact Nat.and_two_pow_sub_one_eq_mod x.toNat 4

/-- A word shift by four and a byte mask leave the high nibble of every byte. -/
theorem and_srliEpi16_four (a : Epi8) (i : Nat) :
    (andSi256 (srliEpi16 a 4) (set1Epi8 0x0f) i).toNat = (a i).toNat >>> 4 := by
  have hlo := (a (2 * (i / 2))).isLt
  have hhi := (a (2 * (i / 2) + 1)).isLt
  have hw := toNat_word a (i / 2)
  simp only [andSi256, srliEpi16, set1Epi8, toNat_and_0x0f, Nat.shiftRight_eq_div_pow]
  split
  · rename_i heven
    have hi : 2 * (i / 2) = i := by omega
    rw [hi] at hw hlo
    simp only [BitVec.toNat_setWidth, BitVec.toNat_ushiftRight, Nat.shiftRight_eq_div_pow, hw]
    omega
  · rename_i hodd
    have hi : 2 * (i / 2) + 1 = i := by omega
    rw [hi] at hw hhi
    simp only [BitVec.toNat_setWidth, BitVec.toNat_ushiftRight, Nat.shiftRight_eq_div_pow, hw]
    omega

/-- A byte index without its top bit selects from the lane's own half. -/
theorem shuffleEpi8_of_lt {a idx : Epi8} {i : Nat} (h : (idx i).toNat < 16) :
    shuffleEpi8 a idx i = a (16 * (i / 16) + (idx i).toNat) := by
  have hmsb : (idx i).msb = false := by
    rw [BitVec.msb_eq_decide, decide_eq_false_iff_not]
    omega
  rw [shuffleEpi8, hmsb, Nat.mod_eq_of_lt h]
  rfl

/-! ### Signed products from the unsigned instruction -/

/-- The signed value of a byte. -/
theorem toInt_eq (x : BitVec 8) :
    x.toInt = if x.toNat < 128 then (x.toNat : Int) else (x.toNat : Int) - 256 := by
  rw [BitVec.toInt_eq_toNat_cond]
  split <;> split <;> omega

theorem msb_iff (x : BitVec 8) : x.msb = true ↔ x.toInt < 0 := by
  have hlt := x.isLt
  rw [BitVec.msb_eq_decide, decide_eq_true_eq, toInt_eq]
  split <;> omega

theorem toInt_neg {x : BitVec 8} (h : -127 ≤ x.toInt) : (-x).toInt = -x.toInt := by
  have hlt := x.isLt
  rw [toInt_eq] at h
  rw [toInt_eq, toInt_eq, BitVec.toNat_neg]
  split at h <;> split <;> omega

/-- A byte with its own sign is its absolute value. -/
theorem toNat_signEpi8_self (x : Epi8) (i : Nat) :
    ((signEpi8 x x i).toNat : Int) = |(x i).toInt| := by
  have hlt := (x i).isLt
  simp only [signEpi8, msb_iff]
  split
  · rename_i hneg
    rw [abs_of_neg hneg]
    rw [toInt_eq] at hneg ⊢
    rw [BitVec.toNat_neg]
    split at hneg <;> omega
  · rename_i hneg
    rw [abs_of_nonneg (by omega)]
    split
    · rename_i hzero
      rw [hzero]
      rfl
    · rw [toInt_eq] at hneg ⊢
      split at hneg <;> omega

/-- The absolute value of `x` times `a` with the sign of `x` is `x * a`. -/
theorem signEpi8_mul {a x : Epi8} {i : Nat} (ha : -127 ≤ (a i).toInt) :
    ((signEpi8 x x i).toNat : Int) * (signEpi8 a x i).toInt = (x i).toInt * (a i).toInt := by
  rw [toNat_signEpi8_self]
  simp only [signEpi8, msb_iff]
  split
  · rename_i hneg
    rw [abs_of_neg hneg, toInt_neg ha]
    ring
  · rename_i hneg
    split
    · rename_i hzero
      rw [hzero]
      simp
    · rw [abs_of_nonneg (by omega)]

/-- Two signed products of bytes in `[-127, 127]`: the `maddubs` lane of their absolute
values and moved signs is their exact sum, and it fits a signed word. -/
theorem maddubsSum_sign {a x : Epi8} (ha : ∀ i, |(a i).toInt| ≤ 127)
    (hx : ∀ i, |(x i).toInt| ≤ 127) (i : Nat) :
    maddubsSum (signEpi8 x x) (signEpi8 a x) i
        = (x (2 * i)).toInt * (a (2 * i)).toInt
          + (x (2 * i + 1)).toInt * (a (2 * i + 1)).toInt ∧
      |maddubsSum (signEpi8 x x) (signEpi8 a x) i| ≤ 32258 := by
  have hle : ∀ j, -127 ≤ (a j).toInt := fun j => (abs_le.mp (ha j)).1
  have hmul : ∀ j, |(x j).toInt * (a j).toInt| ≤ 127 * 127 := fun j => by
    rw [abs_mul]
    exact Int.mul_le_mul (hx j) (ha j) (abs_nonneg _) (by decide)
  have hsum : maddubsSum (signEpi8 x x) (signEpi8 a x) i
      = (x (2 * i)).toInt * (a (2 * i)).toInt
        + (x (2 * i + 1)).toInt * (a (2 * i + 1)).toInt := by
    rw [maddubsSum, signEpi8_mul (hle _), signEpi8_mul (hle _)]
  refine ⟨hsum, ?_⟩
  have h0 := abs_le.mp (hmul (2 * i))
  have h1 := abs_le.mp (hmul (2 * i + 1))
  rw [hsum, abs_le]
  omega

theorem toInt_saturate16 {x : Int} (h : |x| ≤ 32767) : (saturate16 x).toInt = x := by
  have hx := abs_le.mp h
  rw [saturate16, BitVec.toInt_ofInt, Int.bmod_eq_of_le] <;> omega

/-- With ones in its second operand `_mm256_madd_epi16` adds the words in pairs. -/
theorem toInt_maddEpi16_one (a : Epi16) (i : Nat) :
    (maddEpi16 a (set1Epi16 1) i).toInt
      = (a (2 * i)).toInt + (a (2 * i + 1)).toInt := by
  have h0 := BitVec.two_mul_toInt_lt (x := a (2 * i))
  have h0' := BitVec.le_two_mul_toInt (x := a (2 * i))
  have h1 := BitVec.two_mul_toInt_lt (x := a (2 * i + 1))
  have h1' := BitVec.le_two_mul_toInt (x := a (2 * i + 1))
  have hone : (1 : BitVec 16).toInt = 1 := by decide
  rw [maddEpi16, set1Epi16, set1Epi16, hone, Int.mul_one, Int.mul_one, BitVec.toInt_ofInt,
    Int.bmod_eq_of_le] <;> omega

end Avx2
