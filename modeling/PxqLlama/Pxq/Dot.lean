import PxqLlama.Pxq.Dequant
import PxqLlama.Lib.Avx2
import Mathlib.Data.Rat.Floor

/-!
# `Pxq.Dot`: the integer dot products of the 4-bit tiers

`ggml/src/pxq-dot.c` computes the dot product of a PXQ4 or PXQ4-HQ row with an activation
row quantized to 8 bits. The book is replaced by an int8 image and a scale, and every
32-element block is summed in integers. There are two arms: the scalar reference
`pxaPxqDotQ8Ref` and the vector kernel `pxaPxqDotQ8Avx2`.

Floats are rationals here: the arithmetic is exact, and only `roundf` and `lrintf` round.
The int32 sums are integers; they stay below `2 ^ 18` (`isum_abs_le`). The two records
carry the bound on their bytes that the clamps establish.
-/

namespace PxqLlama.Pxq

open Avx2

/-! ### Rounding and clamping -/

/-- `roundf`: to nearest, halves away from zero. -/
def roundf (x : ℚ) : Int := if 0 ≤ x then ⌊x + 1 / 2⌋ else -⌊-x + 1 / 2⌋

/-- `lrintf`: to nearest, halves to even. -/
def lrintf (x : ℚ) : Int :=
  let f := ⌊x⌋
  let r := x - f
  if r < 1 / 2 then f
  else if 1 / 2 < r then f + 1
  else if f % 2 = 0 then f else f + 1

/-- `v > 127 ? 127 : v < -127 ? -127 : v`. -/
def clamp127 (v : Int) : Int := if 127 < v then 127 else if v < -127 then -127 else v

/-- The cast `(int8_t)` of a clamped value. -/
def int8 (v : Int) : BitVec 8 := BitVec.ofInt 8 (clamp127 v)

theorem abs_toInt_int8 (v : Int) : |(int8 v).toInt| ≤ 127 := by
  have h : -127 ≤ clamp127 v ∧ clamp127 v ≤ 127 := by
    unfold clamp127
    split
    · omega
    · split <;> omega
  rw [int8, BitVec.toInt_ofInt, Int.bmod_eq_of_le (by omega) (by omega), abs_le]
  exact h

/-- `fabsf` maximum of `n` values. -/
def amax (n : Nat) (x : Nat → ℚ) : ℚ :=
  (List.range n).foldl (fun m j => if m < |x j| then |x j| else m) 0

/-! ### The book image and the quantized activations -/

/-- `pxa_book_i8` and `pxa_book_i8_scale`. -/
structure BookI8 where
  i8 : Fin 16 → BitVec 8
  scale : ℚ
  i8_abs : ∀ c, |(i8 c).toInt| ≤ 127

/-- `pxa_dot_ensure_book`. -/
def pxaDotEnsureBook (book16 : Nat → ℚ) : BookI8 :=
  let amax := amax 16 book16
  let toI8 := if 0 < amax then 127 / amax else 0
  { i8 := fun c => int8 (lrintf (book16 c.val * toI8))
    scale := if 0 < amax then amax / 127 else 0
    i8_abs := fun _ => abs_toInt_int8 _ }

/-- The signed value of image entry `c`. -/
def BookI8.val (B : BookI8) (c : Nat) : Int := (B.i8 (Fin.ofNat 16 c)).toInt

/-- `struct pxa_pxq_q8`: a block of 32 activations, `x[j] ≈ d * qs[j]`. -/
structure PxaPxqQ8 where
  d : ℚ
  qs : Fin 32 → BitVec 8
  qs_abs : ∀ j, |(qs j).toInt| ≤ 127

/-- The signed value of activation `e` of the block. -/
def PxaPxqQ8.val (y : PxaPxqQ8) (e : Nat) : Int := (y.qs (Fin.ofNat 32 e)).toInt

/-- One block of `pxa_pxq_quantize_row_q8`. -/
def quantizeBlockQ8 (xb : Nat → ℚ) : PxaPxqQ8 :=
  let d := amax 32 xb / 127
  let id := if d ≠ 0 then 1 / d else 0
  { d := d
    qs := fun j => int8 (roundf (xb j.val * id))
    qs_abs := fun _ => abs_toInt_int8 _ }

/-- `pxa_pxq_quantize_row_q8`, `none` when its assertion aborts. -/
def pxaPxqQuantizeRowQ8 (x : Nat → ℚ) (k : Nat) : Option (Nat → PxaPxqQ8) :=
  if k % 32 = 0 then some fun ib => quantizeBlockQ8 fun j => x (ib * 32 + j) else none

/-! ### The addressing of both arms -/

/-- `pxa_pxq_dot_supported`; `enabled` is `pxa_dot_enabled()`. -/
def pxaPxqDotSupported (enabled : Bool) (t : PxqType) : Bool :=
  enabled && (t == .pxq4 || t == .pxq4hq)

/-- `struct pxa_dot_row`. -/
structure PxaDotRow where
  panel : Nat
  sub : Nat → ℚ
  anchor : ℚ
  r : Nat
  slabBytes : Nat
  codeOff : Nat
  kbN : Nat

/-- `pxa_dot_row_setup`, `none` when one of its assertions aborts. -/
def pxaDotRowSetup (enabled : Bool) (tabs : PxqTables ℚ) (t : PxqType) (m : Mem)
    (base row k : Nat) : Option PxaDotRow :=
  if pxaPxqDotSupported enabled t = true ∧ k % 32 = 0 then
    let hq := t == .pxq4hq
    let kbN := k / 32
    let slabBytes := if hq then PXQ6HQ_SLAB_BYTES else PXQ6_SLAB_BYTES
    let r := row &&& 63
    let panel := base + (row >>> 6) * (PXQ6_HDR_BYTES + kbN * slabBytes)
    some
      { panel := panel
        sub := if hq then tabs.sub8 else tabs.sub16
        anchor := tabs.fp16ToFp32 (readU16 m panel r)
        r := r
        slabBytes := slabBytes
        codeOff := if hq then 128 else 64
        kbN := kbN }
  else none

/-- Address of slab `kb`. -/
def PxaDotRow.slab (R : PxaDotRow) (kb : Nat) : Nat :=
  R.panel + PXQ6_HDR_BYTES + kb * R.slabBytes

/-- `pxa_dot_block_scales`: `s[g]`. -/
def pxaDotBlockScales (R : PxaDotRow) (m : Mem) (slab : Nat) (d : ℚ) (hq : Bool)
    (g : Nat) : ℚ :=
  let ad := R.anchor * d
  let byte := fun a => (m (slab + a)).toNat
  if hq then
    if g = 0 then ad * R.sub (byte (2 * R.r) &&& 0xf)
    else if g = 1 then ad * R.sub (byte (2 * R.r) >>> 4)
    else if g = 2 then ad * R.sub (byte (2 * R.r + 1) &&& 0xf)
    else ad * R.sub (byte (2 * R.r + 1) >>> 4)
  else
    if g = 0 ∨ g = 1 then ad * R.sub (byte R.r &&& 0xf)
    else ad * R.sub (byte R.r >>> 4)

/-! ### The scalar reference -/

/-- One step of the reference's inner loop, on code byte `b`. -/
def isumStep (book : Nat → Int) (q : Nat → Nat) (a : Nat → Int) (isum : Nat → Int)
    (b : Nat) : Nat → Int :=
  let e0 := 2 * b
  let e1 := 2 * b + 1
  let isum := Function.update isum (e0 >>> 3)
    (isum (e0 >>> 3) + book (q b &&& 0xf) * a e0)
  Function.update isum (e1 >>> 3) (isum (e1 >>> 3) + book (q b >>> 4) * a e1)

/-- `isum[0..4)` of a block with code bytes `q` and activations `a`. -/
def isumRef (book : Nat → Int) (q : Nat → Nat) (a : Nat → Int) : Nat → Int :=
  (List.range 16).foldl (isumStep book q a) fun _ => 0

/-- The code bytes of the row in the slab at `slab`. -/
def PxaDotRow.codeBytes (R : PxaDotRow) (m : Mem) (slab b : Nat) : UInt8 :=
  m (slab + R.codeOff + R.r * 16 + b)

/-- `pxa_pxq_dot_q8_ref`. -/
def pxaPxqDotQ8Ref (enabled : Bool) (tabs : PxqTables ℚ) (t : PxqType) (m : Mem)
    (base row k : Nat) (y : Nat → PxaPxqQ8) : Option ℚ := do
  let B := pxaDotEnsureBook tabs.px16Book
  let R ← pxaDotRowSetup enabled tabs t m base row k
  let hq := t == .pxq4hq
  let sumf := (List.range R.kbN).foldl (fun sumf kb =>
    let slab := R.slab kb
    let s := pxaDotBlockScales R m slab (y kb).d hq
    let isum := isumRef B.val (fun b => (R.codeBytes m slab b).toNat) (y kb).val
    sumf + (s 0 * isum 0 + s 1 * isum 1 + s 2 * isum 2 + s 3 * isum 3)) 0
  return sumf * B.scale

/-! ### The vector kernel -/

/-- The constant `idx_dup`. -/
def idxDup : Epi8 := setrEpi8
  [0, 0, 1, 1, 2, 2, 3, 3, 4, 4, 5, 5, 6, 6, 7, 7,
   8, 8, 9, 9, 10, 10, 11, 11, 12, 12, 13, 13, 14, 14, 15, 15]

/-- The constant `odd_byte`. -/
def oddByte : Epi8 := setrEpi8
  [0, -1, 0, -1, 0, -1, 0, -1, 0, -1, 0, -1, 0, -1, 0, -1,
   0, -1, 0, -1, 0, -1, 0, -1, 0, -1, 0, -1, 0, -1, 0, -1]

/-- `cod`: the codes of a block in element order, from its 16 code bytes. -/
def avx2Cod (qc : Epi8) : Epi8 :=
  let m0f := set1Epi8 0x0f
  let dup := shuffleEpi8 (setM128i qc qc) idxDup
  let lo := andSi256 dup m0f
  let hi := andSi256 (srliEpi16 dup 4) m0f
  blendvEpi8 lo hi oddByte

/-- `bv`: the book image at the codes. -/
def avx2Bv (B : BookI8) (qc : Epi8) : Epi8 :=
  let bk128 : Epi8 := fun i => B.i8 (Fin.ofNat 16 i)
  shuffleEpi8 (setM128i bk128 bk128) (avx2Cod qc)

/-- `av`: the activations of a block. -/
def avx2Av (y : PxaPxqQ8) : Epi8 := fun i => y.qs (Fin.ofNat 32 i)

/-- The exact sum that word lane `i` of the kernel's `maddubs` saturates. -/
def avx2MaddubsSum (B : BookI8) (qc : Epi8) (y : PxaPxqQ8) (i : Nat) : Int :=
  let bv := avx2Bv B qc
  maddubsSum (signEpi8 bv bv) (signEpi8 (avx2Av y) bv) i

/-- `p32`: the integer lanes of a block. -/
def avx2P32 (B : BookI8) (qc : Epi8) (y : PxaPxqQ8) : Epi32 :=
  let bv := avx2Bv B qc
  let ax := signEpi8 bv bv
  let sy := signEpi8 (avx2Av y) bv
  let p16 := maddubsEpi16 ax sy
  maddEpi16 p16 (set1Epi16 1)

/-- The 16 code bytes of the row, `_mm_loadu_si128`. -/
def PxaDotRow.loadCodes (R : PxaDotRow) (m : Mem) (slab : Nat) : Epi8 :=
  fun b => (R.codeBytes m slab b).toBitVec

/-- `pxa_dot_hsum`. -/
def pxaDotHsum (x : Nat → ℚ) : ℚ :=
  let h := fun i => x i + x (i + 4)
  (h 0 + h 2) + (h 1 + h 3)

/-- `pxa_pxq_dot_q8_avx2`. -/
def pxaPxqDotQ8Avx2 (enabled : Bool) (tabs : PxqTables ℚ) (t : PxqType) (m : Mem)
    (base row k : Nat) (y : Nat → PxaPxqQ8) : Option ℚ := do
  let B := pxaDotEnsureBook tabs.px16Book
  let R ← pxaDotRowSetup enabled tabs t m base row k
  let hq := t == .pxq4hq
  let acc : Nat → ℚ := (List.range R.kbN).foldl (fun acc kb =>
    let slab := R.slab kb
    let s := pxaDotBlockScales R m slab (y kb).d hq
    let p32 := avx2P32 B (R.loadCodes m slab) (y kb)
    -- Lanes `2 * g` and `2 * g + 1` carry scale `s[g]`.
    fun i => (p32 i).toInt * s (i / 2) + acc i) fun _ => 0
  return pxaDotHsum acc * B.scale

end PxqLlama.Pxq
