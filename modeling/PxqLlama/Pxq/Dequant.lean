import PxqLlama.Pxq.Tiers

/-!
# `Pxq.Dequant`: the CPU row decoders

`pxa_pxq_dequant_row` (`ggml/src/pxq-cpu.c`) decodes one row of a slab tensor. Each tier
has a decoder of its own, `pxa_deq_row_*`, with its own offsets, shifts and masks. The
definitions below follow them one by one. A decoder fills `dst[0 .. k)`. Here it is the
function that gives the value left in `dst[j]`.

The float type is a parameter `α` with a multiplication, and so are the tables and the
fp16 conversion. A statement over every `α` and every table therefore says which table
entries the decoder multiplies, not only what the product is.
-/

namespace PxqLlama.Pxq

open OrLoop (orLoop)

/-- A byte buffer, by address. -/
abbrev Mem : Type := Nat → UInt8

/-- `GGML_COMPUTE_FP16_TO_FP32` and the tables of `pxq-cpu.c`. -/
structure PxqTables (α : Type) where
  fp16ToFp32 : UInt16 → α
  px16Book : Nat → α
  sub16 : Nat → α
  sub8 : Nat → α
  lm4 : Nat → α
  lm8 : Nat → α
  lm32 : Nat → α
  sign : Nat → α

/-- `((const uint16_t *)panel)[r]`, on a little-endian host. -/
def readU16 (m : Mem) (panel r : Nat) : UInt16 :=
  UInt16.ofNat ((m (panel + 2 * r)).toNat ||| (m (panel + 2 * r + 1)).toNat <<< 8)

/-- Four bytes at `a` assembled as a little-endian `uint32_t`. -/
def readU32 (m : Mem) (a : Nat) : Nat :=
  orLoop 4 fun i => (m (a + i)).toNat <<< (8 * i)

section
variable {α : Type} [Mul α] (tabs : PxqTables α)

/-- `pxa_deq_pairs16`: entry `i` of the 32 outputs of a nibble row `q`. -/
def pxaDeqPairs16 (q : Nat → Nat) (book eff : Nat → α) (effShift i : Nat) : α :=
  if i % 2 = 0 then eff (i >>> effShift) * book (q (i / 2) &&& 0xf)
  else eff (i >>> effShift) * book (q (i / 2) >>> 4)

/-- `pxa_deq_row_pxq6`, the decoder of PXQ4 and PXQ4-HQ: the value of column `j`. -/
def pxaDeqRowPxq6 (m : Mem) (base row k : Nat) (hq : Bool) (j : Nat) : α :=
  let KB := k / 32
  let slabBytes := if hq then PXQ6HQ_SLAB_BYTES else PXQ6_SLAB_BYTES
  let codeOff := if hq then 128 else 64
  let p := row >>> 6
  let r := row &&& 63
  let panel := base + p * (PXQ6_HDR_BYTES + KB * slabBytes)
  let anchor := tabs.fp16ToFp32 (readU16 m panel r)
  let sub := if hq then tabs.sub8 else tabs.sub16
  let kb := j / 32
  let slab := panel + PXQ6_HDR_BYTES + kb * slabBytes
  let byte := fun a => (m (slab + a)).toNat
  let eff : Nat → α := fun g =>
    if hq then
      if g = 0 then anchor * sub (byte (2 * r) &&& 0xf)
      else if g = 1 then anchor * sub (byte (2 * r) >>> 4)
      else if g = 2 then anchor * sub (byte (2 * r + 1) &&& 0xf)
      else anchor * sub (byte (2 * r + 1) >>> 4)
    else
      if g = 0 ∨ g = 1 then anchor * sub (byte r &&& 0xf)
      else anchor * sub (byte r >>> 4)
  pxaDeqPairs16 (fun b => byte (codeOff + r * 16 + b)) tabs.px16Book eff 3 (j % 32)

/-- `pxa_deq_row_pxq2`: the value of column `j`. -/
def pxaDeqRowPxq2 (m : Mem) (base row k j : Nat) : α :=
  let KB := k / 32
  let p := row >>> 6
  let r := row &&& 63
  let panel := base + p * (PXQ2_HDR_BYTES + KB * PXQ2_SLAB_BYTES)
  let anchor := tabs.fp16ToFp32 (readU16 m panel r)
  let slab := panel + PXQ2_HDR_BYTES + j / 32 * PXQ2_SLAB_BYTES
  let eff0 := anchor * tabs.sub16 ((m (slab + r)).toNat &&& 0xf)
  let eff1 := anchor * tabs.sub16 ((m (slab + r)).toNat >>> 4)
  let q := fun b => (m (slab + 64 + r * 8 + b)).toNat
  let e := j % 32
  let c := (q (e >>> 2) >>> (2 * (e &&& 3))) &&& 3
  (if e < 16 then eff0 else eff1) * tabs.lm4 c

/-- `pxa_deq_row_pxq3`: the value of column `j`. -/
def pxaDeqRowPxq3 (m : Mem) (base row k j : Nat) : α :=
  let KB := k / 32
  let p := row >>> 6
  let r := row &&& 63
  let panel := base + p * (PXQ3_HDR_BYTES + KB * PXQ3_SLAB_BYTES)
  let anchor := tabs.fp16ToFp32 (readU16 m panel r)
  let slab := panel + PXQ3_HDR_BYTES + j / 32 * PXQ3_SLAB_BYTES
  let eff0 := anchor * tabs.sub16 ((m (slab + r)).toNat &&& 0xf)
  let eff1 := anchor * tabs.sub16 ((m (slab + r)).toNat >>> 4)
  let inp := slab + 64 + r * 12
  let w0 := readU32 m inp
  let w1 := readU32 m (inp + 4)
  let w2 := readU32 m (inp + 8)
  let e := j % 32
  if e < 16 then
    eff0 * tabs.lm8 ((w0 >>> (2 * e) &&& 3) ||| (w2 >>> e &&& 1) <<< 2)
  else
    eff1 * tabs.lm8 ((w1 >>> (2 * (e - 16)) &&& 3) ||| (w2 >>> (16 + (e - 16)) &&& 1) <<< 2)

/-- `pxa_deq_row_pxq1`: the value of column `j`. -/
def pxaDeqRowPxq1 (m : Mem) (base row k j : Nat) : α :=
  let KB := k / 32
  let p := row >>> 6
  let r := row &&& 63
  let panel := base + p * (PXQ1_HDR_BYTES + KB * PXQ1_SLAB_BYTES)
  let anchor := tabs.fp16ToFp32 (readU16 m panel r)
  let slab := panel + PXQ1_HDR_BYTES + j / 32 * PXQ1_SLAB_BYTES
  let eff0 := anchor * tabs.sub16 ((m (slab + r)).toNat &&& 0xf)
  let eff1 := anchor * tabs.sub16 ((m (slab + r)).toNat >>> 4)
  let w := readU32 m (slab + 64 + r * 4)
  let e := j % 32
  (if e < 16 then eff0 else eff1) * tabs.sign (w >>> e &&& 1)

/-- `pxa_deq_row_pxq6r`, the decoder of PXQ6: the value of column `j`. -/
def pxaDeqRowPxq6r (m : Mem) (base row k j : Nat) : α :=
  let KB := k / 32
  let p := row >>> 6
  let r := row &&& 63
  let panel := base + p * (PXQ6R_HDR_BYTES + KB * PXQ6R_SLAB_BYTES)
  let anchor := tabs.fp16ToFp32 (readU16 m panel r)
  let slab := panel + PXQ6R_HDR_BYTES + j / 32 * PXQ6R_SLAB_BYTES
  let eff0 := anchor * tabs.sub16 ((m (slab + r)).toNat &&& 0xf)
  let eff1 := anchor * tabs.sub16 ((m (slab + r)).toNat >>> 4)
  let inp := slab + PXQ6R_CODE_OFF + r * 20
  let hi := readU32 m (inp + 16)
  let e := j % 32
  let b := e / 2
  let byte := (m (inp + b)).toNat
  let c :=
    if e % 2 = 0 then (byte &&& 0xf) ||| (hi >>> (2 * b) &&& 1) <<< 4
    else (byte >>> 4) ||| (hi >>> (2 * b + 1) &&& 1) <<< 4
  (if e < 16 then eff0 else eff1) * tabs.lm32 c

/-- `pxa_pxq_dequant_row`: the decoder of the tensor's type, `none` when the assertion
`k % 32 == 0` aborts. -/
def pxaPxqDequantRow (t : PxqType) (m : Mem) (base row k : Nat) : Option (Nat → α) :=
  if k % 32 = 0 then
    match t with
    | .pxq4 => some (pxaDeqRowPxq6 tabs m base row k false)
    | .pxq4hq => some (pxaDeqRowPxq6 tabs m base row k true)
    | .pxq2 => some (pxaDeqRowPxq2 tabs m base row k)
    | .pxq3 => some (pxaDeqRowPxq3 tabs m base row k)
    | .pxq1 => some (pxaDeqRowPxq1 tabs m base row k)
    | .pxq6 => some (pxaDeqRowPxq6r tabs m base row k)
  else none

/-- The sub-scale table of a type: `SUB8` for PXQ4-HQ, `SUB16` for the others. -/
def PxqTables.sub (t : PxqType) : Nat → α :=
  match t with
  | .pxq4hq => tabs.sub8
  | _ => tabs.sub16

/-- The book of a type. -/
def PxqTables.book (t : PxqType) : Nat → α :=
  match t with
  | .pxq4 | .pxq4hq => tabs.px16Book
  | .pxq2 => tabs.lm4
  | .pxq3 => tabs.lm8
  | .pxq1 => tabs.sign
  | .pxq6 => tabs.lm32

end

end PxqLlama.Pxq
