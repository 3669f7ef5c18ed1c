import PxqLlama.Lib.OrLoop

/-!
# `Pxq.Tiers`: the six slab tiers and the scatter step

Every PXQ tier stores a `[R, K]` matrix as panels of 64 rows. A panel is a header of 64
fp16 row anchors and then `K / 32` slabs. A slab is the scale bytes of the 64 rows and
then their code rows. The tiers differ in the number of scale bytes for a row, in the
width of a code row, and in how 32 codes are packed into it. `SlabTier` holds what they
differ in, and `pxq6Tier` to `pxq1Tier` are the tiers of the five quantizers
(`src/pxq*-quantize.inc.cpp`).

`scatterRow` is the loop at the end of each `pxq*_quantize_expert`, for one row: the
anchor goes to the header, and every slab gets the row's scale bytes and its code row.
The search that picks the anchor, the sub indices and the codes is floating point and is
not modelled. Where the code calls it, its result is a parameter (`QuantPanel`).

A byte is a `UInt8`. The packing expressions are over `Nat`, and the `(uint8_t)` casts
of the source are `UInt8.ofNat`.
-/

namespace PxqLlama.Pxq

open OrLoop (orLoop)

/-- The PXQ entries of `enum ggml_type`. -/
inductive PxqType
  | pxq1
  | pxq2
  | pxq3
  | pxq4
  | pxq4hq
  | pxq6
  deriving DecidableEq, Repr

/-! ### The frozen sizes (`ggml-pxq*-tables.h`) -/

def PXQ6_SLAB_BYTES : Nat := 1088
def PXQ6_HDR_BYTES : Nat := 128
def PXQ6HQ_SLAB_BYTES : Nat := 1152
def PXQ2_SLAB_BYTES : Nat := 576
def PXQ2_HDR_BYTES : Nat := 128
def PXQ3_SLAB_BYTES : Nat := 832
def PXQ3_HDR_BYTES : Nat := 128
def PXQ1_SLAB_BYTES : Nat := 320
def PXQ1_HDR_BYTES : Nat := 128
def PXQ6R_SLAB_BYTES : Nat := 1344
def PXQ6R_HDR_BYTES : Nat := 128
def PXQ6R_CODE_OFF : Nat := 64

/-- What a tier fixes about its slabs. `packScales s i` is scale byte `i` of a row whose
sub indices in the slab are `s 0, s 1, …`. `packCodes c b` is byte `b` of a code row with
codes `c 0, …, c 31`. The last fields are the well-formedness of the sizes: the header
holds 64 anchors, and the scale bytes and the code rows of 64 rows fill the slab. -/
structure SlabTier where
  hdrBytes : Nat
  slabBytes : Nat
  /-- Scale bytes for one row in one slab. -/
  scPerRow : Nat
  codeOff : Nat
  /-- Bytes of one code row. -/
  codeBytes : Nat
  /-- Elements under one sub index. -/
  bs : Nat
  bookSize : Nat
  packScales : (Nat → Nat) → Nat → Nat
  packCodes : (Nat → Nat) → Nat → Nat
  hdr_eq : hdrBytes = 2 * 64
  codeOff_eq : codeOff = scPerRow * 64
  slab_eq : slabBytes = codeOff + codeBytes * 64
  scPerRow_pos : 0 < scPerRow
  codeBytes_pos : 0 < codeBytes

/-! ### The packings -/

/-- `(uint8_t)(s[0] | (s[1] << 4))`, the scale byte of the 16-element tiers. -/
def packScale16 (s : Nat → Nat) (_i : Nat) : Nat := s 0 ||| s 1 <<< 4

/-- The two scale bytes of PXQ4-HQ: four sub indices for 32 elements. -/
def packScale8 (s : Nat → Nat) (i : Nat) : Nat :=
  if i = 0 then s 0 ||| s 1 <<< 4 else s 2 ||| s 3 <<< 4

/-- Byte `b` of a nibble row: `c[2*b] | (c[2*b+1] << 4)`. -/
def packPairs (c : Nat → Nat) (b : Nat) : Nat := c (2 * b) ||| c (2 * b + 1) <<< 4

/-- Byte `by` of a PXQ2 code row: four codes, low bits first. -/
def pxq2Pack (c : Nat → Nat) (i : Nat) : Nat :=
  c (4 * i) ||| c (4 * i + 1) <<< 2 ||| c (4 * i + 2) <<< 4 ||| c (4 * i + 3) <<< 6

/-- Byte `by` of a PXQ1 code row: eight codes, low bit first. -/
def pxq1Pack (c : Nat → Nat) (i : Nat) : Nat :=
  c (8 * i) ||| c (8 * i + 1) <<< 1 ||| c (8 * i + 2) <<< 2 ||| c (8 * i + 3) <<< 3
    ||| c (8 * i + 4) <<< 4 ||| c (8 * i + 5) <<< 5 ||| c (8 * i + 6) <<< 6
    ||| c (8 * i + 7) <<< 7

/-- `pxq3_pack32`: the low two bits of elements 0-15 in word `w0`, of elements 16-31 in
`w1`, and the third bit of element `j` at bit `j` of `w2`; then the words' bytes, least
significant first. -/
def pxq3Pack32 (c : Nat → Nat) (i : Nat) : Nat :=
  let w0 := orLoop 16 fun j => (c j &&& 3) <<< (2 * j)
  let w1 := orLoop 16 fun j => (c (16 + j) &&& 3) <<< (2 * j)
  let w2 := orLoop 16 fun j => (c j >>> 2) <<< j ||| (c (16 + j) >>> 2) <<< (16 + j)
  if i < 4 then w0 >>> (8 * i)
  else if i < 8 then w1 >>> (8 * (i - 4))
  else w2 >>> (8 * (i - 8))

/-- `pxq6r_pack32`: the nibble plane of the low four bits in bytes 0-15, and the word of
the fifth bits in bytes 16-19, least significant first. -/
def pxq6rPack32 (c : Nat → Nat) (i : Nat) : Nat :=
  let hi := orLoop 16 fun b =>
    (c (2 * b) >>> 4) <<< (2 * b) ||| (c (2 * b + 1) >>> 4) <<< (2 * b + 1)
  if i < 16 then (c (2 * i) &&& 0xf) ||| (c (2 * i + 1) &&& 0xf) <<< 4
  else hi >>> (8 * (i - 16))

/-! ### The tiers -/

/-- PXQ4 and PXQ4-HQ (`pxq6_quantize_expert`): `tier = false` is the core tier, `true` is
HQ. -/
def pxq6Tier (tier : Bool) : SlabTier where
  hdrBytes := PXQ6_HDR_BYTES
  slabBytes := if tier then PXQ6HQ_SLAB_BYTES else PXQ6_SLAB_BYTES
  scPerRow := if tier then 2 else 1
  codeOff := 64 * (if tier then 2 else 1)
  codeBytes := 16
  bs := if tier then 8 else 16
  bookSize := 16
  packScales := if tier then packScale8 else packScale16
  packCodes := packPairs
  hdr_eq := rfl
  codeOff_eq := by cases tier <;> rfl
  slab_eq := by cases tier <;> rfl
  scPerRow_pos := by cases tier <;> decide
  codeBytes_pos := by decide

/-- PXQ2 (`pxq2_quantize_expert`). -/
def pxq2Tier : SlabTier where
  hdrBytes := PXQ2_HDR_BYTES
  slabBytes := PXQ2_SLAB_BYTES
  scPerRow := 1
  codeOff := 64
  codeBytes := 8
  bs := 16
  bookSize := 4
  packScales := packScale16
  packCodes := pxq2Pack
  hdr_eq := rfl
  codeOff_eq := rfl
  slab_eq := rfl
  scPerRow_pos := Nat.one_pos
  codeBytes_pos := by decide

/-- PXQ3 (`pxq3_quantize_expert`). -/
def pxq3Tier : SlabTier where
  hdrBytes := PXQ3_HDR_BYTES
  slabBytes := PXQ3_SLAB_BYTES
  scPerRow := 1
  codeOff := 64
  codeBytes := 12
  bs := 16
  bookSize := 8
  packScales := packScale16
  packCodes := pxq3Pack32
  hdr_eq := rfl
  codeOff_eq := rfl
  slab_eq := rfl
  scPerRow_pos := Nat.one_pos
  codeBytes_pos := by decide

theorem pxq1_codeBytes_pos : 0 < 4 := by decide

/-- PXQ1 (`pxq1_quantize_expert`). -/
def pxq1Tier : SlabTier where
  hdrBytes := PXQ1_HDR_BYTES
  slabBytes := PXQ1_SLAB_BYTES
  scPerRow := 1
  codeOff := 64
  codeBytes := 4
  bs := 16
  bookSize := 2
  packScales := packScale16
  packCodes := pxq1Pack
  hdr_eq := rfl
  codeOff_eq := rfl
  slab_eq := rfl
  scPerRow_pos := Nat.one_pos
  codeBytes_pos := pxq1_codeBytes_pos

/-- PXQ6 (`pxq6r_quantize_expert`). -/
def pxq6rTier : SlabTier where
  hdrBytes := PXQ6R_HDR_BYTES
  slabBytes := PXQ6R_SLAB_BYTES
  scPerRow := 1
  codeOff := PXQ6R_CODE_OFF
  codeBytes := 20
  bs := 16
  bookSize := 32
  packScales := packScale16
  packCodes := pxq6rPack32
  hdr_eq := rfl
  codeOff_eq := rfl
  slab_eq := rfl
  scPerRow_pos := Nat.one_pos
  codeBytes_pos := by decide

/-- The tier whose quantizer writes tensors of the type. -/
def PxqType.tier : PxqType → SlabTier
  | .pxq1 => pxq1Tier
  | .pxq2 => pxq2Tier
  | .pxq3 => pxq3Tier
  | .pxq4 => pxq6Tier false
  | .pxq4hq => pxq6Tier true
  | .pxq6 => pxq6rTier

/-! ### The scatter step -/

/-- What the search hands to the scatter step for one row: the fp16 bits of the anchor,
the 4-bit sub index of block `b` at `s4 b`, and the code of column `j` at `codes j`. -/
structure RowCodes (bookSize : Nat) where
  anchor : UInt16
  s4 : Nat → Fin 16
  codes : Nat → Fin bookSize

/-- A byte written by the scatter step: its address and its value. -/
abbrev Store : Type := Nat × UInt8

/-- Bytes of a panel of `KB` slabs. -/
def SlabTier.panelBytes (T : SlabTier) (KB : Nat) : Nat := T.hdrBytes + KB * T.slabBytes

/-- The stores of row `r` of the panel at address `panel`: its anchor, and in each of the
`KB` slabs its scale bytes and its code row. -/
def scatterRow (T : SlabTier) (KB panel r : Nat) (c : RowCodes T.bookSize) : List Store :=
  (panel + 2 * r, UInt8.ofNat c.anchor.toNat) ::
  (panel + 2 * r + 1, UInt8.ofNat (c.anchor.toNat >>> 8)) ::
  (List.range KB).flatMap fun kb =>
    let slab := panel + T.hdrBytes + kb * T.slabBytes
    let s := fun i => (c.s4 (kb * (32 / T.bs) + i)).val
    let q := fun j => (c.codes (kb * 32 + j)).val
    ((List.range T.scPerRow).map fun i =>
      (slab + T.scPerRow * r + i, UInt8.ofNat (T.packScales s i))) ++
    (List.range T.codeBytes).map fun b =>
      (slab + T.codeOff + r * T.codeBytes + b, UInt8.ofNat (T.packCodes q b))

/-- The stores of the panel at address `panel`, row by row. -/
def scatterPanel (T : SlabTier) (KB panel : Nat) (row : Nat → RowCodes T.bookSize) :
    List Store :=
  (List.range 64).flatMap fun r => scatterRow T KB panel r (row r)

/-- The stores of an `[R, K]` expert at address `dst`, panel by panel. -/
def scatterExpert (T : SlabTier) (dst R K : Nat) (rows : Nat → RowCodes T.bookSize) :
    List Store :=
  (List.range (R / 64)).flatMap fun p =>
    scatterPanel T (K / 32) (dst + p * T.panelBytes (K / 32)) fun r => rows (p * 64 + r)

end PxqLlama.Pxq
