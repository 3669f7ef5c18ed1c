import PxqLlama.Lib.FloatRules

/-!
# `Pxq.SubBlock`: the search of a sub-block, and the rows of an expert

`pxq6_quant_subblock` and its twins try the sub-scales of a sub-block and keep the one with the
least error. They write the result only when a candidate is better than the best so far, so
`quantSubblock` has what stood in `s4_out` and `codes_out` as an argument.

The rows of an expert share one pair of vectors for the results. `quantRow` fills them for one row,
`pickAnchor` uses them for its trials, and `expertScratch` is what they hold after some rows.

Of floating point only the rules of `FloatRules` are used. The codebooks and the sub-scale tables
are fp16 numbers; the ones that the environment can put in their place are read as such.
-/

namespace PxqLlama.Pxq

open Flt

/-! ### Numbers -/

/-- A `float`. -/
abbrev Single : Type := { v : Flt // ∀ q, v = num q → |q| ≤ 2 ^ 128 }

/-- A `float` that is an fp16 value. -/
abbrev Half : Type := { v : Flt // ∀ q, v = num q → |q| ≤ 65504 }

/-- A weight of the squared error, which is not below zero. -/
abbrev Weight : Type := { v : Flt // (∀ q, v = num q → |q| ≤ 2 ^ 128) ∧ v.NotNeg }

/-- A value of an imatrix column that `pxq_imatrix_column_usable` lets pass. -/
abbrev ImxValue : Type := { q : ℚ // 0 ≤ q ∧ q ≤ 2 ^ 128 }

/-- `float` and `double`, and what is used of the mathematical library. -/
structure FloatHost where
  single : FloatFormat
  double : FloatFormat
  /-- `ggml_fp16_to_fp32(ggml_fp32_to_fp16(·))`. -/
  fp16 : Flt → Half
  /-- `(float)exp2(k / 16.0)`. -/
  exp2 : Int → Flt
  sqrt : Flt → Flt
  single_top : 2 ^ 127 ≤ single.top
  single_le : ∀ q r, single.round q = num r → |r| ≤ 2 ^ 128
  double_top : 2 ^ 1023 ≤ double.top
  sqrt_notNeg : ∀ v, (sqrt v).NotNeg

/-! ### What the quantizers differ in -/

/-- The codebook, the midpoints between its values, and the sub-scales. -/
structure QuantTables where
  book : Nat → ℚ
  mids : Nat → Flt
  sub : Nat → ℚ
  book_le : ∀ i, |book i| ≤ 65504
  sub_le : ∀ i, |sub i| ≤ 65504

/-- The quantizer of a tier: the size of a sub-block and of the book, the code of a value, the code
of an element of a zero block, and whether a tie is taken for a row and block. -/
structure Quantizer where
  bs : Nat
  nBook : Nat
  code : (Nat → Flt) → Flt → Nat
  zidx : (Nat → ℚ) → Nat
  tieTakeHi : Nat → Nat → Bool
  bs_le : bs ≤ 16

/-- `pxq_tie_take_hi`: the parity of the bits. -/
def pxqTieTakeHi (row blk : Nat) : Bool :=
  let v := UInt64.ofNat row ^^^ UInt64.ofNat blk ^^^ 0x5A
  let v := v ^^^ (v >>> 32)
  let v := v ^^^ (v >>> 16)
  let v := v ^^^ (v >>> 8)
  let v := v ^^^ (v >>> 4)
  let v := v ^^^ (v >>> 2)
  let v := v ^^^ (v >>> 1)
  v &&& 1 != 0

/-- `pxq6_code` and its twins: how many of the midpoints are below the value. -/
def pxqCode (nMids : Nat) (mids : Nat → Flt) (xn : Flt) : Nat :=
  (List.range nMids).foldl (fun c i => c + if (mids i).lt xn then 1 else 0) 0

/-- PXQ4: `pxq6_quant_subblock<16>`. -/
def pxq6Quantizer : Quantizer where
  bs := 16
  nBook := 16
  code := pxqCode 15
  zidx := fun _ => 7
  tieTakeHi := pxqTieTakeHi
  bs_le := Nat.le_refl 16

/-- PXQ4-HQ: `pxq6_quant_subblock<8>`. -/
def pxq6hqQuantizer : Quantizer where
  bs := 8
  nBook := 16
  code := pxqCode 15
  zidx := fun _ => 7
  tieTakeHi := pxqTieTakeHi
  bs_le := by decide

/-- `pxq2_zidx_q`: the least absolute value of the book. -/
def pxq2Zidx (book : Nat → ℚ) : Nat :=
  [1, 2, 3].foldl (fun best i => if |book i| < |book best| then i else best) 0

/-- `pxq2_quant_subblock`. -/
def pxq2Quantizer : Quantizer where
  bs := 16
  nBook := 4
  code := pxqCode 3
  zidx := pxq2Zidx
  tieTakeHi := pxqTieTakeHi
  bs_le := Nat.le_refl 16

/-- `pxq3_quant_subblock`. -/
def pxq3Quantizer : Quantizer where
  bs := 16
  nBook := 8
  code := pxqCode 7
  zidx := fun _ => 4
  tieTakeHi := pxqTieTakeHi
  bs_le := Nat.le_refl 16

/-- `pxq6r_quant_subblock`. -/
def pxq6rQuantizer : Quantizer where
  bs := 16
  nBook := 32
  code := pxqCode 31
  zidx := fun _ => 16
  tieTakeHi := pxqTieTakeHi
  bs_le := Nat.le_refl 16

/-- `pxq1_quant_subblock`: a code is a sign, and a tie is never taken. -/
def pxq1Quantizer : Quantizer where
  bs := 16
  nBook := 2
  code := fun _ xn => if (num 0).lt xn then 1 else 0
  zidx := fun _ => 0
  tieTakeHi := fun _ _ => false
  bs_le := Nat.le_refl 16

/-! ### One sub-block -/

/-- What is written for a sub-block. -/
@[ext] structure SubBlock (bs : Nat) where
  s4 : Nat
  codes : Fin bs → Nat

section
variable (H : FloatHost) (Q : Quantizer) (tab : QuantTables)

/-- The loop for `amax`. A comparison with NaN is false. -/
def absMax (n : Nat) (x : Nat → Single) : Flt :=
  (List.range n).foldl (fun amax i => if amax.lt (x i).1.abs then (x i).1.abs else amax) (num 0)

/-- The code of an element at the scale `d`. -/
def elemCode (d x : Flt) : Nat :=
  let d64 := if (H.double.round (1 / 10 ^ 30)).lt d then d else H.double.round (1 / 10 ^ 30)
  Q.code tab.mids (H.double.div x d64)

/-- A term of the error. -/
def errTerm (x : Flt) (w : Option Flt) (d : Flt) : Flt :=
  let recon := H.single.mul d (num (tab.book (elemCode H Q tab d x)))
  let e := H.double.sub x recon
  H.double.mul (H.double.mul (w.getD (num 1)) e) e

/-- `pxq6_block_err` and its twins: the error at the scale `d`. -/
def blockErr (x : Nat → Single) (w : Option (Nat → Weight)) (d : Flt) : Flt :=
  (List.range Q.bs).foldl (fun err i =>
    H.double.add err (errTerm H Q tab (x i).1 (w.map fun w => (w i).1) d)) (num 0)

/-- The loop of `pxq_sub_floor`, at most `left` times. -/
def floorLoop (sub : Nat → ℚ) (need : Flt) : (left j : Nat) → Nat
  | 0, j => j
  | left + 1, j => if (num (sub j)).lt need then floorLoop sub need left (j + 1) else j

/-- `pxq_sub_floor`; `smin` is `PXA_PXQ_SMIN`. -/
def pxqSubFloor (smin : Bool) (x : Nat → Single) (anchor : Flt) : Nat :=
  if !smin || !(num 0).lt anchor then 0
  else
    let (apk, xpk) := (List.range Q.bs).foldl (fun pk i =>
      if pk.1.lt (x i).1.abs then ((x i).1.abs, (x i).1) else pk) (num 0, num 0)
    if !(num 0).lt apk then 0
    else
      let up := (num 0).lt xpk || xpk.eq (num 0)
      let book := fun i => num (tab.book i)
      let bcap := if up then book (Q.nBook - 1) else (book 0).neg
      let gap := if up then H.double.sub (book (Q.nBook - 1)) (book (Q.nBook - 2))
        else H.double.sub (book 1) (book 0)
      if !(num 0).lt bcap then 0
      else
        let half := H.double.mul (num (1 / 2)) gap
        let need := H.double.div apk (H.double.mul anchor (H.double.add bcap half))
        floorLoop tab.sub need 15 0

/-- The scale of a sub index: a product in `double`, rounded to `float`. -/
def subScale (anchor : Flt) (j : Nat) : Flt :=
  H.single.cast (H.double.mul anchor (num (tab.sub j)))

/-- The body of the loop over the sub indices: the best error and what is written. -/
def tryScale (x : Nat → Single) (w : Option (Nat → Weight)) (anchor : Flt) (row blk : Nat)
    (st : Flt × SubBlock Q.bs) (j : Nat) : Flt × SubBlock Q.bs :=
  let d := subScale H tab anchor j
  let err := blockErr H Q tab x w d
  if err.lt st.1 || (err.eq st.1 && Q.tieTakeHi row blk) then
    (err, { s4 := j, codes := fun i => elemCode H Q tab d (x i).1 })
  else st

/-- `pxq6_quant_subblock` and its twins: the error, and what `s4_out` and `codes_out` hold
afterwards when they hold `out` before. -/
def quantSubblock (smin : Bool) (x : Nat → Single) (w : Option (Nat → Weight)) (anchor : Flt)
    (row blk : Nat) (out : SubBlock Q.bs) : Flt × SubBlock Q.bs :=
  if !(num 0).lt (absMax Q.bs x) || !(num 0).lt anchor then
    (num 0, { s4 := 0, codes := fun _ => Q.zidx tab.book })
  else
    let j0 := pxqSubFloor H Q tab smin x anchor
    (List.range' j0 (16 - j0)).foldl (tryScale H Q tab x w anchor row blk)
      (H.double.round (10 ^ 300), out)

/-! ### A row -/

/-- Block `b` of a row. -/
def rowBlock (x : Nat → Single) (b : Nat) : Nat → Single := fun i => x (b * Q.bs + i)

/-- The weights of block `b`. -/
def rowWeights (w : Option (Nat → Weight)) (b : Nat) : Option (Nat → Weight) :=
  w.map fun w i => w (b * Q.bs + i)

/-- `pxq6_quant_row` and its twins: the error of the row, and the vectors afterwards. -/
def quantRow (smin : Bool) (x : Nat → Single) (w : Option (Nat → Weight)) (K : Nat) (anchor : Flt)
    (row : Nat) (scratch : Nat → SubBlock Q.bs) : Flt × (Nat → SubBlock Q.bs) :=
  (List.range (K / Q.bs)).foldl (fun st b =>
    let r := quantSubblock H Q tab smin (rowBlock Q x b) (rowWeights Q w b) anchor row b (st.2 b)
    (H.double.add st.1 r.1, Function.update st.2 b r.2)) (num 0, scratch)

/-- The variables of the loop over the anchor candidates. -/
structure AnchorFit (bs : Nat) where
  bestA : Half
  bestE : Flt
  prev : List Half
  scratch : Nat → SubBlock bs

/-- `pxq6_pick_anchor` and its twins: the anchor, and the vectors afterwards. `fit` is
`PXA_PXQ6_ANCHOR_FIT` and its twins; PXQ1 has none. -/
def pickAnchor (smin fit : Bool) (x : Nat → Single) (w : Option (Nat → Weight)) (K row : Nat)
    (scratch : Nat → SubBlock Q.bs) : Half × (Nat → SubBlock Q.bs) :=
  let amax := absMax K x
  let amax := if (num 65504).lt amax then num 65504 else amax
  let a0 := H.fp16 amax
  if !fit || !(num 0).lt a0.1 then (a0, scratch)
  else
    let st := [-2, -1, 0, 1, 2].foldl (fun (st : AnchorFit Q.bs) k =>
      let cand := H.fp16 (H.single.mul amax (H.exp2 k))
      if !(num 0).lt cand.1 then st
      else if st.prev.any fun p => p.1.eq cand.1 then st
      else
        let r := quantRow H Q tab smin x w K cand.1 row st.scratch
        let st := { st with prev := st.prev ++ [cand], scratch := r.2 }
        if st.bestE.lt (num 0) || r.1.lt st.bestE then { st with bestE := r.1, bestA := cand }
        else st) { bestA := a0, bestE := num (-1), prev := [], scratch := scratch }
    (st.bestA, st.scratch)

/-! ### An expert -/

/-- `pxq_kqw_row_weights`: a product with the root of the mean square and the square. `kqw` is
`PXA_PXQ_KQW`. -/
def kqwValue (x : Nat → Single) (K : Nat) (imx : ImxValue) (i : Nat) : Flt :=
  let D := H.double
  let s2 := (List.range K).foldl (fun s2 i => D.add s2 (D.mul (x i).1 (x i).1)) (num 0)
  let s2 := D.div s2 (num K)
  H.single.cast (D.mul (num imx.1) (H.sqrt (D.add s2 (D.mul (x i).1 (x i).1))))

theorem kqwValue_le {x : Nat → Single} {K : Nat} {imx : ImxValue} {i : Nat} {q : ℚ}
    (h : kqwValue H x K imx i = num q) : |q| ≤ 2 ^ 128 :=
  FloatFormat.le_of_cast H.single_le h

theorem kqwValue_notNeg (x : Nat → Single) (K : Nat) (imx : ImxValue) (i : Nat) :
    (kqwValue H x K imx i).NotNeg :=
  FloatFormat.notNeg_cast (FloatFormat.notNeg_mul imx.2.1 (H.sqrt_notNeg _))

/-- `pxq_kqw_row_weights`: the weights of a row; `kqw` is `PXA_PXQ_KQW`. -/
def pxqKqwRowWeights (kqw : Bool) (x : Nat → Single) (imx : Option (Nat → ImxValue)) (K : Nat) :
    Option (Nat → Weight) :=
  imx.map fun imx i =>
    if kqw then ⟨kqwValue H x K (imx i) i, fun _ => kqwValue_le H, kqwValue_notNeg H x K (imx i) i⟩
    else ⟨num (imx i).1, fun q hq => by
      obtain rfl := Flt.num.inj hq
      rw [abs_of_nonneg (imx i).2.1]
      exact (imx i).2.2, (imx i).2.1⟩

/-- The arguments of `pxq6_quantize_expert` and its twins, with the environment. The rows and
columns of `src` are functions. -/
structure ExpertArgs where
  src : Nat → Nat → Single
  K : Nat
  imx : Option (Nat → ImxValue)
  row0 : Nat
  kqw : Bool
  smin : Bool
  fit : Bool

variable (E : ExpertArgs)

/-- `wq` of row `n`. -/
def expertWeights (n : Nat) : Option (Nat → Weight) := pxqKqwRowWeights H E.kqw (E.src n) E.imx E.K

/-- `s4` and `codes` after the first rows: each row picks its anchor, then it is quantized. -/
def expertScratch : Nat → (Nat → SubBlock Q.bs)
  | 0 => fun _ => { s4 := 0, codes := fun _ => 0 }
  | n + 1 =>
    let w := expertWeights H E n
    let fitted := pickAnchor H Q tab E.smin E.fit (E.src n) w E.K (E.row0 + n) (expertScratch n)
    (quantRow H Q tab E.smin (E.src n) w E.K fitted.1.1 (E.row0 + n) fitted.2).2

/-- The anchor of row `n`. -/
def rowAnchor (n : Nat) : Half :=
  (pickAnchor H Q tab E.smin E.fit (E.src n) (expertWeights H E n) E.K (E.row0 + n)
    (expertScratch H Q tab E n)).1

/-- What is scattered into the slabs for block `b` of row `n`. -/
def emitted (n b : Nat) : SubBlock Q.bs := expertScratch H Q tab E (n + 1) b

/-- The call for block `b` of row `n`, with `out` in the vectors before it. -/
def blockCall (n b : Nat) (out : SubBlock Q.bs) : SubBlock Q.bs :=
  (quantSubblock H Q tab E.smin (rowBlock Q (E.src n) b) (rowWeights Q (expertWeights H E n) b)
    (rowAnchor H Q tab E n).1 (E.row0 + n) b out).2

end

end PxqLlama.Pxq
