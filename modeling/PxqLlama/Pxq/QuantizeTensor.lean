import PxqLlama.Pxq.Tiers
import PxqLlama.Lib.WorkQueue

/-!
# `Pxq.QuantizeTensor`: quantizing a tensor on several threads

`pxq6_quantize_tensor` and its twins quantize an `[E, R, K]` tensor expert by expert, or
cut every expert into chunks of panels and let workers draw chunk numbers from an atomic
counter. `quantizeTensorSerial` is the first branch, `quantizeTensorJob` the body of the
worker loop, and `QuantizeTensor` says which traces the call can have, over every order
in which the workers run.

An event is the quantization of one panel or the store of one byte. The panel search is
the parameter `QuantPanel`: a function of the panel's source rows, of the expert's imatrix
weights and of the absolute index of its first row, which seeds the tie-break. The
matrices are functions of the element offset, and `dst` is a byte address.
-/

namespace PxqLlama.Pxq

/-- The search of one panel: the codes of its 64 rows from the rows' `K` values, the `K`
column weights when there are any, and the absolute index of its first row. -/
abbrev QuantPanel (F : Type) (T : SlabTier) : Type :=
  (K : Nat) → (Fin 64 → Fin K → F) → Option (Fin K → F) → Nat → Nat → RowCodes T.bookSize

/-- The arguments of one panel: the element offset of its first source row, its byte
address, the offset of its imatrix columns and the absolute index of its first row. -/
structure PanelCall where
  src : Nat
  dst : Nat
  imx : Option Nat
  row : Nat
  deriving DecidableEq, Repr

/-- What a thread does: it searches a panel, or it stores a byte of it. -/
inductive Event
  | panel (call : PanelCall)
  | store (w : Store)
  deriving DecidableEq

/-- The panels of a trace, in order. -/
def panelCalls (trace : List Event) : List PanelCall :=
  trace.filterMap fun
    | .panel call => some call
    | .store _ => none

/-- The stores of a trace, in order. -/
def eventStores (trace : List Event) : List Store :=
  trace.filterMap fun
    | .panel _ => none
    | .store w => some w

/-- The source data and the environment of a call. -/
structure TensorArgs (F : Type) where
  src : Nat → F
  dst : Nat
  R : Nat
  K : Nat
  E : Nat
  /-- `imx`, none for a null pointer. -/
  imx : Option (Nat → F)
  imxSize : Nat
  /-- `pxq_imx_optin_enabled()`. -/
  imxOptin : Bool
  /-- `pxq_imatrix_column_usable(w, K)` for a non-null `w`. -/
  usable : (Nat → F) → Nat → Bool

section
variable {F : Type} {T : SlabTier} (quant : QuantPanel F T) (A : TensorArgs F)

/-- `pxq_imx_gate`. -/
def pxqImxGate (imx : Option (Nat → F)) (optin : Bool) : Option (Nat → F) :=
  if imx.isNone || optin then imx else none

/-- The lambda `imx_for`: the offset of expert `e`'s columns in `imx`, when the imatrix is
consumed, has one of the two sizes and the columns are usable. -/
def imxFor (e : Nat) : Option Nat :=
  match pxqImxGate A.imx A.imxOptin with
  | none => none
  | some imx =>
    let w : Option Nat :=
      if A.imxSize = A.K * A.E then some (e * A.K)
      else if A.imxSize = A.K then some 0
      else none
    w.filter fun off => A.usable (fun i => imx (off + i)) A.K

/-- The codes of the rows of a panel. -/
def panelCodes (call : PanelCall) : Nat → RowCodes T.bookSize :=
  quant A.K (fun r j => A.src (call.src + r.val * A.K + j.val))
    (call.imx.bind fun off => A.imx.map fun imx j => imx (off + j.val)) call.row

/-- Quantizing one panel: the search, then its stores. -/
def panelEvents (call : PanelCall) : List Event :=
  .panel call :: (scatterPanel T (A.K / 32) call.dst (panelCodes quant A call)).map .store

/-- `pxq*_quantize_expert` on `R` rows from element `src`, into address `dst`: panel after
panel. -/
def quantizeExpert (src dst R : Nat) (imx : Option Nat) (row0 : Nat) : List Event :=
  (List.range (R / 64)).flatMap fun p =>
    panelEvents quant A
      { src := src + p * 64 * A.K
        dst := dst + p * T.panelBytes (A.K / 32)
        imx := imx
        row := row0 + p * 64 }

/-- Bytes of one expert. -/
def expBytes (T : SlabTier) (R K : Nat) : Nat := R / 64 * T.panelBytes (K / 32)

/-- Panels of one job. -/
def CHUNK (R E : Nat) (nthread : Int) : Nat :=
  max 1 (min 8 (R / 64 * E / (4 * (max 1 nthread).toNat)))

def chunksPerE (R E : Nat) (nthread : Int) : Nat :=
  let panels := R / 64
  if 0 < panels then (panels + CHUNK R E nthread - 1) / CHUNK R E nthread else 1

def nJobs (R E : Nat) (nthread : Int) : Nat := E * chunksPerE R E nthread

/-- The serial branch: the experts in order, each from its own row 0. -/
def quantizeTensorSerial : List Event :=
  (List.range A.E).flatMap fun e =>
    quantizeExpert quant A (e * (A.R * A.K)) (A.dst + e * expBytes T A.R A.K) A.R
      (imxFor A e) 0

/-- The body of the worker loop for job `j`. -/
def quantizeTensorJob (nthread : Int) (j : Nat) : List Event :=
  let panels := A.R / 64
  let panelBytes := if 0 < panels then expBytes T A.R A.K / panels else 0
  let e := j / chunksPerE A.R A.E nthread
  let c := j % chunksPerE A.R A.E nthread
  let p0 := c * CHUNK A.R A.E nthread
  let nr := min (CHUNK A.R A.E nthread) (panels - p0) * 64
  quantizeExpert quant A (e * (A.R * A.K) + p0 * 64 * A.K)
    (A.dst + e * expBytes T A.R A.K + p0 * panelBytes) nr (imxFor A e) (p0 * 64)

/-- `pxq*_quantize_tensor` with `nthread` threads can have the given trace. -/
def QuantizeTensor (nthread : Int) (trace : List Event) : Prop :=
  if nthread ≤ 1 ∨ nJobs A.R A.E nthread ≤ 1 then
    trace = quantizeTensorSerial quant A
  else
    ∃ s, WorkQueue.Reach (nJobs A.R A.E nthread) (quantizeTensorJob quant A nthread)
        (WorkQueue.start (min nthread.toNat (nJobs A.R A.E nthread))) s ∧
      WorkQueue.Done s ∧ s.trace = trace

end

/-! ### The five quantizers -/

section
variable {F : Type} (A : TensorArgs F)

def pxq6QuantizeTensor (tier : Bool) (quant : QuantPanel F (pxq6Tier tier)) :
    Int → List Event → Prop :=
  QuantizeTensor quant A

def pxq2QuantizeTensor (quant : QuantPanel F pxq2Tier) : Int → List Event → Prop :=
  QuantizeTensor quant A

def pxq3QuantizeTensor (quant : QuantPanel F pxq3Tier) : Int → List Event → Prop :=
  QuantizeTensor quant A

def pxq6rQuantizeTensor (quant : QuantPanel F pxq6rTier) : Int → List Event → Prop :=
  QuantizeTensor quant A

/-- `pxq1_quantize_tensor` passes no row index: its quantizer breaks no tie by the row. -/
def pxq1QuantizeTensor
    (quant : (K : Nat) → (Fin 64 → Fin K → F) → Option (Fin K → F) → Nat →
      RowCodes pxq1Tier.bookSize) : Int → List Event → Prop :=
  QuantizeTensor (T := pxq1Tier) (fun K rows imx _ => quant K rows imx) A

end

end PxqLlama.Pxq
