import Mathlib.Data.Finset.Sort
import Mathlib.Data.Nat.Log
import PxqLlama.Ggml.Pad
import PxqLlama.Kv.FindSlot

/-!
# `Kv.MaskFill`: the causal masks

`llama_set_inputs` fills the mask of the full layers and the mask of the sliding layers, one row
for each token and one entry for each cell below `n`. The loop body exists four times: for one
thread, for a range of a thread, without ALiBi for `f16`, and this one again with a look at the
shadow of a cell's set. `llama_set_inp_KQ_mask_swa` is a fifth one, for the cells of the sliding
cache. A fill is the list of its stores (`Stores.run` performs them); the stores of each thread
are a list of their own.
-/

namespace PxqLlama.Kv

open PxqLlama.Ggml

/-! ### Integers -/

/-- The conversion of a signed integer to `uint32_t`. -/
def toU32 (x : Int) : Nat := (x % 2 ^ 32).toNat

/-- `(int32_t) n`. -/
def toI32 (n : Nat) : Int := if n % 2 ^ 32 < 2 ^ 31 then (n % 2 ^ 32 : Nat) else n % 2 ^ 32 - 2 ^ 32

/-! ### Entries -/

/-- The nearest number with `p` significant bits, and the even one of two. -/
def roundBits (p d : Nat) : Nat :=
  let e := Nat.log2 d + 1 - p
  let q := d / 2 ^ e
  let r := d % 2 ^ e
  if 2 ^ e < 2 * r ∨ (2 * r = 2 ^ e ∧ q % 2 = 1) then (q + 1) * 2 ^ e else q * 2 ^ e

/-- An entry of a mask: `-INFINITY`, or the negative of a magnitude. -/
inductive MaskValue
  | negInf
  | neg (magnitude : Nat)
  deriving DecidableEq, Repr

/-- `ggml_fp32_to_fp16`: eleven significant bits, and no magnitude from `2 ^ 16` on. -/
def ggmlFp32ToFp16 : MaskValue → MaskValue
  | .negInf => .negInf
  | .neg d => if roundBits 11 d < 2 ^ 16 then .neg (roundBits 11 d) else .negInf

/-- The token attends to the cell. -/
def MaskValue.opens : MaskValue → Bool
  | .negInf => false
  | .neg _ => true

/-! ### The sequences of a cell -/

attribute [local instance] seqId_trans seqId_antisymm in
/-- `seq0` after `sync_shadow`: `SEQ_NONE`, the only sequence, or `SEQ_MULTI`. -/
def KvCell.seqShadow (c : KvCell) : Int :=
  match c.seqId.sort (· ≤ ·) with
  | [] => -1
  | [s] => s
  | _ => -2

/-- `has_seq_fast`. -/
def KvCell.hasSeqFast (c : KvCell) (s : Int) : Bool :=
  if 0 ≤ c.seqShadow then c.seqShadow = s else c.seqShadow = -2 && c.hasSeqId s

/-! ### The fills -/

/-- What the fills read of the model and of the context: `hasMask` and `hasSwa` say that the
tensors are there. With flash attention they are `f16`, else `f32`. -/
structure MaskCtx where
  flashAttn : Bool
  useAlibi : Bool
  soa : Bool
  nSwa : Nat
  nAttnChunk : Nat
  hasMask : Bool
  hasSwa : Bool

/-- The two tensors. -/
inductive MaskTensor
  | full
  | sliding
  deriving DecidableEq

/-- A store to an entry of a tensor. -/
abbrev MaskStore := (MaskTensor × Nat) × MaskValue

/-- `batch.seq_id[j][0]`. Each token has a sequence. -/
def Token.firstSeq (t : Token) : Int := t.seqId.headD 0

section
variable (m : MaskCtx) (cells : Nat → KvCell) (nKv : Nat)

/-- The tensor is there. -/
def MaskCtx.has : MaskTensor → Bool
  | .full => m.hasMask
  | .sliding => m.hasSwa

/-- A value in the type of the tensors. -/
def MaskCtx.stored (f : MaskValue) : MaskValue := if m.flashAttn then ggmlFp32ToFp16 f else f

/-- A value is stored to a tensor that is there. -/
def MaskCtx.store (dst : MaskTensor) (idx : Nat) (f : MaskValue) : List MaskStore :=
  if m.has dst then [((dst, idx), m.stored f)] else []

/-- `pxa_cell_has_seq`. -/
def MaskCtx.cellHasSeq (c : KvCell) (s : Int) : Bool :=
  if m.soa then c.hasSeqFast s else c.hasSeqId s

/-- `-std::abs(cell.pos - pos)` as a `float`, or zero. -/
def MaskCtx.openValue (c : KvCell) (pos : Int) : MaskValue :=
  if m.useAlibi then .neg (roundBits 24 (c.pos - pos).natAbs) else .neg 0

/-- `pos_chunk_start`: the quotient and the product are `uint32_t`. -/
def posChunkStart (chunk : Nat) (pos : Int) : Int := toI32 (toU32 pos / chunk * chunk)

/-- The cell is cut off by the chunk of the token, or by the window. Positions are `int32_t`, those
of cells at least -1, which is free: where the difference overflows, the entry is closed. -/
def MaskCtx.cutOff (c : KvCell) (pos : Int) : Bool :=
  if m.nAttnChunk ≠ 0 then
    c.pos < posChunkStart m.nAttnChunk pos || pos < posChunkStart m.nAttnChunk pos
  else toI32 m.nSwa ≤ pos - c.pos

/-- The lambda `noalibi_f16`: one row, from `first` to `last`. -/
def noalibiF16 (j : Nat) (t : Token) (first last : Nat) : List MaskStore :=
  if m.soa && m.hasMask && !m.hasSwa then
    -- only the shadow is read
    (List.range' first (last - first)).map fun i =>
      ((.full, j * nKv + i),
        if (cells i).hasSeqFast t.firstSeq && (cells i).pos ≤ t.pos then .neg 0 else .negInf)
  else
    (List.range' first (last - first)).flatMap fun i =>
      let h : MaskValue :=
        if !m.cellHasSeq (cells i) t.firstSeq || t.pos < (cells i).pos then .negInf else .neg 0
      (if m.hasMask then [((.full, j * nKv + i), h)] else []) ++
        if m.hasSwa then
          let h := if h ≠ .negInf then if m.cutOff (cells i) t.pos then .negInf else h else h
          [((.sliding, j * nKv + i), h)]
        else []

/-- The body of the loop over the cells in `compute`. -/
def threadedEntry (j : Nat) (t : Token) (i : Nat) : List MaskStore :=
  let f : MaskValue :=
    if !m.cellHasSeq (cells i) t.firstSeq || t.pos < (cells i).pos then .negInf
    else m.openValue (cells i) t.pos
  m.store .full (j * nKv + i) f ++
    let f := if f ≠ .negInf then if m.cutOff (cells i) t.pos then .negInf else f else f
    m.store .sliding (j * nKv + i) f

/-- The lambda `compute`, for the thread `ith`. -/
def computeThread (batch : List Token) (npt ith : Nat) : List MaskStore :=
  let first := ith * npt
  let last := min nKv (first + npt)
  if last ≤ first then []
  else batch.zipIdx.flatMap fun (t, j) =>
    if !m.useAlibi && m.flashAttn then noalibiF16 m cells nKv j t first last
    else (List.range' first (last - first)).flatMap (threadedEntry m cells nKv j t)

/-- The stores of each thread. -/
def fillThreads (batch : List Token) (nThread : Nat) : List (List MaskStore) :=
  let npt := (nKv + nThread - 1) / nThread
  (List.range nThread).map (computeThread m cells nKv batch npt)

/-- The body of the loop over the cells of the one thread. It cuts off closed entries too. -/
def singleEntry (j : Nat) (t : Token) (i : Nat) : List MaskStore :=
  let f : MaskValue :=
    if !m.cellHasSeq (cells i) t.firstSeq || t.pos < (cells i).pos then .negInf
    else m.openValue (cells i) t.pos
  m.store .full (j * nKv + i) f ++
    let f := if m.cutOff (cells i) t.pos then .negInf else f
    m.store .sliding (j * nKv + i) f

/-- The loop over the tokens of the one thread. -/
def fillSingle (batch : List Token) : List MaskStore :=
  batch.zipIdx.flatMap fun (t, j) =>
    if !m.useAlibi && m.flashAttn then noalibiF16 m cells nKv j t 0 nKv
    else (List.range' 0 nKv).flatMap (singleEntry m cells nKv j t)

/-- `GGML_KQ_MASK_PAD`. -/
def ggmlKqMaskPad : Nat := 16

/-- The rows behind the tokens are closed. -/
def fillPad (nTokens : Nat) : List MaskStore :=
  (List.range' (nTokens * nKv) (ggmlPad nTokens ggmlKqMaskPad * nKv - nTokens * nKv)).flatMap
    fun idx => m.store .full idx .negInf ++ m.store .sliding idx .negInf

/-! ### The fill of the sliding cache -/

/-- The body of the loop of `fill_range`. -/
def swaEntry (j : Nat) (t : Token) (i : Nat) : List MaskStore :=
  let f : MaskValue :=
    if !m.cellHasSeq (cells i) t.firstSeq || t.pos < (cells i).pos || (cells i).pos < 0 then .negInf
    else m.openValue (cells i) t.pos
  let f := if f ≠ .negInf ∧ toI32 m.nSwa ≤ t.pos - (cells i).pos then .negInf else f
  m.store .sliding (j * nKv + i) f

/-- The lambda `fill_range`. -/
def swaFillRange (batch : List Token) (first last : Nat) : List MaskStore :=
  batch.zipIdx.flatMap fun (t, j) =>
    (List.range' first (last - first)).flatMap (swaEntry m cells nKv j t)

/-- The stores of each thread of `llama_set_inp_KQ_mask_swa`, one of them for a small mask. -/
def swaFillThreads (batch : List Token) (nThread : Nat) : List (List MaskStore) :=
  if 1024 ≤ nKv ∧ 32 ≤ batch.length then
    let npt := (nKv + nThread - 1) / nThread
    (List.range nThread).map fun ith =>
      let first := ith * npt
      let last := min nKv (first + npt)
      if first < last then swaFillRange m cells nKv batch first last else []
  else [swaFillRange m cells nKv batch 0 nKv]

end

/-! ### Both masks -/

/-- The fills of `llama_set_inputs`: the stores of each thread, and then of the rows behind the
tokens, which `skipPad` leaves out (`pxa_skip_pad_fill`). -/
structure MaskFills where
  threads : List (List MaskStore)
  pad : List MaskStore

/-- The causal branch of `llama_set_inputs`. -/
def llamaSetInpKQMask (m : MaskCtx) (cells : Nat → KvCell) (nKv : Nat) (batch : List Token)
    (nThread : Nat) (skipPad : Bool) : MaskFills :=
  if 1024 ≤ nKv ∧ 32 ≤ batch.length then
    ⟨fillThreads m cells nKv batch nThread, fillPad m nKv batch.length⟩
  else
    ⟨[fillSingle m cells nKv batch], if skipPad then [] else fillPad m nKv batch.length⟩

/-- `llama_set_inp_KQ_mask_swa`. -/
def llamaSetInpKQMaskSwa (m : MaskCtx) (cells : Nat → KvCell) (nKv : Nat) (batch : List Token)
    (nThread : Nat) : MaskFills :=
  ⟨swaFillThreads m cells nKv batch nThread,
    fillPad { m with hasMask := false } nKv batch.length⟩

end PxqLlama.Kv

/-!
## A cell with the shadow of its set

`struct llama_kv_cell` keeps an integer `seq0` next to the set of its sequences, so that the mask
fill need not look into the set. `KvCell` leaves it out, and `KvCell.seqShadow` is what it should
be. `ShadowCell` stores it, and its methods are the only code that writes the set.

`CellsOp` is one call on an array of cells, with the copies of whole cells that defragmentations and
checkpoints make. A swap moves the cells, and what a set holds after it was moved from is not
specified. It is an argument of the swap.
-/

namespace PxqLlama.Kv

/-- `SEQ_NONE`: the set is empty. -/
def SEQ_NONE : Int := -1

/-- `SEQ_MULTI`: there are two sequences or more. -/
def SEQ_MULTI : Int := -2

/-- `struct llama_kv_cell`. -/
structure ShadowCell extends KvCell where
  seq0 : Int := SEQ_NONE
  deriving DecidableEq

namespace ShadowCell

attribute [local instance] seqId_trans seqId_antisymm in
/-- `sync_shadow`. -/
def syncShadow (c : ShadowCell) : ShadowCell :=
  { c with seq0 :=
      if c.seqId = ∅ then SEQ_NONE
      else if c.seqId.card = 1 then (c.seqId.sort (· ≤ ·)).headD 0
      else SEQ_MULTI }

/-- `add_seq`. -/
def addSeq (c : ShadowCell) (id : Int) : ShadowCell :=
  syncShadow { c with seqId := insert id c.seqId }

/-- `erase_seq`. -/
def eraseSeq (c : ShadowCell) (id : Int) : ShadowCell :=
  syncShadow { c with seqId := c.seqId.erase id }

/-- `clear_seq`. -/
def clearSeq (c : ShadowCell) : ShadowCell := { c with seqId := ∅, seq0 := SEQ_NONE }

/-- `has_seq_fast`. -/
def hasSeqFast (c : ShadowCell) (id : Int) : Bool :=
  if 0 ≤ c.seq0 then c.seq0 = id else c.seq0 = SEQ_MULTI && decide (id ∈ c.seqId)

end ShadowCell

/-- One call on an array of cells. -/
inductive CellsOp
  | addSeq (i : Nat) (id : Int)
  | eraseSeq (i : Nat) (id : Int)
  | clearSeq (i : Nat)
  /-- `cells[i] = cells[j]`. -/
  | copy (i j : Nat)
  /-- `std::swap(cells[i], cells[j])`. -/
  | swap (i j : Nat) (left : Finset Int)
  /-- `cells[i] = llama_kv_cell()`. -/
  | reset (i : Nat)

/-- `std::swap`: three moves. The set of a cell that was moved from holds `left`. -/
def stdSwap (cells : Nat → ShadowCell) (i j : Nat) (left : Finset Int) : Nat → ShadowCell :=
  let tmp := cells i
  let cells := Function.update cells i { cells i with seqId := left }
  let moved := cells j
  let cells := Function.update cells j { cells j with seqId := left }
  let cells := Function.update cells i moved
  Function.update cells j tmp

/-- The cells after a call. -/
def cellsStep (cells : Nat → ShadowCell) : CellsOp → Nat → ShadowCell
  | .addSeq i id => Function.update cells i ((cells i).addSeq id)
  | .eraseSeq i id => Function.update cells i ((cells i).eraseSeq id)
  | .clearSeq i => Function.update cells i (cells i).clearSeq
  | .copy i j => Function.update cells i (cells j)
  | .swap i j left => stdSwap cells i j left
  | .reset i => Function.update cells i {}

/-- The cells after a run of calls, from cells as constructed. -/
def cellsRun (ops : List CellsOp) : Nat → ShadowCell := ops.foldl cellsStep fun _ => {}

/-- The sequences have numbers from zero on. -/
def CellsOp.Ok : CellsOp → Prop
  | .addSeq _ id => 0 ≤ id
  | .eraseSeq _ id => 0 ≤ id
  | _ => True

end PxqLlama.Kv
