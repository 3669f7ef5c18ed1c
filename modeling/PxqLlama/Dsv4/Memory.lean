import PxqLlama.Dsv4.Plan
import PxqLlama.Lib.Stores

/-!
# `Dsv4.Memory`: sizes, graph inputs and one decode

The sizes are those of `llama_dsv4_memory_init`. `rawKIdx`, `ringOpen`, `winIdx`,
`winOpen` and `compOpen` are the index and mask tensors that `llama_dsv4_set_inputs` fills,
entry by entry: a mask entry is open (`0.0f`) or closed (`-INFINITY`).

`writeRaw` and `compress` are what the graph of one batch does to the stores
(`src/graphs/build_deepseek4.cpp`). The raw keys go to their ring rows before attention
reads them. A compressed stream reads its source rows from the ring as the earlier batches
left it, commits the blocks, and only then overwrites ring rows: the persisting rows get a
zero dependency on the committed block. Rows hold where their content comes from, not the
floats.
-/

namespace PxqLlama.Dsv4

open Ggml (ggmlPad)

/-! ### Sizes (`llama_dsv4_memory_init`) -/

/-- `hparams.n_swa > 0 ? hparams.n_swa : 128`. -/
def memNSwa (nSwa : Nat) : Nat := if 0 < nSwa then nSwa else 128

/-- `cparams.n_ubatch > 0 ? cparams.n_ubatch : 512`. -/
def memNUb (nUbatch : Nat) : Nat := if 0 < nUbatch then nUbatch else 512

/-- `mem->raw_size`. -/
def rawSize (nUbatch nSwa : Nat) : Nat := ggmlPad (memNUb nUbatch + memNSwa nSwa + 1) 256

/-- `dsv4_comp_size`. -/
def dsv4CompSize (kvSize ratio : Nat) : Nat := max 1 ((kvSize + ratio - 1) / ratio)

/-- `cache_size` of a stream. -/
def cacheSize (kvSize ratio : Nat) : Nat := ggmlPad (dsv4CompSize kvSize ratio) 256

/-- `dsv4_state_rows`; `pad` is `PXA_DSV4_STATE_RING_PAD`. -/
def dsv4StateRows (pad : Bool) (history nUbatch : Nat) : Nat :=
  if pad then history + (if 0 < nUbatch then nUbatch else 1) else history

/-- The history that a stream reads: two windows with overlap, one without. -/
def history (ratio : Nat) (overlap : Bool) : Nat := if overlap then 2 * ratio else ratio

/-! ### The raw ring (`llama_dsv4_set_inputs`) -/

/-- `raw_k_idxs[i]`: the ring row of token `i`. The C remainder truncates. -/
def rawKIdx (rawSize : Nat) (b : LlamaBatch) (i : Nat) : Int :=
  (dsv4BatchPos b i).tmod rawSize

/-- Ring mode (0): `raw_kq_mask` of token `i` and ring row `j` is open. -/
def ringOpen (rawSize nSwa : Nat) (b : LlamaBatch) (i j : Nat) : Bool :=
  let p := dsv4BatchPos b i
  if p < 0 then false
  else
    -- most recent position stored in ring row `j`, at or before `p`
    let back := (p - j).tmod rawSize
    let q := p - (if back < 0 then back + rawSize else back)
    let d := p - q
    decide (0 ≤ q ∧ 0 ≤ d ∧ d < nSwa)

/-- `P`: the least position of the batch that is not negative, zero when there is none. -/
def winBase (b : LlamaBatch) : Int :=
  (((List.range b.nTokens).foldl (fun (P : Option Int) i =>
    let p := dsv4BatchPos b i
    match P with
    | none => if 0 ≤ p then some p else none
    | some P => if 0 ≤ p ∧ p < P then some p else some P) none).getD 0)

/-- `llama_dsv4_raw_window_width`. -/
def rawWindowWidth (rawSize nSwa align nTokens : Nat) : Nat :=
  let w := ggmlPad (nSwa + nTokens) align
  if w < rawSize then w else rawSize

/-- Window mode (1): `raw_win_idxs[c]`, the ring row of column `c`. -/
def winIdx (rawSize nSwa : Nat) (b : LlamaBatch) (c : Nat) : Int :=
  let safe := if 0 < b.nTokens then rawKIdx rawSize b 0 else 0
  if c < nSwa then
    let pos := winBase b - nSwa + c
    if 0 ≤ pos then pos.tmod rawSize else safe
  else if c < nSwa + b.nTokens then rawKIdx rawSize b (c - nSwa)
  else safe

/-- Window mode (1): `raw_kq_mask` of token `i` and column `c` is open. -/
def winOpen (nSwa : Nat) (b : LlamaBatch) (i c : Nat) : Bool :=
  let p := dsv4BatchPos b i
  if p < 0 then false
  else if c < nSwa then
    let pos := winBase b - nSwa + c
    decide (0 ≤ pos ∧ pos ≤ p ∧ p - pos < nSwa)
  else if c < nSwa + b.nTokens then
    let pk := dsv4BatchPos b (c - nSwa)
    decide (0 ≤ pk ∧ pk ≤ p ∧ p - pk < nSwa)
  else false

/-- The raw ring after the keys of the batch are written: a row holds the position of the
token whose key it holds. -/
def writeRaw (rawSize : Nat) (ring : Int → Option Int) (b : LlamaBatch) : Int → Option Int :=
  Stores.run ((List.range b.nTokens).map fun i =>
    (rawKIdx rawSize b i, some (dsv4BatchPos b i))) ring

/-! ### The compressed streams -/

/-- The compressed mask of token `i` and row `j` is open, in a graph `nKv` rows wide. -/
def compOpen (plan : CompPlan) (nKv i j : Nat) : Bool :=
  decide (j < min (plan.nVisible i) nKv)

/-- Where the content of a source row comes from. -/
inductive Source
  /-- The token at a position. -/
  | token (pos : Int)
  /-- The zero row. -/
  | zero
  /-- A ring row before any batch wrote it. -/
  | unwritten
  deriving DecidableEq, Repr

/-- A committed block: its compressed row, its RoPE position, and the sources of its
previous window (empty without overlap) and of its own window. -/
structure Block where
  row : Nat
  ropePos : Int
  prev : List Source
  cur : List Source
  deriving DecidableEq, Repr

/-- A stream's parameters. -/
structure StreamParams where
  ratio : Nat
  overlap : Bool
  stateSize : Nat
  cacheSize : Nat

/-- What `llama_dsv4_memory_init` puts into `mem->s[si]` for a stream of the given ratio. -/
def stream (ratio : Nat) (overlap pad : Bool) (nUbatch kvSize : Nat) : StreamParams where
  ratio := ratio
  overlap := overlap
  stateSize := dsv4StateRows pad (history ratio overlap) (memNUb nUbatch)
  cacheSize := cacheSize kvSize ratio

/-- `mem->s[LLAMA_DSV4_CSA]`; `mem->s[LLAMA_DSV4_LID]` has the same sizes. -/
def csaStream : Bool → Nat → Nat → StreamParams := stream DSV4_CSA_RATIO true

/-- `mem->s[LLAMA_DSV4_HCA]`. -/
def hcaStream : Bool → Nat → Nat → StreamParams := stream DSV4_HCA_RATIO false

def StreamParams.plan (S : StreamParams) (b : LlamaBatch) : CompPlan :=
  dsv4BuildCompPlan b S.ratio S.overlap S.stateSize S.cacheSize

/-- The batch gets the scratch write. -/
def StreamParams.scratch (S : StreamParams) (b : LlamaBatch) : Bool :=
  needsScratch S.ratio (planLoop b S.ratio S.overlap S.stateSize b.nTokens)

/-- Row `r` of the concatenation `[ring | batch | zero]`. -/
def sourceRow (S : StreamParams) (ring : Nat → Source) (b : LlamaBatch) (r : Nat) : Source :=
  if r < S.stateSize then ring r
  else if r < S.stateSize + b.nTokens then .token (dsv4BatchPos b (r - S.stateSize))
  else .zero

/-- The blocks that the graph commits: block `k` takes its `k`-th `ratio` entries of the
read list, after the previous windows of all blocks with overlap. -/
def blocks (S : StreamParams) (ring : Nat → Source) (b : LlamaBatch) : List Block :=
  let plan := S.plan b
  let nBlocks := plan.stateWriteIdxs.length
  let gather := fun l : List Nat => l.map (sourceRow S ring b)
  let window := fun k => gather ((plan.stateReadIdxs.drop (k * S.ratio)).take S.ratio)
  (List.range nBlocks).map fun k =>
    { row := plan.stateWriteIdxs.getD k 0
      ropePos := plan.stateWritePos.getD k 0
      prev := if S.overlap then window k else []
      cur := if S.overlap then window (nBlocks + k) else window k }

/-- The ring after the batch: `state_persist_src_idxs` copied to `state_persist_dst_idxs`. -/
def persist (S : StreamParams) (ring : Nat → Source) (b : LlamaBatch) : Nat → Source :=
  let plan := S.plan b
  Stores.run ((plan.statePersistDstIdxs.zip plan.statePersistSrcIdxs).map fun (dst, src) =>
    (dst, .token (dsv4BatchPos b src))) ring

/-- What a compressed row holds: nothing yet, a block of the ubatch of that number in the
run, or the scratch write of that ubatch. -/
inductive CompRow
  | empty
  | block (ubatch : Nat)
  | scratch (ubatch : Nat)
  deriving DecidableEq, Repr

/-- The compressed rows after ubatch number `u` commits. -/
def commitRows (S : StreamParams) (rows : Nat → CompRow) (b : LlamaBatch) (u : Nat) :
    Nat → CompRow :=
  Stores.run ((S.plan b).stateWriteIdxs.map fun r =>
    (r, if S.scratch b then .scratch u else .block u)) rows

/-- The compressed rows after a run of ubatches, numbered from zero. -/
def commitRowsRun (S : StreamParams) (bs : List LlamaBatch) : Nat → CompRow :=
  bs.zipIdx.foldl (fun rows bu => commitRows S rows bu.1 bu.2) fun _ => .empty

/-- A stream's ring, and the blocks committed so far (scratch writes left out). -/
structure StreamState where
  ring : Nat → Source
  committed : List Block

/-- One batch: read and commit, then persist. -/
def compress (S : StreamParams) (st : StreamState) (b : LlamaBatch) : StreamState where
  ring := persist S st.ring b
  committed := st.committed ++ (if S.scratch b then [] else blocks S st.ring b)

/-- A stream after a run of batches from the empty ring. -/
def compressRun (S : StreamParams) (bs : List LlamaBatch) : StreamState :=
  bs.foldl (compress S) { ring := fun _ => .unwritten, committed := [] }

end PxqLlama.Dsv4

/-!
## The compressor ring when decoding starts again

A decode of draft tokens leaves their states in the ring. When some are rejected, the next decode
starts at the first rejected position, and decodes it and what follows anew. `persistState` is
`persist` with the number of the batch that computed a state next to its position, so that the
state of a rejected token differs from that of the token that is decoded in its place.
-/

namespace PxqLlama.Dsv4

/-- Which state a ring row holds: the batch of the run that computed it, and its position. -/
structure RowState where
  batch : Nat
  pos : Int
  deriving DecidableEq, Repr

/-- The ring after batch number `u`: `state_persist_src_idxs` copied to
`state_persist_dst_idxs`. -/
def persistState (S : StreamParams) (u : Nat) (ring : Nat → Option RowState) (b : LlamaBatch) :
    Nat → Option RowState :=
  let plan := S.plan b
  Stores.run ((plan.statePersistDstIdxs.zip plan.statePersistSrcIdxs).map fun (dst, src) =>
    (dst, some ⟨u, dsv4BatchPos b src⟩)) ring

/-- The ring after a run of batches. -/
def ringAfter (S : StreamParams) (bs : List LlamaBatch) : Nat → Option RowState :=
  bs.zipIdx.foldl (fun ring bu => persistState S bu.2 ring bu.1) fun _ => none

/-- The batch of a run in which a position was decoded last. -/
def lastDecode (bs : List LlamaBatch) (x : Int) : Option Nat :=
  bs.zipIdx.foldl (fun last bu =>
    if (List.range bu.1.nTokens).any fun i => dsv4BatchPos bu.1 i = x then some bu.2 else last) none

/-- Runs of batches of at most `nUb` tokens of sequence `s`, from position zero on. Each batch
starts between the start and the end of the one before it. Next to the run are the start and the end
of its last batch. -/
inductive Rewinding (nUb : Nat) (s : Int) : List LlamaBatch → Nat → Nat → Prop
  | nil : Rewinding nUb s [] 0 0
  | decode {bs : List LlamaBatch} {p e q : Nat} {b : LlamaBatch} (h : Rewinding nUb s bs p e)
      (hstart : p ≤ q ∧ q ≤ e) (hb : PositionsFrom q b) (hs : SingleSeq s b)
      (hn : b.nTokens ≤ nUb) : Rewinding nUb s (bs ++ [b]) q (q + b.nTokens)

end PxqLlama.Dsv4
