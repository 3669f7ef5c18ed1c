import PxqLlama.Kv.SeqState
import PxqLlama.Kv.Tensors
import PxqLlama.Lib.Wire

/-!
# `Kv.StateFile`: a sequence in a file

What `llama_state_seq_save_file` writes for a sequence, and how `llama_state_seq_load_file` reads it
back: the bytes of the cells and rows first, then the file around them.
-/

/-!
## The bytes of a saved sequence

`llama_data_write` walks over the cells and tensors of a sequence. It writes words, and ranges of
tensors; what becomes of these is left to its two virtual functions. So the walk is a list of
`WriteOp`, and `llama_data_write_dummy` and `llama_data_write_buffer` are two readings of the
list: the first adds up the sizes, the second fetches the bytes, and gathers the rows of a split
tensor from its slices.
-/

namespace PxqLlama.Kv

open Rows Wire

/-! ### The walk -/

/-- A call of `write`, or of `write_tensor_data`. -/
inductive WriteOp
  | write (bytes : List UInt8)
  | tensorData (part : Part) (t : CacheTensor) (offset size il : Nat)

attribute [local instance] seqId_trans seqId_antisymm in
/-- `write_kv_cache_meta`. The sequences of a cell are only written when all are saved. -/
def writeKvCacheMeta (c : KvCache) (ranges : List (Nat × Nat)) (s : Int) : List WriteOp :=
  ranges.flatMap fun r => (List.range' r.1 (r.2 - r.1)).flatMap fun i =>
    let seqs := if s = -1 then (c.cells i).seqId.sort (· ≤ ·) else []
    [.write (encodeInt 4 (c.cells i).pos), .write (encode 4 seqs.length)] ++
      seqs.map fun t => .write (encodeInt 4 t)

/-- The keys of a layer. -/
def writeK (shape : KvShape) (ranges : List (Nat × Nat)) (needKv : Bool) (il : Nat) (l : Layer) :
    List WriteOp :=
  match if needKv then l.k else none with
  | none => [.write (encodeInt 4 (-1)), .write (encode 8 0)]
  | some t =>
    let row := kSizeRow shape l t
    [.write (encodeInt 4 t.type.id), .write (encode 8 row)] ++
      ranges.map fun r => .tensorData .k t (r.1 * row) ((r.2 - r.1) * row) il

/-- The values of a layer, one row for each cell. -/
def writeV (ranges : List (Nat × Nat)) (needKv : Bool) (il : Nat) (l : Layer) : List WriteOp :=
  match if needKv then l.v else none with
  | none => [.write (encodeInt 4 (-1)), .write (encode 8 0)]
  | some t =>
    let row := t.type.rowSize l.vRowEmbd
    [.write (encodeInt 4 t.type.id), .write (encode 8 row)] ++
      ranges.map fun r => .tensorData .v t (r.1 * row) ((r.2 - r.1) * row) il

/-- The values of a layer, one row for each element of a value. The offset is computed with
`uint32_t`. -/
def writeVTrans (c : KvCache) (ranges : List (Nat × Nat)) (needKv : Bool) (il : Nat) (l : Layer) :
    List WriteOp :=
  match if needKv then l.v else none with
  | none => [.write (encodeInt 4 (-1)), .write (encode 4 0), .write (encode 4 0)]
  | some t =>
    let el := t.type.typeSize
    [.write (encodeInt 4 t.type.id), .write (encode 4 el), .write (encode 4 l.vRowEmbd)] ++
      (List.range l.vRowEmbd).flatMap fun j =>
        ranges.map fun r =>
          .tensorData .v t ((r.1 + j * c.size) * el % 2 ^ 32) ((r.2 - r.1) * el) il

/-- The recurrent state of a layer: the row that the cell of the sequence names as its source. -/
def writeS (c : KvCache) (s : Int) (il : Nat) (l : Layer) : List WriteOp :=
  match l.s with
  | none => [.write (encodeInt 4 (-1)), .write (encode 8 0), .write (encode 4 0)]
  | some t =>
    let row := t.type.rowSize t.ne0
    let rows := if s = -1 then t.ne1 else writtenStateRows c s
    let offset := if s = -1 then 0 else (c.cells s.toNat).src.toNat * row
    [.write (encodeInt 4 t.type.id), .write (encode 8 row), .write (encode 4 rows)] ++
      if 0 < rows then [.tensorData .s t offset (rows * row) il] else []

/-- A part of every layer. -/
def perLayer (shape : KvShape) {α : Type} (f : Nat → Layer → List α) : List α :=
  shape.layers.zipIdx.flatMap fun (l, il) => f il l

/-- `write_kv_cache_data`. -/
def writeKvCacheData (shape : KvShape) (c : KvCache) (ranges : List (Nat × Nat)) (s : Int)
    (partialOnly : Bool) : List WriteOp :=
  let needKv := !partialOnly
  [.write (encode 4 shape.vState), .write (encode 4 shape.layers.length)] ++
  perLayer shape (writeK shape ranges needKv) ++
  (if shape.vState = 0 then perLayer shape (writeV ranges needKv)
    else if shape.vState = 1 then perLayer shape (writeVTrans c ranges needKv)
    else []) ++
  [.write (encode 4 (if c.hasQnextState then 1 else 0))] ++
  if c.hasQnextState then perLayer shape (writeS c s) else []

/-- The walk of `write_kv_cache`. -/
def writeKvCacheOps (shape : KvShape) (c : KvCache) (s : Int) (partialOnly : Bool) :
    List WriteOp :=
  .write (encode 4 (Ranges.scan (c.writesCell s) c.size c.size).count) ::
    (writeKvCacheMeta c (cellRanges c s) s ++
      writeKvCacheData shape c (cellRanges c s) s partialOnly)

/-! ### `llama_data_write_dummy` -/

def WriteOp.size : WriteOp → Nat
  | .write bytes => bytes.length
  | .tensorData _ _ _ size _ => size

/-- `llama_state_seq_get_size`. -/
def llamaStateSeqGetSize (st : StateCtx) (s : Int) (partialOnly : Bool) : Nat :=
  if st.ctx.swaKvActive then 0
  else ((writeKvCacheOps st.shape st.ctx.kvSelf s partialOnly).map WriteOp.size).sum

/-! ### `llama_data_write_buffer` -/

/-- The writer throws, or an assertion fails. It counts as a failed assertion that a row has no
bytes to divide by, and that no device has the bytes. -/
inductive WriteFailure
  | thrown
  | aborted
  deriving DecidableEq

/-- `get_tensor_data_split` of whole rows: each row is gathered from the slices. -/
def gatherRows (mem : Nat → Nat → UInt8) (type : TensorType) (plan : SplitPlan)
    (offset size : Nat) : Except WriteFailure (List UInt8) :=
  let fullRowSize := type.rowSize plan.ne
  if fullRowSize = 0 ∨ offset % fullRowSize ≠ 0 ∨ size % fullRowSize ≠ 0 then .error .aborted
  else
    let firstRow := offset / fullRowSize
    let numRows := size / fullRowSize
    let fits (slice : Slice) : Bool := slice.tensor.type = type &&
      slice.tensor.inBounds (firstRow * slice.rowSize type) (slice.rowSize type * numRows)
    if plan.slices.all fits ∧
        (plan.slices.map fun slice => slice.rowSize type * numRows).sum = size then
      .ok ((List.range' firstRow numRows).flatMap fun i => plan.slices.flatMap fun slice =>
        row (mem slice.dev) (slice.rowSize type) i)
    else .error .aborted

/-- `get_tensor_data_split`. The devices of an MLA model have copies: the first one is read. -/
def getTensorDataSplit (shape : KvShape) (mem : Nat → Nat → UInt8) (t : CacheTensor)
    (splits : List (Option GgmlTensor)) (offset size il : Nat) :
    Except WriteFailure (List UInt8) :=
  if 0 < t.type.rowMetaSize then .error .thrown
  else
    match shape.layers[il]? with
    | none => .error .aborted
    | some l =>
      if shape.isMla then
        match (devSlices splits fun _ slice => slice.ne0).head? with
        | none => .error .aborted
        | some slice =>
          if slice.tensor.inBounds offset size then .ok (Rows.slice (mem slice.dev) offset size)
          else .error .aborted
      else
        match splitPlan l t splits with
        | none => .error .aborted
        | some plan => gatherRows mem t.type plan offset size

/-- The bytes that are written. -/
def WriteOp.bytes (shape : KvShape) (mem : TensorMem) : WriteOp → Except WriteFailure (List UInt8)
  | .write bytes => .ok bytes
  | .tensorData part t offset size il =>
    match t.extra with
    | some splits =>
      getTensorDataSplit shape (fun dev => mem ⟨part, il, some dev⟩) t splits offset size il
    | none =>
      if t.toGgmlTensor.inBounds offset size then
        .ok (Rows.slice (mem ⟨part, il, none⟩) offset size)
      else .error .aborted

/-- The calls, one after the other, to a buffer that has room for so many bytes. -/
def writeAll (shape : KvShape) (mem : TensorMem) :
    Nat → List WriteOp → Except WriteFailure (List UInt8)
  | _, [] => .ok []
  | room, op :: ops =>
    if room < op.size then .error .thrown
    else
      match op.bytes shape mem with
      | .error e => .error e
      | .ok bytes =>
        match writeAll shape mem (room - op.size) ops with
        | .error e => .error e
        | .ok rest => .ok (bytes ++ rest)

/-- `llama_state_seq_get_data`: the bytes, which are none when it refuses; `none` when an
assertion fails. -/
def llamaStateSeqGetData (st : StateCtx) (room : Nat) (s : Int) (partialOnly : Bool) :
    Option (List UInt8) :=
  if st.ctx.swaKvActive then some []
  else
    match writeAll st.shape st.mem room
        (writeKvCacheOps st.shape st.ctx.kvSelf s partialOnly) with
    | .ok bytes => some bytes
    | .error .thrown => some []
    | .error .aborted => none

end PxqLlama.Kv

/-!
## A saved sequence is read back

`llama_data_read` drops the destination sequence, reads the cells and places them as one ubatch,
and then reads the rows into the slot. The cells and the rows are formats (`Wire.Item`) that
depend on the shape of the cache, on the slot and on the count of cells alone.

A read that is refused ends in a cleanup: the sequence is removed again. A read that throws, at
the end of the buffer for one, passes the cleanup by, and is only caught in
`llama_state_seq_set_data`.
-/

namespace PxqLlama.Kv

open Rows Wire

/-! ### Rows of tensors -/

/-- The tensors with bytes stored in one of them, from an offset on. -/
def TensorMem.set (mem : TensorMem) (id : TensorId) (offset : Nat) (bytes : List UInt8) :
    TensorMem :=
  Function.update mem id (blit (mem id) offset bytes)

/-- The slots that rows are read to: the first row, and how many there are. -/
structure RowRange where
  head : Nat
  nrows : Nat

/-- The assertions of `read_kv_cache_data_split`. -/
def splitFits (shape : KvShape) (l : Layer) (t : CacheTensor) (splits : List (Option GgmlTensor))
    (rows : RowRange) (rowSize : Nat) : Bool :=
  let fits (size : Nat) (slice : Slice) : Bool :=
    slice.tensor.type = t.type && slice.tensor.inBounds (rows.head * size) (rows.nrows * size)
  decide (t.type.rowMetaSize = 0) &&
    if shape.isMla then
      decide (shape.mlaAttn = 3) &&
        (devSlices splits fun _ slice => slice.ne0).all (fits rowSize)
    else
      match splitPlan l t splits with
      | none => false
      | some plan =>
        decide (rowSize = t.type.rowSize plan.ne) &&
          plan.slices.all (fun slice => fits (slice.rowSize t.type) slice) &&
          decide ((plan.slices.map (·.ne)).sum = plan.ne) &&
          decide ((plan.slices.map (·.rowSize t.type)).sum = rowSize)

/-- The loop over the devices: the part of each row that the slice has, which starts at `offset`
in the row, is stored in it. -/
def scatterRows (id : Nat → TensorId) (type : TensorType) (rows : RowRange) (rowSize : Nat)
    (data : List UInt8) : List Slice → Nat → TensorMem → TensorMem
  | [], _, mem => mem
  | slice :: slices, offset, mem =>
    let size := slice.rowSize type
    let aux := (List.range rows.nrows).flatMap fun r => (data.drop (r * rowSize + offset)).take size
    scatterRows id type rows rowSize data slices (offset + size)
      (mem.set (id slice.dev) (rows.head * size) aux)

/-- `read_kv_cache_data_split`. The devices of an MLA model have copies. -/
def readKvCacheDataSplit (shape : KvShape) (l : Layer) (t : CacheTensor)
    (splits : List (Option GgmlTensor)) (id : Nat → TensorId) (rows : RowRange) (rowSize : Nat)
    (data : List UInt8) (mem : TensorMem) : TensorMem :=
  if shape.isMla then
    (devSlices splits fun _ slice => slice.ne0).foldl
      (fun mem slice => mem.set (id slice.dev) (rows.head * rowSize) data) mem
  else
    match splitPlan l t splits with
    | none => mem
    | some plan => scatterRows id t.type rows rowSize data plan.slices 0 mem

/-- The rows of a tensor, as one block. -/
def rowsItem (shape : KvShape) (part : Part) (il : Nat) (l : Layer) (t : CacheTensor)
    (rows : RowRange) (rowSize : Nat) : Item TensorMem where
  width := rows.nrows * rowSize
  verdict := fun _ =>
    let ok :=
      match t.extra with
      | some splits => splitFits shape l t splits rows rowSize
      | none => t.toGgmlTensor.inBounds (rows.head * rowSize) (rows.nrows * rowSize)
    if ok then .pass else .abort
  effect := fun data mem =>
    match t.extra with
    | some splits =>
      readKvCacheDataSplit shape l t splits (fun dev => ⟨part, il, some dev⟩) rows rowSize data mem
    | none => mem.set ⟨part, il, none⟩ (rows.head * rowSize) data

/-! ### The format of the rows -/

/-- What the format of the rows depends on: the tensors, the cache with the slot, the sequence
and the count of cells. -/
structure ReadEnv where
  shape : KvShape
  cache : KvCache
  seqId : Int
  cellCount : Nat
  needKv : Bool

/-- The slot. -/
def ReadEnv.slot (env : ReadEnv) : RowRange := ⟨env.cache.head, env.cellCount⟩

/-- The keys of a layer. -/
def readK (env : ReadEnv) (il : Nat) (l : Layer) : List (Item TensorMem) :=
  match if env.needKv then l.k else none with
  | none => [.expectInt 4 (-1), .expect 8 0]
  | some t =>
    let row := kSizeRow env.shape l t
    [.expectInt 4 t.type.id, .expect 8 row] ++
      if 0 < env.cellCount then [rowsItem env.shape .k il l t env.slot row] else []

/-- The values of a layer, one row for each cell. -/
def readV (env : ReadEnv) (il : Nat) (l : Layer) : List (Item TensorMem) :=
  match if env.needKv then l.v else none with
  | none => [.expectInt 4 (-1), .expect 8 0]
  | some t =>
    let row := t.type.rowSize l.vRowEmbd
    [.expectInt 4 t.type.id, .expect 8 row] ++
      if 0 < env.cellCount then [rowsItem env.shape .v il l t env.slot row] else []

/-- One row of a transposed value cache: an element of the value of each cell. The row is found
with `uint32_t`, its bytes with `size_t`. -/
def transRowItem (env : ReadEnv) (il : Nat) (t : CacheTensor) (j : Nat) : Item TensorMem where
  width := env.cellCount * t.type.typeSize
  verdict := fun _ =>
    let offset := (env.cache.head + j * env.cache.size) % 2 ^ 32 * t.type.typeSize
    if t.toGgmlTensor.inBounds offset (env.cellCount * t.type.typeSize) then .pass else .abort
  effect := fun data mem =>
    mem.set ⟨.v, il, none⟩ ((env.cache.head + j * env.cache.size) % 2 ^ 32 * t.type.typeSize) data

/-- The values of a layer, one row for each element of a value. A split tensor is given up on:
"Transposed V cache is not sypported with split mode 'graph'". -/
def readVTrans (env : ReadEnv) (il : Nat) (l : Layer) : List (Item TensorMem) :=
  match if env.needKv then l.v else none with
  | none => [.expectInt 4 (-1), .expect 4 0, .expect 4 0]
  | some t =>
    [.expectInt 4 t.type.id, .expect 4 t.type.typeSize, .expect 4 l.vRowEmbd] ++
      if 0 < env.cellCount then
        if t.extra.isSome then [.stop .throw]
        else (List.range l.vRowEmbd).map (transRowItem env il t)
      else []

/-- The recurrent state of a layer: the row of the sequence. -/
def readS (env : ReadEnv) (il : Nat) (l : Layer) : List (Item TensorMem) :=
  match l.s with
  | none => [.expectInt 4 (-1), .expect 8 0, .expect 4 0]
  | some t =>
    let row := t.type.rowSize t.ne0
    let rows := expectedStateRows env.cache env.seqId
    [.expectInt 4 t.type.id, .expect 8 row, .expect 4 rows] ++
      if 0 < rows then [rowsItem env.shape .s il l t ⟨env.seqId.toNat, rows⟩ row] else []

/-- The formats of the layers, one after the other. -/
def layerItems (shape : KvShape) (f : Nat → Layer → List (Item TensorMem)) :
    List (Item TensorMem) :=
  shape.layers.zipIdx.flatMap fun (l, il) => f il l

/-- `n_layer`, and the three tests behind it. -/
def headerItem (env : ReadEnv) (vState : Nat) : Item TensorMem :=
  .check 4 fun bs => decide (decode bs = env.shape.layers.length) &&
    decide (env.cellCount ≤ env.cache.size) && (env.shape.vTrans == decide (vState = 1))

/-- The presence of recurrent state. -/
def qnextItem (env : ReadEnv) : Item TensorMem :=
  .check 4 fun bs => decide (decode bs ≠ 0) == env.cache.hasQnextState

/-- The format of the values. With no value cache there is none to read them to: the first access
is out of bounds. -/
def valueItems (env : ReadEnv) (vState : Nat) : List (Item TensorMem) :=
  if vState ≤ 1 then
    (if env.shape.vEmpty ∧ env.shape.layers ≠ [] then [.stop .abort] else []) ++
      layerItems env.shape (if vState = 0 then readV env else readVTrans env)
  else []

/-- The format of the rows, from `n_layer` on. -/
def dataItems (env : ReadEnv) (vState : Nat) : List (Item TensorMem) :=
  [headerItem env vState] ++ layerItems env.shape (readK env) ++ valueItems env vState ++
    [qnextItem env] ++ if env.cache.hasQnextState then layerItems env.shape (readS env) else []

/-- `read_kv_cache_data`. -/
def readKvCacheData (env : ReadEnv) (buf : List UInt8) (mem : TensorMem) : Outcome TensorMem :=
  if buf.length < 4 then .thrown mem
  else Wire.run (dataItems env (decode (buf.take 4))) (buf.drop 4) mem

/-! ### The cells -/

/-- A position, and a number of sequences that has to be zero. -/
def cellItems (cellCount : Nat) : List (Item (List Int)) :=
  (List.range cellCount).flatMap fun _ =>
    [⟨4, fun _ => .pass, fun bs pos => pos ++ [decodeInt bs]⟩, .expect 4 0]

/-! ### The whole read -/

/-- A context after a read, with its tensors. -/
structure ReadState where
  ctx : KvContext
  mem : TensorMem

/-- The cleanup of a read that is refused. -/
def cleanup (d : Int) (r : ReadState) : ReadState :=
  { r with ctx := (kvSeqRm r.ctx d (-1) (-1)).2 }

/-- `read_kv_cache` of one sequence. With 2^31 cells or more the batch has no memory. -/
def readKvCacheBytes (shape : KvShape) (r : ReadState) (d : Int) (partialOnly : Bool)
    (buf : List UInt8) : Outcome ReadState :=
  if buf.length < 4 then .thrown r
  else
    let cellCount := decode (buf.take 4)
    if 2 ^ 31 ≤ cellCount then .aborted
    else
      let dropped := { r with ctx := { r.ctx with kvSelf := dropSeq r.ctx.kvSelf d } }
      match Wire.run (cellItems cellCount) (buf.drop 4) [] with
      | .thrown _ => .thrown dropped
      | .refused _ => .refused (cleanup d dropped)
      | .aborted => .aborted
      | .done rest pos =>
        match readKvCacheMeta r.ctx.kvSelf d pos with
        | none => .aborted
        | some (false, c) => .refused (cleanup d { r with ctx := { r.ctx with kvSelf := c } })
        | some (true, c) =>
          let ctx := { r.ctx with kvSelf := c }
          match readKvCacheData ⟨shape, c, d, cellCount, !partialOnly⟩ rest r.mem with
          | .thrown mem => .thrown ⟨ctx, mem⟩
          | .refused mem => .refused (cleanup d ⟨ctx, mem⟩)
          | .aborted => .aborted
          | .done rest mem => .done rest ⟨ctx, mem⟩

/-- `llama_state_seq_set_data`: how many bytes were read, and the context; `none` when an
assertion fails. -/
def llamaStateSeqSetData (st : StateCtx) (buf : List UInt8) (d : Int) (partialOnly : Bool) :
    Option (Nat × ReadState) :=
  if st.ctx.swaKvActive then some (0, ⟨st.ctx, st.mem⟩)
  else
    match readKvCacheBytes st.shape ⟨st.ctx, st.mem⟩ d partialOnly buf with
    | .done rest r => some (buf.length - rest.length, r)
    | .refused r => some (0, r)
    | .thrown r => some (0, r)
    | .aborted => none

end PxqLlama.Kv

/-!
## A sequence in a file

`llama_state_seq_save_file` writes a header and the tokens, and then walks over the cache as
`llama_state_seq_get_data` does. `llama_data_write_file` is a third reading of the walk, with its
own idea of a split tensor. `llama_state_seq_load_file` reads what is behind the tokens as
`llama_state_seq_set_data` reads its buffer. Neither asks for the sliding cache.

Files can be written and read: an end of the file is the only error.
-/

namespace PxqLlama.Kv

open Rows Wire

/-! ### The file that is written -/

/-- `llama_data_write_file::get_tensor_data_split`: for a recurrent layer too it looks for the
weights of keys and values. -/
def getTensorDataSplitFile (shape : KvShape) (mem : Nat → Nat → UInt8) (t : CacheTensor)
    (splits : List (Option GgmlTensor)) (offset size il : Nat) :
    Except WriteFailure (List UInt8) :=
  match shape.layers[il]? with
  | none => .error .aborted
  | some l =>
    if shape.isMla then
      match (devSlices splits fun _ slice => slice.ne0).head? with
      | none => .error .aborted
      | some slice =>
        if slice.tensor.inBounds offset size then .ok (Rows.slice (mem slice.dev) offset size)
        else .error .aborted
    else
      match splitPlan { l with recurrent := false } t splits with
      | none => .error .aborted
      | some plan => gatherRows mem t.type plan offset size

/-- The bytes that are written to a file. -/
def WriteOp.fileBytes (shape : KvShape) (mem : TensorMem) :
    WriteOp → Except WriteFailure (List UInt8)
  | .write bytes => .ok bytes
  | .tensorData part t offset size il =>
    match t.extra with
    | some splits =>
      getTensorDataSplitFile shape (fun dev => mem ⟨part, il, some dev⟩) t splits offset size il
    | none =>
      if t.toGgmlTensor.inBounds offset size then
        .ok (Rows.slice (mem ⟨part, il, none⟩) offset size)
      else .error .aborted

/-- The bytes of one call after the other. -/
def collect (f : WriteOp → Except WriteFailure (List UInt8)) :
    List WriteOp → Except WriteFailure (List UInt8)
  | [] => .ok []
  | op :: ops =>
    match f op with
    | .error e => .error e
    | .ok bytes =>
      match collect f ops with
      | .error e => .error e
      | .ok rest => .ok (bytes ++ rest)

/-- `LLAMA_STATE_SEQ_MAGIC`. -/
def llamaStateSeqMagic : Nat := 0x67677371

/-- `LLAMA_STATE_SEQ_VERSION`. -/
def llamaStateSeqVersion : Nat := 3

/-- The header of a file, and the tokens. -/
def fileHeader (tokens : List Int) : List UInt8 :=
  encode 4 llamaStateSeqMagic ++ encode 4 llamaStateSeqVersion ++ encode 4 tokens.length ++
    tokens.flatMap (encodeInt 4)

/-- `llama_state_seq_save_file`: the file, which is empty when it refuses; `none` when an
assertion fails. -/
def llamaStateSeqSaveFile (st : StateCtx) (s : Int) (tokens : List Int) : Option (List UInt8) :=
  match collect (WriteOp.fileBytes st.shape st.mem)
      (writeKvCacheOps st.shape st.ctx.kvSelf s false) with
  | .ok bytes => some (fileHeader tokens ++ bytes)
  | .error .thrown => some []
  | .error .aborted => none

/-! ### The file that is read -/

/-- What a load leaves: how many bytes were read, the tokens, and the context. -/
structure LoadResult where
  nread : Nat
  tokens : List Int
  state : ReadState

/-- The first values of a list of words. -/
def readTokens (count : Nat) (buf : List UInt8) : List Int :=
  (List.range count).map fun i => decodeInt (chunk buf 4 i)

/-- `llama_state_seq_load_file`; `none` when an assertion fails. -/
def llamaStateSeqLoadFile (st : StateCtx) (file : List UInt8) (d : Int) (capacity : Nat) :
    Option LoadResult :=
  let st₀ : ReadState := ⟨st.ctx, st.mem⟩
  if file.length < 8 then some ⟨0, [], st₀⟩
  else if decode (file.take 4) ≠ llamaStateSeqMagic ∨
      decode ((file.drop 4).take 4) ≠ llamaStateSeqVersion then some ⟨0, [], st₀⟩
  else if file.length < 12 then some ⟨0, [], st₀⟩
  else
    let count := decode ((file.drop 8).take 4)
    if capacity < count then some ⟨0, [], st₀⟩
    else if file.length < 12 + 4 * count then some ⟨0, [], st₀⟩
    else
      let tokens := readTokens count (file.drop 12)
      match readKvCacheBytes st.shape st₀ d false (file.drop (12 + 4 * count)) with
      | .done rest r =>
        let nread := file.length - (12 + 4 * count) - rest.length
        if nread = 0 then some ⟨0, tokens, r⟩
        -- the two assertions about `file.tell()`
        else if nread ≤ file.length - (12 + 4 * count) ∧
            nread + 12 + 4 * count = file.length - rest.length then
          some ⟨file.length - rest.length, tokens, r⟩
        else none
      | .refused r => some ⟨0, tokens, r⟩
      | .thrown r => some ⟨0, tokens, r⟩
      | .aborted => none

end PxqLlama.Kv
