import PxqLlama.Kv.KeyRows
import PxqLlama.Lib.Ranges

/-!
# `Kv.SeqState`: saving and restoring a sequence

`llama_state_seq_get_data` writes the cells of a sequence range by range: first the position of
each, then the rows of each. `llama_state_seq_set_data` drops the destination sequence, places
the positions as one ubatch and writes the rows to the slot. With
`LLAMA_STATE_SEQ_FLAGS_PARTIAL_ONLY` the blob has no key and value rows, and the slot keeps
those that it has.

A key row is the position that it is rotated to, as in `Kv.KeyRows`. The blob has no
`delta`: the writer takes the rows as they are, and the reader leaves the `delta` of the slot
as it is.
-/

namespace PxqLlama.Kv

/-! ### The writer -/

/-- `write_kv_cache` writes this cell. -/
def KvCache.writesCell (c : KvCache) (s : Int) (i : Nat) : Bool :=
  (decide (s = -1) && !(c.cells i).isEmpty) || (c.cells i).hasSeqId s

/-- `cell_ranges`. -/
def cellRanges (c : KvCache) (s : Int) : List (Nat × Nat) :=
  Ranges.ofTest (c.writesCell s) c.size

/-- The cells of the ranges, in the order in which they are written. -/
def savedCells (c : KvCache) (s : Int) : List Nat := Ranges.places (cellRanges c s)

/-- What is written of a sequence: the positions of its cells, the position that the key row of
each is rotated to, and `s_rows`, the rows of recurrent state. -/
structure SeqBlob where
  pos : List Int
  keys : Option (List Int)
  stateRows : Nat
  deriving DecidableEq

/-- `s_rows` of the writer. -/
def writtenStateRows (c : KvCache) (s : Int) : Nat :=
  if c.qnextSeqIdInRange s ∧ c.seqIdFits s then
    if c.qnextSeqIdInRange (c.cells s.toNat).src then 1 else 0
  else 0

/-- `write_kv_cache` of one sequence. -/
def writeKvCache (st : RowsState) (s : Int) (partialOnly : Bool) : SeqBlob where
  pos := (savedCells st.ctx.kvSelf s).map fun i => (st.ctx.kvSelf.cells i).pos
  keys := if partialOnly then none else some ((savedCells st.ctx.kvSelf s).map st.rows.self)
  stateRows := writtenStateRows st.ctx.kvSelf s

/-- `llama_state_seq_get_data`; `none` when it is refused. -/
def seqGetData (st : RowsState) (s : Int) (partialOnly : Bool) : Option SeqBlob :=
  if st.ctx.swaKvActive then none else some (writeKvCache st s partialOnly)

/-! ### The reader -/

/-- The cache without a sequence. -/
def dropSeq (c : KvCache) (d : Int) : KvCache := (llamaKvCacheSeqRm c d (-1) (-1)).2

/-- The batch of `read_kv_cache_meta`. -/
def restoreBatch (d : Int) (pos : List Int) : UBatch := pos.map fun p => ⟨p, [d]⟩

/-- The end of `read_kv_cache_meta`: the positions are placed. It asserts that the first and the
last cell of the slot hold their positions and the sequence. -/
def placeRestored (c : KvCache) (d : Int) (pos : List Int) : Option (Bool × KvCache) :=
  let (found, c) := llamaKvCacheFindSlot c (restoreBatch d pos)
  if found then
    let first := c.cells c.head
    let last := c.cells (c.head + pos.length - 1)
    if c.head + pos.length ≤ c.size ∧ pos.head? = some first.pos ∧ pos.getLast? = some last.pos ∧
        first.hasSeqId d ∧ last.hasSeqId d then
      some (true, c)
    else none
  else some (false, c)

/-- `read_kv_cache_meta` of one sequence: whether it succeeded, and the cache; `none` when an
assertion fails. -/
def readKvCacheMeta (c : KvCache) (d : Int) (pos : List Int) : Option (Bool × KvCache) :=
  placeRestored (dropSeq c d) d pos

/-- `s_rows` of the reader. -/
def expectedStateRows (c : KvCache) (d : Int) : Nat := if c.qnextSeqIdInRange d then 1 else 0

/-- The rows with the given keys in the cells from `head` on. -/
def loadRows (rows : Nat → Int) (head : Nat) (keys : List Int) (i : Nat) : Int :=
  if head ≤ i then keys[i - head]?.getD (rows i) else rows i

/-- The reader gets past the key types: the blob was written with the same flags. `vReads` says
whether the value cache is one that reads back what it writes as `v_state`. -/
def keysAccepted (vReads : Bool) (blob : SeqBlob) (partialOnly : Bool) : Bool :=
  vReads && blob.keys.isSome != partialOnly

/-- The key rows after `read_kv_cache_data`. -/
def loadedRows (vReads : Bool) (rows : Nat → Int) (head : Nat) (blob : SeqBlob)
    (partialOnly : Bool) : Nat → Int :=
  if keysAccepted vReads blob partialOnly then
    match blob.keys with
    | some keys => loadRows rows head keys
    | none => rows
  else rows

/-- The blob is accepted: `read_kv_cache_data` returns true. -/
def blobAccepted (vReads : Bool) (c : KvCache) (blob : SeqBlob) (d : Int) (partialOnly : Bool) :
    Bool :=
  keysAccepted vReads blob partialOnly && decide (blob.stateRows = expectedStateRows c d)

/-- `read_kv_cache`: whether the blob was restored, and the state; `none` when an assertion
fails. -/
def readKvCache (vReads : Bool) (st : RowsState) (blob : SeqBlob) (d : Int) (partialOnly : Bool) :
    Option (Bool × RowsState) :=
  (readKvCacheMeta st.ctx.kvSelf d blob.pos).map fun (placed, c) =>
    let ctx := { st.ctx with kvSelf := c }
    if placed then
      let rows := { st.rows with
        self := loadedRows vReads st.rows.self c.head blob partialOnly }
      if blobAccepted vReads c blob d partialOnly then (true, { ctx := ctx, rows := rows })
      else (false, { ctx := (kvSeqRm ctx d (-1) (-1)).2, rows := rows })
    else (false, { ctx := (kvSeqRm ctx d (-1) (-1)).2, rows := st.rows })

/-- `llama_state_seq_set_data`. -/
def seqSetData (vReads : Bool) (st : RowsState) (blob : SeqBlob) (d : Int) (partialOnly : Bool) :
    Option (Bool × RowsState) :=
  if st.ctx.swaKvActive then some (false, st) else readKvCache vReads st blob d partialOnly

/-! ### Runs -/

/-- A state with the blobs that were written. -/
structure SavesState where
  st : RowsState
  blobs : List SeqBlob

/-- One call. A restore reads one of the blobs. -/
inductive SaveOp
  | call (op : KvOp)
  | getData (s : Int) (partialOnly : Bool)
  | setData (k : Nat) (d : Int) (partialOnly : Bool)

/-- The state after a call; `none` when the program aborts. -/
def savesStep (vReads : Bool) (w : SavesState) : SaveOp → Option SavesState
  | .call op => (rowsStep w.st op).map fun st => { w with st := st }
  | .getData s partialOnly =>
    some { w with blobs := w.blobs ++ (seqGetData w.st s partialOnly).toList }
  | .setData k d partialOnly =>
    match w.blobs[k]? with
    | none => some w
    | some blob => (seqSetData vReads w.st blob d partialOnly).map fun r => { w with st := r.2 }

/-- The state after a run of calls. -/
def savesRun (vReads : Bool) (w : SavesState) : List SaveOp → Option SavesState
  | [] => some w
  | op :: ops => (savesStep vReads w op).bind fun w => savesRun vReads w ops

/-- A fresh context whose keys are rotated and can be shifted: of a model with attention only, or
of a hybrid one, which has no sliding cache. -/
structure SavesFresh (slots : Nat) (ctx : KvContext) : Prop where
  self : ∃ hybrid size, ctx.kvSelf = llamaKvCacheInit false hybrid slots size
  swa : ∃ size, ctx.kvSwa = llamaKvCacheInit false false 0 size
  active : ctx.swaKvActive = true → slots = 0
  rope : ctx.rope = true
  canShift : ctx.canShift = true

/-- The call is about single sequences, requests no defragmentation, divides by one or more, and
copies no recurrent state. -/
def SaveOp.MovesNoRow (slots : Nat) : SaveOp → Prop
  | .call op => op.MovesNoRow ∧ (slots = 0 ∨ op.NoCopy)
  | .getData s _ => 0 ≤ s
  | .setData _ d _ => 0 ≤ d

/-!
## The checkpoint of a sequence on the CPU

Speculative decoding saves a sequence before it decodes draft tokens, and restores it when they
are rejected. In CPU mode the checkpoint is a partial blob (`LLAMA_STATE_SEQ_FLAGS_PARTIAL_ONLY`),
one for each sequence in `cpu_state_by_seq`: it has the positions of the cells and the recurrent
state, and no key and value rows.
-/

/-- A state with `ckpt.cpu_state_by_seq`. A buffer that is empty counts as none. -/
structure CkptState where
  st : RowsState
  cpuStateBySeq : Int → Option SeqBlob

/-- `llama_spec_ckpt_save` in CPU mode: whether something was written. -/
def llamaSpecCkptSave (w : CkptState) (s : Int) : Bool × CkptState :=
  let buf := seqGetData w.st s true
  (buf.isSome, { w with cpuStateBySeq := Function.update w.cpuStateBySeq s buf })

/-- The removal of `llama_kv_cache_seq_rm(kv, seq_id, n_past, -1)`, in `kv_self` only. -/
def trimSeq (st : RowsState) (s nPast : Int) : RowsState :=
  { st with ctx := { st.ctx with kvSelf := (llamaKvCacheSeqRm st.ctx.kvSelf s nPast (-1)).2 } }

/-- `llama_spec_ckpt_restore` in CPU mode; `none` when an assertion fails. It always returns
false. -/
def llamaSpecCkptRestore (vReads : Bool) (w : CkptState) (s nPast : Int) : Option CkptState :=
  match w.cpuStateBySeq s with
  | none => some { w with st := trimSeq w.st s nPast }
  | some buf =>
    (seqSetData vReads w.st buf s true).map fun r => { w with st := trimSeq r.2 s nPast }

/-- The placements of ubatches, one after the other. -/
def placeAll (st : RowsState) (bs : List UBatch) : RowsState := bs.foldl rowsPlace st

/-- A checkpoint of a sequence is saved, ubatches are placed, and the sequence is restored. -/
def ckptRun (vReads : Bool) (w : CkptState) (s : Int) (bs : List UBatch) (nPast : Int) :
    Option CkptState :=
  let w := (llamaSpecCkptSave w s).2
  llamaSpecCkptRestore vReads { w with st := placeAll w.st bs } s nPast

/-- A hybrid cache: it has recurrent states, and no sliding cache next to it. -/
structure HybridCache (st : RowsState) : Prop where
  recurrent : st.ctx.kvSelf.recurrent = false
  states : st.ctx.kvSelf.hasQnextState = true
  active : st.ctx.swaKvActive = false
  head : st.ctx.kvSelf.head ≤ st.ctx.kvSelf.size

end PxqLlama.Kv
