import PxqLlama.Kv.Edit
import PxqLlama.Kv.SeqState
import PxqLlama.Kv.StateCopy
import PxqLlama.Lib.Rows

/-!
# `Kv.SpecModes`: the three checkpoints of speculative decoding

`llama_spec_ckpt_*` save a sequence before a draft is decoded and roll it back when drafts are
rejected. In per-step mode the kernels of the decode write the recurrent state after every token
to snapshot tensors, and `llama_set_inputs` records which sequences and how many steps it was. In
GPU fallback mode there is one shadow of all cells and all states, and in CPU mode a blob for each
sequence (`Kv.SeqState`).

The values of the state tensors are modelled by what computed them: a float is the element `elem`
of the state row of a sequence after a step of an ubatch (`Computed`).
-/

namespace PxqLlama.Kv

/-! ### The sequences of an ubatch -/

/-- The lambda `tok_seq`. -/
def tokSeq (t : Token) : Int := t.seqId.headD 0

/-- `pxa_seq_decomp`, without what only the graph reads; `pxaDecomposeSeqs_ofUBatch` connects it to
the whole struct. -/
structure SeqDecomp where
  ok : Bool := false
  uniformTok : Bool := false
  nSeqTokens : Nat := 0
  seqs : List Int := []

/-- The loop over the tokens: the runs so far, the newest first, each with its sequence and its
number of tokens, and the position of the token before. `none` when the batch is rejected. -/
def decompLoop : List Token → List (Int × Nat) → Int → Option (List (Int × Nat))
  | [], runs, _ => some runs.reverse
  | t :: ts, [], _ => decompLoop ts [(tokSeq t, 1)] t.pos
  | t :: ts, (s, n) :: runs, last =>
    if tokSeq t = s then
      -- the run goes on, at a later position
      if t.pos ≤ last then none else decompLoop ts ((s, n + 1) :: runs) t.pos
    else if tokSeq t ∈ runs.map Prod.fst then none
    else decompLoop ts ((tokSeq t, 1) :: (s, n) :: runs) t.pos

/-- `pxa_decompose_seqs` on the tokens of an ubatch; `Kv.SeqArrays` has it with all arrays. -/
def pxaDecomposeSeqs (b : UBatch) : SeqDecomp :=
  if b = [] ∨ b.any (fun t => t.seqId.length != 1) then {}
  else
    match decompLoop b [] 0 with
    | none => {}
    | some runs =>
      let first := (runs.map Prod.snd).headD 0
      let uniform := runs.all fun r => r.2 = first
      { ok := true
        uniformTok := uniform
        nSeqTokens := if uniform then first else 0
        seqs := runs.map Prod.fst }

/-! ### The state -/

/-- What a float of a recurrent state is: the element `elem` of the state row of `seq` after step
`step` of the `ubatch`-th ubatch. -/
structure Computed where
  ubatch : Nat
  seq : Int
  step : Nat
  elem : Nat
  deriving DecidableEq, Repr

/-- The tensors of one kind, one for each slice. -/
abbrev Floats := Nat → Nat → Option Computed

/-- The states of one recurrent layer, or of a layer on one device. A row of `s_l` is the
convolution state with the delta-net state behind it. -/
structure StateSlice where
  convDim : Nat
  ssmDim : Nat

def StateSlice.width (sl : StateSlice) : Nat := sl.convDim + sl.ssmDim

inductive SpecMode
  | none
  | perStep
  | gpuFallback
  | cpu
  | auto
  deriving DecidableEq, Repr

/-- A state of the context with the fields of `kv.ckpt`. -/
structure SpecState where
  base : CkptState
  slices : List StateSlice
  /-- `ssm_state_dim`, `conv_dim` and `d_conv` are such that there are snapshots. -/
  dimsOk : Bool
  sL : Floats
  /-- The row of recurrent state in each buffer of `cpu_state_by_seq`. -/
  cpuRow : Int → Nat → List (Option Computed)
  /-- `shadow_conv_only`, when the shadows are allocated. -/
  shadowConvOnly : Option Bool
  /-- The shadow of the cells and the states, when one is saved. -/
  shadow : Option (KvSnapshot × Floats)
  savePerStepSsm : Bool
  /-- `per_step_ssm` is not empty. -/
  perStepTensors : Bool
  perStepMaxAllocated : Int
  perStepSsm : Floats
  perStepConv : Floats
  lastCaptureSeqs : List Int
  lastCaptureNSeqs : Nat
  lastCaptureSteps : Nat
  selectedSpecMode : SpecMode
  fixedSpecMode : SpecMode
  fixedMaxTokens : Int
  /-- The ubatches that were executed, the newest first, and whether the kernels were armed
  (`save_per_step_ssm`). -/
  executed : List (UBatch × Bool)

def SpecState.kvSelf (w : SpecState) : KvCache := w.base.st.ctx.kvSelf

/-! ### Preparing -/

/-- Which allocations succeed. -/
structure SpecAlloc where
  hasBuffers : Bool
  perStep : Bool
  convShadows : Bool
  fullShadows : Bool

def SpecAlloc.shadows (alloc : SpecAlloc) : Bool → Bool
  | true => alloc.convShadows
  | false => alloc.fullShadows

/-- `checkpoint_alloc_shadows`. -/
def checkpointAllocShadows (alloc : SpecAlloc) (w : SpecState) (convOnly : Bool) :
    Bool × SpecState :=
  match w.shadowConvOnly with
  | some allocated => (allocated == convOnly, w)
  | none =>
    if alloc.shadows convOnly then
      (true, { w with shadowConvOnly := some convOnly })
    else (false, w)

/-- `per_step_alloc`. New tensors are cleared. -/
def perStepAlloc (alloc : SpecAlloc) (w : SpecState) (maxTokens : Int) : Bool × SpecState :=
  if maxTokens ≤ w.perStepMaxAllocated then (true, w)
  else
    let ok := w.dimsOk && alloc.perStep
    (ok, { w with
      perStepTensors := true
      perStepMaxAllocated := if ok then maxTokens else 0
      perStepSsm := fun _ _ => none
      perStepConv := fun _ _ => none })

/-- `spec_ckpt_try_per_step`. -/
def specCkptTryPerStep (alloc : SpecAlloc) (w : SpecState) (maxTokens : Int) :
    Bool × SpecState :=
  if ¬ alloc.hasBuffers then (false, w)
  else
    let (ok, w) := perStepAlloc alloc w maxTokens
    if ¬ ok then (false, w) else checkpointAllocShadows alloc w true

/-- The mode is chosen for good. -/
def SpecState.fix (w : SpecState) (resolved : SpecMode) (maxTokens : Int) :
    SpecMode × SpecState :=
  (resolved, { w with
    fixedSpecMode := resolved
    fixedMaxTokens := if resolved = .perStep then maxTokens else 0
    selectedSpecMode := resolved })

/-- The part of `llama_spec_ckpt_init` from "gpu-fallback" on. -/
def specCkptInitShadows (alloc : SpecAlloc) (w : SpecState) (mode : SpecMode) (maxTokens : Int) :
    SpecMode × SpecState :=
  let (ok, w) := checkpointAllocShadows alloc w false
  if ok then w.fix .gpuFallback maxTokens
  else if mode = .gpuFallback then (.none, w)
  else w.fix .cpu maxTokens

/-- The part of `llama_spec_ckpt_init` that chooses the mode. -/
def specCkptResolve (alloc : SpecAlloc) (w : SpecState) (mode : SpecMode) (maxTokens : Int) :
    SpecMode × SpecState :=
  match mode with
  | .perStep | .auto =>
    let (ok, w) := specCkptTryPerStep alloc w (maxTokens * max 1 w.kvSelf.qnextSlots)
    if ok then w.fix .perStep maxTokens
    else if mode = .perStep then (.none, w)
    else specCkptInitShadows alloc w mode maxTokens
  | .gpuFallback => specCkptInitShadows alloc w mode maxTokens
  | _ => w.fix .cpu maxTokens

/-- `llama_spec_ckpt_init`: the mode of the checkpoints. -/
def llamaSpecCkptInit (alloc : SpecAlloc) (w : SpecState) (mode : SpecMode) (maxTokens : Int) :
    SpecMode × SpecState :=
  let w := { w with savePerStepSsm := false, selectedSpecMode := .none }
  if ¬ w.kvSelf.hasQnextState then (.none, w)
  else if w.fixedSpecMode ≠ .none then
    if w.fixedSpecMode = .perStep ∧ w.fixedMaxTokens < maxTokens then (.none, w)
    else (w.fixedSpecMode, { w with selectedSpecMode := w.fixedSpecMode })
  else specCkptResolve alloc w mode maxTokens

/-! ### Saving -/

/-- `llama_spec_ckpt_save`. -/
def specCkptSave (alloc : SpecAlloc) (w : SpecState) (s : Nat) : Bool × SpecState :=
  match w.selectedSpecMode with
  | .perStep => (true, { w with savePerStepSsm := true })
  | .gpuFallback =>
    -- `checkpoint_save`
    let (ok, w) := checkpointAllocShadows alloc w false
    if ok then
      let c := w.kvSelf
      (true, { w with shadow := some ({ cells := c.cells, head := c.head, used := c.used }, w.sL) })
    else (false, w)
  | .cpu =>
    let (ok, base) := llamaSpecCkptSave w.base s
    let row := fun k => match w.slices[k]? with
      | some sl => Rows.row (w.sL k) sl.width (w.kvSelf.cells s).src.toNat
      | none => []
    (ok, { w with base := base, cpuRow := Function.update w.cpuRow s row })
  | _ => (false, w)

/-! ### Decoding -/

/-- The state copy of an update: each row takes over the row of its source. -/
def copyStates (w : SpecState) : Floats := fun k o =>
  match w.slices[k]? with
  | some sl =>
    let r := o / sl.width
    if r < w.kvSelf.qnextSlots then
      w.sL k ((llamaSetSCopy w.kvSelf r).toNat * sl.width + o % sl.width)
    else w.sL k o
  | none => w.sL k o

/-- The ubatch fits the snapshot tensors, and its layout is that of the snapshots. -/
def SpecState.captures (w : SpecState) (b : UBatch) : Bool :=
  decide (1 < b.length) && decide ((b.length : Int) ≤ w.perStepMaxAllocated) &&
    (pxaDecomposeSeqs b).ok && (pxaDecomposeSeqs b).uniformTok

/-- The capture record of `llama_set_inputs`. -/
def SpecState.record (w : SpecState) (b : UBatch) : SpecState :=
  if w.savePerStepSsm then
    if w.captures b then
      { w with
        lastCaptureSeqs := (pxaDecomposeSeqs b).seqs
        lastCaptureNSeqs := (pxaDecomposeSeqs b).seqs.length
        lastCaptureSteps := (pxaDecomposeSeqs b).nSeqTokens }
    else { w with lastCaptureSeqs := [], lastCaptureNSeqs := 0, lastCaptureSteps := 0 }
  else w

/-- A snapshot tensor after `steps` steps were written, the step `t` of the `b`-th sequence to the
row `t * n + b`. -/
def writeSteps (width n steps : Nat) (value : Nat → Nat → Nat → Computed)
    (old : Nat → Option Computed) (o : Nat) : Option Computed :=
  let r := o / width
  if r < steps * n then some (value (r / n) (r % n) (o % width)) else old o

/-- The snapshots that the kernels of the `u`-th ubatch write. -/
def SpecState.snapshot (w : SpecState) (u : Nat) (d : SeqDecomp) : SpecState :=
  let value := fun off t b e =>
    { ubatch := u, seq := d.seqs.getD b 0, step := t, elem := off + e : Computed }
  { w with
    perStepConv := fun k => match w.slices[k]? with
      | some sl => writeSteps sl.convDim d.seqs.length d.nSeqTokens (value 0) (w.perStepConv k)
      | none => w.perStepConv k
    -- the state after the last step is in `s_l` itself
    perStepSsm := fun k => match w.slices[k]? with
      | some sl => writeSteps sl.ssmDim d.seqs.length (d.nSeqTokens - 1) (value sl.convDim)
          (w.perStepSsm k)
      | none => w.perStepSsm k }

/-- The states after an ubatch: the rows of its sequences are those after their last tokens. -/
def SpecState.advanceStates (w : SpecState) (u : Nat) (b : UBatch) : Floats := fun k o =>
  match w.slices[k]? with
  | some sl =>
    let r := o / sl.width
    let n := b.countP fun t => tokSeq t = r
    if 0 < n then some { ubatch := u, seq := r, step := n - 1, elem := o % sl.width }
    else w.sL k o
  | none => w.sL k o

/-- The graph of an ubatch: its inputs are set, and it is computed. -/
def SpecState.execute (w : SpecState) (b : UBatch) : SpecState :=
  let u := w.executed.length
  let armed := w.savePerStepSsm
  let w := w.record b
  let w := if armed && w.captures b then w.snapshot u (pxaDecomposeSeqs b) else w
  { w with sL := w.advanceStates u b, executed := (b, armed) :: w.executed }

/-- One ubatch of `llama_decode_internal`: whether it was executed, and the state. -/
def specDecodeUbatch (w : SpecState) (b : UBatch) : Option (Bool × SpecState) :=
  (rowsUpdate w.base.st).map fun (ret, st) =>
    let sL := if copyRuns w.base.st.ctx then copyStates w else w.sL
    let w := { w with base := { w.base with st := st }, sL := sL }
    if ret ≠ 0 then (false, w)
    else
      let placed := decide ((placeUbatch st.ctx b).1 = 0)
      let w := { w with base := { w.base with st := rowsPlace st b } }
      (placed, if placed then w.execute b else w)

/-- The ubatches of a decode, up to the first one that fails: whether all were executed. -/
def specDecode (w : SpecState) : List UBatch → Option (Bool × SpecState)
  | [] => some (true, w)
  | b :: bs =>
    match specDecodeUbatch w b with
    | none => none
    | some (ok, w) => if ok then specDecode w bs else some (false, w)

/-! ### Restoring -/

/-- `restore_recurrent_cache_tensors` of the row `s`, from the row `r` of the snapshots. -/
def restoreRow (sl : StateSlice) (sL ssm conv : Nat → Option Computed) (s r : Nat) :
    Nat → Option Computed :=
  let sL := Rows.blit sL (s * sl.width + sl.convDim) (Rows.slice ssm (r * sl.ssmDim) sl.ssmDim)
  Rows.blit sL (s * sl.width) (Rows.slice conv (r * sl.convDim) sl.convDim)

/-- The checks of `per_step_restore` for one sequence: the row of the snapshots that it reads, or
`none` when it refuses. -/
def perStepRow (w : SpecState) (step : Int) (s : Nat) : Option Nat :=
  if ¬ w.perStepTensors ∨ step < 0 then none
  else if ¬ w.kvSelf.qnextSeqIdInRange s then none
  else if w.lastCaptureNSeqs = 0 then none
  else if (w.lastCaptureSteps : Int) ≤ step + 1 then none
  else
    match w.lastCaptureSeqs.findIdx? fun r => r = (s : Int) with
    | none => none
    | some batchPos =>
      if w.dimsOk then some (step.toNat * w.lastCaptureNSeqs + batchPos) else none

/-- `per_step_restore` of one sequence. -/
def perStepRestore (w : SpecState) (step : Int) (s : Nat) : Bool × SpecState :=
  match perStepRow w step s with
  | none => (false, w)
  | some r =>
    (true, { w with
      sL := fun k => match w.slices[k]? with
        | some sl => restoreRow sl (w.sL k) (w.perStepSsm k) (w.perStepConv k) s r
        | none => w.sL k })

/-- `kv.cells[seq_id].pos = accepted_pos`, in a recurrent cache. -/
def stampPos (c : KvCache) (s : Nat) (pos : Int) : KvCache :=
  if c.recurrent ∧ s < c.size then
    { c with cells := Function.update c.cells s { c.cells s with pos := pos } }
  else c

/-- The cells of `kv_self` are replaced. -/
def SpecState.setSelf (w : SpecState) (c : KvCache) : SpecState :=
  { w with base := { w.base with
    st := { w.base.st with ctx := { w.base.st.ctx with kvSelf := c } } } }

/-- `checkpoint_restore`. -/
def shadowRestore (w : SpecState) : SpecState :=
  match w.shadow with
  | none => w
  | some (snap, sL) =>
    { w.setSelf { w.kvSelf with cells := snap.cells, head := snap.head, used := snap.used } with
      sL := sL }

/-- The CPU blob brings back the row of recurrent state when it is accepted. -/
def cpuRestoreStates (vReads : Bool) (w : SpecState) (s : Nat) : Floats :=
  match w.base.cpuStateBySeq s with
  | none => w.sL
  | some buf =>
    match seqSetData vReads w.base.st buf s true with
    | some (true, _) => fun k => match w.slices[k]? with
      | some sl =>
        if buf.stateRows = 1 then
          Rows.blit (w.sL k) (s * sl.width) ((w.cpuRow s k).take sl.width)
        else w.sL k
      | none => w.sL k
    | _ => w.sL

/-- `llama_spec_ckpt_restore`: what it returns, and the state; `none` when an assertion fails. -/
def specCkptRestore (vReads : Bool) (w : SpecState) (s : Nat) (nPast acceptedStep : Int) :
    Option (Bool × SpecState) :=
  match w.selectedSpecMode with
  | .perStep =>
    let (ok, w) := perStepRestore w acceptedStep s
    if ¬ ok then some (false, w)
    else
      let acceptedPos := nPast + acceptedStep
      let c := stampPos w.kvSelf s acceptedPos
      some (true, w.setSelf (llamaKvCacheSeqRm c s (acceptedPos + 1) (-1)).2)
  | .gpuFallback =>
    let w := shadowRestore w
    some (false, w.setSelf (llamaKvCacheSeqRm w.kvSelf s nPast (-1)).2)
  | .cpu =>
    (llamaSpecCkptRestore vReads w.base s nPast).map fun base =>
      (false, { w with base := base, sL := cpuRestoreStates vReads w s })
  | _ => some (false, w)

/-- `llama_spec_ckpt_discard`. -/
def specCkptDiscard (w : SpecState) : SpecState :=
  match w.selectedSpecMode with
  | .perStep =>
    { w with savePerStepSsm := false, shadow := none, selectedSpecMode := .none }
  | .gpuFallback => { w with shadow := none, selectedSpecMode := .none }
  | _ => { w with selectedSpecMode := .none }

/-! ### Runs -/

/-- One call. -/
inductive SpecOp
  | init (alloc : SpecAlloc) (mode : SpecMode) (maxTokens : Int)
  | save (alloc : SpecAlloc) (s : Nat)
  | decode (bs : List UBatch)
  | restore (s : Nat) (nPast acceptedStep : Int)
  | discard

/-- The state after a call; `none` when the program aborts. -/
def specStep (vReads : Bool) (w : SpecState) : SpecOp → Option SpecState
  | .init alloc mode maxTokens => some (llamaSpecCkptInit alloc w mode maxTokens).2
  | .save alloc s => some (specCkptSave alloc w s).2
  | .decode bs => (specDecode w bs).map Prod.snd
  | .restore s nPast acceptedStep =>
    (specCkptRestore vReads w s nPast acceptedStep).map Prod.snd
  | .discard => some (specCkptDiscard w)

/-- The state after a run of calls. -/
def specRun (vReads : Bool) (w : SpecState) : List SpecOp → Option SpecState
  | [] => some w
  | op :: ops => (specStep vReads w op).bind fun w => specRun vReads w ops

end PxqLlama.Kv
