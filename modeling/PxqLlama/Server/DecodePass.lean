import PxqLlama.Server.BatchLoop
import PxqLlama.Server.SelfExtend

/-!
# `Server.DecodePass`: what a pass over a batch does to the slots and the cache

`llama_decode` splits a chunk into ubatches and places one after the other, so it can fail when the
first ones are placed already. `process_batch_tokens` then decodes the same chunk again, or it
unwinds the slots. Before each call `extend_context` moves the cells of slots with group attention,
and after a chunk was decoded the slots that it reaches are sampled: a rejected draft or a phrase
that is taken back shortens the token list, cells are removed from the cache, and with a checkpoint
that has to be replayed `restore_speculative_checkpoint` decodes once more.

Here the cache is the list of its cells in use in `kv_self`, each with its sequence and its
position, and the token list of a slot is its length: the prompts are text, and token `p` of the
list is at position `p`. What the decoder, the samplers and the checkpoints decide is a parameter
(`DecodeEnv`).
-/

namespace PxqLlama.Server

/-! ### Decoding -/

/-- How a call of `llama_decode` ends. -/
inductive DecodeResult
  /-- All tokens are placed. -/
  | ok
  /-- No room for an ubatch, after the ubatches that hold the first `placed` tokens. -/
  | full (placed : Nat)
  /-- Stopped by the user, after an ubatch. -/
  | cancelled (placed : Nat)
  /-- The batch is empty, or no outputs could be reserved. -/
  | failed (empty : Bool)
  deriving DecidableEq, Repr

def DecodeResult.ret : DecodeResult → Int
  | .ok => 0
  | .full _ => 1
  | .cancelled _ => -3
  | .failed empty => if empty then -1 else -2

/-- How many of `n` tokens are placed. -/
def DecodeResult.placed (n : Nat) : DecodeResult → Nat
  | .ok => n
  | .full placed => min placed (n - 1)
  | .cancelled placed => max 1 (min placed n)
  | .failed _ => 0

/-- A cell in use, or a token of a batch: its sequence, and its position there. -/
abbrev SeqPos := Nat × Nat

/-- `llama_kv_cache_seq_pos_max`. -/
def seqPosMax (cells : List SeqPos) (s : Nat) : Nat :=
  cells.foldl (fun m c => if c.1 = s then max m c.2 else m) 0

/-- `llama_kv_cache_seq_rm` from a position to the end. -/
def seqRmFrom (cells : List SeqPos) (s p0 : Nat) : List SeqPos :=
  cells.filter fun c => ¬ (c.1 = s ∧ p0 ≤ c.2)

/-! ### Group attention -/

/-- The group attention of a slot with `ga_n` other than 1. -/
structure SlotGroup extends Group where
  id : Nat
  gaI : Int := 0
  nPastSe : Int := 0
  deriving DecidableEq

/-- The slot with the cells of its sequence, as `extend_context` sees it. -/
def SlotGroup.slot (g : SlotGroup) (cells : List SeqPos) : GroupSlot where
  toGroup := g.toGroup
  nCells := 0
  nCells_le := by decide
  cells := (cells.filter fun c => c.1 = g.id).map fun c => ⟨c.2, 0⟩
  gaI := g.gaI
  nPastSe := g.nPastSe

/-- `extend_context` for one slot. While its window is not full, the tokens are only counted.
`none` when a width of zero is divided by. -/
def SlotGroup.extend (g : SlotGroup) (nTokens : Nat) (cells : List SeqPos) :
    Option (SlotGroup × List SeqPos) :=
  let s := g.slot cells
  if s.windowFull then
    (s.extendContext nTokens).map fun s =>
      ({ g with gaI := s.gaI, nPastSe := s.nPastSe },
        (cells.filter fun c => c.1 ≠ g.id) ++ s.cells.map fun c => (g.id, c.pos.toNat))
  else some ({ g with nPastSe := g.nPastSe + nTokens }, cells)

/-- `extend_context`: the slots one after the other, each with all tokens of the chunk. -/
def extendContext (nTokens : Nat) : List SlotGroup → List SeqPos →
    Option (List SlotGroup × List SeqPos)
  | [], cells => some ([], cells)
  | g :: groups, cells => do
    let (g, cells) ← g.extend nTokens cells
    let (groups, cells) ← extendContext nTokens groups cells
    return (g :: groups, cells)

/-! ### Slots -/

/-- `server_slot`, as far as a pass is about it. `size` is `cache_tokens.size()`, `drafting` says
that `i_batch_dft` is not empty, and `drafted` is the number of its drafts, which with the sampled
token before them are the last tokens of the list. -/
structure DecodeSlot where
  id : Nat
  processing : Bool
  loadPrompt : Bool
  size : Nat
  iBatch : Int
  drafting : Bool
  drafted : Nat := 0
  deriving DecidableEq, Repr

/-- `server_slot::is_processing`, and a slot whose prompt was just launched. -/
def DecodeSlot.isProcessing (slot : DecodeSlot) : Bool := slot.processing || slot.loadPrompt

/-- The slot is sampled after the chunk of `n` tokens from `i` on. -/
def DecodeSlot.reached (slot : DecodeSlot) (i n : Int) : Bool :=
  slot.processing && (slot.drafting || (decide (i ≤ slot.iBatch) && decide (slot.iBatch < i + n)))

/-- `spec_ckpt.n_past`: the position of the sampled token before the drafts. -/
def DecodeSlot.ckptPast (slot : DecodeSlot) : Nat := slot.size - (slot.drafted + 1)

/-- The token list without the rejected drafts. -/
def DecodeSlot.verified (slot : DecodeSlot) (accepted : Nat) : Nat :=
  if slot.drafting then slot.size - (slot.drafted - accepted) else slot.size

/-- What becomes of the cells of a slot whose drafts were verified. -/
inductive Rollback
  /-- No checkpoint, or none that is needed: `llama_kv_cache_seq_rm` behind the list. When the
  sliding cache has no complete window then, the call clears the sequence, and its result is not
  looked at. -/
  | trims (clears : Bool)
  /-- The checkpoint of a step: a restore that succeeds removes the cells behind the list, one that
  fails leaves them. -/
  | perStep (restored : Bool)
  /-- A checkpoint that is replayed: the restore removes the cells from `left` on, and the sampled
  token and the accepted drafts are decoded again. -/
  | replays (left : Option Nat) (result : DecodeResult)
  deriving DecidableEq, Repr

/-- A phrase that is taken back: the tokens that are kept, and whether the removal of the others
clears the sequence. -/
structure TakeBack where
  kept : Nat
  clears : Bool
  deriving DecidableEq, Repr

/-- What the decoder, the samplers and the checkpoints decide. For each call of `llama_decode` in
the loop: its result, and for each slot that is sampled after it how many drafts are accepted, what
becomes of the rejected ones, what is taken back, and whether the slot stops. -/
structure DecodeEnv where
  result : Nat → DecodeResult
  accepted : Nat → Nat → Nat := fun _ _ => 0
  rollback : Nat → Nat → Rollback := fun _ _ => .trims false
  takeBack : Nat → Nat → Option TakeBack := fun _ _ => none
  stops : Nat → Nat → Bool := fun _ _ => false
  kvUnified : Bool

/-! ### The pass over a batch -/

/-- The state of `process_batch_tokens`. `placed` records the tokens of the batch that were placed,
and `posted` the slots for which a result was sent. `crashed` says that `extend_context` divided by
zero. -/
structure DecodePass where
  calls : Nat := 0
  cells : List SeqPos
  placed : List Nat := []
  groups : List SlotGroup := []
  slots : List DecodeSlot
  posted : List Nat := []
  crashed : Bool := false

/-- Some drafts of the slot are rejected after the call. -/
def DecodeEnv.rejects (env : DecodeEnv) (call : Nat) (slot : DecodeSlot) : Bool :=
  decide (env.accepted call slot.id < slot.drafted)

/-- The token list of a slot after its drafts are verified. -/
def DecodeEnv.verified (env : DecodeEnv) (call : Nat) (slot : DecodeSlot) : Nat :=
  slot.verified (env.accepted call slot.id)

/-- A slot after it was sampled. -/
def DecodeEnv.sampleSlot (env : DecodeEnv) (call : Nat) (slot : DecodeSlot) : DecodeSlot :=
  { slot with
    processing := !env.stops call slot.id
    size := (env.takeBack call slot.id).elim (env.verified call slot)
      fun back => min back.kept (env.verified call slot)
    iBatch := -1
    drafting := false
    drafted := 0 }

/-- `llama_kv_cache_seq_rm` from a position to the end, when it may clear the sequence. -/
def removeFrom (cells : List SeqPos) (s p0 : Nat) (clears : Bool) : List SeqPos :=
  seqRmFrom cells s (if clears then 0 else p0)

/-- The positions that are decoded again, those that `llama_decode` places. -/
def DecodeEnv.replayed (env : DecodeEnv) (call : Nat) (slot : DecodeSlot)
    (result : DecodeResult) : List Nat :=
  let n := env.verified call slot - slot.ckptPast
  (List.range' slot.ckptPast n).take (result.placed n)

/-- What becomes of the cells behind the list. Without a rejected draft the checkpoint is not
needed. -/
def DecodeEnv.rolls (env : DecodeEnv) (call : Nat) (slot : DecodeSlot) : Rollback :=
  match env.rollback call slot.id with
  | .trims clears => .trims clears
  | .perStep restored => if env.rejects call slot then .perStep restored else .trims false
  | .replays left result =>
    if env.rejects call slot then .replays left result else .trims false

/-- The cells after the drafts of a slot were verified. -/
def DecodeEnv.rollbackCells (env : DecodeEnv) (call : Nat) (cells : List SeqPos)
    (slot : DecodeSlot) : List SeqPos :=
  match env.rolls call slot with
  | .trims clears => removeFrom cells slot.id (env.verified call slot) clears
  | .perStep restored =>
    if restored then seqRmFrom cells slot.id (env.verified call slot) else cells
  | .replays left result =>
    left.elim cells (seqRmFrom cells slot.id) ++
      (env.replayed call slot result).map fun p => (slot.id, p)

/-- The cells after a slot was sampled. -/
def DecodeEnv.sampleCells (env : DecodeEnv) (call : Nat) (cells : List SeqPos)
    (slot : DecodeSlot) : List SeqPos :=
  let cells := if slot.drafting then env.rollbackCells call cells slot else cells
  match env.takeBack call slot.id with
  | none => cells
  | some back => removeFrom cells slot.id (env.sampleSlot call slot).size back.clears

/-- The work after a chunk was decoded. -/
def DecodeEnv.decoded (env : DecodeEnv) (st : DecodePass) (i n : Int) : DecodePass :=
  let reached := st.slots.filter fun slot => slot.reached i n
  -- the calls of `llama_decode` are counted when they return
  let call := st.calls - 1
  { st with
    cells := reached.foldl (env.sampleCells call) st.cells
    slots := st.slots.map fun slot =>
      if slot.reached i n then env.sampleSlot call slot else slot
    posted := st.posted ++ reached.map DecodeSlot.id }

/-- The slots that are unwound after a failure. -/
def DecodeEnv.unwinds (env : DecodeEnv) (ret : Int) (slot : DecodeSlot) : Bool :=
  if ret = -3 then slot.isProcessing else !(env.kvUnified && !slot.isProcessing)

/-- A slot that is unwound. Only the cancel cuts its token list. -/
def unwindSlot (ret : Int) (cells : List SeqPos) (slot : DecodeSlot) : DecodeSlot :=
  { slot with
    processing := false
    loadPrompt := false
    size := if ret = -3 then min (seqPosMax cells slot.id + 1) slot.size else slot.size }

/-- The work after a failure. -/
def DecodeEnv.unwound (env : DecodeEnv) (st : DecodePass) (ret : Int) : DecodePass :=
  { st with
    slots := st.slots.map fun slot =>
      if env.unwinds ret slot then unwindSlot ret st.cells slot else slot
    posted := st.posted ++ (st.slots.filter (env.unwinds ret)).map DecodeSlot.id }

/-- `process_batch_tokens`, as the loop sees it. The compaction moves cells and keeps what they
hold. -/
def decodePassEnv (env : DecodeEnv) (batch : List SeqPos) : BatchEnv DecodePass where
  decode st i n :=
    match extendContext n.toNat st.groups st.cells with
    | none => (-1, { st with crashed := true })
    | some (groups, cells) =>
      let result := env.result st.calls
      let placed := result.placed n.toNat
      (result.ret, { st with
        calls := st.calls + 1
        cells := cells ++ (batch.drop i.toNat).take placed
        placed := st.placed ++ (List.range placed).map (i.toNat + ·)
        groups := groups })
  defrag st := st
  failed := env.unwound
  decoded := env.decoded

/-- A pass over a batch, unless it crashes. -/
def decodePass (env : DecodeEnv) (nBatch : Int) (batch cells : List SeqPos)
    (groups : List SlotGroup) (slots : List DecodeSlot) : Option DecodePass :=
  (processBatchTokens (decodePassEnv env batch) batch.length nBatch
      { cells := cells, groups := groups, slots := slots }).bind fun r =>
    if r.1.crashed then none else some r.1

end PxqLlama.Server
