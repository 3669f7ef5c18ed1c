import PxqLlama.Server.Tokens

/-!
# `Server.TickBatch`: the batch of a tick

`update_slots` fills one batch: `add_sampled_tokens` with the sampled token and the draft of every
slot that generates, or `batch_pending_prompt` with the tokens of prompts. On a recurrent model the
two kinds take turns, a batch has one prompt, and the drafts are cut to one length, since the
recurrent layers compute a batch wrongly when its sequences have different numbers of tokens.

What a drafter returns (`Drafter`) and what a slot does with a new prompt before its tokens are
added (`PromptEnv`) are parameters. Positions are left out, and so is group attention, which does
not decide which tokens are added.
-/

namespace PxqLlama.Server

/-! ### Slots and rows -/

/-- A token in a batch. -/
structure TickRow where
  token : Int
  seqId : Nat
  logits : Bool
deriving DecidableEq

/-- `server_slot`, as far as the batch reads and writes it. -/
structure TickSlot where
  id : Nat
  /-- `state` is `SLOT_STATE_PROCESSING`, else `SLOT_STATE_IDLE`. -/
  processing : Bool
  /-- `command` is `SLOT_COMMAND_LOAD_PROMPT`. -/
  loadPrompt : Bool
  embedding : Bool := false
  sampled : Int := 0
  /-- `params.speculative.get_min_usable_stage_n_min()`. -/
  minUsable : Int := 0
  cacheTokens : List Int := []
  drafted : List Int := []
  nDraftTotal : Nat := 0
  iBatch : Int := -1
  iBatchDft : List Nat := []
  nPast : Nat := 0
  promptTokens : List Int := []
  nPastPrompt : Nat := 0
  nPromptTokens : Nat := 0
  nPromptTokensProcessed : Nat := 0
  nDecoded : Nat := 0
  doCheckpoint : Bool := false
deriving DecidableEq

/-- The settings of the server that the batch depends on. -/
structure TickConfig where
  /-- `llama_model_has_recurrent`. -/
  hasRecurrent : Bool
  contBatching : Bool := true
  /-- `PXA_PROMPT_INTERLEAVE`. -/
  interleaveOn : Bool := true
  /-- `PXA_NP_SPEC_GATE`. -/
  npSpecGateOn : Bool := false
  nBatch : Nat
  /-- `pxa_mtp_lazy_prompt_flags` and `need_embd`: the `logits` flag of a prompt token. -/
  promptLogits : TickSlot → Bool := TickSlot.embedding
  doCheckpoint : Bool := false
  ctxCheckpointsTolerance : Nat := 0

/-! ### Drafting -/

/-- What the drafting of a slot gives: `get_n_draft_max` before and after the call, the cap of
`PXA_MTP_ADAPTIVE`, and the draft. -/
structure Draft where
  nDraftMaxPre : Int := 0
  cap : Int := -1
  tokens : List Int := []
  nDraftMax : Int := 0

abbrev Drafter := TickSlot → Draft

/-- `pxa_pending_slot`. -/
structure PendingSlot where
  slot : TickSlot
  doSpec : Bool
  draft : List Int := []
  minUsable : Int := 0

/-- `add_sampled_tokens`, the first pass, for one slot. A negative maximum is a huge `size_t`. -/
def pendingSlot (drafter : Drafter) (skipSpec : Bool) (slot : TickSlot) : PendingSlot :=
  let d := drafter slot
  if 0 < d.nDraftMaxPre ∧ d.cap ≠ 0 ∧ ¬ skipSpec then
    { slot := slot
      doSpec := true
      draft := if 0 ≤ d.nDraftMax then d.tokens.take d.nDraftMax.toNat else d.tokens
      minUsable := slot.minUsable }
  else { slot := slot, doSpec := false }

/-- `pxa_common_draft_len`, where `none` is `SIZE_MAX`. -/
def commonDraftLen (cfg : TickConfig) (pending : List PendingSlot) : Option Nat :=
  if 2 ≤ pending.length ∧ cfg.hasRecurrent then
    let spec := pending.filter PendingSlot.doSpec
    let minDraft := (spec.map fun ps => ps.draft.length).min?
    let maxMinUsable := spec.foldl (fun m ps => max m ps.minUsable) 0
    if 1 ≤ spec.length then
      if spec.length ≠ pending.length then some 0
      else
        let common : Nat := minDraft.getD 0
        if (common : Int) < maxMinUsable then some 0 else some common
    else none
  else none

/-- The draft of a slot, cut to the common length. -/
def PendingSlot.cut (common : Option Nat) (ps : PendingSlot) : List Int :=
  match common with
  | some len => if ps.doSpec then ps.draft.take len else ps.draft
  | none => ps.draft

/-- `emit_spec`. -/
def PendingSlot.emitSpec (common : Option Nat) (ps : PendingSlot) : Bool :=
  ps.doSpec && decide (ps.slot.minUsable ≤ ((ps.cut common).length : Int)) &&
    !(ps.cut common).isEmpty

/-- `add_sampled_tokens`, the second pass, for one slot. -/
def addPending (common : Option Nat) (batch : List TickRow) (ps : PendingSlot) :
    List TickRow × TickSlot :=
  let slot := ps.slot
  let draft := ps.cut common
  if ps.emitSpec common then
    let tokens := slot.sampled :: draft
    let cacheTokens := slot.cacheTokens ++ tokens
    (batch ++ tokens.map fun tok => ⟨tok, slot.id, true⟩,
      { slot with
        cacheTokens := cacheTokens
        nPast := cacheTokens.length
        iBatchDft := slot.iBatchDft ++ (List.range tokens.length).map (batch.length + ·)
        nDraftTotal := slot.nDraftTotal + draft.length
        drafted := draft })
  else
    let cacheTokens := slot.cacheTokens ++ [slot.sampled]
    let slot : TickSlot := { slot with
      cacheTokens := cacheTokens
      nPast := cacheTokens.length
      iBatch := batch.length }
    (batch ++ [⟨slot.sampled, slot.id, true⟩],
      if ps.doSpec then { slot with drafted := [], iBatchDft := [] } else slot)

/-- The second pass over the slots: the idle ones stay as they are. -/
def addPendings (common : Option Nat) (drafter : Drafter) (skipSpec : Bool) :
    List TickRow → List TickSlot → List TickRow × List TickSlot
  | batch, [] => (batch, [])
  | batch, slot :: slots =>
    if slot.processing then
      let (batch, slot) := addPending common batch (pendingSlot drafter skipSpec slot)
      let (batch, slots) := addPendings common drafter skipSpec batch slots
      (batch, slot :: slots)
    else
      let (batch, slots) := addPendings common drafter skipSpec batch slots
      (batch, slot :: slots)

/-- The slots that generate, with their drafts. -/
def pendingSlots (drafter : Drafter) (skipSpec : Bool) (slots : List TickSlot) :
    List PendingSlot :=
  (slots.filter TickSlot.processing).map (pendingSlot drafter skipSpec)

/-- `pxa_skip_spec_this_tick`. -/
def skipSpecThisTick (cfg : TickConfig) (slots : List TickSlot) : Bool :=
  cfg.npSpecGateOn && decide (2 ≤ (slots.filter TickSlot.processing).length) && cfg.hasRecurrent

/-- `add_sampled_tokens`. -/
def addSampledTokens (cfg : TickConfig) (drafter : Drafter) (batch : List TickRow)
    (slots : List TickSlot) : List TickRow × List TickSlot :=
  let skipSpec := skipSpecThisTick cfg slots
  let pending := pendingSlots drafter skipSpec slots
  addPendings (commonDraftLen cfg pending) drafter skipSpec batch slots

/-! ### Prompts -/

/-- What `batch_pending_prompt` does with a slot before it adds tokens. `start` takes up the prompt,
cuts it and compares it with the cache, and `none` is a slot that is released there. `trims` tells
whether the cache can remove what is not common. -/
structure PromptEnv where
  start : TickSlot → Option TickSlot
  trims : TickSlot → Bool
  start_id : ∀ {slot started}, start slot = some started → started.id = slot.id

/-- Only the common part is kept, and nothing when the cache can not remove the rest. -/
def keepCommon (env : PromptEnv) (slot : TickSlot) : TickSlot :=
  if env.trims slot then { slot with cacheTokens := slot.cacheTokens.take slot.nPast }
  else { slot with cacheTokens := [], nPast := 0, nPastPrompt := 0 }

/-- What is left of the prompt. -/
def TickSlot.promptRest (slot : TickSlot) : List Int :=
  (slot.promptTokens.take slot.nPromptTokens).drop slot.nPastPrompt

/-- The loop that adds the tokens of a prompt, over what is left of it. -/
def appendPrompt (cfg : TickConfig) :
    (rest : List Int) → List TickRow → TickSlot → List TickRow × TickSlot
  | [], batch, slot => (batch, slot)
  | curTok :: rest, batch, slot =>
    if cfg.nBatch ≤ batch.length then (batch, slot)
    else if curTok = llamaTokenNull then (batch, slot)
    else
      let batch := batch ++ [⟨curTok, slot.id, cfg.promptLogits slot⟩]
      let slot : TickSlot := { slot with
        cacheTokens := slot.cacheTokens ++ [curTok]
        nPromptTokensProcessed := slot.nPromptTokensProcessed + 1
        nPastPrompt := slot.nPastPrompt + 1
        nPast := slot.nPast + 1 }
      if cfg.doCheckpoint ∧ slot.nPromptTokens - slot.nPastPrompt = cfg.ctxCheckpointsTolerance then
        (batch, { slot with doCheckpoint := true })
      else appendPrompt cfg rest batch slot

/-- The last row has logits. -/
def lastLogits (batch : List TickRow) : List TickRow :=
  match batch.getLast? with
  | some row => batch.dropLast ++ [{ row with logits := true }]
  | none => batch

/-- `slot_type`: 1 for an embedding. -/
def TickSlot.type (slot : TickSlot) : Int := if slot.embedding then 1 else 0

/-- The part of `batch_pending_prompt` for a slot with a prompt: the batch, `batch_type` and the
slot. -/
def promptTurn (cfg : TickConfig) (env : PromptEnv) (batch : List TickRow) (batchType : Int)
    (slot : TickSlot) : List TickRow × Int × TickSlot :=
  match env.start slot with
  | none => (batch, batchType, { slot with processing := false, loadPrompt := false })
  | some slot =>
    -- an embedding prompt has to fit as a whole
    if slot.embedding ∧ cfg.nBatch < batch.length + slot.nPromptTokens then
      (batch, batchType, slot)
    else
      let slotType := slot.type
      if batchType ≠ -1 ∧ batchType ≠ slotType then (batch, batchType, slot)
      else
        let slot := keepCommon env slot
        let (batch, slot) := appendPrompt cfg slot.promptRest batch slot
        if slot.nPastPrompt = slot.nPromptTokens then
          (lastLogits batch, slotType,
            { slot with
              processing := true
              loadPrompt := false
              nDecoded := 0
              iBatch := (batch.length : Int) - 1 })
        else (batch, slotType, slot)

/-- The loop of `batch_pending_prompt`. `added` is `pxa_prompt_slot_added`. -/
def pendingPrompts (cfg : TickConfig) (env : PromptEnv) :
    (added : Bool) → List TickRow → Int → List TickSlot → List TickRow × Int × List TickSlot
  | _, batch, batchType, [] => (batch, batchType, [])
  | added, batch, batchType, slot :: slots =>
    if cfg.hasRecurrent ∧ added then (batch, batchType, slot :: slots)
    else
      let before := batch.length
      let (batch, batchType, slot) :=
        if ¬ slot.processing ∧ slot.loadPrompt then promptTurn cfg env batch batchType slot
        else (batch, batchType, slot)
      let added := added || decide (before < batch.length)
      if cfg.nBatch ≤ batch.length then (batch, batchType, slot :: slots)
      else
        let (batch, batchType, slots) := pendingPrompts cfg env added batch batchType slots
        (batch, batchType, slot :: slots)

/-- `batch_pending_prompt`. -/
def batchPendingPrompt (cfg : TickConfig) (env : PromptEnv) (batch : List TickRow)
    (batchType : Int) (slots : List TickSlot) : List TickRow × Int × List TickSlot :=
  if cfg.contBatching ∨ batch = [] then pendingPrompts cfg env false batch batchType slots
  else (batch, batchType, slots)

/-! ### A tick -/

/-- The slots of the server. Their ids are their places in the list of slots. -/
structure TickState where
  slots : List TickSlot
  ids_nodup : (slots.map TickSlot.id).Nodup
  prevTickWasPrompt : Bool := false

/-- The batch that `process_batch_tokens` gets, none when it is empty, with the slots as they are
then. -/
structure Tick where
  batch : List TickRow
  batchType : Int
  slots : List TickSlot
  prevTickWasPrompt : Bool

/-- `update_slots`, from the empty batch to `process_batch_tokens`. -/
def updateSlots (cfg : TickConfig) (drafter : Drafter) (env : PromptEnv) (st : TickState) :
    Tick :=
  let pendingPrompt := st.slots.any fun slot => !slot.processing && slot.loadPrompt
  let promptTick :=
    cfg.interleaveOn && cfg.hasRecurrent && pendingPrompt && !st.prevTickWasPrompt
  let (batch, slots) :=
    if promptTick then ([], st.slots) else addSampledTokens cfg drafter [] st.slots
  let batchType : Int := if batch = [] then -1 else 0
  let deferPrompt := cfg.hasRecurrent && decide (batch ≠ [])
  let (batch, batchType, slots) :=
    if deferPrompt then (batch, batchType, slots)
    else batchPendingPrompt cfg env batch batchType slots
  { batch := batch
    batchType := batchType
    slots := slots
    prevTickWasPrompt := promptTick && decide (batch ≠ []) }

end PxqLlama.Server
