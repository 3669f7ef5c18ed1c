import PxqLlama.Server.Tokens

/-!
# `Server.PromptShift`: a prompt that is longer than the context

A prompt of `n_ctx` tokens or more is truncated before it is processed: `context_shift_prompt` keeps
the first tokens of it and discards the ones behind them, in steps of `n_discard`. What the slot's
cache has of the discarded tokens is discarded too. An assertion behind the call ends the server
when the prompt is still too long.

The context shift is enabled and there is no self-extend. Cells and positions of the KV cache are
not part of the slot here. `none` is an assertion that fails or an exception.
-/

namespace PxqLlama.Server

/-- The part of `server_slot` that the truncation reads and writes. `nKeep` and `nDiscard` are
what the request carries. -/
structure ShiftSlot where
  nCtx : Nat
  nKeep : Int
  nDiscard : Int
  cachePrompt : Bool := true
  promptTokens : ServerTokens := {}
  cacheTokens : ServerTokens := {}
  nPromptTokens : Nat := 0
  nDiscardedPrompt : Int := 0
  nKeptPrompt : Nat := 0
  truncated : Bool := false
deriving DecidableEq

namespace ServerTokens

/-- `get_common_prefix_first_n`. -/
def getCommonPrefixFirstN (txt : TokenText) (a b : ServerTokens) (n : Nat) (exact : Bool) :
    Option CommonPrefix := do
  let kept ← a.keepFirst (min n a.size)
  kept.getCommonPrefix txt b exact

/-- How many of the tokens at the start of a list belong to media. -/
def mediaRun (tokens : List Int) : Nat := (tokens.takeWhile (· = llamaTokenNull)).length

/-- `adjust_n_to_support_context_shift`: neither the kept tokens nor the discarded ones end inside
of media. -/
def adjustNToSupportContextShift (tokens : ServerTokens) (nKeep : Nat) (nDiscard : Int) :
    Nat × Int :=
  if ¬ tokens.hasMtmd then (nKeep, nDiscard)
  else
    let nKeep :=
      if 0 < nKeep ∧ nKeep ≤ tokens.size then
        nKeep - mediaRun (tokens.tokens.take nKeep).reverse
      else nKeep
    let nDiscard :=
      if 0 < nDiscard + nKeep ∧ nDiscard + nKeep ≤ tokens.size then
        nDiscard + mediaRun (tokens.tokens.drop (nDiscard + nKeep - 1).toNat)
      else nDiscard
    (nKeep, nDiscard)

/-- `tokens_support_context_shift`. -/
def tokensSupportContextShift (tokens : ServerTokens) (nKeep : Nat) (nDiscard : Int) : Bool :=
  if tokens.hasMtmd then
    let keeps := if 0 < nKeep ∧ nKeep ≤ tokens.size then
        decide (tokens.tokens.getD (nKeep - 1) 0 ≠ llamaTokenNull)
      else true
    if 0 < nDiscard + nKeep ∧ nDiscard + nKeep ≤ tokens.size then
      keeps && decide (tokens.tokens.getD (nDiscard + nKeep - 1).toNat 0 ≠ llamaTokenNull)
    else keeps
  else true

end ServerTokens

/-- `context_shift_find_n_tokens`: how many tokens of the cache `b` are kept and discarded for those
of the prompt `a`. -/
def contextShiftFindNTokens (txt : TokenText) (a b : ServerTokens) (nKeep : Nat) (nDiscard : Int)
    (exact : Bool) : Option (Int × Int) := do
  let keepPrefix ← a.getCommonPrefixFirstN txt b nKeep exact
  let totalPrefix ← a.getCommonPrefixFirstN txt b (nDiscard + nKeep).toNat exact
  let discardOffset : Int := totalPrefix.first - (nDiscard + nKeep)
  let keepOffset : Int := keepPrefix.first - nKeep
  let nKept := keepPrefix.second - keepOffset
  let nDiscarded := (totalPrefix.second : Int) - keepPrefix.second - discardOffset
  return (if nKept < 0 then (nKeep : Int) else nKept,
    if nDiscarded < 0 then nDiscard else nDiscarded)

/-- The cache tokens after `context_shift_prompt`, which discards `nDiscardPrompt` tokens of the
prompt in steps of `nDiscard`. -/
def trimCacheTokens (txt : TokenText) (slot : ShiftSlot) (nKeep : Nat)
    (nDiscard nDiscardPrompt : Int) (exact : Bool) : Option ServerTokens := do
  let found :=
    if nDiscardPrompt > 0 then
      contextShiftFindNTokens txt slot.promptTokens slot.cacheTokens nKeep nDiscard exact
    else some ((nKeep : Int), nDiscardPrompt)
  let (nKept, nDiscardCache) ← found
  let nDiscardCache := min nDiscardCache (max (slot.cacheTokens.size - nKept) 0)
  if nDiscardCache > 0 ∧ slot.cachePrompt then
    slot.cacheTokens.discardNTokens nKept.toNat nDiscardCache.toNat
  else some slot.cacheTokens

/-- The loop of `context_shift_prompt`: `n_discarded_prompt` when enough is discarded. -/
def discardSteps (nPrompt nCtx step : Int) (hstep : 0 < step) (nDiscarded : Int) : Int :=
  if nCtx ≤ nPrompt - nDiscarded then discardSteps nPrompt nCtx step hstep (nDiscarded + step)
  else nDiscarded
termination_by (nPrompt - nDiscarded - nCtx + 1).toNat

/-- `n_keep` and `n_discard` as `context_shift_prompt` uses them. -/
def shiftSizes (addBosToken : Bool) (slot : ShiftSlot) : Nat × Int :=
  let nKeep := max 0 (slot.nKeep + addBosToken.toNat)
  let nLeft := slot.nCtx - nKeep
  let nDiscard := if slot.nDiscard ≠ 0 then slot.nDiscard else nLeft.tdiv 2
  slot.promptTokens.adjustNToSupportContextShift nKeep.toNat nDiscard

/-- `context_shift_prompt`. -/
def contextShiftPrompt (txt : TokenText) (addBosToken : Bool) (slot : ShiftSlot) (exact : Bool) :
    Option ShiftSlot :=
  let nKeep := (shiftSizes addBosToken slot).1
  let nDiscard := (shiftSizes addBosToken slot).2
  if hstep : 0 < nDiscard then
    if slot.promptTokens.tokensSupportContextShift nKeep nDiscard then do
      let nDiscarded := discardSteps slot.nPromptTokens slot.nCtx nDiscard hstep
        slot.nDiscardedPrompt
      let nDiscardPrompt := nDiscarded - slot.nDiscardedPrompt
      let promptTokens ← slot.promptTokens.discardNTokens nKeep
        (nDiscarded - nDiscardPrompt).toNat
      let slot := { slot with promptTokens := promptTokens, nDiscardedPrompt := nDiscarded }
      let cacheTokens ← trimCacheTokens txt slot nKeep nDiscard nDiscardPrompt exact
      let promptTokens ← slot.promptTokens.discardNTokens nKeep nDiscardPrompt.toNat
      return { slot with
        cacheTokens := cacheTokens
        nKeptPrompt := nKeep
        promptTokens := promptTokens
        nPromptTokens := promptTokens.size }
    else some slot
  else some slot

/-- `server_slot::reset`. -/
def ShiftSlot.reset (slot : ShiftSlot) : ShiftSlot :=
  { slot with nPromptTokens := 0, nDiscardedPrompt := 0, nKeptPrompt := 0, truncated := false }

/-- A slot that is reset for a request, with its prompt. -/
def ShiftSlot.launch (slot : ShiftSlot) (prompt : ServerTokens) : ShiftSlot :=
  { slot.reset with promptTokens := prompt, nPromptTokens := prompt.size }

/-- The truncation of `batch_pending_prompt`, with the assertion behind it. -/
def truncatePrompt (txt : TokenText) (addBosToken : Bool) (slot : ShiftSlot) :
    Option ShiftSlot := do
  if slot.nCtx ≤ slot.nPromptTokens then
    let slot ← contextShiftPrompt txt addBosToken slot false
    let slot := { slot with truncated := true }
    if slot.nPromptTokens < slot.nCtx then some slot else none
  else some { slot with nDiscardedPrompt := 0 }

end PxqLlama.Server
