import PxqLlama.Server.Emit

/-!
# `Server.StringBan`: tokens held back for banned strings

A slot with banned strings does not send a token when it is sampled. It holds tokens back in
`token_buffer`, and looks for a banned string in their text after each new one. A match rewinds the
slot: the token list and the buffer are cut before the token in which the match begins, and that
token is banned at its position.

One tick of the plain path appends `sampled` to the token list and samples one token. A tick of the
speculative path appends `sampled` and a draft, replaces the draft by the tokens that were
accepted, and then gives these to the buffer one after another (`emit`). The new token of a plain
tick goes the same way, as a group of one.

`prompt`, `sent`, `rewinds` and `pending` are not fields of the source: what the prompt was, which
tokens went to `process_token`, what each rewind did, and the tokens of the group that the emit
loop has not come to.
-/

namespace PxqLlama.Server

/-- `has_next_token`: whether the generation goes on after this token, and the slot with
`n_remaining`. -/
def hasNextToken (srv : ServerCtx) (slot : EmitSlot) (result : TokenOutput) : Bool × EmitSlot :=
  let (budget, slot) := if 0 < slot.nDecoded then hasBudget srv slot else (true, slot)
  (budget && !decide (srv.softfailMaxConsec ≤ slot.nSoftfailConsecutive) &&
    !srv.isEog result.tok &&
    !decide (slot.params.nPredict < 1 ∧ slot.nPredict < 1 ∧ slot.gaN = 1 ∧
      srv.nCtxTrain ≤ slot.nPromptTokens + slot.nDecoded), slot)

/-- The end of a generation by a limit alone. -/
def stoppedByLimit (slot : EmitSlot) : Bool :=
  slot.stoppedLimit && !slot.stoppedEos && !slot.stoppedWord

/-- One rewind: the tokens of the prompt and the ones sent, the buffer, the byte of its text at
which the match begins, and what the rewind left and banned. -/
structure RewindRecord where
  before : List Int
  buffer : List TokenOutput
  offset : Nat
  kept : List Int
  bans : List (Int × Int)

/-- `server_slot`, as far as the string bans read and write it. A regular expression is its search
function: the place of the first match. -/
structure BanSlot extends EmitSlot where
  cacheTokens : List Int
  tokenBuffer : List TokenOutput := []
  nBuffer : Nat
  banPhrases : List Bytes := []
  banRegex : List (Bytes → Option Nat) := []
  banRegexCi : List (Bytes → Option Nat) := []
  bannedN : Int := 1
  positionalBans : List (Int × Int) := []
  rewindCount : Nat := 0
  rewindCountMax : Int := -1
  rewindStatus : Bool := false
  saturatePredict : Bool := false
  released : Bool := false
  prompt : List Int
  sent : List Int := []
  rewinds : List RewindRecord := []
  pending : List TokenOutput := []

namespace BanSlot

/-- The tokens of outputs. -/
abbrev toks (l : List TokenOutput) : List Int := l.map TokenOutput.tok

/-! ### Looking for a banned string -/

/-- The token whose text holds the byte at `start`. -/
def tokenAt : List TokenOutput → (start : Nat) → Option Nat
  | [], _ => none
  | t :: ts, start =>
    if start < t.textToSend.length then some 0
    else (tokenAt ts (start - t.textToSend.length)).map (· + 1)

/-- The byte of the buffer's text at which the first match of a banned string begins. -/
def banOffset (slot : BanSlot) : Option Nat :=
  let stringBuffer := slot.tokenBuffer.flatMap TokenOutput.textToSend
  let starts :=
    slot.banPhrases.filterMap (fun phrase => findFrom (stringLower stringBuffer) phrase 0) ++
    slot.banRegex.filterMap (fun search => search stringBuffer) ++
    slot.banRegexCi.filterMap (fun search => search stringBuffer)
  starts.min?

/-- `check_ban_phrase`. -/
def checkBanPhrase (slot : BanSlot) : Int :=
  match slot.banOffset.bind (tokenAt slot.tokenBuffer) with
  | some tokenIdx => slot.nPast - slot.tokenBuffer.length + 1 + tokenIdx
  | none => -1

/-! ### Rewinding -/

/-- `rewind_context`. -/
def rewindContext (slot : BanSlot) (banPos : Int) : BanSlot :=
  let bufferStartPos := slot.nPast - slot.tokenBuffer.length + 1
  let nKeepBuffer := (banPos - bufferStartPos).toNat
  let dropped := toks (slot.tokenBuffer.drop nKeepBuffer)
  let banned :=
    if slot.bannedN = 0 then []
    else if 0 < slot.bannedN then dropped.take slot.bannedN.toNat
    else dropped
  let nRewindTotal := slot.nPast + 1 - banPos
  let nKeepCache := min (banPos - 1).toNat slot.cacheTokens.length
  let cacheTokens := slot.cacheTokens.take nKeepCache
  { slot with
    rewindCount := slot.rewindCount + 1
    positionalBans := slot.positionalBans ++ banned.map fun tok => (banPos, tok)
    sampled := slot.cacheTokens.getD nKeepCache 0
    cacheTokens := cacheTokens
    nPast := cacheTokens.length
    tokenBuffer := slot.tokenBuffer.take nKeepBuffer
    nDecoded :=
      if slot.saturatePredict then max 0 (slot.nDecoded - nRewindTotal) else slot.nDecoded }

/-- The test of `buffer_and_check_string_ban` for one more rewind. -/
def allowRewind (slot : BanSlot) : Bool :=
  if slot.rewindCountMax = -1 then
    let totalBans := slot.banPhrases.length + slot.banRegex.length + slot.banRegexCi.length
    ¬ (20 ≤ slot.rewindCount ∧ 2 * totalBans < slot.rewindCount)
  else if 0 < slot.rewindCountMax then slot.rewindCount < slot.rewindCountMax
  else true

/-! ### Sending -/

/-- The end of a generation: the final response is sent, and the slot released. -/
def release (slot : BanSlot) : BanSlot := { slot with released := true }

/-- One round of `send_token_results`: the token goes to `process_token`, and the bans at its
position are dropped. -/
def sendOne (srv : ServerCtx) (pos : Int) (slot : BanSlot) (it : TokenOutput) : BanSlot × Bool :=
  let processed := processToken srv slot.toEmitSlot it
  ({ slot with
    toEmitSlot := processed.1
    positionalBans := slot.positionalBans.filter (·.1 ≠ pos)
    sent := slot.sent ++ [it.tok] }, processed.2)

/-- The loop of `send_token_results` over the buffer: at most `n` tokens, or all of them for
`n = 0`. The result is the slot, and how many tokens were sent. -/
def sendLoop (srv : ServerCtx) (n : Nat) (startPos : Int) :
    (results : List TokenOutput) → (count : Nat) → BanSlot → BanSlot × Nat
  | [], count, slot => (slot, count)
  | it :: results, count, slot =>
    let round := sendOne srv (startPos + count) slot it
    if ¬ round.2 then
      -- a limit does not keep the rest of the buffer from being sent
      if stoppedByLimit round.1.toEmitSlot then sendLoop srv n startPos results (count + 1) round.1
      else (round.1.release, count + 1)
    else if 0 < n ∧ n ≤ count + 1 then (round.1, count + 1)
    else sendLoop srv n startPos results (count + 1) round.1

/-- `send_token_results` on the slot's own buffer. -/
def sendTokenResults (srv : ServerCtx) (slot : BanSlot) (n : Nat) : BanSlot :=
  let results := slot.tokenBuffer
  let startPos := slot.nPast - slot.tokenBuffer.length + 1
  let looped := sendLoop srv n startPos results 0 slot
  let slot :=
    if ¬ looped.1.released ∧ stoppedByLimit looped.1.toEmitSlot then looped.1.release else looped.1
  if 0 < looped.2 then
    { slot with
      sampled := (toks results).getLastD 0
      tokenBuffer := slot.tokenBuffer.drop looped.2 }
  else slot

/-! ### One new token -/

/-- `buffer_and_check_string_ban`. -/
def bufferAndCheckStringBan (srv : ServerCtx) (slot : BanSlot) (result : TokenOutput) : BanSlot :=
  let slot := { slot with tokenBuffer := slot.tokenBuffer ++ [result] }
  let next := hasNextToken srv slot.toEmitSlot result
  let slot : BanSlot := { slot with toEmitSlot := next.2 }
  let bufferFull := slot.nBuffer ≤ slot.tokenBuffer.length
  let banPos := slot.checkBanPhrase
  if 0 ≤ banPos ∧ slot.allowRewind then
    let rewound := slot.rewindContext banPos
    { rewound with
      rewindStatus := true
      rewinds := slot.rewinds ++ [{
        before := slot.prompt ++ slot.sent
        buffer := slot.tokenBuffer
        offset := slot.banOffset.getD 0
        kept := rewound.cacheTokens ++ [rewound.sampled]
        bans := rewound.positionalBans.drop slot.positionalBans.length }] }
  else if bufferFull ∨ ¬ next.1 then
    let slot : BanSlot := { slot with rewindStatus := false, rewindCount := 0 }
    if ¬ next.1 then slot.sendTokenResults srv 0 else slot.sendTokenResults srv 1
  else { slot with sampled := result.tok }

/-! ### Ticks -/

inductive BanAction where
  /-- A plain tick: `sampled` is decoded and a token is sampled. -/
  | plain (result : TokenOutput)
  /-- A speculative tick: `sampled` and a draft are decoded, and the tokens `ids` are accepted. -/
  | accept (draft : List Int) (ids : List TokenOutput)
  /-- The next token of the group goes to the buffer. -/
  | emit

/-- One step. The emit loop ends when the slot was released. -/
def step (srv : ServerCtx) (slot : BanSlot) : BanAction → Option BanSlot
  | .plain result =>
    if slot.released ∨ slot.pending ≠ [] then none
    else
      let cacheTokens := slot.cacheTokens ++ [slot.sampled]
      some { slot with
        cacheTokens := cacheTokens
        nPast := cacheTokens.length
        nDecoded := slot.nDecoded + 1
        pending := [result] }
  | .accept draft ids =>
    if slot.released ∨ slot.pending ≠ [] ∨ ids = [] ∨ draft.length + 1 < ids.length then none
    else
      let cacheTokens := slot.cacheTokens ++ [slot.sampled] ++ draft
      -- the draft is taken back, and what was accepted is appended
      let cacheTokens := cacheTokens.take (cacheTokens.length - draft.length) ++ (toks ids).dropLast
      some { slot with
        cacheTokens := cacheTokens
        nPast := cacheTokens.length
        nDecoded := slot.nDecoded + ids.length
        sampled := (toks ids).getLastD 0
        pending := ids }
  | .emit =>
    match slot.pending with
    | [] => none
    | result :: rest =>
      let slot := bufferAndCheckStringBan srv { slot with pending := rest } result
      some (if slot.released then { slot with pending := [] } else slot)

/-- A slot whose prompt is decoded and whose first token is sampled. -/
structure Starts (slot : BanSlot) : Prop where
  prompt : slot.prompt ≠ []
  cache : slot.cacheTokens = slot.prompt
  nPast : slot.nPast = slot.cacheTokens.length
  first : ∃ result, slot.pending = [result]
  fresh : slot.tokenBuffer = [] ∧ slot.sent = [] ∧ slot.rewinds = [] ∧ slot.released = false

end BanSlot

end PxqLlama.Server
