import Mathlib.Data.List.Basic

/-!
# `Server.Emit`: the text of a generation

A slot of the server collects the text of its tokens. `processToken` looks for stop words and for
the end of the generation, and in a streaming request it sends the text that cannot be the start
of a stop word. The plain path gives it one token in a tick (`plainRun`); the speculative path
gives it all tokens that one verification accepted, and counts them first (`specRun`).

Text is bytes. A token comes with its piece, as `common_token_to_piece` has it.
-/

namespace PxqLlama.Server

abbrev Bytes := List UInt8

/-! ### Strings -/

/-- The test of `validate_utf8` for the byte `i` places before the end: it starts a character that
needs more bytes. -/
def startsCut (c : UInt8) (i : Nat) : Bool :=
  if c &&& 0xE0 = 0xC0 then i < 2
  else if c &&& 0xF0 = 0xE0 then i < 3
  else if c &&& 0xF8 = 0xF0 then i < 4
  else false

/-- `validate_utf8`: the length without a character that is cut off. -/
def validateUtf8 (text : Bytes) : Nat :=
  match (List.range' 1 (min 4 text.length)).find?
      (fun i => startsCut (text.getD (text.length - i) 0) i) with
  | some i => text.length - i
  | none => text.length

/-- `text.find(word, from)`. -/
def findFrom (text word : Bytes) (start : Nat) : Option Nat :=
  (List.range' start (text.length + 1 - start)).find? fun i => word.isPrefixOf (text.drop i)

/-- `string_lower`. -/
def stringLower (s : Bytes) : Bytes := s.map fun c => if 65 ≤ c ∧ c ≤ 90 then c + 32 else c

/-- `string_find_partial_stop`: where the longest start of the word begins that the text ends
with. -/
def stringFindPartialStop (str stop : Bytes) : Option Nat :=
  if str ≠ [] ∧ stop ≠ [] then
    ((List.range stop.length).reverse.find? fun i =>
      stop.getD i 0 = str.getLastD 0 && (stop.take (i + 1)).isSuffixOf str).map
        fun i => str.length - i - 1
  else none

/-! ### Slots -/

/-- What the emission reads of the server and of the model. -/
structure ServerCtx where
  nPredict : Int
  nCtxTrain : Int
  softfailMaxConsec : Int
  isEog : Int → Bool

/-- `slot_params`, as far as the emission reads it; `maxStageNMax` and `minUsableStageNMin` are
what the two getters of `params.speculative` return. -/
structure SlotParams where
  antiprompt : List Bytes
  nPredict : Int
  stream : Bool
  maxStageNMax : Int := 0
  minUsableStageNMin : Int := 0

/-- `completion_token_output`: the token and the text to send. -/
structure TokenOutput where
  tok : Int
  textToSend : Bytes

/-- `server_slot`, as far as the emission reads and writes it. `partials` are the contents of the
partial responses that it has sent. -/
structure EmitSlot where
  params : SlotParams
  nPredict : Int := -1
  gaN : Int := 1
  nCtx : Int := 0
  nPast : Int := 0
  nPromptTokens : Int := 0
  canSpeculate : Bool := false
  nDecoded : Int := 0
  nRemaining : Int := -1
  nSoftfailConsecutive : Int := 0
  sampled : Int := 0
  generatedText : Bytes := []
  nSentText : Nat := 0
  hasNextToken : Bool := true
  truncated : Bool := false
  stoppedEos : Bool := false
  stoppedWord : Bool := false
  stoppedLimit : Bool := false
  stoppingWord : Bytes := []
  partials : List Bytes := []

/-- `find_stopping_strings`: the first place of a stop word, or of a start of one that the text
ends with, and the word. A full search begins where a word can end in the last token. -/
def findStoppingStrings (words : List Bytes) (text : Bytes) (lastTokenSize : Nat)
    (isFullStop : Bool) : Option (Nat × Bytes) :=
  words.foldl (fun stop word =>
    let pos :=
      if isFullStop then
        let tmp := word.length + lastTokenSize
        findFrom text word (if tmp < text.length then text.length - tmp else 0)
      else stringFindPartialStop text word
    match pos, stop with
    | some p, some (q, _) => if p < q then some (p, word) else stop
    | some p, none => some (p, word)
    | none, _ => stop) none

/-- `server_slot::has_budget`: the answer, and the slot with `n_remaining`. -/
def hasBudget (srv : ServerCtx) (slot : EmitSlot) : Bool × EmitSlot :=
  if slot.params.nPredict = -1 ∧ srv.nPredict = -1 then (true, slot)
  else
    let nRemaining :=
      if slot.params.nPredict ≠ -1 then slot.params.nPredict - slot.nDecoded
      else if srv.nPredict ≠ -1 then srv.nPredict - slot.nDecoded
      else -1
    (decide (0 < nRemaining), { slot with nRemaining := nRemaining })

/-- `server_slot::get_n_draft_max`. -/
def getNDraftMax (slot : EmitSlot) : Int :=
  if ¬ slot.canSpeculate then 0
  else
    let nDraftMax := min slot.params.maxStageNMax (slot.nCtx - slot.nPast - 2)
    let nDraftMax := if 0 < slot.nRemaining then min nDraftMax (slot.nRemaining - 1) else nDraftMax
    if nDraftMax < slot.params.minUsableStageNMin then 0 else nDraftMax

/-! ### `process_token` -/

/-- The part of `process_token` about the text: stop words, and what is sent. -/
def processText (srv : ServerCtx) (slot : EmitSlot) (result : TokenOutput) : EmitSlot :=
  let text := slot.generatedText ++ result.textToSend
  let slot := { slot with
    sampled := result.tok
    generatedText := text
    hasNextToken := true }
  if validateUtf8 text < text.length then
    -- the last character is not complete
    slot
  else
    let pos := min slot.nSentText text.length
    let strTest := text.drop pos
    match findStoppingStrings slot.params.antiprompt strTest result.textToSend.length true with
    | some (stopPos, word) =>
      let text := text.take (pos + stopPos)
      let pos := min slot.nSentText text.length
      let send := text.drop pos
      { slot with
        generatedText := text
        hasNextToken := false
        stoppedWord := true
        stoppingWord := word
        nSentText := slot.nSentText + send.length
        partials := if slot.params.stream then slot.partials ++ [send] else slot.partials }
    | none =>
      let held := !srv.isEog result.tok &&
        (findStoppingStrings slot.params.antiprompt strTest result.textToSend.length false).isSome
      let send := if held then [] else strTest
      { slot with
        nSentText := slot.nSentText + send.length
        partials := if slot.params.stream then slot.partials ++ [send] else slot.partials }

/-- The budget is checked while there is a next token. -/
def checkBudget (srv : ServerCtx) (slot : EmitSlot) : EmitSlot :=
  if 0 < slot.nDecoded ∧ slot.hasNextToken then
    let (budget, slot) := hasBudget srv slot
    if budget then slot else { slot with stoppedLimit := true, hasNextToken := false }
  else slot

/-- A generation that is stuck with a sampler that fails. -/
def checkSoftfail (srv : ServerCtx) (slot : EmitSlot) : EmitSlot :=
  if slot.hasNextToken ∧ srv.softfailMaxConsec ≤ slot.nSoftfailConsecutive then
    { slot with truncated := true, stoppedLimit := true, hasNextToken := false }
  else slot

def checkEog (srv : ServerCtx) (tok : Int) (slot : EmitSlot) : EmitSlot :=
  if srv.isEog tok then { slot with stoppedEos := true, hasNextToken := false } else slot

/-- Without a budget the generation ends at the length that the model was trained for. -/
def checkCtxTrain (srv : ServerCtx) (slot : EmitSlot) : EmitSlot :=
  if slot.params.nPredict < 1 ∧ slot.nPredict < 1 ∧ slot.gaN = 1 ∧
      srv.nCtxTrain ≤ slot.nPromptTokens + slot.nDecoded then
    { slot with truncated := true, stoppedLimit := true, hasNextToken := false }
  else slot

/-- The part of `process_token` about the limits. -/
def checkLimits (srv : ServerCtx) (slot : EmitSlot) (tok : Int) : EmitSlot :=
  checkCtxTrain srv (checkEog srv tok (checkSoftfail srv (checkBudget srv slot)))

/-- `process_token`: the slot afterwards, and whether the generation goes on. -/
def processToken (srv : ServerCtx) (slot : EmitSlot) (result : TokenOutput) : EmitSlot × Bool :=
  let slot := checkLimits srv (processText srv slot result) result.tok
  (slot, slot.hasNextToken)

/-! ### The final response -/

inductive StopType
  | none
  | eos
  | word
  | limit
  deriving DecidableEq, Repr

/-- `server_task_result_cmpl_final`: the content, the full text and the reason. -/
structure FinalResponse where
  content : Bytes
  generatedText : Bytes
  stopKind : StopType
  deriving DecidableEq, Repr

/-- `res->stop_kind`. -/
def EmitSlot.stopKind (slot : EmitSlot) : StopType :=
  if slot.stoppedEos then .eos
  else if slot.stoppedWord then .word
  else if slot.stoppedLimit then .limit
  else .none

/-- `send_final_response`: a character that is cut off at the end is dropped. -/
def sendFinalResponse (slot : EmitSlot) : FinalResponse :=
  let text := slot.generatedText.take (validateUtf8 slot.generatedText)
  { content := if slot.params.stream then [] else text
    generatedText := text
    stopKind := slot.stopKind }

/-! ### The two paths -/

/-- The plain path: one token in a tick. It ends with the tokens, or when `process_token` says
so. The result is the slot, how many tokens were processed, and whether the generation goes on. -/
def plainRun (srv : ServerCtx) : EmitSlot → List TokenOutput → EmitSlot × Nat × Bool
  | slot, [] => (slot, 0, true)
  | slot, t :: ts =>
    let (slot, next) := processToken srv
      { slot with nDecoded := slot.nDecoded + 1, nPast := slot.nPast + 1 } t
    if next then
      let (slot, n, next) := plainRun srv slot ts
      (slot, n + 1, next)
    else (slot, 1, false)

/-- The emit loop of `speculative_decoding_accept`. -/
def emitLoop (srv : ServerCtx) : EmitSlot → List TokenOutput → EmitSlot × Bool
  | slot, [] => (slot, true)
  | slot, t :: ts =>
    let (slot, next) := processToken srv slot t
    if next then emitLoop srv slot ts else (slot, false)

/-- The speculative path: the tokens of a group are counted, and then emitted. -/
def specRun (srv : ServerCtx) : EmitSlot → List (List TokenOutput) → EmitSlot × Bool
  | slot, [] => (slot, true)
  | slot, ids :: groups =>
    let (slot, next) := emitLoop srv
      { slot with nDecoded := slot.nDecoded + ids.length, nPast := slot.nPast + ids.length } ids
    if next then specRun srv slot groups else (slot, false)

end PxqLlama.Server
