import PxqLlama.Lib.BlockStream
import PxqLlama.Server.Emit

/-!
# `Server.Anthropic`: the event stream of a chat response

While a slot generates, each token makes a partial response. `updateChatMsg` parses the text so far
into a message and `computeDiffs` says what the message has more than the last one.
`toJsonAnthropicPartial` turns these diffs into events of the Anthropic stream, and
`toJsonAnthropicStream` those of the final response, with the events that end the stream. Both
derive the index of a block from which blocks have begun, each in its own way.

What `common_chat_parse` makes of a text comes with the token (`Token.parsed`). `filter_tool_calls`
is off in every call. Exceptions are `none`. Left out of the events are timings and debug output.
-/

namespace PxqLlama.Server.Anthropic

/-! ### Messages and their differences -/

/-- `common_chat_tool_call`. -/
structure ToolCall where
  name : Bytes := []
  arguments : Bytes := []
  id : Bytes := []
deriving DecidableEq, Repr

/-- `common_chat_msg`. -/
structure ChatMsg where
  content : Bytes := []
  contentParts : List (Bytes × Bytes) := []
  toolCalls : List ToolCall := []
  reasoningContent : Bytes := []
  toolName : Bytes := []
  toolCallId : Bytes := []
deriving DecidableEq, Repr

def ChatMsg.empty (msg : ChatMsg) : Bool :=
  msg.content = [] && msg.contentParts = [] && msg.toolCalls = [] && msg.reasoningContent = [] &&
    msg.toolName = [] && msg.toolCallId = []

/-- `common_chat_msg_diff`; no `toolCallIndex` is `npos`. -/
structure MsgDiff where
  reasoningContentDelta : Bytes := []
  contentDelta : Bytes := []
  toolCallIndex : Option Nat := none
  toolCallDelta : ToolCall := {}
deriving DecidableEq, Repr

/-- `string_diff`. -/
def stringDiff (last current : Bytes) : Option Bytes :=
  if last = [] then some current
  else if last.isPrefixOf current then some (current.drop last.length)
  -- the last text ended on a part of a stop word that is erased now
  else if current.isPrefixOf last then some []
  else none

/-- The diff of a text of the message, when it has changed. -/
def textDiffs (prv new : Bytes) (diff : Bytes → MsgDiff) : Option (List MsgDiff) :=
  if prv = new then some [] else (stringDiff prv new).map fun delta => [diff delta]

/-- Whether the name of a call may change: it is found, is lost, or grows. -/
def nameGrows (pref newf : ToolCall) : Bool :=
  pref.name = newf.name || pref.name = [] || newf.name = [] || pref.name.isPrefixOf newf.name

/-- The diff of the last call of the old message: its arguments may have grown. -/
def lastCallDiffs (prv new : ChatMsg) : Option (List MsgDiff) :=
  if prv.toolCalls = [] then some []
  else
    let idx := prv.toolCalls.length - 1
    let pref := prv.toolCalls.getD idx {}
    let newf := new.toolCalls.getD idx {}
    if nameGrows pref newf then
      (stringDiff pref.arguments newf.arguments).map fun argsDiff =>
        let renamed := pref.id ≠ newf.id ∨ pref.name ≠ newf.name
        if argsDiff ≠ [] ∨ renamed then
          [{ toolCallIndex := some idx
             toolCallDelta :=
               { arguments := argsDiff
                 id := if renamed then newf.id else []
                 name := if renamed then newf.name else [] } }]
        else []
    else none

/-- The diffs of the calls that the old message does not have. -/
def newCallDiffs (prv new : ChatMsg) : List MsgDiff :=
  (List.range' prv.toolCalls.length (new.toolCalls.length - prv.toolCalls.length)).map fun idx =>
    { toolCallIndex := some idx, toolCallDelta := new.toolCalls.getD idx {} }

/-- `compute_diffs`. -/
def computeDiffs (prv new : ChatMsg) : Option (List MsgDiff) := do
  let reasoning ← textDiffs prv.reasoningContent new.reasoningContent
    fun delta => { reasoningContentDelta := delta }
  let content ← textDiffs prv.content new.content fun delta => { contentDelta := delta }
  guard (prv.toolCalls.length ≤ new.toolCalls.length)
  let last ← lastCallDiffs prv new
  return reasoning ++ content ++ last ++ newCallDiffs prv new

/-! ### Results -/

/-- What the events say about the request. -/
structure StreamInfo where
  oaicompatCmplId : Bytes := []
  oaicompatModel : Bytes := []
  nPromptTokens : Int := 0
  nPromptTokensCache : Int := 0
deriving DecidableEq, Repr

/-- Which blocks have begun: `anthropic_thinking_block_started` and
`anthropic_text_block_started`. -/
structure Started where
  thinking : Bool := false
  text : Bool := false
deriving DecidableEq, Repr

/-- The flags after a diff. -/
def Started.update (started : Started) (diff : MsgDiff) : Started where
  thinking := started.thinking || diff.reasoningContentDelta ≠ []
  text := started.text || diff.contentDelta ≠ []

/-- `server_task_result_cmpl_partial`. -/
structure PartialResult where
  info : StreamInfo
  nDecoded : Nat
  oaicompatMsgDiffs : List MsgDiff
  anthropicHasReasoning : Bool
  started : Started
deriving DecidableEq, Repr

/-- `server_task_result_cmpl_final`. -/
structure FinalResult where
  oaicompatMsg : ChatMsg
  oaicompatMsgDiffs : List MsgDiff
  started : Started
  nDecoded : Nat
  stopKind : StopType
  stoppingWord : Bytes
deriving DecidableEq, Repr

/-! ### Events -/

/-- A content block of the response. Calls are told apart by their place in the message. -/
inductive Block
  | thinking
  | text
  | toolUse (call : Nat)
deriving DecidableEq, Repr

/-- `content_block` of a start event. -/
inductive ContentBlock
  | thinking
  | text
  | toolUse (id name : Bytes)
deriving DecidableEq, Repr

/-- `delta` of a delta event. -/
inductive BlockDelta
  | thinkingDelta (thinking : Bytes)
  | signatureDelta (signature : Bytes)
  | textDelta (text : Bytes)
  | inputJsonDelta (partialJson : Bytes)
deriving DecidableEq, Repr

/-- The events of the stream. The `block` of an event is the one that the serializer means; a
client only sees the index. -/
inductive Event
  | messageStart (info : StreamInfo)
  | contentBlockStart (index : Nat) (block : Block) (contentBlock : ContentBlock)
  | contentBlockDelta (index : Nat) (block : Block) (delta : BlockDelta)
  | contentBlockStop (index : Nat) (block : Block)
  | messageDelta (stopReason : String) (stopSequence : Option Bytes) (outputTokens : Nat)
  | messageStop
deriving DecidableEq, Repr

/-- The events of a reasoning delta; both serializers have this code. -/
def thinkingEvents (started : Bool) (index : Nat) (diff : MsgDiff) : List Event :=
  if diff.reasoningContentDelta = [] then []
  else
    (if started then [] else [.contentBlockStart index .thinking .thinking]) ++
      [.contentBlockDelta index .thinking (.thinkingDelta diff.reasoningContentDelta)]

/-- The events of a content delta; both serializers have this code. -/
def textEvents (started : Bool) (index : Nat) (diff : MsgDiff) : List Event :=
  if diff.contentDelta = [] then []
  else
    (if started then [] else [.contentBlockStart index .text .text]) ++
      [.contentBlockDelta index .text (.textDelta diff.contentDelta)]

/-- The event of new arguments of a call; both serializers have this code. -/
def argumentEvents (index call : Nat) (diff : MsgDiff) : List Event :=
  if diff.toolCallDelta.arguments = [] then []
  else
    [.contentBlockDelta index (.toolUse call) (.inputJsonDelta diff.toolCallDelta.arguments)]

/-- The loop over the diffs that both serializers have. They differ in the events of a diff of a
call, which may depend on the calls that had diffs before, and in what follows the loop. -/
def diffEvents (textIndex : Nat) (callEvents : Started → List Nat → Nat → MsgDiff → List Event)
    (after : Started → List Event) : Started → List Nat → List MsgDiff → List Event
  | started, _, [] => after started
  | started, calls, diff :: diffs =>
    let started' := started.update diff
    thinkingEvents started.thinking 0 diff ++ textEvents started.text textIndex diff ++
      (match diff.toolCallIndex with
        | none => []
        | some call => callEvents started' calls call diff) ++
      diffEvents textIndex callEvents after started' (diff.toolCallIndex.toList ++ calls) diffs

/-- A diff of a call in a partial response begins the block when it has a name. -/
def partialCallEvents (hasReasoning : Bool) (started : Started) (_calls : List Nat) (call : Nat)
    (diff : MsgDiff) : List Event :=
  let index := hasReasoning.toNat + started.text.toNat + call
  (if diff.toolCallDelta.name = [] then []
    else
      [.contentBlockStart index (.toolUse call)
        (.toolUse diff.toolCallDelta.id diff.toolCallDelta.name)]) ++
    argumentEvents index call diff

/-- `to_json_anthropic_partial`. -/
def toJsonAnthropicPartial (res : PartialResult) : List Event :=
  (if res.nDecoded = 1 then [.messageStart res.info] else []) ++
    diffEvents res.anthropicHasReasoning.toNat (partialCallEvents res.anthropicHasReasoning)
      (fun _ => []) res.started [] res.oaicompatMsgDiffs

/-- A diff of a call in the final response begins the block when it is the first one there. -/
def finalCallEvents (msg : ChatMsg) (started : Started) (calls : List Nat) (call : Nat)
    (diff : MsgDiff) : List Event :=
  let index := started.thinking.toNat + started.text.toNat + call
  let fullToolCall := msg.toolCalls.getD call {}
  (if call ∈ calls then []
    else
      [.contentBlockStart index (.toolUse call) (.toolUse fullToolCall.id fullToolCall.name)]) ++
    argumentEvents index call diff

/-- `stop_reason` of the final response. -/
def stopReason (res : FinalResult) : String :=
  match res.stopKind with
  | .word | .eos => if res.oaicompatMsg.toolCalls = [] then "end_turn" else "tool_use"
  | .none | .limit => "max_tokens"

/-- The end of the stream: the blocks are closed, and the message. -/
def closingEvents (res : FinalResult) (textIndex : Nat) (started : Started) : List Event :=
  (if started.thinking then
      [.contentBlockDelta 0 .thinking (.signatureDelta []), .contentBlockStop 0 .thinking]
    else []) ++
    (if started.text then [.contentBlockStop textIndex .text] else []) ++
    (List.range res.oaicompatMsg.toolCalls.length).map (fun call =>
      .contentBlockStop (started.thinking.toNat + started.text.toNat + call) (.toolUse call)) ++
    [.messageDelta (stopReason res)
        (if res.stoppingWord = [] then none else some res.stoppingWord) res.nDecoded,
      .messageStop]

/-- `to_json_anthropic_stream`. -/
def toJsonAnthropicStream (res : FinalResult) : List Event :=
  let textIndex := res.started.thinking.toNat
  diffEvents textIndex (finalCallEvents res.oaicompatMsg) (closingEvents res textIndex) res.started
    [] res.oaicompatMsgDiffs

/-- All events of a request, as the client gets them. -/
def anthropicEvents (partials : List PartialResult) (final : FinalResult) : List Event :=
  partials.flatMap toJsonAnthropicPartial ++ toJsonAnthropicStream final

/-! ### The slot -/

/-- `PXA_CHATPARSE_EVERY`, the generator of call ids, and the request. -/
structure ChatConfig where
  chatparseEvery : Nat := 1
  genToolCallId : Nat → Bytes
  info : StreamInfo

/-- What a slot keeps for the stream, as `reset` leaves it. -/
structure ChatSlot where
  chatMsg : ChatMsg := {}
  generatedToolCallIds : List Bytes := []
  chatParseThrottle : Nat := 0
  stop : StopType := .none
  started : Started := {}
  nDecoded : Nat := 0
deriving DecidableEq, Repr

/-- A sampled token: the generated text with its piece, that text without a stop word, and what
the parser makes of it (nothing when it throws). -/
structure Token where
  text : Bytes
  generatedText : Bytes
  parsed : Option ChatMsg
deriving DecidableEq, Repr

/-- `set_tool_call_ids`, from call `i` on: a call keeps the id it was first seen with. -/
def setToolCallIds (gen : Nat → Bytes) : Nat → List Bytes → List ToolCall →
    List ToolCall × List Bytes
  | _, ids, [] => ([], ids)
  | i, ids, call :: calls =>
    let ids := if ids.length ≤ i then ids ++ [if call.id = [] then gen i else call.id] else ids
    let rest := setToolCallIds gen (i + 1) ids calls
    ({ call with id := ids.getD i [] } :: rest.1, rest.2)

/-- The parsed message; a text that the parser does not take is delivered as content. -/
def parsedMsg (slot : ChatSlot) (token : Token) : ChatMsg :=
  token.parsed.getD { slot.chatMsg with content := token.generatedText }

/-- `update_chat_msg`, behind the throttle. -/
def applyChatMsg (cfg : ChatConfig) (slot : ChatSlot) (token : Token) :
    Option (ChatSlot × List MsgDiff) :=
  let msg := parsedMsg slot token
  if msg.empty then some (slot, [])
  else
    let ids := setToolCallIds cfg.genToolCallId 0 slot.generatedToolCallIds msg.toolCalls
    let new := { msg with toolCalls := ids.1 }
    (computeDiffs slot.chatMsg new).map fun diffs =>
      ({ slot with chatMsg := new, generatedToolCallIds := ids.2 }, diffs)

/-- `update_chat_msg`. -/
def updateChatMsg (cfg : ChatConfig) (slot : ChatSlot) (isPartial : Bool) (token : Token) :
    Option (ChatSlot × List MsgDiff) :=
  if isPartial ∧ slot.stop ≠ .eos ∧ 1 < cfg.chatparseEvery then
    let slot := { slot with chatParseThrottle := slot.chatParseThrottle + 1 }
    if slot.chatParseThrottle % cfg.chatparseEvery ≠ 0 then some (slot, [])
    else applyChatMsg cfg slot token
  else applyChatMsg cfg slot token

/-- `send_partial_response`: the result has the flags from before its diffs. -/
def sendPartialResponse (cfg : ChatConfig) (slot : ChatSlot) (token : Token) :
    Option (ChatSlot × PartialResult) :=
  (updateChatMsg cfg slot true token).map fun (slot, diffs) =>
    ({ slot with started := diffs.foldl Started.update slot.started },
      { -- `n_prompt_tokens_cache` is not copied
        info := { cfg.info with nPromptTokensCache := 0 }
        nDecoded := slot.nDecoded
        oaicompatMsgDiffs := diffs
        anthropicHasReasoning := slot.chatMsg.reasoningContent ≠ []
        started := slot.started })

/-- `send_final_response`; `stopping_word` is not copied. -/
def sendFinalResponse (cfg : ChatConfig) (slot : ChatSlot) (stopKind : StopType) (token : Token) :
    Option FinalResult :=
  (updateChatMsg cfg slot false token).map fun (slot, diffs) =>
    { oaicompatMsg := slot.chatMsg
      oaicompatMsgDiffs := diffs
      started := slot.started
      nDecoded := slot.nDecoded
      stopKind
      stoppingWord := [] }

/-! ### Generations -/

/-- The text ends in a character that is cut off; `process_token` sends nothing then. -/
def Token.incomplete (token : Token) : Bool := validateUtf8 token.text < token.text.length

/-- What a slot does for its stream. It counts the tokens that it samples; with banned strings
(`n_buffer > 0`) they wait in `token_buffer`, and those that the slot rewinds are taken off the
count when `saturate_predict` is set, down to zero. `process_token` takes them one by one. -/
inductive SlotStep
  | sampled (n : Nat)
  | rewound (n : Nat)
  | token (token : Token)
deriving DecidableEq, Repr

/-- The steps of a slot, of a streaming request. -/
def processSteps (cfg : ChatConfig) : ChatSlot → List SlotStep →
    Option (ChatSlot × List PartialResult)
  | slot, [] => some (slot, [])
  | slot, .sampled n :: steps =>
    processSteps cfg { slot with nDecoded := slot.nDecoded + n } steps
  | slot, .rewound n :: steps =>
    processSteps cfg { slot with nDecoded := slot.nDecoded - n } steps
  | slot, .token token :: steps =>
    if token.incomplete then processSteps cfg slot steps
    else do
      let (slot, res) ← sendPartialResponse cfg slot token
      let (slot, rest) ← processSteps cfg slot steps
      return (slot, res :: rest)

/-- A generation: any steps in any order. `last` is the text at its end. -/
structure Generation where
  steps : List SlotStep
  stopKind : StopType
  last : Token

/-- The responses of a generation in a slot that was reset. -/
def Generation.results (gen : Generation) (cfg : ChatConfig) :
    Option (List PartialResult × FinalResult) := do
  let (slot, partials) ← processSteps cfg {} gen.steps
  let final ← sendFinalResponse cfg slot gen.stopKind gen.last
  return (partials, final)

/-! ### The stream -/

def Event.isMessageStart : Event → Bool
  | .messageStart _ => true
  | _ => false

/-- The place of an event in its block. -/
def Event.piece : Event → Option (BlockStream.Piece Block)
  | .contentBlockStart index block _ => some ⟨.start, index, block⟩
  | .contentBlockDelta index block _ => some ⟨.delta, index, block⟩
  | .contentBlockStop index block => some ⟨.stop, index, block⟩
  | .messageStart _ | .messageDelta _ _ _ | .messageStop => none

def pieces (events : List Event) : List (BlockStream.Piece Block) :=
  events.filterMap Event.piece

/-- The message starts once and first, stops once and last, and its blocks can be taken apart. -/
structure WellFormedStream (events : List Event) : Prop where
  start : ∃ event rest, events = event :: rest ∧ event.isMessageStart ∧
    ∀ event ∈ rest, event.isMessageStart = false
  stop : ∃ front, events = front ++ [.messageStop] ∧ .messageStop ∉ front
  blocks : BlockStream.WellBlocked (pieces events)

/-! ### When the stream is well formed -/

/-- The counts at which the slot processes a token that does not end in a cut character. -/
def sentAt : Nat → List SlotStep → List Nat
  | _, [] => []
  | nDecoded, .sampled n :: steps => sentAt (nDecoded + n) steps
  | nDecoded, .rewound n :: steps => sentAt (nDecoded - n) steps
  | nDecoded, .token token :: steps =>
    if token.incomplete then sentAt nDecoded steps else nDecoded :: sentAt nDecoded steps

/-- The diffs have new reasoning. -/
def sendsReasoning (diffs : List MsgDiff) : Bool := diffs.any (·.reasoningContentDelta ≠ [])

/-- The diffs have new content. -/
def sendsContent (diffs : List MsgDiff) : Bool := diffs.any (·.contentDelta ≠ [])

/-- The diff names a call or has arguments of it. -/
def MsgDiff.speaksOf (diff : MsgDiff) (call : Nat) : Bool :=
  diff.toolCallIndex = some call &&
    (diff.toolCallDelta.name ≠ [] || diff.toolCallDelta.arguments ≠ [])

/-- The diffs of a call. -/
def diffsOf (call : Nat) (diffs : List MsgDiff) : List MsgDiff :=
  diffs.filter (·.toolCallIndex = some call)

/-- The response has nothing for the client but the start of the message. -/
def PartialResult.SaysNothing (res : PartialResult) : Prop :=
  sendsReasoning res.oaicompatMsgDiffs = false ∧ sendsContent res.oaicompatMsgDiffs = false ∧
    ∀ diff ∈ res.oaicompatMsgDiffs, ∀ call, ¬ diff.speaksOf call

/-- One response is sent when the slot has counted one token, and those before it say nothing. -/
def Generation.Opens (gen : Generation) (partials : List PartialResult) : Prop :=
  ∃ before after, sentAt 0 gen.steps = before ++ 1 :: after ∧ 1 ∉ before ∧ 1 ∉ after ∧
    ∀ res ∈ partials.take before.length, res.SaysNothing

/-- A call is announced by the final response alone. Or a partial response says its name before
any arguments, no later one does, and the final response adds nothing to it. -/
def AnnouncedOnce (call : Nat) (partials : List PartialResult) (final : FinalResult) : Prop :=
  let sent := diffsOf call (partials.flatMap (·.oaicompatMsgDiffs))
  let atEnd := diffsOf call final.oaicompatMsgDiffs
  ((∀ diff ∈ sent, ¬ diff.speaksOf call) ∧ atEnd ≠ []) ∨
    (∃ quiet diff rest, sent = quiet ++ diff :: rest ∧ (∀ d ∈ quiet, ¬ d.speaksOf call) ∧
      diff.toolCallDelta.name ≠ [] ∧ ∀ d ∈ rest, d.toolCallDelta.name = []) ∧ atEnd = []

/-- Some response of the stream has new reasoning. -/
def anyReasoning (partials : List PartialResult) (final : FinalResult) : Bool :=
  partials.any (sendsReasoning ·.oaicompatMsgDiffs) || sendsReasoning final.oaicompatMsgDiffs

/-- Some response of the stream has new content. -/
def anyContent (partials : List PartialResult) (final : FinalResult) : Bool :=
  partials.any (sendsContent ·.oaicompatMsgDiffs) || sendsContent final.oaicompatMsgDiffs

/-- The splits of a message that the two serializers handle. One response is sent at the first
token that is counted, and none before it says anything. Reasoning is there when content or a call
is, or never comes; in the final response it is not enough that it comes with the content. Content
has begun when a call has, or never does. Each call is announced once. -/
structure Streamable (gen : Generation) (partials : List PartialResult) (final : FinalResult) :
    Prop where
  opens : gen.Opens partials
  content : ∀ res ∈ partials, sendsContent res.oaicompatMsgDiffs →
    res.anthropicHasReasoning = anyReasoning partials final
  contentAtEnd : sendsContent final.oaicompatMsgDiffs →
    partials.any (sendsReasoning ·.oaicompatMsgDiffs) = anyReasoning partials final
  calls : ∀ before res after, partials = before ++ res :: after →
    (∃ diff ∈ res.oaicompatMsgDiffs, ∃ call, diff.speaksOf call) →
      res.anthropicHasReasoning = anyReasoning partials final ∧
        (before ++ [res]).any (sendsContent ·.oaicompatMsgDiffs) = anyContent partials final
  announced : ∀ call < final.oaicompatMsg.toolCalls.length, AnnouncedOnce call partials final

end PxqLlama.Server.Anthropic
