import Mathlib.Algebra.Group.Int.Defs
import Mathlib.Algebra.Group.Nat.Defs
import Mathlib.Data.Finset.Insert
import PxqLlama.Lib.Attempt
import PxqLlama.Server.Emit
import PxqLlama.Server.Json

/-!
# `Server.LaunchSlot`: the settings of a request

A slot serves one request after another. `launchSlotWithTask` reads the settings of a request from
the JSON of its task into the slot. Each setting has its own rule: always, only when its key is
there, only when the value is not empty, or from a table that the slot keeps. A setting that is not
written keeps what the slot has, and a launch that throws leaves what it has written
(`Lib.Attempt`). `reset` runs before each launch and clears some of them.

`TaskData` has for each key what `data.find` gives. Left open are tokenizing, the grammar of a JSON
schema, names of samplers, the text of expiring biases, the tables of biases, and the checks of the
settings that are not here (`Check`). `F` is the type of floats, `E` of the entries of an expiring
bias, `T` of the tables made from them.
-/

namespace PxqLlama.Server.Launch

/-! ### JSON -/

/-- A value of the JSON of a request. -/
abbrev Json (F : Type) := Server.Json Bytes F

namespace Json

variable {F : Type}

/-- `get<int32_t>`: an integer is cut to 32 bits. -/
def getInt32 (truncate : F → Int) : Json F → Option Int
  | .int n => some (n.bmod (2 ^ 32))
  | .float x => some (truncate x)
  | .bool b => some b.toNat
  | _ => none

/-- `get<std::vector<std::string>>`. -/
def getStrs : Json F → Option (List Bytes)
  | .arr xs => xs.mapM Server.Json.asStr
  | _ => none

/-- `at`. -/
def get (key : Bytes) : Json F → Option (Json F)
  | .obj kvs => (kvs.find? (·.1 = key)).map Prod.snd
  | _ => none

end Json

/-- `json_value`: null and a wrong type give the default. -/
def jsonValue {F α : Type} (get : Json F → Option α) (value : Option (Json F)) (default : α) : α :=
  match value with
  | none | some .null => default
  | some v => (get v).getD default

/-- `strtol` with base 10: the number, and the text after it. -/
def strtol (s : Bytes) : Int × Bytes :=
  let t := s.dropWhile fun c => c = 32 || (9 ≤ c && c ≤ 13)
  let negative := t.head? = some 45
  let u := if negative ∨ t.head? = some 43 then t.tail else t
  let digits := u.takeWhile fun c => 48 ≤ c && c ≤ 57
  if digits = [] then (0, s)
  else
    let n : Int := digits.foldl (fun n c => n * 10 + (c.toNat - 48)) 0
    (max (-2 ^ 63) (min (2 ^ 63 - 1) (if negative then -n else n)),
      u.dropWhile fun c => 48 ≤ c && c ≤ 57)

/-! ### The data of a task -/

/-- The keys of `task.data` that are read here. -/
structure TaskData (F : Type) where
  nKeep : Option (Json F) := none
  drySequenceBreakers : Option (Json F) := none
  jsonSchema : Option (Json F) := none
  grammar : Option (Json F) := none
  grammarType : Option (Json F) := none
  grammarLazy : Option (Json F) := none
  preservedTokens : Option (Json F) := none
  grammarTriggers : Option (Json F) := none
  reasoningBudgetStartTag : Option (Json F) := none
  reasoningBudgetEndTag : Option (Json F) := none
  reasoningBudgetMessage : Option (Json F) := none
  logitBias : Option (Json F) := none
  ignoreEos : Option (Json F) := none
  bannedStrings : Option (Json F) := none
  allowlistPieceArray : Option (Json F) := none
  stop : Option (Json F) := none
  samplers : Option (Json F) := none
  expiringLogitBias : Option (Json F) := none

/-- Groups of checks on keys that are not read here. -/
inductive Check
  | speculative
  | chatFormat
  | banRegex
deriving DecidableEq

/-- A task, with what the checks of its other keys say. -/
structure Task (F : Type) where
  data : TaskData F
  passes : Check → Bool

/-! ### Settings -/

/-- `common_grammar_type`. -/
inductive GrammarType
  | none
  | user
  | outputFormat
  | toolCalls
deriving DecidableEq

/-- `common_grammar`. -/
structure Grammar where
  type : GrammarType := .none
  grammar : Bytes := []
deriving DecidableEq

/-- `common_grammar_trigger_type`. -/
inductive TriggerType
  | token
  | word
  | pattern
  | patternFull
deriving DecidableEq

/-- `common_grammar_trigger`. -/
structure Trigger where
  type : TriggerType
  value : Bytes
  token : Int := -1
deriving DecidableEq

/-- `elb_param`: the biases until an exit word. -/
structure ElbParam (E : Type) where
  entries : List E := []
  exitword : Bytes := []
  op : Bytes := []
deriving DecidableEq

/-- `elb_state`. -/
structure ElbState (T : Type) where
  table : T
  countup : Nat := 0
deriving DecidableEq

/-- A rule of the allowlist: a range of code points, a script, a bias. -/
structure AllowRule (F : Type) where
  first : UInt32
  last : UInt32
  script : Bytes
  bias : F
deriving DecidableEq

/-- `common_params_sampling`, as far as it is used here. `logitBias` is a map. -/
structure Sparams (F E : Type) where
  drySequenceBreakers : List Bytes
  grammar : Grammar := {}
  grammarLazy : Bool := false
  preservedTokens : Finset Int := ∅
  grammarTriggers : List Trigger := []
  reasoningBudgetStart : List Int := []
  reasoningBudgetEnd : List Int := []
  reasoningBudgetForced : List Int := []
  logitBias : Int → Option F := fun _ => none
  samplersSequence : List Nat := []
  elbParams : List (ElbParam E) := []

/-- A slot, as far as the settings go. `elbStates` is the one of `ctx_sampling`. -/
structure Slot (F E T : Type) where
  nKeep : Int := 0
  antiprompt : List Bytes := []
  sparams : Sparams F E
  banPhrases : List Bytes := []
  allowRulessPrev : List (List (AllowRule F)) := []
  allowBiasess : List (List F) := []
  elbStates : List (ElbState T) := []
  prevElbStates : List (ElbState T) := []

/-- `params_base.ban_phrases` and `params_base.n_buffer`, which the first launch prepares. -/
structure BanParams where
  phrases : List Bytes
  nBuffer : Nat := 0
deriving DecidableEq

/-- What a launch reads and writes. -/
structure State (F E T : Type) where
  slot : Slot F E T
  ban : BanParams

/-! ### The server -/

/-- A line of the text of expiring biases. -/
inductive ElbLine (E : Type)
  | clear
  | entry (nested : Bool) (e : E)
  | exit (exitword : Bytes) (op : Option Bytes)

/-- `server_context`: the server as it was started, with the model it serves. -/
structure ServerContext (F E T : Type) where
  sparams : Sparams F E
  banPhrases : List Bytes
  allowRuless : List (List (AllowRule F))
  allowPieces : List Bytes
  allowKws : List Bytes
  nVocab : Int
  hasEosToken : Bool
  tokenEos : Int
  negInf : F
  ofInt : Int → F
  truncate : F → Int
  tokenize : Bytes → (parseSpecial : Bool) → List Int
  jsonSchemaToGrammar : Option (Json F) → Option Bytes
  samplingTypesFromNames : List Bytes → List Nat
  samplingTypesFromChars : Bytes → List Nat
  parseElb : Bytes → Option (List (ElbLine E))
  elbTables : List (ElbParam E) → List T
  ruleBiases : List (AllowRule F) → List F
  maxBias : List (AllowRule F) → F
  sortByLength : List Bytes → List Bytes
  samplerInit : Task F → Sparams F E → Bool
  /-- The file of banned strings is read without empty lines. -/
  banPhrases_ne : ∀ phrase ∈ banPhrases, phrase ≠ []
  sortByLength_perm : ∀ l, (sortByLength l).Perm l

section

variable {F E T : Type}

/-- A new slot, before any request. -/
def ServerContext.start (srv : ServerContext F E T) : State F E T where
  slot := { sparams := srv.sparams }
  ban := { phrases := srv.banPhrases }

/-- `reset`. -/
def reset (s : State F E T) : State F E T :=
  { s with slot := { s.slot with banPhrases := [] } }

/-! ### The stages of a launch -/

/-- The checks on other keys. -/
def require (task : Task F) (check : Check) (s : State F E T) : Except (State F E T) (State F E T) :=
  if task.passes check then .ok s else .error s

/-- `n_keep`: the default is what the slot has. -/
def setNKeep (srv : ServerContext F E T) (data : TaskData F) (s : State F E T) : State F E T :=
  { s with
    slot.nKeep := jsonValue (Json.getInt32 srv.truncate) data.nKeep s.slot.nKeep }

def setDrySequenceBreakers (data : TaskData F) (s : State F E T) :
    Except (State F E T) (State F E T) :=
  match data.drySequenceBreakers with
  | none => .ok s
  | some v =>
    let breakers := jsonValue Json.getStrs (some v) []
    let s := { s with slot.sparams.drySequenceBreakers := breakers }
    if breakers = [] then .error s else .ok s

/-- The grammar that the task asks for, when it is not from a schema. -/
def requestGrammar (srv : ServerContext F E T) (data : TaskData F) : Grammar :=
  let text := jsonValue Json.asStr data.grammar []
  if text = [] then srv.sparams.grammar
  -- "tool_calls"
  else if jsonValue Json.asStr data.grammarType [] =
      [116, 111, 111, 108, 95, 99, 97, 108, 108, 115] then ⟨.toolCalls, text⟩
  else ⟨.user, text⟩

/-- A schema is used when there is no grammar; `grammar_lazy` is not read then. -/
def setGrammar (srv : ServerContext F E T) (data : TaskData F) (s : State F E T) :
    Except (State F E T) (State F E T) :=
  if data.jsonSchema.isSome ∧ data.grammar.isNone then
    match srv.jsonSchemaToGrammar data.jsonSchema with
    | none => .error s
    | some text => .ok { s with slot.sparams.grammar := ⟨.outputFormat, text⟩ }
  else
    .ok { s with
      slot.sparams.grammar := requestGrammar srv data
      slot.sparams.grammarLazy :=
        jsonValue Json.asBool data.grammarLazy srv.sparams.grammarLazy }

/-- Adds a preserved token, unless its text has several. -/
def addPreserved (srv : ServerContext F E T) (s : State F E T) (t : Json F) :
    Except (State F E T) (State F E T) :=
  match t.asStr with
  | none => .error s
  | some text =>
    match srv.tokenize text true with
    | [id] =>
      .ok { s with slot.sparams.preservedTokens := insert id s.slot.sparams.preservedTokens }
    | _ => .ok s

def setPreservedTokens (srv : ServerContext F E T) (data : TaskData F) (s : State F E T) :
    Except (State F E T) (State F E T) :=
  match data.preservedTokens with
  | none => .ok s
  | some v => v.elements.foldlM (addPreserved srv) { s with slot.sparams.preservedTokens := ∅ }

/-- The trigger that is made of a JSON value; a word of one token is a token. -/
def triggerOf (srv : ServerContext F E T) (t : Json F) : Option Trigger := do
  -- "type" and "value"
  let type ← (← t.get [116, 121, 112, 101]).getInt32 srv.truncate
  let value ← (← t.get [118, 97, 108, 117, 101]).asStr
  match type with
  | 1 =>
    match srv.tokenize value true with
    | [id] => some ⟨.token, value, id⟩
    | _ => some ⟨.word, value, -1⟩
  | 2 => some ⟨.pattern, value, -1⟩
  | 3 => some ⟨.patternFull, value, -1⟩
  | _ => none

def addTrigger (srv : ServerContext F E T) (s : State F E T) (t : Json F) :
    Except (State F E T) (State F E T) :=
  match triggerOf srv t with
  | none => .error s
  | some trigger =>
    -- the token of a trigger word should be marked as preserved
    if trigger.type = .token ∧ trigger.token ∉ s.slot.sparams.preservedTokens then .error s
    else
      .ok { s with slot.sparams.grammarTriggers := s.slot.sparams.grammarTriggers ++ [trigger] }

def setGrammarTriggers (srv : ServerContext F E T) (data : TaskData F) (s : State F E T) :
    Except (State F E T) (State F E T) :=
  match data.grammarTriggers with
  | none => .ok s
  | some v => v.elements.foldlM (addTrigger srv) { s with slot.sparams.grammarTriggers := [] }

/-- A lazy grammar needs a trigger. -/
def requireTriggers (s : State F E T) : Except (State F E T) (State F E T) :=
  if s.slot.sparams.grammarLazy ∧ s.slot.sparams.grammarTriggers = [] then .error s else .ok s

/-- The tags are only taken when they are not empty. -/
def setReasoningBudget (srv : ServerContext F E T) (data : TaskData F) (s : State F E T) :
    State F E T :=
  let startTag := jsonValue Json.asStr data.reasoningBudgetStartTag []
  let endTag := jsonValue Json.asStr data.reasoningBudgetEndTag []
  let message := jsonValue Json.asStr data.reasoningBudgetMessage []
  { s with
    slot.sparams.reasoningBudgetStart :=
      if startTag = [] then s.slot.sparams.reasoningBudgetStart else srv.tokenize startTag true
    slot.sparams.reasoningBudgetEnd :=
      if endTag = [] then s.slot.sparams.reasoningBudgetEnd else srv.tokenize endTag true
    slot.sparams.reasoningBudgetForced :=
      if endTag = [] then s.slot.sparams.reasoningBudgetForced
      else srv.tokenize (message ++ endTag) true }

/-- The bias that a JSON value stands for; `false` bans. -/
def biasOf (srv : ServerContext F E T) : Json F → Option F
  | .int n => some (srv.ofInt n)
  | .float x => some x
  | .bool false => some srv.negInf
  | _ => none

/-- A token of the vocabulary. -/
def vocabToken (srv : ServerContext F E T) (token : Int) : List Int :=
  if 0 ≤ token ∧ token < srv.nVocab then [token] else []

def setBiases (tokens : List Int) (bias : F) (map : Int → Option F) : Int → Option F :=
  fun token => if token ∈ tokens then some bias else map token

/-- An element `[token or text, bias]`. -/
def biasOfElement (srv : ServerContext F E T) (map : Int → Option F) : Json F → Int → Option F
  | .arr [key, value] =>
    match biasOf srv value with
    | none => map
    | some bias =>
      match key with
      | .int n => setBiases (vocabToken srv (n.bmod (2 ^ 32))) bias map
      | .str text => setBiases (srv.tokenize text false) bias map
      | _ => map
  | _ => map

/-- An item `"token or text": bias`. -/
def biasOfItem (srv : ServerContext F E T) (map : Int → Option F) (item : Bytes × Json F) :
    Int → Option F :=
  match biasOf srv item.2 with
  | none => map
  | some bias =>
    let number := strtol item.1
    if number.2 = [] then setBiases (vocabToken srv (number.1.bmod (2 ^ 32))) bias map
    else setBiases (srv.tokenize item.1 false) bias map

/-- The biases of the task are set in an empty map; without any, the old ones stay. -/
def requestBiases (srv : ServerContext F E T) (data : TaskData F) (old : Int → Option F) :
    Int → Option F :=
  match data.logitBias with
  | some (.arr xs) => xs.foldl (biasOfElement srv) fun _ => none
  | some (.obj kvs) => kvs.foldl (biasOfItem srv) fun _ => none
  | _ => old

def ignoresEos (srv : ServerContext F E T) (data : TaskData F) : Bool :=
  jsonValue Json.asBool data.ignoreEos false && srv.hasEosToken

def setLogitBias (srv : ServerContext F E T) (data : TaskData F) (s : State F E T) : State F E T :=
  let biases := requestBiases srv data s.slot.sparams.logitBias
  { s with
    slot.sparams.logitBias :=
      if ignoresEos srv data then setBiases [srv.tokenEos] srv.negInf biases else biases }

/-- The strings of the startup list; the first use prepares the list. -/
def usePhrases (srv : ServerContext F E T) (ban : BanParams) : List Bytes × BanParams :=
  if ban.phrases = [] then ([], ban)
  else if ban.nBuffer = 0 then
    let phrases := (srv.sortByLength ban.phrases).map fun phrase =>
      if phrase = [] then phrase else stringLower phrase
    let used := phrases.filter (· ≠ [])
    (used, ⟨phrases, used.foldl (fun n phrase => max n phrase.length) 0 + 1⟩)
  else (ban.phrases, ban)

def setBanPhrases (srv : ServerContext F E T) (data : TaskData F) (s : State F E T) : State F E T :=
  match data.bannedStrings with
  | some (.arr xs) =>
    { s with
      slot.banPhrases :=
        srv.sortByLength (((xs.filterMap Json.asStr).filter (· ≠ [])).map stringLower) }
  | _ =>
    -- the list was cleared by `reset`
    if s.ban.phrases = [] then s
    else
      let used := usePhrases srv s.ban
      { slot := { s.slot with banPhrases := used.1 }, ban := used.2 }

/-- The rules of the allowlist: one more than there are keywords, at most. -/
def allowRules (srv : ServerContext F E T) : List (List (AllowRule F)) :=
  srv.allowRuless.take (srv.allowKws.length + 1)

/-- The tokens that the allowlist always has. -/
def allowTokens (srv : ServerContext F E T) (data : TaskData F) : List Int :=
  let pieces :=
    match data.allowlistPieceArray with
    | some (.arr xs) => xs.filterMap Json.asStr
    | _ => srv.allowPieces
  pieces.flatMap fun piece => srv.tokenize piece true

/-- The biases of a rule. -/
def allowBiases (srv : ServerContext F E T) (data : TaskData F) (rules : List (AllowRule F)) :
    List F :=
  (allowTokens srv data).foldl (fun biases token => biases.set token.toNat (srv.maxBias rules))
    (srv.ruleBiases rules)

variable [DecidableEq F] [DecidableEq E]

/-- The biases of rule `i` are only computed when the rule is new to the slot. -/
def allowRow (srv : ServerContext F E T) (data : TaskData F) (slot : Slot F E T) (i : Nat) : List F :=
  let rules := (allowRules srv).getD i []
  if slot.allowRulessPrev[i]? = some rules then slot.allowBiasess.getD i []
  else allowBiases srv data rules

def setAllowlist (srv : ServerContext F E T) (data : TaskData F) (s : State F E T) : State F E T :=
  { s with
    slot.allowBiasess := (List.range (allowRules srv).length).map (allowRow srv data s.slot)
    slot.allowRulessPrev := allowRules srv }

/-- Adds a stop word. An empty string is one; null is skipped. -/
def addAntiprompt (s : State F E T) (word : Json F) : Except (State F E T) (State F E T) :=
  if word.isEmpty then .ok s
  else
    match word.asStr with
    | none => .error s
    | some text => .ok { s with slot.antiprompt := s.slot.antiprompt ++ [text] }

def setAntiprompt (data : TaskData F) (s : State F E T) : Except (State F E T) (State F E T) :=
  match data.stop with
  | some (.arr words) => words.foldlM addAntiprompt { s with slot.antiprompt := [] }
  | _ => .ok s

def setSamplers (srv : ServerContext F E T) (data : TaskData F) (s : State F E T) :
    Except (State F E T) (State F E T) :=
  match data.samplers with
  | none => .ok s
  | some (.arr xs) =>
    match xs.mapM Json.asStr with
    | none => .error s
    | some names =>
      .ok { s with slot.sparams.samplersSequence := srv.samplingTypesFromNames names }
  | some (.str chars) =>
    .ok { s with slot.sparams.samplersSequence := srv.samplingTypesFromChars chars }
  | some _ => .ok { s with slot.sparams.samplersSequence := srv.sparams.samplersSequence }

/-- `common_sampler_init`. -/
def initSampler (srv : ServerContext F E T) (task : Task F) (s : State F E T) :
    Except (State F E T) (State F E T) :=
  if srv.samplerInit task s.slot.sparams then .ok s else .error s

/-! ### Expiring biases -/

/-- The loop over the lines: the persistent entries, and the part that is being filled. -/
def elbLoop : List E → ElbParam E → List (ElbLine E) → List (ElbParam E)
  | _, back, [] => [back]
  | _, back, .clear :: lines => elbLoop [] back lines
  | entries, back, .entry nested e :: lines =>
    elbLoop (if nested then entries ++ [e] else entries)
      { back with entries := back.entries ++ [e] } lines
  | entries, back, .exit exitword op :: lines =>
    { back with exitword, op := op.getD back.op } ::
      elbLoop entries { entries := entries } lines

/-- `argparse_expiring_logit_bias`: the new parts are put behind the old ones, and begin with the
persistent entries of the first part. -/
def argparseExpiringLogitBias (lines : List (ElbLine E)) (old : List (ElbParam E)) :
    List (ElbParam E) :=
  old ++ elbLoop ((old.head?.map ElbParam.entries).getD []) {} lines

/-- The text of the task; its lines end with a newline. -/
def elbContent (data : TaskData F) : Option Bytes :=
  match data.expiringLogitBias with
  | some (.arr xs) => some ((xs.filterMap Json.asStr).flatMap (· ++ [10]))
  | _ => none

/-- The parts after the task's text; a text that does not parse is ignored. -/
def requestElb (srv : ServerContext F E T) (data : TaskData F) (old : List (ElbParam E)) :
    List (ElbParam E) :=
  match elbContent data with
  | none => old
  | some content =>
    match srv.parseElb content with
    | none => old
    | some lines => argparseExpiringLogitBias lines old

/-- The states of the parts, as they are made new. -/
def freshElbStates (srv : ServerContext F E T) (params : List (ElbParam E)) : List (ElbState T) :=
  (srv.elbTables params).map fun table => { table }

/-- The states are kept while the parts do not change. -/
def setExpiringBiases (srv : ServerContext F E T) (data : TaskData F) (s : State F E T) :
    State F E T :=
  let old := s.slot.sparams.elbParams
  let params := requestElb srv data old
  let states :=
    if params = [] then []
    else if s.slot.prevElbStates ≠ [] ∧ params = old then
      s.slot.prevElbStates.map fun state => { state with countup := 0 }
    else freshElbStates srv params
  { s with
    slot.sparams.elbParams := params
    slot.elbStates := states
    slot.prevElbStates := states }

/-! ### Launches -/

/-- `launch_slot_with_task`. -/
def launchSlotWithTask (srv : ServerContext F E T) (task : Task F) (s : State F E T) :
    Except (State F E T) (State F E T) := do
  let s ← require task .speculative (setNKeep srv task.data s)
  let s ← setDrySequenceBreakers task.data s
  let s ← setGrammar srv task.data s
  let s ← require task .chatFormat s
  let s ← setPreservedTokens srv task.data s
  let s ← setGrammarTriggers srv task.data s
  let s ← requireTriggers s
  let s := setReasoningBudget srv task.data s
  let s := setLogitBias srv task.data s
  let s ← require task .banRegex (setBanPhrases srv task.data s)
  let s ← setAntiprompt task.data (setAllowlist srv task.data s)
  let s ← setSamplers srv task.data s
  let s ← initSampler srv task s
  return setExpiringBiases srv task.data s

/-- What happened in the server before: requests of the slot, and the first use of the startup
list of banned strings by another slot. -/
inductive Event (F : Type)
  | request (task : Task F)
  | otherSlot

/-- The state after an event; a launch that fails leaves what it has written. -/
def serve (srv : ServerContext F E T) (s : State F E T) : Event F → State F E T
  | .request task => Attempt.left (launchSlotWithTask srv task (reset s))
  | .otherSlot => { s with ban := (usePhrases srv s.ban).2 }

/-- The state after a history. -/
def after (srv : ServerContext F E T) (history : List (Event F)) : State F E T :=
  history.foldl (serve srv) srv.start

/-- The settings of the request that a slot serves. -/
structure Settings (F E T : Type) where
  nKeep : Int
  antiprompt : List Bytes
  logitBias : Int → Option F
  samplersSequence : List Nat
  drySequenceBreakers : List Bytes
  preservedTokens : Finset Int
  grammar : Grammar
  grammarLazy : Bool
  grammarTriggers : List Trigger
  reasoningBudgetStart : List Int
  reasoningBudgetEnd : List Int
  reasoningBudgetForced : List Int
  elbParams : List (ElbParam E)
  elbStates : List (ElbState T)
  allowBiasess : List (List F)
  banPhrases : List Bytes

def Slot.settings (slot : Slot F E T) : Settings F E T where
  nKeep := slot.nKeep
  antiprompt := slot.antiprompt
  logitBias := slot.sparams.logitBias
  samplersSequence := slot.sparams.samplersSequence
  drySequenceBreakers := slot.sparams.drySequenceBreakers
  preservedTokens := slot.sparams.preservedTokens
  grammar := slot.sparams.grammar
  grammarLazy := slot.sparams.grammarLazy
  grammarTriggers := slot.sparams.grammarTriggers
  reasoningBudgetStart := slot.sparams.reasoningBudgetStart
  reasoningBudgetEnd := slot.sparams.reasoningBudgetEnd
  reasoningBudgetForced := slot.sparams.reasoningBudgetForced
  elbParams := slot.sparams.elbParams
  elbStates := slot.elbStates
  allowBiasess := slot.allowBiasess
  banPhrases := slot.banPhrases

end

end PxqLlama.Server.Launch
