import PxqLlama.Lib.Wire
import PxqLlama.Server.Json
import PxqLlama.Server.PromptCache

/-!
# `Server.SlotFile`: saving and restoring a slot

A save of a slot writes three files next to each other: the state of its sequence, its token list
as JSON, and its prompt checkpoints. `slotSave` and `slotRestore` are the two tasks,
`SERVER_TASK_TYPE_SLOT_SAVE` and `SERVER_TASK_TYPE_SLOT_RESTORE`.

The JSON file is modelled by the value that is written into it. The sequence state is a value of
any type `σ`. A file stream that has come to its end leaves a variable as it is, so what is read
behind the end of a file is what the memory held (`Uninit`).
-/

namespace PxqLlama.Server

open Wire

/-! ### JSON -/

/-- A value of the JSON of a token list. -/
abbrev TokenJson := Json String Empty

namespace Json

def asInt : TokenJson → Option Int
  | .int n => some n
  | _ => none

def asNat : TokenJson → Option Nat
  | .int n => some n.toNat
  | _ => none

def asInts : TokenJson → Option (List Int)
  | .arr elems => elems.mapM asInt
  | _ => none

/-- `contains`. -/
def find (j : TokenJson) (key : String) : Option TokenJson :=
  match j with
  | .obj fields => fields.lookup key
  | _ => none

/-- `value(key, dflt)`: the default where the key is missing. -/
def value {α : Type} (j : TokenJson) (as : TokenJson → Option α) (key : String) (dflt : α) :
    Option α :=
  match j with
  | .obj fields =>
    match fields.lookup key with
    | some v => as v
    | none => some dflt
  | _ => none

/-- `at(key)`, which throws where the key is missing. -/
def at? {α : Type} (j : TokenJson) (as : TokenJson → Option α) (key : String) : Option α :=
  (j.find key).bind as

end Json

/-! ### Token lists as JSON -/

def ChunkType.toInt : ChunkType → Int
  | .text => 0
  | .image => 1
  | .audio => 2

def ChunkType.ofInt (n : Int) : Option ChunkType :=
  if n = 0 then some .text else if n = 1 then some .image else if n = 2 then some .audio else none

/-- `mtmd_image_tokens_to_json`. -/
def ImageTokens.toJson (t : ImageTokens) : TokenJson :=
  .obj [("nx", .int t.nx), ("ny", .int t.ny), ("use_mrope_pos", .bool t.useMropePos),
    ("id", .str t.id)]

/-- `mtmd_image_tokens_from_json`. -/
def ImageTokens.fromJson (j : TokenJson) : Option ImageTokens := do
  some {
    nx := ← j.value Json.asNat "nx" 0
    ny := ← j.value Json.asNat "ny" 0
    useMropePos := ← j.value Json.asBool "use_mrope_pos" false
    id := ← j.value Json.asStr "id" "" }

/-- `mtmd_audio_tokens_to_json`. -/
def AudioTokens.toJson (t : AudioTokens) : TokenJson :=
  .obj [("n_tokens", .int t.nTokens), ("id", .str t.id)]

/-- `mtmd_audio_tokens_from_json`. -/
def AudioTokens.fromJson (j : TokenJson) : Option AudioTokens := do
  some {
    nTokens := ← j.value Json.asNat "n_tokens" 0
    id := ← j.value Json.asStr "id" "" }

/-- `mtmd_input_chunk_to_json`. -/
def InputChunk.toJson (chunk : InputChunk) : TokenJson :=
  .obj ([("type", .int chunk.type.toInt), ("tokens_text", .arr (chunk.tokensText.map .int))] ++
    (chunk.tokensImage.map fun t => ("tokens_image", t.toJson)).toList ++
    (chunk.tokensAudio.map fun t => ("tokens_audio", t.toJson)).toList)

/-- `mtmd_input_chunk_from_json`. -/
def InputChunk.fromJson (j : TokenJson) : Option InputChunk := do
  some {
    type := ← j.value (fun v => v.asInt.bind ChunkType.ofInt) "type" .text
    tokensText := ← j.value Json.asInts "tokens_text" []
    tokensImage := ← (match j.find "tokens_image" with
      | some v => (ImageTokens.fromJson v).map some
      | none => some none)
    tokensAudio := ← (match j.find "tokens_audio" with
      | some v => (AudioTokens.fromJson v).map some
      | none => some none) }

namespace ServerTokens

def mediaToJson (p : Nat × InputChunk) : TokenJson :=
  .obj [("index", .int p.1), ("chunk", p.2.toJson)]

def mediaFromJson (entry : TokenJson) : Option (Nat × InputChunk) := do
  let idx ← entry.at? Json.asNat "index"
  let chunk ← entry.at? InputChunk.fromJson "chunk"
  some (idx, chunk)

/-- The fields of `server_tokens::to_json`. -/
def jsonFields (s : ServerTokens) : List (String × TokenJson) :=
  [("has_mtmd", .bool s.hasMtmd),
    ("map_idx_to_media", .arr (s.mapIdxToMedia.entries.map mediaToJson)),
    ("tokens", .arr (s.tokens.map .int))]

/-- `server_tokens::from_json`, on the list `s`. -/
def fromJson (j : TokenJson) (s : ServerTokens) : Option ServerTokens := do
  let hasMtmd ← j.value Json.asBool "has_mtmd" s.hasMtmd
  let tokens ← j.value Json.asInts "tokens" []
  let mediaArray ← j.find "map_idx_to_media"
  match mediaArray with
  | .arr elems =>
    let entries ← elems.mapM mediaFromJson
    some { hasMtmd := hasMtmd, tokens := tokens, mapIdxToMedia := OrderedMap.empty.insertAll entries }
  | _ => some { hasMtmd := hasMtmd, tokens := tokens, mapIdxToMedia := .empty }

/-- `resize`. -/
def resize (s : ServerTokens) (n : Nat) : ServerTokens :=
  { s with tokens := s.tokens.take n ++ List.replicate (n - s.size) 0 }

end ServerTokens

/-- `LLAMA_SERVER_MAGIC` and `LLAMA_SERVER_VERSION`. -/
def llamaServerMagic : Int := 0x6c6d7376
def llamaServerVersion : Int := 1

/-- `save_server_tokens_to_file`: what the file holds. -/
def saveServerTokens (tokens : ServerTokens) : TokenJson :=
  .obj (tokens.jsonFields ++
    [("magic", .int llamaServerMagic), ("version", .int llamaServerVersion)])

/-- `load_server_tokens_from_file`: the list stays as it is without a file, or when the file is
not one of this version. -/
def loadServerTokens (file : Option TokenJson) (tokens : ServerTokens) : Option ServerTokens :=
  match file with
  | none => some tokens
  | some j => do
    let magic ← j.value Json.asInt "magic" 0
    let version ← j.value Json.asInt "version" 0
    if magic ≠ llamaServerMagic ∨ version ≠ llamaServerVersion then some tokens
    else tokens.fromJson j

/-! ### Checkpoints -/

/-- `LLAMA_STATE_SEQ_MAGIC` and `LLAMA_STATE_SEQ_VERSION`, as they start a file. -/
def checkpointHeader : Bytes := encode 4 0x67677371 ++ encode 4 3

/-- What is written for one checkpoint. Its `n_tokens` is not. -/
def saveCheckpoint (c : PromptCheckpoint) : Bytes :=
  encodeInt 4 c.posMin ++ encodeInt 4 c.posMax ++ encodeInt 4 c.posMinPrompt ++
    encodeInt 4 c.posMaxPrompt ++ encode 8 c.data.length ++ c.data

/-- `save_checkpoints_to_file`: the new content of the file, or none where the file is not
touched. -/
def saveCheckpoints (checkpoints : List PromptCheckpoint) : Option Bytes :=
  if checkpoints.length = 0 then none
  else some (checkpointHeader ++ encode 8 checkpoints.length ++ checkpoints.flatMap saveCheckpoint)

/-- What the memory holds that a load reads into: the bytes of its variables, by their place in
the stream, and the `n_tokens` of each new checkpoint. -/
structure Uninit where
  byte : Nat → UInt8
  nTokens : Nat → Int

/-- `file.read` of `n` bytes at the place `pos`. -/
def Uninit.read (mem : Uninit) (file : Bytes) (pos n : Nat) : Bytes :=
  (List.range n).map fun k => file.getD (pos + k) (mem.byte (pos + k))

/-- The loop of `load_checkpoints_from_file`: `count` checkpoints from the place `pos` on. The
bytes of the data are zero before they are read. -/
def loadRecords (mem : Uninit) (file : Bytes) : (count i pos : Nat) → List PromptCheckpoint
  | 0, _, _ => []
  | count + 1, i, pos =>
    let dataLen := decode (mem.read file (pos + 16) 8)
    { posMin := decodeInt (mem.read file pos 4)
      posMax := decodeInt (mem.read file (pos + 4) 4)
      posMinPrompt := decodeInt (mem.read file (pos + 8) 4)
      posMaxPrompt := decodeInt (mem.read file (pos + 12) 4)
      nTokens := mem.nTokens i
      data := (List.range dataLen).map fun k => file.getD (pos + 24 + k) 0 } ::
    loadRecords mem file count (i + 1) (pos + 24 + dataLen)

/-- `load_checkpoints_from_file`: without a file the old list stays. -/
def loadCheckpoints (mem : Uninit) (file : Option Bytes) (old : List PromptCheckpoint) :
    List PromptCheckpoint :=
  match file with
  | none => old
  | some bytes =>
    if mem.read bytes 0 4 ++ mem.read bytes 4 4 ≠ checkpointHeader then []
    else loadRecords mem bytes (decode (mem.read bytes 8 8)) 0 16

/-! ### The tasks -/

/-- What a slot has that is saved: its tokens, its checkpoints, and its sequence in the cache. -/
structure SlotState (σ : Type) where
  cacheTokens : ServerTokens
  checkpoints : List PromptCheckpoint
  seq : σ

/-- The three files of a path. -/
structure SlotFiles (σ : Type) where
  state : Option (List Int × σ)
  tokensJson : Option TokenJson
  checkpoints : Option Bytes

variable {σ : Type}

/-- `SERVER_TASK_TYPE_SLOT_SAVE`. -/
def slotSave (slot : SlotState σ) (files : SlotFiles σ) : SlotFiles σ where
  tokensJson := some (saveServerTokens slot.cacheTokens)
  checkpoints := (saveCheckpoints slot.checkpoints).or files.checkpoints
  state := some (slot.cacheTokens.tokens, slot.seq)

/-- `SERVER_TASK_TYPE_SLOT_RESTORE`: whether it succeeded, and the slot. `fits` says whether the
cache has room for a sequence state. -/
def slotRestore (nCtx : Nat) (fits : σ → Bool) (mem : Uninit) (files : SlotFiles σ)
    (slot : SlotState σ) : Option (Bool × SlotState σ) :=
  let cacheTokens := slot.cacheTokens.resize nCtx
  let failed := (false, { slot with cacheTokens := cacheTokens.resize 0 })
  match files.state with
  | none => some failed
  | some (tokens, seq) =>
    if nCtx < tokens.length ∨ ¬ fits seq then some failed
    else do
      -- the tokens of the state file are written over the start of the scratch list
      let cacheTokens := { cacheTokens with
        tokens := tokens ++ cacheTokens.tokens.drop tokens.length }
      let cacheTokens ← loadServerTokens files.tokensJson cacheTokens
      some (true, {
        cacheTokens := cacheTokens
        checkpoints := loadCheckpoints mem files.checkpoints slot.checkpoints
        seq := seq })

end PxqLlama.Server
