import PxqLlama.Lib.Maps
import PxqLlama.Server.Emit

/-!
# `Server.Tokens`: token lists with media

`server_tokens` is the token list of a prompt or of a slot: text tokens, and for each image or
audio chunk a run of `LLAMA_TOKEN_NULL` whose first place is a key of the media map. The server
compares two such lists by token first and by text after that (`getCommonPrefix`), and it can
leave out what lies between the thinking tags (`getTokensExcludeThink`).

A `GGML_ASSERT` that fails and an exception that is thrown give `none`.
-/

namespace PxqLlama.Server

/-- `LLAMA_TOKEN_NULL`. -/
def llamaTokenNull : Int := -1

/-! ### Media chunks -/

/-- `mtmd_image_tokens` without its pixels, which are freed once the image is decoded. -/
structure ImageTokens where
  nx : Nat
  ny : Nat
  useMropePos : Bool := false
  id : String
deriving DecidableEq, Repr

/-- `mtmd_audio_tokens` without its samples. -/
structure AudioTokens where
  nTokens : Nat
  id : String
deriving DecidableEq, Repr

/-- `mtmd_input_chunk_type`. -/
inductive ChunkType where
  | text
  | image
  | audio
deriving DecidableEq, Repr

/-- `mtmd_input_chunk`. -/
structure InputChunk where
  type : ChunkType
  tokensText : List Int := []
  tokensImage : Option ImageTokens := none
  tokensAudio : Option AudioTokens := none
deriving DecidableEq, Repr

namespace InputChunk

/-- `mtmd_input_chunk_get_n_tokens`. -/
def nTokens (chunk : InputChunk) : Nat :=
  match chunk.type with
  | .text => chunk.tokensText.length
  | .image => (chunk.tokensImage.map fun i => i.nx * i.ny).getD 0
  | .audio => (chunk.tokensAudio.map AudioTokens.nTokens).getD 0

/-- `mtmd_input_chunk_get_id`: a text chunk has none. -/
def id? (chunk : InputChunk) : Option String :=
  match chunk.type with
  | .text => none
  | .image => chunk.tokensImage.map ImageTokens.id
  | .audio => chunk.tokensAudio.map AudioTokens.id

end InputChunk

/-- `common_prefix`: how many tokens of each of two lists belong to the common part. -/
structure CommonPrefix where
  first : Nat := 0
  second : Nat := 0
deriving DecidableEq, Repr

/-- `common_prefix_add`. -/
def commonPrefixAdd (a b : CommonPrefix) : CommonPrefix :=
  { first := a.first + b.first, second := a.second + b.second }

/-- What the comparison of token lists asks of the model: the piece of a token, special ones
included, and the text of a list of them. -/
structure TokenText where
  piece : Int → Bytes
  detokenize : List Int → Bytes

/-! ### Text -/

/-- The characters that `find_common_text_token_prefix` passes over: space, newline and return. -/
def ignoreSet : List UInt8 := [32, 10, 13]

/-- `find_common_string_prefix`, started at the places `i` and `j`. -/
def findCommonStringPrefix (a b : Bytes) (ignore : List UInt8) :
    (fuel : Nat) → (i j : Nat) → CommonPrefix
  | 0, i, j => { first := i, second := j }
  | fuel + 1, i, j =>
    match a[i]?, b[j]? with
    | some aChr, some bChr =>
      if aChr = bChr then findCommonStringPrefix a b ignore fuel (i + 1) (j + 1)
      else if aChr ∈ ignore ∧ bChr ∈ ignore then
        findCommonStringPrefix a b ignore fuel (i + 1) (j + 1)
      else if aChr ∈ ignore then findCommonStringPrefix a b ignore fuel (i + 1) j
      else if bChr ∈ ignore then findCommonStringPrefix a b ignore fuel i (j + 1)
      else { first := i, second := j }
    | _, _ => { first := i, second := j }

/-- `common_part` of two strings. -/
def commonPart (a b : Bytes) : Nat :=
  ((a.zip b).takeWhile fun p => p.1 = p.2).length

/-- `find_n_tokens_from_string_with_ignore`: the running lengths of the tokens that lie inside
the first `maxSize` bytes. The lengths leave out the characters of `ignore`; with none to leave
out this is `find_n_tokens_from_string`. -/
def findNTokensFromString (txt : TokenText) (maxSize : Nat) (ignore : List UInt8) :
    (tokens : List Int) → (stringLen stringLenIgnore : Nat) → List Nat
  | [], _, _ => []
  | t :: tokens, stringLen, stringLenIgnore =>
    let str := txt.piece t
    let stringLen := stringLen + str.length
    let stringLenIgnore := stringLenIgnore + (str.filter (· ∉ ignore)).length
    if stringLen ≤ maxSize then
      stringLenIgnore :: findNTokensFromString txt maxSize ignore tokens stringLen stringLenIgnore
    else []

/-- `find_largest_common_number`: the last places of two increasing lists that hold the same
number. `i` and `j` count the numbers that are left of each. -/
def findLargestCommonNumber (a b : List Nat) : (fuel : Nat) → (i j : Nat) → CommonPrefix
  | fuel + 1, i + 1, j + 1 =>
    let x := a.getD i 0
    let y := b.getD j 0
    if x = y then { first := i + 1, second := j + 1 }
    else if y < x then findLargestCommonNumber a b fuel i (j + 1)
    else findLargestCommonNumber a b fuel (i + 1) j
  | _, _, _ => {}

/-- `find_common_text_token_prefix` from the place `start` on. -/
def findCommonTextTokenPrefix (txt : TokenText) (a b : List Int) (start : Nat) (exact : Bool) :
    CommonPrefix :=
  if a.length ≤ start ∨ b.length ≤ start then {}
  else
    let aSub := a.drop start
    let bSub := b.drop start
    let aStr := txt.detokenize aSub
    let bStr := txt.detokenize bSub
    let (stringPrefix, ignore) :=
      if exact then
        let lcp := commonPart aStr bStr
        (({ first := lcp, second := lcp } : CommonPrefix), [])
      else
        (findCommonStringPrefix aStr bStr ignoreSet (aStr.length + bStr.length) 0 0, ignoreSet)
    let aList := findNTokensFromString txt stringPrefix.first ignore aSub 0 0
    let bList := findNTokensFromString txt stringPrefix.second ignore bSub 0 0
    findLargestCommonNumber aList bList (aList.length + bList.length) aList.length bList.length

/-! ### `server_tokens` -/

/-- `server_tokens`. -/
structure ServerTokens where
  hasMtmd : Bool := false
  mapIdxToMedia : OrderedMap InputChunk := .empty
  tokens : List Int := []
deriving DecidableEq

namespace ServerTokens

/-- What `std::move` leaves behind: both containers are empty. -/
def movedFrom (s : ServerTokens) : ServerTokens :=
  { s with mapIdxToMedia := .empty, tokens := [] }

/-- `clone`: the chunks are copied too. -/
def clone (s : ServerTokens) : ServerTokens := s

def size (s : ServerTokens) : Nat := s.tokens.length

/-- `find_chunk`, which throws where no chunk starts. -/
def findChunk (s : ServerTokens) (idx : Nat) : Option InputChunk :=
  s.mapIdxToMedia.find idx

/-- `keep_first`. -/
def keepFirst (s : ServerTokens) (n : Nat) : Option ServerTokens :=
  if s.size < n then none
  else if s.hasMtmd then
    if n = s.size then some s
    else if s.tokens.getD n 0 = llamaTokenNull ∧ s.findChunk n = none then none
    else some { s with
      mapIdxToMedia := s.mapIdxToMedia.below n
      tokens := s.tokens.take n }
  else some { s with tokens := s.tokens.take n }

/-- `discard_n_tokens`: keeps the first `nKeep` tokens and removes the next `nDiscard`. -/
def discardNTokens (s : ServerTokens) (nKeep nDiscard : Nat) : Option ServerTokens :=
  if nDiscard = 0 ∨ s.size ≤ nKeep + nDiscard then some s
  else
    (s.keepFirst nKeep).map fun kept => { kept with
      tokens := s.tokens.take nKeep ++ s.tokens.drop (nKeep + nDiscard)
      mapIdxToMedia := kept.mapIdxToMedia.insertAll
        ((s.mapIdxToMedia.entries.filter (nKeep + nDiscard ≤ ·.1)).map fun p =>
          (p.1 - nDiscard, p.2)) }

/-- The loop of `get_common_prefix_exact` for lists that may hold media. -/
def commonPrefixExactMedia (a b : ServerTokens) (maxIdx : Nat) : (fuel : Nat) → (i : Nat) → Option Nat
  | 0, _ => some maxIdx
  | fuel + 1, i =>
    if maxIdx ≤ i then some maxIdx
    else
      let ai := a.tokens.getD i 0
      let bi := b.tokens.getD i 0
      if ai = llamaTokenNull ∧ bi = llamaTokenNull then do
        let aChunk ← a.findChunk i
        let bChunk ← b.findChunk i
        if aChunk.id? = bChunk.id? ∧ aChunk.nTokens = bChunk.nTokens then
          if aChunk.nTokens = 0 then none
          else commonPrefixExactMedia a b maxIdx fuel (i + aChunk.nTokens)
        else some i
      else if ai = bi then commonPrefixExactMedia a b maxIdx fuel (i + 1)
      else some i

/-- `get_common_prefix_exact`. -/
def getCommonPrefixExact (a b : ServerTokens) : Option Nat :=
  let maxIdx := min a.size b.size
  if a.hasMtmd then commonPrefixExactMedia a b maxIdx maxIdx 0
  else some ((a.tokens.zip b.tokens).takeWhile fun p => p.1 = p.2).length

/-- The loop of `get_common_prefix` for lists that may hold media: text is collected up to the
next chunk of both lists, and the chunks are compared when it is the same. -/
def commonPrefixMedia (txt : TokenText) (a b : ServerTokens) (exact : Bool) :
    (fuel : Nat) → (i j : Nat) → (aList bList : List Int) → CommonPrefix → Option CommonPrefix
  | 0, _, _, aList, bList, acc =>
    some (commonPrefixAdd (findCommonTextTokenPrefix txt aList bList 0 exact) acc)
  | fuel + 1, i, j, aList, bList, acc =>
    if a.size ≤ i ∨ b.size ≤ j then
      some (commonPrefixAdd (findCommonTextTokenPrefix txt aList bList 0 exact) acc)
    else
      let ai := a.tokens.getD i 0
      let bi := b.tokens.getD j 0
      let (i, aList) := if ai ≠ llamaTokenNull then (i + 1, aList ++ [ai]) else (i, aList)
      let (j, bList) := if bi ≠ llamaTokenNull then (j + 1, bList ++ [bi]) else (j, bList)
      if ai = llamaTokenNull ∧ bi = llamaTokenNull then
        let pre := findCommonTextTokenPrefix txt aList bList 0 exact
        if pre.first = aList.length ∧ pre.second = bList.length then do
          let aChunk ← a.findChunk i
          let bChunk ← b.findChunk j
          if aChunk.id? = bChunk.id? ∧ aChunk.nTokens = bChunk.nTokens then
            if aChunk.nTokens = 0 then none
            else
              let n := aChunk.nTokens
              commonPrefixMedia txt a b exact fuel (i + n) (j + n) [] []
                (commonPrefixAdd { first := pre.first + n, second := pre.second + n } acc)
          else some (commonPrefixAdd pre acc)
        else some (commonPrefixAdd pre acc)
      else commonPrefixMedia txt a b exact fuel i j aList bList acc

/-- `get_common_prefix`. -/
def getCommonPrefix (txt : TokenText) (a b : ServerTokens) (exact : Bool) :
    Option CommonPrefix := do
  let n ← a.getCommonPrefixExact b
  if a.hasMtmd then
    commonPrefixMedia txt a b exact (a.size + b.size) n n [] [] { first := n, second := n }
  else
    some (commonPrefixAdd (findCommonTextTokenPrefix txt a.tokens b.tokens n exact)
      { first := n, second := n })

end ServerTokens

/-! ### Thinking tags -/

/-- `thinking_tokens`. -/
structure ThinkingTokens where
  exclude : Bool := true
  «begin» : Bytes := "<think>".toUTF8.toList
  «end» : Bytes := "</think>".toUTF8.toList
deriving DecidableEq

/-- The places where a word begins in a text, each after the end of the one before it. -/
def occurrences (text word : Bytes) : (fuel : Nat) → (pos : Nat) → List Nat
  | 0, _ => []
  | fuel + 1, pos =>
    match findFrom text word pos with
    | some p => p :: occurrences text word fuel (p + word.length)
    | none => []

/-- The parts of a text between the tags: each start with the first end after it, where the start
lies after the last part. -/
def thinkSpans (starts ends : List Nat) : List (Nat × Nat) :=
  starts.foldl (fun spans s =>
    if spans.getLast?.all (fun last => decide (last.2 < s)) then
      match ends.find? (s < ·) with
      | some e => spans ++ [(s, e)]
      | none => spans
    else spans) []

namespace ServerTokens

/-- The loop of `get_tokens_exclude_think` over the tokens from the place `n` on. -/
def excludeThink (txt : TokenText) (s : ServerTokens) (spans : List (Nat × Nat)) :
    (tokens : List Int) → (n stringLen pos : Nat) → ServerTokens → ServerTokens
  | [], _, _, _, res => res
  | t :: tokens, n, stringLen, pos, res =>
    let stringLen := if t ≠ llamaTokenNull then stringLen + (txt.piece t).length else stringLen
    let span := spans.getD pos (0, 0)
    let keep : ServerTokens := { res with
      tokens := res.tokens ++ [t]
      mapIdxToMedia := match s.findChunk n with
        | some chunk => res.mapIdxToMedia.insert res.tokens.length chunk
        | none => res.mapIdxToMedia }
    if stringLen ≤ span.1 then excludeThink txt s spans tokens (n + 1) stringLen pos keep
    else if stringLen ≤ span.2 then excludeThink txt s spans tokens (n + 1) stringLen pos res
    else
      let pos := if pos + 1 < spans.length then pos + 1 else pos
      excludeThink txt s spans tokens (n + 1) stringLen pos keep

/-- `get_tokens_exclude_think`. -/
def getTokensExcludeThink (txt : TokenText) (s : ServerTokens) (think : ThinkingTokens) :
    Option ServerTokens :=
  if ¬ think.exclude then some s.clone
  else if think.begin = [] ∨ think.end = [] then none
  else
    let str := txt.detokenize (s.tokens.filter (· ≠ llamaTokenNull))
    let starts := occurrences str think.begin (str.length + 1) 0
    let ends := (occurrences str think.end (str.length + 1) 0).map (· + think.end.length)
    match thinkSpans starts ends with
    | [] => some s.clone
    | spans => some (excludeThink txt s spans s.tokens 0 0 0 { hasMtmd := s.hasMtmd })

end ServerTokens

end PxqLlama.Server
