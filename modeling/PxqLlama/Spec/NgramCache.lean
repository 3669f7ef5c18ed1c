import Mathlib.Data.Fintype.Basic
import PxqLlama.Lib.Maps
import PxqLlama.Lib.Wire
import PxqLlama.Spec.SuffixTree

/-!
# `Spec.NgramCache`: counts of the tokens that follow an n-gram

`common_ngram_cache` maps an n-gram of up to `LLAMA_NGRAM_MAX` tokens to the tokens that were seen
behind it, with how often. Three such caches (context, dynamic and static) draft tokens.

The caches are maps without an order that anything may rely on. A file is its bytes, and an
assertion that fails is `none`. The draft loop reads tokens by index: a read outside of both token
lists is an error of the model, and so is a loop that does not end within `n_draft` rounds. Its
indices are computed as the code does, with `int` and `size_t`, and so are the counts: a sum that
is too large for an `int32_t` wraps around.
-/

namespace PxqLlama.Spec

open UnorderedMap

/-- `LLAMA_NGRAM_MAX`. -/
def llamaNgramMax : Nat := 4

/-- `LLAMA_NGRAM_STATIC`. -/
def llamaNgramStatic : Nat := 2

/-- `LLAMA_TOKEN_NULL`. -/
def llamaTokenNull : Token := -1

/-- `common_ngram`. -/
abbrev CommonNgram := Fin llamaNgramMax → Token

/-- The constructor of `common_ngram` from the first tokens of an array. -/
def commonNgram (input : List Token) (ngramSize : Nat) : CommonNgram := fun i =>
  if i < ngramSize then input.getD i llamaTokenNull else llamaTokenNull

/-- What an `int` or `int32_t` holds of a result: of one that does not fit the low 32 bits. -/
def toInt (z : Int) : Int := z.bmod (2 ^ 32)

/-- `common_ngram_cache_part`. The counts are `int32_t`, so every sum goes through `toInt`. -/
abbrev CommonNgramCachePart := Map Token Int

/-- `common_ngram_cache`. -/
abbrev CommonNgramCache := Map CommonNgram CommonNgramCachePart

/-! ### `common_ngram_cache_update` -/

/-- One more of a token behind an n-gram. -/
def countToken (cache : CommonNgramCache) (ngram : CommonNgram) (token : Token) :
    CommonNgramCache :=
  match cache.lookup ngram with
  | none => emplace cache ngram (emplace ∅ token 1)
  | some part =>
    match part.lookup token with
    | none => cache.insert ngram (emplace part token 1)
    | some count => cache.insert ngram (part.insert token (toInt (count + 1)))

/-- The round of `common_ngram_cache_update` for the token at `i` and the n-gram before it. -/
def updateAt (inp : List Token) (ngramSize : Nat) (cache : CommonNgramCache) (i : Nat) :
    CommonNgramCache :=
  countToken cache (commonNgram (inp.drop (i - ngramSize)) ngramSize) (inp.getD i llamaTokenNull)

/-- The first token that is counted behind n-grams of a size. -/
def iStart (inp : List Token) (nnew ngramSize : Nat) : Nat := max (inp.length - nnew) ngramSize

/-- The rounds for one size. -/
def updateSize (inp : List Token) (nnew : Nat) (cache : CommonNgramCache) (ngramSize : Nat) :
    CommonNgramCache :=
  let start := iStart inp nnew ngramSize
  (List.range' start (inp.length - start)).foldl (updateAt inp ngramSize) cache

/-- `common_ngram_cache_update`. -/
def commonNgramCacheUpdate (cache : CommonNgramCache) (ngramMin ngramMax : Nat) (inp : List Token)
    (nnew : Nat) : CommonNgramCache :=
  (List.range' ngramMin (ngramMax + 1 - ngramMin)).foldl (updateSize inp nnew) cache

/-! ### `common_ngram_cache_draft` -/

/-- Why a draft is not returned. -/
inductive DraftFault where
  | outOfRange
  | outOfRounds
  | aborts
deriving DecidableEq, Repr

/-- The conversion to a `size_t`. -/
def toSize (z : Int) : Nat := (z % 2 ^ 64).toNat

/-- `get_token`: a token of `inp`, or of the draft, whose first token is the last one of `inp`. -/
def getToken (inp draft : List Token) (i : Nat) : Except DraftFault Token :=
  let token := if i < inp.length then inp[i]? else draft[toSize (1 + i - inp.length)]?
  match token with
  | some token => .ok token
  | none => .error .outOfRange

/-- The n-gram of the last tokens of `inp` with the draft. -/
def lastNgram (inp draft : List Token) (ngramSize : Nat) : Except DraftFault CommonNgram := do
  let ngramStart := toInt (toInt inp.length - ngramSize + draft.length - 1)
  let tokens ← (List.range ngramSize).mapM fun (k : Nat) =>
    getToken inp draft (toSize (ngramStart + k))
  return commonNgram tokens ngramSize

/-- `draft_min_sample_size_lax`. -/
def draftMinSampleSizeLax : List Int := [2, 2, 1, 1]

/-- `draft_min_percent_lax`. -/
def draftMinPercentLax : List Int := [66, 50, 50, 50]

/-- `draft_min_sample_size_strict`. -/
def draftMinSampleSizeStrict : List Int := [4, 3, 2, 2]

/-- `draft_min_percent_strict`. -/
def draftMinPercentStrict : List Int := [75, 66, 66, 66]

/-- The most frequent token of a part, its count and the sum of the counts. -/
def maxStatic (part : CommonNgramCachePart) : Token × Int × Int :=
  (pairs part).foldl (fun (maxToken, maxCount, sum) (token, count) =>
    let sum := toInt (sum + count)
    if count > maxCount then (token, count, sum) else (maxToken, maxCount, sum))
    (llamaTokenNull, 0, 0)

/-- `try_draft` with the static cache only. -/
def tryDraftStatic (ncStatic : CommonNgramCache) (ngramStatic : CommonNgram) : Token :=
  match ncStatic.lookup ngramStatic with
  | none => llamaTokenNull
  | some part =>
    let (maxToken, maxCount, sum) := maxStatic part
    if sum < draftMinSampleSizeLax.getD (llamaNgramStatic - 1) 0 then llamaTokenNull
    else if toInt (100 * maxCount)
        < toInt (draftMinPercentLax.getD (llamaNgramStatic - 1) 0 * sum) then
      llamaTokenNull
    else maxToken

/-- The token of a primary part with the largest product of its counts, its own count and the sum
of the counts. -/
def maxPrimary (part partStatic : CommonNgramCachePart) : Token × Int × Int :=
  let (maxToken, maxCount, _, sum) :=
    (pairs part).foldl (fun (maxToken, maxCount, maxStatic, sum) (token, count) =>
      let countStatic := match partStatic.lookup token with
        | some count => toInt (100 * count)
        | none => 1
      let sum := toInt (sum + count)
      if toInt (count * countStatic) > toInt (maxCount * maxStatic) then
        (token, count, countStatic, sum)
      else (maxToken, maxCount, maxStatic, sum))
      ((llamaTokenNull, 0, 0, 0) : Token × Int × Int × Int)
  (maxToken, maxCount, sum)

/-- `try_draft` with a primary cache: the n-grams from the last one on, with their places. -/
def tryDraft (ncPrimary : CommonNgramCache) (ngramsPrimary : List CommonNgram)
    (partStatic : CommonNgramCachePart) (minSampleSize minPercent : List Int) : Token :=
  ngramsPrimary.zipIdx.reverse.foldl (fun draftedToken (ngram, i) =>
    if draftedToken ≠ llamaTokenNull then draftedToken
    else
      match ncPrimary.lookup ngram with
      | none => draftedToken
      | some part =>
        let (maxToken, maxCount, sum) := maxPrimary part partStatic
        if sum < minSampleSize.getD i 0 then draftedToken
        else if toInt (100 * maxCount) < toInt (minPercent.getD i 0 * sum) then draftedToken
        else maxToken) llamaTokenNull

/-- The caches that a draft is made from. -/
structure NgramCaches where
  ncContext : CommonNgramCache
  ncDynamic : CommonNgramCache
  ncStatic : CommonNgramCache

/-- A round of the loop: the token that is drafted, or `LLAMA_TOKEN_NULL`. -/
def draftToken (caches : NgramCaches) (ngramMin ngramMax : Nat) (inp draft : List Token) :
    Except DraftFault Token := do
  let ngramStatic ← lastNgram inp draft llamaNgramStatic
  let partStatic := (caches.ncStatic.lookup ngramStatic).getD ∅
  let ngramsCd ← (List.range' ngramMin (ngramMax + 1 - ngramMin)).mapM (lastNgram inp draft)
  let token := tryDraft caches.ncContext ngramsCd partStatic draftMinSampleSizeLax
    draftMinPercentLax
  let token := if token = llamaTokenNull then
      tryDraft caches.ncDynamic ngramsCd partStatic draftMinSampleSizeStrict draftMinPercentStrict
    else token
  return if token = llamaTokenNull then tryDraftStatic caches.ncStatic ngramStatic else token

/-- The loop of `common_ngram_cache_draft`, for a number of rounds. -/
def draftLoop (caches : NgramCaches) (nDraft : Int) (ngramMin ngramMax : Nat) (inp : List Token) :
    (rounds : Nat) → (draft : List Token) → Except DraftFault (List Token)
  | rounds, draft =>
    if toInt draft.length - 1 < nDraft then
      match rounds with
      | 0 => .error .outOfRounds
      | rounds + 1 => do
        let token ← draftToken caches ngramMin ngramMax inp draft
        if token = llamaTokenNull then return draft
        else draftLoop caches nDraft ngramMin ngramMax inp rounds (draft ++ [token])
    else .ok draft

/-- `common_ngram_cache_draft`. -/
def commonNgramCacheDraft (caches : NgramCaches) (inp draft : List Token) (nDraft : Int)
    (ngramMin ngramMax : Nat) : Except DraftFault (List Token) :=
  if draft.length ≠ 1 then .error .aborts
  else if toInt inp.length < llamaNgramStatic then .ok draft
  else draftLoop caches nDraft ngramMin ngramMax inp nDraft.toNat draft

/-! ### Files -/

open Wire

/-- The bytes of a `common_ngram`. -/
def ngramBytes (ngram : CommonNgram) : List UInt8 :=
  (List.finRange llamaNgramMax).flatMap fun i => encodeInt 4 (ngram i)

/-- The bytes of a token and its count. -/
def saveCount : Token × Int → Option (List UInt8)
  | (token, count) => if 0 < count then some (encodeInt 4 token ++ encodeInt 4 count) else none

/-- The bytes of an n-gram and its tokens. -/
def savePart : CommonNgram × CommonNgramCachePart → Option (List UInt8)
  | (ngram, tokenCounts) => do
    let ntokens := toInt (pairs tokenCounts).length
    if (pairs tokenCounts).isEmpty ∨ ntokens ≤ 0 then none
    else
      let counts ← (pairs tokenCounts).mapM saveCount
      return ngramBytes ngram ++ encodeInt 4 ntokens ++ counts.flatten

/-- `common_ngram_cache_save`: the bytes of the file. -/
def commonNgramCacheSave (cache : CommonNgramCache) : Option (List UInt8) :=
  ((pairs cache).mapM savePart).map List.flatten

/-- A read of a number of bytes: those, and the ones behind them. -/
def readBytes (n : Nat) (file : List UInt8) : Option (List UInt8 × List UInt8) :=
  if n ≤ file.length then some (file.take n, file.drop n) else none

/-- The loop over the tokens of an n-gram. -/
def loadCounts : (ntokens : Nat) → List UInt8 → CommonNgramCachePart →
    Option (CommonNgramCachePart × List UInt8)
  | 0, file, tokenCounts => some (tokenCounts, file)
  | ntokens + 1, file, tokenCounts => do
    let (token, file) ← readBytes 4 file
    let (count, file) ← readBytes 4 file
    if decodeInt count ≤ 0 then none
    else loadCounts ntokens file (emplace tokenCounts (decodeInt token) (decodeInt count))

/-- The tokens of a `common_ngram` from its bytes. -/
def ngramOfBytes (bytes : List UInt8) : CommonNgram := fun i =>
  decodeInt ((bytes.drop (4 * i)).take 4)

/-- The loop over the n-grams. A read of less than a whole n-gram reaches the end of the file. A
round takes bytes of the file, so there are no more rounds than bytes. -/
def loadParts : (rounds : Nat) → List UInt8 → CommonNgramCache → Option CommonNgramCache
  | 0, _, cache => some cache
  | rounds + 1, file, cache =>
    match readBytes (4 * llamaNgramMax) file with
    | none => some cache
    | some (ngram, file) => do
      let (ntokens, file) ← readBytes 4 file
      if decodeInt ntokens ≤ 0 then none
      else
        let (tokenCounts, file) ← loadCounts (decodeInt ntokens).toNat file ∅
        loadParts rounds file (emplace cache (ngramOfBytes ngram) tokenCounts)

/-- `common_ngram_cache_load`, from the bytes of a file. -/
def commonNgramCacheLoad (file : List UInt8) : Option CommonNgramCache :=
  loadParts (file.length + 1) file ∅

/-! ### `common_ngram_cache_merge` -/

/-- A token of the added cache, into a part that is there. -/
def mergeCount (part : CommonNgramCachePart) :
    Token × Int → Option CommonNgramCachePart
  | (token, count) =>
    if count ≤ 0 then none
    else
      match part.lookup token with
      | none => some (emplace part token count)
      | some merged => some (part.insert token (toInt (merged + count)))

/-- An n-gram of the added cache. -/
def mergePart (target : CommonNgramCache) :
    CommonNgram × CommonNgramCachePart → Option CommonNgramCache
  | (ngram, part) =>
    match target.lookup ngram with
    | none => some (emplace target ngram part)
    | some merged => do
      let merged ← (pairs part).foldlM mergeCount merged
      return target.insert ngram merged

/-- `common_ngram_cache_merge`. -/
def commonNgramCacheMerge (target add : CommonNgramCache) : Option CommonNgramCache :=
  (pairs add).foldlM mergePart target

end PxqLlama.Spec
