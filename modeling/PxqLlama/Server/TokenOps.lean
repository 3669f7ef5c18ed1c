import PxqLlama.Server.SlotFile

/-!
# `Server.TokenOps`: the operations of a token list

What changes a `server_tokens`: `push_back` of a token, a chunk or another list, `keep_first`,
`clear`, `resize`, `discard_n_tokens`, and what makes a list of another one:
`get_tokens_exclude_think`, `clone`, and `to_json` with `from_json`.

A call ends in one of three ways (`TokensCall`). An exception leaves a list behind, the failed
assertion of `GGML_ASSERT` or `GGML_ABORT` does not.
-/

namespace PxqLlama.Server

/-- How a call on a token list ends, with the list as it is then. -/
inductive TokensCall where
  | returns (s : ServerTokens)
  | throws (s : ServerTokens)
  | aborts
deriving DecidableEq

namespace ServerTokens

/-- `push_back` of a token. -/
def pushToken (s : ServerTokens) (tok : Int) : TokensCall :=
  if tok = llamaTokenNull then .throws s
  else .returns { s with tokens := s.tokens ++ [tok] }

/-- The loops that push one token after another: an exception leaves the tokens before it. -/
def pushEach (s : ServerTokens) : List Int → TokensCall
  | [] => .returns s
  | tok :: toks =>
    match s.pushToken tok with
    | .returns s => s.pushEach toks
    | .throws s => .throws s
    | .aborts => .aborts

/-- `push_back` of an image or audio chunk. -/
def pushMedia (s : ServerTokens) (chunk : InputChunk) : TokensCall :=
  if ¬ s.hasMtmd then .aborts
  else .returns { s with
    tokens := s.tokens ++ List.replicate chunk.nTokens llamaTokenNull
    mapIdxToMedia := s.mapIdxToMedia.insert s.size chunk }

/-- `push_back` of a chunk. -/
def pushChunk (s : ServerTokens) (chunk : InputChunk) : TokensCall :=
  match chunk.type with
  | .image => s.pushMedia chunk
  | .audio => s.pushMedia chunk
  | .text => s.pushEach chunk.tokensText

/-- The entries of a media map, moved by `startIdx`. -/
def shiftMedia (startIdx : Nat) (entries : List (Nat × InputChunk)) : List (Nat × InputChunk) :=
  entries.map fun p => (startIdx + p.1, p.2)

/-- `push_back` of another list. -/
def pushList (s b : ServerTokens) : TokensCall :=
  match s.pushEach b.tokens with
  | .returns pushed =>
    if b.hasMtmd then
      if ¬ s.hasMtmd then .aborts
      else .returns { pushed with
        mapIdxToMedia := s.mapIdxToMedia.insertAll (shiftMedia s.size b.mapIdxToMedia.entries) }
    else .returns pushed
  | .throws s => .throws s
  | .aborts => .aborts

/-- `clear`: the media map stays. -/
def clear (s : ServerTokens) : ServerTokens := { s with tokens := [] }

/-- `keep_first`: too large a number fails its assertion, and a number that is no place of a chunk
but inside one makes `find_chunk` throw, with nothing changed so far. -/
def keepFirstCall (s : ServerTokens) (n : Nat) : TokensCall :=
  if s.size < n then .aborts
  else
    match s.keepFirst n with
    | some kept => .returns kept
    | none => .throws s

/-- `discard_n_tokens`: its `keep_first` comes before any other change. -/
def discardCall (s : ServerTokens) (nKeep nDiscard : Nat) : TokensCall :=
  match s.discardNTokens nKeep nDiscard with
  | some kept => .returns kept
  | none => .throws s

end ServerTokens

/-- The public operations. `json old` writes the list with `to_json` and reads it with `from_json`
on the list `old`. -/
inductive TokenOp where
  | pushToken (tok : Int)
  | pushChunk (chunk : InputChunk)
  | pushList (b : ServerTokens)
  | keepFirst (n : Nat)
  | clear
  | resize (n : Nat)
  | discard (nKeep nDiscard : Nat)
  | excludeThink (think : ThinkingTokens)
  | clone
  | json (old : ServerTokens)

/-- An operation on the list `s`: the list that it changes, or the one that it makes. -/
def ServerTokens.call (txt : TokenText) (s : ServerTokens) : TokenOp → TokensCall
  | .pushToken tok => s.pushToken tok
  | .pushChunk chunk => s.pushChunk chunk
  | .pushList b => s.pushList b
  | .keepFirst n => s.keepFirstCall n
  | .clear => .returns s.clear
  | .resize n => .returns (s.resize n)
  | .discard nKeep nDiscard => s.discardCall nKeep nDiscard
  | .excludeThink think =>
    match s.getTokensExcludeThink txt think with
    | some made => .returns made
    | none => .aborts
  | .clone => .returns s.clone
  | .json old =>
    match ServerTokens.fromJson (.obj s.jsonFields) old with
    | some made => .returns made
    | none => .throws { old with tokens := [], mapIdxToMedia := .empty }

end PxqLlama.Server
