import Mathlib.Algebra.Group.Nat.Defs
import PxqLlama.Grammar.Stacks

/-!
# `Grammar.Mask`: masking and accepting tokens

Before a token is sampled, `sampleImpl` masks the candidates that the grammar cannot go on with.
It passes the candidates that are left from one stack to the next, and for each stack it goes down
the code points of all candidates at once. When a token is sampled, `acceptToken` moves every stack
over the code points of its piece. Both decode the piece behind the part of a character that the
tokens before have left.

A list of code points has a zero behind it. A candidate points into its list.
-/

namespace PxqLlama.Grammar

/-! ### UTF-8 -/

/-- `llama_partial_utf8`: the bits of a character so far, and how many bytes are still to come;
-1 stands for an invalid sequence. -/
structure PartialUtf8 where
  value : Nat := 0
  nRemain : Int := 0
deriving DecidableEq, Repr

/-- `lookup[highbits] - 1`: how many bytes follow a first byte. -/
def followBytes (firstByte : UInt8) : Int :=
  [1, 1, 1, 1, 1, 1, 1, 1, 0, 0, 0, 0, 2, 2, 3, 4].getD (firstByte.toNat / 16) 0 - 1

/-- One more byte of a character. -/
def addByte (value : Nat) (b : UInt8) : Nat := value * 64 + b.toNat % 64

/-- The first loop of `decode_utf8`: the character that was begun goes on. The result is what is
left of the text, the bits and the bytes still to come; `none` when a byte does not go on. -/
def continueChar : (pos : List UInt8) → (value nRemain : Nat) → Option (List UInt8 × Nat × Nat)
  | b :: pos, value, nRemain + 1 =>
    if b.toNat / 64 ≠ 2 then none else continueChar pos (addByte value b) nRemain
  | pos, value, nRemain => some (pos, value, nRemain)

/-- The second loop of `decode_utf8`. The bytes that follow a first byte are not checked. -/
def decodeChars : (pos : List UInt8) → PartialUtf8 → (codePoints : List Nat) →
    List Nat × PartialUtf8
  | [], partialUtf8, codePoints => (codePoints ++ [0], partialUtf8)
  | b :: pos, ⟨value, nRemain⟩, codePoints =>
    if 0 < nRemain then
      let value := addByte value b
      let codePoints := if nRemain = 1 then codePoints ++ [value] else codePoints
      decodeChars pos ⟨value, nRemain - 1⟩ codePoints
    else
      let nRemain := followBytes b
      if nRemain < 0 then ([0], ⟨0, nRemain⟩)
      else
        let value := b.toNat % 2 ^ (7 - nRemain).toNat
        let codePoints := if nRemain = 0 then codePoints ++ [value] else codePoints
        decodeChars pos ⟨value, nRemain⟩ codePoints

/-- `decode_utf8`: the code points with a zero behind them, and the part of a character at the
end. The text ends at a zero byte. -/
def decodeUtf8 (src : List UInt8) (partialStart : PartialUtf8) : List Nat × PartialUtf8 :=
  let pos := src.takeWhile (· ≠ 0)
  match continueChar pos partialStart.value partialStart.nRemain.toNat with
  | none => ([0], ⟨0, -1⟩)
  | some (pos, value, nRemain) =>
    if 0 < partialStart.nRemain then
      decodeChars pos ⟨value, nRemain⟩ (if nRemain = 0 then [value] else [])
    else decodeChars pos partialStart []

/-! ### Partial characters -/

/-- The smallest code point of a character with so many bytes to come. -/
def minCode (nRemain : Int) : Nat :=
  if nRemain = 2 then 0x800 else if nRemain = 3 then 0x10000 else 0

/-- The code points that a partial character can become, from `low` to `high`. -/
def partialBounds (partialUtf8 : PartialUtf8) : Nat × Nat :=
  let size := 64 ^ partialUtf8.nRemain.toNat
  let low := partialUtf8.value * size
  let high := low + (size - 1)
  (if low = 0 then minCode partialUtf8.nRemain else low, high)

/-- A part of a character element holds for one of the code points. -/
def CharRange.meets (low high : Nat) : CharRange → Bool
  | .any => true
  | .range first last => first ≤ high && low ≤ last

/-- `llama_grammar_match_partial_char`. -/
def matchPartialChar (rules : Rules) (p : Pos) (partialUtf8 : PartialUtf8) : Bool :=
  if partialUtf8.nRemain < 0 ∨ (partialUtf8.nRemain = 1 ∧ partialUtf8.value < 2) then false
  else
    let bounds := partialBounds partialUtf8
    (charRanges rules p).1.any (CharRange.meets bounds.1 bounds.2) ==
      isPositiveChar (elementAt rules p)

/-! ### Masking -/

/-- `llama_grammar_candidate`: `pos` is where `code_points` points to. -/
structure Candidate where
  index : Nat
  codePoints : List Nat
  pos : Nat := 0
  partialUtf8 : PartialUtf8
  id : Nat
deriving DecidableEq, Repr

namespace Candidate

/-- `*tok.code_points`. -/
def codePoint (tok : Candidate) : Nat := tok.codePoints.getD tok.pos 0

/-- `tok.code_points + 1`. -/
def next (tok : Candidate) : Candidate := { tok with pos := tok.pos + 1 }

/-- `tok.code_points - 1`. -/
def back (tok : Candidate) : Candidate := { tok with pos := tok.pos - 1 }

end Candidate

/-- `llama_grammar_reject_candidates_for_stack`; `rejectNext` is `llama_grammar_reject_candidates`
on the stacks behind the top element. -/
def rejectForStack (rules : Rules) (fuel : Nat)
    (rejectNext : Stacks → List Candidate → Option (List Candidate)) (stack : Stack)
    (candidates : List Candidate) : Option (List Candidate) :=
  match stack with
  | [] => some (candidates.filter fun tok => tok.codePoint ≠ 0 || tok.partialUtf8.nRemain ≠ 0)
  | stackPos :: rest =>
    if isTokenElement (elementAt rules stackPos) then
      -- only the token counts; at the end of a piece, whether it ends in the middle of a character
      some (candidates.filter fun tok =>
        if tok.codePoint = 0 then tok.partialUtf8.nRemain ≠ 0
        else !matchToken rules stackPos tok.id)
    else
      let rejects := candidates.filter fun tok =>
        if tok.codePoint = 0 then
          tok.partialUtf8.nRemain ≠ 0 && !matchPartialChar rules stackPos tok.partialUtf8
        else !(matchChar rules stackPos tok.codePoint).1
      let nextCandidates := (candidates.filter fun tok =>
        tok.codePoint ≠ 0 && (matchChar rules stackPos tok.codePoint).1).map Candidate.next
      (advanceStack rules fuel (pushPos rules (matchChar rules stackPos 0).2 rest) []).bind
        fun nextStacks => (rejectNext nextStacks nextCandidates).bind
          fun nextRejects => some (rejects ++ nextRejects.map Candidate.back)

/-- `llama_grammar_reject_candidates`, for candidates with fewer than `depth` code points. -/
def rejectCandidates (rules : Rules) (fuel : Nat) : (depth : Nat) → Stacks → List Candidate →
    Option (List Candidate)
  | 0, _, candidates => if candidates = [] then some [] else none
  | depth + 1, current, candidates =>
    if current = [] then none
    else if candidates = [] then some []
    else current.foldlM (fun rejects stack =>
      rejectForStack rules fuel (rejectCandidates rules fuel depth) stack rejects) candidates

/-- `llama_vocab`. -/
structure Vocab where
  isEog : Nat → Bool
  tokenToPiece : Nat → List UInt8

/-- `llama_grammar`, when it does not wait for a trigger. -/
structure LlamaGrammar where
  rules : Rules
  grammarStacks : Stacks
  partialUtf8 : PartialUtf8 := {}

/-- The candidate for a token, where its piece takes part. -/
def candidateOf (grammar : LlamaGrammar) (vocab : Vocab) (index id : Nat) : Option Candidate :=
  let piece := vocab.tokenToPiece id
  if vocab.isEog id ∨ piece = [] ∨ piece.head? = some 0 then none
  else
    let decoded := decodeUtf8 piece grammar.partialUtf8
    some { index := index, codePoints := decoded.1, partialUtf8 := decoded.2, id := id }

/-- `llama_grammar_sample_impl`: for each candidate, whether its logit is set to minus infinity. -/
def sampleImpl (fuel : Nat) (grammar : LlamaGrammar) (vocab : Vocab) (candidates : List Nat) :
    Option (List Bool) :=
  let allowEog := grammar.grammarStacks.any List.isEmpty
  let candidatesGrammar :=
    candidates.zipIdx.filterMap fun p => candidateOf grammar vocab p.2 p.1
  let depth := (candidatesGrammar.map fun tok => tok.codePoints.length).foldr max 0 + 1
  (rejectCandidates grammar.rules fuel depth grammar.grammarStacks candidatesGrammar).map fun rejects =>
    candidates.zipIdx.map fun p =>
      let piece := vocab.tokenToPiece p.1
      if vocab.isEog p.1 then !allowEog
      else if piece = [] ∨ piece.head? = some 0 then true
      else rejects.any (·.index = p.2)

/-! ### Accepting -/

/-- `llama_grammar_accept_chr`. -/
def acceptChr (rules : Rules) (fuel : Nat) (stack : Stack) (chr : Nat) (newStacks : Stacks) :
    Option Stacks :=
  match stack with
  | [] => some newStacks
  | pos :: rest =>
    -- ignored where a token is to come
    if isTokenElement (elementAt rules pos) then some newStacks
    else if (matchChar rules pos chr).1 then
      advanceStack rules fuel (pushPos rules (matchChar rules pos chr).2 rest) newStacks
    else some newStacks

/-- One character on all stacks. -/
def acceptChrAll (rules : Rules) (fuel : Nat) (current : Stacks) (chr : Nat) : Option Stacks :=
  current.foldlM (fun newStacks stack => acceptChr rules fuel stack chr newStacks) []

/-- `llama_grammar_accept`. -/
def accept (fuel : Nat) (grammar : LlamaGrammar) (chr : Nat) : Option LlamaGrammar :=
  (acceptChrAll grammar.rules fuel grammar.grammarStacks chr).map fun stacksNew =>
    { grammar with grammarStacks := stacksNew }

/-- One stack of `llama_grammar_accept_token`. -/
def acceptOnStack (rules : Rules) (fuel : Nat) (token : Nat) (codePoints : List Nat)
    (stacksNew : Stacks) (stack : Stack) : Option Stacks :=
  match stack with
  | [] => some stacksNew
  | pos :: rest =>
    if isTokenElement (elementAt rules pos) then
      if matchToken rules pos token then
        advanceStack rules fuel (pushPos rules pos.next rest) stacksNew
      else some stacksNew
    else
      -- where no stack is left, none comes back with the characters that follow
      (codePoints.foldlM (acceptChrAll rules fuel) [stack]).map fun surviving =>
        surviving.foldl addNew stacksNew

/-- `llama_grammar_accept_token`. It throws after this when no stack is left. -/
def acceptToken (fuel : Nat) (grammar : LlamaGrammar) (token : Nat) (piece : List UInt8) :
    Option LlamaGrammar :=
  let decoded := decodeUtf8 piece grammar.partialUtf8
  (grammar.grammarStacks.foldlM (acceptOnStack grammar.rules fuel token decoded.1.dropLast) []).map
    fun stacksNew => { grammar with grammarStacks := stacksNew, partialUtf8 := decoded.2 }

/-- The grammars that come from `llama_grammar_init_impl` by accepting characters and tokens, as
long as some stack is left. -/
inductive Reachable (rules : Rules) (start : Nat) (vocab : Vocab) : LlamaGrammar → Prop
  | init {fuel : Nat} {initial : Stacks} (h : initialStacks rules fuel start = some initial) :
      Reachable rules start vocab { rules := rules, grammarStacks := initial }
  | chr {grammar grammar' : LlamaGrammar} {fuel c : Nat} (h : Reachable rules start vocab grammar)
      (haccept : accept fuel grammar c = some grammar') (hleft : grammar'.grammarStacks ≠ []) :
      Reachable rules start vocab grammar'
  | token {grammar grammar' : LlamaGrammar} {fuel token : Nat}
      (h : Reachable rules start vocab grammar)
      (haccept : acceptToken fuel grammar token (vocab.tokenToPiece token) = some grammar')
      (hleft : grammar'.grammarStacks ≠ []) : Reachable rules start vocab grammar'

/-!
## Pieces one after another, and lazy grammars

`acceptPieces` feeds the pieces of tokens to `acceptToken` until one leaves no stack, where the
source throws. A lazy grammar keeps the pieces in a buffer until a trigger pattern matches in it.
Then the tokens from the match on are fed again, the first of them without what is before the match.

The patterns are the results of `llama_grammar_trigger_pattern::find`.
-/

/-- `llama_grammar_accept_token` for tokens with their pieces; `none` inside when one throws. -/
def acceptPieces (fuel : Nat) : LlamaGrammar → List (Nat × List UInt8) →
    Option (Option LlamaGrammar)
  | grammar, [] => some (some grammar)
  | grammar, (token, piece) :: rest =>
    (acceptToken fuel grammar token piece).bind fun grammar =>
      if grammar.grammarStacks = [] then some none else acceptPieces fuel grammar rest

/-- The whole text as the piece of one token, unless there is nothing of it. -/
def wholePiece (token : Nat) (text : List UInt8) : List (Nat × List UInt8) :=
  if text = [] then [] else [(token, text)]

/-! ### Lazy grammars -/

/-- An entry of `trigger_buffer_positions`. -/
structure BufferedToken where
  token : Nat
  tokStart : Nat
  tokEnd : Nat
deriving DecidableEq, Repr

/-- `llama_grammar` with the fields of a lazy one. -/
structure LazyGrammar where
  grammar : LlamaGrammar
  awaitingTrigger : Bool
  triggerBuffer : List UInt8 := []
  triggerBufferPositions : List BufferedToken := []
  triggerTokens : List Nat
  triggerPatterns : List (List UInt8 → Option Nat)

/-- The start of the first pattern that matches. -/
def firstMatch (patterns : List (List UInt8 → Option Nat)) (buffer : List UInt8) : Option Nat :=
  patterns.firstM fun find => find buffer

/-- The tokens that end behind `start`, with what is left of their pieces. -/
def replayPieces (buffer : List UInt8) (positions : List BufferedToken) (start : Nat) :
    List (Nat × List UInt8) :=
  (positions.filter fun p => ¬ p.tokEnd ≤ start).map fun p =>
    let pieceStart := if p.tokStart < start then start else p.tokStart
    (p.token, (buffer.drop pieceStart).take (p.tokEnd - pieceStart))

/-- `llama_grammar_accept_impl`: `none` inside when it throws. A token that ends the generation
aborts unless some stack is empty. -/
def acceptImpl (fuel : Nat) (vocab : Vocab) (g : LazyGrammar) (token : Nat) :
    Option (Option LazyGrammar) :=
  let piece := vocab.tokenToPiece token
  if g.awaitingTrigger then
    if token ∈ g.triggerTokens then
      (acceptPieces fuel g.grammar [(token, piece)]).map fun accepted => accepted.map fun grammar =>
        { g with grammar := grammar, awaitingTrigger := false, triggerBuffer := [] }
    else
      let positions := g.triggerBufferPositions ++
        [⟨token, g.triggerBuffer.length, g.triggerBuffer.length + piece.length⟩]
      let buffer := g.triggerBuffer ++ piece
      match firstMatch g.triggerPatterns buffer with
      | none => some (some { g with triggerBuffer := buffer, triggerBufferPositions := positions })
      | some start =>
        (acceptPieces fuel g.grammar (replayPieces buffer positions start)).map fun accepted =>
          accepted.map fun grammar =>
            { g with
              grammar := grammar
              awaitingTrigger := false
              triggerBuffer := []
              triggerBufferPositions := [] }
  else if vocab.isEog token then
    if g.grammar.grammarStacks.any List.isEmpty then some (some g) else none
  else
    (acceptPieces fuel g.grammar [(token, piece)]).map fun accepted => accepted.map fun grammar =>
      { g with grammar := grammar }

/-- Tokens one after another. -/
def acceptTokens (fuel : Nat) (vocab : Vocab) : LazyGrammar → List Nat →
    Option (Option LazyGrammar)
  | g, [] => some (some g)
  | g, token :: tokens =>
    (acceptImpl fuel vocab g token).bind fun accepted =>
      match accepted with
      | none => some none
      | some g => acceptTokens fuel vocab g tokens

end PxqLlama.Grammar
