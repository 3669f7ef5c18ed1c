import PxqLlama.Kv.TokenCells
import PxqLlama.Spec.SuffixTree

/-!
# `Spec.DraftModel`: drafts of a small model

`common_speculative_state_draft` runs a small model on the tokens of the target. Its context keeps
the tokens of the last call (`prompt_dft`), so that a call decodes only what is new. The vocabularies
are compatible, a decode succeeds and fills one cell for each token, and what the model and its
sampler answer is a parameter.
-/

namespace PxqLlama.Spec

open PxqLlama.Kv

/-- The draft context and its token list. `nCtx` is `llama_n_ctx(ctx_dft)`, an `int` for `draft`. -/
structure DraftModel where
  nCtx : Nat
  nCtx_le : nCtx < 2 ^ 31

/-- `prompt_dft`, and the cells of sequence 0 of `ctx_dft`. -/
structure DraftState where
  promptDft : List Token := []
  cells : List TokenCell := []
deriving DecidableEq, Repr

/-- One call of `draft`: the answer is the best token at the given step for the cells of the
sequence, and whether its probability reaches `p_min`. -/
structure DraftCall where
  nMax : Int
  prompt : List Token
  idLast : Token
  answer : List TokenCell → Nat → Token × Bool

/-- What a call does: the state and the draft, the cells after each decode, and the cells from
which the logits of the first drafted token are computed, if the call decodes. -/
structure DraftOutcome where
  state : DraftState
  result : List Token := []
  decodes : List (List TokenCell) := []
  firstLogits : Option (List TokenCell) := none

namespace DraftModel

/-- `n_ctx` in `draft`: the room that the drafted tokens leave. -/
def room (m : DraftModel) (nMax : Int) : Int := m.nCtx - nMax

/-- `i_start`. -/
def iStart (m : DraftModel) (call : DraftCall) : Nat :=
  (call.prompt.length - m.room call.nMax).toNat

/-- The length of the common first part. -/
def commonLen : List Token → List Token → Nat
  | a :: as, b :: bs => if a = b then commonLen as bs + 1 else 0
  | _, _ => 0

/-- The body of the search below. -/
def reuseStep (m : DraftModel) (call : DraftCall) (promptDft : List Token) (best : Nat × Nat)
    (i : Nat) : Nat × Nat :=
  let cur := commonLen (call.prompt.drop (m.iStart call)) (promptDft.drop i)
  if (256 ≤ cur ∨ (call.prompt.length : Int) ≤ m.room call.nMax) ∧ best.2 < cur then (i, cur)
  else best

/-- The search for the longest part of the old tokens that the prompt starts with: `reuse_i` and
`reuse_n`. -/
def reuse (m : DraftModel) (call : DraftCall) (promptDft : List Token) : Nat × Nat :=
  (List.range promptDft.length).foldl (m.reuseStep call promptDft) (0, 0)

/-- `llama_decode` on the tokens at consecutive positions. -/
def decode (s : DraftState) (p : Int) (tokens : List Token) : DraftState where
  promptDft := s.promptDft ++ tokens
  cells := s.cells ++ cellsFrom p tokens

/-- The old tokens before the part that is reused are dropped. -/
def dropOld (s : DraftState) (reuseI : Nat) : DraftState :=
  if 0 < reuseI then
    { promptDft := s.promptDft.drop reuseI
      cells := tokenSeqAdd (tokenSeqRm s.cells 0 reuseI) reuseI (-1) (-reuseI) }
  else s

/-- And those behind it. -/
def dropRest (s : DraftState) (reuseN : Nat) : DraftState :=
  if reuseN < s.promptDft.length then
    { promptDft := s.promptDft.take reuseN
      cells := tokenSeqRm s.cells reuseN (-1) }
  else s

/-- The draft that was discarded before, up to `n_max` tokens of it. -/
def oldDraft (s : DraftState) (nMax : Int) (first : Nat) : List Token :=
  (s.promptDft.drop first).take (max 1 nMax).toNat

/-- The loop that samples the draft, from the step `i` on, with `n` steps left. -/
def draftLoop (call : DraftCall) (nPast : Nat) :
    (n i : Nat) → DraftState → (result : List Token) → (decodes : List (List TokenCell)) →
      DraftState × List Token × List (List TokenCell)
  | 0, _, s, result, decodes => (s, result, decodes)
  | n + 1, i, s, result, decodes =>
    let (id, likely) := call.answer s.cells i
    if ¬ likely then (s, if i = 0 then result ++ [id] else result, decodes)
    else if call.nMax ≤ (result ++ [id]).length then (s, result ++ [id], decodes)
    else
      let s := decode s (nPast + i + 1 : Nat) [id]
      draftLoop call nPast n (i + 1) s (result ++ [id]) (decodes ++ [s.cells])

/-- The part of `draft` behind the reuse: the new tokens of the prompt, the last token and the
draft are decoded. -/
def decodeAndDraft (m : DraftModel) (call : DraftCall) (s : DraftState) (reuseN : Nat) :
    DraftOutcome :=
  let tokens := call.prompt.drop (m.iStart call + reuseN)
  let s := decode s reuseN tokens
  let nPast := s.promptDft.length
  let last := decode s nPast [call.idLast]
  let decodes := (if tokens = [] then [] else [s.cells]) ++ [last.cells]
  let (state, result, decodes) := draftLoop call nPast call.nMax.toNat 0 last [] decodes
  { state, result, decodes, firstLogits := some last.cells }

/-- `draft`. -/
def draft (m : DraftModel) (s : DraftState) (call : DraftCall) : DraftOutcome :=
  let (reuseI, reuseN) := m.reuse call s.promptDft
  if reuseN = 0 then m.decodeAndDraft call {} 0
  else if s.promptDft[reuseI + reuseN]? = some call.idLast then
    { state := s, result := oldDraft s call.nMax (reuseI + reuseN + 1) }
  else m.decodeAndDraft call (dropRest (dropOld s reuseI) reuseN) reuseN

/-- The state after a call. -/
def step (m : DraftModel) (s : DraftState) (call : DraftCall) : Option DraftState :=
  some (m.draft s call).state

end DraftModel

end PxqLlama.Spec
