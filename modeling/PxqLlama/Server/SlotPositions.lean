import PxqLlama.Kv.TokenCells
import PxqLlama.Lib.Runs

/-!
# `Server.SlotPositions`: where the tokens of a slot are decoded

A slot of the server puts its tokens behind the system prompt, which every sequence has in its first
cells. Four places compute positions for it: a prompt batch, a batch of sampled and drafted tokens,
the removal of rejected drafts and the removal of banned text. Each is a step here, with the cells
of the slot's sequence as the decoder fills them.

The tokens are text, so `pos_next` is a number of tokens, and the cache can remove a part of a
sequence. What is sampled and drafted is part of the step.
-/

namespace PxqLlama.Server

open PxqLlama.Kv

/-- The part of `server_slot` that positions depend on, the system tokens and the cells of the
slot's sequence. A cache has no more cells than there are positions. -/
structure PosSlot where
  nCells : Nat
  nCells_le : (nCells : Int) ≤ posMax
  systemTokens : List Int := []
  cells : List TokenCell := []
  cacheTokens : List Int := []
  sampled : Int := 0
  drafted : List Int := []

theorem PosSlot.eq_iff (a b : PosSlot) : a = b ↔ (a.nCells, a.systemTokens, a.cells, a.cacheTokens,
    a.sampled, a.drafted) = (b.nCells, b.systemTokens, b.cells, b.cacheTokens, b.sampled,
    b.drafted) := by
  cases a
  cases b
  simp

instance : DecidableEq PosSlot := fun a b => decidable_of_iff _ (PosSlot.eq_iff a b).symm

namespace PosSlot

/-- `cache_tokens.pos_next()`. -/
def posNext (s : PosSlot) : Nat := s.cacheTokens.length

/-- `common_batch_add` with the position `offset + pos_next()`, and `push_back`. -/
def addToken (offset : Nat) (s : PosSlot) (token : Int) : PosSlot :=
  { s with
    cells := s.cells ++ [{ pos := (offset + s.posNext : Nat), token := token }]
    cacheTokens := s.cacheTokens ++ [token] }

/-- A batch of tokens that is decoded, if there are cells for it. -/
def addTokens (offset : Nat) (s : PosSlot) (tokens : List Int) : Option PosSlot :=
  if s.cells.length + tokens.length ≤ s.nCells then some (tokens.foldl (addToken offset) s)
  else none

/-- `keep_first` on the cache tokens, and the removal of the cells from a position on. -/
def trim (s : PosSlot) (cacheTokens : List Int) (p0 : Nat) : PosSlot :=
  { s with cacheTokens := cacheTokens, cells := tokenSeqRm s.cells p0 (-1) }

end PosSlot

/-- What the server does with a slot. -/
inductive PosAct where
  | systemPrompt (tokens : List Int)
  | startPrompt (nPast : Nat)
  | promptBatch (tokens : List Int)
  | sample (token : Int)
  | generate
  | speculate (draft : List Int)
  | accept (ids : List Int)
  | rewind (nKeep : Nat)
deriving DecidableEq

namespace PosSlot

/-- `system_prompt_set` and `system_prompt_update`: the cache is cleared, and the tokens are decoded
and copied to every sequence. -/
def systemPrompt (s : PosSlot) (tokens : List Int) : Option PosSlot :=
  if tokens.length ≤ s.nCells then
    some { s with
      systemTokens := tokens
      cells := cellsFrom 0 tokens
      cacheTokens := []
      drafted := [] }
  else none

/-- The start of a prompt in `batch_pending_prompt`: the part of the cache that it does not share
is removed. -/
def startPrompt (s : PosSlot) (nPast : Nat) : Option PosSlot :=
  if s.drafted = [] ∧ nPast ≤ s.cacheTokens.length then
    some (s.trim (s.cacheTokens.take nPast) (s.systemTokens.length + nPast))
  else none

/-- `add_sampled_tokens` without a draft. -/
def generate (s : PosSlot) : Option PosSlot :=
  if s.drafted = [] then s.addTokens 0 [s.sampled] else none

/-- `add_sampled_tokens` with a draft. -/
def speculate (s : PosSlot) (draft : List Int) : Option PosSlot :=
  if s.drafted = [] ∧ draft ≠ [] then
    (s.addTokens 0 (s.sampled :: draft)).map fun s => { s with drafted := draft }
  else none

/-- What `common_sampler_sample_and_accept_n` returns for a draft: some of its first tokens, and one
that was sampled. -/
def Answers (drafted ids : List Int) : Prop :=
  ids ≠ [] ∧ ids.length ≤ drafted.length + 1 ∧ ids.dropLast = drafted.take (ids.length - 1)

instance (drafted ids : List Int) : Decidable (Answers drafted ids) :=
  inferInstanceAs (Decidable (_ ∧ _ ∧ _))

/-- The cache tokens after `speculative_decoding_accept`. -/
def acceptedTokens (s : PosSlot) (ids : List Int) : List Int :=
  s.cacheTokens.take (s.cacheTokens.length - s.drafted.length) ++ ids.dropLast

/-- `speculative_decoding_accept`. -/
def accept (s : PosSlot) (ids : List Int) : Option PosSlot :=
  if s.drafted ≠ [] ∧ Answers s.drafted ids then
    some { s.trim (s.acceptedTokens ids) (s.acceptedTokens ids).length with
      sampled := ids.getLastD 0
      drafted := [] }
  else none

/-- `rewind_context`. -/
def rewind (s : PosSlot) (nKeep : Nat) : Option PosSlot :=
  if s.drafted = [] ∧ nKeep ≤ s.cacheTokens.length then
    some { s.trim (s.cacheTokens.take nKeep) nKeep with sampled := s.cacheTokens.getD nKeep 0 }
  else none

/-- A step of the server on the slot. -/
def step (s : PosSlot) : PosAct → Option PosSlot
  | .systemPrompt tokens => s.systemPrompt tokens
  | .startPrompt nPast => s.startPrompt nPast
  | .promptBatch tokens =>
    if s.drafted = [] then s.addTokens s.systemTokens.length tokens else none
  | .sample token => some { s with sampled := token }
  | .generate => s.generate
  | .speculate draft => s.speculate draft
  | .accept ids => s.accept ids
  | .rewind nKeep => s.rewind nKeep

/-- A slot before its first request. -/
def initial (nCells : Nat) (h : (nCells : Int) ≤ posMax) : PosSlot :=
  { nCells := nCells, nCells_le := h }

end PosSlot

end PxqLlama.Server
