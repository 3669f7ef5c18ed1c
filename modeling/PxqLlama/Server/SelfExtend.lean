import PxqLlama.Kv.TokenCells
import PxqLlama.Lib.Runs

/-!
# `Server.SelfExtend`: group attention of a slot

With a group-attention factor `ga_n` other than 1, `extend_context` runs before every decode. While
`n_past_se` has reached the end of the window, the next block of positions of the slot's sequence is
shifted to a multiple of the window's width, divided by the factor and shifted back with what
follows it. The positions of new tokens are those of `pos_next`, which counts the tokens of the
slot.

The model is the slot of one sequence over its ticks: a batch is filled, and decoded in pieces. A
piece that can not be decoded is tried again, and `extend_context` runs again for it. The tokens are
text.
-/

namespace PxqLlama.Server

open PxqLlama.Kv

/-- `llama_kv_cache_seq_div` on the cells of the sequence. The C quotient truncates. -/
def tokenSeqDiv (cells : List TokenCell) (p0 p1 : Int) (d : Nat) : List TokenCell :=
  cells.map fun c => if c.inRange p0 p1 then { c with pos := c.pos.tdiv d } else c

/-- The settings of group attention, with what the server asserts of them when it starts. -/
structure Group where
  gaN : Nat
  gaW : Nat
  one_lt_gaN : 1 < gaN
  gaN_dvd : gaN ∣ gaW
deriving DecidableEq

/-- The part of `server_slot` that self-extend depends on, with the cells of its sequence. -/
structure GroupSlot extends Group where
  nCells : Nat
  nCells_le : (nCells : Int) ≤ posMax
  systemTokens : List Int := []
  cells : List TokenCell := []
  cacheTokens : List Int := []
  gaI : Int := 0
  nPastSe : Int := 0
  /-- The rows of the batch that are not decoded yet. -/
  pending : List TokenCell := []
deriving DecidableEq

/-- What the server does with the slot. -/
inductive GroupAct where
  | startPrompt
  | promptBatch (tokens : List Int)
  | generate (tokens : List Int)
  | decode (nTokens : Nat)
  | failDecode (nTokens : Nat)
  | takeBack (nKeep : Nat)
deriving DecidableEq

namespace GroupSlot

/-- `cache_tokens.pos_next()`. -/
def posNext (s : GroupSlot) : Nat := s.cacheTokens.length

/-- The loop has to compress a block: the window is full. -/
def windowFull (s : GroupSlot) : Prop := s.gaI + s.gaW ≤ s.nPastSe

instance (s : GroupSlot) : Decidable s.windowFull := inferInstanceAs (Decidable (_ ≤ _))

/-- The number of positions that a block becomes. -/
def block (s : GroupSlot) : Int := s.gaW / s.gaN

/-- The body of the loop of `extend_context`. -/
def compress (s : GroupSlot) : GroupSlot :=
  let ib := (s.gaN * s.gaI).tdiv s.gaW
  let bd := s.block * (s.gaN - 1)
  let dd := s.block - ib * bd - s.gaW
  let cells := tokenSeqAdd s.cells s.gaI s.nPastSe (ib * bd)
  let cells := tokenSeqDiv cells (s.gaI + ib * bd) (s.gaI + ib * bd + s.gaW) s.gaN
  let cells := tokenSeqAdd cells (s.gaI + ib * bd + s.gaW) (s.nPastSe + ib * bd) dd
  { s with
    cells := cells
    nPastSe := s.nPastSe - bd
    gaI := s.gaI + s.block }

/-- The loop of `extend_context`. A width of zero is divided by. -/
def extendLoop : (fuel : Nat) → GroupSlot → Option GroupSlot
  | 0, _ => none
  | fuel + 1, s =>
    if s.windowFull then if s.gaW = 0 then none else extendLoop fuel s.compress
    else some s

/-- A round takes the width from the distance of `n_past_se` to `ga_i`. -/
def loopFuel (s : GroupSlot) : Nat := (s.nPastSe - s.gaI).toNat + 1

/-- `extend_context`, for a batch of `n_tokens`. -/
def extendContext (s : GroupSlot) (nTokens : Nat) : Option GroupSlot :=
  (extendLoop s.loopFuel s).map fun s => { s with nPastSe := s.nPastSe + nTokens }

/-- `common_batch_add` with the position `offset + pos_next()`, and `push_back`, for each token. -/
def addTokens (offset : Nat) (s : GroupSlot) (tokens : List Int) : GroupSlot :=
  { s with
    pending := s.pending ++ cellsFrom (offset + s.posNext : Nat) tokens
    cacheTokens := s.cacheTokens ++ tokens }

/-- `keep_first` on the cache tokens, and the removal of the cells from a position on. -/
def trim (s : GroupSlot) (nKeep p0 : Nat) : GroupSlot :=
  { s with
    cacheTokens := s.cacheTokens.take nKeep
    cells := tokenSeqRm s.cells p0 (-1) }

/-- The start of a prompt. `cache_prompt` is off with group attention, so nothing is kept but the
system prompt. -/
def startPrompt (s : GroupSlot) : GroupSlot :=
  { s.trim 0 s.systemTokens.length with gaI := 0, nPastSe := 0, pending := [] }

/-- `batch_pending_prompt`, for the next part of the prompt. -/
def promptBatch (s : GroupSlot) (tokens : List Int) : Option GroupSlot :=
  if s.pending = [] then
    let s := s.trim s.posNext (s.systemTokens.length + s.posNext)
    some (s.addTokens s.systemTokens.length tokens)
  else none

/-- `add_sampled_tokens`, for the sampled token and its draft. -/
def generate (s : GroupSlot) (tokens : List Int) : Option GroupSlot :=
  if s.pending = [] then some (s.addTokens 0 tokens) else none

/-- The next tokens of the batch are there and fit in the cache. -/
def CanDecode (s : GroupSlot) (nTokens : Nat) : Prop :=
  0 < nTokens ∧ nTokens ≤ s.pending.length ∧ s.cells.length + nTokens ≤ s.nCells

instance (s : GroupSlot) (nTokens : Nat) : Decidable (s.CanDecode nTokens) :=
  inferInstanceAs (Decidable (_ ∧ _ ∧ _))

/-- One round of `process_batch_tokens`, when `llama_decode` returns 0. -/
def decode (s : GroupSlot) (nTokens : Nat) : Option GroupSlot :=
  if s.CanDecode nTokens then
    (s.extendContext nTokens).map fun s => { s with
      cells := s.cells ++ s.pending.take nTokens
      pending := s.pending.drop nTokens }
  else none

/-- One round of `process_batch_tokens`, when `llama_decode` fails: the tokens stay in the batch. -/
def failDecode (s : GroupSlot) (nTokens : Nat) : Option GroupSlot :=
  if nTokens ≤ s.pending.length then s.extendContext nTokens else none

/-- Rejected drafts and banned text are removed from the slot. -/
def takeBack (s : GroupSlot) (nKeep : Nat) : Option GroupSlot :=
  if s.pending = [] ∧ nKeep ≤ s.cacheTokens.length then some (s.trim nKeep nKeep) else none

/-- A step of the server on the slot. -/
def step (s : GroupSlot) : GroupAct → Option GroupSlot
  | .startPrompt => some s.startPrompt
  | .promptBatch tokens => s.promptBatch tokens
  | .generate tokens => s.generate tokens
  | .decode nTokens => s.decode nTokens
  | .failDecode nTokens => s.failDecode nTokens
  | .takeBack nKeep => s.takeBack nKeep

/-- A slot before its first request, behind the system prompt. -/
def initial (g : Group) (nCells : Nat) (h : (nCells : Int) ≤ posMax) (systemTokens : List Int) :
    GroupSlot :=
  { toGroup := g
    nCells := nCells
    nCells_le := h
    systemTokens := systemTokens
    cells := cellsFrom 0 systemTokens }

end GroupSlot

end PxqLlama.Server
