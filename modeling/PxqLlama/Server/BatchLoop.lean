import Mathlib.Data.List.Basic

/-!
# `Server.BatchLoop`: the loop of `process_batch_tokens`

The batch of a tick is decoded in chunks of `n_batch` tokens. When a chunk finds no room the cache
is compacted once, then the chunk is tried at half the size, and at size one the slots are unwound.
What a decode, a compaction, the unwinding and the sampling do is a parameter (`BatchEnv`).
-/

namespace PxqLlama.Server

/-- What the loop calls: `llama_decode` of the tokens from `i` on, the compaction of the cache,
the unwinding of the slots after a failure, and the work on a chunk that was decoded. -/
structure BatchEnv (σ : Type) where
  decode : σ → Int → Int → Int × σ
  defrag : σ → σ
  failed : σ → Int → σ
  decoded : σ → Int → Int → σ

/-- The loop of `process_batch_tokens`, with the state and `n_batch` at its end. `none` when the
fuel does not suffice. -/
def batchLoop {σ : Type} (env : BatchEnv σ) (nTokens : Int) :
    Nat → Int → Int → Bool → σ → Option (σ × Int)
  | 0, _, _, _, _ => none
  | fuel + 1, i, nBatch, defragTried, st =>
    if nTokens ≤ i then some (st, nBatch)
    else
      let n := min nBatch (nTokens - i)
      let (ret, st) := env.decode st i n
      if ret ≠ 0 then
        if ret = 1 ∧ ¬ defragTried then
          -- the increment of the loop gives the same chunk again
          let i := i - nBatch
          batchLoop env nTokens fuel (i + nBatch) nBatch true (env.defrag st)
        else if nBatch = 1 ∨ ret < 0 then some (env.failed st ret, nBatch)
        else
          let nBatch := nBatch.tdiv 2
          let i := i - nBatch
          batchLoop env nTokens fuel (i + nBatch) nBatch defragTried st
      else batchLoop env nTokens fuel (i + nBatch) nBatch defragTried (env.decoded st i n)

/-- As many rounds as the loop can take: each one decodes a token, compacts the cache or makes the
chunks smaller. -/
def loopFuel (nTokens nBatch : Int) : Nat := nTokens.toNat + nBatch.toNat + 2

/-- `process_batch_tokens`. -/
def processBatchTokens {σ : Type} (env : BatchEnv σ) (nTokens nBatch : Int) (st : σ) :
    Option (σ × Int) :=
  batchLoop env nTokens (loopFuel nTokens nBatch) 0 nBatch false st

end PxqLlama.Server
