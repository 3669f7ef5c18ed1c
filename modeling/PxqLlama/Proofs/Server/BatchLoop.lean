import PxqLlama.Server.BatchLoop

/-!
# `Proofs.Server.BatchLoop`: the loop ends, and its invariants

`batchLoop_isSome` says that the loop ends, and `batchLoop_rule` is its invariant rule: what a
decoded chunk, a failed one and a compaction preserve holds at the end. `firstChunk` is the size of
the first chunk that is decoded.
-/

namespace PxqLlama.Server

variable {fuel : Nat} {nBatch : Int} {tried : Bool}

section
variable {σ : Type} {env : BatchEnv σ} {nTokens : Int}

/-- Half of a chunk size is smaller, and no less than one. -/
theorem tdiv_two {n : Int} (hn : 1 ≤ n) (hne : n ≠ 1) : 1 ≤ n.tdiv 2 ∧ n.tdiv 2 < n := by
  rw [Int.tdiv_eq_ediv_of_nonneg (by omega)]
  omega

/-- A round whose chunk is decoded. -/
theorem batchLoop_of_decoded {i : Int} {st st' : σ} (hend : ¬ nTokens ≤ i)
    (hret : env.decode st i (min nBatch (nTokens - i)) = (0, st')) :
    batchLoop env nTokens (fuel + 1) i nBatch tried st
      = batchLoop env nTokens fuel (i + nBatch) nBatch tried
          (env.decoded st' i (min nBatch (nTokens - i))) := by
  rw [batchLoop, if_neg hend]
  simp only [hret]
  rw [if_neg (not_not.mpr rfl)]

/-- A round whose chunk is not decoded: the same tokens again, in chunks that may be smaller. -/
theorem batchLoop_of_failed {i ret : Int} {st st' : σ} (hend : ¬ nTokens ≤ i)
    (hret : env.decode st i (min nBatch (nTokens - i)) = (ret, st')) (hne : ret ≠ 0) :
    batchLoop env nTokens (fuel + 1) i nBatch tried st
      = if ret = 1 ∧ ¬ tried then batchLoop env nTokens fuel i nBatch true (env.defrag st')
        else if nBatch = 1 ∨ ret < 0 then some (env.failed st' ret, nBatch)
        else batchLoop env nTokens fuel i (nBatch.tdiv 2) tried st' := by
  rw [batchLoop, if_neg hend]
  simp only [hret, Int.sub_add_cancel]
  rw [if_pos hne]

/-- The loop ends: a round decodes tokens, uses up the compaction or makes the chunks smaller. -/
theorem batchLoop_isSome {i : Int} (st : σ) (hbatch : 1 ≤ nBatch)
    (hfuel : (nTokens - i).toNat + nBatch.toNat + (if tried then 0 else 1) < fuel) :
    (batchLoop env nTokens fuel i nBatch tried st).isSome = true := by
  induction fuel generalizing i nBatch tried st with
  | zero => omega
  | succ fuel ih =>
    rw [batchLoop]
    by_cases hend : nTokens ≤ i
    · rw [if_pos hend]
      rfl
    · rw [if_neg hend]
      simp only
      by_cases hret : (env.decode st i (min nBatch (nTokens - i))).1 ≠ 0
      · rw [if_pos hret]
        split
        · rename_i hdefrag
          refine ih _ hbatch ?_
          rw [if_neg hdefrag.2] at hfuel
          rw [if_pos rfl]
          omega
        · split
          · rfl
          · rename_i hhalf
            obtain ⟨hpos, hlt⟩ := tdiv_two hbatch fun h => hhalf (Or.inl h)
            refine ih _ hpos ?_
            omega
      · rw [if_neg hret]
        exact ih _ hbatch (by omega)

theorem processBatchTokens_isSome {nBatch : Int} (hbatch : 1 ≤ nBatch) (st : σ) :
    (processBatchTokens env nTokens nBatch st).isSome = true := by
  refine batchLoop_isSome st hbatch ?_
  rw [loopFuel, if_neg (by decide)]
  omega

/-- The invariant rule of the loop. `P` is about the number of tokens that were decoded. -/
structure LoopRule (env : BatchEnv σ) (nTokens : Int) (P : Int → σ → Prop) (Q : σ → Prop) :
    Prop where
  decoded : ∀ i n st, 0 ≤ i → 1 ≤ n → i + n ≤ nTokens → P i st → (env.decode st i n).1 = 0 →
    P (i + n) (env.decoded (env.decode st i n).2 i n)
  again : ∀ i n st, 0 ≤ i → 1 ≤ n → i + n ≤ nTokens → P i st → (env.decode st i n).1 ≠ 0 →
    P i (env.decode st i n).2
  defrag : ∀ i st, 0 ≤ i → i < nTokens → P i st → P i (env.defrag st)
  failed : ∀ i n st, 0 ≤ i → 1 ≤ n → i + n ≤ nTokens → P i st → (env.decode st i n).1 ≠ 0 →
    Q (env.failed (env.decode st i n).2 (env.decode st i n).1)
  done : ∀ st, P nTokens st → Q st

/-- The rule of the loop: what each chunk keeps, the whole batch keeps. -/
theorem batchLoop_rule {P : Int → σ → Prop} {Q : σ → Prop} (h : LoopRule env nTokens P Q)
    {i nBatch' : Int} {st st' : σ} (hi : 0 ≤ i) (hbatch : 1 ≤ nBatch)
    (hinv : P (min i nTokens) st)
    (hrun : batchLoop env nTokens fuel i nBatch tried st = some (st', nBatch')) : Q st' := by
  induction fuel generalizing i nBatch tried st with
  | zero => exact absurd hrun (by simp [batchLoop])
  | succ fuel ih =>
    rw [batchLoop] at hrun
    by_cases hend : nTokens ≤ i
    · rw [if_pos hend, Option.some_inj, Prod.mk.injEq] at hrun
      rw [Int.min_eq_right hend] at hinv
      rw [← hrun.1]
      exact h.done st hinv
    · have hmin : min i nTokens = i := Int.min_eq_left (by omega)
      rw [if_neg hend] at hrun
      rw [hmin] at hinv
      simp only at hrun
      generalize hn : min nBatch (nTokens - i) = n at hrun
      have hpos : 1 ≤ n := by omega
      have hfit : i + n ≤ nTokens := by omega
      by_cases hret : (env.decode st i n).1 ≠ 0
      · have hagain := h.again i n st hi hpos hfit hinv hret
        rw [if_pos hret] at hrun
        split at hrun
        · -- compacted, and the same chunk again
          rw [Int.sub_add_cancel] at hrun
          refine ih hi hbatch ?_ hrun
          rw [hmin]
          exact h.defrag i _ hi (by omega) hagain
        · split at hrun
          · rw [Option.some_inj, Prod.mk.injEq] at hrun
            rw [← hrun.1]
            exact h.failed i n st hi hpos hfit hinv hret
          · -- the same place, in smaller chunks
            rename_i hhalf
            rw [Int.sub_add_cancel] at hrun
            refine ih hi (tdiv_two hbatch fun h => hhalf (Or.inl h)).1 ?_ hrun
            rw [hmin]
            exact hagain
      · rw [if_neg hret] at hrun
        refine ih (by omega) hbatch ?_ hrun
        have hnext : min (i + nBatch) nTokens = i + n := by omega
        rw [hnext]
        exact h.decoded i n st hi hpos hfit hinv (not_not.mp hret)

theorem processBatchTokens_rule {P : Int → σ → Prop} {Q : σ → Prop} (h : LoopRule env nTokens P Q)
    (htokens : 0 ≤ nTokens) (hbatch : 1 ≤ nBatch) {st : σ} (hinv : P 0 st) :
    ∃ st' nBatch', processBatchTokens env nTokens nBatch st = some (st', nBatch') ∧ Q st' := by
  obtain ⟨⟨st', nBatch'⟩, hrun⟩ :=
    Option.isSome_iff_exists.mp (@processBatchTokens_isSome σ env nTokens nBatch hbatch st)
  refine ⟨st', nBatch', hrun, batchLoop_rule h (Int.le_refl 0) hbatch ?_ hrun⟩
  rwa [Int.min_eq_left htokens]

end

/-- The size of the first chunk that is decoded, from the results of `llama_decode` in their
order: after a failure the same size once more, and then half of it. -/
def firstChunkLoop (ret : Nat → Int) (nTokens : Int) : Nat → Nat → Int → Bool → Option Int
  | 0, _, _, _ => none
  | fuel + 1, calls, nBatch, defragTried =>
    if nTokens ≤ 0 then none
    else if ret calls = 0 then some (min nBatch nTokens)
    else if ret calls = 1 ∧ ¬ defragTried then
      firstChunkLoop ret nTokens fuel (calls + 1) nBatch true
    else if nBatch = 1 ∨ ret calls < 0 then none
    else firstChunkLoop ret nTokens fuel (calls + 1) (nBatch.tdiv 2) defragTried

def firstChunk (ret : Nat → Int) (nTokens nBatch : Int) : Option Int :=
  firstChunkLoop ret nTokens (loopFuel nTokens nBatch) 0 nBatch false

end PxqLlama.Server
