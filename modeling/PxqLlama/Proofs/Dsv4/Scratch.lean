import PxqLlama.Proofs.Dsv4.Plan
import Mathlib.Data.List.Induction

/-!
# `Proofs.Dsv4.Scratch`: the dummy compressed row

A ratio-4 batch that completes no block writes row `cacheSize - 1` all the same. The row can
be a real one: with `kvSize` a multiple of 1024, `4 * cacheSize = kvSize`, and the last
position of the context completes the block of that row.

The argument is about that one position. A token sees row `cacheSize - 1` only at position
`4 * cacheSize - 1` (`lastRow_open`). Its batch then has a boundary, so it makes no scratch
write, and it commits the row itself, before it attends. So the row is rewritten before each
look at it, and what an earlier batch left there is never seen.
-/

namespace PxqLlama.Dsv4

variable {b : LlamaBatch} {kvSize nUbatch : Nat} {pad : Bool}

/-- The rows of a ratio-4 stream cover the context. -/
theorem le_mul_cacheSize (kvSize : Nat) : kvSize ≤ 4 * cacheSize kvSize DSV4_CSA_RATIO := by
  have h := Ggml.le_ggmlPad (dsv4CompSize kvSize DSV4_CSA_RATIO) 256
  have hcomp : (kvSize + 3) / 4 ≤ dsv4CompSize kvSize DSV4_CSA_RATIO := by
    simp only [dsv4CompSize, DSV4_CSA_RATIO]
    omega
  unfold cacheSize
  omega

theorem cacheSize_pos (kvSize : Nat) : 0 < cacheSize kvSize DSV4_CSA_RATIO := by
  have h := Ggml.le_ggmlPad (dsv4CompSize kvSize DSV4_CSA_RATIO) 256
  unfold cacheSize
  unfold dsv4CompSize at *
  omega

theorem cacheSize_mod (kvSize : Nat) : cacheSize kvSize DSV4_CSA_RATIO % 256 = 0 := by
  rw [cacheSize, Ggml.ggmlPad_256]
  omega

/-- Row `j` is open for a token at `p` when its block is complete. -/
theorem compOpen_iff {ratio stateSize cacheRows nKv i j p : Nat} {overlap : Bool}
    (hi : i < b.nTokens) (hp : dsv4BatchPos b i = p)
    (h : compOpen (dsv4BuildCompPlan b ratio overlap stateSize cacheRows) nKv i j = true) :
    j < (p + 1) / ratio := by
  have hvis : (planLoop b ratio overlap stateSize b.nTokens).nVisible i = (p + 1) / ratio := by
    rw [planLoop_nVisible, if_pos ⟨hi, by omega⟩, hp]
    rfl
  rw [compOpen, decide_eq_true_eq, plan_nVisible, hvis] at h
  omega

/-- Only the last position of a full context sees the last row. -/
theorem lastRow_open {i nKv : Nat} (hb : InContext kvSize b) (hi : i < b.nTokens)
    (h : compOpen ((csaStream pad nUbatch kvSize).plan b) nKv i
      (cacheSize kvSize DSV4_CSA_RATIO - 1) = true) :
    dsv4BatchPos b i + 1 = 4 * cacheSize kvSize DSV4_CSA_RATIO := by
  obtain ⟨hnonneg, hlt⟩ := hb i hi
  obtain ⟨p, hp⟩ : ∃ p : Nat, dsv4BatchPos b i = p := ⟨(dsv4BatchPos b i).toNat, by omega⟩
  have hvis : cacheSize kvSize DSV4_CSA_RATIO - 1 < (p + 1) / 4 := compOpen_iff hi hp h
  have hcover := le_mul_cacheSize kvSize
  have hcpos := cacheSize_pos kvSize
  omega

/-- The batch that sees the last row commits it, and makes no scratch write. -/
theorem lastRow_open_commits {i nKv : Nat} (hb : InContext kvSize b) (hi : i < b.nTokens)
    (h : compOpen ((csaStream pad nUbatch kvSize).plan b) nKv i
      (cacheSize kvSize DSV4_CSA_RATIO - 1) = true) :
    (csaStream pad nUbatch kvSize).scratch b = false ∧
      cacheSize kvSize DSV4_CSA_RATIO - 1
        ∈ ((csaStream pad nUbatch kvSize).plan b).stateWriteIdxs := by
  set S := csaStream pad nUbatch kvSize with hS
  -- The token is at the last position of a full context, which completes the last block.
  have hpos := lastRow_open hb hi h
  have hcpos := cacheSize_pos kvSize
  have hmem : cacheSize kvSize DSV4_CSA_RATIO - 1
      ∈ (planLoop b S.ratio S.overlap S.stateSize b.nTokens).writeIdxs := by
    refine (mem_planLoop_writeIdxs b S.ratio S.overlap S.stateSize (Nat.le_refl _)).mpr
      ⟨i, hi, 4 * cacheSize kvSize DSV4_CSA_RATIO - 1, by omega, ?_, ?_⟩
    · show (4 * cacheSize kvSize DSV4_CSA_RATIO - 1 + 1) % 4 = 0
      omega
    · show cacheSize kvSize DSV4_CSA_RATIO - 1 = (4 * cacheSize kvSize DSV4_CSA_RATIO - 1) / 4
      omega
  -- A batch that completes a block gets no scratch write.
  have hscratch : S.scratch b = false := by
    have hne := List.ne_nil_of_mem hmem
    simp [StreamParams.scratch, needsScratch, hne]
  refine ⟨hscratch, ?_⟩
  rw [StreamParams.plan, plan_stateWriteIdxs, if_neg]
  · exact hmem
  · rw [← StreamParams.scratch, hscratch]
    exact Bool.false_ne_true

/-- With the scratch write, the last row is the only one written. -/
theorem scratch_stateWriteIdxs {S : StreamParams} (h : S.scratch b = true) :
    (S.plan b).stateWriteIdxs = [S.cacheSize - 1] := by
  rw [StreamParams.plan, plan_stateWriteIdxs, ← StreamParams.scratch, if_pos h]

theorem stateWriteIdxs_lt (hb : InContext kvSize b) {r : Nat}
    (hr : r ∈ ((csaStream pad nUbatch kvSize).plan b).stateWriteIdxs) :
    r < cacheSize kvSize DSV4_CSA_RATIO := by
  have hcover := le_mul_cacheSize kvSize
  have hcpos := cacheSize_pos kvSize
  rw [StreamParams.plan, plan_stateWriteIdxs] at hr
  split at hr
  · have hlast : r = cacheSize kvSize DSV4_CSA_RATIO - 1 := List.mem_singleton.mp hr
    omega
  · -- a boundary `p` below `kvSize` commits row `p / 4`
    obtain ⟨i, hi, p, hp, hbound, rfl⟩ :=
      (mem_planLoop_writeIdxs b _ _ _ (Nat.le_refl _)).mp hr
    have hlt := (hb i hi).2
    have hbound4 : (p + 1) % 4 = 0 := hbound
    show p / 4 < _
    omega

theorem nKv_le_cacheSize (hb : InContext kvSize b) :
    ((csaStream pad nUbatch kvSize).plan b).nKv ≤ cacheSize kvSize DSV4_CSA_RATIO := by
  have hcover := le_mul_cacheSize kvSize
  have hmod := cacheSize_mod kvSize
  have hle : (planLoop b 4 true (csaStream pad nUbatch kvSize).stateSize b.nTokens).nKv
      ≤ cacheSize kvSize DSV4_CSA_RATIO := by
    refine planLoop_nKv_le b 4 true _ (fun i hi hpos => ?_)
    have hlt := (hb i hi).2
    omega
  rw [StreamParams.plan, plan_nKv, Ggml.ggmlPad_256]
  -- The padding stops at `cacheSize`, itself a multiple of 256.
  change (_ + 255) / 256 * 256 ≤ _
  have hle' : (planLoop b (csaStream pad nUbatch kvSize).ratio
      (csaStream pad nUbatch kvSize).overlap (csaStream pad nUbatch kvSize).stateSize
      b.nTokens).nKv ≤ cacheSize kvSize DSV4_CSA_RATIO := hle
  omega

/-! ### Runs -/

/-- A row after an ubatch: written by it, or as it was. -/
theorem commitRows_apply (S : StreamParams) (rows : Nat → CompRow) (b : LlamaBatch) (u j : Nat) :
    commitRows S rows b u j = if j ∈ (S.plan b).stateWriteIdxs then
      (if S.scratch b then .scratch u else .block u) else rows j := by
  split
  · rename_i hmem
    refine Stores.run_apply_of_forall_eq _ ?_ ⟨_, List.mem_map.mpr ⟨j, hmem, rfl⟩, rfl⟩
    intro w hw _
    obtain ⟨r, _, rfl⟩ := List.mem_map.mp hw
    rfl
  · rename_i hmem
    refine Stores.run_apply_of_forall_ne _ ?_
    intro w hw hwj
    obtain ⟨r, hr, rfl⟩ := List.mem_map.mp hw
    exact hmem (hwj ▸ hr)

theorem commitRowsRun_append (S : StreamParams) (pre : List LlamaBatch) (b : LlamaBatch) :
    commitRowsRun S (pre ++ [b]) = commitRows S (commitRowsRun S pre) b pre.length := by
  simp [commitRowsRun, List.zipIdx_append, List.foldl_append]

/-- A scratch write never leaves the last row. -/
theorem commitRowsRun_scratch (S : StreamParams) (bs : List LlamaBatch) {j u : Nat}
    (h : commitRowsRun S bs j = .scratch u) : j = S.cacheSize - 1 := by
  induction bs using List.reverseRecOn with
  | nil => cases h
  | append_singleton pre b ih =>
    rw [commitRowsRun_append, commitRows_apply] at h
    split at h
    · -- written by `b`: the list of a scratch write has one entry
      rename_i hmem
      split at h
      · rename_i hscratch
        rw [scratch_stateWriteIdxs hscratch] at hmem
        exact List.mem_singleton.mp hmem
      · cases h
    · exact ih h

/-- **The dummy compressed row is never attended and never real.** After any run of ubatches
inside the context, take the ubatch `b` that is decoded last, with the rows as its
attention sees them. If `b` makes the scratch write, no token of `b` sees the last row. No
open row ever holds a scratch write, and if the last row is open, what it holds is the
block of `b` itself. The graph width and the rows written stay within the cache. -/
theorem scratch_row_never_attended (pad : Bool) (nUbatch kvSize : Nat)
    {pre : List LlamaBatch} {b : LlamaBatch}
    (hrun : ∀ b' ∈ pre ++ [b], InContext kvSize b') :
    let S := csaStream pad nUbatch kvSize
    let last := S.cacheSize - 1
    let rows := commitRowsRun S (pre ++ [b])
    (S.scratch b = true → (S.plan b).stateWriteIdxs = [last] ∧
      ∀ i < b.nTokens, ∀ nKv, compOpen (S.plan b) nKv i last = false) ∧
    (∀ i < b.nTokens, ∀ nKv j, compOpen (S.plan b) nKv i j = true →
      (∀ u, rows j ≠ .scratch u) ∧ (j = last → rows j = .block pre.length)) ∧
    (S.plan b).nKv ≤ S.cacheSize ∧ ∀ r ∈ (S.plan b).stateWriteIdxs, r < S.cacheSize := by
  intro S last rows
  have hb : InContext kvSize b := hrun b (by simp)
  -- Who sees the last row has just committed it, whatever earlier ubatches left there.
  have hlast : ∀ i < b.nTokens, ∀ nKv, compOpen (S.plan b) nKv i last = true →
      rows last = .block pre.length := by
    intro i hi nKv hopen
    obtain ⟨hscratch, hmem⟩ := lastRow_open_commits hb hi hopen
    show commitRowsRun S (pre ++ [b]) last = _
    rw [commitRowsRun_append, commitRows_apply, if_pos (show last ∈ _ from hmem),
      if_neg (show ¬ S.scratch b = true from ne_true_of_eq_false hscratch)]
  refine ⟨fun hscratch => ⟨scratch_stateWriteIdxs hscratch, fun i hi nKv => ?_⟩, ?_,
    nKv_le_cacheSize hb, fun r hr => stateWriteIdxs_lt hb hr⟩
  · by_contra hopen
    rw [Bool.not_eq_false] at hopen
    have hno := (lastRow_open_commits hb hi hopen).1
    rw [hscratch] at hno
    cases hno
  · intro i hi nKv j hopen
    refine ⟨fun u hu => ?_, fun hj => ?_⟩
    · -- A scratch write sits in the last row, and there the block of `b` replaced it.
      have hj : j = last := commitRowsRun_scratch S _ hu
      rw [hj] at hopen hu
      rw [hlast i hi nKv hopen] at hu
      cases hu
    · rw [hj] at hopen ⊢
      exact hlast i hi nKv hopen

/-- A context of 1024 positions, where the last row is a real one: position 0 makes the
scratch write, the token at position 1023 sees the last row, and finds its own block. -/
theorem scratch_row_never_attended_1024 :
    let S := csaStream false 512 1024
    let rows := commitRowsRun S ([batchOfPositions [0]] ++ [batchOfPositions [1023]])
    S.scratch (batchOfPositions [0]) = true ∧
      compOpen (S.plan (batchOfPositions [1023])) 256 0 255 = true ∧ rows 255 = .block 1 := by
  have h := scratch_row_never_attended false 512 1024
    (show ∀ b' ∈ [batchOfPositions [0]] ++ [batchOfPositions [1023]], InContext 1024 b'
      by decide)
  have hopen : compOpen ((csaStream false 512 1024).plan (batchOfPositions [1023])) 256 0 255
      = true := by decide
  exact ⟨by decide, hopen, (h.2.1 0 (by decide) 256 255 hopen).2 (by decide)⟩

end PxqLlama.Dsv4
