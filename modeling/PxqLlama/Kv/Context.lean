import PxqLlama.Kv.Defrag
import PxqLlama.Ggml.Pad
import Mathlib.Data.Finset.Sort

/-!
# `Kv.Context`: one context, two caches

The full-attention layers keep their keys in `kv_self`, and, when it is active, the sliding
layers keep theirs in `kv_swa`. The public edits act on both. `llamaKvCacheUpdate` does what
was put off until the next decode. `decodeUbatch` is the placement of one ubatch in
`llama_decode_internal`, with what the rest of the function does to the caches.

`KvOp` is one call from outside, and `kvRun` a run of them from a fresh context.
-/

namespace PxqLlama.Kv

open Ggml (ggmlPad)

/-- What of `struct llama_context` decides about the caches. -/
structure KvContext where
  kvSelf : KvCache
  kvSwa : KvCache
  swaKvActive : Bool
  nSwa : Nat
  swaKvGuard : Nat
  flashAttn : Bool
  /-- `hparams.rope_type != LLAMA_ROPE_TYPE_NONE`. -/
  rope : Bool
  /-- `get_can_shift`. -/
  canShift : Bool
  /-- `max_moves` of a defragmentation. -/
  maxMoves : Nat

/-- `llama_kv_cache_get_padding`. -/
def kvCacheGetPadding (flashAttn : Bool) : Nat := if flashAttn then 256 else 32

def KvContext.pad (ctx : KvContext) : Nat := kvCacheGetPadding ctx.flashAttn

/-! ### Public edits -/

/-- `llama_kv_cache_clear`. -/
def kvClear (ctx : KvContext) : KvContext :=
  { ctx with
    kvSelf := llamaKvCacheClear ctx.kvSelf
    kvSwa := if ctx.swaKvActive then llamaKvCacheClear ctx.kvSwa else ctx.kvSwa }

/-- The lambda `check`: a sequence with a hole in its window is removed from both caches. -/
def coverageCheck (ctx : KvContext) (s : Int) : Bool × KvContext :=
  if llamaKvSwaCoverageOk ctx.kvSwa ctx.nSwa s then (true, ctx)
  else (false, { ctx with
    kvSwa := (llamaKvCacheSeqRm ctx.kvSwa s (-1) (-1)).2
    kvSelf := (llamaKvCacheSeqRm ctx.kvSelf s (-1) (-1)).2 })

/-- The sequences of the cells of a cache. -/
def seqsOf (c : KvCache) : Finset Int :=
  (List.range c.size).foldl (fun seqs i => seqs ∪ (c.cells i).seqId) ∅

/-- `llama_kv_cache_seq_rm`. -/
def kvSeqRm (ctx : KvContext) (s p0 p1 : Int) : Bool × KvContext :=
  let (ok, kvSelf) := llamaKvCacheSeqRm ctx.kvSelf s p0 p1
  let ctx := { ctx with kvSelf := kvSelf }
  if ctx.swaKvActive then
    let (okSwa, kvSwa) := llamaKvCacheSeqRm ctx.kvSwa s p0 p1
    let ctx := { ctx with kvSwa := kvSwa }
    if 0 ≤ s then
      let (covered, ctx) := coverageCheck ctx s
      (if covered then ok && okSwa else false, ctx)
    else
      let (allOk, ctx) := ((seqsOf ctx.kvSwa).sort (· ≤ ·)).foldl (fun (acc : Bool × KvContext) s =>
        let (covered, ctx) := coverageCheck acc.2 s
        (acc.1 && covered, ctx)) (true, ctx)
      (if allOk then ok && okSwa else false, ctx)
  else (ok, ctx)

/-- `llama_kv_cache_seq_cp`. -/
def kvSeqCp (ctx : KvContext) (src dst p0 p1 : Int) : Option KvContext :=
  if src = dst then some ctx
  else
    match llamaKvCacheSeqCp ctx.kvSelf src dst p0 p1 with
    | none => none
    | some kvSelf =>
      if ctx.swaKvActive then
        match llamaKvCacheSeqCp ctx.kvSwa src dst p0 p1 with
        | none => none
        | some kvSwa => some { ctx with kvSelf := kvSelf, kvSwa := kvSwa }
      else some { ctx with kvSelf := kvSelf }

/-- The edits that the public functions make to both caches. -/
def editBoth (ctx : KvContext) (f : KvCache → KvCache) : KvContext :=
  { ctx with
    kvSelf := f ctx.kvSelf
    kvSwa := if ctx.swaKvActive then f ctx.kvSwa else ctx.kvSwa }

/-- `llama_kv_cache_seq_keep`. -/
def kvSeqKeep (ctx : KvContext) (s : Int) : KvContext :=
  editBoth ctx fun c => llamaKvCacheSeqKeep c s

/-- `llama_kv_cache_seq_add`. -/
def kvSeqAdd (ctx : KvContext) (s p0 p1 delta : Int) : KvContext :=
  if delta = 0 then ctx else editBoth ctx fun c => llamaKvCacheSeqAdd c s p0 p1 delta

/-- `llama_kv_cache_seq_div`. -/
def kvSeqDiv (ctx : KvContext) (s p0 p1 d : Int) : KvContext :=
  if d = 1 then ctx else editBoth ctx fun c => llamaKvCacheSeqDiv c s p0 p1 d

/-- `llama_kv_cache_defrag`. -/
def kvDefrag (ctx : KvContext) : KvContext :=
  { ctx with kvSelf := { ctx.kvSelf with doDefrag := true } }

/-! ### Update -/

/-- After a K-shift: no shift is pending. -/
def clearShift (c : KvCache) : KvCache :=
  { c with
    hasShift := false
    cells := fun i => if i < c.size then { c.cells i with delta := 0 } else c.cells i }

/-- After a state copy: every cell is its own source. -/
def clearCopy (c : KvCache) : KvCache :=
  { c with
    doCopy := false
    cells := fun i => if i < c.size then { c.cells i with src := i } else c.cells i }

/-- The K-shift of `llama_kv_cache_update_internal`; `none` when the model cannot shift. -/
def updateShift (ctx : KvContext) : Option KvContext :=
  if ctx.rope ∧ (ctx.kvSelf.hasShift ∨ (ctx.swaKvActive ∧ ctx.kvSwa.hasShift)) then
    if ctx.canShift then
      some { ctx with
        kvSelf := clearShift ctx.kvSelf
        kvSwa := if ctx.swaKvActive then clearShift ctx.kvSwa else ctx.kvSwa }
    else none
  else some ctx

/-- The state copy. -/
def updateCopy (ctx : KvContext) : KvContext :=
  if (ctx.kvSelf.recurrent ∨ ctx.kvSelf.hasQnextState) ∧ ctx.kvSelf.doCopy then
    { ctx with kvSelf := clearCopy ctx.kvSelf }
  else ctx

/-- The defragmentation; `none` when an assertion fails. -/
def updateDefrag (ctx : KvContext) : Option KvContext :=
  if ctx.kvSelf.doDefrag then
    match llamaKvCacheDefragInternal ctx.kvSelf ctx.maxMoves with
    | none => none
    | some (kvSelf, _) => some { ctx with kvSelf := { kvSelf with doDefrag := false } }
  else some ctx

/-- `llama_kv_cache_update`: the return code and the context. -/
def llamaKvCacheUpdate (ctx : KvContext) : Option (Nat × KvContext) :=
  match updateShift ctx with
  | none => some (1, ctx)
  | some ctx => (updateDefrag (updateCopy ctx)).map fun ctx => (0, ctx)

/-! ### Decode -/

/-- "if we have enough unused cells before the current head". -/
def rewindHead (c : KvCache) (nTokens : Nat) : KvCache :=
  if addU32 c.used (2 * nTokens) < c.head then { c with head := 0 } else c

/-- The padded bound on the cells that a graph looks at. -/
def windowWidth (size pad maxCell : Nat) : Nat := min size (max pad (ggmlPad maxCell pad))

/-- `kv_self.n`, from the sampling variant of the bound. -/
def setSelfN (c : KvCache) (pad : Nat) : KvCache :=
  if c.recurrent then c
  else { c with n := windowWidth c.size pad (llamaKvCacheCellMaxPad c pad) }

/-- `kv_swa.n`, from the exact bound. -/
def setSwaN (c : KvCache) (pad : Nat) : KvCache :=
  { c with n := windowWidth c.size pad (llamaKvCacheCellMax c) }

/-- Evict and place in the sliding cache, at a guard. -/
def swaTry (c : KvCache) (nSwa : Nat) (b : UBatch) (guard : Nat) : Bool × KvCache :=
  llamaKvSwaFindSlot (llamaKvSwaEvict c nSwa b guard) b

/-- The sliding cache first: evict and place, and once more without the guard. -/
def swaPlace (c : KvCache) (nSwa swaKvGuard : Nat) (b : UBatch) : Bool × KvCache :=
  let (found, c) := swaTry c nSwa b swaKvGuard
  if found then (true, c) else swaTry c nSwa b 0

/-- The sliding part of a placement. -/
def placeSwa (ctx : KvContext) (b : UBatch) : Bool × KvCache :=
  if ctx.swaKvActive then swaPlace ctx.kvSwa ctx.nSwa ctx.swaKvGuard b else (true, ctx.kvSwa)

/-- `kv_swa` when the inputs of the graph are set. -/
def swaInputs (ctx : KvContext) (b : UBatch) : KvCache :=
  if ctx.swaKvActive then setSwaN (placeSwa ctx b).2 ctx.pad else (placeSwa ctx b).2

/-- `kv_swa` after the placement is undone. -/
def swaUndone (ctx : KvContext) (b : UBatch) : KvCache :=
  if ctx.swaKvActive then
    llamaKvSwaReleaseSlot (swaInputs ctx b) (placeSwa ctx b).2.head b.length
  else swaInputs ctx b

/-- The placement of one ubatch: the return code, and the context when the inputs of the
graph are set. -/
def placeUbatch (ctx : KvContext) (b : UBatch) : Nat × KvContext :=
  let ctx := { ctx with kvSelf := rewindHead ctx.kvSelf b.length }
  if (placeSwa ctx b).1 = false then (1, { ctx with kvSwa := (placeSwa ctx b).2 })
  else
    let (okSelf, kvSelf) := llamaKvCacheFindSlot ctx.kvSelf b
    if okSelf = false then (1, { ctx with kvSelf := kvSelf, kvSwa := swaUndone ctx b })
    else (0, { ctx with kvSelf := setSelfN kvSelf ctx.pad, kvSwa := swaInputs ctx b })

/-- "update the kv ring buffer", after the graph was computed. -/
def advanceHead (c : KvCache) (nTokens : Nat) : KvCache :=
  let head := c.head + nTokens
  { c with head := if c.size ≤ head then 0 else head }

/-- One ubatch of `llama_decode_internal`: the return code, and the context when the inputs
are set (with code 0) or when the function returns. -/
def decodeInputs (ctx : KvContext) (b : UBatch) : Option (Nat × KvContext) :=
  match llamaKvCacheUpdate ctx with
  | none => none
  | some (ret, ctx) => if ret ≠ 0 then some (ret, ctx) else some (placeUbatch ctx b)

/-- The same ubatch, to the end. -/
def decodeUbatch (ctx : KvContext) (b : UBatch) : Option (Nat × KvContext) :=
  (decodeInputs ctx b).map fun (ret, ctx) =>
    if ret = 0 then (0, { ctx with kvSelf := advanceHead ctx.kvSelf b.length }) else (ret, ctx)

/-! ### Runs -/

/-- One call. -/
inductive KvOp
  | decode (b : UBatch)
  | seqRm (s p0 p1 : Int)
  | seqCp (src dst p0 p1 : Int)
  | seqKeep (s : Int)
  | seqAdd (s p0 p1 delta : Int)
  | seqDiv (s p0 p1 d : Int)
  | clear
  | defrag
  | update

/-- The call copies no sequence. -/
def KvOp.NoCopy : KvOp → Prop
  | .seqCp _ _ _ _ => False
  | _ => True

/-- The context after a call; `none` when the program aborts. -/
def kvStep (ctx : KvContext) : KvOp → Option KvContext
  | .decode b => (decodeUbatch ctx b).map Prod.snd
  | .seqRm s p0 p1 => some (kvSeqRm ctx s p0 p1).2
  | .seqCp src dst p0 p1 => kvSeqCp ctx src dst p0 p1
  | .seqKeep s => some (kvSeqKeep ctx s)
  | .seqAdd s p0 p1 delta => some (kvSeqAdd ctx s p0 p1 delta)
  | .seqDiv s p0 p1 d => some (kvSeqDiv ctx s p0 p1 d)
  | .clear => some (kvClear ctx)
  | .defrag => some (kvDefrag ctx)
  | .update => (llamaKvCacheUpdate ctx).map Prod.snd

/-- The context after a run of calls. -/
def kvRun (ctx : KvContext) : List KvOp → Option KvContext
  | [] => some ctx
  | op :: ops =>
    match kvStep ctx op with
    | none => none
    | some ctx => kvRun ctx ops

/-! ### What one call can do -/

variable {ret : Nat}

/-- The K-shift does nothing, or it clears the shift of both caches. -/
theorem updateShift_cases {ctx ctx' : KvContext} (h : updateShift ctx = some ctx') :
    ctx' = ctx ∨ ctx' = { ctx with
      kvSelf := clearShift ctx.kvSelf
      kvSwa := if ctx.swaKvActive then clearShift ctx.kvSwa else ctx.kvSwa } := by
  rw [updateShift] at h
  split at h
  · split at h
    · cases h
      exact Or.inr rfl
    · cases h
  · cases h
    exact Or.inl rfl

/-- What an update does: it refuses a shift, or it clears the pending work. The cells of the
sliding cache change in their shift only. -/
theorem llamaKvCacheUpdate_cases {ctx ctx' : KvContext}
    (h : llamaKvCacheUpdate ctx = some (ret, ctx')) :
    (ret = 1 ∧ ctx' = ctx) ∨
      (ret = 0 ∧ ∃ kvSelf kvSwa, ctx' = { ctx with kvSelf := kvSelf, kvSwa := kvSwa } ∧
        kvSelf.size = ctx.kvSelf.size ∧ kvSelf.recurrent = ctx.kvSelf.recurrent ∧
        (kvSwa = ctx.kvSwa ∨ kvSwa = clearShift ctx.kvSwa)) := by
  rw [llamaKvCacheUpdate] at h
  cases hshift : updateShift ctx with
  | none =>
    rw [hshift] at h
    cases h
    exact Or.inl ⟨rfl, rfl⟩
  | some ctx₁ =>
    right
    -- The shift clears `delta` in both caches, when there is one.
    have h₁ : ∃ kvSelf kvSwa, ctx₁ = { ctx with kvSelf := kvSelf, kvSwa := kvSwa } ∧
        kvSelf.size = ctx.kvSelf.size ∧ kvSelf.recurrent = ctx.kvSelf.recurrent ∧
        (kvSwa = ctx.kvSwa ∨ kvSwa = clearShift ctx.kvSwa) := by
      rcases updateShift_cases hshift with rfl | rfl
      · exact ⟨_, _, rfl, rfl, rfl, Or.inl rfl⟩
      · refine ⟨_, _, rfl, rfl, rfl, ?_⟩
        split
        · exact Or.inr rfl
        · exact Or.inl rfl
    obtain ⟨kvSelf, kvSwa, rfl, hsize, hrec, hswa⟩ := h₁
    -- The copy and the defragmentation are about `kv_self`, and change cells and head.
    have h₂ : ∃ kvSelf', updateCopy { ctx with kvSelf := kvSelf, kvSwa := kvSwa }
          = { ctx with kvSelf := kvSelf', kvSwa := kvSwa } ∧
        kvSelf'.size = kvSelf.size ∧ kvSelf'.recurrent = kvSelf.recurrent := by
      rw [updateCopy]
      split <;> exact ⟨_, rfl, rfl, rfl⟩
    obtain ⟨kvSelf', hcopy, hsize', hrec'⟩ := h₂
    simp only [hshift, hcopy, Option.map_eq_some_iff] at h
    obtain ⟨ctx₂, hdefrag, heq⟩ := h
    obtain ⟨rfl, rfl⟩ := Prod.mk.inj heq
    refine ⟨rfl, ?_⟩
    rw [updateDefrag] at hdefrag
    split at hdefrag
    · cases hint : llamaKvCacheDefragInternal kvSelf' ctx.maxMoves with
      | none =>
        simp only [hint] at hdefrag
        cases hdefrag
      | some r =>
        simp only [hint] at hdefrag
        cases hdefrag
        obtain ⟨hsize'', hrec''⟩ := llamaKvCacheDefragInternal_shape hint
        exact ⟨_, kvSwa, rfl, hsize''.trans (hsize'.trans hsize), hrec''.trans (hrec'.trans hrec),
          hswa⟩
    · cases hdefrag
      exact ⟨kvSelf', kvSwa, rfl, hsize'.trans hsize, hrec'.trans hrec, hswa⟩

/-- What a decode does up to the inputs: it returns from the update, or it places. -/
theorem decodeInputs_cases {ctx ctx' : KvContext} {b : UBatch}
    (h : decodeInputs ctx b = some (ret, ctx')) :
    (ret ≠ 0 ∧ llamaKvCacheUpdate ctx = some (ret, ctx')) ∨
      ∃ ctx₁, llamaKvCacheUpdate ctx = some (0, ctx₁) ∧ placeUbatch ctx₁ b = (ret, ctx') := by
  rw [decodeInputs] at h
  cases hupdate : llamaKvCacheUpdate ctx with
  | none =>
    rw [hupdate] at h
    cases h
  | some r =>
    obtain ⟨ret₁, ctx₁⟩ := r
    simp only [hupdate] at h
    by_cases hret : ret₁ = 0
    · rw [if_neg (not_not_intro hret)] at h
      rw [hret]
      exact Or.inr ⟨ctx₁, rfl, Option.some.inj h⟩
    · rw [if_pos hret] at h
      cases h
      exact Or.inl ⟨hret, rfl⟩

/-- What a decode does after the inputs: it moves the head of `kv_self`. -/
theorem decodeUbatch_cases {ctx ctx' : KvContext} {b : UBatch}
    (h : decodeUbatch ctx b = some (ret, ctx')) :
    ∃ ctx₁ head, decodeInputs ctx b = some (ret, ctx₁) ∧
      ctx' = { ctx₁ with kvSelf := { ctx₁.kvSelf with head := head } } := by
  rw [decodeUbatch, Option.map_eq_some_iff] at h
  obtain ⟨⟨ret₁, ctx₁⟩, hinputs, heq⟩ := h
  simp only at heq
  split at heq
  · rename_i hret
    obtain ⟨rfl, rfl⟩ := Prod.mk.inj heq
    rw [hret] at hinputs
    exact ⟨ctx₁, _, hinputs, rfl⟩
  · obtain ⟨rfl, rfl⟩ := Prod.mk.inj heq
    exact ⟨ctx₁, ctx₁.kvSelf.head, hinputs, rfl⟩

/-! ### Without a sliding cache -/

/-- Without a sliding cache the removal of a sequence is about `kv_self` alone. -/
theorem kvSeqRm_inactive {ctx : KvContext} (hswa : ctx.swaKvActive = false) (s p0 p1 : Int) :
    (kvSeqRm ctx s p0 p1).2
      = { ctx with kvSelf := (llamaKvCacheSeqRm ctx.kvSelf s p0 p1).2 } := by
  simp only [kvSeqRm]
  rw [if_neg (by simp [hswa])]

end PxqLlama.Kv
