import PxqLlama.Proofs.Kv.KeyRows
import PxqLlama.Proofs.Kv.Slot

/-!
# `Proofs.Kv.SelfHead`: the head of `kv_self` stays in the cache

A search starts from the head, so it has to be a cell, or one past the last. The edits move it to
a freed cell or to zero, a placement moves it to the slot and then behind it.
-/

namespace PxqLlama.Kv

/-- The head stays in the cache through all edits. -/
theorem editAll_head {c c' : KvCache} {es : List SeqEdit} (hrec : c.recurrent = false)
    (hcopy : CopyFree c es) (hhead : c.head ≤ c.size) (h : editAll c es = some c') :
    c'.head ≤ c'.size := by
  induction es generalizing c with
  | nil =>
    cases h
    exact hhead
  | cons e es ih =>
    rw [editAll, Option.bind_eq_some_iff] at h
    obtain ⟨c₁, hc₁, hrest⟩ := h
    obtain ⟨c₂, hc₂, hedited⟩ := SeqEdit.apply_edited_of hrec hcopy.head
    obtain rfl : c₂ = c₁ := Option.some.inj (hc₂.symm.trans hc₁)
    refine ih (hedited.recurrent.trans hrec) (hcopy.tail hedited.qnextSlots) ?_ hrest
    rw [hedited.size]
    exact hedited.head hhead

/-- The head moves behind an ubatch, or wraps. -/
theorem advanceHead_head_le (c : KvCache) (n : Nat) :
    (advanceHead c n).head ≤ (advanceHead c n).size := by
  simp only [advanceHead]
  split <;> omega

section
variable {ctx ctx' : KvContext}

/-- Without a defragmentation an update leaves the head where it is. -/
theorem update_selfHead {ret : Nat} (hdefrag : ctx.kvSelf.doDefrag = false)
    (h : llamaKvCacheUpdate ctx = some (ret, ctx')) :
    ctx'.kvSelf.head = ctx.kvSelf.head ∧ ctx'.kvSelf.size = ctx.kvSelf.size ∧
      ctx'.kvSelf.recurrent = ctx.kvSelf.recurrent := by
  have hcopy : ∀ ctx : KvContext, (updateCopy ctx).kvSelf.head = ctx.kvSelf.head ∧
      (updateCopy ctx).kvSelf.size = ctx.kvSelf.size ∧
      (updateCopy ctx).kvSelf.recurrent = ctx.kvSelf.recurrent := by
    intro ctx
    rw [updateCopy]
    split <;> exact ⟨rfl, rfl, rfl⟩
  rw [llamaKvCacheUpdate] at h
  cases hshift : updateShift ctx with
  | none =>
    rw [hshift] at h
    cases h
    exact ⟨rfl, rfl, rfl⟩
  | some ctx₁ =>
    have hctx₁ : ctx₁.kvSelf.head = ctx.kvSelf.head ∧ ctx₁.kvSelf.size = ctx.kvSelf.size ∧
        ctx₁.kvSelf.recurrent = ctx.kvSelf.recurrent ∧ ctx₁.kvSelf.doDefrag = false := by
      rcases updateShift_cases hshift with rfl | rfl <;> exact ⟨rfl, rfl, rfl, hdefrag⟩
    obtain ⟨hhead, hsize, hrec, hdefrag₁⟩ := hctx₁
    simp only [hshift, updateDefrag_idle hdefrag₁, Option.map_some, Option.some.injEq,
      Prod.mk.injEq] at h
    obtain ⟨-, rfl⟩ := h
    obtain ⟨hhead', hsize', hrec'⟩ := hcopy ctx₁
    exact ⟨hhead'.trans hhead, hsize'.trans hsize, hrec'.trans hrec⟩

/-- A placement leaves the head in the cache. -/
theorem placeUbatch_selfHead (hrec : ctx.kvSelf.recurrent = false)
    (hhead : ctx.kvSelf.head ≤ ctx.kvSelf.size) (b : UBatch) :
    (placeUbatch ctx b).2.kvSelf.head ≤ (placeUbatch ctx b).2.kvSelf.size := by
  have hrewind : (rewindHead ctx.kvSelf b.length).recurrent = false ∧
      (rewindHead ctx.kvSelf b.length).head ≤ (rewindHead ctx.kvSelf b.length).size := by
    rw [rewindHead]
    split
    · exact ⟨hrec, Nat.zero_le _⟩
    · exact ⟨hrec, hhead⟩
  obtain ⟨hrec', hhead'⟩ := hrewind
  have hshape := (findSlot_allocated (b := b) hrec' hhead').shape
  simp only [placeUbatch]
  split
  · exact hhead'
  · split
    · show (llamaKvCacheFindSlot _ b).2.head ≤ (llamaKvCacheFindSlot _ b).2.size
      rw [hshape.1]
      exact hshape.2.2.2
    · rw [setSelfN, if_neg (by rw [hshape.2.1, hrec']; exact Bool.false_ne_true)]
      show (llamaKvCacheFindSlot _ b).2.head ≤ (llamaKvCacheFindSlot _ b).2.size
      rw [hshape.1]
      exact hshape.2.2.2

/-- No call that moves no row takes the head of the cache past its size. -/
theorem kvStep_selfHead {op : KvOp} (hop : op.MovesNoRow) (hrec : ctx.kvSelf.recurrent = false)
    (hcopy : ctx.kvSelf.qnextSlots = 0 ∨ op.NoCopy) (hdefrag : ctx.kvSelf.doDefrag = false)
    (hhead : ctx.kvSelf.head ≤ ctx.kvSelf.size) (h : kvStep ctx op = some ctx') :
    ctx'.kvSelf.head ≤ ctx'.kvSelf.size := by
  have hedit : op.IsEdit → ctx'.kvSelf.head ≤ ctx'.kvSelf.size := by
    intro hedit
    obtain ⟨es, hes, hnoCopy⟩ := kvStep_edits hedit h
    exact editAll_head hrec (hcopy.imp_right hnoCopy) hhead hes.self
  have hupdate : ∀ {ret : Nat} {ctx₁ : KvContext}, llamaKvCacheUpdate ctx = some (ret, ctx₁) →
      ctx₁.kvSelf.recurrent = false ∧ ctx₁.kvSelf.head ≤ ctx₁.kvSelf.size := by
    intro ret ctx₁ hctx₁
    obtain ⟨hhead', hsize', hrec'⟩ := update_selfHead hdefrag hctx₁
    rw [hhead', hsize', hrec']
    exact ⟨hrec, hhead⟩
  cases op with
  | decode b =>
    simp only [kvStep, decodeUbatch, decodeInputs] at h
    cases hupd : llamaKvCacheUpdate ctx with
    | none =>
      rw [hupd] at h
      cases h
    | some r =>
      obtain ⟨ret, ctx₁⟩ := r
      obtain ⟨hrec₁, hhead₁⟩ := hupdate hupd
      simp only [hupd] at h
      split at h
      · rename_i hret
        simp only [Option.map_some, if_neg hret] at h
        cases h
        exact hhead₁
      · have hplaced := placeUbatch_selfHead hrec₁ hhead₁ b
        simp only [Option.map_some] at h
        split at h
        · cases h
          exact advanceHead_head_le ..
        · cases h
          exact hplaced
  | update =>
    simp only [kvStep, Option.map_eq_some_iff] at h
    obtain ⟨⟨ret, ctx₁⟩, hupd, rfl⟩ := h
    exact (hupdate hupd).2
  | defrag => exact hop.elim
  | seqDiv s p0 p1 d => exact hedit hop
  | seqRm | seqCp | seqKeep | seqAdd | clear => exact hedit trivial

end

end PxqLlama.Kv
