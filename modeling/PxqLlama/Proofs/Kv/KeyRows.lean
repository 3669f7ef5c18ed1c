import PxqLlama.Kv.KeyRows
import PxqLlama.Proofs.Kv.PublicEdits
import PxqLlama.Proofs.Kv.SwaEvict

/-!
# `Proofs.Kv.KeyRows`: the keys stay at their positions

A cache is `Shifted` when each row with a position is short of it by the `delta` of its cell,
and no `delta` is left over where no shift is pending. An edit adds to `delta` what it adds to
the position, so it keeps this (`Shifted.edit`); what it leaves in a freed cell does not matter.

An update brings every row to its position and clears every `delta`, those of the free cells
included (`Settled`). A decode places its tokens right behind an update, so a cell that it takes
brings no shift of its former owner along.
-/

namespace PxqLlama.Kv

/-! ### One cache -/

/-- Between updates: the row of a cell with a position lacks the `delta` of the cell. -/
def RowsTrack (c : KvCache) (rows : Nat → Int) : Prop :=
  ∀ i < c.size, 0 ≤ (c.cells i).pos → rows i + (c.cells i).delta = (c.cells i).pos

/-- After an update: the row of a cell with a position is rotated to it. -/
def RowsExact (c : KvCache) (rows : Nat → Int) : Prop :=
  ∀ i < c.size, 0 ≤ (c.cells i).pos → rows i = (c.cells i).pos

/-- The invariant of a cache that is not recurrent, with rows of recurrent state for `slots`
sequences. -/
structure Shifted (slots : Nat) (c : KvCache) (rows : Nat → Int) : Prop where
  recurrent : c.recurrent = false
  qnextSlots : c.qnextSlots = slots
  track : RowsTrack c rows
  idle : c.hasShift = false → ∀ i < c.size, (c.cells i).delta = 0

/-- The invariant between an update and the end of a decode: there is no `delta` at all. -/
structure Settled (slots : Nat) (c : KvCache) (rows : Nat → Int) : Prop where
  recurrent : c.recurrent = false
  qnextSlots : c.qnextSlots = slots
  exact : RowsExact c rows
  delta : ∀ i < c.size, (c.cells i).delta = 0

section
variable {slots : Nat} {c c' : KvCache} {rows : Nat → Int}

theorem Settled.shifted (h : Settled slots c rows) : Shifted slots c rows where
  recurrent := h.recurrent
  qnextSlots := h.qnextSlots
  track := by
    intro i hi hpos
    rw [h.delta i hi, h.exact i hi hpos, Int.add_zero]
  idle := fun _ => h.delta

/-- Where no shift is pending the rows are settled. -/
theorem Shifted.settled (h : Shifted slots c rows) (hno : c.hasShift = false) :
    Settled slots c rows where
  recurrent := h.recurrent
  qnextSlots := h.qnextSlots
  exact := by
    intro i hi hpos
    have htrack := h.track i hi hpos
    rw [h.idle hno i hi, Int.add_zero] at htrack
    exact htrack
  delta := h.idle hno

/-- The K-shift settles the rows. -/
theorem Shifted.shift (h : Shifted slots c rows) :
    Settled slots (clearShift c) (shiftRows c rows) := by
  have hcell : ∀ i < c.size, (clearShift c).cells i = { c.cells i with delta := 0 } := by
    intro i hi
    simp only [clearShift, if_pos hi]
  refine ⟨h.recurrent, h.qnextSlots, fun i hi hpos => ?_, fun i hi => ?_⟩
  · have hi' : i < c.size := hi
    rw [hcell i hi'] at hpos ⊢
    rw [shiftRows, if_pos hi']
    exact h.track i hi' hpos
  · rw [hcell i hi]

/-- Cells that are the same or free, without a `delta`, stay settled. -/
theorem Settled.of_cells (h : Settled slots c rows) (hsize : c'.size = c.size)
    (hrec : c'.recurrent = c.recurrent) (hqnext : c'.qnextSlots = c.qnextSlots)
    (hcells : ∀ i < c.size, (c'.cells i).delta = 0 ∧
      ((c'.cells i).pos = (c.cells i).pos ∨ (c'.cells i).pos < 0)) : Settled slots c' rows where
  recurrent := hrec.trans h.recurrent
  qnextSlots := hqnext.trans h.qnextSlots
  exact := by
    intro i hi hpos
    rw [hsize] at hi
    rcases (hcells i hi).2 with heq | hneg
    · rw [heq] at hpos ⊢
      exact h.exact i hi hpos
    · omega
  delta := by
    rw [hsize]
    exact fun i hi => (hcells i hi).1

end

/-! ### The edits -/

variable {cell : KvCell} {e : SeqEdit} {ctx : KvContext}

theorem CellRemoved.delta {i : Nat} {step : CellStep} (h : CellRemoved i cell step) :
    step.cell.delta = cell.delta := by
  cases h with
  | kept _ _ _ hdelta _ => exact hdelta
  | freed _ _ hdelta _ => exact hdelta

theorem CellRemoved.base {i : Nat} {step : CellStep} (h : CellRemoved i cell step)
    (hpos : 0 ≤ step.cell.pos) :
    0 ≤ cell.pos ∧ step.cell.pos - step.cell.delta = cell.pos - cell.delta := by
  rw [h.delta]
  cases h with
  | kept _ _ heq _ _ =>
    rw [CellStep.cell, heq] at hpos ⊢
    exact ⟨hpos, rfl⟩
  | freed _ hfree _ _ =>
    rw [CellStep.cell, hfree] at hpos
    exact absurd hpos (by decide)

/-- An edit moves the position of a cell together with its `delta`, and gives no position to a
cell without one. -/
theorem SeqEdit.cell_base {qnext : Bool} {i : Nat} (hpos : 0 ≤ (e.cell qnext i cell).pos) :
    0 ≤ cell.pos ∧
      (e.cell qnext i cell).pos - (e.cell qnext i cell).delta = cell.pos - cell.delta := by
  have hbase {s p0 p1 : Int} (hin : cell.inRange s (rangeFrom p0) p1 = true) : 0 ≤ cell.pos := by
    simp only [KvCell.inRange, Bool.and_eq_true, decide_eq_true_eq] at hin
    rw [rangeFrom] at hin
    split at hin <;> omega
  cases e with
  | rm s p0 p1 => exact (seqRmCell_removed qnext s _ _ i cell).base hpos
  | cp src dst p0 p1 =>
    have hcell : (SeqEdit.cell qnext i cell (.cp src dst p0 p1)).pos = cell.pos ∧
        (SeqEdit.cell qnext i cell (.cp src dst p0 p1)).delta = cell.delta := by
      simp only [SeqEdit.cell, seqCpCell, CellStep.cell]
      split <;> exact ⟨rfl, rfl⟩
    rw [hcell.1] at hpos ⊢
    exact ⟨hpos, by rw [hcell.2]⟩
  | keep s => exact (seqKeepCell_removed qnext s i cell).base hpos
  | add s p0 p1 delta =>
    rw [SeqEdit.cell_add, seqAddCell] at hpos ⊢
    split at hpos
    · rename_i hin
      rw [if_pos hin]
      simp only at hpos ⊢
      split at hpos
      · exact absurd hpos (by simp [CellStep.cell])
      · rename_i hneg
        rw [if_neg hneg]
        refine ⟨hbase hin, ?_⟩
        simp only [CellStep.cell]
        omega
    · rename_i hout
      rw [if_neg hout]
      exact ⟨hpos, rfl⟩
  | div s p0 p1 d =>
    rw [SeqEdit.cell_div, seqDivCell] at hpos ⊢
    split at hpos
    · rename_i hin
      rw [if_pos hin]
      refine ⟨hbase hin, ?_⟩
      simp only [CellStep.cell]
      omega
    · rename_i hout
      rw [if_neg hout]
      exact ⟨hpos, rfl⟩
  | clear => exact absurd hpos (by simp [SeqEdit.cell])

/-- An edit that leaves no shift pending found none, and changed no `delta`. -/
theorem SeqEdit.apply_idle {c c' : KvCache} (hrec : c.recurrent = false)
    (hcopy : c.qnextSlots = 0 ∨ e.NoCopy) (h : e.apply c = some c') (hno : c'.hasShift = false) :
    c.hasShift = false ∧ ∀ i < c.size, (c'.cells i).delta = (c.cells i).delta := by
  cases e with
  | rm s p0 p1 =>
    cases h
    have hedited := edited_seqRm hrec s p0 p1
    rw [llamaKvCacheSeqRm, if_neg (by simp [seqRmRefused, hrec])] at hno hedited ⊢
    refine ⟨hno, fun i hi => ?_⟩
    rw [hedited.cell i hi]
    exact (seqRmCell_removed _ s _ _ i _).delta
  | cp src dst p0 p1 =>
    rcases hcopy with hqnext | hcp
    · rw [SeqEdit.apply, seqCp_eq hrec hqnext] at h
      cases h
      refine ⟨hno, fun i hi => ?_⟩
      simp only [sweep_cells, if_pos hi, seqCpCell, CellStep.cell]
      split <;> rfl
    · exact hcp.elim
  | keep s =>
    cases h
    refine ⟨hno, fun i hi => ?_⟩
    rw [(edited_seqKeep s).cell i hi]
    exact (seqKeepCell_removed _ s i _).delta
  | add s p0 p1 delta =>
    cases h
    have hedited := edited_seqAdd hrec s p0 p1 delta
    rw [llamaKvCacheSeqAdd] at hno
    by_cases hrange : rangeFrom p0 = rangeTo p1
    · simp only [hrange, if_true] at hno
      refine ⟨hno, fun i hi => ?_⟩
      rw [hedited.cell i hi, SeqEdit.cell, if_pos hrange]
    · simp only [hrange, if_false, hrec, Bool.false_eq_true, Bool.or_eq_false_iff,
        List.any_eq_false, List.mem_range] at hno
      refine ⟨hno.1, fun i hi => ?_⟩
      rw [hedited.cell i hi, SeqEdit.cell_add, seqAddCell, if_neg (hno.2 i hi)]
      rfl
  | div s p0 p1 d =>
    cases h
    have hedited := edited_seqDiv hrec s p0 p1 d
    rw [llamaKvCacheSeqDiv] at hno
    by_cases hrange : rangeFrom p0 = rangeTo p1
    · simp only [hrange, if_true] at hno
      refine ⟨hno, fun i hi => ?_⟩
      rw [hedited.cell i hi, SeqEdit.cell, if_pos hrange]
    · simp only [hrange, if_false, hrec, Bool.false_eq_true, Bool.or_eq_false_iff,
        List.any_eq_false, List.mem_range] at hno
      refine ⟨hno.1, fun i hi => ?_⟩
      rw [hedited.cell i hi, SeqEdit.cell_div, seqDivCell, if_neg (hno.2 i hi)]
      rfl
  | clear =>
    cases h
    refine ⟨hno, fun i hi => ?_⟩
    rw [edited_clear.cell i hi]
    rfl

section
variable {slots : Nat} {c c' : KvCache} {rows : Nat → Int}

/-- An edit keeps the rows short of their positions by `delta`. -/
theorem Shifted.edit (h : Shifted slots c rows) (hcopy : c.qnextSlots = 0 ∨ e.NoCopy)
    (hc' : e.apply c = some c') : Shifted slots c' rows := by
  obtain ⟨c₁, hc₁, hedited⟩ := SeqEdit.apply_edited_of h.recurrent hcopy
  obtain rfl : c₁ = c' := Option.some.inj (hc₁.symm.trans hc')
  refine ⟨hedited.recurrent.trans h.recurrent, hedited.qnextSlots.trans h.qnextSlots,
    fun i hi hpos => ?_, fun hno i hi => ?_⟩
  · rw [hedited.size] at hi
    rw [hedited.cell i hi] at hpos ⊢
    obtain ⟨hpos', hbase⟩ := SeqEdit.cell_base hpos
    have htrack := h.track i hi hpos'
    omega
  · rw [hedited.size] at hi
    obtain ⟨hno', hdelta⟩ := SeqEdit.apply_idle h.recurrent hcopy hc' hno
    rw [hdelta i hi]
    exact h.idle hno' i hi

theorem Shifted.editAll {es : List SeqEdit} (h : Shifted slots c rows) (hcopy : CopyFree c es)
    (hc' : editAll c es = some c') : Shifted slots c' rows := by
  induction es generalizing c with
  | nil =>
    cases hc'
    exact h
  | cons e es ih =>
    rw [Kv.editAll, Option.bind_eq_some_iff] at hc'
    obtain ⟨c₁, hc₁, hrest⟩ := hc'
    have h₁ := h.edit hcopy.head hc₁
    exact ih h₁ (hcopy.tail (h₁.qnextSlots.trans h.qnextSlots.symm)) hrest

/-! ### The placement -/

/-- The tokens bring their positions along, and the rows are written at them. -/
theorem Settled.place {h : Nat} {b : UBatch} (hc : Settled slots c rows)
    (hsize : c'.size = c.size) (hrec : c'.recurrent = c.recurrent)
    (hqnext : c'.qnextSlots = c.qnextSlots) (hcells : c'.cells = placeTokens c.cells h b) :
    Settled slots c' (writeRows rows h b) := by
  refine ⟨hrec.trans hc.recurrent, hqnext.trans hc.qnextSlots, fun i hi hpos => ?_, fun i hi => ?_⟩
  · rw [hsize] at hi
    rw [hcells, placeTokens] at hpos ⊢
    rw [writeRows]
    by_cases hle : h ≤ i
    · rw [if_pos hle] at hpos ⊢
      rw [if_pos hle]
      cases hb : b[i - h]? with
      | none =>
        rw [hb] at hpos
        exact hc.exact i hi hpos
      | some t => rfl
    · rw [if_neg hle] at hpos ⊢
      rw [if_neg hle]
      exact hc.exact i hi hpos
  · rw [hsize] at hi
    rw [hcells, placeTokens]
    split
    · split <;> exact hc.delta i hi
    · exact hc.delta i hi

theorem Settled.evict (hc : Settled slots c rows) (nSwa : Nat) (b : UBatch) (guard : Nat) :
    Settled slots (llamaKvSwaEvict c nSwa b guard) rows := by
  refine hc.of_cells rfl rfl rfl fun i hi => ?_
  rcases evict_cell nSwa b guard hi with hkept | ⟨-, hfree⟩
  · rw [hkept]
    exact ⟨hc.delta i hi, Or.inl rfl⟩
  · rw [hfree]
    exact ⟨rfl, Or.inr (by simp)⟩

end

section
variable {slots : Nat} {c c' : KvCache} {rows : Nat → Int} {b : UBatch} {r : Bool × KvCache}

theorem Slotted.settled_full (h : Slotted c b r) (hc : Settled slots c rows) (hno : r.1 = false) :
    Settled slots r.2 rows := by
  refine hc.of_cells h.size h.recurrent h.qnextSlots fun i hi => ?_
  rw [h.full hno]
  exact ⟨hc.delta i hi, Or.inl rfl⟩

theorem Slotted.settled_found (h : Slotted c b r) (hc : Settled slots c rows) (hyes : r.1 = true) :
    Settled slots r.2 (writeRows rows r.2.head b) :=
  hc.place h.size h.recurrent h.qnextSlots (h.found hyes)

/-- A released slot is free, and its rows do not matter. -/
theorem Slotted.settled_release (h : Slotted c b r) (hc : Settled slots c rows) (hyes : r.1 = true)
    (hsize : c'.size = r.2.size) (hrec : c'.recurrent = r.2.recurrent)
    (hqnext : c'.qnextSlots = r.2.qnextSlots) (hcells : c'.cells = r.2.cells) :
    Settled slots (llamaKvSwaReleaseSlot c' r.2.head b.length) rows := by
  have hdelta := (h.settled_found hc hyes).delta
  refine hc.of_cells (hsize.trans h.size) (hrec.trans h.recurrent) (hqnext.trans h.qnextSlots)
    fun i hi => ?_
  rw [releaseSlot_cells, hcells]
  have hi' : i < r.2.size := by
    rw [h.size]
    exact hi
  by_cases hin : r.2.head ≤ i ∧ i < r.2.head + b.length ∧ i < c'.size
  · rw [if_pos hin, releaseCell]
    split
    · exact ⟨rfl, Or.inr (by simp [CellStep.cell])⟩
    · rename_i hneg
      exact ⟨hdelta i hi', Or.inr (Int.not_le.mp hneg)⟩
  · rw [if_neg hin]
    refine ⟨hdelta i hi', Or.inl ?_⟩
    rw [h.found hyes, placeTokens_of_not_mem (by omega)]

end

/-! ### Both caches -/

/-- The invariant of both caches. The sliding cache has no recurrent states. -/
structure RowsOk (slots : Nat) (st : RowsState) : Prop where
  rope : st.ctx.rope = true
  canShift : st.ctx.canShift = true
  doDefrag : st.ctx.kvSelf.doDefrag = false
  self : Shifted slots st.ctx.kvSelf st.rows.self
  swa : Shifted 0 st.ctx.kvSwa st.rows.swa
  idle : st.ctx.swaKvActive = false → st.ctx.kvSwa.hasShift = false

/-- Both caches right after an update. -/
structure RowsSettled (slots : Nat) (st : RowsState) : Prop where
  rope : st.ctx.rope = true
  canShift : st.ctx.canShift = true
  doDefrag : st.ctx.kvSelf.doDefrag = false
  self : Settled slots st.ctx.kvSelf st.rows.self
  swa : Settled 0 st.ctx.kvSwa st.rows.swa
  idle : st.ctx.swaKvActive = false → st.ctx.kvSwa.hasShift = false

theorem RowsSettled.rowsOk {slots : Nat} {st : RowsState} (h : RowsSettled slots st) :
    RowsOk slots st :=
  ⟨h.rope, h.canShift, h.doDefrag, h.self.shifted, h.swa.shifted, h.idle⟩

theorem shifted_init (hybrid : Bool) (slots size : Nat) (rows : Nat → Int) :
    Shifted slots (llamaKvCacheInit false hybrid slots size) rows := by
  have hcell : ∀ i, ((llamaKvCacheInit false hybrid slots size).cells i).pos = -1 ∧
      ((llamaKvCacheInit false hybrid slots size).cells i).delta = 0 := by
    intro i
    simp only [llamaKvCacheInit]
    split <;> exact ⟨rfl, rfl⟩
  refine ⟨rfl, rfl, fun i _ hpos => ?_, fun _ i _ => (hcell i).2⟩
  rw [(hcell i).1] at hpos
  exact absurd hpos (by decide)

theorem rowsOk_fresh (h : RowsFresh ctx) (rows : KeyRows) :
    RowsOk 0 { ctx := ctx, rows := rows } := by
  obtain ⟨size, hself⟩ := h.self
  obtain ⟨size', hswa⟩ := h.swa
  refine ⟨h.rope, h.canShift, ?_, ?_, ?_, fun _ => ?_⟩
  · simp only [hself]
    rfl
  · simp only [hself]
    exact shifted_init false 0 size _
  · simp only [hswa]
    exact shifted_init false 0 size' _
  · simp only [hswa]
    rfl

theorem shiftRuns_iff (hrope : ctx.rope = true) (hcan : ctx.canShift = true) :
    shiftRuns ctx = true ↔
      ctx.kvSelf.hasShift = true ∨ (ctx.swaKvActive = true ∧ ctx.kvSwa.hasShift = true) := by
  simp [shiftRuns, hrope, hcan]

section
variable {slots : Nat} {st : RowsState}

/-- The state copy leaves positions and shifts alone. -/
theorem Settled.copy {rows : Nat → Int} (h : Settled slots ctx.kvSelf rows) :
    Settled slots (updateCopy ctx).kvSelf rows := by
  rw [updateCopy]
  split
  · refine h.of_cells rfl rfl rfl fun i hi => ?_
    have hcell : (clearCopy ctx.kvSelf).cells i = { ctx.kvSelf.cells i with src := i } := by
      simp only [clearCopy, if_pos hi]
    rw [hcell]
    exact ⟨h.delta i hi, Or.inl rfl⟩
  · exact h

/-- The end of an update whose shift has settled the rows. -/
theorem RowsSettled.copy {rows : KeyRows} (h : RowsSettled slots { ctx := ctx, rows := rows }) :
    updateDefrag (updateCopy ctx) = some (updateCopy ctx) ∧
      RowsSettled slots { ctx := updateCopy ctx, rows := rows } := by
  have hself : Settled slots (updateCopy ctx).kvSelf rows.self := h.self.copy
  have hctx : ∃ kvSelf, updateCopy ctx = { ctx with kvSelf := kvSelf } ∧
      kvSelf.doDefrag = ctx.kvSelf.doDefrag := by
    rw [updateCopy]
    split <;> exact ⟨_, rfl, rfl⟩
  obtain ⟨kvSelf, hcopy, hdefrag⟩ := hctx
  rw [hcopy] at hself
  refine ⟨updateDefrag_idle h.doDefrag, ?_⟩
  rw [hcopy]
  exact ⟨h.rope, h.canShift, hdefrag.trans h.doDefrag, hself, h.swa, h.idle⟩

/-- An update brings every row to its position. -/
theorem RowsOk.update (h : RowsOk slots st) :
    ∃ st', rowsUpdate st = some (0, st') ∧ RowsSettled slots st' := by
  have hruns := shiftRuns_iff h.rope h.canShift
  rw [rowsUpdate, llamaKvCacheUpdate, updateShift]
  by_cases hshift : st.ctx.kvSelf.hasShift = true ∨
      (st.ctx.swaKvActive = true ∧ st.ctx.kvSwa.hasShift = true)
  · -- a shift is pending in one of the caches: both are shifted
    rw [if_pos ⟨h.rope, hshift⟩, if_pos h.canShift]
    have hsettled : RowsSettled slots ⟨{ st.ctx with
        kvSelf := clearShift st.ctx.kvSelf
        kvSwa := if st.ctx.swaKvActive then clearShift st.ctx.kvSwa else st.ctx.kvSwa },
        updateRows st⟩ := by
      refine ⟨h.rope, h.canShift, h.doDefrag, ?_, ?_, fun hidle => ?_⟩
      · rw [updateRows, if_pos (hruns.mpr hshift)]
        exact h.self.shift
      · rw [updateRows, if_pos (hruns.mpr hshift)]
        by_cases hactive : st.ctx.swaKvActive = true
        · simp only [hactive, if_true]
          exact h.swa.shift
        · simp only [hactive, Bool.false_eq_true, if_false]
          exact h.swa.settled (h.idle (by simpa using hactive))
      · simp only at hidle
        simp only [hidle, Bool.false_eq_true, if_false]
        exact h.idle hidle
    obtain ⟨hdone, hsettled⟩ := hsettled.copy
    simp only [hdone]
    exact ⟨_, rfl, hsettled⟩
  · -- none is: the rows are at their positions already
    rw [if_neg (fun hc => hshift hc.2)]
    have hrows : updateRows st = st.rows := by
      rw [updateRows, if_neg (fun hr => hshift (hruns.mp hr))]
    rw [hrows]
    rw [not_or, not_and, Bool.not_eq_true, Bool.not_eq_true] at hshift
    have hsettled : RowsSettled slots { ctx := st.ctx, rows := st.rows } := by
      refine ⟨h.rope, h.canShift, h.doDefrag, h.self.settled hshift.1, ?_, h.idle⟩
      cases hactive : st.ctx.swaKvActive with
      | true => exact h.swa.settled (hshift.2 hactive)
      | false => exact h.swa.settled (h.idle hactive)
    obtain ⟨hdone, hsettled⟩ := hsettled.copy
    simp only [hdone]
    exact ⟨_, rfl, hsettled⟩

/-- The sliding part of a placement: it refuses, or it finds a slot, whose rows are written or
which is released again. -/
theorem RowsSettled.placeSwa (h : RowsSettled slots st) (b : UBatch) :
    ((Kv.placeSwa st.ctx b).1 = false → Settled 0 (Kv.placeSwa st.ctx b).2 st.rows.swa) ∧
      ((Kv.placeSwa st.ctx b).1 = true →
        Settled 0 (swaInputs st.ctx b) (if st.ctx.swaKvActive
          then writeRows st.rows.swa (swaInputs st.ctx b).head b else st.rows.swa) ∧
        Settled 0 (swaUndone st.ctx b) st.rows.swa) := by
  by_cases hactive : st.ctx.swaKvActive = true
  · simp only [swaUndone, swaInputs, Kv.placeSwa, hactive, if_true]
    obtain ⟨c₁, hc₁, hslot⟩ := swaPlace_slotted (P := fun c => Settled 0 c st.rows.swa)
      (fun guard hc => hc.evict st.ctx.nSwa b guard) (fun hslot hc hno => hslot.settled_full hc hno)
      h.swa st.ctx.swaKvGuard
    refine ⟨hslot.settled_full hc₁, fun hyes => ⟨?_, ?_⟩⟩
    · have hfound := hslot.settled_found hc₁ hyes
      exact ⟨hfound.recurrent, hfound.qnextSlots, hfound.exact, hfound.delta⟩
    · exact hslot.settled_release hc₁ hyes rfl rfl rfl rfl
  · simp only [swaUndone, swaInputs, Kv.placeSwa, hactive, Bool.false_eq_true, if_false]
    exact ⟨fun hno => Bool.noConfusion hno, fun _ => ⟨h.swa, h.swa⟩⟩

/-- A placement right behind an update keeps the invariant, whether it succeeds or not. -/
theorem RowsSettled.place (h : RowsSettled slots st) (b : UBatch) :
    RowsOk slots (rowsPlace st b) := by
  have hself : Settled slots (rewindHead st.ctx.kvSelf b.length) st.rows.self ∧
      (rewindHead st.ctx.kvSelf b.length).doDefrag = false := by
    rw [rewindHead]
    split
    · exact ⟨⟨h.self.recurrent, h.self.qnextSlots, h.self.exact, h.self.delta⟩, h.doDefrag⟩
    · exact ⟨h.self, h.doDefrag⟩
  obtain ⟨hself, hdefrag⟩ := hself
  have hslot := findSlot_slotted hself.recurrent b
  obtain ⟨hfull, hfound⟩ := h.placeSwa b
  -- an inactive sliding cache stays as it is
  have hidle : st.ctx.swaKvActive = false → (Kv.placeSwa st.ctx b).2.hasShift = false ∧
      (swaInputs st.ctx b).hasShift = false ∧ (swaUndone st.ctx b).hasShift = false := by
    intro hidle
    simp only [swaUndone, swaInputs, Kv.placeSwa, hidle, Bool.false_eq_true, if_false]
    exact ⟨h.idle hidle, h.idle hidle, h.idle hidle⟩
  rw [rowsPlace, placeUbatch]
  simp only
  by_cases hno : (Kv.placeSwa st.ctx b).1 = false
  · -- the sliding cache refuses
    have hplace : Kv.placeSwa { st.ctx with kvSelf := rewindHead st.ctx.kvSelf b.length } b
        = Kv.placeSwa st.ctx b := rfl
    rw [hplace, if_pos hno]
    exact ⟨h.rope, h.canShift, hdefrag, hself.shifted, (hfull hno).shifted, fun hi => (hidle hi).1⟩
  · have hplace : Kv.placeSwa { st.ctx with kvSelf := rewindHead st.ctx.kvSelf b.length } b
        = Kv.placeSwa st.ctx b := rfl
    rw [hplace, if_neg hno]
    rw [Bool.not_eq_false] at hno
    obtain ⟨hinputs, hundone⟩ := hfound hno
    by_cases hno' : (llamaKvCacheFindSlot (rewindHead st.ctx.kvSelf b.length) b).1 = false
    · -- `kv_self` refuses, and the slot of the sliding cache is released
      rw [if_pos hno']
      exact ⟨h.rope, h.canShift, hslot.doDefrag.trans hdefrag,
        (hslot.settled_full hself hno').shifted, hundone.shifted, fun hi => (hidle hi).2.2⟩
    · -- both take the ubatch, and the rows are written
      rw [if_neg hno']
      rw [Bool.not_eq_false] at hno'
      have hwritten := hslot.settled_found hself hno'
      generalize llamaKvCacheFindSlot (rewindHead st.ctx.kvSelf b.length) b = r at hslot hwritten
      have hsetN : ∀ pad, ∃ n, setSelfN r.2 pad = { r.2 with n := n } := by
        intro pad
        rw [setSelfN, if_neg (by simp [hwritten.recurrent])]
        exact ⟨_, rfl⟩
      obtain ⟨n, hn⟩ := hsetN
        (KvContext.pad { st.ctx with kvSelf := rewindHead st.ctx.kvSelf b.length })
      rw [hn]
      refine ⟨h.rope, h.canShift, hslot.doDefrag.trans hdefrag, ?_, hinputs.shifted,
        fun hi => (hidle hi).2.1⟩
      exact Settled.shifted ⟨hwritten.recurrent, hwritten.qnextSlots, hwritten.exact,
        hwritten.delta⟩

/-! ### Runs -/

/-- A call keeps the invariant, and does not abort. -/
theorem rowsStep_ok {op : KvOp} (h : RowsOk slots st) (hop : op.MovesNoRow)
    (hcopy : slots = 0 ∨ op.NoCopy) : ∃ st', rowsStep st op = some st' ∧ RowsOk slots st' := by
  have hedit : op.IsEdit → ∃ ctx, kvStep st.ctx op = some ctx ∧
      RowsOk slots { st with ctx := ctx } := by
    intro hedit
    obtain ⟨ctx, hctx⟩ := kvStep_edits_isSome hedit h.self.recurrent h.swa.recurrent
      (hcopy.imp_left fun hslots => ⟨h.self.qnextSlots.trans hslots, h.swa.qnextSlots⟩)
    obtain ⟨es, hes, hnoCopy⟩ := kvStep_edits hedit hctx
    have hfree : CopyFree st.ctx.kvSelf es := hcopy.imp h.self.qnextSlots.trans hnoCopy
    have hdefrag := (editAll_shape h.self.recurrent hfree hes.self).1
    refine ⟨ctx, hctx, ?_, ?_, hdefrag.trans h.doDefrag, h.self.editAll hfree hes.self, ?_,
      fun hidle => ?_⟩
    · show ctx.rope = true
      rw [hes.eq]
      exact h.rope
    · show ctx.canShift = true
      rw [hes.eq]
      exact h.canShift
    · cases hactive : st.ctx.swaKvActive with
      | true => exact h.swa.editAll (Or.inl h.swa.qnextSlots) (hes.swa hactive)
      | false =>
        show Shifted 0 ctx.kvSwa st.rows.swa
        rw [hes.idle hactive]
        exact h.swa
    · have hactive : st.ctx.swaKvActive = false := hes.active.symm.trans hidle
      show ctx.kvSwa.hasShift = false
      rw [hes.idle hactive]
      exact h.idle hactive
  have hcall : op.IsEdit → rowsStep st op
      = (kvStep st.ctx op).map (fun ctx => { st with ctx := ctx }) →
      ∃ st', rowsStep st op = some st' ∧ RowsOk slots st' := by
    intro hop' heq
    obtain ⟨ctx, hctx, hok⟩ := hedit hop'
    rw [heq, hctx]
    exact ⟨_, rfl, hok⟩
  obtain ⟨st', hupdate, hsettled⟩ := h.update
  cases op with
  | decode b =>
    rw [rowsStep, rowsDecode, hupdate]
    exact ⟨_, rfl, hsettled.place b⟩
  | update =>
    rw [rowsStep, hupdate]
    exact ⟨_, rfl, hsettled.rowsOk⟩
  | defrag => exact hop.elim
  | seqDiv s p0 p1 d => exact hcall hop rfl
  | seqRm | seqCp | seqKeep | seqAdd | clear => exact hcall trivial rfl

theorem rowsRun_ok {ops : List KvOp} (h : RowsOk 0 st) (hops : ∀ op ∈ ops, op.MovesNoRow) :
    ∃ st', rowsRun st ops = some st' ∧ RowsOk 0 st' := by
  induction ops generalizing st with
  | nil => exact ⟨st, rfl, h⟩
  | cons op ops ih =>
    obtain ⟨st₁, hstep, hok⟩ := rowsStep_ok h (hops op (List.mem_cons_self ..)) (Or.inl rfl)
    obtain ⟨st', hrun, hok'⟩ := ih hok fun o ho => hops o (List.mem_cons_of_mem _ ho)
    exact ⟨st', by rw [rowsRun, hstep, Option.bind_some, hrun], hok'⟩

end

/-- In every run from a fresh context the row of a cell with a position lacks the `delta` of the
cell, in both caches, and the next update brings all these rows to their positions. -/
theorem key_rows_at_positions {ctx : KvContext} (h : RowsFresh ctx) (rows : KeyRows)
    {ops : List KvOp} (hops : ∀ op ∈ ops, op.MovesNoRow) :
    ∃ st, rowsRun { ctx := ctx, rows := rows } ops = some st ∧
      RowsTrack st.ctx.kvSelf st.rows.self ∧ RowsTrack st.ctx.kvSwa st.rows.swa ∧
      ∃ st', rowsUpdate st = some (0, st') ∧
        RowsExact st'.ctx.kvSelf st'.rows.self ∧ RowsExact st'.ctx.kvSwa st'.rows.swa := by
  obtain ⟨st, hrun, hok⟩ := rowsRun_ok (rowsOk_fresh h rows) hops
  obtain ⟨st', hupdate, hsettled⟩ := hok.update
  exact ⟨st, hrun, hok.self.track, hok.swa.track, st', hupdate, hsettled.self.exact,
    hsettled.swa.exact⟩

/-- A context with a sliding cache. -/
def ropeContext : KvContext where
  kvSelf := llamaKvCacheInit false false 0 4
  kvSwa := llamaKvCacheInit false false 0 4
  swaKvActive := true
  nSwa := 4
  swaKvGuard := 0
  flashAttn := false
  rope := true
  canShift := true
  maxMoves := 100

/-- Two tokens, shifted by three, and one more token in the place of the first. -/
theorem key_rows_at_positions_shifted :
    ∃ st, rowsRun ⟨ropeContext, ⟨fun _ => 0, fun _ => 0⟩⟩
        [.decode [⟨0, [0]⟩, ⟨1, [0]⟩], .seqAdd 0 0 (-1) 3, .seqRm 0 0 4, .decode [⟨5, [0]⟩]]
        = some st ∧
      RowsTrack st.ctx.kvSelf st.rows.self ∧ RowsTrack st.ctx.kvSwa st.rows.swa ∧
      ∃ st', rowsUpdate st = some (0, st') ∧
        RowsExact st'.ctx.kvSelf st'.rows.self ∧ RowsExact st'.ctx.kvSwa st'.rows.swa :=
  key_rows_at_positions ⟨⟨4, rfl⟩, ⟨4, rfl⟩, rfl, rfl⟩ _ (by simp [KvOp.MovesNoRow])

end PxqLlama.Kv
