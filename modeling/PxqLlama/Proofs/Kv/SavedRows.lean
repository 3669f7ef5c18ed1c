import PxqLlama.Proofs.Kv.SelfHead
import PxqLlama.Proofs.Kv.Restore

/-!
# `Proofs.Kv.SavedRows`: keys that are saved and restored

A restored row is short of its position by the `delta` that was pending when it was saved, and
the K-shift will add the `delta` that is pending on the cell that it lands in. So the rows stay
short of their positions by `delta` exactly where the two are the same (`ShiftKept`).

Where every restore of a run finds the shifts as the save left them, the next update brings all
rows to their positions (`saved_keys_at_positions`). A shift that is pending on the saved cells
only is lost (`restore_loses_shift`).
-/

namespace PxqLlama.Kv

/-! ### One restore -/

/-- The cell keeps its position when the sequence is dropped: it was placed there for good, or
out of the reach of a removal, or for another sequence that a free cell still had. -/
def KeepsPos (c : KvCache) (d : Int) (accepted : Bool) (i : Nat) (p : Int) : Prop :=
  accepted = true ∨ posMax ≤ p ∨ ((c.cells i).seqId.erase d).Nonempty

/-- A restore finds the shifts as the save left them. Where a position stays in the cell that it
is placed in, the shift that is pending on that cell is what the restored row lacks. -/
def ShiftKept (vReads : Bool) (st : RowsState) (blob : SeqBlob) (d : Int) (partialOnly : Bool) :
    Prop :=
  ∀ h, (dropSeq st.ctx.kvSelf d).NextSlot blob.pos.length h →
    ∀ i p, blob.pos[i]? = some p → 0 ≤ p →
      KeepsPos (dropSeq st.ctx.kvSelf d) d
        (blobAccepted vReads st.ctx.kvSelf blob d partialOnly) (h + i) p →
      (st.ctx.kvSelf.cells (h + i)).delta
        = p - loadedRows vReads st.rows.self h blob partialOnly (h + i)

/-- The keys of a blob are one for each position. -/
def SeqBlob.Ok (blob : SeqBlob) : Prop :=
  ∀ keys, blob.keys = some keys → keys.length = blob.pos.length

theorem writeKvCache_ok (st : RowsState) (s : Int) (partialOnly : Bool) :
    (writeKvCache st s partialOnly).Ok := by
  intro keys hkeys
  simp only [writeKvCache] at hkeys
  split at hkeys
  · cases hkeys
  · cases hkeys
    simp [writeKvCache]

section
variable {slots : Nat} {vReads : Bool} {st st' : RowsState} {blob : SeqBlob} {d : Int}
  {partialOnly : Bool}

/-- The rows outside the slot stay. -/
theorem loadedRows_of_not_mem (hblob : blob.Ok) (rows : Nat → Int) {h i : Nat}
    (hi : i < h ∨ h + blob.pos.length ≤ i) :
    loadedRows vReads rows h blob partialOnly i = rows i := by
  rw [loadedRows]
  split
  · cases hkeys : blob.keys with
    | none => rfl
    | some keys =>
      have hlength := hblob keys hkeys
      simp only [loadRows]
      split
      · rw [List.getElem?_eq_none (by omega)]
        rfl
      · rfl
  · rfl

/-- A restored cell that keeps its position, and any other cell: the row lacks the `delta`. -/
theorem ShiftKept.track (hkept : ShiftKept vReads st blob d partialOnly)
    (h : Shifted slots st.ctx.kvSelf st.rows.self) (hd : 0 ≤ d) (hblob : blob.Ok) {h₀ : Nat}
    (hslot : (dropSeq st.ctx.kvSelf d).NextSlot blob.pos.length h₀) {i : Nat}
    (hi : i < st.ctx.kvSelf.size) {cell : KvCell}
    (hcell : ((dropSeq st.ctx.kvSelf d).place h₀ (restoreBatch d blob.pos)).cells i = cell)
    (hpos : 0 ≤ cell.pos)
    (hkeeps : h₀ ≤ i → i < h₀ + blob.pos.length → KeepsPos (dropSeq st.ctx.kvSelf d) d
      (blobAccepted vReads st.ctx.kvSelf blob d partialOnly) i cell.pos) :
    loadedRows vReads st.rows.self h₀ blob partialOnly i + cell.delta = cell.pos := by
  have hdrop := dropSeq_cell h.recurrent hd hi
  by_cases hin : h₀ ≤ i ∧ i < h₀ + blob.pos.length
  · -- the cell takes the row that was saved
    obtain ⟨hge, hlt⟩ := hin
    obtain ⟨k, rfl⟩ := Nat.exists_eq_add_of_le hge
    have hk := List.getElem?_eq_getElem (show k < blob.pos.length by omega)
    rw [place_restored_mem hk, hdrop] at hcell
    rw [← hcell] at hpos hkeeps ⊢
    have hshift := hkept h₀ hslot k _ hk hpos (hkeeps hge hlt)
    simp only [drop_delta]
    omega
  · -- the cell and its row are as before
    rw [place_restored_of_not_mem (by omega), hdrop] at hcell
    rw [loadedRows_of_not_mem hblob _ (by omega)]
    rw [← hcell] at hpos ⊢
    have heq := drop_pos hpos
    rw [heq] at hpos ⊢
    rw [drop_delta]
    exact h.track i hi hpos

theorem Shifted.drop {c : KvCache} {rows : Nat → Int} (h : Shifted slots c rows) (d : Int) :
    Shifted slots (dropSeq c d) rows :=
  h.edit (e := .rm d (-1) (-1)) (Or.inr trivial) rfl

/-- The rows of a restored slot lack the `delta` of their cells: of all of them, when the blob is
accepted, and otherwise of those that keep their position when the sequence is dropped again. -/
theorem ShiftKept.shifted (hkept : ShiftKept vReads st blob d partialOnly)
    (h : Shifted slots st.ctx.kvSelf st.rows.self) (hd : 0 ≤ d) (hblob : blob.Ok) {h₀ : Nat}
    (hslot : (dropSeq st.ctx.kvSelf d).NextSlot blob.pos.length h₀) {c : KvCache}
    (hc : c = if blobAccepted vReads st.ctx.kvSelf blob d partialOnly then
        (dropSeq st.ctx.kvSelf d).place h₀ (restoreBatch d blob.pos)
      else dropSeq ((dropSeq st.ctx.kvSelf d).place h₀ (restoreBatch d blob.pos)) d) :
    Shifted slots c (loadedRows vReads st.rows.self h₀ blob partialOnly) := by
  have hdrop := h.drop d
  obtain ⟨hsize, -, -, -, hshift⟩ := dropSeq_shape (d := d) h.recurrent
  have hplace : ((dropSeq st.ctx.kvSelf d).place h₀ (restoreBatch d blob.pos)).recurrent = false :=
    hdrop.recurrent
  have hdelta : ∀ i, (((dropSeq st.ctx.kvSelf d).place h₀ (restoreBatch d blob.pos)).cells i).delta
      = ((dropSeq st.ctx.kvSelf d).cells i).delta := by
    intro i
    show (placeTokens _ _ _ i).delta = _
    rw [placeTokens]
    split
    · split <;> rfl
    · rfl
  by_cases haccepted : blobAccepted vReads st.ctx.kvSelf blob d partialOnly = true
  · rw [if_pos haccepted] at hc
    rw [hc]
    refine ⟨hdrop.recurrent, hdrop.qnextSlots, fun i hi hpos => ?_, fun hno i hi => ?_⟩
    · exact hkept.track h hd hblob hslot (hsize ▸ hi) rfl hpos fun _ _ => Or.inl haccepted
    · rw [hdelta]
      exact hdrop.idle hno i hi
  · rw [if_neg haccepted] at hc
    obtain ⟨hsize', hrec', hqnext', -, hshift'⟩ := dropSeq_shape (d := d) hplace
    rw [hc]
    refine ⟨hrec', hqnext'.trans hdrop.qnextSlots, fun i hi hpos => ?_, fun hno i hi => ?_⟩
    · rw [hsize'] at hi
      rw [dropSeq_cell hplace hd hi] at hpos ⊢
      have heq := drop_pos hpos
      have hpos' := heq ▸ hpos
      rw [heq, drop_delta]
      refine hkept.track h hd hblob hslot (hsize ▸ hi) rfl hpos' fun hge hlt => ?_
      -- a cell of the slot has the sequence
      obtain ⟨k, rfl⟩ := Nat.exists_eq_add_of_le hge
      have hk := List.getElem?_eq_getElem (show k < blob.pos.length by omega)
      have hcell := place_restored_mem (c := dropSeq st.ctx.kvSelf d) (d := d) (h := h₀) hk
      have hcases := drop_pos_cases (by rw [hcell]; exact Finset.mem_insert_self ..) hpos
      rw [hcell, Finset.erase_insert_eq_erase] at hcases
      rw [hcell]
      exact Or.inr hcases
    · rw [hsize'] at hi
      rw [dropSeq_cell hplace hd hi, drop_delta, hdelta]
      rw [hshift'] at hno
      exact hdrop.idle hno i hi

/-- A restore that finds the shifts as the save left them keeps the invariant. -/
theorem readKvCache_rowsOk (h : RowsOk slots st)
    (hhead : st.ctx.kvSelf.head ≤ st.ctx.kvSelf.size) (hidle : st.ctx.swaKvActive = false)
    (hd : 0 ≤ d) (hblob : blob.Ok) (hkept : ShiftKept vReads st blob d partialOnly) {ok : Bool}
    (hread : readKvCache vReads st blob d partialOnly = some (ok, st')) :
    RowsOk slots st' ∧ st'.ctx.kvSelf.head ≤ st'.ctx.kvSelf.size := by
  have hdrop := h.self.drop d
  obtain ⟨hsize, hrec, hqnext, hdefrag, -⟩ := dropSeq_shape (d := d) h.self.recurrent
  have hdefrag' := hdefrag.trans h.doDefrag
  -- the public removal of the sequence, without a sliding cache
  have hundo : ∀ c : KvCache, (kvSeqRm { st.ctx with kvSelf := c } d (-1) (-1)).2
      = { st.ctx with kvSelf := dropSeq c d } :=
    fun c => kvSeqRm_dropSeq hidle
  have hmeta := readKvCacheMeta_read h.self.recurrent hhead d blob.pos
  rw [readKvCache, Option.map_eq_some_iff] at hread
  obtain ⟨r, hr, hend⟩ := hread
  rw [hr] at hmeta
  cases hmeta with
  | @full h₀ hpos hfull hle =>
    simp only [Bool.false_eq_true, if_false, hundo] at hend
    obtain ⟨-, rfl⟩ := Prod.mk.inj hend
    have hfree : Shifted slots { dropSeq st.ctx.kvSelf d with head := h₀ } st.rows.self :=
      ⟨hdrop.recurrent, hdrop.qnextSlots, hdrop.track, hdrop.idle⟩
    obtain ⟨-, -, -, hdefrag₁, -⟩ := dropSeq_shape (d := d) hfree.recurrent
    refine ⟨⟨h.rope, h.canShift, hdefrag₁.trans hdefrag', hfree.drop d, h.swa, h.idle⟩, ?_⟩
    exact dropSeq_head_le hfree.recurrent (hsize.symm ▸ hle)
  | @placed h₀ hpos hslot =>
    have hplace : ((dropSeq st.ctx.kvSelf d).place h₀ (restoreBatch d blob.pos)).recurrent
        = false := hrec
    have hle : h₀ ≤ (dropSeq st.ctx.kvSelf d).size := Nat.le_of_add_right_le hslot.freeRun.1
    have haccepted : blobAccepted vReads
          ((dropSeq st.ctx.kvSelf d).place h₀ (restoreBatch d blob.pos)) blob d partialOnly
        = blobAccepted vReads st.ctx.kvSelf blob d partialOnly := by
      have hrange : KvCache.qnextSeqIdInRange
            ((dropSeq st.ctx.kvSelf d).place h₀ (restoreBatch d blob.pos)) d
          = st.ctx.kvSelf.qnextSeqIdInRange d := by
        simp only [KvCache.qnextSeqIdInRange, KvCache.place, hqnext]
      rw [blobAccepted, blobAccepted, expectedStateRows, expectedStateRows, hrange]
    have hshifted := hkept.shifted h.self hd hblob hslot rfl
    simp only [if_true, haccepted, hundo] at hend
    by_cases hyes : blobAccepted vReads st.ctx.kvSelf blob d partialOnly = true
    · rw [if_pos hyes] at hend hshifted
      obtain ⟨-, rfl⟩ := Prod.mk.inj hend
      exact ⟨⟨h.rope, h.canShift, hdefrag', hshifted, h.swa, h.idle⟩, hle⟩
    · rw [if_neg hyes] at hend hshifted
      obtain ⟨-, rfl⟩ := Prod.mk.inj hend
      obtain ⟨-, -, -, hdefrag₁, -⟩ := dropSeq_shape (d := d) hplace
      refine ⟨⟨h.rope, h.canShift, hdefrag₁.trans hdefrag', hshifted, h.swa, h.idle⟩, ?_⟩
      exact dropSeq_head_le hplace hle

end

/-! ### Runs -/

/-- A restore finds the shifts as the save left them. Without effect while the sliding cache is
active: it is refused then. -/
def SaveOp.KeepsShift (vReads : Bool) (w : SavesState) : SaveOp → Prop
  | .setData k d partialOnly => ∀ blob, w.blobs[k]? = some blob →
      w.st.ctx.swaKvActive = false → ShiftKept vReads w.st blob d partialOnly
  | _ => True

/-- Every restore of the run finds the shifts as the save left them. -/
def ShiftKeptIn (vReads : Bool) (w : SavesState) : List SaveOp → Prop
  | [] => True
  | op :: ops => op.KeepsShift vReads w ∧
      ∀ w', savesStep vReads w op = some w' → ShiftKeptIn vReads w' ops

/-- The invariant of a run. -/
structure SavesOk (slots : Nat) (w : SavesState) : Prop where
  rows : RowsOk slots w.st
  head : w.st.ctx.kvSelf.head ≤ w.st.ctx.kvSelf.size
  blobs : ∀ blob ∈ w.blobs, blob.Ok

/-- A fresh cache without saved blobs. -/
theorem savesOk_fresh {slots : Nat} {ctx : KvContext} (h : SavesFresh slots ctx)
    (rows : KeyRows) : SavesOk slots { st := { ctx := ctx, rows := rows }, blobs := [] } := by
  obtain ⟨hybrid, size, hself⟩ := h.self
  obtain ⟨size', hswa⟩ := h.swa
  refine ⟨⟨h.rope, h.canShift, ?_, ?_, ?_, fun _ => ?_⟩, ?_, fun _ hb => absurd hb List.not_mem_nil⟩
  · simp only [hself]
    rfl
  · simp only [hself]
    exact shifted_init hybrid slots size _
  · simp only [hswa]
    exact shifted_init false 0 size' _
  · simp only [hswa]
    rfl
  · simp only [hself]
    exact Nat.zero_le _

section
variable {slots : Nat} {vReads : Bool} {w w' : SavesState}

/-- A call keeps the invariant. -/
theorem savesStep_ok {op : SaveOp} (h : SavesOk slots w) (hop : op.MovesNoRow slots)
    (hkept : op.KeepsShift vReads w) (hstep : savesStep vReads w op = some w') :
    SavesOk slots w' := by
  cases op with
  | call op =>
    obtain ⟨hmoves, hcopy⟩ := hop
    rw [savesStep, Option.map_eq_some_iff] at hstep
    obtain ⟨st', hst', rfl⟩ := hstep
    obtain ⟨st₁, hst₁, hok⟩ := rowsStep_ok h.rows hmoves hcopy
    obtain rfl : st₁ = st' := Option.some.inj (hst₁.symm.trans hst')
    have hctx : kvStep w.st.ctx op = some st₁.ctx := by
      rw [← rowsStep_ctx, hst₁, Option.map_some]
    exact ⟨hok, kvStep_selfHead hmoves h.rows.self.recurrent
      (hcopy.imp_left h.rows.self.qnextSlots.trans) h.rows.doDefrag h.head hctx, h.blobs⟩
  | getData s partialOnly =>
    cases hstep
    refine ⟨h.rows, h.head, fun blob hb => ?_⟩
    rcases List.mem_append.mp hb with hb | hb
    · exact h.blobs blob hb
    · rw [Option.mem_toList, seqGetData] at hb
      split at hb
      · cases hb
      · cases hb
        exact writeKvCache_ok w.st s partialOnly
  | setData k d partialOnly =>
    simp only [savesStep] at hstep
    cases hblob : w.blobs[k]? with
    | none =>
      rw [hblob] at hstep
      cases hstep
      exact h
    | some blob =>
      simp only [hblob, seqSetData, Option.map_eq_some_iff] at hstep
      obtain ⟨⟨ok, st'⟩, hset, rfl⟩ := hstep
      split at hset
      · cases hset
        exact h
      · rename_i hactive
        rw [Bool.not_eq_true] at hactive
        obtain ⟨hrows, hhead⟩ := readKvCache_rowsOk h.rows h.head hactive hop
          (h.blobs blob (List.mem_of_getElem? hblob)) (hkept blob hblob hactive) hset
        exact ⟨hrows, hhead, h.blobs⟩

/-- The run keeps the saved rows right. -/
theorem savesRun_ok {ops : List SaveOp} (h : SavesOk slots w)
    (hops : ∀ op ∈ ops, op.MovesNoRow slots) (hkept : ShiftKeptIn vReads w ops)
    (hrun : savesRun vReads w ops = some w') : SavesOk slots w' := by
  induction ops generalizing w with
  | nil =>
    cases hrun
    exact h
  | cons op ops ih =>
    rw [savesRun, Option.bind_eq_some_iff] at hrun
    obtain ⟨w₁, hstep, hrest⟩ := hrun
    obtain ⟨hop, hlater⟩ := hkept
    exact ih (savesStep_ok h (hops op (List.mem_cons_self ..)) hop hstep)
      (fun o ho => hops o (List.mem_cons_of_mem _ ho)) (hlater w₁ hstep) hrest

end

/-- In every run whose restores find the shifts as the saves left them, the next update brings
the row of each cell with a position to it. -/
theorem saved_keys_at_positions {slots : Nat} {ctx : KvContext} (h : SavesFresh slots ctx)
    (rows : KeyRows) (vReads : Bool) {ops : List SaveOp} {w : SavesState}
    (hops : ∀ op ∈ ops, op.MovesNoRow slots)
    (hkept : ShiftKeptIn vReads { st := { ctx := ctx, rows := rows }, blobs := [] } ops)
    (hrun : savesRun vReads { st := { ctx := ctx, rows := rows }, blobs := [] } ops = some w) :
    ∃ st, rowsUpdate w.st = some (0, st) ∧
      RowsExact st.ctx.kvSelf st.rows.self ∧ RowsExact st.ctx.kvSwa st.rows.swa := by
  obtain ⟨st, hupdate, hsettled⟩ :=
    (savesRun_ok (savesOk_fresh h rows) hops hkept hrun).rows.update
  exact ⟨st, hupdate, hsettled.self.exact, hsettled.swa.exact⟩

/-- A context of a model with attention only, without a sliding cache. -/
def plainContext : KvContext where
  kvSelf := llamaKvCacheInit false false 0 4
  kvSwa := llamaKvCacheInit false false 0 0
  swaKvActive := false
  nSwa := 0
  swaKvGuard := 0
  flashAttn := false
  rope := true
  canShift := true
  maxMoves := 100

theorem plainContext_fresh : SavesFresh 0 plainContext where
  self := ⟨false, 4, rfl⟩
  swa := ⟨0, rfl⟩
  active := fun _ => rfl
  rope := rfl
  canShift := rfl

/-- The condition at the slot that the search finds. -/
def shiftKeptAt (vReads : Bool) (st : RowsState) (blob : SeqBlob) (d : Int)
    (partialOnly : Bool) : Bool :=
  (List.range blob.pos.length).all fun i =>
    let h := (searchSlot false (dropSeq st.ctx.kvSelf d) blob.pos.length).2
    blob.pos[i]?.all fun p => decide ((st.ctx.kvSelf.cells (h + i)).delta
      = p - loadedRows vReads st.rows.self h blob partialOnly (h + i))

/-- The check on the cells before a restore says that no saved key has a shift pending. -/
theorem shiftKept_of_at {vReads : Bool} {st : RowsState} {blob : SeqBlob} {d : Int}
    {partialOnly : Bool} (hrec : st.ctx.kvSelf.recurrent = false)
    (hhead : st.ctx.kvSelf.head ≤ st.ctx.kvSelf.size)
    (hat : shiftKeptAt vReads st blob d partialOnly = true) :
    ShiftKept vReads st blob d partialOnly := by
  intro h hslot i p hp _ _
  have hfits : blob.pos.length ≤ (dropSeq st.ctx.kvSelf d).size := by
    have := hslot.freeRun.1
    omega
  have hfound : (searchSlot false (dropSeq st.ctx.kvSelf d) blob.pos.length).2 = h := by
    have hsearched : Searched _ _ _ _ (searchSlot false (dropSeq st.ctx.kvSelf d) _) :=
      searchSlot_searched hfits (dropSeq_head_le hrec hhead)
    rcases hsearched with ⟨-, hpicks⟩ | ⟨-, hnone⟩
    · exact hpicks.unique hslot
    · exact absurd hslot.freeRun (hnone h)
  have hi := (List.getElem?_eq_some_iff.mp hp).1
  have hcell := List.all_eq_true.mp hat i (List.mem_range.mpr hi)
  simpa [hp, hfound] using hcell

/-- A token at position 0, moved to position 5 before the next update. -/
def shiftedRun : List SaveOp :=
  [.call (.decode [⟨0, [0]⟩]), .call (.seqAdd 0 0 (-1) 5), .getData 0 false]

/-- Restored into its own sequence the token comes back to its cell, where the shift is pending. -/
theorem saved_keys_at_positions_same :
    ∃ w, savesRun true ⟨⟨plainContext, ⟨fun _ => 0, fun _ => 0⟩⟩, []⟩
        (shiftedRun ++ [.setData 0 0 false]) = some w ∧
      ∃ st, rowsUpdate w.st = some (0, st) ∧
        RowsExact st.ctx.kvSelf st.rows.self ∧ RowsExact st.ctx.kvSwa st.rows.swa := by
  have hsome : (savesRun true ⟨⟨plainContext, ⟨fun _ => 0, fun _ => 0⟩⟩, []⟩
      (shiftedRun ++ [.setData 0 0 false])).isSome := by decide +kernel
  obtain ⟨w, hrun⟩ := Option.isSome_iff_exists.mp hsome
  refine ⟨w, hrun, saved_keys_at_positions plainContext_fresh _ true
    (by simp [shiftedRun, SaveOp.MovesNoRow, KvOp.MovesNoRow]) ?_ hrun⟩
  refine ⟨trivial, fun w₁ h₁ => ⟨trivial, fun w₂ h₂ => ⟨trivial, fun w₃ h₃ =>
    ⟨fun blob hblob _ => ?_, fun _ _ => trivial⟩⟩⟩⟩
  have hsaved : savesRun true ⟨⟨plainContext, ⟨fun _ => 0, fun _ => 0⟩⟩, []⟩ shiftedRun
      = some w₃ := by
    simp only [shiftedRun, savesRun, h₁, h₂, h₃, Option.bind_some]
  have hfacts : (savesRun true ⟨⟨plainContext, ⟨fun _ => 0, fun _ => 0⟩⟩, []⟩ shiftedRun).map
      (fun w => decide (w.st.ctx.kvSelf.recurrent = false ∧
        w.st.ctx.kvSelf.head ≤ w.st.ctx.kvSelf.size) &&
        w.blobs[0]?.all fun blob => shiftKeptAt true w.st blob 0 false) = some true := by
    decide +kernel
  rw [hsaved, Option.map_some, Option.some.injEq, Bool.and_eq_true, decide_eq_true_eq, hblob]
    at hfacts
  exact shiftKept_of_at hfacts.1.1 hfacts.1.2 hfacts.2

/-- Restored into another sequence it lands in a cell without a pending shift, and its row stays
at position 0. -/
theorem restore_loses_shift :
    ¬ ∀ (ctx : KvContext) (rows : KeyRows) (vReads : Bool) (ops : List SaveOp) (w : SavesState),
      SavesFresh 0 ctx → (∀ op ∈ ops, op.MovesNoRow 0) →
      savesRun vReads ⟨⟨ctx, rows⟩, []⟩ ops = some w →
      ∃ st, rowsUpdate w.st = some (0, st) ∧
        RowsExact st.ctx.kvSelf st.rows.self ∧ RowsExact st.ctx.kvSwa st.rows.swa := by
  intro h
  have hfinal : (savesRun true ⟨⟨plainContext, ⟨fun _ => 0, fun _ => 0⟩⟩, []⟩
      (shiftedRun ++ [.setData 0 1 false])).map (fun w =>
        (rowsUpdate w.st).map fun r => decide (1 < r.2.ctx.kvSelf.size ∧
          (r.2.ctx.kvSelf.cells 1).pos = 5 ∧ r.2.rows.self 1 = 0)) = some (some true) := by
    decide +kernel
  obtain ⟨w, hrun, hupdate⟩ := Option.map_eq_some_iff.mp hfinal
  obtain ⟨st, hst, hexact, -⟩ := h plainContext _ true _ w plainContext_fresh
    (by simp [shiftedRun, SaveOp.MovesNoRow, KvOp.MovesNoRow]) hrun
  rw [hst, Option.map_some, Option.some.injEq, decide_eq_true_eq] at hupdate
  obtain ⟨hsize, hpos, hrow⟩ : 1 < st.ctx.kvSelf.size ∧ (st.ctx.kvSelf.cells 1).pos = 5 ∧
    st.rows.self 1 = 0 := hupdate
  have heq := hexact 1 hsize (by omega)
  rw [hpos, hrow] at heq
  cases heq

end PxqLlama.Kv
