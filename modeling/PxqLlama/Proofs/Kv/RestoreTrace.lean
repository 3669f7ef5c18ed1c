import PxqLlama.Kv.StateFile
import PxqLlama.Proofs.Kv.RecurrentRestore

/-!
# `Proofs.Kv.RestoreTrace`: what a failed restore leaves behind

A failed restore leaves no trace when no cell holds the sequence, and the cells of the others
are as before (`LeavesNoTrace`). The drop at the begin and the cleanup at the end see to that,
and both leave the others alone (`othersKept_dropSeq`). But a read that throws passes the cleanup
by, and a removal does not reach every position. `RestoresCleanly` is the exact condition. It is
about the buffer, and about the cache before: how far the bytes agree with the format, and where
the positions find a slot.

The rows are read after the cells are placed. What becomes of that read is a matter of the bytes
and the format alone (`Complete`, `Mismatch`).
-/

namespace PxqLlama.Kv

open Wire

/-! ### What a restore should leave -/

/-- The format of the rows for the slot at `h`. -/
def StateCtx.env (st : StateCtx) (d : Int) (partialOnly : Bool) (cellCount h : Nat) : ReadEnv :=
  ⟨st.shape, { st.ctx.kvSelf with head := h }, d, cellCount, !partialOnly⟩

/-- A complete blob: a count, so many cells, `v_state`, and the rows, for some slot. -/
def IsBlob (st : StateCtx) (d : Int) (partialOnly : Bool) (blob : List UInt8) : Prop :=
  4 ≤ blob.length ∧ ∃ cells rest h, blob.drop 4 = cells ++ rest ∧
    Accepts (cellItems (decode (blob.take 4))) cells ∧
    4 ≤ rest.length ∧ decode (rest.take 4) = st.shape.vState ∧
    Accepts (dataItems (st.env d partialOnly (decode (blob.take 4)) h) st.shape.vState)
      (rest.drop 4)

/-- The call trips no assertion. It returns the size of a complete blob that it read, or zero,
and then no cell holds the sequence, and those of the others are as before. -/
def LeavesNoTrace (st : StateCtx) (buf : List UInt8) (d : Int) (partialOnly : Bool) : Prop :=
  ∃ n r, llamaStateSeqSetData st buf d partialOnly = some (n, r) ∧
    ((∃ blob rest, buf = blob ++ rest ∧ IsBlob st d partialOnly blob ∧ n = blob.length) ∨
      (n = 0 ∧ NoneHolds r.ctx.kvSelf d ∧ OthersKept d st.ctx.kvSelf r.ctx.kvSelf))

/-! ### The condition -/

/-- The bytes begin with `v_state` of the cache and all of its rows. -/
def Complete (env : ReadEnv) (buf : List UInt8) : Prop :=
  4 ≤ buf.length ∧ decode (buf.take 4) = env.shape.vState ∧ ∃ data rest,
    buf.drop 4 = data ++ rest ∧ Accepts (dataItems env env.shape.vState) data

/-- The bytes have an item that the reader refuses, and all that is before it. -/
def Mismatch (env : ReadEnv) (buf : List UInt8) : Prop :=
  4 ≤ buf.length ∧ Rejects (dataItems env (decode (buf.take 4))) (buf.drop 4)

/-- With the slot at `h`, the rows are complete; or the reader refuses them and the cleanup reaches
every cell of the sequence, in the slot at its new position, and no other sequence is in the slot. -/
def CleanAt (st : StateCtx) (d : Int) (partialOnly : Bool) (pos : List Int) (rest : List UInt8)
    (h : Nat) : Prop :=
  Complete (st.env d partialOnly pos.length h) rest ∨
    (Mismatch (st.env d partialOnly pos.length h) rest ∧
      (∀ p ∈ pos, Reached p) ∧
      (∀ i < st.ctx.kvSelf.size, i < h ∨ h + pos.length ≤ i →
        d ∈ (st.ctx.kvSelf.cells i).seqId → Reached (st.ctx.kvSelf.cells i).pos) ∧
      ∀ i, h ≤ i → i < h + pos.length → (st.ctx.kvSelf.cells i).seqId ⊆ {d})

/-- The same of a recurrent cache, where the slot is the cell of the sequence. Without positions, or
without a cell for the sequence, the search refuses, and the drop has to reach every cell. Else the
assertions have to hold. -/
def RecurrentClean (st : StateCtx) (d : Int) (partialOnly : Bool) (pos : List Int)
    (rest : List UInt8) : Prop :=
  let c := st.ctx.kvSelf
  if pos = [] then 2 ≤ c.size ∧ DropReaches c d
  else if (c.size : Int) ≤ d then DropReaches c d
  else StillHeld c d pos ∧ (Complete (st.env d partialOnly pos.length d.toNat) rest ∨
    (Mismatch (st.env d partialOnly pos.length d.toNat) rest ∧ CellUndone c d pos))

/-- When a restore leaves no trace. A buffer without a count, or a sliding cache, and nothing is
dropped: no cell may hold the sequence. There are fewer than 2^31 cells. When the cells are cut
off or refused, or find no slot, the drop has to reach every cell of the sequence. There is a
cell, and in the slot that is found the rows are clean. -/
def RestoresCleanly (st : StateCtx) (buf : List UInt8) (d : Int) (partialOnly : Bool) : Prop :=
  let c := st.ctx.kvSelf
  if st.ctx.swaKvActive = true ∨ buf.length < 4 then NoneHolds c d
  else
    decode (buf.take 4) < 2 ^ 31 ∧
      match Wire.run (cellItems (decode (buf.take 4))) (buf.drop 4) [] with
      | .done rest pos =>
        if c.recurrent then RecurrentClean st d partialOnly pos rest
        else
          pos ≠ [] ∧
            (∀ h, (dropSeq c d).NextSlot pos.length h → CleanAt st d partialOnly pos rest h) ∧
            ((∀ h, ¬ (dropSeq c d).FreeRun pos.length h) → DropReaches c d)
      | _ => DropReaches c d

/-! ### The placement, and the others -/

section
variable {c : KvCache} {d : Int} {pos : List Int} {h : Nat}

/-- Tokens with a position count as much in `used` as they are. -/
theorem drift_place (hrun : c.FreeRun pos.length h) (hpos : ∀ p ∈ pos, 0 ≤ p) :
    (c.place h (restoreBatch d pos)).drift = c.drift := by
  have hcount := numUsed_place (c := c) (h := h) (b := restoreBatch d pos)
    (by rwa [restoreBatch_length])
  have hall : (restoreBatch d pos).countP (0 ≤ ·.pos) = (restoreBatch d pos).length := by
    rw [List.countP_eq_length]
    intro t ht
    obtain ⟨p, hp, rfl⟩ := List.mem_map.mp ht
    exact decide_eq_true (hpos p hp)
  have hused : (c.place h (restoreBatch d pos)).used
      = addU32 c.used (restoreBatch d pos).length := rfl
  rw [hall] at hcount
  rw [KvCache.drift, KvCache.drift, hcount, hused, addU32]
  omega

/-- Placing the slot's cells touches no other sequence. -/
theorem othersKept_place (hrun : c.FreeRun pos.length h) (hpos : ∀ p ∈ pos, 0 ≤ p)
    (hempty : ∀ i, h ≤ i → i < h + pos.length → (c.cells i).seqId ⊆ {d}) :
    OthersKept d c (c.place h (restoreBatch d pos)) := by
  refine ⟨rfl, fun i _ t ht hne => ?_, fun i _ => ?_, drift_place hrun hpos⟩
  all_goals by_cases hin : i < h ∨ h + pos.length ≤ i
  · rw [place_restored_of_not_mem hin]
  · exact absurd (Finset.mem_singleton.mp (hempty i (by omega) (by omega) ht)) hne
  · rw [place_restored_of_not_mem hin]
  · obtain ⟨k, rfl⟩ : ∃ k, i = h + k := ⟨i - h, by omega⟩
    rw [place_restored_mem (List.getElem?_eq_getElem (show k < pos.length by omega))]
    exact Finset.erase_insert_eq_erase _ d

/-- The cleanup reaches the slot when its positions are ones that a removal reaches. -/
theorem noneHolds_cleanup_iff (hd : 0 ≤ d) (hrec : c.recurrent = false)
    (hrun : c.FreeRun pos.length h) :
    NoneHolds (dropSeq (c.place h (restoreBatch d pos)) d) d ↔
      (∀ p ∈ pos, Reached p) ∧ ∀ i < c.size, i < h ∨ h + pos.length ≤ i →
        d ∈ (c.cells i).seqId → Reached (c.cells i).pos := by
  have hfits : h + pos.length ≤ c.size := hrun.1
  have hrec' : (c.place h (restoreBatch d pos)).recurrent = false := hrec
  rw [noneHolds_dropSeq_iff hd, DropReaches]
  simp only [hrec', Bool.false_eq_true, false_imp_iff, and_true]
  constructor
  · intro hreaches
    refine ⟨fun p hp => ?_, fun i hi hout hmem => ?_⟩
    · obtain ⟨k, hk, rfl⟩ := List.getElem_of_mem hp
      have hplaced := place_restored_mem (c := c) (d := d) (h := h) (List.getElem?_eq_getElem hk)
      have hreached := hreaches (h + k) (show h + k < c.size by omega)
      rw [hplaced] at hreached
      exact hreached (Finset.mem_insert_self d _)
    · have hreached := hreaches i hi
      rw [place_restored_of_not_mem hout] at hreached
      exact hreached hmem
  · rintro ⟨hpos, houtside⟩ i hi hmem
    by_cases hout : i < h ∨ h + pos.length ≤ i
    · rw [place_restored_of_not_mem hout] at hmem ⊢
      exact houtside i hi hout hmem
    · obtain ⟨k, rfl⟩ : ∃ k, i = h + k := ⟨i - h, by omega⟩
      have hk : k < pos.length := by omega
      rw [place_restored_mem (List.getElem?_eq_getElem hk)]
      exact hpos _ (List.getElem_mem hk)

/-- After the cleanup the others are as before, unless the slot held one of them. -/
theorem othersKept_cleanup_iff (hd : 0 ≤ d) (hrun : c.FreeRun pos.length h)
    (hrange : ∀ p ∈ pos, Reached p) :
    OthersKept d c (dropSeq (c.place h (restoreBatch d pos)) d) ↔
      ∀ i, h ≤ i → i < h + pos.length → (c.cells i).seqId ⊆ {d} := by
  constructor
  · intro hkept i hlo hhi t ht
    rw [Finset.mem_singleton]
    by_contra hne
    obtain ⟨k, rfl⟩ : ∃ k, i = h + k := ⟨i - h, by omega⟩
    have hk : k < pos.length := by omega
    have hsize : h + pos.length ≤ c.size := hrun.1
    have hfree : (c.cells (h + k)).pos < 0 := hrun.2 k hk
    -- the placement has moved the cell of the other sequence
    have hplaced := place_restored_mem (c := c) (d := d) (h := h) (List.getElem?_eq_getElem hk)
    have hmoved := (othersKept_dropSeq hd (c.place h (restoreBatch d pos))).pos (h + k)
      (show h + k < c.size by omega) t
      (by rw [hplaced]; exact Finset.mem_insert_of_mem ht) hne
    rw [hkept.pos (h + k) (by omega) t ht hne, hplaced] at hmoved
    have := (hrange _ (List.getElem_mem hk)).1
    simp only at hmoved
    omega
  · intro hempty
    exact (othersKept_place hrun (fun p hp => (hrange p hp).1) hempty).trans
      (othersKept_dropSeq hd _)

end

/-! ### The read of the rows -/

section
variable {env : ReadEnv} {buf : List UInt8}

/-- A blob is complete exactly when the reader of the data gets through. -/
theorem complete_iff (mem : TensorMem) :
    Complete env buf ↔ decode (buf.take 4) = env.shape.vState ∧
      ∃ rest mem', readKvCacheData env buf mem = .done rest mem' := by
  rw [Complete, readKvCacheData]
  constructor
  · rintro ⟨hlength, hstate, data, rest, hbuf, haccepts⟩
    refine ⟨hstate, rest, applied (dataItems env env.shape.vState) data mem, ?_⟩
    rw [if_neg (by omega), hstate, hbuf]
    exact run_of_accepts haccepts
  · rintro ⟨hstate, rest, mem', hdone⟩
    split at hdone
    · cases hdone
    · rename_i hlength
      obtain ⟨data, hbuf, haccepts, -⟩ := accepts_of_run hdone
      rw [hstate] at haccepts
      exact ⟨by omega, hstate, data, rest, hbuf, haccepts⟩

/-- It does not match exactly when the reader refuses it. -/
theorem mismatch_iff (mem : TensorMem) :
    Mismatch env buf ↔ ∃ mem', readKvCacheData env buf mem = .refused mem' := by
  rw [Mismatch, readKvCacheData, ← run_refused_iff (s := mem)]
  constructor
  · rintro ⟨hlength, mem', hrefused⟩
    exact ⟨mem', by rw [if_neg (by omega), hrefused]⟩
  · rintro ⟨mem', hrefused⟩
    split at hrefused
    · cases hrefused
    · rename_i hlength
      exact ⟨by omega, mem', hrefused⟩

/-- The format of the rows looks at the shape of the cache, and at its head. -/
theorem dataItems_congr {env' : ReadEnv} (hshape : env'.shape = env.shape)
    (hsize : env'.cache.size = env.cache.size) (hhead : env'.cache.head = env.cache.head)
    (hslots : env'.cache.qnextSlots = env.cache.qnextSlots) (hseq : env'.seqId = env.seqId)
    (hcount : env'.cellCount = env.cellCount) (hneed : env'.needKv = env.needKv) (vState : Nat) :
    dataItems env' vState = dataItems env vState := by
  have hk : readK env' = readK env := by
    funext il l
    simp only [readK, ReadEnv.slot, hshape, hhead, hcount, hneed]
  have hv : readV env' = readV env := by
    funext il l
    simp only [readV, ReadEnv.slot, hshape, hhead, hcount, hneed]
  have hrow : transRowItem env' = transRowItem env := by
    funext il t j
    simp only [transRowItem, hsize, hhead, hcount]
  have htrans : readVTrans env' = readVTrans env := by
    funext il l
    simp only [readVTrans, hrow, hcount, hneed]
  have hrows : expectedStateRows env'.cache env.seqId
      = expectedStateRows env.cache env.seqId := by
    rw [expectedStateRows, expectedStateRows, KvCache.qnextSeqIdInRange,
      KvCache.qnextSeqIdInRange, hslots]
  have hs : readS env' = readS env := by
    funext il l
    simp only [readS, hrows, hshape, hseq]
  have hqnext : env'.cache.hasQnextState = env.cache.hasQnextState := by
    rw [KvCache.hasQnextState, KvCache.hasQnextState, hslots]
  rw [dataItems, dataItems, headerItem, headerItem, valueItems, valueItems, qnextItem, qnextItem,
    hk, hv, htrans, hs, hqnext, hshape, hsize, hcount]

end

/-! ### The read of the cells -/

/-- Each cell that is read adds one position. -/
theorem length_applied_cells (n : Nat) (bs : List UInt8) (acc : List Int) :
    (applied (cellItems n) bs acc).length = acc.length + n := by
  have key : ∀ (is : List Nat) (bs : List UInt8) (acc : List Int),
      (applied (is.flatMap fun _ => [⟨4, fun _ => .pass, fun bs pos => pos ++ [decodeInt bs]⟩,
        .expect 4 0]) bs acc).length = acc.length + is.length := by
    intro is
    induction is with
    | nil => exact fun _ _ => rfl
    | cons i is ih =>
      intro bs acc
      rw [List.flatMap_cons, List.cons_append, List.cons_append, applied, applied]
      show (applied (is.flatMap _) _ (acc ++ [_])).length = _
      rw [ih, List.length_append, List.length_cons]
      simp only [List.length_cons, List.length_nil]
      omega
  have h := key (List.range n) bs acc
  rwa [List.length_range] at h

variable {pos : List Int}

/-- The cells that are read, and their bytes. -/
theorem cells_of_run {n : Nat} {buf rest : List UInt8}
    (h : Wire.run (cellItems n) buf [] = .done rest pos) :
    pos.length = n ∧ ∃ cells, buf = cells ++ rest ∧ Accepts (cellItems n) cells := by
  obtain ⟨cells, hbuf, haccepts, rfl⟩ := accepts_of_run h
  refine ⟨?_, cells, hbuf, haccepts⟩
  rw [length_applied_cells, List.length_nil, Nat.zero_add]

theorem run_cells_ne_aborted {n : Nat} {buf : List UInt8} :
    Wire.run (cellItems n) buf pos ≠ .aborted := by
  apply run_ne_aborted
  intro f hf bs
  obtain ⟨i, -, hf⟩ := List.mem_flatMap.mp hf
  rcases List.mem_pair.mp hf with rfl | rfl
  · simp
  · simp only [Item.expect, Item.check]
    split <;> simp

/-- What stays of the cache when its cells are read. -/
theorem readKvCacheMeta_shape {c c' : KvCache} {d : Int} {ok : Bool}
    (h : readKvCacheMeta c d pos = some (ok, c')) :
    c'.size = c.size ∧ c'.qnextSlots = c.qnextSlots := by
  have hdrop : (dropSeq c d).qnextSlots = c.qnextSlots := by
    rw [dropSeq_eq]
    split <;> rfl
  have hfind : ∀ (c : KvCache) (b : UBatch), (llamaKvCacheFindSlot c b).2.size = c.size ∧
      (llamaKvCacheFindSlot c b).2.qnextSlots = c.qnextSlots := by
    intro c b
    rw [llamaKvCacheFindSlot]
    split
    · rw [findSlotRecurrent]
      split <;> exact ⟨rfl, rfl⟩
    · split
      · exact ⟨rfl, rfl⟩
      · simp only
        split <;> exact ⟨rfl, rfl⟩
  obtain ⟨hsize, hslots⟩ := hfind (dropSeq c d) (restoreBatch d pos)
  rw [hdrop] at hslots
  rw [dropSeq_size] at hsize
  rw [readKvCacheMeta, placeRestored] at h
  generalize llamaKvCacheFindSlot (dropSeq c d) (restoreBatch d pos) = r at h hsize hslots
  obtain ⟨found, c₁⟩ := r
  simp only at h
  split at h
  · split at h
    · cases h
      exact ⟨hsize, hslots⟩
    · cases h
  · cases h
    exact ⟨hsize, hslots⟩

/-- The cells that pass the assertions hold the sequence. -/
theorem not_noneHolds_of_placed {c c' : KvCache} {d : Int}
    (h : readKvCacheMeta c d pos = some (true, c')) : ¬ NoneHolds c' d := by
  rw [readKvCacheMeta, placeRestored] at h
  generalize llamaKvCacheFindSlot (dropSeq c d) (restoreBatch d pos) = r at h
  obtain ⟨found, c₁⟩ := r
  simp only at h
  split at h
  · split at h
    · rename_i hasserts
      obtain ⟨hfits, hfirst, -, hholds, -⟩ := hasserts
      cases h
      have hlength : 0 < pos.length := by
        rw [List.length_pos_iff]
        rintro rfl
        cases hfirst
      intro hnone
      rw [KvCell.hasSeqId, decide_eq_true_iff] at hholds
      exact hnone _ (by omega) hholds
    · cases h
  · cases h

/-! ### The whole read -/

section
variable {st : StateCtx} {buf rest : List UInt8} {d : Int} {partialOnly : Bool} {pos : List Int}

/-- A restore that fails leaves no trace when its cells are gone and the others are kept. -/
theorem leavesNoTrace_iff_of_failed {r : ReadState}
    (h : llamaStateSeqSetData st buf d partialOnly = some (0, r)) :
    LeavesNoTrace st buf d partialOnly ↔
      NoneHolds r.ctx.kvSelf d ∧ OthersKept d st.ctx.kvSelf r.ctx.kvSelf := by
  constructor
  · rintro ⟨n, r', hr, ⟨blob, tail, -, hblob, hlength⟩ | hnone⟩
    all_goals
      rw [h] at hr
      cases hr
    · -- a blob has at least its count
      have := hblob.1
      omega
    · exact hnone.2
  · exact fun hnone => ⟨0, r, h, Or.inr ⟨rfl, hnone⟩⟩

theorem not_leavesNoTrace_of_aborted (h : llamaStateSeqSetData st buf d partialOnly = none) :
    ¬ LeavesNoTrace st buf d partialOnly := by
  rintro ⟨n, r, hr, -⟩
  rw [h] at hr
  cases hr

/-- A read to the end has read a complete blob when `v_state` is the one of the cache. -/
theorem isBlob_iff_of_read {n h : Nat} {cells data tail : List UInt8} (hlength : 4 ≤ buf.length)
    (hn : n = decode (buf.take 4)) (hbuf : buf.drop 4 = cells ++ rest)
    (hcells : Accepts (cellItems n) cells) (hrest : 4 ≤ rest.length)
    (hdata : rest.drop 4 = data ++ tail)
    (haccepts : Accepts (dataItems (st.env d partialOnly n h) (decode (rest.take 4))) data) :
    (∃ blob tail', buf = blob ++ tail' ∧ IsBlob st d partialOnly blob ∧
        buf.length - tail.length = blob.length) ↔
      decode (rest.take 4) = st.shape.vState := by
  subst hn
  constructor
  · rintro ⟨blob, tail', rfl, ⟨hlength', cells', rest', h', hblob, hcells', hrest', hstate, -⟩, -⟩
    rw [List.take_append_of_le_length hlength'] at hcells
    rw [List.drop_append_of_le_length hlength', hblob, List.append_assoc] at hbuf
    -- the cells have the same bytes, so `v_state` has the same place
    obtain ⟨-, hrests⟩ := List.append_inj hbuf (hcells'.length.trans hcells.length.symm)
    rw [← hrests, List.take_append_of_le_length hrest']
    exact hstate
  · intro hstate
    rw [hstate] at haccepts
    have hword : (buf.take 4).length = 4 := by
      rw [List.length_take]
      omega
    have hparts : buf = (buf.take 4 ++ (cells ++ (rest.take 4 ++ data))) ++ tail := by
      rw [List.append_assoc, List.append_assoc, List.append_assoc, ← hdata,
        List.take_append_drop, ← hbuf, List.take_append_drop]
    refine ⟨_, tail, hparts, ?_, ?_⟩
    · have hcount : (buf.take 4 ++ (cells ++ (rest.take 4 ++ data))).take 4 = buf.take 4 := by
        rw [List.take_append_of_le_length (by omega), List.take_of_length_le (by omega)]
      have hbody : (buf.take 4 ++ (cells ++ (rest.take 4 ++ data))).drop 4
          = cells ++ (rest.take 4 ++ data) := List.drop_left' hword
      have hhead : (rest.take 4).length = 4 := by
        rw [List.length_take]
        omega
      refine ⟨by rw [List.length_append]; omega, cells, rest.take 4 ++ data, h, hbody, ?_, ?_, ?_,
        ?_⟩
      · rwa [hcount]
      · rw [List.length_append]
        omega
      · rwa [List.take_append_of_le_length (by omega), List.take_of_length_le (by omega)]
      · rwa [hcount, List.drop_left' hhead]
    · have hlengths := congrArg List.length hparts
      rw [List.length_append] at hlengths
      omega

/-- The context with the cache as it is after the read of the cells. -/
def StateCtx.withCache (st : StateCtx) (c : KvCache) (mem : TensorMem) : ReadState :=
  ⟨{ st.ctx with kvSelf := c }, mem⟩

theorem cleanup_withCache (hswa : st.ctx.swaKvActive = false) (c : KvCache) (mem : TensorMem) :
    (cleanup d (st.withCache c mem)).ctx.kvSelf = dropSeq c d := by
  have h : (kvSeqRm { st.ctx with kvSelf := c } d (-1) (-1)).2
      = { st.ctx with kvSelf := dropSeq c d } := kvSeqRm_dropSeq hswa
  exact congrArg KvContext.kvSelf h

/-- The call, from the end of the cells on. -/
theorem setData_of_cells (d : Int) (partialOnly : Bool) (hswa : st.ctx.swaKvActive = false)
    (hlength : 4 ≤ buf.length) (hcount : decode (buf.take 4) < 2 ^ 31)
    (hread : Wire.run (cellItems (decode (buf.take 4))) (buf.drop 4) [] = .done rest pos) :
    llamaStateSeqSetData st buf d partialOnly =
      match readKvCacheMeta st.ctx.kvSelf d pos with
      | none => none
      | some (false, c) => some (0, cleanup d (st.withCache c st.mem))
      | some (true, c) =>
        match readKvCacheData (st.env d partialOnly pos.length c.head) rest st.mem with
        | .done tail mem => some (buf.length - tail.length, st.withCache c mem)
        | .refused mem => some (0, cleanup d (st.withCache c mem))
        | .thrown mem => some (0, st.withCache c mem)
        | .aborted => none := by
  rw [llamaStateSeqSetData, if_neg (by simp [hswa]), readKvCacheBytes, if_neg (by omega)]
  simp only [hread]
  rw [if_neg (by omega)]
  cases hmeta : readKvCacheMeta st.ctx.kvSelf d pos with
  | none => rfl
  | some r =>
    obtain ⟨ok, c⟩ := r
    cases ok with
    | false => rfl
    | true =>
      obtain ⟨hsize, hslots⟩ := readKvCacheMeta_shape hmeta
      -- the format is the same for the cache before and after the placement
      have henv : ∀ vState, dataItems ⟨st.shape, c, d, decode (buf.take 4), !partialOnly⟩ vState
          = dataItems (st.env d partialOnly pos.length c.head) vState :=
        dataItems_congr rfl hsize rfl hslots rfl (cells_of_run hread).1.symm rfl
      have hrows : readKvCacheData ⟨st.shape, c, d, decode (buf.take 4), !partialOnly⟩ rest st.mem
          = readKvCacheData (st.env d partialOnly pos.length c.head) rest st.mem := by
        rw [readKvCacheData, readKvCacheData, henv]
      simp only [hrows]
      cases readKvCacheData (st.env d partialOnly pos.length c.head) rest st.mem <;> rfl

/-- What the read of the cells has to leave for a restore without a trace. The two kinds of cache
say of their cells before the call when it does. -/
def SlotClean (st : StateCtx) (d : Int) (partialOnly : Bool) (pos : List Int)
    (rest : List UInt8) : Prop :=
  match readKvCacheMeta st.ctx.kvSelf d pos with
  | none => False
  | some (false, c) => NoneHolds (dropSeq c d) d ∧ OthersKept d st.ctx.kvSelf (dropSeq c d)
  | some (true, c) =>
    Complete (st.env d partialOnly pos.length c.head) rest ∨
      (Mismatch (st.env d partialOnly pos.length c.head) rest ∧ NoneHolds (dropSeq c d) d ∧
        OthersKept d st.ctx.kvSelf (dropSeq c d))

/-- The cells are read: what happens next depends on the slot. -/
theorem leavesNoTrace_iff_of_cells (hswa : st.ctx.swaKvActive = false)
    (hlength : 4 ≤ buf.length) (hcount : decode (buf.take 4) < 2 ^ 31)
    (hread : Wire.run (cellItems (decode (buf.take 4))) (buf.drop 4) [] = .done rest pos) :
    LeavesNoTrace st buf d partialOnly ↔ SlotClean st d partialOnly pos rest := by
  have hset := setData_of_cells d partialOnly hswa hlength hcount hread
  obtain ⟨hpos, cells, hbuf, hcells⟩ := cells_of_run hread
  rw [SlotClean]
  cases hmeta : readKvCacheMeta st.ctx.kvSelf d pos with
  | none =>
    simp only [hmeta] at hset
    exact iff_of_false (not_leavesNoTrace_of_aborted hset) id
  | some r =>
    obtain ⟨ok, c⟩ := r
    cases ok with
    | false =>
      simp only [hmeta] at hset
      rw [leavesNoTrace_iff_of_failed hset, cleanup_withCache hswa]
    | true =>
      simp only [hmeta] at hset
      simp only [complete_iff st.mem, mismatch_iff st.mem]
      have hheld := not_noneHolds_of_placed hmeta
      cases ho : readKvCacheData (st.env d partialOnly pos.length c.head) rest st.mem with
      | done tail mem =>
        simp only [ho] at hset
        rw [readKvCacheData] at ho
        split at ho
        · cases ho
        · rename_i hrest
          obtain ⟨data, hdata, haccepts, -⟩ := accepts_of_run ho
          have hshort : tail.length < buf.length := by
            have h₁ := congrArg List.length hbuf
            have h₂ := congrArg List.length hdata
            rw [List.length_drop, List.length_append] at h₁ h₂
            omega
          have hblob := isBlob_iff_of_read hlength hpos hbuf (hpos ▸ hcells) (by omega) hdata
            haccepts
          have hread : LeavesNoTrace st buf d partialOnly ↔ decode (rest.take 4)
              = st.shape.vState := by
            rw [← hblob]
            refine ⟨?_, fun h => ⟨_, _, hset, Or.inl h⟩⟩
            rintro ⟨n, r, hr, h | ⟨hzero, -⟩⟩
            · rw [hset] at hr
              cases hr
              exact h
            · rw [hset] at hr
              cases hr
              omega
          rw [hread]
          simp [StateCtx.env]
      | refused mem =>
        simp only [ho] at hset
        rw [leavesNoTrace_iff_of_failed hset, cleanup_withCache hswa]
        simp
      | thrown mem =>
        simp only [ho] at hset
        rw [leavesNoTrace_iff_of_failed hset]
        exact iff_of_false (fun h => hheld h.1) (by simp)
      | aborted =>
        simp only [ho] at hset
        simpa using not_leavesNoTrace_of_aborted hset

/-- A cache that is dropped once, whatever its head is then, is clean after the second drop when the
first one reaches every cell. -/
theorem refused_clean_iff (hd : 0 ≤ d) {c c' : KvCache} (hcells : c'.cells = (dropSeq c d).cells)
    (hsize : c'.size = (dropSeq c d).size) (hused : c'.used = (dropSeq c d).used)
    (hrec : c'.recurrent = (dropSeq c d).recurrent) :
    (NoneHolds (dropSeq c' d) d ∧ OthersKept d c (dropSeq c' d)) ↔ DropReaches c d := by
  have hkeeps : OthersKept d (dropSeq c d) c' := by
    refine ⟨hsize, fun i _ t _ _ => by rw [hcells], fun i _ => by rw [hcells], ?_⟩
    rw [KvCache.drift, KvCache.drift, KvCache.numUsed, KvCache.numUsed, hused, hsize, hcells]
  have hkept := ((othersKept_dropSeq hd c).trans hkeeps).trans (othersKept_dropSeq hd c')
  have hsame : DropReaches c' d ↔ DropReaches (dropSeq c d) d := by
    rw [DropReaches, DropReaches, hcells, hsize, hrec]
  rw [and_iff_left hkept, noneHolds_dropSeq_iff hd, hsame, ← noneHolds_dropSeq_iff hd,
    noneHolds_dropSeq_twice hd, noneHolds_dropSeq_iff hd]

/-- The slot of a cache of attention is the next one, if there is one. -/
theorem slotClean_iff (hd : 0 ≤ d) (hrec : st.ctx.kvSelf.recurrent = false) :
    SlotClean st d partialOnly pos rest ↔
      pos ≠ [] ∧
        (∀ h, (dropSeq st.ctx.kvSelf d).NextSlot pos.length h →
          CleanAt st d partialOnly pos rest h) ∧
        ((∀ h, ¬ (dropSeq st.ctx.kvSelf d).FreeRun pos.length h) →
          DropReaches st.ctx.kvSelf d) := by
  have hdrop := othersKept_dropSeq hd st.ctx.kvSelf
  have hmeta := readKvCacheMeta_read hrec st.head_le d pos
  rw [SlotClean]
  generalize readKvCacheMeta st.ctx.kvSelf d pos = r at hmeta
  cases hmeta with
  | aborted hpos => simp [hpos]
  | @full h hpos hfull hle =>
    -- the cleanup drops the sequence a second time
    simp only [refused_clean_iff hd
      (show ({ dropSeq st.ctx.kvSelf d with head := h } : KvCache).cells = _ from rfl) rfl rfl rfl]
    refine ⟨fun h => ⟨hpos, fun h' hslot => absurd hslot.freeRun (hfull h'), fun _ => h⟩, ?_⟩
    exact fun h => h.2.2 hfull
  | @placed h hpos hslot =>
    have hrun := hslot.freeRun
    have hfits : h + pos.length ≤ (dropSeq st.ctx.kvSelf d).size := hrun.1
    rw [dropSeq_size] at hfits
    have hrec' := (dropSeq_shape (d := d) hrec).2.1
    have hall : (∀ h', (dropSeq st.ctx.kvSelf d).NextSlot pos.length h' →
        CleanAt st d partialOnly pos rest h') ↔ CleanAt st d partialOnly pos rest h :=
      ⟨fun hclean => hclean h hslot, fun hclean h' hslot' => hslot.unique hslot' ▸ hclean⟩
    have hfound : ((∀ h, ¬ (dropSeq st.ctx.kvSelf d).FreeRun pos.length h) →
        DropReaches st.ctx.kvSelf d) ↔ True :=
      iff_true_intro fun hfull => absurd hrun (hfull h)
    rw [hall, hfound, and_true, and_iff_right hpos, CleanAt]
    refine or_congr_right (and_congr_right fun _ => ?_)
    -- the cleanup acts on the cache that was dropped once already
    have hsame : ∀ c, OthersKept d st.ctx.kvSelf c ↔ OthersKept d (dropSeq st.ctx.kvSelf d) c :=
      fun c => ⟨hdrop.symm.trans, hdrop.trans⟩
    have hreached : (∀ i < (dropSeq st.ctx.kvSelf d).size, i < h ∨ h + pos.length ≤ i →
          d ∈ ((dropSeq st.ctx.kvSelf d).cells i).seqId →
            Reached ((dropSeq st.ctx.kvSelf d).cells i).pos) ↔
        ∀ i < st.ctx.kvSelf.size, i < h ∨ h + pos.length ≤ i →
          d ∈ (st.ctx.kvSelf.cells i).seqId → Reached (st.ctx.kvSelf.cells i).pos := by
      rw [dropSeq_size]
      exact forall_congr' fun i => forall_congr' fun hi => forall_congr' fun _ =>
        reached_dropSeq_iff hd hi
    have halone : (∀ i, h ≤ i → i < h + pos.length →
          ((dropSeq st.ctx.kvSelf d).cells i).seqId ⊆ {d}) ↔
        ∀ i, h ≤ i → i < h + pos.length → (st.ctx.kvSelf.cells i).seqId ⊆ {d} :=
      forall_congr' fun i => forall_congr' fun _ => forall_congr' fun hi =>
        dropSeq_subset_iff hd (by omega)
    rw [noneHolds_cleanup_iff hd hrec' hrun, hreached, hsame, and_assoc]
    refine and_congr_right fun hrange => and_congr_right fun _ => ?_
    rw [othersKept_cleanup_iff hd hrun hrange, halone]

/-- The slot of a recurrent cache is the cell of the sequence. -/
theorem slotClean_recurrent_iff (hd : 0 ≤ d) (hrec : st.ctx.kvSelf.recurrent = true)
    (hcount : pos.length < 2 ^ 31) :
    SlotClean st d partialOnly pos rest ↔ RecurrentClean st d partialOnly pos rest := by
  have hmeta := readKvCacheMeta_recurrent hrec hd pos
  rw [SlotClean, RecurrentClean]
  generalize readKvCacheMeta st.ctx.kvSelf d pos = r at hmeta
  cases hmeta with
  | empty hpos hsize =>
    simp only [hpos, if_true]
    exact iff_of_false id fun h => by omega
  | @refused head n hout =>
    simp only [refused_clean_iff hd
      (show ({ dropSeq st.ctx.kvSelf d with head := head, n := n } : KvCache).cells = _ from rfl)
      rfl rfl rfl]
    rcases hout with ⟨hpos, hsize⟩ | ⟨hpos, hbeyond⟩
    · rw [if_pos hpos, and_iff_right hsize]
    · rw [if_neg hpos, if_pos hbeyond]
  | unheld hpos hcell hnot =>
    simp only [hpos, Int.not_le.mpr hcell, if_false]
    exact iff_of_false id fun h => hnot h.1
  | @taken c' hpos hcell hheld htaken =>
    have hhead : c'.head = d.toNat := htaken.head
    simp only [hpos, Int.not_le.mpr hcell, if_false, hhead]
    rw [and_iff_right hheld, cleanup_taken_iff hrec hd hcell hpos (by omega) hheld htaken]

end

/-- A cache of two cells with one layer of keys and values. -/
def twoCells : StateCtx where
  ctx := {
    kvSelf := llamaKvCacheInit false false 0 2
    kvSwa := llamaKvCacheInit false false 0 0
    swaKvActive := false
    nSwa := 0
    swaKvGuard := 0
    flashAttn := true
    rope := true
    canShift := true
    maxMoves := 1 }
  shape := {
    layers := [{
      k := some { type := .f16, ne0 := 1, ne1 := 2 }
      v := some { type := .f16, ne0 := 2, ne1 := 1 }
      nEmbdKGqa := 1
      nEmbdHeadK := 1
      vRowEmbd := 1 }] }
  mem := fun _ _ => 0
  head_le := Nat.zero_le _
  slots := rfl

/-- A blob of one cell that is cut off in its key row. -/
def cutOffBlob : List UInt8 :=
  [1, 0, 0, 0] ++ [0, 0, 0, 0] ++ [0, 0, 0, 0] ++ [0, 0, 0, 0] ++ [1, 0, 0, 0] ++ [1, 0, 0, 0] ++
    [2, 0, 0, 0, 0, 0, 0, 0] ++ [7]

/-- The two cells in use: sequence 0 has the first one, and sequence 1 the second one. -/
def heldCells : StateCtx :=
  { twoCells with ctx := { twoCells.ctx with
      kvSelf := { twoCells.ctx.kvSelf with
        used := 2
        cells := fun i => if i = 0 then { pos := 4, seqId := {0} } else { pos := 7, seqId := {1} } } } }

/-- A blob of one cell at position 3, with rows of three bytes where the cache has two. -/
def wideBlob : List UInt8 :=
  [1, 0, 0, 0] ++ [3, 0, 0, 0] ++ [0, 0, 0, 0] ++ [0, 0, 0, 0] ++ [1, 0, 0, 0] ++ [1, 0, 0, 0] ++
    [3, 0, 0, 0, 0, 0, 0, 0] ++ [7, 8, 9]

end PxqLlama.Kv
