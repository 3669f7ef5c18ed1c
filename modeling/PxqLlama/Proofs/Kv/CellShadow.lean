import PxqLlama.Proofs.Kv.MaskFill

/-!
# `Proofs.Kv.CellShadow`: the shadow never drifts from the set

`Synced` is the invariant of a cell: `seq0` is the shadow of its set, and the set has no number
below zero. Every method leaves it so, and a copy or a swap brings it along (`cellsStep_synced`).
So the shadow answers as the set does after every run (`shadow_parity`).
-/

namespace PxqLlama.Kv

/-- The stored shadow is the shadow of the set. -/
structure ShadowCell.Synced (c : ShadowCell) : Prop where
  shadow : c.seq0 = c.toKvCell.seqShadow
  nonneg : ∀ id ∈ c.seqId, 0 ≤ id

/-- What `sync_shadow` writes is the shadow of the set. -/
theorem ShadowCell.syncShadow_seq0 (c : ShadowCell) :
    c.syncShadow.seq0 = c.toKvCell.seqShadow := by
  have hcard : (c.seqId.sort (· ≤ ·)).length = c.seqId.card := Finset.length_sort _
  show (if c.seqId = ∅ then SEQ_NONE
    else if c.seqId.card = 1 then (c.seqId.sort (· ≤ ·)).headD 0 else SEQ_MULTI) = _
  simp only [KvCell.seqShadow, ← Finset.card_eq_zero, ← hcard]
  rcases c.seqId.sort (· ≤ ·) with - | ⟨id, - | ⟨id', ids⟩⟩
  · rfl
  · rfl
  · rfl

variable {c : ShadowCell}

theorem ShadowCell.syncShadow_synced (h : ∀ id ∈ c.seqId, 0 ≤ id) : c.syncShadow.Synced where
  shadow := c.syncShadow_seq0
  nonneg := h

theorem ShadowCell.Synced.addSeq (h : c.Synced) {id : Int} (hid : 0 ≤ id) :
    (c.addSeq id).Synced := by
  refine ShadowCell.syncShadow_synced fun id' hmem => ?_
  rcases Finset.mem_insert.mp hmem with rfl | hmem
  · exact hid
  · exact h.nonneg id' hmem

theorem ShadowCell.Synced.eraseSeq (h : c.Synced) (id : Int) : (c.eraseSeq id).Synced :=
  ShadowCell.syncShadow_synced fun id' hmem => h.nonneg id' (Finset.mem_of_mem_erase hmem)

theorem seqShadow_of_empty {c : KvCell} (h : c.seqId = ∅) : c.seqShadow = SEQ_NONE := by
  rw [KvCell.seqShadow, h, Finset.sort_empty]
  rfl

theorem ShadowCell.clearSeq_synced (c : ShadowCell) : c.clearSeq.Synced where
  shadow := (seqShadow_of_empty rfl).symm
  nonneg := fun id hmem => absurd hmem (Finset.notMem_empty id)

theorem ShadowCell.synced_default : ({} : ShadowCell).Synced where
  shadow := (seqShadow_of_empty rfl).symm
  nonneg := fun id hmem => absurd hmem (Finset.notMem_empty id)

/-! ### Runs -/

/-- A swap exchanges the two cells, whatever the moves left in between. -/
theorem stdSwap_eq (cells : Nat → ShadowCell) (i j : Nat) (left : Finset Int) (k : Nat) :
    stdSwap cells i j left k = if k = j then cells i else if k = i then cells j else cells k := by
  by_cases hkj : k = j
  · subst hkj
    simp [stdSwap]
  · by_cases hki : k = i
    · subst hki
      have hjk : j ≠ k := fun h => hkj h.symm
      simp [stdSwap, hkj, hjk]
    · simp [stdSwap, hkj, hki]

/-- One call keeps every cell in step. -/
theorem cellsStep_synced {cells : Nat → ShadowCell} (h : ∀ k, (cells k).Synced) {op : CellsOp}
    (hop : op.Ok) (k : Nat) : (cellsStep cells op k).Synced := by
  have hupdate : ∀ (i : Nat) {c : ShadowCell}, c.Synced → (Function.update cells i c k).Synced := by
    intro i c hc
    by_cases hki : k = i
    · rw [hki, Function.update_self]
      exact hc
    · rw [Function.update_of_ne hki]
      exact h k
  cases op with
  | addSeq i id => exact hupdate i ((h i).addSeq hop)
  | eraseSeq i id => exact hupdate i ((h i).eraseSeq id)
  | clearSeq i => exact hupdate i (cells i).clearSeq_synced
  | copy i j => exact hupdate i (h j)
  | reset i => exact hupdate i ShadowCell.synced_default
  | swap i j left =>
    show (stdSwap cells i j left k).Synced
    rw [stdSwap_eq]
    split
    · exact h i
    · split
      · exact h j
      · exact h k

/-- Every cell is in step after every run. -/
theorem cellsRun_synced {ops : List CellsOp} (hops : ∀ op ∈ ops, op.Ok) (k : Nat) :
    (cellsRun ops k).Synced := by
  have hrun : ∀ cells : Nat → ShadowCell, (∀ k, (cells k).Synced) →
      ∀ k, (ops.foldl cellsStep cells k).Synced := by
    induction ops with
    | nil => exact fun cells h => h
    | cons op ops ih =>
      intro cells h
      have hop : op.Ok := hops op (List.mem_cons_self ..)
      exact ih (fun op' hop' => hops op' (List.mem_cons_of_mem _ hop')) _
        (cellsStep_synced h hop)
  exact hrun _ (fun _ => ShadowCell.synced_default) k

/-- A cell in step answers from the shadow as the model of the mask fill does. -/
theorem ShadowCell.Synced.hasSeqFast (h : c.Synced) (id : Int) :
    c.hasSeqFast id = c.toKvCell.hasSeqFast id := by
  rw [ShadowCell.hasSeqFast, KvCell.hasSeqFast, h.shadow]
  rfl

/-- What the shadow of a set of numbers from zero on says about the set. -/
theorem seqShadow_iff {c : KvCell} (h : ∀ id ∈ c.seqId, 0 ≤ id) :
    (c.seqShadow = SEQ_NONE ↔ c.seqId = ∅) ∧
      (∀ id, 0 ≤ id → (c.seqShadow = id ↔ c.seqId = {id})) ∧
      (c.seqShadow = SEQ_MULTI ↔ 2 ≤ c.seqId.card) := by
  have hset : ∀ t, t ∈ c.seqId.sort (· ≤ ·) ↔ t ∈ c.seqId := fun t => Finset.mem_sort _
  have hcard : (c.seqId.sort (· ≤ ·)).length = c.seqId.card := Finset.length_sort _
  rw [KvCell.seqShadow]
  rcases hsort : c.seqId.sort (· ≤ ·) with - | ⟨t, - | ⟨u, rest⟩⟩
  · have hempty : c.seqId = ∅ := by
      rw [hsort] at hcard
      exact Finset.card_eq_zero.mp hcard.symm
    simp only [hempty, SEQ_NONE, SEQ_MULTI]
    refine ⟨by simp, fun id hid => ?_, by simp⟩
    exact iff_of_false (by omega) (Finset.singleton_ne_empty id).symm
  · have honly : c.seqId = {t} := by
      ext x
      rw [← hset, hsort, List.mem_singleton, Finset.mem_singleton]
    have ht : 0 ≤ t := h t (honly ▸ Finset.mem_singleton_self t)
    simp only [honly, SEQ_NONE, SEQ_MULTI]
    refine ⟨?_, fun id _ => Finset.singleton_inj.symm, ?_⟩
    · exact iff_of_false (by omega) (Finset.singleton_ne_empty t)
    · rw [Finset.card_singleton]
      exact iff_of_false (by omega) (by omega)
  · have hmany : 2 ≤ c.seqId.card := by
      rw [← hcard, hsort]
      exact Nat.le_add_left 2 rest.length
    have hne : c.seqId ≠ ∅ := by
      intro hempty
      rw [hempty, Finset.card_empty] at hmany
      omega
    refine ⟨iff_of_false (by show ¬ (-2 : Int) = -1; omega) hne, fun id hid => ?_,
      iff_of_true rfl hmany⟩
    refine iff_of_false (by show ¬ (-2 : Int) = id; omega) fun hone => ?_
    rw [hone, Finset.card_singleton] at hmany
    omega

/-- **The shadow is never out of step with the set.** After every run of calls on any cells,
with sequence numbers from zero on, the shadow answers for every number as the set does, and it
tells the empty set, a single number and several apart. -/
theorem shadow_parity {ops : List CellsOp} (hops : ∀ op ∈ ops, op.Ok) (i : Nat) :
    (∀ id, (cellsRun ops i).hasSeqFast id = (cellsRun ops i).toKvCell.hasSeqId id) ∧
      ((cellsRun ops i).seq0 = SEQ_NONE ↔ (cellsRun ops i).seqId = ∅) ∧
      (∀ id, 0 ≤ id → ((cellsRun ops i).seq0 = id ↔ (cellsRun ops i).seqId = {id})) ∧
      ((cellsRun ops i).seq0 = SEQ_MULTI ↔ 2 ≤ (cellsRun ops i).seqId.card) := by
  have hsync := cellsRun_synced hops i
  refine ⟨fun id => ?_, ?_⟩
  · rw [hsync.hasSeqFast, Bool.eq_iff_iff, hasSeqFast_iff, KvCell.hasSeqId, decide_eq_true_iff]
    constructor
    · rintro ⟨hmem, -⟩
      exact hmem
    · intro hmem
      refine ⟨hmem, fun hneg => ?_⟩
      have := hsync.nonneg id hmem
      omega
  · rw [hsync.shadow]
    exact seqShadow_iff hsync.nonneg

/-- Two sequences in one cell, a swap and a reset. -/
theorem shadow_parity_swapped :
    (∀ op ∈ [CellsOp.addSeq 0 3, .addSeq 0 5, .swap 0 1 ∅, .eraseSeq 1 5, .reset 0], op.Ok) ∧
    (∀ id, (cellsRun [.addSeq 0 3, .addSeq 0 5, .swap 0 1 ∅, .eraseSeq 1 5, .reset 0] 1).hasSeqFast
      id = decide (id ∈ (cellsRun [.addSeq 0 3, .addSeq 0 5, .swap 0 1 ∅, .eraseSeq 1 5, .reset 0]
        1).seqId)) := by
  have hops : ∀ op ∈ [CellsOp.addSeq 0 3, .addSeq 0 5, .swap 0 1 ∅, .eraseSeq 1 5, .reset 0],
      op.Ok := by
    simp [CellsOp.Ok]
  exact ⟨hops, (shadow_parity hops 1).1⟩

end PxqLlama.Kv
