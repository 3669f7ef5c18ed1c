import PxqLlama.Kv.StateCopy
import PxqLlama.Kv.Edit

/-!
# `Proofs.Kv.StateCopy`: recurrent states move on request

`Tracked` is the invariant of a hybrid cache: the source of a row was asked for, and the cells
behind the rows are their own source. The edits keep a source or reset it (`KeepsSource`), a
copy of a sequence adds its request, and the state copy starts over without requests.

A defragmentation takes whole cells along, their sources included, so the invariant needs that
it moves none (`states_move_on_request`). With a hole below `used` it does not hold: the cell
that moves brings its source to another row, and leaves zero behind
(`defrag_moves_states_unasked`).
-/

namespace PxqLlama.Kv

/-! ### Requests -/

theorem asked_self (reqs : List (Int × Int)) (s : Int) : Asked reqs s s := by
  induction reqs with
  | nil => rfl
  | cons req reqs ih => exact Or.inl ih

/-- What an edit leaves of the sources: each cell keeps its own or becomes its own source. -/
structure KeepsSource (c c' : KvCache) : Prop where
  size : c'.size = c.size
  recurrent : c'.recurrent = c.recurrent
  qnextSlots : c'.qnextSlots = c.qnextSlots
  doCopy : c'.doCopy = c.doCopy
  src : ∀ i < c.size, (c'.cells i).src = (c.cells i).src ∨ (c'.cells i).src = i

theorem KeepsSource.refl (c : KvCache) : KeepsSource c c :=
  ⟨rfl, rfl, rfl, rfl, fun _ _ => Or.inl rfl⟩

theorem KeepsSource.trans {c c' c'' : KvCache} (h : KeepsSource c c') (h' : KeepsSource c' c'') :
    KeepsSource c c'' where
  size := h'.size.trans h.size
  recurrent := h'.recurrent.trans h.recurrent
  qnextSlots := h'.qnextSlots.trans h.qnextSlots
  doCopy := h'.doCopy.trans h.doCopy
  src := by
    intro i hi
    rcases h'.src i (by rw [h.size]; exact hi) with hkeep | hown
    · rw [hkeep]
      exact h.src i hi
    · exact Or.inr hown

/-- The invariant of a hybrid cache, with the requests that are pending. -/
structure Tracked (c : KvCache) (reqs : List (Int × Int)) : Prop where
  recurrent : c.recurrent = false
  slots_pos : 0 < c.qnextSlots
  slots_le : c.qnextSlots ≤ c.size
  pending : c.doCopy = false → reqs = []
  row : ∀ s < c.qnextSlots, 0 ≤ (c.cells s).src ∧ (c.cells s).src < c.qnextSlots ∧
    Asked reqs (c.cells s).src s
  cell : ∀ i, c.qnextSlots ≤ i → i < c.size → (c.cells i).src = i

section
variable {c c' : KvCache} {reqs : List (Int × Int)}

/-- A call that keeps the sources keeps the pending copies as requested. -/
theorem Tracked.keeps (h : Tracked c reqs) (hkeeps : KeepsSource c c') : Tracked c' reqs where
  recurrent := hkeeps.recurrent.trans h.recurrent
  slots_pos := by rw [hkeeps.qnextSlots]; exact h.slots_pos
  slots_le := by rw [hkeeps.qnextSlots, hkeeps.size]; exact h.slots_le
  pending := fun hno => h.pending (hkeeps.doCopy.symm.trans hno)
  row := by
    intro s hs
    rw [hkeeps.qnextSlots] at hs ⊢
    rcases hkeeps.src s (Nat.lt_of_lt_of_le hs h.slots_le) with hsame | hown
    · rw [hsame]
      exact h.row s hs
    · rw [hown]
      exact ⟨by omega, by omega, asked_self reqs s⟩
  cell := by
    intro i hi hlt
    rw [hkeeps.qnextSlots] at hi
    rw [hkeeps.size] at hlt
    rcases hkeeps.src i hlt with hsame | hown
    · rw [hsame]
      exact h.cell i hi hlt
    · exact hown

/-- With no request pending every cell is its own source. -/
theorem Tracked.own_source (h : Tracked c []) {i : Nat} (hi : i < c.size) :
    (c.cells i).src = i := by
  by_cases hrow : i < c.qnextSlots
  · exact (h.row i hrow).2.2
  · exact h.cell i (by omega) hi

end

/-! ### The edits -/

section
variable {c : KvCache}

theorem keepsSource_of_sweep {body : Nat → KvCell → CellStep} {c' : KvCache}
    (hsize : c'.size = c.size) (hrec : c'.recurrent = c.recurrent)
    (hslots : c'.qnextSlots = c.qnextSlots) (hcopy : c'.doCopy = c.doCopy)
    (hcells : c'.cells = (sweep c body).cells)
    (hbody : ∀ i cell, (body i cell).cell.src = cell.src ∨ (body i cell).cell.src = i) :
    KeepsSource c c' := by
  refine ⟨hsize, hrec, hslots, hcopy, fun i hi => ?_⟩
  rw [hcells, sweep_cells, if_pos hi]
  exact hbody i (c.cells i)

theorem CellRemoved.src {i : Nat} {cell : KvCell} {step : CellStep} (h : CellRemoved i cell step) :
    step.cell.src = cell.src ∨ step.cell.src = i := by
  cases h with
  | kept _ _ _ _ hsrc => exact Or.inl hsrc
  | freed _ _ _ hsrc => exact hsrc

theorem seqAddCell_src (s p0 p1 delta : Int) (i : Nat) (cell : KvCell) :
    (seqAddCell s p0 p1 delta i cell).cell.src = cell.src := by
  rw [seqAddCell]
  split
  · simp only
    split <;> rfl
  · rfl

theorem seqDivCell_src (s p0 p1 d : Int) (i : Nat) (cell : KvCell) :
    (seqDivCell s p0 p1 d i cell).cell.src = cell.src := by
  rw [seqDivCell]
  split <;> rfl

theorem seqCpCell_src (src dst p0 p1 : Int) (i : Nat) (cell : KvCell) :
    (seqCpCell src dst p0 p1 i cell).cell.src = cell.src := by
  simp only [seqCpCell, CellStep.cell]
  split <;> rfl

variable (hrec : c.recurrent = false)

include hrec in
theorem keepsSource_seqRm (s p0 p1 : Int) : KeepsSource c (llamaKvCacheSeqRm c s p0 p1).2 := by
  rw [llamaKvCacheSeqRm, if_neg (by simp [seqRmRefused, hrec])]
  exact keepsSource_of_sweep rfl rfl rfl rfl rfl fun i cell => (seqRmCell_removed _ _ _ _ i cell).src

theorem keepsSource_seqKeep (s : Int) : KeepsSource c (llamaKvCacheSeqKeep c s) :=
  keepsSource_of_sweep rfl rfl rfl rfl rfl fun i cell => (seqKeepCell_removed _ _ i cell).src

include hrec in
theorem keepsSource_seqAdd (s p0 p1 delta : Int) :
    KeepsSource c (llamaKvCacheSeqAdd c s p0 p1 delta) := by
  simp only [llamaKvCacheSeqAdd]
  split
  · exact KeepsSource.refl c
  · rw [if_neg (by simp [hrec])]
    exact keepsSource_of_sweep rfl rfl rfl rfl rfl fun i cell =>
      Or.inl (seqAddCell_src _ _ _ _ i cell)

include hrec in
theorem keepsSource_seqDiv (s p0 p1 d : Int) :
    KeepsSource c (llamaKvCacheSeqDiv c s p0 p1 d) := by
  simp only [llamaKvCacheSeqDiv]
  split
  · exact KeepsSource.refl c
  · rw [if_neg (by simp [hrec])]
    exact keepsSource_of_sweep rfl rfl rfl rfl rfl fun i cell =>
      Or.inl (seqDivCell_src _ _ _ _ i cell)

theorem keepsSource_clear : KeepsSource c (llamaKvCacheClear c) := by
  refine ⟨rfl, rfl, rfl, rfl, fun i hi => ?_⟩
  right
  simp only [llamaKvCacheClear, if_pos hi]

theorem placeTokens_src (cells : Nat → KvCell) (head : Nat) (b : UBatch) (i : Nat) :
    (placeTokens cells head b i).src = (cells i).src := by
  rw [placeTokens]
  split
  · split <;> rfl
  · rfl

include hrec in
theorem keepsSource_findSlot (b : UBatch) : KeepsSource c (llamaKvCacheFindSlot c b).2 := by
  rw [llamaKvCacheFindSlot, if_neg (by simp [hrec])]
  split
  · exact KeepsSource.refl c
  · simp only
    split
    · exact ⟨rfl, rfl, rfl, rfl, fun i _ => Or.inl (placeTokens_src _ _ _ i)⟩
    · exact ⟨rfl, rfl, rfl, rfl, fun _ _ => Or.inl rfl⟩

theorem keepsSource_rewindHead (n : Nat) : KeepsSource c (rewindHead c n) := by
  rw [rewindHead]
  split <;> exact ⟨rfl, rfl, rfl, rfl, fun _ _ => Or.inl rfl⟩

theorem keepsSource_setSelfN (pad : Nat) : KeepsSource c (setSelfN c pad) := by
  rw [setSelfN]
  split <;> exact ⟨rfl, rfl, rfl, rfl, fun _ _ => Or.inl rfl⟩

theorem keepsSource_clearShift : KeepsSource c (clearShift c) := by
  refine ⟨rfl, rfl, rfl, rfl, fun i hi => ?_⟩
  left
  simp only [clearShift, if_pos hi]

end

variable {reqs : List (Int × Int)}

/-- A copy of a sequence does not abort, and its request is pending from then on. -/
theorem Tracked.seqCp {c : KvCache} (h : Tracked c reqs) {src dst : Int} (hne : src ≠ dst)
    (p0 p1 : Int) :
    ∃ c', llamaKvCacheSeqCp c src dst p0 p1 = some c' ∧
      Tracked c' (if copiesState c src dst then (src, dst) :: reqs else reqs) := by
  have hcopies : copiesState c src dst = true ↔ c.hasQnextState ∧ c.qnextSeqIdInRange dst ∧
      c.qnextSeqIdInRange src ∧ c.seqIdFits dst ∧ c.seqIdFits src := by
    simp [copiesState, hne, KvCache.hasQnextState, h.slots_pos, and_assoc]
  rw [llamaKvCacheSeqCp, if_neg (by simp [h.recurrent])]
  by_cases hcp : copiesState c src dst = true
  · have hin := hcopies.mp hcp
    rw [seqCpQnext, if_pos hin, if_pos hcp]
    simp only [KvCache.qnextSeqIdInRange, decide_eq_true_eq] at hin
    obtain ⟨-, ⟨-, hdst0, hdst⟩, ⟨-, hsrc0, hsrc⟩, -, -⟩ := hin
    -- the source of the source is a row
    obtain ⟨hge, hlt, hasked⟩ := h.row src.toNat (by omega)
    have hle := h.slots_le
    rw [if_pos (by simp only [KvCache.seqIdFits, decide_eq_true_eq]; omega)]
    refine ⟨_, rfl, ?_⟩
    have hsource : ∀ i, i < c.size →
        ((sweep { c with
            cells := Function.update (Function.update c.cells dst.toNat
                { c.cells dst.toNat with src := (c.cells src.toNat).src }) dst.toNat
              { (Function.update c.cells dst.toNat
                  { c.cells dst.toNat with src := (c.cells src.toNat).src }) dst.toNat with
                pos := ((Function.update c.cells dst.toNat
                  { c.cells dst.toNat with src := (c.cells src.toNat).src })
                  (c.cells src.toNat).src.toNat).pos }
            doCopy := true }
          (seqCpCell (c.cells src.toNat).src dst (rangeFrom p0) (rangeTo p1))).cells i).src
          = if i = dst.toNat then (c.cells src.toNat).src else (c.cells i).src := by
      intro i hi
      rw [sweep_cells, if_pos hi, seqCpCell_src]
      by_cases hd : i = dst.toNat
      · rw [if_pos hd, hd]
        simp
      · rw [if_neg hd]
        simp [hd]
    refine ⟨h.recurrent, h.slots_pos, h.slots_le, fun hno => Bool.noConfusion hno, ?_, ?_⟩
    · intro s hs
      simp only at hs ⊢
      rw [hsource s (by omega)]
      by_cases hd : s = dst.toNat
      · rw [if_pos hd]
        refine ⟨hge, hlt, Or.inr ⟨?_, ?_⟩⟩
        · rw [hd]
          exact (Int.toNat_of_nonneg hdst0).symm
        · rw [Int.toNat_of_nonneg hsrc0] at hasked
          exact hasked
      · rw [if_neg hd]
        obtain ⟨hge', hlt', hasked'⟩ := h.row s hs
        exact ⟨hge', hlt', Or.inl hasked'⟩
    · intro i hi hlt'
      simp only at hi hlt' ⊢
      rw [hsource i hlt', if_neg (by omega)]
      exact h.cell i hi hlt'
  · rw [seqCpQnext, if_neg (fun hin => hcp (hcopies.mpr hin)), if_neg hcp]
    exact ⟨_, rfl, h.keeps (keepsSource_of_sweep rfl rfl rfl rfl rfl fun i cell =>
      Or.inl (seqCpCell_src _ _ _ _ i cell))⟩

/-! ### The update -/

/-- Without a hole below `used` the loop moves nothing. -/
theorem defragLoop_full {nKv nUsed maxMoves fuel k : Nat} (st : DefragState) {st' : DefragState}
    (hfull : ∀ i < nUsed, (st.cells i).isEmpty = false)
    (h : defragLoop nKv nUsed maxMoves fuel k st = some st') :
    st'.cells = st.cells ∧ st'.head = st.head := by
  induction fuel generalizing k st with
  | zero =>
    cases h
    exact ⟨rfl, rfl⟩
  | succ fuel ih =>
    rw [defragLoop] at h
    split at h
    · cases h
      exact ⟨rfl, rfl⟩
    · rename_i hk
      rw [if_pos (hfull k (by omega))] at h
      exact ih { st with ids := Function.update st.ids k k } hfull h

theorem keepsSource_defrag {c c' : KvCache} {maxMoves : Nat} {ids : Nat → Nat}
    (hfull : ∀ i < c.used, (c.cells i).isEmpty = false)
    (h : llamaKvCacheDefragInternal c maxMoves = some (c', ids)) : KeepsSource c c' := by
  rw [llamaKvCacheDefragInternal_eq, Option.map_eq_some_iff] at h
  obtain ⟨st, hvars, heq⟩ := h
  cases heq
  rw [defragVars] at hvars
  split at hvars
  · cases hvars
  · have hcells := (defragLoop_full _ hfull hvars).1
    exact ⟨rfl, rfl, rfl, rfl, fun i _ => Or.inl (by rw [hcells])⟩

/-- The K-shift changes no source. -/
theorem updateShift_kvSelf {ctx ctx' : KvContext} (h : updateShift ctx = some ctx') :
    ctx'.swaKvActive = ctx.swaKvActive ∧ ctx'.maxMoves = ctx.maxMoves ∧
      (ctx'.kvSelf = ctx.kvSelf ∨ ctx'.kvSelf = clearShift ctx.kvSelf) := by
  rcases updateShift_cases h with rfl | rfl
  · exact ⟨rfl, rfl, Or.inl rfl⟩
  · exact ⟨rfl, rfl, Or.inr rfl⟩

theorem clearShift_isEmpty (c : KvCache) (i : Nat) :
    ((clearShift c).cells i).isEmpty = (c.cells i).isEmpty := by
  simp only [clearShift]
  split <;> rfl

theorem clearCopy_isEmpty (c : KvCache) (i : Nat) :
    ((clearCopy c).cells i).isEmpty = (c.cells i).isEmpty := by
  simp only [clearCopy]
  split <;> rfl

/-- After the state copy no request is pending. -/
theorem Tracked.clearCopy {c : KvCache} (h : Tracked c reqs) : Tracked (clearCopy c) [] := by
  have hsrc : ∀ i < c.size, ((Kv.clearCopy c).cells i).src = i := by
    intro i hi
    simp only [Kv.clearCopy, if_pos hi]
  have hle := h.slots_le
  refine ⟨h.recurrent, h.slots_pos, h.slots_le, fun _ => rfl, ?_, fun i _ hi => hsrc i hi⟩
  intro s hs
  have hs' : s < c.qnextSlots := hs
  rw [hsrc s (by omega)]
  exact ⟨by omega, by exact_mod_cast hs', rfl⟩

/-- An update that moves nothing keeps the invariant. -/
theorem Tracked.update {ctx ctx' : KvContext} {ret : Nat} (h : Tracked ctx.kvSelf reqs)
    (hno : NothingMoves ctx) (hupdate : llamaKvCacheUpdate ctx = some (ret, ctx')) :
    Tracked ctx'.kvSelf (if copyRuns ctx then [] else reqs) ∧
      ctx'.swaKvActive = ctx.swaKvActive := by
  rw [llamaKvCacheUpdate] at hupdate
  cases hshift : updateShift ctx with
  | none =>
    rw [hshift] at hupdate
    cases hupdate
    rw [if_neg (by simp [copyRuns, hshift])]
    exact ⟨h, rfl⟩
  | some ctx₁ =>
    simp only [hshift, Option.map_eq_some_iff] at hupdate
    obtain ⟨ctx₂, hdefrag, heq⟩ := hupdate
    cases heq
    obtain ⟨hactive, -, hself⟩ := updateShift_kvSelf hshift
    have hfull := hno (by rw [hshift]; rfl)
    -- the cache after the shift
    have h₁ : Tracked ctx₁.kvSelf reqs ∧ ctx₁.kvSelf.doCopy = ctx.kvSelf.doCopy ∧
        ctx₁.kvSelf.qnextSlots = ctx.kvSelf.qnextSlots ∧
        ctx₁.kvSelf.doDefrag = ctx.kvSelf.doDefrag ∧ ctx₁.kvSelf.used = ctx.kvSelf.used ∧
        ∀ i, (ctx₁.kvSelf.cells i).isEmpty = (ctx.kvSelf.cells i).isEmpty := by
      rcases hself with heq | heq
      · rw [heq]
        exact ⟨h, rfl, rfl, rfl, rfl, fun _ => rfl⟩
      · rw [heq]
        exact ⟨h.keeps keepsSource_clearShift, rfl, rfl, rfl, rfl, clearShift_isEmpty _⟩
    obtain ⟨h₁, hcopy₁, hslots₁, hdefrag₁, hused₁, hempty₁⟩ := h₁
    -- the cache after the copy
    have h₂ : Tracked (updateCopy ctx₁).kvSelf (if copyRuns ctx then [] else reqs) ∧
        (updateCopy ctx₁).swaKvActive = ctx.swaKvActive ∧
        (updateCopy ctx₁).kvSelf.doDefrag = ctx.kvSelf.doDefrag ∧
        (updateCopy ctx₁).kvSelf.used = ctx.kvSelf.used ∧
        ∀ i, ((updateCopy ctx₁).kvSelf.cells i).isEmpty = (ctx.kvSelf.cells i).isEmpty := by
      have hrows : ctx.kvSelf.hasQnextState = true := by
        simp [KvCache.hasQnextState, h.slots_pos]
      have hrows₁ : ctx₁.kvSelf.hasQnextState = true := by
        simp [KvCache.hasQnextState, h₁.slots_pos]
      rw [updateCopy]
      by_cases hcopy : ctx.kvSelf.doCopy = true
      · rw [if_pos ⟨Or.inr hrows₁, hcopy₁.trans hcopy⟩,
          if_pos (by simp [copyRuns, hshift, hrows, hcopy])]
        refine ⟨h₁.clearCopy, hactive, hdefrag₁, hused₁, fun i => ?_⟩
        rw [clearCopy_isEmpty]
        exact hempty₁ i
      · rw [if_neg (fun hc => hcopy (hcopy₁.symm.trans hc.2)),
          if_neg (by simp [copyRuns, hcopy])]
        exact ⟨h₁, hactive, hdefrag₁, hused₁, hempty₁⟩
    obtain ⟨h₂, hactive₂, hdefrag₂, hused₂, hempty₂⟩ := h₂
    rw [updateDefrag] at hdefrag
    split at hdefrag
    · rename_i hdue
      cases hint : llamaKvCacheDefragInternal (updateCopy ctx₁).kvSelf
          (updateCopy ctx₁).maxMoves with
      | none =>
        simp only [hint] at hdefrag
        cases hdefrag
      | some r =>
        simp only [hint] at hdefrag
        cases hdefrag
        have hkeeps : KeepsSource (updateCopy ctx₁).kvSelf r.1 := by
          refine keepsSource_defrag (fun i hi => ?_) hint
          rw [hempty₂]
          exact hfull (hdefrag₂ ▸ hdue) i (hused₂ ▸ hi)
        have hclear : KeepsSource r.1 { r.1 with doDefrag := false } :=
          ⟨rfl, rfl, rfl, rfl, fun _ _ => Or.inl rfl⟩
        exact ⟨h₂.keeps (hkeeps.trans hclear), hactive₂⟩
    · cases hdefrag
      exact ⟨h₂, hactive₂⟩

/-! ### Runs -/

/-- The placement of an ubatch keeps or resets the sources. -/
theorem keepsSource_placeUbatch {ctx : KvContext} (hrec : ctx.kvSelf.recurrent = false)
    (b : UBatch) : KeepsSource ctx.kvSelf (placeUbatch ctx b).2.kvSelf ∧
      (placeUbatch ctx b).2.swaKvActive = ctx.swaKvActive := by
  have hrewind : KeepsSource ctx.kvSelf (rewindHead ctx.kvSelf b.length) :=
    keepsSource_rewindHead b.length
  have hslot := hrewind.trans (keepsSource_findSlot (hrewind.recurrent.trans hrec) b)
  simp only [placeUbatch]
  split
  · exact ⟨hrewind, rfl⟩
  · split
    · exact ⟨hslot, rfl⟩
    · exact ⟨hslot.trans (keepsSource_setSelfN _), rfl⟩

/-- The invariant of a hybrid state. -/
structure HybridOk (st : HybridState) : Prop where
  swa : st.ctx.swaKvActive = false
  tracked : Tracked st.ctx.kvSelf st.reqs

variable {st : HybridState}

theorem hybridOk_fresh (h : HybridFresh st) : HybridOk st := by
  obtain ⟨slots, size, hpos, hle, hcache⟩ := h.cache
  have hsrc : ∀ i < size, ((llamaKvCacheInit false true slots size).cells i).src = i := by
    intro i hi
    simp only [llamaKvCacheInit, hi, or_true, and_true, if_true]
  refine ⟨h.swa, ?_⟩
  rw [hcache, h.reqs]
  refine ⟨rfl, hpos, hle, fun _ => rfl, fun s hs => ?_, fun i _ hi => hsrc i hi⟩
  have hs' : s < slots := hs
  rw [hsrc s (by omega)]
  exact ⟨by omega, by exact_mod_cast hs', rfl⟩

/-- A call that moves nothing keeps the invariant. -/
theorem hybridStep_ok {st' : HybridState} {op : HybridOp} (h : HybridOk st)
    (hno : op.MovesNothing st) (hstep : hybridStep st op = some st') : HybridOk st' := by
  obtain ⟨hswa, htracked⟩ := h
  have hrec := htracked.recurrent
  cases op with
  | findSlot b =>
    cases hstep
    exact ⟨hswa, htracked.keeps (keepsSource_findSlot hrec b)⟩
  | call op =>
    simp only [hybridStep, Option.map_eq_some_iff] at hstep
    obtain ⟨ctx, hstep, rfl⟩ := hstep
    cases op with
    | decode b =>
      simp only [kvStep, Option.map_eq_some_iff] at hstep
      obtain ⟨⟨ret, ctx₂⟩, hdecode, rfl⟩ := hstep
      obtain ⟨ctx₁, head, hinputs, rfl⟩ := decodeUbatch_cases hdecode
      have hhead : KeepsSource ctx₁.kvSelf { ctx₁.kvSelf with head := head } :=
        ⟨rfl, rfl, rfl, rfl, fun _ _ => Or.inl rfl⟩
      rcases decodeInputs_cases hinputs with ⟨-, hupdate⟩ | ⟨ctx₀, hupdate, hplace⟩
      · obtain ⟨h₁, hactive⟩ := htracked.update hno hupdate
        exact ⟨hactive.trans hswa, h₁.keeps hhead⟩
      · obtain ⟨h₁, hactive⟩ := htracked.update hno hupdate
        obtain ⟨hkeeps, hactive'⟩ := keepsSource_placeUbatch h₁.recurrent b
        rw [hplace] at hkeeps hactive'
        exact ⟨hactive'.trans (hactive.trans hswa), h₁.keeps (hkeeps.trans hhead)⟩
    | seqRm s p0 p1 =>
      cases hstep
      simp only [kvSeqRm_inactive hswa]
      exact ⟨hswa, htracked.keeps (keepsSource_seqRm hrec s p0 p1)⟩
    | seqCp src dst p0 p1 =>
      simp only [kvStep, kvSeqCp] at hstep
      split at hstep
      · rename_i heq
        cases hstep
        refine ⟨hswa, ?_⟩
        simp only [requestsAfter, copiesState, heq, ne_eq, not_true_eq_false, decide_false,
          Bool.false_and]
        exact htracked
      · rename_i hne
        obtain ⟨c', hcp, htracked'⟩ := htracked.seqCp hne p0 p1
        simp only [hcp, hswa] at hstep
        cases hstep
        exact ⟨rfl, htracked'⟩
    | seqKeep s =>
      cases hstep
      exact ⟨hswa, htracked.keeps (keepsSource_seqKeep s)⟩
    | seqAdd s p0 p1 delta =>
      cases hstep
      simp only [kvSeqAdd]
      split
      · exact ⟨hswa, htracked⟩
      · exact ⟨hswa, htracked.keeps (keepsSource_seqAdd hrec s p0 p1 delta)⟩
    | seqDiv s p0 p1 d =>
      cases hstep
      simp only [kvSeqDiv]
      split
      · exact ⟨hswa, htracked⟩
      · exact ⟨hswa, htracked.keeps (keepsSource_seqDiv hrec s p0 p1 d)⟩
    | clear =>
      cases hstep
      exact ⟨hswa, htracked.keeps keepsSource_clear⟩
    | defrag =>
      cases hstep
      exact ⟨hswa, htracked.keeps ⟨rfl, rfl, rfl, rfl, fun _ _ => Or.inl rfl⟩⟩
    | update =>
      simp only [kvStep, Option.map_eq_some_iff] at hstep
      obtain ⟨⟨ret, ctx₂⟩, hupdate, rfl⟩ := hstep
      obtain ⟨h₁, hactive⟩ := htracked.update hno hupdate
      exact ⟨hactive.trans hswa, h₁⟩

theorem hybridRun_ok {st' : HybridState} {ops : List HybridOp} (h : HybridOk st)
    (hno : NothingMovesIn st ops) (hrun : hybridRun st ops = some st') : HybridOk st' := by
  induction ops generalizing st with
  | nil =>
    cases hrun
    exact h
  | cons op ops ih =>
    simp only [hybridRun, Option.bind_eq_some_iff] at hrun
    obtain ⟨st₁, hstep, hrest⟩ := hrun
    exact ih (hybridStep_ok h hno.1 hstep) (hno.2 st₁ hstep) hrest

theorem HybridOk.movesOnRequest (h : HybridOk st) : MovesOnRequest st where
  rows := fun _ s hs => h.tracked.row s hs
  idle := by
    intro hidle i hi
    have htracked := h.tracked
    rw [hidle] at htracked
    exact htracked.own_source hi

/-- In a run of a hybrid model in which no defragmentation finds a hole, the recurrent states
move on request only, and every row that the state copy reads is one. -/
theorem states_move_on_request {st st' : HybridState} {ops : List HybridOp} (h : HybridFresh st)
    (hno : NothingMovesIn st ops) (hrun : hybridRun st ops = some st') : MovesOnRequest st' :=
  (hybridRun_ok (hybridOk_fresh h) hno hrun).movesOnRequest

/-- A fresh context of a hybrid model with two sequences. -/
def hybridContext : KvContext where
  kvSelf := llamaKvCacheInit false true 2 32
  kvSwa := { size := 0, cells := fun _ => {} }
  swaKvActive := false
  nSwa := 0
  swaKvGuard := 0
  flashAttn := false
  rope := true
  canShift := true
  maxMoves := 100

theorem hybridContext_fresh : HybridFresh ⟨hybridContext, []⟩ :=
  ⟨rfl, ⟨2, 32, by decide, by decide, rfl⟩, rfl⟩

/-- Two tokens, of which the first is removed: `seq_rm` leaves a hole at cell zero. -/
def hybridHole : List HybridOp :=
  [.call (.decode [⟨0, [0]⟩, ⟨1, [0]⟩]), .call (.seqRm 0 0 1)]

/-- A copy of the state is served where no defragmentation is due. -/
theorem states_move_on_request_copy :
    ∃ st', hybridRun ⟨hybridContext, []⟩ (hybridHole ++ [.call (.seqCp 0 1 (-1) (-1))]) = some st' ∧
      MovesOnRequest st' := by
  have hsome : (hybridRun ⟨hybridContext, []⟩
      (hybridHole ++ [.call (.seqCp 0 1 (-1) (-1))])).isSome := by decide +kernel
  have hno : NothingMovesIn ⟨hybridContext, []⟩
      (hybridHole ++ [.call (.seqCp 0 1 (-1) (-1))]) :=
    ⟨fun _ h => Bool.noConfusion h, fun _ _ => ⟨trivial, fun _ _ => ⟨trivial, fun _ _ => trivial⟩⟩⟩
  obtain ⟨st', hrun⟩ := Option.isSome_iff_exists.mp hsome
  exact ⟨st', hrun, states_move_on_request hybridContext_fresh hno hrun⟩

/-- A defragmentation into the hole takes the source of cell one to cell zero: with the next
copy of a sequence, row zero takes over row one. -/
theorem defrag_moves_states_unasked :
    ¬ ∀ (st st' : HybridState) (ops : List HybridOp), HybridFresh st →
      hybridRun st ops = some st' → MovesOnRequest st' := by
  intro h
  have hfinal : (hybridRun ⟨hybridContext, []⟩
      (hybridHole ++ [.call .defrag, .call .update, .call (.seqCp 0 1 (-1) (-1))])).map
      (fun st =>
        (copyRuns st.ctx, st.ctx.kvSelf.qnextSlots, llamaSetSCopy st.ctx.kvSelf 0, st.reqs))
      = some (true, 2, 1, [(0, 1)]) := by decide +kernel
  obtain ⟨st', hrun, heq⟩ := Option.map_eq_some_iff.mp hfinal
  simp only [Prod.mk.injEq] at heq
  obtain ⟨hcopy, hslots, hsrc, hreqs⟩ := heq
  have hasked := ((h _ _ _ hybridContext_fresh hrun).rows hcopy 0 (by omega)).2.2
  rw [hsrc, hreqs] at hasked
  exact absurd hasked (by decide)

end PxqLlama.Kv
