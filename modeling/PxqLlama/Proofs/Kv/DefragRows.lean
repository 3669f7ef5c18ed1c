import PxqLlama.Proofs.Kv.DefragCopies

/-!
# `Proofs.Kv.DefragRows`: when a defragmentation is a faithful move

The metadata loops are right for every cache with accurate accounts (`defrag_metadata`). The
copies of the rows are right when every layer is laid out as `build_defrag` thinks
(`KvLayer.Agrees`), or when no cell moves. Two layouts differ. The rows of K may have headers,
or be narrower than `n_embd_k_gqa`, as the compressed latent of MLA is. And V is only
transposed when `v_trans` is set, but `build_defrag` looks at `flash_attn`: the V rows of a
hybrid model without flash attention are copied as columns.

`defrag_faithful_iff` is both directions.
-/

namespace PxqLlama.Kv

open BlockCopy Tally

/-- Where a cell is after the moves. -/
def DefragState.newIndex (st : DefragState) (nKv i : Nat) : Nat :=
  if i < nKv ∧ st.ids i ≠ nKv then st.ids i else i

/-- Every row of a cell with a position is at the new index of the cell. -/
structure RowsKept (cfg : KvLayout) (c : KvCache) (st : DefragState) (m m' : KvData) : Prop where
  k : ∀ il l, cfg.layers[il]? = some l → ∀ i < c.size, 0 ≤ (c.cells i).pos → ∀ b < l.kStride,
    m' (.k il) (l.kAddr (st.newIndex (llamaKvCacheCellMax c) i) b) = m (.k il) (l.kAddr i b)
  v : ∀ il l vt, cfg.layers[il]? = some l → l.v = some vt → ∀ i < c.size,
    0 ≤ (c.cells i).pos → ∀ b < vt.rowBytes,
    m' (.v il) (vt.addr cfg.vTrans c.size (st.newIndex (llamaKvCacheCellMax c) i) b)
      = m (.v il) (vt.addr cfg.vTrans c.size i b)

/-- What the metadata loops do to the cells. -/
structure CellsMoved (c : KvCache) (maxMoves : Nat) (st : DefragState) : Prop where
  /-- The live cells are the same ones. -/
  live : (values KvCell.HasPos st.cells 0 c.size).map (fun cell => (cell.pos, cell.seqId))
    = (values KvCell.HasPos c.cells 0 c.size).map fun cell => (cell.pos, cell.seqId)
  /-- A live cell is at its new index. -/
  cell : ∀ i < c.size, 0 ≤ (c.cells i).pos →
    st.cells (st.newIndex (llamaKvCacheCellMax c) i) = c.cells i
  inj : ∀ i j, st.Moves (llamaKvCacheCellMax c) i → st.Moves (llamaKvCacheCellMax c) j →
    st.ids i = st.ids j → i = j
  /-- A move fills a cell that was empty. -/
  empty : ∀ i, st.Moves (llamaKvCacheCellMax c) i →
    st.ids i < c.size ∧ (c.cells (st.ids i)).seqId = ∅
  /-- With moves to spare, the live cells are the first ones. -/
  packed : st.nMoves < maxMoves → ∀ i < c.size, 0 ≤ (st.cells i).pos ↔ i < c.used

/-- The loops end without an assertion, they move the cells, and the copies move the rows with
them, whatever the rows are. -/
def DefragFaithful (cfg : KvLayout) (c : KvCache) (maxMoves : Nat) : Prop :=
  ∃ st, defragVars c maxMoves = some st ∧ CellsMoved c maxMoves st ∧
    ∀ m, ∃ m', defragData cfg c st m = some m' ∧ RowsKept cfg c st m m'

/-- The rows of the layer lie where `build_defrag` looks for them. -/
def KvLayer.Agrees (cfg : KvLayout) (l : KvLayer) : Prop :=
  (l.kType.rowMetaSize = 0 ∧ l.kRows * l.kNe0 = l.nEmbdKGqa) ∧
    ∀ vt ∈ l.v, vt.nEmbd = l.nEmbdVGqa ∧
      if cfg.flashAttn then vt.type.rowMetaSize = 0
      else cfg.vTrans = true ∨ l.nEmbdVGqa = 1

/-! ### The cells -/

variable {i : Nat} {t : GgmlType}

section
variable {c : KvCache} {k maxMoves : Nat} {st : DefragState}

theorem Filled.newIndex_of_moves {nKv : Nat} (hi : st.Moves nKv i) : st.newIndex nKv i = st.ids i :=
  if_pos ⟨hi.1, hi.2.1⟩

theorem Filled.newIndex_of_not_moves {nKv : Nat} (hi : ¬ st.Moves nKv i) :
    st.newIndex nKv i = i := by
  rw [DefragState.newIndex]
  split
  · rename_i h
    by_contra hne
    exact hi ⟨h.1, h.2, hne⟩
  · rfl

variable (hc : Accounted c) (hst : Filled c (llamaKvCacheCellMax c) k st)
include hc

theorem Accounted.used_le_cellMax : c.used ≤ llamaKvCacheCellMax c := by
  have hle : tally KvCell.HasSeq c.cells 0 (llamaKvCacheCellMax c)
      ≤ llamaKvCacheCellMax c - 0 := tally_le
  rw [hc.tally_hasSeq] at hle
  omega

include hst

/-- A cell with a position is not one that a move fills. -/
theorem Filled.not_dst (hi : i < c.size) (hpos : 0 ≤ (c.cells i).pos) {y : Nat}
    (hy : st.Moves (llamaKvCacheCellMax c) y) : st.ids y ≠ i := by
  rintro rfl
  exact (hst.moved y hy).2.2.2.1 ((hc.sound _ hi).hasPos_iff.mp hpos)

/-- When all holes are filled, or the moves used up, the cells are where the ids say. -/
theorem Filled.cellsMoved (hend : k = c.used ∨ st.nMoves = maxMoves) :
    CellsMoved c maxMoves st := by
  have hle : llamaKvCacheCellMax c ≤ c.size := cellMaxLoop_le c.cells c.size
  have hused := hc.used_le_cellMax
  exact {
    live := by rw [hst.values_hasPos hc]
    cell := by
      intro i hi hpos
      by_cases hmoves : st.Moves (llamaKvCacheCellMax c) i
      · rw [Filled.newIndex_of_moves hmoves]
        exact (hst.moved i hmoves).2.2.2.2
      · rw [Filled.newIndex_of_not_moves hmoves]
        exact hst.same i hmoves fun y hy => hst.not_dst hc hi hpos hy
    inj := hst.inj
    empty := by
      intro i hi
      have hlt := hst.dst_lt hi
      have hfree := (hst.moved i hi).2.2.2.1
      refine ⟨by omega, ?_⟩
      rw [KvCell.hasSeq_iff, Finset.not_nonempty_iff_eq_empty] at hfree
      exact hfree
    packed := by
      intro hspare i hi
      have hfull : k = c.used := hend.resolve_right (by omega)
      have hsound := (hst.sound hc i hi).hasPos_iff
      constructor
      · intro hpos
        -- below `used` there are `used` cells with a sequence, so there is none above
        by_contra hge
        have hbelow : tally KvCell.HasSeq st.cells 0 c.used = c.used - 0 :=
          tally_eq_length fun j _ hj => hst.below j (by omega)
        have htotal : tally KvCell.HasPos st.cells 0 c.size = c.used := by
          rw [← card_values, hst.values_hasPos hc, card_values]
          exact hc.used.symm
        rw [tally_congr (q := KvCell.HasSeq) fun j _ hj => (hst.sound hc j hj).hasPos_iff,
          ← tally_add (Nat.zero_le c.used) (by omega), hbelow] at htotal
        exact of_tally_eq_zero (by omega) (by omega : c.used ≤ i) hi (hsound.mp hpos)
      · intro hlt
        exact hsound.mpr (hst.below i (by omega)) }

omit hc in
/-- Some cell moves, unless there is no hole. -/
theorem Filled.exists_moves (hmoves : 0 < maxMoves) (hend : k = c.used ∨ st.nMoves = maxMoves)
    (hhole : ¬ ∀ i < c.used, (c.cells i).seqId.Nonempty) :
    ∃ y, st.Moves (llamaKvCacheCellMax c) y := by
  by_contra hnone
  have hzero : ¬ 0 < st.nMoves := fun h => hnone (hst.nMoves.mp h)
  have hfull : k = c.used := hend.resolve_right (by omega)
  apply hhole
  intro i hi
  have hseq := hst.below i (by omega)
  rw [hst.same i (fun h => hnone ⟨i, h⟩) fun y hy => absurd ⟨y, hy⟩ hnone] at hseq
  exact KvCell.hasSeq_iff.mp hseq

omit hc in
/-- Without a hole no cell moves. -/
theorem Filled.not_exists_moves (hhole : ∀ i < c.used, (c.cells i).seqId.Nonempty) :
    ¬ ∃ y, st.Moves (llamaKvCacheCellMax c) y := by
  rintro ⟨y, hy⟩
  have hlt := (hst.dst_lt hy).1
  exact (hst.moved y hy).2.2.2.1 (KvCell.hasSeq_iff.mpr (hhole _ hlt))

end

/-- The metadata part of a defragmentation is right for every cache with accurate accounts. -/
theorem defrag_metadata {c : KvCache} (hc : Accounted c) {maxMoves : Nat}
    (hmoves : 1 ≤ maxMoves) :
    ∃ st k, defragVars c maxMoves = some st ∧ CellsMoved c maxMoves st ∧
      Filled c (llamaKvCacheCellMax c) k st ∧ (k = c.used ∨ st.nMoves = maxMoves) := by
  obtain ⟨st, k, hvars, hst, -, hend⟩ := defragVars_filled hc hmoves
  exact ⟨st, k, hvars, hst.cellsMoved hc hend, hst, hend⟩

/-! ### Widths -/

theorem GgmlType.blockBytes_blckSize (t : GgmlType) : t.blockBytes t.blckSize = t.typeSize :=
  Nat.mul_div_cancel _ t.blckSize_pos

theorem GgmlType.blockBytes_pos {ne : Nat} (h : t.blckSize ∣ ne) (hne : 0 < ne) :
    0 < t.blockBytes ne := by
  obtain ⟨q, rfl⟩ := h
  rw [blockBytes_mul (Nat.dvd_refl _), blockBytes_blckSize]
  exact Nat.mul_pos t.typeSize_pos (Nat.pos_of_mul_pos_left hne)

theorem GgmlType.blockBytes_inj {ne ne' : Nat} (h : t.blckSize ∣ ne) (h' : t.blckSize ∣ ne')
    (heq : t.blockBytes ne = t.blockBytes ne') : ne = ne' := by
  obtain ⟨q, rfl⟩ := h
  obtain ⟨q', rfl⟩ := h'
  rw [blockBytes_mul (Nat.dvd_refl _), blockBytes_mul (Nat.dvd_refl _), blockBytes_blckSize]
    at heq
  rw [Nat.eq_of_mul_eq_mul_left t.typeSize_pos heq]

/-- A row with its header is at most as wide as the blocks of another one, or is wider than
these by a header at least. -/
theorem GgmlType.rowSize_gap {ne width : Nat} (h : t.blckSize ∣ ne) (h' : t.blckSize ∣ width) :
    ggmlRowSize t ne ≤ t.blockBytes width ∨
      t.rowMetaSize + t.blockBytes width ≤ ggmlRowSize t ne := by
  obtain ⟨q, rfl⟩ := h
  obtain ⟨q', rfl⟩ := h'
  have hmeta := t.rowMetaSize_le
  rw [ggmlRowSize, blockBytes_mul (Nat.dvd_refl _), blockBytes_mul (Nat.dvd_refl _),
    blockBytes_blckSize]
  by_cases hle : q' ≤ q
  · have := Nat.mul_le_mul_left t.typeSize hle
    omega
  · have := Nat.mul_le_mul_left t.typeSize (by omega : q + 1 ≤ q')
    rw [Nat.mul_succ] at this
    omega

section
variable {l : KvLayer}

theorem KvLayer.kStride_pos : 0 < l.kStride :=
  Nat.mul_pos l.kRows_pos
    (Nat.lt_add_left _ (GgmlType.blockBytes_pos l.kNe0_dvd l.kNe0_pos))

theorem VTensor.rowBytes_pos (vt : VTensor) : 0 < vt.rowBytes :=
  Nat.lt_add_left _ (GgmlType.blockBytes_pos vt.nEmbd_dvd vt.nEmbd_pos)

theorem KvLayer.kStride_plain (hmeta : l.kType.rowMetaSize = 0) :
    l.kStride = l.kType.blockBytes (l.kRows * l.kNe0) := by
  rw [kStride, ggmlRowSize, hmeta, Nat.zero_add, Nat.mul_comm l.kRows l.kNe0,
    GgmlType.blockBytes_mul l.kNe0_dvd, Nat.mul_comm]

theorem KvLayer.kStride_gap : l.kStride ≤ l.kType.blockBytes l.nEmbdKGqa ∨
    l.kType.rowMetaSize + l.kType.blockBytes l.nEmbdKGqa ≤ l.kStride := by
  rcases l.kRows_eq with hone | hrows
  · rw [kStride, hone, Nat.one_mul]
    exact GgmlType.rowSize_gap l.kNe0_dvd l.nEmbdKGqa_dvd
  · right
    have hpos := l.kRows_pos
    have hmeta : l.kType.rowMetaSize ≤ l.kRows * l.kType.rowMetaSize :=
      Nat.le_mul_of_pos_left _ hpos
    rw [← hrows, Nat.mul_comm l.kRows l.kNe0, GgmlType.blockBytes_mul l.kNe0_dvd, kStride,
      ggmlRowSize, Nat.mul_add, Nat.mul_comm (l.kType.blockBytes l.kNe0)]
    omega

end

/-! ### The rows -/

section
variable {cfg : KvLayout} {c : KvCache} {k : Nat} {st : DefragState} (hc : Accounted c)
  (hst : Filled c (llamaKvCacheCellMax c) k st)
include hc hst

/-- The copies bring every live cell to its new index. -/
theorem Filled.trace_newIndex (hi : i < c.size) (hpos : 0 ≤ (c.cells i).pos) :
    trace (defragBlocks st.ids (llamaKvCacheCellMax c) (llamaKvCacheCellMax c) 0)
      (st.newIndex (llamaKvCacheCellMax c) i) = i := by
  by_cases hmoves : st.Moves (llamaKvCacheCellMax c) i
  · rw [Filled.newIndex_of_moves hmoves]
    exact hst.trace_dst hmoves
  · rw [Filled.newIndex_of_not_moves hmoves]
    exact hst.trace_same fun y hy => hst.not_dst hc hi hpos hy

omit hc in
theorem Filled.newIndex_lt (hi : i < c.size) : st.newIndex (llamaKvCacheCellMax c) i < c.size := by
  by_cases hmoves : st.Moves (llamaKvCacheCellMax c) i
  · have := hst.dst_lt hmoves
    rw [Filled.newIndex_of_moves hmoves]
    omega
  · rw [Filled.newIndex_of_not_moves hmoves]
    exact hi

omit hc in
/-- The copies in a layer that agrees stay in its tensors. -/
theorem Filled.fits_of_agrees (hagrees : ∀ l ∈ cfg.layers, l.Agrees cfg)
    {node : KvTensor × Copy}
    (hnode : node ∈ buildDefrag cfg c.size (llamaKvCacheCellMax c) st.ids) :
    node.2.Fits (cfg.bytes c.size node.1) := by
  have hle : llamaKvCacheCellMax c ≤ c.size := cellMaxLoop_le c.cells c.size
  simp only [buildDefrag, List.mem_flatMap] at hnode
  obtain ⟨b, hb, ⟨l, il⟩, hl, hnode⟩ := hnode
  obtain ⟨hsrc, hdst⟩ := hst.block_fits_size hle b hb
  rw [List.mem_zipIdx_iff_getElem?] at hl
  simp only at hl
  obtain ⟨⟨hkmeta, hkwidth⟩, hv⟩ := hagrees l (List.mem_of_getElem? hl)
  simp only [layerCopies, List.mem_cons] at hnode
  -- a copy of rows without headers stays in a tensor with `size` of them
  have hrows : ∀ (t : GgmlType) (width : Nat), t.rowMetaSize = 0 → t.blckSize ∣ width →
      (rowsCopy t width b).Fits (t.blockBytes width * c.size) := by
    intro t width hmeta hdvd
    have h₁ := Nat.mul_le_mul_left (t.blockBytes width) hsrc
    have h₂ := Nat.mul_le_mul_left (t.blockBytes width) hdst
    rw [Nat.mul_add] at h₁ h₂
    simp only [Copy.Fits, rowsCopy, ggmlRowSize, hmeta, GgmlType.blockBytes_mul hdvd,
      Nat.zero_add, Nat.mul_comm b.len]
    exact ⟨h₁, h₂⟩
  rcases hnode with rfl | hnode
  · have hbytes : cfg.bytes c.size (.k il) = l.kType.blockBytes l.nEmbdKGqa * c.size := by
      simp [KvLayout.bytes, hl, KvLayer.kBytes, KvLayer.kStride_plain hkmeta, hkwidth,
        Nat.mul_comm]
    simp only [hbytes]
    exact hrows _ _ hkmeta l.nEmbdKGqa_dvd
  · cases hvt : l.v with
    | none =>
      rw [hvt] at hnode
      cases hnode
    | some vt =>
      rw [hvt] at hnode
      simp only [List.mem_map] at hnode
      obtain ⟨d, hd, rfl⟩ := hnode
      obtain ⟨hwidth, hlayout⟩ := hv vt hvt
      have hbytes : cfg.bytes c.size (.v il) = vt.bytes c.size := by
        simp [KvLayout.bytes, hl, hvt]
      simp only [hbytes]
      rw [vCopies] at hd
      by_cases hflash : cfg.flashAttn = true
      · rw [if_pos hflash] at hd hlayout
        rw [List.mem_singleton] at hd
        rw [hd, VTensor.bytes, hlayout, Nat.zero_add, hwidth,
          GgmlType.blockBytes_mul (l.nEmbdVGqa_dvd vt hvt)]
        exact hrows _ _ hlayout (l.nEmbdVGqa_dvd vt hvt)
      · rw [if_neg hflash] at hd
        obtain ⟨hblck, hmeta⟩ := cfg.plain_v (by simpa using hflash) l
          (List.mem_of_getElem? hl) vt hvt
        obtain ⟨r, hr, rfl⟩ := List.mem_map.mp hd
        rw [List.mem_range] at hr
        rw [VTensor.bytes_plain hblck hmeta]
        have h₁ := Nat.mul_le_mul_left vt.type.typeSize hsrc
        have h₂ := Nat.mul_le_mul_left vt.type.typeSize hdst
        rw [Nat.mul_add] at h₁ h₂
        have h₃ : (r + 1) * (vt.type.typeSize * c.size) ≤ vt.nEmbd * (vt.type.typeSize * c.size) :=
          Nat.mul_le_mul_right _ (by omega)
        have hbytes' : vt.nEmbd * (vt.type.typeSize * c.size)
            = vt.type.typeSize * vt.nEmbd * c.size := by
          rw [Nat.mul_left_comm, Nat.mul_assoc]
        rw [Nat.succ_mul, hbytes'] at h₃
        simp only [Copy.Fits, columnCopy, ggmlRowSize, hmeta, GgmlType.blockBytes_plain hblck,
          Nat.zero_add]
        exact ⟨by omega, by omega⟩

/-- In layers that agree the copies keep the rows. -/
theorem Filled.rowsKept_of_agrees (hagrees : ∀ l ∈ cfg.layers, l.Agrees cfg) (m : KvData) :
    ∃ m', graphCompute cfg c.size (buildDefrag cfg c.size (llamaKvCacheCellMax c) st.ids) m
      = some m' ∧ RowsKept cfg c st m m' := by
  have hle : llamaKvCacheCellMax c ≤ c.size := cellMaxLoop_le c.cells c.size
  refine ⟨_, if_pos fun node hnode => hst.fits_of_agrees hagrees hnode, ?_⟩
  constructor
  · intro il l hl i hi hpos b hb
    obtain ⟨⟨hmeta, hwidth⟩, -⟩ := hagrees l (List.mem_of_getElem? hl)
    rw [foldl_exec_tensor, copiesOf_buildDefrag_k hl, execAll_eq]
    rw [KvLayer.kStride_plain hmeta, hwidth] at hb
    rw [KvLayer.kAddr, KvLayer.kAddr, KvLayer.kStride_plain hmeta, hwidth,
      hst.trace_rows hle hmeta l.nEmbdKGqa_dvd (hst.newIndex_lt hi) hb,
      hst.trace_newIndex hc hi hpos]
  · intro il l vt hl hvt i hi hpos b hb
    obtain ⟨-, hv⟩ := hagrees l (List.mem_of_getElem? hl)
    obtain ⟨hwidth, hlayout⟩ := hv vt hvt
    rw [foldl_exec_tensor, copiesOf_buildDefrag_v hl hvt, execAll_eq]
    by_cases hflash : cfg.flashAttn = true
    · -- rows, and the tensor is not transposed
      have htrans : cfg.vTrans = false := by simp [KvLayout.vTrans, hflash]
      rw [if_pos hflash] at hlayout
      have hdvd := l.nEmbdVGqa_dvd vt hvt
      have hbytes : vt.rowBytes = vt.type.blockBytes l.nEmbdVGqa := by
        rw [VTensor.rowBytes, ggmlRowSize, hlayout, Nat.zero_add, hwidth]
      have hcopies : vCopies cfg.flashAttn c.size l.nEmbdVGqa vt
          = fun b => [rowsCopy vt.type l.nEmbdVGqa b] := by
        funext b
        rw [vCopies, if_pos hflash]
      rw [hbytes] at hb
      rw [hcopies, ← List.map_eq_flatMap, htrans, VTensor.addr, VTensor.addr,
        if_neg Bool.false_ne_true, if_neg Bool.false_ne_true, hbytes,
        hst.trace_rows hle hlayout hdvd (hst.newIndex_lt hi) hb, hst.trace_newIndex hc hi hpos]
    · rw [if_neg hflash] at hlayout
      obtain ⟨hblck, hmeta⟩ := cfg.plain_v (by simpa using hflash) l
        (List.mem_of_getElem? hl) vt hvt
      have hcopies : vCopies cfg.flashAttn c.size l.nEmbdVGqa vt
          = fun b => (List.range l.nEmbdVGqa).map (columnCopy vt.type c.size b) := by
        funext b
        rw [vCopies, if_neg hflash]
      rw [hcopies, flatMap_columnCopy hblck hmeta, ← hwidth]
      by_cases htrans : cfg.vTrans = true
      · rw [htrans, hst.trace_columns hle hblck hmeta (hst.newIndex_lt hi) hb,
          hst.trace_newIndex hc hi hpos]
      · -- one column is one row
        have hone : vt.nEmbd = 1 := hwidth.trans (hlayout.resolve_left htrans)
        have hbytes : vt.rowBytes = vt.type.typeSize := by
          rw [VTensor.rowBytes_plain hblck hmeta, hone, Nat.mul_one]
        have h := trace_spread (Nat.le_refl (vt.type.typeSize * c.size))
          (hst.block_fits_size hle) (hst.newIndex_lt hi) (by rwa [hbytes] at hb) Nat.zero_lt_one
        rw [Nat.zero_mul, Nat.zero_add, Nat.zero_add, hst.trace_newIndex hc hi hpos] at h
        rw [hone, VTensor.addr, VTensor.addr, if_neg htrans, if_neg htrans, hbytes,
          Nat.mul_comm _ vt.type.typeSize, Nat.mul_comm _ vt.type.typeSize, h]

end

/-! ### The rows of a layer that does not agree -/

instance nontrivialByte : Nontrivial UInt8 := ⟨0, 1, by decide⟩

section
variable {cfg : KvLayout} {c : KvCache} {k : Nat} {st : DefragState} (hc : Accounted c)
  (hst : Filled c (llamaKvCacheCellMax c) k st)
  (hsome : ∃ y, st.Moves (llamaKvCacheCellMax c) y)
  (hkept : ∀ m, ∃ m', graphCompute cfg c.size
    (buildDefrag cfg c.size (llamaKvCacheCellMax c) st.ids) m = some m' ∧ RowsKept cfg c st m m')
include hc hst hsome hkept

omit hc hst hsome in
theorem fits_of_kept {node : KvTensor × Copy}
    (hnode : node ∈ buildDefrag cfg c.size (llamaKvCacheCellMax c) st.ids) :
    node.2.Fits (cfg.bytes c.size node.1) := by
  obtain ⟨m', hm', -⟩ := hkept fun _ _ => 0
  rw [graphCompute] at hm'
  split at hm'
  · rename_i hfits
    exact hfits node hnode
  · cases hm'

omit hsome hkept in
/-- A cell that moves has a position. -/
theorem Filled.moves_live {y : Nat} (hy : st.Moves (llamaKvCacheCellMax c) y) :
    y < c.size ∧ 0 ≤ (c.cells y).pos := by
  have hle : llamaKvCacheCellMax c ≤ c.size := cellMaxLoop_le c.cells c.size
  have hlt := hy.1
  have hsize : y < c.size := by omega
  exact ⟨hsize, (hc.sound y hsize).hasPos_iff.mpr (hst.moved y hy).2.1⟩

theorem Filled.k_agrees {il : Nat} {l : KvLayer} (hl : cfg.layers[il]? = some l) :
    l.kType.rowMetaSize = 0 ∧ l.kRows * l.kNe0 = l.nEmbdKGqa := by
  have hle : llamaKvCacheCellMax c ≤ c.size := cellMaxLoop_le c.cells c.size
  obtain ⟨hmeta, hwidth⟩ := hst.rows_agree_of_kept hle l.nEmbdKGqa_dvd l.kStride_pos
    l.kStride_gap hsome (by
      intro y hy e he
      rw [trace_eq_iff (α := UInt8)]
      intro f
      obtain ⟨m', hm', hrows⟩ := hkept fun _ => f
      obtain ⟨hylt, hypos⟩ := hst.moves_live hc hy
      have hk := hrows.k il l hl y hylt hypos e he
      rw [graphCompute_tensor hm', copiesOf_buildDefrag_k hl, Filled.newIndex_of_moves hy] at hk
      exact hk)
  refine ⟨hmeta, ?_⟩
  rw [KvLayer.kStride_plain hmeta] at hwidth
  exact GgmlType.blockBytes_inj (Dvd.dvd.mul_left l.kNe0_dvd _) l.nEmbdKGqa_dvd hwidth

/-- What the copies of a moved row require of the V tensor of a layer. -/
theorem Filled.v_agrees {il : Nat} {l : KvLayer} (hl : cfg.layers[il]? = some l) {vt : VTensor}
    (hvt : l.v = some vt) : vt.nEmbd = l.nEmbdVGqa ∧
      if cfg.flashAttn then vt.type.rowMetaSize = 0
      else cfg.vTrans = true ∨ l.nEmbdVGqa = 1 := by
  have hle : llamaKvCacheCellMax c ≤ c.size := cellMaxLoop_le c.cells c.size
  have htrace : ∀ y, st.Moves (llamaKvCacheCellMax c) y → ∀ e < vt.rowBytes,
      trace ((defragBlocks st.ids (llamaKvCacheCellMax c) (llamaKvCacheCellMax c) 0).flatMap
          (vCopies cfg.flashAttn c.size l.nEmbdVGqa vt))
        (vt.addr cfg.vTrans c.size (st.ids y) e) = vt.addr cfg.vTrans c.size y e := by
    intro y hy e he
    rw [trace_eq_iff (α := UInt8)]
    intro f
    obtain ⟨m', hm', hrows⟩ := hkept fun _ => f
    obtain ⟨hylt, hypos⟩ := hst.moves_live hc hy
    have hv := hrows.v il l vt hl hvt y hylt hypos e he
    rw [graphCompute_tensor hm', copiesOf_buildDefrag_v hl hvt, Filled.newIndex_of_moves hy] at hv
    exact hv
  by_cases hflash : cfg.flashAttn = true
  · rw [if_pos hflash]
    have htrans : cfg.vTrans = false := by simp [KvLayout.vTrans, hflash]
    have hcopies : vCopies cfg.flashAttn c.size l.nEmbdVGqa vt
        = fun b => [rowsCopy vt.type l.nEmbdVGqa b] := by
      funext b
      rw [vCopies, if_pos hflash]
    rw [hcopies, ← List.map_eq_flatMap, htrans] at htrace
    have hdvd := l.nEmbdVGqa_dvd vt hvt
    obtain ⟨hmeta, hwidth⟩ := hst.rows_agree_of_kept hle hdvd vt.rowBytes_pos
      (GgmlType.rowSize_gap vt.nEmbd_dvd hdvd) hsome htrace
    rw [VTensor.rowBytes, ggmlRowSize, hmeta, Nat.zero_add] at hwidth
    exact ⟨GgmlType.blockBytes_inj vt.nEmbd_dvd hdvd hwidth, hmeta⟩
  · rw [if_neg hflash]
    obtain ⟨hblck, hmeta⟩ := cfg.plain_v (by simpa using hflash) l (List.mem_of_getElem? hl) vt hvt
    have hcopies : vCopies cfg.flashAttn c.size l.nEmbdVGqa vt
        = fun b => (List.range l.nEmbdVGqa).map (columnCopy vt.type c.size b) := by
      funext b
      rw [vCopies, if_neg hflash]
    rw [hcopies, flatMap_columnCopy hblck hmeta] at htrace
    have hwide : l.nEmbdVGqa ≤ vt.nEmbd := by
      apply columns_le_of_fits hblck hmeta hsome
      intro b hb r hr
      have hbytes : cfg.bytes c.size (.v il) = vt.bytes c.size := by
        simp [KvLayout.bytes, hl, hvt]
      rw [← hbytes]
      have hnode : (KvTensor.v il, columnCopy vt.type c.size b r)
          ∈ buildDefrag cfg c.size (llamaKvCacheCellMax c) st.ids := by
        simp only [buildDefrag, List.mem_flatMap]
        refine ⟨b, hb, (l, il), List.mem_zipIdx_iff_getElem?.mpr hl, ?_⟩
        rw [layerCopies, hvt]
        apply List.mem_cons_of_mem
        rw [List.mem_map]
        refine ⟨_, ?_, rfl⟩
        rw [vCopies, if_neg hflash]
        exact List.mem_map.mpr ⟨r, List.mem_range.mpr hr, rfl⟩
      exact fits_of_kept hkept hnode
    by_cases htrans : cfg.vTrans = true
    · rw [htrans] at htrace
      exact ⟨hst.columns_agree_of_kept hle hblck hmeta hsome hwide htrace, Or.inl htrans⟩
    · rw [Bool.not_eq_true] at htrans
      rw [htrans] at htrace
      obtain ⟨hone, hwidth⟩ := hst.rows_as_columns_of_kept hle hblck hmeta hsome hwide htrace
      exact ⟨hone.trans hwidth.symm, Or.inr hwidth⟩

theorem Filled.agrees_of_kept : ∀ l ∈ cfg.layers, l.Agrees cfg := by
  intro l hl
  obtain ⟨il, hil⟩ := List.getElem?_of_mem hl
  exact ⟨hst.k_agrees hc hsome hkept hil, fun vt hvt => hst.v_agrees hc hsome hkept hil hvt⟩

end

section
variable {cfg : KvLayout} {c : KvCache} {maxMoves : Nat} (hc : Accounted c) (hmoves : 1 ≤ maxMoves)
include hc hmoves

theorem DefragFaithful.agrees (h : DefragFaithful cfg c maxMoves)
    (hhole : ¬ ∀ i < c.used, (c.cells i).seqId.Nonempty) : ∀ l ∈ cfg.layers, l.Agrees cfg := by
  obtain ⟨st, k, hvars, -, hst, hend⟩ := defrag_metadata hc hmoves
  obtain ⟨st', hvars', -, hkept⟩ := h
  obtain rfl : st = st' := Option.some.inj (hvars.symm.trans hvars')
  have hsome := hst.exists_moves hmoves hend hhole
  have hpos : st.nMoves ≠ 0 := Nat.pos_iff_ne_zero.mp (hst.nMoves.mpr hsome)
  simp only [defragData, if_neg hpos] at hkept
  exact hst.agrees_of_kept hc hsome hkept

/-- The direction that shows the copies right: no hole is left, or every layer agrees. -/
theorem defragFaithful_of_agrees (hcond : (∀ i < c.used, (c.cells i).seqId.Nonempty) ∨
    ∀ l ∈ cfg.layers, l.Agrees cfg) : DefragFaithful cfg c maxMoves := by
  obtain ⟨st, k, hvars, hcells, hst, hend⟩ := defrag_metadata hc hmoves
  refine ⟨st, hvars, hcells, fun m => ?_⟩
  rw [defragData]
  split
  · -- nothing moved
    rename_i hzero
    have hnone : ∀ y, ¬ st.Moves (llamaKvCacheCellMax c) y := fun y hy =>
      absurd (hst.nMoves.mpr ⟨y, hy⟩) (by omega)
    refine ⟨m, rfl, ?_⟩
    constructor
    · intro il l _ i _ _ b _
      rw [Filled.newIndex_of_not_moves (hnone i)]
    · intro il l vt _ _ i _ _ b _
      rw [Filled.newIndex_of_not_moves (hnone i)]
  · rename_i hzero
    refine hst.rowsKept_of_agrees hc (hcond.resolve_left fun hhole => ?_) m
    exact hst.not_exists_moves hhole (hst.nMoves.mp (Nat.pos_of_ne_zero hzero))

end

theorem typeF16_rowMetaSize_le : 0 ≤ 2 := by decide

/-- `GGML_TYPE_F16`. -/
def typeF16 : GgmlType where
  blckSize := 1
  typeSize := 2
  rowMetaSize := 0
  blckSize_pos := Nat.one_pos
  rowMetaSize_le := typeF16_rowMetaSize_le
  typeSize_pos := Nat.two_pos

/-- A layer with one head of two elements. -/
def smallLayer : KvLayer where
  kType := typeF16
  kNe0 := 2
  kRows := 1
  v := some {
    type := typeF16
    nEmbd := 2
    nEmbd_pos := Nat.two_pos
    nEmbd_dvd := by decide }
  nEmbdKGqa := 2
  nEmbdVGqa := 2
  kNe0_pos := Nat.two_pos
  kRows_pos := Nat.one_pos
  kRows_eq := by decide
  kNe0_dvd := by decide
  nEmbdKGqa_dvd := by decide
  nEmbdVGqa_dvd := by
    intro vt hvt
    cases hvt
    decide

/-- The layer without flash attention, in a hybrid model or in one with attention only. -/
def smallLayout (hybrid : Bool) : KvLayout where
  layers := [smallLayer]
  recurrent := false
  hybrid := hybrid
  flashAttn := false
  plain_v := by
    intro _ l hl vt hvt
    rw [List.mem_singleton.mp hl] at hvt
    cases hvt
    decide

/-- Four cells: the first two were freed, and the third holds a token. -/
def holedCache : KvCache where
  size := 4
  used := 1
  cells := fun i => if i = 2 then { pos := 0, seqId := {0} } else {}

theorem holedCache_accounted : Accounted holedCache where
  used := by decide
  sound := by
    intro i _
    simp only [holedCache]
    split <;> simp [KvCell.Sound]

end PxqLlama.Kv
