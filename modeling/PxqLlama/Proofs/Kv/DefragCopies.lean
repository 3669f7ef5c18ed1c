import PxqLlama.Kv.DefragGraph
import PxqLlama.Proofs.Kv.Defrag

/-!
# `Proofs.Kv.DefragCopies`: the copies of a defragmentation against its map

The blocks of `build_defrag` are the moves of the map, grouped (`defragBlocks_sound`,
`defragBlocks_complete`). A moved cell comes from `used` or higher and goes below, so the
blocks overwrite no cell before it is read, and the trace of a cell is the inverse of the map
(`Filled.trace_dst`).

A tensor whose rows lie where `build_defrag` thinks moves the same way. Where they do not, the
rows are wrong as soon as one cell moves: see `rows_agree_of_kept` and
`columns_agree_of_kept`.
-/

namespace PxqLlama.Kv

open BlockCopy

/-! ### The blocks -/

variable {b : Copy} {il : Nat}

section
variable {ids : Nat → Nat} {n i id : Nat}

/-- The scan finds how long the ids stay consecutive. -/
theorem runLength_spec (fuel : Nat) {nm : Nat}
    (h : ∀ j < nm, i + j < n ∧ ids (i + j) = id + j) :
    nm ≤ runLength ids n i id fuel nm ∧
      ∀ j < runLength ids n i id fuel nm, i + j < n ∧ ids (i + j) = id + j := by
  induction fuel generalizing nm with
  | zero => exact ⟨Nat.le_refl _, h⟩
  | succ fuel ih =>
    rw [runLength]
    split
    · rename_i hnext
      obtain ⟨hle, hrun⟩ := @ih (nm + 1) (by
        intro j hj
        rcases Nat.lt_succ_iff_lt_or_eq.mp hj with hlt | rfl
        · exact h j hlt
        · exact hnext)
      exact ⟨by omega, hrun⟩
    · exact ⟨Nat.le_refl _, h⟩

/-- A block moves its cells as the map says, and it has one at least. -/
theorem defragBlocks_sound {fuel : Nat} (hb : b ∈ defragBlocks ids n fuel i) :
    0 < b.len ∧ b.dst ≠ n ∧ b.dst ≠ b.src ∧
      ∀ j < b.len, b.src + j < n ∧ ids (b.src + j) = b.dst + j := by
  induction fuel generalizing i with
  | zero => cases hb
  | succ fuel ih =>
    rw [defragBlocks] at hb
    split at hb
    · cases hb
    · rename_i hin
      split at hb
      · exact ih hb
      · rename_i hmoves
        rw [not_or] at hmoves
        rcases List.mem_cons.mp hb with rfl | hb
        · obtain ⟨hle, hrun⟩ := @runLength_spec ids n i (ids i) n 1 (by
              intro j hj
              obtain rfl : j = 0 := by omega
              exact ⟨by omega, rfl⟩)
          exact ⟨hle, hmoves.2, fun heq => hmoves.1 heq.symm, hrun⟩
        · exact ih hb

/-- Every cell that moves is in a block. -/
theorem defragBlocks_complete (fuel : Nat) {y : Nat} (hfuel : n ≤ i + fuel) (hiy : i ≤ y)
    (hy : y < n) (hid : ids y ≠ n) (hne : ids y ≠ y) :
    ∃ b ∈ defragBlocks ids n fuel i, ∃ j < b.len, y = b.src + j := by
  induction fuel generalizing i with
  | zero => omega
  | succ fuel ih =>
    rw [defragBlocks, if_neg (by omega)]
    split
    · rename_i hstay
      have hiy' : i ≠ y := by
        rintro rfl
        rcases hstay with h | h
        · exact hne h.symm
        · exact hid h
      exact ih (by omega) (by omega)
    · by_cases hin : y < i + runLength ids n i (ids i) n 1
      · exact ⟨_, List.mem_cons_self .., y - i, by simp only; omega, by simp only; omega⟩
      · have hle : 1 ≤ runLength ids n i (ids i) n 1 := (runLength_spec n (by
          intro j hj
          obtain rfl : j = 0 := by omega
          exact ⟨by omega, rfl⟩)).1
        obtain ⟨b, hb, hj⟩ := ih (i := i + runLength ids n i (ids i) n 1) (by omega) (by omega)
        exact ⟨b, List.mem_cons_of_mem _ hb, hj⟩

end

/-! ### The trace of a cell -/

section
variable {c : KvCache} {nKv k : Nat} {st : DefragState} (hst : Filled c nKv k st)
include hst

theorem Filled.dst_lt {y : Nat} (hy : st.Moves nKv y) : st.ids y < c.used ∧ c.used ≤ y := by
  have hle := hst.le
  have hlt := (hst.ids y hy.1).resolve_left hy.2.1
  exact ⟨by omega, (hst.moved y hy).1⟩

/-- The cells of a block, with all that is known of them. -/
theorem Filled.block (hb : b ∈ defragBlocks st.ids nKv nKv 0) :
    0 < b.len ∧ ∀ j < b.len, st.Moves nKv (b.src + j) ∧ st.ids (b.src + j) = b.dst + j := by
  obtain ⟨hlen, hdst, hne, hrun⟩ := defragBlocks_sound hb
  have hfirst : st.Moves nKv b.src := by
    obtain ⟨hlt, hid⟩ := hrun 0 hlen
    rw [Nat.add_zero] at hlt hid
    rw [Nat.add_zero] at hid
    exact ⟨hlt, by rw [hid]; exact hdst, by rw [hid]; exact hne⟩
  have hsrc := hst.dst_lt hfirst
  have hid := (hrun 0 hlen).2
  rw [Nat.add_zero, Nat.add_zero] at hid
  refine ⟨hlen, fun j hj => ?_⟩
  obtain ⟨hlt, hidj⟩ := hrun j hj
  exact ⟨⟨hlt, by omega, by omega⟩, hidj⟩

theorem Filled.block_fits (hb : b ∈ defragBlocks st.ids nKv nKv 0) : b.Fits nKv := by
  obtain ⟨hlen, hrun⟩ := hst.block hb
  obtain ⟨hlast, hid⟩ := hrun (b.len - 1) (by omega)
  have := hst.dst_lt hlast
  have := hlast.1
  exact ⟨by omega, by omega⟩

/-- The cell that a move fills holds what the moved cell held. -/
theorem Filled.trace_dst {y : Nat} (hy : st.Moves nKv y) :
    trace (defragBlocks st.ids nKv nKv 0) (st.ids y) = y := by
  have hdst := hst.dst_lt hy
  apply trace_eq
  · -- cell `y` is not written: it is not below `used`
    intro b hb hw
    obtain ⟨-, hrun⟩ := hst.block hb
    obtain ⟨hmoves, hid⟩ := hrun (y - b.dst) (by have := hw.1; have := hw.2; omega)
    have := hst.dst_lt hmoves
    have := hw.1
    omega
  · intro b hb hw
    obtain ⟨-, hrun⟩ := hst.block hb
    have hlo := hw.1
    obtain ⟨hmoves, hid⟩ := hrun (st.ids y - b.dst) (by have := hw.2; omega)
    rw [Copy.source_of_writes hw]
    exact hst.inj _ _ hmoves hy (by omega)
  · obtain ⟨b, hb, j, hj, rfl⟩ := defragBlocks_complete nKv
      (by omega) (Nat.zero_le y) hy.1 hy.2.1 hy.2.2
    have hid := ((hst.block hb).2 j hj).2
    exact ⟨b, hb, by omega, by omega⟩

/-- A cell that no move fills keeps what it held. -/
theorem Filled.trace_same {x : Nat} (hx : ∀ y, st.Moves nKv y → st.ids y ≠ x) :
    trace (defragBlocks st.ids nKv nKv 0) x = x := by
  apply trace_of_not_writes
  intro b hb hw
  have hlo := hw.1
  obtain ⟨hmoves, hid⟩ := (hst.block hb).2 (x - b.dst) (by have := hw.2; omega)
  exact hx _ hmoves (by omega)

theorem Filled.trace_cases (x : Nat) :
    trace (defragBlocks st.ids nKv nKv 0) x = x ∨
      ∃ y, st.Moves nKv y ∧ st.ids y = x ∧ trace (defragBlocks st.ids nKv nKv 0) x = y := by
  by_cases hx : ∃ y, st.Moves nKv y ∧ st.ids y = x
  · obtain ⟨y, hy, rfl⟩ := hx
    exact Or.inr ⟨y, hy, rfl, hst.trace_dst hy⟩
  · exact Or.inl (hst.trace_same fun y hy heq => hx ⟨y, hy, heq⟩)

end

/-! ### The copies of one tensor -/

section
variable {cfg : KvLayout} {size : Nat}

theorem copiesOf_append (t : KvTensor) (g g' : List (KvTensor × Copy)) :
    copiesOf t (g ++ g') = copiesOf t g ++ copiesOf t g' := by
  simp [copiesOf]

theorem copiesOf_flatMap {β : Type} (t : KvTensor) (xs : List β)
    (f : β → List (KvTensor × Copy)) :
    copiesOf t (xs.flatMap f) = xs.flatMap fun x => copiesOf t (f x) := by
  induction xs with
  | nil => rfl
  | cons x xs ih => rw [List.flatMap_cons, copiesOf_append, ih, List.flatMap_cons]

/-- Only one layer has the tensor. -/
theorem flatMap_zipIdx {layers : List KvLayer} {g : KvLayer → List Copy}
    {f : KvLayer × Nat → List Copy} (hf : ∀ l j, f (l, j) = if j = il then g l else [])
    (start : Nat) :
    (layers.zipIdx start).flatMap f
      = if start ≤ il then (layers[il - start]?.map g).getD [] else [] := by
  induction layers generalizing start with
  | nil => simp
  | cons l layers ih =>
    rw [List.zipIdx_cons, List.flatMap_cons, ih, hf]
    rcases Nat.lt_trichotomy start il with hlt | rfl | hlt
    · rw [if_neg (by omega), if_pos (by omega), if_pos (by omega),
        show il - start = il - (start + 1) + 1 by omega]
      simp
    · simp
    · rw [if_neg (by omega), if_neg (by omega), if_neg (by omega)]
      rfl

theorem copiesOf_layer_k (il j : Nat) (l : KvLayer) (b : Copy) :
    copiesOf (.k il) (layerCopies cfg.flashAttn size j l b)
      = if j = il then [rowsCopy l.kType l.nEmbdKGqa b] else [] := by
  rw [layerCopies]
  have hv : ∀ cs : List Copy, copiesOf (.k il) (cs.map fun c => (KvTensor.v j, c)) = [] := by
    intro cs
    simp [copiesOf]
  cases l.v with
  | none =>
    by_cases hj : j = il
    · simp [copiesOf, hj]
    · simp [copiesOf, hj]
  | some vt =>
    rw [← List.singleton_append, copiesOf_append, hv]
    by_cases hj : j = il
    · simp [copiesOf, hj]
    · simp [copiesOf, hj]

theorem copiesOf_layer_v (il j : Nat) (l : KvLayer) (b : Copy) :
    copiesOf (.v il) (layerCopies cfg.flashAttn size j l b)
      = if j = il then (l.v.map fun vt =>
          vCopies cfg.flashAttn size l.nEmbdVGqa vt b).getD [] else [] := by
  rw [layerCopies]
  cases l.v with
  | none => simp [copiesOf]
  | some vt =>
    rw [← List.singleton_append, copiesOf_append]
    by_cases hj : j = il
    · simp [copiesOf, hj, List.filter_map, Function.comp_def]
    · simp [copiesOf, hj, List.filter_map, Function.comp_def]

/-- The copies that the graph makes in the K tensor of a layer. -/
theorem copiesOf_buildDefrag_k {l : KvLayer} (hl : cfg.layers[il]? = some l) (n : Nat)
    (ids : Nat → Nat) :
    copiesOf (.k il) (buildDefrag cfg size n ids)
      = (defragBlocks ids n n 0).map (rowsCopy l.kType l.nEmbdKGqa) := by
  rw [buildDefrag, copiesOf_flatMap, List.map_eq_flatMap]
  congr 1
  funext b
  rw [copiesOf_flatMap, flatMap_zipIdx
    (g := fun l => [rowsCopy l.kType l.nEmbdKGqa b]) fun l j => copiesOf_layer_k il j l b]
  simp [hl]

/-- The copies that the graph makes in the V tensor of a layer. -/
theorem copiesOf_buildDefrag_v {l : KvLayer} {vt : VTensor} (hl : cfg.layers[il]? = some l)
    (hv : l.v = some vt) (n : Nat) (ids : Nat → Nat) :
    copiesOf (.v il) (buildDefrag cfg size n ids)
      = (defragBlocks ids n n 0).flatMap (vCopies cfg.flashAttn size l.nEmbdVGqa vt) := by
  rw [buildDefrag, copiesOf_flatMap]
  congr 1
  funext b
  rw [copiesOf_flatMap, flatMap_zipIdx
    (g := fun l => (l.v.map fun vt => vCopies cfg.flashAttn size l.nEmbdVGqa vt b).getD [])
    fun l j => copiesOf_layer_v il j l b]
  simp [hl, hv]

end

/-! ### Rows one behind the other -/

variable {t : GgmlType}

theorem GgmlType.blockBytes_mul {ne : Nat} (h : t.blckSize ∣ ne) (i : Nat) :
    t.blockBytes (ne * i) = t.blockBytes ne * i := by
  obtain ⟨q, rfl⟩ := h
  rw [blockBytes, blockBytes, Nat.mul_assoc, Nat.mul_left_comm, Nat.mul_left_comm _ t.blckSize q,
    Nat.mul_div_cancel_left _ t.blckSize_pos, Nat.mul_div_cancel_left _ t.blckSize_pos,
    Nat.mul_assoc]

theorem map_rowsCopy {width : Nat} (hmeta : t.rowMetaSize = 0) (hdvd : t.blckSize ∣ width)
    (stride : Nat) (blocks : List Copy) :
    blocks.map (rowsCopy t width) = spread 1 stride (t.blockBytes width) blocks := by
  rw [spread, List.map_eq_flatMap]
  congr 1
  funext b
  simp [rowsCopy, Copy.row, ggmlRowSize, hmeta, GgmlType.blockBytes_mul hdvd, Nat.mul_comm b.len]

section
variable {c : KvCache} {nKv k size : Nat} {st : DefragState} (hst : Filled c nKv k st)
  (hsize : nKv ≤ size) {t : GgmlType} {width rowLen : Nat}
include hst

theorem Filled.block_fits_size (hsize : nKv ≤ size) :
    ∀ b ∈ defragBlocks st.ids nKv nKv 0, b.Fits size := by
  intro b hb
  obtain ⟨hsrc, hdst⟩ := hst.block_fits hb
  exact ⟨by omega, by omega⟩

include hsize in
/-- Rows without headers, as wide as the copies think, move with their cells. -/
theorem Filled.trace_rows (hmeta : t.rowMetaSize = 0) (hdvd : t.blckSize ∣ width) {x e : Nat}
    (hx : x < size) (he : e < t.blockBytes width) :
    trace ((defragBlocks st.ids nKv nKv 0).map (rowsCopy t width)) (x * t.blockBytes width + e)
      = trace (defragBlocks st.ids nKv nKv 0) x * t.blockBytes width + e := by
  rw [map_rowsCopy hmeta hdvd (t.blockBytes width * size)]
  have h := trace_spread (Nat.le_refl (t.blockBytes width * size))
    (hst.block_fits_size hsize) hx he Nat.zero_lt_one
  rw [Nat.zero_mul, Nat.zero_add, Nat.zero_add] at h
  rw [Nat.mul_comm x, Nat.mul_comm (trace _ x)]
  exact h

omit hst in
theorem exists_max_moves (f : Nat → Nat) (hsome : ∃ y, st.Moves nKv y) :
    ∃ y, st.Moves nKv y ∧ ∀ z, st.Moves nKv z → f z ≤ f y := by
  classical
  obtain ⟨y, hy⟩ := hsome
  obtain ⟨m, hm, hmax⟩ := Finset.exists_max_image
    ((Finset.range nKv).filter fun i => st.Moves nKv i) f
    ⟨y, Finset.mem_filter.mpr ⟨Finset.mem_range.mpr hy.1, hy⟩⟩
  refine ⟨m, (Finset.mem_filter.mp hm).2, fun z hz => hmax z ?_⟩
  exact Finset.mem_filter.mpr ⟨Finset.mem_range.mpr hz.1, hz⟩

omit hst in
theorem exists_min_moves (f : Nat → Nat) (hsome : ∃ y, st.Moves nKv y) :
    ∃ y, st.Moves nKv y ∧ ∀ z, st.Moves nKv z → f y ≤ f z := by
  classical
  obtain ⟨y, hy⟩ := hsome
  obtain ⟨m, hm, hmin⟩ := Finset.exists_min_image
    ((Finset.range nKv).filter fun i => st.Moves nKv i) f
    ⟨y, Finset.mem_filter.mpr ⟨Finset.mem_range.mpr hy.1, hy⟩⟩
  refine ⟨m, (Finset.mem_filter.mp hm).2, fun z hz => hmin z ?_⟩
  exact Finset.mem_filter.mpr ⟨Finset.mem_range.mpr hz.1, hz⟩

/-- A place of a spread list comes from a distance that a cell moves. -/
theorem Filled.spread_distance (hsize : nKv ≤ size) {rows unit a s : Nat}
    (ha : trace (spread rows (unit * size) unit (defragBlocks st.ids nKv nKv 0)) a = s)
    (hne : s ≠ a) : a < rows * (unit * size) ∧
      ∃ y, st.Moves nKv y ∧ s = a + unit * (y - st.ids y) := by
  have hfits := hst.block_fits_size hsize
  by_cases hin : a < rows * (unit * size)
  · refine ⟨hin, ?_⟩
    have hstride : 0 < unit * size := by
      apply Nat.pos_of_ne_zero
      intro hzero
      rw [hzero, Nat.mul_zero] at hin
      omega
    have hunit : 0 < unit := Nat.pos_of_mul_pos_right hstride
    -- the place is at `e` in cell `x` of row `r`
    obtain ⟨r, y, hr, hy, rfl⟩ : ∃ r y, r < rows ∧ y < unit * size ∧ a = r * (unit * size) + y :=
      ⟨a / (unit * size), a % (unit * size), Nat.div_lt_of_lt_mul (by rwa [Nat.mul_comm]),
        Nat.mod_lt _ hstride, by rw [Nat.mul_comm]; exact (Nat.div_add_mod a _).symm⟩
    obtain ⟨x, e, hx, he, rfl⟩ : ∃ x e, x < size ∧ e < unit ∧ y = unit * x + e :=
      ⟨y / unit, y % unit, Nat.div_lt_of_lt_mul hy, Nat.mod_lt _ hunit,
        (Nat.div_add_mod y _).symm⟩
    rw [← Nat.add_assoc] at ha hne ⊢
    rw [trace_spread (Nat.le_refl _) hfits hx he hr] at ha
    rcases hst.trace_cases x with hsame | ⟨z, hz, hid, htrace⟩
    · rw [hsame] at ha
      exact absurd ha.symm hne
    · refine ⟨z, hz, ?_⟩
      have hlt := hst.dst_lt hz
      have := Nat.mul_le_mul_left unit (by omega : st.ids z ≤ z)
      rw [← ha, htrace, ← hid, Nat.mul_sub]
      omega
  · rw [trace_spread_of_ge (Nat.le_refl _) hfits (by omega)] at ha
    exact absurd ha.symm hne

omit hst in
/-- What a copy of rows reads and writes, in headers and widths. -/
theorem rowsCopy_bounds (hdvd : t.blckSize ∣ width) {x : Nat} (hx : (rowsCopy t width b).Writes x) :
    t.rowMetaSize + t.blockBytes width * b.dst ≤ x ∧
      (rowsCopy t width b).source x
        < t.blockBytes width * (b.src + b.len) + t.rowMetaSize * (b.len + 1) := by
  have hlo := hx.1
  have hhi := hx.2
  rw [Copy.source_of_writes hx]
  simp only [rowsCopy, ggmlRowSize, GgmlType.blockBytes_mul hdvd, Nat.mul_add] at hlo hhi ⊢
  rw [Nat.mul_comm b.len, Nat.mul_comm b.len] at hhi
  omega

/-- When the rows move right, the copies agree with the layout: the rows have no headers and
the width of the copies. -/
theorem Filled.rows_agree_of_kept (hsize : nKv ≤ size) (hdvd : t.blckSize ∣ width)
    (hpos : 0 < rowLen)
    (hgap : rowLen ≤ t.blockBytes width ∨ t.rowMetaSize + t.blockBytes width ≤ rowLen)
    (hsome : ∃ y, st.Moves nKv y)
    (hkept : ∀ y, st.Moves nKv y → ∀ e < rowLen,
      trace ((defragBlocks st.ids nKv nKv 0).map (rowsCopy t width)) (st.ids y * rowLen + e)
        = y * rowLen + e) :
    t.rowMetaSize = 0 ∧ rowLen = t.blockBytes width := by
  have hdist : ∀ y, st.Moves nKv y → y * rowLen = st.ids y * rowLen + (y - st.ids y) * rowLen := by
    intro y hy
    have := hst.dst_lt hy
    rw [← Nat.add_mul, Nat.add_sub_cancel' (by omega)]
  by_cases hmeta : t.rowMetaSize = 0
  · rw [map_rowsCopy hmeta hdvd (t.blockBytes width * size)] at hkept
    refine ⟨hmeta, Nat.le_antisymm ?_ ?_⟩
    · -- the cell that moves farthest
      obtain ⟨y, hy, hmax⟩ := exists_max_moves (fun y => y - st.ids y) hsome
      have hlt := hst.dst_lt hy
      have hmove := hdist y hy
      have hstep : 0 < (y - st.ids y) * rowLen := Nat.mul_pos (by omega) hpos
      obtain ⟨-, z, hz, hz'⟩ := hst.spread_distance hsize (hkept y hy 0 hpos) (by omega)
      have hle := Nat.mul_le_mul_left (t.blockBytes width) (hmax z hz)
      rw [Nat.mul_comm _ (y - st.ids y)] at hle
      exact Nat.le_of_mul_le_mul_left (by omega) (by omega : 0 < y - st.ids y)
    · -- the cell that moves least
      obtain ⟨y, hy, hmin⟩ := exists_min_moves (fun y => y - st.ids y) hsome
      have hlt := hst.dst_lt hy
      have hmove := hdist y hy
      have hstep : 0 < (y - st.ids y) * rowLen := Nat.mul_pos (by omega) hpos
      obtain ⟨-, z, hz, hz'⟩ := hst.spread_distance hsize (hkept y hy 0 hpos) (by omega)
      have hle := Nat.mul_le_mul_left (t.blockBytes width) (hmin z hz)
      rw [Nat.mul_comm _ (y - st.ids y)] at hle
      exact Nat.le_of_mul_le_mul_left (by omega) (by omega : 0 < y - st.ids y)
  · exfalso
    -- the lowest cell that is filled: its first byte is written, behind a header
    obtain ⟨y, hy, hmin⟩ := exists_min_moves st.ids hsome
    have hlow : t.rowMetaSize + t.blockBytes width * st.ids y ≤ st.ids y * rowLen := by
      have hlt := hst.dst_lt hy
      have hmove := hdist y hy
      have hstep : 0 < (y - st.ids y) * rowLen := Nat.mul_pos (by omega) hpos
      have htrace := hkept y hy 0 hpos
      rcases trace_rel ((defragBlocks st.ids nKv nKv 0).map (rowsCopy t width))
          (P := fun x _ => t.rowMetaSize + t.blockBytes width * st.ids y ≤ x)
          (fun _ _ _ h _ => h) (by
            intro b' hb' x hx
            obtain ⟨b, hb, rfl⟩ := List.mem_map.mp hb'
            obtain ⟨hlen, hrun⟩ := hst.block hb
            obtain ⟨hfirst, hid⟩ := hrun 0 hlen
            have hle := Nat.mul_le_mul_left (t.blockBytes width) (hmin _ hfirst)
            rw [hid, Nat.add_zero] at hle
            have := (rowsCopy_bounds hdvd hx).1
            omega) (st.ids y * rowLen + 0) with heq | hle
      · omega
      · exact hle
    have hwide : t.rowMetaSize + t.blockBytes width ≤ rowLen := by
      refine hgap.resolve_left fun hle => ?_
      have := Nat.mul_le_mul_left (st.ids y) hle
      rw [Nat.mul_comm _ (st.ids y)] at hlow
      omega
    have hone : 1 ≤ st.ids y := by
      by_contra hzero
      rw [show st.ids y = 0 by omega] at hlow
      omega
    -- the highest cell that moves: its last byte is read, but no copy reaches so far
    obtain ⟨z, hz, hmax⟩ := exists_max_moves id hsome
    simp only [id] at hmax
    have hlt := hst.dst_lt hz
    have hmove := hdist z hz
    have hstep : 0 < (z - st.ids z) * rowLen := Nat.mul_pos (by omega) hpos
    have htrace := hkept z hz (rowLen - 1) (by omega)
    have hbound : z * rowLen + (rowLen - 1)
        < t.blockBytes width * (z + 1) + t.rowMetaSize * z := by
      rcases trace_rel ((defragBlocks st.ids nKv nKv 0).map (rowsCopy t width))
          (P := fun _ s => s < t.blockBytes width * (z + 1) + t.rowMetaSize * z)
          (fun _ _ _ _ h => h) (by
            intro b' hb' x hx
            obtain ⟨b, hb, rfl⟩ := List.mem_map.mp hb'
            obtain ⟨hlen, hrun⟩ := hst.block hb
            obtain ⟨hlast, -⟩ := hrun (b.len - 1) (by omega)
            obtain ⟨hfirst, hid⟩ := hrun 0 hlen
            have hzlast := hmax _ hlast
            have hyfirst := hmin _ hfirst
            have hdst := hst.dst_lt hfirst
            rw [Nat.add_zero] at hid hdst hyfirst
            rw [hid] at hyfirst
            have h₁ := Nat.mul_le_mul_left (t.blockBytes width)
              (by omega : b.src + b.len ≤ z + 1)
            have h₂ := Nat.mul_le_mul_left t.rowMetaSize (by omega : b.len + 1 ≤ z)
            have := (rowsCopy_bounds hdvd hx).2
            omega) (st.ids z * rowLen + (rowLen - 1)) with heq | hle
      · omega
      · omega
    have h := Nat.mul_le_mul_right (z + 1) hwide
    rw [Nat.add_mul, Nat.mul_comm rowLen, Nat.succ_mul, Nat.mul_succ t.rowMetaSize] at h
    omega

end

/-! ### Columns -/

theorem GgmlType.blockBytes_plain (hblck : t.blckSize = 1) (ne : Nat) :
    t.blockBytes ne = t.typeSize * ne := by
  rw [blockBytes, hblck, Nat.div_one]

theorem flatMap_columnCopy (hblck : t.blckSize = 1) (hmeta : t.rowMetaSize = 0) (size width : Nat)
    (blocks : List Copy) :
    blocks.flatMap (fun b => (List.range width).map (columnCopy t size b))
      = spread width (t.typeSize * size) t.typeSize blocks := by
  rw [spread]
  congr 1
  funext b
  congr 1
  funext r
  simp [columnCopy, Copy.row, ggmlRowSize, hmeta, GgmlType.blockBytes_plain hblck]

section
variable {c : KvCache} {nKv k size : Nat} {st : DefragState} (hst : Filled c nKv k st)
  (hsize : nKv ≤ size) {vt : VTensor} (hblck : vt.type.blckSize = 1)
  (hmeta : vt.type.rowMetaSize = 0)

include hblck hmeta

theorem VTensor.rowBytes_plain : vt.rowBytes = vt.type.typeSize * vt.nEmbd := by
  rw [rowBytes, ggmlRowSize, hmeta, GgmlType.blockBytes_plain hblck, Nat.zero_add]

theorem VTensor.bytes_plain : vt.bytes size = vt.type.typeSize * vt.nEmbd * size := by
  rw [bytes, hmeta, GgmlType.blockBytes_plain hblck, Nat.zero_add, Nat.mul_assoc]

include hst hsize

/-- A transposed tensor with as many rows as are copied moves with its cells. -/
theorem Filled.trace_columns {x e : Nat} (hx : x < size) (he : e < vt.rowBytes) :
    trace (spread vt.nEmbd (vt.type.typeSize * size) vt.type.typeSize
        (defragBlocks st.ids nKv nKv 0)) (vt.addr true size x e)
      = vt.addr true size (trace (defragBlocks st.ids nKv nKv 0) x) e := by
  rw [VTensor.rowBytes_plain hblck hmeta] at he
  rw [VTensor.addr, if_pos rfl, VTensor.addr, if_pos rfl]
  exact trace_spread (Nat.le_refl _) (hst.block_fits_size hsize) hx
    (Nat.mod_lt _ vt.type.typeSize_pos) (Nat.div_lt_of_lt_mul he)

omit hst hsize in
/-- The copies of a column leave the tensor when there are more columns than it has rows. -/
theorem columns_le_of_fits {width : Nat} (hsome : ∃ y, st.Moves nKv y)
    (hfits : ∀ b ∈ defragBlocks st.ids nKv nKv 0, ∀ r < width,
      (columnCopy vt.type size b r).Fits (vt.bytes size)) : width ≤ vt.nEmbd := by
  obtain ⟨y, hy⟩ := hsome
  obtain ⟨b, hb, j, hj, -⟩ := defragBlocks_complete nKv
    (by omega) (Nat.zero_le y) hy.1 hy.2.1 hy.2.2
  by_contra hwide
  have hsrc := (hfits b hb vt.nEmbd (by omega)).1
  rw [VTensor.bytes_plain hblck hmeta] at hsrc
  simp only [columnCopy, ggmlRowSize, hmeta, GgmlType.blockBytes_plain hblck, Nat.zero_add] at hsrc
  have hlen : 0 < vt.type.typeSize * b.len := Nat.mul_pos vt.type.typeSize_pos (by omega)
  rw [Nat.mul_left_comm, ← Nat.mul_assoc] at hsrc
  omega

/-- When the columns of a transposed tensor move right, every row of it is copied. -/
theorem Filled.columns_agree_of_kept {width : Nat} (hsome : ∃ y, st.Moves nKv y)
    (hle : width ≤ vt.nEmbd)
    (hkept : ∀ y, st.Moves nKv y → ∀ e < vt.rowBytes,
      trace (spread width (vt.type.typeSize * size) vt.type.typeSize
          (defragBlocks st.ids nKv nKv 0)) (vt.addr true size (st.ids y) e)
        = vt.addr true size y e) : vt.nEmbd = width := by
  obtain ⟨y, hy⟩ := hsome
  have hlt := hst.dst_lt hy
  by_contra hne
  have hpos := vt.type.typeSize_pos
  -- the first byte of the row that is not copied
  have hin : vt.type.typeSize * width < vt.rowBytes := by
    rw [VTensor.rowBytes_plain hblck hmeta]
    exact Nat.mul_lt_mul_of_pos_left (by omega) hpos
  have htrace := hkept y hy _ hin
  simp only [VTensor.addr, if_true, Nat.mul_div_cancel_left _ hpos, Nat.mul_mod_right,
    Nat.add_zero] at htrace
  rw [trace_spread_of_ge (Nat.le_refl _) (hst.block_fits_size hsize) (Nat.le_add_right _ _)]
    at htrace
  have : vt.type.typeSize * st.ids y < vt.type.typeSize * y :=
    Nat.mul_lt_mul_of_pos_left (by omega) hpos
  omega

/-- Rows that are copied as columns move right only when they are one element wide. -/
theorem Filled.rows_as_columns_of_kept {width : Nat} (hsome : ∃ y, st.Moves nKv y)
    (hle : width ≤ vt.nEmbd)
    (hkept : ∀ y, st.Moves nKv y → ∀ e < vt.rowBytes,
      trace (spread width (vt.type.typeSize * size) vt.type.typeSize
          (defragBlocks st.ids nKv nKv 0)) (vt.addr false size (st.ids y) e)
        = vt.addr false size y e) : vt.nEmbd = 1 ∧ width = 1 := by
  have hpos := vt.type.typeSize_pos
  have hrow : 0 < vt.rowBytes := by
    rw [VTensor.rowBytes_plain hblck hmeta]
    exact Nat.mul_pos hpos vt.nEmbd_pos
  -- the cell that moves farthest, and its first byte
  obtain ⟨y, hy, hmax⟩ := exists_max_moves (fun y => y - st.ids y) hsome
  have hlt := hst.dst_lt hy
  have hmove : y * vt.rowBytes = st.ids y * vt.rowBytes + (y - st.ids y) * vt.rowBytes := by
    rw [← Nat.add_mul, Nat.add_sub_cancel' (by omega)]
  have hstep : 0 < (y - st.ids y) * vt.rowBytes := Nat.mul_pos (by omega) hrow
  have htrace := hkept y hy 0 hrow
  simp only [VTensor.addr, Bool.false_eq_true, if_false, Nat.add_zero] at htrace
  obtain ⟨hin, z, hz, hz'⟩ := hst.spread_distance hsize htrace (by omega)
  have hmaxz := Nat.mul_le_mul_left vt.type.typeSize (hmax z hz)
  have hone : vt.nEmbd = 1 := by
    have hnarrow : (y - st.ids y) * vt.rowBytes ≤ (y - st.ids y) * vt.type.typeSize := by
      rw [Nat.mul_comm _ vt.type.typeSize]
      omega
    rw [VTensor.rowBytes_plain hblck hmeta] at hnarrow
    have := Nat.le_of_mul_le_mul_left hnarrow (by omega : 0 < y - st.ids y)
    have hle1 : vt.nEmbd ≤ 1 :=
      Nat.le_of_mul_le_mul_left (by rwa [Nat.mul_one]) hpos
    have := vt.nEmbd_pos
    omega
  refine ⟨hone, ?_⟩
  have hwidth : width ≠ 0 := by
    rintro rfl
    rw [Nat.zero_mul] at hin
    omega
  omega

end

end PxqLlama.Kv
