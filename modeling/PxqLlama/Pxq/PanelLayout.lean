import PxqLlama.Pxq.Dequant
import PxqLlama.Lib.Rows
import Mathlib.Data.List.Sort

/-!
# `Pxq.PanelLayout`: the split form of a PXQ4 tensor

The converter `tools/vllm-pxq4/gguf_to_vllm` cuts a PXQ4 tensor into two arrays: the slabs,
of shape `[P, S, 1088]`, and the fp16 row anchors, of shape `[P, 64]` (`split_blob` in
`layout.py`). The shards of a tensor parallel run are slices of the two, and a reordering of
heads is a gather of panels or of slabs. No value is computed anywhere: `join_blob` puts the
bytes back together.

`Pxq4Pair` is the two arrays with their shapes. `splitBlob`, `joinBlob`, `shardColumns`,
`shardK`, `gatherPanels`, `gatherSlabs` and the two conversions of an element gather are the
functions of `layout.py`, and `dequant` is the decoder of `reference.py`.

A Python integer is an `Int`. The `int64` entries of an index array are `Int` too: the only
sum formed from them is compared with an entry, and the entries that pass are smaller than the
array is long. An exception is the `error` of an `Except String`.
-/

namespace PxqLlama.Pxq

open Gather (rows)

def PANEL_ROWS : Nat := 64
def SLAB_COLS : Nat := 32
def SLAB_BYTES : Nat := 1088
def HEADER_BYTES : Nat := 128
def CODE_OFF : Nat := 64
def CODE_BYTES : Nat := 16

/-! ### The geometry -/

/-- `assert_geometry`. -/
def assertGeometry (N K : Int) : Except String Unit :=
  if N ≤ 0 ∨ K ≤ 0 then
    .error ("pxq4: non-positive geometry N=" ++ toString N ++ " K=" ++ toString K)
  else if N % PANEL_ROWS ≠ 0 then
    .error ("pxq4: N=" ++ toString N ++ " is not a multiple of " ++ toString PANEL_ROWS
      ++ " — a partial panel has no valid anchor header and cannot be addressed")
  else if K % SLAB_COLS ≠ 0 then
    .error ("pxq4: K=" ++ toString K ++ " is not a multiple of " ++ toString SLAB_COLS
      ++ " — a partial slab has no valid sub-scale byte")
  else .ok ()

/-- `panel_bytes`. -/
def panelBytes (K : Int) : Except String Int :=
  if K % SLAB_COLS ≠ 0 then
    .error ("pxq4: K=" ++ toString K ++ " is not a multiple of " ++ toString SLAB_COLS)
  else .ok (HEADER_BYTES + K / SLAB_COLS * SLAB_BYTES)

/-- `tensor_bytes`. -/
def tensorBytes (N K : Int) : Except String Int := do
  assertGeometry N K
  let panel ← panelBytes K
  return N / PANEL_ROWS * panel

/-! ### The pair of arrays -/

/-- `slabs`, a `uint8` array of shape `[P, S, 1088]`, and `anchor`, a `float16` array of shape
`[P, 64]` given by its bit patterns. `S` is a field because the shape keeps it when there is no
panel. -/
@[ext] structure Pxq4Pair where
  S : Nat
  slabs : List (List (List UInt8))
  anchor : List (List UInt16)
  length_panel : ∀ panel ∈ slabs, panel.length = S
  length_slab : ∀ panel ∈ slabs, ∀ slab ∈ panel, slab.length = SLAB_BYTES
  length_anchor : anchor.length = slabs.length
  length_header : ∀ hdr ∈ anchor, hdr.length = PANEL_ROWS

/-- `slabs.shape[0]`. -/
def Pxq4Pair.P (pair : Pxq4Pair) : Nat := pair.slabs.length

/-- `.view("<f2")`: two bytes are one little-endian half. -/
def viewF16 : List UInt8 → List UInt16
  | lo :: hi :: rest => UInt16.ofNat (lo.toNat + 256 * hi.toNat) :: viewF16 rest
  | _ => []

/-- `.view(np.uint8)` of an array of halves. -/
def viewU8 (halves : List UInt16) : List UInt8 :=
  halves.flatMap fun h => [UInt8.ofNat h.toNat, UInt8.ofNat (h.toNat / 256)]

theorem length_viewF16 (n : Nat) (bytes : List UInt8) (h : bytes.length = 2 * n) :
    (viewF16 bytes).length = n := by
  induction n generalizing bytes with
  | zero =>
      have hnil : bytes = [] := by simpa using h
      rw [hnil]
      rfl
  | succ n ih =>
      match bytes, h with
      | lo :: hi :: rest, h =>
        have hrest : rest.length = 2 * n := by simp only [List.length_cons] at h; omega
        rw [viewF16, List.length_cons, ih rest hrest]

/-- The reshapes of `split_blob`: row `p` of the `P` rows of `128 + S * 1088` bytes has the
header of panel `p` and then its slabs. -/
def splitPanels (P S : Nat) (a : List UInt8)
    (ha : a.length = P * (HEADER_BYTES + S * SLAB_BYTES)) : Pxq4Pair where
  S := S
  slabs := (rows (HEADER_BYTES + S * SLAB_BYTES) P a).map fun row =>
    rows SLAB_BYTES S (row.drop HEADER_BYTES)
  anchor := (rows (HEADER_BYTES + S * SLAB_BYTES) P a).map fun row =>
    viewF16 (row.take HEADER_BYTES)
  length_panel := by
    intro panel hp
    obtain ⟨row, -, rfl⟩ := List.mem_map.mp hp
    exact Gather.length_rows SLAB_BYTES S _
  length_slab := by
    intro panel hp slab hs
    obtain ⟨row, hrow, rfl⟩ := List.mem_map.mp hp
    have hlen := Gather.length_of_mem_rows ha hrow
    refine Gather.length_of_mem_rows ?_ hs
    rw [List.length_drop, hlen, Nat.add_sub_cancel_left]
  length_anchor := by rw [List.length_map, List.length_map]
  length_header := by
    intro hdr hh
    obtain ⟨row, hrow, rfl⟩ := List.mem_map.mp hh
    have hlen := Gather.length_of_mem_rows ha hrow
    refine length_viewF16 PANEL_ROWS _ ?_
    rw [List.length_take, hlen]
    show min 128 (128 + S * SLAB_BYTES) = 2 * 64
    omega

/-- `split_blob`. The last branch is the exception of the first `reshape`, which checks the
size once more. -/
def splitBlob (blob : List UInt8) (N K : Int) : Except String Pxq4Pair := do
  assertGeometry N K
  let P := (N / PANEL_ROWS).toNat
  let S := (K / SLAB_COLS).toNat
  let need ← tensorBytes N K
  if (blob.length : Int) ≠ need then
    .error ("pxq4: blob is " ++ toString blob.length ++ " B, expected " ++ toString need
      ++ " B for N=" ++ toString N ++ " K=" ++ toString K)
  else if h : blob.length = P * (HEADER_BYTES + S * SLAB_BYTES) then
    .ok (splitPanels P S blob h)
  else
    .error ("cannot reshape array of size " ++ toString blob.length ++ " into shape ("
      ++ toString P ++ "," ++ toString (HEADER_BYTES + S * SLAB_BYTES) ++ ")")

/-- `join_blob`. The checks of the types and shapes are the fields of `Pxq4Pair`. -/
def joinBlob (pair : Pxq4Pair) : List UInt8 :=
  ((pair.anchor.zip pair.slabs).map fun (hdr, panel) => viewU8 hdr ++ panel.flatten).flatten

/-! ### Shards -/

/-- Where a bound of a Python slice points in a sequence of `n` entries. A negative bound
counts from the end. -/
def sliceBound (n : Nat) (i : Int) : Nat :=
  if i < 0 then (i + n).toNat else min i.toNat n

/-- `l[beg:stop]`. -/
def pySlice {α : Type} (l : List α) (beg stop : Int) : List α :=
  (l.take (sliceBound l.length stop)).drop (sliceBound l.length beg)

theorem mem_of_mem_pySlice {α : Type} {l : List α} {beg stop : Int} {x : α}
    (h : x ∈ pySlice l beg stop) : x ∈ l :=
  List.mem_of_mem_take (List.mem_of_mem_drop h)

theorem length_pySlice {α : Type} (l : List α) (beg stop : Int) :
    (pySlice l beg stop).length = sliceBound l.length stop - sliceBound l.length beg := by
  have hle : sliceBound l.length stop ≤ l.length ∨ l.length < sliceBound l.length stop := by omega
  rw [pySlice, List.length_drop, List.length_take]
  rcases hle with h | h
  · rw [Nat.min_eq_left h]
  · -- A bound past the end comes from a negative one, which cannot be.
    unfold sliceBound at h
    split at h <;> omega

/-- `slabs[p0:p1].copy(), anchor[p0:p1].copy()`. -/
def Pxq4Pair.slicePanels (pair : Pxq4Pair) (p0 p1 : Int) : Pxq4Pair where
  S := pair.S
  slabs := pySlice pair.slabs p0 p1
  anchor := pySlice pair.anchor p0 p1
  length_panel := fun panel h => pair.length_panel panel (mem_of_mem_pySlice h)
  length_slab := fun panel h => pair.length_slab panel (mem_of_mem_pySlice h)
  length_anchor := by rw [length_pySlice, length_pySlice, pair.length_anchor]
  length_header := fun hdr h => pair.length_header hdr (mem_of_mem_pySlice h)

/-- `shard_columns`. -/
def shardColumns (pair : Pxq4Pair) (row_beg row_end : Int) : Except String Pxq4Pair :=
  if row_beg % PANEL_ROWS ≠ 0 ∨ row_end % PANEL_ROWS ≠ 0 then
    .error ("pxq4: column shard [" ++ toString row_beg ++ "," ++ toString row_end
      ++ ") is not panel-aligned (multiples of " ++ toString PANEL_ROWS ++ ")")
  else .ok (pair.slicePanels (row_beg / PANEL_ROWS) (row_end / PANEL_ROWS))

/-- `slabs[:, s0:s1].copy(), anchor.copy()`. -/
def Pxq4Pair.sliceSlabs (pair : Pxq4Pair) (s0 s1 : Int) : Pxq4Pair where
  S := sliceBound pair.S s1 - sliceBound pair.S s0
  slabs := pair.slabs.map fun panel => pySlice panel s0 s1
  anchor := pair.anchor
  length_panel := by
    intro panel h
    obtain ⟨whole, hw, rfl⟩ := List.mem_map.mp h
    rw [length_pySlice, pair.length_panel whole hw]
  length_slab := by
    intro panel h slab hs
    obtain ⟨whole, hw, rfl⟩ := List.mem_map.mp h
    exact pair.length_slab whole hw slab (mem_of_mem_pySlice hs)
  length_anchor := by rw [List.length_map, pair.length_anchor]
  length_header := pair.length_header

/-- `shard_k`. -/
def shardK (pair : Pxq4Pair) (k_beg k_end : Int) : Except String Pxq4Pair :=
  if k_beg % SLAB_COLS ≠ 0 ∨ k_end % SLAB_COLS ≠ 0 then
    .error ("pxq4: K shard [" ++ toString k_beg ++ "," ++ toString k_end
      ++ ") is not slab-aligned (multiples of " ++ toString SLAB_COLS ++ ")")
  else .ok (pair.sliceSlabs (k_beg / SLAB_COLS) (k_end / SLAB_COLS))

/-! ### Gathers -/

/-- `np.arange(n)`. -/
def arange (n : Nat) : List Int := (List.range n).map Int.ofNat

/-- `assert_permutation`. -/
def assertPermutation (index : List Int) (n : Nat) (what : String) : Except String (List Int) :=
  if index.length ≠ n then
    .error (what ++ ": expected a 1-D index of length " ++ toString n ++ ", got shape ("
      ++ toString index.length ++ ",)")
  else if index.insertionSort (· ≤ ·) ≠ arange n then
    .error (what ++ ": not a permutation of range(" ++ toString n
      ++ ") — it drops or duplicates entries, which would silently corrupt weights")
  else .ok index

/-- The place an entry of an index array stands for, in an axis of `n` places. A negative
entry counts from the end. -/
def indexPlace (n : Nat) (i : Int) : Nat := (if i < 0 then i + (n : Int) else i).toNat

/-- `a[idx]` for an index array. A place out of bounds raises in numpy. No index array that
passed `assert_permutation` has one. -/
def fancyIndex {α : Type} (idx : List Int) (l : List α) : List α :=
  idx.filterMap fun i => l[indexPlace l.length i]?

/-- `inv[idx] = np.arange(idx.size)`, one entry after the other from `k` on. -/
def fancyAssignFrom (k : Nat) : List Int → List Int → List Int
  | [], inv => inv
  | i :: idx, inv =>
    fancyAssignFrom (k + 1) idx (inv.set (indexPlace inv.length i) k)

/-- `unpermute_index`. What `np.empty_like` holds before the assignment is not specified, and
here it is zeros. -/
def unpermuteIndex (idx : List Int) : List Int :=
  fancyAssignFrom 0 idx (List.replicate idx.length 0)

/-- What `block_gather_to_panels` and `col_gather_to_slabs` share. The gather is cut into
pieces of `unit` entries. Each piece has to be `unit` consecutive positions from a multiple of
`unit` on, and the multiples have to be a permutation. -/
def gatherToUnits (unit : Nat) (lenError : Nat → String) (alignError sourceError what : String)
    (g : List Int) : Except String (List Int) :=
  let n := g.length
  if n % unit ≠ 0 then .error (lenError n)
  else
    let pieces := rows unit (n / unit) g
    let base : List Int := pieces.map fun piece => piece.headD 0
    if pieces ≠ base.map fun b => (arange unit).map (b + ·) then .error alignError
    else if base.any fun b => b % unit ≠ 0 then .error sourceError
    else assertPermutation (base.map (· / unit)) (n / unit) what

/-- `block_gather_to_panels`. -/
def blockGatherToPanels (row_gather : List Int) : Except String (List Int) :=
  gatherToUnits PANEL_ROWS
    (fun n => "pxq4: row gather of length " ++ toString n ++ " is not a multiple of "
      ++ toString PANEL_ROWS)
    ("pxq4: this row permutation is not panel-aligned — it would move rows within a "
      ++ "64-row panel, which is not a byte move and would need a re-quantization")
    "pxq4: row permutation sources a panel at a non-panel-aligned row"
    "panel gather" row_gather

/-- `col_gather_to_slabs`. -/
def colGatherToSlabs (col_gather : List Int) : Except String (List Int) :=
  gatherToUnits SLAB_COLS
    (fun n => "pxq4: column gather of length " ++ toString n ++ " is not a multiple of "
      ++ toString SLAB_COLS)
    ("pxq4: this column permutation is not slab-aligned — it would move columns inside "
      ++ "a 32-column block, which changes which values share a sub-scale")
    "pxq4: column permutation sources a slab at a non-slab-aligned column"
    "slab gather" col_gather

theorem mem_of_mem_fancyIndex {α : Type} {idx : List Int} {l : List α} {x : α}
    (h : x ∈ fancyIndex idx l) : x ∈ l := by
  obtain ⟨i, -, hi⟩ := List.mem_filterMap.mp h
  exact List.mem_of_getElem? hi

/-- A gather is as long as what it is from, or shorter where positions are out of bounds. Only
the lengths decide which. -/
theorem length_fancyIndex_congr {α β : Type} (idx : List Int) {l : List α} {m : List β}
    (hlen : l.length = m.length) : (fancyIndex idx l).length = (fancyIndex idx m).length := by
  induction idx with
  | nil => rfl
  | cons i idx ih =>
      simp only [fancyIndex, List.filterMap_cons, hlen] at ih ⊢
      by_cases h : indexPlace m.length i < m.length
      · rw [List.getElem?_eq_getElem h, List.getElem?_eq_getElem (hlen ▸ h)]
        simpa using ih
      · rw [List.getElem?_eq_none (by omega), List.getElem?_eq_none (by omega)]
        exact ih

/-- `slabs[idx], anchor[idx]`. -/
def Pxq4Pair.indexPanels (pair : Pxq4Pair) (idx : List Int) : Pxq4Pair where
  S := pair.S
  slabs := fancyIndex idx pair.slabs
  anchor := fancyIndex idx pair.anchor
  length_panel := fun panel h => pair.length_panel panel (mem_of_mem_fancyIndex h)
  length_slab := fun panel h => pair.length_slab panel (mem_of_mem_fancyIndex h)
  length_anchor := length_fancyIndex_congr idx pair.length_anchor
  length_header := fun hdr h => pair.length_header hdr (mem_of_mem_fancyIndex h)

/-- `gather_panels`. -/
def gatherPanels (pair : Pxq4Pair) (panel_index : List Int) : Except String Pxq4Pair :=
  (assertPermutation panel_index pair.P "panel gather").map pair.indexPanels

/-- `slabs[:, idx]` with the anchor of before. -/
def Pxq4Pair.indexSlabs (pair : Pxq4Pair) (idx : List Int) : Pxq4Pair where
  S := (fancyIndex idx (List.range pair.S)).length
  slabs := pair.slabs.map (fancyIndex idx)
  anchor := pair.anchor
  length_panel := by
    intro panel h
    obtain ⟨whole, hw, rfl⟩ := List.mem_map.mp h
    refine length_fancyIndex_congr idx ?_
    rw [pair.length_panel whole hw, List.length_range]
  length_slab := by
    intro panel h slab hs
    obtain ⟨whole, hw, rfl⟩ := List.mem_map.mp h
    exact pair.length_slab whole hw slab (mem_of_mem_fancyIndex hs)
  length_anchor := by rw [List.length_map, pair.length_anchor]
  length_header := pair.length_header

/-- `gather_slabs`, with the anchor its callers put next to the result. -/
def gatherSlabs (pair : Pxq4Pair) (slab_index : List Int) : Except String Pxq4Pair :=
  (assertPermutation slab_index pair.S "slab gather").map pair.indexSlabs

/-! ### The decoder -/

section
variable {α : Type} [Mul α] (tabs : PxqTables α)

/-- The 32 values of row `r` in one slab, for the row's anchor. -/
def dequantBlock (r : Nat) (anch : α) (slab : List UInt8) : List α :=
  let sb := (slab.getD r 0).toNat
  let eff_lo := anch * tabs.sub16 (sb &&& 0x0F)
  let eff_hi := anch * tabs.sub16 (sb >>> 4)
  (List.range SLAB_COLS).map fun i =>
    let code := (slab.getD (CODE_OFF + r * CODE_BYTES + i / 2) 0).toNat
    let val := if i % 2 = 0 then tabs.px16Book (code &&& 0x0F) else tabs.px16Book (code >>> 4)
    val * if i < 16 then eff_lo else eff_hi

/-- The 64 rows of one panel. -/
def dequantPanel (panel : List (List UInt8) × List UInt16) : List (List α) :=
  (List.range PANEL_ROWS).map fun r =>
    panel.1.flatMap (dequantBlock tabs r (tabs.fp16ToFp32 (panel.2.getD r 0)))

/-- `dequant` of `reference.py`: the `P * 64` rows of `S * 32` values. -/
def dequant (pair : Pxq4Pair) : List (List α) :=
  (pair.slabs.zip pair.anchor).flatMap (dequantPanel tabs)

end

end PxqLlama.Pxq
