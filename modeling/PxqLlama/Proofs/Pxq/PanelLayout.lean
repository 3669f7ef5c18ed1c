import PxqLlama.Pxq.PanelLayout

/-!
# `Proofs.Pxq.PanelLayout`: splitting and moving whole panels and slabs

`split_blob` followed by `join_blob` is the identity on the bytes (`joinBlob_splitBlob`).

The decoder makes 64 rows of a panel and 32 columns of a slab. A slice of panels is therefore a
slice of rows (`dequant_slicePanels`), and a slice of slabs one of columns
(`dequant_sliceSlabs`). In the same way a gather of panels is a gather of rows
(`dequant_indexPanels`), and one of slabs a gather of columns (`dequant_indexSlabs`), where
`Gather.spread` is the step from the units to the elements.

An index array that passed `assert_permutation` is `ns.map Int.ofNat` for a permutation `ns` of
the places (`assertPermutation_eq_ok`), and an element gather that `gatherToUnits` accepts is
the spread of its result (`gatherToUnits_eq_ok`).
-/

namespace PxqLlama.Pxq

open Gather (rows gather spread scatter)

/-! ### Split and join -/

/-- Two bytes and back. -/
theorem viewU8_viewF16 (n : Nat) (bytes : List UInt8) (h : bytes.length = 2 * n) :
    viewU8 (viewF16 bytes) = bytes := by
  induction n generalizing bytes with
  | zero =>
      have hnil : bytes = [] := by simpa using h
      rw [hnil]
      rfl
  | succ n ih =>
      match bytes, h with
      | lo :: hi :: rest, h =>
        have hrest : rest.length = 2 * n := by simp only [List.length_cons] at h; omega
        have hlo : lo.toNat < 256 := lo.toNat_lt
        have hhi : hi.toNat < 256 := hi.toNat_lt
        have hword : (UInt16.ofNat (lo.toNat + 256 * hi.toNat)).toNat = lo.toNat + 256 * hi.toNat :=
          UInt16.toNat_ofNat_of_lt' (by show _ < 65536; omega)
        have hfst : UInt8.ofNat (lo.toNat + 256 * hi.toNat) = lo := by
          apply UInt8.toNat_inj.mp
          rw [UInt8.toNat_ofNat']
          omega
        have hsnd : UInt8.ofNat ((lo.toNat + 256 * hi.toNat) / 256) = hi := by
          apply UInt8.toNat_inj.mp
          rw [UInt8.toNat_ofNat']
          omega
        rw [viewF16]
        show [UInt8.ofNat _, UInt8.ofNat _] ++ viewU8 (viewF16 rest) = lo :: hi :: rest
        rw [hword, hfst, hsnd, ih rest hrest]
        rfl

/-- The bytes of one panel, cut into its header and its slabs and put together again. -/
theorem join_panel {S : Nat} {row : List UInt8}
    (h : row.length = HEADER_BYTES + S * SLAB_BYTES) :
    viewU8 (viewF16 (row.take HEADER_BYTES)) ++ (rows SLAB_BYTES S (row.drop HEADER_BYTES)).flatten
      = row := by
  have hhdr : (row.take HEADER_BYTES).length = 2 * PANEL_ROWS := by
    rw [List.length_take, h]
    show min 128 (128 + S * SLAB_BYTES) = 2 * 64
    omega
  have hslabs : (row.drop HEADER_BYTES).length = S * SLAB_BYTES := by
    rw [List.length_drop, h, Nat.add_sub_cancel_left]
  rw [viewU8_viewF16 PANEL_ROWS _ hhdr, Gather.flatten_rows hslabs, List.take_append_drop]

/-- Splitting a blob into panels and joining them is the identity. -/
theorem joinBlob_splitPanels (P S : Nat) (a : List UInt8)
    (ha : a.length = P * (HEADER_BYTES + S * SLAB_BYTES)) :
    joinBlob (splitPanels P S a ha) = a := by
  have hzip : (splitPanels P S a ha).anchor.zip (splitPanels P S a ha).slabs
      = (rows (HEADER_BYTES + S * SLAB_BYTES) P a).map fun row =>
          (viewF16 (row.take HEADER_BYTES), rows SLAB_BYTES S (row.drop HEADER_BYTES)) :=
    List.zip_map'
  rw [joinBlob, hzip, List.map_map]
  have hrows : ((rows (HEADER_BYTES + S * SLAB_BYTES) P a).map
      ((fun x : List UInt16 × List (List UInt8) => viewU8 x.1 ++ x.2.flatten) ∘ fun row =>
        (viewF16 (row.take HEADER_BYTES), rows SLAB_BYTES S (row.drop HEADER_BYTES))))
      = rows (HEADER_BYTES + S * SLAB_BYTES) P a := by
    conv_rhs => rw [← List.map_id (rows (HEADER_BYTES + S * SLAB_BYTES) P a)]
    exact List.map_congr_left fun row hrow => join_panel (Gather.length_of_mem_rows ha hrow)
  exact (congrArg List.flatten hrows).trans (Gather.flatten_rows ha)

/-- What `tensor_bytes` gives, and when. -/
theorem tensorBytes_eq_ok {N K n : Int} (h : tensorBytes N K = .ok n) :
    0 < N ∧ 0 < K ∧ N % PANEL_ROWS = 0 ∧ K % SLAB_COLS = 0 ∧ assertGeometry N K = .ok () ∧
      n = N / PANEL_ROWS * (HEADER_BYTES + K / SLAB_COLS * SLAB_BYTES) := by
  unfold tensorBytes at h
  by_cases hpos : N ≤ 0 ∨ K ≤ 0
  · simp [assertGeometry, hpos, bind, Except.bind] at h
  by_cases hN : N % PANEL_ROWS = 0
  · by_cases hK : K % SLAB_COLS = 0
    · have hok : assertGeometry N K = .ok () := by simp [assertGeometry, hpos, hN, hK]
      have hpanel : panelBytes K = .ok (HEADER_BYTES + K / SLAB_COLS * SLAB_BYTES) := by
        simp [panelBytes, hK]
      rw [hok, hpanel] at h
      refine ⟨by omega, by omega, hN, hK, hok, ?_⟩
      exact (Except.ok.inj h).symm
    · simp [assertGeometry, hpos, hN, hK, bind, Except.bind] at h
  · simp [assertGeometry, hpos, hN, bind, Except.bind] at h

/-- A blob of `tensor_bytes(N, K)` bytes is split into `N / 64` panels of `K / 32` slabs, and
joining gives the blob back. -/
theorem joinBlob_splitBlob {N K : Int} {blob : List UInt8}
    (h : tensorBytes N K = .ok (blob.length : Int)) :
    ∃ pair, splitBlob blob N K = .ok pair ∧ (pair.P : Int) = N / PANEL_ROWS ∧
      (pair.S : Int) = K / SLAB_COLS ∧ joinBlob pair = blob := by
  obtain ⟨hN, hK, -, -, hok, hlen⟩ := tensorBytes_eq_ok h
  have hP : ((N / PANEL_ROWS).toNat : Int) = N / PANEL_ROWS :=
    Int.toNat_of_nonneg (Int.ediv_nonneg (by omega) (Int.natCast_nonneg _))
  have hS : ((K / SLAB_COLS).toNat : Int) = K / SLAB_COLS :=
    Int.toNat_of_nonneg (Int.ediv_nonneg (by omega) (Int.natCast_nonneg _))
  have hnat : blob.length
      = (N / PANEL_ROWS).toNat * (HEADER_BYTES + (K / SLAB_COLS).toNat * SLAB_BYTES) := by
    have hcast : (blob.length : Int)
        = (N / PANEL_ROWS).toNat * (HEADER_BYTES + (K / SLAB_COLS).toNat * SLAB_BYTES) := by
      rw [hP, hS, hlen]
    exact_mod_cast hcast
  refine ⟨splitPanels _ _ blob hnat, ?_, ?_, hS, joinBlob_splitPanels _ _ blob hnat⟩
  · have hfits : ¬ (blob.length : Int) ≠ (blob.length : Int) := fun hne => hne rfl
    simp only [splitBlob, hok, h, bind, Except.bind, if_neg hfits, dif_pos hnat]
  · have hlenP : (splitPanels (N / PANEL_ROWS).toNat (K / SLAB_COLS).toNat blob hnat).P
        = (N / PANEL_ROWS).toNat := by
      show ((rows _ _ blob).map _).length = _
      rw [List.length_map, Gather.length_rows]
    rw [hlenP, hP]

/-! ### Slices -/

/-- `Int.toNat` of a multiple. -/
theorem toNat_natCast_mul (b : Nat) (i : Int) : ((b : Int) * i).toNat = b * i.toNat := by
  rcases Int.le_total 0 i with hi | hi
  · rw [Int.toNat_mul (Int.natCast_nonneg b) hi, Int.toNat_natCast]
  · have hmul : (b : Int) * i ≤ 0 := Int.mul_nonpos_of_nonneg_of_nonpos (Int.natCast_nonneg b) hi
    rw [Int.toNat_of_nonpos hmul, Int.toNat_of_nonpos hi, Nat.mul_zero]

/-- A bound in whole blocks. -/
theorem sliceBound_mul {b : Nat} (hb : 0 < b) (n : Nat) (i : Int) :
    sliceBound (b * n) (b * i) = b * sliceBound n i := by
  have hsign : (b : Int) * i < 0 ↔ i < 0 := by
    constructor
    · intro h
      refine Int.not_le.mp fun hi => ?_
      exact Int.not_le.mpr h (Int.mul_nonneg (Int.natCast_nonneg b) hi)
    · intro h
      exact Int.mul_neg_of_pos_of_neg (Int.natCast_pos.mpr hb) h
  unfold sliceBound
  by_cases hi : i < 0
  · rw [if_pos hi, if_pos (hsign.mpr hi), Int.natCast_mul, ← Int.mul_add, toNat_natCast_mul]
  · rw [if_neg hi, if_neg (fun h => hi (hsign.mp h)), toNat_natCast_mul,
      Nat.mul_min_mul_left]

section
variable {β γ : Type}

/-- A slice from a whole block to a whole block is a slice of the blocks. -/
theorem pySlice_flatMap {f : β → List γ} {b : Nat} (hb : 0 < b) {l : List β}
    (hf : ∀ x ∈ l, (f x).length = b) (i j : Int) :
    pySlice (l.flatMap f) (b * i) (b * j) = (pySlice l i j).flatMap f := by
  have hfront : ∀ x ∈ l.take (sliceBound l.length j), (f x).length = b :=
    fun x hx => hf x (List.mem_of_mem_take hx)
  rw [pySlice, Gather.length_flatMap_uniform hf, sliceBound_mul hb, sliceBound_mul hb,
    Gather.take_flatMap hf, Gather.drop_flatMap hfront]
  rfl

/-- Two sequences of one length are sliced together. -/
theorem pySlice_zip {l : List β} {m : List γ} (hlen : l.length = m.length) (i j : Int) :
    pySlice (l.zip m) i j = (pySlice l i j).zip (pySlice m i j) := by
  have hzip : (l.zip m).length = m.length := by rw [List.length_zip, hlen, Nat.min_self]
  rw [pySlice, pySlice, pySlice, hzip, hlen]
  show ((List.zipWith Prod.mk l m).take _).drop _ = List.zipWith Prod.mk _ _
  rw [List.take_zipWith, List.drop_zipWith]

end

section
variable {α : Type} [Mul α] (tabs : PxqTables α)

@[simp] theorem length_dequantBlock (r : Nat) (anch : α) (slab : List UInt8) :
    (dequantBlock tabs r anch slab).length = SLAB_COLS := by
  simp [dequantBlock]

@[simp] theorem length_dequantPanel (panel : List (List UInt8) × List UInt16) :
    (dequantPanel tabs panel).length = PANEL_ROWS := by
  simp [dequantPanel]

/-- A slice of panels is a slice of rows. -/
theorem dequant_slicePanels (pair : Pxq4Pair) (p0 p1 : Int) :
    dequant tabs (pair.slicePanels p0 p1)
      = pySlice (dequant tabs pair) (PANEL_ROWS * p0) (PANEL_ROWS * p1) := by
  rw [dequant, dequant, pySlice_flatMap (by decide) fun panel _ => length_dequantPanel tabs panel,
    pySlice_zip pair.length_anchor.symm]
  rfl

/-- What is done to the slabs of every panel is done to every row, if it is so for one row of
one panel. -/
theorem dequant_map_slabs {pair : Pxq4Pair} {f : List (List UInt8) → List (List UInt8)}
    {g : List α → List α}
    (h : ∀ panel ∈ pair.slabs, ∀ (r : Nat) (anch : α),
      (f panel).flatMap (dequantBlock tabs r anch) = g (panel.flatMap (dequantBlock tabs r anch))) :
    ((pair.slabs.map f).zip pair.anchor).flatMap (dequantPanel tabs)
      = (dequant tabs pair).map g := by
  rw [dequant, List.zip_map_left, List.flatMap_map, List.map_flatMap]
  refine List.flatMap_congr fun panel hp => ?_
  show List.map _ (List.range PANEL_ROWS) = List.map g (List.map _ (List.range PANEL_ROWS))
  rw [List.map_map]
  exact List.map_congr_left fun r _ => h panel.1 (List.of_mem_zip hp).1 r _

/-- A slice of slabs is a slice of columns. -/
theorem dequant_sliceSlabs (pair : Pxq4Pair) (s0 s1 : Int) :
    dequant tabs (pair.sliceSlabs s0 s1)
      = (dequant tabs pair).map fun row => pySlice row (SLAB_COLS * s0) (SLAB_COLS * s1) := by
  refine dequant_map_slabs tabs fun panel _ r anch => ?_
  exact (pySlice_flatMap (by decide)
    (fun slab _ => length_dequantBlock tabs r anch slab) s0 s1).symm

end

/-! ### Index arrays -/

/-- The place of an entry that does not count from the end. -/
theorem fancyIndex_ofNat {β : Type} (ns : List Nat) (l : List β) :
    fancyIndex (ns.map Int.ofNat) l = gather ns l := by
  rw [fancyIndex, List.filterMap_map]
  rfl

theorem fancyAssignFrom_ofNat (k : Nat) (ns inv : List Nat) :
    fancyAssignFrom k (ns.map Int.ofNat) (inv.map Int.ofNat)
      = (Gather.scatterFrom k ns inv).map Int.ofNat := by
  induction ns generalizing k inv with
  | nil => rfl
  | cons i ns ih =>
      have hset : (inv.map Int.ofNat).set (indexPlace (inv.map Int.ofNat).length (Int.ofNat i)) k
          = (inv.set i k).map Int.ofNat := List.map_set.symm
      rw [List.map_cons, fancyAssignFrom, hset, ih, Gather.scatterFrom]

theorem unpermuteIndex_ofNat (ns : List Nat) :
    unpermuteIndex (ns.map Int.ofNat)
      = (scatter ns (List.replicate ns.length 0)).map Int.ofNat := by
  have hzero : List.replicate ns.length (0 : Int)
      = (List.replicate ns.length 0).map Int.ofNat := by
    rw [List.map_replicate]
    rfl
  rw [unpermuteIndex, List.length_map, hzero, fancyAssignFrom_ofNat]
  rfl

/-- An index array passes `assert_permutation` when it is a permutation of the places, and is
not changed by it. -/
theorem assertPermutation_eq_ok {index idx : List Int} {n : Nat} {what : String} :
    assertPermutation index n what = .ok idx ↔
      idx = index ∧ ∃ ns : List Nat, index = ns.map Int.ofNat ∧ ns.Perm (List.range n) := by
  have hsorted : (arange n).Pairwise (· ≤ ·) := by
    refine List.pairwise_map.mpr ((List.pairwise_le_range).imp fun h => ?_)
    exact Int.ofNat_le.mpr h
  constructor
  · intro h
    unfold assertPermutation at h
    split at h
    · cases h
    · split at h
      · cases h
      · next hlen hsort =>
          have hperm : index.Perm (arange n) := by
            have := (List.perm_insertionSort (· ≤ ·) index).symm
            rwa [Decidable.not_not.mp hsort] at this
          refine ⟨(Except.ok.inj h).symm, index.map Int.toNat, ?_, ?_⟩
          · rw [List.map_map]
            conv_lhs => rw [← List.map_id index]
            refine List.map_congr_left fun i hi => ?_
            obtain ⟨m, -, rfl⟩ := List.mem_map.mp (hperm.mem_iff.mp hi)
            rfl
          · have hmap := hperm.map Int.toNat
            rwa [arange, List.map_map, show Int.toNat ∘ Int.ofNat = id from rfl,
              List.map_id] at hmap
  · rintro ⟨rfl, ns, rfl, hns⟩
    have hperm : (ns.map Int.ofNat).Perm (arange n) := hns.map Int.ofNat
    have hlen : (ns.map Int.ofNat).length = n := by
      rw [List.length_map, hns.length_eq, List.length_range]
    have hsort : (ns.map Int.ofNat).insertionSort (· ≤ ·) = arange n :=
      ((List.perm_insertionSort _ _).trans hperm).eq_of_pairwise' (List.pairwise_insertionSort _ _)
        hsorted
    rw [assertPermutation, if_neg (not_not_intro hlen), if_neg (not_not_intro hsort)]

/-- The two gathers undo one another. -/
theorem assertPermutation_unpermuteIndex {index idx : List Int} {n : Nat} {what : String}
    (what' : String) (h : assertPermutation index n what = .ok idx) :
    assertPermutation (unpermuteIndex idx) n what' = .ok (unpermuteIndex idx) ∧
      ∀ {β : Type} (l : List β), l.length = n →
        fancyIndex (unpermuteIndex idx) (fancyIndex idx l) = l := by
  obtain ⟨rfl, ns, rfl, hns⟩ := assertPermutation_eq_ok.mp h
  have hlen : (List.replicate ns.length 0).length = n := by
    rw [List.length_replicate, hns.length_eq, List.length_range]
  rw [unpermuteIndex_ofNat]
  constructor
  · exact assertPermutation_eq_ok.mpr ⟨rfl, _, rfl, Gather.scatter_perm hns hlen⟩
  · intro β l hl
    rw [fancyIndex_ofNat, fancyIndex_ofNat]
    subst hl
    exact Gather.gather_scatter hns hlen

/-- Where the pieces of an element gather start, for a gather of units. -/
def starts (unit : Nat) (ns : List Nat) : List Int :=
  ns.map fun p : Nat => (p : Int) * unit

/-- The element gather of a gather of units, with the pieces `gatherToUnits` compares. -/
theorem map_ofNat_spread (unit : Nat) (ns : List Nat) :
    (spread unit ns).map Int.ofNat
      = (starts unit ns).flatMap fun b => (arange unit).map (b + ·) := by
  rw [spread, starts, List.map_flatMap, List.flatMap_map]
  refine List.flatMap_congr fun i _ => ?_
  rw [List.range'_eq_map_range, arange, List.map_map, List.map_map]
  refine List.map_congr_left fun t _ => ?_
  show ((unit * i + t : Nat) : Int) = (i : Int) * unit + (t : Int)
  rw [Int.natCast_add, Int.natCast_mul, Int.mul_comm]

@[simp] theorem length_arange (n : Nat) : (arange n).length = n := by simp [arange]

/-- The first entry of a piece of consecutive positions. -/
theorem headD_piece {unit : Nat} (hunit : 0 < unit) (b : Int) :
    ((arange unit).map (b + ·)).headD 0 = b := by
  obtain ⟨m, rfl⟩ := Nat.exists_eq_succ_of_ne_zero (Nat.ne_of_gt hunit)
  rw [arange, List.range_succ_eq_map]
  show b + 0 = b
  exact Int.add_zero b

section
variable {unit : Nat} {lenError : Nat → String} {alignError sourceError what : String}
  {g idx : List Int}

/-- An element gather is accepted exactly when it is the spread of a permutation of the units,
and the result is that permutation. -/
theorem gatherToUnits_eq_ok (hunit : 0 < unit) :
    gatherToUnits unit lenError alignError sourceError what g = .ok idx ↔
      ∃ ns : List Nat, idx = ns.map Int.ofNat ∧ ns.Perm (List.range ns.length) ∧
        g = (spread unit ns).map Int.ofNat := by
  constructor
  · intro h
    unfold gatherToUnits at h
    simp only at h
    split at h
    · cases h
    next hlen =>
    split at h
    · cases h
    next hpieces =>
    split at h
    · cases h
    next hsource =>
    obtain ⟨rfl, ns, hns, hperm⟩ := assertPermutation_eq_ok.mp h
    have hn : g.length = g.length / unit * unit := by
      have := Nat.div_add_mod g.length unit
      rw [Decidable.not_not.mp hlen, Nat.add_zero, Nat.mul_comm] at this
      exact this.symm
    have hcount : ns.length = g.length / unit := by
      rw [hperm.length_eq, List.length_range]
    refine ⟨ns, hns, hcount.symm ▸ hperm, ?_⟩
    -- The pieces start at multiples of `unit`, so the quotients give the starts back.
    generalize hbase : ((rows unit (g.length / unit) g).map fun piece => piece.headD 0) = base
      at hpieces hsource hns
    have hstarts : base = starts unit ns := by
      have hquot : starts unit ns = (ns.map Int.ofNat).map (· * (unit : Int)) := by
        rw [List.map_map]
        rfl
      rw [hquot, ← hns, List.map_map]
      conv_lhs => rw [← List.map_id base]
      refine List.map_congr_left fun b hb => ?_
      have hzero : b % unit = 0 := by
        by_contra hne
        exact hsource (List.any_eq_true.mpr ⟨b, hb, decide_eq_true hne⟩)
      exact (Int.ediv_mul_cancel (Int.dvd_of_emod_eq_zero hzero)).symm
    rw [map_ofNat_spread, ← hstarts, List.flatMap_def, ← Decidable.not_not.mp hpieces,
      Gather.flatten_rows hn]
  · rintro ⟨ns, rfl, hperm, rfl⟩
    have hlen : ((spread unit ns).map Int.ofNat).length = unit * ns.length := by
      rw [List.length_map, Gather.length_spread]
    have hdiv : unit * ns.length / unit = ns.length := Nat.mul_div_cancel_left _ hunit
    have hpieces : rows unit ns.length ((spread unit ns).map Int.ofNat)
        = (starts unit ns).map fun b => (arange unit).map (b + ·) := by
      have huniform : ∀ b ∈ starts unit ns, ((arange unit).map (b + ·)).length = unit :=
        fun b _ => by simp
      have hrows := Gather.rows_flatMap huniform
      rwa [← map_ofNat_spread, starts, List.length_map] at hrows
    have hstarts : (((starts unit ns).map fun b => (arange unit).map (b + ·)).map
        fun piece => piece.headD 0) = starts unit ns := by
      rw [List.map_map]
      conv_rhs => rw [← List.map_id (starts unit ns)]
      exact List.map_congr_left fun b _ => headD_piece hunit b
    have hsource : ((starts unit ns).any fun b => b % unit ≠ 0) = false := by
      refine List.any_eq_false.mpr fun b hb => ?_
      obtain ⟨p, -, rfl⟩ := List.mem_map.mp hb
      simp
    have hquot : (starts unit ns).map (· / (unit : Int)) = ns.map Int.ofNat := by
      rw [starts, List.map_map]
      refine List.map_congr_left fun p _ => ?_
      exact Int.mul_ediv_cancel _ (by omega)
    unfold gatherToUnits
    simp only [hlen, Nat.mul_mod_right, hdiv, hpieces, hstarts, hsource, hquot, ne_eq,
      not_true_eq_false, if_false, Bool.false_eq_true]
    exact assertPermutation_eq_ok.mpr ⟨rfl, ns, rfl, hperm⟩

end

/-! ### Gathers of panels and slabs -/

section
variable {α : Type} [Mul α] (tabs : PxqTables α)

/-- A gather of panels is a gather of rows. -/
theorem dequant_indexPanels (pair : Pxq4Pair) (ns : List Nat) :
    dequant tabs (pair.indexPanels (ns.map Int.ofNat))
      = fancyIndex ((spread PANEL_ROWS ns).map Int.ofNat) (dequant tabs pair) := by
  rw [fancyIndex_ofNat, dequant, dequant,
    Gather.gather_flatMap fun panel _ => length_dequantPanel tabs panel,
    Gather.gather_zip pair.length_anchor.symm]
  show ((fancyIndex _ pair.slabs).zip (fancyIndex _ pair.anchor)).flatMap _ = _
  rw [fancyIndex_ofNat, fancyIndex_ofNat]

/-- A gather of slabs is a gather of columns. -/
theorem dequant_indexSlabs (pair : Pxq4Pair) (ns : List Nat) :
    dequant tabs (pair.indexSlabs (ns.map Int.ofNat))
      = (dequant tabs pair).map (fancyIndex ((spread SLAB_COLS ns).map Int.ofNat)) := by
  refine dequant_map_slabs tabs fun panel _ r anch => ?_
  rw [fancyIndex_ofNat, fancyIndex_ofNat]
  exact (Gather.gather_flatMap (fun slab _ => length_dequantBlock tabs r anch slab) ns).symm

end

end PxqLlama.Pxq
