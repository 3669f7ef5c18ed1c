import PxqLlama.Dsv4.Snapshot

/-!
# `Proofs.Dsv4.Snapshot`: when a restore is exact

The snapshot is one list of rows that are added in turn (`snapshot_eq_addAll`). Two facts
about adding a row carry the rest: the saved bytes stay those of the tensors (`SnapInv`),
and the rows of the snapshot are the added ones that exist (`hasRow_addAll`). So a restore
puts the old bytes into every saved row and leaves every other byte alone
(`restore_apply`).

Restoring after a decode is then exact when every row that the decode writes is saved. For
the compressed streams both lists come from one plan. For the raw ring they do not: the
graph writes a row for every token, and the snapshot skips the tokens below position zero.
Such a token gets past `ggml_set_rows` when its position is a multiple of the ring size.
-/

namespace PxqLlama.Dsv4

variable {mem : Dsv4Memory} {data : TensorBytes} {b : LlamaBatch}

/-! ### The snapshot as one list of rows -/

/-- `dsv4_snap_add` for every entry of a list. -/
def addAll (mem : Dsv4Memory) (data : TensorBytes) (S : SpecSnapshot)
    (l : List (Nat × TensorId × Int)) : SpecSnapshot :=
  l.foldl (fun S x => dsv4SnapAdd mem data S x.1 x.2.1 x.2.2) S

theorem addAll_append (S : SpecSnapshot) (l l' : List (Nat × TensorId × Int)) :
    addAll mem data S (l ++ l') = addAll mem data (addAll mem data S l) l' := by
  rw [addAll, List.foldl_append]
  rfl

/-- The raw entries for a list of ring rows. -/
def rawAdds (mem : Dsv4Memory) (rows : List Int) : List (Nat × TensorId × Int) :=
  rows.flatMap fun row => (List.range mem.rawLayers).map fun j => (0, .rawK j, row)

/-- The entries of one stream. -/
def streamAdds (mem : Dsv4Memory) (b : LlamaBatch) (si : Dsv4Stream) :
    List (Nat × TensorId × Int) :=
  (List.range (mem.layers si)).flatMap fun j =>
    (((mem.s si).plan b).statePersistDstIdxs.flatMap fun dst : Nat =>
      [(si.toNat + 1, .stKv si j, (dst : Int)), (si.toNat + 1, .stScore si j, (dst : Int))]) ++
    ((mem.s si).plan b).stateWriteIdxs.map fun dst : Nat =>
      (si.toNat + 1, .k si j, (dst : Int))

theorem snapStream_eq (S : SpecSnapshot) (si : Dsv4Stream) :
    snapStream mem data b S si = addAll mem data S (streamAdds mem b si) := by
  rw [snapStream]
  split
  · rename_i h
    rw [streamAdds, h]
    rfl
  · simp only [addAll, streamAdds, List.foldl_flatMap, List.foldl_append, List.foldl_map,
      List.foldl_cons, List.foldl_nil]

variable (mem data b) in
/-- The ring rows of the first `k` tokens that are not below position zero, each once. -/
theorem snapRaw_eq (S : SpecSnapshot) (k : Nat) :
    ∃ seen : List Int,
      (List.range k).foldl (snapRawToken mem data b) (S, [])
        = (addAll mem data S (rawAdds mem seen), seen) ∧
      ∀ row, row ∈ seen ↔ ∃ i < k, 0 ≤ dsv4BatchPos b i ∧ rawKIdx mem.rawSize b i = row := by
  induction k with
  | zero => exact ⟨[], rfl, by simp⟩
  | succ k ih =>
    obtain ⟨seen, hfold, hmem⟩ := ih
    rw [List.range_succ, List.foldl_append, hfold, List.foldl_cons, List.foldl_nil]
    simp only [snapRawToken]
    -- Token `k` adds its row when it has one that no earlier token has.
    have hsucc : ∀ row, (∃ i < k + 1, 0 ≤ dsv4BatchPos b i ∧ rawKIdx mem.rawSize b i = row) ↔
        row ∈ seen ∨ (0 ≤ dsv4BatchPos b k ∧ rawKIdx mem.rawSize b k = row) := by
      intro row
      rw [hmem]
      constructor
      · rintro ⟨i, hi, h⟩
        rcases Nat.lt_succ_iff_lt_or_eq.mp hi with hik | rfl
        · exact Or.inl ⟨i, hik, h⟩
        · exact Or.inr h
      · rintro (⟨i, hi, h⟩ | h)
        · exact ⟨i, by omega, h⟩
        · exact ⟨k, by omega, h⟩
    by_cases hneg : dsv4BatchPos b k < 0
    · -- a token below position zero is skipped
      refine ⟨seen, by rw [if_pos hneg], fun row => ?_⟩
      rw [hsucc]
      constructor
      · exact Or.inl
      · rintro (h | ⟨h, _⟩)
        · exact h
        · omega
    · rw [if_neg hneg]
      by_cases hseen : (dsv4BatchPos b k).tmod mem.rawSize ∈ seen
      · refine ⟨seen, by rw [if_pos hseen], fun row => ?_⟩
        rw [hsucc]
        constructor
        · exact Or.inl
        · rintro (h | ⟨_, rfl⟩)
          · exact h
          · exact hseen
      · refine ⟨seen ++ [(dsv4BatchPos b k).tmod mem.rawSize], ?_, fun row => ?_⟩
        · have happend : rawAdds mem (seen ++ [(dsv4BatchPos b k).tmod mem.rawSize])
              = rawAdds mem seen ++ (List.range mem.rawLayers).map fun j =>
                (0, .rawK j, (dsv4BatchPos b k).tmod mem.rawSize) := by
            simp [rawAdds]
          rw [if_neg hseen, happend, addAll_append]
          congr 1
          simp only [addAll, List.foldl_map]
        · rw [hsucc, List.mem_append, List.mem_singleton]
          constructor
          · rintro (h | h)
            · exact Or.inl h
            · exact Or.inr ⟨by omega, h.symm⟩
          · rintro (h | ⟨_, h⟩)
            · exact Or.inl h
            · exact Or.inr h.symm

/-- The cleared snapshot. -/
def clearedSnapshot : SpecSnapshot := { valid := false, blob := [], rows := fun _ => [] }

theorem snapshot_eq_addAll (mem : Dsv4Memory) (data : TensorBytes) (b : LlamaBatch) :
    ∃ seen : List Int,
      llamaDsv4SpecSnapshot mem data b
        = { addAll mem data clearedSnapshot (rawAdds mem seen ++ (streamAdds mem b .csa ++
            (streamAdds mem b .hca ++ streamAdds mem b .lid))) with valid := true } ∧
      ∀ row, row ∈ seen ↔
        ∃ i < b.nTokens, 0 ≤ dsv4BatchPos b i ∧ rawKIdx mem.rawSize b i = row := by
  obtain ⟨seen, hfold, hmem⟩ := snapRaw_eq mem data b clearedSnapshot b.nTokens
  refine ⟨seen, ?_, hmem⟩
  rw [clearedSnapshot] at hfold
  simp only [llamaDsv4SpecSnapshot, hfold, List.foldl_cons, List.foldl_nil, snapStream_eq,
    addAll_append, clearedSnapshot]

/-! ### What the snapshot holds -/

/-- Each saved row is a row of its tensor, and its part of the blob holds the bytes that
the tensors had. -/
structure SnapInv (mem : Dsv4Memory) (data : TensorBytes) (S : SpecSnapshot) : Prop where
  row : ∀ c, ∀ r ∈ S.rows c, ∃ row : Nat, r.off = row * mem.nb1 r.t
  len : ∀ c, ∀ r ∈ S.rows c, r.len = mem.nb1 r.t
  fits : ∀ c, ∀ r ∈ S.rows c, r.blobOff + r.len ≤ S.blob.length
  bytes : ∀ c, ∀ r ∈ S.rows c,
    (S.blob.drop r.blobOff).take r.len = tensorGet data r.t r.off r.len

/-- Row `row` of tensor `t` is saved. -/
def HasRow (mem : Dsv4Memory) (S : SpecSnapshot) (t : TensorId) (row : Nat) : Prop :=
  ∃ c < 4, ∃ r ∈ S.rows c, r.t = t ∧ r.off = row * mem.nb1 t

variable {S : SpecSnapshot} {t : TensorId} {row : Int}

/-- The rows of a component after one `dsv4_snap_add`: the new row is the last one of its
component. -/
theorem mem_rows_dsv4SnapAdd {comp c : Nat} {r : SavedRow}
    (h : r ∈ (dsv4SnapAdd mem data S comp t row).rows c) :
    r ∈ S.rows c ∨ (c = comp ∧ 0 ≤ row ∧ row < mem.ne1 t ∧
      r = ⟨t, row.toNat * mem.nb1 t, mem.nb1 t, S.blob.length⟩) := by
  rw [dsv4SnapAdd] at h
  split at h
  · exact Or.inl h
  · rename_i hrange
    by_cases hc : c = comp
    · rw [hc] at h ⊢
      simp only [Function.update_self, List.mem_append, List.mem_singleton] at h
      rcases h with h | h
      · exact Or.inl h
      · exact Or.inr ⟨rfl, by omega, by omega, h⟩
    · simp only [Function.update_of_ne hc] at h
      exact Or.inl h

theorem tensorGet_length (data : TensorBytes) (t : TensorId) (off len : Nat) :
    (tensorGet data t off len).length = len := by
  simp [tensorGet]

/-- Saving a row keeps the buffers as long as their rows and right. -/
theorem snapInv_dsv4SnapAdd (h : SnapInv mem data S) (comp : Nat) (t : TensorId) (row : Int) :
    SnapInv mem data (dsv4SnapAdd mem data S comp t row) := by
  by_cases hrange : row < 0 ∨ (mem.ne1 t : Int) ≤ row
  · rw [dsv4SnapAdd, if_pos hrange]
    exact h
  · -- The blob grows at its end, so the saved parts of it stay.
    have hblob : (dsv4SnapAdd mem data S comp t row).blob
        = S.blob ++ tensorGet data t (row.toNat * mem.nb1 t) (mem.nb1 t) := by
      rw [dsv4SnapAdd, if_neg hrange]
    refine ⟨?_, ?_, ?_, ?_⟩
    · intro c r hr
      rcases mem_rows_dsv4SnapAdd hr with hr | ⟨-, -, -, rfl⟩
      · exact h.row c r hr
      · exact ⟨row.toNat, rfl⟩
    · intro c r hr
      rcases mem_rows_dsv4SnapAdd hr with hr | ⟨-, -, -, rfl⟩
      · exact h.len c r hr
      · rfl
    · intro c r hr
      rw [hblob, List.length_append, tensorGet_length]
      rcases mem_rows_dsv4SnapAdd hr with hr | ⟨-, -, -, rfl⟩
      · have := h.fits c r hr
        omega
      · exact Nat.le_refl _
    · intro c r hr
      rw [hblob]
      rcases mem_rows_dsv4SnapAdd hr with hr | ⟨-, -, -, rfl⟩
      · have hfits := h.fits c r hr
        rw [List.drop_append_of_le_length (by omega), List.take_append_of_le_length
          (by rw [List.length_drop]; omega)]
        exact h.bytes c r hr
      · -- the new part is the end of the blob
        rw [List.drop_left]
        exact List.take_of_length_le (by rw [tensorGet_length])

/-- It saves that row and keeps those that were saved. -/
theorem hasRow_dsv4SnapAdd {comp : Nat} (hcomp : comp < 4) {t₀ : TensorId} {row₀ : Int}
    {row : Nat} :
    HasRow mem (dsv4SnapAdd mem data S comp t₀ row₀) t row ↔
      HasRow mem S t row ∨ (t₀ = t ∧ row₀ = row ∧ row < mem.ne1 t) := by
  have hnb1 := mem.nb1_pos
  constructor
  · rintro ⟨c, hc, r, hr, hrt, hoff⟩
    rcases mem_rows_dsv4SnapAdd hr with hr | ⟨-, h0, hlt, rfl⟩
    · exact Or.inl ⟨c, hc, r, hr, hrt, hoff⟩
    · right
      obtain rfl : t₀ = t := hrt
      -- Rows have a positive width, so the offset determines the row.
      have hrow : row₀.toNat = row := Nat.eq_of_mul_eq_mul_right (hnb1 _) hoff
      exact ⟨rfl, by omega, by omega⟩
  · rintro (⟨c, hc, r, hr, hrt, hoff⟩ | ⟨rfl, rfl, hlt⟩)
    · refine ⟨c, hc, r, ?_, hrt, hoff⟩
      rw [dsv4SnapAdd]
      split
      · exact hr
      · show r ∈ Function.update S.rows comp _ c
        by_cases hcc : c = comp
        · rw [hcc] at hr ⊢
          rw [Function.update_self]
          exact List.mem_append_left _ hr
        · rwa [Function.update_of_ne hcc]
    · refine ⟨comp, hcomp, ⟨t₀, row * mem.nb1 t₀, mem.nb1 t₀, S.blob.length⟩, ?_, rfl, rfl⟩
      rw [dsv4SnapAdd, if_neg (by omega)]
      simp

theorem snapInv_addAll (h : SnapInv mem data S) (l : List (Nat × TensorId × Int)) :
    SnapInv mem data (addAll mem data S l) := by
  induction l generalizing S with
  | nil => exact h
  | cons x l ih => exact ih (snapInv_dsv4SnapAdd h x.1 x.2.1 x.2.2)

theorem hasRow_addAll {l : List (Nat × TensorId × Int)} (hl : ∀ x ∈ l, x.1 < 4) {row : Nat} :
    HasRow mem (addAll mem data S l) t row ↔
      HasRow mem S t row ∨ (row < mem.ne1 t ∧ ∃ c, (c, t, (row : Int)) ∈ l) := by
  induction l generalizing S with
  | nil => simp [addAll]
  | cons x l ih =>
    -- the head adds its row to the snapshot that the tail starts from
    have hx : x.1 < 4 := hl x (List.mem_cons_self ..)
    have ih := ih (fun x hx => hl x (List.mem_cons_of_mem _ hx))
      (S := dsv4SnapAdd mem data S x.1 x.2.1 x.2.2)
    rw [addAll, List.foldl_cons]
    rw [addAll] at ih
    rw [ih, hasRow_dsv4SnapAdd hx]
    constructor
    · rintro ((h | ⟨rfl, hrow, hlt⟩) | ⟨hlt, c, hc⟩)
      · exact Or.inl h
      · exact Or.inr ⟨hlt, x.1, by rw [← hrow]; exact List.mem_cons_self ..⟩
      · exact Or.inr ⟨hlt, c, List.mem_cons_of_mem _ hc⟩
    · rintro (h | ⟨hlt, c, hc⟩)
      · exact Or.inl (Or.inl h)
      · rcases List.mem_cons.mp hc with rfl | hc
        · exact Or.inl (Or.inr ⟨rfl, rfl, hlt⟩)
        · exact Or.inr ⟨hlt, c, hc⟩

/-! ### What a restore does -/

/-- A restore of all components gives each byte of a saved row its old value, and leaves
the other bytes alone. -/
theorem restore_apply (hvalid : S.valid = true) (h : SnapInv mem data S) (data' : TensorBytes)
    (a : TensorId × Nat) [Decidable (HasRow mem S a.1 (a.2 / mem.nb1 a.1))] :
    (llamaDsv4SpecRestore S 15 data').2 a
      = if HasRow mem S a.1 (a.2 / mem.nb1 a.1) then data a else data' a := by
  have hmask : ∀ c ∈ List.range 4, Nat.testBit 15 c = true := by decide
  -- All the stores of the restore, in order.
  have hrun : (llamaDsv4SpecRestore S 15 data').2
      = Stores.run ((List.range 4).flatMap fun c => (S.rows c).flatMap fun r =>
          (tensorGet data r.t r.off r.len).zipIdx.map fun vk => ((r.t, r.off + vk.2), vk.1))
        data' := by
    rw [llamaDsv4SpecRestore, if_neg (by rw [hvalid]; decide), ← Stores.foldl_run]
    refine List.foldl_ext _ _ _ (fun d c hc => ?_)
    rw [hmask c hc, if_neg (by decide), ← Stores.foldl_run]
    refine List.foldl_ext _ _ _ (fun d r hr => ?_)
    rw [tensorSet, h.bytes c r hr]
  -- A store puts back the byte of its address, which lies in a saved row.
  have hstore : ∀ w ∈ (List.range 4).flatMap (fun c => (S.rows c).flatMap fun r =>
      (tensorGet data r.t r.off r.len).zipIdx.map fun vk => ((r.t, r.off + vk.2), vk.1)),
      w.2 = data w.1 ∧ HasRow mem S w.1.1 (w.1.2 / mem.nb1 w.1.1) := by
    intro w hw
    obtain ⟨c, hc, hw⟩ := List.mem_flatMap.mp hw
    obtain ⟨r, hr, hw⟩ := List.mem_flatMap.mp hw
    obtain ⟨⟨v, k⟩, hvk, rfl⟩ := List.mem_map.mp hw
    obtain ⟨hk, hv⟩ := List.mem_zipIdx' hvk
    rw [tensorGet_length, h.len c r hr] at hk
    obtain ⟨row, hrow⟩ := h.row c r hr
    have hdiv : (row * mem.nb1 r.t + k) / mem.nb1 r.t = row := by
      rw [Nat.mul_comm, Nat.mul_add_div (mem.nb1_pos r.t), Nat.div_eq_of_lt hk, Nat.add_zero]
    refine ⟨?_, c, List.mem_range.mp hc, r, hr, rfl, ?_⟩
    · simp [hv, tensorGet]
    · show r.off = (r.off + k) / mem.nb1 r.t * mem.nb1 r.t
      rw [hrow, hdiv]
  rw [hrun]
  by_cases hsaved : HasRow mem S a.1 (a.2 / mem.nb1 a.1)
  · rw [if_pos hsaved]
    refine Stores.run_apply_of_forall_eq _ (fun w hw hwa => ?_) ?_
    · rw [(hstore w hw).1, hwa]
    · obtain ⟨c, hc, r, hr, hrt, hoff⟩ := hsaved
      have hk : a.2 % mem.nb1 a.1 < mem.nb1 a.1 := Nat.mod_lt _ (mem.nb1_pos _)
      have hoffk : r.off + a.2 % mem.nb1 a.1 = a.2 := by
        rw [hoff, Nat.div_add_mod']
      refine ⟨((r.t, r.off + a.2 % mem.nb1 a.1), data (r.t, r.off + a.2 % mem.nb1 a.1)), ?_, ?_⟩
      · refine List.mem_flatMap.mpr ⟨c, List.mem_range.mpr hc, List.mem_flatMap.mpr ⟨r, hr,
          List.mem_map.mpr ⟨(data (r.t, r.off + a.2 % mem.nb1 a.1), a.2 % mem.nb1 a.1), ?_, rfl⟩⟩⟩
        rw [List.mem_zipIdx_iff_getElem?]
        have hlen := h.len c r hr
        rw [hrt] at hlen
        simp [tensorGet, hlen, hk]
      · show (r.t, r.off + a.2 % mem.nb1 a.1) = a
        rw [hoffk, hrt]
  · rw [if_neg hsaved]
    refine Stores.run_apply_of_forall_ne _ (fun w hw hwa => hsaved ?_)
    rw [← hwa]
    exact (hstore w hw).2

/-- The rows that the snapshot looks at, for each tensor: those of `setRowsIdxs`, but for
the raw ring only the rows of the tokens that are not below position zero. -/
def savedIdxs (mem : Dsv4Memory) (b : LlamaBatch) : TensorId → List Int
  | .rawK j =>
    if j < mem.rawLayers then
      ((List.range b.nTokens).filter fun i => 0 ≤ dsv4BatchPos b i).map (rawKIdx mem.rawSize b)
    else []
  | .k si j => setRowsIdxs mem b (.k si j)
  | .stKv si j => setRowsIdxs mem b (.stKv si j)
  | .stScore si j => setRowsIdxs mem b (.stScore si j)

theorem mem_streamAdds {si : Dsv4Stream} :
    (∃ c, (c, t, row) ∈ streamAdds mem b si) ↔
      ∃ j, (t = .k si j ∨ t = .stKv si j ∨ t = .stScore si j) ∧ row ∈ setRowsIdxs mem b t := by
  simp only [streamAdds, List.mem_flatMap, List.mem_append, List.mem_map, List.mem_range,
    List.mem_cons, Prod.mk.injEq, List.not_mem_nil, or_false]
  constructor
  · rintro ⟨c, j, hj, ⟨dst, hdst, ⟨-, rfl, rfl⟩ | ⟨-, rfl, rfl⟩⟩ | ⟨dst, hdst, -, rfl, rfl⟩⟩
    · exact ⟨j, Or.inr (Or.inl rfl), by
        rw [setRowsIdxs, if_pos hj]
        exact List.mem_map.mpr ⟨dst, hdst, rfl⟩⟩
    · exact ⟨j, Or.inr (Or.inr rfl), by
        rw [setRowsIdxs, if_pos hj]
        exact List.mem_map.mpr ⟨dst, hdst, rfl⟩⟩
    · exact ⟨j, Or.inl rfl, by
        rw [setRowsIdxs, if_pos hj]
        exact List.mem_map.mpr ⟨dst, hdst, rfl⟩⟩
  · rintro ⟨j, rfl | rfl | rfl, hrow⟩
    all_goals
      rw [setRowsIdxs] at hrow
      split at hrow
      · rename_i hj
        obtain ⟨dst, hdst, rfl⟩ := List.mem_map.mp hrow
        exact ⟨si.toNat + 1, j, hj, by grind⟩
      · cases hrow

theorem mem_rawAdds {rows : List Int} :
    (∃ c, (c, t, row) ∈ rawAdds mem rows) ↔ ∃ j < mem.rawLayers, t = .rawK j ∧ row ∈ rows := by
  simp only [rawAdds, List.mem_flatMap, List.mem_map, List.mem_range, Prod.mk.injEq]
  constructor
  · rintro ⟨c, row', hrow', j, hj, -, rfl, rfl⟩
    exact ⟨j, hj, rfl, hrow'⟩
  · rintro ⟨j, hj, rfl, hrow⟩
    exact ⟨0, row, hrow, j, hj, rfl, rfl, rfl⟩

/-- The rows of the snapshot. -/
theorem hasRow_snapshot {row : Nat} :
    HasRow mem (llamaDsv4SpecSnapshot mem data b) t row ↔
      row < mem.ne1 t ∧ (row : Int) ∈ savedIdxs mem b t := by
  obtain ⟨seen, hsnap, hseen⟩ := snapshot_eq_addAll mem data b
  have hcomp : ∀ x ∈ rawAdds mem seen ++ (streamAdds mem b .csa ++
      (streamAdds mem b .hca ++ streamAdds mem b .lid)), x.1 < 4 := by
    intro x hx
    simp only [rawAdds, streamAdds, List.mem_append, List.mem_flatMap, List.mem_map,
      List.mem_cons, List.not_mem_nil, or_false, Dsv4Stream.toNat] at hx
    grind
  have hcleared : ¬ HasRow mem clearedSnapshot t row := by
    rintro ⟨c, -, r, hr, -⟩
    cases hr
  have hrow : HasRow mem (llamaDsv4SpecSnapshot mem data b) t row ↔
      row < mem.ne1 t ∧ ∃ c, (c, t, (row : Int)) ∈ rawAdds mem seen ++ (streamAdds mem b .csa ++
        (streamAdds mem b .hca ++ streamAdds mem b .lid)) := by
    rw [hsnap]
    refine Iff.trans (hasRow_addAll hcomp) ?_
    rw [or_iff_right hcleared]
  rw [hrow]
  refine and_congr_right (fun _ => ?_)
  simp only [List.mem_append, exists_or, mem_streamAdds, mem_rawAdds, hseen]
  -- A tensor has entries in the list of its own component only.
  cases t with
  | rawK j =>
    rw [savedIdxs]
    by_cases hj : j < mem.rawLayers
    · rw [if_pos hj]
      simp [hj, and_assoc]
    · rw [if_neg hj]
      simp [hj]
  | k si j | stKv si j | stScore si j => cases si <;> simp [savedIdxs]

/-- A written row is saved unless it is the ring row of tokens below position zero alone. -/
theorem written_saved_iff :
    (∀ t, ∀ r ∈ setRowsIdxs mem b t, r ∈ savedIdxs mem b t) ↔
      ∀ i < b.nTokens, dsv4BatchPos b i < 0 → ∃ k < b.nTokens, 0 ≤ dsv4BatchPos b k ∧
        rawKIdx mem.rawSize b k = rawKIdx mem.rawSize b i := by
  constructor
  · intro h i hi _
    -- there is a raw layer, and its list names the row of every token
    have hmem := h (.rawK 0) (rawKIdx mem.rawSize b i) (by
      rw [setRowsIdxs, if_pos mem.rawLayers_pos]
      exact List.mem_map.mpr ⟨i, List.mem_range.mpr hi, rfl⟩)
    rw [savedIdxs, if_pos mem.rawLayers_pos] at hmem
    obtain ⟨k, hk, hrow⟩ := List.mem_map.mp hmem
    obtain ⟨hk, hpos⟩ := List.mem_filter.mp hk
    exact ⟨k, List.mem_range.mp hk, by simpa using hpos, hrow⟩
  · intro h t r hr
    cases t with
    | rawK j =>
      rw [setRowsIdxs] at hr
      rw [savedIdxs]
      split at hr
      · rename_i hj
        rw [if_pos hj]
        obtain ⟨i, hi, rfl⟩ := List.mem_map.mp hr
        -- a token below zero shares its row with one that is saved
        by_cases hneg : dsv4BatchPos b i < 0
        · obtain ⟨k, hk, hpos, hrow⟩ := h i (List.mem_range.mp hi) hneg
          rw [← hrow]
          exact List.mem_map.mpr ⟨k, List.mem_filter.mpr ⟨List.mem_range.mpr hk, by
            simpa using hpos⟩, rfl⟩
        · exact List.mem_map.mpr ⟨i, List.mem_filter.mpr ⟨hi, by simpa using hneg⟩, rfl⟩
      · cases hr
    | k | stKv | stScore => exact hr

theorem snapInv_snapshot (mem : Dsv4Memory) (data : TensorBytes) (b : LlamaBatch) :
    (llamaDsv4SpecSnapshot mem data b).valid = true ∧
      SnapInv mem data (llamaDsv4SpecSnapshot mem data b) := by
  obtain ⟨seen, hsnap, -⟩ := snapshot_eq_addAll mem data b
  have hcleared : SnapInv mem data clearedSnapshot := by
    refine ⟨?_, ?_, ?_, ?_⟩ <;> intro c r hr <;> cases hr
  have h := snapInv_addAll hcleared (rawAdds mem seen ++ (streamAdds mem b .csa ++
    (streamAdds mem b .hca ++ streamAdds mem b .lid)))
  rw [hsnap]
  exact ⟨rfl, h.row, h.len, h.fits, h.bytes⟩

/-- **When snapshot and restore are exact.** For every batch that can be decoded: whatever
the memory held and whatever the decode wrote, the restore of all four components gives
back every byte, exactly when each token below position zero has the ring row of a token
that is not. -/
theorem spec_restore_exact_iff (mem : Dsv4Memory) {b : LlamaBatch} (hdec : Decodable mem b) :
    (∀ data data', Decoded mem b data data' →
      llamaDsv4SpecRestore (llamaDsv4SpecSnapshot mem data b) 15 data' = (true, data)) ↔
    ∀ i < b.nTokens, dsv4BatchPos b i < 0 → ∃ k < b.nTokens, 0 ≤ dsv4BatchPos b k ∧
      rawKIdx mem.rawSize b k = rawKIdx mem.rawSize b i := by
  classical
  rw [← written_saved_iff]
  constructor
  · intro h t r hr
    obtain ⟨h0, hlt⟩ := hdec t r hr
    obtain ⟨row, rfl⟩ : ∃ row : Nat, r = row := ⟨r.toNat, by omega⟩
    by_contra hsaved
    -- A decode that changes the first byte of the row, and nothing else.
    set a : TensorId × Nat := (t, row * mem.nb1 t) with ha
    have hrow : a.2 / mem.nb1 a.1 = row := Nat.mul_div_cancel _ (mem.nb1_pos t)
    let data : TensorBytes := fun _ => 0
    let data' : TensorBytes := Function.update data a 1
    have hdecoded : Decoded mem b data data' := by
      intro a' ha'
      refine Function.update_of_ne (fun heq => ?_) _ _
      rw [heq, hrow] at ha'
      exact ha' hr
    have hrestore := h data data' hdecoded
    obtain ⟨hvalid, hinv⟩ := snapInv_snapshot mem data b
    have hbyte := restore_apply hvalid hinv data' a
    rw [if_neg (by rw [hasRow_snapshot, hrow]; exact fun h => hsaved h.2), hrestore] at hbyte
    simp [data, data'] at hbyte
  · intro h data data' hdecoded
    obtain ⟨hvalid, hinv⟩ := snapInv_snapshot mem data b
    refine Prod.ext ?_ ?_
    · rw [llamaDsv4SpecRestore, if_neg (by rw [hvalid]; decide)]
    · funext a
      rw [restore_apply hvalid hinv]
      split
      · rfl
      · -- The byte lies in no saved row, so in no written row either.
        rename_i hsaved
        refine hdecoded a (fun hwritten => hsaved ?_)
        have hlt := (hdec _ _ hwritten).2
        exact hasRow_snapshot.mpr ⟨by omega, h _ _ hwritten⟩

/-- A memory of one layer of each kind, with a ring of 256 rows. -/
def smallMemory : Dsv4Memory where
  rawSize := rawSize 2 2
  rawLayers := 1
  s := fun
    | .csa => csaStream false 2 16
    | .hca => hcaStream false 2 16
    | .lid => csaStream false 2 16
  layers := fun _ => 1
  nb1 := fun _ => 4
  rawSize_pos := by decide
  rawLayers_pos := Nat.one_pos
  nb1_pos := fun _ => by decide

/-- When a batch can be decoded over the small memory. -/
theorem decodable_smallMemory (b : LlamaBatch)
    (hraw : ∀ i < b.nTokens, 0 ≤ rawKIdx 256 b i ∧ rawKIdx 256 b i < 256)
    (hwrite : ∀ si, ∀ r ∈ ((smallMemory.s si).plan b).stateWriteIdxs,
      r < (smallMemory.s si).cacheSize)
    (hpersist : ∀ si, ∀ r ∈ ((smallMemory.s si).plan b).statePersistDstIdxs,
      r < (smallMemory.s si).stateSize) : Decodable smallMemory b := by
  intro t r hr
  cases t with
  | rawK j =>
    rw [setRowsIdxs] at hr
    split at hr
    · obtain ⟨i, hi, rfl⟩ := List.mem_map.mp hr
      exact hraw i (List.mem_range.mp hi)
    · cases hr
  | k si j =>
    rw [setRowsIdxs] at hr
    split at hr
    · obtain ⟨row, hrow, rfl⟩ := List.mem_map.mp hr
      exact ⟨by omega, by exact_mod_cast hwrite si row hrow⟩
    · cases hr
  | stKv si j =>
    rw [setRowsIdxs] at hr
    split at hr
    · obtain ⟨row, hrow, rfl⟩ := List.mem_map.mp hr
      exact ⟨by omega, by exact_mod_cast hpersist si row hrow⟩
    · cases hr
  | stScore si j =>
    rw [setRowsIdxs] at hr
    split at hr
    · obtain ⟨row, hrow, rfl⟩ := List.mem_map.mp hr
      exact ⟨by omega, by exact_mod_cast hpersist si row hrow⟩
    · cases hr

/-- The batch of one token at position `-256`: it can be decoded, the decode writes ring
row 0, and the snapshot has not saved it. -/
theorem spec_restore_loses_row_zero :
    let b := batchOfPositions [-256]
    Decodable smallMemory b ∧ ∃ data data', Decoded smallMemory b data data' ∧
      llamaDsv4SpecRestore (llamaDsv4SpecSnapshot smallMemory data b) 15 data' ≠ (true, data) := by
  intro b
  refine ⟨decodable_smallMemory b (by decide) ?_ ?_, fun _ => 0,
    Function.update (fun _ => 0) (.rawK 0, 0) 1, ?_, ?_⟩
  · intro si
    cases si <;> decide
  · intro si
    cases si <;> decide
  · intro a ha
    refine Function.update_of_ne (fun heq => ha ?_) _ _
    rw [heq]
    decide
  · intro h
    have hbyte := congrFun (congrArg Prod.snd h) (.rawK 0, 0)
    have hsame : (llamaDsv4SpecRestore (llamaDsv4SpecSnapshot smallMemory (fun _ => 0) b) 15
        (Function.update (fun _ => 0) (.rawK 0, 0) 1)).2 (.rawK 0, 0) = 1 := rfl
    rw [hsame] at hbyte
    exact absurd hbyte (by decide)

/-- Two tokens at position 2 and one at 3, over a memory of zeros: every written byte becomes
seven, and the restore brings the zeros back. -/
theorem spec_restore_exact_verify_batch :
    let b := batchOfPositions [2, 2, 3]
    let decoded : TensorBytes := fun a =>
      if ((a.2 / smallMemory.nb1 a.1 : Nat) : Int) ∈ setRowsIdxs smallMemory b a.1 then 7 else 0
    llamaDsv4SpecRestore (llamaDsv4SpecSnapshot smallMemory (fun _ => 0) b) 15 decoded
      = (true, fun _ => 0) := by
  intro b decoded
  have hdec : Decodable smallMemory b := by
    refine decodable_smallMemory b (by decide) ?_ ?_
    · intro si
      cases si <;> decide
    · intro si
      cases si <;> decide
  refine (spec_restore_exact_iff smallMemory hdec).mpr ?_ (fun _ => 0) decoded ?_
  · intro i hi hneg
    have hpos : ∀ i < 3, 0 ≤ dsv4BatchPos (batchOfPositions [2, 2, 3]) i := by decide
    exact absurd hneg (Int.not_lt.mpr (hpos i hi))
  · intro a ha
    exact if_neg ha

end PxqLlama.Dsv4
