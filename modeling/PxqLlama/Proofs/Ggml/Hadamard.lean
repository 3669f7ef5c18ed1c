import PxqLlama.Ggml.Hadamard
import PxqLlama.Lib.Attempt
import PxqLlama.Lib.Ranges
import Mathlib.Analysis.Real.Sqrt

/-!
# `Proofs.Ggml.Hadamard`: what the threads of the Hadamard op write

The loops of `pxa_fast_ht_f32` are the butterflies of the distances `1, 2, 4, ...`, so they are the
transform of `nh` values (`pxaFastHtF32_eq`). The ranges of the threads, one after the other, are
all numbers (`flatMap_threadChunks`), and the numbers are all chunks (`Call.chunks_eq`), so every
chunk is written once (`Call.allWrites_eq`), unless the sum of the chunks and the threads is not an
`int` (`Call.length_allWrites`).

What is left is what a chunk is made from. Blocks that are not larger than a chunk are loaded
(`Call.load_of_dvd`); of larger blocks `to_float` decodes none (`Call.load_of_not_dvd`), and the
chunk is made from what its place held before. `Call.transforms_iff_served` puts this together, and
`Call.twice` is about two ops one after the other.
-/

namespace PxqLlama.Ggml

/-! ### `pxa_fast_ht_f32` -/

theorem pxaIsPow2U32_iff {x : Nat} : pxaIsPow2U32 x = true ↔ ∃ k, x = 2 ^ k := by
  rw [← Nat.isPowerOfTwo, ← Nat.ne_zero_and_sub_one_eq_zero_iff_isPowerOfTwo]
  simp [pxaIsPow2U32]

/-- `h` runs through the powers below `n`. -/
theorem htSizes_two_pow (k : Nat) : htSizes (2 ^ k) = (List.range k).map (2 ^ ·) := by
  obtain ⟨d, hd⟩ := Nat.le.dest (Nat.le_of_lt (Nat.lt_two_pow_self (n := k)))
  have hlow : ∀ h ∈ (List.range k).map (2 ^ ·), decide (h < 2 ^ k) = true := by
    simp [Nat.pow_lt_pow_iff_right]
  rw [htSizes, ← hd, List.range_add, List.map_append, hd, List.takeWhile_append_of_pos hlow]
  cases d with
  | zero => simp
  | succ d => simp [List.range_succ_eq_map]

variable {k i : Nat} {c : Chunk}

/-- The lower members of the pairs are the indices without the digit. -/
theorem htPairs_two_pow {n : Nat} (hk : k < n) :
    htPairs (2 ^ n) (2 ^ k) = (List.range (2 ^ n)).filter fun j => !j.testBit k := by
  have hpos : 0 < 2 ^ (k + 1) := Nat.two_pow_pos _
  have hdouble : 2 * 2 ^ k = 2 ^ (k + 1) := by rw [Nat.pow_succ, Nat.mul_comm]
  have hn : 2 ^ n = 2 ^ (n - (k + 1)) * 2 ^ (k + 1) := by
    rw [← Nat.pow_add, Nat.sub_add_cancel hk]
  have hblocks : (2 ^ n + 2 * 2 ^ k - 1) / (2 * 2 ^ k) = 2 ^ (n - (k + 1)) := by
    rw [hdouble, hn, Nat.add_sub_assoc hpos, Nat.mul_comm, Nat.mul_add_div hpos,
      Nat.div_eq_of_lt (Nat.sub_lt hpos Nat.one_pos), Nat.add_zero]
  -- of the indices of a block the first half passes
  have hblock : ∀ b, ((List.range (2 ^ (k + 1))).flatMap fun r =>
      [b * 2 ^ (k + 1) + r].filter fun j => !j.testBit k)
        = (List.range (2 ^ k)).map (b * (2 * 2 ^ k) + ·) := by
    intro b
    have hbit : ∀ r < 2 ^ (k + 1), (b * 2 ^ (k + 1) + r).testBit k = r.testBit k := by
      intro r hr
      rw [Nat.mul_comm, Nat.testBit_two_pow_mul_add b hr, if_pos (Nat.lt_succ_self k)]
    have hsum : 2 ^ (k + 1) = 2 ^ k + 2 ^ k := by rw [Nat.pow_succ, Nat.mul_two]
    have hlow : ∀ r ∈ List.range (2 ^ k),
        ([b * 2 ^ (k + 1) + r].filter fun j => !j.testBit k) = [b * 2 ^ (k + 1) + r] := by
      intro r hr
      rw [List.mem_range] at hr
      have hoff : (b * 2 ^ (k + 1) + r).testBit k = false := by
        rw [hbit r (by omega), Nat.testBit_lt_two_pow hr]
      simp [hoff]
    have hhigh : ∀ r ∈ List.range (2 ^ k),
        ([b * 2 ^ (k + 1) + (2 ^ k + r)].filter fun j => !j.testBit k) = [] := by
      intro r hr
      rw [List.mem_range] at hr
      have hon : (b * 2 ^ (k + 1) + (2 ^ k + r)).testBit k = true := by
        rw [hbit _ (by omega), Nat.testBit_two_pow_add_eq, Nat.testBit_lt_two_pow hr, Bool.not_false]
      simp [hon]
    conv_lhs => rw [hsum]
    rw [RangeChunks.flatMap_range_add, ← hsum, List.flatMap_congr hlow, List.flatMap_congr hhigh,
      hdouble, List.map_eq_flatMap]
    simp
  rw [htPairs, hblocks, hn]
  have hsplit := RangeChunks.flatMap_range_mul (2 ^ (n - (k + 1))) (2 ^ (k + 1))
    fun j => [j].filter fun j => !j.testBit k
  rw [← List.filter_flatMap, List.flatMap_singleton'] at hsplit
  rw [hsplit]
  exact List.flatMap_congr fun b _ => (hblock b).symm

section

variable {R : Type} [CommRing R]

/-- One round of the loop over `h`. -/
theorem foldl_htPairs {n : Nat} (hk : k < n) (values : Nat → R) (hi : i < 2 ^ n) :
    (htPairs (2 ^ n) (2 ^ k)).foldl (Walsh.butterflyAt (2 ^ k)) values i =
      Walsh.butterfly k values i := by
  rw [htPairs_two_pow hk]
  have hoff : ∀ j ∈ (List.range (2 ^ n)).filter (fun j => !j.testBit k), j.testBit k = false := by
    simp
  have hnodup : ((List.range (2 ^ n)).filter fun j => !j.testBit k).Nodup :=
    List.nodup_range.filter _
  have hin : ∀ j < 2 ^ n, j.testBit k = false →
      j ∈ (List.range (2 ^ n)).filter fun j => !j.testBit k := by
    simp +contextual
  rw [Walsh.butterfly]
  rcases Walsh.index_cases k i with ⟨hbit, -, -⟩ | ⟨hbit, hle, -, -⟩
  · -- the lower member of its pair
    rw [(Walsh.foldl_butterflyAt hoff hnodup values hbit).1, if_pos (hin i hi hbit), hbit,
      if_neg Bool.false_ne_true]
  · -- the upper one
    have hlower : (i - 2 ^ k).testBit k = false := Walsh.testBit_lower hbit hle
    have hpair := (Walsh.foldl_butterflyAt hoff hnodup values hlower).2
    rw [Nat.sub_add_cancel hle] at hpair
    rw [hpair, if_pos (hin _ ((Nat.sub_le i _).trans_lt hi) hlower), hbit, if_pos rfl]

/-- After the distances below `2 ^ k` the values are transformed in blocks of length `2 ^ k`. -/
theorem foldl_htSizes (ksqrt2 : R) (values : Nat → R) {n : Nat} (hk : k ≤ n) :
    let done := ((List.range k).map (2 ^ ·)).foldl (fun st h =>
      ((htPairs (2 ^ n) h).foldl (Walsh.butterflyAt h) st.1, st.2 * ksqrt2)) (values, 1)
    (∀ i < 2 ^ n, done.1 i = Walsh.walsh k values i) ∧ done.2 = ksqrt2 ^ k := by
  induction k with
  | zero =>
    show (∀ i < 2 ^ n, values i = Walsh.walsh 0 values i) ∧ (1 : R) = ksqrt2 ^ 0
    rw [Walsh.walsh_zero, pow_zero]
    exact ⟨fun i _ => rfl, rfl⟩
  | succ k ih =>
    obtain ⟨hvalues, hscale⟩ := ih (Nat.le_of_lt hk)
    rw [List.range_succ, List.map_append, List.foldl_append]
    refine ⟨fun i hi => ?_, ?_⟩
    · show (htPairs (2 ^ n) (2 ^ k)).foldl (Walsh.butterflyAt (2 ^ k)) _ i = _
      rw [foldl_htPairs hk _ hi, Walsh.walsh_succ, Walsh.butterfly, Walsh.butterfly, hvalues i hi]
      -- both members of the pair lie below `2 ^ n`
      by_cases hbit : i.testBit k = true
      · rw [if_pos hbit, if_pos hbit, hvalues _ ((Nat.sub_le i _).trans_lt hi)]
      · rw [if_neg hbit, if_neg hbit,
          hvalues _ (Walsh.upper_lt hk hi (Bool.eq_false_iff.mpr hbit))]
    · show _ * ksqrt2 = _
      rw [hscale, pow_succ]

/-- The loops are the transform. -/
theorem pxaFastHtF32_eq (ksqrt2 : R) (k : Nat) (values : Nat → R) (hi : i < 2 ^ k) :
    pxaFastHtF32 ksqrt2 (2 ^ k) values i = ksqrt2 ^ k * Walsh.walsh k values i := by
  obtain ⟨hvalues, hscale⟩ := foldl_htSizes ksqrt2 values (Nat.le_refl k)
  rw [pxaFastHtF32, htSizes_two_pow]
  show (if i < 2 ^ k then _ * _ else _) = _
  rw [if_pos hi, hvalues i hi, hscale, mul_comm]

end

/-! ### The ranges of the threads -/

theorem intResult_eq_some {x : Int} (hlow : -2 ^ 31 ≤ x) (hhigh : x < 2 ^ 31) :
    intResult x = some x := if_pos ⟨by omega, by omega⟩

theorem intResult_value {x y : Int} (h : intResult x = some y) : y = x := by
  rw [intResult] at h
  split at h
  · exact (Option.some.inj h).symm
  · cases h

theorem castInt_of_lt {n : Nat} (h : n < 2 ^ 31) : castInt n = n :=
  Int.bmod_eq_of_le (by omega) (by omega)

section

variable {n nth : Nat} (hfit : n + nth < 2 ^ 31)

include hfit

/-- Nothing overflows, and a thread has a range of the length `npt`, cut off at the end. -/
theorem threadChunks_eq {ith : Nat} (hith : ith < nth) :
    threadChunks n nth ith =
      some ((List.range (min ((n + nth - 1) / nth) (n - ith * ((n + nth - 1) / nth)))).map
        fun i : Nat => ((ith * ((n + nth - 1) / nth) + i : Nat) : Int)) := by
  have hsum : intResult ((n : Int) + nth) = some ((n : Int) + nth) :=
    intResult_eq_some (by omega) (by omega)
  have hnpt : ((n : Int) + nth - 1).tdiv nth = ((n + nth - 1) / nth : Nat) := by
    rw [show (n : Int) + nth - 1 = ((n + nth - 1 : Nat) : Int) by omega, Int.ofNat_tdiv]
  have hdiv := Nat.div_mul_le_self (n + nth - 1) nth
  generalize (n + nth - 1) / nth = npt at hnpt hdiv ⊢
  -- the last thread ends before the sum
  have hstop : ith * npt + npt ≤ npt * nth := by
    rw [← Nat.succ_mul, Nat.mul_comm npt]
    exact Nat.mul_le_mul_right npt hith
  have hfirst : (npt : Int) * ith = ((ith * npt : Nat) : Int) := by
    rw [Nat.mul_comm]
    exact (Nat.cast_mul npt ith).symm
  generalize ith * npt = first at hstop hfirst ⊢
  have hfirstInt : intResult ((first : Nat) : Int) = some ((first : Nat) : Int) :=
    intResult_eq_some (by omega) (by omega)
  have hstopInt : intResult ((first : Int) + npt) = some ((first : Int) + npt) :=
    intResult_eq_some (by omega) (by omega)
  simp only [threadChunks, hsum, hnpt, hfirst, hfirstInt, hstopInt, Option.bind_eq_bind,
    Option.bind_some, Option.pure_def, Option.some.injEq]
  have hlen : (min ((first : Int) + npt) n - first).toNat = min npt (n - first) := by omega
  rw [hlen]
  simp

/-- The ranges of the threads, one after the other, are all numbers. -/
theorem flatMap_threadChunks (hnth : 0 < nth) :
    ((List.range nth).mapM fun ith => threadChunks n nth (ith : Nat)).map List.flatten =
      some ((List.range n).map fun ir : Nat => (ir : Int)) := by
  have hreach : n ≤ nth * ((n + nth - 1) / nth) := by
    have hdm := Nat.div_add_mod (n + nth - 1) nth
    have hmod := Nat.mod_lt (n + nth - 1) hnth
    omega
  rw [Attempt.mapM_some fun ith hith => threadChunks_eq hfit (List.mem_range.mp hith),
    Option.map_some, ← List.flatMap_def, List.map_eq_flatMap,
    ← RangeChunks.flatMap_range_chunks hreach]
  simp only [List.map_eq_flatMap]

end

/-- A negative `nr` leaves every range empty. -/
theorem threadChunks_of_neg {nr : Int} {nth ith : Nat} (hneg : nr < 0) {irs : List Int}
    (h : threadChunks nr nth ith = some irs) : irs = [] := by
  simp only [threadChunks, Option.bind_eq_bind, Option.bind_eq_some_iff, Option.pure_def,
    Option.some.injEq] at h
  obtain ⟨sum, -, first, hfirst, stop, hstop, rfl⟩ := h
  have hfirst := intResult_value hfirst
  have hstop := intResult_value hstop
  have hlen : (min stop nr - first).toNat = 0 := by
    rcases Int.lt_or_le 0 ((sum - 1).tdiv nth) with hpos | hnpt
    · -- the range begins at zero or behind it
      have : 0 ≤ (sum - 1).tdiv nth * ith := Int.mul_nonneg (Int.le_of_lt hpos) (by omega)
      omega
    · omega
  rw [hlen]
  rfl

/-- Where the threads finish, `nr + nth` has not overflowed, and there are no more than `nr` rounds
of the loop. -/
theorem length_threadChunks {nr : Int} {nth : Nat} (hnth : 0 < nth) {irs : List (List Int)}
    (h : ((List.range nth).mapM fun ith => threadChunks nr nth (ith : Nat)) = some irs) :
    nr + nth < 2 ^ 31 ∧ irs.flatten.length ≤ nr.toNat := by
  obtain ⟨hall, honly⟩ := Attempt.mem_of_mapM_eq_some h
  have hsum : nr + nth < 2 ^ 31 := by
    obtain ⟨irs0, -, h0⟩ := hall 0 (List.mem_range.mpr hnth)
    by_contra hover
    have hnone : intResult (nr + nth) = none := if_neg fun hin => hover (by omega)
    rw [threadChunks, hnone] at h0
    cases h0
  refine ⟨hsum, ?_⟩
  rcases Int.lt_or_le nr 0 with hneg | hnonneg
  · have hempty : irs.flatten = [] := by
      rw [List.flatten_eq_nil_iff]
      intro r hr
      obtain ⟨ith, -, hith⟩ := honly r hr
      exact threadChunks_of_neg hneg hith
    simp [hempty]
  · obtain ⟨n, rfl⟩ := Int.eq_ofNat_of_zero_le hnonneg
    have hflat := flatMap_threadChunks (show n + nth < 2 ^ 31 by omega) hnth
    rw [h, Option.map_some, Option.some.injEq] at hflat
    rw [hflat]
    simp

/-! ### The chunk of a number -/

theorem tdiv_eq {x y : Int} {q a r : Nat} (hx : x = (q * a + r : Nat)) (hy : y = a) (hr : r < a) :
    x.tdiv y = q := by
  rw [hx, hy, ← Int.ofNat_tdiv, Nat.mul_comm, Nat.mul_add_div (by omega), Nat.div_eq_of_lt hr,
    Nat.add_zero]

theorem lt_block {n j m : Nat} (hi : i < n) (hj : j < m) : i * m + j < n * m := by
  have hnext := Nat.mul_le_mul_right m (Nat.succ_le_of_lt hi)
  rw [Nat.succ_mul] at hnext
  omega

/-- A number is taken apart as it is put together. -/
theorem chunkOf_eq {ne1 ne2 nc i3 i2 i1 ic : Nat} (h2 : i2 < ne2) (h1 : i1 < ne1) (hc : ic < nc)
    (hfit : ((i3 * ne2 + i2) * ne1 + i1) * nc + ic < 2 ^ 31) :
    chunkOf ne1 ne2 nc (((i3 * ne2 + i2) * ne1 + i1) * nc + ic : Nat) = ⟨i3, i2, i1, ic⟩ := by
  have hrest1 : i1 * nc + ic < ne1 * nc := lt_block h1 hc
  have hrest2 : (i2 * ne1 + i1) * nc + ic < ne1 * ne2 * nc := by
    rw [Nat.mul_comm ne1]
    exact lt_block (lt_block h2 h1) hc
  -- every index is at most the number
  have hle1 : (i3 * ne2 + i2) * ne1 + i1 ≤ ((i3 * ne2 + i2) * ne1 + i1) * nc + ic :=
    (Nat.le_mul_of_pos_right _ (by omega)).trans (Nat.le_add_right _ _)
  have hle2 : i3 * ne2 + i2 ≤ (i3 * ne2 + i2) * ne1 + i1 :=
    (Nat.le_mul_of_pos_right _ (by omega)).trans (Nat.le_add_right _ _)
  have hle3 : i3 ≤ i3 * ne2 + i2 :=
    (Nat.le_mul_of_pos_right _ (by omega)).trans (Nat.le_add_right _ _)
  have hi3 : castInt (((((i3 * ne2 + i2) * ne1 + i1) * nc + ic : Nat) : Int).tdiv
      (ne1 * ne2 * nc)) = i3 := by
    rw [tdiv_eq (q := i3) (a := ne1 * ne2 * nc) (r := (i2 * ne1 + i1) * nc + ic)
      (by push_cast; ring) (by push_cast; rfl) hrest2]
    exact castInt_of_lt (by omega)
  have hi2 : castInt ((((((i3 * ne2 + i2) * ne1 + i1) * nc + ic : Nat) : Int)
      - i3 * ne1 * ne2 * nc).tdiv (ne1 * nc)) = i2 := by
    rw [tdiv_eq (q := i2) (a := ne1 * nc) (r := i1 * nc + ic)
      (by push_cast; ring) (by push_cast; rfl) hrest1]
    exact castInt_of_lt (by omega)
  have hi1 : castInt ((((((i3 * ne2 + i2) * ne1 + i1) * nc + ic : Nat) : Int)
      - i3 * ne1 * ne2 * nc - i2 * ne1 * nc).tdiv nc) = i1 := by
    rw [tdiv_eq (q := i1) (a := nc) (r := ic) (by push_cast; ring) rfl hc]
    exact castInt_of_lt (by omega)
  have hic : castInt (((((i3 * ne2 + i2) * ne1 + i1) * nc + ic : Nat) : Int)
      - i3 * ne1 * ne2 * nc - i2 * ne1 * nc - i1 * nc) = ic := by
    rw [show ((((i3 * ne2 + i2) * ne1 + i1) * nc + ic : Nat) : Int)
      - i3 * ne1 * ne2 * nc - i2 * ne1 * nc - i1 * nc = (ic : Nat) by push_cast; ring]
    exact castInt_of_lt (by omega)
  simp only [chunkOf, hi3, hi2, hi1, hic]

section

variable {R : Type} {call : Call R}

namespace Call

theorem mem_chunks : c ∈ call.chunks ↔ ∃ i3 i2 i1 ic : Nat, i3 < call.dst.ne 3 ∧
    i2 < call.dst.ne 2 ∧ i1 < call.dst.ne 1 ∧ ic < call.dst.ne 0 / call.nh ∧
      c = ⟨i3, i2, i1, ic⟩ := by
  simp only [chunks, List.mem_flatMap, List.mem_map, List.mem_range]
  constructor
  · rintro ⟨i3, h3, i2, h2, i1, h1, ic, hc, rfl⟩
    exact ⟨i3, i2, i1, ic, h3, h2, h1, hc, rfl⟩
  · rintro ⟨i3, i2, i1, ic, h3, h2, h1, hc, rfl⟩
    exact ⟨i3, h3, i2, h2, i1, h1, ic, hc, rfl⟩

/-- The chunks in the order of their numbers. -/
theorem chunks_eq (hfit : call.total < 2 ^ 31) :
    call.chunks = (List.range call.total).map fun ir : Nat =>
      chunkOf (call.dst.ne 1) (call.dst.ne 2) (call.dst.ne 0 / call.nh : Nat) ir := by
  rw [total] at hfit ⊢
  rw [List.map_eq_flatMap, RangeChunks.flatMap_range_mul, RangeChunks.flatMap_range_mul,
    RangeChunks.flatMap_range_mul, chunks]
  refine List.flatMap_congr fun i3 h3 => List.flatMap_congr fun i2 h2 =>
    List.flatMap_congr fun i1 h1 => ?_
  rw [List.map_eq_flatMap]
  refine List.flatMap_congr fun ic hc => ?_
  rw [List.mem_range] at h3 h2 h1 hc
  have hlt := lt_block (lt_block (lt_block h3 h2) h1) hc
  rw [chunkOf_eq h2 h1 hc (hlt.trans hfit)]

theorem length_chunks : call.chunks.length = call.total := by
  simp [chunks, total, List.length_flatMap, Nat.mul_assoc]

theorem total_eq : call.total =
    call.dst.ne 1 * call.dst.ne 2 * call.dst.ne 3 * (call.dst.ne 0 / call.nh) := by
  rw [total]
  ring

/-- With a row there are no more chunks in a row than chunks. -/
theorem nc_eq (hfit : call.total < 2 ^ 31)
    (hrows : 0 < call.dst.ne 1 * call.dst.ne 2 * call.dst.ne 3) :
    call.nc = (call.dst.ne 0 / call.nh : Nat) := by
  have hle : call.dst.ne 0 / call.nh ≤ call.total := by
    rw [total_eq]
    exact Nat.le_mul_of_pos_left _ hrows
  exact castInt_of_lt (hle.trans_lt hfit)

theorem nr_eq (hfit : call.total < 2 ^ 31) : call.nr = call.total := by
  rcases Nat.eq_zero_or_pos (call.dst.ne 1 * call.dst.ne 2 * call.dst.ne 3) with hrows | hrows
  · -- without rows `nc` does not matter
    rw [nr, total_eq, hrows, Nat.cast_zero, Int.zero_mul, Nat.zero_mul]
    rfl
  · rw [nr, nc_eq hfit hrows, ← Nat.cast_mul, ← total_eq, castInt_of_lt hfit]

variable [CommRing R]

/-- What the threads write, by their ranges. -/
theorem allWrites_eq_map : allWrites call =
    ((List.range call.nth).mapM fun ith => threadChunks call.nr call.nth (ith : Nat)).map
      fun irs => irs.flatten.map fun ir =>
        call.write (chunkOf (call.dst.ne 1) (call.dst.ne 2) call.nc ir) := by
  have hfun : pxaHadamard call = fun ith : Nat => (threadChunks call.nr call.nth ith).map
      (List.map fun ir => call.write
        (chunkOf (call.dst.ne 1) (call.dst.ne 2) call.nc ir)) := rfl
  rw [allWrites, hfun, Attempt.mapM_map, Option.map_map]
  simp only [Function.comp_def, List.map_flatten]

/-- Every chunk once. -/
theorem allWrites_eq (hnth : 0 < call.nth) (hfit : call.total + call.nth < 2 ^ 31) :
    allWrites call = some (call.chunks.map call.write) := by
  have htotal : call.total < 2 ^ 31 := by omega
  have hthreads := flatMap_threadChunks hfit hnth
  rw [← nr_eq htotal] at hthreads
  obtain ⟨irs, hirs, hflat⟩ := Option.map_eq_some_iff.mp hthreads
  rw [allWrites_eq_map, hirs, Option.map_some, hflat, chunks_eq htotal, List.map_map, List.map_map]
  refine congrArg some (List.map_congr_left fun ir hir => ?_)
  have hrows : 0 < call.dst.ne 1 * call.dst.ne 2 * call.dst.ne 3 := by
    rw [List.mem_range, total_eq] at hir
    refine Nat.pos_of_ne_zero fun hzero => ?_
    rw [hzero, Nat.zero_mul] at hir
    exact Nat.not_lt_zero _ hir
  show call.write _ = call.write _
  rw [nc_eq htotal hrows]

/-- Where the sum overflows, a chunk is missing. -/
theorem length_allWrites (hnth : 0 < call.nth) (hlt : call.nth < 2 ^ 31)
    (hover : 2 ^ 31 ≤ call.total + call.nth) {ws : List (ChunkWrite R)}
    (h : allWrites call = some ws) : ws.length < call.total := by
  rw [allWrites_eq_map] at h
  obtain ⟨irs, hirs, rfl⟩ := Option.map_eq_some_iff.mp h
  obtain ⟨hsum, hlen⟩ := length_threadChunks hnth hirs
  rw [List.length_map]
  omega

/-! ### The values of a chunk -/

theorem write_values (hnh : call.nh = 2 ^ k) (c : Chunk) :
    (call.write c).values = (List.range call.nh).map fun i =>
      call.ksqrt2 ^ k * Walsh.walsh k (call.load c) i := by
  refine List.map_congr_left fun i hi => ?_
  rw [hnh, List.mem_range] at hi
  rw [hnh, pxaFastHtF32_eq _ _ _ hi]

theorem expected_values (hnh : call.nh = 2 ^ k) (c : Chunk) :
    (call.expected c).values = (List.range call.nh).map fun i =>
      call.ksqrt2 ^ k * Walsh.walsh k (call.source c) i := by
  refine List.map_congr_left fun i hi => ?_
  rw [hnh, List.mem_range] at hi
  rw [Walsh.walsh_of_lt hi, hnh, Nat.log2_two_pow]

/-- A chunk is right when the values it is made from are right. -/
theorem write_eq_expected_iff (hpow : pxaIsPow2U32 call.nh = true)
    (hhalf : call.ksqrt2 * call.ksqrt2 * 2 = 1) (c : Chunk) :
    call.write c = call.expected c ↔ ∀ j < call.nh, call.load c j = call.source c j := by
  obtain ⟨k, hnh⟩ := pxaIsPow2U32_iff.mp hpow
  constructor
  · intro heq j hj
    have hvalues := congrArg ChunkWrite.values heq
    rw [write_values hnh, expected_values hnh] at hvalues
    rw [List.map_inj_left] at hvalues
    rw [hnh] at hj hvalues
    -- both sides are the transform of what was transformed
    rw [← Walsh.scaled_scaled hhalf (w := fun i => call.ksqrt2 ^ k * Walsh.walsh k (call.load c) i)
        (fun i _ => rfl) hj,
      Walsh.scaled_scaled hhalf (fun i hi => hvalues i (List.mem_range.mpr hi)) hj]
  · intro hload
    have hvalues : (call.write c).values = (call.expected c).values := by
      rw [write_values hnh, expected_values hnh]
      refine List.map_congr_left fun i hi => ?_
      rw [hnh] at hload hi
      rw [Walsh.walsh_congr hload (List.mem_range.mp hi)]
    exact congrArg (ChunkWrite.mk c (call.chunkAddress c)) hvalues

/-! ### What is loaded -/

section

variable {i3 i2 i1 : Int} {ic j : Nat}

omit [CommRing R]

theorem source_eq : call.source ⟨i3, i2, i1, ic⟩ j =
    call.blocks (call.src.row i3 i2 i1 +
      ((ic * call.nh + j) / call.src.type.blckSize : Nat) * call.src.nb 0)
        ((ic * call.nh + j) % call.src.type.blckSize) := rfl

/-- Where blocks are not larger than chunks, a chunk is loaded from the blocks at distances of
their size. -/
theorem load_of_dvd (hpos : 0 < call.src.type.blckSize) (hdvd : call.src.type.blckSize ∣ call.nh)
    (hj : j < call.nh) : call.load ⟨i3, i2, i1, ic⟩ j =
      call.blocks (call.src.row i3 i2 i1 +
        ((ic * call.nh + j) / call.src.type.blckSize : Nat) * call.src.type.typeSize)
          ((ic * call.nh + j) % call.src.type.blckSize) := by
  cases htype : call.src.type with
  | f32 =>
    simp only [load, htype, SrcType.blckSize, SrcType.typeSize, Nat.div_one, Nat.mod_one]
    congr 1
    push_cast
    ring
  | quantized blckSize typeSize =>
    rw [htype] at hpos hdvd
    obtain ⟨m, hm⟩ : blckSize ∣ call.nh := hdvd
    have hpos : 0 < blckSize := hpos
    have hwhole : call.nh / blckSize * blckSize = call.nh := Nat.div_mul_cancel ⟨m, hm⟩
    have hoff : ((ic : Int) * call.nh).tdiv blckSize = (ic * m : Nat) := by
      rw [← Nat.cast_mul, ← Int.ofNat_tdiv, hm, Nat.mul_left_comm, Nat.mul_div_cancel_left _ hpos]
    have hsplit : ic * call.nh + j = blckSize * (ic * m) + j := by
      rw [hm]
      ring
    simp only [load, htype, SrcType.blckSize, SrcType.typeSize, toFloat]
    rw [hwhole, if_pos hj, hoff, hsplit, Nat.mul_add_div hpos, Nat.mul_add_mod]
    congr 1
    push_cast
    ring

/-- Where blocks are larger than chunks, nothing is loaded. -/
theorem load_of_not_dvd (hblck : call.nh % call.src.type.blckSize = 0 ∨
      call.src.type.blckSize % call.nh = 0) (hpos : 0 < call.src.type.blckSize)
    (hdvd : ¬ call.src.type.blckSize ∣ call.nh) (c : Chunk) :
    call.load c j = call.old (call.chunkAddress c + (j : Int) * 4) := by
  cases htype : call.src.type with
  | f32 =>
    rw [htype] at hdvd
    exact absurd (Nat.one_dvd _) hdvd
  | quantized blckSize typeSize =>
    rw [htype] at hblck hpos hdvd
    have hdvd : ¬ blckSize ∣ call.nh := hdvd
    have hlarge : call.nh < blckSize := by
      rcases hblck with hmod | hmod
      · exact absurd (Nat.dvd_of_mod_eq_zero hmod) hdvd
      · have hle := Nat.le_of_dvd hpos (Nat.dvd_of_mod_eq_zero hmod)
        exact lt_of_le_of_ne hle fun heq => hdvd (heq ▸ Nat.dvd_refl _)
    simp only [load, htype, toFloat]
    rw [Nat.div_eq_of_lt hlarge, Nat.zero_mul, if_neg (Nat.not_lt_zero j)]

end

/-! ### When the op is the transform -/

omit [CommRing R] in
/-- What is checked does not depend on the memory. -/
theorem accepted_on (h : call.Accepted) (blocks : Blocks R) (old : Int → R) :
    (call.on blocks old).Accepted :=
  ⟨h.dst_type, h.dst_row, h.same_shape, h.nh_gt, h.nh_pow2, h.nh_lt, h.ne0, h.blck_pos, h.blck,
    h.nth_pos, h.nth_lt⟩

section

variable (h : call.Accepted) (hhalf : call.ksqrt2 * call.ksqrt2 * 2 = 1)

include h hhalf

/-- The op is the transform when it transforms the right values. -/
theorem transforms_iff (hfit : call.total + call.nth < 2 ^ 31) :
    call.Transforms ↔ ∀ (blocks : Blocks R) (old : Int → R), ∀ c ∈ call.chunks, ∀ j < call.nh,
      (call.on blocks old).load c j = (call.on blocks old).source c j := by
  constructor
  · intro htransforms blocks old c hc
    obtain ⟨writes, hwrites, hperm⟩ := htransforms blocks old
    have hall : allWrites (call.on blocks old) = some (call.chunks.map (call.on blocks old).write) :=
      allWrites_eq h.nth_pos hfit
    rw [hall, Option.some.injEq] at hwrites
    have hmem : (call.on blocks old).expected c ∈ writes :=
      hperm.mem_iff.mpr (List.mem_map_of_mem hc)
    rw [← hwrites] at hmem
    obtain ⟨c', -, heq⟩ := List.mem_map.mp hmem
    -- a round is known by its chunk
    obtain rfl : c' = c := congrArg ChunkWrite.chunk heq
    exact (@write_eq_expected_iff R (call.on blocks old) _ h.nh_pow2 hhalf c').mp heq
  · intro hload blocks old
    refine ⟨call.chunks.map (call.on blocks old).write, allWrites_eq h.nth_pos hfit,
      List.Perm.of_eq (List.map_congr_left fun c hc => ?_)⟩
    exact (@write_eq_expected_iff R (call.on blocks old) _ h.nh_pow2 hhalf c).mpr
      (hload blocks old c hc)

omit hhalf [CommRing R] in
theorem load_of_served (hserved : call.Served) (hc : c ∈ call.chunks) {j : Nat} (hj : j < call.nh) :
    call.load c j = call.source c j := by
  obtain ⟨i3, i2, i1, ic, h3, h2, h1, hic, rfl⟩ := mem_chunks.mp hc
  obtain ⟨hdvd, hstride⟩ : call.src.type.blckSize ∣ call.nh ∧
      (call.src.nb 0 = call.src.type.typeSize ∨ call.src.ne 0 = call.src.type.blckSize) := by
    refine hserved.2.resolve_left fun hzero => ?_
    rw [← length_chunks, List.length_eq_zero_iff] at hzero
    rw [hzero] at hc
    cases hc
  rw [load_of_dvd h.blck_pos hdvd hj, source_eq]
  rcases hstride with hnb | hne
  · rw [hnb]
  · -- the row is one block, and the chunk is the row
    have hnh : call.nh = call.src.type.blckSize := by
      refine Nat.dvd_antisymm ?_ hdvd
      rw [← hne, h.same_shape]
      exact Nat.dvd_of_mod_eq_zero h.ne0
    have hone : call.dst.ne 0 / call.nh = 1 := by
      rw [← h.same_shape, hne, hnh, Nat.div_self h.blck_pos]
    have hfirst : (ic * call.nh + j) / call.src.type.blckSize = 0 := by
      rw [hone] at hic
      rw [Nat.lt_one_iff.mp hic, Nat.zero_mul, Nat.zero_add, ← hnh, Nat.div_eq_of_lt hj]
    rw [hfirst, Nat.cast_zero, Int.zero_mul, Int.zero_mul]

omit hhalf

variable [Nontrivial R]
  (hloads : ∀ (blocks : Blocks R) (old : Int → R), ∀ c ∈ call.chunks, ∀ j < call.nh,
    (call.on blocks old).load c j = (call.on blocks old).source c j) (hpos : 0 < call.total)

include hloads hpos

omit h hloads [CommRing R] [Nontrivial R] in
/-- The first row is there. -/
theorem mem_chunks_row : 0 < call.dst.ne 0 / call.nh ∧ ∀ ic < call.dst.ne 0 / call.nh,
    (⟨0, 0, 0, (ic : Nat)⟩ : Chunk) ∈ call.chunks := by
  have hrow : 0 < call.dst.ne 3 ∧ 0 < call.dst.ne 2 ∧ 0 < call.dst.ne 1 ∧
      0 < call.dst.ne 0 / call.nh := by
    rw [total] at hpos
    simpa [Nat.pos_iff_ne_zero, and_assoc] using hpos
  obtain ⟨h3, h2, h1, h0⟩ := hrow
  exact ⟨h0, fun ic hic => mem_chunks.mpr ⟨0, 0, 0, ic, h3, h2, h1, hic, rfl⟩⟩

/-- With ones in the source and zeros in the destination, larger blocks leave the zeros. -/
theorem dvd_of_loads : call.src.type.blckSize ∣ call.nh := by
  by_contra hdvd
  obtain ⟨h0, hrow⟩ := mem_chunks_row hpos
  have hnh : 0 < call.nh := Nat.lt_trans Nat.one_pos h.nh_gt
  have hsame := hloads (fun _ _ => 1) (fun _ => 0) _ (hrow 0 h0) 0 hnh
  have hzero : (call.on (fun _ _ => 1) fun _ => 0).load ⟨0, 0, 0, (0 : Nat)⟩ 0 = (0 : R) :=
    @load_of_not_dvd R (call.on (fun _ _ => 1) fun _ => 0) 0 h.blck h.blck_pos hdvd _
  rw [hzero] at hsame
  exact zero_ne_one hsame

/-- Ones in the second block of the first row are missed where it is not behind the first one. -/
theorem stride_of_loads :
    call.src.nb 0 = call.src.type.typeSize ∨ call.src.ne 0 = call.src.type.blckSize := by
  by_contra hstride
  rw [not_or] at hstride
  obtain ⟨hnb, hne⟩ := hstride
  obtain ⟨h0, hrow⟩ := mem_chunks_row hpos
  have hdvd := dvd_of_loads h hloads hpos
  have hnh : 0 < call.nh := Nat.lt_trans Nat.one_pos h.nh_gt
  have hne0 : 0 < call.dst.ne 0 := Nat.pos_of_ne_zero fun hzero => by
    rw [hzero, Nat.zero_div] at h0
    exact Nat.lt_irrefl _ h0
  have hsecond : call.src.type.blckSize < call.dst.ne 0 := by
    rw [h.same_shape] at hne
    exact lt_of_le_of_ne (Nat.le_of_dvd hne0 (hdvd.trans (Nat.dvd_of_mod_eq_zero h.ne0)))
      (Ne.symm hne)
  -- the place of the first value of the second block
  have hic : call.src.type.blckSize / call.nh < call.dst.ne 0 / call.nh :=
    Nat.div_lt_div_of_lt_of_dvd (Nat.dvd_of_mod_eq_zero h.ne0) hsecond
  have hj := Nat.mod_lt call.src.type.blckSize hnh
  have hplace := Nat.div_add_mod' call.src.type.blckSize call.nh
  generalize call.src.type.blckSize / call.nh = ic at hic hplace
  generalize call.src.type.blckSize % call.nh = j at hj hplace
  let second : Blocks R := fun a _ => if a = call.src.row 0 0 0 + call.src.nb 0 then 1 else 0
  have hsource : (call.on second fun _ => 0).source ⟨0, 0, 0, ic⟩ j = 1 := by
    rw [source_eq]
    show second (call.src.row 0 0 0 + ((ic * call.nh + j) / call.src.type.blckSize : Nat)
      * call.src.nb 0) ((ic * call.nh + j) % call.src.type.blckSize) = 1
    rw [hplace, Nat.div_self h.blck_pos, Nat.cast_one, Int.one_mul]
    exact if_pos rfl
  have hload : (call.on second fun _ => 0).load ⟨0, 0, 0, ic⟩ j = 0 := by
    rw [@load_of_dvd R (call.on second fun _ => 0) _ _ _ _ _ h.blck_pos hdvd hj]
    show second (call.src.row 0 0 0 + ((ic * call.nh + j) / call.src.type.blckSize : Nat)
      * call.src.type.typeSize) ((ic * call.nh + j) % call.src.type.blckSize) = 0
    rw [hplace, Nat.div_self h.blck_pos, Nat.cast_one, Int.one_mul]
    refine if_neg fun haddress => hnb ?_
    exact (Int.ofNat.inj (Int.add_left_cancel haddress)).symm
  have hsame := hloads second (fun _ => 0) _ (hrow _ hic) _ hj
  rw [hsource, hload] at hsame
  exact zero_ne_one hsame

omit hloads hpos in
/-- The call is the transform exactly when each chunk gets its decoded source. -/
theorem transforms_iff_served (hhalf : call.ksqrt2 * call.ksqrt2 * 2 = 1) :
    call.Transforms ↔ call.Served := by
  constructor
  · intro htransforms
    have hfit : call.total + call.nth < 2 ^ 31 := by
      by_contra hover
      obtain ⟨writes, hwrites, hperm⟩ := htransforms call.blocks call.old
      have hlt := length_allWrites h.nth_pos h.nth_lt (Nat.le_of_not_lt hover) hwrites
      rw [hperm.length_eq, expectedWrites, List.length_map, length_chunks] at hlt
      exact Nat.lt_irrefl _ hlt
    have hloads := (transforms_iff h hhalf hfit).mp htransforms
    refine ⟨hfit, (Nat.eq_zero_or_pos call.total).imp_right fun hpos => ?_⟩
    exact ⟨dvd_of_loads h hloads hpos, stride_of_loads h hloads hpos⟩
  · intro hserved
    rw [transforms_iff h hhalf hserved.1]
    intro blocks old c hc j hj
    exact load_of_served (accepted_on h blocks old) hserved hc hj

end

/-! ### Two ops one after the other -/

omit [CommRing R] in
theorem block_inj {j i' j' m : Nat} (hj : j < m) (hj' : j' < m) (h : i * m + j = i' * m + j') :
    i = i' ∧ j = j' := by
  have hdiv : ∀ a b : Nat, b < m → (a * m + b) / m = a := fun a b hb => by
    rw [Nat.mul_comm, Nat.mul_add_div (by omega), Nat.div_eq_of_lt hb, Nat.add_zero]
  have hi : i = i' := by rw [← hdiv i j hj, h, hdiv i' j' hj']
  subst hi
  exact ⟨rfl, Nat.add_left_cancel h⟩

omit [CommRing R] in
/-- Where a value of a chunk lies in a tensor of `ggml_new_tensor`. -/
theorem address_eq (hdst : call.dst.Contiguous) (h0 : call.dst.ne 0 % call.nh = 0)
    (i3 i2 i1 ic i : Nat) : call.chunkAddress ⟨i3, i2, i1, ic⟩ + (i : Int) * 4 = call.dst.data
      + ((((((i3 * call.dst.ne 2 + i2) * call.dst.ne 1 + i1) * (call.dst.ne 0 / call.nh)) + ic)
        * call.nh + i : Nat) : Int) * 4 := by
  have hne0 : call.dst.ne 0 = call.dst.ne 0 / call.nh * call.nh :=
    (Nat.div_mul_cancel (Nat.dvd_of_mod_eq_zero h0)).symm
  simp only [chunkAddress, Tensor.row, hdst.nb3, hdst.nb2, hdst.nb1, hdst.nb0]
  generalize call.dst.ne 0 / call.nh = nc at hne0 ⊢
  rw [hne0]
  push_cast
  ring

section

variable (h : call.Accepted) (hdst : call.dst.Contiguous)

include h hdst

omit [CommRing R] in
/-- Values of chunks lie at different addresses. -/
theorem address_inj {c' : Chunk} (hc : c ∈ call.chunks) (hc' : c' ∈ call.chunks) {i' : Nat}
    (hi : i < call.nh) (hi' : i' < call.nh)
    (heq : call.chunkAddress c + (i : Int) * 4 = call.chunkAddress c' + (i' : Int) * 4) :
    c = c' ∧ i = i' := by
  obtain ⟨i3, i2, i1, ic, -, h2, h1, hic, rfl⟩ := mem_chunks.mp hc
  obtain ⟨i3', i2', i1', ic', -, h2', h1', hic', rfl⟩ := mem_chunks.mp hc'
  rw [address_eq hdst h.ne0, address_eq hdst h.ne0] at heq
  have hplace := Int.ofNat.inj
    (Int.eq_of_mul_eq_mul_right (by decide) (Int.add_left_cancel heq))
  obtain ⟨hnumber, rfl⟩ := block_inj hi hi' hplace
  obtain ⟨hrow, rfl⟩ := block_inj hic hic' hnumber
  obtain ⟨hplane, rfl⟩ := block_inj h1 h1' hrow
  obtain ⟨rfl, rfl⟩ := block_inj h2 h2' hplane
  exact ⟨rfl, rfl⟩

omit hdst in
/-- The stores of a round have the transformed values. -/
theorem mem_stores (hhalf : call.ksqrt2 * call.ksqrt2 * 2 = 1) (hserved : call.Served)
    (hnh : call.nh = 2 ^ k) (hc : c ∈ call.chunks) (s : Int × R) :
    s ∈ (call.write c).stores ↔ ∃ i < call.nh, s = (call.chunkAddress c + (i : Int) * 4,
      call.ksqrt2 ^ k * Walsh.walsh k (call.source c) i) := by
  have hwrite : call.write c = call.expected c :=
    (write_eq_expected_iff h.nh_pow2 hhalf c).mpr fun j hj => load_of_served h hserved hc hj
  rw [ChunkWrite.stores, List.mem_mapIdx, hwrite, expected_values hnh]
  simp only [List.length_map, List.length_range, List.getElem_map, List.getElem_range]
  constructor
  · rintro ⟨i, hi, rfl⟩
    exact ⟨i, hi, rfl⟩
  · rintro ⟨i, hi, rfl⟩
    exact ⟨i, hi, rfl⟩

/-- What a call leaves, whatever the order of the stores. -/
theorem leaves_apply (hhalf : call.ksqrt2 * call.ksqrt2 * 2 = 1) (hserved : call.Served)
    (hnh : call.nh = 2 ^ k) {memory : Int → R} (hleaves : call.Leaves memory)
    (hc : c ∈ call.chunks) (hi : i < call.nh) :
    memory (call.chunkAddress c + (i : Int) * 4) =
      call.ksqrt2 ^ k * Walsh.walsh k (call.source c) i := by
  obtain ⟨writes, stores, hwrites, hstores, rfl⟩ := hleaves
  rw [allWrites_eq h.nth_pos hserved.1, Option.some.injEq] at hwrites
  have hmem : ∀ s, s ∈ stores ↔ ∃ c ∈ call.chunks, ∃ i < call.nh,
      s = (call.chunkAddress c + (i : Int) * 4,
        call.ksqrt2 ^ k * Walsh.walsh k (call.source c) i) := by
    intro s
    rw [hstores.mem_iff, ← hwrites, List.flatMap_map, List.mem_flatMap]
    exact exists_congr fun c => and_congr_right fun hc => mem_stores h hhalf hserved hnh hc s
  refine Stores.run_apply_of_forall_eq _ (fun s hs haddress => ?_)
    ⟨_, (hmem _).mpr ⟨c, hc, i, hi, rfl⟩, rfl⟩
  obtain ⟨c', hc', i', hi', rfl⟩ := (hmem s).mp hs
  obtain ⟨rfl, rfl⟩ := address_inj h hdst hc' hc hi' hi haddress
  rfl

/-- The op applied to what the op has left gives the source back. -/
theorem twice (hhalf : call.ksqrt2 * call.ksqrt2 * 2 = 1) (hserved : call.Served)
    {memory : Int → R} (hleaves : call.Leaves memory) {again : Call R}
    (hfollows : again.Follows call) (hfit : again.total + again.nth < 2 ^ 31) {memory' : Int → R}
    (hleaves' : (again.on (fun a _ => memory a) again.old).Leaves memory') {i3 i2 i1 e : Nat}
    (h3 : i3 < call.dst.ne 3) (h2 : i2 < call.dst.ne 2) (h1 : i1 < call.dst.ne 1)
    (h0 : e < call.dst.ne 0) :
    memory' (again.dst.row i3 i2 i1 + (e : Int) * 4) = call.src.value call.blocks i3 i2 i1 e := by
  obtain ⟨k, hk⟩ := pxaIsPow2U32_iff.mp h.nh_pow2
  obtain ⟨hagain, hsrc, hnh, hksqrt2, hdst'⟩ := hfollows
  have hne : again.dst.ne = call.dst.ne := by rw [← hagain.same_shape, hsrc]
  have hpos : 0 < call.nh := Nat.lt_trans Nat.one_pos h.nh_gt
  have hi := Nat.mod_lt e hpos
  have hplace := Nat.div_add_mod' e call.nh
  have hic : e / call.nh < call.dst.ne 0 / call.nh :=
    Nat.div_lt_div_of_lt_of_dvd (Nat.dvd_of_mod_eq_zero h.ne0) h0
  generalize e / call.nh = ic at hic hplace
  generalize e % call.nh = i at hi hplace
  have hc : (⟨i3, i2, i1, ic⟩ : Chunk) ∈ call.chunks :=
    mem_chunks.mpr ⟨i3, i2, i1, ic, h3, h2, h1, hic, rfl⟩
  have hc' : (⟨i3, i2, i1, ic⟩ : Chunk) ∈ again.chunks := by
    rw [mem_chunks, hne, hnh]
    exact ⟨i3, i2, i1, ic, h3, h2, h1, hic, rfl⟩
  have hserved' : again.Served := by
    have hstride : again.src.nb 0 = again.src.type.typeSize := by
      rw [hsrc, h.dst_type]
      exact h.dst_row
    refine ⟨hfit, Or.inr ⟨?_, Or.inl hstride⟩⟩
    rw [hsrc, h.dst_type]
    exact Nat.one_dvd _
  have hhalf' : again.ksqrt2 * again.ksqrt2 * 2 = 1 := by rw [hksqrt2, hhalf]
  have hi' : i < again.nh := by rw [hnh]; exact hi
  have hresult := leaves_apply (accepted_on hagain (fun a _ => memory a) again.old) hdst' hhalf'
    hserved' (hnh.trans hk) hleaves' hc' hi'
  -- the second op reads what the first one has left
  have hread : ∀ j < 2 ^ k,
      (again.on (fun a _ => memory a) again.old).source ⟨i3, i2, i1, ic⟩ j =
        call.ksqrt2 ^ k * Walsh.walsh k (call.source ⟨i3, i2, i1, ic⟩) j := by
    intro j hj
    rw [← leaves_apply h hdst hhalf hserved hk hleaves hc (hk ▸ hj), source_eq]
    show memory (again.src.row i3 i2 i1 +
      ((ic * again.nh + j) / again.src.type.blckSize : Nat) * again.src.nb 0) = _
    rw [hsrc, hnh, h.dst_type, h.dst_row]
    congr 1
    simp only [SrcType.blckSize, Nat.div_one, chunkAddress]
    push_cast
    ring
  have haddress : again.dst.row i3 i2 i1 + (e : Int) * 4 =
      again.chunkAddress ⟨i3, i2, i1, ic⟩ + (i : Int) * 4 := by
    rw [chunkAddress, hnh, ← hplace]
    push_cast
    ring
  rw [haddress]
  refine hresult.trans ?_
  show again.ksqrt2 ^ k * _ = _
  rw [hksqrt2, Walsh.scaled_scaled hhalf hread (hk ▸ hi), source, Int.toNat_natCast, hplace]

end

end Call

/-! ### The op -/

variable [CommRing R]

/-- The square of the scale is the inverse of the length. -/
theorem scale_sq {ksqrt2 : R} (hhalf : ksqrt2 * ksqrt2 * 2 = 1) {nh : Nat}
    (hpow : pxaIsPow2U32 nh = true) : (ksqrt2 ^ nh.log2) ^ 2 * (nh : R) = 1 := by
  obtain ⟨k, rfl⟩ := pxaIsPow2U32_iff.mp hpow
  have hone : (ksqrt2 * ksqrt2 * 2) ^ k = 1 := by rw [hhalf, one_pow]
  rw [Nat.log2_two_pow, Nat.cast_pow, Nat.cast_ofNat, sq, ← mul_pow, ← mul_pow, hone]

/-- The threads write every chunk once, multiplied by the scaled matrix, exactly when the call is
`Served`, and then the op applied twice gives the source back. -/
theorem pxaHadamard_iff [Nontrivial R] (h : call.Accepted)
    (hhalf : call.ksqrt2 * call.ksqrt2 * 2 = 1) :
    (call.Transforms ↔ call.Served) ∧ (call.ksqrt2 ^ call.nh.log2) ^ 2 * (call.nh : R) = 1 ∧
      (call.Served → call.dst.Contiguous → ∀ memory, call.Leaves memory → ∀ again : Call R,
        again.Follows call → again.total + again.nth < 2 ^ 31 → ∀ memory',
        (again.on (fun a _ => memory a) again.old).Leaves memory' → ∀ i3 < call.dst.ne 3,
        ∀ i2 < call.dst.ne 2, ∀ i1 < call.dst.ne 1, ∀ e < call.dst.ne 0,
          memory' (again.dst.row i3 i2 i1 + (e : Int) * 4) =
            call.src.value call.blocks i3 i2 i1 e) := by
  refine ⟨Call.transforms_iff_served h hhalf, scale_sq hhalf h.nh_pow2, ?_⟩
  intro hserved hdst memory hleaves again hfollows hfit memory' hleaves' i3 h3 i2 h2 i1 h1 e h0
  exact Call.twice h hdst hhalf hserved hleaves hfollows hfit hleaves' h3 h2 h1 h0

/-- A call for one row of `n` values on one thread. -/
def oneRow (type : SrcType) (n nh : Nat) (ksqrt2 : R) : Call R where
  src := { type, data := 0, ne := ![n, 1, 1, 1], nb := fun i =>
    if i.val = 0 then type.typeSize else n / type.blckSize * type.typeSize }
  dst := { type := .f32, data := 4096, ne := ![n, 1, 1, 1], nb := ![4, 4 * n, 4 * n, 4 * n] }
  nh
  nth := 1
  ksqrt2
  blocks := fun _ _ => 0
  old := fun _ => 0

theorem half_real : Real.sqrt (1 / 2) * Real.sqrt (1 / 2) * 2 = 1 := by
  rw [Real.mul_self_sqrt (by norm_num)]
  norm_num

/-- Four values of `f32` in chunks of two. -/
theorem pxaHadamard_fourValues : (oneRow .f32 4 2 (Real.sqrt (1 / 2))).Transforms :=
  (pxaHadamard_iff ⟨rfl, rfl, rfl, by decide, by decide, by decide, by decide, by decide,
    by decide, by decide, by decide⟩ half_real).1.mpr
      ⟨by decide, Or.inr ⟨by decide, Or.inl rfl⟩⟩

/-- A block of 256 values in 144 bytes, in chunks of 64. -/
theorem pxaHadamard_largeBlock : (oneRow (.quantized 256 144) 256 64 (Real.sqrt (1 / 2))).Accepted ∧
    ¬ (oneRow (.quantized 256 144) 256 64 (Real.sqrt (1 / 2))).Transforms := by
  have haccepted : (oneRow (.quantized 256 144) 256 64 (Real.sqrt (1 / 2))).Accepted :=
    ⟨rfl, rfl, rfl, by decide, by decide, by decide, by decide, by decide, by decide, by decide,
      by decide⟩
  refine ⟨haccepted, fun htransforms => ?_⟩
  have hserved := (Call.transforms_iff_served haccepted half_real).mp htransforms
  rcases hserved.2 with hzero | ⟨hdvd, -⟩
  · exact absurd hzero (by decide)
  · exact absurd hdvd (by decide)

end

end PxqLlama.Ggml
