import PxqLlama.Proofs.Dsv4.Split

/-!
# `Proofs.Dsv4.Rewind`: the padded ring survives a rewind

Rejected positions have overwritten ring rows, at most `n_ubatch` positions past the start of their
batch. A later batch does not start before that, and reads at most the history before its own
start. With a ring of history and `n_ubatch` rows the two are never congruent, and this is the
invariant of the run (`ringAfter_apply`): a position below the end whose row no batch so far can
have reached again has its own last state there.
-/

namespace PxqLlama.Dsv4

variable {q : Nat}

section
variable {nUb : Nat} {s : Int} {S : StreamParams} {bs : List LlamaBatch} {b : LlamaBatch}

/-! ### One batch -/

/-- The row of a position of the batch holds that position. -/
theorem persistState_hit {x u : Nat} {ring : Nat → Option RowState} (hS : b.nTokens < S.stateSize)
    (hb : PositionsFrom q b) (hs : SingleSeq s b) (hx : q ≤ x) (hx' : x < q + b.nTokens) :
    persistState S u ring b (x % S.stateSize) = some ⟨u, x⟩ := by
  have hrows := planLoop_persistRows S.ratio S.overlap S.stateSize (by omega) hb hs (Nat.le_refl _)
  have hlatest : Ring.IsLatest S.stateSize (q + b.nTokens) (x % S.stateSize) x :=
    ⟨hx', rfl, by omega⟩
  refine Stores.run_apply_of_forall_eq _ ?_ ?_
  · intro w hw hrow
    obtain ⟨⟨dst, src⟩, hpair, rfl⟩ := List.mem_map.mp hw
    obtain ⟨r, hr, hdst, hsrc⟩ := mem_persistPairs.mp hpair
    obtain ⟨hlt, hpos⟩ := hrows.src r hr
    have hsame : r.pos = x := by
      have hr' := hrows.latest r hr
      rw [hdst] at hr'
      have hrow' : dst = x % S.stateSize := hrow
      rw [hrow'] at hr'
      exact hr'.unique hlatest
    show some (RowState.mk u (dsv4BatchPos b src)) = some ⟨u, x⟩
    rw [← hsrc, hb r.src hlt, ← hsame, hpos]
    push_cast
    rfl
  · obtain ⟨r, hr, hrow⟩ := hrows.hit x hx hx'
    exact ⟨_, List.mem_map.mpr ⟨(r.dst, r.src), mem_persistPairs.mpr ⟨r, hr, rfl, rfl⟩, rfl⟩, hrow⟩

/-- A row that no position of the batch is congruent to is left. -/
theorem persistState_miss {u row : Nat} {ring : Nat → Option RowState} (hS : 0 < S.stateSize)
    (hb : PositionsFrom q b) (hs : SingleSeq s b)
    (hmiss : ∀ y, q ≤ y → y < q + b.nTokens → y % S.stateSize ≠ row) :
    persistState S u ring b row = ring row := by
  have hrows := planLoop_persistRows S.ratio S.overlap S.stateSize hS hb hs (Nat.le_refl _)
  refine Stores.run_apply_of_forall_ne _ ?_
  intro w hw hrow
  obtain ⟨⟨dst, src⟩, hpair, rfl⟩ := List.mem_map.mp hw
  obtain ⟨r, hr, hdst, -⟩ := mem_persistPairs.mp hpair
  obtain ⟨hlt, hpos⟩ := hrows.src r hr
  have hlast := hrows.latest r hr
  refine hmiss r.pos (by omega) hlast.lt ?_
  rw [hlast.row, hdst]
  exact hrow

/-! ### Runs -/

theorem ringAfter_append (bs : List LlamaBatch) (b : LlamaBatch) :
    ringAfter S (bs ++ [b]) = persistState S bs.length (ringAfter S bs) b := by
  rw [ringAfter, List.zipIdx_append, List.foldl_append, ringAfter]
  simp

theorem lastDecode_append (bs : List LlamaBatch) (b : LlamaBatch) (x : Int) :
    lastDecode (bs ++ [b]) x =
      if (List.range b.nTokens).any fun i => dsv4BatchPos b i = x then some bs.length
      else lastDecode bs x := by
  rw [lastDecode, List.zipIdx_append, List.foldl_append, lastDecode]
  simp

theorem mem_batch_iff (hb : PositionsFrom q b) (x : Nat) :
    ((List.range b.nTokens).any fun i => decide (dsv4BatchPos b i = x)) = true ↔
      q ≤ x ∧ x < q + b.nTokens := by
  rw [List.any_eq_true]
  constructor
  · rintro ⟨i, hi, hpos⟩
    have hi := List.mem_range.mp hi
    have hpos : dsv4BatchPos b i = x := of_decide_eq_true hpos
    rw [hb i hi] at hpos
    omega
  · rintro ⟨hlo, hhi⟩
    refine ⟨x - q, List.mem_range.mpr (by omega), decide_eq_true ?_⟩
    rw [hb (x - q) (by omega)]
    omega

/-- Below the end, a position whose next congruent one is past the reach of the last batch has its
last state in its row. -/
theorem ringAfter_apply {p e : Nat} (hrun : Rewinding nUb s bs p e) (hS : nUb < S.stateSize) :
    ∀ x < e, p + nUb ≤ x + S.stateSize →
      ∃ u, lastDecode bs x = some u ∧ ringAfter S bs (x % S.stateSize) = some ⟨u, x⟩ := by
  induction hrun with
  | nil => exact fun x hx => absurd hx (Nat.not_lt_zero x)
  | @decode bs p e q b hrun hstart hb hs hn ih =>
    intro x hx hreach
    rw [ringAfter_append, lastDecode_append]
    by_cases hin : q ≤ x
    · -- the position is in this batch
      rw [if_pos ((mem_batch_iff hb x).mpr ⟨hin, hx⟩)]
      exact ⟨bs.length, rfl, persistState_hit (by omega) hb hs hin hx⟩
    · -- It was there before, and no position of this batch is congruent to it.
      have hnot : ¬ ((List.range b.nTokens).any fun i => decide (dsv4BatchPos b i = x)) = true :=
        fun h => hin ((mem_batch_iff hb x).mp h).1
      obtain ⟨u, hlast, hring⟩ := ih x (by omega) (by omega)
      rw [if_neg hnot]
      refine ⟨u, hlast, ?_⟩
      rw [persistState_miss (by omega) hb hs, hring]
      intro y hy hy' hrow
      have := Ring.add_le_of_mod_eq hrow.symm (show x < y by omega)
      omega

/-! ### The positions that a plan reads -/

/-- The positions that the entries of the read list are made for: the windows of the blocks, or the
first token of a batch with the scratch write. -/
def readPositions (S : StreamParams) (q : Nat) (b : LlamaBatch) : List Int :=
  if S.scratch b then List.replicate (history S.ratio S.overlap) q
  else (windowStarts S q b.nTokens).flatMap fun x =>
    (List.range S.ratio).map fun j : Nat => x + j

/-- A batch with the scratch write completes no block. -/
theorem boundaries_of_scratch (hb : PositionsFrom q b) (hs : SingleSeq s b)
    (h : S.scratch b = true) : boundaries S.ratio q b.nTokens = [] ∧ 0 < b.nTokens := by
  have hwrite := (planLoop_single S.ratio S.overlap S.stateSize hb hs (Nat.le_refl _)).1
  simp only [StreamParams.scratch, needsScratch, Bool.and_eq_true, List.isEmpty_iff] at h
  obtain ⟨⟨-, hnone⟩, htokens⟩ := h
  rw [hnone, eq_comm, List.map_eq_nil_iff] at hwrite
  refine ⟨hwrite, ?_⟩
  by_contra hzero
  have hempty : b.nTokens = 0 := by omega
  rw [hempty] at htokens
  exact absurd htokens (by simp [planLoop])

/-- The scratch write reads the row of the first token only. -/
theorem stateReadIdxs_of_scratch (hb : PositionsFrom q b) (hs : SingleSeq s b)
    (h : S.scratch b = true) :
    (S.plan b).stateReadIdxs =
      List.replicate (history S.ratio S.overlap) (stateSourceIdx b S.stateSize s q) := by
  obtain ⟨hnone, hsome⟩ := boundaries_of_scratch hb hs h
  obtain ⟨-, -, hprev, hcur⟩ :=
    planLoop_single S.ratio S.overlap S.stateSize hb hs (Nat.le_refl _)
  have hfirst : dsv4BatchPos b 0 = q := by
    rw [hb 0 hsome]
    push_cast
    omega
  have hfind : (List.range b.nTokens).find? (fun i => decide (0 ≤ dsv4BatchPos b i)) = some 0 := by
    rw [List.find?_range_eq_some]
    refine ⟨decide_eq_true (by rw [hfirst]; omega), List.mem_range.mpr hsome, fun k hk => ?_⟩
    exact absurd hk (Nat.not_lt_zero k)
  rw [hnone] at hprev hcur
  rw [StreamParams.scratch] at h
  simp only [StreamParams.plan, dsv4BuildCompPlan, h, if_true, addScratch, hfind, Option.getD_some,
    hfirst, (hs 0 hsome).2, hprev, hcur, history]
  cases S.overlap
  · simp
  · simp [List.replicate_append_replicate, Nat.two_mul]

/-- The read list is made for these positions, entry by entry. -/
theorem stateReadIdxs_eq (hb : PositionsFrom q b) (hs : SingleSeq s b) :
    (S.plan b).stateReadIdxs =
      (readPositions S q b).map (stateSourceIdx b S.stateSize s) := by
  rw [readPositions]
  cases hscratch : S.scratch b with
  | false =>
    rw [(plan_of_not_scratch hb hs hscratch).2.2, if_neg (by decide), List.map_flatMap]
    refine List.flatMap_congr fun x _ => ?_
    rw [windowReads, List.map_map]
    rfl
  | true => rw [stateReadIdxs_of_scratch hb hs hscratch, if_pos rfl, List.map_replicate]

/-- A plan reads no position further back than the history. -/
theorem le_of_mem_readPositions {x : Int} (hr : 0 < S.ratio) (hx : x ∈ readPositions S q b) :
    (q : Int) + 1 ≤ x + history S.ratio S.overlap := by
  have hle : S.ratio ≤ history S.ratio S.overlap := by
    rw [history]
    split <;> omega
  rw [readPositions] at hx
  split at hx
  · rw [List.eq_of_mem_replicate hx]
    omega
  · obtain ⟨start, hstart, hmem⟩ := List.mem_flatMap.mp hx
    obtain ⟨j, -, rfl⟩ := List.mem_map.mp hmem
    rw [windowStarts, List.mem_append] at hstart
    rcases hstart with hprev | hcur
    · split at hprev
      · rename_i hov
        obtain ⟨i, -, rfl⟩ := List.mem_map.mp hprev
        rw [history, if_pos hov]
        push_cast
        omega
      · cases hprev
    · obtain ⟨i, -, rfl⟩ := List.mem_map.mp hcur
      omega

/-- A position before the batch is read from its ring row. -/
theorem stateSourceIdx_before (hb : PositionsFrom q b) (hs : SingleSeq s b) {x : Int} (h0 : 0 ≤ x)
    (hx : x < q) : stateSourceIdx b S.stateSize s x = x.toNat % S.stateSize := by
  have hmap : currTokenIdxMap b (s, x) =
      if (q : Int) ≤ x ∧ x < q + b.nTokens then some (x - q).toNat else none :=
    currTokenIdxLoop_apply hb hs (Nat.le_refl _) x
  rw [if_neg (by omega)] at hmap
  rw [stateSourceIdx, if_neg (by omega), hmap]

end

/-- **The padded ring survives a rewind.** After every run in which each batch starts between the
start and the end of the one before it, the next batch starts so too: each entry of its read list
for a position before it is a ring row, with the state that the last batch with that position
computed for it. -/
theorem ring_survives_rewind {ratio : Nat} (hr : 0 < ratio) (overlap : Bool) (nUbatch kvSize : Nat)
    {s : Int} {bs : List LlamaBatch} {b : LlamaBatch} {p e q : Nat}
    (hrun : Rewinding (memNUb nUbatch) s bs p e) (hstart : p ≤ q ∧ q ≤ e) (hb : PositionsFrom q b)
    (hs : SingleSeq s b) :
    let S := stream ratio overlap true nUbatch kvSize
    (S.plan b).stateReadIdxs = (readPositions S q b).map (stateSourceIdx b S.stateSize s) ∧
      ∀ x ∈ readPositions S q b, 0 ≤ x → x < q →
        stateSourceIdx b S.stateSize s x = x.toNat % S.stateSize ∧
          ∃ u, lastDecode bs x = some u ∧ ringAfter S bs (x.toNat % S.stateSize) = some ⟨u, x⟩ := by
  intro S
  have hsize : S.stateSize = history ratio overlap + memNUb nUbatch := by
    have hpos : 0 < memNUb nUbatch := by
      rw [memNUb]
      split <;> omega
    show dsv4StateRows true (history ratio overlap) (memNUb nUbatch) = _
    rw [dsv4StateRows, if_pos rfl, if_pos hpos]
  have hhistory : 0 < history ratio overlap := by
    rw [history]
    split <;> omega
  refine ⟨stateReadIdxs_eq hb hs, fun x hx h0 hlt => ?_⟩
  refine ⟨stateSourceIdx_before hb hs h0 hlt, ?_⟩
  have hback : (q : Int) + 1 ≤ x + history ratio overlap :=
    le_of_mem_readPositions (show 0 < S.ratio from hr) hx
  obtain ⟨y, rfl⟩ := Int.eq_ofNat_of_zero_le h0
  rw [Int.toNat_natCast]
  -- The last batch reaches at most `n_ubatch` positions past its start, and `q` is behind that.
  exact ringAfter_apply hrun (by omega) y (by omega) (by omega)

/-- Six tokens of a CSA stream, of which three are rejected, and five from there on. -/
theorem ring_survives_rewind_six :
    let S := stream 4 true true 6 1024
    let bs := [batchOfPositions [0, 1, 2, 3, 4, 5]]
    let b := batchOfPositions [3, 4, 5, 6, 7]
    ∀ x ∈ readPositions S 3 b, 0 ≤ x → x < 3 →
      stateSourceIdx b S.stateSize 0 x = x.toNat % S.stateSize ∧
        ∃ u, lastDecode bs x = some u ∧ ringAfter S bs (x.toNat % S.stateSize) = some ⟨u, x⟩ := by
  have hsingle : ∀ ps : List Int, SingleSeq 0 (batchOfPositions ps) := fun _ _ _ => ⟨rfl, rfl⟩
  have hrun : Rewinding (memNUb 6) 0 [batchOfPositions [0, 1, 2, 3, 4, 5]] 0 6 :=
    Rewinding.decode .nil ⟨Nat.le_refl 0, Nat.le_refl 0⟩ (by decide) (hsingle _) (by decide)
  exact (ring_survives_rewind (show 0 < 4 by decide) true 6 1024 hrun (q := 3)
    (show 0 ≤ 3 ∧ 3 ≤ 6 by decide) (b := batchOfPositions [3, 4, 5, 6, 7]) (by decide)
    (hsingle _)).2

end PxqLlama.Dsv4
