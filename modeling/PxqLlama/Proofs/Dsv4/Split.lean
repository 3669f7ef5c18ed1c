import PxqLlama.Proofs.Dsv4.Plan

/-!
# `Proofs.Dsv4.Split`: compression does not depend on the split

After the positions below `n`, however they were cut into batches, a stream's ring is
`Ring.content` of `n` and its committed blocks are those of the boundaries below `n`, each
with its own positions as sources (`committedUpTo`). `compress_step` is one batch. It needs
three facts about the plan of a batch at position `n`:

* a read index leads to the row of the position it was made for (`sourceRow_stateSourceIdx`):
  the position is in the batch, or still in the ring as the earlier batches left it;
* the read list is cut into the windows of the blocks (`planLoop_single`, `blocks_eq`);
* the persist rows are the last token of each ring row (`planLoop_persistRows`).
-/

namespace PxqLlama.Dsv4

/-! ### Where a read index leads -/

/-- `curr_token_idx_map` after the first `k` tokens. -/
def currTokenIdxLoop (b : LlamaBatch) (k : Nat) : Int × Int → Option Nat :=
  (List.range k).foldl (fun m i =>
    (List.range (dsv4BatchNSeqId b i)).foldl (fun m s =>
      Function.update m (dsv4BatchSeq b i s, dsv4BatchPos b i) (some i)) m) fun _ => none

variable {k : Nat} {S : StreamParams}

variable {b : LlamaBatch} {n : Nat} {s : Int}

theorem currTokenIdxLoop_apply (hb : PositionsFrom n b) (hs : SingleSeq s b) (hk : k ≤ b.nTokens)
    (x : Int) :
    currTokenIdxLoop b k (s, x)
      = if (n : Int) ≤ x ∧ x < n + k then some (x - n).toNat else none := by
  induction k with
  | zero =>
    rw [if_neg (by omega)]
    rfl
  | succ k ih =>
    have ih := ih (by omega)
    obtain ⟨hone, hseq⟩ := hs k (by omega)
    have hpos := hb k (by omega)
    have hstep : currTokenIdxLoop b (k + 1)
        = Function.update (currTokenIdxLoop b k) (s, (n : Int) + k) (some k) := by
      rw [currTokenIdxLoop, List.range_succ, List.foldl_append, List.foldl_cons, List.foldl_nil,
        hone, ← hpos, ← hseq]
      rfl
    rw [hstep]
    -- Positions are distinct, so token `k` overwrites no earlier entry.
    by_cases hx : x = n + k
    · rw [hx, Function.update_self, if_pos (by omega)]
      congr 1
      omega
    · have hne : ((s, x) : Int × Int) ≠ (s, (n : Int) + k) := by
        intro h
        exact hx (Prod.mk.inj h).2
      rw [Function.update_of_ne hne, ih]
      split
      · rw [if_pos (by omega)]
      · rw [if_neg (by omega)]

/-- The source that stands for a position: the zero row below position zero. -/
def positionSource (x : Int) : Source := if x < 0 then .zero else .token x

/-- The ring of a stream after the positions below `n`. -/
def ringUpTo (S : StreamParams) (n : Nat) : Nat → Source :=
  Ring.content S.stateSize n (fun q => .token (q : Int)) .unwritten

/-- A read index leads to the position it was made for, when the position is not past the
batch and not more than one ring before it. -/
theorem sourceRow_stateSourceIdx {x : Int} (hS : 0 < S.stateSize) (hb : PositionsFrom n b)
    (hs : SingleSeq s b) (hlo : (n : Int) ≤ x + S.stateSize) (hhi : x < n + b.nTokens) :
    sourceRow S (ringUpTo S n) b (stateSourceIdx b S.stateSize s x) = positionSource x := by
  have hmap : currTokenIdxMap b (s, x)
      = if (n : Int) ≤ x ∧ x < n + b.nTokens then some (x - n).toNat else none :=
    currTokenIdxLoop_apply hb hs (Nat.le_refl _) x
  rw [stateSourceIdx, positionSource]
  split
  · -- The appended zero row.
    rw [sourceRow, if_neg (by omega), if_neg (by omega)]
  · rename_i hx
    rw [hmap]
    by_cases hin : (n : Int) ≤ x
    · -- A row of the batch itself.
      simp only [if_pos (show (n : Int) ≤ x ∧ x < n + b.nTokens from ⟨hin, hhi⟩)]
      have hrow : S.stateSize + (x - n).toNat - S.stateSize = (x - n).toNat := by omega
      rw [sourceRow, if_neg (by omega), if_pos (by omega), hrow, hb _ (by omega)]
      congr 1
      omega
    · -- A ring row that an earlier batch left.
      simp only [if_neg (show ¬ ((n : Int) ≤ x ∧ x < n + b.nTokens) by omega)]
      have hlat : Ring.IsLatest S.stateSize n (x.toNat % S.stateSize) x.toNat :=
        ⟨by omega, rfl, by omega⟩
      rw [sourceRow, if_pos (Nat.mod_lt _ hS), ringUpTo, Ring.content_eq hS _ _ hlat]
      congr 1
      omega

/-! ### The lists of the plan -/

/-- The tokens below `k` that complete a block, in a batch at position `n`. -/
def boundaries (ratio n k : Nat) : List Nat :=
  (List.range k).filter fun i => (n + i + 1) % ratio = 0

theorem boundaries_succ (ratio n k : Nat) :
    boundaries ratio n (k + 1)
      = boundaries ratio n k ++ if (n + k + 1) % ratio = 0 then [k] else [] := by
  rw [boundaries, List.range_succ, List.filter_append]
  congr 1
  by_cases h : (n + k + 1) % ratio = 0
  · simp [h]
  · simp [h]

section Loop

variable {b : LlamaBatch} {n : Nat} {s : Int} (ratio : Nat) (overlap : Bool) (stateSize : Nat)

/-- A token of a single-sequence batch runs the inner loop once. -/
theorem planToken_single (hb : PositionsFrom n b) (hs : SingleSeq s b) (hk : k < b.nTokens)
    (acc : PlanAcc) :
    planToken b ratio overlap stateSize acc k
      = planSeq b ratio overlap stateSize k (n + k)
        { acc with
          statePos := acc.statePos ++ [(n + k) % ratio]
          nVisible := Function.update acc.nVisible k ((n + k + 1) / ratio)
          nKv := max acc.nKv ((n + k + 1) / ratio) } 0 := by
  have hpos := hb k hk
  have hneg : ¬ dsv4BatchPos b k < 0 := by omega
  have htoNat : (dsv4BatchPos b k).toNat = n + k := by omega
  simp only [planToken, if_neg hneg, htoNat, (hs k hk).1]
  rfl

/-- The commit and read lists after `k` tokens. -/
theorem planLoop_single (hb : PositionsFrom n b) (hs : SingleSeq s b) (hk : k ≤ b.nTokens) :
    let acc := planLoop b ratio overlap stateSize k
    acc.writeIdxs = (boundaries ratio n k).map (fun i => (n + i) / ratio) ∧
      acc.writePos = (boundaries ratio n k).map (fun i : Nat => (n + i : Int) + 1 - ratio) ∧
      acc.prevReads = (if overlap then (boundaries ratio n k).flatMap fun i : Nat =>
        windowReads b ratio stateSize s ((n + i : Int) + 1 - ratio - ratio) else []) ∧
      acc.curReads = (boundaries ratio n k).flatMap fun i : Nat =>
        windowReads b ratio stateSize s ((n + i : Int) + 1 - ratio) := by
  induction k with
  | zero => simp [planLoop, boundaries]
  | succ k ih =>
    obtain ⟨hwrite, hpos, hprev, hcur⟩ := ih (by omega)
    rw [planLoop_succ, planToken_single ratio overlap stateSize hb hs (by omega),
      boundaries_succ]
    simp only [planSeq]
    by_cases h : (n + k + 1) % ratio = 0
    · -- The boundary appends one entry to each list.
      rw [if_neg (not_not.mpr h), if_pos h]
      have hcast : ((n + k : Nat) : Int) = (n : Int) + k := by omega
      simp only [hwrite, hpos, hprev, hcur, (hs k (by omega)).2, hcast, List.map_append,
        List.flatMap_append, List.map_cons, List.map_nil, List.flatMap_cons, List.flatMap_nil,
        List.append_nil, true_and, and_true]
      cases overlap
      · rfl
      · rfl
    · -- No block is complete: only the persist rows change.
      rw [if_pos h, if_neg h, List.append_nil]
      exact ⟨hwrite, hpos, hprev, hcur⟩

/-! ### The persist rows -/

/-- Touching a ring row keeps the rows of the list distinct: it overwrites the entry of
the row, or adds one. -/
theorem persistTouch_map_dst (dst src pos : Nat) (rows : List PersistRow) :
    (persistTouch dst src pos rows).map PersistRow.dst
      = if dst ∈ rows.map PersistRow.dst then rows.map PersistRow.dst
        else rows.map PersistRow.dst ++ [dst] := by
  induction rows with
  | nil => rfl
  | cons r rows ih =>
    rw [persistTouch]
    by_cases hr : r.dst = dst
    · have hmem : dst ∈ (r :: rows).map PersistRow.dst := by simp [hr]
      rw [if_pos hr, if_pos hmem]
      split
      · rw [List.map_cons, List.map_cons, hr]
      · rfl
    · have hr' : dst ≠ r.dst := Ne.symm hr
      rw [if_neg hr, List.map_cons, ih]
      simp only [List.map_cons, List.mem_cons, hr', false_or]
      split
      · rfl
      · rfl

variable {rows : List PersistRow}

/-- A later position takes its ring row over; the other rows stay. -/
theorem mem_persistTouch (dst src : Nat) {pos : Nat} (hnd : (rows.map PersistRow.dst).Nodup)
    (hlt : ∀ r ∈ rows, r.pos < pos) (r : PersistRow) :
    r ∈ persistTouch dst src pos rows ↔ r = ⟨dst, src, pos⟩ ∨ (r ∈ rows ∧ r.dst ≠ dst) := by
  induction rows with
  | nil => simp [persistTouch]
  | cons r₀ rows ih =>
    obtain ⟨hnotin, hnd⟩ := List.nodup_cons.mp hnd
    have ih := ih hnd (fun r hr => hlt r (List.mem_cons_of_mem _ hr))
    rw [persistTouch]
    by_cases hr₀ : r₀.dst = dst
    · rw [if_pos hr₀, if_pos (hlt r₀ (List.mem_cons_self ..)), List.mem_cons]
      -- No other entry has this ring row.
      have hother : r ∈ rows → r.dst ≠ dst := by
        intro hr hrd
        exact hnotin (List.mem_map.mpr ⟨r, hr, hrd.trans hr₀.symm⟩)
      constructor
      · rintro (rfl | hr)
        · exact Or.inl rfl
        · exact Or.inr ⟨List.mem_cons_of_mem _ hr, hother hr⟩
      · rintro (rfl | ⟨hr, hne⟩)
        · exact Or.inl rfl
        · rcases List.mem_cons.mp hr with rfl | hr
          · exact absurd hr₀ hne
          · exact Or.inr hr
    · rw [if_neg hr₀, List.mem_cons, ih, List.mem_cons]
      constructor
      · rintro (rfl | h | ⟨hr, hne⟩)
        · exact Or.inr ⟨Or.inl rfl, hr₀⟩
        · exact Or.inl h
        · exact Or.inr ⟨Or.inr hr, hne⟩
      · rintro (h | ⟨rfl | hr, hne⟩)
        · exact Or.inr (Or.inl h)
        · exact Or.inl rfl
        · exact Or.inr (Or.inr ⟨hr, hne⟩)

/-- After `k` tokens the persist rows are the last token of each ring row. -/
structure PersistRowsUpTo (stateSize n k : Nat) (rows : List PersistRow) : Prop where
  nodup : (rows.map PersistRow.dst).Nodup
  src : ∀ r ∈ rows, r.src < k ∧ r.pos = n + r.src
  latest : ∀ r ∈ rows, Ring.IsLatest stateSize (n + k) r.dst r.pos
  hit : ∀ q, n ≤ q → q < n + k → ∃ r ∈ rows, r.dst = q % stateSize

/-- One more token touches its row of the state. -/
theorem PersistRowsUpTo.touch {n : Nat} (hS : 0 < stateSize)
    (h : PersistRowsUpTo stateSize n k rows) :
    PersistRowsUpTo stateSize n (k + 1)
      (persistTouch ((n + k) % stateSize) k (n + k) rows) := by
  have hlt : ∀ r ∈ rows, r.pos < n + k := fun r hr => (h.latest r hr).lt
  have hmem := mem_persistTouch ((n + k) % stateSize) k h.nodup hlt
  refine ⟨?_, ?_, ?_, ?_⟩
  · rw [persistTouch_map_dst]
    split
    · exact h.nodup
    · rename_i hnotin
      exact List.nodup_append.mpr ⟨h.nodup, List.nodup_singleton _, by
        intro a ha c hc
        rw [List.mem_singleton.mp hc]
        exact fun hac => hnotin (hac ▸ ha)⟩
  · intro r hr
    rcases (hmem r).mp hr with rfl | ⟨hr, _⟩
    · exact ⟨Nat.lt_succ_self k, rfl⟩
    · obtain ⟨hsrc, hpos⟩ := h.src r hr
      exact ⟨by omega, hpos⟩
  · -- A row that token `k` does not touch keeps its latest position.
    intro r hr
    rcases (hmem r).mp hr with rfl | ⟨hr, hne⟩
    · exact ⟨Nat.lt_succ_self (n + k), rfl, by show n + k + 1 ≤ n + k + stateSize; omega⟩
    · refine (h.latest r hr).extend (m := 1) ?_
      intro x hx hx' hxr
      have hxk : x = n + k := by omega
      exact hne (by rw [← hxr, hxk])
  · intro q hq hq'
    by_cases hrow : q % stateSize = (n + k) % stateSize
    · exact ⟨_, (hmem _).mpr (Or.inl rfl), hrow.symm⟩
    · have hqk : q ≠ n + k := fun h => hrow (by rw [h])
      obtain ⟨r, hr, hrq⟩ := h.hit q hq (by omega)
      exact ⟨r, (hmem r).mpr (Or.inr ⟨hr, by rw [hrq]; exact hrow⟩), hrq⟩

/-- The rows that the loop persists, by induction on the tokens. -/
theorem planLoop_persistRows (hS : 0 < stateSize) (hb : PositionsFrom n b) (hs : SingleSeq s b)
    (hk : k ≤ b.nTokens) :
    PersistRowsUpTo stateSize n k (planLoop b ratio overlap stateSize k).persistRows := by
  induction k with
  | zero =>
    refine ⟨List.nodup_nil, ?_, ?_, ?_⟩
    · intro r hr
      cases hr
    · intro r hr
      cases hr
    · intro q hq hq'
      omega
  | succ k ih =>
    have htouch := (ih (by omega)).touch stateSize hS
    rw [planLoop_succ, planToken_single ratio overlap stateSize hb hs (by omega)]
    simp only [planSeq]
    -- The row is touched before the test for a boundary.
    split
    · exact htouch
    · exact htouch

end Loop

/-! ### One batch -/

/-- The block that the boundary at position `q` commits. -/
def blockAt (S : StreamParams) (q : Nat) : Block where
  row := q / S.ratio
  ropePos := (q : Int) + 1 - S.ratio
  prev := if S.overlap then (List.range S.ratio).map fun j : Nat =>
    positionSource ((q : Int) + 1 - S.ratio - S.ratio + j) else []
  cur := (List.range S.ratio).map fun j : Nat => positionSource ((q : Int) + 1 - S.ratio + j)

/-- The blocks of the boundaries below `n`, in order. -/
def committedUpTo (S : StreamParams) (n : Nat) : List Block :=
  ((List.range n).filter fun q => (q + 1) % S.ratio = 0).map (blockAt S)

theorem committedUpTo_add (S : StreamParams) (n m : Nat) :
    committedUpTo S (n + m)
      = committedUpTo S n ++ (boundaries S.ratio n m).map fun i => blockAt S (n + i) := by
  simp only [committedUpTo, boundaries, List.range_add, List.filter_append, List.map_append,
    List.filter_map, List.map_map]
  rfl

/-- Entry `k` of a list of windows of one width. -/
theorem window_flatMap {α β : Type} {l : List α} {f : α → List β} {r : Nat}
    (hf : ∀ a ∈ l, (f a).length = r) (hk : k < l.length) :
    ((l.flatMap f).drop (k * r)).take r = f l[k] := by
  induction l generalizing k with
  | nil => simp at hk
  | cons a l ih =>
    have hlen : (f a).length = r := hf a (List.mem_cons_self ..)
    cases k with
    | zero => simp [List.flatMap_cons, ← hlen]
    | succ k =>
      have hsplit : (k + 1) * r = (f a).length + k * r := by
        rw [hlen, Nat.succ_mul, Nat.add_comm]
      rw [List.flatMap_cons, hsplit, List.drop_length_add_append]
      exact ih (fun a' ha' => hf a' (List.mem_cons_of_mem _ ha')) (by simpa using hk)

/-- The rows that a window of reads leads to. -/
theorem map_windowReads {x : Int} (hS : 0 < S.stateSize) (hb : PositionsFrom n b)
    (hs : SingleSeq s b) (hlo : (n : Int) ≤ x + S.stateSize) (hhi : x + S.ratio ≤ n + b.nTokens) :
    (windowReads b S.ratio S.stateSize s x).map (sourceRow S (ringUpTo S n) b)
      = (List.range S.ratio).map fun j : Nat => positionSource (x + j) := by
  rw [windowReads, List.map_map]
  refine List.map_congr_left (fun j hj => ?_)
  have hj := List.mem_range.mp hj
  exact sourceRow_stateSourceIdx hS hb hs (by omega) (by omega)

/-- The first positions of the windows, in the order of the read list. -/
def windowStarts (S : StreamParams) (n m : Nat) : List Int :=
  (if S.overlap then
    (boundaries S.ratio n m).map fun i : Nat => (n + i : Int) + 1 - S.ratio - S.ratio
  else []) ++ (boundaries S.ratio n m).map fun i : Nat => (n + i : Int) + 1 - S.ratio

/-- The plan of a batch that needs no scratch write. -/
theorem plan_of_not_scratch (hb : PositionsFrom n b) (hs : SingleSeq s b)
    (hscratch : S.scratch b = false) :
    (S.plan b).stateWriteIdxs
        = (boundaries S.ratio n b.nTokens).map (fun i => (n + i) / S.ratio) ∧
      (S.plan b).stateWritePos
        = (boundaries S.ratio n b.nTokens).map (fun i : Nat => (n + i : Int) + 1 - S.ratio) ∧
      (S.plan b).stateReadIdxs
        = (windowStarts S n b.nTokens).flatMap (windowReads b S.ratio S.stateSize s) := by
  obtain ⟨hwrite, hpos, hprev, hcur⟩ :=
    planLoop_single S.ratio S.overlap S.stateSize hb hs (Nat.le_refl _)
  rw [StreamParams.scratch] at hscratch
  simp only [StreamParams.plan, dsv4BuildCompPlan, hscratch, Bool.false_eq_true, if_false]
  refine ⟨hwrite, hpos, ?_⟩
  rw [hprev, hcur, windowStarts]
  cases S.overlap
  · simp [List.flatMap_map]
  · simp [List.flatMap_map, List.flatMap_append]

/-- The blocks of a batch are those of its boundaries. -/
theorem blocks_eq (hr : 0 < S.ratio) (hS : history S.ratio S.overlap ≤ S.stateSize)
    (hb : PositionsFrom n b) (hs : SingleSeq s b) (hscratch : S.scratch b = false) :
    blocks S (ringUpTo S n) b
      = (boundaries S.ratio n b.nTokens).map fun i => blockAt S (n + i) := by
  obtain ⟨hwrite, hpos, hread⟩ := plan_of_not_scratch hb hs hscratch
  have hlen : ∀ x ∈ windowStarts S n b.nTokens,
      (windowReads b S.ratio S.stateSize s x).length = S.ratio := by
    intro x _
    simp [windowReads]
  have hpos' : 0 < S.stateSize := by
    unfold history at hS
    split at hS <;> omega
  simp only [blocks, hwrite, hpos, hread, List.length_map]
  apply List.ext_getElem
  · simp
  · intro k hk hk'
    have hk : k < (boundaries S.ratio n b.nTokens).length := by simpa using hk
    -- The boundary token of block `k`.
    obtain ⟨hi, -⟩ := List.mem_filter.mp (List.getElem_mem hk)
    have hi := List.mem_range.mp hi
    set i := (boundaries S.ratio n b.nTokens)[k] with hik
    have hprev : S.overlap = true → 2 * S.ratio ≤ S.stateSize := by
      intro hov
      rw [history, hov] at hS
      exact hS
    have hcur : S.ratio ≤ S.stateSize := by
      unfold history at hS
      split at hS <;> omega
    simp only [List.getElem_map, List.getElem_range, ← hik, blockAt]
    cases hov : S.overlap with
    | false =>
      -- One window for each block: window `k` of the read list is its own.
      have hstart : (windowStarts S n b.nTokens)[k]?
          = some ((n + i : Int) + 1 - S.ratio) := by
        simp [windowStarts, hov, hk, ← hik]
      obtain ⟨hlt, hget⟩ := List.getElem?_eq_some_iff.mp hstart
      rw [Block.mk.injEq]
      refine ⟨?_, ?_, rfl, ?_⟩
      · simp [List.getD, hk, ← hik]
      · simp [List.getD, hk, ← hik]
      · simp only [Bool.false_eq_true, if_false]
        rw [window_flatMap hlen hlt, hget, map_windowReads hpos' hb hs (by omega) (by omega)]
        simp
    | true =>
      -- All previous windows come first, so its own is a list length further on.
      have hstart : (windowStarts S n b.nTokens)[k]?
          = some ((n + i : Int) + 1 - S.ratio - S.ratio) := by
        simp [windowStarts, hov, hk, ← hik, List.getElem?_append_left]
      have hstart' : (windowStarts S n b.nTokens)[
          (boundaries S.ratio n b.nTokens).length + k]?
          = some ((n + i : Int) + 1 - S.ratio) := by
        simp [windowStarts, hov, hk, ← hik]
      obtain ⟨hlt, hget⟩ := List.getElem?_eq_some_iff.mp hstart
      obtain ⟨hlt', hget'⟩ := List.getElem?_eq_some_iff.mp hstart'
      have hstate := hprev hov
      rw [Block.mk.injEq]
      refine ⟨?_, ?_, ?_, ?_⟩
      · simp [List.getD, hk, ← hik]
      · simp [List.getD, hk, ← hik]
      · simp only [if_true]
        rw [window_flatMap hlen hlt, hget, map_windowReads hpos' hb hs (by omega) (by omega)]
        simp
      · simp only [if_true]
        rw [window_flatMap hlen hlt', hget', map_windowReads hpos' hb hs (by omega) (by omega)]
        simp

/-- The persist rows of a plan are those of its loop. The plan sorts them; nothing else touches
them. -/
theorem mem_persistPairs {dst src : Nat} :
    (dst, src) ∈ (S.plan b).statePersistDstIdxs.zip (S.plan b).statePersistSrcIdxs ↔
      ∃ r ∈ (planLoop b S.ratio S.overlap S.stateSize b.nTokens).persistRows,
        r.dst = dst ∧ r.src = src := by
  have hacc : ∀ acc : PlanAcc, (if needsScratch S.ratio acc then
      addScratch b S.ratio S.overlap S.stateSize S.cacheSize acc else acc).persistRows
        = acc.persistRows := by
    intro acc
    split
    · rfl
    · rfl
  simp only [StreamParams.plan, dsv4BuildCompPlan, hacc, List.zip_map']
  rw [List.mem_map]
  constructor
  · rintro ⟨r, hr, heq⟩
    exact ⟨r, (List.mem_insertionSort _).mp hr, (Prod.mk.inj heq).1, (Prod.mk.inj heq).2⟩
  · rintro ⟨r, hr, rfl, rfl⟩
    exact ⟨r, (List.mem_insertionSort _).mpr hr, rfl⟩

/-- Persisting takes the ring from the positions below `n` to those below `n + nTokens`. -/
theorem persist_eq (hS : 0 < S.stateSize) (hb : PositionsFrom n b) (hs : SingleSeq s b) :
    persist S (ringUpTo S n) b = ringUpTo S (n + b.nTokens) := by
  have hrows := planLoop_persistRows S.ratio S.overlap S.stateSize hS hb hs (Nat.le_refl _)
  set rows := (planLoop b S.ratio S.overlap S.stateSize b.nTokens).persistRows with hrowsdef
  have hmem : ∀ w, w ∈ ((S.plan b).statePersistDstIdxs.zip (S.plan b).statePersistSrcIdxs).map
        (fun p : Nat × Nat => (p.1, Source.token (dsv4BatchPos b p.2))) ↔
      ∃ r ∈ rows, w = (r.dst, Source.token (dsv4BatchPos b r.src)) := by
    intro w
    rw [List.mem_map]
    constructor
    · rintro ⟨⟨dst, src⟩, hpair, rfl⟩
      obtain ⟨r, hr, rfl, rfl⟩ := mem_persistPairs.mp hpair
      exact ⟨r, hr, rfl⟩
    · rintro ⟨r, hr, rfl⟩
      exact ⟨(r.dst, r.src), mem_persistPairs.mpr ⟨r, hr, rfl, rfl⟩, rfl⟩
  -- Each store is the latest position of its row, and each new position has a store.
  refine Ring.run_content hS _ _ ?_ ?_
  · intro w hw
    obtain ⟨r, hr, rfl⟩ := (hmem w).mp hw
    obtain ⟨hsrc, hpos⟩ := hrows.src r hr
    refine ⟨r.pos, by omega, hrows.latest r hr, ?_⟩
    rw [hb r.src hsrc, hpos]
    rfl
  · intro q hq hq'
    obtain ⟨r, hr, hrq⟩ := hrows.hit q hq hq'
    exact ⟨_, (hmem _).mpr ⟨r, hr, rfl⟩, hrq⟩

/-- One batch takes the stream from the positions below `n` to those below `n + nTokens`. -/
theorem compress_step (hr : 0 < S.ratio) (hS : history S.ratio S.overlap ≤ S.stateSize)
    (hb : PositionsFrom n b) (hs : SingleSeq s b) :
    compress S ⟨ringUpTo S n, committedUpTo S n⟩ b
      = ⟨ringUpTo S (n + b.nTokens), committedUpTo S (n + b.nTokens)⟩ := by
  have hpos : 0 < S.stateSize := by
    unfold history at hS
    split at hS <;> omega
  rw [compress, StreamState.mk.injEq]
  refine ⟨persist_eq hpos hb hs, ?_⟩
  rw [committedUpTo_add]
  congr 1
  cases hscratch : S.scratch b with
  | true =>
    -- A batch with the scratch write has no boundary.
    have hwrite := (planLoop_single S.ratio S.overlap S.stateSize hb hs (Nat.le_refl _)).1
    simp only [StreamParams.scratch, needsScratch, Bool.and_eq_true, List.isEmpty_iff]
      at hscratch
    rw [hscratch.1.2, eq_comm, List.map_eq_nil_iff] at hwrite
    rw [hwrite]
    rfl
  | false => exact blocks_eq hr hS hb hs hscratch

/-- A run of batches from position `n` on. -/
theorem foldl_compress (hr : 0 < S.ratio) (hS : history S.ratio S.overlap ≤ S.stateSize)
    {bs : List LlamaBatch} (hrun : Consecutive n bs) (hs : ∀ b ∈ bs, SingleSeq s b) :
    bs.foldl (compress S) ⟨ringUpTo S n, committedUpTo S n⟩
      = ⟨ringUpTo S (n + totalTokens bs), committedUpTo S (n + totalTokens bs)⟩ := by
  induction bs generalizing n with
  | nil => rfl
  | cons b bs ih =>
    obtain ⟨hb, hrest⟩ := hrun
    rw [List.foldl_cons, compress_step hr hS hb (hs b (List.mem_cons_self ..)),
      ih hrest (fun b' hb' => hs b' (List.mem_cons_of_mem _ hb')), totalTokens_cons,
      Nat.add_assoc]

/-- A run from the empty stream depends on the number of its tokens alone. -/
theorem compressRun_eq (hr : 0 < S.ratio) (hS : history S.ratio S.overlap ≤ S.stateSize)
    {bs : List LlamaBatch} (hrun : Consecutive 0 bs) (hs : ∀ b ∈ bs, SingleSeq s b) :
    compressRun S bs = ⟨ringUpTo S (totalTokens bs), committedUpTo S (totalTokens bs)⟩ := by
  have h := foldl_compress hr hS hrun hs
  rw [Nat.zero_add] at h
  rw [← h, ringUpTo, Ring.content_zero]
  rfl

/-- The ring always holds the history that a block reads. -/
theorem history_le_dsv4StateRows (pad : Bool) (history nUbatch : Nat) :
    history ≤ dsv4StateRows pad history nUbatch := by
  unfold dsv4StateRows
  split <;> omega

/-- **Compression does not depend on the split.** For every ratio, with or without the
overlapped previous window, and for both ring sizes, a run of consecutive positions from 0
commits the same blocks and leaves the same ring as the run of as many tokens that decodes
one token at a time. -/
theorem compression_split_independent {ratio : Nat} (hr : 0 < ratio) (overlap pad : Bool)
    (nUbatch kvSize : Nat) {s : Int} {bs ones : List LlamaBatch}
    (hrun : Consecutive 0 bs) (hs : ∀ b ∈ bs, SingleSeq s b)
    (hrun1 : Consecutive 0 ones) (hs1 : ∀ b ∈ ones, SingleSeq s b)
    (hone : ∀ b ∈ ones, b.nTokens = 1) (htotal : ones.length = totalTokens bs) :
    let S := stream ratio overlap pad nUbatch kvSize
    (compressRun S bs).committed = (compressRun S ones).committed ∧
      (compressRun S bs).ring = (compressRun S ones).ring := by
  intro S
  have hS : history S.ratio S.overlap ≤ S.stateSize := history_le_dsv4StateRows _ _ _
  have htotal1 : totalTokens ones = ones.length := by
    rw [totalTokens, List.map_congr_left hone]
    simp
  -- Both runs are the closed form at one number of tokens.
  rw [compressRun_eq hr hS hrun hs, compressRun_eq hr hS hrun1 hs1, htotal1, htotal]
  exact ⟨rfl, rfl⟩

/-- Ten tokens of a CSA stream, cut after the third and the eighth: blocks 0 and 1 come out
as when they are decoded one by one. -/
theorem compression_split_independent_ten :
    let S := stream 4 true false 512 1024
    (compressRun S [batchOfPositions [0, 1, 2], batchOfPositions [3, 4, 5, 6, 7],
        batchOfPositions [8, 9]]).committed
      = (compressRun S ((List.range 10).map fun p : Nat => batchOfPositions [p])).committed := by
  have hsingle : ∀ ps : List Int, SingleSeq 0 (batchOfPositions ps) := fun _ _ _ => ⟨rfl, rfl⟩
  have h := compression_split_independent (show 0 < 4 by decide) true false 512 1024
    (show Consecutive 0 [batchOfPositions [0, 1, 2], batchOfPositions [3, 4, 5, 6, 7],
      batchOfPositions [8, 9]] by decide)
    (by simp only [List.forall_mem_cons]; exact ⟨hsingle _, hsingle _, hsingle _, by simp⟩)
    (show Consecutive 0 ((List.range 10).map fun p : Nat => batchOfPositions [p]) by decide)
    (fun b hb => by obtain ⟨p, _, rfl⟩ := List.mem_map.mp hb; exact hsingle _)
    (by decide) (by decide)
  exact h.1

end PxqLlama.Dsv4
