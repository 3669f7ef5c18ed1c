import PxqLlama.Proofs.Dsv4.RawRing

/-!
# `Proofs.Dsv4.RawWindow`: when the window shows what the ring shows

Window mode gathers `nSwa` prior rows and the rows of the batch, and masks them by
position. The rows it opens for a query are the rows of a list of positions
(`windowPositions`), and so are the rows that ring mode opens (`slidingPositions`). All of
these positions lie in one window of at most `nSwa` positions, where a row determines its
position, so the two modes agree on the rows exactly when they agree on the positions.

Ring mode opens a row for every position of the window. Window mode opens a prior column
for each position below the batch, but from the batch's least position on it opens one
column for each *token*. A position that two tokens share is counted twice, and one that
no token has is not counted (`window_refines_ring_iff`).
-/

namespace PxqLlama.Dsv4

/-- The ring rows open for token `i` in ring mode. -/
def ringRows (rawSize nSwa : Nat) (b : LlamaBatch) (i : Nat) : List Int :=
  ((List.range rawSize).filter (ringOpen rawSize nSwa b i)).map fun j : Nat => (j : Int)

/-- The ring rows of the open columns of token `i` in window mode, one entry a column. -/
def windowRows (rawSize nSwa align : Nat) (b : LlamaBatch) (i : Nat) : List Int :=
  ((List.range (rawWindowWidth rawSize nSwa align b.nTokens)).filter (winOpen nSwa b i)).map
    (winIdx rawSize nSwa b)

/-! ### The least position of a batch -/

/-- What the loop for `P` has after `n` tokens. -/
def winBaseLoop (b : LlamaBatch) (n : Nat) : Option Int :=
  (List.range n).foldl (fun (P : Option Int) i =>
    let p := dsv4BatchPos b i
    match P with
    | none => if 0 ≤ p then some p else none
    | some P => if 0 ≤ p ∧ p < P then some p else some P) none

/-- The base of the window is below every position of the batch, if there is any. -/
theorem winBaseLoop_spec (b : LlamaBatch) (n : Nat) :
    (∀ P, winBaseLoop b n = some P → 0 ≤ P ∧
      ∀ i < n, 0 ≤ dsv4BatchPos b i → P ≤ dsv4BatchPos b i) ∧
    (winBaseLoop b n = none → ∀ i < n, dsv4BatchPos b i < 0) := by
  induction n with
  | zero => simp [winBaseLoop]
  | succ n ih =>
    have hstep : winBaseLoop b (n + 1) = (fun (P : Option Int) =>
        match P with
        | none => if 0 ≤ dsv4BatchPos b n then some (dsv4BatchPos b n) else none
        | some P => if 0 ≤ dsv4BatchPos b n ∧ dsv4BatchPos b n < P
          then some (dsv4BatchPos b n) else some P) (winBaseLoop b n) := by
      rw [winBaseLoop, List.range_succ, List.foldl_append]
      rfl
    rw [hstep]
    cases hprev : winBaseLoop b n with
    | none =>
      -- no position from zero up before token `n`
      have hnone := ih.2 hprev
      by_cases hp : 0 ≤ dsv4BatchPos b n
      · simp only [hp, if_true]
        refine ⟨fun P hP => ?_, fun h => by cases h⟩
        cases hP
        refine ⟨hp, fun i hi hpos => ?_⟩
        by_cases hin : i = n
        · rw [hin]
        · have := hnone i (by omega)
          omega
      · simp only [hp, if_false]
        refine ⟨fun P hP => (by cases hP), fun _ i hi => ?_⟩
        by_cases hin : i = n
        · rw [hin]
          omega
        · exact hnone i (by omega)
    | some P₀ =>
      obtain ⟨hP₀, hmin⟩ := ih.1 P₀ hprev
      -- token `n` is the new least one, or the old one stays
      by_cases hp : 0 ≤ dsv4BatchPos b n ∧ dsv4BatchPos b n < P₀
      · simp only [hp, and_self, if_true]
        refine ⟨fun P hP => ?_, fun h => by cases h⟩
        cases hP
        refine ⟨hp.1, fun i hi hpos => ?_⟩
        by_cases hin : i = n
        · rw [hin]
        · have := hmin i (by omega) hpos
          omega
      · simp only [hp, if_false]
        refine ⟨fun P hP => ?_, fun h => by cases h⟩
        cases hP
        refine ⟨hP₀, fun i hi hpos => ?_⟩
        by_cases hin : i = n
        · rw [hin] at hpos ⊢
          omega
        · exact hmin i (by omega) hpos

/-- The base is not negative, and no token has a position from zero up to the base. -/
theorem winBase_spec (b : LlamaBatch) :
    0 ≤ winBase b ∧
      ∀ i < b.nTokens, 0 ≤ dsv4BatchPos b i → winBase b ≤ dsv4BatchPos b i := by
  have hspec := winBaseLoop_spec b b.nTokens
  have hbase : winBase b = (winBaseLoop b b.nTokens).getD 0 := rfl
  rw [hbase]
  cases h : winBaseLoop b b.nTokens with
  | none =>
    refine ⟨Int.le_refl 0, fun i hi hpos => ?_⟩
    have := hspec.2 h i hi
    omega
  | some P => exact hspec.1 P h

/-! ### The positions that the two modes show -/

/-- The positions of the open columns of token `i` in window mode: the prior ones, then
those of the batch. -/
def windowPositions (nSwa : Nat) (b : LlamaBatch) (i : Nat) : List Int :=
  ((List.range nSwa).filter (winOpen nSwa b i)).map (fun c : Nat => winBase b - nSwa + c) ++
  ((List.range b.nTokens).filter fun k => winOpen nSwa b i (nSwa + k)).map (dsv4BatchPos b)

/-- The positions of the sliding window of `p`. -/
def slidingPositions (nSwa : Nat) (p : Int) : List Int :=
  ((List.range nSwa).map fun d : Nat => p - d).filter fun q => decide (0 ≤ q)

variable {nSwa i : Nat} {b : LlamaBatch} {q : Int}

theorem le_rawWindowWidth {S nTokens : Nat} (align : Nat) (h : nSwa + nTokens ≤ S) :
    nSwa + nTokens ≤ rawWindowWidth S nSwa align nTokens := by
  have hpad := Ggml.le_ggmlPad (nSwa + nTokens) align
  simp only [rawWindowWidth]
  split <;> omega

/-- The open columns of window mode hold the rows of its positions. -/
theorem windowRows_eq {S : Nat} (align : Nat) (i : Nat) (h : nSwa + b.nTokens ≤ S) :
    windowRows S nSwa align b i = (windowPositions nSwa b i).map fun q => q.tmod S := by
  have hwidth := le_rawWindowWidth align h
  obtain ⟨k, hk⟩ := Nat.exists_eq_add_of_le hwidth
  -- The columns past the batch are filler and stay closed.
  have hfiller : (((List.range k).map fun c => nSwa + b.nTokens + c).filter
      (winOpen nSwa b i)) = [] := by
    rw [List.filter_eq_nil_iff]
    intro c hc
    obtain ⟨c', -, rfl⟩ := List.mem_map.mp hc
    simp only [winOpen]
    rw [if_neg (show ¬ nSwa + b.nTokens + c' < nSwa by omega),
      if_neg (show ¬ nSwa + b.nTokens + c' < nSwa + b.nTokens by omega)]
    simp
  rw [windowRows, hk, List.range_add, List.range_add, List.filter_append, List.filter_append,
    hfiller, List.append_nil, windowPositions, List.map_append, List.map_append,
    List.filter_map, List.map_map, List.map_map, List.map_map]
  congr 1
  · -- An open prior column has a position from zero up, so it does not hold the safe row.
    refine List.map_congr_left (fun c hc => ?_)
    obtain ⟨hc, hopen⟩ := List.mem_filter.mp hc
    have hc := List.mem_range.mp hc
    simp only [winOpen, hc, if_true] at hopen
    have hpos : 0 ≤ winBase b - nSwa + c := by
      split at hopen
      · cases hopen
      · exact (of_decide_eq_true hopen).1
    simp only [winIdx, hc, if_true, hpos, Function.comp_apply]
  · refine List.map_congr_left (fun k hk => ?_)
    have hk := List.mem_range.mp (List.mem_filter.mp hk).1
    simp only [Function.comp_apply, winIdx]
    rw [if_neg (by omega), if_pos (by omega), rawKIdx, Nat.add_sub_cancel_left]

theorem mem_slidingPositions {p : Int} :
    q ∈ slidingPositions nSwa p ↔ 0 ≤ q ∧ q ≤ p ∧ p < q + nSwa := by
  simp only [slidingPositions, List.mem_filter, List.mem_map, List.mem_range,
    decide_eq_true_eq]
  constructor
  · rintro ⟨⟨d, hd, rfl⟩, hq⟩
    omega
  · rintro ⟨hq, hqp, hwin⟩
    exact ⟨⟨(p - q).toNat, by omega, by omega⟩, hq⟩

theorem nodup_slidingPositions (nSwa : Nat) (p : Int) : (slidingPositions nSwa p).Nodup := by
  refine List.Nodup.filter _ (List.Nodup.map ?_ List.nodup_range)
  intro d d' h
  have h : p - (d : Int) = p - (d' : Int) := h
  omega

/-- The position at most `p` and above `p - S` that row `r` stands for. -/
def ringPos (S : Nat) (p r : Int) : Int := p - (p - r) % S

/-- In a window of at most `S` positions a ring row determines its position. -/
theorem ringPos_tmod {S : Nat} (hS : nSwa ≤ S) {p : Int} (h0 : 0 ≤ q) (hq : q ≤ p)
    (hw : p < q + nSwa) : ringPos S p (q.tmod S) = q := by
  have hdm := Int.mul_ediv_add_emod q S
  have hsplit : p - q % S = (p - q) + S * (q / S) := by omega
  rw [ringPos, Int.tmod_eq_emod_of_nonneg h0, hsplit, Int.add_mul_emod_self_left,
    Int.emod_eq_of_lt (by omega) (by omega)]
  omega

/-- The open rows of ring mode are the rows of the sliding window. -/
theorem ringRows_perm {S : Nat} (hS : nSwa < S) {p : Nat} (hp : dsv4BatchPos b i = p) :
    (ringRows S nSwa b i).Perm ((slidingPositions nSwa p).map fun q => q.tmod S) := by
  -- Both lists have no repetition: the window is shorter than the ring.
  have hpos : ∀ q ∈ slidingPositions nSwa p, ringPos S p (q.tmod S) = q := by
    intro q hq
    obtain ⟨h0, hqp, hw⟩ := mem_slidingPositions.mp hq
    exact ringPos_tmod (by omega) h0 hqp hw
  have hinj : ∀ q ∈ slidingPositions nSwa p, ∀ q' ∈ slidingPositions nSwa p,
      q.tmod S = q'.tmod S → q = q' := by
    intro q hq q' hq' heq
    rw [← hpos q hq, heq, hpos q' hq']
  have hnodup : (ringRows S nSwa b i).Nodup :=
    (List.nodup_range.filter _).map fun _ _ h => Int.ofNat.inj h
  refine (List.perm_ext_iff_of_nodup hnodup
    ((nodup_slidingPositions nSwa p).map_on hinj)).mpr (fun r => ?_)
  simp only [ringRows, List.mem_map, List.mem_filter, List.mem_range]
  constructor
  · rintro ⟨j, ⟨hj, hopen⟩, rfl⟩
    obtain ⟨q, hq, hwin⟩ := (ringOpen_iff hj hp).mp hopen
    have hlt := hq.lt
    refine ⟨q, mem_slidingPositions.mpr ⟨by omega, by omega, by omega⟩, ?_⟩
    rw [Int.tmod_eq_emod_of_nonneg (by omega)]
    exact_mod_cast hq.row
  · rintro ⟨q, hq, rfl⟩
    obtain ⟨h0, hqp, hwin⟩ := mem_slidingPositions.mp hq
    obtain ⟨x, rfl⟩ : ∃ x : Nat, q = x := ⟨q.toNat, by omega⟩
    have hlat : Ring.IsLatest S (p + 1) (x % S) x := ⟨by omega, rfl, by omega⟩
    have hrow : x % S < S := Nat.mod_lt x (by omega)
    refine ⟨x % S, ⟨hrow, (ringOpen_iff hrow hp).mpr ⟨x, hlat, by omega⟩⟩, ?_⟩
    rw [Int.tmod_eq_emod_of_nonneg (by omega)]
    rfl

/-! ### How often window mode shows a position -/

theorem countP_range_eq_one {n : Nat} {f : Nat → Bool} :
    (List.range n).countP f = 1 ↔ ∃! k, k < n ∧ f k = true := by
  have hmem : ∀ k, k ∈ (List.range n).filter f ↔ k < n ∧ f k = true := by
    intro k
    rw [List.mem_filter, List.mem_range]
  rw [List.countP_eq_length_filter, List.length_eq_one_iff]
  constructor
  · rintro ⟨a, ha⟩
    rw [ha] at hmem
    refine ⟨a, (hmem a).mp (List.mem_singleton.mpr rfl), fun k hk => ?_⟩
    exact List.mem_singleton.mp ((hmem k).mpr hk)
  · rintro ⟨a, ha, huniq⟩
    refine ⟨a, List.perm_singleton.mp ?_⟩
    refine (List.perm_ext_iff_of_nodup (List.nodup_range.filter _)
      (List.nodup_singleton a)).mpr (fun k => ?_)
    rw [hmem, List.mem_singleton]
    constructor
    · intro hk
      exact huniq k hk
    · rintro rfl
      exact ha

/-- A prior column of a query at `p` is open when its position lies in the window. -/
theorem winOpen_prior {p c : Nat} (hp : dsv4BatchPos b i = p) (hc : c < nSwa) :
    winOpen nSwa b i c = true ↔ 0 ≤ winBase b - nSwa + c ∧ winBase b - nSwa + c ≤ p ∧
      p < winBase b - nSwa + c + nSwa := by
  simp only [winOpen, hp, show ¬ ((p : Int) < 0) by omega, if_false, hc, if_true,
    decide_eq_true_eq]
  omega

/-- The column of token `k` is open when the token's position lies in the window. -/
theorem winOpen_batch {p k : Nat} (hp : dsv4BatchPos b i = p) (hk : k < b.nTokens) :
    winOpen nSwa b i (nSwa + k) = true ↔ 0 ≤ dsv4BatchPos b k ∧ dsv4BatchPos b k ≤ p ∧
      p < dsv4BatchPos b k + nSwa := by
  simp only [winOpen, hp, show ¬ ((p : Int) < 0) by omega, if_false,
    show ¬ nSwa + k < nSwa by omega, show nSwa + k < nSwa + b.nTokens by omega, if_true,
    Nat.add_sub_cancel_left, decide_eq_true_eq]
  omega

/-- Window mode shows a position of the window once when it lies below the batch, and once
for each token that has it otherwise. -/
theorem count_windowPositions {p : Nat} (hi : i < b.nTokens) (hp : dsv4BatchPos b i = p)
    (h0 : 0 ≤ q) (hqp : q ≤ p) (hwin : p < q + nSwa) :
    (windowPositions nSwa b i).count q = if q < winBase b then 1
      else (List.range b.nTokens).countP fun k => decide (dsv4BatchPos b k = q) := by
  obtain ⟨hbase, hmin⟩ := winBase_spec b
  -- The prior columns end below the base, and the tokens start at it: a position is counted
  -- in one of the two parts.
  have hbasep : winBase b ≤ p := by
    have := hmin i hi (by omega)
    omega
  have hprior : (((List.range nSwa).filter (winOpen nSwa b i)).map
      fun c : Nat => winBase b - nSwa + c).count q = if q < winBase b then 1 else 0 := by
    rw [List.count, List.countP_map, List.countP_filter]
    split
    · -- Its column is the distance of `q` from the start of the prior window.
      rename_i hlt
      rw [countP_range_eq_one]
      refine ⟨(q - winBase b + nSwa).toNat, ⟨by omega, ?_⟩, ?_⟩
      · rw [Bool.and_eq_true, winOpen_prior hp (by omega)]
        refine ⟨beq_iff_eq.mpr ?_, by omega⟩
        show winBase b - nSwa + ((q - winBase b + nSwa).toNat : Int) = q
        omega
      · rintro c ⟨hc, hcq⟩
        rw [Bool.and_eq_true] at hcq
        have hcq : winBase b - nSwa + (c : Int) = q := beq_iff_eq.mp hcq.1
        omega
    · -- The prior columns stop right below the base.
      rename_i hlt
      rw [List.countP_eq_zero]
      intro c hc hcq
      have hc := List.mem_range.mp hc
      rw [Bool.and_eq_true] at hcq
      have hcq : winBase b - nSwa + (c : Int) = q := beq_iff_eq.mp hcq.1
      omega
  have hbatch : (((List.range b.nTokens).filter fun k =>
      winOpen nSwa b i (nSwa + k)).map (dsv4BatchPos b)).count q
        = if q < winBase b then 0
          else (List.range b.nTokens).countP fun k => decide (dsv4BatchPos b k = q) := by
    rw [List.count, List.countP_map, List.countP_filter]
    split
    · rename_i hlt
      rw [List.countP_eq_zero]
      intro k hk hkq
      rw [Bool.and_eq_true] at hkq
      have hkq : dsv4BatchPos b k = q := beq_iff_eq.mp hkq.1
      have := hmin k (List.mem_range.mp hk) (by omega)
      omega
    · refine List.countP_congr (fun k hk => ?_)
      have hk := List.mem_range.mp hk
      rw [Bool.and_eq_true, winOpen_batch hp hk, Function.comp_apply, beq_iff_eq,
        decide_eq_true_eq]
      constructor
      · intro h
        exact h.1
      · intro h
        exact ⟨h, by omega⟩
  rw [windowPositions, List.count_append, hprior, hbatch]
  split <;> omega

/-- Every position that window mode shows lies in the sliding window. -/
theorem mem_windowPositions {p : Nat} (hp : dsv4BatchPos b i = p)
    (hq : q ∈ windowPositions nSwa b i) : 0 ≤ q ∧ q ≤ p ∧ p < q + nSwa := by
  rw [windowPositions, List.mem_append] at hq
  rcases hq with hq | hq
  · obtain ⟨c, hc, rfl⟩ := List.mem_map.mp hq
    obtain ⟨hc, hopen⟩ := List.mem_filter.mp hc
    exact (winOpen_prior hp (List.mem_range.mp hc)).mp hopen
  · obtain ⟨k, hk, rfl⟩ := List.mem_map.mp hq
    obtain ⟨hk, hopen⟩ := List.mem_filter.mp hk
    exact (winOpen_batch hp (List.mem_range.mp hk)).mp hopen

/-- Mapping two lists by a function that can be undone on them keeps and reflects
permutations. -/
theorem perm_map_iff {l l' : List Int} {f g : Int → Int} (h : ∀ q ∈ l, g (f q) = q)
    (h' : ∀ q ∈ l', g (f q) = q) : (l.map f).Perm (l'.map f) ↔ l.Perm l' := by
  have hundo : ∀ l : List Int, (∀ q ∈ l, g (f q) = q) → (l.map f).map g = l := by
    intro l hl
    rw [List.map_map]
    exact (List.map_congr_left hl).trans (List.map_id l)
  constructor
  · intro hperm
    have hg := hperm.map g
    rwa [hundo l h, hundo l' h'] at hg
  · intro hperm
    exact hperm.map f

/-- Two positions lists agree when window mode shows the positions of the batch's part of
the window once each. -/
theorem windowPositions_perm_iff {p : Nat} (hi : i < b.nTokens) (hp : dsv4BatchPos b i = p) :
    (windowPositions nSwa b i).Perm (slidingPositions nSwa p) ↔
      ∀ q : Int, max (winBase b) ((p : Int) - nSwa + 1) ≤ q → q ≤ p →
        ∃! k, k < b.nTokens ∧ dsv4BatchPos b k = q := by
  have hbase := (winBase_spec b).1
  have hsliding : ∀ q : Int, 0 ≤ q → q ≤ p → (p : Int) < q + nSwa →
      (slidingPositions nSwa p).count q = 1 := by
    intro q h0 hqp hwin
    exact List.count_eq_one_of_mem (nodup_slidingPositions nSwa p)
      (mem_slidingPositions.mpr ⟨h0, hqp, hwin⟩)
  rw [List.perm_iff_count]
  constructor
  · intro hcount q hlo hqp
    have hone := hcount q
    rw [hsliding q (by omega) hqp (by omega),
      count_windowPositions hi hp (by omega) hqp (by omega), if_neg (by omega),
      countP_range_eq_one] at hone
    simpa only [decide_eq_true_eq] using hone
  · intro hcond q
    -- Outside the sliding window both counts are zero.
    by_cases hmem : q ∈ slidingPositions nSwa p
    · obtain ⟨h0, hqp, hwin⟩ := mem_slidingPositions.mp hmem
      rw [hsliding q h0 hqp hwin, count_windowPositions hi hp h0 hqp hwin]
      split
      · rfl
      · rw [countP_range_eq_one]
        simpa only [decide_eq_true_eq] using hcond q (by omega) hqp
    · have hmem' : q ∉ windowPositions nSwa b i := by
        intro hq
        exact hmem (mem_slidingPositions.mpr (mem_windowPositions hp hq))
      rw [List.count_eq_zero_of_not_mem hmem, List.count_eq_zero_of_not_mem hmem']

/-- A token below position zero sees nothing in either mode. -/
theorem rows_of_neg (S nSwa align : Nat) (hp : dsv4BatchPos b i < 0) :
    windowRows S nSwa align b i = [] ∧ ringRows S nSwa b i = [] := by
  have hwin : winOpen nSwa b i = fun _ => false := by
    funext c
    simp [winOpen, hp]
  have hring : ringOpen S nSwa b i = fun _ => false := by
    funext j
    simp [ringOpen, hp]
  constructor
  · simp [windowRows, hwin]
  · simp [ringRows, hring]

/-- **When window mode refines ring mode.** For every batch of at most `nUbatch` tokens and
every token of it, the open window columns hold the open ring rows, each once, exactly
when every position of the sliding window from the batch's least position on belongs to
exactly one token. -/
theorem window_refines_ring_iff {S nSwa nUbatch : Nat} (hS : nUbatch + nSwa + 1 ≤ S)
    (align : Nat) {b : LlamaBatch} (hb : b.nTokens ≤ nUbatch) {i : Nat} (hi : i < b.nTokens) :
    (windowRows S nSwa align b i).Perm (ringRows S nSwa b i) ↔
      ∀ q, max (winBase b) (dsv4BatchPos b i - nSwa + 1) ≤ q → q ≤ dsv4BatchPos b i →
        ∃! k, k < b.nTokens ∧ dsv4BatchPos b k = q := by
  by_cases hneg : dsv4BatchPos b i < 0
  · have hbase := (winBase_spec b).1
    obtain ⟨hwin, hring⟩ := rows_of_neg S nSwa align hneg
    rw [hwin, hring]
    constructor
    · intro _ q hlo hhi
      omega
    · intro _
      exact List.Perm.refl _
  · obtain ⟨p, hp⟩ : ∃ p : Nat, dsv4BatchPos b i = p :=
      ⟨(dsv4BatchPos b i).toNat, by omega⟩
    -- In the window a row determines its position, so rows agree when positions do.
    have hundoW : ∀ q ∈ windowPositions nSwa b i, ringPos S p (q.tmod S) = q := by
      intro q hq
      obtain ⟨h0, hqp, hwin⟩ := mem_windowPositions hp hq
      exact ringPos_tmod (by omega) h0 hqp hwin
    have hundoR : ∀ q ∈ slidingPositions nSwa p, ringPos S p (q.tmod S) = q := by
      intro q hq
      obtain ⟨h0, hqp, hwin⟩ := mem_slidingPositions.mp hq
      exact ringPos_tmod (by omega) h0 hqp hwin
    rw [windowRows_eq align i (by omega), List.Perm.congr_right (ringRows_perm (by omega) hp),
      perm_map_iff hundoW hundoR, hp]
    exact windowPositions_perm_iff hi hp

/-- A batch of two tokens that share a position: window mode opens their ring row twice,
ring mode once. -/
theorem window_counts_shared_position_twice :
    let b := batchOfPositions [0, 0]
    (2 : Nat) + 2 + 1 ≤ rawSize 2 2 ∧ b.nTokens ≤ 2 ∧
      windowRows (rawSize 2 2) 2 64 b 0 = [0, 0] ∧ ringRows (rawSize 2 2) 2 b 0 = [0] ∧
      ¬ (windowRows (rawSize 2 2) 2 64 b 0).Perm (ringRows (rawSize 2 2) 2 b 0) := by
  intro b
  have hwin : windowRows (rawSize 2 2) 2 64 b 0 = [0, 0] := by decide
  have hring : ringRows (rawSize 2 2) 2 b 0 = [0] := by decide
  refine ⟨by decide, by decide, hwin, hring, ?_⟩
  rw [hwin, hring]
  decide

/-- The condition holds for the batch at positions 7, 8, 9, and the modes agree on the
window `{7, 8}` of its second token. -/
theorem window_refines_ring_789 :
    (windowRows (rawSize 3 2) 2 64 (batchOfPositions [7, 8, 9]) 1).Perm
      (ringRows (rawSize 3 2) 2 (batchOfPositions [7, 8, 9]) 1) := by
  refine (window_refines_ring_iff (show 3 + 2 + 1 ≤ rawSize 3 2 by decide) 64 (by decide)
    (by decide)).mpr ?_
  have hpos : dsv4BatchPos (batchOfPositions [7, 8, 9]) 1 = 8 := by decide
  have hbase : winBase (batchOfPositions [7, 8, 9]) = 7 := by decide
  rw [hpos, hbase]
  intro q hlo hhi
  have hq : q = 7 ∨ q = 8 := by omega
  rcases hq with rfl | rfl
  · have huniq : ∀ k < 3, dsv4BatchPos (batchOfPositions [7, 8, 9]) k = 7 → k = 0 := by decide
    exact ⟨0, by decide, fun k hk => huniq k hk.1 hk.2⟩
  · have huniq : ∀ k < 3, dsv4BatchPos (batchOfPositions [7, 8, 9]) k = 8 → k = 1 := by decide
    exact ⟨1, by decide, fun k hk => huniq k hk.1 hk.2⟩

end PxqLlama.Dsv4
