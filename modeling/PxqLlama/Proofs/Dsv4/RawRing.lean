import PxqLlama.Dsv4.Memory

/-!
# `Proofs.Dsv4.RawRing`: the ring mask opens the sliding window

After a consecutive run the raw ring is `Ring.content` of the number of tokens
(`foldl_writeRaw`). The mask computes, for query position `p` and row `j`, the latest
position of the row up to `p` (`ringOpen_iff`). The ring may already hold later positions
of the same batch, so the two agree only where no row of the window was reused. That is
what `nUbatch + nSwa + 1 ≤ rawSize` gives.
-/

namespace PxqLlama.Dsv4

/-- The adjusted C remainder is the remainder with a non-negative result. -/
theorem tmod_adjust {a S : Int} (hS : 0 < S) :
    (if a.tmod S < 0 then a.tmod S + S else a.tmod S) = a % S := by
  have hnonneg := Int.emod_nonneg a (show S ≠ 0 by omega)
  have hlt := Int.emod_lt_of_pos a hS
  have htmod : a.tmod S = a % S - if 0 ≤ a ∨ S ∣ a then 0 else S.natAbs :=
    Int.tmod_eq_emod
  rw [htmod]
  split
  · rw [if_neg (by omega)]
    omega
  · rw [if_pos (by omega)]
    omega

variable {b : LlamaBatch}

theorem rawKIdx_eq {S : Nat} {i p : Nat} (hp : dsv4BatchPos b i = p) :
    rawKIdx S b i = ((p % S : Nat) : Int) := by
  rw [rawKIdx, hp, Int.tmod_eq_emod_of_nonneg (by omega)]
  rfl

/-- What a row of the ring holds after the positions below `n`. -/
def rawContent (S n : Nat) : Nat → Option Int :=
  Ring.content S n (fun q => some (q : Int)) none

/-- One batch takes the ring from position `n` to `n + nTokens`. -/
theorem writeRaw_step {S n : Nat} (hb : PositionsFrom n b) (hS : 0 < S) (hle : b.nTokens ≤ S)
    {ring : Int → Option Int} (hring : ∀ r : Nat, ring r = rawContent S n r) (r : Nat) :
    writeRaw S ring b r = rawContent S (n + b.nTokens) r := by
  have hstores : (List.range b.nTokens).map (fun i =>
        (rawKIdx S b i, some (dsv4BatchPos b i)))
      = ((List.range b.nTokens).map fun i =>
        ((n + i) % S, some ((n + i : Nat) : Int))).map fun w => ((w.1 : Int), w.2) := by
    rw [List.map_map]
    refine List.map_congr_left (fun i hi => ?_)
    have hpos : dsv4BatchPos b i = ((n + i : Nat) : Int) := by
      rw [hb i (List.mem_range.mp hi)]
      omega
    rw [Function.comp_apply, rawKIdx_eq hpos, hpos]
  have hrows : (fun c : Nat => ring c) = rawContent S n := funext hring
  have hinj : Function.Injective fun c : Nat => (c : Int) := fun _ _ h => Int.ofNat.inj h
  rw [writeRaw, hstores, Stores.run_map_injective hinj, hrows, rawContent]
  exact congrFun (Ring.run_content_map hle hS _ _) r

/-- After a consecutive run every row holds the latest position of its residue. -/
theorem foldl_writeRaw {S n : Nat} (hS : 0 < S) {bs : List LlamaBatch}
    (hrun : Consecutive n bs) (hle : ∀ b ∈ bs, b.nTokens ≤ S)
    (ring : Int → Option Int) (hring : ∀ r : Nat, ring r = rawContent S n r) (r : Nat) :
    bs.foldl (writeRaw S) ring r = rawContent S (n + totalTokens bs) r := by
  induction bs generalizing n ring with
  | nil => exact hring r
  | cons b bs ih =>
    obtain ⟨hb, hrest⟩ := hrun
    rw [List.foldl_cons, totalTokens_cons, ← Nat.add_assoc]
    apply ih hrest
    · intro b' hb'
      exact hle b' (List.mem_cons_of_mem _ hb')
    · exact writeRaw_step hb hS (hle b (List.mem_cons_self ..)) hring

theorem rawContent_eq_some {S n r : Nat} (hr : r < S) {x : Int} :
    rawContent S n r = some x ↔ ∃ q : Nat, x = q ∧ Ring.IsLatest S n r q := by
  constructor
  · intro h
    rw [rawContent, Ring.content] at h
    split at h
    · rename_i hcond
      exact ⟨_, (Option.some.inj h).symm, Ring.isLatest_latest hr hcond.2⟩
    · cases h
  · rintro ⟨q, rfl, hq⟩
    rw [rawContent, Ring.content_eq (by omega) _ _ hq]

/-- The mask opens row `j` for position `p` when the latest position of the row up to `p`
lies in the window. -/
theorem ringOpen_iff {S nSwa : Nat} {i j p : Nat} (hj : j < S) (hp : dsv4BatchPos b i = p) :
    ringOpen S nSwa b i j = true ↔ ∃ q, Ring.IsLatest S (p + 1) j q ∧ p < q + nSwa := by
  have hS : (0 : Int) < S := by omega
  have hneg : ¬ ((p : Int) < 0) := by omega
  have hnonneg := Int.emod_nonneg ((p : Int) - j) (show (S : Int) ≠ 0 by omega)
  have hlt := Int.emod_lt_of_pos ((p : Int) - j) hS
  have hdm := Int.mul_ediv_add_emod ((p : Int) - j) S
  simp only [ringOpen, hp, hneg, if_false, tmod_adjust hS, decide_eq_true_eq]
  constructor
  · rintro ⟨hq, -, hd⟩
    -- `q = p - (p - j) % S` is the latest position of row `j`.
    refine ⟨((p : Int) - ((p : Int) - j) % S).toNat, ⟨by omega, ?_, by omega⟩, by omega⟩
    have hqe : (((p : Int) - ((p : Int) - j) % S).toNat : Int)
        = j + S * (((p : Int) - j) / S) := by omega
    have hmod : ((((p : Int) - ((p : Int) - j) % S).toNat % S : Nat) : Int) = j := by
      rw [Int.natCast_mod, hqe, Int.add_mul_emod_self_left]
      exact Int.emod_eq_of_lt (by omega) (by omega)
    exact_mod_cast hmod
  · rintro ⟨q, hq, hd⟩
    have hlt' := hq.lt
    have hle' := hq.le
    -- The position `q` is `p` minus that remainder.
    have hrem : ((p : Int) - j) % S = p - q := by
      have hqj : (q : Int) = j + S * ((q / S : Nat) : Int) := by
        have := Nat.mod_add_div q S
        rw [hq.row] at this
        exact_mod_cast this.symm
      have hsplit : (p : Int) - j = (p - q) + S * ((q / S : Nat) : Int) := by omega
      rw [hsplit, Int.add_mul_emod_self_left]
      exact Int.emod_eq_of_lt (by omega) (by omega)
    rw [hrem]
    omega

/-- **The ring mask is the sliding window.** In every consecutive run, for the query at
position `p`, a row is open exactly when it holds, after the writes of the batch, the key
of a position in `[max 0 (p - nSwa + 1), p]`; and each of these positions is seen in
exactly one open row. -/
theorem raw_ring_visibility {S nSwa nUbatch : Nat} (hS : nUbatch + nSwa + 1 ≤ S)
    {bs : List LlamaBatch} {b : LlamaBatch} (hrun : Consecutive 0 (bs ++ [b]))
    (hub : ∀ b' ∈ bs ++ [b], b'.nTokens ≤ nUbatch) {i : Nat} (hi : i < b.nTokens) :
    let ring := writeRaw S (bs.foldl (writeRaw S) fun _ => none) b
    let p := dsv4BatchPos b i
    (∀ j < S, ringOpen S nSwa b i j = true ↔
      ∃ q, ring j = some q ∧ max 0 (p - nSwa + 1) ≤ q ∧ q ≤ p) ∧
    ∀ q, max 0 (p - nSwa + 1) ≤ q → q ≤ p →
      ∃! j : Nat, j < S ∧ ringOpen S nSwa b i j = true ∧ ring j = some q := by
  intro ring p
  -- The ring after the batch, which ends at position `n + nTokens`.
  obtain ⟨-, hlast⟩ := (consecutive_append 0 bs [b]).mp hrun
  set n := 0 + totalTokens bs with hn
  have hpos : p = ((n + i : Nat) : Int) := by
    have := hlast.1 i hi
    omega
  have hbn : b.nTokens ≤ nUbatch := hub b (by simp)
  have hring : ∀ r : Nat, ring r = rawContent S (n + b.nTokens) r := by
    have hempty : ∀ r : Nat, (fun _ : Int => (none : Option Int)) r = rawContent S 0 r := by
      intro r
      rw [rawContent, Ring.content_zero]
    have h := foldl_writeRaw (show 0 < S by omega) hrun
      (fun b' hb' => by have := hub b' hb'; omega) (fun _ => none) hempty
    rw [List.foldl_append, totalTokens_append, ← Nat.add_assoc, ← hn] at h
    simpa [totalTokens] using h
  -- A position of the window is the latest of its row both up to `p` and after the batch.
  have hboth : ∀ j q : Nat, q ≤ n + i → n + i < q + nSwa →
      (Ring.IsLatest S (n + i + 1) j q ↔ Ring.IsLatest S (n + b.nTokens) j q) := by
    intro j q hqp hwin
    constructor
    · intro h
      exact ⟨by omega, h.row, by omega⟩
    · intro h
      have := h.le
      exact ⟨by omega, h.row, by omega⟩
  have hopen : ∀ j < S, ringOpen S nSwa b i j = true ↔
      ∃ q, ring j = some q ∧ max 0 (p - nSwa + 1) ≤ q ∧ q ≤ p := by
    intro j hj
    rw [ringOpen_iff hj hpos, hring]
    constructor
    · rintro ⟨q, hq, hwin⟩
      have := hq.lt
      refine ⟨q, (rawContent_eq_some hj).mpr ⟨q, rfl, (hboth j q (by omega) hwin).mp hq⟩, ?_⟩
      omega
    · rintro ⟨x, hx, hlo, hhi⟩
      obtain ⟨q, rfl, hq⟩ := (rawContent_eq_some hj).mp hx
      exact ⟨q, (hboth j q (by omega) (by omega)).mpr hq, by omega⟩
  refine ⟨hopen, fun q hlo hhi => ?_⟩
  obtain ⟨x, rfl⟩ : ∃ x : Nat, q = x := ⟨q.toNat, by omega⟩
  have hrow : x % S < S := Nat.mod_lt x (by omega)
  have hlat : Ring.IsLatest S (n + b.nTokens) (x % S) x := ⟨by omega, rfl, by omega⟩
  have hsome : ring (x % S : Nat) = some (x : Int) := by
    rw [hring]
    exact (rawContent_eq_some hrow).mpr ⟨x, rfl, hlat⟩
  refine ⟨x % S, ⟨hrow, (hopen _ hrow).mpr ⟨x, hsome, hlo, hhi⟩, hsome⟩, ?_⟩
  -- Another row that holds `x` has the residue of `x`.
  rintro j ⟨hj, -, hjx⟩
  rw [hring] at hjx
  obtain ⟨y, hy, hlat'⟩ := (rawContent_eq_some hj).mp hjx
  have hxy : x = y := by exact_mod_cast hy
  rw [hxy, hlat'.row]

/-- A ring of five rows, two tokens a batch, a window of two: after three batches the key
of position 5 is seen in exactly one row. -/
theorem raw_ring_visibility_wrapped :
    let b := batchOfPositions [4, 5]
    let ring := writeRaw 5 (writeRaw 5 (writeRaw 5 (fun _ => none) (batchOfPositions [0, 1]))
      (batchOfPositions [2, 3])) b
    ∃! j : Nat, j < 5 ∧ ringOpen 5 2 b 1 j = true ∧ ring j = some 5 := by
  have h := raw_ring_visibility (show 2 + 2 + 1 ≤ 5 by decide)
    (show Consecutive 0 ([batchOfPositions [0, 1], batchOfPositions [2, 3]]
      ++ [batchOfPositions [4, 5]]) by decide) (by decide) (i := 1) (by decide)
  exact h.2 5 (by decide) (by decide)

end PxqLlama.Dsv4
