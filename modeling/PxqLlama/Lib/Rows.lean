import Mathlib.Data.List.Perm.Subperm
import PxqLlama.Lib.Ranges

/-!
# `Lib.Rows`: an array as rows of one width

`row m w i` are the `w` places of the array `m` from `i * w` on. A block of another array that is
stored at a place is that array's values there (`blit_slice`).

Rows of one width that are put one behind the other are the chunks of what results
(`chunk_flatMap`).
-/

namespace Rows

section
variable {α : Type}

/-- The `size` values from the place `off` on. -/
def slice (m : Nat → α) (off size : Nat) : List α := (List.range size).map fun i => m (off + i)

/-- The array with the values stored from the place `off` on. -/
def blit (m : Nat → α) (off : Nat) (bs : List α) (i : Nat) : α :=
  if off ≤ i then bs[i - off]?.getD (m i) else m i

/-- The `i`-th row of width `w`. -/
def row (m : Nat → α) (w i : Nat) : List α := slice m (i * w) w

/-- The `k`-th chunk of width `w`. -/
def chunk (bs : List α) (w k : Nat) : List α := (bs.drop (k * w)).take w

variable {m m' : Nat → α} {bs : List α} {off size w : Nat}

@[simp] theorem length_slice : (slice m off size).length = size := by
  rw [slice, List.length_map, List.length_range]

@[simp] theorem length_row {i : Nat} : (row m w i).length = w := length_slice

/-- A block that is copied from another array. -/
theorem blit_slice (src : Nat → α) (first n i : Nat) :
    blit m off (slice src first n) i
      = if off ≤ i ∧ i < off + n then src (first + (i - off)) else m i := by
  rw [blit]
  by_cases hle : off ≤ i
  · rw [if_pos hle]
    by_cases hlt : i < off + n
    · rw [if_pos ⟨hle, hlt⟩, slice, List.getElem?_map, List.getElem?_range (by omega)]
      rfl
    · rw [if_neg fun h => hlt h.2, List.getElem?_eq_none (by rw [length_slice]; omega)]
      rfl
  · rw [if_neg hle, if_neg fun h => hle h.1]

/-- The rows of a list of places are the chunks of the rows one behind the other. -/
theorem chunk_flatMap {ι : Type} {is : List ι} {f : ι → List α} (hf : ∀ i ∈ is, (f i).length = w)
    {k : Nat} (hk : k < is.length) : chunk (is.flatMap f) w k = f is[k] := by
  induction is generalizing k with
  | nil => exact absurd hk (Nat.not_lt_zero k)
  | cons i is ih =>
    have hi : (f i).length = w := hf i (List.mem_cons_self ..)
    rw [chunk, List.flatMap_cons]
    cases k with
    | zero =>
      rw [Nat.zero_mul, List.drop_zero, List.take_append_of_le_length (Nat.le_of_eq hi.symm),
        List.take_of_length_le (Nat.le_of_eq hi)]
      rfl
    | succ k =>
      have hskip : (k + 1) * w = (f i).length + k * w := by rw [hi, Nat.succ_mul, Nat.add_comm]
      rw [hskip, List.drop_length_add_append]
      exact ih (fun j hj => hf j (List.mem_cons_of_mem _ hj)) (Nat.lt_of_succ_lt_succ hk)

end

end Rows

/-!
## Buffers cut into rows, and gathers by an index list

`rows b n l` is the buffer `l` seen as `n` rows of `b` entries, and flattening gives the
buffer back (`flatten_rows`). `gather idx l` reads `l` at the positions of `idx`.

Where every entry of `l` stands for a block of `b` values, a gather of entries is a gather of
values. `spread b idx` is the list of value positions that belongs to the list of entry
positions `idx`, and

    gather (spread b idx) (l.flatMap f) = (gather idx l).flatMap f

whenever every `f x` has length `b` (`gather_flatMap`). A slice of entries is a slice of
values in the same way (`drop_flatMap`, `take_flatMap`).

`scatter inv idx` writes `0, 1, …` at the positions of `idx`. For a permutation of the
positions it is the inverse gather (`gather_scatter`), and a permutation again
(`scatter_perm`).
-/

namespace Gather

variable {α β : Type}

/-! ### Rows of a buffer -/

/-- The first `n` rows of `b` entries. -/
def rows (b : Nat) : Nat → List α → List (List α)
  | 0, _ => []
  | n + 1, l => l.take b :: rows b n (l.drop b)

@[simp] theorem length_rows (b n : Nat) (l : List α) : (rows b n l).length = n := by
  induction n generalizing l with
  | zero => rfl
  | succ n ih => simp [rows, ih]

variable {b : Nat} {l : List α} {f : α → List β} {idx : List Nat}

variable {n : Nat} {inv : List Nat}

theorem length_of_mem_rows {row : List α} (hl : l.length = n * b) (hrow : row ∈ rows b n l) :
    row.length = b := by
  induction n generalizing l with
  | zero => simp [rows] at hrow
  | succ n ih =>
      have hdrop : (l.drop b).length = n * b := by
        rw [List.length_drop, hl, Nat.succ_mul, Nat.add_sub_cancel]
      rcases List.mem_cons.mp hrow with rfl | hmem
      · rw [List.length_take, hl, Nat.succ_mul]; omega
      · exact ih hdrop hmem

theorem flatten_rows (hl : l.length = n * b) : (rows b n l).flatten = l := by
  induction n generalizing l with
  | zero =>
      have hnil : l = [] := by simpa using hl
      simp [rows, hnil]
  | succ n ih =>
      have hdrop : (l.drop b).length = n * b := by
        rw [List.length_drop, hl, Nat.succ_mul, Nat.add_sub_cancel]
      rw [rows, List.flatten_cons, ih hdrop, List.take_append_drop]

/-! ### Uniform blocks -/

theorem take_flatMap (hf : ∀ x ∈ l, (f x).length = b) (i : Nat) :
    (l.flatMap f).take (b * i) = (l.take i).flatMap f := by
  induction l generalizing i with
  | nil => simp
  | cons x l ih =>
      cases i with
      | zero => simp
      | succ i =>
          have hx : (f x).length = b := hf x List.mem_cons_self
          have hsplit : b * (i + 1) = (f x).length + b * i := by rw [hx, Nat.mul_succ]; omega
          rw [List.flatMap_cons, hsplit, List.take_append, List.take_of_length_le (by omega),
            Nat.add_sub_cancel_left, List.take_succ_cons, List.flatMap_cons,
            ih (fun y hy => hf y (List.mem_cons_of_mem x hy)) i]

theorem drop_flatMap (hf : ∀ x ∈ l, (f x).length = b) (i : Nat) :
    (l.flatMap f).drop (b * i) = (l.drop i).flatMap f := by
  have hsplit : (l.flatMap f).take (b * i) ++ (l.flatMap f).drop (b * i)
      = (l.take i).flatMap f ++ (l.drop i).flatMap f := by
    rw [List.take_append_drop, ← List.flatMap_append, List.take_append_drop]
  rw [take_flatMap hf] at hsplit
  exact List.append_cancel_left hsplit

theorem length_flatMap_uniform (hf : ∀ x ∈ l, (f x).length = b) :
    (l.flatMap f).length = b * l.length := by
  induction l with
  | nil => simp
  | cons x l ih =>
      rw [List.flatMap_cons, List.length_append, hf x List.mem_cons_self,
        ih (fun y hy => hf y (List.mem_cons_of_mem x hy)), List.length_cons, Nat.mul_succ,
        Nat.add_comm]

/-- A buffer of uniform blocks has the blocks as its rows. -/
theorem rows_flatMap (hf : ∀ x ∈ l, (f x).length = b) :
    rows b l.length (l.flatMap f) = l.map f := by
  induction l with
  | nil => rfl
  | cons x l ih =>
      have hx : (f x).length = b := hf x List.mem_cons_self
      rw [List.length_cons, rows, List.flatMap_cons, List.take_left' hx, List.drop_left' hx,
        ih fun y hy => hf y (List.mem_cons_of_mem x hy), List.map_cons]

/-! ### Gathers -/

/-- The entries of `l` at the positions of `idx`. A position past the end gives nothing. -/
def gather (idx : List Nat) (l : List α) : List α := idx.filterMap (l[·]?)

@[simp] theorem gather_nil_index (l : List α) : gather [] l = [] := rfl

theorem gather_cons (i : Nat) (idx : List Nat) (l : List α) :
    gather (i :: idx) l = l[i]?.toList ++ gather idx l := by
  cases h : l[i]? with
  | none => simp [gather, h]
  | some x => simp [gather, h]

theorem gather_append (idx idx' : List Nat) (l : List α) :
    gather (idx ++ idx') l = gather idx l ++ gather idx' l := List.filterMap_append

theorem length_gather (h : ∀ i ∈ idx, i < l.length) : (gather idx l).length = idx.length := by
  induction idx with
  | nil => rfl
  | cons i idx ih =>
      have hi : i < l.length := h i List.mem_cons_self
      rw [gather_cons, List.getElem?_eq_getElem hi, Option.toList_some, List.singleton_append,
        List.length_cons, List.length_cons, ih (fun j hj => h j (List.mem_cons_of_mem i hj))]

theorem getElem?_gather (h : ∀ i ∈ idx, i < l.length) (j : Nat) :
    (gather idx l)[j]? = idx[j]?.bind (l[·]?) := by
  induction idx generalizing j with
  | nil => simp
  | cons i idx ih =>
      have hi : i < l.length := h i List.mem_cons_self
      rw [gather_cons, List.getElem?_eq_getElem hi, Option.toList_some, List.singleton_append]
      cases j with
      | zero => simp [hi]
      | succ j =>
          rw [List.getElem?_cons_succ, List.getElem?_cons_succ]
          exact ih (fun k hk => h k (List.mem_cons_of_mem i hk)) j

/-- Two buffers of one length are gathered together. -/
theorem gather_zip {m : List β} (hlen : l.length = m.length) (idx : List Nat) :
    gather idx (l.zip m) = (gather idx l).zip (gather idx m) := by
  induction idx with
  | nil => rfl
  | cons i idx ih =>
      rw [gather_cons, gather_cons, gather_cons, ih]
      by_cases hi : i < l.length
      · have hm : i < m.length := hlen ▸ hi
        have hz : i < (l.zip m).length := by rw [List.length_zip]; omega
        rw [List.getElem?_eq_getElem hi, List.getElem?_eq_getElem hm, List.getElem?_eq_getElem hz,
          List.getElem_zip]
        rfl
      · have hm : ¬ i < m.length := hlen ▸ hi
        have hz : ¬ i < (l.zip m).length := by rw [List.length_zip]; omega
        rw [List.getElem?_eq_none (by omega), List.getElem?_eq_none (by omega),
          List.getElem?_eq_none (by omega)]
        rfl

/-- Consecutive positions are a slice. -/
theorem gather_range' (l : List α) (s n : Nat) :
    gather (List.range' s n) l = (l.drop s).take n := by
  induction n generalizing s with
  | zero => simp
  | succ n ih =>
      rw [List.range'_succ, gather_cons, ih (s + 1)]
      by_cases hs : s < l.length
      · rw [List.getElem?_eq_getElem hs, List.drop_eq_getElem_cons hs, List.take_succ_cons]
        rfl
      · rw [List.getElem?_eq_none (by omega), List.drop_of_length_le (by omega),
          List.drop_of_length_le (by omega)]
        simp

/-! ### From entries to values -/

/-- The value positions of the entries at `idx`, where an entry stands for `b` values. -/
def spread (b : Nat) (idx : List Nat) : List Nat :=
  idx.flatMap fun i => List.range' (b * i) b

theorem length_spread (b : Nat) (idx : List Nat) : (spread b idx).length = b * idx.length :=
  length_flatMap_uniform fun _ _ => List.length_range'

/-- A gather of blocks is a gather of their values. -/
theorem gather_flatMap (hf : ∀ x ∈ l, (f x).length = b) (idx : List Nat) :
    gather (spread b idx) (l.flatMap f) = (gather idx l).flatMap f := by
  induction idx with
  | nil => rfl
  | cons i idx ih =>
      have hblock : ((l.drop i).flatMap f).take b = (l[i]?.toList).flatMap f := by
        by_cases hi : i < l.length
        · have hx : (f l[i]).length = b := hf _ (List.getElem_mem hi)
          rw [List.drop_eq_getElem_cons hi, List.getElem?_eq_getElem hi, List.flatMap_cons,
            ← hx, List.take_left]
          simp
        · rw [List.drop_of_length_le (by omega), List.getElem?_eq_none (by omega)]
          simp
      show gather (List.range' (b * i) b ++ spread b idx) (l.flatMap f) = _
      rw [gather_append, gather_range', drop_flatMap hf, ih, hblock, gather_cons,
        List.flatMap_append]

/-- Where the values of an entry are read from. -/
theorem getElem?_spread {t : Nat} (ht : t < b) (idx : List Nat) (i : Nat) :
    (spread b idx)[b * i + t]? = idx[i]?.map fun p => b * p + t := by
  have hf : ∀ p ∈ idx, (List.range' (b * p) b).length = b := fun _ _ => List.length_range'
  rw [← List.getElem?_drop, spread, drop_flatMap hf]
  by_cases hi : i < idx.length
  · rw [List.drop_eq_getElem_cons hi, List.flatMap_cons, List.getElem?_append_left (by simpa)]
    simp [hi, ht]
  · have hnone : idx[i]? = none := List.getElem?_eq_none (by omega)
    rw [List.drop_of_length_le (by omega), hnone]
    simp

/-- All entries in order have all values in order. -/
theorem spread_range (b n : Nat) : spread b (List.range n) = List.range (n * b) := by
  have hloop := RangeChunks.flatMap_range_mul n b fun i => [i]
  rw [List.flatMap_singleton'] at hloop
  rw [hloop, spread]
  refine List.flatMap_congr fun i _ => ?_
  rw [List.range'_eq_map_range, ← List.map_eq_flatMap, Nat.mul_comm]

/-- A permutation of the entries permutes the values. -/
theorem spread_perm (h : idx.Perm (List.range n)) (b : Nat) :
    (spread b idx).Perm (List.range (n * b)) := by
  rw [← spread_range]
  exact List.Perm.flatMap_right _ h

theorem spread_append (b : Nat) (idx idx' : List Nat) :
    spread b (idx ++ idx') = spread b idx ++ spread b idx' := List.flatMap_append

/-- Entries moved by `m` places have their values moved by `b * m`. -/
theorem map_add_spread (b m : Nat) (idx : List Nat) :
    (spread b idx).map (b * m + ·) = spread b (idx.map (m + ·)) := by
  rw [spread, spread, List.map_flatMap, List.flatMap_map]
  refine List.flatMap_congr fun i _ => ?_
  rw [List.range'_eq_map_range, List.map_map, List.range'_eq_map_range]
  refine List.map_congr_left fun t _ => ?_
  show b * m + (b * i + t) = b * (m + i) + t
  rw [Nat.mul_add, Nat.add_assoc]

/-- A block of `b * c` values is `c` blocks of `b`. -/
theorem spread_spread (b c : Nat) (idx : List Nat) :
    spread b (spread c idx) = spread (b * c) idx := by
  rw [spread, spread, spread, List.flatMap_assoc]
  refine List.flatMap_congr fun i _ => ?_
  have hblock : (List.range' (c * i) c).flatMap (fun j => List.range' (b * j) b)
      = ((spread b (List.range c)).map (b * (c * i) + ·)) := by
    rw [map_add_spread, spread, ← List.range'_eq_map_range]
  rw [hblock, spread_range, List.range'_eq_map_range, Nat.mul_assoc, Nat.mul_comm c b]

/-! ### The inverse gather -/

/-- `inv[idx[0]] = k`, `inv[idx[1]] = k + 1`, and so on, one after the other. -/
def scatterFrom (k : Nat) : List Nat → List Nat → List Nat
  | [], inv => inv
  | i :: idx, inv => scatterFrom (k + 1) idx (inv.set i k)

/-- `inv[idx] = [0, 1, …]`. -/
def scatter (idx inv : List Nat) : List Nat := scatterFrom 0 idx inv

@[simp] theorem length_scatterFrom (k : Nat) (idx inv : List Nat) :
    (scatterFrom k idx inv).length = inv.length := by
  induction idx generalizing k inv with
  | nil => rfl
  | cons i idx ih => rw [scatterFrom, ih, List.length_set]

@[simp] theorem length_scatter (idx inv : List Nat) :
    (scatter idx inv).length = inv.length := length_scatterFrom 0 idx inv

/-- A place that is not written keeps its entry. -/
theorem getElem?_scatterFrom_of_not_mem {i : Nat} (h : i ∉ idx) (k : Nat) (inv : List Nat) :
    (scatterFrom k idx inv)[i]? = inv[i]? := by
  induction idx generalizing k inv with
  | nil => rfl
  | cons p idx ih =>
      have hne : p ≠ i := fun e => h (e ▸ List.mem_cons_self)
      rw [scatterFrom, ih (fun hm => h (List.mem_cons_of_mem p hm)), List.getElem?_set_ne hne]

/-- The place written in step `j` has `k + j`, as no later step writes it again. -/
theorem getElem?_scatterFrom (hnd : idx.Nodup) {j p : Nat} (hj : idx[j]? = some p) (k : Nat)
    (hp : p < inv.length) : (scatterFrom k idx inv)[p]? = some (k + j) := by
  induction idx generalizing j k inv with
  | nil => simp at hj
  | cons q idx ih =>
      obtain ⟨hq, hnd'⟩ := List.nodup_cons.mp hnd
      rw [scatterFrom]
      cases j with
      | zero =>
          have hqp : q = p := by simpa using hj
          subst hqp
          rw [getElem?_scatterFrom_of_not_mem hq, List.getElem?_set_self hp, Nat.add_zero]
      | succ j =>
          have hj' : idx[j]? = some p := by simpa using hj
          rw [ih hnd' hj' (k + 1) (by rw [List.length_set]; exact hp), Nat.add_right_comm,
            Nat.add_assoc]

/-- Positions that are a permutation of all positions are positions. -/
theorem lt_of_perm_range {i : Nat} (h : idx.Perm (List.range n)) (hi : i ∈ idx) : i < n :=
  List.mem_range.mp (h.mem_iff.mp hi)

/-- Gathering by a permutation and then by its scatter is the identity. -/
theorem gather_scatter (h : idx.Perm (List.range l.length)) (hinv : inv.length = l.length) :
    gather (scatter idx inv) (gather idx l) = l := by
  have hnd : idx.Nodup := h.nodup_iff.mpr List.nodup_range
  have hlen : idx.length = l.length := by rw [h.length_eq, List.length_range]
  have hvalid : ∀ i ∈ idx, i < l.length := fun i hi => lt_of_perm_range h hi
  -- Every place is the target of one step, so the scatter leaves only positions of `idx`.
  have hplace : ∀ i < l.length, ∃ j, idx[j]? = some i ∧ (scatter idx inv)[i]? = some j := by
    intro i hi
    have hmem : i ∈ idx := h.mem_iff.mpr (List.mem_range.mpr hi)
    obtain ⟨j, hj⟩ := List.mem_iff_getElem?.mp hmem
    have hwritten := getElem?_scatterFrom hnd hj 0 (hinv.symm ▸ hi)
    exact ⟨j, hj, by simpa [scatter] using hwritten⟩
  have hback : ∀ j ∈ scatter idx inv, j < (gather idx l).length := by
    intro j hj
    obtain ⟨i, hi⟩ := List.mem_iff_getElem?.mp hj
    have hil : i < l.length := by
      have := (List.getElem?_eq_some_iff.mp hi).1
      rwa [length_scatter, hinv] at this
    obtain ⟨j', hj', hs⟩ := hplace i hil
    have hjj : j' = j := Option.some.inj (hs.symm.trans hi)
    rw [length_gather hvalid, ← hjj]
    exact (List.getElem?_eq_some_iff.mp hj').1
  refine List.ext_getElem? fun i => ?_
  rw [getElem?_gather hback]
  by_cases hi : i < l.length
  · obtain ⟨j, hj, hs⟩ := hplace i hi
    rw [hs, Option.bind_some, getElem?_gather hvalid, hj, Option.bind_some]
  · have hnone : (scatter idx inv)[i]? = none :=
      List.getElem?_eq_none (by rw [length_scatter, hinv]; omega)
    rw [hnone, List.getElem?_eq_none (by omega), Option.bind_none]

/-- The scatter of a permutation is a permutation. -/
theorem scatter_perm (h : idx.Perm (List.range n)) (hinv : inv.length = n) :
    (scatter idx inv).Perm (List.range n) := by
  have hlen : (scatter idx inv).length = n := by rw [length_scatter, hinv]
  have hidx : idx.length = n := by rw [h.length_eq, List.length_range]
  have hall : gather idx (List.range n) = idx := by
    refine List.ext_getElem? fun j => ?_
    rw [getElem?_gather fun i hi => by rw [List.length_range]; exact lt_of_perm_range h hi]
    cases hj : idx[j]? with
    | none => rfl
    | some i => simp [lt_of_perm_range h (List.mem_of_getElem? hj)]
  -- Reading `idx` at the scatter gives `0, 1, …`, so no entry of the scatter comes twice and
  -- none points past the end.
  have hback : gather (scatter idx inv) idx = List.range n := by
    have hrange : idx.Perm (List.range (List.range n).length) := by
      rw [List.length_range]
      exact h
    have hlenInv : inv.length = (List.range n).length := by rw [List.length_range, hinv]
    have hg := gather_scatter hrange hlenInv
    rwa [hall] at hg
  have hvalid : ∀ j ∈ scatter idx inv, j < n := by
    intro j hj
    obtain ⟨i, hi⟩ := List.mem_iff_getElem?.mp hj
    have hin : i < n := hlen ▸ (List.getElem?_eq_some_iff.mp hi).1
    obtain ⟨j', hj'⟩ := List.mem_iff_getElem?.mp (h.mem_iff.mpr (List.mem_range.mpr hin))
    have hnd : idx.Nodup := h.nodup_iff.mpr List.nodup_range
    have hwritten := getElem?_scatterFrom hnd hj' 0 (hinv.symm ▸ hin)
    have hjj : 0 + j' = j := Option.some.inj (hwritten.symm.trans hi)
    have := (List.getElem?_eq_some_iff.mp hj').1
    omega
  have hnodup : (scatter idx inv).Nodup := by
    refine List.nodup_iff_injective_getElem.mpr fun a b hab => ?_
    have hread : ∀ c : Fin (scatter idx inv).length,
        (gather (scatter idx inv) idx)[c.val]? = idx[(scatter idx inv)[c.val]]? := by
      intro c
      rw [getElem?_gather fun j hj => hidx ▸ hvalid j hj, List.getElem?_eq_getElem c.isLt,
        Option.bind_some]
    have hc : ∀ c : Fin (scatter idx inv).length,
        (gather (scatter idx inv) idx)[c.val]? = some c.val := by
      intro c
      rw [hback, List.getElem?_range (by omega)]
    have heq : some a.val = some b.val := by
      rw [← hc a, ← hc b, hread a, hread b]
      exact congrArg (idx[·]?) hab
    exact Fin.ext (Option.some.inj heq)
  refine (List.subperm_of_subset hnodup fun j hj =>
    List.mem_range.mpr (hvalid j hj)).perm_of_length_le ?_
  exact Nat.le_of_eq (by rw [List.length_range, hlen])

end Gather
