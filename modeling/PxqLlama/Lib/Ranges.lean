import Mathlib.Data.List.Count
import Mathlib.Data.List.Flatten
import Mathlib.Data.List.Nodup

/-!
# `Lib.Ranges`: the ranges of the places that pass a test

A scan over `0 .. size` collects the maximal ranges of places that pass a test, from inclusive
to exclusive. It keeps the begin of the open range, which is `size` while there is none.

The ranges cover the places that pass, in their order (`places_ofTest`).
-/

namespace Ranges

/-- The variables of the scan. -/
structure Scan where
  count : Nat
  start : Nat
  ranges : List (Nat × Nat)

def step (test : Nat → Bool) (size : Nat) (w : Scan) (i : Nat) : Scan :=
  if test i then
    { w with count := w.count + 1, start := if w.start = size then i else w.start }
  else if w.start ≠ size then { w with start := size, ranges := w.ranges ++ [(w.start, i)] }
  else w

/-- The scan of the places below `n`. -/
def scan (test : Nat → Bool) (size n : Nat) : Scan :=
  (List.range n).foldl (step test size) { count := 0, start := size, ranges := [] }

/-- The ranges, with the one that is open at the end. -/
def Scan.close (w : Scan) (size : Nat) : List (Nat × Nat) :=
  if w.start ≠ size then w.ranges ++ [(w.start, size)] else w.ranges

def ofTest (test : Nat → Bool) (size : Nat) : List (Nat × Nat) :=
  (scan test size size).close size

/-- The places of the ranges, one after the other. -/
def places (ranges : List (Nat × Nat)) : List Nat :=
  ranges.flatMap fun r => List.range' r.1 (r.2 - r.1)

theorem places_append (rs rs' : List (Nat × Nat)) :
    places (rs ++ rs') = places rs ++ places rs' :=
  List.flatMap_append

theorem places_single (first last : Nat) :
    places [(first, last)] = List.range' first (last - first) := by
  simp [places]

/-- The scan has looked at the places below `n`. -/
structure Scanned (test : Nat → Bool) (size n : Nat) (w : Scan) : Prop where
  start : w.start = size ∨ w.start < n
  places : places w.ranges ++ (if w.start = size then [] else List.range' w.start (n - w.start))
    = (List.range n).filter test
  count : w.count = ((List.range n).filter test).length
  ranges : ∀ r ∈ w.ranges, r.1 < r.2 ∧ r.2 ≤ n

section
variable {test : Nat → Bool} {size n : Nat} {w : Scan}

/-- One more place. -/
theorem Scanned.step (h : Scanned test size n w) (hn : n < size) :
    Scanned test size (n + 1) (step test size w n) := by
  have hstart := h.start
  have hplaces := h.places
  have hranges : ∀ r ∈ w.ranges, r.1 < r.2 ∧ r.2 ≤ n + 1 := by
    intro r hr
    have := h.ranges r hr
    omega
  rw [Ranges.step]
  by_cases htest : test n = true
  · -- the place opens a range, or makes the open one longer
    rw [if_pos htest]
    have hfilter : (List.range (n + 1)).filter test = (List.range n).filter test ++ [n] := by
      rw [List.range_succ, List.filter_append, List.filter_singleton, htest]
      rfl
    refine ⟨?_, ?_, ?_, hranges⟩
    · simp only
      split <;> omega
    · rw [hfilter, ← hplaces]
      by_cases hclosed : w.start = size
      · simp only [hclosed, if_true, if_neg (Nat.ne_of_lt hn), List.append_nil]
        rw [show n + 1 - n = 1 by omega]
        rfl
      · simp only [if_neg hclosed]
        have hlt : w.start < n := by omega
        rw [List.append_assoc, show n + 1 - w.start = n - w.start + 1 by omega,
          List.range'_1_concat, show w.start + (n - w.start) = n by omega]
    · rw [hfilter, List.length_append, ← h.count]
      rfl
  · -- the place closes the open range
    rw [if_neg htest]
    have hfilter : (List.range (n + 1)).filter test = (List.range n).filter test := by
      rw [Bool.not_eq_true] at htest
      rw [List.range_succ, List.filter_append, List.filter_singleton, htest]
      exact List.append_nil _
    split
    · rename_i hopen
      rw [if_neg hopen] at hplaces
      refine ⟨Or.inl rfl, ?_, ?_, fun r hr => ?_⟩
      · rw [hfilter, if_pos rfl, List.append_nil, places_append, places_single, hplaces]
      · rw [hfilter]
        exact h.count
      · rcases List.mem_append.mp hr with hr | hr
        · exact hranges r hr
        · rw [List.mem_singleton.mp hr]
          show w.start < n ∧ n ≤ n + 1
          omega
    · rename_i hclosed
      rw [not_not] at hclosed
      refine ⟨Or.inl hclosed, ?_, ?_, hranges⟩
      · rw [if_pos hclosed] at hplaces ⊢
        rw [hfilter, hplaces]
      · rw [hfilter]
        exact h.count

theorem scan_scanned (hn : n ≤ size) : Scanned test size n (scan test size n) := by
  induction n with
  | zero => exact ⟨Or.inl rfl, by simp [scan, places], rfl, by simp [scan]⟩
  | succ n ih =>
    rw [scan, List.range_succ, List.foldl_append]
    exact (ih (by omega)).step (by omega)

/-- The ranges cover the places that pass, in their order. -/
theorem places_ofTest (test : Nat → Bool) (size : Nat) :
    places (ofTest test size) = (List.range size).filter test := by
  have h : Scanned test size size _ := scan_scanned (Nat.le_refl size)
  have hplaces := h.places
  rw [ofTest, Scan.close]
  split
  · rename_i hopen
    rw [if_neg hopen] at hplaces
    rw [places_append, places_single, hplaces]
  · rename_i hclosed
    rw [if_pos (not_not.mp hclosed), List.append_nil] at hplaces
    exact hplaces

end

end Ranges

/-!
## A range walked in chunks

A loop over `0, …, n - 1` may be cut into chunks of `c` consecutive numbers, the last one
short (`flatMap_range_chunks`). A loop over `0, …, a * b - 1` may be two nested loops
(`flatMap_range_mul`). Both give the same list, element by element. What a loop leaves for one
place comes from the one step that hits it (`filter_flatMap_of_unique`), and one of the chunks
has each number (`exists_chunk`).
-/

namespace RangeChunks

variable {β : Type}

theorem flatMap_range_add (a b : Nat) (f : Nat → List β) :
    (List.range (a + b)).flatMap f
      = (List.range a).flatMap f ++ (List.range b).flatMap (fun i => f (a + i)) := by
  rw [List.range_add, List.flatMap_append, List.flatMap_map]

/-- A loop over `a * b` numbers as two nested loops. -/
theorem flatMap_range_mul (a b : Nat) (f : Nat → List β) :
    (List.range (a * b)).flatMap f
      = (List.range a).flatMap fun i => (List.range b).flatMap fun j => f (i * b + j) := by
  induction a with
  | zero => simp
  | succ a ih =>
    rw [Nat.succ_mul, flatMap_range_add, ih, List.range_succ, List.flatMap_append,
      List.flatMap_singleton]

/-- A function of quotient and remainder, looped over `a * b` numbers. -/
theorem flatMap_range_div_mod (a b : Nat) (f : Nat → Nat → List β) :
    (List.range (a * b)).flatMap (fun n => f (n / b) (n % b))
      = (List.range a).flatMap fun i => (List.range b).flatMap fun j => f i j := by
  rw [flatMap_range_mul]
  refine List.flatMap_congr (fun i _ => List.flatMap_congr (fun j hj => ?_))
  have hjb : j < b := List.mem_range.mp hj
  rw [Nat.mul_comm i b, Nat.mul_add_div (by omega), Nat.mul_add_mod, Nat.mod_eq_of_lt hjb,
    Nat.div_eq_of_lt hjb, Nat.add_zero]

/-- The first `k` chunks of length `c` of a loop over `n` numbers are the loop over the
first `min (k * c) n`. -/
theorem flatMap_range_first_chunks (c n k : Nat) (f : Nat → List β) :
    ((List.range k).flatMap fun i =>
        (List.range (min c (n - i * c))).flatMap fun j => f (i * c + j))
      = (List.range (min (k * c) n)).flatMap f := by
  induction k with
  | zero => simp
  | succ k ih =>
    rw [List.range_succ, List.flatMap_append, List.flatMap_singleton, ih, Nat.succ_mul]
    rcases Nat.le_total (k * c) n with h | h
    · -- The chunks before this one are full, so it starts at `k * c`.
      have hmin : min (k * c + c) n = k * c + min c (n - k * c) := by omega
      rw [hmin, Nat.min_eq_left h, flatMap_range_add]
    · have hlen : min c (n - k * c) = 0 := by omega
      have hmin : min (k * c + c) n = min (k * c) n := by omega
      rw [hmin, hlen]
      simp

/-- A loop over `n` numbers in chunks of `c`, when the chunks reach `n`. -/
theorem flatMap_range_chunks {c n k : Nat} (h : n ≤ k * c) (f : Nat → List β) :
    ((List.range k).flatMap fun i =>
        (List.range (min c (n - i * c))).flatMap fun j => f (i * c + j))
      = (List.range n).flatMap f := by
  rw [flatMap_range_first_chunks, Nat.min_eq_right h]

/-- When one step only has elements that pass, the loop has what that step has. -/
theorem filter_flatMap_of_unique {α : Type} {l : List α} {f : α → List β} {p : β → Bool} {a : α}
    (hnodup : l.Nodup) (ha : a ∈ l) (h : ∀ b ∈ l, b ≠ a → (f b).filter p = []) :
    (l.flatMap f).filter p = (f a).filter p := by
  rw [List.filter_flatMap]
  induction l with
  | nil => cases ha
  | cons b l ih =>
    rw [List.flatMap_cons]
    rw [List.nodup_cons] at hnodup
    by_cases hba : b = a
    · -- the rest of the loop does not come back to `a`
      subst hba
      have hrest : (l.flatMap fun c => (f c).filter p) = [] := by
        rw [List.flatMap_eq_nil_iff]
        intro c hc
        exact h c (List.mem_cons_of_mem _ hc) (fun hcb => hnodup.1 (hcb ▸ hc))
      rw [hrest, List.append_nil]
    · have hmem : a ∈ l := by
        rcases List.mem_cons.mp ha with rfl | hmem
        · exact absurd rfl hba
        · exact hmem
      rw [h b (by simp) hba, List.nil_append,
        ih hnodup.2 hmem fun c hc => h c (List.mem_cons_of_mem _ hc)]

/-- The chunks of the smallest length that covers `n` numbers with `k` chunks: each number is in
the chunk of its quotient. -/
theorem exists_chunk {n k i : Nat} (hk : 0 < k) (hi : i < n) :
    i / ((n + k - 1) / k) < k ∧ i / ((n + k - 1) / k) * ((n + k - 1) / k) ≤ i ∧
      i < min n (i / ((n + k - 1) / k) * ((n + k - 1) / k) + (n + k - 1) / k) := by
  have hreach : n ≤ k * ((n + k - 1) / k) := by
    have hdm := Nat.div_add_mod (n + k - 1) k
    have hmod := Nat.mod_lt (n + k - 1) hk
    omega
  generalize (n + k - 1) / k = c at hreach ⊢
  have hc : 0 < c := by
    by_contra hzero
    rw [Nat.eq_zero_of_not_pos hzero] at hreach
    omega
  have hdm := Nat.div_add_mod' i c
  have hmod := Nat.mod_lt i hc
  refine ⟨(Nat.div_lt_iff_lt_mul hc).mpr (by omega), by omega, ?_⟩
  rw [Nat.lt_min]
  omega

end RangeChunks

/-!
## A list as runs of equal elements

`expand` writes out a list of runs, each an element and how often it stands there. When no element
has two runs, it occurs as often as its run says (`count_expand`).
-/

namespace RunLengths

variable {α : Type}

/-- The list that the runs stand for. -/
def expand (runs : List (α × Nat)) : List α := runs.flatMap fun r => List.replicate r.2 r.1

@[simp] theorem expand_nil : expand ([] : List (α × Nat)) = [] := rfl

@[simp] theorem expand_cons (r : α × Nat) (runs : List (α × Nat)) :
    expand (r :: runs) = List.replicate r.2 r.1 ++ expand runs := List.flatMap_cons

theorem expand_append (runs runs' : List (α × Nat)) :
    expand (runs ++ runs') = expand runs ++ expand runs' := List.flatMap_append

/-- What the runs stand for are their elements. -/
theorem mem_of_mem_expand {runs : List (α × Nat)} {a : α} (h : a ∈ expand runs) :
    a ∈ runs.map Prod.fst := by
  obtain ⟨r, hr, ha⟩ := List.mem_flatMap.mp h
  rw [List.eq_of_mem_replicate ha]
  exact List.mem_map_of_mem hr

/-- The last run is one longer. -/
theorem expand_reverse_succ (runs : List (α × Nat)) (a : α) (n : Nat) :
    expand ((a, n + 1) :: runs).reverse = expand ((a, n) :: runs).reverse ++ [a] := by
  simp only [List.reverse_cons, expand_append, expand_cons, expand_nil, List.append_nil,
    List.replicate_succ', List.append_assoc]

/-- A new last run. -/
theorem expand_reverse_cons (runs : List (α × Nat)) (a : α) :
    expand ((a, 1) :: runs).reverse = expand runs.reverse ++ [a] := by
  simp only [List.reverse_cons, expand_append, expand_cons, expand_nil, List.append_nil,
    List.replicate_one]

variable [DecidableEq α]

/-- With one run for each element, it occurs as often as its run says. -/
theorem count_expand {runs : List (α × Nat)} (hnodup : (runs.map Prod.fst).Nodup) {a : α} {n : Nat}
    (h : (a, n) ∈ runs) : (expand runs).count a = n := by
  induction runs with
  | nil => cases h
  | cons r runs ih =>
    rw [List.map_cons, List.nodup_cons] at hnodup
    obtain ⟨hfresh, hrest⟩ := hnodup
    rw [expand_cons, List.count_append]
    rcases List.mem_cons.mp h with heq | hmem
    · -- the run itself, and no more of the element behind it
      have hnone : (expand runs).count a = 0 := by
        rw [List.count_eq_zero]
        intro hin
        rw [← heq] at hfresh
        exact hfresh (mem_of_mem_expand hin)
      rw [hnone, ← heq, List.count_replicate_self, Nat.add_zero]
    · have hne : r.1 ≠ a := by
        intro hra
        rw [hra] at hfresh
        exact hfresh (List.mem_map_of_mem hmem)
      rw [List.count_replicate, if_neg (by simpa using hne), Nat.zero_add]
      exact ih hrest hmem

end RunLengths
