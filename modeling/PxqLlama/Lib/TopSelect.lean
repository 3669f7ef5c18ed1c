import Mathlib.Data.List.DropRight
import Mathlib.Data.List.Nodup
import Mathlib.Data.List.Perm.Basic
import Mathlib.Order.Lattice

/-!
# `Lib.TopSelect`: the largest elements of a list

`IsTop key k l out` says that `out` are the `k` elements of `l` with the largest keys, largest
first. Which of two elements with one key is taken is left open, and where no two keys are equal
there is only one such list (`IsTop.unique`).

Two ways to come to it: an algorithm that sorts (`SortAlgorithms`, of which only the contract is
known), and a window of `k` elements into which each element is placed from the end (`place`).
`isTop_foldl_place` is the second one.
-/

namespace TopSelect

open List

variable {β κ : Type} [LinearOrder κ] {key : β → κ}

/-- Largest keys first. -/
def Descending (key : β → κ) (l : List β) : Prop := l.Pairwise fun a b => key b ≤ key a

/-- `out` are `k` elements of `l` with the largest keys, largest first. -/
structure IsTop (key : β → κ) (k : Nat) (l out : List β) : Prop where
  length : out.length = min k l.length
  descending : Descending key out
  rest : ∃ rest, l ~ out ++ rest ∧ ∀ a ∈ out, ∀ b ∈ rest, key b ≤ key a

theorem Descending.append {l l' : List β} (h : Descending key l) (h' : Descending key l')
    (hle : ∀ a ∈ l, ∀ b ∈ l', key b ≤ key a) : Descending key (l ++ l') :=
  List.pairwise_append.2 ⟨h, h', hle⟩

variable {l : List β} {k : Nat}

theorem Descending.take (h : Descending key l) (k : Nat) :
    Descending key (l.take k) := List.Pairwise.sublist (List.take_sublist k l) h

/-- The first elements of a sorted list. -/
theorem Descending.isTop_take {sorted : List β} (h : Descending key sorted) (hperm : sorted ~ l)
    (k : Nat) : IsTop key k l (sorted.take k) := by
  refine ⟨by rw [List.length_take, hperm.length_eq], h.take k, sorted.drop k, ?_, ?_⟩
  · rw [List.take_append_drop]
    exact hperm.symm
  · have hsplit : Descending key (sorted.take k ++ sorted.drop k) := by
      rwa [List.take_append_drop]
    exact (List.pairwise_append.1 hsplit).2.2

omit [LinearOrder κ] in
/-- Elements of a list without equal keys that have one key are one element. -/
theorem eq_of_key_eq (hdistinct : (l.map key).Nodup) {a b : β} (ha : a ∈ l) (hb : b ∈ l)
    (h : key a = key b) : a = b := List.inj_on_of_nodup_map hdistinct ha hb h

/-- Without equal keys there is one order. -/
theorem Descending.eq_of_perm {l' : List β} (h : Descending key l) (h' : Descending key l')
    (hperm : l ~ l') (hdistinct : (l.map key).Nodup) : l = l' := by
  refine hperm.eq_of_pairwise (fun a b ha hb hab hba => ?_) h h'
  exact eq_of_key_eq hdistinct ha (hperm.mem_iff.2 hb) (le_antisymm hba hab)

theorem descending_mergeSort (l : List β) :
    Descending key (l.mergeSort fun a b => decide (key b ≤ key a)) := by
  have hpairs := @List.pairwise_mergeSort β (fun a b => decide (key b ≤ key a))
    (fun a b c hab hbc => by
      simp only [decide_eq_true_eq] at *
      exact hbc.trans hab)
    (fun a b => by
      simp only [Bool.or_eq_true, decide_eq_true_eq]
      exact le_total _ _) l
  exact hpairs.imp fun hab => by simpa using hab

variable {out window : List β}

/-- The largest elements are where a sorted list begins. -/
theorem IsTop.exists_sorted (h : IsTop key k l out) :
    ∃ rest, l ~ out ++ rest ∧ Descending key (out ++ rest) := by
  obtain ⟨rest, hperm, hle⟩ := h.rest
  let sorted := rest.mergeSort fun a b => decide (key b ≤ key a)
  have hsorted : sorted ~ rest := List.mergeSort_perm _ _
  have hdesc : Descending key sorted := descending_mergeSort rest
  refine ⟨sorted, hperm.trans (hsorted.symm.append_left out), ?_⟩
  exact h.descending.append hdesc fun a ha b hb => hle a ha b (hsorted.mem_iff.1 hb)

/-- Without equal keys the largest elements are the first ones of each sorted list. -/
theorem IsTop.eq_take {sorted : List β} (h : IsTop key k l out) (hdesc : Descending key sorted)
    (hperm : sorted ~ l) (hdistinct : (l.map key).Nodup) : out = sorted.take k := by
  obtain ⟨rest, hrest, hall⟩ := h.exists_sorted
  have hnodup : ((out ++ rest).map key).Nodup := (hrest.map key).nodup_iff.1 hdistinct
  have hsame : out ++ rest = sorted := hall.eq_of_perm hdesc (hrest.symm.trans hperm.symm) hnodup
  rw [← hsame]
  have hlen := h.length
  rcases Nat.le_total k l.length with hk | hk
  · rw [Nat.min_eq_left hk] at hlen
    rw [← hlen, List.take_left]
  · -- everything is taken
    rw [Nat.min_eq_right hk] at hlen
    have hnil : rest = [] := by
      have := hrest.length_eq
      rw [List.length_append] at this
      exact List.length_eq_zero_iff.1 (by omega)
    rw [hnil, List.append_nil, List.take_of_length_le (by omega)]

theorem IsTop.unique {out' : List β} (h : IsTop key k l out) (h' : IsTop key k l out')
    (hdistinct : (l.map key).Nodup) : out = out' := by
  obtain ⟨rest, hrest, hall⟩ := h'.exists_sorted
  rw [h.eq_take hall hrest.symm hdistinct]
  exact (h'.eq_take hall hrest.symm hdistinct).symm

/-- Of three parts, each with smaller keys than the one before, the first and the largest elements
of the second. -/
theorem IsTop.between {m : Nat} {above mid low : List β} (hperm : l ~ above ++ (mid ++ low))
    (habove : Descending key above) (hbelow : ∀ a ∈ above, ∀ b ∈ mid ++ low, key b ≤ key a)
    (hlow : ∀ a ∈ mid, ∀ b ∈ low, key b ≤ key a) (hm : m ≤ mid.length) (h : IsTop key m mid out) :
    IsTop key (above.length + m) l (above ++ out) := by
  obtain ⟨rest, hrest, hle⟩ := h.rest
  have hout : ∀ a ∈ out, a ∈ mid := fun a ha => hrest.mem_iff.2 (List.mem_append_left _ ha)
  refine ⟨?_, habove.append h.descending fun a ha b hb => ?_, rest ++ low, ?_, ?_⟩
  · rw [List.length_append, h.length, hperm.length_eq, List.length_append, List.length_append]
    omega
  · exact hbelow a ha b (List.mem_append_left _ (hout b hb))
  · refine hperm.trans ?_
    rw [List.append_assoc, ← List.append_assoc out]
    exact (hrest.append_right low).append_left above
  · intro a ha b hb
    have hb' : b ∈ mid ++ low := by
      rcases List.mem_append.1 hb with hb | hb
      · exact List.mem_append_left _ (hrest.mem_iff.2 (List.mem_append_right _ hb))
      · exact List.mem_append_right _ hb
    rcases List.mem_append.1 ha with ha | ha
    · exact hbelow a ha b hb'
    · rcases List.mem_append.1 hb with hb | hb
      · exact hle a ha b hb
      · exact hlow a (hout a ha) b hb

/-- A map that keeps the order of the keys keeps the largest elements. -/
theorem IsTop.map {γ : Type} {key' : γ → κ} {f : β → γ}
    (hf : ∀ a b, key b ≤ key a → key' (f b) ≤ key' (f a)) (h : IsTop key k l out) :
    IsTop key' k (l.map f) (out.map f) := by
  obtain ⟨rest, hrest, hle⟩ := h.rest
  refine ⟨by rw [List.length_map, List.length_map, h.length], ?_, rest.map f, ?_, ?_⟩
  · exact List.pairwise_map.2 (h.descending.imp fun hab => hf _ _ hab)
  · rw [← List.map_append]
    exact hrest.map f
  · intro a ha b hb
    obtain ⟨a', ha', rfl⟩ := List.mem_map.1 ha
    obtain ⟨b', hb', rfl⟩ := List.mem_map.1 hb
    exact hf _ _ (hle a' ha' b' hb')

/-- All elements. -/
theorem IsTop.perm (h : IsTop key l.length l out) : out ~ l := by
  obtain ⟨rest, hrest, -⟩ := h.rest
  have hlen := hrest.length_eq
  rw [List.length_append, h.length, Nat.min_self] at hlen
  have hnil : rest = [] := List.length_eq_zero_iff.1 (by omega)
  rw [hnil, List.append_nil] at hrest
  exact hrest.symm

/-! ### Sorting -/

/-- What is known of `std::sort`, `std::partial_sort` and `std::nth_element` with an order by keys,
largest first: nothing about elements with one key. -/
structure SortAlgorithms (key : β → κ) where
  sort : List β → List β
  partialSort : (k : Nat) → List β → List β
  nthElement : (k : Nat) → List β → List β
  sort_perm (l : List β) : sort l ~ l
  sort_descending (l : List β) : Descending key (sort l)
  partialSort_perm (k : Nat) (l : List β) : partialSort k l ~ l
  partialSort_isTop (k : Nat) (l : List β) : IsTop key k l ((partialSort k l).take k)
  nthElement_perm (k : Nat) (l : List β) : nthElement k l ~ l
  nthElement_le (k : Nat) (l : List β) :
    ∀ a ∈ (nthElement k l).take k, ∀ b ∈ (nthElement k l).drop k, key b ≤ key a

namespace SortAlgorithms

variable (algos : SortAlgorithms key)

theorem sort_isTop (l : List β) : IsTop key l.length l (algos.sort l) := by
  have h := (algos.sort_descending l).isTop_take (algos.sort_perm l) l.length
  rwa [List.take_of_length_le (Nat.le_of_eq (algos.sort_perm l).length_eq)] at h

/-- The elements in front of the nth one, sorted. -/
theorem sort_nthElement_isTop (k : Nat) (l : List β) :
    IsTop key k l (algos.sort ((algos.nthElement k l).take k)) := by
  have hperm := algos.sort_perm ((algos.nthElement k l).take k)
  refine ⟨?_, algos.sort_descending _, (algos.nthElement k l).drop k, ?_, fun a ha b hb => ?_⟩
  · rw [hperm.length_eq, List.length_take, (algos.nthElement_perm k l).length_eq]
  · refine (algos.nthElement_perm k l).symm.trans ?_
    have := hperm.symm.append_right ((algos.nthElement k l).drop k)
    rwa [List.take_append_drop] at this
  · exact algos.nthElement_le k l a (hperm.mem_iff.1 ha) b hb

end SortAlgorithms

/-- One sort for all three. -/
def mergeSorts (key : β → κ) : SortAlgorithms key :=
  let sort := fun l : List β => l.mergeSort fun a b => decide (key b ≤ key a)
  have perm : ∀ l, sort l ~ l := fun l => List.mergeSort_perm l _
  have descending : ∀ l, Descending key (sort l) := descending_mergeSort
  { sort := sort
    partialSort := fun _ => sort
    nthElement := fun _ => sort
    sort_perm := perm
    sort_descending := descending
    partialSort_perm := fun _ => perm
    partialSort_isTop := fun k l => (descending l).isTop_take (perm l) k
    nthElement_perm := fun _ => perm
    nthElement_le := fun k l a ha b hb => by
      have hsplit : Descending key ((sort l).take k ++ (sort l).drop k) := by
        rw [List.take_append_drop]
        exact descending l
      exact (List.pairwise_append.1 hsplit).2.2 a ha b hb }

/-! ### A window -/

/-- `x` is placed from the end, behind the last element whose key is not smaller. -/
def place (key : β → κ) (x : β) (l : List β) : List β :=
  l.rdropWhile (fun a => key a < key x) ++ x :: l.rtakeWhile (fun a => key a < key x)

theorem place_perm (x : β) (l : List β) : place key x l ~ x :: l := by
  have hsplit : l.rdropWhile (fun a => key a < key x) ++ l.rtakeWhile (fun a => key a < key x) =
      l := List.rdropWhile_append_rtakeWhile
  refine List.perm_middle.trans ?_
  rw [hsplit]

theorem length_place (x : β) (l : List β) : (place key x l).length = l.length + 1 := by
  rw [(place_perm x l).length_eq, List.length_cons]

/-- In a sorted list what stands in front of the place is not smaller. -/
theorem le_of_mem_rdropWhile {x a : β} (h : Descending key l)
    (ha : a ∈ l.rdropWhile (fun a => key a < key x)) : key x ≤ key a := by
  have hne := List.ne_nil_of_mem ha
  have hlast := List.rdropWhile_last_not _ l hne
  have hlast' : key x ≤ key ((l.rdropWhile (fun a => key a < key x)).getLast hne) := by
    simpa using hlast
  have hfront : Descending key (l.rdropWhile (fun a => key a < key x)) :=
    List.Pairwise.sublist (List.rdropWhile_prefix _ _).sublist h
  rw [← List.dropLast_append_getLast hne] at ha
  rcases List.mem_append.1 ha with ha | ha
  · rw [← List.dropLast_append_getLast hne] at hfront
    exact hlast'.trans ((List.pairwise_append.1 hfront).2.2 a ha _ (List.mem_singleton_self _))
  · rw [List.mem_singleton.1 ha]
    exact hlast'

/-- Placing an element keeps the order. -/
theorem Descending.place (h : Descending key l) (x : β) : Descending key (place key x l) := by
  have hfront : Descending key (l.rdropWhile (fun a => key a < key x)) :=
    List.Pairwise.sublist (List.rdropWhile_prefix _ _).sublist h
  have hback : Descending key (l.rtakeWhile (fun a => key a < key x)) :=
    List.Pairwise.sublist (List.rtakeWhile_suffix _ _).sublist h
  have hsmaller : ∀ b ∈ l.rtakeWhile (fun a => key a < key x), key b < key x := by
    intro b hb
    simpa using List.mem_rtakeWhile_imp hb
  refine hfront.append (List.pairwise_cons.2 ⟨fun b hb => (hsmaller b hb).le, hback⟩) ?_
  intro a ha b hb
  have hxa := le_of_mem_rdropWhile h ha
  rcases List.mem_cons.1 hb with rfl | hb
  · exact hxa
  · exact (hsmaller b hb).le.trans hxa

/-- One more element for a window of `k`: a full one gives up its last element, unless the new one
is not larger. -/
def push (key : β → κ) (k : Nat) (window : List β) (x : β) : List β :=
  if window.length < k then place key x window
  else
    match window.getLast? with
    | none => window
    | some last => if key last < key x then place key x window.dropLast else window

theorem push_of_lt (h : window.length < k) (x : β) :
    push key k window x = place key x window := if_pos h

theorem push_concat {front : List β} {last : β} (h : ¬ (front ++ [last]).length < k) (x : β) :
    push key k (front ++ [last]) x =
      if key last < key x then place key x front else front ++ [last] := by
  rw [push, if_neg h, List.getLast?_concat]
  simp only [List.dropLast_concat]

/-- Pushing one more element keeps the window the top of all that was pushed. -/
theorem IsTop.push (hk : 0 < k) (h : IsTop key k l window) (x : β) :
    IsTop key k (l ++ [x]) (push key k window x) := by
  obtain ⟨rest, hperm, hle⟩ := h.rest
  have hlen := h.length
  have htotal := hperm.length_eq
  rw [List.length_append] at htotal
  have hsnoc : l ++ [x] ~ x :: (window ++ rest) :=
    (List.perm_append_singleton x l).trans (hperm.cons x)
  by_cases hroom : window.length < k
  · -- nothing was left out so far
    have hnil : rest = [] := List.length_eq_zero_iff.1 (by omega)
    rw [push_of_lt hroom]
    refine ⟨?_, h.descending.place x, [], ?_, fun a _ b hb => absurd hb List.not_mem_nil⟩
    · rw [length_place, List.length_append, List.length_singleton]
      omega
    · rw [hnil, List.append_nil] at hsnoc
      rw [List.append_nil]
      exact hsnoc.trans (place_perm x window).symm
  · obtain ⟨front, last, rfl⟩ : ∃ front last, window = front ++ [last] := by
      have hne : window ≠ [] := List.ne_nil_of_length_pos (by omega)
      exact ⟨window.dropLast, window.getLast hne, (List.dropLast_append_getLast hne).symm⟩
    rw [push_concat hroom]
    have hdesc := List.pairwise_append.1 h.descending
    have hlast : ∀ a ∈ front, key last ≤ key a :=
      fun a ha => hdesc.2.2 a ha last (List.mem_singleton_self last)
    have hrest : ∀ b ∈ rest, key b ≤ key last := hle last (by simp)
    by_cases hx : key last < key x
    · rw [if_pos hx]
      refine ⟨?_, Descending.place hdesc.1 x, last :: rest, ?_, ?_⟩
      · rw [length_place, List.length_append, List.length_singleton]
        rw [List.length_append, List.length_singleton] at hlen
        omega
      · refine hsnoc.trans ?_
        rw [List.append_assoc, List.singleton_append]
        exact ((place_perm x front).append_right (last :: rest)).symm
      · intro a ha b hb
        have hla : key last ≤ key a := by
          rcases List.mem_cons.1 ((place_perm x front).mem_iff.1 ha) with rfl | ha
          · exact hx.le
          · exact hlast a ha
        rcases List.mem_cons.1 hb with rfl | hb
        · exact hla
        · exact (hrest b hb).trans hla
    · rw [if_neg hx]
      refine ⟨?_, h.descending, x :: rest, ?_, ?_⟩
      · rw [hlen, List.length_append, List.length_singleton]
        omega
      · exact hsnoc.trans List.perm_middle.symm
      · intro a ha b hb
        rcases List.mem_cons.1 hb with rfl | hb
        · have hla : key last ≤ key a := by
            rcases List.mem_append.1 ha with ha | ha
            · exact hlast a ha
            · rw [List.mem_singleton.1 ha]
          exact (not_lt.1 hx).trans hla
        · exact hle a ha b hb

theorem IsTop.foldl_push (hk : 0 < k) (h : IsTop key k l window) (xs : List β) :
    IsTop key k (l ++ xs) (xs.foldl (TopSelect.push key k) window) := by
  induction xs generalizing l window with
  | nil =>
    rw [List.append_nil]
    exact h
  | cons x xs ih =>
    have hnext := ih (h.push hk x)
    rwa [List.append_assoc, List.singleton_append] at hnext

/-- The window of a whole list. -/
theorem isTop_foldl_push {k : Nat} (hk : 0 < k) (l : List β) :
    IsTop key k l (l.foldl (push key k) []) := by
  have hempty : IsTop key k [] [] :=
    ⟨by simp, List.Pairwise.nil, [], by simp, fun a ha => absurd ha List.not_mem_nil⟩
  exact hempty.foldl_push hk l

/-! ### One element -/

/-- The first of the elements with the largest key. -/
def firstMax (key : β → κ) : List β → Option β
  | [] => none
  | b :: bs => some (bs.foldl (fun best b => if key best < key b then b else best) b)

theorem push_one (best x : β) :
    push key 1 [best] x = [if key best < key x then x else best] := by
  have hfull : ¬ ([] ++ [best] : List β).length < 1 := by simp
  rw [← List.nil_append [best], push_concat hfull]
  split <;> rfl

/-- A window of one element. -/
theorem foldl_push_one (l : List β) : l.foldl (push key 1) [] = (firstMax key l).toList := by
  cases l with
  | nil => rfl
  | cons b bs =>
    rw [List.foldl_cons]
    show bs.foldl (push key 1) [b] = _
    rw [firstMax]
    induction bs generalizing b with
    | nil => rfl
    | cons b' bs ih =>
      rw [List.foldl_cons, push_one, ih]
      rfl

theorem firstMax_map {γ : Type} {key' : γ → κ} {f : β → γ} (hf : ∀ b, key' (f b) = key b)
    (l : List β) : firstMax key' (l.map f) = (firstMax key l).map f := by
  cases l with
  | nil => rfl
  | cons b bs =>
    show some _ = some _
    congr 1
    induction bs generalizing b with
    | nil => rfl
    | cons b' bs ih =>
      rw [List.map_cons, List.foldl_cons, List.foldl_cons, hf, hf, ← ih]
      split <;> rfl

end TopSelect
