import Mathlib.Algebra.BigOperators.Intervals

/-!
# `Lib.Tally`: counting the places of an array that satisfy a predicate

`places p f a b` are the places from `a` on and below `b` whose value satisfies `p`, `tally`
is how many there are, and `values` are their values. `tally_update` is what a store does to
the count: it takes the old value out and puts the new one in. A move of a value to a place
that did not satisfy `p` keeps the values (`values_move`).
-/

namespace Tally

section
variable {α : Type} (p : α → Prop) [DecidablePred p] (f : Nat → α)

/-- The places in `[a, b)` whose value satisfies `p`. -/
def places (a b : Nat) : Finset Nat := (Finset.Ico a b).filter fun i => p (f i)

/-- How many there are. -/
def tally (a b : Nat) : Nat := (places p f a b).card

/-- The values at these places. -/
def values (a b : Nat) : Multiset α := (places p f a b).val.map f

variable {p f} {a b c : Nat}

variable {i : Nat} {g : Nat → α} {q : α → Prop}

theorem mem_places : i ∈ places p f a b ↔ (a ≤ i ∧ i < b) ∧ p (f i) := by
  rw [places, Finset.mem_filter, Finset.mem_Ico]

theorem tally_eq_sum : tally p f a b = ∑ i ∈ Finset.Ico a b, if p (f i) then 1 else 0 :=
  Finset.card_filter _ _

theorem tally_add (hab : a ≤ b) (hbc : b ≤ c) :
    tally p f a b + tally p f b c = tally p f a c := by
  simp only [tally_eq_sum]
  exact Finset.sum_Ico_consecutive _ hab hbc

theorem tally_succ (hab : a ≤ b) :
    tally p f a (b + 1) = tally p f a b + if p (f b) then 1 else 0 := by
  simp only [tally_eq_sum]
  exact Finset.sum_Ico_succ_top hab _

theorem tally_le : tally p f a b ≤ b - a := by
  rw [← Nat.card_Ico a b]
  exact Finset.card_filter_le _ _

theorem places_congr [DecidablePred q] (h : ∀ i, a ≤ i → i < b → (p (f i) ↔ q (g i))) :
    places p f a b = places q g a b := by
  rw [places, places]
  apply Finset.filter_congr
  intro i hi
  rw [Finset.mem_Ico] at hi
  exact h i hi.1 hi.2

theorem tally_congr [DecidablePred q] (h : ∀ i, a ≤ i → i < b → (p (f i) ↔ q (g i))) :
    tally p f a b = tally q g a b := by
  rw [tally, tally, places_congr h]

theorem tally_eq_zero (h : ∀ i, a ≤ i → i < b → ¬ p (f i)) : tally p f a b = 0 := by
  rw [tally, Finset.card_eq_zero, places, Finset.filter_eq_empty_iff]
  intro i hi
  rw [Finset.mem_Ico] at hi
  exact h i hi.1 hi.2

theorem tally_eq_length (h : ∀ i, a ≤ i → i < b → p (f i)) : tally p f a b = b - a := by
  rw [tally, places, Finset.filter_true_of_mem, Nat.card_Ico]
  intro i hi
  rw [Finset.mem_Ico] at hi
  exact h i hi.1 hi.2

/-- The places of a list that is stored from `a` on. -/
theorem tally_eq_countP {β : Type} {q : β → Prop} [DecidablePred q] {l : List β}
    (h : ∀ k, (hk : k < l.length) → (p (f (a + k)) ↔ q l[k])) :
    tally p f a (a + l.length) = l.countP q := by
  induction l generalizing a with
  | nil => exact tally_eq_zero fun i hi hlt => absurd hlt (Nat.not_lt.mpr hi)
  | cons x l ih =>
    have hfirst : p (f a) ↔ q x := h 0 (Nat.zero_lt_succ _)
    have hrest : tally p f (a + 1) (a + 1 + l.length) = l.countP q := by
      apply ih
      intro k hk
      rw [Nat.add_assoc, Nat.add_comm 1]
      exact h (k + 1) (Nat.succ_lt_succ hk)
    have hone : tally p f a (a + 1) = if q x then 1 else 0 := by
      rw [tally_succ (Nat.le_refl a), tally_eq_zero fun i hi hlt => absurd hlt (Nat.not_lt.mpr hi),
        Nat.zero_add]
      simp only [hfirst]
    rw [List.length_cons, Nat.add_comm l.length, ← Nat.add_assoc,
      ← tally_add (Nat.le_succ a) (Nat.le_add_right _ _), hone, hrest, List.countP_cons,
      Nat.add_comm]
    simp only [decide_eq_true_eq]

/-- None does when the count is zero. -/
theorem of_tally_eq_zero (h : tally p f a b = 0) (hai : a ≤ i) (hib : i < b) : ¬ p (f i) := by
  intro hp
  rw [tally, Finset.card_eq_zero] at h
  exact absurd (mem_places.mpr ⟨⟨hai, hib⟩, hp⟩) (by rw [h]; exact Finset.notMem_empty i)

theorem exists_of_tally_pos (h : 0 < tally p f a b) : ∃ i, a ≤ i ∧ i < b ∧ p (f i) := by
  obtain ⟨i, hi⟩ := Finset.card_pos.mp h
  obtain ⟨⟨hai, hib⟩, hp⟩ := mem_places.mp hi
  exact ⟨i, hai, hib, hp⟩

/-- A store takes the old value out of the count, and puts the new one in. -/
theorem tally_update {x : α} (hai : a ≤ i) (hib : i < b) :
    tally p (Function.update f i x) a b + (if p (f i) then 1 else 0)
      = tally p f a b + if p x then 1 else 0 := by
  have hi : i ∈ Finset.Ico a b := Finset.mem_Ico.mpr ⟨hai, hib⟩
  have hrest : ∑ j ∈ (Finset.Ico a b).erase i, (if p (Function.update f i x j) then 1 else 0)
      = ∑ j ∈ (Finset.Ico a b).erase i, if p (f j) then 1 else 0 := by
    apply Finset.sum_congr rfl
    intro j hj
    rw [Function.update_of_ne (Finset.ne_of_mem_erase hj)]
  rw [tally_eq_sum, tally_eq_sum, ← Finset.add_sum_erase _ _ hi, ← Finset.add_sum_erase _ _ hi,
    hrest, Function.update_self]
  omega

theorem card_values : (values p f a b).card = tally p f a b :=
  Multiset.card_map _ _

theorem values_congr [DecidablePred q] (hp : ∀ i, a ≤ i → i < b → (p (f i) ↔ q (g i)))
    (h : ∀ i, a ≤ i → i < b → p (f i) → f i = g i) : values p f a b = values q g a b := by
  rw [values, values, ← places_congr hp]
  apply Multiset.map_congr rfl
  intro i hi
  obtain ⟨⟨hai, hib⟩, hpi⟩ := mem_places.mp hi
  exact h i hai hib hpi

theorem values_add (hab : a ≤ b) (hbc : b ≤ c) :
    values p f a b + values p f b c = values p f a c := by
  have hdisj : Disjoint (places p f a b) (places p f b c) := by
    rw [Finset.disjoint_left]
    intro i hi hi'
    have hlt := (mem_places.mp hi).1.2
    have hge := (mem_places.mp hi').1.1
    omega
  have hunion : places p f a c = (places p f a b).disjUnion (places p f b c) hdisj := by
    ext i
    rw [Finset.mem_disjUnion, mem_places, mem_places, mem_places]
    by_cases hp : p (f i)
    · simp only [hp, and_true]
      omega
    · simp only [hp, and_false, or_self]
  rw [values, values, values, hunion, Finset.disjUnion_val, Multiset.map_add]

/-- A value moves from `i` to `k`, and leaves one that does not count behind. -/
theorem values_move {k : Nat} {x : α} (hi : i ∈ places p f a b) (hk : a ≤ k ∧ k < b)
    (hpk : ¬ p (f k)) (hx : ¬ p x) :
    values p (Function.update (Function.update f k (f i)) i x) a b = values p f a b := by
  obtain ⟨hib, hpi⟩ := mem_places.mp hi
  have hne : k ≠ i := fun heq => hpk (heq ▸ hpi)
  have hplaces : places p (Function.update (Function.update f k (f i)) i x) a b
      = insert k ((places p f a b).erase i) := by
    ext j
    rw [mem_places, Finset.mem_insert, Finset.mem_erase, mem_places]
    by_cases hji : j = i
    · rw [hji, Function.update_self]
      simp [hx, Ne.symm hne]
    · rw [Function.update_of_ne hji]
      by_cases hjk : j = k
      · rw [hjk, Function.update_self]
        simp [hpi, hk.1, hk.2]
      · rw [Function.update_of_ne hjk]
        simp [hji, hjk]
  have hknot : k ∉ (places p f a b).erase i := by
    intro hmem
    exact hpk (mem_places.mp (Finset.mem_of_mem_erase hmem)).2
  have hrest : ((places p f a b).erase i).val.map
        (Function.update (Function.update f k (f i)) i x)
      = ((places p f a b).erase i).val.map f := by
    apply Multiset.map_congr rfl
    intro j hj
    replace hj : j ∈ (places p f a b).erase i := hj
    have hjk : j ≠ k := fun heq => hknot (heq ▸ hj)
    rw [Function.update_of_ne (Finset.ne_of_mem_erase hj), Function.update_of_ne hjk]
  have hself : Function.update (Function.update f k (f i)) i x k = f i := by
    rw [Function.update_of_ne hne, Function.update_self]
  rw [values, hplaces, Finset.insert_val_of_notMem hknot, Multiset.map_cons, hrest, hself, values,
    ← Multiset.map_cons, Finset.erase_val, Multiset.cons_erase hi]

end

end Tally

/-!
## Items counted in a fixed number of slots

A slot that is used counts one item, up to a bound, and carries a mark of its user. An item that no
slot counts takes the first unused one, and is dropped if there is none (`add`). `FirstMax` is the
slot that stands out: the first one with the largest weight. `argMax` finds it.
-/

namespace SlotTally

/-- A slot. The item of one that is not used means nothing. -/
structure Slot (α β : Type) where
  used : Bool
  item : α
  num : Nat
  mark : β
deriving DecidableEq

section
variable {α β : Type} [DecidableEq α]

/-- The slots with an item counted. A slot that is taken gets the mark. -/
def add (bound : Nat) (mark : β) : List (Slot α β) → α → List (Slot α β)
  | [], _ => []
  | s :: slots, x =>
    if s.used = false then { used := true, item := x, num := min 1 bound, mark } :: slots
    else if s.item = x then { s with num := min (s.num + 1) bound } :: slots
    else s :: add bound mark slots x

end

section
variable {σ : Type} {w : σ → Nat} {l : List σ} {i : Nat} {s : σ}

/-- The element at the place is the first one with the largest weight. -/
structure FirstMax (w : σ → Nat) (l : List σ) (i : Nat) (s : σ) : Prop where
  at_place : l[i]? = some s
  largest : ∀ t ∈ l, w t ≤ w s
  first : ∀ j t, j < i → l[j]? = some t → w t < w s

theorem FirstMax.unique {j : Nat} {t : σ} (hs : FirstMax w l i s) (ht : FirstMax w l j t) :
    i = j ∧ s = t := by
  have hle : w s ≤ w t := ht.largest s (List.mem_of_getElem? hs.at_place)
  have hge : w t ≤ w s := hs.largest t (List.mem_of_getElem? ht.at_place)
  have hij : i = j := by
    rcases Nat.lt_trichotomy i j with hlt | heq | hgt
    · have hless := ht.first i s hlt hs.at_place
      omega
    · exact heq
    · have hless := hs.first j t hgt ht.at_place
      omega
  subst hij
  exact ⟨rfl, Option.some.inj (hs.at_place.symm.trans ht.at_place)⟩

theorem FirstMax.map {τ : Type} {f : τ → σ} {l : List τ} {t : τ}
    (h : FirstMax (w ∘ f) l i t) : FirstMax w (l.map f) i (f t) where
  at_place := by rw [List.getElem?_map, h.at_place]; rfl
  largest := List.forall_mem_map.mpr h.largest
  first j u hj hu := by
    rw [List.getElem?_map] at hu
    obtain ⟨t', ht', rfl⟩ := Option.map_eq_some_iff.mp hu
    exact h.first j t' hj ht'

/-- The place of the largest weight and that weight, kept from the left. -/
def argMax (w : σ → Nat) (l : List σ) : Nat × Nat :=
  l.zipIdx.foldl (fun best s => if best.2 < w s.1 then (s.2, w s.1) else best) (0, 0)

theorem argMax_concat (l : List σ) (s : σ) :
    argMax w (l ++ [s])
      = if (argMax w l).2 < w s then (l.length, w s) else argMax w l := by
  rw [argMax, List.zipIdx_append, List.foldl_append, List.zipIdx_singleton, Nat.zero_add]
  rfl

/-- One more element at the end is the first largest if it is larger than all before it. -/
theorem FirstMax.concat (h : FirstMax w l i s) (last : σ) :
    if w s < w last then FirstMax w (l ++ [last]) l.length last
    else FirstMax w (l ++ [last]) i s := by
  have hlt : i < l.length := (List.getElem?_eq_some_iff.mp h.at_place).1
  split
  · rename_i hmore
    refine ⟨List.getElem?_concat_length, ?_, ?_⟩
    · intro t ht
      rcases List.mem_append.mp ht with hmem | hmem
      · exact Nat.le_trans (h.largest t hmem) (Nat.le_of_lt hmore)
      · exact List.mem_singleton.mp hmem ▸ Nat.le_refl _
    · intro j t hj ht
      rw [List.getElem?_append_left hj] at ht
      exact Nat.lt_of_le_of_lt (h.largest t (List.mem_of_getElem? ht)) hmore
  · rename_i hless
    refine ⟨(List.getElem?_append_left hlt).trans h.at_place, ?_, ?_⟩
    · intro t ht
      rcases List.mem_append.mp ht with hmem | hmem
      · exact h.largest t hmem
      · rw [List.mem_singleton.mp hmem]
        exact Nat.le_of_not_lt hless
    · intro j t hj ht
      rw [List.getElem?_append_left (Nat.lt_trans hj hlt)] at ht
      exact h.first j t hj ht

/-- The first place of the largest weight. -/
theorem argMax_spec (w : σ → Nat) (l : List σ) :
    l = [] ∨ ∃ s, FirstMax w l (argMax w l).1 s ∧ (argMax w l).2 = w s := by
  induction l using List.reverseRecOn with
  | nil => exact .inl rfl
  | append_singleton front last ih =>
    right
    rw [argMax_concat]
    rcases ih with rfl | ⟨s, hs, hweight⟩
    · -- of one element, with or without a weight
      refine ⟨last, ?_⟩
      have hone : FirstMax w [last] 0 last :=
        ⟨rfl, fun t ht => List.mem_singleton.mp ht ▸ Nat.le_refl _,
          fun j t hj => absurd hj (by omega)⟩
      split
      · exact ⟨hone, rfl⟩
      · rename_i hzero
        exact ⟨hone, (Nat.le_zero.mp (Nat.le_of_not_lt hzero)).symm⟩
    · have hnext := hs.concat last
      rw [hweight]
      split at hnext
      · rename_i hmore
        rw [if_pos hmore]
        exact ⟨last, hnext, rfl⟩
      · rename_i hless
        rw [if_neg hless]
        exact ⟨s, hnext, hweight⟩

end

end SlotTally
