import Mathlib.Data.Set.Finite.Basic

/-!
# `Lib.Explore`: a search with a worklist

`explore` takes the states of a worklist one by one, leaves out those it has seen, and puts what
follows a state on top of the list. States that nothing follows are the results. Some states are
not allowed (`Visit.abort`).

The search comes to an end when finitely many states can be reached, all of them allowed
(`explore_terminates`). When it ends, finitely many were reached, and the results are those of them
that nothing follows (`explore_spec`).
-/

section

variable {σ : Type}

/-- What the search finds at a state. -/
inductive Visit (σ : Type) where
  | leaf
  | next (succs : List σ)
  | abort

variable [DecidableEq σ]

/-- A result is kept once. -/
def addNew (out : List σ) (s : σ) : List σ := if s ∈ out then out else out ++ [s]

/-- The search with a worklist whose head is taken next; `none` when it meets a state that is not
allowed, or when it is not through after so many rounds. -/
def explore (visit : σ → Visit σ) : (fuel : Nat) → (todo seen out : List σ) → Option (List σ)
  | _, [], _, out => some out
  | 0, _ :: _, _, _ => none
  | fuel + 1, s :: todo, seen, out =>
    if s ∈ seen then explore visit fuel todo seen out
    else
      match visit s with
      | .leaf => explore visit fuel todo (s :: seen) (addNew out s)
      | .next succs => explore visit fuel (succs.reverse ++ todo) (s :: seen) out
      | .abort => none

variable {visit : σ → Visit σ} {s t : σ} {todo seen out out' : List σ} {fuel : Nat}

/-- `t` follows `s`. -/
def Follows (visit : σ → Visit σ) (s t : σ) : Prop :=
  ∃ succs, visit s = .next succs ∧ t ∈ succs

abbrev Reaches (visit : σ → Visit σ) : σ → σ → Prop := Relation.ReflTransGen (Follows visit)

@[simp] theorem mem_addNew : t ∈ addNew out s ↔ t ∈ out ∨ t = s := by
  unfold addNew
  split
  · exact ⟨.inl, fun h => h.elim id fun heq => heq ▸ ‹s ∈ out›⟩
  · simp

/-- More fuel changes no result. -/
theorem explore_mono (h : explore visit fuel todo seen out = some out') :
    explore visit (fuel + 1) todo seen out = some out' := by
  induction fuel generalizing todo seen out with
  | zero =>
    cases todo with
    | nil => exact h
    | cons s todo => cases h
  | succ fuel ih =>
    cases todo with
    | nil => exact h
    | cons s todo =>
      unfold explore at h ⊢
      split at h
      · rw [if_pos ‹s ∈ seen›]
        exact ih h
      · rw [if_neg ‹s ∉ seen›]
        cases hvisit : visit s with
        | leaf => rw [hvisit] at h; exact ih h
        | next succs => rw [hvisit] at h; exact ih h
        | abort => rw [hvisit] at h; cases h

/-- Whether the search comes to an end does not depend on the results before. -/
theorem explore_isSome (out out' : List σ) :
    (explore visit fuel todo seen out).isSome = (explore visit fuel todo seen out').isSome := by
  induction fuel generalizing todo seen out out' with
  | zero => cases todo <;> rfl
  | succ fuel ih =>
    cases todo with
    | nil => rfl
    | cons s todo =>
      unfold explore
      split
      · exact ih out out'
      · cases visit s with
        | leaf => exact ih _ _
        | next succs => exact ih _ _
        | abort => rfl

/-! ### The end of the search -/

/-- A search inside a finite set of allowed states comes to an end. -/
theorem explore_terminates_of_finset {K : Finset σ} (hallowed : ∀ s ∈ K, visit s ≠ .abort)
    (hclosed : ∀ s ∈ K, ∀ t, Follows visit s t → t ∈ K) (htodo : ∀ s ∈ todo, s ∈ K) :
    ∃ fuel out', explore visit fuel todo seen out = some out' := by
  -- first the states that are not seen yet get fewer, then the worklist gets shorter
  induction hleft : (K.filter (· ∉ seen)).card using Nat.strong_induction_on
    generalizing todo seen out with
  | _ left ih =>
    induction todo with
    | nil => exact ⟨0, out, rfl⟩
    | cons s todo ihtodo =>
      have hs : s ∈ K := htodo s List.mem_cons_self
      have htodo' : ∀ t ∈ todo, t ∈ K := fun t ht => htodo t (List.mem_cons_of_mem s ht)
      by_cases hseen : s ∈ seen
      · obtain ⟨fuel, out', h⟩ := ihtodo htodo'
        exact ⟨fuel + 1, out', by rw [explore, if_pos hseen]; exact h⟩
      · have hfewer : (K.filter (· ∉ s :: seen)).card < left := by
          rw [← hleft]
          refine Finset.card_lt_card (Finset.ssubset_iff_of_subset ?_ |>.mpr ⟨s, ?_, ?_⟩)
          · intro t ht
            rw [Finset.mem_filter] at ht ⊢
            exact ⟨ht.1, fun hmem => ht.2 (List.mem_cons_of_mem s hmem)⟩
          · exact Finset.mem_filter.mpr ⟨hs, hseen⟩
          · simp
        cases hvisit : visit s with
        | leaf =>
          obtain ⟨fuel, out', h⟩ := @ih _ hfewer todo (s :: seen) (addNew out s) htodo' rfl
          exact ⟨fuel + 1, out', by rw [explore, if_neg hseen, hvisit]; exact h⟩
        | next succs =>
          have hsuccs : ∀ t ∈ succs.reverse ++ todo, t ∈ K := by
            intro t ht
            rcases List.mem_append.mp ht with ht | ht
            · exact hclosed s hs t ⟨succs, hvisit, List.mem_reverse.mp ht⟩
            · exact htodo' t ht
          obtain ⟨fuel, out', h⟩ := @ih _ hfewer (succs.reverse ++ todo) (s :: seen) out hsuccs rfl
          exact ⟨fuel + 1, out', by rw [explore, if_neg hseen, hvisit]; exact h⟩
        | abort => exact absurd hvisit (hallowed s hs)

/-- A search from a state from which finitely many can be reached, all allowed, comes to an end. -/
theorem explore_terminates (hfinite : {t | Reaches visit s t}.Finite)
    (hallowed : ∀ t, Reaches visit s t → visit t ≠ .abort) (out : List σ) :
    ∃ fuel out', explore visit fuel [s] [] out = some out' := by
  refine @explore_terminates_of_finset _ _ visit [s] [] out hfinite.toFinset ?_ ?_ ?_
  · intro t ht
    exact hallowed t (hfinite.mem_toFinset.mp ht)
  · intro t ht u hu
    exact hfinite.mem_toFinset.mpr ((hfinite.mem_toFinset.mp ht).tail hu)
  · intro t ht
    rw [List.mem_singleton.mp ht]
    exact hfinite.mem_toFinset.mpr .refl

/-! ### What was found -/

/-- What holds in the middle of a search from `s`: what was seen can be reached, and what follows
it is seen or still to be done. -/
structure Searching (visit : σ → Visit σ) (s : σ) (start todo seen out : List σ) : Prop where
  reached : ∀ t, t ∈ todo ∨ t ∈ seen → Reaches visit s t
  origin : s ∈ todo ∨ s ∈ seen
  follows : ∀ t ∈ seen, ∀ u, Follows visit t u → u ∈ todo ∨ u ∈ seen
  results : ∀ t, t ∈ out ↔ t ∈ start ∨ t ∈ seen ∧ visit t = .leaf
  allowed : ∀ t ∈ seen, visit t ≠ .abort

omit [DecidableEq σ] in
theorem Searching.skip {start : List σ} (h : Searching visit s start (t :: todo) seen out)
    (hseen : t ∈ seen) : Searching visit s start todo seen out := by
  refine ⟨fun u hu => h.reached u ?_, ?_, fun u hu v hv => ?_, h.results, h.allowed⟩
  · exact hu.imp_left (List.mem_cons_of_mem t)
  · rcases h.origin with hs | hs
    · rcases List.mem_cons.mp hs with rfl | hs
      · exact .inr hseen
      · exact .inl hs
    · exact .inr hs
  · rcases h.follows u hu v hv with hv | hv
    · rcases List.mem_cons.mp hv with rfl | hv
      · exact .inr hseen
      · exact .inl hv
    · exact .inr hv

omit [DecidableEq σ] in
/-- A state is taken from the worklist, and what follows it is put there. -/
theorem Searching.take {start out' : List σ} {succs : List σ}
    (h : Searching visit s start (t :: todo) seen out)
    (hfollows : ∀ u, Follows visit t u ↔ u ∈ succs) (hallowed : visit t ≠ .abort)
    (hout : ∀ u, u ∈ out' ↔ u ∈ out ∨ u = t ∧ visit t = .leaf) :
    Searching visit s start (succs.reverse ++ todo) (t :: seen) out' := by
  have ht : Reaches visit s t := h.reached t (.inl List.mem_cons_self)
  refine ⟨fun u hu => ?_, ?_, fun u hu v hv => ?_, fun u => ?_, fun u hu => ?_⟩
  · rcases hu with hu | hu
    · rcases List.mem_append.mp hu with hu | hu
      · exact ht.tail ((hfollows u).mpr (List.mem_reverse.mp hu))
      · exact h.reached u (.inl (List.mem_cons_of_mem t hu))
    · rcases List.mem_cons.mp hu with rfl | hu
      · exact ht
      · exact h.reached u (.inr hu)
  · rcases h.origin with hs | hs
    · rcases List.mem_cons.mp hs with rfl | hs
      · exact .inr List.mem_cons_self
      · exact .inl (List.mem_append_right _ hs)
    · exact .inr (List.mem_cons_of_mem t hs)
  · rcases List.mem_cons.mp hu with rfl | hu
    · exact .inl (List.mem_append_left _ (List.mem_reverse.mpr ((hfollows v).mp hv)))
    · rcases h.follows u hu v hv with hv | hv
      · rcases List.mem_cons.mp hv with rfl | hv
        · exact .inr List.mem_cons_self
        · exact .inl (List.mem_append_right _ hv)
      · exact .inr (List.mem_cons_of_mem t hv)
  · rw [hout, h.results, List.mem_cons]
    constructor
    · rintro ((hu | ⟨hu, hleaf⟩) | ⟨rfl, hleaf⟩)
      · exact .inl hu
      · exact .inr ⟨.inr hu, hleaf⟩
      · exact .inr ⟨.inl rfl, hleaf⟩
    · rintro (hu | ⟨rfl | hu, hleaf⟩)
      · exact .inl (.inl hu)
      · exact .inr ⟨rfl, hleaf⟩
      · exact .inl (.inr ⟨hu, hleaf⟩)
  · rcases List.mem_cons.mp hu with rfl | hu
    · exact hallowed
    · exact h.allowed u hu

/-- An exploration that ends has nothing left to do. -/
theorem Searching.finish {start : List σ} (h : Searching visit s start todo seen out)
    (heq : explore visit fuel todo seen out = some out') :
    ∃ seen', Searching visit s start [] seen' out' := by
  induction fuel generalizing todo seen out with
  | zero =>
    cases todo with
    | nil => cases heq; exact ⟨seen, h⟩
    | cons t todo => cases heq
  | succ fuel ih =>
    cases todo with
    | nil => cases heq; exact ⟨seen, h⟩
    | cons t todo =>
      unfold explore at heq
      split at heq
      · exact ih (h.skip ‹t ∈ seen›) heq
      · cases hvisit : visit t with
        | leaf =>
          rw [hvisit] at heq
          have htaken : Searching visit s start ([].reverse ++ todo) (t :: seen) (addNew out t) := by
            refine h.take (fun u => ?_) ?_ fun u => ?_
            · simp [Follows, hvisit]
            · simp [hvisit]
            · simp [hvisit]
          exact ih htaken heq
        | next succs =>
          rw [hvisit] at heq
          refine ih (h.take (fun u => ?_) ?_ fun u => ?_) heq
          · simp [Follows, hvisit]
          · simp [hvisit]
          · simp [hvisit]
        | abort => rw [hvisit] at heq; cases heq

/-- A search that has come to an end: what can be reached is in a list, nothing of it is forbidden,
and the results are the states that nothing follows, added to the ones it started with. -/
theorem explore_spec (h : explore visit fuel [s] [] out = some out') :
    {t | Reaches visit s t}.Finite ∧ (∀ t, Reaches visit s t → visit t ≠ .abort) ∧
      ∀ t, t ∈ out' ↔ t ∈ out ∨ Reaches visit s t ∧ visit t = .leaf := by
  have hstart : Searching visit s out [s] [] out := by
    refine ⟨fun t ht => ?_, .inl List.mem_cons_self, ?_, fun t => ?_, ?_⟩
    · rcases ht with ht | ht
      · rw [List.mem_singleton.mp ht]
      · cases ht
    · intro t ht
      cases ht
    · simp
    · intro t ht
      cases ht
  obtain ⟨seen, hseen⟩ := hstart.finish h
  have hall : ∀ t, Reaches visit s t → t ∈ seen := by
    intro t ht
    induction ht with
    | refl => exact hseen.origin.elim (fun hs => absurd hs List.not_mem_nil) id
    | tail _ hfollows ih =>
      exact (hseen.follows _ ih _ hfollows).elim (fun hu => absurd hu List.not_mem_nil) id
  refine ⟨(List.finite_toSet seen).subset hall, fun t ht => hseen.allowed t (hall t ht), fun t => ?_⟩
  rw [hseen.results]
  refine or_congr_right ⟨fun ht => ⟨hseen.reached t (.inr ht.1), ht.2⟩, fun ht => ⟨hall t ht.1, ht.2⟩⟩

end
