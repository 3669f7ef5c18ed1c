import PxqLlama.Kv.FindSlot
import PxqLlama.Lib.NextFit

/-!
# `Proofs.Kv.Slot`: which slot a search finds

The search of either cache is a next fit (`searchSlot_searched`): it finds the first run of
free cells from `head` on, or else the first of all, and it fails only when there is no run.
So the early exits of the loop, on the number of cells tested, lose nothing.

`Allocated` is what an allocation of either cache returns, with the slot that the search
picked (`findSlot_allocated`, `swaFindSlot_allocated`).
-/

namespace PxqLlama.Kv

open NextFit (Run First)

/-- The cell is free for the search. -/
def KvCache.Free (c : KvCache) (i : Nat) : Prop := (c.cells i).pos < 0

instance (c : KvCache) (i : Nat) : Decidable (c.Free i) := inferInstanceAs (Decidable (_ < _))

/-- A run of `n` free cells from `h` on. -/
def KvCache.FreeRun (c : KvCache) (n h : Nat) : Prop := Run c.Free c.size n h

/-- The slot that a search from the head picks. -/
def KvCache.NextSlot (c : KvCache) (n h : Nat) : Prop := NextFit.Picks c.Free c.size n c.head h

theorem KvCache.NextSlot.freeRun {c : KvCache} {n h : Nat} (hslot : c.NextSlot n h) :
    c.FreeRun n h :=
  NextFit.Picks.run hslot

theorem firstUsed_eq_some {cells : Nat → KvCell} {head n i : Nat}
    (h : firstUsed cells head n = some i) : i < n ∧ 0 ≤ (cells (head + i)).pos := by
  rw [firstUsed] at h
  exact ⟨List.mem_range.mp (List.mem_of_find?_eq_some h), by simpa using List.find?_some h⟩

section
variable {wrapGivesUp : Bool} {size n : Nat} {cells : Nat → KvCell}

/-- The loop of the search has looked at the cells from `start` on, and no run of free cells
starts before `head`. -/
inductive Scanned (free : Nat → Prop) (size n start head tested : Nat) : Prop
  /-- The first pass. -/
  | pass (hge : start ≤ head) (hle : head ≤ size) (htested : tested = head - start)
      (hnone : ∀ k, start ≤ k → k < head → ¬ Run free size n k)
  /-- The second pass, after the wrap. -/
  | wrapped (hle : start ≤ size) (htested : tested = (size - start) + head)
      (hlater : ∀ k, start ≤ k → ¬ Run free size n k)
      (hnone : ∀ k, k < head → ¬ Run free size n k)
  /-- Every cell was tested. -/
  | all (hhead : head = 0) (htested : size ≤ tested) (hnone : ∀ k, ¬ Run free size n k)

/-- The outcome of a search. -/
def Searched (free : Nat → Prop) (size n start : Nat) (r : Bool × Nat) : Prop :=
  (r.1 = true ∧ NextFit.Picks free size n start r.2) ∨
    (r.1 = false ∧ ∀ k, ¬ Run free size n k)

/-- What the search returns, whatever has been scanned: a free run, or proof of none. -/
theorem slotLoop_searched (hn : n ≤ size) {start fuel head tested : Nat} {r : Bool × Nat}
    (hscan : Scanned (fun i => (cells i).pos < 0) size n start head tested)
    (hr : slotLoop wrapGivesUp size cells n fuel head tested = some r) :
    Searched (fun i => (cells i).pos < 0) size n start r := by
  induction fuel generalizing head tested with
  | zero => cases hr
  | succ fuel ih =>
    rw [slotLoop] at hr
    by_cases hwrap : size < head + n
    · -- The slot would reach over the end: no run starts at `head` or later.
      have hend : ∀ k, head ≤ k → ¬ Run (fun i => (cells i).pos < 0) size n k :=
        fun k hk => NextFit.not_run_of_size_lt hwrap hk
      simp only [hwrap, if_true] at hr
      cases hscan with
      | pass hge hle htested hnone =>
        have hlater : ∀ k, start ≤ k → ¬ Run (fun i => (cells i).pos < 0) size n k := by
          intro k hk
          by_cases hkh : k < head
          · exact hnone k hk hkh
          · exact hend k (by omega)
        split at hr
        · rename_i hup
          cases hr
          exact Or.inr ⟨rfl, fun k => hlater k (by omega)⟩
        · exact ih (.wrapped (by omega) (by omega) hlater
            fun k hk => absurd hk (Nat.not_lt_zero k)) hr
      | wrapped hle htested hlater hnone =>
        have hall : ∀ k, ¬ Run (fun i => (cells i).pos < 0) size n k := by
          intro k
          by_cases hkh : k < head
          · exact hnone k hkh
          · exact hend k (by omega)
        split at hr
        · cases hr
          exact Or.inr ⟨rfl, hall⟩
        · exact ih (.all rfl (by omega) hall) hr
      | all hhead htested hnone => omega
    · simp only [hwrap, if_false] at hr
      cases hfirst : firstUsed cells head n with
      | none =>
        have hrun : Run (fun i => (cells i).pos < 0) size n head :=
          ⟨by omega, firstUsed_eq_none.mp hfirst⟩
        rw [hfirst] at hr
        cases hr
        left
        refine ⟨rfl, ?_⟩
        cases hscan with
        | pass hge hle htested hnone => exact Or.inl ⟨hge, hrun, hnone⟩
        | wrapped hle htested hlater hnone =>
          exact Or.inr ⟨hlater, Nat.zero_le _, hrun, fun k _ hk => hnone k hk⟩
        | all hhead htested hnone => exact absurd hrun (hnone head)
      | some i =>
        obtain ⟨hi, hused⟩ := firstUsed_eq_some hfirst
        -- The used cell blocks every slot that starts up to it.
        have hblock : ∀ k, head ≤ k → k < head + (i + 1) →
            ¬ Run (fun i => (cells i).pos < 0) size n k := fun k hk hki =>
          NextFit.not_run_of_blocked (by omega) hi hk (by omega)
        simp only [hfirst] at hr
        have hstep : (size ≤ tested + (i + 1) ∧
              ∀ k, ¬ Run (fun i => (cells i).pos < 0) size n k) ∨
            (¬ size ≤ tested + (i + 1) ∧
              Scanned (fun i => (cells i).pos < 0) size n start (head + (i + 1))
                (tested + (i + 1))) := by
          cases hscan with
          | pass hge hle htested hnone =>
            have hnone' : ∀ k, start ≤ k → k < head + (i + 1) →
                ¬ Run (fun i => (cells i).pos < 0) size n k := by
              intro k hk hki
              by_cases hkh : k < head
              · exact hnone k hk hkh
              · exact hblock k (by omega) hki
            by_cases hall : size ≤ tested + (i + 1)
            · -- the scan began at zero and has reached the end
              left
              refine ⟨hall, fun k => ?_⟩
              by_cases hki : k < head + (i + 1)
              · exact hnone' k (by omega) hki
              · exact NextFit.not_run_of_size_lt (h := k) (by omega) (Nat.le_refl k)
            · exact Or.inr ⟨hall, .pass (by omega) (by omega) (by omega) hnone'⟩
          | wrapped hle htested hlater hnone =>
            have hnone' : ∀ k, k < head + (i + 1) →
                ¬ Run (fun i => (cells i).pos < 0) size n k := by
              intro k hki
              by_cases hkh : k < head
              · exact hnone k hkh
              · exact hblock k (by omega) hki
            by_cases hall : size ≤ tested + (i + 1)
            · left
              refine ⟨hall, fun k => ?_⟩
              by_cases hki : k < head + (i + 1)
              · exact hnone' k hki
              · exact hlater k (by omega)
            · exact Or.inr ⟨hall, .wrapped (by omega) (by omega) hlater hnone'⟩
          | all hhead htested hnone => exact Or.inl ⟨by omega, hnone⟩
        rcases hstep with ⟨hall, hnone⟩ | ⟨hmore, hscan'⟩
        · rw [if_pos hall] at hr
          cases hr
          exact Or.inr ⟨rfl, hnone⟩
        · rw [if_neg hmore] at hr
          exact ih hscan' hr

/-- The head stays in the cache, one past the last cell at most. -/
theorem slotLoop_head_le {fuel head tested : Nat} {r : Bool × Nat} (hhead : head ≤ size)
    (hr : slotLoop wrapGivesUp size cells n fuel head tested = some r) : r.2 ≤ size := by
  induction fuel generalizing head tested with
  | zero => cases hr
  | succ fuel ih =>
    rw [slotLoop] at hr
    split at hr
    · simp only at hr
      split at hr
      · cases hr
        exact Nat.zero_le _
      · exact ih (Nat.zero_le _) hr
    · rename_i hwrap
      split at hr
      · cases hr
        exact hhead
      · rename_i i hfirst
        have hi := (firstUsed_eq_some hfirst).1
        simp only at hr
        split at hr
        · cases hr
          show head + (i + 1) ≤ size
          omega
        · exact ih (by omega) hr

end

/-! ### One allocation -/

section
variable {wrapGivesUp : Bool} {c : KvCache} {n : Nat}

theorem searchSlot_searched (hn : n ≤ c.size) (hhead : c.head ≤ c.size) :
    Searched c.Free c.size n c.head (searchSlot wrapGivesUp c n) := by
  apply slotLoop_searched hn _ (searchSlot_eq wrapGivesUp hn)
  apply Scanned.pass (Nat.le_refl _) hhead (Nat.sub_self _).symm
  intro k hk hlt
  omega

theorem searchSlot_head_le (hn : n ≤ c.size) (hhead : c.head ≤ c.size) :
    (searchSlot wrapGivesUp c n).2 ≤ c.size :=
  slotLoop_head_le hhead (searchSlot_eq wrapGivesUp hn)

end

/-- The cache with the ubatch in the cells from `h` on. -/
def KvCache.place (c : KvCache) (h : Nat) (b : UBatch) : KvCache :=
  { c with head := h, cells := placeTokens c.cells h b, used := addU32 c.used b.length }

/-- What an allocation returns. -/
inductive Allocated (c : KvCache) (b : UBatch) : Bool × KvCache → Prop
  | found {h : Nat} (hslot : c.NextSlot b.length h) : Allocated c b (true, c.place h b)
  | full {h : Nat} (hfull : ∀ k, ¬ c.FreeRun b.length k) (hle : h ≤ c.size) :
    Allocated c b (false, { c with head := h })

variable {r : Bool × KvCache}

section
variable {c : KvCache} {b : UBatch}

theorem Allocated.of_lt (hsize : c.size < b.length) (hhead : c.head ≤ c.size)
    (hr : r = (false, c)) : Allocated c b r := by
  rw [hr]
  exact .full (fun k hrun => absurd hrun.1 (by omega)) hhead

theorem Allocated.of_search {found : Bool × Nat}
    (hsearch : Searched c.Free c.size b.length c.head found) (hle : found.2 ≤ c.size)
    (hr : r = if found.1 then (true, c.place found.2 b) else (false, { c with head := found.2 })) :
    Allocated c b r := by
  rw [hr]
  rcases hsearch with ⟨hyes, hslot⟩ | ⟨hno, hfull⟩
  · rw [if_pos hyes]
    exact .found hslot
  · rw [if_neg (by simp [hno])]
    exact .full hfull hle

theorem findSlot_allocated (hrec : c.recurrent = false) (hhead : c.head ≤ c.size) :
    Allocated c b (llamaKvCacheFindSlot c b) := by
  rw [llamaKvCacheFindSlot, if_neg (by simp [hrec])]
  split
  · rename_i hsize
    exact .of_lt hsize hhead rfl
  · rename_i hsize
    have hn : b.length ≤ c.size := Nat.le_of_not_lt hsize
    exact .of_search (searchSlot_searched hn hhead) (searchSlot_head_le hn hhead) rfl

theorem swaFindSlot_allocated (hhead : c.head ≤ c.size) :
    Allocated c b (llamaKvSwaFindSlot c b) := by
  rw [llamaKvSwaFindSlot]
  split
  · rename_i hsize
    exact .of_lt hsize hhead rfl
  · rename_i hsize
    have hn : b.length ≤ c.size := Nat.le_of_not_lt hsize
    exact .of_search (searchSlot_searched hn hhead) (searchSlot_head_le hn hhead) rfl

theorem Allocated.shape (hr : Allocated c b r) :
    r.2.size = c.size ∧ r.2.recurrent = c.recurrent ∧ r.2.qnextSlots = c.qnextSlots ∧
      r.2.head ≤ c.size := by
  cases hr with
  | found hslot => exact ⟨rfl, rfl, rfl, Nat.le_of_add_right_le hslot.freeRun.1⟩
  | full hfull hle => exact ⟨rfl, rfl, rfl, hle⟩

/-- An allocation succeeds exactly when there is a run of free cells. -/
theorem Allocated.found_iff (hr : Allocated c b r) : r.1 = true ↔ ∃ h, c.FreeRun b.length h := by
  cases hr with
  | found hslot => exact iff_of_true rfl ⟨_, hslot.freeRun⟩
  | full hfull hle =>
    refine iff_of_false Bool.false_ne_true ?_
    rintro ⟨k, hrun⟩
    exact hfull k hrun

end

end PxqLlama.Kv

/-!
## The contract of an allocation

`SlotSpec` is what a caller of either allocator gets to know from its result. The search
succeeds exactly when there are enough free cells in a row anywhere in the cache. A batch goes
to free cells, token by token, and no other cell changes. A search that fails changes no cell.

The sums of the two searches are `uint32_t` in the source. None of them wraps while the cache
has fewer than `2^31` cells.
-/

namespace PxqLlama.Kv

/-- What the result of an allocation says about the cells. -/
structure SlotSpec (c : KvCache) (b : UBatch) (r : Bool × KvCache) : Prop where
  found_iff : r.1 = true ↔
    ∃ k, k + b.length ≤ c.size ∧ ∀ i < b.length, (c.cells (k + i)).pos < 0
  fits : r.1 = true → r.2.head + b.length ≤ c.size
  placed : r.1 = true → ∀ (i : Nat) (hi : i < b.length),
    (c.cells (r.2.head + i)).pos < 0 ∧
      r.2.cells (r.2.head + i) = { c.cells (r.2.head + i) with
        pos := (b[i]).pos
        seqId := (c.cells (r.2.head + i)).seqId ∪ (b[i]).seqId.toFinset }
  untouched : r.1 = true → ∀ i, i < r.2.head ∨ r.2.head + b.length ≤ i → r.2.cells i = c.cells i
  failed : r.1 = false → r.2.cells = c.cells

/-- The allocator meets the specification of the slot search. -/
theorem Allocated.slotSpec {c : KvCache} {b : UBatch} (hr : Allocated c b r) : SlotSpec c b r := by
  have hfound := hr.found_iff
  cases hr with
  | @found h hslot =>
    obtain ⟨hle, hfree⟩ := hslot.freeRun
    refine ⟨hfound, fun _ => hle, ?_, ?_, ?_⟩
    · intro _ i hi
      exact ⟨hfree i hi, placeTokens_mem hi⟩
    · intro _ i hi
      exact placeTokens_of_not_mem hi
    · intro hfalse
      cases hfalse
  | full hfull hle =>
    refine ⟨hfound, ?_, ?_, ?_, ?_⟩
    · intro htrue
      cases htrue
    · intro htrue
      cases htrue
    · intro htrue
      cases htrue
    · intro _
      rfl

/-- **The search for a slot is sound and complete in both caches.** From every head in the
cache the loop ends, and the result of either allocator is as `SlotSpec` says. -/
theorem slotSearch_sound_and_complete (c : KvCache) (b : UBatch) (hhead : c.head ≤ c.size) :
    (b.length ≤ c.size → ∀ wrapGivesUp, ∃ r, slotLoop wrapGivesUp c.size c.cells b.length
      (2 * c.size + 2) c.head 0 = some r) ∧
    (c.recurrent = false → SlotSpec c b (llamaKvCacheFindSlot c b)) ∧
    SlotSpec c b (llamaKvSwaFindSlot c b) := by
  refine ⟨fun hn wrapGivesUp => ⟨_, searchSlot_eq wrapGivesUp hn⟩, ?_, ?_⟩
  · intro hrec
    exact (findSlot_allocated hrec hhead).slotSpec
  · exact (swaFindSlot_allocated hhead).slotSpec

/-- A cache of four cells with the head behind the last one, where only a run at the start is
free. -/
theorem slotSearch_sound_and_complete_wrapped :
    ∃ c : KvCache, c.head = 4 ∧ c.size = 4 ∧
      SlotSpec c [⟨7, [0]⟩, ⟨8, [0]⟩] (llamaKvCacheFindSlot c [⟨7, [0]⟩, ⟨8, [0]⟩]) ∧
      (llamaKvCacheFindSlot c [⟨7, [0]⟩, ⟨8, [0]⟩]).1 = true ∧
      (llamaKvCacheFindSlot c [⟨7, [0]⟩, ⟨8, [0]⟩]).2.head = 0 := by
  let c : KvCache := {
    head := 4
    size := 4
    used := 2
    cells := fun i => if i = 2 ∨ i = 3 then { pos := i, seqId := {1} } else {} }
  obtain ⟨-, hspec, -⟩ := slotSearch_sound_and_complete c [⟨7, [0]⟩, ⟨8, [0]⟩] (Nat.le_refl 4)
  exact ⟨c, rfl, rfl, hspec rfl, by decide, by decide⟩

end PxqLlama.Kv
