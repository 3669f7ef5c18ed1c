import PxqLlama.Proofs.Kv.Accounting
import PxqLlama.Proofs.Kv.SwaEvict

/-!
# `Proofs.Kv.Placement`: all or nothing

`placeUbatch` places an ubatch in the sliding cache first and in `kv_self` then, and undoes the
first when the second refuses. `AllOrNothing` says that the caches agree afterwards.

The undo looks at the positions: `llama_kv_swa_release_slot` takes out the cells of the slot
that have one. So the tokens at a position below zero stay behind, and `used` counts them
although their cells are free. `placeUbatch_all_or_nothing_iff` says when that happens: the
sliding cache takes an ubatch with such a token, and `kv_self` does not.
-/

namespace PxqLlama.Kv

open Tally
open NextFit (Run)

/-! ### What a placement is about -/

/-- The count of the used cells is exact, and the free cells hold no sequence. -/
structure Counted (c : KvCache) : Prop where
  used : c.used = c.numUsed
  free : ∀ i < c.size, (c.cells i).pos < 0 → (c.cells i).seqId = ∅

/-- The cells in use are the same, and the others are free and hold no sequence. -/
structure SameUsed (c c' : KvCache) : Prop where
  size : c'.size = c.size
  held : ∀ i < c.size, 0 ≤ (c.cells i).pos → c'.cells i = c.cells i
  free : ∀ i < c.size, (c.cells i).pos < 0 → (c'.cells i).pos < 0 ∧ (c'.cells i).seqId = ∅

/-- The tokens are in the cells of a slot. -/
def Present (c : KvCache) (b : UBatch) : Prop :=
  ∃ h, h + b.length ≤ c.size ∧ ∀ k, (hk : k < b.length) →
    (c.cells (h + k)).pos = b[k].pos ∧ (c.cells (h + k)).seqId = b[k].seqId.toFinset

/-- The evictions with the given guards, one after the other. -/
def evictAll (c : KvCache) (nSwa : Nat) (b : UBatch) (guards : List Nat) : KvCache :=
  guards.foldl (fun c guard => llamaKvSwaEvict c nSwa b guard) c

/-- The placement returns 0 with the tokens in both caches, or 1 with the tokens in neither: the
cells in use of `kv_self` stay, those of the sliding cache but for evictions, and the counts are
exact. -/
def AllOrNothing (ctx : KvContext) (b : UBatch) (r : Nat × KvContext) : Prop :=
  (r.1 = 0 ∧ Present r.2.kvSelf b ∧ Present r.2.kvSwa b) ∨
    (r.1 = 1 ∧ SameUsed ctx.kvSelf r.2.kvSelf ∧
      (∃ guards, (guards = [ctx.swaKvGuard] ∨ guards = [ctx.swaKvGuard, 0]) ∧
        SameUsed (evictAll ctx.kvSwa ctx.nSwa b guards) r.2.kvSwa) ∧
      r.2.kvSelf.used = r.2.kvSelf.numUsed ∧ r.2.kvSwa.used = r.2.kvSwa.numUsed)

/-- Two caches before a placement: the sliding one is active, the counts are exact, the free
cells hold no sequence, and the heads lie in the caches. -/
structure PlacementState (ctx : KvContext) : Prop where
  active : ctx.swaKvActive = true
  recurrent : ctx.kvSelf.recurrent = false
  self : Counted ctx.kvSelf
  swa : Counted ctx.kvSwa
  selfHead : ctx.kvSelf.head ≤ ctx.kvSelf.size
  swaHead : ctx.kvSwa.head ≤ ctx.kvSwa.size
  selfSize : ctx.kvSelf.size < 2 ^ 32
  swaSize : ctx.kvSwa.size < 2 ^ 32

/-- The sliding cache has a slot for the ubatch, after the evictions. -/
def SwaTakes (ctx : KvContext) (b : UBatch) : Prop :=
  ∃ h, (evictAll ctx.kvSwa ctx.nSwa b [ctx.swaKvGuard, 0]).FreeRun b.length h

/-- `kv_self` has a slot for the ubatch. -/
def SelfTakes (ctx : KvContext) (b : UBatch) : Prop :=
  ∃ h, ctx.kvSelf.FreeRun b.length h

/-! ### Counts -/

variable {h : Nat}

section
variable {c : KvCache} {b : UBatch}

theorem Counted.sameUsed (hc : Counted c) : SameUsed c c :=
  ⟨rfl, fun _ _ _ => rfl, fun i hi hpos => ⟨hpos, hc.free i hi hpos⟩⟩

/-- The cells of a free slot are not counted. -/
theorem numUsed_add_le {n : Nat} (hrun : c.FreeRun n h) : c.numUsed + n ≤ c.size := by
  obtain ⟨hfits, hfree⟩ := hrun
  have hslot : tally KvCell.HasPos c.cells h (h + n) = 0 := by
    apply tally_eq_zero
    intro i hi hlt
    have := hfree (i - h) (by omega)
    rw [show h + (i - h) = i by omega] at this
    exact Int.not_le.mpr this
  have hbefore : tally KvCell.HasPos c.cells 0 h ≤ h - 0 := tally_le
  have hafter : tally KvCell.HasPos c.cells (h + n) c.size ≤ c.size - (h + n) := tally_le
  have hsum₁ := tally_add (p := KvCell.HasPos) (f := c.cells) (Nat.zero_le h)
    (by omega : h ≤ c.size)
  have hsum₂ := tally_add (p := KvCell.HasPos) (f := c.cells) (Nat.le_add_right h n) hfits
  rw [KvCache.numUsed]
  omega

theorem length_eq_countP_pos (b : UBatch) :
    b.length = b.countP (0 ≤ ·.pos) + b.countP (·.pos < 0) := by
  rw [List.length_eq_countP_add_countP (fun t : Token => decide (0 ≤ t.pos))]
  congr 1
  apply List.countP_congr
  intro t _
  simp

theorem countP_neg_eq_zero : b.countP (·.pos < 0) = 0 ↔ ∀ t ∈ b, 0 ≤ t.pos := by
  simp [List.countP_eq_zero]

/-- A placement counts all its tokens, those without a position included. -/
theorem used_place (hc : Counted c) (hsize : c.size < 2 ^ 32) (hrun : c.FreeRun b.length h) :
    (c.place h b).used = (c.place h b).numUsed + b.countP (·.pos < 0) := by
  have hle := numUsed_add_le hrun
  have hlength := length_eq_countP_pos b
  show addU32 c.used b.length = _
  rw [numUsed_place hrun, hc.used, addU32_of_lt (by omega)]
  omega

theorem used_place_iff (hc : Counted c) (hsize : c.size < 2 ^ 32) (hrun : c.FreeRun b.length h) :
    (c.place h b).used = (c.place h b).numUsed ↔ ∀ t ∈ b, 0 ≤ t.pos := by
  rw [used_place hc hsize hrun, ← countP_neg_eq_zero]
  omega

theorem present_place (hc : Counted c) (hrun : c.FreeRun b.length h) : Present (c.place h b) b := by
  obtain ⟨hfits, hfree⟩ := hrun
  refine ⟨h, hfits, fun k hk => ?_⟩
  show (placeTokens c.cells h b (h + k)).pos = _ ∧ (placeTokens c.cells h b (h + k)).seqId = _
  rw [placeTokens_mem hk, hc.free (h + k) (by omega) (hfree k hk), Finset.empty_union]
  exact ⟨rfl, rfl⟩

/-! ### The undo -/

/-- The cache with the slot from `h` on released after a placement; `n` is the field. -/
def KvCache.undo (c : KvCache) (h : Nat) (b : UBatch) (n : Nat) : KvCache :=
  llamaKvSwaReleaseSlot { c.place h b with n := n } h b.length

theorem releaseCell_counts (i : Nat) (cell : KvCell) :
    StepCounts cell (releaseCell i cell) := by
  rw [releaseCell]
  split
  · rename_i hpos
    exact ⟨by simp, by simp [hpos]⟩
  · exact Iff.rfl

/-- The tokens without a position stay in the count. -/
theorem used_undo (hc : Counted c) (hsize : c.size < 2 ^ 32) (hrun : c.FreeRun b.length h)
    (n : Nat) : (c.undo h b n).used = (c.undo h b n).numUsed + b.countP (·.pos < 0) := by
  have hle := numUsed_add_le hrun
  have hnodup : (((List.range b.length).map fun i => h + i).filter fun i => i < c.size).Nodup :=
    (List.nodup_range.map fun i j hij => by omega).filter _
  have hlt : (c.place h b).used < 2 ^ 32 := Nat.mod_lt _ (Nat.two_pow_pos 32)
  exact foldl_sweepStep_used (w := ⟨(c.place h b).cells, (c.place h b).used, c.size⟩) hnodup
    (fun i hi => of_decide_eq_true (List.mem_filter.mp hi).2)
    (fun i _ => releaseCell_counts i _) (used_place hc hsize hrun) hlt

theorem used_undo_iff (hc : Counted c) (hsize : c.size < 2 ^ 32) (hrun : c.FreeRun b.length h)
    (n : Nat) : (c.undo h b n).used = (c.undo h b n).numUsed ↔ ∀ t ∈ b, 0 ≤ t.pos := by
  rw [used_undo hc hsize hrun, ← countP_neg_eq_zero]
  omega

/-- Where all tokens have a position the undo takes out what the placement put in. -/
theorem sameUsed_undo (hc : Counted c) (hrun : c.FreeRun b.length h) (hb : ∀ t ∈ b, 0 ≤ t.pos)
    (n : Nat) : SameUsed c (c.undo h b n) := by
  obtain ⟨hfits, hfree⟩ := hrun
  have hcell : ∀ i, (c.undo h b n).cells i
      = if h ≤ i ∧ i < h + b.length ∧ i < c.size
        then (releaseCell i (placeTokens c.cells h b i)).cell else placeTokens c.cells h b i :=
    releaseSlot_cells _ h b.length
  have houtside : ∀ i, ¬ (h ≤ i ∧ i < h + b.length) → (c.undo h b n).cells i = c.cells i := by
    intro i hi
    rw [hcell, if_neg (by omega), placeTokens_of_not_mem (by omega)]
  refine ⟨rfl, fun i hi hpos => ?_, fun i hi hpos => ?_⟩
  · -- a cell in use is not in the slot
    apply houtside
    rintro ⟨hle, hlt⟩
    have hneg : (c.cells (h + (i - h))).pos < 0 := hfree (i - h) (by omega)
    rw [show h + (i - h) = i by omega] at hneg
    omega
  · by_cases hin : h ≤ i ∧ i < h + b.length
    · rw [hcell, if_pos ⟨hin.1, hin.2, hi⟩]
      obtain ⟨k, rfl⟩ : ∃ k, i = h + k := ⟨i - h, by omega⟩
      have hk : k < b.length := by omega
      rw [placeTokens_mem hk, releaseCell, if_pos (hb _ (List.getElem_mem hk))]
      exact ⟨by simp [CellStep.cell], rfl⟩
    · rw [houtside i hin]
      exact ⟨hpos, hc.free i hi hpos⟩

end

/-! ### Evictions -/

section
variable {c : KvCache} {nSwa : Nat} {b : UBatch}

/-- An eviction keeps the count, and frees a cell altogether. -/
theorem Counted.evict (hc : Counted c) (hsize : c.size < 2 ^ 32) (guard : Nat) :
    Counted (llamaKvSwaEvict c nSwa b guard) where
  used := by
    have hle := numUsed_le c
    have hlt : c.used < 2 ^ 32 := by
      rw [hc.used]
      omega
    refine foldl_sweepStep_used (d := 0) (w := ⟨c.cells, c.used, c.size⟩) List.nodup_range
      (fun _ hi => List.mem_range.mp hi) (fun i _ => ?_) hc.used hlt
    rw [evictCell]
    split
    · exact Iff.rfl
    · rename_i hheld
      split
      · exact Iff.rfl
      · refine ⟨by simp, iff_of_true rfl ?_⟩
        exact Int.not_lt.mp fun hneg => hheld (Or.inl hneg)
  free := by
    intro i hi hpos
    have hi' : i < c.size := hi
    rcases evict_cell nSwa b guard hi' with hkept | ⟨-, hfree⟩
    · rw [hkept] at hpos ⊢
      exact hc.free i hi hpos
    · rw [hfree]
      rfl

/-- A free cell stays free in an eviction. -/
theorem evict_free (guard : Nat) {n : Nat} (hrun : c.FreeRun n h) :
    (llamaKvSwaEvict c nSwa b guard).FreeRun n h := by
  refine Run.mono hrun fun i _ hi => ?_
  show ((llamaKvSwaEvict c nSwa b guard).cells i).pos < 0
  have hi' : (c.cells i).pos < 0 := hi
  rw [evict_cells]
  split
  · rw [evictCell, if_pos (Or.inl hi')]
    exact hi'
  · exact hi'

theorem evict_head_le (hhead : c.head ≤ c.size) (guard : Nat) :
    (llamaKvSwaEvict c nSwa b guard).head ≤ (llamaKvSwaEvict c nSwa b guard).size :=
  sweep_head_le hhead

/-- The sliding cache finds a slot behind one eviction or two, or it finds none behind two. -/
theorem swaPlace_cases (nSwa : Nat) (b : UBatch) (hhead : c.head ≤ c.size) (guard : Nat) :
    (∃ guards h, (guards = [guard] ∨ guards = [guard, 0]) ∧
        (evictAll c nSwa b guards).FreeRun b.length h ∧
        swaPlace c nSwa guard b = (true, (evictAll c nSwa b guards).place h b)) ∨
      ((∀ k, ¬ (evictAll c nSwa b [guard, 0]).FreeRun b.length k) ∧
        ∃ h, swaPlace c nSwa guard b
          = (false, { evictAll c nSwa b [guard, 0] with head := h })) := by
  have hfirst : Allocated (llamaKvSwaEvict c nSwa b guard) b (swaTry c nSwa b guard) :=
    swaFindSlot_allocated (evict_head_le hhead guard)
  rw [swaPlace]
  generalize hr : swaTry c nSwa b guard = r at hfirst ⊢
  cases hfirst with
  | found hslot => exact Or.inl ⟨[guard], _, Or.inl rfl, hslot.freeRun, rfl⟩
  | @full h₁ hfull hle =>
    -- once more, without the guard
    generalize hc₁ : { llamaKvSwaEvict c nSwa b guard with head := h₁ } = c₁
    have hhead₁ : c₁.head ≤ c₁.size := by
      rw [← hc₁]
      exact hle
    have hevict : ∀ h', { llamaKvSwaEvict c₁ nSwa b 0 with head := h' }
        = { evictAll c nSwa b [guard, 0] with head := h' } := by
      intro h'
      rw [← hc₁]
      rfl
    have hsecond : Allocated (llamaKvSwaEvict c₁ nSwa b 0) b (swaTry c₁ nSwa b 0) :=
      swaFindSlot_allocated (evict_head_le hhead₁ 0)
    have hfree : ∀ k, (llamaKvSwaEvict c₁ nSwa b 0).FreeRun b.length k
        ↔ (evictAll c nSwa b [guard, 0]).FreeRun b.length k := by
      intro k
      rw [← hc₁]
      exact Iff.rfl
    simp only [Bool.false_eq_true, if_false]
    generalize hr₂ : swaTry c₁ nSwa b 0 = r₂ at hsecond ⊢
    cases hsecond with
    | @found h₂ hslot =>
      refine Or.inl ⟨[guard, 0], h₂, Or.inr rfl, (hfree h₂).mp hslot.freeRun, ?_⟩
      rw [← hc₁]
      rfl
    | @full h₂ hfull₂ hle₂ =>
      exact Or.inr ⟨fun k hk => hfull₂ k ((hfree k).mpr hk), h₂, by rw [hevict]⟩

end

/-- `kv_self` finds a slot, or it has none. -/
theorem selfPlace_cases {c : KvCache} (hrec : c.recurrent = false) (hhead : c.head ≤ c.size)
    (b : UBatch) :
    (∃ h, c.FreeRun b.length h ∧
        llamaKvCacheFindSlot (rewindHead c b.length) b = (true, c.place h b)) ∨
      ((∀ k, ¬ c.FreeRun b.length k) ∧
        ∃ h, llamaKvCacheFindSlot (rewindHead c b.length) b = (false, { c with head := h })) := by
  obtain ⟨h₀, hle₀, hrewind⟩ : ∃ h₀ ≤ c.size, rewindHead c b.length = { c with head := h₀ } := by
    rw [rewindHead]
    split
    · exact ⟨0, Nat.zero_le _, rfl⟩
    · exact ⟨c.head, hhead, rfl⟩
  rw [hrewind]
  have hslot : Allocated { c with head := h₀ } b (llamaKvCacheFindSlot { c with head := h₀ } b) :=
    findSlot_allocated hrec hle₀
  generalize llamaKvCacheFindSlot { c with head := h₀ } b = r at hslot ⊢
  cases hslot with
  | found hslot => exact Or.inl ⟨_, hslot.freeRun, rfl⟩
  | full hfull hle => exact Or.inr ⟨hfull, _, rfl⟩

/-! ### The placement of an ubatch -/

section
variable {ctx : KvContext} (hctx : PlacementState ctx) (b : UBatch)
include hctx

/-- The three ends of a placement: the sliding cache refuses, `kv_self` refuses and the slot of
the sliding cache is released, or both take the ubatch. -/
theorem placeUbatch_cases :
    (¬ SwaTakes ctx b ∧ ∃ h h', placeUbatch ctx b = (1, { ctx with
        kvSelf := { ctx.kvSelf with head := h }
        kvSwa := { evictAll ctx.kvSwa ctx.nSwa b [ctx.swaKvGuard, 0] with head := h' } })) ∨
      ∃ guards h, (guards = [ctx.swaKvGuard] ∨ guards = [ctx.swaKvGuard, 0]) ∧
        (evictAll ctx.kvSwa ctx.nSwa b guards).FreeRun b.length h ∧
        ((¬ SelfTakes ctx b ∧ ∃ h' n, placeUbatch ctx b = (1, { ctx with
            kvSelf := { ctx.kvSelf with head := h' }
            kvSwa := (evictAll ctx.kvSwa ctx.nSwa b guards).undo h b n })) ∨
          ∃ h' n n', ctx.kvSelf.FreeRun b.length h' ∧ placeUbatch ctx b = (0, { ctx with
            kvSelf := { ctx.kvSelf.place h' b with n := n }
            kvSwa := { (evictAll ctx.kvSwa ctx.nSwa b guards).place h b with n := n' } })) := by
  obtain ⟨h₀, hrewind⟩ : ∃ h₀, rewindHead ctx.kvSelf b.length = { ctx.kvSelf with head := h₀ } := by
    rw [rewindHead]
    split <;> exact ⟨_, rfl⟩
  simp only [placeUbatch, swaUndone, swaInputs, placeSwa, hctx.active, if_true]
  rcases swaPlace_cases ctx.nSwa b hctx.swaHead ctx.swaKvGuard with
    ⟨guards, h, hguards, hrun, hswa⟩ | ⟨hnone, h, hswa⟩
  · right
    refine ⟨guards, h, hguards, hrun, ?_⟩
    simp only [hswa, Bool.true_eq_false, if_false]
    rcases selfPlace_cases hctx.recurrent hctx.selfHead b with
      ⟨h', hrun', hself⟩ | ⟨hnone, h', hself⟩
    · right
      simp only [hself, Bool.true_eq_false, if_false, setSelfN]
      rw [if_neg (by simp [KvCache.place, hctx.recurrent])]
      exact ⟨h', _, _, hrun', rfl⟩
    · left
      simp only [hself, if_true]
      refine ⟨?_, h', _, rfl⟩
      rintro ⟨k, hk⟩
      exact hnone k hk
  · left
    simp only [hswa, if_true, hrewind]
    refine ⟨?_, _, _, rfl⟩
    rintro ⟨k, hk⟩
    exact hnone k hk

omit hctx in
theorem swaTakes_of_freeRun {guards : List Nat}
    (hguards : guards = [ctx.swaKvGuard] ∨ guards = [ctx.swaKvGuard, 0])
    (hrun : (evictAll ctx.kvSwa ctx.nSwa b guards).FreeRun b.length h) : SwaTakes ctx b := by
  rcases hguards with rfl | rfl
  · exact ⟨h, evict_free 0 hrun⟩
  · exact ⟨h, hrun⟩

theorem counted_evictAll (guards : List Nat) :
    Counted (evictAll ctx.kvSwa ctx.nSwa b guards) ∧
      (evictAll ctx.kvSwa ctx.nSwa b guards).size = ctx.kvSwa.size := by
  have hstep : ∀ c : KvCache, Counted c ∧ c.size = ctx.kvSwa.size →
      Counted (evictAll c ctx.nSwa b guards) ∧
        (evictAll c ctx.nSwa b guards).size = ctx.kvSwa.size := by
    induction guards with
    | nil => exact fun c hc => hc
    | cons guard guards ih =>
      rintro c ⟨hc, hsize⟩
      exact ih _ ⟨hc.evict (by rw [hsize]; exact hctx.swaSize) guard, hsize⟩
  exact hstep _ ⟨hctx.swa, rfl⟩

/-- The placement of an ubatch is all or nothing exactly when each token has a position, or the
sliding cache refuses it, or `kv_self` takes it. The counts are exact besides, on success too,
exactly when each token has a position or the sliding cache refuses. -/
theorem placeUbatch_all_or_nothing_iff :
    (AllOrNothing ctx b (placeUbatch ctx b) ↔
        (∀ t ∈ b, 0 ≤ t.pos) ∨ ¬ SwaTakes ctx b ∨ SelfTakes ctx b) ∧
      (AllOrNothing ctx b (placeUbatch ctx b) ∧
          (placeUbatch ctx b).2.kvSelf.used = (placeUbatch ctx b).2.kvSelf.numUsed ∧
          (placeUbatch ctx b).2.kvSwa.used = (placeUbatch ctx b).2.kvSwa.numUsed ↔
        (∀ t ∈ b, 0 ≤ t.pos) ∨ ¬ SwaTakes ctx b) := by
  have hself : SameUsed ctx.kvSelf ctx.kvSelf := hctx.self.sameUsed
  rcases placeUbatch_cases hctx b with ⟨hno, h, h', hplace⟩ |
    ⟨guards, h, hguards, hrun, ⟨hno, h', n, hplace⟩ | ⟨h', n, n', hrun', hplace⟩⟩
  · -- the sliding cache refuses: evictions, and nothing else
    rw [hplace]
    obtain ⟨hcounted, -⟩ := counted_evictAll hctx b [ctx.swaKvGuard, 0]
    have hall : AllOrNothing ctx b (1, { ctx with
        kvSelf := { ctx.kvSelf with head := h }
        kvSwa := { evictAll ctx.kvSwa ctx.nSwa b [ctx.swaKvGuard, 0] with head := h' } }) :=
      Or.inr ⟨rfl, ⟨rfl, hself.held, hself.free⟩,
        ⟨_, Or.inr rfl, rfl, hcounted.sameUsed.held, hcounted.sameUsed.free⟩,
        hctx.self.used, hcounted.used⟩
    exact ⟨iff_of_true hall (Or.inr (Or.inl hno)),
      iff_of_true ⟨hall, hctx.self.used, hcounted.used⟩ (Or.inr hno)⟩
  · -- `kv_self` refuses: the slot of the sliding cache is released
    rw [hplace]
    obtain ⟨hcounted, hsize⟩ := counted_evictAll hctx b guards
    have hlt := hsize ▸ hctx.swaSize
    have htakes := swaTakes_of_freeRun b hguards hrun
    have hused := used_undo_iff hcounted hlt hrun n
    have hall : AllOrNothing ctx b (1, { ctx with
        kvSelf := { ctx.kvSelf with head := h' }
        kvSwa := (evictAll ctx.kvSwa ctx.nSwa b guards).undo h b n }) ↔ ∀ t ∈ b, 0 ≤ t.pos := by
      constructor
      · rintro (⟨hret, -⟩ | ⟨-, -, -, -, hcount⟩)
        · exact absurd hret Nat.one_ne_zero
        · exact hused.mp hcount
      · intro hb
        exact Or.inr ⟨rfl, ⟨rfl, hself.held, hself.free⟩,
          ⟨guards, hguards, sameUsed_undo hcounted hrun hb n⟩, hctx.self.used, hused.mpr hb⟩
    constructor
    · rw [hall]
      exact ⟨Or.inl, fun hor => hor.resolve_right (by simp [htakes, hno])⟩
    · constructor
      · rintro ⟨hboth, -⟩
        exact Or.inl (hall.mp hboth)
      · intro hor
        have hb := hor.resolve_right (not_not_intro htakes)
        exact ⟨hall.mpr hb, hctx.self.used, hused.mpr hb⟩
  · -- both take the ubatch
    rw [hplace]
    obtain ⟨hcounted, hsize⟩ := counted_evictAll hctx b guards
    have hlt := hsize ▸ hctx.swaSize
    have htakes := swaTakes_of_freeRun b hguards hrun
    have hall : AllOrNothing ctx b (0, { ctx with
        kvSelf := { ctx.kvSelf.place h' b with n := n }
        kvSwa := { (evictAll ctx.kvSwa ctx.nSwa b guards).place h b with n := n' } }) :=
      Or.inl ⟨rfl, present_place hctx.self hrun', present_place hcounted hrun⟩
    have hswa := used_place_iff hcounted hlt hrun
    have hself' := used_place_iff hctx.self hctx.selfSize hrun'
    refine ⟨iff_of_true hall (Or.inr (Or.inr ⟨h', hrun'⟩)), ?_⟩
    constructor
    · rintro ⟨-, -, hcount⟩
      exact Or.inl (hswa.mp hcount)
    · intro hor
      have hb := hor.resolve_right (not_not_intro htakes)
      exact ⟨hall, hself'.mpr hb, hswa.mpr hb⟩

end

/-- Two caches of two cells: `kv_self` holds two tokens of sequence 0, the sliding cache has
dropped the first of them. -/
def fullPair : KvContext where
  kvSelf := { size := 2, used := 2, cells := fun i => { pos := i, seqId := {0} } }
  kvSwa :=
    { size := 2, used := 1, cells := fun i => if i = 1 then { pos := 1, seqId := {0} } else {} }
  swaKvActive := true
  nSwa := 1
  swaKvGuard := 0
  flashAttn := false
  rope := true
  canShift := true
  maxMoves := 100

theorem fullPair_placementState : PlacementState fullPair :=
  ⟨rfl, rfl, ⟨by decide, by decide⟩, ⟨by decide, by decide⟩, by decide, by decide, by decide,
    by decide⟩

/-- A token at position 2 is refused, and the sliding cache is as before. -/
theorem placeUbatch_refused : AllOrNothing fullPair [⟨2, [0]⟩] (placeUbatch fullPair [⟨2, [0]⟩]) :=
  (placeUbatch_all_or_nothing_iff fullPair_placementState [⟨2, [0]⟩]).1.mpr (Or.inl (by decide))

/-- A token below zero is refused as well, but stays in the sliding cache, and counts. -/
theorem placeUbatch_leaves_token :
    ¬ ∀ (ctx : KvContext) (b : UBatch), PlacementState ctx →
      AllOrNothing ctx b (placeUbatch ctx b) := by
  intro h
  rcases h fullPair [⟨-1, [0]⟩] fullPair_placementState with
    ⟨hret, -⟩ | ⟨-, -, ⟨guards, rfl | rfl, hsame⟩, -⟩
  · exact absurd hret (by decide)
  · exact absurd (hsame.free 0 (by decide) (by decide)).2 (by decide)
  · exact absurd (hsame.free 0 (by decide) (by decide)).2 (by decide)

end PxqLlama.Kv
