import Mathlib.Tactic.Ring
import PxqLlama.Server.PromptShift

/-!
# `Proofs.Server.PromptShift`: when a long prompt is made to fit

The steps of the loop end at the first multiple of `n_discard` that leaves fewer than `n_ctx` tokens
(`discardSteps_spec`). `discard_n_tokens` then discards that many, or nothing at all if the kept
tokens and the discarded ones are the whole prompt. So a multiple has to lie between the tokens
that are too many and those that are not kept (`Step`), and the assertion behind the call fails
otherwise.
-/

namespace PxqLlama.Server

/-! ### The steps -/

/-- The loop ends at the first step that leaves fewer than `n_ctx` tokens. -/
theorem discardSteps_spec (nPrompt nCtx : Int) {step : Int} (hstep : 0 < step) (nDiscarded : Int) :
    ∃ m : Nat, discardSteps nPrompt nCtx step hstep nDiscarded = nDiscarded + m * step ∧
      nPrompt - (nDiscarded + m * step) < nCtx ∧
      ∀ k : Nat, k < m → nCtx ≤ nPrompt - (nDiscarded + k * step) := by
  fun_induction discardSteps nPrompt nCtx step hstep nDiscarded with
  | case1 nDiscarded hlong ih =>
    obtain ⟨m, heq, hends, hbefore⟩ := ih
    have hsucc : ∀ k : Nat, nDiscarded + step + k * step = nDiscarded + (k + 1 : Nat) * step := by
      intro k
      push_cast
      ring
    refine ⟨m + 1, ?_, ?_, ?_⟩
    · rw [heq, hsucc]
    · rw [← hsucc]
      exact hends
    · intro k hk
      cases k with
      | zero =>
        rw [Nat.cast_zero, zero_mul, add_zero]
        exact hlong
      | succ k =>
        rw [← hsucc]
        exact hbefore k (by omega)
  | case2 nDiscarded hshort =>
    refine ⟨0, ?_, ?_, ?_⟩
    · rw [Nat.cast_zero, zero_mul, add_zero]
    · rw [Nat.cast_zero, zero_mul, add_zero]
      omega
    · intro k hk
      omega

/-- Some number of steps discards enough of a prompt, and less than what is not kept. -/
def Step (nPrompt nCtx nKeep : Nat) (step : Int) : Prop :=
  ∃ m : Nat, (nPrompt : Int) - nCtx < m * step ∧ m * step < (nPrompt : Int) - nKeep

/-- If some number of steps will do, then so will the first that discards enough. -/
theorem step_iff (nPrompt nCtx nKeep : Nat) {step : Int} (hstep : 0 < step) :
    Step nPrompt nCtx nKeep step ↔
      discardSteps nPrompt nCtx step hstep 0 < (nPrompt : Int) - nKeep := by
  obtain ⟨m, heq, hends, hbefore⟩ := discardSteps_spec nPrompt nCtx hstep 0
  rw [heq]
  constructor
  · intro hsome
    obtain ⟨k, hk, hkeep⟩ := hsome
    have hle : m ≤ k := by
      by_contra hlt
      have hlong := hbefore k (by omega)
      omega
    have hmul : (m : Int) * step ≤ k * step := by
      apply Int.mul_le_mul_of_nonneg_right _ (Int.le_of_lt hstep)
      exact Int.ofNat_le.mpr hle
    omega
  · intro hlt
    exact ⟨m, by omega, by omega⟩

/-! ### Media -/

theorem getD_of_run_lt (tokens : List Int)
    (h : ServerTokens.mediaRun tokens < tokens.length) :
    tokens.getD (ServerTokens.mediaRun tokens) 0 ≠ llamaTokenNull := by
  induction tokens with
  | nil => exact absurd h (Nat.lt_irrefl 0)
  | cons t tokens ih =>
    rw [ServerTokens.mediaRun, List.takeWhile_cons] at h ⊢
    split at h
    · rename_i hnull
      rw [if_pos hnull]
      rw [List.length_cons, List.length_cons] at h
      exact ih (Nat.lt_of_succ_lt_succ h)
    · rename_i htext
      rw [if_neg htext]
      exact fun heq => htext (decide_eq_true heq)

/-- The kept tokens, as they are adjusted, end with a text token. -/
theorem adjustedKeep_text {tokens : List Int} {nKeep : Nat} (hle : nKeep ≤ tokens.length)
    (hpos : 0 < nKeep - ServerTokens.mediaRun (tokens.take nKeep).reverse) :
    tokens.getD (nKeep - ServerTokens.mediaRun (tokens.take nKeep).reverse - 1) 0
      ≠ llamaTokenNull := by
  have hlength : (tokens.take nKeep).reverse.length = nKeep := by
    rw [List.length_reverse, List.length_take]
    omega
  have hrun : ServerTokens.mediaRun (tokens.take nKeep).reverse
      < (tokens.take nKeep).reverse.length := by omega
  have htext := getD_of_run_lt _ hrun
  generalize ServerTokens.mediaRun (tokens.take nKeep).reverse = run at hrun hpos htext ⊢
  rw [List.getD_eq_getElem?_getD, List.getElem?_reverse (by rw [List.length_take]; omega),
    List.length_take, List.getElem?_take_of_lt (by omega), ← List.getD_eq_getElem?_getD] at htext
  have hindex : min nKeep tokens.length - 1 - run = nKeep - run - 1 := by omega
  rw [hindex] at htext
  exact htext

/-- So do the discarded ones. -/
theorem adjustedDiscard_text {tokens : List Int} {last : Nat}
    (hle : last + ServerTokens.mediaRun (tokens.drop last) < tokens.length) :
    tokens.getD (last + ServerTokens.mediaRun (tokens.drop last)) 0 ≠ llamaTokenNull := by
  have hrun : ServerTokens.mediaRun (tokens.drop last) < (tokens.drop last).length := by
    rw [List.length_drop]
    omega
  have htext := getD_of_run_lt _ hrun
  rw [List.getD_eq_getElem?_getD, List.getElem?_drop, ← List.getD_eq_getElem?_getD] at htext
  exact htext

/-- After the adjustment the shift is always supported. -/
theorem supports_adjusted (tokens : ServerTokens) (nKeep : Nat) (nDiscard : Int) :
    tokens.tokensSupportContextShift (tokens.adjustNToSupportContextShift nKeep nDiscard).1
      (tokens.adjustNToSupportContextShift nKeep nDiscard).2 = true := by
  by_cases hmtmd : tokens.hasMtmd = true
  · rw [ServerTokens.adjustNToSupportContextShift, if_neg (not_not_intro hmtmd)]
    simp only
    rw [ServerTokens.tokensSupportContextShift, if_pos hmtmd]
    generalize hkeep : (if 0 < nKeep ∧ nKeep ≤ tokens.size then
        nKeep - ServerTokens.mediaRun (tokens.tokens.take nKeep).reverse else nKeep) = keep
    have hkeeps : (if 0 < keep ∧ keep ≤ tokens.size then
        decide (tokens.tokens.getD (keep - 1) 0 ≠ llamaTokenNull) else true) = true := by
      split
      · rename_i hin
        rw [decide_eq_true_iff, ← hkeep]
        split at hkeep
        · rename_i hrange
          rw [if_pos hrange]
          exact adjustedKeep_text hrange.2 (by omega)
        · rename_i hrange
          exact absurd (hkeep ▸ hin) hrange
      · rfl
    simp only [hkeeps, Bool.true_and]
    generalize hdiscard : (if 0 < nDiscard + keep ∧ nDiscard + keep ≤ tokens.size then
        nDiscard + ServerTokens.mediaRun (tokens.tokens.drop (nDiscard + keep - 1).toNat)
      else nDiscard) = discard
    split
    · rename_i hin
      rw [decide_eq_true_iff]
      split at hdiscard
      · rename_i hrange
        generalize hlast : (nDiscard + keep - 1).toNat = last at hdiscard
        have hindex : (discard + keep - 1).toNat
            = last + ServerTokens.mediaRun (tokens.tokens.drop last) := by omega
        have hsize : (tokens.size : Int) = tokens.tokens.length := rfl
        rw [hindex]
        exact adjustedDiscard_text (by omega)
      · rename_i hrange
        exact absurd (hdiscard ▸ hin) hrange
    · rfl
  · rw [ServerTokens.tokensSupportContextShift, if_neg hmtmd]

/-! ### Discarding -/

section
variable {s s' : ServerTokens} {nKeep nDiscard : Nat}

theorem discardNTokens_zero (s : ServerTokens) (nKeep : Nat) : s.discardNTokens nKeep 0 = some s :=
  if_pos (Or.inl rfl)

/-- Nothing is discarded when the kept and the discarded tokens are the whole list. -/
theorem discardNTokens_whole (h : s.size ≤ nKeep + nDiscard) :
    s.discardNTokens nKeep nDiscard = some s :=
  if_pos (Or.inr h)

theorem discardNTokens_isSome (hpos : 0 < nDiscard) (h : nKeep + nDiscard < s.size) :
    (s.discardNTokens nKeep nDiscard).isSome = (s.keepFirst nKeep).isSome := by
  rw [ServerTokens.discardNTokens, if_neg (by omega), Option.isSome_map]

/-- What is left when tokens are discarded. -/
theorem discardNTokens_tokens (hpos : 0 < nDiscard) (h : nKeep + nDiscard < s.size)
    (hsome : s.discardNTokens nKeep nDiscard = some s') :
    s'.tokens = s.tokens.take nKeep ++ s.tokens.drop (nKeep + nDiscard) := by
  rw [ServerTokens.discardNTokens, if_neg (by omega)] at hsome
  obtain ⟨kept, -, heq⟩ := Option.map_eq_some_iff.mp hsome
  rw [← heq]

theorem size_discardNTokens (hpos : 0 < nDiscard) (h : nKeep + nDiscard < s.size)
    (hsome : s.discardNTokens nKeep nDiscard = some s') : s'.size = s.size - nDiscard := by
  have hsize : s.size = s.tokens.length := rfl
  rw [ServerTokens.size, discardNTokens_tokens hpos h hsome, List.length_append, List.length_take,
    List.length_drop]
  omega

end

/-! ### The truncation -/

section
variable {txt : TokenText} {addBosToken : Bool} {slot : ShiftSlot} {prompt : ServerTokens}

/-- The request's numbers make the prompt fit: tokens are discarded, some number of steps of them
is enough and not too much, and no list is cut inside of media. -/
structure Fits (txt : TokenText) (addBosToken : Bool) (slot : ShiftSlot) : Prop where
  discards : 0 < (shiftSizes addBosToken slot).2
  step : Step slot.promptTokens.size slot.nCtx (shiftSizes addBosToken slot).1
    (shiftSizes addBosToken slot).2
  prompt : (slot.promptTokens.keepFirst (shiftSizes addBosToken slot).1).isSome
  cache : (trimCacheTokens txt slot (shiftSizes addBosToken slot).1 (shiftSizes addBosToken slot).2
    (shiftSizes addBosToken slot).2 false).isSome

/-- The cache is trimmed in the same way for any number of tokens that the prompt loses. -/
theorem trimCacheTokens_pos {nKeep : Nat} {nDiscard a b nDiscarded : Int} {exact : Bool}
    (ha : 0 < a) (hb : 0 < b) :
    trimCacheTokens txt { slot with nDiscardedPrompt := nDiscarded } nKeep nDiscard a exact
      = trimCacheTokens txt slot nKeep nDiscard b exact := by
  rw [trimCacheTokens, trimCacheTokens, if_pos ha, if_pos hb]

/-- The call on a slot that was just reset, when there is something to discard. -/
theorem contextShiftPrompt_eq (hstep : 0 < (shiftSizes addBosToken slot).2)
    (hreset : slot.nDiscardedPrompt = 0) :
    contextShiftPrompt txt addBosToken slot false = (do
      let nDiscarded := discardSteps slot.nPromptTokens slot.nCtx (shiftSizes addBosToken slot).2
        hstep 0
      let cacheTokens ← trimCacheTokens txt { slot with nDiscardedPrompt := nDiscarded }
        (shiftSizes addBosToken slot).1 (shiftSizes addBosToken slot).2 nDiscarded false
      let promptTokens ← slot.promptTokens.discardNTokens (shiftSizes addBosToken slot).1
        nDiscarded.toNat
      return { slot with
        nDiscardedPrompt := nDiscarded
        cacheTokens := cacheTokens
        nKeptPrompt := (shiftSizes addBosToken slot).1
        promptTokens := promptTokens
        nPromptTokens := promptTokens.size }) := by
  have hsupports : slot.promptTokens.tokensSupportContextShift (shiftSizes addBosToken slot).1
      (shiftSizes addBosToken slot).2 = true := supports_adjusted _ _ _
  rw [contextShiftPrompt, dif_pos hstep, if_pos hsupports]
  simp only [hreset, sub_zero, sub_self, Int.toNat_zero, discardNTokens_zero, Option.bind_eq_bind,
    Option.bind_some]

/-- The truncation of a long prompt leaves a prompt that fits, made of its first and its last
tokens. -/
def Truncates (txt : TokenText) (addBosToken : Bool) (slot : ShiftSlot) (prompt : ServerTokens) :
    Prop :=
  ∃ s, truncatePrompt txt addBosToken (slot.launch prompt) = some s ∧
    s.nPromptTokens = s.promptTokens.size ∧ s.promptTokens.size < slot.nCtx ∧
    ∃ j, s.promptTokens.tokens
      = prompt.tokens.take (shiftSizes addBosToken (slot.launch prompt)).1 ++ prompt.tokens.drop j

/-- What the truncation of a long prompt returns when there is something to discard. -/
theorem truncatePrompt_iff (hstep : 0 < (shiftSizes addBosToken slot).2)
    (hreset : slot.nDiscardedPrompt = 0) (hlong : slot.nCtx ≤ slot.nPromptTokens) (s : ShiftSlot) :
    truncatePrompt txt addBosToken slot = some s ↔
      ∃ cacheTokens promptTokens,
        trimCacheTokens txt slot (shiftSizes addBosToken slot).1 (shiftSizes addBosToken slot).2
          (shiftSizes addBosToken slot).2 false = some cacheTokens ∧
        slot.promptTokens.discardNTokens (shiftSizes addBosToken slot).1
          (discardSteps slot.nPromptTokens slot.nCtx (shiftSizes addBosToken slot).2
            hstep 0).toNat = some promptTokens ∧
        promptTokens.size < slot.nCtx ∧
        s = { slot with
          nDiscardedPrompt := discardSteps slot.nPromptTokens slot.nCtx
            (shiftSizes addBosToken slot).2 hstep 0
          cacheTokens := cacheTokens
          nKeptPrompt := (shiftSizes addBosToken slot).1
          promptTokens := promptTokens
          nPromptTokens := promptTokens.size
          truncated := true } := by
  obtain ⟨m, heq, hends, -⟩ := discardSteps_spec slot.nPromptTokens slot.nCtx hstep 0
  rw [truncatePrompt, if_pos hlong, contextShiftPrompt_eq hstep hreset]
  generalize hd : discardSteps slot.nPromptTokens slot.nCtx (shiftSizes addBosToken slot).2
    hstep 0 = nDiscarded at heq ⊢
  have hpos : 0 < nDiscarded := by omega
  simp only [trimCacheTokens_pos hpos hstep]
  constructor
  · intro hsome
    obtain ⟨slot', hshift, hassert⟩ := Option.bind_eq_some_iff.mp hsome
    obtain ⟨cacheTokens, hcache, hshift⟩ := Option.bind_eq_some_iff.mp hshift
    obtain ⟨promptTokens, hprompt, hshift⟩ := Option.bind_eq_some_iff.mp hshift
    cases hshift
    split at hassert
    · rename_i hfits
      cases hassert
      exact ⟨cacheTokens, promptTokens, hcache, hprompt, hfits, rfl⟩
    · cases hassert
  · intro hex
    obtain ⟨cacheTokens, promptTokens, hcache, hprompt, hfits, hs⟩ := hex
    rw [hcache, hprompt, hs]
    exact if_pos hfits

/-- The sizes do what the assertion asks for, and nothing else does. -/
theorem truncates_iff (txt : TokenText) (addBosToken : Bool) (slot : ShiftSlot)
    (prompt : ServerTokens) (hlong : slot.nCtx ≤ prompt.size) :
    Truncates txt addBosToken slot prompt ↔ Fits txt addBosToken (slot.launch prompt) := by
  have hctx : (slot.launch prompt).nCtx = slot.nCtx := rfl
  have hprompt : (slot.launch prompt).promptTokens = prompt := rfl
  have hsize : (slot.launch prompt).nPromptTokens = prompt.size := rfl
  have hreset : (slot.launch prompt).nDiscardedPrompt = 0 := rfl
  rw [Truncates]
  generalize slot.launch prompt = launched at hctx hprompt hsize hreset ⊢
  rw [← hctx, ← hsize] at hlong
  by_cases hstep : 0 < (shiftSizes addBosToken launched).2
  · simp only [truncatePrompt_iff hstep hreset hlong]
    obtain ⟨m, heq, hends, -⟩ := discardSteps_spec launched.nPromptTokens launched.nCtx hstep 0
    have hiff := step_iff launched.nPromptTokens launched.nCtx (shiftSizes addBosToken launched).1 hstep
    generalize discardSteps launched.nPromptTokens launched.nCtx (shiftSizes addBosToken launched).2
      hstep 0 = nDiscarded at heq hiff ⊢
    rw [← heq] at hends
    constructor
    · intro hex
      obtain ⟨s, ⟨cacheTokens, promptTokens, hcache, hdiscard, hfits, -⟩, -⟩ := hex
      rw [hprompt] at hdiscard
      -- A prompt from which nothing was discarded would still be too long.
      have hlt : (shiftSizes addBosToken launched).1 + nDiscarded.toNat < prompt.size := by
        by_contra hwhole
        rw [discardNTokens_whole (by omega)] at hdiscard
        cases hdiscard
        omega
      have hkeep := discardNTokens_isSome (show 0 < nDiscarded.toNat by omega) hlt
      refine ⟨hstep, ?_, ?_, Option.isSome_of_eq_some hcache⟩
      · rw [hprompt, ← hsize, hiff]
        omega
      · rw [hprompt, ← hkeep, hdiscard]
        rfl
    · intro hfits
      have hstep' := hfits.step
      have hkept := hfits.prompt
      rw [hprompt, ← hsize, hiff] at hstep'
      have hlt : (shiftSizes addBosToken launched).1 + nDiscarded.toNat < prompt.size := by omega
      rw [hprompt, ← discardNTokens_isSome (show 0 < nDiscarded.toNat by omega) hlt] at hkept
      obtain ⟨promptTokens, hdiscard⟩ := Option.isSome_iff_exists.mp hkept
      obtain ⟨cacheTokens, hcache⟩ := Option.isSome_iff_exists.mp hfits.cache
      have hleft := size_discardNTokens (by omega) hlt hdiscard
      rw [hprompt]
      refine ⟨_, ⟨cacheTokens, promptTokens, hcache, hdiscard, by omega, rfl⟩, rfl, ?_, _,
        discardNTokens_tokens (by omega) hlt hdiscard⟩
      show promptTokens.size < slot.nCtx
      omega
  · constructor
    · intro hex
      obtain ⟨s, hs, -⟩ := hex
      rw [truncatePrompt, if_pos hlong, contextShiftPrompt, dif_neg hstep] at hs
      have hassert : (if launched.nPromptTokens < launched.nCtx then
          some { launched with truncated := true } else none) = some s := hs
      rw [if_neg (by omega)] at hassert
      cases hassert
    · intro hfits
      exact absurd hfits.discards hstep

end

/-- A model without texts, for lists that are compared by their tokens. -/
def noText : TokenText where
  piece _ := []
  detokenize _ := []

/-- Six tokens for a context of four, with the numbers of a request that does not set them. -/
theorem truncates_iff_six :
    Truncates noText true { nCtx := 4, nKeep := 0, nDiscard := 0 }
      { tokens := [1, 2, 3, 4, 5, 6] } :=
  (truncates_iff noText true { nCtx := 4, nKeep := 0, nDiscard := 0 }
    { tokens := [1, 2, 3, 4, 5, 6] } (by decide)).mpr
    ⟨by decide, ⟨3, by decide, by decide⟩, by decide, by decide⟩

/-- A request that discards a negative number of tokens ends the server. -/
theorem truncatePrompt_negative :
    truncatePrompt noText true (ShiftSlot.launch { nCtx := 4, nKeep := 0, nDiscard := -1 }
      { tokens := [1, 2, 3, 4] }) = none := by
  decide

end PxqLlama.Server
