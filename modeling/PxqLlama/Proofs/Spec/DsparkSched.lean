import PxqLlama.Spec.DsparkSched

/-!
# `Proofs.Spec.DsparkSched`: what holds between the calls of the scheduler

`Kept` is the invariant of the scheduler with the cycles of its window: the bound on the cycles that
are still skipped, the bound on the cycles of the window, and the sums. `Kept.call` proves it for
one call. Only a note that is counted has cases: the ladder, the break-even rule and the end of the
window, and each of them sets the skip count to a tunable or leaves it.

The floating point arithmetic decides which cases apply and nothing else, so nothing is asked of it.
-/

namespace PxqLlama.Spec.DsparkSched

variable {D F : Type} (fp : Floats D F)

/-- The greatest number of cycles that a rule pauses for. -/
def maxSkip (t : Tunables F) : UInt32 :=
  max t.skipCycles (max t.slowSkipCycles (max t.noDraftSkip
    (max t.shortAcceptNoDraftSkip t.coldLowConfSkip)))

/-- The scheduler between two calls, with the cycles of its window. -/
structure Kept (t : Tunables F) (s : Sched D F) (window : List (Note D F)) : Prop where
  tun : s.tun = t
  skip_le : s.skip ≤ maxSkip t
  cycles_lt : t.enabled = true → s.cycles < t.window
  cycles : s.cycles = UInt32.ofNat window.length
  accepted : s.accepted = (window.map Note.acceptedDrafts).sum
  noDraft : s.noDraft = UInt32.ofNat (window.countP Note.noDraft)

variable {fp} {t : Tunables F} {s : Sched D F} {window : List (Note D F)}

/-! ### The skip count -/

theorem toNat_max (a b : UInt32) : (max a b).toNat = max a.toNat b.toNat := by
  show (if a ≤ b then b else a).toNat = _
  split
  · rename_i h
    rw [Nat.max_eq_right (UInt32.le_iff_toNat_le.mp h)]
  · rename_i h
    rw [UInt32.le_iff_toNat_le] at h
    rw [Nat.max_eq_left (by omega)]

theorem max_le_u32 {a b c : UInt32} (ha : a ≤ c) (hb : b ≤ c) : max a b ≤ c := by
  rw [UInt32.le_iff_toNat_le] at ha hb ⊢
  rw [toNat_max]
  exact Nat.max_le.mpr ⟨ha, hb⟩

/-- Each of the five tunables is within the bound. -/
theorem tunables_le (t : Tunables F) :
    t.skipCycles ≤ maxSkip t ∧ t.slowSkipCycles ≤ maxSkip t ∧ t.noDraftSkip ≤ maxSkip t ∧
      t.shortAcceptNoDraftSkip ≤ maxSkip t ∧ t.coldLowConfSkip ≤ maxSkip t := by
  simp only [UInt32.le_iff_toNat_le, maxSkip, toNat_max]
  omega

theorem skipCycles_le (t : Tunables F) : t.skipCycles ≤ maxSkip t := (tunables_le t).1

theorem slowSkipCycles_le (t : Tunables F) : t.slowSkipCycles ≤ maxSkip t := (tunables_le t).2.1

theorem noDraftSkip_le (t : Tunables F) : t.noDraftSkip ≤ maxSkip t := (tunables_le t).2.2.1

theorem ladderSkip_le (s : Sched D F) (n : Note D F) : ladderSkip fp s n ≤ maxSkip s.tun := by
  unfold ladderSkip
  split
  · exact max_le_u32 (noDraftSkip_le s.tun) (tunables_le s.tun).2.2.2.1
  · split
    · exact max_le_u32 (noDraftSkip_le s.tun) (tunables_le s.tun).2.2.2.2
    · exact noDraftSkip_le s.tun

theorem noDraftLadder_skip_le {n : Note D F} (h : s.skip ≤ maxSkip s.tun) :
    (noDraftLadder fp s n).skip ≤ maxSkip s.tun := by
  unfold noDraftLadder
  split
  · exact max_le_u32 h (ladderSkip_le s n)
  · exact h

theorem windowTest_skip_le (h : s.skip ≤ maxSkip s.tun) :
    (windowTest fp s).skip ≤ maxSkip s.tun := by
  simp only [windowTest]
  split
  · show (if _ then max s.tun.skipCycles s.tun.slowSkipCycles else s.tun.skipCycles) ≤ _
    split
    · exact max_le_u32 (skipCycles_le s.tun) (slowSkipCycles_le s.tun)
    · exact skipCycles_le s.tun
  · exact h

/-! ### The other fields -/

theorem tun_noDraftLadder (s : Sched D F) (n : Note D F) :
    (noDraftLadder fp s n).tun = s.tun := by
  unfold noDraftLadder
  split <;> rfl

/-- The ladder changes the skip count only. -/
theorem noDraftLadder_eq (s : Sched D F) (n : Note D F) :
    noDraftLadder fp s n = { s with skip := (noDraftLadder fp s n).skip } := by
  unfold noDraftLadder
  split <;> rfl

theorem windowTest_eq (s : Sched D F) :
    windowTest fp s = { s with skip := (windowTest fp s).skip } := by
  unfold windowTest
  dsimp only
  split <;> rfl

/-! ### One call -/

theorem Kept.init (fp : Floats D F) (t : Tunables F) : Kept t (schedInit fp t) [] where
  tun := rfl
  skip_le := UInt32.le_iff_toNat_le.mpr (Nat.zero_le _)
  cycles_lt := fun _ => t.window_pos
  cycles := rfl
  accepted := rfl
  noDraft := rfl

/-- An empty window, whatever the skip count is. -/
theorem Kept.reset {s : Sched D F} (htun : s.tun = t) (hskip : s.skip ≤ maxSkip t) :
    Kept t (schedResetWindow fp s) [] where
  tun := htun
  skip_le := hskip
  cycles_lt := fun _ => t.window_pos
  cycles := rfl
  accepted := rfl
  noDraft := rfl

/-- Asking whether to skip keeps the counters right. -/
theorem Kept.shouldSkip (h : Kept t s window) : Kept t (shouldSkip s).2 window := by
  unfold DsparkSched.shouldSkip
  split
  · exact h
  · split
    · exact ⟨h.tun, h.skip_le, h.cycles_lt, h.cycles, h.accepted, h.noDraft⟩
    · rename_i hpos
      refine ⟨h.tun, ?_, h.cycles_lt, h.cycles, h.accepted, h.noDraft⟩
      have hle : s.skip - 1 ≤ s.skip := by
        rw [UInt32.le_iff_toNat_le]
        have hne : s.skip.toNat ≠ 0 := fun h0 => hpos (UInt32.toNat_inj.mp h0)
        rw [UInt32.toNat_sub_of_le _ _ (by
          rw [UInt32.le_iff_toNat_le]
          exact Nat.one_le_iff_ne_zero.mpr hne)]
        exact Nat.sub_le _ _
      exact UInt32.le_trans hle h.skip_le

theorem Kept.tailSkip (h : Kept t s window) (nRemaining : Int) :
    Kept t (tailSkip s nRemaining).2 window := by
  unfold DsparkSched.tailSkip
  split
  · exact h
  · split
    · exact h
    · split
      · exact h
      · exact ⟨h.tun, h.skip_le, h.cycles_lt, h.cycles, h.accepted, h.noDraft⟩

variable (fp) in
/-- The sums of the window with one more cycle. -/
theorem Kept.account (h : Kept t s window) (n : Note D F) :
    (account fp s n).cycles = UInt32.ofNat (window ++ [n]).length ∧
      (account fp s n).accepted = ((window ++ [n]).map Note.acceptedDrafts).sum ∧
      (account fp s n).noDraft = UInt32.ofNat ((window ++ [n]).countP Note.noDraft) := by
  refine ⟨?_, ?_, ?_⟩
  · show s.cycles + 1 = _
    rw [h.cycles, List.length_append, UInt32.ofNat_add]
    rfl
  · show s.accepted + n.acceptedDrafts = _
    rw [h.accepted, List.map_append, List.sum_append, List.map_singleton, List.sum_singleton]
  · show (if n.noDraft then s.noDraft + 1 else s.noDraft) = _
    rw [h.noDraft, List.countP_append, List.countP_singleton]
    split
    · rw [UInt32.ofNat_add]
      rfl
    · rfl

/-- Noting a result keeps the counters and the window right. -/
theorem Kept.note (h : Kept t s window) (n : Note D F) :
    Kept t (note fp s n) (windowAfter fp s window (.note n)) := by
  unfold DsparkSched.note windowAfter noteReset
  by_cases hen : s.tun.enabled = true
  · cases hskipped : s.skippedCycle with
    | true =>
      simp only [hen, not_true_eq_false, if_false, if_true, or_true]
      exact ⟨h.tun, h.skip_le, h.cycles_lt, h.cycles, h.accepted, h.noDraft⟩
    | false =>
      obtain ⟨hcycles, haccepted, hnoDraft⟩ := h.account fp n
      have hle : (noDraftLadder fp (DsparkSched.account fp s n) n).skip ≤ maxSkip t := by
        have hacc : (DsparkSched.account fp s n).skip ≤ maxSkip (DsparkSched.account fp s n).tun :=
          h.tun.symm ▸ h.skip_le
        exact h.tun ▸ noDraftLadder_skip_le hacc
      have htun : (noDraftLadder fp (DsparkSched.account fp s n) n).tun = t :=
        (tun_noDraftLadder _ n).trans h.tun
      simp only [hen, not_true_eq_false, if_false, or_false, Bool.false_eq_true]
      by_cases hbreak : breaksEven fp (noDraftLadder fp (DsparkSched.account fp s n) n) = true
      · simp only [hbreak, if_true]
        exact Kept.reset htun (htun ▸ slowSkipCycles_le _)
      · by_cases hlt : (noDraftLadder fp (DsparkSched.account fp s n) n).cycles
            < (noDraftLadder fp (DsparkSched.account fp s n) n).tun.window
        · simp only [hbreak, hlt, if_false, if_true, Bool.false_eq_true]
          rw [noDraftLadder_eq] at htun hlt ⊢
          exact ⟨htun, hle, fun _ => htun ▸ hlt, hcycles, haccepted, hnoDraft⟩
        · simp only [hbreak, hlt, if_false, if_true, Bool.false_eq_true]
          refine Kept.reset ?_ ?_
          · rw [windowTest_eq]
            exact htun
          · exact htun ▸ windowTest_skip_le (htun.symm ▸ hle)
  · have hnote : noteReset fp s n = (s, false) := if_pos hen
    have hwindow : windowAfter fp s window (.note n) = window := if_pos (Or.inl hen)
    show Kept t (noteReset fp s n).1 (windowAfter fp s window (.note n))
    rw [hnote, hwindow]
    exact h

theorem Kept.call (h : Kept t s window) (c : Call D F) :
    Kept t (call fp s c) (windowAfter fp s window c) := by
  cases c with
  | shouldSkip => exact h.shouldSkip
  | tailSkip nRemaining => exact h.tailSkip nRemaining
  | note n => exact h.note n

/-! ### Every run -/

theorem run_concat (calls : List (Call D F)) (c : Call D F) :
    run fp t (calls ++ [c]) = (call fp (run fp t calls).1 c,
      windowAfter fp (run fp t calls).1 (run fp t calls).2 c) := by
  unfold run
  rw [List.foldl_append]
  rfl

theorem kept_run (fp : Floats D F) (t : Tunables F) (calls : List (Call D F)) :
    Kept t (run fp t calls).1 (run fp t calls).2 := by
  induction calls using List.reverseRecOn with
  | nil => exact Kept.init fp t
  | append_singleton calls c ih =>
    rw [run_concat]
    exact ih.call c

/-- Tail skips do not touch what a note looks at first. -/
theorem tailSkips_keep (rs : List Int) (s : Sched D F) :
    let s' := rs.foldl (fun s r => (tailSkip s r).2) s
    s'.tun = s.tun ∧ s'.skippedCycle = s.skippedCycle := by
  induction rs generalizing s with
  | nil => exact ⟨rfl, rfl⟩
  | cons r rs ih =>
    have hone : (tailSkip s r).2.tun = s.tun ∧ (tailSkip s r).2.skippedCycle = s.skippedCycle := by
      unfold tailSkip
      split
      · exact ⟨rfl, rfl⟩
      · split
        · exact ⟨rfl, rfl⟩
        · split <;> exact ⟨rfl, rfl⟩
    obtain ⟨htun, hskipped⟩ := ih (tailSkip s r).2
    exact ⟨htun.trans hone.1, hskipped.trans hone.2⟩

/-- A skipped cycle is not noted: only the flag is taken back. -/
theorem note_of_skipped (hen : s.tun.enabled = true) (hskipped : s.skippedCycle = true)
    (n : Note D F) : note fp s n = { s with skippedCycle := false } := by
  unfold note noteReset
  simp only [hen, hskipped, not_true_eq_false, if_false, if_true]

theorem shouldSkip_true (h : (shouldSkip s).1 = true) :
    (shouldSkip s).2.tun.enabled = true ∧ (shouldSkip s).2.skippedCycle = true := by
  unfold shouldSkip at h ⊢
  split
  · rename_i hen
    rw [if_pos hen] at h
    cases h
  · rename_i hen
    rw [if_neg hen] at h
    split
    · rename_i hzero
      rw [if_pos hzero] at h
      cases h
    · exact ⟨not_not.mp hen, rfl⟩

/-- What holds between any two calls of a scheduler with any settings. -/
structure Invariant (fp : Floats D F) (t : Tunables F) (s : Sched D F)
    (window : List (Note D F)) : Prop where
  skip_le : s.skip ≤ maxSkip t
  cycles_lt : t.enabled = true → s.cycles < t.window
  accepted : s.accepted = (window.map Note.acceptedDrafts).sum
  noDraft : s.noDraft = UInt32.ofNat (window.countP Note.noDraft)
  /-- When the next call skips the cycle, the note on it changes the flag only; the tail may be
  asked for in between. -/
  skipped : (shouldSkip s).1 = true → ∀ (rs : List Int) (n : Note D F),
    let s' := rs.foldl (fun s r => (tailSkip s r).2) (shouldSkip s).2
    note fp s' n = { s' with skippedCycle := false }

theorem sched_invariant (fp : Floats D F) (t : Tunables F) (calls : List (Call D F)) :
    Invariant fp t (run fp t calls).1 (run fp t calls).2 := by
  have h := kept_run fp t calls
  refine ⟨h.skip_le, h.cycles_lt, h.accepted, h.noDraft, fun hskip rs n => ?_⟩
  obtain ⟨hen, hskipped⟩ := shouldSkip_true hskip
  obtain ⟨htun, hflag⟩ := tailSkips_keep rs (shouldSkip (run fp t calls).1).2
  exact note_of_skipped (htun.symm ▸ hen) (hflag.trans hskipped) n

end PxqLlama.Spec.DsparkSched
