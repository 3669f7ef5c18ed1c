import PxqLlama.Kv.SpecModes
import PxqLlama.Proofs.Kv.HybridSplit
import Mathlib.Algebra.BigOperators.Group.List.Basic

/-!
# `Proofs.Kv.StepCapture`: a per-step restore reads the last capture

The record of a capture is written by an ubatch that runs armed, and it stays until another armed
ubatch replaces or clears it (`CaptureOk`). An ubatch that runs unarmed leaves the record and the
snapshots as they are. So a restore that is not refused reads the row of its sequence and its step,
of the last ubatch that ran armed, and this is the last one of all exactly when that one was armed
(`per_step_restore_right_iff`).
-/

namespace PxqLlama.Kv

/-! ### The decomposition -/

/-- The runs account for all tokens. -/
theorem decompLoop_sum {ts : List Token} {out : List (Int × Nat)} {last : Int}
    (h : decompLoop ts [] last = some out) : (out.map Prod.snd).sum = ts.length := by
  have hexpand : RunLengths.expand out = ts.map tokSeq := decompLoop_expand h
  have hlength := congrArg List.length hexpand
  rw [RunLengths.expand, List.length_flatMap, List.length_map] at hlength
  simpa using hlength

/-- An ubatch of equal runs has a token for each sequence and step. -/
theorem pxaDecomposeSeqs_length {b : UBatch} (hok : (pxaDecomposeSeqs b).ok = true)
    (huniform : (pxaDecomposeSeqs b).uniformTok = true) :
    (pxaDecomposeSeqs b).seqs.length * (pxaDecomposeSeqs b).nSeqTokens = b.length := by
  rw [pxaDecomposeSeqs] at hok huniform ⊢
  split at hok
  · cases hok
  · rename_i hb
    rw [if_neg hb] at huniform ⊢
    cases hloop : decompLoop b [] 0 with
    | none =>
      rw [hloop] at hok
      cases hok
    | some runs =>
      rw [hloop] at huniform
      simp only [List.all_eq_true, decide_eq_true_eq] at huniform
      have hsum := decompLoop_sum hloop
      have hall : ∀ n ∈ runs.map Prod.snd, n = (runs.map Prod.snd).headD 0 := by
        intro n hn
        obtain ⟨r, hr, rfl⟩ := List.mem_map.mp hn
        exact huniform r hr
      rw [List.sum_eq_card_nsmul _ _ hall, List.length_map, nsmul_eq_mul, Nat.cast_id] at hsum
      have hyes : (runs.all fun r => decide (r.2 = (runs.map Prod.snd).headD 0)) = true := by
        simpa using huniform
      simp only [hyes, if_true, List.length_map]
      exact hsum

/-! ### The snapshots -/

section
variable {width n steps t b e : Nat}

theorem step_lt (ht : t < steps) (hb : b < n) : t * n + b < steps * n := by
  calc t * n + b < t * n + n := Nat.add_lt_add_left hb _
    _ = (t + 1) * n := (Nat.succ_mul t n).symm
    _ ≤ steps * n := Nat.mul_le_mul_right n ht

/-- What is written of one sequence and one step. -/
theorem writeSteps_apply (value : Nat → Nat → Nat → Computed) (old : Nat → Option Computed)
    (ht : t < steps) (hb : b < n) (he : e < width) :
    writeSteps width n steps value old ((t * n + b) * width + e) = some (value t b e) := by
  have hwidth : 0 < width := by omega
  have hn : 0 < n := by omega
  have hrow : ((t * n + b) * width + e) / width = t * n + b := by
    rw [Nat.add_comm, Nat.add_mul_div_right _ _ hwidth, Nat.div_eq_of_lt he, Nat.zero_add]
  have helem : ((t * n + b) * width + e) % width = e := by
    rw [Nat.add_comm, Nat.add_mul_mod_self_right, Nat.mod_eq_of_lt he]
  have hstep : (t * n + b) / n = t := by
    rw [Nat.add_comm, Nat.add_mul_div_right _ _ hn, Nat.div_eq_of_lt hb, Nat.zero_add]
  have hseq : (t * n + b) % n = b := by
    rw [Nat.add_comm, Nat.add_mul_mod_self_right, Nat.mod_eq_of_lt hb]
  simp only [writeSteps, hrow, helem, hstep, hseq, if_pos (step_lt ht hb)]

end

/-! ### The invariant -/

/-- The record describes the snapshots, and they are those of the `u`-th ubatch. -/
structure Captured (w : SpecState) (u : Nat) : Prop where
  seqs : w.lastCaptureNSeqs = w.lastCaptureSeqs.length
  fits : (w.lastCaptureNSeqs * w.lastCaptureSteps : Int) ≤ w.perStepMaxAllocated
  conv : ∀ k sl, w.slices[k]? = some sl → ∀ t b e, t < w.lastCaptureSteps →
    b < w.lastCaptureNSeqs → e < sl.convDim →
    w.perStepConv k ((t * w.lastCaptureNSeqs + b) * sl.convDim + e)
      = some ⟨u, w.lastCaptureSeqs.getD b 0, t, e⟩
  ssm : ∀ k sl, w.slices[k]? = some sl → ∀ t b e, t + 1 < w.lastCaptureSteps →
    b < w.lastCaptureNSeqs → e < sl.ssmDim →
    w.perStepSsm k ((t * w.lastCaptureNSeqs + b) * sl.ssmDim + e)
      = some ⟨u, w.lastCaptureSeqs.getD b 0, t, sl.convDim + e⟩

/-- The `u`-th ubatch is the last one that was executed armed. -/
def LastArmedIs (executed : List (UBatch × Bool)) (u : Nat) : Prop :=
  ∃ later b earlier, executed = later ++ (b, true) :: earlier ∧ (∀ x ∈ later, x.2 = false) ∧
    earlier.length = u

/-- The last ubatch was executed armed. -/
def SpecState.lastArmed (w : SpecState) : Prop := ∃ b, w.executed.head? = some (b, true)

/-- The last armed ubatch is the last one exactly when that one was armed. -/
theorem LastArmedIs.eq_iff {executed : List (UBatch × Bool)} {u : Nat}
    (h : LastArmedIs executed u) :
    u + 1 = executed.length ↔ ∃ b, executed.head? = some (b, true) := by
  obtain ⟨later, b, earlier, rfl, hlater, rfl⟩ := h
  cases later with
  | nil => simp
  | cons x later =>
    have hx := hlater x (List.mem_cons_self ..)
    refine iff_of_false ?_ ?_
    · simp only [List.cons_append, List.length_cons, List.length_append]
      omega
    · rintro ⟨b', hb'⟩
      rw [List.cons_append, List.head?_cons, Option.some.injEq] at hb'
      rw [hb'] at hx
      cases hx

/-- There are states: a slice whose rows are not empty. -/
def SpecState.HasStates (w : SpecState) : Prop :=
  ∃ (k : Nat) (sl : StateSlice), w.slices[k]? = some sl ∧ 0 < sl.width

/-- What every state of a run has. -/
structure CaptureOk (w : SpecState) : Prop where
  states : w.HasStates
  selected : w.selectedSpecMode = .perStep → w.fixedSpecMode = .perStep
  armed : w.savePerStepSsm = true → w.fixedSpecMode = .perStep
  captured : w.lastCaptureNSeqs ≠ 0 →
    w.fixedSpecMode = .perStep ∧ ∃ u, Captured w u ∧ LastArmedIs w.executed u

/-- The calls that touch neither the record nor the snapshots. -/
structure SameCapture (w w' : SpecState) : Prop where
  slices : w'.slices = w.slices
  max : w'.perStepMaxAllocated = w.perStepMaxAllocated
  conv : w'.perStepConv = w.perStepConv
  ssm : w'.perStepSsm = w.perStepSsm
  seqs : w'.lastCaptureSeqs = w.lastCaptureSeqs
  nSeqs : w'.lastCaptureNSeqs = w.lastCaptureNSeqs
  steps : w'.lastCaptureSteps = w.lastCaptureSteps

theorem Captured.of_same {w w' : SpecState} {u : Nat} (h : Captured w u)
    (hsame : SameCapture w w') : Captured w' u := by
  obtain ⟨hslices, hmax, hconv, hssm, hseqs, hn, hsteps⟩ := hsame
  refine ⟨?_, ?_, ?_, ?_⟩
  · rw [hn, hseqs]
    exact h.seqs
  · rw [hn, hsteps, hmax]
    exact h.fits
  · rw [hslices, hn, hsteps, hseqs, hconv]
    exact h.conv
  · rw [hslices, hn, hsteps, hseqs, hssm]
    exact h.ssm

theorem CaptureOk.of_same {w w' : SpecState} (h : CaptureOk w) (hsame : SameCapture w w')
    (hfixed : w'.fixedSpecMode = w.fixedSpecMode) (hexecuted : w'.executed = w.executed)
    (hselected : w'.selectedSpecMode = .perStep → w.fixedSpecMode = .perStep)
    (harmed : w'.savePerStepSsm = true → w.fixedSpecMode = .perStep) : CaptureOk w' := by
  refine ⟨?_, ?_, ?_, ?_⟩
  · rw [SpecState.HasStates, hsame.slices]
    exact h.states
  · rw [hfixed]
    exact hselected
  · rw [hfixed]
    exact harmed
  · rw [hsame.nSeqs, hfixed, hexecuted]
    intro hn
    obtain ⟨hmode, u, hu, hlast⟩ := h.captured hn
    exact ⟨hmode, u, hu.of_same hsame, hlast⟩

/-! ### The calls -/

variable {vReads ok : Bool} {s : Nat} {step : Int}

section
variable {w : SpecState}

theorem checkpointAllocShadows_eq (alloc : SpecAlloc) (w : SpecState) (convOnly : Bool) :
    ∃ allocated, (checkpointAllocShadows alloc w convOnly).2
      = { w with shadowConvOnly := allocated } := by
  rw [checkpointAllocShadows]
  split
  · exact ⟨w.shadowConvOnly, rfl⟩
  · split
    · exact ⟨some convOnly, rfl⟩
    · exact ⟨w.shadowConvOnly, rfl⟩

/-- What an allocation leaves alone. -/
structure Prepared (w w' : SpecState) : Prop where
  slices : w'.slices = w.slices
  selected : w'.selectedSpecMode = w.selectedSpecMode
  fixed : w'.fixedSpecMode = w.fixedSpecMode
  armed : w'.savePerStepSsm = w.savePerStepSsm
  nSeqs : w'.lastCaptureNSeqs = w.lastCaptureNSeqs

theorem prepared_shadows (alloc : SpecAlloc) (w : SpecState) (convOnly : Bool) :
    Prepared w (checkpointAllocShadows alloc w convOnly).2 := by
  obtain ⟨allocated, heq⟩ := checkpointAllocShadows_eq alloc w convOnly
  rw [heq]
  exact ⟨rfl, rfl, rfl, rfl, rfl⟩

theorem prepared_tryPerStep (alloc : SpecAlloc) (w : SpecState) (maxTokens : Int) :
    Prepared w (specCkptTryPerStep alloc w maxTokens).2 := by
  have halloc : Prepared w (perStepAlloc alloc w maxTokens).2 := by
    rw [perStepAlloc]
    split <;> exact ⟨rfl, rfl, rfl, rfl, rfl⟩
  rw [specCkptTryPerStep]
  split
  · exact ⟨rfl, rfl, rfl, rfl, rfl⟩
  · simp only
    split
    · exact halloc
    · have hshadows := prepared_shadows alloc (perStepAlloc alloc w maxTokens).2 true
      exact ⟨hshadows.slices.trans halloc.slices, hshadows.selected.trans halloc.selected,
        hshadows.fixed.trans halloc.fixed, hshadows.armed.trans halloc.armed,
        hshadows.nSeqs.trans halloc.nSeqs⟩

/-- Nothing is captured yet, and the mode is chosen when it is selected. -/
structure Unfixed (w : SpecState) : Prop where
  states : w.HasStates
  selected : w.selectedSpecMode = .perStep → w.fixedSpecMode = .perStep
  armed : w.savePerStepSsm = false
  nSeqs : w.lastCaptureNSeqs = 0

theorem Unfixed.captureOk (h : Unfixed w) : CaptureOk w where
  states := h.states
  selected := h.selected
  armed := by
    intro harmed
    rw [h.armed] at harmed
    cases harmed
  captured := fun hn => absurd h.nSeqs hn

theorem Unfixed.fix (h : Unfixed w) (resolved : SpecMode) (maxTokens : Int) :
    Unfixed (w.fix resolved maxTokens).2 :=
  ⟨h.states, id, h.armed, h.nSeqs⟩

variable {w' : SpecState} {nPast : Int} {b : UBatch}

theorem Unfixed.prepared (h : Unfixed w) (hw : Prepared w w') : Unfixed w' := by
  refine ⟨?_, ?_, hw.armed.trans h.armed, hw.nSeqs.trans h.nSeqs⟩
  · rw [SpecState.HasStates, hw.slices]
    exact h.states
  · rw [hw.selected, hw.fixed]
    exact h.selected

theorem Unfixed.initShadows (h : Unfixed w) (alloc : SpecAlloc) (mode : SpecMode)
    (maxTokens : Int) : Unfixed (specCkptInitShadows alloc w mode maxTokens).2 := by
  have hprepared := h.prepared (prepared_shadows alloc w false)
  rw [specCkptInitShadows]
  simp only
  split
  · exact hprepared.fix _ _
  · split
    · exact hprepared
    · exact hprepared.fix _ _

/-- Resolving the mode of a checkpoint leaves open what was not fixed. -/
theorem Unfixed.resolve (h : Unfixed w) (alloc : SpecAlloc) (mode : SpecMode) (maxTokens : Int) :
    Unfixed (specCkptResolve alloc w mode maxTokens).2 := by
  have htried := h.prepared (prepared_tryPerStep alloc w
    (maxTokens * max 1 w.kvSelf.qnextSlots))
  cases mode with
  | perStep =>
    simp only [specCkptResolve]
    split
    · exact htried.fix _ _
    · exact htried
  | auto =>
    simp only [specCkptResolve]
    split
    · exact htried.fix _ _
    · exact htried.initShadows ..
  | gpuFallback => exact h.initShadows ..
  | none => exact h.fix _ _
  | cpu => exact h.fix _ _

/-- Once the mode is chosen, an init only disarms and selects it. -/
theorem CaptureOk.init (h : CaptureOk w) (alloc : SpecAlloc) (mode : SpecMode)
    (maxTokens : Int) : CaptureOk (llamaSpecCkptInit alloc w mode maxTokens).2 := by
  have hdisarmed : SameCapture w { w with savePerStepSsm := false, selectedSpecMode := .none } :=
    ⟨rfl, rfl, rfl, rfl, rfl, rfl, rfl⟩
  rw [llamaSpecCkptInit]
  simp only
  split
  · exact h.of_same hdisarmed rfl rfl (fun hno => nomatch hno) fun hno => nomatch hno
  · split
    · split
      · exact h.of_same hdisarmed rfl rfl (fun hno => nomatch hno) fun hno => nomatch hno
      · exact h.of_same ⟨rfl, rfl, rfl, rfl, rfl, rfl, rfl⟩ rfl rfl id fun hno => nomatch hno
    · rename_i hfixed
      -- the tensors may be allocated again, and so nothing may be recorded
      have hn : w.lastCaptureNSeqs = 0 := by
        by_contra hne
        rw [(h.captured hne).1] at hfixed
        exact hfixed fun hno => nomatch hno
      have hunfixed : Unfixed { w with savePerStepSsm := false, selectedSpecMode := .none } :=
        ⟨h.states, fun hno => (nomatch hno), rfl, hn⟩
      exact (hunfixed.resolve ..).captureOk

/-- Saving a checkpoint keeps the record right. -/
theorem CaptureOk.save (h : CaptureOk w) (alloc : SpecAlloc) (s : Nat) :
    CaptureOk (specCkptSave alloc w s).2 := by
  rw [specCkptSave]
  split
  · rename_i hmode
    exact h.of_same ⟨rfl, rfl, rfl, rfl, rfl, rfl, rfl⟩ rfl rfl h.selected fun _ => h.selected hmode
  · obtain ⟨allocated, heq⟩ := checkpointAllocShadows_eq alloc w false
    simp only
    split
    · rw [heq]
      exact h.of_same ⟨rfl, rfl, rfl, rfl, rfl, rfl, rfl⟩ rfl rfl h.selected h.armed
    · rw [heq]
      exact h.of_same ⟨rfl, rfl, rfl, rfl, rfl, rfl, rfl⟩ rfl rfl h.selected h.armed
  · exact h.of_same ⟨rfl, rfl, rfl, rfl, rfl, rfl, rfl⟩ rfl rfl h.selected h.armed
  · exact h

theorem CaptureOk.discard (h : CaptureOk w) : CaptureOk (specCkptDiscard w) := by
  have hno : SpecMode.none = .perStep → w.fixedSpecMode = .perStep := fun hno => nomatch hno
  rw [specCkptDiscard]
  split
  · exact h.of_same ⟨rfl, rfl, rfl, rfl, rfl, rfl, rfl⟩ rfl rfl hno fun hno => nomatch hno
  · exact h.of_same ⟨rfl, rfl, rfl, rfl, rfl, rfl, rfl⟩ rfl rfl hno h.armed
  · exact h.of_same ⟨rfl, rfl, rfl, rfl, rfl, rfl, rfl⟩ rfl rfl hno h.armed

theorem perStepRestore_eq (w : SpecState) (step : Int) (s : Nat) :
    ∃ sL, (perStepRestore w step s).2 = { w with sL := sL } := by
  rw [perStepRestore]
  split
  · exact ⟨w.sL, rfl⟩
  · exact ⟨_, rfl⟩

/-- A restore changes cells and states only. -/
theorem specCkptRestore_eq (h : specCkptRestore vReads w s nPast step = some (ok, w')) :
    ∃ base sL, w' = { w with base := base, sL := sL } := by
  rw [specCkptRestore] at h
  split at h
  · obtain ⟨sL, heq⟩ := perStepRestore_eq w step s
    simp only [heq] at h
    split at h
    · cases h
      exact ⟨w.base, sL, rfl⟩
    · cases h
      exact ⟨_, sL, rfl⟩
  · cases h
    rw [shadowRestore]
    split <;> exact ⟨_, _, rfl⟩
  · rw [Option.map_eq_some_iff] at h
    obtain ⟨base, -, heq⟩ := h
    cases heq
    exact ⟨base, _, rfl⟩
  · cases h
    exact ⟨w.base, w.sL, rfl⟩

theorem CaptureOk.restore (h : CaptureOk w)
    (hw' : specCkptRestore vReads w s nPast step = some (ok, w')) : CaptureOk w' := by
  obtain ⟨base, sL, rfl⟩ := specCkptRestore_eq hw'
  exact h.of_same ⟨rfl, rfl, rfl, rfl, rfl, rfl, rfl⟩ rfl rfl h.selected h.armed

/-! ### An ubatch -/

/-- The ubatch qualifies, and a token of it is there for each sequence and step. -/
theorem captures_fits (h : w.captures b = true) :
    ((pxaDecomposeSeqs b).seqs.length * (pxaDecomposeSeqs b).nSeqTokens : Int)
      ≤ w.perStepMaxAllocated := by
  simp only [SpecState.captures, Bool.and_eq_true, decide_eq_true_eq] at h
  obtain ⟨⟨⟨-, hfits⟩, hok⟩, huniform⟩ := h
  have hlength := pxaDecomposeSeqs_length hok huniform
  rw [← Int.natCast_mul, hlength]
  exact hfits

/-- An unarmed ubatch is executed next to the record. -/
theorem execute_unarmed (harmed : w.savePerStepSsm = false) (b : UBatch) :
    w.execute b = { w with
      sL := w.advanceStates w.executed.length b, executed := (b, false) :: w.executed } := by
  simp only [SpecState.execute, SpecState.record, harmed, Bool.false_eq_true, if_false,
    Bool.false_and]

/-- A captured ubatch leaves the record of its own decode. -/
theorem execute_captures (harmed : w.savePerStepSsm = true) (hcaptures : w.captures b = true) :
    Captured (w.execute b) w.executed.length := by
  have hagain : (w.record b).captures b = true := by
    simp only [SpecState.record, harmed, if_true, hcaptures]
    exact hcaptures
  have heq : w.execute b = { (w.record b).snapshot w.executed.length (pxaDecomposeSeqs b) with
      sL := ((w.record b).snapshot w.executed.length (pxaDecomposeSeqs b)).advanceStates
        w.executed.length b
      executed := (b, true) :: w.executed } := by
    simp only [SpecState.execute, harmed, hagain, Bool.and_self, if_true]
    simp only [SpecState.record, harmed, if_true, hcaptures, SpecState.snapshot]
  have hrecord : w.record b = { w with
      lastCaptureSeqs := (pxaDecomposeSeqs b).seqs
      lastCaptureNSeqs := (pxaDecomposeSeqs b).seqs.length
      lastCaptureSteps := (pxaDecomposeSeqs b).nSeqTokens } := by
    simp only [SpecState.record, harmed, if_true, hcaptures]
  rw [heq, hrecord]
  refine ⟨rfl, captures_fits hcaptures, ?_, ?_⟩
  · intro k sl hsl t b' e ht hb he
    simp only [SpecState.snapshot] at hsl ht hb ⊢
    rw [hsl]
    simp only
    rw [writeSteps_apply _ _ ht hb he, Nat.zero_add]
  · intro k sl hsl t b' e ht hb he
    simp only [SpecState.snapshot] at hsl ht hb ⊢
    rw [hsl]
    simp only
    rw [writeSteps_apply _ _ (by omega) hb he]

/-- The record stays that of the last captured ubatch. -/
theorem CaptureOk.execute (h : CaptureOk w) (b : UBatch) : CaptureOk (w.execute b) := by
  cases harmed : w.savePerStepSsm with
  | false =>
    rw [execute_unarmed harmed]
    refine ⟨h.states, h.selected, h.armed, fun hn => ?_⟩
    obtain ⟨hmode, u, hu, later, b', earlier, heq, hlater, hlength⟩ := h.captured hn
    refine ⟨hmode, u, hu.of_same ⟨rfl, rfl, rfl, rfl, rfl, rfl, rfl⟩,
      (b, false) :: later, b', earlier, ?_, ?_, hlength⟩
    · show (b, false) :: w.executed = _
      rw [heq]
      rfl
    · intro x hx
      rcases List.mem_cons.mp hx with rfl | hx
      · rfl
      · exact hlater x hx
  | true =>
    have hmode := h.armed harmed
    -- besides the record and the snapshots, nothing here depends on the capture
    have hfields : (w.execute b).slices = w.slices ∧
        (w.execute b).fixedSpecMode = w.fixedSpecMode ∧
        (w.execute b).executed = (b, true) :: w.executed := by
      simp only [SpecState.execute, SpecState.record, harmed, if_true]
      split <;> split <;> exact ⟨rfl, rfl, rfl⟩
    obtain ⟨hslices, hfixed, hexecuted⟩ := hfields
    have hstates : (w.execute b).HasStates := by
      rw [SpecState.HasStates, hslices]
      exact h.states
    refine ⟨hstates, fun _ => hfixed.trans hmode, fun _ => hfixed.trans hmode, fun hn => ?_⟩
    cases hcaptures : w.captures b with
    | true =>
      refine ⟨hfixed.trans hmode, w.executed.length, execute_captures harmed hcaptures, ?_⟩
      exact ⟨[], b, w.executed, hexecuted, fun x hx => (nomatch hx), rfl⟩
    | false =>
      -- an ubatch that does not qualify clears the record
      refine absurd ?_ hn
      simp only [SpecState.execute, SpecState.record, harmed, if_true, hcaptures,
        Bool.false_eq_true, if_false]
      split <;> rfl

/-! ### Runs -/

theorem specDecodeUbatch_captureOk (h : CaptureOk w) (hw' : specDecodeUbatch w b = some (ok, w')) :
    CaptureOk w' := by
  have hmoved : ∀ base sL, CaptureOk { w with base := base, sL := sL } := fun base sL =>
    h.of_same ⟨rfl, rfl, rfl, rfl, rfl, rfl, rfl⟩ rfl rfl h.selected h.armed
  rw [specDecodeUbatch, Option.map_eq_some_iff] at hw'
  obtain ⟨⟨ret, st⟩, -, heq⟩ := hw'
  simp only at heq
  split at heq
  · cases heq
    exact hmoved _ _
  · cases heq
    split
    · exact (hmoved _ _).execute b
    · exact hmoved _ _

/-- A decode keeps it, ubatch after ubatch. -/
theorem specDecode_captureOk {bs : List UBatch} {w : SpecState} (h : CaptureOk w)
    (hw' : specDecode w bs = some (ok, w')) : CaptureOk w' := by
  induction bs generalizing w with
  | nil =>
    cases hw'
    exact h
  | cons b bs ih =>
    rw [specDecode] at hw'
    cases hub : specDecodeUbatch w b with
    | none =>
      rw [hub] at hw'
      cases hw'
    | some r =>
      obtain ⟨ok₁, w₁⟩ := r
      have h₁ := specDecodeUbatch_captureOk h hub
      simp only [hub] at hw'
      split at hw'
      · exact ih h₁ hw'
      · cases hw'
        exact h₁

/-- Every call keeps it. -/
theorem specStep_captureOk {op : SpecOp} (h : CaptureOk w) (hw' : specStep vReads w op = some w') :
    CaptureOk w' := by
  cases op with
  | init alloc mode maxTokens =>
    cases hw'
    exact h.init ..
  | save alloc s =>
    cases hw'
    exact h.save ..
  | decode bs =>
    rw [specStep, Option.map_eq_some_iff] at hw'
    obtain ⟨⟨ok, w₁⟩, hdecode, rfl⟩ := hw'
    exact specDecode_captureOk h hdecode
  | restore s nPast step =>
    rw [specStep, Option.map_eq_some_iff] at hw'
    obtain ⟨⟨ok, w₁⟩, hrestore, rfl⟩ := hw'
    exact h.restore hrestore
  | discard =>
    cases hw'
    exact h.discard

theorem specRun_captureOk {ops : List SpecOp} {w : SpecState} (h : CaptureOk w)
    (hw' : specRun vReads w ops = some w') : CaptureOk w' := by
  induction ops generalizing w with
  | nil =>
    cases hw'
    exact h
  | cons op ops ih =>
    rw [specRun, Option.bind_eq_some_iff] at hw'
    obtain ⟨w₁, hstep, hrun⟩ := hw'
    exact ih (specStep_captureOk h hstep) hrun

/-! ### The restore -/

/-- The checks of a restore, when they pass. -/
theorem perStepRow_some {r : Nat} (h : perStepRow w step s = some r) :
    ∃ t b : Nat, step = t ∧ t + 1 < w.lastCaptureSteps ∧ w.lastCaptureNSeqs ≠ 0 ∧
      w.lastCaptureSeqs[b]? = some (s : Int) ∧ r = t * w.lastCaptureNSeqs + b ∧
      s < w.kvSelf.qnextSlots := by
  rw [perStepRow] at h
  split at h
  · cases h
  · rename_i hstep
    split at h
    · cases h
    · rename_i hrange
      split at h
      · cases h
      · rename_i hn
        split at h
        · cases h
        · rename_i hsteps
          cases hfind : w.lastCaptureSeqs.findIdx? fun r => r = (s : Int) with
          | none =>
            rw [hfind] at h
            cases h
          | some b =>
            simp only [hfind, Option.ite_none_right_eq_some, Option.some.injEq] at h
            obtain ⟨hb, hseq, -⟩ := List.findIdx?_eq_some_iff_getElem.mp hfind
            have hpos : 0 ≤ step := by
              by_contra hneg
              exact hstep (Or.inr (Int.not_le.mp hneg))
            refine ⟨step.toNat, b, (Int.toNat_of_nonneg hpos).symm, by omega, hn, ?_, h.2.symm, ?_⟩
            · rw [List.getElem?_eq_getElem hb, of_decide_eq_true hseq]
            · rw [Classical.not_not, KvCache.qnextSeqIdInRange, decide_eq_true_eq] at hrange
              omega

/-- The places of the row `s`, and all others. -/
theorem restoreRow_apply (sl : StateSlice) (sL ssm conv : Nat → Option Computed) (s r o : Nat) :
    restoreRow sl sL ssm conv s r o =
      if s * sl.width ≤ o ∧ o < s * sl.width + sl.convDim then
        conv (r * sl.convDim + (o - s * sl.width))
      else if s * sl.width + sl.convDim ≤ o ∧ o < s * sl.width + sl.convDim + sl.ssmDim then
        ssm (r * sl.ssmDim + (o - (s * sl.width + sl.convDim)))
      else sL o := by
  rw [restoreRow, Rows.blit_slice, Rows.blit_slice]

/-- The removal after a restore only takes the sequence out of cells at later positions. -/
theorem seqRm_from_changes {c : KvCache} {s p0 : Int} (hs : 0 ≤ s) {i : Nat}
    (h : (llamaKvCacheSeqRm c s p0 (-1)).2.cells i ≠ c.cells i) :
    i < c.size ∧ s ∈ (c.cells i).seqId ∧ p0 ≤ (c.cells i).pos := by
  rw [llamaKvCacheSeqRm] at h
  split at h
  · exact absurd rfl h
  · simp only [sweep_cells] at h
    split at h
    · rename_i hi
      rw [seqRmCell] at h
      have hneg : ¬ s < 0 := Int.not_lt.mpr hs
      by_cases hpos : rangeFrom p0 ≤ (c.cells i).pos ∧ (c.cells i).pos < rangeTo (-1)
      · by_cases hmem : s ∈ (c.cells i).seqId
        · refine ⟨hi, hmem, ?_⟩
          have hfrom := hpos.1
          rw [rangeFrom] at hfrom
          split at hfrom <;> omega
        · rw [if_pos hpos, if_neg (by simp [hneg, KvCell.hasSeqId, hmem])] at h
          exact absurd rfl h
      · rw [if_neg hpos] at h
        exact absurd rfl h
    · exact absurd rfl h

/-- What a per-step restore that is not refused owes. -/
structure RightRestore (w w' : SpecState) (s : Nat) (nPast step : Int) : Prop where
  /-- The rows that it copies are rows of the snapshot tensors, and of `s_l`. -/
  bounds : ∃ r, perStepRow w step s = some r ∧ ∀ sl ∈ w.slices,
    (r + 1) * sl.ssmDim ≤ (w.perStepMaxAllocated - 1) * sl.ssmDim ∧
    (r + 1) * sl.convDim ≤ w.perStepMaxAllocated * sl.convDim ∧
    (s + 1) * sl.width ≤ w.kvSelf.qnextSlots * sl.width
  /-- They were written for the sequence and the step, by the last ubatch that was executed. -/
  row : ∃ u, u + 1 = w.executed.length ∧ ∀ k sl, w.slices[k]? = some sl → ∀ e < sl.width,
    w'.sL k (s * sl.width + e) = some ⟨u, s, step.toNat, e⟩
  /-- The other rows of the states stay. -/
  rows : ∀ k sl, w.slices[k]? = some sl → ∀ o, o < s * sl.width ∨ (s + 1) * sl.width ≤ o →
    w'.sL k o = w.sL k o
  /-- The removal changes cells of the sequence after the accepted position only. -/
  cells : ∀ i, w'.kvSelf.cells i ≠ (stampPos w.kvSelf s (nPast + step)).cells i →
    i < w.kvSelf.size ∧ (s : Int) ∈ ((stampPos w.kvSelf s (nPast + step)).cells i).seqId ∧
      nPast + step < ((stampPos w.kvSelf s (nPast + step)).cells i).pos

/-- A call that returns true is one of per-step mode, and its checks have passed. -/
theorem specCkptRestore_true (h : specCkptRestore vReads w s nPast step = some (true, w')) :
    ∃ r, perStepRow w step s = some r ∧
      w'.kvSelf = (llamaKvCacheSeqRm (stampPos w.kvSelf s (nPast + step)) s (nPast + step + 1)
        (-1)).2 ∧
      ∀ k sl, w.slices[k]? = some sl →
        w'.sL k = restoreRow sl (w.sL k) (w.perStepSsm k) (w.perStepConv k) s r := by
  rw [specCkptRestore] at h
  split at h
  · cases hrow : perStepRow w step s with
    | none =>
      simp only [perStepRestore, hrow] at h
      cases h
    | some r =>
      simp only [perStepRestore, hrow, not_true_eq_false, if_false] at h
      cases h
      refine ⟨r, rfl, rfl, fun k sl hsl => ?_⟩
      simp only [SpecState.setSelf, hsl]
  · cases h
  · rw [Option.map_eq_some_iff] at h
    obtain ⟨base, -, heq⟩ := h
    cases heq
  · cases h

/-- The row that is brought back is that of the last ubatch that was executed armed. -/
theorem restored_row {r u : Nat} (hu : Captured w u) (hr : perStepRow w step s = some r) {k : Nat}
    {sl : StateSlice} (hsl : w.slices[k]? = some sl) {e : Nat} (he : e < sl.width) :
    restoreRow sl (w.sL k) (w.perStepSsm k) (w.perStepConv k) s r (s * sl.width + e)
      = some ⟨u, s, step.toNat, e⟩ := by
  obtain ⟨t, b, rfl, ht, -, hb, rfl, -⟩ := perStepRow_some hr
  have hblt : b < w.lastCaptureNSeqs := by
    rw [hu.seqs]
    exact (List.getElem?_eq_some_iff.mp hb).1
  have hseq : w.lastCaptureSeqs.getD b 0 = s := by
    rw [List.getD_eq_getElem?_getD, hb]
    rfl
  rw [StateSlice.width] at he
  rw [restoreRow_apply, Int.toNat_natCast]
  by_cases hconv : e < sl.convDim
  · rw [if_pos ⟨by omega, by omega⟩, Nat.add_sub_cancel_left,
      hu.conv k sl hsl t b e (by omega) hblt hconv, hseq]
  · have helem : s * sl.width + e - (s * sl.width + sl.convDim) = e - sl.convDim := by omega
    have hback : sl.convDim + (e - sl.convDim) = e := by omega
    rw [if_neg (by omega), if_pos ⟨by omega, by omega⟩, helem,
      hu.ssm k sl hsl t b (e - sl.convDim) ht hblt (by omega), hseq, hback]

/-- The rows are rows of the tensors. -/
theorem restored_bounds {r u : Nat} (hu : Captured w u) (hr : perStepRow w step s = some r)
    (sl : StateSlice) :
    (r + 1) * (sl.ssmDim : Int) ≤ (w.perStepMaxAllocated - 1) * sl.ssmDim ∧
      (r + 1) * (sl.convDim : Int) ≤ w.perStepMaxAllocated * sl.convDim ∧
      (s + 1) * sl.width ≤ w.kvSelf.qnextSlots * sl.width := by
  obtain ⟨t, b, -, ht, -, hb, rfl, hs⟩ := perStepRow_some hr
  have hblt : b < w.lastCaptureNSeqs := by
    rw [hu.seqs]
    exact (List.getElem?_eq_some_iff.mp hb).1
  -- the last step has no row of the delta-net state
  have hlast : t * w.lastCaptureNSeqs + b < (w.lastCaptureSteps - 1) * w.lastCaptureNSeqs :=
    step_lt (by omega) hblt
  have htotal : (w.lastCaptureSteps - 1) * w.lastCaptureNSeqs + w.lastCaptureNSeqs
      = w.lastCaptureNSeqs * w.lastCaptureSteps := by
    rw [← Nat.succ_mul, Nat.succ_eq_add_one, Nat.sub_add_cancel (by omega), Nat.mul_comm]
  have hfits := hu.fits
  rw [← Int.natCast_mul, ← htotal] at hfits
  refine ⟨?_, ?_, Nat.mul_le_mul_right _ hs⟩
  · exact Int.mul_le_mul_of_nonneg_right (by omega) (Int.natCast_nonneg _)
  · exact Int.mul_le_mul_of_nonneg_right (by omega) (Int.natCast_nonneg _)

end

/-! ### The claim -/

/-- Nothing is prepared, armed or captured yet. -/
structure SpecFresh (w : SpecState) : Prop where
  states : w.HasStates
  selected : w.selectedSpecMode = .none
  fixed : w.fixedSpecMode = .none
  armed : w.savePerStepSsm = false
  nSeqs : w.lastCaptureNSeqs = 0
  executed : w.executed = []

theorem SpecFresh.captureOk {w : SpecState} (h : SpecFresh w) : CaptureOk w := by
  refine Unfixed.captureOk ⟨h.states, fun hmode => ?_, h.armed, h.nSeqs⟩
  rw [h.selected] at hmode
  cases hmode

/-- In every run, a per-step restore that is not refused is right exactly when the last ubatch was
executed armed. -/
theorem per_step_restore_right_iff {vReads : Bool} {w₀ w w' : SpecState} {ops : List SpecOp}
    (hfresh : SpecFresh w₀) (hrun : specRun vReads w₀ ops = some w) {s : Nat} {nPast step : Int}
    (h : specCkptRestore vReads w s nPast step = some (true, w')) :
    RightRestore w w' s nPast step ↔ w.lastArmed := by
  have hok := specRun_captureOk hfresh.captureOk hrun
  obtain ⟨r, hr, hcells, hsL⟩ := specCkptRestore_true h
  obtain ⟨t, b, -, -, hn, -, -, -⟩ := perStepRow_some hr
  obtain ⟨-, u, hu, hlast⟩ := hok.captured hn
  rw [SpecState.lastArmed, ← hlast.eq_iff]
  constructor
  · intro hright
    -- compare one float of the row with what the restore brought back
    obtain ⟨u', hu', hrow⟩ := hright.row
    obtain ⟨k, sl, hsl, hwidth⟩ := hok.states
    have hfloat := hrow k sl hsl 0 hwidth
    rw [hsL k sl hsl, restored_row hu hr hsl hwidth] at hfloat
    have heq : u = u' := congrArg Computed.ubatch (Option.some.inj hfloat)
    rw [heq, hu']
  · intro hu'
    refine ⟨⟨r, hr, fun sl _ => restored_bounds hu hr sl⟩,
      ⟨u, hu', fun k sl hsl e he => ?_⟩, fun k sl hsl o ho => ?_, fun i hi => ?_⟩
    · rw [hsL k sl hsl, restored_row hu hr hsl he]
    · have hend : (s + 1) * sl.width = s * sl.width + sl.convDim + sl.ssmDim := by
        rw [Nat.succ_mul, StateSlice.width]
        omega
      rw [hend] at ho
      rw [hsL k sl hsl, restoreRow_apply, if_neg (by omega), if_neg (by omega)]
    · rw [hcells] at hi
      obtain ⟨hlt, hmem, hpos⟩ := seqRm_from_changes (Int.natCast_nonneg s) hi
      refine ⟨?_, hmem, by omega⟩
      have hsize : (stampPos w.kvSelf s (nPast + step)).size = w.kvSelf.size := by
        rw [stampPos]
        split <;> rfl
      rw [← hsize]
      exact hlt

/-- A hybrid context with one sequence and four cells. -/
def stepContext : KvContext where
  kvSelf := llamaKvCacheInit false true 1 4
  kvSwa := llamaKvCacheInit false false 0 0
  swaKvActive := false
  nSwa := 0
  swaKvGuard := 0
  flashAttn := false
  rope := true
  canShift := true
  maxMoves := 1

/-- One layer, with a float of each state. -/
def freshSteps : SpecState where
  base := { st := { ctx := stepContext, rows := ⟨fun _ => 0, fun _ => 0⟩ }
            cpuStateBySeq := fun _ => none }
  slices := [⟨1, 1⟩]
  dimsOk := true
  sL := fun _ _ => none
  cpuRow := fun _ _ => []
  shadowConvOnly := none
  shadow := none
  savePerStepSsm := false
  perStepTensors := false
  perStepMaxAllocated := 0
  perStepSsm := fun _ _ => none
  perStepConv := fun _ _ => none
  lastCaptureSeqs := []
  lastCaptureNSeqs := 0
  lastCaptureSteps := 0
  selectedSpecMode := .none
  fixedSpecMode := .none
  fixedMaxTokens := 0
  executed := []

theorem specFresh_freshSteps : SpecFresh freshSteps :=
  ⟨⟨0, ⟨1, 1⟩, rfl, by decide⟩, rfl, rfl, rfl, rfl, rfl⟩

/-- A token and a draft are decoded armed. -/
def draftRun : List SpecOp :=
  [.init ⟨true, true, true, true⟩ .perStep 2, .save ⟨true, true, true, true⟩ 0,
    .decode [[⟨0, [0]⟩, ⟨1, [0]⟩]]]

/-- The checkpoint is discarded, a token is decoded, and a checkpoint is prepared, but not saved. -/
def staleRun : List SpecOp :=
  draftRun ++ [.discard, .decode [[⟨2, [0]⟩]], .init ⟨true, true, true, true⟩ .perStep 2]

theorem per_step_restore_right_draft : ∃ w w', specRun true freshSteps draftRun = some w ∧
    specCkptRestore true w 0 0 0 = some (true, w') ∧ RightRestore w w' 0 0 0 := by
  have hruns : ((specRun true freshSteps draftRun).bind fun w =>
      (specCkptRestore true w 0 0 0).map fun r => (r.1, w.executed.head?))
        = some (true, some ([⟨0, [0]⟩, ⟨1, [0]⟩], true)) := by
    decide +kernel
  obtain ⟨w, hw, hmap⟩ := Option.bind_eq_some_iff.mp hruns
  obtain ⟨⟨ok, w'⟩, hrestore, heq⟩ := Option.map_eq_some_iff.mp hmap
  obtain ⟨rfl, hhead⟩ := Prod.mk.inj heq
  exact ⟨w, w', hw, hrestore,
    (per_step_restore_right_iff specFresh_freshSteps hw hrestore).mpr ⟨_, hhead⟩⟩

/-- The restore after the unarmed token is not refused, and brings back what the first ubatch
computed. -/
theorem per_step_restore_stale :
    ¬ ∀ (vReads : Bool) (w₀ w w' : SpecState) (ops : List SpecOp) (s : Nat) (nPast step : Int),
      SpecFresh w₀ → specRun vReads w₀ ops = some w →
      specCkptRestore vReads w s nPast step = some (true, w') → RightRestore w w' s nPast step := by
  intro h
  have hruns : ((specRun true freshSteps staleRun).bind fun w =>
      (specCkptRestore true w 0 0 0).map fun r =>
        (r.1, w.executed.length, r.2.sL 0 0)) = some (true, 2, some ⟨0, 0, 0, 0⟩) := by
    decide +kernel
  obtain ⟨w, hw, hmap⟩ := Option.bind_eq_some_iff.mp hruns
  obtain ⟨⟨ok, w'⟩, hrestore, heq⟩ := Option.map_eq_some_iff.mp hmap
  simp only [Prod.mk.injEq] at heq
  obtain ⟨rfl, hlength, hfloat⟩ := heq
  have hslices : ((specRun true freshSteps staleRun).map SpecState.slices) = some [⟨1, 1⟩] := rfl
  rw [hw, Option.map_some, Option.some.injEq] at hslices
  obtain ⟨u, hu, hrow⟩ := (h true freshSteps w w' staleRun 0 0 0 specFresh_freshSteps hw
    hrestore).row
  have hfirst := hrow 0 ⟨1, 1⟩ (by rw [hslices]; rfl) 0 (by decide)
  rw [Nat.zero_mul, Nat.add_zero, hfloat, Option.some.injEq, Computed.mk.injEq] at hfirst
  omega

end PxqLlama.Kv
