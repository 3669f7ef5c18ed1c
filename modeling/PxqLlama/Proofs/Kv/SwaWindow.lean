import PxqLlama.Proofs.Kv.SwaEvict
import PxqLlama.Proofs.Kv.CellMax

/-!
# `Proofs.Kv.SwaWindow`: the sliding cache over a run

A run is a list of ubatches, in which sequences enter and leave (`SwaOp`). The positions of a
sequence are consecutive over its stay (`SwaState.Admits`). `swaStep_ok` is the step lemma
of the invariant, and `SwaRun.ok` the run lemma.

`swa_window_resident` is about the whole run. When the mask of an ubatch is filled, each placed
token in the window of a query, of this ubatch or a later one, is in exactly one cell. And a
placement frees a cell only when all its sequences are past it.
-/

namespace PxqLlama.Kv

/-! ### Runs -/

/-- What happens in a run. -/
inductive SwaOp
  | decode (b : UBatch)
  /-- `llama_kv_cache_seq_rm(ctx, s, -1, -1)`. -/
  | leave (s : Int)
  | defrag

/-- A context, and the tokens placed for the sequences that are there. -/
structure SwaState where
  ctx : KvContext
  placed : List Token

/-- One step. A decode that fails places nothing. -/
def swaStep (st : SwaState) : SwaOp → Option SwaState
  | .decode b => (decodeUbatch st.ctx b).map fun (ret, ctx) =>
      { ctx := ctx, placed := if ret = 0 then st.placed ++ b else st.placed }
  | .leave s => some
      { ctx := (kvSeqRm st.ctx s (-1) (-1)).2, placed := st.placed.map fun t => t.dropSeq s }
  | .defrag => some { st with ctx := kvDefrag st.ctx }

/-- What the caller does: the positions of each sequence go on from the placed ones. -/
def SwaState.Admits (st : SwaState) : SwaOp → Prop
  | .decode b => ∀ s, Consecutive (positionsOf s (st.placed ++ b))
  | .leave s => 0 ≤ s ∧ ∀ q ∈ positionsOf s st.placed, q < posMax
  | .defrag => True

/-- A run. -/
inductive SwaRun : SwaState → List SwaOp → SwaState → Prop
  | nil (st : SwaState) : SwaRun st [] st
  | cons {st st' last : SwaState} {op : SwaOp} {ops : List SwaOp} (hadmits : st.Admits op)
      (hstep : swaStep st op = some st') (hrest : SwaRun st' ops last) :
      SwaRun st (op :: ops) last

/-- The positions of a sequence that are queried before it leaves. -/
def queries (s : Int) : List SwaOp → List Int
  | [] => []
  | .decode b :: ops => positionsOf s b ++ queries s ops
  | .leave s' :: ops => if s' = s then [] else queries s ops
  | .defrag :: ops => queries s ops

/-! ### Queries lie beyond the placed tokens -/

/-- Every query of a run lies beyond the tokens of its sequence that are placed before it. -/
theorem SwaRun.queries_beyond {st last : SwaState} {ops : List SwaOp} (h : SwaRun st ops last)
    {s p : Int} (hp : p ∈ queries s ops) : Beyond st.placed s p := by
  induction h with
  | nil st => cases hp
  | @cons st st' last op ops hadmits hstep _ ih =>
    cases op with
    | decode b =>
      rw [queries, List.mem_append] at hp
      rcases hp with hnow | hlater
      · exact (hadmits s).beyond hnow
      · -- A later query lies beyond what is placed then, and that is no less.
        have hbeyond := ih hlater
        simp only [swaStep, Option.map_eq_some_iff] at hstep
        obtain ⟨⟨ret, ctx⟩, -, rfl⟩ := hstep
        by_cases hret : ret = 0
        · simp only [hret, if_true] at hbeyond
          exact hbeyond.of_append
        · simpa only [hret, if_false] using hbeyond
    | leave s' =>
      rw [queries] at hp
      split at hp
      · cases hp
      · rename_i hne
        have hbeyond := ih hp
        cases hstep
        intro q hq
        -- Another sequence left; the tokens of `s` are the same.
        apply hbeyond q
        rw [positionsOf_dropSeq_of_ne (fun h => hne h.symm)]
        exact hq
    | defrag =>
      cases hstep
      exact ih hp

/-! ### The step lemma -/

/-- The invariant of a run. -/
structure SwaOk (nSwa : Nat) (st : SwaState) : Prop where
  active : st.ctx.swaKvActive = true
  width : st.ctx.nSwa = nSwa
  recurrent : st.ctx.kvSwa.recurrent = false
  nonneg : ∀ s, ∀ q ∈ positionsOf s st.placed, 0 ≤ q
  holds : Holds nSwa st.placed st.ctx.kvSwa

/-- The parts of a context that say how the sliding cache works. -/
structure SameSwa (ctx ctx' : KvContext) : Prop where
  active : ctx'.swaKvActive = ctx.swaKvActive
  nSwa : ctx'.nSwa = ctx.nSwa
  flashAttn : ctx'.flashAttn = ctx.flashAttn

theorem clearShift_kept (nSwa : Nat) (placed : List Token) (c : KvCache) :
    Kept nSwa placed c (clearShift c) := by
  refine Kept.of_cells rfl rfl fun i hi => ?_
  have hcell : (clearShift c).cells i = { c.cells i with delta := 0 } := if_pos hi
  rw [hcell]
  exact ⟨rfl, fun _ => rfl⟩

variable {ctx : KvContext} {nSwa : Nat}

/-- The update changes no token of the sliding cache. -/
theorem update_swa {ctx' : KvContext} {ret : Nat} (placed : List Token)
    (h : llamaKvCacheUpdate ctx = some (ret, ctx')) :
    SameSwa ctx ctx' ∧ Kept ctx.nSwa placed ctx.kvSwa ctx'.kvSwa := by
  have hrefl : Kept ctx.nSwa placed ctx.kvSwa ctx.kvSwa :=
    Kept.of_cells rfl rfl fun _ _ => ⟨rfl, fun _ => rfl⟩
  rcases llamaKvCacheUpdate_cases h with ⟨-, rfl⟩ | ⟨-, kvSelf, kvSwa, rfl, -, -, hswa⟩
  · exact ⟨⟨rfl, rfl, rfl⟩, hrefl⟩
  · refine ⟨⟨rfl, rfl, rfl⟩, ?_⟩
    rcases hswa with rfl | rfl
    · exact hrefl
    · exact clearShift_kept _ _ _

variable {placed : List Token} {b : UBatch}

/-- The sliding part of a placement: eviction at the guard, and once more at guard zero. -/
theorem placeSwa_cases (ctx : KvContext) (hactive : ctx.swaKvActive = true)
    (hc : Holds ctx.nSwa placed ctx.kvSwa)
    (hb : ∀ s, Consecutive (positionsOf s (placed ++ b))) :
    ((placeSwa ctx b).1 = false ∧ Kept ctx.nSwa placed ctx.kvSwa (placeSwa ctx b).2) ∨
      ((placeSwa ctx b).1 = true ∧
        ∃ c₁, Kept ctx.nSwa placed ctx.kvSwa c₁ ∧ TokensAt c₁ (placeSwa ctx b).2 b) := by
  rw [placeSwa, if_pos hactive, swaPlace]
  generalize hfirst : swaTry ctx.kvSwa ctx.nSwa b ctx.swaKvGuard = r
  rcases swaTry_cases hc hb _ hfirst with ⟨hno, hkept⟩ | ⟨hyes, c₁, hkept, hat⟩
  · -- the second attempt starts from what the first eviction left
    simp only [hno, Bool.false_eq_true, if_false]
    generalize hsecond : swaTry r.2 ctx.nSwa b 0 = r'
    rcases swaTry_cases (hkept.holds hc) hb _ hsecond with ⟨hno', hkept'⟩ | ⟨hyes', c₁, hkept', hat⟩
    · exact Or.inl ⟨hno', hkept.trans hkept'⟩
    · exact Or.inr ⟨hyes', c₁, hkept.trans hkept', hat⟩
  · obtain ⟨found, c₂⟩ := r
    cases hyes
    exact Or.inr ⟨rfl, c₁, hkept, hat⟩

theorem swaInputs_eq (ctx : KvContext) (b : UBatch) (hactive : ctx.swaKvActive = true) :
    swaInputs ctx b = setSwaN (placeSwa ctx b).2 ctx.pad := by
  rw [swaInputs, if_pos hactive]

theorem swaUndone_eq (ctx : KvContext) (b : UBatch) (hactive : ctx.swaKvActive = true) :
    swaUndone ctx b
      = llamaKvSwaReleaseSlot (setSwaN (placeSwa ctx b).2 ctx.pad) (placeSwa ctx b).2.head
        b.length := by
  rw [swaUndone, if_pos hactive, swaInputs_eq ctx b hactive]

/-- The placement of an ubatch leaves the sliding cache with what eviction kept, and with the
ubatch when it succeeds. -/
theorem placeUbatch_swa (ctx : KvContext) (hactive : ctx.swaKvActive = true)
    (hc : Holds ctx.nSwa placed ctx.kvSwa)
    (hb : ∀ s, Consecutive (positionsOf s (placed ++ b))) :
    SameSwa ctx (placeUbatch ctx b).2 ∧
      (((placeUbatch ctx b).1 ≠ 0 ∧ Kept ctx.nSwa placed ctx.kvSwa (placeUbatch ctx b).2.kvSwa) ∨
        ((placeUbatch ctx b).1 = 0 ∧ ∃ c₁ c₂, Kept ctx.nSwa placed ctx.kvSwa c₁ ∧
          TokensAt c₁ c₂ b ∧ (placeUbatch ctx b).2.kvSwa = setSwaN c₂ ctx.pad)) := by
  simp only [placeUbatch]
  have hctx₁ : ({ ctx with kvSelf := rewindHead ctx.kvSelf b.length } : KvContext).swaKvActive
      = true := hactive
  rcases placeSwa_cases _ hctx₁ hc hb with ⟨hno, hkept⟩ | ⟨hyes, c₁, hkept, hat⟩
  · rw [if_pos hno]
    exact ⟨⟨rfl, rfl, rfl⟩, Or.inl ⟨Nat.one_ne_zero, hkept⟩⟩
  · rw [if_neg (by rw [hyes]; decide)]
    split
    · -- no slot in `kv_self`: the placement is undone
      refine ⟨⟨rfl, rfl, rfl⟩, Or.inl ⟨Nat.one_ne_zero, hkept.trans ?_⟩⟩
      show Kept _ _ _ (swaUndone _ b)
      rw [swaUndone_eq _ b hctx₁]
      exact hat.release (hkept.holds hc) rfl rfl rfl hb
    · exact ⟨⟨rfl, rfl, rfl⟩, Or.inr ⟨rfl, c₁, _, hkept, hat, swaInputs_eq _ b hctx₁⟩⟩

/-- One ubatch, up to where the inputs of the graph are set. -/
theorem decodeInputs_swa {ctx' : KvContext} {ret : Nat} (hactive : ctx.swaKvActive = true)
    (hc : Holds ctx.nSwa placed ctx.kvSwa) (hb : ∀ s, Consecutive (positionsOf s (placed ++ b)))
    (h : decodeInputs ctx b = some (ret, ctx')) :
    SameSwa ctx ctx' ∧
      ((ret ≠ 0 ∧ Kept ctx.nSwa placed ctx.kvSwa ctx'.kvSwa) ∨
        (ret = 0 ∧ ∃ c₁ c₂, Kept ctx.nSwa placed ctx.kvSwa c₁ ∧
          TokensAt c₁ c₂ b ∧ ctx'.kvSwa = setSwaN c₂ ctx'.pad)) := by
  rcases decodeInputs_cases h with ⟨hret, hupdate⟩ | ⟨ctx₁, hupdate, hplace⟩
  · obtain ⟨hsame, hkept⟩ := update_swa placed hupdate
    exact ⟨hsame, Or.inl ⟨hret, hkept⟩⟩
  · obtain ⟨hsame, hkept⟩ := update_swa placed hupdate
    obtain ⟨hsame', hswa⟩ := placeUbatch_swa ctx₁ (hsame.active.trans hactive)
      (by rw [hsame.nSwa]; exact hkept.holds hc) hb
    rw [hplace, hsame.nSwa] at hswa
    rw [hplace] at hsame'
    refine ⟨⟨hsame'.active.trans hsame.active, hsame'.nSwa.trans hsame.nSwa,
      hsame'.flashAttn.trans hsame.flashAttn⟩, ?_⟩
    rcases hswa with ⟨hret, hkept'⟩ | ⟨hret, c₁, c₂, hkept', hat, hswa⟩
    · exact Or.inl ⟨hret, hkept.trans hkept'⟩
    · have hpad : ctx'.pad = ctx₁.pad := by
        rw [KvContext.pad, KvContext.pad, hsame'.flashAttn]
      rw [← hpad] at hswa
      exact Or.inr ⟨hret, c₁, c₂, hkept.trans hkept', hat, hswa⟩

/-- A sequence that leaves: once for the call, and once more when its window has a hole. -/
theorem kvSeqRm_swa (hactive : ctx.swaKvActive = true) {s : Int} (hs : 0 ≤ s) :
    SameSwa ctx (kvSeqRm ctx s (-1) (-1)).2 ∧
      ((kvSeqRm ctx s (-1) (-1)).2.kvSwa = (llamaKvCacheSeqRm ctx.kvSwa s (-1) (-1)).2 ∨
        (kvSeqRm ctx s (-1) (-1)).2.kvSwa
          = (llamaKvCacheSeqRm (llamaKvCacheSeqRm ctx.kvSwa s (-1) (-1)).2 s (-1) (-1)).2) := by
  simp only [kvSeqRm, hactive, if_true, hs, coverageCheck]
  split
  · exact ⟨⟨hactive.symm, rfl, rfl⟩, Or.inl rfl⟩
  · exact ⟨⟨hactive.symm, rfl, rfl⟩, Or.inr rfl⟩

/-- Setting `n` changes no cell. -/
theorem Holds.setSwaN {c : KvCache} (hc : Holds nSwa placed c) (pad : Nat) :
    Holds nSwa placed (setSwaN c pad) :=
  ⟨hc.free, hc.mem, hc.unique, hc.window⟩

/-- A sequence that leaves takes only its own tokens. -/
theorem Holds.leave {c : KvCache} {s : Int} (hc : Holds nSwa placed c)
    (hrec : c.recurrent = false) (hs : 0 ≤ s)
    (hrange : ∀ q ∈ positionsOf s placed, 0 ≤ q ∧ q < posMax) :
    Holds nSwa (placed.map fun t => t.dropSeq s)
      (llamaKvCacheSeqRm (llamaKvCacheSeqRm c s (-1) (-1)).2 s (-1) (-1)).2 := by
  have h := (hc.seqRm hrec hs hrange).seqRm (by rw [(seqRm_shape c s (-1) (-1)).2, hrec]) hs
    (by
      intro q hq
      rw [positionsOf_dropSeq_self] at hq
      cases hq)
  have hdrop : (placed.map fun t => t.dropSeq s).map (fun t => t.dropSeq s)
      = placed.map fun t => t.dropSeq s := by
    simp [Token.dropSeq, Function.comp_def]
  rw [hdrop] at h
  exact h

/-- One step keeps the invariant. -/
theorem swaStep_ok {st st' : SwaState} {op : SwaOp} (h : SwaOk nSwa st) (hadmits : st.Admits op)
    (hstep : swaStep st op = some st') : SwaOk nSwa st' := by
  obtain ⟨hactive, rfl, hrec, hnonneg, hc⟩ := h
  cases op with
  | decode b =>
    simp only [swaStep, Option.map_eq_some_iff] at hstep
    obtain ⟨⟨ret, ctx'⟩, hdecode, rfl⟩ := hstep
    obtain ⟨ctx₁, head, hinputs, rfl⟩ := decodeUbatch_cases hdecode
    obtain ⟨hsame, hcases⟩ := decodeInputs_swa hactive hc hadmits hinputs
    rcases hcases with ⟨hret, hkept⟩ | ⟨hret, c₁, c₂, hkept, hat, hswa⟩
    · -- a failed decode: nothing was placed
      simp only [hret, if_false]
      exact ⟨hsame.active.trans hactive, hsame.nSwa, hkept.recurrent.trans hrec, hnonneg,
        hkept.holds hc⟩
    · simp only [hret, if_true]
      refine ⟨hsame.active.trans hactive, hsame.nSwa, ?_, fun s q hq => (hadmits s).nonneg hq, ?_⟩
      · show ctx₁.kvSwa.recurrent = false
        rw [hswa]
        exact (hat.recurrent.trans hkept.recurrent).trans hrec
      · show Holds _ _ ctx₁.kvSwa
        rw [hswa]
        exact (hat.holds (hkept.holds hc) hadmits).setSwaN _
  | leave s =>
    obtain ⟨hs, hmax⟩ := hadmits
    cases hstep
    have hrange : ∀ q ∈ positionsOf s st.placed, 0 ≤ q ∧ q < posMax :=
      fun q hq => ⟨hnonneg s q hq, hmax q hq⟩
    have hnonneg' : ∀ s', ∀ q ∈ positionsOf s' (st.placed.map fun t => t.dropSeq s), 0 ≤ q := by
      intro s' q hq
      by_cases hne : s' = s
      · rw [hne, positionsOf_dropSeq_self] at hq
        cases hq
      · rw [positionsOf_dropSeq_of_ne hne] at hq
        exact hnonneg s' q hq
    obtain ⟨hsame, hswa⟩ := kvSeqRm_swa hactive hs
    have hrec' := (seqRm_shape st.ctx.kvSwa s (-1) (-1)).2
    refine ⟨hsame.active.trans hactive, hsame.nSwa, ?_, hnonneg', ?_⟩
    · rcases hswa with hswa | hswa
      · rw [hswa, hrec', hrec]
      · rw [hswa, (seqRm_shape _ s (-1) (-1)).2, hrec', hrec]
    · rcases hswa with hswa | hswa
      · rw [hswa]
        exact hc.seqRm hrec hs hrange
      · rw [hswa]
        exact hc.leave hrec hs hrange
  | defrag =>
    cases hstep
    exact ⟨hactive, rfl, hrec, hnonneg, hc⟩

/-- A whole run keeps the invariant. -/
theorem SwaRun.ok {st last : SwaState} {ops : List SwaOp} (h : SwaRun st ops last)
    (hok : SwaOk nSwa st) : SwaOk nSwa last := by
  induction h with
  | nil st => exact hok
  | cons hadmits hstep _ ih => exact ih (swaStep_ok hok hadmits hstep)

/-- A context with a fresh sliding cache. -/
structure SwaFresh (ctx : KvContext) : Prop where
  active : ctx.swaKvActive = true
  recurrent : ctx.kvSwa.recurrent = false
  cells : ∀ i < ctx.kvSwa.size, ctx.kvSwa.cells i = {}

theorem SwaFresh.ok (h : SwaFresh ctx) : SwaOk ctx.nSwa { ctx := ctx, placed := [] } := by
  refine ⟨h.active, rfl, h.recurrent, fun s q hq => absurd hq List.not_mem_nil, ?_⟩
  have hempty : ∀ i < ctx.kvSwa.size, (ctx.kvSwa.cells i).seqId = ∅ := by
    intro i hi
    rw [h.cells i hi]
  exact {
    free := fun i hi _ => hempty i hi
    mem := by
      intro i hi s hs
      rw [hempty i hi] at hs
      exact absurd hs (Finset.notMem_empty s)
    unique := by
      intro i hi j _ s hs
      rw [hempty i hi] at hs
      exact absurd hs (Finset.notMem_empty s)
    window := fun s p _ q hq => absurd hq List.not_mem_nil }

/-! ### The window of every query -/

/-- The cell holds the token of the sequence at the position. -/
def Carries (cell : KvCell) (s q : Int) : Prop := s ∈ cell.seqId ∧ cell.pos = q

/-- A placed ubatch finds each token of a window in one cell, which is below `kv_swa.n`. -/
theorem decodeInputs_resident {ctx' : KvContext} (hactive : ctx.swaKvActive = true)
    (hc : Holds ctx.nSwa placed ctx.kvSwa) (hb : ∀ s, Consecutive (positionsOf s (placed ++ b)))
    (h : decodeInputs ctx b = some (0, ctx')) {s p q : Int} (hp : Beyond placed s p)
    (hq : q ∈ positionsOf s (placed ++ b)) (hwin : p - q < ctx.nSwa) :
    ∃ i < ctx'.kvSwa.n, Carries (ctx'.kvSwa.cells i) s q ∧
      ∀ j < ctx'.kvSwa.size, Carries (ctx'.kvSwa.cells j) s q → j = i := by
  obtain ⟨-, hcases⟩ := decodeInputs_swa hactive hc hb h
  rcases hcases with ⟨hne, -⟩ | ⟨-, c₁, c₂, hkept, hat, hswa⟩
  · exact absurd rfl hne
  · have hholds := hat.holds (hkept.holds hc) hb
    obtain ⟨i, hi, hs, hpos⟩ := hat.resident (hkept.holds hc) hp hq hwin
    rw [hswa]
    -- the cell is live, so `n` covers it
    have hlive : (c₂.cells i).live = true := by
      have := (hb s).nonneg hq
      rw [KvCell.live, Bool.and_eq_true, decide_eq_true_eq, KvCell.isEmpty, Bool.not_eq_true',
        decide_eq_false_iff_not]
      exact ⟨by omega, Finset.ne_empty_of_mem hs⟩
    refine ⟨i, covers_setSwaN c₂ _ i hi hlive, ⟨hs, hpos⟩, fun j hj hcarries => ?_⟩
    exact hholds.unique j hj i hi s hcarries.1 hs (hcarries.2.trans hpos.symm)

/-- **No visible token is lost.** In every run from a fresh sliding cache, at each ubatch `b`:
when its mask is filled, each placed token that a query of its sequence, in `b` or later, has
in its window is in a cell below `kv_swa.n`, and in no other cell of the cache. And whatever
the outcome, a cell that had sequences still has them at its position, or every later query
of every one of them is past its window. -/
theorem swa_window_resident {ctx₀ ctx' : KvContext} {pre post : List SwaOp} {b : UBatch}
    {st last : SwaState} {ret : Nat} (hfresh : SwaFresh ctx₀)
    (hpre : SwaRun { ctx := ctx₀, placed := [] } pre st)
    (hrun : SwaRun st (.decode b :: post) last)
    (hdecode : decodeInputs st.ctx b = some (ret, ctx')) :
    (ret = 0 → ∀ s, ∀ q ∈ positionsOf s (st.placed ++ b), ∀ p ∈ queries s (.decode b :: post),
      p - q < ctx₀.nSwa →
        ∃ i < ctx'.kvSwa.n, Carries (ctx'.kvSwa.cells i) s q ∧
          ∀ j < ctx'.kvSwa.size, Carries (ctx'.kvSwa.cells j) s q → j = i) ∧
    (∀ i < st.ctx.kvSwa.size, (st.ctx.kvSwa.cells i).seqId.Nonempty →
      ((ctx'.kvSwa.cells i).pos = (st.ctx.kvSwa.cells i).pos ∧
        (ctx'.kvSwa.cells i).seqId = (st.ctx.kvSwa.cells i).seqId) ∨
      ∀ s ∈ (st.ctx.kvSwa.cells i).seqId, ∀ p ∈ queries s (.decode b :: post),
        (ctx₀.nSwa : Int) ≤ p - (st.ctx.kvSwa.cells i).pos) := by
  obtain ⟨hactive, hwidth, -, -, hc⟩ := hpre.ok hfresh.ok
  -- The queries of `b` and of all later ubatches lie beyond what is placed before `b`.
  have hbeyond : ∀ s, ∀ p ∈ queries s (.decode b :: post), Beyond st.placed s p :=
    fun s p hp => hrun.queries_beyond hp
  obtain _ | ⟨hb, -, -⟩ := hrun
  rw [← hwidth] at hc ⊢
  constructor
  · rintro rfl s q hq p hp hwin
    exact decodeInputs_resident hactive hc hb hdecode (hbeyond s p hp) hq hwin
  · obtain ⟨-, hcases⟩ := decodeInputs_swa hactive hc hb hdecode
    intro i hi hne
    have hpast : ∀ {c : KvCache}, Kept st.ctx.nSwa st.placed st.ctx.kvSwa c →
        ((c.cells i).pos = (st.ctx.kvSwa.cells i).pos ∧
          (c.cells i).seqId = (st.ctx.kvSwa.cells i).seqId) ∨
        ∀ s ∈ (st.ctx.kvSwa.cells i).seqId, ∀ p ∈ queries s (.decode b :: post),
          (st.ctx.nSwa : Int) ≤ p - (st.ctx.kvSwa.cells i).pos := by
      intro c hkept
      rcases hkept.cell i hi with ⟨hseq, hpos⟩ | ⟨-, hpast⟩
      · exact Or.inl ⟨hpos hne, hseq⟩
      · exact Or.inr fun s hs p hp => hpast s hs p (hbeyond s p hp)
    rcases hcases with ⟨-, hkept⟩ | ⟨-, c₁, c₂, hkept, hat, hswa⟩
    · exact hpast hkept
    · rcases hpast hkept with ⟨hpos, hseq⟩ | hgone
      · -- a cell that still has its sequences is not in the slot
        obtain ⟨s, hs⟩ := hne
        have hheld : c₂.cells i = c₁.cells i :=
          hat.cell_held (hkept.holds hc) (by rw [hkept.size]; exact hi) (by rw [hseq]; exact hs)
        left
        rw [hswa]
        show (c₂.cells i).pos = _ ∧ (c₂.cells i).seqId = _
        rw [hheld]
        exact ⟨hpos, hseq⟩
      · exact Or.inr hgone

/-- A context of 8 sliding cells and a window of 2. -/
def slidingContext : KvContext :=
  { smallContext with
    kvSwa := llamaKvCacheInit false false 0 8
    swaKvActive := true
    nSwa := 2
    swaKvGuard := 1 }

/-- The first two tokens are shared by sequences 0 and 1. -/
def sharedPrompt : UBatch := [⟨0, [0, 1]⟩, ⟨1, [0, 1]⟩, ⟨2, [0]⟩]

/-- Sequence 0 is one position ahead of sequence 1. -/
def unevenStep : UBatch := [⟨3, [0]⟩, ⟨2, [1]⟩]

/-- Position 1 of the shared prompt is past the window of sequence 0, and still in the one of
sequence 1, which holds it in exactly one cell. -/
theorem swa_window_resident_shared :
    ∃ st last ctx', SwaRun { ctx := slidingContext, placed := [] } [.decode sharedPrompt] st ∧
      SwaRun st [.decode unevenStep] last ∧ decodeInputs st.ctx unevenStep = some (0, ctx') ∧
      ∃ i < ctx'.kvSwa.n, Carries (ctx'.kvSwa.cells i) 1 1 ∧
        ∀ j < ctx'.kvSwa.size, Carries (ctx'.kvSwa.cells j) 1 1 → j = i := by
  have hcompute : ((swaStep { ctx := slidingContext, placed := [] } (.decode sharedPrompt)).bind
      fun st => (decodeInputs st.ctx unevenStep).map fun r => (st.placed, r.1))
      = some (sharedPrompt, 0) := by decide +kernel
  obtain ⟨st, hst, hinputs⟩ := Option.bind_eq_some_iff.mp hcompute
  obtain ⟨⟨ret, ctx'⟩, hinputs, hfields⟩ := Option.map_eq_some_iff.mp hinputs
  obtain ⟨hplaced, rfl⟩ := Prod.mk.inj hfields
  -- the positions of the sequences 0 and 1, and of no other
  have hadmits₀ : ∀ s, Consecutive (positionsOf s sharedPrompt) := by
    intro s
    by_cases h0 : s = 0
    · subst h0
      exact ⟨0, by decide, by decide⟩
    · by_cases h1 : s = 1
      · subst h1
        exact ⟨0, by decide, by decide⟩
      · rw [show positionsOf s sharedPrompt = [] by simp [positionsOf, sharedPrompt, h0, h1]]
        exact ⟨0, by decide, by decide⟩
  have hadmits₁ : ∀ s, Consecutive (positionsOf s (sharedPrompt ++ unevenStep)) := by
    intro s
    by_cases h0 : s = 0
    · subst h0
      exact ⟨0, by decide, by decide⟩
    · by_cases h1 : s = 1
      · subst h1
        exact ⟨0, by decide, by decide⟩
      · rw [show positionsOf s (sharedPrompt ++ unevenStep) = [] by
          simp [positionsOf, sharedPrompt, unevenStep, h0, h1]]
        exact ⟨0, by decide, by decide⟩
  rw [← hplaced] at hadmits₁
  have hpre : SwaRun { ctx := slidingContext, placed := [] } [.decode sharedPrompt] st :=
    .cons hadmits₀ hst (.nil st)
  have hlast : ∃ last, swaStep st (.decode unevenStep) = some last := by
    simp [swaStep, decodeUbatch, hinputs]
  obtain ⟨last, hlast⟩ := hlast
  have hrun : SwaRun st [.decode unevenStep] last := .cons hadmits₁ hlast (.nil last)
  refine ⟨st, last, ctx', hpre, hrun, hinputs, ?_⟩
  have hfresh : SwaFresh slidingContext := ⟨rfl, rfl, fun _ _ => rfl⟩
  apply (swa_window_resident hfresh hpre hrun hinputs).1 rfl 1 1 _ 2 _ (by decide)
  · rw [hplaced]
    decide
  · decide

end PxqLlama.Kv
