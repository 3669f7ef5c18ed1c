import PxqLlama.Lib.Runs
import PxqLlama.Proofs.Spec.MtpCommit
import PxqLlama.Spec.MtpPrefetch

/-!
# `Proofs.Spec.MtpPrefetch`: when prefetching does what the serial calls do

The invariant is one equation: what the current call and the queue have left, run on the shared
state, gives the state of the calls made one after another (`Inv.drained`). A step of the worker
moves one of its accesses in front of what the main thread has left, which is sound while the two
have no object in common (`RaceFree`).

`RaceFree` is not what the waits give in general. `wait_seq` drains the jobs up to the last one of
its own sequence, `begin_seq` and `accept` drain nothing, and every job and every call that gets to
the MTP state touches the kept drafts. `Drains` is what a call has to find for its wait to be
enough; `wait_all` always is, for the future of the last job is never lost (`Inv.registered`).
-/

namespace PxqLlama.Spec

open PxqLlama.Kv Accesses

variable {F : Type} [Zero F] [LT F] [DecidableLT F] {model : MtpModel F} {st : MtpState F}

/-! ### Accesses and the serial calls -/

namespace MtpState

/-- What no access changes. -/
def shape (st : MtpState F) : Nat × Bool × Nat :=
  (st.nEmbd, st.constantDraftPositions, st.nSeqMax)

end MtpState

/-- The value of an object. -/
def MtpObject.Value (F : Type) : MtpObject → Type
  | companion => Int → List (MtpCell F)
  | targetHidden => Int → Option (List F)
  | draftCache => Int → Option (MtpLastEmbd F)

namespace MtpState

def object (st : MtpState F) : (o : MtpObject) → o.Value F
  | .companion => st.rows
  | .targetHidden => st.targetHiddenBySeq
  | .draftCache => st.draftCacheBySeq

omit [Zero F] [LT F] [DecidableLT F] in
theorem ext_object {st st' : MtpState F} (hshape : st.shape = st'.shape)
    (h : ∀ o, st.object o = st'.object o) : st = st' := by
  have hrows : st.rows = st'.rows := h .companion
  have hhidden : st.targetHiddenBySeq = st'.targetHiddenBySeq := h .targetHidden
  have hdrafts : st.draftCacheBySeq = st'.draftCacheBySeq := h .draftCache
  cases st
  cases st'
  simp only [shape, Prod.mk.injEq] at hshape
  simp_all

end MtpState

namespace MtpAccess

omit [LT F] [DecidableLT F] in
theorem shape_ensureSequenceHidden (st : MtpState F) (seqId : Int) (hidden : Option (List F)) :
    (st.ensureSequenceHidden seqId hidden).shape = st.shape := by
  unfold MtpState.ensureSequenceHidden
  split
  · rfl
  · cases hidden <;> rfl

theorem shape_draft (st : MtpState F) (seqId : Int) (args : MtpDraftArgs F) :
    (st.draft model.draftAnswer seqId args).2.shape = st.shape := by
  rw [MtpState.draft]
  split
  · rfl
  · split
    · rfl
    · rw [MtpState.genDraft]
      split <;> rfl

theorem shape_run (a : MtpAccess F) (st : MtpState F) : (a.run model st).shape = st.shape := by
  cases a with
  | ensureSequenceHidden seqId hidden => exact shape_ensureSequenceHidden st seqId hidden
  | draft seqId args => exact shape_draft st seqId args
  | _ => rfl

/-- An access leaves what it does not touch. -/
theorem frame (a : MtpAccess F) (st : MtpState F) (o : MtpObject) (h : a.touches o = false) :
    (a.run model st).object o = st.object o := by
  cases a with
  | ensureSequenceHidden seqId hidden =>
    cases o with
    | companion =>
      show (st.ensureSequenceHidden seqId hidden).rows = st.rows
      unfold MtpState.ensureSequenceHidden
      split
      · rfl
      · cases hidden <;> rfl
    | targetHidden => cases h
    | draftCache => cases h
  | draft seqId args => cases h
  | _ => cases o <;> first | rfl | cases h

/-- What an access leaves in its objects comes from these objects alone. -/
theorem local_run (a : MtpAccess F) (st st' : MtpState F) (hshape : st.shape = st'.shape)
    (h : ∀ o, a.touches o = true → st.object o = st'.object o) (o : MtpObject)
    (ho : a.touches o = true) : (a.run model st).object o = (a.run model st').object o := by
  have hrows : a.touches .companion = true → st.rows = st'.rows := h .companion
  have hhidden : a.touches .targetHidden = true → st.targetHiddenBySeq = st'.targetHiddenBySeq :=
    h .targetHidden
  have hdrafts : a.touches .draftCache = true → st.draftCacheBySeq = st'.draftCacheBySeq :=
    h .draftCache
  obtain ⟨nEmbd, constant, nSeqMax, rows, hidden, drafts⟩ := st
  obtain ⟨nEmbd', constant', nSeqMax', rows', hidden', drafts'⟩ := st'
  simp only [MtpState.shape, Prod.mk.injEq] at hshape hrows hhidden hdrafts
  obtain ⟨rfl, rfl, rfl⟩ := hshape
  cases a with
  | storeTargetHidden seqId row =>
    obtain rfl := hhidden rfl
    cases o <;> first | rfl | cases ho
  | clearTargetHidden seqId =>
    obtain rfl := hhidden rfl
    obtain rfl := hdrafts rfl
    cases o <;> first | rfl | cases ho
  | ensureSequenceHidden seqId row =>
    obtain rfl := hhidden rfl
    obtain rfl := hdrafts rfl
    -- Whether there is a hidden row is a matter of the map alone.
    generalize hleft : MtpState.mk nEmbd constant nSeqMax rows hidden drafts = left
    generalize hright : MtpState.mk nEmbd constant nSeqMax rows' hidden drafts = right
    have hsame : left.hasSequenceHidden seqId = right.hasSequenceHidden seqId := by
      rw [← hleft, ← hright]
      rfl
    simp only [run, MtpState.ensureSequenceHidden, hsame]
    split
    · subst hleft hright
      cases o <;> first | rfl | cases ho
    · subst hleft hright
      cases row <;> cases o <;> first | rfl | cases ho
  | invalidateCachedDraft seqId =>
    obtain rfl := hdrafts rfl
    cases o <;> first | rfl | cases ho
  | invalidateCachedDrafts =>
    obtain rfl := hdrafts rfl
    cases o <;> first | rfl | cases ho
  | cleanRow kvSeq start =>
    obtain rfl := hrows rfl
    cases o <;> first | rfl | cases ho
  | dropRow kvSeq =>
    obtain rfl := hrows rfl
    cases o <;> first | rfl | cases ho
  | decode kvSeq posBase tokens hiddenRows =>
    obtain rfl := hrows rfl
    cases o <;> first | rfl | cases ho
  | decodeShifted seqId kvSeq posBase tokens hiddenRows =>
    obtain rfl := hrows rfl
    obtain rfl := hhidden rfl
    cases o <;> first | rfl | cases ho
  | keepAnswer seqId kvSeq =>
    obtain rfl := hrows rfl
    obtain rfl := hdrafts rfl
    cases o <;> first | rfl | cases ho
  | draft seqId args =>
    obtain rfl := hrows rfl
    obtain rfl := hhidden rfl
    obtain rfl := hdrafts rfl
    rfl

theorem independent (model : MtpModel F) : Independent (MtpAccess.run model) touches :=
  independent_of_local (fun _ _ => MtpState.ext_object) shape_run frame local_run

end MtpAccess

namespace MtpCall

omit [Zero F] [LT F] [DecidableLT F] in
/-- The accesses of a call are those that it makes in any state of the same shape. -/
theorem accesses_congr {st st' : MtpState F} (h : st.shape = st'.shape) (c : MtpCall F) :
    c.accesses st = c.accesses st' := by
  simp only [MtpState.shape, Prod.mk.injEq] at h
  obtain ⟨hwidth, hconst, hslots⟩ := h
  have hkv : st.kvSeq = st'.kvSeq := by
    funext seqId
    rw [MtpState.kvSeq, MtpState.kvSeq, hslots]
  have hprep : st.prepares = st'.prepares := by
    funext type r
    rw [MtpState.prepares, MtpState.prepares, hwidth]
  cases c with
  | onTargetSeqBatch seqId posBase tokens hiddenRows kind =>
    simp only [accesses, targetBatchAccesses, hwidth, hconst, hkv]
  | commitAsync type req =>
    simp only [accesses, commitAccesses, targetBatchAccesses, hwidth, hconst, hkv]
  | commitBatchedAsync type reqs =>
    simp only [accesses, commitBatchedAccesses, hwidth, hprep]
  | contextShift seqId => simp only [accesses, hkv]
  | _ => rfl

/-- `mtp_accept_batch` in three accesses. -/
theorem runAll_acceptBatch (st : MtpState F) (seqId posBase : Int) (tokens : List Token)
    (hiddenRows : List F) :
    runAll (MtpAccess.run model) [.cleanRow (st.kvSeq seqId) posBase,
        .decode (st.kvSeq seqId) posBase tokens hiddenRows, .keepAnswer seqId (st.kvSeq seqId)] st =
      st.acceptBatch model.answer seqId posBase tokens hiddenRows := by
  simp [MtpAccess.run, MtpState.cleanRow, MtpState.decode, MtpState.keepAnswer,
    MtpState.acceptBatch]

/-- The accesses of a target batch, run in order, are the call. -/
theorem runAll_targetBatch (seqId posBase : Int) (tokens : List Token) (hiddenRows : List F)
    (kind : MtpBatchKind) :
    runAll (MtpAccess.run model) (targetBatchAccesses st seqId posBase tokens hiddenRows kind) st =
      st.onTargetSeqBatch model.answer seqId posBase tokens hiddenRows kind := by
  have hconst : (st.storeTargetHidden seqId (MtpState.lastRow st.nEmbd tokens.length
      hiddenRows)).constantDraftPositions = st.constantDraftPositions := rfl
  cases hmode : st.constantDraftPositions with
  | true =>
    -- The row is stored and the kept draft is dropped, whatever the batch.
    have haccesses : targetBatchAccesses st seqId posBase tokens hiddenRows kind =
        [.storeTargetHidden seqId (MtpState.lastRow st.nEmbd tokens.length hiddenRows),
          .invalidateCachedDraft seqId] := by simp only [targetBatchAccesses, hmode, if_true]
    rw [haccesses]
    cases kind with
    | accepted => exact (if_pos (hconst.trans hmode)).symm
    | warmup shifted => exact (if_pos (hconst.trans hmode)).symm
  | false =>
    have hmoving : ¬ (st.storeTargetHidden seqId (MtpState.lastRow st.nEmbd tokens.length
        hiddenRows)).constantDraftPositions = true := by simp [hconst, hmode]
    cases kind with
    | accepted =>
      simp only [targetBatchAccesses, hmode, Bool.false_eq_true, if_false,
        MtpState.onTargetSeqBatch, MtpState.onTargetBatch, hmoving]
      exact runAll_acceptBatch _ seqId posBase tokens hiddenRows
    | warmup shifted =>
      cases shifted <;>
        simp only [targetBatchAccesses, hmode, Bool.false_eq_true, if_false, runAll_cons,
          runAll_nil, MtpState.onTargetSeqBatch, hmoving] <;> rfl

theorem runAll_commit (type : SpeculativeType) (req : CommitReq F) :
    runAll (MtpAccess.run model) (commitAccesses st type req) st =
      serial model st (.commitAsync type req) := by
  rw [serial, MtpState.commit, commitAccesses]
  by_cases hids : req.ids = []
  · rw [if_pos hids, if_pos hids]
    rfl
  · have hne : MtpState.buildCommitTokens type req.sampledBefore req.ids ≠ [] :=
      MtpState.tokens_ne_nil hids
    rw [if_neg hids, if_neg hids, MtpState.applyHiddenRows, if_neg hne]
    by_cases hbad : st.nEmbd = 0 ∨ req.hiddenRows.length ≠
        (MtpState.buildCommitTokens type req.sampledBefore req.ids).length * st.nEmbd
    · simp only [if_pos hbad]
      by_cases htype : type = .mtp <;> simp [htype, MtpAccess.run]
    · simp only [if_neg hbad]
      exact runAll_targetBatch req.seqId req.posBase _ req.hiddenRows .accepted

/-- Accesses of one kind for each request are a loop over the requests. -/
theorem runAll_map (access : CommitReq F → MtpAccess F) (reqs : List (CommitReq F))
    (st : MtpState F) : runAll (MtpAccess.run model) (reqs.map access) st =
      reqs.foldl (fun st r => (access r).run model st) st := by
  rw [runAll, List.foldl_map]

omit [Zero F] [LT F] [DecidableLT F] in
theorem foldl_cleanRow (reqs : List (CommitReq F)) (st : MtpState F) :
    reqs.foldl (fun st r => st.cleanRow r.seqId r.posBase) st =
      { st with rows := reqs.foldl (fun rows r =>
          Function.update rows r.seqId (MtpState.clean (rows r.seqId) r.posBase)) st.rows } := by
  induction reqs generalizing st with
  | nil => rfl
  | cons r reqs ih => rw [List.foldl_cons, ih]; rfl

omit [Zero F] [LT F] [DecidableLT F] in
theorem foldl_decode (tokens : CommitReq F → List Token) (reqs : List (CommitReq F))
    (st : MtpState F) :
    reqs.foldl (fun st r => st.decode r.seqId r.posBase (tokens r) r.hiddenRows) st =
      { st with rows := reqs.foldl (fun rows r =>
          Function.update rows r.seqId (rows r.seqId ++
            MtpState.newCells st.nEmbd r.posBase (tokens r) r.hiddenRows)) st.rows } := by
  induction reqs generalizing st with
  | nil => rfl
  | cons r reqs ih => rw [List.foldl_cons, ih]; rfl

omit [Zero F] [LT F] [DecidableLT F] in
theorem foldl_keepAnswer (answer : List (MtpCell F) → MtpAnswer F) (reqs : List (CommitReq F))
    (rows : Int → List (MtpCell F)) (st : MtpState F) (h : st.rows = rows) :
    reqs.foldl (fun st r => st.keepAnswer r.seqId (answer (st.rows r.seqId))) st =
      reqs.foldl (fun st r => st.keepAnswer r.seqId (answer (rows r.seqId))) st := by
  induction reqs generalizing st with
  | nil => rfl
  | cons r reqs ih =>
    rw [List.foldl_cons, List.foldl_cons, h]
    exact ih (st.keepAnswer r.seqId (answer (rows r.seqId))) h

theorem runAll_commitBatched (type : SpeculativeType) (reqs : List (CommitReq F)) :
    runAll (MtpAccess.run model) (commitBatchedAccesses st type reqs) st =
      serial model st (.commitBatchedAsync type reqs) := by
  rw [serial, MtpState.commitBatched, commitBatchedAccesses]
  by_cases hwidth : st.nEmbd = 0
  · simp only [if_pos hwidth, runAll_map, List.foldl_map, MtpAccess.run]
  · simp only [if_neg hwidth, runAll_append, runAll_map, MtpAccess.run, List.foldl_map,
      foldl_cleanRow, foldl_decode]
    rw [foldl_keepAnswer model.answer _ _ _ rfl]

/-- The accesses of a call, with nothing between them, are the serial call. -/
theorem runAll_accesses (c : MtpCall F) (st : MtpState F) :
    runAll (MtpAccess.run model) (c.accesses st) st = c.serial model st := by
  cases c with
  | draft seqId args => cases args <;> rfl
  | accept byMtp => cases byMtp <;> rfl
  | onTargetSeqBatch seqId posBase tokens hiddenRows kind =>
    exact runAll_targetBatch seqId posBase tokens hiddenRows kind
  | commitAsync type req => exact runAll_commit type req
  | commitBatchedAsync type reqs => exact runAll_commitBatched type reqs
  | _ => rfl

end MtpCall

namespace Prefetch

/-! ### Both threads -/

/-- What the current call has left touches no object that an unfinished job touches. -/
def RaceFree (p : Prefetch F) : Prop :=
  ∀ a ∈ p.main, ∀ job ∈ p.queue, ∀ b ∈ job.accesses, Apart MtpAccess.touches a b

/-- A call is allowed when each unfinished job with an object in common is waited for: the call
waits for all jobs, or for a future that is not older than the job. -/
def Drains (p : Prefetch F) : PrefetchEvent F → Prop
  | .call c => c.jobSeqs = none → c.wait p.shared ≠ .all →
    ∀ e ∈ p.queue.zipIdx p.finished, Conflicts (c.accesses p.shared) e.1 →
      ∃ n ∈ p.waitedFor (c.wait p.shared), e.2 ≤ n
  | .main => True
  | .worker => True

instance : (p : Prefetch F) → (e : PrefetchEvent F) → Decidable (Drains p e)
  | p, .call c => inferInstanceAs (Decidable (c.jobSeqs = none → c.wait p.shared ≠ .all →
      ∀ e ∈ p.queue.zipIdx p.finished, Conflicts (c.accesses p.shared) e.1 →
        ∃ n ∈ p.waitedFor (c.wait p.shared), e.2 ≤ n))
  | _, .main => isTrue trivial
  | _, .worker => isTrue trivial

/-- The calls of the events, one after another. -/
def serialRun (model : MtpModel F) (st : MtpState F) (es : List (PrefetchEvent F)) : MtpState F :=
  es.foldl (fun st e => match e with
    | .call c => c.serial model st
    | _ => st) st

/-- `serial` is the state of the calls made so far. -/
structure Inv (model : MtpModel F) (p : Prefetch F) (serial : MtpState F) : Prop where
  drained : runAll (MtpAccess.run model) (p.queue.flatMap PrefetchJob.rest)
    (runAll (MtpAccess.run model) p.main p.shared) = serial
  raceFree : p.RaceFree
  rest : ∀ job ∈ p.queue, job.rest ⊆ job.accesses
  registered : ∀ e ∈ p.queue.zipIdx p.finished, e.1.accesses ≠ [] →
    ∃ n ∈ p.jobs.map Prod.snd, e.2 ≤ n

variable {p p' : Prefetch F} {s : MtpState F} {c : MtpCall F}

/-- What a call can do: submit a job, or wait and run its accesses itself. -/
theorem step_call (h : step model p (.call c) = some p') :
    p.main = [] ∧ ((∃ seqs, c.jobSeqs = some seqs ∧
        p' = p.submitForSeqs seqs (c.accesses p.shared)) ∨
      (c.jobSeqs = none ∧ (∀ n ∈ p.waitedFor (c.wait p.shared), n < p.finished) ∧
        p' = { p with main := c.accesses p.shared, jobs := p.jobsAfter (c.wait p.shared) })) := by
  rw [step] at h
  cases hmain : p.main with
  | cons a as => rw [hmain] at h; cases h
  | nil =>
    rw [hmain] at h
    refine ⟨rfl, ?_⟩
    cases hjob : c.jobSeqs with
    | some seqs =>
      rw [hjob] at h
      exact .inl ⟨seqs, rfl, (Option.some.inj h).symm⟩
    | none =>
      simp only [hjob] at h
      split at h
      · rename_i hwait
        exact .inr ⟨rfl, hwait, (Option.some.inj h).symm⟩
      · cases h

/-! ### Each event keeps the invariant -/

theorem shape_runAll (as : List (MtpAccess F)) (st : MtpState F) :
    (runAll (MtpAccess.run model) as st).shape = st.shape := by
  induction as generalizing st with
  | nil => rfl
  | cons a as ih => rw [runAll_cons, ih, MtpAccess.shape_run]

theorem Inv.shape (h : Inv model p s) : s.shape = p.shared.shape := by
  rw [← h.drained, shape_runAll, shape_runAll]

omit [Zero F] [LT F] [DecidableLT F] in
/-- A job with no sequences has nothing to do. -/
theorem accesses_of_jobSeqs_nil {st : MtpState F} (h : c.jobSeqs = some []) :
    c.accesses st = [] := by
  cases c with
  | commitAsync type req =>
    rw [MtpCall.jobSeqs] at h
    split at h <;> cases h
  | commitBatchedAsync type reqs =>
    have hnone : reqs = [] := List.map_eq_nil_iff.1 (Option.some.inj h)
    subst hnone
    rw [MtpCall.accesses, MtpCall.commitBatchedAccesses]
    split <;> rfl
  | _ => cases h

omit [Zero F] [LT F] [DecidableLT F] in
/-- A new future takes the place of older ones only. -/
theorem exists_registered (seqs : List Int) (number k : Nat) (jobs : List (Int × Nat))
    (hk : k ≤ number) (h : (∃ n ∈ jobs.map Prod.snd, k ≤ n) ∨ seqs ≠ []) :
    ∃ n ∈ (seqs.foldl (fun jobs s => (s, number) :: jobs.filter fun e => e.1 ≠ s) jobs).map
      Prod.snd, k ≤ n := by
  induction seqs generalizing jobs with
  | nil => exact h.resolve_right (fun hne => hne rfl)
  | cons seq seqs ih => exact ih _ (.inl ⟨number, by simp, hk⟩)

omit [Zero F] [LT F] [DecidableLT F] in
/-- A future is waited for or is still there after the wait. -/
theorem waitedFor_or_jobsAfter {n : Nat} (h : n ∈ p.jobs.map Prod.snd) (w : MtpWait) :
    n ∈ p.waitedFor w ∨ n ∈ (p.jobsAfter w).map Prod.snd := by
  cases w with
  | none => exact .inr h
  | all => exact .inl h
  | seq seqId =>
    obtain ⟨e, he, rfl⟩ := List.mem_map.1 h
    by_cases hseq : e.1 = seqId
    · exact .inl (List.mem_map_of_mem (List.mem_filter.2 ⟨he, decide_eq_true hseq⟩))
    · exact .inr (List.mem_map_of_mem (List.mem_filter.2 ⟨he, decide_eq_true hseq⟩))

/-- A submitted job is worked off after all others, as the serial call is made after all others. -/
theorem Inv.submit {seqs : List Int} (h : Inv model p s) (hmain : p.main = [])
    (hjob : c.jobSeqs = some seqs) :
    Inv model (p.submitForSeqs seqs (c.accesses p.shared)) (c.serial model s) where
  drained := by
    rw [← MtpCall.runAll_accesses, MtpCall.accesses_congr h.shape, ← h.drained]
    simp [submitForSeqs]
  raceFree a ha := by
    have hnone : a ∈ p.main := ha
    rw [hmain] at hnone
    cases hnone
  rest job hmem := by
    rcases List.mem_append.1 hmem with hmem | hmem
    · exact h.rest job hmem
    · rw [List.mem_singleton.1 hmem]
      exact fun _ hb => hb
  registered e he hne := by
    have he' : e ∈ (p.queue ++
        [(⟨c.accesses p.shared, c.accesses p.shared⟩ : PrefetchJob F)]).zipIdx p.finished := he
    rw [List.zipIdx_append, List.mem_append] at he'
    rcases he' with he' | he'
    · have hlt := List.snd_lt_add_of_mem_zipIdx he'
      exact exists_registered seqs _ e.2 p.jobs (Nat.le_of_lt hlt) (.inl (h.registered e he' hne))
    · simp only [List.zipIdx_cons, List.zipIdx_nil, List.mem_singleton] at he'
      subst he'
      refine exists_registered seqs _ _ p.jobs (Nat.le_refl _) (.inr fun hnil => ?_)
      rw [hnil] at hjob
      exact hne (accesses_of_jobSeqs_nil hjob)

/-- A call that is allowed finds no job left with which it has an object in common. -/
theorem no_conflict_of_drains (hdrains : Drains p (.call c)) (h : Inv model p s)
    (hjob : c.jobSeqs = none) (hwait : ∀ n ∈ p.waitedFor (c.wait p.shared), n < p.finished) :
    ∀ job ∈ p.queue, ¬ Conflicts (c.accesses p.shared) job := by
  intro job hmem hconf
  obtain ⟨i, hi, rfl⟩ := List.getElem_of_mem hmem
  have he : (p.queue[i], p.finished + i) ∈ p.queue.zipIdx p.finished := by
    rw [List.mk_mem_zipIdx_iff_le_and_getElem?_sub]
    simp [hi]
  -- The job would be waited for, and so be finished.
  have hwaited : ∃ n ∈ p.waitedFor (c.wait p.shared), p.finished + i ≤ n := by
    by_cases hall : c.wait p.shared = .all
    · obtain ⟨a, -, b, hb, -⟩ := hconf
      rw [hall]
      exact h.registered _ he (List.ne_nil_of_mem hb)
    · exact hdrains hjob hall _ he hconf
  obtain ⟨n, hn, hle⟩ := hwaited
  have := hwait n hn
  omega

/-- A call that drains what it needs keeps the invariant. -/
theorem Inv.call (h : Inv model p s) (hmain : p.main = []) (hdrains : Drains p (.call c))
    (hjob : c.jobSeqs = none) (hwait : ∀ n ∈ p.waitedFor (c.wait p.shared), n < p.finished) :
    Inv model
      { p with main := c.accesses p.shared, jobs := p.jobsAfter (c.wait p.shared) }
      (c.serial model s) := by
  have hapart : ∀ a ∈ c.accesses p.shared, ∀ job ∈ p.queue, ∀ b ∈ job.accesses,
      Apart MtpAccess.touches a b := fun a ha job hmem b hb o ho =>
    no_conflict_of_drains hdrains h hjob hwait job hmem ⟨a, ha, b, hb, o, ho⟩
  have hrest : ∀ a ∈ c.accesses p.shared, ∀ b ∈ p.queue.flatMap PrefetchJob.rest,
      Apart MtpAccess.touches a b := by
    intro a ha b hb
    obtain ⟨job, hmem, hb⟩ := List.mem_flatMap.1 hb
    exact hapart a ha job hmem b (h.rest job hmem hb)
  refine ⟨?_, hapart, h.rest, fun e he hne => ?_⟩
  · have hold := h.drained
    rw [hmain, runAll_nil] at hold
    rw [runAll_comm (MtpAccess.independent model) hrest, hold, ← MtpCall.runAll_accesses,
      MtpCall.accesses_congr h.shape]
  · obtain ⟨n, hn, hle⟩ := h.registered e he hne
    rcases waitedFor_or_jobsAfter hn (c.wait p.shared) with hdone | hleft
    · have hlt := hwait n hdone
      have hge : p.finished ≤ e.2 := List.le_snd_of_mem_zipIdx he
      omega
    · exact ⟨n, hleft, hle⟩

theorem Inv.main (h : Inv model p s) (hstep : step model p .main = some p') : Inv model p' s := by
  obtain ⟨shared, accesses, queue, finished, jobs⟩ := p
  cases accesses with
  | nil => cases hstep
  | cons a as =>
    obtain rfl := Option.some.inj hstep
    exact ⟨h.drained, fun b hb => h.raceFree b (List.mem_cons_of_mem a hb), h.rest, h.registered⟩

/-- So does an access of the worker. -/
theorem Inv.worker (h : Inv model p s) (hstep : step model p .worker = some p') :
    Inv model p' s := by
  obtain ⟨shared, accesses, queue, finished, jobs⟩ := p
  cases queue with
  | nil => cases hstep
  | cons job queue =>
    obtain ⟨all, rest⟩ := job
    cases rest with
    | nil =>
      -- The job is finished.
      obtain rfl := Option.some.inj hstep
      refine ⟨h.drained, fun a ha job hmem => h.raceFree a ha job (List.mem_cons_of_mem _ hmem),
        fun job hmem => h.rest job (List.mem_cons_of_mem _ hmem), fun e he => ?_⟩
      exact h.registered e (List.mem_cons_of_mem _ he)
    | cons a as =>
      obtain rfl := Option.some.inj hstep
      have hrest : a :: as ⊆ all := h.rest _ List.mem_cons_self
      have hmain : ∀ b ∈ accesses, Apart MtpAccess.touches a b := fun b hb =>
        (h.raceFree b hb _ List.mem_cons_self a (hrest List.mem_cons_self)).symm
      refine ⟨?_, fun b hb job hmem => ?_, fun job hmem => ?_, fun e he => ?_⟩
      · rw [← h.drained]
        show runAll (MtpAccess.run model) (as ++ queue.flatMap PrefetchJob.rest)
            (runAll (MtpAccess.run model) accesses (a.run model shared)) =
          runAll (MtpAccess.run model) (a :: (as ++ queue.flatMap PrefetchJob.rest))
            (runAll (MtpAccess.run model) accesses shared)
        rw [runAll_cons, runAll_run (MtpAccess.independent model) hmain]
      · rcases List.mem_cons.1 hmem with rfl | hmem
        · exact h.raceFree b hb ⟨all, a :: as⟩ List.mem_cons_self
        · exact h.raceFree b hb job (List.mem_cons_of_mem _ hmem)
      · rcases List.mem_cons.1 hmem with rfl | hmem
        · exact fun b hb => hrest (List.mem_cons_of_mem a hb)
        · exact h.rest job (List.mem_cons_of_mem _ hmem)
      · rcases List.mem_cons.1 he with rfl | he
        · exact h.registered (⟨all, a :: as⟩, finished) List.mem_cons_self
        · exact h.registered e (List.mem_cons_of_mem _ he)

theorem Inv.step {e : PrefetchEvent F} (h : Inv model p s) (hdrains : Drains p e)
    (hstep : Prefetch.step model p e = some p') : Inv model p' (serialRun model s [e]) := by
  cases e with
  | main => exact h.main hstep
  | worker => exact h.worker hstep
  | call c =>
    obtain ⟨hmain, ⟨seqs, hjob, rfl⟩ | ⟨hjob, hwait, rfl⟩⟩ := step_call hstep
    · exact h.submit hmain hjob
    · exact h.call hmain hdrains hjob hwait

theorem Inv.run {es : List (PrefetchEvent F)} (h : Inv model p s)
    (hall : Runs.Allowed (Prefetch.step model) Drains p es) :
    Inv model (Runs.last (Prefetch.step model) p es) (serialRun model s es) := by
  induction es generalizing p s with
  | nil => exact h
  | cons e es ih =>
    obtain ⟨hdrains, hsome, hrest⟩ := hall
    have hstep : Prefetch.step model p e = some ((Prefetch.step model p e).getD p) := by
      cases heq : Prefetch.step model p e with
      | none => rw [heq] at hsome; cases hsome
      | some p' => rfl
    exact ih (h.step hdrains hstep) hrest

/-- Where each call finds its jobs drained, no call has an object in common with a job that is
pending or running, and when both threads are through the state is the one of the serial calls. -/
theorem raceFree_and_serial (model : MtpModel F) (st : MtpState F) (es : List (PrefetchEvent F))
    (hall : Runs.Allowed (Prefetch.step model) Drains { shared := st } es) :
    RaceFree (Runs.last (Prefetch.step model) { shared := st } es) ∧
      ((Runs.last (Prefetch.step model) { shared := st } es).main = [] →
        (Runs.last (Prefetch.step model) { shared := st } es).queue = [] →
        (Runs.last (Prefetch.step model) { shared := st } es).shared = serialRun model st es) := by
  have hinit : Inv model { shared := st } st :=
    ⟨rfl, fun _ ha => absurd ha List.not_mem_nil, fun _ hmem => absurd hmem List.not_mem_nil,
      fun _ he => absurd he List.not_mem_nil⟩
  have h := hinit.run hall
  refine ⟨h.raceFree, fun hmain hqueue => ?_⟩
  rw [← h.drained, hmain, hqueue]
  rfl

/-- A commit of sequence 3, its job, and a draft that waits for it. -/
def drainedRun : List (PrefetchEvent Int) :=
  [.call (.commitAsync .mtp MtpState.oneAccepted), .worker, .worker, .worker, .worker, .worker,
    .call (.draft 3 (some { nMax := 1, pMin := 0, idLast := 6, draftBasePos := 1, promptSize := 1 })),
    .main]

/-- The model of the companion in the runs. -/
def countingModel : MtpModel Int :=
  { answer := MtpState.countCells, draftAnswer := MtpState.countCells }

theorem raceFree_and_serial_drainedRun :
    (Runs.last (step countingModel) { shared := MtpState.sevenAt none } drainedRun).shared =
      serialRun countingModel (MtpState.sevenAt none) drainedRun := by
  have hall : Runs.Allowed (step countingModel) Drains { shared := MtpState.sevenAt none }
      drainedRun := by decide
  exact (raceFree_and_serial countingModel _ drainedRun hall).2 rfl rfl

/-- The commit is still pending when a new generation begins, which waits for nothing. -/
def pendingRun : List (PrefetchEvent Int) :=
  [.call (.commitAsync .mtp MtpState.oneAccepted), .call (.beginSeq 3)]

/-- The job is worked off after the hidden row was cleared. -/
def staleRun : List (PrefetchEvent Int) :=
  pendingRun ++ [.main, .worker, .worker, .worker, .worker, .worker]

/-- A pending commit races with `begin_seq`, which leaves the hidden row of the old generation. -/
theorem not_raceFree_pendingRun :
    Runs.Allowed (step countingModel) (fun _ _ => True) { shared := MtpState.sevenAt none } staleRun ∧
      ¬ RaceFree (Runs.last (step countingModel) { shared := MtpState.sevenAt none } pendingRun) ∧
      (Runs.last (step countingModel) { shared := MtpState.sevenAt none } staleRun).main = [] ∧
      (Runs.last (step countingModel) { shared := MtpState.sevenAt none } staleRun).queue = [] ∧
      (Runs.last (step countingModel) { shared := MtpState.sevenAt none }
        staleRun).shared.targetHiddenBySeq 3 = some [7] ∧
      (serialRun countingModel (MtpState.sevenAt none) staleRun).targetHiddenBySeq 3 = none := by
  refine ⟨by decide, fun h => ?_, rfl, rfl, by decide, by decide⟩
  exact h (.clearTargetHidden 3) List.mem_cons_self _ List.mem_cons_self
    (.storeTargetHidden 3 [7]) List.mem_cons_self .targetHidden ⟨rfl, rfl⟩

end Prefetch

end PxqLlama.Spec
