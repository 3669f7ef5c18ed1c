import Mathlib.Algebra.Ring.Int.Defs
import PxqLlama.Lib.Maps
import PxqLlama.Spec.MtpCommit

/-!
# `Proofs.Spec.MtpCommit`: when the batched commit is the serial one

Both commits drop the same requests and work through the same others (`commitSerial_eq`). What they
do for one of those is compared sequence by sequence: the requests have distinct sequences, so each
loop changes each sequence once (`KeyedFold`).

The companion rows and the kept answers come out the same where a sequence has its own row. The
batched commit leaves three steps out: it does not store the target hidden row, it does not look at
the draft positions, and it does not map the sequences of a companion of one slot. So it agrees
with the serial one only where none of these steps does anything (`agrees_iff_commitsAlike`).
-/

namespace PxqLlama.Spec.MtpState

open PxqLlama.Kv KeyedFold

variable {F : Type} [Zero F] {answer : List (MtpCell F) → MtpAnswer F} {type : SpeculativeType}
  {st : MtpState F} {reqs : List (CommitReq F)} {r : CommitReq F}

/-! ### The requests that are worked through -/

/-- The tokens that a request commits. -/
def tokens (type : SpeculativeType) (r : CommitReq F) : List Token :=
  buildCommitTokens type r.sampledBefore r.ids

/-- The last hidden row of a request. -/
def newHidden (width : Nat) (type : SpeculativeType) (r : CommitReq F) : List F :=
  lastRow width (tokens type r).length r.hiddenRows

/-- The cells of a sequence after the request. -/
def newRow (width : Nat) (type : SpeculativeType) (r : CommitReq F) (row : List (MtpCell F)) :
    List (MtpCell F) :=
  clean row r.posBase ++ newCells width r.posBase (tokens type r) r.hiddenRows

/-- The answer for those cells, as it is kept. -/
def newDraft (answer : List (MtpCell F) → MtpAnswer F) (row : List (MtpCell F)) :
    MtpLastEmbd F :=
  { embd := (answer row).embd, prob := (answer row).prob, lastId := (answer row).token }

/-- The serial commit of a request that passes the checks. -/
def commitOne (answer : List (MtpCell F) → MtpAnswer F) (type : SpeculativeType) (st : MtpState F)
    (r : CommitReq F) : MtpState F :=
  st.onTargetBatch answer r.seqId r.posBase (tokens type r) r.hiddenRows

omit [Zero F] in
theorem tokens_ne_nil (h : r.ids ≠ []) : tokens type r ≠ [] := by
  rw [tokens, buildCommitTokens, if_neg h]
  split
  · exact h
  · exact List.cons_ne_nil _ _

omit [Zero F] in
theorem newRow_ne_nil {width : Nat} (h : r.ids ≠ []) (row : List (MtpCell F)) :
    newRow width type r row ≠ [] := by
  obtain ⟨t, ts, hts⟩ := List.exists_cons_of_ne_nil (@tokens_ne_nil F type r h)
  rw [newRow, hts, newCells]
  simp

omit [Zero F] in
theorem prepares_iff : st.prepares type r = true ↔
    r.ids ≠ [] ∧ r.hiddenRows.length = (tokens type r).length * st.nEmbd := by
  rw [prepares, decide_eq_true_eq, tokens]

theorem commitOne_of_constant (h : st.constantDraftPositions = true) :
    commitOne answer type st r =
      (st.storeTargetHidden r.seqId (newHidden st.nEmbd type r)).invalidateCachedDraft r.seqId :=
  if_pos h

theorem commitOne_of_moving (h : st.constantDraftPositions = false) :
    commitOne answer type st r =
      (st.storeTargetHidden r.seqId (newHidden st.nEmbd type r)).acceptBatch answer r.seqId
        r.posBase (tokens type r) r.hiddenRows :=
  if_neg fun hc => Bool.false_ne_true (h.symm.trans hc)

theorem commitOne_nEmbd : (commitOne answer type st r).nEmbd = st.nEmbd := by
  rw [commitOne, onTargetBatch]
  split <;> rfl

theorem commit_eq (hwidth : st.nEmbd ≠ 0) : commit answer type st r =
    if r.ids = [] then (true, st)
    else if st.prepares type r then (true, commitOne answer type st r) else (false, st) := by
  rw [commit]
  by_cases hids : r.ids = []
  · rw [if_pos hids, if_pos hids]
  · have hne : buildCommitTokens type r.sampledBefore r.ids ≠ [] := tokens_ne_nil hids
    rw [if_neg hids, if_neg hids, applyHiddenRows, if_neg hne]
    by_cases hlen : r.hiddenRows.length = (tokens type r).length * st.nEmbd
    · rw [if_pos (prepares_iff.2 ⟨hids, hlen⟩), if_neg (fun hc => hc.elim hwidth (· hlen))]
      rfl
    · rw [if_neg (fun h => hlen (prepares_iff.1 h).2), if_pos (.inr hlen)]

/-- Requests that pass the checks are committed, and others that hold tokens fail. -/
theorem commitSerial_eq (hwidth : st.nEmbd ≠ 0) (reqs : List (CommitReq F)) :
    commitSerial answer type st reqs =
      ((reqs.filter fun r => decide (r.ids ≠ []) && !st.prepares type r).map CommitReq.seqId,
        (reqs.filter (st.prepares type)).foldl (commitOne answer type) st) := by
  have hrun : ∀ (reqs : List (CommitReq F)) (failed : List Int) (st' : MtpState F),
      st'.nEmbd = st.nEmbd →
      reqs.foldl (fun acc r => (if (commit answer type acc.2 r).1 then acc.1 else acc.1 ++ [r.seqId],
        (commit answer type acc.2 r).2)) (failed, st') =
      (failed ++ (reqs.filter fun r => decide (r.ids ≠ []) && !st.prepares type r).map
        CommitReq.seqId, (reqs.filter (st.prepares type)).foldl (commitOne answer type) st') := by
    intro reqs
    induction reqs with
    | nil => intro failed st' _; simp
    | cons r reqs ih =>
      intro failed st' hst'
      have hsame : st'.prepares type r = st.prepares type r := by simp only [prepares, hst']
      rw [List.foldl_cons, commit_eq (by rw [hst']; exact hwidth), hsame]
      by_cases hids : r.ids = []
      · have hno : st.prepares type r = false := by
          rw [Bool.eq_false_iff]
          exact fun h => (prepares_iff.1 h).1 hids
        simp only [hids, if_true, ih failed st' hst', List.filter_cons, hno]
        simp
      · cases hprep : st.prepares type r with
        | true =>
          simp only [hids, if_false, if_true]
          rw [ih failed _ (commitOne_nEmbd.trans hst')]
          simp [hprep]
        | false =>
          simp only [hids, if_false, Bool.false_eq_true]
          rw [ih _ st' hst']
          simp [hprep, hids]
  exact hrun reqs [] st rfl

/-! ### The serial commits, sequence by sequence -/

/-- What the state holds for a sequence. -/
def view (st : MtpState F) (s : Int) :
    List (MtpCell F) × Option (List F) × Option (MtpLastEmbd F) :=
  (st.rows s, st.targetHiddenBySeq s, st.draftCacheBySeq s)

/-- What does not change in a commit. -/
structure SameShape (st st' : MtpState F) : Prop where
  nEmbd : st'.nEmbd = st.nEmbd
  constantDraftPositions : st'.constantDraftPositions = st.constantDraftPositions
  nSeqMax : st'.nSeqMax = st.nSeqMax

theorem sameShape_commitOne : SameShape st (commitOne answer type st r) := by
  rw [commitOne, onTargetBatch]
  split <;> exact ⟨rfl, rfl, rfl⟩

/-- A fact about the states of a loop of commits, from what one commit does. -/
theorem foldl_commitOne {γ : Type} {part : MtpState F → γ} {stepPart : γ → CommitReq F → γ}
    (hstep : ∀ (st' : MtpState F) (r : CommitReq F), r ∈ reqs → SameShape st st' →
      part (commitOne answer type st' r) = stepPart (part st') r) :
    part (reqs.foldl (commitOne answer type) st) = reqs.foldl stepPart (part st) := by
  have hrun : ∀ (rs : List (CommitReq F)) (st' : MtpState F), (∀ r ∈ rs, r ∈ reqs) →
      SameShape st st' →
      part (rs.foldl (commitOne answer type) st') = rs.foldl stepPart (part st') := by
    intro rs
    induction rs with
    | nil => intro st' _ _; rfl
    | cons r rs ih =>
      intro st' hmem hshape
      obtain ⟨hr, hrs⟩ := List.forall_mem_cons.1 hmem
      have hone := @sameShape_commitOne F _ answer type st' r
      rw [List.foldl_cons, List.foldl_cons, ih _ hrs ⟨hone.nEmbd.trans hshape.nEmbd,
        hone.constantDraftPositions.trans hshape.constantDraftPositions,
        hone.nSeqMax.trans hshape.nSeqMax⟩, hstep st' r hr hshape]
  exact hrun reqs st (fun _ h => h) ⟨rfl, rfl, rfl⟩

theorem serial_hidden : (reqs.foldl (commitOne answer type) st).targetHiddenBySeq =
    reqs.foldl (updateAt CommitReq.seqId fun r _ => some (newHidden st.nEmbd type r))
      st.targetHiddenBySeq := by
  refine foldl_commitOne fun st' r _ hshape => ?_
  rw [← hshape.nEmbd]
  cases hmode : st'.constantDraftPositions with
  | true => rw [commitOne_of_constant hmode]; rfl
  | false => rw [commitOne_of_moving hmode]; rfl

/-- Constant draft positions: the kept drafts are dropped. -/
theorem serial_cache_of_constant (hconst : st.constantDraftPositions = true) :
    (reqs.foldl (commitOne answer type) st).draftCacheBySeq =
      reqs.foldl (updateAt CommitReq.seqId fun _ last =>
        last.map fun last => { last with lastId := -1, prob := 0 }) st.draftCacheBySeq := by
  refine foldl_commitOne fun st' r _ hshape => ?_
  rw [commitOne_of_constant (hshape.constantDraftPositions.trans hconst)]
  rfl

/-- A companion of one slot: no other sequence gets a cell. -/
theorem serial_rows_of_oneSlot (hslots : st.nSeqMax ≤ 1) {s : Int} (hs : s ≠ 0) :
    (reqs.foldl (commitOne answer type) st).rows s = st.rows s := by
  have hkept := @foldl_commitOne F _ answer type st reqs _ (fun st => st.rows s)
    (fun row _ => row) fun st' r _ hshape => ?_
  · rw [hkept, List.foldl_fixed]
  · cases hmode : st'.constantDraftPositions with
    | true => rw [commitOne_of_constant hmode]; rfl
    | false =>
      have hzero : (st'.storeTargetHidden r.seqId (newHidden st'.nEmbd type r)).kvSeq r.seqId = 0 :=
        if_pos (hshape.nSeqMax ▸ hslots)
      rw [commitOne_of_moving hmode, acceptBatch, hzero]
      exact Function.update_of_ne hs _ _

/-- Where each sequence has its own row, a commit changes the view of its sequence. -/
theorem serial_view (hconst : st.constantDraftPositions = false)
    (hown : ∀ r ∈ reqs, st.kvSeq r.seqId = r.seqId) :
    view (reqs.foldl (commitOne answer type) st) =
      reqs.foldl (updateAt CommitReq.seqId fun r v =>
        (newRow st.nEmbd type r v.1, some (newHidden st.nEmbd type r),
          some (newDraft answer (newRow st.nEmbd type r v.1)))) (view st) := by
  refine foldl_commitOne fun st' r hr hshape => ?_
  have hslot : (st'.storeTargetHidden r.seqId (newHidden st'.nEmbd type r)).kvSeq r.seqId =
      r.seqId := by
    show (if st'.nSeqMax ≤ 1 then 0 else r.seqId) = r.seqId
    rw [hshape.nSeqMax]
    exact hown r hr
  rw [commitOne_of_moving (hshape.constantDraftPositions.trans hconst), acceptBatch, hslot,
    ← hshape.nEmbd]
  funext s
  by_cases hs : s = r.seqId
  · subst hs
    simp [view, updateAt, keepAnswer, storeTargetHidden, newRow, newDraft]
  · simp [view, updateAt, keepAnswer, storeTargetHidden, Function.update_of_ne hs]

/-! ### The batched commit, sequence by sequence -/

/-- The rows after the one decode. -/
def decodedRows (type : SpeculativeType) (st : MtpState F) (reqs : List (CommitReq F)) :
    Int → List (MtpCell F) :=
  reqs.foldl (updateAt CommitReq.seqId fun r row =>
      row ++ newCells st.nEmbd r.posBase (tokens type r) r.hiddenRows)
    (reqs.foldl (updateAt CommitReq.seqId fun r row => clean row r.posBase) st.rows)

omit [Zero F] in
/-- The batched commit in one step: which requests fail, and the state that is left. -/
theorem commitBatched_eq (hwidth : st.nEmbd ≠ 0) (reqs : List (CommitReq F)) :
    commitBatched answer type st reqs =
      ((reqs.filter fun r => decide (r.ids ≠ []) && !st.prepares type r).map CommitReq.seqId,
        { st with
          rows := decodedRows type st (reqs.filter (st.prepares type))
          draftCacheBySeq := (reqs.filter (st.prepares type)).foldl
            (updateAt CommitReq.seqId fun r _ => some (newDraft answer
              (decodedRows type st (reqs.filter (st.prepares type)) r.seqId)))
            st.draftCacheBySeq }) := by
  have htail : ∀ (rs : List (CommitReq F)) (rows : Int → List (MtpCell F)) (st' : MtpState F),
      rs.foldl (fun (st : MtpState F) r => st.keepAnswer r.seqId (answer (rows r.seqId))) st' =
        { st' with
          draftCacheBySeq := rs.foldl (updateAt CommitReq.seqId fun r _ =>
            some (newDraft answer (rows r.seqId))) st'.draftCacheBySeq } := by
    intro rs rows
    induction rs with
    | nil => intro st'; rfl
    | cons r rs ih => intro st'; rw [List.foldl_cons, ih]; rfl
  rw [commitBatched, if_neg hwidth]
  simp only [htail]
  rfl

omit [Zero F] in
theorem decodedRows_mem (hnodup : (reqs.map CommitReq.seqId).Nodup) (hr : r ∈ reqs) :
    decodedRows type st reqs r.seqId = newRow st.nEmbd type r (st.rows r.seqId) := by
  rw [decodedRows, foldl_updateAt_mem hnodup hr, foldl_updateAt_mem hnodup hr, newRow]

omit [Zero F] in
theorem decodedRows_notMem {s : Int} (hs : s ∉ reqs.map CommitReq.seqId) :
    decodedRows type st reqs s = st.rows s := by
  rw [decodedRows, foldl_updateAt_notMem hs, foldl_updateAt_notMem hs]

/-! ### Both -/

/-- The two commits leave the same rows, kept drafts and target hidden rows, and the same requests
fail. -/
structure Agrees (answer : List (MtpCell F) → MtpAnswer F) (type : SpeculativeType)
    (st : MtpState F) (reqs : List (CommitReq F)) : Prop where
  rows : (commitBatched answer type st reqs).2.rows = (commitSerial answer type st reqs).2.rows
  drafts : (commitBatched answer type st reqs).2.draftCacheBySeq =
    (commitSerial answer type st reqs).2.draftCacheBySeq
  hidden : (commitBatched answer type st reqs).2.targetHiddenBySeq =
    (commitSerial answer type st reqs).2.targetHiddenBySeq
  failed : ∀ s, s ∈ (commitBatched answer type st reqs).1 ↔
    s ∈ (commitSerial answer type st reqs).1

/-- The steps that the batched commit leaves out do nothing for the request. -/
structure NothingLeftOut (type : SpeculativeType) (st : MtpState F) (r : CommitReq F) : Prop where
  hidden : st.targetHiddenBySeq r.seqId = some (newHidden st.nEmbd type r)
  positions : st.constantDraftPositions = false
  slot : st.nSeqMax ≤ 1 → r.seqId = 0

/-- When no row is left out, both commits agree. -/
theorem agrees_of_nothingLeftOut (hwidth : st.nEmbd ≠ 0)
    (hnodup : (reqs.map CommitReq.seqId).Nodup)
    (h : ∀ r ∈ reqs, st.prepares type r = true → NothingLeftOut type st r) :
    Agrees answer type st reqs := by
  have hb := @commitBatched_eq F answer type st hwidth reqs
  have hs := @commitSerial_eq F _ answer type st hwidth reqs
  have hnodup' : ((reqs.filter (st.prepares type)).map CommitReq.seqId).Nodup :=
    hnodup.sublist (List.filter_sublist.map _)
  have hprep : ∀ r ∈ reqs.filter (st.prepares type), NothingLeftOut type st r := by
    intro r hr
    obtain ⟨hr, hp⟩ := List.mem_filter.1 hr
    exact h r hr hp
  generalize reqs.filter (st.prepares type) = prepared at hb hs hnodup' hprep
  -- The serial commits as one view, whether there is a request to commit or not.
  have hview : view (prepared.foldl (commitOne answer type) st) =
      prepared.foldl (updateAt CommitReq.seqId fun r v =>
        (newRow st.nEmbd type r v.1, some (newHidden st.nEmbd type r),
          some (newDraft answer (newRow st.nEmbd type r v.1)))) (view st) := by
    cases prepared with
    | nil => rfl
    | cons r₀ rs =>
      refine serial_view (hprep r₀ List.mem_cons_self).positions fun r hr => ?_
      rw [kvSeq]
      split
      · rename_i hslots
        exact ((hprep r hr).slot hslots).symm
      · rfl
  have hat : ∀ s, view (prepared.foldl (commitOne answer type) st) s =
      (decodedRows type st prepared s, st.targetHiddenBySeq s,
        prepared.foldl (updateAt CommitReq.seqId fun r _ =>
          some (newDraft answer (decodedRows type st prepared r.seqId))) st.draftCacheBySeq s) := by
    intro s
    rw [hview]
    by_cases hmem : s ∈ prepared.map CommitReq.seqId
    · obtain ⟨r, hr, rfl⟩ := List.mem_map.1 hmem
      rw [foldl_updateAt_mem hnodup' hr, foldl_updateAt_mem hnodup' hr,
        decodedRows_mem hnodup' hr, (hprep r hr).hidden]
      rfl
    · rw [foldl_updateAt_notMem hmem, foldl_updateAt_notMem hmem, decodedRows_notMem hmem]
      rfl
  refine ⟨?_, ?_, ?_, fun s => by rw [hb, hs]⟩
  · rw [hb, hs]
    funext s
    exact (congrArg (fun v => v.1) (hat s)).symm
  · rw [hb, hs]
    funext s
    exact (congrArg (fun v => v.2.2) (hat s)).symm
  · rw [hb, hs]
    funext s
    exact (congrArg (fun v => v.2.1) (hat s)).symm

/-- When both agree, no row was left out. -/
theorem nothingLeftOut_of_agrees (hwidth : st.nEmbd ≠ 0)
    (hnodup : (reqs.map CommitReq.seqId).Nodup)
    (hone : st.nSeqMax ≤ 1 → ∀ s, s ≠ 0 → st.rows s = [])
    (h : Agrees answer type st reqs) (hr : r ∈ reqs) (hp : st.prepares type r = true) :
    NothingLeftOut type st r := by
  obtain ⟨hrows, hdrafts, hhidden, -⟩ := h
  rw [commitBatched_eq hwidth, commitSerial_eq hwidth] at hrows hdrafts hhidden
  have hmem : r ∈ reqs.filter (st.prepares type) := List.mem_filter.2 ⟨hr, hp⟩
  have hnodup' : ((reqs.filter (st.prepares type)).map CommitReq.seqId).Nodup :=
    hnodup.sublist (List.filter_sublist.map _)
  refine ⟨?_, ?_, fun hslots => ?_⟩
  · -- The batched commit leaves the hidden rows as they are.
    have heq : st.targetHiddenBySeq r.seqId =
        ((reqs.filter (st.prepares type)).foldl (commitOne answer type) st).targetHiddenBySeq
          r.seqId := congrFun hhidden r.seqId
    rw [serial_hidden, foldl_updateAt_mem hnodup' hmem] at heq
    exact heq
  · -- With constant positions the serial commit keeps no draft, and the batched one does.
    cases hmode : st.constantDraftPositions with
    | false => rfl
    | true =>
      have heq : (reqs.filter (st.prepares type)).foldl
          (updateAt CommitReq.seqId fun r _ => some (newDraft answer
            (decodedRows type st (reqs.filter (st.prepares type)) r.seqId)))
          st.draftCacheBySeq r.seqId =
          ((reqs.filter (st.prepares type)).foldl (commitOne answer type) st).draftCacheBySeq
            r.seqId := congrFun hdrafts r.seqId
      rw [serial_cache_of_constant hmode, foldl_updateAt_mem hnodup' hmem,
        foldl_updateAt_mem hnodup' hmem] at heq
      obtain ⟨last, -, hlast⟩ := Option.map_eq_some_iff.1 heq.symm
      have hid := congrArg MtpLastEmbd.lastId hlast
      simp only [newDraft] at hid
      omega
  · -- With one slot the serial commit writes to sequence 0, and the batched one to its own.
    by_contra hzero
    have heq : decodedRows type st (reqs.filter (st.prepares type)) r.seqId =
        ((reqs.filter (st.prepares type)).foldl (commitOne answer type) st).rows r.seqId :=
      congrFun hrows r.seqId
    rw [serial_rows_of_oneSlot hslots hzero, decodedRows_mem hnodup' hmem, hone hslots _ hzero]
      at heq
    exact newRow_ne_nil (prepares_iff.1 hp).1 _ heq

/-- When the batched commit does as the serial commits: with hidden rows of no width when no
request is empty, and otherwise when no request that passes the checks has its target hidden row
to be stored, its kept draft to be dropped or its sequence to be mapped. -/
def CommitsAlike (type : SpeculativeType) (st : MtpState F) (reqs : List (CommitReq F)) : Prop :=
  if st.nEmbd = 0 then ∀ r ∈ reqs, r.ids ≠ []
  else ∀ r ∈ reqs, st.prepares type r = true → NothingLeftOut type st r

/-- Without hidden rows the commits agree unless a request has no ids. -/
theorem agrees_of_noWidth (hwidth : st.nEmbd = 0) (hnodup : (reqs.map CommitReq.seqId).Nodup) :
    Agrees answer type st reqs ↔ ∀ r ∈ reqs, r.ids ≠ [] := by
  have hb : commitBatched answer type st reqs = (reqs.map CommitReq.seqId, st) := if_pos hwidth
  have hcommit : ∀ r, commit answer type st r = (decide (r.ids = []), st) := by
    intro r
    rw [commit]
    by_cases hids : r.ids = []
    · simp [hids]
    · have hne : buildCommitTokens type r.sampledBefore r.ids ≠ [] := tokens_ne_nil hids
      rw [if_neg hids, applyHiddenRows, if_neg hne, if_pos (.inl hwidth)]
      simp [hids]
  have hs : commitSerial answer type st reqs =
      ((reqs.filter fun r => decide (r.ids ≠ [])).map CommitReq.seqId, st) := by
    have hrun : ∀ (reqs : List (CommitReq F)) (failed : List Int),
        reqs.foldl (fun acc r => (if (commit answer type acc.2 r).1 then acc.1
          else acc.1 ++ [r.seqId], (commit answer type acc.2 r).2)) (failed, st) =
        (failed ++ (reqs.filter fun r => decide (r.ids ≠ [])).map CommitReq.seqId, st) := by
      intro reqs
      induction reqs with
      | nil => intro failed; simp
      | cons r reqs ih =>
        intro failed
        rw [List.foldl_cons, hcommit]
        by_cases hids : r.ids = [] <;> simp [hids, ih]
    exact hrun reqs []
  constructor
  · intro h r hr hids
    have hmem := (h.failed r.seqId).1 (by rw [hb]; exact List.mem_map_of_mem hr)
    rw [hs] at hmem
    obtain ⟨r', hr', heq⟩ := List.mem_map.1 hmem
    obtain ⟨hr', hne⟩ := List.mem_filter.1 hr'
    have hsame := List.inj_on_of_nodup_map hnodup hr' hr heq
    rw [hsame, hids] at hne
    simp at hne
  · intro h
    have hall : (reqs.filter fun r => decide (r.ids ≠ [])) = reqs :=
      List.filter_eq_self.2 fun r hr => decide_eq_true (h r hr)
    rw [hall] at hs
    exact ⟨by rw [hb, hs], by rw [hb, hs], by rw [hb, hs], fun s => by rw [hb, hs]⟩

/-- The batched commit equals the serial commits exactly where it leaves nothing out. -/
theorem agrees_iff_commitsAlike (answer : List (MtpCell F) → MtpAnswer F) (type : SpeculativeType)
    (st : MtpState F) (reqs : List (CommitReq F)) (hnodup : (reqs.map CommitReq.seqId).Nodup)
    (hone : st.nSeqMax ≤ 1 → ∀ s, s ≠ 0 → st.rows s = []) :
    Agrees answer type st reqs ↔ CommitsAlike type st reqs := by
  rw [CommitsAlike]
  by_cases hwidth : st.nEmbd = 0
  · rw [if_pos hwidth]
    exact agrees_of_noWidth hwidth hnodup
  · rw [if_neg hwidth]
    exact ⟨fun h r hr hp => nothingLeftOut_of_agrees hwidth hnodup hone h hr hp,
      agrees_of_nothingLeftOut hwidth hnodup⟩

/-- Sequence 3 of a companion of four slots, with hidden rows of one number. -/
def sevenAt (hidden : Option (List Int)) : MtpState Int :=
  { nEmbd := 1, constantDraftPositions := false, nSeqMax := 4, rows := fun _ => []
    targetHiddenBySeq := Function.update (fun _ => none) 3 hidden
    draftCacheBySeq := fun _ => none }

/-- One accepted token of sequence 3. -/
def oneAccepted : CommitReq Int :=
  { seqId := 3, posBase := 0, sampledBefore := 5, ids := [6], hiddenRows := [7] }

/-- An answer for each row of cells. -/
def countCells (row : List (MtpCell Int)) : MtpAnswer Int :=
  { embd := [], token := row.length, prob := 1 }

/-- With the hidden row there already, as a target batch leaves it, the two commits agree. -/
theorem commitsAlike_stored :
    ([oneAccepted].map CommitReq.seqId).Nodup ∧
      Agrees countCells .mtp (sevenAt (some [7])) [oneAccepted] := by
  have hone : (sevenAt (some [7])).nSeqMax ≤ 1 → ∀ s, s ≠ 0 → (sevenAt (some [7])).rows s = [] :=
    fun _ _ _ => rfl
  refine ⟨by decide, (agrees_iff_commitsAlike countCells .mtp _ [oneAccepted] (by decide) hone).2 ?_⟩
  intro r hr _
  rw [List.mem_singleton] at hr
  subst hr
  exact ⟨by decide, rfl, fun h => absurd h (by decide)⟩

/-- Without it, the serial commit stores the row and the batched one does not. -/
theorem not_agrees_unstored :
    ([oneAccepted].map CommitReq.seqId).Nodup ∧
      (commitSerial countCells .mtp (sevenAt none) [oneAccepted]).2.targetHiddenBySeq 3 = some [7] ∧
      (commitBatched countCells .mtp (sevenAt none) [oneAccepted]).2.targetHiddenBySeq 3 = none ∧
      ¬ Agrees countCells .mtp (sevenAt none) [oneAccepted] := by
  have hserial : (commitSerial countCells .mtp (sevenAt none) [oneAccepted]).2.targetHiddenBySeq 3 =
      some [7] := by decide
  have hbatched : (commitBatched countCells .mtp (sevenAt none) [oneAccepted]).2.targetHiddenBySeq 3 =
      none := by decide
  refine ⟨by decide, hserial, hbatched, fun h => ?_⟩
  have heq := congrFun h.hidden 3
  rw [hserial, hbatched] at heq
  cases heq

end PxqLlama.Spec.MtpState
