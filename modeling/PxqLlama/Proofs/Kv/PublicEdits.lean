import PxqLlama.Kv.Context
import PxqLlama.Kv.Edit

/-!
# `Proofs.Kv.PublicEdits`: one list of edits for both caches

A public edit makes the same edits of a cache to `kv_self` and, when it is active, to the
sliding cache (`kvStep_edits`): the one that was asked for, and for a removal the further ones
of the sequences whose coverage check fails. So what each edit of a cache keeps, the public
edits keep for both.
-/

namespace PxqLlama.Kv

/-- Edits of a cache, one after the other. -/
def editAll (c : KvCache) : List SeqEdit → Option KvCache
  | [] => some c
  | e :: es => (e.apply c).bind fun c => editAll c es

theorem editAll_append (c : KvCache) (es es' : List SeqEdit) :
    editAll c (es ++ es') = (editAll c es).bind fun c => editAll c es' := by
  induction es generalizing c with
  | nil => rfl
  | cons e es ih =>
    rw [List.cons_append, editAll, editAll, Option.bind_assoc]
    congr 1
    funext c
    exact ih c

/-- An edit requests no defragmentation. -/
theorem SeqEdit.apply_doDefrag {c c' : KvCache} {e : SeqEdit} (hrec : c.recurrent = false)
    (hcopy : c.qnextSlots = 0 ∨ e.NoCopy) (h : e.apply c = some c') :
    c'.doDefrag = c.doDefrag := by
  cases e with
  | rm s p0 p1 =>
    cases h
    rw [llamaKvCacheSeqRm]
    split <;> rfl
  | cp src dst p0 p1 =>
    rcases hcopy with hqnext | hno
    · rw [SeqEdit.apply, seqCp_eq hrec hqnext] at h
      cases h
      rfl
    · exact hno.elim
  | keep s =>
    cases h
    rfl
  | add s p0 p1 delta =>
    cases h
    simp only [llamaKvCacheSeqAdd, hrec, Bool.false_eq_true, if_false]
    split <;> rfl
  | div s p0 p1 d =>
    cases h
    simp only [llamaKvCacheSeqDiv, hrec, Bool.false_eq_true, if_false]
    split <;> rfl
  | clear =>
    cases h
    rfl

/-- No edit of the list copies a state. -/
def CopyFree (c : KvCache) (es : List SeqEdit) : Prop :=
  c.qnextSlots = 0 ∨ ∀ e ∈ es, e.NoCopy

theorem CopyFree.head {c : KvCache} {e : SeqEdit} {es : List SeqEdit}
    (h : CopyFree c (e :: es)) : c.qnextSlots = 0 ∨ e.NoCopy :=
  h.imp_right fun hes => hes e (List.mem_cons_self ..)

theorem CopyFree.tail {c c' : KvCache} {e : SeqEdit} {es : List SeqEdit}
    (h : CopyFree c (e :: es)) (hqnext : c'.qnextSlots = c.qnextSlots) : CopyFree c' es :=
  h.imp hqnext.trans fun hes e he => hes e (List.mem_cons_of_mem _ he)

/-- Edits request no defragmentation, and keep the kind of the cache. -/
theorem editAll_shape {c c' : KvCache} {es : List SeqEdit} (hrec : c.recurrent = false)
    (hcopy : CopyFree c es) (h : editAll c es = some c') :
    c'.doDefrag = c.doDefrag ∧ c'.recurrent = c.recurrent ∧ c'.qnextSlots = c.qnextSlots := by
  induction es generalizing c with
  | nil =>
    cases h
    exact ⟨rfl, rfl, rfl⟩
  | cons e es ih =>
    rw [editAll, Option.bind_eq_some_iff] at h
    obtain ⟨c₁, hc₁, hrest⟩ := h
    obtain ⟨c₂, hc₂, hedited⟩ := SeqEdit.apply_edited_of hrec hcopy.head
    obtain rfl : c₂ = c₁ := Option.some.inj (hc₂.symm.trans hc₁)
    obtain ⟨hdefrag, hrec', hqnext⟩ :=
      ih (hedited.recurrent.trans hrec) (hcopy.tail hedited.qnextSlots) hrest
    exact ⟨hdefrag.trans (SeqEdit.apply_doDefrag hrec hcopy.head hc₁),
      hrec'.trans hedited.recurrent, hqnext.trans hedited.qnextSlots⟩

/-- The edits were made to `kv_self` and, when it is active, to the sliding cache. -/
structure BothEdited (es : List SeqEdit) (ctx ctx' : KvContext) : Prop where
  eq : ctx' = { ctx with kvSelf := ctx'.kvSelf, kvSwa := ctx'.kvSwa }
  ok : ∀ e ∈ es, e.Ok
  self : editAll ctx.kvSelf es = some ctx'.kvSelf
  swa : ctx.swaKvActive = true → editAll ctx.kvSwa es = some ctx'.kvSwa
  idle : ctx.swaKvActive = false → ctx'.kvSwa = ctx.kvSwa

section
variable {ctx ctx' ctx'' : KvContext} {es es' : List SeqEdit}

theorem BothEdited.refl (ctx : KvContext) : BothEdited [] ctx ctx where
  eq := rfl
  ok := fun _ he => absurd he List.not_mem_nil
  self := rfl
  swa := fun _ => rfl
  idle := fun _ => rfl

theorem BothEdited.active (h : BothEdited es ctx ctx') : ctx'.swaKvActive = ctx.swaKvActive := by
  rw [h.eq]

theorem BothEdited.trans (h : BothEdited es ctx ctx') (h' : BothEdited es' ctx' ctx'') :
    BothEdited (es ++ es') ctx ctx'' where
  eq := by
    rw [h'.eq, h.eq]
  ok := by
    intro e he
    rcases List.mem_append.mp he with hin | hin
    · exact h.ok e hin
    · exact h'.ok e hin
  self := by rw [editAll_append, h.self, Option.bind_some, h'.self]
  swa := by
    intro hactive
    rw [editAll_append, h.swa hactive, Option.bind_some, h'.swa (h.active.trans hactive)]
  idle := by
    intro hidle
    rw [h'.idle (h.active.trans hidle), h.idle hidle]

/-- One edit of both caches. -/
theorem bothEdited_single (e : SeqEdit) (he : e.Ok) {kvSelf kvSwa : KvCache}
    (hself : e.apply ctx.kvSelf = some kvSelf)
    (hswa : ctx.swaKvActive = true → e.apply ctx.kvSwa = some kvSwa)
    (hidle : ctx.swaKvActive = false → kvSwa = ctx.kvSwa) :
    BothEdited [e] ctx { ctx with kvSelf := kvSelf, kvSwa := kvSwa } where
  eq := rfl
  ok := by
    intro e' he'
    rw [List.mem_singleton.mp he']
    exact he
  self := by rw [editAll, hself, Option.bind_some, editAll]
  swa := by
    intro hactive
    rw [editAll, hswa hactive, Option.bind_some, editAll]
  idle := hidle

theorem bothEdited_editBoth (e : SeqEdit) (he : e.Ok) {f : KvCache → KvCache}
    (hf : ∀ c, e.apply c = some (f c)) : BothEdited [e] ctx (editBoth ctx f) := by
  rw [editBoth]
  refine bothEdited_single e he (hf _) (fun hactive => ?_) fun hidle => ?_
  · rw [hactive]
    exact hf _
  · rw [hidle]
    rfl

theorem noCopy_nil : ∀ e ∈ ([] : List SeqEdit), e.NoCopy :=
  fun _ he => absurd he List.not_mem_nil

theorem noCopy_rm {s p0 p1 : Int} : ∀ e ∈ [SeqEdit.rm s p0 p1], e.NoCopy := by
  intro e he
  rw [List.mem_singleton.mp he]
  trivial

theorem noCopy_append (hes : ∀ e ∈ es, e.NoCopy) (hes' : ∀ e ∈ es', e.NoCopy) :
    ∀ e ∈ es ++ es', e.NoCopy :=
  fun e he => (List.mem_append.mp he).elim (hes e) (hes' e)

/-- A coverage check makes no edit, or removes the sequence. -/
theorem coverageCheck_edits (hactive : ctx.swaKvActive = true) (s : Int) :
    ∃ es, BothEdited es ctx (coverageCheck ctx s).2 ∧ ∀ e ∈ es, e.NoCopy := by
  rw [coverageCheck]
  split
  · exact ⟨[], BothEdited.refl ctx, noCopy_nil⟩
  · refine ⟨_, bothEdited_single (.rm s (-1) (-1)) trivial rfl (fun _ => rfl) fun hidle => ?_,
      noCopy_rm⟩
    rw [hactive] at hidle
    cases hidle

/-- A public removal is a list of edits of both caches, none of them a copy. -/
theorem kvSeqRm_edits (ctx : KvContext) (s p0 p1 : Int) :
    ∃ es, BothEdited es ctx (kvSeqRm ctx s p0 p1).2 ∧ ∀ e ∈ es, e.NoCopy := by
  simp only [kvSeqRm]
  split
  · rename_i hactive
    have hrm : BothEdited [.rm s p0 p1] ctx { ctx with
        kvSelf := (llamaKvCacheSeqRm ctx.kvSelf s p0 p1).2
        kvSwa := (llamaKvCacheSeqRm ctx.kvSwa s p0 p1).2 } := by
      refine bothEdited_single (.rm s p0 p1) trivial rfl (fun _ => rfl) fun hidle => ?_
      rw [hactive] at hidle
      cases hidle
    split
    · obtain ⟨es, hes, hcopy⟩ := coverageCheck_edits (hrm.active.trans hactive) s
      exact ⟨_, hrm.trans hes, noCopy_append noCopy_rm hcopy⟩
    · -- the checks of all sequences, one after the other
      have hfold : ∀ (seqs : List Int) (acc : Bool × KvContext), acc.2.swaKvActive = true →
          ∃ es, BothEdited es acc.2 (seqs.foldl (fun (acc : Bool × KvContext) s =>
            ((acc.1 && (coverageCheck acc.2 s).1), (coverageCheck acc.2 s).2)) acc).2 ∧
            ∀ e ∈ es, e.NoCopy := by
        intro seqs
        induction seqs with
        | nil => exact fun acc _ => ⟨[], BothEdited.refl acc.2, noCopy_nil⟩
        | cons s seqs ih =>
          intro acc hacc
          obtain ⟨es, hes, hcopy⟩ := coverageCheck_edits hacc s
          obtain ⟨es', hes', hcopy'⟩ := ih
            (acc.1 && (coverageCheck acc.2 s).1, (coverageCheck acc.2 s).2)
            (hes.active.trans hacc)
          exact ⟨_, hes.trans hes', noCopy_append hcopy hcopy'⟩
      obtain ⟨es, hes, hcopy⟩ := hfold _ (true, _) (hrm.active.trans hactive)
      exact ⟨_, hrm.trans hes, noCopy_append noCopy_rm hcopy⟩
  · rename_i hidle
    refine ⟨_, bothEdited_single (.rm s p0 p1) trivial rfl (fun hactive => ?_) fun _ => rfl,
      noCopy_rm⟩
    exact absurd hactive hidle

end

/-- The call is an edit, and divides by one or more. -/
def KvOp.IsEdit : KvOp → Prop
  | .decode _ | .defrag | .update => False
  | .seqDiv _ _ _ d => 1 ≤ d
  | _ => True

/-- A public edit makes the same edits to both caches. -/
theorem kvStep_edits {ctx ctx' : KvContext} {op : KvOp} (hop : op.IsEdit)
    (h : kvStep ctx op = some ctx') :
    ∃ es, BothEdited es ctx ctx' ∧ (op.NoCopy → ∀ e ∈ es, e.NoCopy) := by
  have hsingle : ∀ {e : SeqEdit}, BothEdited [e] ctx ctx' → (op.NoCopy → e.NoCopy) →
      ∃ es, BothEdited es ctx ctx' ∧ (op.NoCopy → ∀ e ∈ es, e.NoCopy) := by
    intro e he hcopy
    refine ⟨[e], he, fun hno e' he' => ?_⟩
    rw [List.mem_singleton.mp he']
    exact hcopy hno
  have hnone : ctx' = ctx →
      ∃ es, BothEdited es ctx ctx' ∧ (op.NoCopy → ∀ e ∈ es, e.NoCopy) := by
    rintro rfl
    exact ⟨[], BothEdited.refl _, fun _ => noCopy_nil⟩
  cases op with
  | decode b => exact hop.elim
  | seqRm s p0 p1 =>
    cases h
    obtain ⟨es, hes, hcopy⟩ := kvSeqRm_edits ctx s p0 p1
    exact ⟨es, hes, fun _ => hcopy⟩
  | seqCp src dst p0 p1 =>
    simp only [kvStep, kvSeqCp] at h
    split at h
    · exact hnone (Option.some.inj h).symm
    · split at h
      · cases h
      · rename_i kvSelf hself
        split at h
        · rename_i hactive
          split at h
          · cases h
          · rename_i kvSwa hswa
            cases h
            refine hsingle (bothEdited_single (.cp src dst p0 p1) trivial hself (fun _ => hswa) ?_)
              id
            intro hidle
            rw [hactive] at hidle
            cases hidle
        · rename_i hidle
          cases h
          refine hsingle (bothEdited_single (.cp src dst p0 p1) trivial hself (fun hactive => ?_)
            fun _ => rfl) id
          exact absurd hactive hidle
  | seqKeep s =>
    cases h
    exact hsingle (bothEdited_editBoth (.keep s) trivial fun _ => rfl) id
  | seqAdd s p0 p1 delta =>
    simp only [kvStep, kvSeqAdd] at h
    split at h
    · exact hnone (Option.some.inj h).symm
    · cases h
      exact hsingle (bothEdited_editBoth (.add s p0 p1 delta) trivial fun _ => rfl) id
  | seqDiv s p0 p1 d =>
    simp only [kvStep, kvSeqDiv] at h
    split at h
    · exact hnone (Option.some.inj h).symm
    · cases h
      exact hsingle (bothEdited_editBoth (.div s p0 p1 d) hop fun _ => rfl) id
  | clear =>
    cases h
    refine hsingle (bothEdited_single .clear trivial rfl (fun hactive => ?_) fun hidle => ?_) id
    · rw [hactive]
      rfl
    · rw [hidle]
      rfl
  | defrag => exact hop.elim
  | update => exact hop.elim

/-- A public edit that copies no recurrent state does not abort. -/
theorem kvStep_edits_isSome {ctx : KvContext} {op : KvOp} (hop : op.IsEdit)
    (hself : ctx.kvSelf.recurrent = false) (hswa : ctx.kvSwa.recurrent = false)
    (hcopy : (ctx.kvSelf.qnextSlots = 0 ∧ ctx.kvSwa.qnextSlots = 0) ∨ op.NoCopy) :
    ∃ ctx', kvStep ctx op = some ctx' := by
  cases op with
  | decode b => exact hop.elim
  | seqCp src dst p0 p1 =>
    rcases hcopy with ⟨hqself, hqswa⟩ | hno
    · simp only [kvStep, kvSeqCp, seqCp_eq hself hqself, seqCp_eq hswa hqswa]
      split
      · exact ⟨_, rfl⟩
      · split <;> exact ⟨_, rfl⟩
    · exact hno.elim
  | defrag => exact hop.elim
  | update => exact hop.elim
  | _ => exact ⟨_, rfl⟩

/-! ### Updates -/

/-- With no defragmentation due an update ends with the state copy. -/
theorem updateDefrag_idle {ctx : KvContext} (hdefrag : ctx.kvSelf.doDefrag = false) :
    updateDefrag (updateCopy ctx) = some (updateCopy ctx) := by
  have hno : (updateCopy ctx).kvSelf.doDefrag = false := by
    rw [updateCopy]
    split <;> exact hdefrag
  rw [updateDefrag, if_neg (by simp [hno])]

/-- Without states to copy and with no defragmentation due, an update is the K-shift. -/
theorem update_shift_only (ctx : KvContext) (hrec : ctx.kvSelf.recurrent = false)
    (hqnext : ctx.kvSelf.qnextSlots = 0) (hdefrag : ctx.kvSelf.doDefrag = false) :
    updateDefrag (updateCopy ctx) = some ctx := by
  rw [updateCopy, if_neg (by simp [hrec, KvCache.hasQnextState, hqnext]), updateDefrag,
    if_neg (by simp [hdefrag])]

/-- What such an update does: nothing, or it clears the shift of both caches. -/
theorem update_plain_cases {ctx ctx' : KvContext} {ret : Nat}
    (hrec : ctx.kvSelf.recurrent = false) (hqnext : ctx.kvSelf.qnextSlots = 0)
    (hdefrag : ctx.kvSelf.doDefrag = false) (h : llamaKvCacheUpdate ctx = some (ret, ctx')) :
    ctx' = ctx ∨ ctx' = { ctx with
      kvSelf := clearShift ctx.kvSelf
      kvSwa := if ctx.swaKvActive then clearShift ctx.kvSwa else ctx.kvSwa } := by
  rw [llamaKvCacheUpdate] at h
  cases hshift : updateShift ctx with
  | none =>
    rw [hshift] at h
    cases h
    exact Or.inl rfl
  | some ctx₁ =>
    simp only [hshift] at h
    rcases updateShift_cases hshift with rfl | rfl
    · rw [update_shift_only _ hrec hqnext hdefrag] at h
      cases h
      exact Or.inl rfl
    · have hnext := update_shift_only { ctx with
          kvSelf := clearShift ctx.kvSelf
          kvSwa := if ctx.swaKvActive then clearShift ctx.kvSwa else ctx.kvSwa }
        hrec hqnext hdefrag
      simp only [hnext] at h
      cases h
      exact Or.inr rfl

end PxqLlama.Kv
