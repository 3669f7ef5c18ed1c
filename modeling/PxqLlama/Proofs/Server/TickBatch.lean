import PxqLlama.Server.TickBatch

/-!
# `Proofs.Server.TickBatch`: batches are uniform on a recurrent model

The batch of a tick on a recurrent model has the tokens of one prompt (`OnePrompt`), or it has the
same number of tokens for every slot that generates (`PureGeneration`). The second comes from
`commonDraftLen`: what a slot keeps of its draft (`PendingSlot.kept`) has the same length for all of
them (`length_kept`).

What was cut off a draft is in no row and not in the slot's token list (`TickAdded`).
-/

namespace PxqLlama.Server

/-! ### What a slot adds -/

/-- What a slot keeps of its draft. -/
def PendingSlot.kept (common : Option Nat) (ps : PendingSlot) : List Int :=
  if ps.emitSpec common then ps.cut common else []

/-- The rows of a slot that generates. -/
def PendingSlot.rows (common : Option Nat) (ps : PendingSlot) : List TickRow :=
  (ps.slot.sampled :: ps.kept common).map fun tok => ⟨tok, ps.slot.id, true⟩

@[simp] theorem length_rows (common : Option Nat) (ps : PendingSlot) :
    (ps.rows common).length = (ps.kept common).length + 1 := by
  simp [PendingSlot.rows]

variable {ps : PendingSlot} {cfg : TickConfig} {slot : TickSlot} {slots : List TickSlot}

theorem seqId_of_mem_rows {common : Option Nat} {row : TickRow} (h : row ∈ ps.rows common) :
    row.seqId = ps.slot.id := by
  obtain ⟨tok, -, rfl⟩ := List.mem_map.mp h
  rfl

theorem addPending_eq (common : Option Nat) (batch : List TickRow) (ps : PendingSlot) :
    (addPending common batch ps).1 = batch ++ ps.rows common ∧
      (addPending common batch ps).2.id = ps.slot.id ∧
      (addPending common batch ps).2.cacheTokens
        = ps.slot.cacheTokens ++ ps.slot.sampled :: ps.kept common := by
  unfold addPending PendingSlot.rows PendingSlot.kept
  by_cases hemit : ps.emitSpec common = true
  · rw [if_pos hemit, if_pos hemit]
    exact ⟨rfl, rfl, rfl⟩
  · rw [if_neg hemit, if_neg hemit]
    refine ⟨rfl, ?_⟩
    show (if _ then _ else _ : TickSlot).id = _ ∧ (if _ then _ else _ : TickSlot).cacheTokens = _
    split <;> exact ⟨rfl, rfl⟩

@[simp] theorem pendingSlot_slot (drafter : Drafter) (skipSpec : Bool) (slot : TickSlot) :
    (pendingSlot drafter skipSpec slot).slot = slot := by
  unfold pendingSlot
  simp only
  split <;> rfl

theorem minUsable_of_doSpec (drafter : Drafter) (skipSpec : Bool) (slot : TickSlot) :
    (pendingSlot drafter skipSpec slot).doSpec = true →
      (pendingSlot drafter skipSpec slot).minUsable = slot.minUsable := by
  unfold pendingSlot
  simp only
  split
  · exact fun _ => rfl
  · exact fun h => absurd h Bool.false_ne_true

theorem draft_initial (drafter : Drafter) (skipSpec : Bool) (slot : TickSlot) :
    (pendingSlot drafter skipSpec slot).draft <+: (drafter slot).tokens := by
  unfold pendingSlot
  simp only
  split
  · show (if _ then _ else _) <+: _
    split
    · exact List.take_prefix _ _
    · exact List.prefix_refl _
  · exact List.nil_prefix

theorem cut_prefix (common : Option Nat) (ps : PendingSlot) : ps.cut common <+: ps.draft := by
  unfold PendingSlot.cut
  split
  · split
    · exact List.take_prefix _ _
    · exact List.prefix_refl _
  · exact List.prefix_refl _

theorem kept_initial (common : Option Nat) (ps : PendingSlot) : ps.kept common <+: ps.draft := by
  unfold PendingSlot.kept
  split
  · exact cut_prefix common ps
  · exact List.nil_prefix

/-! ### One length for all -/

theorem kept_of_zero (ps : PendingSlot) : ps.kept (some 0) = [] := by
  unfold PendingSlot.kept PendingSlot.emitSpec
  by_cases hspec : ps.doSpec = true
  · simp [PendingSlot.cut, hspec]
  · simp [hspec]

theorem kept_of_not_doSpec (h : ps.doSpec = false) (common : Option Nat) : ps.kept common = [] := by
  simp [PendingSlot.kept, PendingSlot.emitSpec, h]

/-- A draft that is long enough is kept up to the common length. -/
theorem length_kept_of_le {common : Nat} (hspec : ps.doSpec = true)
    (hlen : common ≤ ps.draft.length) (husable : ps.slot.minUsable ≤ (common : Int)) :
    (ps.kept (some common)).length = common := by
  have hcut : (ps.cut (some common)).length = common := by
    simp [PendingSlot.cut, hspec, hlen]
  unfold PendingSlot.kept PendingSlot.emitSpec
  rw [hcut]
  by_cases hzero : common = 0
  · have hnil : ps.cut (some common) = [] := List.length_eq_zero_iff.mp (hcut.trans hzero)
    rw [hnil, hzero]
    split <;> rfl
  · have hne : (ps.cut (some common)).isEmpty = false := by
      rw [List.isEmpty_eq_false_iff, ← List.length_pos_iff]
      omega
    simp [hspec, husable, hne, hcut]

theorem le_foldl_max {l : List PendingSlot} (h : ps ∈ l) (m : Int) :
    ps.minUsable ≤ l.foldl (fun m ps => max m ps.minUsable) m := by
  have hmono : ∀ (l : List PendingSlot) (m : Int),
      m ≤ l.foldl (fun m ps => max m ps.minUsable) m := by
    intro l
    induction l with
    | nil => exact fun m => Int.le_refl m
    | cons p l ih => exact fun m => Int.le_trans (Int.le_max_left m p.minUsable) (ih _)
  induction l generalizing m with
  | nil => cases h
  | cons p l ih =>
    cases h with
    | head => exact Int.le_trans (Int.le_max_right m _) (hmono l _)
    | tail _ h => exact ih h _

/-- With a draft for each slot the shortest one decides, if it is long enough for all. -/
theorem length_kept_common {pending : List PendingSlot}
    (hspec : ∀ ps ∈ pending, ps.doSpec = true)
    (husable : ∀ ps ∈ pending, ps.doSpec = true → ps.minUsable = ps.slot.minUsable) :
    ∃ n, ∀ ps ∈ pending, (ps.kept
      (if (((pending.map fun ps => ps.draft.length).min?.getD 0 : Nat) : Int)
          < pending.foldl (fun m ps => max m ps.minUsable) 0 then some 0
        else some ((pending.map fun ps => ps.draft.length).min?.getD 0))).length = n := by
  split
  · exact ⟨0, fun ps _ => by rw [kept_of_zero]; rfl⟩
  · rename_i hle
    refine ⟨(pending.map fun ps => ps.draft.length).min?.getD 0, fun ps hps => ?_⟩
    have hmin : (pending.map fun ps => ps.draft.length).min?.getD 0 ≤ ps.draft.length :=
      List.min?_getD_le_of_mem (List.mem_map_of_mem hps)
    have hmax := le_foldl_max hps 0
    rw [husable ps hps (hspec ps hps)] at hmax
    exact length_kept_of_le (hspec ps hps) hmin (by omega)

/-- All slots that generate keep the same number of drafted tokens. -/
theorem length_kept (hrec : cfg.hasRecurrent = true) (drafter : Drafter) (skipSpec : Bool)
    (slots : List TickSlot) :
    ∃ n, ∀ ps ∈ pendingSlots drafter skipSpec slots,
      (ps.kept (commonDraftLen cfg (pendingSlots drafter skipSpec slots))).length = n := by
  have husable : ∀ ps ∈ pendingSlots drafter skipSpec slots,
      ps.doSpec = true → ps.minUsable = ps.slot.minUsable := by
    intro ps hps
    obtain ⟨slot, -, rfl⟩ := List.mem_map.mp hps
    rw [pendingSlot_slot]
    exact minUsable_of_doSpec drafter skipSpec slot
  generalize pendingSlots drafter skipSpec slots = pending at husable ⊢
  by_cases htwo : 2 ≤ pending.length
  · have hif : 2 ≤ pending.length ∧ cfg.hasRecurrent = true := ⟨htwo, hrec⟩
    rw [commonDraftLen, if_pos hif]
    by_cases hsome : 1 ≤ (pending.filter PendingSlot.doSpec).length
    · rw [if_pos hsome]
      by_cases hall : (pending.filter PendingSlot.doSpec).length ≠ pending.length
      · -- one slot has no draft, and no slot keeps one
        rw [if_pos hall]
        exact ⟨0, fun ps _ => by rw [kept_of_zero]; rfl⟩
      · rw [if_neg hall]
        have hspec : ∀ ps ∈ pending, ps.doSpec = true :=
          List.length_filter_eq_length_iff.mp (Decidable.not_not.mp hall)
        rw [List.filter_eq_self.mpr hspec]
        exact length_kept_common hspec husable
    · -- no slot drafts
      rw [if_neg hsome]
      refine ⟨0, fun ps hps => ?_⟩
      have hno : ps.doSpec = false := by
        cases hspec : ps.doSpec with
        | false => rfl
        | true => exact absurd (List.length_pos_of_mem (List.mem_filter.mpr ⟨hps, hspec⟩)) hsome
      rw [kept_of_not_doSpec hno]
      rfl
  · -- a single slot
    cases pending with
    | nil => exact ⟨0, fun ps hps => absurd hps List.not_mem_nil⟩
    | cons ps rest =>
      have hrest : rest = [] := by
        rw [List.length_cons] at htwo
        exact List.length_eq_zero_iff.mp (by omega)
      subst hrest
      refine ⟨(ps.kept (commonDraftLen cfg [ps])).length, fun ps' hps' => ?_⟩
      rw [List.mem_singleton.mp hps']

/-! ### The batch of the slots that generate -/

/-- The rows of the slots, in their order. -/
theorem addPendings_batch (common : Option Nat) (drafter : Drafter) (skipSpec : Bool)
    (batch : List TickRow) (slots : List TickSlot) :
    (addPendings common drafter skipSpec batch slots).1
      = batch ++ (pendingSlots drafter skipSpec slots).flatMap (PendingSlot.rows common) := by
  induction slots generalizing batch with
  | nil => simp [addPendings, pendingSlots]
  | cons slot slots ih =>
    by_cases hproc : slot.processing = true
    · have hpending : pendingSlots drafter skipSpec (slot :: slots)
          = pendingSlot drafter skipSpec slot :: pendingSlots drafter skipSpec slots := by
        simp [pendingSlots, hproc]
      rw [addPendings, if_pos hproc, hpending]
      show (addPendings common drafter skipSpec _ slots).1 = _
      rw [ih, (addPending_eq common batch _).1, List.flatMap_cons, List.append_assoc]
    · have hpending : pendingSlots drafter skipSpec (slot :: slots)
          = pendingSlots drafter skipSpec slots := by
        simp [pendingSlots, hproc]
      rw [addPendings, if_neg hproc, hpending]
      exact ih batch

/-- A slot that generates has its tokens appended. -/
theorem addPendings_slots (common : Option Nat) (drafter : Drafter) (skipSpec : Bool)
    (batch : List TickRow) (slots : List TickSlot) (hslot : slot ∈ slots)
    (hproc : slot.processing = true) :
    ∃ slot' ∈ (addPendings common drafter skipSpec batch slots).2, slot'.id = slot.id ∧
      slot'.cacheTokens = slot.cacheTokens ++
        slot.sampled :: (pendingSlot drafter skipSpec slot).kept common := by
  induction slots generalizing batch with
  | nil => cases hslot
  | cons head slots ih =>
    rw [addPendings]
    by_cases hhead : head.processing = true
    · rw [if_pos hhead]
      cases hslot with
      | head =>
        have hadd := (addPending_eq common batch (pendingSlot drafter skipSpec slot)).2
        rw [pendingSlot_slot] at hadd
        exact ⟨_, List.mem_cons_self, hadd⟩
      | tail _ hslot =>
        obtain ⟨slot', hmem, hslot'⟩ := ih (addPending common batch _).1 hslot
        exact ⟨slot', List.mem_cons_of_mem _ hmem, hslot'⟩
    · rw [if_neg hhead]
      cases hslot with
      | head => exact absurd hproc hhead
      | tail _ hslot =>
        obtain ⟨slot', hmem, hslot'⟩ := ih batch hslot
        exact ⟨slot', List.mem_cons_of_mem _ hmem, hslot'⟩

/-- The rows of one slot in the batch are its own. -/
theorem filter_rows (common : Option Nat) {pending : List PendingSlot}
    (hids : (pending.map fun ps => ps.slot.id).Nodup) (hps : ps ∈ pending) :
    (pending.flatMap (PendingSlot.rows common)).filter (fun row => row.seqId = ps.slot.id)
      = ps.rows common := by
  have hother : ∀ ps' : PendingSlot, ps'.slot.id ≠ ps.slot.id →
      (ps'.rows common).filter (fun row => row.seqId = ps.slot.id) = [] := by
    intro ps' hne
    rw [List.filter_eq_nil_iff]
    intro row hrow
    rw [seqId_of_mem_rows hrow]
    simpa using hne
  have hown : (ps.rows common).filter (fun row => row.seqId = ps.slot.id) = ps.rows common := by
    rw [List.filter_eq_self]
    intro row hrow
    simpa using seqId_of_mem_rows hrow
  induction pending with
  | nil => cases hps
  | cons head pending ih =>
    rw [List.map_cons, List.nodup_cons] at hids
    rw [List.flatMap_cons, List.filter_append]
    cases hps with
    | head =>
      have hrest : (pending.flatMap (PendingSlot.rows common)).filter
          (fun row => row.seqId = ps.slot.id) = [] := by
        rw [List.filter_eq_nil_iff]
        intro row hrow hid
        obtain ⟨ps', hps', hrow'⟩ := List.mem_flatMap.mp hrow
        have hid' : ps'.slot.id = ps.slot.id := by
          rw [← seqId_of_mem_rows hrow']
          simpa using hid
        exact hids.1 (List.mem_map.mpr ⟨ps', hps', hid'⟩)
      rw [hown, hrest, List.append_nil]
    | tail _ hps =>
      have hne : head.slot.id ≠ ps.slot.id := by
        intro heq
        exact hids.1 (List.mem_map.mpr ⟨ps, hps, heq.symm⟩)
      rw [hother head hne, ih hids.2 hps, List.nil_append]

/-! ### The batch of a prompt -/

/-- Tokens of one prompt, appended to a batch. -/
theorem appendPrompt_eq (cfg : TickConfig) (rest : List Int) (batch : List TickRow)
    (slot : TickSlot) :
    ∃ added, (appendPrompt cfg rest batch slot).1 = batch ++ added ∧
      (∀ row ∈ added, row.seqId = slot.id) ∧ added.map TickRow.token <+: rest ∧
      (appendPrompt cfg rest batch slot).2.id = slot.id := by
  induction rest generalizing batch slot with
  | nil => exact ⟨[], (List.append_nil _).symm, by simp, List.nil_prefix, rfl⟩
  | cons curTok rest ih =>
    rw [appendPrompt]
    split
    · exact ⟨[], (List.append_nil _).symm, by simp, List.nil_prefix, rfl⟩
    · split
      · exact ⟨[], (List.append_nil _).symm, by simp, List.nil_prefix, rfl⟩
      · simp only
        split
        · -- a checkpoint ends the loop behind this token
          exact ⟨[⟨curTok, slot.id, cfg.promptLogits slot⟩], rfl, by simp,
            ⟨rest, rfl⟩, rfl⟩
        · obtain ⟨added, hbatch, hrows, htokens, hid⟩ := ih _ _
          refine ⟨⟨curTok, slot.id, cfg.promptLogits slot⟩ :: added, ?_, ?_, ?_, hid⟩
          · rw [hbatch, List.append_assoc]
            rfl
          · rw [List.forall_mem_cons]
            exact ⟨rfl, hrows⟩
          · exact List.cons_prefix_cons.mpr ⟨rfl, htokens⟩

theorem lastLogits_map (batch : List TickRow) :
    (lastLogits batch).map TickRow.token = batch.map TickRow.token ∧
      (lastLogits batch).map TickRow.seqId = batch.map TickRow.seqId := by
  unfold lastLogits
  cases hlast : batch.getLast? with
  | none => exact ⟨rfl, rfl⟩
  | some row =>
    obtain ⟨rows, rfl⟩ := List.getLast?_eq_some_iff.mp hlast
    simp

/-- The tokens of one prompt, and nothing else. -/
def OnePrompt (env : PromptEnv) (slots : List TickSlot) (batch : List TickRow) : Prop :=
  ∃ slot ∈ slots, slot.processing = false ∧ slot.loadPrompt = true ∧
    (∀ row ∈ batch, row.seqId = slot.id) ∧
    ∃ started, env.start slot = some started ∧
      batch.map TickRow.token <+: (keepCommon env started).promptRest

theorem keepCommon_id (env : PromptEnv) (slot : TickSlot) : (keepCommon env slot).id = slot.id := by
  unfold keepCommon
  split <;> rfl

/-- A prompt that is taken up with an empty batch. -/
theorem promptTurn_nil (cfg : TickConfig) (env : PromptEnv) (batchType : Int) (slot : TickSlot) :
    (promptTurn cfg env [] batchType slot).1 = [] ∨
      (∀ row ∈ (promptTurn cfg env [] batchType slot).1, row.seqId = slot.id) ∧
      ∃ started, env.start slot = some started ∧
        (promptTurn cfg env [] batchType slot).1.map TickRow.token
          <+: (keepCommon env started).promptRest := by
  unfold promptTurn
  cases hstart : env.start slot with
  | none => exact Or.inl rfl
  | some started =>
    simp only
    split
    · exact Or.inl rfl
    · split
      · exact Or.inl rfl
      · right
        obtain ⟨added, hbatch, hrows, htokens, -⟩ :=
          appendPrompt_eq cfg (keepCommon env started).promptRest [] (keepCommon env started)
        have hid : ∀ row ∈ added, row.seqId = slot.id := by
          intro row hrow
          rw [hrows row hrow, keepCommon_id, env.start_id hstart]
        rw [List.nil_append] at hbatch
        split
        · obtain ⟨htok, hseq⟩ := lastLogits_map added
          refine ⟨fun row hrow => ?_, started, rfl, ?_⟩
          · show row.seqId = slot.id
            have hmem : row.seqId ∈ added.map TickRow.seqId := by
              rw [← hseq, ← hbatch]
              exact List.mem_map_of_mem hrow
            obtain ⟨row', hrow', heq⟩ := List.mem_map.mp hmem
            rw [← heq, hid row' hrow']
          · show (lastLogits (appendPrompt cfg _ [] _).1).map TickRow.token <+: _
            rw [hbatch, htok]
            exact htokens
        · refine ⟨fun row hrow => hid row (hbatch ▸ hrow), started, rfl, ?_⟩
          show (appendPrompt cfg _ [] _).1.map TickRow.token <+: _
          rw [hbatch]
          exact htokens

/-- On a recurrent model the loop over the slots ends behind the first prompt with a token. -/
theorem pendingPrompts_added (hrec : cfg.hasRecurrent = true) (env : PromptEnv)
    (batch : List TickRow) (batchType : Int) (slots : List TickSlot) :
    pendingPrompts cfg env true batch batchType slots = (batch, batchType, slots) := by
  cases slots with
  | nil => rfl
  | cons slot slots => rw [pendingPrompts, if_pos ⟨hrec, rfl⟩]

/-- With recurrent layers a tick decodes no prompt, or one alone. -/
theorem pendingPrompts_batch (hrec : cfg.hasRecurrent = true) (env : PromptEnv) (batchType : Int)
    (slots : List TickSlot) :
    (pendingPrompts cfg env false [] batchType slots).1 = [] ∨
      OnePrompt env slots (pendingPrompts cfg env false [] batchType slots).1 := by
  induction slots generalizing batchType with
  | nil => exact Or.inl rfl
  | cons slot slots ih =>
    -- what the slot adds is all there is, or the loop goes on with the empty batch
    have htail : ∀ (batch : List TickRow) (batchType' : Int),
        (batch = [] ∨ OnePrompt env (slot :: slots) batch) →
        (pendingPrompts cfg env (decide (0 < batch.length)) batch batchType' slots).1 = [] ∨
        OnePrompt env (slot :: slots)
          (pendingPrompts cfg env (decide (0 < batch.length)) batch batchType' slots).1 := by
      intro batch batchType' hbatch
      cases batch with
      | nil =>
        refine (ih batchType').imp_right ?_
        rintro ⟨slot', hslot', hprompt⟩
        exact ⟨slot', List.mem_cons_of_mem _ hslot', hprompt⟩
      | cons row batch =>
        have hadded : decide (0 < (row :: batch).length) = true := by simp
        rw [hadded, pendingPrompts_added hrec]
        exact hbatch
    rw [pendingPrompts, if_neg (by simp)]
    by_cases hload : ¬ slot.processing = true ∧ slot.loadPrompt = true
    · rw [if_pos hload]
      have hturn : (promptTurn cfg env [] batchType slot).1 = [] ∨
          OnePrompt env (slot :: slots) (promptTurn cfg env [] batchType slot).1 := by
        refine (promptTurn_nil cfg env batchType slot).imp_right fun h => ?_
        exact ⟨slot, List.mem_cons_self, Bool.eq_false_iff.mpr hload.1, hload.2, h.1, h.2⟩
      simp only [List.length_nil, Bool.false_or]
      split
      · exact hturn
      · exact htail _ _ hturn
    · rw [if_neg hload]
      simp only [List.length_nil, Bool.false_or]
      split
      · exact Or.inl rfl
      · exact htail [] batchType (Or.inl rfl)

/-- A slot that generates stays as it is. -/
theorem mem_pendingPrompts (env : PromptEnv) (added : Bool) (batch : List TickRow)
    (batchType : Int) (hslot : slot ∈ slots) (hproc : slot.processing = true) :
    slot ∈ (pendingPrompts cfg env added batch batchType slots).2.2 := by
  induction slots generalizing added batch batchType with
  | nil => cases hslot
  | cons head slots ih =>
    rw [pendingPrompts]
    split
    · exact hslot
    · cases hslot with
      | head =>
        have hload : ¬ (¬ slot.processing = true ∧ slot.loadPrompt = true) := fun h => h.1 hproc
        rw [if_neg hload]
        simp only
        split <;> exact List.mem_cons_self
      | tail _ hslot =>
        generalize (if ¬ head.processing = true ∧ head.loadPrompt = true then
          promptTurn cfg env batch batchType head else (batch, batchType, head)) = turn
        simp only
        split
        · exact List.mem_cons_of_mem _ hslot
        · exact List.mem_cons_of_mem _ (ih _ _ _ hslot)

/-! ### The batch of a tick -/

/-- Tokens of slots that generate, as many for one as for another. -/
def PureGeneration (slots : List TickSlot) (batch : List TickRow) : Prop :=
  (∀ row ∈ batch, ∃ slot ∈ slots, slot.processing = true ∧ row.seqId = slot.id) ∧
    ∃ n, ∀ slot ∈ slots, slot.processing = true →
      (batch.filter fun row => row.seqId = slot.id).length = n

/-- What a tick adds for a slot that generates: nothing, or the sampled token and the beginning of
its draft. The same tokens are appended to the slot's own list. -/
def TickAdded (drafter : Drafter) (slot : TickSlot) (t : Tick) : Prop :=
  ∃ added, (added = [] ∨ ∃ kept, kept <+: (drafter slot).tokens ∧ added = slot.sampled :: kept) ∧
    (t.batch.filter fun row => row.seqId = slot.id).map TickRow.token = added ∧
    ∃ slot' ∈ t.slots, slot'.id = slot.id ∧ slot'.cacheTokens = slot.cacheTokens ++ added

theorem eq_of_id (hids : (slots.map TickSlot.id).Nodup) {slot' : TickSlot} (h : slot ∈ slots)
    (h' : slot' ∈ slots) (hid : slot.id = slot'.id) : slot = slot' :=
  List.inj_on_of_nodup_map hids h h' hid

/-- The rows of a slot that generates are in no prompt batch. -/
theorem filter_of_onePrompt {env : PromptEnv} {batch : List TickRow}
    (hids : (slots.map TickSlot.id).Nodup) (h : batch = [] ∨ OnePrompt env slots batch)
    (hslot : slot ∈ slots) (hproc : slot.processing = true) :
    batch.filter (fun row => row.seqId = slot.id) = [] := by
  rw [List.filter_eq_nil_iff]
  intro row hrow hid
  rcases h with rfl | ⟨slot', hslot', hidle, -, hrows, -⟩
  · cases hrow
  · have heq : slot'.id = slot.id := by
      rw [← hrows row hrow]
      simpa using hid
    rw [eq_of_id hids hslot' hslot heq, hproc] at hidle
    cases hidle

/-- Without prompts the batch has one run for each slot that generates. -/
theorem generation_uniform (hrec : cfg.hasRecurrent = true) (drafter : Drafter)
    (hids : (slots.map TickSlot.id).Nodup) :
    PureGeneration slots (addSampledTokens cfg drafter [] slots).1 ∧
      ∀ slot ∈ slots, slot.processing = true → ∃ kept, kept <+: (drafter slot).tokens ∧
        ((addSampledTokens cfg drafter [] slots).1.filter fun row => row.seqId = slot.id).map
          TickRow.token = slot.sampled :: kept ∧
        ∃ slot' ∈ (addSampledTokens cfg drafter [] slots).2, slot'.id = slot.id ∧
          slot'.cacheTokens = slot.cacheTokens ++ slot.sampled :: kept := by
  have hpending : ∀ slot ∈ slots, slot.processing = true →
      pendingSlot drafter (skipSpecThisTick cfg slots) slot
        ∈ pendingSlots drafter (skipSpecThisTick cfg slots) slots := by
    intro slot hslot hproc
    exact List.mem_map_of_mem (List.mem_filter.mpr ⟨hslot, hproc⟩)
  obtain ⟨n, hn⟩ := length_kept hrec drafter (skipSpecThisTick cfg slots) slots
  unfold addSampledTokens
  simp only
  generalize skipSpecThisTick cfg slots = skipSpec at hpending hn ⊢
  generalize commonDraftLen cfg (pendingSlots drafter skipSpec slots) = common at hn ⊢
  rw [addPendings_batch, List.nil_append]
  have hnodup : ((pendingSlots drafter skipSpec slots).map fun ps => ps.slot.id).Nodup := by
    have hmap : (pendingSlots drafter skipSpec slots).map (fun ps => ps.slot.id)
        = (slots.filter TickSlot.processing).map TickSlot.id := by
      simp [pendingSlots, Function.comp_def]
    rw [hmap]
    exact hids.sublist (List.filter_sublist.map _)
  have hrows : ∀ slot ∈ slots, slot.processing = true →
      ((pendingSlots drafter skipSpec slots).flatMap (PendingSlot.rows common)).filter
          (fun row => row.seqId = slot.id)
        = (pendingSlot drafter skipSpec slot).rows common := by
    intro slot hslot hproc
    have hfilter := filter_rows common hnodup (hpending slot hslot hproc)
    rw [pendingSlot_slot] at hfilter
    exact hfilter
  refine ⟨⟨?_, n + 1, ?_⟩, ?_⟩
  · intro row hrow
    obtain ⟨ps, hps, hrow'⟩ := List.mem_flatMap.mp hrow
    obtain ⟨slot, hslot, rfl⟩ := List.mem_map.mp hps
    obtain ⟨hmem, hproc⟩ := List.mem_filter.mp hslot
    refine ⟨slot, hmem, hproc, ?_⟩
    rw [seqId_of_mem_rows hrow', pendingSlot_slot]
  · intro slot hslot hproc
    rw [hrows slot hslot hproc, length_rows, hn _ (hpending slot hslot hproc)]
  · intro slot hslot hproc
    refine ⟨(pendingSlot drafter skipSpec slot).kept common,
      (kept_initial common _).trans (draft_initial drafter skipSpec slot), ?_,
      addPendings_slots common drafter skipSpec [] slots hslot hproc⟩
    rw [hrows slot hslot hproc]
    simp [PendingSlot.rows, Function.comp_def]

/-- Without a slot that generates there is nothing to add. -/
theorem addPendings_idle (common : Option Nat) (drafter : Drafter) (skipSpec : Bool)
    (batch : List TickRow) (hidle : ∀ slot ∈ slots, ¬ slot.processing = true) :
    addPendings common drafter skipSpec batch slots = (batch, slots) := by
  induction slots generalizing batch with
  | nil => rfl
  | cons slot slots ih =>
    rw [List.forall_mem_cons] at hidle
    rw [addPendings, if_neg hidle.1, ih batch hidle.2]

/-- The prompts of a batch that is empty so far. -/
theorem batchPendingPrompt_nil (hrec : cfg.hasRecurrent = true) (drafter : Drafter)
    (env : PromptEnv) (hids : (slots.map TickSlot.id).Nodup) (batchType : Int)
    (prevTickWasPrompt : Bool) :
    ((batchPendingPrompt cfg env [] batchType slots).1 = [] ∨
      OnePrompt env slots (batchPendingPrompt cfg env [] batchType slots).1) ∧
    ∀ slot ∈ slots, slot.processing = true →
      TickAdded drafter slot
        { batch := (batchPendingPrompt cfg env [] batchType slots).1
          batchType := (batchPendingPrompt cfg env [] batchType slots).2.1
          slots := (batchPendingPrompt cfg env [] batchType slots).2.2
          prevTickWasPrompt := prevTickWasPrompt } := by
  have hif : cfg.contBatching = true ∨ ([] : List TickRow) = [] := Or.inr rfl
  rw [batchPendingPrompt, if_pos hif]
  have hbatch := pendingPrompts_batch hrec env batchType slots
  refine ⟨hbatch, fun slot hslot hproc => ?_⟩
  show ∃ added, _ ∧ _ ∧ _
  refine ⟨[], Or.inl rfl, ?_, slot, mem_pendingPrompts env false [] batchType hslot hproc, rfl,
    (List.append_nil _).symm⟩
  show (List.filter _ (pendingPrompts cfg env false [] batchType slots).1).map TickRow.token = []
  rw [filter_of_onePrompt hids hbatch hslot hproc]
  rfl

/-- On a recurrent model the batch has the tokens of one prompt, or as many tokens for each slot
that generates. What was cut off a draft is not decoded. -/
theorem updateSlots_uniform {cfg : TickConfig} (hrec : cfg.hasRecurrent = true)
    (drafter : Drafter) (env : PromptEnv) (st : TickState) :
    ((updateSlots cfg drafter env st).batch = [] ∨
      OnePrompt env st.slots (updateSlots cfg drafter env st).batch ∨
      PureGeneration st.slots (updateSlots cfg drafter env st).batch) ∧
    ∀ slot ∈ st.slots, slot.processing = true →
      TickAdded drafter slot (updateSlots cfg drafter env st) := by
  have hprompt := batchPendingPrompt_nil hrec drafter env st.ids_nodup
  obtain ⟨hpure, hadded⟩ := generation_uniform hrec drafter st.ids_nodup
  unfold updateSlots
  simp only [hrec, Bool.true_and]
  generalize (cfg.interleaveOn && true &&
    (st.slots.any fun slot => !slot.processing && slot.loadPrompt) && !st.prevTickWasPrompt)
    = promptTick
  cases promptTick with
  | true =>
    -- the turn of a prompt: no token is sampled
    obtain ⟨hbatch, hslots⟩ := hprompt (-1) (decide
      ((batchPendingPrompt cfg env [] (-1) st.slots).1 ≠ []))
    exact ⟨hbatch.imp_right Or.inl, hslots⟩
  | false =>
    by_cases hany : ∃ slot ∈ st.slots, slot.processing = true
    · -- a slot generates, and prompts wait
      obtain ⟨slot, hslot, hproc⟩ := hany
      obtain ⟨kept, -, htokens, -⟩ := hadded slot hslot hproc
      have hne : (addSampledTokens cfg drafter [] st.slots).1 ≠ [] := by
        intro hnil
        rw [hnil] at htokens
        cases htokens
      simp only [Bool.false_eq_true, if_false, hne, decide_true, if_true, ne_eq, not_false_eq_true]
      refine ⟨Or.inr (Or.inr hpure), fun slot hslot hproc => ?_⟩
      obtain ⟨kept, hkept, htokens, hslot'⟩ := hadded slot hslot hproc
      exact ⟨slot.sampled :: kept, Or.inr ⟨kept, hkept, rfl⟩, htokens, hslot'⟩
    · have hidle : addSampledTokens cfg drafter [] st.slots = ([], st.slots) :=
        addPendings_idle _ drafter _ [] fun slot hslot hproc => hany ⟨slot, hslot, hproc⟩
      obtain ⟨hbatch, hslots⟩ := hprompt (-1) false
      simp only [Bool.false_eq_true, if_false, hidle, if_true, ne_eq, not_true_eq_false,
        decide_false, Bool.false_and]
      exact ⟨hbatch.imp_right Or.inl, hslots⟩

/-- Drafts of three tokens and of one: both slots decode two tokens. -/
theorem updateSlots_uniform_cut :
    (((updateSlots { hasRecurrent := true, nBatch := 8 }
        (fun slot => { nDraftMaxPre := 3, nDraftMax := 3, tokens := [7, 8, 9].take slot.id })
        { start := some, trims := fun _ => true, start_id := fun h => by cases h; rfl }
        { slots := [
            { id := 3, processing := true, loadPrompt := false, sampled := 5 },
            { id := 1, processing := true, loadPrompt := false, sampled := 6 },
            { id := 0, processing := false, loadPrompt := true, promptTokens := [1, 2] }]
          ids_nodup := by decide
          prevTickWasPrompt := true }).batch.map fun row => (row.token, row.seqId))
      = [(5, 3), (7, 3), (6, 1), (7, 1)]) ∧
    ∃ slot : TickSlot, slot.processing = true ∧ TickAdded
      (fun slot => { nDraftMaxPre := 3, nDraftMax := 3, tokens := [7, 8, 9].take slot.id }) slot
      (updateSlots { hasRecurrent := true, nBatch := 8 }
        (fun slot => { nDraftMaxPre := 3, nDraftMax := 3, tokens := [7, 8, 9].take slot.id })
        { start := some, trims := fun _ => true, start_id := fun h => by cases h; rfl }
        { slots := [
            { id := 3, processing := true, loadPrompt := false, sampled := 5 },
            { id := 1, processing := true, loadPrompt := false, sampled := 6 },
            { id := 0, processing := false, loadPrompt := true, promptTokens := [1, 2] }]
          ids_nodup := by decide
          prevTickWasPrompt := true }) := by
  refine ⟨by decide, { id := 3, processing := true, loadPrompt := false, sampled := 5 }, rfl, ?_⟩
  exact (updateSlots_uniform rfl _ _ _).2 _ List.mem_cons_self rfl

end PxqLlama.Server
