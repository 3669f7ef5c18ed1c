import Mathlib.Data.List.Nodup
import PxqLlama.Server.Sample
import PxqLlama.Proofs.Server.BatchLoop

/-!
# `Proofs.Server.Sample`: which rows are the right ones

A plain slot always samples from the row of its own last token. A draft is verified after the
first chunk that was decoded, from the batch indices of its tokens, so its tokens must all be in
that chunk. The probabilities of accepted tokens are read by the place in the accepted list, from
the batch that was decoded last, which may be the second decode of some slot. `rowsRight_iff` says
exactly when all rows are right.
-/

namespace PxqLlama.Server

/-! ### The statement -/

/-- The row is that of the token which the result follows, and a draft is verified when all of its
tokens were decoded. -/
def SampleEvent.Right : SampleEvent → Prop
  | .token _ follows row => row = some follows
  | .probs _ follows row => row = some follows
  | .verify _ draft decoded => ∀ k ∈ draft, (k : Int) < decoded

instance (e : SampleEvent) : Decidable e.Right :=
  match e with
  | .token _ follows row => inferInstanceAs (Decidable (row = some follows))
  | .probs _ follows row => inferInstanceAs (Decidable (row = some follows))
  | .verify _ draft decoded => inferInstanceAs (Decidable (∀ k ∈ draft, (k : Int) < decoded))

/-- The slots at the start of a tick: different ids, and nothing left from an earlier batch in a
slot that generates or that was launched with a prompt. -/
structure TickStart (slots : List SampleSlot) : Prop where
  ids : (slots.map SampleSlot.id).Nodup
  generating : ∀ s ∈ slots, s.processing = true → s.iBatch = -1 ∧ s.iBatchDft = []
  prompted : ∀ s ∈ slots, ∀ more done, s.work = .prompt more done → s.iBatchDft = []

/-- The slots whose drafts are verified. -/
def SampleEnv.verifies (env : SampleEnv) (slot : SampleSlot) : Bool :=
  slot.processing && decide (slot.iBatchDft ≠ []) && !env.sampleFails slot.id

/-- The last slot that decodes accepted tokens again. -/
def SampleEnv.lastRedecode (env : SampleEnv) (slots : List SampleSlot) : Option SampleSlot :=
  (slots.filter fun s => env.verifies s && s.redecodes (env.ids s)).getLast?

/-- The probabilities of the accepted token `j` of a slot, which comes after the slots `before`:
after sampling only the candidates of the last token are there; otherwise the row of the verified
batch is that of the draft only when the slot comes first, and the row of a second decode only when
it is the slot's own and has logits. -/
def ProbsRight (env : SampleEnv) (before : List SampleSlot) (slot : SampleSlot) (j : Nat) : Prop :=
  if slot.postSamplingProbs then j + 1 = env.ids slot
  else
    match env.lastRedecode (before ++ [slot]) with
    | none => slot.iBatchDft[j]? = some j
    | some r => r.id = slot.id ∧ (slot.hasMtp = true ∨ j + 1 = env.ids slot)

/-- The rows of a slot with a draft are right when the first chunk has `n` tokens. -/
def DraftRight (env : SampleEnv) (n : Int) (before : List SampleSlot) (slot : SampleSlot) : Prop :=
  (∀ k ∈ slot.iBatchDft, (k : Int) < n) ∧
    (0 < slot.nProbs → ∀ j < env.emitted slot, ProbsRight env before slot j)

/-- The rows of all slots whose drafts are verified. -/
def DraftsRight (env : SampleEnv) (n : Int) (slots : List SampleSlot) : Prop :=
  ∀ before slot after, slots = before ++ slot :: after → env.verifies slot = true →
    DraftRight env n before slot

/-! ### The batch of a tick -/

/-- The batch indices of a slot that generates are those of its own tokens. -/
structure Placed (batch : List BatchRow) (slot : SampleSlot) : Prop where
  plain : slot.processing = true → slot.iBatchDft = [] →
    slot.iBatch = -1 ∨ ∃ k : Nat, slot.iBatch = k ∧
      batch[k]? = some (⟨slot.id, slot.posNext - 1⟩, true)
  draft : slot.processing = true → ∀ j k, slot.iBatchDft[j]? = some k →
    batch[k]? = some (slot.draftToken j, true)
  length : slot.processing = true → slot.iBatchDft ≠ [] →
    slot.iBatchDft.length = slot.drafted + 1
  drafting : slot.processing = true → slot.iBatchDft ≠ [] → slot.iBatch = -1

variable {slot : SampleSlot}

variable {batch : List BatchRow}

theorem placed_of_not_processing (h : slot.processing = false) : Placed batch slot := by
  constructor <;> intro hp <;> exact absurd hp (by simp [h])

/-- A slot that has no batch index and no draft. -/
theorem placed_of_drained (hbatch : slot.iBatch = -1) (hdft : slot.iBatchDft = []) :
    Placed batch slot where
  plain _ _ := Or.inl hbatch
  draft _ j k hk := absurd hk (by simp [hdft])
  length _ hne := absurd hdft hne
  drafting _ hne := absurd hdft hne

theorem Placed.append {batch : List BatchRow} {slot : SampleSlot} (h : Placed batch slot)
    (more : List BatchRow) : Placed (batch ++ more) slot where
  plain hp hd := by
    rcases h.plain hp hd with hnone | ⟨k, hk, hget⟩
    · exact Or.inl hnone
    · refine Or.inr ⟨k, hk, ?_⟩
      rw [List.getElem?_append_left (List.getElem?_eq_some_iff.mp hget).1, hget]
  draft hp j k hk := by
    have hget := h.draft hp j k hk
    rw [List.getElem?_append_left (List.getElem?_eq_some_iff.mp hget).1, hget]
  length := h.length
  drafting := h.drafting

/-- A batch that is built of the tokens of some slots: no token twice, none from the positions that
a slot has yet to add, and the indices of each slot are its own. -/
structure Built (batch : List BatchRow) (slots : List SampleSlot) : Prop where
  nodup : (batch.map Prod.fst).Nodup
  before : ∀ s ∈ slots, ∀ r ∈ batch, r.1.seqId = s.id → r.1.pos < s.posNext
  placed : ∀ s ∈ slots, Placed batch s

/-- What adding the tokens of one slot does. -/
structure Added (batch : List BatchRow) (slot : SampleSlot) (batch' : List BatchRow)
    (slot' : SampleSlot) : Prop where
  id : slot'.id = slot.id
  rows : ∃ n logits, batch' = batch ++ slot.rows n logits ∧ slot'.posNext = slot.posNext + n
  placed : Placed batch slot → Placed batch' slot'

variable {n : Nat}

theorem mem_rows {logits : Nat → Bool} {r : BatchRow} (h : r ∈ slot.rows n logits) :
    r.1.seqId = slot.id ∧ slot.posNext ≤ r.1.pos ∧ r.1.pos < slot.posNext + n := by
  rw [SampleSlot.rows, List.mem_map] at h
  obtain ⟨j, hj, rfl⟩ := h
  rw [List.mem_range] at hj
  refine ⟨rfl, ?_, ?_⟩ <;> simp only <;> omega

theorem nodup_rows (slot : SampleSlot) (n : Nat) (logits : Nat → Bool) :
    ((slot.rows n logits).map Prod.fst).Nodup := by
  rw [SampleSlot.rows, List.map_map]
  refine List.Nodup.map_on (fun i _ j _ hij => ?_) List.nodup_range
  simp only [Function.comp_apply, BatchToken.mk.injEq] at hij
  omega

theorem getElem?_rows {logits : Nat → Bool} (batch : List BatchRow) {j : Nat} (hj : j < n) :
    (batch ++ slot.rows n logits)[batch.length + j]?
      = some (⟨slot.id, slot.posNext + j⟩, logits j) := by
  rw [List.getElem?_append_right (by omega), Nat.add_sub_cancel_left, SampleSlot.rows,
    List.getElem?_map, List.getElem?_range hj, Option.map_some]

/-- A slot adds its tokens to a batch that is built. -/
theorem Built.add {batch' : List BatchRow} {slot' : SampleSlot} {before after : List SampleSlot}
    (h : Built batch (before ++ slot :: after))
    (hids : ((before ++ slot :: after).map SampleSlot.id).Nodup)
    (hadd : Added batch slot batch' slot') : Built batch' (before ++ slot' :: after) := by
  obtain ⟨n, logits, rfl, hpos⟩ := hadd.rows
  have hmem : slot ∈ before ++ slot :: after := by simp
  -- the other slots have other ids
  have hother : ∀ s ∈ before ++ after, s.id ≠ slot.id := by
    intro s hs heq
    rw [List.map_append, List.map_cons, List.nodup_middle, List.nodup_cons] at hids
    refine hids.1 ?_
    rw [← List.map_append, ← heq]
    exact List.mem_map_of_mem hs
  have hsplit : ∀ s ∈ before ++ slot' :: after, s = slot' ∨ s ∈ before ++ after := by
    intro s hs
    simp only [List.mem_append, List.mem_cons] at hs ⊢
    tauto
  have hkept : ∀ s ∈ before ++ after, s ∈ before ++ slot :: after := by
    intro s hs
    simp only [List.mem_append, List.mem_cons] at hs ⊢
    tauto
  refine ⟨?_, fun s hs r hr hid => ?_, fun s hs => ?_⟩
  · rw [List.map_append]
    refine List.nodup_append'.mpr ⟨h.nodup, nodup_rows slot n logits, fun t ht ht' => ?_⟩
    obtain ⟨r, hr, rfl⟩ := List.mem_map.mp ht
    obtain ⟨r', hr', heq⟩ := List.mem_map.mp ht'
    obtain ⟨hid, hge, -⟩ := mem_rows hr'
    rw [heq] at hid hge
    have hlt := h.before slot hmem r hr hid
    omega
  · rcases hsplit s hs with rfl | hs
    · rw [hpos]
      rcases List.mem_append.mp hr with hr | hr
      · rw [hadd.id] at hid
        have hlt := h.before slot hmem r hr hid
        omega
      · exact (mem_rows hr).2.2
    · rcases List.mem_append.mp hr with hr | hr
      · exact h.before s (hkept s hs) r hr hid
      · exact absurd (hid.symm.trans (mem_rows hr).1) (hother s hs)
  · rcases hsplit s hs with rfl | hs
    · exact hadd.placed (h.placed slot hmem)
    · exact (h.placed s (hkept s hs)).append _

variable {add : List BatchRow → SampleSlot → List BatchRow × SampleSlot}

theorem addEach_ids (hadd : ∀ batch slot, (add batch slot).2.id = slot.id) (batch : List BatchRow)
    (slots : List SampleSlot) :
    (addEach add batch slots).2.map SampleSlot.id = slots.map SampleSlot.id := by
  induction slots generalizing batch with
  | nil => rfl
  | cons slot slots ih =>
    rw [addEach, List.map_cons, List.map_cons, ih (add batch slot).1, hadd batch slot]

variable {slots : List SampleSlot}

/-- A pass over the slots builds the batch further. -/
theorem built_addEach {ok : SampleSlot → Prop}
    (hadd : ∀ batch slot, ok slot → Added batch slot (add batch slot).1 (add batch slot).2)
    (before : List SampleSlot) (hok : ∀ s ∈ slots, ok s)
    (hids : ((before ++ slots).map SampleSlot.id).Nodup) (h : Built batch (before ++ slots)) :
    Built (addEach add batch slots).1 (before ++ (addEach add batch slots).2) := by
  induction slots generalizing batch before with
  | nil => exact h
  | cons slot slots ih =>
    rw [List.forall_mem_cons] at hok
    have hslot := hadd batch slot hok.1
    have hstep := h.add hids hslot
    rw [List.append_cons] at hstep
    have hids' : (((before ++ [(add batch slot).2]) ++ slots).map SampleSlot.id).Nodup := by
      rw [← List.append_cons, List.map_append, List.map_cons, hslot.id, ← List.map_cons,
        ← List.map_append]
      exact hids
    have hrest := ih (before ++ [(add batch slot).2]) hok.2 hids' hstep
    rw [← List.append_cons] at hrest
    exact hrest

theorem added_self (batch : List BatchRow) (slot : SampleSlot) : Added batch slot batch slot :=
  ⟨rfl, ⟨0, fun _ => true, by simp [SampleSlot.rows], by simp⟩, id⟩

/-- A generating slot at the start of a tick. -/
theorem added_addSampled (batch : List BatchRow)
    (h : slot.processing = true → slot.iBatch = -1 ∧ slot.iBatchDft = []) :
    Added batch slot (addSampled batch slot).1 (addSampled batch slot).2 := by
  rw [addSampled]
  split
  · exact added_self batch slot
  · rename_i hprocessing
    obtain ⟨hbatch, hdft⟩ := h (not_not.mp hprocessing)
    -- a plain slot has the index of the token that it adds
    have hplain : ∀ drafted, Placed (batch ++ slot.rows 1 fun _ => true)
        { slot with
          iBatch := batch.length, iBatchDft := [], drafted
          posNext := slot.posNext + (1 : Nat) } := by
      intro drafted
      refine ⟨fun _ _ => Or.inr ⟨batch.length, rfl, ?_⟩, fun _ j k hk => absurd hk (by simp),
        fun _ hne => absurd rfl hne, fun _ hne => absurd rfl hne⟩
      have hlast := @getElem?_rows slot 1 (fun _ => true) batch 0 Nat.zero_lt_one
      rw [Nat.add_zero] at hlast
      simp [hlast]
    split
    · rename_i draft _
      split
      · -- the indices are those of the tokens that are added
        refine ⟨rfl, ⟨draft + 1, _, rfl, rfl⟩, fun _ =>
          ⟨fun _ hd => ?_, fun _ j k hk => ?_, fun _ _ => ?_, fun _ _ => hbatch⟩⟩
        · simp [hdft] at hd
        · simp only [hdft, List.nil_append] at hk
          rw [List.getElem?_map, Option.map_eq_some_iff] at hk
          obtain ⟨i, hi, rfl⟩ := hk
          obtain ⟨hlt, hget⟩ := List.getElem?_eq_some_iff.mp hi
          rw [List.length_range] at hlt
          rw [List.getElem_range] at hget
          subst hget
          rw [getElem?_rows batch hlt, SampleSlot.draftToken]
          simp only [Option.some_inj, Prod.mk.injEq, BatchToken.mk.injEq, and_true, true_and]
          push_cast
          omega
        · simp [hdft]
      · exact ⟨rfl, ⟨1, _, rfl, rfl⟩, fun _ => hplain 0⟩
    · refine ⟨rfl, ⟨1, _, rfl, rfl⟩, fun _ => ?_⟩
      have hplaced := hplain slot.drafted
      rw [← hdft] at hplaced
      exact hplaced
    · exact added_self batch slot

/-- A slot with a pending prompt. -/
theorem added_addPrompt (batch : List BatchRow)
    (hdft : ∀ more done, slot.work = .prompt more done → slot.iBatchDft = []) :
    Added batch slot (addPrompt batch slot).1 (addPrompt batch slot).2 := by
  rw [addPrompt]
  split
  · exact added_self batch slot
  · split
    · rename_i more done hwork
      have hnil := hdft more done hwork
      refine ⟨rfl, ⟨more + 1, _, rfl, rfl⟩, fun _ => ⟨fun hp _ => Or.inr ?_,
        fun _ j k hk => ?_, fun _ hne => absurd hnil hne, fun _ hne => absurd hnil hne⟩⟩
      · -- the prompt is at its end, and its last token has logits
        simp only at hp ⊢
        refine ⟨batch.length + more, if_pos hp, ?_⟩
        rw [getElem?_rows batch (Nat.lt_succ_self more), hp]
        simp only [decide_true, Bool.and_self, Bool.or_true, Option.some_inj, Prod.mk.injEq,
          BatchToken.mk.injEq, true_and, and_true]
        push_cast
        omega
      · simp only [hnil] at hk
        exact absurd hk (by simp)
    · exact added_self batch slot

theorem addSampled_id (batch : List BatchRow) (slot : SampleSlot) :
    (addSampled batch slot).2.id = slot.id := by
  rw [addSampled]
  split
  · rfl
  · split
    · split <;> rfl
    · rfl
    · rfl

theorem addPrompt_id (batch : List BatchRow) (slot : SampleSlot) :
    (addPrompt batch slot).2.id = slot.id := by
  rw [addPrompt]
  split
  · rfl
  · split <;> rfl

theorem forall_addEach {add : List BatchRow → SampleSlot → List BatchRow × SampleSlot}
    {ok ok' : SampleSlot → Prop} (hadd : ∀ batch slot, ok slot → ok' (add batch slot).2)
    {batch : List BatchRow} {slots : List SampleSlot} (hok : ∀ s ∈ slots, ok s) :
    ∀ s ∈ (addEach add batch slots).2, ok' s := by
  induction slots generalizing batch with
  | nil => exact fun s hs => absurd hs (by simp [addEach])
  | cons slot slots ih =>
    rw [List.forall_mem_cons] at hok
    rw [addEach, List.forall_mem_cons]
    exact ⟨hadd batch slot hok.1, ih hok.2⟩

/-- A slot with a prompt has no draft. -/
def NoDraftedPrompt (slot : SampleSlot) : Prop :=
  ∀ more done, slot.work = .prompt more done → slot.iBatchDft = []

theorem addSampled_noDraftedPrompt (batch : List BatchRow) (h : NoDraftedPrompt slot) :
    NoDraftedPrompt (addSampled batch slot).2 := by
  rw [addSampled]
  split
  · exact h
  · -- the work of the slot is the same afterwards
    split
    · rename_i hwork
      split <;> exact fun _ _ hprompt => absurd (hwork.symm.trans hprompt) (by simp)
    · rename_i hwork
      exact fun _ _ hprompt => absurd (hwork.symm.trans hprompt) (by simp)
    · exact h

/-- The batch of a tick is built of the tokens of its slots. -/
theorem built_buildBatch (h : TickStart slots) :
    Built (buildBatch slots).1 (buildBatch slots).2 := by
  have hstart : Built [] ([] ++ slots) := by
    refine ⟨List.nodup_nil, fun s _ r hr => absurd hr (by simp), fun s hs => ?_⟩
    cases hp : s.processing with
    | false => exact placed_of_not_processing hp
    | true => exact placed_of_drained (h.generating s hs hp).1 (h.generating s hs hp).2
  have hsampled : Built (addEach addSampled [] slots).1 ([] ++ (addEach addSampled [] slots).2) :=
    built_addEach (fun batch slot hok => added_addSampled batch hok) [] h.generating h.ids hstart
  have hids : (([] ++ (addEach addSampled [] slots).2).map SampleSlot.id).Nodup := by
    rw [List.nil_append, addEach_ids addSampled_id]
    exact h.ids
  have hprompt : ∀ s ∈ (addEach addSampled [] slots).2, NoDraftedPrompt s :=
    @forall_addEach addSampled NoDraftedPrompt NoDraftedPrompt
      (fun batch _ hok => addSampled_noDraftedPrompt batch hok) [] slots h.prompted
  exact built_addEach (fun batch slot hdft => added_addPrompt batch hdft) [] hprompt hids hsampled

theorem buildBatch_ids (h : TickStart slots) : ((buildBatch slots).2.map SampleSlot.id).Nodup := by
  rw [buildBatch]
  simp only
  rw [addEach_ids addPrompt_id, addEach_ids addSampled_id]
  exact h.ids

/-! ### Rows of a chunk -/

theorem llamaGetLogitsIth_eq_some {last : List BatchRow} {k : Nat} {t : BatchToken} :
    llamaGetLogitsIth last k = some t ↔ last[k]? = some (t, true) := by
  rw [llamaGetLogitsIth]
  split
  · rename_i u hu
    rw [hu]
    simp
  · rename_i hne
    constructor
    · intro h
      exact absurd h (by simp)
    · intro h
      exact absurd h (hne t)

/-- A row of a chunk is a row of the batch. -/
theorem getElem?_chunk (batch : List BatchRow) (i n k : Nat) (hk : k < n) :
    ((batch.drop i).take n)[k]? = batch[i + k]? := by
  rw [List.getElem?_take_of_lt hk, List.getElem?_drop]

variable {i : Int} {st : SamplePass}

section
variable {env : SampleEnv} {batch : List BatchRow}

/-- A plain slot samples from the row of its own last token. -/
theorem samplePlain_right {i : Nat} (h : Placed batch slot) :
    ∀ e ∈ (samplePlain env ((batch.drop i).take n) i n slot).2, e.Right := by
  rw [samplePlain]
  split
  · simp
  · rename_i hwindow
    split
    · simp
    · split
      · simp
      · rename_i hdft
        split
        · simp
        · rw [not_or, not_or, not_not] at hwindow
          obtain ⟨hprocessing, hge, hlt⟩ := hwindow
          obtain ⟨k, hk, hrow⟩ :=
            (h.plain hprocessing (not_not.mp hdft)).resolve_left (by omega)
          have hidx : (slot.iBatch - i).toNat = k - i := by omega
          -- the index in the chunk is that of the token
          have hright : llamaGetLogitsIth ((batch.drop i).take n) (slot.iBatch - i).toNat
              = some ⟨slot.id, slot.posNext - 1⟩ := by
            rw [llamaGetLogitsIth_eq_some, hidx, getElem?_chunk _ _ _ _ (by omega)]
            rw [show i + (k - i) = k by omega]
            exact hrow
          intro e he
          simp only [hright, ite_self] at he
          rcases List.mem_cons.mp he with rfl | he
          · rfl
          · split at he
            · rw [List.mem_singleton] at he
              rw [he]
              rfl
            · exact absurd he (by simp)

/-! ### Rows of a draft -/

theorem draftToken_inj {j k : Nat} : slot.draftToken j = slot.draftToken k ↔ j = k := by
  rw [SampleSlot.draftToken, SampleSlot.draftToken, BatchToken.mk.injEq]
  constructor
  · rintro ⟨-, h⟩
    omega
  · rintro rfl
    exact ⟨rfl, rfl⟩

theorem SampleEnv.verifies_iff : env.verifies slot = true ↔
    slot.processing = true ∧ slot.iBatchDft ≠ [] ∧ env.sampleFails slot.id = false := by
  rw [SampleEnv.verifies, Bool.and_eq_true, Bool.and_eq_true, decide_eq_true_iff,
    Bool.not_eq_true', and_assoc]

/-- The batch index of a token that was sampled. -/
theorem Placed.getElem?_dft (h : Placed batch slot) (hverifies : env.verifies slot = true)
    {j : Nat} (hj : j < env.ids slot) :
    ∃ k, slot.iBatchDft[j]? = some k ∧ slot.iBatchDft.getD j 0 = k ∧
      batch[k]? = some (slot.draftToken j, true) := by
  obtain ⟨hp, hne, -⟩ := SampleEnv.verifies_iff.mp hverifies
  have hlen := h.length hp hne
  rw [SampleEnv.ids] at hj
  have hin : j < slot.iBatchDft.length := by omega
  have hget := List.getElem?_eq_getElem hin
  refine ⟨slot.iBatchDft[j], hget, ?_, h.draft hp j _ hget⟩
  rw [List.getD_eq_getElem?_getD, hget, Option.getD_some]

/-- The rows of a draft in the first chunk are its own when all of it is in the chunk. -/
theorem Placed.row_eq (h : Placed batch slot) (hverifies : env.verifies slot = true)
    (hall : ∀ k ∈ slot.iBatchDft, (k : Int) < n) {j : Nat} (hj : j < env.ids slot) :
    llamaGetLogitsIth (batch.take n) (slot.iBatchDft.getD j 0) = some (slot.draftToken j) := by
  obtain ⟨k, hk, hget, hrow⟩ := h.getElem?_dft hverifies hj
  have hlt := hall k (List.mem_of_getElem? hk)
  rw [hget, llamaGetLogitsIth_eq_some, List.getElem?_take_of_lt (by omega), hrow]

/-- Drafts are sampled right exactly when all of their rows are decoded. -/
theorem sampleDrafts_right_iff (h : Placed batch slot) (n : Nat) :
    (∀ e ∈ sampleDrafts env (batch.take n) n slot, e.Right) ↔
      (env.verifies slot = true → ∀ k ∈ slot.iBatchDft, (k : Int) < n) := by
  rw [sampleDrafts]
  by_cases hverifies : env.verifies slot = true
  · obtain ⟨hp, hne, hok⟩ := SampleEnv.verifies_iff.mp hverifies
    rw [if_neg (by simp [hp, hne, hok]), List.forall_mem_cons]
    refine ⟨fun hall _ => hall.1, fun hall => ⟨hall hverifies, fun e he => ?_⟩⟩
    rw [List.mem_map] at he
    obtain ⟨j, hj, rfl⟩ := he
    exact h.row_eq hverifies (hall hverifies) (List.mem_range.mp hj)
  · refine iff_of_true (fun e he => ?_) fun hv => absurd hv hverifies
    rw [SampleEnv.verifies_iff, not_and_or, not_and_or, not_not] at hverifies
    rw [if_pos] at he
    · exact absurd he (by simp)
    · rcases hverifies with hp | hnil | hfails
      · exact Or.inl hp
      · exact Or.inr (Or.inl hnil)
      · exact Or.inr (Or.inr (by simpa using hfails))

/-- The rows from which probabilities are read after some slots. -/
def lastRows (env : SampleEnv) (verified : List BatchRow) (before : List SampleSlot) :
    List BatchRow :=
  match env.lastRedecode before with
  | none => verified
  | some r => r.reBatch (env.ids r)

theorem lastRedecode_concat (before : List SampleSlot) (slot : SampleSlot) :
    env.lastRedecode (before ++ [slot])
      = if (env.verifies slot && slot.redecodes (env.ids slot)) = true then some slot
        else env.lastRedecode before := by
  rw [SampleEnv.lastRedecode, List.filter_append, List.filter_singleton]
  cases env.verifies slot && slot.redecodes (env.ids slot) with
  | true => exact List.getLast?_concat
  | false =>
    rw [cond_false, List.append_nil]
    rfl

/-- The row of the probabilities of an accepted token. -/
def probsRow (env : SampleEnv) (verified last : List BatchRow) (slot : SampleSlot) (j : Nat) :
    Option BatchToken :=
  if slot.postSamplingProbs then
    llamaGetLogitsIth verified (slot.iBatchDft.getD (env.ids slot - 1) 0)
  else llamaGetLogitsIth last j

/-- A slot that is verified: the rows after it, and its probabilities. -/
theorem acceptSlot_of_verifies (h : env.verifies slot = true) (verified : List BatchRow)
    (before : List SampleSlot) :
    (acceptSlot env verified (lastRows env verified before) slot).1
        = lastRows env verified (before ++ [slot]) ∧
      ((∀ e ∈ (acceptSlot env verified (lastRows env verified before) slot).2.2, e.Right) ↔
        (0 < slot.nProbs → ∀ j < env.emitted slot,
          probsRow env verified (lastRows env verified (before ++ [slot])) slot j
            = some (slot.draftToken j))) := by
  obtain ⟨hp, hne, hok⟩ := SampleEnv.verifies_iff.mp h
  have hlast : (if slot.redecodes (env.ids slot) = true then slot.reBatch (env.ids slot)
      else lastRows env verified before) = lastRows env verified (before ++ [slot]) := by
    rw [lastRows, lastRows, lastRedecode_concat, h, Bool.true_and]
    split <;> rfl
  rw [acceptSlot, if_neg (by simp [hp, hne]), if_neg (by simp [hok])]
  simp only [hlast]
  refine ⟨trivial, ?_⟩
  by_cases hprobs : 0 < slot.nProbs
  · rw [if_pos hprobs]
    simp only [List.forall_mem_map, List.mem_range, SampleEvent.Right, hprobs, true_imp_iff]
    rfl
  · rw [if_neg hprobs]
    simp [hprobs]

/-- A slot that is not verified changes no rows and reports nothing. -/
theorem acceptSlot_of_not_verifies (h : env.verifies slot = false) (verified last : List BatchRow) :
    (acceptSlot env verified last slot).1 = last ∧
      (acceptSlot env verified last slot).2.2 = [] := by
  rw [acceptSlot]
  by_cases hidle : ¬ slot.processing = true ∨ slot.iBatchDft = []
  · rw [if_pos hidle]
    exact ⟨rfl, rfl⟩
  · rw [if_neg hidle]
    rw [not_or, not_not] at hidle
    have hfails : env.sampleFails slot.id = true := by
      by_contra hne
      rw [Bool.not_eq_true] at hne
      rw [SampleEnv.verifies_iff.mpr ⟨hidle.1, hidle.2, hne⟩] at h
      exact absurd h (by decide)
    rw [if_pos hfails]
    exact ⟨rfl, rfl⟩

theorem lastRedecode_mem {r : SampleSlot} (h : env.lastRedecode slots = some r) : r ∈ slots :=
  (List.mem_filter.mp (List.mem_of_getLast? h)).1

/-- The probabilities of an accepted token are from its own row. -/
theorem probsRow_eq_iff {before after : List SampleSlot} (hbuilt : Built batch slots)
    (hslots : slots = before ++ slot :: after) (hids : (slots.map SampleSlot.id).Nodup)
    (hverifies : env.verifies slot = true) (hall : ∀ k ∈ slot.iBatchDft, (k : Int) < n) {j : Nat}
    (hj : j < env.emitted slot) :
    probsRow env (batch.take n) (lastRows env (batch.take n) (before ++ [slot])) slot j
        = some (slot.draftToken j) ↔ ProbsRight env before slot j := by
  have hmem : slot ∈ slots := by simp [hslots]
  have hplaced := hbuilt.placed slot hmem
  have hids' : 1 ≤ env.ids slot := by rw [SampleEnv.ids]; omega
  rw [SampleEnv.emitted] at hj
  have hjids : j < env.ids slot := by omega
  have hlastid : env.ids slot - 1 < env.ids slot := by omega
  rw [probsRow, ProbsRight]
  by_cases hpost : slot.postSamplingProbs = true
  · -- the candidates are those of the last token
    rw [if_pos hpost, if_pos hpost, hplaced.row_eq hverifies hall hlastid, Option.some_inj,
      draftToken_inj]
    omega
  · rw [if_neg hpost, if_neg hpost, lastRows]
    cases hlast : env.lastRedecode (before ++ [slot]) with
    | none =>
      simp only
      obtain ⟨k, hk, -, hrow⟩ := hplaced.getElem?_dft hverifies hjids
      rw [llamaGetLogitsIth_eq_some, hk, Option.some_inj]
      constructor
      · intro hget
        -- the token is in the batch only once
        have hget' : batch[j]? = some (slot.draftToken j, true) := by
          obtain ⟨hlt, -⟩ := List.getElem?_eq_some_iff.mp hget
          rw [List.length_take] at hlt
          rwa [List.getElem?_take_of_lt (by omega)] at hget
        have hnodup := hbuilt.nodup
        have hj' : (batch.map Prod.fst)[j]? = some (slot.draftToken j) := by
          rw [List.getElem?_map, hget', Option.map_some]
        have hk' : (batch.map Prod.fst)[k]? = some (slot.draftToken j) := by
          rw [List.getElem?_map, hrow, Option.map_some]
        have hlt := (List.getElem?_eq_some_iff.mp hk').1
        exact (List.getElem?_inj hlt hnodup).mp (hk'.trans hj'.symm)
      · rintro rfl
        have hlt := hall k (List.mem_of_getElem? hk)
        rw [List.getElem?_take_of_lt (by omega), hrow]
    | some r =>
      simp only
      have hr := lastRedecode_mem hlast
      rw [llamaGetLogitsIth_eq_some, SampleSlot.reBatch]
      by_cases hid : r.id = slot.id
      · -- slots with one id are one slot
        obtain rfl : r = slot := by
          have hr' : r ∈ slots := by
            rw [hslots]
            simp only [List.mem_append, List.mem_cons] at hr ⊢
            tauto
          exact List.inj_on_of_nodup_map hids hr' hmem hid
        rw [List.getElem?_map, List.getElem?_range hjids, Option.map_some, Option.some_inj,
          Prod.mk.injEq]
        simp
      · refine iff_of_false (fun hget => ?_) fun hright => hid hright.1
        obtain ⟨i, -, heq⟩ := List.mem_map.mp (List.mem_of_getElem? hget)
        have htok := congrArg (fun row : BatchRow => row.1.seqId) heq
        exact hid htok

@[simp]
theorem samplePlain_iBatchDft (last : List BatchRow) (i n : Int) (slot : SampleSlot) :
    (samplePlain env last i n slot).1.iBatchDft = slot.iBatchDft := by
  rw [samplePlain]
  split
  · rfl
  · split
    · rfl
    · split
      · rfl
      · split <;> rfl

theorem samplePlain_processing {last : List BatchRow} {n : Int}
    (h : (samplePlain env last i n slot).1.processing = true) : slot.processing = true := by
  by_contra hidle
  rw [samplePlain, if_pos (Or.inl hidle)] at h
  exact hidle h

/-- The sampling of plain slots leaves the slots with a draft alone. -/
theorem samplePlain_verifies (h : Placed batch slot) (last : List BatchRow) (i n : Nat) :
    (env.verifies slot = true → (samplePlain env last i n slot).1 = slot) ∧
      (env.verifies slot = false → env.verifies (samplePlain env last i n slot).1 = false) := by
  by_cases hnil : slot.iBatchDft = []
  · -- without a draft before it there is none afterwards
    refine ⟨fun hv => absurd hnil (SampleEnv.verifies_iff.mp hv).2.1, fun _ => ?_⟩
    rw [SampleEnv.verifies, samplePlain_iBatchDft, hnil]
    simp
  · have hself : (samplePlain env last i n slot).1 = slot := by
      rw [samplePlain, if_pos]
      by_cases hp : slot.processing = true
      · have hbatch := h.drafting hp hnil
        exact Or.inr (Or.inl (by omega))
      · exact Or.inl hp
    exact ⟨fun _ => hself, fun hv => by rw [hself, hv]⟩

/-- What `f` says of the slots that are verified, each with the slots before it. -/
def ForVerified (env : SampleEnv) (f : List SampleSlot → SampleSlot → Prop) :
    List SampleSlot → List SampleSlot → Prop
  | _, [] => True
  | before, slot :: slots =>
    (env.verifies slot = true → f before slot) ∧ ForVerified env f (before ++ [slot]) slots

/-- What is said of the verified slots, without the recursion over the list. -/
theorem forVerified_iff {f : List SampleSlot → SampleSlot → Prop} {before : List SampleSlot} :
    ForVerified env f before slots ↔ ∀ pre slot post, slots = pre ++ slot :: post →
      env.verifies slot = true → f (before ++ pre) slot := by
  induction slots generalizing before with
  | nil => simp [ForVerified]
  | cons slot slots ih =>
    rw [ForVerified, ih]
    constructor
    · rintro ⟨hslot, hrest⟩ pre s post heq hv
      cases pre with
      | nil =>
        obtain ⟨rfl, -⟩ := List.cons.inj heq
        rw [List.append_nil]
        exact hslot hv
      | cons p pre =>
        obtain ⟨rfl, htail⟩ := List.cons.inj heq
        have h := hrest pre s post htail hv
        rwa [List.append_assoc] at h
    · intro h
      refine ⟨fun hv => ?_, fun pre s post heq hv => ?_⟩
      · have hslot := h [] slot slots rfl hv
        rwa [List.append_nil] at hslot
      · rw [List.append_assoc]
        exact h (slot :: pre) s post (by rw [heq]; rfl) hv

/-- The probabilities of all slots, in the order of the slots. -/
theorem acceptLoop_right_iff (verified : List BatchRow) {g : SampleSlot → SampleSlot}
    (hg : ∀ s ∈ slots, (env.verifies s = true → g s = s) ∧
      (env.verifies s = false → env.verifies (g s) = false))
    (before : List SampleSlot) :
    (∀ e ∈ (acceptLoop env verified (lastRows env verified before) (slots.map g)).2.2, e.Right) ↔
      ForVerified env (fun before slot => 0 < slot.nProbs → ∀ j < env.emitted slot,
        probsRow env verified (lastRows env verified (before ++ [slot])) slot j
          = some (slot.draftToken j)) before slots := by
  induction slots generalizing before with
  | nil => simp [acceptLoop, ForVerified]
  | cons slot slots ih =>
    rw [List.forall_mem_cons] at hg
    rw [List.map_cons, acceptLoop, ForVerified]
    simp only [List.forall_mem_append]
    cases hv : env.verifies slot with
    | true =>
      rw [hg.1.1 hv]
      obtain ⟨hlast, hright⟩ := acceptSlot_of_verifies hv verified before
      rw [hlast, ih hg.2, hright]
      simp
    | false =>
      obtain ⟨hlast, hnone⟩ :=
        acceptSlot_of_not_verifies (hg.1.2 hv) verified (lastRows env verified before)
      have hsame : lastRows env verified (before ++ [slot]) = lastRows env verified before := by
        rw [lastRows, lastRedecode_concat, hv, Bool.false_and, if_neg Bool.false_ne_true, lastRows]
      rw [hlast, hnone, ← hsame, ih hg.2]
      simp

/-! ### The chunks -/

/-- A slot when the tokens before `i` are decoded: its batch indices are its own, and a plain slot
that was reached has been sampled. -/
structure Reached (batch : List BatchRow) (i : Int) (slot : SampleSlot) : Prop where
  placed : Placed batch slot
  index : slot.processing = true → slot.iBatch = -1 ∨ i ≤ slot.iBatch

theorem Placed.reached (h : Placed batch slot) : Reached batch 0 slot := by
  refine ⟨h, fun hp => ?_⟩
  by_cases hdft : slot.iBatchDft = []
  · rcases h.plain hp hdft with hnone | ⟨k, hk, -⟩
    · exact Or.inl hnone
    · right
      omega
  · exact Or.inl (h.drafting hp hdft)

/-- Sampling a token of its own takes a slot through a view of the batch. -/
theorem samplePlain_reached {n : Int} (h : Reached batch i slot) (last : List BatchRow) :
    Reached batch (i + n) (samplePlain env last i n slot).1 := by
  rw [samplePlain]
  split
  · rename_i hwindow
    refine ⟨h.placed, fun hp => ?_⟩
    rcases h.index hp with hnone | hge
    · exact Or.inl hnone
    · rcases hwindow with hidle | hlt | hnext
      · exact absurd hp hidle
      · omega
      · exact Or.inr hnext
  · split
    · exact ⟨placed_of_not_processing rfl, fun _ => Or.inl rfl⟩
    · split
      · rename_i hdft
        exact ⟨h.placed, fun hp => Or.inl (h.placed.drafting hp hdft)⟩
      · rename_i hdft
        split
        · exact ⟨placed_of_not_processing rfl, fun _ => Or.inl rfl⟩
        · exact ⟨placed_of_drained rfl (not_not.mp hdft), fun _ => Or.inl rfl⟩

theorem samplePlain_drained (h : slot.processing = true → slot.iBatchDft = [])
    (last : List BatchRow) (i n : Int) :
    (samplePlain env last i n slot).1.processing = true →
      (samplePlain env last i n slot).1.iBatchDft = [] := by
  intro hp
  rw [samplePlain_iBatchDft]
  exact h (samplePlain_processing hp)

/-- A slot after the first chunk: no draft is left. -/
structure Later (batch : List BatchRow) (i : Int) (slot : SampleSlot) : Prop extends
    Reached batch i slot where
  drained : slot.processing = true → slot.iBatchDft = []

/-- Accepting moves the slot past its rows. -/
theorem acceptSlot_later (h : Reached batch i slot) (verified last : List BatchRow) :
    Later batch i (acceptSlot env verified last slot).2.1 := by
  rw [acceptSlot]
  split
  · rename_i hidle
    refine ⟨h, fun hp => hidle.resolve_left ?_⟩
    rw [not_not]
    exact hp
  · rename_i hdft
    rw [not_or, not_not] at hdft
    -- a slot with a draft has no batch index
    have hbatch := h.placed.drafting hdft.1 hdft.2
    split
    · exact ⟨⟨placed_of_not_processing rfl, fun _ => Or.inl rfl⟩, fun _ => rfl⟩
    · exact ⟨⟨placed_of_drained hbatch rfl, fun _ => Or.inl hbatch⟩, fun _ => rfl⟩

theorem acceptLoop_later {verified : List BatchRow} (h : ∀ s ∈ slots, Reached batch i s)
    (last : List BatchRow) : ∀ s ∈ (acceptLoop env verified last slots).2.1, Later batch i s := by
  induction slots generalizing last with
  | nil => exact fun s hs => absurd hs (by simp [acceptLoop])
  | cons slot slots ih =>
    rw [List.forall_mem_cons] at h
    rw [acceptLoop, List.forall_mem_cons]
    exact ⟨acceptSlot_later h.1 verified last, ih h.2 _⟩

theorem not_verifies_of_drained (h : slot.processing = true → slot.iBatchDft = []) :
    env.verifies slot = false := by
  rw [← Bool.not_eq_true, SampleEnv.verifies_iff]
  exact fun hv => hv.2.1 (h hv.1)

/-- Without a draft nothing is verified, and no probabilities of accepted tokens are reported. -/
theorem acceptLoop_drained (h : ∀ s ∈ slots, s.processing = true → s.iBatchDft = [])
    (verified last : List BatchRow) : (acceptLoop env verified last slots).2.2 = [] := by
  induction slots generalizing last with
  | nil => rfl
  | cons slot slots ih =>
    rw [List.forall_mem_cons] at h
    rw [acceptLoop]
    simp only
    rw [(acceptSlot_of_not_verifies (not_verifies_of_drained h.1) verified last).2, ih h.2,
      List.nil_append]

theorem sampleDrafts_drained (h : slot.processing = true → slot.iBatchDft = [])
    (last : List BatchRow) (decoded : Int) : sampleDrafts env last decoded slot = [] := by
  rw [sampleDrafts, if_pos]
  by_cases hp : slot.processing = true
  · exact Or.inr (Or.inl (h hp))
  · exact Or.inl hp

/-- The state of the loop when the tokens before `i` are decoded: nothing was sampled yet, or the
rows of the drafts are right exactly when the first chunk and the slots are so. -/
def PassInv (env : SampleEnv) (batch : List BatchRow) (slots : List SampleSlot) (i : Int)
    (st : SamplePass) : Prop :=
  (i = 0 ∧ st.chunks = [] ∧ st.events = [] ∧ st.slots = slots) ∨
    (0 < i ∧ (∀ s ∈ st.slots, Later batch i s) ∧ ∃ c, st.chunks.head? = some c ∧
      ((∀ e ∈ st.events, e.Right) ↔ DraftsRight env c.2 slots))

/-- The plain slots sample from their own rows in every chunk. -/
theorem plain_events_right (h : ∀ s ∈ slots, Placed batch s) (i n : Nat) :
    ∀ e ∈ (slots.map (samplePlain env ((batch.drop i).take n) i n)).flatMap Prod.snd, e.Right := by
  intro e he
  rw [List.mem_flatMap] at he
  obtain ⟨r, hr, he⟩ := he
  obtain ⟨s, hs, rfl⟩ := List.mem_map.mp hr
  exact samplePlain_right (h s hs) e he

/-- The first chunk: the drafts are verified in it, whichever of their tokens are decoded. -/
theorem sampleChunk_first (hbuilt : Built batch slots) (hids : (slots.map SampleSlot.id).Nodup)
    (hslots : st.slots = slots) (hevents : st.events = []) (hlast : st.last = batch.take n) :
    (∀ e ∈ (sampleChunk env st 0 n).events, e.Right) ↔ DraftsRight env n slots := by
  have hplain : ∀ e ∈ (slots.map (samplePlain env (batch.take n) 0 n)).flatMap Prod.snd,
      e.Right := plain_events_right hbuilt.placed 0 n
  -- the slots as the sampling of the plain ones leaves them
  obtain ⟨g, hg⟩ : ∃ g : SampleSlot → SampleSlot,
      ∀ s, g s = (samplePlain env (batch.take n) 0 n s).1 := ⟨_, fun _ => rfl⟩
  have hmap : (slots.map (samplePlain env (batch.take n) 0 n)).map Prod.fst = slots.map g := by
    rw [List.map_map]
    exact List.map_congr_left fun s _ => (hg s).symm
  have hsame : ∀ s ∈ slots, (env.verifies s = true → g s = s) ∧
      (env.verifies s = false → env.verifies (g s) = false) := by
    intro s hs
    rw [hg]
    exact samplePlain_verifies (hbuilt.placed s hs) _ 0 n
  have hverified : ∀ s ∈ slots, (∀ e ∈ sampleDrafts env (batch.take n) n (g s), e.Right) ↔
      (env.verifies s = true → ∀ k ∈ s.iBatchDft, (k : Int) < n) := by
    intro s hs
    have hplaced : Placed batch (g s) := by
      rw [hg]
      exact (samplePlain_reached (hbuilt.placed s hs).reached _).placed
    rw [sampleDrafts_right_iff hplaced]
    cases hv : env.verifies s with
    | true => rw [(hsame s hs).1 hv, hv]
    | false => simp [(hsame s hs).2 hv]
  have hprobs := acceptLoop_right_iff (batch.take n) hsame []
  rw [forVerified_iff] at hprobs
  have hnone : lastRows env (batch.take n) [] = batch.take n := rfl
  rw [hnone] at hprobs
  rw [sampleChunk]
  simp only [hslots, hevents, hlast, hmap, List.nil_append, List.forall_mem_append, Int.zero_add]
  rw [hprobs]
  constructor
  · rintro ⟨⟨-, hdrafts⟩, hrows⟩ before slot after heq hv
    have hmem : slot ∈ slots := by simp [heq]
    have hall := (hverified slot hmem).mp (fun e he => hdrafts e
      (List.mem_flatMap.mpr ⟨g slot, List.mem_map_of_mem hmem, he⟩)) hv
    refine ⟨hall, fun hn j hj => ?_⟩
    exact (probsRow_eq_iff hbuilt heq hids hv hall hj).mp
      (hrows before slot after heq hv hn j hj)
  · intro hright
    refine ⟨⟨hplain, fun e he => ?_⟩, fun before slot after heq hv hn j hj => ?_⟩
    · rw [List.mem_flatMap] at he
      obtain ⟨s, hs, he⟩ := he
      obtain ⟨slot, hmem, rfl⟩ := List.mem_map.mp hs
      obtain ⟨before, after, heq⟩ := List.append_of_mem hmem
      exact (hverified slot hmem).mpr (fun hv => (hright before slot after heq hv).1) e he
    · obtain ⟨hall, hrows⟩ := hright before slot after heq hv
      exact (probsRow_eq_iff hbuilt heq hids hv hall hj).mpr (hrows hn j hj)

/-- A chunk keeps the invariant of the loop. -/
theorem passInv_decoded (hbuilt : Built batch slots) (hids : (slots.map SampleSlot.id).Nodup)
    {n : Int} (hi : 0 ≤ i) (hn : 1 ≤ n) (h : PassInv env batch slots i st) :
    PassInv env batch slots (i + n)
      (sampleChunk env { st with last := (batch.drop i.toNat).take n.toNat } i n) := by
  obtain ⟨i, rfl⟩ := Int.eq_ofNat_of_zero_le hi
  obtain ⟨n, rfl⟩ := Int.eq_ofNat_of_zero_le (by omega : 0 ≤ n)
  rw [Int.toNat_natCast, Int.toNat_natCast]
  -- every slot still has its own indices
  have hreached : ∀ s ∈ st.slots, Reached batch i s := by
    rcases h with ⟨hzero, -, -, rfl⟩ | ⟨-, hlater, -⟩
    · rw [hzero]
      exact fun s hs => (hbuilt.placed s hs).reached
    · exact fun s hs => (hlater s hs).toReached
  right
  refine ⟨by omega, ?_, ?_⟩
  · rw [sampleChunk]
    refine acceptLoop_later (fun s hs => ?_) _
    obtain ⟨r, hr, rfl⟩ := List.mem_map.mp hs
    obtain ⟨slot, hslot, rfl⟩ := List.mem_map.mp hr
    exact samplePlain_reached (hreached slot hslot) _
  · rcases h with ⟨hzero, hchunks, hevents, hslots⟩ | ⟨-, hlater, c, hhead, hright⟩
    · obtain rfl : i = 0 := by omega
      refine ⟨((0 : Nat), n), ?_, ?_⟩
      · simp [sampleChunk, hchunks]
      · exact sampleChunk_first hbuilt hids hslots hevents rfl
    · refine ⟨c, ?_, ?_⟩
      · rw [sampleChunk, List.head?_append, hhead]
        rfl
      · -- only plain slots are left
        have hdrained : ∀ s ∈ (st.slots.map (samplePlain env ((batch.drop i).take n) i n)).map
            Prod.fst, s.processing = true → s.iBatchDft = [] := by
          intro s hs
          obtain ⟨r, hr, rfl⟩ := List.mem_map.mp hs
          obtain ⟨slot, hslot, rfl⟩ := List.mem_map.mp hr
          exact samplePlain_drained (hlater slot hslot).drained _ _ _
        have hdrafts : ∀ last decoded, (((st.slots.map (samplePlain env ((batch.drop i).take n)
            i n)).map Prod.fst).flatMap (sampleDrafts env last decoded)) = [] := by
          intro last decoded
          rw [List.flatMap_eq_nil_iff]
          exact fun s hs => sampleDrafts_drained (hdrained s hs) last decoded
        rw [← hright, sampleChunk]
        simp only [hdrafts, acceptLoop_drained hdrained, List.append_nil, List.forall_mem_append]
        exact and_iff_left (plain_events_right (fun s hs => (hreached s hs).placed) i n)

theorem decode_of_ret (h : env.ret st.calls = 0) (i n : Int) :
    (samplePassEnv env batch).decode st i n =
      (0, { st with calls := st.calls + 1, last := (batch.drop i.toNat).take n.toNat }) := by
  simp [samplePassEnv, h]

theorem decode_of_ret_ne (h : env.ret st.calls ≠ 0) (i n : Int) :
    (samplePassEnv env batch).decode st i n
      = (env.ret st.calls, { st with calls := st.calls + 1 }) := by
  simp [samplePassEnv, h]

/-- What the invariant says at the end. With no chunk decoded nothing was sampled. -/
theorem PassInv.right (h : PassInv env batch slots i st) : (∀ e ∈ st.events, e.Right) ↔
      ∀ n, st.chunks.head?.map Prod.snd = some n → DraftsRight env n slots := by
  rcases h with ⟨-, hchunks, hevents, -⟩ | ⟨-, -, c, hhead, hright⟩
  · simp [hchunks, hevents]
  · rw [hright, hhead]
    simp

/-- At the end a slot that generates has no batch index and no draft. -/
theorem PassInv.drained (hbuilt : Built batch slots) (h : PassInv env batch slots batch.length st) :
    ∀ s ∈ st.slots, s.processing = true → s.iBatch = -1 ∧ s.iBatchDft = [] := by
  intro s hs hp
  -- an index is one of the batch, and all of them were reached
  have hreached : Reached batch batch.length s ∧ s.iBatchDft = [] := by
    rcases h with ⟨hzero, -, -, hslots⟩ | ⟨-, hlater, -⟩
    · rw [hslots] at hs
      have hplaced := hbuilt.placed s hs
      refine ⟨hzero ▸ hplaced.reached, ?_⟩
      rw [List.eq_nil_iff_forall_not_mem]
      intro k hk
      obtain ⟨j, hj⟩ := List.getElem?_of_mem hk
      have hlt := (List.getElem?_eq_some_iff.mp (hplaced.draft hp j k hj)).1
      omega
    · exact ⟨(hlater s hs).toReached, (hlater s hs).drained hp⟩
  obtain ⟨⟨hplaced, hindex⟩, hdft⟩ := hreached
  refine ⟨?_, hdft⟩
  rcases hplaced.plain hp hdft with hnone | ⟨k, hk, hget⟩
  · exact hnone
  · refine (hindex hp).resolve_right fun hge => ?_
    have hlt := (List.getElem?_eq_some_iff.mp hget).1
    omega

/-- The invariant, by the rule of the loop. -/
theorem passInv_rule (hbuilt : Built batch slots) (hids : (slots.map SampleSlot.id).Nodup) :
    LoopRule (samplePassEnv env batch) batch.length (PassInv env batch slots) fun st =>
      ((∀ e ∈ st.events, e.Right) ↔
        ∀ n, st.chunks.head?.map Prod.snd = some n → DraftsRight env n slots) ∧
      ∀ s ∈ st.slots, s.processing = true → s.iBatch = -1 ∧ s.iBatchDft = [] where
  decoded i n st hi hn _ h hret := by
    rw [decode_of_ret hret]
    exact passInv_decoded hbuilt hids hi hn h
  again i n st _ _ _ h hret := by
    rw [decode_of_ret_ne hret]
    exact h
  defrag _ _ _ _ h := h
  failed i n st _ _ _ h hret := by
    rw [decode_of_ret_ne hret]
    refine ⟨h.right, fun s hs hp => ?_⟩
    -- the slots were released
    obtain ⟨slot, -, rfl⟩ := List.mem_map.mp hs
    exact absurd hp Bool.false_ne_true
  done st h := ⟨h.right, h.drained hbuilt⟩

variable {st' : SamplePass}

/-- The first chunk stays the first one. -/
theorem chunks_head_batchLoop {fuel : Nat} {nBatch nBatch' : Int} {tried : Bool} {c : Int × Int}
    (hi : 0 ≤ i) (hbatch : 1 ≤ nBatch) (hhead : st.chunks.head? = some c)
    (hrun : batchLoop (samplePassEnv env batch) batch.length fuel i nBatch tried st =
      some (st', nBatch')) : st'.chunks.head? = some c := by
  have hrule : LoopRule (samplePassEnv env batch) batch.length
      (fun _ st => st.chunks.head? = some c) (fun st => st.chunks.head? = some c) := by
    refine ⟨fun i n st _ _ _ h hret => ?_, fun i n st _ _ _ h hret => ?_, fun _ _ _ _ h => h,
      fun i n st _ _ _ h hret => ?_, fun _ h => h⟩
    · rw [decode_of_ret hret]
      simp only [samplePassEnv, sampleChunk, List.head?_append, h]
      rfl
    · rw [decode_of_ret_ne hret]
      exact h
    · rw [decode_of_ret_ne hret]
      exact h
  exact batchLoop_rule hrule hi hbatch hhead hrun

/-- The first chunk is the one that the results of `llama_decode` say. -/
theorem chunks_head_eq {fuel : Nat} {nBatch nBatch' : Int} {tried : Bool} (hbatch : 1 ≤ nBatch)
    (hchunks : st.chunks = [])
    (hrun : batchLoop (samplePassEnv env batch) batch.length fuel 0 nBatch tried st =
      some (st', nBatch')) :
    st'.chunks.head?.map Prod.snd
      = firstChunkLoop env.ret batch.length fuel st.calls nBatch tried := by
  induction fuel generalizing nBatch tried st with
  | zero => exact absurd hrun (by simp [batchLoop])
  | succ fuel ih =>
    rw [firstChunkLoop]
    by_cases hend : (batch.length : Int) ≤ 0
    · rw [batchLoop, if_pos hend, Option.some_inj, Prod.mk.injEq] at hrun
      rw [if_pos hend, ← hrun.1, hchunks]
      rfl
    · rw [if_neg hend]
      by_cases hret : env.ret st.calls = 0
      · rw [batchLoop_of_decoded hend (decode_of_ret hret _ _), Int.sub_zero] at hrun
        have hfirst : ∀ st : SamplePass, st.chunks = [] →
            ((samplePassEnv env batch).decoded st 0 (min nBatch batch.length)).chunks.head?
              = some (0, min nBatch batch.length) := by
          intro st h
          simp [samplePassEnv, sampleChunk, h]
        have hnext : 0 ≤ 0 + nBatch := by omega
        have hhead := chunks_head_batchLoop hnext hbatch (hfirst _ (by exact hchunks)) hrun
        rw [if_pos hret, hhead, Option.map_some]
      · rw [batchLoop_of_failed hend (decode_of_ret_ne hret _ _) hret] at hrun
        rw [if_neg hret]
        split at hrun
        · rename_i hdefrag
          rw [if_pos hdefrag]
          refine ih hbatch ?_ hrun
          exact hchunks
        · rename_i hdefrag
          rw [if_neg hdefrag]
          split at hrun
          · rename_i hfailed
            rw [Option.some_inj, Prod.mk.injEq] at hrun
            rw [if_pos hfailed, ← hrun.1, hchunks]
            rfl
          · rename_i hhalf
            rw [if_neg hhalf]
            refine ih (tdiv_two hbatch fun h => hhalf (Or.inl h)).1 ?_ hrun
            exact hchunks

end

/-! ### The ticks -/

/-- A tick, by the rule of the loop. -/
theorem sampleTick_run {env : SampleEnv} {nBatch : Int} {slots : List SampleSlot}
    (h : TickStart slots) (hbatch : 1 ≤ nBatch) :
    ∃ st, sampleTick env nBatch slots = some st ∧
      ((∀ e ∈ st.events, e.Right) ↔
        ∀ n, firstChunk env.ret (buildBatch slots).1.length nBatch = some n →
          DraftsRight env n (buildBatch slots).2) ∧
      ∀ s ∈ st.slots, s.processing = true → s.iBatch = -1 ∧ s.iBatchDft = [] := by
  have hbuilt := built_buildBatch h
  have hids := buildBatch_ids h
  have hstart : PassInv env (buildBatch slots).1 (buildBatch slots).2 0
      { slots := (buildBatch slots).2 } := Or.inl ⟨rfl, rfl, rfl, rfl⟩
  obtain ⟨st, nBatch', hrun, hright, hdrained⟩ :=
    processBatchTokens_rule (passInv_rule hbuilt hids) (Int.natCast_nonneg _) hbatch hstart
  refine ⟨st, ?_, ?_, hdrained⟩
  · rw [sampleTick]
    simp only [hrun, Option.map_some]
  · rw [firstChunk, hright]
    rw [processBatchTokens] at hrun
    rw [chunks_head_eq hbatch rfl hrun]

/-- In a tick, every token and every probability is computed from the row of the token that it
follows, and every draft is verified after its tokens were decoded, exactly when the first chunk
holds the drafts and the probabilities of accepted tokens find their own rows. -/
theorem rowsRight_iff {env : SampleEnv} {nBatch : Int} {slots : List SampleSlot}
    (h : TickStart slots) (hbatch : 1 ≤ nBatch) :
    ∃ st, sampleTick env nBatch slots = some st ∧
      ((∀ e ∈ st.events, e.Right) ↔
        ∀ n, firstChunk env.ret (buildBatch slots).1.length nBatch = some n →
          DraftsRight env n (buildBatch slots).2) := by
  obtain ⟨st, hrun, hright, -⟩ := @sampleTick_run env nBatch slots h hbatch
  exact ⟨st, hrun, hright⟩

/-- All drafts are accepted and emitted. -/
def acceptsAll (ret : Nat → Int) : SampleEnv where
  ret := ret
  nAccepted _ := 2
  nEmitted _ := 2
  stops _ := false
  sampleFails _ := false

/-- A slot with a draft of two tokens that reports probabilities. -/
def twoDrafts (id : Nat) (posNext : Int) : SampleSlot where
  id := id
  posNext := posNext
  work := .drafted 2
  processing := true
  nProbs := 1

theorem tickStart_twoDrafts : TickStart [twoDrafts 0 5] := by
  constructor <;> simp [twoDrafts]

/-- One slot with a draft, in one chunk. -/
theorem rowsRight_twoDrafts :
    ∃ st, sampleTick (acceptsAll fun _ => 0) 8 [twoDrafts 0 5] = some st ∧
    ((∀ e ∈ st.events, e.Right) ↔ ∀ n, firstChunk (fun _ => 0) 3 8 = some n →
      DraftsRight (acceptsAll fun _ => 0) n (buildBatch [twoDrafts 0 5]).2) :=
  rowsRight_iff tickStart_twoDrafts (by decide)

/-- With two drafts in one batch, the probabilities of the first token of the second slot are read
from the row of the first slot. -/
theorem probs_of_other_slot :
    ¬ ∀ env nBatch slots, TickStart slots → 1 ≤ nBatch → ∀ st,
      sampleTick env nBatch slots = some st → ∀ e ∈ st.events, e.Right := by
  intro h
  have hstart : TickStart [twoDrafts 0 7, twoDrafts 1 5] := by
    constructor <;> simp [twoDrafts]
  have hmem : SampleEvent.probs 1 ⟨1, 5⟩ (some ⟨0, 7⟩) ∈
      ((sampleTick (acceptsAll fun _ => 0) 8 [twoDrafts 0 7, twoDrafts 1 5]).map
        SamplePass.events).getD [] := by
    decide +kernel
  obtain ⟨st, hrun, -⟩ := @sampleTick_run (acceptsAll fun _ => 0) 8 _ hstart (by decide)
  rw [hrun] at hmem
  have hright := h _ _ _ hstart (by decide) st hrun _ hmem
  exact absurd hright (by decide)

end PxqLlama.Server
