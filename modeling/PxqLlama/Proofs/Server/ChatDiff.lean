import Mathlib.Data.List.Nodup
import Mathlib.Data.Option.Basic
import PxqLlama.Server.Anthropic

/-!
# `Proofs.Server.ChatDiff`: what the responses of a generation carry

`computeDiffs` puts texts before calls and has one diff for a call (`InOrder`). From one response
to the next the flags of the slot take in the diffs (`Sent`), so the results of a generation form a
chain (`Chain`). `results_facts` collects what the serializers can rely on.
-/

namespace PxqLlama.Server.Anthropic

/-! ### Flags -/

@[simp] theorem sendsReasoning_nil : sendsReasoning [] = false := rfl

@[simp] theorem sendsContent_nil : sendsContent [] = false := rfl

@[simp] theorem sendsReasoning_cons (diff : MsgDiff) (diffs : List MsgDiff) :
    sendsReasoning (diff :: diffs) =
      (decide (diff.reasoningContentDelta ≠ []) || sendsReasoning diffs) := rfl

@[simp] theorem sendsContent_cons (diff : MsgDiff) (diffs : List MsgDiff) :
    sendsContent (diff :: diffs) = (decide (diff.contentDelta ≠ []) || sendsContent diffs) := rfl

@[simp] theorem sendsReasoning_append (ds ds' : List MsgDiff) :
    sendsReasoning (ds ++ ds') = (sendsReasoning ds || sendsReasoning ds') := by
  simp [sendsReasoning]

@[simp] theorem sendsContent_append (ds ds' : List MsgDiff) :
    sendsContent (ds ++ ds') = (sendsContent ds || sendsContent ds') := by
  simp [sendsContent]

/-- The flags after the diffs of a response. -/
theorem foldl_update (diffs : List MsgDiff) (started : Started) :
    diffs.foldl Started.update started =
      ⟨started.thinking || sendsReasoning diffs, started.text || sendsContent diffs⟩ := by
  induction diffs generalizing started with
  | nil => simp
  | cons diff diffs ih =>
    rw [List.foldl_cons, ih]
    simp only [Started.update, sendsReasoning_cons, sendsContent_cons, Bool.or_assoc]

/-! ### The diffs of two messages -/

/-- Diffs as `computeDiffs` has them: of texts, then of calls below `n`, one for each call. -/
def InOrder (diffs : List MsgDiff) (n : Nat) : Prop :=
  ∃ texts calls, diffs = texts ++ calls ∧ (∀ diff ∈ texts, diff.toolCallIndex = none) ∧
    (∀ diff ∈ calls, diff.reasoningContentDelta = [] ∧ diff.contentDelta = [] ∧
      ∃ i < n, diff.toolCallIndex = some i) ∧
    (calls.map MsgDiff.toolCallIndex).Nodup

theorem InOrder.nil (n : Nat) : InOrder [] n :=
  ⟨[], [], rfl, by simp, by simp, List.nodup_nil⟩

variable {diffs : List MsgDiff} {n : Nat} {cfg : ChatConfig} {token : Token}
  {partials : List PartialResult} {gen : Generation} {final : FinalResult}

theorem InOrder.lt (h : InOrder diffs n) {diff : MsgDiff} (hmem : diff ∈ diffs) {i : Nat}
    (hi : diff.toolCallIndex = some i) : i < n := by
  obtain ⟨texts, calls, rfl, htexts, hcalls, -⟩ := h
  rcases List.mem_append.mp hmem with hmem | hmem
  · rw [htexts diff hmem] at hi
    cases hi
  · obtain ⟨-, -, j, hj, heq⟩ := hcalls diff hmem
    obtain rfl : j = i := by simpa [heq] using hi
    exact hj

theorem textDiffs_eq {prv new : Bytes} {mk : Bytes → MsgDiff}
    (h : textDiffs prv new mk = some diffs) : diffs = [] ∧ prv = new ∨
      ∃ delta, stringDiff prv new = some delta ∧ diffs = [mk delta] := by
  unfold textDiffs at h
  split at h
  · next heq =>
    left
    exact ⟨by simpa using h.symm, heq⟩
  · right
    obtain ⟨delta, hdelta, rfl⟩ := Option.map_eq_some_iff.mp h
    exact ⟨delta, hdelta, rfl⟩

/-- A text that is there now was there before, or its diff is not empty. -/
theorem stringDiff_ne {last current delta : Bytes} (h : stringDiff last current = some delta)
    (hne : current ≠ []) : last ≠ [] ∨ delta ≠ [] := by
  by_cases hlast : last = []
  · right
    have heq : current = delta := by simpa [stringDiff, hlast] using h
    rwa [← heq]
  · exact .inl hlast

/-- The last call gets at most one diff, of itself. -/
theorem lastCallDiffs_eq {prv new : ChatMsg} (h : lastCallDiffs prv new = some diffs) : diffs = [] ∨
      prv.toolCalls ≠ [] ∧ ∃ call, diffs =
        [{ toolCallIndex := some (prv.toolCalls.length - 1), toolCallDelta := call }] := by
  unfold lastCallDiffs at h
  split at h
  · left
    simpa using h.symm
  · next hne =>
    simp only at h
    split at h
    · obtain ⟨delta, -, heq⟩ := Option.map_eq_some_iff.mp h
      subst heq
      split
      · exact .inr ⟨hne, _, rfl⟩
      · exact .inl rfl
    · cases h

/-- The parts of the differences, from the assertions that hold. -/
theorem computeDiffs_eq {prv new : ChatMsg} (h : computeDiffs prv new = some diffs) :
    ∃ reasoning content last,
      textDiffs prv.reasoningContent new.reasoningContent
        (fun delta => { reasoningContentDelta := delta }) = some reasoning ∧
      textDiffs prv.content new.content (fun delta => { contentDelta := delta }) = some content ∧
      lastCallDiffs prv new = some last ∧
      prv.toolCalls.length ≤ new.toolCalls.length ∧
      diffs = reasoning ++ content ++ last ++ newCallDiffs prv new := by
  simp only [computeDiffs, Option.bind_eq_bind, Option.bind_eq_some_iff, Option.pure_def,
    Option.some.injEq] at h
  obtain ⟨reasoning, hreasoning, content, hcontent, _, hguard, last, hlast, rfl⟩ := h
  refine ⟨reasoning, content, last, hreasoning, hcontent, hlast, ?_, rfl⟩
  simpa [guard] using hguard

/-- The differences of two messages come in order: reasoning, content, calls. -/
theorem computeDiffs_inOrder {prv new : ChatMsg} (h : computeDiffs prv new = some diffs) :
    InOrder diffs new.toolCalls.length := by
  obtain ⟨reasoning, content, last, hreasoning, hcontent, hlast, hle, rfl⟩ := computeDiffs_eq h
  refine ⟨reasoning ++ content, last ++ newCallDiffs prv new, by simp, ?_, ?_, ?_⟩
  · -- the texts are not of a call
    intro diff hmem
    rcases List.mem_append.mp hmem with hmem | hmem
    · rcases textDiffs_eq hreasoning with ⟨rfl, -⟩ | ⟨delta, -, rfl⟩
      · cases hmem
      · rw [List.mem_singleton.mp hmem]
    · rcases textDiffs_eq hcontent with ⟨rfl, -⟩ | ⟨delta, -, rfl⟩
      · cases hmem
      · rw [List.mem_singleton.mp hmem]
  · intro diff hmem
    rcases List.mem_append.mp hmem with hmem | hmem
    · rcases lastCallDiffs_eq hlast with rfl | ⟨hne, call, rfl⟩
      · cases hmem
      · rw [List.mem_singleton.mp hmem]
        have hpos := List.length_pos_of_ne_nil hne
        exact ⟨rfl, rfl, _, by omega, rfl⟩
    · obtain ⟨i, hi, rfl⟩ := List.mem_map.mp hmem
      have hbounds := List.mem_range'_1.mp hi
      exact ⟨rfl, rfl, i, by omega, rfl⟩
  · -- the new calls come after the last old one
    have hnew : (newCallDiffs prv new).map MsgDiff.toolCallIndex =
        (List.range' prv.toolCalls.length
          (new.toolCalls.length - prv.toolCalls.length)).map some := by
      simp [newCallDiffs]
    have hnodup : ((newCallDiffs prv new).map MsgDiff.toolCallIndex).Nodup := by
      rw [hnew]
      exact List.Nodup.map (fun _ _ h => Option.some.inj h) List.nodup_range'
    rcases lastCallDiffs_eq hlast with rfl | ⟨hne, call, rfl⟩
    · exact hnodup
    · rw [List.map_append, List.map_singleton, List.singleton_append, List.nodup_cons]
      refine ⟨?_, hnodup⟩
      rw [hnew]
      have hpos := List.length_pos_of_ne_nil hne
      intro hmem
      obtain ⟨i, hi, heq⟩ := List.mem_map.mp hmem
      have hbounds := List.mem_range'_1.mp hi
      cases heq
      omega

/-- Reasoning that is there now was there before, or is sent. -/
theorem computeDiffs_reasoning {prv new : ChatMsg} (h : computeDiffs prv new = some diffs)
    (hne : new.reasoningContent ≠ []) :
    prv.reasoningContent ≠ [] ∨ sendsReasoning diffs = true := by
  obtain ⟨reasoning, content, last, hreasoning, -, -, -, rfl⟩ := computeDiffs_eq h
  rcases textDiffs_eq hreasoning with ⟨-, heq⟩ | ⟨delta, hdelta, rfl⟩
  · left
    rwa [heq]
  · rcases stringDiff_ne hdelta hne with hprv | hdelta
    · exact .inl hprv
    · right
      simp [hdelta]

/-- The diffs from the first one of a call on have no text. -/
def CallsLast : List MsgDiff → Prop
  | [] => True
  | diff :: diffs =>
    (diff.toolCallIndex ≠ none → sendsReasoning (diff :: diffs) = false ∧
      sendsContent (diff :: diffs) = false) ∧ CallsLast diffs

/-- No flag changes from the first diff of a call on. -/
theorem CallsLast.foldl_eq {diff : MsgDiff} (h : CallsLast (diff :: diffs))
    (hcall : diff.toolCallIndex ≠ none) (started : Started) :
    (diff :: diffs).foldl Started.update started = started.update diff := by
  obtain ⟨hreasoning, hcontent⟩ := h.1 hcall
  simp only [sendsReasoning_cons, sendsContent_cons, Bool.or_eq_false_iff] at hreasoning hcontent
  rw [List.foldl_cons, foldl_update, hreasoning.2, hcontent.2]
  simp

/-- In order means that calls come behind all content. -/
theorem InOrder.callsLast (h : InOrder diffs n) : CallsLast diffs := by
  obtain ⟨texts, calls, rfl, htexts, hcalls, -⟩ := h
  induction texts with
  | nil =>
    rw [List.nil_append]
    clear htexts
    induction calls with
    | nil => trivial
    | cons diff calls ih =>
      refine ⟨?_, ih fun d hd => hcalls d (List.mem_cons_of_mem _ hd)⟩
      intro _
      simp only [sendsReasoning, sendsContent, List.any_eq_false]
      exact ⟨fun d hd => by simp [(hcalls d hd).1], fun d hd => by simp [(hcalls d hd).2.1]⟩
  | cons diff texts ih =>
    refine ⟨?_, ih fun d hd => htexts d (List.mem_cons_of_mem _ hd)⟩
    intro hne
    exact absurd (htexts diff List.mem_cons_self) hne

/-- A call has at most one diff. -/
theorem InOrder.diffsOf_eq (h : InOrder diffs n) (call : Nat) :
    diffsOf call diffs = [] ∨ ∃ diff, diffsOf call diffs = [diff] := by
  obtain ⟨texts, calls, rfl, htexts, -, hnodup⟩ := h
  have hnone : diffsOf call texts = [] := by
    unfold diffsOf
    rw [List.filter_eq_nil_iff]
    intro diff hdiff
    simp [htexts diff hdiff]
  unfold diffsOf at hnone ⊢
  rw [List.filter_append, hnone, List.nil_append]
  clear htexts hnone
  induction calls with
  | nil => exact .inl rfl
  | cons diff calls ih =>
    rw [List.map_cons, List.nodup_cons] at hnodup
    by_cases heq : diff.toolCallIndex = some call
    · right
      refine ⟨diff, ?_⟩
      rw [List.filter_cons_of_pos (by simpa using heq), List.filter_eq_nil_iff.mpr]
      intro d hd hcall
      exact hnodup.1 (List.mem_map.mpr ⟨d, hd, by simpa [heq] using hcall⟩)
    · rw [List.filter_cons_of_neg (by simpa using heq)]
      exact ih hnodup.2

/-! ### From one response to the next -/

/-- The reasoning of the message has been announced. -/
def Sound (slot : ChatSlot) : Prop :=
  slot.chatMsg.reasoningContent ≠ [] → slot.started.thinking = true

/-- What `updateChatMsg` does with the slot and says in its diffs. -/
structure Updated (slot : ChatSlot) (slot' : ChatSlot) (diffs : List MsgDiff) : Prop where
  started : slot'.started = slot.started
  nDecoded : slot'.nDecoded = slot.nDecoded
  inOrder : InOrder diffs slot'.chatMsg.toolCalls.length
  calls : slot.chatMsg.toolCalls.length ≤ slot'.chatMsg.toolCalls.length
  reasoning : slot'.chatMsg.reasoningContent ≠ [] →
    slot.chatMsg.reasoningContent ≠ [] ∨ sendsReasoning diffs = true

theorem Updated.unchanged (slot : ChatSlot) (throttle : Nat) :
    Updated slot { slot with chatParseThrottle := throttle } [] :=
  ⟨rfl, rfl, InOrder.nil _, Nat.le_refl _, Or.inl⟩

theorem applyChatMsg_updated {slot slot' : ChatSlot}
    (h : applyChatMsg cfg slot token = some (slot', diffs)) : Updated slot slot' diffs := by
  unfold applyChatMsg at h
  simp only at h
  split at h
  · cases h
    exact Updated.unchanged slot _
  · obtain ⟨diffs, hdiffs, heq⟩ := Option.map_eq_some_iff.mp h
    cases heq
    obtain ⟨_, _, _, _, _, _, hle, _⟩ := computeDiffs_eq hdiffs
    exact ⟨rfl, rfl, computeDiffs_inOrder hdiffs, hle, computeDiffs_reasoning hdiffs⟩

/-- An update moves the message of the slot and returns the differences. -/
theorem updateChatMsg_updated {slot slot' : ChatSlot} {isPartial : Bool}
    (h : updateChatMsg cfg slot isPartial token = some (slot', diffs)) :
    Updated slot slot' diffs := by
  unfold updateChatMsg at h
  split at h
  · simp only at h
    split at h
    · cases h
      exact Updated.unchanged slot _
    · -- the throttle is not read by the update
      obtain ⟨h₁, h₂, h₃, h₄, h₅⟩ := applyChatMsg_updated h
      exact ⟨h₁, h₂, h₃, h₄, h₅⟩
  · exact applyChatMsg_updated h

/-- The flags of the results follow from each other, and reasoning is announced when it is there. -/
inductive Chain : Started → List PartialResult → Started → Prop
  | nil (started : Started) : Chain started [] started
  | cons {res : PartialResult} {rest : List PartialResult} {started : Started} {n : Nat}
      (hreasoning : res.anthropicHasReasoning = true →
        (res.oaicompatMsgDiffs.foldl Started.update res.started).thinking = true)
      (horder : InOrder res.oaicompatMsgDiffs n)
      (hrest : Chain (res.oaicompatMsgDiffs.foldl Started.update res.started) rest started) :
      Chain res.started (res :: rest) started

theorem Chain.append {s s' s'' : Started} {rs rs' : List PartialResult} (h : Chain s rs s')
    (h' : Chain s' rs' s'') : Chain s (rs ++ rs') s'' := by
  induction h with
  | nil => exact h'
  | cons hreasoning horder _ ih => exact .cons hreasoning horder (ih h')

/-- What some responses in a row do. -/
structure Responses (slot : ChatSlot) (partials : List PartialResult) (slot' : ChatSlot) :
    Prop where
  sound : Sound slot'
  chain : Chain slot.started partials slot'.started
  calls : slot.chatMsg.toolCalls.length ≤ slot'.chatMsg.toolCalls.length
  bound : ∀ res ∈ partials, ∀ diff ∈ res.oaicompatMsgDiffs, ∀ i,
    diff.toolCallIndex = some i → i < slot'.chatMsg.toolCalls.length

theorem Responses.nil {slot : ChatSlot} (h : Sound slot) : Responses slot [] slot :=
  ⟨h, .nil _, Nat.le_refl _, by simp⟩

theorem Responses.append {s s' s'' : ChatSlot} {rs rs' : List PartialResult}
    (h : Responses s rs s') (h' : Responses s' rs' s'') : Responses s (rs ++ rs') s'' where
  sound := h'.sound
  chain := h.chain.append h'.chain
  calls := Nat.le_trans h.calls h'.calls
  bound := by
    intro res hres diff hdiff i hi
    rcases List.mem_append.mp hres with hres | hres
    · exact Nat.lt_of_lt_of_le (h.bound res hres diff hdiff i hi) h'.calls
    · exact h'.bound res hres diff hdiff i hi

/-- One partial response carries exactly what the message has gained. -/
theorem sendPartialResponse_eq {slot slot' : ChatSlot} {res : PartialResult}
    (h : sendPartialResponse cfg slot token = some (slot', res)) (hsound : Sound slot) :
    Responses slot [res] slot' ∧ slot'.nDecoded = slot.nDecoded ∧
      res.nDecoded = slot.nDecoded := by
  obtain ⟨⟨mid, diffs⟩, hupdate, heq⟩ := Option.map_eq_some_iff.mp h
  have hu := updateChatMsg_updated hupdate
  cases heq
  have hthinking : mid.chatMsg.reasoningContent ≠ [] →
      (diffs.foldl Started.update mid.started).thinking = true := by
    intro hne
    rw [foldl_update, hu.started]
    rcases hu.reasoning hne with hold | hnew
    · simp [hsound hold]
    · simp [hnew]
  refine ⟨⟨hthinking, ?_, hu.calls, ?_⟩, hu.nDecoded, hu.nDecoded⟩
  · rw [← hu.started]
    refine @Chain.cons ⟨_, _, diffs, _, mid.started⟩ [] _ _ ?_ hu.inOrder (.nil _)
    simpa using hthinking
  · intro res hres diff hdiff i hi
    cases List.mem_singleton.mp hres
    exact hu.inOrder.lt hdiff hi

/-- The responses of a slot form a chain, and are sent at the counts of `sentAt`. The induction is
on the steps; counting or rewinding a token touches nothing that the chain looks at. -/
theorem processSteps_responses {steps : List SlotStep} {slot slot' : ChatSlot}
    (h : processSteps cfg slot steps = some (slot', partials)) (hsound : Sound slot) :
    Responses slot partials slot' ∧ partials.map (·.nDecoded) = sentAt slot.nDecoded steps := by
  induction steps generalizing slot partials with
  | nil =>
    cases h
    exact ⟨.nil hsound, rfl⟩
  | cons step steps ih =>
    cases step with
    | sampled n =>
      obtain ⟨⟨hs, hchain, hcalls, hbound⟩, hcounts⟩ := ih h hsound
      exact ⟨⟨hs, hchain, hcalls, hbound⟩, hcounts⟩
    | rewound n =>
      obtain ⟨⟨hs, hchain, hcalls, hbound⟩, hcounts⟩ := ih h hsound
      exact ⟨⟨hs, hchain, hcalls, hbound⟩, hcounts⟩
    | token token =>
      unfold processSteps at h
      unfold sentAt
      split at h
      · next hcut =>
        rw [if_pos hcut]
        exact ih h hsound
      · next hcut =>
        rw [if_neg hcut]
        simp only [Option.bind_eq_bind, Option.bind_eq_some_iff, Option.pure_def, Prod.exists,
          Option.some.injEq] at h
        obtain ⟨mid, res, hsend, last, rest, hrest, heq⟩ := h
        cases heq
        obtain ⟨hone, hmid, hres⟩ := sendPartialResponse_eq hsend hsound
        obtain ⟨hmore, hcounts⟩ := ih hrest hone.sound
        refine ⟨hone.append hmore, ?_⟩
        rw [List.map_cons, hres, hcounts, hmid]

/-! ### The results of a generation -/

theorem Generation.results_eq (h : gen.results cfg = some (partials, final)) :
    ∃ slot, processSteps cfg {} gen.steps = some (slot, partials) ∧
      sendFinalResponse cfg slot gen.stopKind gen.last = some final := by
  simp only [Generation.results, Option.bind_eq_bind, Option.bind_eq_some_iff, Option.pure_def,
    Prod.exists, Option.some.injEq] at h
  obtain ⟨slot, ps, hsteps, fin, hfinal, heq⟩ := h
  cases heq
  exact ⟨slot, hsteps, hfinal⟩

/-- The counts of the partial responses. -/
theorem Generation.results_nDecoded (h : gen.results cfg = some (partials, final)) :
    partials.map (·.nDecoded) = sentAt 0 gen.steps := by
  obtain ⟨slot, hsteps, -⟩ := gen.results_eq h
  exact (processSteps_responses hsteps (by simp [Sound])).2

/-- What the serializers are given. -/
structure Facts (partials : List PartialResult) (final : FinalResult) : Prop where
  chain : Chain {} partials final.started
  inOrder : InOrder final.oaicompatMsgDiffs final.oaicompatMsg.toolCalls.length
  bound : ∀ res ∈ partials, ∀ diff ∈ res.oaicompatMsgDiffs, ∀ i,
    diff.toolCallIndex = some i → i < final.oaicompatMsg.toolCalls.length

theorem Generation.results_facts (h : gen.results cfg = some (partials, final)) :
    Facts partials final := by
  obtain ⟨slot, hsteps, hfinal⟩ := gen.results_eq h
  obtain ⟨⟨-, hchain, -, hbound⟩, -⟩ := processSteps_responses hsteps (by simp [Sound])
  obtain ⟨⟨last, diffs⟩, hupdate, rfl⟩ := Option.map_eq_some_iff.mp hfinal
  have hu := updateChatMsg_updated hupdate
  refine ⟨?_, hu.inOrder, ?_⟩
  · simp only [hu.started]
    exact hchain
  · intro res hres diff hdiff i hi
    exact Nat.lt_of_lt_of_le (hbound res hres diff hdiff i hi) hu.calls

end PxqLlama.Server.Anthropic
