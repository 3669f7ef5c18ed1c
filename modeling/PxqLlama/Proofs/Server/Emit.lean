import PxqLlama.Proofs.Server.Text

/-!
# `Proofs.Server.Emit`: the text and the limits

`processToken` does two things that do not depend on each other. It moves the text on
(`TextState.step`), and it counts (`EmitSlot.limited`). So a run over tokens, of which each is
said to be at the limit or not, is a run of the text alone (`emit`). The two paths are such runs
and differ only in what they say about the limit: the plain path counts up to the token
(`plainRun_eq_emit`), and the speculative path counts the whole group (`emitLoop_eq_emit`).
-/

namespace PxqLlama.Server

/-! ### The text -/

/-- The text of a slot: what was generated, how much of it was sent, what was sent, and whether a
stop word was found. -/
structure TextState where
  text : Bytes := []
  nSent : Nat := 0
  sent : Bytes := []
  hit : Bool := false
  deriving DecidableEq

/-- A token moves the text on. -/
def TextState.step (p : SlotParams) (eog : Bool) (st : TextState) (piece : Bytes) : TextState :=
  let text := st.text ++ piece
  if validateUtf8 text < text.length then { st with text := text }
  else
    let pos := min st.nSent text.length
    match findStoppingStrings p.antiprompt (text.drop pos) piece.length true with
    | some (stopPos, _) =>
      let text := text.take (pos + stopPos)
      let send := text.drop (min st.nSent text.length)
      { text := text, nSent := st.nSent + send.length
        sent := if p.stream then st.sent ++ send else st.sent, hit := true }
    | none =>
      let held := !eog &&
        (findStoppingStrings p.antiprompt (text.drop pos) piece.length false).isSome
      let send := if held then [] else text.drop pos
      { st with
        text := text
        nSent := st.nSent + send.length
        sent := if p.stream then st.sent ++ send else st.sent }

/-- The text that was not sent. -/
def TextState.unsent (st : TextState) : Bytes := st.text.drop (min st.nSent st.text.length)

/-- The end of the text may be the start of a stop word. -/
def TextState.held (p : SlotParams) (eog : Bool) (st : TextState) : Bool :=
  !eog && (findStoppingStrings p.antiprompt st.unsent 0 false).isSome

/-- The text is sent, unless it is held back. -/
def TextState.flush (p : SlotParams) (eog : Bool) (st : TextState) : TextState :=
  let send := if st.held p eog then [] else st.unsent
  { st with
    nSent := st.nSent + send.length
    sent := if p.stream then st.sent ++ send else st.sent }

variable {piece : Bytes}

section
variable {p : SlotParams} {st : TextState}

theorem step_of_cut {eog : Bool} {piece : Bytes}
    (h : validateUtf8 (st.text ++ piece) < (st.text ++ piece).length) :
    st.step p eog piece = { st with text := st.text ++ piece } := by
  rw [TextState.step]
  exact if_pos h

/-- A step without a stop word: the text is sent unless it is held back. -/
theorem step_of_none {eog : Bool} {piece : Bytes}
    (hcut : ¬ validateUtf8 (st.text ++ piece) < (st.text ++ piece).length)
    (hnone : findStoppingStrings p.antiprompt { st with text := st.text ++ piece }.unsent
      piece.length true = none) :
    st.step p eog piece = { st with text := st.text ++ piece }.flush p eog := by
  rw [TextState.unsent] at hnone
  rw [TextState.step, TextState.flush, TextState.held, TextState.unsent,
    findStoppingStrings_partial _ _ 0 piece.length]
  simp only [if_neg hcut, hnone]

/-- A step with a stop word: the text ends before it, and is sent up to it. -/
theorem step_of_some (eog : Bool) {q : Nat} {word : Bytes}
    (hcut : ¬ validateUtf8 (st.text ++ piece) < (st.text ++ piece).length)
    (hsome : findStoppingStrings p.antiprompt { st with text := st.text ++ piece }.unsent
      piece.length true = some (q, word)) :
    st.step p eog piece =
      let text := (st.text ++ piece).take (min st.nSent (st.text ++ piece).length + q)
      let send := text.drop (min st.nSent text.length)
      { text := text, nSent := st.nSent + send.length
        sent := if p.stream then st.sent ++ send else st.sent, hit := true } := by
  rw [TextState.unsent] at hsome
  rw [TextState.step]
  simp only [if_neg hcut, hsome]

/-- A complete text without a hit: the search found nothing. -/
theorem find_none_of_hit_eq_false {eog : Bool}
    (hcut : ¬ validateUtf8 (st.text ++ piece) < (st.text ++ piece).length)
    (h : (st.step p eog piece).hit = false) :
    findStoppingStrings p.antiprompt { st with text := st.text ++ piece }.unsent
      piece.length true = none := by
  rw [TextState.unsent]
  rw [TextState.step] at h
  simp only [if_neg hcut] at h
  split at h
  · exact absurd h (by simp)
  · assumption

/-- Without a stop word the text of the token is behind the text. -/
theorem step_text {eog : Bool} (h : (st.step p eog piece).hit = false) :
    (st.step p eog piece).text = st.text ++ piece := by
  by_cases hcut : validateUtf8 (st.text ++ piece) < (st.text ++ piece).length
  · rw [step_of_cut hcut]
  · rw [step_of_none hcut (find_none_of_hit_eq_false hcut h)]
    rfl

end

/-- The text of a slot. -/
def EmitSlot.textState (slot : EmitSlot) : TextState :=
  ⟨slot.generatedText, slot.nSentText, slot.partials.flatten, slot.stoppedWord⟩

/-- The text of a slot after `processText`. -/
theorem processText_textState (srv : ServerCtx) (slot : EmitSlot) (t : TokenOutput) :
    (processText srv slot t).textState
      = slot.textState.step slot.params (srv.isEog t.tok) t.textToSend := by
  obtain ⟨p, nPredict, gaN, nCtx, nPast, nPrompt, spec, nDecoded, nRemaining, nSoft, sampled, text,
    nSent, next, truncated, eos, word, limit, stopping, partials⟩ := slot
  change EmitSlot.textState (processText srv _ t)
    = TextState.step p (srv.isEog t.tok) ⟨text, nSent, partials.flatten, word⟩ t.textToSend
  rw [processText, TextState.step]
  simp only
  by_cases hcut : validateUtf8 (text ++ t.textToSend) < (text ++ t.textToSend).length
  · rw [if_pos hcut, if_pos hcut]
    rfl
  · rw [if_neg hcut, if_neg hcut]
    -- a stop word was found or not; the text is sent in a streaming request
    cases findStoppingStrings p.antiprompt
        ((text ++ t.textToSend).drop (min nSent (text ++ t.textToSend).length))
        t.textToSend.length true with
    | none => by_cases hstream : p.stream = true <;> simp [hstream, EmitSlot.textState]
    | some stop => by_cases hstream : p.stream = true <;> simp [hstream, EmitSlot.textState]

/-! ### The limits -/

/-- A generation of `n` tokens has no budget left. -/
def EmitSlot.overBudget (srv : ServerCtx) (slot : EmitSlot) (n : Int) : Bool :=
  !decide (slot.params.nPredict = -1 ∧ srv.nPredict = -1) &&
    decide ((if slot.params.nPredict ≠ -1 then slot.params.nPredict else srv.nPredict) ≤ n)

/-- It has reached the length that the model was trained for. -/
def EmitSlot.overTrain (srv : ServerCtx) (slot : EmitSlot) (n : Int) : Bool :=
  decide (slot.params.nPredict < 1 ∧ slot.nPredict < 1 ∧ slot.gaN = 1 ∧
    srv.nCtxTrain ≤ slot.nPromptTokens + n)

/-- It is at one of its limits. -/
def EmitSlot.limited (srv : ServerCtx) (slot : EmitSlot) (n : Int) : Bool :=
  slot.overBudget srv n || slot.overTrain srv n

/-- More tokens are at the limit too. -/
theorem limited_mono (srv : ServerCtx) (slot : EmitSlot) (n m : Int) (h : n ≤ m)
    (hn : slot.limited srv n = true) : slot.limited srv m = true := by
  simp only [EmitSlot.limited, EmitSlot.overBudget, EmitSlot.overTrain, Bool.or_eq_true,
    Bool.and_eq_true, decide_eq_true_iff] at hn ⊢
  rcases hn with ⟨hfinite, hle⟩ | ⟨hp, hs, hga, hle⟩
  · exact Or.inl ⟨hfinite, by omega⟩
  · exact Or.inr ⟨hp, hs, hga, by omega⟩

/-- A slot that generates: nothing has stopped it, and its sampler does not keep failing. -/
structure EmitSlot.Live (srv : ServerCtx) (slot : EmitSlot) : Prop where
  eos : slot.stoppedEos = false
  word : slot.stoppedWord = false
  limit : slot.stoppedLimit = false
  softfail : slot.nSoftfailConsecutive < srv.softfailMaxConsec

/-- The fields that no step of the emission changes. -/
structure SameParams (slot slot' : EmitSlot) : Prop where
  params : slot'.params = slot.params
  nPredict : slot'.nPredict = slot.nPredict
  gaN : slot'.gaN = slot.gaN
  nPromptTokens : slot'.nPromptTokens = slot.nPromptTokens
  softfail : slot'.nSoftfailConsecutive = slot.nSoftfailConsecutive
  nDecoded : slot'.nDecoded = slot.nDecoded

theorem SameParams.trans {a b c : EmitSlot} (hab : SameParams a b) (hbc : SameParams b c) :
    SameParams a c where
  params := hbc.params.trans hab.params
  nPredict := hbc.nPredict.trans hab.nPredict
  gaN := hbc.gaN.trans hab.gaN
  nPromptTokens := hbc.nPromptTokens.trans hab.nPromptTokens
  softfail := hbc.softfail.trans hab.softfail
  nDecoded := hbc.nDecoded.trans hab.nDecoded

theorem SameParams.overTrain {srv : ServerCtx} {slot slot' : EmitSlot} (h : SameParams slot slot')
    (n : Int) : slot'.overTrain srv n = slot.overTrain srv n := by
  simp only [EmitSlot.overTrain, h.params, h.nPredict, h.gaN, h.nPromptTokens]

theorem SameParams.limited {srv : ServerCtx} {slot slot' : EmitSlot} (h : SameParams slot slot')
    (n : Int) : slot'.limited srv n = slot.limited srv n := by
  rw [EmitSlot.limited, EmitSlot.limited, h.overTrain, EmitSlot.overBudget, EmitSlot.overBudget,
    h.params]

theorem processText_sameParams (srv : ServerCtx) (slot : EmitSlot) (t : TokenOutput) :
    SameParams slot (processText srv slot t) := by
  rw [processText]
  simp only
  split
  · exact ⟨rfl, rfl, rfl, rfl, rfl, rfl⟩
  · split <;> exact ⟨rfl, rfl, rfl, rfl, rfl, rfl⟩

/-- The flags after the text was moved on. -/
theorem processText_flags {srv : ServerCtx} {slot : EmitSlot} (t : TokenOutput)
    (hword : slot.stoppedWord = false) :
    (processText srv slot t).hasNextToken = !(processText srv slot t).stoppedWord ∧
      (processText srv slot t).stoppedEos = slot.stoppedEos ∧
      (processText srv slot t).stoppedLimit = slot.stoppedLimit := by
  rw [processText]
  simp only
  split
  · simp [hword]
  · split
    · simp
    · simp [hword]

/-! ### One token -/

/-- What a check does to a slot: it may end the generation, and raise a flag for the reason. -/
structure Checked (slot slot' : EmitSlot) (ends : Bool) : Prop where
  same : SameParams slot slot'
  textState : slot'.textState = slot.textState
  hasNextToken : slot'.hasNextToken = (slot.hasNextToken && !ends)

theorem Checked.trans {a b c : EmitSlot} {e f : Bool} (hab : Checked a b e)
    (hbc : Checked b c f) : Checked a c (e || f) where
  same := hab.same.trans hbc.same
  textState := hbc.textState.trans hab.textState
  hasNextToken := by
    rw [hbc.hasNextToken, hab.hasNextToken, Bool.not_or, Bool.and_assoc]

section
variable {srv : ServerCtx} {slot : EmitSlot}

/-- The budget of a slot: the answer, and the only field that changes. -/
theorem hasBudget_spec (srv : ServerCtx) (slot : EmitSlot) :
    (hasBudget srv slot).1 = !slot.overBudget srv slot.nDecoded ∧
      ∃ r, (hasBudget srv slot).2 = { slot with nRemaining := r } := by
  rw [hasBudget, EmitSlot.overBudget]
  by_cases hfinite : slot.params.nPredict = -1 ∧ srv.nPredict = -1
  · rw [if_pos hfinite]
    exact ⟨by simp [hfinite], slot.nRemaining, rfl⟩
  · rw [if_neg hfinite]
    refine ⟨?_, _, rfl⟩
    simp only [hfinite, decide_false, Bool.not_false, Bool.true_and]
    rw [← decide_not, decide_eq_decide]
    split
    · omega
    · rw [if_pos (fun h => hfinite ⟨by omega, h⟩)]
      omega

/-- The check of the token budget, as the condition on what was decoded. -/
theorem checkBudget_spec (hn : 0 < slot.nDecoded) :
    Checked slot (checkBudget srv slot) (slot.overBudget srv slot.nDecoded) ∧
      (checkBudget srv slot).stoppedEos = slot.stoppedEos ∧
      (checkBudget srv slot).stoppedLimit
        = (slot.stoppedLimit || (slot.hasNextToken && slot.overBudget srv slot.nDecoded)) := by
  obtain ⟨hbudget, r, hremain⟩ := hasBudget_spec srv slot
  rw [checkBudget]
  by_cases hnext : slot.hasNextToken = true
  · rw [if_pos ⟨hn, hnext⟩]
    simp only [hbudget, hremain]
    cases slot.overBudget srv slot.nDecoded with
    | true => exact ⟨⟨⟨rfl, rfl, rfl, rfl, rfl, rfl⟩, rfl, by simp⟩, rfl, by simp [hnext]⟩
    | false => exact ⟨⟨⟨rfl, rfl, rfl, rfl, rfl, rfl⟩, rfl, by simp⟩, rfl, by simp⟩
  · rw [if_neg (fun h => hnext h.2)]
    rw [Bool.not_eq_true] at hnext
    exact ⟨⟨⟨rfl, rfl, rfl, rfl, rfl, rfl⟩, rfl, by simp [hnext]⟩, rfl, by simp [hnext]⟩

theorem checkSoftfail_eq (hsoft : slot.nSoftfailConsecutive < srv.softfailMaxConsec) :
    checkSoftfail srv slot = slot := by
  rw [checkSoftfail, if_neg (fun h => absurd h.2 (by omega))]

theorem checkEog_spec (tok : Int) (heos : slot.stoppedEos = false) :
    Checked slot (checkEog srv tok slot) (srv.isEog tok) ∧
      (checkEog srv tok slot).stoppedEos = srv.isEog tok ∧
      (checkEog srv tok slot).stoppedLimit = slot.stoppedLimit := by
  rw [checkEog]
  cases srv.isEog tok with
  | true => exact ⟨⟨⟨rfl, rfl, rfl, rfl, rfl, rfl⟩, rfl, by simp⟩, rfl, rfl⟩
  | false => exact ⟨⟨⟨rfl, rfl, rfl, rfl, rfl, rfl⟩, rfl, by simp⟩, by simp [heos], rfl⟩

theorem checkCtxTrain_spec :
    Checked slot (checkCtxTrain srv slot) (slot.overTrain srv slot.nDecoded) ∧
      (checkCtxTrain srv slot).stoppedEos = slot.stoppedEos ∧
      (checkCtxTrain srv slot).stoppedLimit
        = (slot.stoppedLimit || slot.overTrain srv slot.nDecoded) := by
  rw [checkCtxTrain, EmitSlot.overTrain]
  by_cases htrain : slot.params.nPredict < 1 ∧ slot.nPredict < 1 ∧ slot.gaN = 1 ∧
      srv.nCtxTrain ≤ slot.nPromptTokens + slot.nDecoded
  · rw [if_pos htrain, decide_eq_true htrain]
    exact ⟨⟨⟨rfl, rfl, rfl, rfl, rfl, rfl⟩, rfl, by simp⟩, rfl, by simp⟩
  · rw [if_neg htrain, decide_eq_false htrain]
    exact ⟨⟨⟨rfl, rfl, rfl, rfl, rfl, rfl⟩, rfl, by simp⟩, rfl, by simp⟩

/-- The reason for which a generation ends. -/
def stopReason (eog hit : Bool) : StopType :=
  if eog then .eos else if hit then .word else .limit

/-- What one token does: the text moves on, and the generation ends at an end-of-generation token,
at a stop word or at the limit. -/
structure TokenSpec (srv : ServerCtx) (slot : EmitSlot) (t : TokenOutput) (slot' : EmitSlot)
    (next : Bool) : Prop where
  same : SameParams slot slot'
  textState :
    slot'.textState = slot.textState.step slot.params (srv.isEog t.tok) t.textToSend
  next_eq : next = !(slot'.textState.hit || slot.limited srv slot.nDecoded || srv.isEog t.tok)
  stopKind : next = false → slot'.stopKind = stopReason (srv.isEog t.tok) slot'.textState.hit
  live : next = true → slot'.Live srv

/-- `process_token` is one step of the text and of the limits. -/
theorem processToken_spec (h : slot.Live srv) (hn : 0 < slot.nDecoded) (t : TokenOutput) :
    TokenSpec srv slot t (processToken srv slot t).1 (processToken srv slot t).2 := by
  have hsame := processText_sameParams srv slot t
  obtain ⟨hnext, heos, hlimit⟩ := @processText_flags srv slot t h.word
  have htext := processText_textState srv slot t
  rw [processToken, checkLimits]
  generalize processText srv slot t = s at hsame hnext heos hlimit htext ⊢
  have hcount : 0 < s.nDecoded := by
    rw [hsame.nDecoded]
    exact hn
  obtain ⟨hb, hbEos, hbLimit⟩ := @checkBudget_spec srv s hcount
  have hsoft : checkSoftfail srv (checkBudget srv s) = checkBudget srv s := by
    apply checkSoftfail_eq
    rw [hb.same.softfail, hsame.softfail]
    exact h.softfail
  rw [hsoft]
  generalize checkBudget srv s = b at hb hbEos hbLimit ⊢
  obtain ⟨he, heEos, heLimit⟩ := @checkEog_spec srv b t.tok
    (hbEos.trans (heos.trans h.eos))
  generalize checkEog srv t.tok b = e at he heEos heLimit ⊢
  obtain ⟨hc, hcEos, hcLimit⟩ := @checkCtxTrain_spec srv e
  generalize checkCtxTrain srv e = c at hc hcEos hcLimit ⊢
  -- the checks, one after the other
  have hall := (hb.trans he).trans hc
  have htrain : e.overTrain srv e.nDecoded = slot.overTrain srv slot.nDecoded := by
    rw [((hsame.trans hb.same).trans he.same).overTrain, he.same.nDecoded, hb.same.nDecoded,
      hsame.nDecoded]
  have hbudget : s.overBudget srv s.nDecoded = slot.overBudget srv slot.nDecoded := by
    rw [EmitSlot.overBudget, EmitSlot.overBudget, hsame.params, hsame.nDecoded]
  rw [htrain] at hall hcLimit
  rw [hbudget] at hall hbLimit
  have hhit : c.textState.hit = s.stoppedWord := congrArg TextState.hit hall.textState
  have hends : c.hasNextToken
      = !(c.textState.hit || slot.limited srv slot.nDecoded || srv.isEog t.tok) := by
    rw [hall.hasNextToken, hnext, hhit, EmitSlot.limited]
    cases s.stoppedWord <;> cases slot.overBudget srv slot.nDecoded <;>
      cases slot.overTrain srv slot.nDecoded <;> cases srv.isEog t.tok <;> rfl
  refine ⟨hsame.trans hall.same, hall.textState.trans htext, hends, ?_, ?_⟩
  · intro hstop
    rw [hends] at hstop
    have hword : c.stoppedWord = c.textState.hit := rfl
    rw [EmitSlot.stopKind, stopReason, hcEos, heEos, hcLimit, heLimit, hbLimit, hlimit, h.limit,
      hword, hnext, ← hhit]
    rw [EmitSlot.limited] at hstop
    revert hstop
    cases c.textState.hit <;> cases slot.overBudget srv slot.nDecoded <;>
      cases slot.overTrain srv slot.nDecoded <;> cases srv.isEog t.tok <;> simp
  · intro hlive
    rw [hends] at hlive
    rw [EmitSlot.limited] at hlive
    simp only [Bool.not_eq_true', Bool.or_eq_false_iff] at hlive
    obtain ⟨⟨hnohit, hnobudget, hnotrain⟩, hnoeog⟩ := hlive
    refine ⟨?_, ?_, ?_, ?_⟩
    · rw [hcEos, heEos, hnoeog]
    · exact hnohit
    · rw [hcLimit, heLimit, hbLimit, hlimit, h.limit, hnobudget, hnotrain]
      simp
    · rw [hall.same.softfail, hsame.softfail]
      exact h.softfail

end

/-! ### A run of the text -/

/-- What a generation leaves: the text, what of it was sent, and the reason of the final
response. -/
structure Emission where
  text : Bytes
  sent : Bytes
  stopKind : StopType
  deriving DecidableEq

/-- What a slot leaves. -/
def EmitSlot.emission (slot : EmitSlot) : Emission :=
  ⟨slot.generatedText, slot.partials.flatten, slot.stopKind⟩

/-- A run of the text over tokens, each with the answer whether it is at the limit: how many
tokens it takes to end, and what it leaves. -/
def emit (p : SlotParams) (isEog : Int → Bool) :
    TextState → List (TokenOutput × Bool) → Option (Nat × Emission)
  | _, [] => none
  | st, (t, lim) :: rest =>
    let st := st.step p (isEog t.tok) t.textToSend
    if st.hit || lim || isEog t.tok then
      some (1, ⟨st.text, st.sent, stopReason (isEog t.tok) st.hit⟩)
    else (emit p isEog st rest).map fun r => (r.1 + 1, r.2)

section
variable {p : SlotParams} {isEog : Int → Bool} {st : TextState} {t : TokenOutput} {lim : Bool}

theorem emit_cons_ends
    (h : ((st.step p (isEog t.tok) t.textToSend).hit || lim || isEog t.tok) = true)
    (rest : List (TokenOutput × Bool)) :
    emit p isEog st ((t, lim) :: rest)
      = some (1, ⟨(st.step p (isEog t.tok) t.textToSend).text,
          (st.step p (isEog t.tok) t.textToSend).sent,
          stopReason (isEog t.tok) (st.step p (isEog t.tok) t.textToSend).hit⟩) := by
  rw [emit]
  exact if_pos h

theorem emit_cons_next
    (h : ((st.step p (isEog t.tok) t.textToSend).hit || lim || isEog t.tok) = false)
    (rest : List (TokenOutput × Bool)) :
    emit p isEog st ((t, lim) :: rest)
      = (emit p isEog (st.step p (isEog t.tok) t.textToSend) rest).map fun r =>
          (r.1 + 1, r.2) := by
  rw [emit]
  exact if_neg (by simp [h])

end

/-- The tokens of the plain path count up to themselves. -/
def plainLimits (lim : Int → Bool) : Int → List TokenOutput → List (TokenOutput × Bool)
  | _, [] => []
  | n, t :: ts => (t, lim (n + 1)) :: plainLimits lim (n + 1) ts

section
variable {srv : ServerCtx} {slot : EmitSlot}

/-- One token of a slot that has counted it: what the next slot has, and one step of `emit`. -/
theorem emit_step {slot' : EmitSlot} {next : Bool} {t : TokenOutput}
    (h : TokenSpec srv slot t slot' next) (rest : List (TokenOutput × Bool)) :
    emit slot.params srv.isEog slot.textState ((t, slot.limited srv slot.nDecoded) :: rest)
      = if next then (emit slot'.params srv.isEog slot'.textState rest).map fun r => (r.1 + 1, r.2)
        else some (1, slot'.emission) := by
  have hends := h.next_eq
  rw [h.textState] at hends
  cases hnext : next with
  | true =>
    rw [hnext, Bool.true_eq, Bool.not_eq_true'] at hends
    rw [emit_cons_next hends, ← h.textState, h.same.params]
    rfl
  | false =>
    rw [hnext, Bool.false_eq, Bool.not_eq_false'] at hends
    rw [emit_cons_ends hends, EmitSlot.emission, h.stopKind hnext, ← h.textState]
    rfl

/-- The plain path is a run of the text. -/
theorem plainRun_eq_emit (h : slot.Live srv) (hn : 0 ≤ slot.nDecoded) (ts : List TokenOutput) :
    (if (plainRun srv slot ts).2.2 then none
      else some ((plainRun srv slot ts).2.1, (plainRun srv slot ts).1.emission))
      = emit slot.params srv.isEog slot.textState
          (plainLimits (slot.limited srv) slot.nDecoded ts) := by
  induction ts generalizing slot with
  | nil => rfl
  | cons t ts ih =>
    have hlive : EmitSlot.Live srv
        { slot with nDecoded := slot.nDecoded + 1, nPast := slot.nPast + 1 } :=
      ⟨h.eos, h.word, h.limit, h.softfail⟩
    have hspec := processToken_spec hlive (by simp only; omega) t
    have hstep := emit_step hspec (plainLimits (slot.limited srv) (slot.nDecoded + 1) ts)
    rw [plainRun, plainLimits]
    refine Eq.trans ?_ hstep.symm
    generalize processToken srv
      { slot with nDecoded := slot.nDecoded + 1, nPast := slot.nPast + 1 } t = r at hspec ⊢
    obtain ⟨slot', next⟩ := r
    cases next with
    | false => rfl
    | true =>
      simp only [if_true]
      have hcount : slot'.nDecoded = slot.nDecoded + 1 := hspec.same.nDecoded
      have hlim : slot'.limited srv = slot.limited srv := funext hspec.same.limited
      have hlive' : slot'.Live srv := hspec.live rfl
      rw [← hcount, ← hlim, ← ih hlive' (by omega)]
      cases (plainRun srv slot' ts).2.2 <;> rfl

/-- A group whose tokens are all counted is a run of the text, and the slot after it has what the
text after it has. -/
theorem emitLoop_eq_emit (h : slot.Live srv) (hn : 0 < slot.nDecoded) (ids : List TokenOutput)
    (rest : List (TokenOutput × Bool)) :
    SameParams slot (emitLoop srv slot ids).1 ∧
      ((emitLoop srv slot ids).2 = true → (emitLoop srv slot ids).1.Live srv) ∧
      (emit slot.params srv.isEog slot.textState
          (ids.map (fun t => (t, slot.limited srv slot.nDecoded)) ++ rest)).map Prod.snd
        = if (emitLoop srv slot ids).2 then
            (emit slot.params srv.isEog (emitLoop srv slot ids).1.textState rest).map Prod.snd
          else some (emitLoop srv slot ids).1.emission := by
  induction ids generalizing slot with
  | nil => exact ⟨⟨rfl, rfl, rfl, rfl, rfl, rfl⟩, fun _ => h, rfl⟩
  | cons t ids ih =>
    have hspec := processToken_spec h hn t
    have hstep := emit_step hspec
      (ids.map (fun t => (t, slot.limited srv slot.nDecoded)) ++ rest)
    rw [List.map_cons, List.cons_append, hstep, emitLoop]
    generalize processToken srv slot t = r at hspec ⊢
    obtain ⟨slot', next⟩ := r
    cases next with
    | false => exact ⟨hspec.same, fun hnext => absurd hnext (by simp), rfl⟩
    | true =>
      have hcount : slot'.nDecoded = slot.nDecoded := hspec.same.nDecoded
      have hlim : slot'.limited srv = slot.limited srv := funext hspec.same.limited
      have hlive' : slot'.Live srv := hspec.live rfl
      obtain ⟨hsame, hlive, hemit⟩ := ih hlive' (by omega)
      refine ⟨hspec.same.trans hsame, hlive, ?_⟩
      simp only [if_true]
      rw [hcount, hlim] at hemit
      rw [Option.map_map, ← hspec.same.params]
      exact hemit

end

end PxqLlama.Server
