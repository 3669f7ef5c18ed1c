import PxqLlama.Proofs.Server.Emit

/-!
# `Proofs.Server.SpecEmit`: the speculative path against the plain path

The speculative path counts a group before it emits it, so a limit that is reached inside a group
ends the generation at the first token of the group. The plain path emits the group up to the
token that reaches the limit. The two paths have the same outcome exactly when no group loses
anything by it (`specAgrees_iff`): the tokens after the first, up to the one at the limit, do not
end the generation and complete no character.
-/

namespace PxqLlama.Server

/-! ### The statement -/

/-- What the client has of a generation that has ended: the final response and the text that was
streamed. -/
def outcome (slot : EmitSlot) (next : Bool) : Option (FinalResponse × Bytes) :=
  if next then none else some (sendFinalResponse slot, slot.partials.flatten)

/-- The tokens have the same outcome in groups and one by one. -/
def SpecAgrees (srv : ServerCtx) (slot : EmitSlot) (groups : List (List TokenOutput)) : Prop :=
  outcome (plainRun srv slot groups.flatten).1 (plainRun srv slot groups.flatten).2.2
    = outcome (specRun srv slot groups).1 (specRun srv slot groups).2

/-- The tokens of a group are counted. -/
def EmitSlot.countGroup (slot : EmitSlot) (ids : List TokenOutput) : EmitSlot :=
  { slot with nDecoded := slot.nDecoded + ids.length, nPast := slot.nPast + ids.length }

/-- Every group has a token, and no more than `get_n_draft_max` drafts beside the one that is
sampled. -/
def respectsDraftMax (srv : ServerCtx) : EmitSlot → List (List TokenOutput) → Bool
  | _, [] => true
  | slot, ids :: groups =>
    decide (1 ≤ ids.length) && decide (ids.length ≤ getNDraftMax slot + 1) &&
      let (slot, next) := emitLoop srv (slot.countGroup ids) ids
      !next || respectsDraftMax srv slot groups

/-- The token ends the generation by itself: it is an end-of-generation token, or it completes a
stop word. -/
def EmitSlot.endsText (srv : ServerCtx) (slot : EmitSlot) (t : TokenOutput) : Bool :=
  let text := slot.generatedText ++ t.textToSend
  srv.isEog t.tok ||
    (decide (¬ validateUtf8 text < text.length) &&
      (findStoppingStrings slot.params.antiprompt
        (text.drop (min slot.nSentText text.length)) t.textToSend.length true).isSome)

/-- A group loses nothing at the limit. Let `u` be its token that reaches the limit, and let the
first token `t` not end the generation. The tokens from the second to `u` do not end it either,
and what they add to the text is not visible. -/
def LosesNothing (srv : ServerCtx) (slot : EmitSlot) (ids : List TokenOutput) : Prop :=
  ∀ t us u vs, ids = t :: (us ++ u :: vs) →
    slot.limited srv (slot.nDecoded + 1 + us.length) = false →
    slot.limited srv (slot.nDecoded + 1 + us.length + 1) = true →
    slot.endsText srv t = false →
    (∀ x ∈ us ++ [u], srv.isEog x.tok = false) ∧
      visible (slot.generatedText ++ t.textToSend ++ pieces (us ++ [u]))
        = visible (slot.generatedText ++ t.textToSend)

instance (srv : ServerCtx) (slot : EmitSlot) (groups : List (List TokenOutput)) :
    Decidable (SpecAgrees srv slot groups) :=
  inferInstanceAs (Decidable (_ = _))

/-! ### The text behind a limit -/

/-- A text that grows and has the same visible part ends with a character that is cut off, unless
it does not grow. -/
theorem cut_of_visible_eq {text more : Bytes} (h : visible (text ++ more) = visible text)
    {part : Bytes} (hpart : part <+: more) (hne : part ≠ []) :
    validateUtf8 (text ++ part) < (text ++ part).length := by
  have hlen : validateUtf8 (text ++ more) = validateUtf8 text := by
    have heq := congrArg List.length h
    rw [visible, visible, List.length_take, List.length_take,
      Nat.min_eq_left (validateUtf8_le _), Nat.min_eq_left (validateUtf8_le _)] at heq
    exact heq
  have hlong : 0 < part.length := List.length_pos_iff.mpr hne
  have hshort := hpart.length_le
  have hle := validateUtf8_le text
  have hcutmore : validateUtf8 (text ++ more) < (text ++ more).length := by
    rw [hlen, List.length_append]
    omega
  obtain ⟨i, hpos, hi, hfour, hplace, hcut⟩ := validateUtf8_lt_cases hcutmore
  rw [List.length_append] at hi hplace hcut
  rw [hlen] at hplace
  -- the lead of the character is in the text with the part too
  rw [validateUtf8_lt_iff]
  refine ⟨(text ++ part).length - validateUtf8 text, ?_, ?_, ?_, ?_⟩
  · rw [List.length_append]; omega
  · omega
  · rw [List.length_append]; omega
  · have hlead : (text ++ part).getD (validateUtf8 text) 0
        = (text ++ more).getD (validateUtf8 text) 0 := by
      obtain ⟨rest, rfl⟩ := hpart
      rw [← List.append_assoc]
      exact (List.getD_append _ _ _ _ (by rw [List.length_append]; omega)).symm
    rw [Nat.sub_sub_self (by rw [List.length_append]; omega), hlead, hplace]
    refine startsCut_mono ?_ hcut
    rw [List.length_append]
    omega

/-! ### Steps that change nothing visible -/

variable {us ids : List TokenOutput} {n : Int}

section
variable {p : SlotParams} {st : TextState}

/-- What is not sent after the text was sent or held back. -/
theorem unsent_flush (eog : Bool) :
    (st.flush p eog).unsent = if st.held p eog then st.unsent else [] := by
  rw [TextState.flush]
  by_cases hheld : st.held p eog = true
  · simp only [if_pos hheld]
    rfl
  · simp only [if_neg hheld]
    rw [TextState.unsent]
    refine List.drop_of_length_le ?_
    simp only
    rw [TextState.unsent, List.length_drop]
    omega

/-- To send or hold back the text once more changes nothing. -/
theorem flush_flush : (st.flush p false).flush p false = st.flush p false := by
  have hunsent := @unsent_flush p st false
  generalize st.flush p false = st' at hunsent ⊢
  have hsend : (if st'.held p false then [] else st'.unsent) = [] := by
    by_cases hheld : st.held p false = true
    · rw [if_pos hheld] at hunsent
      rw [TextState.held, hunsent]
      rw [TextState.held] at hheld
      exact if_pos hheld
    · rw [if_neg hheld] at hunsent
      rw [hunsent, ite_self]
  rw [TextState.flush, hsend]
  simp

/-- A step is settled: once more without text it changes nothing. -/
theorem step_settled {piece : Bytes} (h : (st.step p false piece).hit = false) :
    (st.step p false piece).step p false [] = st.step p false piece := by
  have htext := step_text h
  by_cases hcut : validateUtf8 (st.text ++ piece) < (st.text ++ piece).length
  · have hagain : validateUtf8 ((st.step p false piece).text ++ [])
        < ((st.step p false piece).text ++ []).length := by
      rwa [List.append_nil, htext]
    rw [step_of_cut hagain, List.append_nil]
  · have hnone := find_none_of_hit_eq_false hcut h
    have hstep := @step_of_none p st false piece hcut hnone
    have hagain : ¬ validateUtf8 ((st.step p false piece).text ++ [])
        < ((st.step p false piece).text ++ []).length := by
      rwa [List.append_nil, htext]
    -- the second search has the same text, or none
    have hsearch : findStoppingStrings p.antiprompt
        { st.step p false piece with text := (st.step p false piece).text ++ [] }.unsent
        ([] : Bytes).length true = none := by
      rw [List.append_nil, hstep, unsent_flush]
      split
      · exact findStoppingStrings_none_of_le (Nat.zero_le _) hnone
      · exact findStoppingStrings_nil hnone _ _
    rw [step_of_none hagain hsearch, List.append_nil, hstep]
    exact @flush_flush p { st with text := st.text ++ piece }

/-! ### Tokens up to the limit -/

section
variable {isEog : Int → Bool}

theorem stopReason_eq_limit {eog hit : Bool} :
    stopReason eog hit = .limit ↔ eog = false ∧ hit = false := by
  cases eog <;> cases hit <;> decide

/-- A run that ends at the limit: no token ended it before, and the text is all of their text. -/
theorem emit_limit_text {u : TokenOutput} {more : List (TokenOutput × Bool)} {k : Nat}
    {e : Emission}
    (hrun : emit p isEog st (us.map (fun t => (t, false)) ++ (u, true) :: more) = some (k, e))
    (hkind : e.stopKind = .limit) :
    (∀ x ∈ us ++ [u], isEog x.tok = false) ∧ e.text = st.text ++ pieces (us ++ [u]) := by
  induction us generalizing st k with
  | nil =>
    rw [List.map_nil, List.nil_append, emit_cons_ends (by simp), Option.some_inj,
      Prod.mk.injEq] at hrun
    obtain ⟨-, rfl⟩ := hrun
    obtain ⟨heog, hhit⟩ := stopReason_eq_limit.mp hkind
    refine ⟨by simpa using heog, ?_⟩
    rw [step_text hhit]
    simp [pieces]
  | cons t us ih =>
    rw [List.map_cons, List.cons_append] at hrun
    cases hends : ((st.step p (isEog t.tok) t.textToSend).hit || false || isEog t.tok) with
    | true =>
      rw [emit_cons_ends hends, Option.some_inj, Prod.mk.injEq] at hrun
      obtain ⟨-, rfl⟩ := hrun
      -- the token ended it, and not at the limit
      obtain ⟨heog, hhit⟩ := stopReason_eq_limit.mp hkind
      rw [hhit, heog] at hends
      exact absurd hends (by decide)
    | false =>
      rw [emit_cons_next hends, Option.map_eq_some_iff] at hrun
      rw [Bool.or_false, Bool.or_eq_false_iff] at hends
      obtain ⟨⟨k', e'⟩, hrun, heq⟩ := hrun
      obtain ⟨-, rfl⟩ := Prod.mk.inj heq
      obtain ⟨heog, htext⟩ := ih hrun
      refine ⟨?_, ?_⟩
      · rw [List.cons_append, List.forall_mem_cons]
        exact ⟨hends.2, heog⟩
      · change e'.text = _ at htext
        rw [htext, step_text hends.1, List.append_assoc]
        rfl

/-- A token whose text is not visible only adds its text. -/
theorem step_quiet {done piece rest : Bytes} (hsettled : st.step p false [] = st)
    (hvisible : visible (st.text ++ (done ++ (piece ++ rest))) = visible st.text) :
    TextState.step p false { st with text := st.text ++ done } piece
      = { st with text := st.text ++ (done ++ piece) } := by
  by_cases hne : done ++ piece = []
  · obtain ⟨rfl, rfl⟩ := List.append_eq_nil_iff.mp hne
    rw [List.append_nil, List.append_nil, List.append_nil]
    exact hsettled
  · have hpart : done ++ piece <+: done ++ (piece ++ rest) := by
      rw [← List.append_assoc]
      exact List.prefix_append _ _
    have hcut := cut_of_visible_eq hvisible hpart hne
    rw [← List.append_assoc] at hcut ⊢
    exact @step_of_cut p { st with text := st.text ++ done } false piece hcut

/-- A run over tokens whose text is not visible ends at the limit, and nothing is sent. -/
theorem emit_quiet {u : TokenOutput} (done : Bytes) (hst : st.hit = false)
    (hsettled : st.step p false [] = st) (heog : ∀ x ∈ us ++ [u], isEog x.tok = false)
    (hvisible : visible (st.text ++ (done ++ pieces (us ++ [u]))) = visible st.text)
    (more : List (TokenOutput × Bool)) :
    ∃ k, emit p isEog { st with text := st.text ++ done }
        (us.map (fun t => (t, false)) ++ (u, true) :: more)
      = some (k, ⟨st.text ++ (done ++ pieces (us ++ [u])), st.sent, .limit⟩) := by
  induction us generalizing done with
  | nil =>
    have hu : isEog u.tok = false := heog u (by simp)
    have hpieces : pieces ([] ++ [u]) = u.textToSend ++ [] := List.flatMap_cons ..
    rw [hpieces] at hvisible
    have hstep := step_quiet hsettled hvisible
    refine ⟨1, ?_⟩
    rw [List.map_nil, List.nil_append, emit_cons_ends (by simp), hu, hstep, hpieces,
      List.append_nil, hst]
    rfl
  | cons t us ih =>
    have ht : isEog t.tok = false := heog t (by simp)
    have hpieces : pieces (t :: us ++ [u]) = t.textToSend ++ pieces (us ++ [u]) :=
      List.flatMap_cons ..
    rw [hpieces] at hvisible ⊢
    have hstep := step_quiet hsettled hvisible
    rw [← List.append_assoc done] at hvisible ⊢
    obtain ⟨k, hrun⟩ := ih (done ++ t.textToSend) (fun x hx => heog x (by simp [hx])) hvisible
    refine ⟨k + 1, ?_⟩
    rw [List.map_cons, List.cons_append, emit_cons_next (by rw [ht, hstep, hst]; rfl), ht, hstep,
      hrun]
    rfl

end

/-! ### Outcomes -/

/-- What the client has of an emission. -/
def Emission.view (p : SlotParams) (e : Emission) : FinalResponse × Bytes :=
  (⟨if p.stream then [] else visible e.text, visible e.text, e.stopKind⟩, e.sent)

theorem outcome_eq (slot : EmitSlot) (next : Bool) :
    outcome slot next
      = (if next then none else some slot.emission).map (Emission.view slot.params) := by
  cases next <;> rfl

/-- Tokens behind a step that did not end the generation, up to the limit: they change nothing for
the client exactly when they do not end the generation and add nothing visible. -/
theorem emit_view_iff (hst : st.hit = false) (hsettled : st.step p false [] = st)
    {isEog : Int → Bool} (us : List TokenOutput) (u : TokenOutput)
    (more : List (TokenOutput × Bool)) :
    (emit p isEog st (us.map (fun t => (t, false)) ++ (u, true) :: more)).map
        (fun r => r.2.view p)
      = some (Emission.view p ⟨st.text, st.sent, .limit⟩) ↔
      (∀ x ∈ us ++ [u], isEog x.tok = false) ∧
        visible (st.text ++ pieces (us ++ [u])) = visible st.text := by
  constructor
  · intro h
    obtain ⟨⟨k, e⟩, hrun, hview⟩ := Option.map_eq_some_iff.mp h
    obtain ⟨hfinal, -⟩ := Prod.mk.inj hview
    obtain ⟨-, htext, hkind⟩ := FinalResponse.mk.inj hfinal
    obtain ⟨heog, hall⟩ := emit_limit_text hrun hkind
    rw [hall] at htext
    exact ⟨heog, htext⟩
  · rintro ⟨heog, hvisible⟩
    obtain ⟨k, hrun⟩ := emit_quiet [] hst hsettled heog hvisible more
    have hself : ({ st with text := st.text ++ [] } : TextState) = st := by
      rw [List.append_nil]
    rw [hself, List.nil_append] at hrun
    rw [hrun, Option.map_some, Emission.view, Emission.view]
    simp only [hvisible]

end

/-! ### The token at the limit -/

section
variable {lim : Int → Bool}

theorem plainLimits_append (n : Int) (ts us : List TokenOutput) :
    plainLimits lim n (ts ++ us)
      = plainLimits lim n ts ++ plainLimits lim (n + ts.length) us := by
  induction ts generalizing n with
  | nil => simp [plainLimits]
  | cons t ts ih =>
    rw [List.cons_append, plainLimits, ih, plainLimits, List.cons_append, List.length_cons]
    congr 3
    push_cast
    omega

/-- Before the limit no token is at it. -/
theorem plainLimits_of_not (hmono : ∀ n m, n ≤ m → lim n = true → lim m = true)
    {ts : List TokenOutput} (h : lim (n + ts.length) = false) :
    plainLimits lim n ts = ts.map fun t => (t, false) := by
  induction ts generalizing n with
  | nil => rfl
  | cons t ts ih =>
    rw [List.length_cons] at h
    have hfirst : lim (n + 1) = false := by
      by_contra hne
      rw [Bool.not_eq_false] at hne
      rw [hmono _ _ (by push_cast; omega) hne] at h
      exact absurd h (by decide)
    rw [plainLimits, List.map_cons, hfirst, ih]
    rw [← h]
    congr 1
    push_cast
    omega

/-- Some token is the first at the limit. -/
theorem exists_limit {ts : List TokenOutput} (hn : lim n = false) (h : lim (n + ts.length) = true) :
    ∃ us u vs, ts = us ++ u :: vs ∧ lim (n + us.length) = false ∧
      lim (n + us.length + 1) = true := by
  induction ts generalizing n with
  | nil =>
    rw [List.length_nil, Int.natCast_zero, Int.add_zero, hn] at h
    exact absurd h (by decide)
  | cons t ts ih =>
    cases hnext : lim (n + 1) with
    | true => exact ⟨[], t, ts, rfl, by simpa using hn, by simpa using hnext⟩
    | false =>
      have hrest : lim (n + 1 + ts.length) = true := by
        rw [← h, List.length_cons]
        congr 1
        push_cast
        omega
      obtain ⟨us, u, vs, rfl, hbefore, hat⟩ := ih hnext hrest
      refine ⟨t :: us, u, vs, rfl, ?_, ?_⟩
      · rw [← hbefore, List.length_cons]
        congr 1
        push_cast
        omega
      · rw [← hat, List.length_cons]
        congr 1
        push_cast
        omega

/-- There is only one such token. -/
theorem limit_unique (hmono : ∀ n m, n ≤ m → lim n = true → lim m = true) {us' : List TokenOutput}
    (h : lim (n + us.length) = false) (hat : lim (n + us.length + 1) = true)
    (h' : lim (n + us'.length) = false) (hat' : lim (n + us'.length + 1) = true) :
    us.length = us'.length := by
  by_contra hne
  rcases Nat.lt_or_gt_of_ne hne with hlt | hlt
  · rw [hmono _ _ (by omega) hat] at h'
    exact absurd h' (by decide)
  · rw [hmono _ _ (by omega) hat'] at h
    exact absurd h (by decide)

end

/-! ### One group -/

section
variable {srv : ServerCtx} {slot : EmitSlot}

/-- A token ends the text when a word stops it or when it ends the generation. -/
theorem endsText_eq (hword : slot.stoppedWord = false) (t : TokenOutput) :
    slot.endsText srv t
      = ((slot.textState.step slot.params (srv.isEog t.tok) t.textToSend).hit
        || srv.isEog t.tok) := by
  have hhit : slot.textState.hit = false := hword
  change (srv.isEog t.tok ||
    (decide (¬ validateUtf8 (slot.textState.text ++ t.textToSend)
        < (slot.textState.text ++ t.textToSend).length) &&
      (findStoppingStrings slot.params.antiprompt ((slot.textState.text ++ t.textToSend).drop
        (min slot.textState.nSent (slot.textState.text ++ t.textToSend).length))
        t.textToSend.length true).isSome)) = _
  rw [Bool.or_comm]
  congr 1
  rw [TextState.step]
  by_cases hcut : validateUtf8 (slot.textState.text ++ t.textToSend)
      < (slot.textState.text ++ t.textToSend).length
  · rw [if_pos hcut, hhit, decide_eq_false (fun h => h hcut), Bool.false_and]
  · rw [if_neg hcut, decide_eq_true hcut, Bool.true_and]
    simp only
    split <;> rename_i hfind <;> rw [hfind]
    · rfl
    · exact hhit.symm

theorem countGroup_live (h : slot.Live srv) (ids : List TokenOutput) :
    (slot.countGroup ids).Live srv :=
  ⟨h.eos, h.word, h.limit, h.softfail⟩

theorem countGroup_pos (hn : 0 ≤ slot.nDecoded) (hids : ids ≠ []) :
    0 < (slot.countGroup ids).nDecoded := by
  have hpos : 0 < ids.length := List.length_pos_iff.mpr hids
  rw [EmitSlot.countGroup]
  simp only
  omega

/-- A group at the limit ends with its first token. -/
theorem emitLoop_limited (h : slot.Live srv) (hn : 0 < slot.nDecoded)
    (hlim : slot.limited srv slot.nDecoded = true) (t : TokenOutput) (ts : List TokenOutput) :
    (emitLoop srv slot (t :: ts)).2 = false := by
  have hspec := processToken_spec h hn t
  have hnext := hspec.next_eq
  rw [hlim, Bool.or_true, Bool.true_or, Bool.not_true] at hnext
  rw [emitLoop]
  generalize processToken srv slot t = r at hnext ⊢
  obtain ⟨slot', next⟩ := r
  cases hnext
  rfl

/-- A group that the generation outlives is not at the limit. -/
theorem not_limited_of_next (h : slot.Live srv) (hn : 0 ≤ slot.nDecoded) (hids : ids ≠ [])
    (hnext : (emitLoop srv (slot.countGroup ids) ids).2 = true) :
    slot.limited srv (slot.nDecoded + ids.length) = false := by
  have hcount := countGroup_pos hn hids
  by_contra hne
  rw [Bool.not_eq_false] at hne
  cases ids with
  | nil => exact hids rfl
  | cons t us =>
    rw [emitLoop_limited (countGroup_live h _) hcount hne] at hnext
    exact absurd hnext (by decide)

/-- A group that is not at the limit loses nothing. -/
theorem losesNothing_of_not_limited
    (hfree : slot.limited srv (slot.nDecoded + ids.length) = false) :
    LosesNothing srv slot ids := by
  rintro t us u vs rfl - hat -
  rw [limited_mono srv slot _ _ _ hat] at hfree
  · exact absurd hfree (by decide)
  · simp only [List.length_cons, List.length_append]
    push_cast
    omega

/-- A group that the generation outlives: the plain path is at the same text after it. -/
theorem emit_group_next (h : slot.Live srv) (hn : 0 ≤ slot.nDecoded) (hids : ids ≠ [])
    (hnext : (emitLoop srv (slot.countGroup ids) ids).2 = true) (ts : List TokenOutput) :
    (emit slot.params srv.isEog slot.textState
        (plainLimits (slot.limited srv) slot.nDecoded (ids ++ ts))).map Prod.snd
      = (emit slot.params srv.isEog (emitLoop srv (slot.countGroup ids) ids).1.textState
          (plainLimits (slot.limited srv) (slot.nDecoded + ids.length) ts)).map Prod.snd := by
  have hfree := not_limited_of_next h hn hids hnext
  obtain ⟨-, -, hemit⟩ := emitLoop_eq_emit (countGroup_live h ids) (countGroup_pos hn hids) ids
    (plainLimits (slot.limited srv) (slot.nDecoded + ids.length) ts)
  rw [if_pos hnext] at hemit
  rw [plainLimits_append, plainLimits_of_not (limited_mono srv slot) hfree, ← hfree]
  exact hemit

/-- A group that ends the generation: the plain path has the same outcome exactly when the group
loses nothing at the limit. -/
theorem emit_group_stop (h : slot.Live srv) (hn : 0 ≤ slot.nDecoded) (hids : ids ≠ [])
    (hstop : (emitLoop srv (slot.countGroup ids) ids).2 = false) (ts : List TokenOutput) :
    (emit slot.params srv.isEog slot.textState
        (plainLimits (slot.limited srv) slot.nDecoded (ids ++ ts))).map
          (fun r => r.2.view slot.params)
      = some ((emitLoop srv (slot.countGroup ids) ids).1.emission.view slot.params) ↔
      LosesNothing srv slot ids := by
  have hmono := limited_mono srv slot
  have hgroup := fun rest =>
    (emitLoop_eq_emit (countGroup_live h ids) (countGroup_pos hn hids) ids rest).2.2
  simp only [hstop, Bool.false_eq_true, if_false] at hgroup
  change ∀ rest, (emit slot.params srv.isEog slot.textState
      (ids.map (fun t => (t, slot.limited srv (slot.nDecoded + ids.length))) ++ rest)).map
        Prod.snd
    = some (emitLoop srv (slot.countGroup ids) ids).1.emission at hgroup
  generalize (emitLoop srv (slot.countGroup ids) ids).1.emission = e at hgroup ⊢
  cases hlim : slot.limited srv (slot.nDecoded + ids.length) with
  | false =>
    -- no token of the group is at the limit, so the two paths say the same of all of them
    refine ⟨fun _ => losesNothing_of_not_limited hlim, fun _ => ?_⟩
    have hsame := hgroup (plainLimits (slot.limited srv) (slot.nDecoded + ids.length) ts)
    rw [plainLimits_append, plainLimits_of_not hmono hlim, ← hlim]
    obtain ⟨r, hr, hre⟩ := Option.map_eq_some_iff.mp hsame
    rw [hr, Option.map_some, hre]
  | true =>
    obtain ⟨t, rest, rfl⟩ := List.exists_cons_of_ne_nil hids
    have hfirst := hgroup []
    rw [hlim, List.map_cons, List.cons_append, emit_cons_ends (by simp), Option.map_some,
      Option.some_inj] at hfirst
    rw [List.cons_append, plainLimits]
    cases hends : ((slot.textState.step slot.params (srv.isEog t.tok) t.textToSend).hit ||
        slot.limited srv (slot.nDecoded + 1) || srv.isEog t.tok) with
    | true =>
      -- the first token ends the generation on the plain path too
      rw [emit_cons_ends hends, Option.map_some, hfirst]
      refine ⟨fun _ => ?_, fun _ => rfl⟩
      intro t' us u vs heq hbefore hat hfree
      obtain ⟨rfl, rfl⟩ := List.cons.inj heq
      rw [endsText_eq h.word] at hfree
      rw [Bool.or_eq_false_iff] at hfree
      rw [hfree.1, hfree.2, Bool.false_or, Bool.or_false] at hends
      rw [hmono _ _ (by omega) hends] at hbefore
      exact absurd hbefore (by decide)
    | false =>
      rw [emit_cons_next hends]
      simp only [Bool.or_eq_false_iff] at hends
      obtain ⟨⟨hhit, hone⟩, heog⟩ := hends
      have hrest : slot.limited srv (slot.nDecoded + 1 + rest.length) = true := by
        rw [← hlim, List.length_cons]
        congr 1
        push_cast
        omega
      obtain ⟨us, u, vs, rfl, hbefore, hat⟩ := exists_limit hone hrest
      rw [heog] at hhit hfirst ⊢
      rw [hhit] at hfirst
      have hfree : slot.endsText srv t = false := by
        rw [endsText_eq h.word, heog, hhit]
        rfl
      have htext : (slot.textState.step slot.params false t.textToSend).text
          = slot.generatedText ++ t.textToSend := step_text hhit
      have hview := @emit_view_iff _ _ hhit (step_settled hhit) srv.isEog us u
        (plainLimits (slot.limited srv) (slot.nDecoded + 1 + us.length + 1) (vs ++ ts))
      rw [htext] at hview
      rw [List.append_assoc, List.cons_append, plainLimits_append, plainLimits_of_not hmono hbefore,
        plainLimits, hat, Option.map_map, ← hfirst, htext]
      refine hview.trans ⟨?_, fun hkeeps => hkeeps t us u vs rfl hbefore hat hfree⟩
      -- only `u` is the first at the limit
      intro hcond t' us' u' vs' heq hbefore' hat' _
      obtain ⟨rfl, htail⟩ := List.cons.inj heq
      have hlength := limit_unique hmono hbefore hat hbefore' hat'
      obtain ⟨rfl, hu⟩ := List.append_inj htail hlength
      obtain ⟨rfl, -⟩ := List.cons.inj hu
      exact hcond

end

/-! ### The parameters of a run -/

section
variable (srv : ServerCtx)

theorem checkLimits_params (slot : EmitSlot) (tok : Int) :
    (checkLimits srv slot tok).params = slot.params := by
  have hbudget : (checkBudget srv slot).params = slot.params := by
    obtain ⟨-, r, hr⟩ := hasBudget_spec srv slot
    rw [checkBudget]
    split
    · simp only [hr]
      split <;> rfl
    · rfl
  have hsoft : ∀ s, (checkSoftfail srv s).params = s.params := fun s => by
    rw [checkSoftfail]
    split <;> rfl
  have heog : ∀ s, (checkEog srv tok s).params = s.params := fun s => by
    rw [checkEog]
    split <;> rfl
  have htrain : ∀ s, (checkCtxTrain srv s).params = s.params := fun s => by
    rw [checkCtxTrain]
    split <;> rfl
  rw [checkLimits, htrain, heog, hsoft, hbudget]

theorem processToken_params (slot : EmitSlot) (t : TokenOutput) :
    (processToken srv slot t).1.params = slot.params := by
  rw [processToken, checkLimits_params]
  exact (processText_sameParams srv slot t).params

theorem plainRun_params (slot : EmitSlot) (ts : List TokenOutput) :
    (plainRun srv slot ts).1.params = slot.params := by
  induction ts generalizing slot with
  | nil => rfl
  | cons t ts ih =>
    have hstep := processToken_params srv
      { slot with nDecoded := slot.nDecoded + 1, nPast := slot.nPast + 1 } t
    rw [plainRun]
    generalize processToken srv
      { slot with nDecoded := slot.nDecoded + 1, nPast := slot.nPast + 1 } t = r at hstep ⊢
    obtain ⟨slot', next⟩ := r
    cases next with
    | false => exact hstep
    | true => exact (ih slot').trans hstep

theorem emitLoop_params (slot : EmitSlot) (ids : List TokenOutput) :
    (emitLoop srv slot ids).1.params = slot.params := by
  induction ids generalizing slot with
  | nil => rfl
  | cons t ids ih =>
    have hstep := processToken_params srv slot t
    rw [emitLoop]
    generalize processToken srv slot t = r at hstep ⊢
    obtain ⟨slot', next⟩ := r
    cases next with
    | false => exact hstep
    | true => exact (ih slot').trans hstep

end

/-! ### The two paths -/

section
variable {srv : ServerCtx} {slot : EmitSlot}

/-- The plain path from a slot, as a run of the text. -/
theorem outcome_plainRun (h : slot.Live srv) (hn : 0 ≤ slot.nDecoded) (ts : List TokenOutput) :
    outcome (plainRun srv slot ts).1 (plainRun srv slot ts).2.2
      = (emit slot.params srv.isEog slot.textState
          (plainLimits (slot.limited srv) slot.nDecoded ts)).map
            (fun r => r.2.view slot.params) := by
  rw [outcome_eq, plainRun_params, ← plainRun_eq_emit h hn]
  cases (plainRun srv slot ts).2.2 <;> rfl

/-- A step of the speculative path. -/
theorem specRun_cons (ids : List TokenOutput) (groups : List (List TokenOutput)) :
    specRun srv slot (ids :: groups)
      = if (emitLoop srv (slot.countGroup ids) ids).2 then
          specRun srv (emitLoop srv (slot.countGroup ids) ids).1 groups
        else ((emitLoop srv (slot.countGroup ids) ids).1, false) := rfl

/-- The state before each group meets the condition, read along the groups. -/
theorem forall_groups_cons {P : EmitSlot → List TokenOutput → Prop} (ids : List TokenOutput)
    (groups : List (List TokenOutput)) :
    (∀ pre g post, ids :: groups = pre ++ g :: post → (specRun srv slot pre).2 = true →
        P (specRun srv slot pre).1 g) ↔
      P slot ids ∧ ((emitLoop srv (slot.countGroup ids) ids).2 = true →
        ∀ pre g post, groups = pre ++ g :: post →
          (specRun srv (emitLoop srv (slot.countGroup ids) ids).1 pre).2 = true →
          P (specRun srv (emitLoop srv (slot.countGroup ids) ids).1 pre).1 g) := by
  constructor
  · intro h
    refine ⟨h [] ids groups rfl rfl, fun hnext pre g post heq hpre => ?_⟩
    have hrun : specRun srv slot (ids :: pre)
        = specRun srv (emitLoop srv (slot.countGroup ids) ids).1 pre := by
      rw [specRun_cons, if_pos hnext]
    have hg := h (ids :: pre) g post (by rw [heq]; rfl) (by rwa [hrun])
    rwa [hrun] at hg
  · rintro ⟨hfirst, hrest⟩ pre g post heq hpre
    cases pre with
    | nil =>
      obtain ⟨rfl, -⟩ := List.cons.inj heq
      exact hfirst
    | cons ids' pre =>
      obtain ⟨rfl, htail⟩ := List.cons.inj heq
      rw [specRun_cons] at hpre ⊢
      by_cases hnext : (emitLoop srv (slot.countGroup ids) ids).2 = true
      · rw [if_pos hnext] at hpre ⊢
        exact hrest hnext pre g post htail hpre
      · rw [if_neg hnext] at hpre
        exact absurd hpre Bool.false_ne_true

/-- For every generation and every grouping of its tokens: the two paths have the same final
response and stream the same text if and only if no group, in the state before it, loses anything
at the limit. -/
theorem specAgrees_iff (h : slot.Live srv) (hn : 0 ≤ slot.nDecoded)
    (groups : List (List TokenOutput)) (hgroups : ∀ ids ∈ groups, ids ≠ []) :
    SpecAgrees srv slot groups ↔
      ∀ pre ids post, groups = pre ++ ids :: post → (specRun srv slot pre).2 = true →
        LosesNothing srv (specRun srv slot pre).1 ids := by
  induction groups generalizing slot with
  | nil =>
    refine ⟨fun _ pre ids post heq => ?_, fun _ => rfl⟩
    simp at heq
  | cons ids groups ih =>
    rw [List.forall_mem_cons] at hgroups
    rw [forall_groups_cons, SpecAgrees, outcome_plainRun h hn, List.flatten_cons, specRun_cons]
    cases hnext : (emitLoop srv (slot.countGroup ids) ids).2 with
    | true =>
      -- the generation goes on: both paths are at the same slot, as far as the rest depends on it
      obtain ⟨hsame, hlive, -⟩ :=
        emitLoop_eq_emit (countGroup_live h ids) (countGroup_pos hn hgroups.1) ids []
      have hfree := not_limited_of_next h hn hgroups.1 hnext
      have hgroup := emit_group_next h hn hgroups.1 hnext groups.flatten
      generalize (emitLoop srv (slot.countGroup ids) ids).1 = slot' at hsame hlive hgroup ⊢
      have hcount : slot'.nDecoded = slot.nDecoded + ids.length := hsame.nDecoded
      have hlim : slot'.limited srv = slot.limited srv := funext hsame.limited
      have hparams : slot'.params = slot.params := hsame.params
      have hlive' : slot'.Live srv := hlive hnext
      have hrest := ih hlive' (by omega) hgroups.2
      rw [SpecAgrees, outcome_plainRun hlive' (by omega), hcount, hlim, hparams] at hrest
      have hplain := congrArg (Option.map (Emission.view slot.params)) hgroup
      rw [Option.map_map, Option.map_map] at hplain
      rw [if_pos rfl]
      refine (iff_of_eq (congrArg (· = _) hplain)).trans (hrest.trans ?_)
      exact ⟨fun hall => ⟨losesNothing_of_not_limited hfree, fun _ => hall⟩,
        fun hall => hall.2 rfl⟩
    | false =>
      have hparams := emitLoop_params srv (slot.countGroup ids) ids
      rw [if_neg Bool.false_ne_true, outcome_eq, hparams, if_neg Bool.false_ne_true]
      refine (emit_group_stop h hn hgroups.1 hnext groups.flatten).trans ?_
      exact ⟨fun hkeeps => ⟨hkeeps, fun hgo => absurd hgo Bool.false_ne_true⟩, fun hall => hall.1⟩

end

/-! ### A budget that ends in a group -/

/-- A server without a budget of its own, for a model without an end-of-generation token. -/
def plainServer : ServerCtx := ⟨-1, 4096, 16, fun _ => false⟩

/-- A fresh slot that drafts up to four tokens, for a request of `n` tokens. -/
def draftSlot (n : Int) : EmitSlot :=
  { params := { antiprompt := [], nPredict := n, stream := true, maxStageNMax := 4 }
    nCtx := 64, canSpeculate := true }

/-- The tokens `a`, `b` and `c`: the first is sampled, the other two are accepted at once. -/
def draftGroups : List (List TokenOutput) := [[⟨1, [0x61]⟩], [⟨2, [0x62]⟩, ⟨3, [0x63]⟩]]

theorem specAgrees_draftGroups :
    SpecAgrees plainServer (draftSlot 4) draftGroups ↔
      ∀ pre ids post, draftGroups = pre ++ ids :: post →
        (specRun plainServer (draftSlot 4) pre).2 = true →
        LosesNothing plainServer (specRun plainServer (draftSlot 4) pre).1 ids :=
  specAgrees_iff ⟨rfl, rfl, rfl, by decide⟩ (by decide) draftGroups (by simp [draftGroups])

/-- A request of three tokens: the drafts are within their limit, and the third token is lost. -/
theorem draft_loses_last_token :
    respectsDraftMax plainServer (draftSlot 3) draftGroups = true ∧
      ¬ SpecAgrees plainServer (draftSlot 3) draftGroups := by
  decide +kernel

end PxqLlama.Server
