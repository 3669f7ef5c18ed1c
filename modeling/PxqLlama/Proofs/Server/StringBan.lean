import PxqLlama.Lib.Runs
import PxqLlama.Server.StringBan

/-!
# `Proofs.Server.StringBan`: text, tokens and cache in step

`Inv` says where all tokens are: the token list and the next token to decode are the prompt, what
was sent, what the buffer holds, and what is left of the group. The emission of the last token of a
group keeps it (`inv_emit_last`), with a rewind or without. For an earlier token of a group `n_past`
counts tokens that the buffer does not have yet, so a rewind there goes wrong
(`group_rewind_wrong`); where none happens and the generation does not end there, the emission keeps
it too (`inv_emit_calm`). `inStep_of_runs` is the result for runs.
-/

namespace PxqLlama.Server

namespace BanSlot

/-! ### Properties -/

/-- A rewind keeps the tokens before the one that holds the first byte of the match, and bans at
that token's position. -/
def RewindRecord.Right (r : RewindRecord) : Prop :=
  ∃ k, ((r.buffer.take k).flatMap TokenOutput.textToSend).length ≤ r.offset ∧
    r.offset < ((r.buffer.take (k + 1)).flatMap TokenOutput.textToSend).length ∧
    r.kept = r.before ++ toks (r.buffer.take k) ∧
    ∀ b ∈ r.bans, b.1 = ((r.before.length + k : Nat) : Int)

/-- At the end of a tick what was sent and what is held back are the tokens after the prompt. -/
structure InStep (slot : BanSlot) : Prop where
  tokens : slot.pending = [] →
    slot.cacheTokens ++ [slot.sampled] = slot.prompt ++ slot.sent ++ toks slot.tokenBuffer
  rewinds : ∀ r ∈ slot.rewinds, RewindRecord.Right r

/-! ### Steps that keep in step -/

/-- The slot when a token has come into the buffer. -/
def withToken (slot : BanSlot) (result : TokenOutput) : BanSlot :=
  { slot with tokenBuffer := slot.tokenBuffer ++ [result] }

/-- A banned string is found, and a rewind is allowed. -/
def Rewinds (slot : BanSlot) (result : TokenOutput) : Prop :=
  0 ≤ (slot.withToken result).checkBanPhrase ∧ slot.allowRewind = true

/-- The generation ends with this token, or with the token that it pushes out of the buffer. -/
def EndsHere (srv : ServerCtx) (slot : BanSlot) (result : TokenOutput) : Prop :=
  (hasNextToken srv slot.toEmitSlot result).1 = false ∨
    slot.nBuffer ≤ slot.tokenBuffer.length + 1 ∧
      ∃ first ∈ (slot.tokenBuffer ++ [result]).head?,
        (processToken srv (hasNextToken srv slot.toEmitSlot result).2 first).2 = false ∨
          stoppedByLimit (processToken srv (hasNextToken srv slot.toEmitSlot result).2 first).1 = true

/-- A token that is not the last of its group neither rewinds the slot nor ends the generation. -/
def Calm (srv : ServerCtx) (slot : BanSlot) : BanAction → Prop
  | .emit => ∀ result rest, slot.pending = result :: rest → rest ≠ [] →
      ¬ slot.Rewinds result ∧ ¬ slot.EndsHere srv result
  | _ => True

instance (srv : ServerCtx) (slot : BanSlot) (a : BanAction) : Decidable (slot.Calm srv a) :=
  match a with
  | .plain _ => isTrue trivial
  | .accept _ _ => isTrue trivial
  | .emit =>
    match hpending : slot.pending with
    | [] => isTrue fun result rest hcons => by rw [hpending] at hcons; cases hcons
    | result :: rest =>
      have : Decidable (slot.Rewinds result) := inferInstanceAs (Decidable (_ ∧ _))
      have : Decidable (slot.EndsHere srv result) := inferInstanceAs (Decidable (_ ∨ _))
      decidable_of_iff (rest ≠ [] → ¬ slot.Rewinds result ∧ ¬ slot.EndsHere srv result) <| by
        constructor
        · intro h result' rest' hcons
          rw [hpending] at hcons
          cases hcons
          exact h
        · intro h
          exact h result rest hpending

/-! ### The parts that the emission leaves alone -/

variable {srv : ServerCtx}

theorem hasBudget_nPast (slot : EmitSlot) : (hasBudget srv slot).2.nPast = slot.nPast := by
  unfold hasBudget
  split <;> rfl

theorem hasNextToken_nPast (slot : EmitSlot) (result : TokenOutput) :
    (hasNextToken srv slot result).2.nPast = slot.nPast := by
  show (if 0 < slot.nDecoded then hasBudget srv slot else (true, slot)).2.nPast = _
  split
  · exact hasBudget_nPast slot
  · rfl

/-- Handling a token does not move `n_past`. -/
theorem processToken_nPast (slot : EmitSlot) (result : TokenOutput) :
    (processToken srv slot result).1.nPast = slot.nPast := by
  have hctx : ∀ s, (checkCtxTrain srv s).nPast = s.nPast := by
    intro s
    unfold checkCtxTrain
    split <;> rfl
  have heog : ∀ s, (checkEog srv result.tok s).nPast = s.nPast := by
    intro s
    unfold checkEog
    split <;> rfl
  have hsoft : ∀ s, (checkSoftfail srv s).nPast = s.nPast := by
    intro s
    unfold checkSoftfail
    split <;> rfl
  have hbudget : ∀ s, (checkBudget srv s).nPast = s.nPast := by
    intro s
    unfold checkBudget
    split
    · have hpast := @hasBudget_nPast srv s
      revert hpast
      cases hasBudget srv s with
      | mk budget s' => cases budget <;> exact id
    · rfl
  have htext : (processText srv slot result).nPast = slot.nPast := by
    unfold processText
    dsimp only
    split
    · rfl
    · split <;> rfl
  show (checkLimits srv _ _).nPast = _
  rw [checkLimits, hctx, heog, hsoft, hbudget, htext]

/-- Two slots agree on the tokens. -/
structure SameTokens (a b : BanSlot) : Prop where
  cacheTokens : b.cacheTokens = a.cacheTokens
  nPast : b.nPast = a.nPast
  prompt : b.prompt = a.prompt
  pending : b.pending = a.pending
  rewinds : b.rewinds = a.rewinds

theorem SameTokens.trans {a b c : BanSlot} (hab : SameTokens a b) (hbc : SameTokens b c) :
    SameTokens a c :=
  ⟨hbc.1.trans hab.1, hbc.2.trans hab.2, hbc.3.trans hab.3, hbc.4.trans hab.4, hbc.5.trans hab.5⟩

theorem sameTokens_release (slot : BanSlot) : SameTokens slot slot.release :=
  ⟨rfl, rfl, rfl, rfl, rfl⟩

theorem sameTokens_sendOne (pos : Int) (slot : BanSlot) (it : TokenOutput) :
    SameTokens slot (sendOne srv pos slot it).1 :=
  ⟨rfl, processToken_nPast _ _, rfl, rfl, rfl⟩

/-! ### Sending -/

/-- Some of the first tokens were sent, one at least, and nothing else changed. -/
structure Sent (slot : BanSlot) (results : List TokenOutput) (m : Nat) (slot' : BanSlot) : Prop where
  le : m ≤ results.length
  pos : results ≠ [] → 0 < m
  sent : slot'.sent = slot.sent ++ toks (results.take m)
  buffer : slot'.tokenBuffer = slot.tokenBuffer
  same : SameTokens slot slot'

theorem Sent.one (pos : Int) (slot : BanSlot) (it : TokenOutput) (results : List TokenOutput) :
    Sent slot (it :: results) 1 (sendOne srv pos slot it).1 :=
  ⟨by simp, fun _ => Nat.one_pos, rfl, rfl, sameTokens_sendOne pos slot it⟩

theorem Sent.cons {pos : Int} {slot slot' : BanSlot} {it : TokenOutput}
    {results : List TokenOutput} {m : Nat}
    (h : Sent (sendOne srv pos slot it).1 results m slot') :
    Sent slot (it :: results) (m + 1) slot' := by
  refine ⟨Nat.succ_le_succ h.le, fun _ => Nat.succ_pos m, ?_, h.buffer,
    (sameTokens_sendOne pos slot it).trans h.same⟩
  rw [h.sent, List.take_succ_cons]
  show (slot.sent ++ [it.tok]) ++ _ = _
  rw [List.append_assoc]
  rfl

variable {slot : BanSlot}

theorem Sent.release {slot' : BanSlot} {results : List TokenOutput} {m : Nat}
    (h : Sent slot results m slot') : Sent slot results m slot'.release :=
  ⟨h.le, h.pos, h.sent, h.buffer, h.same.trans (sameTokens_release slot')⟩

/-- What the loop of `send_token_results` does. -/
theorem sendLoop_sent (n : Nat) (startPos : Int) (results : List TokenOutput) (count : Nat)
    (slot : BanSlot) :
    ∃ m, (sendLoop srv n startPos results count slot).2 = count + m ∧
      Sent slot results m (sendLoop srv n startPos results count slot).1 := by
  induction results generalizing count slot with
  | nil =>
    exact ⟨0, rfl, Nat.le_refl 0, absurd rfl, by simp [sendLoop], rfl, ⟨rfl, rfl, rfl, rfl, rfl⟩⟩
  | cons it results ih =>
    -- the loop goes on with the rest
    have hmore := ih (count + 1) (sendOne srv (startPos + count) slot it).1
    obtain ⟨m, hcount, hsent⟩ := hmore
    have hone := @Sent.one srv (startPos + count) slot it results
    simp only [sendLoop]
    split
    · split
      · exact ⟨m + 1, by omega, hsent.cons⟩
      · exact ⟨1, rfl, hone.release⟩
    · split
      · exact ⟨1, rfl, hone⟩
      · exact ⟨m + 1, by omega, hsent.cons⟩

/-- Sending moves tokens from the front of the buffer, and the next token to decode is the last one
that was in it. -/
theorem sendTokenResults_spec (slot : BanSlot) (n : Nat) (hne : slot.tokenBuffer ≠ []) :
    (slot.sendTokenResults srv n).sent ++ toks (slot.sendTokenResults srv n).tokenBuffer
        = slot.sent ++ toks slot.tokenBuffer ∧
      (slot.sendTokenResults srv n).sampled = (toks slot.tokenBuffer).getLastD 0 ∧
      SameTokens slot (slot.sendTokenResults srv n) := by
  obtain ⟨m, hcount, hloop⟩ := @sendLoop_sent srv n
    (slot.nPast - slot.tokenBuffer.length + 1) slot.tokenBuffer 0 slot
  have hm := hloop.pos hne
  simp only [sendTokenResults]
  generalize sendLoop srv n _ slot.tokenBuffer 0 slot = looped at hcount hloop ⊢
  rw [hcount, if_pos (by omega), Nat.zero_add]
  have hjoin : looped.1.sent ++ toks (looped.1.tokenBuffer.drop m)
      = slot.sent ++ toks slot.tokenBuffer := by
    rw [hloop.sent, hloop.buffer, List.append_assoc, ← List.map_append, List.take_append_drop]
  split
  · exact ⟨hjoin, rfl, ⟨hloop.same.1, hloop.same.2, hloop.same.3, hloop.same.4, hloop.same.5⟩⟩
  · exact ⟨hjoin, rfl, ⟨hloop.same.1, hloop.same.2, hloop.same.3, hloop.same.4, hloop.same.5⟩⟩

/-! ### One new token -/

/-- The slot with the new token in its buffer, and with `n_remaining`. -/
def held (srv : ServerCtx) (slot : BanSlot) (result : TokenOutput) : BanSlot :=
  { slot.withToken result with toEmitSlot := (hasNextToken srv slot.toEmitSlot result).2 }

theorem held_checkBanPhrase (slot : BanSlot) (result : TokenOutput) :
    (held srv slot result).checkBanPhrase = (slot.withToken result).checkBanPhrase := by
  have hpast : (held srv slot result).nPast = (slot.withToken result).nPast :=
    hasNextToken_nPast slot.toEmitSlot result
  have hat : (held srv slot result).banOffset.bind (tokenAt (held srv slot result).tokenBuffer)
      = (slot.withToken result).banOffset.bind (tokenAt (slot.withToken result).tokenBuffer) := rfl
  unfold checkBanPhrase
  rw [hat, hpast]
  rfl

/-- The record of a rewind. -/
def recordOf (slot : BanSlot) : RewindRecord where
  before := slot.prompt ++ slot.sent
  buffer := slot.tokenBuffer
  offset := slot.banOffset.getD 0
  kept := (slot.rewindContext slot.checkBanPhrase).cacheTokens ++
    [(slot.rewindContext slot.checkBanPhrase).sampled]
  bans := (slot.rewindContext slot.checkBanPhrase).positionalBans.drop slot.positionalBans.length

/-- A new token rewinds the slot, or some of the buffer is sent, or the token is only held back. -/
theorem bufferAndCheck_cases (slot : BanSlot) (result : TokenOutput) :
    (slot.Rewinds result ∧ bufferAndCheckStringBan srv slot result
        = { (held srv slot result).rewindContext (held srv slot result).checkBanPhrase with
            rewindStatus := true
            rewinds := slot.rewinds ++ [recordOf (held srv slot result)] }) ∨
    (∃ n, bufferAndCheckStringBan srv slot result
        = sendTokenResults srv
            { held srv slot result with rewindStatus := false, rewindCount := 0 } n ∧
      (n = 1 ∧ slot.nBuffer ≤ slot.tokenBuffer.length + 1 ∨
        (hasNextToken srv slot.toEmitSlot result).1 = false)) ∨
    bufferAndCheckStringBan srv slot result
      = { held srv slot result with sampled := result.tok } := by
  simp only [bufferAndCheckStringBan]
  split
  · rename_i hban
    refine .inl ⟨?_, rfl⟩
    have hpos : 0 ≤ (held srv slot result).checkBanPhrase := hban.1
    rw [held_checkBanPhrase] at hpos
    exact ⟨hpos, hban.2⟩
  · split
    · rename_i hsend
      refine .inr (.inl ?_)
      cases hnext : (hasNextToken srv slot.toEmitSlot result).1 with
      | false => exact ⟨0, rfl, .inr rfl⟩
      | true =>
        refine ⟨1, rfl, .inl ⟨rfl, ?_⟩⟩
        rcases hsend with hfull | hend
        · simpa using hfull
        · exact absurd hnext hend
    · exact .inr (.inr rfl)

theorem bufferAndCheck_pending (srv : ServerCtx) (slot : BanSlot) (result : TokenOutput) :
    (bufferAndCheckStringBan srv slot result).pending = slot.pending := by
  rcases @bufferAndCheck_cases srv slot result with ⟨-, heq⟩ | ⟨n, heq, -⟩ | heq
  · rw [heq]
    rfl
  · have hne : slot.tokenBuffer ++ [result] ≠ [] := List.append_ne_nil_of_right_ne_nil _ (by simp)
    rw [heq]
    exact (@sendTokenResults_spec srv
      { held srv slot result with rewindStatus := false, rewindCount := 0 } n hne).2.2.pending
  · rw [heq]
    rfl

/-! ### A rewind -/

/-- The token found holds the byte. -/
theorem tokenAt_spec {l : List TokenOutput} {start k : Nat} (h : tokenAt l start = some k) :
    k < l.length ∧ ((l.take k).flatMap TokenOutput.textToSend).length ≤ start ∧
      start < ((l.take (k + 1)).flatMap TokenOutput.textToSend).length := by
  induction l generalizing start k with
  | nil => cases h
  | cons t l ih =>
    unfold tokenAt at h
    split at h
    · cases h
      exact ⟨Nat.succ_pos _, Nat.zero_le _, by simpa using ‹start < _›⟩
    · obtain ⟨k', hk', rfl⟩ := Option.map_eq_some_iff.mp h
      obtain ⟨hlt, hle, hgt⟩ := ih hk'
      refine ⟨Nat.succ_lt_succ hlt, ?_, ?_⟩
      · rw [List.take_succ_cons, List.flatMap_cons, List.length_append]
        omega
      · rw [List.take_succ_cons, List.flatMap_cons, List.length_append]
        omega

theorem take_append_getD {α : Type} (l : List α) (d : α) {i : Nat} (h : i < l.length) :
    l.take i ++ [l.getD i d] = l.take (i + 1) := by
  rw [List.take_succ_eq_append_getElem h, List.getD_eq_getElem?_getD, List.getElem?_eq_getElem h]
  rfl

/-- A match gives the position of its token as the match's place behind the tokens that were
sent, as long as `n_past` counts one token less than there are. -/
theorem checkBanPhrase_eq {slot : BanSlot} (hpast : slot.nPast = slot.cacheTokens.length)
    (hcount : slot.cacheTokens.length + 1
      = slot.prompt.length + slot.sent.length + slot.tokenBuffer.length)
    (hban : 0 ≤ slot.checkBanPhrase) :
    ∃ k, tokenAt slot.tokenBuffer (slot.banOffset.getD 0) = some k ∧
      slot.checkBanPhrase = ((slot.prompt.length + slot.sent.length + k : Nat) : Int) := by
  unfold checkBanPhrase at hban ⊢
  split at hban
  · rename_i k hk
    obtain ⟨offset, hoffset, hat⟩ := Option.bind_eq_some_iff.mp hk
    rw [hoffset]
    refine ⟨k, hat, ?_⟩
    simp only [hpast]
    omega
  · omega

/-- What a rewind to the position of a buffered token leaves. -/
theorem rewindContext_spec {slot : BanSlot} {k : Nat} (hk : k < slot.tokenBuffer.length)
    (hprompt : slot.prompt ≠ []) (hpast : slot.nPast = slot.cacheTokens.length) {tok : Int}
    (htokens : slot.cacheTokens ++ [tok] = slot.prompt ++ slot.sent ++ toks slot.tokenBuffer) :
    let rewound :=
      slot.rewindContext ((slot.prompt.length + slot.sent.length + k : Nat) : Int)
    rewound.cacheTokens ++ [rewound.sampled]
        = slot.prompt ++ slot.sent ++ toks (slot.tokenBuffer.take k) ∧
      rewound.tokenBuffer = slot.tokenBuffer.take k ∧
      rewound.nPast = rewound.cacheTokens.length ∧
      ∀ b ∈ rewound.positionalBans.drop slot.positionalBans.length,
        b.1 = ((slot.prompt.length + slot.sent.length + k : Nat) : Int) := by
  have hlen := congrArg List.length htokens
  simp only [List.length_append, List.length_cons, List.length_nil, List.length_map] at hlen
  have hpos : 0 < slot.prompt.length := List.length_pos_iff.mpr hprompt
  -- how much of the buffer and of the token list is kept
  have hbuffer : (((slot.prompt.length + slot.sent.length + k : Nat) : Int) -
      (slot.nPast - slot.tokenBuffer.length + 1)).toNat = k := by
    rw [hpast]
    omega
  have hcache : min (((slot.prompt.length + slot.sent.length + k : Nat) : Int) - 1).toNat
      slot.cacheTokens.length = slot.prompt.length + slot.sent.length + k - 1 := by
    omega
  refine ⟨?_, ?_, rfl, ?_⟩
  · show slot.cacheTokens.take (min _ _) ++ [slot.cacheTokens.getD (min _ _) 0] = _
    rw [hcache, take_append_getD _ _ (by omega),
      Nat.sub_add_cancel (by omega)]
    have htake := congrArg (List.take (slot.prompt.length + slot.sent.length + k)) htokens
    rw [List.take_append_of_le_length (by omega)] at htake
    rw [htake, ← List.length_append, List.take_append, List.take_of_length_le (by omega),
      Nat.add_sub_cancel_left]
    exact congrArg _ List.map_take.symm
  · show slot.tokenBuffer.take _ = _
    rw [hbuffer]
  · intro b hb
    simp only [rewindContext, List.drop_left] at hb
    obtain ⟨tok, -, rfl⟩ := List.mem_map.mp hb
    rfl

/-! ### The invariant -/

/-- The token that is decoded next when the group is through. -/
def upcoming (slot : BanSlot) : Int := (toks slot.pending).getLastD slot.sampled

/-- Where the tokens are in the middle of a tick. -/
structure Inv (slot : BanSlot) : Prop where
  prompt : slot.prompt ≠ []
  nPast : slot.nPast = slot.cacheTokens.length
  tokens : slot.cacheTokens ++ [slot.upcoming]
    = slot.prompt ++ slot.sent ++ toks slot.tokenBuffer ++ toks slot.pending
  live : slot.pending ≠ [] → slot.released = false
  rewinds : ∀ r ∈ slot.rewinds, RewindRecord.Right r

theorem Inv.inStep (h : slot.Inv) : slot.InStep := by
  refine ⟨fun hnil => ?_, h.rewinds⟩
  have htokens := h.tokens
  rw [upcoming, hnil] at htokens
  simpa using htokens

theorem inv_of_starts (h : slot.Starts) : slot.Inv := by
  obtain ⟨result, hpending⟩ := h.first
  obtain ⟨hbuffer, hsent, hrewinds, hreleased⟩ := h.fresh
  refine ⟨h.prompt, h.nPast, ?_, fun _ => hreleased, ?_⟩
  · rw [upcoming, hpending, hbuffer, hsent, h.cache]
    simp
  · rw [hrewinds]
    intro r hr
    cases hr

/-- A plain tick and the start of a group keep the invariant. -/
theorem Inv.tick (h : slot.Inv) (hpending : slot.pending = []) (hlive : slot.released = false)
    (cache : List Int) (ids : List TokenOutput) (hids : ids ≠ []) (nDecoded sampled : Int)
    (hcache : cache = slot.cacheTokens ++ [slot.sampled] ++ (toks ids).dropLast) :
    Inv { slot with
      cacheTokens := cache, nPast := cache.length, nDecoded := nDecoded, sampled := sampled,
      pending := ids } := by
  have htokens := h.inStep.tokens hpending
  refine ⟨h.prompt, rfl, ?_, fun _ => hlive, h.rewinds⟩
  show cache ++ [(toks ids).getLastD sampled] = slot.prompt ++ slot.sent ++ _ ++ toks ids
  have hne : toks ids ≠ [] := fun hnil => hids (List.map_eq_nil_iff.mp hnil)
  rw [hcache, htokens, List.getLastD_eq_getLast?, List.getLast?_eq_some_getLast hne,
    List.append_assoc]
  show _ ++ ((toks ids).dropLast ++ [(toks ids).getLast hne]) = _
  rw [List.dropLast_append_getLast]

/-! ### A token of the group -/

section

variable {slot : BanSlot} {result : TokenOutput} {rest : List TokenOutput}

/-- The slot when the next token of the group has come into the buffer. -/
def taken (srv : ServerCtx) (slot : BanSlot) (result : TokenOutput) (rest : List TokenOutput) :
    BanSlot :=
  held srv { slot with pending := rest } result

theorem taken_nPast (h : slot.Inv) :
    (taken srv slot result rest).nPast = (taken srv slot result rest).cacheTokens.length :=
  (hasNextToken_nPast slot.toEmitSlot result).trans h.nPast

/-- The token moves from the group to the buffer. -/
theorem taken_tokens (h : slot.Inv) (hpending : slot.pending = result :: rest) :
    slot.cacheTokens ++ [(toks rest).getLastD result.tok]
      = slot.prompt ++ slot.sent ++ toks (slot.tokenBuffer ++ [result]) ++ toks rest := by
  have htokens := h.tokens
  rw [upcoming, hpending] at htokens
  simp only [List.map_cons, List.getLastD_cons] at htokens
  rw [htokens]
  simp

/-- A token that is held back. -/
theorem inv_hold (h : slot.Inv) (hpending : slot.pending = result :: rest) :
    Inv { taken srv slot result rest with sampled := result.tok } := by
  have hlive : slot.released = false := h.live (by rw [hpending]; exact List.cons_ne_nil _ _)
  exact ⟨h.prompt, taken_nPast h, taken_tokens h hpending, fun _ => hlive, h.rewinds⟩

/-- A token that pushes others out of the buffer. -/
theorem inv_send {rewindStatus : Bool} {rewindCount n : Nat} {after : BanSlot} (h : slot.Inv)
    (hpending : slot.pending = result :: rest)
    (heq : after = sendTokenResults srv { taken srv slot result rest with
      rewindStatus := rewindStatus, rewindCount := rewindCount } n)
    (hlive : rest ≠ [] → after.released = false) : after.Inv := by
  have hne : slot.tokenBuffer ++ [result] ≠ [] := List.append_ne_nil_of_right_ne_nil _ (by simp)
  obtain ⟨hsent, hsampled, hsame⟩ := @sendTokenResults_spec srv
    { taken srv slot result rest with
      rewindStatus := rewindStatus, rewindCount := rewindCount } n hne
  rw [← heq] at hsent hsampled hsame
  have hrest : after.pending = rest := hsame.pending
  have hlast : after.sampled = result.tok := by
    rw [hsampled]
    show (toks (slot.tokenBuffer ++ [result])).getLastD 0 = _
    simp
  refine ⟨hsame.prompt.symm ▸ h.prompt, ?_, ?_, fun hnil => hlive (hrest ▸ hnil), ?_⟩
  · rw [hsame.nPast, hsame.cacheTokens]
    exact @taken_nPast srv slot result rest h
  · rw [upcoming, hrest, hsame.cacheTokens, hsame.prompt, hlast]
    show slot.cacheTokens ++ _ = slot.prompt ++ after.sent ++ toks after.tokenBuffer ++ _
    rw [taken_tokens h hpending, List.append_assoc slot.prompt after.sent, hsent,
      ← List.append_assoc slot.prompt]
    rfl
  · rw [hsame.rewinds]
    exact h.rewinds

/-- The last token of its group may rewind the slot. -/
theorem inv_rewind (h : slot.Inv) (hpending : slot.pending = [result])
    (hban : 0 ≤ (taken srv slot result []).checkBanPhrase) :
    Inv { (taken srv slot result []).rewindContext (taken srv slot result []).checkBanPhrase with
      rewindStatus := true
      rewinds := slot.rewinds ++ [recordOf (taken srv slot result [])] } := by
  have htokens : slot.cacheTokens ++ [result.tok]
      = slot.prompt ++ slot.sent ++ toks (slot.tokenBuffer ++ [result]) := by
    have htaken := taken_tokens h hpending
    simpa using htaken
  have hcount : slot.cacheTokens.length + 1
      = slot.prompt.length + slot.sent.length + (slot.tokenBuffer ++ [result]).length := by
    simpa [Nat.add_assoc] using congrArg List.length htokens
  obtain ⟨k, hat, hbanPos⟩ :=
    @checkBanPhrase_eq (taken srv slot result []) (taken_nPast h) hcount hban
  obtain ⟨hk, hle, hgt⟩ := tokenAt_spec hat
  obtain ⟨hkept, hbuffer, -, hbans⟩ :=
    @rewindContext_spec (taken srv slot result []) k hk h.prompt (taken_nPast h) result.tok htokens
  rw [← hbanPos] at hkept hbuffer hbans
  refine ⟨h.prompt, rfl, ?_, fun hnil => absurd rfl hnil, ?_⟩
  · show _ ++ [_] = slot.prompt ++ slot.sent ++ toks _ ++ []
    rw [List.append_nil]
    show _ = slot.prompt ++ slot.sent ++
      toks ((taken srv slot result []).rewindContext _).tokenBuffer
    rw [hbuffer]
    exact hkept
  · intro r hr
    rcases List.mem_append.mp hr with hold | hnew
    · exact h.rewinds r hold
    · rw [List.mem_singleton.mp hnew]
      refine ⟨k, hle, hgt, hkept, fun b hb => ?_⟩
      rw [hbans b hb, hbanPos]
      show _ = (((slot.prompt ++ slot.sent).length + k : Nat) : Int)
      rw [List.length_append]
      rfl

/-- Where the generation does not end with the token or with the one that it pushes out of the
buffer, the slot is not released. -/
theorem sendOne_live {rewindStatus : Bool} {rewindCount : Nat} (hlive : slot.released = false)
    (hfull : slot.nBuffer ≤ slot.tokenBuffer.length + 1) (hends : ¬ slot.EndsHere srv result) :
    (sendTokenResults srv { taken srv slot result rest with
      rewindStatus := rewindStatus, rewindCount := rewindCount } 1).released = false := by
  generalize hslot : ({ taken srv slot result rest with
    rewindStatus := rewindStatus, rewindCount := rewindCount } : BanSlot) = taken
  have hemit : taken.toEmitSlot = (hasNextToken srv slot.toEmitSlot result).2 := by
    rw [← hslot]
    rfl
  have hbuffer : taken.tokenBuffer = slot.tokenBuffer ++ [result] := by
    rw [← hslot]
    rfl
  have hreleased : taken.released = false := by
    rw [← hslot]
    exact hlive
  cases hhead : slot.tokenBuffer ++ [result] with
  | nil => exact absurd hhead (by simp)
  | cons first others =>
    -- the first token is processed, and it neither ends the generation nor is the limit reached
    have hfirst : (processToken srv taken.toEmitSlot first).2 = true := by
      rw [hemit]
      by_contra hnext
      exact hends (.inr ⟨hfull, first, by rw [hhead]; rfl, .inl (by simpa using hnext)⟩)
    have hlimit : stoppedByLimit (processToken srv taken.toEmitSlot first).1 = false := by
      rw [hemit]
      by_contra hstop
      exact hends (.inr ⟨hfull, first, by rw [hhead]; rfl, .inr (by simpa using hstop)⟩)
    have hloop : sendLoop srv 1 (taken.nPast - taken.tokenBuffer.length + 1) (first :: others) 0 taken
        = ((sendOne srv (taken.nPast - taken.tokenBuffer.length + 1) taken first).1, 1) := by
      simp only [sendLoop, sendOne, hfirst]
      simp
    rw [hhead] at hbuffer
    unfold sendTokenResults
    rw [hbuffer] at hloop ⊢
    simp only [hloop]
    have hstop : stoppedByLimit
        (sendOne srv (taken.nPast - ((first :: others).length : Nat) + 1) taken first).1.toEmitSlot
        = false := hlimit
    simp only [hstop, Bool.false_eq_true, and_false, if_false, Nat.zero_lt_one, if_true]
    exact hreleased

/-- A token of the group keeps everything in step: the last one whatever it does, and another where
it neither rewinds the slot nor ends the generation. -/
theorem inv_emit (h : slot.Inv) (hpending : slot.pending = result :: rest)
    (hcalm : rest ≠ [] → ¬ slot.Rewinds result ∧ ¬ slot.EndsHere srv result) :
    Inv (bufferAndCheckStringBan srv { slot with pending := rest } result) ∧
      (rest ≠ [] →
        (bufferAndCheckStringBan srv { slot with pending := rest } result).released = false) := by
  have hlive : slot.released = false := h.live (by rw [hpending]; exact List.cons_ne_nil _ _)
  rcases @bufferAndCheck_cases srv { slot with pending := rest } result with
    ⟨hban, heq⟩ | ⟨n, heq, hn⟩ | heq
  · have hnil : rest = [] := by
      by_contra hne
      exact (hcalm hne).1 hban
    subst hnil
    have hpos : 0 ≤ (taken srv slot result []).checkBanPhrase := by
      unfold taken
      rw [held_checkBanPhrase]
      exact hban.1
    rw [heq]
    exact ⟨inv_rewind h hpending hpos, fun hne => absurd rfl hne⟩
  · have hstays : rest ≠ [] →
        (bufferAndCheckStringBan srv { slot with pending := rest } result).released = false := by
      intro hne
      have hends := (hcalm hne).2
      rcases hn with ⟨rfl, hfull⟩ | hnext
      · rw [heq]
        exact sendOne_live hlive hfull hends
      · exact absurd (.inl hnext) hends
    exact ⟨inv_send h hpending heq hstays, hstays⟩
  · rw [heq]
    exact ⟨inv_hold h hpending, fun _ => hlive⟩

end

/-! ### Runs -/

/-- Every calm action keeps the invariant. -/
theorem inv_step {slot' : BanSlot} {a : BanAction} (h : slot.Inv) (hcalm : slot.Calm srv a)
    (hstep : slot.step srv a = some slot') : slot'.Inv := by
  cases a with
  | plain result =>
    simp only [step] at hstep
    split at hstep
    · cases hstep
    · rename_i hready
      obtain ⟨hlive, hpending⟩ := not_or.mp hready
      cases hstep
      exact h.tick (not_not.mp hpending) (by simpa using hlive) _ [result] (by simp) _ _ (by simp)
  | accept draft ids =>
    simp only [step] at hstep
    split at hstep
    · cases hstep
    · rename_i hready
      obtain ⟨hlive, hready⟩ := not_or.mp hready
      obtain ⟨hpending, hready⟩ := not_or.mp hready
      obtain ⟨hids, -⟩ := not_or.mp hready
      cases hstep
      refine h.tick (not_not.mp hpending) (by simpa using hlive) _ ids hids _ _ ?_
      -- the draft is cut off again
      congr 1
      rw [List.length_append, Nat.add_sub_cancel]
      exact List.take_left
  | emit =>
    simp only [step] at hstep
    cases hpending : slot.pending with
    | nil => rw [hpending] at hstep; cases hstep
    | cons result rest =>
      rw [hpending] at hstep
      obtain ⟨hinv, hlive⟩ := @inv_emit srv slot result rest h hpending (hcalm result rest hpending)
      have hrest := bufferAndCheck_pending srv { slot with pending := rest } result
      rw [← Option.some.inj hstep]
      show Inv (if (bufferAndCheckStringBan srv { slot with pending := rest } result).released
        then { bufferAndCheckStringBan srv { slot with pending := rest } result with pending := [] }
        else bufferAndCheckStringBan srv { slot with pending := rest } result)
      generalize bufferAndCheckStringBan srv { slot with pending := rest } result = after
        at hinv hlive hrest ⊢
      split
      · rename_i hreleased
        -- only the last token of the group releases the slot
        have hnil : rest = [] := by
          by_contra hne
          rw [hlive hne] at hreleased
          cases hreleased
        have hafter : after.pending = [] := hrest.trans hnil
        refine ⟨hinv.prompt, hinv.nPast, ?_, fun hne => absurd rfl hne, hinv.rewinds⟩
        have htokens := hinv.tokens
        rw [upcoming, hafter] at htokens
        exact htokens
      · exact hinv

/-- Where no token before the last of its group rewinds the slot or ends the generation, the tokens
sent and held back are the ones after the prompt, and every rewind is right. -/
theorem inStep_of_runs {start slot : BanSlot} (hstart : start.Starts)
    (hrun : Runs start (step srv) (Calm srv) slot) : slot.InStep :=
  (hrun.invariant (inv_of_starts hstart) fun _ _ _ hinv hcalm hstep => inv_step hinv hcalm hstep).inStep

/-! ### Two runs -/

/-- A server without limits. -/
def freeServer : ServerCtx where
  nPredict := -1
  nCtxTrain := 4096
  softfailMaxConsec := 8
  isEog := fun _ => false

/-- A slot that bans the string "bad", with a prompt of one token and the first token "a". -/
def banStart : BanSlot where
  params := { antiprompt := [], nPredict := -1, stream := true }
  nPast := 1
  nPromptTokens := 1
  cacheTokens := [1]
  nBuffer := 3
  banPhrases := [[98, 97, 100]]
  prompt := [1]
  pending := [⟨5, [97]⟩]

theorem banStart_starts : banStart.Starts :=
  ⟨by decide, rfl, rfl, ⟨_, rfl⟩, rfl, rfl, rfl, rfl⟩

/-- The group "b", "ad" ends with the banned string; after that "x" and "y" are sampled. -/
def bannedAtEnd : List BanAction :=
  [.emit, .accept [6] [⟨6, [98]⟩, ⟨7, [97, 100]⟩], .emit, .emit, .plain ⟨9, [120]⟩, .emit,
    .plain ⟨10, [121]⟩, .emit]

theorem bannedAtEnd_inStep :
    (Runs.last (step freeServer) banStart bannedAtEnd).rewinds.length = 1 ∧
      (Runs.last (step freeServer) banStart bannedAtEnd).InStep :=
  ⟨by decide +kernel,
    inStep_of_runs banStart_starts (Runs.of_allowed .init (by decide +kernel))⟩

/-- The first token of the group "bad", "x", "y" holds the banned string. -/
def bannedAtStart : List BanAction :=
  [.emit, .accept [6, 7] [⟨6, [98, 97, 100]⟩, ⟨7, [120]⟩, ⟨8, [121]⟩], .emit, .emit, .emit]

/-- The rewind counts the whole group: it keeps the banned token in the token list and loses the
token after it, while the buffer loses the one and keeps the other. -/
theorem group_rewind_wrong :
    ∃ slot, banStart.Starts ∧ Runs banStart (step freeServer) (fun _ _ => True) slot ∧
      ¬ slot.InStep := by
  refine ⟨Runs.last (step freeServer) banStart bannedAtStart, banStart_starts,
    Runs.of_allowed .init (by decide +kernel), fun h => ?_⟩
  have hpending : (Runs.last (step freeServer) banStart bannedAtStart).pending = [] := by
    decide +kernel
  have htokens := h.tokens hpending
  revert htokens
  decide +kernel

end BanSlot

end PxqLlama.Server
