import PxqLlama.Proofs.Server.Emit
import PxqLlama.Proofs.Server.StringBan

/-!
# `Proofs.Server.BanText`: the text that a slot with banned strings sends

The buffer of a slot holds one token less than the longest banned string has bytes, or more, and
every token has text. So when the buffer is full, a banned string that ends with the new token
begins in the buffer, and `check_ban_phrase` finds it (`banFree_extend`).

A rewind makes the buffer shorter, and it can leave fewer tokens than that behind text that is sent
already. Then a banned string can begin in the text that is sent (`Straddles`), and nothing finds
it. Where no new token completes such a string (`Guarded`), no banned string is ever sent
(`nothingBanned_of_runs`).
-/

namespace PxqLlama.Server

namespace BanSlot

/-! ### What is asked for -/

/-- No banned string is in the text, up to the case of letters. The strings are in lower case. -/
def BanFree (phrases : List Bytes) (text : Bytes) : Prop :=
  ∀ w ∈ phrases, ∀ p, ¬ OccursAt (stringLower text) w p

/-- The texts that the client gets: what was streamed, and the text of the final response. -/
def clientTexts (slot : BanSlot) : List Bytes :=
  [slot.partials.flatten, (sendFinalResponse slot.toEmitSlot).generatedText]

/-- The banned strings in lower case, without empty ones. -/
def lowered (banned : List Bytes) : List Bytes := (banned.filter (· ≠ [])).map stringLower

/-- Nothing that the client gets has a banned string in it. -/
def NothingBanned (banned : List Bytes) (slot : BanSlot) : Prop :=
  ∀ text ∈ slot.clientTexts, BanFree (lowered banned) text

/-- The length of the longest string. -/
def longest (phrases : List Bytes) : Nat := phrases.foldl (fun n phrase => max n phrase.length) 0

/-- A slot as a launch leaves it for the strings `banned`, and with the first token sampled. By
default the buffer is one longer than the longest string, and at the first launch that uses the
strings of the server as long as that. -/
structure Launched (banned : List Bytes) (slot : BanSlot) : Prop where
  starts : slot.Starts
  phrases : slot.banPhrases.Perm (lowered banned)
  buffer : slot.nBuffer = longest slot.banPhrases + 1 ∨ slot.nBuffer = longest slot.banPhrases
  noRegex : slot.banRegex = [] ∧ slot.banRegexCi = []
  unlimited : slot.rewindCountMax = 0
  noText : slot.generatedText = [] ∧ slot.nSentText = 0 ∧ slot.partials = []
  pieces : ∀ t ∈ slot.pending, t.textToSend ≠ []

/-- The text that is held back. -/
def bufferText (slot : BanSlot) : Bytes := slot.tokenBuffer.flatMap TokenOutput.textToSend

/-- A banned string begins in the text that was sent, and the new token completes it. -/
def Straddles (slot : BanSlot) (result : TokenOutput) : Prop :=
  ∃ w ∈ slot.banPhrases, ∃ p < slot.generatedText.length,
    OccursAt (stringLower (slot.generatedText ++ slot.bufferText ++ result.textToSend)) w p

/-- The steps without speculation, for tokens that have text. -/
def Plain : BanAction → Prop
  | .plain result => result.textToSend ≠ []
  | .accept _ _ => False
  | .emit => True

/-- The steps of a slot that meets no banned string across what is sent: where the buffer is not
full, the new token does not complete one that begins in the text that was sent. -/
def Guarded (slot : BanSlot) (a : BanAction) : Prop :=
  Plain a ∧ (a = .emit → ∀ result rest, slot.pending = result :: rest →
    slot.tokenBuffer.length + 1 < slot.nBuffer → ¬ slot.Rewinds result →
      ¬ slot.Straddles result)

instance (a : BanAction) : Decidable (Plain a) :=
  match a with
  | .plain result => inferInstanceAs (Decidable (result.textToSend ≠ []))
  | .accept _ _ => isFalse id
  | .emit => isTrue trivial

instance (text word : Bytes) (p : Nat) : Decidable (OccursAt text word p) :=
  inferInstanceAs (Decidable (word <+: text.drop p ∧ p ≤ text.length))

instance (slot : BanSlot) (result : TokenOutput) : Decidable (slot.Straddles result) :=
  inferInstanceAs (Decidable (∃ w ∈ slot.banPhrases, ∃ p < slot.generatedText.length, _))

instance (slot : BanSlot) (a : BanAction) : Decidable (slot.Guarded a) :=
  match a with
  | .plain result => decidable_of_iff (Plain (.plain result)) ⟨fun h => ⟨h, nofun⟩, And.left⟩
  | .accept draft ids =>
    decidable_of_iff (Plain (.accept draft ids)) ⟨fun h => ⟨h, nofun⟩, And.left⟩
  | .emit =>
    match hpending : slot.pending with
    | [] => isTrue ⟨trivial, fun _ result rest hcons => by rw [hpending] at hcons; cases hcons⟩
    | result :: rest =>
      have : Decidable (slot.Rewinds result) := inferInstanceAs (Decidable (_ ∧ _))
      decidable_of_iff (slot.tokenBuffer.length + 1 < slot.nBuffer → ¬ slot.Rewinds result →
          ¬ slot.Straddles result) <| by
        constructor
        · intro h
          refine ⟨trivial, fun _ result' rest' hcons => ?_⟩
          rw [hpending] at hcons
          cases hcons
          exact h
        · intro h
          exact h.2 rfl result rest hpending

/-! ### Banned strings in a text -/

theorem stringLower_append (x y : Bytes) :
    stringLower (x ++ y) = stringLower x ++ stringLower y := List.map_append

theorem stringLower_length (x : Bytes) : (stringLower x).length = x.length := List.length_map _

variable {phrases : List Bytes} {result : TokenOutput} {slot : BanSlot}

theorem BanFree.of_initial {x y : Bytes} (h : BanFree phrases y) (hpre : x <+: y) :
    BanFree phrases x := by
  obtain ⟨more, rfl⟩ := hpre
  intro w hw p hocc
  apply h w hw p
  rw [stringLower_append]
  exact hocc.append _

theorem BanFree.perm {phrases' : List Bytes} {x : Bytes} (h : BanFree phrases x)
    (hperm : phrases.Perm phrases') : BanFree phrases' x :=
  fun w hw => h w (hperm.mem_iff.mpr hw)

theorem length_le_flatMap {l : List TokenOutput} (h : ∀ t ∈ l, t.textToSend ≠ []) :
    l.length ≤ (l.flatMap TokenOutput.textToSend).length := by
  induction l with
  | nil => exact Nat.le_refl 0
  | cons t l ih =>
    have hfirst := List.length_pos_iff.mpr (h t List.mem_cons_self)
    have hrest := ih fun t' ht' => h t' (List.mem_cons_of_mem t ht')
    rw [List.flatMap_cons, List.length_append, List.length_cons]
    omega

/-- A text is free of banned strings when its last part is, and no banned string begins in front of
that part. -/
theorem banFree_append {x y : Bytes} (hy : BanFree phrases y)
    (hx : ∀ w ∈ phrases, ∀ p < x.length, ¬ OccursAt (stringLower (x ++ y)) w p) :
    BanFree phrases (x ++ y) := by
  intro w hw p hocc
  rcases Nat.lt_or_ge p x.length with hlt | hge
  · exact hx w hw p hlt hocc
  · apply hy w hw (p - x.length)
    have hdrop : stringLower y = (stringLower (x ++ y)).drop x.length := by
      rw [stringLower_append, ← stringLower_length x, List.drop_left]
    rw [hdrop, occursAt_drop (by rw [stringLower_length, List.length_append]; omega),
      Nat.add_sub_cancel' hge]
    exact hocc

/-- When a full buffer is free of banned strings with the new token, the whole text is. -/
theorem banFree_extend {n : Nat} {x : Bytes} {buffer : List TokenOutput}
    (hshort : ∀ w ∈ phrases, w.length ≤ n) (hfull : n ≤ buffer.length + 1)
    (hpieces : ∀ t ∈ buffer, t.textToSend ≠ [])
    (hold : BanFree phrases (x ++ buffer.flatMap TokenOutput.textToSend))
    (hnew : BanFree phrases ((buffer ++ [result]).flatMap TokenOutput.textToSend)) :
    BanFree phrases (x ++ (buffer ++ [result]).flatMap TokenOutput.textToSend) := by
  apply banFree_append hnew
  intro w hw p hp hocc
  have htext : (buffer ++ [result]).flatMap TokenOutput.textToSend =
      buffer.flatMap TokenOutput.textToSend ++ result.textToSend := by
    rw [List.flatMap_append, List.flatMap_singleton]
  rw [htext, ← List.append_assoc, stringLower_append] at hocc
  -- It does not end in front of the new token, so it goes over the whole buffer.
  have hlong : x.length + (buffer.flatMap TokenOutput.textToSend).length < p + w.length := by
    by_contra hend
    apply hold w hw p
    apply hocc.of_append
    rw [stringLower_length, List.length_append]
    omega
  have hbuffer := length_le_flatMap hpieces
  have hmax := hshort w hw
  omega

/-! ### What `check_ban_phrase` finds -/

theorem tokenAt_isSome {l : List TokenOutput} {start : Nat}
    (h : start < (l.flatMap TokenOutput.textToSend).length) : (tokenAt l start).isSome = true := by
  induction l generalizing start with
  | nil => exact absurd h (Nat.not_lt_zero _)
  | cons t l ih =>
    rw [tokenAt]
    rw [List.flatMap_cons, List.length_append] at h
    split
    · rfl
    · rw [Option.isSome_map]
      exact ih (by omega)

/-- Where no banned string is found, there is none in the buffer. -/
theorem banFree_of_not_found {slot : BanSlot} (hwords : ∀ w ∈ slot.banPhrases, w ≠ [])
    (hnone : slot.banOffset.bind (tokenAt slot.tokenBuffer) = none) :
    BanFree slot.banPhrases slot.bufferText := by
  intro w hw p hocc
  obtain ⟨q, hq⟩ : ∃ q, findFrom (stringLower slot.bufferText) w 0 = some q := by
    apply Option.ne_none_iff_exists'.mp
    intro hno
    exact findFrom_eq_none.mp hno p (Nat.zero_le p) hocc
  rw [banOffset] at hnone
  generalize hstarts : (slot.banPhrases.filterMap fun phrase =>
      findFrom (stringLower (slot.tokenBuffer.flatMap TokenOutput.textToSend)) phrase 0) ++
    slot.banRegex.filterMap (fun search =>
      search (slot.tokenBuffer.flatMap TokenOutput.textToSend)) ++
    slot.banRegexCi.filterMap (fun search =>
      search (slot.tokenBuffer.flatMap TokenOutput.textToSend)) = starts at hnone
  have hmem : q ∈ starts := by
    rw [← hstarts]
    apply List.mem_append_left
    apply List.mem_append_left
    exact List.mem_filterMap.mpr ⟨w, hw, hq⟩
  obtain ⟨first, hfirst⟩ : ∃ first, starts.min? = some first := by
    apply Option.ne_none_iff_exists'.mp
    intro hno
    rw [List.min?_eq_none_iff.mp hno] at hmem
    exact nomatch hmem
  have hle : first ≤ q := (List.min?_eq_some_iff.mp hfirst).2 q hmem
  have hend := (findFrom_eq_some.mp hq).2.1.length_le
  have hpos := List.length_pos_iff.mpr (hwords w hw)
  rw [stringLower_length] at hend
  have hsome : (tokenAt slot.tokenBuffer first).isSome = true := tokenAt_isSome
    (show first < slot.bufferText.length by omega)
  rw [hfirst, Option.bind_some] at hnone
  rw [hnone] at hsome
  exact nomatch hsome

/-! ### The text of a slot -/

variable (srv : ServerCtx)

/-- What was streamed is the first part of the text. -/
structure TextKept (slot : EmitSlot) : Prop where
  sent : slot.nSentText ≤ slot.generatedText.length
  partials : slot.partials.flatten =
    if slot.params.stream then slot.generatedText.take slot.nSentText else []

/-- The limits do not change the text. -/
structure SameText (a b : EmitSlot) : Prop where
  params : b.params = a.params
  text : b.generatedText = a.generatedText
  nSentText : b.nSentText = a.nSentText
  partials : b.partials = a.partials
  stoppedWord : b.stoppedWord = a.stoppedWord
  stopped : a.hasNextToken = false → b.hasNextToken = false

theorem SameText.refl (a : EmitSlot) : SameText a a := ⟨rfl, rfl, rfl, rfl, rfl, id⟩

theorem SameText.trans {a b c : EmitSlot} (hab : SameText a b) (hbc : SameText b c) :
    SameText a c :=
  ⟨hbc.1.trans hab.1, hbc.2.trans hab.2, hbc.3.trans hab.3, hbc.4.trans hab.4,
    hbc.5.trans hab.5, fun h => hbc.6 (hab.6 h)⟩

theorem SameText.kept {a b : EmitSlot} (h : SameText a b) (ha : TextKept a) : TextKept b := by
  constructor
  · rw [h.nSentText, h.text]
    exact ha.sent
  · rw [h.partials, h.params, h.text, h.nSentText]
    exact ha.partials

theorem hasBudget_sameText (slot : EmitSlot) : SameText slot (hasBudget srv slot).2 := by
  rw [hasBudget]
  split
  · exact SameText.refl slot
  · exact ⟨rfl, rfl, rfl, rfl, rfl, id⟩

/-- The limits never touch the text. -/
theorem checkLimits_sameText (slot : EmitSlot) (tok : Int) :
    SameText slot (checkLimits srv slot tok) := by
  have hbudget : SameText slot (checkBudget srv slot) := by
    rw [checkBudget]
    split
    · have hsame := hasBudget_sameText srv slot
      generalize hasBudget srv slot = answer at hsame ⊢
      obtain ⟨budget, after⟩ := answer
      cases budget with
      | true => exact hsame
      | false => exact hsame.trans ⟨rfl, rfl, rfl, rfl, rfl, fun _ => rfl⟩
    · exact SameText.refl slot
  have hsoft : ∀ s, SameText s (checkSoftfail srv s) := by
    intro s
    rw [checkSoftfail]
    split
    · exact ⟨rfl, rfl, rfl, rfl, rfl, fun _ => rfl⟩
    · exact SameText.refl s
  have heog : ∀ s, SameText s (checkEog srv tok s) := by
    intro s
    rw [checkEog]
    split
    · exact ⟨rfl, rfl, rfl, rfl, rfl, fun _ => rfl⟩
    · exact SameText.refl s
  have htrain : ∀ s, SameText s (checkCtxTrain srv s) := by
    intro s
    rw [checkCtxTrain]
    split
    · exact ⟨rfl, rfl, rfl, rfl, rfl, fun _ => rfl⟩
    · exact SameText.refl s
  exact ((hbudget.trans (hsoft _)).trans (heog _)).trans (htrain _)

theorem hasNextToken_sameText (slot : EmitSlot) (result : TokenOutput) :
    SameText slot (hasNextToken srv slot result).2 := by
  show SameText slot (if 0 < slot.nDecoded then hasBudget srv slot else (true, slot)).2
  split
  · exact hasBudget_sameText srv slot
  · exact SameText.refl slot

/-- A token's text comes behind the text, or a stop word ends it. -/
theorem processText_text (slot : EmitSlot) (result : TokenOutput) :
    (processText srv slot result).generatedText = slot.generatedText ++ result.textToSend ∨
      ((processText srv slot result).generatedText <+: slot.generatedText ++ result.textToSend ∧
        (processText srv slot result).hasNextToken = false ∧
        (processText srv slot result).stoppedWord = true) := by
  rw [processText]
  simp only
  split
  · exact Or.inl rfl
  · split
    · exact Or.inr ⟨List.take_prefix _ _, rfl, rfl⟩
    · exact Or.inl rfl

/-- Handling a token keeps what has been sent a prefix of the text. -/
theorem processText_kept {slot : EmitSlot} (h : TextKept slot) (result : TokenOutput) :
    TextKept (processText srv slot result) := by
  have hlen : slot.nSentText ≤ (slot.generatedText ++ result.textToSend).length := by
    rw [List.length_append]
    exact Nat.le_add_right_of_le h.sent
  have htake : (slot.generatedText ++ result.textToSend).take slot.nSentText =
      slot.generatedText.take slot.nSentText := List.take_append_of_le_length h.sent
  rw [processText]
  simp only
  generalize hall : slot.generatedText ++ result.textToSend = text at hlen htake ⊢
  split
  · exact ⟨hlen, htake ▸ h.partials⟩
  · rw [Nat.min_eq_left hlen]
    split
    · rename_i q word _
      have hcut : slot.nSentText ≤ (text.take (slot.nSentText + q)).length := by
        rw [List.length_take]
        omega
      rw [Nat.min_eq_left hcut]
      have hsum : slot.nSentText + ((text.take (slot.nSentText + q)).drop slot.nSentText).length =
          (text.take (slot.nSentText + q)).length := by
        rw [List.length_drop]
        omega
      refine ⟨Nat.le_of_eq hsum, ?_⟩
      show (if slot.params.stream = true then slot.partials ++ [_] else slot.partials).flatten =
        if slot.params.stream = true then (text.take _).take (slot.nSentText + _) else []
      rw [hsum, List.take_length]
      have hparts := h.partials
      split
      · rename_i hstream
        rw [if_pos hstream] at hparts
        rw [List.flatten_append, hparts, List.flatten_singleton, ← htake]
        have hfirst : text.take slot.nSentText =
            (text.take (slot.nSentText + q)).take slot.nSentText := by
          rw [List.take_take, Nat.min_eq_left (Nat.le_add_right _ _)]
        rw [hfirst, List.take_append_drop]
      · rename_i hstream
        rw [if_neg hstream] at hparts
        exact hparts
    · generalize (!srv.isEog result.tok && _) = held
      have hparts := h.partials
      cases held with
      | true =>
        -- Nothing is sent.
        refine ⟨hlen, ?_⟩
        show (if slot.params.stream = true then slot.partials ++ [[]] else slot.partials).flatten =
          if slot.params.stream = true then text.take slot.nSentText else []
        rw [htake, ← hparts]
        split
        · rw [List.flatten_append, List.flatten_singleton, List.append_nil]
        · rfl
      | false =>
        have hsum : slot.nSentText + (text.drop slot.nSentText).length = text.length := by
          rw [List.length_drop]
          omega
        refine ⟨Nat.le_of_eq hsum, ?_⟩
        show (if slot.params.stream = true then slot.partials ++ [text.drop slot.nSentText]
          else slot.partials).flatten = if slot.params.stream = true then
            text.take (slot.nSentText + (text.drop slot.nSentText).length) else []
        rw [hsum, List.take_length]
        split
        · rename_i hstream
          rw [if_pos hstream] at hparts
          rw [List.flatten_append, hparts, List.flatten_singleton, ← htake, List.take_append_drop]
        · rename_i hstream
          rw [if_neg hstream] at hparts
          exact hparts

theorem processToken_kept {slot : EmitSlot} (h : TextKept slot) (result : TokenOutput) :
    TextKept (processToken srv slot result).1 :=
  (checkLimits_sameText srv _ result.tok).kept (processText_kept srv h result)

/-- A token that does not end the generation with a stop word puts its text behind the text. -/
theorem processToken_text (slot : EmitSlot) (result : TokenOutput) :
    (processToken srv slot result).1.generatedText = slot.generatedText ++ result.textToSend ∨
      ((processToken srv slot result).1.generatedText <+: slot.generatedText ++ result.textToSend ∧
        (processToken srv slot result).2 = false ∧
        stoppedByLimit (processToken srv slot result).1 = false) := by
  have hsame := checkLimits_sameText srv (processText srv slot result) result.tok
  rcases processText_text srv slot result with htext | ⟨hpre, hnext, hword⟩
  · exact Or.inl (hsame.text.trans htext)
  · refine Or.inr ⟨hsame.text.symm ▸ hpre, hsame.stopped hnext, ?_⟩
    show (_ && !(checkLimits srv (processText srv slot result) result.tok).stoppedWord) = false
    rw [hsame.stoppedWord, hword]
    exact Bool.and_false _

/-! ### Sending -/

/-- Two slots have the same bans. -/
structure SameBans (a b : BanSlot) : Prop where
  phrases : b.banPhrases = a.banPhrases
  nBuffer : b.nBuffer = a.nBuffer
  regex : b.banRegex = a.banRegex
  regexCi : b.banRegexCi = a.banRegexCi
  rewindCountMax : b.rewindCountMax = a.rewindCountMax

theorem SameBans.refl (a : BanSlot) : SameBans a a := ⟨rfl, rfl, rfl, rfl, rfl⟩

theorem SameBans.trans {a b c : BanSlot} (hab : SameBans a b) (hbc : SameBans b c) :
    SameBans a c :=
  ⟨hbc.1.trans hab.1, hbc.2.trans hab.2, hbc.3.trans hab.3, hbc.4.trans hab.4, hbc.5.trans hab.5⟩

theorem SameBans.release {a b : BanSlot} (h : SameBans a b) : SameBans a b.release :=
  ⟨h.1, h.2, h.3, h.4, h.5⟩

/-- The text of the first `m` tokens was sent, or the slot is released with a part of it. -/
structure SentText (slot : BanSlot) (results : List TokenOutput) (m : Nat) (slot' : BanSlot) :
    Prop where
  text : slot'.released = false → slot'.generatedText =
    slot.generatedText ++ (results.take m).flatMap TokenOutput.textToSend
  part : slot'.generatedText <+: slot.generatedText ++ results.flatMap TokenOutput.textToSend
  kept : TextKept slot'.toEmitSlot
  bans : SameBans slot slot'

/-- The loop sends the buffered tokens in order, until one of them stops the slot. -/
theorem sendLoop_sentText (n : Nat) (startPos : Int) (results : List TokenOutput) (count : Nat)
    (hkept : TextKept slot.toEmitSlot) :
    ∃ m, (sendLoop srv n startPos results count slot).2 = count + m ∧
      SentText slot results m (sendLoop srv n startPos results count slot).1 := by
  induction results generalizing count slot with
  | nil =>
    exact ⟨0, rfl, fun _ => (List.append_nil _).symm, List.prefix_append _ _, hkept,
      SameBans.refl slot⟩
  | cons it results ih =>
    have hone : TextKept (sendOne srv (startPos + count) slot it).1.toEmitSlot :=
      processToken_kept srv hkept it
    obtain ⟨m, hcount, hmore⟩ := ih (count + 1) hone
    have htext := processToken_text srv slot.toEmitSlot it
    have hbans : SameBans slot (sendOne srv (startPos + count) slot it).1 :=
      ⟨rfl, rfl, rfl, rfl, rfl⟩
    change (sendOne srv (startPos + count) slot it).1.generatedText = _ ∨
      ((sendOne srv (startPos + count) slot it).1.generatedText <+: _ ∧
        (sendOne srv (startPos + count) slot it).2 = false ∧
        stoppedByLimit (sendOne srv (startPos + count) slot it).1.toEmitSlot = false) at htext
    rw [sendLoop]
    generalize sendOne srv (startPos + count) slot it = round at *
    have hpart : round.1.generatedText <+:
        slot.generatedText ++ (it :: results).flatMap TokenOutput.textToSend := by
      rw [List.flatMap_cons, ← List.append_assoc]
      rcases htext with heq | ⟨hpre, -⟩
      · rw [heq]
        exact List.prefix_append _ _
      · exact hpre.trans (List.prefix_append _ _)
    -- The text of this token is behind the text, and the loop goes on.
    have hnext : round.1.generatedText = slot.generatedText ++ it.textToSend →
        ∃ k, (sendLoop srv n startPos results (count + 1) round.1).2 = count + k ∧
          SentText slot (it :: results) k
            (sendLoop srv n startPos results (count + 1) round.1).1 := by
      intro heq
      refine ⟨m + 1, by omega, fun hlive => ?_, ?_, hmore.kept, hbans.trans hmore.bans⟩
      · rw [hmore.text hlive, heq, List.take_succ_cons, List.flatMap_cons, List.append_assoc]
      · have hpre := hmore.part
        rw [heq, List.append_assoc, ← List.flatMap_cons] at hpre
        exact hpre
    by_cases hgo : round.2 = true
    · have heq := htext.resolve_right fun h => by rw [hgo] at h; exact absurd h.2.1 (by decide)
      rw [if_neg (not_not_intro hgo)]
      split
      · refine ⟨1, rfl, fun _ => ?_, hpart, hone, hbans⟩
        rw [heq, List.take_succ_cons, List.take_zero, List.flatMap_singleton]
      · exact hnext heq
    · rw [if_pos hgo]
      split
      · rename_i hlimit
        exact hnext (htext.resolve_right fun h => by rw [hlimit] at h; exact absurd h.2.2 (by decide))
      · have hreleased : round.1.release.released = true := rfl
        refine ⟨1, rfl, ⟨fun hlive => ?_, hpart, hone, hbans.release⟩⟩
        exact absurd (hreleased.symm.trans hlive) (by decide)

/-- Sending some of the buffer: what is sent and what is left is the text that there was. -/
theorem sendTokenResults_text {slot : BanSlot} (n : Nat) (hkept : TextKept slot.toEmitSlot) :
    let slot' := slot.sendTokenResults srv n
    (slot'.released = false → slot'.generatedText ++ slot'.bufferText =
        slot.generatedText ++ slot.bufferText) ∧
      slot'.generatedText <+: slot.generatedText ++ slot.bufferText ∧
      (∀ t ∈ slot'.tokenBuffer, t ∈ slot.tokenBuffer) ∧
      TextKept slot'.toEmitSlot ∧ SameBans slot slot' := by
  obtain ⟨m, hcount, hsent⟩ := sendLoop_sentText srv n
    (slot.nPast - slot.tokenBuffer.length + 1) slot.tokenBuffer 0 hkept
  obtain ⟨_, _, hloop⟩ := @sendLoop_sent srv n
    (slot.nPast - slot.tokenBuffer.length + 1) slot.tokenBuffer 0 slot
  have hsame := hloop.buffer
  simp only [sendTokenResults]
  generalize sendLoop srv n _ slot.tokenBuffer 0 slot = looped at hcount hsent hsame ⊢
  rw [hcount, Nat.zero_add]
  have hjoin : looped.1.released = false → looped.1.generatedText ++
      (looped.1.tokenBuffer.drop m).flatMap TokenOutput.textToSend =
        slot.generatedText ++ slot.bufferText := by
    intro hlive
    rw [hsent.text hlive, hsame, List.append_assoc, ← List.flatMap_append,
      List.take_append_drop]
    rfl
  have hsub : ∀ t ∈ looped.1.tokenBuffer.drop m, t ∈ slot.tokenBuffer :=
    fun t ht => hsame ▸ List.mem_of_mem_drop ht
  have hdrop : 0 < m ∨ looped.1.tokenBuffer.drop m = looped.1.tokenBuffer := by
    rcases Nat.eq_zero_or_pos m with hzero | hpos
    · rw [hzero]
      exact Or.inr rfl
    · exact Or.inl hpos
  obtain ⟨-, hpart, ⟨hkept₁, hkept₂⟩, ⟨hbans₁, hbans₂, hbans₃, hbans₄, hbans₅⟩⟩ := hsent
  -- The limit may release the slot behind the loop.
  by_cases hlimit : ¬ looped.1.released = true ∧ stoppedByLimit looped.1.toEmitSlot = true
  · simp only [if_pos hlimit]
    have hreleased : looped.1.release.released = true := rfl
    split
    · refine ⟨fun hlive => ?_, hpart, hsub, ⟨hkept₁, hkept₂⟩,
        ⟨hbans₁, hbans₂, hbans₃, hbans₄, hbans₅⟩⟩
      exact absurd (hreleased.symm.trans hlive) (by decide)
    · rename_i hnone
      rw [hdrop.resolve_left hnone] at hsub
      refine ⟨fun hlive => ?_, hpart, hsub, ⟨hkept₁, hkept₂⟩,
        ⟨hbans₁, hbans₂, hbans₃, hbans₄, hbans₅⟩⟩
      exact absurd (hreleased.symm.trans hlive) (by decide)
  · simp only [if_neg hlimit]
    split
    · exact ⟨hjoin, hpart, hsub, ⟨hkept₁, hkept₂⟩, ⟨hbans₁, hbans₂, hbans₃, hbans₄, hbans₅⟩⟩
    · rename_i hnone
      rw [hdrop.resolve_left hnone] at hsub hjoin
      exact ⟨hjoin, hpart, hsub, ⟨hkept₁, hkept₂⟩, ⟨hbans₁, hbans₂, hbans₃, hbans₄, hbans₅⟩⟩

/-! ### The invariant -/

/-- No banned string is in the text that was sent and the text that is held back. -/
structure TextInv (slot : BanSlot) : Prop where
  inv : slot.Inv
  words : ∀ w ∈ slot.banPhrases, w ≠ [] ∧ w.length ≤ slot.nBuffer
  noRegex : slot.banRegex = [] ∧ slot.banRegexCi = []
  unlimited : slot.rewindCountMax = 0
  kept : TextKept slot.toEmitSlot
  pieces : (∀ t ∈ slot.tokenBuffer, t.textToSend ≠ []) ∧ ∀ t ∈ slot.pending, t.textToSend ≠ []
  single : slot.pending.length ≤ 1
  clean : slot.released = false → BanFree slot.banPhrases (slot.generatedText ++ slot.bufferText)
  sent : BanFree slot.banPhrases slot.generatedText

theorem TextInv.bans {slot' : BanSlot} (h : slot.TextInv) (hbans : SameBans slot slot') :
    (∀ w ∈ slot'.banPhrases, w ≠ [] ∧ w.length ≤ slot'.nBuffer) ∧
      (slot'.banRegex = [] ∧ slot'.banRegexCi = []) ∧ slot'.rewindCountMax = 0 := by
  refine ⟨?_, ⟨hbans.regex.trans h.noRegex.1, hbans.regexCi.trans h.noRegex.2⟩,
    hbans.rewindCountMax.trans h.unlimited⟩
  rw [hbans.phrases, hbans.nBuffer]
  exact h.words

/-- Where the new token does not rewind the slot, the text with it is free of banned strings. -/
theorem TextInv.extend (h : slot.TextInv) (hpending : slot.pending = [result])
    (hguard : slot.Guarded .emit) (hstays : ¬ slot.Rewinds result) :
    BanFree slot.banPhrases
      (slot.generatedText ++ (slot.tokenBuffer ++ [result]).flatMap TokenOutput.textToSend) := by
  have hlive : slot.released = false := h.inv.live (by rw [hpending]; exact List.cons_ne_nil _ _)
  -- A rewind is always allowed, so nothing was found in the buffer.
  have hallow : slot.allowRewind = true := by
    rw [allowRewind, h.unlimited]
    rfl
  have hnew : BanFree slot.banPhrases
      ((slot.tokenBuffer ++ [result]).flatMap TokenOutput.textToSend) := by
    apply @banFree_of_not_found (slot.withToken result) fun w hw => (h.words w hw).1
    by_contra hfound
    obtain ⟨k, hk⟩ := Option.ne_none_iff_exists'.mp hfound
    apply hstays
    refine ⟨?_, hallow⟩
    have htokens := h.inv.tokens
    have hcount := congrArg List.length htokens
    rw [hpending] at hcount
    simp only [List.length_append, List.length_map, List.length_singleton] at hcount
    have hpast := h.inv.nPast
    have hprompt := List.length_pos_iff.mpr h.inv.prompt
    rw [checkBanPhrase, hk]
    show (0 : Int) ≤ slot.nPast - ((slot.tokenBuffer ++ [result]).length : Nat) + 1 + k
    rw [List.length_append, List.length_singleton, hpast]
    omega
  rcases Nat.lt_or_ge (slot.tokenBuffer.length + 1) slot.nBuffer with hshort | hfull
  · have hno := hguard.2 rfl result [] hpending hshort hstays
    apply banFree_append hnew
    intro w hw p hp hocc
    apply hno
    refine ⟨w, hw, p, hp, ?_⟩
    rw [List.flatMap_append, List.flatMap_singleton, ← List.append_assoc] at hocc
    exact hocc
  · exact banFree_extend (fun w hw => (h.words w hw).2) hfull h.pieces.1 (h.clean hlive) hnew

/-! ### One new token -/

theorem bufferAndCheck_rewinds {slot : BanSlot} {result : TokenOutput}
    (h : slot.Rewinds result) :
    bufferAndCheckStringBan srv slot result =
      { (held srv slot result).rewindContext (held srv slot result).checkBanPhrase with
        rewindStatus := true
        rewinds := slot.rewinds ++ [recordOf (held srv slot result)] } := by
  have hban : 0 ≤ (held srv slot result).checkBanPhrase := by
    rw [held_checkBanPhrase]
    exact h.1
  rw [bufferAndCheckStringBan]
  exact if_pos ⟨hban, h.2⟩

/-- A rewind leaves some of the tokens in front of the new one. -/
theorem rewound_buffer (h : slot.Inv) (hpending : slot.pending = [result])
    (hban : 0 ≤ (taken srv slot result []).checkBanPhrase) :
    ∃ k, ((taken srv slot result []).rewindContext
      (taken srv slot result []).checkBanPhrase).tokenBuffer = slot.tokenBuffer.take k := by
  have htokens : slot.cacheTokens ++ [result.tok]
      = slot.prompt ++ slot.sent ++ toks (slot.tokenBuffer ++ [result]) := by
    have htaken := taken_tokens h hpending
    simpa using htaken
  have hcount : slot.cacheTokens.length + 1
      = slot.prompt.length + slot.sent.length + (slot.tokenBuffer ++ [result]).length := by
    simpa [Nat.add_assoc] using congrArg List.length htokens
  obtain ⟨k, hat, hbanPos⟩ :=
    @checkBanPhrase_eq (taken srv slot result []) (taken_nPast h) hcount hban
  have hk := (tokenAt_spec hat).1
  obtain ⟨-, hbuffer, -, -⟩ := @rewindContext_spec (taken srv slot result []) k hk h.prompt
    (taken_nPast h) result.tok htokens
  rw [← hbanPos] at hbuffer
  refine ⟨k, hbuffer.trans ?_⟩
  change k < (slot.tokenBuffer ++ [result]).length at hk
  rw [List.length_append, List.length_singleton] at hk
  exact List.take_append_of_le_length (Nat.le_of_lt_succ hk)

/-- The step of the invariant in which text is buffered, sent or rewound. -/
theorem TextInv.emit {slot : BanSlot} {result : TokenOutput} (h : slot.TextInv)
    (hpending : slot.pending = [result]) (hguard : slot.Guarded .emit) :
    TextInv (bufferAndCheckStringBan srv { slot with pending := [] } result) := by
  have hinv := (@inv_emit srv slot result [] h.inv hpending fun hne => absurd rfl hne).1
  have hnone := bufferAndCheck_pending srv { slot with pending := [] } result
  have hlive : slot.released = false := h.inv.live (by rw [hpending]; exact List.cons_ne_nil _ _)
  have hsame := hasNextToken_sameText srv slot.toEmitSlot result
  have hresult : result.textToSend ≠ [] := h.pieces.2 result (by rw [hpending]; simp)
  have hpieces : ∀ t ∈ slot.tokenBuffer ++ [result], t.textToSend ≠ [] := by
    intro t ht
    rcases List.mem_append.mp ht with hold | hnew
    · exact h.pieces.1 t hold
    · rw [List.mem_singleton.mp hnew]
      exact hresult
  have hpendings : ∀ slot' : BanSlot, slot'.pending = [] →
      (∀ t ∈ slot'.pending, t.textToSend ≠ []) ∧ slot'.pending.length ≤ 1 := by
    intro slot' hslot'
    rw [hslot']
    exact ⟨fun _ ht => (List.not_mem_nil ht).elim, Nat.zero_le 1⟩
  obtain ⟨hno, hsingle⟩ := hpendings _ hnone
  by_cases hrewinds : slot.Rewinds result
  · -- The text is what it was, with a shorter buffer.
    have heq := @bufferAndCheck_rewinds srv { slot with pending := [] } result hrewinds
    have hban : 0 ≤ (taken srv slot result []).checkBanPhrase := by
      rw [taken, held_checkBanPhrase]
      exact hrewinds.1
    obtain ⟨k, hbuffer⟩ := rewound_buffer srv h.inv hpending hban
    rw [heq] at hinv hno hsingle ⊢
    have hclean : BanFree slot.banPhrases
        (slot.generatedText ++ (slot.tokenBuffer.take k).flatMap TokenOutput.textToSend) := by
      apply (h.clean hlive).of_initial
      obtain ⟨more, hmore⟩ := List.take_prefix k slot.tokenBuffer
      refine ⟨more.flatMap TokenOutput.textToSend, ?_⟩
      rw [List.append_assoc, ← List.flatMap_append, hmore]
      rfl
    refine ⟨hinv, h.words, h.noRegex, h.unlimited, ?_, ⟨?_, hno⟩, hsingle, fun _ => ?_, ?_⟩
    · obtain ⟨hsent, hpartials⟩ := hsame.kept h.kept
      exact ⟨hsent, hpartials⟩
    · intro t ht
      change t ∈ ((taken srv slot result []).rewindContext
        (taken srv slot result []).checkBanPhrase).tokenBuffer at ht
      rw [hbuffer] at ht
      exact h.pieces.1 t (List.mem_of_mem_take ht)
    · show BanFree slot.banPhrases ((hasNextToken srv slot.toEmitSlot result).2.generatedText ++
        ((taken srv slot result []).rewindContext
          (taken srv slot result []).checkBanPhrase).tokenBuffer.flatMap TokenOutput.textToSend)
      rw [hsame.text, hbuffer]
      exact hclean
    · show BanFree slot.banPhrases (hasNextToken srv slot.toEmitSlot result).2.generatedText
      rw [hsame.text]
      exact h.sent
  · have hclean := h.extend hpending hguard hrewinds
    rcases @bufferAndCheck_cases srv { slot with pending := [] } result with
      ⟨hban, -⟩ | ⟨n, heq, -⟩ | heq
    · exact absurd hban hrewinds
    · -- Some of the buffer is sent.
      obtain ⟨hjoin, hpart, hsub, hkept, hbans⟩ := @sendTokenResults_text srv
        { held srv { slot with pending := [] } result with
          rewindStatus := false, rewindCount := 0 } n (hsame.kept h.kept)
      rw [← heq] at hjoin hpart hsub hkept hbans
      have htext : (hasNextToken srv slot.toEmitSlot result).2.generatedText =
        slot.generatedText := hsame.text
      have hbans' : SameBans slot
          (bufferAndCheckStringBan srv { slot with pending := [] } result) :=
        ⟨hbans.1, hbans.2, hbans.3, hbans.4, hbans.5⟩
      obtain ⟨hwords, hnoRegex, hunlimited⟩ := h.bans hbans'
      refine ⟨hinv, hwords, hnoRegex, hunlimited, hkept, ⟨fun t ht => hpieces t (hsub t ht), hno⟩,
        hsingle, fun hstill => ?_, ?_⟩
      · rw [hjoin hstill, hbans'.phrases]
        show BanFree slot.banPhrases
          ((hasNextToken srv slot.toEmitSlot result).2.generatedText ++ _)
        rw [htext]
        exact hclean
      · change _ <+: (hasNextToken srv slot.toEmitSlot result).2.generatedText ++ _ at hpart
        rw [htext] at hpart
        rw [hbans'.phrases]
        exact hclean.of_initial hpart
    · -- The token is held back.
      rw [heq] at hinv hno hsingle ⊢
      refine ⟨hinv, h.words, h.noRegex, h.unlimited, ?_, ⟨hpieces, hno⟩, hsingle, fun _ => ?_, ?_⟩
      · obtain ⟨hsent, hpartials⟩ := hsame.kept h.kept
        exact ⟨hsent, hpartials⟩
      · show BanFree slot.banPhrases
          ((hasNextToken srv slot.toEmitSlot result).2.generatedText ++ _)
        rw [hsame.text]
        exact hclean
      · show BanFree slot.banPhrases (hasNextToken srv slot.toEmitSlot result).2.generatedText
        rw [hsame.text]
        exact h.sent

/-! ### Runs -/

/-- Every guarded action keeps the invariant. -/
theorem textInv_step {slot' : BanSlot} {a : BanAction} (h : slot.TextInv)
    (hguard : slot.Guarded a) (hstep : slot.step srv a = some slot') : slot'.TextInv := by
  have hcalm : slot.Calm srv a := by
    cases a with
    | plain result => trivial
    | accept draft ids => trivial
    | emit =>
      intro result rest hpending hne
      have hsingle := h.single
      rw [hpending, List.length_cons] at hsingle
      exact absurd (List.length_eq_zero_iff.mp (by omega)) hne
  have hinv := inv_step h.inv hcalm hstep
  cases a with
  | plain result =>
    rw [step] at hstep
    split at hstep
    · cases hstep
    · rw [← Option.some.inj hstep] at hinv ⊢
      refine ⟨hinv, h.words, h.noRegex, h.unlimited, ⟨h.kept.sent, h.kept.partials⟩,
        ⟨h.pieces.1, fun t ht => ?_⟩, Nat.le_refl 1, h.clean, h.sent⟩
      rw [List.mem_singleton.mp ht]
      exact hguard.1
  | accept draft ids => exact hguard.1.elim
  | emit =>
    rw [step] at hstep
    cases hpending : slot.pending with
    | nil =>
      rw [hpending] at hstep
      cases hstep
    | cons result rest =>
      have hrest : rest = [] := by
        have hsingle := h.single
        rw [hpending, List.length_cons] at hsingle
        exact List.length_eq_zero_iff.mp (by omega)
      subst hrest
      have hafter := h.emit srv hpending hguard
      have hnone := bufferAndCheck_pending srv { slot with pending := [] } result
      rw [hpending] at hstep
      rw [← Option.some.inj hstep] at hinv ⊢
      change Inv (if _ then _ else _) at hinv
      show TextInv (if (bufferAndCheckStringBan srv { slot with pending := [] } result).released
        then { bufferAndCheckStringBan srv { slot with pending := [] } result with pending := [] }
        else bufferAndCheckStringBan srv { slot with pending := [] } result)
      generalize bufferAndCheckStringBan srv { slot with pending := [] } result = after
        at hinv hafter hnone ⊢
      split
      · rename_i hreleased
        rw [if_pos hreleased] at hinv
        exact ⟨hinv, hafter.words, hafter.noRegex, hafter.unlimited,
          ⟨hafter.kept.sent, hafter.kept.partials⟩,
          ⟨hafter.pieces.1, fun _ ht => (List.not_mem_nil ht).elim⟩, Nat.zero_le 1, hafter.clean,
          hafter.sent⟩
      · exact hafter

theorem le_longest {w : Bytes} (hw : w ∈ phrases) : w.length ≤ longest phrases := by
  have hfold : ∀ n, n ≤ phrases.foldl (fun n phrase => max n phrase.length) n ∧
      (w ∈ phrases → w.length ≤ phrases.foldl (fun n phrase => max n phrase.length) n) := by
    clear hw
    induction phrases with
    | nil => exact fun n => ⟨Nat.le_refl n, fun h => nomatch h⟩
    | cons v phrases ih =>
      intro n
      obtain ⟨hle, hmem⟩ := ih (max n v.length)
      refine ⟨Nat.le_trans (Nat.le_max_left _ _) hle, fun h => ?_⟩
      rcases List.mem_cons.mp h with rfl | h
      · exact Nat.le_trans (Nat.le_max_right _ _) hle
      · exact hmem h
  exact (hfold 0).2 hw

/-- It holds when the slot is launched. -/
theorem textInv_of_launched {banned : List Bytes} (h : Launched banned slot) : slot.TextInv := by
  obtain ⟨htext, hsent, hpartials⟩ := h.noText
  obtain ⟨hbuffer, -, -, hlive⟩ := h.starts.fresh
  have hwords : ∀ w ∈ slot.banPhrases, w ≠ [] ∧ w.length ≤ slot.nBuffer := by
    intro w hw
    constructor
    · obtain ⟨s, hs, rfl⟩ := List.mem_map.mp (h.phrases.mem_iff.mp hw)
      have hne : s ≠ [] := of_decide_eq_true (List.mem_filter.mp hs).2
      exact fun hnil => hne (List.map_eq_nil_iff.mp hnil)
    · have hle := le_longest hw
      rcases h.buffer with hn | hn
      · omega
      · omega
  have hnone : BanFree slot.banPhrases [] := by
    intro w hw p hocc
    have hlen := hocc.length_le
    have hpos := List.length_pos_iff.mpr (hwords w hw).1
    change p + w.length ≤ 0 at hlen
    omega
  refine ⟨inv_of_starts h.starts, hwords, h.noRegex, h.unlimited, ⟨?_, ?_⟩, ⟨?_, h.pieces⟩, ?_,
    fun _ => ?_, ?_⟩
  · rw [hsent]
    exact Nat.zero_le _
  · rw [hpartials, htext, List.take_nil]
    exact (ite_self _).symm
  · rw [hbuffer]
    exact fun _ ht => nomatch ht
  · obtain ⟨result, hpending⟩ := h.starts.first
    rw [hpending]
    exact Nat.le_refl 1
  · rw [htext, bufferText, hbuffer]
    exact hnone
  · rw [htext]
    exact hnone

/-- The strings stay what they are. -/
theorem phrases_step {slot' : BanSlot} {a : BanAction} (h : slot.TextInv)
    (hstep : slot.step srv a = some slot') : slot'.banPhrases = slot.banPhrases := by
  cases a with
  | plain result =>
    rw [step] at hstep
    split at hstep
    · cases hstep
    · rw [← Option.some.inj hstep]
  | accept draft ids =>
    rw [step] at hstep
    split at hstep
    · cases hstep
    · rw [← Option.some.inj hstep]
  | emit =>
    rw [step] at hstep
    cases hpending : slot.pending with
    | nil =>
      rw [hpending] at hstep
      cases hstep
    | cons result rest =>
      rw [hpending] at hstep
      have hafter : (bufferAndCheckStringBan srv { slot with pending := rest } result).banPhrases =
          slot.banPhrases := by
        rcases @bufferAndCheck_cases srv { slot with pending := rest } result with
          ⟨-, heq⟩ | ⟨n, heq, -⟩ | heq
        · rw [heq]
          rfl
        · have hsame := hasNextToken_sameText srv slot.toEmitSlot result
          obtain ⟨-, -, -, -, hbans⟩ := @sendTokenResults_text srv
            { held srv { slot with pending := rest } result with
              rewindStatus := false, rewindCount := 0 } n (hsame.kept h.kept)
          rw [heq]
          exact hbans.phrases
        · rw [heq]
          rfl
      rw [← Option.some.inj hstep]
      show (if _ then _ else _ : BanSlot).banPhrases = _
      split
      · exact hafter
      · exact hafter

/-- A slot that bans "tax" and "bcd", with a prompt of one token and the first token "t". -/
def taxStart : BanSlot where
  params := { antiprompt := [], nPredict := -1, stream := true }
  nPast := 1
  nPromptTokens := 1
  cacheTokens := [1]
  nBuffer := 4
  banPhrases := [[116, 97, 120], [98, 99, 100]]
  rewindCountMax := 0
  prompt := [1]
  pending := [⟨2, [116]⟩]

/-- The strings as they came: "Tax" and "bcd". -/
def taxBans : List Bytes := [[84, 97, 120], [], [98, 99, 100]]

theorem taxStart_launched : Launched taxBans taxStart where
  starts := ⟨by decide, rfl, rfl, ⟨_, rfl⟩, rfl, rfl, rfl, rfl⟩
  phrases := by
    show List.Perm [[116, 97, 120], [98, 99, 100]] (lowered taxBans)
    rw [show lowered taxBans = [[116, 97, 120], [98, 99, 100]] by decide]
  buffer := Or.inl (by decide)
  noRegex := ⟨rfl, rfl⟩
  unlimited := rfl
  noText := ⟨rfl, rfl, rfl⟩
  pieces := by
    intro t ht
    rw [List.mem_singleton.mp ht]
    exact List.cons_ne_nil _ _

/-- A token in a plain tick. -/
def tick (tok : Int) (text : Bytes) : List BanAction := [.plain ⟨tok, text⟩, .emit]

/-- "t", "a", "b", "c" fill the buffer, and "t" is sent. -/
def filled : List BanAction :=
  .emit :: (tick 3 [97] ++ tick 4 [98] ++ tick 5 [99])

/-- Then "d" completes "bcd", and the buffer is left with "a". The next tokens are "x", "y", "z"
and "w". -/
def rewound : List BanAction :=
  filled ++ tick 6 [100] ++ tick 7 [120] ++ tick 8 [121] ++ tick 9 [122] ++ tick 10 [119]

end BanSlot

end PxqLlama.Server
