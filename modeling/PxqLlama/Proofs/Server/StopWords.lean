import Mathlib.Data.List.Induction
import PxqLlama.Proofs.Server.SpecEmit

/-!
# `Proofs.Server.StopWords`: stop words and streaming

A generation should stop at the first token that completes a stop word and a character, its text
should end before the stop word, and the streamed text should be the content of the response that
is not streamed (`StopsRight`). The server looks for a stop word only where one can end in the
last token, and it keeps text back that may be the start of a stop word, so this fails in two ways:
a stop word that ends before a character that is cut off is out of the window at the next token,
and text that is kept back when the budget ends is not sent. `stopsRight_iff` says exactly when.

The run is quiet up to the first token that completes a stop word or ends the generation; the
invariant `Sent` says what was sent of the text until then.
-/

namespace PxqLlama.Server

open Utf8

/-! ### The statement -/

/-- The text of the first tokens. -/
def textAt (ts : List TokenOutput) (k : Nat) : Bytes := pieces (ts.take k)

/-- A stop word and a character are complete. -/
def Completes (words : List Bytes) (text : Bytes) : Prop :=
  validateUtf8 text = text.length ∧ Occurs words text

/-- The earliest place of a stop word. -/
def IsFirst (words : List Bytes) (text : Bytes) (s : Nat) : Prop :=
  (∃ w ∈ words, OccursAt text w s) ∧ ∀ w ∈ words, ∀ q, OccursAt text w q → s ≤ q

/-- The slot of a request that streams or not. -/
def EmitSlot.withStream (slot : EmitSlot) (stream : Bool) : EmitSlot :=
  { slot with params := { slot.params with stream := stream } }

/-- Stop words and streaming agree on the tokens. -/
def StopsRight (srv : ServerCtx) (slot : EmitSlot) (ts : List TokenOutput) : Prop :=
  let words := slot.params.antiprompt
  let (streamed, k, next) := plainRun srv (slot.withStream true) ts
  let (full, _, _) := plainRun srv (slot.withStream false) ts
  if next then ∀ j ≤ ts.length, ¬ Completes words (textAt ts j)
  else
    (Occurs words (textAt ts k) →
      Completes words (textAt ts k) ∧ (∀ j < k, ¬ Completes words (textAt ts j)) ∧
        ∃ s, IsFirst words (textAt ts k) s ∧ streamed.generatedText = (textAt ts k).take s) ∧
    (¬ Occurs words (textAt ts k) → streamed.generatedText = textAt ts k) ∧
    streamed.partials.flatten = (sendFinalResponse full).content

/-- The token ends the generation without a stop word. -/
def EndsAt (srv : ServerCtx) (slot : EmitSlot) (ts : List TokenOutput) (i : Nat) : Prop :=
  ∃ t, ts[i]? = some t ∧
    (srv.isEog t.tok = true ∨ slot.limited srv (slot.nDecoded + i + 1) = true)

/-- The first place of a stop word ends in the last token or right before it, and not in a
character. -/
def FirstInWindow (words : List Bytes) (ts : List TokenOutput) (i : Nat) : Prop :=
  ∃ s, IsFirst words (textAt ts (i + 1)) s ∧
    (∃ w ∈ words, OccursAt (textAt ts (i + 1)) w s ∧ (textAt ts i).length ≤ s + w.length) ∧
    visible ((textAt ts (i + 1)).take s) = (textAt ts (i + 1)).take s

/-- The text may be sent after the token `k`: it ends with a whole character, and not with the
start of a stop word unless the last token ends the generation. -/
def Sendable (words : List Bytes) (eog : Bool) (ts : List TokenOutput) (k : Nat) : Prop :=
  validateUtf8 (textAt ts k) = (textAt ts k).length ∧
    (EndsClean words (textAt ts k) ∨ (k = ts.length ∧ eog = true))

/-- All that is visible of the text was sent with its last token: the text has no stop word, and
after some token it was just the visible text and could be sent. -/
def AllSent (words : List Bytes) (eog : Bool) (ts : List TokenOutput) : Prop :=
  ¬ Occurs words (pieces ts) ∧
    ∃ k ≤ ts.length, textAt ts k = visible (pieces ts) ∧ Sendable words eog ts k

/-- The first token that completes a stop word, if nothing ended the generation before it, has the
first place of a stop word in the window of its search. -/
def CompletionsSeen (srv : ServerCtx) (slot : EmitSlot) (ts : List TokenOutput) : Prop :=
  ∀ i < ts.length, Completes slot.params.antiprompt (textAt ts (i + 1)) →
    (∀ k ≤ i, ¬ Completes slot.params.antiprompt (textAt ts k)) →
    (∀ j < i, ¬ EndsAt srv slot ts j) → FirstInWindow slot.params.antiprompt ts i

/-- When the generation ends without a stop word, all of its text was sent. -/
def EndsSent (srv : ServerCtx) (slot : EmitSlot) (ts : List TokenOutput) : Prop :=
  ∀ (i : Nat) t, ts[i]? = some t → EndsAt srv slot ts i → (∀ j < i, ¬ EndsAt srv slot ts j) →
    (∀ k ≤ i + 1, ¬ Completes slot.params.antiprompt (textAt ts k)) →
    AllSent slot.params.antiprompt (srv.isEog t.tok) (ts.take (i + 1))

/-! ### Texts of tokens -/

theorem pieces_append (ts us : List TokenOutput) : pieces (ts ++ us) = pieces ts ++ pieces us :=
  List.flatMap_append ..

theorem pieces_concat (ts : List TokenOutput) (t : TokenOutput) :
    pieces (ts ++ [t]) = pieces ts ++ t.textToSend := by
  rw [pieces_append]
  simp [pieces]

theorem textAt_length (ts : List TokenOutput) : textAt ts ts.length = pieces ts := by
  rw [textAt, List.take_length]

variable {k : Nat} {words : List Bytes} {more : Bytes} {e : Emission}

theorem textAt_append {ts : List TokenOutput} (hk : k ≤ ts.length) (us : List TokenOutput) :
    textAt (ts ++ us) k = textAt ts k := by
  rw [textAt, textAt, List.take_append_of_le_length hk]

/-- The text of the first tokens is a start of the text. -/
theorem textAt_initial (ts : List TokenOutput) {j : Nat} (hjk : j ≤ k) :
    textAt ts j <+: textAt ts k := by
  have hsplit : ts.take k = ts.take j ++ (ts.take k).drop j := by
    have h := (List.take_append_drop j (ts.take k)).symm
    rwa [List.take_take, Nat.min_eq_left hjk] at h
  rw [textAt, textAt, hsplit, pieces_append]
  exact List.prefix_append _ _

theorem Occurs.mono {text : Bytes} (h : Occurs words text) (hpre : text <+: more) :
    Occurs words more := by
  obtain ⟨w, hw, s, hs⟩ := h
  obtain ⟨rest, rfl⟩ := hpre
  exact ⟨w, hw, s, hs.append rest⟩

/-! ### What was sent -/

/-- The text of a slot after tokens that did not end the generation, of which `eog` is about the
last: it was sent up to the last point where it could be. -/
structure Sent (p : SlotParams) (eog : Bool) (ts : List TokenOutput) (st : TextState) : Prop where
  text : st.text = pieces ts
  hit : st.hit = false
  sent : st.sent = if p.stream then (pieces ts).take st.nSent else []
  sentAt : ∃ k ≤ ts.length, st.nSent = (textAt ts k).length ∧ Sendable p.antiprompt eog ts k
  all : ∀ k ≤ ts.length, Sendable p.antiprompt eog ts k → (textAt ts k).length ≤ st.nSent

/-- No tokens complete a stop word and a character. -/
def Quiet (words : List Bytes) (ts : List TokenOutput) : Prop :=
  ∀ k ≤ ts.length, ¬ Completes words (textAt ts k)

section
variable {p : SlotParams} {ts : List TokenOutput} {st : TextState}

variable {t : TokenOutput}

theorem sendable_concat {eog : Bool} (hk : k ≤ ts.length) :
    Sendable words eog (ts ++ [t]) k ↔ Sendable words false ts k := by
  rw [Sendable, Sendable, textAt_append hk, List.length_append, List.length_singleton]
  simp only [Bool.false_eq_true, and_false, or_false]
  refine and_congr_right fun _ => or_iff_left fun h => ?_
  omega

/-- What was sent is a clean start of the text. -/
theorem Sent.split (h : Sent p false ts st) :
    ∃ before rest, pieces ts = before ++ rest ∧ st.nSent = before.length ∧
      EndsClean p.antiprompt before ∧ validateUtf8 before = before.length ∧
      ∃ k ≤ ts.length, before = textAt ts k := by
  obtain ⟨k, hk, hsent, hvalid, hclean⟩ := h.sentAt
  obtain ⟨rest, hrest⟩ := textAt_initial ts hk
  rw [textAt_length] at hrest
  exact ⟨textAt ts k, rest, hrest.symm, hsent,
    hclean.resolve_right (fun h => absurd h.2 Bool.false_ne_true), hvalid, k, hk, rfl⟩

theorem textAt_concat (ts : List TokenOutput) (t : TokenOutput) :
    textAt (ts ++ [t]) (ts.length + 1) = pieces (ts ++ [t]) := by
  have h := textAt_length (ts ++ [t])
  rwa [List.length_append, List.length_singleton] at h

theorem le_length_concat (hk : k ≤ (ts ++ [t]).length) : k ≤ ts.length ∨ k = ts.length + 1 := by
  rw [List.length_append, List.length_singleton] at hk
  omega

theorem Sent.nSent_le (h : Sent p false ts st) : st.nSent ≤ (pieces ts).length := by
  obtain ⟨before, rest, hsplit, hsent, -⟩ := h.split
  rw [hsent, hsplit, List.length_append]
  omega

theorem Sent.take_concat (h : Sent p false ts st) (t : TokenOutput) :
    (pieces (ts ++ [t])).take st.nSent = (pieces ts).take st.nSent := by
  rw [pieces_concat, List.take_append_of_le_length h.nSent_le]

/-- The points up to which the text was sent are the same with one more token. -/
theorem Sent.sentAt_concat (h : Sent p false ts st) (eog : Bool) (t : TokenOutput) :
    (∃ k ≤ (ts ++ [t]).length, st.nSent = (textAt (ts ++ [t]) k).length ∧
      Sendable p.antiprompt eog (ts ++ [t]) k) ∧
      ∀ k ≤ ts.length, Sendable p.antiprompt eog (ts ++ [t]) k →
        (textAt (ts ++ [t]) k).length ≤ st.nSent := by
  constructor
  · obtain ⟨k, hk, hn, hsendable⟩ := h.sentAt
    refine ⟨k, ?_, by rw [textAt_append hk, hn], (sendable_concat hk).mpr hsendable⟩
    rw [List.length_append]
    omega
  · intro k hk hsendable
    rw [textAt_append hk]
    exact h.all k hk ((sendable_concat hk).mp hsendable)

/-- A token that ends in a character: nothing is sent. -/
theorem Sent.step_cut (h : Sent p false ts st) (eog : Bool)
    (hcut : validateUtf8 (pieces (ts ++ [t])) < (pieces (ts ++ [t])).length) :
    Sent p eog (ts ++ [t]) (st.step p eog t.textToSend) := by
  obtain ⟨hbefore, hall⟩ := h.sentAt_concat eog t
  have htext : st.text ++ t.textToSend = pieces (ts ++ [t]) := by rw [h.text, pieces_concat]
  rw [step_of_cut (by rwa [htext])]
  refine ⟨htext, h.hit, by rw [h.sent, h.take_concat t], hbefore, fun k hk hsendable => ?_⟩
  rcases le_length_concat hk with hk | rfl
  · exact hall k hk hsendable
  · rw [← textAt_concat] at hcut
    exact absurd hsendable.1 (Nat.ne_of_lt hcut)

/-- The text that is held back, in terms of the whole text. -/
theorem Sent.held_iff (h : Sent p false ts st) (eog : Bool) (t : TokenOutput) :
    ({ st with text := pieces (ts ++ [t]) } : TextState).unsent
        = (pieces (ts ++ [t])).drop st.nSent ∧
      (({ st with text := pieces (ts ++ [t]) } : TextState).held p eog = true ↔
        eog = false ∧ ¬ EndsClean p.antiprompt (pieces (ts ++ [t]))) := by
  obtain ⟨before, rest, hsplit, hsent, hclean, -, -⟩ := h.split
  have hunsent : ({ st with text := pieces (ts ++ [t]) } : TextState).unsent
      = (pieces (ts ++ [t])).drop st.nSent := by
    have hfits : st.nSent ≤ (pieces (ts ++ [t])).length := by
      have := h.nSent_le
      rw [pieces_concat, List.length_append]
      omega
    rw [TextState.unsent]
    simp only [Nat.min_eq_left hfits]
  have hends : EndsClean p.antiprompt (pieces (ts ++ [t])) ↔
      EndsClean p.antiprompt ((pieces (ts ++ [t])).drop st.nSent) := by
    rw [pieces_concat, hsplit, hsent, List.append_assoc, List.drop_left]
    exact endsClean_append hclean
  refine ⟨hunsent, ?_⟩
  rw [TextState.held, hunsent, Bool.and_eq_true, Bool.not_eq_true',
    findStoppingStrings_partial_isSome, hends]

/-- A token that ends with a whole character, in a text without a stop word: the text is sent, or
held back. -/
theorem Sent.step_whole (h : Sent p false ts st) (eog : Bool)
    (hvalid : validateUtf8 (pieces (ts ++ [t])) = (pieces (ts ++ [t])).length)
    (hnoword : ¬ Occurs p.antiprompt (pieces (ts ++ [t]))) :
    Sent p eog (ts ++ [t]) (st.step p eog t.textToSend) := by
  obtain ⟨hbefore, hall⟩ := h.sentAt_concat eog t
  obtain ⟨hunsent, hheld⟩ := h.held_iff eog t
  have htext : st.text ++ t.textToSend = pieces (ts ++ [t]) := by rw [h.text, pieces_concat]
  have hfits : st.nSent ≤ (pieces (ts ++ [t])).length := by
    have := h.nSent_le
    rw [pieces_concat, List.length_append]
    omega
  have hlength : (pieces (ts ++ [t])).length
      = st.nSent + ((pieces (ts ++ [t])).drop st.nSent).length := by
    rw [List.length_drop]
    omega
  -- the search finds nothing, as there is no stop word in the text
  have hnone : findStoppingStrings p.antiprompt
      ({ st with text := st.text ++ t.textToSend } : TextState).unsent t.textToSend.length true
      = none := by
    rw [htext, hunsent]
    rw [pieces_concat] at hfits hnoword ⊢
    rw [findStoppingStrings_full_eq_none hfits]
    exact fun w hw s hwindow => hnoword ⟨w, hw, s, hwindow.1⟩
  have hcut : ¬ validateUtf8 (st.text ++ t.textToSend) < (st.text ++ t.textToSend).length := by
    rw [htext, hvalid]
    exact Nat.lt_irrefl _
  rw [step_of_none hcut hnone, htext, TextState.flush, hunsent]
  by_cases hkept : ({ st with text := pieces (ts ++ [t]) } : TextState).held p eog = true
  · rw [if_pos hkept]
    rw [hheld] at hkept
    refine ⟨rfl, h.hit, ?_, hbefore, fun k hk hsendable => ?_⟩
    · simp only [List.append_nil, ite_self, List.length_nil, Nat.add_zero, h.sent, h.take_concat t]
    · rcases le_length_concat hk with hk | rfl
      · exact hall k hk hsendable
      · rcases hsendable.2 with hclean | ⟨-, heog⟩
        · rw [textAt_concat] at hclean
          exact absurd hclean hkept.2
        · rw [hkept.1] at heog
          exact absurd heog Bool.false_ne_true
  · rw [if_neg hkept]
    rw [hheld, not_and_or, not_not, Bool.not_eq_false] at hkept
    have hlast : ts.length + 1 = (ts ++ [t]).length := by
      rw [List.length_append, List.length_singleton]
    refine ⟨rfl, h.hit, ?_, ⟨ts.length + 1, Nat.le_of_eq hlast, ?_, ?_, ?_⟩, fun k hk _ => ?_⟩
    · -- all of the text is sent
      simp only [h.sent, ← h.take_concat t, ← hlength, List.take_length]
      split
      · exact List.take_append_drop _ _
      · rfl
    · rw [textAt_concat, hlength]
    · rw [textAt_concat]
      exact hvalid
    · rw [textAt_concat]
      rcases hkept with heog | hclean
      · exact Or.inr ⟨hlast, heog⟩
      · exact Or.inl hclean
    · have hle := (textAt_initial (ts ++ [t]) hk).length_le
      rw [textAt_length] at hle
      rw [← hlength]
      exact hle

/-- A token that completes no stop word. -/
theorem Sent.step (h : Sent p false ts st)
    (hquiet : ¬ Completes p.antiprompt (pieces (ts ++ [t]))) (eog : Bool) :
    Sent p eog (ts ++ [t]) (st.step p eog t.textToSend) := by
  by_cases hcut : validateUtf8 (pieces (ts ++ [t])) < (pieces (ts ++ [t])).length
  · exact h.step_cut eog hcut
  · have hvalid := Nat.le_antisymm (validateUtf8_le _) (Nat.not_lt.mp hcut)
    exact h.step_whole eog hvalid fun hocc => hquiet ⟨hvalid, hocc⟩

/-- A stop word that no token before completed begins behind what was sent. -/
theorem Sent.nSent_le_of_occursAt (h : Sent p false ts st) (hquiet : Quiet p.antiprompt ts)
    {w : Bytes} (hw : w ∈ p.antiprompt) {s : Nat} (hocc : OccursAt (pieces (ts ++ [t])) w s) :
    st.nSent ≤ s := by
  obtain ⟨before, rest, hsplit, hsent, hclean, hvalid, k, hk, rfl⟩ := h.split
  rw [pieces_concat, hsplit, List.append_assoc] at hocc
  rw [hsent]
  by_cases hend : s + w.length ≤ (textAt ts k).length
  · exact absurd ⟨hvalid, w, hw, s, hocc.of_append hend⟩ (hquiet k hk)
  · exact hclean.le_of_occursAt hw hocc (by omega)

/-- A place of a stop word that the search sees: the word ends in the last token, or right before
it. -/
def SeenAt (words : List Bytes) (ts : List TokenOutput) (t : TokenOutput) (s : Nat) : Prop :=
  ∃ w ∈ words, OccursAt (pieces (ts ++ [t])) w s ∧ (pieces ts).length ≤ s + w.length

/-- The window of the search behind what was sent. -/
theorem Sent.inWindow_iff (h : Sent p false ts st) (hquiet : Quiet p.antiprompt ts)
    (t : TokenOutput) {w : Bytes} (hw : w ∈ p.antiprompt) (s : Nat) :
    InWindow st.text t.textToSend w st.nSent s ↔
      OccursAt (pieces (ts ++ [t])) w s ∧ (pieces ts).length ≤ s + w.length := by
  rw [InWindow, h.text, ← pieces_concat]
  constructor
  · rintro ⟨hocc, -, hend⟩
    exact ⟨hocc, hend⟩
  · rintro ⟨hocc, hend⟩
    exact ⟨hocc, h.nSent_le_of_occursAt hquiet hw hocc, hend⟩

theorem Sent.nSent_le_concat (h : Sent p false ts st) (t : TokenOutput) :
    st.nSent ≤ (st.text ++ t.textToSend).length := by
  have := h.nSent_le
  rw [h.text, List.length_append]
  omega

/-- The text that a token leaves to send. -/
theorem Sent.unsent_concat (h : Sent p false ts st) (t : TokenOutput) :
    ({ st with text := st.text ++ t.textToSend } : TextState).unsent
      = (st.text ++ t.textToSend).drop st.nSent := by
  rw [TextState.unsent]
  simp only [Nat.min_eq_left (h.nSent_le_concat t)]

/-- A token with which the search sees no stop word. -/
theorem Sent.step_unseen (h : Sent p false ts st) (hquiet : Quiet p.antiprompt ts) (eog : Bool)
    (hunseen : ∀ s, ¬ SeenAt p.antiprompt ts t s) : (st.step p eog t.textToSend).hit = false := by
  by_cases hcut : validateUtf8 (st.text ++ t.textToSend) < (st.text ++ t.textToSend).length
  · rw [step_of_cut hcut]
    exact h.hit
  · have hnone : findStoppingStrings p.antiprompt
        ({ st with text := st.text ++ t.textToSend } : TextState).unsent t.textToSend.length true
        = none := by
      rw [h.unsent_concat, findStoppingStrings_full_eq_none (h.nSent_le_concat t)]
      intro w hw s hwindow
      exact hunseen s ⟨w, hw, (h.inWindow_iff hquiet t hw s).mp hwindow⟩
    rw [step_of_none hcut hnone]
    exact h.hit

/-- A token with which the search sees a stop word: the text ends before the first that it
sees. -/
theorem Sent.step_seen (h : Sent p false ts st) (hquiet : Quiet p.antiprompt ts) (eog : Bool)
    (hvalid : validateUtf8 (pieces (ts ++ [t])) = (pieces (ts ++ [t])).length)
    (hseen : ∃ s, SeenAt p.antiprompt ts t s) :
    ∃ s, SeenAt p.antiprompt ts t s ∧ (∀ q, SeenAt p.antiprompt ts t q → s ≤ q) ∧
      (st.step p eog t.textToSend).hit = true ∧
      (st.step p eog t.textToSend).text = (pieces (ts ++ [t])).take s ∧
      (st.step p eog t.textToSend).sent
        = if p.stream then (pieces (ts ++ [t])).take s else [] := by
  have htext : st.text ++ t.textToSend = pieces (ts ++ [t]) := by rw [h.text, pieces_concat]
  have hcut : ¬ validateUtf8 (st.text ++ t.textToSend) < (st.text ++ t.textToSend).length := by
    rw [htext, hvalid]
    exact Nat.lt_irrefl _
  have hfits := h.nSent_le_concat t
  cases hfind : findStoppingStrings p.antiprompt
      ({ st with text := st.text ++ t.textToSend } : TextState).unsent t.textToSend.length true with
  | none =>
    rw [h.unsent_concat, findStoppingStrings_full_eq_none hfits] at hfind
    obtain ⟨s, w, hw, hocc⟩ := hseen
    exact absurd ((h.inWindow_iff hquiet t hw s).mpr hocc) (hfind w hw s)
  | some stop =>
    obtain ⟨q, w⟩ := stop
    have hstep := step_of_some eog hcut hfind
    rw [h.unsent_concat] at hfind
    obtain ⟨hw, hwindow, hfirst⟩ := findStoppingStrings_full_eq_some hfits hfind
    have hocc := (h.inWindow_iff hquiet t hw _).mp hwindow
    refine ⟨st.nSent + q, ⟨w, hw, hocc⟩, ?_, ?_, ?_, ?_⟩
    · rintro r ⟨v, hv, hr⟩
      exact hfirst v hv r ((h.inWindow_iff hquiet t hv r).mpr hr)
    · rw [hstep]
    · rw [hstep, ← htext]
      simp only [Nat.min_eq_left hfits]
    · have hle : st.nSent + q ≤ (st.text ++ t.textToSend).length := by
        rw [htext]
        exact hocc.1.2
      rw [hstep, htext]
      rw [htext] at hfits hle
      simp only [Nat.min_eq_left hfits, List.length_take, Nat.min_eq_left hle,
        Nat.min_eq_left (Nat.le_add_right st.nSent q), h.sent, ← h.take_concat t]
      split
      · -- what was sent, and what is sent now
        have hsplit := List.take_append_drop st.nSent ((pieces (ts ++ [t])).take (st.nSent + q))
        rwa [List.take_take, Nat.min_eq_left (Nat.le_add_right st.nSent q)] at hsplit
      · rfl

end

/-! ### The run up to the first event -/

theorem sent_nil (p : SlotParams) : Sent p false [] {} := by
  have hnil : ∀ k, textAt [] k = [] := fun k => by
    rw [textAt, List.take_nil]
    rfl
  refine ⟨rfl, rfl, ?_, ⟨0, Nat.le_refl _, ?_, ?_, ?_⟩, fun k _ _ => ?_⟩
  · rw [List.take_zero, ite_self]
  · rw [hnil]
    rfl
  · rw [hnil]
    rfl
  · rw [hnil]
    exact Or.inl fun w _ x _ hx => List.suffix_nil.mp hx
  · rw [hnil]
    exact Nat.le_refl _

section
variable {p : SlotParams} {isEog : Int → Bool} {lim : Int → Bool} {n : Int}

theorem Quiet.of_concat {ts : List TokenOutput} {t : TokenOutput} (h : Quiet words (ts ++ [t])) :
    Quiet words ts ∧ ¬ Completes words (pieces (ts ++ [t])) := by
  constructor
  · intro k hk
    have hne := h k (by rw [List.length_append]; omega)
    rwa [textAt_append hk] at hne
  · have hne := h (ts.length + 1) (by simp)
    rwa [textAt_concat] at hne

/-- Tokens that do not end the generation: the run goes on behind them. -/
theorem emit_quiet_initial {ts : List TokenOutput} (hquiet : Quiet p.antiprompt ts)
    (hends : ∀ (i : Nat) t, ts[i]? = some t → isEog t.tok = false ∧ lim (n + i + 1) = false) :
    ∃ st, Sent p false ts st ∧ ∀ rest,
      emit p isEog {} (plainLimits lim n (ts ++ rest))
        = (emit p isEog st (plainLimits lim (n + ts.length) rest)).map
            fun r => (r.1 + ts.length, r.2) := by
  induction ts using List.reverseRecOn with
  | nil =>
    refine ⟨{}, sent_nil p, fun rest => ?_⟩
    simp
  | append_singleton ts t ih =>
    obtain ⟨hbefore, hlast⟩ := hquiet.of_concat
    obtain ⟨st, hsent, hrun⟩ := ih hbefore fun i u hu => hends i u (by
      rw [List.getElem?_append_left (List.getElem?_eq_some_iff.mp hu).1, hu])
    obtain ⟨heog, hlim⟩ := hends ts.length t (by simp)
    have hstep := hsent.step hlast false
    refine ⟨st.step p false t.textToSend, hstep, fun rest => ?_⟩
    have hnext : ((st.step p (isEog t.tok) t.textToSend).hit || lim (n + ts.length + 1) ||
        isEog t.tok) = false := by
      rw [heog, hlim, hstep.hit]
      rfl
    rw [List.append_assoc, List.singleton_append, hrun, plainLimits, emit_cons_next hnext,
      Option.map_map, heog, List.length_append, List.length_singleton]
    have hcount : n + (ts.length : Int) + 1 = n + ((ts.length + 1 : Nat) : Int) := by
      push_cast
      omega
    rw [hcount]
    refine congrArg (Option.map · _) (funext fun r => ?_)
    simp only [Function.comp_apply, Prod.mk.injEq, and_true]
    omega

/-- A run ends after a token, not before it. -/
theorem emit_count_pos {st : TextState} {tl : List (TokenOutput × Bool)}
    (h : emit p isEog st tl = some (k, e)) : 1 ≤ k := by
  cases tl with
  | nil => exact absurd h (by simp [emit])
  | cons t tl =>
    obtain ⟨t, lim⟩ := t
    cases hends : ((st.step p (isEog t.tok) t.textToSend).hit || lim || isEog t.tok) with
    | true =>
      rw [emit_cons_ends hends, Option.some_inj, Prod.mk.injEq] at h
      exact Nat.le_of_eq h.1
    | false =>
      rw [emit_cons_next hends, Option.map_eq_some_iff] at h
      obtain ⟨r, -, hr⟩ := h
      have := congrArg Prod.fst hr
      simp only at this
      omega

end

/-! ### The runs of a slot -/

/-- A slot at the start of a request. -/
structure EmitSlot.Fresh (srv : ServerCtx) (slot : EmitSlot) : Prop where
  live : slot.Live srv
  nDecoded : 0 ≤ slot.nDecoded
  text : slot.generatedText = []
  nSentText : slot.nSentText = 0
  partials : slot.partials = []

/-- The run of the text for a request that streams or not. -/
def streamRun (srv : ServerCtx) (slot : EmitSlot) (ts : List TokenOutput) (stream : Bool) :
    Option (Nat × Emission) :=
  emit (slot.withStream stream).params srv.isEog {}
    (plainLimits (slot.limited srv) slot.nDecoded ts)

section
variable {srv : ServerCtx} {slot : EmitSlot}

theorem plainRun_withStream (h : slot.Fresh srv) (ts : List TokenOutput) (stream : Bool) :
    (if (plainRun srv (slot.withStream stream) ts).2.2 then none
      else some ((plainRun srv (slot.withStream stream) ts).2.1,
        (plainRun srv (slot.withStream stream) ts).1.emission))
      = streamRun srv slot ts stream := by
  have hlive : (slot.withStream stream).Live srv :=
    ⟨h.live.eos, h.live.word, h.live.limit, h.live.softfail⟩
  have hstate : (slot.withStream stream).textState = {} := by
    rw [EmitSlot.textState, EmitSlot.withStream]
    simp only [h.text, h.nSentText, h.partials, h.live.word, List.flatten_nil]
  rw [plainRun_eq_emit hlive h.nDecoded, hstate]
  rfl

/-- A run that goes on is right when no stop word was completed. -/
theorem stopsRight_of_none (h : slot.Fresh srv) {ts : List TokenOutput}
    (hrun : streamRun srv slot ts true = none) :
    StopsRight srv slot ts ↔
      ∀ j ≤ ts.length, ¬ Completes slot.params.antiprompt (textAt ts j) := by
  have hplain := (plainRun_withStream h ts true).trans hrun
  have hnext : (plainRun srv (slot.withStream true) ts).2.2 = true := by
    by_contra hne
    rw [if_neg hne] at hplain
    exact absurd hplain (by simp)
  rw [StopsRight]
  simp only [hnext, if_true]

/-- What makes a run right that ends. -/
def EndsRight (words : List Bytes) (ts : List TokenOutput) (k : Nat) (text : Bytes) : Prop :=
  (Occurs words (textAt ts k) →
    Completes words (textAt ts k) ∧ (∀ j < k, ¬ Completes words (textAt ts j)) ∧
      ∃ s, IsFirst words (textAt ts k) s ∧ text = (textAt ts k).take s) ∧
  (¬ Occurs words (textAt ts k) → text = textAt ts k)

/-- Both runs generate alike. -/
theorem plainRun_of_some (h : slot.Fresh srv) {ts : List TokenOutput} {stream : Bool}
    (hrun : streamRun srv slot ts stream = some (k, e)) :
    (plainRun srv (slot.withStream stream) ts).2.2 = false ∧
      (plainRun srv (slot.withStream stream) ts).2.1 = k ∧
      (plainRun srv (slot.withStream stream) ts).1.emission = e := by
  have hplain := (plainRun_withStream h ts stream).trans hrun
  cases hnext : (plainRun srv (slot.withStream stream) ts).2.2 with
  | true =>
    rw [hnext, if_pos rfl] at hplain
    exact absurd hplain (by simp)
  | false =>
    rw [hnext, if_neg Bool.false_ne_true, Option.some_inj, Prod.mk.injEq] at hplain
    exact ⟨rfl, hplain.1, hplain.2⟩

theorem StopsRight.endsRight (h : slot.Fresh srv) {ts : List TokenOutput}
    (hright : StopsRight srv slot ts) (hrun : streamRun srv slot ts true = some (k, e)) :
    EndsRight slot.params.antiprompt ts k e.text := by
  obtain ⟨hnext, rfl, rfl⟩ := plainRun_of_some h hrun
  rw [StopsRight] at hright
  simp only [hnext, Bool.false_eq_true, if_false] at hright
  exact ⟨hright.1, hright.2.1⟩

/-- What the two runs emit, compared at their ends. -/
theorem stopsRight_of_some (h : slot.Fresh srv) {ts : List TokenOutput} {k' : Nat} {e' : Emission}
    (hrun : streamRun srv slot ts true = some (k, e))
    (hrun' : streamRun srv slot ts false = some (k', e')) :
    StopsRight srv slot ts ↔
      EndsRight slot.params.antiprompt ts k e.text ∧ e.sent = visible e'.text := by
  obtain ⟨hnext, rfl, rfl⟩ := plainRun_of_some h hrun
  obtain ⟨-, -, rfl⟩ := plainRun_of_some h hrun'
  -- a response that is not streamed has the text in its content
  have hcontent : (sendFinalResponse (plainRun srv (slot.withStream false) ts).1).content
      = visible (plainRun srv (slot.withStream false) ts).1.generatedText := by
    rw [sendFinalResponse]
    simp only [plainRun_params]
    exact if_neg Bool.false_ne_true
  rw [StopsRight]
  simp only [hnext, Bool.false_eq_true, if_false, hcontent]
  exact and_assoc.symm

/-! ### The first event -/

variable {ts : List TokenOutput} {t : TokenOutput}

/-- No token ends the generation without a stop word. -/
def NoEnd (srv : ServerCtx) (slot : EmitSlot) (ts : List TokenOutput) : Prop :=
  ∀ (i : Nat) t, ts[i]? = some t →
    srv.isEog t.tok = false ∧ slot.limited srv (slot.nDecoded + i + 1) = false

/-- A run up to a token after quiet ones. -/
theorem streamRun_concat (hquiet : Quiet slot.params.antiprompt ts) (hends : NoEnd srv slot ts)
    (t : TokenOutput) (rest : List TokenOutput) (stream : Bool) :
    ∃ st, Sent (slot.withStream stream).params false ts st ∧
      streamRun srv slot (ts ++ t :: rest) stream
        = (emit (slot.withStream stream).params srv.isEog st
            ((t, slot.limited srv (slot.nDecoded + ts.length + 1)) ::
              plainLimits (slot.limited srv) (slot.nDecoded + ts.length + 1) rest)).map
            fun r => (r.1 + ts.length, r.2) := by
  obtain ⟨st, hsent, hrun⟩ := @emit_quiet_initial (slot.withStream stream).params srv.isEog
    (slot.limited srv) slot.nDecoded ts hquiet hends
  exact ⟨st, hsent, hrun (t :: rest)⟩

/-- A token that ends the generation without a stop word. -/
theorem streamRun_ends (hquiet : Quiet slot.params.antiprompt ts) (hends : NoEnd srv slot ts)
    (hnone : ¬ Completes slot.params.antiprompt (pieces (ts ++ [t])))
    (hend : srv.isEog t.tok = true ∨
      slot.limited srv (slot.nDecoded + ts.length + 1) = true)
    (rest : List TokenOutput) (stream : Bool) :
    ∃ st kind, Sent (slot.withStream stream).params (srv.isEog t.tok) (ts ++ [t]) st ∧
      streamRun srv slot (ts ++ t :: rest) stream
        = some (ts.length + 1, ⟨st.text, st.sent, kind⟩) := by
  obtain ⟨st, hsent, hrun⟩ := streamRun_concat hquiet hends t rest stream
  have hstep := hsent.step hnone (srv.isEog t.tok)
  refine ⟨_, stopReason (srv.isEog t.tok) false, hstep, ?_⟩
  have hnow : ((st.step (slot.withStream stream).params (srv.isEog t.tok) t.textToSend).hit ||
      slot.limited srv (slot.nDecoded + ts.length + 1) || srv.isEog t.tok) = true := by
    rcases hend with heog | hlim
    · rw [heog, Bool.or_true]
    · rw [hlim, Bool.or_true, Bool.true_or]
  rw [hrun, emit_cons_ends hnow, Option.map_some, Nat.add_comm, hstep.hit]

/-- A token that completes a stop word which the search sees. -/
theorem streamRun_seen (hquiet : Quiet slot.params.antiprompt ts) (hends : NoEnd srv slot ts)
    (hvalid : validateUtf8 (pieces (ts ++ [t])) = (pieces (ts ++ [t])).length)
    (hseen : ∃ s, SeenAt slot.params.antiprompt ts t s)
    (rest : List TokenOutput) (stream : Bool) :
    ∃ s kind, SeenAt slot.params.antiprompt ts t s ∧
      (∀ q, SeenAt slot.params.antiprompt ts t q → s ≤ q) ∧
      streamRun srv slot (ts ++ t :: rest) stream
        = some (ts.length + 1, ⟨(pieces (ts ++ [t])).take s,
            if stream then (pieces (ts ++ [t])).take s else [], kind⟩) := by
  obtain ⟨st, hsent, hrun⟩ := streamRun_concat hquiet hends t rest stream
  obtain ⟨s, hs, hfirst, hhit, htext, hsentText⟩ :=
    hsent.step_seen hquiet (srv.isEog t.tok) hvalid hseen
  refine ⟨s, stopReason (srv.isEog t.tok) true, hs, hfirst, ?_⟩
  rw [hrun, emit_cons_ends (by rw [hhit]; rfl), Option.map_some, Nat.add_comm, hhit, htext,
    hsentText]
  rfl

/-- A token that completes a stop word which the search does not see: the run ends at the token
with the whole text, or it goes on. -/
theorem streamRun_unseen (hquiet : Quiet slot.params.antiprompt ts) (hends : NoEnd srv slot ts)
    (hunseen : ∀ s, ¬ SeenAt slot.params.antiprompt ts t s) (rest : List TokenOutput)
    (stream : Bool) (h : streamRun srv slot (ts ++ t :: rest) stream = some (k, e)) :
    (k = ts.length + 1 ∧ e.text = pieces (ts ++ [t])) ∨ ts.length + 1 < k := by
  obtain ⟨st, hsent, hrun⟩ := streamRun_concat hquiet hends t rest stream
  have hhit := hsent.step_unseen hquiet (srv.isEog t.tok) hunseen
  rw [hrun, Option.map_eq_some_iff] at h
  obtain ⟨⟨k', e'⟩, hemit, heq⟩ := h
  obtain ⟨rfl, rfl⟩ := Prod.mk.inj heq
  generalize hlim : slot.limited srv (slot.nDecoded + ts.length + 1) = lim at hemit
  cases hnow : ((st.step (slot.withStream stream).params (srv.isEog t.tok) t.textToSend).hit ||
      lim || srv.isEog t.tok) with
  | true =>
    rw [emit_cons_ends hnow, Option.some_inj, Prod.mk.injEq] at hemit
    obtain ⟨rfl, rfl⟩ := hemit
    refine Or.inl ⟨Nat.add_comm _ _, ?_⟩
    simp only
    rw [step_text hhit, hsent.text, pieces_concat]
  | false =>
    rw [emit_cons_next hnow, Option.map_eq_some_iff] at hemit
    obtain ⟨⟨k'', e''⟩, hrest, heq'⟩ := hemit
    have hpos := emit_count_pos hrest
    have hcount := congrArg Prod.fst heq'
    simp only at hcount ⊢
    right
    omega

/-! ### Characters at the end of a text -/

/-- A start of a text that ends with a whole character is in the visible text. -/
theorem length_le_validateUtf8 {text before : Bytes} (hutf8 : IsUtf8 (text ++ more))
    (hbefore : before <+: text) (hvalid : validateUtf8 before = before.length) :
    before.length ≤ validateUtf8 text := by
  obtain ⟨whole, part, rfl, hwhole, hpart⟩ := exists_whole_part hutf8
  rw [validateUtf8_whole_part hwhole hpart]
  by_contra hlong
  rw [Nat.not_le] at hlong
  -- it would end in the character that is cut off
  obtain ⟨x, rfl⟩ := List.prefix_of_prefix_length_le (List.prefix_append whole part) hbefore
    (Nat.le_of_lt hlong)
  obtain ⟨c, hc, hpre, hlen⟩ := hpart
  have hx : x <+: part := (List.prefix_append_right_inj whole).mp hbefore
  have hxpart : IsPart x := ⟨c, hc, hx.trans hpre, Nat.lt_of_le_of_lt hx.length_le hlen⟩
  rw [validateUtf8_whole_part hwhole hxpart] at hvalid
  omega

/-- All is sent exactly when what was sent is all that is visible. -/
theorem Sent.allSent_iff {p : SlotParams} {eog : Bool} {st : TextState} (h : Sent p eog ts st)
    (hstream : p.stream = true) (hutf8 : IsUtf8 (pieces ts ++ more)) :
    (st.sent = visible (pieces ts)) ↔
      ∃ k ≤ ts.length, textAt ts k = visible (pieces ts) ∧ Sendable p.antiprompt eog ts k := by
  obtain ⟨k, hk, hn, hsendable⟩ := h.sentAt
  have hpre := textAt_initial ts hk
  rw [textAt_length] at hpre
  have htake : (pieces ts).take st.nSent = textAt ts k := by
    rw [hn]
    exact (List.prefix_iff_eq_take.mp hpre).symm
  rw [h.sent, if_pos hstream, htake]
  refine ⟨fun heq => ⟨k, hk, heq, hsendable⟩, ?_⟩
  rintro ⟨j, hj, heq, hsendable'⟩
  have hle : (visible (pieces ts)).length ≤ (textAt ts k).length := by
    rw [← heq, ← hn]
    exact h.all j hj hsendable'
  have hge : (textAt ts k).length ≤ (visible (pieces ts)).length := by
    rw [visible, List.length_take, Nat.min_eq_left (validateUtf8_le _)]
    exact length_le_validateUtf8 hutf8 hpre hsendable.1
  rw [List.prefix_iff_eq_take.mp hpre, visible]
  congr 1
  rw [visible, List.length_take, Nat.min_eq_left (validateUtf8_le _)] at hle hge
  omega

/-! ### The conditions at the first event -/

/-- The first token that completes a stop word or ends the generation. -/
structure FirstEvent (srv : ServerCtx) (slot : EmitSlot) (ts : List TokenOutput) (t : TokenOutput)
    (rest : List TokenOutput) : Prop where
  quiet : Quiet slot.params.antiprompt ts
  noEnd : NoEnd srv slot ts
  event : Completes slot.params.antiprompt (pieces (ts ++ [t])) ∨
    srv.isEog t.tok = true ∨ slot.limited srv (slot.nDecoded + ts.length + 1) = true

theorem textAt_cons (t : TokenOutput) (rest : List TokenOutput) :
    textAt (ts ++ t :: rest) (ts.length + 1) = pieces (ts ++ [t]) := by
  have hsplit : ts ++ t :: rest = (ts ++ [t]) ++ rest := by simp
  rw [hsplit, textAt_append (by simp), textAt_concat]

theorem endsAt_length (t : TokenOutput) (rest : List TokenOutput) :
    EndsAt srv slot (ts ++ t :: rest) ts.length ↔
      (srv.isEog t.tok = true ∨ slot.limited srv (slot.nDecoded + ts.length + 1) = true) := by
  rw [EndsAt]
  simp

theorem NoEnd.not_endsAt (h : NoEnd srv slot ts) {j : Nat} (hj : j < ts.length)
    (more : List TokenOutput) : ¬ EndsAt srv slot (ts ++ more) j := by
  rintro ⟨u, hu, hend⟩
  rw [List.getElem?_append_left hj] at hu
  obtain ⟨heog, hlim⟩ := h j u hu
  rw [heog, hlim] at hend
  simp at hend

variable {rest : List TokenOutput}

/-- Completed words are seen exactly when the first one ends in the window. -/
theorem FirstEvent.completionsSeen_iff (h : FirstEvent srv slot ts t rest) :
    CompletionsSeen srv slot (ts ++ t :: rest) ↔
      (Completes slot.params.antiprompt (pieces (ts ++ [t])) →
        FirstInWindow slot.params.antiprompt (ts ++ t :: rest) ts.length) := by
  constructor
  · intro hall hcomplete
    refine hall ts.length (by simp) (by rwa [textAt_cons]) (fun k hk => ?_)
      fun j hj => h.noEnd.not_endsAt hj _
    rw [textAt_append hk]
    exact h.quiet k hk
  · intro hfirst i hi hcomplete hbefore hnoend
    rcases Nat.lt_trichotomy i ts.length with hlt | rfl | hgt
    · rw [textAt_append hlt] at hcomplete
      exact absurd hcomplete (h.quiet _ hlt)
    · rw [textAt_cons] at hcomplete
      exact hfirst hcomplete
    · -- the event was before
      rcases h.event with hevent | hevent
      · have hne := hbefore (ts.length + 1) hgt
        rw [textAt_cons] at hne
        exact absurd hevent hne
      · exact absurd ((endsAt_length t rest).mpr hevent) (hnoend _ hgt)

/-- The text is sent to its end exactly when nothing is held back for a word. -/
theorem FirstEvent.endsSent_iff (h : FirstEvent srv slot ts t rest) :
    EndsSent srv slot (ts ++ t :: rest) ↔
      (¬ Completes slot.params.antiprompt (pieces (ts ++ [t])) →
        AllSent slot.params.antiprompt (srv.isEog t.tok) (ts ++ [t])) := by
  have htake : (ts ++ t :: rest).take (ts.length + 1) = ts ++ [t] := by
    have hsplit : ts ++ t :: rest = (ts ++ [t]) ++ rest := by simp
    rw [hsplit]
    exact List.take_left' (by simp)
  have hget : (ts ++ t :: rest)[ts.length]? = some t := by simp
  constructor
  · intro hall hnone
    have hsent := hall ts.length t hget ((endsAt_length t rest).mpr (h.event.resolve_left hnone))
      (fun j hj => h.noEnd.not_endsAt hj _) fun k hk => ?_
    · rwa [htake] at hsent
    · rcases Nat.lt_or_eq_of_le hk with hlt | rfl
      · rw [textAt_append (Nat.lt_succ_iff.mp hlt)]
        exact h.quiet k (Nat.lt_succ_iff.mp hlt)
      · rwa [textAt_cons]
  · intro hsent i u hu hend hbefore hnone
    rcases Nat.lt_trichotomy i ts.length with hlt | rfl | hgt
    · exact absurd hend (h.noEnd.not_endsAt hlt _)
    · have hnow := hnone (ts.length + 1) (Nat.le_refl _)
      rw [textAt_cons] at hnow
      rw [hget, Option.some_inj] at hu
      rw [htake, ← hu]
      exact hsent hnow
    · rcases h.event with hevent | hevent
      · have hne := hnone (ts.length + 1) (by omega)
        rw [textAt_cons] at hne
        exact absurd hevent hne
      · exact absurd ((endsAt_length t rest).mpr hevent) (hbefore _ hgt)

/-- There is a first event, or no token completes a stop word or ends the generation. -/
theorem exists_firstEvent (srv : ServerCtx) (slot : EmitSlot)
    (hwords : ∀ w ∈ slot.params.antiprompt, w ≠ []) (ts : List TokenOutput) :
    (Quiet slot.params.antiprompt ts ∧ NoEnd srv slot ts) ∨
      ∃ us t rest, ts = us ++ t :: rest ∧ FirstEvent srv slot us t rest := by
  induction ts using List.reverseRecOn with
  | nil =>
    left
    refine ⟨fun k hk hcomplete => ?_, fun i u hu => absurd hu (by simp)⟩
    -- an empty text has no stop word
    obtain ⟨-, w, hw, s, hocc⟩ := hcomplete
    have hlen := hocc.length_le
    rw [textAt, List.take_nil] at hlen
    exact hwords w hw (List.length_eq_zero_iff.mp (Nat.eq_zero_of_le_zero (Nat.le_trans
      (Nat.le_add_left _ _) hlen)))
  | append_singleton ts t ih =>
    rcases ih with ⟨hquiet, hnoend⟩ | ⟨us, u, rest, rfl, hfirst⟩
    · by_cases hevent : Completes slot.params.antiprompt (pieces (ts ++ [t])) ∨
          srv.isEog t.tok = true ∨ slot.limited srv (slot.nDecoded + ts.length + 1) = true
      · exact Or.inr ⟨ts, t, [], rfl, hquiet, hnoend, hevent⟩
      · rw [not_or, not_or, Bool.not_eq_true, Bool.not_eq_true] at hevent
        left
        refine ⟨fun k hk => ?_, fun i u hu => ?_⟩
        · rcases le_length_concat hk with hk | rfl
          · rw [textAt_append hk]
            exact hquiet k hk
          · rw [textAt_concat]
            exact hevent.1
        · have hi := (List.getElem?_eq_some_iff.mp hu).1
          rw [List.length_append, List.length_singleton] at hi
          rcases Nat.lt_or_eq_of_le (Nat.lt_succ_iff.mp hi) with hlt | rfl
          · rw [List.getElem?_append_left hlt] at hu
            exact hnoend i u hu
          · have hut : t = u := by simpa using hu
            rw [← hut]
            exact hevent.2
    · exact Or.inr ⟨us, u, rest ++ [t], by simp, hfirst.quiet, hfirst.noEnd, hfirst.event⟩

/-! ### The result -/

/-- A run that goes on is right. -/
theorem stopsRight_of_quiet (h : slot.Fresh srv) (hquiet : Quiet slot.params.antiprompt ts)
    (hnoend : NoEnd srv slot ts) :
    StopsRight srv slot ts ∧ CompletionsSeen srv slot ts ∧ EndsSent srv slot ts := by
  obtain ⟨st, -, hrun⟩ := @emit_quiet_initial (slot.withStream true).params srv.isEog
    (slot.limited srv) slot.nDecoded ts hquiet hnoend
  have hnone : streamRun srv slot ts true = none := by
    have hall := hrun []
    rw [List.append_nil] at hall
    exact hall
  refine ⟨(stopsRight_of_none h hnone).mpr hquiet, fun i hi hcomplete => ?_, fun i u hu hend => ?_⟩
  · exact absurd hcomplete (hquiet (i + 1) hi)
  · have hne := hnoend.not_endsAt (List.getElem?_eq_some_iff.mp hu).1 []
    rw [List.append_nil] at hne
    exact absurd hend hne

/-- The generation ends without a stop word. -/
theorem FirstEvent.stopsRight_of_end (h : slot.Fresh srv) (hevent : FirstEvent srv slot ts t rest)
    (hnone : ¬ Completes slot.params.antiprompt (pieces (ts ++ [t])))
    (hutf8 : IsUtf8 (pieces (ts ++ [t]) ++ more)) :
    StopsRight srv slot (ts ++ t :: rest) ↔
      AllSent slot.params.antiprompt (srv.isEog t.tok) (ts ++ [t]) := by
  have hend := hevent.event.resolve_left hnone
  obtain ⟨st, kind, hsent, hrun⟩ :=
    streamRun_ends hevent.quiet hevent.noEnd hnone hend rest true
  obtain ⟨st', kind', hsent', hrun'⟩ :=
    streamRun_ends hevent.quiet hevent.noEnd hnone hend rest false
  have hright : EndsRight slot.params.antiprompt (ts ++ t :: rest) (ts.length + 1)
      (pieces (ts ++ [t])) ↔ ¬ Occurs slot.params.antiprompt (pieces (ts ++ [t])) := by
    rw [EndsRight, textAt_cons]
    exact ⟨fun hboth hocc => hnone (hboth.1 hocc).1,
      fun hno => ⟨fun hocc => absurd hocc hno, fun _ => rfl⟩⟩
  rw [stopsRight_of_some h hrun hrun']
  simp only [hsent.text, hsent'.text]
  rw [hright, hsent.allSent_iff rfl hutf8]
  rfl

/-- A stop word is completed. -/
theorem FirstEvent.stopsRight_of_completes (h : slot.Fresh srv)
    (hwords : ∀ w ∈ slot.params.antiprompt, w ≠ []) (hevent : FirstEvent srv slot ts t rest)
    (hcomplete : Completes slot.params.antiprompt (pieces (ts ++ [t]))) :
    StopsRight srv slot (ts ++ t :: rest) ↔
      FirstInWindow slot.params.antiprompt (ts ++ t :: rest) ts.length := by
  have hall : textAt (ts ++ t :: rest) (ts.length + 1) = pieces (ts ++ [t]) := textAt_cons t rest
  have hbefore : textAt (ts ++ t :: rest) ts.length = pieces ts := by
    rw [textAt_append (Nat.le_refl _), textAt_length]
  by_cases hseen : ∃ s, SeenAt slot.params.antiprompt ts t s
  · -- the run ends at the first place that the search sees
    obtain ⟨s, kind, hs, hfirst, hrun⟩ :=
      streamRun_seen hevent.quiet hevent.noEnd hcomplete.1 hseen rest true
    obtain ⟨s', kind', hs', hfirst', hrun'⟩ :=
      streamRun_seen hevent.quiet hevent.noEnd hcomplete.1 hseen rest false
    obtain rfl : s = s' := Nat.le_antisymm (hfirst s' hs') (hfirst' s hs)
    have hle : s ≤ (pieces (ts ++ [t])).length := by
      obtain ⟨w, -, hocc, -⟩ := hs
      exact hocc.2
    rw [stopsRight_of_some h hrun hrun', EndsRight, FirstInWindow, hall, hbefore, if_pos rfl]
    constructor
    · rintro ⟨⟨hright, -⟩, hsent⟩
      obtain ⟨-, -, q, hq, htake⟩ := hright hcomplete.2
      have hqle : q ≤ (pieces (ts ++ [t])).length := by
        obtain ⟨⟨w, -, hocc⟩, -⟩ := hq
        exact hocc.2
      have hlen := congrArg List.length htake
      rw [List.length_take, List.length_take, Nat.min_eq_left hle, Nat.min_eq_left hqle] at hlen
      rw [← hlen] at hq
      exact ⟨s, hq, hs, hsent.symm⟩
    · rintro ⟨q, hq, hin, hvisible⟩
      -- the earliest place is in the window, so it is the one that is found
      obtain rfl : s = q := by
        refine Nat.le_antisymm (hfirst q hin) ?_
        obtain ⟨w, hw, hocc, -⟩ := hs
        exact hq.2 w hw s hocc
      refine ⟨⟨fun _ => ⟨hcomplete, fun j hj => ?_, s, hq, rfl⟩, fun hno => ?_⟩, hvisible.symm⟩
      · rw [textAt_append (Nat.lt_succ_iff.mp hj)]
        exact hevent.quiet j (Nat.lt_succ_iff.mp hj)
      · exact absurd hcomplete.2 hno
  · rw [not_exists] at hseen
    refine iff_of_false (fun hright => ?_) ?_
    · cases hrun : streamRun srv slot (ts ++ t :: rest) true with
      | none =>
        have hno := (stopsRight_of_none h hrun).mp hright (ts.length + 1) (by simp)
        rw [hall] at hno
        exact hno hcomplete
      | some r =>
        obtain ⟨k, e⟩ := r
        have hends := (hright.endsRight h hrun).1
        rcases streamRun_unseen hevent.quiet hevent.noEnd hseen rest true hrun with
          ⟨rfl, htext⟩ | hlt
        · -- the run ended here, with the stop word in its text
          rw [hall] at hends
          obtain ⟨-, -, s, ⟨⟨w, hw, hocc⟩, -⟩, htake⟩ := hends hcomplete.2
          rw [htext] at htake
          have hlen := congrArg List.length htake
          rw [List.length_take] at hlen
          have hend := hocc.length_le
          have hpos := List.length_pos_iff.mpr (hwords w hw)
          omega
        · have hmono : Occurs slot.params.antiprompt (textAt (ts ++ t :: rest) k) := by
            refine hcomplete.2.mono ?_
            rw [← hall]
            exact textAt_initial _ (Nat.le_of_lt hlt)
          have hno := (hends hmono).2.1 (ts.length + 1) hlt
          rw [hall] at hno
          exact hno hcomplete
    · rintro ⟨s, -, hin, -⟩
      rw [hall, hbefore] at hin
      exact hseen s hin

/-- For every list of stop words and every way in which tokens cut a text into pieces: stop words
and streaming agree if and only if the first token that completes a stop word has its first place
in the window, and all text was sent when the generation ends without a stop word. -/
theorem stopsRight_iff (h : slot.Fresh srv) (hwords : ∀ w ∈ slot.params.antiprompt, w ≠ [])
    (ts : List TokenOutput) {more : Bytes} (hutf8 : IsUtf8 (pieces ts ++ more)) :
    StopsRight srv slot ts ↔ CompletionsSeen srv slot ts ∧ EndsSent srv slot ts := by
  rcases exists_firstEvent srv slot hwords ts with ⟨hquiet, hnoend⟩ | ⟨us, t, rest, rfl, hevent⟩
  · obtain ⟨hright, hcond⟩ := stopsRight_of_quiet h hquiet hnoend
    exact iff_of_true hright hcond
  · rw [hevent.completionsSeen_iff, hevent.endsSent_iff]
    by_cases hcomplete : Completes slot.params.antiprompt (pieces (us ++ [t]))
    · rw [hevent.stopsRight_of_completes h hwords hcomplete]
      exact ⟨fun hin => ⟨fun _ => hin, fun hno => absurd hcomplete hno⟩,
        fun hcond => hcond.1 hcomplete⟩
    · have hsplit : pieces (us ++ t :: rest) ++ more
          = pieces (us ++ [t]) ++ (pieces rest ++ more) := by
        rw [← List.append_assoc, ← pieces_append]
        simp
      rw [hsplit] at hutf8
      rw [hevent.stopsRight_of_end h hcomplete hutf8]
      exact ⟨fun hsent => ⟨fun hcomp => absurd hcomp hcomplete, fun _ => hsent⟩,
        fun hcond => hcond.2 hcomplete⟩

end

/-! ### A stop word before a cut, and a budget that ends in one -/

/-- A request for `n` tokens with the stop word `ab`. -/
def stopSlot (n : Int) : EmitSlot :=
  { params := { antiprompt := [[0x61, 0x62]], nPredict := n, stream := true } }

theorem stopSlot_fresh (n : Int) : (stopSlot n).Fresh plainServer :=
  ⟨⟨rfl, rfl, rfl, (by decide : (0 : Int) < 16)⟩, (by decide : (0 : Int) ≤ 0), rfl, rfl, rfl⟩

/-- The tokens `xa` and `b`. -/
def splitWord : List TokenOutput := [⟨1, [0x78, 0x61]⟩, ⟨2, [0x62]⟩]

theorem isUtf8_splitWord : IsUtf8 (pieces splitWord ++ []) := by
  have hascii : ∀ {b : UInt8} {bs : Bytes}, leadLen b = 1 → IsUtf8 bs → IsUtf8 (b :: bs) :=
    fun {b} _ hb hbs => IsUtf8.append (show IsChar [b] from ⟨hb, by simp⟩) hbs
  exact hascii (by decide) (hascii (by decide) (hascii (by decide) .nil))

theorem stopsRight_splitWord :
    StopsRight plainServer (stopSlot 2) splitWord ↔
      CompletionsSeen plainServer (stopSlot 2) splitWord ∧
        EndsSent plainServer (stopSlot 2) splitWord :=
  stopsRight_iff (stopSlot_fresh 2) (by decide) splitWord isUtf8_splitWord

/-- The tokens `a`, `b` with the first byte of `é`, and its second byte. -/
def cutWord : List TokenOutput := [⟨1, [0x61]⟩, ⟨2, [0x62, 0xC3]⟩, ⟨3, [0xA9]⟩]

/-- The tokens `x` and `a`. -/
def heldWord : List TokenOutput := [⟨1, [0x78]⟩, ⟨2, [0x61]⟩]

/-- The stop word in `abé` is not found, and of `xa` only `x` is streamed. -/
theorem stop_word_missed_and_text_lost :
    ¬ StopsRight plainServer (stopSlot 3) cutWord ∧
      ¬ StopsRight plainServer (stopSlot 2) heldWord := by
  constructor
  · intro h
    rw [StopsRight] at h
    have hnext : (plainRun plainServer ((stopSlot 3).withStream true) cutWord).2.2 = false := by
      decide +kernel
    have hcount : (plainRun plainServer ((stopSlot 3).withStream true) cutWord).2.1 = 3 := by
      decide +kernel
    simp only [hnext, Bool.false_eq_true, if_false, hcount] at h
    have hocc : OccursAt (textAt cutWord 3) [0x61, 0x62] 0 := ⟨by decide, by decide⟩
    obtain ⟨-, -, s, hs, htext⟩ := h.1 ⟨_, List.mem_cons_self, 0, hocc⟩
    have hzero : s = 0 := Nat.le_zero.mp (hs.2 _ List.mem_cons_self 0 hocc)
    rw [hzero, List.take_zero] at htext
    exact absurd htext (by decide +kernel)
  · intro h
    rw [StopsRight] at h
    have hnext : (plainRun plainServer ((stopSlot 2).withStream true) heldWord).2.2 = false := by
      decide +kernel
    simp only [hnext, Bool.false_eq_true, if_false] at h
    exact absurd h.2.2 (by decide +kernel)

end PxqLlama.Server
