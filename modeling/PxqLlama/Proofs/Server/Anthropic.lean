import PxqLlama.Proofs.Server.ChatDiff

/-!
# `Proofs.Server.Anthropic`: the blocks of the event stream

First the loop over the diffs: where its pieces have their indices from (`mem_pieces_loop`), and
the marks of each block. A text block grows by its flag in both serializers. A call is opened by
its name in a partial response, and by its first diff in the final one. Then the whole stream, and
`wellFormed_iff`: it is well formed exactly for the splits of `Streamable`.
-/

namespace PxqLlama.Server.Anthropic

open BlockStream

/-! ### Pieces -/

@[simp] theorem pieces_nil : pieces [] = [] := rfl

@[simp] theorem pieces_append (es es' : List Event) :
    pieces (es ++ es') = pieces es ++ pieces es' :=
  List.filterMap_append

variable {events : List Event} {p : Piece Block} {diff : MsgDiff} {diffs : List MsgDiff}
  {call : Nat}

theorem mem_pieces : p ∈ pieces events ↔ ∃ event ∈ events, event.piece = some p :=
  List.mem_filterMap

/-- The events are of one block, and do not close it. -/
def OnlyFills (block : Block) (events : List Event) : Prop :=
  ∀ event ∈ events, ∃ p, event.piece = some p ∧ p.block = block ∧ p.mark ≠ .stop

theorem OnlyFills.block {block : Block} (h : OnlyFills block events) (hp : p ∈ pieces events) :
    p.block = block ∧ p.mark ≠ .stop := by
  obtain ⟨event, hmem, heq⟩ := mem_pieces.mp hp
  obtain ⟨q, hq, hblock⟩ := h event hmem
  obtain rfl : p = q := by simpa [heq] using hq
  exact hblock

/-- Events of another block have no marks of this one. -/
theorem OnlyFills.marksOf_ne {block : Block} (h : OnlyFills block events) (other : Block)
    (hne : block ≠ other) : marksOf (pieces events) other = [] := by
  unfold marksOf
  rw [List.filter_eq_nil_iff.mpr, List.map_nil]
  intro p hp hother
  apply hne
  rw [← (h.block hp).1]
  simpa using hother

/-! ### The events of a diff -/

/-- What both kinds of content have in common: nothing, or a delta, with what opens the block when
it is not open. -/
def contentEvents (nothing : Prop) [Decidable nothing] (started : Bool) (index : Nat) (block : Block)
    (content : ContentBlock) (delta : BlockDelta) : List Event :=
  if nothing then []
  else
    (if started then [] else [.contentBlockStart index block content]) ++
      [.contentBlockDelta index block delta]

section Content

variable {nothing : Prop} [Decidable nothing] {started : Bool} {index : Nat} {block : Block}
  {content : ContentBlock} {delta : BlockDelta}

theorem contentEvents_fills :
    OnlyFills block (contentEvents nothing started index block content delta) := by
  unfold contentEvents
  intro event hmem
  split at hmem
  · cases hmem
  · cases started <;> simp at hmem
    · rcases hmem with rfl | rfl <;> exact ⟨_, rfl, rfl, by simp⟩
    · subst hmem
      exact ⟨_, rfl, rfl, by simp⟩

theorem contentEvents_grows :
    Grows started (started || decide ¬nothing)
      (marksOf (pieces (contentEvents nothing started index block content delta)) block) := by
  unfold contentEvents
  by_cases h : nothing
  · simp only [h, ↓reduceIte, pieces_nil, marksOf_nil, not_true_eq_false, decide_false,
      Bool.or_false]
    exact Grows.refl started
  · have hgrows := Grows.add started
    cases started <;> simpa [h, pieces, Event.piece] using hgrows

theorem mem_contentEvents
    (hp : p ∈ pieces (contentEvents nothing started index block content delta)) :
    p.index = index ∧ ¬nothing := by
  unfold contentEvents at hp
  split at hp
  · cases hp
  · next hne =>
    refine ⟨?_, hne⟩
    cases started <;> simp [pieces, Event.piece] at hp
    · rcases hp with rfl | rfl <;> rfl
    · rw [hp]

end Content

theorem thinkingEvents_fills (started : Bool) (index : Nat) (diff : MsgDiff) :
    OnlyFills .thinking (thinkingEvents started index diff) := contentEvents_fills

theorem textEvents_fills (started : Bool) (index : Nat) (diff : MsgDiff) :
    OnlyFills .text (textEvents started index diff) := contentEvents_fills

/-- New content makes a delta. -/
theorem delta_mem_textEvents (started : Bool) (index : Nat) (hne : diff.contentDelta ≠ []) :
    ⟨.delta, index, .text⟩ ∈ pieces (textEvents started index diff) := by
  unfold textEvents
  rw [if_neg hne, pieces_append]
  exact List.mem_append_right _ (by simp [pieces, Event.piece])

/-! ### The loop over the diffs -/

section Loop

variable {textIndex : Nat} {callEvents : Started → List Nat → Nat → MsgDiff → List Event}
  {block : Block}

/-- The flag of a block. Calls have none. -/
def Started.has (started : Started) : Block → Bool
  | .thinking => started.thinking
  | .text => started.text
  | .toolUse _ => false

/-- The events of the loop alone. -/
abbrev loopEvents (textIndex : Nat) (callEvents : Started → List Nat → Nat → MsgDiff → List Event) :
    Started → List Nat → List MsgDiff → List Event :=
  diffEvents textIndex callEvents fun _ => []

/-- The events of a diff, if it is of a call. -/
def callPart (callEvents : Started → List Nat → Nat → MsgDiff → List Event) (started : Started)
    (calls : List Nat) (diff : MsgDiff) : List Event :=
  match diff.toolCallIndex with
  | none => []
  | some call => callEvents started calls call diff

theorem loopEvents_cons (started : Started) (calls : List Nat) (diff : MsgDiff)
    (diffs : List MsgDiff) :
    loopEvents textIndex callEvents started calls (diff :: diffs) =
      thinkingEvents started.thinking 0 diff ++ textEvents started.text textIndex diff ++
        callPart callEvents (started.update diff) calls diff ++
        loopEvents textIndex callEvents (started.update diff)
          (diff.toolCallIndex.toList ++ calls) diffs := rfl

theorem diffEvents_eq (after : Started → List Event) (diffs : List MsgDiff) (started : Started)
    (calls : List Nat) : diffEvents textIndex callEvents after started calls diffs =
      loopEvents textIndex callEvents started calls diffs ++
        after (diffs.foldl Started.update started) := by
  induction diffs generalizing started calls with
  | nil => rfl
  | cons diff diffs ih =>
    rw [diffEvents, ih, loopEvents_cons, List.foldl_cons, List.append_assoc _ (loopEvents ..)]
    rfl

variable (hcall : ∀ started calls call diff,
  OnlyFills (.toolUse call) (callEvents started calls call diff))

include hcall

theorem callPart_ne {other : Block} (hother : ∀ call, other ≠ .toolUse call) (started : Started)
    (calls : List Nat) (diff : MsgDiff) :
    marksOf (pieces (callPart callEvents started calls diff)) other = [] := by
  unfold callPart
  split
  · rfl
  · exact (hcall _ _ _ _).marksOf_ne _ (hother _).symm

/-- The flag of a block follows its marks. -/
theorem loopEvents_grows (hblock : ∀ call, block ≠ .toolUse call) (textIndex : Nat)
    (diffs : List MsgDiff) (started : Started) (calls : List Nat) :
    Grows (started.has block) ((diffs.foldl Started.update started).has block)
      (marksOf (pieces (loopEvents textIndex callEvents started calls diffs)) block) := by
  induction diffs generalizing started calls with
  | nil => exact Grows.refl _
  | cons diff diffs ih =>
    rw [loopEvents_cons]
    simp only [pieces_append, marksOf_append, callPart_ne hcall hblock, List.append_nil]
    refine Grows.append ?_ (ih (started.update diff) _)
    cases block with
    | thinking =>
      rw [(textEvents_fills _ _ _).marksOf_ne .thinking (by simp), List.append_nil]
      exact contentEvents_grows
    | text =>
      rw [(thinkingEvents_fills _ _ _).marksOf_ne .text (by simp), List.nil_append]
      exact contentEvents_grows
    | toolUse call => exact absurd rfl (hblock call)

/-- The loop closes no block. -/
theorem loopEvents_fills (diffs : List MsgDiff) (started : Started) (calls : List Nat) :
    ∀ event ∈ loopEvents textIndex callEvents started calls diffs,
      ∃ p, event.piece = some p ∧ p.mark ≠ .stop := by
  induction diffs generalizing started calls with
  | nil => simp [loopEvents, diffEvents]
  | cons diff diffs ih =>
    rw [loopEvents_cons]
    intro event hmem
    simp only [List.mem_append] at hmem
    rcases hmem with ((hmem | hmem) | hmem) | hmem
    · obtain ⟨p, hp, -, hmark⟩ := thinkingEvents_fills _ _ _ event hmem
      exact ⟨p, hp, hmark⟩
    · obtain ⟨p, hp, -, hmark⟩ := textEvents_fills _ _ _ event hmem
      exact ⟨p, hp, hmark⟩
    · unfold callPart at hmem
      split at hmem
      · cases hmem
      · obtain ⟨p, hp, -, hmark⟩ := hcall _ _ _ _ event hmem
        exact ⟨p, hp, hmark⟩
    · exact ih _ _ event hmem

omit hcall in
/-- Where a piece of the loop comes from. A call's diff sees the flags as they end up. -/
theorem mem_pieces_loop (hlast : CallsLast diffs) {started : Started} {calls : List Nat}
    (hp : p ∈ pieces (loopEvents textIndex callEvents started calls diffs)) :
    p.block = .thinking ∧ p.index = 0 ∧ sendsReasoning diffs = true ∨
    p.block = .text ∧ p.index = textIndex ∧ sendsContent diffs = true ∨
    ∃ diff ∈ diffs, ∃ call calls', diff.toolCallIndex = some call ∧
      p ∈ pieces (callEvents (diffs.foldl Started.update started) calls' call diff) := by
  induction diffs generalizing started calls with
  | nil => simp [loopEvents, diffEvents] at hp
  | cons diff diffs ih =>
    rw [loopEvents_cons] at hp
    simp only [pieces_append, List.mem_append] at hp
    rcases hp with ((hp | hp) | hp) | hp
    · left
      obtain ⟨hindex, hne⟩ := mem_contentEvents hp
      exact ⟨((thinkingEvents_fills _ _ _).block hp).1, hindex, by simp [hne]⟩
    · right; left
      obtain ⟨hindex, hne⟩ := mem_contentEvents hp
      exact ⟨((textEvents_fills _ _ _).block hp).1, hindex, by simp [hne]⟩
    · right; right
      unfold callPart at hp
      split at hp
      · cases hp
      · next call heq =>
        -- no flag changes from here on
        refine ⟨diff, List.mem_cons_self, call, calls, heq, ?_⟩
        rwa [hlast.foldl_eq (by simp [heq])]
    · rcases ih hlast.2 hp with ⟨hblock, hindex, hsends⟩ | ⟨hblock, hindex, hsends⟩ | hrest
      · exact .inl ⟨hblock, hindex, by simp [hsends]⟩
      · exact .inr (.inl ⟨hblock, hindex, by simp [hsends]⟩)
      · obtain ⟨d, hd, hrest⟩ := hrest
        exact .inr (.inr ⟨d, List.mem_cons_of_mem _ hd, hrest⟩)

omit hcall in
/-- New content makes a delta of the loop. -/
theorem text_mem_loop (h : sendsContent diffs = true) (started : Started) (calls : List Nat) :
    ⟨.delta, textIndex, .text⟩ ∈ pieces (loopEvents textIndex callEvents started calls diffs) := by
  induction diffs generalizing started calls with
  | nil => cases h
  | cons diff diffs ih =>
    rw [loopEvents_cons]
    simp only [pieces_append, List.mem_append]
    by_cases hne : diff.contentDelta = []
    · exact .inr (ih (by simpa [hne] using h) _ _)
    · exact .inl (.inl (.inr (delta_mem_textEvents _ _ hne)))

omit hcall in
/-- The events of a call's diff are in the loop. -/
theorem call_mem_loop (hlast : CallsLast diffs) (hmem : diff ∈ diffs)
    (heq : diff.toolCallIndex = some call) (started : Started) (calls : List Nat) :
    ∃ calls', ∀ p ∈ pieces (callEvents (diffs.foldl Started.update started) calls' call diff),
      p ∈ pieces (loopEvents textIndex callEvents started calls diffs) := by
  induction diffs generalizing started calls with
  | nil => cases hmem
  | cons d diffs ih =>
    rcases List.mem_cons.mp hmem with rfl | hmem
    · refine ⟨calls, ?_⟩
      intro p hp
      rw [hlast.foldl_eq (by simp [heq])] at hp
      rw [loopEvents_cons]
      simp only [pieces_append, List.mem_append]
      exact .inl (.inr (by rw [callPart, heq]; exact hp))
    · obtain ⟨calls', hin⟩ := ih hlast.2 hmem (started.update d) (d.toolCallIndex.toList ++ calls)
      refine ⟨calls', ?_⟩
      intro p hp
      rw [loopEvents_cons]
      simp only [pieces_append, List.mem_append]
      exact .inr (hin p hp)

/-- The marks of a call, one difference at a time. -/
theorem loopEvents_call_cons (call : Nat) (started : Started) (calls : List Nat) (diff : MsgDiff)
    (diffs : List MsgDiff) :
    marksOf (pieces (loopEvents textIndex callEvents started calls (diff :: diffs)))
        (.toolUse call) =
      (if diff.toolCallIndex = some call then
        marksOf (pieces (callEvents (started.update diff) calls call diff)) (.toolUse call)
      else []) ++
      marksOf (pieces (loopEvents textIndex callEvents (started.update diff)
        (diff.toolCallIndex.toList ++ calls) diffs)) (.toolUse call) := by
  rw [loopEvents_cons]
  simp only [pieces_append, marksOf_append, List.append_nil, List.nil_append,
    (thinkingEvents_fills _ _ _).marksOf_ne (.toolUse call) (by simp),
    (textEvents_fills _ _ _).marksOf_ne (.toolUse call) (by simp)]
  congr 1
  unfold callPart
  cases heq : diff.toolCallIndex with
  | none => simp
  | some c =>
    by_cases hc : c = call
    · subst hc
      simp
    · rw [if_neg (by simpa using hc)]
      exact (hcall _ _ _ _).marksOf_ne _ (by simpa using hc)

/-- A call without a diff has no marks. -/
theorem loopEvents_call_nil (h : diffsOf call diffs = []) (started : Started) (calls : List Nat) :
    marksOf (pieces (loopEvents textIndex callEvents started calls diffs)) (.toolUse call) = [] := by
  induction diffs generalizing started calls with
  | nil => rfl
  | cons diff diffs ih =>
    unfold diffsOf at h
    rw [List.filter_eq_nil_iff] at h
    have hne : diff.toolCallIndex ≠ some call := by simpa using h diff List.mem_cons_self
    rw [loopEvents_call_cons hcall, if_neg hne, List.nil_append]
    apply ih
    exact List.filter_eq_nil_iff.mpr fun d hd => h d (List.mem_cons_of_mem _ hd)

end Loop

/-! ### Calls -/

theorem argumentEvents_fills (index call : Nat) (diff : MsgDiff) :
    OnlyFills (.toolUse call) (argumentEvents index call diff) := by
  unfold argumentEvents
  intro event hmem
  split at hmem
  · cases hmem
  · rw [List.mem_singleton.mp hmem]
    exact ⟨_, rfl, rfl, by simp⟩

theorem OnlyFills.cons_start (h : OnlyFills (.toolUse call) events) (index : Nat)
    (b : ContentBlock) {c : Prop} [Decidable c] :
    OnlyFills (.toolUse call)
      ((if c then [] else [.contentBlockStart index (.toolUse call) b]) ++ events) := by
  intro event hmem
  rcases List.mem_append.mp hmem with hmem | hmem
  · split at hmem
    · cases hmem
    · rw [List.mem_singleton.mp hmem]
      exact ⟨_, rfl, rfl, by simp⟩
  · exact h event hmem

theorem partialCallEvents_fills (hasReasoning : Bool) (started : Started) (calls : List Nat)
    (call : Nat) (diff : MsgDiff) :
    OnlyFills (.toolUse call) (partialCallEvents hasReasoning started calls call diff) :=
  (argumentEvents_fills _ _ _).cons_start _ _

theorem finalCallEvents_fills (msg : ChatMsg) (started : Started) (calls : List Nat) (call : Nat)
    (diff : MsgDiff) : OnlyFills (.toolUse call) (finalCallEvents msg started calls call diff) :=
  (argumentEvents_fills _ _ _).cons_start _ _

/-- The marks of a diff's arguments. -/
def argMarks (diff : MsgDiff) : List Mark :=
  if diff.toolCallDelta.arguments = [] then [] else [.delta]

/-- The marks of the diffs of a call in partial responses. -/
def callMarks (diffs : List MsgDiff) : List Mark :=
  diffs.flatMap fun diff =>
    (if diff.toolCallDelta.name = [] then [] else [.start]) ++ argMarks diff

theorem argumentEvents_marks (index call : Nat) (diff : MsgDiff) :
    marksOf (pieces (argumentEvents index call diff)) (.toolUse call) = argMarks diff := by
  unfold argumentEvents argMarks
  split <;> simp [pieces, Event.piece]

theorem partialCallEvents_marks (hasReasoning : Bool) (started : Started) (calls : List Nat)
    (call : Nat) (diff : MsgDiff) :
    marksOf (pieces (partialCallEvents hasReasoning started calls call diff)) (.toolUse call) =
      (if diff.toolCallDelta.name = [] then [] else [.start]) ++ argMarks diff := by
  unfold partialCallEvents
  rw [pieces_append, marksOf_append, argumentEvents_marks]
  split <;> simp [pieces, Event.piece]

theorem partialLoop_call (hasReasoning : Bool) (textIndex call : Nat) (diffs : List MsgDiff)
    (started : Started) (calls : List Nat) :
    marksOf (pieces (loopEvents textIndex (partialCallEvents hasReasoning) started calls diffs))
      (.toolUse call) = callMarks (diffsOf call diffs) := by
  induction diffs generalizing started calls with
  | nil => rfl
  | cons diff diffs ih =>
    rw [loopEvents_call_cons (partialCallEvents_fills hasReasoning), ih, partialCallEvents_marks]
    by_cases heq : diff.toolCallIndex = some call
    · simp [heq, diffsOf, callMarks]
    · simp [heq, diffsOf]

/-- The final response opens a call at its diff there. -/
theorem finalLoop_call {msg : ChatMsg} {textIndex : Nat} (h : diffsOf call diffs = [diff])
    (started : Started) {calls : List Nat} (hnew : call ∉ calls) :
    marksOf (pieces (loopEvents textIndex (finalCallEvents msg) started calls diffs))
      (.toolUse call) = .start :: argMarks diff := by
  induction diffs generalizing started calls with
  | nil => cases h
  | cons d diffs ih =>
    rw [loopEvents_call_cons (finalCallEvents_fills msg)]
    by_cases heq : d.toolCallIndex = some call
    · unfold diffsOf at h
      rw [List.filter_cons_of_pos (by simpa using heq), List.cons.injEq] at h
      obtain ⟨rfl, hrest⟩ := h
      rw [if_pos heq, loopEvents_call_nil (finalCallEvents_fills msg) hrest, List.append_nil]
      unfold finalCallEvents
      rw [pieces_append, marksOf_append, argumentEvents_marks, if_neg hnew]
      simp [pieces, Event.piece]
    · have hrest : diffsOf call diffs = [diff] := by
        unfold diffsOf at h ⊢
        rwa [List.filter_cons_of_neg (by simpa using heq)] at h
      rw [if_neg heq, List.nil_append]
      apply ih hrest
      simpa [hnew, Option.mem_toList] using heq

/-- No mark, when no diff speaks. -/
theorem callMarks_eq_nil (hof : ∀ diff ∈ diffs, diff.toolCallIndex = some call) :
    callMarks diffs = [] ↔ ∀ diff ∈ diffs, ¬ diff.speaksOf call := by
  unfold callMarks
  rw [List.flatMap_eq_nil_iff]
  apply forall₂_congr
  intro diff hdiff
  simp [MsgDiff.speaksOf, hof diff hdiff, argMarks]

/-- Only deltas, when no diff has a name. -/
theorem callMarks_replicate :
    (∃ n, callMarks diffs = List.replicate n .delta) ↔
      ∀ diff ∈ diffs, diff.toolCallDelta.name = [] := by
  constructor
  · rintro ⟨n, hn⟩ diff hdiff
    by_contra hne
    have hstart : Mark.start ∈ callMarks diffs :=
      List.mem_flatMap.mpr ⟨diff, hdiff, by simp [hne]⟩
    rw [hn] at hstart
    cases List.eq_of_mem_replicate hstart
  · intro h
    refine ⟨(callMarks diffs).length, ?_⟩
    rw [List.eq_replicate_iff]
    refine ⟨rfl, ?_⟩
    intro mark hmark
    obtain ⟨diff, hdiff, hmark⟩ := List.mem_flatMap.mp hmark
    simp only [h diff hdiff, ↓reduceIte, List.nil_append] at hmark
    unfold argMarks at hmark
    split at hmark
    · cases hmark
    · exact List.mem_singleton.mp hmark

/-- Diffs in partial responses open a call when the first that speaks has the name. -/
theorem callMarks_grows (hof : ∀ diff ∈ diffs, diff.toolCallIndex = some call) :
    Grows false true (callMarks diffs) ↔
      ∃ quiet diff rest, diffs = quiet ++ diff :: rest ∧ (∀ d ∈ quiet, ¬ d.speaksOf call) ∧
        diff.toolCallDelta.name ≠ [] ∧ ∀ d ∈ rest, d.toolCallDelta.name = [] := by
  constructor
  · rintro ⟨n, hn⟩
    induction diffs with
    | nil => cases hn
    | cons diff diffs ih =>
      have hcons : callMarks (diff :: diffs) =
          (if diff.toolCallDelta.name = [] then [] else [.start]) ++ argMarks diff ++
            callMarks diffs := rfl
      rw [hcons] at hn
      by_cases hname : diff.toolCallDelta.name = []
      · rw [if_pos hname, List.nil_append] at hn
        by_cases hargs : diff.toolCallDelta.arguments = []
        · -- a quiet diff
          rw [argMarks, if_pos hargs, List.nil_append] at hn
          obtain ⟨quiet, d, rest, rfl, hquiet, hd, hrest⟩ :=
            ih (fun d hd => hof d (List.mem_cons_of_mem _ hd)) hn
          refine ⟨diff :: quiet, d, rest, rfl, ?_, hd, hrest⟩
          intro e he
          rcases List.mem_cons.mp he with rfl | he
          · simp [MsgDiff.speaksOf, hname, hargs]
          · exact hquiet e he
        · rw [argMarks, if_neg hargs, List.singleton_append, List.cons.injEq] at hn
          cases hn.1
      · rw [if_neg hname, List.append_assoc, List.singleton_append, List.cons.injEq] at hn
        refine ⟨[], diff, diffs, rfl, by simp, hname, ?_⟩
        apply callMarks_replicate.mp
        obtain ⟨-, -, hrest⟩ := List.append_eq_replicate_iff.mp hn.2
        exact ⟨_, hrest⟩
  · rintro ⟨quiet, diff, rest, rfl, hquiet, hname, hrest⟩
    obtain ⟨n, hn⟩ := callMarks_replicate.mpr hrest
    have hnil : callMarks quiet = [] :=
      (callMarks_eq_nil fun d hd => hof d (List.mem_append_left _ hd)).mpr hquiet
    have hcons : callMarks (quiet ++ diff :: rest) =
        callMarks quiet ++
          ((if diff.toolCallDelta.name = [] then [] else [.start]) ++ argMarks diff ++
            callMarks rest) := by
      simp [callMarks]
    rw [hcons, hnil, if_neg hname, hn]
    unfold argMarks
    split
    · exact ⟨n, rfl⟩
    · exact ⟨n + 1, rfl⟩

end PxqLlama.Server.Anthropic
