import PxqLlama.Proofs.Server.Anthropic

/-!
# `Proofs.Server.AnthropicStream`: when the event stream is well formed

The final response closes each block under one index (`stopIndex`), so the stream is well formed
when every other event of the block has this index too and the indices differ, and when each block
opens once. `allAtStop_iff` says when the indices agree, `marksOf_call_iff` when a call opens once.
-/

namespace PxqLlama.Server.Anthropic

open BlockStream

/-! ### The responses in order -/

/-- The flags after some responses. -/
theorem Chain.started_eq {s s' : Started} {rs : List PartialResult} (h : Chain s rs s') :
    s' = ⟨s.thinking || rs.any (sendsReasoning ·.oaicompatMsgDiffs),
      s.text || rs.any (sendsContent ·.oaicompatMsgDiffs)⟩ := by
  induction h with
  | nil => simp
  | cons _ _ _ ih =>
    rw [ih, foldl_update]
    simp only [List.any_cons, Bool.or_assoc]

variable {res : PartialResult} {call : Nat} {diff : MsgDiff} {p : Piece Block}

/-- The flags chain through every response of the stream. -/
theorem Chain.split {s s' : Started} {before after : List PartialResult}
    (h : Chain s (before ++ res :: after) s') :
    Chain s before res.started ∧ Chain s (before ++ [res])
        (res.oaicompatMsgDiffs.foldl Started.update res.started) ∧
      (res.anthropicHasReasoning = true →
        (res.oaicompatMsgDiffs.foldl Started.update res.started).thinking = true) ∧
      CallsLast res.oaicompatMsgDiffs := by
  generalize heq : before ++ res :: after = rs at h
  induction h generalizing before with
  | nil => simp at heq
  | @cons first rest started n hreasoning horder hrest ih =>
    cases before with
    | nil =>
      rw [List.nil_append, List.cons.injEq] at heq
      obtain ⟨rfl, rfl⟩ := heq
      exact ⟨.nil _, .cons hreasoning horder (.nil _), hreasoning, horder.callsLast⟩
    | cons b before =>
      rw [List.cons_append, List.cons.injEq] at heq
      obtain ⟨rfl, hrest'⟩ := heq
      obtain ⟨h₁, h₂, h₃⟩ := ih hrest'
      exact ⟨.cons hreasoning horder h₁, .cons hreasoning horder h₂, h₃⟩

/-! ### One response -/

theorem pieces_partialResult (res : PartialResult) :
    pieces (toJsonAnthropicPartial res) =
      pieces (loopEvents res.anthropicHasReasoning.toNat
        (partialCallEvents res.anthropicHasReasoning) res.started [] res.oaicompatMsgDiffs) := by
  unfold toJsonAnthropicPartial
  rw [pieces_append]
  split <;> rfl

/-- All events of a call's diff have the index of the call, and there are some when it speaks. -/
theorem mem_partialCallEvents {hasReasoning : Bool} {started : Started} {calls : List Nat}
    (hcall : diff.toolCallIndex = some call)
    (hp : p ∈ pieces (partialCallEvents hasReasoning started calls call diff)) :
    p.index = hasReasoning.toNat + started.text.toNat + call ∧ diff.speaksOf call = true := by
  unfold partialCallEvents argumentEvents at hp
  simp only [pieces_append, List.mem_append] at hp
  rcases hp with hp | hp
  · split at hp
    · cases hp
    · next hname =>
      obtain rfl : p = _ := List.mem_singleton.mp hp
      exact ⟨rfl, by simp [MsgDiff.speaksOf, hcall, hname]⟩
  · split at hp
    · cases hp
    · next hargs =>
      obtain rfl : p = _ := List.mem_singleton.mp hp
      exact ⟨rfl, by simp [MsgDiff.speaksOf, hcall, hargs]⟩

theorem exists_mem_partialCallEvents (hasReasoning : Bool) (started : Started) (calls : List Nat)
    (hspeaks : diff.speaksOf call = true) :
    ∃ p, p ∈ pieces (partialCallEvents hasReasoning started calls call diff) := by
  simp only [partialCallEvents, argumentEvents]
  simp only [MsgDiff.speaksOf, Bool.and_eq_true, Bool.or_eq_true, decide_eq_true_eq] at hspeaks
  rcases hspeaks.2 with hname | hargs
  · rw [if_neg hname]
    exact ⟨_, List.mem_cons_self⟩
  · rw [if_neg hargs, pieces_append]
    exact ⟨_, List.mem_append_right _ List.mem_cons_self⟩

theorem mem_finalCallEvents {msg : ChatMsg} {started : Started} {calls : List Nat}
    (hp : p ∈ pieces (finalCallEvents msg started calls call diff)) :
    p.index = started.thinking.toNat + started.text.toNat + call := by
  unfold finalCallEvents argumentEvents at hp
  simp only [pieces_append, List.mem_append] at hp
  rcases hp with hp | hp
  · split at hp
    · cases hp
    · obtain rfl : p = _ := List.mem_singleton.mp hp
      rfl
  · split at hp
    · cases hp
    · obtain rfl : p = _ := List.mem_singleton.mp hp
      rfl

section Stream

variable {partials : List PartialResult} {final : FinalResult}

/-- The index under which the final response closes a block. -/
def stopIndex (partials : List PartialResult) (final : FinalResult) : Block → Nat
  | .thinking => 0
  | .text => final.started.thinking.toNat
  | .toolUse call =>
    (anyReasoning partials final).toNat + (anyContent partials final).toNat + call

/-- The blocks of the stream. -/
def Present (partials : List PartialResult) (final : FinalResult) : Block → Prop
  | .thinking => anyReasoning partials final = true
  | .text => anyContent partials final = true
  | .toolUse call => call < final.oaicompatMsg.toolCalls.length

/-- The flags when the final response closes the blocks. -/
theorem Facts.ended (hf : Facts partials final) :
    final.oaicompatMsgDiffs.foldl Started.update final.started =
      ⟨anyReasoning partials final, anyContent partials final⟩ := by
  rw [foldl_update, hf.chain.started_eq]
  simp [anyReasoning, anyContent]

theorem Facts.started_le (hf : Facts partials final) :
    final.started.thinking = partials.any (sendsReasoning ·.oaicompatMsgDiffs) := by
  rw [hf.chain.started_eq]
  simp

/-- The pieces of the whole stream. -/
theorem Facts.pieces_eq (hf : Facts partials final) :
    pieces (anthropicEvents partials final) =
      partials.flatMap (fun res => pieces (toJsonAnthropicPartial res)) ++
      (pieces (loopEvents final.started.thinking.toNat (finalCallEvents final.oaicompatMsg)
          final.started [] final.oaicompatMsgDiffs) ++
        pieces (closingEvents final final.started.thinking.toNat
          ⟨anyReasoning partials final, anyContent partials final⟩)) := by
  unfold anthropicEvents toJsonAnthropicStream
  simp only
  rw [diffEvents_eq, hf.ended, pieces_append, pieces_append]
  congr 1
  exact List.filterMap_flatMap

/-- A piece of a partial response. -/
def FromPartial (partials : List PartialResult) (p : Piece Block) : Prop :=
  ∃ before res after, partials = before ++ res :: after ∧
    (p.block = .thinking ∧ p.index = 0 ∧ sendsReasoning res.oaicompatMsgDiffs = true ∨
    p.block = .text ∧ p.index = res.anthropicHasReasoning.toNat ∧
      sendsContent res.oaicompatMsgDiffs = true ∨
    ∃ call, p.block = .toolUse call ∧
      p.index = res.anthropicHasReasoning.toNat +
        ((before ++ [res]).any (sendsContent ·.oaicompatMsgDiffs)).toNat + call ∧
      ∃ diff ∈ res.oaicompatMsgDiffs, diff.speaksOf call = true)

/-- The flags after a response say what the stream has sent by then. -/
theorem Facts.flags (hf : Facts partials final) {before after : List PartialResult}
    (hsplit : partials = before ++ res :: after) :
    res.oaicompatMsgDiffs.foldl Started.update res.started =
        ⟨(before ++ [res]).any (sendsReasoning ·.oaicompatMsgDiffs),
          (before ++ [res]).any (sendsContent ·.oaicompatMsgDiffs)⟩ ∧
      (res.anthropicHasReasoning = true →
        (before ++ [res]).any (sendsReasoning ·.oaicompatMsgDiffs) = true) ∧
      CallsLast res.oaicompatMsgDiffs := by
  obtain ⟨-, hchain, hreasoning, hlast⟩ := (hsplit ▸ hf.chain).split
  have heq := hchain.started_eq
  simp only [Bool.false_or] at heq
  refine ⟨heq, ?_, hlast⟩
  intro h
  simpa [heq] using hreasoning h

/-- Where a piece of the partial responses comes from. -/
theorem Facts.mem_partials (hf : Facts partials final)
    (hp : p ∈ partials.flatMap fun res => pieces (toJsonAnthropicPartial res)) :
    FromPartial partials p ∧ p.mark ≠ .stop := by
  obtain ⟨res, hres, hp⟩ := List.mem_flatMap.mp hp
  obtain ⟨before, after, hsplit⟩ := List.append_of_mem hres
  obtain ⟨hflags, -, hlast⟩ := hf.flags hsplit
  rw [pieces_partialResult] at hp
  constructor
  · refine ⟨before, res, after, hsplit, ?_⟩
    rcases mem_pieces_loop hlast hp with h | h | ⟨diff, hdiff, call, calls', hcall, hp⟩
    · exact .inl h
    · exact .inr (.inl h)
    · right; right
      obtain ⟨hindex, hspeaks⟩ := mem_partialCallEvents hcall hp
      rw [hflags] at hindex
      exact ⟨call, ((partialCallEvents_fills _ _ _ _ _).block hp).1, hindex, diff, hdiff, hspeaks⟩
  · obtain ⟨event, hevent, heq⟩ := mem_pieces.mp hp
    obtain ⟨q, hq, hmark⟩ := loopEvents_fills (partialCallEvents_fills _) _ _ _ event hevent
    obtain rfl : p = q := by simpa [heq] using hq
    exact hmark

/-- The final response has the index under which it closes the block. -/
theorem Facts.mem_final (hf : Facts partials final)
    (hp : p ∈ pieces (loopEvents final.started.thinking.toNat (finalCallEvents final.oaicompatMsg)
      final.started [] final.oaicompatMsgDiffs)) :
    Present partials final p.block ∧ p.index = stopIndex partials final p.block ∧
      p.mark ≠ .stop := by
  rw [← and_assoc]
  constructor
  · rcases mem_pieces_loop hf.inOrder.callsLast hp with
      ⟨hblock, hindex, hsends⟩ | ⟨hblock, hindex, hsends⟩ | ⟨diff, hdiff, call, calls', hcall, hp⟩
    · rw [hblock]
      exact ⟨by simp [Present, anyReasoning, hsends], hindex⟩
    · rw [hblock]
      exact ⟨by simp [Present, anyContent, hsends], hindex⟩
    · rw [((finalCallEvents_fills _ _ _ _ _).block hp).1]
      refine ⟨hf.inOrder.lt hdiff hcall, ?_⟩
      rw [mem_finalCallEvents hp, hf.ended]
      rfl
  · obtain ⟨event, hevent, heq⟩ := mem_pieces.mp hp
    obtain ⟨q, hq, hmark⟩ := loopEvents_fills (finalCallEvents_fills _) _ _ _ event hevent
    obtain rfl : p = q := by simpa [heq] using hq
    exact hmark

theorem pieces_closing (res : FinalResult) (textIndex : Nat) (started : Started) :
    pieces (closingEvents res textIndex started) =
      (if started.thinking then [⟨.delta, 0, .thinking⟩, ⟨.stop, 0, .thinking⟩] else []) ++
        (if started.text then [⟨.stop, textIndex, .text⟩] else []) ++
        (List.range res.oaicompatMsg.toolCalls.length).map fun call =>
          ⟨.stop, started.thinking.toNat + started.text.toNat + call, .toolUse call⟩ := by
  unfold closingEvents
  cases started.thinking <;> cases started.text <;> simp [pieces, Event.piece, Function.comp_def]

/-- What is sent at the end: a stop for each block, and the signature. -/
theorem mem_closing :
    p ∈ pieces (closingEvents final final.started.thinking.toNat
        ⟨anyReasoning partials final, anyContent partials final⟩) ↔
      Present partials final p.block ∧ p.index = stopIndex partials final p.block ∧
        (p.mark = .stop ∨ p.mark = .delta ∧ p.block = .thinking) := by
  rw [pieces_closing]
  obtain ⟨mark, index, block⟩ := p
  unfold Present stopIndex
  generalize anyReasoning partials final = reasons
  generalize anyContent partials final = contents
  cases block with
  | thinking => cases mark <;> cases reasons <;> cases contents <;> simp
  | text => cases mark <;> cases reasons <;> cases contents <;> simp
  | toolUse call => cases mark <;> cases reasons <;> cases contents <;> simp <;> omega

/-! ### Indices -/

/-- A piece of the stream comes from a response or from the end. -/
theorem Facts.mem_pieces (hf : Facts partials final) :
    p ∈ pieces (anthropicEvents partials final) →
      FromPartial partials p ∧ p.mark ≠ .stop ∨
        Present partials final p.block ∧ p.index = stopIndex partials final p.block := by
  intro hp
  rw [hf.pieces_eq, List.mem_append, List.mem_append] at hp
  rcases hp with hp | hp | hp
  · exact .inl (hf.mem_partials hp)
  · obtain ⟨hpresent, hindex, -⟩ := hf.mem_final hp
    exact .inr ⟨hpresent, hindex⟩
  · obtain ⟨hpresent, hindex, -⟩ := mem_closing.mp hp
    exact .inr ⟨hpresent, hindex⟩

theorem Facts.stop_index (hf : Facts partials final)
    (hp : p ∈ pieces (anthropicEvents partials final)) (hmark : p.mark = .stop) :
    p.index = stopIndex partials final p.block := by
  rcases hf.mem_pieces hp with ⟨-, hne⟩ | ⟨-, hindex⟩
  · exact absurd hmark hne
  · exact hindex

/-- Each block of the stream is closed. -/
theorem Facts.stop_mem (hf : Facts partials final) {block : Block}
    (hpresent : Present partials final block) :
    ⟨.stop, stopIndex partials final block, block⟩ ∈ pieces (anthropicEvents partials final) := by
  rw [hf.pieces_eq, List.mem_append, List.mem_append]
  exact .inr (.inr (mem_closing.mpr ⟨hpresent, rfl, .inl rfl⟩))

theorem Facts.present (hf : Facts partials final)
    (hp : p ∈ pieces (anthropicEvents partials final)) : Present partials final p.block := by
  rcases hf.mem_pieces hp with ⟨hpart, -⟩ | ⟨hpresent, -⟩
  · obtain ⟨before, res, after, hsplit, hpart⟩ := hpart
    have hmem : res ∈ partials := by simp [hsplit]
    rcases hpart with
      ⟨hblock, -, hsends⟩ | ⟨hblock, -, hsends⟩ | ⟨call, hblock, -, diff, hdiff, hspeaks⟩
    · rw [hblock]
      simp only [Present, anyReasoning, Bool.or_eq_true, List.any_eq_true]
      exact .inl ⟨res, hmem, hsends⟩
    · rw [hblock]
      simp only [Present, anyContent, Bool.or_eq_true, List.any_eq_true]
      exact .inl ⟨res, hmem, hsends⟩
    · rw [hblock]
      simp only [MsgDiff.speaksOf, Bool.and_eq_true, decide_eq_true_eq] at hspeaks
      exact hf.bound res hmem diff hdiff call hspeaks.1
  · exact hpresent

theorem boolToNat_inj {a b : Bool} (h : a.toNat = b.toNat) : a = b := by
  cases a <;> cases b <;> simp at h <;> rfl

/-- Every event has the index under which its block is closed. -/
def AllAtStop (partials : List PartialResult) (final : FinalResult) : Prop :=
  ∀ p ∈ pieces (anthropicEvents partials final), p.index = stopIndex partials final p.block

/-- Two blocks of the stream are closed under different indices, but for reasoning and content that
both begin in the final response. -/
theorem stopIndex_inj {b b' : Block} (hsep : anyReasoning partials final = true →
      anyContent partials final = true → final.started.thinking = true)
    (hle : final.started.thinking = true → anyReasoning partials final = true)
    (hb : Present partials final b) (hb' : Present partials final b')
    (heq : stopIndex partials final b = stopIndex partials final b') : b = b' := by
  unfold Present at hb hb'
  unfold stopIndex at heq
  generalize anyReasoning partials final = reasons at *
  generalize anyContent partials final = contents at *
  generalize final.started.thinking = early at *
  cases b <;> cases b' <;> cases reasons <;> cases contents <;> cases early <;>
    simp at hsep hle hb hb' heq ⊢ <;> omega

theorem Facts.early_le (hf : Facts partials final) (h : final.started.thinking = true) :
    anyReasoning partials final = true := by
  rw [hf.started_le] at h
  simp [anyReasoning, h]

/-- When indices and blocks of the stream correspond. -/
theorem Facts.corresponds_iff (hf : Facts partials final) :
    (∀ p ∈ pieces (anthropicEvents partials final),
        ∀ q ∈ pieces (anthropicEvents partials final), p.index = q.index ↔ p.block = q.block) ↔
      AllAtStop partials final ∧ (anyReasoning partials final = true →
        anyContent partials final = true → final.started.thinking = true) := by
  constructor
  · intro h
    constructor
    · intro p hp
      exact (h p hp _ (hf.stop_mem (hf.present hp))).mpr rfl
    · intro hreasoning hcontent
      have hthinking := hf.stop_mem (show Present partials final .thinking from hreasoning)
      have htext := hf.stop_mem (show Present partials final .text from hcontent)
      have hne := (h _ hthinking _ htext).not.mpr (by simp)
      simp only [stopIndex] at hne
      by_contra hearly
      apply hne
      rw [Bool.eq_false_iff.mpr hearly]
      rfl
  · rintro ⟨hall, hsep⟩ p hp q hq
    rw [hall p hp, hall q hq]
    constructor
    · exact stopIndex_inj hsep hf.early_le (hf.present hp) (hf.present hq)
    · intro heq
      rw [heq]

/-- Content and calls of partial responses get the index that they are closed with. -/
theorem Facts.allAtStop_iff (hf : Facts partials final) :
    AllAtStop partials final ↔
      (∀ res ∈ partials, sendsContent res.oaicompatMsgDiffs = true →
        res.anthropicHasReasoning = final.started.thinking) ∧
      ∀ before res after, partials = before ++ res :: after →
        (∃ diff ∈ res.oaicompatMsgDiffs, ∃ call, diff.speaksOf call = true) →
        res.anthropicHasReasoning.toNat +
            ((before ++ [res]).any (sendsContent ·.oaicompatMsgDiffs)).toNat =
          (anyReasoning partials final).toNat + (anyContent partials final).toNat := by
  constructor
  · intro hall
    constructor
    · intro res hres hsends
      have hmem : ⟨.delta, res.anthropicHasReasoning.toNat, .text⟩ ∈
          pieces (anthropicEvents partials final) := by
        rw [hf.pieces_eq]
        apply List.mem_append_left
        refine List.mem_flatMap.mpr ⟨res, hres, ?_⟩
        rw [pieces_partialResult]
        exact text_mem_loop hsends _ _
      exact boolToNat_inj (hall _ hmem)
    · rintro before res after hsplit ⟨diff, hdiff, call, hspeaks⟩
      have hcall : diff.toolCallIndex = some call := by
        simp only [MsgDiff.speaksOf, Bool.and_eq_true, decide_eq_true_eq] at hspeaks
        exact hspeaks.1
      obtain ⟨hflags, -, hlast⟩ := hf.flags hsplit
      obtain ⟨calls, hsub⟩ : ∃ calls, ∀ p ∈ pieces (partialCallEvents res.anthropicHasReasoning
          (res.oaicompatMsgDiffs.foldl Started.update res.started) calls call diff),
          p ∈ pieces (loopEvents res.anthropicHasReasoning.toNat
            (partialCallEvents res.anthropicHasReasoning) res.started [] res.oaicompatMsgDiffs) :=
        call_mem_loop hlast hdiff hcall res.started []
      obtain ⟨p, hp⟩ := exists_mem_partialCallEvents res.anthropicHasReasoning
        (res.oaicompatMsgDiffs.foldl Started.update res.started) calls hspeaks
      have hmem : p ∈ pieces (anthropicEvents partials final) := by
        rw [hf.pieces_eq]
        apply List.mem_append_left
        refine List.mem_flatMap.mpr ⟨res, by simp [hsplit], ?_⟩
        rw [pieces_partialResult]
        exact hsub p hp
      have hindex := hall p hmem
      rw [(mem_partialCallEvents hcall hp).1, ((partialCallEvents_fills _ _ _ _ _).block hp).1,
        hflags] at hindex
      simp only [stopIndex] at hindex
      omega
  · rintro ⟨hcontent, hcalls⟩ p hp
    rcases hf.mem_pieces hp with ⟨hpart, -⟩ | ⟨-, hindex⟩
    · obtain ⟨before, res, after, hsplit, hpart⟩ := hpart
      rcases hpart with
        ⟨hblock, hindex, -⟩ | ⟨hblock, hindex, hsends⟩ | ⟨call, hblock, hindex, diff, hdiff, hspeaks⟩
      · rw [hblock, hindex]
        rfl
      · rw [hblock, hindex, hcontent res (by simp [hsplit]) hsends]
        rfl
      · rw [hblock, hindex, hcalls before res after hsplit ⟨diff, hdiff, call, hspeaks⟩]
        rfl
    · exact hindex

/-- The indices agree for the splits of `Streamable`. -/
theorem Facts.indices_iff (hf : Facts partials final) :
    (AllAtStop partials final ∧ (anyReasoning partials final = true →
        anyContent partials final = true → final.started.thinking = true)) ↔
      (∀ res ∈ partials, sendsContent res.oaicompatMsgDiffs = true →
        res.anthropicHasReasoning = anyReasoning partials final) ∧
      (sendsContent final.oaicompatMsgDiffs = true →
        partials.any (sendsReasoning ·.oaicompatMsgDiffs) = anyReasoning partials final) ∧
      ∀ before res after, partials = before ++ res :: after →
        (∃ diff ∈ res.oaicompatMsgDiffs, ∃ call, diff.speaksOf call = true) →
          res.anthropicHasReasoning = anyReasoning partials final ∧
          (before ++ [res]).any (sendsContent ·.oaicompatMsgDiffs) = anyContent partials final := by
  rw [hf.allAtStop_iff, ← hf.started_le]
  -- reasoning and content are there at the end when they were before
  have hearlier : ∀ before res after, partials = before ++ res :: after →
      (res.anthropicHasReasoning = true → final.started.thinking = true) ∧
      ((before ++ [res]).any (sendsContent ·.oaicompatMsgDiffs) = true →
        anyContent partials final = true) := by
    intro before res after hsplit
    obtain ⟨-, hreasoning, -⟩ := hf.flags hsplit
    have hpartials : partials = (before ++ [res]) ++ after := by simp [hsplit]
    constructor
    · intro h
      rw [hf.started_le, hpartials, List.any_append, hreasoning h, Bool.true_or]
    · intro h
      rw [anyContent, hpartials, List.any_append, h]
      rfl
  constructor
  · rintro ⟨⟨hcontent, hcalls⟩, hsep⟩
    -- where there is content, reasoning begins before the final response
    have hearly : anyContent partials final = true →
        final.started.thinking = anyReasoning partials final := by
      intro h
      apply Bool.eq_iff_iff.mpr
      exact ⟨hf.early_le, fun hreasoning => hsep hreasoning h⟩
    refine ⟨?_, ?_, ?_⟩
    · intro res hres hsends
      rw [hcontent res hres hsends]
      apply hearly
      simp only [anyContent, Bool.or_eq_true, List.any_eq_true]
      exact .inl ⟨res, hres, hsends⟩
    · intro hsends
      apply hearly
      simp [anyContent, hsends]
    · intro before res after hsplit hspeaks
      obtain ⟨hreasoning, htext⟩ := hearlier before res after hsplit
      have hle := fun h => hf.early_le (hreasoning h)
      have hsum := hcalls before res after hsplit hspeaks
      generalize (before ++ [res]).any (sendsContent ·.oaicompatMsgDiffs) = begun at *
      generalize anyContent partials final = contents at *
      generalize anyReasoning partials final = reasons at *
      generalize res.anthropicHasReasoning = has at *
      cases begun <;> cases contents <;> cases reasons <;> cases has <;> simp at *
  · rintro ⟨hcontent, hend, hcalls⟩
    have hsep : anyReasoning partials final = true → anyContent partials final = true →
        final.started.thinking = true := by
      intro hreasoning h
      simp only [anyContent, Bool.or_eq_true, List.any_eq_true] at h
      rcases h with ⟨res, hres, hsends⟩ | hsends
      · obtain ⟨before, after, hsplit⟩ := List.append_of_mem hres
        apply (hearlier before res after hsplit).1
        rw [hcontent res hres hsends, hreasoning]
      · rw [hend hsends, hreasoning]
    refine ⟨⟨?_, ?_⟩, hsep⟩
    · intro res hres hsends
      rw [hcontent res hres hsends]
      apply Bool.eq_iff_iff.mpr
      refine ⟨fun hreasoning => hsep hreasoning ?_, hf.early_le⟩
      simp only [anyContent, Bool.or_eq_true, List.any_eq_true]
      exact .inl ⟨res, hres, hsends⟩
    · intro before res after hsplit hspeaks
      obtain ⟨hreasoning, htext⟩ := hcalls before res after hsplit hspeaks
      rw [hreasoning, htext]

/-! ### Marks -/

theorem Chain.grows {s s' : Started} {rs : List PartialResult} {block : Block} (h : Chain s rs s')
    (hblock : ∀ call, block ≠ .toolUse call) :
    Grows (s.has block) (s'.has block)
      (marksOf (rs.flatMap fun res => pieces (toJsonAnthropicPartial res)) block) := by
  induction h with
  | nil => exact Grows.refl _
  | @cons res rest started n _ _ _ ih =>
    rw [List.flatMap_cons, marksOf_append, pieces_partialResult]
    exact (loopEvents_grows (partialCallEvents_fills res.anthropicHasReasoning) hblock
      res.anthropicHasReasoning.toNat res.oaicompatMsgDiffs res.started []).append ih

theorem partials_call (partials : List PartialResult) (call : Nat) :
    marksOf (partials.flatMap fun res => pieces (toJsonAnthropicPartial res)) (.toolUse call) =
      callMarks (diffsOf call (partials.flatMap (·.oaicompatMsgDiffs))) := by
  induction partials with
  | nil => rfl
  | cons res rest ih =>
    rw [List.flatMap_cons, marksOf_append, pieces_partialResult, partialLoop_call, ih]
    simp [diffsOf, callMarks]

/-- In front of the closing events. -/
theorem Facts.grows (hf : Facts partials final) (block : Block)
    (hblock : ∀ call, block ≠ .toolUse call) :
    Grows (Started.has ⟨false, false⟩ block)
      (Started.has ⟨anyReasoning partials final, anyContent partials final⟩ block)
      (marksOf (partials.flatMap fun res => pieces (toJsonAnthropicPartial res)) block ++
        marksOf (pieces (loopEvents final.started.thinking.toNat
          (finalCallEvents final.oaicompatMsg) final.started [] final.oaicompatMsgDiffs))
          block) := by
  have hloop := loopEvents_grows (finalCallEvents_fills final.oaicompatMsg) hblock
    final.started.thinking.toNat final.oaicompatMsgDiffs final.started []
  rw [hf.ended] at hloop
  exact (hf.chain.grows hblock).append hloop

/-- Thinking and text always open once. -/
theorem Facts.bracketed_thinking (hf : Facts partials final)
    (hpresent : Present partials final .thinking) :
    Bracketed (marksOf (pieces (anthropicEvents partials final)) .thinking) := by
  have hreasoning : anyReasoning partials final = true := hpresent
  have hgrows := hf.grows .thinking (by simp)
  rw [hreasoning] at hgrows
  have hclosing : marksOf (pieces (closingEvents final final.started.thinking.toNat
      ⟨anyReasoning partials final, anyContent partials final⟩)) .thinking = [.delta, .stop] := by
    rw [pieces_closing, hreasoning]
    cases anyContent partials final <;> simp [marksOf]
  rw [hf.pieces_eq, marksOf_append, marksOf_append, hclosing, ← List.append_assoc]
  have hsignature : Grows true true [Mark.delta] := Grows.add true
  have hstop := Grows.bracketed_iff.mpr (hgrows.append hsignature)
  simpa using hstop

/-- The block of the content is opened once and closed once. -/
theorem Facts.bracketed_text (hf : Facts partials final)
    (hpresent : Present partials final .text) :
    Bracketed (marksOf (pieces (anthropicEvents partials final)) .text) := by
  have hcontent : anyContent partials final = true := hpresent
  have hgrows := hf.grows .text (by simp)
  rw [hcontent] at hgrows
  have hclosing : marksOf (pieces (closingEvents final final.started.thinking.toNat
      ⟨anyReasoning partials final, anyContent partials final⟩)) .text = [.stop] := by
    rw [pieces_closing, hcontent]
    cases anyReasoning partials final <;> simp [marksOf]
  rw [hf.pieces_eq, marksOf_append, marksOf_append, hclosing, ← List.append_assoc]
  exact Grows.bracketed_iff.mpr hgrows

/-- Each call of the message is closed once at the end. -/
theorem marksOf_closing_call (hcall : call < final.oaicompatMsg.toolCalls.length)
    (textIndex : Nat) (started : Started) :
    marksOf (pieces (closingEvents final textIndex started)) (.toolUse call) = [.stop] := by
  have hrange : ∀ n, call < n → (List.range n).filter (fun c => decide (c = call)) = [call] := by
    intro n
    induction n with
    | zero => omega
    | succ n ih =>
      intro hlt
      rw [List.range_succ, List.filter_append]
      by_cases heq : n = call
      · subst heq
        rw [List.filter_eq_nil_iff.mpr (by simp; omega)]
        simp
      · rw [ih (by omega)]
        simp [heq]
  rw [pieces_closing]
  unfold marksOf
  rw [List.filter_append, List.filter_map]
  have hfilter : (fun p : Piece Block => decide (p.block = .toolUse call)) ∘
      (fun c => ⟨.stop, started.thinking.toNat + started.text.toNat + c, .toolUse c⟩) =
      fun c => decide (c = call) := by
    funext c
    simp
  rw [hfilter, hrange _ hcall]
  cases started.thinking <;> cases started.text <;> simp

/-- A call opens once when it is announced once. -/
theorem Facts.bracketed_call (hf : Facts partials final)
    (hcall : call < final.oaicompatMsg.toolCalls.length) :
    Bracketed (marksOf (pieces (anthropicEvents partials final)) (.toolUse call)) ↔
      AnnouncedOnce call partials final := by
  rw [hf.pieces_eq, marksOf_append, marksOf_append, partials_call, marksOf_closing_call hcall,
    ← List.append_assoc, Grows.bracketed_iff]
  unfold AnnouncedOnce
  simp only
  have hof : ∀ diff ∈ diffsOf call (partials.flatMap (·.oaicompatMsgDiffs)),
      diff.toolCallIndex = some call := by
    intro diff hdiff
    simpa using (List.mem_filter.mp hdiff).2
  generalize diffsOf call (partials.flatMap (·.oaicompatMsgDiffs)) = sent at hof ⊢
  rcases hf.inOrder.diffsOf_eq call with hnone | ⟨diff, hone⟩
  · -- the final response has nothing of the call
    rw [loopEvents_call_nil (finalCallEvents_fills _) hnone, List.append_nil, callMarks_grows hof]
    simp [hnone]
  · rw [finalLoop_call hone _ (by simp), ← callMarks_eq_nil hof]
    simp only [hone, ne_eq, List.cons_ne_self, not_false_eq_true, and_true, and_false, or_false]
    constructor
    · rintro ⟨n, hn⟩
      -- it opens the call, so nothing comes before
      cases hsent : callMarks sent with
      | nil => rfl
      | cons mark marks =>
        rw [hsent, List.cons_append, List.cons.injEq] at hn
        have hstart : Mark.start ∈ List.replicate n Mark.delta := by
          rw [← hn.2]
          simp
        cases List.eq_of_mem_replicate hstart
    · intro hnil
      rw [hnil]
      unfold argMarks
      split
      · exact ⟨0, rfl⟩
      · exact ⟨1, rfl⟩

/-! ### The stream -/

/-- The blocks of the stream are well bracketed exactly for these splits of the message. -/
theorem Facts.blocks_iff (hf : Facts partials final) :
    WellBlocked (pieces (anthropicEvents partials final)) ↔
      (∀ call < final.oaicompatMsg.toolCalls.length, AnnouncedOnce call partials final) ∧
        AllAtStop partials final ∧ (anyReasoning partials final = true →
          anyContent partials final = true → final.started.thinking = true) := by
  rw [← hf.corresponds_iff, wellBlocked_iff]
  · apply and_congr_left'
    constructor
    · intro h call hcall
      have hmem := hf.stop_mem (show Present partials final (.toolUse call) from hcall)
      exact (hf.bracketed_call hcall).mp (h _ hmem)
    · intro h p hp
      have hpresent := hf.present hp
      cases hblock : p.block with
      | thinking => exact hf.bracketed_thinking (hblock ▸ hpresent)
      | text => exact hf.bracketed_text (hblock ▸ hpresent)
      | toolUse call =>
        have hcall : call < final.oaicompatMsg.toolCalls.length := by
          rw [hblock] at hpresent
          exact hpresent
        exact (hf.bracketed_call hcall).mpr (h call hcall)
  · intro p hp q hq hpstop hqstop hblock
    rw [hf.stop_index hp hpstop, hf.stop_index hq hqstop, hblock]

/-- No event of the list starts or stops the message. -/
def Inner (events : List Event) : Prop :=
  ∀ event ∈ events, event.isMessageStart = false ∧ event ≠ .messageStop

theorem Inner.append {es es' : List Event} (h : Inner es) (h' : Inner es') :
    Inner (es ++ es') := by
  intro event hmem
  rcases List.mem_append.mp hmem with hmem | hmem
  · exact h event hmem
  · exact h' event hmem

theorem inner_of_pieces {events : List Event}
    (h : ∀ event ∈ events, ∃ p, event.piece = some p) : Inner events := by
  intro event hmem
  obtain ⟨p, hp⟩ := h event hmem
  cases event with
  | messageStart | messageDelta | messageStop => cases hp
  | contentBlockStart | contentBlockDelta | contentBlockStop => exact ⟨rfl, by simp⟩

theorem loopEvents_inner {textIndex : Nat}
    {callEvents : Started → List Nat → Nat → MsgDiff → List Event}
    (hcall : ∀ started calls call diff,
      OnlyFills (.toolUse call) (callEvents started calls call diff))
    (started : Started) (calls : List Nat) (diffs : List MsgDiff) :
    Inner (loopEvents textIndex callEvents started calls diffs) := by
  apply inner_of_pieces
  intro event hmem
  obtain ⟨p, hp, -⟩ := loopEvents_fills hcall diffs started calls event hmem
  exact ⟨p, hp⟩

/-- A partial response starts the message when its token is the first one. -/
theorem toJsonAnthropicPartial_eq (res : PartialResult) : ∃ events, Inner events ∧
    toJsonAnthropicPartial res =
      (if res.nDecoded = 1 then [.messageStart res.info] else []) ++ events :=
  ⟨_, loopEvents_inner (partialCallEvents_fills res.anthropicHasReasoning) _ _ _, rfl⟩

theorem partials_inner {partials : List PartialResult} (h : ∀ res ∈ partials, res.nDecoded ≠ 1) :
    Inner (partials.flatMap toJsonAnthropicPartial) := by
  intro event hmem
  obtain ⟨res, hres, hmem⟩ := List.mem_flatMap.mp hmem
  obtain ⟨events, hinner, heq⟩ := toJsonAnthropicPartial_eq res
  rw [heq, if_neg (h res hres), List.nil_append] at hmem
  exact hinner event hmem

/-- The loop over the diffs of a partial response has no event exactly when they say nothing: no
reasoning, no content and no name or arguments of a call. -/
theorem loopEvents_eq_nil_iff (hasReasoning : Bool) (started : Started) (calls : List Nat)
    (diffs : List MsgDiff) :
    loopEvents hasReasoning.toNat (partialCallEvents hasReasoning) started calls diffs = [] ↔
      sendsReasoning diffs = false ∧ sendsContent diffs = false ∧
        ∀ diff ∈ diffs, ∀ call, ¬ diff.speaksOf call := by
  induction diffs generalizing started calls with
  | nil => simp [sendsReasoning, sendsContent, loopEvents, diffEvents]
  | cons diff diffs ih =>
    have hcall : callPart (partialCallEvents hasReasoning) (started.update diff) calls diff = [] ↔
        ∀ call, ¬ diff.speaksOf call := by
      unfold callPart MsgDiff.speaksOf partialCallEvents argumentEvents
      cases diff.toolCallIndex with
      | none => simp
      | some call => by_cases hname : diff.toolCallDelta.name = [] <;> simp [hname]
    have hreasoning : thinkingEvents started.thinking 0 diff = [] ↔
        diff.reasoningContentDelta = [] := by
      unfold thinkingEvents
      split <;> simp_all
    have hcontent : textEvents started.text hasReasoning.toNat diff = [] ↔
        diff.contentDelta = [] := by
      unfold textEvents
      split <;> simp_all
    rw [loopEvents_cons]
    simp only [List.append_eq_nil_iff]
    rw [hreasoning, hcontent, hcall, ih]
    simp only [sendsReasoning_cons, sendsContent_cons, Bool.or_eq_false_iff, List.mem_cons,
      forall_eq_or_imp, decide_eq_false_iff_not, not_not]
    tauto

/-- A response that does not start the message has events unless it says nothing. -/
theorem toJsonAnthropicPartial_eq_nil_iff (hne : res.nDecoded ≠ 1) :
    toJsonAnthropicPartial res = [] ↔ res.SaysNothing := by
  unfold toJsonAnthropicPartial
  rw [if_neg hne, List.nil_append]
  exact loopEvents_eq_nil_iff _ _ _ _

/-- The final response stops the message. -/
theorem toJsonAnthropicStream_eq (final : FinalResult) : ∃ events, Inner events ∧
    toJsonAnthropicStream final = events ++ [.messageStop] := by
  unfold toJsonAnthropicStream
  simp only
  rw [diffEvents_eq]
  unfold closingEvents
  have hsplit : ∀ (es es' : List Event) (event last : Event),
      es ++ (es' ++ [event, last]) = es ++ (es' ++ [event]) ++ [last] := by simp
  rw [hsplit]
  refine ⟨_, ?_, rfl⟩
  apply (loopEvents_inner (finalCallEvents_fills _) _ _ _).append
  apply Inner.append
  · apply inner_of_pieces
    intro event hmem
    simp only [List.mem_append, List.mem_map] at hmem
    rcases hmem with (hmem | hmem) | ⟨call, -, rfl⟩
    · split at hmem
      · rcases List.mem_cons.mp hmem with rfl | hmem
        · exact ⟨_, rfl⟩
        · rw [List.mem_singleton.mp hmem]
          exact ⟨_, rfl⟩
      · cases hmem
    · split at hmem
      · rw [List.mem_singleton.mp hmem]
        exact ⟨_, rfl⟩
      · cases hmem
    · exact ⟨_, rfl⟩
  · intro event hmem
    rw [List.mem_singleton.mp hmem]
    exact ⟨rfl, by simp⟩

end Stream

/-- The responses around the one that is sent when one token has been counted. -/
theorem Generation.opens_iff {gen : Generation} {cfg : ChatConfig}
    {partials : List PartialResult} {final : FinalResult}
    (h : gen.results cfg = some (partials, final)) :
    gen.Opens partials ↔ ∃ before res after, partials = before ++ res :: after ∧
      res.nDecoded = 1 ∧ (∀ r ∈ before, r.nDecoded ≠ 1 ∧ r.SaysNothing) ∧
        ∀ r ∈ after, r.nDecoded ≠ 1 := by
  have hcounts := gen.results_nDecoded h
  unfold Generation.Opens
  rw [← hcounts]
  constructor
  · rintro ⟨before, after, heq, hbefore, hafter, hquiet⟩
    obtain ⟨front, rest, rfl, rfl, hrest⟩ := List.map_eq_append_iff.mp heq
    obtain ⟨res, back, rfl, hone, rfl⟩ := List.map_eq_cons_iff.mp hrest
    rw [List.length_map, List.take_left] at hquiet
    refine ⟨front, res, back, rfl, hone, ?_, ?_⟩
    · intro r hr
      exact ⟨fun hc => hbefore (hc ▸ List.mem_map_of_mem hr), hquiet r hr⟩
    · intro r hr hc
      exact hafter (hc ▸ List.mem_map_of_mem hr)
  · rintro ⟨before, res, after, rfl, hone, hbefore, hafter⟩
    refine ⟨before.map (·.nDecoded), after.map (·.nDecoded), ?_, ?_, ?_, ?_⟩
    · rw [List.map_append, List.map_cons, hone]
    · intro hmem
      obtain ⟨r, hr, hc⟩ := List.mem_map.mp hmem
      exact (hbefore r hr).1 hc
    · intro hmem
      obtain ⟨r, hr, hc⟩ := List.mem_map.mp hmem
      exact hafter r hr hc
    · rw [List.length_map, List.take_left]
      exact fun r hr => (hbefore r hr).2

/-- The message starts once and first exactly when one response is sent at the count of one and
those before it have no events. -/
theorem start_iff {partials : List PartialResult} {last : List Event} (hlast : Inner last) :
    (∃ event rest, partials.flatMap toJsonAnthropicPartial ++ (last ++ [.messageStop]) =
        event :: rest ∧ event.isMessageStart ∧ ∀ e ∈ rest, e.isMessageStart = false) ↔
      ∃ before res after, partials = before ++ res :: after ∧ res.nDecoded = 1 ∧
        (∀ r ∈ before, r.nDecoded ≠ 1 ∧ r.SaysNothing) ∧ ∀ r ∈ after, r.nDecoded ≠ 1 := by
  have hend : ∀ e ∈ last ++ [.messageStop], e.isMessageStart = false := by
    intro e he
    rcases List.mem_append.mp he with he | he
    · exact (hlast e he).1
    · rw [List.mem_singleton.mp he]
      rfl
  constructor
  · rintro ⟨event, rest, heq, hevent, hrest⟩
    -- some response is sent at the count of one, or no event starts the message
    have hone : (1 : Nat) ∈ partials.map (·.nDecoded) := by
      by_contra hnot
      have hne : ∀ r ∈ partials, r.nDecoded ≠ 1 :=
        fun r hr hc => hnot (hc ▸ List.mem_map_of_mem hr)
      have hmem : event ∈ partials.flatMap toJsonAnthropicPartial ++ (last ++ [.messageStop]) := by
        rw [heq]
        exact List.mem_cons_self
      rcases List.mem_append.mp hmem with hmem | hmem
      · rw [(partials_inner hne event hmem).1] at hevent
        cases hevent
      · rw [hend event hmem] at hevent
        cases hevent
    obtain ⟨counts, counts', hsplit, hfirst⟩ := List.eq_append_cons_of_mem hone
    obtain ⟨before, tail, rfl, rfl, htail⟩ := List.map_eq_append_iff.mp hsplit
    obtain ⟨res, after, rfl, hres, rfl⟩ := List.map_eq_cons_iff.mp htail
    have hbefore : ∀ r ∈ before, r.nDecoded ≠ 1 :=
      fun r hr hc => hfirst (hc ▸ List.mem_map_of_mem hr)
    obtain ⟨inner, hinner, hresEq⟩ := toJsonAnthropicPartial_eq res
    rw [if_pos hres, List.singleton_append] at hresEq
    rw [List.flatMap_append, List.flatMap_cons, hresEq] at heq
    -- the events of the responses before would come first
    have hnil : before.flatMap toJsonAnthropicPartial = [] := by
      cases hcons : before.flatMap toJsonAnthropicPartial with
      | nil => rfl
      | cons e es =>
        rw [hcons] at heq
        injection heq with he _
        have hin := partials_inner hbefore e (hcons ▸ List.mem_cons_self)
        rw [he] at hin
        rw [hin.1] at hevent
        cases hevent
    refine ⟨before, res, after, rfl, hres, ?_, ?_⟩
    · intro r hr
      refine ⟨hbefore r hr, (toJsonAnthropicPartial_eq_nil_iff (hbefore r hr)).mp ?_⟩
      exact List.flatMap_eq_nil_iff.mp hnil r hr
    · -- a later response at that count starts the message once more
      intro r hr hc
      obtain ⟨more, -, hmore⟩ := toJsonAnthropicPartial_eq r
      rw [if_pos hc, List.singleton_append] at hmore
      rw [hnil] at heq
      injection heq with _ htl
      have hstart : Event.messageStart r.info ∈ rest := by
        rw [← htl]
        apply List.mem_append_left
        apply List.mem_append_right
        exact List.mem_flatMap.mpr ⟨r, hr, hmore ▸ List.mem_cons_self⟩
      have := hrest _ hstart
      cases this
  · rintro ⟨before, res, after, rfl, hres, hbefore, hafter⟩
    have hnil : before.flatMap toJsonAnthropicPartial = [] := by
      rw [List.flatMap_eq_nil_iff]
      intro r hr
      exact (toJsonAnthropicPartial_eq_nil_iff (hbefore r hr).1).mpr (hbefore r hr).2
    obtain ⟨inner, hinner, hresEq⟩ := toJsonAnthropicPartial_eq res
    rw [if_pos hres, List.singleton_append] at hresEq
    rw [List.flatMap_append, List.flatMap_cons, hresEq, hnil]
    refine ⟨_, _, rfl, rfl, ?_⟩
    intro e he
    rcases List.mem_append.mp he with he | he
    · rcases List.mem_append.mp he with he | he
      · exact (hinner e he).1
      · exact (partials_inner hafter e he).1
    · exact hend e he

/-- No partial response stops the message. -/
theorem stop_last (partials : List PartialResult) {last : List Event} (hlast : Inner last) :
    .messageStop ∉ partials.flatMap toJsonAnthropicPartial ++ last := by
  intro hmem
  rcases List.mem_append.mp hmem with hmem | hmem
  · obtain ⟨res, -, hmem⟩ := List.mem_flatMap.mp hmem
    obtain ⟨events, hinner, heq⟩ := toJsonAnthropicPartial_eq res
    rw [heq] at hmem
    rcases List.mem_append.mp hmem with hmem | hmem
    · split at hmem
      · cases List.mem_singleton.mp hmem
      · cases hmem
    · exact (hinner _ hmem).2 rfl
  · exact (hlast _ hmem).2 rfl

/-- The event stream of a generation is well formed exactly for the splits of `Streamable`. -/
theorem Generation.wellFormed_iff (gen : Generation) (cfg : ChatConfig)
    {partials : List PartialResult} {final : FinalResult}
    (h : gen.results cfg = some (partials, final)) :
    WellFormedStream (anthropicEvents partials final) ↔ Streamable gen partials final := by
  have hf := gen.results_facts h
  obtain ⟨last, hlast, hfinal⟩ := toJsonAnthropicStream_eq final
  constructor
  · rintro ⟨hstart, -, hblocks⟩
    obtain ⟨hannounced, hall⟩ := hf.blocks_iff.mp hblocks
    obtain ⟨hcontent, hend, hcalls⟩ := hf.indices_iff.mp hall
    refine ⟨?_, hcontent, hend, hcalls, hannounced⟩
    rw [anthropicEvents, hfinal] at hstart
    exact (gen.opens_iff h).mpr ((start_iff hlast).mp hstart)
  · rintro ⟨hopens, hcontent, hend, hcalls, hannounced⟩
    have hblocks := hf.blocks_iff.mpr ⟨hannounced, hf.indices_iff.mpr ⟨hcontent, hend, hcalls⟩⟩
    refine ⟨?_, ?_, hblocks⟩
    · rw [anthropicEvents, hfinal]
      exact (start_iff hlast).mpr ((gen.opens_iff h).mp hopens)
    · rw [anthropicEvents, hfinal, ← List.append_assoc]
      exact ⟨_, rfl, stop_last partials hlast⟩

/-- A client without throttle. -/
def plainChat : ChatConfig where
  genToolCallId := fun _ => [49]
  info := {}

/-- A token after which the parser finds the message; the text itself is not looked at. -/
def chatToken (msg : ChatMsg) : Token := ⟨[65], [65], some msg⟩

/-- Reasoning and content in the first response, a whole call in the second. -/
def thinkThenCall : Generation where
  steps :=
    [.sampled 1, .token (chatToken { reasoningContent := [97], content := [98] }),
      .sampled 1, .token (chatToken
        { reasoningContent := [97], content := [98], toolCalls := [⟨[102], [123, 125], []⟩] })]
  stopKind := .eos
  last := chatToken
    { reasoningContent := [97], content := [98], toolCalls := [⟨[102], [123, 125], []⟩] }

/-- Its partial responses. -/
def thinkThenCallPartials : List PartialResult :=
  [⟨{}, 1, [{ reasoningContentDelta := [97] }, { contentDelta := [98] }], true, {}⟩,
    ⟨{}, 2, [{ toolCallIndex := some 0, toolCallDelta := ⟨[102], [123, 125], [49]⟩ }], true,
      ⟨true, true⟩⟩]

/-- Its final response. -/
def thinkThenCallFinal : FinalResult where
  oaicompatMsg :=
    { reasoningContent := [97], content := [98], toolCalls := [⟨[102], [123, 125], [49]⟩] }
  oaicompatMsgDiffs := []
  started := ⟨true, true⟩
  nDecoded := 2
  stopKind := .eos
  stoppingWord := []

/-- A generation that thinks and then calls a tool: the stream is well formed. -/
theorem thinkThenCall_wellFormed :
    thinkThenCall.results plainChat = some (thinkThenCallPartials, thinkThenCallFinal) ∧
      WellFormedStream (anthropicEvents thinkThenCallPartials thinkThenCallFinal) := by
  have hresults : thinkThenCall.results plainChat =
      some (thinkThenCallPartials, thinkThenCallFinal) := by decide
  refine ⟨hresults, (thinkThenCall.wellFormed_iff plainChat hresults).mpr ?_⟩
  refine ⟨⟨[], [2], by decide, by simp, by decide, by simp⟩, by decide, by decide, ?_, ?_⟩
  · intro before res after heq _
    unfold thinkThenCallPartials at heq
    rcases before with _ | ⟨b, _ | ⟨c, before⟩⟩
    · rw [List.nil_append, List.cons.injEq] at heq
      obtain ⟨rfl, -⟩ := heq
      decide
    · rw [List.cons_append, List.nil_append, List.cons.injEq, List.cons.injEq] at heq
      obtain ⟨rfl, rfl, -⟩ := heq
      decide
    · simp at heq
  · intro call hcall
    obtain rfl : call = 0 := Nat.lt_one_iff.mp hcall
    exact .inr ⟨⟨[], _, [], rfl, by simp, by decide, by simp⟩, rfl⟩

/-- A call that is announced with a part of its arguments, and completed by the final response. -/
def splitCall : Generation where
  steps := [.sampled 1, .token (chatToken { toolCalls := [⟨[102], [123], []⟩] })]
  stopKind := .eos
  last := chatToken { toolCalls := [⟨[102], [123, 125], []⟩] }

/-- With a buffer for banned strings the first token is sent when two have been counted, so that no
response starts the message. -/
example (token : Token) (h : token.incomplete = false) :
    sentAt 0 [.sampled 1, .sampled 1, .token token] = [2] := by simp [sentAt, h]

/-- The block of the call is started twice. -/
theorem splitCall_not_wellFormed : ∃ partials final,
    splitCall.results plainChat = some (partials, final) ∧
      ¬ WellFormedStream (anthropicEvents partials final) := by
  refine ⟨_, _, rfl, ?_⟩
  intro h
  have hbracketed := h.blocks.bracketed ⟨.start, 0, .toolUse 0⟩ (by decide)
  revert hbracketed
  decide

end PxqLlama.Server.Anthropic
