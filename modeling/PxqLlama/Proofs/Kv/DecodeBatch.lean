import PxqLlama.Kv.DecodeBatch
import PxqLlama.Proofs.Kv.Defrag
import PxqLlama.Proofs.Kv.Mirror
import PxqLlama.Proofs.Kv.SelfHead

/-!
# `Proofs.Kv.DecodeBatch`: what a decode adds to the cache

The contents of a cache are the positions and sequences of its cells in use. A compaction, a shift
and a state copy keep them, and an ubatch that is placed adds its tokens. So a decode adds the
tokens of the ubatches that it placed, each of them once, whether it succeeds or not
(`llamaDecode_contents`). `storeRun_contents` is for the runs of all operations.
-/

namespace PxqLlama.Kv

open Tally

/-- The positions and the sequences of the cells in use. -/
def contents (c : KvCache) : Multiset (Int × Finset Int) :=
  (values KvCell.HasPos c.cells 0 c.size).map KvCell.content

/-- What a token is in a cell. -/
def Token.content (t : Token) : Int × Finset Int := (t.pos, t.seqId.toFinset)

theorem contents_eq (c : KvCache) :
    contents c
      = ((Multiset.range c.size).map fun i => (c.cells i).content).filter fun x => 0 ≤ x.1 := by
  rw [contents, values, places, Multiset.map_map, Multiset.filter_map, Finset.filter_val,
    ← Finset.range_eq_Ico]
  rfl

/-- The cells are accounted for, and the head is one of them. -/
structure SelfOk (slots : Nat) (c : KvCache) : Prop where
  recurrent : c.recurrent = false
  qnextSlots : c.qnextSlots = slots
  size : c.size < 2 ^ 32
  head : c.head ≤ c.size
  accounted : Accounted c

variable {b : UBatch}

section
variable {slots : Nat} {c c' : KvCache}

/-- Cells that differ in their shift and source only. -/
structure SameContent (c c' : KvCache) : Prop where
  size : c'.size = c.size
  recurrent : c'.recurrent = c.recurrent
  qnextSlots : c'.qnextSlots = c.qnextSlots
  used : c'.used = c.used
  content : ∀ i, (c'.cells i).content = (c.cells i).content

theorem SameContent.pos (h : SameContent c c') (i : Nat) : (c'.cells i).pos = (c.cells i).pos :=
  congrArg Prod.fst (h.content i)

theorem SameContent.accounted (h : SameContent c c') (hc : Accounted c) : Accounted c' := by
  refine hc.of_cells h.size h.used (fun i _ => ?_) fun i hi => ?_
  · rw [h.pos]
  · have hsound := hc.sound i (h.size ▸ hi)
    have hseq : (c'.cells i).seqId = (c.cells i).seqId := congrArg Prod.snd (h.content i)
    rw [KvCell.Sound, h.pos, hseq]
    exact hsound

theorem SameContent.contents (h : SameContent c c') : contents c' = contents c := by
  rw [contents_eq, contents_eq, h.size, Multiset.map_congr rfl fun i _ => h.content i]

theorem sameContent_clearShift (c : KvCache) : SameContent c (clearShift c) := by
  refine ⟨rfl, rfl, rfl, rfl, fun i => ?_⟩
  simp only [clearShift]
  split <;> rfl

theorem sameContent_clearCopy (c : KvCache) : SameContent c (clearCopy c) := by
  refine ⟨rfl, rfl, rfl, rfl, fun i => ?_⟩
  simp only [clearCopy]
  split <;> rfl

theorem SelfOk.sameContent (h : SameContent c c') (hhead : c'.head = c.head)
    (hc : SelfOk slots c) : SelfOk slots c' where
  recurrent := h.recurrent.trans hc.recurrent
  qnextSlots := h.qnextSlots.trans hc.qnextSlots
  size := h.size ▸ hc.size
  head := by
    rw [hhead, h.size]
    exact hc.head
  accounted := h.accounted hc.accounted

theorem SelfOk.of_eq (hc : SelfOk slots c) (hhead : c'.head ≤ c.size)
    (h : c' = { c with head := c'.head, n := c'.n, doDefrag := c'.doDefrag }) :
    SelfOk slots c' := by
  rw [h]
  exact ⟨hc.recurrent, hc.qnextSlots, hc.size, hhead, ⟨hc.accounted.used, hc.accounted.sound⟩⟩

/-- An ubatch in free cells adds its tokens. -/
theorem contents_place (hc : Accounted c) {h : Nat} (hrun : c.FreeRun b.length h)
    (hb : ∀ t ∈ b, 0 ≤ t.pos) : contents (c.place h b) = contents c + b.map Token.content := by
  obtain ⟨hfits, hfree⟩ := hrun
  obtain ⟨rest, hsize⟩ := Nat.exists_eq_add_of_le hfits
  -- before the slot and after it the cells stay; in the slot they were free
  have hbefore : ((Multiset.range h).map fun i => (placeTokens c.cells h b i).content)
      = (Multiset.range h).map fun i => (c.cells i).content :=
    Multiset.map_congr rfl fun i hi => by
      rw [placeTokens_of_not_mem (Or.inl (Multiset.mem_range.mp hi))]
  have hafter : ((Multiset.range rest).map fun i =>
        (placeTokens c.cells h b (h + b.length + i)).content)
      = (Multiset.range rest).map fun i => (c.cells (h + b.length + i)).content :=
    Multiset.map_congr rfl fun i _ => by
      rw [placeTokens_of_not_mem (Or.inr (Nat.le_add_right _ i))]
  have hold : ((Multiset.range b.length).map fun k => (c.cells (h + k)).content).filter
      (fun x => 0 ≤ x.1) = 0 := by
    rw [Multiset.filter_eq_nil]
    intro x hx
    obtain ⟨k, hk, rfl⟩ := Multiset.mem_map.mp hx
    exact Int.not_le.mpr (hfree k (Multiset.mem_range.mp hk))
  have hnew : ((Multiset.range b.length).map fun k => (placeTokens c.cells h b (h + k)).content)
      = b.map Token.content := by
    rw [← Multiset.coe_range, Multiset.map_coe]
    refine congrArg _ (List.ext_getElem (by simp) fun k hk _ => ?_)
    have hlt : k < b.length := by simpa using hk
    -- a free cell holds no sequence
    have hempty : (c.cells (h + k)).seqId = ∅ := by
      have hsound := hc.sound (h + k) (by omega)
      rw [← Finset.not_nonempty_iff_eq_empty]
      exact fun hne => Int.not_le.mpr (hfree k hlt) (hsound.mpr hne)
    simp only [List.getElem_map, List.getElem_range]
    rw [placeTokens_mem hlt, KvCell.content, Token.content, hempty, Finset.empty_union]
  have hall : ((b.map Token.content : List (Int × Finset Int)) : Multiset (Int × Finset Int)).filter
      (fun x => 0 ≤ x.1) = b.map Token.content := by
    rw [Multiset.filter_eq_self]
    intro x hx
    obtain ⟨t, ht, rfl⟩ := List.mem_map.mp (Multiset.mem_coe.mp hx)
    exact hb t ht
  rw [contents_eq, contents_eq, show (c.place h b).size = c.size from rfl, hsize,
    Multiset.range_add, Multiset.range_add]
  simp only [Multiset.map_add, Multiset.map_map, Function.comp_def, Multiset.filter_add]
  rw [show (c.place h b).cells = placeTokens c.cells h b from rfl, hbefore, hafter, hnew, hold,
    hall, add_zero, add_right_comm]

/-- A compaction moves cells. -/
theorem SelfOk.defrag (hc : SelfOk slots c) {maxMoves : Nat} (hmoves : 0 < maxMoves) :
    ∃ c' ids, llamaKvCacheDefragInternal c maxMoves = some (c', ids) ∧ SelfOk slots c' ∧
      contents c' = contents c := by
  obtain ⟨st, k, hvars, hst, -⟩ := defragVars_filled hc.accounted hmoves
  have hused : c.used ≤ c.size := by
    rw [hc.accounted.used]
    exact numUsed_le c
  rw [llamaKvCacheDefragInternal_eq, hvars]
  have hacc : Accounted { c with head := st.head, cells := st.cells } :=
    hst.accounted hc.accounted rfl rfl rfl
  refine ⟨_, _, rfl, ⟨hc.recurrent, hc.qnextSlots, hc.size, ?_, hacc⟩, ?_⟩
  · show st.head ≤ c.size
    rcases hst.head with hhead | hhead
    · rw [hhead]
      exact hc.head
    · omega
  · exact congrArg (Multiset.map KvCell.content) (hst.values_hasPos hc.accounted)

end

/-! ### One ubatch -/

section
variable {slots : Nat} {swa : Bool} {ctx ctx' : KvContext}

/-- The context that a decode needs. -/
structure DecodeReady (slots : Nat) (swa : Bool) (ctx : KvContext) : Prop where
  self : SelfOk slots ctx.kvSelf
  maxMoves : 0 < ctx.maxMoves
  swaKvActive : ctx.swaKvActive = swa

theorem DecodeReady.queued (hctx : DecodeReady slots swa ctx) :
    DecodeReady slots swa (kvDefrag ctx) :=
  ⟨hctx.self.of_eq hctx.self.head rfl, hctx.maxMoves, hctx.swaKvActive⟩

theorem DecodeReady.shift (hctx : DecodeReady slots swa ctx) (h : updateShift ctx = some ctx') :
    DecodeReady slots swa ctx' ∧ contents ctx'.kvSelf = contents ctx.kvSelf := by
  rcases updateShift_cases h with rfl | rfl
  · exact ⟨hctx, rfl⟩
  · have hsame := sameContent_clearShift ctx.kvSelf
    exact ⟨⟨hctx.self.sameContent hsame rfl, hctx.maxMoves, hctx.swaKvActive⟩, hsame.contents⟩

theorem DecodeReady.copy (hctx : DecodeReady slots swa ctx) :
    DecodeReady slots swa (updateCopy ctx) ∧
      contents (updateCopy ctx).kvSelf = contents ctx.kvSelf := by
  rw [updateCopy]
  split
  · have hsame := sameContent_clearCopy ctx.kvSelf
    exact ⟨⟨hctx.self.sameContent hsame rfl, hctx.maxMoves, hctx.swaKvActive⟩, hsame.contents⟩
  · exact ⟨hctx, rfl⟩

theorem DecodeReady.defrag (hctx : DecodeReady slots swa ctx) :
    ∃ ctx', updateDefrag ctx = some ctx' ∧ DecodeReady slots swa ctx' ∧
      contents ctx'.kvSelf = contents ctx.kvSelf := by
  rw [updateDefrag]
  split
  · obtain ⟨c', ids, hdefrag, hok, hcontents⟩ := hctx.self.defrag hctx.maxMoves
    rw [hdefrag]
    exact ⟨_, rfl, ⟨hok.of_eq hok.head rfl, hctx.maxMoves, hctx.swaKvActive⟩, hcontents⟩
  · exact ⟨ctx, rfl, hctx, rfl⟩

/-- What was put off is done, and the cache holds what it held. -/
theorem DecodeReady.update (hctx : DecodeReady slots swa ctx) :
    ∃ ret ctx', llamaKvCacheUpdate ctx = some (ret, ctx') ∧ ret ≤ 1 ∧ DecodeReady slots swa ctx' ∧
      contents ctx'.kvSelf = contents ctx.kvSelf := by
  rw [llamaKvCacheUpdate]
  cases hshift : updateShift ctx with
  | none => exact ⟨1, ctx, rfl, Nat.le_refl 1, hctx, rfl⟩
  | some ctx₁ =>
    obtain ⟨h₁, hcontents₁⟩ := hctx.shift hshift
    obtain ⟨h₂, hcontents₂⟩ := h₁.copy
    obtain ⟨ctx', hdefrag, h', hcontents⟩ := h₂.defrag
    simp only [hdefrag, Option.map_some]
    exact ⟨0, ctx', rfl, Nat.zero_le 1, h', hcontents.trans (hcontents₂.trans hcontents₁)⟩

/-- An ubatch is placed as a whole, or not at all. -/
theorem DecodeReady.place (hctx : DecodeReady slots swa ctx)
    (hb : ∀ t ∈ b, 0 ≤ t.pos ∧ t.seqId ≠ []) {ret : Nat} (h : placeUbatch ctx b = (ret, ctx')) :
    ret ≤ 1 ∧ DecodeReady slots swa ctx' ∧ contents ctx'.kvSelf =
      if ret = 0 then contents ctx.kvSelf + b.map Token.content else contents ctx.kvSelf := by
  have hrewind : SelfOk slots (rewindHead ctx.kvSelf b.length) ∧
      contents (rewindHead ctx.kvSelf b.length) = contents ctx.kvSelf := by
    rw [rewindHead]
    split
    · exact ⟨hctx.self.of_eq (Nat.zero_le _) rfl, rfl⟩
    · exact ⟨hctx.self, rfl⟩
  obtain ⟨hok, hcontents⟩ := hrewind
  have halloc := @findSlot_allocated _ b hok.recurrent hok.head
  have hacc := halloc.accounted hok.accounted hok.size hb
  obtain ⟨hsize, hrec, hqnext, hhead⟩ := halloc.shape
  simp only [placeUbatch] at h
  generalize llamaKvCacheFindSlot (rewindHead ctx.kvSelf b.length) b = r
    at h halloc hacc hsize hrec hqnext hhead
  have hok' : SelfOk slots r.2 :=
    ⟨hrec.trans hok.recurrent, hqnext.trans hok.qnextSlots, hsize ▸ hok.size, hsize ▸ hhead, hacc⟩
  split at h
  · cases h
    exact ⟨Nat.le_refl 1, ⟨hok, hctx.maxMoves, hctx.swaKvActive⟩, hcontents⟩
  · split at h
    · rename_i hno
      cases h
      refine ⟨Nat.le_refl 1, ⟨hok', hctx.maxMoves, hctx.swaKvActive⟩, ?_⟩
      cases halloc with
      | found hslot => exact absurd hno (by simp)
      | full hfull hle => exact hcontents
    · rename_i hyes
      cases h
      refine ⟨Nat.zero_le 1, ⟨?_, hctx.maxMoves, hctx.swaKvActive⟩, ?_⟩
      · show SelfOk slots (setSelfN r.2 _)
        rw [setSelfN, if_neg (by simp [hok'.recurrent])]
        exact hok'.of_eq hok'.head rfl
      · show contents (setSelfN r.2 _) = _
        rw [setSelfN, if_neg (by simp [hok'.recurrent]), if_pos rfl, ← hcontents]
        cases halloc with
        | found hslot => exact contents_place hok.accounted hslot.freeRun fun t ht => (hb t ht).1
        | full hfull hle => exact absurd rfl hyes

/-- One ubatch of a decode. -/
theorem DecodeReady.decodeUbatch (hctx : DecodeReady slots swa ctx)
    (hb : ∀ t ∈ b, 0 ≤ t.pos ∧ t.seqId ≠ []) :
    ∃ ret ctx', decodeUbatch ctx b = some (ret, ctx') ∧ ret ≤ 1 ∧ DecodeReady slots swa ctx' ∧
      contents ctx'.kvSelf =
        if ret = 0 then contents ctx.kvSelf + b.map Token.content else contents ctx.kvSelf := by
  obtain ⟨ret₁, ctx₁, hupdate, hle, hready, hcontents⟩ := hctx.update
  simp only [Kv.decodeUbatch, decodeInputs, hupdate]
  by_cases hret : ret₁ = 0
  · rw [if_neg (not_not.mpr hret), Option.map_some]
    cases hplace : placeUbatch ctx₁ b with
    | mk ret ctx₂ =>
      obtain ⟨hle, hready, hcontents'⟩ := hready.place hb hplace
      rw [hcontents] at hcontents'
      by_cases hplaced : ret = 0
      · -- the head moves behind the ubatch
        rw [if_pos hplaced]
        rw [hplaced] at hcontents'
        refine ⟨0, _, rfl, Nat.zero_le 1, ⟨?_, hready.maxMoves, hready.swaKvActive⟩, hcontents'⟩
        exact hready.self.of_eq (advanceHead_head_le _ _) rfl
      · rw [if_neg hplaced]
        exact ⟨ret, ctx₂, rfl, hle, hready, hcontents'⟩
  · rw [if_pos hret, Option.map_some, if_neg hret]
    exact ⟨ret₁, ctx₁, rfl, hle, hready, by rw [if_neg hret, hcontents]⟩

end

/-! ### The loop -/

section
variable {slots : Nat} {swa : Bool} {call : DecodeCall} {batch : List Token}

/-- An ubatch is not empty while tokens are left. -/
structure DecodeCall.Splits (call : DecodeCall) : Prop where
  nUbatch : 1 ≤ call.nUbatch
  split : ∀ b, 1 ≤ call.split b

theorem DecodeCall.Splits.ubatch_eq (h : call.Splits) {rest : List Token} (hrest : rest ≠ []) :
    ∃ n, call.ubatch rest = rest.take n ∧ (call.ubatch rest).length = n ∧ 1 ≤ n := by
  have hlen := List.length_pos_iff.mpr hrest
  have hn := h.nUbatch
  have hs := h.split (rest.take call.nUbatch)
  refine ⟨min (call.split (rest.take call.nUbatch)) (min call.nUbatch rest.length), ?_, ?_, ?_⟩
  · rw [DecodeCall.ubatch, List.take_take, List.take_eq_take_iff]
    omega
  · simp only [DecodeCall.ubatch, List.length_take]
  · omega

/-- How a decode ends: the tokens that were placed are the first ones, and the result says how
many there can be. -/
structure Decoded (slots : Nat) (swa : Bool) (batch : List Token) (ctx : KvContext) (ret : Int)
    (n : Nat) (ctx' : KvContext) : Prop where
  le : n ≤ batch.length
  ret : (ret = 0 ∧ n = batch.length) ∨ (ret = 1 ∧ n < batch.length) ∨ (ret = -3 ∧ 0 < n) ∨
    ((ret = -1 ∨ ret = -2) ∧ n = 0)
  ready : DecodeReady slots swa ctx'
  contents : contents ctx'.kvSelf = Kv.contents ctx.kvSelf + (batch.take n).map Token.content

/-- The loop over the ubatches, from any token on: it ends, and it has placed what it reports. -/
theorem decodeLoop_decoded (hsplit : call.Splits) (hb : ∀ t ∈ batch, 0 ≤ t.pos ∧ t.seqId ≠ [])
    {fuel cur : Nat} {ctx ctx₁ : KvContext} (hcur : cur ≤ batch.length)
    (hfuel : batch.length < fuel + cur) (hready : DecodeReady slots swa ctx₁)
    (hcontents :
      contents ctx₁.kvSelf = contents ctx.kvSelf + (batch.take cur).map Token.content) :
    ∃ ret n ctx', decodeLoop call batch fuel cur ctx₁ = some (ret, n, ctx') ∧
      Decoded slots swa batch ctx ret n ctx' := by
  induction fuel generalizing cur ctx₁ with
  | zero => omega
  | succ fuel ih =>
    rw [decodeLoop]
    split
    · rename_i hend
      have hlen : cur = batch.length := by omega
      refine ⟨0, cur, _, rfl, hcur, Or.inl ⟨rfl, hlen⟩, ?_, ?_⟩
      · rw [DecodeCall.queueDefrag]
        split
        · exact hready.queued
        · exact hready
      · rw [← hcontents, DecodeCall.queueDefrag]
        split <;> rfl
    · rename_i hlt
      have hrest : batch.drop cur ≠ [] := by
        rw [Ne, List.drop_eq_nil_iff]
        omega
      obtain ⟨m, heq, hlen, hm⟩ := hsplit.ubatch_eq hrest
      have hfit : cur + m ≤ batch.length := by
        rw [heq, List.length_take, List.length_drop] at hlen
        omega
      have hsub : ∀ t ∈ call.ubatch (batch.drop cur), 0 ≤ t.pos ∧ t.seqId ≠ [] := by
        intro t ht
        rw [heq] at ht
        exact hb t (List.mem_of_mem_drop (List.mem_of_mem_take ht))
      obtain ⟨ret₁, ctx₂, hdecode, hle, hready₂, hcontents₂⟩ := hready.decodeUbatch hsub
      simp only [hdecode]
      by_cases hret : ret₁ = 0
      · -- the ubatch is placed
        rw [if_pos hret, hcontents, heq, add_assoc, Multiset.coe_add, ← List.map_append,
          ← List.take_add] at hcontents₂
        rw [if_neg (by simp [hret]), hlen]
        split
        · exact ⟨-3, cur + m, ctx₂, rfl, hfit, Or.inr (Or.inr (Or.inl ⟨rfl, by omega⟩)), hready₂,
            hcontents₂⟩
        · exact ih hfit (by omega) hready₂ hcontents₂
      · rw [if_neg hret, hcontents] at hcontents₂
        rw [if_pos (by simpa using hret)]
        exact ⟨ret₁, cur, ctx₂, rfl, hcur, Or.inr (Or.inl ⟨by omega, by omega⟩), hready₂,
          hcontents₂⟩

/-- A decode adds the tokens that it placed, each of them once, also when it fails. -/
theorem llamaDecode_contents (hsplit : call.Splits) (hb : ∀ t ∈ batch, 0 ≤ t.pos ∧ t.seqId ≠ [])
    {ctx : KvContext} (hctx : DecodeReady slots swa ctx) :
    ∃ ret n ctx', llamaDecode call ctx batch = some (ret, n, ctx') ∧
      Decoded slots swa batch ctx ret n ctx' := by
  rw [llamaDecode]
  split
  · exact ⟨-1, 0, ctx, rfl, Nat.zero_le _, Or.inr (Or.inr (Or.inr ⟨Or.inl rfl, rfl⟩)), hctx,
      by simp⟩
  split
  · exact ⟨-2, 0, ctx, rfl, Nat.zero_le _, Or.inr (Or.inr (Or.inr ⟨Or.inr rfl, rfl⟩)), hctx,
      by simp⟩
  · exact decodeLoop_decoded hsplit hb (Nat.zero_le _) (Nat.lt_succ_self _) hctx (by simp)

end

/-! ### Runs -/

/-- The edit that a call makes of the cells. -/
def KvOp.edit : KvOp → Option SeqEdit
  | .seqRm s p0 p1 => some (.rm s p0 p1)
  | .seqCp src dst p0 p1 => if src = dst then none else some (.cp src dst p0 p1)
  | .seqKeep s => some (.keep s)
  | .seqAdd s p0 p1 delta => if delta = 0 then none else some (.add s p0 p1 delta)
  | .seqDiv s p0 p1 d => if d = 1 then none else some (.div s p0 p1 d)
  | .clear => some .clear
  | _ => none

/-- What is held after a call that placed `n` tokens: a decode adds these, and an edit changes the
positions and sequences that are held, and lets those go that it frees. -/
def StoreOp.held (held : Multiset (Int × Finset Int)) (n : Nat) :
    StoreOp → Multiset (Int × Finset Int)
  | .decode _ batch => held + (batch.take n).map Token.content
  | .other op =>
    match op.edit with
    | none => held
    | some e => (held.map fun x => e.content x).filter fun x => 0 ≤ x.1

/-- The batch has tokens, with positions and sequences; a call other than a decode is one of the
edits, a defragmentation or an update. -/
def StoreOp.Ok : StoreOp → Prop
  | .decode call batch => batch ≠ [] ∧ call.Splits ∧ ∀ t ∈ batch, 0 ≤ t.pos ∧ t.seqId ≠ []
  | .other op => op.IsEdit ∨ op = .defrag ∨ op = .update

section
variable {c c' : KvCache} {ctx : KvContext}

/-- An edit looks at each cell by itself, and fills none that is free. -/
theorem contents_edited {e : SeqEdit} (hc : Accounted c) (hc' : Accounted c')
    (h : Edited e c c') :
    contents c' = ((contents c).map fun x => e.content x).filter fun x => 0 ≤ x.1 := by
  have hcell : ∀ i ∈ Multiset.range c.size,
      (c'.cells i).content = e.content (c.cells i).content := by
    intro i hi
    rw [h.cell i (Multiset.mem_range.mp hi), e.cell_content]
  rw [contents_eq, contents_eq, h.size, Multiset.map_congr rfl hcell, Multiset.filter_map,
    Multiset.filter_map, Multiset.filter_map, Multiset.filter_map, Multiset.map_map,
    Multiset.filter_filter]
  refine congrArg _ (Multiset.filter_congr fun i hi => (and_iff_left_of_imp fun hpos => ?_).symm)
  have hlt := Multiset.mem_range.mp hi
  refine (hc.sound i hlt).mpr (Finset.nonempty_iff_ne_empty.mpr fun hempty => ?_)
  -- a cell without sequences gets none
  have hsound := hc'.sound i (h.size ▸ hlt)
  rw [KvCell.Sound, ← show (c'.cells i).content.1 = (c'.cells i).pos from rfl,
    ← show (c'.cells i).content.2 = (c'.cells i).seqId from rfl, hcell i hi,
    e.content_empty hempty] at hsound
  exact Finset.not_nonempty_empty (hsound.mp hpos)

theorem SelfOk.edit {e : SeqEdit} (he : e.Ok) (hc : SelfOk 0 c) :
    ∃ c', e.apply c = some c' ∧ SelfOk 0 c' ∧
      contents c' = ((contents c).map fun x => e.content x).filter fun x => 0 ≤ x.1 := by
  obtain ⟨c', happly, hedited⟩ := e.apply_edited hc.recurrent hc.qnextSlots
  have hacc := hc.accounted.edit hc.recurrent hc.size hc.qnextSlots he happly
  refine ⟨c', happly, ⟨hedited.recurrent.trans hc.recurrent,
    hedited.qnextSlots.trans hc.qnextSlots, hedited.size ▸ hc.size, ?_, hacc⟩,
    contents_edited hc.accounted hacc hedited⟩
  rw [hedited.size]
  exact hedited.head hc.head

/-- Without a sliding cache a public edit is the edit of `kv_self`, or none. -/
theorem kvStep_edit (hidle : ctx.swaKvActive = false) {op : KvOp} (hop : op.IsEdit) :
    (∀ e ∈ op.edit, e.Ok) ∧
      kvStep ctx op = (op.edit.elim (some ctx.kvSelf) fun e => e.apply ctx.kvSelf).map
        fun c => { ctx with kvSelf := c } := by
  cases op with
  | seqRm s p0 p1 => simp [kvStep, kvSeqRm, KvOp.edit, SeqEdit.apply, SeqEdit.Ok, hidle]
  | seqCp src dst p0 p1 =>
    simp only [kvStep, kvSeqCp, KvOp.edit]
    split
    · exact ⟨by simp, rfl⟩
    · refine ⟨by simp [SeqEdit.Ok], ?_⟩
      simp only [Option.elim, SeqEdit.apply, hidle]
      cases llamaKvCacheSeqCp ctx.kvSelf src dst p0 p1 <;> rfl
  | seqKeep s => simp [kvStep, kvSeqKeep, editBoth, KvOp.edit, SeqEdit.apply, SeqEdit.Ok, hidle]
  | seqAdd s p0 p1 delta =>
    simp only [kvStep, kvSeqAdd, KvOp.edit]
    split
    · exact ⟨by simp, rfl⟩
    · simp [editBoth, SeqEdit.apply, SeqEdit.Ok, hidle]
  | seqDiv s p0 p1 d =>
    have hd : 1 ≤ d := hop
    simp only [kvStep, kvSeqDiv, KvOp.edit]
    split
    · exact ⟨by simp, rfl⟩
    · simp [editBoth, SeqEdit.apply, SeqEdit.Ok, hidle, hd]
  | clear => simp [kvStep, kvClear, KvOp.edit, SeqEdit.apply, SeqEdit.Ok, hidle]
  | decode b => exact hop.elim
  | defrag => exact hop.elim
  | update => exact hop.elim

/-- One call does not abort. -/
theorem DecodeReady.step {op : StoreOp} (hop : op.Ok) (hctx : DecodeReady 0 false ctx) :
    ∃ n ctx', storeStep ctx op = some (n, ctx') ∧ DecodeReady 0 false ctx' ∧
      contents ctx'.kvSelf = op.held (contents ctx.kvSelf) n := by
  cases op with
  | decode call batch =>
    obtain ⟨ret, n, ctx', hdecode, hdecoded⟩ := llamaDecode_contents hop.2.1 hop.2.2 hctx
    exact ⟨n, ctx', by rw [storeStep, hdecode]; rfl, hdecoded.ready, hdecoded.contents⟩
  | other op =>
    rcases hop with hedit | rfl | rfl
    · obtain ⟨hok, heq⟩ := kvStep_edit hctx.swaKvActive hedit
      simp only [storeStep, heq, StoreOp.held]
      cases hop : op.edit with
      | none => exact ⟨0, ctx, rfl, hctx, rfl⟩
      | some e =>
        obtain ⟨c', happly, hself, hcontents⟩ := hctx.self.edit (hok e hop)
        rw [Option.elim_some, happly]
        exact ⟨0, _, rfl, ⟨hself, hctx.maxMoves, hctx.swaKvActive⟩, hcontents⟩
    · exact ⟨0, _, rfl, hctx.queued, rfl⟩
    · obtain ⟨ret, ctx', hupdate, -, hready, hcontents⟩ := hctx.update
      exact ⟨0, ctx', by rw [storeStep, kvStep, hupdate]; rfl, hready, hcontents⟩

/-- The cache is a store of positions and sequences. Without a sliding cache and recurrent states
no assertion fails in a run of calls, and the run leaves in the cells what the calls make of what
was held. Where the cells are, and when they are moved, makes no difference. -/
theorem storeRun_contents {ops : List StoreOp} (hops : ∀ op ∈ ops, op.Ok)
    (hctx : DecodeReady 0 false ctx) :
    ∃ ns ctx', storeRun ctx ops = some (ns, ctx') ∧ ns.length = ops.length ∧
      DecodeReady 0 false ctx' ∧ contents ctx'.kvSelf =
        (ops.zip ns).foldl (fun held call => call.1.held held call.2) (contents ctx.kvSelf) := by
  induction ops generalizing ctx with
  | nil => exact ⟨[], ctx, rfl, rfl, hctx, rfl⟩
  | cons op ops ih =>
    obtain ⟨n, ctx₁, hstep, hctx₁, hcontents₁⟩ := hctx.step (hops op (List.mem_cons_self ..))
    obtain ⟨ns, ctx', hrun, hlen, hctx', hcontents⟩ :=
      ih (fun op' hop' => hops op' (List.mem_cons_of_mem _ hop')) hctx₁
    refine ⟨n :: ns, ctx', ?_, congrArg (· + 1) hlen, hctx', ?_⟩
    · rw [storeRun, hstep]
      simp only [hrun, Option.map_some]
    · rw [hcontents, hcontents₁]
      rfl

/-- In an empty cache of four cells two tokens are decoded, the second is taken back, and the cells
are compacted. -/
theorem storeRun_contents_init :
    let ctx : KvContext := ⟨llamaKvCacheInit false false 0 4, llamaKvCacheInit false false 0 0,
      false, 0, 0, false, true, true, 1⟩
    let ops : List StoreOp := [.decode ⟨1, fun _ => 1, true, fun _ => false, fun _ => true⟩
      [⟨0, [0]⟩, ⟨1, [0]⟩], .other (.seqRm 0 1 (-1)), .other .update]
    ∃ ns ctx', storeRun ctx ops = some (ns, ctx') ∧ ns.length = 3 ∧ DecodeReady 0 false ctx' ∧
      contents ctx'.kvSelf =
        (ops.zip ns).foldl (fun held call => call.1.held held call.2) (contents ctx.kvSelf) := by
  intro ctx ops
  refine storeRun_contents ?_ ⟨⟨rfl, rfl, by decide, Nat.zero_le _, accounted_init false⟩,
    Nat.one_pos, rfl⟩
  intro op hop
  rcases List.mem_cons.mp hop with rfl | hop
  · exact ⟨by simp, ⟨Nat.le_refl 1, fun _ => Nat.le_refl 1⟩, by decide⟩
  · rcases List.mem_pair.mp hop with rfl | rfl
    · exact Or.inl trivial
    · exact Or.inr (Or.inr rfl)

end

end PxqLlama.Kv
