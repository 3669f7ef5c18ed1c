import Mathlib.Data.List.Count
import Mathlib.Data.List.Induction
import PxqLlama.Proofs.Server.BatchLoop
import PxqLlama.Proofs.Server.SelfExtend
import PxqLlama.Server.DecodePass

/-!
# `Proofs.Server.DecodePass`: what a pass over a batch does

This file says what an honest pass is (`Honest`) and what it depends on, and proves what the
proofs about passes need:

* `count_foldl_iff`: of the slots that are sampled after a chunk, each decides about its own cells,
  and a position of its list has one cell again exactly when `KeepsAt` says so;
* `decodePass_isSome`: the pass ends, whatever the decoder does;
* `batchLoop_open`: while no window of group attention is full, `extend_context` does nothing to a
  pass, which is then one without group attention (`decode_eq`).

A condition on a pass speaks of its start and of what `DecodeEnv` decides. `roundsLoop` lists the
calls of `llama_decode` from its results alone, and `passEndLoop` how they end.
-/

namespace PxqLlama.Server

/-! ### The statement -/

/-- The slots, the cache and the batch when a pass starts. Each position of a token list is held by
one cell or is that of one token of the batch, and the tokens of a slot are in the batch in the
order of their positions, up to `iBatch`. -/
structure PassStart (batch cells : List SeqPos) (slots : List DecodeSlot) : Prop where
  ids : (slots.map DecodeSlot.id).Nodup
  held : ∀ s ∈ slots, ∀ p < s.size, (cells ++ batch).count (s.id, p) = 1
  ordered : batch.Pairwise fun a b => a.1 = b.1 → a.2 < b.2
  before : ∀ c ∈ cells, ∀ t ∈ batch, c.1 = t.1 → c.2 < t.2
  owned : ∀ t ∈ batch, ∃ s ∈ slots, s.id = t.1 ∧ t.2 < s.size ∧ s.isProcessing = true
  last : ∀ s ∈ slots, s.processing = true → s.drafting = false → ∀ (j : Nat) t,
    batch[j]? = some t → t.1 = s.id → (j : Int) ≤ s.iBatch

/-- The drafts are in the first chunk that is decoded, after which they are verified. -/
def DraftsFit (env : DecodeEnv) (nBatch : Int) (batch : List SeqPos) (slots : List DecodeSlot) :
    Prop :=
  ∀ s ∈ slots, s.processing = true → s.drafting = true → ∀ (j : Nat) t, batch[j]? = some t →
    t.1 = s.id → ∀ n, firstChunk (fun k => (env.result k).ret) batch.length nBatch = some n →
      (j : Int) < n

/-- A call of `llama_decode` in the loop, for the chunk of `n` tokens from `i` on. -/
structure Round where
  call : Nat
  i : Int
  n : Int
  deriving DecidableEq, Repr

/-- The calls of `llama_decode`, from its results in their order. -/
def roundsLoop (ret : Nat → Int) (nTokens : Int) : Nat → Nat → Int → Int → Bool → List Round
  | 0, _, _, _, _ => []
  | fuel + 1, calls, i, nBatch, defragTried =>
    if nTokens ≤ i then []
    else
      ⟨calls, i, min nBatch (nTokens - i)⟩ ::
        if ret calls = 0 then
          roundsLoop ret nTokens fuel (calls + 1) (i + nBatch) nBatch defragTried
        else if ret calls = 1 ∧ ¬ defragTried then
          roundsLoop ret nTokens fuel (calls + 1) i nBatch true
        else if nBatch = 1 ∨ ret calls < 0 then []
        else roundsLoop ret nTokens fuel (calls + 1) i (nBatch.tdiv 2) defragTried

/-- The calls of a pass. -/
def DecodeEnv.rounds (env : DecodeEnv) (nTokens nBatch : Int) : List Round :=
  roundsLoop (fun k => (env.result k).ret) nTokens (loopFuel nTokens nBatch) 0 0 nBatch false

/-- No window of group attention is full before a call: `n_past_se` counts the tokens of all chunks,
those of other slots and those that are tried again as well. -/
def WindowsOpen : List SlotGroup → List Round → Prop
  | _, [] => True
  | groups, r :: rounds => (∀ g ∈ groups, g.nPastSe < g.gaI + g.gaW) ∧
      WindowsOpen (groups.map fun g => { g with nPastSe := g.nPastSe + r.n.toNat }) rounds

/-- When the slot is sampled, the position keeps its cell, or it gets one: no removal clears the
sequence, and a replayed checkpoint decodes the positions again that its restore removed, and no
others. -/
def DecodeEnv.KeepsAt (env : DecodeEnv) (call : Nat) (slot : DecodeSlot) (p : Nat) : Prop :=
  (∀ back ∈ env.takeBack call slot.id, back.clears = false) ∧
    (slot.drafting = true → match env.rolls call slot with
      | .trims clears => clears = false
      | .perStep _ => True
      | .replays left result => (∀ p0 ∈ left, p < p0) ↔ p ∉ env.replayed call slot result)

/-- The slots that are sampled after a call keep one cell for each position of their lists. -/
def KeepsAll (env : DecodeEnv) : List DecodeSlot → List Round → Prop
  | _, [] => True
  | slots, r :: rounds =>
    if env.result r.call = .ok then
      (∀ s ∈ slots, s.reached r.i r.n = true →
        ∀ p < (env.sampleSlot r.call s).size, env.KeepsAt r.call s p) ∧
      KeepsAll env
        (slots.map fun s => if s.reached r.i r.n then env.sampleSlot r.call s else s) rounds
    else KeepsAll env slots rounds

/-- After a pass no token was placed twice, each position of a token list is held by one cell of
its sequence, and the slots that were idle keep their list and post nothing. -/
structure Honest (slots : List DecodeSlot) (st : DecodePass) : Prop where
  once : st.placed.Nodup
  held : ∀ s ∈ st.slots, ∀ p < s.size, st.cells.count (s.id, p) = 1
  idle : ∀ s ∈ slots, s.isProcessing = false →
    (∃ s' ∈ st.slots, s'.id = s.id ∧ s'.size = s.size) ∧ s.id ∉ st.posted

/-- The group attention is no part of it. -/
theorem Honest.groups_iff {slots : List DecodeSlot} {st : DecodePass} (groups : List SlotGroup) :
    Honest slots { st with groups := groups } ↔ Honest slots st :=
  ⟨fun h => ⟨h.once, h.held, h.idle⟩, fun h => ⟨h.once, h.held, h.idle⟩⟩

/-- How a pass ends. -/
inductive PassEnd
  /-- All tokens are decoded. -/
  | complete
  /-- A cancel, when so many tokens are placed. -/
  | cancelled (decoded : Nat)
  /-- A failure that is no cancel. -/
  | failed
  /-- Before its end, a chunk is decoded again of which tokens were placed. -/
  | again
  deriving DecidableEq, Repr

/-- The end of a pass, from the results of `llama_decode` in their order. -/
def passEndLoop (result : Nat → DecodeResult) (nTokens : Int) :
    Nat → Nat → Int → Int → Bool → PassEnd
  | 0, _, _, _, _ => .complete
  | fuel + 1, calls, i, nBatch, defragTried =>
    if nTokens ≤ i then .complete
    else
      let n := min nBatch (nTokens - i)
      match result calls with
      | .ok => passEndLoop result nTokens fuel (calls + 1) (i + nBatch) nBatch defragTried
      | .cancelled placed =>
        .cancelled (i.toNat + (DecodeResult.cancelled placed).placed n.toNat)
      | .failed _ => .failed
      | .full placed =>
        if 0 < (DecodeResult.full placed).placed n.toNat then .again
        else if ¬ defragTried then passEndLoop result nTokens fuel (calls + 1) i nBatch true
        else if nBatch = 1 then .failed
        else passEndLoop result nTokens fuel (calls + 1) i (nBatch.tdiv 2) defragTried

def passEnd (result : Nat → DecodeResult) (nTokens nBatch : Int) : PassEnd :=
  passEndLoop result nTokens (loopFuel nTokens nBatch) 0 0 nBatch false

/-- The ends that leave the slots honest. A cancel cuts the token list of a slot to its highest
cell, and to one token when it has none. -/
def PassEnd.IsHonest (batch cells : List SeqPos) (slots : List DecodeSlot) : PassEnd → Prop
  | .complete => True
  | .cancelled decoded => ∀ s ∈ slots, s.isProcessing = true →
      s.size = 0 ∨ ∃ c, (c ∈ cells ∨ c ∈ batch.take decoded) ∧ c.1 = s.id
  | .failed => False
  | .again => False

/-! ### Cells -/

variable {c : SeqPos} {reached : List DecodeSlot} {groups : List SlotGroup}

section
variable {cells : List SeqPos} {s p0 : Nat}

theorem mem_seqRmFrom : c ∈ seqRmFrom cells s p0 ↔ c ∈ cells ∧ ¬ (c.1 = s ∧ p0 ≤ c.2) := by
  rw [seqRmFrom, List.mem_filter, decide_eq_true_iff]

theorem count_seqRmFrom (hc : ¬ (c.1 = s ∧ p0 ≤ c.2)) :
    (seqRmFrom cells s p0).count c = cells.count c := by
  have hkeep : (fun c : SeqPos => decide ¬ (c.1 = s ∧ p0 ≤ c.2)) c = true := decide_eq_true hc
  exact List.count_filter hkeep

theorem seqPosMax_append (c : SeqPos) :
    seqPosMax (cells ++ [c]) s = if c.1 = s then max (seqPosMax cells s) c.2
      else seqPosMax cells s := by
  rw [seqPosMax, List.foldl_append]
  rfl

/-- The highest position is that of a cell, or zero without one. -/
theorem seqPosMax_spec : (∀ c ∈ cells, c.1 = s → c.2 ≤ seqPosMax cells s) ∧
    ((s, seqPosMax cells s) ∈ cells ∨ (∀ c ∈ cells, c.1 ≠ s) ∧ seqPosMax cells s = 0) := by
  induction cells using List.reverseRecOn with
  | nil => exact ⟨by simp, Or.inr ⟨by simp, rfl⟩⟩
  | append_singleton cells c ih =>
    obtain ⟨hle, hheld⟩ := ih
    rw [seqPosMax_append]
    by_cases hc : c.1 = s
    · rw [if_pos hc]
      refine ⟨fun d hd hds => ?_, Or.inl ?_⟩
      · rcases List.mem_append.mp hd with hd | hd
        · exact Nat.le_trans (hle d hd hds) (Nat.le_max_left _ _)
        · rw [List.mem_singleton.mp hd]
          exact Nat.le_max_right _ _
      · rw [List.mem_append, List.mem_singleton]
        rcases Nat.le_total (seqPosMax cells s) c.2 with h | h
        · right
          rw [Nat.max_eq_right h, ← hc]
        · rw [Nat.max_eq_left h]
          rcases hheld with hheld | ⟨-, hzero⟩
          · exact Or.inl hheld
          · right
            rw [hzero, ← hc]
            have hc2 : c.2 = 0 := by omega
            rw [← hc2]
    · rw [if_neg hc]
      refine ⟨fun d hd hds => ?_, ?_⟩
      · rcases List.mem_append.mp hd with hd | hd
        · exact hle d hd hds
        · rw [List.mem_singleton.mp hd] at hds
          exact absurd hds hc
      · rcases hheld with hheld | ⟨hnone, hzero⟩
        · exact Or.inl (List.mem_append_left _ hheld)
        · refine Or.inr ⟨fun d hd => ?_, hzero⟩
          rcases List.mem_append.mp hd with hd | hd
          · exact hnone d hd
          · rw [List.mem_singleton.mp hd]
            exact hc

end

/-! ### The cells of a slot that is sampled -/

section
variable {env : DecodeEnv} {call : Nat} {cells : List SeqPos} {slot : DecodeSlot}

/-- A removal touches the cells of its slot alone. -/
theorem count_removeFrom_of_ne {s p0 : Nat} {clears : Bool} (hc : c.1 ≠ s) :
    (removeFrom cells s p0 clears).count c = cells.count c :=
  count_seqRmFrom fun h => hc h.1

/-- A removal keeps the cells below its position, unless it clears the sequence. -/
theorem count_removeFrom {s p0 p : Nat} {clears : Bool} (hp : p < p0) :
    (removeFrom cells s p0 clears).count (s, p) = if clears then 0 else cells.count (s, p) := by
  cases clears with
  | true =>
    rw [if_pos rfl, List.count_eq_zero]
    intro hmem
    exact (mem_seqRmFrom.mp hmem).2 ⟨rfl, Nat.zero_le _⟩
  | false =>
    rw [if_neg Bool.false_ne_true]
    exact count_seqRmFrom fun h => absurd h.2 (Nat.not_le.mpr hp)

/-- A list of positions of a slot, as cells. -/
theorem count_map_pos (s : Nat) (ps : List Nat) (c : SeqPos) :
    (ps.map fun p => (s, p)).count c = if c.1 = s then ps.count c.2 else 0 := by
  obtain ⟨t, q⟩ := c
  by_cases hts : t = s
  · subst hts
    rw [if_pos rfl]
    have hinj : Function.Injective fun p : Nat => (t, p) := fun p p' h => (Prod.mk.inj h).2
    exact List.count_map_of_injective ps _ hinj q
  · rw [if_neg hts, List.count_eq_zero]
    intro hmem
    obtain ⟨p, -, heq⟩ := List.mem_map.mp hmem
    exact hts (Prod.mk.inj heq).1.symm

/-- The positions that are decoded again are there once each. -/
theorem count_replayed (result : DecodeResult) (p : Nat) :
    (env.replayed call slot result).count p =
      if p ∈ env.replayed call slot result then 1 else 0 := by
  have hnodup : (env.replayed call slot result).Nodup :=
    (List.nodup_range' ..).sublist (List.take_sublist _ _)
  rw [hnodup.count]

/-- Sampling a slot touches its own cells alone. -/
theorem count_sampleCells_of_ne (hc : c.1 ≠ slot.id) :
    (env.sampleCells call cells slot).count c = cells.count c := by
  have hroll : (env.rollbackCells call cells slot).count c = cells.count c := by
    unfold DecodeEnv.rollbackCells
    split
    · exact count_removeFrom_of_ne hc
    · split
      · exact count_seqRmFrom fun h => hc h.1
      · rfl
    · rename_i left result _
      rw [List.count_append, count_map_pos, if_neg hc, Nat.add_zero]
      cases left with
      | none => rfl
      | some p0 => exact count_seqRmFrom fun h => hc h.1
  have hfirst : (if slot.drafting = true then env.rollbackCells call cells slot else cells).count c
      = cells.count c := by
    split
    · exact hroll
    · rfl
  unfold DecodeEnv.sampleCells
  cases env.takeBack call slot.id with
  | none => exact hfirst
  | some back => exact (count_removeFrom_of_ne hc).trans hfirst

theorem sampleSlot_size_le_verified : (env.sampleSlot call slot).size ≤ env.verified call slot := by
  unfold DecodeEnv.sampleSlot
  cases env.takeBack call slot.id with
  | none => exact Nat.le_refl _
  | some back => exact Nat.min_le_right _ _

theorem sampleSlot_size_le : (env.sampleSlot call slot).size ≤ slot.size := by
  refine Nat.le_trans sampleSlot_size_le_verified ?_
  unfold DecodeEnv.verified DecodeSlot.verified
  split
  · exact Nat.sub_le _ _
  · exact Nat.le_refl _

/-- A position of the new list that had one cell has one again exactly when it keeps or gets it. -/
theorem count_sampleCells_iff {p : Nat} (hp : p < (env.sampleSlot call slot).size)
    (hone : cells.count (slot.id, p) = 1) :
    (env.sampleCells call cells slot).count (slot.id, p) = 1 ↔ env.KeepsAt call slot p := by
  have hverified : p < env.verified call slot :=
    Nat.lt_of_lt_of_le hp sampleSlot_size_le_verified
  -- the rejected drafts
  have hroll : (if slot.drafting = true then env.rollbackCells call cells slot else cells).count
        (slot.id, p) = 1 ↔
      (slot.drafting = true → match env.rolls call slot with
        | .trims clears => clears = false
        | .perStep _ => True
        | .replays left result =>
          (∀ p0 ∈ left, p < p0) ↔ p ∉ env.replayed call slot result) := by
    by_cases hdraft : slot.drafting = true
    · rw [if_pos hdraft, DecodeEnv.rollbackCells]
      simp only [hdraft, forall_const]
      cases env.rolls call slot with
      | trims clears =>
        simp only
        rw [count_removeFrom hverified, hone]
        cases clears <;> simp
      | perStep restored =>
        refine iff_of_true ?_ trivial
        simp only
        split
        · rw [count_seqRmFrom fun h => absurd h.2 (Nat.not_le.mpr hverified)]
          exact hone
        · exact hone
      | replays left result =>
        simp only
        rw [List.count_append, count_map_pos, if_pos rfl, count_replayed]
        have hleft : (left.elim cells (seqRmFrom cells slot.id)).count (slot.id, p) =
            if ∀ p0 ∈ left, p < p0 then 1 else 0 := by
          cases left with
          | none => simp [hone]
          | some p0 =>
            by_cases hlt : p < p0
            · rw [if_pos (by simpa using hlt), Option.elim_some,
                count_seqRmFrom fun h => absurd h.2 (Nat.not_le.mpr hlt)]
              exact hone
            · rw [if_neg (by simpa using hlt), Option.elim_some, List.count_eq_zero]
              intro hmem
              exact (mem_seqRmFrom.mp hmem).2 ⟨rfl, Nat.not_lt.mp hlt⟩
        rw [hleft]
        -- exactly one of the two ways
        by_cases hkept : ∀ p0 ∈ left, p < p0
        · rw [if_pos hkept, iff_true_left hkept]
          split <;> simp [*]
        · rw [if_neg hkept, iff_false_left hkept]
          split <;> simp [*]
    · rw [if_neg hdraft]
      exact iff_of_true hone fun h => absurd h hdraft
  unfold DecodeEnv.sampleCells DecodeEnv.KeepsAt
  cases hback : env.takeBack call slot.id with
  | none => simpa using hroll
  | some back =>
    simp only
    rw [count_removeFrom hp]
    cases hclears : back.clears with
    | true => simp [hclears]
    | false => simpa [hclears] using hroll

/-- The slots that are sampled one after the other touch no cell of another slot. -/
theorem count_foldl_of_ne (hc : ∀ s ∈ reached, c.1 ≠ s.id) :
    (reached.foldl (env.sampleCells call) cells).count c = cells.count c := by
  induction reached generalizing cells with
  | nil => rfl
  | cons s reached ih =>
    rw [List.forall_mem_cons] at hc
    rw [List.foldl_cons, ih hc.2, count_sampleCells_of_ne hc.1]

theorem mem_foldl_of_ne (hc : ∀ s ∈ reached, c.1 ≠ s.id) :
    c ∈ reached.foldl (env.sampleCells call) cells ↔ c ∈ cells := by
  rw [← List.count_pos_iff, count_foldl_of_ne hc, List.count_pos_iff]

/-- Of the slots that are sampled one after the other, each decides about its own cells. -/
theorem count_foldl_iff (hids : (reached.map DecodeSlot.id).Nodup) (hslot : slot ∈ reached)
    {p : Nat} (hp : p < (env.sampleSlot call slot).size) (hone : cells.count (slot.id, p) = 1) :
    (reached.foldl (env.sampleCells call) cells).count (slot.id, p) = 1 ↔
      env.KeepsAt call slot p := by
  induction reached generalizing cells with
  | nil => cases hslot
  | cons s reached ih =>
    rw [List.map_cons, List.nodup_cons] at hids
    obtain ⟨hnew, hids⟩ := hids
    have hne : ∀ r ∈ reached, s.id ≠ r.id := fun r hr heq =>
      hnew (heq ▸ List.mem_map_of_mem hr)
    rw [List.foldl_cons]
    rcases List.mem_cons.mp hslot with rfl | hmem
    · rw [count_foldl_of_ne hne]
      exact count_sampleCells_iff hp hone
    · refine ih hids hmem ?_
      rwa [count_sampleCells_of_ne (hne slot hmem).symm]

end

/-! ### Group attention -/

/-- The state after some more tokens are placed. -/
def DecodePass.place (st : DecodePass) (batch : List SeqPos) (k n : Nat) : DecodePass :=
  { st with
    calls := st.calls + 1
    cells := st.cells ++ (batch.drop k).take n
    placed := st.placed ++ (List.range n).map (k + ·) }

/-- Without group attention a call of `llama_decode` only places tokens. -/
theorem decode_eq {env : DecodeEnv} {batch : List SeqPos} {st : DecodePass}
    (hgroups : st.groups = []) (i n : Int) :
    (decodePassEnv env batch).decode st i n =
      ((env.result st.calls).ret,
        st.place batch i.toNat ((env.result st.calls).placed n.toNat)) := by
  simp only [decodePassEnv, hgroups, extendContext, DecodePass.place]

/-- The rounds from a failed call on. -/
theorem roundsLoop_of_failed (ret : Nat → Int) {nTokens : Int} {fuel calls : Nat} {i nBatch : Int}
    {tried : Bool} (hend : ¬ nTokens ≤ i) (hne : ret calls ≠ 0) :
    roundsLoop ret nTokens (fuel + 1) calls i nBatch tried =
      ⟨calls, i, min nBatch (nTokens - i)⟩ ::
        if ret calls = 1 ∧ ¬ tried then roundsLoop ret nTokens fuel (calls + 1) i nBatch true
        else if nBatch = 1 ∨ ret calls < 0 then []
        else roundsLoop ret nTokens fuel (calls + 1) i (nBatch.tdiv 2) tried := by
  rw [roundsLoop, if_neg hend, if_neg hne]

theorem roundsLoop_of_decoded (ret : Nat → Int) {nTokens : Int} {fuel calls : Nat} {i nBatch : Int}
    {tried : Bool} (hend : ¬ nTokens ≤ i) (hret : ret calls = 0) :
    roundsLoop ret nTokens (fuel + 1) calls i nBatch tried =
      ⟨calls, i, min nBatch (nTokens - i)⟩ ::
        roundsLoop ret nTokens fuel (calls + 1) (i + nBatch) nBatch tried := by
  rw [roundsLoop, if_neg hend, if_pos hret]

/-- `extend_context` ends when no width is zero, and leaves the widths. -/
theorem extendContext_widths (nTokens : Nat) (hwidths : ∀ g ∈ groups, g.gaW ≠ 0)
    (cells : List SeqPos) :
    ∃ groups' cells', extendContext nTokens groups cells = some (groups', cells') ∧
      ∀ g ∈ groups', g.gaW ≠ 0 := by
  induction groups generalizing cells with
  | nil => exact ⟨[], cells, rfl, by simp⟩
  | cons g groups ih =>
    rw [List.forall_mem_cons] at hwidths
    have hone : ∃ g' cells', g.extend nTokens cells = some (g', cells') ∧ g'.gaW ≠ 0 := by
      unfold SlotGroup.extend
      simp only
      split
      · obtain ⟨s, hs⟩ := Option.isSome_iff_exists.mp
          (GroupSlot.extendContext_isSome (s := g.slot cells) hwidths.1 nTokens)
        rw [hs]
        exact ⟨_, _, rfl, hwidths.1⟩
      · exact ⟨_, _, rfl, hwidths.1⟩
    obtain ⟨g', cells', hextend, hw⟩ := hone
    obtain ⟨groups', cells'', hrest, hws⟩ := ih hwidths.2 cells'
    refine ⟨g' :: groups', cells'', ?_, List.forall_mem_cons.mpr ⟨hw, hws⟩⟩
    simp [extendContext, hextend, hrest]

/-- The pass ends, whatever the decoder does, when no slot has group attention of width zero. -/
theorem decodePass_isSome (env : DecodeEnv) {nBatch : Int} (hbatch : 1 ≤ nBatch)
    (batch cells : List SeqPos) (hwidths : ∀ g ∈ groups, g.gaW ≠ 0) (slots : List DecodeSlot) :
    (decodePass env nBatch batch cells groups slots).isSome := by
  have hdecode : ∀ (i n : Int) (st : DecodePass),
      st.crashed = false ∧ (∀ g ∈ st.groups, g.gaW ≠ 0) →
      ((decodePassEnv env batch).decode st i n).2.crashed = false ∧
        ∀ g ∈ ((decodePassEnv env batch).decode st i n).2.groups, g.gaW ≠ 0 := by
    rintro i n st ⟨hcrash, hws⟩
    obtain ⟨groups', cells', hextend, hws'⟩ := extendContext_widths n.toNat hws st.cells
    simp only [decodePassEnv, hextend]
    exact ⟨hcrash, hws'⟩
  have hrule : LoopRule (decodePassEnv env batch) batch.length
      (fun _ st => st.crashed = false ∧ ∀ g ∈ st.groups, g.gaW ≠ 0)
      (fun st => st.crashed = false) :=
    { decoded := fun i n st _ _ _ h _ => hdecode i n st h
      again := fun i n st _ _ _ h _ => hdecode i n st h
      defrag := fun _ _ _ _ h => h
      failed := fun i n st _ _ _ h _ => (hdecode i n st h).1
      done := fun _ h => h.1 }
  have hstart : ({ cells := cells, groups := groups, slots := slots } : DecodePass).crashed = false ∧
      ∀ g ∈ groups, g.gaW ≠ 0 := ⟨rfl, hwidths⟩
  obtain ⟨st, nBatch', hrun, hcrash⟩ :=
    processBatchTokens_rule hrule (Int.natCast_nonneg _) hbatch hstart
  rw [decodePass, hrun, Option.bind_some, if_neg (by simp [hcrash])]
  rfl

/-- While no window is full, `extend_context` only counts tokens. -/
theorem extendContext_open (nTokens : Nat) (hopen : ∀ g ∈ groups, g.nPastSe < g.gaI + g.gaW)
    (cells : List SeqPos) :
    extendContext nTokens groups cells =
      some (groups.map fun g => { g with nPastSe := g.nPastSe + nTokens }, cells) := by
  induction groups with
  | nil => rfl
  | cons g groups ih =>
    rw [List.forall_mem_cons] at hopen
    have hroom : ¬ (g.slot cells).windowFull := Int.not_le.mpr hopen.1
    have hextend : g.extend nTokens cells =
        some ({ g with nPastSe := g.nPastSe + nTokens }, cells) := by
      unfold SlotGroup.extend
      exact if_neg hroom
    simp [extendContext, hextend, ih hopen.2]

/-- A pass with open windows is the pass without group attention. -/
theorem batchLoop_open {env : DecodeEnv} {batch : List SeqPos} {nTokens : Int} {fuel : Nat}
    {i nBatch : Int} {tried : Bool} {st : DecodePass} {groups : List SlotGroup}
    (hopen : WindowsOpen groups
      (roundsLoop (fun k => (env.result k).ret) nTokens fuel st.calls i nBatch tried)) :
    ∃ groups', batchLoop (decodePassEnv env batch) nTokens fuel i nBatch tried
        { st with groups := groups } =
      (batchLoop (decodePassEnv env batch) nTokens fuel i nBatch tried
        { st with groups := [] }).map fun r => ({ r.1 with groups := groups' }, r.2) := by
  induction fuel generalizing i nBatch tried st groups with
  | zero => exact ⟨[], rfl⟩
  | succ fuel ih =>
    by_cases hend : nTokens ≤ i
    · refine ⟨groups, ?_⟩
      rw [batchLoop, if_pos hend, batchLoop, if_pos hend]
      rfl
    · obtain ⟨n, hn⟩ : ∃ n, min nBatch (nTokens - i) = n := ⟨_, rfl⟩
      generalize hq : (env.result st.calls).placed n.toNat = q
      have hplaced : (decodePassEnv env batch).decode { st with groups := [] } i
            (min nBatch (nTokens - i)) =
          ((env.result st.calls).ret, { st.place batch i.toNat q with groups := [] }) := by
        rw [hn, ← hq]
        exact decode_eq rfl i n
      have hcounted : (∀ g ∈ groups, g.nPastSe < g.gaI + g.gaW) →
          (decodePassEnv env batch).decode { st with groups := groups } i
              (min nBatch (nTokens - i)) =
            ((env.result st.calls).ret, { st.place batch i.toNat q with
              groups := groups.map fun g => { g with nPastSe := g.nPastSe + n.toNat } }) := by
        intro hwindows
        rw [hn, ← hq]
        simp only [decodePassEnv, extendContext_open n.toNat hwindows, DecodePass.place]
      by_cases hret : (env.result st.calls).ret = 0
      · rw [roundsLoop_of_decoded (fun k => (env.result k).ret) hend hret, hn] at hopen
        have hdecode := hcounted hopen.1
        rw [hret] at hdecode hplaced
        rw [batchLoop_of_decoded hend hdecode, batchLoop_of_decoded hend hplaced, hn]
        exact @ih _ _ _ (env.decoded (st.place batch i.toNat q) i n) _ hopen.2
      · rw [roundsLoop_of_failed (fun k => (env.result k).ret) hend hret, hn] at hopen
        rw [batchLoop_of_failed hend (hcounted hopen.1) hret,
          batchLoop_of_failed hend hplaced hret]
        have hrest := hopen.2
        split
        · rename_i hdefrag
          rw [if_pos hdefrag] at hrest
          exact @ih _ _ _ (st.place batch i.toNat q) _ hrest
        · rename_i hdefrag
          rw [if_neg hdefrag] at hrest
          split
          · exact ⟨_, rfl⟩
          · rename_i hstop
            rw [if_neg hstop] at hrest
            exact @ih _ _ _ (st.place batch i.toNat q) _ hrest

/-- A pass without group attention does not crash. -/
theorem decodePass_nil {env : DecodeEnv} {nBatch : Int} (hbatch : 1 ≤ nBatch)
    (batch cells : List SeqPos) (slots : List DecodeSlot) :
    ∃ st nBatch', processBatchTokens (decodePassEnv env batch) batch.length nBatch
      { cells := cells, slots := slots } = some (st, nBatch') ∧ st.crashed = false := by
  have hsome := decodePass_isSome env hbatch batch cells (List.forall_mem_nil _) slots
  rw [decodePass] at hsome
  cases hrun : processBatchTokens (decodePassEnv env batch) batch.length nBatch
      { cells := cells, slots := slots } with
  | none => simp [hrun] at hsome
  | some r =>
    refine ⟨r.1, r.2, rfl, ?_⟩
    rw [hrun, Option.bind_some] at hsome
    by_contra hcrash
    rw [Bool.not_eq_false] at hcrash
    rw [if_pos hcrash] at hsome
    cases hsome

end PxqLlama.Server
