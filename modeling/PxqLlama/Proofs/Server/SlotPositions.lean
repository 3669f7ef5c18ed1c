import Mathlib.Algebra.Order.Ring.Int
import PxqLlama.Server.SlotPositions

/-!
# `Proofs.Server.SlotPositions`: the positions are right without a system prompt

Prompt batches add the length of the system prompt to a position, and so does the removal at the
start of a prompt. Generation, the removal of rejected drafts and a rewind do not. `PosInv` holds
over every run in which they only happen without a system prompt (`Aligned`): the cells are those of
the system tokens and of the cache tokens behind them, and a pending draft is at the end.

`runs_placed` reads off what that means for each token and for the rejected drafts.
-/

namespace PxqLlama.Server.PosSlot

open PxqLlama.Kv

/-- The step computes its positions with the system prompt, or there is none. -/
def Aligned (s : PosSlot) : PosAct → Prop
  | .generate | .speculate _ | .accept _ | .rewind _ => s.systemTokens = []
  | .systemPrompt _ | .startPrompt _ | .promptBatch _ | .sample _ => True

instance (s : PosSlot) : (a : PosAct) → Decidable (Aligned s a)
  | .generate | .speculate _ | .accept _ | .rewind _ => inferInstanceAs (Decidable (_ = _))
  | .systemPrompt _ | .startPrompt _ | .promptBatch _ | .sample _ => inferInstanceAs (Decidable True)

/-- The cells hold the system tokens and the cache tokens, which end with a pending draft. A draft
is pending only without a system prompt. -/
structure PosInv (s : PosSlot) : Prop where
  holds : HoldsTokens s.cells (s.systemTokens ++ s.cacheTokens)
  fits : s.cells.length ≤ s.nCells
  pending : s.drafted <:+ s.cacheTokens
  alone : s.drafted ≠ [] → s.systemTokens = []

/-! ### One step -/

variable {ids : List Int}

section
variable {s s' : PosSlot}

theorem PosInv.length (h : PosInv s) :
    s.cells.length = s.systemTokens.length + s.cacheTokens.length := by
  rw [h.holds.length, List.length_append]

theorem PosInv.le_posMax (h : PosInv s) :
    ((s.systemTokens ++ s.cacheTokens).length : Int) ≤ posMax := by
  have hfits := h.fits
  have hcells := s.nCells_le
  rw [h.holds.length] at hfits
  omega

/-- Tokens added one at a time take consecutive positions. -/
theorem foldl_addToken (offset : Nat) (tokens : List Int) (s : PosSlot) :
    tokens.foldl (addToken offset) s = { s with
      cells := s.cells ++ cellsFrom (offset + s.posNext : Nat) tokens
      cacheTokens := s.cacheTokens ++ tokens } := by
  induction tokens generalizing s with
  | nil =>
    show s = { s with cells := s.cells ++ [], cacheTokens := s.cacheTokens ++ [] }
    rw [List.append_nil, List.append_nil]
  | cons t tokens ih =>
    have hnext : ((offset + (addToken offset s t).posNext : Nat) : Int)
        = (offset + s.posNext : Nat) + 1 := by
      show ((offset + (s.cacheTokens ++ [t]).length : Nat) : Int)
        = (offset + s.cacheTokens.length : Nat) + 1
      rw [List.length_append, List.length_singleton]
      omega
    rw [List.foldl_cons, ih, hnext]
    show ({ s with
        cells := s.cells ++ [_] ++ cellsFrom _ tokens
        cacheTokens := s.cacheTokens ++ [t] ++ tokens } : PosSlot) = _
    rw [List.append_assoc, List.append_assoc]
    rfl

/-- A batch that is decoded behind the system prompt. -/
theorem PosInv.addTokens {offset : Nat} (h : PosInv s) (hoffset : offset = s.systemTokens.length)
    {tokens : List Int} (hadd : s.addTokens offset tokens = some s') :
    HoldsTokens s'.cells (s'.systemTokens ++ s'.cacheTokens) ∧ s'.cells.length ≤ s'.nCells ∧
      s'.cacheTokens = s.cacheTokens ++ tokens ∧ s'.drafted = s.drafted ∧
      s'.systemTokens = s.systemTokens := by
  rw [PosSlot.addTokens] at hadd
  split at hadd
  · rename_i hroom
    rw [← Option.some.inj hadd, foldl_addToken]
    refine ⟨?_, ?_, rfl, rfl, rfl⟩
    · show HoldsTokens (s.cells ++ cellsFrom (offset + s.cacheTokens.length : Nat) tokens)
        (s.systemTokens ++ (s.cacheTokens ++ tokens))
      rw [← List.append_assoc]
      apply h.holds.append
      rw [List.length_append, hoffset]
    · show (s.cells ++ cellsFrom _ tokens).length ≤ s.nCells
      rw [List.length_append, length_cellsFrom]
      exact hroom
  · cases hadd

/-- A removal from the position behind the tokens that are kept. -/
theorem PosInv.trim (h : PosInv s) {n p0 : Nat} (hn : n ≤ s.cacheTokens.length)
    (hp0 : p0 = s.systemTokens.length + n) :
    HoldsTokens (s.trim (s.cacheTokens.take n) p0).cells (s.systemTokens ++ s.cacheTokens.take n) ∧
      (s.trim (s.cacheTokens.take n) p0).cells.length ≤ s.nCells := by
  have hkept := h.holds.take (n := p0) h.le_posMax
  have htake : (s.systemTokens ++ s.cacheTokens).take p0
      = s.systemTokens ++ s.cacheTokens.take n := by
    rw [hp0, List.take_length_add_append]
  rw [htake] at hkept
  refine ⟨hkept, ?_⟩
  have hlength := h.length
  have hfits := h.fits
  show (tokenSeqRm s.cells p0 (-1)).length ≤ s.nCells
  rw [hkept.length, List.length_append, List.length_take]
  omega

/-- The tokens that an answer keeps are the first ones of the cache. -/
theorem acceptedTokens_eq (h : PosInv s) (hids : Answers s.drafted ids) :
    s.acceptedTokens ids
        = s.cacheTokens.take (s.cacheTokens.length - s.drafted.length + (ids.length - 1)) ∧
      (s.acceptedTokens ids).length
        = s.cacheTokens.length - s.drafted.length + (ids.length - 1) := by
  obtain ⟨front, hfront⟩ := h.pending
  obtain ⟨-, hle, hsame⟩ := hids
  have hlength : s.cacheTokens.length = front.length + s.drafted.length := by
    rw [← hfront, List.length_append]
  have hbase : s.cacheTokens.length - s.drafted.length = front.length := by omega
  have htake : s.cacheTokens.take front.length = front := by
    rw [← hfront, List.take_left]
  have heq : s.acceptedTokens ids = s.cacheTokens.take (front.length + (ids.length - 1)) := by
    rw [acceptedTokens, hbase, htake, hsame, ← hfront, List.take_length_add_append]
  rw [hbase]
  refine ⟨heq, ?_⟩
  rw [heq, List.length_take]
  omega

/-- Accepting drafts keeps the invariant. -/
theorem PosInv.accept (h : PosInv s) (hsystem : s.systemTokens = [])
    (haccept : s.accept ids = some s') : PosInv s' := by
  rw [PosSlot.accept] at haccept
  split at haccept
  · rename_i hids
    obtain ⟨heq, hlength⟩ := acceptedTokens_eq h hids.2
    have hle : s.cacheTokens.length - s.drafted.length + (ids.length - 1)
        ≤ s.cacheTokens.length := by
      have hdrafted := h.pending.length_le
      have hshort := hids.2.2.1
      omega
    have hp0 : (s.acceptedTokens ids).length = s.systemTokens.length
        + (s.cacheTokens.length - s.drafted.length + (ids.length - 1)) := by
      rw [hlength, hsystem, List.length_nil, Nat.zero_add]
    have htrim := h.trim hle hp0
    rw [← heq] at htrim
    rw [← Option.some.inj haccept]
    exact ⟨htrim.1, htrim.2, List.nil_suffix, fun hne => absurd rfl hne⟩
  · cases haccept

/-- Every step keeps the invariant when its positions are aligned. -/
theorem PosInv.step (h : PosInv s) {a : PosAct} (hok : Aligned s a) (hstep : s.step a = some s') :
    PosInv s' := by
  cases a with
  | systemPrompt tokens =>
    change s.systemPrompt tokens = some s' at hstep
    rw [systemPrompt] at hstep
    split at hstep
    · rename_i hroom
      rw [← Option.some.inj hstep]
      refine ⟨?_, ?_, List.nil_suffix, fun hne => absurd rfl hne⟩
      · show cellsFrom 0 tokens = cellsFrom 0 (tokens ++ [])
        rw [List.append_nil]
      · show (cellsFrom 0 tokens).length ≤ s.nCells
        rw [length_cellsFrom]
        exact hroom
    · cases hstep
  | startPrompt nPast =>
    change s.startPrompt nPast = some s' at hstep
    rw [startPrompt] at hstep
    split at hstep
    · rename_i hguard
      have htrim := h.trim hguard.2 rfl
      rw [← Option.some.inj hstep]
      refine ⟨htrim.1, htrim.2, ?_, fun hne => absurd hguard.1 hne⟩
      show s.drafted <:+ s.cacheTokens.take nPast
      rw [hguard.1]
      exact List.nil_suffix
    · cases hstep
  | promptBatch tokens =>
    change (if s.drafted = [] then s.addTokens s.systemTokens.length tokens else none) = some s'
      at hstep
    split at hstep
    · rename_i hnone
      obtain ⟨hholds, hfits, -, hdrafted, -⟩ := h.addTokens rfl hstep
      refine ⟨hholds, hfits, ?_, fun hne => absurd (hdrafted.trans hnone) hne⟩
      rw [hdrafted, hnone]
      exact List.nil_suffix
    · cases hstep
  | sample token =>
    cases hstep
    exact ⟨h.holds, h.fits, h.pending, h.alone⟩
  | generate =>
    change s.generate = some s' at hstep
    rw [generate] at hstep
    split at hstep
    · rename_i hnone
      have hoffset : 0 = s.systemTokens.length := by
        rw [show s.systemTokens = [] from hok, List.length_nil]
      obtain ⟨hholds, hfits, -, hdrafted, -⟩ := h.addTokens hoffset hstep
      refine ⟨hholds, hfits, ?_, fun hne => absurd (hdrafted.trans hnone) hne⟩
      rw [hdrafted, hnone]
      exact List.nil_suffix
    · cases hstep
  | speculate draft =>
    change s.speculate draft = some s' at hstep
    rw [speculate] at hstep
    split at hstep
    · have hoffset : 0 = s.systemTokens.length := by
        rw [show s.systemTokens = [] from hok, List.length_nil]
      obtain ⟨s₁, hadd, heq⟩ := Option.map_eq_some_iff.mp hstep
      obtain ⟨hholds, hfits, htokens, -, hsystem⟩ := h.addTokens hoffset hadd
      rw [← heq]
      refine ⟨hholds, hfits, ?_, fun _ => hsystem.trans hok⟩
      show draft <:+ s₁.cacheTokens
      rw [htokens]
      exact ⟨s.cacheTokens ++ [s.sampled], by rw [List.append_assoc, List.singleton_append]⟩
    · cases hstep
  | accept ids => exact h.accept hok hstep
  | rewind nKeep =>
    change s.rewind nKeep = some s' at hstep
    rw [rewind] at hstep
    split at hstep
    · rename_i hguard
      have hp0 : nKeep = s.systemTokens.length + nKeep := by
        rw [show s.systemTokens = [] from hok, List.length_nil, Nat.zero_add]
      have htrim := h.trim hguard.2 hp0
      rw [← Option.some.inj hstep]
      refine ⟨htrim.1, htrim.2, ?_, fun hne => absurd hguard.1 hne⟩
      show s.drafted <:+ s.cacheTokens.take nKeep
      rw [hguard.1]
      exact List.nil_suffix
    · cases hstep

end

/-! ### Runs -/

theorem mem_cellsFrom_getElem {p : Int} {ts : List Int} {i : Nat} (hi : i < ts.length) :
    { pos := p + i, token := ts[i] } ∈ cellsFrom p ts := by
  induction ts generalizing p i with
  | nil => exact absurd hi (Nat.not_lt_zero i)
  | cons t ts ih =>
    rw [cellsFrom]
    cases i with
    | zero =>
      rw [Nat.cast_zero, add_zero, List.getElem_cons_zero]
      exact List.mem_cons_self
    | succ i =>
      have hrest := ih (p := p + 1) (i := i) (Nat.lt_of_succ_lt_succ hi)
      have hpos : p + ((i + 1 : Nat) : Int) = p + 1 + i := by omega
      rw [hpos, List.getElem_cons_succ]
      exact List.mem_cons_of_mem _ hrest

theorem nodup_cellsFrom (p : Int) (ts : List Int) :
    ((cellsFrom p ts).map TokenCell.pos).Nodup := by
  induction ts generalizing p with
  | nil => exact List.nodup_nil
  | cons t ts ih =>
    rw [cellsFrom, List.map_cons, List.nodup_cons]
    refine ⟨?_, ih (p + 1)⟩
    intro hmem
    obtain ⟨c, hc, hpos⟩ := List.mem_map.mp hmem
    have hbound := mem_cellsFrom hc
    have heq : c.pos = p := hpos
    omega

/-- The cache token `i` is decoded behind the system prompt, no two cells of the sequence have one
position, and accepting an answer removes the cells of the rejected drafts and no others. -/
structure Placed (s : PosSlot) : Prop where
  stored : ∀ i, (hi : i < s.cacheTokens.length) →
    { pos := (s.systemTokens.length + i : Nat), token := s.cacheTokens[i] } ∈ s.cells
  distinct : (s.cells.map TokenCell.pos).Nodup
  rejected : ∀ ids s', s.accept ids = some s' → ∀ c ∈ s.cells, c ∉ s'.cells ↔
    ∃ j, ids.length - 1 ≤ j ∧ j < s.drafted.length ∧
      c.pos = (s.systemTokens.length + (s.cacheTokens.length - s.drafted.length) + j : Nat)

/-- An accept removes just the cells of the rejected drafts. -/
theorem PosInv.rejected {s s' : PosSlot} (h : PosInv s) (haccept : s.accept ids = some s')
    {c : TokenCell} (hc : c ∈ s.cells) :
    c ∉ s'.cells ↔ ∃ j, ids.length - 1 ≤ j ∧ j < s.drafted.length ∧
      c.pos = (s.systemTokens.length + (s.cacheTokens.length - s.drafted.length) + j : Nat) := by
  rw [PosSlot.accept] at haccept
  split at haccept
  · rename_i hguard
    have hsystem := h.alone hguard.1
    obtain ⟨-, hlength⟩ := acceptedTokens_eq h hguard.2
    have hmax := h.le_posMax
    have hdrafted := h.pending.length_le
    have hholds := h.holds
    rw [hsystem, List.nil_append] at hmax hholds
    have hbound := mem_cellsFrom (hholds ▸ hc)
    have hremoved : c ∉ s'.cells ↔ ((s.acceptedTokens ids).length : Int) ≤ c.pos := by
      rw [← Option.some.inj haccept]
      show c ∉ tokenSeqRm s.cells (s.acceptedTokens ids).length (-1) ↔ _
      rw [tokenSeqRm, List.mem_filter, decide_eq_true_iff,
        inRange_iff (Int.natCast_nonneg _), if_pos (by decide)]
      constructor
      · intro hnot
        by_contra hlt
        exact hnot ⟨hc, fun hin => hlt hin.1⟩
      · intro hle hin
        exact hin.2 ⟨hle, by omega⟩
    rw [hremoved, hlength, hsystem, List.length_nil]
    constructor
    · intro hle
      refine ⟨(c.pos - (s.cacheTokens.length - s.drafted.length : Nat)).toNat, ?_, ?_, ?_⟩
      · omega
      · omega
      · omega
    · intro hex
      obtain ⟨j, hlo, hhi, hpos⟩ := hex
      omega
  · cases haccept

theorem PosInv.placed {s : PosSlot} (h : PosInv s) : Placed s where
  stored i hi := by
    have hin : s.systemTokens.length + i < (s.systemTokens ++ s.cacheTokens).length := by
      rw [List.length_append]
      omega
    have hmem := mem_cellsFrom_getElem (p := 0) hin
    rw [Int.zero_add, List.getElem_append_right (Nat.le_add_right _ _)] at hmem
    rw [h.holds]
    simpa only [Nat.add_sub_cancel_left] using hmem
  distinct := by
    rw [h.holds]
    exact nodup_cellsFrom 0 _
  rejected ids s' haccept c hc := h.rejected haccept hc

theorem posInv_initial (nCells : Nat) (hcells : (nCells : Int) ≤ posMax) :
    PosInv (initial nCells hcells) where
  holds := rfl
  fits := Nat.zero_le _
  pending := List.nil_suffix
  alone hne := absurd rfl hne

/-- In a run in which every step computes its positions with the system prompt, or without one
that is not there, the positions are right in every state. -/
theorem runs_placed (nCells : Nat) (hcells : (nCells : Int) ≤ posMax) {s : PosSlot}
    (hrun : Runs (initial nCells hcells) PosSlot.step Aligned s) : Placed s := by
  have hinv : PosInv s := hrun.invariant (posInv_initial nCells hcells)
    fun _ _ _ hinv hok hstep => hinv.step hok hstep
  exact hinv.placed

/-- A prompt and a generated token, a draft of two tokens of which one is rejected, and a rewind. -/
def plainRun : List PosAct :=
  [.promptBatch [1, 2], .sample 3, .generate, .sample 4, .speculate [5, 6], .accept [5, 7],
    .rewind 3, .generate]

theorem runs_placed_plainRun :
    Placed (Runs.last PosSlot.step (initial 16 (by decide)) plainRun) :=
  runs_placed 16 (by decide) (Runs.of_allowed .init (by decide))

/-- With a system prompt of one token, the first generated token gets the position of the last
token of the prompt. -/
theorem system_prompt_shares_position :
    ¬ Placed (Runs.last PosSlot.step (initial 16 (by decide))
      [.systemPrompt [9], .promptBatch [1, 2], .sample 3, .generate]) := by
  intro h
  have hdistinct := h.distinct
  revert hdistinct
  decide

end PxqLlama.Server.PosSlot
