import PxqLlama.Lib.Runs
import PxqLlama.Spec.DraftModel

/-!
# `Proofs.Spec.DraftModel`: the draft context follows its token list

The list `prompt_dft` and the cells are edited apart from each other. Each edit of one has its
counterpart in the other (`HoldsTokens.take`, `.drop`, `.append`), so the cells stay those of the
list. What is left after the reuse is a first part of the window, the end of the prompt that fits
into the room, and the decoded tokens complete it.

The room is what the drafted tokens leave of the context. It is negative when more tokens are to
be drafted than the context holds, and then the draft alone overruns the context.
-/

namespace PxqLlama.Spec.DraftModel

open PxqLlama.Kv

variable {m : DraftModel} {s : DraftState} {call : DraftCall}

/-! ### The window and the reuse -/

/-- The last tokens of a list, at most as many as there are. -/
def lastTokens (tokens : List Token) (n : Int) : List Token :=
  tokens.drop (tokens.length - n.toNat)

/-- The end of the prompt that the room holds. -/
def window (m : DraftModel) (call : DraftCall) : List Token :=
  lastTokens call.prompt (min call.prompt.length (m.room call.nMax))

theorem window_eq (m : DraftModel) (call : DraftCall) :
    window m call = call.prompt.drop (m.iStart call) := by
  rw [window, lastTokens, iStart]
  by_cases hroom : 0 ≤ m.room call.nMax
  · congr 1
    omega
  · -- Without room nothing is left of the prompt.
    rw [List.drop_eq_nil_of_le (by omega), List.drop_eq_nil_of_le (by omega)]

theorem length_window (m : DraftModel) (call : DraftCall) :
    ((window m call).length : Int) ≤ max 0 (m.room call.nMax) := by
  rw [window_eq, List.length_drop, iStart]
  omega

theorem commonLen_spec (a b : List Token) :
    commonLen a b ≤ a.length ∧ commonLen a b ≤ b.length ∧
      a.take (commonLen a b) = b.take (commonLen a b) := by
  induction a generalizing b with
  | nil => simp [commonLen]
  | cons x a ih =>
    cases b with
    | nil => simp [commonLen]
    | cons y b =>
      rw [commonLen]
      by_cases hxy : x = y
      · obtain ⟨ha, hb, htake⟩ := ih b
        rw [if_pos hxy, List.take_succ_cons, List.take_succ_cons, htake, hxy]
        exact ⟨Nat.succ_le_succ ha, Nat.succ_le_succ hb, rfl⟩
      · rw [if_neg hxy]
        exact ⟨Nat.zero_le _, Nat.zero_le _, rfl⟩

/-- Nothing is reused, or the old tokens from `reuse_i` on start with as many tokens of the
window. -/
def ReuseOk (m : DraftModel) (call : DraftCall) (promptDft : List Token) (best : Nat × Nat) : Prop :=
  best.2 = 0 ∨ best.1 < promptDft.length ∧
    best.2 = commonLen (window m call) (promptDft.drop best.1)

theorem reuseOk_step {promptDft : List Token} {best : Nat × Nat} {i : Nat}
    (hi : i < promptDft.length) (h : ReuseOk m call promptDft best) :
    ReuseOk m call promptDft (m.reuseStep call promptDft best i) := by
  rw [reuseStep, ← window_eq]
  split
  · exact .inr ⟨hi, rfl⟩
  · exact h

/-- What is reused stands in the window where it stood. -/
theorem reuse_ok (m : DraftModel) (call : DraftCall) (promptDft : List Token) :
    ReuseOk m call promptDft (m.reuse call promptDft) := by
  have hfold : ∀ (is : List Nat) (best : Nat × Nat), (∀ i ∈ is, i < promptDft.length) →
      ReuseOk m call promptDft best →
      ReuseOk m call promptDft (is.foldl (m.reuseStep call promptDft) best) := by
    intro is
    induction is with
    | nil => exact fun best _ hbest => hbest
    | cons i is ih =>
      intro best his hbest
      obtain ⟨hi, his⟩ := List.forall_mem_cons.1 his
      exact ih _ his (reuseOk_step hi hbest)
  exact hfold _ _ (fun i hi => List.mem_range.1 hi) (.inl rfl)

/-! ### The invariant -/

/-- The cells are those of the list, and they fit the context. -/
structure Inv (m : DraftModel) (s : DraftState) : Prop where
  holds : HoldsTokens s.cells s.promptDft
  fits : s.promptDft.length ≤ m.nCtx

theorem Inv.empty (m : DraftModel) : Inv m {} := ⟨rfl, Nat.zero_le _⟩

theorem Inv.le_posMax (h : Inv m s) : (s.promptDft.length : Int) ≤ posMax := by
  have := h.fits
  have := m.nCtx_le
  have : posMax = 2 ^ 31 - 1 := rfl
  omega

theorem Inv.dropOld (h : Inv m s) {reuseI : Nat} (hle : reuseI ≤ s.promptDft.length) :
    Inv m (dropOld s reuseI) ∧ (dropOld s reuseI).promptDft = s.promptDft.drop reuseI := by
  rw [DraftModel.dropOld]
  by_cases hpos : 0 < reuseI
  · rw [if_pos hpos]
    refine ⟨⟨h.holds.drop hle h.le_posMax, ?_⟩, rfl⟩
    have := h.fits
    show (s.promptDft.drop reuseI).length ≤ m.nCtx
    rw [List.length_drop]
    omega
  · rw [if_neg hpos, Nat.eq_zero_of_not_pos hpos]
    exact ⟨h, rfl⟩

theorem Inv.dropRest (h : Inv m s) {reuseN : Nat} :
    Inv m (dropRest s reuseN) ∧ (dropRest s reuseN).promptDft = s.promptDft.take reuseN := by
  rw [DraftModel.dropRest]
  by_cases hlt : reuseN < s.promptDft.length
  · rw [if_pos hlt]
    refine ⟨⟨h.holds.take h.le_posMax, ?_⟩, rfl⟩
    have := h.fits
    show (s.promptDft.take reuseN).length ≤ m.nCtx
    rw [List.length_take]
    omega
  · rw [if_neg hlt]
    exact ⟨h, (List.take_of_length_le (Nat.le_of_not_lt hlt)).symm⟩

theorem Inv.decode (h : Inv m s) {p : Int} (hp : p = s.promptDft.length) {tokens : List Token}
    (hfit : s.promptDft.length + tokens.length ≤ m.nCtx) : Inv m (decode s p tokens) := by
  refine ⟨h.holds.append hp tokens, ?_⟩
  show (s.promptDft ++ tokens).length ≤ m.nCtx
  rwa [List.length_append]

/-! ### The draft loop -/

/-- The loop keeps the invariant while the drafts that are left fit the context. -/
theorem draftLoop_spec {nPast n i : Nat} {result : List Token} {decodes : List (List TokenCell)}
    (hn : (n : Int) + i = call.nMax) (hresult : result.length = i) (h : Inv m s)
    (hlen : s.promptDft.length = nPast + i + 1) (hroom : nPast + call.nMax ≤ m.nCtx)
    (hdecodes : ∀ cells ∈ decodes, cells.length ≤ m.nCtx) :
    Inv m (draftLoop call nPast n i s result decodes).1 ∧
      ∀ cells ∈ (draftLoop call nPast n i s result decodes).2.2, cells.length ≤ m.nCtx := by
  induction n generalizing i s result decodes with
  | zero => exact ⟨h, hdecodes⟩
  | succ n ih =>
    rw [draftLoop]
    obtain ⟨id, likely⟩ := call.answer s.cells i
    cases likely with
    | false => exact ⟨h, hdecodes⟩
    | true =>
      simp only [not_true_eq_false, if_false]
      by_cases hlast : call.nMax ≤ (result ++ [id]).length
      · rw [if_pos hlast]
        exact ⟨h, hdecodes⟩
      · rw [if_neg hlast]
        rw [List.length_append, List.length_singleton, hresult] at hlast
        have hnext : Inv m (decode s (nPast + i + 1 : Nat) [id]) := by
          refine h.decode (by omega) ?_
          rw [List.length_singleton]
          omega
        refine ih (by omega) ?_ hnext ?_ ?_
        · rw [List.length_append, List.length_singleton, hresult]
        · show (s.promptDft ++ [id]).length = _
          rw [List.length_append, List.length_singleton]
          omega
        · intro cells hcells
          rcases List.mem_append.1 hcells with hold | hnew
          · exact hdecodes cells hold
          · rw [List.mem_singleton.1 hnew, hnext.holds.length]
            exact hnext.fits

/-! ### One call -/

/-- What is asked of a call: the cells follow the list before and after it, never more cells than
the context holds, and the first logits come from the window and the last token. -/
structure Good (m : DraftModel) (s : DraftState) (call : DraftCall) : Prop where
  before : HoldsTokens s.cells s.promptDft
  after : HoldsTokens (m.draft s call).state.cells (m.draft s call).state.promptDft
  counts : ∀ cells ∈ s.cells :: (m.draft s call).decodes ++ [(m.draft s call).state.cells],
    cells.length ≤ m.nCtx
  logits : ∀ cells, (m.draft s call).firstLogits = some cells →
    HoldsTokens cells (window m call ++ [call.idLast])

/-- What is decoded behind a reused part of the window fits, and keeps the invariant. -/
theorem decodeAndDraft_spec {reuseN : Nat} (hone : 1 ≤ call.nMax) (hmax : call.nMax ≤ m.nCtx)
    (h : Inv m s) (hpart : s.promptDft = (window m call).take reuseN)
    (hle : reuseN ≤ (window m call).length) :
    Inv m (m.decodeAndDraft call s reuseN).state ∧
      (∀ cells ∈ (m.decodeAndDraft call s reuseN).decodes, cells.length ≤ m.nCtx) ∧
      ∀ cells, (m.decodeAndDraft call s reuseN).firstLogits = some cells →
        HoldsTokens cells (window m call ++ [call.idLast]) := by
  have hroom : m.room call.nMax = m.nCtx - call.nMax := rfl
  have hwindow := length_window m call
  have htokens : call.prompt.drop (m.iStart call + reuseN) = (window m call).drop reuseN := by
    rw [window_eq, List.drop_drop]
  -- The new tokens complete the window.
  have hwhole : s.promptDft ++ (window m call).drop reuseN = window m call := by
    rw [hpart, List.take_append_drop]
  have hlen : s.promptDft.length = reuseN := by
    rw [hpart, List.length_take, Nat.min_eq_left hle]
  have hprompt : Inv m (decode s reuseN ((window m call).drop reuseN)) := by
    refine h.decode (by rw [hlen]) ?_
    rw [← List.length_append, hwhole]
    omega
  have hpast : (decode s reuseN ((window m call).drop reuseN)).promptDft = window m call := hwhole
  have hlast : Inv m (decode (decode s reuseN ((window m call).drop reuseN))
      (window m call).length [call.idLast]) := by
    refine hprompt.decode (by rw [hpast]) ?_
    rw [hpast, List.length_singleton]
    omega
  have hlastTokens : (decode (decode s reuseN ((window m call).drop reuseN))
      (window m call).length [call.idLast]).promptDft = window m call ++ [call.idLast] := by
    show (decode s reuseN ((window m call).drop reuseN)).promptDft ++ [call.idLast] = _
    rw [hpast]
  simp only [decodeAndDraft, htokens, hpast]
  have hloop := @draftLoop_spec m (decode (decode s reuseN ((window m call).drop reuseN))
      (window m call).length [call.idLast]) call (window m call).length call.nMax.toNat 0 []
    ((if (window m call).drop reuseN = [] then []
      else [(decode s reuseN ((window m call).drop reuseN)).cells]) ++
      [(decode (decode s reuseN ((window m call).drop reuseN))
        (window m call).length [call.idLast]).cells]) (by omega) rfl hlast
    (by rw [hlastTokens, List.length_append, List.length_singleton]) (by omega) (by
      intro cells hcells
      rcases List.mem_append.1 hcells with hfirst | hsecond
      · split at hfirst
        · cases hfirst
        · rw [List.mem_singleton.1 hfirst, hprompt.holds.length]
          exact hprompt.fits
      · rw [List.mem_singleton.1 hsecond, hlast.holds.length]
        exact hlast.fits)
  refine ⟨hloop.1, hloop.2, ?_⟩
  rintro _ ⟨⟩
  rw [← hlastTokens]
  exact hlast.holds

/-- One call of the draft model, whatever the calls before it left. -/
theorem draft_spec (hone : 1 ≤ call.nMax) (hmax : call.nMax ≤ m.nCtx) (h : Inv m s) :
    Good m s call ∧ Inv m (m.draft s call).state := by
  have hwrap : ∀ out : DraftOutcome, m.draft s call = out → Inv m out.state →
      (∀ cells ∈ out.decodes, cells.length ≤ m.nCtx) →
      (∀ cells, out.firstLogits = some cells →
        HoldsTokens cells (window m call ++ [call.idLast])) →
      Good m s call ∧ Inv m (m.draft s call).state := by
    rintro out rfl hinv hdecodes hlogits
    refine ⟨⟨h.holds, hinv.holds, ?_, hlogits⟩, hinv⟩
    intro cells hcells
    rcases List.mem_cons.1 hcells with rfl | hcells
    · rw [h.holds.length]
      exact h.fits
    · rcases List.mem_append.1 hcells with hcells | hcells
      · exact hdecodes cells hcells
      · rw [List.mem_singleton.1 hcells, hinv.holds.length]
        exact hinv.fits
  by_cases hnone : (m.reuse call s.promptDft).2 = 0
  · have hpart : ({} : DraftState).promptDft = (window m call).take 0 := List.take_zero.symm
    obtain ⟨hinv, hdecodes, hlogits⟩ :=
      decodeAndDraft_spec hone hmax (Inv.empty m) hpart (Nat.zero_le _)
    refine hwrap _ ?_ hinv hdecodes hlogits
    simp only [draft, if_pos hnone]
  · by_cases hold : s.promptDft[(m.reuse call s.promptDft).1 + (m.reuse call s.promptDft).2]? =
        some call.idLast
    · -- The old draft is handed out again, and nothing is decoded.
      have hout : m.draft s call = {
          state := s
          result := oldDraft s call.nMax
            ((m.reuse call s.promptDft).1 + (m.reuse call s.promptDft).2 + 1) } := by
        simp only [draft, if_neg hnone, if_pos hold]
      exact hwrap _ hout h nofun nofun
    · obtain ⟨hlt, hcommon⟩ := (reuse_ok m call s.promptDft).resolve_left hnone
      obtain ⟨hwin, -, htake⟩ := commonLen_spec (window m call)
        (s.promptDft.drop (m.reuse call s.promptDft).1)
      rw [← hcommon] at hwin htake
      obtain ⟨hfront, hfrontTokens⟩ := h.dropOld (Nat.le_of_lt hlt)
      obtain ⟨hboth, hbothTokens⟩ := @Inv.dropRest m _ hfront (m.reuse call s.promptDft).2
      rw [hfrontTokens, ← htake] at hbothTokens
      obtain ⟨hinv, hdecodes, hlogits⟩ := decodeAndDraft_spec hone hmax hboth hbothTokens hwin
      refine hwrap _ ?_ hinv hdecodes hlogits
      simp only [draft, if_neg hnone, if_neg hold]

/-! ### Runs -/

/-- A call that drafts at least one token and no more than the context holds. -/
def Drafts (m : DraftModel) (_ : DraftState) (call : DraftCall) : Prop :=
  1 ≤ call.nMax ∧ call.nMax ≤ m.nCtx

/-- After any such calls the next one is as asked. -/
theorem draft_good (m : DraftModel) (s : DraftState) (hrun : Runs {} m.step (Drafts m) s)
    (call : DraftCall) (hcall : Drafts m s call) : Good m s call := by
  have hinv : Inv m s := by
    refine hrun.invariant (Inv.empty m) fun s a s' h hok hstep => ?_
    cases hstep
    exact (draft_spec hok.1 hok.2 h).2
  exact (draft_spec hcall.1 hcall.2 hinv).1

/-- A context of 32 cells, and a model that is sure of the token 3. -/
def smallModel : DraftModel := { nCtx := 32, nCtx_le := by decide }

def sureCall (nMax : Int) : DraftCall :=
  { nMax, prompt := [1], idLast := 2, answer := fun _ _ => (3, true) }

theorem draft_good_again : Good smallModel (smallModel.draft {} (sureCall 4)).state (sureCall 5) :=
  draft_good smallModel _ (.step .init (a := sureCall 4) ⟨by decide, by decide⟩ rfl) (sureCall 5)
    ⟨by decide, by decide⟩

/-- Drafts of 33 tokens fill a cell too many. -/
theorem draft_overruns :
    ¬ ∀ (m : DraftModel) (s : DraftState), Runs {} m.step (fun _ call => 1 ≤ call.nMax) s →
      ∀ call : DraftCall, 1 ≤ call.nMax → Good m s call := by
  intro h
  have hcounts := (h smallModel {} .init (sureCall 33) (by decide)).counts
  revert hcounts
  decide +kernel

end PxqLlama.Spec.DraftModel
