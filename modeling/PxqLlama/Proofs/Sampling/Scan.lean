import PxqLlama.Proofs.Sampling.Prepare
import PxqLlama.Sampling.TopkRaw

/-!
# `Proofs.Sampling.Scan`: the scan for the largest logits

The threshold of a full window does not fall (`PxaTopkWindow.Good.push_full`). So a token that was
not above it when its eight lanes were read is not above it when its turn comes, and the lanes that
the filtered scan leaves out would not have changed the window (`pushAll_filter`). Both scans build
the window of `TopSelect` (`entries_pxaTopkScan`).
-/

namespace PxqLlama.Sampling

open TopSelect

variable {α : Type}

/-! ### The window -/

theorem lastLogit_concat (front : List (α × Int)) (last : α × Int) :
    lastLogit (front ++ [last]) = (last.1 : WithBot α) := by
  rw [lastLogit, List.getLast?_concat]

theorem exists_concat {entries : List (α × Int)} (h : 0 < entries.length) :
    ∃ front last, entries = front ++ [last] := by
  have hne : entries ≠ [] := List.ne_nil_of_length_pos h
  exact ⟨entries.dropLast, entries.getLast hne, (List.dropLast_append_getLast hne).symm⟩

variable [LinearOrder α]

/-- The threshold of a full window is its last logit. -/
structure PxaTopkWindow.Good (w : PxaTopkWindow α) : Prop where
  pos : 0 < w.W
  le : w.entries.length ≤ w.W
  thr : w.entries.length = w.W → w.thr = lastLogit w.entries
  sorted : Descending Prod.fst w.entries

theorem PxaTopkWindow.push_W (w : PxaTopkWindow α) (x : α) (id : Int) : (w.push x id).W = w.W := by
  rw [PxaTopkWindow.push]
  split
  · split <;> rfl
  · rfl

variable {w : PxaTopkWindow α}

/-- A logit that is not above the threshold of a full window is passed over. -/
theorem PxaTopkWindow.push_of_not_lt (hfull : w.entries.length = w.W) {x : α} (hx : ¬ w.thr < x)
    (id : Int) : w.push x id = w := by
  rw [PxaTopkWindow.push, if_pos hfull, if_pos hx]

/-- `push` is the window of `TopSelect`. -/
theorem PxaTopkWindow.Good.entries_push (h : w.Good) (x : α) (id : Int) :
    (w.push x id).entries = TopSelect.push Prod.fst w.W w.entries (x, id) := by
  rw [PxaTopkWindow.push]
  by_cases hfull : w.entries.length = w.W
  · rw [if_pos hfull]
    obtain ⟨front, last, hlast⟩ := exists_concat (show 0 < w.entries.length by have := h.pos; omega)
    have hthr := h.thr hfull
    rw [hlast] at hfull hthr ⊢
    rw [lastLogit_concat] at hthr
    rw [push_concat (by omega), hthr, List.dropLast_concat]
    by_cases hx : last.1 < x
    · rw [if_neg (not_not.2 (WithBot.coe_lt_coe.2 hx)), if_pos hx]
    · rw [if_pos fun hlt => hx (WithBot.coe_lt_coe.1 hlt), if_neg hx, hlast]
  · rw [if_neg hfull, TopSelect.push_of_lt (by have := h.le; omega)]

/-- A push keeps the window sorted and as long as it may be. -/
theorem PxaTopkWindow.Good.push (h : w.Good) (x : α) (id : Int) : (w.push x id).Good := by
  have hplaceLen : ∀ l : List (α × Int), (place Prod.fst (x, id) l).length = l.length + 1 :=
    fun l => length_place (x, id) l
  rw [PxaTopkWindow.push]
  by_cases hfull : w.entries.length = w.W
  · rw [if_pos hfull]
    split
    · exact h
    · have hfront : Descending Prod.fst w.entries.dropLast :=
        List.Pairwise.sublist (List.dropLast_sublist _) h.sorted
      refine ⟨h.pos, ?_, fun _ => rfl, hfront.place _⟩
      show (place Prod.fst (x, id) w.entries.dropLast).length ≤ w.W
      have := h.pos
      rw [hplaceLen, List.length_dropLast]
      omega
  · rw [if_neg hfull]
    refine ⟨h.pos, ?_, fun hnow => if_pos hnow, h.sorted.place _⟩
    show (place Prod.fst (x, id) w.entries).length ≤ w.W
    have := h.le
    rw [hplaceLen]
    omega

/-- A full window stays full, and its threshold does not fall. -/
theorem PxaTopkWindow.Good.push_full (h : w.Good) (hfull : w.entries.length = w.W) (x : α)
    (id : Int) : (w.push x id).entries.length = w.W ∧ w.thr ≤ (w.push x id).thr := by
  by_cases hx : w.thr < x
  · obtain ⟨front, last, hlast⟩ := exists_concat (show 0 < w.entries.length by have := h.pos; omega)
    have hthr := h.thr hfull
    rw [hlast, lastLogit_concat] at hthr
    have hnow : w.push x id = { w with
        entries := place Prod.fst (x, id) front
        thr := lastLogit (place Prod.fst (x, id) front) } := by
      rw [PxaTopkWindow.push, if_pos hfull, if_neg (not_not.2 hx), hlast, List.dropLast_concat]
    rw [hnow]
    have hlen : (place Prod.fst (x, id) front).length = w.W := by
      rw [length_place, ← hfull, hlast, List.length_append, List.length_singleton]
    refine ⟨hlen, ?_⟩
    -- whatever is last now was above the threshold
    obtain ⟨front', last', hlast'⟩ := exists_concat
      (show 0 < (place Prod.fst (x, id) front).length by have := h.pos; omega)
    have hmem : last' ∈ (x, id) :: front := by
      have hplace : (place Prod.fst (x, id) front).Perm ((x, id) :: front) := place_perm _ front
      rw [← hplace.mem_iff, hlast']
      exact List.mem_append_right _ List.mem_cons_self
    show w.thr ≤ lastLogit (place Prod.fst (x, id) front)
    rw [hlast', lastLogit_concat, hthr, WithBot.coe_le_coe]
    rcases List.mem_cons.1 hmem with rfl | hmem
    · rw [hthr] at hx
      exact (WithBot.coe_lt_coe.1 hx).le
    · have hsorted := h.sorted
      rw [hlast] at hsorted
      exact (List.pairwise_append.1 hsorted).2.2 _ hmem _ List.mem_cons_self
  · rw [PxaTopkWindow.push_of_not_lt hfull hx]
    exact ⟨hfull, le_refl _⟩

/-! ### The scan -/

/-- Tokens pushed one after another. -/
def pushAll (x : Nat → α) (ids : List Nat) (w : PxaTopkWindow α) : PxaTopkWindow α :=
  ids.foldl (fun w i => w.push (x i) i) w

theorem pushAll_append (x : Nat → α) (ids ids' : List Nat) (w : PxaTopkWindow α) :
    pushAll x (ids ++ ids') w = pushAll x ids' (pushAll x ids w) := List.foldl_append

theorem pushAll_W (x : Nat → α) (ids : List Nat) (w : PxaTopkWindow α) :
    (pushAll x ids w).W = w.W := by
  induction ids generalizing w with
  | nil => rfl
  | cons i ids ih => exact (ih _).trans (w.push_W (x i) i)

theorem PxaTopkWindow.Good.pushAll (h : w.Good) (x : Nat → α) (ids : List Nat) :
    (pushAll x ids w).Good := by
  induction ids generalizing w with
  | nil => exact h
  | cons i ids ih => exact ih (h.push (x i) i)

theorem PxaTopkWindow.Good.pushAll_full (h : w.Good) (hfull : w.entries.length = w.W)
    (x : Nat → α) (ids : List Nat) : (Sampling.pushAll x ids w).entries.length = w.W := by
  induction ids generalizing w with
  | nil => exact hfull
  | cons i ids ih =>
    have hpush := (h.push_full hfull (x i) i).1
    have hnext := ih (h.push (x i) i) (by rw [w.push_W]; exact hpush)
    rwa [w.push_W] at hnext

theorem PxaTopkWindow.Good.entries_pushAll (h : w.Good) (x : Nat → α) (ids : List Nat) :
    (Sampling.pushAll x ids w).entries =
      (ids.map fun i => (x i, (i : Int))).foldl (TopSelect.push Prod.fst w.W) w.entries := by
  induction ids generalizing w with
  | nil => rfl
  | cons i ids ih =>
    have hnext := ih (h.push (x i) i)
    rw [h.entries_push, w.push_W] at hnext
    exact hnext

/-- Of tokens for a full window only those above a threshold that it had before need a push. -/
theorem PxaTopkWindow.Good.pushAll_filter (h : w.Good) (hfull : w.entries.length = w.W)
    (x : Nat → α) {thr : WithBot α} (hthr : thr ≤ w.thr) (ids : List Nat) :
    Sampling.pushAll x (ids.filter fun i => thr < x i) w =
      Sampling.pushAll x ids w := by
  induction ids generalizing w with
  | nil => rfl
  | cons i ids ih =>
    by_cases hi : thr < x i
    · obtain ⟨hlen, hle⟩ := h.push_full hfull (x i) i
      rw [List.filter_cons_of_pos (by simpa using hi)]
      exact ih (h.push (x i) i) (by rw [w.push_W]; exact hlen) (hthr.trans hle)
    · rw [List.filter_cons_of_neg (by simpa using hi), ih h hfull hthr]
      have hpass := PxaTopkWindow.push_of_not_lt hfull
        (fun hlt => hi (lt_of_le_of_lt hthr hlt)) (x := x i) i
      show _ = Sampling.pushAll x ids (w.push (x i) i)
      rw [hpass]

theorem pxaPushLanes_eq (h : w.Good) (hfull : w.entries.length = w.W) (x : Nat → α) (i : Nat) :
    pxaPushLanes x i w = pushAll x (List.range' i 8) w := by
  have hrange : List.range' i 8 = (List.range 8).map fun b => i + b := by
    rw [List.range'_eq_map_range]
  rw [← h.pushAll_filter hfull x (le_refl _) (List.range' i 8), hrange, List.filter_map, pushAll,
    List.foldl_map]
  rfl

/-- Filling the window pushes the tokens up to the one it stops at. -/
theorem pxaFillWindow_eq (h : w.Good) (x : Nat → α) (left i : Nat) :
    ∃ m ≤ left, pxaFillWindow x left i w = (i + m, pushAll x (List.range' i m) w) ∧
      (m = left ∨ (pushAll x (List.range' i m) w).entries.length = w.W) := by
  induction left generalizing i w with
  | zero => exact ⟨0, Nat.le_refl 0, rfl, Or.inl rfl⟩
  | succ left ih =>
    rw [pxaFillWindow]
    by_cases hroom : w.entries.length < w.W
    · rw [if_pos hroom]
      obtain ⟨m, hm, hrun, hend⟩ := ih (h.push (x i) i) (i + 1)
      have hcons : pushAll x (List.range' i (m + 1)) w =
          pushAll x (List.range' (i + 1) m) (w.push (x i) i) := by
        rw [List.range'_succ]
        rfl
      refine ⟨m + 1, by omega, ?_, ?_⟩
      · rw [hrun, hcons, Nat.add_right_comm, Nat.add_assoc]
      · rw [hcons]
        rw [w.push_W] at hend
        exact hend.imp (fun hend => by omega) id
    · rw [if_neg hroom]
      exact ⟨0, Nat.zero_le _, rfl, Or.inr (by have := h.le; show w.entries.length = w.W; omega)⟩

/-- Eight lanes at a time push what the scalar loop pushes. -/
theorem pxaScanLanes_eq (h : w.Good) (hfull : w.entries.length = w.W) (x : Nat → α)
    (blocks i : Nat) :
    pxaScanLanes x blocks i w = (i + 8 * blocks, pushAll x (List.range' i (8 * blocks)) w) := by
  induction blocks generalizing i w with
  | zero => rfl
  | succ blocks ih =>
    rw [pxaScanLanes, pxaPushLanes_eq h hfull, ih (h.pushAll x _)
      (by rw [pushAll_W]; exact h.pushAll_full hfull x _), ← pushAll_append]
    have hsplit : List.range' i 8 ++ List.range' (i + 8) (8 * blocks) =
        List.range' i (8 * (blocks + 1)) := by
      rw [List.range'_append_1]
      congr 1
      omega
    rw [hsplit]
    congr 1
    omega

/-- The filtered scan builds the window of the scalar one. -/
theorem pxaTopkScanAvx2_eq (h : w.Good) (x : Nat → α) (n : Nat) :
    pxaTopkScanAvx2 x n w = pxaTopkScanScalar x n 0 w := by
  obtain ⟨m, hm, hfill, hend⟩ := pxaFillWindow_eq h x n 0
  have hrest : ∀ i, i ≤ n → ∀ w' : PxaTopkWindow α,
      pushAll x (List.range' i (n - i)) w' = pxaTopkScanScalar x n i w' := fun _ _ _ => rfl
  have hall : ∀ i ≤ n, pxaTopkScanScalar x n i (pushAll x (List.range' 0 i) w) =
      pxaTopkScanScalar x n 0 w := by
    intro i hi
    rw [← hrest i hi, ← pushAll_append, ← hrest 0 (Nat.zero_le n)]
    have hsplit : List.range' 0 i ++ List.range' i (n - i) = List.range' 0 (n - 0) := by
      have := List.range'_append_1 (s := 0) (m := i) (n := n - i)
      rw [Nat.zero_add] at this
      rw [this]
      congr 1
      omega
    rw [hsplit]
  rw [pxaTopkScanAvx2, hfill]
  simp only [Nat.zero_add]
  rcases hend with rfl | hfull
  · -- the row ends before the window is full, or just then
    rw [Nat.sub_self, Nat.zero_div, pxaScanLanes]
    exact hall m (Nat.le_refl m)
  · have hgood := h.pushAll x (List.range' 0 m)
    rw [pxaScanLanes_eq hgood (by rw [pushAll_W]; exact hfull), ← pushAll_append]
    have hblocks : 8 * ((n - m) / 8) ≤ n - m := Nat.mul_div_le _ _
    have hsplit : List.range' 0 m ++ List.range' m (8 * ((n - m) / 8)) =
        List.range' 0 (m + 8 * ((n - m) / 8)) := by
      have := List.range'_append_1 (s := 0) (m := m) (n := 8 * ((n - m) / 8))
      rwa [Nat.zero_add] at this
    rw [hsplit]
    exact hall _ (by omega)

theorem good_empty {W : Nat} (hW : 0 < W) : ({ W := W } : PxaTopkWindow α).Good :=
  ⟨hW, Nat.zero_le W, fun h => absurd h (by show ¬ 0 = W; omega), List.Pairwise.nil⟩

/-- The window that a scan builds, whichever it is. -/
theorem entries_pxaTopkScan (hasAvx2 : Bool) {W : Nat} (hW : 0 < W) (x : Nat → α) (n : Nat) :
    (pxaTopkScan hasAvx2 x n { W := W }).entries =
      ((List.range n).map fun i => (x i, (i : Int))).foldl (TopSelect.push Prod.fst W) [] := by
  have hscalar : pxaTopkScan hasAvx2 x n { W := W } = pxaTopkScanScalar x n 0 { W := W } := by
    rw [pxaTopkScan]
    split
    · exact pxaTopkScanAvx2_eq (good_empty hW) x n
    · rfl
  rw [hscalar]
  have hrun := (good_empty hW).entries_pushAll x (List.range' 0 (n - 0))
  rw [Nat.sub_zero, ← List.range_eq_range'] at hrun
  rw [pxaTopkScanScalar, Nat.sub_zero, ← List.range_eq_range']
  exact hrun

/-! ### The penalties in the row -/

/-- A row that the saved values make the original one. -/
structure Restores (original row : Logits α) (restore : List (LlamaToken × α)) : Prop where
  saved : ∀ r ∈ restore, r.2 = original r.1
  others : ∀ k, k ∉ restore.map Prod.fst → row k = original k

omit [LinearOrder α] in
theorem Restores.foldl {original row : Logits α} {restore : List (LlamaToken × α)}
    (h : Restores original row restore) :
    restore.foldl (fun logits r => Function.update logits r.1 r.2) row = original := by
  induction restore generalizing row with
  | nil => exact funext fun k => h.others k List.not_mem_nil
  | cons r restore ih =>
    refine ih ⟨fun r' hr' => h.saved r' (List.mem_cons_of_mem _ hr'), fun k hk => ?_⟩
    show Function.update row r.1 r.2 k = original k
    by_cases hkr : k = r.1
    · rw [hkr, Function.update_self, h.saved r List.mem_cons_self]
    · rw [Function.update_of_ne hkr]
      refine h.others k ?_
      rw [List.map_cons, List.mem_cons]
      exact not_or.2 ⟨hkr, hk⟩

variable {σ : Type} [Field α]

/-- The body of the loop over `token_count`. -/
def penalizeStep (cs : CommonSampler α σ) (nVocab : Nat)
    (s : Logits α × List (LlamaToken × α)) (kv : LlamaToken × Nat) :
    Logits α × List (LlamaToken × α) :=
  if kv.1 < 0 ∨ (nVocab : Int) ≤ kv.1 then s
  else
    (Function.update s.1 kv.1 (penalize cs.params.penaltyRepeat cs.params.penaltyFreq
      cs.params.penaltyPresent kv.2 (s.1 kv.1)), s.2 ++ [(kv.1, s.1 kv.1)])

/-- What the loop does to the value at a token. -/
theorem foldl_penalizeStep_apply (cs : CommonSampler α σ) {nVocab : Nat}
    {kvs : List (LlamaToken × Nat)} (hnodup : (kvs.map Prod.fst).Nodup)
    (s : Logits α × List (LlamaToken × α)) {token : Nat} (htoken : token < nVocab) :
    (kvs.foldl (penalizeStep cs nVocab) s).1 token =
      match kvs.find? fun kv => kv.1 = (token : Int) with
      | none => s.1 token
      | some kv => penalize cs.params.penaltyRepeat cs.params.penaltyFreq cs.params.penaltyPresent
          kv.2 (s.1 token) := by
  induction kvs generalizing s with
  | nil => rfl
  | cons kv kvs ih =>
    rw [List.map_cons, List.nodup_cons] at hnodup
    rw [List.foldl_cons, ih hnodup.2, List.find?_cons]
    by_cases hkv : kv.1 = (token : Int)
    · -- the keys behind are others
      have hnone : (kvs.find? fun kv => kv.1 = (token : Int)) = none := by
        refine List.find?_eq_none.2 fun kv' hkv' heq => hnodup.1 ?_
        have : kv'.1 = token := by simpa using heq
        exact List.mem_map.2 ⟨kv', hkv', by rw [this, hkv]⟩
      have hin : ¬ ((token : Int) < 0 ∨ (nVocab : Int) ≤ token) := by omega
      simp only [hnone, hkv, decide_true, penalizeStep, if_neg hin, Function.update_self]
    · have hsame : (penalizeStep cs nVocab s kv).1 token = s.1 token := by
        rw [penalizeStep]
        split
        · rfl
        · exact Function.update_of_ne (fun heq => hkv heq.symm) _ _
      simp only [hsame, hkv, decide_false]

/-- The penalties save each logit that they change, once. -/
theorem foldl_penalizeStep_restores (cs : CommonSampler α σ) {nVocab : Nat} {original : Logits α}
    {kvs : List (LlamaToken × Nat)} (hnodup : (kvs.map Prod.fst).Nodup)
    {s : Logits α × List (LlamaToken × α)} (h : Restores original s.1 s.2)
    (hfresh : ∀ kv ∈ kvs, s.1 kv.1 = original kv.1) :
    Restores original (kvs.foldl (penalizeStep cs nVocab) s).1
      (kvs.foldl (penalizeStep cs nVocab) s).2 := by
  induction kvs generalizing s with
  | nil => exact h
  | cons kv kvs ih =>
    rw [List.map_cons, List.nodup_cons] at hnodup
    have hothers : ∀ kv' ∈ kvs, kv'.1 ≠ kv.1 := fun kv' hkv' heq =>
      hnodup.1 (heq ▸ List.mem_map_of_mem hkv')
    refine ih hnodup.2 ?_ fun kv' hkv' => ?_
    · rw [penalizeStep]
      split
      · exact h
      · refine ⟨fun r hr => ?_, fun k hk => ?_⟩
        · rcases List.mem_append.1 hr with hr | hr
          · exact h.saved r hr
          · rw [List.mem_singleton.1 hr]
            exact hfresh kv List.mem_cons_self
        · rw [List.map_append, List.mem_append, not_or] at hk
          have hne : k ≠ kv.1 := fun heq => hk.2 (by simp [heq])
          show Function.update s.1 kv.1 _ k = original k
          rw [Function.update_of_ne hne]
          exact h.others k hk.1
    · rw [penalizeStep]
      split
      · exact hfresh kv' (List.mem_cons_of_mem _ hkv')
      · show Function.update s.1 kv.1 _ kv'.1 = original kv'.1
        rw [Function.update_of_ne (hothers kv' hkv')]
        exact hfresh kv' (List.mem_cons_of_mem _ hkv')

theorem pxaTopkRawPenaltiesActive_iff (cs : CommonSampler α σ) :
    pxaTopkRawPenaltiesActive cs = true ↔ PenaltiesActive cs := by
  rw [pxaTopkRawPenaltiesActive, decide_eq_true_iff, PenaltiesActive, Nat.pos_iff_ne_zero]

/-- The row as it is scanned, and that it can be made the row that it was. -/
theorem pxaPenalizeRow_spec (cs : CommonSampler α σ) (nVocab : Nat) (nlToken : LlamaToken)
    (logits : Logits α) :
    (∀ token : Nat, token < nVocab → (pxaPenalizeRow cs nVocab nlToken logits).1 token =
      if PenaltiesActive cs ∧ IsExempt cs nlToken token then logits nlToken
      else requestLogit cs token (logits token)) ∧
    Restores logits (pxaPenalizeRow cs nVocab nlToken logits).1
      (pxaPenalizeRow cs nVocab nlToken logits).2 := by
  have hempty : Restores logits logits [] := ⟨fun r hr => absurd hr List.not_mem_nil, fun k _ => rfl⟩
  by_cases hactive : PenaltiesActive cs
  · have hnodup := nodup_tokenCount (lastTokens cs)
    let out := (tokenCount (lastTokens cs)).foldl (penalizeStep cs nVocab) (logits, [])
    have happly : ∀ token : Nat, token < nVocab → out.1 token =
        requestLogit cs token (logits token) := by
      intro token htoken
      rw [foldl_penalizeStep_apply cs hnodup _ htoken, find?_tokenCount, requestLogit,
        if_pos hactive, penalizedLogit]
      by_cases hmem : (token : Int) ∈ lastTokens cs
      · simp only [if_pos hmem]
      · simp only [if_neg hmem]
    have hrestores : Restores logits out.1 out.2 :=
      foldl_penalizeStep_restores cs hnodup hempty fun kv _ => rfl
    have hrun : pxaPenalizeRow cs nVocab nlToken logits =
        if ¬ cs.params.penalizeNl ∧ nlToken ≠ llamaTokenNull then
          (Function.update out.1 nlToken (if nlToken ≠ llamaTokenNull then logits nlToken else 0),
            out.2)
        else (out.1, out.2) := by
      rw [pxaPenalizeRow, if_pos ((pxaTopkRawPenaltiesActive_iff cs).2 hactive)]
      rfl
    rw [hrun]
    by_cases hnl : ¬ cs.params.penalizeNl ∧ nlToken ≠ llamaTokenNull
    · rw [if_pos hnl, if_pos hnl.2]
      constructor
      · intro token htoken
        by_cases heq : (token : Int) = nlToken
        · rw [if_pos ⟨hactive, hnl, heq⟩, heq]
          exact Function.update_self _ _ _
        · rw [if_neg fun h => heq h.2.2, ← happly token htoken]
          exact Function.update_of_ne heq _ _
      · refine ⟨hrestores.saved, fun k hk => ?_⟩
        by_cases hkn : k = nlToken
        · rw [hkn]
          exact Function.update_self _ _ _
        · show Function.update out.1 nlToken _ k = logits k
          rw [Function.update_of_ne hkn]
          exact hrestores.others k hk
    · rw [if_neg hnl]
      refine ⟨fun token htoken => ?_, hrestores⟩
      rw [if_neg fun h => hnl h.2.1]
      exact happly token htoken
  · have hrun : pxaPenalizeRow cs nVocab nlToken logits = (logits, []) := by
      rw [pxaPenalizeRow, if_neg fun h => hactive ((pxaTopkRawPenaltiesActive_iff cs).1 h)]
    rw [hrun]
    refine ⟨fun token _ => ?_, hempty⟩
    rw [if_neg fun h => hactive h.1, requestLogit, if_neg hactive]

end PxqLlama.Sampling
