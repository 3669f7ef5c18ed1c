import PxqLlama.Proofs.Kv.Mirror

/-!
# `Proofs.Kv.Truncation`: the window after a truncation

After a removal the next token of a sequence looks at the positions below the last one left in
`kv_self`. The coverage check looks for a hole in the window of the last position left in the
sliding cache (`llamaKvSwaCoverageOk_iff`). What the sliding cache holds is in `kv_self` too, so
the two windows are the same when the two last positions are.

`truncation_covers_window_iff` says what follows in every state of a run. When the check finds no
hole, the window is covered exactly when the last position left in `kv_self` is held by the
sliding cache. So a removal that goes below everything the sliding cache held passes the check,
and leaves the window empty (`truncation_leaves_hole`).
-/

namespace PxqLlama.Kv

/-! ### Runs -/

/-- A fresh context with an active sliding cache, of a model with attention only. -/
structure SwaArmed (ctx : KvContext) : Prop where
  active : ctx.swaKvActive = true
  window : 0 < ctx.nSwa
  self : ∃ size, ctx.kvSelf = llamaKvCacheInit false false 0 size
  swa : ∃ size, ctx.kvSwa = llamaKvCacheInit false false 0 size

/-- The call places tokens with a position only, requests no defragmentation, and divides by one
or more. -/
def KvOp.Plain : KvOp → Prop
  | .decode b => ∀ t ∈ b, 0 ≤ t.pos
  | .defrag => False
  | .seqDiv _ _ _ d => 1 ≤ d
  | _ => True

/-- The invariant of a run. -/
structure ArmedOk (ctx : KvContext) : Prop where
  active : ctx.swaKvActive = true
  window : 0 < ctx.nSwa
  doDefrag : ctx.kvSelf.doDefrag = false
  mirror : MirrorOk ctx.kvSwa ctx.kvSelf

theorem SwaArmed.armedOk {ctx : KvContext} (h : SwaArmed ctx) : ArmedOk ctx := by
  have hcell : ∀ size i, (llamaKvCacheInit false false 0 size).cells i = {} := by
    intro size i
    simp [llamaKvCacheInit]
  have hfree : ∀ size, FreeEmpty (llamaKvCacheInit false false 0 size) := by
    intro size i _ _
    rw [hcell]
  obtain ⟨size, hself⟩ := h.self
  obtain ⟨size', hswa⟩ := h.swa
  refine ⟨h.active, h.window, by rw [hself]; rfl, ?_⟩
  rw [hself, hswa]
  refine ⟨⟨rfl, rfl⟩, ⟨rfl, rfl⟩, ⟨hfree _, hfree _⟩, fun i _ hne => ?_⟩
  rw [hcell] at hne
  exact absurd hne Finset.not_nonempty_empty

section
variable {ctx ctx' : KvContext}

/-- An update keeps the record right. -/
theorem ArmedOk.update {ret : Nat} (h : ArmedOk ctx)
    (hupdate : llamaKvCacheUpdate ctx = some (ret, ctx')) : ArmedOk ctx' := by
  rcases update_plain_cases h.mirror.recurrent.2 h.mirror.qnextSlots.2 h.doDefrag hupdate with
    rfl | rfl
  · exact h
  · have hcontent : ∀ c : KvCache, ∀ i < c.size,
        ((clearShift c).cells i).content = (c.cells i).content := by
      intro c i hi
      simp only [clearShift, if_pos hi]
      rfl
    refine ⟨h.active, h.window, h.doDefrag, ?_⟩
    simp only [h.active, if_true]
    exact h.mirror.of_content ⟨rfl, rfl, rfl⟩ ⟨rfl, rfl, rfl⟩
      (fun i hi => Or.inl (hcontent _ i hi)) (hcontent _)

/-- Placing a batch keeps the record of evicted positions right. -/
theorem ArmedOk.place (h : ArmedOk ctx) {b : UBatch} (hb : ∀ t ∈ b, 0 ≤ t.pos) :
    ArmedOk (placeUbatch ctx b).2 := by
  obtain ⟨c₁, head, r, r', hc₁, hslot, hslot', hends⟩ := placeUbatch_slotted (b := b)
    (P := fun a => MirrorOk a ctx.kvSelf) h.active h.mirror.recurrent.2
    (fun guard hc => hc.evict ctx.nSwa b guard) (fun hslot hc hno => hslot.mirrorOk_full hc hno)
    h.mirror
  have hmirror : MirrorOk c₁ { ctx.kvSelf with head := head } :=
    hc₁.of_content ⟨rfl, rfl, rfl⟩ ⟨rfl, rfl, rfl⟩ (fun _ _ => Or.inl rfl) fun _ _ => rfl
  have hdefrag : r'.2.doDefrag = false := hslot'.doDefrag.trans h.doDefrag
  rcases hends with ⟨hno, heq⟩ | ⟨hyes, hno', n, heq⟩ | ⟨hyes, hyes', n, n', heq⟩
  · rw [heq]
    exact ⟨h.active, h.window, h.doDefrag, hslot.mirrorOk_full hmirror hno⟩
  · rw [heq]
    exact ⟨h.active, h.window, hdefrag,
      Slotted.mirrorOk_release hmirror hslot hyes hslot' hno' hb ⟨rfl, rfl, rfl, rfl⟩⟩
  · rw [heq]
    have hfound := Slotted.mirrorOk_found hmirror hslot hyes hslot' hyes' hb
    exact ⟨h.active, h.window, hdefrag, hfound.of_content ⟨rfl, rfl, rfl⟩ ⟨rfl, rfl, rfl⟩
      (fun _ _ => Or.inl rfl) fun _ _ => rfl⟩

theorem ArmedOk.edited {es : List SeqEdit} (h : ArmedOk ctx) (hes : BothEdited es ctx ctx') :
    ArmedOk ctx' where
  active := hes.active.trans h.active
  window := by
    rw [hes.eq]
    exact h.window
  doDefrag := (editAll_shape h.mirror.recurrent.2 (Or.inl h.mirror.qnextSlots.2) hes.self).1.trans
    h.doDefrag
  mirror := h.mirror.editAll hes.ok (hes.swa h.active) hes.self

/-- Every plain call keeps it right. -/
theorem kvStep_armedOk {op : KvOp} (h : ArmedOk ctx) (hop : op.Plain)
    (hstep : kvStep ctx op = some ctx') : ArmedOk ctx' := by
  have hedit : op.IsEdit → ArmedOk ctx' := by
    intro hedit
    obtain ⟨es, hes, -⟩ := kvStep_edits hedit hstep
    exact h.edited hes
  cases op with
  | decode b =>
    simp only [kvStep, Option.map_eq_some_iff] at hstep
    obtain ⟨⟨ret, ctx₂⟩, hdecode, rfl⟩ := hstep
    obtain ⟨ctx₁, head, hinputs, rfl⟩ := decodeUbatch_cases hdecode
    have hhead : ArmedOk ctx₁ →
        ArmedOk { ctx₁ with kvSelf := { ctx₁.kvSelf with head := head } } := by
      intro h₁
      exact ⟨h₁.active, h₁.window, h₁.doDefrag,
        h₁.mirror.of_content ⟨rfl, rfl, rfl⟩ ⟨rfl, rfl, rfl⟩ (fun _ _ => Or.inl rfl) fun _ _ => rfl⟩
    rcases decodeInputs_cases hinputs with ⟨-, hupdate⟩ | ⟨ctx₀, hupdate, hplace⟩
    · exact hhead (h.update hupdate)
    · have h₁ := (h.update hupdate).place hop
      rw [hplace] at h₁
      exact hhead h₁
  | update =>
    simp only [kvStep, Option.map_eq_some_iff] at hstep
    obtain ⟨⟨ret, ctx₂⟩, hupdate, rfl⟩ := hstep
    exact h.update hupdate
  | defrag => exact hop.elim
  | seqDiv s p0 p1 d => exact hedit hop
  | seqRm | seqCp | seqKeep | seqAdd | clear => exact hedit trivial

/-- So does a run. -/
theorem kvRun_armedOk {ops : List KvOp} (h : ArmedOk ctx) (hops : ∀ op ∈ ops, op.Plain)
    (hrun : kvRun ctx ops = some ctx') : ArmedOk ctx' := by
  induction ops generalizing ctx with
  | nil =>
    cases hrun
    exact h
  | cons op ops ih =>
    rw [kvRun] at hrun
    cases hstep : kvStep ctx op with
    | none =>
      rw [hstep] at hrun
      cases hrun
    | some ctx₁ =>
      rw [hstep] at hrun
      exact ih (kvStep_armedOk h (hops op (List.mem_cons_self ..)) hstep)
        (fun o ho => hops o (List.mem_cons_of_mem _ ho)) hrun

end

/-! ### Positions -/

/-- The cache holds the sequence at a position. -/
def HoldsPos (c : KvCache) (s q : Int) : Prop :=
  ∃ i < c.size, s ∈ (c.cells i).seqId ∧ (c.cells i).pos = q

/-- The position of the sequence is not in the range that is removed. -/
def Leftover (c : KvCache) (s p0 p1 q : Int) : Prop :=
  HoldsPos c s q ∧ ¬ (rangeFrom p0 ≤ q ∧ q < rangeTo p1)

/-- `P` is the last of the positions. -/
def LastPos (L : Int → Prop) (P : Int) : Prop := L P ∧ ∀ q, L q → q ≤ P

/-- There are positions, and none is missing in the window that ends with the last one. -/
def WindowFull (L : Int → Prop) (nSwa : Nat) : Prop :=
  ∃ P, LastPos L P ∧ ∀ q, 0 ≤ q → P - nSwa < q → q ≤ P → L q

theorem LastPos.unique {L : Int → Prop} {P P' : Int} (h : LastPos L P) (h' : LastPos L P') :
    P = P' :=
  Int.le_antisymm (h'.2 P h.1) (h.2 P' h'.1)

variable {c : KvCache}

theorem FreeEmpty.nonneg (hfree : FreeEmpty c) {s q : Int} (h : HoldsPos c s q) : 0 ≤ q := by
  obtain ⟨i, hi, hs, rfl⟩ := h
  by_contra hneg
  rw [hfree i hi (Int.not_le.mp hneg)] at hs
  exact absurd hs (Finset.notMem_empty s)

theorem Mirrors.holdsPos {a : KvCache} (h : Mirrors a c) {s q : Int} (hq : HoldsPos a s q) :
    HoldsPos c s q := by
  obtain ⟨i, hi, hs, rfl⟩ := hq
  obtain ⟨j, hj, hsame⟩ := h i hi ⟨s, hs⟩
  obtain ⟨hpos, hseq⟩ := Prod.mk.inj hsame
  exact ⟨j, hj, by rw [hseq]; exact hs, hpos⟩

/-- A removal leaves the positions outside its range. -/
theorem holdsPos_seqRm (hrec : c.recurrent = false) {s : Int} (hs : 0 ≤ s) (p0 p1 q : Int) :
    HoldsPos (llamaKvCacheSeqRm c s p0 p1).2 s q ↔ Leftover c s p0 p1 q := by
  have hedited := edited_seqRm hrec s p0 p1
  have hcell : ∀ i < c.size, s ∈ ((llamaKvCacheSeqRm c s p0 p1).2.cells i).seqId ∧
      ((llamaKvCacheSeqRm c s p0 p1).2.cells i).pos = q ↔
      (s ∈ (c.cells i).seqId ∧ (c.cells i).pos = q) ∧ ¬ (rangeFrom p0 ≤ q ∧ q < rangeTo p1) := by
    intro i hi
    have hcontent := (SeqEdit.rm s p0 p1).cell_content c.hasQnextState i (c.cells i)
    rw [← hedited.cell i hi] at hcontent
    have hpos : ((llamaKvCacheSeqRm c s p0 p1).2.cells i).pos
        = ((SeqEdit.rm s p0 p1).content (c.cells i).content).1 := congrArg Prod.fst hcontent
    have hseq : ((llamaKvCacheSeqRm c s p0 p1).2.cells i).seqId
        = ((SeqEdit.rm s p0 p1).content (c.cells i).content).2 := congrArg Prod.snd hcontent
    rw [hpos, hseq]
    simp only [SeqEdit.content, if_neg (Int.not_lt.mpr hs)]
    by_cases hin : (rangeFrom p0 ≤ (c.cells i).content.1 ∧ (c.cells i).content.1 < rangeTo p1) ∧
        (s < 0 ∨ s ∈ (c.cells i).content.2)
    · -- the cell is in the range: the sequence is taken out
      rw [if_pos hin]
      refine iff_of_false ?_ ?_
      · rintro ⟨hmem, -⟩
        split at hmem
        · exact absurd hmem (Finset.notMem_empty s)
        · exact absurd hmem (Finset.notMem_erase s _)
      · rintro ⟨⟨-, rfl⟩, hout⟩
        exact hout hin.1
    · rw [if_neg hin]
      refine ⟨fun h => ⟨h, fun hrange => ?_⟩, fun h => h.1⟩
      obtain ⟨hmem, rfl⟩ := h
      exact hin ⟨hrange, Or.inr hmem⟩
  constructor
  · rintro ⟨i, hi, h⟩
    rw [hedited.size] at hi
    obtain ⟨hheld, hout⟩ := (hcell i hi).mp h
    exact ⟨⟨i, hi, hheld⟩, hout⟩
  · rintro ⟨⟨i, hi, hheld⟩, hout⟩
    exact ⟨i, by rw [hedited.size]; exact hi, (hcell i hi).mpr ⟨hheld, hout⟩⟩

/-! ### The coverage check -/

/-- The last position of the sequence in the cache, or minus one. -/
theorem seqPosMax_spec (c : KvCache) (s : Int) :
    (llamaKvSwaSeqPosMax c s = -1 ∧ ∀ q, 0 ≤ q → ¬ HoldsPos c s q) ∨
      (0 ≤ llamaKvSwaSeqPosMax c s ∧ HoldsPos c s (llamaKvSwaSeqPosMax c s) ∧
        ∀ q, 0 ≤ q → HoldsPos c s q → q ≤ llamaKvSwaSeqPosMax c s) := by
  have hprefix : ∀ n, ∃ m, (List.range n).foldl (fun res i =>
        if 0 ≤ (c.cells i).pos ∧ (c.cells i).hasSeqId s then max res (c.cells i).pos
        else res) (-1) = m ∧
      ((m = -1 ∧ ∀ i < n, 0 ≤ (c.cells i).pos → s ∉ (c.cells i).seqId) ∨
        (0 ≤ m ∧ (∃ i < n, s ∈ (c.cells i).seqId ∧ (c.cells i).pos = m) ∧
          ∀ i < n, 0 ≤ (c.cells i).pos → s ∈ (c.cells i).seqId → (c.cells i).pos ≤ m)) := by
    intro n
    induction n with
    | zero => exact ⟨-1, rfl, Or.inl ⟨rfl, fun i hi => absurd hi (Nat.not_lt_zero i)⟩⟩
    | succ n ih =>
      obtain ⟨m, hm, hcases⟩ := ih
      rw [List.range_succ, List.foldl_append, hm, List.foldl_cons, List.foldl_nil]
      simp only [KvCell.hasSeqId, decide_eq_true_eq]
      by_cases hhas : 0 ≤ (c.cells n).pos ∧ s ∈ (c.cells n).seqId
      · rw [if_pos hhas]
        refine ⟨_, rfl, Or.inr ⟨by omega, ?_, fun i hi hpos hmem => ?_⟩⟩
        · rcases hcases with ⟨hnone, -⟩ | ⟨hge, ⟨i, hi, hmem, hpos⟩, -⟩
          · exact ⟨n, Nat.lt_succ_self n, hhas.2, by omega⟩
          · rcases Int.le_total m (c.cells n).pos with hle | hle
            · exact ⟨n, Nat.lt_succ_self n, hhas.2, by omega⟩
            · exact ⟨i, Nat.lt_succ_of_lt hi, hmem, by omega⟩
        · rcases Nat.lt_succ_iff_lt_or_eq.mp hi with hlt | rfl
          · rcases hcases with ⟨-, hnone⟩ | ⟨-, -, hle⟩
            · exact absurd hmem (hnone i hlt hpos)
            · have := hle i hlt hpos hmem
              omega
          · omega
      · rw [if_neg hhas]
        refine ⟨m, rfl, ?_⟩
        rcases hcases with ⟨hmin, hnone⟩ | ⟨hge, ⟨i, hi, hmem, hpos⟩, hle⟩
        · refine Or.inl ⟨hmin, fun i hi hpos hmem => ?_⟩
          rcases Nat.lt_succ_iff_lt_or_eq.mp hi with hlt | rfl
          · exact hnone i hlt hpos hmem
          · exact hhas ⟨hpos, hmem⟩
        · refine Or.inr ⟨hge, ⟨i, Nat.lt_succ_of_lt hi, hmem, hpos⟩, fun j hj hpos' hmem' => ?_⟩
          rcases Nat.lt_succ_iff_lt_or_eq.mp hj with hlt | rfl
          · exact hle j hlt hpos' hmem'
          · exact absurd ⟨hpos', hmem'⟩ hhas
  obtain ⟨m, hm, hcases⟩ := hprefix c.size
  rw [llamaKvSwaSeqPosMax, hm]
  rcases hcases with ⟨hmin, hnone⟩ | ⟨hge, hheld, hle⟩
  · left
    refine ⟨hmin, ?_⟩
    rintro q hq ⟨i, hi, hmem, rfl⟩
    exact hnone i hi hq hmem
  · right
    refine ⟨hge, hheld, ?_⟩
    rintro q hq ⟨i, hi, hmem, rfl⟩
    exact hle i hi hq hmem

/-- The check passes when the cache holds nothing of the sequence, or no hole in the window of
what it holds. -/
theorem llamaKvSwaCoverageOk_iff (hfree : FreeEmpty c) (nSwa : Nat) (s : Int) :
    llamaKvSwaCoverageOk c nSwa s = true ↔
      (∀ q, ¬ HoldsPos c s q) ∨ WindowFull (HoldsPos c s) nSwa := by
  rw [llamaKvSwaCoverageOk]
  rcases seqPosMax_spec c s with ⟨hmin, hnone⟩ | ⟨hge, hheld, hle⟩
  · rw [hmin]
    exact iff_of_true rfl (Or.inl fun q hq => hnone q (hfree.nonneg hq) hq)
  · generalize llamaKvSwaSeqPosMax c s = pmax at hge hheld hle
    have hlast : LastPos (HoldsPos c s) pmax := ⟨hheld, fun q hq => hle q (hfree.nonneg hq) hq⟩
    simp only [if_neg (Int.not_lt.mpr hge), List.all_eq_true, List.mem_range, List.any_eq_true,
      Bool.and_eq_true, decide_eq_true_eq, KvCell.hasSeqId]
    constructor
    · intro hall
      refine Or.inr ⟨pmax, hlast, fun q hq hlt hqp => ?_⟩
      obtain ⟨i, hi, hpos, hmem⟩ := hall (q - max 0 (pmax - nSwa + 1)).toNat (by omega)
      exact ⟨i, hi, hmem, by omega⟩
    · rintro (hnone | ⟨P, hP, hwindow⟩)
      · exact absurd hheld (hnone pmax)
      · obtain rfl := hP.unique hlast
        intro k hk
        obtain ⟨i, hi, hmem, hpos⟩ := hwindow (max 0 (P - nSwa + 1) + k) (by omega) (by omega)
          (by omega)
        exact ⟨i, hi, hpos, hmem⟩

/-! ### The truncation -/

/-- What a removal promises: true, and the window of the last position of the sequence in
`kv_self` has no hole in the sliding cache; or false, and neither cache holds the sequence. -/
def NoHole (nSwa : Nat) (s : Int) (r : Bool × KvContext) : Prop :=
  (r.1 = true ∧ ∀ P, LastPos (HoldsPos r.2.kvSelf s) P → ∀ q, HoldsPos r.2.kvSelf s q →
      P - nSwa < q → q ≤ P → HoldsPos r.2.kvSwa s q) ∨
    (r.1 = false ∧ ∀ q, ¬ HoldsPos r.2.kvSelf s q ∧ ¬ HoldsPos r.2.kvSwa s q)

/-- When the promise is kept: where the positions left in the sliding cache have a hole in their
window, the positions left are below the greatest one there is, so that the sequence can be
removed; otherwise the last position left in `kv_self` is left in the sliding cache, too. -/
structure TruncationOk (ctx : KvContext) (s p0 p1 : Int) : Prop where
  hole : (∃ q, Leftover ctx.kvSwa s p0 p1 q) →
    ¬ WindowFull (Leftover ctx.kvSwa s p0 p1) ctx.nSwa →
    ∀ q, Leftover ctx.kvSelf s p0 p1 q → q < posMax
  last : (∀ q, ¬ Leftover ctx.kvSwa s p0 p1 q) ∨
      WindowFull (Leftover ctx.kvSwa s p0 p1) ctx.nSwa →
    ∀ P, LastPos (Leftover ctx.kvSelf s p0 p1) P → Leftover ctx.kvSwa s p0 p1 P

section
variable {ctx : KvContext} (h : ArmedOk ctx) {s : Int} (hs : 0 ≤ s) (p0 p1 : Int)
include h hs

/-- A removal from both caches, with the check of what is left. -/
theorem kvSeqRm_eq : ∃ ctx', ArmedOk ctx' ∧ ctx'.nSwa = ctx.nSwa ∧
    (∀ q, HoldsPos ctx'.kvSelf s q ↔ Leftover ctx.kvSelf s p0 p1 q) ∧
    (∀ q, HoldsPos ctx'.kvSwa s q ↔ Leftover ctx.kvSwa s p0 p1 q) ∧
    kvSeqRm ctx s p0 p1 = if llamaKvSwaCoverageOk ctx'.kvSwa ctx'.nSwa s then (true, ctx')
      else (false, { ctx' with
        kvSwa := (llamaKvCacheSeqRm ctx'.kvSwa s (-1) (-1)).2
        kvSelf := (llamaKvCacheSeqRm ctx'.kvSelf s (-1) (-1)).2 }) := by
  have hrm : BothEdited [.rm s p0 p1] ctx { ctx with
      kvSelf := (llamaKvCacheSeqRm ctx.kvSelf s p0 p1).2
      kvSwa := (llamaKvCacheSeqRm ctx.kvSwa s p0 p1).2 } := by
    refine bothEdited_single (.rm s p0 p1) trivial rfl (fun _ => rfl) fun hidle => ?_
    rw [h.active] at hidle
    cases hidle
  refine ⟨_, h.edited hrm, rfl, holdsPos_seqRm h.mirror.recurrent.2 hs p0 p1,
    holdsPos_seqRm h.mirror.recurrent.1 hs p0 p1, ?_⟩
  have hok : ∀ c : KvCache, c.recurrent = false → (llamaKvCacheSeqRm c s p0 p1).1 = true := by
    intro c hrec
    rw [llamaKvCacheSeqRm, if_neg (by simp [seqRmRefused, hrec])]
  simp only [kvSeqRm, h.active, if_true, if_pos hs, coverageCheck,
    hok _ h.mirror.recurrent.1, hok _ h.mirror.recurrent.2]
  split <;> rfl

/-- The promise of a removal is kept exactly when what is left meets the condition. -/
theorem kvSeqRm_noHole_iff :
    NoHole ctx.nSwa s (kvSeqRm ctx s p0 p1) ↔ TruncationOk ctx s p0 p1 := by
  obtain ⟨ctx', hok, hn, hself, hswa, heq⟩ := kvSeqRm_eq h hs p0 p1
  have hself' : HoldsPos ctx'.kvSelf s = Leftover ctx.kvSelf s p0 p1 :=
    funext fun q => propext (hself q)
  have hswa' : HoldsPos ctx'.kvSwa s = Leftover ctx.kvSwa s p0 p1 :=
    funext fun q => propext (hswa q)
  have hsub : ∀ q, Leftover ctx.kvSwa s p0 p1 q → Leftover ctx.kvSelf s p0 p1 q := by
    intro q hq
    rw [← hswa'] at hq
    rw [← hself']
    exact hok.mirror.mirrors.holdsPos hq
  have hcoverage := llamaKvSwaCoverageOk_iff hok.mirror.free.1 ctx'.nSwa s
  rw [hswa', hn] at hcoverage
  rw [heq]
  by_cases hcovered : llamaKvSwaCoverageOk ctx'.kvSwa ctx'.nSwa s = true
  · -- the check passes
    rw [if_pos hcovered]
    rw [hn] at hcovered
    have hcase := hcoverage.mp hcovered
    constructor
    · rintro (⟨-, hall⟩ | ⟨hret, -⟩)
      · refine ⟨fun hne hnot => ?_, fun _ P hP => ?_⟩
        · rcases hcase with hnone | hfull
          · exact absurd hne.choose_spec (hnone _)
          · exact absurd hfull hnot
        · rw [hself', hswa'] at hall
          have hwindow := h.window
          exact hall P hP P hP.1 (by omega) (Int.le_refl P)
      · cases hret
    · intro hcond
      refine Or.inl ⟨rfl, ?_⟩
      rw [hself', hswa']
      intro P hP q hq hlt hle
      have hPswa := hcond.last hcase P hP
      rcases hcase with hnone | ⟨P', hP', hfull⟩
      · exact absurd hPswa (hnone P)
      · -- the two last positions are the same
        obtain rfl : P' = P := Int.le_antisymm (hP.2 P' (hsub P' hP'.1)) (hP'.2 P hPswa)
        have hq0 : 0 ≤ q := by
          rw [← hself'] at hq
          exact hok.mirror.free.2.nonneg hq
        exact hfull q hq0 hlt hle
  · -- the check fails, and the sequence is removed
    rw [if_neg hcovered]
    rw [hn] at hcovered
    have hcase := mt hcoverage.mpr hcovered
    rw [not_or] at hcase
    obtain ⟨hne, hnot⟩ := hcase
    rw [not_forall_not] at hne
    have hall : ∀ (c : KvCache) (L : Int → Prop), c.recurrent = false → FreeEmpty c →
        HoldsPos c s = L → ∀ q, HoldsPos (llamaKvCacheSeqRm c s (-1) (-1)).2 s q ↔
          L q ∧ posMax ≤ q := by
      intro c L hrec hfree hL q
      rw [holdsPos_seqRm hrec hs, Leftover, hL]
      refine and_congr_right fun hq => ?_
      rw [← hL] at hq
      have hq0 := hfree.nonneg hq
      rw [rangeFrom, rangeTo, if_pos (by decide), if_pos (by decide)]
      omega
    have hselfAll := hall _ _ hok.mirror.recurrent.2 hok.mirror.free.2 hself'
    have hswaAll := hall _ _ hok.mirror.recurrent.1 hok.mirror.free.1 hswa'
    constructor
    · rintro (⟨hret, -⟩ | ⟨-, hgone⟩)
      · cases hret
      · refine ⟨fun _ _ q hq => ?_, fun hor => ?_⟩
        · by_contra hge
          exact (hgone q).1 ((hselfAll q).mpr ⟨hq, by omega⟩)
        · rcases hor with hnone | hfull
          · exact absurd hne.choose_spec (hnone _)
          · exact absurd hfull hnot
    · intro hcond
      have hlt := hcond.hole hne hnot
      refine Or.inr ⟨rfl, fun q => ⟨fun hq => ?_, fun hq => ?_⟩⟩
      · obtain ⟨hleft, hge⟩ := (hselfAll q).mp hq
        have := hlt q hleft
        omega
      · obtain ⟨hleft, hge⟩ := (hswaAll q).mp hq
        have := hlt q (hsub q hleft)
        omega

end

/-- In every state of a run a truncation keeps its promise exactly when what it leaves meets the
condition. -/
theorem truncation_covers_window_iff {ctx ctx' : KvContext} {ops : List KvOp} (h : SwaArmed ctx)
    (hops : ∀ op ∈ ops, op.Plain) (hrun : kvRun ctx ops = some ctx') {s : Int} (hs : 0 ≤ s)
    (p0 p1 : Int) :
    NoHole ctx'.nSwa s (kvSeqRm ctx' s p0 p1) ↔ TruncationOk ctx' s p0 p1 :=
  kvSeqRm_noHole_iff (kvRun_armedOk h.armedOk hops hrun) hs p0 p1

/-- Two caches of four cells, and a window of two positions. -/
def armedContext : KvContext where
  kvSelf := llamaKvCacheInit false false 0 4
  kvSwa := llamaKvCacheInit false false 0 4
  swaKvActive := true
  nSwa := 2
  swaKvGuard := 0
  flashAttn := false
  rope := true
  canShift := true
  maxMoves := 100

theorem armedContext_armed : SwaArmed armedContext :=
  ⟨rfl, by decide, ⟨4, rfl⟩, ⟨4, rfl⟩⟩

/-- Four tokens in two ubatches: the second one evicts position 0 from the sliding cache. -/
def armedRun : List KvOp :=
  [.decode [⟨0, [0]⟩, ⟨1, [0]⟩], .decode [⟨2, [0]⟩, ⟨3, [0]⟩]]

theorem armedRun_plain : ∀ op ∈ armedRun, op.Plain := by
  simp [armedRun, KvOp.Plain]

/-- A truncation to position 3 is covered by what the sliding cache holds. -/
theorem truncation_covers_window_three :
    ∃ ctx', kvRun armedContext armedRun = some ctx' ∧
      (NoHole ctx'.nSwa 0 (kvSeqRm ctx' 0 3 (-1)) ↔ TruncationOk ctx' 0 3 (-1)) := by
  have hsome : (kvRun armedContext armedRun).isSome := by decide +kernel
  obtain ⟨ctx', hrun⟩ := Option.isSome_iff_exists.mp hsome
  exact ⟨ctx', hrun, truncation_covers_window_iff armedContext_armed armedRun_plain hrun
    (Int.le_refl 0) 3 (-1)⟩

/-- A truncation to position 1 passes the check, as the sliding cache holds nothing of the
sequence any more, and leaves position 0 without its key in the sliding cache. -/
theorem truncation_leaves_hole :
    ¬ ∀ (ctx ctx' : KvContext) (ops : List KvOp) (s p0 p1 : Int), SwaArmed ctx →
      (∀ op ∈ ops, op.Plain) → kvRun ctx ops = some ctx' → 0 ≤ s →
      NoHole ctx'.nSwa s (kvSeqRm ctx' s p0 p1) := by
  intro h
  have hfinal : (kvRun armedContext armedRun).map (fun ctx =>
      decide (ctx.nSwa = 2 ∧ (kvSeqRm ctx 0 1 (-1)).1 = true ∧
        (∀ i < (kvSeqRm ctx 0 1 (-1)).2.kvSelf.size,
          ((kvSeqRm ctx 0 1 (-1)).2.kvSelf.cells i).pos ≤ 0) ∧
        (0 < (kvSeqRm ctx 0 1 (-1)).2.kvSelf.size ∧
          0 ∈ ((kvSeqRm ctx 0 1 (-1)).2.kvSelf.cells 0).seqId ∧
          ((kvSeqRm ctx 0 1 (-1)).2.kvSelf.cells 0).pos = 0) ∧
        ∀ i < (kvSeqRm ctx 0 1 (-1)).2.kvSwa.size,
          0 ∉ ((kvSeqRm ctx 0 1 (-1)).2.kvSwa.cells i).seqId)) = some true := by
    decide +kernel
  obtain ⟨ctx', hrun, hfacts⟩ := Option.map_eq_some_iff.mp hfinal
  obtain ⟨hn, hret, hlast, hfirst, hnone⟩ := of_decide_eq_true hfacts
  have hzero : HoldsPos (kvSeqRm ctx' 0 1 (-1)).2.kvSelf 0 0 := ⟨0, hfirst⟩
  rcases h armedContext ctx' armedRun 0 1 (-1) armedContext_armed armedRun_plain hrun
    (Int.le_refl 0) with ⟨-, hall⟩ | ⟨hno, -⟩
  · have hP : LastPos (HoldsPos (kvSeqRm ctx' 0 1 (-1)).2.kvSelf 0) 0 := by
      refine ⟨hzero, ?_⟩
      rintro q ⟨i, hi, -, rfl⟩
      exact hlast i hi
    obtain ⟨i, hi, hmem, -⟩ := hall 0 hP 0 hzero (by omega) (Int.le_refl 0)
    exact hnone i hi hmem
  · rw [hret] at hno
    cases hno

end PxqLlama.Kv
