import PxqLlama.Kv.Context

/-!
# `Proofs.Kv.CellMax`: which live cells the attention window covers

`kv_self.n` comes from a scan that looks at the last cell of each band of `pad` cells, from
the top, and searches one band up from the first live one it meets (`cellMaxPadLoop_spec`).
The last live cell is in the window exactly when it lies in the first band, or the last cell
of its band is live, or the last cell of the band below is (`Sampled`). Otherwise the scan
steps over its whole band.

`self_window_covers_iff` says so for each decode of every run. A run keeps the size of the
cache a multiple of the padding (`kvRun_shape`), which is all that the argument needs of it.
-/

namespace PxqLlama.Kv

open Ggml (ggmlPad)

/-! ### Padding -/

theorem kvCacheGetPadding_pos (flashAttn : Bool) : 0 < kvCacheGetPadding flashAttn := by
  cases flashAttn <;> decide

theorem ggmlPad_kvPadding (flashAttn : Bool) (x : Nat) :
    ggmlPad x (kvCacheGetPadding flashAttn)
      = (x + (kvCacheGetPadding flashAttn - 1)) / kvCacheGetPadding flashAttn
        * kvCacheGetPadding flashAttn := by
  cases flashAttn
  · exact Ggml.ggmlPad_two_pow x 5
  · exact Ggml.ggmlPad_two_pow x 8

/-- A multiple of the padding that bounds `x` bounds the padded `x`. -/
theorem ggmlPad_le_mul {flashAttn : Bool} {x k : Nat}
    (h : x ≤ k * kvCacheGetPadding flashAttn) :
    ggmlPad x (kvCacheGetPadding flashAttn) ≤ k * kvCacheGetPadding flashAttn := by
  have hpad := kvCacheGetPadding_pos flashAttn
  rw [ggmlPad_kvPadding]
  apply Nat.mul_le_mul_right
  rw [Nat.div_le_iff_le_mul_add_pred hpad, Nat.mul_comm]
  omega

/-! ### The scan -/

variable (cells : Nat → KvCell)

/-- The inner loop returns the bound of the live cells up to `j`, or `i`. -/
theorem lastLiveLoop_spec {i j : Nat} (hij : i ≤ j) :
    i ≤ lastLiveLoop cells i j ∧ lastLiveLoop cells i j ≤ j ∧
      ∀ k, lastLiveLoop cells i j ≤ k → k < j → (cells k).live = false := by
  induction j with
  | zero =>
    rw [lastLiveLoop]
    exact ⟨Nat.le_refl i, hij, fun k _ hk => by omega⟩
  | succ j ih =>
    rw [lastLiveLoop]
    split
    · exact ⟨Nat.le_refl i, hij, fun k hk hk' => by omega⟩
    · rename_i hlt
      split
      · exact ⟨by omega, Nat.le_refl _, fun k hk hk' => by omega⟩
      · -- cell `j` is not live, so the bound for `j` serves for `j + 1`
        rename_i hlive
        obtain ⟨hlo, hhi, hnone⟩ := ih (by omega)
        refine ⟨hlo, by omega, fun k hk hk' => ?_⟩
        rcases Nat.lt_succ_iff_lt_or_eq.mp hk' with hkj | rfl
        · exact hnone k hk hkj
        · simpa using hlive

/-- What the scan from `m * pad` returns: zero when no sampled cell is live, and else the
bound of the live cells of the band above the topmost live sample `k`. -/
theorem cellMaxPadLoop_spec {pad : Nat} (hpad : 0 < pad) {fuel m : Nat} (last : Nat)
    (hfuel : m * pad < fuel) :
    (cellMaxPadLoop cells pad fuel (m * pad) last = 0 ∧
      ∀ k, 0 < k → k ≤ m → (cells (k * pad - 1)).live = false) ∨
    ∃ k, 0 < k ∧ k ≤ m ∧ (cells (k * pad - 1)).live = true ∧
      (∀ k', k < k' → k' ≤ m → (cells (k' * pad - 1)).live = false) ∧
      cellMaxPadLoop cells pad fuel (m * pad) last
        = lastLiveLoop cells (k * pad) (if k = m then last else (k + 1) * pad) := by
  induction fuel generalizing m last with
  | zero => omega
  | succ fuel ih =>
    rw [cellMaxPadLoop]
    by_cases hzero : m * pad = 0
    · -- the counter has reached zero
      left
      rw [if_pos hzero]
      refine ⟨rfl, fun k hk hkm => ?_⟩
      have : m = 0 := by
        rcases Nat.mul_eq_zero.mp hzero with h | h <;> omega
      omega
    · have hm : m ≠ 0 := by
        rintro rfl
        simp at hzero
      rw [if_neg hzero]
      by_cases hlive : (cells (m * pad - 1)).live = true
      · -- the sample of the top band is live
        right
        rw [if_pos hlive]
        exact ⟨m, by omega, Nat.le_refl m, hlive, fun k' h h' => by omega, by rw [if_pos rfl]⟩
      · -- The scan goes on one band below, with the old sample as its upper end.
        obtain ⟨m', rfl⟩ : ∃ m', m = m' + 1 := ⟨m - 1, by omega⟩
        have hstep : (m' + 1) * pad - pad = m' * pad := by
          rw [Nat.succ_mul]
          omega
        rw [if_neg hlive, hstep]
        rw [Nat.succ_mul] at hfuel
        rcases ih ((m' + 1) * pad) (show m' * pad < fuel by omega) with
          ⟨hres, hnone⟩ | ⟨k, hk, hkm, hk1, hnone, hres⟩
        · left
          refine ⟨hres, fun k hk hkm => ?_⟩
          rcases Nat.le_succ_iff.mp hkm with h | rfl
          · exact hnone k hk h
          · simpa using hlive
        · right
          refine ⟨k, hk, by omega, hk1, fun k' h h' => ?_, ?_⟩
          · rcases Nat.le_succ_iff.mp h' with h'' | rfl
            · exact hnone k' h h''
            · simpa using hlive
          · rw [hres, if_neg (show k ≠ m' + 1 by omega)]
            by_cases hkm' : k = m'
            · rw [if_pos hkm', hkm']
            · rw [if_neg hkm']

/-! ### One state -/

/-- The window covers every live cell. -/
def Covers (c : KvCache) : Prop :=
  ∀ i < c.size, (c.cells i).live = true → i < c.n

/-- The window of the sliding cache comes from the exact scan, and covers. -/
theorem covers_setSwaN (c : KvCache) (pad : Nat) : Covers (setSwaN c pad) := by
  intro i hi hlive
  have hmax : i < llamaKvCacheCellMax c := lt_cellMaxLoop c.cells hi hlive
  have hpad := Ggml.le_ggmlPad (llamaKvCacheCellMax c) pad
  show i < min c.size (max pad (ggmlPad (llamaKvCacheCellMax c) pad))
  replace hi : i < c.size := hi
  omega

/-- The last live cell `i` lies in the first band, or the last cell of its band is live, or
the last cell of the band below. -/
def Sampled (pad : Nat) (c : KvCache) : Prop :=
  ∀ i < c.size, (c.cells i).live = true → (∀ j, i < j → j < c.size → (c.cells j).live = false) →
    i < pad ∨ (c.cells (i / pad * pad + pad - 1)).live = true ∨
      (c.cells (i / pad * pad - 1)).live = true

/-- A live cell, when there is one, has a last live cell above it. -/
theorem exists_last_live {cells : Nat → KvCell} {size i : Nat} (hi : i < size)
    (hlive : (cells i).live = true) :
    ∃ l, i ≤ l ∧ l < size ∧ (cells l).live = true ∧
      ∀ j, l < j → j < size → (cells j).live = false := by
  induction size with
  | zero => omega
  | succ size ih =>
    by_cases htop : (cells size).live = true
    · exact ⟨size, by omega, by omega, htop, fun j hj hj' => by omega⟩
    · have hi' : i < size := by
        rcases Nat.lt_succ_iff_lt_or_eq.mp hi with h | rfl
        · exact h
        · exact absurd hlive htop
      obtain ⟨l, hil, hl, hlivel, hnone⟩ := ih hi'
      refine ⟨l, hil, by omega, hlivel, fun j hj hj' => ?_⟩
      rcases Nat.lt_succ_iff_lt_or_eq.mp hj' with h | rfl
      · exact hnone j hj h
      · simpa using htop

/-- Where the window ends, for a last live cell `l = q * pad + t`. -/
theorem window_end {flashAttn : Bool} {c : KvCache} {l : Nat}
    (hsize : kvCacheGetPadding flashAttn ∣ c.size) (hl : l < c.size)
    (hlive : (c.cells l).live = true)
    (hlast : ∀ j, l < j → j < c.size → (c.cells j).live = false) :
    let pad := kvCacheGetPadding flashAttn
    l < windowWidth c.size pad (llamaKvCacheCellMaxPad c pad) ↔
      l < pad ∨ (c.cells (l / pad * pad + pad - 1)).live = true ∨
        (c.cells (l / pad * pad - 1)).live = true := by
  intro pad
  have hpad : 0 < pad := kvCacheGetPadding_pos flashAttn
  obtain ⟨m, hm⟩ := hsize
  rw [Nat.mul_comm] at hm
  change c.size = m * pad at hm
  have hql := Nat.div_mul_le_self l pad
  have hlq : l < (l / pad + 1) * pad := by
    rw [Nat.add_mul, Nat.one_mul]
    exact Nat.lt_div_mul_add (a := l) hpad
  -- `q` is the band of `l`.
  generalize l / pad = q at hql hlq ⊢
  have hqm : q < m := Nat.lt_of_mul_lt_mul_right (a := pad) (by omega)
  have hband : (q + 1) * pad ≤ c.size := by
    rw [hm]
    exact Nat.mul_le_mul_right pad hqm
  have hsucc : (q + 1) * pad = q * pad + pad := Nat.succ_mul q pad
  -- A sampled cell above the last live one is not live.
  have htop : ∀ k, 0 < k → k ≤ m → (c.cells (k * pad - 1)).live = true → k ≤ q + 1 := by
    intro k hk hkm hk1
    by_contra hlt
    have hkq : (q + 2) * pad ≤ k * pad := Nat.mul_le_mul_right pad (by omega)
    have hkm' : k * pad ≤ m * pad := Nat.mul_le_mul_right pad hkm
    have h2 : (q + 2) * pad = q * pad + pad + pad := by
      rw [Nat.add_mul]
      omega
    rw [hlast (k * pad - 1) (by omega) (by omega)] at hk1
    cases hk1
  have hfuel : m * pad < c.size + 1 := by omega
  have hmax : llamaKvCacheCellMaxPad c pad
      = cellMaxPadLoop c.cells pad (c.size + 1) (m * pad) (m * pad) := by
    rw [llamaKvCacheCellMaxPad, ← hm]
  rw [windowWidth, hmax]
  rcases cellMaxPadLoop_spec c.cells hpad (m * pad) hfuel with
    ⟨hres, hnone⟩ | ⟨k, hk, hkm, hk1, hnone, hres⟩
  · -- No sampled cell is live: the window is one band.
    have hpadzero : ggmlPad 0 pad = 0 := by
      have h : ggmlPad 0 pad ≤ 0 * pad := ggmlPad_le_mul (Nat.zero_le _)
      omega
    have hsame := hnone (q + 1) (by omega) (by omega)
    rw [hsucc] at hsame
    rw [hres, hpadzero, hsame]
    constructor
    · intro h
      left
      omega
    · rintro (h | h | h)
      · omega
      · cases h
      · by_cases hq0 : q = 0
        · rw [hq0] at hlq
          omega
        · rw [hnone q (by omega) (by omega)] at h
          cases h
  · have hle := htop k hk hkm hk1
    rcases Nat.lt_or_ge k q with hkq | hkq
    · -- The scan stopped two bands below: the window ends under the band of `l`.
      have hband' : lastLiveLoop c.cells (k * pad) (if k = m then m * pad else (k + 1) * pad)
          ≤ q * pad := by
        rw [if_neg (by omega)]
        have h1 : k * pad ≤ (k + 1) * pad := Nat.mul_le_mul_right pad (by omega)
        have h2 : (k + 1) * pad ≤ q * pad := Nat.mul_le_mul_right pad (by omega)
        exact Nat.le_trans (lastLiveLoop_spec c.cells h1).2.1 h2
      have hpadq : pad ≤ q * pad := Nat.le_mul_of_pos_left pad (by omega)
      have hn : ggmlPad (lastLiveLoop c.cells (k * pad)
          (if k = m then m * pad else (k + 1) * pad)) pad ≤ q * pad := ggmlPad_le_mul hband'
      have hsame := hnone (q + 1) (by omega) (by omega)
      have hbelow := hnone q (by omega) (by omega)
      rw [hsucc] at hsame
      rw [hres, hsame, hbelow]
      constructor
      · intro h
        omega
      · rintro (h | h | h)
        · omega
        · cases h
        · cases h
    · -- The topmost live sample is the last cell of the band of `l`, or of the one below.
      have hbound :
        l < lastLiveLoop c.cells (k * pad) (if k = m then m * pad else (k + 1) * pad) := by
        have hlastle : k * pad ≤ if k = m then m * pad else (k + 1) * pad := by
          split
          · exact Nat.mul_le_mul_right pad hkm
          · exact Nat.mul_le_mul_right pad (by omega)
        obtain ⟨hlo, hhi, hdead⟩ := lastLiveLoop_spec c.cells hlastle
        by_contra hge
        rcases Nat.eq_or_lt_of_le hkq with rfl | hgt
        · rw [if_neg (by omega)] at hge hdead hlo
          rw [hdead l (by omega) hlq] at hlive
          cases hlive
        · obtain rfl : k = q + 1 := by omega
          omega
      have hn := Ggml.le_ggmlPad
        (lastLiveLoop c.cells (k * pad) (if k = m then m * pad else (k + 1) * pad)) pad
      rw [hres]
      constructor
      · intro _
        right
        rcases Nat.eq_or_lt_of_le hkq with rfl | hgt
        · exact Or.inr hk1
        · obtain rfl : k = q + 1 := by omega
          rw [hsucc] at hk1
          exact Or.inl hk1
      · intro _
        omega

/-- One state: the window covers the live cells exactly when the last one is sampled. -/
theorem covers_setSelfN_iff (flashAttn : Bool) {c : KvCache} (hrec : c.recurrent = false)
    (hsize : kvCacheGetPadding flashAttn ∣ c.size) :
    Covers (setSelfN c (kvCacheGetPadding flashAttn)) ↔
      Sampled (kvCacheGetPadding flashAttn) c := by
  have hn : (setSelfN c (kvCacheGetPadding flashAttn)).n
      = windowWidth c.size (kvCacheGetPadding flashAttn)
        (llamaKvCacheCellMaxPad c (kvCacheGetPadding flashAttn)) := by
    rw [setSelfN, if_neg (by rw [hrec]; decide)]
  have hcells : (setSelfN c (kvCacheGetPadding flashAttn)).cells = c.cells ∧
      (setSelfN c (kvCacheGetPadding flashAttn)).size = c.size := by
    rw [setSelfN]
    split <;> exact ⟨rfl, rfl⟩
  rw [Covers, hn, hcells.1, hcells.2]
  constructor
  · intro h i hi hlive hlast
    exact (window_end hsize hi hlive hlast).mp (h i hi hlive)
  · intro h i hi hlive
    -- It is enough that the last live cell is covered.
    obtain ⟨l, hil, hl, hlivel, hlast⟩ := exists_last_live hi hlive
    have := (window_end hsize hl hlivel hlast).mpr (h l hl hlivel hlast)
    omega

/-! ### Runs -/

/-- The parts of `kv_self` that no call changes. -/
structure SameShape (ctx ctx' : KvContext) : Prop where
  size : ctx'.kvSelf.size = ctx.kvSelf.size
  recurrent : ctx'.kvSelf.recurrent = ctx.kvSelf.recurrent
  flashAttn : ctx'.flashAttn = ctx.flashAttn

theorem SameShape.refl (ctx : KvContext) : SameShape ctx ctx := ⟨rfl, rfl, rfl⟩

theorem SameShape.trans {ctx ctx' ctx'' : KvContext} (h : SameShape ctx ctx')
    (h' : SameShape ctx' ctx'') : SameShape ctx ctx'' :=
  ⟨h'.size.trans h.size, h'.recurrent.trans h.recurrent, h'.flashAttn.trans h.flashAttn⟩

theorem seqRm_shape (c : KvCache) (s p0 p1 : Int) :
    (llamaKvCacheSeqRm c s p0 p1).2.size = c.size ∧
      (llamaKvCacheSeqRm c s p0 p1).2.recurrent = c.recurrent := by
  rw [llamaKvCacheSeqRm]
  split <;> exact ⟨rfl, rfl⟩

theorem seqAdd_shape (c : KvCache) (s p0 p1 delta : Int) :
    (llamaKvCacheSeqAdd c s p0 p1 delta).size = c.size ∧
      (llamaKvCacheSeqAdd c s p0 p1 delta).recurrent = c.recurrent := by
  simp only [llamaKvCacheSeqAdd, seqShiftRecurrent]
  split
  · exact ⟨rfl, rfl⟩
  · split
    · split <;> exact ⟨rfl, rfl⟩
    · exact ⟨rfl, rfl⟩

theorem seqDiv_shape (c : KvCache) (s p0 p1 d : Int) :
    (llamaKvCacheSeqDiv c s p0 p1 d).size = c.size ∧
      (llamaKvCacheSeqDiv c s p0 p1 d).recurrent = c.recurrent := by
  simp only [llamaKvCacheSeqDiv, seqShiftRecurrent]
  split
  · exact ⟨rfl, rfl⟩
  · split
    · split <;> exact ⟨rfl, rfl⟩
    · exact ⟨rfl, rfl⟩

/-- Copying a sequence changes neither the size nor the kind of the cache. -/
theorem seqCp_shape {c c' : KvCache} {src dst p0 p1 : Int}
    (h : llamaKvCacheSeqCp c src dst p0 p1 = some c') :
    c'.size = c.size ∧ c'.recurrent = c.recurrent := by
  rw [llamaKvCacheSeqCp] at h
  split at h
  · split at h
    · simp only at h
      split at h
      · cases h
        exact ⟨rfl, rfl⟩
      · cases h
    · cases h
      exact ⟨rfl, rfl⟩
  · cases hq : seqCpQnext c src dst with
    | none =>
      rw [hq] at h
      cases h
    | some r =>
      obtain ⟨src', c''⟩ := r
      rw [hq] at h
      cases h
      rw [seqCpQnext] at hq
      split at hq
      · simp only at hq
        split at hq
        · cases hq
          exact ⟨rfl, rfl⟩
        · cases hq
      · cases hq
        exact ⟨rfl, rfl⟩

theorem findSlot_shape (c : KvCache) (b : UBatch) :
    (llamaKvCacheFindSlot c b).2.size = c.size ∧
      (llamaKvCacheFindSlot c b).2.recurrent = c.recurrent := by
  rw [llamaKvCacheFindSlot]
  split
  · rw [findSlotRecurrent]
    split <;> exact ⟨rfl, rfl⟩
  · split
    · exact ⟨rfl, rfl⟩
    · simp only
      split <;> exact ⟨rfl, rfl⟩

theorem coverageCheck_shape (ctx : KvContext) (s : Int) :
    SameShape ctx (coverageCheck ctx s).2 := by
  rw [coverageCheck]
  split
  · exact SameShape.refl ctx
  · obtain ⟨hsize, hrec⟩ := seqRm_shape ctx.kvSelf s (-1) (-1)
    exact ⟨hsize, hrec, rfl⟩

/-- A removal keeps the shape of both caches. -/
theorem kvSeqRm_shape (ctx : KvContext) (s p0 p1 : Int) :
    SameShape ctx (kvSeqRm ctx s p0 p1).2 := by
  obtain ⟨hsize, hrec⟩ := seqRm_shape ctx.kvSelf s p0 p1
  have hself : ∀ kvSwa, SameShape ctx
      { ctx with kvSelf := (llamaKvCacheSeqRm ctx.kvSelf s p0 p1).2, kvSwa := kvSwa } :=
    fun _ => ⟨hsize, hrec, rfl⟩
  simp only [kvSeqRm]
  split
  · split
    · exact (hself _).trans (coverageCheck_shape _ s)
    · -- The checks of all sequences, one after the other.
      have hfold : ∀ (seqs : List Int) (acc : Bool × KvContext),
          SameShape acc.2 (seqs.foldl (fun (acc : Bool × KvContext) s =>
            ((acc.1 && (coverageCheck acc.2 s).1), (coverageCheck acc.2 s).2)) acc).2 := by
        intro seqs
        induction seqs with
        | nil => exact fun acc => SameShape.refl acc.2
        | cons s seqs ih =>
          exact fun acc => (coverageCheck_shape acc.2 s).trans
            (ih (acc.1 && (coverageCheck acc.2 s).1, (coverageCheck acc.2 s).2))
      exact (hself (llamaKvCacheSeqRm ctx.kvSwa s p0 p1).2).trans (hfold _ (true, _))
  · exact hself _

/-- A copy keeps the shape of both caches. -/
theorem kvSeqCp_shape {ctx ctx' : KvContext} {src dst p0 p1 : Int}
    (h : kvSeqCp ctx src dst p0 p1 = some ctx') : SameShape ctx ctx' := by
  rw [kvSeqCp] at h
  split at h
  · cases h
    exact SameShape.refl _
  · cases hself : llamaKvCacheSeqCp ctx.kvSelf src dst p0 p1 with
    | none =>
      rw [hself] at h
      cases h
    | some c =>
      obtain ⟨hsize, hrec⟩ := seqCp_shape hself
      simp only [hself] at h
      split at h
      · split at h
        · cases h
        · cases h
          exact ⟨hsize, hrec, rfl⟩
      · cases h
        exact ⟨hsize, hrec, rfl⟩

theorem update_shape {ctx ctx' : KvContext} {ret : Nat}
    (h : llamaKvCacheUpdate ctx = some (ret, ctx')) : SameShape ctx ctx' := by
  rcases llamaKvCacheUpdate_cases h with ⟨-, rfl⟩ | ⟨-, kvSelf, kvSwa, rfl, hsize, hrec, -⟩
  · exact SameShape.refl ctx'
  · exact ⟨hsize, hrec, rfl⟩

theorem rewindHead_shape (c : KvCache) (n : Nat) :
    (rewindHead c n).size = c.size ∧ (rewindHead c n).recurrent = c.recurrent := by
  rw [rewindHead]
  split <;> exact ⟨rfl, rfl⟩

theorem setSelfN_shape (c : KvCache) (pad : Nat) :
    (setSelfN c pad).size = c.size ∧ (setSelfN c pad).recurrent = c.recurrent := by
  rw [setSelfN]
  split <;> exact ⟨rfl, rfl⟩

/-- A placement either fails, or finds a slot in `kv_self` and sets `kv_self.n`. -/
theorem placeUbatch_kvSelf (ctx : KvContext) (b : UBatch) :
    ((placeUbatch ctx b).1 ≠ 0 ∧ SameShape ctx (placeUbatch ctx b).2) ∨
      ((placeUbatch ctx b).1 = 0 ∧
        (llamaKvCacheFindSlot (rewindHead ctx.kvSelf b.length) b).1 = true ∧
        (placeUbatch ctx b).2.kvSelf
          = setSelfN (llamaKvCacheFindSlot (rewindHead ctx.kvSelf b.length) b).2 ctx.pad ∧
        (placeUbatch ctx b).2.flashAttn = ctx.flashAttn) := by
  obtain ⟨hsize, hrec⟩ := rewindHead_shape ctx.kvSelf b.length
  obtain ⟨hsize', hrec'⟩ := findSlot_shape (rewindHead ctx.kvSelf b.length) b
  simp only [placeUbatch]
  split
  · exact Or.inl ⟨Nat.one_ne_zero, hsize, hrec, rfl⟩
  · split
    · exact Or.inl ⟨Nat.one_ne_zero, hsize'.trans hsize, hrec'.trans hrec, rfl⟩
    · rename_i hself
      exact Or.inr ⟨rfl, by simpa using hself, rfl, rfl⟩

theorem placeUbatch_shape (ctx : KvContext) (b : UBatch) :
    SameShape ctx (placeUbatch ctx b).2 := by
  rcases placeUbatch_kvSelf ctx b with ⟨-, h⟩ | ⟨-, -, hself, hflash⟩
  · exact h
  · obtain ⟨hsize, hrec⟩ := rewindHead_shape ctx.kvSelf b.length
    obtain ⟨hsize', hrec'⟩ := findSlot_shape (rewindHead ctx.kvSelf b.length) b
    obtain ⟨hsize'', hrec''⟩ :=
      setSelfN_shape (llamaKvCacheFindSlot (rewindHead ctx.kvSelf b.length) b).2 ctx.pad
    refine ⟨?_, ?_, hflash⟩
    · rw [hself, hsize'', hsize', hsize]
    · rw [hself, hrec'', hrec', hrec]

theorem decodeInputs_shape {ctx ctx' : KvContext} {b : UBatch} {ret : Nat}
    (h : decodeInputs ctx b = some (ret, ctx')) : SameShape ctx ctx' := by
  rcases decodeInputs_cases h with ⟨-, hupdate⟩ | ⟨ctx₁, hupdate, hplace⟩
  · exact update_shape hupdate
  · have h₂ := placeUbatch_shape ctx₁ b
    rw [hplace] at h₂
    exact (update_shape hupdate).trans h₂

/-- Every call of the API keeps the shape of both caches. -/
theorem kvStep_shape {ctx ctx' : KvContext} {op : KvOp} (h : kvStep ctx op = some ctx') :
    SameShape ctx ctx' := by
  cases op with
  | decode b =>
    simp only [kvStep, Option.map_eq_some_iff] at h
    obtain ⟨⟨ret, ctx₂⟩, hdecode, rfl⟩ := h
    obtain ⟨ctx₁, head, hinputs, rfl⟩ := decodeUbatch_cases hdecode
    exact (decodeInputs_shape hinputs).trans ⟨rfl, rfl, rfl⟩
  | seqRm s p0 p1 =>
    cases h
    exact kvSeqRm_shape ctx s p0 p1
  | seqCp src dst p0 p1 => exact kvSeqCp_shape h
  | seqKeep s =>
    cases h
    exact ⟨rfl, rfl, rfl⟩
  | seqAdd s p0 p1 delta =>
    cases h
    rw [kvSeqAdd]
    split
    · exact SameShape.refl ctx
    · obtain ⟨hsize, hrec⟩ := seqAdd_shape ctx.kvSelf s p0 p1 delta
      exact ⟨hsize, hrec, rfl⟩
  | seqDiv s p0 p1 d =>
    cases h
    rw [kvSeqDiv]
    split
    · exact SameShape.refl ctx
    · obtain ⟨hsize, hrec⟩ := seqDiv_shape ctx.kvSelf s p0 p1 d
      exact ⟨hsize, hrec, rfl⟩
  | clear =>
    cases h
    exact ⟨rfl, rfl, rfl⟩
  | defrag =>
    cases h
    exact ⟨rfl, rfl, rfl⟩
  | update =>
    simp only [kvStep, Option.map_eq_some_iff] at h
    obtain ⟨⟨ret, ctx₁⟩, hupdate, heq⟩ := h
    cases heq
    exact update_shape hupdate

/-- No call of a run changes the shape. -/
theorem kvRun_shape {ctx ctx' : KvContext} {ops : List KvOp} (h : kvRun ctx ops = some ctx') :
    SameShape ctx ctx' := by
  -- Induction on the calls: each keeps the shape for the next.
  induction ops generalizing ctx with
  | nil =>
    cases h
    exact SameShape.refl _
  | cons op ops ih =>
    rw [kvRun] at h
    cases hstep : kvStep ctx op with
    | none =>
      rw [hstep] at h
      cases h
    | some ctx₁ =>
      rw [hstep] at h
      exact (kvStep_shape hstep).trans (ih h)

/-- **When the window covers every live cell.** In every run of calls from a context whose
attention cache is not recurrent and has a padded size, at every decode that finds a slot:
`kv_self.n` is above every live cell exactly when the last live cell lies in the first band
of `pad` cells, or the last cell of its band is live, or the last cell of the band below. -/
theorem self_window_covers_iff {ctx₀ ctx ctx' : KvContext} {ops : List KvOp} {b : UBatch}
    (hrec : ctx₀.kvSelf.recurrent = false) (hsize : ctx₀.pad ∣ ctx₀.kvSelf.size)
    (hrun : kvRun ctx₀ ops = some ctx) (hdecode : decodeInputs ctx b = some (0, ctx')) :
    Covers ctx'.kvSelf ↔ Sampled ctx'.pad ctx'.kvSelf := by
  have hctx := kvRun_shape hrun
  rcases decodeInputs_cases hdecode with ⟨hret, -⟩ | ⟨ctx₁, hupdate, hplace⟩
  · exact absurd rfl hret
  · -- `ctx₁` is the context after the update, in which the ubatch is placed.
    have h₁ := hctx.trans (update_shape hupdate)
    rcases placeUbatch_kvSelf ctx₁ b with ⟨hfail, -⟩ | ⟨-, -, hself, hflash⟩
    · rw [hplace] at hfail
      exact absurd rfl hfail
    · rw [hplace] at hself hflash
      obtain ⟨hsize', hrec'⟩ := findSlot_shape (rewindHead ctx₁.kvSelf b.length) b
      obtain ⟨hsize'', hrec''⟩ := rewindHead_shape ctx₁.kvSelf b.length
      have hpad : ctx'.pad = ctx₁.pad := by
        rw [KvContext.pad, KvContext.pad, hflash]
      have hpad₀ : ctx₁.pad = ctx₀.pad := by
        rw [KvContext.pad, KvContext.pad, h₁.flashAttn]
      have hdvd : ctx₁.pad ∣ ctx₀.kvSelf.size := by
        rw [hpad₀]
        exact hsize
      have hcovers := covers_setSelfN_iff ctx₁.flashAttn
        (c := (llamaKvCacheFindSlot (rewindHead ctx₁.kvSelf b.length) b).2)
        (by rw [hrec', hrec'', h₁.recurrent, hrec])
        (by
          rw [hsize', hsize'', h₁.size]
          exact hdvd)
      rw [hpad, hself]
      refine hcovers.trans ?_
      -- `Sampled` does not look at `n`.
      have hcells := setSelfN_shape (llamaKvCacheFindSlot (rewindHead ctx₁.kvSelf b.length) b).2
        ctx₁.pad
      rw [Sampled, Sampled, hcells.1]
      rw [setSelfN, if_neg (by rw [hrec', hrec'', h₁.recurrent, hrec]; decide)]
      rfl

/-- A context of 64 cells without flash attention: bands of 32 cells. -/
def smallContext : KvContext where
  kvSelf := llamaKvCacheInit false false 0 64
  kvSwa := llamaKvCacheInit false false 0 0
  swaKvActive := false
  nSwa := 0
  swaKvGuard := 0
  flashAttn := false
  rope := true
  canShift := true
  maxMoves := 16

/-- Tokens at the positions `p, …, p + n - 1` of sequence 0. -/
def tokensFrom (p n : Nat) : UBatch := (List.range n).map fun i : Nat => ⟨(p + i : Int), [0]⟩

/-- Forty tokens, the first 32 of them removed, then one more: it goes to cell 0, the window
is 32 cells wide, and the live cells 32 to 39 lie outside. -/
theorem self_window_misses_band :
    smallContext.kvSelf.recurrent = false ∧ smallContext.pad ∣ smallContext.kvSelf.size ∧
    ∃ ctx ctx', kvRun smallContext [.decode (tokensFrom 0 40), .seqRm 0 0 32] = some ctx ∧
      decodeInputs ctx (tokensFrom 40 1) = some (0, ctx') ∧ ctx'.kvSelf.n = 32 ∧
      (ctx'.kvSelf.cells 39).live = true ∧ ¬ Covers ctx'.kvSelf := by
  refine ⟨rfl, by decide, ?_⟩
  have hrun : ((kvRun smallContext [.decode (tokensFrom 0 40), .seqRm 0 0 32]).bind fun ctx =>
      (decodeInputs ctx (tokensFrom 40 1)).map fun r =>
        (r.1, r.2.kvSelf.n, r.2.kvSelf.size, (r.2.kvSelf.cells 39).live))
      = some (0, 32, 64, true) := by decide +kernel
  obtain ⟨ctx, hctx, hdecode⟩ := Option.bind_eq_some_iff.mp hrun
  obtain ⟨⟨ret, ctx'⟩, hinputs, hfields⟩ := Option.map_eq_some_iff.mp hdecode
  simp only [Prod.mk.injEq] at hfields
  obtain ⟨rfl, hn, hsize, hlive⟩ := hfields
  refine ⟨ctx, ctx', hctx, hinputs, hn, hlive, fun hcovers => ?_⟩
  have := hcovers 39 (by omega) hlive
  omega

/-- Forty tokens and one more, with nothing removed: cell 31 is live, so the window covers
the 41 live cells. -/
theorem self_window_covers_prompt :
    ∃ ctx ctx', kvRun smallContext [.decode (tokensFrom 0 40)] = some ctx ∧
      decodeInputs ctx (tokensFrom 40 1) = some (0, ctx') ∧ Covers ctx'.kvSelf := by
  have hrun : ((kvRun smallContext [.decode (tokensFrom 0 40)]).bind fun ctx =>
      (decodeInputs ctx (tokensFrom 40 1)).map fun r =>
        (r.1, r.2.kvSelf.size, r.2.pad, (r.2.kvSelf.cells 31).live))
      = some (0, 64, 32, true) := by decide +kernel
  obtain ⟨ctx, hctx, hdecode⟩ := Option.bind_eq_some_iff.mp hrun
  obtain ⟨⟨ret, ctx'⟩, hinputs, hfields⟩ := Option.map_eq_some_iff.mp hdecode
  simp only [Prod.mk.injEq] at hfields
  obtain ⟨rfl, hsize, hpad, hlive⟩ := hfields
  refine ⟨ctx, ctx', hctx, hinputs, ?_⟩
  refine (self_window_covers_iff rfl (show smallContext.pad ∣ smallContext.kvSelf.size by decide)
    hctx hinputs).mpr ?_
  intro i hi _ _
  rw [hpad]
  by_cases hband : i < 32
  · exact Or.inl hband
  · -- the last live cell is in the second band, and cell 31 below it is live
    right
    right
    have hbelow : i / 32 * 32 - 1 = 31 := by omega
    rw [hbelow]
    exact hlive

end PxqLlama.Kv
