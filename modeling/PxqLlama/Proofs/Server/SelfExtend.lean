import Mathlib.Algebra.Order.Ring.Int
import PxqLlama.Server.SelfExtend

/-!
# `Proofs.Server.SelfExtend`: positions until the first compression

`pos_next` goes on counting tokens when `extend_context` has compressed a block of positions, and
`n_past_se` does not. `GroupInv` holds over every run without a compression: the cells and the rows
that wait are those of the cache tokens.

`decodesOn_iff` is about one decode of such a run. The rows lie behind the cells and `n_past_se`
points behind them if and only if it counted the cells before and the window was not full.
-/

namespace PxqLlama.Server.GroupSlot

open PxqLlama.Kv

/-! ### The loop of `extend_context` -/

variable {fuel : Nat}

section
variable {s e : GroupSlot}

theorem block_mul_gaN (s : GroupSlot) : s.block * s.gaN = s.gaW :=
  Int.ediv_mul_cancel (Int.natCast_dvd_natCast.mpr s.gaN_dvd)

theorem block_pos (h : s.gaW ≠ 0) : 0 < s.block := by
  have hmul := s.block_mul_gaN
  have hn := s.one_lt_gaN
  by_contra hle
  have hnonpos : s.block * s.gaN ≤ 0 :=
    Int.mul_nonpos_of_nonpos_of_nonneg (Int.not_lt.mp hle) (Int.natCast_nonneg _)
  omega

/-- The positions that a compression saves. -/
theorem saved_eq (s : GroupSlot) : s.block * (s.gaN - 1) = s.gaW - s.block := by
  rw [Int.mul_sub, s.block_mul_gaN, Int.mul_one]

theorem block_lt_gaW (h : s.gaW ≠ 0) : s.block < s.gaW := by
  have hmul := s.block_mul_gaN
  have hpos := block_pos h
  have htwo : s.block * 2 ≤ s.block * s.gaN := by
    have hn := s.one_lt_gaN
    exact Int.mul_le_mul_of_nonneg_left (by omega) (Int.le_of_lt hpos)
  omega

theorem compress_nPastSe (s : GroupSlot) :
    s.compress.nPastSe = s.nPastSe - (s.gaW - s.block) := by
  show s.nPastSe - s.block * (s.gaN - 1) = _
  rw [saved_eq]

/-- Group attention only lowers `n_past_se`. -/
theorem extendLoop_le (h : extendLoop fuel s = some e) :
    e.nPastSe ≤ s.nPastSe ∧ e.pending = s.pending := by
  induction fuel generalizing s with
  | zero => cases h
  | succ fuel ih =>
    rw [extendLoop] at h
    split at h
    · split at h
      · cases h
      · rename_i hw
        obtain ⟨hle, hpending⟩ := ih h
        rw [compress_nPastSe] at hle
        have hblock := block_lt_gaW hw
        refine ⟨?_, hpending⟩
        omega
    · rw [← Option.some.inj h]
      exact ⟨Int.le_refl _, rfl⟩

/-- A full window makes `n_past_se` smaller. -/
theorem extendLoop_lt (hfull : s.windowFull) (h : extendLoop fuel s = some e) :
    e.nPastSe < s.nPastSe := by
  cases fuel with
  | zero => cases h
  | succ fuel =>
    rw [extendLoop, if_pos hfull] at h
    split at h
    · cases h
    · rename_i hw
      have hle := (extendLoop_le h).1
      rw [compress_nPastSe] at hle
      have hblock := block_lt_gaW hw
      omega

/-- The loop ends when the window has a width. -/
theorem extendLoop_isSome (hw : s.gaW ≠ 0) (hfuel : (s.nPastSe - s.gaI).toNat < fuel) :
    (extendLoop fuel s).isSome := by
  induction fuel generalizing s with
  | zero => omega
  | succ fuel ih =>
    rw [extendLoop]
    split
    · rename_i hfull
      apply ih (s := s.compress) hw
      have hdist : s.compress.nPastSe - s.compress.gaI = s.nPastSe - s.gaI - s.gaW := by
        rw [compress_nPastSe]
        show s.nPastSe - (s.gaW - s.block) - (s.gaI + s.block) = _
        omega
      rw [hdist]
      have hroom : s.gaI + s.gaW ≤ s.nPastSe := hfull
      omega
    · rfl

theorem extendContext_isSome (hw : s.gaW ≠ 0) (nTokens : Nat) :
    (s.extendContext nTokens).isSome := by
  rw [extendContext, Option.isSome_map]
  exact extendLoop_isSome hw (Nat.lt_succ_self _)

theorem extendContext_of_room (h : ¬ s.windowFull) (nTokens : Nat) :
    s.extendContext nTokens = some { s with nPastSe := s.nPastSe + nTokens } := by
  rw [extendContext, loopFuel, extendLoop, if_neg h]
  rfl

end

/-! ### Runs without a compression -/

/-- No block is compressed before this decode. -/
def Roomy (s : GroupSlot) : GroupAct → Prop
  | .decode _ | .failDecode _ => ¬ s.windowFull
  | .startPrompt | .promptBatch _ | .generate _ | .takeBack _ => True

instance (s : GroupSlot) : (a : GroupAct) → Decidable (Roomy s a)
  | .decode _ | .failDecode _ => inferInstanceAs (Decidable (¬ _))
  | .startPrompt | .promptBatch _ | .generate _ | .takeBack _ => inferInstanceAs (Decidable True)

/-- The cells and the rows that wait are those of the cache tokens. -/
structure GroupInv (s : GroupSlot) : Prop where
  system : s.systemTokens = []
  holds : HoldsTokens (s.cells ++ s.pending) s.cacheTokens
  fits : s.cells.length ≤ s.nCells
  gaI : s.gaI = 0

namespace GroupInv

variable {s s' : GroupSlot}

theorem length (h : GroupInv s) :
    s.cells.length + s.pending.length = s.cacheTokens.length := by
  rw [← List.length_append, h.holds.length]

/-- The cells are the tokens decoded so far, the pending ones the rest. -/
theorem split (h : GroupInv s) :
    s.cells = cellsFrom 0 (s.cacheTokens.take s.cells.length) ∧
      s.pending = cellsFrom s.cells.length (s.cacheTokens.drop s.cells.length) := by
  have hlength := h.length
  have hsplit : s.cells ++ s.pending = cellsFrom 0 (s.cacheTokens.take s.cells.length)
      ++ cellsFrom s.cells.length (s.cacheTokens.drop s.cells.length) := by
    have hall := cellsFrom_append 0 (s.cacheTokens.take s.cells.length)
      (s.cacheTokens.drop s.cells.length)
    rw [List.take_append_drop, List.length_take_of_le (by omega), Int.zero_add] at hall
    rw [← hall]
    exact h.holds
  refine List.append_inj hsplit ?_
  rw [length_cellsFrom, List.length_take_of_le (by omega)]

theorem holds_cells (h : GroupInv s) : HoldsTokens s.cells (s.cacheTokens.take s.cells.length) :=
  h.split.1

/-- The removal of what lies behind the first tokens. -/
theorem trim (h : GroupInv s) {n : Nat} (hn : n ≤ s.cells.length) :
    HoldsTokens (s.trim n n).cells (s.trim n n).cacheTokens ∧
      (s.trim n n).cells.length ≤ s.nCells := by
  have hlength := h.length
  have hfits := h.fits
  have hcells := s.nCells_le
  have hkept : HoldsTokens (tokenSeqRm s.cells n (-1))
      ((s.cacheTokens.take s.cells.length).take n) := by
    apply h.holds_cells.take
    rw [List.length_take_of_le (by omega)]
    omega
  rw [List.take_take, Nat.min_eq_left hn] at hkept
  refine ⟨hkept, ?_⟩
  show (tokenSeqRm s.cells n (-1)).length ≤ s.nCells
  rw [hkept.length, List.length_take_of_le (by omega)]
  omega

theorem addTokens (h : GroupInv s) (tokens : List Int) :
    GroupInv (s.addTokens 0 tokens) where
  system := h.system
  holds := by
    show HoldsTokens (s.cells ++ (s.pending ++ cellsFrom (0 + s.cacheTokens.length : Nat) tokens))
      (s.cacheTokens ++ tokens)
    rw [← List.append_assoc]
    apply h.holds.append
    rw [Nat.zero_add]
  fits := h.fits
  gaI := h.gaI

/-- Each action of the server on the slot keeps the invariant. -/
theorem step (h : GroupInv s) {a : GroupAct} (hok : Roomy s a) (hstep : s.step a = some s') :
    GroupInv s' := by
  cases a with
  | startPrompt =>
    rw [← Option.some.inj hstep]
    obtain ⟨hholds, hfits⟩ := h.trim (Nat.zero_le _)
    refine { system := h.system, holds := ?_, fits := ?_, gaI := rfl }
    · show HoldsTokens (tokenSeqRm s.cells s.systemTokens.length (-1) ++ []) (s.cacheTokens.take 0)
      rw [h.system, List.append_nil]
      exact hholds
    · show (tokenSeqRm s.cells s.systemTokens.length (-1)).length ≤ s.nCells
      rw [h.system]
      exact hfits
  | promptBatch tokens =>
    replace hstep : s.promptBatch tokens = some s' := hstep
    rw [promptBatch, h.system, List.length_nil, Nat.zero_add] at hstep
    split at hstep
    · rename_i hpending
      have hlength := h.length
      rw [hpending, List.length_nil, Nat.add_zero] at hlength
      obtain ⟨hholds, hfits⟩ := h.trim (n := s.posNext) (Nat.le_of_eq hlength.symm)
      have htrim : GroupInv (s.trim s.posNext s.posNext) := by
        refine { system := h.system, holds := ?_, fits := hfits, gaI := h.gaI }
        show HoldsTokens (_ ++ s.pending) _
        rw [hpending, List.append_nil]
        exact hholds
      rw [← Option.some.inj hstep]
      have hadd := htrim.addTokens tokens
      show GroupInv ((s.trim s.posNext s.posNext).addTokens s.systemTokens.length tokens)
      rw [h.system]
      exact hadd
    · cases hstep
  | generate tokens =>
    replace hstep : s.generate tokens = some s' := hstep
    rw [generate] at hstep
    split at hstep
    · rw [← Option.some.inj hstep]
      exact h.addTokens tokens
    · cases hstep
  | decode nTokens =>
    replace hstep : s.decode nTokens = some s' := hstep
    rw [decode, extendContext_of_room hok] at hstep
    split at hstep
    · rename_i hcan
      rw [← Option.some.inj hstep]
      refine { system := h.system, holds := ?_, fits := ?_, gaI := h.gaI }
      · show HoldsTokens (s.cells ++ s.pending.take nTokens ++ s.pending.drop nTokens) s.cacheTokens
        rw [List.append_assoc, List.take_append_drop]
        exact h.holds
      · show (s.cells ++ s.pending.take nTokens).length ≤ s.nCells
        rw [List.length_append, List.length_take_of_le hcan.2.1]
        exact hcan.2.2
    · cases hstep
  | failDecode nTokens =>
    replace hstep : s.failDecode nTokens = some s' := hstep
    rw [failDecode, extendContext_of_room hok] at hstep
    split at hstep
    · rw [← Option.some.inj hstep]
      exact { system := h.system, holds := h.holds, fits := h.fits, gaI := h.gaI }
    · cases hstep
  | takeBack nKeep =>
    replace hstep : s.takeBack nKeep = some s' := hstep
    rw [takeBack] at hstep
    split at hstep
    · rename_i hif
      have hlength := h.length
      rw [hif.1, List.length_nil, Nat.add_zero] at hlength
      obtain ⟨hholds, hfits⟩ := h.trim (n := nKeep) (hlength ▸ hif.2)
      rw [← Option.some.inj hstep]
      refine { system := h.system, holds := ?_, fits := hfits, gaI := h.gaI }
      show HoldsTokens (_ ++ s.pending) _
      rw [hif.1, List.append_nil]
      exact hholds
    · cases hstep

end GroupInv

/-! ### A decode -/

/-- The rows have consecutive positions behind all cells of the sequence, and `n_past_se` is one
more than the largest position after the decode. -/
def DecodesOn (s : GroupSlot) (nTokens : Nat) : Prop :=
  ∃ e s', s.extendContext nTokens = some e ∧ s.decode nTokens = some s' ∧
    (∃ p tokens, s.pending.take nTokens = cellsFrom p tokens ∧ ∀ c ∈ e.cells, c.pos < p) ∧
    (∀ c ∈ s'.cells, c.pos < s'.nPastSe) ∧ ∃ c ∈ s'.cells, c.pos + 1 = s'.nPastSe

theorem exists_last_cellsFrom {p : Int} {tokens : List Int} (h : tokens ≠ []) :
    ∃ c ∈ cellsFrom p tokens, c.pos + 1 = p + tokens.length := by
  induction tokens generalizing p with
  | nil => exact absurd rfl h
  | cons t tokens ih =>
    cases tokens with
    | nil => exact ⟨_, List.mem_singleton_self _, rfl⟩
    | cons t' tokens =>
      obtain ⟨c, hc, hpos⟩ := ih (p := p + 1) (List.cons_ne_nil _ _)
      refine ⟨c, List.mem_cons_of_mem _ hc, ?_⟩
      rw [hpos, List.length_cons, List.length_cons, List.length_cons]
      omega

theorem take_cellsFrom (n : Nat) (p : Int) (tokens : List Int) :
    (cellsFrom p tokens).take n = cellsFrom p (tokens.take n) := by
  induction tokens generalizing n p with
  | nil => rw [List.take_nil, cellsFrom, List.take_nil]
  | cons t tokens ih =>
    cases n with
    | zero => rfl
    | succ n => rw [cellsFrom, List.take_succ_cons, List.take_succ_cons, cellsFrom, ih]

section
variable {s s' e : GroupSlot} {nTokens : Nat}

/-- The rows that are decoded next. -/
theorem GroupInv.next_rows (h : GroupInv s) (hcan : s.CanDecode nTokens) :
    ∃ tokens, tokens.length = nTokens ∧
      s.pending.take nTokens = cellsFrom s.cells.length tokens := by
  have hlength := h.length
  refine ⟨(s.cacheTokens.drop s.cells.length).take nTokens, ?_, ?_⟩
  · rw [List.length_take_of_le]
    rw [List.length_drop]
    have := hcan.2.1
    omega
  · rw [← take_cellsFrom, ← h.split.2]

/-- The rows are the last cells. -/
theorem GroupInv.pos_lt (h : GroupInv s) (hcan : s.CanDecode nTokens) {c : TokenCell}
    (hc : c ∈ s.cells ++ s.pending.take nTokens) : c.pos < s.cells.length + nTokens := by
  obtain ⟨tokens, hlength, hrows⟩ := h.next_rows hcan
  rw [hrows] at hc
  rcases List.mem_append.mp hc with hc | hc
  · rw [h.split.1] at hc
    have hpos := (mem_cellsFrom hc).2
    have htake := List.length_take_le s.cells.length s.cacheTokens
    omega
  · have hpos := (mem_cellsFrom hc).2
    omega

theorem decode_eq (hcan : s.CanDecode nTokens) (he : s.extendContext nTokens = some e) :
    s.decode nTokens = some { e with
      cells := e.cells ++ e.pending.take nTokens
      pending := e.pending.drop nTokens } := by
  rw [decode, if_pos hcan, he]
  rfl

theorem extendContext_pending (he : s.extendContext nTokens = some e) :
    e.pending = s.pending := by
  obtain ⟨e', he', rfl⟩ := Option.map_eq_some_iff.mp he
  exact (extendLoop_le he').2

/-- With a cell for each position and an open window the decode goes on. -/
theorem GroupInv.decodesOn (h : GroupInv s) (hcan : s.CanDecode nTokens)
    (hcount : s.nPastSe = s.cells.length) (hroom : ¬ s.windowFull) : s.DecodesOn nTokens := by
  obtain ⟨tokens, hlength, hrows⟩ := h.next_rows hcan
  have he := extendContext_of_room hroom nTokens
  have hcells : ∀ c ∈ s.cells, c.pos < s.cells.length := by
    intro c hc
    rw [h.split.1] at hc
    have hpos := (mem_cellsFrom hc).2
    rw [Int.zero_add] at hpos
    have htake := List.length_take_le s.cells.length s.cacheTokens
    omega
  refine ⟨_, _, he, decode_eq hcan he, ⟨_, tokens, hrows, hcells⟩, ?_, ?_⟩
  · intro c hc
    show c.pos < s.nPastSe + nTokens
    have hlt := h.pos_lt hcan hc
    omega
  · have hne : tokens ≠ [] := by
      intro hnil
      rw [hnil, List.length_nil] at hlength
      have := hcan.1
      omega
    obtain ⟨c, hc, hpos⟩ := exists_last_cellsFrom (p := s.cells.length) hne
    refine ⟨c, ?_, ?_⟩
    · show c ∈ s.cells ++ s.pending.take nTokens
      rw [hrows]
      exact List.mem_append_right _ hc
    · show c.pos + 1 = s.nPastSe + nTokens
      rw [hpos, hlength, hcount]

/-- After a decode `n_past_se` is behind the last row. -/
theorem GroupInv.le_of_decodesOn (h : GroupInv s) (hcan : s.CanDecode nTokens)
    (hon : s.DecodesOn nTokens) (he : s.extendContext nTokens = some e) :
    (s.cells.length : Int) + nTokens ≤ e.nPastSe := by
  obtain ⟨e', s', he', hs', -, hbelow, -⟩ := hon
  rw [he] at he'
  rw [← Option.some.inj he'] at *
  rw [decode_eq hcan he] at hs'
  obtain ⟨tokens, hlength, hrows⟩ := h.next_rows hcan
  have hne : tokens ≠ [] := by
    intro hnil
    rw [hnil, List.length_nil] at hlength
    have := hcan.1
    omega
  obtain ⟨c, hc, hpos⟩ := exists_last_cellsFrom (p := s.cells.length) hne
  have hmem : c ∈ s'.cells := by
    rw [← Option.some.inj hs']
    show c ∈ e.cells ++ e.pending.take nTokens
    rw [extendContext_pending he, hrows]
    exact List.mem_append_right _ hc
  have hlt := hbelow c hmem
  rw [← Option.some.inj hs'] at hlt
  replace hlt : c.pos < e.nPastSe := hlt
  omega

/-- And it does so only then. -/
theorem GroupInv.decodesOn_iff (h : GroupInv s) (hcan : s.CanDecode nTokens)
    (hone : s.nPastSe = s.cells.length ∨ ¬ s.windowFull) :
    s.DecodesOn nTokens ↔ s.nPastSe = s.cells.length ∧ ¬ s.windowFull := by
  constructor
  · intro hon
    obtain ⟨e, -, he, -⟩ := id hon
    have hle := h.le_of_decodesOn hcan hon he
    by_cases hfull : s.windowFull
    · -- the compression has made `n_past_se` smaller than the number of cells
      have hcount : s.nPastSe = s.cells.length := hone.resolve_right (not_not_intro hfull)
      obtain ⟨e', he', rfl⟩ := Option.map_eq_some_iff.mp he
      have hlt := extendLoop_lt hfull he'
      replace hle : (s.cells.length : Int) + nTokens ≤ e'.nPastSe + nTokens := hle
      omega
    · refine ⟨?_, hfull⟩
      rw [extendContext_of_room hfull] at he
      rw [← Option.some.inj he] at hle
      replace hle : (s.cells.length : Int) + nTokens ≤ s.nPastSe + nTokens := hle
      obtain ⟨-, s', -, hs', -, -, c, hc, hpos⟩ := hon
      rw [decode_eq hcan (extendContext_of_room hfull nTokens)] at hs'
      rw [← Option.some.inj hs'] at hc hpos
      replace hpos : c.pos + 1 = s.nPastSe + nTokens := hpos
      have hlt := h.pos_lt hcan hc
      omega
  · intro hboth
    exact h.decodesOn hcan hboth.1 hboth.2

theorem groupInv_initial (g : Group) (nCells : Nat) (hcells : (nCells : Int) ≤ posMax) :
    GroupInv (initial g nCells hcells []) where
  system := rfl
  holds := rfl
  fits := Nat.zero_le _
  gaI := rfl

end

/-- No compression, and at a decode `n_past_se` is the number of cells. -/
def Counted (s : GroupSlot) (a : GroupAct) : Prop :=
  Roomy s a ∧ ∀ nTokens, a = .decode nTokens → s.nPastSe = s.cells.length

/-- Every decode of a run whose decodes meet the condition goes on with the positions. -/
theorem runs_decodesOn_of_counted (g : Group) (nCells : Nat) (hcells : (nCells : Int) ≤ posMax)
    {s s' : GroupSlot} (hrun : Runs (initial g nCells hcells []) GroupSlot.step Counted s)
    {nTokens : Nat} (hok : Counted s (.decode nTokens))
    (hstep : s.step (.decode nTokens) = some s') : s.DecodesOn nTokens := by
  have hinv : GroupInv s := hrun.invariant (groupInv_initial g nCells hcells)
    fun _ _ _ hinv hok hstep => hinv.step hok.1 hstep
  have hcan : s.CanDecode nTokens := by
    by_contra hnot
    replace hstep : s.decode nTokens = some s' := hstep
    rw [decode, if_neg hnot] at hstep
    cases hstep
  exact hinv.decodesOn hcan (hok.2 nTokens rfl) hok.1

/-- In a run without a system prompt and without a compression so far, a decode goes on with the
positions if and only if `n_past_se` has counted every cell once and nothing is compressed before
it. A count that is wrong and a compression can cancel out. -/
theorem runs_decodesOn_iff (g : Group) (nCells : Nat) (hcells : (nCells : Int) ≤ posMax)
    {s : GroupSlot} (hrun : Runs (initial g nCells hcells []) GroupSlot.step Roomy s)
    {nTokens : Nat} (hcan : s.CanDecode nTokens) (hone : s.nPastSe = s.cells.length ∨ ¬ s.windowFull) :
    s.DecodesOn nTokens ↔ s.nPastSe = s.cells.length ∧ ¬ s.windowFull := by
  have hinv : GroupInv s := hrun.invariant (groupInv_initial g nCells hcells)
    fun _ _ _ hinv hok hstep => hinv.step hok hstep
  exact hinv.decodesOn_iff hcan hone

/-- A prompt of three tokens, decoded in two pieces, and a generated token. -/
def roomyRun : List GroupAct :=
  [.startPrompt, .promptBatch [1, 2, 3], .decode 2, .decode 1, .generate [4]]

theorem runs_decodesOn_roomyRun :
    (Runs.last GroupSlot.step (initial ⟨2, 4, by decide, by decide⟩ 16 (by decide) [])
      roomyRun).DecodesOn 1 :=
  (runs_decodesOn_iff _ 16 (by decide) (Runs.of_allowed .init (by decide)) (by decide)
    (by decide)).mpr (by decide)

/-- A prompt that fills the window of four positions, and the first generated token. Two blocks of
two positions become two positions, and the token gets position 4. -/
theorem fullWindow_not_decodesOn :
    ¬ ∀ s, Runs (initial ⟨2, 4, by decide, by decide⟩ 16 (by decide) []) GroupSlot.step
        (fun _ _ => True) s →
      ∀ nTokens, s.CanDecode nTokens → s.DecodesOn nTokens := by
  intro hall
  let acts : List GroupAct := [.startPrompt, .promptBatch [1, 2, 3, 5], .decode 4, .generate [4]]
  have hrun : Runs (initial ⟨2, 4, by decide, by decide⟩ 16 (by decide) []) GroupSlot.step Roomy
      (Runs.last GroupSlot.step _ acts) := Runs.of_allowed .init (by decide)
  have hon := hall _ (hrun.mono fun _ _ _ => trivial) 1 (by decide)
  have hinv : GroupInv (Runs.last GroupSlot.step _ acts) :=
    hrun.invariant (groupInv_initial _ 16 (by decide)) fun _ _ _ hinv hok hstep =>
      hinv.step hok hstep
  have hboth := (hinv.decodesOn_iff (by decide) (by decide)).mp hon
  exact absurd hboth.2 (by decide)

end PxqLlama.Server.GroupSlot
