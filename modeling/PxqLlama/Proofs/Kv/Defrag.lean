import PxqLlama.Proofs.Kv.Accounting

/-!
# `Proofs.Kv.Defrag`: what the metadata loop of a defragmentation does

`Filled c k st` is the invariant of the loops, with the cells below `k` filled. A cell that
moves (`Moves`) comes from `used` or higher and goes to a cell below `k` that was empty, and
every other cell is as it was. `Filled.keep` and `Filled.move` are the two things that a step
can do.

There are `used` cells with a sequence, so there are as many above `used` as there are holes
below it. Hence the search from the end finds enough cells, all of them at `used` or higher
(`findSource_spec`), and the assertion on their number holds (`defragVars_filled`).
-/

namespace PxqLlama.Kv

open Tally

/-- The cell has a sequence. -/
def KvCell.HasSeq (cell : KvCell) : Prop := cell.isEmpty = false

instance : DecidablePred KvCell.HasSeq :=
  fun cell => inferInstanceAs (Decidable (cell.isEmpty = false))

theorem KvCell.hasSeq_iff {cell : KvCell} : cell.HasSeq ↔ cell.seqId.Nonempty := by
  rw [KvCell.HasSeq, KvCell.isEmpty, decide_eq_false_iff_not, Finset.nonempty_iff_ne_empty]

theorem KvCell.Sound.hasPos_iff {cell : KvCell} (hs : cell.Sound) : cell.HasPos ↔ cell.HasSeq := by
  rw [KvCell.HasSeq, ← Bool.not_eq_true, hs.empty_iff, Int.not_lt]
  rfl

theorem sound_default : ({} : KvCell).Sound := by simp [KvCell.Sound]

theorem not_hasSeq_default : ¬ ({} : KvCell).HasSeq := by decide

/-- Cell `i` moves to `ids[i]`. -/
def DefragState.Moves (st : DefragState) (nKv i : Nat) : Prop :=
  i < nKv ∧ st.ids i ≠ nKv ∧ st.ids i ≠ i

/-- The cells below `k` are filled, with cells from `used` and higher. -/
structure Filled (c : KvCache) (nKv k : Nat) (st : DefragState) : Prop where
  le : k ≤ c.used
  below : ∀ i < k, (st.cells i).HasSeq
  ids : ∀ i < nKv, st.ids i = nKv ∨ st.ids i < k
  moved : ∀ i, st.Moves nKv i → c.used ≤ i ∧ (c.cells i).HasSeq ∧ st.cells i = {} ∧
    ¬ (c.cells (st.ids i)).HasSeq ∧ st.cells (st.ids i) = c.cells i
  inj : ∀ i j, st.Moves nKv i → st.Moves nKv j → st.ids i = st.ids j → i = j
  same : ∀ x, ¬ st.Moves nKv x → (∀ i, st.Moves nKv i → st.ids i ≠ x) →
    st.cells x = c.cells x
  values : values KvCell.HasSeq st.cells 0 nKv = values KvCell.HasSeq c.cells 0 nKv
  nMoves : 0 < st.nMoves ↔ ∃ i, st.Moves nKv i
  head : st.head = c.head ∨ st.head = c.used

variable {x : Nat}

section
variable {c : KvCache} {nKv k : Nat} {st : DefragState}

/-- At the start no hole is filled. -/
theorem Filled.start (c : KvCache) (nKv : Nat) :
    Filled c nKv 0
      { cells := c.cells, ids := fun _ => nKv, head := c.head, nMoves := 0 } where
  le := Nat.zero_le _
  below := fun i hi => absurd hi (Nat.not_lt_zero i)
  ids := fun _ _ => Or.inl rfl
  moved := fun _ hi => absurd rfl hi.2.1
  inj := fun _ _ hi _ _ => absurd rfl hi.2.1
  same := fun _ _ _ => rfl
  values := rfl
  nMoves := by
    refine iff_of_false (Nat.lt_irrefl 0) ?_
    rintro ⟨i, hi⟩
    exact hi.2.1 rfl
  head := Or.inl rfl

variable (hst : Filled c nKv k st)
include hst

/-- A cell from `k` on is not one that was filled. -/
theorem Filled.cell_eq (hx : k ≤ x) (hnot : ¬ st.Moves nKv x) : st.cells x = c.cells x := by
  apply hst.same x hnot
  intro i hi heq
  rcases hst.ids i hi.1 with hid | hid
  · exact hi.2.1 hid
  · omega

/-- A cell below `used` does not move. -/
theorem Filled.not_moves (hx : x < c.used) : ¬ st.Moves nKv x := by
  intro hmoves
  have := (hst.moved x hmoves).1
  omega

/-- From `used` on, the search skips exactly the cells without a sequence. -/
theorem Filled.skips_iff (hx : c.used ≤ x) (hlt : x < nKv) :
    st.skips nKv x = false ↔ (st.cells x).HasSeq := by
  rw [DefragState.skips, Bool.or_eq_false_iff, decide_eq_false_iff_not, not_not, KvCell.HasSeq]
  constructor
  · rintro ⟨hne, -⟩
    exact hne
  · intro hne
    refine ⟨hne, ?_⟩
    by_contra hid
    -- a cell that has moved is empty
    have hle := hst.le
    have hmoves : st.Moves nKv x := by
      refine ⟨hlt, hid, fun heq => ?_⟩
      rcases hst.ids x hlt with h | h
      · exact hid h
      · omega
    rw [(hst.moved x hmoves).2.2.1] at hne
    exact not_hasSeq_default hne

/-- The cell `k` is not empty: it stays. -/
theorem Filled.keep (hk : k < c.used) (hlt : k < nKv) (hseq : (st.cells k).HasSeq) :
    Filled c nKv (k + 1) { st with ids := Function.update st.ids k k } := by
  have hmoves : ∀ i, ({ st with ids := Function.update st.ids k k } : DefragState).Moves nKv i ↔
      st.Moves nKv i := by
    intro i
    by_cases hik : i = k
    · rw [hik]
      refine iff_of_false (fun h => ?_) (hst.not_moves hk)
      exact h.2.2 (Function.update_self ..)
    · simp only [DefragState.Moves, Function.update_of_ne hik]
  have hids : ∀ i, st.Moves nKv i → Function.update st.ids k k i = st.ids i := by
    intro i hi
    apply Function.update_of_ne
    rintro rfl
    exact hst.not_moves hk hi
  exact {
    le := hk
    below := by
      intro i hi
      rcases Nat.lt_succ_iff_lt_or_eq.mp hi with h | rfl
      · exact hst.below i h
      · exact hseq
    ids := by
      intro i hi
      by_cases hik : i = k
      · right
        simp [hik]
      · simp only [Function.update_of_ne hik]
        rcases hst.ids i hi with h | h
        · exact Or.inl h
        · exact Or.inr (by omega)
    moved := by
      intro i hi
      rw [hmoves] at hi
      simp only [hids i hi]
      exact hst.moved i hi
    inj := by
      intro i j hi hj heq
      rw [hmoves] at hi hj
      simp only [hids i hi, hids j hj] at heq
      exact hst.inj i j hi hj heq
    same := by
      intro x hx hdst
      rw [hmoves] at hx
      apply hst.same x hx
      intro i hi
      have := hdst i ((hmoves i).mpr hi)
      simp only [hids i hi] at this
      exact this
    values := hst.values
    nMoves := by
      simp only [hmoves]
      exact hst.nMoves
    head := hst.head }

/-- The cell `i1` moves to the empty cell `k`. -/
theorem Filled.move {i1 n : Nat} (hk : k < c.used) (hi1 : c.used ≤ i1) (hlt : i1 < nKv)
    (hempty : ¬ (st.cells k).HasSeq) (hseq : (st.cells i1).HasSeq) (hn : 0 < n) :
    Filled c nKv (k + 1) {
      ids := Function.update st.ids i1 k
      cells := Function.update (Function.update st.cells k (st.cells i1)) i1 {}
      head := c.used
      nMoves := n } := by
  have hle := hst.le
  have hne : k ≠ i1 := by omega
  -- `i1` has not moved, and is still the cell that it was
  have hold : ¬ st.Moves nKv i1 := by
    intro hmoves
    rw [(hst.moved i1 hmoves).2.2.1] at hseq
    exact not_hasSeq_default hseq
  have hcell : st.cells i1 = c.cells i1 := hst.cell_eq (by omega) hold
  have hhole : st.cells k = c.cells k := hst.cell_eq (Nat.le_refl k) (hst.not_moves hk)
  generalize hst' : ({
      ids := Function.update st.ids i1 k
      cells := Function.update (Function.update st.cells k (st.cells i1)) i1 {}
      head := c.used
      nMoves := n } : DefragState) = st'
  have hids' : st'.ids = Function.update st.ids i1 k := by rw [← hst']
  have hcells' : st'.cells = Function.update (Function.update st.cells k (st.cells i1)) i1 {} := by
    rw [← hst']
  have hmoves : ∀ i, st'.Moves nKv i ↔ st.Moves nKv i ∨ i = i1 := by
    intro i
    rw [DefragState.Moves, hids']
    by_cases hi : i = i1
    · rw [hi, Function.update_self]
      refine iff_of_true ⟨hlt, by omega, hne⟩ (Or.inr rfl)
    · rw [Function.update_of_ne hi]
      exact ⟨fun h => Or.inl h, fun h => h.resolve_right hi⟩
  have hids : ∀ i, st.Moves nKv i → st'.ids i = st.ids i := by
    intro i hi
    rw [hids']
    apply Function.update_of_ne
    rintro rfl
    exact hold hi
  have hidnew : st'.ids i1 = k := by rw [hids', Function.update_self]
  -- the cells that neither were the hole nor moved are left alone
  have hother : ∀ x, x ≠ k → x ≠ i1 → st'.cells x = st.cells x := by
    intro x hxk hx
    rw [hcells', Function.update_of_ne hx, Function.update_of_ne hxk]
  have hknew : st'.cells k = c.cells i1 := by
    rw [hcells', Function.update_of_ne hne, Function.update_self, hcell]
  have hinew : st'.cells i1 = {} := by rw [hcells', Function.update_self]
  have hidlt : ∀ i, st.Moves nKv i → st.ids i < k := by
    intro i hi
    exact (hst.ids i hi.1).resolve_left hi.2.1
  exact {
    le := hk
    below := by
      intro i hi
      rcases Nat.lt_succ_iff_lt_or_eq.mp hi with h | rfl
      · rw [hother i (by omega) (by omega)]
        exact hst.below i h
      · rw [hknew, ← hcell]
        exact hseq
    ids := by
      intro i hi
      by_cases hii : i = i1
      · right
        rw [hii, hidnew]
        exact Nat.lt_succ_self k
      · rw [hids', Function.update_of_ne hii]
        rcases hst.ids i hi with h | h
        · exact Or.inl h
        · exact Or.inr (by omega)
    moved := by
      intro i hi
      rcases (hmoves i).mp hi with hi | rfl
      · obtain ⟨hge, hhas, hgone, hfree, hmoved⟩ := hst.moved i hi
        have := hidlt i hi
        have hii : i ≠ i1 := fun heq => hold (heq ▸ hi)
        rw [hids i hi]
        refine ⟨hge, hhas, ?_, hfree, ?_⟩
        · rw [hother i (by omega) hii]
          exact hgone
        · rw [hother _ (by omega) (by omega)]
          exact hmoved
      · rw [hidnew]
        refine ⟨hi1, ?_, hinew, ?_, hknew⟩
        · rw [← hcell]
          exact hseq
        · rw [← hhole]
          exact hempty
    inj := by
      intro i j hi hj heq
      rcases (hmoves i).mp hi with hi | rfl
      · rcases (hmoves j).mp hj with hj | rfl
        · rw [hids i hi, hids j hj] at heq
          exact hst.inj i j hi hj heq
        · have := hidlt i hi
          rw [hids i hi, hidnew] at heq
          omega
      · rcases (hmoves j).mp hj with hj | rfl
        · have := hidlt j hj
          rw [hids j hj, hidnew] at heq
          omega
        · rfl
    same := by
      intro x hx hdst
      have hxk : x ≠ k := by
        rintro rfl
        exact hdst i1 ((hmoves i1).mpr (Or.inr rfl)) hidnew
      have hxi : x ≠ i1 := by
        rintro rfl
        exact hx ((hmoves x).mpr (Or.inr rfl))
      rw [hother x hxk hxi]
      apply hst.same x fun h => hx ((hmoves x).mpr (Or.inl h))
      intro i hi
      rw [← hids i hi]
      exact hdst i ((hmoves i).mpr (Or.inl hi))
    values := by
      rw [hcells', values_move _ _ hempty not_hasSeq_default]
      · exact hst.values
      · exact mem_places.mpr ⟨⟨Nat.zero_le _, hlt⟩, hseq⟩
      · omega
    nMoves := by
      have hn' : st'.nMoves = n := by rw [← hst']
      rw [hn']
      exact iff_of_true hn ⟨i1, (hmoves i1).mpr (Or.inr rfl)⟩
    head := Or.inr (by rw [← hst']) }

end

/-! ### The loops -/

/-- The hole lies below `used`, and its cells are empty. -/
theorem holeSize_spec {cells : Nat → KvCell} {nUsed i0 nh : Nat} (fuel : Nat)
    (hle : i0 + nh ≤ nUsed)
    (hhole : ∀ j, i0 ≤ j → j < i0 + nh → ¬ (cells j).HasSeq) :
    nh ≤ holeSize cells nUsed i0 fuel nh ∧ i0 + holeSize cells nUsed i0 fuel nh ≤ nUsed ∧
      ∀ j, i0 ≤ j → j < i0 + holeSize cells nUsed i0 fuel nh → ¬ (cells j).HasSeq := by
  induction fuel generalizing nh with
  | zero => exact ⟨Nat.le_refl _, hle, hhole⟩
  | succ fuel ih =>
    rw [holeSize]
    split
    · rename_i hnext
      have hhole' : ∀ j, i0 ≤ j → j < i0 + (nh + 1) → ¬ (cells j).HasSeq := by
        intro j hj hlt
        by_cases hlast : j = i0 + nh
        · rw [hlast, KvCell.HasSeq, hnext.2]
          exact Bool.noConfusion
        · exact hhole j hj (by omega)
      obtain ⟨hge, hrest⟩ := ih (by omega) hhole'
      exact ⟨by omega, hrest⟩
    · exact ⟨Nat.le_refl _, hle, hhole⟩

/-- The search from the end finds `nh` cells when there are as many from `lo` on, and it does
not go below `lo`. -/
theorem findSource_spec {st : DefragState} {nKv nh is nf lo : Nat} (i0 : Nat) (hlo : i0 < lo)
    (hskips : ∀ x, lo ≤ x → x ≤ is → (st.skips nKv x = false ↔ (st.cells x).HasSeq))
    (hnf : nf < nh) (hcount : nh ≤ nf + tally KvCell.HasSeq st.cells lo (is + 1)) :
    ∃ src, findSource st nKv i0 nh is nf = (src, nh) ∧ lo ≤ src ∧ src ≤ is ∧
      nf + tally KvCell.HasSeq st.cells src (is + 1) = nh := by
  have hpos : ∃ x, lo ≤ x ∧ x < is + 1 ∧ (st.cells x).HasSeq :=
    exists_of_tally_pos (by omega)
  induction is generalizing nf with
  | zero =>
    obtain ⟨x, hx, hlt, -⟩ := hpos
    omega
  | succ is ih =>
    have hle : lo ≤ is + 1 := by
      obtain ⟨x, hx, hlt, -⟩ := hpos
      omega
    have hskip := hskips (is + 1) hle (Nat.le_refl _)
    rw [tally_succ hle] at hcount
    rw [findSource, if_neg (by omega)]
    by_cases hseq : (st.cells (is + 1)).HasSeq
    · rw [if_pos hseq] at hcount
      rw [if_neg (by rw [hskip.mpr hseq]; exact Bool.noConfusion)]
      by_cases hlast : nf + 1 = nh
      · -- the last one that was missing
        rw [if_pos hlast]
        refine ⟨is + 1, by rw [hlast], hle, Nat.le_refl _, ?_⟩
        rw [tally_succ (Nat.le_refl _), if_pos hseq,
          tally_eq_zero fun i hi hlt => absurd hlt (Nat.not_lt.mpr hi)]
        omega
      · rw [if_neg hlast]
        obtain ⟨src, hfind, hlosrc, hsrc, htally⟩ := @ih (nf + 1)
          (fun x hx hxis => hskips x hx (by omega)) (by omega) (by omega)
          (exists_of_tally_pos (by omega))
        refine ⟨src, hfind, hlosrc, by omega, ?_⟩
        rw [tally_succ (by omega), if_pos hseq]
        omega
    · rw [if_neg hseq] at hcount
      rw [if_pos (by rw [← Bool.not_eq_false]; exact fun h => hseq (hskip.mp h))]
      obtain ⟨src, hfind, hlosrc, hsrc, htally⟩ := ih
        (fun x hx hxis => hskips x hx (by omega)) hnf hcount (exists_of_tally_pos (by omega))
      refine ⟨src, hfind, hlosrc, by omega, ?_⟩
      rw [tally_succ (by omega), if_neg hseq]
      omega

section
variable {c : KvCache} {nKv maxMoves i0 nh : Nat}

/-- The moves into one hole: either they fill it, or the loop stops with `max_moves` moves. -/
theorem moveCells_filled (hhole : i0 + nh ≤ c.used) (fuel i1 nf : Nat) (cont : Bool)
    {st : DefragState} (hst : Filled c nKv (i0 + nf) st) (hnf : nf < nh) (hi1 : c.used ≤ i1)
    (hempty : ∀ j, i0 + nf ≤ j → j < i0 + nh → ¬ (st.cells j).HasSeq)
    (hmoves : st.nMoves ≤ maxMoves) (hcont : cont = false → st.nMoves < maxMoves)
    (hpos : cont = true → 0 < st.nMoves) (hfuel : nKv < i1 + fuel)
    (hcount : nh ≤ nf + tally KvCell.HasSeq st.cells i1 nKv) :
    ∃ st' stop k, moveCells nKv c.used maxMoves i0 nh fuel i1 nf cont st = (st', stop) ∧
      Filled c nKv k st' ∧ st'.nMoves ≤ maxMoves ∧
      ((stop = true ∧ st'.nMoves = maxMoves) ∨ (stop = false ∧ k = i0 + nh)) := by
  induction fuel generalizing i1 nf cont st with
  | zero =>
    obtain ⟨x, hx, hlt, -⟩ := exists_of_tally_pos (p := KvCell.HasSeq) (f := st.cells) (a := i1)
      (b := nKv) (by omega)
    omega
  | succ fuel ih =>
    have hlt : i1 < nKv := by
      obtain ⟨x, hx, hlt, -⟩ := exists_of_tally_pos (p := KvCell.HasSeq) (f := st.cells)
        (a := i1) (b := nKv) (by omega)
      omega
    have hskip := hst.skips_iff hi1 hlt
    have hsplit := tally_add (p := KvCell.HasSeq) (f := st.cells) (Nat.le_add_right i1 1) hlt
    rw [tally_succ (Nat.le_refl i1), tally_eq_zero fun i hi hlt => absurd hlt (Nat.not_lt.mpr hi)]
      at hsplit
    rw [moveCells, if_neg (by omega)]
    by_cases hseq : (st.cells i1).HasSeq
    · rw [if_pos hseq] at hsplit
      rw [if_neg (by rw [hskip.mpr hseq]; exact Bool.noConfusion)]
      -- one more cell moves
      have hn : 0 < (if cont then st.nMoves else st.nMoves + 1) := by
        cases cont with
        | true => exact hpos rfl
        | false => exact Nat.succ_pos _
      have hnle : (if cont then st.nMoves else st.nMoves + 1) ≤ maxMoves := by
        cases cont with
        | true => exact hmoves
        | false => exact hcont rfl
      have hst' := hst.move (by omega) hi1 hlt (hempty _ (Nat.le_refl _) (by omega)) hseq hn
      simp only
      by_cases hlast : nf + 1 = nh
      · rw [if_pos hlast]
        exact ⟨_, _, _, rfl, hst', hnle, Or.inr ⟨rfl, by omega⟩⟩
      · rw [if_neg hlast]
        apply ih _ _ _ hst' (by omega) (by omega) _ hnle (fun h => Bool.noConfusion h) (fun _ => hn)
          (by omega)
        · -- the cells behind `i1` are as before
          rw [tally_congr (q := KvCell.HasSeq) (g := st.cells)]
          · omega
          · intro i hi _
            simp only
            rw [Function.update_of_ne (by omega), Function.update_of_ne (by omega)]
        · intro j hj hlt'
          simp only
          rw [Function.update_of_ne (by omega), Function.update_of_ne (by omega)]
          exact hempty j (by omega) hlt'
    · rw [if_neg hseq] at hsplit
      rw [if_pos (by rw [← Bool.not_eq_false]; exact fun h => hseq (hskip.mp h))]
      split
      · rename_i hstop
        exact ⟨st, true, _, rfl, hst, hmoves, Or.inl ⟨rfl, hstop⟩⟩
      · rename_i hmore
        exact ih _ _ _ hst hnf (by omega) hempty hmoves (fun _ => by omega)
          (fun h => Bool.noConfusion h) (by omega) (by omega)

/-- The outer loop: the assertion holds in each round, and at the end every cell below `used`
is filled or `max_moves` moves were made. -/
theorem defragLoop_filled (hused : tally KvCell.HasSeq c.cells 0 nKv = c.used) (fuel : Nat)
    {k : Nat} {st : DefragState} (hst : Filled c nKv k st) (hmoves : st.nMoves < maxMoves)
    (hfuel : c.used < k + fuel) :
    ∃ st' k', defragLoop nKv c.used maxMoves fuel k st = some st' ∧ Filled c nKv k' st' ∧
      st'.nMoves ≤ maxMoves ∧ (k' = c.used ∨ st'.nMoves = maxMoves) := by
  have hUn : c.used ≤ nKv := by
    have : tally KvCell.HasSeq c.cells 0 nKv ≤ nKv - 0 := tally_le
    omega
  induction fuel generalizing k st with
  | zero =>
    have := hst.le
    omega
  | succ fuel ih =>
    have hle := hst.le
    rw [defragLoop]
    by_cases hend : c.used ≤ k
    · rw [if_pos hend]
      exact ⟨st, k, rfl, hst, Nat.le_of_lt hmoves, Or.inl (by omega)⟩
    · rw [if_neg hend]
      by_cases hseq : (st.cells k).isEmpty = false
      · rw [if_pos hseq]
        exact ih (hst.keep (by omega) (by omega) hseq) hmoves (by omega)
      · rw [if_neg hseq]
        -- a hole of `nh` cells
        obtain ⟨hnh, hnhle, hempty⟩ := holeSize_spec c.used
          (by omega : k + 1 ≤ c.used) (by
            intro j hj hlt
            rw [show j = k by omega]
            exact hseq)
        generalize holeSize st.cells c.used k c.used 1 = nh at hnh hnhle hempty ⊢
        -- the cells with a sequence: all below `k`, none in the hole, so enough from `used` on
        have htotal : tally KvCell.HasSeq st.cells 0 nKv = c.used := by
          rw [← card_values, hst.values, card_values, hused]
        have hbelow : tally KvCell.HasSeq st.cells 0 k = k - 0 :=
          tally_eq_length fun i _ hi => hst.below i hi
        have hin : tally KvCell.HasSeq st.cells k (k + nh) = 0 :=
          tally_eq_zero fun i hi hlt => hempty i hi hlt
        have hrest : tally KvCell.HasSeq st.cells (k + nh) c.used ≤ c.used - (k + nh) := tally_le
        have hsum₁ := tally_add (p := KvCell.HasSeq) (f := st.cells) (Nat.zero_le k)
          (by omega : k ≤ nKv)
        have hsum₂ := tally_add (p := KvCell.HasSeq) (f := st.cells) (by omega : k ≤ k + nh)
          (by omega : k + nh ≤ nKv)
        have hsum₃ := tally_add (p := KvCell.HasSeq) (f := st.cells) hnhle hUn
        have henough : nh ≤ 0 + tally KvCell.HasSeq st.cells c.used (nKv - 1 + 1) := by
          rw [show nKv - 1 + 1 = nKv by omega]
          omega
        obtain ⟨src, hfind, hsrc, hsrcle, hcount⟩ := findSource_spec k
          (by omega) (fun x hx hxle => hst.skips_iff hx (by omega)) (by omega) henough
        rw [show nKv - 1 + 1 = nKv by omega] at hcount
        simp only [hfind, ne_eq, not_true_eq_false, if_false]
        obtain ⟨st', stop, k', hmove, hst', hmoves', hcases⟩ := moveCells_filled
          hnhle nKv src 0 false hst
          (by omega) hsrc hempty (Nat.le_of_lt hmoves) (fun _ => hmoves)
          (fun h => Bool.noConfusion h) (by omega) (by omega)
        rw [hmove]
        simp only
        rcases hcases with ⟨rfl, hfull⟩ | ⟨rfl, rfl⟩
        · rw [if_pos (Or.inl rfl)]
          exact ⟨st', k', rfl, hst', hmoves', Or.inr hfull⟩
        · by_cases hfull : st'.nMoves = maxMoves
          · rw [if_pos (Or.inr hfull)]
            exact ⟨st', _, rfl, hst', hmoves', Or.inr hfull⟩
          · rw [if_neg (by simp [hfull])]
            exact ih hst' (by omega) (by omega)

end

/-! ### The whole function -/

section
variable {c : KvCache} (hc : Accounted c)
include hc

theorem Accounted.live_iff {i : Nat} (hi : i < c.size) :
    (c.cells i).live = true ↔ (c.cells i).HasSeq := by
  rw [KvCell.live, Bool.and_eq_true, decide_eq_true_iff, Bool.not_eq_true', KvCell.HasSeq]
  exact ⟨fun h => h.2, fun h => ⟨(hc.sound i hi).hasPos_iff.mpr h, h⟩⟩

/-- The cells with a sequence lie below the bound. -/
theorem Accounted.lt_cellMax {i : Nat} (hi : i < c.size) (hseq : (c.cells i).HasSeq) :
    i < llamaKvCacheCellMax c :=
  lt_cellMaxLoop c.cells hi ((hc.live_iff hi).mpr hseq)

/-- From the bound on there are only empty cells. -/
theorem Accounted.tally_above :
    tally KvCell.HasSeq c.cells (llamaKvCacheCellMax c) c.size = 0 := by
  apply tally_eq_zero
  intro i hi hlt hseq
  have := hc.lt_cellMax hlt hseq
  omega

theorem Accounted.tally_hasSeq :
    tally KvCell.HasSeq c.cells 0 (llamaKvCacheCellMax c) = c.used := by
  have hle : llamaKvCacheCellMax c ≤ c.size := cellMaxLoop_le c.cells c.size
  have hsum := tally_add (p := KvCell.HasSeq) (f := c.cells) (Nat.zero_le _) hle
  rw [hc.tally_above] at hsum
  rw [hc.used, KvCache.numUsed,
    tally_congr (q := KvCell.HasSeq) fun i _ hi => (hc.sound i hi).hasPos_iff]
  omega

/-- The metadata loops run to the end without an assertion, and leave every cell below `used`
filled or make `max_moves` moves. -/
theorem defragVars_filled {maxMoves : Nat} (hmoves : 0 < maxMoves) :
    ∃ st k, defragVars c maxMoves = some st ∧ Filled c (llamaKvCacheCellMax c) k st ∧
      st.nMoves ≤ maxMoves ∧ (k = c.used ∨ st.nMoves = maxMoves) := by
  have hle : tally KvCell.HasSeq c.cells 0 (llamaKvCacheCellMax c)
      ≤ llamaKvCacheCellMax c - 0 := tally_le
  rw [hc.tally_hasSeq] at hle
  rw [defragVars, if_neg (by omega)]
  obtain ⟨st, k, hloop, hst, hmax, hend⟩ := defragLoop_filled hc.tally_hasSeq (c.used + 1)
    (Filled.start c (llamaKvCacheCellMax c)) hmoves (by omega)
  exact ⟨st, k, hloop, hst, hmax, hend⟩

end

section
variable {c : KvCache} {k : Nat} {st : DefragState}

/-- A cell after the moves: emptied, or one of the cells before. -/
theorem Filled.cell_cases {nKv : Nat} (hst : Filled c nKv k st) (x : Nat) :
    (st.Moves nKv x ∧ st.cells x = {}) ∨
      (¬ st.Moves nKv x ∧ ∃ i, st.Moves nKv i ∧ st.ids i = x ∧ st.cells x = c.cells i) ∨
      (¬ st.Moves nKv x ∧ (∀ i, st.Moves nKv i → st.ids i ≠ x) ∧ st.cells x = c.cells x) := by
  by_cases hx : st.Moves nKv x
  · exact Or.inl ⟨hx, (hst.moved x hx).2.2.1⟩
  · right
    by_cases hdst : ∃ i, st.Moves nKv i ∧ st.ids i = x
    · obtain ⟨i, hi, heq⟩ := hdst
      refine Or.inl ⟨hx, i, hi, heq, ?_⟩
      rw [← heq]
      exact (hst.moved i hi).2.2.2.2
    · have hno : ∀ i, st.Moves nKv i → st.ids i ≠ x := fun i hi heq => hdst ⟨i, hi, heq⟩
      exact Or.inr ⟨hx, hno, hst.same x hx hno⟩

variable (hc : Accounted c) (hst : Filled c (llamaKvCacheCellMax c) k st)
include hc hst

theorem Filled.sound : ∀ x < c.size, (st.cells x).Sound := by
  have hle : llamaKvCacheCellMax c ≤ c.size := cellMaxLoop_le c.cells c.size
  intro x hx
  rcases hst.cell_cases x with ⟨-, heq⟩ | ⟨-, i, hi, -, heq⟩ | ⟨-, -, heq⟩
  · rw [heq]
    exact sound_default
  · have := hi.1
    rw [heq]
    exact hc.sound i (by omega)
  · rw [heq]
    exact hc.sound x hx

/-- The live cells are the same ones. -/
theorem Filled.values_hasPos :
    Tally.values KvCell.HasPos st.cells 0 c.size
      = Tally.values KvCell.HasPos c.cells 0 c.size := by
  have hle : llamaKvCacheCellMax c ≤ c.size := cellMaxLoop_le c.cells c.size
  have hused : c.used ≤ llamaKvCacheCellMax c := by
    have : tally KvCell.HasSeq c.cells 0 (llamaKvCacheCellMax c)
        ≤ llamaKvCacheCellMax c - 0 := tally_le
    rw [hc.tally_hasSeq] at this
    omega
  have hsame : ∀ i, llamaKvCacheCellMax c ≤ i → st.cells i = c.cells i := by
    intro i hi
    have := hst.le
    exact hst.cell_eq (by omega) fun h => absurd h.1 (by omega)
  rw [values_congr (q := KvCell.HasSeq)
      (fun i _ hi => (hst.sound hc i hi).hasPos_iff) (fun i _ _ _ => rfl),
    values_congr (f := c.cells) (q := KvCell.HasSeq)
      (fun i _ hi => (hc.sound i hi).hasPos_iff) (fun i _ _ _ => rfl),
    ← values_add (Nat.zero_le _) hle, ← values_add (f := c.cells) (Nat.zero_le _) hle, hst.values,
    values_congr (f := st.cells) (g := c.cells) (q := KvCell.HasSeq)
      (fun i hi _ => by rw [hsame i hi]) (fun i hi _ _ => hsame i hi)]

theorem Filled.accounted {c' : KvCache} (hsize : c'.size = c.size) (hused : c'.used = c.used)
    (hcells : c'.cells = st.cells) : Accounted c' where
  used := by
    rw [hused, hc.used, KvCache.numUsed, KvCache.numUsed, hsize, hcells, ← card_values,
      ← card_values]
    exact congrArg Multiset.card (hst.values_hasPos hc).symm
  sound := by
    rw [hsize, hcells]
    exact hst.sound hc

end

/-- A defragmentation keeps the accounts, and does not abort. -/
theorem Accounted.defrag {c : KvCache} (hc : Accounted c) {maxMoves : Nat}
    (hmoves : 0 < maxMoves) :
    ∃ c' ids, llamaKvCacheDefragInternal c maxMoves = some (c', ids) ∧ Accounted c' ∧
      (c'.head = c.head ∨ c'.head = c.used) ∧
      c' = { c with cells := c'.cells, head := c'.head } := by
  obtain ⟨st, k, hvars, hst, -⟩ := defragVars_filled hc hmoves
  refine ⟨_, _, by rw [llamaKvCacheDefragInternal_eq, hvars]; rfl, ?_, hst.head, rfl⟩
  exact hst.accounted hc rfl rfl rfl

end PxqLlama.Kv

/-!
## The accounts of a cache hold over every run

`RunOk` is the invariant: a snapshot that is saved has its accounts right too, so that a
restore brings back a cache that has. `cacheStep_ok` is one call, and `cache_accounting` every
run from the empty cache.
-/

namespace PxqLlama.Kv

open Tally

/-- A cache of the size, without recurrent state, with its accounts right. -/
structure CacheOk (n : Nat) (c : KvCache) : Prop where
  size : c.size = n
  recurrent : c.recurrent = false
  qnextSlots : c.qnextSlots = 0
  head : c.head ≤ n
  accounted : Accounted c

/-- The cache is right, and so is the one that a restore brings back. -/
structure RunOk (n : Nat) (c : CkptCache) : Prop where
  cache : CacheOk n c.cache
  ckpt : ∀ ckpt, c.ckpt = some ckpt →
    CacheOk n { c.cache with cells := ckpt.cells, head := ckpt.head, used := ckpt.used }

section
variable {size : Nat}

theorem accounted_init (hybrid : Bool) : Accounted (llamaKvCacheInit false hybrid 0 size) where
  used := by
    symm
    apply tally_eq_zero
    intro i _ hi
    simp only [llamaKvCacheInit, KvCell.HasPos]
    split <;> simp
  sound := by
    intro i hi
    simp only [llamaKvCacheInit, KvCell.Sound]
    split <;> simp

theorem runOk_init (hybrid : Bool) :
    RunOk size { cache := llamaKvCacheInit false hybrid 0 size, ckpt := none } where
  cache := ⟨rfl, rfl, rfl, Nat.zero_le _, accounted_init hybrid⟩
  ckpt := by
    intro ckpt hsome
    cases hsome

/-- A call that replaces the cache and keeps the snapshot. -/
theorem RunOk.of_cache {c : CkptCache} (hc : RunOk size c) {cache : KvCache}
    (hcache : CacheOk size cache) : RunOk size { c with cache := cache } where
  cache := hcache
  ckpt := by
    intro ckpt hsome
    obtain ⟨_, _, _, hhead, hacc⟩ := hc.ckpt ckpt hsome
    refine ⟨hcache.size, hcache.recurrent, hcache.qnextSlots, hhead, ?_⟩
    -- the accounts of the snapshot are about its own cells and count
    have hsize : cache.size = c.cache.size := hcache.size.trans hc.cache.size.symm
    exact hacc.of_cells hsize rfl (fun _ _ => Iff.rfl) hacc.sound

/-- One call does not abort, and keeps the invariant. -/
theorem cacheStep_ok {c : CkptCache} (hsize : size < 2 ^ 32) (hc : RunOk size c) {op : CacheOp}
    (hop : op.Ok) : ∃ c', cacheStep c op = some c' ∧ RunOk size c' := by
  obtain ⟨hsz, hrec, hqnext, hhead, hacc⟩ := hc.cache
  have hlt : c.cache.size < 2 ^ 32 := by rw [hsz]; exact hsize
  have hle : c.cache.head ≤ c.cache.size := by rw [hsz]; exact hhead
  cases op with
  | findSlot b =>
    have hfound := findSlot_allocated (b := b) hrec hle
    refine ⟨_, rfl, hc.of_cache ?_⟩
    have hacc' := hfound.accounted hacc hlt hop
    obtain ⟨hsize', hrec', hqnext', hhead'⟩ := hfound.shape
    exact ⟨hsize'.trans hsz, hrec'.trans hrec, hqnext'.trans hqnext, hsz ▸ hhead', hacc'⟩
  | edit e =>
    obtain ⟨c', happly, hedit⟩ := e.apply_edited hrec hqnext
    refine ⟨_, by rw [cacheStep, happly]; rfl, hc.of_cache ?_⟩
    refine ⟨hedit.size.trans hsz, hedit.recurrent.trans hrec, hedit.qnextSlots.trans hqnext,
      hsz ▸ hedit.head hle, hacc.edit hrec hlt hqnext hop happly⟩
  | defrag maxMoves =>
    obtain ⟨c', ids, hdefrag, hacc', hhead', heq⟩ := hacc.defrag hop
    refine ⟨_, by rw [cacheStep, hdefrag]; rfl, hc.of_cache ?_⟩
    have hused : c.cache.used ≤ size := by
      rw [hacc.used, ← hsz]
      exact numUsed_le _
    refine ⟨by rw [heq]; exact hsz, by rw [heq]; exact hrec, by rw [heq]; exact hqnext, ?_, hacc'⟩
    show c'.head ≤ size
    rcases hhead' with h | h <;> omega
  | save =>
    refine ⟨_, rfl, hc.cache, ?_⟩
    intro ckpt hsome
    cases hsome
    exact hc.cache
  | restore =>
    refine ⟨_, rfl, ?_⟩
    rw [checkpointRestore]
    split
    · exact hc
    · rename_i ckpt hsome
      exact hc.of_cache (hc.ckpt ckpt hsome)
  | delete =>
    refine ⟨_, rfl, hc.cache, ?_⟩
    intro ckpt hsome
    cases hsome

theorem cacheRun_ok {c : CkptCache} (hsize : size < 2 ^ 32) (hc : RunOk size c)
    {ops : List CacheOp} (hops : ∀ op ∈ ops, op.Ok) :
    ∃ c', cacheRun c ops = some c' ∧ RunOk size c' := by
  induction ops generalizing c with
  | nil => exact ⟨c, rfl, hc⟩
  | cons op ops ih =>
    obtain ⟨c₁, hstep, hc₁⟩ := cacheStep_ok hsize hc (hops op (List.mem_cons_self ..))
    obtain ⟨c', hrun, hc'⟩ := ih hc₁ fun op' hop' => hops op' (List.mem_cons_of_mem _ hop')
    refine ⟨c', ?_, hc'⟩
    rw [cacheRun, hstep]
    exact hrun

end

/-- **The accounts of the cells are right after every run.** From the empty cache, every run of
allocations, edits, defragmentations and checkpoint steps ends without an assertion. Then
`used` is the number of cells with a position, and a cell has a position exactly when it has a
sequence. -/
theorem cache_accounting {size : Nat} (hsize : size < 2 ^ 32) (hybrid : Bool)
    {ops : List CacheOp} (hops : ∀ op ∈ ops, op.Ok) :
    ∃ c, cacheRun { cache := llamaKvCacheInit false hybrid 0 size, ckpt := none } ops = some c ∧
      c.cache.size = size ∧
      c.cache.used = ((Finset.range size).filter fun i => 0 ≤ (c.cache.cells i).pos).card ∧
      ∀ i < size, 0 ≤ (c.cache.cells i).pos ↔ (c.cache.cells i).seqId.Nonempty := by
  obtain ⟨c, hrun, hc⟩ := cacheRun_ok hsize (runOk_init hybrid) hops
  refine ⟨c, hrun, hc.cache.size, ?_, ?_⟩
  · rw [hc.cache.accounted.used, KvCache.numUsed, hc.cache.size, Finset.range_eq_Ico]
    rfl
  · rw [← hc.cache.size]
    exact hc.cache.accounted.sound

/-- Two tokens, a shift that pushes one of them below zero, and a defragmentation. -/
theorem cache_accounting_shifted :
    (∀ op ∈ [CacheOp.findSlot [⟨0, [0]⟩, ⟨1, [0]⟩], .edit (.add 0 0 (-1) (-1)), .defrag 1], op.Ok) ∧
    ∃ c, cacheRun { cache := llamaKvCacheInit false false 0 4, ckpt := none }
        [.findSlot [⟨0, [0]⟩, ⟨1, [0]⟩], .edit (.add 0 0 (-1) (-1)), .defrag 1] = some c ∧
      c.cache.size = 4 ∧
      c.cache.used = ((Finset.range 4).filter fun i => 0 ≤ (c.cache.cells i).pos).card ∧
      ∀ i < 4, 0 ≤ (c.cache.cells i).pos ↔ (c.cache.cells i).seqId.Nonempty := by
  have hops : ∀ op ∈ [CacheOp.findSlot [⟨0, [0]⟩, ⟨1, [0]⟩], .edit (.add 0 0 (-1) (-1)), .defrag 1],
      op.Ok := by
    simp [CacheOp.Ok, SeqEdit.Ok]
  exact ⟨hops, cache_accounting (by decide) false hops⟩

end PxqLlama.Kv
