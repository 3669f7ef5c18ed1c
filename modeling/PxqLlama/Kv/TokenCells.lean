import Mathlib.Data.List.Basic
import PxqLlama.Kv.Cache

/-!
# `Kv.TokenCells`: the cells of one sequence with their tokens

What a reader of the cache can tell of one sequence of an attention cache: the cells that hold it,
each with its position and the token that it was computed for, in the order in which they were
filled. Where they lie in the cache does not matter here.

`HoldsTokens` says that the cells are those of a list of tokens, token `i` at position `i`. The lemmas
say what the edits of the cache do to such cells.
-/

namespace PxqLlama.Kv

structure TokenCell where
  pos : Int
  token : Int
deriving DecidableEq, Repr

/-- The cell lies in the range from `p0` to `p1`, where a negative `p1` stands for the end. -/
def TokenCell.inRange (p0 p1 : Int) (c : TokenCell) : Prop :=
  (if p0 < 0 then 0 else p0) ≤ c.pos ∧ c.pos < if p1 < 0 then posMax else p1

instance (p0 p1 : Int) (c : TokenCell) : Decidable (c.inRange p0 p1) :=
  inferInstanceAs (Decidable (_ ∧ _))

/-- `llama_kv_cache_seq_rm` on the cells of the sequence. -/
def tokenSeqRm (cells : List TokenCell) (p0 p1 : Int) : List TokenCell :=
  cells.filter fun c => ¬ c.inRange p0 p1

/-- A cell in the shift of a range: it is freed when its position gets negative. -/
def shiftCell (p0 p1 delta : Int) (c : TokenCell) : Option TokenCell :=
  if c.inRange p0 p1 then
    if c.pos + delta < 0 then none else some { c with pos := c.pos + delta }
  else some c

/-- `llama_kv_cache_seq_add` on the cells of the sequence. Its early return on an empty range
changes nothing. -/
def tokenSeqAdd (cells : List TokenCell) (p0 p1 delta : Int) : List TokenCell :=
  cells.filterMap (shiftCell p0 p1 delta)

/-- The cells of the tokens, the first one at the position `p`. -/
def cellsFrom (p : Int) : List Int → List TokenCell
  | [] => []
  | t :: ts => { pos := p, token := t } :: cellsFrom (p + 1) ts

/-- The cells hold the tokens, one at each position from 0 on. -/
def HoldsTokens (cells : List TokenCell) (tokens : List Int) : Prop := cells = cellsFrom 0 tokens

/-! ### Cells of consecutive positions -/

@[simp] theorem length_cellsFrom (p : Int) (ts : List Int) :
    (cellsFrom p ts).length = ts.length := by
  induction ts generalizing p with
  | nil => rfl
  | cons t ts ih => rw [cellsFrom, List.length_cons, ih, List.length_cons]

theorem cellsFrom_append (p : Int) (a b : List Int) :
    cellsFrom p (a ++ b) = cellsFrom p a ++ cellsFrom (p + a.length) b := by
  induction a generalizing p with
  | nil => simp [cellsFrom]
  | cons t a ih =>
    rw [List.cons_append, cellsFrom, cellsFrom, ih, List.cons_append, List.length_cons]
    congr 3
    omega

theorem mem_cellsFrom {p : Int} {ts : List Int} {c : TokenCell} (h : c ∈ cellsFrom p ts) :
    p ≤ c.pos ∧ c.pos < p + ts.length := by
  induction ts generalizing p with
  | nil => cases h
  | cons t ts ih =>
    rw [List.length_cons]
    rcases List.mem_cons.1 h with rfl | h
    · show p ≤ p ∧ p < p + ((ts.length + 1 : Nat) : Int)
      omega
    · have := ih h
      omega

/-! ### Edits -/

theorem inRange_iff {p0 p1 : Int} {c : TokenCell} (h0 : 0 ≤ p0) :
    c.inRange p0 p1 ↔ p0 ≤ c.pos ∧ c.pos < if p1 < 0 then posMax else p1 := by
  rw [TokenCell.inRange, if_neg (Int.not_lt.2 h0)]

theorem tokenSeqRm_append (a b : List TokenCell) (p0 p1 : Int) :
    tokenSeqRm (a ++ b) p0 p1 = tokenSeqRm a p0 p1 ++ tokenSeqRm b p0 p1 :=
  List.filter_append ..

/-- A range without a cell in it. -/
theorem tokenSeqRm_of_outside {cells : List TokenCell} {p0 p1 : Int}
    (h : ∀ c ∈ cells, ¬ c.inRange p0 p1) : tokenSeqRm cells p0 p1 = cells := by
  rw [tokenSeqRm, List.filter_eq_self]
  exact fun c hc => decide_eq_true (h c hc)

/-- A range that holds all cells. -/
theorem tokenSeqRm_of_inside {cells : List TokenCell} {p0 p1 : Int}
    (h : ∀ c ∈ cells, c.inRange p0 p1) : tokenSeqRm cells p0 p1 = [] := by
  rw [tokenSeqRm, List.filter_eq_nil_iff]
  intro c hc
  simp [h c hc]

/-- The shift of consecutive cells that all lie in the range. -/
theorem tokenSeqAdd_of_inside {p p0 p1 delta : Int} {ts : List Int} (hlow : 0 ≤ p + delta)
    (h : ∀ c ∈ cellsFrom p ts, c.inRange p0 p1) :
    tokenSeqAdd (cellsFrom p ts) p0 p1 delta = cellsFrom (p + delta) ts := by
  rw [tokenSeqAdd]
  induction ts generalizing p with
  | nil => rfl
  | cons t ts ih =>
    obtain ⟨hone, hrest⟩ := List.forall_mem_cons.1 h
    have hshift : shiftCell p0 p1 delta { pos := p, token := t } =
        some { pos := p + delta, token := t } :=
      (if_pos hone).trans (if_neg (Int.not_lt.2 hlow))
    rw [cellsFrom, cellsFrom, List.filterMap_cons, hshift]
    show _ :: _ = _
    rw [ih (by omega) hrest, show p + 1 + delta = p + delta + 1 by omega]

/-! ### Cells that mirror a list of tokens -/

namespace HoldsTokens

variable {cells : List TokenCell} {tokens : List Int}

theorem length (h : HoldsTokens cells tokens) : cells.length = tokens.length := by
  rw [h, length_cellsFrom]

/-- Tokens that are decoded at the end. -/
theorem append (h : HoldsTokens cells tokens) {p : Int} (hp : p = tokens.length) (ts : List Int) :
    HoldsTokens (cells ++ cellsFrom p ts) (tokens ++ ts) := by
  rw [HoldsTokens, cellsFrom_append, ← h, hp, Int.zero_add]

/-- The tokens from a place on are removed. -/
theorem take (h : HoldsTokens cells tokens) {n : Nat} (hmax : (tokens.length : Int) ≤ posMax) :
    HoldsTokens (tokenSeqRm cells n (-1)) (tokens.take n) := by
  have hsplit : cells = cellsFrom 0 (tokens.take n) ++ cellsFrom (tokens.take n).length
      (tokens.drop n) := by
    rw [h, ← List.take_append_drop n tokens, cellsFrom_append, Int.zero_add,
      List.take_append_drop]
  have hlen := @List.length_take _ n tokens
  have hrest := @List.length_drop _ n tokens
  rw [HoldsTokens, hsplit, tokenSeqRm_append, tokenSeqRm_of_outside, tokenSeqRm_of_inside,
    List.append_nil]
  · intro c hc
    have := mem_cellsFrom hc
    rw [inRange_iff (Int.natCast_nonneg n), if_pos (by decide)]
    omega
  · intro c hc
    have := mem_cellsFrom hc
    rw [inRange_iff (Int.natCast_nonneg n)]
    omega

/-- The first tokens are removed, and the others are moved to the front. -/
theorem drop (h : HoldsTokens cells tokens) {n : Nat} (hn : n ≤ tokens.length)
    (hmax : (tokens.length : Int) ≤ posMax) :
    HoldsTokens (tokenSeqAdd (tokenSeqRm cells 0 n) n (-1) (-n)) (tokens.drop n) := by
  have hsplit : cells = cellsFrom 0 (tokens.take n) ++ cellsFrom n (tokens.drop n) := by
    rw [h, ← List.take_append_drop n tokens, cellsFrom_append, Int.zero_add,
      List.take_append_drop, List.length_take, Nat.min_eq_left hn]
  have hlen := @List.length_take _ n tokens
  have hrest := @List.length_drop _ n tokens
  have hmoved : ∀ c ∈ cellsFrom n (tokens.drop n), c.inRange n (-1) := by
    intro c hc
    have := mem_cellsFrom hc
    rw [inRange_iff (Int.natCast_nonneg n), if_pos (by decide)]
    omega
  rw [hsplit, tokenSeqRm_append, tokenSeqRm_of_inside, tokenSeqRm_of_outside, List.nil_append,
    HoldsTokens, tokenSeqAdd_of_inside (by omega) hmoved, Int.add_right_neg]
  · intro c hc
    have := mem_cellsFrom hc
    rw [inRange_iff (Int.le_refl 0), if_neg (Int.not_lt.2 (Int.natCast_nonneg n))]
    omega
  · intro c hc
    have := mem_cellsFrom hc
    rw [inRange_iff (Int.le_refl 0), if_neg (Int.not_lt.2 (Int.natCast_nonneg n))]
    omega

end HoldsTokens

end PxqLlama.Kv
