import PxqLlama.Kv.FindSlot

/-!
# `Kv.Defrag`: filling the holes

`llama_kv_cache_defrag_internal` fills the holes among the first `used` cells with cells
from the end of the cache. `ids[i]` is the cell that cell `i` moves to; `n_kv` stands for
"not moved". Only the metadata is modelled: `ids` is what the graph is built from.

The three inner loops are `holeSize`, `findSource` and `moveCells`; `defragLoop` is the
outer one.
-/

namespace PxqLlama.Kv

/-- The variables of the outer loop. -/
structure DefragState where
  cells : Nat → KvCell
  ids : Nat → Nat
  head : Nat
  nMoves : Nat

/-- "determine the size of the hole" -/
def holeSize (cells : Nat → KvCell) (nUsed i0 : Nat) : Nat → Nat → Nat
  | 0, nh => nh
  | fuel + 1, nh =>
    if i0 + nh < nUsed ∧ (cells (i0 + nh)).isEmpty then holeSize cells nUsed i0 fuel (nh + 1)
    else nh

/-- Cell `i` is not there to be moved: it is empty, or it has moved or stays. -/
def DefragState.skips (st : DefragState) (nKv i : Nat) : Bool :=
  (st.cells i).isEmpty || decide (st.ids i ≠ nKv)

/-- "starting from the end, find nh non-empty cells": where the search ends, and how many
it found. -/
def findSource (st : DefragState) (nKv i0 nh : Nat) : Nat → Nat → Nat × Nat
  | 0, nf => (0, nf)
  | is + 1, nf =>
    if is + 1 ≤ i0 then (is + 1, nf)
    else if st.skips nKv (is + 1) then findSource st nKv i0 nh is nf
    else if nf + 1 = nh then (is + 1, nf + 1)
    else findSource st nKv i0 nh is (nf + 1)

/-- "go back and move the nf cells to the hole": the state, and whether to stop. -/
def moveCells (nKv nUsed maxMoves i0 nh : Nat) :
    Nat → Nat → Nat → Bool → DefragState → DefragState × Bool
  | 0, _, _, _, st => (st, false)
  | fuel + 1, i1, nf, cont, st =>
    if nKv ≤ i1 then (st, false)
    else if st.skips nKv i1 then
      if st.nMoves = maxMoves then (st, true)
      else moveCells nKv nUsed maxMoves i0 nh fuel (i1 + 1) nf false st
    else
      let cells := Function.update st.cells (i0 + nf) (st.cells i1)
      let st : DefragState := {
        ids := Function.update st.ids i1 (i0 + nf)
        -- move the cell meta data, clear the old cell and move the head there
        cells := Function.update cells i1 {}
        head := nUsed
        nMoves := if cont then st.nMoves else st.nMoves + 1 }
      if nf + 1 = nh then (st, false)
      else moveCells nKv nUsed maxMoves i0 nh fuel (i1 + 1) (nf + 1) true st

/-- The outer loop; `none` when `GGML_ASSERT(nf == nh)` fails. -/
def defragLoop (nKv nUsed maxMoves : Nat) : Nat → Nat → DefragState → Option DefragState
  | 0, _, st => some st
  | fuel + 1, i0, st =>
    if nUsed ≤ i0 then some st
    else if (st.cells i0).isEmpty = false then
      defragLoop nKv nUsed maxMoves fuel (i0 + 1)
        { st with ids := Function.update st.ids i0 i0 }
    else
      let nh := holeSize st.cells nUsed i0 nUsed 1
      let (is, nf) := findSource st nKv i0 nh (nKv - 1) 0
      if nf ≠ nh then none
      else
        let (st, stop) := moveCells nKv nUsed maxMoves i0 nh nKv is 0 false st
        if stop ∨ st.nMoves = maxMoves then some st
        else defragLoop nKv nUsed maxMoves fuel (i0 + nh) st

/-- `llama_kv_cache_defrag_internal`: the cache, and the moves that the graph makes. It
asserts that no more cells are used than the cache extends to. -/
def llamaKvCacheDefragInternal (c : KvCache) (maxMoves : Nat) :
    Option (KvCache × (Nat → Nat)) :=
  let nKv := llamaKvCacheCellMax c
  if nKv < c.used then none
  else
    let st : DefragState := { cells := c.cells, ids := fun _ => nKv, head := c.head, nMoves := 0 }
    match defragLoop nKv c.used maxMoves (c.used + 1) 0 st with
    | none => none
    | some st => some ({ c with cells := st.cells, head := st.head }, st.ids)

/-- The variables of `llama_kv_cache_defrag_internal` after its loops. -/
def defragVars (c : KvCache) (maxMoves : Nat) : Option DefragState :=
  let nKv := llamaKvCacheCellMax c
  if nKv < c.used then none
  else
    defragLoop nKv c.used maxMoves (c.used + 1) 0
      { cells := c.cells, ids := fun _ => nKv, head := c.head, nMoves := 0 }

/-- The whole function, from what its loop leaves. -/
theorem llamaKvCacheDefragInternal_eq (c : KvCache) (maxMoves : Nat) :
    llamaKvCacheDefragInternal c maxMoves
      = (defragVars c maxMoves).map fun st =>
          ({ c with cells := st.cells, head := st.head }, st.ids) := by
  rw [llamaKvCacheDefragInternal, defragVars]
  simp only
  split
  · rfl
  · split
    · rename_i hnone
      rw [hnone]
      rfl
    · rename_i hsome
      rw [hsome]
      rfl

theorem llamaKvCacheDefragInternal_shape {c c' : KvCache} {maxMoves : Nat} {ids : Nat → Nat}
    (h : llamaKvCacheDefragInternal c maxMoves = some (c', ids)) :
    c'.size = c.size ∧ c'.recurrent = c.recurrent := by
  rw [llamaKvCacheDefragInternal] at h
  simp only at h
  split at h
  · cases h
  · split at h
    · cases h
    · cases h
      exact ⟨rfl, rfl⟩

end PxqLlama.Kv
