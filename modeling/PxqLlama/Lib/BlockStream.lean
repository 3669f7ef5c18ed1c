import Mathlib.Data.List.Basic

/-!
# `Lib.BlockStream`: streams of blocks that are opened, filled and closed

A stream carries several blocks. Each of its pieces opens a block, adds to it or closes it, and
names the block by an index. The sender knows which block it means (`Piece.block`), the receiver
only has the index. A stream is well blocked when a receiver can take it apart: the pieces of one
index open once, add, and close once (`Bracketed`), and no index stands for two blocks.

`wellBlocked_iff` brings this to the sender's side: the pieces of each block are bracketed, and
indices and blocks correspond. `Grows` is the rule for a sender that keeps a flag for a block and
opens it before the first addition.
-/

namespace BlockStream

/-- What a piece does with its block. -/
inductive Mark
  | start
  | delta
  | stop
deriving DecidableEq, Repr

/-- A piece of a stream: the index stands in the stream, the block is what the sender means. -/
structure Piece (β : Type) where
  mark : Mark
  index : Nat
  block : β
deriving DecidableEq, Repr

/-- Opened once and first, closed once and last. -/
def Bracketed (marks : List Mark) : Prop :=
  ∃ n, marks = .start :: (List.replicate n .delta ++ [.stop])

theorem bracketed_iff_eq {marks : List Mark} :
    Bracketed marks ↔
      marks = .start :: (List.replicate (marks.length - 2) .delta ++ [.stop]) := by
  constructor
  · rintro ⟨n, rfl⟩
    simp
  · intro h
    exact ⟨_, h⟩

instance (marks : List Mark) : Decidable (Bracketed marks) :=
  decidable_of_iff _ bracketed_iff_eq.symm

section

variable {β : Type} [DecidableEq β]

/-- The marks of the pieces with an index, in order. -/
def marksAt (ps : List (Piece β)) (i : Nat) : List Mark :=
  (ps.filter fun p => p.index = i).map Piece.mark

/-- The marks of the pieces of a block, in order. -/
def marksOf (ps : List (Piece β)) (b : β) : List Mark :=
  (ps.filter fun p => p.block = b).map Piece.mark

/-- A receiver can tell the blocks apart by their indices, and each is bracketed. -/
structure WellBlocked (ps : List (Piece β)) : Prop where
  bracketed : ∀ p ∈ ps, Bracketed (marksAt ps p.index)
  distinct : ∀ p ∈ ps, ∀ q ∈ ps, p.index = q.index → p.block = q.block

/-! ### Marks -/

@[simp] theorem marksOf_nil (b : β) : marksOf ([] : List (Piece β)) b = [] := rfl

@[simp] theorem marksOf_append (ps qs : List (Piece β)) (b : β) :
    marksOf (ps ++ qs) b = marksOf ps b ++ marksOf qs b := by
  simp [marksOf]

@[simp] theorem marksOf_cons (p : Piece β) (ps : List (Piece β)) (b : β) :
    marksOf (p :: ps) b = (if p.block = b then [p.mark] else []) ++ marksOf ps b := by
  unfold marksOf
  by_cases h : p.block = b
  · rw [List.filter_cons_of_pos (by simpa using h), if_pos h]
    rfl
  · rw [List.filter_cons_of_neg (by simpa using h), if_neg h]
    rfl

variable {ps : List (Piece β)}

omit [DecidableEq β] in
theorem mem_marksAt {i : Nat} {m : Mark} :
    m ∈ marksAt ps i ↔ ∃ p ∈ ps, p.index = i ∧ p.mark = m := by
  simp [marksAt, and_assoc]

theorem Bracketed.stop_mem {marks : List Mark} (h : Bracketed marks) : Mark.stop ∈ marks := by
  obtain ⟨n, rfl⟩ := h
  simp

/-- Where indices and blocks correspond, the pieces of an index are those of a block. -/
theorem marksAt_eq_marksOf {p : Piece β} (hp : p ∈ ps)
    (hiff : ∀ p ∈ ps, ∀ q ∈ ps, p.index = q.index ↔ p.block = q.block) :
    marksAt ps p.index = marksOf ps p.block := by
  unfold marksAt marksOf
  congr 1
  apply List.filter_congr
  intro q hq
  simpa using hiff q hq p hp

/-- A stream whose sender closes each block under one index only. -/
theorem wellBlocked_iff
    (hstops : ∀ p ∈ ps, ∀ q ∈ ps, p.mark = .stop → q.mark = .stop → p.block = q.block →
      p.index = q.index) :
    WellBlocked ps ↔
      (∀ p ∈ ps, Bracketed (marksOf ps p.block)) ∧
        ∀ p ∈ ps, ∀ q ∈ ps, p.index = q.index ↔ p.block = q.block := by
  constructor
  · intro h
    -- the index of a piece is closed, and what closes it is of the same block
    have hclosed : ∀ p ∈ ps, ∃ q ∈ ps, q.mark = .stop ∧ q.index = p.index ∧ q.block = p.block := by
      intro p hp
      obtain ⟨q, hq, hindex, hmark⟩ := mem_marksAt.mp (h.bracketed p hp).stop_mem
      exact ⟨q, hq, hmark, hindex, h.distinct q hq p hp hindex⟩
    have hiff : ∀ p ∈ ps, ∀ q ∈ ps, p.index = q.index ↔ p.block = q.block := by
      intro p hp q hq
      constructor
      · exact h.distinct p hp q hq
      · intro hblock
        obtain ⟨p', hp', hpstop, hpindex, hpblock⟩ := hclosed p hp
        obtain ⟨q', hq', hqstop, hqindex, hqblock⟩ := hclosed q hq
        rw [← hpindex, ← hqindex]
        exact hstops p' hp' q' hq' hpstop hqstop (by rw [hpblock, hqblock, hblock])
    refine ⟨?_, hiff⟩
    intro p hp
    rw [← marksAt_eq_marksOf hp hiff]
    exact h.bracketed p hp
  · rintro ⟨hbracketed, hiff⟩
    refine ⟨?_, fun p hp q hq => (hiff p hp q hq).mp⟩
    intro p hp
    rw [marksAt_eq_marksOf hp hiff]
    exact hbracketed p hp

end

/-! ### Blocks with a flag -/

/-- The marks that a sender adds to a block, with its flag before and after: an open block only
gets deltas, another one is opened before its first delta. -/
def Grows (started started' : Bool) (marks : List Mark) : Prop :=
  if started then started' = true ∧ ∃ n, marks = List.replicate n .delta
  else if started' then ∃ n, marks = .start :: List.replicate n .delta
  else marks = []

namespace Grows

theorem refl (started : Bool) : Grows started started [] := by
  cases started
  · rfl
  · exact ⟨rfl, 0, rfl⟩

/-- A delta, with what opens the block when it is not open. -/
theorem add (started : Bool) :
    Grows started true ((if started then [] else [.start]) ++ [.delta]) := by
  cases started
  · exact ⟨1, rfl⟩
  · exact ⟨rfl, 1, rfl⟩

/-- Growth composes. -/
theorem append {a b c : Bool} {ms ms' : List Mark} (h : Grows a b ms) (h' : Grows b c ms') :
    Grows a c (ms ++ ms') := by
  cases a with
  | true =>
    obtain ⟨rfl, n, rfl⟩ := h
    obtain ⟨rfl, n', rfl⟩ := h'
    exact ⟨rfl, n + n', by rw [List.replicate_add]⟩
  | false =>
    cases b with
    | true =>
      obtain ⟨n, rfl⟩ := h
      obtain ⟨rfl, n', rfl⟩ := h'
      exact ⟨n + n', by rw [List.replicate_add]; rfl⟩
    | false =>
      obtain rfl : ms = [] := h
      exact h'

/-- A block that is closed at the end is bracketed when its sender opened it as it should. -/
theorem bracketed_iff {ms : List Mark} : Bracketed (ms ++ [.stop]) ↔ Grows false true ms := by
  constructor
  · rintro ⟨n, h⟩
    rw [← List.cons_append] at h
    exact ⟨n, List.append_cancel_right h⟩
  · rintro ⟨n, rfl⟩
    exact ⟨n, rfl⟩

end Grows

end BlockStream
