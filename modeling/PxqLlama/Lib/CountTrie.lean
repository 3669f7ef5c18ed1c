import Mathlib.Data.List.Infix

/-!
# `Lib.CountTrie`: tries that count

Each node of a `CountTrie` holds a number and its children, one for each key. A path is put in by
entering its nodes one after another (`bump`): a node that is there counts one more, and a node
that is missing is made with the count one. `bumpBelow` walks a first part of the path without
counting.

What is said about a trie is the count at the end of each path (`countAt`). `countAt_bumpBelow`
says which counts go up, and with `Positive` (no node below the root counts zero) the counts also
say which paths are there (`find?_isSome_iff`).
-/

inductive CountTrie (κ : Type) where
  | node (count : Nat) (children : List (κ × CountTrie κ))

namespace CountTrie

/-! ### Children -/

section

variable {κ : Type}

def count : CountTrie κ → Nat
  | node n _ => n

def children : CountTrie κ → List (κ × CountTrie κ)
  | node _ cs => cs

/-- The root of a trie without paths. -/
def empty : CountTrie κ := node 0 []

/-- One more entry into a node. -/
def enter (t : CountTrie κ) : CountTrie κ := node (t.count + 1) t.children

@[simp] theorem count_node (n : Nat) (cs : List (κ × CountTrie κ)) : (node n cs).count = n := rfl

@[simp] theorem children_node (n : Nat) (cs : List (κ × CountTrie κ)) :
    (node n cs).children = cs := rfl

@[simp] theorem count_enter (t : CountTrie κ) : t.enter.count = t.count + 1 := rfl

end

variable {κ : Type} [DecidableEq κ]

/-- The value of a key is replaced where the key is there, and added where it is not. -/
def upsert {α : Type} (k : κ) (a : α) : List (κ × α) → List (κ × α)
  | [] => [(k, a)]
  | (k', a') :: es => if k = k' then (k, a) :: es else (k', a') :: upsert k a es

/-- Looking up after an upsert. -/
theorem lookup_upsert {α : Type} (k k' : κ) (a : α) (es : List (κ × α)) :
    (upsert k a es).lookup k' = if k' = k then some a else es.lookup k' := by
  induction es with
  | nil => by_cases hk : k' = k <;> simp [upsert, List.lookup_cons, beq_eq_decide, hk]
  | cons e es ih =>
    obtain ⟨ke, ae⟩ := e
    by_cases hk : k = ke
    · subst hk
      by_cases hk' : k' = k <;> simp [upsert, List.lookup_cons, beq_eq_decide, hk']
    · by_cases hk' : k' = ke
      · subst hk'
        have hne : k' ≠ k := fun h => hk h.symm
        simp [upsert, hk, hne]
      · simp [upsert, hk, hk', List.lookup_cons, beq_eq_decide, ih]

def child (t : CountTrie κ) (k : κ) : Option (CountTrie κ) := t.children.lookup k

def setChild (t : CountTrie κ) (k : κ) (c : CountTrie κ) : CountTrie κ :=
  node t.count (upsert k c t.children)

@[simp] theorem count_setChild (t : CountTrie κ) (k : κ) (c : CountTrie κ) :
    (t.setChild k c).count = t.count := rfl

theorem child_setChild (t : CountTrie κ) (k k' : κ) (c : CountTrie κ) :
    (t.setChild k c).child k' = if k' = k then some c else t.child k' :=
  lookup_upsert k k' c t.children

@[simp] theorem child_empty (k : κ) : (empty : CountTrie κ).child k = none := rfl

@[simp] theorem child_enter (t : CountTrie κ) (k : κ) : t.enter.child k = t.child k := rfl

variable {t : CountTrie κ} {w : List κ}

variable {c : CountTrie κ}

theorem child_isSome {k : κ} (h : (k, c) ∈ t.children) : (t.child k).isSome := by
  have hlookup : ∀ es : List (κ × CountTrie κ), (k, c) ∈ es → (es.lookup k).isSome := by
    intro es hmem
    induction es with
    | nil => cases hmem
    | cons e es ih =>
      rw [List.lookup_cons]
      by_cases hk : k = e.1
      · simp [hk]
      · have htail : (k, c) ∈ es := by
          rcases List.mem_cons.1 hmem with rfl | htail
          · exact absurd rfl hk
          · exact htail
        simp [beq_eq_decide, hk, ih htail]
  exact hlookup _ h

/-! ### Paths -/

/-- The node at the end of a path. -/
def find? : CountTrie κ → List κ → Option (CountTrie κ)
  | t, [] => some t
  | t, k :: ks =>
    match t.child k with
    | some c => c.find? ks
    | none => none

/-- The count at the end of a path, zero where there is none. -/
def countAt (t : CountTrie κ) (w : List κ) : Nat :=
  match t.find? w with
  | some c => c.count
  | none => 0

/-- The nodes of the path are entered, and made where they are missing. -/
def bump : List κ → CountTrie κ → CountTrie κ
  | [], t => t
  | k :: ks, t =>
    match t.child k with
    | some c => t.setChild k (bump ks c.enter)
    | none => t.setChild k (bump ks (node 1 []))

/-- The first path is walked, and the second entered below it. Nothing changes where the first one
is not there. -/
def bumpBelow : List κ → List κ → CountTrie κ → CountTrie κ
  | [], ks, t => bump ks t
  | q :: qs, ks, t =>
    match t.child q with
    | some c => t.setChild q (bumpBelow qs ks c)
    | none => t

@[simp] theorem find?_nil (t : CountTrie κ) : t.find? [] = some t := rfl

theorem find?_cons (t : CountTrie κ) (k : κ) (ks : List κ) :
    t.find? (k :: ks) = (t.child k).bind fun c => c.find? ks := by
  rw [find?]
  cases t.child k <;> rfl

theorem find?_append (t : CountTrie κ) (v w : List κ) :
    t.find? (v ++ w) = (t.find? v).bind fun c => c.find? w := by
  induction v generalizing t with
  | nil => rfl
  | cons k v ih =>
    rw [List.cons_append, find?_cons, find?_cons]
    cases t.child k with
    | none => rfl
    | some c => exact ih c

@[simp] theorem countAt_nil (t : CountTrie κ) : t.countAt [] = t.count := rfl

theorem countAt_cons (t : CountTrie κ) (k : κ) (ks : List κ) :
    t.countAt (k :: ks) = (t.child k).elim 0 fun c => c.countAt ks := by
  rw [countAt, find?_cons]
  cases t.child k <;> rfl

theorem countAt_of_find? (h : t.find? w = some c) : t.countAt w = c.count := by
  rw [countAt, h]

@[simp] theorem countAt_empty (w : List κ) : (empty : CountTrie κ).countAt w = 0 := by
  cases w with
  | nil => rfl
  | cons k ks => rw [countAt_cons, child_empty, Option.elim_none]

/-- Entering a node changes its own count only. -/
theorem countAt_enter (t : CountTrie κ) (h : w ≠ []) : t.enter.countAt w = t.countAt w := by
  cases w with
  | nil => exact absurd rfl h
  | cons k ks => rw [countAt_cons, countAt_cons, child_enter]

theorem countAt_setChild (t : CountTrie κ) (k k' : κ) (c : CountTrie κ) (ks : List κ) :
    (t.setChild k c).countAt (k' :: ks) =
      if k' = k then c.countAt ks else t.countAt (k' :: ks) := by
  rw [countAt_cons, countAt_cons, child_setChild]
  by_cases hk : k' = k <;> simp [hk]

/-! ### Entering a path -/

@[simp] theorem count_bump (p : List κ) (t : CountTrie κ) : (bump p t).count = t.count := by
  cases p with
  | nil => rfl
  | cons k ks =>
    rw [bump]
    cases t.child k <;> rfl

/-- The counts that go up are those of the first parts of the path. -/
theorem countAt_bump (p : List κ) (t : CountTrie κ) (hw : w ≠ []) :
    (bump p t).countAt w = t.countAt w + if w <+: p then 1 else 0 := by
  induction p generalizing t w with
  | nil => simp [bump, hw]
  | cons k ks ih =>
    obtain ⟨k', ws, rfl⟩ := List.exists_cons_of_ne_nil hw
    -- The child that the path goes through, as it is after its own entry.
    have hchild : ∀ c : CountTrie κ, (bump ks c.enter).countAt ws =
        c.countAt ws + if ws <+: ks then 1 else 0 := by
      intro c
      by_cases hws : ws = []
      · subst hws
        simp
      · rw [ih c.enter hws, countAt_enter c hws]
    by_cases hk : k' = k
    · subst hk
      rw [bump, countAt_cons t]
      cases hc : t.child k' with
      | some c => simp [countAt_setChild, hchild, List.cons_prefix_cons]
      | none =>
        have hnew : (bump ks (node 1 [])).countAt ws = _ := hchild empty
        rw [countAt_empty] at hnew
        simpa [countAt_setChild, List.cons_prefix_cons] using hnew
    · have hne : ¬ k' :: ws <+: k :: ks := by simp [List.cons_prefix_cons, hk]
      rw [bump, if_neg hne]
      cases t.child k <;> simp [countAt_setChild, hk]

@[simp] theorem count_bumpBelow (q p : List κ) (t : CountTrie κ) :
    (bumpBelow q p t).count = t.count := by
  cases q with
  | nil => exact count_bump p t
  | cons k q =>
    rw [bumpBelow]
    cases t.child k <;> rfl

/-- The counts that go up are those of the paths that end in the second part. -/
theorem countAt_bumpBelow (q p : List κ) (t : CountTrie κ) (hq : (t.find? q).isSome) (hw : w ≠ []) :
    (bumpBelow q p t).countAt w =
      t.countAt w + if q <+: w ∧ w ≠ q ∧ w <+: q ++ p then 1 else 0 := by
  induction q generalizing t w with
  | nil => simp [bumpBelow, countAt_bump p t hw, hw]
  | cons k q ih =>
    obtain ⟨k', ws, rfl⟩ := List.exists_cons_of_ne_nil hw
    rw [find?_cons] at hq
    cases hc : t.child k with
    | none => simp [hc] at hq
    | some c =>
      rw [hc, Option.bind_some] at hq
      rw [bumpBelow, hc]
      show (t.setChild k (bumpBelow q p c)).countAt (k' :: ws) = _
      rw [countAt_setChild]
      by_cases hk : k' = k
      · subst hk
        rw [if_pos rfl, countAt_cons, hc, Option.elim_some]
        by_cases hws : ws = []
        · -- The child itself lies on the part that is only walked.
          subst hws
          cases q <;> simp
        · rw [ih c hq hws]
          simp [List.cons_prefix_cons]
      · have hne : ¬ k :: q <+: k' :: ws := by
          simp [List.cons_prefix_cons, Ne.symm hk]
        simp [hk, hne]

/-! ### Nodes that were entered -/

/-- No node below the root has the count zero. -/
def Positive (t : CountTrie κ) : Prop :=
  ∀ w c, w ≠ [] → t.find? w = some c → c.count ≠ 0

theorem positive_empty : (empty : CountTrie κ).Positive := by
  intro w c hw hfind
  cases w with
  | nil => exact absurd rfl hw
  | cons k ks => rw [find?_cons, child_empty] at hfind; cases hfind

theorem Positive.child {k : κ} (h : t.Positive) (hc : t.child k = some c) :
    c.count ≠ 0 ∧ c.Positive := by
  constructor
  · refine h [k] c (by simp) ?_
    rw [find?_cons, hc]
    rfl
  · intro w c' _ hfind
    refine h (k :: w) c' (by simp) ?_
    rw [find?_cons, hc]
    exact hfind

/-- A child that counts keeps all counts positive. -/
theorem Positive.setChild (h : t.Positive) (k : κ) (hcount : c.count ≠ 0) (hc : c.Positive) :
    (t.setChild k c).Positive := by
  intro w c' hw hfind
  obtain ⟨k', ws, rfl⟩ := List.exists_cons_of_ne_nil hw
  rw [find?_cons, child_setChild] at hfind
  by_cases hk : k' = k
  · rw [if_pos hk, Option.bind_some] at hfind
    by_cases hws : ws = []
    · subst hws
      cases hfind
      exact hcount
    · exact hc ws c' hws hfind
  · rw [if_neg hk] at hfind
    exact h (k' :: ws) c' hw (by rw [find?_cons]; exact hfind)

theorem Positive.enter (h : t.Positive) : t.enter.Positive := by
  intro w c hw hfind
  obtain ⟨k, ks, rfl⟩ := List.exists_cons_of_ne_nil hw
  exact h (k :: ks) c hw hfind

theorem Positive.bump (h : t.Positive) (p : List κ) : (bump p t).Positive := by
  induction p generalizing t with
  | nil => exact h
  | cons k ks ih =>
    rw [CountTrie.bump]
    cases hc : t.child k with
    | some c => exact h.setChild k (by simp) (ih (h.child hc).2.enter)
    | none => exact h.setChild k (by simp) (ih positive_empty.enter)

theorem Positive.bumpBelow (h : t.Positive) (q p : List κ) : (bumpBelow q p t).Positive := by
  induction q generalizing t with
  | nil => exact h.bump p
  | cons k q ih =>
    rw [CountTrie.bumpBelow]
    cases hc : t.child k with
    | none => exact h
    | some c =>
      refine h.setChild k ?_ (ih (h.child hc).2)
      rw [count_bumpBelow]
      exact (h.child hc).1

/-- The paths that are there are those with a count. -/
theorem find?_isSome_iff (h : t.Positive) (hw : w ≠ []) : (t.find? w).isSome ↔ t.countAt w ≠ 0 := by
  rw [countAt]
  cases hfind : t.find? w with
  | none => simp
  | some c => simpa using h w c hw hfind

end CountTrie
