import Mathlib.Algebra.Group.Defs
import Mathlib.Data.List.AList

/-!
# `Lib.Maps`: maps with keys

Maps whose entries are kept in the order of their keys, maps that a loop fills key by key, and loops
that update one key at a time.
-/

/-!
## A map from numbers, in the order of its keys

The entries lie in one list whose keys increase, so a map is its list of entries, and two maps
with the same entries are equal. Inserting the entries of a map one after another into an empty
map gives it back (`insertAll_entries`): a map can be written out in order and read again.

The entries of a changed map are given by membership: `mem_insert`, `mem_insertAll`, `mem_below`.
-/

/-- A map whose entries are ordered by their keys. -/
@[ext] structure OrderedMap (α : Type) where
  entries : List (Nat × α)
  ordered : entries.Pairwise fun a b => a.1 < b.1
deriving DecidableEq

namespace OrderedMap

variable {α : Type}

def empty : OrderedMap α := ⟨[], List.Pairwise.nil⟩

/-- The value at a key. -/
def find (m : OrderedMap α) (k : Nat) : Option α := m.entries.lookup k

/-- The entries with a key below `n`. -/
def below (m : OrderedMap α) (n : Nat) : OrderedMap α :=
  ⟨m.entries.filter (·.1 < n), m.ordered.filter _⟩

/-- The map with the value `v` at `k`. -/
def insert (m : OrderedMap α) (k : Nat) (v : α) : OrderedMap α where
  entries := m.entries.filter (·.1 < k) ++ (k, v) :: m.entries.filter (k < ·.1)
  ordered := by
    rw [List.pairwise_append, List.pairwise_cons]
    refine ⟨m.ordered.filter _, ⟨fun b hb => ?_, m.ordered.filter _⟩, fun a ha b hb => ?_⟩
    · exact of_decide_eq_true (List.mem_filter.mp hb).2
    · have hak : a.1 < k := of_decide_eq_true (List.mem_filter.mp ha).2
      rcases List.mem_cons.mp hb with rfl | hb
      · exact hak
      · have hkb : k < b.1 := of_decide_eq_true (List.mem_filter.mp hb).2
        omega

/-- The entries of a list, inserted one after another. -/
def insertAll (m : OrderedMap α) (l : List (Nat × α)) : OrderedMap α :=
  l.foldl (fun m p => m.insert p.1 p.2) m

variable {m : OrderedMap α} {k : Nat} {p : Nat × α}

/-- A key above all others goes to the end. -/
theorem insert_of_lt (v : α) (h : ∀ p ∈ m.entries, p.1 < k) :
    (m.insert k v).entries = m.entries ++ [(k, v)] := by
  have hall : m.entries.filter (·.1 < k) = m.entries :=
    List.filter_eq_self.mpr fun p hp => decide_eq_true (h p hp)
  have hnone : m.entries.filter (k < ·.1) = [] :=
    List.filter_eq_nil_iff.mpr fun p hp => by have := h p hp; simp; omega
  show _ ++ _ :: _ = _
  rw [hall, hnone]

variable {l : List (Nat × α)}

theorem insertAll_append (hord : (m.entries ++ l).Pairwise fun a b => a.1 < b.1) :
    (m.insertAll l).entries = m.entries ++ l := by
  induction l generalizing m with
  | nil => simp [insertAll]
  | cons p l ih =>
    have hlt : ∀ q ∈ m.entries, q.1 < p.1 := fun q hq =>
      (List.pairwise_append.mp hord).2.2 q hq p List.mem_cons_self
    have hent : (m.insert p.1 p.2).entries = m.entries ++ [p] := insert_of_lt p.2 hlt
    show ((m.insert p.1 p.2).insertAll l).entries = _
    rw [ih (by rw [hent, List.append_assoc]; exact hord), hent, List.append_assoc]
    rfl

/-- A map is what its entries build. -/
theorem insertAll_entries (m : OrderedMap α) : (empty.insertAll m.entries) = m := by
  apply OrderedMap.ext
  exact insertAll_append (m := empty) m.ordered

/-! ### Membership -/

theorem find_eq_some {v : α} : m.find k = some v ↔ (k, v) ∈ m.entries := by
  rw [find, List.lookup_eq_some_iff]
  constructor
  · intro h
    obtain ⟨l, l', heq, -⟩ := h
    rw [heq]
    exact List.mem_append_right l List.mem_cons_self
  · intro h
    obtain ⟨l, l', heq⟩ := List.append_of_mem h
    refine ⟨l, l', heq, fun p hp => ?_⟩
    have hord := m.ordered
    rw [heq, List.pairwise_append] at hord
    have hlt := hord.2.2 p hp (k, v) List.mem_cons_self
    simp only [bne_iff_ne, ne_eq]
    omega

/-- A key has one value. -/
theorem unique (m : OrderedMap α) {v w : α} (hv : (k, v) ∈ m.entries) (hw : (k, w) ∈ m.entries) :
    v = w := by
  have hfind : some v = some w := (find_eq_some.mpr hv).symm.trans (find_eq_some.mpr hw)
  exact Option.some.inj hfind

theorem mem_below {n : Nat} : p ∈ (m.below n).entries ↔ p ∈ m.entries ∧ p.1 < n := by
  show p ∈ m.entries.filter (·.1 < n) ↔ _
  rw [List.mem_filter, decide_eq_true_iff]

/-- An insertion replaces the entry of its key. -/
theorem mem_insert {v : α} :
    p ∈ (m.insert k v).entries ↔ p = (k, v) ∨ (p ∈ m.entries ∧ p.1 ≠ k) := by
  show p ∈ m.entries.filter (·.1 < k) ++ (k, v) :: m.entries.filter (k < ·.1) ↔ _
  rw [List.mem_append, List.mem_cons, List.mem_filter, List.mem_filter, decide_eq_true_iff,
    decide_eq_true_iff]
  constructor
  · intro h
    rcases h with h | h | h
    · exact Or.inr ⟨h.1, Nat.ne_of_lt h.2⟩
    · exact Or.inl h
    · exact Or.inr ⟨h.1, Nat.ne_of_gt h.2⟩
  · intro h
    rcases h with h | h
    · exact Or.inr (Or.inl h)
    · rcases Nat.lt_or_gt_of_ne h.2 with hlt | hgt
      · exact Or.inl ⟨h.1, hlt⟩
      · exact Or.inr (Or.inr ⟨h.1, hgt⟩)

/-- Of a list without a repeated key every entry is there afterwards, and of the old entries those
whose key is not in the list. -/
theorem mem_insertAll (hl : l.Pairwise fun a b => a.1 < b.1) :
    p ∈ (m.insertAll l).entries ↔ p ∈ l ∨ (p ∈ m.entries ∧ ∀ q ∈ l, p.1 ≠ q.1) := by
  induction l generalizing m with
  | nil => simp [insertAll]
  | cons q l ih =>
    obtain ⟨hq, hl⟩ := List.pairwise_cons.mp hl
    show p ∈ ((m.insert q.1 q.2).insertAll l).entries ↔ _
    rw [ih hl, mem_insert, List.mem_cons, List.forall_mem_cons]
    constructor
    · intro h
      rcases h with h | ⟨h | h, hne⟩
      · exact Or.inl (Or.inr h)
      · exact Or.inl (Or.inl h)
      · exact Or.inr ⟨h.1, h.2, hne⟩
    · intro h
      rcases h with (h | h) | ⟨hp, hpq, hne⟩
      · -- The first entry stays, since the others have larger keys.
        exact Or.inr ⟨Or.inl h, fun r hr => h ▸ Nat.ne_of_lt (hq r hr)⟩
      · exact Or.inl h
      · exact Or.inr ⟨Or.inr ⟨hp, hpq⟩, hne⟩

end OrderedMap

/-!
## Maps that are filled key by key

A map is an `AList`: the order of its entries is one order in which it may be walked.
`emplace` enters a key that is not there yet, `emplaceAll` one entry after another, so the first
entry of a key counts. `refill` says that a map's own entries fill it again. `foldlM_adds` is the
rule for a loop over the entries that adds each value to what is kept under its key.
-/

namespace UnorderedMap

variable {κ ν : Type} [DecidableEq κ]

/-- A map from keys to values. -/
abbrev Map (κ ν : Type) := AList fun _ : κ => ν

/-- `emplace`: nothing happens when the key is there. -/
def emplace (m : Map κ ν) (k : κ) (v : ν) : Map κ ν :=
  if k ∈ m then m else m.insert k v

/-- The entries one after another. -/
def emplaceAll (m : Map κ ν) (entries : List (κ × ν)) : Map κ ν :=
  entries.foldl (fun m e => emplace m e.1 e.2) m

theorem emplaceAll_cons (m : Map κ ν) (e : κ × ν) (entries : List (κ × ν)) :
    emplaceAll m (e :: entries) = emplaceAll (emplace m e.1 e.2) entries :=
  List.foldl_cons ..

/-- The entries of a map in the order in which it is walked. -/
def pairs (m : Map κ ν) : List (κ × ν) := m.entries.map fun e => (e.1, e.2)

/-- `emplace` keeps the entry that is there. -/
theorem lookup_emplace (m : Map κ ν) (k k' : κ) (v : ν) :
    (emplace m k v).lookup k' = (m.lookup k').or (if k' = k then some v else none) := by
  rw [emplace]
  split
  · rename_i hmem
    split
    · rename_i heq
      obtain ⟨w, hw⟩ := Option.isSome_iff_exists.mp (AList.lookup_isSome.mpr hmem)
      rw [heq, hw, Option.some_or]
    · rw [Option.or_none]
  · rename_i hmem
    split
    · rename_i heq
      rw [heq, AList.lookup_insert, AList.lookup_eq_none.mpr hmem, Option.none_or]
    · rename_i hne
      rw [AList.lookup_insert_ne hne, Option.or_none]

theorem lookup_emplaceAll (entries : List (κ × ν)) (m : Map κ ν) (k : κ) :
    (emplaceAll m entries).lookup k = (m.lookup k).or (entries.lookup k) := by
  induction entries generalizing m with
  | nil => exact Option.or_none.symm
  | cons e entries ih =>
    rw [emplaceAll_cons, ih, lookup_emplace, Option.or_assoc, List.lookup_cons]
    by_cases heq : k = e.1
    · rw [if_pos heq, beq_iff_eq.mpr heq, Option.some_or]
    · rw [if_neg heq, beq_eq_false_iff_ne.mpr heq, Option.none_or]

theorem lookup_pairs (m : Map κ ν) (k : κ) : (pairs m).lookup k = m.lookup k := by
  show (m.entries.map fun e => (e.1, e.2)).lookup k = m.entries.dlookup k
  generalize m.entries = entries
  induction entries with
  | nil => rfl
  | cons e entries ih =>
    obtain ⟨k', v⟩ := e
    rw [List.map_cons, List.lookup_cons]
    by_cases heq : k = k'
    · rw [beq_iff_eq.mpr heq, heq, List.dlookup_cons_eq]
    · rw [beq_eq_false_iff_ne.mpr heq, List.dlookup_cons_ne _ _ heq]
      exact ih

/-- The entries of a map fill an empty map with what was looked up in it. -/
theorem refill (m : Map κ ν) (k : κ) : (emplaceAll ∅ (pairs m)).lookup k = m.lookup k := by
  rw [lookup_emplaceAll, lookup_pairs]
  rfl

theorem mem_pairs {m : Map κ ν} {k : κ} {v : ν} : (k, v) ∈ pairs m ↔ m.lookup k = some v := by
  rw [← Option.mem_def, AList.mem_lookup_iff]
  constructor
  · intro hmem
    obtain ⟨e, he, heq⟩ := List.mem_map.mp hmem
    cases heq
    exact he
  · intro hmem
    exact List.mem_map_of_mem hmem

omit [DecidableEq κ] in
/-- No key is walked twice. -/
theorem nodup_pairs (m : Map κ ν) : ((pairs m).map Prod.fst).Nodup := by
  have hkeys : (pairs m).map Prod.fst = m.keys := List.map_map
  rw [hkeys]
  exact m.keys_nodup

variable {entries : List (κ × ν)}

/-- A key that is not among the entries is not found in them. -/
theorem lookup_of_not_mem {k : κ} (h : k ∉ entries.map Prod.fst) : entries.lookup k = none := by
  rw [List.lookup_eq_none_iff]
  intro e he
  rw [bne_iff_ne]
  intro heq
  exact h (List.mem_map.mpr ⟨e, he, heq.symm⟩)

/-- Values that are changed in every entry. -/
theorem lookup_map {μ : Type} (entries : List (κ × ν)) (f : ν → μ) (k : κ) :
    (entries.map fun e => (e.1, f e.2)).lookup k = (entries.lookup k).map f := by
  induction entries with
  | nil => rfl
  | cons e entries ih =>
    rw [List.map_cons, List.lookup_cons, List.lookup_cons]
    by_cases heq : k = e.1
    · rw [beq_iff_eq.mpr heq]
      rfl
    · rw [beq_eq_false_iff_ne.mpr heq]
      exact ih

/-- A loop over entries of different keys. Each round succeeds, and adds the value of its entry
under the key. -/
theorem foldlM_adds {σ M : Type} [AddMonoid M] {step : σ → κ × ν → Option σ} {measure : σ → κ → M}
    {value : ν → M} {ok : ν → Prop}
    (hstep : ∀ s k v, ok v → ∃ s', step s (k, v) = some s' ∧
      ∀ k', measure s' k' = measure s k' + if k' = k then value v else 0)
    (hnodup : (entries.map Prod.fst).Nodup) (hok : ∀ e ∈ entries, ok e.2) (s : σ) :
    ∃ s', entries.foldlM step s = some s' ∧
      ∀ k, measure s' k = measure s k + ((entries.lookup k).map value).getD 0 := by
  induction entries generalizing s with
  | nil => exact ⟨s, rfl, fun k => (add_zero _).symm⟩
  | cons e entries ih =>
    obtain ⟨k, v⟩ := e
    rw [List.map_cons, List.nodup_cons] at hnodup
    obtain ⟨s₁, hfirst, hadds⟩ := hstep s k v (hok (k, v) List.mem_cons_self)
    obtain ⟨s', hrest, hsum⟩ := ih hnodup.2 (fun e he => hok e (List.mem_cons_of_mem _ he)) s₁
    refine ⟨s', ?_, ?_⟩
    · rw [List.foldlM_cons, hfirst]
      exact hrest
    · intro k'
      rw [hsum, hadds, List.lookup_cons, add_assoc]
      by_cases heq : k' = k
      · rw [if_pos heq, beq_iff_eq.mpr heq, heq, lookup_of_not_mem hnodup.1]
        exact congrArg _ (add_zero _)
      · rw [if_neg heq, beq_eq_false_iff_ne.mpr heq, zero_add]

end UnorderedMap

/-!
## A loop that updates one key at a time

The body of the loop changes a function at the key of its item and nowhere else. When the keys of
the items are distinct the order of the items does not matter: each key is changed once, from its
value before the loop (`foldl_updateAt_mem`), and the other keys not at all
(`foldl_updateAt_notMem`).
-/

namespace KeyedFold

variable {α κ β : Type} [DecidableEq κ]

/-- The change of the value at the key of an item. -/
def updateAt (key : α → κ) (val : α → β → β) (g : κ → β) (a : α) : κ → β :=
  Function.update g (key a) (val a (g (key a)))

variable {key : α → κ} {val : α → β → β}

theorem foldl_updateAt_notMem {as : List α} {k : κ} (h : k ∉ as.map key) (g : κ → β) :
    as.foldl (updateAt key val) g k = g k := by
  induction as generalizing g with
  | nil => rfl
  | cons a as ih =>
    rw [List.map_cons, List.mem_cons, not_or] at h
    rw [List.foldl_cons, ih h.2, updateAt, Function.update_of_ne h.1]

theorem foldl_updateAt_mem {as : List α} (hnodup : (as.map key).Nodup) {a : α} (h : a ∈ as)
    (g : κ → β) : as.foldl (updateAt key val) g (key a) = val a (g (key a)) := by
  induction as generalizing g with
  | nil => cases h
  | cons b as ih =>
    rw [List.map_cons, List.nodup_cons] at hnodup
    rw [List.foldl_cons]
    rcases List.mem_cons.1 h with rfl | h
    · rw [foldl_updateAt_notMem hnodup.1, updateAt, Function.update_self]
    · have hne : key a ≠ key b := fun heq => hnodup.1 (heq ▸ List.mem_map_of_mem h)
      rw [ih hnodup.2 h, updateAt, Function.update_of_ne hne]

end KeyedFold
