import PxqLlama.Spec.SuffixTree

/-!
# `Proofs.Spec.SuffixTree`: the counts of the suffix tree are exact

The tree stands for the strings that start at each place of the history and end after `max_depth`
tokens, or at the end of the history. A call of `extend` brings one place after another up to
date, so in the middle of its loop the places below `i` stand for strings of the new history and
the others for strings of the old one (`strings`, `hits`). A place is brought up to date by
entering the string once more, from the old end of it on (`exact_extendAt`).

From this the counts are numbers of occurrences whatever the calls were, and a draft, which is the
rest of a path, lies in the history behind the tokens that were matched.
-/

namespace PxqLlama.Spec

/-! ### Occurrences -/

/-- How often the word stands in the history, overlapping or not. -/
def occurrences (w history : List Token) : Nat :=
  (List.range history.length).countP fun i => decide (w <+: history.drop i)

/-- At how many of the first `n` places the word is a first part of the string there. -/
def hits (n : Nat) (strings : Nat → List Token) (w : List Token) : Nat :=
  (List.range n).countP fun i => decide (w <+: strings i)

theorem countP_range_step {p q : Nat → Bool} {n i : Nat} (hi : i < n)
    (h : ∀ j, j ≠ i → p j = q j) :
    (List.range n).countP q + (p i).toNat = (List.range n).countP p + (q i).toNat := by
  have hsingle : ∀ (r : Nat → Bool) (k : Nat), [k].countP r = (r k).toNat := by
    intro r k
    cases hr : r k <;> simp [hr]
  induction n with
  | zero => omega
  | succ n ih =>
    rw [List.range_succ, List.countP_append, List.countP_append, hsingle, hsingle]
    by_cases hin : i = n
    · subst hin
      have hsame : (List.range i).countP p = (List.range i).countP q := by
        refine List.countP_congr fun j hj => ?_
        rw [h j (Nat.ne_of_lt (List.mem_range.1 hj))]
      omega
    · have := ih (by omega)
      rw [h n (Ne.symm hin)]
      omega

variable {w : List Token}

variable {history : List Token}

theorem infix_iff_drop (hw : w ≠ []) :
    w <:+: history ↔ ∃ i < history.length, w <+: history.drop i := by
  constructor
  · rintro ⟨s, t, rfl⟩
    refine ⟨s.length, ?_, ⟨t, by simp⟩⟩
    have := List.length_pos_iff.2 hw
    simp only [List.length_append]
    omega
  · rintro ⟨i, -, hpre⟩
    exact hpre.isInfix.trans (List.drop_suffix i history).isInfix

theorem occurrences_ne_zero (hw : w ≠ []) : occurrences w history ≠ 0 ↔ w <:+: history := by
  rw [infix_iff_drop hw, occurrences, ← Nat.pos_iff_ne_zero, List.countP_pos_iff]
  simp

/-- Entering a string below a first part of it counts what the first part has not counted. -/
theorem prefix_split {w q s : List Token} (hqs : q <+: s) :
    (if w <+: s then 1 else 0) =
      (if w <+: q then 1 else 0) + (if q <+: w ∧ w ≠ q ∧ w <+: s then 1 else 0) := by
  by_cases hws : w <+: s
  · rcases List.prefix_or_prefix_of_prefix hws hqs with hwq | hqw
    · have hno : ¬ (q <+: w ∧ w ≠ q ∧ w <+: s) := by
        rintro ⟨hqw, hne, -⟩
        exact hne (hwq.eq_of_length_le hqw.length_le)
      rw [if_pos hws, if_pos hwq, if_neg hno]
    · by_cases heq : w = q
      · subst heq
        simp [hws]
      · have hwq : ¬ w <+: q := fun hwq => heq (hwq.eq_of_length_le hqw.length_le)
        rw [if_pos hws, if_neg hwq, if_pos ⟨hqw, heq, hws⟩]
  · have hwq : ¬ w <+: q := fun h => hws (h.trans hqs)
    simp [hws, hwq]

namespace SuffixTree

/-! ### The invariant -/

/-- The string that a place stands for. -/
def stringAt (maxDepth : Nat) (history : List Token) (i : Nat) : List Token :=
  (history.drop i).take maxDepth

/-- The strings in the middle of the loop: the places below `i` are up to date. -/
def strings (maxDepth : Nat) (old new : List Token) (i j : Nat) : List Token :=
  stringAt maxDepth (if j < i then new else old) j

/-- The trie holds the strings. -/
structure Holds (root : CountTrie Token) (n : Nat) (strings : Nat → List Token) : Prop where
  root_count : root.count = 0
  positive : root.Positive
  counts : ∀ w, w ≠ [] → root.countAt w = hits n strings w

/-- The tree between two calls. -/
structure Exact (t : SuffixTree) (maxDepth : Nat) (history : List Token) : Prop where
  depth : t.maxDepth = maxDepth
  tokens : t.tokens = history
  inserted : t.nInserted = history.length
  holds : Holds t.root history.length (stringAt maxDepth history)

/-- The tree in the loop of `extend`, before the place `i`. -/
structure Between (t : SuffixTree) (maxDepth : Nat) (old new : List Token) (i : Nat) : Prop where
  depth : t.maxDepth = maxDepth
  tokens : t.tokens = new
  inserted : t.nInserted = old.length
  holds : Holds t.root new.length (strings maxDepth old new i)

variable {maxDepth : Nat} {old new history : List Token} {t : SuffixTree} {i : Nat}

theorem strings_self : strings maxDepth old new i i = stringAt maxDepth old i := by
  simp [strings]

theorem strings_succ_self : strings maxDepth old new (i + 1) i = stringAt maxDepth new i := by
  simp [strings]

theorem strings_succ_of_ne {j : Nat} (h : j ≠ i) :
    strings maxDepth old new i j = strings maxDepth old new (i + 1) j := by
  have : j < i ↔ j < i + 1 := by omega
  simp [strings, this]

theorem toNat_decide (p : Prop) [Decidable p] : (decide p).toNat = if p then 1 else 0 := by
  by_cases h : p
  · simp [h]
  · simp [h]

/-- Bringing one place up to date changes its own term only. -/
theorem hits_strings_succ (hi : i < new.length) (w : List Token) :
    hits new.length (strings maxDepth old new (i + 1)) w +
        (if w <+: stringAt maxDepth old i then 1 else 0) =
      hits new.length (strings maxDepth old new i) w +
        (if w <+: stringAt maxDepth new i then 1 else 0) := by
  have hstep := @countP_range_step (fun j => decide (w <+: strings maxDepth old new i j))
    (fun j => decide (w <+: strings maxDepth old new (i + 1) j)) new.length i hi
    (fun j hj => by rw [strings_succ_of_ne hj])
  simpa [hits, strings_self, strings_succ_self, toNat_decide] using hstep

/-! ### One place -/

/-- The length that the code computes is the length of the string. -/
theorem take_min_length (history : List Token) (maxDepth i : Nat) :
    (history.drop i).take (min (history.length - i) maxDepth) = stringAt maxDepth history i := by
  have hlong : ((history.drop i).take maxDepth).length ≤ (history.drop i).length :=
    List.length_take_le' _ _
  rw [stringAt, ← List.length_drop, ← List.take_take, List.take_of_length_le hlong]

/-- One more position: each depth up to the limit gets its count. -/
theorem exact_extendAt (hdepth : 1 ≤ maxDepth) (hpre : old <+: new) (hi : i < new.length)
    (h : Between t maxDepth old new i) :
    Between (extendAt old.length new.length t i) maxDepth old new (i + 1) := by
  obtain ⟨hd, ht, hn, hroot, hpos, hcounts⟩ := h
  have hsucc := fun w => @hits_strings_succ maxDepth old new i hi w
  have hlen := hpre.length_le
  by_cases hold : i < old.length
  · -- The string of the old history at this place is a first part of the new one.
    have hfirst : stringAt maxDepth old i <+: stringAt maxDepth new i := by
      obtain ⟨added, rfl⟩ := hpre
      rw [stringAt, stringAt, List.drop_append_of_le_length (Nat.le_of_lt hold)]
      exact (List.prefix_append _ _).take maxDepth
    by_cases hlonger : min (old.length - i) maxDepth < min (new.length - i) maxDepth
    · have hext : extendAt old.length new.length t i =
          t.extendSuffix i (min (old.length - i) maxDepth) (min (new.length - i) maxDepth) := by
        simp only [extendAt, hn, hd, if_pos hold, if_pos hlonger]
      have hwalked : (new.drop i).take (min (old.length - i) maxDepth) =
          stringAt maxDepth old i := by
        obtain ⟨added, rfl⟩ := hpre
        rw [List.drop_append_of_le_length (Nat.le_of_lt hold), List.take_append_of_le_length
          (by rw [List.length_drop]; exact Nat.min_le_left _ _), take_min_length]
      have hwhole : stringAt maxDepth old i ++
          ((new.drop i).drop (min (old.length - i) maxDepth)).take
            (min (new.length - i) maxDepth - min (old.length - i) maxDepth) =
          stringAt maxDepth new i := by
        rw [← hwalked, ← List.take_add, Nat.add_sub_cancel' (Nat.le_of_lt hlonger),
          take_min_length]
      have hne : stringAt maxDepth old i ≠ [] := by
        rw [stringAt, ← List.length_pos_iff, List.length_take, List.length_drop]
        omega
      -- The walked part is there, since this place has been counted in it.
      have hfound : (t.root.find? (stringAt maxDepth old i)).isSome := by
        rw [CountTrie.find?_isSome_iff hpos hne, hcounts _ hne, hits, ← Nat.pos_iff_ne_zero,
          List.countP_pos_iff]
        exact ⟨i, List.mem_range.2 hi, by simp [strings_self]⟩
      rw [hext, extendSuffix, ht, hwalked]
      refine ⟨hd, rfl, hn, (CountTrie.count_bumpBelow _ _ _).trans hroot, hpos.bumpBelow _ _,
        fun w hw => ?_⟩
      show (CountTrie.bumpBelow _ _ t.root).countAt w = _
      rw [CountTrie.countAt_bumpBelow _ _ _ hfound hw, hwhole, hcounts w hw]
      have := hsucc w
      have := @prefix_split w _ _ hfirst
      omega
    · have hstay : extendAt old.length new.length t i = t := by
        simp only [extendAt, hn, hd, if_pos hold, if_neg hlonger]
      have hsame : stringAt maxDepth old i = stringAt maxDepth new i := by
        refine hfirst.eq_of_length_le ?_
        simp only [stringAt, List.length_take, List.length_drop]
        omega
      rw [hstay]
      refine ⟨hd, ht, hn, hroot, hpos, fun w hw => ?_⟩
      have := hsucc w
      rw [hcounts w hw]
      rw [hsame] at this
      omega
  · -- The place is new: the old history has nothing there.
    have hempty : stringAt maxDepth old i = [] := by
      rw [stringAt, List.drop_eq_nil_of_le (Nat.le_of_not_lt hold), List.take_nil]
    have hins : extendAt old.length new.length t i = t.insertSuffix i := by
      simp only [extendAt, hn, if_neg hold]
    rw [hins, insertSuffix, ht, hd]
    refine ⟨rfl, rfl, hn, (CountTrie.count_bump _ _).trans hroot, hpos.bump _, fun w hw => ?_⟩
    show (CountTrie.bump _ t.root).countAt w = _
    rw [CountTrie.countAt_bump _ _ hw, take_min_length, hcounts w hw]
    have := hsucc w
    rw [hempty, if_neg (by simpa using hw)] at this
    omega

/-! ### One call -/

theorem between_foldl (hdepth : 1 ≤ maxDepth) (hpre : old <+: new) (n : Nat) :
    ∀ {t : SuffixTree} {i : Nat}, i + n ≤ new.length → Between t maxDepth old new i →
      Between ((List.range' i n).foldl (extendAt old.length new.length) t) maxDepth old new
        (i + n) := by
  induction n with
  | zero => exact fun _ h => h
  | succ n ih =>
    intro t i hi h
    rw [List.range'_succ, List.foldl_cons, Nat.add_comm n 1, ← Nat.add_assoc]
    exact ih (by omega) (exact_extendAt hdepth hpre (by omega) h)

/-- A place whose string was not cut short at the old end is up to date before the loop. -/
theorem between_start (hpre : old <+: new) (h : Exact t maxDepth old) :
    Between { t with tokens := new } maxDepth old new (old.length - maxDepth) := by
  refine ⟨h.depth, rfl, h.inserted, h.holds.root_count, h.holds.positive, fun w hw => ?_⟩
  obtain ⟨added, rfl⟩ := hpre
  show t.root.countAt w = _
  rw [h.holds.counts w hw, hits, hits, List.length_append, List.range_add, List.countP_append]
  have hrest : ((List.range added.length).map (old.length + ·)).countP
      (fun j => decide (w <+: strings maxDepth old (old ++ added) (old.length - maxDepth) j)) =
      0 := by
    rw [List.countP_eq_zero]
    intro j hj
    obtain ⟨k, -, rfl⟩ := List.mem_map.1 hj
    have hnot : ¬ old.length + k < old.length - maxDepth := by omega
    have hnone : old.drop (old.length + k) = [] := List.drop_eq_nil_of_le (Nat.le_add_right _ _)
    simpa [strings, hnot, stringAt, hnone] using hw
  rw [hrest, Nat.add_zero]
  refine List.countP_congr fun j hj => ?_
  have hj := List.mem_range.1 hj
  by_cases hlow : j < old.length - maxDepth
  · have hsame : ((old ++ added).drop j).take maxDepth = (old.drop j).take maxDepth := by
      rw [List.drop_append_of_le_length (Nat.le_of_lt hj), List.take_append_of_le_length]
      rw [List.length_drop]
      omega
    rw [decide_eq_true_eq, decide_eq_true_eq, strings, if_pos hlow, stringAt, stringAt, hsame]
  · simp [strings, hlow]

/-- An extension makes the counts those of the longer history. -/
theorem exact_extend (hdepth : 1 ≤ maxDepth) (added : List Token) (h : Exact t maxDepth history) :
    Exact (t.extend added) maxDepth (history ++ added) := by
  by_cases hadded : added = []
  · subst hadded
    simpa [extend] using h
  · have hpre : history <+: history ++ added := List.prefix_append _ _
    have hle := hpre.length_le
    have hloop := between_foldl hdepth hpre ((history ++ added).length - (history.length - maxDepth))
      (by omega) (between_start hpre h)
    have hend : history.length - maxDepth +
        ((history ++ added).length - (history.length - maxDepth)) = (history ++ added).length := by
      omega
    rw [hend] at hloop
    obtain ⟨rfl⟩ := h.depth
    obtain ⟨rfl⟩ := h.tokens
    obtain ⟨hd, ht, -, hroot, hpos, hcounts⟩ := hloop
    rw [extend, if_neg hadded]
    refine ⟨hd, ht, rfl, hroot, hpos,
      fun w hw => (hcounts w hw).trans (List.countP_congr fun j hj => ?_)⟩
    rw [decide_eq_true_eq, decide_eq_true_eq, strings, if_pos (List.mem_range.1 hj)]

/-- The induction is over the calls: whatever they were, the tree stands for their tokens. -/
theorem exact_ofChunks (hdepth : 1 ≤ maxDepth) (chunks : List (List Token)) :
    Exact (ofChunks maxDepth chunks) maxDepth chunks.flatten := by
  have hrun : ∀ (chunks : List (List Token)) {t : SuffixTree} {history : List Token},
      Exact t maxDepth history →
      Exact (chunks.foldl extend t) maxDepth (history ++ chunks.flatten) := by
    intro chunks
    induction chunks with
    | nil =>
      intro t history h
      simpa using h
    | cons chunk chunks ih =>
      intro t history h
      rw [List.foldl_cons, List.flatten_cons, ← List.append_assoc]
      exact ih (exact_extend hdepth chunk h)
  have hnew : Exact { maxDepth } maxDepth [] :=
    ⟨rfl, rfl, rfl, rfl, CountTrie.positive_empty, fun w _ => by simp [hits]⟩
  simpa [ofChunks] using hrun chunks hnew

/-! ### What the counts say -/

namespace Exact

variable (h : Exact t maxDepth history)

include h

theorem countAt_eq (hw : w ≠ []) (hlen : w.length ≤ maxDepth) :
    t.root.countAt w = occurrences w history := by
  rw [h.holds.counts w hw, hits, occurrences]
  refine List.countP_congr fun i _ => ?_
  simp [stringAt, List.prefix_take_iff, hlen]

theorem infix_of_find? (hw : w ≠ []) (hfind : (t.root.find? w).isSome) : w <:+: history := by
  rw [CountTrie.find?_isSome_iff h.holds.positive hw, h.holds.counts w hw, hits,
    ← Nat.pos_iff_ne_zero, List.countP_pos_iff] at hfind
  obtain ⟨i, hi, hpre⟩ := hfind
  have hpre : w <+: stringAt maxDepth history i := by simpa using hpre
  exact (infix_iff_drop hw).2 ⟨i, List.mem_range.1 hi, hpre.trans (List.take_prefix _ _)⟩

theorem find?_isSome (hw : w ≠ []) (hlen : w.length ≤ maxDepth) :
    (t.root.find? w).isSome ↔ w <:+: history := by
  rw [CountTrie.find?_isSome_iff h.holds.positive hw, h.countAt_eq hw hlen,
    occurrences_ne_zero hw]

/-- Two trees of one history have the same paths with the same counts. -/
theorem same {t' : SuffixTree} (h' : Exact t' maxDepth history) (w : List Token) :
    (t.root.find? w).isSome = (t'.root.find? w).isSome ∧ t.root.countAt w = t'.root.countAt w := by
  by_cases hw : w = []
  · subst hw
    exact ⟨rfl, h.holds.root_count.trans h'.holds.root_count.symm⟩
  · have hcount : t.root.countAt w = t'.root.countAt w :=
      (h.holds.counts w hw).trans (h'.holds.counts w hw).symm
    refine ⟨?_, hcount⟩
    rw [Bool.eq_iff_iff, CountTrie.find?_isSome_iff h.holds.positive hw,
      CountTrie.find?_isSome_iff h'.holds.positive hw, hcount]

end Exact

/-! ### Drafts -/

section

variable {F : Type} (ops : ScoreOps F) (order : MapOrder)

/-- The choice is the start value or an entry, and no entry counts more. -/
theorem best_foldl (es : List (Token × CountTrie Token)) (best : Token × Nat) :
    let last := es.foldl
      (fun best e => if best.2 < e.2.count then (e.1, e.2.count) else best) best
    (last = best ∨ ∃ e ∈ es, last = (e.1, e.2.count)) ∧ best.2 ≤ last.2 ∧
      ∀ e ∈ es, e.2.count ≤ last.2 := by
  induction es generalizing best with
  | nil => simp
  | cons e es ih =>
    obtain ⟨hfrom, hle, hall⟩ := ih (if best.2 < e.2.count then (e.1, e.2.count) else best)
    rw [List.foldl_cons]
    have hstep : best.2 ≤ (if best.2 < e.2.count then (e.1, e.2.count) else best).2 ∧
        e.2.count ≤ (if best.2 < e.2.count then (e.1, e.2.count) else best).2 := by
      split <;> simp <;> omega
    refine ⟨?_, Nat.le_trans hstep.1 hle, ?_⟩
    · rcases hfrom with hstay | ⟨e', he', hlast⟩
      · by_cases hlt : best.2 < e.2.count
        · exact .inr ⟨e, List.mem_cons_self, by rw [hstay, if_pos hlt]⟩
        · exact .inl (by rw [hstay, if_neg hlt])
      · exact .inr ⟨e', List.mem_cons_of_mem e he', hlast⟩
    · intro e' he'
      rcases List.mem_cons.1 he' with rfl | he'
      · exact Nat.le_trans hstep.2 hle
      · exact hall e' he'

variable {cur : CountTrie Token}

/-- A node with children has the child that is chosen. -/
theorem bestChild_isSome (hpos : cur.Positive) (hne : cur.children ≠ []) :
    (cur.child (bestChild order cur).1).isSome := by
  obtain ⟨hfrom, -, hall⟩ := best_foldl (order.read cur.children) (-1, 0)
  obtain ⟨⟨k, c⟩, es, hes⟩ := List.exists_cons_of_ne_nil hne
  -- The first child has a count, so the choice is not the start value.
  have hfirst : cur.child k = some c := by rw [CountTrie.child, hes]; simp
  have hcount := (hpos.child hfirst).1
  have hmem : (k, c) ∈ order.read cur.children := by
    rw [(order.perm_read _).mem_iff, hes]
    exact List.mem_cons_self
  rcases hfrom with hstay | ⟨e, he, hlast⟩
  · have := hall _ hmem
    rw [hstay] at this
    exact absurd (Nat.le_zero.1 this) hcount
  · rw [bestChild, hlast]
    exact CountTrie.child_isSome ((order.perm_read _).mem_iff.1 he)

/-- The draft is the rest of a path. -/
theorem followBest_spec (minTokenProb : F) (limit : Nat) (hpos : cur.Positive) (prob score : F) :
    ∃ draft score', followBest ops order minTokenProb limit cur prob score = some (draft, score') ∧
      draft.length ≤ limit ∧ (cur.find? draft).isSome := by
  induction limit generalizing cur prob score with
  | zero => exact ⟨[], score, rfl, Nat.le_refl _, rfl⟩
  | succ limit ih =>
    rw [followBest]
    by_cases hne : cur.children = []
    · exact ⟨[], score, if_pos hne, Nat.zero_le _, rfl⟩
    · rw [if_neg hne]
      by_cases hlow : ops.lt (ops.mulRatio prob (bestChild order cur).2 cur.count) minTokenProb
      · exact ⟨[], score, if_pos hlow, Nat.zero_le _, rfl⟩
      · obtain ⟨next, hnext⟩ := Option.isSome_iff_exists.1 (bestChild_isSome order hpos hne)
        obtain ⟨draft, score', hdraft, hlen, hfind⟩ := ih (hpos.child hnext).2
          (ops.mulRatio prob (bestChild order cur).2 cur.count)
          (ops.add score (ops.mulRatio prob (bestChild order cur).2 cur.count))
        refine ⟨(bestChild order cur).1 :: draft, score', ?_, ?_, ?_⟩
        · rw [if_neg hlow, hnext]
          simp [hdraft]
        · simpa using hlen
        · rw [CountTrie.find?_cons, hnext]
          exact hfind

/-- The end of the context of the given length, with the draft behind it, is in the history. -/
def Continues (history context : List Token) (maxSpecTokens minMatchLen : Int)
    (draft : List Token) : Prop :=
  ∃ matchLen : Nat, 1 ≤ matchLen ∧ minMatchLen ≤ matchLen ∧ matchLen ≤ context.length ∧
    context.drop (context.length - matchLen) ++ draft <:+: history ∧
    (draft.length : Int) ≤ min maxSpecTokens (matchLen + 8)

theorem positive_of_find? {root node : CountTrie Token} (hpos : root.Positive)
    (hfind : root.find? w = some node) : node.Positive := by
  intro v c hv hc
  refine hpos (w ++ v) c (by simp [hv]) ?_
  rw [CountTrie.find?_append, hfind]
  exact hc

/-- The candidates of all lengths, and the best of them. -/
theorem speculateFrom_spec (h : Exact t maxDepth history) (context : List Token)
    (maxSpecTokens minMatchLen : Int) (hmax : 0 ≤ maxSpecTokens) (minTokenProb : F)
    (minMatchCount : Int) (matchLens : List Nat)
    (hlens : ∀ l ∈ matchLens, 1 ≤ l ∧ minMatchLen ≤ l ∧ l ≤ context.length)
    (best : List Token) (bestScore : F)
    (hbest : best ≠ [] → Continues history context maxSpecTokens minMatchLen best) :
    ∃ draft, speculateFrom ops order t context maxSpecTokens.toNat minTokenProb minMatchCount
        matchLens best bestScore = some draft ∧
      (draft ≠ [] → Continues history context maxSpecTokens minMatchLen draft) := by
  induction matchLens generalizing best bestScore with
  | nil => exact ⟨best, rfl, hbest⟩
  | cons l matchLens ih =>
    have ih := ih fun l' hl' => hlens l' (List.mem_cons_of_mem l hl')
    obtain ⟨hone, hmin, hlen⟩ := hlens l List.mem_cons_self
    rw [speculateFrom]
    cases hfind : t.root.find? (context.drop (context.length - l)) with
    | none => exact ⟨best, rfl, hbest⟩
    | some node =>
      by_cases hskip : (node.count : Int) < minMatchCount ∨ node.children = []
      · simp only [if_pos hskip]
        exact ih best bestScore hbest
      · obtain ⟨draft, score, hdraft, hlimit, hpath⟩ := followBest_spec ops order minTokenProb
          (min maxSpecTokens.toNat (l + 8)) (positive_of_find? h.holds.positive hfind)
          ops.one ops.zero
        simp only [if_neg hskip, hdraft, Option.bind_eq_bind, Option.bind_some]
        by_cases hbetter : ops.lt bestScore score = true ∧ draft ≠ []
        · rw [if_pos hbetter]
          have hshort : (draft.length : Int) ≤ min maxSpecTokens ((l : Int) + 8) := by omega
          refine ih draft score fun hne => ⟨l, hone, hmin, hlen, ?_, hshort⟩
          -- The matched tokens and the draft together are a path.
          refine h.infix_of_find? (by simp [hne]) ?_
          rw [CountTrie.find?_append, hfind]
          exact hpath
        · rw [if_neg hbetter]
          exact ih best bestScore hbest

/-- A draft continues a place of the history that the context ends like. -/
theorem speculate_spec (h : Exact t maxDepth history) (context : List Token)
    (maxSpecTokens : Int) (minTokenProb : F) (minMatchCount minMatchLen : Int) :
    ∃ draft, t.speculate ops order context maxSpecTokens minTokenProb minMatchCount minMatchLen =
        some draft ∧
      (draft ≠ [] → Continues history context maxSpecTokens minMatchLen draft) := by
  rw [speculate]
  by_cases hearly : context = [] ∨ maxSpecTokens ≤ 0
  · exact ⟨[], if_pos hearly, fun hne => absurd rfl hne⟩
  · rw [if_neg hearly]
    have hmax : 0 ≤ maxSpecTokens := by omega
    have hlens : ∀ l ∈ List.range' (max 1 minMatchLen).toNat
        ((context.drop (context.length - t.maxDepth)).length + 1 - (max 1 minMatchLen).toNat),
        1 ≤ l ∧ minMatchLen ≤ l ∧ l ≤ (context.drop (context.length - t.maxDepth)).length := by
      intro l hl
      rw [List.mem_range'_1] at hl
      omega
    obtain ⟨draft, hdraft, hcont⟩ := speculateFrom_spec ops order h
      (context.drop (context.length - t.maxDepth)) maxSpecTokens minMatchLen hmax minTokenProb
      minMatchCount _ hlens [] ops.zero (fun hne => absurd rfl hne)
    refine ⟨draft, hdraft, fun hne => ?_⟩
    -- What is cut off the context lies before the match.
    obtain ⟨l, hone, hmin, hlen, hinfix, hlimit⟩ := hcont hne
    rw [List.length_drop] at hlen hinfix
    rw [List.drop_drop] at hinfix
    refine ⟨l, hone, hmin, by omega, ?_, hlimit⟩
    rw [show context.length - l = context.length - t.maxDepth +
      (context.length - (context.length - t.maxDepth) - l) by omega]
    exact hinfix

end

/-! ### Any calls of `extend` -/

/-- The tree counts the occurrences of every word of the history up to the depth. It does not
depend on how the history was cut into calls, and drafts continue the context as in the history. -/
theorem ofChunks_exact (maxDepth : Nat) (hdepth : 1 ≤ maxDepth) (chunks : List (List Token)) :
    (∀ w : List Token, 1 ≤ w.length → w.length ≤ maxDepth →
      ((((ofChunks maxDepth chunks).root.find? w).isSome ↔ w <:+: chunks.flatten) ∧
        ∀ node, (ofChunks maxDepth chunks).root.find? w = some node →
          node.count = occurrences w chunks.flatten)) ∧
    (∀ chunks' : List (List Token), chunks'.flatten = chunks.flatten → ∀ w : List Token,
      ((ofChunks maxDepth chunks').root.find? w).isSome =
          ((ofChunks maxDepth chunks).root.find? w).isSome ∧
        (ofChunks maxDepth chunks').root.countAt w = (ofChunks maxDepth chunks).root.countAt w) ∧
    ∀ {F : Type} (ops : ScoreOps F) (order : MapOrder) (context : List Token)
      (maxSpecTokens : Int) (minTokenProb : F) (minMatchCount minMatchLen : Int),
      ∃ draft, (ofChunks maxDepth chunks).speculate ops order context maxSpecTokens minTokenProb
          minMatchCount minMatchLen = some draft ∧
        (draft ≠ [] → Continues chunks.flatten context maxSpecTokens minMatchLen draft) := by
  have h := exact_ofChunks hdepth chunks
  refine ⟨fun w hone hlen => ?_, fun chunks' heq w => ?_, fun ops order context => ?_⟩
  · have hw : w ≠ [] := List.ne_nil_of_length_pos hone
    refine ⟨h.find?_isSome hw hlen, fun node hnode => ?_⟩
    rw [← CountTrie.countAt_of_find? hnode, h.countAt_eq hw hlen]
  · have h' := exact_ofChunks hdepth chunks'
    rw [heq] at h'
    exact h'.same h w
  · exact speculate_spec ops order h context

theorem ofChunks_exact_short :
    (((ofChunks 2 [[1, 2], [1]]).root.find? [2, 1]).isSome ↔ [2, 1] <:+: ([1, 2, 1] : List Token)) ∧
      ∀ node, (ofChunks 2 [[1, 2], [1]]).root.find? [2, 1] = some node →
        node.count = occurrences [2, 1] [1, 2, 1] :=
  (ofChunks_exact 2 (by decide) [[1, 2], [1]]).1 [2, 1] (by decide) (by decide)

end SuffixTree

end PxqLlama.Spec
