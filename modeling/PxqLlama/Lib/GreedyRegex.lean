import Mathlib.Computability.Language

/-!
# `Lib.GreedyRegex`: regular expressions that are matched by backtracking

`Regex.run` is the matching of ECMAScript with greedy quantifiers: it returns what each way of
matching leaves of the input, the preferred way first. An engine reports the head of that list. A
round of a repetition beyond the required ones has to read something.

`mem_run_iff` relates the list to the language of the expression (`Regex.lang`). Which match is the
head depends on the order of the alternatives: a branch that can be empty hides the branches after
it. When only last branches can be empty (`Regex.EagerChoice`), the head reads something whenever
some way of matching does (`eager_run`).
-/

/-- A regular expression. `rep r lo extra` is `r` at least `lo` times and at most `extra` times
more, and any number of times with `none`. -/
inductive Regex (σ : Type)
  | sym (s : σ)
  | seq (r s : Regex σ)
  | alt (r s : Regex σ)
  | rep (r : Regex σ) (lo : Nat) (extra : Option Nat)

/-- What a matcher leaves of an input, the preferred way first. -/
abbrev Matcher (α : Type) : Type := List α → List (List α)

namespace Matcher

variable {α : Type}

/-- `n` rounds. -/
def times (m : Matcher α) : Nat → Matcher α
  | 0, t => [t]
  | n + 1, t => (m t).flatMap (times m n)

/-- At most `n` rounds, each of which reads something; as many as possible are preferred. -/
def rounds (m : Matcher α) : Nat → Matcher α
  | 0, t => [t]
  | n + 1, t => ((m t).filter fun t' => t'.length < t.length).flatMap (rounds m n) ++ [t]

/-- What is left is what is behind a word of the language. -/
def Reads (m : Matcher α) (L : Language α) : Prop :=
  ∀ t t', t' ∈ m t ↔ ∃ u ∈ L, t = u ++ t'

/-- When some way reads something, the preferred one does. -/
def Eager (m : Matcher α) : Prop :=
  ∀ t, (∃ t' ∈ m t, t'.length < t.length) → ∃ t' ts, m t = t' :: ts ∧ t'.length < t.length

variable {m m' : Matcher α} {L L' : Language α}

theorem Reads.length_le (h : m.Reads L) {t t' : List α} (ht : t' ∈ m t) :
    t'.length ≤ t.length := by
  obtain ⟨u, -, rfl⟩ := (h t t').mp ht
  rw [List.length_append]
  exact Nat.le_add_left _ _

theorem Reads.ne_nil (h : m.Reads L) (hnil : [] ∈ L) (t : List α) : m t ≠ [] :=
  List.ne_nil_of_mem ((h t t).mpr ⟨[], hnil, rfl⟩)

theorem Reads.length_lt (h : m.Reads L) (hnil : [] ∉ L) {t t' : List α} (ht : t' ∈ m t) :
    t'.length < t.length := by
  obtain ⟨u, hu, rfl⟩ := (h t t').mp ht
  cases u with
  | nil => exact absurd hu hnil
  | cons c u =>
    rw [List.length_append, List.length_cons]
    omega

/-- One matcher after the other reads the product. -/
theorem Reads.flatMap (h : m.Reads L) (h' : m'.Reads L') :
    Reads (fun t => (m t).flatMap m') (L * L') := by
  intro t t'
  rw [List.mem_flatMap]
  constructor
  · rintro ⟨t₁, hm, hm'⟩
    obtain ⟨u, hu, rfl⟩ := (h t t₁).mp hm
    obtain ⟨v, hv, rfl⟩ := (h' t₁ t').mp hm'
    exact ⟨u ++ v, Language.append_mem_mul hu hv, (List.append_assoc u v t').symm⟩
  · rintro ⟨w, hw, rfl⟩
    obtain ⟨u, hu, v, hv, rfl⟩ := Language.mem_mul.mp hw
    rw [List.append_assoc]
    exact ⟨v ++ t', (h _ _).mpr ⟨u, hu, rfl⟩, (h' _ _).mpr ⟨v, hv, rfl⟩⟩

theorem reads_one : Reads (fun t : List α => [t]) 1 := by
  intro t t'
  rw [List.mem_singleton]
  constructor
  · rintro rfl
    exact ⟨[], Language.nil_mem_one, rfl⟩
  · rintro ⟨u, hu, rfl⟩
    rw [(Language.mem_one u).mp hu]
    rfl

theorem Reads.times (h : m.Reads L) : ∀ n, (m.times n).Reads (L ^ n)
  | 0 => by
    rw [pow_zero]
    exact reads_one
  | n + 1 => by
    rw [pow_succ']
    exact h.flatMap (h.times n)

/-- A word of several rounds that is not empty has a first round that is not empty. -/
theorem exists_nonempty_round {k : Nat} {w : List α} (hw : w ∈ L ^ k) (hne : w ≠ []) :
    ∃ j u v, k = j + 1 ∧ u ∈ L ∧ u ≠ [] ∧ (∃ i ≤ j, v ∈ L ^ i) ∧ w = u ++ v := by
  induction k generalizing w with
  | zero => exact absurd ((Language.mem_one w).mp hw) hne
  | succ k ih =>
    rw [pow_succ'] at hw
    obtain ⟨u, hu, v, hv, rfl⟩ := Language.mem_mul.mp hw
    by_cases hnil : u = []
    · -- The first round is empty, so it is left out.
      rw [hnil, List.nil_append] at hne ⊢
      obtain ⟨j, u', v', rfl, hu', hne', ⟨i, hi, hv'⟩, rfl⟩ := ih hv hne
      exact ⟨j + 1, u', v', rfl, hu', hne', ⟨i, by omega, hv'⟩, rfl⟩
    · exact ⟨k, u, v, rfl, hu, hnil, ⟨k, Nat.le_refl k, hv⟩, rfl⟩

/-- The rounds that are needed for a word are tried, when there are as many or when the bound is
the length of the word. -/
theorem Reads.mem_rounds (h : m.Reads L) {n k : Nat} {w : List α} (hw : w ∈ L ^ k)
    (hn : k ≤ n ∨ w.length ≤ n) (t : List α) : t ∈ m.rounds n (w ++ t) := by
  induction n generalizing k w with
  | zero =>
    have hnil : w = [] := by
      rcases hn with hk | hlen
      · obtain rfl : k = 0 := Nat.le_zero.mp hk
        exact (Language.mem_one w).mp hw
      · exact List.eq_nil_of_length_eq_zero (Nat.le_zero.mp hlen)
    rw [hnil]
    exact List.mem_singleton_self t
  | succ n ih =>
    rw [rounds, List.mem_append, List.mem_flatMap]
    by_cases hne : w = []
    · right
      rw [hne]
      exact List.mem_singleton_self t
    · left
      obtain ⟨j, u, v, rfl, hu, hnil, ⟨i, hi, hv⟩, rfl⟩ := exists_nonempty_round hw hne
      have hpos : 0 < u.length := List.length_pos_of_ne_nil hnil
      rw [List.append_assoc]
      refine ⟨v ++ t, List.mem_filter.mpr ⟨(h _ _).mpr ⟨u, hu, rfl⟩, ?_⟩, ih hv ?_⟩
      · simp only [List.length_append, decide_eq_true_eq]
        omega
      · rw [List.length_append] at hn
        omega

theorem Reads.of_mem_rounds (h : m.Reads L) {n : Nat} {t t' : List α} (ht : t' ∈ m.rounds n t) :
    ∃ k ≤ n, ∃ u ∈ L ^ k, t = u ++ t' := by
  induction n generalizing t with
  | zero =>
    obtain rfl := List.mem_singleton.mp ht
    exact ⟨0, Nat.le_refl 0, [], Language.nil_mem_one, rfl⟩
  | succ n ih =>
    rw [rounds, List.mem_append, List.mem_flatMap] at ht
    rcases ht with ⟨t₁, hfirst, hrest⟩ | hlast
    · obtain ⟨u, hu, rfl⟩ := (h _ _).mp (List.mem_filter.mp hfirst).1
      obtain ⟨k, hk, v, hv, rfl⟩ := ih hrest
      refine ⟨k + 1, by omega, u ++ v, ?_, (List.append_assoc u v t').symm⟩
      rw [pow_succ']
      exact Language.append_mem_mul hu hv
    · obtain rfl := List.mem_singleton.mp hlast
      exact ⟨0, Nat.zero_le _, [], Language.nil_mem_one, rfl⟩

/-! ### The preferred way -/

theorem Reads.eager_of_nil_notMem (h : m.Reads L) (hnil : [] ∉ L) : m.Eager := by
  rintro t ⟨t', ht', -⟩
  obtain ⟨t₁, ts, hm⟩ := List.exists_cons_of_ne_nil (List.ne_nil_of_mem ht')
  exact ⟨t₁, ts, hm, h.length_lt hnil (hm ▸ List.mem_cons_self)⟩

/-- A matcher after one that prefers to read, when it does not fail. -/
theorem Eager.flatMap (he : m.Eager) (he' : m'.Eager) (h : m.Reads L) (h' : m'.Reads L')
    (hnil : [] ∈ L') : Eager fun t => (m t).flatMap m' := by
  rintro t ⟨t', ht', hlt⟩
  obtain ⟨t₁, hm, hm'⟩ := List.mem_flatMap.mp ht'
  obtain ⟨t₂, ts, hhead⟩ := List.exists_cons_of_ne_nil (List.ne_nil_of_mem hm)
  obtain ⟨t₃, ts', hhead'⟩ := List.exists_cons_of_ne_nil (h'.ne_nil hnil t₂)
  have hfirst : (m t).flatMap m' = t₃ :: (ts' ++ ts.flatMap m') := by
    rw [hhead, List.flatMap_cons, hhead', List.cons_append]
  refine ⟨t₃, _, hfirst, ?_⟩
  have hle : t₃.length ≤ t₂.length := h'.length_le (hhead' ▸ List.mem_cons_self)
  by_cases hread : ∃ t' ∈ m t, t'.length < t.length
  · -- The first matcher reads, and the second takes nothing back.
    obtain ⟨t₄, ts₄, heq, hlt₄⟩ := he t hread
    obtain ⟨rfl, -⟩ := List.cons.inj (hhead.symm.trans heq)
    omega
  · -- The first matcher leaves everything, so the second one reads.
    have hall : ∀ t' ∈ m t, t' = t := by
      intro t' hmem
      obtain ⟨u, -, rfl⟩ := (h t t').mp hmem
      have hlen : ¬ t'.length < (u ++ t').length := fun hlt => hread ⟨t', hmem, hlt⟩
      rw [List.length_append] at hlen
      rw [List.eq_nil_of_length_eq_zero (by omega : u.length = 0)]
      rfl
    obtain rfl := hall t₁ hm
    obtain rfl := hall t₂ (hhead ▸ List.mem_cons_self)
    obtain ⟨t₄, ts₄, heq, hlt₄⟩ := he' _ ⟨t', hm', hlt⟩
    obtain ⟨rfl, -⟩ := List.cons.inj (hhead'.symm.trans heq)
    exact hlt₄

theorem eager_one : Eager fun t : List α => [t] := by
  rintro t ⟨t', ht', hlt⟩
  rw [List.mem_singleton.mp ht'] at hlt
  exact absurd hlt (Nat.lt_irrefl _)

theorem Eager.times (he : m.Eager) (h : m.Reads L) (hnil : [] ∈ L) : ∀ n, (m.times n).Eager
  | 0 => eager_one
  | n + 1 => by
    refine he.flatMap (he.times h hnil n) h (h.times n) ?_
    exact Language.mem_pow.mpr ⟨List.replicate n [], by simp, List.length_replicate,
      fun y hy => (List.eq_of_mem_replicate hy) ▸ hnil⟩

/-- The rounds that are not required read when they can. -/
theorem Reads.eager_rounds (h : m.Reads L) (n : Nat) : (m.rounds n).Eager := by
  cases n with
  | zero => exact eager_one
  | succ n =>
    rintro t ⟨t', ht', hlt⟩
    rw [rounds] at ht' ⊢
    cases hfilter : (m t).filter fun t' => t'.length < t.length with
    | nil =>
      rw [hfilter, List.flatMap_nil, List.nil_append] at ht'
      rw [List.mem_singleton.mp ht'] at hlt
      exact absurd hlt (Nat.lt_irrefl _)
    | cons t₁ ts =>
      have hmem : t₁ ∈ (m t).filter fun t' => t'.length < t.length :=
        hfilter ▸ List.mem_cons_self
      have hshort : t₁.length < t.length := of_decide_eq_true (List.mem_filter.mp hmem).2
      -- The rounds after the first one leave at least themselves.
      have hself : t₁ ∈ m.rounds n t₁ :=
        h.mem_rounds (k := 0) Language.nil_mem_one (Or.inl (Nat.zero_le n)) t₁
      obtain ⟨t₂, ts₂, hhead⟩ := List.exists_cons_of_ne_nil (List.ne_nil_of_mem hself)
      obtain ⟨k, -, u, -, hu⟩ := h.of_mem_rounds (hhead ▸ List.mem_cons_self)
      refine ⟨t₂, ts₂ ++ ts.flatMap (m.rounds n) ++ [t], ?_, ?_⟩
      · rw [List.flatMap_cons, hhead]
        rfl
      · have hlen := congrArg List.length hu
        rw [List.length_append] at hlen
        omega

end Matcher

namespace Regex

open Matcher

variable {σ α : Type} (accepts : σ → α → Bool)

/-- The matching: what is left of the input, the preferred way first. -/
def run : Regex σ → Matcher α
  | sym _, [] => []
  | sym s, c :: t => if accepts s c then [t] else []
  | seq r s, t => (run r t).flatMap (run s)
  | alt r s, t => run r t ++ run s t
  | rep r lo extra, t =>
    (times (run r) lo t).flatMap fun t' => rounds (run r) (extra.getD t'.length) t'

/-- The language of an expression. -/
def lang : Regex σ → Language α
  | sym s => {w | ∃ c, w = [c] ∧ accepts s c = true}
  | seq r s => lang r * lang s
  | alt r s => lang r + lang s
  | rep r lo extra => {w | ∃ k, (∀ n ∈ extra, k ≤ n) ∧ w ∈ lang r ^ (lo + k)}

/-- Only the last branch of an alternation can be empty. -/
def EagerChoice : Regex σ → Prop
  | sym _ => True
  | seq r s => EagerChoice r ∧ EagerChoice s
  | alt r s => [] ∉ lang accepts r ∧ EagerChoice r ∧ EagerChoice s
  | rep r _ _ => EagerChoice r

variable {accepts}

/-- A symbol reads its language. -/
theorem reads_sym (s : σ) : (run accepts (sym s)).Reads (lang accepts (sym s)) := by
  intro t t'
  cases t with
  | nil =>
    refine iff_of_false List.not_mem_nil ?_
    rintro ⟨u, ⟨c, rfl, -⟩, heq⟩
    cases heq
  | cons c t =>
    rw [run]
    constructor
    · intro hmem
      split at hmem
      · rename_i hc
        rw [List.mem_singleton.mp hmem]
        exact ⟨[c], ⟨c, rfl, hc⟩, rfl⟩
      · exact absurd hmem List.not_mem_nil
    · rintro ⟨u, ⟨c', rfl, hc⟩, heq⟩
      obtain ⟨rfl, rfl⟩ := List.cons.inj heq
      rw [if_pos hc]
      exact List.mem_singleton_self _

/-- The ways of matching are the words of the language that the input begins with. -/
theorem mem_run_iff (r : Regex σ) : (run accepts r).Reads (lang accepts r) := by
  induction r with
  | sym s => exact reads_sym s
  | seq r s ihr ihs => exact ihr.flatMap ihs
  | alt r s ihr ihs =>
    intro t t'
    rw [run, List.mem_append, ihr t t', ihs t t', ← exists_or]
    refine exists_congr fun u => ?_
    rw [← or_and_right]
    rfl
  | rep r lo extra ih =>
    intro t t'
    rw [run, List.mem_flatMap]
    constructor
    · rintro ⟨t₁, hreq, hmore⟩
      obtain ⟨u, hu, rfl⟩ := (ih.times lo t t₁).mp hreq
      obtain ⟨k, hk, v, hv, rfl⟩ := ih.of_mem_rounds hmore
      refine ⟨u ++ v, ⟨k, ?_, ?_⟩, (List.append_assoc u v t').symm⟩
      · rintro n rfl
        exact hk
      · rw [pow_add]
        exact Language.append_mem_mul hu hv
    · rintro ⟨w, ⟨k, hk, hw⟩, rfl⟩
      rw [pow_add] at hw
      obtain ⟨u, hu, v, hv, rfl⟩ := Language.mem_mul.mp hw
      rw [List.append_assoc]
      refine ⟨v ++ t', (ih.times lo _ _).mpr ⟨u, hu, rfl⟩, ih.mem_rounds hv ?_ t'⟩
      cases extra with
      | none =>
        right
        rw [Option.getD_none, List.length_append]
        exact Nat.le_add_right _ _
      | some n => exact Or.inl (hk n rfl)

theorem reads_rounds (r : Regex σ) (extra : Option Nat) :
    Reads (fun t => rounds (run accepts r) (extra.getD t.length) t)
      (lang accepts (rep r 0 extra)) := by
  intro t t'
  have h : t' ∈ run accepts (rep r 0 extra) t ↔ ∃ u ∈ lang accepts (rep r 0 extra), t = u ++ t' :=
    mem_run_iff (rep r 0 extra) t t'
  rwa [run, times, List.flatMap_singleton] at h

/-- The preferred way reads something whenever some way does. -/
theorem eager_run {r : Regex σ} (h : r.EagerChoice accepts) : (run accepts r).Eager := by
  induction r with
  | sym s =>
    refine (reads_sym s).eager_of_nil_notMem ?_
    rintro ⟨c, hnil, -⟩
    cases hnil
  | seq r s ihr ihs =>
    by_cases hnil : [] ∈ lang accepts s
    · exact (ihr h.1).flatMap (ihs h.2) (mem_run_iff r) (mem_run_iff s) hnil
    · refine (mem_run_iff (seq r s)).eager_of_nil_notMem ?_
      intro hmem
      obtain ⟨u, hu, v, hv, heq⟩ := Language.mem_mul.mp hmem
      rw [(List.append_eq_nil_iff.mp heq).2] at hv
      exact hnil hv
  | alt r s ihr ihs =>
    obtain ⟨hnil, hr, hs⟩ := h
    rintro t ⟨t', ht', hlt⟩
    rw [run] at ht' ⊢
    cases hfirst : run accepts r t with
    | nil =>
      rw [hfirst, List.nil_append] at ht'
      exact ihs hs t ⟨t', ht', hlt⟩
    | cons t₁ ts =>
      have hmem : t₁ ∈ run accepts r t := hfirst ▸ List.mem_cons_self
      exact ⟨t₁, ts ++ run accepts s t, rfl, (mem_run_iff r).length_lt hnil hmem⟩
  | rep r lo extra ih =>
    have hmore : Eager fun t => rounds (run accepts r) (extra.getD t.length) t :=
      fun t => (mem_run_iff r).eager_rounds (extra.getD t.length) t
    have hempty : [] ∈ lang accepts (rep r 0 extra) :=
      ⟨0, fun n _ => Nat.zero_le n, Language.nil_mem_one⟩
    by_cases hnil : [] ∈ lang accepts r
    · exact ((ih h).times (mem_run_iff r) hnil lo).flatMap hmore ((mem_run_iff r).times lo)
        (reads_rounds r extra) hempty
    · cases lo with
      | zero =>
        intro t ht
        rw [run, times, List.flatMap_singleton] at ht ⊢
        exact hmore t ht
      | succ lo =>
        refine (mem_run_iff (rep r (lo + 1) extra)).eager_of_nil_notMem ?_
        rintro ⟨k, -, hmem⟩
        rw [Nat.add_right_comm, pow_succ'] at hmem
        obtain ⟨u, hu, v, -, heq⟩ := Language.mem_mul.mp hmem
        rw [(List.append_eq_nil_iff.mp heq).1] at hu
        exact hnil hu

/-- The head of the list reads a word of the language, when the input begins with one that is not
empty. -/
theorem exists_head_run {r : Regex σ} (h : r.EagerChoice accepts) {u t : List α}
    (hu : u ∈ lang accepts r) (hne : u ≠ []) :
    ∃ w t', w ≠ [] ∧ w ∈ lang accepts r ∧ u ++ t = w ++ t' ∧
      (run accepts r (u ++ t)).head? = some t' := by
  have hpos : 0 < u.length := List.length_pos_of_ne_nil hne
  obtain ⟨t', ts, hrun, hlt⟩ := eager_run h (u ++ t)
    ⟨t, (mem_run_iff r _ _).mpr ⟨u, hu, rfl⟩, by rw [List.length_append]; omega⟩
  obtain ⟨w, hw, heq⟩ := (mem_run_iff r _ _).mp (hrun ▸ List.mem_cons_self)
  refine ⟨w, t', ?_, hw, heq, by rw [hrun]; rfl⟩
  rintro rfl
  rw [heq] at hlt
  exact absurd hlt (Nat.lt_irrefl _)

end Regex
