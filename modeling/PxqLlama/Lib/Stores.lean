import Mathlib.Data.List.Perm.Basic

/-!
# `Lib.Stores`: a memory written by a list of stores

A memory is a function from addresses to values. `Stores.run ws m` performs the
stores `ws` on `m`, first to last. The module says what a read of the result
returns:

* `run_apply_of_forall_ne`: an address that no store hits keeps its value.
* `run_apply_of_forall_eq`: an address that some store hits, and that every
  store which hits it gives the value `v`, holds `v`.
* `run_congr`: when the stores agree with each other (`Agree`), the result
  depends only on which stores there are. Their order and their number do not
  matter, so any interleaving of writers that agree leaves the same memory.

Nothing here names a program: the addresses and the values are arbitrary types.
-/

namespace Stores

variable {α β : Type} [DecidableEq α]

/-- The memory after the stores `ws`, performed first to last on `m`. -/
def run (ws : List (α × β)) (m : α → β) : α → β :=
  ws.foldl (fun m w => Function.update m w.1 w.2) m

@[simp] theorem run_nil (m : α → β) : run [] m = m := rfl

@[simp] theorem run_cons (w : α × β) (ws : List (α × β)) (m : α → β) :
    run (w :: ws) m = run ws (Function.update m w.1 w.2) := rfl

theorem run_append (ws ws' : List (α × β)) (m : α → β) :
    run (ws ++ ws') m = run ws' (run ws m) := by
  simp [run, List.foldl_append]

/-- Runs of stores one after the other are one run. -/
theorem foldl_run {γ : Type} (l : List γ) (f : γ → List (α × β)) (m : α → β) :
    l.foldl (fun m c => run (f c) m) m = run (l.flatMap f) m := by
  induction l generalizing m with
  | nil => rfl
  | cons c l ih => rw [List.foldl_cons, ih, List.flatMap_cons, run_append]

variable {ws : List (α × β)} {a : α}

/-- An address that no store hits keeps its value. -/
theorem run_apply_of_forall_ne (m : α → β) (h : ∀ w ∈ ws, w.1 ≠ a) : run ws m a = m a := by
  induction ws generalizing m with
  | nil => rfl
  | cons w ws ih =>
    rw [run_cons, ih _ (fun w' hw' => h w' (by simp [hw']))]
    exact Function.update_of_ne (h w (by simp)).symm _ _

/-- An address that every store which hits it gives the value `v` holds `v` after the
run, when it held `v` before or some store hits it. -/
theorem run_apply_of_forall_eq' {v : β} (m : α → β) (hval : ∀ w ∈ ws, w.1 = a → w.2 = v)
    (hhit : m a = v ∨ ∃ w ∈ ws, w.1 = a) : run ws m a = v := by
  induction ws generalizing m with
  | nil => simpa using hhit
  | cons w ws ih =>
    rw [run_cons]
    refine ih _ (fun w' hw' => hval w' (by simp [hw'])) ?_
    by_cases hwa : w.1 = a
    · -- The first store gives the address its value, and the rest keep it.
      left
      rw [hwa, Function.update_self]
      exact hval w (by simp) hwa
    · rcases hhit with hm | ⟨w', hw', hw'a⟩
      · exact Or.inl (by rw [Function.update_of_ne (Ne.symm hwa), hm])
      · rcases List.mem_cons.mp hw' with rfl | hmem
        · exact absurd hw'a hwa
        · exact Or.inr ⟨w', hmem, hw'a⟩

/-- An address that some store hits, and that every store which hits it gives the value
`v`, holds `v` after the run. -/
theorem run_apply_of_forall_eq {v : β} (m : α → β) (hval : ∀ w ∈ ws, w.1 = a → w.2 = v)
    (hhit : ∃ w ∈ ws, w.1 = a) : run ws m a = v :=
  run_apply_of_forall_eq' m hval (Or.inr hhit)

/-- Two stores of the list that hit one address write one value. -/
def Agree (ws : List (α × β)) : Prop :=
  ∀ w ∈ ws, ∀ w' ∈ ws, w.1 = w'.1 → w.2 = w'.2

/-- A store of an agreeing list is what a read of its address returns. -/
theorem Agree.run_apply (hag : Agree ws) (m : α → β) {w : α × β} (hw : w ∈ ws) :
    run ws m w.1 = w.2 :=
  run_apply_of_forall_eq m (fun w' hw' heq => hag w' hw' w hw heq) ⟨w, hw, rfl⟩

/-- Agreeing stores leave a memory that depends only on the set of the stores. -/
theorem run_congr {ws' : List (α × β)} (hag : Agree ws) (hmem : ∀ w, w ∈ ws ↔ w ∈ ws') (m : α → β) :
    run ws m = run ws' m := by
  have hag' : Agree ws' := fun w hw w' hw' =>
    hag w ((hmem w).mpr hw) w' ((hmem w').mpr hw')
  funext a
  by_cases hhit : ∃ w ∈ ws, w.1 = a
  · obtain ⟨w, hw, rfl⟩ := hhit
    rw [hag.run_apply m hw, hag'.run_apply m ((hmem w).mp hw)]
  · have hnone : ∀ w ∈ ws, w.1 ≠ a := fun w hw hwa => hhit ⟨w, hw, hwa⟩
    rw [run_apply_of_forall_ne m hnone,
      run_apply_of_forall_ne m (fun w hw => hnone w ((hmem w).mpr hw))]

/-- Agreeing stores leave the same memory in every order. -/
theorem run_perm {ws' : List (α × β)} (hag : Agree ws) (hp : ws.Perm ws') (m : α → β) :
    run ws m = run ws' m :=
  run_congr hag (fun _ => hp.mem_iff) m

/-- Addresses may be renamed along an injection: the stores at renamed addresses act on a
memory as the stores at the old ones act on the part of it that they see. -/
theorem run_map_injective {γ : Type} [DecidableEq γ] {g : γ → α}
    (hg : Function.Injective g) (ws : List (γ × β)) (m : α → β) (c : γ) :
    run (ws.map fun w => (g w.1, w.2)) m (g c) = run ws (fun c => m (g c)) c := by
  induction ws generalizing m with
  | nil => rfl
  | cons w ws ih =>
    rw [List.map_cons, run_cons, run_cons, ih]
    congr 1
    funext c'
    by_cases hc : c' = w.1
    · rw [hc, Function.update_self, Function.update_self]
    · rw [Function.update_of_ne hc, Function.update_of_ne (fun h => hc (hg h))]

end Stores

/-!
## A ring that keeps the latest of `S` positions

Positions `0, 1, 2, …` are stored in `S` rows, position `q` in row `q % S`. After the
positions below `n` a row holds the latest one of its residue (`IsLatest`). `content` is
that state of the ring, with any function `f` of the position as the stored value.

`run_content` is the step: stores of the positions from `n` to `n + m - 1`, in any order
and possibly only the last of each row, take `content S n` to `content S (n + m)`. A ring
that is filled in batches is therefore the ring filled one position at a time.
-/

namespace Ring

/-- `q` is the latest position below `n` that belongs to row `r`. -/
structure IsLatest (S n r q : Nat) : Prop where
  lt : q < n
  row : q % S = r
  le : n ≤ q + S

/-- Two positions of one row are at least `S` apart. -/
theorem add_le_of_mod_eq {S q q' : Nat} (h : q % S = q' % S) (hlt : q < q') : q + S ≤ q' := by
  have hdvd : S ∣ q' - q := Nat.dvd_of_mod_eq_zero (Nat.sub_mod_eq_zero_of_mod_eq h.symm)
  have := Nat.le_of_dvd (by omega) hdvd
  omega

theorem IsLatest.unique {S n r q q' : Nat} (h : IsLatest S n r q) (h' : IsLatest S n r q') :
    q = q' := by
  have hlt := h.lt
  have hlt' := h'.lt
  have hle := h.le
  have hle' := h'.le
  have hrow := h.row.trans h'.row.symm
  rcases Nat.lt_trichotomy q q' with hqq | hqq | hqq
  · have := add_le_of_mod_eq hrow hqq
    omega
  · exact hqq
  · have := add_le_of_mod_eq hrow.symm hqq
    omega

/-- The latest position below `n` of row `r`, when `r < n`. -/
def latest (S n r : Nat) : Nat := n - 1 - (n - 1 - r) % S

/-- The latest store to a place, in closed form. -/
theorem isLatest_latest {S n r : Nat} (hr : r < S) (hn : r < n) :
    IsLatest S n r (latest S n r) := by
  have hmod := Nat.mod_lt (n - 1 - r) (show 0 < S by omega)
  have hdm := Nat.div_add_mod (n - 1 - r) S
  -- The latest position is `r` plus a whole number of turns.
  have hq : latest S n r = r + S * ((n - 1 - r) / S) := by
    rw [latest]
    omega
  refine ⟨?_, ?_, ?_⟩
  · rw [latest]
    omega
  · rw [hq, Nat.add_mul_mod_self_left, Nat.mod_eq_of_lt hr]
  · rw [latest]
    omega

/-- A position that stays the last of its row stays the latest. -/
theorem IsLatest.extend {S n m r q : Nat} (h : IsLatest S n r q)
    (hnone : ∀ x, n ≤ x → x < n + m → x % S ≠ r) : IsLatest S (n + m) r q := by
  have hlt := h.lt
  refine ⟨by omega, h.row, ?_⟩
  by_contra hle
  -- Otherwise `q + S` is a later position of the row.
  have := hnone (q + S) h.le (by omega)
  rw [Nat.add_mod_right] at this
  exact this h.row

variable {β : Type}

/-- The ring after the positions below `n`: row `r` holds `f` of the latest position of
the row, and `e` when there is none. -/
def content (S n : Nat) (f : Nat → β) (e : β) (r : Nat) : β :=
  if r < S ∧ r < n then f (latest S n r) else e

theorem content_eq {S n r q : Nat} (hS : 0 < S) (f : Nat → β) (e : β)
    (h : IsLatest S n r q) : content S n f e r = f q := by
  have hr : r < S := by
    rw [← h.row]
    exact Nat.mod_lt q hS
  have hn : r < n := by
    have := h.lt
    have := h.row
    have := Nat.mod_le q S
    omega
  rw [content, if_pos ⟨hr, hn⟩, (isLatest_latest hr hn).unique h]

theorem content_zero (S : Nat) (f : Nat → β) (e : β) : content S 0 f e = fun _ => e := by
  funext r
  rw [content, if_neg (by omega)]

/-- Stores of the positions `n, …, n + m - 1` take the ring from `n` to `n + m`. Each store
puts a position that is the latest of its row by then, and each row with a new position is
hit. -/
theorem run_content {S n m : Nat} (hS : 0 < S) (f : Nat → β) (e : β) {ws : List (Nat × β)}
    (hval : ∀ w ∈ ws, ∃ q, n ≤ q ∧ IsLatest S (n + m) w.1 q ∧ w.2 = f q)
    (hhit : ∀ q, n ≤ q → q < n + m → ∃ w ∈ ws, w.1 = q % S) :
    Stores.run ws (content S n f e) = content S (n + m) f e := by
  funext r
  by_cases hr : ∃ w ∈ ws, w.1 = r
  · refine Stores.run_apply_of_forall_eq _ (fun w hw hwr => ?_) hr
    obtain ⟨q, _, hq, hwq⟩ := hval w hw
    rw [hwr] at hq
    rw [hwq, content_eq hS f e hq]
  · have hnone : ∀ w ∈ ws, w.1 ≠ r := fun w hw hwr => hr ⟨w, hw, hwr⟩
    have hnew : ∀ x, n ≤ x → x < n + m → x % S ≠ r := by
      intro x hx hx' hxr
      obtain ⟨w, hw, hwx⟩ := hhit x hx hx'
      exact hnone w hw (hwx.trans hxr)
    rw [Stores.run_apply_of_forall_ne _ hnone]
    by_cases hcond : r < S ∧ r < n
    · have hlat := isLatest_latest hcond.1 hcond.2
      rw [content_eq hS f e hlat, content_eq hS f e (hlat.extend hnew)]
    · -- The row was empty, and no new position came to it.
      have hcond' : ¬ (r < S ∧ r < n + m) := by
        rintro ⟨hrS, hrn⟩
        exact hnew r (by omega) hrn (Nat.mod_eq_of_lt hrS)
      rw [content, content, if_neg hcond, if_neg hcond']

/-- Storing every one of at most `S` positions, in order. -/
theorem run_content_map {S n m : Nat} (hm : m ≤ S) (hS : 0 < S) (f : Nat → β) (e : β) :
    Stores.run ((List.range m).map fun i => ((n + i) % S, f (n + i))) (content S n f e)
      = content S (n + m) f e := by
  refine run_content hS f e ?_ ?_
  · intro w hw
    obtain ⟨i, hi, rfl⟩ := List.mem_map.mp hw
    have hi := List.mem_range.mp hi
    exact ⟨n + i, by omega, ⟨by omega, rfl, by omega⟩, rfl⟩
  · intro q hq hq'
    refine ⟨((n + (q - n)) % S, f (n + (q - n))),
      List.mem_map.mpr ⟨q - n, List.mem_range.mpr (by omega), rfl⟩, ?_⟩
    show (n + (q - n)) % S = q % S
    rw [show n + (q - n) = q from by omega]

end Ring
