import Mathlib.Order.Basic

/-!
# `Lib.BlockCopy`: a sequence of copies inside one memory

A `Copy` writes the `len` places from `src` on over the ones from `dst` on. `execAll` is a
list of copies, in order. What a place holds in the end is what one place held in the
beginning: `trace` says which (`execAll_eq`).

`trace_eq` is the case in which nothing is overwritten before it is read. `trace_rel` bounds
the place by what each single copy can do, when places are overwritten and read again.

`spread` is the same list of copies for cells that are `unit` places wide, and that repeat in
`rows` rows, `stride` places apart. It moves the places of a cell the way the list moves the
cell (`trace_spread`).
-/

namespace BlockCopy

/-- One copy of `len` places. -/
structure Copy where
  src : Nat
  dst : Nat
  len : Nat
  deriving DecidableEq, Repr

/-- The copy writes the place. -/
def Copy.Writes (c : Copy) (a : Nat) : Prop := c.dst ≤ a ∧ a < c.dst + c.len

instance (c : Copy) : DecidablePred c.Writes :=
  fun a => inferInstanceAs (Decidable (c.dst ≤ a ∧ a < c.dst + c.len))

/-- Both ends of the copy lie in a memory of `n` places. -/
def Copy.Fits (c : Copy) (n : Nat) : Prop := c.src + c.len ≤ n ∧ c.dst + c.len ≤ n

instance (c : Copy) (n : Nat) : Decidable (c.Fits n) :=
  inferInstanceAs (Decidable (c.src + c.len ≤ n ∧ c.dst + c.len ≤ n))

/-- Where the content of a place comes from. -/
def Copy.source (c : Copy) (a : Nat) : Nat := if c.Writes a then c.src + (a - c.dst) else a

section
variable {α : Type}

/-- The memory after a copy. -/
def Copy.exec (c : Copy) (m : Nat → α) : Nat → α := fun a => m (c.source a)

/-- The memory after a list of copies. -/
def execAll (cs : List Copy) (m : Nat → α) : Nat → α := cs.foldl (fun m c => c.exec m) m

/-- Where the content of a place comes from in the end. -/
def trace : List Copy → Nat → Nat
  | [], a => a
  | c :: cs, a => c.source (trace cs a)

theorem execAll_eq (cs : List Copy) (m : Nat → α) (a : Nat) :
    execAll cs m a = m (trace cs a) := by
  induction cs generalizing m with
  | nil => rfl
  | cons c cs ih => exact ih (c.exec m)

/-- A place holds what another one held, whatever that was, exactly when it comes from there. -/
theorem trace_eq_iff [Nontrivial α] {cs : List Copy} {a s : Nat} :
    trace cs a = s ↔ ∀ m : Nat → α, execAll cs m a = m s := by
  constructor
  · rintro rfl m
    exact execAll_eq cs m a
  · intro h
    obtain ⟨u, v, huv⟩ := exists_pair_ne α
    by_contra hne
    have hs := h fun x => if x = s then u else v
    rw [execAll_eq, if_neg hne, if_pos rfl] at hs
    exact huv hs.symm

end

theorem Copy.source_of_not_writes {c : Copy} {a : Nat} (h : ¬ c.Writes a) : c.source a = a :=
  if_neg h

theorem Copy.source_of_writes {c : Copy} {a : Nat} (h : c.Writes a) :
    c.source a = c.src + (a - c.dst) :=
  if_pos h

section
variable {cs : List Copy} {a s : Nat}

theorem trace_of_not_writes (h : ∀ c ∈ cs, ¬ c.Writes a) : trace cs a = a := by
  induction cs with
  | nil => rfl
  | cons c cs ih =>
    rw [trace, ih fun d hd => h d (List.mem_cons_of_mem _ hd)]
    exact Copy.source_of_not_writes (h c (List.mem_cons_self ..))

/-- The place is written from `s` only, and `s` is not written. -/
theorem trace_eq (hs : ∀ c ∈ cs, ¬ c.Writes s) (ha : ∀ c ∈ cs, c.Writes a → c.source a = s)
    (hsome : ∃ c ∈ cs, c.Writes a) : trace cs a = s := by
  induction cs with
  | nil =>
    obtain ⟨c, hc, -⟩ := hsome
    cases hc
  | cons c cs ih =>
    rw [trace]
    by_cases hlater : ∃ d ∈ cs, d.Writes a
    · rw [ih (fun d hd => hs d (List.mem_cons_of_mem _ hd))
        (fun d hd => ha d (List.mem_cons_of_mem _ hd)) hlater]
      exact Copy.source_of_not_writes (hs c (List.mem_cons_self ..))
    · have hnone : ∀ d ∈ cs, ¬ d.Writes a := fun d hd hw => hlater ⟨d, hd, hw⟩
      rw [trace_of_not_writes hnone]
      obtain ⟨d, hd, hw⟩ := hsome
      rcases List.mem_cons.mp hd with rfl | hd
      · exact ha d (List.mem_cons_self ..) hw
      · exact absurd hw (hnone d hd)

/-- What relates a written place to its source for each copy relates it for the whole list. -/
theorem trace_rel (cs : List Copy) {P : Nat → Nat → Prop} (htrans : ∀ x y z, P x y → P y z → P x z)
    (hstep : ∀ c ∈ cs, ∀ x, c.Writes x → P x (c.source x)) (a : Nat) :
    trace cs a = a ∨ P a (trace cs a) := by
  induction cs with
  | nil => exact Or.inl rfl
  | cons c cs ih =>
    have hrest := ih fun d hd => hstep d (List.mem_cons_of_mem _ hd)
    rw [trace]
    by_cases hw : c.Writes (trace cs a)
    · right
      have hfirst := hstep c (List.mem_cons_self ..) _ hw
      rcases hrest with heq | hrel
      · rw [heq] at hfirst ⊢
        exact hfirst
      · exact htrans _ _ _ hrel hfirst
    · rw [Copy.source_of_not_writes hw]
      exact hrest

theorem trace_append (cs ds : List Copy) (a : Nat) :
    trace (cs ++ ds) a = trace cs (trace ds a) := by
  induction cs with
  | nil => rfl
  | cons c cs ih => rw [List.cons_append, trace, trace, ih]

end

theorem Copy.source_lt {c : Copy} {n x : Nat} (hfits : c.Fits n) (hx : x < n) :
    c.source x < n := by
  by_cases hw : c.Writes x
  · have := hfits.1
    have := hw.2
    have := hw.1
    rw [Copy.source_of_writes hw]
    omega
  · rw [Copy.source_of_not_writes hw]
    exact hx

theorem trace_lt {cs : List Copy} {n x : Nat} (hfits : ∀ c ∈ cs, c.Fits n) (hx : x < n) :
    trace cs x < n := by
  induction cs with
  | nil => exact hx
  | cons c cs ih =>
    have hrest := ih fun d hd => hfits d (List.mem_cons_of_mem _ hd)
    exact c.source_lt (hfits c (List.mem_cons_self ..)) hrest

/-! ### Cells that are wider than one place -/

/-- The copy of row `r`. -/
def Copy.row (stride unit : Nat) (c : Copy) (r : Nat) : Copy where
  src := r * stride + unit * c.src
  dst := r * stride + unit * c.dst
  len := unit * c.len

/-- The copies of all the rows. -/
def spread (rows stride unit : Nat) (cs : List Copy) : List Copy :=
  cs.flatMap fun c => (List.range rows).map (c.row stride unit)

section
variable {rows stride unit : Nat}

/-- A place lies in the places of a run of cells exactly when its cell lies in the run. -/
theorem cell_mem_iff {x e lo n : Nat} (he : e < unit) :
    (unit * lo ≤ unit * x + e ∧ unit * x + e < unit * lo + unit * n) ↔ lo ≤ x ∧ x < lo + n := by
  rw [← Nat.mul_add]
  constructor
  · rintro ⟨hlo, hhi⟩
    constructor
    · by_contra hlt
      have : unit * (x + 1) ≤ unit * lo := Nat.mul_le_mul_left _ (by omega)
      rw [Nat.mul_add] at this
      omega
    · by_contra hge
      have : unit * (lo + n) ≤ unit * x := Nat.mul_le_mul_left _ (by omega)
      omega
  · rintro ⟨hlo, hhi⟩
    have h₁ : unit * lo ≤ unit * x := Nat.mul_le_mul_left _ hlo
    have h₂ : unit * (x + 1) ≤ unit * (lo + n) := Nat.mul_le_mul_left _ (by omega)
    rw [Nat.mul_add unit x 1] at h₂
    omega

/-- The row of a place. -/
theorem row_eq {r r' y y' : Nat} (hy : y < stride) (hy' : y' < stride)
    (h : r * stride + y = r' * stride + y') : r = r' ∧ y = y' := by
  have hr : r = r' := by
    rcases Nat.lt_trichotomy r r' with hlt | heq | hlt
    · have : (r + 1) * stride ≤ r' * stride := Nat.mul_le_mul_right _ hlt
      rw [Nat.succ_mul] at this
      omega
    · exact heq
    · have : (r' + 1) * stride ≤ r * stride := Nat.mul_le_mul_right _ hlt
      rw [Nat.succ_mul] at this
      omega
  subst hr
  exact ⟨rfl, by omega⟩

section
variable {c : Copy} {n x e r r' : Nat} (hn : unit * n ≤ stride) (hfits : c.Fits n) (hx : x < n)
  (he : e < unit)
include hn hx he

theorem place_lt : unit * x + e < stride := by
  have : unit * (x + 1) ≤ unit * n := Nat.mul_le_mul_left _ hx
  rw [Nat.mul_add] at this
  omega

include hfits

theorem row_writes_iff :
    (c.row stride unit r').Writes (r * stride + unit * x + e) ↔ r' = r ∧ c.Writes x := by
  have hlt := place_lt hn hx he
  have hdst : unit * c.dst + unit * c.len ≤ stride := by
    rw [← Nat.mul_add]
    exact Nat.le_trans (Nat.mul_le_mul_left _ hfits.2) hn
  constructor
  · rintro ⟨hlo, hhi⟩
    simp only [Copy.row] at hlo hhi
    have hsame : r' * stride + (r * stride + unit * x + e - r' * stride)
        = r * stride + (unit * x + e) := by omega
    obtain ⟨hr, hy⟩ := row_eq (by omega) hlt hsame
    rw [hr] at hlo hhi
    exact ⟨hr, (cell_mem_iff he).mp (by omega)⟩
  · rintro ⟨rfl, hw⟩
    have := (cell_mem_iff he).mpr (show c.dst ≤ x ∧ x < c.dst + c.len from hw)
    simp only [Copy.Writes, Copy.row]
    omega

theorem row_source :
    (c.row stride unit r').source (r * stride + unit * x + e)
      = if r' = r then r * stride + unit * c.source x + e else r * stride + unit * x + e := by
  by_cases hw : (c.row stride unit r').Writes (r * stride + unit * x + e)
  · obtain ⟨rfl, hwx⟩ := (row_writes_iff hn hfits hx he).mp hw
    rw [if_pos rfl, Copy.source_of_writes hw, Copy.source_of_writes hwx, Nat.mul_add, Nat.mul_sub]
    have := Nat.mul_le_mul_left unit hwx.1
    simp only [Copy.row]
    omega
  · rw [Copy.source_of_not_writes hw]
    split
    · rename_i hr
      have hwx : ¬ c.Writes x := fun hwx => hw ((row_writes_iff hn hfits hx he).mpr ⟨hr, hwx⟩)
      rw [Copy.source_of_not_writes hwx]
    · rfl

/-- One copy, in all its rows. -/
theorem trace_rows {rs : List Nat} (hnd : rs.Nodup) :
    trace (rs.map (c.row stride unit)) (r * stride + unit * x + e)
      = if r ∈ rs then r * stride + unit * c.source x + e else r * stride + unit * x + e := by
  induction rs with
  | nil => rfl
  | cons r' rs ih =>
    obtain ⟨hr', hnd⟩ := List.nodup_cons.mp hnd
    rw [List.map_cons, trace, ih hnd]
    by_cases hr : r ∈ rs
    · -- the other rows leave the source alone
      have hne : r' ≠ r := fun heq => hr' (heq ▸ hr)
      rw [if_pos hr, row_source hn hfits (c.source_lt hfits hx) he, if_neg hne,
        if_pos (List.mem_cons_of_mem _ hr)]
    · rw [if_neg hr, row_source hn hfits hx he]
      by_cases heq : r' = r
      · rw [if_pos heq, if_pos (by simp [heq])]
      · rw [if_neg heq, if_neg (by simp [hr, Ne.symm heq])]

end

/-- The places of a cell move as the cell does. -/
theorem trace_spread {cs : List Copy} {n x e r : Nat} (hn : unit * n ≤ stride)
    (hfits : ∀ c ∈ cs, c.Fits n) (hx : x < n) (he : e < unit) (hr : r < rows) :
    trace (spread rows stride unit cs) (r * stride + unit * x + e)
      = r * stride + unit * trace cs x + e := by
  induction cs with
  | nil => rfl
  | cons c cs ih =>
    have hrest : ∀ d ∈ cs, d.Fits n := fun d hd => hfits d (List.mem_cons_of_mem _ hd)
    have hlt := trace_lt hrest hx
    rw [spread, List.flatMap_cons, trace_append]
    rw [spread] at ih
    rw [ih hrest, trace_rows hn (hfits c (List.mem_cons_self ..)) hlt he List.nodup_range,
      if_pos (List.mem_range.mpr hr)]
    rfl

/-- The places behind the rows are not written. -/
theorem trace_spread_of_ge {cs : List Copy} {n a : Nat} (hn : unit * n ≤ stride)
    (hfits : ∀ c ∈ cs, c.Fits n) (ha : rows * stride ≤ a) :
    trace (spread rows stride unit cs) a = a := by
  apply trace_of_not_writes
  intro d hd hw
  simp only [spread, List.mem_flatMap, List.mem_map, List.mem_range] at hd
  obtain ⟨c, hc, r, hr, rfl⟩ := hd
  have hdst : unit * c.dst + unit * c.len ≤ stride := by
    rw [← Nat.mul_add]
    exact Nat.le_trans (Nat.mul_le_mul_left _ (hfits c hc).2) hn
  have hrows : (r + 1) * stride ≤ rows * stride := Nat.mul_le_mul_right _ hr
  have hhi := hw.2
  simp only [Copy.row] at hhi
  rw [Nat.succ_mul] at hrows
  omega

end

end BlockCopy
