import Mathlib.Algebra.GroupWithZero.Nat
import Mathlib.Data.List.Flatten
import Mathlib.Data.List.Perm.Basic

/-!
# `Lib.WorkQueue`: workers that draw job numbers from a shared counter

A common thread pool: `n` jobs, an atomic counter, and workers that each loop

    j = counter.fetch_add(1);  if (j >= n) break;  run job j;

A job is a list of events that the worker performs one at a time. `Step` interleaves the
workers event by event, in any order. `trace` is the list of the events so far, in the
order in which they happened.

* `Inv` is the invariant: the events so far, with what the workers still owe, are those of
  the jobs drawn, each job once.
* `trace_perm`: when every worker has stopped, the trace is a permutation of the events of
  the `n` jobs in order.
* `exists_step` and `Step.measure_lt`: a pool that is not finished can move, and every step
  uses up some work, so every schedule ends. `exists_done` draws the conclusion.
-/

namespace WorkQueue

variable {ε : Type}

/-- What a worker is doing. -/
inductive Worker (ε : Type)
  /-- About to draw a job number. -/
  | ready
  /-- In a job, with the events it has still to perform. -/
  | running (rest : List ε)
  /-- Out of its loop. -/
  | stopped
  deriving DecidableEq

/-- The events that a worker has drawn and not yet performed. -/
def Worker.pending : Worker ε → List ε
  | ready => []
  | running rest => rest
  | stopped => []

structure State (ε : Type) where
  counter : Nat
  workers : List (Worker ε)
  trace : List ε

/-- The pool before its first step: `k` workers. -/
def start (k : Nat) : State ε := ⟨0, List.replicate k .ready, []⟩

/-- One step of worker `i`. -/
inductive Step (n : Nat) (jobs : Nat → List ε) : State ε → State ε → Prop
  | draw {s : State ε} {i : Nat} (hi : s.workers[i]? = some .ready) (hj : s.counter < n) :
      Step n jobs s { s with
        counter := s.counter + 1
        workers := s.workers.set i (.running (jobs s.counter)) }
  | stop {s : State ε} {i : Nat} (hi : s.workers[i]? = some .ready) (hj : n ≤ s.counter) :
      Step n jobs s { s with
        counter := s.counter + 1
        workers := s.workers.set i .stopped }
  | emit {s : State ε} {i : Nat} {e : ε} {rest : List ε}
      (hi : s.workers[i]? = some (.running (e :: rest))) :
      Step n jobs s { s with
        workers := s.workers.set i (.running rest)
        trace := s.trace ++ [e] }
  | finish {s : State ε} {i : Nat} (hi : s.workers[i]? = some (.running [])) :
      Step n jobs s { s with workers := s.workers.set i .ready }

/-- The states that a schedule reaches. -/
abbrev Reach (n : Nat) (jobs : Nat → List ε) : State ε → State ε → Prop :=
  Relation.ReflTransGen (Step n jobs)

/-- Every worker has left its loop: the `join`s return. -/
def Done (s : State ε) : Prop := ∀ w ∈ s.workers, w = .stopped

/-! ### The invariant -/

/-- Replacing one element of a list trades its image for the new one's. -/
theorem flatMap_set_perm {α β : Type} (f : α → List β) {l : List α} {i : Nat} {a : α}
    (b : α) (h : l[i]? = some a) :
    ((l.set i b).flatMap f ++ f a).Perm (l.flatMap f ++ f b) := by
  induction l generalizing i with
  | nil => simp at h
  | cons x l ih =>
    cases i with
    | zero =>
      simp only [List.getElem?_cons_zero, Option.some.injEq] at h
      subst h
      simp only [List.set_cons_zero, List.flatMap_cons, List.append_assoc]
      refine List.perm_append_comm.trans ((List.perm_append_comm.append_right _).trans ?_)
      rw [List.append_assoc]
    | succ i =>
      simp only [List.getElem?_cons_succ] at h
      simp only [List.set_cons_succ, List.flatMap_cons, List.append_assoc]
      exact (ih h).append_left _

/-- The events so far, together with what the workers owe, are those of the jobs drawn
and of no other; and a worker stops only when the jobs are drawn. -/
structure Inv (n : Nat) (jobs : Nat → List ε) (s : State ε) : Prop where
  owed : (s.trace ++ s.workers.flatMap Worker.pending).Perm
    ((List.range (min s.counter n)).flatMap jobs)
  drawn : .stopped ∈ s.workers → n ≤ s.counter

theorem inv_start (n : Nat) (jobs : Nat → List ε) (k : Nat) : Inv n jobs (start k) where
  owed := by simp [start, Worker.pending]
  drawn := by simp [start, List.mem_replicate]

variable {n : Nat} {jobs : Nat → List ε}

/-- Each step of a worker keeps the invariant of the queue. -/
theorem Step.inv {s s' : State ε} (h : Step n jobs s s') (hs : Inv n jobs s) : Inv n jobs s' := by
  cases h with
  | @draw i hi hj =>
    refine ⟨?_, fun hmem => ?_⟩
    · -- The new job joins the range, and its events join what is owed.
      have hset := flatMap_set_perm Worker.pending (.running (jobs s.counter)) hi
      simp only [Worker.pending, List.append_nil] at hset
      have hmin : min (s.counter + 1) n = min s.counter n + 1 := by omega
      have hlast : min s.counter n = s.counter := by omega
      simp only [hmin, List.range_succ, List.flatMap_append, List.flatMap_singleton]
      rw [hlast]
      refine (hset.append_left _).trans ?_
      rw [← List.append_assoc]
      have howed := hs.owed
      rw [hlast] at howed
      exact howed.append_right _
    · rcases List.mem_or_eq_of_mem_set hmem with hmem | heq
      · exact Nat.le_succ_of_le (hs.drawn hmem)
      · cases heq
  | @stop i hi hj =>
    refine ⟨?_, fun _ => Nat.le_succ_of_le hj⟩
    have hset := flatMap_set_perm Worker.pending .stopped hi
    simp only [Worker.pending, List.append_nil] at hset
    have hmin : min (s.counter + 1) n = min s.counter n := by omega
    rw [hmin]
    exact (hset.append_left _).trans hs.owed
  | @emit i e rest hi =>
    refine ⟨?_, fun hmem => ?_⟩
    · -- The event leaves what is owed and goes to the end of the trace.
      have hset := flatMap_set_perm Worker.pending (.running rest) hi
      simp only [Worker.pending] at hset
      rw [List.append_cons, List.perm_append_right_iff] at hset
      refine List.Perm.trans ?_ hs.owed
      simp only [List.append_assoc]
      exact (List.perm_append_comm.trans hset).append_left _
    · rcases List.mem_or_eq_of_mem_set hmem with hmem | heq
      · exact hs.drawn hmem
      · cases heq
  | @finish i hi =>
    refine ⟨?_, fun hmem => ?_⟩
    · have hset := flatMap_set_perm Worker.pending .ready hi
      simp only [Worker.pending, List.append_nil] at hset
      exact (hset.append_left _).trans hs.owed
    · rcases List.mem_or_eq_of_mem_set hmem with hmem | heq
      · exact hs.drawn hmem
      · cases heq

theorem Reach.inv {s s' : State ε} (h : Reach n jobs s s') (hs : Inv n jobs s) : Inv n jobs s' := by
  induction h with
  | refl => exact hs
  | tail _ hstep ih => exact hstep.inv ih

theorem Step.length_workers {s s' : State ε} (h : Step n jobs s s') :
    s'.workers.length = s.workers.length := by
  cases h <;> exact List.length_set ..

theorem Reach.length_workers {s s' : State ε} (h : Reach n jobs s s') :
    s'.workers.length = s.workers.length := by
  induction h with
  | refl => rfl
  | tail _ hstep ih => rw [hstep.length_workers, ih]

/-- A finished pool of at least one worker has performed the events of the `n` jobs, each
once, in some order. -/
theorem trace_perm {k : Nat} {s : State ε} (hk : 0 < k) (h : Reach n jobs (start k) s)
    (hd : Done s) : s.trace.Perm ((List.range n).flatMap jobs) := by
  have hinv := h.inv (inv_start n jobs k)
  have hlen : s.workers.length = k := by rw [h.length_workers]; simp [start]
  have hstop : Worker.stopped ∈ s.workers := by
    obtain ⟨w, hw⟩ := List.exists_mem_of_length_pos (by omega : 0 < s.workers.length)
    have := hd w hw
    rwa [this] at hw
  have hnil : s.workers.flatMap Worker.pending = [] :=
    List.flatMap_eq_nil_iff.mpr (fun w hw => by rw [hd w hw]; rfl)
  have howed := hinv.owed
  rwa [hnil, List.append_nil, Nat.min_eq_right (hinv.drawn hstop)] at howed

/-! ### Every schedule ends -/

/-- A pool that is not finished has a step. -/
theorem exists_step (n : Nat) (jobs : Nat → List ε) {s : State ε} (h : ¬ Done s) :
    ∃ s', Step n jobs s s' := by
  simp only [Done, not_forall] at h
  obtain ⟨w, hw, hne⟩ := h
  obtain ⟨i, hi⟩ := List.getElem?_of_mem hw
  cases w with
  | ready =>
    by_cases hj : s.counter < n
    · exact ⟨_, .draw hi hj⟩
    · exact ⟨_, .stop hi (by omega)⟩
  | running rest =>
    cases rest with
    | nil => exact ⟨_, .finish hi⟩
    | cons e rest => exact ⟨_, .emit hi⟩
  | stopped => exact absurd rfl hne

/-- The steps that a worker can still take by itself. -/
def Worker.work : Worker ε → Nat
  | ready => 1
  | running rest => rest.length + 2
  | stopped => 0

/-- The steps that the pool can still take: those of its workers and those of the jobs
not yet drawn. -/
def State.measure (n : Nat) (jobs : Nat → List ε) (s : State ε) : Nat :=
  (s.workers.map Worker.work).sum
    + ((List.range' s.counter (n - s.counter)).map fun j => (jobs j).length + 2).sum

theorem sum_map_set {α : Type} (f : α → Nat) {l : List α} {i : Nat} {a : α} (b : α)
    (h : l[i]? = some a) : ((l.set i b).map f).sum + f a = (l.map f).sum + f b := by
  induction l generalizing i with
  | nil => simp at h
  | cons x l ih =>
    cases i with
    | zero =>
      simp only [List.getElem?_cons_zero, Option.some.injEq] at h
      subst h
      simp only [List.set_cons_zero, List.map_cons, List.sum_cons]
      omega
    | succ i =>
      simp only [List.getElem?_cons_succ] at h
      have := ih h
      simp only [List.set_cons_succ, List.map_cons, List.sum_cons]
      omega

/-- Every step uses up some of the work. -/
theorem Step.measure_lt {s s' : State ε} (h : Step n jobs s s') :
    s'.measure n jobs < s.measure n jobs := by
  cases h with
  | @draw i hi hj =>
    -- the job moves from the jobs not drawn to the worker, who was one step from drawing it
    have hset := sum_map_set Worker.work (.running (jobs s.counter)) hi
    have hlen : n - s.counter = (n - (s.counter + 1)) + 1 := by omega
    simp only [Worker.work] at hset
    simp only [State.measure, hlen, List.range'_succ, List.map_cons, List.sum_cons]
    omega
  | @stop i hi hj =>
    have hset := sum_map_set Worker.work .stopped hi
    simp only [Worker.work] at hset
    have h0 : n - s.counter = 0 := by omega
    have h1 : n - (s.counter + 1) = 0 := by omega
    simp only [State.measure, h0, h1, List.range'_zero, List.map_nil, List.sum_nil]
    omega
  | @emit i e rest hi =>
    have hset := sum_map_set Worker.work (.running rest) hi
    simp only [Worker.work, List.length_cons] at hset
    simp only [State.measure]
    omega
  | @finish i hi =>
    have hset := sum_map_set Worker.work .ready hi
    simp only [Worker.work, List.length_nil] at hset
    simp only [State.measure]
    omega

/-- From every state some schedule finishes; by `Step.measure_lt` every schedule does. -/
theorem exists_done (n : Nat) (jobs : Nat → List ε) (s : State ε) :
    ∃ s', Reach n jobs s s' ∧ Done s' := by
  -- Induction on the work that is left.
  induction hm : s.measure n jobs using Nat.strongRecOn generalizing s with
  | _ m ih =>
    by_cases hd : Done s
    · exact ⟨s, .refl, hd⟩
    · obtain ⟨s₁, hstep⟩ := exists_step n jobs hd
      obtain ⟨s', hreach, hdone⟩ := ih _ (hm ▸ hstep.measure_lt) s₁ rfl
      exact ⟨s', .head hstep hreach, hdone⟩

end WorkQueue

/-!
## Accesses to a state of several objects

An access changes the state, and touches some of its objects. Accesses that touch no object in
common do not depend on their order: this is what a state has to provide (`Independent`). Then work
that is put off gives the same state as work that is done at once, as long as what comes between is
apart from it (`runAll_comm`).
-/

namespace Accesses

variable {σ α ι : Type}

/-- No object is touched by both. -/
def Apart (touches : α → ι → Bool) (a b : α) : Prop :=
  ∀ i, ¬ (touches a i = true ∧ touches b i = true)

theorem Apart.symm {touches : α → ι → Bool} {a b : α} (h : Apart touches a b) :
    Apart touches b a := fun i hi => h i ⟨hi.2, hi.1⟩

/-- Accesses that are apart can change places. -/
def Independent (run : α → σ → σ) (touches : α → ι → Bool) : Prop :=
  ∀ a b s, Apart touches a b → run b (run a s) = run a (run b s)

/-- The state after the accesses, one after another. -/
def runAll (run : α → σ → σ) (as : List α) (s : σ) : σ := as.foldl (fun s a => run a s) s

variable {run : α → σ → σ} {touches : α → ι → Bool} {as bs : List α} {s : σ}

@[simp] theorem runAll_nil : runAll run [] s = s := rfl

@[simp] theorem runAll_cons {a : α} : runAll run (a :: as) s = runAll run as (run a s) := rfl

@[simp] theorem runAll_append : runAll run (as ++ bs) s = runAll run bs (runAll run as s) :=
  List.foldl_append

theorem runAll_run (hind : Independent run touches) {a : α}
    (h : ∀ b ∈ bs, Apart touches a b) : runAll run bs (run a s) = run a (runAll run bs s) := by
  induction bs generalizing s with
  | nil => rfl
  | cons b bs ih =>
    obtain ⟨hb, hbs⟩ := List.forall_mem_cons.1 h
    rw [runAll_cons, runAll_cons, hind a b s hb, ih hbs]

theorem runAll_comm (hind : Independent run touches)
    (h : ∀ a ∈ as, ∀ b ∈ bs, Apart touches a b) :
    runAll run bs (runAll run as s) = runAll run as (runAll run bs s) := by
  induction as generalizing s with
  | nil => rfl
  | cons a as ih =>
    obtain ⟨ha, has⟩ := List.forall_mem_cons.1 h
    rw [runAll_cons, runAll_cons, ih has, runAll_run hind ha]

/-- Accesses are independent when each depends on the objects that it touches and changes no other.
`base` is what all of them read and none changes. -/
theorem independent_of_local {γ : Type} {β : ι → Type} {base : σ → γ} {get : σ → (i : ι) → β i}
    (hext : ∀ s s', base s = base s' → (∀ i, get s i = get s' i) → s = s')
    (hbase : ∀ a s, base (run a s) = base s)
    (hframe : ∀ a s i, touches a i = false → get (run a s) i = get s i)
    (hlocal : ∀ a s s', base s = base s' → (∀ i, touches a i = true → get s i = get s' i) →
      ∀ i, touches a i = true → get (run a s) i = get (run a s') i) :
    Independent run touches := by
  intro a b s hapart
  -- An object of one of the two is left alone by the other.
  have hother : ∀ i, touches a i = true → touches b i = false := by
    intro i hi
    rw [Bool.eq_false_iff]
    exact fun hb => hapart i ⟨hi, hb⟩
  have hother' : ∀ i, touches b i = true → touches a i = false := by
    intro i hi
    rw [Bool.eq_false_iff]
    exact fun ha => hapart i ⟨ha, hi⟩
  refine hext _ _ (by rw [hbase, hbase, hbase, hbase]) fun i => ?_
  by_cases ha : touches a i = true
  · rw [hframe b _ i (hother i ha)]
    refine hlocal a s _ (hbase b s).symm (fun j hj => ?_) i ha
    exact (hframe b s j (hother j hj)).symm
  · rw [hframe a _ i (Bool.eq_false_iff.2 ha)]
    by_cases hb : touches b i = true
    · refine hlocal b _ s (hbase a s) (fun j hj => ?_) i hb
      exact hframe a s j (hother' j hj)
    · rw [hframe b _ i (Bool.eq_false_iff.2 hb), hframe b s i (Bool.eq_false_iff.2 hb),
        hframe a s i (Bool.eq_false_iff.2 ha)]

end Accesses
