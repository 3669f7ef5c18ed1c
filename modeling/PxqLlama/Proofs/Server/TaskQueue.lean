import Mathlib.Data.List.Induction
import Mathlib.Data.List.Nodup
import PxqLlama.Server.TaskQueue

/-!
# `Proofs.Server.TaskQueue`: no task is lost, repeated or brought back

* `Accounted`: the two lists, the callback, and the lists of handled and cancelled tasks are
  together a rearrangement of what was posted. Every step keeps it.
* `HandledOnce`: between two pops of a task it was deferred.
* `NoGhost`: a task whose cancellation is done is not launched. A cancellation that is posted
  while its target is in the callback finds it in neither list; when the callback then defers the
  target, nothing holds it back later (`ghost_run`). Where no callback defers a task whose
  cancellation waits, there are no ghosts (`queue_runs_sound`).
-/

namespace PxqLlama.Server

namespace QueueState

/-! ### Properties -/

/-- All places where a task can be. -/
def everywhere (s : QueueState) : List Posted :=
  s.queueTasks ++ s.queueTasksDeferred ++ s.handling.toList ++ s.handled ++ s.cancelled

/-- Each posted task is in one place, and there once. -/
def OnePlace (s : QueueState) : Prop :=
  ∀ p ∈ s.posted, s.everywhere.count p = 1

/-- A task is popped again only after it was deferred. -/
def HandledOnce (s : QueueState) : Prop :=
  ∀ p before between after,
    s.log = before ++ .popped p :: (between ++ .popped p :: after) → .deferred p ∈ between

/-- The task `c` cancels the task `p`. -/
def CancelFor (c p : ServerTask) : Prop := c.type = .cancel ∧ c.idTarget = p.id

/-- A task is not launched for the first time after a cancellation of it was handled. -/
def NoGhost (s : QueueState) : Prop :=
  ∀ p before after, s.log = before ++ .launched p :: after → .launched p ∉ before →
    ∀ c, CancelFor c.task p.task → .finished c ∉ before

/-! ### Steps without ghosts -/

/-- The task is posted before any cancellation of it. -/
def CarefulPost (s : QueueState) (task : ServerTask) : Prop :=
  task.type.launches = true → ∀ c ∈ s.posted, ¬ CancelFor c.task (s.assignId task)

def CarefulPosts (front : Bool) : QueueState → List ServerTask → Prop
  | _, [] => True
  | s, task :: tasks =>
    s.CarefulPost task ∧ CarefulPosts front (s.postOne front task) tasks

/-- A step that makes no ghost: a task is posted before its cancellation, and it is not deferred
while its cancellation waits in the queue. -/
def Careful (s : QueueState) : QueueAction → Prop
  | .post task => s.CarefulPost task
  | .postAll tasks front => CarefulPosts front s tasks
  | .endCallback .defer =>
    ∀ p ∈ s.handling.toList, ∀ c ∈ s.queueTasks, ¬ CancelFor c.task p.task
  | _ => True

instance (c p : ServerTask) : Decidable (CancelFor c p) := inferInstanceAs (Decidable (_ ∧ _))

instance (s : QueueState) (task : ServerTask) : Decidable (s.CarefulPost task) :=
  inferInstanceAs (Decidable (_ → _))

instance decidableCarefulPosts (front : Bool) :
    (s : QueueState) → (tasks : List ServerTask) → Decidable (CarefulPosts front s tasks)
  | _, [] => isTrue trivial
  | s, task :: tasks =>
    have := decidableCarefulPosts front (s.postOne front task) tasks
    inferInstanceAs (Decidable (_ ∧ _))

instance (s : QueueState) (a : QueueAction) : Decidable (s.Careful a) :=
  match a with
  | .post _ | .postAll _ _ | .endCallback .defer => by unfold Careful; infer_instance
  | .endCallback .launch | .endCallback .done | .getNewId | .notifySlotChanged | .pump | .pop
  | .release _ => isTrue trivial

/-! ### What one post does -/

variable {task : ServerTask} {p : Posted} {front : Bool} {s' : QueueState} {a : QueueAction}

section

variable {s : QueueState}

theorem assignId_type (s : QueueState) (task : ServerTask) : (s.assignId task).type = task.type := by
  unfold assignId
  split <;> rfl

/-- A cleanup loses no task: what it takes off is cancelled. -/
theorem everywhere_cleanup (s : QueueState) (target : Int) :
    (s.cleanupPendingTask target).everywhere.Perm s.everywhere := by
  have hsplit : ∀ l : List Posted,
      (l.filter (fun p => ¬ decide (p.task.id = target)) ++
        l.filter (fun p => decide (p.task.id = target))).Perm l := by
    intro l
    have h := List.filter_append_perm (fun p : Posted => ¬ decide (p.task.id = target)) l
    simpa using h
  have hq := hsplit s.queueTasks
  have hd := hsplit s.queueTasksDeferred
  rw [List.perm_iff_count] at hq hd ⊢
  intro p
  have hq := hq p
  have hd := hd p
  simp only [everywhere, cleanupPendingTask, List.count_append] at hq hd ⊢
  omega

theorem everywhere_beforePost (s : QueueState) (task : ServerTask) :
    (s.beforePost task).everywhere.Perm s.everywhere := by
  unfold beforePost
  split
  · exact everywhere_cleanup s task.idTarget
  · exact List.Perm.refl _

theorem beforePost_fields (s : QueueState) (task : ServerTask) :
    (s.beforePost task).handling = s.handling ∧ (s.beforePost task).handled = s.handled ∧
      (s.beforePost task).log = s.log ∧
      (∀ p ∈ (s.beforePost task).queueTasks, p ∈ s.queueTasks) ∧
      (∀ p ∈ (s.beforePost task).queueTasksDeferred, p ∈ s.queueTasksDeferred) := by
  unfold beforePost
  split
  · exact ⟨rfl, rfl, rfl, fun p hp => List.mem_of_mem_filter hp,
      fun p hp => List.mem_of_mem_filter hp⟩
  · exact ⟨rfl, rfl, rfl, fun _ hp => hp, fun _ hp => hp⟩

/-- A cancellation leaves no task with the id of its target in the lists. -/
theorem beforePost_no_target (h : task.type = .cancel)
    (hp : p ∈ (s.beforePost task).queueTasks ∨ p ∈ (s.beforePost task).queueTasksDeferred) :
    p.task.id ≠ task.idTarget := by
  rw [beforePost, if_pos h] at hp
  rcases hp with hp | hp
  · simpa using (List.mem_filter.mp hp).2
  · simpa using (List.mem_filter.mp hp).2

theorem mem_postOne_queue {q : Posted} :
    q ∈ (s.postOne front task).queueTasks ↔
      q ∈ (s.beforePost task).queueTasks ∨ q = ⟨s.posted.length, s.assignId task⟩ := by
  unfold postOne
  cases front with
  | true => simp [or_comm]
  | false => simp

/-! ### Nothing is lost -/

/-- The places hold what was posted, and no two posts have the same number. -/
structure Accounted (s : QueueState) : Prop where
  perm : s.everywhere.Perm s.posted
  stamps : ∀ p ∈ s.posted, p.stamp < s.posted.length
  nodup : s.posted.Nodup

/-- Posting a task puts it in one place. -/
theorem Accounted.postOne (h : s.Accounted) (front : Bool) (task : ServerTask) :
    (s.postOne front task).Accounted := by
  have hperm : (s.postOne front task).everywhere.Perm
      (s.posted ++ [⟨s.posted.length, s.assignId task⟩]) := by
    have hbefore := (everywhere_beforePost s task).trans h.perm
    unfold QueueState.postOne
    rw [List.perm_iff_count] at hbefore ⊢
    intro p
    have hp := hbefore p
    cases front with
    | true =>
      simp only [everywhere, List.count_append, if_true, List.count_cons, List.count_nil] at hp ⊢
      omega
    | false =>
      simp only [everywhere, List.count_append, Bool.false_eq_true, if_false] at hp ⊢
      omega
  constructor
  · exact hperm
  · intro p hp
    show p.stamp < (s.posted ++ [_]).length
    simp only [List.length_append, List.length_cons, List.length_nil]
    rcases List.mem_append.mp hp with hp | hp
    · have := h.stamps p hp
      omega
    · rw [List.mem_singleton.mp hp]
      show s.posted.length < _
      omega
  · show (s.posted ++ [_]).Nodup
    rw [List.nodup_append]
    refine ⟨h.nodup, List.nodup_singleton _, fun a ha b hb hab => ?_⟩
    have := h.stamps a ha
    rw [hab, List.mem_singleton.mp hb] at this
    exact Nat.lt_irrefl _ this

theorem Accounted.postAll (h : s.Accounted) (front : Bool) (tasks : List ServerTask) :
    (s.postAll front tasks).Accounted := by
  induction tasks generalizing s with
  | nil => exact h
  | cons task tasks ih => exact ih (h.postOne front task)

/-- A step that only moves tasks between the places keeps the account. -/
theorem Accounted.of_perm (h : s.Accounted) (hperm : s'.everywhere.Perm s.everywhere)
    (hposted : s'.posted = s.posted) : s'.Accounted := by
  constructor
  · rw [hposted]
    exact hperm.trans h.perm
  · rw [hposted]
    exact h.stamps
  · rw [hposted]
    exact h.nodup

theorem everywhere_moveDeferred (s : QueueState) : s.moveDeferred.everywhere = s.everywhere := by
  simp [everywhere, moveDeferred]

/-- What a callback does to the places: its task goes to the deferred or to the handled ones. -/
theorem endCallback_cases {how : CallbackEnd} (h : s.endCallback p how = some s') :
    s'.queueTasks = s.queueTasks ∧ s'.handling = none ∧ s'.cancelled = s.cancelled ∧
      s'.posted = s.posted ∧
      (how = .defer ∧ p.task.type.defers = true ∧
          s'.queueTasksDeferred = s.queueTasksDeferred ++ [p] ∧ s'.handled = s.handled ∧
          s'.log = s.log ++ [.deferred p] ∨
        how = .launch ∧ p.task.type.launches = true ∧
          s'.queueTasksDeferred = s.queueTasksDeferred ∧ s'.handled = s.handled ++ [p] ∧
          s'.log = s.log ++ [.launched p, .finished p] ∨
        how = .done ∧ s'.queueTasksDeferred = s.queueTasksDeferred ∧
          s'.handled = s.handled ++ [p] ∧ s'.log = s.log ++ [.finished p]) := by
  cases how with
  | defer =>
    simp only [endCallback] at h
    split at h
    · cases h
      exact ⟨rfl, rfl, rfl, rfl, .inl ⟨rfl, ‹_›, rfl, rfl, rfl⟩⟩
    · cases h
  | launch =>
    simp only [endCallback] at h
    split at h
    · cases h
      exact ⟨rfl, rfl, rfl, rfl, .inr (.inl ⟨rfl, ‹_›, rfl, rfl, rfl⟩)⟩
    · cases h
  | done =>
    cases h
    exact ⟨rfl, rfl, rfl, rfl, .inr (.inr ⟨rfl, rfl, rfl, rfl⟩)⟩

/-- What a step does, apart from posts: it moves deferred tasks back, pops the first task, or ends
a callback; the other steps touch neither the lists nor the log. -/
theorem step_cases (h : s.step a = some s') :
    (∃ task, a = .post task ∧ s' = s.postOne false task) ∨
    (∃ tasks front, a = .postAll tasks front ∧ s' = s.postAll front tasks) ∨
    (∃ id slots, s' = { s with id := id, slots := slots }) ∨
    s' = s.moveDeferred ∨
    (∃ p rest, s.handling = none ∧ s.queueTasks = p :: rest ∧ s' = { s with
      queueTasks := rest, handling := some p, log := s.log ++ [.popped p] }) ∨
    ∃ p how, a = .endCallback how ∧ s.handling = some p ∧ s.endCallback p how = some s' := by
  cases a with
  | post task => exact .inl ⟨task, rfl, (Option.some.inj h).symm⟩
  | postAll tasks front => exact .inr (.inl ⟨tasks, front, rfl, (Option.some.inj h).symm⟩)
  | getNewId => exact .inr (.inr (.inl ⟨s.id + 1, s.slots, (Option.some.inj h).symm⟩))
  | notifySlotChanged => exact .inr (.inr (.inr (.inl (Option.some.inj h).symm)))
  | pump =>
    simp only [step] at h
    split at h
    · exact .inr (.inr (.inr (.inl (Option.some.inj h).symm)))
    · cases h
  | pop =>
    simp only [step] at h
    split at h
    · rename_i p rest hhandling hqueue
      exact .inr (.inr (.inr (.inr (.inl ⟨p, rest, hhandling, hqueue, (Option.some.inj h).symm⟩))))
    · cases h
  | endCallback how =>
    simp only [step] at h
    split at h
    · rename_i p hhandling
      exact .inr (.inr (.inr (.inr (.inr ⟨p, how, rfl, hhandling, h⟩))))
    · cases h
  | release p => exact .inr (.inr (.inl ⟨s.id, s.slots.erase p, (Option.some.inj h).symm⟩))

/-- Every event keeps each task in one place. -/
theorem Accounted.step (h : s.Accounted) (hstep : s.step a = some s') : s'.Accounted := by
  rcases step_cases hstep with ⟨task, -, rfl⟩ | ⟨tasks, front, -, rfl⟩ | ⟨id, slots, rfl⟩ | rfl |
    ⟨p, rest, hhandling, hqueue, rfl⟩ | ⟨p, how, -, hhandling, hend⟩
  · exact h.postOne false task
  · exact h.postAll front tasks
  · exact h.of_perm (List.Perm.refl _) rfl
  · exact h.of_perm (everywhere_moveDeferred s ▸ List.Perm.refl _) rfl
  · refine h.of_perm ?_ rfl
    rw [List.perm_iff_count]
    intro q
    simp only [everywhere, hhandling, hqueue, List.count_append, List.count_cons,
      Option.toList_none, Option.toList_some, List.count_nil]
    omega
  · obtain ⟨hq, hh, hc, hposted, hcases⟩ := endCallback_cases hend
    refine h.of_perm ?_ hposted
    rw [List.perm_iff_count]
    intro q
    rcases hcases with ⟨-, -, hd, hdone, -⟩ | ⟨-, -, hd, hdone, -⟩ | ⟨-, hd, hdone, -⟩ <;>
      simp only [everywhere, hq, hh, hc, hd, hdone, hhandling, List.count_append,
        Option.toList_none, Option.toList_some, List.count_nil] <;>
      omega

theorem Accounted.onePlace (h : s.Accounted) : s.OnePlace := by
  intro p hp
  rw [h.perm.count_eq]
  exact List.count_eq_one_of_mem h.nodup hp

theorem Accounted.mem_posted (h : s.Accounted) (hp : p ∈ s.everywhere) : p ∈ s.posted :=
  h.perm.mem_iff.mp hp

/-! ### Nothing is repeated -/

/-- The task was popped and not deferred since. -/
def held (log : List QueueEvent) (p : Posted) : Bool :=
  log.foldl (fun h e => if e = .popped p then true else if e = .deferred p then false else h) false

theorem held_snoc (log : List QueueEvent) (e : QueueEvent) (p : Posted) :
    held (log ++ [e]) p
      = if e = .popped p then true else if e = .deferred p then false else held log p := by
  simp [held]

/-- After its pop a task stays held until it is deferred. -/
theorem deferred_of_not_held {before between : List QueueEvent}
    (h : held (before ++ .popped p :: between) p = false) : .deferred p ∈ between := by
  induction between using List.reverseRecOn with
  | nil => rw [held_snoc, if_pos rfl] at h; cases h
  | append_singleton between e ih =>
    rw [← List.cons_append, ← List.append_assoc, held_snoc] at h
    split at h
    · cases h
    · split at h
      · exact List.mem_append_right _ (List.mem_singleton.mpr (Eq.symm ‹_›))
      · exact List.mem_append_left _ (ih h)

/-- A task that is held is in its callback or handled. -/
structure Logged (s : QueueState) : Prop where
  held : ∀ p, held s.log p = true → p ∈ s.handling.toList ++ s.handled
  once : s.HandledOnce

/-- An event that is no pop does not make a task popped twice. -/
theorem handledOnce_snoc {e : QueueEvent} (h : s.HandledOnce) (hlog : s'.log = s.log ++ [e])
    (hpop : ∀ p, e = .popped p → QueueState.held s.log p = false) : s'.HandledOnce := by
  intro p before between after heq
  rw [hlog] at heq
  cases after using List.reverseRecOn with
  | nil =>
    -- the new event is the second pop
    have heq : s.log ++ [e] = (before ++ .popped p :: between) ++ [.popped p] := by
      simpa using heq
    obtain ⟨hold, hnew⟩ := List.append_inj' heq rfl
    have hnot := hpop p (by simpa using hnew)
    rw [hold] at hnot
    exact deferred_of_not_held hnot
  | append_singleton after x =>
    have heq : s.log ++ [e]
        = (before ++ .popped p :: (between ++ .popped p :: after)) ++ [x] := by
      simpa using heq
    exact h p before between after (List.append_inj' heq rfl).1

theorem Logged.of_log_eq (h : s.Logged) (hlog : s'.log = s.log)
    (hhandling : s'.handling = s.handling) (hhandled : s'.handled = s.handled) : s'.Logged := by
  constructor
  · rw [hlog, hhandling, hhandled]
    exact h.held
  · intro p before between after heq
    exact h.once p before between after (hlog ▸ heq)

theorem postOne_unchanged (s : QueueState) (front : Bool) (task : ServerTask) :
    (s.postOne front task).log = s.log ∧ (s.postOne front task).handling = s.handling ∧
      (s.postOne front task).handled = s.handled := by
  obtain ⟨hhandling, hhandled, hlog, -, -⟩ := beforePost_fields s task
  exact ⟨hlog, hhandling, hhandled⟩

theorem Logged.postOne (h : s.Logged) (front : Bool) (task : ServerTask) :
    (s.postOne front task).Logged := by
  obtain ⟨hlog, hhandling, hhandled⟩ := postOne_unchanged s front task
  exact h.of_log_eq hlog hhandling hhandled

theorem Logged.postAll (h : s.Logged) (front : Bool) (tasks : List ServerTask) :
    (s.postAll front tasks).Logged := by
  induction tasks generalizing s with
  | nil => exact h
  | cons task tasks ih => exact ih (h.postOne front task)

/-- A task in the queue is not in its callback, and it is not handled. -/
theorem Accounted.not_held (ha : s.Accounted) (hl : s.Logged) (hp : p ∈ s.queueTasks) :
    QueueState.held s.log p = false := by
  by_contra hheld
  have hmem := hl.held p (by simpa using hheld)
  have hone := ha.onePlace p (ha.mem_posted (by simp [everywhere, hp]))
  have hqueue := List.count_pos_iff.mpr hp
  have hother := List.count_pos_iff.mpr hmem
  simp only [everywhere, List.count_append] at hone hother
  omega

/-- Every event keeps the log in step with the queues. -/
theorem Logged.step (ha : s.Accounted) (h : s.Logged) (hstep : s.step a = some s') : s'.Logged := by
  rcases step_cases hstep with ⟨task, -, rfl⟩ | ⟨tasks, front, -, rfl⟩ | ⟨id, slots, rfl⟩ | rfl |
    ⟨p, rest, hhandling, hqueue, rfl⟩ | ⟨p, how, -, hhandling, hend⟩
  · exact h.postOne false task
  · exact h.postAll front tasks
  · exact h.of_log_eq rfl rfl rfl
  · exact h.of_log_eq rfl rfl rfl
  · have hfree := ha.not_held h (show p ∈ s.queueTasks by rw [hqueue]; exact List.mem_cons_self)
    constructor
    · intro q hq
      rw [held_snoc] at hq
      split at hq
      · cases ‹QueueEvent.popped p = .popped q›
        exact List.mem_append_left _ (by simp)
      · have hold := h.held q (by simpa using hq)
        rw [hhandling] at hold
        exact List.mem_append_right _ (by simpa using hold)
    · refine handledOnce_snoc h.once rfl fun q hq => ?_
      cases hq
      exact hfree
  · obtain ⟨-, hh, -, -, hcases⟩ := endCallback_cases hend
    -- the task of a callback that is over was handled
    have hover (hdone : s'.handled = s.handled ++ [p]) (q : Posted)
        (hq : QueueState.held s.log q = true) : q ∈ s'.handling.toList ++ s'.handled := by
      have hold := h.held q hq
      rw [hhandling] at hold
      rw [hh, hdone]
      simp only [Option.toList_some, Option.toList_none, List.mem_append, List.mem_singleton,
        List.nil_append] at hold ⊢
      exact hold.symm
    rcases hcases with ⟨-, -, -, hdone, hlog⟩ | ⟨-, -, -, hdone, hlog⟩ | ⟨-, -, hdone, hlog⟩
    · constructor
      · intro q hq
        rw [hlog, held_snoc, if_neg (by simp)] at hq
        split at hq
        · cases hq
        · -- another task than the deferred one
          have hold := h.held q hq
          rw [hhandling, Option.toList_some, List.singleton_append, List.mem_cons] at hold
          rw [hh, hdone]
          rcases hold with rfl | hold
          · exact absurd rfl ‹¬ _›
          · exact hold
      · exact handledOnce_snoc h.once hlog fun q hq => by cases hq
    · constructor
      · intro q hq
        rw [hlog, List.append_cons, held_snoc, if_neg (by simp), if_neg (by simp), held_snoc,
          if_neg (by simp), if_neg (by simp)] at hq
        exact hover hdone q hq
      · have hfirst : QueueState.HandledOnce { s with log := s.log ++ [.launched p] } :=
          handledOnce_snoc h.once rfl fun q hq => by cases hq
        exact handledOnce_snoc (e := .finished p) hfirst (by rw [hlog]; simp) fun q hq => by cases hq
    · constructor
      · intro q hq
        rw [hlog, held_snoc, if_neg (by simp), if_neg (by simp)] at hq
        exact hover hdone q hq
      · exact handledOnce_snoc h.once hlog fun q hq => by cases hq

/-! ### Nothing comes back -/

/-- No task that waits has a cancellation that waits, runs or was handled; and a task in its
callback has none that was handled. -/
structure Clean (s : QueueState) : Prop where
  waiting : ∀ p ∈ s.queueTasks ++ s.queueTasksDeferred, p.task.type.launches = true →
    ∀ c ∈ s.queueTasks ++ s.handling.toList ++ s.handled, ¬ CancelFor c.task p.task
  running : ∀ p ∈ s.handling.toList, p.task.type.launches = true →
    ∀ c ∈ s.handled, ¬ CancelFor c.task p.task
  parked : ∀ p ∈ s.queueTasksDeferred, p.task.type.defers = true
  logged : ∀ p, .finished p ∈ s.log → p ∈ s.handled
  noGhost : s.NoGhost

/-- What an event must keep when it logs nothing. -/
theorem Clean.of_log_eq (h : s.Clean)
    (hwaiting : ∀ p ∈ s'.queueTasks ++ s'.queueTasksDeferred, p.task.type.launches = true →
      ∀ c ∈ s'.queueTasks ++ s'.handling.toList ++ s'.handled, ¬ CancelFor c.task p.task)
    (hparked : ∀ p ∈ s'.queueTasksDeferred, p.task.type.defers = true) (hlog : s'.log = s.log)
    (hhandling : s'.handling = s.handling) (hhandled : s'.handled = s.handled) : s'.Clean := by
  constructor
  · exact hwaiting
  · rw [hhandling, hhandled]
    exact h.running
  · exact hparked
  · rw [hlog, hhandled]
    exact h.logged
  · intro p before after heq
    exact h.noGhost p before after (hlog ▸ heq)

/-- A post keeps the lists clean: a cancellation takes its targets out of them, and a task that
can be launched comes before any cancellation of it. -/
theorem Clean.postOne (ha : s.Accounted) (h : s.Clean) (hok : s.CarefulPost task) :
    (s.postOne front task).Clean := by
  obtain ⟨hlog, hhandling, hhandled⟩ := postOne_unchanged s front task
  obtain ⟨-, -, -, hqueue, hdeferred⟩ := beforePost_fields s task
  have hnew := assignId_type s task
  refine h.of_log_eq ?_ (fun p hp => h.parked p (hdeferred p hp)) hlog hhandling hhandled
  rw [hhandling, hhandled]
  intro p hp hlaunches c hc
  -- who is there: the new task, or one that was there before
  have hp : p ∈ (s.beforePost task).queueTasks ++ (s.beforePost task).queueTasksDeferred ∨
      p = ⟨s.posted.length, s.assignId task⟩ := by
    rcases List.mem_append.mp hp with hp | hp
    · exact (mem_postOne_queue.mp hp).imp_left (List.mem_append_left _)
    · exact .inl (List.mem_append_right _ hp)
  have hc : c ∈ s.queueTasks ++ s.handling.toList ++ s.handled ∨
      c = ⟨s.posted.length, s.assignId task⟩ := by
    rw [List.append_assoc] at hc
    rcases List.mem_append.mp hc with hc | hc
    · refine (mem_postOne_queue.mp hc).imp_left fun hc => ?_
      rw [List.append_assoc]
      exact List.mem_append_left _ (hqueue c hc)
    · rw [List.append_assoc]
      exact .inl (List.mem_append_right _ hc)
  rintro ⟨htype, htarget⟩
  rcases hp with hp | rfl
  · rcases hc with hc | rfl
    · have hpold : p ∈ s.queueTasks ++ s.queueTasksDeferred := by
        rcases List.mem_append.mp hp with hp | hp
        · exact List.mem_append_left _ (hqueue p hp)
        · exact List.mem_append_right _ (hdeferred p hp)
      exact h.waiting p hpold hlaunches c hc ⟨htype, htarget⟩
    · -- the new task is the cancellation: its target is gone
      have hcancel : task.type = .cancel := hnew ▸ htype
      have hsame : (s.assignId task).idTarget = task.idTarget := by
        unfold assignId
        split <;> rfl
      refine beforePost_no_target hcancel (List.mem_append.mp hp) ?_
      rw [← hsame]
      exact htarget.symm
  · rcases hc with hc | rfl
    · have hposted : c ∈ s.posted := by
        refine ha.mem_posted ?_
        simp only [everywhere, List.mem_append] at hc ⊢
        tauto
      exact hok (hnew ▸ hlaunches) c hposted ⟨htype, htarget⟩
    · rw [htype] at hlaunches
      cases hlaunches

theorem Clean.postAll {tasks : List ServerTask} (ha : s.Accounted) (h : s.Clean)
    (hok : CarefulPosts front s tasks) : (s.postAll front tasks).Clean := by
  induction tasks generalizing s with
  | nil => exact h
  | cons task tasks ih => exact ih (ha.postOne front task) (h.postOne ha hok.1) hok.2

/-- A log that grows by events that are no launch. -/
theorem noGhost_snoc {e : QueueEvent} (h : s.NoGhost) (hlog : s'.log = s.log ++ [e])
    (hlaunch : ∀ p, e = .launched p → ∀ c, CancelFor c.task p.task → .finished c ∉ s.log) :
    s'.NoGhost := by
  intro p before after heq
  rw [hlog] at heq
  cases after using List.reverseRecOn with
  | nil =>
    obtain ⟨rfl, hnew⟩ := List.append_inj' heq rfl
    exact fun _ => hlaunch p (by simpa using hnew)
  | append_singleton after x =>
    have heq : s.log ++ [e] = (before ++ .launched p :: after) ++ [x] := by
      simpa using heq
    exact h p before after (List.append_inj' heq rfl).1

/-- A careful event leaves no task behind that a cancel was meant for. -/
theorem Clean.step (ha : s.Accounted) (h : s.Clean) (hok : s.Careful a)
    (hstep : s.step a = some s') : s'.Clean := by
  rcases step_cases hstep with ⟨task, rfl, rfl⟩ | ⟨tasks, front, rfl, rfl⟩ | ⟨id, slots, rfl⟩ |
    rfl | ⟨p, rest, hhandling, hqueue, rfl⟩ | ⟨p, how, rfl, hhandling, hend⟩
  · exact h.postOne ha hok
  · exact h.postAll ha hok
  · exact h.of_log_eq h.waiting h.parked rfl rfl rfl
  · refine h.of_log_eq ?_ (fun p hp => by cases hp) rfl rfl rfl
    intro p hp hlaunches c hc
    have hp : p ∈ s.queueTasks ++ s.queueTasksDeferred := by simpa [moveDeferred] using hp
    by_cases hparked : c ∈ s.queueTasksDeferred
    · -- a cancellation is never deferred
      rintro ⟨htype, -⟩
      have := h.parked c hparked
      rw [htype] at this
      cases this
    · refine h.waiting p hp hlaunches c ?_
      simp only [moveDeferred, List.mem_append] at hc ⊢
      tauto
  · have hsub : ∀ q ∈ rest ++ s.queueTasksDeferred, q ∈ s.queueTasks ++ s.queueTasksDeferred := by
      intro q hq
      rw [hqueue]
      exact List.mem_cons_of_mem p hq
    constructor
    · intro q hq hlaunches c hc
      refine h.waiting q (hsub q hq) hlaunches c ?_
      simp only [hqueue, hhandling, List.mem_append, Option.toList_some, List.mem_cons,
        Option.toList_none, List.not_mem_nil, or_false] at hc ⊢
      tauto
    · intro q hq hlaunches c hc
      rw [Option.toList_some, List.mem_singleton] at hq
      subst hq
      exact h.waiting q (by rw [hqueue]; exact List.mem_cons_self) hlaunches c
        (List.mem_append_right _ hc)
    · exact h.parked
    · intro q hq
      exact h.logged q (by simpa using hq)
    · exact noGhost_snoc h.noGhost rfl fun q hq => by cases hq
  · obtain ⟨hq, hh, -, -, hcases⟩ := endCallback_cases hend
    have hpin : p ∈ s.handling.toList := by rw [hhandling]; exact List.mem_singleton.mpr rfl
    -- what a callback that is over leaves of the condition on the tasks that wait
    have hwaiting : s'.queueTasksDeferred = s.queueTasksDeferred → s'.handled = s.handled ++ [p] →
        ∀ q ∈ s'.queueTasks ++ s'.queueTasksDeferred, q.task.type.launches = true →
          ∀ c ∈ s'.queueTasks ++ s'.handling.toList ++ s'.handled, ¬ CancelFor c.task q.task := by
      intro hd hdone q hqmem hlaunches c hc
      rw [hq, hd] at hqmem
      refine h.waiting q hqmem hlaunches c ?_
      rw [hq, hh, hdone] at hc
      simp only [hhandling, List.mem_append, Option.toList_none, Option.toList_some,
        List.not_mem_nil, or_false, List.mem_singleton] at hc ⊢
      tauto
    rcases hcases with ⟨rfl, hdefers, hd, hdone, hlog⟩ | ⟨rfl, hlaunch, hd, hdone, hlog⟩ |
      ⟨rfl, hd, hdone, hlog⟩
    · constructor
      · intro q hqmem hlaunches c hc
        rw [hq, hd, ← List.append_assoc] at hqmem
        have hc : c ∈ s.queueTasks ∨ c ∈ s.handled := by
          rw [hq, hh, hdone] at hc
          simpa using hc
        rcases List.mem_append.mp hqmem with hqmem | hqmem
        · refine h.waiting q hqmem hlaunches c ?_
          simp only [List.mem_append]
          tauto
        · -- the deferred task itself
          rw [List.mem_singleton.mp hqmem] at hlaunches ⊢
          rcases hc with hc | hc
          · exact hok p hpin c hc
          · exact h.running p hpin hlaunches c hc
      · rw [hh]
        intro q hq
        cases hq
      · intro q hqmem
        rw [hd] at hqmem
        rcases List.mem_append.mp hqmem with hqmem | hqmem
        · exact h.parked q hqmem
        · rw [List.mem_singleton.mp hqmem]
          exact hdefers
      · intro q hqmem
        rw [hlog] at hqmem
        rw [hdone]
        exact h.logged q (by simpa using hqmem)
      · exact noGhost_snoc h.noGhost hlog fun q hq => by cases hq
    · constructor
      · exact hwaiting hd hdone
      · rw [hh]
        intro q hq
        cases hq
      · rw [hd]
        exact h.parked
      · intro q hqmem
        rw [hlog] at hqmem
        rw [hdone, List.mem_append, List.mem_singleton]
        refine (List.mem_append.mp hqmem).imp (h.logged q) fun hqmem => ?_
        simpa using hqmem
      · have hfirst : QueueState.NoGhost { s with log := s.log ++ [.launched p] } := by
          refine noGhost_snoc h.noGhost rfl fun q hq c hc hfin => ?_
          cases hq
          exact h.running p hpin hlaunch c (h.logged c hfin) hc
        exact noGhost_snoc (e := .finished p) hfirst (by rw [hlog]; simp) fun q hq => by cases hq
    · constructor
      · exact hwaiting hd hdone
      · rw [hh]
        intro q hq
        cases hq
      · rw [hd]
        exact h.parked
      · intro q hqmem
        rw [hlog] at hqmem
        rw [hdone, List.mem_append, List.mem_singleton]
        refine (List.mem_append.mp hqmem).imp (h.logged q) fun hqmem => ?_
        simpa using hqmem
      · exact noGhost_snoc h.noGhost hlog fun q hq => by cases hq

end

/-! ### Runs -/

theorem accounted_init : ({} : QueueState).Accounted :=
  ⟨List.Perm.refl _, by simp, List.nodup_nil⟩

theorem logged_init : ({} : QueueState).Logged := by
  constructor
  · intro p hp
    cases hp
  · intro p before between after heq
    cases before <;> cases heq

theorem clean_init : ({} : QueueState).Clean := by
  constructor
  · intro p hp
    cases hp
  · intro p hp
    cases hp
  · intro p hp
    cases hp
  · intro p hp
    cases hp
  · intro p before after heq
    cases before <;> cases heq

theorem Accounted.of_runs {ok : QueueState → QueueAction → Prop} {s : QueueState}
    (h : Runs {} QueueState.step ok s) : s.Accounted :=
  h.invariant accounted_init fun _ _ _ hs _ hstep => hs.step hstep

/-- In every run, whatever the order of the steps, each posted task is in one place and no task is
popped twice without being deferred between. If every post of a task comes before its cancellation
and no callback defers a task whose cancellation waits, then no task is launched after its
cancellation was handled. -/
theorem queue_runs_sound (ok : QueueState → QueueAction → Prop) (s : QueueState)
    (h : Runs {} QueueState.step ok s) :
    s.OnePlace ∧ s.HandledOnce ∧ ((∀ s a, ok s a → s.Careful a) → s.NoGhost) := by
  refine ⟨(Accounted.of_runs h).onePlace, ?_, fun hcareful => ?_⟩
  · have hlogged : s.Logged := h.invariant_of (fun _ => Accounted.of_runs) logged_init
      fun _ _ _ ha hl _ hstep => hl.step ha hstep
    exact hlogged.once
  · have hclean : s.Clean := h.invariant_of (fun _ => Accounted.of_runs) clean_init
      fun _ _ _ ha hc hok hstep => hc.step ha (hcareful _ _ hok) hstep
    exact hclean.noGhost

/-- A task is deferred, cancelled while it is parked, and its cancellation is handled. -/
def parkedActions : List QueueAction :=
  [.post { type := .completion }, .pop, .endCallback .defer,
    .post { type := .cancel, idTarget := 0 }, .pop, .endCallback .done, .notifySlotChanged]

theorem parked_run_sound :
    let s := Runs.last QueueState.step {} parkedActions
    s.cancelled.length = 1 ∧ s.OnePlace ∧ s.HandledOnce ∧ s.NoGhost := by
  have hrun : Runs {} QueueState.step Careful (Runs.last QueueState.step {} parkedActions) :=
    Runs.of_allowed .init (by decide +kernel)
  obtain ⟨hplace, honce, hghost⟩ := queue_runs_sound Careful _ hrun
  exact ⟨by decide +kernel, hplace, honce, hghost fun _ _ hok => hok⟩

/-- A task is cancelled while it is in its callback, and the callback defers it. -/
def ghostActions : List QueueAction :=
  [.post { type := .completion }, .pop, .postAll [{ type := .cancel, idTarget := 0 }] true,
    .endCallback .defer, .pop, .endCallback .done, .notifySlotChanged, .pop, .endCallback .launch]

/-- The cancellation is posted and handled, and then the task is launched. -/
theorem ghost_run :
    ∃ s, Runs {} QueueState.step (fun _ _ => True) s ∧ ¬ s.NoGhost := by
  refine ⟨Runs.last QueueState.step {} ghostActions,
    Runs.of_allowed .init (by decide +kernel), fun h => ?_⟩
  have hlog : (Runs.last QueueState.step {} ghostActions).log
      = [.popped ⟨0, ⟨0, -1, .completion⟩⟩, .deferred ⟨0, ⟨0, -1, .completion⟩⟩,
          .popped ⟨1, ⟨1, 0, .cancel⟩⟩, .finished ⟨1, ⟨1, 0, .cancel⟩⟩,
          .popped ⟨0, ⟨0, -1, .completion⟩⟩] ++
        .launched ⟨0, ⟨0, -1, .completion⟩⟩ :: [.finished ⟨0, ⟨0, -1, .completion⟩⟩] := by
    decide +kernel
  exact h _ _ _ hlog (by decide) ⟨1, ⟨1, 0, .cancel⟩⟩ (by decide) (by decide)

end QueueState

end PxqLlama.Server
