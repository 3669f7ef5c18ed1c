import Mathlib.Data.List.Basic
import PxqLlama.Lib.Runs

/-!
# `Server.TaskQueue`: the queue between the HTTP threads and the loop

The HTTP threads post tasks. The loop pops one after another and gives it to its callback
(`process_single_task`), which launches it on a slot, answers it, or defers it until a slot is
free. A cancellation is a task of its own: its post removes the target from both lists, and its
callback releases the slot that runs the target.

A step of the model is what happens under one lock, or the end of a callback. Steps of different
threads come in any order. A task is tagged with the number of its post, so that two posts of equal
tasks stay apart; the lists of handled and cancelled tasks and the log are there to state what
happened.
-/

namespace PxqLlama.Server

/-- `server_task_type`. -/
inductive TaskType where
  | completion
  | embedding
  | rerank
  | infill
  | cancel
  | nextResponse
  | metrics
  | slotSave
  | slotRestore
  | slotErase
  | setLora
  | loadControlVector
  | unloadControlVector
  | setControlVector
deriving DecidableEq, Repr

namespace TaskType

/-- The tasks that `process_single_task` launches on a slot. -/
def launches : TaskType → Bool
  | .completion | .embedding | .rerank | .infill => true
  | _ => false

/-- The tasks that it can defer. -/
def defers : TaskType → Bool
  | .completion | .embedding | .rerank | .infill | .slotSave | .slotRestore | .slotErase => true
  | _ => false

end TaskType

/-- `server_task`, as far as the queue reads it. -/
structure ServerTask where
  id : Int := -1
  idTarget : Int := -1
  type : TaskType
deriving DecidableEq, Repr

/-- A task with the number of its post. -/
structure Posted where
  stamp : Nat
  task : ServerTask
deriving DecidableEq, Repr

/-- What happened to a task. -/
inductive QueueEvent where
  | popped (p : Posted)
  | deferred (p : Posted)
  | launched (p : Posted)
  | finished (p : Posted)
deriving DecidableEq, Repr

/-- `server_queue`, the task in the callback, and the tasks on the slots. -/
structure QueueState where
  id : Int := 0
  queueTasks : List Posted := []
  queueTasksDeferred : List Posted := []
  handling : Option Posted := none
  slots : List Posted := []
  posted : List Posted := []
  handled : List Posted := []
  cancelled : List Posted := []
  log : List QueueEvent := []
deriving DecidableEq

namespace QueueState

/-! ### Posting -/

/-- `cleanup_pending_task`. -/
def cleanupPendingTask (s : QueueState) (idTarget : Int) : QueueState :=
  let isTarget := fun p : Posted => decide (p.task.id = idTarget)
  { s with
    queueTasks := s.queueTasks.filter fun p => ¬ isTarget p
    queueTasksDeferred := s.queueTasksDeferred.filter fun p => ¬ isTarget p
    cancelled := s.cancelled ++ s.queueTasks.filter isTarget ++
      s.queueTasksDeferred.filter isTarget }

/-- The task with an id: its own, or the next one. -/
def assignId (s : QueueState) (task : ServerTask) : ServerTask :=
  if task.id = -1 then { task with id := s.id } else task

/-- What a post does before it puts the task into the queue. -/
def beforePost (s : QueueState) (task : ServerTask) : QueueState :=
  if task.type = .cancel then s.cleanupPendingTask task.idTarget else s

/-- The body of both `post`s for one task. -/
def postOne (s : QueueState) (front : Bool) (task : ServerTask) : QueueState :=
  let p : Posted := { stamp := s.posted.length, task := s.assignId task }
  let kept := s.beforePost task
  { kept with
    id := if task.id = -1 then s.id + 1 else s.id
    queueTasks := if front then p :: kept.queueTasks else kept.queueTasks ++ [p]
    posted := s.posted ++ [p] }

/-- `post` of a vector. -/
def postAll (s : QueueState) (front : Bool) (tasks : List ServerTask) : QueueState :=
  tasks.foldl (fun s task => s.postOne front task) s

/-- `notify_slot_changed`, and what the pump does in the loop. -/
def moveDeferred (s : QueueState) : QueueState :=
  { s with
    queueTasks := s.queueTasks ++ s.queueTasksDeferred
    queueTasksDeferred := [] }

/-! ### The callback -/

/-- How a callback ends: it defers its task, launches it on a slot, or is done with it. -/
inductive CallbackEnd where
  | defer
  | launch
  | done
deriving DecidableEq, Repr

/-- The end of the callback of `p`. A cancellation releases the slot that runs its target. -/
def endCallback (s : QueueState) (p : Posted) (how : CallbackEnd) : Option QueueState :=
  let s := { s with handling := none }
  match how with
  | .defer =>
    if p.task.type.defers then some { s with
      queueTasksDeferred := s.queueTasksDeferred ++ [p]
      log := s.log ++ [.deferred p] }
    else none
  | .launch =>
    if p.task.type.launches then some { s with
      slots := s.slots ++ [p]
      handled := s.handled ++ [p]
      log := s.log ++ [.launched p, .finished p] }
    else none
  | .done => some { s with
      slots :=
        if p.task.type = .cancel then s.slots.eraseP fun q => q.task.id = p.task.idTarget
        else s.slots
      handled := s.handled ++ [p]
      log := s.log ++ [.finished p] }

/-! ### Steps -/

inductive QueueAction where
  | post (task : ServerTask)
  | postAll (tasks : List ServerTask) (front : Bool)
  | getNewId
  | notifySlotChanged
  | pump
  | pop
  | endCallback (how : CallbackEnd)
  | release (p : Posted)
deriving DecidableEq, Repr

def step (s : QueueState) : QueueAction → Option QueueState
  | .post task => some (s.postOne false task)
  | .postAll tasks front => some (s.postAll front tasks)
  | .getNewId => some { s with id := s.id + 1 }
  | .notifySlotChanged => some s.moveDeferred
  | .pump =>
    -- the loop waits: its queue is empty, tasks are parked, and a slot can take one
    if s.handling = none ∧ s.queueTasks = [] ∧ s.queueTasksDeferred ≠ [] then some s.moveDeferred
    else none
  | .pop =>
    match s.handling, s.queueTasks with
    | none, p :: rest => some { s with
        queueTasks := rest
        handling := some p
        log := s.log ++ [.popped p] }
    | _, _ => none
  | .endCallback how =>
    match s.handling with
    | some p => s.endCallback p how
    | none => none
  | .release p => some { s with slots := s.slots.erase p }

end QueueState

end PxqLlama.Server
