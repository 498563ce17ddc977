import NixWasm.Effects
import NixWasm.JsMap
import NixWasm.Runs

/-!
The task table of the kernel host. Every task of the guest kernel runs in a worker of
its own; the host hears of task switches and exits through messages. A switch to a task
that already exists marks both tasks, a switch to a new task only makes the new one. A
task that exits while it is marked running is killed by the switch away from it.
-/
namespace NixWasm.KernelHost

open Effects Runs

structure Runner where
  worker : ℕ
  lastTask : ℕ
  running : Bool
  kill : Bool
deriving DecidableEq, Repr

/-- The table of tasks, the number of workers made so far and those terminated. -/
structure Host where
  tasks : JsMap ℕ Runner
  workers : ℕ
  terminated : List ℕ

inductive Message where
  /-- A CPU comes up in its idle task: `start_primary` or `start_secondary`. -/
  | startCpu (cpu idleTask : ℕ)
  | createAndRunTask (prevTask newTask : ℕ)
  | serializeTasks (prevTask nextTask : ℕ)
  | releaseTask (deadTask : ℕ)
deriving DecidableEq, Repr

def taskRunner (task : ℕ) : Js Host Runner := do
  match (← get).tasks.get task with
  | some runner => return runner
  | none => throw (.error ("[Main]: no runner for task " ++ toString task))

/-- A write to a field of the runner the table holds. -/
def setRunner (task : ℕ) (f : Runner → Runner) : Js Host Unit := do
  let runner ← taskRunner task
  modify fun h => { h with tasks := h.tasks.set task (f runner) }

def makeVmlinuxRunner : Js Host Runner := do
  let worker := (← get).workers
  modify fun h => { h with workers := worker + 1 }
  return ⟨worker, 0, true, false⟩

/-- `make_task` and `make_cpu` both register a new runner. -/
def makeTask (newTask : ℕ) : Js Host Unit := do
  let runner ← makeVmlinuxRunner
  modify fun h => { h with tasks := h.tasks.set newTask runner }

def killTask (deadTask : ℕ) : Js Host Unit := do
  let task ← taskRunner deadTask
  if task.running then
    -- the worker still has to hand its CPU over: the switch kills it
    setRunner deadTask fun r => { r with kill := true }
  else
    modify fun h =>
      { h with terminated := task.worker :: h.terminated, tasks := h.tasks.delete deadTask }

def serializeTasks (prevTask nextTask : ℕ) : Js Host Unit := do
  setRunner nextTask fun r => { r with lastTask := prevTask }
  setRunner prevTask fun r => { r with running := false }
  setRunner nextTask fun r => { r with running := true }
  let prevRunner ← taskRunner prevTask
  if prevRunner.kill then killTask prevTask

/-- The handlers of `dispatch_message`, by method. -/
def dispatchMessage : Message → Js Host Unit
  | .startCpu _ idleTask => makeTask idleTask
  | .createAndRunTask _ newTask => makeTask newTask
  | .serializeTasks prevTask nextTask => serializeTasks prevTask nextTask
  | .releaseTask deadTask => killTask deadTask

/-- The host after a message, also after one whose handler threw. -/
def receive (h : Host) (message : Message) : Host := final (dispatchMessage message h)

/-! What the guest kernel's scheduler does when it sends these messages. -/

/-- A task with the worker made for it and the CPU it runs on or last ran on; `stale`
when the last switch away from it was to a new task. -/
structure Task where
  id : ℕ
  worker : ℕ
  cpu : ℕ
  released : Bool
  stale : Bool
deriving DecidableEq, Repr

/-- `gone` holds the tasks that have been released and switched away from. -/
structure Scheduler where
  current : List Task
  suspended : List Task
  gone : List Task
  created : ℕ
deriving DecidableEq, Repr

def Scheduler.live (s : Scheduler) : List Task := s.current ++ s.suspended

def Scheduler.all (s : Scheduler) : List Task := s.live ++ s.gone

/-- A CPU goes from `prev` to `next`. A released task is not scheduled again. -/
def Scheduler.switch (s : Scheduler) (prev next : Task) (stale : Bool) : Scheduler :=
  { s with
    current := { next with cpu := prev.cpu } :: s.current.filter fun t => t.id ≠ prev.id
    suspended :=
      (if prev.released then [] else [{ prev with stale := stale }]) ++
        s.suspended.filter fun t => t.id ≠ next.id
    gone := (if prev.released then [{ prev with stale := stale }] else []) ++ s.gone }

/-- The scheduler's own step, for a message it can send. -/
def watch (s : Scheduler) : Message → Option Scheduler
  | .startCpu cpu idleTask =>
    if cpu ∈ s.current.map Task.cpu ∨ idleTask ∈ s.live.map Task.id then none
    else some { s with
      current := ⟨idleTask, s.created, cpu, false, false⟩ :: s.current
      created := s.created + 1 }
  | .createAndRunTask prevTask newTask =>
    match s.current.find? fun t => t.id = prevTask with
    | none => none
    | some prev =>
      if newTask ∈ s.live.map Task.id then none
      else some ({ s with created := s.created + 1 }.switch prev
        ⟨newTask, s.created, prev.cpu, false, false⟩ true)
  | .serializeTasks prevTask nextTask =>
    match s.current.find? (fun t => t.id = prevTask),
      s.suspended.find? (fun t => t.id = nextTask) with
    | some prev, some next => some (s.switch prev next false)
    | _, _ => none
  | .releaseTask deadTask =>
    match s.current.find? fun t => t.id = deadTask with
    | some dead =>
      if dead.released then none
      else some { s with current := s.current.map fun t =>
        if t.id = deadTask then { t with released := true } else t }
    | none =>
      match s.suspended.find? fun t => t.id = deadTask with
      | some dead => some { s with
          suspended := s.suspended.filter fun t => t.id ≠ deadTask
          gone := { dead with released := true } :: s.gone }
      | none => none

/-- The task's runner is in the table and marked running. -/
def Marked (h : Host) (t : Task) : Prop :=
  ∃ r, h.tasks.get t.id = some r ∧ r.worker = t.worker ∧ r.running = true

/-- At most one task per CPU is marked running. -/
def OneRunning (s : Scheduler) (h : Host) : Prop :=
  ∀ t ∈ s.all, ∀ t' ∈ s.all, Marked h t → Marked h t' → t.cpu = t'.cpu → t = t'

/-- A task that was released and switched away from has no worker and no entry. -/
def DeadGone (s : Scheduler) (h : Host) : Prop :=
  ∀ t ∈ s.gone, t.worker ∈ h.terminated ∧
    ∀ id r, h.tasks.get id = some r → r.worker ≠ t.worker

section Handlers

variable {h : Host}

theorem taskRunner_eq {task : ℕ} {r : Runner} (hr : h.tasks.get task = some r) :
    taskRunner task h = .ok r h := by
  simp only [taskRunner, run_bind, run_get, hr]
  rfl

theorem setRunner_eq {task : ℕ} {r : Runner} (hr : h.tasks.get task = some r)
    (f : Runner → Runner) :
    setRunner task f h = .ok () { h with tasks := h.tasks.set task (f r) } := by
  simp only [setRunner, bind, EStateM.bind, taskRunner_eq hr]
  rfl

/-- The host with a runner for one more task. -/
def Host.add (h : Host) (task : ℕ) : Host :=
  ⟨h.tasks.set task ⟨h.workers, 0, true, false⟩, h.workers + 1, h.terminated⟩

theorem add_get (h : Host) (task id : ℕ) : (h.add task).tasks.get id =
    if id = task then some ⟨h.workers, 0, true, false⟩ else h.tasks.get id := by
  unfold Host.add
  by_cases heq : id = task
  · rw [if_pos heq, heq, JsMap.get_set_self]
  · rw [if_neg heq, JsMap.get_set_of_ne _ _ heq]

theorem receive_start (h : Host) (cpu idleTask : ℕ) :
    receive h (.startCpu cpu idleTask) = h.add idleTask := rfl

/-- A new task only adds its own entry. -/
theorem receive_create (h : Host) (prevTask newTask : ℕ) :
    receive h (.createAndRunTask prevTask newTask) = h.add newTask := rfl

theorem receive_release (h : Host) (deadTask : ℕ) :
    receive h (.releaseTask deadTask) = final (killTask deadTask h) := rfl

/-- Killing a marked task only notes that it is to be killed. -/
theorem killTask_running {task : ℕ} {r : Runner} (hr : h.tasks.get task = some r)
    (hrunning : r.running = true) :
    killTask task h = .ok () { h with tasks := h.tasks.set task { r with kill := true } } := by
  simp only [killTask, bind, EStateM.bind, taskRunner_eq hr, if_pos hrunning, setRunner_eq hr]

theorem killTask_idle {task : ℕ} {r : Runner} (hr : h.tasks.get task = some r)
    (hrunning : r.running = false) :
    killTask task h = .ok () { h with
      terminated := r.worker :: h.terminated, tasks := h.tasks.delete task } := by
  simp only [killTask, bind, EStateM.bind, taskRunner_eq hr, hrunning, if_neg Bool.false_ne_true]
  rfl

/-- The table after a switch between two tasks that exist, before a pending kill. -/
def switched (h : Host) (prevTask nextTask : ℕ) (prev next : Runner) : Host :=
  { h with
    tasks := ((h.tasks.set nextTask { next with lastTask := prevTask }).set prevTask
      { prev with running := false }).set nextTask
        { next with lastTask := prevTask, running := true } }

theorem switched_get {prevTask nextTask : ℕ} {prev next : Runner} (id : ℕ) :
    (switched h prevTask nextTask prev next).tasks.get id =
      if id = nextTask then some { next with lastTask := prevTask, running := true }
      else if id = prevTask then some { prev with running := false } else h.tasks.get id := by
  unfold switched
  by_cases hnext : id = nextTask
  · rw [if_pos hnext, hnext, JsMap.get_set_self]
  · rw [if_neg hnext, JsMap.get_set_of_ne _ _ hnext]
    by_cases hprev : id = prevTask
    · rw [if_pos hprev, hprev, JsMap.get_set_self]
    · rw [if_neg hprev, JsMap.get_set_of_ne _ _ hprev, JsMap.get_set_of_ne _ _ hnext]

theorem receive_serialize {prevTask nextTask : ℕ} {prev next : Runner}
    (hne : prevTask ≠ nextTask) (hprev : h.tasks.get prevTask = some prev)
    (hnext : h.tasks.get nextTask = some next) :
    receive h (.serializeTasks prevTask nextTask) =
      if prev.kill then { switched h prevTask nextTask prev next with
        terminated := prev.worker :: h.terminated
        tasks := (switched h prevTask nextTask prev next).tasks.delete prevTask }
      else switched h prevTask nextTask prev next := by
  have hprev₁ : (h.tasks.set nextTask { next with lastTask := prevTask }).get prevTask =
      some prev := by
    rw [JsMap.get_set_of_ne _ _ hne, hprev]
  have hnext₂ : ((h.tasks.set nextTask { next with lastTask := prevTask }).set prevTask
      { prev with running := false }).get nextTask = some { next with lastTask := prevTask } := by
    rw [JsMap.get_set_of_ne _ _ hne.symm, JsMap.get_set_self]
  have hprev₃ : (switched h prevTask nextTask prev next).tasks.get prevTask =
      some { prev with running := false } := by
    rw [switched_get, if_neg hne, if_pos rfl]
  have hstep₂ := setRunner_eq (h := { h with
    tasks := h.tasks.set nextTask { next with lastTask := prevTask } }) hprev₁
    fun r => { r with running := false }
  have hstep₃ := setRunner_eq (h := { h with
    tasks := (h.tasks.set nextTask { next with lastTask := prevTask }).set prevTask
      { prev with running := false } }) hnext₂ fun r => { r with running := true }
  unfold receive dispatchMessage serializeTasks
  simp only [bind, EStateM.bind, setRunner_eq hnext, hstep₂, hstep₃]
  have hlast := taskRunner_eq hprev₃
  have hkilled := killTask_idle hprev₃ rfl
  unfold switched at hlast hkilled ⊢
  simp only [hlast]
  by_cases hkill : prev.kill = true
  · rw [if_pos hkill, if_pos hkill, hkilled]
    rfl
  · rw [if_neg hkill, if_neg hkill]
    rfl

end Handlers

end NixWasm.KernelHost
