import Sayiir.Core.Traversal
import Sayiir.Persistence.Backend
import Sayiir.Runtime.Sync

/-!
# What a pooled worker computes

A pooled worker has no call stack for the tree it works on: between two polls all
it has is the snapshot. After a task it finds out by recursions over the whole
tree where the instance goes next, which loops have finished an iteration and
whether the workflow is complete, after `sayiir-runtime/src/worker.rs`. This
module holds these recursions; `Runtime.Pool` runs them between the backend calls
of a worker.
-/

namespace Sayiir

namespace WorkflowContinuation

/-- The first task of the last node of the chain. -/
def terminalTaskId : WorkflowContinuation → String
  | .task _ _ (some next) | .fork _ _ (some next) | .delay _ _ (some next)
  | .awaitSignal _ _ _ (some next) | .branch _ _ _ _ (some next) | .loop _ _ _ _ (some next)
  | .childWorkflow _ _ (some next) => next.terminalTaskId
  | c => c.firstTaskId

/-- The metadata of a node that the index lists. -/
def metadata : WorkflowContinuation → Option TaskNodeMetadata
  | .task id fields _ =>
    some ⟨id, fields.timeout, fields.priority, fields.tags, fields.retryPolicy, fields.version⟩
  | .delay id _ _ | .awaitSignal id _ _ _ => some ⟨id, none, none, [], none, none⟩
  | .fork .. | .branch .. | .loop .. | .childWorkflow .. => none

/-- `TaskIndex::build`: the tasks, delays and signal waits of the tree. -/
def taskIndex (c : WorkflowContinuation) : List TaskNodeMetadata := c.subtrees.filterMap metadata

section hashed

variable [Sha256]

/-- `TaskIndex::get`. The index is a hash map, so the last node of an id counts. -/
def indexed (c : WorkflowContinuation) (taskId : TaskId) : Option TaskNodeMetadata :=
  c.taskIndex.reverse.find? fun m => TaskId.sha256 m.name = taskId

mutual

/-- The branches whose outputs feed the join that starts with `taskId`. -/
def findForkBranchesForJoin (taskId : TaskId) :
    WorkflowContinuation → Option (List WorkflowContinuation)
  | .task _ _ next | .delay _ _ next | .awaitSignal _ _ _ next => forkBranchesNext taskId next
  | .fork _ branches join =>
    if join.any fun j => TaskId.sha256 j.firstTaskId = taskId then some branches
    else (forkBranchesNext taskId join).or (forkBranchesIn taskId branches)
  | .branch _ _ branches default next =>
    (forkBranchesRoutes taskId branches).or
      ((forkBranchesNext taskId default).or (forkBranchesNext taskId next))
  | .loop _ body _ _ next =>
    (findForkBranchesForJoin taskId body).or (forkBranchesNext taskId next)
  | .childWorkflow _ child next =>
    (findForkBranchesForJoin taskId child).or (forkBranchesNext taskId next)

def forkBranchesNext (taskId : TaskId) :
    Option WorkflowContinuation → Option (List WorkflowContinuation)
  | none => none
  | some next => findForkBranchesForJoin taskId next

def forkBranchesIn (taskId : TaskId) :
    List WorkflowContinuation → Option (List WorkflowContinuation)
  | [] => none
  | c :: cs => (findForkBranchesForJoin taskId c).or (forkBranchesIn taskId cs)

def forkBranchesRoutes (taskId : TaskId) :
    List (String × WorkflowContinuation) → Option (List WorkflowContinuation)
  | [] => none
  | (_, c) :: cs => (findForkBranchesForJoin taskId c).or (forkBranchesRoutes taskId cs)

end

attribute [grind =] findForkBranchesForJoin forkBranchesNext forkBranchesIn forkBranchesRoutes

mutual

/-- Whether a task, delay or signal wait of that id is in the tree. -/
def findTaskIdInContinuation (taskId : TaskId) : WorkflowContinuation → Bool
  | .task id _ next | .delay id _ next | .awaitSignal id _ _ next =>
    decide (TaskId.sha256 id = taskId) || taskIdInNext taskId next
  | .fork _ branches join => taskIdInBranches taskId branches || taskIdInNext taskId join
  | .branch _ _ branches default next =>
    taskIdInRoutes taskId branches || (taskIdInNext taskId default || taskIdInNext taskId next)
  | .loop _ body _ _ next => findTaskIdInContinuation taskId body || taskIdInNext taskId next
  | .childWorkflow _ child next =>
    findTaskIdInContinuation taskId child || taskIdInNext taskId next

def taskIdInNext (taskId : TaskId) : Option WorkflowContinuation → Bool
  | none => false
  | some next => findTaskIdInContinuation taskId next

def taskIdInBranches (taskId : TaskId) : List WorkflowContinuation → Bool
  | [] => false
  | c :: cs => findTaskIdInContinuation taskId c || taskIdInBranches taskId cs

def taskIdInRoutes (taskId : TaskId) : List (String × WorkflowContinuation) → Bool
  | [] => false
  | (_, c) :: cs => findTaskIdInContinuation taskId c || taskIdInRoutes taskId cs

end

attribute [grind =] findTaskIdInContinuation taskIdInNext taskIdInBranches taskIdInRoutes

mutual

/-- `execute_task_by_id` up to the call: the task whose function is run. Delays
and signal waits are skipped over. -/
def executeTaskById (taskId : TaskId) : WorkflowContinuation → Except RuntimeError String
  | .task id fields next =>
    if TaskId.sha256 id = taskId then
      if fields.func then .ok id else .error (.workflow (.taskNotImplemented id))
    else taskByIdNext taskId next
  | .delay _ _ next | .awaitSignal _ _ _ next => taskByIdNext taskId next
  | .fork _ branches join =>
    (taskByIdBranches taskId branches).getD (taskByIdNext taskId join)
  | .branch _ _ branches default next =>
    (taskByIdRoutes taskId branches).getD
      ((taskByIdDefault taskId default).getD (taskByIdNext taskId next))
  | .loop _ body _ _ next =>
    if findTaskIdInContinuation taskId body then executeTaskById taskId body
    else taskByIdNext taskId next
  | .childWorkflow _ child next =>
    if findTaskIdInContinuation taskId child then executeTaskById taskId child
    else taskByIdNext taskId next

def taskByIdNext (taskId : TaskId) : Option WorkflowContinuation → Except RuntimeError String
  | none => .error (.workflow (.taskNotFound taskId.toHex))
  | some next => executeTaskById taskId next

/-- The first branch that contains the task is searched. -/
def taskByIdBranches (taskId : TaskId) :
    List WorkflowContinuation → Option (Except RuntimeError String)
  | [] => none
  | c :: cs =>
    if findTaskIdInContinuation taskId c then some (executeTaskById taskId c)
    else taskByIdBranches taskId cs

def taskByIdRoutes (taskId : TaskId) :
    List (String × WorkflowContinuation) → Option (Except RuntimeError String)
  | [] => none
  | (_, c) :: cs =>
    if findTaskIdInContinuation taskId c then some (executeTaskById taskId c)
    else taskByIdRoutes taskId cs

def taskByIdDefault (taskId : TaskId) :
    Option WorkflowContinuation → Option (Except RuntimeError String)
  | none => none
  | some c =>
    if findTaskIdInContinuation taskId c then some (executeTaskById taskId c) else none

end

attribute [grind =] executeTaskById taskByIdNext taskByIdBranches taskByIdRoutes taskByIdDefault

/-! ## The position after a task -/

/-- `compute_wake_at`. -/
def wakeAtAfter (now : Time) (duration : Duration) : Except RuntimeError Time :=
  if duration ≤ chronoMax then .ok (now + duration)
  else .error (.workflow (.resumeError
    "Source duration value is out of range for the target type"))

/-- `compute_signal_timeout`. -/
def signalTimeoutAfter (now : Time) (timeout : Option Duration) : Option Time :=
  (timeout.filter (· ≤ chronoMax)).map (now + ·)

/-- Move a snapshot to the head of a continuation. Delays and signal waits are
entered; a delay is recorded at once, with the output completed last. -/
def setPositionAt (now : Time) (c : WorkflowContinuation) (s : WorkflowSnapshot) :
    Except RuntimeError WorkflowSnapshot :=
  match c with
  | .delay id duration next => do
      let wakeAt ← wakeAtAfter now duration
      let hint := next.map firstTaskHint
      let s := (s.setTaskHint (hint.getD default)).updatePosition
        (.atDelay (TaskId.sha256 id) now wakeAt (hint.map TaskHint.id))
      .ok (s.markTaskCompleted (TaskId.sha256 id) (s.getLastTaskOutput.getD []))
  | .awaitSignal id signalName timeout next =>
    let hint := next.map firstTaskHint
    .ok ((s.setTaskHint (hint.getD default)).updatePosition
      (.atSignal (TaskId.sha256 id) signalName (signalTimeoutAfter now timeout)
        (hint.map TaskHint.id)))
  | c => .ok ((s.updatePosition (.atTask c.firstTaskHint.id)).setTaskHint c.firstTaskHint)

/-- Move to the next continuation, if there is one. -/
def moveTo (now : Time) (next : Option WorkflowContinuation) (s : WorkflowSnapshot) :
    Except RuntimeError WorkflowSnapshot :=
  match next with
  | none => .ok s
  | some c => setPositionAt now c s

/-- What a fork does after a task that its parts have not moved away from: go to
the first branch that has not started, or to the join. -/
def advanceFork (now : Time) (taskId : TaskId) (branches : List WorkflowContinuation)
    (join : Option WorkflowContinuation) (s : WorkflowSnapshot) :
    Except RuntimeError WorkflowSnapshot :=
  if s.currentTaskId = some taskId then
    match branches.find? fun b => (s.getTaskResult (TaskId.sha256 b.firstTaskId)).isNone with
    | some b => setPositionAt now b s
    | none => moveTo now join s
  else .ok s

mutual

def updatePositionAfterTask (now : Time) (taskId : TaskId) :
    WorkflowContinuation → WorkflowSnapshot → Except RuntimeError WorkflowSnapshot
  | .task id _ next, s | .delay id _ next, s | .awaitSignal id _ _ next, s =>
    if TaskId.sha256 id = taskId then moveTo now next s
    else updatePositionNext now taskId next s
  | .fork _ branches join, s => do
      let s ← updatePositionBranches now taskId branches s
      let s ← updatePositionNext now taskId join s
      advanceFork now taskId branches join s
  | .branch _ _ branches default next, s => do
      let s ← updatePositionRoutes now taskId branches s
      let s ← updatePositionNext now taskId default s
      updatePositionNext now taskId next s
  | .loop _ body _ _ next, s => do
      let s ← updatePositionAfterTask now taskId body s
      updatePositionNext now taskId next s
  | .childWorkflow _ child next, s => do
      let s ← updatePositionAfterTask now taskId child s
      updatePositionNext now taskId next s

def updatePositionNext (now : Time) (taskId : TaskId) :
    Option WorkflowContinuation → WorkflowSnapshot → Except RuntimeError WorkflowSnapshot
  | none, s => .ok s
  | some next, s => updatePositionAfterTask now taskId next s

def updatePositionBranches (now : Time) (taskId : TaskId) :
    List WorkflowContinuation → WorkflowSnapshot → Except RuntimeError WorkflowSnapshot
  | [], s => .ok s
  | c :: cs, s => do
      let s ← updatePositionAfterTask now taskId c s
      updatePositionBranches now taskId cs s

def updatePositionRoutes (now : Time) (taskId : TaskId) :
    List (String × WorkflowContinuation) → WorkflowSnapshot →
      Except RuntimeError WorkflowSnapshot
  | [], s => .ok s
  | (_, c) :: cs, s => do
      let s ← updatePositionAfterTask now taskId c s
      updatePositionRoutes now taskId cs s

end

attribute [grind =] updatePositionAfterTask updatePositionNext updatePositionBranches
  updatePositionRoutes

/-! ## Completion -/

mutual

/-- Every node of the main path is recorded. Containers other than forks count as
complete when they are recorded themselves. -/
def isWorkflowComplete (s : WorkflowSnapshot) : WorkflowContinuation → Bool
  | .task id _ next | .delay id _ next | .awaitSignal id _ _ next | .branch id _ _ _ next
  | .loop id _ _ _ next | .childWorkflow id _ next =>
    (s.getTaskResult (TaskId.sha256 id)).isSome && isNextComplete s next
  | .fork _ branches join => areBranchesComplete s branches && isNextComplete s join

def isNextComplete (s : WorkflowSnapshot) : Option WorkflowContinuation → Bool
  | none => true
  | some next => isWorkflowComplete s next

def areBranchesComplete (s : WorkflowSnapshot) : List WorkflowContinuation → Bool
  | [] => true
  | c :: cs => isWorkflowComplete s c && areBranchesComplete s cs

end

attribute [grind =] isWorkflowComplete isNextComplete areBranchesComplete

end hashed

end WorkflowContinuation

/-! ## Loops -/

/-- A computation on a snapshot that saves it on the way: what it saves, and the
snapshot it ends with. -/
structure Saving where
  saves : List WorkflowSnapshot
  result : Except RuntimeError WorkflowSnapshot

namespace Saving

def ok (s : WorkflowSnapshot) : Saving := ⟨[], .ok s⟩

/-- Save the snapshot and go on with it. -/
def save (b : Backend) (s : WorkflowSnapshot) : Saving := ⟨[s], .ok (b.afterSave s)⟩

def bind (m : Saving) (f : WorkflowSnapshot → Saving) : Saving :=
  match m.result with
  | .error _ => m
  | .ok s => ⟨m.saves ++ (f s).saves, (f s).result⟩

@[simp] theorem ok_bind (s : WorkflowSnapshot) (f : WorkflowSnapshot → Saving) :
    (ok s).bind f = f s := rfl

end Saving

namespace WorkflowContinuation

variable [Sha256]

/-- Settle a loop that is not recorded and whose body has finished an iteration:
record the loop, or forget the body so that it is dispatched again. -/
def resolveLoop (b : Backend) (codec : EnvelopeCodec) (cfg : LoopConfig)
    (s : WorkflowSnapshot) : Saving :=
  let loopId := TaskId.sha256 cfg.id
  match s.getTaskResult loopId, s.getTaskResult (TaskId.sha256 cfg.body.terminalTaskId) with
  | none, some result =>
    match resolveLoopIteration codec cfg result.output (s.loopIteration loopId) with
    | .error e => ⟨[], .error e⟩
    | .ok (.exit inner) =>
      .save b ((s.clearLoopIteration loopId).markTaskCompleted loopId inner)
    | .ok (.next _) =>
      .save b ((clearBodyTasks cfg.body s).setLoopIteration loopId
        (s.loopIteration loopId + 1))
  | _, _ => .ok s

mutual

/-- Branches of a routing node are not searched. -/
def resolveLoops (b : Backend) (codec : EnvelopeCodec) :
    WorkflowContinuation → WorkflowSnapshot → Saving
  | .loop id body maxIterations onMax next, s =>
    (resolveLoop b codec ⟨id, body, maxIterations, onMax⟩ s).bind fun s =>
      (resolveLoops b codec body s).bind (resolveLoopsNext b codec next)
  | .task _ _ next, s | .delay _ _ next, s | .awaitSignal _ _ _ next, s
  | .branch _ _ _ _ next, s => resolveLoopsNext b codec next s
  | .fork _ branches join, s =>
    (resolveLoopsBranches b codec branches s).bind (resolveLoopsNext b codec join)
  | .childWorkflow _ child next, s =>
    (resolveLoops b codec child s).bind (resolveLoopsNext b codec next)

def resolveLoopsNext (b : Backend) (codec : EnvelopeCodec) :
    Option WorkflowContinuation → WorkflowSnapshot → Saving
  | none, s => .ok s
  | some next, s => resolveLoops b codec next s

def resolveLoopsBranches (b : Backend) (codec : EnvelopeCodec) :
    List WorkflowContinuation → WorkflowSnapshot → Saving
  | [], s => .ok s
  | c :: cs, s => (resolveLoops b codec c s).bind (resolveLoopsBranches b codec cs)

end

attribute [grind =] resolveLoops resolveLoopsNext resolveLoopsBranches

end WorkflowContinuation

end Sayiir
