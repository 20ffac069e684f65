import Sayiir.Core.Workflow
import Mathlib.Data.List.AList
import Mathlib.Data.Rat.Floor

/-!
# Workflow snapshots

The durable state of one workflow instance and every operation on it, after
`sayiir-core/src/snapshot.rs`. The operations that read the wall clock take the
current time as an argument. Hash maps are association lists without duplicate
keys. The timestamps and the trace context, which no operation reads, are left
out, and an error message is kept as the error it is the text of.
-/

namespace Sayiir

/-- `TaskResult`. -/
structure TaskResult where
  taskId : TaskId
  output : Bytes
  deriving DecidableEq, Repr

/-- Association lists are compared by their entries, so that the comparison evaluates. -/
instance decidableEqAList {α : Type} {β : α → Type} [DecidableEq α] [∀ a, DecidableEq (β a)] :
    DecidableEq (AList β) :=
  fun xs ys => decidable_of_iff (xs.entries = ys.entries) AList.ext_iff.symm

/-- Task results keyed by task id. -/
abbrev CompletedTasks := AList fun _ : TaskId => TaskResult

/-- Change the output of every entry. -/
def CompletedTasks.mapOutputs (f : TaskId → Bytes → Bytes) (completed : CompletedTasks) :
    CompletedTasks where
  entries := completed.entries.map fun e => ⟨e.1, { e.2 with output := f e.1 e.2.output }⟩
  nodupKeys := by
    have h : (completed.entries.map fun e =>
        (⟨e.1, { e.2 with output := f e.1 e.2.output }⟩ : Sigma fun _ : TaskId => TaskResult)).keys
          = completed.entries.keys := by
      simp [List.keys]
    rw [List.NodupKeys, h]
    exact completed.nodupKeys

theorem CompletedTasks.lookup_mapOutputs (f : TaskId → Bytes → Bytes)
    (completed : CompletedTasks) (taskId : TaskId) :
    (completed.mapOutputs f).lookup taskId
      = (completed.lookup taskId).map fun r => { r with output := f taskId r.output } := by
  obtain ⟨entries, hnodup⟩ := completed
  unfold AList.lookup mapOutputs
  dsimp only
  clear hnodup
  induction entries with
  | nil => rfl
  | cons e entries ih =>
    obtain ⟨key, r⟩ := e
    by_cases h : key = taskId
    · subst h
      simp
    · rw [List.map_cons, List.dlookup_cons_ne _ _ (Ne.symm h),
        List.dlookup_cons_ne _ _ (Ne.symm h)]
      exact ih

/-- `TaskDeadline`. -/
structure TaskDeadline where
  taskId : TaskId
  deadline : Time
  timeoutMs : Nat
  deriving DecidableEq, Repr

/-- `TaskRetryState`. -/
structure TaskRetryState where
  attempts : Nat
  policy : RetryPolicy
  lastError : RuntimeError
  lastFailedWorker : Option String
  nextRetryAt : Time
  deriving DecidableEq

/-- `ExecutionPosition`. -/
inductive ExecutionPosition where
  | notStarted
  | atTask (taskId : TaskId)
  | atFork (forkId : TaskId) (completedBranches : List (String × TaskResult)) (wakeAt : Time)
  | atJoin (joinId : TaskId) (completedBranches : List (String × TaskResult))
  | atDelay (delayId : TaskId) (enteredAt wakeAt : Time) (nextTaskId : Option TaskId)
  | atSignal (signalId : TaskId) (signalName : String) (wakeAt : Option Time)
      (nextTaskId : Option TaskId)
  | inLoop (loopId : TaskId) (iteration : Nat) (nextTaskId : Option TaskId)
  deriving DecidableEq

/-- `WorkflowSnapshotState`. -/
inductive WorkflowSnapshotState where
  | inProgress (position : ExecutionPosition) (completedTasks : CompletedTasks)
      (lastCompletedTaskId : Option TaskId)
  | completed (finalOutput : Bytes)
  | failed (error : RuntimeError)
  | cancelled (reason cancelledBy : Option String) (completedTasks : CompletedTasks)
      (interruptedAtTask : Option TaskId)
  | paused (reason pausedBy : Option String) (completedTasks : CompletedTasks)
      (position : ExecutionPosition) (lastCompletedTaskId : Option TaskId)
  deriving DecidableEq

/-- A request to cancel or to pause an instance. -/
structure SignalRequest where
  reason : Option String
  requestedBy : Option String
  deriving DecidableEq, Repr

/-- `WorkflowSnapshot`. -/
structure WorkflowSnapshot where
  instanceId : String
  definitionHash : DefinitionHash
  state : WorkflowSnapshotState
  initialInput : Option Bytes
  taskDeadline : Option TaskDeadline
  taskRetries : AList fun _ : TaskId => TaskRetryState
  loopIterations : AList fun _ : TaskId => Nat
  taskPriority : Option UInt8
  taskTags : List String
  /-- An output was recorded and not yet flushed by a save. -/
  outputUnflushed : Bool
  deriving DecidableEq

namespace WorkflowSnapshot

def setTaskHint (hint : TaskHint) (s : WorkflowSnapshot) : WorkflowSnapshot :=
  { s with taskPriority := hint.priority, taskTags := hint.tags }

/-- `WorkflowSnapshot::new`. -/
def new (instanceId : String) (definitionHash : DefinitionHash) : WorkflowSnapshot where
  instanceId := instanceId
  definitionHash := definitionHash
  state := .inProgress .notStarted ∅ none
  initialInput := none
  taskDeadline := none
  taskRetries := ∅
  loopIterations := ∅
  taskPriority := none
  taskTags := []
  outputUnflushed := false

def withInitialInput (instanceId : String) (definitionHash : DefinitionHash)
    (initialInput : Bytes) : WorkflowSnapshot :=
  { new instanceId definitionHash with initialInput := some initialInput }

/-- The completed tasks of a state that carries them. -/
def getAllTaskResults (s : WorkflowSnapshot) : Option CompletedTasks :=
  match s.state with
  | .inProgress _ completed _ | .cancelled _ _ completed _ | .paused _ _ completed _ _ =>
    some completed
  | .completed _ | .failed _ => none

def getTaskResult (s : WorkflowSnapshot) (taskId : TaskId) : Option TaskResult :=
  s.getAllTaskResults.bind fun completed => completed.lookup taskId

def getTaskResultBytes (s : WorkflowSnapshot) (taskId : TaskId) : Option Bytes :=
  (s.getTaskResult taskId).map TaskResult.output

/-- Record a result. Only a snapshot in progress records anything. -/
def markTaskCompleted (taskId : TaskId) (output : Bytes) (s : WorkflowSnapshot) :
    WorkflowSnapshot :=
  match s.state with
  | .inProgress position completed _ =>
    { s with
      state := .inProgress position (completed.insert taskId ⟨taskId, output⟩) (some taskId)
      outputUnflushed := true }
  | _ => s

def lastCompletedTaskId (s : WorkflowSnapshot) : Option TaskId :=
  match s.state with
  | .inProgress _ _ last | .paused _ _ _ _ last => last
  | _ => none

def getLastTaskOutput (s : WorkflowSnapshot) : Option Bytes :=
  match s.state with
  | .inProgress _ completed last =>
    (last.bind fun id => completed.lookup id).map TaskResult.output
  | _ => none

def updatePosition (position : ExecutionPosition) (s : WorkflowSnapshot) : WorkflowSnapshot :=
  match s.state with
  | .inProgress _ completed last => { s with state := .inProgress position completed last }
  | _ => s

def setTaskDeadline (taskId : TaskId) (timeout : Duration) (now : Time) (s : WorkflowSnapshot) :
    WorkflowSnapshot :=
  { s with taskDeadline := some ⟨taskId, now + timeout, Duration.asMillis timeout⟩ }

def refreshTaskDeadline (now : Time) (s : WorkflowSnapshot) : WorkflowSnapshot :=
  { s with taskDeadline := s.taskDeadline.map fun d =>
      { d with deadline := now + Duration.fromMillis d.timeoutMs } }

def clearTaskDeadline (s : WorkflowSnapshot) : WorkflowSnapshot := { s with taskDeadline := none }

def expiredTaskDeadline (now : Time) (s : WorkflowSnapshot) : Option (TaskId × Duration) :=
  s.taskDeadline.bind fun d =>
    if d.deadline ≤ now then some (d.taskId, Duration.fromMillis d.timeoutMs) else none

/-- `initial_delay * backoff_multiplier ^ (attempts - 1)`, cut to whole milliseconds. -/
def retryDelay (policy : RetryPolicy) (attempts : Nat) : Duration :=
  Duration.fromMillis (⌊(Duration.asMillis policy.initialDelay : ℚ)
    * policy.backoffMultiplier ^ (attempts - 1)⌋).toNat

/-- Count a failed attempt; also returns the time of the next one. -/
def recordRetry (taskId : TaskId) (policy : RetryPolicy) (error : RuntimeError)
    (workerId : Option String) (now : Time) (s : WorkflowSnapshot) : Time × WorkflowSnapshot :=
  let attempts := ((s.taskRetries.lookup taskId).map TaskRetryState.attempts).getD 0 + 1
  let nextRetryAt := now + retryDelay policy attempts
  let entry : TaskRetryState := ⟨attempts, policy, error, workerId, nextRetryAt⟩
  (nextRetryAt, { s with taskRetries := s.taskRetries.insert taskId entry })

def clearRetryState (taskId : TaskId) (s : WorkflowSnapshot) : WorkflowSnapshot :=
  { s with taskRetries := s.taskRetries.erase taskId }

def retriesExhausted (taskId : TaskId) (s : WorkflowSnapshot) : Bool :=
  (s.taskRetries.lookup taskId).any fun rs => rs.policy.maxRetries ≤ rs.attempts

def loopIteration (loopId : TaskId) (s : WorkflowSnapshot) : Nat :=
  (s.loopIterations.lookup loopId).getD 0

def setLoopIteration (loopId : TaskId) (iteration : Nat) (s : WorkflowSnapshot) :
    WorkflowSnapshot :=
  { s with loopIterations := s.loopIterations.insert loopId iteration }

def clearLoopIteration (loopId : TaskId) (s : WorkflowSnapshot) : WorkflowSnapshot :=
  { s with loopIterations := s.loopIterations.erase loopId }

/-- Forget a result so that the node runs again. The marker of the last completed
task is left as it is. -/
def removeTaskResult (taskId : TaskId) (s : WorkflowSnapshot) : WorkflowSnapshot :=
  match s.state with
  | .inProgress position completed last =>
    { s with state := .inProgress position (completed.erase taskId) last }
  | _ => s

/-- `mark_completed` and `mark_failed` differ only in the state they enter. -/
def markTerminal (state : WorkflowSnapshotState) (s : WorkflowSnapshot) : WorkflowSnapshot :=
  { s with taskDeadline := none, taskRetries := ∅, loopIterations := ∅, state := state }

def markCompleted (finalOutput : Bytes) : WorkflowSnapshot → WorkflowSnapshot :=
  markTerminal (.completed finalOutput)

def markFailed (error : RuntimeError) : WorkflowSnapshot → WorkflowSnapshot :=
  markTerminal (.failed error)

def markPaused (request : SignalRequest) (s : WorkflowSnapshot) : WorkflowSnapshot :=
  match s.state with
  | .inProgress position completed last =>
    { s with
      taskDeadline := none
      state := .paused request.reason request.requestedBy completed position last }
  | _ => s

def markUnpaused (s : WorkflowSnapshot) : WorkflowSnapshot :=
  match s.state with
  | .paused _ _ completed position last =>
    { s with state := .inProgress position completed last }
  | _ => s

def markCancelled (request : SignalRequest) (interruptedAtTask : Option TaskId)
    (s : WorkflowSnapshot) : WorkflowSnapshot :=
  let completed := match s.state with
    | .inProgress _ completed _ => completed
    | _ => ∅
  { s with
    taskDeadline := none
    state := .cancelled request.reason request.requestedBy completed interruptedAtTask }

/-- The task an instance is at, if it is running and at a task. -/
def currentTaskId (s : WorkflowSnapshot) : Option TaskId :=
  match s.state with
  | .inProgress (.atTask taskId) _ _ => some taskId
  | _ => none

/-- Completed, failed or cancelled. -/
def isTerminal (s : WorkflowSnapshot) : Bool :=
  match s.state with
  | .completed _ | .failed _ | .cancelled .. => true
  | .inProgress .. | .paused .. => false

/-- The position of an instance that is running or paused. -/
def position (s : WorkflowSnapshot) : Option ExecutionPosition :=
  match s.state with
  | .inProgress position _ _ | .paused _ _ _ position _ => some position
  | _ => none

/-- Change every recorded output. -/
def mapOutputs (f : TaskId → Bytes → Bytes) (s : WorkflowSnapshot) : WorkflowSnapshot :=
  match s.state with
  | .inProgress position completed last =>
    { s with state := .inProgress position (completed.mapOutputs f) last }
  | .cancelled reason cancelledBy completed interruptedAtTask =>
    { s with
      state := .cancelled reason cancelledBy (completed.mapOutputs f) interruptedAtTask }
  | .paused reason pausedBy completed position last =>
    { s with state := .paused reason pausedBy (completed.mapOutputs f) position last }
  | .completed _ | .failed _ => s

/-- Empty every recorded output. -/
def stripTaskOutputs (s : WorkflowSnapshot) : WorkflowSnapshot := s.mapOutputs fun _ _ => []

/-- Put outputs back from another source. Outputs of tasks that the snapshot does
not record are dropped. -/
def hydrateTaskOutputs (outputs : TaskId → Option Bytes) (s : WorkflowSnapshot) :
    WorkflowSnapshot :=
  s.mapOutputs fun taskId output => (outputs taskId).getD output

/-- The outputs have been flushed. -/
def clearUnflushed (s : WorkflowSnapshot) : WorkflowSnapshot := { s with outputUnflushed := false }

/-- The task has failed and its next attempt is not due yet. -/
def inBackoff (taskId : TaskId) (now : Time) (s : WorkflowSnapshot) : Bool :=
  (s.taskRetries.lookup taskId).any fun rs => decide (now < rs.nextRetryAt)

/-- The snapshot of an instance that is running. -/
def isInProgress (s : WorkflowSnapshot) : Bool :=
  match s.state with
  | .inProgress .. => true
  | _ => false

def isPaused (s : WorkflowSnapshot) : Bool :=
  match s.state with
  | .paused .. => true
  | _ => false

def currentTaskPriority (s : WorkflowSnapshot) : UInt8 := s.taskPriority.getD 3

def hasFailedOnWorker (taskId : TaskId) (workerId : String) (s : WorkflowSnapshot) : Bool :=
  ((s.taskRetries.lookup taskId).bind TaskRetryState.lastFailedWorker).any (· = workerId)

/-- `completed_task_count`, an `i32`. -/
def completedTaskCount (s : WorkflowSnapshot) : Int :=
  s.getAllTaskResults.elim 0 fun completed => min completed.entries.length (2 ^ 31 - 1)

/-! ## What the operations do to the recorded results -/

variable {s : WorkflowSnapshot} {taskId other : TaskId}

theorem isInProgress_iff :
    s.isInProgress ↔ ∃ position completed last, s.state = .inProgress position completed last := by
  unfold isInProgress
  cases s.state <;> simp

@[simp] theorem getTaskResult_updatePosition (position : ExecutionPosition) :
    (s.updatePosition position).getTaskResult taskId = s.getTaskResult taskId := by
  unfold updatePosition getTaskResult getAllTaskResults
  cases hs : s.state <;> simp [hs]

theorem getTaskResult_markTaskCompleted (output : Bytes) :
    (s.markTaskCompleted taskId output).getTaskResult other
      = if s.isInProgress ∧ other = taskId then some ⟨taskId, output⟩
        else s.getTaskResult other := by
  unfold markTaskCompleted getTaskResult getAllTaskResults isInProgress
  cases hs : s.state with
  | inProgress position completed last =>
    by_cases h : other = taskId
    · subst h
      simp
    · simp [h, AList.lookup_insert_ne h]
  | _ => simp [hs]

theorem getTaskResult_removeTaskResult :
    (s.removeTaskResult taskId).getTaskResult other
      = if s.isInProgress ∧ other = taskId then none else s.getTaskResult other := by
  unfold removeTaskResult getTaskResult getAllTaskResults isInProgress
  cases hs : s.state with
  | inProgress position completed last =>
    by_cases h : other = taskId
    · subst h
      simp
    · simp [h, AList.lookup_erase_ne h]
  | _ => simp [hs]

@[simp] theorem getTaskResult_markPaused (request : SignalRequest) :
    (s.markPaused request).getTaskResult taskId = s.getTaskResult taskId := by
  unfold markPaused getTaskResult getAllTaskResults
  cases hs : s.state <;> simp [hs]

@[simp] theorem getTaskResult_markUnpaused :
    s.markUnpaused.getTaskResult taskId = s.getTaskResult taskId := by
  unfold markUnpaused getTaskResult getAllTaskResults
  cases hs : s.state <;> simp [hs]

@[simp] theorem getTaskResult_setTaskHint (hint : TaskHint) :
    (s.setTaskHint hint).getTaskResult taskId = s.getTaskResult taskId := rfl

@[simp] theorem getTaskResult_new (instanceId : String) (hash : DefinitionHash) (input : Bytes) :
    (withInitialInput instanceId hash input).getTaskResult taskId = none := by
  simp [withInitialInput, new, getTaskResult, getAllTaskResults]

/-- The last recorded output of a node that has just been recorded. -/
theorem getTaskResultBytes_markTaskCompleted (output : Bytes) :
    (s.markTaskCompleted taskId output).getTaskResultBytes other
      = if s.isInProgress ∧ other = taskId then some output
        else s.getTaskResultBytes other := by
  unfold getTaskResultBytes
  rw [getTaskResult_markTaskCompleted]
  split <;> rfl

theorem getTaskResultBytes_eq_none_iff :
    s.getTaskResultBytes taskId = none ↔ s.getTaskResult taskId = none := by
  simp [getTaskResultBytes]

/-! ## What the operations do to the state -/

@[simp] theorem isInProgress_updatePosition (position : ExecutionPosition) :
    (s.updatePosition position).isInProgress = s.isInProgress := by
  unfold updatePosition isInProgress
  cases hs : s.state <;> simp [hs]

@[simp] theorem isInProgress_markTaskCompleted (output : Bytes) :
    (s.markTaskCompleted taskId output).isInProgress = s.isInProgress := by
  unfold markTaskCompleted isInProgress
  cases hs : s.state <;> simp [hs]

@[simp] theorem isInProgress_removeTaskResult :
    (s.removeTaskResult taskId).isInProgress = s.isInProgress := by
  unfold removeTaskResult isInProgress
  cases hs : s.state <;> simp [hs]

/-! ## What the operations do to the marker of the last completed task -/

@[simp] theorem lastCompletedTaskId_updatePosition (position : ExecutionPosition) :
    (s.updatePosition position).lastCompletedTaskId = s.lastCompletedTaskId := by
  unfold updatePosition lastCompletedTaskId
  cases hs : s.state <;> simp [hs]

@[simp] theorem lastCompletedTaskId_removeTaskResult :
    (s.removeTaskResult taskId).lastCompletedTaskId = s.lastCompletedTaskId := by
  unfold removeTaskResult lastCompletedTaskId
  cases hs : s.state <;> simp [hs]

@[simp] theorem lastCompletedTaskId_markPaused (request : SignalRequest) :
    (s.markPaused request).lastCompletedTaskId = s.lastCompletedTaskId := by
  unfold markPaused lastCompletedTaskId
  cases hs : s.state <;> simp [hs]

@[simp] theorem lastCompletedTaskId_markUnpaused :
    s.markUnpaused.lastCompletedTaskId = s.lastCompletedTaskId := by
  unfold markUnpaused lastCompletedTaskId
  cases hs : s.state <;> simp [hs]

theorem lastCompletedTaskId_markTaskCompleted (output : Bytes) :
    (s.markTaskCompleted taskId output).lastCompletedTaskId
      = if s.isInProgress then some taskId else s.lastCompletedTaskId := by
  unfold markTaskCompleted lastCompletedTaskId isInProgress
  cases hs : s.state <;> simp [hs]

/-! ## What the operations do to the position -/

@[simp] theorem position_markTaskCompleted (output : Bytes) :
    (s.markTaskCompleted taskId output).position = s.position := by
  unfold markTaskCompleted position
  cases hs : s.state <;> simp [hs]

@[simp] theorem position_setTaskHint (hint : TaskHint) :
    (s.setTaskHint hint).position = s.position := rfl

@[simp] theorem position_mapOutputs (f : TaskId → Bytes → Bytes) :
    (s.mapOutputs f).position = s.position := by
  unfold mapOutputs position
  cases hs : s.state <;> simp [hs]

@[simp] theorem position_markPaused (request : SignalRequest) :
    (s.markPaused request).position = s.position := by
  unfold markPaused position
  cases hs : s.state <;> simp [hs]

@[simp] theorem position_markUnpaused : s.markUnpaused.position = s.position := by
  unfold markUnpaused position
  cases hs : s.state <;> simp [hs]

@[simp] theorem position_markCancelled (request : SignalRequest) (at_ : Option TaskId) :
    (s.markCancelled request at_).position = none := rfl

theorem position_updatePosition (position : ExecutionPosition) :
    (s.updatePosition position).position = if s.isInProgress then some position else s.position := by
  unfold updatePosition isInProgress WorkflowSnapshot.position
  cases hs : s.state <;> simp [hs]

theorem position_of_currentTaskId (h : s.currentTaskId = some taskId) :
    s.position = some (.atTask taskId) := by
  unfold currentTaskId at h
  split at h
  · rename_i hs
    simpa [position, hs] using h
  · cases h

/-! ## What a change of the outputs does -/

theorem getTaskResult_mapOutputs (f : TaskId → Bytes → Bytes) :
    (s.mapOutputs f).getTaskResult taskId
      = (s.getTaskResult taskId).map fun r => { r with output := f taskId r.output } := by
  unfold mapOutputs getTaskResult getAllTaskResults
  cases hs : s.state <;> simp [hs, CompletedTasks.lookup_mapOutputs]

theorem mapOutputs_mapOutputs (f g : TaskId → Bytes → Bytes) :
    (s.mapOutputs f).mapOutputs g = s.mapOutputs fun t output => g t (f t output) := by
  have hcompleted : ∀ completed : CompletedTasks, (completed.mapOutputs f).mapOutputs g
      = completed.mapOutputs fun t output => g t (f t output) := by
    intro completed
    simp [CompletedTasks.mapOutputs, AList.ext_iff]
  unfold mapOutputs
  cases hs : s.state <;> simp [hs, hcompleted]

/-- A change that leaves every recorded output as it is changes nothing. -/
theorem mapOutputs_eq_self {f : TaskId → Bytes → Bytes}
    (h : ∀ t r, s.getTaskResult t = some r → f t r.output = r.output) : s.mapOutputs f = s := by
  have hentries : ∀ completed : CompletedTasks, s.getAllTaskResults = some completed →
      completed.mapOutputs f = completed := by
    intro completed hc
    apply AList.ext
    refine (List.map_congr_left ?_).trans (List.map_id _)
    intro e he
    have hlookup : s.getTaskResult e.1 = some e.2 := by
      rw [getTaskResult, hc, Option.bind_some]
      exact AList.mem_lookup_iff.mpr he
    rw [h _ _ hlookup]
    rfl
  unfold mapOutputs
  cases hs : s.state with
  | inProgress position completed last =>
    simp only [hentries completed (by simp [getAllTaskResults, hs]), ← hs]
  | cancelled reason cancelledBy completed interruptedAtTask =>
    simp only [hentries completed (by simp [getAllTaskResults, hs]), ← hs]
  | paused reason pausedBy completed position last =>
    simp only [hentries completed (by simp [getAllTaskResults, hs]), ← hs]
  | _ => rfl

@[simp] theorem lastCompletedTaskId_mapOutputs (f : TaskId → Bytes → Bytes) :
    (s.mapOutputs f).lastCompletedTaskId = s.lastCompletedTaskId := by
  unfold mapOutputs lastCompletedTaskId
  cases hs : s.state <;> simp [hs]

@[simp] theorem isInProgress_mapOutputs (f : TaskId → Bytes → Bytes) :
    (s.mapOutputs f).isInProgress = s.isInProgress := by
  unfold mapOutputs isInProgress
  cases hs : s.state <;> simp [hs]

@[simp] theorem initialInput_mapOutputs (f : TaskId → Bytes → Bytes) :
    (s.mapOutputs f).initialInput = s.initialInput := by
  unfold mapOutputs
  split <;> rfl

@[simp] theorem definitionHash_mapOutputs (f : TaskId → Bytes → Bytes) :
    (s.mapOutputs f).definitionHash = s.definitionHash := by
  unfold mapOutputs
  split <;> rfl

@[simp] theorem taskRetries_mapOutputs (f : TaskId → Bytes → Bytes) :
    (s.mapOutputs f).taskRetries = s.taskRetries := by
  unfold mapOutputs
  split <;> rfl

/-! ## The definition hash and the retries of other operations -/

@[simp] theorem lastCompletedTaskId_setTaskHint (hint : TaskHint) :
    (s.setTaskHint hint).lastCompletedTaskId = s.lastCompletedTaskId := rfl

@[simp] theorem lastCompletedTaskId_clearTaskDeadline :
    s.clearTaskDeadline.lastCompletedTaskId = s.lastCompletedTaskId := rfl

@[simp] theorem taskRetries_clearTaskDeadline :
    s.clearTaskDeadline.taskRetries = s.taskRetries := rfl

@[simp] theorem definitionHash_clearTaskDeadline :
    s.clearTaskDeadline.definitionHash = s.definitionHash := rfl

@[simp] theorem initialInput_clearTaskDeadline :
    s.clearTaskDeadline.initialInput = s.initialInput := rfl

@[simp] theorem lastCompletedTaskId_clearRetryState :
    (s.clearRetryState taskId).lastCompletedTaskId = s.lastCompletedTaskId := rfl

@[simp] theorem taskRetries_clearRetryState :
    (s.clearRetryState taskId).taskRetries = s.taskRetries.erase taskId := rfl

@[simp] theorem definitionHash_clearRetryState :
    (s.clearRetryState taskId).definitionHash = s.definitionHash := rfl

@[simp] theorem initialInput_clearRetryState :
    (s.clearRetryState taskId).initialInput = s.initialInput := rfl

@[simp] theorem outputUnflushed_setTaskHint (hint : TaskHint) :
    (s.setTaskHint hint).outputUnflushed = s.outputUnflushed := rfl

@[simp] theorem taskRetries_setTaskHint (hint : TaskHint) :
    (s.setTaskHint hint).taskRetries = s.taskRetries := rfl

@[simp] theorem definitionHash_setTaskHint (hint : TaskHint) :
    (s.setTaskHint hint).definitionHash = s.definitionHash := rfl

@[simp] theorem initialInput_setTaskHint (hint : TaskHint) :
    (s.setTaskHint hint).initialInput = s.initialInput := rfl

@[simp] theorem taskRetries_clearUnflushed : s.clearUnflushed.taskRetries = s.taskRetries := rfl

@[simp] theorem definitionHash_clearUnflushed :
    s.clearUnflushed.definitionHash = s.definitionHash := rfl

@[simp] theorem initialInput_clearUnflushed :
    s.clearUnflushed.initialInput = s.initialInput := rfl

@[simp] theorem isInProgress_clearUnflushed :
    s.clearUnflushed.isInProgress = s.isInProgress := rfl

@[simp] theorem lastCompletedTaskId_clearUnflushed :
    s.clearUnflushed.lastCompletedTaskId = s.lastCompletedTaskId := rfl

@[simp] theorem position_clearUnflushed : s.clearUnflushed.position = s.position := rfl

@[simp] theorem position_markFailed (error : RuntimeError) :
    (s.markFailed error).position = none := rfl

@[simp] theorem position_markCompleted (output : Bytes) :
    (s.markCompleted output).position = none := rfl

@[simp] theorem position_recordRetry (policy : RetryPolicy) (error : RuntimeError)
    (workerId : Option String) (now : Time) :
    (s.recordRetry taskId policy error workerId now).2.position = s.position := rfl

@[simp] theorem position_clearRetryState : (s.clearRetryState taskId).position = s.position := rfl

@[simp] theorem position_clearTaskDeadline : s.clearTaskDeadline.position = s.position := rfl

@[simp] theorem getTaskResult_clearRetryState :
    (s.clearRetryState taskId).getTaskResult other = s.getTaskResult other := rfl

@[simp] theorem getTaskResult_clearTaskDeadline :
    s.clearTaskDeadline.getTaskResult taskId = s.getTaskResult taskId := rfl

@[simp] theorem getTaskResult_clearLoopIteration (loopId : TaskId) :
    (s.clearLoopIteration loopId).getTaskResult taskId = s.getTaskResult taskId := rfl

@[simp] theorem getTaskResult_setLoopIteration (loopId : TaskId) (iteration : Nat) :
    (s.setLoopIteration loopId iteration).getTaskResult taskId = s.getTaskResult taskId := rfl

@[simp] theorem isInProgress_clearRetryState :
    (s.clearRetryState taskId).isInProgress = s.isInProgress := rfl

@[simp] theorem isInProgress_clearTaskDeadline :
    s.clearTaskDeadline.isInProgress = s.isInProgress := rfl

@[simp] theorem isInProgress_clearLoopIteration (loopId : TaskId) :
    (s.clearLoopIteration loopId).isInProgress = s.isInProgress := rfl

@[simp] theorem isInProgress_setLoopIteration (loopId : TaskId) (iteration : Nat) :
    (s.setLoopIteration loopId iteration).isInProgress = s.isInProgress := rfl

@[simp] theorem isInProgress_setTaskHint (hint : TaskHint) :
    (s.setTaskHint hint).isInProgress = s.isInProgress := rfl

@[simp] theorem getTaskResult_clearUnflushed :
    s.clearUnflushed.getTaskResult taskId = s.getTaskResult taskId := rfl

theorem outputUnflushed_markTaskCompleted (output : Bytes) (h : s.isInProgress) :
    (s.markTaskCompleted taskId output).outputUnflushed = true := by
  obtain ⟨position, completed, last, hs⟩ := isInProgress_iff.mp h
  simp [markTaskCompleted, hs]

@[simp] theorem outputUnflushed_updatePosition (position : ExecutionPosition) :
    (s.updatePosition position).outputUnflushed = s.outputUnflushed := by
  unfold updatePosition
  split <;> rfl

@[simp] theorem definitionHash_markTaskCompleted (output : Bytes) :
    (s.markTaskCompleted taskId output).definitionHash = s.definitionHash := by
  unfold markTaskCompleted
  split <;> rfl

@[simp] theorem definitionHash_updatePosition (position : ExecutionPosition) :
    (s.updatePosition position).definitionHash = s.definitionHash := by
  unfold updatePosition
  split <;> rfl

@[simp] theorem definitionHash_markPaused (request : SignalRequest) :
    (s.markPaused request).definitionHash = s.definitionHash := by
  unfold markPaused
  split <;> rfl

@[simp] theorem definitionHash_markUnpaused :
    s.markUnpaused.definitionHash = s.definitionHash := by
  unfold markUnpaused
  split <;> rfl

@[simp] theorem taskRetries_markTaskCompleted (output : Bytes) :
    (s.markTaskCompleted taskId output).taskRetries = s.taskRetries := by
  unfold markTaskCompleted
  split <;> rfl

@[simp] theorem taskRetries_updatePosition (position : ExecutionPosition) :
    (s.updatePosition position).taskRetries = s.taskRetries := by
  unfold updatePosition
  split <;> rfl

@[simp] theorem taskRetries_markPaused (request : SignalRequest) :
    (s.markPaused request).taskRetries = s.taskRetries := by
  unfold markPaused
  split <;> rfl

@[simp] theorem taskRetries_markUnpaused : s.markUnpaused.taskRetries = s.taskRetries := by
  unfold markUnpaused
  split <;> rfl

/-! ## The initial input is never changed -/

@[simp] theorem initialInput_markTaskCompleted (output : Bytes) :
    (s.markTaskCompleted taskId output).initialInput = s.initialInput := by
  unfold markTaskCompleted
  split <;> rfl

@[simp] theorem initialInput_removeTaskResult :
    (s.removeTaskResult taskId).initialInput = s.initialInput := by
  unfold removeTaskResult
  split <;> rfl

@[simp] theorem initialInput_updatePosition (position : ExecutionPosition) :
    (s.updatePosition position).initialInput = s.initialInput := by
  unfold updatePosition
  split <;> rfl

@[simp] theorem initialInput_markPaused (request : SignalRequest) :
    (s.markPaused request).initialInput = s.initialInput := by
  unfold markPaused
  split <;> rfl

@[simp] theorem initialInput_markUnpaused : s.markUnpaused.initialInput = s.initialInput := by
  unfold markUnpaused
  split <;> rfl

/-! ## Deadlines and loop counters are kept apart from the results -/

@[simp] theorem taskDeadline_markTaskCompleted (output : Bytes) :
    (s.markTaskCompleted taskId output).taskDeadline = s.taskDeadline := by
  unfold markTaskCompleted
  split <;> rfl

@[simp] theorem taskDeadline_removeTaskResult :
    (s.removeTaskResult taskId).taskDeadline = s.taskDeadline := by
  unfold removeTaskResult
  split <;> rfl

@[simp] theorem taskDeadline_updatePosition (position : ExecutionPosition) :
    (s.updatePosition position).taskDeadline = s.taskDeadline := by
  unfold updatePosition
  split <;> rfl

@[simp] theorem loopIteration_markTaskCompleted (loopId : TaskId) (output : Bytes) :
    (s.markTaskCompleted taskId output).loopIteration loopId = s.loopIteration loopId := by
  unfold markTaskCompleted loopIteration
  split <;> rfl

@[simp] theorem loopIteration_removeTaskResult (loopId : TaskId) :
    (s.removeTaskResult taskId).loopIteration loopId = s.loopIteration loopId := by
  unfold removeTaskResult loopIteration
  split <;> rfl

@[simp] theorem loopIteration_updatePosition (loopId : TaskId) (position : ExecutionPosition) :
    (s.updatePosition position).loopIteration loopId = s.loopIteration loopId := by
  unfold updatePosition loopIteration
  split <;> rfl

theorem loopIteration_setLoopIteration (loopId : TaskId) (iteration : Nat) :
    (s.setLoopIteration loopId iteration).loopIteration other
      = if other = loopId then iteration else s.loopIteration other := by
  unfold setLoopIteration loopIteration
  split
  · rename_i h
    subst h
    simp
  · rename_i h
    simp [AList.lookup_insert_ne h]

theorem loopIteration_clearLoopIteration (loopId : TaskId) :
    (s.clearLoopIteration loopId).loopIteration other
      = if other = loopId then 0 else s.loopIteration other := by
  unfold clearLoopIteration loopIteration
  split
  · rename_i h
    subst h
    simp
  · rename_i h
    simp [AList.lookup_erase_ne h]

end WorkflowSnapshot

/-- An instance in progress has not ended. -/
theorem isTerminal_of_isInProgress {s : WorkflowSnapshot} (h : s.isInProgress) :
    s.isTerminal = false := by
  obtain ⟨position, completed, last, hs⟩ := WorkflowSnapshot.isInProgress_iff.mp h
  simp [WorkflowSnapshot.isTerminal, hs]

end Sayiir
