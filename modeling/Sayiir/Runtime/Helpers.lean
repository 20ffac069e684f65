import Sayiir.Core.Codec
import Sayiir.Runtime.Exec

/-!
# Guards, parking and task execution

The building blocks that both checkpointing executors share, after
`execution/helpers.rs` and `execution/control_flow.rs`: the cancel and pause
guards, the park checkpoints, the resolution of a parked position on resume, and
the lifecycle of one task (deadline, retries, skip if already recorded).
-/

namespace Sayiir

open Exec

/-- `WorkflowStatus`. -/
inductive WorkflowStatus where
  | inProgress
  | completed
  | failed (error : RuntimeError)
  | cancelled (reason cancelledBy : Option String)
  | paused (reason pausedBy : Option String)
  | waiting (wakeAt : Time) (delayId : TaskId)
  | awaitingSignal (signalId : TaskId) (signalName : String) (wakeAt : Option Time)
  deriving DecidableEq

namespace WorkflowSnapshot

/-- `cancellation_details().unwrap_or((None, None))`. -/
def cancellationDetails (s : WorkflowSnapshot) : Option String × Option String :=
  match s.state with
  | .cancelled reason cancelledBy _ _ => (reason, cancelledBy)
  | _ => (none, none)

/-- `pause_details().unwrap_or((None, None))`. -/
def pauseDetails (s : WorkflowSnapshot) : Option String × Option String :=
  match s.state with
  | .paused reason pausedBy _ _ _ => (reason, pausedBy)
  | _ => (none, none)

/-- The status of a state that no executor continues from. A paused instance
counts as one. -/
def asTerminalStatus (s : WorkflowSnapshot) : Option WorkflowStatus :=
  match s.state with
  | .completed _ => some .completed
  | .failed error => some (.failed error)
  | .cancelled reason cancelledBy _ _ => some (.cancelled reason cancelledBy)
  | .paused reason pausedBy _ _ _ => some (.paused reason pausedBy)
  | .inProgress .. => none

end WorkflowSnapshot

/-! ## Guards -/

def checkGuards (cancelScope : Option TaskId) : Exec Unit := do
  let cancelled ← checkAndCancel cancelScope
  if cancelled then throw (.workflow (.cancelled none none))
  else
    let paused ← checkAndPause
    if paused then throw (.workflow (.paused none none)) else pure ()

/-- The status with which a parked instance that has a pending request is left. -/
def checkParkedSignals (nodeId : TaskId) : Exec (Option WorkflowStatus) := do
  let cancelled ← checkAndCancel (some nodeId)
  if cancelled then
    let s ← loadSnapshot
    pure (some (.cancelled s.cancellationDetails.1 s.cancellationDetails.2))
  else
    let paused ← checkAndPause
    if paused then
      let s ← loadSnapshot
      pure (some (.paused s.pauseDetails.1 s.pauseDetails.2))
    else pure none

/-- The status of a delay or fork that cannot go on yet; `none` once its time has come. -/
def checkParkedPosition (nodeId : TaskId) (wakeAt : Time) : Exec (Option WorkflowStatus) := do
  let status ← checkParkedSignals nodeId
  match status with
  | some status => pure (some status)
  | none =>
    let now ← utcNow
    if now < wakeAt then pure (some (.waiting wakeAt nodeId)) else pure none

/-! ## Resuming a parked instance -/

/-- `ResumeParkedPosition`. -/
inductive ResumeParkedPosition where
  | delay (wakeAt : Time) (delayId : TaskId) (nextTaskId : Option TaskId)
  | fork (wakeAt : Time) (forkId : TaskId)
  | signal (signalId : TaskId) (signalName : String) (wakeAt : Option Time)
      (nextTaskId : Option TaskId)
  | notParked
  deriving DecidableEq

namespace ResumeParkedPosition

def extract (s : WorkflowSnapshot) : ResumeParkedPosition :=
  match s.state with
  | .inProgress (.atDelay delayId _ wakeAt next) _ _ => .delay wakeAt delayId next
  | .inProgress (.atFork forkId _ wakeAt) _ _ => .fork wakeAt forkId
  | .inProgress (.atSignal signalId signalName wakeAt next) _ _ =>
    .signal signalId signalName wakeAt next
  | _ => .notParked

/-- Only a running instance is parked. -/
theorem isInProgress_of_extract {s : WorkflowSnapshot} (h : extract s ≠ .notParked) :
    s.isInProgress := by
  unfold extract at h
  unfold WorkflowSnapshot.isInProgress
  cases hs : s.state <;> simp_all

/-- Leave the parked node: go on with the task after it, or complete the
instance with `output` if the park recorded no successor. -/
def leave (nextTaskId : Option TaskId) (output : Bytes) : Exec (Option WorkflowStatus) :=
  match nextTaskId with
  | some next => do
      modify (·.updatePosition (.atTask next))
      saveSnapshot
      pure none
  | none => do
      modify (·.markCompleted output)
      saveSnapshot
      pure (some .completed)

/-- Check a parked position and advance the snapshot if the wait is over. `none`
means that the executor may go on. -/
def resolve : ResumeParkedPosition → Exec (Option WorkflowStatus)
  | .notParked => pure none
  | .delay wakeAt delayId next => do
      let status ← checkParkedPosition delayId wakeAt
      match status with
      | some status => pure (some status)
      | none =>
        let s ← get
        leave next ((s.getTaskResultBytes delayId).getD [])
  | .fork wakeAt forkId => checkParkedPosition forkId wakeAt
  | .signal signalId signalName wakeAt next => do
      let status ← checkParkedSignals signalId
      match status with
      | some status => pure (some status)
      | none =>
        let event ← consumeEvent signalName
        match event with
        | some payload => do
            modify (·.markTaskCompleted signalId payload)
            let s ← get
            leave next ((s.getTaskResultBytes signalId).getD [])
        | none => match wakeAt with
            | none => pure (some (.awaitingSignal signalId signalName none))
            | some wt => do
                let now ← utcNow
                if wt ≤ now then
                  modify (·.markTaskCompleted signalId [])
                  leave next []
                else pure (some (.awaitingSignal signalId signalName (some wt)))

end ResumeParkedPosition

/-! ## Parking -/

/-- `ParkReason`. -/
inductive ParkReason where
  | delay (delayId : TaskId) (wakeAt : Time) (nextTask : Option TaskHint) (passthrough : Bytes)
  | awaitingSignal (signalId : TaskId) (signalName : String) (timeout : Option Time)
      (nextTask : Option TaskHint)

/-- The longest duration `chrono` can represent. -/
def chronoMax : Duration := Duration.fromMillis (2 ^ 63 - 1)

def computeWakeAt (duration : Duration) : Exec Time := do
  let now ← utcNow
  if duration ≤ chronoMax then pure (now + duration)
  else throw (.workflow (.resumeError
    "Source duration value is out of range for the target type"))

def computeSignalTimeout (timeout : Option Duration) : Exec (Option Time) :=
  match timeout with
  | none => pure none
  | some d =>
    if d ≤ chronoMax then do
      let now ← utcNow
      pure (some (now + d))
    else pure none

/-- Park the main executor: the position and, for a delay, its result are stored
by one save. The returned error reports the park to the caller. -/
def saveParkCheckpoint {α : Type} : ParkReason → Exec α
  | .delay delayId wakeAt nextTask passthrough => do
      let now ← utcNow
      modify fun s => ((s.setTaskHint (nextTask.getD default)).updatePosition
        (.atDelay delayId now wakeAt (nextTask.map TaskHint.id))).markTaskCompleted
          delayId passthrough
      saveSnapshot
      throw (.workflow (.waiting wakeAt))
  | .awaitingSignal signalId signalName timeout nextTask => do
      modify fun s => (s.setTaskHint (nextTask.getD default)).updatePosition
        (.atSignal signalId signalName timeout (nextTask.map TaskHint.id))
      saveSnapshot
      throw (.workflow (.awaitingSignal signalId signalName timeout))

/-- Park a branch: only the result of a delay is stored, and no position. -/
def saveBranchParkCheckpoint {α : Type} : ParkReason → Exec α
  | .delay delayId wakeAt _ passthrough => do
      saveTaskResult delayId passthrough
      throw (.workflow (.waiting wakeAt))
  | .awaitingSignal signalId signalName timeout _ =>
    throw (.workflow (.awaitingSignal signalId signalName timeout))

/-! ## Deadlines -/

def expiredTaskDeadline : Exec (Option (TaskId × Duration)) := do
  let s ← get
  match s.taskDeadline with
  | none => pure none
  | some _ => do
      let now ← utcNow
      pure (s.expiredTaskDeadline now)

def refreshTaskDeadline : Exec Unit := do
  let s ← get
  match s.taskDeadline with
  | none => pure ()
  | some _ => do
      let now ← utcNow
      modify (·.refreshTaskDeadline now)

/-- Call the task function, next to the check of the deadline if one is set. -/
def runTask (id : String) (input : Bytes) : Exec Bytes := do
  let s ← get
  match s.taskDeadline with
  | none => executeTask id input
  | some deadline => do
      let r ← raceTask id input deadline
      match r with
      | some r => ofExcept (r.mapError .ofBoxError)
      | none => do
          modify (·.clearTaskDeadline)
          throw (.workflow (.taskTimedOut deadline.taskId
            (Duration.fromMillis deadline.timeoutMs)))

/-- Point the snapshot at the node that follows, if there is one. -/
def advanceTo (next : Option TaskHint) : Exec Unit :=
  match next with
  | none => pure ()
  | some hint => modify fun s => (s.updatePosition (.atTask hint.id)).setTaskHint hint

section hashed

variable [Sha256]

/-- Set a deadline if the task has a timeout. -/
def setTaskDeadline (id : String) (timeout : Option Duration) : Exec Unit :=
  match timeout with
  | none => pure ()
  | some d => do
      let now ← utcNow
      modify (·.setTaskDeadline (TaskId.sha256 id) d now)

/-- Persist a deadline if the task has a timeout and no result yet. -/
def setDeadlineIfNeeded (id : String) (timeout : Option Duration) : Exec Unit := do
  let s ← get
  match s.getTaskResult (TaskId.sha256 id), timeout with
  | none, some d => do
      setTaskDeadline id (some d)
      saveSnapshot
  | _, _ => pure ()

/-! ## Retries -/

/-- One attempt of a task; a success clears its retry state. -/
def attemptTask (taskId : String) (execute : Exec Bytes)
    (onError : RuntimeError → Exec Bytes) : Exec Bytes := do
  let r ← attempt execute
  match r with
  | .ok output => do
      modify (·.clearRetryState (TaskId.sha256 taskId))
      pure output
  | .error e => onError e

/-- Count a failed attempt and wait for the next one. The main executor saves the
snapshot around the wait, a branch does not. -/
def prepareRetry (taskId : String) (policy : RetryPolicy) (timeout : Option Duration)
    (save : Bool) (e : RuntimeError) : Exec Unit := do
  let now ← utcNow
  let s ← get
  let r := s.recordRetry (TaskId.sha256 taskId) policy e none now
  modify fun _ => r.2.clearTaskDeadline
  when save saveSnapshot
  sleepUntil r.1
  when save (setDeadlineIfNeeded taskId timeout)

/-- Attempt a task until it succeeds or its retries are exhausted. The bound
counts attempts and is never what ends the loop (`retryLoop_bound`). -/
def retryLoop (taskId : String) (policy : Option RetryPolicy) (timeout : Option Duration)
    (save : Bool) (execute : Exec Bytes) : Nat → Exec Bytes
  | 0 => attemptTask taskId execute throw
  | bound + 1 => attemptTask taskId execute fun e => do
      let s ← get
      match policy with
      | none => throw e
      | some rp =>
        if s.retriesExhausted (TaskId.sha256 taskId) then throw e
        else
          prepareRetry taskId rp timeout save e
          retryLoop taskId policy timeout save execute bound

def retryWithCheckpoint (taskId : String) (policy : Option RetryPolicy)
    (timeout : Option Duration) (save : Bool) (execute : Exec Bytes) : Exec Bytes :=
  retryLoop taskId policy timeout save execute
    ((policy.map RetryPolicy.maxRetries).getD 0 + 1)

/-! ## Task execution -/

/-- Execute a task on the main path, or skip it if its result is recorded. -/
def executeOrSkipTask (id : String) (input : Bytes) : Exec Bytes := do
  let s ← get
  match s.getTaskResultBytes (TaskId.sha256 id) with
  | some cached => do
      modify (·.clearTaskDeadline)
      pure cached
  | none => do
      let expired ← expiredTaskDeadline
      match expired with
      | some (tid, timeout) => do
          modify (·.clearTaskDeadline)
          throw (.workflow (.taskTimedOut tid timeout))
      | none => do
          refreshTaskDeadline
          let output ← runTask id input
          modify fun s => s.clearTaskDeadline.markTaskCompleted (TaskId.sha256 id) output
          pure output

/-- Execute a task in a branch, or skip it if its result is recorded. The result
goes straight to the store; the snapshot in the hands of the branch is not
updated. -/
def branchExecuteOrSkipTask (id : String) (input : Bytes) (timeout : Option Duration) :
    Exec Bytes := do
  let s ← get
  match s.getTaskResultBytes (TaskId.sha256 id) with
  | some cached => pure cached
  | none => do
      setTaskDeadline id timeout
      let output ← executeTask id input
      let expired ← expiredTaskDeadline
      match expired with
      | some (tid, t) => do
          modify (·.clearTaskDeadline)
          throw (.workflow (.taskTimedOut tid t))
      | none => do
          modify (·.clearTaskDeadline)
          saveTaskResult (TaskId.sha256 id) output
          pure output

/-- The full lifecycle of a task on the main path: guards, deadline, attempts,
position of the next node, save, guards. -/
def executeTaskStep (id : String) (fields : TaskFields) (next : Option TaskHint)
    (input : Bytes) : Exec Bytes := do
  checkGuards (some (TaskId.sha256 id))
  setDeadlineIfNeeded id fields.timeout
  let output ← retryWithCheckpoint id fields.retryPolicy fields.timeout true
    (executeOrSkipTask id input)
  advanceTo next
  saveSnapshot
  checkGuards none
  pure output

end hashed

end Sayiir
