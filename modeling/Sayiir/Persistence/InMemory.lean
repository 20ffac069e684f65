import Sayiir.Core.Snapshot
import Mathlib.Logic.Function.Basic

/-!
# The in-memory backend

The slice of `sayiir-persistence/src/in_memory.rs` that belongs to one workflow
instance: its snapshot, its pending cancel and pause requests, its buffered
events and the results cached when it becomes terminal. Every method of the
backend takes its locks for the whole call, so each is one atomic function.

A `World` adds to the backend the wall clock and a trace. The trace is a ghost:
no function of the model reads it, and the theorems speak about it.
-/

namespace Sayiir

/-- What the trace records. -/
inductive Event where
  /-- A task function was called. -/
  | taskCalled (id : String) (input : Bytes) (time : Time)
  /-- The key function of a branch node was called. -/
  | keyFnCalled (branchId : String) (input : Bytes) (time : Time)
  /-- A delay or a signal wait without a recorded result was reached. -/
  | reached (id : String) (time : Time)
  /-- A whole snapshot was stored. -/
  | saved (snapshot : WorkflowSnapshot)
  /-- A single result was stored. -/
  | savedResult (taskId : TaskId) (output : Bytes)
  /-- An event was found for the signal wait an instance was parked at. -/
  | signalled (signalId : TaskId)
  /-- The signal wait an instance was parked at was found to have timed out. -/
  | timedOut (signalId : TaskId)
  deriving DecidableEq

structure World where
  instanceId : String
  snapshot : Option WorkflowSnapshot
  cancelSignal : Option SignalRequest
  pauseSignal : Option SignalRequest
  /-- Buffered events by signal name, oldest first. -/
  events : String → List Bytes
  taskResultsCache : Option CompletedTasks
  clock : Time
  trace : List Event

namespace World

/-- The world before an instance has been started. -/
def fresh (instanceId : String) (now : Time) : World where
  instanceId := instanceId
  snapshot := none
  cancelSignal := none
  pauseSignal := none
  events := fun _ => []
  taskResultsCache := none
  clock := now
  trace := []

/-- Append to the trace. -/
def log (e : Event) (w : World) : World := { w with trace := w.trace ++ [e] }

/-! ## SnapshotStore -/

/-- The results kept when `next` overwrites the stored snapshot with a terminal one. -/
def cacheOnSave (next : WorkflowSnapshot) (w : World) : Option CompletedTasks :=
  match next.state, w.snapshot.bind WorkflowSnapshot.getAllTaskResults with
  | .completed _, some tasks | .failed _, some tasks =>
    if tasks.entries.isEmpty then w.taskResultsCache else some tasks
  | _, _ => w.taskResultsCache

def saveSnapshot (s : WorkflowSnapshot) (w : World) : Except BackendError Unit × World :=
  (.ok (), log (.saved s) { w with snapshot := some s, taskResultsCache := w.cacheOnSave s })

def saveTaskResult (taskId : TaskId) (output : Bytes) (w : World) :
    Except BackendError Unit × World :=
  match w.snapshot with
  | none => (.error (.notFound w.instanceId), w)
  | some s => (.ok (), log (.savedResult taskId output)
      { w with snapshot := some (s.markTaskCompleted taskId output) })

def loadSnapshot (w : World) : Except BackendError WorkflowSnapshot × World :=
  match w.snapshot with
  | none => (.error (.notFound w.instanceId), w)
  | some s => (.ok s, w)

@[simp] theorem loadSnapshot_snd (w : World) : w.loadSnapshot.2 = w := by
  unfold loadSnapshot
  cases w.snapshot <;> rfl

/-! ## SignalStore -/

/-- `store_signal(Cancel)`. -/
def storeCancel (request : SignalRequest) (w : World) : Except BackendError Unit × World :=
  match w.snapshot with
  | none => (.error (.notFound w.instanceId), w)
  | some s => match s.state with
      | .completed _ => (.error (.cannotCancel "Completed"), w)
      | .failed _ => (.error (.cannotCancel "Failed"), w)
      | .cancelled .. => (.ok (), w)
      | _ => (.ok (), { w with cancelSignal := some request })

/-- `store_signal(Pause)`. -/
def storePause (request : SignalRequest) (w : World) : Except BackendError Unit × World :=
  match w.snapshot with
  | none => (.error (.notFound w.instanceId), w)
  | some s => match s.state with
      | .completed _ => (.error (.cannotPause "Completed"), w)
      | .failed _ => (.error (.cannotPause "Failed"), w)
      | .cancelled .. => (.error (.cannotPause "Cancelled"), w)
      | .paused .. => (.ok (), w)
      | _ => (.ok (), { w with pauseSignal := some request })

def sendEvent (signalName : String) (payload : Bytes) (w : World) : World :=
  { w with events := Function.update w.events signalName (w.events signalName ++ [payload]) }

/-- Take the oldest buffered event of that name. -/
def consumeEvent (signalName : String) (w : World) :
    Except BackendError (Option Bytes) × World :=
  match w.events signalName with
  | [] => (.ok none, w)
  | payload :: rest =>
    (.ok (some payload), { w with events := Function.update w.events signalName rest })

def checkAndCancel (interruptedAtTask : Option TaskId) (w : World) :
    Except BackendError Bool × World :=
  match w.cancelSignal with
  | none => (.ok false, w)
  | some request => match w.snapshot with
      | none => (.error (.notFound w.instanceId), w)
      | some s =>
        if s.isInProgress then
          (.ok true, { w with
            snapshot := some (s.markCancelled request interruptedAtTask)
            cancelSignal := none })
        else (.ok false, w)

def checkAndPause (w : World) : Except BackendError Bool × World :=
  match w.pauseSignal with
  | none => (.ok false, w)
  | some request => match w.snapshot with
      | none => (.error (.notFound w.instanceId), w)
      | some s =>
        if s.isInProgress then
          (.ok true, { w with snapshot := some (s.markPaused request), pauseSignal := none })
        else (.ok false, w)

/-- How `unpause` names a state it refuses. -/
def stateName (s : WorkflowSnapshot) : String :=
  match s.state with
  | .inProgress .. => "InProgress"
  | .completed _ => "Completed"
  | .failed _ => "Failed"
  | .cancelled .. => "Cancelled"
  | .paused .. => "Unknown"

def unpause (w : World) : Except BackendError WorkflowSnapshot × World :=
  match w.snapshot with
  | none => (.error (.notFound w.instanceId), w)
  | some s => match s.state with
      | .paused .. => (.ok s.markUnpaused, { w with snapshot := some s.markUnpaused })
      | _ => (.error (.cannotPause
          ("Workflow is not paused (current state: \"" ++ stateName s ++ "\")")), w)

/-! ## What the methods can do -/

theorem saveTaskResult_cases (taskId : TaskId) (output : Bytes) (w : World) :
    (w.snapshot = none ∧ (w.saveTaskResult taskId output).2 = w)
      ∨ ∃ s, w.snapshot = some s ∧ (w.saveTaskResult taskId output).2
          = log (.savedResult taskId output)
              { w with snapshot := some (s.markTaskCompleted taskId output) } := by
  unfold saveTaskResult
  cases hs : w.snapshot with
  | none => exact Or.inl ⟨rfl, rfl⟩
  | some s => exact Or.inr ⟨s, rfl, rfl⟩

theorem consumeEvent_cases (signalName : String) (w : World) :
    (w.events signalName = [] ∧ w.consumeEvent signalName = (.ok none, w))
      ∨ ∃ payload rest, w.events signalName = payload :: rest
          ∧ w.consumeEvent signalName = (.ok (some payload),
              { w with events := Function.update w.events signalName rest }) := by
  unfold consumeEvent
  cases he : w.events signalName with
  | nil => exact Or.inl ⟨rfl, rfl⟩
  | cons payload rest => exact Or.inr ⟨payload, rest, rfl, rfl⟩

theorem checkAndCancel_cases (interruptedAtTask : Option TaskId) (w : World) :
    (w.checkAndCancel interruptedAtTask).2 = w
      ∨ ∃ s request, w.snapshot = some s ∧ s.isInProgress ∧ w.cancelSignal = some request
          ∧ w.checkAndCancel interruptedAtTask = (.ok true, { w with
              snapshot := some (s.markCancelled request interruptedAtTask)
              cancelSignal := none }) := by
  unfold checkAndCancel
  split
  · exact Or.inl rfl
  · rename_i request hr
    split
    · exact Or.inl rfl
    · rename_i s hs
      split
      · rename_i hp
        exact Or.inr ⟨s, request, hs, hp, hr, rfl⟩
      · exact Or.inl rfl

theorem checkAndPause_cases (w : World) :
    w.checkAndPause.2 = w
      ∨ ∃ s request, w.snapshot = some s ∧ s.isInProgress ∧ w.pauseSignal = some request
          ∧ w.checkAndPause = (.ok true, { w with
              snapshot := some (s.markPaused request), pauseSignal := none }) := by
  unfold checkAndPause
  split
  · exact Or.inl rfl
  · rename_i request hr
    split
    · exact Or.inl rfl
    · rename_i s hs
      split
      · rename_i hp
        exact Or.inr ⟨s, request, hs, hp, hr, rfl⟩
      · exact Or.inl rfl

theorem storeCancel_cases (request : SignalRequest) (w : World) :
    (w.storeCancel request).2 = w
      ∨ (w.storeCancel request).2 = { w with cancelSignal := some request } := by
  unfold storeCancel
  split
  · exact Or.inl rfl
  · split <;> first | exact Or.inl rfl | exact Or.inr rfl

theorem storePause_cases (request : SignalRequest) (w : World) :
    (w.storePause request).2 = w
      ∨ (w.storePause request).2 = { w with pauseSignal := some request } := by
  unfold storePause
  split
  · exact Or.inl rfl
  · split <;> first | exact Or.inl rfl | exact Or.inr rfl

theorem unpause_cases (w : World) :
    w.unpause.2 = w
      ∨ ∃ s, w.snapshot = some s ∧ w.unpause.2 = { w with snapshot := some s.markUnpaused } := by
  unfold unpause
  split
  · exact Or.inl rfl
  · rename_i s hs
    split
    · exact Or.inr ⟨s, hs, rfl⟩
    · exact Or.inl rfl

/-! ## The advance phase of `find_available_tasks` -/

/-- Leave a signal wait that a poll resolves. The payload is recorded under the
hash of the signal's name. -/
def leaveSignal [Sha256] (signalName : String) (payload : Bytes) (next : Option TaskId)
    (s : WorkflowSnapshot) : WorkflowSnapshot :=
  let s := s.markTaskCompleted (TaskId.sha256 signalName) payload
  match next with
  | some taskId => s.updatePosition (.atTask taskId)
  | none => s.markCompleted payload

end World

end Sayiir
