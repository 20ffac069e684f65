import Sayiir.Persistence.D1
import Sayiir.Persistence.Postgres

/-!
# The tables of the Postgres backend

`sayiir-postgres/src` keeps the encoded snapshots of an instance in an append-only
history. The row of the instance points to the current version and repeats some
values of its snapshot in columns of their own, for the queries. Every path that
changes a snapshot sets its own choice of these columns.

A path is one statement, or one transaction that holds the lock of the row, so that
different callers interleave between paths only. The exception is `delete_snapshot`:
its one statement deletes the rows that were there when it began, and it may then
wait for the lock of the row while another path commits.

What the other tables hold is an argument: the outputs read with a blob and the
request that a guard has found. A blob is the snapshot that is decoded from it.
-/

namespace Sayiir

open Backend

namespace Postgres

/-! ## The tables -/

/-- The columns that repeat values of the snapshot. A `TIMESTAMPTZ` is in microseconds. -/
structure Columns where
  status : String
  currentTaskId : Option TaskId
  completedTaskCount : Int
  positionKind : Option String
  delayWakeAt : Option Nat
  deriving DecidableEq

/-- The values of a snapshot. -/
def Columns.of (s : WorkflowSnapshot) : Columns where
  status := s.state.asRef
  currentTaskId := s.currentTaskId
  completedTaskCount := s.completedTaskCount
  positionKind := s.positionKind
  delayWakeAt := s.delayWakeAt.map (· / 1000)

/-- The row of the instance in `sayiir_workflow_snapshots`. -/
structure SnapshotRow where
  columns : Columns
  historyVersion : Int
  /-- The insertion that the row goes back to. -/
  tuple : Nat
  deriving DecidableEq

/-- A row of `sayiir_workflow_snapshot_history`. -/
structure HistoryRow where
  id : Nat
  version : Int
  status : String
  currentTaskId : Option TaskId
  data : WorkflowSnapshot
  deriving DecidableEq

/-- A `delete_snapshot` that has begun, and the rows it has found. -/
structure Deletion where
  tuple : Option Nat
  ids : List Nat
  deriving DecidableEq

/-- What the tables hold of one instance. -/
structure Tables where
  row : Option SnapshotRow
  /-- In the order of insertion. -/
  history : List HistoryRow
  deletions : List Deletion
  nextId : Nat
  deriving DecidableEq

/-- The tables before an instance is first saved. -/
def Tables.empty : Tables := ⟨none, [], [], 0⟩

/-- Why a statement or transaction is rolled back. -/
inductive Fault where
  | notFound
  | notPaused
  | outOfRange
  | uniqueViolation
  deriving DecidableEq, Repr

/-! ## Versions -/

/-- The largest `INT`. -/
def intMax : Int := 2 ^ 31 - 1

/-- An `i32` without overflow checks. -/
def wrapI32 (n : Int) : Int := (n + 2 ^ 31) % 2 ^ 32 - 2 ^ 31

/-- `append_history`. Versions of an instance are unique. -/
def appendHistory (version : Int) (status : String) (currentTaskId : Option TaskId)
    (data : WorkflowSnapshot) (t : Tables) : Except Fault Tables :=
  if t.history.any (·.version = version) then .error .uniqueViolation
  else .ok { t with
    history := t.history ++ [⟨t.nextId, version, status, currentTaskId, data⟩]
    nextId := t.nextId + 1 }

/-- `lock_snapshot_for_mutation`: the snapshot at the version of the row. -/
def lockSnapshotForMutation (outputs : TaskId → Option Bytes) (t : Tables) :
    Option (WorkflowSnapshot × Int) :=
  t.row.bind fun r => (t.history.find? (·.version = r.historyVersion)).map fun h =>
    (h.data.hydrateTaskOutputs outputs, r.historyVersion)

/-! ## The paths -/

/-- `status NOT IN ('Completed', 'Failed', 'Cancelled')`. -/
def isOpenStatus (status : String) : Bool :=
  !(["Completed", "Failed", "Cancelled"].contains status)

/-- `exec_save_snapshot`. The database adds to the version, and refuses to overflow. -/
def execSaveSnapshot (s : WorkflowSnapshot) (t : Tables) : Except Fault Tables :=
  let append (version : Int) (row : SnapshotRow) : Except Fault Tables :=
    appendHistory version s.state.asRef s.currentTaskId (postgres.stored s)
      { t with row := some row }
  match t.row with
  | none => append 1 ⟨.of s, 1, t.nextId⟩
  | some r =>
    if !isOpenStatus r.columns.status then .ok t
    else if r.historyVersion = intMax then .error .outOfRange
    else append (r.historyVersion + 1)
      { r with columns := .of s, historyVersion := r.historyVersion + 1 }

/-- Store a snapshot that was changed under the lock of the row as the next version. The
paths differ in the columns they `set` and in the task they note in the history. -/
def storeVersion (set : Columns → Columns → Columns) (currentTaskId : Option TaskId)
    (s : WorkflowSnapshot) (version : Int) (t : Tables) : Except Fault Tables :=
  let next := wrapI32 (version + 1)
  appendHistory next s.state.asRef currentTaskId (postgres.stored s)
    { t with row := t.row.map fun r =>
        { r with columns := set (.of s) r.columns, historyVersion := next } }

/-- `check_and_pause`, `unpause` and `send_event` set all the columns. -/
def setAll (new _old : Columns) : Columns := new

/-- `save_task_result` leaves the position alone. -/
def setResult (new old : Columns) : Columns :=
  { old with
    status := new.status
    currentTaskId := new.currentTaskId
    completedTaskCount := new.completedTaskCount }

/-- `check_and_cancel` leaves the task and the count alone. -/
def setCancelled (new old : Columns) : Columns :=
  { old with
    status := new.status
    positionKind := new.positionKind
    delayWakeAt := new.delayWakeAt }

/-- `save_task_result_once`. -/
def saveTaskResultOnce (outputs : TaskId → Option Bytes) (taskId : TaskId) (output : Bytes)
    (t : Tables) : Except Fault Tables :=
  match lockSnapshotForMutation outputs t with
  | none => .error .notFound
  | some (s, version) =>
    let s := s.markTaskCompleted taskId output
    storeVersion setResult s.currentTaskId s version t

/-- `signal_resume_target`. -/
def signalResumeTarget (s : WorkflowSnapshot) (signalName : String) :
    Option (TaskId × Option TaskId) :=
  match s.state with
  | .inProgress (.atSignal signalId awaited _ next) _ _ =>
    if awaited = signalName then some (signalId, next) else none
  | _ => none

/-- The transaction of `send_event`. An event that nobody waits for is buffered, which
changes nothing here. -/
def resumeEvent (outputs : TaskId → Option Bytes) (signalName : String) (payload : Bytes)
    (t : Tables) : Except Fault Tables :=
  match lockSnapshotForMutation outputs t with
  | none => .ok t
  | some (s, version) => match signalResumeTarget s signalName with
      | none => .ok t
      | some (signalId, next) =>
        let s := received signalId payload next s
        storeVersion setAll s.currentTaskId s version t

/-- The transaction of `check_and_cancel`, for a request that is pending. -/
def applyCancel (outputs : TaskId → Option Bytes) (request : SignalRequest)
    (interruptedAtTask : Option TaskId) (t : Tables) : Except Fault Tables :=
  match lockSnapshotForMutation outputs t with
  | none => .ok t
  | some (s, version) =>
    if s.isInProgress then
      storeVersion setCancelled interruptedAtTask (s.markCancelled request interruptedAtTask)
        version t
    else .ok t

/-- The transaction of `check_and_pause`, for a request that is pending. -/
def applyPause (outputs : TaskId → Option Bytes) (request : SignalRequest) (t : Tables) :
    Except Fault Tables :=
  match lockSnapshotForMutation outputs t with
  | none => .ok t
  | some (s, version) =>
    if s.isInProgress then
      let s := s.markPaused request
      storeVersion setAll s.currentTaskId s version t
    else .ok t

/-- `unpause`. -/
def unpauseRow (outputs : TaskId → Option Bytes) (t : Tables) : Except Fault Tables :=
  match lockSnapshotForMutation outputs t with
  | none => .error .notFound
  | some (s, version) =>
    if s.isPaused then
      let s := s.markUnpaused
      storeVersion setAll s.currentTaskId s version t
    else .error .notPaused

/-- `delete_snapshot` begins: it will delete the rows that are there now. -/
def beginDelete (t : Tables) : Tables :=
  { t with deletions := t.deletions
      ++ [⟨t.row.map SnapshotRow.tuple, t.history.map HistoryRow.id⟩] }

/-- `delete_snapshot` has got the lock and ends. -/
def finishDelete (i : Nat) (t : Tables) : Tables :=
  match t.deletions[i]? with
  | none => t
  | some d =>
    { t with
      row := t.row.filter fun r => d.tuple ≠ some r.tuple
      history := t.history.filter fun h => !d.ids.contains h.id
      deletions := t.deletions.eraseIdx i }

/-! ## Runs -/

/-- A write to the tables. -/
inductive Write where
  /-- `save_snapshot`, and a fenced one that has found its claim. -/
  | saveSnapshot (s : WorkflowSnapshot)
  | saveTaskResult (outputs : TaskId → Option Bytes) (taskId : TaskId) (output : Bytes)
  | sendEvent (outputs : TaskId → Option Bytes) (signalName : String) (payload : Bytes)
  | checkAndCancel (outputs : TaskId → Option Bytes) (request : SignalRequest)
      (interruptedAtTask : Option TaskId)
  | checkAndPause (outputs : TaskId → Option Bytes) (request : SignalRequest)
  | unpause (outputs : TaskId → Option Bytes)
  | beginDelete
  | finishDelete (i : Nat)

/-- Perform a write. -/
def Write.perform : Write → Tables → Except Fault Tables
  | .saveSnapshot s, t => execSaveSnapshot s t
  | .saveTaskResult outputs taskId output, t => saveTaskResultOnce outputs taskId output t
  | .sendEvent outputs signalName payload, t => resumeEvent outputs signalName payload t
  | .checkAndCancel outputs request interruptedAtTask, t =>
    applyCancel outputs request interruptedAtTask t
  | .checkAndPause outputs request, t => applyPause outputs request t
  | .unpause outputs, t => unpauseRow outputs t
  | .beginDelete, t => .ok (Postgres.beginDelete t)
  | .finishDelete i, t => .ok (Postgres.finishDelete i t)

/-- The tables after a write. One that fails is rolled back. -/
def Write.step (w : Write) (t : Tables) : Tables :=
  match w.perform t with
  | .ok t' => t'
  | .error _ => t

/-- The tables after a list of writes. -/
def writeAll (writes : List Write) (t : Tables) : Tables :=
  writes.foldl (fun t w => w.step t) t

end Postgres

end Sayiir
