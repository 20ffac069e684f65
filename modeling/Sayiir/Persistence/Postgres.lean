import Sayiir.Persistence.Backend

/-!
# The Postgres backend as a machine

The methods of `sayiir-postgres/src` with whatever arguments a caller may pass.
One call is one statement or one transaction; a method that takes several is
split, so that the calls of different callers interleave between them:
`find_available_tasks` is the dispatch query, a read of the outputs and a save for
every delay that is over, and `send_event` probes the status first and then either
inserts the event or runs the transaction that may resume the instance.

The time of the database is the clock of the world. The expiry of a new claim is
computed by the caller on its own clock and is an argument.
-/

namespace Sayiir

open Backend

namespace Postgres

/-- `load_snapshot`: the blob with the outputs of the table put back. -/
def loadSnapshot (w : PoolWorld) : Option WorkflowSnapshot :=
  w.snapshot.map (·.hydrateTaskOutputs w.outputs)

/-- `claim_task`. Without the advisory lock the slot counts as taken. The caller is
told the expiry in whole seconds. -/
def claimTask (taskId : TaskId) (workerId : String) (expiresAt : Option Time) (locked : Bool)
    (w : PoolWorld) : Except BackendError (Option TaskClaim) × PoolWorld :=
  if locked && postgres.claimable taskId w then
    (.ok (some ⟨taskId, workerId, expiresAt.map (· / 1000000000)⟩),
      { w with claims := [⟨taskId, workerId, expiresAt⟩] })
  else match w.snapshot with
    | none => (.error (.claimNotFound w.instanceId taskId), w)
    | some _ => (.ok none, w)

/-- `save_task_result`: record a result in the stored snapshot. The output goes to
the table even if the snapshot records nothing any more. -/
def saveTaskResult (taskId : TaskId) (output : Bytes) (w : PoolWorld) :
    Except BackendError Unit × PoolWorld :=
  match loadSnapshot w with
  | none => (.error (.notFound w.instanceId), w)
  | some s => (.ok (), { w with
      snapshot := some (postgres.stored (s.markTaskCompleted taskId output))
      outputs := Function.update w.outputs taskId (some output) })

/-- `store_signal`. -/
def storeSignal (kind : SignalKind) (request : SignalRequest) (w : PoolWorld) :
    Except BackendError Unit × PoolWorld :=
  match postgres.validateSignal kind w with
  | .error e => (.error e, w)
  | .ok _ => (.ok (), insertSignal kind request w)

/-- `clear_signal`. -/
def clearSignal (kind : SignalKind) (w : PoolWorld) : PoolWorld :=
  match kind with
  | .cancel => { w with cancelSignal := none }
  | .pause => { w with pauseSignal := none }

/-- `check_and_cancel` and `check_and_pause`: apply a pending request to an instance
in progress and remove it. -/
def checkAnd (kind : SignalKind) (request : Option SignalRequest)
    (mark : SignalRequest → WorkflowSnapshot → WorkflowSnapshot) (w : PoolWorld) :
    Bool × PoolWorld :=
  match request with
  | none => (false, w)
  | some request =>
    let r := markIfInProgress (mark request) w
    if r.1 then (true, clearSignal kind r.2) else (false, w)

def checkAndCancel (interruptedAtTask : Option TaskId) (w : PoolWorld) : Bool × PoolWorld :=
  checkAnd .cancel w.cancelSignal (fun request s => s.markCancelled request interruptedAtTask) w

def checkAndPause (w : PoolWorld) : Bool × PoolWorld :=
  checkAnd .pause w.pauseSignal (fun request s => s.markPaused request) w

/-- `delete_snapshot`, with everything that belongs to the instance. -/
def deleteSnapshot (w : PoolWorld) : Except BackendError Unit × PoolWorld :=
  match w.snapshot with
  | none => (.error (.notFound w.instanceId), w)
  | some _ => (.ok (), { w with
      snapshot := none, cancelSignal := none, pauseSignal := none
      events := fun _ => [], claims := [], outputs := fun _ => none })

/-! ## Calls -/

/-- A statement or transaction, or the passage of time. -/
inductive Call where
  | tick (by_ : Duration)
  | claimTask (taskId : TaskId) (workerId : String) (expiresAt : Option Time) (locked : Bool)
  | extendTaskClaim (taskId : TaskId) (workerId : String) (ttl : Duration)
  | releaseTaskClaim (taskId : TaskId) (workerId : String)
  /-- `save_snapshot`, also of a poll that wakes an instance. -/
  | saveSnapshot (s : WorkflowSnapshot)
  | saveSnapshotFenced (s : WorkflowSnapshot) (taskId : TaskId) (workerId : String)
  | saveTaskResult (taskId : TaskId) (output : Bytes)
  | storeSignal (kind : SignalKind) (request : SignalRequest)
  | clearSignal (kind : SignalKind)
  /-- `send_event` after a probe that found the instance not in progress. -/
  | insertEvent (signalName : String) (payload : Bytes)
  /-- `send_event` after a probe that found the instance in progress. -/
  | resumeEvent (signalName : String) (payload : Bytes)
  | consumeEvent (signalName : String)
  | checkAndCancel (interruptedAtTask : Option TaskId)
  | checkAndPause
  | unpause
  /-- The dispatch query of `find_available_tasks`. -/
  | selectRow (workerTags : List String)
  | findHintedTask (hint : TaskId)
  | loadSnapshot
  | deleteSnapshot
  deriving DecidableEq

/-- What a call answers. -/
inductive Answer where
  | done
  | result (r : Except BackendError Unit)
  | claim (r : Except BackendError (Option TaskClaim))
  | flag (b : Bool)
  | event (payload : Option Bytes)
  | snapshot (s : Option WorkflowSnapshot)
  | task (t : Option AvailableTask)

/-- Perform a call. -/
def run : Call → PoolWorld → Answer × PoolWorld
  | .tick d, w => (.done, { w with clock := w.clock + d })
  | .claimTask taskId workerId expiresAt locked, w =>
    let r := claimTask taskId workerId expiresAt locked w
    (.claim r.1, r.2)
  | .extendTaskClaim taskId workerId ttl, w =>
    let r := postgres.extendTaskClaim taskId workerId ttl w
    (.result r.1, r.2)
  | .releaseTaskClaim taskId workerId, w =>
    let r := postgres.releaseTaskClaim taskId workerId w
    (.result r.1, r.2)
  | .saveSnapshot s, w => (.done, postgres.saveSnapshot s w)
  | .saveSnapshotFenced s taskId workerId, w =>
    let r := postgres.saveSnapshotFenced s taskId workerId w
    (.flag r.1, r.2)
  | .saveTaskResult taskId output, w =>
    let r := saveTaskResult taskId output w
    (.result r.1, r.2)
  | .storeSignal kind request, w =>
    let r := storeSignal kind request w
    (.result r.1, r.2)
  | .clearSignal kind, w => (.done, clearSignal kind w)
  | .insertEvent signalName payload, w =>
    (.done, { w with toWorld := w.toWorld.sendEvent signalName payload })
  | .resumeEvent signalName payload, w => (.done, postgres.sendEvent signalName payload w)
  | .consumeEvent signalName, w =>
    let r := Backend.consumeEvent signalName w
    (.event r.1, r.2)
  | .checkAndCancel interruptedAtTask, w =>
    let r := checkAndCancel interruptedAtTask w
    (.flag r.1, r.2)
  | .checkAndPause, w =>
    let r := checkAndPause w
    (.flag r.1, r.2)
  | .unpause, w => (.done, Backend.unpause w)
  | .selectRow workerTags, w => (.snapshot (Backend.selectRow workerTags w), w)
  | .findHintedTask hint, w => (.task (postgres.findHintedTask hint w), w)
  | .loadSnapshot, w => (.snapshot (loadSnapshot w), w)
  | .deleteSnapshot, w =>
    let r := deleteSnapshot w
    (.result r.1, r.2)

/-- The world after a list of calls. -/
def runAll (calls : List Call) (w : PoolWorld) : PoolWorld :=
  calls.foldl (fun w c => (run c w).2) w

/-! ## What a call can do -/

variable {w : PoolWorld}

theorem checkAnd_cases (kind : SignalKind) (request : Option SignalRequest)
    (mark : SignalRequest → WorkflowSnapshot → WorkflowSnapshot) :
    checkAnd kind request mark w = (false, w)
      ∨ ∃ s r, w.snapshot = some s ∧ s.isInProgress
        ∧ checkAnd kind request mark w = (true, clearSignal kind { w with snapshot := some (mark r s) }) := by
  unfold checkAnd
  split
  · exact .inl rfl
  · rename_i r
    rcases markIfInProgress_cases (mark r) w with h | ⟨s, hs, hp, h⟩
    · exact .inl (by simp [h])
    · exact .inr ⟨s, r, hs, hp, by simp [h]⟩

end Postgres

end Sayiir
