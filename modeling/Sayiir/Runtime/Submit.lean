import Sayiir.Persistence.Postgres
import Sayiir.Runtime.Pool

/-!
# Submitting an instance

`WorkflowClient::submit` and the first half of `CheckpointingRunner::run`, after
`sayiir-runtime/src/client.rs` and `execution/lifecycle.rs`: look whether the instance
exists, resolve a conflict by the policy of the caller, and store the first snapshot.
`sayiir_persistence::prepare_run` makes the same backend calls for the policies `Fail`
and `UseExisting`.

Existence check and creation are separate backend calls. An `Intake` is a pool
together with all submissions for its instance; the calls of any number of submitters
interleave with each other and with the work on an instance that exists already.
-/

namespace Sayiir

open Backend

/-- `InvalidInstanceId`. -/
inductive InvalidInstanceId where
  | empty
  | tooLong (len max : Nat)
  deriving DecidableEq, Repr

/-- `MAX_INSTANCE_ID_LEN`. -/
def maxInstanceIdLen : Nat := 256

def validateInstanceId (instanceId : String) : Except InvalidInstanceId Unit :=
  if instanceId.isEmpty then .error .empty
  else if maxInstanceIdLen < instanceId.utf8ByteSize then
    .error (.tooLong instanceId.utf8ByteSize maxInstanceIdLen)
  else .ok ()

/-- `ConflictPolicy`. -/
inductive ConflictPolicy where
  | fail
  | useExisting
  | terminateExisting
  deriving DecidableEq, Repr

/-- The errors of a submission. -/
inductive SubmitError where
  | invalidInstanceId (e : InvalidInstanceId)
  | instanceAlreadyExists (instanceId : String)
  | definitionMismatch (expected found : DefinitionHash)
  | backend (e : BackendError)
  deriving DecidableEq, Repr

namespace WorkflowSnapshot

/-- `as_status`. -/
def asStatus (s : WorkflowSnapshot) : WorkflowStatus :=
  s.asTerminalStatus.getD <| match s.state with
    | .inProgress (.atDelay delayId _ wakeAt _) _ _ => .waiting wakeAt delayId
    | .inProgress (.atFork forkId _ wakeAt) _ _ => .waiting wakeAt forkId
    | .inProgress (.atSignal signalId signalName wakeAt _) _ _ =>
      .awaitingSignal signalId signalName wakeAt
    | _ => .inProgress

/-- `completed_output`. -/
def completedOutput (s : WorkflowSnapshot) : Option Bytes :=
  match s.state with
  | .completed finalOutput => some finalOutput
  | _ => none

end WorkflowSnapshot

/-- `delete_snapshot`. In memory only the snapshot and the cached results go. -/
def Backend.deleteSnapshot (b : Backend) (w : PoolWorld) : PoolWorld :=
  match b with
  | inMemory => match w.snapshot with
      | none => w
      | some _ => { w with snapshot := none, taskResultsCache := none }
  | postgres => (Postgres.deleteSnapshot w).2

/-- What a submission returns: a status and the output of a completed instance. -/
abbrev SubmitResult := Except SubmitError (WorkflowStatus × Option Bytes)

/-- The next backend call of a submission. -/
inductive SubmitPhase where
  /-- `check_existing_instance`: load the snapshot. -/
  | checking
  /-- `prepare_run` that is to terminate an existing instance: load the snapshot. -/
  | terminating
  | deleting
  | clearing (kind : SignalKind)
  /-- `prepare_run`: save the first snapshot. -/
  | creating
  /-- The call has returned; `created` tells a fresh instance from an existing one. -/
  | returned (result : SubmitResult) (created : Bool)
  /-- The submitter was killed. -/
  | killed
  deriving DecidableEq

/-- A call of `submit` or `run`. -/
structure SubmitCall where
  policy : ConflictPolicy
  definitionHash : DefinitionHash
  input : Bytes
  firstTask : TaskHint
  phase : SubmitPhase

namespace SubmitCall

variable (call : SubmitCall)

/-- What is reported about an instance that exists, if it is to be left alone. -/
def report (instanceId : String) (existing : WorkflowSnapshot) : SubmitResult :=
  if existing.definitionHash ≠ call.definitionHash then
    .error (.definitionMismatch call.definitionHash existing.definitionHash)
  else match call.policy with
    | .fail => .error (.instanceAlreadyExists instanceId)
    | .useExisting | .terminateExisting => .ok (existing.asStatus, existing.completedOutput)

/-- The first phase of a call. -/
def enter (instanceId : String) (policy : ConflictPolicy) (definitionHash : DefinitionHash)
    (input : Bytes) (firstTask : TaskHint) : SubmitCall :=
  ⟨policy, definitionHash, input, firstTask, match validateInstanceId instanceId with
    | .error e => .returned (.error (.invalidInstanceId e)) false
    | .ok _ => if policy = .terminateExisting then .terminating else .checking⟩

/-- A backend call of a submission. -/
def advance (b : Backend) (w : PoolWorld) : SubmitPhase × PoolWorld :=
  match call.phase with
  | .checking => match w.snapshot with
      | some existing => (.returned (call.report w.instanceId (b.view w existing)) false, w)
      | none => (.creating, w)
  | .terminating => (if w.snapshot.isSome then .deleting else .creating, w)
  | .deleting =>
    (if w.snapshot.isSome then .clearing .cancel
      else .returned (.error (.backend (.notFound w.instanceId))) false, b.deleteSnapshot w)
  | .clearing .cancel => (.clearing .pause, Postgres.clearSignal .cancel w)
  | .clearing .pause => (.creating, Postgres.clearSignal .pause w)
  | .creating => (.returned (.ok (.inProgress, none)) true,
      b.saveSnapshot (initialSnapshot w.instanceId call.definitionHash call.input call.firstTask) w)
  | .returned result created => (.returned result created, w)
  | .killed => (.killed, w)

end SubmitCall

/-! ## The machine -/

/-- A pool and the submissions for its instance. -/
structure Intake where
  pool : Pool
  calls : List SubmitCall

inductive IntakeAction where
  /-- A submission is called. -/
  | submit (policy : ConflictPolicy) (definitionHash : DefinitionHash) (input : Bytes)
      (firstTask : TaskHint)
  /-- A submission makes its next backend call. -/
  | advance (call : Nat)
  | kill (call : Nat)
  /-- Workers, clients and the clock, once the instance exists. -/
  | work (a : Action)
  /-- An in-process executor that runs the existing instance stores a snapshot. -/
  | store (s : WorkflowSnapshot)

namespace Intake

/-- Nothing has been submitted yet, or an instance is stored from before. -/
def start (w : PoolWorld) : Intake := ⟨⟨w, [], []⟩, []⟩

variable [Sha256] (job : Submission)

def step : IntakeAction → Intake → Intake
  | .submit policy definitionHash input firstTask, σ =>
    { σ with calls := σ.calls ++
      [SubmitCall.enter σ.pool.world.instanceId policy definitionHash input firstTask] }
  | .advance i, σ => match σ.calls[i]? with
      | none => σ
      | some call =>
        let r := call.advance job.backend σ.pool.world
        ⟨{ σ.pool with world := r.2 }, σ.calls.set i { call with phase := r.1 }⟩
  | .kill i, σ => match σ.calls[i]? with
      | none => σ
      | some call => { σ with calls := σ.calls.set i { call with phase := .killed } }
  | .work a, σ =>
    if σ.pool.world.snapshot.isSome then { σ with pool := job.step a σ.pool } else σ
  | .store s, σ =>
    if σ.pool.world.snapshot.isSome then
      { σ with pool := { σ.pool with world := job.backend.saveSnapshot s σ.pool.world } }
    else σ

end Intake

end Sayiir
