import Sayiir.Persistence.InMemory

/-!
# The backends of the worker pool

What pooled workers and clients ask of a backend, for the in-memory one
(`sayiir-persistence/src/in_memory.rs`) and for Postgres (`sayiir-postgres/src`).
Again this is the slice of one instance.

The two differ where it matters to a pool. The in-memory backend keeps one claim
per task, stores every snapshot it is given and looks at nothing but the claims
when it grants one. Postgres keeps one claim row per instance, refuses to
overwrite a terminal snapshot, fences the saves of a worker by its claim, and
keeps the outputs of completed tasks in a table of their own: the stored blob
records which tasks are completed, and a reader puts the outputs back.

Each function is atomic: one lock section of the in-memory backend or one
statement or transaction of Postgres. Methods that take several are split.
-/

namespace Sayiir

open WorkflowSnapshot

/-- `TaskClaim`. The expiry is in whole seconds in memory and exact in Postgres. -/
structure TaskClaim where
  taskId : TaskId
  workerId : String
  expiresAt : Option Nat
  deriving DecidableEq, Repr

/-- `AvailableTask`: a task offered by a poll, with the snapshot it was found in. -/
structure AvailableTask where
  taskId : TaskId
  input : Bytes
  workflowDefinitionHash : DefinitionHash
  snapshot : WorkflowSnapshot
  deriving DecidableEq

/-- What the workers of a pool share. `outputs` is the Postgres table of task
outputs; the in-memory backend does not use it. -/
structure PoolWorld extends World where
  claims : List TaskClaim
  outputs : TaskId → Option Bytes

/-- `SignalKind`. -/
inductive SignalKind where
  | cancel
  | pause
  deriving DecidableEq, Repr

/-- `ControlSignal`: a request that has been applied. -/
inductive ControlSignal where
  | cancelled
  | paused
  deriving DecidableEq, Repr

inductive Backend where
  | inMemory
  | postgres
  deriving DecidableEq, Repr

namespace PoolWorld

/-- Append to the trace. -/
def log (e : Event) (w : PoolWorld) : PoolWorld := { w with toWorld := w.toWorld.log e }

/-- A cancel or pause request is pending. -/
def hasSignal (w : PoolWorld) : Bool := w.cancelSignal.isSome || w.pauseSignal.isSome

/-- Offer a task of a snapshot: its input is the initial input if nothing has
completed yet and the output completed last otherwise. -/
def buildAvailableTask (s : WorkflowSnapshot) (taskId : TaskId) : Option AvailableTask :=
  match s.state with
  | .inProgress _ completed _ =>
    (if completed.entries.isEmpty then s.initialInput else s.getLastTaskOutput).map
      fun input => ⟨taskId, input, s.definitionHash, s⟩
  | _ => none

/-- A worker without tags takes every task. -/
def tagsMatch (workerTags : List String) (s : WorkflowSnapshot) : Bool :=
  workerTags.isEmpty || s.taskTags.all workerTags.contains

end PoolWorld

namespace Backend

open PoolWorld

variable (b : Backend)

/-! ## Claims -/

/-- The expiry of a claim taken or renewed at `now`. -/
def expiry (now : Time) (ttl : Duration) : Nat :=
  match b with
  | inMemory => (now + ttl) / 1000000000
  | postgres => now + ttl

def isExpired (now : Time) (claim : TaskClaim) : Bool :=
  claim.expiresAt.any fun t => match b with
    | inMemory => decide (t ≤ now / 1000000000)
    | postgres => decide (t ≤ now)

/-- The claim that stands in the way of claiming `taskId`: of that task in
memory, of the instance in Postgres. -/
def findClaim (taskId : TaskId) (w : PoolWorld) : Option TaskClaim :=
  match b with
  | inMemory => w.claims.find? (·.taskId = taskId)
  | postgres => w.claims.head?

/-- Whether a claim on the task that has not expired would be granted. -/
def claimable (taskId : TaskId) (w : PoolWorld) : Bool :=
  !(b.findClaim taskId w).any (fun c => !b.isExpired w.clock c) && match b with
    | inMemory => true
    | postgres => w.snapshot.any fun s => decide (s.currentTaskId = some taskId)

/-- Take a claim. The answer tells whether it was granted. Postgres also checks
that the instance is in progress at that task. -/
def claimTask (taskId : TaskId) (workerId : String) (ttl : Option Duration) (w : PoolWorld) :
    Bool × PoolWorld :=
  if b.claimable taskId w then
    let claim : TaskClaim := ⟨taskId, workerId, ttl.map (b.expiry w.clock)⟩
    (true, { w with
      claims := claim :: match b with
        | inMemory => w.claims.filter (·.taskId ≠ taskId)
        | postgres => [] })
  else (false, w)

/-- The claim on the task, if this worker owns it. -/
def ownClaim (taskId : TaskId) (workerId : String) (w : PoolWorld) :
    Except BackendError TaskClaim :=
  match b.findClaim taskId w with
  | none => .error (.claimNotFound w.instanceId taskId)
  | some claim =>
    if claim.workerId ≠ workerId then .error (.claimLost claim.workerId)
    else if claim.taskId ≠ taskId then .error (.claimNotFound w.instanceId taskId)
    else .ok claim

def releaseTaskClaim (taskId : TaskId) (workerId : String) (w : PoolWorld) :
    Except BackendError Unit × PoolWorld :=
  match b.ownClaim taskId workerId w with
  | .error e => (.error e, w)
  | .ok _ => (.ok (), { w with claims := w.claims.filter (·.taskId ≠ taskId) })

/-- Renew a claim. A claim without expiry stays as it is. -/
def extendTaskClaim (taskId : TaskId) (workerId : String) (ttl : Duration) (w : PoolWorld) :
    Except BackendError Unit × PoolWorld :=
  match b.ownClaim taskId workerId w with
  | .error e => (.error e, w)
  | .ok _ => (.ok (), { w with
      claims := w.claims.map fun c =>
        if c.taskId = taskId then { c with expiresAt := c.expiresAt.map fun _ => b.expiry w.clock ttl }
        else c })

/-! ## Snapshots -/

/-- What a reader gets for the stored snapshot `s`. -/
def view (w : PoolWorld) (s : WorkflowSnapshot) : WorkflowSnapshot :=
  match b with
  | inMemory => s
  | postgres => s.hydrateTaskOutputs w.outputs

/-- The snapshot in the hands of a process after it has saved it. -/
def afterSave (s : WorkflowSnapshot) : WorkflowSnapshot :=
  match b with
  | inMemory => s
  | postgres => s.clearUnflushed

/-- Postgres ships the output completed last next to the snapshot, if it is new. -/
def shipOutput (s : WorkflowSnapshot) (w : PoolWorld) : PoolWorld :=
  match s.outputUnflushed, s.lastCompletedTaskId with
  | true, some taskId =>
    { w with outputs := Function.update w.outputs taskId (s.getTaskResultBytes taskId) }
  | _, _ => w

/-- Postgres stores the blob without outputs, unless a terminal one is stored. -/
def storeBlob (s : WorkflowSnapshot) (w : PoolWorld) : PoolWorld :=
  if w.snapshot.any isTerminal then w
  else PoolWorld.log (.saved s)
    { w with snapshot := some s.stripTaskOutputs.clearUnflushed }

def saveSnapshot (s : WorkflowSnapshot) (w : PoolWorld) : PoolWorld :=
  match b with
  | inMemory => { w with toWorld := (w.toWorld.saveSnapshot s).2 }
  | postgres => shipOutput s (storeBlob s w)

/-- This worker holds a claim on the task that has not expired. -/
def holdsLiveClaim (taskId : TaskId) (workerId : String) (w : PoolWorld) : Bool :=
  w.claims.any fun c => decide (c.taskId = taskId) && decide (c.workerId = workerId)
    && !b.isExpired w.clock c

/-- Save under the protection of a claim. Only Postgres looks at it. -/
def saveSnapshotFenced (s : WorkflowSnapshot) (taskId : TaskId) (workerId : String)
    (w : PoolWorld) : Bool × PoolWorld :=
  match b with
  | inMemory => (true, inMemory.saveSnapshot s w)
  | postgres =>
    if postgres.holdsLiveClaim taskId workerId w then (true, postgres.saveSnapshot s w)
    else (false, w)

/-! ## Requests and events -/

/-- `store_signal` up to the insertion: whether the request is to be inserted. A
request that changes nothing is accepted and dropped by the in-memory backend. -/
def validateSignal (kind : SignalKind) (w : PoolWorld) : Except BackendError Bool :=
  match w.snapshot with
  | none => .error (.notFound w.instanceId)
  | some s => match kind, s.state with
      | .cancel, .completed _ => .error (.cannotCancel "Completed")
      | .cancel, .failed _ => .error (.cannotCancel "Failed")
      | .cancel, .cancelled .. => .ok (b = postgres)
      | .cancel, _ => .ok true
      | .pause, .completed _ => .error (.cannotPause "Completed")
      | .pause, .failed _ => .error (.cannotPause "Failed")
      | .pause, .cancelled .. => .error (.cannotPause "Cancelled")
      | .pause, .paused .. => .ok (b = postgres)
      | .pause, _ => .ok true

def insertSignal (kind : SignalKind) (request : SignalRequest) (w : PoolWorld) : PoolWorld :=
  match kind with
  | .cancel => { w with cancelSignal := some request }
  | .pause => { w with pauseSignal := some request }

/-- Deliver an event. Postgres resumes an instance that is waiting for it. -/
def sendEvent (signalName : String) (payload : Bytes) (w : PoolWorld) : PoolWorld :=
  let buffered := { w with toWorld := w.toWorld.sendEvent signalName payload }
  match b, w.snapshot with
  | postgres, some s => match s.state with
      | .inProgress (.atSignal signalId awaited _ next) _ _ =>
        if awaited = signalName then
          let s := s.markTaskCompleted signalId payload
          let s := match next with
            | some taskId => s.updatePosition (.atTask taskId)
            | none => s.markCompleted payload
          { w with
            snapshot := some s.stripTaskOutputs.clearUnflushed
            outputs := Function.update w.outputs signalId (some payload)
            trace := w.trace ++ [.signalled signalId] }
        else buffered
      | _ => buffered
  | _, _ => buffered

def consumeEvent (signalName : String) (w : PoolWorld) : Option Bytes × PoolWorld :=
  match w.events signalName with
  | [] => (none, w)
  | payload :: rest =>
    (some payload, { w with events := Function.update w.events signalName rest })

def unpause (w : PoolWorld) : PoolWorld := { w with toWorld := w.toWorld.unpause.2 }

/-! ## Applying requests -/

/-- `check_and_cancel` and `check_and_pause`, as far as they have got. In memory
each takes three lock sections: read the request, mark the snapshot, remove the
request. In Postgres a probe precedes them and each is one transaction. -/
inductive GuardStep where
  | start
  | checkCancel
  | cancelRead (request : SignalRequest)
  | cancelMarked
  | checkPause
  | pauseRead (request : SignalRequest)
  | pauseMarked
  deriving DecidableEq

/-- What a step of the guards leads to. -/
inductive GuardResult where
  | next (step : GuardStep)
  | finished (signal : Option ControlSignal)
  deriving DecidableEq

/-- Change the stored snapshot if it is in progress; tells whether it was. -/
def markIfInProgress (mark : WorkflowSnapshot → WorkflowSnapshot) (w : PoolWorld) :
    Bool × PoolWorld :=
  match w.snapshot with
  | some s => if s.isInProgress then (true, { w with snapshot := some (mark s) }) else (false, w)
  | none => (false, w)

/-- One step of the in-memory guards. -/
def guardInMemory (interruptedAtTask : Option TaskId) (w : PoolWorld) :
    GuardStep → GuardResult × PoolWorld
  | .start | .checkCancel => match w.cancelSignal with
      | none => (.next .checkPause, w)
      | some request => (.next (.cancelRead request), w)
  | .cancelRead request =>
    let r := markIfInProgress (·.markCancelled request interruptedAtTask) w
    (.next (if r.1 then .cancelMarked else .checkPause), r.2)
  | .cancelMarked => (.finished (some .cancelled), { w with cancelSignal := none })
  | .checkPause => match w.pauseSignal with
      | none => (.finished none, w)
      | some request => (.next (.pauseRead request), w)
  | .pauseRead request =>
    let r := markIfInProgress (·.markPaused request) w
    (if r.1 then .next .pauseMarked else .finished none, r.2)
  | .pauseMarked => (.finished (some .paused), { w with pauseSignal := none })

/-- One step of the Postgres guards. -/
def guardPostgres (interruptedAtTask : Option TaskId) (w : PoolWorld) :
    GuardStep → GuardResult × PoolWorld
  | .start => (if w.hasSignal then .next .checkCancel else .finished none, w)
  | .checkCancel => match w.cancelSignal with
      | none => (.next .checkPause, w)
      | some request =>
        let r := markIfInProgress (·.markCancelled request interruptedAtTask) w
        if r.1 then (.finished (some .cancelled), { r.2 with cancelSignal := none })
        else (.next .checkPause, w)
  | .checkPause => match w.pauseSignal with
      | none => (.finished none, w)
      | some request =>
        let r := markIfInProgress (·.markPaused request) w
        if r.1 then (.finished (some .paused), { r.2 with pauseSignal := none })
        else (.finished none, w)
  | .cancelRead _ | .cancelMarked | .pauseRead _ | .pauseMarked => (.finished none, w)

def guardStep (interruptedAtTask : Option TaskId) (g : GuardStep) (w : PoolWorld) :
    GuardResult × PoolWorld :=
  match b with
  | inMemory => guardInMemory interruptedAtTask w g
  | postgres => guardPostgres interruptedAtTask w g

/-! ## Polling in memory -/

/-- What the first half of a poll finds to be advanced. The id of a signal wait is
there for the trace only. -/
inductive Advance where
  | delay (next : TaskId)
  | delayDone (delayId : TaskId)
  | signal (signalId : TaskId) (signalName : String) (next : Option TaskId)
  | signalTimeout (signalId : TaskId) (signalName : String) (next : Option TaskId)
  deriving DecidableEq

/-- What the trace records of an advance. -/
def Advance.event : Advance → Option Event
  | .delay _ | .delayDone _ => none
  | .signal signalId _ _ => some (.signalled signalId)
  | .signalTimeout signalId _ _ => some (.timedOut signalId)

/-- The first section of a poll: forget expired claims. -/
def dropExpired (w : PoolWorld) : PoolWorld :=
  { w with claims := w.claims.filter fun c => !inMemory.isExpired w.clock c }

/-- The second section: see whether the wait of the instance is over. -/
def collectAdvance (w : PoolWorld) : Option Advance :=
  match w.snapshot, w.hasSignal with
  | some s, false => match s.state with
      | .inProgress (.atDelay delayId _ wakeAt next) _ _ =>
        if wakeAt ≤ w.clock then
          match next with
          | some taskId => some (.delay taskId)
          | none => some (.delayDone delayId)
        else none
      | .inProgress (.atSignal signalId signalName wakeAt next) _ _ =>
        if !(w.events signalName).isEmpty then some (.signal signalId signalName next)
        else if wakeAt.any fun t => t ≤ w.clock then
          some (.signalTimeout signalId signalName next)
        else none
      | _ => none
  | _, _ => none

section hashed

variable [Sha256]

/-- The third section: advance the instance, whatever has become of it since. -/
def applyAdvance (advance : Advance) (w : PoolWorld) : PoolWorld :=
  match advance with
  | .delay next => { w with snapshot := w.snapshot.map (·.updatePosition (.atTask next)) }
  | .delayDone delayId => { w with
      snapshot := w.snapshot.map fun s =>
        s.markCompleted ((s.getTaskResultBytes delayId).getD []) }
  | .signal _ signalName next =>
    { w with
      events := Function.update w.events signalName (w.events signalName).tail
      snapshot := w.snapshot.map
        (World.leaveSignal signalName ((w.events signalName).head?.getD []) next) }
  | .signalTimeout _ signalName next =>
    { w with snapshot := w.snapshot.map (World.leaveSignal signalName [] next) }

end hashed

/-- The last section: see whether the instance has a task to dispatch. -/
def selectTask (workerTags : List String) (w : PoolWorld) : Option AvailableTask :=
  match w.snapshot, w.hasSignal with
  | some s, false => match s.state with
      | .inProgress (.atTask taskId) completed _ =>
        if (completed.lookup taskId).isSome || (inMemory.findClaim taskId w).isSome
          || s.inBackoff taskId w.clock || !tagsMatch workerTags s then none
        else buildAvailableTask s taskId
      | _ => none
  | _, _ => none

/-! ## Polling in Postgres -/

/-- No live claim on the instance and no pending request. -/
def eligible (w : PoolWorld) : Bool :=
  !w.hasSignal && !w.claims.any fun c => !postgres.isExpired w.clock c

/-- The dispatch query: the blob of the instance, if it is at a task or at a
delay that is over. -/
def selectRow (workerTags : List String) (w : PoolWorld) : Option WorkflowSnapshot :=
  w.snapshot.filter fun s =>
    eligible w && tagsMatch workerTags s && match s.state with
      | .inProgress (.atTask _) _ _ => true
      | .inProgress (.atDelay _ _ wakeAt _) _ _ => decide (wakeAt ≤ w.clock)
      | _ => false

/-- `find_hinted_task`, which only Postgres implements. It does not look at the
backoff of a task that is to be retried. -/
def findHintedTask (hint : TaskId) (w : PoolWorld) : Option AvailableTask :=
  match b, w.snapshot with
  | postgres, some s =>
    let s := s.hydrateTaskOutputs w.outputs
    if s.currentTaskId = some hint && eligible w && (s.getTaskResult hint).isNone then
      buildAvailableTask s hint
    else none
  | _, _ => none

/-! ## What the methods can do -/

section does

variable {b} {taskId : TaskId} {workerId : String} {w : PoolWorld}

/-- A claim is taken, renewed and given up without touching anything else. -/
theorem claimTask_cases (ttl : Option Duration) :
    ∃ claims, (b.claimTask taskId workerId ttl w).2 = { w with claims := claims } := by
  unfold claimTask
  split
  · exact ⟨_, rfl⟩
  · exact ⟨w.claims, rfl⟩

variable (taskId workerId) in
theorem releaseTaskClaim_cases :
    ∃ claims, (b.releaseTaskClaim taskId workerId w).2 = { w with claims := claims } := by
  unfold releaseTaskClaim
  split
  · exact ⟨w.claims, rfl⟩
  · exact ⟨_, rfl⟩

variable (taskId workerId) in
theorem extendTaskClaim_cases (ttl : Duration) :
    ∃ claims, (b.extendTaskClaim taskId workerId ttl w).2 = { w with claims := claims } := by
  unfold extendTaskClaim
  split
  · exact ⟨w.claims, rfl⟩
  · exact ⟨_, rfl⟩

variable (b) in
/-- The form in which a snapshot is stored. -/
def stored (s : WorkflowSnapshot) : WorkflowSnapshot :=
  match b with
  | inMemory => s
  | postgres => s.stripTaskOutputs.clearUnflushed

@[simp] theorem position_stored (s : WorkflowSnapshot) : (b.stored s).position = s.position := by
  cases b with
  | inMemory => rfl
  | postgres => exact position_mapOutputs _

@[simp] theorem position_afterSave (s : WorkflowSnapshot) :
    (b.afterSave s).position = s.position := by
  cases b <;> rfl

@[simp] theorem position_view (s : WorkflowSnapshot) : (b.view w s).position = s.position := by
  cases b with
  | inMemory => rfl
  | postgres => exact position_mapOutputs _

@[simp] theorem isInProgress_view (s : WorkflowSnapshot) :
    (b.view w s).isInProgress = s.isInProgress := by
  cases b with
  | inMemory => rfl
  | postgres => exact isInProgress_mapOutputs _

/-- A reader finds the same tasks completed. -/
theorem isSome_getTaskResult_view (s : WorkflowSnapshot) (t : TaskId) :
    ((b.view w s).getTaskResult t).isSome = (s.getTaskResult t).isSome := by
  cases b with
  | inMemory => rfl
  | postgres =>
    simp [view, hydrateTaskOutputs, getTaskResult_mapOutputs]

theorem isSome_getTaskResult_stored (s : WorkflowSnapshot) (t : TaskId) :
    ((b.stored s).getTaskResult t).isSome = (s.getTaskResult t).isSome := by
  cases b with
  | inMemory => rfl
  | postgres =>
    simp [stored, stripTaskOutputs, getTaskResult_mapOutputs]

/-- A snapshot is stored and logged unless Postgres has stored a terminal one. -/
theorem saveSnapshot_cases (s : WorkflowSnapshot) :
    (b.saveSnapshot s w).snapshot = some (b.stored s)
        ∧ (b.saveSnapshot s w).trace = w.trace ++ [.saved s]
      ∨ b = postgres ∧ w.snapshot.any isTerminal
        ∧ (b.saveSnapshot s w).snapshot = w.snapshot ∧ (b.saveSnapshot s w).trace = w.trace := by
  cases b with
  | inMemory => exact .inl ⟨rfl, rfl⟩
  | postgres =>
    have hship : ∀ w, (shipOutput s w).snapshot = w.snapshot ∧ (shipOutput s w).trace = w.trace := by
      intro w
      unfold shipOutput
      split <;> exact ⟨rfl, rfl⟩
    unfold saveSnapshot
    rw [(hship _).1, (hship _).2]
    unfold storeBlob
    split
    · rename_i ht
      exact .inr ⟨rfl, ht, rfl, rfl⟩
    · exact .inl ⟨rfl, rfl⟩

/-- A save leaves the claims, the clock and the requests alone. -/
theorem saveSnapshot_frame (s : WorkflowSnapshot) :
    (b.saveSnapshot s w).claims = w.claims ∧ (b.saveSnapshot s w).clock = w.clock
      ∧ (b.saveSnapshot s w).cancelSignal = w.cancelSignal
      ∧ (b.saveSnapshot s w).pauseSignal = w.pauseSignal := by
  cases b with
  | inMemory => exact ⟨rfl, rfl, rfl, rfl⟩
  | postgres =>
    unfold saveSnapshot shipOutput storeBlob
    dsimp only
    split <;> split <;> exact ⟨rfl, rfl, rfl, rfl⟩

theorem snapshot_saveSnapshot (s : WorkflowSnapshot) :
    (b.saveSnapshot s w).snapshot = some (b.stored s)
      ∨ b = postgres ∧ w.snapshot.any isTerminal
        ∧ (b.saveSnapshot s w).snapshot = w.snapshot :=
  (saveSnapshot_cases s).imp (·.1) fun ⟨hb, ht, hs, _⟩ => ⟨hb, ht, hs⟩

/-- A save never leaves an instance without a snapshot. -/
theorem isSome_snapshot_saveSnapshot (s : WorkflowSnapshot) :
    (b.saveSnapshot s w).snapshot.isSome := by
  rcases snapshot_saveSnapshot (b := b) (w := w) s with hs | ⟨-, hterm, hs⟩
  · simp [hs]
  · obtain ⟨s', hs', -⟩ := (Option.any_eq_true _ _).mp hterm
    simp [hs, hs']

/-- A running instance is overwritten. -/
theorem snapshot_saveSnapshot_of_isInProgress {s : WorkflowSnapshot} (hs : w.snapshot = some s)
    (hp : s.isInProgress) (s' : WorkflowSnapshot) :
    (b.saveSnapshot s' w).snapshot = some (b.stored s') := by
  rcases snapshot_saveSnapshot s' with h | ⟨-, hterm, -⟩
  · exact h
  · obtain ⟨position, completed, last, hst⟩ := isInProgress_iff.mp hp
    simp [hs, isTerminal, hst] at hterm

theorem trace_saveSnapshot (s : WorkflowSnapshot) :
    (b.saveSnapshot s w).trace = w.trace ∨ (b.saveSnapshot s w).trace = w.trace ++ [.saved s] :=
  (saveSnapshot_cases s).symm.imp (·.2.2.2) (·.2)

/-- Postgres adds the output completed last to the table, if it is new. -/
theorem outputs_saveSnapshot (s : WorkflowSnapshot) :
    (b.saveSnapshot s w).outputs = w.outputs
      ∧ (b = postgres → s.outputUnflushed → s.lastCompletedTaskId = none)
    ∨ b = postgres ∧ s.outputUnflushed ∧ ∃ t, s.lastCompletedTaskId = some t
      ∧ (b.saveSnapshot s w).outputs = Function.update w.outputs t (s.getTaskResultBytes t) := by
  cases b with
  | inMemory => exact .inl ⟨rfl, fun h => nomatch h⟩
  | postgres =>
    have hstore : (storeBlob s w).outputs = w.outputs := by
      unfold storeBlob
      split <;> rfl
    unfold saveSnapshot shipOutput
    dsimp only
    split
    · rename_i t hu hl
      exact .inr ⟨rfl, hu, t, hl, by rw [hstore]⟩
    · rename_i hne
      refine .inl ⟨hstore, fun _ hu => ?_⟩
      cases hl : s.lastCompletedTaskId with
      | none => rfl
      | some t => exact absurd hl (hne t hu)

variable (taskId workerId) in
/-- A fenced save that is not refused is a save. -/
theorem saveSnapshotFenced_cases (s : WorkflowSnapshot) :
    b.saveSnapshotFenced s taskId workerId w = (true, b.saveSnapshot s w)
      ∨ b.saveSnapshotFenced s taskId workerId w = (false, w) := by
  cases b with
  | inMemory => exact .inl rfl
  | postgres =>
    unfold saveSnapshotFenced
    dsimp only
    split
    · exact .inl rfl
    · exact .inr rfl

/-- Leave a signal wait for which an event has been received. -/
def received (signalId : TaskId) (payload : Bytes) (next : Option TaskId) (s : WorkflowSnapshot) :
    WorkflowSnapshot :=
  match next with
  | some taskId => (s.markTaskCompleted signalId payload).updatePosition (.atTask taskId)
  | none => (s.markTaskCompleted signalId payload).markCompleted payload

/-- An event is buffered or, in Postgres, resumes an instance that waits for it. -/
theorem sendEvent_cases (signalName : String) (payload : Bytes) :
    b.sendEvent signalName payload w
        = { w with toWorld := w.toWorld.sendEvent signalName payload }
      ∨ b = postgres ∧ ∃ s signalId wakeAt next completed last, w.snapshot = some s
          ∧ s.state = .inProgress (.atSignal signalId signalName wakeAt next) completed last
          ∧ b.sendEvent signalName payload w = { w with
              snapshot := some (b.stored (received signalId payload next s))
              outputs := Function.update w.outputs signalId (some payload)
              trace := w.trace ++ [.signalled signalId] } := by
  unfold sendEvent
  dsimp only
  split
  · rename_i s hs
    split
    · rename_i signalId awaited wakeAt next completed last hst
      split
      · rename_i he
        subst he
        refine .inr ⟨rfl, s, signalId, wakeAt, next, completed, last, hs, hst, ?_⟩
        cases next <;> rfl
      · exact .inl rfl
    · exact .inl rfl
  · exact .inl rfl

end does

/-- What a step of the guards can do to the world. -/
inductive Guards (interruptedAtTask : Option TaskId) (w : PoolWorld) : PoolWorld → Prop
  | cleared (cancel pause : Option SignalRequest) :
      Guards interruptedAtTask w { w with cancelSignal := cancel, pauseSignal := pause }
  | cancelled (s : WorkflowSnapshot) (request : SignalRequest) (cancel : Option SignalRequest)
      (hs : w.snapshot = some s) (hp : s.isInProgress) :
      Guards interruptedAtTask w { w with
        snapshot := some (s.markCancelled request interruptedAtTask), cancelSignal := cancel }
  | paused (s : WorkflowSnapshot) (request : SignalRequest) (pause : Option SignalRequest)
      (hs : w.snapshot = some s) (hp : s.isInProgress) :
      Guards interruptedAtTask w { w with
        snapshot := some (s.markPaused request), pauseSignal := pause }

theorem markIfInProgress_cases (mark : WorkflowSnapshot → WorkflowSnapshot) (w : PoolWorld) :
    markIfInProgress mark w = (false, w)
      ∨ ∃ s, w.snapshot = some s ∧ s.isInProgress
          ∧ markIfInProgress mark w = (true, { w with snapshot := some (mark s) }) := by
  unfold markIfInProgress
  split
  · rename_i s hs
    split
    · rename_i hp
      exact .inr ⟨s, hs, hp, rfl⟩
    · exact .inl rfl
  · exact .inl rfl

/-- **What the guards can do.** -/
theorem guards_guardStep (interruptedAtTask : Option TaskId) (g : GuardStep) (w : PoolWorld) :
    Guards interruptedAtTask w (b.guardStep interruptedAtTask g w).2 := by
  have nothing : Guards interruptedAtTask w w := .cleared w.cancelSignal w.pauseSignal
  have cancel : ∀ request cancelSignal,
      let r := markIfInProgress (·.markCancelled request interruptedAtTask) w
      r.1 → Guards interruptedAtTask w { r.2 with cancelSignal := cancelSignal } := by
    intro request cancelSignal r hr
    rcases markIfInProgress_cases (·.markCancelled request interruptedAtTask) w with
      h | ⟨s, hs, hp, h⟩
    · simp [r, h] at hr
    · simp only [r, h]
      exact .cancelled s request cancelSignal hs hp
  have pause : ∀ request pauseSignal,
      let r := markIfInProgress (·.markPaused request) w
      r.1 → Guards interruptedAtTask w { r.2 with pauseSignal := pauseSignal } := by
    intro request pauseSignal r hr
    rcases markIfInProgress_cases (·.markPaused request) w with h | ⟨s, hs, hp, h⟩
    · simp [r, h] at hr
    · simp only [r, h]
      exact .paused s request pauseSignal hs hp
  cases b with
  | inMemory =>
    unfold guardStep guardInMemory
    cases g with
    | start | checkCancel => dsimp only; split <;> exact nothing
    | cancelRead request =>
      dsimp only
      rcases markIfInProgress_cases (·.markCancelled request interruptedAtTask) w with
        h | ⟨s, hs, hp, h⟩
      · simp only [h]
        exact nothing
      · simp only [h]
        exact .cancelled s request w.cancelSignal hs hp
    | cancelMarked => exact .cleared none w.pauseSignal
    | checkPause => dsimp only; split <;> exact nothing
    | pauseRead request =>
      dsimp only
      rcases markIfInProgress_cases (·.markPaused request) w with h | ⟨s, hs, hp, h⟩
      · simp only [h]
        exact nothing
      · simp only [h]
        exact .paused s request w.pauseSignal hs hp
    | pauseMarked => exact .cleared w.cancelSignal none
  | postgres =>
    unfold guardStep guardPostgres
    cases g with
    | start => exact nothing
    | checkCancel =>
      dsimp only
      split
      · exact nothing
      · rename_i request _
        split
        · rename_i hr
          exact cancel request none hr
        · exact nothing
    | checkPause =>
      dsimp only
      split
      · exact nothing
      · rename_i request _
        split
        · rename_i hr
          exact pause request none hr
        · exact nothing
    | _ => exact nothing

/-! ## What a poll can find -/

variable {w : PoolWorld}

theorem buildAvailableTask_eq_some {s : WorkflowSnapshot} {taskId : TaskId} {task : AvailableTask}
    (h : PoolWorld.buildAvailableTask s taskId = some task) :
    task.snapshot = s ∧ task.taskId = taskId ∧ s.isInProgress
      ∧ task.workflowDefinitionHash = s.definitionHash := by
  unfold PoolWorld.buildAvailableTask at h
  split at h
  · rename_i hs
    obtain ⟨input, -, rfl⟩ := Option.map_eq_some_iff.mp h
    exact ⟨rfl, rfl, by simp [isInProgress, hs], rfl⟩
  · cases h

/-- What an in-memory poll offers was found in the stored snapshot. -/
theorem selectTask_eq_some {tags : List String} {task : AvailableTask}
    (h : selectTask tags w = some task) :
    w.snapshot = some task.snapshot ∧ task.snapshot.isInProgress := by
  unfold selectTask at h
  split at h
  · rename_i s hs _
    split at h
    · split at h
      · cases h
      · obtain ⟨rfl, -, hp, -⟩ := buildAvailableTask_eq_some h
        exact ⟨hs, hp⟩
    · cases h
  · cases h

theorem collectAdvance_eq_some {advance : Advance} (h : collectAdvance w = some advance) :
    ∃ s, w.snapshot = some s ∧ s.isInProgress := by
  unfold collectAdvance at h
  split at h
  · rename_i s hs _
    refine ⟨s, hs, ?_⟩
    split at h
    · rename_i hst
      simp [isInProgress, hst]
    · rename_i hst
      simp [isInProgress, hst]
    · cases h
  · cases h

/-- An instance at a task has no wait for a poll to end. -/
theorem collectAdvance_of_atTask
    (h : ∀ s position, w.snapshot = some s → s.position = some position →
      ∃ t, position = .atTask t) : collectAdvance w = none := by
  cases hc : collectAdvance w with
  | none => rfl
  | some advance =>
    exfalso
    obtain ⟨s, hs, hp⟩ := collectAdvance_eq_some hc
    obtain ⟨position, completed, last, hst⟩ := isInProgress_iff.mp hp
    obtain ⟨t, rfl⟩ := h s position hs (by simp [WorkflowSnapshot.position, hst])
    unfold collectAdvance at hc
    rw [hs] at hc
    cases hsig : w.hasSignal <;> simp [hsig, hst] at hc

end Backend

end Sayiir
