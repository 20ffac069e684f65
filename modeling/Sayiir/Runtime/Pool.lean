import Sayiir.Interaction.Walk
import Sayiir.Runtime.Lifecycle
import Sayiir.Runtime.Worker

/-!
# The worker pool

Any number of pooled workers work on one instance that a client has submitted. A
process is one poll of a worker together with the `execute_task` that follows it;
its phase names the backend call it makes next and holds the snapshot it works
on, which may be long out of date by then. Between any two calls every other
process, the clients and the clock may move, and a process may be killed.

The machine is a total function on actions. What is not determined by the state
is part of the action: that a backend call fails, that a task function fails this
time, that a heartbeat fires.
-/

namespace Sayiir

open Backend

/-- `PooledWorker`, as far as one instance can tell. -/
structure Worker where
  id : String
  claimTtl : Option Duration
  tags : List String
  deriving DecidableEq

/-- The time to live of a claim; durations that do not fit count as none. -/
def Worker.ttl (worker : Worker) : Option Duration := worker.claimTtl.filter (· ≤ chronoMax)

/-- A workflow that a client has submitted to a backend, and the functions the
workers run for it. -/
structure Submission where
  backend : Backend
  codec : EnvelopeCodec
  callbacks : Callbacks
  continuation : WorkflowContinuation
  definitionHash : DefinitionHash
  input : Bytes

/-- The next backend call of a process. -/
inductive Phase where
  /-- `find_available_tasks`: the in-memory backend forgets expired claims, Postgres
  runs the dispatch query. -/
  | polling
  /-- In memory: look for a wait that is over. -/
  | collecting
  /-- In memory: advance the instance past the wait. -/
  | advancing (advance : Advance)
  /-- In memory: look for a task to dispatch. -/
  | selecting
  /-- Postgres: fetch the outputs that belong to the blob. -/
  | hydrating (blob : WorkflowSnapshot)
  /-- Postgres: save an instance whose delay is over, then dispatch the next task. -/
  | waking (s : WorkflowSnapshot) (next : Option TaskId)
  /-- `execute_task` has been called; `claim_task` is next. -/
  | offered (task : AvailableTask)
  /-- `check_post_claim_guards`. -/
  | guarding (task : AvailableTask) (guard : GuardStep)
  /-- The task function is about to be called. -/
  | executing (task : AvailableTask)
  /-- The task function runs next to the heartbeat. -/
  | running (task : AvailableTask) (outcome : Except RuntimeError Bytes)
      (deadline : Option TaskDeadline) (failures : Nat)
  /-- `try_schedule_retry`: save the retry state. -/
  | retrying (task : AvailableTask) (s : WorkflowSnapshot)
  /-- `fail_workflow`: save the failure. -/
  | failing (task : AvailableTask) (s : WorkflowSnapshot)
  /-- `release_quietly`, and nothing after it. -/
  | releasing (task : AvailableTask)
  /-- `settle_cancelled`: release the claim. -/
  | cancelling (task : AvailableTask)
  /-- `settle_cancelled`: `check_and_cancel`. -/
  | cancelled (task : AvailableTask) (guard : GuardStep)
  /-- `commit_task_result`: the fenced save. -/
  | committing (task : AvailableTask) (s : WorkflowSnapshot) (output : Bytes)
  /-- `drain_pending_signal`: consume a buffered event. -/
  | draining (task : AvailableTask) (s : WorkflowSnapshot) (output : Bytes)
  /-- `drain_pending_signal`: save. -/
  | drained (task : AvailableTask) (s : WorkflowSnapshot) (output : Bytes)
  /-- `commit_task_result`: release the claim. -/
  | handingBack (task : AvailableTask) (s : WorkflowSnapshot) (output : Bytes)
  /-- `resolve_loop_completions`: the saves that are left, and the snapshot after them. -/
  | resolving (saves : List WorkflowSnapshot) (result : Except RuntimeError WorkflowSnapshot)
      (output : Bytes)
  /-- `determine_post_task_status`: check for requests. -/
  | concluding (s : WorkflowSnapshot) (output : Bytes) (guard : GuardStep)
  /-- `determine_post_task_status`: save the completed snapshot. -/
  | completing (s : WorkflowSnapshot)
  | done

/-- A poll of a worker and what it leads to. `seen` is a ghost: the stored snapshot
as the process last read or stored it. -/
structure Process where
  worker : Worker
  phase : Phase
  seen : Option WorkflowSnapshot

/-- What the state does not determine about a step of a process. -/
inductive Choice where
  /-- The call goes well. -/
  | proceed
  /-- The backend call fails; its effect may have taken place all the same. -/
  | lost (applied : Bool)
  /-- The call of the task function fails or panics this time. -/
  | raise (error : RuntimeError)
  /-- A heartbeat fires; either of its two calls may fail. -/
  | heartbeat (readFails extendFails : Bool)
  deriving DecidableEq

/-- The backend call of the phase is made. -/
def Choice.isCall : Choice → Bool
  | .proceed | .lost _ => true
  | .raise _ | .heartbeat .. => false

/-- The call of the phase takes effect. -/
def Choice.applies : Choice → Bool
  | .proceed | .lost true => true
  | .lost false | .raise _ | .heartbeat .. => false

namespace Submission

variable [Sha256] (job : Submission)

/-! ## Between two calls -/

/-- `validate_task_preconditions`: the offer is to be executed. -/
def accepts (task : AvailableTask) : Bool :=
  decide (task.workflowDefinitionHash = job.definitionHash)
    && (job.continuation.indexed task.taskId).isSome
    && (task.snapshot.getTaskResult task.taskId).isNone

/-- The outputs of fork branches, by the id of the branch. -/
def branchResults (s : WorkflowSnapshot) :
    List WorkflowContinuation → Except RuntimeError (List (String × Bytes))
  | [] => .ok []
  | c :: cs => match s.getTaskResultBytes (TaskId.sha256 c.terminalTaskId) with
      | none => .error (.workflow (.taskNotFound c.id))
      | some output => (branchResults s cs).map ((c.id, output) :: ·)

/-- The input of a task: the one it was offered with, except for the first task of
a join, whose input is put together from the branches. -/
def taskInput (task : AvailableTask) : Except RuntimeError Bytes :=
  match job.continuation.findForkBranchesForJoin task.taskId with
  | none => .ok task.input
  | some branches => match branchResults task.snapshot branches with
      | .error e => .error e
      | .ok results => (job.codec.encodeNamedResults results).mapError .ofBoxError

/-- `settle_failure`: retry the task if its policy allows, or fail the workflow. -/
def settleFailure (worker : Worker) (task : AvailableTask) (error : RuntimeError) (now : Time) :
    Phase :=
  let s := task.snapshot.clearTaskDeadline
  match (job.continuation.indexed task.taskId).bind (·.retryPolicy) with
  | some policy =>
    if s.retriesExhausted task.taskId then .failing task (s.markFailed error)
    else .retrying task
      (s.recordRetry task.taskId policy error (some worker.id) now).2.clearTaskDeadline
  | none => .failing task (s.markFailed error)

/-- The snapshot that `commit_task_result` saves. -/
def commitSnapshot (task : AvailableTask) (output : Bytes) (now : Time) :
    Except RuntimeError WorkflowSnapshot :=
  job.continuation.updatePositionAfterTask now task.taskId
    ((task.snapshot.clearTaskDeadline.clearRetryState task.taskId).markTaskCompleted
      task.taskId output)

/-- Whether the snapshot is parked at a signal wait. -/
def isAtSignal (s : WorkflowSnapshot) : Bool :=
  match s.state with
  | .inProgress (.atSignal ..) _ _ => true
  | _ => false

/-- `drain_pending_signal`, at the top of its loop. -/
def drain (task : AvailableTask) (s : WorkflowSnapshot) (output : Bytes) : Phase :=
  if isAtSignal s then .draining task s output else .handingBack task s output

/-- Record a drained event and leave the wait. -/
def leaveDrained (payload : Bytes) (s : WorkflowSnapshot) : WorkflowSnapshot :=
  match s.state with
  | .inProgress (.atSignal signalId _ _ next) _ _ =>
    let s := s.markTaskCompleted signalId payload
    match next with
    | some taskId => s.updatePosition (.atTask taskId)
    | none => s.markCompleted payload
  | _ => s

/-- `resolve_loop_completions`, with these saves left. -/
def resolve (saves : List WorkflowSnapshot) (result : Except RuntimeError WorkflowSnapshot)
    (output : Bytes) : Phase :=
  match saves, result with
  | [], .ok s => .concluding s output .start
  | [], .error _ => .done
  | _ :: _, _ => .resolving saves result output

/-- The rest of `determine_post_task_status`. -/
def conclude (s : WorkflowSnapshot) (output : Bytes) : Phase :=
  if job.continuation.isWorkflowComplete s then .completing (s.markCompleted output) else .done

/-- What Postgres does with a row of the dispatch query: dispatch a task, or wake an
instance whose delay is over. -/
def dispatchRow (now : Time) (s : WorkflowSnapshot) : Phase :=
  match s.state with
  | .inProgress (.atDelay delayId _ wakeAt next) _ _ =>
    if wakeAt ≤ now then match next with
      | some taskId => .waking (s.updatePosition (.atTask taskId)) next
      | none => .waking (s.markCompleted ((s.getTaskResultBytes delayId).getD [])) none
    else .done
  | .inProgress (.atTask taskId) completed _ =>
    if (completed.lookup taskId).isSome || s.inBackoff taskId now then .done
    else match PoolWorld.buildAvailableTask s taskId with
      | some task => .offered task
      | none => .done
  | _ => .done

/-- The offer of a poll, if there is one. -/
def offer : Option AvailableTask → Phase
  | some task => .offered task
  | none => .done

/-! ## The calls -/

/-- Call the task function, or fail before it comes to that. -/
def startTask (worker : Worker) (task : AvailableTask) (raised : Option RuntimeError)
    (w : PoolWorld) : Phase × PoolWorld :=
  match job.taskInput task with
  | .error e => (job.settleFailure worker task e w.clock, w)
  | .ok input =>
    let deadline := ((job.continuation.indexed task.taskId).bind (·.timeout)).map
      fun timeout => (⟨task.taskId, w.clock + Duration.fromMillis (Duration.asMillis timeout),
        Duration.asMillis timeout⟩ : TaskDeadline)
    match job.continuation.executeTaskById task.taskId with
    | .error e => (.running task (.error e) deadline 0, w)
    | .ok name =>
      let outcome := match raised with
        | some e => .error e
        | none => (job.callbacks.execute name input).mapError .ofBoxError
      (.running task outcome deadline 0, w.log (.taskCalled name input w.clock))

/-- The task function has ended. -/
def settle (worker : Worker) (task : AvailableTask) (outcome : Except RuntimeError Bytes)
    (now : Time) : Phase :=
  match outcome with
  | .error e => job.settleFailure worker task e now
  | .ok output => match job.commitSnapshot task output now with
      | .error _ => .done
      | .ok s => .committing task s output

/-- How many failed extensions in a row a worker tolerates. -/
def heartbeatFailureLimit : Nat := 3

/-- A heartbeat while the task function runs. -/
def heartbeat (worker : Worker) (ttl : Duration) (task : AvailableTask)
    (outcome : Except RuntimeError Bytes) (deadline : Option TaskDeadline) (failures : Nat)
    (readFails extendFails : Bool) (w : PoolWorld) : Phase × PoolWorld :=
  match deadline.filter fun d => d.deadline ≤ w.clock with
  | some d =>
    (job.settleFailure worker task
      (.workflow (.taskTimedOut d.taskId (Duration.fromMillis d.timeoutMs))) w.clock, w)
  | none =>
    let extended := if extendFails then (.error (.backend "extend"), w)
      else job.backend.extendTaskClaim task.taskId worker.id ttl w
    if !readFails && w.cancelSignal.isSome then (.cancelling task, extended.2)
    else match extended.1 with
      | .ok _ => (.running task outcome deadline 0, extended.2)
      | .error (.backend _) =>
        if heartbeatFailureLimit ≤ failures + 1 then (.done, extended.2)
        else (.running task outcome deadline (failures + 1), extended.2)
      | .error _ => (.done, extended.2)

/-- Where a guard leaves a process that goes on to `passed` if no request is applied
and to `stopped` otherwise. -/
def afterGuard (result : GuardResult) (again : GuardStep → Phase) (passed stopped : Phase) :
    Phase :=
  match result with
  | .next g => again g
  | .finished none => passed
  | .finished (some _) => stopped

/-- A backend call that goes well. -/
def call (worker : Worker) : Phase → PoolWorld → Phase × PoolWorld
  | .polling, w => match job.backend with
      | inMemory => (.collecting, dropExpired w)
      | postgres => match selectRow worker.tags w with
          | some blob => (.hydrating blob, w)
          | none => (.done, w)
  | .collecting, w => match collectAdvance w with
      | none => (.selecting, w)
      | some advance => (.advancing advance, match advance.event with
          | some e => w.log e
          | none => w)
  | .advancing advance, w => (.selecting, applyAdvance advance w)
  | .selecting, w => (offer (selectTask worker.tags w), w)
  | .hydrating blob, w => (dispatchRow w.clock (blob.hydrateTaskOutputs w.outputs), w)
  | .waking s next, w =>
    (match next with
      | some taskId => offer (PoolWorld.buildAvailableTask (job.backend.afterSave s) taskId)
      | none => .done,
    job.backend.saveSnapshot s w)
  | .offered task, w =>
    if job.accepts task then
      let r := job.backend.claimTask task.taskId worker.id worker.ttl w
      (if r.1 then .guarding task .start else .done, r.2)
    else (.done, w)
  | .guarding task g, w =>
    let r := job.backend.guardStep (some task.taskId) g w
    (afterGuard r.1 (.guarding task) (.executing task) (.releasing task), r.2)
  | .executing task, w => job.startTask worker task none w
  | .running task outcome _ _, w => (job.settle worker task outcome w.clock, w)
  | .retrying task s, w | .failing task s, w =>
    (.releasing task, (job.backend.saveSnapshotFenced s task.taskId worker.id w).2)
  | .releasing task, w => (.done, (job.backend.releaseTaskClaim task.taskId worker.id w).2)
  | .cancelling task, w =>
    (.cancelled task .checkCancel, (job.backend.releaseTaskClaim task.taskId worker.id w).2)
  | .cancelled task g, w =>
    let r := job.backend.guardStep (some task.taskId) g w
    (match r.1 with
      | .next .checkPause | .finished _ => .done
      | .next g => .cancelled task g, r.2)
  | .committing task s output, w =>
    let r := job.backend.saveSnapshotFenced s task.taskId worker.id w
    (if r.1 then drain task (job.backend.afterSave s) output else .done, r.2)
  | .draining task s output, w => match s.state with
      | .inProgress (.atSignal signalId signalName _ _) _ _ =>
        match Backend.consumeEvent signalName w with
        | (none, w) => (.handingBack task s output, w)
        | (some payload, w) =>
          (.drained task (leaveDrained payload s) output, w.log (.signalled signalId))
      | _ => (.handingBack task s output, w)
  | .drained task s output, w =>
    (drain task (job.backend.afterSave s) output, job.backend.saveSnapshot s w)
  | .handingBack task s output, w =>
    let r := job.backend.releaseTaskClaim task.taskId worker.id w
    (match r.1 with
      | .error _ => .done
      | .ok _ =>
        let resolution := job.continuation.resolveLoops job.backend job.codec s
        resolve resolution.saves resolution.result output, r.2)
  | .resolving [] result output, w => (resolve [] result output, w)
  | .resolving (s :: saves) result output, w =>
    (resolve saves result output, job.backend.saveSnapshot s w)
  | .concluding s output g, w =>
    let r := job.backend.guardStep none g w
    (afterGuard r.1 (.concluding s output) (job.conclude s output) .done, r.2)
  | .completing s, w => (.done, job.backend.saveSnapshot s w)
  | .done, w => (.done, w)

/-- Where a process goes when its backend call fails: failures to save a retry or a
failure and to release a claim quietly are ignored, all others end the process. -/
def afterLost : Phase → Phase
  | .retrying task _ | .failing task _ => .releasing task
  | .cancelling task => .cancelled task .checkCancel
  | _ => .done

/-- One step of a process: its next phase and the world after it. Choices that do
not fit the phase do nothing. -/
def phaseStep (worker : Worker) (choice : Choice) (phase : Phase) (w : PoolWorld) :
    Phase × PoolWorld :=
  match choice, phase with
  | .proceed, phase => job.call worker phase w
  | .raise e, .executing task => job.startTask worker task (some e) w
  | .raise _, phase => (phase, w)
  | .heartbeat readFails extendFails, .running task outcome deadline failures =>
    match worker.ttl with
    | some ttl =>
      job.heartbeat worker ttl task outcome deadline failures readFails extendFails w
    | none => (.running task outcome deadline failures, w)
  | .heartbeat _ _, phase => (phase, w)
  | .lost _, .executing task => (.executing task, w)
  | .lost _, .running task outcome deadline failures => (.running task outcome deadline failures, w)
  | .lost applied, phase => (afterLost phase, if applied then (job.call worker phase w).2 else w)

end Submission

/-- Whether the call of this phase reads or stores the snapshot of the instance. -/
def Phase.touchesStore : Phase → Bool
  | .polling | .collecting | .advancing _ | .selecting | .waking .. | .retrying .. | .failing ..
  | .committing .. | .drained .. | .resolving (_ :: _) _ _ | .completing _ => true
  | .hydrating _ | .offered _ | .guarding .. | .executing _ | .running .. | .releasing _
  | .cancelling _ | .cancelled .. | .draining .. | .handingBack .. | .resolving [] _ _
  | .concluding .. | .done => false

/-! ## The machine -/

/-- The shared world, every process started so far, and the requests that have been
validated and not yet inserted. -/
structure Pool where
  world : PoolWorld
  processes : List Process
  requests : List (SignalKind × SignalRequest)

inductive Action where
  /-- Time passes. -/
  | tick (by_ : Duration)
  | sendEvent (signalName : String) (payload : Bytes)
  /-- A client requests a cancellation or a pause. -/
  | request (kind : SignalKind) (request : SignalRequest)
  /-- A validated request is inserted. -/
  | insertRequest (index : Nat)
  | unpause
  /-- A worker polls. -/
  | poll (worker : Worker)
  /-- A worker looks up a task it was notified of. -/
  | hinted (worker : Worker) (hint : TaskId)
  /-- A process makes a step. -/
  | work (process : Nat) (choice : Choice)
  /-- A process is killed. -/
  | crash (process : Nat)
  deriving DecidableEq

/-- A client asks for a cancellation or a pause. -/
def Action.isRequest : Action → Bool
  | .request .. | .insertRequest _ => true
  | _ => false

/-- A process makes `n` calls, all of which go well. -/
def Action.calls (process n : Nat) : List Action := List.replicate n (.work process .proceed)

namespace Submission

variable [Sha256] (job : Submission)

/-- The world after the client has submitted the workflow. -/
def submitted (instanceId : String) (now : Time) : PoolWorld :=
  job.backend.saveSnapshot
    (initialSnapshot instanceId job.definitionHash job.input job.continuation.firstTaskHint)
    { toWorld := World.fresh instanceId now, claims := [], outputs := fun _ => none }

def start (instanceId : String) (now : Time) : Pool where
  world := job.submitted instanceId now
  processes := []
  requests := []

/-- A step of a process within the pool. -/
def workStep (choice : Choice) (p : Process) (w : PoolWorld) : Process × PoolWorld :=
  let r := job.phaseStep p.worker choice p.phase w
  ({ p with
    phase := r.1
    seen := if choice.isCall && p.phase.touchesStore then r.2.snapshot else p.seen }, r.2)

def step : Action → Pool → Pool
  | .tick d, σ => { σ with world := { σ.world with clock := σ.world.clock + d } }
  | .sendEvent signalName payload, σ =>
    { σ with world := job.backend.sendEvent signalName payload σ.world }
  | .request kind request, σ => match job.backend.validateSignal kind σ.world, job.backend with
      | .ok true, inMemory => { σ with requests := σ.requests ++ [(kind, request)] }
      | .ok true, postgres => { σ with world := Backend.insertSignal kind request σ.world }
      | _, _ => σ
  | .insertRequest i, σ => match σ.requests[i]? with
      | none => σ
      | some (kind, request) =>
        { σ with
          world := Backend.insertSignal kind request σ.world
          requests := σ.requests.eraseIdx i }
  | .unpause, σ => { σ with world := Backend.unpause σ.world }
  | .poll worker, σ =>
    { σ with processes := σ.processes ++ [⟨worker, .polling, none⟩] }
  | .hinted worker hint, σ =>
    { σ with processes := σ.processes ++
      [⟨worker, offer (job.backend.findHintedTask hint σ.world), σ.world.snapshot⟩] }
  | .work i choice, σ => match σ.processes[i]? with
      | none => σ
      | some p =>
        let r := job.workStep choice p σ.world
        { σ with world := r.2, processes := σ.processes.set i r.1 }
  | .crash i, σ => match σ.processes[i]? with
      | none => σ
      | some p => { σ with processes := σ.processes.set i { p with phase := .done } }

/-- The states a pool can get into by actions that meet `C`. -/
def Reachable (C : Action → Pool → Prop) (instanceId : String) (now : Time) : Pool → Prop :=
  Walk job.step C (job.start instanceId now)

end Submission

end Sayiir
