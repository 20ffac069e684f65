import Sayiir.Persistence.Postgres
import Sayiir.Runtime.Pool

/-!
# Workers and in-process executions on one backend

While pooled workers work on an instance, a client may run or resume the same
instance in process, with the callback executor or with `CheckpointingRunner`. A
`Crew` is the pool together with the executions launched so far; each of them
performs its operations on the backend of the pool, one at a time and in any order
with the steps of everybody else.

Postgres notifies the workers of every task an instance is stored at. A worker that
accepts such a hint looks the task up instead of polling; the hint may be long out
of date by then.
-/

namespace Sayiir

open Backend

/-! ## The operations of an execution -/

namespace Backend

variable (b : Backend)

def saveTaskResult (taskId : TaskId) (output : Bytes) (w : PoolWorld) :
    Except BackendError Unit × PoolWorld :=
  match b with
  | inMemory =>
    let r := w.toWorld.saveTaskResult taskId output
    (r.1, { w with toWorld := r.2 })
  | postgres => Postgres.saveTaskResult taskId output w

def loadSnapshot (w : PoolWorld) : Except BackendError WorkflowSnapshot :=
  match w.snapshot with
  | none => .error (.notFound w.instanceId)
  | some s => .ok (b.view w s)

def checkAndCancel (interruptedAtTask : Option TaskId) (w : PoolWorld) :
    Except BackendError Bool × PoolWorld :=
  match b with
  | inMemory =>
    let r := w.toWorld.checkAndCancel interruptedAtTask
    (r.1, { w with toWorld := r.2 })
  | postgres =>
    let r := Postgres.checkAndCancel interruptedAtTask w
    (.ok r.1, r.2)

def checkAndPause (w : PoolWorld) : Except BackendError Bool × PoolWorld :=
  match b with
  | inMemory =>
    let r := w.toWorld.checkAndPause
    (r.1, { w with toWorld := r.2 })
  | postgres =>
    let r := Postgres.checkAndPause w
    (.ok r.1, r.2)

/-- Perform an operation of an executor on this backend. -/
def handle (callbacks : Callbacks) : (o : Op) → PoolWorld → o.Resp × PoolWorld
  | .saveSnapshot s, w => (.ok (), b.saveSnapshot s w)
  | .saveTaskResult taskId output, w => b.saveTaskResult taskId output w
  | .loadSnapshot, w => (b.loadSnapshot w, w)
  | .checkAndCancel interruptedAtTask, w => b.checkAndCancel interruptedAtTask w
  | .checkAndPause, w => b.checkAndPause w
  | .consumeEvent signalName, w =>
    let r := Backend.consumeEvent signalName w
    (.ok r.1, r.2)
  | o, w =>
    let r := Op.handle callbacks o w.toWorld
    (r.1, { w with toWorld := r.2 })

/-- In memory, an execution of a crew performs its operations as one on its own does. -/
theorem handle_inMemory (callbacks : Callbacks) (o : Op) (w : PoolWorld) :
    inMemory.handle callbacks o w = ((Op.handle callbacks o w.toWorld).1,
      { w with toWorld := (Op.handle callbacks o w.toWorld).2 }) := by
  cases o with
  | loadSnapshot =>
    change (inMemory.loadSnapshot w, w)
      = (w.toWorld.loadSnapshot.1, { w with toWorld := w.toWorld.loadSnapshot.2 })
    unfold loadSnapshot World.loadSnapshot
    cases w.snapshot <;> rfl
  | consumeEvent signalName =>
    change (Except.ok (Backend.consumeEvent signalName w).1, (Backend.consumeEvent signalName w).2)
      = ((w.toWorld.consumeEvent signalName).1,
          { w with toWorld := (w.toWorld.consumeEvent signalName).2 })
    unfold Backend.consumeEvent World.consumeEvent
    cases w.events signalName <;> rfl
  | _ => rfl

/-- What an operation can do to the stored snapshot. -/
inductive Handled (o : Op) (w w' : PoolWorld) : Prop
  | kept (h : w'.snapshot = w.snapshot)
  | saved (s : WorkflowSnapshot) (ho : o = .saveSnapshot s) (hw : w' = b.saveSnapshot s w)
  | recorded (taskId : TaskId) (output : Bytes) (s : WorkflowSnapshot)
      (ho : o = .saveTaskResult taskId output) (hs : w.snapshot = some s)
      (h : w'.snapshot = some (b.stored ((b.view w s).markTaskCompleted taskId output)))
  | cancelled (interruptedAtTask : Option TaskId) (s : WorkflowSnapshot) (request : SignalRequest)
      (ho : o = .checkAndCancel interruptedAtTask) (hs : w.snapshot = some s) (hp : s.isInProgress)
      (h : w'.snapshot = some (s.markCancelled request interruptedAtTask))
  | paused (s : WorkflowSnapshot) (request : SignalRequest) (ho : o = .checkAndPause)
      (hs : w.snapshot = some s) (hp : s.isInProgress)
      (h : w'.snapshot = some (s.markPaused request))

/-- **What an operation can do to the stored snapshot.** -/
theorem handled_handle (callbacks : Callbacks) (o : Op) (w : PoolWorld) :
    b.Handled o w (b.handle callbacks o w).2 := by
  cases o with
  | saveSnapshot s => exact .saved s rfl rfl
  | saveTaskResult taskId output =>
    cases b with
    | inMemory =>
      rcases w.toWorld.saveTaskResult_cases taskId output with ⟨-, h⟩ | ⟨s, hs, h⟩
      · exact .kept (congrArg World.snapshot h)
      · exact .recorded taskId output s rfl hs (congrArg World.snapshot h)
    | postgres =>
      change Handled _ _ w (Postgres.saveTaskResult taskId output w).2
      unfold Postgres.saveTaskResult Postgres.loadSnapshot
      cases hs : w.snapshot with
      | none => exact .kept rfl
      | some s => exact .recorded taskId output s rfl hs rfl
  | loadSnapshot => exact .kept rfl
  | checkAndCancel interruptedAtTask =>
    cases b with
    | inMemory =>
      rcases w.toWorld.checkAndCancel_cases interruptedAtTask with h | ⟨s, r, hs, hp, -, h⟩
      · exact .kept (congrArg World.snapshot h)
      · exact .cancelled _ s r rfl hs hp (congrArg (World.snapshot ∘ Prod.snd) h)
    | postgres =>
      rcases Postgres.checkAnd_cases .cancel w.cancelSignal
        (fun request s => s.markCancelled request interruptedAtTask) with h | ⟨s, r, hs, hp, h⟩
      · exact .kept (congrArg (fun r => r.2.snapshot) h)
      · exact .cancelled _ s r rfl hs hp (congrArg (fun r => r.2.snapshot) h)
  | checkAndPause =>
    cases b with
    | inMemory =>
      rcases w.toWorld.checkAndPause_cases with h | ⟨s, r, hs, hp, -, h⟩
      · exact .kept (congrArg World.snapshot h)
      · exact .paused s r rfl hs hp (congrArg (World.snapshot ∘ Prod.snd) h)
    | postgres =>
      rcases Postgres.checkAnd_cases .pause w.pauseSignal
        (fun request s => s.markPaused request) with h | ⟨s, r, hs, hp, h⟩
      · exact .kept (congrArg (fun r => r.2.snapshot) h)
      · exact .paused s r rfl hs hp (congrArg (fun r => r.2.snapshot) h)
  | consumeEvent signalName =>
    refine .kept ?_
    change (Backend.consumeEvent signalName w).2.snapshot = w.snapshot
    unfold Backend.consumeEvent
    cases w.events signalName <;> rfl
  | raceTask id input deadline =>
    refine .kept ?_
    change (Op.handle callbacks (.raceTask id input deadline) w.toWorld).2.snapshot = w.snapshot
    unfold Op.handle
    dsimp only
    split <;> rfl
  | _ => exact .kept rfl

end Backend

/-! ## Wakeup hints -/

/-- `TaskWakeupHint`, for the one instance. -/
structure TaskWakeupHint where
  taskId : TaskId
  definitionHash : DefinitionHash
  tags : List String
  deriving DecidableEq

/-- `build_task_ready_payload`: only an instance in progress at a task warrants a hint. -/
def buildTaskReadyPayload (s : WorkflowSnapshot) : Option TaskWakeupHint :=
  s.currentTaskId.map fun taskId => ⟨taskId, s.definitionHash, s.taskTags⟩

/-- What the workers are notified of when the world has come to be `w`. -/
def Backend.notify (b : Backend) (w : PoolWorld) : Option TaskWakeupHint :=
  match b with
  | inMemory => none
  | postgres => w.snapshot.bind buildTaskReadyPayload

namespace Submission

variable [Sha256] (job : Submission)

/-- `can_handle_hint`. A worker without tags accepts only hints without tags. -/
def canHandleHint (worker : Worker) (hint : TaskWakeupHint) : Bool :=
  decide (hint.definitionHash = job.definitionHash) && hint.tags.all worker.tags.contains

/-- The priorities and tags that the runner looks up. -/
def runnerIndex : TaskIndex where
  priority taskId := (job.continuation.indexed taskId).bind (·.priority)
  tags taskId := ((job.continuation.indexed taskId).map (·.tags)).getD []

/-- The two ways to execute the workflow in process. -/
def executors : List Executor := [.callback, .runner job.runnerIndex]

/-- `run` on an instance that does not exist, `resume` on one that does. -/
def launch (ex : Executor) (w : PoolWorld) : Proc RunResult :=
  match w.snapshot with
  | none => Sayiir.run ex job.codec job.continuation w.instanceId job.definitionHash job.input
  | some _ => Sayiir.resume ex job.codec job.continuation job.definitionHash

end Submission

/-! ## The machine -/

/-- Whether the action is the lookup of a hint. -/
def Action.isHinted : Action → Bool
  | .hinted .. => true
  | _ => false

/-- The pool, the executions launched so far and the hints sent so far. -/
structure Crew where
  pool : Pool
  executions : List (Proc RunResult)
  hints : List TaskWakeupHint

/-- What happens in a crew. The step of an execution shows the operation it performs. -/
inductive Deed where
  /-- A client submits the workflow for the workers. -/
  | submit
  /-- A step of the pool other than a hinted lookup. -/
  | pool (action : Action)
  /-- A worker looks up the task of a hint it has received and accepted. -/
  | hinted (worker : Worker) (hint : TaskWakeupHint)
  /-- A client runs or resumes the instance in process. -/
  | launch (executor : Executor)
  | execute (execution : Nat) (op : Option Op)

namespace Crew

variable [Sha256]

/-- Nothing is stored of the instance. -/
def start (instanceId : String) (now : Time) : Crew where
  pool :=
    { world := { toWorld := World.fresh instanceId now, claims := [], outputs := fun _ => none }
      processes := []
      requests := [] }
  executions := []
  hints := []

/-- The workers are notified of what is stored by now. -/
def announce (b : Backend) (κ : Crew) : Crew :=
  { κ with hints := κ.hints ++ (b.notify κ.pool.world).toList }

/-- Perform an operation and note it. -/
def noted (handle : (o : Op) → PoolWorld → o.Resp × PoolWorld) (o : Op)
    (w : PoolWorld × Option Op) : o.Resp × (PoolWorld × Option Op) :=
  ((handle o w.1).1, (handle o w.1).2, some o)

inductive Step (job : Submission) : Deed → Crew → Crew → Prop
  | submit (κ : Crew) (h : κ.pool.world.snapshot = none) :
      Step job .submit κ (announce job.backend { κ with
        pool := { κ.pool with
          world := job.backend.saveSnapshot (initialSnapshot κ.pool.world.instanceId
            job.definitionHash job.input job.continuation.firstTaskHint) κ.pool.world } })
  | pool (a : Action) (κ : Crew) (h : a.isHinted = false) :
      Step job (.pool a) κ (announce job.backend { κ with pool := job.step a κ.pool })
  | hinted (worker : Worker) (hint : TaskWakeupHint) (κ : Crew) (h : hint ∈ κ.hints)
      (hc : job.canHandleHint worker hint) :
      Step job (.hinted worker hint) κ
        { κ with pool := job.step (.hinted worker hint.taskId) κ.pool }
  | launch (ex : Executor) (κ : Crew) (h : ex ∈ job.executors) :
      Step job (.launch ex) κ
        { κ with executions := κ.executions ++ [job.launch ex κ.pool.world] }
  | execute (i : Nat) (p p' : Proc RunResult) (w' : PoolWorld) (o : Option Op) (κ : Crew)
      (hi : κ.executions[i]? = some p)
      (h : Prog.Step (noted (job.backend.handle job.callbacks)) p (κ.pool.world, none) p' (w', o)) :
      Step job (.execute i o) κ (announce job.backend { κ with
        pool := { κ.pool with world := w' }
        executions := κ.executions.set i p' })

/-- What a crew can get to by deeds that meet `C`. -/
def Reachable (job : Submission) (C : Deed → Crew → Prop) (instanceId : String) (now : Time) :
    Crew → Prop :=
  Path (Step job) C (start instanceId now)

end Crew

/-- A run of the pool without hints is one of the crew. -/
theorem Submission.Reachable.crew [Sha256] {job : Submission} {C : Action → Pool → Prop}
    {D : Deed → Crew → Prop} {instanceId : String} {now : Time} {σ : Pool}
    (h : job.Reachable C instanceId now σ) (hsubmit : D .submit (Crew.start instanceId now))
    (hC : ∀ a (κ : Crew), C a κ.pool → a.isHinted = false ∧ D (.pool a) κ) :
    ∃ κ, Crew.Reachable job D instanceId now κ ∧ κ.pool = σ ∧ κ.executions = [] := by
  induction h with
  | refl => exact ⟨_, .tail .submit .refl hsubmit (.submit _ rfl), rfl, rfl⟩
  | tail a _ ha ih =>
    obtain ⟨κ, hκ, rfl, hex⟩ := ih
    obtain ⟨hhint, hD⟩ := hC a κ ha
    exact ⟨_, .tail (.pool a) hκ hD (.pool a κ hhint), rfl, hex⟩

end Sayiir
