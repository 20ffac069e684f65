import Sayiir.Runtime.Crew
import Sayiir.Runtime.Submit

/-!
# Terminating an existing instance

A submission with the policy `TerminateExisting` deletes the snapshot it finds, takes
back the requests and stores the first snapshot of a new run under the same id. What
was at work on the old run does not notice: processes of workers and executions in
process go on where they were, each on the workflow it was started for.

A `Takeover` is the new run with everything that works on it, the submission that
starts it, and whatever is left of the old runs. A process of a worker that has not
read anything yet belongs to the new run.
-/

namespace Sayiir

open Backend

/-- The process of this phase has nothing in its hands that it has read. -/
def Phase.isUnread : Phase → Bool
  | .polling | .collecting | .selecting | .done => true
  | _ => false

structure Takeover where
  /-- The world and the workers and clients of the new run. -/
  pool : Pool
  /-- The executions of the new run. -/
  executions : List (Proc RunResult)
  /-- What the workers still do for old runs, each with its workflow. -/
  formerProcesses : List (Submission × Process)
  /-- The executions of old runs, each with its task functions. -/
  formerExecutions : List (Callbacks × Proc RunResult)
  call : SubmitCall

/-- What happens around a takeover. -/
inductive Takeover.Deed where
  /-- The next backend call of the submission. -/
  | submission
  /-- A step of the pool that works on the new run. -/
  | pool (action : Action)
  /-- `run`: the submission has returned, and the execution starts. -/
  | launch (executor : Executor)
  /-- A client resumes the instance in process. -/
  | resume (executor : Executor)
  | execute (execution : Nat)
  /-- A step of a process of an old run. -/
  | formerWork (process : Nat) (choice : Choice)
  /-- A step of an execution of an old run, and the operation it performs. -/
  | formerExecute (execution : Nat) (op : Option Op)

/-- Something that was started under an old run takes a step. -/
def Takeover.Deed.isFormer : Takeover.Deed → Bool
  | .formerWork .. | .formerExecute .. => true
  | _ => false

namespace Submission

variable [Sha256] (job : Submission)

/-- The submission of the new run, about to make the call of this phase. -/
def terminating (phase : SubmitPhase) : SubmitCall :=
  ⟨.terminateExisting, job.definitionHash, job.input, job.continuation.firstTaskHint, phase⟩

/-- The execution of a run whose first snapshot has just been stored. -/
def runPrepared (instanceId : String) (ex : Executor) : Proc RunResult :=
  (executeAndFinalize ex job.codec job.continuation job.input
    (job.backend.afterSave (initialSnapshot instanceId job.definitionHash job.input
      job.continuation.firstTaskHint))).bind fun r => .pure r.1

end Submission

namespace Takeover

/-- The submission makes its next call. -/
def submit (b : Backend) (κ : Takeover) : Takeover :=
  let r := κ.call.advance b κ.pool.world
  { κ with pool := { κ.pool with world := r.2 }, call := { κ.call with phase := r.1 } }

variable [Sha256] (job : Submission)

inductive Step : Deed → Takeover → Takeover → Prop
  | submission (κ : Takeover) : Step .submission κ (κ.submit job.backend)
  | pool (a : Action) (κ : Takeover) : Step (.pool a) κ { κ with pool := job.step a κ.pool }
  | launch (ex : Executor) (κ : Takeover)
      (h : κ.call.phase = .returned (.ok (.inProgress, none)) true) :
      Step (.launch ex) κ
        { κ with executions := κ.executions ++ [job.runPrepared κ.pool.world.instanceId ex] }
  | resume (ex : Executor) (κ : Takeover) (h : κ.pool.world.snapshot.isSome) :
      Step (.resume ex) κ { κ with executions := κ.executions ++
        [Sayiir.resume ex job.codec job.continuation job.definitionHash] }
  | execute (i : Nat) (p p' : Proc RunResult) (w' : PoolWorld) (κ : Takeover)
      (hi : κ.executions[i]? = some p)
      (h : Prog.Step (job.backend.handle job.callbacks) p κ.pool.world p' w') :
      Step (.execute i) κ
        { κ with pool := { κ.pool with world := w' }, executions := κ.executions.set i p' }
  | formerWork (i : Nat) (choice : Choice) (former : Submission) (p : Process) (κ : Takeover)
      (hi : κ.formerProcesses[i]? = some (former, p)) :
      Step (.formerWork i choice) κ { κ with
        pool := { κ.pool with world := (former.workStep choice p κ.pool.world).2 }
        formerProcesses := κ.formerProcesses.set i
          (former, (former.workStep choice p κ.pool.world).1) }
  | formerExecute (i : Nat) (cb : Callbacks) (p p' : Proc RunResult) (w' : PoolWorld)
      (o : Option Op) (κ : Takeover) (hi : κ.formerExecutions[i]? = some (cb, p))
      (h : Prog.Step (Crew.noted (job.backend.handle cb)) p (κ.pool.world, none) p' (w', o)) :
      Step (.formerExecute i o) κ { κ with
        pool := { κ.pool with world := w' }
        formerExecutions := κ.formerExecutions.set i (cb, p') }

/-- The submission has looked for an instance and is about to delete the one it found,
or has found none and is about to see that. Everything else is left from before. -/
def before (w : PoolWorld) (requests : List (SignalKind × SignalRequest)) (polls : List Process)
    (processes : List (Submission × Process)) (executions : List (Callbacks × Proc RunResult)) :
    Takeover where
  pool := ⟨w, polls, requests⟩
  executions := []
  formerProcesses := processes
  formerExecutions := executions
  call := job.terminating (if w.snapshot.isSome then .deleting else .terminating)

/-- An id that has never been used: nothing is stored, and the submission has just seen
that. -/
def neverUsed (instanceId : String) (now : Time) (polls : List Process) : Takeover where
  pool := ⟨{ toWorld := World.fresh instanceId now, claims := [], outputs := fun _ => none },
    polls, []⟩
  executions := []
  formerProcesses := []
  formerExecutions := []
  call := job.terminating .creating

end Takeover

end Sayiir
