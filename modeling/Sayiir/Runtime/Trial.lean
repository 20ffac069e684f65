import Sayiir.Runtime.Lifecycle

/-!
# Instances whose tasks fail now and then

A task that fails and succeeds when it is tried again is not a function of its input.
Here the user's code is a script: each operation that the processes of an instance perform
has callbacks of its own, so a task may fail or succeed at every call, after any time.

A `Ledger` is a world that numbers the operations and counts the calls of one task that
have returned an error. Processes are started, killed and started again on it as on the
world of any instance.
-/

namespace Sayiir

/-- How many errors of the task `t` an operation with this answer is: one if it is a call
of `t` that returns an error. -/
def errorOf (t : String) : (o : Op) → o.Resp → ℕ
  | .executeTask id _, .error _ => if id = t then 1 else 0
  | .raceTask id _ _, some (.error _) => if id = t then 1 else 0
  | _, _ => 0

/-! ## What a snapshot says about a task -/

section hashed

variable [Sha256]

namespace WorkflowSnapshot

/-- The result of the task is recorded. -/
def records (t : String) (s : WorkflowSnapshot) : Bool :=
  (s.getTaskResult (TaskId.sha256 t)).isSome

/-- The retry state of the task. -/
def retryOf (t : String) (s : WorkflowSnapshot) : Option TaskRetryState :=
  s.taskRetries.lookup (TaskId.sha256 t)

/-- The number of failed attempts that the retry state of the task counts. -/
def attemptsOf (t : String) (s : WorkflowSnapshot) : ℕ :=
  (s.retryOf t).elim 0 TaskRetryState.attempts

end WorkflowSnapshot

/-- When the next attempt of the task is due, as far as the store knows. Nothing is due
in an instance that has ended. -/
def World.due (t : String) (w : World) : Option Time :=
  match w.snapshot with
  | none => none
  | some s => if s.isTerminal then none else (s.retryOf t).map TaskRetryState.nextRetryAt

end hashed

/-! ## Ledgers -/

structure Ledger where
  world : World
  /-- The number of operations so far. -/
  steps : ℕ
  /-- The number of calls of the task that have returned an error. -/
  errors : ℕ

namespace Ledger

def fresh (instanceId : String) (now : Time) : Ledger := ⟨World.fresh instanceId now, 0, 0⟩

/-- Perform an operation with the callbacks that the script has for it. -/
def handle (script : ℕ → Callbacks) (t : String) (o : Op) (l : Ledger) : o.Resp × Ledger :=
  let r := o.handle (script l.steps) l.world
  (r.1, ⟨r.2, l.steps + 1, l.errors + errorOf t o r.1⟩)

/-- What happens around the processes. -/
inductive Env : Ledger → Ledger → Prop
  | world (l : Ledger) (w : World) : Sayiir.Env l.world w → Env l { l with world := w }

variable [Sha256]

/-- Every error of the task is in its stored retry state, unless the instance has ended or
the task has its result. -/
def Recorded (t : String) (l : Ledger) : Prop :=
  match l.world.snapshot with
  | none => l.errors = 0
  | some s => s.isTerminal ∨ s.records t ∨ l.errors ≤ s.attemptsOf t

/-- The next attempt of the task is not in the future. -/
def Due (t : String) (l : Ledger) : Prop := ∀ time ∈ l.world.due t, time ≤ l.world.clock

end Ledger

/-! ## Where a task is -/

/-- The node `t` with these fields is in the tree, and not in the body of a loop. The flag
tells whether it is in a branch of a fork or in a routed branch; if not, it is on the main
path of the tree. -/
inductive Places (t : String) (fields : TaskFields) : Bool → WorkflowContinuation → Prop
  | here (next : Option WorkflowContinuation) : Places t fields false (.task t fields next)
  | afterTask {b : Bool} {c : WorkflowContinuation} (id : String) (f : TaskFields) :
      Places t fields b c → Places t fields b (.task id f (some c))
  | afterDelay {b : Bool} {c : WorkflowContinuation} (id : String) (duration : Duration) :
      Places t fields b c → Places t fields b (.delay id duration (some c))
  | afterSignal {b : Bool} {c : WorkflowContinuation} (id signalName : String)
      (timeout : Option Duration) :
      Places t fields b c → Places t fields b (.awaitSignal id signalName timeout (some c))
  | afterFork {b : Bool} {c : WorkflowContinuation} (id : String)
      (branches : List WorkflowContinuation) :
      Places t fields b c → Places t fields b (.fork id branches (some c))
  | afterBranch {b : Bool} {c : WorkflowContinuation} (id : String) (keyFn : Bool)
      (branches : List (String × WorkflowContinuation)) (default : Option WorkflowContinuation) :
      Places t fields b c → Places t fields b (.branch id keyFn branches default (some c))
  | afterLoop {b : Bool} {c : WorkflowContinuation} (id : String) (body : WorkflowContinuation)
      (maxIterations : ℕ) (onMax : MaxIterationsPolicy) :
      Places t fields b c → Places t fields b (.loop id body maxIterations onMax (some c))
  | afterChild {b : Bool} {c : WorkflowContinuation} (id : String) (child : WorkflowContinuation) :
      Places t fields b c → Places t fields b (.childWorkflow id child (some c))
  | inChild {b : Bool} {c : WorkflowContinuation} (id : String)
      (next : Option WorkflowContinuation) :
      Places t fields b c → Places t fields b (.childWorkflow id c next)
  | inFork {b : Bool} {c : WorkflowContinuation} (id : String)
      {branches : List WorkflowContinuation} (join : Option WorkflowContinuation) :
      c ∈ branches → Places t fields b c → Places t fields true (.fork id branches join)
  | inRoute {b : Bool} {r : String × WorkflowContinuation} (id : String) (keyFn : Bool)
      {branches : List (String × WorkflowContinuation)}
      (default next : Option WorkflowContinuation) :
      r ∈ branches → Places t fields b r.2 →
        Places t fields true (.branch id keyFn branches default next)
  | inDefault {b : Bool} {c : WorkflowContinuation} (id : String) (keyFn : Bool)
      (branches : List (String × WorkflowContinuation)) (next : Option WorkflowContinuation) :
      Places t fields b c → Places t fields true (.branch id keyFn branches (some c) next)

/-! ## The instance as a machine -/

/-- A job whose user code is a script, with an eye on the task `t`. -/
structure Trial where
  job : Job
  script : ℕ → Callbacks
  task : String

namespace Trial

/-- A ledger with the process at work on it. -/
abbrev State := Machine Op Op.Resp BranchResult Ledger RunResult

variable [Sha256]

/-- The processes that may be started, on ledgers that satisfy `provided`. -/
def Launch (trial : Trial) (provided : Ledger → Prop) (l : Ledger) (p : Proc RunResult) : Prop :=
  provided l ∧ trial.job.Launch l.world p

/-- The states an instance can reach if processes are started only where `provided` holds. -/
def Reachable (trial : Trial) (provided : Ledger → Prop) (instanceId : String) (m : State) :
    Prop :=
  ∃ now, Machine.Reachable (Ledger.handle trial.script trial.task) Ledger.Env
    (trial.Launch provided) (Ledger.fresh instanceId now) m

end Trial

end Sayiir
