import Sayiir.Interaction.RelyGuarantee
import Sayiir.Persistence.InMemory

/-!
# Effects of the executors

The executors touch the world through a fixed set of operations: the methods of
the backend traits, the user's callbacks and the clock. Each is one atomic
operation of an interaction program; `Op.handle` performs it.

`Exec` is the monad the executors are written in. It carries the snapshot that
an executor holds as `&mut WorkflowSnapshot`: the snapshot lives in the process
and reaches the store only through `saveSnapshot`. An error ends the computation
but leaves the changes made to the snapshot so far.
-/

namespace Sayiir

/-- The operations of the executors. -/
inductive Op where
  | saveSnapshot (s : WorkflowSnapshot)
  | saveTaskResult (taskId : TaskId) (output : Bytes)
  | loadSnapshot
  | checkAndCancel (interruptedAtTask : Option TaskId)
  | checkAndPause
  | consumeEvent (signalName : String)
  /-- Run a task function to its end. -/
  | executeTask (id : String) (input : Bytes)
  /-- Run a task function next to the periodic check of a persisted deadline. -/
  | raceTask (id : String) (input : Bytes) (deadline : TaskDeadline)
  /-- Run the key function of a branch node. -/
  | executeKeyFn (branchId : String) (input : Bytes)
  | utcNow
  | sleepUntil (time : Time)
  /-- Ghost: a wait without a recorded result has been reached. -/
  | reached (id : String)

/-- What an operation answers. `raceTask` answers `none` when the deadline won. -/
@[reducible] def Op.Resp : Op → Type
  | .saveSnapshot _ | .saveTaskResult .. => Except BackendError Unit
  | .loadSnapshot => Except BackendError WorkflowSnapshot
  | .checkAndCancel _ | .checkAndPause => Except BackendError Bool
  | .consumeEvent _ => Except BackendError (Option Bytes)
  | .executeTask .. | .executeKeyFn .. => Except BoxError Bytes
  | .raceTask .. => Option (Except BoxError Bytes)
  | .utcNow => Time
  | .sleepUntil _ | .reached _ => Unit

/-- The user's code: deterministic functions of the registered name and the
input, and how long each call takes. -/
structure Callbacks where
  execute : String → Bytes → Except BoxError Bytes
  duration : String → Bytes → Duration

/-- The period of the deadline check: half of what remains, between 1 ms and 1 s. -/
def deadlineCheckInterval (deadline : TaskDeadline) (now : Time) : Duration :=
  min (max ((deadline.deadline - now) / 2) (Duration.fromMillis 1)) (Duration.fromMillis 1000)

/-- How long after `now` the first periodic check sees the deadline expired. -/
def firstExpiredCheck (deadline : TaskDeadline) (now : Time) : Duration :=
  let interval := deadlineCheckInterval deadline now
  interval * max 1 ((deadline.deadline - now + interval - 1) / interval)

namespace Op

/-- Call a task function and let the clock run for as long as it takes. -/
def callTask (cb : Callbacks) (id : String) (input : Bytes) (w : World) :
    Except BoxError Bytes × World :=
  (cb.execute id input,
    { w.log (.taskCalled id input w.clock) with clock := w.clock + cb.duration id input })

/-- Perform an operation. -/
def handle (cb : Callbacks) : (o : Op) → World → o.Resp × World
  | .saveSnapshot s, w => w.saveSnapshot s
  | .saveTaskResult taskId output, w => w.saveTaskResult taskId output
  | .loadSnapshot, w => w.loadSnapshot
  | .checkAndCancel interruptedAtTask, w => w.checkAndCancel interruptedAtTask
  | .checkAndPause, w => w.checkAndPause
  | .consumeEvent signalName, w => w.consumeEvent signalName
  | .executeTask id input, w => callTask cb id input w
  | .raceTask id input deadline, w =>
    if cb.duration id input ≤ firstExpiredCheck deadline w.clock then
      let r := callTask cb id input w
      (some r.1, r.2)
    else
      (none, { w.log (.taskCalled id input w.clock) with
        clock := w.clock + firstExpiredCheck deadline w.clock })
  | .executeKeyFn branchId input, w =>
    (cb.execute (keyFnId branchId) input,
      { w.log (.keyFnCalled branchId input w.clock) with
        clock := w.clock + cb.duration (keyFnId branchId) input })
  | .utcNow, w => (w.clock, w)
  | .sleepUntil time, w => ((), { w with clock := max w.clock time })
  | .reached id, w => ((), w.log (.reached id w.clock))

end Op

/-- Programs of the runtime. What a spawned branch returns is its output or its error. -/
abbrev Proc := Prog Op Op.Resp (Except RuntimeError Bytes)

/-- Computations with a snapshot in the hands of the process. -/
def Exec (α : Type) : Type 1 :=
  WorkflowSnapshot → Proc (Except RuntimeError α × WorkflowSnapshot)

namespace Exec

variable {α β : Type}

protected def pure (a : α) : Exec α := fun s => .pure (.ok a, s)

/-- What follows a computation: nothing, if it failed. -/
def andThen (f : α → Exec β) : Except RuntimeError α × WorkflowSnapshot →
    Proc (Except RuntimeError β × WorkflowSnapshot)
  | (.ok a, s) => f a s
  | (.error e, s) => .pure (.error e, s)

protected def bind (m : Exec α) (f : α → Exec β) : Exec β := fun s => (m s).bind (andThen f)

instance : Monad Exec where
  pure := Exec.pure
  bind := Exec.bind

def throw (e : RuntimeError) : Exec α := fun s => .pure (.error e, s)

def get : Exec WorkflowSnapshot := fun s => .pure (.ok s, s)

def modify (f : WorkflowSnapshot → WorkflowSnapshot) : Exec Unit := fun s => .pure (.ok (), f s)

/-- Do `m` only if `c`. -/
def when (c : Bool) (m : Exec Unit) : Exec Unit := if c then m else Exec.pure ()

/-- The outcome of a computation as a value. -/
def attempt (m : Exec α) : Exec (Except RuntimeError α) :=
  fun s => (m s).bind fun r => .pure (.ok r.1, r.2)

def ofExcept (r : Except RuntimeError α) : Exec α := fun s => .pure (r, s)

/-- Run a program that does not see the snapshot. -/
def lift (p : Proc α) : Exec α := fun s => p.bind fun a => .pure (.ok a, s)

/-- Run a program that may fail. -/
def liftExcept (p : Proc (Except RuntimeError α)) : Exec α :=
  fun s => p.bind fun r => .pure (r, s)

/-- A backend call followed by `?`. -/
def backend (p : Proc (Except BackendError α)) : Exec α :=
  fun s => p.bind fun r => .pure (r.mapError .backend, s)

/-- Store a snapshot, which need not be the one in hand. -/
def storeSnapshot (updated : WorkflowSnapshot) : Exec Unit :=
  backend (.op (.saveSnapshot updated) .pure)

def saveSnapshot : Exec Unit := fun s => storeSnapshot s s

def saveTaskResult (taskId : TaskId) (output : Bytes) : Exec Unit :=
  backend (.op (.saveTaskResult taskId output) .pure)

def loadSnapshot : Exec WorkflowSnapshot := backend (.op .loadSnapshot .pure)

def checkAndCancel (interruptedAtTask : Option TaskId) : Exec Bool :=
  backend (.op (.checkAndCancel interruptedAtTask) .pure)

def checkAndPause : Exec Bool := backend (.op .checkAndPause .pure)

def consumeEvent (signalName : String) : Exec (Option Bytes) :=
  backend (.op (.consumeEvent signalName) .pure)

/-- A user callback followed by `map_err(RuntimeError::from)?`. -/
def callback (p : Proc (Except BoxError Bytes)) : Exec Bytes :=
  fun s => p.bind fun r => .pure (r.mapError .ofBoxError, s)

def executeTask (id : String) (input : Bytes) : Exec Bytes :=
  callback (.op (.executeTask id input) .pure)

def executeKeyFn (branchId : String) (input : Bytes) : Exec Bytes :=
  callback (.op (.executeKeyFn branchId input) .pure)

def raceTask (id : String) (input : Bytes) (deadline : TaskDeadline) :
    Exec (Option (Except BoxError Bytes)) :=
  lift (.op (.raceTask id input deadline) .pure)

def utcNow : Exec Time := lift (.op .utcNow .pure)

def sleepUntil (time : Time) : Exec Unit := lift (.op (.sleepUntil time) .pure)

def reached (id : String) : Exec Unit := lift (.op (.reached id) .pure)

end Exec

end Sayiir
