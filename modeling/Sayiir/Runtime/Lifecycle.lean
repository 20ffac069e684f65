import Sayiir.Interaction.Recovery
import Sayiir.Runtime.Executors

/-!
# Runs of an instance

Starting, resuming and finalizing a workflow instance, after
`execution/lifecycle.rs` and `CheckpointingRunner::{run, resume}`. Both
executors are driven the same way: prepare a snapshot and an input, execute from
the root of the tree, turn the outcome into a stored state and a status.

An instance is a `Machine` whose processes are calls of `run` and `resume`. They
may be killed at any point; in between, time passes, events arrive, and pauses
and cancellations are requested.
-/

namespace Sayiir

open Exec

/-- What a caller of `run` or `resume` gets back. -/
abbrev RunResult := Except RuntimeError (WorkflowStatus × Option Bytes)

/-- The input of a resumed execution: the output of the task that completed last,
or the initial input if nothing has completed. -/
def getResumeInput (s : WorkflowSnapshot) : Except RuntimeError Bytes :=
  match s.state with
  | .inProgress _ completed _ =>
    if completed.entries.isEmpty then
      match s.initialInput with
      | some input => .ok input
      | none => .error (.workflow (.resumeError
          "no completed tasks and initial input not stored"))
    else match s.getLastTaskOutput with
      | some output => .ok output
      | none => .error (.workflow (.resumeError "no task results available"))
  | _ => .error (.workflow (.resumeError "workflow not in progress"))

/-- The node at which a snapshot is parked, as reported with a wait. -/
def parkedAt (s : WorkflowSnapshot) : TaskId :=
  match s.state with
  | .inProgress (.atDelay delayId _ _ _) _ _ => delayId
  | .inProgress (.atFork forkId _ _) _ _ => forkId
  | _ => default

/-- Read the stored snapshot for the details of a cancellation or a pause. -/
def reloadDetails (details : WorkflowSnapshot → Option String × Option String) :
    Exec (Option String × Option String) := do
  let r ← attempt loadSnapshot
  match r with
  | .ok s => pure (details s)
  | .error _ => pure (none, none)

/-- Store the outcome of an execution and report it. -/
def finalizeExecution (result : Except RuntimeError Bytes) :
    Exec (WorkflowStatus × Option Bytes) :=
  match result with
  | .ok output => do
      modify (·.markCompleted output)
      saveSnapshot
      pure (.completed, some output)
  | .error (.workflow (.waiting wakeAt)) => do
      let s ← get
      pure (.waiting wakeAt (parkedAt s), none)
  | .error (.workflow (.awaitingSignal signalId signalName wakeAt)) =>
    pure (.awaitingSignal signalId signalName wakeAt, none)
  | .error (.workflow (.cancelled _ _)) => do
      let details ← reloadDetails WorkflowSnapshot.cancellationDetails
      pure (.cancelled details.1 details.2, none)
  | .error (.workflow (.paused _ _)) => do
      let details ← reloadDetails WorkflowSnapshot.pauseDetails
      pure (.paused details.1 details.2, none)
  | .error e => do
      modify (·.markFailed e)
      let _ ← attempt saveSnapshot
      pure (.failed e, none)

/-! ## Preparing a run -/

/-- The first snapshot of an instance. -/
def initialSnapshot (instanceId : String) (definitionHash : DefinitionHash) (input : Bytes)
    (firstTask : TaskHint) : WorkflowSnapshot :=
  ((WorkflowSnapshot.withInitialInput instanceId definitionHash input).updatePosition
    (.atTask firstTask.id)).setTaskHint firstTask

/-! ## Preparing to resume -/

/-- `ResumeOutcome`; the snapshot of a ready instance is the one in hand. -/
inductive ResumeOutcome where
  | ready (input : Bytes)
  | alreadyTerminal (status : WorkflowStatus)
  | paused (status : WorkflowStatus)
  | notReady (status : WorkflowStatus)

/-- Check a loaded snapshot, resolve its parked position and find the input to
resume with. -/
def prepareResume (definitionHash : DefinitionHash) : Exec ResumeOutcome := do
  let s ← get
  if s.definitionHash ≠ definitionHash then
    throw (.workflow (.definitionMismatch definitionHash s.definitionHash))
  else match s.state, s.asTerminalStatus with
    | .paused .., some status => pure (.paused status)
    | _, some status => pure (.alreadyTerminal status)
    | _, none => do
        let parked ← (ResumeParkedPosition.extract s).resolve
        match parked with
        | some status => pure (.notReady status)
        | none => do
            let s ← get
            let input ← ofExcept (getResumeInput s)
            pure (.ready input)

/-! ## Processes -/

section hashed

variable [Sha256]

/-- Execute from the root with the given input. -/
def executeAndFinalize (ex : Executor) (codec : EnvelopeCodec) (c : WorkflowContinuation)
    (input : Bytes) : Exec (WorkflowStatus × Option Bytes) := do
  let result ← attempt (executeMain ex codec c input)
  finalizeExecution result

/-- Start an instance that does not exist yet. -/
def run (ex : Executor) (codec : EnvelopeCodec) (c : WorkflowContinuation) (instanceId : String)
    (definitionHash : DefinitionHash) (input : Bytes) : Proc RunResult :=
  let m : Exec (WorkflowStatus × Option Bytes) := do
    saveSnapshot
    executeAndFinalize ex codec c input
  (m (initialSnapshot instanceId definitionHash input c.firstTaskHint)).bind fun r => .pure r.1

/-- Continue a loaded instance. -/
def resumeLoaded (ex : Executor) (codec : EnvelopeCodec) (c : WorkflowContinuation)
    (definitionHash : DefinitionHash) : Exec (WorkflowStatus × Option Bytes) := do
  let outcome ← prepareResume definitionHash
  match outcome with
  | .ready input => executeAndFinalize ex codec c input
  | .alreadyTerminal status | .paused status | .notReady status => pure (status, none)

/-- Continue a stored instance. -/
def resume (ex : Executor) (codec : EnvelopeCodec) (c : WorkflowContinuation)
    (definitionHash : DefinitionHash) : Proc RunResult :=
  .op .loadSnapshot fun r => match r with
    | .error e => .pure (.error (.backend e))
    | .ok s => (resumeLoaded ex codec c definitionHash s).bind fun r => .pure r.1

end hashed

/-! ## The instance as a machine -/

/-- What happens to an instance besides the work of its processes. -/
inductive Env : World → World → Prop
  | tick (w : World) (time : Time) : w.clock ≤ time → Env w { w with clock := time }
  | sendEvent (w : World) (signalName : String) (payload : Bytes) :
      Env w (w.sendEvent signalName payload)
  | storeCancel (w : World) (request : SignalRequest) : Env w (w.storeCancel request).2
  | storePause (w : World) (request : SignalRequest) : Env w (w.storePause request).2
  | unpause (w : World) : Env w w.unpause.2

/-- What the environment can do to an instance: it moves the clock, buffers an
event, leaves a request, or takes a pause back. -/
theorem Env.cases {w w' : World} (h : Env w w') :
    (∃ time, w.clock ≤ time ∧ w' = { w with clock := time })
      ∨ (∃ signalName payload, w' = w.sendEvent signalName payload)
      ∨ (∃ cancel pause, w' = { w with cancelSignal := cancel, pauseSignal := pause })
      ∨ ∃ s, w.snapshot = some s ∧ w' = { w with snapshot := some s.markUnpaused } := by
  cases h with
  | tick time ht => exact Or.inl ⟨time, ht, rfl⟩
  | sendEvent signalName payload => exact Or.inr (Or.inl ⟨signalName, payload, rfl⟩)
  | storeCancel request =>
    rcases w.storeCancel_cases request with h | h
    · exact Or.inr (Or.inr (Or.inl ⟨w.cancelSignal, w.pauseSignal, h⟩))
    · exact Or.inr (Or.inr (Or.inl ⟨some request, w.pauseSignal, h⟩))
  | storePause request =>
    rcases w.storePause_cases request with h | h
    · exact Or.inr (Or.inr (Or.inl ⟨w.cancelSignal, w.pauseSignal, h⟩))
    · exact Or.inr (Or.inr (Or.inl ⟨w.cancelSignal, some request, h⟩))
  | unpause =>
    rcases w.unpause_cases with h | ⟨s, hs, h⟩
    · exact Or.inr (Or.inr (Or.inl ⟨w.cancelSignal, w.pauseSignal, h⟩))
    · exact Or.inr (Or.inr (Or.inr ⟨s, hs, h⟩))

/-- A workflow definition under execution. -/
structure Job where
  executor : Executor
  codec : EnvelopeCodec
  callbacks : Callbacks
  continuation : WorkflowContinuation
  definitionHash : DefinitionHash
  input : Bytes

namespace Job

/-- A world with the process at work on it. -/
abbrev State := Machine Op Op.Resp BranchResult World RunResult

variable [Sha256]

/-- `run` on an instance that does not exist, `resume` on one that does. -/
inductive Launch (job : Job) : World → Proc RunResult → Prop
  | run (w : World) : w.snapshot = none → Launch job w (Sayiir.run job.executor job.codec
      job.continuation w.instanceId job.definitionHash job.input)
  | resume (w : World) : w.snapshot ≠ none → Launch job w (Sayiir.resume job.executor job.codec
      job.continuation job.definitionHash)

/-- The states an instance of the job can reach, whatever happens around it. -/
def Reachable (job : Job) (instanceId : String) (m : State) : Prop :=
  ∃ now, Machine.Reachable (Op.handle job.callbacks) Env job.Launch
    (World.fresh instanceId now) m

/-- The worlds after each operation of the first process, run without a break. -/
def worlds (job : Job) (instanceId : String) : List World :=
  (Sayiir.run job.executor job.codec job.continuation instanceId job.definitionHash
    job.input).worlds (Op.handle job.callbacks) (World.fresh instanceId 0)

/-- The first process may be killed after any of its operations. -/
theorem reachable_crash {job : Job} {instanceId : String} {w : World}
    (hw : w ∈ job.worlds instanceId) : job.Reachable instanceId ⟨w, none, none⟩ :=
  ⟨0, Machine.Reachable.crash .refl rfl (.run _ rfl) hw⟩

end Job

end Sayiir
