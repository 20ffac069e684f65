import Sayiir.Runtime.Executors

/-!
# The async executor

`execute_continuation_async` runs a tree in process and without persistence, as
the sync executor does, but on a tokio runtime: tasks carry their functions and
their timeouts, and the branches of a fork on the main path are spawned as tasks
of their own. Inside a branch, a loop body or a child workflow the executor no
longer spawns; there it runs the branches of a fork in turn.

The world of these programs is the clock. A task takes the time its function
takes, or its timeout if that is shorter; waits between attempts and delays let
the clock run.
-/

namespace Sayiir

/-- The operations of the async executor. -/
inductive AsyncOp where
  /-- Run a task function, cut off after its timeout. -/
  | runTask (id : String) (input : Bytes) (timeout : Option Duration)
  | runKeyFn (branchId : String) (input : Bytes)
  | sleep (duration : Duration)
  /-- Wait before the next attempt of a task that has failed `failures` times. -/
  | backoff (policy : RetryPolicy) (failures : Nat)

@[reducible] def AsyncOp.Resp : AsyncOp → Type
  | .runTask .. => Except RuntimeError Bytes
  | .runKeyFn .. => Except BoxError Bytes
  | .sleep _ | .backoff .. => Unit

/-- Programs of the async executor. -/
abbrev AsyncProc := Prog AsyncOp AsyncOp.Resp BranchResult

/-- A branch to run: its name and its program. -/
abbrev AsyncRun := String × AsyncProc BranchResult

/-- Perform an operation at a time. `delay` is the backoff of the retry library. -/
def AsyncOp.handle [Sha256] (cb : Callbacks) (delay : RetryPolicy → Nat → Duration) :
    (o : AsyncOp) → Time → o.Resp × Time
  | .runTask id input none, now =>
    ((cb.execute id input).mapError .ofBoxError, now + cb.duration id input)
  | .runTask id input (some timeout), now =>
    if cb.duration id input ≤ timeout then
      ((cb.execute id input).mapError .ofBoxError, now + cb.duration id input)
    else (.error (.workflow (.taskTimedOut (TaskId.sha256 id) timeout)), now + timeout)
  | .runKeyFn branchId input, now =>
    (cb.execute (keyFnId branchId) input, now + cb.duration (keyFnId branchId) input)
  | .sleep duration, now => ((), now + duration)
  | .backoff policy failures, now => ((), now + delay policy failures)

namespace AsyncProc

/-- Go on with the value of a program, `?` in the source. -/
def andThen {α β : Type} (p : AsyncProc (Except RuntimeError α))
    (f : α → AsyncProc (Except RuntimeError β)) : AsyncProc (Except RuntimeError β) :=
  p.bind fun r => match r with
    | .ok a => f a
    | .error e => .pure (.error e)

def ofExcept {α : Type} (r : Except RuntimeError α) : AsyncProc (Except RuntimeError α) := .pure r

end AsyncProc

open AsyncProc

/-- The attempts of a task, with `remaining` retries left. -/
def retryAsync (policy : Option RetryPolicy) (attempt : AsyncProc BranchResult) :
    (remaining failures : Nat) → AsyncProc BranchResult
  | 0, _ => attempt
  | remaining + 1, failures => attempt.bind fun r => match r, policy with
      | .error _, some policy => .op (.backoff policy (failures + 1)) fun _ =>
        retryAsync (some policy) attempt remaining (failures + 1)
      | r, _ => .pure r

def runTaskWithRetry (id : String) (input : Bytes) (timeout : Option Duration)
    (retryPolicy : Option RetryPolicy) : AsyncProc BranchResult :=
  retryAsync retryPolicy (.op (.runTask id input timeout) .pure)
    ((retryPolicy.map RetryPolicy.maxRetries).getD 0) 0

/-! ## Forks -/

/-- The branches of a fork in turn. -/
def asyncBranchesInline : List AsyncRun → AsyncProc (Except RuntimeError (List (String × Bytes)))
  | [] => .pure (.ok [])
  | (name, run) :: rest => andThen run fun output =>
    andThen (asyncBranchesInline rest) fun results => .pure (.ok ((name, output) :: results))

/-- The branches of a fork as spawned tasks; their results are pushed as they finish. -/
def asyncBranchesSpawned (branches : List AsyncRun) :
    AsyncProc (Except RuntimeError (List (String × Bytes))) :=
  .par branches.length endsNestedFork (fun i => (branches.get i).2) fun results =>
    .pure (collectOutputs (results.map fun r => ((branches.get r.1).1, r.2)))

/-- Spawning pays only for more than one branch. -/
def asyncBranches (parallelBranches : Bool) (branches : List AsyncRun) :
    AsyncProc (Except RuntimeError (List (String × Bytes))) :=
  if parallelBranches && 1 < branches.length then asyncBranchesSpawned branches
  else asyncBranchesInline branches

/-! ## The executor -/

variable [Sha256]

/-- The iterations of a loop, from `iteration` on. -/
def asyncIterations (codec : EnvelopeCodec) (cfg : LoopConfig)
    (body : Bytes → AsyncProc BranchResult) :
    (remaining iteration : Nat) → Bytes → AsyncProc BranchResult
  | 0, _, _ => .pure (.error cfg.exceeded)
  | remaining + 1, iteration, input => andThen (body input) fun output =>
    match resolveLoopIteration codec cfg output iteration with
    | .error e => .pure (.error e)
    | .ok (.exit inner) => .pure (.ok inner)
    | .ok (.next inner) => asyncIterations codec cfg body remaining (iteration + 1) inner

/-- Route: ask the key function, run the branch it names, wrap its output. -/
def asyncRoute (codec : EnvelopeCodec) (id : String) (routes : List AsyncRun)
    (default : Option (AsyncProc BranchResult)) (input : Bytes) : AsyncProc BranchResult :=
  .op (.runKeyFn id input) fun keyBytes =>
    andThen (ofExcept (keyBytes.mapError .ofBoxError)) fun keyBytes =>
      match Executor.resolveBranch .callback codec id keyBytes routes default with
      | .error e => .pure (.error e)
      | .ok (key, branch) => andThen branch fun output =>
        ofExcept ((codec.encodeBranchEnvelope key output).mapError .ofBoxError)

mutual

/-- `execute_async_inner`. -/
def executeAsyncInner (codec : EnvelopeCodec) (parallelBranches : Bool) :
    WorkflowContinuation → Bytes → AsyncProc BranchResult
  | .task id fields next, input =>
    if fields.func then
      andThen (runTaskWithRetry id input fields.timeout fields.retryPolicy) fun output =>
        asyncNext codec parallelBranches next output
    else .pure (.error (.workflow (.taskNotImplemented id)))
  | .delay _ duration next, input => .op (.sleep duration) fun _ =>
    asyncNext codec parallelBranches next input
  | .awaitSignal id _ _ _, _ => .pure (.error (.workflow (.resumeError
      ("AwaitSignal '" ++ id ++ "' not supported in non-durable async executor"))))
  | .branch id keyFn branches default next, input =>
    if keyFn then
      andThen (asyncRoute codec id (asyncRoutes codec branches input)
        (asyncDefault codec default input) input) fun output =>
          asyncNext codec parallelBranches next output
    else .pure (.error (.workflow (.taskNotImplemented (keyFnId id))))
  | .loop id body maxIterations onMax next, input =>
    andThen (asyncIterations codec ⟨id, body, maxIterations, onMax⟩
      (fun i => executeAsyncInner codec false body i) maxIterations 0 input) fun output =>
        asyncNext codec parallelBranches next output
  | .childWorkflow _ child next, input =>
    andThen (executeAsyncInner codec false child input) fun output =>
      asyncNext codec parallelBranches next output
  | .fork _ branches join, input =>
    andThen (asyncBranches parallelBranches (asyncRuns codec branches input)) fun results =>
      andThen (ofExcept (resolveJoin codec join results)) fun resolution =>
        match resolution with
        | .continue joinInput => asyncNext codec parallelBranches join joinInput
        | .done output => .pure (.ok output)

def asyncNext (codec : EnvelopeCodec) (parallelBranches : Bool) :
    Option WorkflowContinuation → Bytes → AsyncProc BranchResult
  | none, output => .pure (.ok output)
  | some next, output => executeAsyncInner codec parallelBranches next output

/-- The branches of a fork under their names. -/
def asyncRuns (codec : EnvelopeCodec) : List WorkflowContinuation → Bytes → List AsyncRun
  | [], _ => []
  | c :: cs, input => (c.id, executeAsyncInner codec false c input) :: asyncRuns codec cs input

/-- The branches of a routing node under their keys. -/
def asyncRoutes (codec : EnvelopeCodec) :
    List (String × WorkflowContinuation) → Bytes → List AsyncRun
  | [], _ => []
  | (key, c) :: cs, input =>
    (key, executeAsyncInner codec false c input) :: asyncRoutes codec cs input

def asyncDefault (codec : EnvelopeCodec) :
    Option WorkflowContinuation → Bytes → Option (AsyncProc BranchResult)
  | none, _ => none
  | some c, input => some (executeAsyncInner codec false c input)

end

attribute [grind =] executeAsyncInner asyncNext asyncRuns asyncRoutes asyncDefault

def executeContinuationAsync (codec : EnvelopeCodec) (c : WorkflowContinuation) (input : Bytes) :
    AsyncProc BranchResult :=
  executeAsyncInner codec true c input

end Sayiir
