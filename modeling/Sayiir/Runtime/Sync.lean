import Sayiir.Runtime.Executors

/-!
# The sync executor

`execute_continuation_sync` runs a tree in process and without persistence: the
value of every node is a function of its input. Delays sleep and signal waits
are refused. It serves as the meaning of a tree without waits, against which the
checkpointing executors are compared.
-/

namespace Sayiir

/-- `backon`'s blocking retry: up to `maxTimes` further attempts after a failure. -/
def retrySync (execute : Unit → Except BoxError Bytes) : (maxTimes : Nat) → Except BoxError Bytes
  | 0 => execute ()
  | maxTimes + 1 => match execute () with
      | .ok output => .ok output
      | .error _ => retrySync execute maxTimes

/-- Retrying a function that always returns the same does not help. -/
theorem retrySync_const (r : Except BoxError Bytes) (n : Nat) : retrySync (fun _ => r) n = r := by
  induction n with
  | zero => rfl
  | succ n ih =>
    unfold retrySync
    cases r with
    | ok output => rfl
    | error e => exact ih

variable [Sha256]

/-- The iterations of a loop, from `iteration` on. -/
def syncIterations (codec : EnvelopeCodec) (cfg : LoopConfig)
    (body : Bytes → Except RuntimeError Bytes) :
    (remaining iteration : Nat) → Bytes → Except RuntimeError Bytes
  | 0, _, _ => .error cfg.exceeded
  | remaining + 1, iteration, input => do
      let output ← body input
      match resolveLoopIteration codec cfg output iteration with
      | .error e => .error e
      | .ok (.exit inner) => .ok inner
      | .ok (.next inner) => syncIterations codec cfg body remaining (iteration + 1) inner

/-- Route, wrap the output of the chosen branch. -/
def syncRoute (codec : EnvelopeCodec) (cb : Callbacks) (id : String)
    (routes : List (String × Except RuntimeError Bytes))
    (default : Option (Except RuntimeError Bytes)) (input : Bytes) :
    Except RuntimeError Bytes := do
  let keyBytes ← (cb.execute (keyFnId id) input).mapError .ofBoxError
  let (key, branch) ← Executor.resolveBranch .callback codec id keyBytes routes default
  let output ← branch
  (codec.encodeBranchEnvelope key output).mapError .ofBoxError

mutual

def executeContinuationSync (codec : EnvelopeCodec) (cb : Callbacks) :
    WorkflowContinuation → Bytes → Except RuntimeError Bytes
  | .task id fields next, input => do
      let output ← (retrySync (fun _ => cb.execute id input)
        ((fields.retryPolicy.map RetryPolicy.maxRetries).getD 0)).mapError .ofBoxError
      syncNext codec cb next output
  | .fork _ branches join, input => do
      let results ← syncBranches codec cb branches input
      let resolution ← resolveJoin codec join results
      match resolution with
      | .continue joinInput => syncNext codec cb join joinInput
      | .done output => .ok output
  | .delay _ _ next, input => syncNext codec cb next input
  | .awaitSignal id _ _ _, _ => .error (.workflow (.resumeError
      ("AwaitSignal '" ++ id ++ "' not supported in sync executor")))
  | .branch id _ branches default next, input => do
      let output ← syncRoute codec cb id (syncRoutes codec cb branches input)
        (syncDefault codec cb default input) input
      syncNext codec cb next output
  | .loop id body maxIterations onMax next, input => do
      let output ← syncIterations codec ⟨id, body, maxIterations, onMax⟩
        (fun i => executeContinuationSync codec cb body i) maxIterations 0 input
      syncNext codec cb next output
  | .childWorkflow _ child next, input => do
      let output ← executeContinuationSync codec cb child input
      syncNext codec cb next output

def syncNext (codec : EnvelopeCodec) (cb : Callbacks) :
    Option WorkflowContinuation → Bytes → Except RuntimeError Bytes
  | none, output => .ok output
  | some next, output => executeContinuationSync codec cb next output

def syncBranches (codec : EnvelopeCodec) (cb : Callbacks) :
    List WorkflowContinuation → Bytes → Except RuntimeError (List (String × Bytes))
  | [], _ => .ok []
  | c :: cs, input => do
      let output ← executeContinuationSync codec cb c input
      let results ← syncBranches codec cb cs input
      pure ((c.id, output) :: results)

def syncRoutes (codec : EnvelopeCodec) (cb : Callbacks) :
    List (String × WorkflowContinuation) → Bytes → List (String × Except RuntimeError Bytes)
  | [], _ => []
  | (key, c) :: cs, input =>
    (key, executeContinuationSync codec cb c input) :: syncRoutes codec cb cs input

def syncDefault (codec : EnvelopeCodec) (cb : Callbacks) :
    Option WorkflowContinuation → Bytes → Option (Except RuntimeError Bytes)
  | none, _ => none
  | some c, input => some (executeContinuationSync codec cb c input)

end

theorem syncRoutes_eq_map (codec : EnvelopeCodec) (cb : Callbacks)
    (rs : List (String × WorkflowContinuation)) (input : Bytes) :
    syncRoutes codec cb rs input
      = rs.map fun r => (r.1, executeContinuationSync codec cb r.2 input) := by
  induction rs with
  | nil => rfl
  | cons r rs ih => simp [syncRoutes, ih]

theorem syncDefault_eq_map (codec : EnvelopeCodec) (cb : Callbacks)
    (d : Option WorkflowContinuation) (input : Bytes) :
    syncDefault codec cb d input = d.map fun c => executeContinuationSync codec cb c input := by
  cases d <;> rfl

/-! ## The calls -/

/-- The calls of the iterations of a loop, from `iteration` on. -/
def iterationCalls (codec : EnvelopeCodec) (cfg : LoopConfig)
    (body : Bytes → Except RuntimeError Bytes) (calls : Bytes → List (String × Bytes)) :
    (remaining iteration : Nat) → Bytes → List (String × Bytes)
  | 0, _, _ => []
  | remaining + 1, iteration, input => calls input ++ match body input with
      | .error _ => []
      | .ok output => match resolveLoopIteration codec cfg output iteration with
          | .ok (.next inner) => iterationCalls codec cfg body calls remaining (iteration + 1) inner
          | _ => []

mutual

/-- The functions that `execute_continuation_sync` calls, with their inputs. A function
that is retried is listed once. -/
def syncCalls (codec : EnvelopeCodec) (cb : Callbacks) :
    WorkflowContinuation → Bytes → List (String × Bytes)
  | .task id _ next, input => (id, input) :: match cb.execute id input with
      | .error _ => []
      | .ok output => syncCallsNext codec cb next output
  | .fork _ branches join, input => syncCallsBranches codec cb branches input ++
      match syncBranches codec cb branches input >>= resolveJoin codec join with
      | .ok (.continue joinInput) => syncCallsNext codec cb join joinInput
      | _ => []
  | .delay _ _ next, input => syncCallsNext codec cb next input
  | .awaitSignal .., _ => []
  | .branch id _ branches default next, input =>
    (keyFnId id, input) :: ((match cb.execute (keyFnId id) input with
      | .error _ => []
      | .ok keyBytes => match Executor.resolveBranch .callback codec id keyBytes
          (syncCallsRoutes codec cb branches input) (syncCallsDefault codec cb default input) with
        | .error _ => []
        | .ok (_, calls) => calls) ++
    match syncRoute codec cb id (syncRoutes codec cb branches input)
        (syncDefault codec cb default input) input with
      | .error _ => []
      | .ok output => syncCallsNext codec cb next output)
  | .loop id body maxIterations onMax next, input =>
    let cfg : LoopConfig := ⟨id, body, maxIterations, onMax⟩
    iterationCalls codec cfg (fun i => executeContinuationSync codec cb body i)
      (fun i => syncCalls codec cb body i) maxIterations 0 input ++
    match syncIterations codec cfg (fun i => executeContinuationSync codec cb body i)
        maxIterations 0 input with
      | .error _ => []
      | .ok output => syncCallsNext codec cb next output
  | .childWorkflow _ child next, input => syncCalls codec cb child input ++
      match executeContinuationSync codec cb child input with
        | .error _ => []
        | .ok output => syncCallsNext codec cb next output

def syncCallsNext (codec : EnvelopeCodec) (cb : Callbacks) :
    Option WorkflowContinuation → Bytes → List (String × Bytes)
  | none, _ => []
  | some next, output => syncCalls codec cb next output

/-- A branch is executed when those before it have succeeded. -/
def syncCallsBranches (codec : EnvelopeCodec) (cb : Callbacks) :
    List WorkflowContinuation → Bytes → List (String × Bytes)
  | [], _ => []
  | c :: cs, input => syncCalls codec cb c input ++
      match executeContinuationSync codec cb c input with
        | .error _ => []
        | .ok _ => syncCallsBranches codec cb cs input

def syncCallsRoutes (codec : EnvelopeCodec) (cb : Callbacks) :
    List (String × WorkflowContinuation) → Bytes → List (String × List (String × Bytes))
  | [], _ => []
  | (key, c) :: cs, input =>
    (key, syncCalls codec cb c input) :: syncCallsRoutes codec cb cs input

def syncCallsDefault (codec : EnvelopeCodec) (cb : Callbacks) :
    Option WorkflowContinuation → Bytes → Option (List (String × Bytes))
  | none, _ => none
  | some c, input => some (syncCalls codec cb c input)

end

end Sayiir
