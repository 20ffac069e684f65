import Sayiir.Runtime.Fork

/-!
# The checkpointing executors

`execute_continuation_with_checkpointing` (the callback executor of the language
bindings) and `CheckpointingRunner::execute_with_checkpointing`, each with the
executor it uses inside fork and routed branches. The two pairs run the same
algorithm; `Executor` lists the points where they differ.

* `executeMain` walks the main path: top-level chains, loop bodies and child
  workflows. It shares one snapshot with the caller, checks the guards before
  every node and parks the whole instance at a wait.
* `executeBranch` runs one fork branch or routed branch. It works on its own
  copy of the snapshot, loaded once at the start.
-/

namespace Sayiir

open Exec

/-- The priorities and tags the runner looks up by task id. -/
structure TaskIndex where
  priority : TaskId → Option UInt8
  tags : TaskId → List String

/-- The two in-process executors. -/
inductive Executor where
  /-- Tasks are dispatched by name to a callback; fork branches run in turn. -/
  | callback
  /-- Tasks carry their function; fork branches run as spawned tasks. -/
  | runner (index : TaskIndex)

namespace Executor

/-- The runner needs an implementation in the node itself. -/
def requireFunc (ex : Executor) (name : String) (func : Bool) : Exec Unit :=
  match ex with
  | .callback => pure ()
  | .runner _ => if func then pure () else throw (.workflow (.taskNotImplemented name))

/-- Run the branches of a fork inside a branch. -/
def executeNested (ex : Executor) (branches : List BranchRun) :
    Exec (List (String × Bytes)) :=
  match ex with
  | .callback => executeNestedBranches branches
  | .runner _ => executeNestedForkBranches branches

variable [Sha256]

/-- The hint stored when the main path advances to `next`. -/
def nextHint (ex : Executor) (next : WorkflowContinuation) : TaskHint :=
  match ex with
  | .callback => next.firstTaskHint
  | .runner index =>
    let id := TaskId.sha256 next.firstTaskId
    ⟨id, index.priority id, index.tags id⟩

/-- Run the branches of a fork on the main path. -/
def executeForkBranches (ex : Executor) (branches : List BranchRun) : Exec ForkBranchOutcome :=
  match ex with
  | .callback => executeForkBranchesSequential branches ⟨[], none⟩
  | .runner _ => executeForkBranchesParallel branches

/-- How an unreadable routing key is reported. -/
def keyError (ex : Executor) (branchId : String) (e : BoxError) : RuntimeError :=
  match ex with
  | .callback => .codec (.decodeFailed (TaskId.sha256 branchId) "String (branch key)" e)
  | .runner _ => .ofBoxError e

/-- Decode the routing key and choose the branch it names. -/
def resolveBranch.{u} {α : Type u} (ex : Executor) (codec : EnvelopeCodec) (branchId : String)
    (keyBytes : Bytes) (routes : List (String × α)) (default : Option α) :
    Except RuntimeError (String × α) :=
  match codec.decodeString keyBytes with
  | .error e => .error (ex.keyError branchId e)
  | .ok key => match (routes.lookup key).or default with
      | some chosen => .ok (key, chosen)
      | none => .error (.workflow (.branchKeyNotFound branchId key))

/-- Routing chooses one of the branches it is given. -/
theorem resolveBranch_mem.{u} {α : Type u} {ex : Executor} {codec : EnvelopeCodec} {id : String}
    {keyBytes : Bytes} {routes : List (String × α)} {default : Option α} {key : String} {chosen : α}
    (h : ex.resolveBranch codec id keyBytes routes default = .ok (key, chosen)) :
    (∃ b ∈ routes, b.2 = chosen) ∨ default = some chosen := by
  unfold resolveBranch at h
  split at h
  · cases h
  · split at h
    · rename_i hchosen
      cases h
      rcases Option.or_eq_some_iff.mp hchosen with hl | ⟨_, hd⟩
      · obtain ⟨l₁, l₂, rfl, _⟩ := List.lookup_eq_some_iff.mp hl
        exact Or.inl ⟨(key, chosen), by simp, rfl⟩
      · exact Or.inr hd
    · cases h

end Executor

/-- Run a branch on its own copy of the stored snapshot. -/
def onLoadedSnapshot (m : Exec Bytes) : Proc BranchResult :=
  .op .loadSnapshot fun r => match r with
    | .error e => .pure (.error (.backend e))
    | .ok s => (m s).bind fun r => .pure r.1

variable [Sha256]

/-! ## Steps shared by the main path and the branches -/

/-- The recorded output of a node, or what `compute` gives. -/
def skipIfRecorded (id : String) (compute : Exec Bytes) : Exec Bytes := do
  let s ← get
  match s.getTaskResultBytes (TaskId.sha256 id) with
  | some output => pure output
  | none => compute

/-- Record a result and save the whole snapshot. -/
def recordAndSave (id : String) (output : Bytes) : Exec Unit := do
  modify (·.markTaskCompleted (TaskId.sha256 id) output)
  saveSnapshot

/-- Route: ask the key function, run the branch it names, wrap and record its output. -/
def executeRoute (ex : Executor) (codec : EnvelopeCodec) (id : String) (routes : List BranchRun)
    (default : Option (Proc BranchResult)) (record : String → Bytes → Exec Unit)
    (input : Bytes) : Exec Bytes := do
  let keyBytes ← executeKeyFn id input
  match ex.resolveBranch codec id keyBytes routes default with
  | .error e => throw e
  | .ok (key, run) => do
      let output ← liftExcept run
      let envelope ← ofExcept ((codec.encodeBranchEnvelope key output).mapError .ofBoxError)
      record id envelope
      pure envelope

/-- Run a child and record its output. -/
def executeChild (id : String) (child : Exec Bytes) : Exec Bytes := do
  let output ← child
  recordAndSave id output
  pure output

/-! ## Branches -/

/-- How a branch records the output of a routed branch: the callback executor
stores the one result, the runner saves its whole copy. -/
def Executor.recordRouted (ex : Executor) (id : String) (output : Bytes) : Exec Unit :=
  match ex with
  | .callback => saveTaskResult (TaskId.sha256 id) output
  | .runner _ => recordAndSave id output

/-- A delay in a branch: its recorded output, or a park without a position. -/
def branchDelay (id : String) (duration : Duration) (input : Bytes) : Exec Bytes :=
  skipIfRecorded id do
    reached id
    let wakeAt ← computeWakeAt duration
    saveBranchParkCheckpoint (.delay (TaskId.sha256 id) wakeAt none input)

/-- A signal wait in a branch: its recorded payload, or a park that stores nothing. -/
def branchAwaitSignal (id signalName : String) (timeout : Option Duration) : Exec Bytes :=
  skipIfRecorded id do
    reached id
    let wakeAt ← computeSignalTimeout timeout
    saveBranchParkCheckpoint (.awaitingSignal (TaskId.sha256 id) signalName wakeAt none)

mutual

/-- The chain of a branch, on the branch's copy of the snapshot. -/
def branchChain (ex : Executor) (codec : EnvelopeCodec) :
    WorkflowContinuation → Bytes → Exec Bytes
  | .task id fields next, input => do
      ex.requireFunc id fields.func
      let output ← retryWithCheckpoint id fields.retryPolicy fields.timeout false
        (branchExecuteOrSkipTask id input fields.timeout)
      branchNext ex codec next output
  | .delay id duration next, input => do
      let output ← branchDelay id duration input
      branchNext ex codec next output
  | .awaitSignal id signalName timeout next, _ => do
      let output ← branchAwaitSignal id signalName timeout
      branchNext ex codec next output
  | .fork _ branches join, input => do
      let results ← ex.executeNested (branchRuns ex codec branches input)
      let resolution ← ofExcept (resolveJoin codec join results)
      match resolution with
      | .continue joinInput => branchNext ex codec join joinInput
      | .done output => pure output
  | .branch id keyFn branches default next, input => do
      ex.requireFunc (keyFnId id) keyFn
      let output ← skipIfRecorded id (executeRoute ex codec id
        (routeRuns ex codec branches input) (defaultRun ex codec default input)
        ex.recordRouted input)
      branchNext ex codec next output
  | .loop id body maxIterations onMax next, input => do
      let output ← skipIfRecorded id (runLoop codec ⟨id, body, maxIterations, onMax⟩ false
        (fun i => liftExcept (onLoadedSnapshot (branchChain ex codec body i))) input)
      branchNext ex codec next output
  | .childWorkflow id child next, input => do
      let output ← skipIfRecorded id (executeChild id
        (liftExcept (onLoadedSnapshot (branchChain ex codec child input))))
      branchNext ex codec next output

def branchNext (ex : Executor) (codec : EnvelopeCodec) :
    Option WorkflowContinuation → Bytes → Exec Bytes
  | none, output => pure output
  | some next, output => branchChain ex codec next output

/-- The branches of a fork under their names. -/
def branchRuns (ex : Executor) (codec : EnvelopeCodec) :
    List WorkflowContinuation → Bytes → List BranchRun
  | [], _ => []
  | c :: cs, input =>
    (c.id, onLoadedSnapshot (branchChain ex codec c input)) :: branchRuns ex codec cs input

/-- The branches of a routing node under their keys. -/
def routeRuns (ex : Executor) (codec : EnvelopeCodec) :
    List (String × WorkflowContinuation) → Bytes → List BranchRun
  | [], _ => []
  | (key, c) :: cs, input =>
    (key, onLoadedSnapshot (branchChain ex codec c input)) :: routeRuns ex codec cs input

def defaultRun (ex : Executor) (codec : EnvelopeCodec) :
    Option WorkflowContinuation → Bytes → Option (Proc BranchResult)
  | none, _ => none
  | some c, input => some (onLoadedSnapshot (branchChain ex codec c input))

end

/-- Run one branch of a fork or of a routing node. -/
def executeBranch (ex : Executor) (codec : EnvelopeCodec) (c : WorkflowContinuation)
    (input : Bytes) : Proc BranchResult :=
  onLoadedSnapshot (branchChain ex codec c input)

theorem branchRuns_eq_map (ex : Executor) (codec : EnvelopeCodec)
    (cs : List WorkflowContinuation) (input : Bytes) :
    branchRuns ex codec cs input = cs.map fun c => (c.id, executeBranch ex codec c input) := by
  induction cs with
  | nil => rfl
  | cons c cs ih => simp [branchRuns, ih, executeBranch]

theorem routeRuns_eq_map (ex : Executor) (codec : EnvelopeCodec)
    (rs : List (String × WorkflowContinuation)) (input : Bytes) :
    routeRuns ex codec rs input = rs.map fun r => (r.1, executeBranch ex codec r.2 input) := by
  induction rs with
  | nil => rfl
  | cons r rs ih => simp [routeRuns, ih, executeBranch]

theorem defaultRun_eq_map (ex : Executor) (codec : EnvelopeCodec)
    (d : Option WorkflowContinuation) (input : Bytes) :
    defaultRun ex codec d input = d.map fun c => executeBranch ex codec c input := by
  cases d <;> rfl

/-! ## The main path -/

/-- A delay on the main path. A recorded delay hands on its input. -/
def mainDelay (id : String) (duration : Duration) (next : Option WorkflowContinuation)
    (input : Bytes) : Exec Bytes := do
  checkGuards (some (TaskId.sha256 id))
  let s ← get
  match s.getTaskResult (TaskId.sha256 id) with
  | some _ => pure input
  | none => do
      reached id
      let wakeAt ← computeWakeAt duration
      saveParkCheckpoint (.delay (TaskId.sha256 id) wakeAt
        (next.map WorkflowContinuation.firstTaskHint) input)

/-- A signal wait on the main path: the recorded payload, the oldest buffered
event, or a park. -/
def mainAwaitSignal (ex : Executor) (id signalName : String) (timeout : Option Duration)
    (next : Option WorkflowContinuation) (input : Bytes) : Exec Bytes := do
  checkGuards (some (TaskId.sha256 id))
  skipIfRecorded id do
    reached id
    let event ← consumeEvent signalName
    match event with
    | some payload => do
        modify (·.markTaskCompleted (TaskId.sha256 id) payload)
        advanceTo (next.map ex.nextHint)
        saveSnapshot
        let s ← get
        pure ((s.getTaskResultBytes (TaskId.sha256 id)).getD input)
    | none => do
        let wakeAt ← computeSignalTimeout timeout
        saveParkCheckpoint (.awaitingSignal (TaskId.sha256 id) signalName wakeAt
          (next.map WorkflowContinuation.firstTaskHint))

/-- The results of a fork on the main path: recorded, or from running its branches. -/
def mainFork (ex : Executor) (id : String) (branches : List BranchRun)
    (join : Option WorkflowContinuation) : Exec (List (String × Bytes)) := do
  checkGuards none
  let s ← get
  match collectCachedBranches (branches.map Prod.fst) s with
  | some cached => pure cached
  | none => do
      let outcome ← ex.executeForkBranches branches
      settleForkOutcome id outcome join

mutual

/-- Walk the main path from a node on. -/
def executeMain (ex : Executor) (codec : EnvelopeCodec) :
    WorkflowContinuation → Bytes → Exec Bytes
  | .task id fields next, input => do
      ex.requireFunc id fields.func
      let output ← executeTaskStep id fields (next.map ex.nextHint) input
      mainNext ex codec next output
  | .delay id duration next, input => do
      let output ← mainDelay id duration next input
      mainNext ex codec next output
  | .awaitSignal id signalName timeout next, input => do
      let output ← mainAwaitSignal ex id signalName timeout next input
      mainNext ex codec next output
  | .fork id branches join, input => do
      let results ← mainFork ex id (branchRuns ex codec branches input) join
      let resolution ← ofExcept (resolveJoin codec join results)
      match resolution with
      | .continue joinInput => mainNext ex codec join joinInput
      | .done output => pure output
  | .branch id keyFn branches default next, input => do
      ex.requireFunc (keyFnId id) keyFn
      checkGuards (some (TaskId.sha256 id))
      let output ← skipIfRecorded id (executeRoute ex codec id
        (routeRuns ex codec branches input) (defaultRun ex codec default input)
        recordAndSave input)
      mainNext ex codec next output
  | .loop id body maxIterations onMax next, input => do
      checkGuards (some (TaskId.sha256 id))
      let output ← skipIfRecorded id (runLoop codec ⟨id, body, maxIterations, onMax⟩ true
        (fun i => executeMain ex codec body i) input)
      mainNext ex codec next output
  | .childWorkflow id child next, input => do
      checkGuards (some (TaskId.sha256 id))
      let output ← skipIfRecorded id (executeChild id (executeMain ex codec child input))
      mainNext ex codec next output

def mainNext (ex : Executor) (codec : EnvelopeCodec) :
    Option WorkflowContinuation → Bytes → Exec Bytes
  | none, output => pure output
  | some next, output => executeMain ex codec next output

end

/-- `execute_continuation_with_checkpointing`. -/
def executeContinuationWithCheckpointing (codec : EnvelopeCodec) :
    WorkflowContinuation → Bytes → Exec Bytes := executeMain .callback codec

/-- `execute_branch_with_checkpointing`. -/
def executeBranchWithCheckpointing (codec : EnvelopeCodec) :
    WorkflowContinuation → Bytes → Proc BranchResult := executeBranch .callback codec

/-- `CheckpointingRunner::execute_with_checkpointing`. -/
def executeWithCheckpointing (index : TaskIndex) (codec : EnvelopeCodec) :
    WorkflowContinuation → Bytes → Exec Bytes := executeMain (.runner index) codec

/-- `CheckpointingRunner::execute_branch_with_checkpoint`. -/
def executeBranchWithCheckpoint (index : TaskIndex) (codec : EnvelopeCodec) :
    WorkflowContinuation → Bytes → Proc BranchResult := executeBranch (.runner index) codec

end Sayiir
