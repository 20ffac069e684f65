import Sayiir.Runtime.Helpers

/-!
# Loops and forks

The parts of the executors that combine the runs of subtrees, after
`execution/loop_runner.rs`, `execution/fork.rs` and `runner/distributed.rs`. They
are written over the programs of the subtrees, so that the callback executor
(branches one after the other) and the runner (branches as spawned tasks) share
everything except the function that runs the branches.
-/

namespace Sayiir

open Exec

/-! ## Results of branches -/

/-- What running a branch gives. -/
abbrev BranchResult := Except RuntimeError Bytes

/-- A branch to run: its name and its program. -/
abbrev BranchRun := String × Proc BranchResult

/-- `ForkBranchOutcome`. -/
structure ForkBranchOutcome where
  results : List (String × Bytes)
  maxWakeAt : Option Time

namespace ForkBranchOutcome

/-- Take the result of one branch: an output is collected, a wait moves the wake
time, any other error ends the fork. -/
def add (name : String) (r : BranchResult) (o : ForkBranchOutcome) :
    Except RuntimeError ForkBranchOutcome :=
  match r with
  | .ok output => .ok { o with results := o.results ++ [(name, output)] }
  | .error (.workflow (.waiting wakeAt)) =>
    .ok { o with maxWakeAt := some (o.maxWakeAt.elim wakeAt (max · wakeAt)) }
  | .error e => .error e

end ForkBranchOutcome

/-- Only an error other than a wait ends the collection of branch results early. -/
def endsFork : BranchResult → Bool
  | .ok _ | .error (.workflow (.waiting _)) => false
  | .error _ => true

/-- Collect results in the order given. -/
def collectResults : List (String × BranchResult) → ForkBranchOutcome →
    Except RuntimeError ForkBranchOutcome
  | [], outcome => .ok outcome
  | (name, r) :: rest, outcome => (outcome.add name r).bind (collectResults rest)

/-- Branches of a fork inside a branch, one after the other. -/
def executeNestedBranches : List BranchRun → Exec (List (String × Bytes))
  | [] => pure []
  | (name, run) :: rest => do
      let output ← liftExcept run
      let results ← executeNestedBranches rest
      pure ((name, output) :: results)

/-- Every error ends the wait for the branches of a nested fork. -/
def endsNestedFork : BranchResult → Bool
  | .ok _ => false
  | .error _ => true

/-- All outputs in the order given, or the first error. -/
def collectOutputs : List (String × BranchResult) → Except RuntimeError (List (String × Bytes))
  | [] => .ok []
  | (name, r) :: rest => r.bind fun output =>
    (collectOutputs rest).map fun results => (name, output) :: results

/-- Branches of a fork inside a branch, in parallel. -/
def executeNestedForkBranches (branches : List BranchRun) : Exec (List (String × Bytes)) := do
  let results ← lift (.par branches.length endsNestedFork (fun i => (branches.get i).2) .pure)
  ofExcept (collectOutputs (results.map fun r => ((branches.get r.1).1, r.2)))

/-! ## Joins -/

/-- `JoinResolution`. -/
inductive JoinResolution where
  | continue (input : Bytes)
  | done (output : Bytes)

/-- The input of the join, or the last result if there is none. -/
def resolveJoin (codec : EnvelopeCodec) (join : Option WorkflowContinuation)
    (results : List (String × Bytes)) : Except RuntimeError JoinResolution :=
  match join with
  | some _ => match codec.encodeNamedResults results with
      | .ok input => .ok (.continue input)
      | .error e => .error (.ofBoxError e)
  | none => match results.getLast? with
      | some r => .ok (.done r.2)
      | none => .error (.workflow .emptyFork)

/-! ## Loops -/

/-- `LoopConfig`. -/
structure LoopConfig where
  id : String
  body : WorkflowContinuation
  maxIterations : Nat
  onMax : MaxIterationsPolicy

/-- What a loop does after an iteration: `LoopExit` or `LoopNext`. -/
inductive LoopStep where
  | exit (output : Bytes)
  | next (input : Bytes)
  deriving DecidableEq

section hashed

variable [Sha256]

def LoopConfig.exceeded (cfg : LoopConfig) : RuntimeError :=
  .workflow (.maxIterationsExceeded (TaskId.sha256 cfg.id) cfg.maxIterations)

def resolveLoopIteration (codec : EnvelopeCodec) (cfg : LoopConfig) (output : Bytes)
    (iteration : Nat) : Except RuntimeError LoopStep :=
  match decodeLoopEnvelope codec output with
  | .error e => .error (.codec (.decodeFailed (TaskId.sha256 cfg.id) "LoopEnvelope" e))
  | .ok (.done, inner) => .ok (.exit inner)
  | .ok (.again, inner) =>
    if cfg.maxIterations ≤ iteration + 1 then
      match cfg.onMax with
      | .fail => .error cfg.exceeded
      | .exitWithLast => .ok (.exit inner)
    else .ok (.next inner)

/-- Forget the results of every node of a loop body. -/
def clearBodyTasks (body : WorkflowContinuation) (s : WorkflowSnapshot) : WorkflowSnapshot :=
  body.ids.foldl (fun s taskId => s.removeTaskResult taskId) s

/-- Record the output of a finished loop. -/
def onLoopExit (loopId : String) (output : Bytes) : Exec Unit := do
  modify fun s => (s.clearLoopIteration (TaskId.sha256 loopId)).markTaskCompleted
    (TaskId.sha256 loopId) output
  saveSnapshot

/-- Checkpoint the number of the next iteration. The main path also moves the position. -/
def onIterationProgress (trackPosition : Bool) (loopId : String) (nextIteration : Nat)
    (body : WorkflowContinuation) : Exec Unit := do
  modify (·.setLoopIteration (TaskId.sha256 loopId) nextIteration)
  when trackPosition (modify (·.updatePosition (.inLoop (TaskId.sha256 loopId) nextIteration
    (some (TaskId.sha256 body.firstTaskId)))))
  saveSnapshot

/-- Run the iterations `iteration, …, iteration + remaining - 1` of a loop. -/
def runIterations (codec : EnvelopeCodec) (cfg : LoopConfig) (trackPosition : Bool)
    (executeBody : Bytes → Exec Bytes) : (remaining iteration : Nat) → Bytes → Exec Bytes
  | 0, _, _ => throw cfg.exceeded
  | remaining + 1, iteration, input => do
      let output ← executeBody input
      modify (clearBodyTasks cfg.body)
      let step ← ofExcept (resolveLoopIteration codec cfg output iteration)
      match step with
      | .exit inner => do
          onLoopExit cfg.id inner
          pure inner
      | .next inner => do
          onIterationProgress trackPosition cfg.id (iteration + 1) cfg.body
          runIterations codec cfg trackPosition executeBody remaining (iteration + 1) inner

/-- Run a loop from the iteration the snapshot has reached. -/
def runLoop (codec : EnvelopeCodec) (cfg : LoopConfig) (trackPosition : Bool)
    (executeBody : Bytes → Exec Bytes) (input : Bytes) : Exec Bytes := do
  let s ← get
  let start := s.loopIteration (TaskId.sha256 cfg.id)
  runIterations codec cfg trackPosition executeBody (cfg.maxIterations - start) start input

/-! ## Fork branches on the main path -/

def buildCompletedBranches (results : List (String × Bytes)) : List (String × TaskResult) :=
  results.map fun r => (r.1, ⟨TaskId.sha256 r.1, r.2⟩)

/-- The results of all branches, if every one of them is recorded under its name. -/
def collectCachedBranches (names : List String) (s : WorkflowSnapshot) :
    Option (List (String × Bytes)) :=
  names.mapM fun name => (s.getTaskResultBytes (TaskId.sha256 name)).map (name, ·)

/-- Record the output of a branch under its name, here and in the store. -/
def recordBranchOutput (name : String) : BranchResult → Exec Unit
  | .ok output => do
      modify (·.markTaskCompleted (TaskId.sha256 name) output)
      saveTaskResult (TaskId.sha256 name) output
  | .error _ => pure ()

def executeForkBranchesSequential : List BranchRun → ForkBranchOutcome → Exec ForkBranchOutcome
  | [], outcome => pure outcome
  | (name, run) :: rest, outcome => do
      let s ← get
      match s.getTaskResultBytes (TaskId.sha256 name) with
      | some cached => do
          let outcome ← ofExcept (outcome.add name (.ok cached))
          executeForkBranchesSequential rest outcome
      | none => do
          let r ← lift run
          recordBranchOutput name r
          let outcome ← ofExcept (outcome.add name r)
          executeForkBranchesSequential rest outcome

/-- The branches with a recorded result come first; the others run in parallel
and follow in the order in which they finish. -/
def executeForkBranchesParallel (branches : List BranchRun) : Exec ForkBranchOutcome := do
  let s ← get
  let recorded := fun b : BranchRun => s.getTaskResultBytes (TaskId.sha256 b.1)
  let cached := branches.filterMap fun b => (recorded b).map (b.1, ·)
  let pending := branches.filter fun b => (recorded b).isNone
  let results ← lift (.par pending.length endsFork (fun i => (pending.get i).2) .pure)
  ofExcept (collectResults (results.map fun r => ((pending.get r.1).1, r.2)) ⟨cached, none⟩)

/-! ## Settling a fork -/

/-- Store the results of the finished branches one by one. -/
def saveTaskResults : List (String × Bytes) → Exec Unit
  | [] => pure ()
  | (name, output) :: rest => do
      saveTaskResult (TaskId.sha256 name) output
      saveTaskResults rest

/-- Park at a fork that has a waiting branch. -/
def parkAtFork {α : Type} (forkId : String) (results : List (String × Bytes)) (wakeAt : Time) :
    Exec α := do
  saveTaskResults results
  let updated ← loadSnapshot
  let updated := updated.updatePosition
    (.atFork (TaskId.sha256 forkId) (buildCompletedBranches results) wakeAt)
  storeSnapshot updated
  modify fun _ => updated
  throw (.workflow (.waiting wakeAt))

/-- Record the results under the names of the branches. -/
def markResults (results : List (String × Bytes)) (s : WorkflowSnapshot) : WorkflowSnapshot :=
  results.foldl (fun s r => s.markTaskCompleted (TaskId.sha256 r.1) r.2) s

/-- The position of a fork whose branches are done: at its join, if it has one. -/
def moveToJoin (results : List (String × Bytes)) (join : Option WorkflowContinuation)
    (s : WorkflowSnapshot) : WorkflowSnapshot :=
  match join with
  | none => s
  | some joinCont => s.updatePosition
      (.atJoin (TaskId.sha256 joinCont.firstTaskId) (buildCompletedBranches results))

def saveJoinPosition (results : List (String × Bytes)) (join : Option WorkflowContinuation) :
    Exec Unit := do
  modify fun s => moveToJoin results join (markResults results s)
  saveSnapshot

def settleForkOutcome (forkId : String) (outcome : ForkBranchOutcome)
    (join : Option WorkflowContinuation) : Exec (List (String × Bytes)) :=
  match outcome.maxWakeAt with
  | some wakeAt => parkAtFork forkId outcome.results wakeAt
  | none => do
      checkGuards none
      saveJoinPosition outcome.results join
      pure outcome.results

end hashed

end Sayiir
