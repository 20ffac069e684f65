import Sayiir.Core.Durations
import Sayiir.Core.Workflow

/-!
# The builder of the language bindings

The bindings collect the steps of a workflow in a `FlowBuilder` and turn them into
a continuation at the end (`sayiir-core/src/continuation_builder.rs`). What a call
checks it checks at once; the conversion of seconds happens when the tree is
built, from the last step to the first, and can panic.
-/

namespace Sayiir

/-- `BuildError`, as far as the builders produce it. -/
inductive BuildError where
  | duplicateTaskId (id : String)
  | taskNotFound (id : String)
  | emptyBranch
  | emptyFork
  | missingBranches (branchId : String) (missingKeys : List String)
  | orphanBranches (branchId : String) (orphanKeys : List String)
  | invalidMaxIterations (id : String)
  | emptyWorkflow
  | invalidDuration (label : String)
  deriving DecidableEq, Repr

/-- `Priority`. -/
inductive Priority where
  | critical
  | high
  | normal
  | low
  | minimal
  deriving DecidableEq, Repr

def Priority.asU8 : Priority → UInt8
  | critical => 1
  | high => 2
  | normal => 3
  | low => 4
  | minimal => 5

/-- `TaskMetadata`, without the texts for display. -/
structure TaskMetadata where
  timeout : Option Duration
  retries : Option RetryPolicy
  tags : List String
  version : Option String
  priority : Option Priority
  deriving DecidableEq

/-- `TaskMetadata::default()`. -/
instance : Inhabited TaskMetadata := ⟨⟨none, none, [], none, none⟩⟩

/-- The fields of a node that carries this metadata. -/
def TaskMetadata.fields (func : Bool) (m : TaskMetadata) : TaskFields :=
  ⟨func, m.timeout, m.retries, m.version, m.priority.map Priority.asU8, m.tags⟩

namespace WorkflowContinuation

/-- A fork is named after its branches. -/
def deriveForkId (branchIds : List String) : String := "||".intercalate branchIds

/-- Insert a branch into a routing table, in place of the one with its key. -/
def insertRoute (key : String) (c : WorkflowContinuation)
    (routes : List (String × WorkflowContinuation)) : List (String × WorkflowContinuation) :=
  routes.filter (fun r => r.1 ≠ key) ++ [(key, c)]

end WorkflowContinuation

/-- `loop_node_id`. -/
def loopNodeId (counter : Nat) : String := s!"loop_{counter}"

/-- `validate_duration`. -/
def validateDuration (secs : Float64) (label : String) : Except BuildError Unit :=
  if !secs.isFinite || secs.isNegative then .error (.invalidDuration label) else .ok ()

/-! ## Steps -/

/-- `BuilderTask`. -/
inductive BuilderTask where
  | sequential (taskId : String) (metadata : TaskMetadata)
  | fork (branches : List (List (String × TaskMetadata))) (joinId : String)
      (joinMetadata : TaskMetadata)
  | delay (delayId : String) (durationSecs : Float64)
  | awaitSignal (signalId signalName : String) (timeoutSecs : Option Float64)
  | branch (branchId : String) (branches : List (String × List (String × TaskMetadata)))
      (default : Option (List (String × TaskMetadata)))
  | loop (loopId bodyTaskId : String) (bodyMetadata : TaskMetadata) (maxIterations : Nat)
      (onMax : MaxIterationsPolicy)
  | childWorkflow (childId : String) (childTasks : List BuilderTask)

/-- `build_chain`. -/
def buildChain : List (String × TaskMetadata) → Except BuildError WorkflowContinuation
  | [] => .error .emptyBranch
  | (id, metadata) :: chain =>
    .ok (.task id (metadata.fields false) (match buildChain chain with
      | .ok next => some next
      | .error _ => none))

/-- The branches of a fork, in order. -/
def buildBranches (branches : List (List (String × TaskMetadata))) :
    Except BuildError (List WorkflowContinuation) :=
  branches.mapM buildChain

/-- The routing table of a branch node. Of two branches with one key the later one counts. -/
def buildRoutes (branches : List (String × List (String × TaskMetadata))) :
    Except BuildError (List (String × WorkflowContinuation)) :=
  branches.foldlM (fun routes r => do
    let c ← buildChain r.2
    pure (WorkflowContinuation.insertRoute r.1 c routes)) []

/-- A build that may panic, and may be refused. -/
abbrev Building (α : Type) := ExceptT BuildError Panicking α

/-- The node of a child workflow with these steps, which must not be empty. -/
def childNode (childId : String) (current : Option WorkflowContinuation) :
    Option WorkflowContinuation → Building WorkflowContinuation
  | none => throw .emptyWorkflow
  | some child => pure (.childWorkflow childId child current)

mutual

/-- The node of one step, in front of what follows it. -/
def BuilderTask.node (current : Option WorkflowContinuation) :
    BuilderTask → Building WorkflowContinuation
  | .sequential taskId metadata => pure (.task taskId (metadata.fields false) current)
  | .delay delayId durationSecs => do
      let duration ← ExceptT.lift (Duration.fromSecsF64 durationSecs)
      pure (.delay delayId duration current)
  | .awaitSignal signalId signalName timeoutSecs => do
      let timeout ← ExceptT.lift (timeoutSecs.mapM Duration.fromSecsF64)
      pure (.awaitSignal signalId signalName timeout current)
  | .fork branches joinId joinMetadata => do
      let forkId := WorkflowContinuation.deriveForkId
        (branches.filterMap fun chain => chain.head?.map Prod.fst)
      let branches ← liftExcept (buildBranches branches)
      pure (.fork forkId branches (some (.task joinId (joinMetadata.fields false) current)))
  | .branch branchId branches default => do
      let branches ← liftExcept (buildRoutes branches)
      let default ← liftExcept (default.mapM buildChain)
      pure (.branch branchId false branches default current)
  | .loop loopId bodyTaskId bodyMetadata maxIterations onMax =>
    if maxIterations = 0 then throw (.invalidMaxIterations loopId)
    else pure (.loop loopId (.task bodyTaskId (bodyMetadata.fields false) none) maxIterations
      onMax current)
  | .childWorkflow childId childTasks => do
      let child ← BuilderTask.chain childTasks
      childNode childId current child
where
  liftExcept {α : Type} : Except BuildError α → Building α
    | .ok a => pure a
    | .error e => throw e

/-- The chain of the steps, built from the last one. -/
def BuilderTask.chain : List BuilderTask → Building (Option WorkflowContinuation)
  | [] => pure none
  | task :: tasks => do
      let current ← BuilderTask.chain tasks
      some <$> BuilderTask.node current task

end

/-- `build_continuation`. -/
def buildContinuation (tasks : List BuilderTask) : Building WorkflowContinuation := do
  match ← BuilderTask.chain tasks with
  | none => throw .emptyWorkflow
  | some c => pure c

/-! ## The builder -/

/-- `FlowBuilder`. -/
structure FlowBuilder where
  tasks : List BuilderTask
  lambdaCounter : Nat
  loopCounter : Nat
  branchCounter : Nat

namespace FlowBuilder

def new : FlowBuilder := ⟨[], 0, 0, 0⟩

/-- The next id for a task without a name. -/
def nextLambdaId (b : FlowBuilder) : String × FlowBuilder :=
  (s!"lambda_{b.lambdaCounter}", { b with lambdaCounter := b.lambdaCounter + 1 })

def push (task : BuilderTask) (b : FlowBuilder) : FlowBuilder :=
  { b with tasks := b.tasks ++ [task] }

def addSequential (taskId : String) (metadata : TaskMetadata) (b : FlowBuilder) : FlowBuilder :=
  b.push (.sequential taskId metadata)

def addFork (branches : List (List (String × TaskMetadata))) (joinId : String)
    (joinMetadata : TaskMetadata) (b : FlowBuilder) : Except BuildError FlowBuilder :=
  if branches.isEmpty then .error .emptyFork
  else if branches.any List.isEmpty then .error .emptyBranch
  else .ok (b.push (.fork branches joinId joinMetadata))

def addDelay (delayId : String) (durationSecs : Float64) (b : FlowBuilder) :
    Except BuildError FlowBuilder := do
  validateDuration durationSecs "delay duration"
  pure (b.push (.delay delayId durationSecs))

def addSignal (signalId signalName : String) (timeoutSecs : Option Float64) (b : FlowBuilder) :
    Except BuildError FlowBuilder := do
  match timeoutSecs with
  | some t => validateDuration t "timeout"
  | none => pure ()
  pure (b.push (.awaitSignal signalId signalName timeoutSecs))

def addLoop (bodyTaskId : String) (bodyMetadata : TaskMetadata) (maxIterations : Nat)
    (onMax : MaxIterationsPolicy) (b : FlowBuilder) : Except BuildError (String × FlowBuilder) :=
  let loopId := loopNodeId b.loopCounter
  if maxIterations = 0 then .error (.invalidMaxIterations loopId)
  else .ok (loopId, { b with loopCounter := b.loopCounter + 1 }.push
    (.loop loopId bodyTaskId bodyMetadata maxIterations onMax))

/-- The default branch is not checked. -/
def addBranch (branches : List (String × List (String × TaskMetadata)))
    (default : Option (List (String × TaskMetadata))) (b : FlowBuilder) :
    Except BuildError (String × FlowBuilder) :=
  if branches.isEmpty then .error .emptyBranch
  else if branches.any (·.2.isEmpty) then .error .emptyBranch
  else
    let branchId := s!"branch_{b.branchCounter}"
    .ok (branchId, { b with branchCounter := b.branchCounter + 1 }.push
      (.branch branchId branches default))

def addChildWorkflow (childId : String) (childTasks : List BuilderTask) (b : FlowBuilder) :
    FlowBuilder :=
  b.push (.childWorkflow childId childTasks)

def build (b : FlowBuilder) : Building WorkflowContinuation := buildContinuation b.tasks

/-- The builders that a sequence of accepted calls leads to. The steps of a child
workflow come from a builder of its own. -/
inductive Assembled : FlowBuilder → Prop
  | new : Assembled new
  | lambda {b : FlowBuilder} (h : Assembled b) : Assembled b.nextLambdaId.2
  | sequential {b : FlowBuilder} (h : Assembled b) (taskId : String) (metadata : TaskMetadata) :
      Assembled (b.addSequential taskId metadata)
  | fork {b b' : FlowBuilder} (h : Assembled b) (branches : List (List (String × TaskMetadata)))
      (joinId : String) (joinMetadata : TaskMetadata)
      (hok : b.addFork branches joinId joinMetadata = .ok b') : Assembled b'
  | delay {b b' : FlowBuilder} (h : Assembled b) (delayId : String) (durationSecs : Float64)
      (hok : b.addDelay delayId durationSecs = .ok b') : Assembled b'
  | signal {b b' : FlowBuilder} (h : Assembled b) (signalId signalName : String)
      (timeoutSecs : Option Float64) (hok : b.addSignal signalId signalName timeoutSecs = .ok b') :
      Assembled b'
  | loop {b b' : FlowBuilder} (h : Assembled b) (bodyTaskId : String)
      (bodyMetadata : TaskMetadata) (maxIterations : Nat) (onMax : MaxIterationsPolicy)
      (loopId : String)
      (hok : b.addLoop bodyTaskId bodyMetadata maxIterations onMax = .ok (loopId, b')) :
      Assembled b'
  | branch {b b' : FlowBuilder} (h : Assembled b)
      (branches : List (String × List (String × TaskMetadata)))
      (default : Option (List (String × TaskMetadata))) (branchId : String)
      (hok : b.addBranch branches default = .ok (branchId, b')) : Assembled b'
  | child {b c : FlowBuilder} (h : Assembled b) (hc : Assembled c) (childId : String) :
      Assembled (b.addChildWorkflow childId c.tasks)

end FlowBuilder

end Sayiir
