import Sayiir.Core.FlowBuilder
import Sayiir.Core.Serializable
import Mathlib.Data.List.AList

/-!
# The workflow builder

`WorkflowBuilder` of `sayiir-core/src/builder.rs`, with the builders it hands out
for forks and for routes, and the task registry. The phases that the source keeps
apart by types are values here: a builder without a registry has `registry = none`,
and one to which nothing was added yet has `continuation = none`. A call that the
types forbid there finds nothing registered.

A task function is present or absent; what it computes plays no part in building.
The closures that take a collector or a sub-builder are the lists of the calls they
make on it.
-/

namespace Sayiir

/-! ## The registry -/

/-- `TaskRegistry`: the registered ids with their metadata. -/
abbrev TaskRegistry := AList fun _ : String => TaskMetadata

namespace TaskRegistry

/-- Entries that are there already are kept. -/
def merge (registry other : TaskRegistry) : TaskRegistry := registry ∪ other

def setMetadata (id : String) (metadata : TaskMetadata) (registry : TaskRegistry) :
    TaskRegistry :=
  if (registry.lookup id).isSome then registry.insert id metadata else registry

def contains (id : String) (registry : TaskRegistry) : Bool := (registry.lookup id).isSome

end TaskRegistry

/-- A struct made by the `#[task]` macro: its id and its metadata. -/
structure RegisterableTask where
  taskId : String
  metadata : TaskMetadata
  deriving DecidableEq

/-! ## Changing a tree -/

/-- The first name that stands in the list a second time. -/
def firstDuplicate (seen : List String) : List String → Option String
  | [] => none
  | id :: ids => if id ∈ seen then some id else firstDuplicate (id :: seen) ids

namespace WorkflowContinuation

def findDuplicateId (c : WorkflowContinuation) : Option String := firstDuplicate [] c.taskIds

mutual

def appendToChain (node : WorkflowContinuation) : WorkflowContinuation → WorkflowContinuation
  | .task id fields next => .task id fields (some (appendNext node next))
  | .fork id branches join => .fork id branches (some (appendNext node join))
  | .delay id duration next => .delay id duration (some (appendNext node next))
  | .awaitSignal id signalName timeout next =>
    .awaitSignal id signalName timeout (some (appendNext node next))
  | .branch id keyFn branches default next =>
    .branch id keyFn branches default (some (appendNext node next))
  | .loop id body maxIterations onMax next =>
    .loop id body maxIterations onMax (some (appendNext node next))
  | .childWorkflow id child next => .childWorkflow id child (some (appendNext node next))

/-- `ContinuationState::append`: behind an empty chain the node is all there is. -/
def appendNext (node : WorkflowContinuation) : Option WorkflowContinuation → WorkflowContinuation
  | none => node
  | some next => appendToChain node next

end

attribute [grind =] appendToChain appendNext

section update

variable [Sha256] (targetId : TaskId) (f : TaskFields → TaskFields)

mutual

/-- `find_task_mut` with a change to the node it finds; nothing if it finds none. Fork
branches and child workflows are shared and not searched. -/
def updateTask : WorkflowContinuation → Option WorkflowContinuation
  | .task id fields next =>
    if TaskId.sha256 id = targetId then some (.task id (f fields) next)
    else (updateNext next).map (.task id fields ∘ some)
  | .delay id duration next => (updateNext next).map (.delay id duration ∘ some)
  | .awaitSignal id signalName timeout next =>
    (updateNext next).map (.awaitSignal id signalName timeout ∘ some)
  | .fork id branches join => (updateNext join).map (.fork id branches ∘ some)
  | .branch id keyFn branches default next =>
    match updateRoutes branches with
    | some branches => some (.branch id keyFn branches default next)
    | none =>
      match updateNext default with
      | some default => some (.branch id keyFn branches (some default) next)
      | none => (updateNext next).map (.branch id keyFn branches default ∘ some)
  | .loop id body maxIterations onMax next =>
    match updateTask body with
    | some body => some (.loop id body maxIterations onMax next)
    | none => (updateNext next).map (.loop id body maxIterations onMax ∘ some)
  | .childWorkflow id child next => (updateNext next).map (.childWorkflow id child ∘ some)

def updateNext : Option WorkflowContinuation → Option WorkflowContinuation
  | none => none
  | some next => updateTask next

def updateRoutes :
    List (String × WorkflowContinuation) → Option (List (String × WorkflowContinuation))
  | [] => none
  | (key, c) :: rs =>
    match updateTask c with
    | some c => some ((key, c) :: rs)
    | none => (updateRoutes rs).map ((key, c) :: ·)

end

attribute [grind =] updateTask updateNext updateRoutes

end update

variable [Sha256]

def setTask (targetId : TaskId) (f : TaskFields → TaskFields) (c : WorkflowContinuation) :
    WorkflowContinuation :=
  (c.updateTask targetId f).getD c

def setTaskTimeout (targetId : TaskId) (timeout : Option Duration) :
    WorkflowContinuation → WorkflowContinuation :=
  setTask targetId fun fields => { fields with timeout := timeout }

def setTaskRetryPolicy (targetId : TaskId) (policy : Option RetryPolicy) :
    WorkflowContinuation → WorkflowContinuation :=
  setTask targetId fun fields => { fields with retryPolicy := policy }

def setTaskVersion (targetId : TaskId) (version : Option String) :
    WorkflowContinuation → WorkflowContinuation :=
  setTask targetId fun fields => { fields with version := version }

end WorkflowContinuation

/-! ## The builder -/

/-- `WorkflowBuilder`. -/
structure WorkflowBuilder where
  continuation : Option WorkflowContinuation
  registry : Option TaskRegistry
  lastTaskId : Option String
  branchCounter : Nat
  loopCounter : Nat
  childCounter : Nat
  errors : List BuildError

/-- A workflow that was built with a registry. -/
structure SerializableWorkflow where
  continuation : WorkflowContinuation
  registry : TaskRegistry

namespace WorkflowBuilder

/-- `new`, `with_registry` or `with_existing_registry`. -/
def new (registry : Option TaskRegistry) : WorkflowBuilder := ⟨none, registry, none, 0, 0, 0, []⟩

/-- `maybe_register` and its variants: nothing happens without a registry. -/
def maybeRegister (id : String) (metadata : TaskMetadata) (b : WorkflowBuilder) :
    WorkflowBuilder :=
  { b with registry := b.registry.map (·.insert id metadata) }

/-- There is an implementation for the id. -/
def get (id : String) (b : WorkflowBuilder) : Bool := b.registry.any fun r => TaskRegistry.contains id r

/-- The metadata registered for the id. -/
def getMetadata (id : String) (b : WorkflowBuilder) : TaskMetadata :=
  (b.registry.bind fun registry => registry.lookup id).getD default

def pushErrors (errors : List BuildError) (b : WorkflowBuilder) : WorkflowBuilder :=
  { b with errors := b.errors ++ errors }

/-- Record an error unless the id is registered. -/
def require (id : String) (b : WorkflowBuilder) : WorkflowBuilder :=
  b.pushErrors (if b.get id then [] else [.taskNotFound id])

/-- Record an error if a loop may not run at all. -/
def requireIterations (id : String) (maxIterations : Nat) (b : WorkflowBuilder) :
    WorkflowBuilder :=
  b.pushErrors (if maxIterations = 0 then [.invalidMaxIterations id] else [])

/-- Append a node. -/
def extend (node : WorkflowContinuation) (lastTaskId : String) (b : WorkflowBuilder) :
    WorkflowBuilder :=
  { b with
    continuation := some (.appendNext node b.continuation)
    lastTaskId := some lastTaskId }

/-! ### Tasks and loops -/

def thenTaskWith (task : RegisterableTask) (b : WorkflowBuilder) : WorkflowBuilder :=
  (b.maybeRegister task.taskId task.metadata).extend
    (.task task.taskId (task.metadata.fields true) none) task.taskId

/-- `then`: a function has no metadata. -/
def thenFn (id : String) : WorkflowBuilder → WorkflowBuilder := thenTaskWith ⟨id, default⟩

def thenRegistered (id : String) (b : WorkflowBuilder) : WorkflowBuilder :=
  (b.require id).extend (.task id ((b.getMetadata id).fields (b.get id)) none) id

/-- Append a loop around one task. -/
def extendLoop (bodyId : String) (fields : TaskFields) (maxIterations : Nat)
    (onMax : MaxIterationsPolicy) (b : WorkflowBuilder) : WorkflowBuilder :=
  let loopId := loopNodeId b.loopCounter
  { b with loopCounter := b.loopCounter + 1 }.extend
    (.loop loopId (.task bodyId fields none) maxIterations onMax none) loopId

def loopTaskStructWithPolicy (task : RegisterableTask) (maxIterations : Nat)
    (onMax : MaxIterationsPolicy) (b : WorkflowBuilder) : WorkflowBuilder :=
  ((b.requireIterations task.taskId maxIterations).maybeRegister task.taskId
    task.metadata).extendLoop task.taskId (task.metadata.fields true) maxIterations onMax

def loopTaskWithPolicy (id : String) : Nat → MaxIterationsPolicy → WorkflowBuilder →
    WorkflowBuilder :=
  loopTaskStructWithPolicy ⟨id, default⟩

def loopTaskRegistered (bodyTaskId : String) (maxIterations : Nat)
    (onMax : MaxIterationsPolicy) (b : WorkflowBuilder) : WorkflowBuilder :=
  ((b.requireIterations bodyTaskId maxIterations).require bodyTaskId).extendLoop bodyTaskId
    ((b.getMetadata bodyTaskId).fields (b.get bodyTaskId)) maxIterations onMax

/-! ### Waits and child workflows -/

def delay (id : String) (duration : Duration) (b : WorkflowBuilder) : WorkflowBuilder :=
  b.extend (.delay id duration none) id

def waitForSignal (id signalName : String) (timeout : Option Duration) (b : WorkflowBuilder) :
    WorkflowBuilder :=
  b.extend (.awaitSignal id signalName timeout none) id

def thenFlow (child : WorkflowContinuation) (b : WorkflowBuilder) : WorkflowBuilder :=
  let childId := s!"child_{b.childCounter}"
  { b with childCounter := b.childCounter + 1 }.extend (.childWorkflow childId child none) childId

def thenSerializableFlow (child : SerializableWorkflow) (b : WorkflowBuilder) :
    WorkflowBuilder :=
  { b with registry := b.registry.map fun r => TaskRegistry.merge r child.registry }.thenFlow child.continuation

/-! ### Metadata -/

/-- `with_metadata`. The node gets the timeout, the retry policy and the version; the
registry gets everything. -/
def withMetadata [Sha256] (metadata : TaskMetadata) (b : WorkflowBuilder) : WorkflowBuilder :=
  match b.lastTaskId with
  | none => b
  | some id =>
    let tid := TaskId.sha256 id
    { b with
      registry := b.registry.map fun r => TaskRegistry.setMetadata id metadata r
      continuation := b.continuation.map fun c =>
        ((c.setTaskTimeout tid metadata.timeout).setTaskRetryPolicy tid
          metadata.retries).setTaskVersion tid metadata.version }

/-! ### Build -/

/-- `build`. Only a builder with a continuation has this method. -/
def build (b : WorkflowBuilder) :
    Except (List BuildError) (WorkflowContinuation × Option TaskRegistry) :=
  match b.continuation with
  | none => .error b.errors
  | some c =>
    let errors := b.errors ++ match c.findDuplicateId with
      | some dup => [.duplicateTaskId dup]
      | none => []
    if errors.isEmpty then .ok (c, b.registry) else .error errors

end WorkflowBuilder

/-! ## Forks -/

/-- A call on the `BranchCollector` of a `branches` closure. Nothing is registered. -/
inductive CollectorCall where
  | add (id : String)
  | addTaskWith (task : RegisterableTask)
  deriving DecidableEq

def CollectorCall.id : CollectorCall → String
  | add id => id
  | addTaskWith task => task.taskId

/-- `ForkBuilder`: the ids of the branches, beside the fields of the builder that
handed it out. -/
structure ForkBuilder where
  parent : WorkflowBuilder
  branches : List String

namespace ForkBuilder

/-- `branches`; with no calls in the closure it is `fork`. -/
def ofBranches (collected : List CollectorCall) (b : WorkflowBuilder) : ForkBuilder :=
  ⟨b, collected.map CollectorCall.id⟩

def branchTaskWith (task : RegisterableTask) (f : ForkBuilder) : ForkBuilder :=
  ⟨f.parent.maybeRegister task.taskId task.metadata, f.branches ++ [task.taskId]⟩

def branch (id : String) : ForkBuilder → ForkBuilder := branchTaskWith ⟨id, default⟩

def branchRegistered (id : String) (f : ForkBuilder) : ForkBuilder :=
  if f.parent.get id then { f with branches := f.branches ++ [id] }
  else { f with parent := f.parent.pushErrors [.taskNotFound id] }

/-- The node of the fork, given the fields of a branch. -/
def node (fields : String → TaskFields) (joinId : String) (joinFields : TaskFields)
    (f : ForkBuilder) : WorkflowContinuation :=
  .fork (WorkflowContinuation.deriveForkId f.branches)
    (f.branches.map fun id => .task id (fields id) none) (some (.task joinId joinFields none))

/-- `join`. Branches and join get no metadata. -/
def join (id : String) (f : ForkBuilder) : WorkflowBuilder :=
  (f.parent.maybeRegister id default).extend
    (f.node (fun _ => TaskMetadata.fields true default) id (TaskMetadata.fields true default)) id

/-- `join_registered`. Branches and join get the metadata of the registry. -/
def joinRegistered (id : String) (f : ForkBuilder) : WorkflowBuilder :=
  (f.parent.require id).extend
    (f.node (fun b => (f.parent.getMetadata b).fields true) id
      ((f.parent.getMetadata id).fields (f.parent.get id))) id

end ForkBuilder

/-- A call on a `ForkBuilder`. -/
inductive ForkCall where
  | branch (id : String)
  | branchTaskWith (task : RegisterableTask)
  | branchRegistered (id : String)
  deriving DecidableEq

def ForkCall.run : ForkCall → ForkBuilder → ForkBuilder
  | branch id => ForkBuilder.branch id
  | branchTaskWith task => ForkBuilder.branchTaskWith task
  | branchRegistered id => ForkBuilder.branchRegistered id

/-! ## Routes -/

/-- A call on a `SubBuilder`. -/
inductive SubCall where
  | thenFn (id : String)
  | delay (id : String) (duration : Duration)
  | waitForSignal (id signalName : String) (timeout : Option Duration)
  deriving DecidableEq

/-- `SubBuilder`, on the fields of the builder of the route. -/
structure SubBuilder where
  parent : WorkflowBuilder
  continuation : Option WorkflowContinuation

def SubCall.run : SubCall → SubBuilder → SubBuilder
  | thenFn id, s => ⟨s.parent.maybeRegister id default,
      some (.appendNext (.task id (TaskMetadata.fields true default) none) s.continuation)⟩
  | delay id duration, s =>
    { s with continuation := some (.appendNext (.delay id duration none) s.continuation) }
  | waitForSignal id signalName timeout, s => { s with
      continuation := some (.appendNext (.awaitSignal id signalName timeout none) s.continuation) }

/-- `RouteBuilder`, and `RouteRegisteredBuilder`. -/
structure RouteBuilder where
  parent : WorkflowBuilder
  branchId : String
  keyFn : Bool
  namedBranches : List (String × WorkflowContinuation)
  defaultBranch : Option WorkflowContinuation

namespace RouteBuilder

/-- `route`. -/
def ofRoute (b : WorkflowBuilder) : RouteBuilder :=
  let b := { b with branchCounter := b.branchCounter + 1 }
  let branchId := s!"branch_{b.branchCounter}"
  ⟨b.maybeRegister (keyFnId branchId) default, branchId, true, [], none⟩

/-- `route_registered`. -/
def ofRouteRegistered (id : String) (b : WorkflowBuilder) : RouteBuilder :=
  ⟨b.require (keyFnId id), id, b.get (keyFnId id), [], none⟩

/-- What a chain is for: a named branch, or the default one. -/
def insert (key : Option String) (c : WorkflowContinuation) (r : RouteBuilder) : RouteBuilder :=
  match key with
  | some key => { r with
      namedBranches := WorkflowContinuation.insertRoute key c r.namedBranches }
  | none => { r with defaultBranch := some c }

/-- `branch` and `default_branch`: run the closure and insert what it built. -/
def branch (key : Option String) (calls : List SubCall) (r : RouteBuilder) : RouteBuilder :=
  let sub := calls.foldl (fun s call => call.run s) ⟨r.parent, none⟩
  match sub.continuation with
  | some c => { r with parent := sub.parent }.insert key c
  | none => { r with parent := sub.parent.pushErrors [.emptyBranch] }

/-- `build_chain_from_registry`, from the last task to the first. -/
def buildChainFromRegistry (b : WorkflowBuilder) : List String → Option WorkflowContinuation
  | [] => none
  | id :: ids => some (.task id ((b.getMetadata id).fields (b.get id))
      (buildChainFromRegistry b ids))

/-- `branch_registered` and `default_registered`. -/
def branchRegistered (key : Option String) (taskIds : List String) (r : RouteBuilder) :
    RouteBuilder :=
  let missing := taskIds.reverse.filter fun id => !r.parent.get id
  match buildChainFromRegistry r.parent taskIds with
  | some c =>
    if missing.isEmpty then r.insert key c
    else { r with parent := r.parent.pushErrors (missing.map .taskNotFound) }
  | none => { r with parent := r.parent.pushErrors [.emptyFork] }

/-- Close the node. -/
def close (r : RouteBuilder) : WorkflowBuilder :=
  r.parent.extend (.branch r.branchId r.keyFn r.namedBranches r.defaultBranch none) r.branchId

/-- `done`, with the keys of the key type. -/
def done (allKeys : List String) (r : RouteBuilder) : WorkflowBuilder :=
  let orphans := (r.namedBranches.map Prod.fst).filter (· ∉ allKeys)
  let missing := allKeys.filter (· ∉ r.namedBranches.map Prod.fst)
  let parent := (r.parent.pushErrors
    (if orphans.isEmpty then [] else [.orphanBranches r.branchId orphans])).pushErrors
    (if r.defaultBranch.isSome || missing.isEmpty then []
      else [.missingBranches r.branchId missing])
  { r with parent := parent }.close

end RouteBuilder

/-! ## Sequences of calls -/

/-- What adds a node to a builder: one call, or the calls from the opening to the
closing of a fork or a route. The key of a routed chain is absent for the default. -/
inductive Step where
  | thenFn (id : String)
  | thenTaskWith (task : RegisterableTask)
  | thenRegistered (id : String)
  | loopTaskWithPolicy (id : String) (maxIterations : Nat) (onMax : MaxIterationsPolicy)
  | loopTaskStructWithPolicy (task : RegisterableTask) (maxIterations : Nat)
      (onMax : MaxIterationsPolicy)
  | loopTaskRegistered (bodyTaskId : String) (maxIterations : Nat) (onMax : MaxIterationsPolicy)
  | delay (id : String) (duration : Duration)
  | waitForSignal (id signalName : String) (timeout : Option Duration)
  | thenFlow (child : WorkflowContinuation)
  | thenSerializableFlow (child : SerializableWorkflow)
  | join (collected : List CollectorCall) (calls : List ForkCall) (id : String)
  | joinRegistered (collected : List CollectorCall) (calls : List ForkCall) (id : String)
  | route (allKeys : List String) (branches : List (Option String × List SubCall))
  | routeRegistered (id : String) (branches : List (Option String × List String))

/-- The builder of a fork after these calls. -/
def forkBuilder (collected : List CollectorCall) (calls : List ForkCall) (b : WorkflowBuilder) :
    ForkBuilder :=
  calls.foldl (fun f call => call.run f) (.ofBranches collected b)

/-- The builder of a route after these calls. -/
def routeBuilder (branches : List (Option String × List SubCall)) (b : WorkflowBuilder) :
    RouteBuilder :=
  branches.foldl (fun r call => r.branch call.1 call.2) (.ofRoute b)

def routeRegisteredBuilder (id : String) (branches : List (Option String × List String))
    (b : WorkflowBuilder) : RouteBuilder :=
  branches.foldl (fun r call => r.branchRegistered call.1 call.2) (.ofRouteRegistered id b)

def Step.run : Step → WorkflowBuilder → WorkflowBuilder
  | thenFn id => WorkflowBuilder.thenFn id
  | thenTaskWith task => WorkflowBuilder.thenTaskWith task
  | thenRegistered id => WorkflowBuilder.thenRegistered id
  | loopTaskWithPolicy id maxIterations onMax =>
    WorkflowBuilder.loopTaskWithPolicy id maxIterations onMax
  | loopTaskStructWithPolicy task maxIterations onMax =>
    WorkflowBuilder.loopTaskStructWithPolicy task maxIterations onMax
  | loopTaskRegistered bodyTaskId maxIterations onMax =>
    WorkflowBuilder.loopTaskRegistered bodyTaskId maxIterations onMax
  | delay id duration => WorkflowBuilder.delay id duration
  | waitForSignal id signalName timeout => WorkflowBuilder.waitForSignal id signalName timeout
  | thenFlow child => WorkflowBuilder.thenFlow child
  | thenSerializableFlow child => WorkflowBuilder.thenSerializableFlow child
  | join collected calls id => fun b => (forkBuilder collected calls b).join id
  | joinRegistered collected calls id => fun b => (forkBuilder collected calls b).joinRegistered id
  | route allKeys branches => fun b => (routeBuilder branches b).done allKeys
  | routeRegistered id branches => fun b => (routeRegisteredBuilder id branches b).close

/-- A step and the calls of `with_metadata` that directly follow it. -/
structure Stage where
  step : Step
  metadata : List TaskMetadata

def Stage.run [Sha256] (s : Stage) (b : WorkflowBuilder) : WorkflowBuilder :=
  s.metadata.foldl (fun b m => b.withMetadata m) (s.step.run b)

/-- All calls of a sequence. -/
def WorkflowBuilder.calls [Sha256] (b : WorkflowBuilder) (stages : List Stage) :
    WorkflowBuilder :=
  stages.foldl (fun b s => s.run b) b

/-! ## Back from the serializable form -/

namespace SerializableContinuation

mutual

def taskIds : SerializableContinuation → List String
  | .task id _ _ _ _ _ next => id :: taskIdsNext next
  | .fork id branches join => id :: (taskIdsBranches branches ++ taskIdsNext join)
  | .delay id _ next => id :: taskIdsNext next
  | .awaitSignal id _ _ next => id :: taskIdsNext next
  | .branch id branches default next =>
    id :: (taskIdsRoutes branches ++ (taskIdsNext default ++ taskIdsNext next))
  | .loop id body _ _ next => id :: (taskIds body ++ taskIdsNext next)
  | .childWorkflow id child next => id :: (taskIds child ++ taskIdsNext next)

def taskIdsNext : Option SerializableContinuation → List String
  | none => []
  | some next => taskIds next

def taskIdsBranches : List SerializableContinuation → List String
  | [] => []
  | c :: cs => taskIds c ++ taskIdsBranches cs

def taskIdsRoutes : List (String × SerializableContinuation) → List String
  | [] => []
  | (_, c) :: cs => taskIds c ++ taskIdsRoutes cs

end

attribute [grind =] taskIds taskIdsNext taskIdsBranches taskIdsRoutes

def findDuplicateId (c : SerializableContinuation) : Option String := firstDuplicate [] c.taskIds

section runnable

variable (registry : TaskRegistry)

mutual

/-- `to_runnable_unchecked`. The branches of a fork or a route are converted first, but
an error in them is reported last. -/
def toRunnableUnchecked : SerializableContinuation → Except BuildError WorkflowContinuation
  | .task id timeoutMs retryPolicy version priority tags next =>
    if TaskRegistry.contains id registry then do
      let next ← toRunnableNext next
      pure (.task id ⟨true, timeoutMs.map Duration.fromMillis, retryPolicy, version, priority,
        tags⟩ next)
    else .error (.taskNotFound id)
  | .fork id branches join => do
      let join ← toRunnableNext join
      let branches ← toRunnableBranches branches
      pure (.fork id branches join)
  | .delay id durationMs next => do
      let next ← toRunnableNext next
      pure (.delay id (Duration.fromMillis durationMs) next)
  | .awaitSignal id signalName timeoutMs next => do
      let next ← toRunnableNext next
      pure (.awaitSignal id signalName (timeoutMs.map Duration.fromMillis) next)
  | .branch id branches default next =>
    if TaskRegistry.contains (keyFnId id) registry then do
      let default ← toRunnableNext default
      let next ← toRunnableNext next
      let branches ← toRunnableRoutes branches
      pure (.branch id true branches default next)
    else .error (.taskNotFound (keyFnId id))
  | .loop id body maxIterations onMax next => do
      let body ← toRunnableUnchecked body
      let next ← toRunnableNext next
      pure (.loop id body maxIterations onMax next)
  | .childWorkflow id child next => do
      let child ← toRunnableUnchecked child
      let next ← toRunnableNext next
      pure (.childWorkflow id child next)

def toRunnableNext :
    Option SerializableContinuation → Except BuildError (Option WorkflowContinuation)
  | none => pure none
  | some next => some <$> toRunnableUnchecked next

def toRunnableBranches :
    List SerializableContinuation → Except BuildError (List WorkflowContinuation)
  | [] => pure []
  | c :: cs => do
      let c ← toRunnableUnchecked c
      let cs ← toRunnableBranches cs
      pure (c :: cs)

def toRunnableRoutes : List (String × SerializableContinuation) →
    Except BuildError (List (String × WorkflowContinuation))
  | [] => pure []
  | (key, c) :: rs => do
      let c ← toRunnableUnchecked c
      let rs ← toRunnableRoutes rs
      pure ((key, c) :: rs)

end

attribute [grind =] toRunnableUnchecked toRunnableNext toRunnableBranches toRunnableRoutes

def toRunnable (c : SerializableContinuation) : Except BuildError WorkflowContinuation :=
  match c.findDuplicateId with
  | some dup => .error (.duplicateTaskId dup)
  | none => c.toRunnableUnchecked registry

end runnable

end SerializableContinuation

end Sayiir
