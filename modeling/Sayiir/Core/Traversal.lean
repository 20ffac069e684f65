import Sayiir.Core.Builder

/-!
# Walking the tree

The traversals of `sayiir-core/src/workflow.rs` and the index of
`sayiir-core/src/task_index.rs`: the iterator over all nodes with its explicit
stack, the search for an id that occurs twice, the search for a task by id and the
hash index that the iterator fills.
-/

namespace Sayiir

/-- `NodeKind`. -/
inductive NodeKind where
  | task
  | fork
  | delay
  | awaitSignal
  | branch
  | loop
  | childWorkflow
  deriving DecidableEq, Repr

/-- `NodeInfo`. -/
structure NodeInfo where
  id : String
  kind : NodeKind
  predecessorId : Option String
  timeout : Option Duration
  retryPolicy : Option RetryPolicy
  priority : Option UInt8
  tags : List String
  version : Option String

namespace WorkflowContinuation

/-- What the iterator says of a node that it reached from `predecessor`. -/
def nodeInfo (predecessor : Option String) : WorkflowContinuation → NodeInfo
  | .task id fields _ => ⟨id, .task, predecessor, fields.timeout, fields.retryPolicy,
      fields.priority, fields.tags, fields.version⟩
  | .fork id _ _ => ⟨id, .fork, predecessor, none, none, none, [], none⟩
  | .delay id duration _ => ⟨id, .delay, predecessor, some duration, none, none, [], none⟩
  | .awaitSignal id _ timeout _ => ⟨id, .awaitSignal, predecessor, timeout, none, none, [], none⟩
  | .branch id .. => ⟨id, .branch, predecessor, none, none, none, [], none⟩
  | .loop id .. => ⟨id, .loop, predecessor, none, none, none, [], none⟩
  | .childWorkflow id .. => ⟨id, .childWorkflow, predecessor, none, none, none, [], none⟩

/-- The nodes that are pushed when a node is popped, the one to be popped first at the head.
Routed branches stand in the order of their keys. -/
def pushed : WorkflowContinuation → List WorkflowContinuation
  | .branch _ _ branches default next =>
    (SerializableContinuation.sortByKey branches).map Prod.snd ++ (default.toList ++ next.toList)
  | c => c.children

theorem pushed_perm (c : WorkflowContinuation) : c.pushed.Perm c.children := by
  cases c with
  | branch id keyFn branches default next =>
    exact ((List.mergeSort_perm ..).map _).append_right _
  | _ => exact List.Perm.refl _

theorem length_subtrees (c : WorkflowContinuation) :
    c.subtrees.length = 1 + (c.pushed.map fun n => n.subtrees.length).sum := by
  rw [subtrees_eq, List.length_cons, List.length_flatMap, (c.pushed_perm.map _).sum_eq,
    Nat.add_comm]

end WorkflowContinuation

/-- `NodeIter`: a stack of nodes and their predecessors, the top at the head. -/
abbrev NodeIter := List (WorkflowContinuation × Option String)

/-- `NodeIter::next`, called until it answers `None`. -/
def NodeIter.collect : NodeIter → List NodeInfo
  | [] => []
  | (c, predecessor) :: stack =>
    c.nodeInfo predecessor :: collect ((c.pushed.map fun n => (n, some c.id)) ++ stack)
termination_by stack => (stack.map fun entry => entry.1.subtrees.length).sum
decreasing_by
  simp only [List.map_append, List.map_map, List.sum_append, List.map_cons, List.sum_cons,
    WorkflowContinuation.length_subtrees c, Function.comp_def]
  omega

/-- `iter_nodes`. -/
def WorkflowContinuation.iterNodes (c : WorkflowContinuation) : List NodeInfo :=
  NodeIter.collect [(c, none)]

/-! ## Ids that occur twice -/

/-- `collect` of `impl_find_duplicate_id!`, for trees with these ids and parts. An id that has
been seen ends the search. -/
def collectIds {T : Type} (id : T → String) (parts : T → List T) :
    Nat → List String → T → Except String (List String)
  | 0, seen, _ => .ok seen
  | depth + 1, seen, t =>
    if id t ∈ seen then .error (id t)
    else (parts t).foldlM (collectIds id parts depth) (id t :: seen)

def SerializableContinuation.id : SerializableContinuation → String
  | .task id .. | .fork id .. | .delay id .. | .awaitSignal id .. | .branch id ..
  | .loop id .. | .childWorkflow id .. => id

/-- The direct subtrees of a node, in the order of declaration. -/
def SerializableContinuation.children : SerializableContinuation → List SerializableContinuation
  | .task _ _ _ _ _ _ next | .delay _ _ next | .awaitSignal _ _ _ next => next.toList
  | .fork _ branches join => branches ++ join.toList
  | .branch _ branches default next =>
    branches.map Prod.snd ++ (default.toList ++ next.toList)
  | .loop _ body _ _ next => body :: next.toList
  | .childWorkflow _ child next => child :: next.toList

/-- `WorkflowContinuation::find_duplicate_id`, as the recursion it is. No chain of nodes is
longer than the tree has nodes. -/
def WorkflowContinuation.searchDuplicateId (c : WorkflowContinuation) : Option String :=
  match collectIds WorkflowContinuation.id children c.taskIds.length [] c with
  | .error id => some id
  | .ok _ => none

/-- `SerializableContinuation::find_duplicate_id`. -/
def SerializableContinuation.searchDuplicateId (c : SerializableContinuation) : Option String :=
  match collectIds SerializableContinuation.id children c.taskIds.length [] c with
  | .error id => some id
  | .ok _ => none

/-! ## Tasks by id -/

/-- `Priority::from_u8`. -/
def Priority.fromU8 (n : UInt8) : Option Priority :=
  [critical, high, normal, low, minimal].find? fun p => p.asU8 = n

/-- `TaskMetadata::from_node_fields`. -/
def TaskMetadata.fromNodeFields (timeout : Option Duration) (retries : Option RetryPolicy)
    (version : Option String) (priority : Option UInt8) (tags : List String) : TaskMetadata :=
  ⟨timeout, retries, tags, version, priority.bind Priority.fromU8⟩

namespace WorkflowContinuation

/-- `TaskNodeMetadata`. -/
structure TaskNodeMetadata where
  name : String
  timeout : Option Duration
  priority : Option UInt8
  tags : List String
  retryPolicy : Option RetryPolicy
  version : Option String
  deriving DecidableEq

variable [Sha256]

mutual

/-- `find_task`. -/
def findTask (taskId : TaskId) : WorkflowContinuation → Option WorkflowContinuation
  | .task id fields next =>
    if TaskId.sha256 id = taskId then some (.task id fields next) else findTaskNext taskId next
  | .delay _ _ next | .awaitSignal _ _ _ next => findTaskNext taskId next
  | .fork _ branches join => (findTaskIn taskId branches).or (findTaskNext taskId join)
  | .branch _ _ branches default next =>
    (findTaskRoutes taskId branches).or ((findTaskNext taskId default).or (findTaskNext taskId next))
  | .loop _ body _ _ next => (findTask taskId body).or (findTaskNext taskId next)
  | .childWorkflow _ child next => (findTask taskId child).or (findTaskNext taskId next)

def findTaskNext (taskId : TaskId) : Option WorkflowContinuation → Option WorkflowContinuation
  | none => none
  | some next => findTask taskId next

def findTaskIn (taskId : TaskId) : List WorkflowContinuation → Option WorkflowContinuation
  | [] => none
  | c :: cs => (findTask taskId c).or (findTaskIn taskId cs)

def findTaskRoutes (taskId : TaskId) :
    List (String × WorkflowContinuation) → Option WorkflowContinuation
  | [] => none
  | (_, c) :: cs => (findTask taskId c).or (findTaskRoutes taskId cs)

end

/-- The fields of the task that `find_task` finds, which the getters pick from. -/
def taskFields (c : WorkflowContinuation) (taskId : TaskId) : Option TaskFields :=
  match c.findTask taskId with
  | some (.task _ fields _) => some fields
  | _ => none

def getTaskRetryPolicy (c : WorkflowContinuation) (taskId : TaskId) : Option RetryPolicy :=
  (c.taskFields taskId).bind (·.retryPolicy)

def getTaskTimeout (c : WorkflowContinuation) (taskId : TaskId) : Option Duration :=
  (c.taskFields taskId).bind (·.timeout)

def getTaskPriority (c : WorkflowContinuation) (taskId : TaskId) : Option UInt8 :=
  (c.taskFields taskId).bind (·.priority)

def getTaskTags (c : WorkflowContinuation) (taskId : TaskId) : List String :=
  ((c.taskFields taskId).map (·.tags)).getD []

def buildTaskMetadata (c : WorkflowContinuation) (taskId : TaskId) : TaskMetadata :=
  match c.taskFields taskId with
  | some f => .fromNodeFields f.timeout f.retryPolicy f.version f.priority f.tags
  | none => default

/-- `TaskIndex::build`: the tasks, delays and signal waits that the iterator yields. Only tasks
keep their timeout. -/
def buildIndex (c : WorkflowContinuation) : List (TaskId × TaskNodeMetadata) :=
  (c.iterNodes.filter fun n => n.kind ∈ [.task, .delay, .awaitSignal]).map fun n =>
    (TaskId.sha256 n.id, ⟨n.id, n.timeout.filter fun _ => n.kind = .task, n.priority, n.tags,
      n.retryPolicy, n.version⟩)

end WorkflowContinuation

/-- `TaskIndex`: the entries in the order in which they were collected. -/
abbrev TaskEntries := List (TaskId × WorkflowContinuation.TaskNodeMetadata)

namespace TaskEntries

variable (index : TaskEntries) (taskId : TaskId)

/-- `TaskIndex::get`. Of two entries with one id the later is kept. -/
def get : Option WorkflowContinuation.TaskNodeMetadata := index.reverse.lookup taskId

def priority : Option UInt8 := (index.get taskId).bind (·.priority)

def timeout : Option Duration := (index.get taskId).bind (·.timeout)

def tags : List String := ((index.get taskId).map (·.tags)).getD []

def retryPolicy : Option RetryPolicy := (index.get taskId).bind (·.retryPolicy)

def buildTaskMetadata : TaskMetadata :=
  match index.get taskId with
  | some m => .fromNodeFields m.timeout m.retryPolicy m.version m.priority m.tags
  | none => default

end TaskEntries

end Sayiir
