import Sayiir.Core.Error
import Mathlib.Data.Rat.Defs
import Mathlib.Data.List.Nodup
import Mathlib.Data.List.Pairwise

/-!
# Continuation trees

A workflow is a tree of nodes (`sayiir-core/src/workflow.rs`): a node knows the
continuation that follows it in its own chain, and fork branches, routed
branches, loop bodies and child workflows are chains of their own.

Functions on trees are written as mutual structural recursions with one
companion for each container a subtree can sit in (`Option`, `List`, the routing
table), and `WorkflowContinuation.induct` is the induction principle that goes
with them.
-/

namespace Sayiir

variable {rs : List (String × WorkflowContinuation)} {cs : List WorkflowContinuation}
  {name : String} {c n : WorkflowContinuation}

/-- `RetryPolicy`. The multiplier is a single-precision float in the source; an
exact rational here. -/
structure RetryPolicy where
  maxRetries : Nat
  initialDelay : Duration
  backoffMultiplier : ℚ
  maxDelay : Option Duration
  deriving DecidableEq

/-- `MaxIterationsPolicy`. -/
inductive MaxIterationsPolicy where
  | fail
  | exitWithLast
  deriving DecidableEq, Repr

/-- The fields of a task node besides its id and its successor. `func` tells
whether the node carries an implementation; registry-based trees have none. -/
structure TaskFields where
  func : Bool
  timeout : Option Duration
  retryPolicy : Option RetryPolicy
  version : Option String
  priority : Option UInt8
  tags : List String
  deriving DecidableEq

/-- The fields of a registered task without options. -/
def TaskFields.plain : TaskFields := ⟨true, none, none, none, none, []⟩

/-- `WorkflowContinuation`. -/
inductive WorkflowContinuation where
  | task (id : String) (fields : TaskFields) (next : Option WorkflowContinuation)
  | fork (id : String) (branches : List WorkflowContinuation)
      (join : Option WorkflowContinuation)
  | delay (id : String) (duration : Duration) (next : Option WorkflowContinuation)
  | awaitSignal (id : String) (signalName : String) (timeout : Option Duration)
      (next : Option WorkflowContinuation)
  | branch (id : String) (keyFn : Bool) (branches : List (String × WorkflowContinuation))
      (default : Option WorkflowContinuation) (next : Option WorkflowContinuation)
  | loop (id : String) (body : WorkflowContinuation) (maxIterations : Nat)
      (onMax : MaxIterationsPolicy) (next : Option WorkflowContinuation)
  | childWorkflow (id : String) (child : WorkflowContinuation)
      (next : Option WorkflowContinuation)

/-- The name under which the key function of a branch node is registered. -/
def keyFnId (branchId : String) : String := branchId ++ "::key_fn"

/-- What a dispatcher needs to know about a task before it runs. -/
structure TaskHint where
  id : TaskId
  priority : Option UInt8
  tags : List String
  deriving DecidableEq

/-- `TaskHint::default()`. -/
instance : Inhabited TaskHint := ⟨⟨default, none, []⟩⟩

namespace WorkflowContinuation

def id : WorkflowContinuation → String
  | .task id .. | .fork id .. | .delay id .. | .awaitSignal id .. | .branch id ..
  | .loop id .. | .childWorkflow id .. => id

/-- The next continuation of the chain; for a fork that is its join. -/
def getNext : WorkflowContinuation → Option WorkflowContinuation
  | .task _ _ next | .delay _ _ next | .awaitSignal _ _ _ next | .branch _ _ _ _ next
  | .loop _ _ _ _ next | .childWorkflow _ _ next => next
  | .fork _ _ join => join

def firstTaskId : WorkflowContinuation → String
  | .task id .. | .delay id .. | .awaitSignal id .. | .branch id .. => id
  | .fork _ (first :: _) _ => first.firstTaskId
  | .fork _ [] _ => "unknown"
  | .loop _ body .. => body.firstTaskId
  | .childWorkflow _ child _ => child.firstTaskId

def firstTaskPriority : WorkflowContinuation → Option UInt8
  | .task _ fields _ => fields.priority
  | .delay .. | .awaitSignal .. | .branch .. => none
  | .fork _ (first :: _) _ => first.firstTaskPriority
  | .fork _ [] _ => none
  | .loop _ body .. => body.firstTaskPriority
  | .childWorkflow _ child _ => child.firstTaskPriority

def firstTaskTags : WorkflowContinuation → List String
  | .task _ fields _ => fields.tags
  | .delay .. | .awaitSignal .. | .branch .. => []
  | .fork _ (first :: _) _ => first.firstTaskTags
  | .fork _ [] _ => []
  | .loop _ body .. => body.firstTaskTags
  | .childWorkflow _ child _ => child.firstTaskTags

def firstTaskHint [Sha256] (c : WorkflowContinuation) : TaskHint :=
  ⟨TaskId.sha256 c.firstTaskId, c.firstTaskPriority, c.firstTaskTags⟩

mutual

/-- Every node id of the tree (`SerializableContinuation::task_ids`), a node
before what it contains and its successor last. -/
def taskIds : WorkflowContinuation → List String
  | .task id _ next => id :: taskIdsNext next
  | .fork id branches join => id :: (taskIdsBranches branches ++ taskIdsNext join)
  | .delay id _ next => id :: taskIdsNext next
  | .awaitSignal id _ _ next => id :: taskIdsNext next
  | .branch id _ branches default next =>
    id :: (taskIdsRoutes branches ++ (taskIdsNext default ++ taskIdsNext next))
  | .loop id body _ _ next => id :: (taskIds body ++ taskIdsNext next)
  | .childWorkflow id child next => id :: (taskIds child ++ taskIdsNext next)

def taskIdsNext : Option WorkflowContinuation → List String
  | none => []
  | some next => taskIds next

def taskIdsBranches : List WorkflowContinuation → List String
  | [] => []
  | c :: cs => taskIds c ++ taskIdsBranches cs

def taskIdsRoutes : List (String × WorkflowContinuation) → List String
  | [] => []
  | (_, c) :: cs => taskIds c ++ taskIdsRoutes cs

end

attribute [grind =] taskIds taskIdsNext taskIdsBranches taskIdsRoutes

theorem id_mem_taskIds (c : WorkflowContinuation) : c.id ∈ c.taskIds := by
  cases c <;> simp [taskIds, id]

theorem mem_taskIdsBranches :
    name ∈ taskIdsBranches cs ↔ ∃ c ∈ cs, name ∈ c.taskIds := by
  induction cs with
  | nil => simp [taskIdsBranches]
  | cons c cs ih => simp [taskIdsBranches, ih]

theorem sublist_taskIdsBranches (h : c ∈ cs) : c.taskIds.Sublist (taskIdsBranches cs) := by
  induction cs with
  | nil => cases h
  | cons d ds ih =>
    rcases List.mem_cons.mp h with rfl | h
    · exact List.sublist_append_left _ _
    · exact (ih h).trans (List.sublist_append_right _ _)

theorem sublist_taskIdsRoutes {r : String × WorkflowContinuation} (h : r ∈ rs) :
    r.2.taskIds.Sublist (taskIdsRoutes rs) := by
  induction rs with
  | nil => cases h
  | cons d ds ih =>
    rcases List.mem_cons.mp h with rfl | h
    · exact List.sublist_append_left _ _
    · exact (ih h).trans (List.sublist_append_right _ _)

mutual

/-- The ids of the nodes inside loop bodies, whose results a loop forgets. -/
def loopIds : WorkflowContinuation → List String
  | .task _ _ next | .delay _ _ next | .awaitSignal _ _ _ next => loopIdsNext next
  | .fork _ branches join => loopIdsBranches branches ++ loopIdsNext join
  | .branch _ _ branches default next =>
    loopIdsRoutes branches ++ (loopIdsNext default ++ loopIdsNext next)
  | .loop _ body _ _ next => taskIds body ++ (loopIds body ++ loopIdsNext next)
  | .childWorkflow _ child next => loopIds child ++ loopIdsNext next

def loopIdsNext : Option WorkflowContinuation → List String
  | none => []
  | some next => loopIds next

def loopIdsBranches : List WorkflowContinuation → List String
  | [] => []
  | c :: cs => loopIds c ++ loopIdsBranches cs

def loopIdsRoutes : List (String × WorkflowContinuation) → List String
  | [] => []
  | (_, c) :: cs => loopIds c ++ loopIdsRoutes cs

end

attribute [grind =] loopIds loopIdsNext loopIdsBranches loopIdsRoutes

theorem mem_loopIdsBranches :
    name ∈ loopIdsBranches cs ↔ ∃ c ∈ cs, name ∈ c.loopIds := by
  induction cs with
  | nil => simp [loopIdsBranches]
  | cons c cs ih => simp [loopIdsBranches, ih]

theorem mem_loopIdsRoutes :
    name ∈ loopIdsRoutes rs ↔ ∃ r ∈ rs, name ∈ r.2.loopIds := by
  induction rs with
  | nil => simp [loopIdsRoutes]
  | cons r rs ih => simp [loopIdsRoutes, ih]

/-! ## Conditions on every node -/

mutual

/-- The tree at every node, a node before what it contains and its successor last. -/
def subtrees : WorkflowContinuation → List WorkflowContinuation
  | .task id fields next => .task id fields next :: subtreesNext next
  | .fork id branches join =>
    .fork id branches join :: (subtreesBranches branches ++ subtreesNext join)
  | .delay id duration next => .delay id duration next :: subtreesNext next
  | .awaitSignal id signalName timeout next =>
    .awaitSignal id signalName timeout next :: subtreesNext next
  | .branch id keyFn branches default next => .branch id keyFn branches default next ::
      (subtreesRoutes branches ++ (subtreesNext default ++ subtreesNext next))
  | .loop id body maxIterations onMax next => .loop id body maxIterations onMax next ::
      (subtrees body ++ subtreesNext next)
  | .childWorkflow id child next =>
    .childWorkflow id child next :: (subtrees child ++ subtreesNext next)

def subtreesNext : Option WorkflowContinuation → List WorkflowContinuation
  | none => []
  | some next => subtrees next

def subtreesBranches : List WorkflowContinuation → List WorkflowContinuation
  | [] => []
  | c :: cs => subtrees c ++ subtreesBranches cs

def subtreesRoutes : List (String × WorkflowContinuation) → List WorkflowContinuation
  | [] => []
  | (_, c) :: cs => subtrees c ++ subtreesRoutes cs

end

attribute [grind =] subtrees subtreesNext subtreesBranches subtreesRoutes

theorem mem_subtrees_self (c : WorkflowContinuation) : c ∈ c.subtrees := by
  cases c <;> simp [subtrees]

theorem mem_subtreesNext {o : Option WorkflowContinuation} :
    n ∈ subtreesNext o ↔ ∃ c, o = some c ∧ n ∈ c.subtrees := by
  cases o <;> simp [subtreesNext]

theorem mem_subtreesBranches :
    n ∈ subtreesBranches cs ↔ ∃ c ∈ cs, n ∈ c.subtrees := by
  induction cs with
  | nil => simp [subtreesBranches]
  | cons c cs ih => simp [subtreesBranches, ih]

theorem mem_subtreesRoutes : n ∈ subtreesRoutes rs ↔ ∃ r ∈ rs, n ∈ r.2.subtrees := by
  induction rs with
  | nil => simp [subtreesRoutes]
  | cons r rs ih => simp [subtreesRoutes, ih]

/-- Every node of the tree satisfies `P`. -/
def Every (P : WorkflowContinuation → Prop) (c : WorkflowContinuation) : Prop :=
  ∀ n ∈ c.subtrees, P n

/-- A node at which an instance may have to wait. -/
def isWait : WorkflowContinuation → Bool
  | .delay .. | .awaitSignal .. => true
  | _ => false

def isTask : WorkflowContinuation → Bool
  | .task .. => true
  | _ => false

def isLoop : WorkflowContinuation → Bool
  | .loop .. => true
  | _ => false

/-- A task with a timeout. -/
def hasTimeout : WorkflowContinuation → Bool
  | .task _ fields _ => fields.timeout.isSome
  | _ => false

/-- The digests of every node of the tree. -/
def ids [Sha256] (c : WorkflowContinuation) : List TaskId := c.taskIds.map TaskId.sha256

section ids

variable [Sha256]

def idsNext (o : Option WorkflowContinuation) : List TaskId := (taskIdsNext o).map TaskId.sha256

def idsBranches (cs : List WorkflowContinuation) : List TaskId :=
  (taskIdsBranches cs).map TaskId.sha256

def idsRoutes (rs : List (String × WorkflowContinuation)) : List TaskId :=
  (taskIdsRoutes rs).map TaskId.sha256

@[simp] theorem idsNext_none : idsNext none = [] := rfl

@[simp] theorem idsNext_some (c : WorkflowContinuation) : idsNext (some c) = c.ids := rfl

@[simp] theorem idsBranches_nil : idsBranches [] = [] := rfl

@[simp] theorem idsBranches_cons (c : WorkflowContinuation) (cs : List WorkflowContinuation) :
    idsBranches (c :: cs) = c.ids ++ idsBranches cs := by
  simp [idsBranches, taskIdsBranches, ids]

@[simp] theorem idsRoutes_nil : idsRoutes [] = [] := rfl

@[simp] theorem idsRoutes_cons (r : String × WorkflowContinuation)
    (rs : List (String × WorkflowContinuation)) :
    idsRoutes (r :: rs) = r.2.ids ++ idsRoutes rs := by
  simp [idsRoutes, taskIdsRoutes, ids]

theorem mem_idsBranches {t : TaskId} (hc : c ∈ cs) (ht : t ∈ c.ids) : t ∈ idsBranches cs :=
  ((sublist_taskIdsBranches hc).map TaskId.sha256).subset ht

theorem mem_idsRoutes
    {r : String × WorkflowContinuation} {t : TaskId} (hr : r ∈ rs) (ht : t ∈ r.2.ids) :
    t ∈ idsRoutes rs :=
  ((sublist_taskIdsRoutes hr).map TaskId.sha256).subset ht

theorem sha256_mem_ids (c : WorkflowContinuation) : TaskId.sha256 c.id ∈ c.ids :=
  List.mem_map_of_mem c.id_mem_taskIds

@[simp] theorem ids_task (id : String) (fields : TaskFields) (next : Option WorkflowContinuation) :
    (task id fields next).ids = TaskId.sha256 id :: idsNext next := rfl

@[simp] theorem ids_delay (id : String) (duration : Duration)
    (next : Option WorkflowContinuation) :
    (delay id duration next).ids = TaskId.sha256 id :: idsNext next := rfl

@[simp] theorem ids_awaitSignal (id signalName : String) (timeout : Option Duration)
    (next : Option WorkflowContinuation) :
    (awaitSignal id signalName timeout next).ids = TaskId.sha256 id :: idsNext next := rfl

@[simp] theorem ids_fork (id : String) (branches : List WorkflowContinuation)
    (join : Option WorkflowContinuation) :
    (fork id branches join).ids = TaskId.sha256 id :: (idsBranches branches ++ idsNext join) := by
  simp [ids, taskIds, idsBranches, idsNext]

@[simp] theorem ids_branch (id : String) (keyFn : Bool)
    (branches : List (String × WorkflowContinuation))
    (default next : Option WorkflowContinuation) :
    (branch id keyFn branches default next).ids
      = TaskId.sha256 id :: (idsRoutes branches ++ (idsNext default ++ idsNext next)) := by
  simp [ids, taskIds, idsRoutes, idsNext]

@[simp] theorem ids_loop (id : String) (body : WorkflowContinuation) (maxIterations : Nat)
    (onMax : MaxIterationsPolicy) (next : Option WorkflowContinuation) :
    (loop id body maxIterations onMax next).ids
      = TaskId.sha256 id :: (body.ids ++ idsNext next) := by
  simp [ids, taskIds, idsNext]

@[simp] theorem ids_childWorkflow (id : String) (child : WorkflowContinuation)
    (next : Option WorkflowContinuation) :
    (childWorkflow id child next).ids = TaskId.sha256 id :: (child.ids ++ idsNext next) := by
  simp [ids, taskIds, idsNext]

end ids

/-- Induction over a tree, one case per node, with the hypotheses in the form in
which the executors meet their subtrees. -/
theorem induct {P : WorkflowContinuation → Prop}
    (task : ∀ id fields next, (∀ n, next = some n → P n) → P (.task id fields next))
    (fork : ∀ id branches join, (∀ b ∈ branches, P b) → (∀ n, join = some n → P n) →
      P (.fork id branches join))
    (delay : ∀ id duration next, (∀ n, next = some n → P n) → P (.delay id duration next))
    (awaitSignal : ∀ id signalName timeout next, (∀ n, next = some n → P n) →
      P (.awaitSignal id signalName timeout next))
    (branch : ∀ id keyFn branches default next, (∀ r ∈ branches, P r.2) →
      (∀ n, default = some n → P n) → (∀ n, next = some n → P n) →
      P (.branch id keyFn branches default next))
    (loop : ∀ id body maxIterations onMax next, P body → (∀ n, next = some n → P n) →
      P (.loop id body maxIterations onMax next))
    (childWorkflow : ∀ id child next, P child → (∀ n, next = some n → P n) →
      P (.childWorkflow id child next))
    (c : WorkflowContinuation) : P c := by
  refine @WorkflowContinuation.rec P (fun o => ∀ n, o = some n → P n) (fun l => ∀ b ∈ l, P b)
    (fun l => ∀ r ∈ l, P r.2) (fun r => P r.2) task fork delay awaitSignal branch loop
    childWorkflow ?_ ?_ ?_ ?_ ?_ ?_ ?_ c
  · simp
  · rintro n ih _ ⟨⟩
    exact ih
  · simp
  · intro b bs hb hbs
    simpa using ⟨hb, hbs⟩
  · simp
  · intro r rs hr hrs
    simpa using ⟨hr, fun a b h => hrs (a, b) h⟩
  · exact fun _ _ h => h

/-! ## The direct subtrees of a node -/

/-- The direct subtrees of a node, in the order of declaration. -/
def children : WorkflowContinuation → List WorkflowContinuation
  | .task _ _ next | .delay _ _ next | .awaitSignal _ _ _ next => next.toList
  | .fork _ branches join => branches ++ join.toList
  | .branch _ _ branches default next =>
    branches.map Prod.snd ++ (default.toList ++ next.toList)
  | .loop _ body _ _ next => body :: next.toList
  | .childWorkflow _ child next => child :: next.toList

theorem subtreesNext_eq (o : Option WorkflowContinuation) :
    subtreesNext o = o.toList.flatMap subtrees := by
  cases o <;> simp [subtreesNext]

theorem subtreesBranches_eq (cs : List WorkflowContinuation) :
    subtreesBranches cs = cs.flatMap subtrees := by
  induction cs with
  | nil => rfl
  | cons c cs ih => rw [subtreesBranches, ih, List.flatMap_cons]

theorem subtreesRoutes_eq (rs : List (String × WorkflowContinuation)) :
    subtreesRoutes rs = (rs.map Prod.snd).flatMap subtrees := by
  induction rs with
  | nil => rfl
  | cons r rs ih => rw [subtreesRoutes, ih, List.map_cons, List.flatMap_cons]

theorem subtrees_eq (c : WorkflowContinuation) :
    c.subtrees = c :: c.children.flatMap subtrees := by
  cases c <;>
    simp [subtrees, children, subtreesNext_eq, subtreesBranches_eq, subtreesRoutes_eq]

theorem mem_subtrees {n : WorkflowContinuation} :
    n ∈ c.subtrees ↔ n = c ∨ ∃ d ∈ c.children, n ∈ d.subtrees := by
  rw [subtrees_eq]
  simp

/-- Induction over a tree in which all nodes are treated alike. -/
theorem children_induct {P : WorkflowContinuation → Prop}
    (step : ∀ c : WorkflowContinuation, (∀ d ∈ c.children, P d) → P c)
    (c : WorkflowContinuation) : P c := by
  induction hn : c.subtrees.length using Nat.strong_induction_on generalizing c with
  | _ n ih =>
    refine step c fun d hd => ih _ ?_ d rfl
    rw [← hn, subtrees_eq c, List.length_cons, Nat.lt_succ_iff, List.flatMap_def]
    exact (List.sublist_flatten_of_mem (List.mem_map_of_mem hd)).length_le

theorem every_iff {P : WorkflowContinuation → Prop} :
    c.Every P ↔ P c ∧ ∀ d ∈ c.children, d.Every P := by
  rw [Every, subtrees_eq, List.forall_mem_cons, List.forall_mem_flatMap]
  exact Iff.rfl

theorem taskIdsNext_eq (o : Option WorkflowContinuation) :
    taskIdsNext o = o.toList.flatMap taskIds := by
  cases o <;> simp [taskIdsNext]

theorem taskIdsBranches_eq (cs : List WorkflowContinuation) :
    taskIdsBranches cs = cs.flatMap taskIds := by
  induction cs with
  | nil => rfl
  | cons c cs ih => rw [taskIdsBranches, ih, List.flatMap_cons]

theorem taskIdsRoutes_eq (rs : List (String × WorkflowContinuation)) :
    taskIdsRoutes rs = (rs.map Prod.snd).flatMap taskIds := by
  induction rs with
  | nil => rfl
  | cons r rs ih => rw [taskIdsRoutes, ih, List.map_cons, List.flatMap_cons]

theorem taskIds_eq (c : WorkflowContinuation) :
    c.taskIds = c.id :: c.children.flatMap taskIds := by
  cases c <;> simp [taskIds, children, taskIdsNext_eq, taskIdsBranches_eq, taskIdsRoutes_eq,
    WorkflowContinuation.id]

/-- The ids of the tree are those of its nodes. -/
theorem map_id_subtrees (c : WorkflowContinuation) :
    c.subtrees.map WorkflowContinuation.id = c.taskIds := by
  induction c using children_induct with
  | step c ih =>
    rw [subtrees_eq, taskIds_eq, List.map_cons, List.map_flatMap]
    exact congrArg _ (List.flatMap_congr ih)

/-- What is below a node of the tree is in the tree. -/
theorem subtrees_subset (hn : n ∈ c.subtrees) : n.subtrees ⊆ c.subtrees := by
  induction c using children_induct with
  | step c ih =>
    rcases mem_subtrees.mp hn with rfl | ⟨d, hd, hn⟩
    · exact List.Subset.refl _
    · exact fun k hk => mem_subtrees.mpr (.inr ⟨d, hd, ih d hd hn hk⟩)

theorem child_mem_subtrees (hn : n ∈ c.subtrees) {m : WorkflowContinuation} (hm : m ∈ n.children) :
    m ∈ c.subtrees :=
  subtrees_subset hn (mem_subtrees.mpr (.inr ⟨m, hm, m.mem_subtrees_self⟩))

section digests

variable [Sha256] {c n m : WorkflowContinuation} {t : TaskId}

theorem ids_eq (c : WorkflowContinuation) :
    c.ids = TaskId.sha256 c.id :: c.children.flatMap ids := by
  rw [ids, taskIds_eq, List.map_cons, List.map_flatMap]
  rfl

theorem ids_subset_of_child (h : m ∈ c.children) : m.ids ⊆ c.ids := by
  intro t ht
  rw [ids_eq]
  exact List.mem_cons_of_mem _ (List.mem_flatMap_of_mem h ht)

theorem ids_subset (h : n ∈ c.subtrees) : n.ids ⊆ c.ids := by
  induction c using children_induct with
  | step c ih =>
    rcases mem_subtrees.mp h with rfl | ⟨d, hd, hn⟩
    · exact fun _ ht => ht
    · exact fun t ht => ids_subset_of_child hd (ih d hd hn ht)

/-- With distinct ids every direct subtree has distinct ids. -/
theorem nodup_child (hnd : c.ids.Nodup) (h : m ∈ c.children) : m.ids.Nodup := by
  rw [ids_eq, List.nodup_cons, List.nodup_flatMap] at hnd
  exact hnd.2.1 m h

/-- With distinct ids no two direct subtrees share one. -/
theorem child_unique (hnd : c.ids.Nodup) (hn : n ∈ c.children) (hm : m ∈ c.children)
    (htn : t ∈ n.ids) (htm : t ∈ m.ids) : n = m := by
  rw [ids_eq, List.nodup_cons, List.nodup_flatMap] at hnd
  have hsymm : Std.Symm (Function.onFun List.Disjoint (ids : WorkflowContinuation → List TaskId)) :=
    ⟨fun _ _ h _ hb ha => h ha hb⟩
  by_contra hne
  exact hnd.2.2.forall hn hm hne htn htm

/-- Nodes with the same digest are the same. -/
theorem eq_of_digest (hc : c.ids.Nodup) (hn : n ∈ c.subtrees) (hm : m ∈ c.subtrees)
    (h : TaskId.sha256 n.id = TaskId.sha256 m.id) : n = m := by
  have hnodup : (c.subtrees.map fun n => TaskId.sha256 n.id).Nodup := by
    have := hc
    rwa [ids, ← map_id_subtrees, List.map_map] at this
  exact List.inj_on_of_nodup_map hnodup hn hm h

theorem id_notMem_child (hnd : c.ids.Nodup) (hm : m ∈ c.children) :
    TaskId.sha256 c.id ∉ m.ids := by
  rw [ids_eq, List.nodup_cons] at hnd
  exact fun h => hnd.1 (List.mem_flatMap_of_mem hm h)

end digests

end WorkflowContinuation

end Sayiir
