import Sayiir.Proof.Order
import Sayiir.Proof.Terminal

/-!
# The join input a worker puts together

In process a fork hands the outputs of its branches to `resolve_join`. A pooled worker
meets the first task of the join as a task like any other: it searches the tree for the
fork whose join starts with that task (`find_fork_branches_for_join`) and collects the
outputs of the branches from the snapshot, each under the id of the last node of the
branch (`terminal_task_id`).

The search compares digests of `first_task_id`. In a tree with distinct ids two joins
never start with the same task: a join that opens with another fork shares its first
task with the first branch of that fork, never with its join. The one exception is a
fork without branches, for which `first_task_id` answers `"unknown"`. A join that opens
with such a fork is taken for one that starts with a task of this name.
-/

namespace Sayiir

open WorkflowContinuation

namespace WorkflowContinuation

variable {c : WorkflowContinuation}

/-! ## Where a tree starts -/

/-- The task the tree starts with, if it does not come to a fork without branches
first. -/
def entry : WorkflowContinuation → Option String
  | .task id .. | .delay id .. | .awaitSignal id .. | .branch id .. => some id
  | .fork _ (first :: _) _ => first.entry
  | .fork _ [] _ => none
  | .loop _ body .. => body.entry
  | .childWorkflow _ child _ => child.entry

/-- `first_task_id` is the first task, or a fixed text for want of one. -/
theorem firstTaskId_eq (c : WorkflowContinuation) : c.firstTaskId = c.entry.getD "unknown" := by
  fun_induction entry c <;> simp_all [firstTaskId]

/-- The first task is at the node itself or in its first direct subtree. -/
theorem entry_cases {name : String} (h : c.entry = some name) :
    (name = c.id ∧ ∀ n bs j, c ≠ .fork n bs j)
      ∨ ∃ first rest, c.children = first :: rest ∧ first.entry = some name := by
  cases c with
  | task id fields next | delay id duration next | awaitSignal id signalName timeout next
  | branch id keyFn branches default next =>
    left
    exact ⟨(Option.some.inj h).symm, by simp⟩
  | fork id branches join =>
    right
    cases branches with
    | nil => cases h
    | cons first rest => exact ⟨first, rest ++ join.toList, rfl, h⟩
  | loop id body maxIterations onMax next => exact .inr ⟨body, next.toList, rfl, h⟩
  | childWorkflow id child next => exact .inr ⟨child, next.toList, rfl, h⟩

/-- The last task of a chain of tasks. -/
def lastTask (c : WorkflowContinuation) : String := c.taskIds.getLastD c.id

theorem TaskChain.terminalTaskId_eq (h : c.TaskChain) :
    c.terminalTaskId = c.lastTask := by
  induction h with
  | last id fields => rfl
  | task id fields next hnext ih =>
    rw [terminalTaskId, ih, lastTask, lastTask]
    obtain ⟨rest, hrest⟩ := hnext.taskIds_eq
    simp only [taskIds, taskIdsNext, hrest, List.getLastD_cons]

theorem TaskChain.lastTask_mem (h : c.TaskChain) :
    c.lastTask ∈ c.taskIds := by
  obtain ⟨rest, hrest⟩ := h.taskIds_eq
  rw [lastTask, hrest, List.getLastD_cons]
  exact List.getLastD_mem_cons

section hashed

variable [Sha256] {c n m : WorkflowContinuation} {t : TaskId} {name : String}
  {branches bs : List WorkflowContinuation}

theorem entry_mem_ids (h : c.entry = some name) : TaskId.sha256 name ∈ c.ids := by
  induction c using children_induct with
  | step c ih =>
    rcases entry_cases h with ⟨rfl, -⟩ | ⟨first, rest, hcs, hfirst⟩
    · exact c.sha256_mem_ids
    · have hmem : first ∈ c.children := by simp [hcs]
      exact ids_subset_of_child hmem (ih first hmem hfirst)

/-! ## The search -/

/-- `find_fork_branches_for_join` stops at this node with these branches. -/
def JoinedAt (t : TaskId) (branches : List WorkflowContinuation) (n : WorkflowContinuation) :
    Prop :=
  ∃ id join, n = .fork id branches (some join) ∧ TaskId.sha256 join.firstTaskId = t

theorem forkBranchesNext_eq (t : TaskId) (o : Option WorkflowContinuation) :
    forkBranchesNext t o = o.toList.findSome? (findForkBranchesForJoin t) := by
  cases o with
  | none => rfl
  | some c => simp [forkBranchesNext]

theorem forkBranchesIn_eq (t : TaskId) (cs : List WorkflowContinuation) :
    forkBranchesIn t cs = cs.findSome? (findForkBranchesForJoin t) := by
  induction cs with
  | nil => rfl
  | cons c cs ih =>
    rw [forkBranchesIn, ih, List.findSome?_cons]
    cases c.findForkBranchesForJoin t <;> rfl

theorem forkBranchesRoutes_eq (t : TaskId) (rs : List (String × WorkflowContinuation)) :
    forkBranchesRoutes t rs = (rs.map Prod.snd).findSome? (findForkBranchesForJoin t) := by
  induction rs with
  | nil => rfl
  | cons r rs ih =>
    rw [forkBranchesRoutes, ih, List.map_cons, List.findSome?_cons]
    cases r.2.findForkBranchesForJoin t <;> rfl

/-- Only forks stop the search; everything else passes it on to the direct subtrees. -/
theorem find_eq_findSome (hc : ∀ n bs j, c ≠ .fork n bs j) :
    c.findForkBranchesForJoin t = c.children.findSome? (findForkBranchesForJoin t) := by
  cases c with
  | fork id branches join => exact absurd rfl (hc id branches join)
  | task id fields next | delay id duration next | awaitSignal id signalName timeout next =>
    rw [findForkBranchesForJoin, forkBranchesNext_eq, children]
  | branch id keyFn branches default next =>
    rw [findForkBranchesForJoin, forkBranchesRoutes_eq, forkBranchesNext_eq,
      forkBranchesNext_eq, children, List.findSome?_append, List.findSome?_append]
  | loop id body maxIterations onMax next =>
    rw [findForkBranchesForJoin, forkBranchesNext_eq, children, List.findSome?_cons]
    cases body.findForkBranchesForJoin t <;> rfl
  | childWorkflow id child next =>
    rw [findForkBranchesForJoin, forkBranchesNext_eq, children, List.findSome?_cons]
    cases child.findForkBranchesForJoin t <;> rfl

theorem find_fork {id : String} {join : Option WorkflowContinuation}
    (h : ¬ (join.any fun j => TaskId.sha256 j.firstTaskId = t) = true) :
    (fork id branches join).findForkBranchesForJoin t
      = (join.toList ++ branches).findSome? (findForkBranchesForJoin t) := by
  rw [findForkBranchesForJoin, if_neg h, forkBranchesNext_eq, forkBranchesIn_eq,
    List.findSome?_append]

/-- One step of the search. -/
theorem find_cases (c : WorkflowContinuation) (t : TaskId) :
    (∃ branches, c.JoinedAt t branches ∧ c.findForkBranchesForJoin t = some branches)
      ∨ (∀ branches, ¬ c.JoinedAt t branches) ∧ ∃ cs : List WorkflowContinuation,
        (∀ d, d ∈ cs ↔ d ∈ c.children)
        ∧ c.findForkBranchesForJoin t = cs.findSome? (findForkBranchesForJoin t) := by
  by_cases hc : ∃ n bs j, c = .fork n bs j
  · obtain ⟨id, branches, join, rfl⟩ := hc
    by_cases h : (join.any fun j => TaskId.sha256 j.firstTaskId = t) = true
    · cases join with
      | none => cases h
      | some j =>
        exact .inl ⟨branches, ⟨id, j, rfl, of_decide_eq_true h⟩,
          by rw [findForkBranchesForJoin, if_pos h]⟩
    · refine .inr ⟨?_, join.toList ++ branches, fun d => ?_, find_fork h⟩
      · rintro _ ⟨id', j, hj, ht⟩
        cases hj
        exact h (by simpa using ht)
      · rw [children, List.mem_append, List.mem_append, or_comm]
  · have hc' : ∀ n bs j, c ≠ .fork n bs j := fun n bs j h => hc ⟨n, bs, j, h⟩
    refine .inr ⟨?_, c.children, fun _ => Iff.rfl, find_eq_findSome hc'⟩
    rintro branches ⟨id, j, h, -⟩
    exact hc' _ _ _ h

/-- What the search returns are the branches of a fork at which it may stop. -/
theorem exists_joinedAt (h : c.findForkBranchesForJoin t = some branches) :
    ∃ n ∈ c.subtrees, n.JoinedAt t branches := by
  induction c using children_induct with
  | step c ih =>
    rcases find_cases c t with ⟨bs, hjoined, hfind⟩ | ⟨-, cs, hcs, hfind⟩
    · obtain rfl : bs = branches := Option.some.inj (hfind.symm.trans h)
      exact ⟨c, mem_subtrees_self c, hjoined⟩
    · obtain ⟨d, hd, hd'⟩ := List.exists_of_findSome?_eq_some (hfind.symm.trans h)
      have hchild := (hcs d).mp hd
      obtain ⟨n, hn, hjoined⟩ := ih d hchild hd'
      exact ⟨n, mem_subtrees.mpr (.inr ⟨d, hchild, hn⟩), hjoined⟩

/-- The search does not miss a fork at which it may stop. -/
theorem find_isSome (hn : n ∈ c.subtrees) (h : n.JoinedAt t branches) :
    (c.findForkBranchesForJoin t).isSome := by
  induction c using children_induct with
  | step c ih =>
    rcases find_cases c t with ⟨bs, -, hfind⟩ | ⟨hnot, cs, hcs, hfind⟩
    · rw [hfind]
      rfl
    · rcases mem_subtrees.mp hn with rfl | ⟨d, hd, hn⟩
      · exact absurd h (hnot branches)
      · rw [hfind, List.isSome_findSome?]
        exact List.any_eq_true.mpr ⟨d, (hcs d).mpr hd, ih d hd hn⟩

/-! ## No two joins start alike -/

/-- A join that has a first task. -/
def JoinEntry (name : String) (n : WorkflowContinuation) : Prop :=
  ∃ id branches join, n = .fork id branches (some join) ∧ join.entry = some name

theorem JoinEntry.mem_ids (h : n.JoinEntry name) : TaskId.sha256 name ∈ n.ids := by
  obtain ⟨id, branches, join, rfl, hname⟩ := h
  exact ids_subset_of_child (by simp [children]) (entry_mem_ids hname)

/-- The first task of a tree is not the first task of a join inside it. -/
theorem JoinEntry.ne_entry (hnd : c.ids.Nodup) (hc : c.entry = some name) (hn : n ∈ c.subtrees)
    {other : String} (h : n.JoinEntry other) : TaskId.sha256 other ≠ TaskId.sha256 name := by
  induction c using children_induct with
  | step c ih =>
    intro heq
    rcases entry_cases hc with ⟨rfl, hnot⟩ | ⟨first, rest, hcs, hfirst⟩
    · -- the node is a task of its own: the join is below it
      rcases mem_subtrees.mp hn with rfl | ⟨d, hd, hn⟩
      · obtain ⟨id, branches, join, rfl, -⟩ := h
        exact hnot _ _ _ rfl
      · exact id_notMem_child hnd hd (heq ▸ ids_subset hn h.mem_ids)
    · have hmem : first ∈ c.children := by simp [hcs]
      have hid : TaskId.sha256 other ∈ first.ids := heq ▸ entry_mem_ids hfirst
      rcases mem_subtrees.mp hn with rfl | ⟨d, hd, hn⟩
      · -- the join of this very fork: the task is in its first branch
        obtain ⟨id, branches, join, rfl, hjoin⟩ := h
        have hjmem : join ∈ (fork id branches (some join)).children := by simp [children]
        obtain rfl := child_unique hnd hmem hjmem hid (entry_mem_ids hjoin)
        cases branches with
        | nil => cases hc
        | cons b bs =>
          have hb : first = b := by
            simp only [children, List.cons_append, List.cons.injEq] at hcs
            exact hcs.1.symm
          subst hb
          rw [ids_fork, List.nodup_cons, List.nodup_append] at hnd
          exact hnd.2.2.2 _ (mem_idsBranches (by simp) hid) _ hid rfl
      · obtain rfl := child_unique hnd hmem hd hid (ids_subset hn h.mem_ids)
        exact ih first hmem (nodup_child hnd hmem) hfirst hn heq

/-- **In a tree with distinct ids a task starts at most one join.** -/
theorem JoinEntry.unique (hnd : c.ids.Nodup) (hn : n ∈ c.subtrees) (hm : m ∈ c.subtrees)
    {other : String} (hname : n.JoinEntry name) (hother : m.JoinEntry other)
    (heq : TaskId.sha256 name = TaskId.sha256 other) : n = m := by
  -- a fork and a join deeper in its own tree: the deeper one would be at the entry
  have key : ∀ {c m : WorkflowContinuation} {a b : String}, c.ids.Nodup → m ∈ c.subtrees →
      c.JoinEntry a → m.JoinEntry b → TaskId.sha256 a = TaskId.sha256 b → c = m := by
    intro c m a b hnd hm ha hb heq
    rcases mem_subtrees.mp hm with rfl | ⟨d, hd, hmd⟩
    · rfl
    · obtain ⟨id, branches, join, rfl, hjoin⟩ := ha
      have hjmem : join ∈ (fork id branches (some join)).children := by simp [children]
      obtain rfl := child_unique hnd hd hjmem (ids_subset hmd hb.mem_ids)
        (heq ▸ entry_mem_ids hjoin)
      exact absurd heq.symm (hb.ne_entry (nodup_child hnd hjmem) hjoin hmd)
  induction c using children_induct with
  | step c ih =>
    rcases mem_subtrees.mp hn with rfl | ⟨d, hd, hn'⟩
    · exact key hnd hm hname hother heq
    · rcases mem_subtrees.mp hm with rfl | ⟨d', hd', hm'⟩
      · exact (key hnd hn hother hname heq.symm).symm
      · obtain rfl := child_unique hnd hd hd' (ids_subset hn' hname.mem_ids)
          (heq ▸ ids_subset hm' hother.mem_ids)
        exact ih d hd (nodup_child hnd hd) hn' hm'

/-- A join with a first task is found by it, and so is one without a first task by the
text that stands for it. -/
theorem joinedAt_iff :
    n.JoinedAt t branches ↔ ∃ id join, n = .fork id branches (some join)
      ∧ TaskId.sha256 (join.entry.getD "unknown") = t := by
  simp only [JoinedAt, firstTaskId_eq]

/-- Beside the join itself only joins without a first task answer to its first task. -/
theorem JoinedAt.eq_or_unknown {id : String} {join : WorkflowContinuation} (hnd : c.ids.Nodup)
    (hfork : fork id branches (some join) ∈ c.subtrees) (hjoin : join.entry = some name)
    (hn : n ∈ c.subtrees) (h : n.JoinedAt (TaskId.sha256 name) bs) :
    n = fork id branches (some join) ∨ ∃ id' join', n = fork id' bs (some join')
      ∧ join'.entry = none ∧ TaskId.sha256 "unknown" = TaskId.sha256 name := by
  obtain ⟨id', join', rfl, ht⟩ := joinedAt_iff.mp h
  cases hentry : join'.entry with
  | none =>
    rw [hentry] at ht
    exact .inr ⟨id', join', rfl, hentry, ht⟩
  | some other =>
    rw [hentry] at ht
    exact .inl (JoinEntry.unique hnd hn hfork ⟨_, _, _, rfl, hentry⟩ ⟨_, _, _, rfl, hjoin⟩ ht)

end hashed

end WorkflowContinuation

namespace Submission

open WorkflowContinuation

section hashed

variable [Sha256]

/-- The outputs of branches that are chains of completed tasks. -/
theorem branchResults_chains {s : WorkflowSnapshot} {outputs : String → Bytes}
    {branches : List WorkflowContinuation} (hb : ∀ b ∈ branches, b.TaskChain)
    (hdone : ∀ b ∈ branches, ∀ u ∈ b.taskIds,
      s.getTaskResultBytes (TaskId.sha256 u) = some (outputs u)) :
    branchResults s branches = .ok (branches.map fun b => (b.id, outputs b.lastTask)) := by
  induction branches with
  | nil => rfl
  | cons b bs ih =>
    have hchain := hb b (by simp)
    have hlast : s.getTaskResultBytes (TaskId.sha256 b.terminalTaskId)
        = some (outputs b.lastTask) := by
      rw [hchain.terminalTaskId_eq]
      exact hdone b (by simp) _ hchain.lastTask_mem
    have hrest := ih (fun d hd => hb d (by simp [hd])) fun d hd => hdone d (by simp [hd])
    rw [branchResults, hlast, hrest]
    rfl

/-- A fork is found by the first task of its join, no other fork is, and what the worker
then passes to this task is what `resolve_join` makes of the branch ids with the
outputs of the last tasks. -/
structure Rebuilds (job : Submission) (id : String) (branches : List WorkflowContinuation)
    (join : WorkflowContinuation) (name : String) : Prop where
  /-- The search returns the branches of the fork. -/
  found : job.continuation.findForkBranchesForJoin (TaskId.sha256 name) = some branches
  /-- There is no other fork at which it could have stopped. -/
  only : ∀ n ∈ job.continuation.subtrees, ∀ bs, n.JoinedAt (TaskId.sha256 name) bs →
    n = .fork id branches (some join)
  /-- The input from any snapshot with the outputs of the branches, or the error of the
  codec. -/
  input : ∀ (task : AvailableTask) (outputs : String → Bytes),
    task.taskId = TaskId.sha256 name →
    (∀ b ∈ branches, ∀ u ∈ b.taskIds,
      task.snapshot.getTaskResultBytes (TaskId.sha256 u) = some (outputs u)) →
    (job.taskInput task).map .continue
      = resolveJoin job.codec (some join) (branches.map fun b => (b.id, outputs b.lastTask))

theorem taskInput_of_found {job : Submission} {name : String}
    {branches : List WorkflowContinuation} (join : WorkflowContinuation)
    (hfound : job.continuation.findForkBranchesForJoin (TaskId.sha256 name) = some branches)
    (hb : ∀ b ∈ branches, b.TaskChain) {task : AvailableTask} {outputs : String → Bytes}
    (ht : task.taskId = TaskId.sha256 name)
    (hdone : ∀ b ∈ branches, ∀ u ∈ b.taskIds,
      task.snapshot.getTaskResultBytes (TaskId.sha256 u) = some (outputs u)) :
    (job.taskInput task).map .continue
      = resolveJoin job.codec (some join) (branches.map fun b => (b.id, outputs b.lastTask)) := by
  rw [taskInput, ht, hfound]
  dsimp only
  rw [branchResults_chains hb hdone]
  dsimp only [resolveJoin]
  cases job.codec.encodeNamedResults (branches.map fun b => (b.id, outputs b.lastTask)) <;> rfl

end hashed

section sample

attribute [local instance] Sha256.packed

/-- A fork whose join begins with a second fork, whose join in turn is the task `d`. -/
def twoJoins : Submission :=
  { twoTasks .postgres with
    continuation := .fork "f" [.task "a" .plain (some (.task "b" .plain none))]
      (some (.fork "g" [.task "c" .plain none] (some (.task "d" .plain none)))) }

/-- A fork whose join opens with a fork without branches, and behind it a fork whose join
is a task called `unknown`. -/
def emptyFork : Submission :=
  { twoTasks .postgres with
    continuation := .fork "g" [.task "b" .plain none]
      (some (.fork "e" [] (some (.fork "f" [.task "a" .plain none]
        (some (.task "unknown" .plain none)))))) }

end sample

end Submission

end Sayiir
