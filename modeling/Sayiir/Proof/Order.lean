import Sayiir.Proof.Plan

/-!
# The order of tasks and forks

In a tree of tasks and forks whose branches are chains of tasks, a pool executes the
tasks in a fixed order: those before the fork, the branches one after the other, and
the join. There is one exception. If the join of a fork leads to another fork, the
search for the next position goes through the join while the position is still at the
end of the first branch, finds the later fork and moves there, past the other branches
and the join. `order` lists the tasks up to this stray one.
-/

namespace Sayiir

open Backend WorkflowSnapshot

namespace WorkflowContinuation

variable {branches bs : List WorkflowContinuation} {name : String}
  {c first join : WorkflowContinuation} {i k : ℕ}

/-- A chain of tasks. -/
inductive TaskChain : WorkflowContinuation → Prop
  | last (id : String) (fields : TaskFields) : TaskChain (.task id fields none)
  | task (id : String) (fields : TaskFields) (next : WorkflowContinuation) (h : TaskChain next) :
      TaskChain (.task id fields (some next))

/-- A chain of tasks and of forks with a join whose branches are chains of tasks. -/
inductive TaskForks : WorkflowContinuation → Prop
  | last (id : String) (fields : TaskFields) : TaskForks (.task id fields none)
  | task (id : String) (fields : TaskFields) (next : WorkflowContinuation) (h : TaskForks next) :
      TaskForks (.task id fields (some next))
  | fork (id : String) (first : WorkflowContinuation) (branches : List WorkflowContinuation)
      (join : WorkflowContinuation) (hb : ∀ b ∈ first :: branches, TaskChain b)
      (h : TaskForks join) : TaskForks (.fork id (first :: branches) (some join))

theorem TaskChain.taskForks (h : c.TaskChain) : c.TaskForks := by
  induction h with
  | last id fields => exact .last id fields
  | task id fields next _ ih => exact .task id fields next ih

/-! ## The order of the tasks -/

/-- The first task of the last fork of the chain. -/
def lastFork : WorkflowContinuation → Option String
  | .task _ _ (some next) => next.lastFork
  | .fork _ (first :: _) (some join) => some (join.lastFork.getD first.firstTaskId)
  | _ => none

/-- Where the position strays at the end of the first branch of the first fork, if
that fork is followed by another one. -/
def stray : WorkflowContinuation → Option String
  | .task _ _ (some next) => next.stray
  | .fork _ _ (some join) => join.lastFork
  | _ => none

/-- The tasks in the order in which a pool executes them, up to where it strays. -/
def order : WorkflowContinuation → List String
  | .task id _ (some next) => id :: next.order
  | .task id _ none => [id]
  | .fork _ (first :: branches) (some join) => match join.lastFork with
      | none => taskIdsBranches (first :: branches) ++ join.taskIds
      | some name => first.taskIds ++ [name]
  | _ => []

theorem TaskForks.taskChain (h : c.TaskForks) (hl : c.lastFork = none) :
    c.TaskChain := by
  induction h with
  | last id fields => exact .last id fields
  | task id fields next _ ih =>
    unfold lastFork at hl
    exact .task id fields next (ih hl)
  | fork id first branches join =>
    unfold lastFork at hl
    cases hl

theorem TaskChain.taskIds_eq (h : c.TaskChain) :
    ∃ rest, c.taskIds = c.firstTaskId :: rest := by
  cases h with
  | last id fields => exact ⟨[], rfl⟩
  | task id fields next => exact ⟨next.taskIds, rfl⟩

/-! ## The tasks of the tree -/

/-- The tasks of the tree, depth first in the order of declaration. -/
def declared (c : WorkflowContinuation) : List String := (c.subtrees.filter isTask).map id

theorem mem_declared : name ∈ c.declared ↔ ∃ n ∈ c.subtrees, n.isTask ∧ n.id = name := by
  simp only [declared, List.mem_map, List.mem_filter, and_assoc]

theorem declared_sublist (c : WorkflowContinuation) : c.declared.Sublist c.taskIds := by
  rw [← map_id_subtrees]
  exact List.filter_sublist.map _

theorem declared_task (name : String) (fields : TaskFields) (next : WorkflowContinuation) :
    (task name fields (some next)).declared = name :: next.declared := by
  simp only [declared, subtrees, subtreesNext]
  rfl

theorem declared_last (name : String) (fields : TaskFields) :
    (task name fields none).declared = [name] := by
  simp only [declared, subtrees, subtreesNext]
  rfl

theorem TaskChain.declared_eq (h : c.TaskChain) :
    c.declared = c.taskIds := by
  induction h with
  | last name fields => simp [declared_last, taskIds, taskIdsNext]
  | task name fields next _ ih => simp [declared_task, taskIds, taskIdsNext, ih]

theorem declared_fork (hb : ∀ b ∈ branches, b.TaskChain) :
    (fork name branches (some join)).declared
      = taskIdsBranches branches ++ join.declared := by
  have hbranches : ((subtreesBranches branches).filter isTask).map id = taskIdsBranches branches := by
    induction branches with
    | nil => rfl
    | cons b bs ih =>
      have hhead := (hb b (by simp)).declared_eq
      simp only [subtreesBranches, List.filter_append, List.map_append, taskIdsBranches,
        ih fun b' hb' => hb b' (by simp [hb'])]
      rw [← hhead]
      rfl
  rw [← hbranches]
  simp only [declared, subtrees, subtreesNext, List.filter_cons, isTask, Bool.false_eq_true,
    if_false, List.filter_append, List.map_append]

theorem TaskForks.declared_head (h : c.TaskForks) :
    ∃ rest, c.declared = c.firstTaskId :: rest := by
  cases h with
  | last name fields => exact ⟨[], declared_last name fields⟩
  | task name fields next => exact ⟨next.declared, declared_task name fields next⟩
  | fork name first branches join hb =>
    obtain ⟨rest, hrest⟩ := (hb first (by simp)).taskIds_eq
    rw [declared_fork hb]
    exact ⟨rest ++ taskIdsBranches branches ++ join.declared, by
      simp [taskIdsBranches, hrest, firstTaskId]⟩

theorem TaskForks.firstTaskId_mem (h : c.TaskForks) :
    c.firstTaskId ∈ c.taskIds := by
  obtain ⟨rest, hrest⟩ := h.declared_head
  exact c.declared_sublist.subset (by simp [hrest])

theorem TaskForks.lastFork_declared (h : c.TaskForks) (hl : c.lastFork = some name) :
    name ∈ c.declared := by
  induction h with
  | last id fields => cases hl
  | task id fields next _ ih =>
    unfold lastFork at hl
    simp [declared_task, ih hl]
  | fork id first branches join hb _ ih =>
    unfold lastFork at hl
    rw [declared_fork hb]
    cases hj : join.lastFork with
    | none =>
      obtain ⟨rest, hrest⟩ := (hb first (by simp)).taskIds_eq
      obtain rfl : first.firstTaskId = name := by simpa [hj] using hl
      simp [taskIdsBranches, hrest]
    | some n =>
      obtain rfl : n = name := by simpa [hj] using hl
      simp [ih hj]

theorem TaskForks.lastFork_mem (h : c.TaskForks) (hl : c.lastFork = some name) :
    name ∈ c.taskIds := c.declared_sublist.subset (h.lastFork_declared hl)

/-- The order consists of tasks. -/
theorem TaskForks.order_sublist (h : c.TaskForks) : c.order.Sublist c.declared := by
  induction h with
  | last id fields => rw [declared_last, order]
  | task id fields next _ ih =>
    rw [declared_task, order]
    exact ih.cons_cons id
  | fork id first branches join hb hj ih =>
    rw [declared_fork hb, order]
    cases hl : join.lastFork with
    | none => rw [(hj.taskChain hl).declared_eq]
    | some name =>
      exact (List.sublist_append_left _ _).append
        (List.singleton_sublist.mpr (hj.lastFork_declared hl))

/-- The order leaves out a task only if it strays. -/
theorem TaskForks.order_eq_declared (h : c.TaskForks) (hs : c.stray = none) :
    c.order = c.declared := by
  induction h with
  | last id fields => rw [declared_last, order]
  | task id fields next _ ih =>
    unfold stray at hs
    rw [declared_task, order, ih hs]
  | fork id first branches join hb hj ih =>
    unfold stray at hs
    rw [declared_fork hb, order, hs, (hj.taskChain hs).declared_eq]

theorem TaskForks.order_subset (h : c.TaskForks) : c.order ⊆ c.taskIds :=
  (h.order_sublist.trans c.declared_sublist).subset

theorem TaskForks.order_head (h : c.TaskForks) :
    ∃ rest, c.order = c.firstTaskId :: rest := by
  cases h with
  | last id fields => exact ⟨[], rfl⟩
  | task id fields next => exact ⟨next.order, rfl⟩
  | fork id first branches join hb =>
    obtain ⟨rest, hrest⟩ := (hb first (by simp)).taskIds_eq
    unfold order
    cases join.lastFork with
    | none => exact ⟨rest ++ taskIdsBranches branches ++ join.taskIds, by
        simp [taskIdsBranches, hrest, firstTaskId]⟩
    | some name => exact ⟨rest ++ [name], by simp [hrest, firstTaskId]⟩

theorem TaskForks.getLast_order (h : c.TaskForks)
    (hs : c.stray = some name) : c.order.getLast? = some name := by
  induction h with
  | last id fields => cases hs
  | task id fields next hnext ih =>
    unfold stray at hs
    obtain ⟨rest, hrest⟩ := hnext.order_head
    have hlast := ih hs
    rw [hrest] at hlast
    unfold order
    rw [hrest, List.getLast?_cons_cons, hlast]
  | fork id first branches join =>
    unfold stray at hs
    unfold order
    simp [hs]

/-! ## The nodes of the tree -/

theorem TaskChain.isTask_of_mem {n : WorkflowContinuation} (h : c.TaskChain)
    (hn : n ∈ c.subtrees) : ∃ id fields next, n = .task id fields next := by
  induction h with
  | last id fields =>
    obtain rfl : n = .task id fields none := by simpa [subtrees, subtreesNext] using hn
    exact ⟨id, fields, none, rfl⟩
  | task id fields next _ ih =>
    simp only [subtrees, subtreesNext, List.mem_cons] at hn
    rcases hn with rfl | hn
    · exact ⟨id, fields, some next, rfl⟩
    · exact ih hn

theorem TaskChain.loopFree (h : c.TaskChain) :
    ∀ n ∈ c.subtrees, n.isLoop = false := by
  intro n hn
  obtain ⟨id, fields, next, rfl⟩ := h.isTask_of_mem hn
  rfl

theorem TaskForks.loopFree (h : c.TaskForks) :
    ∀ n ∈ c.subtrees, n.isLoop = false := by
  induction h with
  | last id fields => simp [subtrees, subtreesNext, isLoop]
  | task id fields next _ ih => simpa [subtrees, subtreesNext, isLoop] using ih
  | fork id first branches join hb _ ih =>
    intro n hn
    simp only [subtrees, subtreesNext, List.mem_cons, List.mem_append, mem_subtreesBranches] at hn
    rcases hn with rfl | ⟨b, hmem, hn⟩ | hn
    · rfl
    · exact (hb b (by simpa using hmem)).loopFree n hn
    · exact ih n hn

end WorkflowContinuation

/-! ## Moving on -/

/-- The result is the snapshot at another task. -/
abbrev MovesTo (r : Except RuntimeError WorkflowSnapshot) (s : WorkflowSnapshot) (u : TaskId) :
    Prop :=
  ∃ hint, r = .ok ((s.updatePosition (.atTask u)).setTaskHint hint)

theorem currentTaskId_moved {u : TaskId} {s : WorkflowSnapshot} (hp : s.isInProgress)
    (hint : TaskHint) :
    ((s.updatePosition (.atTask u)).setTaskHint hint).currentTaskId = some u := by
  obtain ⟨position, completed, last, hs⟩ := isInProgress_iff.mp hp
  simp [WorkflowSnapshot.currentTaskId, setTaskHint,
    updatePosition, hs]

theorem currentTaskId_of_position {t : TaskId} {s : WorkflowSnapshot} (hp : s.isInProgress)
    (hpos : s.position = some (.atTask t)) : s.currentTaskId = some t := by
  obtain ⟨position, completed, last, hs⟩ := isInProgress_iff.mp hp
  obtain rfl : position = .atTask t := by simpa [WorkflowSnapshot.position, hs] using hpos
  simp [WorkflowSnapshot.currentTaskId, hs]

/-- Moving to where the snapshot is. -/
theorem moved_self {t : TaskId} {s : WorkflowSnapshot} (hp : s.isInProgress)
    (hpos : s.position = some (.atTask t)) : MovesTo (.ok s) s t := by
  obtain ⟨position, completed, last, hs⟩ := isInProgress_iff.mp hp
  obtain rfl : position = .atTask t := by simpa [WorkflowSnapshot.position, hs] using hpos
  refine ⟨⟨default, s.taskPriority, s.taskTags⟩, ?_⟩
  obtain ⟨instanceId, hash, state, _, _, _, _, _, _, _⟩ := s
  simp only at hs
  subst hs
  rfl

section moves

variable [Sha256] {t u : TaskId} {s : WorkflowSnapshot} {now : Time} {c : WorkflowContinuation}

namespace WorkflowContinuation

theorem TaskForks.setPositionAt (h : c.TaskForks) :
    setPositionAt now c s
      = .ok ((s.updatePosition (.atTask (TaskId.sha256 c.firstTaskId))).setTaskHint
          c.firstTaskHint) := by
  cases h <;> rfl

/-! ### A chain of tasks -/

theorem TaskChain.update_of_notMem (h : c.TaskChain) (ht : t ∉ c.ids) :
    c.updatePositionAfterTask now t s = .ok s := by
  induction h with
  | last id fields =>
    unfold updatePositionAfterTask updatePositionNext
    rw [if_neg fun he => ht (by simp [he])]
  | task id fields next _ ih =>
    unfold updatePositionAfterTask updatePositionNext
    rw [if_neg fun he => ht (by simp [he]), ih fun hm => ht (by simp [hm])]

theorem TaskChain.update_next (h : c.TaskChain) (hnd : c.ids.Nodup)
    (hk : c.ids[k]? = some t) (hk1 : c.ids[k + 1]? = some u) :
    MovesTo (c.updatePositionAfterTask now t s) s u := by
  induction h generalizing k with
  | last id fields => simp at hk1
  | task id fields next hnext ih =>
    simp only [ids_task, idsNext_some, List.nodup_cons] at hnd hk hk1
    unfold updatePositionAfterTask updatePositionNext
    cases k with
    | zero =>
      obtain rfl : TaskId.sha256 id = t := by simpa using hk
      obtain ⟨rest, hrest⟩ := hnext.taskIds_eq
      obtain rfl : TaskId.sha256 next.firstTaskId = u := by
        simpa [ids, hrest] using hk1
      rw [if_pos rfl]
      exact ⟨_, hnext.taskForks.setPositionAt⟩
    | succ k =>
      have hmem : t ∈ next.ids := List.mem_of_getElem? hk
      rw [if_neg fun he : TaskId.sha256 id = t => hnd.1 (he ▸ hmem)]
      exact ih hnd.2 hk hk1

theorem TaskChain.update_last (h : c.TaskChain) (hnd : c.ids.Nodup)
    (hk : c.ids[k]? = some t) (hlast : c.ids.length = k + 1) :
    c.updatePositionAfterTask now t s = .ok s := by
  induction h generalizing k with
  | last id fields =>
    unfold updatePositionAfterTask updatePositionNext moveTo
    split <;> rfl
  | task id fields next hnext ih =>
    simp only [ids_task, idsNext_some, List.nodup_cons, List.length_cons] at hnd hk hlast
    unfold updatePositionAfterTask updatePositionNext
    cases k with
    | zero =>
      obtain ⟨rest, hrest⟩ := hnext.taskIds_eq
      simp [ids, hrest] at hlast
    | succ k =>
      have hmem : t ∈ next.ids := List.mem_of_getElem? hk
      rw [if_neg fun he : TaskId.sha256 id = t => hnd.1 (he ▸ hmem)]
      exact ih hnd.2 hk (by omega)

/-! ### Branches -/

theorem updateBranches_of_notMem (h : ∀ b ∈ bs, b.TaskChain)
    (ht : t ∉ idsBranches bs) : updatePositionBranches now t bs s = .ok s := by
  induction bs with
  | nil => rfl
  | cons b bs ih =>
    simp only [idsBranches_cons, List.mem_append, not_or] at ht
    unfold updatePositionBranches
    rw [(h b (by simp)).update_of_notMem ht.1]
    exact ih (fun d hd => h d (by simp [hd])) ht.2

/-- Only the branch with the task in it does something. -/
theorem updateBranches_mid {before after : List WorkflowContinuation} {b : WorkflowContinuation}
    (h : ∀ b' ∈ before ++ b :: after, b'.TaskChain) (hbefore : t ∉ idsBranches before)
    (hafter : t ∉ idsBranches after) :
    updatePositionBranches now t (before ++ b :: after) s = b.updatePositionAfterTask now t s := by
  induction before with
  | nil =>
    rw [List.nil_append]
    unfold updatePositionBranches
    cases hb : b.updatePositionAfterTask now t s with
    | error e => rfl
    | ok s' => exact updateBranches_of_notMem (fun d hd => h d (by simp [hd])) hafter
  | cons d ds ih =>
    simp only [idsBranches_cons, List.mem_append, not_or] at hbefore
    rw [List.cons_append]
    unfold updatePositionBranches
    rw [(h d (by simp)).update_of_notMem hbefore.1]
    exact ih (fun e he => h e (by simp only [List.cons_append, List.mem_cons]; exact .inr he))
      hbefore.2

theorem advanceFork_of_moved {join : Option WorkflowContinuation} (h : s.currentTaskId ≠ some t) :
    advanceFork now t branches join s = .ok s := by
  unfold advanceFork
  rw [if_neg h]

/-- A fork leaves alone what has moved inside of it. -/
theorem movesTo_advanceFork {r : Except RuntimeError WorkflowSnapshot}
    {join : Option WorkflowContinuation} (h : MovesTo r s u) (hp : s.isInProgress) (hne : u ≠ t) :
    MovesTo (r.bind (advanceFork now t branches join)) s u := by
  obtain ⟨hint, rfl⟩ := h
  refine ⟨hint, advanceFork_of_moved ?_⟩
  rw [currentTaskId_moved hp]
  exact fun he => hne (Option.some.inj he)

/-! ### Trees with forks -/

theorem update_eq_join {id : String} {s' : WorkflowSnapshot}
    (h : updatePositionBranches now t branches s = .ok s') :
    (fork id branches (some join)).updatePositionAfterTask now t s
      = (join.updatePositionAfterTask now t s').bind (advanceFork now t branches (some join)) := by
  rw [updatePositionAfterTask, h]
  rfl

theorem TaskForks.update_of_notMem (h : c.TaskForks) (ht : t ∉ c.ids)
    (hcur : s.currentTaskId ≠ some t) : c.updatePositionAfterTask now t s = .ok s := by
  induction h with
  | last id fields =>
    unfold updatePositionAfterTask updatePositionNext
    rw [if_neg fun he => ht (by simp [he])]
  | task id fields next _ ih =>
    unfold updatePositionAfterTask updatePositionNext
    rw [if_neg fun he => ht (by simp [he]), ih fun hm => ht (by simp [hm])]
  | fork id first branches join hb _ ih =>
    simp only [ids_fork, idsNext_some, List.mem_cons, List.mem_append, not_or] at ht
    rw [update_eq_join (updateBranches_of_notMem hb ht.2.1), ih ht.2.2]
    exact advanceFork_of_moved hcur

/-- A task that is not in the tree and that the position has not moved away from makes
the last fork of the tree begin. -/
theorem TaskForks.update_stray (h : c.TaskForks) (ht : t ∉ c.ids)
    (hcur : s.currentTaskId = some t) (hrec : ∀ u ∈ c.ids, s.getTaskResult u = none)
    (hl : c.lastFork = some name) :
    MovesTo (c.updatePositionAfterTask now t s) s (TaskId.sha256 name) := by
  induction h with
  | last id fields => cases hl
  | task id fields next _ ih =>
    unfold lastFork at hl
    unfold updatePositionAfterTask updatePositionNext
    rw [if_neg fun he => ht (by simp [he])]
    exact ih (fun hm => ht (by simp [hm])) (fun u hu => hrec u (by simp [hu])) hl
  | fork id first branches join hb hj ih =>
    have hp : s.isInProgress := by
      unfold WorkflowSnapshot.currentTaskId at hcur
      split at hcur
      · rename_i hs
        simp [isInProgress, hs]
      · cases hcur
    simp only [ids_fork, idsNext_some, List.mem_cons, List.mem_append, not_or] at ht hrec
    unfold lastFork at hl
    rw [update_eq_join (updateBranches_of_notMem hb ht.2.1)]
    cases hjl : join.lastFork with
    | some n =>
      obtain rfl : n = name := by simpa [hjl] using hl
      refine movesTo_advanceFork (ih ht.2.2 (fun u hu => hrec u (.inr (.inr hu))) hjl) hp ?_
      rintro rfl
      exact ht.2.2 (List.mem_map_of_mem (hj.lastFork_mem hjl))
    | none =>
      obtain rfl : first.firstTaskId = name := by simpa [hjl] using hl
      rw [(hj.taskChain hjl).update_of_notMem ht.2.2]
      obtain ⟨rest, hrest⟩ := (hb first (by simp)).taskIds_eq
      have hfirst : s.getTaskResult (TaskId.sha256 first.firstTaskId) = none :=
        hrec _ (.inr (.inl (by simp [ids, hrest])))
      simp only [Except.bind, advanceFork, hcur, if_true, List.find?_cons, hfirst,
        Option.isNone_none]
      exact ⟨_, (hb first (by simp)).taskForks.setPositionAt⟩

/-! ### The next task of the order -/

theorem idsBranches_append (bs cs : List WorkflowContinuation) :
    idsBranches (bs ++ cs) = idsBranches bs ++ idsBranches cs := by
  induction bs with
  | nil => rfl
  | cons b bs ih => simp [ih]

/-- The branch a task is in. -/
theorem exists_branch (h : (idsBranches bs)[k]? = some t) :
    ∃ before b after i, bs = before ++ b :: after ∧ k = (idsBranches before).length + i
      ∧ b.ids[i]? = some t := by
  induction bs generalizing k with
  | nil => simp at h
  | cons b bs ih =>
    rw [idsBranches_cons] at h
    by_cases hlt : k < b.ids.length
    · rw [List.getElem?_append_left hlt] at h
      exact ⟨[], b, bs, k, rfl, by simp, h⟩
    · rw [List.getElem?_append_right (by omega)] at h
      obtain ⟨before, b', after, i, rfl, hk, hi⟩ := ih h
      refine ⟨b :: before, b', after, i, rfl, ?_, hi⟩
      simp only [idsBranches_cons, List.length_append]
      omega

/-- A fork moves on to its next branch, or to its join. -/
theorem advanceFork_branch {before after : List WorkflowContinuation}
    {b : WorkflowContinuation} (hchain : ∀ b' ∈ before ++ b :: after, b'.TaskChain)
    (hj : join.TaskForks) (hcur : s.currentTaskId = some t)
    (hstarted : ∀ b' ∈ before ++ [b], (s.getTaskResult (TaskId.sha256 b'.firstTaskId)).isSome)
    (hafter : ∀ b' ∈ after, s.getTaskResult (TaskId.sha256 b'.firstTaskId) = none) :
    MovesTo (advanceFork now t (before ++ b :: after) (some join) s) s
      (TaskId.sha256 (after.head?.getD join).firstTaskId) := by
  have hskip : ∀ l : List WorkflowContinuation,
      (∀ b' ∈ l, (s.getTaskResult (TaskId.sha256 b'.firstTaskId)).isSome) →
      ∀ l', (l ++ l').find? (fun b => (s.getTaskResult (TaskId.sha256 b.firstTaskId)).isNone)
        = l'.find? fun b => (s.getTaskResult (TaskId.sha256 b.firstTaskId)).isNone := by
    intro l hl l'
    rw [List.find?_append, List.find?_eq_none.mpr, Option.none_or]
    intro b' hb'
    simpa [Option.isNone_iff_eq_none, ← Option.isSome_iff_ne_none] using hl b' hb'
  unfold advanceFork
  rw [if_pos hcur]
  have hsplit : before ++ b :: after = (before ++ [b]) ++ after := by simp
  rw [hsplit, hskip _ hstarted]
  cases after with
  | nil => exact ⟨_, hj.setPositionAt⟩
  | cons a as =>
    have ha := hafter a (by simp)
    simp only [List.find?_cons, ha, Option.isNone_none]
    exact ⟨_, (hchain a (by simp)).taskForks.setPositionAt⟩

/-- The digests of the order. -/
def orderIds (c : WorkflowContinuation) : List TaskId := c.order.map TaskId.sha256

theorem TaskForks.orderIds_subset (h : c.TaskForks) : c.orderIds ⊆ c.ids :=
  List.map_subset _ h.order_subset

theorem orderIds_task (id : String) (fields : TaskFields) (next : WorkflowContinuation) :
    (task id fields (some next)).orderIds
      = TaskId.sha256 id :: next.orderIds := rfl

theorem orderIds_fork {id : String} (h : join.lastFork = none) :
    (fork id (first :: branches) (some join)).orderIds
      = idsBranches (first :: branches) ++ join.ids := by
  unfold orderIds order
  rw [h]
  simp [ids, idsBranches]

theorem orderIds_stray {id : String} (h : join.lastFork = some name) :
    (fork id (first :: branches) (some join)).orderIds
      = first.ids ++ [TaskId.sha256 name] := by
  unfold orderIds order
  rw [h]
  simp [ids]

theorem TaskChain.first_mem_ids (h : c.TaskChain) : TaskId.sha256 c.firstTaskId ∈ c.ids := by
  obtain ⟨rest, hrest⟩ := h.taskIds_eq
  simp [ids, hrest]

section fork

variable {id : String} {before after : List WorkflowContinuation} {b join : WorkflowContinuation}

/-- Inside of a branch the position moves to the next task of the branch. -/
theorem update_inside (hb : ∀ b' ∈ before ++ b :: after, b'.TaskChain) (hj : join.TaskForks)
    (hbefore : t ∉ idsBranches before) (hafter : t ∉ idsBranches after) (hjoin : t ∉ join.ids)
    (hnd : b.ids.Nodup) (hi : b.ids[i]? = some t) (hu : b.ids[i + 1]? = some u)
    (hp : s.isInProgress) :
    MovesTo ((fork id (before ++ b :: after) (some join)).updatePositionAfterTask now t s) s u := by
  obtain ⟨hint, hmove⟩ : MovesTo (b.updatePositionAfterTask now t s) s u :=
    (hb b (by simp)).update_next hnd hi hu
  have hne : u ≠ t := by
    rintro rfl
    have hlt : i < b.ids.length := by
      rw [List.getElem?_eq_some_iff] at hi
      exact hi.1
    have := (List.getElem?_inj hlt hnd).mp (hi.trans hu.symm)
    omega
  have hcur : ((s.updatePosition (.atTask u)).setTaskHint hint).currentTaskId ≠ some t := by
    rw [currentTaskId_moved hp]
    exact fun he => hne (Option.some.inj he)
  refine ⟨hint, ?_⟩
  rw [update_eq_join ((updateBranches_mid hb hbefore hafter).trans hmove),
    hj.update_of_notMem hjoin hcur]
  exact advanceFork_of_moved hcur

/-- At the end of a branch the next branch begins, or the join. -/
theorem update_branchEnd (hb : ∀ b' ∈ before ++ b :: after, b'.TaskChain) (hj : join.TaskChain)
    (hbefore : t ∉ idsBranches before) (hafter : t ∉ idsBranches after) (hjoin : t ∉ join.ids)
    (hnd : b.ids.Nodup) (hi : b.ids[i]? = some t) (hlen : b.ids.length = i + 1)
    (hcur : s.currentTaskId = some t)
    (hstarted : ∀ u ∈ idsBranches before ++ b.ids, (s.getTaskResult u).isSome)
    (hfresh : ∀ u ∈ idsBranches after, s.getTaskResult u = none) :
    MovesTo ((fork id (before ++ b :: after) (some join)).updatePositionAfterTask now t s) s
      (TaskId.sha256 (after.head?.getD join).firstTaskId) := by
  rw [update_eq_join ((updateBranches_mid hb hbefore hafter).trans
    ((hb b (by simp)).update_last hnd hi hlen)), hj.update_of_notMem hjoin]
  refine advanceFork_branch hb hj.taskForks hcur (fun b' hb' => ?_) fun b' hb' => ?_
  · refine hstarted _ ?_
    rcases List.mem_append.mp hb' with hb' | hb'
    · exact List.mem_append_left _ (mem_idsBranches hb' (hb b' (by simp [hb'])).first_mem_ids)
    · obtain rfl : b' = b := by simpa using hb'
      exact List.mem_append_right _ (hb b' (by simp)).first_mem_ids
  · exact hfresh _ (mem_idsBranches hb' (hb b' (by simp [hb'])).first_mem_ids)

/-- In the join the position moves to the next task; after the last one it moves back to
the beginning of the join. -/
theorem update_inJoin (hb : ∀ b ∈ branches, b.TaskChain)
    (hj : join.TaskChain) (hbranches : t ∉ idsBranches branches) (hnd : join.ids.Nodup)
    (hi : join.ids[i]? = some t) (hp : s.isInProgress) (hcur : s.currentTaskId = some t)
    (hstarted : ∀ u ∈ idsBranches branches, (s.getTaskResult u).isSome) :
    ∃ u, MovesTo ((fork id branches (some join)).updatePositionAfterTask now t s) s u
      ∧ (∀ v, join.ids[i + 1]? = some v → u = v) ∧ u ∈ join.ids := by
  have hlt : i < join.ids.length := by
    rw [List.getElem?_eq_some_iff] at hi
    exact hi.1
  rw [update_eq_join (updateBranches_of_notMem hb hbranches)]
  by_cases hi1 : i + 1 < join.ids.length
  · have hnext : join.ids[i + 1]? = some join.ids[i + 1] := List.getElem?_eq_getElem hi1
    refine ⟨_, movesTo_advanceFork (hj.update_next hnd hi hnext) hp ?_,
      fun v hv => Option.some.inj (hnext.symm.trans hv), by simp⟩
    intro he
    have := (List.getElem?_inj hlt hnd).mp (hi.trans (he ▸ hnext).symm)
    omega
  · rw [hj.update_last hnd hi (by omega)]
    -- every branch has begun, so the fork moves to its join again
    have hfind : branches.find? (fun b =>
        (s.getTaskResult (TaskId.sha256 b.firstTaskId)).isNone) = none := by
      rw [List.find?_eq_none]
      intro b' hb'
      have := hstarted _ (mem_idsBranches hb' (hb b' hb').first_mem_ids)
      simpa [Option.isNone_iff_eq_none, ← Option.isSome_iff_ne_none] using this
    refine ⟨TaskId.sha256 join.firstTaskId, ⟨join.firstTaskHint, ?_⟩, ?_, hj.first_mem_ids⟩
    · simp only [Except.bind, advanceFork, hcur, if_true, hfind]
      exact hj.taskForks.setPositionAt
    · intro v hv
      rw [List.getElem?_eq_none (by omega)] at hv
      cases hv

/-- At the end of the first branch of a fork that is followed by another one the position
moves to the last fork. -/
theorem update_astray (hb : ∀ b ∈ first :: branches, b.TaskChain) (hj : join.TaskForks)
    (hl : join.lastFork = some name) (hbranches : t ∉ idsBranches branches) (hjoin : t ∉ join.ids)
    (hnd : first.ids.Nodup) (hi : first.ids[i]? = some t)
    (hlen : first.ids.length = i + 1) (hp : s.isInProgress) (hcur : s.currentTaskId = some t)
    (hfresh : ∀ u ∈ join.ids, s.getTaskResult u = none) :
    MovesTo ((fork id (first :: branches) (some join)).updatePositionAfterTask now t s) s
      (TaskId.sha256 name) := by
  have hmid : updatePositionBranches now t ([] ++ first :: branches) s
      = first.updatePositionAfterTask now t s := updateBranches_mid hb (by simp) hbranches
  rw [List.nil_append] at hmid
  rw [update_eq_join (hmid.trans ((hb first (by simp)).update_last hnd hi hlen))]
  refine movesTo_advanceFork (hj.update_stray hjoin hcur hfresh hl) hp ?_
  rintro rfl
  exact hjoin (List.mem_map_of_mem (hj.lastFork_mem hl))

end fork

/-- Where a task of a fork leads whose join leads to no other fork. -/
theorem update_fork (id : String) (hb : ∀ b ∈ branches, b.TaskChain) (hj : join.TaskChain)
    (hnd : (idsBranches branches ++ join.ids).Nodup)
    (hk : (idsBranches branches ++ join.ids)[k]? = some t) (hp : s.isInProgress)
    (hcur : s.currentTaskId = some t) (hrec : ∀ u ∈ idsBranches branches ++ join.ids,
      (s.getTaskResult u).isSome ↔ u ∈ (idsBranches branches ++ join.ids).take (k + 1)) :
    ∃ u, MovesTo ((fork id branches (some join)).updatePositionAfterTask now t s) s u
      ∧ (∀ v, (idsBranches branches ++ join.ids)[k + 1]? = some v → u = v)
      ∧ u ∈ idsBranches branches ++ join.ids := by
  obtain ⟨hndB, hndJ, hdisj⟩ := List.nodup_append.mp hnd
  by_cases hlt : k < (idsBranches branches).length
  · rw [List.getElem?_append_left hlt] at hk
    obtain ⟨before, b, after, i, rfl, rfl, hi⟩ := exists_branch hk
    have hib : i < b.ids.length := by
      rw [List.getElem?_eq_some_iff] at hi
      exact hi.1
    have htb : t ∈ b.ids := List.mem_of_getElem? hi
    have hjoin : t ∉ join.ids := fun hm => hdisj t (List.mem_of_getElem? hk) t hm rfl
    simp only [idsBranches_append, idsBranches_cons, List.append_assoc] at hndB hrec ⊢
    obtain ⟨-, hndR, hdB⟩ := List.nodup_append.mp hndB
    obtain ⟨hndb, -, hdR⟩ := List.nodup_append.mp hndR
    have hbefore : t ∉ idsBranches before := fun hm => hdB t hm t (by simp [htb]) rfl
    have hafter : t ∉ idsBranches after := fun hm => hdR t htb t hm rfl
    by_cases hi1 : i + 1 < b.ids.length
    · have hnext : b.ids[i + 1]? = some b.ids[i + 1] := List.getElem?_eq_getElem hi1
      refine ⟨_, update_inside hb hj.taskForks hbefore hafter hjoin hndb hi hnext hp,
        fun v hv => ?_, by simp⟩
      rw [List.getElem?_append_right (by omega), List.getElem?_append_left (by omega)] at hv
      have hidx : (idsBranches before).length + i + 1 - (idsBranches before).length = i + 1 := by
        omega
      rw [hidx] at hv
      exact Option.some.inj (hnext.symm.trans hv)
    · have htake : (idsBranches before ++ (b.ids ++ (idsBranches after ++ join.ids))).take
          ((idsBranches before).length + i + 1) = idsBranches before ++ b.ids := by
        rw [← List.append_assoc, List.take_append_of_le_length (by simp; omega)]
        exact List.take_of_length_le (by simp; omega)
      rw [htake] at hrec
      refine ⟨_, update_branchEnd hb hj hbefore hafter hjoin hndb hi (by omega) hcur
        (fun u hu => (hrec u (by rcases List.mem_append.mp hu with h | h <;> simp [h])).mpr hu)
        (fun u hu => by
          rw [← Option.not_isSome_iff_eq_none, hrec u (by simp [hu])]
          intro hin
          rcases List.mem_append.mp hin with hin | hin
          · exact hdB u hin u (by simp [hu]) rfl
          · exact hdR u hin u hu rfl), fun v hv => ?_, ?_⟩
      · rw [List.getElem?_append_right (by omega), List.getElem?_append_right (by omega)] at hv
        have hidx : (idsBranches before).length + i + 1 - (idsBranches before).length - b.ids.length
            = 0 := by omega
        rw [hidx] at hv
        cases after with
        | nil =>
          obtain ⟨rest, hrest⟩ := hj.taskIds_eq
          simpa [ids, hrest] using hv
        | cons a as =>
          obtain ⟨rest, hrest⟩ := (hb a (by simp)).taskIds_eq
          simpa [ids, hrest] using hv
      · cases after with
        | nil => simp [hj.first_mem_ids]
        | cons a as => simp [(hb a (by simp)).first_mem_ids]
  · rw [List.getElem?_append_right (by omega)] at hk
    have hbranches : t ∉ idsBranches branches := fun hm =>
      hdisj t hm t (List.mem_of_getElem? hk) rfl
    obtain ⟨u, hmove, hnext, hu⟩ := update_inJoin hb hj hbranches hndJ hk hp hcur
      (fun u hu => by
        rw [hrec u (by simp [hu]), List.take_append]
        refine List.mem_append_left _ ?_
        rwa [List.take_of_length_le (by omega)])
    refine ⟨u, hmove, fun v hv => hnext v ?_, by simp [hu]⟩
    rw [List.getElem?_append_right (by omega)] at hv
    have hidx : k + 1 - (idsBranches branches).length = k - (idsBranches branches).length + 1 := by
      omega
    rwa [hidx] at hv

/-- In front of a chain along `l` stands one more task. -/
theorem TaskForks.update_task {next : WorkflowContinuation} (hnext : next.TaskForks) {id : String}
    (fields : TaskFields) {l : List TaskId} (hl : l ⊆ next.ids)
    (hhead : ∃ rest, l = TaskId.sha256 next.firstTaskId :: rest) {P : TaskId → Prop}
    (hP : P (TaskId.sha256 next.firstTaskId))
    (hnd : (WorkflowContinuation.task id fields (some next)).ids.Nodup)
    (hk : (TaskId.sha256 id :: l)[k]? = some t)
    (hrec : ∀ u ∈ (WorkflowContinuation.task id fields (some next)).ids,
      (s.getTaskResult u).isSome ↔ u ∈ (TaskId.sha256 id :: l).take (k + 1))
    (ih : ∀ k', k = k' + 1 → l[k']? = some t → next.ids.Nodup →
      (∀ u ∈ next.ids, (s.getTaskResult u).isSome ↔ u ∈ l.take (k' + 1)) →
      ∃ u, MovesTo (next.updatePositionAfterTask now t s) s u
        ∧ (∀ v, l[k' + 1]? = some v → u = v) ∧ P u) :
    ∃ u, MovesTo ((WorkflowContinuation.task id fields (some next)).updatePositionAfterTask
        now t s) s u
      ∧ (∀ v, (TaskId.sha256 id :: l)[k + 1]? = some v → u = v) ∧ P u := by
  simp only [ids_task, idsNext_some, List.nodup_cons] at hnd hrec
  unfold updatePositionAfterTask updatePositionNext
  cases k with
  | zero =>
    obtain rfl : TaskId.sha256 id = t := by simpa using hk
    obtain ⟨rest, rfl⟩ := hhead
    rw [if_pos rfl]
    refine ⟨_, ⟨_, hnext.setPositionAt⟩, fun v hv => ?_, hP⟩
    simpa using hv
  | succ k =>
    have hk' : l[k]? = some t := by simpa using hk
    have hmem : t ∈ next.ids := hl (List.mem_of_getElem? hk')
    rw [if_neg fun he : TaskId.sha256 id = t => hnd.1 (he ▸ hmem)]
    obtain ⟨u, hmove, hv, hu⟩ := ih k rfl hk' hnd.2 fun u hu => by
      rw [hrec u (by simp [hu]), List.take_succ_cons, List.mem_cons]
      refine or_iff_right ?_
      rintro rfl
      exact hnd.1 hu
    exact ⟨u, hmove, by simpa using hv, hu⟩

/-- **The position moves along the order**, as long as it does not stray. -/
theorem TaskForks.update_order (h : c.TaskForks) (hnd : c.ids.Nodup)
    (hk : c.orderIds[k]? = some t) (hstray : c.stray.isSome → k + 1 < c.order.length)
    (hp : s.isInProgress) (hpos : s.position = some (.atTask t))
    (hrec : ∀ u ∈ c.ids, (s.getTaskResult u).isSome ↔ u ∈ c.orderIds.take (k + 1)) :
    ∃ u, MovesTo (c.updatePositionAfterTask now t s) s u
      ∧ (∀ v, c.orderIds[k + 1]? = some v → u = v) ∧ u ∈ c.orderIds := by
  have hcur := currentTaskId_of_position hp hpos
  induction h generalizing k with
  | last id fields =>
    have hk0 : k = 0 := by
      have := (List.getElem?_eq_some_iff.mp hk).1
      simpa [orderIds, order] using this
    subst hk0
    obtain rfl : TaskId.sha256 id = t := by simpa [orderIds, order] using hk
    refine ⟨TaskId.sha256 id, ?_, by simp [orderIds, order], by simp [orderIds, order]⟩
    rw [updatePositionAfterTask, if_pos rfl]
    exact moved_self hp hpos
  | task id fields next hnext ih =>
    obtain ⟨rest, hrest⟩ := hnext.order_head
    have hhead : next.orderIds = TaskId.sha256 next.firstTaskId :: rest.map TaskId.sha256 := by
      simp [orderIds, hrest]
    rw [orderIds_task] at hk hrec ⊢
    refine hnext.update_task fields hnext.orderIds_subset ⟨_, hhead⟩ (by simp [hhead]) hnd hk hrec ?_
    rintro k rfl hk hnd hrec
    obtain ⟨u, hmove, hv, hu⟩ := ih hnd hk (fun hs => by
      have := hstray hs
      simp only [order, List.length_cons] at this
      omega) hrec
    exact ⟨u, hmove, hv, List.mem_cons_of_mem _ hu⟩
  | fork id first branches join hb hj ih =>
    simp only [ids_fork, idsNext_some, List.nodup_cons] at hnd
    cases hl : join.lastFork with
    | none =>
      rw [orderIds_fork hl] at hk hrec ⊢
      exact update_fork id hb (hj.taskChain hl) hnd.2 hk hp hcur fun u hu => hrec u (by simp_all)
    | some name =>
      have hk1 : k < first.ids.length := by
        have := hstray (by simp [stray, hl])
        simpa [order, hl, ids] using this
      rw [orderIds_stray hl] at hk hrec ⊢
      rw [List.getElem?_append_left hk1] at hk
      have ht : t ∈ first.ids := List.mem_of_getElem? hk
      simp only [idsBranches_cons, List.append_assoc] at hnd
      obtain ⟨hndf, -, hdisj⟩ := List.nodup_append.mp hnd.2
      have hbranches : t ∉ idsBranches branches := fun hm => hdisj t ht t (by simp [hm]) rfl
      have hjoin : t ∉ join.ids := fun hm => hdisj t ht t (by simp [hm]) rfl
      by_cases hk2 : k + 1 < first.ids.length
      · have hnext : first.ids[k + 1]? = some first.ids[k + 1] := List.getElem?_eq_getElem hk2
        have hb' : ∀ b ∈ [] ++ first :: branches, b.TaskChain := hb
        refine ⟨_, update_inside hb' hj (by simp) hbranches hjoin hndf hk hnext hp,
          fun v hv => ?_, by simp⟩
        rw [List.getElem?_append_left hk2] at hv
        exact Option.some.inj (hnext.symm.trans hv)
      · refine ⟨_, update_astray hb hj hl hbranches hjoin hndf hk (by omega) hp hcur
          (fun u hu => by
            rw [← Option.not_isSome_iff_eq_none, hrec u (by simp [hu]),
              List.take_append_of_le_length (by omega)]
            intro hin
            exact hdisj u (List.mem_of_mem_take hin) u (by simp [hu]) rfl),
          fun v hv => ?_, by simp⟩
        have hend : k + 1 = first.ids.length := by omega
        rw [hend] at hv
        simpa using hv

/-! ### The branches that feed a join -/

theorem TaskChain.findForkBranchesForJoin (h : c.TaskChain) (t : TaskId) :
    c.findForkBranchesForJoin t = none := by
  induction h with
  | last id fields => rfl
  | task id fields next _ ih =>
    unfold WorkflowContinuation.findForkBranchesForJoin forkBranchesNext
    exact ih

theorem forkBranchesIn_eq_none (h : ∀ b ∈ bs, b.TaskChain) (t : TaskId) :
    forkBranchesIn t bs = none := by
  induction bs with
  | nil => rfl
  | cons b bs ih =>
    unfold forkBranchesIn
    rw [(h b (by simp)).findForkBranchesForJoin, ih fun d hd => h d (by simp [hd])]
    rfl

theorem TaskForks.first_mem_ids (h : c.TaskForks) : TaskId.sha256 c.firstTaskId ∈ c.ids :=
  List.mem_map_of_mem h.firstTaskId_mem

/-- Only the first task of a join is fed by branches. -/
theorem TaskForks.findForkBranchesForJoin_fork {id : String}
    (hb : ∀ b ∈ first :: branches, b.TaskChain) (ht : t ≠ TaskId.sha256 join.firstTaskId) :
    (WorkflowContinuation.fork id (first :: branches) (some join)).findForkBranchesForJoin t
      = join.findForkBranchesForJoin t := by
  rw [WorkflowContinuation.findForkBranchesForJoin, Option.any_some,
    if_neg (by simpa using Ne.symm ht), forkBranchesIn_eq_none hb, Option.or_none]
  rfl

theorem TaskForks.findForkBranchesForJoin_of_notMem (h : c.TaskForks) (ht : t ∉ c.ids) :
    c.findForkBranchesForJoin t = none := by
  induction h with
  | last id fields => rfl
  | task id fields next _ ih =>
    unfold WorkflowContinuation.findForkBranchesForJoin forkBranchesNext
    exact ih fun hm => ht (by simp [hm])
  | fork id first branches join hb hj ih =>
    simp only [ids_fork, idsNext_some, List.mem_cons, List.mem_append, not_or] at ht
    rw [findForkBranchesForJoin_fork hb, ih ht.2.2]
    rintro rfl
    exact ht.2.2 hj.first_mem_ids

/-! ### Completion -/

theorem TaskChain.isWorkflowComplete_iff (h : c.TaskChain) :
    c.isWorkflowComplete s ↔ ∀ u ∈ c.ids, (s.getTaskResult u).isSome := by
  induction h with
  | last id fields => simp [isWorkflowComplete, isNextComplete]
  | task id fields next _ ih => simp [isWorkflowComplete, isNextComplete, ih]

theorem areBranchesComplete_iff (h : ∀ b ∈ bs, b.TaskChain) :
    areBranchesComplete s bs ↔ ∀ u ∈ idsBranches bs, (s.getTaskResult u).isSome := by
  induction bs with
  | nil => simp [areBranchesComplete]
  | cons b bs ih =>
    simp only [areBranchesComplete, Bool.and_eq_true, (h b (by simp)).isWorkflowComplete_iff,
      ih fun d hd => h d (by simp [hd]), idsBranches_cons, List.mem_append, or_imp, forall_and]

/-- The task ids in the order of declaration. -/
def declaredIds (c : WorkflowContinuation) : List TaskId := c.declared.map TaskId.sha256

theorem declaredIds_task (name : String) (fields : TaskFields) (next : WorkflowContinuation) :
    (task name fields (some next)).declaredIds
      = TaskId.sha256 name :: next.declaredIds := by
  simp [declaredIds, declared_task]

theorem declaredIds_fork (hb : ∀ b ∈ branches, b.TaskChain) :
    (fork name branches (some join)).declaredIds
      = idsBranches branches ++ join.declaredIds := by
  simp [declaredIds, declared_fork hb, idsBranches]

theorem declaredIds_sublist (c : WorkflowContinuation) : c.declaredIds.Sublist c.ids :=
  c.declared_sublist.map _

/-- **A workflow counts as complete when every task has a result.** -/
theorem TaskForks.isWorkflowComplete_declared (h : c.TaskForks) :
    c.isWorkflowComplete s ↔ ∀ u ∈ c.declaredIds, (s.getTaskResult u).isSome := by
  induction h with
  | last name fields => simp [isWorkflowComplete, isNextComplete, declaredIds, declared_last]
  | task name fields next _ ih => simp [isWorkflowComplete, isNextComplete, declaredIds_task, ih]
  | fork name first branches join hb hj ih =>
    simp only [isWorkflowComplete, isNextComplete, Bool.and_eq_true, declaredIds_fork hb,
      areBranchesComplete_iff hb, ih, List.mem_append, or_imp, forall_and]

theorem TaskForks.orderIds_sublist (h : c.TaskForks) : c.orderIds.Sublist c.declaredIds :=
  h.order_sublist.map _

theorem TaskForks.orderIds_nodup (h : c.TaskForks) (hnd : c.ids.Nodup) : c.orderIds.Nodup :=
  hnd.sublist (h.orderIds_sublist.trans c.declaredIds_sublist)

end WorkflowContinuation

end moves

end Sayiir
