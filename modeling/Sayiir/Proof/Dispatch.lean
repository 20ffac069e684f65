import Sayiir.Proof.Terminal

/-!
# What is dispatched

A position names the node an instance goes to by the id of its first task, and
every component that leaves a wait moves the instance to a task of that id. This
is right if the next node is a task. If it is a wait, the wait is neither entered
nor waited for: its id is offered to the workers as if it were a task.

So a chain of tasks and waits has to begin with a task, and an instance must not
be parked at a wait that is directly followed by another one. In every run that
meets this, every id that is offered is the id of a task.
-/

namespace Sayiir

open Backend WorkflowSnapshot Submission

variable {task : AvailableTask} {w : PoolWorld} {s : WorkflowSnapshot}

/-- Where an instance goes from this position without another task being executed. -/
def ExecutionPosition.target : ExecutionPosition → Option TaskId
  | .atTask taskId => some taskId
  | .atDelay _ _ _ next | .atSignal _ _ _ next => next
  | _ => none

/-- The position is a wait that is followed by something other than the tasks `D`. -/
def ExecutionPosition.beforeWait (D : List TaskId) : ExecutionPosition → Bool
  | .atDelay _ _ _ (some next) | .atSignal _ _ _ (some next) => decide (next ∉ D)
  | _ => false

/-- An instance that is at a task is at one of `D`. -/
def AtTaskIn (D : List TaskId) (s : WorkflowSnapshot) : Prop :=
  ∀ t, s.position = some (.atTask t) → t ∈ D

/-- An instance is at one of the tasks `D` or at a wait that is followed by one. -/
def Aimed (D : List TaskId) (s : WorkflowSnapshot) : Prop :=
  ∀ position t, s.position = some position → position.target = some t → t ∈ D

/-- The task an advance moves an instance to. -/
def Backend.Advance.next : Advance → Option TaskId
  | .delay next => some next
  | .delayDone _ => none
  | .signal _ _ next | .signalTimeout _ _ next => next

/-- No worker commits a task that is followed by two waits in a row. -/
def NoWaitBeforeWait (D : List TaskId) : Action → Pool → Bool
  | .work i _, σ => (σ.processes[i]?).all fun p => match p.phase with
      | .committing _ s _ => !s.position.any (·.beforeWait D)
      | _ => true
  | _, _ => true

/-- What a process holds is aimed at the tasks `D`, except that it may be about to
commit a snapshot parked at a wait before a wait. -/
def Phase.Aims (D : List TaskId) : Phase → Prop
  | .advancing advance => ∀ t, advance.next = some t → t ∈ D
  | .hydrating s => Aimed D s
  | .waking s next => Aimed D s ∧ ∀ t, next = some t → t ∈ D
  | .offered task | .guarding task _ | .executing task | .running task _ _ _ =>
    task.taskId ∈ D ∧ Aimed D task.snapshot
  | .retrying _ s | .failing _ s => Aimed D s
  | .committing _ s _ => AtTaskIn D s
  | .draining _ s _ | .drained _ s _ | .handingBack _ s _ | .concluding s _ _ | .completing s =>
    Aimed D s
  | .resolving saves result _ => (∀ s ∈ saves, Aimed D s) ∧ ∀ s, result = .ok s → Aimed D s
  | .polling | .collecting | .selecting | .releasing _ | .cancelling _ | .cancelled .. | .done =>
    True

/-- The stored snapshot is aimed at the tasks `D`. -/
def StoredAimed (D : List TaskId) (w : PoolWorld) : Prop :=
  ∀ s, w.snapshot = some s → Aimed D s

/-! ## Snapshots -/

section snapshots

variable {D : List TaskId} {s s' : WorkflowSnapshot}

theorem Aimed.of_position (h : Aimed D s) (hp : s'.position = s.position) : Aimed D s' := by
  unfold Aimed at h ⊢
  rwa [hp]

theorem aimed_of_position_none (hp : s.position = none) : Aimed D s := by
  intro position t h
  simp [hp] at h

theorem Aimed.target {position : ExecutionPosition} {completed : CompletedTasks}
    {last : Option TaskId} {t : TaskId} (h : Aimed D s)
    (hs : s.state = .inProgress position completed last) (ht : position.target = some t) :
    t ∈ D := h position t (by simp [WorkflowSnapshot.position, hs]) ht

theorem Aimed.atTaskIn (h : Aimed D s) : AtTaskIn D s := fun t ht => h _ t ht rfl

theorem AtTaskIn.aimed (h : AtTaskIn D s) (hp : s.position.any (·.beforeWait D) = false) :
    Aimed D s := by
  intro position t hs ht
  simp only [hs, Option.any_some] at hp
  unfold ExecutionPosition.target at ht
  split at ht
  · obtain rfl : _ = t := by simpa using ht
    exact h _ hs
  · subst ht
    simpa [ExecutionPosition.beforeWait] using hp
  · subst ht
    simpa [ExecutionPosition.beforeWait] using hp
  · cases ht

theorem aimed_updatePosition {t : TaskId} (h : Aimed D s) (ht : t ∈ D) :
    Aimed D (s.updatePosition (.atTask t)) := by
  intro position u hs hu
  rw [position_updatePosition] at hs
  split at hs
  · obtain rfl : _ = position := by simpa using hs
    obtain rfl : t = u := by simpa [ExecutionPosition.target] using hu
    exact ht
  · exact h position u hs hu

theorem aimed_afterSave {b : Backend} (h : Aimed D s) : Aimed D (b.afterSave s) := by
  cases b
  · exact h
  · exact h

theorem aimed_leaveDrained (payload : Bytes) (h : Aimed D s) :
    Aimed D (leaveDrained payload s) := by
  unfold leaveDrained
  split
  · rename_i signalId signalName wakeAt next completed last hs
    dsimp only
    split
    · rename_i t
      refine aimed_updatePosition (h.of_position (by simp)) ?_
      exact h.target hs rfl
    · exact aimed_of_position_none rfl
  · exact h

/-- What Postgres does with a row is aimed if the row is. -/
theorem aims_dispatchRow (now : Time) (h : Aimed D s) : (dispatchRow now s).Aims D := by
  refine dispatchRow_of trivial (fun _ _ _ next _ _ hs => ?_) fun t _ _ task hs _ htask => ?_
  · cases next with
    | some t =>
      have ht : t ∈ D := h.target hs rfl
      refine ⟨aimed_updatePosition h ht, fun u hu => ?_⟩
      obtain rfl : t = u := by simpa using hu
      exact ht
    | none => exact ⟨aimed_of_position_none rfl, by simp⟩
  · have ht : t ∈ D := h.target hs rfl
    obtain ⟨rfl, rfl, -⟩ := buildAvailableTask_eq_some htask
    exact ⟨ht, h⟩

theorem aims_collectAdvance {advance : Advance} (h : collectAdvance w = some advance)
    (hw : StoredAimed D w) : ∀ t, advance.next = some t → t ∈ D := by
  unfold collectAdvance at h
  intro t ht
  split at h
  · rename_i s hs _
    have hpos := hw s hs
    split at h
    · rename_i next _ _ hst
      refine hpos.target hst ?_
      split at h
      · cases next <;> simp only [Option.some.injEq] at h <;> subst h
        · simp [Advance.next] at ht
        · exact ht
      · cases h
    · rename_i next _ _ hst
      refine hpos.target hst ?_
      split at h
      · simp only [Option.some.injEq] at h
        subst h
        exact ht
      · split at h
        · simp only [Option.some.injEq] at h
          subst h
          exact ht
        · cases h
    · cases h
  · cases h

theorem aims_selectTask {tags : List String}
    (h : selectTask tags w = some task) (hw : StoredAimed D w) :
    task.taskId ∈ D ∧ Aimed D task.snapshot := by
  unfold selectTask at h
  split at h
  · rename_i s hs _
    split at h
    · rename_i t completed last hst
      split at h
      · cases h
      · obtain ⟨rfl, rfl, -⟩ := buildAvailableTask_eq_some h
        exact ⟨(hw _ hs).target hst rfl, hw _ hs⟩
    · cases h
  · cases h

/-- What a process is about to store is aimed. -/
theorem Phase.Aims.toStore {phase : Phase} (h : phase.Aims D) (hs : phase.toStore = some s)
    (hC : ∀ task s output, phase = .committing task s output →
      s.position.any (·.beforeWait D) = false) : Aimed D s := by
  cases phase with
  | waking s' next =>
    obtain rfl : s' = s := by simpa [Phase.toStore] using hs
    exact h.1
  | committing task s' output =>
    obtain rfl : s' = s := by simpa [Phase.toStore] using hs
    exact AtTaskIn.aimed h (hC task s' output rfl)
  | resolving saves result output =>
    cases saves with
    | nil => cases hs
    | cons s' saves =>
      obtain rfl : s' = s := by simpa [Phase.toStore] using hs
      exact h.1 s' (by simp)
  | retrying task s' | failing task s' | drained task s' output | completing s' =>
    obtain rfl : s' = s := by simpa [Phase.toStore] using hs
    exact h
  | _ => cases hs

/-- Leaving a signal wait moves an instance to its target. -/
theorem aimed_received {signalId : TaskId} {payload : Bytes} {next : Option TaskId}
    (h : Aimed D s) (hnext : ∀ t, next = some t → t ∈ D) :
    Aimed D (received signalId payload next s) := by
  cases next with
  | none => exact aimed_of_position_none rfl
  | some t => exact aimed_updatePosition (h.of_position (by simp)) (hnext t rfl)

/-- What Postgres offers on a hint is aimed. -/
theorem aims_findHintedTask {b : Backend} (hint : TaskId)
    (hw : StoredAimed D w) : (offer (b.findHintedTask hint w)).Aims D := by
  unfold findHintedTask
  split
  · rename_i s hs
    dsimp only
    split
    · rename_i hcond
      cases hb : PoolWorld.buildAvailableTask (s.hydrateTaskOutputs w.outputs) hint with
      | none => trivial
      | some task =>
        obtain ⟨hts, rfl, -⟩ := buildAvailableTask_eq_some hb
        have haim : Aimed D (s.hydrateTaskOutputs w.outputs) :=
          (hw s hs).of_position (by simp [hydrateTaskOutputs])
        refine ⟨?_, hts ▸ haim⟩
        simp only [Bool.and_eq_true, decide_eq_true_eq] at hcond
        obtain ⟨⟨hcur, -⟩, -⟩ := hcond
        unfold currentTaskId at hcur
        split at hcur
        · rename_i t completed last hst
          obtain rfl : t = task.taskId := by simpa using hcur
          exact haim.target hst rfl
        · cases hcur
    · trivial
  · trivial

theorem storedAimed_asks {job : Submission} {a : Action} {w' : PoolWorld} (h : Asks job a w w')
    (hw : StoredAimed D w) : StoredAimed D w' := by
  intro s hs
  cases h.delivers with
  | kept h => exact hw s (h.symm.trans hs)
  | received s' signalId signalName payload wakeAt next completed last hb hs' hst hw' =>
    subst hw'
    obtain rfl : _ = s := Option.some.inj hs
    refine Aimed.of_position (aimed_received (hw s' hs') fun t ht => ?_) (position_stored _)
    exact (hw s' hs').target hst ht
  | unpaused s' hs' hw' =>
    subst hw'
    obtain rfl : _ = s := Option.some.inj hs
    exact (hw s' hs').of_position (by simp)

end snapshots

/-- A workflow that is a chain of tasks and waits. -/
def WorkflowContinuation.IsChain (c : WorkflowContinuation) : Prop :=
  ∀ n ∈ c.subtrees, n.isTask || n.isWait

theorem WorkflowContinuation.IsChain.loopFree {c : WorkflowContinuation} (h : c.IsChain) :
    ∀ n ∈ c.subtrees, n.isLoop = false := by
  intro n hn
  have := h n hn
  cases n <;> simp_all [isTask, isWait, isLoop]

/-! ## The moves of a chain -/

section hashed

variable [Sha256]

/-- The digests of the tasks of the tree. -/
def WorkflowContinuation.taskDigests (c : WorkflowContinuation) : List TaskId :=
  (c.subtrees.filter isTask).map fun n => TaskId.sha256 n.id

theorem WorkflowContinuation.mem_taskDigests {c n : WorkflowContinuation} (hn : n ∈ c.subtrees)
    (ht : n.isTask) : TaskId.sha256 n.id ∈ c.taskDigests :=
  List.mem_map.mpr ⟨n, List.mem_filter.mpr ⟨hn, ht⟩, rfl⟩

variable {D : List TaskId}

/-- Entering a node of a chain parks the instance or moves it to a task. -/
theorem atTaskIn_setPositionAt (now : Time) {n : WorkflowContinuation} (hn : n.isTask || n.isWait)
    (hD : n.isTask → TaskId.sha256 n.id ∈ D) :
    Preserves (AtTaskIn D) (n.setPositionAt now) := by
  intro s s' h hs t ht
  unfold WorkflowContinuation.setPositionAt at h
  split at h
  · obtain ⟨wakeAt, -, h⟩ := Except.bind_eq_ok_iff.mp h
    cases h
    rw [position_markTaskCompleted, position_updatePosition] at ht
    split at ht
    · simp at ht
    · exact hs t ht
  · cases h
    rw [position_updatePosition] at ht
    split at ht
    · simp at ht
    · exact hs t ht
  · cases h
    rw [position_setTaskHint, position_updatePosition] at ht
    split at ht
    · rename_i hdelay hsignal _
      cases n with
      | task id fields next =>
        obtain rfl : TaskId.sha256 id = t := by
          simpa [WorkflowContinuation.firstTaskHint, WorkflowContinuation.firstTaskId] using ht
        exact hD rfl
      | delay id duration next => exact absurd rfl (hdelay id duration next)
      | awaitSignal id signalName timeout next =>
        exact absurd rfl (hsignal id signalName timeout next)
      | _ => simp [WorkflowContinuation.isTask, WorkflowContinuation.isWait] at hn
    · exact hs t ht

variable {job : Submission}

theorem atTaskIn_commitSnapshot {output : Bytes} {now : Time} (hchain : job.continuation.IsChain)
    (h : job.commitSnapshot task output now = .ok s)
    (ht : AtTaskIn job.continuation.taskDigests task.snapshot) :
    AtTaskIn job.continuation.taskDigests s := by
  refine preserves_updatePositionAfterTask job.continuation (fun n hn => ?_) _ s h ?_
  · exact atTaskIn_setPositionAt now (hchain n hn) (WorkflowContinuation.mem_taskDigests hn)
  · intro t hp
    exact ht t (by simpa using hp)

/-! ## What a process keeps -/

section process

variable {worker : Worker} {w w' : PoolWorld} {phase phase' : Phase}

theorem aims_settleFailure (e : RuntimeError) (now : Time)
    (h : Aimed D task.snapshot) : (job.settleFailure worker task e now).Aims D :=
  settleFailure_of (aimed_of_position_none rfl) fun _ => h.of_position (by simp)

/-- **A step of a process that does not commit a wait before a wait keeps its aim.** -/
theorem aims_moves (hchain : job.continuation.IsChain)
    (hm : Moves job worker w w' phase phase')
    (hw : StoredAimed job.continuation.taskDigests w)
    (hp : phase.Aims job.continuation.taskDigests)
    (hC : ∀ task s output, phase = .committing task s output →
      s.position.any (·.beforeWait job.continuation.taskDigests) = false) :
    phase'.Aims job.continuation.taskDigests := by
  cases hm with
  | stop | collecting | collected | advanced | stopped | cancelling | retried | failed | checked
  | cancelled => trivial
  | hydrating blob hb h =>
    unfold selectRow at h
    exact hw blob (Option.filter_eq_some_iff.mp h).1
  | advancing advance h => exact aims_collectAdvance h hw
  | selected task h => exact aims_selectTask h hw
  | hydrated blob => exact aims_dispatchRow _ (Aimed.of_position hp (by
      simp [hydrateTaskOutputs]))
  | woke s next task h =>
    obtain ⟨hs, ht⟩ := hp
    obtain ⟨hts, rfl, -⟩ := buildAvailableTask_eq_some h
    exact ⟨ht _ rfl, hts ▸ aimed_afterSave hs⟩
  | claimed | guarding | passed | lost | raised | called | beaten => exact hp
  | unready task e => exact aims_settleFailure e _ hp.2
  | interrupted task outcome deadline failures e => exact aims_settleFailure e _ hp.2
  | settled =>
    exact settle_of trivial (fun e => aims_settleFailure e _ hp.2)
      fun _ s _ hs => atTaskIn_commitSnapshot hchain hs hp.2.atTaskIn
  | committed task s output =>
    have haimed := AtTaskIn.aimed hp (hC task s output rfl)
    exact drain_of (fun _ => aimed_afterSave haimed) (aimed_afterSave haimed)
  | undrained => exact hp
  | draining task s output payload => exact aimed_leaveDrained payload hp
  | drained task s output => exact drain_of (fun _ => aimed_afterSave hp) (aimed_afterSave hp)
  | handedBack task s output =>
    rw [resolveLoops_of_loopFree _ s hchain.loopFree]
    exact hp
  | resolved s saves result output =>
    exact resolve_of trivial (fun s _ hs => hp.2 s hs)
      fun _ => ⟨fun t ht => hp.1 t (by simp [ht]), hp.2⟩
  | unresolved result output => exact resolve_of trivial (fun s _ hs => hp.2 s hs) fun _ => hp
  | concluding => exact hp
  | concluded s output => exact conclude_of trivial fun _ => aimed_of_position_none rfl

end process

/-! ## What is stored -/

section stores

variable {worker : Worker} {w w' : PoolWorld} {phase : Phase}

theorem aimed_applyAdvance {advance : Advance}
    (ha : ∀ t, advance.next = some t → t ∈ D) (hw : StoredAimed D w)
    (hs : (applyAdvance advance w).snapshot = some s) : Aimed D s := by
  cases advance with
  | delay next =>
    obtain ⟨t, ht, rfl⟩ := Option.map_eq_some_iff.mp hs
    exact aimed_updatePosition (hw t ht) (ha next rfl)
  | delayDone delayId =>
    obtain ⟨t, ht, rfl⟩ := Option.map_eq_some_iff.mp hs
    exact aimed_of_position_none rfl
  | signal signalId signalName next | signalTimeout signalId signalName next =>
    obtain ⟨t, ht, rfl⟩ := Option.map_eq_some_iff.mp hs
    exact aimed_received (hw t ht) ha

theorem storedAimed_writes (h : Writes job worker phase w w') (hw : StoredAimed D w)
    (hp : phase.Aims D)
    (hC : ∀ task s output, phase = .committing task s output →
      s.position.any (·.beforeWait D) = false) : StoredAimed D w' := by
  intro s hs
  cases h.stores with
  | kept h => exact hw s (h.symm.trans hs)
  | saved s' h' _ h =>
    obtain rfl : _ = s := Option.some.inj (h.symm.trans hs)
    exact (hp.toStore h' hC).of_position (by simp)
  | advanced advance h' hw' =>
    subst h' hw'
    exact aimed_applyAdvance hp hw hs
  | cancelled s' request taskId hs' _ h =>
    obtain rfl : _ = s := Option.some.inj (h.symm.trans hs)
    exact aimed_of_position_none rfl
  | paused s' request hs' _ h =>
    obtain rfl : _ = s := Option.some.inj (h.symm.trans hs)
    exact (hw s' hs').of_position (by simp)

end stores

/-! ## Whole runs -/

section runs

variable {instanceId : String} {now : Time} {σ : Pool}

/-- A chain that begins with a task is submitted at a task. -/
theorem storedAimed_submitted (hfirst : job.continuation.isTask) :
    StoredAimed job.continuation.taskDigests (job.submitted instanceId now) := by
  intro s hs
  have hmem := WorkflowContinuation.mem_taskDigests job.continuation.mem_subtrees_self hfirst
  have haim : Aimed job.continuation.taskDigests (initialSnapshot instanceId job.definitionHash
      job.input job.continuation.firstTaskHint) := by
    rintro position t ⟨⟩ ⟨⟩
    cases hc : job.continuation with
    | task id fields next =>
      rw [hc] at hmem
      exact hmem
    | _ => simp [hc, WorkflowContinuation.isTask] at hfirst
  obtain rfl : _ = s := Option.some.inj ((job.submitted_eq instanceId now).1.symm.trans hs)
  exact haim.of_position (by simp)

/-- **Only the ids of tasks are offered, claimed and executed**, if the chain begins
with a task and no worker commits a task that is followed by two waits in a row. -/
theorem offered_isTask_of_noWaitBeforeWait (hchain : job.continuation.IsChain)
    (hfirst : job.continuation.isTask)
    (h : job.Reachable (fun a σ => NoWaitBeforeWait job.continuation.taskDigests a σ)
      instanceId now σ) :
    ∀ p ∈ σ.processes, ∀ task, (p.phase = .offered task ∨ p.phase = .executing task) →
      ∃ n ∈ job.continuation.subtrees, n.isTask ∧ task.taskId = TaskId.sha256 n.id := by
  have hinv := (Submission.Reachable.invariant h
    (I := StoredAimed job.continuation.taskDigests)
    (P := fun _ p => p.phase.Aims job.continuation.taskDigests)
    (storedAimed_submitted hfirst) (fun w worker hw => trivial)
    (fun w worker hint hw => aims_findHintedTask hint hw) (fun w p hp => trivial)
    (fun a w w' ha hw => ⟨storedAimed_asks ha hw, fun p hp => hp⟩) ?_).2
  · intro p hp task hphase
    have haims := hinv p hp
    have hmem : task.taskId ∈ job.continuation.taskDigests := by
      rcases hphase with hphase | hphase
      · rw [hphase] at haims
        exact haims.1
      · rw [hphase] at haims
        exact haims.1
    obtain ⟨n, hn, ht⟩ := List.mem_map.mp hmem
    obtain ⟨hn, htask⟩ := List.mem_filter.mp hn
    exact ⟨n, hn, htask, ht.symm⟩
  · intro σ i choice p phase' w' hC hi hw hp hwrites hmoves
    have hcommit : ∀ task s output, p.phase = .committing task s output →
        s.position.any (·.beforeWait job.continuation.taskDigests) = false := by
      intro task s output hphase
      simpa [NoWaitBeforeWait, hi, hphase] using hC
    exact ⟨storedAimed_writes hwrites hw hp hcommit, aims_moves hchain hmoves hw hp hcommit,
      fun q hq => hq⟩

end runs

end hashed

/-! ## Waits that are offered -/

section sample

attribute [local instance] Sha256.packed

/-- The ids of the tasks that processes have been offered. -/
def Pool.offers (σ : Pool) : List TaskId :=
  σ.processes.filterMap fun p => match p.phase with
    | .offered task => some task.taskId
    | _ => none

/-- A chain of appending tasks and waits. -/
def sampleChain (b : Backend) (c : WorkflowContinuation) : Submission where
  backend := b
  codec := .plain
  callbacks := appendingTasks
  continuation := c
  definitionHash := ⟨0⟩
  input := [1]

/-- A delay between two tasks. -/
def delayBetween : WorkflowContinuation :=
  .task "t1" .plain (some (.delay "d1" 5 (some (.task "t2" .plain none))))

/-- Two delays in a row. -/
def delayTwice : WorkflowContinuation :=
  .task "t1" .plain (some (.delay "d1" 5 (some (.delay "d2" 5 (some (.task "t2" .plain none))))))

/-- A delay at the beginning. -/
def delayFirst : WorkflowContinuation := .delay "d1" 5 (some (.task "t1" .plain none))

/-- One worker executes the first task, another polls when the first wait is over. -/
def pollAfterWait : List Action :=
  .poll (sampleWorker "a") :: Action.calls 0 12 ++ .tick 5 :: .poll (sampleWorker "b") ::
    Action.calls 1 4

theorem offered_isTask_after_delay :
    let job := sampleChain .inMemory delayBetween
    let σ := perform job.step pollAfterWait (job.start "i" 0)
    σ.offers = [TaskId.sha256 "t2"] ∧ ∀ p ∈ σ.processes, ∀ task,
      (p.phase = .offered task ∨ p.phase = .executing task) →
        ∃ n ∈ job.continuation.subtrees, n.isTask ∧ task.taskId = TaskId.sha256 n.id := by
  intro job σ
  have hσ : job.Reachable (fun a σ => NoWaitBeforeWait job.continuation.taskDigests a σ) "i" 0 σ :=
    Walk.perform (by decide)
  have hchain : job.continuation.IsChain := by
    unfold WorkflowContinuation.IsChain
    decide
  exact ⟨by decide, offered_isTask_of_noWaitBeforeWait hchain rfl hσ⟩

/-- A delay at the beginning is offered as a task and then fails the workflow, and so
is a delay that follows another one. -/
theorem delay_offered_as_task :
    (let job := sampleChain .postgres delayFirst
     let σ := perform job.step (.poll (sampleWorker "a") :: Action.calls 0 2) (job.start "i" 0)
     job.Reachable (fun _ _ => True) "i" 0 σ ∧ σ.offers = [TaskId.sha256 "d1"]
      ∧ TaskId.sha256 "d1" ∉ job.continuation.taskDigests
      ∧ (perform job.step (Action.calls 0 6) σ).world.snapshot.any fun s => match s.state with
          | .failed _ => true
          | _ => false)
    ∧ (let job := sampleChain .inMemory delayTwice
       let σ := perform job.step pollAfterWait (job.start "i" 0)
       job.Reachable (fun _ _ => True) "i" 0 σ ∧ σ.offers = [TaskId.sha256 "d2"]
        ∧ TaskId.sha256 "d2" ∉ job.continuation.taskDigests) := by
  refine ⟨⟨Walk.perform ?_, ?_, ?_, ?_⟩, Walk.perform ?_, ?_, ?_⟩
  all_goals decide

end sample

end Sayiir
