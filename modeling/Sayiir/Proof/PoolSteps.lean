import Sayiir.Runtime.Pool

/-!
# What a step of the pool can do

Every invariant of the pool rests on two inversions of the step of a process:
`Writes` says what the step can do to the shared world, `Moves` says where the
process can go. The steps of the clients are inverted by `Asks`. With them
`Reachable.invariant` proves an invariant of the world together with one of every
process from what single steps preserve.
-/

namespace Sayiir

open Backend

variable {s : WorkflowSnapshot}

/-! ## Clients -/

/-- What clients and the clock can do to the world. -/
inductive Asks (job : Submission) : Action → PoolWorld → PoolWorld → Prop
  | tick (d : Duration) (w : PoolWorld) : Asks job (.tick d) w { w with clock := w.clock + d }
  | sendEvent (signalName : String) (payload : Bytes) (w : PoolWorld) :
      Asks job (.sendEvent signalName payload) w (job.backend.sendEvent signalName payload w)
  | insert (a : Action) (kind : SignalKind) (request : SignalRequest) (w : PoolWorld)
      (ha : a.isRequest) : Asks job a w (insertSignal kind request w)
  | unpause (w : PoolWorld) : Asks job .unpause w (Backend.unpause w)

/-- What can be stored after an action of a client. -/
inductive Delivers (job : Submission) (w w' : PoolWorld) : Prop
  | kept (h : w'.snapshot = w.snapshot) (ho : w'.outputs = w.outputs) (ht : w'.trace = w.trace)
  | received (s : WorkflowSnapshot) (signalId : TaskId) (signalName : String) (payload : Bytes)
      (wakeAt : Option Time) (next : Option TaskId) (completed : CompletedTasks)
      (last : Option TaskId) (hb : job.backend = postgres) (hs : w.snapshot = some s)
      (hst : s.state = .inProgress (.atSignal signalId signalName wakeAt next) completed last)
      (hw : w' = { w with
        snapshot := some (job.backend.stored (received signalId payload next s))
        outputs := Function.update w.outputs signalId (some payload)
        trace := w.trace ++ [.signalled signalId] })
  | unpaused (s : WorkflowSnapshot) (hs : w.snapshot = some s)
      (hw : w' = { w with snapshot := some s.markUnpaused })

/-- **What can be stored after an action of a client.** -/
theorem Asks.delivers {job : Submission} {a : Action} {w w' : PoolWorld} (h : Asks job a w w') :
    Delivers job w w' := by
  cases h with
  | tick d => exact .kept rfl rfl rfl
  | sendEvent signalName payload =>
    rcases sendEvent_cases signalName payload with
      h | ⟨hb, s, signalId, wakeAt, next, completed, last, hs, hst, h⟩
    · rw [h]
      exact .kept rfl rfl rfl
    · exact .received s signalId signalName payload wakeAt next completed last hb hs hst h
  | insert a kind request => cases kind <;> exact .kept rfl rfl rfl
  | unpause =>
    rcases World.unpause_cases w.toWorld with h | ⟨s, hs, h⟩
    · unfold Backend.unpause
      rw [h]
      exact .kept rfl rfl rfl
    · refine .unpaused s hs ?_
      unfold Backend.unpause
      rw [h]

/-! ## Processes -/

variable [Sha256]

/-- What a step of a process in this phase can do to the world. -/
inductive Writes (job : Submission) (worker : Worker) : Phase → PoolWorld → PoolWorld → Prop
  | nothing (phase : Phase) (w : PoolWorld) : Writes job worker phase w w
  | dropped (w : PoolWorld) (hb : job.backend = inMemory) :
      Writes job worker .polling w (dropExpired w)
  | collected (advance : Advance) (e : Event) (w : PoolWorld)
      (h : collectAdvance w = some advance) (he : advance.event = some e) :
      Writes job worker .collecting w (w.log e)
  | advanced (advance : Advance) (w : PoolWorld) :
      Writes job worker (.advancing advance) w (applyAdvance advance w)
  | woke (s : WorkflowSnapshot) (next : Option TaskId) (w : PoolWorld) :
      Writes job worker (.waking s next) w (job.backend.saveSnapshot s w)
  | claimed (task : AvailableTask) (w : PoolWorld) (h : job.accepts task) :
      Writes job worker (.offered task) w
        (job.backend.claimTask task.taskId worker.id worker.ttl w).2
  | guarded (task : AvailableTask) (g : GuardStep) (w : PoolWorld) :
      Writes job worker (.guarding task g) w
        (job.backend.guardStep (some task.taskId) g w).2
  | called (task : AvailableTask) (name : String) (input : Bytes) (w : PoolWorld)
      (hi : job.taskInput task = .ok input)
      (hn : job.continuation.executeTaskById task.taskId = .ok name) :
      Writes job worker (.executing task) w (w.log (.taskCalled name input w.clock))
  | extended (task : AvailableTask) (outcome : Except RuntimeError Bytes)
      (deadline : Option TaskDeadline) (failures : Nat) (ttl : Duration) (w : PoolWorld)
      (ht : worker.ttl = some ttl) :
      Writes job worker (.running task outcome deadline failures) w
        (job.backend.extendTaskClaim task.taskId worker.id ttl w).2
  | retried (task : AvailableTask) (s : WorkflowSnapshot) (w : PoolWorld) :
      Writes job worker (.retrying task s) w
        (job.backend.saveSnapshotFenced s task.taskId worker.id w).2
  | failed (task : AvailableTask) (s : WorkflowSnapshot) (w : PoolWorld) :
      Writes job worker (.failing task s) w
        (job.backend.saveSnapshotFenced s task.taskId worker.id w).2
  | released (task : AvailableTask) (w : PoolWorld) :
      Writes job worker (.releasing task) w
        (job.backend.releaseTaskClaim task.taskId worker.id w).2
  | cancelling (task : AvailableTask) (w : PoolWorld) :
      Writes job worker (.cancelling task) w
        (job.backend.releaseTaskClaim task.taskId worker.id w).2
  | cancelled (task : AvailableTask) (g : GuardStep) (w : PoolWorld) :
      Writes job worker (.cancelled task g) w
        (job.backend.guardStep (some task.taskId) g w).2
  | committed (task : AvailableTask) (s : WorkflowSnapshot) (output : Bytes) (w : PoolWorld) :
      Writes job worker (.committing task s output) w
        (job.backend.saveSnapshotFenced s task.taskId worker.id w).2
  | consumed (task : AvailableTask) (s : WorkflowSnapshot) (output : Bytes) (signalId : TaskId)
      (signalName : String) (payload : Bytes) (rest : List Bytes) (w : PoolWorld)
      (he : w.events signalName = payload :: rest)
      (hs : ∃ wakeAt next completed last, s.state
        = .inProgress (.atSignal signalId signalName wakeAt next) completed last) :
      Writes job worker (.draining task s output) w
        ({ w with events := Function.update w.events signalName rest }.log (.signalled signalId))
  | drained (task : AvailableTask) (s : WorkflowSnapshot) (output : Bytes) (w : PoolWorld) :
      Writes job worker (.drained task s output) w (job.backend.saveSnapshot s w)
  | handedBack (task : AvailableTask) (s : WorkflowSnapshot) (output : Bytes) (w : PoolWorld) :
      Writes job worker (.handingBack task s output) w
        (job.backend.releaseTaskClaim task.taskId worker.id w).2
  | resolved (s : WorkflowSnapshot) (saves : List WorkflowSnapshot)
      (result : Except RuntimeError WorkflowSnapshot) (output : Bytes) (w : PoolWorld) :
      Writes job worker (.resolving (s :: saves) result output) w (job.backend.saveSnapshot s w)
  | concluded (s : WorkflowSnapshot) (output : Bytes) (g : GuardStep) (w : PoolWorld) :
      Writes job worker (.concluding s output g) w (job.backend.guardStep none g w).2
  | completed (s : WorkflowSnapshot) (w : PoolWorld) :
      Writes job worker (.completing s) w (job.backend.saveSnapshot s w)

/-- Where a step of a process can lead, and the world it leaves on the way. A
process can stop anywhere and whatever its call has done; the world after a step
that only goes on quietly is left to `Writes`. -/
inductive Moves (job : Submission) (worker : Worker) (w w' : PoolWorld) : Phase → Phase → Prop
  | stop (phase : Phase) : Moves job worker w w' phase .done
  | collecting (hb : job.backend = inMemory) : Moves job worker w w' .polling .collecting
  | hydrating (blob : WorkflowSnapshot) (hb : job.backend = postgres)
      (h : selectRow worker.tags w = some blob) :
      Moves job worker w w' .polling (.hydrating blob)
  | advancing (advance : Advance) (h : collectAdvance w = some advance)
      (hw : w'.snapshot = w.snapshot) :
      Moves job worker w w' .collecting (.advancing advance)
  | collected : Moves job worker w w' .collecting .selecting
  | advanced (advance : Advance) : Moves job worker w w' (.advancing advance) .selecting
  | selected (task : AvailableTask) (h : selectTask worker.tags w = some task) (hw : w' = w) :
      Moves job worker w w' .selecting (.offered task)
  | hydrated (blob : WorkflowSnapshot) (hw : w' = w) : Moves job worker w w' (.hydrating blob)
      (Submission.dispatchRow w.clock (blob.hydrateTaskOutputs w.outputs))
  | woke (s : WorkflowSnapshot) (next : TaskId) (task : AvailableTask)
      (h : PoolWorld.buildAvailableTask (job.backend.afterSave s) next = some task)
      (hw : w' = job.backend.saveSnapshot s w) :
      Moves job worker w w' (.waking s (some next)) (.offered task)
  | claimed (task : AvailableTask) (ha : job.accepts task)
      (hc : job.backend.claimable task.taskId w)
      (hw : w' = (job.backend.claimTask task.taskId worker.id worker.ttl w).2) :
      Moves job worker w w' (.offered task) (.guarding task .start)
  | guarding (task : AvailableTask) (g g' : GuardStep)
      (h : job.backend.guardStep (some task.taskId) g w = (.next g', w')) :
      Moves job worker w w' (.guarding task g) (.guarding task g')
  | passed (task : AvailableTask) (g : GuardStep)
      (h : job.backend.guardStep (some task.taskId) g w = (.finished none, w')) :
      Moves job worker w w' (.guarding task g) (.executing task)
  | stopped (task : AvailableTask) (g : GuardStep) :
      Moves job worker w w' (.guarding task g) (.releasing task)
  | unready (task : AvailableTask) (e : RuntimeError) (h : job.taskInput task = .error e)
      (hw : w' = w) :
      Moves job worker w w' (.executing task) (job.settleFailure worker task e w.clock)
  | lost (task : AvailableTask) (e : RuntimeError) (deadline : Option TaskDeadline)
      (h : job.continuation.executeTaskById task.taskId = .error e) (hw : w' = w) :
      Moves job worker w w' (.executing task) (.running task (.error e) deadline 0)
  | raised (task : AvailableTask) (name : String) (input : Bytes) (e : RuntimeError)
      (deadline : Option TaskDeadline) (hi : job.taskInput task = .ok input)
      (hn : job.continuation.executeTaskById task.taskId = .ok name)
      (hw : w' = w.log (.taskCalled name input w.clock)) :
      Moves job worker w w' (.executing task) (.running task (.error e) deadline 0)
  | called (task : AvailableTask) (name : String) (input : Bytes)
      (deadline : Option TaskDeadline) (hi : job.taskInput task = .ok input)
      (hn : job.continuation.executeTaskById task.taskId = .ok name)
      (hw : w' = w.log (.taskCalled name input w.clock)) :
      Moves job worker w w' (.executing task)
        (.running task ((job.callbacks.execute name input).mapError .ofBoxError) deadline 0)
  | settled (task : AvailableTask) (outcome : Except RuntimeError Bytes)
      (deadline : Option TaskDeadline) (failures : Nat) (hw : w' = w) :
      Moves job worker w w' (.running task outcome deadline failures)
        (job.settle worker task outcome w.clock)
  | interrupted (task : AvailableTask) (outcome : Except RuntimeError Bytes)
      (deadline : Option TaskDeadline) (failures : Nat) (e : RuntimeError) (hw : w' = w) :
      Moves job worker w w' (.running task outcome deadline failures)
        (job.settleFailure worker task e w.clock)
  | beaten (task : AvailableTask) (outcome : Except RuntimeError Bytes)
      (deadline : Option TaskDeadline) (failures failures' : Nat) :
      Moves job worker w w' (.running task outcome deadline failures)
        (.running task outcome deadline failures')
  | cancelling (task : AvailableTask) (outcome : Except RuntimeError Bytes)
      (deadline : Option TaskDeadline) (failures : Nat) :
      Moves job worker w w' (.running task outcome deadline failures) (.cancelling task)
  | retried (task : AvailableTask) (s : WorkflowSnapshot) :
      Moves job worker w w' (.retrying task s) (.releasing task)
  | failed (task : AvailableTask) (s : WorkflowSnapshot) :
      Moves job worker w w' (.failing task s) (.releasing task)
  | checked (task : AvailableTask) (g : GuardStep) :
      Moves job worker w w' (.cancelling task) (.cancelled task g)
  | cancelled (task : AvailableTask) (g g' : GuardStep) :
      Moves job worker w w' (.cancelled task g) (.cancelled task g')
  | committed (task : AvailableTask) (s : WorkflowSnapshot) (output : Bytes)
      (h : job.backend.saveSnapshotFenced s task.taskId worker.id w = (true, w')) :
      Moves job worker w w' (.committing task s output)
        (Submission.drain task (job.backend.afterSave s) output)
  | undrained (task : AvailableTask) (s : WorkflowSnapshot) (output : Bytes) (hw : w' = w) :
      Moves job worker w w' (.draining task s output) (.handingBack task s output)
  | draining (task : AvailableTask) (s : WorkflowSnapshot) (output payload : Bytes)
      (h : Submission.isAtSignal s) :
      Moves job worker w w' (.draining task s output)
        (.drained task (Submission.leaveDrained payload s) output)
  | drained (task : AvailableTask) (s : WorkflowSnapshot) (output : Bytes)
      (hw : w' = job.backend.saveSnapshot s w) :
      Moves job worker w w' (.drained task s output)
        (Submission.drain task (job.backend.afterSave s) output)
  | handedBack (task : AvailableTask) (s : WorkflowSnapshot) (output : Bytes)
      (h : job.backend.releaseTaskClaim task.taskId worker.id w = (.ok (), w')) :
      Moves job worker w w' (.handingBack task s output)
        (Submission.resolve (job.continuation.resolveLoops job.backend job.codec s).saves
          (job.continuation.resolveLoops job.backend job.codec s).result output)
  | resolved (s : WorkflowSnapshot) (saves : List WorkflowSnapshot)
      (result : Except RuntimeError WorkflowSnapshot) (output : Bytes)
      (hw : w' = job.backend.saveSnapshot s w) :
      Moves job worker w w' (.resolving (s :: saves) result output)
        (Submission.resolve saves result output)
  | unresolved (result : Except RuntimeError WorkflowSnapshot) (output : Bytes) (hw : w' = w) :
      Moves job worker w w' (.resolving [] result output) (Submission.resolve [] result output)
  | concluding (s : WorkflowSnapshot) (output : Bytes) (g g' : GuardStep)
      (h : job.backend.guardStep none g w = (.next g', w')) :
      Moves job worker w w' (.concluding s output g) (.concluding s output g')
  | concluded (s : WorkflowSnapshot) (output : Bytes) (g : GuardStep)
      (h : job.backend.guardStep none g w = (.finished none, w')) :
      Moves job worker w w' (.concluding s output g) (job.conclude s output)

/-- What an action can do to the pool. -/
inductive Steps (job : Submission) (a : Action) (σ : Pool) : Pool → Prop
  | queued (requests : List (SignalKind × SignalRequest)) :
      Steps job a σ { σ with requests := requests }
  | asked (w' : PoolWorld) (requests : List (SignalKind × SignalRequest))
      (h : Asks job a σ.world w') :
      Steps job a σ { σ with world := w', requests := requests }
  | polled (worker : Worker) (ha : a = .poll worker) :
      Steps job a σ { σ with processes := σ.processes ++ [⟨worker, .polling, none⟩] }
  | hinted (worker : Worker) (hint : TaskId) (ha : a = .hinted worker hint) :
      Steps job a σ { σ with processes := σ.processes ++
        [⟨worker, Submission.offer (job.backend.findHintedTask hint σ.world), σ.world.snapshot⟩] }
  | worked (i : Nat) (choice : Choice) (p : Process) (phase' : Phase) (w' : PoolWorld)
      (ha : a = .work i choice) (hi : σ.processes[i]? = some p)
      (hw : Writes job p.worker p.phase σ.world w')
      (hm : Moves job p.worker σ.world w' p.phase phase')
      (heq : w' = (job.phaseStep p.worker choice p.phase σ.world).2) :
      Steps job a σ { σ with
        world := w'
        processes := σ.processes.set i
          ⟨p.worker, phase', if p.phase.touchesStore then w'.snapshot else p.seen⟩ }
  | crashed (i : Nat) (p : Process) (ha : a = .crash i) (hi : σ.processes[i]? = some p) :
      Steps job a σ { σ with processes := σ.processes.set i { p with phase := .done } }

/-! ## What is stored -/

/-- The snapshot that the next call of a process stores. -/
def Phase.toStore : Phase → Option WorkflowSnapshot
  | .waking s _ | .retrying _ s | .failing _ s | .committing _ s _ | .drained _ s _
  | .resolving (s :: _) _ _ | .completing s => some s
  | _ => none

/-- What can be stored after a step of a process. -/
inductive Stores (job : Submission) (phase : Phase) (w w' : PoolWorld) : Prop
  | kept (h : w'.snapshot = w.snapshot)
  | saved (s : WorkflowSnapshot) (hs : phase.toStore = some s)
      (hw : w' = job.backend.saveSnapshot s w) (h : w'.snapshot = some (job.backend.stored s))
  | advanced (advance : Advance) (hp : phase = .advancing advance) (hw : w' = applyAdvance advance w)
  | cancelled (s : WorkflowSnapshot) (request : SignalRequest) (taskId : Option TaskId)
      (hs : w.snapshot = some s) (hp : s.isInProgress)
      (h : w'.snapshot = some (s.markCancelled request taskId))
  | paused (s : WorkflowSnapshot) (request : SignalRequest) (hs : w.snapshot = some s)
      (hp : s.isInProgress) (h : w'.snapshot = some (s.markPaused request))

section stores

variable {job : Submission} {worker : Worker} {phase : Phase} {w w' : PoolWorld}

theorem stores_saveSnapshot (h : phase.toStore = some s) :
    Stores job phase w (job.backend.saveSnapshot s w) := by
  rcases snapshot_saveSnapshot s with hs | ⟨-, -, hs⟩
  · exact .saved s h rfl hs
  · exact .kept hs

theorem stores_saveSnapshotFenced {taskId : TaskId} (h : phase.toStore = some s) :
    Stores job phase w (job.backend.saveSnapshotFenced s taskId worker.id w).2 := by
  rcases saveSnapshotFenced_cases _ _ s with hs | hs
  · rw [hs]
    exact stores_saveSnapshot h
  · rw [hs]
    exact .kept rfl

theorem stores_guardStep (taskId : Option TaskId) (g : GuardStep) :
    Stores job phase w (job.backend.guardStep taskId g w).2 := by
  have hg := guards_guardStep job.backend taskId g w
  generalize (job.backend.guardStep taskId g w).2 = w' at hg
  cases hg with
  | cleared => exact .kept rfl
  | cancelled s request cancel hs hp => exact .cancelled s request taskId hs hp rfl
  | paused s request pause hs hp => exact .paused s request hs hp rfl

/-- **What can be stored after a step of a process.** -/
theorem Writes.stores (h : Writes job worker phase w w') : Stores job phase w w' := by
  cases h with
  | nothing | dropped | collected | called | consumed => exact .kept rfl
  | claimed task =>
    obtain ⟨claims, hc⟩ := claimTask_cases worker.ttl
    exact .kept (by rw [hc])
  | extended task outcome deadline failures ttl =>
    obtain ⟨claims, hc⟩ := extendTaskClaim_cases _ _ ttl
    exact .kept (by rw [hc])
  | released | cancelling | handedBack =>
    obtain ⟨claims, hc⟩ := releaseTaskClaim_cases _ _
    exact .kept (by rw [hc])
  | advanced advance => exact .advanced advance rfl rfl
  | guarded task g => exact stores_guardStep _ g
  | cancelled task g => exact stores_guardStep _ g
  | concluded s output g => exact stores_guardStep _ g
  | retried task s => exact stores_saveSnapshotFenced rfl
  | failed task s => exact stores_saveSnapshotFenced rfl
  | committed task s output => exact stores_saveSnapshotFenced rfl
  | woke s next => exact stores_saveSnapshot rfl
  | drained task s output => exact stores_saveSnapshot rfl
  | resolved s saves result output => exact stores_saveSnapshot rfl
  | completed s => exact stores_saveSnapshot rfl

end stores

/-! ## What is logged -/

/-- What the trace can be after a step of a process. -/
inductive Logs (job : Submission) (phase : Phase) (w : PoolWorld) : List Event → Prop
  | kept : Logs job phase w w.trace
  | saved (s : WorkflowSnapshot) (h : phase.toStore = some s) :
      Logs job phase w (w.trace ++ [.saved s])
  | signalled (signalId : TaskId) : Logs job phase w (w.trace ++ [.signalled signalId])
  | timedOut (signalId : TaskId) : Logs job phase w (w.trace ++ [.timedOut signalId])
  | called (task : AvailableTask) (name : String) (input : Bytes) (h : phase = .executing task)
      (hi : job.taskInput task = .ok input)
      (hn : job.continuation.executeTaskById task.taskId = .ok name) :
      Logs job phase w (w.trace ++ [.taskCalled name input w.clock])

section logs

variable {job : Submission} {worker : Worker} {phase : Phase} {w w' : PoolWorld}

theorem logs_saveSnapshot (h : phase.toStore = some s) :
    Logs job phase w (job.backend.saveSnapshot s w).trace := by
  rcases trace_saveSnapshot s with hs | hs
  · rw [hs]
    exact .kept
  · rw [hs]
    exact .saved s h

theorem logs_saveSnapshotFenced {taskId : TaskId} (h : phase.toStore = some s) :
    Logs job phase w (job.backend.saveSnapshotFenced s taskId worker.id w).2.trace := by
  rcases saveSnapshotFenced_cases _ _ s with hs | hs
  · rw [hs]
    exact logs_saveSnapshot h
  · rw [hs]
    exact .kept

theorem logs_guardStep (taskId : Option TaskId) (g : GuardStep) :
    Logs job phase w (job.backend.guardStep taskId g w).2.trace := by
  have hg := guards_guardStep job.backend taskId g w
  generalize (job.backend.guardStep taskId g w).2 = w' at hg
  cases hg <;> exact .kept

theorem logs_applyAdvance (advance : Advance) :
    Logs job phase w (applyAdvance advance w).trace := by
  cases advance <;> exact .kept

/-- **What the trace can be after a step of a process.** -/
theorem Writes.logs (h : Writes job worker phase w w') : Logs job phase w w'.trace := by
  cases h with
  | nothing | dropped => exact .kept
  | claimed task =>
    obtain ⟨claims, hc⟩ := claimTask_cases worker.ttl
    rw [hc]
    exact .kept
  | extended task outcome deadline failures ttl =>
    obtain ⟨claims, hc⟩ := extendTaskClaim_cases _ _ ttl
    rw [hc]
    exact .kept
  | released | cancelling | handedBack =>
    obtain ⟨claims, hc⟩ := releaseTaskClaim_cases _ _
    rw [hc]
    exact .kept
  | collected advance e _ hc he =>
    cases advance with
    | delay | delayDone => cases he
    | signal signalId signalName next =>
      obtain rfl : _ = e := Option.some.inj he
      exact .signalled signalId
    | signalTimeout signalId signalName next =>
      obtain rfl : _ = e := Option.some.inj he
      exact .timedOut signalId
  | called task name input _ hi hn => exact .called task name input rfl hi hn
  | consumed task s output signalId => exact .signalled signalId
  | advanced advance => exact logs_applyAdvance advance
  | guarded task g => exact logs_guardStep _ g
  | cancelled task g => exact logs_guardStep _ g
  | concluded s output g => exact logs_guardStep _ g
  | retried task s => exact logs_saveSnapshotFenced rfl
  | failed task s => exact logs_saveSnapshotFenced rfl
  | committed task s output => exact logs_saveSnapshotFenced rfl
  | woke s next => exact logs_saveSnapshot rfl
  | drained task s output => exact logs_saveSnapshot rfl
  | resolved s saves result output => exact logs_saveSnapshot rfl
  | completed s => exact logs_saveSnapshot rfl

end logs

/-! ## The table of outputs -/

section outputs

variable {job : Submission} {worker : Worker} {phase : Phase} {w w' : PoolWorld}

/-- A step of a process changes the table of outputs only by storing a snapshot. -/
theorem Writes.outputs (h : Writes job worker phase w w') :
    w'.outputs = w.outputs
      ∨ ∃ s, phase.toStore = some s ∧ w'.outputs = (job.backend.saveSnapshot s w).outputs := by
  have hguard : ∀ (taskId : Option TaskId) (g : GuardStep),
      (job.backend.guardStep taskId g w).2.outputs = w.outputs := by
    intro taskId g
    have hg := guards_guardStep job.backend taskId g w
    generalize (job.backend.guardStep taskId g w).2 = w' at hg
    cases hg <;> rfl
  have hfenced : ∀ (s : WorkflowSnapshot) (taskId : TaskId), phase.toStore = some s →
      let w' := (job.backend.saveSnapshotFenced s taskId worker.id w).2
      w'.outputs = w.outputs
        ∨ ∃ s, phase.toStore = some s
          ∧ w'.outputs = (job.backend.saveSnapshot s w).outputs := by
    intro s taskId hs
    rcases saveSnapshotFenced_cases _ _ s with h | h
    · exact .inr ⟨s, hs, by rw [h]⟩
    · exact .inl (by rw [h])
  cases h with
  | nothing | dropped | collected | called | consumed => exact .inl rfl
  | claimed task =>
    obtain ⟨claims, hc⟩ := claimTask_cases worker.ttl
    exact .inl (by rw [hc])
  | extended task outcome deadline failures ttl =>
    obtain ⟨claims, hc⟩ := extendTaskClaim_cases _ _ ttl
    exact .inl (by rw [hc])
  | released | cancelling | handedBack =>
    obtain ⟨claims, hc⟩ := releaseTaskClaim_cases _ _
    exact .inl (by rw [hc])
  | advanced advance => cases advance <;> exact .inl rfl
  | guarded task g => exact .inl (hguard _ g)
  | cancelled task g => exact .inl (hguard _ g)
  | concluded s output g => exact .inl (hguard _ g)
  | retried task s => exact hfenced s _ rfl
  | failed task s => exact hfenced s _ rfl
  | committed task s output => exact hfenced s _ rfl
  | woke s next => exact .inr ⟨s, rfl, rfl⟩
  | drained task s output => exact .inr ⟨s, rfl, rfl⟩
  | resolved s saves result output => exact .inr ⟨s, rfl, rfl⟩
  | completed s => exact .inr ⟨s, rfl, rfl⟩

end outputs

/-! ## The inversions -/

namespace Submission

variable {job : Submission} {worker : Worker} {phase : Phase} {w : PoolWorld}

/-! ### Phases that depend on an outcome -/

section outcomes

variable {P : Phase → Prop} {task : AvailableTask} {output : Bytes} {now : Time}
  {saves : List WorkflowSnapshot} {result : Except RuntimeError WorkflowSnapshot}

/-- A failed task is retried or fails the workflow. -/
theorem settleFailure_of {e : RuntimeError}
    (hfailing : P (.failing task (task.snapshot.clearTaskDeadline.markFailed e)))
    (hretrying : ∀ policy, P (.retrying task (task.snapshot.clearTaskDeadline.recordRetry
      task.taskId policy e (some worker.id) now).2.clearTaskDeadline)) :
    P (job.settleFailure worker task e now) := by
  unfold settleFailure
  dsimp only
  split
  · split
    · exact hfailing
    · exact hretrying _
  · exact hfailing

theorem settle_of {outcome : Except RuntimeError Bytes} (hdone : P .done)
    (hfailure : ∀ e, P (job.settleFailure worker task e now))
    (hcommitting : ∀ output s, outcome = .ok output →
      job.commitSnapshot task output now = .ok s → P (.committing task s output)) :
    P (job.settle worker task outcome now) := by
  unfold settle
  split
  · exact hfailure _
  · split
    · exact hdone
    · exact hcommitting _ _ rfl ‹_›

omit [Sha256] in
theorem drain_of (hdraining : isAtSignal s → P (.draining task s output))
    (hback : P (.handingBack task s output)) : P (drain task s output) := by
  unfold drain
  split
  · exact hdraining ‹_›
  · exact hback

omit [Sha256] in
theorem resolve_of (hdone : P .done)
    (hconcluding : ∀ s, saves = [] → result = .ok s → P (.concluding s output .start))
    (hresolving : saves ≠ [] → P (.resolving saves result output)) :
    P (resolve saves result output) := by
  unfold resolve
  split
  · exact hconcluding _ rfl rfl
  · exact hdone
  · exact hresolving (by simp)

theorem conclude_of (hdone : P .done) (hcompleting : job.continuation.isWorkflowComplete s →
    P (.completing (s.markCompleted output))) : P (job.conclude s output) := by
  unfold conclude
  split
  · exact hcompleting ‹_›
  · exact hdone

omit [Sha256] in
/-- A row of the dispatch query is at a delay that is over or at a task that is due. -/
theorem dispatchRow_of (hdone : P .done)
    (hwaking : ∀ delayId enteredAt wakeAt next completed last,
      s.state = .inProgress (.atDelay delayId enteredAt wakeAt next) completed last →
      P (.waking (next.elim (s.markCompleted ((s.getTaskResultBytes delayId).getD []))
        fun taskId => s.updatePosition (.atTask taskId)) next))
    (hoffered : ∀ taskId completed last task,
      s.state = .inProgress (.atTask taskId) completed last → completed.lookup taskId = none →
      PoolWorld.buildAvailableTask s taskId = some task → P (.offered task)) :
    P (dispatchRow now s) := by
  unfold dispatchRow
  split
  · rename_i hst
    split
    · split
      · exact hwaking _ _ _ (some _) _ _ hst
      · exact hwaking _ _ _ none _ _ hst
    · exact hdone
  · rename_i hst
    split
    · exact hdone
    · rename_i hdue
      rw [Bool.or_eq_true, not_or, Option.not_isSome_iff_eq_none] at hdue
      split
      · exact hoffered _ _ _ _ hst hdue.1 ‹_›
      · exact hdone
  · exact hdone

end outcomes

/-! ### Single calls -/

variable (job) in
theorem writes_call : Writes job worker phase w (job.call worker phase w).2 := by
  cases phase with
  | polling =>
    unfold call
    cases hb : job.backend with
    | inMemory => exact .dropped w hb
    | postgres => dsimp only; split <;> exact .nothing _ _
  | collecting =>
    unfold call
    dsimp only
    split
    · exact .nothing _ _
    · rename_i advance ha
      dsimp only
      split
      · rename_i e he
        exact .collected advance e w ha he
      · exact .nothing _ _
  | advancing advance => exact .advanced advance w
  | waking s next => exact .woke s next w
  | offered task =>
    unfold call
    dsimp only
    split
    · rename_i ha
      exact .claimed task w ha
    · exact .nothing _ _
  | guarding task g => exact .guarded task g w
  | executing task =>
    unfold call startTask
    dsimp only
    split
    · exact .nothing _ _
    · rename_i input hi
      split
      · exact .nothing _ _
      · rename_i name hn
        exact .called task name input w hi hn
  | retrying task s => exact .retried task s w
  | failing task s => exact .failed task s w
  | releasing task => exact .released task w
  | cancelling task => exact .cancelling task w
  | cancelled task g => exact .cancelled task g w
  | committing task s output => exact .committed task s output w
  | draining task s output =>
    unfold call consumeEvent
    dsimp only
    split
    · rename_i signalId signalName wakeAt next completed last hs
      cases he : w.events signalName with
      | nil => exact .nothing _ _
      | cons payload rest =>
        exact .consumed task s output signalId signalName payload rest w he
          ⟨wakeAt, next, completed, last, hs⟩
    · exact .nothing _ _
  | drained task s output => exact .drained task s output w
  | handingBack task s output => exact .handedBack task s output w
  | resolving saves result output =>
    cases saves with
    | nil => exact .nothing _ _
    | cons s saves => exact .resolved s saves result output w
  | concluding s output g => exact .concluded s output g w
  | completing s => exact .completed s w
  | selecting | hydrating | running | done => exact .nothing _ _

variable (job) in
/-- **What a step of a process can do to the world.** -/
theorem writes_phaseStep (choice : Choice) :
    Writes job worker phase w (job.phaseStep worker choice phase w).2 := by
  unfold phaseStep
  split
  · exact writes_call job
  · rename_i e task
    unfold startTask
    dsimp only
    split
    · exact .nothing _ _
    · rename_i input hi
      split
      · exact .nothing _ _
      · rename_i name hn
        exact .called task name input w hi hn
  · exact .nothing _ _
  · rename_i readFails extendFails task outcome deadline failures
    split
    · rename_i ttl ht
      have hext : Writes job worker (.running task outcome deadline failures) w
          (if extendFails then (.error (.backend "extend"), w)
            else job.backend.extendTaskClaim task.taskId worker.id ttl w
            : Except BackendError Unit × PoolWorld).2 := by
        split
        · exact .nothing _ _
        · exact .extended task outcome deadline failures ttl w ht
      unfold heartbeat
      dsimp only
      split
      · exact .nothing _ _
      · split
        · exact hext
        · split
          · exact hext
          · split <;> exact hext
          · exact hext
    · exact .nothing _ _
  · exact .nothing _ _
  · exact .nothing _ _
  · exact .nothing _ _
  · rename_i applied _ _
    dsimp only
    split
    · exact writes_call job
    · exact .nothing _ _

theorem moves_call :
    Moves job worker w (job.call worker phase w).2 phase (job.call worker phase w).1 := by
  cases phase with
  | polling =>
    unfold call
    cases hb : job.backend with
    | inMemory => exact .collecting hb
    | postgres =>
      dsimp only
      split
      · rename_i blob h
        exact .hydrating blob hb h
      · exact .stop _
  | collecting =>
    unfold call
    dsimp only
    split
    · exact .collected
    · rename_i advance ha
      refine .advancing advance ha ?_
      cases advance <;> rfl
  | advancing advance => exact .advanced advance
  | selecting =>
    unfold call
    dsimp only
    cases h : selectTask worker.tags w with
    | none => exact .stop _
    | some task => exact .selected task h rfl
  | hydrating blob => exact .hydrated blob rfl
  | waking s next =>
    unfold call
    cases next with
    | none => exact .stop _
    | some next =>
      dsimp only
      cases h : PoolWorld.buildAvailableTask (job.backend.afterSave s) next with
      | none => exact .stop _
      | some task => exact .woke s next task h rfl
  | offered task =>
    unfold call
    dsimp only
    split
    · rename_i ha
      by_cases hc : job.backend.claimable task.taskId w
      · simp only [claimTask, hc, if_true]
        exact .claimed task ha hc (by simp [claimTask, hc])
      · simp only [claimTask, hc, if_false, Bool.false_eq_true]
        exact .stop _
    · exact .stop _
  | guarding task g =>
    unfold call afterGuard
    dsimp only
    split
    · rename_i g' hg
      exact .guarding task g g' (Prod.ext hg rfl)
    · rename_i hg
      exact .passed task g (Prod.ext hg rfl)
    · exact .stopped task g
  | executing task =>
    unfold call startTask
    dsimp only
    split
    · rename_i e he
      exact .unready task e he rfl
    · rename_i input hi
      split
      · rename_i e he
        exact .lost task e _ he rfl
      · rename_i name hn
        exact .called task name input _ hi hn rfl
  | running task outcome deadline failures => exact .settled task outcome deadline failures rfl
  | retrying task s => exact .retried task s
  | failing task s => exact .failed task s
  | releasing task => exact .stop _
  | cancelling task => exact .checked task _
  | cancelled task g =>
    unfold call
    dsimp only
    split
    · exact .stop _
    · exact .stop _
    · exact .cancelled task g _
  | committing task s output =>
    unfold call
    dsimp only
    split
    · rename_i h
      exact .committed task s output (Prod.ext h rfl)
    · exact .stop _
  | draining task s output =>
    unfold call consumeEvent
    dsimp only
    split
    · rename_i signalId signalName wakeAt next completed last hs
      cases he : w.events signalName with
      | nil => exact .undrained task s output rfl
      | cons payload rest =>
        exact .draining task s output payload (by simp [isAtSignal, hs])
    · exact .undrained task s output rfl
  | drained task s output => exact .drained task s output rfl
  | handingBack task s output =>
    unfold call
    dsimp only
    split
    · exact .stop _
    · rename_i h
      exact .handedBack task s output (Prod.ext h rfl)
  | resolving saves result output =>
    cases saves with
    | nil => exact .unresolved result output rfl
    | cons s saves => exact .resolved s saves result output rfl
  | concluding s output g =>
    unfold call afterGuard
    dsimp only
    split
    · rename_i g' hg
      exact .concluding s output g g' (Prod.ext hg rfl)
    · rename_i hg
      exact .concluded s output g (Prod.ext hg rfl)
    · exact .stop _
  | completing s => exact .stop _
  | done => exact .stop _

variable (job worker phase w) in
/-- **Where a step of a process can lead**, unless it is no step at all. -/
theorem moves_phaseStep (choice : Choice) :
    job.phaseStep worker choice phase w = (phase, w)
        ∧ (choice.isCall && phase.touchesStore) = false
      ∨ (choice.isCall && phase.touchesStore) = phase.touchesStore
        ∧ Moves job worker w (job.phaseStep worker choice phase w).2 phase
            (job.phaseStep worker choice phase w).1 := by
  unfold phaseStep
  split
  · exact .inr ⟨rfl, moves_call⟩
  · rename_i e task
    refine .inr ⟨rfl, ?_⟩
    unfold startTask
    dsimp only
    split
    · rename_i e' he
      exact .unready task e' he rfl
    · rename_i input hi
      split
      · rename_i e' he
        exact .lost task e' _ he rfl
      · rename_i name hn
        exact .raised task name input e _ hi hn rfl
  · exact .inl ⟨rfl, rfl⟩
  · rename_i readFails extendFails task outcome deadline failures
    split
    · refine .inr ⟨rfl, ?_⟩
      unfold heartbeat
      dsimp only
      split
      · exact .interrupted task outcome deadline failures _ rfl
      · split
        · exact .cancelling task outcome deadline failures
        · split
          · exact .beaten task outcome deadline failures 0
          · split
            · exact .stop _
            · exact .beaten task outcome deadline failures _
          · exact .stop _
    · exact .inl ⟨rfl, rfl⟩
  · exact .inl ⟨rfl, rfl⟩
  · exact .inl ⟨rfl, rfl⟩
  · exact .inl ⟨rfl, rfl⟩
  · refine .inr ⟨rfl, ?_⟩
    dsimp only
    cases phase with
    | retrying task s => exact .retried task s
    | failing task s => exact .failed task s
    | cancelling task => exact .checked task _
    | _ => exact .stop _

/-- **What an action can do to the pool.** -/
theorem steps_step (a : Action) (σ : Pool) : Steps job a σ (job.step a σ) := by
  cases a with
  | tick d => exact .asked _ _ (.tick d σ.world)
  | sendEvent signalName payload => exact .asked _ _ (.sendEvent signalName payload σ.world)
  | request kind request =>
    unfold step
    dsimp only
    split
    · exact .queued _
    · exact .asked _ _ (.insert _ kind request σ.world rfl)
    · exact .queued _
  | insertRequest i =>
    unfold step
    dsimp only
    split
    · exact .queued _
    · exact .asked _ _ (.insert _ _ _ σ.world rfl)
  | unpause => exact .asked _ _ (.unpause σ.world)
  | poll worker => exact .polled worker rfl
  | hinted worker hint => exact .hinted worker hint rfl
  | work i choice =>
    unfold step
    dsimp only
    split
    · exact .queued _
    · rename_i p hi
      unfold workStep
      rcases job.moves_phaseStep p.worker p.phase σ.world choice with ⟨hidle, htouch⟩ | ⟨htouch, hm⟩
      · rw [hidle, htouch]
        have hset : σ.processes.set i p = σ.processes := by
          obtain ⟨hlt, hget⟩ := List.getElem?_eq_some_iff.mp hi
          rw [← hget, List.set_getElem_self]
        simp only [Bool.false_eq_true, if_false, hset]
        exact .queued _
      · rw [htouch]
        exact .worked i choice p _ _ rfl hi (writes_phaseStep job choice) hm rfl
  | crash i =>
    unfold step
    dsimp only
    split
    · exact .queued _
    · rename_i p hi
      exact .crashed i p rfl hi

/-! ## Invariants of the pool -/

variable {C : Action → Pool → Prop} {instanceId : String} {now : Time}

variable (job instanceId now) in
/-- The client stores the initial snapshot, and nothing else has happened. -/
theorem submitted_eq :
    (job.submitted instanceId now).snapshot = some (job.backend.stored (initialSnapshot instanceId
        job.definitionHash job.input job.continuation.firstTaskHint))
      ∧ (job.submitted instanceId now).trace = [.saved (initialSnapshot instanceId
        job.definitionHash job.input job.continuation.firstTaskHint)] := by
  unfold submitted
  rcases saveSnapshot_cases (initialSnapshot instanceId job.definitionHash job.input
    job.continuation.firstTaskHint) with h | ⟨-, hterm, -⟩
  · exact h
  · simp [World.fresh] at hterm

/-- An invariant of the world together with one of every process is kept by an action.
The step of a process has to keep both and to leave the other processes undisturbed. -/
theorem step_invariant {I : PoolWorld → Prop} {P : PoolWorld → Process → Prop} {a : Action}
    {σ : Pool} (hσ : I σ.world ∧ ∀ p ∈ σ.processes, P σ.world p)
    (polled : ∀ worker, a = .poll worker → P σ.world ⟨worker, .polling, none⟩)
    (hinted : ∀ worker hint, a = .hinted worker hint →
      P σ.world ⟨worker, offer (job.backend.findHintedTask hint σ.world), σ.world.snapshot⟩)
    (crashed : ∀ p, P σ.world p → P σ.world { p with phase := .done })
    (asked : ∀ w', Asks job a σ.world w' → I w' ∧ ∀ p, P σ.world p → P w' p)
    (worked : ∀ i choice p phase' w', a = .work i choice → σ.processes[i]? = some p →
      P σ.world p → Writes job p.worker p.phase σ.world w' →
      Moves job p.worker σ.world w' p.phase phase' →
      w' = (job.phaseStep p.worker choice p.phase σ.world).2 →
        I w' ∧ P w' ⟨p.worker, phase', if p.phase.touchesStore then w'.snapshot else p.seen⟩
          ∧ ∀ q, P σ.world q → P w' q) :
    I (job.step a σ).world ∧ ∀ p ∈ (job.step a σ).processes, P (job.step a σ).world p := by
  obtain ⟨hw, hp⟩ := hσ
  have spawn : ∀ q, P σ.world q → I σ.world ∧ ∀ p ∈ σ.processes ++ [q], P σ.world p := by
    intro q hq
    refine ⟨hw, fun p hmem => ?_⟩
    rcases List.mem_append.mp hmem with hmem | hmem
    · exact hp p hmem
    · rw [List.mem_singleton.mp hmem]
      exact hq
  have hstep := job.steps_step a σ
  generalize job.step a σ = σ' at hstep
  cases hstep with
  | queued requests => exact ⟨hw, hp⟩
  | asked w' requests ha =>
    obtain ⟨hw', hkeep⟩ := asked w' ha
    exact ⟨hw', fun p hmem => hkeep p (hp p hmem)⟩
  | polled worker ha => exact spawn _ (polled worker ha)
  | hinted worker hint ha => exact spawn _ (hinted worker hint ha)
  | worked i choice p phase' w' ha hi hwrites hmoves heq =>
    obtain ⟨hw', hp', hkeep⟩ := worked i choice p phase' w' ha hi
      (hp p (List.mem_of_getElem? hi)) hwrites hmoves heq
    refine ⟨hw', fun q hq => ?_⟩
    rcases List.mem_or_eq_of_mem_set hq with hq | rfl
    · exact hkeep q (hp q hq)
    · exact hp'
  | crashed i p ha hi =>
    refine ⟨hw, fun q hq => ?_⟩
    rcases List.mem_or_eq_of_mem_set hq with hq | rfl
    · exact hp q hq
    · exact crashed p (hp p (List.mem_of_getElem? hi))

/-- **An invariant of the world together with one of every process** holds in every
state of the pool. -/
theorem Reachable.invariant {I : PoolWorld → Prop} {P : PoolWorld → Process → Prop} {σ : Pool}
    (h : job.Reachable C instanceId now σ)
    (init : I (job.submitted instanceId now))
    (polled : ∀ w worker, I w → P w ⟨worker, .polling, none⟩)
    (hinted : ∀ w worker hint, I w →
      P w ⟨worker, offer (job.backend.findHintedTask hint w), w.snapshot⟩)
    (crashed : ∀ w p, P w p → P w { p with phase := .done })
    (asked : ∀ a w w', Asks job a w w' → I w → I w' ∧ ∀ p, P w p → P w' p)
    (worked : ∀ σ i choice p phase' w', C (.work i choice) σ → σ.processes[i]? = some p →
      I σ.world → P σ.world p → Writes job p.worker p.phase σ.world w' →
      Moves job p.worker σ.world w' p.phase phase' →
        I w' ∧ P w' ⟨p.worker, phase', if p.phase.touchesStore then w'.snapshot else p.seen⟩
          ∧ ∀ q, P σ.world q → P w' q) :
    I σ.world ∧ ∀ p ∈ σ.processes, P σ.world p := by
  refine Walk.invariant h (I := fun σ => I σ.world ∧ ∀ p ∈ σ.processes, P σ.world p)
    ⟨init, by simp [start]⟩ fun a σ hσ hC => ?_
  refine step_invariant hσ (fun worker _ => polled _ worker hσ.1)
    (fun worker hint _ => hinted _ worker hint hσ.1) (fun p => crashed _ p)
    (fun w' ha => asked a _ w' ha hσ.1) ?_
  intro i choice p phase' w' ha hi hp hwrites hmoves _
  exact worked σ i choice p phase' w' (ha ▸ hC) hi hσ.1 hp hwrites hmoves

end Submission

end Sayiir
