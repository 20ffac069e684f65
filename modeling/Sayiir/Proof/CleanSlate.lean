import Sayiir.Proof.Terminal
import Sayiir.Runtime.Takeover

/-!
# A clean slate

A run that takes the place of an old one should not see anything of it. The argument
is a simulation: next to the takeover runs the same workflow under an id that has
never been used, and every step of the new run is a step of that one. The steps of
what is left of the old runs have no counterpart there, so they must not change
anything that is stored; between the deletion and the first snapshot the requests of
the old run may still be there, but nobody looks at them.
-/

namespace Sayiir

open Backend WorkflowSnapshot Submission

variable {d : Deed} {phase : Phase}

/-! ## Nothing depends on the trace -/

/-- The same world with another trace. -/
def PoolWorld.retrace (t : List Event) (w : PoolWorld) : PoolWorld := { w with trace := t }

/-- The same answer, and a world that differs in the trace only. -/
def Retraced {α : Type} (r r' : α × PoolWorld) : Prop := ∃ t, r' = (r.1, r.2.retrace t)

section retrace

variable {b : Backend} (t : List Event) (w : PoolWorld)

theorem shipOutput_retrace (s : WorkflowSnapshot) :
    shipOutput s (w.retrace t) = (shipOutput s w).retrace t := by
  unfold shipOutput
  split <;> rfl

variable (b) in
theorem saveSnapshot_retrace (s : WorkflowSnapshot) :
    ∃ t', b.saveSnapshot s (w.retrace t) = (b.saveSnapshot s w).retrace t' := by
  cases b with
  | inMemory => exact ⟨_, rfl⟩
  | postgres =>
    have hsnap : (w.retrace t).snapshot = w.snapshot := rfl
    simp only [saveSnapshot, storeBlob, hsnap]
    split
    · exact ⟨t, shipOutput_retrace t w s⟩
    · have hship := shipOutput_retrace (t ++ [.saved s])
        (PoolWorld.log (.saved s) { w with snapshot := some s.stripTaskOutputs.clearUnflushed }) s
      exact ⟨_, hship⟩

theorem saveSnapshotFenced_retrace (s : WorkflowSnapshot) (taskId : TaskId) (workerId : String) :
    Retraced (b.saveSnapshotFenced s taskId workerId w)
      (b.saveSnapshotFenced s taskId workerId (w.retrace t)) := by
  cases b with
  | inMemory => exact ⟨_, rfl⟩
  | postgres =>
    have hlive : postgres.holdsLiveClaim taskId workerId (w.retrace t)
      = postgres.holdsLiveClaim taskId workerId w := rfl
    simp only [saveSnapshotFenced, hlive]
    split
    · obtain ⟨t', ht⟩ := saveSnapshot_retrace postgres t w s
      exact ⟨t', by rw [ht]⟩
    · exact ⟨t, rfl⟩

theorem claimTask_retrace (taskId : TaskId) (workerId : String) (ttl : Option Duration) :
    Retraced (b.claimTask taskId workerId ttl w) (b.claimTask taskId workerId ttl (w.retrace t)) := by
  have hc : b.claimable taskId (w.retrace t) = b.claimable taskId w := by cases b <;> rfl
  simp only [claimTask, hc]
  split
  · exact ⟨t, rfl⟩
  · exact ⟨t, rfl⟩

theorem releaseTaskClaim_retrace (taskId : TaskId) (workerId : String) :
    Retraced (b.releaseTaskClaim taskId workerId w)
      (b.releaseTaskClaim taskId workerId (w.retrace t)) := by
  have hc : b.ownClaim taskId workerId (w.retrace t) = b.ownClaim taskId workerId w := by
    cases b <;> rfl
  simp only [releaseTaskClaim, hc]
  split <;> exact ⟨t, rfl⟩

theorem extendTaskClaim_retrace (taskId : TaskId) (workerId : String) (ttl : Duration) :
    Retraced (b.extendTaskClaim taskId workerId ttl w)
      (b.extendTaskClaim taskId workerId ttl (w.retrace t)) := by
  have hc : b.ownClaim taskId workerId (w.retrace t) = b.ownClaim taskId workerId w := by
    cases b <;> rfl
  simp only [extendTaskClaim, hc]
  split <;> exact ⟨t, rfl⟩

theorem markIfInProgress_retrace (mark : WorkflowSnapshot → WorkflowSnapshot) :
    markIfInProgress mark (w.retrace t)
      = ((markIfInProgress mark w).1, (markIfInProgress mark w).2.retrace t) := by
  have hsnap : (w.retrace t).snapshot = w.snapshot := rfl
  simp only [markIfInProgress, hsnap]
  split
  · split <;> rfl
  · rfl

theorem guardInMemory_retrace (scope : Option TaskId) (g : GuardStep) :
    Retraced (guardInMemory scope w g) (guardInMemory scope (w.retrace t) g) := by
  refine ⟨t, ?_⟩
  cases g with
  | start | checkCancel =>
    have hc : (w.retrace t).cancelSignal = w.cancelSignal := rfl
    simp only [guardInMemory, hc]
    split <;> rfl
  | checkPause =>
    have hp : (w.retrace t).pauseSignal = w.pauseSignal := rfl
    simp only [guardInMemory, hp]
    split <;> rfl
  | cancelRead request => simp only [guardInMemory, markIfInProgress_retrace]
  | pauseRead request => simp only [guardInMemory, markIfInProgress_retrace]
  | cancelMarked | pauseMarked => rfl

theorem guardPostgres_retrace (scope : Option TaskId) (g : GuardStep) :
    Retraced (guardPostgres scope w g) (guardPostgres scope (w.retrace t) g) := by
  refine ⟨t, ?_⟩
  cases g with
  | start => rfl
  | checkCancel =>
    have hc : (w.retrace t).cancelSignal = w.cancelSignal := rfl
    simp only [guardPostgres, hc, markIfInProgress_retrace]
    split
    · rfl
    · split <;> rfl
  | checkPause =>
    have hp : (w.retrace t).pauseSignal = w.pauseSignal := rfl
    simp only [guardPostgres, hp, markIfInProgress_retrace]
    split
    · rfl
    · split <;> rfl
  | cancelRead request | pauseRead request | cancelMarked | pauseMarked => rfl

variable (b) in
theorem guardStep_retrace (scope : Option TaskId) (g : GuardStep) :
    Retraced (b.guardStep scope g w) (b.guardStep scope g (w.retrace t)) := by
  cases b with
  | inMemory => exact guardInMemory_retrace t w scope g
  | postgres => exact guardPostgres_retrace t w scope g

theorem consumeEvent_retrace (signalName : String) :
    consumeEvent signalName (w.retrace t)
      = ((consumeEvent signalName w).1, (consumeEvent signalName w).2.retrace t) := by
  have he : (w.retrace t).events = w.events := rfl
  simp only [consumeEvent, he]
  split <;> rfl

theorem sendEvent_retrace (signalName : String) (payload : Bytes) :
    ∃ t', b.sendEvent signalName payload (w.retrace t)
      = (b.sendEvent signalName payload w).retrace t' := by
  have hsnap : (w.retrace t).snapshot = w.snapshot := rfl
  simp only [sendEvent, hsnap]
  split
  · split
    · split <;> exact ⟨_, rfl⟩
    · exact ⟨t, rfl⟩
  · exact ⟨t, rfl⟩

theorem unpause_retrace : Backend.unpause (w.retrace t) = (Backend.unpause w).retrace t := by
  have hsnap : (w.retrace t).snapshot = w.snapshot := rfl
  simp only [Backend.unpause, World.unpause, hsnap]
  split
  · rfl
  · split <;> rfl

variable (b) in
/-- An operation of an execution does not depend on the trace. -/
theorem handle_retrace (callbacks : Callbacks) (o : Op) :
    Retraced (b.handle callbacks o w) (b.handle callbacks o (w.retrace t)) := by
  have hsnap : (w.retrace t).snapshot = w.snapshot := rfl
  cases o with
  | saveSnapshot s =>
    obtain ⟨t', ht⟩ := saveSnapshot_retrace b t w s
    exact ⟨t', Prod.ext rfl ht⟩
  | saveTaskResult taskId output =>
    cases b with
    | inMemory =>
      simp only [handle, saveTaskResult, World.saveTaskResult, hsnap]
      split <;> exact ⟨_, rfl⟩
    | postgres =>
      simp only [handle, saveTaskResult, Postgres.saveTaskResult, Postgres.loadSnapshot, hsnap]
      cases w.snapshot <;> exact ⟨_, rfl⟩
  | loadSnapshot =>
    simp only [handle, loadSnapshot, hsnap]
    split <;> exact ⟨t, rfl⟩
  | checkAndCancel scope =>
    have hc : (w.retrace t).cancelSignal = w.cancelSignal := rfl
    cases b with
    | inMemory =>
      simp only [handle, checkAndCancel, World.checkAndCancel, hc, hsnap]
      split
      · exact ⟨t, rfl⟩
      · split
        · exact ⟨t, rfl⟩
        · split <;> exact ⟨t, rfl⟩
    | postgres =>
      simp only [handle, checkAndCancel, Postgres.checkAndCancel, Postgres.checkAnd, hc,
        markIfInProgress_retrace]
      split
      · exact ⟨t, rfl⟩
      · split <;> exact ⟨t, rfl⟩
  | checkAndPause =>
    have hp : (w.retrace t).pauseSignal = w.pauseSignal := rfl
    cases b with
    | inMemory =>
      simp only [handle, checkAndPause, World.checkAndPause, hp, hsnap]
      split
      · exact ⟨t, rfl⟩
      · split
        · exact ⟨t, rfl⟩
        · split <;> exact ⟨t, rfl⟩
    | postgres =>
      simp only [handle, checkAndPause, Postgres.checkAndPause, Postgres.checkAnd, hp,
        markIfInProgress_retrace]
      split
      · exact ⟨t, rfl⟩
      · split <;> exact ⟨t, rfl⟩
  | consumeEvent signalName =>
    simp only [handle, consumeEvent_retrace]
    exact ⟨t, rfl⟩
  | raceTask id input deadline =>
    have hclock : (w.retrace t).clock = w.clock := rfl
    simp only [handle, Op.handle, hclock]
    split <;> exact ⟨_, rfl⟩
  | executeTask | executeKeyFn | utcNow | sleepUntil | reached => exact ⟨_, rfl⟩

variable [Sha256]

theorem applyAdvance_retrace (advance : Advance) :
    applyAdvance advance (w.retrace t) = (applyAdvance advance w).retrace t := by
  cases advance <;> rfl

variable (job : Submission) (worker : Worker)

theorem startTask_retrace (task : AvailableTask) (raised : Option RuntimeError) :
    Retraced (job.startTask worker task raised w)
      (job.startTask worker task raised (w.retrace t)) := by
  have hclock : (w.retrace t).clock = w.clock := rfl
  simp only [startTask, hclock]
  split
  · exact ⟨t, rfl⟩
  · split
    · exact ⟨t, rfl⟩
    · exact ⟨_, rfl⟩

theorem heartbeat_retrace (ttl : Duration) (task : AvailableTask)
    (outcome : Except RuntimeError Bytes) (deadline : Option TaskDeadline) (failures : Nat)
    (readFails extendFails : Bool) :
    Retraced (job.heartbeat worker ttl task outcome deadline failures readFails extendFails w)
      (job.heartbeat worker ttl task outcome deadline failures readFails extendFails
        (w.retrace t)) := by
  have hclock : (w.retrace t).clock = w.clock := rfl
  have hcancel : (w.retrace t).cancelSignal = w.cancelSignal := rfl
  obtain ⟨t', hext⟩ := extendTaskClaim_retrace (b := job.backend) t w task.taskId worker.id ttl
  simp only [heartbeat, hclock, hcancel, hext]
  split
  · exact ⟨t, rfl⟩
  · cases extendFails
    · refine ⟨t', ?_⟩
      simp only [Bool.false_eq_true, if_false]
      split
      · rfl
      · split
        · rfl
        · split <;> rfl
        · rfl
    · refine ⟨t, ?_⟩
      simp only [if_true]
      split
      · rfl
      · split <;> rfl

/-- A call of a process does not depend on the trace. -/
theorem call_retrace (phase : Phase) :
    Retraced (job.call worker phase w) (job.call worker phase (w.retrace t)) := by
  cases phase with
  | polling =>
    have hrow : selectRow worker.tags (w.retrace t) = selectRow worker.tags w := rfl
    simp only [call, hrow]
    split
    · exact ⟨t, rfl⟩
    · split <;> exact ⟨t, rfl⟩
  | collecting =>
    have hadvance : collectAdvance (w.retrace t) = collectAdvance w := rfl
    simp only [call, hadvance]
    split
    · exact ⟨t, rfl⟩
    · split <;> exact ⟨_, rfl⟩
  | advancing advance => exact ⟨t, Prod.ext rfl (applyAdvance_retrace t w advance)⟩
  | selecting => exact ⟨t, rfl⟩
  | hydrating blob => exact ⟨t, rfl⟩
  | waking s next =>
    obtain ⟨t', ht⟩ := saveSnapshot_retrace job.backend t w s
    exact ⟨t', Prod.ext rfl ht⟩
  | offered task =>
    obtain ⟨t', ht⟩ := claimTask_retrace (b := job.backend) t w task.taskId worker.id worker.ttl
    simp only [call, ht]
    split
    · exact ⟨t', rfl⟩
    · exact ⟨t, rfl⟩
  | guarding task g =>
    obtain ⟨t', ht⟩ := guardStep_retrace job.backend t w (some task.taskId) g
    simp only [call, ht]
    exact ⟨t', rfl⟩
  | executing task => exact startTask_retrace t w job worker task none
  | running task outcome deadline failures => exact ⟨t, rfl⟩
  | retrying task s | failing task s =>
    obtain ⟨t', ht⟩ := saveSnapshotFenced_retrace (b := job.backend) t w s task.taskId worker.id
    simp only [call, ht]
    exact ⟨t', rfl⟩
  | releasing task | cancelling task =>
    obtain ⟨t', ht⟩ := releaseTaskClaim_retrace (b := job.backend) t w task.taskId worker.id
    simp only [call, ht]
    exact ⟨t', rfl⟩
  | cancelled task g =>
    obtain ⟨t', ht⟩ := guardStep_retrace job.backend t w (some task.taskId) g
    simp only [call, ht]
    exact ⟨t', rfl⟩
  | committing task s output =>
    obtain ⟨t', ht⟩ := saveSnapshotFenced_retrace (b := job.backend) t w s task.taskId worker.id
    simp only [call, ht]
    exact ⟨t', rfl⟩
  | draining task s output =>
    simp only [call, consumeEvent_retrace]
    split
    · cases hc : consumeEvent _ w with
      | mk payload v => cases payload <;> exact ⟨_, rfl⟩
    · exact ⟨t, rfl⟩
  | drained task s output =>
    obtain ⟨t', ht⟩ := saveSnapshot_retrace job.backend t w s
    exact ⟨t', Prod.ext rfl ht⟩
  | handingBack task s output =>
    obtain ⟨t', ht⟩ := releaseTaskClaim_retrace (b := job.backend) t w task.taskId worker.id
    simp only [call, ht]
    exact ⟨t', rfl⟩
  | resolving saves result output =>
    cases saves with
    | nil => exact ⟨t, rfl⟩
    | cons s saves =>
      obtain ⟨t', ht⟩ := saveSnapshot_retrace job.backend t w s
      exact ⟨t', Prod.ext rfl ht⟩
  | concluding s output g =>
    obtain ⟨t', ht⟩ := guardStep_retrace job.backend t w none g
    simp only [call, ht]
    exact ⟨t', rfl⟩
  | completing s =>
    obtain ⟨t', ht⟩ := saveSnapshot_retrace job.backend t w s
    exact ⟨t', Prod.ext rfl ht⟩
  | done => exact ⟨t, rfl⟩

theorem phaseStep_retrace (choice : Choice) (phase : Phase) :
    Retraced (job.phaseStep worker choice phase w)
      (job.phaseStep worker choice phase (w.retrace t)) := by
  unfold phaseStep
  split
  · exact call_retrace t w job worker _
  · exact startTask_retrace t w job worker _ _
  · exact ⟨t, rfl⟩
  · split
    · exact heartbeat_retrace t w job worker ..
    · exact ⟨t, rfl⟩
  · exact ⟨t, rfl⟩
  · exact ⟨t, rfl⟩
  · exact ⟨t, rfl⟩
  · rename_i applied _ _
    obtain ⟨t', ht⟩ := call_retrace t w job worker phase
    cases applied
    · exact ⟨t, rfl⟩
    · exact ⟨t', by simp only [if_true, ht]⟩

/-- **A step of the pool does not depend on the trace.** -/
theorem step_retrace (a : Action) (σ : Pool) :
    ∃ t', job.step a { σ with world := σ.world.retrace t }
      = { job.step a σ with world := (job.step a σ).world.retrace t' } := by
  cases a with
  | tick d => exact ⟨t, rfl⟩
  | sendEvent signalName payload =>
    obtain ⟨t', ht⟩ := sendEvent_retrace (b := job.backend) t σ.world signalName payload
    simp only [step, ht]
    exact ⟨t', rfl⟩
  | request kind request =>
    have hv : job.backend.validateSignal kind (σ.world.retrace t)
      = job.backend.validateSignal kind σ.world := rfl
    simp only [step, hv]
    split
    · exact ⟨t, rfl⟩
    · cases kind <;> exact ⟨t, rfl⟩
    · exact ⟨t, rfl⟩
  | insertRequest i =>
    simp only [step]
    split
    · exact ⟨t, rfl⟩
    · rename_i kind request _
      cases kind <;> exact ⟨t, rfl⟩
  | unpause =>
    simp only [step, unpause_retrace]
    exact ⟨t, rfl⟩
  | poll worker => exact ⟨t, rfl⟩
  | hinted worker hint =>
    have hh : job.backend.findHintedTask hint (σ.world.retrace t)
      = job.backend.findHintedTask hint σ.world := by cases job.backend <;> rfl
    simp only [step, hh]
    exact ⟨t, rfl⟩
  | work i choice =>
    simp only [step]
    cases hp : σ.processes[i]? with
    | none => exact ⟨t, rfl⟩
    | some p =>
      obtain ⟨t', ht⟩ := phaseStep_retrace t σ.world job p.worker choice p.phase
      simp only [workStep, ht]
      exact ⟨t', rfl⟩
  | crash i =>
    simp only [step]
    cases hp : σ.processes[i]? <;> exact ⟨t, rfl⟩

end retrace

/-! ## Steps that leave the store alone -/

namespace Backend

variable (b : Backend) {w : PoolWorld}

/-- Postgres keeps a terminal snapshot, and no output is shipped next to this one. -/
def refuses (s : WorkflowSnapshot) (w : PoolWorld) : Bool :=
  match b with
  | inMemory => false
  | postgres => w.snapshot.any isTerminal
      && !(s.outputUnflushed && s.lastCompletedTaskId.isSome)

/-- The request is there, and the instance is in progress. -/
def applicable (request : Option SignalRequest) (w : PoolWorld) : Bool :=
  request.isSome && w.snapshot.any isInProgress

/-- The worker has a claim on the task. -/
def owns (taskId : TaskId) (workerId : String) (w : PoolWorld) : Bool :=
  (b.ownClaim taskId workerId w).isOk

/-- A step of the guards that changes nothing. -/
def guardSpares (g : GuardStep) (w : PoolWorld) : Bool :=
  match b, g with
  | inMemory, .cancelRead _ | inMemory, .pauseRead _ =>
    !w.snapshot.any isInProgress
  | inMemory, .cancelMarked => w.cancelSignal.isNone
  | inMemory, .pauseMarked => w.pauseSignal.isNone
  | postgres, .checkCancel => !applicable w.cancelSignal w
  | postgres, .checkPause => !applicable w.pauseSignal w
  | _, _ => true

/-- An operation that at most lets time pass. -/
def opSpares : Op → PoolWorld → Bool
  | .saveSnapshot s, w => b.refuses s w
  | .saveTaskResult .., w => w.snapshot.isNone
  | .checkAndCancel _, w => !applicable w.cancelSignal w
  | .checkAndPause, w => !applicable w.pauseSignal w
  | .consumeEvent signalName, w => (w.events signalName).isEmpty
  | _, _ => true

variable {b}

theorem saveSnapshot_of_refuses {s : WorkflowSnapshot} (h : b.refuses s w) :
    b.saveSnapshot s w = w := by
  cases b with
  | inMemory => exact absurd h (by simp [refuses])
  | postgres =>
    simp only [refuses, Bool.and_eq_true, Bool.not_eq_true', Bool.and_eq_false_iff,
      Option.isSome_eq_false_iff, Option.isNone_iff_eq_none] at h
    obtain ⟨hterminal, hship⟩ := h
    simp only [saveSnapshot, storeBlob, hterminal, if_true, shipOutput]
    split
    · rename_i hu hl
      rcases hship with hu' | hl'
      · simp [hu] at hu'
      · simp [hl] at hl'
    · rfl

theorem markIfInProgress_of_not (mark : WorkflowSnapshot → WorkflowSnapshot)
    (h : w.snapshot.any isInProgress = false) :
    markIfInProgress mark w = (false, w) := by
  unfold markIfInProgress
  cases hs : w.snapshot with
  | none => rfl
  | some s =>
    have hp : s.isInProgress = false := by simpa [hs] using h
    simp [hp]

theorem guardStep_of_spares {g : GuardStep} (scope : Option TaskId) (h : b.guardSpares g w) :
    (b.guardStep scope g w).2 = w := by
  cases b with
  | inMemory =>
    cases g with
    | start | checkCancel =>
      simp only [guardStep, guardInMemory]
      split <;> rfl
    | checkPause =>
      simp only [guardStep, guardInMemory]
      split <;> rfl
    | cancelRead request | pauseRead request =>
      have hp : w.snapshot.any isInProgress = false := by
        simpa [guardSpares] using h
      simp only [guardStep, guardInMemory, markIfInProgress_of_not _ hp]
    | cancelMarked =>
      have hc : w.cancelSignal = none := by simpa [guardSpares] using h
      change { w with cancelSignal := none } = w
      rw [← hc]
    | pauseMarked =>
      have hp : w.pauseSignal = none := by simpa [guardSpares] using h
      change { w with pauseSignal := none } = w
      rw [← hp]
  | postgres =>
    cases g with
    | checkCancel =>
      cases hc : w.cancelSignal with
      | none => simp only [guardStep, guardPostgres, hc]
      | some request =>
        have hp : w.snapshot.any isInProgress = false := by
          simpa [guardSpares, applicable, hc] using h
        simp [guardStep, guardPostgres, hc, markIfInProgress_of_not _ hp]
    | checkPause =>
      cases hc : w.pauseSignal with
      | none => simp only [guardStep, guardPostgres, hc]
      | some request =>
        have hp : w.snapshot.any isInProgress = false := by
          simpa [guardSpares, applicable, hc] using h
        simp [guardStep, guardPostgres, hc, markIfInProgress_of_not _ hp]
    | start | cancelRead | pauseRead | cancelMarked | pauseMarked => rfl

theorem releaseTaskClaim_of_not_owns {taskId : TaskId} {workerId : String}
    (h : b.owns taskId workerId w = false) : (b.releaseTaskClaim taskId workerId w).2 = w := by
  unfold releaseTaskClaim
  split
  · rfl
  · rename_i claim hc
    rw [owns, hc] at h
    exact absurd h (by simp [Except.isOk, Except.toBool])

theorem extendTaskClaim_of_not_owns {taskId : TaskId} {workerId : String} (ttl : Duration)
    (h : b.owns taskId workerId w = false) : (b.extendTaskClaim taskId workerId ttl w).2 = w := by
  unfold extendTaskClaim
  split
  · rfl
  · rename_i claim hc
    rw [owns, hc] at h
    exact absurd h (by simp [Except.isOk, Except.toBool])

/-- An operation that leaves the store alone lets time pass at most. -/
theorem handle_of_spares {o : Op} (callbacks : Callbacks) (h : b.opSpares o w) :
    ∃ t d, (b.handle callbacks o w).2 = { w with trace := t, clock := w.clock + d } := by
  have hsame : ∀ v : PoolWorld, v = w →
      ∃ t d, v = { w with trace := t, clock := w.clock + d } := fun v hv => ⟨w.trace, 0, hv⟩
  cases o with
  | saveSnapshot s => exact hsame _ (saveSnapshot_of_refuses h)
  | saveTaskResult taskId output =>
    have hs : w.snapshot = none := by simpa [opSpares] using h
    apply hsame
    cases b with
    | inMemory => simp [handle, saveTaskResult, World.saveTaskResult, hs]
    | postgres =>
      simp [handle, saveTaskResult, Postgres.saveTaskResult, Postgres.loadSnapshot, hs]
  | loadSnapshot => exact hsame _ rfl
  | checkAndCancel scope =>
    apply hsame
    cases hc : w.cancelSignal with
    | none =>
      cases b with
      | inMemory => simp [handle, checkAndCancel, World.checkAndCancel, hc]
      | postgres =>
        simp [handle, checkAndCancel, Postgres.checkAndCancel, Postgres.checkAnd, hc]
    | some request =>
      have hp : w.snapshot.any isInProgress = false := by
        simpa [opSpares, applicable, hc] using h
      cases b with
      | inMemory =>
        rcases w.toWorld.checkAndCancel_cases scope with h' | ⟨s, r, hs, hprog, -, -⟩
        · exact congrArg (fun v => { w with toWorld := v }) h'
        · simp [hs, hprog] at hp
      | postgres =>
        simp [handle, checkAndCancel, Postgres.checkAndCancel, Postgres.checkAnd, hc,
          markIfInProgress_of_not _ hp]
  | checkAndPause =>
    apply hsame
    cases hc : w.pauseSignal with
    | none =>
      cases b with
      | inMemory => simp [handle, checkAndPause, World.checkAndPause, hc]
      | postgres => simp [handle, checkAndPause, Postgres.checkAndPause, Postgres.checkAnd, hc]
    | some request =>
      have hp : w.snapshot.any isInProgress = false := by
        simpa [opSpares, applicable, hc] using h
      cases b with
      | inMemory =>
        rcases w.toWorld.checkAndPause_cases with h' | ⟨s, r, hs, hprog, -, -⟩
        · exact congrArg (fun v => { w with toWorld := v }) h'
        · simp [hs, hprog] at hp
      | postgres =>
        simp [handle, checkAndPause, Postgres.checkAndPause, Postgres.checkAnd, hc,
          markIfInProgress_of_not _ hp]
  | consumeEvent signalName =>
    have he : w.events signalName = [] := by simpa [opSpares] using h
    exact hsame _ (by simp [handle, consumeEvent, he])
  | raceTask id input deadline =>
    simp only [handle, Op.handle]
    split <;> exact ⟨_, _, rfl⟩
  | sleepUntil time =>
    refine ⟨w.trace, time - w.clock, ?_⟩
    have hmax : ∀ m n : ℕ, max m n = m + (n - m) := by omega
    have hclock : max w.clock time = w.clock + (time - w.clock) := hmax w.clock time
    simp only [handle, Op.handle, hclock]
  | executeTask id input | executeKeyFn id input => exact ⟨_, _, rfl⟩
  | utcNow => exact hsame _ rfl
  | reached id => exact ⟨_, 0, rfl⟩

end Backend

/-- A step of an execution is one operation, or none. -/
theorem Prog.step_noted {h : (o : Op) → PoolWorld → o.Resp × PoolWorld} {α : Type}
    {p p' : Proc α} {v v' : PoolWorld × Option Op} (hs : Prog.Step (Crew.noted h) p v p' v') :
    v' = v ∨ ∃ o, v' = ((h o v.1).2, some o) := by
  induction hs with
  | @op _ o k v => exact .inr ⟨o, rfl⟩
  | child _ _ ih => exact ih
  | join _ => exact .inl rfl

namespace Submission

variable (job : Submission) (worker : Worker) {w : PoolWorld}

theorem dropExpired_eq_self (h : w.claims.all fun c => !inMemory.isExpired w.clock c) :
    dropExpired w = w := by
  have hf : w.claims.filter (fun c => !inMemory.isExpired w.clock c) = w.claims :=
    List.filter_eq_self.mpr (List.all_eq_true.mp h)
  unfold dropExpired
  rw [hf]

variable {job worker} in
theorem saveSnapshotFenced_of_spares {s : WorkflowSnapshot} {task : AvailableTask}
    (h : (job.backend.refuses s w || decide (job.backend = postgres)
      && !postgres.holdsLiveClaim task.taskId worker.id w) = true) :
    (job.backend.saveSnapshotFenced s task.taskId worker.id w).2 = w := by
  simp only [Bool.or_eq_true, Bool.and_eq_true, decide_eq_true_eq, Bool.not_eq_true'] at h
  rcases h with hr | ⟨hb, hl⟩
  · have hsave := saveSnapshot_of_refuses hr
    cases hb : job.backend with
    | inMemory => rw [hb] at hsave; exact hsave
    | postgres =>
      rw [hb] at hsave
      unfold saveSnapshotFenced
      dsimp only
      split
      · exact hsave
      · rfl
  · simp [hb, saveSnapshotFenced, hl]

variable [Sha256]

/-- A call of a process that leaves the store alone, whatever the process holds. -/
def callSpares (w : PoolWorld) : Phase → Bool
  | .polling => decide (job.backend = postgres)
      || w.claims.all fun c => !inMemory.isExpired w.clock c
  | .collecting | .selecting | .hydrating _ | .executing _ | .running .. | .done => true
  | .advancing advance => w.snapshot.isNone && match advance with
      | .signal _ signalName _ => (w.events signalName).isEmpty
      | _ => true
  | .waking s _ | .drained _ s _ | .completing s | .resolving (s :: _) _ _ =>
    job.backend.refuses s w
  | .resolving [] _ _ => true
  | .offered task => !job.accepts task || !job.backend.claimable task.taskId w
  | .guarding _ g | .cancelled _ g | .concluding _ _ g => job.backend.guardSpares g w
  | .retrying task s | .failing task s | .committing task s _ =>
    job.backend.refuses s w
      || decide (job.backend = postgres) && !postgres.holdsLiveClaim task.taskId worker.id w
  | .releasing task | .cancelling task | .handingBack task _ _ =>
    !job.backend.owns task.taskId worker.id w
  | .draining _ s _ => match s.state with
      | .inProgress (.atSignal _ signalName _ _) _ _ => (w.events signalName).isEmpty
      | _ => true

/-- A step of a process that leaves the store alone. -/
def stepSpares (choice : Choice) (phase : Phase) (w : PoolWorld) : Bool :=
  match choice, phase with
  | .proceed, phase | .lost true, phase => job.callSpares worker w phase
  | .lost false, _ | .raise _, _ => true
  | .heartbeat _ _, .running task _ _ _ => !job.backend.owns task.taskId worker.id w
  | .heartbeat _ _, _ => true

variable {job worker}

theorem call_of_spares (h : job.callSpares worker w phase) :
    ∃ t, (job.call worker phase w).2 = w.retrace t := by
  have hsame : ∀ v : PoolWorld, v = w → ∃ t, v = w.retrace t := fun v hv => ⟨w.trace, hv⟩
  cases phase with
  | polling =>
    apply hsame
    cases hb : job.backend with
    | inMemory =>
      simp only [callSpares, hb, reduceCtorEq, decide_false, Bool.false_or] at h
      simp only [call, hb]
      exact dropExpired_eq_self h
    | postgres =>
      simp only [call, hb]
      split <;> rfl
  | collecting =>
    simp only [call]
    split
    · exact hsame _ rfl
    · split <;> exact ⟨_, rfl⟩
  | advancing advance =>
    simp only [callSpares, Bool.and_eq_true, Option.isNone_iff_eq_none] at h
    obtain ⟨hs, he⟩ := h
    have hmap : ∀ f, { w with snapshot := w.snapshot.map f } = w := by
      intro f
      rw [hs, Option.map_none, ← hs]
    apply hsame
    cases advance with
    | delay next => exact hmap _
    | delayDone delayId => exact hmap _
    | signal signalId signalName next =>
      have he' : w.events signalName = [] := by simpa using he
      have hupdate : Function.update w.events signalName (w.events signalName).tail
          = w.events := by
        rw [he', List.tail_nil, ← he', Function.update_eq_self]
      simp only [call, applyAdvance, hupdate]
      exact hmap _
    | signalTimeout signalId signalName next => exact hmap _
  | selecting | hydrating blob | running task outcome deadline failures | done =>
    exact hsame _ rfl
  | waking s next => exact hsame _ (saveSnapshot_of_refuses h)
  | drained task s output => exact hsame _ (saveSnapshot_of_refuses h)
  | completing s => exact hsame _ (saveSnapshot_of_refuses h)
  | resolving saves result output =>
    cases saves with
    | nil => exact hsame _ rfl
    | cons s saves => exact hsame _ (saveSnapshot_of_refuses h)
  | offered task =>
    apply hsame
    simp only [callSpares, Bool.or_eq_true, Bool.not_eq_true'] at h
    simp only [call]
    split
    · rename_i ha
      rcases h with hn | hc
      · exact absurd hn (by simp [ha])
      · simp [claimTask, hc]
    · rfl
  | executing task =>
    simp only [call, startTask]
    split
    · exact hsame _ rfl
    · split
      · exact hsame _ rfl
      · exact ⟨_, rfl⟩
  | guarding task g => exact hsame _ (guardStep_of_spares _ h)
  | cancelled task g => exact hsame _ (guardStep_of_spares _ h)
  | concluding s output g => exact hsame _ (guardStep_of_spares _ h)
  | retrying task s => exact hsame _ (saveSnapshotFenced_of_spares h)
  | failing task s => exact hsame _ (saveSnapshotFenced_of_spares h)
  | committing task s output => exact hsame _ (saveSnapshotFenced_of_spares h)
  | releasing task =>
    exact hsame _ (releaseTaskClaim_of_not_owns (by simpa [callSpares] using h))
  | cancelling task =>
    exact hsame _ (releaseTaskClaim_of_not_owns (by simpa [callSpares] using h))
  | handingBack task s output =>
    exact hsame _ (releaseTaskClaim_of_not_owns (by simpa [callSpares] using h))
  | draining task s output =>
    apply hsame
    simp only [callSpares] at h
    simp only [call]
    split
    · rename_i signalId signalName wakeAt next completed last hst
      rw [hst] at h
      have he : w.events signalName = [] := by simpa using h
      simp [consumeEvent, he]
    · rfl

theorem heartbeat_of_not_owns {ttl : Duration} {task : AvailableTask}
    {outcome : Except RuntimeError Bytes} {deadline : Option TaskDeadline} {failures : Nat}
    (readFails extendFails : Bool) (h : job.backend.owns task.taskId worker.id w = false) :
    (job.heartbeat worker ttl task outcome deadline failures readFails extendFails w).2 = w := by
  have hext := extendTaskClaim_of_not_owns ttl h
  have hext' : (if extendFails then (Except.error (.backend "extend"), w)
      else job.backend.extendTaskClaim task.taskId worker.id ttl w).2 = w := by
    split
    · rfl
    · exact hext
  unfold heartbeat
  split
  · rfl
  · dsimp only
    split
    · exact hext'
    · split
      · exact hext'
      · split <;> exact hext'
      · exact hext'

/-- **A step that leaves the store alone changes the trace at most.** -/
theorem workStep_of_spares {choice : Choice} {p : Process}
    (h : job.stepSpares p.worker choice p.phase w) :
    ∃ t, (job.workStep choice p w).2 = w.retrace t := by
  have hsame : ∀ v : PoolWorld, v = w → ∃ t, v = w.retrace t := fun v hv => ⟨w.trace, hv⟩
  simp only [workStep, phaseStep]
  split
  · exact call_of_spares h
  · -- a call of the task function that fails is still a call
    simp only [startTask]
    split
    · exact hsame _ rfl
    · split
      · exact hsame _ rfl
      · exact ⟨_, rfl⟩
  · exact hsame _ rfl
  · rename_i readFails extendFails task outcome deadline failures heq
    rw [heq] at h
    split
    · exact hsame _ (heartbeat_of_not_owns readFails extendFails (by simpa [stepSpares] using h))
    · exact hsame _ rfl
  · exact hsame _ rfl
  · exact hsame _ rfl
  · exact hsame _ rfl
  · rename_i applied _ _
    cases applied with
    | false => exact hsame _ rfl
    | true => exact call_of_spares h

end Submission

/-! ## Between the deletion and the first snapshot -/

/-- The same world without requests and with another trace. -/
def PoolWorld.quiet (t : List Event) (w : PoolWorld) : PoolWorld :=
  { w with cancelSignal := none, pauseSignal := none, trace := t }

/-- Nothing is stored of the instance, and nobody has read anything of it. -/
structure Pool.Vacant (σ : Pool) : Prop where
  missing : σ.world.snapshot = none
  unasked : σ.requests = []
  idle : ∀ p ∈ σ.processes, p.phase.isUnread

theorem Phase.isUnread_cases (h : phase.isUnread) :
    phase = .polling ∨ phase = .collecting ∨ phase = .selecting ∨ phase = .done := by
  cases phase <;> simp_all [Phase.isUnread]

namespace Submission

variable [Sha256] {job : Submission} {worker : Worker} {w : PoolWorld}

variable (job worker) in
/-- An idle process that finds nothing stays idle, whatever is requested. -/
theorem call_of_missing (hs : w.snapshot = none) (hp : phase.isUnread)
    (t : List Event) : ∃ phase' claims, phase'.isUnread
      ∧ job.call worker phase w = (phase', { w with claims := claims })
      ∧ job.call worker phase (w.quiet t) = (phase', ({ w with claims := claims } : PoolWorld).quiet t) := by
  have hs' : (w.quiet t).snapshot = none := hs
  cases phase with
  | polling =>
    cases hb : job.backend with
    | inMemory =>
      refine ⟨.collecting, (dropExpired w).claims, rfl, ?_, ?_⟩
      · simp only [call, hb]
        rfl
      · simp only [call, hb]
        rfl
    | postgres =>
      refine ⟨.done, w.claims, rfl, ?_, ?_⟩
      · simp only [call, hb, selectRow, hs, Option.filter_none]
      · simp only [call, hb, selectRow, hs', Option.filter_none]
  | collecting =>
    refine ⟨.selecting, w.claims, rfl, ?_, ?_⟩
    · simp only [call, collectAdvance, hs]
    · simp only [call, collectAdvance, hs']
  | selecting =>
    refine ⟨.done, w.claims, rfl, ?_, ?_⟩
    · simp only [call, selectTask, hs, offer]
    · simp only [call, selectTask, hs', offer]
  | done => exact ⟨.done, w.claims, rfl, rfl, rfl⟩
  | _ => exact absurd hp (by simp [Phase.isUnread])

variable (job worker) in
theorem phaseStep_of_missing (choice : Choice) (hs : w.snapshot = none)
    (hp : phase.isUnread) (t : List Event) : ∃ phase' claims, phase'.isUnread
      ∧ job.phaseStep worker choice phase w = (phase', { w with claims := claims })
      ∧ job.phaseStep worker choice phase (w.quiet t)
          = (phase', ({ w with claims := claims } : PoolWorld).quiet t) := by
  obtain ⟨phase', claims, hidle, hcall, hcall'⟩ :=
    call_of_missing job worker hs hp t
  cases choice with
  | proceed => exact ⟨phase', claims, hidle, hcall, hcall'⟩
  | lost applied =>
    -- the call has been made or not; either way the process ends
    cases applied with
    | false =>
      refine ⟨.done, w.claims, rfl, ?_, ?_⟩ <;>
        rcases Phase.isUnread_cases hp with rfl | rfl | rfl | rfl <;> rfl
    | true =>
      refine ⟨.done, claims, rfl, Prod.ext ?_ ?_, Prod.ext ?_ ?_⟩
      · rcases Phase.isUnread_cases hp with rfl | rfl | rfl | rfl <;> rfl
      · have hworld := congrArg Prod.snd hcall
        rcases Phase.isUnread_cases hp with rfl | rfl | rfl | rfl <;> exact hworld
      · rcases Phase.isUnread_cases hp with rfl | rfl | rfl | rfl <;> rfl
      · have hworld := congrArg Prod.snd hcall'
        rcases Phase.isUnread_cases hp with rfl | rfl | rfl | rfl <;> exact hworld
  | raise e | heartbeat readFails extendFails =>
    refine ⟨phase, w.claims, hp, ?_, ?_⟩ <;>
      rcases Phase.isUnread_cases hp with rfl | rfl | rfl | rfl <;> rfl

omit [Sha256] in
theorem sendEvent_of_missing (signalName : String) (payload : Bytes) (hs : w.snapshot = none) :
    job.backend.sendEvent signalName payload w
      = { w with toWorld := w.toWorld.sendEvent signalName payload } := by
  unfold sendEvent
  rw [hs]
  cases job.backend <;> rfl

variable (job) in
/-- **As long as nothing is stored, requests make no difference to the pool.** -/
theorem step_of_vacant (a : Action) {σ : Pool} (hσ : σ.Vacant) (t : List Event) :
    (job.step a σ).Vacant
      ∧ (job.step a σ).world.cancelSignal = σ.world.cancelSignal
      ∧ (job.step a σ).world.pauseSignal = σ.world.pauseSignal
      ∧ job.step a { σ with world := σ.world.quiet t }
          = { job.step a σ with world := (job.step a σ).world.quiet t } := by
  obtain ⟨hs, hr, hidle⟩ := hσ
  have hs' : (σ.world.quiet t).snapshot = none := hs
  cases a with
  | tick d => exact ⟨⟨hs, hr, hidle⟩, rfl, rfl, rfl⟩
  | sendEvent signalName payload =>
    simp only [step, sendEvent_of_missing signalName payload hs,
      sendEvent_of_missing signalName payload hs']
    exact ⟨⟨hs, hr, hidle⟩, rfl, rfl, rfl⟩
  | request kind request =>
    simp only [step, validateSignal, hs, hs']
    exact ⟨⟨hs, hr, hidle⟩, trivial, trivial, trivial⟩
  | insertRequest i =>
    simp only [step, hr, List.getElem?_nil]
    exact ⟨⟨hs, hr, hidle⟩, trivial, trivial, trivial⟩
  | unpause =>
    simp only [step, Backend.unpause, World.unpause, hs, hs']
    exact ⟨⟨hs, hr, hidle⟩, trivial, trivial, trivial⟩
  | poll worker =>
    refine ⟨⟨hs, hr, fun p hp => ?_⟩, rfl, rfl, rfl⟩
    rcases List.mem_append.mp hp with hp | hp
    · exact hidle p hp
    · rw [List.mem_singleton.mp hp]
      rfl
  | hinted worker hint =>
    have hfind : ∀ v : PoolWorld, v.snapshot = none → job.backend.findHintedTask hint v = none := by
      intro v hv
      unfold findHintedTask
      cases job.backend <;> simp [hv]
    simp only [step, hfind _ hs, hfind _ hs', offer, hs, hs']
    refine ⟨⟨hs, hr, fun p hp => ?_⟩, trivial, trivial, trivial⟩
    rcases List.mem_append.mp hp with hp | hp
    · exact hidle p hp
    · rw [List.mem_singleton.mp hp]
      rfl
  | work i choice =>
    simp only [step]
    cases hp : σ.processes[i]? with
    | none => exact ⟨⟨hs, hr, hidle⟩, rfl, rfl, rfl⟩
    | some p =>
      obtain ⟨phase', claims, hidle', hstep, hstep'⟩ := phaseStep_of_missing job p.worker
        choice hs (hidle p (List.mem_of_getElem? hp)) t
      simp only [workStep, hstep, hstep']
      refine ⟨⟨hs, hr, fun q hq => ?_⟩, trivial, trivial, rfl⟩
      rcases List.mem_or_eq_of_mem_set hq with hq | rfl
      · exact hidle q hq
      · exact hidle'
  | crash i =>
    simp only [step]
    cases hp : σ.processes[i]? with
    | none => exact ⟨⟨hs, hr, hidle⟩, rfl, rfl, rfl⟩
    | some p =>
      refine ⟨⟨hs, hr, fun q hq => ?_⟩, rfl, rfl, rfl⟩
      rcases List.mem_or_eq_of_mem_set hq with hq | rfl
      · exact hidle q hq
      · rfl

end Submission

/-! ## The simulation -/

namespace Takeover

variable [Sha256] (job : Submission)

/-- What is left of the old runs leaves the store of the new one alone. -/
def Spares : Deed → Takeover → Bool
  | .formerWork i choice, κ => match κ.formerProcesses[i]? with
      | none => true
      | some (former, p) => former.stepSpares p.worker choice p.phase κ.pool.world
  | .formerExecute _ o, κ => o.all fun op => job.backend.opSpares op κ.pool.world
  | _, _ => true

/-- The phase in which a submission returns after it has stored the first snapshot. -/
def founded : SubmitPhase := .returned (.ok (.inProgress, none)) true

/-- The takeover has deleted what was stored and not yet stored the first snapshot, and
under the other id nothing has been stored either. -/
structure Founding (κ φ : Takeover) : Prop where
  call : φ.call = { κ.call with phase := .creating }
  phase : κ.call.phase = .clearing .cancel
    ∨ κ.call.phase = .clearing .pause ∧ κ.pool.world.cancelSignal = none
    ∨ κ.call.phase = .creating ∧ κ.pool.world.cancelSignal = none
      ∧ κ.pool.world.pauseSignal = none
  vacant : κ.pool.Vacant
  unlaunched : κ.executions = []
  world : ∃ t, φ.pool.world = κ.pool.world.quiet t

/-- Both runs have their first snapshot. -/
structure Founded (κ φ : Takeover) : Prop where
  phase : κ.call.phase = founded
  call : φ.call = κ.call
  world : ∃ t, φ.pool.world = κ.pool.world.retrace t

/-- The new run is in the state of the run under an id that has never been used. -/
structure Mirrors (κ φ : Takeover) : Prop where
  processes : φ.pool.processes = κ.pool.processes
  requests : φ.pool.requests = κ.pool.requests
  executions : φ.executions = κ.executions
  stage : Founding κ φ ∨ Founded κ φ

/-- The path of the other run meets no condition. -/
abbrev Follows (φ φ' : Takeover) : Prop := Path (Step job) (fun _ _ => True) φ φ'

variable {job} {κ κ' φ : Takeover}

theorem Follows.single {φ' : Takeover} (h : Step job d φ φ') : Follows job φ φ' :=
  .tail d .refl trivial h

/-- The world of the takeover moves on without a change of what is stored, and the other
run lets the same time pass. -/
theorem Mirrors.idle {t : List Event} {d : Duration} (h : Mirrors κ φ)
    (hw : κ'.pool.world = { κ.pool.world with trace := t, clock := κ.pool.world.clock + d })
    (hp : κ'.pool.processes = κ.pool.processes) (hr : κ'.pool.requests = κ.pool.requests)
    (he : κ'.executions = κ.executions) (hc : κ'.call = κ.call) :
    ∃ φ', Follows job φ φ' ∧ Mirrors κ' φ' := by
  refine ⟨_, .single (.pool (.tick d) φ), ?_⟩
  refine ⟨h.processes.trans hp.symm, h.requests.trans hr.symm, h.executions.trans he.symm, ?_⟩
  rcases h.stage with hf | hf
  · obtain ⟨t', hφ⟩ := hf.world
    refine .inl ⟨by rw [hc]; exact hf.call, ?_, ⟨?_, ?_, ?_⟩, by rw [he]; exact hf.unlaunched, t', ?_⟩
    · rw [hc, hw]
      exact hf.phase
    · rw [hw]
      exact hf.vacant.missing
    · rw [hr]
      exact hf.vacant.unasked
    · rw [hp]
      exact hf.vacant.idle
    · simp only [step, hφ, hw]
      rfl
  · obtain ⟨t', hφ⟩ := hf.world
    refine .inr ⟨by rw [hc]; exact hf.phase, by rw [hc]; exact hf.call, t', ?_⟩
    simp only [step, hφ, hw]
    rfl

theorem Mirrors.former (hd : d.isFormer) (hC : Spares job d κ) (hs : Step job d κ κ') :
    ∃ t e, κ'.pool.world = { κ.pool.world with trace := t, clock := κ.pool.world.clock + e }
      ∧ κ'.pool.processes = κ.pool.processes ∧ κ'.pool.requests = κ.pool.requests
      ∧ κ'.executions = κ.executions ∧ κ'.call = κ.call := by
  cases hs with
  | formerWork i choice former p _ hi =>
    simp only [Spares, hi] at hC
    obtain ⟨t, ht⟩ := workStep_of_spares hC
    exact ⟨t, 0, ht, rfl, rfl, rfl, rfl⟩
  | formerExecute i cb p p' w' o _ hi h =>
    rcases Prog.step_noted h with heq | ⟨op, heq⟩
    · obtain ⟨rfl, rfl⟩ := Prod.mk.inj heq
      exact ⟨κ.pool.world.trace, 0, rfl, rfl, rfl, rfl, rfl⟩
    · obtain ⟨rfl, rfl⟩ := Prod.mk.inj heq
      obtain ⟨t, e, ht⟩ := handle_of_spares cb (by simpa [Spares] using hC)
      exact ⟨t, e, ht, rfl, rfl, rfl, rfl⟩
  | _ => exact absurd hd (by simp [Deed.isFormer])

omit [Sha256] in
theorem Mirrors.pool_eq {v : PoolWorld} (h : Mirrors κ φ) (hv : φ.pool.world = v) :
    φ.pool = ⟨v, κ.pool.processes, κ.pool.requests⟩ := by
  rw [← hv, ← h.processes, ← h.requests]

omit [Sha256] in
theorem Founding.phase_ne (h : Founding κ φ) : κ.call.phase ≠ founded := by
  rcases h.phase with hp | ⟨hp, -⟩ | ⟨hp, -⟩ <;> simp [hp, founded]

/-- The next call of the submission. While it clears requests the other run waits. -/
theorem Mirrors.submission (h : Mirrors κ φ) :
    ∃ φ', Follows job φ φ' ∧ Mirrors (κ.submit job.backend) φ' := by
  rcases h.stage with hf | hf
  · obtain ⟨t, hφ⟩ := hf.world
    rcases hf.phase with hp | ⟨hp, hc⟩ | ⟨hp, hc, hpause⟩
    · refine ⟨φ, .refl, h.processes, h.requests, h.executions, .inl ⟨?_, ?_, ?_, ?_, t, ?_⟩⟩
      · exact hf.call
      · exact .inr (.inl (by simp [submit, SubmitCall.advance, hp, Postgres.clearSignal]))
      · refine ⟨?_, hf.vacant.unasked, hf.vacant.idle⟩
        simpa [submit, SubmitCall.advance, hp, Postgres.clearSignal] using hf.vacant.missing
      · exact hf.unlaunched
      · simp only [hφ, submit, SubmitCall.advance, hp, Postgres.clearSignal]
        rfl
    · refine ⟨φ, .refl, h.processes, h.requests, h.executions, .inl ⟨?_, ?_, ?_, ?_, t, ?_⟩⟩
      · exact hf.call
      · exact .inr (.inr (by simpa [submit, SubmitCall.advance, hp, Postgres.clearSignal] using hc))
      · refine ⟨?_, hf.vacant.unasked, hf.vacant.idle⟩
        simpa [submit, SubmitCall.advance, hp, Postgres.clearSignal] using hf.vacant.missing
      · exact hf.unlaunched
      · simp only [hφ, submit, SubmitCall.advance, hp, Postgres.clearSignal]
        rfl
    · -- both store the first snapshot, now that no request is left
      have hquiet : κ.pool.world.quiet t = κ.pool.world.retrace t := by
        unfold PoolWorld.quiet PoolWorld.retrace
        rw [hc, hpause]
      have hcall : φ.call = κ.call := by
        rw [hf.call, ← hp]
      refine ⟨φ.submit job.backend, .single (.submission φ), h.processes, h.requests,
        h.executions, .inr ⟨?_, ?_, ?_⟩⟩
      · simp only [submit, SubmitCall.advance, hp, founded]
      · simp only [submit, SubmitCall.advance, hcall, hp]
      · obtain ⟨t', ht⟩ := saveSnapshot_retrace job.backend t κ.pool.world
          (initialSnapshot κ.pool.world.instanceId κ.call.definitionHash κ.call.input
            κ.call.firstTask)
        refine ⟨t', ?_⟩
        simp only [submit, SubmitCall.advance, hcall, hp, hφ, hquiet]
        exact ht
  · have hsame : κ.submit job.backend = κ := by
      have hadvance : κ.call.advance job.backend κ.pool.world
          = (κ.call.phase, κ.pool.world) := by
        simp [SubmitCall.advance, hf.phase, founded]
      simp only [submit, hadvance]
    rw [hsame]
    exact ⟨φ, .refl, h⟩

theorem Mirrors.pool (a : Action) (h : Mirrors κ φ) :
    ∃ φ', Follows job φ φ' ∧ Mirrors { κ with pool := job.step a κ.pool } φ' := by
  refine ⟨_, .single (.pool a φ), ?_⟩
  rcases h.stage with hf | hf
  · obtain ⟨t, hφ⟩ := hf.world
    obtain ⟨hvacant, hcancel, hpause, hstep⟩ := step_of_vacant job a hf.vacant t
    rw [h.pool_eq hφ, hstep]
    refine ⟨rfl, rfl, h.executions, .inl ⟨hf.call, ?_, hvacant, hf.unlaunched, t, rfl⟩⟩
    rw [hcancel, hpause]
    exact hf.phase
  · obtain ⟨t, hφ⟩ := hf.world
    obtain ⟨t', hstep⟩ := step_retrace t job a κ.pool
    rw [h.pool_eq hφ, hstep]
    exact ⟨rfl, rfl, h.executions, .inr ⟨hf.phase, hf.call, t', rfl⟩⟩

/-- **Every step of the new run is one of the other run.** -/
theorem Mirrors.step (h : Mirrors κ φ) (hC : Spares job d κ) (hs : Step job d κ κ') :
    ∃ φ', Follows job φ φ' ∧ Mirrors κ' φ' := by
  by_cases hd : d.isFormer
  · obtain ⟨t, e, hw, hp, hr, he, hc⟩ := Mirrors.former hd hC hs
    exact h.idle hw hp hr he hc
  · cases hs with
    | submission => exact h.submission
    | pool a => exact h.pool a
    | launch ex _ hphase =>
      rcases h.stage with hf | hf
      · exact absurd hphase hf.phase_ne
      · obtain ⟨t, hφ⟩ := hf.world
        have hphase' : φ.call.phase = .returned (.ok (.inProgress, none)) true := by
          rw [hf.call]
          exact hphase
        refine ⟨_, .single (.launch ex φ hphase'), h.processes, h.requests, ?_, .inr ?_⟩
        · rw [h.executions, hφ]
          rfl
        · exact ⟨hf.phase, hf.call, t, hφ⟩
    | resume ex _ hsome =>
      rcases h.stage with hf | hf
      · rw [hf.vacant.missing] at hsome
        exact absurd hsome (by simp)
      · obtain ⟨t, hφ⟩ := hf.world
        have hsome' : φ.pool.world.snapshot.isSome := by
          rw [hφ]
          exact hsome
        refine ⟨_, .single (.resume ex φ hsome'), h.processes, h.requests, ?_, .inr ?_⟩
        · rw [h.executions]
        · exact ⟨hf.phase, hf.call, t, hφ⟩
    | execute i p p' w' _ hi hstep =>
      rcases h.stage with hf | hf
      · rw [hf.unlaunched] at hi
        exact absurd hi (by simp)
      · -- the operation gets the same answer from a world that differs in the trace
        obtain ⟨t, hφ⟩ := hf.world
        have halike : ∀ o (w v : PoolWorld), (∃ t, v = w.retrace t) →
            (job.backend.handle job.callbacks o v).1 = (job.backend.handle job.callbacks o w).1
            ∧ ∃ t, (job.backend.handle job.callbacks o v).2
                = (job.backend.handle job.callbacks o w).2.retrace t := by
          rintro o w v ⟨t, rfl⟩
          obtain ⟨t', ht⟩ := handle_retrace job.backend t w job.callbacks o
          rw [ht]
          exact ⟨rfl, t', rfl⟩
        obtain ⟨v', hstep', t', hv⟩ := Prog.step_alike halike hstep ⟨t, hφ⟩
        have hi' : φ.executions[i]? = some p := by rw [h.executions, hi]
        refine ⟨_, .single (.execute i p p' v' φ hi' hstep'), h.processes, h.requests, ?_, .inr ?_⟩
        · rw [h.executions]
        · exact ⟨hf.phase, hf.call, t', hv⟩
    | formerWork => exact absurd rfl hd
    | formerExecute => exact absurd rfl hd

/-! ## The clean slate -/

/-- What the deletion does not reach is not there: a request that has been accepted and
not yet inserted; in memory, events and claims; and anything at all if no snapshot is
stored. Each backend leaves the fields of the other one alone. -/
structure Clearable (b : Backend) (w : PoolWorld) (requests : List (SignalKind × SignalRequest)) :
    Prop where
  unasked : requests = []
  inMemory : b = inMemory → w.events = (fun _ => []) ∧ w.claims = []
    ∧ w.outputs = fun _ => none
  postgres : b = postgres → w.taskResultsCache = none
  missing : w.snapshot = none → w.cancelSignal = none ∧ w.pauseSignal = none
    ∧ w.events = (fun _ => []) ∧ w.claims = [] ∧ w.taskResultsCache = none
    ∧ w.outputs = fun _ => none

theorem mirrors_before {w : PoolWorld} {requests : List (SignalKind × SignalRequest)}
    {polls : List Process} {processes : List (Submission × Process)}
    {executions : List (Callbacks × Proc RunResult)} (hpolls : ∀ p ∈ polls, p.phase.isUnread)
    (hw : Clearable job.backend w requests) :
    Mirrors ((before job w requests polls processes executions).submit job.backend)
      (neverUsed job w.instanceId w.clock polls) := by
  refine ⟨rfl, hw.unasked.symm, rfl, .inl ?_⟩
  cases hs : w.snapshot with
  | none =>
    obtain ⟨hcancel, hpause, hevents, hclaims, hcache, houtputs⟩ := hw.missing hs
    have hsubmit : (before job w requests polls processes executions).submit job.backend
        = { before job w requests polls processes executions with
            call := job.terminating .creating } := by
      simp [submit, before, SubmitCall.advance, terminating, hs]
    rw [hsubmit]
    refine ⟨rfl, .inr (.inr ⟨rfl, hcancel, hpause⟩), ⟨hs, hw.unasked, hpolls⟩, rfl, [], ?_⟩
    simp only [neverUsed, before, PoolWorld.quiet, World.fresh, hs, hevents, hclaims, hcache,
      houtputs]
  | some s =>
    have hsubmit : (before job w requests polls processes executions).submit job.backend
        = { before job w requests polls processes executions with
            pool := ⟨job.backend.deleteSnapshot w, polls, requests⟩
            call := job.terminating (.clearing .cancel) } := by
      simp [submit, before, SubmitCall.advance, terminating, hs]
    rw [hsubmit]
    cases hb : job.backend with
    | inMemory =>
      obtain ⟨hevents, hclaims, houtputs⟩ := hw.inMemory hb
      have hdelete : Backend.inMemory.deleteSnapshot w
          = { w with snapshot := none, taskResultsCache := none } := by
        simp only [deleteSnapshot, hs]
      rw [hdelete]
      refine ⟨rfl, .inl rfl, ⟨rfl, hw.unasked, hpolls⟩, rfl, [], ?_⟩
      simp only [neverUsed, PoolWorld.quiet, World.fresh, hevents, hclaims, houtputs]
    | postgres =>
      have hcache := hw.postgres hb
      have hdelete : Backend.postgres.deleteSnapshot w = { w with
          snapshot := none, cancelSignal := none, pauseSignal := none
          events := fun _ => [], claims := [], outputs := fun _ => none } := by
        simp only [deleteSnapshot, Postgres.deleteSnapshot, hs]
      rw [hdelete]
      refine ⟨rfl, .inl rfl, ⟨rfl, hw.unasked, hpolls⟩, rfl, [], ?_⟩
      simp only [neverUsed, PoolWorld.quiet, World.fresh, hcache]

/-- **A run that terminates an existing instance starts from a clean slate**, if the
deletion reaches everything that is left and what still works on the old runs makes no
call that changes the store: such a call leaves the snapshot of the new run as it is,
and every state of the new run, once it has been submitted, is one of a run under an id
that has never been used. -/
theorem terminate_existing_clean_slate {w : PoolWorld}
    {requests : List (SignalKind × SignalRequest)} {polls : List Process}
    {processes : List (Submission × Process)} {executions : List (Callbacks × Proc RunResult)}
    (hpolls : ∀ p ∈ polls, p.phase.isUnread) (hw : Clearable job.backend w requests)
    (hκ : Path (Step job) (fun d κ => Spares job d κ)
      ((before job w requests polls processes executions).submit job.backend) κ) :
    (∀ d κ', d.isFormer → Spares job d κ → Step job d κ κ' →
        κ'.pool.world.snapshot = κ.pool.world.snapshot)
      ∧ (κ.call.phase = founded → ∃ φ t,
          Path (Step job) (fun _ _ => True) (neverUsed job w.instanceId w.clock polls) φ
          ∧ φ.pool = { κ.pool with world := κ.pool.world.retrace t }
          ∧ φ.executions = κ.executions) := by
  constructor
  · intro d κ' hd hC hs
    obtain ⟨t, e, hworld, -⟩ := Mirrors.former hd hC hs
    rw [hworld]
  · intro hphase
    obtain ⟨φ, hφ, hm⟩ := hκ.simulate (mirrors_before hpolls hw)
      fun _ _ _ _ hm hC hs => hm.step hC hs
    rcases hm.stage with hf | hf
    · exact absurd hphase hf.phase_ne
    · obtain ⟨t, ht⟩ := hf.world
      exact ⟨φ, t, hφ, hm.pool_eq ht, hm.executions⟩

end Takeover

/-! ## What an old worker can do -/

section sample

attribute [local instance] Sha256.packed

/-- The two tasks with another input. -/
def otherInput (b : Backend) : Submission := { twoTasks b with input := [2] }

/-- An event has arrived, and a worker takes up the first task and makes this many calls. -/
def startedWork (b : Backend) (calls : Nat) : Pool :=
  perform (twoTasks b).step
    (.sendEvent "go" [9] :: .poll (sampleWorker "a") :: Action.calls 0 calls)
    ((twoTasks b).start "i" 0)

/-- The run is terminated for one with another input; the processes go on. -/
def taken (b : Backend) (σ : Pool) : Takeover :=
  (Takeover.before (otherInput b) σ.world σ.requests [] (σ.processes.map (twoTasks b, ·))
    []).submit b

/-- Postgres forgets the event and the claim of the worker that runs the first task, and
refuses the result of that task. -/
theorem terminate_existing_clean_slate_postgres :
    let κ := ((taken .postgres (startedWork .postgres 6)).submit .postgres
      |>.submit .postgres).submit .postgres
    (startedWork .postgres 6).world.claims ≠ []
      ∧ (∀ κ', Takeover.Step (otherInput .postgres) (.formerWork 0 .proceed) κ κ' →
          κ'.pool.world.snapshot = κ.pool.world.snapshot)
      ∧ ∃ φ t, Path (Takeover.Step (otherInput .postgres)) (fun _ _ => True)
          (Takeover.neverUsed (otherInput .postgres) "i" 0 []) φ
          ∧ φ.pool = { κ.pool with world := κ.pool.world.retrace t }
          ∧ φ.executions = κ.executions := by
  intro κ
  have hκ : Path (Takeover.Step (otherInput .postgres))
      (fun d κ => Takeover.Spares (otherInput .postgres) d κ)
      (taken .postgres (startedWork .postgres 6)) κ :=
    .tail .submission (.tail .submission (.tail .submission .refl rfl (.submission _)) rfl
      (.submission _)) rfl (.submission _)
  have hslate := fun hfresh hclear => Takeover.terminate_existing_clean_slate hfresh hclear hκ
  specialize hslate (by simp)
    ⟨rfl, by simp [otherInput, twoTasks], fun _ => rfl, fun h => absurd h (by decide)⟩
  exact ⟨by decide, fun κ' hs => hslate.1 _ κ' rfl (by decide) hs, hslate.2 rfl⟩

/-- Both tasks have been executed, and a worker is about to store the result. -/
def finishedWork (b : Backend) : Pool :=
  perform (twoTasks b).step
    (.poll (sampleWorker "a") :: Action.calls 1 (match b with | .inMemory => 12 | .postgres => 9))
    (startedWork b 12)

/-- The submission has stored its new run, and one more step of the old worker completes
that run with the output of the old one. -/
def OldWorkerCompletes (b : Backend) : Prop :=
  let κ := ((taken b (finishedWork b)).submit b |>.submit b).submit b
  Path (Takeover.Step (otherInput b)) (fun _ _ => True) (taken b (finishedWork b)) κ
    ∧ κ.call.phase = Takeover.founded
    ∧ κ.pool.world.snapshot.any (·.isInProgress)
    ∧ (b = .inMemory → κ.pool.world.events "go" = [[9]])
    ∧ ∃ κ', Takeover.Step (otherInput b) (.formerWork 1 .proceed) κ κ'
        ∧ (κ'.pool.world.snapshot.bind (·.completedOutput))
            = some ([1] ++ ("t1t2".toList.map fun c => c.toNat.toUInt8))

/-- The new run is stored as completed, with the output of the old one, and in memory it
has an event of the old one in its buffer. -/
theorem old_worker_completes_new_run :
    OldWorkerCompletes .inMemory ∧ OldWorkerCompletes .postgres := by
  have hpath : ∀ κ : Takeover, ∀ b, Path (Takeover.Step (otherInput b)) (fun _ _ => True) κ
      ((κ.submit b |>.submit b).submit b) := fun κ b =>
    .tail .submission (.tail .submission (.tail .submission .refl trivial (.submission _))
      trivial (.submission _)) trivial (.submission _)
  constructor
  · exact ⟨hpath _ _, by decide, by decide, by decide, _, .formerWork 1 .proceed _ _ _ rfl,
      by decide⟩
  · exact ⟨hpath _ _, by decide, by decide, by decide, _, .formerWork 1 .proceed _ _ _ rfl,
      by decide⟩

end sample

end Sayiir
