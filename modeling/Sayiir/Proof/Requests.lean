import Sayiir.Proof.Dispatch
import Sayiir.Proof.Progress

/-!
# Requests that are never applied

A cancellation or a pause is applied by the guards of a worker that has claimed a
task. But a poll skips an instance with a pending request, so the only workers that
get to the guards are those that were on their way before: they hold an offer, or in
Postgres a row that leads to one. If there is none of them, the request stays pending
and the instance is stuck.
-/

namespace Sayiir

open Backend WorkflowSnapshot Submission

variable {σ : Pool} {w : PoolWorld} {t : TaskId} {now : Time} {s : WorkflowSnapshot}

/-- Cancelled by a request. -/
def WorkflowSnapshot.isCancelled (s : WorkflowSnapshot) : Bool :=
  match s.state with
  | .cancelled .. => true
  | _ => false

theorem isPaused_iff : s.isPaused ↔
    ∃ reason pausedBy completed position last,
      s.state = .paused reason pausedBy completed position last := by
  unfold isPaused
  split <;> simp_all

/-- The input of the next task is at hand: the output completed last, or the initial input
if nothing has completed yet. -/
def WorkflowSnapshot.hasInput (s : WorkflowSnapshot) : Bool :=
  match s.state with
  | .inProgress _ completed _ =>
    (if completed.entries.isEmpty then s.initialInput else s.getLastTaskOutput).isSome
  | _ => false

/-- A process that polls or has been offered a task, or has ended. -/
def Phase.isIdle : Phase → Bool
  | .polling | .collecting | .advancing _ | .selecting | .hydrating _ | .waking .. | .offered _
  | .done => true
  | _ => false

/-- A step of a worker. -/
def Action.isWorkers : Action → Bool
  | .poll _ | .hinted .. | .work .. => true
  | _ => false

/-- A request that is pending in `w` has been applied and cleared in `w'`. -/
def PoolWorld.Applied (w w' : PoolWorld) : Prop :=
  ∃ s, w'.snapshot = some s
    ∧ (w.cancelSignal.isSome ∧ w'.cancelSignal = none ∧ s.isCancelled
      ∨ w.pauseSignal.isSome ∧ w'.pauseSignal = none ∧ s.isPaused)

/-- No claim that is alive stands in the way of a claim on the task. -/
def Backend.free (b : Backend) (t : TaskId) (w : PoolWorld) : Bool :=
  !(b.findClaim t w).any fun c => !b.isExpired w.clock c

/-- Where the instance stands after what a process stores next. -/
def Phase.landing : Phase → Option TaskId
  | .waking s _ => s.currentTaskId
  | _ => none

namespace Submission

variable [Sha256] (job : Submission)

/-- The task of an offer that is to be executed. -/
def accepted (task : Option AvailableTask) : Option TaskId :=
  (task.filter job.accepts).map (·.taskId)

/-- The task that a process is about to claim. -/
def prospect : Phase → Option TaskId
  | .offered task => job.accepted (some task)
  | .waking s (some t) => job.accepted (PoolWorld.buildAvailableTask (job.backend.afterSave s) t)
  | _ => none

/-- What a process does with the row it has fetched. -/
def ahead (now : Time) : Phase → Phase
  | .hydrating blob => dispatchRow now blob
  | phase => phase

/-- Some process is about to claim a task that it accepts, no live claim stands in the
way, and in Postgres the instance stands at that task or a process is about to move it
there. -/
def Underway (σ : Pool) : Prop :=
  ∃ p ∈ σ.processes, ∃ t, job.prospect (ahead σ.world.clock p.phase) = some t
    ∧ job.backend.free t σ.world
    ∧ (job.backend = inMemory ∨ (σ.world.snapshot.bind (·.currentTaskId)) = some t
      ∨ ∃ q ∈ σ.processes, (ahead σ.world.clock q.phase).landing = some t)

end Submission

/-! ## Outputs do not matter -/

section outputs

variable {s : WorkflowSnapshot} {t : TaskId} (f : TaskId → Bytes → Bytes)

theorem isSome_getLastTaskOutput_mapOutputs :
    (s.mapOutputs f).getLastTaskOutput.isSome = s.getLastTaskOutput.isSome := by
  unfold getLastTaskOutput mapOutputs
  cases hs : s.state with
  | inProgress position completed last =>
    cases last <;> simp [CompletedTasks.lookup_mapOutputs]
  | _ => simp [hs]

theorem hasInput_mapOutputs : (s.mapOutputs f).hasInput = s.hasInput := by
  have hlast := isSome_getLastTaskOutput_mapOutputs (s := s) f
  have hinit := initialInput_mapOutputs (s := s) f
  unfold hasInput
  cases hs : s.state with
  | inProgress position completed last =>
    have hst : (s.mapOutputs f).state = .inProgress position (completed.mapOutputs f) last := by
      simp [mapOutputs, hs]
    have hempty : (completed.mapOutputs f).entries.isEmpty = completed.entries.isEmpty := by
      simp [CompletedTasks.mapOutputs]
    rw [hst]
    dsimp only
    rw [hempty, hinit]
    split
    · rfl
    · exact hlast
  | _ => simp [mapOutputs, hs]

theorem updatePosition_mapOutputs (position : ExecutionPosition) :
    (s.mapOutputs f).updatePosition position = (s.updatePosition position).mapOutputs f := by
  unfold updatePosition mapOutputs
  cases hs : s.state <;> simp [hs]

theorem afterSave_mapOutputs (b : Backend) :
    b.afterSave (s.mapOutputs f) = (b.afterSave s).mapOutputs f := by
  cases b with
  | inMemory => rfl
  | postgres =>
    unfold afterSave clearUnflushed mapOutputs
    cases hs : s.state <;> simp [hs]

theorem currentTaskId_mapOutputs : (s.mapOutputs f).currentTaskId = s.currentTaskId := by
  unfold currentTaskId mapOutputs
  cases hs : s.state with
  | inProgress position completed last => cases position <;> simp
  | _ => simp [hs]

theorem currentTaskId_stored (b : Backend) : (b.stored s).currentTaskId = s.currentTaskId := by
  cases b with
  | inMemory => rfl
  | postgres => exact currentTaskId_mapOutputs _

theorem isSome_buildAvailableTask :
    (PoolWorld.buildAvailableTask s t).isSome = s.hasInput := by
  unfold PoolWorld.buildAvailableTask hasInput
  cases s.state <;> simp

end outputs

section rows

variable [Sha256] {job : Submission} {s : WorkflowSnapshot} {t : TaskId}
  (f : TaskId → Bytes → Bytes)

open Submission

theorem accepted_buildAvailableTask :
    job.accepted (PoolWorld.buildAvailableTask s t)
      = if s.hasInput && decide (s.definitionHash = job.definitionHash)
          && (job.continuation.indexed t).isSome && (s.getTaskResult t).isNone then some t
        else none := by
  rw [← isSome_buildAvailableTask (t := t)]
  cases hbuild : PoolWorld.buildAvailableTask s t with
  | none => rfl
  | some task =>
    obtain ⟨rfl, rfl, -, hhash⟩ := buildAvailableTask_eq_some hbuild
    have haccepts : job.accepts task = (decide (task.snapshot.definitionHash = job.definitionHash)
        && (job.continuation.indexed task.taskId).isSome
        && (task.snapshot.getTaskResult task.taskId).isNone) := by
      simp [accepts, hhash]
    simp only [accepted, Option.filter_some, haccepts, Option.isSome_some, Bool.true_and]
    split <;> rfl

/-- Whether an offer is to be executed does not depend on the outputs of the snapshot. -/
theorem accepted_mapOutputs (job : Submission) :
    job.accepted (PoolWorld.buildAvailableTask (s.mapOutputs f) t)
      = job.accepted (PoolWorld.buildAvailableTask s t) := by
  rw [accepted_buildAvailableTask, accepted_buildAvailableTask, hasInput_mapOutputs]
  simp [getTaskResult_mapOutputs]

/-- What a process does with a row does not depend on the outputs either. -/
theorem dispatchRow_mapOutputs (job : Submission) (now : Time) :
    job.prospect (dispatchRow now (s.mapOutputs f)) = job.prospect (dispatchRow now s)
      ∧ (dispatchRow now (s.mapOutputs f)).landing = (dispatchRow now s).landing := by
  cases hs : s.state with
  | inProgress position completed last =>
    have hst : (s.mapOutputs f).state = .inProgress position (completed.mapOutputs f) last := by
      simp [mapOutputs, hs]
    unfold dispatchRow
    rw [hst, hs]
    cases position with
    | atDelay delayId enteredAt wakeAt next =>
      dsimp only
      by_cases hwake : wakeAt ≤ now
      · rw [if_pos hwake, if_pos hwake]
        cases next with
        | none => exact ⟨rfl, rfl⟩
        | some taskId =>
          simp only [prospect, Phase.landing, updatePosition_mapOutputs, afterSave_mapOutputs,
            accepted_mapOutputs, currentTaskId_mapOutputs, and_self]
      · rw [if_neg hwake, if_neg hwake]
        exact ⟨rfl, rfl⟩
    | atTask taskId =>
      have hback : (s.mapOutputs f).inBackoff taskId now = s.inBackoff taskId now := by
        simp [inBackoff]
      have hbuild := accepted_mapOutputs (s := s) (t := taskId) f job
      have hsome : (PoolWorld.buildAvailableTask (s.mapOutputs f) taskId).isSome
          = (PoolWorld.buildAvailableTask s taskId).isSome := by
        rw [isSome_buildAvailableTask, isSome_buildAvailableTask, hasInput_mapOutputs]
      dsimp only
      rw [CompletedTasks.lookup_mapOutputs, Option.isSome_map, hback]
      split
      · exact ⟨rfl, rfl⟩
      · cases h : PoolWorld.buildAvailableTask (s.mapOutputs f) taskId <;>
          cases h' : PoolWorld.buildAvailableTask s taskId <;>
          simp_all [prospect, Phase.landing]
    | _ => exact ⟨rfl, rfl⟩
  | _ =>
    have hst : (dispatchRow now (s.mapOutputs f)) = .done ∧ dispatchRow now s = .done := by
      simp [dispatchRow, mapOutputs, hs]
    rw [hst.1, hst.2]
    exact ⟨rfl, rfl⟩

end rows

/-! ## With a request pending -/

section pending

variable {w : PoolWorld} {phase : Phase}

open Submission

/-- Forgetting expired claims frees no task. -/
theorem free_dropExpired (h : inMemory.free t (dropExpired w)) : inMemory.free t w := by
  unfold Backend.free findClaim at h ⊢
  cases hf : w.claims.find? (·.taskId = t) with
  | none => simp
  | some c =>
    have hc := List.find?_some hf
    cases he : inMemory.isExpired w.clock c with
    | true => simp [he]
    | false =>
      -- a claim that is alive is not dropped
      have hmem : c ∈ (dropExpired w).claims :=
        List.mem_filter.mpr ⟨List.mem_of_find?_eq_some hf, by simp [he]⟩
      cases hf' : (dropExpired w).claims.find? (·.taskId = t) with
      | none => exact absurd hc (by simpa using List.find?_eq_none.mp hf' c hmem)
      | some c' =>
        have hlive : (!inMemory.isExpired (dropExpired w).clock c') = true :=
          (List.mem_filter.mp (List.mem_of_find?_eq_some hf')).2
        rw [hf'] at h
        simp only [Option.any_some, hlive] at h
        cases h

/-- With a request pending there is nothing for a poll to find. -/
theorem polls_nothing (hsig : w.hasSignal) (tags : List String) :
    collectAdvance w = none ∧ selectTask tags w = none ∧ selectRow tags w = none
      ∧ ∀ b hint, findHintedTask b hint w = none := by
  refine ⟨?_, ?_, ?_, fun b hint => ?_⟩
  · unfold collectAdvance
    rw [hsig]
    cases w.snapshot <;> rfl
  · unfold selectTask
    rw [hsig]
    cases w.snapshot <;> rfl
  · unfold selectRow eligible
    rw [hsig]
    cases w.snapshot <;> simp
  · unfold findHintedTask eligible
    rw [hsig]
    split <;> simp

/-- A row that a process goes on with is one of an idle process. -/
theorem isIdle_dispatchRow (now : Time) (s : WorkflowSnapshot) :
    (dispatchRow now s).isIdle ∧ ∀ blob, dispatchRow now s ≠ .hydrating blob := by
  exact dispatchRow_of (P := fun phase => phase.isIdle ∧ ∀ blob, phase ≠ .hydrating blob)
    ⟨rfl, by simp⟩ (fun _ _ _ _ _ _ _ => ⟨rfl, by simp⟩) fun _ _ _ _ _ _ _ => ⟨rfl, by simp⟩

theorem ahead_of_ne (h : ∀ blob, phase ≠ .hydrating blob) : ahead now phase = phase := by
  cases phase with
  | hydrating blob => exact absurd rfl (h blob)
  | _ => rfl

theorem markIfInProgress_eq (mark : WorkflowSnapshot → WorkflowSnapshot)
    (hs : w.snapshot = some s) (hp : s.isInProgress) :
    markIfInProgress mark w = (true, { w with snapshot := some (mark s) }) := by
  simp [markIfInProgress, hs, hp]

/-- A save frees no task, applies no request and drops none. -/
theorem free_saveSnapshot (b : Backend) (s : WorkflowSnapshot) :
    b.free t (b.saveSnapshot s w) = b.free t w := by
  obtain ⟨hclaims, hclock, -⟩ := saveSnapshot_frame (b := b) (w := w) s
  simp only [Backend.free, findClaim, hclaims, hclock]

theorem hasSignal_saveSnapshot (b : Backend) (s : WorkflowSnapshot) :
    (b.saveSnapshot s w).hasSignal = w.hasSignal := by
  obtain ⟨-, -, hcancel, hpause⟩ := saveSnapshot_frame (b := b) (w := w) s
  simp only [PoolWorld.hasSignal, hcancel, hpause]

theorem PoolWorld.Applied.of_saveSnapshot {b : Backend} {w' : PoolWorld}
    (h : Applied (b.saveSnapshot s w) w') : Applied w w' := by
  obtain ⟨-, -, hcancel, hpause⟩ := saveSnapshot_frame (b := b) (w := w) s
  unfold Applied at h ⊢
  rwa [hcancel, hpause] at h

/-- A poll of the backend at hand, and what an instance is woken up to. -/
def Phase.Proper (job : Submission) : Phase → Prop
  | .collecting | .advancing _ | .selecting => job.backend = inMemory
  | .hydrating _ => job.backend = postgres
  | .waking s next => job.backend = postgres ∧ ∀ t, next = some t → s.currentTaskId = some t
  | _ => True

theorem proper_dispatchRow {job : Submission} (hb : job.backend = postgres) (now : Time) (s : WorkflowSnapshot) :
    (dispatchRow now s).Proper job := by
  refine dispatchRow_of trivial (fun _ _ _ next _ _ hst => ⟨hb, ?_⟩) fun _ _ _ _ _ _ _ => trivial
  rintro t rfl
  simp [updatePosition, currentTaskId, hst]

/-- An instance that stands at a task is in progress. -/
theorem isInProgress_of_currentTaskId (h : s.currentTaskId = some t) : s.isInProgress := by
  unfold currentTaskId at h
  unfold isInProgress
  split at h
  · rename_i hst
    rw [hst]
  · cases h

theorem claimable_of_free {b : Backend} (hfree : b.free t w) (hs : w.snapshot = some s)
    (hat : b = inMemory ∨ s.currentTaskId = some t) : b.claimable t w := by
  unfold claimable
  rw [Bool.and_eq_true]
  refine ⟨hfree, ?_⟩
  cases b with
  | inMemory => rfl
  | postgres =>
    rcases hat with hb | hcur
    · cases hb
    · simp [hs, hcur]

end pending

/-! ## Without a process underway nothing happens -/

section stuck

variable [Sha256] {job : Submission} {worker : Worker} {w : PoolWorld} {phase : Phase}

open Submission

/-- What a step of a process that polls leaves as it is, and what it brings no nearer. -/
structure Idles (job : Submission) (w : PoolWorld) (phase : Phase) (r : Phase × PoolWorld) :
    Prop where
  idle : r.1.isIdle
  cancel : r.2.cancelSignal = w.cancelSignal
  pause : r.2.pauseSignal = w.pauseSignal
  clock : r.2.clock = w.clock
  free : ∀ t, job.backend.free t r.2 → job.backend.free t w
  current : job.backend = postgres → ∀ t, r.2.snapshot.bind (·.currentTaskId) = some t →
    w.snapshot.bind (·.currentTaskId) = some t ∨ (ahead w.clock phase).landing = some t
  landing : ∀ t, (ahead w.clock r.1).landing = some t → (ahead w.clock phase).landing = some t
  prospect : ∀ t, job.prospect (ahead w.clock r.1) = some t →
    job.prospect (ahead w.clock phase) = some t

/-- A step that leaves the world alone. -/
theorem Idles.of_phase {phase' : Phase} (hidle : phase'.isIdle)
    (hl : ∀ t, (ahead w.clock phase').landing = some t → (ahead w.clock phase).landing = some t)
    (hp : ∀ t, job.prospect (ahead w.clock phase') = some t →
      job.prospect (ahead w.clock phase) = some t) : Idles job w phase (phase', w) :=
  ⟨hidle, rfl, rfl, rfl, fun _ h => h, fun _ _ h => .inl h, hl, hp⟩

/-- A process that ends brings nothing nearer. -/
theorem Idles.done {r : Phase × PoolWorld} (h : Idles job w phase r) :
    Idles job w phase (.done, r.2) :=
  ⟨rfl, h.cancel, h.pause, h.clock, h.free, h.current, (fun _ h => nomatch h),
    (fun _ h => nomatch h)⟩

/-- **A call of a process that polls brings a claim no nearer, unless it is one.** -/
theorem idles_call (hsig : w.hasSignal) (hidle : phase.isIdle)
    (hmem : ∀ advance, phase = .advancing advance → job.backend = inMemory) :
    (∃ t, job.prospect (ahead w.clock phase) = some t ∧ job.backend.claimable t w)
      ∨ Idles job w phase (job.call worker phase w) := by
  obtain ⟨hcollect, hselect, hrow, -⟩ := polls_nothing hsig worker.tags
  cases phase with
  | polling =>
    right
    cases hb : job.backend with
    | inMemory =>
      simp only [call, hb]
      refine ⟨rfl, rfl, rfl, rfl, fun t h => ?_, ?_, (fun _ h => by cases h), (fun _ h => by cases h)⟩
      · rw [hb] at h ⊢
        exact free_dropExpired h
      · rw [hb]
        exact fun h => by cases h
    | postgres =>
      simp only [call, hb, hrow]
      exact .of_phase rfl (fun _ h => h) (fun _ h => h)
  | collecting =>
    right
    simp only [call, hcollect]
    exact .of_phase rfl (fun _ h => h) (fun _ h => h)
  | advancing advance =>
    right
    have hb := hmem advance rfl
    refine ⟨rfl, ?_, ?_, ?_, fun t h => ?_, ?_, (fun _ h => by cases h), (fun _ h => by cases h)⟩
    all_goals cases advance <;> simp_all [call, applyAdvance, Backend.free, findClaim]
  | selecting =>
    right
    simp only [call, hselect]
    exact .of_phase rfl (fun _ h => h) (fun _ h => h)
  | hydrating blob =>
    right
    obtain ⟨hidle', hne⟩ := isIdle_dispatchRow w.clock (blob.hydrateTaskOutputs w.outputs)
    obtain ⟨hp, hl⟩ := dispatchRow_mapOutputs (s := blob)
      (fun taskId output => (w.outputs taskId).getD output) job w.clock
    simp only [call]
    refine .of_phase hidle' (fun t h => ?_) fun t h => ?_
    · rw [ahead_of_ne hne] at h
      exact hl ▸ h
    · rw [ahead_of_ne hne] at h
      exact hp ▸ h
  | waking s next =>
    right
    obtain ⟨-, hclock, hcancel, hpause⟩ := saveSnapshot_frame (b := job.backend) (w := w) s
    -- the process is offered the task it was to be offered, or ends
    have hnext : (∃ task, (job.call worker (.waking s next) w).1 = .offered task
          ∧ ∃ taskId, next = some taskId
            ∧ PoolWorld.buildAvailableTask (job.backend.afterSave s) taskId = some task)
        ∨ (job.call worker (.waking s next) w).1 = .done := by
      simp only [call]
      cases next with
      | none => exact .inr rfl
      | some taskId =>
        dsimp only
        cases hbuild : PoolWorld.buildAvailableTask (job.backend.afterSave s) taskId with
        | none => exact .inr rfl
        | some task => exact .inl ⟨task, rfl, taskId, rfl, hbuild⟩
    refine ⟨?_, hcancel, hpause, hclock, fun t h => ?_, fun _ t h => ?_, fun t h => ?_,
      fun t h => ?_⟩
    · rcases hnext with ⟨task, h, -⟩ | h <;> rw [h] <;> rfl
    · exact (free_saveSnapshot _ s).symm.trans h
    · rcases snapshot_saveSnapshot (b := job.backend) (w := w) s with hs | ⟨-, -, hs⟩
      · simp only [call, hs, Option.bind_some, currentTaskId_stored] at h
        exact .inr h
      · simp only [call, hs] at h
        exact .inl h
    · rcases hnext with ⟨task, h', -⟩ | h' <;> rw [h'] at h <;> cases h
    · rcases hnext with ⟨task, h', taskId, rfl, hbuild⟩ | h'
      · rw [h'] at h
        rw [← h]
        simp only [ahead, prospect, hbuild]
      · rw [h'] at h
        cases h
  | offered task =>
    cases ha : job.accepts task with
    | false =>
      right
      simp only [call, ha]
      exact .of_phase rfl (fun _ h => by cases h) (fun _ h => by cases h)
    | true =>
      cases hc : job.backend.claimable task.taskId w with
      | true => exact .inl ⟨task.taskId, by simp [ahead, prospect, accepted, ha], hc⟩
      | false =>
        right
        simp only [call, ha, claimTask, hc]
        exact .of_phase rfl (fun _ h => by cases h) (fun _ h => by cases h)
  | done =>
    right
    exact .of_phase rfl (fun _ h => h) (fun _ h => h)
  | _ => cases hidle

/-- A step of a process that polls brings a claim no nearer, unless it is one. -/
theorem idles_phaseStep (worker : Worker) (choice : Choice) (hsig : w.hasSignal) (hidle : phase.isIdle)
    (hmem : ∀ advance, phase = .advancing advance → job.backend = inMemory) :
    (∃ t, job.prospect (ahead w.clock phase) = some t ∧ job.backend.claimable t w)
      ∨ Idles job w phase (job.phaseStep worker choice phase w) := by
  have hsame : Idles job w phase (phase, w) :=
    .of_phase hidle (fun _ h => h) (fun _ h => h)
  cases choice with
  | proceed => exact idles_call hsig hidle hmem
  | lost applied =>
    have hlost : job.phaseStep worker (.lost applied) phase w
        = (.done, if applied then (job.call worker phase w).2 else w) := by
      cases phase <;> first | rfl | cases hidle
    rw [hlost]
    cases applied with
    | false => exact .inr hsame.done
    | true => exact (idles_call hsig hidle hmem).imp_right Idles.done
  | raise e =>
    right
    cases phase <;> first | exact hsame | cases hidle
  | heartbeat readFails extendFails =>
    right
    cases phase <;> first | exact hsame | cases hidle

/-! ## Polls of the two backends -/

theorem proper_moves {w' : PoolWorld} {phase' : Phase} (hm : Moves job worker w w' phase phase')
    (hp : phase.Proper job) : phase'.Proper job := by
  cases hm with
  | collecting hb | hydrating blob hb => exact hb
  | advancing | collected | advanced => exact hp
  | hydrated blob => exact proper_dispatchRow hp _ _
  | unready | interrupted => exact settleFailure_of trivial fun _ => trivial
  | settled =>
    exact settle_of trivial (fun _ => settleFailure_of trivial fun _ => trivial)
      fun _ _ _ _ => trivial
  | committed | drained => exact drain_of (fun _ => trivial) trivial
  | handedBack | resolved | unresolved =>
    exact resolve_of trivial (fun _ _ _ => trivial) fun _ => trivial
  | concluded => exact conclude_of trivial fun _ => trivial
  | _ => trivial

theorem proper_reachable {C : Action → Pool → Prop} {instanceId : String}
    (h : job.Reachable C instanceId now σ) : ∀ p ∈ σ.processes, p.phase.Proper job := by
  refine (Submission.Reachable.invariant h (I := fun _ => True)
    (P := fun _ p => p.phase.Proper job) trivial ?_ ?_ ?_ ?_ ?_).2
  · exact fun w worker _ => trivial
  · intro w worker hint _
    cases job.backend.findHintedTask hint w <;> trivial
  · exact fun w p _ => trivial
  · exact fun a w w' _ _ => ⟨trivial, fun p hp => hp⟩
  · intro σ i choice p phase' w' _ _ _ hp _ hm
    exact ⟨trivial, proper_moves hm hp, fun q hq => hq⟩

/-! ## Stuck for good -/

variable {σ : Pool}

/-- Only processes that poll are left, none of them gets to a claim, and the requests of
`w` are pending. -/
structure Stuck (job : Submission) (w : PoolWorld) (σ : Pool) : Prop where
  idle : ∀ p ∈ σ.processes, p.phase.isIdle
  notUnderway : ¬ job.Underway σ
  cancel : σ.world.cancelSignal = w.cancelSignal
  pause : σ.world.pauseSignal = w.pauseSignal

/-- A new process that is about to claim nothing. -/
theorem Stuck.spawn (h : Stuck job w σ) {p : Process} (hidle : p.phase.isIdle)
    (hp : job.prospect (ahead σ.world.clock p.phase) = none)
    (hl : (ahead σ.world.clock p.phase).landing = none) :
    Stuck job w { σ with processes := σ.processes ++ [p] } where
  idle q hq := by
    rcases List.mem_append.mp hq with hq | hq
    · exact h.idle q hq
    · rw [List.mem_singleton.mp hq]
      exact hidle
  notUnderway := by
    rintro ⟨q, hq, t, ht, hfree, hat⟩
    have hold : ∀ q ∈ σ.processes ++ [p], q ∈ σ.processes ∨ q = p := by simp
    rcases hold q hq with hq | rfl
    · refine h.notUnderway ⟨q, hq, t, ht, hfree, hat.imp_right (Or.imp_right ?_)⟩
      rintro ⟨q', hq', hl'⟩
      rcases hold q' hq' with hq' | rfl
      · exact ⟨q', hq', hl'⟩
      · rw [hl] at hl'
        cases hl'
    · rw [hp] at ht
      cases ht
  cancel := h.cancel
  pause := h.pause

/-- A step of a process that polls. -/
theorem Stuck.set (h : Stuck job w σ) {i : ℕ} {p : Process}
    {r : Phase × PoolWorld} (hi : σ.processes[i]? = some p) (hr : Idles job σ.world p.phase r)
    (seen : Option WorkflowSnapshot) :
    Stuck job w { σ with world := r.2, processes := σ.processes.set i ⟨p.worker, r.1, seen⟩ } where
  idle q hq := by
    rcases List.mem_or_eq_of_mem_set hq with hq | rfl
    · exact h.idle q hq
    · exact hr.idle
  notUnderway := by
    have hmem := List.mem_of_getElem? hi
    rintro ⟨q, hq, t, ht, hfree, hat⟩
    dsimp only at hq ht hfree hat
    rw [hr.clock] at ht hat
    -- what the process brings about it was about to bring about before
    have hprospect : ∃ q ∈ σ.processes, job.prospect (ahead σ.world.clock q.phase) = some t := by
      rcases List.mem_or_eq_of_mem_set hq with hq | rfl
      · exact ⟨q, hq, ht⟩
      · exact ⟨p, hmem, hr.prospect t ht⟩
    have hlanding : ∀ q' ∈ σ.processes.set i ⟨p.worker, r.1, seen⟩,
        (ahead σ.world.clock q'.phase).landing = some t →
          ∃ q' ∈ σ.processes, (ahead σ.world.clock q'.phase).landing = some t := by
      intro q' hq' hl
      rcases List.mem_or_eq_of_mem_set hq' with hq' | rfl
      · exact ⟨q', hq', hl⟩
      · exact ⟨p, hmem, hr.landing t hl⟩
    obtain ⟨q, hq, ht⟩ := hprospect
    refine h.notUnderway ⟨q, hq, t, ht, hr.free t hfree, ?_⟩
    cases hb : job.backend with
    | inMemory => exact .inl rfl
    | postgres =>
      rcases hat with hb' | hcur | ⟨q', hq', hl⟩
      · rw [hb] at hb'
        cases hb'
      · exact .inr ((hr.current hb t hcur).imp_right fun hl => ⟨p, hmem, hl⟩)
      · exact .inr (.inr (hlanding q' hq' hl))
  cancel := hr.cancel.trans h.cancel
  pause := hr.pause.trans h.pause

theorem stuck_step {a : Action} (hsig : w.hasSignal) (ha : a.isWorkers)
    (hproper : ∀ p ∈ σ.processes, p.phase.Proper job) (h : Stuck job w σ) :
    Stuck job w (job.step a σ) := by
  have hsig' : σ.world.hasSignal := by
    unfold PoolWorld.hasSignal
    rw [h.cancel, h.pause]
    exact hsig
  cases a with
  | poll worker => exact h.spawn rfl rfl rfl
  | hinted worker hint =>
    have hnone := (polls_nothing hsig' []).2.2.2 job.backend hint
    unfold step
    dsimp only
    rw [hnone]
    exact h.spawn rfl rfl rfl
  | work i choice =>
    unfold step
    dsimp only
    cases hi : σ.processes[i]? with
    | none => exact h
    | some p =>
      have hmem := List.mem_of_getElem? hi
      have hadvancing : ∀ advance, p.phase = .advancing advance → job.backend = inMemory := by
        intro advance hphase
        have := hproper p hmem
        rw [hphase] at this
        exact this
      rcases idles_phaseStep p.worker choice hsig' (h.idle p hmem) hadvancing with
        ⟨t, ht, hclaim⟩ | hr
      · -- the claim would be granted: the process was underway
        exfalso
        refine h.notUnderway ⟨p, hmem, t, ht, ?_⟩
        unfold claimable at hclaim
        rw [Bool.and_eq_true] at hclaim
        refine ⟨hclaim.1, ?_⟩
        cases hb : job.backend with
        | inMemory => exact .inl rfl
        | postgres =>
          rw [hb] at hclaim
          obtain ⟨s, hs, hcur⟩ := (Option.any_eq_true _ _).mp hclaim.2
          exact .inr (.inl (by simpa [hs] using hcur))
      · exact h.set hi hr _
  | _ => cases ha

/-- **A request is not applied if no process is underway**, whatever the workers do. -/
theorem not_applied_of_stuck {C : Action → Pool → Prop} {instanceId : String}
    {τ : Pool} (h : job.Reachable C instanceId now σ) (hsig : σ.world.hasSignal)
    (hidle : ∀ p ∈ σ.processes, p.phase.isIdle) (hnot : ¬ job.Underway σ)
    (hτ : Walk job.step (fun a _ => a.isWorkers) σ τ) : ¬ PoolWorld.Applied σ.world τ.world := by
  have hstuck : Stuck job σ.world τ := by
    refine Walk.invariant_of hτ (I := Stuck job σ.world)
      (J := fun τ => ∀ p ∈ τ.processes, p.phase.Proper job) (fun hυ => ?_) ⟨hidle, hnot, rfl, rfl⟩ ?_
    · exact proper_reachable ((Walk.mono (fun _ _ _ => trivial) h).trans
        (Walk.mono (D := fun _ _ => True) (fun _ _ _ => trivial) hυ))
    · exact fun a υ hproper hI ha => stuck_step hsig ha hproper hI
  rintro ⟨s, -, ⟨hsome, hnone, -⟩ | ⟨hsome, hnone, -⟩⟩
  · rw [hstuck.cancel] at hnone
    simp [hnone] at hsome
  · rw [hstuck.pause] at hnone
    simp [hnone] at hsome

end stuck

/-! ## A process that is underway applies the request -/

section applies

variable [Sha256] {job : Submission} {worker : Worker} {w : PoolWorld} {phase : Phase}
  {s : WorkflowSnapshot} {t : TaskId} {task : AvailableTask}

open Submission

/-- The guards apply a pending request. -/
theorem runs_guarding_applied (job : Submission) (worker : Worker) (task : AvailableTask)
    (hs : w.snapshot = some s) (hp : s.isInProgress)
    (hsig : w.hasSignal) :
    ∃ w', job.Runs worker (.guarding task .start, w) (.releasing task, w')
      ∧ PoolWorld.Applied w w' := by
  obtain ⟨position, completed, last, hst⟩ := isInProgress_iff.mp hp
  cases hc : w.cancelSignal with
  | some request =>
    have hmark := markIfInProgress_eq (·.markCancelled request (some task.taskId)) hs hp
    let w₁ : PoolWorld :=
      { w with snapshot := some (s.markCancelled request (some task.taskId)) }
    refine ⟨{ w₁ with cancelSignal := none }, ?_, _, rfl, .inl ⟨by simp [hc], rfl, rfl⟩⟩
    cases hb : job.backend with
    | inMemory =>
      have h₁ : job.Runs worker (.guarding task .start, w) (.guarding task (.cancelRead request), w) :=
        .call (by simp [call, hb, guardStep, guardInMemory, hc, afterGuard])
      have h₂ : job.Runs worker (.guarding task (.cancelRead request), w)
          (.guarding task .cancelMarked, w₁) :=
        .call (by simp [call, hb, guardStep, guardInMemory, hmark, afterGuard, w₁])
      exact (h₁.trans h₂).trans
        (.call (by simp [call, hb, guardStep, guardInMemory, afterGuard]))
    | postgres =>
      have h₁ : job.Runs worker (.guarding task .start, w) (.guarding task .checkCancel, w) :=
        .call (by simp [call, hb, guardStep, guardPostgres, hsig, afterGuard])
      exact h₁.trans
        (.call (by simp [call, hb, guardStep, guardPostgres, hc, hmark, afterGuard, w₁]))
  | none =>
    obtain ⟨request, hpause⟩ : ∃ request, w.pauseSignal = some request := by
      simpa [PoolWorld.hasSignal, hc, Option.isSome_iff_exists] using hsig
    have hmark := markIfInProgress_eq (·.markPaused request) hs hp
    let w₁ : PoolWorld := { w with snapshot := some (s.markPaused request) }
    have hpaused : (s.markPaused request).isPaused := by
      simp [isPaused, markPaused, hst]
    refine ⟨{ w₁ with pauseSignal := none }, ?_, _, rfl, .inr ⟨by simp [hpause], rfl, hpaused⟩⟩
    cases hb : job.backend with
    | inMemory =>
      have h₁ : job.Runs worker (.guarding task .start, w) (.guarding task .checkPause, w) :=
        .call (by simp [call, hb, guardStep, guardInMemory, hc, afterGuard])
      have h₂ : job.Runs worker (.guarding task .checkPause, w)
          (.guarding task (.pauseRead request), w) :=
        .call (by simp [call, hb, guardStep, guardInMemory, hpause, afterGuard])
      have h₃ : job.Runs worker (.guarding task (.pauseRead request), w)
          (.guarding task .pauseMarked, w₁) :=
        .call (by simp [call, hb, guardStep, guardInMemory, hmark, afterGuard, w₁])
      exact ((h₁.trans h₂).trans h₃).trans
        (.call (by simp [call, hb, guardStep, guardInMemory, afterGuard]))
    | postgres =>
      have h₁ : job.Runs worker (.guarding task .start, w) (.guarding task .checkCancel, w) :=
        .call (by simp [call, hb, guardStep, guardPostgres, hsig, afterGuard])
      have h₂ : job.Runs worker (.guarding task .checkCancel, w) (.guarding task .checkPause, w) :=
        .call (by simp [call, hb, guardStep, guardPostgres, hc, afterGuard])
      exact (h₁.trans h₂).trans (.call (by
        simp [call, hb, guardStep, guardPostgres, hpause, hmark, afterGuard, w₁]))

/-- A process that claims its offer applies a pending request. -/
theorem runs_offered_applied (worker : Worker) (hs : w.snapshot = some s) (hp : s.isInProgress)
    (hsig : w.hasSignal) (ha : job.accepts task) (hclaim : job.backend.claimable task.taskId w) :
    ∃ w', job.Runs worker (.offered task, w) (.releasing task, w') ∧ PoolWorld.Applied w w' := by
  have hcall : ∃ claims, job.call worker (.offered task) w
      = (.guarding task .start, { w with claims := claims }) := by
    simp only [call, ha, claimTask, hclaim, if_true]
    exact ⟨_, rfl⟩
  obtain ⟨claims, hcall⟩ := hcall
  obtain ⟨w', hruns, happlied⟩ := runs_guarding_applied job worker task
    (w := { w with claims := claims }) hs hp hsig
  exact ⟨w', (Runs.call hcall).trans hruns, happlied⟩

theorem accepted_some (h : job.accepted (some task) = some t) :
    job.accepts task ∧ task.taskId = t := by
  obtain ⟨task', hfilter, ht⟩ := Option.map_eq_some_iff.mp h
  obtain ⟨htask, ha⟩ := Option.filter_eq_some_iff.mp hfilter
  obtain rfl := Option.some.inj htask
  exact ⟨ha, ht⟩

/-- A process that has fetched a row goes on to what it is about to do. -/
theorem runs_ahead (worker : Worker) (w : PoolWorld) (hp : phase.Proper job) :
    ∃ phase', job.Runs worker (phase, w) (phase', w) ∧ phase'.Proper job
      ∧ (∀ blob, phase' ≠ .hydrating blob)
      ∧ job.prospect phase' = job.prospect (ahead w.clock phase)
      ∧ phase'.landing = (ahead w.clock phase).landing := by
  cases phase with
  | hydrating blob =>
    obtain ⟨hprospect, hlanding⟩ := dispatchRow_mapOutputs (s := blob)
      (fun taskId output => (w.outputs taskId).getD output) job w.clock
    exact ⟨_, .call rfl, proper_dispatchRow hp _ _, (isIdle_dispatchRow _ _).2, hprospect, hlanding⟩
  | _ => exact ⟨_, .refl, hp, by simp, rfl, rfl⟩

/-- A process that wakes the instance up moves it. -/
theorem runs_landing (worker : Worker) (hs : w.snapshot = some s) (hp : s.isInProgress)
    (hproper : phase.Proper job) (hl : (ahead w.clock phase).landing = some t) :
    ∃ phase' s', job.Runs worker (phase, w) (phase', job.backend.saveSnapshot s' w)
      ∧ (job.backend.saveSnapshot s' w).snapshot = some (job.backend.stored s')
      ∧ s'.currentTaskId = some t := by
  obtain ⟨phase', hruns, -, -, -, hlanding⟩ := runs_ahead worker w hproper
  rw [← hlanding] at hl
  cases phase' with
  | waking s' next =>
    exact ⟨_, s', hruns.trans (.call rfl), snapshot_saveSnapshot_of_isInProgress hs hp s', hl⟩
  | _ => cases hl

/-- A process that is about to claim the task that the instance stands at applies a
pending request. -/
theorem runs_prospect_applied (worker : Worker) (hs : w.snapshot = some s) (hp : s.isInProgress)
    (hsig : w.hasSignal) (hproper : phase.Proper job)
    (ht : job.prospect (ahead w.clock phase) = some t) (hfree : job.backend.free t w)
    (hat : job.backend = inMemory ∨ s.currentTaskId = some t
      ∨ (ahead w.clock phase).landing = some t) :
    ∃ phase' w', job.Runs worker (phase, w) (phase', w') ∧ PoolWorld.Applied w w' := by
  obtain ⟨phase₁, hruns, hproper₁, hne, hprospect, hlanding⟩ := runs_ahead worker w hproper
  rw [← hprospect] at ht
  rw [← hlanding] at hat
  cases phase₁ with
  | offered task =>
    obtain ⟨ha, rfl⟩ := accepted_some ht
    have hat' := hat.imp_right fun h => h.resolve_right (by simp [Phase.landing])
    have hclaim := claimable_of_free hfree hs hat'
    obtain ⟨w', hruns', happlied⟩ := runs_offered_applied worker hs hp hsig ha hclaim
    exact ⟨_, w', hruns.trans hruns', happlied⟩
  | waking s' next =>
    cases next with
    | none => cases ht
    | some taskId =>
      obtain ⟨task, hbuild⟩ : ∃ task,
          PoolWorld.buildAvailableTask (job.backend.afterSave s') taskId = some task := by
        cases h : PoolWorld.buildAvailableTask (job.backend.afterSave s') taskId with
        | none => simp [prospect, h, accepted] at ht
        | some task => exact ⟨task, rfl⟩
      simp only [prospect, hbuild] at ht
      obtain ⟨ha, rfl⟩ := accepted_some ht
      obtain rfl : task.taskId = taskId := (buildAvailableTask_eq_some hbuild).2.1
      have hcur : s'.currentTaskId = some task.taskId := hproper₁.2 _ rfl
      have hcall : job.call worker (.waking s' (some task.taskId)) w
          = (.offered task, job.backend.saveSnapshot s' w) := by
        simp only [call, hbuild, offer]
      have hsaved := snapshot_saveSnapshot_of_isInProgress (b := job.backend) hs hp s'
      have hcur' : (job.backend.stored s').currentTaskId = some task.taskId :=
        (currentTaskId_stored _).trans hcur
      obtain ⟨w', hruns', happlied⟩ := runs_offered_applied worker hsaved
        (isInProgress_of_currentTaskId hcur') ((hasSignal_saveSnapshot _ s').trans hsig) ha
        (claimable_of_free ((free_saveSnapshot _ s').trans hfree) hsaved (.inr hcur'))
      exact ⟨_, w', (hruns.trans (.call hcall)).trans hruns', happlied.of_saveSnapshot⟩
  | hydrating blob => exact absurd rfl (hne blob)
  | _ => cases ht

/-- **A process that is underway applies a pending request.** -/
theorem applied_of_underway (hs : σ.world.snapshot = some s) (hp : s.isInProgress)
    (hsig : σ.world.hasSignal) (hproper : ∀ p ∈ σ.processes, p.phase.Proper job)
    (h : job.Underway σ) :
    ∃ τ, Walk job.step (fun a _ => a.isWorkers) σ τ ∧ PoolWorld.Applied σ.world τ.world := by
  obtain ⟨p, hmem, t, ht, hfree, hat⟩ := h
  obtain ⟨i, hi⟩ := List.mem_iff_getElem?.mp hmem
  have hwalk : ∀ (σ : Pool) i n, Walk job.step (fun a _ => a.isWorkers) σ
      (perform job.step (Action.calls i n) σ) :=
    fun σ i n => Walk.perform (permitted_calls (fun _ => rfl) σ)
  rw [hs, Option.bind_some] at hat
  by_cases hown : job.backend = inMemory ∨ s.currentTaskId = some t
      ∨ (ahead σ.world.clock p.phase).landing = some t
  · obtain ⟨phase', w', hruns, happlied⟩ :=
      runs_prospect_applied p.worker hs hp hsig (hproper p hmem) ht hfree hown
    obtain ⟨n, seen, hn⟩ := Runs.exists_calls hi hruns
    exact ⟨_, hwalk σ i n, by rwa [hn]⟩
  · -- another process moves the instance first
    simp only [not_or] at hown
    obtain ⟨q, hq, hl⟩ := (hat.resolve_left hown.1).resolve_left hown.2.1
    obtain ⟨j, hj⟩ := List.mem_iff_getElem?.mp hq
    have hne : j ≠ i := by
      rintro rfl
      obtain rfl : p = q := Option.some.inj (hi.symm.trans hj)
      exact hown.2.2 hl
    obtain ⟨phase₁, s', hruns, hsaved, hcur⟩ := runs_landing q.worker hs hp (hproper q hq) hl
    obtain ⟨n, seen, hn⟩ := Runs.exists_calls hj hruns
    obtain ⟨-, hclock, -⟩ := saveSnapshot_frame (b := job.backend) (w := σ.world) s'
    have hcur' : (job.backend.stored s').currentTaskId = some t := (currentTaskId_stored _).trans hcur
    rw [← hclock] at ht
    obtain ⟨phase', w', hruns', happlied⟩ := runs_prospect_applied p.worker hsaved
      (isInProgress_of_currentTaskId hcur') ((hasSignal_saveSnapshot _ s').trans hsig)
      (hproper p hmem) ht ((free_saveSnapshot _ s').trans hfree) (.inr (.inl hcur'))
    have hi' : (perform job.step (Action.calls j n) σ).processes[i]? = some p := by
      rw [hn]
      exact (List.getElem?_set_ne hne).trans hi
    obtain ⟨m, seen', hm⟩ := Runs.exists_calls (x := (phase', w')) hi' (by rw [hn]; exact hruns')
    exact ⟨_, (hwalk σ j n).trans (hwalk _ i m), by rw [hm]; exact happlied.of_saveSnapshot⟩

end applies

/-! ## After a pause -/

/-- At a wait that a poll or an event ends. -/
def WorkflowSnapshot.isParked (s : WorkflowSnapshot) : Bool :=
  match s.position with
  | some (.atDelay ..) | some (.atSignal ..) => true
  | _ => false

/-- At a task that is not recorded and whose input is at hand. -/
def WorkflowSnapshot.Dispatchable (s : WorkflowSnapshot) : Prop :=
  ∃ t, s.currentTaskId = some t ∧ s.getTaskResult t = none ∧ s.hasInput

section dispatch

/-- What a poll finds in a running instance that is not parked. -/
theorem not_dispatchable_eq (hs : w.snapshot = some s) (hp : s.isInProgress)
    (hparked : s.isParked = false) (hnot : ¬ s.Dispatchable) (tags : List String) :
    collectAdvance w = none ∧ selectTask tags w = none
      ∧ dispatchRow w.clock (s.hydrateTaskOutputs w.outputs) = .done := by
  obtain ⟨position, completed, last, hst⟩ := isInProgress_iff.mp hp
  have hst' : (s.hydrateTaskOutputs w.outputs).state = .inProgress position
      (completed.mapOutputs fun taskId output => (w.outputs taskId).getD output) last := by
    simp [hydrateTaskOutputs, mapOutputs, hst]
  unfold collectAdvance selectTask dispatchRow
  rw [hs, hst']
  cases position with
  | atTask t =>
    -- the task is recorded or there is no input to offer it with
    have hwhy : (completed.lookup t).isSome ∨ PoolWorld.buildAvailableTask s t = none
        ∧ PoolWorld.buildAvailableTask (s.hydrateTaskOutputs w.outputs) t = none := by
      by_contra hcon
      rw [not_or, Option.not_isSome_iff_eq_none] at hcon
      refine hnot ⟨t, by simp [currentTaskId, hst], ?_, ?_⟩
      · simpa [getTaskResult, getAllTaskResults, hst]
          using hcon.1
      · by_contra hinput
        refine hcon.2 ⟨?_, ?_⟩
        · rw [← Option.not_isSome_iff_eq_none, isSome_buildAvailableTask]
          exact hinput
        · rw [← Option.not_isSome_iff_eq_none, isSome_buildAvailableTask,
            hydrateTaskOutputs, hasInput_mapOutputs]
          exact hinput
    refine ⟨by cases w.hasSignal <;> simp [hst], ?_, ?_⟩
    · cases w.hasSignal with
      | true => rfl
      | false =>
        dsimp only
        rw [hst]
        dsimp only
        rcases hwhy with h | h <;> simp [h]
    · dsimp only
      rw [CompletedTasks.lookup_mapOutputs, Option.isSome_map]
      rcases hwhy with h | h <;> simp [h]
  | atDelay | atSignal => simp [isParked, position, hst] at hparked
  | _ => cases w.hasSignal <;> simp [hst]

variable [Sha256] {job : Submission} {worker : Worker} {w : PoolWorld} {s : WorkflowSnapshot}
  {x : Phase × PoolWorld}

open Submission

/-- A poll of such an instance ends without an offer. -/
theorem polls_in_vain (hs : w.snapshot = some s) (hp : s.isInProgress)
    (hparked : s.isParked = false) (hnot : ¬ s.Dispatchable)
    (h : job.Runs worker (.polling, w) x) :
    x.2.snapshot = some s ∧ (x.1 = .polling ∨ x.1 = .collecting ∨ x.1 = .selecting
      ∨ x.1 = .hydrating s ∨ x.1 = .done) := by
  induction h with
  | refl => exact ⟨hs, .inl rfl⟩
  | @tail y _ _ hcall ih =>
    obtain ⟨phase, w'⟩ := y
    subst hcall
    obtain ⟨hsnap, hphase⟩ := ih
    obtain ⟨hcollect, hselect, hrow⟩ := not_dispatchable_eq hsnap hp hparked hnot worker.tags
    dsimp only at hsnap hphase hcollect hselect hrow ⊢
    rcases hphase with rfl | rfl | rfl | rfl | rfl
    · cases hb : job.backend with
      | inMemory =>
        simp only [call, hb]
        exact ⟨hsnap, by simp⟩
      | postgres =>
        cases hsel : selectRow worker.tags w' with
        | none =>
          simp only [call, hb, hsel]
          exact ⟨hsnap, by simp⟩
        | some blob =>
          obtain rfl : s = blob :=
            Option.some.inj (hsnap.symm.trans (Option.filter_eq_some_iff.mp hsel).1)
          simp only [call, hb, hsel]
          exact ⟨hsnap, by simp⟩
    · simp only [call, hcollect]
      exact ⟨hsnap, by simp⟩
    · simp only [call, hselect, offer]
      exact ⟨hsnap, by simp⟩
    · simp only [call, hrow]
      exact ⟨hsnap, by simp⟩
    · exact ⟨hsnap, by simp [call]⟩

/-- **A poll dispatches a running instance that is not parked iff it is dispatchable**, if
nothing holds it back. -/
theorem offered_iff_dispatchable (job : Submission) (worker : Worker)
    (hs : σ.world.snapshot = some s) (hp : s.isInProgress) (hparked : s.isParked = false) (hsig : σ.world.hasSignal = false)
    (hclaims : Unclaimed job.backend σ.world) (htags : PoolWorld.tagsMatch worker.tags s)
    (hback : ∀ t, s.currentTaskId = some t → s.inBackoff t σ.world.clock = false) :
    (∃ n task seen, (perform job.step (.poll worker :: Action.calls σ.processes.length n)
      σ).processes[σ.processes.length]? = some ⟨worker, .offered task, seen⟩) ↔ s.Dispatchable := by
  constructor
  · rintro ⟨n, task, seen, hoffered⟩
    by_contra hnot
    have hnew : (job.step (.poll worker) σ).processes[σ.processes.length]?
        = some ⟨worker, .polling, none⟩ := by
      simp [step]
    obtain ⟨x, seen', hruns, hx⟩ := Runs.of_calls hnew n
    obtain ⟨-, hphase⟩ := polls_in_vain hs hp hparked hnot hruns
    have heq := Option.some.inj (hx.symm.trans hoffered)
    simp only [Process.mk.injEq, true_and] at heq
    rw [heq.1] at hphase
    simp at hphase
  · rintro ⟨t, hcur, hfresh, hinput⟩
    have hinput' : (PoolWorld.buildAvailableTask (job.backend.view σ.world s) t).isSome := by
      rw [isSome_buildAvailableTask]
      cases job.backend with
      | inMemory => exact hinput
      | postgres => exact (hasInput_mapOutputs _).trans hinput
    obtain ⟨task, hbuild⟩ := Option.isSome_iff_exists.mp hinput'
    obtain ⟨claims, -, hruns⟩ := runs_poll worker hs hp
      (position_of_currentTaskId hcur) hfresh hsig hclaims (hback t hcur) htags
      hbuild
    obtain ⟨n, seen, hn⟩ := hruns.exists_poll
    exact ⟨n, task, seen, by simp [hn]⟩

end dispatch

/-! ## The requests of a pool -/

section requests

variable [Sha256]

open Submission

end requests

section sample

attribute [local instance] Sha256.packed

/-- A pause is requested, and the request is inserted. -/
def requestPause : List Action := [.request .pause ⟨none, none⟩, .insertRequest 0]

/-- A worker is offered the first task before a pause is requested. -/
def pausedUnderway : List Action :=
  .poll (sampleWorker "a") :: Action.calls 0 3 ++ requestPause

/-- A pause is requested after the last task has been committed, and applied before the
completion is stored. -/
def pausedAtTheEnd : List Action :=
  .poll (sampleWorker "a") :: Action.calls 0 12 ++ .poll (sampleWorker "a") :: Action.calls 1 10
    ++ requestPause ++ Action.calls 1 4

end sample

end Sayiir
