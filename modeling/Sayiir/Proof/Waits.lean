import Sayiir.Proof.Alike
import Sayiir.Proof.Requests

/-!
# Polls that end a wait

A poll that finds a wait over writes later than it reads, and what it writes does not
depend on what is stored by then. So several polls may end one wait, take several
events for it and undo what has happened since. The same goes for a worker that drains
the buffered events after a commit.

`Submission.Undisturbed` is the condition under which this does not happen: whoever
ends a wait finds the instance still waiting, as it has seen it. A ghost next to the
pool counts how often the wait has been ended since the instance was parked, and
keeps the events taken for it.
-/

namespace Sayiir

open Backend WorkflowSnapshot Submission

variable {b : Backend} {s s' : WorkflowSnapshot}

/-! ## What is written -/

/-- The output recorded last, or the final one. -/
def WorkflowSnapshot.lastOutput (s : WorkflowSnapshot) : Option Bytes :=
  match s.state with
  | .completed output => some output
  | _ => s.getLastTaskOutput

/-- The instance is running and waits for a time or for an event. -/
def WorkflowSnapshot.isWaiting (s : WorkflowSnapshot) : Bool := s.isInProgress && s.isParked

/-- The output that a reader finds recorded last. -/
def Backend.lastRecorded (b : Backend) (w : PoolWorld) : Option Bytes :=
  w.snapshot.bind fun s => (b.view w s).lastOutput

/-- The process has taken an event and not yet saved it. -/
def Phase.holds : Phase → Bool
  | .drained .. => true
  | _ => false

/-- No process has an event in hand. -/
def Pool.noneHolds (σ : Pool) : Bool := σ.processes.all fun p => !p.phase.holds

/-- The instance still waits, as the process has seen it. -/
def Process.findsWaiting (p : Process) (w : PoolWorld) : Bool :=
  decide (p.seen = w.snapshot) && w.snapshot.any isWaiting

/-- An event whose absence would leave the advance with an empty payload is still there. -/
def Backend.Advance.isBacked (w : PoolWorld) : Advance → Bool
  | .signal _ signalName _ => !(w.events signalName).isEmpty
  | _ => true

/-- What a poll is about to write changes nothing. -/
def Phase.inert (b : Backend) (w : PoolWorld) : Phase → Bool
  | .advancing (.delay next) => w.snapshot.all fun s =>
    !s.isInProgress || decide (s.position = some (.atTask next))
  | .advancing (.signalTimeout _ _ (some _)) => w.snapshot.all fun s => !s.isInProgress
  | .waking s _ => decide (b = postgres) && w.snapshot.any isTerminal
      || decide (w.snapshot = some (b.stored s))
  | _ => false

/-- An event of this name resumes the instance at once. -/
def Backend.resumes (b : Backend) (signalName : String) (w : PoolWorld) : Bool :=
  decide (b = postgres) && w.snapshot.any fun s => match s.state with
    | .inProgress (.atSignal _ awaited _ _) _ _ => decide (awaited = signalName)
    | _ => false

/-- The event that a worker is about to take. -/
def Submission.nextEvent (s : WorkflowSnapshot) (w : PoolWorld) : Option Bytes :=
  match s.state with
  | .inProgress (.atSignal _ signalName _ _) _ _ => (w.events signalName).head?
  | _ => none

/-! ## The ghost -/

/-- What an action does to the wait of the instance. -/
inductive WaitEffect where
  | nothing
  /-- A worker stores the instance at a wait. -/
  | parked
  /-- A worker takes an event for the wait. -/
  | taken (payload : Bytes)
  /-- The wait is ended, perhaps by an event taken at the same time. -/
  | left (payload : Option Bytes)
  deriving DecidableEq

/-- A pool that is watched since the instance was last parked. -/
structure Vigil where
  pool : Pool
  /-- How often the wait has been ended. -/
  advances : ℕ
  /-- The events taken for it. -/
  taken : List Bytes
  /-- What was recorded when it was ended. -/
  recorded : Option Bytes

namespace Submission

variable [Sha256] (job : Submission)

/-- What a call of a process that takes effect does to the wait. -/
def callEffect (worker : Worker) (w : PoolWorld) (phase : Phase) : WaitEffect :=
  match phase with
  | .advancing advance =>
    if phase.inert job.backend w then .nothing
    else .left (match advance with
      | .signal _ signalName _ => (w.events signalName).head?
      | _ => none)
  | .waking .. => if phase.inert job.backend w then .nothing else .left none
  | .draining _ s _ => match nextEvent s w with
      | some payload => .taken payload
      | none => .nothing
  | .drained .. => .left none
  | .retrying .. | .failing .. | .committing .. | .resolving (_ :: _) _ _ | .completing _ =>
    if (job.call worker phase w).2.snapshot.any WorkflowSnapshot.isParked then .parked
    else .nothing
  | _ => .nothing

def waitEffect : Action → Pool → WaitEffect
  | .sendEvent signalName payload, σ =>
    if job.backend.resumes signalName σ.world then .left (some payload) else .nothing
  | .work i choice, σ => match σ.processes[i]? with
      | none => .nothing
      | some p => if choice.applies then job.callEffect p.worker σ.world p.phase else .nothing
  | _, _ => .nothing

/-- A step of the pool under the eyes of the ghost. -/
def watch (a : Action) (v : Vigil) : Vigil :=
  match job.waitEffect a v.pool with
  | .nothing => { v with pool := job.step a v.pool }
  | .parked => ⟨job.step a v.pool, 0, [], none⟩
  | .taken payload => { v with pool := job.step a v.pool, taken := v.taken ++ [payload] }
  | .left payload => ⟨job.step a v.pool, v.advances + 1, v.taken ++ payload.toList,
      job.backend.lastRecorded (job.step a v.pool).world⟩

/-- **Whoever ends a wait finds the instance waiting,** as it has seen it, and nobody
else has an event in hand. A process with an event in hand goes on to save it, and
nobody else writes in the meantime. -/
def Undisturbed : Action → Pool → Bool
  | .sendEvent signalName _, σ => !job.backend.resumes signalName σ.world || σ.noneHolds
  | .crash i, σ => (σ.processes[i]?).all fun p => !p.phase.holds
  | .work i choice, σ => (σ.processes[i]?).all fun p => match p.phase with
      | .advancing advance => !choice.applies || p.phase.inert job.backend σ.world
          || p.findsWaiting σ.world && σ.noneHolds && advance.isBacked σ.world
      | .waking .. => !choice.applies || p.phase.inert job.backend σ.world
          || p.findsWaiting σ.world && σ.noneHolds
      | .draining _ s _ => !choice.applies || (nextEvent s σ.world).isNone
          || decide (choice = .proceed) && p.findsWaiting σ.world && σ.noneHolds
      | .drained .. => !choice.isCall || decide (choice = .proceed) && p.findsWaiting σ.world
      | .retrying .. | .failing .. | .committing .. | .resolving (_ :: _) _ _ | .completing _ =>
        !choice.applies || σ.noneHolds
      | _ => true
  | _, _ => true

/-- The pool after the submission, with nothing seen yet. -/
def vigil (instanceId : String) (now : Time) : Vigil := ⟨job.start instanceId now, 0, [], none⟩

theorem pool_watch (a : Action) (v : Vigil) : (job.watch a v).pool = job.step a v.pool := by
  unfold watch
  split <;> rfl

variable {job}

/-- A watched pool is a pool. -/
theorem reachable_pool {C : Action → Vigil → Prop} {instanceId : String} {now : Time} {v : Vigil}
    (h : Walk job.watch C (job.vigil instanceId now) v) :
    job.Reachable (fun _ _ => True) instanceId now v.pool := by
  induction h with
  | refl => exact .refl
  | tail a _ _ ih =>
    rw [pool_watch]
    exact .tail a ih trivial

end Submission

/-! ## What a process that ends a wait has seen -/

/-- The wait that an advance ends. -/
def Backend.Advance.Ends (s : WorkflowSnapshot) : Advance → Prop
  | .delay next => ∃ delayId enteredAt wakeAt completed last,
      s.state = .inProgress (.atDelay delayId enteredAt wakeAt (some next)) completed last
  | .delayDone delayId => ∃ enteredAt wakeAt completed last,
      s.state = .inProgress (.atDelay delayId enteredAt wakeAt none) completed last
  | .signal signalId signalName next | .signalTimeout signalId signalName next =>
    ∃ wakeAt completed last,
      s.state = .inProgress (.atSignal signalId signalName wakeAt next) completed last

/-- The process has stored `s`, unless Postgres kept a terminal snapshot. -/
def HasStored (b : Backend) (seen : Option WorkflowSnapshot) (s : WorkflowSnapshot) : Prop :=
  seen = some (b.stored s) ∨ seen.any isTerminal

/-- What a process that is about to end a wait has seen. -/
def Phase.Tracks (b : Backend) (seen : Option WorkflowSnapshot) : Phase → Prop
  | .collecting => b = inMemory
  | .advancing advance => b = inMemory ∧ ∃ s, seen = some s ∧ advance.Ends s
  | .hydrating blob => b = postgres ∧ seen = some blob
  | .waking s next => b = postgres ∧ ∃ blob delayId enteredAt wakeAt completed last outputs,
      seen = some blob
        ∧ blob.state = .inProgress (.atDelay delayId enteredAt wakeAt next) completed last
        ∧ s = woken delayId next (blob.hydrateTaskOutputs outputs)
  | .draining _ s _ => isAtSignal s ∧ HasStored b seen s
  | .drained _ s' _ => ∃ s payload, isAtSignal s ∧ HasStored b seen s
      ∧ s' = leaveDrained payload s
  | _ => True

section tracks

variable {b : Backend} {seen : Option WorkflowSnapshot} {s : WorkflowSnapshot}

theorem ends_collectAdvance {w : PoolWorld} {advance : Advance}
    (h : collectAdvance w = some advance) : ∃ s, w.snapshot = some s ∧ advance.Ends s := by
  unfold collectAdvance at h
  split at h
  · rename_i s hs _
    refine ⟨s, hs, ?_⟩
    split at h
    · rename_i delayId enteredAt wakeAt next completed last hst
      split at h
      · cases next with
        | some t =>
          obtain rfl := Option.some.inj h
          exact ⟨_, _, _, _, _, hst⟩
        | none =>
          obtain rfl := Option.some.inj h
          exact ⟨_, _, _, _, hst⟩
      · cases h
    · rename_i signalId signalName wakeAt next completed last hst
      split at h
      · obtain rfl := Option.some.inj h
        exact ⟨_, _, _, hst⟩
      · split at h
        · obtain rfl := Option.some.inj h
          exact ⟨_, _, _, hst⟩
        · cases h
    · cases h
  · cases h

theorem tracks_dispatchRow (hb : b = postgres) (hs : seen = some s) (now : Time)
    (outputs : TaskId → Option Bytes) :
    (dispatchRow now (s.hydrateTaskOutputs outputs)).Tracks b seen := by
  refine dispatchRow_of trivial (fun delayId enteredAt wakeAt next completed last hst => ?_)
    fun _ _ _ _ _ _ _ => trivial
  obtain ⟨completed', hblob⟩ : ∃ completed', s.state
      = .inProgress (.atDelay delayId enteredAt wakeAt next) completed' last := by
    unfold hydrateTaskOutputs mapOutputs at hst
    cases hs : s.state <;> simp_all
  refine ⟨hb, s, _, _, _, _, _, outputs, hs, hblob, ?_⟩
  cases next <;> rfl

theorem tracks_offer (o : Option AvailableTask) : (offer o).Tracks b seen := by
  cases o <;> trivial

theorem stored_afterSave (s : WorkflowSnapshot) : b.stored (b.afterSave s) = b.stored s := by
  cases b with
  | inMemory => rfl
  | postgres =>
    simp only [stored, afterSave, stripTaskOutputs,
      mapOutputs_clearUnflushed]
    rfl

theorem hasStored_saveSnapshot (w : PoolWorld) (s : WorkflowSnapshot) :
    HasStored b (b.saveSnapshot s w).snapshot (b.afterSave s) := by
  rw [HasStored, stored_afterSave]
  rcases snapshot_saveSnapshot s with h | ⟨-, hterm, h⟩
  · exact .inl h
  · rw [h]
    exact .inr hterm

end tracks

section process

variable [Sha256] {job : Submission} {worker : Worker} {seen : Option WorkflowSnapshot}
  {w w' : PoolWorld} {phase phase' : Phase}

/-- **A step of a process keeps what a process that ends a wait has seen.** -/
theorem tracks_moves (hwrites : Writes job worker phase w w')
    (hm : Moves job worker w w' phase phase') (h : phase.Tracks job.backend seen) :
    phase'.Tracks job.backend (if phase.touchesStore then w'.snapshot else seen) := by
  cases hm with
  | stop | collected | advanced | selected | woke | claimed | guarding | passed
  | stopped | lost | raised | called | beaten | cancelling | retried | failed | checked | cancelled
  | undrained | concluding => trivial
  | collecting hb => exact hb
  | hydrating blob hb hrow =>
    have hblob : w.snapshot = some blob := (Option.filter_eq_some_iff.mp hrow).1
    cases hwrites with
    | nothing => exact ⟨hb, hblob⟩
    | dropped _ hmem => simp [hb] at hmem
  | advancing advance hc hw =>
    obtain ⟨s, hs, he⟩ := ends_collectAdvance hc
    exact ⟨h, s, by simpa [Phase.touchesStore, hw] using hs, he⟩
  | hydrated blob => exact tracks_dispatchRow h.1 h.2 _ _
  | unready | interrupted => exact settleFailure_of trivial fun _ => trivial
  | settled =>
    exact settle_of trivial (fun _ => settleFailure_of trivial fun _ => trivial)
      fun _ _ _ _ => trivial
  | committed task s output hw =>
    rcases saveSnapshotFenced_cases (b := job.backend) (w := w) task.taskId
      worker.id s with hs | hs
    · rw [hs, Prod.mk.injEq] at hw
      simp only [Phase.touchesStore, if_true, ← hw.2]
      exact drain_of (fun hat => ⟨hat, hasStored_saveSnapshot w s⟩) trivial
    · rw [hs, Prod.mk.injEq] at hw
      exact absurd hw.1 (by simp)
  | draining task s output payload =>
    exact ⟨s, payload, h.1, h.2, rfl⟩
  | drained task s output hw =>
    simp only [Phase.touchesStore, if_true, hw]
    exact drain_of (fun hat => ⟨hat, hasStored_saveSnapshot w s⟩) trivial
  | handedBack | resolved | unresolved =>
    exact resolve_of trivial (fun _ _ _ => trivial) fun _ => trivial
  | concluded => exact conclude_of trivial fun _ => trivial

/-- In every state of a pool a process that ends a wait has seen it. -/
theorem tracks_reachable {C : Action → Pool → Prop} {instanceId : String} {now : Time} {σ : Pool}
    (h : job.Reachable C instanceId now σ) :
    ∀ p ∈ σ.processes, p.phase.Tracks job.backend p.seen := by
  refine (Submission.Reachable.invariant h (I := fun _ => True)
    (P := fun _ p => p.phase.Tracks job.backend p.seen) trivial ?_ ?_ ?_ ?_ ?_).2
  · exact fun w worker _ => trivial
  · exact fun w worker hint _ => tracks_offer _
  · exact fun w p _ => trivial
  · exact fun a w w' _ _ => ⟨trivial, fun p hp => hp⟩
  · intro σ i choice p phase' w' _ _ _ hp hwrites hm
    exact ⟨trivial, tracks_moves hwrites hm hp, fun q hq => hq⟩

end process

/-! ## Single steps -/

/-- A task function is called or runs. -/
def Phase.isRun : Phase → Bool
  | .executing _ | .running .. => true
  | _ => false

theorem WorkflowSnapshot.isParked_congr (h : s'.position = s.position) :
    s'.isParked = s.isParked := by
  simp only [isParked, h]

theorem WorkflowSnapshot.isParked_of_position_none (h : s.position = none) :
    s.isParked = false := by
  simp only [isParked, h]

/-! ## After a wait -/

/-- `s'` is what comes after the wait at which `s` stands: the next task, with all results
kept, or the end. -/
def Follows (s s' : WorkflowSnapshot) : Prop :=
  s.isInProgress ∧ match s.position with
    | some (.atDelay _ _ _ (some t)) | some (.atSignal _ _ _ (some t)) =>
      s'.isInProgress ∧ s'.position = some (.atTask t)
        ∧ ∀ t', (s.getTaskResult t').isSome → (s'.getTaskResult t').isSome
    | some (.atDelay _ _ _ none) | some (.atSignal _ _ _ none) => ∃ output, s'.state = .completed output
    | _ => False

section after

variable {b : Backend} {s : WorkflowSnapshot} {signalId delayId key : TaskId} {signalName : String}
  {wakeAt : Option Time} {next last : Option TaskId} {completed : CompletedTasks} {payload : Bytes}
  {enteredAt due : Time}

theorem Follows.isParked (h : Follows s s') : s'.isParked = false := by
  obtain ⟨-, h⟩ := h
  split at h
  · simp [WorkflowSnapshot.isParked, h.2.1]
  · simp [WorkflowSnapshot.isParked, h.2.1]
  · obtain ⟨output, h⟩ := h
    simp [WorkflowSnapshot.isParked, WorkflowSnapshot.position, h]
  · obtain ⟨output, h⟩ := h
    simp [WorkflowSnapshot.isParked, WorkflowSnapshot.position, h]
  · exact h.elim

/-- What is stored of the snapshot after a wait comes after the wait as well. -/
theorem Follows.stored (h : Follows s s') : Follows s (b.stored s') := by
  have hstate : ∀ output, s'.state = .completed output → (b.stored s').state = .completed output := by
    intro output hs
    cases b <;> simp [Backend.stored, stripTaskOutputs, mapOutputs,
      clearUnflushed, hs]
  have hprogress : (b.stored s').isInProgress = s'.isInProgress := by
    cases b <;> simp [Backend.stored, stripTaskOutputs]
  refine ⟨h.1, ?_⟩
  have h := h.2
  split at h
  · exact ⟨hprogress.trans h.1, by simpa using h.2.1, fun t' ht => by
      rw [isSome_getTaskResult_stored]; exact h.2.2 t' ht⟩
  · exact ⟨hprogress.trans h.1, by simpa using h.2.1, fun t' ht => by
      rw [isSome_getTaskResult_stored]; exact h.2.2 t' ht⟩
  · obtain ⟨output, h⟩ := h
    exact ⟨output, hstate output h⟩
  · obtain ⟨output, h⟩ := h
    exact ⟨output, hstate output h⟩
  · exact h.elim

theorem follows_received
    (hst : s.state = .inProgress (.atSignal signalId signalName wakeAt next) completed last) :
    Follows s (received key payload next s) := by
  have hp : s.isInProgress := by simp [isInProgress, hst]
  have hpos : s.position = some (.atSignal signalId signalName wakeAt next) := by
    simp [WorkflowSnapshot.position, hst]
  refine ⟨hp, ?_⟩
  rw [hpos]
  cases next with
  | some t =>
    refine ⟨by simpa [received] using hp, ?_, ?_⟩
    · simp [received, position_updatePosition, hp]
    · intro t' ht
      simp only [received, getTaskResult_updatePosition,
        getTaskResult_markTaskCompleted]
      split
      · rfl
      · exact ht
  | none => exact ⟨payload, rfl⟩

theorem follows_woken {u : WorkflowSnapshot} (hu : u.isInProgress)
    (hresults : ∀ t, (s.getTaskResult t).isSome → (u.getTaskResult t).isSome)
    (hst : s.state = .inProgress (.atDelay delayId enteredAt due next) completed last) :
    Follows s (woken delayId next u) := by
  have hpos : s.position = some (.atDelay delayId enteredAt due next) := by
    simp [WorkflowSnapshot.position, hst]
  refine ⟨by simp [isInProgress, hst], ?_⟩
  rw [hpos]
  cases next with
  | some t =>
    refine ⟨by simpa [woken] using hu, ?_, ?_⟩
    · simp [woken, position_updatePosition, hu]
    · intro t' ht
      simpa [woken] using hresults t' ht
  | none => exact ⟨_, rfl⟩

theorem lastOutput_received
    (hst : s.state = .inProgress (.atSignal signalId signalName wakeAt next) completed last) :
    (received key payload next s).lastOutput = some payload := by
  cases next <;> simp [received, markTaskCompleted, hst,
    updatePosition, lastOutput, getLastTaskOutput,
    markCompleted, markTerminal]

theorem leaveDrained_eq
    (hst : s.state = .inProgress (.atSignal signalId signalName wakeAt next) completed last) :
    leaveDrained payload s = received signalId payload next s := by
  unfold leaveDrained
  rw [hst]
  cases next <;> rfl

theorem leaveSignal_eq [Sha256] :
    World.leaveSignal signalName payload next s
      = received (TaskId.sha256 signalName) payload next s := by
  cases next <;> rfl

/-- Postgres finds the payload in the table of outputs. -/
theorem lastOutput_hydrate_received {outputs : TaskId → Option Bytes}
    (hst : s.state = .inProgress (.atSignal signalId signalName wakeAt next) completed last)
    (ho : next.isSome → outputs key = some payload) :
    ((postgres.stored (received key payload next s)).hydrateTaskOutputs outputs).lastOutput
      = some payload := by
  cases next with
  | some t =>
    simp [received, markTaskCompleted, hst, updatePosition,
      lastOutput, getLastTaskOutput, Backend.stored,
      stripTaskOutputs, mapOutputs,
      clearUnflushed, hydrateTaskOutputs,
      CompletedTasks.lookup_mapOutputs, ho rfl]
  | none =>
    simp [received, markCompleted, markTerminal, hst,
      markTaskCompleted, Backend.stored, stripTaskOutputs,
      mapOutputs, clearUnflushed,
      hydrateTaskOutputs, lastOutput]

end after

theorem findsWaiting_iff {p : Process} {w : PoolWorld} : p.findsWaiting w ↔
    p.seen = w.snapshot ∧ ∃ s, w.snapshot = some s ∧ s.isInProgress ∧ s.isParked := by
  simp only [Process.findsWaiting, isWaiting, Bool.and_eq_true, decide_eq_true_eq,
    Option.any_eq_true]

theorem isAtSignal_iff : isAtSignal s ↔
    ∃ signalId signalName wakeAt next completed last,
      s.state = .inProgress (.atSignal signalId signalName wakeAt next) completed last := by
  unfold isAtSignal
  constructor
  · intro h
    split at h
    · rename_i hst
      exact ⟨_, _, _, _, _, _, hst⟩
    · cases h
  · rintro ⟨signalId, signalName, wakeAt, next, completed, last, hst⟩
    simp [hst]

namespace Submission

section ended

variable {job : Submission} {w : PoolWorld} {p : Process}

/-- A poll in Postgres ends the delay that it has found. -/
theorem left_waking {next : Option TaskId}
    (htracks : (Phase.waking s' next).Tracks job.backend p.seen) (hfinds : p.findsWaiting w) :
    ∃ s, w.snapshot = some s ∧ s.isParked
      ∧ (job.backend.saveSnapshot s' w).snapshot = some (job.backend.stored s')
      ∧ Follows s (job.backend.stored s') := by
  obtain ⟨-, blob, delayId, enteredAt, wakeAt, completed, last, outputs, hseen, hst, rfl⟩ := htracks
  obtain ⟨hfound, s, hs, hp, hparked⟩ := findsWaiting_iff.mp hfinds
  obtain rfl : blob = s := Option.some.inj (hseen.symm.trans (hfound.trans hs))
  refine ⟨blob, hs, hparked, snapshot_saveSnapshot_of_isInProgress hs hp _, Follows.stored ?_⟩
  refine follows_woken ?_ ?_ hst
  · simpa [hydrateTaskOutputs] using hp
  · intro t ht
    simpa [hydrateTaskOutputs, getTaskResult_mapOutputs] using ht

/-- A worker saves the event that it has taken. -/
theorem left_drained {task : AvailableTask} {output : Bytes}
    (htracks : (Phase.drained task s' output).Tracks job.backend p.seen)
    (hfinds : p.findsWaiting w) :
    ∃ s, w.snapshot = some s ∧ s.isParked
      ∧ (job.backend.saveSnapshot s' w).snapshot = some (job.backend.stored s')
      ∧ s'.isParked = false
      ∧ job.backend.lastRecorded (job.backend.saveSnapshot s' w) = s'.lastOutput := by
  obtain ⟨s₀, payload, hat, -, rfl⟩ := htracks
  obtain ⟨hfound, s, hs, hp, hparked⟩ := findsWaiting_iff.mp hfinds
  obtain ⟨signalId, signalName, wakeAt, next, completed, last, hst⟩ := isAtSignal_iff.mp hat
  rw [leaveDrained_eq hst, lastOutput_received hst]
  have hsaved := snapshot_saveSnapshot_of_isInProgress (b := job.backend) hs hp
    (received signalId payload next s₀)
  refine ⟨s, hs, hparked, hsaved, (follows_received hst).isParked, ?_⟩
  rw [lastRecorded, hsaved, Option.bind_some]
  cases hb : job.backend with
  | inMemory => exact lastOutput_received hst
  | postgres =>
    refine lastOutput_hydrate_received hst fun hnext => ?_
    obtain ⟨t, rfl⟩ := Option.isSome_iff_exists.mp hnext
    rcases outputs_saveSnapshot (b := postgres) (w := w) (received signalId payload (some t) s₀)
      with ⟨-, hlast⟩ | ⟨-, -, t', hlast, hout⟩
    · have := hlast rfl (by simp [received, markTaskCompleted, hst])
      simp [received, markTaskCompleted, hst, updatePosition,
        lastCompletedTaskId] at this
    · obtain rfl : signalId = t' := by
        simpa [received, markTaskCompleted, hst, updatePosition,
          lastCompletedTaskId] using hlast
      rw [hout]
      simp [received, getTaskResultBytes, getTaskResult_markTaskCompleted,
        isInProgress, hst]

variable (job) in
/-- An event resumes an instance that waits for it. -/
theorem left_sendEvent {signalName : String} (payload : Bytes)
    (h : job.backend.resumes signalName w) :
    ∃ s s', w.snapshot = some s ∧ s.isParked
      ∧ (job.backend.sendEvent signalName payload w).snapshot = some s' ∧ Follows s s'
      ∧ job.backend.lastRecorded (job.backend.sendEvent signalName payload w) = some payload := by
  simp only [resumes, Bool.and_eq_true, decide_eq_true_eq, Option.any_eq_true] at h
  obtain ⟨hb, s, hs, h⟩ := h
  split at h
  · rename_i signalId awaited wakeAt next completed last hst
    obtain rfl : awaited = signalName := by simpa using h
    have hsend : job.backend.sendEvent awaited payload w = { w with
        snapshot := some (job.backend.stored (received signalId payload next s))
        outputs := Function.update w.outputs signalId (some payload)
        trace := w.trace ++ [.signalled signalId] } := by
      rw [hb]
      unfold sendEvent
      rw [hs]
      dsimp only
      rw [hst]
      dsimp only
      rw [if_pos rfl]
      cases next <;> rfl
    rw [hsend]
    refine ⟨s, _, hs, ?_, rfl, (follows_received hst).stored, ?_⟩
    · simp [WorkflowSnapshot.isParked, WorkflowSnapshot.position, hst]
    · rw [hb]
      exact lastOutput_hydrate_received hst fun _ => Function.update_self ..
  · cases h

end ended

variable [Sha256] {job : Submission} {worker : Worker} {phase : Phase} {choice : Choice}
  {w : PoolWorld} {σ : Pool} {i : ℕ} {p : Process} {a : Action}

theorem step_work (hi : σ.processes[i]? = some p) (choice : Choice) :
    job.step (.work i choice) σ = { σ with
      world := (job.phaseStep p.worker choice p.phase σ.world).2
      processes := σ.processes.set i ⟨p.worker, (job.phaseStep p.worker choice p.phase σ.world).1,
        if choice.isCall && p.phase.touchesStore
          then (job.phaseStep p.worker choice p.phase σ.world).2.snapshot else p.seen⟩ } := by
  unfold step
  dsimp only
  rw [hi]
  rfl

/-- Outside of a task function a choice only says whether the call is made. -/
theorem phaseStep_snd (hrun : phase.isRun = false) :
    (job.phaseStep worker choice phase w).2
      = if choice.applies then (job.call worker phase w).2 else w := by
  cases choice with
  | proceed => rfl
  | lost applied => cases phase <;> cases applied <;> first | rfl | cases hrun
  | raise e => cases phase <;> first | rfl | cases hrun
  | heartbeat readFails extendFails => cases phase <;> first | rfl | cases hrun

variable (job worker phase w) in
/-- What a poll writes without effect leaves the instance alone. -/
theorem snapshot_call_of_inert (h : phase.inert job.backend w) :
    (job.call worker phase w).2.snapshot = w.snapshot := by
  unfold Phase.inert at h
  split at h
  · rename_i next
    cases hs : w.snapshot with
    | none => simp [call, applyAdvance, hs]
    | some s =>
      simp only [hs, Option.all_some, Bool.or_eq_true, Bool.not_eq_true', decide_eq_true_eq] at h
      have hsame : s.updatePosition (.atTask next) = s := by
        obtain ⟨instanceId, hash, state, input, deadline, retries, loops, priority, tags, flag⟩ := s
        cases state <;> simp_all [updatePosition, isInProgress,
          WorkflowSnapshot.position]
      simp [call, applyAdvance, hs, hsame]
  · rename_i signalId signalName next
    cases hs : w.snapshot with
    | none => simp [call, applyAdvance, hs]
    | some s =>
      simp only [hs, Option.all_some, Bool.not_eq_true'] at h
      have hsame : World.leaveSignal signalName [] (some next) s = s := by
        obtain ⟨instanceId, hash, state, input, deadline, retries, loops, priority, tags, flag⟩ := s
        cases state <;> simp_all [World.leaveSignal, markTaskCompleted,
          updatePosition, isInProgress]
      simp [call, applyAdvance, hs, hsame]
  · rename_i s next
    have hcall : (job.call worker (.waking s next) w).2 = job.backend.saveSnapshot s w := rfl
    rw [hcall]
    rcases saveSnapshot_cases (b := job.backend) (w := w) s with ⟨hs, -⟩ | ⟨-, -, hs, -⟩
    · simp only [Bool.or_eq_true, Bool.and_eq_true, decide_eq_true_eq] at h
      rcases h with ⟨hb, hterm⟩ | h
      · -- Postgres does not overwrite a terminal snapshot
        rw [hb] at hs ⊢
        simp only [saveSnapshot, storeBlob, hterm, if_true]
        unfold shipOutput
        split <;> rfl
      · rw [hs, h]
    · exact hs
  · cases h

/-- An instance comes to wait only by what a process stores. -/
theorem isParked_of_stores {w' : PoolWorld} (h : Stores job phase w w')
    (hsaved : phase.toStore ≠ none →
      w'.snapshot.any WorkflowSnapshot.isParked → w'.snapshot = w.snapshot)
    (hadvanced : ∀ advance, phase = .advancing advance → w'.snapshot = w.snapshot)
    (hparked : w'.snapshot.any WorkflowSnapshot.isParked) :
    w.snapshot.any WorkflowSnapshot.isParked := by
  cases h with
  | kept hs => rwa [hs] at hparked
  | saved s hs => rwa [hsaved (by simp [hs]) hparked] at hparked
  | advanced advance hp => rwa [hadvanced advance hp] at hparked
  | cancelled s request taskId hs hp h =>
    rw [h, Option.any_some, isParked_of_position_none
      (position_markCancelled request taskId)] at hparked
    cases hparked
  | paused s request hs hp h =>
    rw [h, Option.any_some,
      isParked_congr (position_markPaused request)] at hparked
    simpa [hs] using hparked

/-- Without an effect on the wait an instance does not come to wait. -/
theorem isParked_of_nothing (h : job.waitEffect a σ = .nothing)
    (hparked : (job.step a σ).world.snapshot.any WorkflowSnapshot.isParked) :
    σ.world.snapshot.any WorkflowSnapshot.isParked := by
  cases a with
  | work i choice =>
    cases hi : σ.processes[i]? with
    | none => simpa [step, hi] using hparked
    | some p =>
      rw [step_work hi] at hparked
      simp only [waitEffect, hi] at h
      cases hrun : p.phase.isRun with
      | true =>
        refine isParked_of_stores (writes_phaseStep job choice).stores ?_ ?_ hparked
        all_goals cases hp : p.phase <;> simp_all [Phase.isRun, Phase.toStore]
      | false =>
        rw [phaseStep_snd hrun] at hparked
        cases ha : choice.applies with
        | false => simpa [ha] using hparked
        | true =>
          simp only [ha, if_true] at h hparked
          have hinert := snapshot_call_of_inert job p.worker p.phase σ.world
          refine isParked_of_stores (writes_call job).stores ?_ ?_ hparked
          · intro hstore hparked'
            cases hp : p.phase with
            | waking s next =>
              rw [hp] at h hinert
              simp only [callEffect] at h
              split at h
              · exact hinert (by assumption)
              · cases h
            | resolving saves result output =>
              rw [hp] at h hstore hparked'
              cases saves with
              | nil => exact absurd rfl hstore
              | cons s saves => simp [callEffect, hparked'] at h
            | drained task s output => simp [hp, callEffect] at h
            | retrying | failing | committing | completing =>
              rw [hp] at h hparked'
              simp [callEffect, hparked'] at h
            | _ => simp [hp, Phase.toStore] at hstore
          · intro advance hp
            rw [hp] at h hinert ⊢
            simp only [callEffect] at h
            split at h
            · exact hinert (by assumption)
            · cases h
  | sendEvent signalName payload =>
    have hr : job.backend.resumes signalName σ.world = false := by
      cases hr : job.backend.resumes signalName σ.world with
      | false => rfl
      | true => simp [waitEffect, hr] at h
    have hstep : (job.step (.sendEvent signalName payload) σ).world
        = job.backend.sendEvent signalName payload σ.world := rfl
    rw [hstep] at hparked
    rcases sendEvent_cases (b := job.backend) (w := σ.world) signalName payload with
      heq | ⟨hb, s, signalId, wakeAt, next, completed, last, hs, hst, -⟩
    · rwa [heq] at hparked
    · simp [resumes, hb, hs, hst] at hr
  | unpause =>
    have hstep : (job.step .unpause σ).world.snapshot = σ.world.toWorld.unpause.2.snapshot := rfl
    rw [hstep] at hparked
    rcases World.unpause_cases σ.world.toWorld with heq | ⟨s, hs, heq⟩
    · rwa [heq] at hparked
    · rw [heq, Option.any_some,
        isParked_congr position_markUnpaused] at hparked
      simpa [hs] using hparked
  | request kind request =>
    have hsame : (job.step (.request kind request) σ).world.snapshot = σ.world.snapshot := by
      unfold step
      dsimp only
      split
      · rfl
      · cases kind <;> rfl
      · rfl
    rwa [hsame] at hparked
  | insertRequest i =>
    have hsame : (job.step (.insertRequest i) σ).world.snapshot = σ.world.snapshot := by
      unfold step
      dsimp only
      split
      · rfl
      · rename_i kind request _
        cases kind <;> rfl
    rwa [hsame] at hparked
  | crash i =>
    have hsame : (job.step (.crash i) σ).world.snapshot = σ.world.snapshot := by
      unfold step
      dsimp only
      split <;> rfl
    rwa [hsame] at hparked
  | tick | poll | hinted => exact hparked

/-- A poll in memory ends the wait that it has found. -/
theorem left_advancing {advance : Advance}
    (htracks : (Phase.advancing advance).Tracks job.backend p.seen) (hfinds : p.findsWaiting w)
    (hbacked : advance.isBacked w) :
    ∃ s s', w.snapshot = some s ∧ s.isParked ∧ (applyAdvance advance w).snapshot = some s'
      ∧ Follows s s' ∧ ∀ signalId signalName next, advance = .signal signalId signalName next →
        ∃ payload rest, w.events signalName = payload :: rest
          ∧ (applyAdvance advance w).events = Function.update w.events signalName rest
          ∧ job.backend.lastRecorded (applyAdvance advance w) = some payload := by
  obtain ⟨hb, s, hseen, hends⟩ := htracks
  obtain ⟨hfound, s', hs, hp, hparked⟩ := findsWaiting_iff.mp hfinds
  obtain rfl : s = s' := Option.some.inj (hseen.symm.trans (hfound.trans hs))
  refine ⟨s, ?_⟩
  cases advance with
  | delay next =>
    obtain ⟨delayId, enteredAt, wakeAt, completed, last, hst⟩ := hends
    exact ⟨woken delayId (some next) s, hs, hparked, by simp [applyAdvance, hs, woken],
      follows_woken hp (fun _ h => h) hst, fun _ _ _ h => by cases h⟩
  | delayDone delayId =>
    obtain ⟨enteredAt, wakeAt, completed, last, hst⟩ := hends
    exact ⟨woken delayId none s, hs, hparked, by simp [applyAdvance, hs, woken],
      follows_woken hp (fun _ h => h) hst, fun _ _ _ h => by cases h⟩
  | signal signalId signalName next =>
    obtain ⟨wakeAt, completed, last, hst⟩ := hends
    obtain ⟨payload, rest, he⟩ : ∃ payload rest, w.events signalName = payload :: rest :=
      List.exists_cons_of_ne_nil (by simpa [Advance.isBacked] using hbacked)
    have happly : (applyAdvance (.signal signalId signalName next) w).snapshot
        = some (received (TaskId.sha256 signalName) payload next s) := by
      simp [applyAdvance, hs, he, leaveSignal_eq]
    refine ⟨_, hs, hparked, happly, follows_received hst, ?_⟩
    rintro _ _ _ ⟨⟩
    refine ⟨payload, rest, he, by simp [applyAdvance, he], ?_⟩
    rw [lastRecorded, happly, Option.bind_some, hb]
    exact lastOutput_received hst
  | signalTimeout signalId signalName next =>
    obtain ⟨wakeAt, completed, last, hst⟩ := hends
    exact ⟨received (TaskId.sha256 signalName) [] next s, hs, hparked,
      by simp [applyAdvance, hs, leaveSignal_eq], follows_received hst, fun _ _ _ h => by cases h⟩

end Submission

end Sayiir
