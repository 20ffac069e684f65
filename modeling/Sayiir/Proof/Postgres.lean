import Sayiir.Persistence.Postgres
import Sayiir.Runtime.Pool

/-!
# Rows and leases of the Postgres backend

Two properties of the Postgres backend that hold whatever its callers do. A row that
has become terminal keeps its outcome: eight methods write the row, each under a
guard of its own, and every one of them leaves a terminal row as it is. And a claim
is a lease: the abstract `Lease` is read off the answers that the callers got, and
the claim row of the instance is the lease in every state.
-/

namespace Sayiir

open Backend WorkflowSnapshot

variable {t : Tenure} {o : Verdict}

/-! ## Outcomes -/

/-- What is final about a terminal snapshot. -/
inductive Verdict where
  | completed (finalOutput : Bytes)
  | failed (error : RuntimeError)
  | cancelled (reason cancelledBy : Option String) (completedTasks : List TaskId)
      (interruptedAtTask : Option TaskId)
  deriving DecidableEq

namespace WorkflowSnapshot

/-- The outcome of an instance that has one. -/
def outcome (s : WorkflowSnapshot) : Option Verdict :=
  match s.state with
  | .completed finalOutput => some (.completed finalOutput)
  | .failed error => some (.failed error)
  | .cancelled reason cancelledBy completed interruptedAtTask =>
    some (.cancelled reason cancelledBy completed.keys interruptedAtTask)
  | .inProgress .. | .paused .. => none

variable {s : WorkflowSnapshot}

theorem isTerminal_iff_outcome : s.isTerminal ↔ ∃ o, s.outcome = some o := by
  unfold isTerminal outcome
  cases s.state <;> simp

/-- The outcome does not hang on the outputs of single tasks. -/
@[simp] theorem outcome_mapOutputs (f : TaskId → Bytes → Bytes) :
    (s.mapOutputs f).outcome = s.outcome := by
  unfold mapOutputs outcome
  cases hs : s.state <;>
    simp [hs, CompletedTasks.mapOutputs, AList.keys, List.keys, Function.comp_def]

@[simp] theorem outcome_stored (b : Backend) : (b.stored s).outcome = s.outcome := by
  cases b with
  | inMemory => rfl
  | postgres => exact outcome_mapOutputs _

/-- Nothing but a snapshot in progress records a result. -/
theorem markTaskCompleted_of_outcome (h : s.outcome = some o) (taskId : TaskId)
    (output : Bytes) : s.markTaskCompleted taskId output = s := by
  unfold outcome at h
  unfold markTaskCompleted
  cases hs : s.state <;> simp_all

theorem isInProgress_of_outcome (h : s.outcome = some o) : s.isInProgress = false := by
  unfold outcome at h
  unfold isInProgress
  cases hs : s.state <;> simp_all

theorem markUnpaused_of_outcome (h : s.outcome = some o) : s.markUnpaused = s := by
  unfold outcome at h
  unfold markUnpaused
  cases hs : s.state <;> simp_all

end WorkflowSnapshot

namespace Postgres

variable {w : PoolWorld}

/-- The outcome of the stored instance. -/
def outcome (w : PoolWorld) : Option Verdict := w.snapshot.bind WorkflowSnapshot.outcome

theorem outcome_loadSnapshot : (loadSnapshot w).bind WorkflowSnapshot.outcome = outcome w := by
  unfold loadSnapshot outcome
  cases w.snapshot with
  | none => rfl
  | some s => exact WorkflowSnapshot.outcome_mapOutputs _

theorem exists_of_outcome (h : outcome w = some o) :
    ∃ s, w.snapshot = some s ∧ s.outcome = some o := Option.bind_eq_some_iff.mp h

theorem outcome_saveSnapshot (h : outcome w = some o) (s : WorkflowSnapshot) :
    outcome (postgres.saveSnapshot s w) = some o := by
  obtain ⟨stored, hs, ho⟩ := exists_of_outcome h
  have hterm : w.snapshot.any WorkflowSnapshot.isTerminal := by
    rw [hs]
    exact WorkflowSnapshot.isTerminal_iff_outcome.mpr ⟨o, ho⟩
  have hkept : (postgres.saveSnapshot s w).snapshot = w.snapshot := by
    unfold Backend.saveSnapshot shipOutput storeBlob
    dsimp only
    rw [if_pos hterm]
    split <;> rfl
  unfold outcome
  rw [hkept]
  exact h

theorem checkAnd_of_outcome (h : outcome w = some o) (kind : SignalKind)
    (request : Option SignalRequest) (mark : SignalRequest → WorkflowSnapshot → WorkflowSnapshot) :
    (checkAnd kind request mark w).2 = w := by
  obtain ⟨stored, hs, ho⟩ := exists_of_outcome h
  rcases checkAnd_cases (w := w) kind request mark with hc | ⟨s, r, hs', hp, -⟩
  · rw [hc]
  · rw [hs] at hs'
    cases hs'
    simp [isInProgress_of_outcome ho] at hp

/-- **One call keeps an outcome**, unless it deletes the instance. -/
theorem outcome_run {c : Call} (hc : c ≠ .deleteSnapshot) (h : outcome w = some o) :
    outcome (run c w).2 = some o := by
  have keep : ∀ {w' : PoolWorld}, w'.snapshot = w.snapshot → outcome w' = some o := by
    intro w' hw
    unfold outcome
    rw [hw]
    exact h
  obtain ⟨s, hs, ho⟩ := exists_of_outcome h
  cases c with
  | tick d => exact keep rfl
  | claimTask taskId workerId expiresAt locked =>
    refine keep ?_
    simp only [run, claimTask]
    split
    · rfl
    · rw [hs]
      exact hs
  | extendTaskClaim taskId workerId ttl =>
    obtain ⟨claims, hw⟩ := extendTaskClaim_cases (b := postgres) (w := w) taskId
      workerId ttl
    exact keep (by simp only [run]; rw [hw])
  | releaseTaskClaim taskId workerId =>
    obtain ⟨claims, hw⟩ := releaseTaskClaim_cases (b := postgres) (w := w) taskId
      workerId
    exact keep (by simp only [run]; rw [hw])
  | saveSnapshot s' => exact outcome_saveSnapshot h s'
  | saveSnapshotFenced s' taskId workerId =>
    rcases saveSnapshotFenced_cases (b := postgres) (w := w) taskId
      workerId s' with hw | hw
    · simp only [run]
      rw [hw]
      exact outcome_saveSnapshot h s'
    · exact keep (by simp only [run]; rw [hw])
  | saveTaskResult taskId output =>
    simp only [run, saveTaskResult, loadSnapshot, hs, Option.map_some]
    -- the result is not recorded, and the blob is written back as it was
    have ho' : (s.hydrateTaskOutputs w.outputs).outcome = some o := by
      rw [hydrateTaskOutputs, WorkflowSnapshot.outcome_mapOutputs, ho]
    rw [markTaskCompleted_of_outcome ho']
    simpa [outcome] using ho'
  | storeSignal kind request =>
    refine keep ?_
    simp only [run, storeSignal]
    split
    · rfl
    · cases kind <;> rfl
  | clearSignal kind => exact keep (by cases kind <;> rfl)
  | insertEvent signalName payload => exact keep rfl
  | resumeEvent signalName payload =>
    rcases sendEvent_cases (b := postgres) (w := w) signalName payload with
      hw | ⟨-, s', signalId, wakeAt, next, completed, last, hs', hst, -⟩
    · exact keep (by simp only [run]; rw [hw]; rfl)
    · rw [hs] at hs'
      cases hs'
      simp [WorkflowSnapshot.outcome, hst] at ho
  | consumeEvent signalName =>
    refine keep ?_
    simp only [run, Backend.consumeEvent]
    split <;> rfl
  | checkAndCancel interruptedAtTask => exact keep (by rw [run, checkAndCancel, checkAnd_of_outcome h])
  | checkAndPause => exact keep (by rw [run, checkAndPause, checkAnd_of_outcome h])
  | unpause =>
    refine keep ?_
    simp only [run, Backend.unpause]
    rcases w.toWorld.unpause_cases with hw | ⟨s', hs', hw⟩
    · rw [hw]
    · rw [hs] at hs'
      cases hs'
      rw [hw, markUnpaused_of_outcome ho]
      exact hs.symm
  | selectRow workerTags => exact h
  | findHintedTask hint => exact h
  | loadSnapshot => exact h
  | deleteSnapshot => exact absurd rfl hc

theorem outcome_runAll {calls : List Call} (hc : ∀ c ∈ calls, c ≠ .deleteSnapshot)
    (h : outcome w = some o) : outcome (runAll calls w) = some o := by
  induction calls generalizing w with
  | nil => exact h
  | cons c calls ih =>
    exact ih (fun c' hc' => hc c' (List.mem_cons_of_mem _ hc'))
      (outcome_run (hc c List.mem_cons_self) h)

/-- A poll finds no row of an instance that has an outcome. -/
theorem selectRow_of_outcome (h : outcome w = some o) (tags : List String) :
    selectRow tags w = none := by
  obtain ⟨s, hs, ho⟩ := exists_of_outcome h
  have hp := isInProgress_of_outcome ho
  unfold selectRow
  rw [hs, Option.filter_eq_none_iff]
  intro s' hs' hsel
  cases hs'
  unfold isInProgress at hp
  cases hst : s.state <;> simp_all

theorem findHintedTask_of_outcome (h : outcome w = some o) (hint : TaskId) :
    postgres.findHintedTask hint w = none := by
  obtain ⟨s, hs, ho⟩ := exists_of_outcome h
  have hp := isInProgress_of_outcome ho
  have hbuild : PoolWorld.buildAvailableTask (s.hydrateTaskOutputs w.outputs) hint = none := by
    cases hb : PoolWorld.buildAvailableTask (s.hydrateTaskOutputs w.outputs) hint with
    | none => rfl
    | some task =>
      have hin := (buildAvailableTask_eq_some hb).2.2.1
      rw [hydrateTaskOutputs, isInProgress_mapOutputs, hp] at hin
      cases hin
  unfold findHintedTask
  simp only [hs, hbuild, ite_self]

/--
**A terminal row is final.** Once the row of an instance is completed, failed or
cancelled, no sequence of calls other than one that deletes it changes the status,
the output, the error, the cancellation or the set of completed tasks that
`load_snapshot` returns, and no later poll or hint offers a task of it.
-/
theorem terminal_row_is_final [Sha256] (w : PoolWorld) (s : WorkflowSnapshot)
    (hs : w.snapshot = some s) (hterm : s.isTerminal) (calls : List Call)
    (hcalls : ∀ c ∈ calls, c ≠ .deleteSnapshot) :
    (∃ s' o, loadSnapshot (runAll calls w) = some s' ∧ s'.outcome = some o
        ∧ (loadSnapshot w).bind WorkflowSnapshot.outcome = some o)
      ∧ ∀ job : Submission, job.backend = postgres →
          (∀ worker, job.call worker .polling (runAll calls w) = (.done, runAll calls w))
          ∧ ∀ hint, job.backend.findHintedTask hint (runAll calls w) = none := by
  obtain ⟨o, ho⟩ := WorkflowSnapshot.isTerminal_iff_outcome.mp hterm
  have hw : outcome w = some o := by
    unfold outcome
    rw [hs]
    exact ho
  have hw' := outcome_runAll hcalls hw
  refine ⟨?_, fun job hb => ⟨fun worker => ?_, fun hint => ?_⟩⟩
  · rw [← outcome_loadSnapshot] at hw'
    obtain ⟨s', hs', ho'⟩ := Option.bind_eq_some_iff.mp hw'
    exact ⟨s', o, hs', ho', outcome_loadSnapshot.trans hw⟩
  · simp only [Submission.call, hb, selectRow_of_outcome hw']
  · rw [hb]
    exact findHintedTask_of_outcome hw' hint

section sample

attribute [local instance] Sha256.packed

/-- An instance that was cancelled at its first task. -/
def cancelledRow : PoolWorld where
  toWorld := { World.fresh "i" 0 with
    snapshot := some ((withInitialInput "i" ⟨0⟩ [7]).markCancelled
      ⟨some "stop", none⟩ (some (TaskId.sha256 "t"))) }
  claims := []
  outputs := fun _ => none

/-- What may still arrive when an instance has been cancelled. -/
def lateCalls : List Call :=
  [.saveTaskResult (TaskId.sha256 "t") [1],
    .saveSnapshot ((withInitialInput "i" ⟨0⟩ [7]).markCompleted [1]),
    .resumeEvent "go" [2], .checkAndPause, .unpause]

/-- The calls of a worker that has not noticed the cancellation change nothing. -/
theorem terminal_row_is_final_late_calls :
    (∃ s' o, loadSnapshot (runAll lateCalls cancelledRow) = some s' ∧ s'.outcome = some o
        ∧ (loadSnapshot cancelledRow).bind WorkflowSnapshot.outcome = some o)
      ∧ ∀ job : Submission, job.backend = postgres →
          (∀ worker, job.call worker .polling (runAll lateCalls cancelledRow)
            = (.done, runAll lateCalls cancelledRow))
          ∧ ∀ hint, job.backend.findHintedTask hint (runAll lateCalls cancelledRow) = none :=
  terminal_row_is_final cancelledRow _ rfl rfl lateCalls (by decide)

end sample

/-! ## Leases -/

/-- What the answers given so far say about the claim of an instance: who was granted
it last, for which task, and when it expires unless it is renewed. -/
structure Lease where
  taskId : TaskId
  workerId : String
  expiresAt : Option Time
  deriving DecidableEq

namespace Lease

/-- The expiry has not passed. -/
def isLive (now : Time) (l : Lease) : Bool := l.expiresAt.all fun t => decide (now < t)

/-- The lease of this worker on this task. -/
def isOf (taskId : TaskId) (workerId : String) (l : Lease) : Bool :=
  decide (l.taskId = taskId) && decide (l.workerId = workerId)

/-- The lease after a call at time `now` that was answered in this way. A granted claim
starts a lease, a release by its owner ends it and an extension by its owner renews it. -/
def next (now : Time) : Call → Answer → Option Lease → Option Lease
  | .claimTask taskId workerId expiresAt _, .claim (.ok (some _)), _ =>
    some ⟨taskId, workerId, expiresAt⟩
  | .releaseTaskClaim taskId workerId, .result (.ok ()), lease =>
    lease.filter fun l => !l.isOf taskId workerId
  | .extendTaskClaim taskId workerId ttl, .result (.ok ()), lease =>
    lease.map fun l =>
      if l.isOf taskId workerId then { l with expiresAt := l.expiresAt.map fun _ => now + ttl }
      else l
  | _, _, lease => lease

def toClaim (l : Lease) : TaskClaim := ⟨l.taskId, l.workerId, l.expiresAt⟩

end Lease

/-- A world together with the lease that its callers know of. -/
structure Tenure where
  world : PoolWorld
  lease : Option Lease

/-- Make a call and take note of its answer. -/
def observe (c : Call) (t : Tenure) : Tenure where
  world := (run c t.world).2
  lease := Lease.next t.world.clock c (run c t.world).1 t.lease

def observeAll (calls : List Call) (t : Tenure) : Tenure := calls.foldl (fun t c => observe c t) t

/-- The claim row is the lease, and an instance with a lease exists. -/
structure Tenure.Kept (t : Tenure) : Prop where
  row : t.world.claims = (t.lease.map Lease.toClaim).toList
  exists_ : t.lease.isSome → t.world.snapshot.isSome

namespace Tenure.Kept

variable {t : Tenure}

/-- A claim row that is not expired is a live lease. -/
theorem isExpired_toClaim (now : Time) (l : Lease) :
    postgres.isExpired now l.toClaim = !l.isLive now := by
  unfold Backend.isExpired Lease.isLive Lease.toClaim
  cases l.expiresAt with
  | none => rfl
  | some time =>
    simp only [Option.any_some, Option.all_some]
    rw [← decide_not]
    simp only [not_lt]

/-- A call that keeps the claims and the instance, and whose answer says nothing about
the lease, keeps the connection. -/
theorem of_frame {w' : PoolWorld} (h : t.Kept) (hc : w'.claims = t.world.claims)
    (hs : t.world.snapshot.isSome → w'.snapshot.isSome) : Tenure.Kept ⟨w', t.lease⟩ :=
  ⟨hc.trans h.row, fun hl => hs (h.exists_ hl)⟩

theorem ownClaim_eq_ok (h : t.Kept) {taskId : TaskId} {workerId : String} {claim : TaskClaim}
    (ho : postgres.ownClaim taskId workerId t.world = .ok claim) :
    ∃ l, t.lease = some l ∧ l.isOf taskId workerId := by
  unfold ownClaim findClaim at ho
  rw [h.row] at ho
  cases hl : t.lease with
  | none => simp [hl] at ho
  | some l =>
    refine ⟨l, rfl, ?_⟩
    simp only [hl, Option.map_some, Option.toList_some, List.head?_cons, Lease.toClaim] at ho
    split at ho
    · cases ho
    · split at ho
      · cases ho
      · rename_i hworker htask
        simp only [not_not] at hworker htask
        simp [Lease.isOf, hworker, htask]

theorem extend (h : t.Kept) (taskId : TaskId) (workerId : String) (ttl : Duration) :
    (observe (.extendTaskClaim taskId workerId ttl) t).Kept := by
  unfold observe
  simp only [run, Backend.extendTaskClaim]
  cases ho : postgres.ownClaim taskId workerId t.world with
  | error e => exact h.of_frame rfl id
  | ok claim =>
    obtain ⟨l, hl, hown⟩ := h.ownClaim_eq_ok ho
    have htask : l.taskId = taskId := by
      simp only [Lease.isOf, Bool.and_eq_true, decide_eq_true_eq] at hown
      exact hown.1
    refine ⟨?_, fun _ => h.exists_ (by simp [hl])⟩
    simp only [Lease.next, hl, h.row, Option.map_some, Option.toList_some, List.map_cons,
      List.map_nil, hown, if_true]
    simp [Lease.toClaim, htask, Backend.expiry]

theorem release (h : t.Kept) (taskId : TaskId) (workerId : String) :
    (observe (.releaseTaskClaim taskId workerId) t).Kept := by
  unfold observe
  simp only [run, Backend.releaseTaskClaim]
  cases ho : postgres.ownClaim taskId workerId t.world with
  | error e => exact h.of_frame rfl id
  | ok claim =>
    obtain ⟨l, hl, hown⟩ := h.ownClaim_eq_ok ho
    have htask : l.taskId = taskId := by
      simp only [Lease.isOf, Bool.and_eq_true, decide_eq_true_eq] at hown
      exact hown.1
    refine ⟨?_, fun hsome => ?_⟩
    · simp [Lease.next, hl, h.row, hown, Lease.toClaim, htask, Option.filter]
    · simp [Lease.next, hl, hown, Option.filter] at hsome

theorem claim (h : t.Kept) (taskId : TaskId) (workerId : String) (expiresAt : Option Time)
    (locked : Bool) : (observe (.claimTask taskId workerId expiresAt locked) t).Kept := by
  unfold observe
  simp only [run, Postgres.claimTask]
  split
  · rename_i hclaim
    refine ⟨rfl, fun _ => ?_⟩
    simp only [Bool.and_eq_true, claimable] at hclaim
    cases hs : t.world.snapshot with
    | none => simp [hs] at hclaim
    | some s => rfl
  · split <;> exact h.of_frame rfl id

end Tenure.Kept

/-- **One call keeps the claim row and the lease together.** -/
theorem kept_observe {c : Call} (hc : c ≠ .deleteSnapshot) (h : t.Kept) :
    (observe c t).Kept := by
  cases c with
  | claimTask taskId workerId expiresAt locked => exact h.claim taskId workerId expiresAt locked
  | extendTaskClaim taskId workerId ttl => exact h.extend taskId workerId ttl
  | releaseTaskClaim taskId workerId => exact h.release taskId workerId
  | tick d => exact h.of_frame rfl id
  | saveSnapshot s => exact h.of_frame (saveSnapshot_frame s).1 fun _ => isSome_snapshot_saveSnapshot s
  | saveSnapshotFenced s taskId workerId =>
    unfold observe
    simp only [run]
    rcases saveSnapshotFenced_cases (b := postgres) (w := t.world) taskId
      workerId s with hw | hw
    · rw [hw]
      exact h.of_frame (saveSnapshot_frame s).1 fun _ => isSome_snapshot_saveSnapshot s
    · rw [hw]
      exact h.of_frame rfl id
  | saveTaskResult taskId output =>
    unfold observe
    simp only [run, Postgres.saveTaskResult]
    split
    · exact h.of_frame rfl id
    · exact h.of_frame rfl fun _ => rfl
  | storeSignal kind request =>
    unfold observe
    simp only [run, Postgres.storeSignal]
    split
    · exact h.of_frame rfl id
    · cases kind <;> exact h.of_frame rfl id
  | clearSignal kind => cases kind <;> exact h.of_frame rfl id
  | insertEvent signalName payload => exact h.of_frame rfl id
  | resumeEvent signalName payload =>
    unfold observe
    simp only [run]
    rcases sendEvent_cases (b := postgres) (w := t.world) signalName payload with
      hw | ⟨-, s, signalId, wakeAt, next, completed, last, hs, hst, hw⟩
    · rw [hw]
      exact h.of_frame rfl id
    · rw [hw]
      exact h.of_frame rfl fun _ => rfl
  | consumeEvent signalName =>
    unfold observe
    simp only [run, Backend.consumeEvent]
    split <;> exact h.of_frame rfl id
  | checkAndCancel interruptedAtTask =>
    unfold observe
    simp only [run, Postgres.checkAndCancel]
    rcases checkAnd_cases (w := t.world) .cancel t.world.cancelSignal
      (fun request s => s.markCancelled request interruptedAtTask) with hw | ⟨s, r, hs, -, hw⟩
    · rw [hw]
      exact h.of_frame rfl id
    · rw [hw]
      exact h.of_frame rfl fun _ => rfl
  | checkAndPause =>
    unfold observe
    simp only [run, Postgres.checkAndPause]
    rcases checkAnd_cases (w := t.world) .pause t.world.pauseSignal
      (fun request s => s.markPaused request) with hw | ⟨s, r, hs, -, hw⟩
    · rw [hw]
      exact h.of_frame rfl id
    · rw [hw]
      exact h.of_frame rfl fun _ => rfl
  | unpause =>
    unfold observe
    simp only [run, Backend.unpause]
    rcases t.world.toWorld.unpause_cases with hw | ⟨s, hs, hw⟩
    · rw [hw]
      exact h.of_frame rfl id
    · rw [hw]
      exact h.of_frame rfl fun _ => rfl
  | selectRow workerTags => exact h.of_frame rfl id
  | findHintedTask hint => exact h.of_frame rfl id
  | loadSnapshot => exact h.of_frame rfl id
  | deleteSnapshot => exact absurd rfl hc

theorem kept_observeAll {calls : List Call}
    (hcalls : ∀ c ∈ calls, c ≠ .deleteSnapshot) (h : t.Kept) : (observeAll calls t).Kept := by
  induction calls generalizing t with
  | nil => exact h
  | cons c calls ih =>
    exact ih (fun c' hc' => hcalls c' (List.mem_cons_of_mem _ hc'))
      (kept_observe (hcalls c List.mem_cons_self) h)

theorem world_observeAll (calls : List Call) (t : Tenure) :
    (observeAll calls t).world = runAll calls t.world := by
  induction calls generalizing t with
  | nil => rfl
  | cons c calls ih => exact ih (observe c t)

/-- While a lease is live every claim is refused. -/
theorem claimTask_of_live (h : t.Kept) {l : Lease} (hl : t.lease = some l)
    (hlive : l.isLive t.world.clock) (taskId : TaskId) (workerId : String)
    (expiresAt : Option Time) (locked : Bool) :
    run (.claimTask taskId workerId expiresAt locked) t.world = (.claim (.ok none), t.world) := by
  have hnot : postgres.claimable taskId t.world = false := by
    simp [claimable, findClaim, h.row, hl, Tenure.Kept.isExpired_toClaim, hlive]
  obtain ⟨s, hs⟩ := Option.isSome_iff_exists.mp (h.exists_ (by simp [hl]))
  simp [run, Postgres.claimTask, hnot, hs]

/-- Only the holder of a live lease on the task gets past the fence. -/
theorem saveSnapshotFenced_of_not_holder (h : t.Kept) {taskId : TaskId} {workerId : String}
    (hnot : ¬ ∃ l, t.lease = some l ∧ l.isLive t.world.clock ∧ l.isOf taskId workerId)
    (s : WorkflowSnapshot) :
    run (.saveSnapshotFenced s taskId workerId) t.world = (.flag false, t.world) := by
  have hfence : postgres.holdsLiveClaim taskId workerId t.world = false := by
    rw [← Bool.not_eq_true]
    intro hholds
    apply hnot
    unfold holdsLiveClaim at hholds
    rw [h.row] at hholds
    cases hl : t.lease with
    | none => simp [hl] at hholds
    | some l =>
      simp only [hl, Option.map_some, Option.toList_some, List.any_cons, List.any_nil,
        Bool.or_false, Tenure.Kept.isExpired_toClaim, Bool.not_not, Bool.and_eq_true] at hholds
      refine ⟨l, rfl, hholds.2, ?_⟩
      simp only [Lease.isOf, Bool.and_eq_true]
      exact hholds.1
  simp [run, Backend.saveSnapshotFenced, hfence]

/--
**Leases are exclusive and fence writes.** However the calls of any number of workers
interleave with each other and with the passage of time: from a granted claim until
its owner releases it or its last expiry passes, every `claim_task` answers `None`,
and a `save_snapshot_fenced` by anyone who does not hold the live lease of that very
task answers `false` and writes nothing.
-/
theorem lease_is_exclusive (w : PoolWorld) (hw : w.claims = []) (calls : List Call)
    (hcalls : ∀ c ∈ calls, c ≠ .deleteSnapshot) :
    let t := observeAll calls ⟨w, none⟩
    t.world = runAll calls w
      ∧ (∀ l, t.lease = some l → l.isLive t.world.clock →
          ∀ taskId workerId expiresAt locked,
            run (.claimTask taskId workerId expiresAt locked) t.world
              = (.claim (.ok none), t.world))
      ∧ ∀ s taskId workerId,
          (¬ ∃ l, t.lease = some l ∧ l.isLive t.world.clock ∧ l.isOf taskId workerId) →
            run (.saveSnapshotFenced s taskId workerId) t.world = (.flag false, t.world) := by
  intro t
  have hkept : t.Kept := kept_observeAll hcalls ⟨by simp [hw], fun h => nomatch h⟩
  exact ⟨world_observeAll calls _, fun l hl hlive => claimTask_of_live hkept hl hlive,
    fun s taskId workerId hnot => saveSnapshotFenced_of_not_holder hkept hnot s⟩

section sample

attribute [local instance] Sha256.packed

/-- An instance at its first task that nobody has claimed. -/
def idleRow : PoolWorld where
  toWorld := { World.fresh "i" 0 with
    snapshot := some ((withInitialInput "i" ⟨0⟩ [7]).updatePosition
      (.atTask (TaskId.sha256 "t"))) }
  claims := []
  outputs := fun _ => none

/-- A claim for ten seconds, renewed after eight. -/
def renewedClaim : List Call :=
  [.claimTask (TaskId.sha256 "t") "a" (some 10000) true, .tick 8000,
    .extendTaskClaim (TaskId.sha256 "t") "a" 10000, .tick 9000]

/-- After seventeen seconds the renewed claim still keeps the other worker out. -/
theorem lease_is_exclusive_after_renewal :
    let t := observeAll renewedClaim ⟨idleRow, none⟩
    t.lease = some ⟨TaskId.sha256 "t", "a", some 18000⟩ ∧ t.world.clock = 17000
      ∧ run (.claimTask (TaskId.sha256 "t") "b" (some 30000) true) t.world
          = (.claim (.ok none), t.world)
      ∧ run (.saveSnapshotFenced (new "i" ⟨0⟩) (TaskId.sha256 "t") "b") t.world
          = (.flag false, t.world) := by
  intro t
  have hlease : t.lease = some ⟨TaskId.sha256 "t", "a", some 18000⟩ := by decide
  have hclock : t.world.clock = 17000 := by decide
  obtain ⟨-, hclaim, hfence⟩ := lease_is_exclusive idleRow rfl renewedClaim (by decide)
  refine ⟨hlease, hclock, hclaim _ hlease (by decide) _ _ _ _, hfence _ _ _ ?_⟩
  rintro ⟨l, hl, -, hof⟩
  rw [hlease] at hl
  cases hl
  revert hof
  decide

end sample

end Postgres

end Sayiir
