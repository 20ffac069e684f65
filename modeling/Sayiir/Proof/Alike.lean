import Sayiir.Persistence.Postgres
import Sayiir.Runtime.Polls
import Sayiir.Proof.Progress
import Sayiir.Proof.Dispatch

/-!
# Polls of the two backends

One `find_available_tasks` of the in-memory backend and one of Postgres, undisturbed,
on instances in the same state. `Diverges` lists exactly the states in which they do
not offer the same task with the same input or do not leave the same snapshot: at a
signal wait that is over, at a delay that is over and that Postgres does not look at or
dispatches from without a second look, and at a task while another task of the instance
is claimed.

Both polls are first brought into a closed form over the snapshot that a reader gets.
-/

namespace Sayiir

open Backend PoolWorld WorkflowSnapshot

namespace WorkflowSnapshot

variable {completed : CompletedTasks} {last next : Option TaskId} {t : TaskId}
  {blob s' : WorkflowSnapshot}

variable {s : WorkflowSnapshot}

theorem mapOutputs_updatePosition (f : TaskId → Bytes → Bytes) (position : ExecutionPosition) :
    (s.updatePosition position).mapOutputs f = (s.mapOutputs f).updatePosition position := by
  unfold updatePosition mapOutputs
  cases hs : s.state <;> simp [hs]

theorem mapOutputs_clearUnflushed (f : TaskId → Bytes → Bytes) :
    s.clearUnflushed.mapOutputs f = (s.mapOutputs f).clearUnflushed := by
  unfold mapOutputs
  cases hst : s.state <;> simp [clearUnflushed, hst]

/-- A blob without outputs is read as it was before it was stored. -/
theorem hydrate_stored_hydrate (outputs : TaskId → Option Bytes) (hs : s.stripTaskOutputs = s) :
    (postgres.stored (s.hydrateTaskOutputs outputs)).hydrateTaskOutputs outputs
      = (s.hydrateTaskOutputs outputs).clearUnflushed := by
  calc (postgres.stored (s.hydrateTaskOutputs outputs)).hydrateTaskOutputs outputs
      = (s.stripTaskOutputs.hydrateTaskOutputs outputs).clearUnflushed := by
        simp only [stored, stripTaskOutputs, hydrateTaskOutputs, mapOutputs_clearUnflushed,
          mapOutputs_mapOutputs]
    _ = (s.hydrateTaskOutputs outputs).clearUnflushed := by rw [hs]

/-- The same for an instance that has been moved. -/
theorem hydrate_stored_updatePosition (outputs : TaskId → Option Bytes)
    (position : ExecutionPosition) (hs : s.stripTaskOutputs = s) :
    (postgres.stored ((s.hydrateTaskOutputs outputs).updatePosition position)).hydrateTaskOutputs
        outputs = ((s.hydrateTaskOutputs outputs).updatePosition position).clearUnflushed := by
  have hmoved : (s.hydrateTaskOutputs outputs).updatePosition position
      = (s.updatePosition position).hydrateTaskOutputs outputs :=
    (mapOutputs_updatePosition _ position).symm
  rw [hmoved]
  refine hydrate_stored_hydrate outputs ?_
  exact (mapOutputs_updatePosition _ position).trans (congrArg (updatePosition position) hs)

end WorkflowSnapshot

namespace Backend

/-- Some claim on the instance is alive. -/
def claimed (b : Backend) (w : PoolWorld) : Bool :=
  w.claims.any fun c => !b.isExpired w.clock c

/-- The claim of the in-memory backend on this very task is alive. -/
def claimedTask (t : TaskId) (w : PoolWorld) : Bool :=
  w.claims.any fun c => !inMemory.isExpired w.clock c && decide (c.taskId = t)

end Backend

namespace Submission

theorem dispatchRow_cases (now : Time) (s : WorkflowSnapshot) :
    dispatchRow now s = .done ∨ (∃ task, dispatchRow now s = .offered task)
      ∨ ∃ s' next, dispatchRow now s = .waking s' next := by
  exact dispatchRow_of (P := fun phase => phase = .done ∨ (∃ task, phase = .offered task)
      ∨ ∃ s' next, phase = .waking s' next)
    (.inl rfl) (fun _ _ _ _ _ _ _ => .inr (.inr ⟨_, _, rfl⟩)) fun _ _ _ _ _ _ _ => .inr (.inl ⟨_, rfl⟩)

/-- Leave a delay that is over. -/
def woken (delayId : TaskId) (next : Option TaskId) (s : WorkflowSnapshot) : WorkflowSnapshot :=
  match next with
  | some taskId => s.updatePosition (.atTask taskId)
  | none => s.markCompleted ((s.getTaskResultBytes delayId).getD [])

theorem dispatchRow_atDelay {now : Time} {s : WorkflowSnapshot} {delayId : TaskId}
    {enteredAt wakeAt : Time}
    (hst : s.state = .inProgress (.atDelay delayId enteredAt wakeAt next) completed last)
    (hwake : wakeAt ≤ now) :
    dispatchRow now s = .waking (woken delayId next s) next := by
  unfold dispatchRow
  rw [hst]
  dsimp only
  rw [if_pos hwake]
  cases next <;> rfl

variable [Sha256] {job : Submission}

/-- **An undisturbed poll of a worker** is such a call. -/
theorem runs_findAvailableTasks (worker : Worker) (w : PoolWorld) :
    job.Runs worker (.polling, w) (offer (job.backend.findAvailableTasks worker.tags w).1,
      (job.backend.findAvailableTasks worker.tags w).2) := by
  cases hb : job.backend with
  | inMemory =>
    have hpoll : job.call worker .polling w = (.collecting, dropExpired w) := by
      simp only [call, hb]
    refine (Runs.call hpoll).trans ?_
    simp only [findAvailableTasks, pollInMemory]
    cases hc : collectAdvance (dropExpired w) with
    | none =>
      have hcollect : job.call worker .collecting (dropExpired w)
          = (.selecting, dropExpired w) := by
        simp only [call, hc]
      exact (Runs.call hcollect).trans (Runs.call rfl)
    | some advance =>
      cases he : advance.event with
      | some e =>
        have hcollect : job.call worker .collecting (dropExpired w)
            = (.advancing advance, (dropExpired w).log e) := by
          simp only [call, hc, he]
        simp only [he]
        exact (Runs.call hcollect).trans ((Runs.call rfl).trans (Runs.call rfl))
      | none =>
        have hcollect : job.call worker .collecting (dropExpired w)
            = (.advancing advance, dropExpired w) := by
          simp only [call, hc, he]
        simp only [he]
        exact (Runs.call hcollect).trans ((Runs.call rfl).trans (Runs.call rfl))
  | postgres =>
    simp only [findAvailableTasks, pollPostgres]
    cases hs : selectRow worker.tags w with
    | none =>
      refine Runs.call ?_
      simp only [call, hb, hs, offer]
    | some blob =>
      have hpoll : job.call worker .polling w = (.hydrating blob, w) := by
        simp only [call, hb, hs]
      refine (Runs.call hpoll).trans ?_
      have hrow : job.call worker (.hydrating blob) w
          = (dispatchRow w.clock (blob.hydrateTaskOutputs w.outputs), w) := rfl
      rcases dispatchRow_cases w.clock (blob.hydrateTaskOutputs w.outputs) with
        h | ⟨task, h⟩ | ⟨s, next, h⟩
      · rw [h] at hrow
        simp only [h]
        exact Runs.call hrow
      · rw [h] at hrow
        simp only [h]
        exact Runs.call hrow
      · rw [h] at hrow
        simp only [h]
        refine (Runs.call hrow).trans (Runs.call ?_)
        cases next <;> simp [call, hb, offer]

end Submission

namespace Backend

variable {w : PoolWorld} {s : WorkflowSnapshot} {completed : CompletedTasks}
  {last next : Option TaskId} {t delayId signalId : TaskId} {enteredAt wakeAt : Time}
  {tags : List String}

/-! ## The poll in memory -/

theorem isSome_findClaim_dropExpired :
    (inMemory.findClaim t (dropExpired w)).isSome = claimedTask t w := by
  rw [Bool.eq_iff_iff]
  simp [findClaim, dropExpired, claimedTask]

variable (tags) in
/-- What the last section of a poll offers. -/
theorem selectTask_atTask (hs : w.snapshot = some s) (hsig : w.hasSignal = false)
    (hst : s.state = .inProgress (.atTask t) completed last) :
    selectTask tags w = if (completed.lookup t).isSome || (inMemory.findClaim t w).isSome
      || s.inBackoff t w.clock || !tagsMatch tags s then none else buildAvailableTask s t := by
  unfold selectTask
  rw [hs, hsig]
  dsimp only
  rw [hst]

theorem selectTask_eq_none (hs : w.snapshot = some s) (hst : s.currentTaskId = none) :
    selectTask tags w = none := by
  unfold selectTask
  rw [hs]
  unfold currentTaskId at hst
  split
  · rename_i s' hs' _
    cases hs'
    split
    · rename_i hst'
      simp [hst'] at hst
    · rfl
  · rfl

section hashed

variable [Sha256]

variable (tags) in
/-- Without a wait that is over, a poll in memory only looks. -/
theorem pollInMemory_of_none (h : collectAdvance w = none) :
    pollInMemory tags w = (selectTask tags (dropExpired w), dropExpired w) := by
  have hcollect : collectAdvance (dropExpired w) = none := h
  simp only [pollInMemory, hcollect]

variable (tags) in
/-- A delay that is over is left and the next task is looked at. -/
theorem pollInMemory_delay (hs : w.snapshot = some s)
    (h : collectAdvance w = some (.delay t)) :
    pollInMemory tags w = (let w' := { dropExpired w with
      snapshot := some (s.updatePosition (.atTask t)) }
    (selectTask tags w', w')) := by
  have hcollect : collectAdvance (dropExpired w) = some (.delay t) := h
  have hs' : (dropExpired w).snapshot = some s := hs
  simp only [pollInMemory, hcollect, Advance.event, applyAdvance, hs', Option.map_some]

variable (tags) in
theorem pollInMemory_delayDone (hs : w.snapshot = some s)
    (h : collectAdvance w = some (.delayDone delayId)) :
    pollInMemory tags w = (none, { dropExpired w with
      snapshot := some (s.markCompleted ((s.getTaskResultBytes delayId).getD [])) }) := by
  have hcollect : collectAdvance (dropExpired w) = some (.delayDone delayId) := h
  have hs' : (dropExpired w).snapshot = some s := hs
  simp only [pollInMemory, hcollect, Advance.event, applyAdvance, hs', Option.map_some]
  exact congrArg (·, _) (selectTask_eq_none rfl rfl)

end hashed

/-! ## The poll in Postgres -/

/-- What the dispatch query says about the state of an instance. -/
def dispatchable (now : Time) (s : WorkflowSnapshot) : Bool :=
  match s.state with
  | .inProgress (.atTask _) _ _ => true
  | .inProgress (.atDelay _ _ wakeAt _) _ _ => decide (wakeAt ≤ now)
  | _ => false

theorem dispatchable_mapOutputs (now : Time) (f : TaskId → Bytes → Bytes) :
    dispatchable now (s.mapOutputs f) = dispatchable now s := by
  unfold mapOutputs dispatchable
  cases hs : s.state with
  | inProgress position completed last => cases position <;> rfl
  | _ => simp only [hs]

theorem tagsMatch_mapOutputs (f : TaskId → Bytes → Bytes) :
    tagsMatch tags (s.mapOutputs f) = tagsMatch tags s := by
  unfold mapOutputs
  split <;> rfl

variable (tags) in
/-- The query looks at nothing that a reader would not see. -/
theorem selectRow_eq (hblob : w.snapshot = some blob) (hs : blob.hydrateTaskOutputs w.outputs = s) :
    selectRow tags w = if !w.hasSignal && !postgres.claimed w && tagsMatch tags s
      && dispatchable w.clock s then some blob else none := by
  subst hs
  unfold selectRow
  rw [hblob, Option.filter_some, hydrateTaskOutputs, tagsMatch_mapOutputs,
    dispatchable_mapOutputs]
  rfl

end Backend

/-! ## Instances in the same state -/

/-- The same claim in Postgres, which keeps the time in full and not in seconds. -/
def TaskClaim.toPostgres (c : TaskClaim) : TaskClaim :=
  { c with expiresAt := c.expiresAt.map (· * 1000000000) }

theorem decide_mul_le (k : Nat) (hk : 0 < k) (t n : Nat) :
    decide (t * k ≤ n) = decide (t ≤ n / k) :=
  decide_eq_decide.mpr (Nat.le_div_iff_mul_le hk).symm

theorem isExpired_toPostgres (now : Time) (c : TaskClaim) :
    postgres.isExpired now c.toPostgres = inMemory.isExpired now c := by
  unfold isExpired TaskClaim.toPostgres
  rw [Option.any_map]
  congr 1
  funext t
  exact decide_mul_le _ (by norm_num) t now

/-- **The in-memory backend and Postgres hold an instance in the same state.** -/
structure Alike (m p : PoolWorld) : Prop where
  clock : p.clock = m.clock
  /-- The snapshots are equal, as a reader gets them. -/
  snapshot : Postgres.loadSnapshot p = m.snapshot.map WorkflowSnapshot.clearUnflushed
  /-- Postgres stores blobs without outputs. -/
  blob : ∀ s, p.snapshot = some s → s.stripTaskOutputs = s
  claims : p.claims = m.claims.map TaskClaim.toPostgres
  cancelSignal : p.cancelSignal = m.cancelSignal
  pauseSignal : p.pauseSignal = m.pauseSignal
  events : p.events = m.events

/-- What a poll offers, as task and input. -/
def Backend.offered [Sha256] (b : Backend) (tags : List String) (w : PoolWorld) :
    Option (TaskId × Bytes) :=
  (b.findAvailableTasks tags w).1.map fun task => (task.taskId, task.input)

/-- What a reader finds after a poll. -/
def Backend.leaves [Sha256] (b : Backend) (tags : List String) (w : PoolWorld) :
    Option WorkflowSnapshot :=
  let w := (b.findAvailableTasks tags w).2
  w.snapshot.map fun s => (b.view w s).clearUnflushed

/-- **Where the two backends part.** -/
def Diverges (tags : List String) (w : PoolWorld) : Bool :=
  !w.hasSignal && w.snapshot.any fun s => match s.state with
    -- Postgres leaves a signal wait to `send_event` and to the workers
    | .inProgress (.atSignal _ signalName wakeAt _) _ _ =>
      !(w.events signalName).isEmpty || wakeAt.any fun t => decide (t ≤ w.clock)
    -- Postgres does not wake a claimed instance or one for other workers, and offers the
    -- next task without looking whether it has run or is to be retried later
    | .inProgress (.atDelay _ _ wakeAt next) completed _ =>
      decide (wakeAt ≤ w.clock) && (inMemory.claimed w || !tagsMatch tags s
        || next.any fun t => ((completed.lookup t).isSome || s.inBackoff t w.clock)
          && (buildAvailableTask s t).isSome)
    -- the in-memory backend only looks at the claim on that task
    | .inProgress (.atTask t) completed _ =>
      inMemory.claimed w && !claimedTask t w && (completed.lookup t).isNone
        && !s.inBackoff t w.clock && tagsMatch tags s && (buildAvailableTask s t).isSome
    | _ => false

namespace Alike

variable {m p : PoolWorld} {s : WorkflowSnapshot} {tags : List String}

theorem hasSignal (h : Alike m p) : p.hasSignal = m.hasSignal := by
  simp [PoolWorld.hasSignal, h.cancelSignal, h.pauseSignal]

theorem claimed (h : Alike m p) : postgres.claimed p = inMemory.claimed m := by
  simp only [Backend.claimed, h.claims, h.clock, List.any_map, Function.comp_def,
    isExpired_toPostgres]

/-- The blob from which Postgres reads the snapshot of the in-memory backend. -/
theorem exists_blob (h : Alike m p) (hs : m.snapshot = some s) :
    ∃ blob, p.snapshot = some blob ∧ blob.stripTaskOutputs = blob
      ∧ blob.hydrateTaskOutputs p.outputs = s.clearUnflushed := by
  have hload := h.snapshot
  rw [hs, Postgres.loadSnapshot, Option.map_some] at hload
  obtain ⟨blob, hblob, heq⟩ := Option.map_eq_some_iff.mp hload
  exact ⟨blob, hblob, h.blob blob hblob, heq⟩

end Alike

/-- An offer depends on the results and on the initial input only. -/
theorem map_buildAvailableTask_congr {s : WorkflowSnapshot} {position position' : ExecutionPosition}
    (hs : s.state = .inProgress position completed last)
    (hs' : s'.state = .inProgress position' completed last)
    (hinput : s'.initialInput = s.initialInput) (t : TaskId) :
    (buildAvailableTask s' t).map (fun task => (task.taskId, task.input))
      = (buildAvailableTask s t).map fun task => (task.taskId, task.input) := by
  have hlast : s'.getLastTaskOutput = s.getLastTaskOutput := by
    simp only [getLastTaskOutput, hs, hs']
  simp [buildAvailableTask, hs, hs', hinput, hlast, Option.map_map, Function.comp_def]

theorem claimed_of_claimedTask {w : PoolWorld} (h : claimedTask t w) :
    inMemory.claimed w := by
  obtain ⟨c, hc, hlive⟩ := List.any_eq_true.mp h
  exact List.any_eq_true.mpr ⟨c, hc, (Bool.and_eq_true_iff.mp hlive).1⟩

section polls

variable {m p : PoolWorld} {s : WorkflowSnapshot} {tags : List String}

theorem Alike.leaves_idle (h : Alike m p) :
    p.snapshot.map (fun s => (postgres.view p s).clearUnflushed)
      = m.snapshot.map WorkflowSnapshot.clearUnflushed := by
  calc p.snapshot.map (fun s => (postgres.view p s).clearUnflushed)
      = (Postgres.loadSnapshot p).map WorkflowSnapshot.clearUnflushed := by
        rw [Postgres.loadSnapshot, Option.map_map]
        rfl
    _ = m.snapshot.map WorkflowSnapshot.clearUnflushed := by
        rw [h.snapshot, Option.map_map]
        rfl

theorem pollPostgres_of_selectRow_none (h : selectRow tags p = none) :
    pollPostgres tags p = (none, p) := by
  simp only [pollPostgres, h]

/-- Postgres saves a running instance whose outputs have been flushed. -/
theorem saveSnapshot_of_flushed (hblob : p.snapshot = some blob)
    (hp : blob.isInProgress) (hs : s.outputUnflushed = false) :
    postgres.saveSnapshot s p
      = PoolWorld.log (.saved s) { p with snapshot := some (postgres.stored s) } := by
  obtain ⟨position, completed, last, hst⟩ := isInProgress_iff.mp hp
  have hterm : blob.isTerminal = false := by simp [isTerminal, hst]
  simp only [saveSnapshot, storeBlob, hblob, Option.any_some, hterm, Bool.false_eq_true, if_false,
    shipOutput, hs]
  rfl

variable [Sha256]

/-- Both polls offer the same and leave the same. -/
def Agree (tags : List String) (m p : PoolWorld) : Prop :=
  inMemory.offered tags m = postgres.offered tags p
    ∧ inMemory.leaves tags m = postgres.leaves tags p

/-- Two polls that change nothing agree if they offer the same. -/
theorem agree_iff_of_still {o : Option AvailableTask} (h : Alike m p)
    (hc : collectAdvance m = none) (hp : pollPostgres tags p = (o, p)) :
    Agree tags m p ↔ (selectTask tags (dropExpired m)).map (fun task => (task.taskId, task.input))
      = o.map fun task => (task.taskId, task.input) := by
  have hm := pollInMemory_of_none tags hc
  have hleaves : inMemory.leaves tags m = postgres.leaves tags p := by
    simp only [Backend.leaves, findAvailableTasks, hm, hp]
    exact h.leaves_idle.symm
  simp only [Agree, hleaves, and_true, Backend.offered, findAvailableTasks, hm, hp]

/-- Where neither backend finds anything they agree. -/
theorem agree_of_idle (h : Alike m p) (hc : collectAdvance m = none)
    (hselect : selectTask tags (dropExpired m) = none) (hrow : selectRow tags p = none) :
    Agree tags m p := by
  rw [agree_iff_of_still h hc (pollPostgres_of_selectRow_none hrow), hselect]

theorem agree_iff_atTask (h : Alike m p) (hs : m.snapshot = some s) (hsig : m.hasSignal = false)
    (hst : s.state = .inProgress (.atTask t) completed last) :
    Agree tags m p ↔ Diverges tags m = false := by
  obtain ⟨blob, hblob, -, hread⟩ := h.exists_blob hs
  have hcollect : collectAdvance m = none := by
    refine collectAdvance_of_atTask fun s' position hs' hp' => ⟨t, ?_⟩
    obtain rfl : s = s' := Option.some.inj (hs.symm.trans hs')
    simpa [WorkflowSnapshot.position, hst] using hp'.symm
  have hst' : s.clearUnflushed.state = .inProgress (.atTask t) completed last := hst
  -- what Postgres finds
  have hrow := selectRow_eq tags hblob hread
  rw [h.hasSignal, hsig, h.claimed] at hrow
  have hdue : dispatchable p.clock s.clearUnflushed = true := by simp [dispatchable, hst']
  have htags : tagsMatch tags s.clearUnflushed = tagsMatch tags s := rfl
  have hback : s.clearUnflushed.inBackoff t p.clock = s.inBackoff t m.clock := by rw [h.clock]; rfl
  have hpoll : ∃ o, pollPostgres tags p = (o, p)
      ∧ o = if inMemory.claimed m || !tagsMatch tags s || (completed.lookup t).isSome
          || s.inBackoff t m.clock then none else buildAvailableTask s.clearUnflushed t := by
    refine ⟨_, ?_, rfl⟩
    unfold pollPostgres
    rw [hrow, htags, hdue]
    cases hclaimed : inMemory.claimed m with
    | true => simp
    | false =>
      cases hmatch : tagsMatch tags s with
      | false => simp
      | true =>
        simp only [Bool.not_false, Bool.and_true, if_true, hread, Submission.dispatchRow, hst',
          hback, Bool.not_true, Bool.or_false, Bool.false_or]
        by_cases hskip : (completed.lookup t).isSome || s.inBackoff t m.clock
        · simp only [hskip, if_true]
        · simp only [hskip, Bool.false_eq_true, if_false]
          cases buildAvailableTask s.clearUnflushed t <;> rfl
  obtain ⟨o, hpoll, rfl⟩ := hpoll
  rw [agree_iff_of_still h hcollect hpoll]
  -- what the in-memory backend finds
  have hback' : s.inBackoff t (dropExpired m).clock = s.inBackoff t m.clock := rfl
  rw [selectTask_atTask tags (w := dropExpired m) hs hsig hst, isSome_findClaim_dropExpired, hback']
  have hdiverges : Diverges tags m = (inMemory.claimed m && !claimedTask t m
      && (completed.lookup t).isNone && !s.inBackoff t m.clock && tagsMatch tags s
      && (buildAvailableTask s t).isSome) := by
    simp only [Diverges, hsig, hs, hst, Option.any_some, Bool.not_false, Bool.true_and]
  rw [hdiverges]
  have hclaims := claimed_of_claimedTask (t := t) (w := m)
  have hoffer := map_buildAvailableTask_congr hst hst' rfl t
  generalize claimedTask t m = c at *
  generalize inMemory.claimed m = cs at *
  generalize s.inBackoff t m.clock = back at *
  generalize tagsMatch tags s = tag at *
  cases completed.lookup t with
  | some r => simp
  | none =>
    cases c <;> cases cs <;> cases back <;> cases tag <;> simp_all

/-- Postgres saves an instance that it wakes and offers its next task. -/
theorem postgres_wakes (hblob : p.snapshot = some blob) (hp : blob.isInProgress)
    (hrow : selectRow tags p = some blob)
    (hdispatch : Submission.dispatchRow p.clock (blob.hydrateTaskOutputs p.outputs)
      = .waking s' next) (hflushed : s'.outputUnflushed = false)
    (hview : (postgres.stored s').hydrateTaskOutputs p.outputs = s'.clearUnflushed) :
    postgres.offered tags p = (next.bind (buildAvailableTask s'.clearUnflushed)).map
        (fun task => (task.taskId, task.input))
      ∧ postgres.leaves tags p = some s'.clearUnflushed := by
  have hpoll : pollPostgres tags p = (next.bind (buildAvailableTask s'.clearUnflushed),
      PoolWorld.log (.saved s') { p with snapshot := some (postgres.stored s') }) := by
    simp only [pollPostgres, hrow, hdispatch, saveSnapshot_of_flushed hblob hp hflushed]
    rfl
  constructor
  · simp only [Backend.offered, findAvailableTasks, hpoll]
  · simp only [Backend.leaves, findAvailableTasks, hpoll, PoolWorld.log, World.log,
      Option.map_some, view, hview]
    rfl

/-- An advanced instance is not left as it was. -/
theorem not_agree_of_advance (h : Alike m p) (hs : m.snapshot = some s)
    (hrow : selectRow tags p = none)
    (hm : (pollInMemory tags m).2.snapshot = some s') (hne : s'.state ≠ s.state) :
    ¬ Agree tags m p := by
  rintro ⟨-, hleaves⟩
  simp only [Backend.leaves, findAvailableTasks, pollPostgres_of_selectRow_none hrow, hm,
    h.leaves_idle, hs, Option.map_some, Option.some.injEq] at hleaves
  have hstate : s'.clearUnflushed.state = s.clearUnflushed.state :=
    congrArg WorkflowSnapshot.state hleaves
  exact hne hstate

theorem agree_iff_atSignal {signalId : TaskId} {signalName : String} {wakeAt : Option Time}
    (h : Alike m p) (hs : m.snapshot = some s) (hsig : m.hasSignal = false)
    (hst : s.state = .inProgress (.atSignal signalId signalName wakeAt next) completed last) :
    Agree tags m p ↔ Diverges tags m = false := by
  obtain ⟨blob, hblob, -, hread⟩ := h.exists_blob hs
  have hst' : s.clearUnflushed.state
      = .inProgress (.atSignal signalId signalName wakeAt next) completed last := hst
  have hrow : selectRow tags p = none := by
    rw [selectRow_eq tags hblob hread]
    simp [dispatchable, hst']
  have hdiverges : Diverges tags m = (!(m.events signalName).isEmpty
      || wakeAt.any fun t => decide (t ≤ m.clock)) := by
    simp only [Diverges, hsig, hs, hst, Option.any_some, Bool.not_false, Bool.true_and]
  have hcollect : collectAdvance m = if !(m.events signalName).isEmpty then
        some (.signal signalId signalName next)
      else if wakeAt.any fun t => decide (t ≤ m.clock) then
        some (.signalTimeout signalId signalName next) else none := by
    simp only [collectAdvance, hs, hsig, hst]
  -- leaving the wait changes the state
  have hleave : ∀ payload, (World.leaveSignal signalName payload next s).state ≠ s.state := by
    intro payload
    rw [hst]
    cases next <;> simp [World.leaveSignal, markTaskCompleted, hst,
      updatePosition, markCompleted,
      markTerminal]
  rw [hdiverges]
  by_cases hevent : (m.events signalName).isEmpty
  · by_cases htime : wakeAt.any fun t => decide (t ≤ m.clock)
    · simp only [hevent, Bool.not_true, Bool.false_eq_true, if_false, htime, if_true] at hcollect
      have hm : (pollInMemory tags m).2.snapshot
          = some (World.leaveSignal signalName [] next s) := by
        have hcollect' : collectAdvance (dropExpired m)
            = some (.signalTimeout signalId signalName next) := hcollect
        have hs' : (dropExpired m).snapshot = some s := hs
        simp only [pollInMemory, hcollect', Advance.event, applyAdvance, PoolWorld.log, World.log,
          hs', Option.map_some]
      simp [hevent, htime, not_agree_of_advance h hs hrow hm (hleave _)]
    · simp only [hevent, Bool.not_true, Bool.false_eq_true, if_false, htime] at hcollect
      have hselect : selectTask tags (dropExpired m) = none :=
        selectTask_eq_none (w := dropExpired m) hs
          (by simp [currentTaskId, hst])
      simp [hevent, htime, agree_of_idle h hcollect hselect hrow]
  · simp only [hevent, Bool.not_false, if_true] at hcollect
    have hm : ∃ payload, (pollInMemory tags m).2.snapshot
        = some (World.leaveSignal signalName payload next s) := by
      have hcollect' : collectAdvance (dropExpired m)
          = some (.signal signalId signalName next) := hcollect
      have hs' : (dropExpired m).snapshot = some s := hs
      simp only [pollInMemory, hcollect', Advance.event, applyAdvance, PoolWorld.log, World.log,
        hs', Option.map_some]
      exact ⟨_, rfl⟩
    obtain ⟨payload, hm⟩ := hm
    simp [hevent, not_agree_of_advance h hs hrow hm (hleave _)]

/-- What the in-memory backend offers of an instance that it has woken. -/
theorem offered_inMemory_delay {position : ExecutionPosition}
    (hs : m.snapshot = some s) (hsig : m.hasSignal = false)
    (hst : s.state = .inProgress position completed last)
    (hcollect : collectAdvance m = some (.delay t)) (hclaim : claimedTask t m = false)
    (hmatch : tagsMatch tags s) :
    inMemory.offered tags m
      = (if (completed.lookup t).isSome || s.inBackoff t m.clock then none
        else buildAvailableTask (s.updatePosition (.atTask t)) t).map
          fun task => (task.taskId, task.input) := by
  let w : PoolWorld := { dropExpired m with snapshot := some (s.updatePosition (.atTask t)) }
  have hmoved : (s.updatePosition (.atTask t)).state = .inProgress (.atTask t) completed last := by
    simp [updatePosition, hst]
  have hfind : (inMemory.findClaim t w).isSome = false := by
    rw [← hclaim, ← isSome_findClaim_dropExpired]
    rfl
  have hback : (s.updatePosition (.atTask t)).inBackoff t w.clock = s.inBackoff t m.clock := by
    simp only [inBackoff, taskRetries_updatePosition]
    rfl
  have htag : tagsMatch tags (s.updatePosition (.atTask t)) = true := by
    rw [← hmatch]
    simp [tagsMatch, updatePosition, hst]
  have hselect := selectTask_atTask tags (w := w) rfl hsig hmoved
  rw [hfind, hback, htag, Bool.or_false, Bool.not_true, Bool.or_false] at hselect
  rw [← hselect, Backend.offered, findAvailableTasks, pollInMemory_delay tags hs hcollect]

theorem agree_iff_atDelay {delayId : TaskId} {enteredAt wakeAt : Time}
    (h : Alike m p) (hs : m.snapshot = some s) (hsig : m.hasSignal = false)
    (hst : s.state = .inProgress (.atDelay delayId enteredAt wakeAt next) completed last) :
    Agree tags m p ↔ Diverges tags m = false := by
  obtain ⟨blob, hblob, hstrip, hread⟩ := h.exists_blob hs
  have hst' : s.clearUnflushed.state
      = .inProgress (.atDelay delayId enteredAt wakeAt next) completed last := hst
  have hdiverges : Diverges tags m = (decide (wakeAt ≤ m.clock) && (inMemory.claimed m
      || !tagsMatch tags s || next.any fun t => ((completed.lookup t).isSome
        || s.inBackoff t m.clock) && (buildAvailableTask s t).isSome)) := by
    simp only [Diverges, hsig, hs, hst, Option.any_some, Bool.not_false, Bool.true_and]
  have hcollect : collectAdvance m = if wakeAt ≤ m.clock then
      match next with
      | some taskId => some (.delay taskId)
      | none => some (.delayDone delayId) else none := by
    simp only [collectAdvance, hs, hsig, hst] <;> rfl
  have hrow := selectRow_eq tags hblob hread
  have htags : tagsMatch tags s.clearUnflushed = tagsMatch tags s := rfl
  have hdue : dispatchable p.clock s.clearUnflushed = decide (wakeAt ≤ m.clock) := by
    simp [dispatchable, hst', h.clock]
  rw [h.hasSignal, hsig, h.claimed, htags, hdue] at hrow
  have hblobp : blob.isInProgress := by
    have hp : (blob.hydrateTaskOutputs p.outputs).isInProgress := by
      rw [hread, isInProgress, hst']
    simpa [hydrateTaskOutputs] using hp
  rw [hdiverges]
  by_cases hwake : wakeAt ≤ m.clock
  case neg =>
    have hselect : selectTask tags (dropExpired m) = none :=
      selectTask_eq_none (w := dropExpired m) hs (by simp [currentTaskId, hst])
    simp only [hwake, decide_false, Bool.and_false, Bool.false_eq_true, if_false] at hrow hcollect
    simp [hwake, agree_of_idle h hcollect hselect hrow]
  simp only [hwake, decide_true, if_true, Bool.and_true, Bool.not_false, Bool.true_and] at hrow hcollect ⊢
  by_cases hseen : inMemory.claimed m || !tagsMatch tags s
  · -- Postgres passes over the instance
    have hnone : selectRow tags p = none := by
      rw [hrow, if_neg]
      revert hseen
      cases inMemory.claimed m <;> cases tagsMatch tags s <;> simp
    rw [hseen, Bool.true_or]
    have hdiffers : ¬ Agree tags m p := by
      cases next with
      | some t =>
        refine not_agree_of_advance h hs hnone (by rw [pollInMemory_delay tags hs hcollect]) ?_
        simp [updatePosition, hst]
      | none =>
        refine not_agree_of_advance h hs hnone (by rw [pollInMemory_delayDone tags hs hcollect]) ?_
        simp [markCompleted, markTerminal, hst]
    simp [hdiffers]
  · -- both backends wake it
    have hsome : selectRow tags p = some blob := by
      rw [hrow, if_pos]
      revert hseen
      cases inMemory.claimed m <;> cases tagsMatch tags s <;> simp
    have hdispatch := Submission.dispatchRow_atDelay hst' (show wakeAt ≤ p.clock by rwa [h.clock])
    rw [← hread] at hdispatch
    cases next with
    | none =>
      obtain ⟨hoffered, hleaves⟩ := postgres_wakes hblob hblobp hsome hdispatch
        (congrArg outputUnflushed hread) rfl
      rw [hread] at hleaves
      have hm := pollInMemory_delayDone tags hs hcollect
      have hagree : Agree tags m p := by
        rw [Agree, hoffered, hleaves]
        simp only [Backend.offered, Backend.leaves, findAvailableTasks, hm]
        exact ⟨rfl, rfl⟩
      simp [hagree, hseen]
    | some t =>
      have hview := hydrate_stored_updatePosition p.outputs (.atTask t) hstrip
      obtain ⟨hoffered, hleaves⟩ := postgres_wakes hblob hblobp hsome hdispatch
        (by rw [hread]; exact outputUnflushed_updatePosition _) hview
      rw [hread] at hoffered hleaves
      have hmoved : (s.updatePosition (.atTask t)).state
          = .inProgress (.atTask t) completed last := by
        simp [updatePosition, hst]
      have hwoken : (Submission.woken delayId (some t) s.clearUnflushed).clearUnflushed
          = (s.updatePosition (.atTask t)).clearUnflushed := by
        simp [Submission.woken, updatePosition, hst,
          WorkflowSnapshot.clearUnflushed]
      rw [hwoken] at hoffered hleaves
      have hm := pollInMemory_delay tags hs hcollect
      have hmleaves : inMemory.leaves tags m = postgres.leaves tags p := by
        rw [hleaves]
        simp only [Backend.leaves, findAvailableTasks, hm]
        rfl
      have hclaim : claimedTask t m = false := by
        by_contra htask
        exact hseen (by simp [claimed_of_claimedTask (Bool.eq_true_of_not_eq_false htask)])
      have hmatch : tagsMatch tags s = true := by
        cases htag : tagsMatch tags s with
        | true => rfl
        | false => simp [htag] at hseen
      have hselect := offered_inMemory_delay hs hsig hst hcollect hclaim hmatch
      have hoffer := map_buildAvailableTask_congr hst hmoved
        (initialInput_updatePosition _) t
      have hmoved' : (s.updatePosition (.atTask t)).clearUnflushed.state
          = .inProgress (.atTask t) completed last := hmoved
      have hoffer' := map_buildAvailableTask_congr hst hmoved'
        (initialInput_updatePosition _) t
      rw [Agree, hmleaves, hselect, hoffered, Option.bind_some, hoffer']
      simp only [and_true, hseen, Bool.false_or, Option.any_some]
      by_cases hskip : (completed.lookup t).isSome || s.inBackoff t m.clock
      · simp only [hskip, if_true, Option.map_none, Bool.true_and]
        cases buildAvailableTask s t <;> simp
      · simp only [hskip, Bool.false_eq_true, if_false, hoffer, Bool.false_and]

/-- **The two backends poll an instance alike** exactly in the states that are not listed. -/
theorem agree_iff (h : Alike m p) : Agree tags m p ↔ Diverges tags m = false := by
  cases hs : m.snapshot with
  | none =>
    have hp : p.snapshot = none := by
      have hload := h.snapshot
      rw [hs, Postgres.loadSnapshot, Option.map_none, Option.map_eq_none_iff] at hload
      exact hload
    have hselect : selectTask tags (dropExpired m) = none := by
      have hs' : (dropExpired m).snapshot = none := hs
      simp only [selectTask, hs']
    have hagree : Agree tags m p := agree_of_idle h (by simp only [collectAdvance, hs]) hselect
      (by simp only [selectRow, hp, Option.filter_none])
    simp [hagree, Diverges, hs]
  | some s =>
    obtain ⟨blob, hblob, -, hread⟩ := h.exists_blob hs
    have hrow := selectRow_eq tags hblob hread
    rw [h.hasSignal] at hrow
    cases hsig : m.hasSignal with
    | true =>
      have hselect : selectTask tags (dropExpired m) = none := by
        have hsig' : (dropExpired m).hasSignal = true := hsig
        have hs' : (dropExpired m).snapshot = some s := hs
        simp only [selectTask, hs', hsig']
      have hagree : Agree tags m p := agree_of_idle h
        (by simp only [collectAdvance, hs, hsig]) hselect (by rw [hrow, hsig]; rfl)
      simp [hagree, Diverges, hsig]
    | false =>
      have hrest : collectAdvance m = none → s.currentTaskId = none →
          dispatchable p.clock s = false → Agree tags m p := by
        intro hc hcur hdue
        have hdue' : dispatchable p.clock s.clearUnflushed = false := hdue
        exact agree_of_idle h hc (selectTask_eq_none (w := dropExpired m) hs hcur)
          (by rw [hrow, hdue', Bool.and_false]; rfl)
      cases hst : s.state with
      | inProgress position completed last =>
        cases position with
        | atTask t => exact agree_iff_atTask h hs hsig hst
        | atDelay delayId enteredAt wakeAt next => exact agree_iff_atDelay h hs hsig hst
        | atSignal signalId signalName wakeAt next => exact agree_iff_atSignal h hs hsig hst
        | _ =>
          have hagree : Agree tags m p := hrest (by simp [collectAdvance, hs, hsig, hst])
            (by simp [currentTaskId, hst]) (by simp [dispatchable, hst])
          simp [hagree, Diverges, hs, hsig, hst]
      | _ =>
        have hagree : Agree tags m p := hrest (by simp [collectAdvance, hs, hsig, hst])
          (by simp [currentTaskId, hst]) (by simp [dispatchable, hst])
        simp [hagree, Diverges, hs, hsig, hst]

end polls

/-! ## All instances of a backend -/

/-- What a poll offers of all instances, as triples of instance, task and input. -/
def Backend.offers [Sha256] (b : Backend) (tags : List String) (instances : String → PoolWorld) :
    Set (String × TaskId × Bytes) :=
  {x | b.offered tags (instances x.1) = some x.2}

/-- **The two backends dispatch alike,** exactly as long as no instance is in one of the
listed states: they offer the same tasks with the same inputs and leave every instance
with the same snapshot. -/
theorem backends_dispatch_alike [Sha256] {m p : String → PoolWorld}
    (h : ∀ instanceId, Alike (m instanceId) (p instanceId)) (tags : List String) :
    (inMemory.offers tags m = postgres.offers tags p
        ∧ ∀ instanceId, inMemory.leaves tags (m instanceId) = postgres.leaves tags (p instanceId))
      ↔ ∀ instanceId, Diverges tags (m instanceId) = false := by
  have hoffers : inMemory.offers tags m = postgres.offers tags p ↔ ∀ instanceId,
      inMemory.offered tags (m instanceId) = postgres.offered tags (p instanceId) := by
    constructor
    · intro heq instanceId
      refine Option.ext fun x => ?_
      exact Set.ext_iff.mp heq (instanceId, x)
    · intro heq
      refine Set.ext fun x => ?_
      exact Eq.congr_left (heq x.1)
  rw [hoffers, ← forall_and]
  exact forall_congr' fun instanceId => agree_iff (h instanceId)

section sample

attribute [local instance] Sha256.packed

/-- An instance that has just been parked by its first node, some time later. -/
def waitingAt (position : ExecutionPosition) (now : Time) (instanceId : String) : PoolWorld where
  toWorld := { World.fresh instanceId now with
    snapshot := some ((withInitialInput instanceId ⟨0⟩ [1]).updatePosition position) }
  claims := []
  outputs := fun _ => none

theorem alike_waitingAt (position : ExecutionPosition) (now : Time) (instanceId : String) :
    Alike (waitingAt position now instanceId) (waitingAt position now instanceId) where
  clock := rfl
  snapshot := rfl
  blob := by
    intro s hs
    obtain rfl := Option.some.inj hs
    rfl
  claims := rfl
  cancelSignal := rfl
  pauseSignal := rfl
  events := rfl

/-- Both backends wake an instance whose delay is over and offer its next task. -/
theorem backends_dispatch_alike_after_delay :
    let instances := waitingAt (.atDelay (TaskId.sha256 "d1") 0 5 (some (TaskId.sha256 "t1"))) 7
    inMemory.offers [] instances = postgres.offers [] instances
      ∧ ("i", TaskId.sha256 "t1", [1]) ∈ inMemory.offers [] instances := by
  intro instances
  have hfine : ∀ instanceId, Diverges [] (instances instanceId) = false := fun _ => rfl
  exact ⟨((backends_dispatch_alike (alike_waitingAt _ 7) []).mpr hfine).1, rfl⟩

/-- **A signal wait that has timed out** is left by the in-memory backend, which offers
the next task, and kept by Postgres. -/
theorem timed_out_wait_is_kept :
    let instances := waitingAt
      (.atSignal (TaskId.sha256 "s1") "approved" (some 5) (some (TaskId.sha256 "t1"))) 7
    (∀ instanceId, Alike (instances instanceId) (instances instanceId))
      ∧ ("i", TaskId.sha256 "t1", []) ∈ inMemory.offers [] instances
      ∧ ("i", TaskId.sha256 "t1", []) ∉ postgres.offers [] instances
      ∧ ((postgres.leaves [] (instances "i")).bind (·.position)
        = some (.atSignal (TaskId.sha256 "s1") "approved" (some 5) (some (TaskId.sha256 "t1"))))
      ∧ ((inMemory.leaves [] (instances "i")).bind (·.position)
        = some (.atTask (TaskId.sha256 "t1"))) := by
  intro instances
  refine ⟨alike_waitingAt _ 7, rfl, ?_, by decide, by decide⟩
  have hnone : postgres.offered [] (instances "i") = none := by decide
  intro hmem
  exact Option.some_ne_none _ (Eq.trans (Eq.symm hmem) hnone)

end sample

end Sayiir
