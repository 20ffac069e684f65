import Sayiir.Persistence.Postgres
import Sayiir.Proof.Dispatch

/-!
# What Postgres gives back

Postgres stores a snapshot in two places: the blob records which tasks are completed,
and a table next to it holds their outputs. A save ships one output, the one completed
last, and only if the snapshot is marked unflushed. Whether a reader gets back what was
saved is therefore a matter of everything that has happened to the snapshot since it
was loaded.

A `Session` is a worker or an executor at work on an instance: it holds a snapshot,
changes it, saves it, and branches of its workflow store results of their own next to
it. A ghost list says which outputs the table does not have yet.
-/

namespace Sayiir

open Backend Postgres WorkflowSnapshot

variable {output : Bytes} {w : PoolWorld} {t : TaskId} {r : TaskResult} {s : WorkflowSnapshot}

/-! ## Sessions -/

/-- A change of a snapshot that records no result: a new position, hint, deadline,
retry state or loop iteration, a result that is forgotten, a terminal state. -/
structure Edit where
  apply : WorkflowSnapshot → WorkflowSnapshot
  results : ∀ s t r, (apply s).getTaskResult t = some r → s.getTaskResult t = some r
  unflushed : ∀ s, (apply s).outputUnflushed = s.outputUnflushed

namespace Edit

def updatePosition (position : ExecutionPosition) : Edit where
  apply := (·.updatePosition position)
  results _ _ _ h := by simpa using h
  unflushed _ := outputUnflushed_updatePosition position

def setTaskHint (hint : TaskHint) : Edit where
  apply := (·.setTaskHint hint)
  results _ _ _ h := h
  unflushed _ := rfl

def clearTaskDeadline : Edit where
  apply := (·.clearTaskDeadline)
  results _ _ _ h := h
  unflushed _ := rfl

def clearRetryState (taskId : TaskId) : Edit where
  apply := (·.clearRetryState taskId)
  results _ _ _ h := h
  unflushed _ := rfl

def recordRetry (taskId : TaskId) (policy : RetryPolicy) (error : RuntimeError)
    (workerId : Option String) (now : Time) : Edit where
  apply s := (s.recordRetry taskId policy error workerId now).2
  results _ _ _ h := h
  unflushed _ := rfl

def setLoopIteration (loopId : TaskId) (iteration : Nat) : Edit where
  apply := (·.setLoopIteration loopId iteration)
  results _ _ _ h := h
  unflushed _ := rfl

def clearLoopIteration (loopId : TaskId) : Edit where
  apply := (·.clearLoopIteration loopId)
  results _ _ _ h := h
  unflushed _ := rfl

def removeTaskResult (taskId : TaskId) : Edit where
  apply := (·.removeTaskResult taskId)
  results s t r h := by
    rw [getTaskResult_removeTaskResult] at h
    split at h
    · cases h
    · exact h
  unflushed s := by
    unfold WorkflowSnapshot.removeTaskResult
    split <;> rfl

def markCompleted (output : Bytes) : Edit where
  apply := (·.markCompleted output)
  results _ _ _ h := nomatch h
  unflushed _ := rfl

def markFailed (error : RuntimeError) : Edit where
  apply := (·.markFailed error)
  results _ _ _ h := nomatch h
  unflushed _ := rfl

end Edit

/-- A holder of a snapshot and the store. `unshipped` is a ghost: the tasks completed
in the snapshot since it was loaded or saved whose outputs are not in the table. -/
structure Session where
  world : PoolWorld
  held : WorkflowSnapshot
  unshipped : List TaskId

/-- What happens in a session. -/
inductive SessionOp where
  | load
  | complete (taskId : TaskId) (output : Bytes)
  | edit (e : Edit)
  | save
  | saveFenced (taskId : TaskId) (workerId : String)
  /-- `save_task_result`, mostly by a branch. -/
  | saveTaskResult (taskId : TaskId) (output : Bytes)
  /-- Anyone makes a call that stores no output: claims, guards, requests, reads. -/
  | call (c : Call)

/-- The call stores no output. -/
def Postgres.Call.keepsOutputs : Call → Bool
  | .saveSnapshot _ | .saveSnapshotFenced .. | .saveTaskResult .. | .resumeEvent ..
  | .deleteSnapshot => false
  | _ => true

namespace Session

/-- Someone is about to create an instance. -/
def start (instanceId : String) (now : Time) (definitionHash : DefinitionHash)
    (input : Bytes) : Session where
  world := { toWorld := World.fresh instanceId now, claims := [], outputs := fun _ => none }
  held := withInitialInput instanceId definitionHash input
  unshipped := []

def step : SessionOp → Session → Session
  | .load, σ => match loadSnapshot σ.world with
      | none => σ
      | some s => { σ with held := s, unshipped := [] }
  | .complete taskId output, σ =>
    { σ with
      held := σ.held.markTaskCompleted taskId output
      unshipped := if σ.held.isInProgress then taskId :: σ.unshipped else σ.unshipped }
  | .edit e, σ => { σ with held := e.apply σ.held }
  | .save, σ =>
    ⟨postgres.saveSnapshot σ.held σ.world, postgres.afterSave σ.held, []⟩
  | .saveFenced taskId workerId, σ =>
    let r := postgres.saveSnapshotFenced σ.held taskId workerId σ.world
    if r.1 then ⟨r.2, postgres.afterSave σ.held, []⟩ else σ
  | .saveTaskResult taskId output, σ =>
    let r := Postgres.saveTaskResult taskId output σ.world
    { σ with
      world := r.2
      unshipped := if r.1.isOk then σ.unshipped.filter (· ≠ taskId) else σ.unshipped }
  | .call c, σ => if c.keepsOutputs then { σ with world := (Postgres.run c σ.world).2 } else σ

/-- The snapshot that an operation saves. -/
def saves : SessionOp → Session → Option WorkflowSnapshot
  | .save, σ => some σ.held
  | .saveFenced taskId workerId, σ =>
    if postgres.holdsLiveClaim taskId workerId σ.world then some σ.held else none
  | .saveTaskResult taskId output, σ =>
    (loadSnapshot σ.world).map (·.markTaskCompleted taskId output)
  | _, _ => none

/-- The outputs that a save of the held snapshot has to store are one at most: what
was completed since the last save, and is still recorded, was completed last. -/
def ShipsAll (σ : Session) : Prop :=
  ∀ t ∈ σ.unshipped, (σ.held.getTaskResult t).isSome → σ.held.lastCompletedTaskId = some t

/-- The condition on the steps of a session. -/
def Single : SessionOp → Session → Prop
  | .save, σ | .saveFenced .., σ =>
    σ.ShipsAll ∧ ∀ s, σ.world.snapshot = some s → s.isTerminal = false
  | .saveTaskResult taskId output, σ =>
    (∀ r, σ.held.getTaskResult taskId = some r → r.output = output)
      ∧ ∀ s, σ.world.snapshot = some s → s.isInProgress ∨ s.getTaskResult taskId = none
  | _, _ => True

/-- The same position, the same tasks completed, with the same outputs. -/
def Agrees (s s' : WorkflowSnapshot) : Prop :=
  s.position = s'.position ∧ ∀ t, s.getTaskResultBytes t = s'.getTaskResultBytes t

/-- What the table holds for a task; without a row a reader finds it empty. -/
def table (w : PoolWorld) (t : TaskId) : Bytes := (w.outputs t).getD []

/-- The blob holds no outputs. -/
def Stripped (w : PoolWorld) : Prop :=
  ∀ s t r, w.snapshot = some s → s.getTaskResult t = some r → r.output = []

/-- Every recorded output is in the table or is still to be shipped, and a snapshot
with something to ship is marked. -/
structure Backed (σ : Session) : Prop where
  stripped : Stripped σ.world
  outputs : ∀ t r, σ.held.getTaskResult t = some r → t ∈ σ.unshipped ∨ table σ.world t = r.output
  marked : σ.unshipped ≠ [] → σ.held.outputUnflushed

variable {σ : Session}

/-! ## Saves -/

/-- What the table holds after a save that has nothing more than one output to ship. -/
theorem Backed.table_saveSnapshot (h : σ.Backed) (hs : σ.ShipsAll)
    (hr : σ.held.getTaskResult t = some r) :
    table (postgres.saveSnapshot σ.held σ.world) t = r.output := by
  unfold table
  rcases outputs_saveSnapshot (b := postgres) (w := σ.world) σ.held with
    ⟨ho, hnone⟩ | ⟨-, hu, last, hlast, ho⟩
  · rw [ho]
    rcases h.outputs t r hr with hmem | htable
    · -- a marked snapshot without a last task ships nothing, so there was nothing to ship
      have hlast := hs t hmem (by simp [hr])
      rw [hnone rfl (h.marked (List.ne_nil_of_mem hmem))] at hlast
      cases hlast
    · exact htable
  · rw [ho]
    by_cases ht : t = last
    · subst ht
      simp [getTaskResultBytes, hr]
    · rw [Function.update_of_ne ht]
      rcases h.outputs t r hr with hmem | htable
      · have := hs t hmem (by simp [hr])
        rw [hlast] at this
        cases this
        exact absurd rfl ht
      · exact htable

/-- A reader of a stored snapshot finds what the table holds. -/
theorem getTaskResultBytes_hydrate_stored (s : WorkflowSnapshot) (w : PoolWorld) (t : TaskId) :
    ((postgres.stored s).hydrateTaskOutputs w.outputs).getTaskResultBytes t
      = (s.getTaskResult t).map fun _ => table w t := by
  unfold getTaskResultBytes hydrateTaskOutputs
  rw [getTaskResult_mapOutputs]
  simp only [Backend.stored, getTaskResult_clearUnflushed,
    stripTaskOutputs, getTaskResult_mapOutputs]
  cases s.getTaskResult t <;> rfl

theorem position_hydrate_stored (s : WorkflowSnapshot) (w : PoolWorld) :
    ((postgres.stored s).hydrateTaskOutputs w.outputs).position = s.position := by
  rw [hydrateTaskOutputs, position_mapOutputs, position_stored]

/-- A save that ships all there is to ship is read back as it was. -/
theorem Backed.agrees_save (h : σ.Backed) (hs : σ.ShipsAll)
    (hterm : ∀ s, σ.world.snapshot = some s → s.isTerminal = false) :
    ∃ s, loadSnapshot (postgres.saveSnapshot σ.held σ.world) = some s ∧ Agrees s σ.held := by
  have hstored : (postgres.saveSnapshot σ.held σ.world).snapshot
      = some (postgres.stored σ.held) := by
    rcases snapshot_saveSnapshot (b := postgres) (w := σ.world) σ.held with hw | ⟨-, hany, -⟩
    · exact hw
    · obtain ⟨s, hsome, ht⟩ := (Option.any_eq_true _ _).mp hany
      rw [hterm s hsome] at ht
      cases ht
  refine ⟨_, by rw [loadSnapshot, hstored, Option.map_some], position_hydrate_stored _ _,
    fun t => ?_⟩
  rw [getTaskResultBytes_hydrate_stored]
  unfold getTaskResultBytes
  cases hr : σ.held.getTaskResult t with
  | none => rfl
  | some r => simp [h.table_saveSnapshot hs hr]

/-- What a reader finds is what the table holds. -/
theorem output_loadSnapshot (hw : Stripped w)
    (hs : loadSnapshot w = some s) (hr : s.getTaskResult t = some r) :
    r.output = table w t := by
  obtain ⟨blob, hblob, rfl⟩ := Option.map_eq_some_iff.mp hs
  rw [hydrateTaskOutputs, getTaskResult_mapOutputs] at hr
  obtain ⟨r₀, hr₀, rfl⟩ := Option.map_eq_some_iff.mp hr
  simp [table, hw blob t r₀ hblob hr₀]

/-- A result saved on its own is read back with everything that was there before. -/
theorem agrees_saveTaskResult (hw : Stripped w) {taskId : TaskId} (hs : loadSnapshot w = some s)
    (hnew : s.isInProgress ∨ s.getTaskResult taskId = none) :
    ∃ s', loadSnapshot (Postgres.saveTaskResult taskId output w).2 = some s'
      ∧ Agrees s' (s.markTaskCompleted taskId output) := by
  unfold Postgres.saveTaskResult
  rw [hs]
  refine ⟨_, rfl, position_hydrate_stored _ _, fun t => ?_⟩
  refine (getTaskResultBytes_hydrate_stored (s.markTaskCompleted taskId output)
    { w with outputs := Function.update w.outputs taskId (some output) } t).trans ?_
  rw [getTaskResultBytes_markTaskCompleted,
    getTaskResult_markTaskCompleted]
  unfold getTaskResultBytes
  by_cases ht : t = taskId
  · subst ht
    rcases hnew with hp | hnone
    · simp [hp, table]
    · simp [hnone, table]
  · have htable : table { w with outputs := Function.update w.outputs taskId (some output) } t
        = table w t := by
      simp [table, Function.update_of_ne ht]
    simp only [ht, and_false, if_false, htable]
    cases hr : s.getTaskResult t with
    | none => rfl
    | some r => simp [output_loadSnapshot hw hs hr]

/-! ## Steps -/

/-- A call that stores no output keeps the table, and the instance records nothing new. -/
theorem run_of_keepsOutputs {c : Call} (hc : c.keepsOutputs) (w : PoolWorld) :
    (Postgres.run c w).2.outputs = w.outputs
      ∧ ∀ s', (Postgres.run c w).2.snapshot = some s' → ∃ s, w.snapshot = some s
          ∧ ∀ t r, s'.getTaskResult t = some r → s.getTaskResult t = some r := by
  have keep : ∀ {w' : PoolWorld}, w'.outputs = w.outputs → w'.snapshot = w.snapshot →
      w'.outputs = w.outputs ∧ ∀ s', w'.snapshot = some s' → ∃ s, w.snapshot = some s
        ∧ ∀ t r, s'.getTaskResult t = some r → s.getTaskResult t = some r := by
    intro w' ho hs
    exact ⟨ho, fun s' hs' => ⟨s', hs ▸ hs', fun _ _ h => h⟩⟩
  have marked : ∀ (kind : SignalKind) (request : Option SignalRequest)
      (mark : SignalRequest → WorkflowSnapshot → WorkflowSnapshot),
      (∀ r s t, s.isInProgress → (mark r s).getTaskResult t = s.getTaskResult t) →
      (checkAnd kind request mark w).2.outputs = w.outputs
        ∧ ∀ s', (checkAnd kind request mark w).2.snapshot = some s' → ∃ s, w.snapshot = some s
          ∧ ∀ t r, s'.getTaskResult t = some r → s.getTaskResult t = some r := by
    intro kind request mark hmark
    rcases checkAnd_cases (w := w) kind request mark with hw | ⟨s, r, hs, hp, hw⟩
    · rw [hw]
      exact keep rfl rfl
    · rw [hw]
      cases kind <;>
        exact ⟨rfl, fun s' hs' => by
          cases hs'
          exact ⟨s, hs, fun t r' h => by rwa [hmark r s t hp] at h⟩⟩
  cases c with
  | tick d => exact keep rfl rfl
  | claimTask taskId workerId expiresAt locked =>
    simp only [Postgres.run, Postgres.claimTask]
    split
    · exact keep rfl rfl
    · split <;> exact keep rfl rfl
  | extendTaskClaim taskId workerId ttl =>
    obtain ⟨claims, hw⟩ := extendTaskClaim_cases (b := postgres) (w := w) taskId
      workerId ttl
    simp only [Postgres.run]
    rw [hw]
    exact keep rfl rfl
  | releaseTaskClaim taskId workerId =>
    obtain ⟨claims, hw⟩ := releaseTaskClaim_cases (b := postgres) (w := w) taskId
      workerId
    simp only [Postgres.run]
    rw [hw]
    exact keep rfl rfl
  | storeSignal kind request =>
    simp only [Postgres.run, Postgres.storeSignal]
    split
    · exact keep rfl rfl
    · cases kind <;> exact keep rfl rfl
  | clearSignal kind => cases kind <;> exact keep rfl rfl
  | insertEvent signalName payload => exact keep rfl rfl
  | consumeEvent signalName =>
    simp only [Postgres.run, Backend.consumeEvent]
    split <;> exact keep rfl rfl
  | checkAndCancel interruptedAtTask =>
    refine marked .cancel _ _ fun r s t hp => ?_
    obtain ⟨position, completed, last, hst⟩ := isInProgress_iff.mp hp
    simp [markCancelled, getTaskResult,
      getAllTaskResults, hst]
  | checkAndPause => exact marked .pause _ _ fun r s t _ => by simp
  | unpause =>
    rcases w.toWorld.unpause_cases with hw | ⟨s, hs, hw⟩
    · rw [Postgres.run, Backend.unpause, hw]
      exact keep rfl rfl
    · rw [Postgres.run, Backend.unpause, hw]
      refine ⟨rfl, fun s' hs' => ⟨s, hs, fun t r h => ?_⟩⟩
      cases hs'
      simpa using h
  | selectRow workerTags => exact keep rfl rfl
  | findHintedTask hint => exact keep rfl rfl
  | loadSnapshot => exact keep rfl rfl
  | saveSnapshot s => cases hc
  | saveSnapshotFenced s taskId workerId => cases hc
  | saveTaskResult taskId output => cases hc
  | resumeEvent signalName payload => cases hc
  | deleteSnapshot => cases hc

theorem stripped_stored (s : WorkflowSnapshot)
    (h : (postgres.stored s).getTaskResult t = some r) : r.output = [] := by
  simp only [Backend.stored, getTaskResult_clearUnflushed,
    stripTaskOutputs, getTaskResult_mapOutputs] at h
  obtain ⟨r₀, -, rfl⟩ := Option.map_eq_some_iff.mp h
  rfl

theorem stripped_saveSnapshot (hw : Stripped w) (s : WorkflowSnapshot) :
    Stripped (postgres.saveSnapshot s w) := by
  intro s' t r hs' hr
  rcases snapshot_saveSnapshot (b := postgres) (w := w) s with h | ⟨-, -, h⟩
  · rw [h] at hs'
    cases hs'
    exact stripped_stored s hr
  · exact hw s' t r (h ▸ hs') hr

theorem backed_start (instanceId : String) (now : Time) (hash : DefinitionHash) (input : Bytes) :
    (start instanceId now hash input).Backed where
  stripped _ _ _ h := nomatch h
  outputs _ _ h := by simp [start] at h
  marked h := absurd rfl h

theorem Backed.save (h : σ.Backed) (hs : σ.ShipsAll) : (step .save σ).Backed where
  stripped := stripped_saveSnapshot h.stripped σ.held
  outputs _ _ hr := .inr (h.table_saveSnapshot hs hr)
  marked hne := absurd rfl hne

theorem Backed.saveTaskResult (h : σ.Backed) {taskId : TaskId}
    (hout : ∀ r, σ.held.getTaskResult taskId = some r → r.output = output) :
    (step (.saveTaskResult taskId output) σ).Backed := by
  cases hload : loadSnapshot σ.world with
  | none =>
    have hresult : Postgres.saveTaskResult taskId output σ.world
        = (.error (.notFound σ.world.instanceId), σ.world) := by
      rw [Postgres.saveTaskResult, hload]
    simp only [step, hresult]
    exact h
  | some s =>
    have hresult : Postgres.saveTaskResult taskId output σ.world
        = (.ok (), { σ.world with
            snapshot := some (postgres.stored (s.markTaskCompleted taskId output))
            outputs := Function.update σ.world.outputs taskId (some output) }) := by
      rw [Postgres.saveTaskResult, hload]
    simp only [step, hresult]
    refine ⟨fun s' t r hs' hr => ?_, fun t r hr => ?_, fun hne => h.marked fun hnil => ?_⟩
    · cases hs'
      exact stripped_stored _ hr
    · by_cases ht : t = taskId
      · subst ht
        right
        simp [table, hout r hr]
      · rcases h.outputs t r hr with hmem | htable
        · left
          simpa [Except.isOk, Except.toBool, ht] using hmem
        · right
          simpa [table, Function.update_of_ne ht] using htable
    · simp [hnil] at hne

/-- **One step keeps every output backed.** -/
theorem backed_step (op : SessionOp) (h : σ.Backed) (hop : Single op σ) : (step op σ).Backed := by
  cases op with
  | load =>
    simp only [step]
    split
    · exact h
    · rename_i s hs
      exact ⟨h.stripped, fun t r hr => .inr (output_loadSnapshot h.stripped hs hr).symm,
        fun hne => absurd rfl hne⟩
  | complete taskId output =>
    simp only [step]
    by_cases hp : σ.held.isInProgress
    · refine ⟨h.stripped, fun t r hr => ?_, fun _ =>
        outputUnflushed_markTaskCompleted output hp⟩
      rw [getTaskResult_markTaskCompleted] at hr
      split at hr
      · rename_i hcase
        exact .inl (by simp [hp, hcase.2])
      · exact (h.outputs t r hr).imp_left fun hmem => by simp [hp, hmem]
    · have hsame : σ.held.markTaskCompleted taskId output = σ.held := by
        unfold markTaskCompleted
        unfold isInProgress at hp
        split <;> simp_all
      rw [hsame, if_neg hp]
      exact h
  | edit e =>
    exact ⟨h.stripped, fun t r hr => h.outputs t r (e.results _ t r hr), fun hne => by
      simp only [step, e.unflushed]
      exact h.marked hne⟩
  | save => exact h.save hop.1
  | saveFenced taskId workerId =>
    simp only [step]
    rcases saveSnapshotFenced_cases (b := postgres) (w := σ.world) taskId
      workerId σ.held with hw | hw
    · rw [hw]
      exact h.save hop.1
    · rw [hw]
      exact h
  | saveTaskResult taskId output => exact h.saveTaskResult hop.1
  | call c =>
    simp only [step]
    split
    · rename_i hc
      obtain ⟨ho, hs⟩ := run_of_keepsOutputs hc σ.world
      refine ⟨fun s' t r hs' hr => ?_, fun t r hr => ?_, h.marked⟩
      · obtain ⟨s, hsome, hsub⟩ := hs s' hs'
        exact h.stripped s t r hsome (hsub t r hr)
      · refine (h.outputs t r hr).imp_right fun htable => ?_
        simpa [table, ho] using htable
    · exact h

/--
**What is saved is read back**, in every session that never has more than one output to
ship when it saves: after each save of a snapshot that is not terminal, by
`save_snapshot`, `save_snapshot_fenced` or `save_task_result`, `load_snapshot` returns
the same position and the same completed tasks with the same outputs.
-/
theorem load_returns_saved {instanceId : String} {now : Time} {hash : DefinitionHash}
    {input : Bytes} (h : Walk step Single (start instanceId now hash input) σ) (op : SessionOp)
    (hop : Single op σ) {s : WorkflowSnapshot} (hs : saves op σ = some s) :
    ∃ s', loadSnapshot (step op σ).world = some s' ∧ Agrees s' s := by
  have hb : σ.Backed := h.invariant (backed_start instanceId now hash input)
    fun op' σ' hb hop' => backed_step op' hb hop'
  cases op with
  | save =>
    cases hs
    exact hb.agrees_save hop.1 hop.2
  | saveFenced taskId workerId =>
    simp only [saves] at hs
    split at hs
    · rename_i hholds
      cases hs
      simp only [step, saveSnapshotFenced, hholds, if_true]
      exact hb.agrees_save hop.1 hop.2
    · cases hs
  | saveTaskResult taskId output =>
    obtain ⟨s₀, hload, rfl⟩ := Option.map_eq_some_iff.mp hs
    refine agrees_saveTaskResult hb.stripped hload ?_
    obtain ⟨blob, hblob, rfl⟩ := Option.map_eq_some_iff.mp hload
    refine (hop.2 blob hblob).imp (fun hp => ?_) fun hnone => ?_
    · rw [hydrateTaskOutputs, isInProgress_mapOutputs, hp]
    · rw [hydrateTaskOutputs, getTaskResult_mapOutputs, hnone]
      rfl
  | load => cases hs
  | complete taskId output => cases hs
  | edit e => cases hs
  | call c => cases hs

/-! ## The sessions of workers -/

/-- One change of the held snapshot. -/
def Change (s s' : WorkflowSnapshot) : Prop :=
  (∃ taskId output, s' = s.markTaskCompleted taskId output) ∨ ∃ e : Edit, s' = e.apply s

/-- Changes of the held snapshot are steps of a session. -/
theorem walk_of_changes {s' : WorkflowSnapshot} (h : Relation.ReflTransGen Change s s')
    (w : PoolWorld) (u : List TaskId) : ∃ u', Walk step Single ⟨w, s, u⟩ ⟨w, s', u'⟩ := by
  induction h with
  | refl => exact ⟨u, .refl⟩
  | tail _ hc ih =>
    obtain ⟨u', hw⟩ := ih
    rcases hc with ⟨taskId, output, rfl⟩ | ⟨e, rfl⟩
    · exact ⟨_, Walk.tail (SessionOp.complete taskId output) hw trivial⟩
    · exact ⟨_, Walk.tail (SessionOp.edit e) hw trivial⟩

theorem change_complete (s : WorkflowSnapshot) (taskId : TaskId) (output : Bytes) :
    Change s (s.markTaskCompleted taskId output) := .inl ⟨taskId, output, rfl⟩

theorem change_edit (s : WorkflowSnapshot) (e : Edit) : Change s (e.apply s) := .inr ⟨e, rfl⟩

/-- A drained event is recorded by changes of the held snapshot. -/
theorem changes_leaveDrained (payload : Bytes) (s : WorkflowSnapshot) :
    Relation.ReflTransGen Change s (Submission.leaveDrained payload s) := by
  unfold Submission.leaveDrained
  split
  · rename_i signalId _ _ next _ _ _
    have hmarked := Relation.ReflTransGen.single (change_complete s signalId payload)
    cases next with
    | some taskId => exact hmarked.tail (change_edit _ (.updatePosition (.atTask taskId)))
    | none => exact hmarked.tail (change_edit _ (.markCompleted payload))
  · exact .refl

section hashed

variable [Sha256]

/-- Moving to a node is a matter of changes: a delay is also recorded. -/
theorem changes_setPositionAt (s₀ : WorkflowSnapshot) (now : Time) (c : WorkflowContinuation) :
    Preserves (Relation.ReflTransGen Change s₀) (WorkflowContinuation.setPositionAt now c) := by
  intro s s' h hs
  have parked : ∀ hint position, Relation.ReflTransGen Change s₀
      ((s.setTaskHint hint).updatePosition position) := fun hint position =>
    (hs.tail (change_edit s (.setTaskHint hint))).tail
      (change_edit _ (.updatePosition position))
  unfold WorkflowContinuation.setPositionAt at h
  split at h
  · obtain ⟨wakeAt, -, h⟩ := Except.bind_eq_ok_iff.mp h
    cases h
    exact (parked _ _).tail (change_complete _ _ _)
  · cases h
    exact parked _ _
  · cases h
    exact (hs.tail (change_edit s (.updatePosition _))).tail (change_edit _ (.setTaskHint _))

/-- **The snapshot that a worker commits is reached from the one it was offered** by
changes of a session. -/
theorem changes_commitSnapshot {job : Submission} {task : AvailableTask}
    {now : Time} (h : job.commitSnapshot task output now = .ok s) :
    Relation.ReflTransGen Change task.snapshot s := by
  refine preserves_updatePositionAfterTask job.continuation
    (fun n _ => changes_setPositionAt task.snapshot now n) _ s h ?_
  exact ((Relation.ReflTransGen.single (change_edit task.snapshot .clearTaskDeadline)).tail
    (change_edit _ (.clearRetryState task.taskId))).tail (change_complete _ _ _)

/-- So is the snapshot with which a failure is settled. -/
theorem changes_settleFailure {job : Submission} {worker : Worker} {task task' : AvailableTask}
    {error : RuntimeError} {now : Time}
    (h : job.settleFailure worker task error now = .retrying task' s
      ∨ job.settleFailure worker task error now = .failing task' s) :
    Relation.ReflTransGen Change task.snapshot s := by
  have hcleared := Relation.ReflTransGen.single (change_edit task.snapshot .clearTaskDeadline)
  unfold Submission.settleFailure at h
  dsimp only at h
  split at h
  · rename_i policy _
    split at h
    · rcases h with h | h <;> cases h
      exact hcleared.tail (change_edit _ (.markFailed error))
    · rcases h with h | h <;> cases h
      exact (hcleared.tail (change_edit _ (.recordRetry task.taskId policy error
        (some worker.id) now))).tail (change_edit _ .clearTaskDeadline)
  · rcases h with h | h <;> cases h
    exact hcleared.tail (change_edit _ (.markFailed error))

end hashed

section sample

attribute [local instance] Sha256.packed

/-- The first save of an instance whose first task is completed. -/
theorem load_returns_saved_first_task :
    let σ := step (.complete (TaskId.sha256 "t1") [5]) (start "i" 0 ⟨0⟩ [1])
    ∃ s', loadSnapshot (step .save σ).world = some s' ∧ Agrees s' σ.held := by
  intro σ
  have hwalk : Walk step Single (start "i" 0 ⟨0⟩ [1]) σ := Walk.single _ trivial
  refine load_returns_saved hwalk .save ⟨fun t ht _ => ?_, fun s hs => nomatch hs⟩ rfl
  rw [List.mem_singleton.mp ht]
  rfl

/-- A worker completes a task that is followed by a delay and commits both at once. The
output of the task never reaches the table, and a reader finds it empty. -/
theorem output_is_lost_before_delay :
    let job := sampleChain .postgres delayBetween
    let σ := perform job.step (.poll (sampleWorker "a") :: Action.calls 0 6) (job.start "i" 0)
    job.Reachable (fun _ _ => True) "i" 0 σ
      ∧ (σ.processes.any fun p => match p.phase with
          | .committing _ s _ => !s.isTerminal
              && decide (s.getTaskResultBytes (TaskId.sha256 "t1") = some [1, 116, 49])
          | _ => false)
      ∧ (loadSnapshot (job.step (.work 0 .proceed) σ).world).any fun s =>
          s.currentTaskId.isNone
            && decide (s.getTaskResultBytes (TaskId.sha256 "t1") = some []) := by
  refine ⟨Walk.perform ?_, ?_, ?_⟩ <;> decide

end sample

end Session

end Sayiir
