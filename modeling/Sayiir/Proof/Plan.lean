import Sayiir.Proof.PoolSteps
import Sayiir.Proof.Recursions

/-!
# Plans

Without loops, waits and routing a pool executes the tasks of a workflow one after
the other, in an order the tree fixes. A plan lists them: the `k`-th task is called
with `input k` and returns `output k`, where the inputs are what the pool makes of
the results recorded so far. Nothing in a plan depends on workers, leases or time.

If the recursions of the worker follow the plan (`Plan.Fits`), then so does every
run of the pool, whatever the interleaving and whatever fails: every snapshot that
is stored or in flight, out of date as it may be, records the results of the first
tasks of the plan and stands at the next one (`Plan.Stage`).
-/

namespace Sayiir

open Backend WorkflowSnapshot Submission

variable {t : TaskId} {s : WorkflowSnapshot}

/-- The calls that a pool makes for a workflow, one after the other. -/
structure Plan where
  names : List String
  input : ℕ → Except RuntimeError Bytes
  output : ℕ → Option Bytes
  /-- The calls the plan accounts for. -/
  allowed : ℕ → Bool

section stages

variable [Sha256] (plan : Plan) (job : Submission)

def Plan.ids : List TaskId := plan.names.map TaskId.sha256

/-- What a poll finds as the input of the `k`-th task. -/
def Plan.raw : ℕ → Option Bytes
  | 0 => some job.input
  | k + 1 => plan.output k

/-- A snapshot that is running or paused records the first `k` tasks of the plan and
stands at the next one. After the last task the position is that of some task. -/
structure Plan.Stage (k : ℕ) (s : WorkflowSnapshot) : Prop where
  le : k ≤ plan.ids.length
  position : ∀ t, plan.ids[k]? = some t → s.position = some (.atTask t)
  ended : k = plan.ids.length → ∃ t ∈ plan.ids, s.position = some (.atTask t)
  recorded : ∀ (j : ℕ) t, j < k → plan.ids[j]? = some t →
    ∃ o, plan.output j = some o ∧ s.getTaskResult t = some ⟨t, o⟩
  fresh : ∀ t, t ∉ plan.ids.take k → s.getTaskResult t = none
  last : s.lastCompletedTaskId = if k = 0 then none else plan.ids[k - 1]?
  initialInput : s.initialInput = some job.input
  definitionHash : s.definitionHash = job.definitionHash
  retries : ∀ t, plan.ids[k]? ≠ some t → s.taskRetries.lookup t = none

/-- The recursions of the worker follow the plan. -/
structure Plan.Fits : Prop where
  nodup : plan.ids.Nodup
  first : plan.ids[0]? = some job.continuation.firstTaskHint.id
  indexed : ∀ t ∈ plan.ids, (job.continuation.indexed t).isSome
  executeTaskById : ∀ (k : ℕ) t name, plan.ids[k]? = some t →
    job.continuation.executeTaskById t = .ok name → plan.names[k]? = some name
  taskInput : ∀ (k : ℕ) task, plan.ids[k]? = some task.taskId → plan.Stage job k task.snapshot →
    plan.raw job k = some task.input → job.taskInput task = plan.input k
  output : ∀ (k : ℕ) name x o, plan.allowed k → plan.names[k]? = some name → plan.input k = .ok x →
    job.callbacks.execute name x = .ok o → plan.output k = some o
  updatePosition : ∀ (k : ℕ) t o s now, plan.ids[k]? = some t → plan.output k = some o →
    s.isInProgress → s.position = some (.atTask t) →
    (∀ u, (s.getTaskResult u).isSome ↔ u ∈ plan.ids.take (k + 1)) →
    ∃ u hint, job.continuation.updatePositionAfterTask now t s
        = .ok ((s.updatePosition (.atTask u)).setTaskHint hint)
      ∧ (∀ v, plan.ids[k + 1]? = some v → u = v) ∧ u ∈ plan.ids
  settled : ∀ k s, plan.Stage job k s →
    job.continuation.resolveLoops job.backend job.codec s = .ok s
  complete : ∀ k s, plan.Stage job k s →
    job.continuation.isWorkflowComplete s = decide (k = plan.ids.length)

/-- Postgres has the outputs of the first `k` tasks. -/
def Plan.Covered (w : PoolWorld) (k : ℕ) : Prop :=
  job.backend = postgres → ∀ (j : ℕ) t, j < k → plan.ids[j]? = some t →
    plan.output j = some ((w.outputs t).getD [])

/-- The outputs that Postgres has are those of the plan. -/
def Plan.OutputsRight (w : PoolWorld) : Prop :=
  ∀ t o, w.outputs t = some o → ∃ j, plan.ids[j]? = some t ∧ plan.output j = some o

/-- Every task has returned, and `out` is what the last one has returned. -/
def Plan.Finished (out : Bytes) : Prop :=
  (∀ j < plan.ids.length, (plan.output j).isSome) ∧ plan.output (plan.ids.length - 1) = some out

/-- What may be stored. -/
def Plan.StoredRight (w : PoolWorld) : Prop :=
  ∀ s, w.snapshot = some s → match s.state with
    | .inProgress .. | .paused .. =>
      ∃ k, plan.Stage job k (job.backend.view w s) ∧ plan.Covered job w k
    | .cancelled .. => ∀ t r, (job.backend.view w s).getTaskResult t = some r →
        ∃ j, plan.ids[j]? = some t ∧ plan.output j = some r.output
    | .completed out => plan.Finished out
    | .failed _ => True

/-- Every call was one of the plan. -/
def Plan.CallsRight (w : PoolWorld) : Prop :=
  ∀ name x time, Event.taskCalled name x time ∈ w.trace →
    ∃ k, plan.allowed k ∧ plan.names[k]? = some name ∧ plan.input k = .ok x

/-- What the pool shares is in accordance with the plan. -/
structure Plan.WorldRight (w : PoolWorld) : Prop where
  outputs : plan.OutputsRight w
  stored : plan.StoredRight job w
  calls : plan.CallsRight w

/-- An offer of the next task of the plan. -/
def Plan.Offer (w : PoolWorld) (k : ℕ) (task : AvailableTask) : Prop :=
  plan.ids[k]? = some task.taskId ∧ plan.Stage job k task.snapshot ∧ task.snapshot.isInProgress
    ∧ plan.raw job k = some task.input ∧ plan.Covered job w k

/-- The snapshot of a committed result. -/
def Plan.After (w : PoolWorld) (s : WorkflowSnapshot) (output : Bytes) : Prop :=
  ∃ k, k < plan.ids.length ∧ plan.Stage job (k + 1) s ∧ s.isInProgress
    ∧ plan.output k = some output ∧ plan.Covered job w (k + 1)

/-- What a process holds is in accordance with the plan. -/
def Plan.Holds (w : PoolWorld) : Phase → Prop
  | .hydrating s =>
    ∃ k, plan.Stage job k (s.hydrateTaskOutputs w.outputs) ∧ s.isInProgress ∧ plan.Covered job w k
  | .offered task | .guarding task _ | .executing task => ∃ k, plan.Offer job w k task
  | .running task outcome _ _ => ∃ k, plan.Offer job w k task
      ∧ ∀ o, outcome = .ok o → plan.output k = some o
  | .retrying _ s => ∃ k, k < plan.ids.length ∧ plan.Stage job k s ∧ s.isInProgress
      ∧ plan.Covered job w k
  | .failing _ s => ∃ e, s.state = .failed e
  | .committing task s output => ∃ k, plan.ids[k]? = some task.taskId ∧ plan.Stage job (k + 1) s
      ∧ s.isInProgress ∧ plan.output k = some output ∧ plan.Covered job w k ∧ s.outputUnflushed
  | .handingBack _ s output | .concluding s output _ => plan.After job w s output
  | .completing s => ∃ out, s.state = .completed out ∧ plan.Finished out
  | .collecting | .selecting => job.backend = inMemory
  | .advancing _ | .waking .. | .draining .. | .drained .. | .resolving .. => False
  | .polling | .releasing _ | .cancelling _ | .cancelled .. | .done => True

/-- A step that calls a task calls one that the plan accounts for. -/
def Plan.Permits : Action → Pool → Prop
  | .work i _, σ => ∀ p task, σ.processes[i]? = some p → p.phase = .executing task →
      ∀ k : ℕ, plan.ids[k]? = some task.taskId → plan.allowed k
  | _, _ => True

end stages

namespace Plan

variable [Sha256] {plan : Plan} {job : Submission}

/-! ## Stages -/

section stages

variable {k : ℕ} {s s' : WorkflowSnapshot} {t : TaskId}

theorem mem_take_ids : t ∈ plan.ids.take k ↔ ∃ j < k, plan.ids[j]? = some t := by
  rw [List.mem_iff_getElem?]
  constructor
  · rintro ⟨j, hj⟩
    rw [List.getElem?_take] at hj
    split at hj
    · rename_i hlt
      exact ⟨j, hlt, hj⟩
    · cases hj
  · rintro ⟨j, hlt, hj⟩
    exact ⟨j, by rw [List.getElem?_take, if_pos hlt, hj]⟩

/-- A task has one place in the plan. -/
theorem Fits.index_unique (hfit : plan.Fits job) {i j : ℕ} (hi : plan.ids[i]? = some t)
    (hj : plan.ids[j]? = some t) : i = j := by
  have hlt : i < plan.ids.length := by
    rw [List.getElem?_eq_some_iff] at hi
    exact hi.1
  exact (List.getElem?_inj hlt hfit.nodup).mp (hi.trans hj.symm)

theorem lt_of_getElem? (h : plan.ids[k]? = some t) : k < plan.ids.length := by
  rw [List.getElem?_eq_some_iff] at h
  exact h.1

/-- A stage is a matter of what can be read from a snapshot. -/
theorem Stage.congr (h : plan.Stage job k s) (hp : s'.position = s.position)
    (hr : ∀ t, s'.getTaskResult t = s.getTaskResult t)
    (hl : s'.lastCompletedTaskId = s.lastCompletedTaskId) (hi : s'.initialInput = s.initialInput)
    (hh : s'.definitionHash = s.definitionHash) (ht : s'.taskRetries = s.taskRetries) :
    plan.Stage job k s' where
  le := h.le
  position t ht := hp.trans (h.position t ht)
  ended hk := by
    rw [hp]
    exact h.ended hk
  recorded j t hj hjt := by
    rw [hr]
    exact h.recorded j t hj hjt
  fresh t hn := (hr t).trans (h.fresh t hn)
  last := hl.trans h.last
  initialInput := hi.trans h.initialInput
  definitionHash := hh.trans h.definitionHash
  retries t hn := by
    rw [ht]
    exact h.retries t hn

/-- The next task of the plan is not recorded. -/
theorem Stage.next_fresh (hfit : plan.Fits job) (h : plan.Stage job k s)
    (hk : plan.ids[k]? = some t) : s.getTaskResult t = none := by
  refine h.fresh t fun hmem => ?_
  obtain ⟨j, hj, hjt⟩ := mem_take_ids.mp hmem
  have := hfit.index_unique hk hjt
  omega

/-- A snapshot at a task that is not recorded stands at the next task of the plan. -/
theorem Stage.index_of_fresh (h : plan.Stage job k s) (hp : s.position = some (.atTask t))
    (hr : s.getTaskResult t = none) : plan.ids[k]? = some t := by
  rcases h.le.lt_or_eq with hlt | heq
  · have hk : plan.ids[k]? = some (plan.ids[k]) := List.getElem?_eq_getElem hlt
    have hpk := h.position _ hk
    rw [hp, Option.some.injEq, ExecutionPosition.atTask.injEq] at hpk
    rw [hk, ← hpk]
  · obtain ⟨u, hu, hpu⟩ := h.ended heq
    rw [hp, Option.some.injEq, ExecutionPosition.atTask.injEq] at hpu
    subst hpu
    obtain ⟨j, hj⟩ := List.mem_iff_getElem?.mp hu
    obtain ⟨o, -, ho⟩ := h.recorded j t (heq ▸ lt_of_getElem? hj) hj
    simp [ho] at hr

/-- An entry of a snapshot in accordance with the plan. -/
theorem Stage.entry (h : plan.Stage job k s) {r : TaskResult} (hr : s.getTaskResult t = some r) :
    ∃ j, plan.ids[j]? = some t ∧ plan.output j = some r.output := by
  by_cases hmem : t ∈ plan.ids.take k
  · obtain ⟨j, hj, hjt⟩ := mem_take_ids.mp hmem
    obtain ⟨o, ho, hrec⟩ := h.recorded j t hj hjt
    obtain rfl : _ = r := Option.some.inj (hrec.symm.trans hr)
    exact ⟨j, hjt, ho⟩
  · simp [h.fresh t hmem] at hr

/-- A snapshot in accordance with the plan is at a task. -/
theorem Stage.atTask (h : plan.Stage job k s) : ∃ t ∈ plan.ids, s.position = some (.atTask t) := by
  rcases h.le.lt_or_eq with hlt | heq
  · exact ⟨_, List.getElem_mem hlt, h.position _ (List.getElem?_eq_getElem hlt)⟩
  · exact h.ended heq

/-- What a poll offers of a snapshot in accordance with the plan. -/
theorem Stage.buildAvailableTask (h : plan.Stage job k s) (hp : s.isInProgress) (t : TaskId) :
    ∃ input, plan.raw job k = some input
      ∧ PoolWorld.buildAvailableTask s t = some ⟨t, input, s.definitionHash, s⟩ := by
  obtain ⟨position, completed, last, hs⟩ := isInProgress_iff.mp hp
  have hlookup : ∀ u, s.getTaskResult u = completed.lookup u := by
    intro u
    simp [getTaskResult, getAllTaskResults, hs]
  unfold PoolWorld.buildAvailableTask
  rw [hs]
  dsimp only
  cases k with
  | zero =>
    have hempty : completed.entries = [] := by
      cases he : completed.entries with
      | nil => rfl
      | cons e es =>
        have hmem : e.1 ∈ completed := by
          rw [AList.mem_keys, AList.keys, he]
          simp
        have hnone := h.fresh e.1 (by simp)
        rw [hlookup, AList.lookup_eq_none] at hnone
        exact absurd hmem hnone
    refine ⟨job.input, rfl, ?_⟩
    simp [hempty, h.initialInput]
  | succ j =>
    have hlt : j < plan.ids.length := h.le
    obtain ⟨o, ho, hrec⟩ := h.recorded j _ (Nat.lt_succ_self j) (List.getElem?_eq_getElem hlt)
    have hlast := h.last
    simp only [Nat.add_one_ne_zero, if_false, Nat.add_sub_cancel,
      List.getElem?_eq_getElem hlt, lastCompletedTaskId, hs] at hlast
    have hne : completed.entries.isEmpty = false := by
      rw [hlookup] at hrec
      cases he : completed.entries with
      | nil => simp [AList.lookup, he] at hrec
      | cons e es => rfl
    refine ⟨o, ho, ?_⟩
    rw [hlookup] at hrec
    simp [hne, getLastTaskOutput, hs, hlast, hrec]

/-- The snapshot with the outputs of a table in place of its own. -/
theorem Stage.mapOutputs {f : TaskId → Bytes → Bytes} (h : plan.Stage job k s)
    (hf : ∀ (j : ℕ) t o, j < k → plan.ids[j]? = some t → plan.output j = some o → f t o = o) :
    plan.Stage job k (s.mapOutputs f) where
  le := h.le
  position t ht := by simpa using h.position t ht
  ended hk := by simpa using h.ended hk
  recorded j t hj hjt := by
    obtain ⟨o, ho, hrec⟩ := h.recorded j t hj hjt
    exact ⟨o, ho, by simp [getTaskResult_mapOutputs, hrec, hf j t o hj hjt ho]⟩
  fresh t hn := by simp [getTaskResult_mapOutputs, h.fresh t hn]
  last := by simpa using h.last
  initialInput := by simpa using h.initialInput
  definitionHash := by simpa using h.definitionHash
  retries t hn := by simpa using h.retries t hn

end stages

/-! ## The table of outputs -/

section outputs

variable {k : ℕ} {s : WorkflowSnapshot} {w w' : PoolWorld}

/-- The table of outputs only grows. -/
def Grows (plan : Plan) (w w' : PoolWorld) : Prop :=
  plan.OutputsRight w' ∧ ∀ t o, w.outputs t = some o → w'.outputs t = some o

theorem Grows.of_eq (h : plan.OutputsRight w) (ho : w'.outputs = w.outputs) : plan.Grows w w' := by
  refine ⟨fun t o hto => h t o (ho ▸ hto), fun t o hto => ho ▸ hto⟩

/-- A reader of the grown table gets the same output of a task of the plan. -/
theorem Grows.getD (hfit : plan.Fits job) (h : plan.Grows w w') {j : ℕ} {o own : Bytes}
    (hj : plan.ids[j]? = some t) (ho : plan.output j = some o)
    (hw : (w.outputs t).getD own = o) : (w'.outputs t).getD own = o := by
  cases hw' : w'.outputs t with
  | none =>
    cases hwt : w.outputs t with
    | none => simpa [hwt] using hw
    | some o' => simp [h.2 t o' hwt] at hw'
  | some o' =>
    obtain ⟨i, hi, hio⟩ := h.1 t o' hw'
    obtain rfl := hfit.index_unique hi hj
    simpa [ho] using hio.symm

theorem Covered.grow (hfit : plan.Fits job) (h : plan.Covered job w k) (hg : plan.Grows w w') :
    plan.Covered job w' k := by
  intro hb j t hj hjt
  have ho := h hb j t hj hjt
  rw [ho, hg.getD hfit hjt ho rfl]

theorem Stage.hydrate_grow (hfit : plan.Fits job)
    (h : plan.Stage job k (s.hydrateTaskOutputs w.outputs)) (hg : plan.Grows w w') :
    plan.Stage job k (s.hydrateTaskOutputs w'.outputs) := by
  have hagree : ∀ (j : ℕ) t r, j < k → plan.ids[j]? = some t → s.getTaskResult t = some r →
      (w'.outputs t).getD r.output = (w.outputs t).getD r.output := by
    intro j t r hj hjt hr
    obtain ⟨o, ho, hrec⟩ := h.recorded j t hj hjt
    simp only [hydrateTaskOutputs, getTaskResult_mapOutputs, hr,
      Option.map_some, Option.some.injEq, TaskResult.mk.injEq] at hrec
    rw [hrec.2]
    exact hg.getD hfit hjt ho hrec.2
  have hres : ∀ t, (s.hydrateTaskOutputs w'.outputs).getTaskResult t
      = (s.hydrateTaskOutputs w.outputs).getTaskResult t := by
    intro t
    by_cases hmem : t ∈ plan.ids.take k
    · obtain ⟨j, hj, hjt⟩ := mem_take_ids.mp hmem
      unfold hydrateTaskOutputs
      rw [getTaskResult_mapOutputs, getTaskResult_mapOutputs]
      cases hr : s.getTaskResult t with
      | none => rfl
      | some r => simp [hagree j t r hj hjt hr]
    · have hnone := h.fresh t hmem
      unfold hydrateTaskOutputs at hnone ⊢
      rw [getTaskResult_mapOutputs, Option.map_eq_none_iff] at hnone
      rw [getTaskResult_mapOutputs, getTaskResult_mapOutputs, hnone]
      rfl
  exact h.congr (by simp [hydrateTaskOutputs]) hres
    (by simp [hydrateTaskOutputs]) (by simp [hydrateTaskOutputs])
    (by simp [hydrateTaskOutputs]) (by simp [hydrateTaskOutputs])

/-- What a reader gets stays in accordance with the plan. -/
theorem Stage.view_grow (hfit : plan.Fits job) (h : plan.Stage job k (job.backend.view w s))
    (hg : plan.Grows w w') : plan.Stage job k (job.backend.view w' s) := by
  cases hb : job.backend with
  | inMemory =>
    rw [hb] at h
    exact h
  | postgres =>
    rw [hb] at h
    exact Stage.hydrate_grow hfit h hg

/-- A reader of a stored snapshot gets its outputs back. -/
theorem Stage.view_stored (h : plan.Stage job k s) (hcov : plan.Covered job w k) :
    plan.Stage job k (job.backend.view w (job.backend.stored s)) := by
  cases hb : job.backend with
  | inMemory => exact h
  | postgres =>
    have hmap : plan.Stage job k (s.mapOutputs fun t _ => (w.outputs t).getD []) := by
      refine h.mapOutputs fun j t o hj hjt ho => ?_
      have := hcov hb j t hj hjt
      rw [ho, Option.some.injEq] at this
      exact this.symm
    refine hmap.congr ?_ (fun t => ?_) ?_ ?_ ?_ ?_
    all_goals simp [view, stored, hydrateTaskOutputs,
      stripTaskOutputs, getTaskResult_mapOutputs]
    rfl

/-- Saving a snapshot in accordance with the plan, or one that marks no task as the
last, lets the table grow. -/
theorem grows_saveSnapshot (hfit : plan.Fits job) (hw : plan.OutputsRight w)
    (hs : (∃ k, plan.Stage job k s) ∨ s.lastCompletedTaskId = none) :
    plan.Grows w (job.backend.saveSnapshot s w) := by
  rcases outputs_saveSnapshot s with ⟨h, -⟩ | ⟨-, -, t, hl, h⟩
  · exact Grows.of_eq hw h
  rcases hs with ⟨k, hk⟩ | hnone
  · -- the output that is shipped is the one of the last task recorded
    have hlast := hk.last
    rw [hl] at hlast
    split at hlast
    · cases hlast
    · rename_i hk0
      obtain ⟨o, ho, hrec⟩ := hk.recorded (k - 1) t (by omega) hlast.symm
      have hbytes : s.getTaskResultBytes t = some o := by
        simp [getTaskResultBytes, hrec]
      unfold Grows OutputsRight
      rw [h, hbytes]
      refine ⟨fun u v huv => ?_, fun u v huv => ?_⟩
      · by_cases hu : u = t
        · subst hu
          rw [Function.update_self] at huv
          exact ⟨k - 1, hlast.symm, ho.trans huv⟩
        · rw [Function.update_of_ne hu] at huv
          exact hw u v huv
      · by_cases hu : u = t
        · subst hu
          obtain ⟨j, hj, hjv⟩ := hw u v huv
          obtain rfl := hfit.index_unique hj hlast.symm
          rw [Function.update_self, ← hjv, ho]
        · rw [Function.update_of_ne hu]
          exact huv
  · simp [hnone] at hl

/-- Saving the snapshot of a commit covers the task that was committed. -/
theorem covered_saveSnapshot (hfit : plan.Fits job) (hw : plan.OutputsRight w)
    (hs : plan.Stage job (k + 1) s) (hcov : plan.Covered job w k) (hu : s.outputUnflushed) :
    plan.Covered job (job.backend.saveSnapshot s w) (k + 1) := by
  have hgrow := grows_saveSnapshot hfit hw (.inl ⟨_, hs⟩)
  have hlt : k < plan.ids.length := hs.le
  have hlast : s.lastCompletedTaskId = some plan.ids[k] := by
    simpa [List.getElem?_eq_getElem hlt] using hs.last
  intro hb j t hj hjt
  rcases Nat.lt_succ_iff_lt_or_eq.mp hj with hlt' | rfl
  · exact hcov.grow hfit hgrow hb j t hlt' hjt
  · obtain ⟨o, ho, hrec⟩ := hs.recorded j t hj hjt
    obtain rfl : plan.ids[j] = t := by simpa [List.getElem?_eq_getElem hlt] using hjt
    rcases outputs_saveSnapshot s with ⟨-, h⟩ | ⟨-, -, u, hl, h⟩
    · simp [h hb hu] at hlast
    · obtain rfl : plan.ids[j] = u := by simpa [hlast] using hl
      rw [h, Function.update_self, getTaskResultBytes, hrec]
      exact ho

end outputs

/-! ## What is stored -/

section stored

variable {k : ℕ} {s s' : WorkflowSnapshot} {w w' : PoolWorld}

/-- What a reader gets of a snapshot that differs in nothing that a stage looks at. -/
theorem Stage.view_congr (h : plan.Stage job k (job.backend.view w s))
    (hp : s'.position = s.position) (hr : ∀ t, s'.getTaskResult t = s.getTaskResult t)
    (hl : s'.lastCompletedTaskId = s.lastCompletedTaskId) (hi : s'.initialInput = s.initialInput)
    (hh : s'.definitionHash = s.definitionHash) (ht : s'.taskRetries = s.taskRetries) :
    plan.Stage job k (job.backend.view w s') := by
  cases hb : job.backend with
  | inMemory =>
    rw [hb] at h
    exact Stage.congr h hp hr hl hi hh ht
  | postgres =>
    rw [hb] at h
    refine Stage.congr h ?_ (fun t => ?_) ?_ ?_ ?_ ?_
    all_goals simp [view, hydrateTaskOutputs,
      getTaskResult_mapOutputs, hp, hr, hl, hi, hh, ht]

/-- A stored snapshot in progress is at a stage. -/
theorem StoredRight.stage (h : plan.StoredRight job w) (hs : w.snapshot = some s)
    (hp : s.isInProgress) :
    ∃ k, plan.Stage job k (job.backend.view w s) ∧ plan.Covered job w k := by
  obtain ⟨position, completed, last, hst⟩ := isInProgress_iff.mp hp
  have := h s hs
  rw [hst] at this
  exact this

/-- What a reader of the grown table gets for an entry. -/
theorem getTaskResult_view_grow (hg : plan.Grows w w') {r : TaskResult}
    (h : (job.backend.view w' s).getTaskResult t = some r)
    (hw : ∀ r, (job.backend.view w s).getTaskResult t = some r →
      ∃ j, plan.ids[j]? = some t ∧ plan.output j = some r.output) :
    ∃ j, plan.ids[j]? = some t ∧ plan.output j = some r.output := by
  cases hb : job.backend with
  | inMemory =>
    rw [hb] at h hw
    exact hw r h
  | postgres =>
    rw [hb] at h hw
    simp only [view, hydrateTaskOutputs,
      getTaskResult_mapOutputs] at h hw
    obtain ⟨own, hown, rfl⟩ := Option.map_eq_some_iff.mp h
    cases hw' : w'.outputs t with
    | some o =>
      obtain ⟨j, hj, hjo⟩ := hg.1 t o hw'
      exact ⟨j, hj, by simpa using hjo⟩
    | none =>
      have hwt : w.outputs t = none := by
        cases hwt : w.outputs t with
        | none => rfl
        | some o => simp [hg.2 t o hwt] at hw'
      have := hw _ (by rw [hown]; rfl)
      simpa [hwt] using this

/-- What was stored stays right when the table grows. -/
theorem StoredRight.grow (hfit : plan.Fits job) (h : plan.StoredRight job w)
    (hg : plan.Grows w w') (hs : w'.snapshot = w.snapshot) : plan.StoredRight job w' := by
  intro s hss
  rw [hs] at hss
  have hold := h s hss
  split <;> rename_i hst <;> rw [hst] at hold
  · obtain ⟨k, hk, hc⟩ := hold
    exact ⟨k, hk.view_grow hfit hg, hc.grow hfit hg⟩
  · obtain ⟨k, hk, hc⟩ := hold
    exact ⟨k, hk.view_grow hfit hg, hc.grow hfit hg⟩
  · intro t r hr
    exact getTaskResult_view_grow hg hr (hold t)
  · exact hold
  · trivial

/-- A new snapshot in accordance with the plan. -/
theorem storedRight_of_stage (hs : w.snapshot = some s)
    (h : plan.Stage job k (job.backend.view w s)) (hc : plan.Covered job w k) :
    plan.StoredRight job w := by
  intro s' hs'
  obtain rfl : s = s' := by simpa [hs] using hs'
  have hpos : s.position.isSome := by
    rw [← position_view (b := job.backend) (w := w)]
    obtain ⟨t, -, ht⟩ := h.atTask
    rw [ht]
    rfl
  unfold WorkflowSnapshot.position at hpos
  split
  · exact ⟨k, h, hc⟩
  · exact ⟨k, h, hc⟩
  all_goals
    rename_i hst
    simp [hst] at hpos

end stored

/-! ## Offers -/

section offers

variable {k : ℕ} {s : WorkflowSnapshot} {w : PoolWorld} {task : AvailableTask}

theorem Offer.grow (hfit : plan.Fits job) {w' : PoolWorld} (h : plan.Offer job w k task)
    (hg : plan.Grows w w') : plan.Offer job w' k task :=
  ⟨h.1, h.2.1, h.2.2.1, h.2.2.2.1, h.2.2.2.2.grow hfit hg⟩

/-- Offering the task that a snapshot stands at, if it is not recorded. -/
theorem Stage.offer (h : plan.Stage job k s) (hp : s.isInProgress) (hc : plan.Covered job w k)
    (hpos : s.position = some (.atTask t)) (hfresh : s.getTaskResult t = none)
    (htask : PoolWorld.buildAvailableTask s t = some task) : plan.Offer job w k task := by
  obtain ⟨input, hraw, hbuild⟩ := h.buildAvailableTask hp t
  obtain rfl : _ = task := Option.some.inj (hbuild.symm.trans htask)
  exact ⟨h.index_of_fresh hpos hfresh, h, hp, hraw, hc⟩

/-- There is no wait for a poll to end. -/
theorem collectAdvance_eq_none (hw : plan.StoredRight job w) : collectAdvance w = none := by
  refine collectAdvance_of_atTask fun s position hs hp => ?_
  have hstored := hw s hs
  split at hstored
  all_goals rename_i hst
  · obtain ⟨k, hk, -⟩ := hstored
    obtain ⟨t, -, ht⟩ := hk.atTask
    rw [position_view, hp] at ht
    exact ⟨t, Option.some.inj ht⟩
  · obtain ⟨k, hk, -⟩ := hstored
    obtain ⟨t, -, ht⟩ := hk.atTask
    rw [position_view, hp] at ht
    exact ⟨t, Option.some.inj ht⟩
  all_goals simp [WorkflowSnapshot.position, hst] at hp

theorem offer_selectTask {tags : List String} (hb : job.backend = inMemory)
    (hw : plan.StoredRight job w) (h : selectTask tags w = some task) :
    ∃ k, plan.Offer job w k task := by
  unfold selectTask at h
  split at h
  · rename_i s hs _
    split at h
    · rename_i t completed last hst
      split at h
      · cases h
      · rename_i hcond
        have hp : s.isInProgress := by simp [isInProgress, hst]
        obtain ⟨k, hk, hc⟩ := hw.stage hs hp
        rw [hb] at hk
        simp only [Bool.or_eq_true, not_or, Bool.not_eq_true, Option.isSome_eq_false_iff,
          Option.isNone_iff_eq_none] at hcond
        refine ⟨k, Stage.offer hk hp hc (by simp [view, WorkflowSnapshot.position, hst]) ?_ h⟩
        simpa [view, getTaskResult, getAllTaskResults, hst]
          using hcond.1.1.1
    · cases h
  · cases h

/-- A row in accordance with the plan is at a task. -/
theorem holds_dispatchRow (now : Time) (h : plan.Stage job k s) (hp : s.isInProgress)
    (hc : plan.Covered job w k) : plan.Holds job w (dispatchRow now s) := by
  obtain ⟨t, -, ht⟩ := h.atTask
  refine dispatchRow_of trivial (fun _ _ _ _ _ _ hst => ?_) fun u _ _ task hst hfresh htask => ?_
  · simp [WorkflowSnapshot.position, hst] at ht
  · obtain rfl : u = t := by simpa [WorkflowSnapshot.position, hst] using ht
    refine ⟨k, h.offer hp hc ht ?_ htask⟩
    simpa [getTaskResult, getAllTaskResults, hst] using hfresh

theorem holds_findHintedTask (hint : TaskId) (hw : plan.StoredRight job w) :
    plan.Holds job w (offer (job.backend.findHintedTask hint w)) := by
  unfold findHintedTask
  split
  · rename_i s hb hs
    dsimp only
    split
    · rename_i hcond
      simp only [Bool.and_eq_true, decide_eq_true_eq, Option.isNone_iff_eq_none] at hcond
      obtain ⟨⟨hcur, -⟩, hfresh⟩ := hcond
      cases hbuild : PoolWorld.buildAvailableTask (s.hydrateTaskOutputs w.outputs) hint with
      | none => trivial
      | some task =>
        have hp : s.isInProgress := by
          simpa [hydrateTaskOutputs] using (buildAvailableTask_eq_some hbuild).2.2.1
        obtain ⟨k, hk, hc⟩ := hw.stage hs hp
        rw [hb] at hk
        refine ⟨k, Stage.offer hk ?_ hc ?_ hfresh hbuild⟩
        · simpa [hydrateTaskOutputs] using hp
        · exact position_of_currentTaskId hcur
    · trivial
  · trivial

end offers

/-! ## Committing a result -/

section commit

variable {k : ℕ} {s : WorkflowSnapshot} {w : PoolWorld} {task : AvailableTask} {o : Bytes}

/-- Committing the result of the next task of the plan leads to the next stage, with
no task left that is to be retried. -/
theorem commitSnapshot_stage (hfit : plan.Fits job) (h : plan.Offer job w k task)
    (ho : plan.output k = some o) (now : Time) :
    ∃ s, job.commitSnapshot task o now = .ok s ∧ plan.Stage job (k + 1) s ∧ s.isInProgress
      ∧ s.outputUnflushed ∧ ∀ t, s.taskRetries.lookup t = none := by
  obtain ⟨hk, hstage, hp, -, -⟩ := h
  have hlt := lt_of_getElem? hk
  let base := (task.snapshot.clearTaskDeadline.clearRetryState task.taskId).markTaskCompleted
    task.taskId o
  have hbase : base.isInProgress := by
    simpa [base] using hp
  have hres : ∀ u, base.getTaskResult u
      = if u = task.taskId then some ⟨task.taskId, o⟩ else task.snapshot.getTaskResult u := by
    intro u
    simp [base, getTaskResult_markTaskCompleted, hp]
  have hpos : base.position = some (.atTask task.taskId) := by
    simpa [base] using hstage.position _ hk
  have hmem : ∀ u, (base.getTaskResult u).isSome ↔ u ∈ plan.ids.take (k + 1) := by
    intro u
    rw [hres]
    split
    · rename_i hu
      subst hu
      simp only [Option.isSome_some, true_iff]
      exact mem_take_ids.mpr ⟨k, Nat.lt_succ_self k, hk⟩
    · rename_i hu
      constructor
      · intro hsome
        by_contra hnot
        have : u ∉ plan.ids.take k := fun hin => hnot (List.take_subset_take_left _ (Nat.le_succ k) hin)
        simp [hstage.fresh u this] at hsome
      · intro hin
        obtain ⟨j, hj, hju⟩ := mem_take_ids.mp hin
        rcases Nat.lt_succ_iff_lt_or_eq.mp hj with hjk | rfl
        · obtain ⟨o', -, ho'⟩ := hstage.recorded j u hjk hju
          simp [ho']
        · exact absurd (Option.some.inj (hju.symm.trans hk)) hu
  obtain ⟨u, hint, hupdate, hnext, hin⟩ := hfit.updatePosition k _ o base now hk ho hbase hpos hmem
  have hretries : ∀ v, ((base.updatePosition (.atTask u)).setTaskHint hint).taskRetries.lookup v
      = none := by
    intro v
    have herase : ((base.updatePosition (.atTask u)).setTaskHint hint).taskRetries
        = task.snapshot.taskRetries.erase task.taskId := by
      simp [base]
    rw [herase]
    by_cases hvt : v = task.taskId
    · rw [hvt, AList.lookup_erase]
    · rw [AList.lookup_erase_ne hvt]
      exact hstage.retries v fun h => hvt (Option.some.inj (h.symm.trans hk))
  refine ⟨_, hupdate, ?_, by simpa using hbase, ?_, hretries⟩
  · have hu : ((base.updatePosition (.atTask u)).setTaskHint hint).position = some (.atTask u) := by
      simp [position_updatePosition, hbase]
    refine ⟨hlt, fun v hv => ?_, fun _ => ⟨u, hin, hu⟩, fun j v hj hjv => ?_, fun v hv => ?_, ?_, ?_,
      ?_, fun v _ => hretries v⟩
    · rw [hu, hnext v hv]
    · rw [getTaskResult_setTaskHint, getTaskResult_updatePosition,
        hres]
      rcases Nat.lt_succ_iff_lt_or_eq.mp hj with hjk | rfl
      · obtain ⟨o', ho', hrec⟩ := hstage.recorded j v hjk hjv
        have hne : v ≠ task.taskId := by
          rintro rfl
          have := hfit.index_unique hjv hk
          omega
        exact ⟨o', ho', by rw [if_neg hne, hrec]⟩
      · obtain rfl : task.taskId = v := Option.some.inj (hk.symm.trans hjv)
        exact ⟨o, ho, by rw [if_pos rfl]⟩
    · rw [getTaskResult_setTaskHint, getTaskResult_updatePosition,
        ← Option.not_isSome_iff_eq_none, hmem]
      exact hv
    · simp [base, lastCompletedTaskId_markTaskCompleted, hp, hk]
    · simpa [base] using hstage.initialInput
    · simpa [base] using hstage.definitionHash
  · simp [base, outputUnflushed_markTaskCompleted, hp]

end commit

/-! ## What a process keeps -/

section process

variable {k : ℕ} {w w' : PoolWorld} {worker : Worker} {phase phase' : Phase}
  {task : AvailableTask}

theorem Holds.grow (hfit : plan.Fits job) (h : plan.Holds job w phase) (hg : plan.Grows w w') :
    plan.Holds job w' phase := by
  cases phase with
  | hydrating s =>
    obtain ⟨k, hk, hp, hc⟩ := h
    exact ⟨k, hk.hydrate_grow hfit hg, hp, hc.grow hfit hg⟩
  | offered | guarding | executing =>
    obtain ⟨k, hk⟩ := h
    exact ⟨k, hk.grow hfit hg⟩
  | running =>
    obtain ⟨k, hk, ho⟩ := h
    exact ⟨k, hk.grow hfit hg, ho⟩
  | retrying =>
    obtain ⟨k, hlt, hk, hp, hc⟩ := h
    exact ⟨k, hlt, hk, hp, hc.grow hfit hg⟩
  | committing =>
    obtain ⟨k, hid, hk, hp, ho, hc, hu⟩ := h
    exact ⟨k, hid, hk, hp, ho, hc.grow hfit hg, hu⟩
  | handingBack | concluding =>
    obtain ⟨k, hlt, hk, hp, ho, hc⟩ := h
    exact ⟨k, hlt, hk, hp, ho, hc.grow hfit hg⟩
  | _ => exact h

theorem Stage.recordRetry (h : plan.Stage job k s)
    (hk : plan.ids[k]? = some t) (policy : RetryPolicy) (e : RuntimeError)
    (workerId : Option String) (now : Time) :
    plan.Stage job k (s.recordRetry t policy e workerId now).2 where
  le := h.le
  position := h.position
  ended := h.ended
  recorded := h.recorded
  fresh := h.fresh
  last := h.last
  initialInput := h.initialInput
  definitionHash := h.definitionHash
  retries u hu := by
    have hne : u ≠ t := by
      rintro rfl
      exact hu hk
    exact (AList.lookup_insert_ne hne).trans (h.retries u hu)

theorem Stage.clearTaskDeadline (h : plan.Stage job k s) :
    plan.Stage job k s.clearTaskDeadline :=
  h.congr rfl (fun _ => rfl) rfl rfl rfl rfl

/-- A failed task is retried or fails the workflow. -/
theorem holds_settleFailure (h : plan.Offer job w k task) (e : RuntimeError) (now : Time) :
    plan.Holds job w (job.settleFailure worker task e now) := by
  obtain ⟨hk, hstage, hp, -, hc⟩ := h
  exact settleFailure_of ⟨e, rfl⟩ fun _ => ⟨k, lt_of_getElem? hk,
    (hstage.clearTaskDeadline.recordRetry hk _ e _ now).clearTaskDeadline, hp, hc⟩

theorem holds_settle (hfit : plan.Fits job) {outcome : Except RuntimeError Bytes}
    (h : plan.Offer job w k task) (ho : ∀ o, outcome = .ok o → plan.output k = some o)
    (now : Time) : plan.Holds job w (job.settle worker task outcome now) := by
  unfold settle
  split
  · exact holds_settleFailure h _ now
  · rename_i o
    obtain ⟨s, hs, hstage, hp, hu, -⟩ := commitSnapshot_stage hfit h (ho o rfl) now
    rw [hs]
    exact ⟨k, h.1, hstage, hp, ho o rfl, h.2.2.2.2, hu⟩

/-- A snapshot in accordance with the plan is not parked. -/
theorem Stage.isAtSignal (h : plan.Stage job k s) :
    Submission.isAtSignal s = false := by
  obtain ⟨t, -, ht⟩ := h.atTask
  unfold Submission.isAtSignal
  split
  · rename_i hst
    simp [WorkflowSnapshot.position, hst] at ht
  · rfl

theorem Stage.afterSave (h : plan.Stage job k s) (b : Backend) :
    plan.Stage job k (b.afterSave s) := by
  cases b
  · exact h
  · exact h.congr rfl (fun _ => rfl) rfl rfl rfl rfl

/-- The last task of the plan completes the workflow. -/
theorem holds_conclude (hfit : plan.Fits job) {output : Bytes}
    (h : plan.After job w s output) : plan.Holds job w (job.conclude s output) := by
  obtain ⟨k, hlt, hstage, hp, ho, hc⟩ := h
  unfold conclude
  rw [hfit.complete _ s hstage]
  split
  · rename_i hend
    have hend : k + 1 = plan.ids.length := by simpa using hend
    refine ⟨output, rfl, fun j hj => ?_, ?_⟩
    · obtain ⟨o, ho, -⟩ := hstage.recorded j _ (hend ▸ hj) (List.getElem?_eq_getElem hj)
      simp [ho]
    · rw [← hend]
      exact ho
  · trivial

/-- **A step of a process keeps it in accordance with the plan.** -/
theorem holds_moves (hfit : plan.Fits job) (hm : Moves job worker w w' phase phase')
    (hw : plan.WorldRight job w) (hg : plan.Grows w w')
    (hallowed : ∀ task, phase = .executing task → ∀ k : ℕ, plan.ids[k]? = some task.taskId →
      plan.allowed k)
    (hp : plan.Holds job w phase) : plan.Holds job w' phase' := by
  cases hm with
  | stop | stopped | cancelling | retried | failed | checked | cancelled => trivial
  | collecting hb => exact hb
  | collected => exact hp
  | advanced => exact hp.elim
  | hydrating blob hb h =>
    have hrow := Option.filter_eq_some_iff.mp h
    have hprog : blob.isInProgress := by
      have hst := hrow.2
      unfold isInProgress
      split
      · rfl
      · rename_i hne
        cases hst' : blob.state with
        | inProgress position completed last => exact absurd hst' (hne position completed last)
        | _ => simp [hst'] at hst
    obtain ⟨k, hk, hc⟩ := hw.stored.stage hrow.1 hprog
    rw [hb] at hk
    exact Holds.grow hfit ⟨k, hk, hprog, hc⟩ hg
  | advancing advance h => simp [collectAdvance_eq_none hw.stored] at h
  | selected task h => exact Holds.grow hfit (offer_selectTask hp hw.stored h) hg
  | hydrated blob =>
    obtain ⟨k, hk, hprog, hc⟩ := hp
    refine Holds.grow hfit (holds_dispatchRow _ hk ?_ hc) hg
    simpa [hydrateTaskOutputs] using hprog
  | woke => exact hp.elim
  | claimed | guarding | passed => exact Holds.grow hfit hp hg
  | unready task e =>
    obtain ⟨k, hk⟩ := hp
    exact Holds.grow hfit (holds_settleFailure hk e _) hg
  | lost task e | raised task name input e =>
    obtain ⟨k, hk⟩ := hp
    exact ⟨k, hk.grow hfit hg, by simp⟩
  | called task name input deadline hi hn =>
    obtain ⟨k, hk⟩ := hp
    refine ⟨k, hk.grow hfit hg, fun o ho => ?_⟩
    have hinput : plan.input k = .ok input := by
      rw [← hfit.taskInput k task hk.1 hk.2.1 hk.2.2.2.1, hi]
    refine hfit.output k name input o (hallowed task rfl k hk.1)
      (hfit.executeTaskById k _ name hk.1 hn) hinput ?_
    cases he : job.callbacks.execute name input with
    | error e => simp [he, Except.mapError] at ho
    | ok o' =>
      rw [he] at ho
      exact congrArg Except.ok (Except.ok.inj ho)
  | settled task outcome =>
    obtain ⟨k, hk, ho⟩ := hp
    exact Holds.grow hfit (holds_settle hfit hk ho _) hg
  | interrupted task outcome deadline failures e =>
    obtain ⟨k, hk, ho⟩ := hp
    exact Holds.grow hfit (holds_settleFailure hk e _) hg
  | beaten => exact Holds.grow hfit hp hg
  | committed task s output h =>
    obtain ⟨k, hid, hk, hprog, ho, hc, hu⟩ := hp
    have hw' : w' = job.backend.saveSnapshot s w := by
      rcases saveSnapshotFenced_cases _ _ s with hs | hs
      · exact (Prod.ext_iff.mp (h.symm.trans hs)).2
      · simp [h] at hs
    unfold drain
    rw [(hk.afterSave job.backend).isAtSignal]
    refine ⟨k, lt_of_getElem? hid, hk.afterSave _, by simpa using hprog, ho, ?_⟩
    rw [hw']
    exact covered_saveSnapshot hfit hw.outputs hk hc hu
  | undrained | draining | drained | resolved | unresolved => exact hp.elim
  | handedBack task s output =>
    obtain ⟨k, hlt, hstage, hafter⟩ := hp
    rw [hfit.settled _ s hstage]
    have hconcluding : plan.Holds job w (.concluding s output .start) := ⟨k, hlt, hstage, hafter⟩
    exact hconcluding.grow hfit hg
  | concluding s output => exact Holds.grow hfit hp hg
  | concluded s output => exact Holds.grow hfit (holds_conclude hfit hp) hg

end process

/-! ## What the pool shares -/

section world

variable {w w' : PoolWorld} {worker : Worker} {phase : Phase} {a : Action}

/-- What a process is about to store is in accordance with the plan, or terminal. -/
theorem Holds.toStore (h : plan.Holds job w phase) (hs : phase.toStore = some s) :
    (∃ k, plan.Stage job k s ∧ s.isInProgress) ∨ s.lastCompletedTaskId = none := by
  cases phase with
  | retrying task s' =>
    obtain rfl : s' = s := Option.some.inj hs
    obtain ⟨k, -, hk, hp, -⟩ := h
    exact .inl ⟨k, hk, hp⟩
  | failing task s' =>
    obtain rfl : s' = s := Option.some.inj hs
    obtain ⟨e, he⟩ := h
    exact .inr (by simp [lastCompletedTaskId, he])
  | committing task s' output =>
    obtain rfl : s' = s := Option.some.inj hs
    obtain ⟨k, -, hk, hp, -⟩ := h
    exact .inl ⟨k + 1, hk, hp⟩
  | completing s' =>
    obtain rfl : s' = s := Option.some.inj hs
    obtain ⟨out, he, -⟩ := h
    exact .inr (by simp [lastCompletedTaskId, he])
  | waking | drained | resolving => exact h.elim
  | _ => cases hs

theorem grows_writes (hfit : plan.Fits job) (h : Writes job worker phase w w')
    (hw : plan.WorldRight job w) (hp : plan.Holds job w phase) : plan.Grows w w' := by
  rcases h.outputs with ho | ⟨s, hs, ho⟩
  · exact Grows.of_eq hw.outputs ho
  · have hgrow := grows_saveSnapshot hfit hw.outputs
      ((hp.toStore hs).imp_left fun ⟨k, hk, _⟩ => ⟨k, hk⟩)
    unfold Grows OutputsRight at hgrow ⊢
    rwa [ho]

/-- The stored form of a terminal snapshot is as right as the snapshot. -/
theorem storedRight_of_terminal (hs : w.snapshot = some (job.backend.stored s))
    (h : (∃ e, s.state = .failed e) ∨ ∃ out, s.state = .completed out ∧ plan.Finished out) :
    plan.StoredRight job w := by
  intro s' hs'
  obtain rfl : _ = s' := Option.some.inj (hs.symm.trans hs')
  have hstate : (job.backend.stored s).state = s.state := by
    cases job.backend with
    | inMemory => rfl
    | postgres =>
      rcases h with ⟨e, he⟩ | ⟨out, he, -⟩ <;>
        simp [stored, clearUnflushed, stripTaskOutputs,
          mapOutputs, he]
  rw [hstate]
  rcases h with ⟨e, he⟩ | ⟨out, he, hfin⟩
  · rw [he]
    trivial
  · rw [he]
    exact hfin

/-- A cancelled instance keeps its results. -/
theorem storedRight_of_cancelled {request : SignalRequest}
    {taskId : Option TaskId} {k : ℕ} (hp : s.isInProgress)
    (hk : plan.Stage job k (job.backend.view w s))
    (hs : w.snapshot = some (s.markCancelled request taskId)) : plan.StoredRight job w := by
  obtain ⟨position, completed, last, hst⟩ := isInProgress_iff.mp hp
  intro s' hs'
  obtain rfl : _ = s' := Option.some.inj (hs.symm.trans hs')
  intro t r hr
  have hview : (job.backend.view w (s.markCancelled request taskId)).getTaskResult t
      = (job.backend.view w s).getTaskResult t := by
    have hres : (s.markCancelled request taskId).getTaskResult t = s.getTaskResult t := by
      simp [markCancelled, getTaskResult,
        getAllTaskResults, hst]
    cases job.backend with
    | inMemory => exact hres
    | postgres =>
      simp only [view, hydrateTaskOutputs,
        getTaskResult_mapOutputs, hres]
  rw [hview] at hr
  exact hk.entry hr

theorem storedRight_saved (hfit : plan.Fits job)
    (hw : plan.WorldRight job w) (hp : plan.Holds job w phase) (hs : phase.toStore = some s)
    (hw' : w' = job.backend.saveSnapshot s w) (h : w'.snapshot = some (job.backend.stored s)) :
    plan.StoredRight job w' := by
  subst hw'
  cases phase with
  | retrying task s' =>
    obtain rfl : s' = s := Option.some.inj hs
    obtain ⟨k, -, hk, -, hc⟩ := hp
    have hc' := hc.grow hfit (grows_saveSnapshot hfit hw.outputs (.inl ⟨k, hk⟩))
    exact storedRight_of_stage h (hk.view_stored hc') hc'
  | failing task s' =>
    obtain rfl : s' = s := Option.some.inj hs
    exact storedRight_of_terminal h (.inl hp)
  | committing task s' output =>
    obtain rfl : s' = s := Option.some.inj hs
    obtain ⟨k, -, hk, -, -, hc, hu⟩ := hp
    have hc' := covered_saveSnapshot hfit hw.outputs hk hc hu
    exact storedRight_of_stage h (hk.view_stored hc') hc'
  | completing s' =>
    obtain rfl : s' = s := Option.some.inj hs
    exact storedRight_of_terminal h (.inr hp)
  | waking | drained | resolving => exact hp.elim
  | _ => cases hs

theorem storedRight_writes (hfit : plan.Fits job) (h : Writes job worker phase w w')
    (hw : plan.WorldRight job w) (hp : plan.Holds job w phase) : plan.StoredRight job w' := by
  have hg := grows_writes hfit h hw hp
  cases h.stores with
  | kept h => exact hw.stored.grow hfit hg h
  | saved s hs hw' h => exact storedRight_saved hfit hw hp hs hw' h
  | advanced advance hphase =>
    subst hphase
    exact hp.elim
  | cancelled s request taskId hs hprog h =>
    obtain ⟨k, hk, -⟩ := hw.stored.stage hs hprog
    exact storedRight_of_cancelled hprog (hk.view_grow hfit hg) h
  | paused s request hs hprog h =>
    obtain ⟨k, hk, hc⟩ := hw.stored.stage hs hprog
    refine storedRight_of_stage h ((hk.view_grow hfit hg).view_congr ?_ ?_ ?_ ?_ ?_ ?_)
      (hc.grow hfit hg)
    all_goals simp

theorem callsRight_writes (hfit : plan.Fits job) (h : Writes job worker phase w w')
    (hw : plan.WorldRight job w) (hp : plan.Holds job w phase)
    (hallowed : ∀ task, phase = .executing task → ∀ k : ℕ, plan.ids[k]? = some task.taskId →
      plan.allowed k) : plan.CallsRight w' := by
  intro name x time hmem
  have hlogs := h.logs
  generalize w'.trace = trace at hmem hlogs
  cases hlogs with
  | kept => exact hw.calls name x time hmem
  | saved | signalled | timedOut =>
    exact hw.calls name x time (by simpa using hmem)
  | called task name' input hphase hi hn =>
    subst hphase
    obtain ⟨k, hk⟩ := hp
    rcases List.mem_append.mp hmem with hmem | hmem
    · exact hw.calls name x time hmem
    · obtain ⟨rfl, rfl, rfl⟩ : name = name' ∧ x = input ∧ time = w.clock := by
        simpa using hmem
      refine ⟨k, hallowed task rfl k hk.1, hfit.executeTaskById k _ name hk.1 hn, ?_⟩
      rw [← hfit.taskInput k task hk.1 hk.2.1 hk.2.2.2.1, hi]

/-- A step of a process keeps the world in accordance with the plan. -/
theorem worldRight_writes (hfit : plan.Fits job) (h : Writes job worker phase w w')
    (hw : plan.WorldRight job w) (hp : plan.Holds job w phase)
    (hallowed : ∀ task, phase = .executing task → ∀ k : ℕ, plan.ids[k]? = some task.taskId →
      plan.allowed k) : plan.WorldRight job w' :=
  ⟨(grows_writes hfit h hw hp).1, storedRight_writes hfit h hw hp,
    callsRight_writes hfit h hw hp hallowed⟩

/-- So does an action of a client, and it leaves the table alone. -/
theorem worldRight_asks (hfit : plan.Fits job) (h : Asks job a w w')
    (hw : plan.WorldRight job w) : plan.WorldRight job w' ∧ plan.Grows w w' := by
  cases h.delivers with
  | kept h ho ht =>
    have hg : plan.Grows w w' := Grows.of_eq hw.outputs ho
    refine ⟨⟨hg.1, hw.stored.grow hfit hg h, ?_⟩, hg⟩
    unfold CallsRight
    rw [ht]
    exact hw.calls
  | received s signalId signalName payload wakeAt next completed last hb hs hst =>
    exfalso
    have hp : s.isInProgress := by simp [isInProgress, hst]
    obtain ⟨k, hk, -⟩ := hw.stored.stage hs hp
    obtain ⟨t, -, ht⟩ := hk.atTask
    rw [position_view] at ht
    simp [WorkflowSnapshot.position, hst] at ht
  | unpaused s hs hw' =>
    subst hw'
    have hg : plan.Grows w { w with snapshot := some s.markUnpaused } :=
      Grows.of_eq hw.outputs rfl
    refine ⟨⟨hg.1, ?_, hw.calls⟩, hg⟩
    have hold := hw.stored s hs
    cases hst : s.state with
    | paused reason pausedBy completed position last =>
      rw [hst] at hold
      obtain ⟨k, hk, hc⟩ := hold
      refine storedRight_of_stage rfl ((hk.view_grow hfit hg).view_congr ?_ ?_ ?_ ?_ ?_ ?_)
        (hc.grow hfit hg)
      all_goals simp
    | _ =>
      have hsame : s.markUnpaused = s := by simp [markUnpaused, hst]
      exact hw.stored.grow hfit hg (by simp [hsame, hs])

end world

/-! ## Whole runs -/

section runs

variable {C : Action → Pool → Prop} {instanceId : String} {now : Time} {σ : Pool}

theorem stage_initialSnapshot (hfit : plan.Fits job) :
    plan.Stage job 0 (initialSnapshot instanceId job.definitionHash job.input
      job.continuation.firstTaskHint) where
  le := Nat.zero_le _
  position t ht := by
    obtain rfl : job.continuation.firstTaskHint.id = t :=
      Option.some.inj (hfit.first.symm.trans ht)
    rfl
  ended hk := by
    have := lt_of_getElem? hfit.first
    omega
  recorded j t hj := by omega
  fresh t _ := by
    simp [initialSnapshot]
  last := rfl
  initialInput := rfl
  definitionHash := rfl
  retries t _ := by
    simp [initialSnapshot, withInitialInput, new]

theorem worldRight_submitted (hfit : plan.Fits job) :
    plan.WorldRight job (job.submitted instanceId now) := by
  have hstage : plan.Stage job 0 (initialSnapshot instanceId job.definitionHash job.input
      job.continuation.firstTaskHint) := stage_initialSnapshot hfit
  have hcov : ∀ w, plan.Covered job w 0 := fun w hb j t hj => by omega
  obtain ⟨hsnap, htrace⟩ := job.submitted_eq instanceId now
  refine ⟨(grows_saveSnapshot hfit ?_ (.inl ⟨0, hstage⟩)).1, ?_, ?_⟩
  · intro t o ho
    cases ho
  · exact storedRight_of_stage hsnap (hstage.view_stored (hcov _)) (hcov _)
  · intro name x time hmem
    rw [htrace] at hmem
    simp at hmem

/-- **Every run of the pool follows the plan.** -/
theorem follows_reachable (hfit : plan.Fits job) (hC : ∀ a σ, C a σ → plan.Permits a σ)
    (h : job.Reachable C instanceId now σ) :
    plan.WorldRight job σ.world ∧ ∀ p ∈ σ.processes, plan.Holds job σ.world p.phase := by
  refine Submission.Reachable.invariant h (I := plan.WorldRight job)
    (P := fun w p => plan.Holds job w p.phase) (worldRight_submitted hfit) ?_ ?_ ?_ ?_ ?_
  · exact fun w worker _ => trivial
  · exact fun w worker hint hw => holds_findHintedTask hint hw.stored
  · exact fun w p _ => trivial
  · intro a w w' ha hw
    obtain ⟨hw', hg⟩ := worldRight_asks hfit ha hw
    exact ⟨hw', fun p hp => Holds.grow hfit hp hg⟩
  · intro σ i choice p phase' w' hCi hi hw hp hwrites hmoves
    have hallowed : ∀ task, p.phase = .executing task → ∀ k : ℕ,
        plan.ids[k]? = some task.taskId → plan.allowed k :=
      fun task hphase => hC _ σ hCi p task hi hphase
    have hg := grows_writes hfit hwrites hw hp
    exact ⟨worldRight_writes hfit hwrites hw hp hallowed,
      holds_moves hfit hmoves hw hg hallowed hp, fun q hq => Holds.grow hfit hq hg⟩

end runs

end Plan

end Sayiir
