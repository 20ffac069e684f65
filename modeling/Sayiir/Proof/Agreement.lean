import Sayiir.Proof.Composition
import Sayiir.Proof.Inputs

/-!
# What a pool computes

A pool does not always compute what the in-process executors compute. But on a workflow
of tasks and forks it always computes the same: workers, interleavings, crashes, expired
claims and the backend have no influence on what a task is called with, nor on the output
of the instance. On a chain of tasks that output is the one of the sync executor.
-/

namespace Sayiir

open Backend Submission

section hashed

variable [Sha256] {job : Submission} {instanceId instanceId' : String} {now now' : Time}
  {σ σ' : Pool}

/-- The plan of a workflow that does not stray. It knows nothing of the backend. -/
def Submission.fullPlan (job : Submission) : Plan :=
  job.planOf (fun _ => true) job.continuation.order

section forks

variable (hc : job.continuation.TaskForks) (hids : job.continuation.ids.Nodup)
  (hstray : job.continuation.stray = none)
include hc hids hstray

theorem fits_fullPlan (b : Backend) : job.fullPlan.Fits { job with backend := b } := by
  have hc' : ({ job with backend := b } : Submission).continuation.TaskForks := hc
  exact fits_planOf hc' hids fun name hs => by cases hstray.symm.trans hs

theorem follows_fullPlan {b : Backend}
    (h : { job with backend := b }.Reachable (fun _ _ => True) instanceId now σ) :
    job.fullPlan.WorldRight { job with backend := b } σ.world
      ∧ ∀ p ∈ σ.processes, job.fullPlan.Holds { job with backend := b } σ.world p.phase := by
  refine Plan.follows_reachable (fits_fullPlan hc hids hstray b) (fun a σ _ => ?_) h
  cases a with
  | work i choice =>
    intro p task _ _ k _
    simp [fullPlan, planOf]
  | _ => trivial

/-- **A pool keeps the declared order.** A process that is about to call a task holds the
results of exactly the tasks that are declared before it. So the first task behind a fork
waits for every branch. -/
theorem pool_keeps_order (h : job.Reachable (fun _ _ => True) instanceId now σ) {p : Process}
    (hp : p ∈ σ.processes) {task : AvailableTask} (hphase : p.phase = .executing task) :
    ∃ (k : ℕ) (name : String), job.continuation.declared[k]? = some name
      ∧ task.taskId = TaskId.sha256 name
      ∧ ∀ (j : ℕ) other, job.continuation.declared[j]? = some other →
        ((task.snapshot.getTaskResult (TaskId.sha256 other)).isSome ↔ j < k) := by
  have hholds := (follows_fullPlan hc hids hstray h).2 p hp
  rw [hphase] at hholds
  obtain ⟨k, hk, hstage, -⟩ := hholds
  have hplan : job.fullPlan.ids = job.continuation.declared.map TaskId.sha256 :=
    congrArg (List.map TaskId.sha256) (hc.order_eq_declared hstray)
  have hname := hk
  rw [hplan, List.getElem?_map, Option.map_eq_some_iff] at hname
  obtain ⟨name, hname, hsha⟩ := hname
  refine ⟨k, name, hname, hsha.symm, fun j other hother => ?_⟩
  have hj : job.fullPlan.ids[j]? = some (TaskId.sha256 other) := by simp [hplan, hother]
  constructor
  · intro hres
    by_contra hge
    -- a task that comes later is not among the first `k`, and only those are recorded
    have hnot : TaskId.sha256 other ∉ job.fullPlan.ids.take k := by
      intro hmem
      obtain ⟨i, hi, hio⟩ := Plan.mem_take_ids.mp hmem
      exact hge ((fits_fullPlan hc hids hstray job.backend).index_unique hio hj ▸ hi)
    rw [hstage.fresh _ hnot] at hres
    cases hres
  · intro hlt
    obtain ⟨o, -, hres⟩ := hstage.recorded j _ hlt hj
    rw [hres]
    rfl

end forks

/-- On a chain the sync executor composes the functions. -/
theorem sync_of_compose {codec : EnvelopeCodec} {cb : Callbacks} {c : WorkflowContinuation}
    {input out : Bytes} (hc : c.TaskChain) (h : compose cb c.taskIds input = .ok out) :
    executeContinuationSync codec cb c input = .ok out := by
  induction hc generalizing input with
  | last id fields =>
    obtain ⟨x, hx, hrest⟩ := Except.bind_eq_ok_iff.mp (List.foldlM_cons.symm.trans h)
    rw [executeContinuationSync, retrySync_const, hx]
    cases hrest
    rfl
  | task id fields next _ ih =>
    obtain ⟨x, hx, hrest⟩ := Except.bind_eq_ok_iff.mp (List.foldlM_cons.symm.trans h)
    rw [executeContinuationSync, retrySync_const, hx]
    exact ih hrest

/-- **The pool and the sync executor agree on chains of tasks.** -/
theorem pool_agrees_with_sync (hc : job.continuation.TaskChain)
    (hids : job.continuation.ids.Nodup) (h : job.Reachable (fun _ _ => True) instanceId now σ)
    {s : WorkflowSnapshot} {out : Bytes} (hs : σ.world.snapshot = some s)
    (hout : s.state = .completed out) :
    executeContinuationSync job.codec job.callbacks job.continuation job.input = .ok out :=
  sync_of_compose hc (output_of_completed hc hids h hs hout)

end hashed

section sample

attribute [local instance] Sha256.packed

theorem taskForks_forkOfTwo : forkOfTwo.continuation.TaskForks := by
  refine .fork _ _ _ _ (fun b hb => ?_) (.last _ _)
  simp only [List.mem_cons, List.not_mem_nil, or_false] at hb
  rcases hb with rfl | rfl <;> exact .last _ _

/-- A worker is about to call the first branch. -/
theorem pool_keeps_order_at_first_branch :
    let σ := perform forkOfTwo.step (.poll (sampleWorker "w") :: Action.calls 0 6)
      (forkOfTwo.start "i" 0)
    ∃ task name, ∃ k : ℕ, (∃ p ∈ σ.processes, p.phase = .executing task)
      ∧ forkOfTwo.continuation.declared[k]? = some name ∧ task.taskId = TaskId.sha256 name := by
  intro σ
  have hworks : ∃ task, ∃ p ∈ σ.processes, p.phase = .executing task :=
    ⟨_, _, List.mem_cons_self, rfl⟩
  obtain ⟨task, p, hp, hphase⟩ := hworks
  have hreach : forkOfTwo.Reachable (fun _ _ => True) "i" 0 σ := Walk.perform (by decide)
  obtain ⟨k, name, hk, hname, -⟩ :=
    pool_keeps_order taskForks_forkOfTwo (by decide) rfl hreach hp hphase
  exact ⟨task, name, k, ⟨p, hp, hphase⟩, hk, hname⟩

/-- One worker completes an instance of two tasks. -/
theorem pool_agrees_with_sync_alone :
    let σ := perform (twoTasks .postgres).step (.poll (sampleWorker "a") :: Action.calls 0 9 ++
      .poll (sampleWorker "a") :: Action.calls 1 10) ((twoTasks .postgres).start "i" 0)
    ∃ s out, σ.world.snapshot = some s ∧ s.state = .completed out
      ∧ executeContinuationSync .plain appendingTasks (twoTasks .postgres).continuation [1]
        = .ok out := by
  intro σ
  have hdone : ∃ s out, σ.world.snapshot = some s ∧ s.state = .completed out := ⟨_, _, rfl, rfl⟩
  obtain ⟨s, out, hs, hout⟩ := hdone
  have hreach : (twoTasks .postgres).Reachable (fun _ _ => True) "i" 0 σ := Walk.perform (by decide)
  exact ⟨s, out, hs, hout, pool_agrees_with_sync (.task _ _ _ (.last _ _)) (by decide) hreach hs
    hout⟩

end sample

end Sayiir
