import Sayiir.Proof.Postgres
import Sayiir.Proof.Terminal

/-!
# What a worker reports

`execute_task` answers with a status. It answers `Cancelled` or `Paused` after its own
`check_control_signals` or `check_and_cancel` has applied a request, so the status was
stored when the call made it. It answers `Completed` after it has saved the completed
snapshot. But Postgres keeps a terminal row, and whether the upsert took place is not
reported: if somebody else has ended the instance since the last check for requests,
the worker reports a completion that was never stored.

A call is followed by the pools it passes through, the latest first. The interleaving is
arbitrary, and so is the pool in which the call begins.
-/

namespace Sayiir

open Backend WorkflowSnapshot

variable {σs : List Pool} {σ : Pool} {p : Process}

/-- A status of `execute_task` that says more than that the workflow goes on. -/
inductive Report where
  | completed
  | cancelled
  | paused
  deriving DecidableEq, Repr

/-- The status of a stored snapshot, as far as it is reported. -/
def WorkflowSnapshot.report (s : WorkflowSnapshot) : Option Report :=
  match s.state with
  | .completed _ => some .completed
  | .cancelled .. => some .cancelled
  | .paused .. => some .paused
  | .failed _ | .inProgress .. => none

/-- The request that a guard has applied. -/
def Backend.GuardResult.report : GuardResult → Option Report
  | .finished (some .cancelled) => some .cancelled
  | .finished (some .paused) => some .paused
  | .finished none | .next _ => none

namespace Submission

variable [Sha256] (job : Submission)

/-- What `execute_task` is going to return once the call of this phase has gone well.
A call to `check_and_cancel` alone applies no pause. -/
def reports (w : PoolWorld) : Phase → Option Report
  | .completing _ => some .completed
  | .guarding task g => (job.backend.guardStep (some task.taskId) g w).1.report
  | .concluding _ _ g => (job.backend.guardStep none g w).1.report
  | .cancelled task g =>
    (job.backend.guardStep (some task.taskId) g w).1.report.filter fun r => r = .cancelled
  | _ => none

/-- The pools that a call of `execute_task` by process `i` has passed through, from the
latest to the one in which it was called. -/
inductive ExecuteTask (i : ℕ) : List Pool → Prop
  | called (σ : Pool) (p : Process) (task : AvailableTask) (hi : σ.processes[i]? = some p)
      (hp : p.phase = .offered task) : ExecuteTask i [σ]
  | step (a : Action) (σ : Pool) (σs : List Pool) (h : ExecuteTask i (σ :: σs)) :
      ExecuteTask i (job.step a σ :: σ :: σs)

end Submission

/-- In one of the pools the task function of process `i` has returned this output. -/
def Computed (i : ℕ) (output : Bytes) (σs : List Pool) : Prop :=
  ∃ τ ∈ σs, ∃ p task deadline failures, τ.processes[i]? = some p
    ∧ p.phase = .running task (.ok output) deadline failures

theorem Computed.cons {i : ℕ} {output : Bytes}
    (h : Computed i output σs) : Computed i output (σ :: σs) := by
  obtain ⟨τ, hτ, h⟩ := h
  exact ⟨τ, List.mem_cons_of_mem _ hτ, h⟩

/-- The stored snapshot is completed with this output. -/
def PoolWorld.CompletedWith (output : Bytes) (w : PoolWorld) : Prop :=
  w.snapshot.bind outcome = some (.completed output)

namespace Submission

section reports

variable [Sha256] {job : Submission} {worker : Worker} {w w' : PoolWorld} {phase phase' : Phase}
  {i : ℕ} {output : Bytes}

/-! ## Requests -/

omit [Sha256] in
/-- A guard of Postgres that has applied a request has stored what it says. -/
theorem report_guardPostgres {taskId : Option TaskId} {g : GuardStep} {r : Report}
    (h : (guardPostgres taskId w g).1.report = some r) :
    (guardPostgres taskId w g).2.snapshot.bind report = some r := by
  cases g with
  | start =>
    unfold guardPostgres at h
    dsimp only at h
    split at h <;> cases h
  | checkCancel =>
    unfold guardPostgres at h ⊢
    cases hc : w.cancelSignal with
    | none => simp [hc, GuardResult.report] at h
    | some request =>
      rw [hc] at h
      dsimp only at h ⊢
      rcases markIfInProgress_cases (·.markCancelled request taskId) w with
        hm | ⟨s, hs, hp, hm⟩
      · simp [hm, GuardResult.report] at h
      · rw [hm] at h ⊢
        obtain rfl : .cancelled = r := by simpa [GuardResult.report] using h
        rfl
  | checkPause =>
    unfold guardPostgres at h ⊢
    cases hc : w.pauseSignal with
    | none => simp [hc, GuardResult.report] at h
    | some request =>
      rw [hc] at h
      dsimp only at h ⊢
      rcases markIfInProgress_cases (·.markPaused request) w with hm | ⟨s, hs, hp, hm⟩
      · simp [hm, GuardResult.report] at h
      · rw [hm] at h ⊢
        obtain rfl : .paused = r := by simpa [GuardResult.report] using h
        obtain ⟨position, completed, last, hst⟩ := isInProgress_iff.mp hp
        simp [markPaused, hst, report]
  | cancelRead | cancelMarked | pauseRead | pauseMarked => cases h

/-- **A request that is reported has been stored** by the call that found it. -/
theorem reported_request_stored (hb : job.backend = postgres) {r : Report}
    (hr : job.reports w phase = some r) (hne : r ≠ .completed) :
    (job.call worker phase w).2.snapshot.bind report = some r := by
  cases phase with
  | guarding task g =>
    simp only [reports, hb, guardStep] at hr
    simp only [call, hb, guardStep]
    exact report_guardPostgres hr
  | concluding s output g =>
    simp only [reports, hb, guardStep] at hr
    simp only [call, hb, guardStep]
    exact report_guardPostgres hr
  | cancelled task g =>
    simp only [reports, hb, guardStep] at hr
    simp only [call, hb, guardStep]
    exact report_guardPostgres (Option.filter_eq_some_iff.mp hr).1
  | completing s => exact absurd (Option.some.inj hr).symm hne
  | _ => cases hr

/-! ## The output of a call -/

/-- The output that a process is about to commit or has committed satisfies `P`, and a
snapshot about to be saved as completed is completed with such an output. -/
def Backed (P : Bytes → Prop) : Phase → Prop
  | .committing _ _ output | .draining _ _ output | .drained _ _ output
  | .handingBack _ _ output | .resolving _ _ output | .concluding _ output _ => P output
  | .completing s => ∃ output, s.outcome = some (.completed output) ∧ P output
  | _ => True

variable {P : Bytes → Prop}

/-- An output comes from the task function and is handed on from phase to phase. -/
theorem Backed.moves (hm : Moves job worker w w' phase phase') (h : Backed P phase)
    (hrun : ∀ task output deadline failures,
      phase = .running task (.ok output) deadline failures → P output) : Backed P phase' := by
  cases hm with
  | hydrated blob =>
    exact dispatchRow_of trivial (fun _ _ _ _ _ _ _ => trivial) fun _ _ _ _ _ _ _ => trivial
  | unready | interrupted => exact settleFailure_of trivial fun _ => trivial
  | settled task outcome deadline failures =>
    refine settle_of trivial (fun _ => settleFailure_of trivial fun _ => trivial) ?_
    rintro output s rfl -
    exact hrun task output deadline failures rfl
  | committed | drained => exact drain_of (fun _ => h) h
  | handedBack | resolved | unresolved => exact resolve_of trivial (fun _ _ _ => h) fun _ => h
  | concluded s output g => exact conclude_of trivial fun _ => ⟨output, rfl, h⟩
  | undrained | draining | concluding => exact h
  | _ => exact trivial

omit [Sha256] in
theorem Backed.mono {Q : Bytes → Prop} (h : Backed P phase) (hPQ : ∀ o, P o → Q o) :
    Backed Q phase := by
  cases phase with
  | completing s => exact h.imp fun o ho => ⟨ho.1, hPQ o ho.2⟩
  | committing | draining | drained | handingBack | resolving | concluding => exact hPQ _ h
  | _ => exact trivial

/-- A process changes its phase by its own steps only. -/
theorem step_process (a : Action) {p' : Process} (hi : σ.processes[i]? = some p)
    (hi' : (job.step a σ).processes[i]? = some p') :
    p'.phase = p.phase ∨ p'.phase = .done
      ∨ ∃ w', Moves job p.worker σ.world w' p.phase p'.phase := by
  have happend : ∀ q, (σ.processes ++ [q])[i]? = some p := by
    intro q
    rw [List.getElem?_append_left (List.getElem?_eq_some_iff.mp hi).1, hi]
  have hstep := job.steps_step a σ
  generalize job.step a σ = σ' at hstep hi'
  cases hstep with
  | queued requests | asked w' requests =>
    obtain rfl : p = p' := Option.some.inj (hi.symm.trans hi')
    exact .inl rfl
  | polled worker | hinted worker hint =>
    obtain rfl : p = p' := Option.some.inj ((happend _).symm.trans hi')
    exact .inl rfl
  | worked j choice q phase' w' ha hj hw hm heq =>
    rw [List.getElem?_set] at hi'
    split at hi'
    · rename_i hij
      subst hij
      obtain rfl : q = p := Option.some.inj (hj.symm.trans hi)
      split at hi'
      · obtain rfl := Option.some.inj hi'
        exact .inr (.inr ⟨w', hm⟩)
      · cases hi'
    · obtain rfl : p = p' := Option.some.inj (hi.symm.trans hi')
      exact .inl rfl
  | crashed j q ha hj =>
    rw [List.getElem?_set] at hi'
    split at hi'
    · split at hi'
      · obtain rfl := Option.some.inj hi'
        exact .inr (.inl rfl)
      · cases hi'
    · obtain rfl : p = p' := Option.some.inj (hi.symm.trans hi')
      exact .inl rfl

variable (job) in
/-- No process is ever forgotten. -/
theorem length_processes_step (a : Action) (σ : Pool) :
    σ.processes.length ≤ (job.step a σ).processes.length := by
  have hstep := job.steps_step a σ
  generalize job.step a σ = σ' at hstep
  cases hstep <;> simp

theorem ExecuteTask.exists_process (h : job.ExecuteTask i (σ :: σs)) :
    ∃ p, σ.processes[i]? = some p := by
  generalize hτ : σ :: σs = τs at h
  induction h generalizing σ σs with
  | called τ q task hq =>
    obtain ⟨rfl, -⟩ : σ = τ ∧ σs = [] := by simpa using hτ
    exact ⟨q, hq⟩
  | step a τ τs _ ih =>
    obtain ⟨rfl, -⟩ : σ = job.step a τ ∧ σs = τ :: τs := by simpa using hτ
    obtain ⟨q, hq⟩ := ih rfl
    have hlt := (List.getElem?_eq_some_iff.mp hq).1
    have hle := job.length_processes_step a τ
    exact ⟨_, List.getElem?_eq_getElem (by omega)⟩

/-- **What a call carries its task function has computed** in this call. -/
theorem ExecuteTask.backed (h : job.ExecuteTask i (σ :: σs)) (hi : σ.processes[i]? = some p) :
    Backed (Computed i · σs) p.phase := by
  generalize hτ : σ :: σs = τs at h
  induction h generalizing σ σs p with
  | called τ q task hq hphase =>
    obtain ⟨rfl, rfl⟩ : σ = τ ∧ σs = [] := by simpa using hτ
    obtain rfl : q = p := Option.some.inj (hq.symm.trans hi)
    rw [hphase]
    exact trivial
  | step a τ τs hcall ih =>
    obtain ⟨rfl, rfl⟩ : σ = job.step a τ ∧ σs = τ :: τs := by simpa using hτ
    -- the process was there before the step
    obtain ⟨q, hq⟩ := hcall.exists_process
    have hback : Backed (Computed i · (τ :: τs)) q.phase := (ih hq rfl).mono fun _ ho => ho.cons
    rcases step_process a hq hi with heq | heq | ⟨w', hm⟩
    · rw [heq]
      exact hback
    · rw [heq]
      exact trivial
    · exact hback.moves hm fun task o deadline failures hrun =>
        ⟨τ, by simp, q, task, deadline, failures, hq, hrun⟩

/-! ## Reports -/

/-- The report is true of a call that has passed through these pools: at one of these
moments the status was stored, and a completion is stored at the end, with the output
that the task function has returned in this call. -/
structure Truthful (i : ℕ) (r : Report) (σ : Pool) (σs : List Pool) : Prop where
  stored : ∃ τ ∈ σ :: σs, τ.world.snapshot.bind report = some r
  output : r = .completed → ∃ output, Computed i output σs ∧ σ.world.CompletedWith output

omit [Sha256] in
theorem report_of_outcome {s : WorkflowSnapshot} (h : s.outcome = some (.completed output)) :
    s.report = some .completed := by
  unfold outcome at h
  unfold report
  cases hs : s.state <;> simp_all

theorem world_work (hi : σ.processes[i]? = some p) :
    (job.step (.work i .proceed) σ).world = (job.call p.worker p.phase σ.world).2 := by
  simp [step, hi, workStep, phaseStep]

omit [Sha256] in
/-- A guard reports no completion. -/
theorem completing_of_reports (h : job.reports w phase = some .completed) :
    ∃ s, phase = .completing s := by
  have hguard : ∀ g : GuardResult, g.report ≠ some .completed := by
    intro g hg
    cases g with
    | next step => cases hg
    | finished signal =>
      cases signal with
      | none => cases hg
      | some c => cases c <;> cases hg
  cases phase with
  | completing s => exact ⟨s, rfl⟩
  | guarding task g => exact absurd h (hguard _)
  | concluding s output g => exact absurd h (hguard _)
  | cancelled task g => exact absurd (Option.filter_eq_some_iff.mp h).1 (hguard _)
  | _ => cases h

omit [Sha256] in
/-- Postgres keeps a terminal row. -/
theorem snapshot_saveSnapshot_postgres (s : WorkflowSnapshot) (w : PoolWorld) :
    (postgres.saveSnapshot s w).snapshot
      = if w.snapshot.any isTerminal then w.snapshot
        else some (postgres.stored s) := by
  have hship : ∀ w, (shipOutput s w).snapshot = w.snapshot := by
    intro w
    unfold shipOutput
    split <;> rfl
  unfold saveSnapshot
  rw [hship, storeBlob]
  split <;> rfl

/-- **A worker reports what is stored, unless the instance has ended without it**: in
every interleaving, the status that a call of `execute_task` comes to report was stored
during the call, and a completion is stored with the output of this call, exactly if in
the case of a completion the instance has not ended before the save, or has ended in
the same way. -/
theorem reported_status_is_stored_iff (hb : job.backend = postgres) {σ : Pool}
    {σs : List Pool} {p : Process} {r : Report} (hcall : job.ExecuteTask i (σ :: σs))
    (hi : σ.processes[i]? = some p) (hr : job.reports σ.world p.phase = some r) :
    Truthful i r (job.step (.work i .proceed) σ) (σ :: σs)
      ↔ (r = .completed → σ.world.snapshot.any isTerminal = false
          ∨ ∃ output, Computed i output (σ :: σs) ∧ σ.world.CompletedWith output) := by
  by_cases hne : r = .completed
  · subst hne
    -- the call is the save of the completed snapshot
    obtain ⟨s, hs⟩ := completing_of_reports hr
    obtain ⟨output, ho, hcomp⟩ : ∃ output, s.outcome = some (.completed output)
        ∧ Computed i output σs := by
      have hback := hcall.backed hi
      rw [hs] at hback
      exact hback
    have hworld : (job.step (.work i .proceed) σ).world.snapshot
        = if σ.world.snapshot.any isTerminal then σ.world.snapshot
          else some (postgres.stored s) := by
      rw [world_work hi, hs, ← snapshot_saveSnapshot_postgres]
      simp only [call, hb]
    cases hterm : σ.world.snapshot.any isTerminal with
    | true =>
      -- the row is kept, so it has to say the same already
      rw [hterm, if_pos rfl] at hworld
      constructor
      · intro htrue _
        obtain ⟨o, hcomp', hdone⟩ := htrue.output rfl
        exact .inr ⟨o, hcomp', by rw [PoolWorld.CompletedWith, ← hworld]; exact hdone⟩
      · intro h
        rcases h rfl with h | ⟨o, hcomp', hdone⟩
        · cases h
        · obtain ⟨t, ht, hout⟩ := Option.bind_eq_some_iff.mp hdone
          refine ⟨⟨σ, by simp, by simp [ht, report_of_outcome hout]⟩, fun _ => ⟨o, hcomp', ?_⟩⟩
          rw [PoolWorld.CompletedWith, hworld]
          exact hdone
    | false =>
      rw [hterm, if_neg (by simp)] at hworld
      have hout : (postgres.stored s).outcome = some (.completed output) :=
        (outcome_stored postgres).trans ho
      refine ⟨fun _ _ => .inl rfl, fun _ => ⟨⟨_, List.mem_cons_self, ?_⟩, fun _ => ?_⟩⟩
      · rw [hworld, Option.bind_some]
        exact report_of_outcome hout
      · refine ⟨output, hcomp.cons, ?_⟩
        rw [PoolWorld.CompletedWith, hworld, Option.bind_some, hout]
  · have hstored : (job.step (.work i .proceed) σ).world.snapshot.bind report
        = some r := by
      rw [world_work hi]
      exact reported_request_stored hb hr hne
    exact ⟨fun _ h => absurd h hne, fun _ => ⟨⟨_, by simp, hstored⟩, fun h => absurd h hne⟩⟩

end reports

section passed

variable [Sha256] (job : Submission)

def isOffered : Phase → Bool
  | .offered _ => true
  | _ => false

theorem ExecuteTask.of_offered {job : Submission} {i : ℕ}
    (h : (σ.processes[i]?.any fun p => isOffered p.phase) = true) : job.ExecuteTask i [σ] := by
  obtain ⟨p, hi, hp⟩ := (Option.any_eq_true _ _).mp h
  cases hphase : p.phase with
  | offered task => exact .called σ p task hi hphase
  | _ => simp [hphase, isOffered] at hp

/-- The pools passed by a call that goes on with these actions. -/
def passed : List Action → Pool → List Pool → List Pool
  | [], σ, σs => σ :: σs
  | a :: as, σ, σs => passed as (job.step a σ) (σ :: σs)

theorem ExecuteTask.passed {job : Submission} {i : ℕ} (as : List Action)
    (h : job.ExecuteTask i (σ :: σs)) :
    job.ExecuteTask i (job.passed as σ σs) := by
  induction as generalizing σ σs with
  | nil => exact h
  | cons a as ih => exact ih (.step a σ σs h)

end passed

section sample

attribute [local instance] Sha256.packed

/-- One task on Postgres. -/
def oneTask : Submission := { twoTasks .postgres with continuation := .task "t1" .plain none }

/-- Two workers have polled and been offered the task. -/
def bothOffered : Pool :=
  perform oneTask.step (.poll (sampleWorker "a") :: .poll (sampleWorker "b")
    :: (Action.calls 0 2 ++ Action.calls 1 2)) (oneTask.start "i" 0)

/-- The first worker executes and commits the task, gives back its claim and finds no
request. -/
def upToCompletion : List Action := Action.calls 0 7

/-- A cancellation is requested, and the second worker claims the task, finds the request
and applies it. -/
def cancelledMeanwhile : List Action :=
  .request .cancel ⟨some "stop", none⟩ :: Action.calls 1 3

/-- What the latest of these pools and its process 0 are about to report. -/
def reportedNext (σs : List Pool) : Option Report :=
  σs.head?.bind fun σ => σ.processes[0]?.bind fun p => oneTask.reports σ.world p.phase

/-- The status stored after the next step of process 0. -/
def storedNext (σs : List Pool) : Option Report :=
  σs.head?.bind fun σ =>
    (oneTask.step (.work 0 .proceed) σ).world.snapshot.bind report

/-- Left alone, the worker reports a completion that is stored. -/
theorem completion_reported :
    ∃ σ σs, oneTask.passed upToCompletion bothOffered [] = σ :: σs
      ∧ Truthful 0 .completed (oneTask.step (.work 0 .proceed) σ) (σ :: σs) := by
  have hcall : oneTask.ExecuteTask 0 (oneTask.passed upToCompletion bothOffered []) :=
    .passed upToCompletion (.of_offered (by decide +kernel))
  have hrep : reportedNext (oneTask.passed upToCompletion bothOffered []) = some .completed := by
    decide +kernel
  have hopen : ((oneTask.passed upToCompletion bothOffered []).head?.any fun σ =>
      σ.world.snapshot.any isTerminal) = false := by
    decide +kernel
  generalize oneTask.passed upToCompletion bothOffered [] = τs at hcall hrep hopen
  cases τs with
  | nil => cases hrep
  | cons σ σs =>
    obtain ⟨_, hσ, hrep⟩ := Option.bind_eq_some_iff.mp hrep
    obtain rfl := Option.some.inj hσ
    obtain ⟨p, hi, hr⟩ := Option.bind_eq_some_iff.mp hrep
    exact ⟨σ, σs, rfl, (reported_status_is_stored_iff rfl hcall hi hr).mpr fun _ => .inl hopen⟩

/-- **A completion is reported that was never stored**: between the last check for
requests and the save of the first worker, the second one applies a cancellation. -/
theorem completion_reported_of_cancelled :
    let σs := oneTask.passed (upToCompletion ++ cancelledMeanwhile) bothOffered []
    oneTask.ExecuteTask 0 σs ∧ reportedNext σs = some .completed
      ∧ storedNext σs = some .cancelled
      ∧ ∀ τ ∈ σs, τ.world.snapshot.bind report ≠ some .completed := by
  intro σs
  refine ⟨.passed _ (.of_offered ?_), ?_, ?_, ?_⟩ <;> decide +kernel

end sample

end Submission

end Sayiir
