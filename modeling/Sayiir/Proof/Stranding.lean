import Sayiir.Proof.Composition
import Sayiir.Proof.Dispatch
import Sayiir.Proof.Progress

/-!
# Stranded instances

After the last task of a chain a worker makes three separate calls: it commits the
result, releases the claim and stores the completion. In between the stored snapshot
records every task and still stands at the last one, so no poll dispatches it: the
instance is completed by the process that committed the result, or never.

A process that dies anywhere else does no harm. As long as no process gives up
between the last commit and the completion, an instance that nobody holds a claim on
is found by the next poll, and a single worker takes it to the end.
-/

namespace Sayiir

open Backend WorkflowSnapshot Submission

variable {output : Bytes} {s : WorkflowSnapshot}

/-- The step of a guard that cancels the instance. -/
def Backend.cancels (b : Backend) (g : GuardStep) (w : PoolWorld) : Bool :=
  w.snapshot.any (·.isInProgress) && match b, g with
    | inMemory, .cancelRead _ => true
    | postgres, .checkCancel => w.cancelSignal.isSome
    | _, _ => false

/-- The step of a guard that pauses the instance. -/
def Backend.pauses (b : Backend) (g : GuardStep) (w : PoolWorld) : Bool :=
  w.snapshot.any (·.isInProgress) && match b, g with
    | inMemory, .pauseRead _ => true
    | postgres, .checkPause => w.pauseSignal.isSome
    | _, _ => false

/-- The guard has applied a request and is about to forget it. -/
def Backend.GuardStep.isMarked : GuardStep → Bool
  | .cancelMarked | .pauseMarked => true
  | _ => false

namespace Submission

variable [Sha256] (job : Submission)

/-- Every task is recorded in the stored snapshot, but not the completion. -/
def unfinished (w : PoolWorld) : Bool :=
  w.snapshot.any fun s => s.position.isSome && job.continuation.isWorkflowComplete s

/-- A process that has committed the last result and goes on to store the completion. -/
def finishing : Phase → Bool
  | .handingBack _ s _ => job.continuation.isWorkflowComplete s
  | .concluding s _ g => job.continuation.isWorkflowComplete s && !g.isMarked
  | .completing _ => true
  | _ => false

/-- A step by which a process gives up an instance that has only its completion left:
a call fails, the claim to be released is lost, or a pause is applied. -/
def abandons (worker : Worker) (choice : Choice) (phase : Phase) (w : PoolWorld) : Bool :=
  match choice, phase with
  | .lost true, .committing task s _ => job.continuation.isWorkflowComplete s
      && (job.backend.saveSnapshotFenced s task.taskId worker.id w).1
  | .lost _, .handingBack .. => job.finishing phase && job.unfinished w
  | .lost applied, .concluding _ _ g =>
    job.finishing phase && job.unfinished w && !(applied && job.backend.cancels g w)
  | .lost applied, .completing _ => job.unfinished w && !applied
  | .proceed, .handingBack task _ _ => job.finishing phase && job.unfinished w
      && !(job.backend.ownClaim task.taskId worker.id w).isOk
  | .proceed, .concluding _ _ g =>
    job.finishing phase && job.unfinished w && job.backend.pauses g w
  | _, _ => false

/-- No process gives up an instance that has only its completion left, unless another
one is about to store the completion, too. -/
def LetsFinish : Action → Pool → Prop
  | .work i choice, σ => ∀ p ∈ σ.processes[i]?, job.abandons p.worker choice p.phase σ.world →
      (σ.processes.eraseIdx i).any fun q => job.finishing q.phase
  | .crash i, σ => ∀ p ∈ σ.processes[i]?, job.finishing p.phase && job.unfinished σ.world →
      (σ.processes.eraseIdx i).any fun q => job.finishing q.phase
  | _, _ => True

instance : ∀ a σ, Decidable (job.LetsFinish a σ)
  | .work i choice, σ => inferInstanceAs (Decidable (∀ p ∈ σ.processes[i]?,
      job.abandons p.worker choice p.phase σ.world →
        (σ.processes.eraseIdx i).any fun q => job.finishing q.phase))
  | .crash i, σ => inferInstanceAs (Decidable (∀ p ∈ σ.processes[i]?,
      job.finishing p.phase && job.unfinished σ.world →
        (σ.processes.eraseIdx i).any fun q => job.finishing q.phase))
  | .tick _, _ | .sendEvent _ _, _ | .request _ _, _ | .insertRequest _, _ | .unpause, _
  | .poll _, _ | .hinted _ _, _ => .isTrue trivial

end Submission

section attended

variable [Sha256] {job : Submission} {worker : Worker} {w w' : PoolWorld} {phase : Phase}

open Submission

/-! ## Somebody finishes the instance -/

theorem isWorkflowComplete_congr (hc : job.continuation.TaskChain) {s' : WorkflowSnapshot}
    (h : ∀ t, (s'.getTaskResult t).isSome = (s.getTaskResult t).isSome) :
    job.continuation.isWorkflowComplete s' = job.continuation.isWorkflowComplete s := by
  rw [Bool.eq_iff_iff, hc.isWorkflowComplete_iff, hc.isWorkflowComplete_iff]
  simp only [h]

theorem unfinished_of_snapshot (h : w'.snapshot = w.snapshot) :
    job.unfinished w' = job.unfinished w := by
  unfold unfinished
  rw [h]

/-- An instance is left unfinished by the commit of the last result only. -/
theorem unfinished_writes (hc : job.continuation.TaskChain) (hids : job.continuation.ids.Nodup)
    (h : Writes job worker phase w w') (hp : job.chainPlan.Holds job w phase)
    (hun : job.unfinished w') :
    job.unfinished w ∨ ∃ task s output, phase = .committing task s output
      ∧ job.continuation.isWorkflowComplete s := by
  have hfit := fits_chainPlan hc hids
  cases h.stores with
  | kept h =>
    rw [unfinished_of_snapshot h] at hun
    exact .inl hun
  | saved s hs hw' h =>
    simp only [unfinished, h, Option.any_some, Bool.and_eq_true, position_stored] at hun
    rw [isWorkflowComplete_congr hc fun t => isSome_getTaskResult_stored s t] at hun
    cases phase with
    | retrying task s' =>
      obtain rfl : s' = s := Option.some.inj hs
      obtain ⟨k, hlt, hk, -⟩ := hp
      have hcomplete := hun.2
      rw [hfit.complete k s' hk, decide_eq_true_eq] at hcomplete
      omega
    | failing task s' =>
      obtain rfl : s' = s := Option.some.inj hs
      obtain ⟨e, he⟩ := hp
      simp [WorkflowSnapshot.position, he] at hun
    | committing task s' output =>
      obtain rfl : s' = s := Option.some.inj hs
      exact .inr ⟨task, s', output, rfl, hun.2⟩
    | completing s' =>
      obtain rfl : s' = s := Option.some.inj hs
      obtain ⟨out, he, -⟩ := hp
      simp [WorkflowSnapshot.position, he] at hun
    | waking | drained | resolving => exact hp.elim
    | _ => cases hs
  | advanced advance hphase =>
    subst hphase
    exact hp.elim
  | cancelled s request taskId hs hprog h =>
    simp [unfinished, h] at hun
  | paused s request hs hprog h =>
    simp only [unfinished, h, Option.any_some, Bool.and_eq_true,
      position_markPaused] at hun
    rw [isWorkflowComplete_congr hc (s := s) (by simp)] at hun
    exact .inl (by simpa [unfinished, hs] using hun)

/-- The guard step that cancels the instance leaves nothing to be finished. -/
theorem unfinished_of_cancels (taskId : Option TaskId) {g : GuardStep}
    (h : job.backend.cancels g w) : job.unfinished (job.backend.guardStep taskId g w).2 = false := by
  unfold Backend.cancels at h
  rw [Bool.and_eq_true] at h
  obtain ⟨s, hs, hp⟩ := (Option.any_eq_true _ _).mp h.1
  have hmark : ∀ request, markIfInProgress (·.markCancelled request taskId) w
      = (true, { w with snapshot := some (s.markCancelled request taskId) }) := by
    intro request
    simp [markIfInProgress, hs, hp]
  cases hb : job.backend with
  | inMemory =>
    rw [hb] at h
    cases g with
    | cancelRead request => simp [guardStep, guardInMemory, hmark, unfinished]
    | _ => simp at h
  | postgres =>
    rw [hb] at h
    cases g with
    | checkCancel =>
      cases hc : w.cancelSignal with
      | none => simp [hc] at h
      | some request => simp [guardStep, guardPostgres, hmark, unfinished, hc]
    | _ => simp at h

/-- A guard that applies no request lets the process pass, or goes on. -/
theorem finishing_afterGuard {g : GuardStep}
    {taskId : Option TaskId} (hs : job.continuation.isWorkflowComplete s)
    (hg : g.isMarked = false) (hcancel : job.backend.cancels g w = false)
    (hpause : job.backend.pauses g w = false) :
    job.finishing (afterGuard (job.backend.guardStep taskId g w).1 (.concluding s output)
      (job.conclude s output) .done) := by
  have hpass : job.finishing (job.conclude s output) := by simp [conclude, hs, finishing]
  have hmark : ∀ mark, w.snapshot.any (·.isInProgress) = false →
      markIfInProgress mark w = (false, w) := by
    intro mark hnot
    unfold markIfInProgress
    split
    · rename_i s' hs'
      rw [hs', Option.any_some] at hnot
      simp [hnot]
    · rfl
  unfold Backend.cancels at hcancel
  unfold Backend.pauses at hpause
  cases hb : job.backend with
  | inMemory =>
    rw [hb] at hcancel hpause
    cases g with
    | start | checkCancel =>
      cases hc : w.cancelSignal <;>
        simp [guardStep, guardInMemory, hc, afterGuard, finishing, hs, GuardStep.isMarked]
    | cancelRead request =>
      simp [guardStep, guardInMemory, hmark _ (by simpa using hcancel), afterGuard, finishing, hs,
        GuardStep.isMarked]
    | checkPause =>
      cases hc : w.pauseSignal with
      | none => simpa [guardStep, guardInMemory, hc, afterGuard] using hpass
      | some request =>
        simp [guardStep, guardInMemory, hc, afterGuard, finishing, hs, GuardStep.isMarked]
    | pauseRead request =>
      simpa [guardStep, guardInMemory, hmark _ (by simpa using hpause), afterGuard] using hpass
    | cancelMarked | pauseMarked => simp [GuardStep.isMarked] at hg
  | postgres =>
    rw [hb] at hcancel hpause
    cases g with
    | start =>
      cases hsig : w.hasSignal with
      | false => simpa [guardStep, guardPostgres, hsig, afterGuard] using hpass
      | true => simp [guardStep, guardPostgres, hsig, afterGuard, finishing, hs, GuardStep.isMarked]
    | checkCancel =>
      cases hc : w.cancelSignal with
      | none => simp [guardStep, guardPostgres, hc, afterGuard, finishing, hs, GuardStep.isMarked]
      | some request =>
        simp [guardStep, guardPostgres, hc, hmark _ (by simpa [hc] using hcancel), afterGuard,
          finishing, hs, GuardStep.isMarked]
    | checkPause =>
      cases hc : w.pauseSignal with
      | none => simpa [guardStep, guardPostgres, hc, afterGuard] using hpass
      | some request =>
        simpa [guardStep, guardPostgres, hc, hmark _ (by simpa [hc] using hpause), afterGuard]
          using hpass
    | cancelRead | pauseRead => simpa [guardStep, guardPostgres, afterGuard] using hpass
    | cancelMarked | pauseMarked => simp [GuardStep.isMarked] at hg

/-- Storing the completion leaves nothing to be finished. -/
theorem unfinished_completed (job : Submission) {out : Bytes} (hs : s.state = .completed out) :
    job.unfinished (job.backend.saveSnapshot s w) = false := by
  rcases snapshot_saveSnapshot (b := job.backend) (w := w) s with h | ⟨-, ht, h⟩
  · have hpos : s.position = none := by simp [WorkflowSnapshot.position, hs]
    simp [unfinished, h, hpos]
  · obtain ⟨s', hs', ht'⟩ := (Option.any_eq_true _ _).mp ht
    have hpos : s'.position = none := by
      unfold isTerminal at ht'
      unfold WorkflowSnapshot.position
      split at ht' <;> simp_all
    rw [unfinished_of_snapshot h]
    simp [unfinished, hs', hpos]

/-- A process that holds its claim hands it back and concludes. -/
theorem finishing_handingBack (hfit : job.chainPlan.Fits job) {task : AvailableTask}
    (hp : job.chainPlan.Holds job w (.handingBack task s output))
    (hown : (job.backend.ownClaim task.taskId worker.id w).isOk)
    (hs : job.continuation.isWorkflowComplete s) :
    job.finishing (job.call worker (.handingBack task s output) w).1 := by
  obtain ⟨k, -, hstage, -⟩ := hp
  have hrelease : (job.backend.releaseTaskClaim task.taskId worker.id w).1 = .ok () := by
    unfold releaseTaskClaim
    cases hclaim : job.backend.ownClaim task.taskId worker.id w with
    | error e =>
      rw [hclaim] at hown
      cases hown
    | ok claim => rfl
  have hcall : (job.call worker (.handingBack task s output) w).1
      = .concluding s output .start := by
    simp only [call, hrelease, hfit.settled _ s hstage, Saving.ok, resolve]
  rw [hcall]
  simp [finishing, hs, GuardStep.isMarked]

/-- The commit of the last result leaves a process that finishes the instance. -/
theorem finishing_committing (hc : job.continuation.TaskChain) {task : AvailableTask}
    (hp : job.chainPlan.Holds job w (.committing task s output))
    (hs : job.continuation.isWorkflowComplete s)
    (hsaved : (job.backend.saveSnapshotFenced s task.taskId worker.id w).1) :
    job.finishing (job.call worker (.committing task s output) w).1 := by
  obtain ⟨k, -, hstage, -⟩ := hp
  have hcall : (job.call worker (.committing task s output) w).1
      = .handingBack task (job.backend.afterSave s) output := by
    simp [call, hsaved, drain, (hstage.afterSave job.backend).isAtSignal]
  have hafter : ∀ t, ((job.backend.afterSave s).getTaskResult t).isSome
      = (s.getTaskResult t).isSome := by
    intro t
    cases job.backend <;> rfl
  rw [hcall, finishing, isWorkflowComplete_congr hc hafter, hs]

/-- **A process that does not give up finishes the instance.** -/
theorem finishing_phaseStep (hc : job.continuation.TaskChain)
    (hids : job.continuation.ids.Nodup) {choice : Choice}
    (hp : job.chainPlan.Holds job w phase)
    (hkeeps : job.abandons worker choice phase w = false)
    (hun : job.unfinished (job.phaseStep worker choice phase w).2) :
    job.finishing (job.phaseStep worker choice phase w).1
      ∨ job.unfinished w ∧ job.finishing phase = false := by
  have hwrites : Writes job worker phase w (job.phaseStep worker choice phase w).2 :=
    writes_phaseStep job choice
  rcases unfinished_writes hc hids hwrites hp hun with hbefore | ⟨task, s, output, rfl, hs⟩
  · cases hfin : job.finishing phase with
    | false => exact .inr ⟨hbefore, rfl⟩
    | true =>
      left
      cases phase with
      | handingBack task s output =>
        cases choice with
        | proceed =>
          refine finishing_handingBack (fits_chainPlan hc hids) hp ?_ hfin
          simpa [abandons, hfin, hbefore] using hkeeps
        | lost applied => simp [abandons, hfin, hbefore] at hkeeps
        | raise | heartbeat => exact hfin
      | concluding s output g =>
        have hs : job.continuation.isWorkflowComplete s ∧ g.isMarked = false := by
          simpa [finishing] using hfin
        have hcancel : choice = .proceed ∨ choice = .lost true →
            job.backend.cancels g w = false := by
          intro hchoice
          rw [Bool.eq_false_iff]
          intro h
          have hnot := unfinished_of_cancels none h
          rcases hchoice with rfl | rfl
          · exact absurd hun (by simpa [phaseStep, call] using hnot)
          · exact absurd hun (by simpa [phaseStep, call] using hnot)
        cases choice with
        | proceed =>
          refine finishing_afterGuard hs.1 hs.2 (hcancel (.inl rfl)) ?_
          simpa [abandons, hfin, hbefore] using hkeeps
        | lost applied =>
          cases applied with
          | false => simp [abandons, hfin, hbefore] at hkeeps
          | true => simp [abandons, hfin, hbefore, hcancel (.inr rfl)] at hkeeps
        | raise | heartbeat => exact hfin
      | completing s =>
        obtain ⟨out, he, -⟩ := hp
        have hnot := unfinished_completed job (w := w) he
        cases choice with
        | proceed => exact absurd hun (by simpa [phaseStep, call] using hnot)
        | lost applied =>
          cases applied with
          | false => simp [abandons, hbefore] at hkeeps
          | true => exact absurd hun (by simpa [phaseStep, call] using hnot)
        | raise | heartbeat => exact hfin
      | _ => cases hfin
  · -- the last result is committed, or the save is refused and nothing happens
    have hfenced : job.backend.saveSnapshotFenced s task.taskId worker.id w
          = (true, job.backend.saveSnapshot s w)
        ∨ job.backend.saveSnapshotFenced s task.taskId worker.id w = (false, w) :=
      saveSnapshotFenced_cases _ _ s
    cases choice with
    | proceed =>
      rcases hfenced with h | h
      · exact .inl (finishing_committing hc hp hs (by rw [h]))
      · refine .inr ⟨?_, rfl⟩
        simpa [phaseStep, call, h] using hun
    | lost applied =>
      refine .inr ⟨?_, rfl⟩
      cases applied with
      | false => exact hun
      | true =>
        rcases hfenced with h | h
        · simp [abandons, hs, h] at hkeeps
        · simpa [phaseStep, call, h] using hun
    | raise | heartbeat => exact .inr ⟨hun, rfl⟩

/-! ## Whole runs -/

/-- An unfinished instance is attended by a process that finishes it. -/
def Submission.Attended (job : Submission) (σ : Pool) : Prop :=
  job.unfinished σ.world → ∃ p ∈ σ.processes, job.finishing p.phase

variable {σ : Pool} {instanceId : String} {now : Time}

/-- Another process that finishes the instance is not affected by a step of the first. -/
theorem exists_finishing_set {ps : List Process} {i : ℕ} (p' : Process)
    (h : (ps.eraseIdx i).any fun q => job.finishing q.phase) :
    ∃ p ∈ ps.set i p', job.finishing p.phase := by
  obtain ⟨q, hq, hfin⟩ := List.any_eq_true.mp h
  obtain ⟨j, hji, hj⟩ := List.mem_eraseIdx_iff_getElem?.mp hq
  exact ⟨q, List.mem_of_getElem? ((List.getElem?_set_ne (Ne.symm hji)).trans hj), hfin⟩

/-- The same if the first process does not finish it. -/
theorem exists_finishing_of_ne {ps : List Process} {i : ℕ} {p : Process} (p' : Process)
    (hi : ps[i]? = some p) (hp : job.finishing p.phase = false)
    (h : ∃ q ∈ ps, job.finishing q.phase) : ∃ q ∈ ps.set i p', job.finishing q.phase := by
  obtain ⟨q, hq, hfin⟩ := h
  obtain ⟨j, hj⟩ := List.mem_iff_getElem?.mp hq
  have hji : i ≠ j := by
    rintro rfl
    obtain rfl : p = q := Option.some.inj (hi.symm.trans hj)
    simp [hp] at hfin
  exact ⟨q, List.mem_of_getElem? ((List.getElem?_set_ne hji).trans hj), hfin⟩

theorem unfinished_asks (hc : job.continuation.TaskChain) {a : Action} (h : Asks job a w w')
    (hw : job.chainPlan.WorldRight job w) (hun : job.unfinished w') : job.unfinished w := by
  cases h.delivers with
  | kept h => rwa [unfinished_of_snapshot h] at hun
  | received s signalId signalName payload wakeAt next completed last hb hs hst =>
    exfalso
    have hp : s.isInProgress := by simp [isInProgress, hst]
    obtain ⟨k, hk, -⟩ := hw.stored.stage hs hp
    obtain ⟨t, -, ht⟩ := hk.atTask
    rw [position_view] at ht
    simp [WorkflowSnapshot.position, hst] at ht
  | unpaused s hs hw' =>
    subst hw'
    simp only [unfinished, Option.any_some, Bool.and_eq_true,
      position_markUnpaused] at hun
    rw [isWorkflowComplete_congr hc (s := s) (by simp)] at hun
    simpa [unfinished, hs] using hun

/-- A step that lets the processes finish leaves nobody unattended. -/
theorem attended_step (hc : job.continuation.TaskChain) (hids : job.continuation.ids.Nodup)
    {a : Action} (hw : job.chainPlan.WorldRight job σ.world)
    (hp : ∀ p ∈ σ.processes, job.chainPlan.Holds job σ.world p.phase)
    (h : job.Attended σ) (ha : job.LetsFinish a σ) : job.Attended (job.step a σ) := by
  -- clients and new polls leave the processes alone
  have hothers : (∀ i choice, a ≠ .work i choice) → (∀ i, a ≠ .crash i) →
      job.Attended (job.step a σ) := by
    intro hwork hcrash hun
    have hstep := job.steps_step a σ
    generalize job.step a σ = σ' at hstep hun
    cases hstep with
    | queued requests => exact h hun
    | asked w' requests hasks => exact h (unfinished_asks hc hasks hw hun)
    | polled worker _ | hinted worker hint _ =>
      obtain ⟨p, hmem, hfin⟩ := h hun
      exact ⟨p, List.mem_append_left _ hmem, hfin⟩
    | worked i choice p phase' w' hact => exact absurd hact (hwork i choice)
    | crashed i p hact => exact absurd hact (hcrash i)
  cases a with
  | work i choice =>
    intro hun
    unfold step at hun ⊢
    dsimp only at hun ⊢
    cases hi : σ.processes[i]? with
    | none =>
      rw [hi] at hun
      exact h hun
    | some p =>
      rw [hi] at hun
      dsimp only [workStep] at hun ⊢
      cases hgive : job.abandons p.worker choice p.phase σ.world with
      | true => exact exists_finishing_set _ (ha p hi hgive)
      | false =>
        rcases finishing_phaseStep hc hids (hp p (List.mem_of_getElem? hi)) hgive hun with
          hfin | ⟨hbefore, hnot⟩
        · exact ⟨_, List.mem_set (List.getElem?_eq_some_iff.mp hi).1 _, hfin⟩
        · exact exists_finishing_of_ne _ hi hnot (h hbefore)
  | crash i =>
    intro hun
    unfold step at hun ⊢
    dsimp only at hun ⊢
    cases hi : σ.processes[i]? with
    | none =>
      rw [hi] at hun
      exact h hun
    | some p =>
      rw [hi] at hun
      have hbefore : job.unfinished σ.world := hun
      cases hfin : job.finishing p.phase with
      | true => exact exists_finishing_set _ (ha p hi (by rw [hfin, hbefore]; rfl))
      | false => exact exists_finishing_of_ne _ hi hfin (h hbefore)
  | _ => exact hothers (by simp) (by simp)

/-- **In a run that lets the processes finish nobody is left unattended.** -/
theorem attended_reachable (hc : job.continuation.TaskChain) (hids : job.continuation.ids.Nodup)
    (h : job.Reachable job.LetsFinish instanceId now σ) : job.Attended σ := by
  refine Walk.invariant_of h (I := job.Attended)
    (J := fun σ => job.chainPlan.WorldRight job σ.world
      ∧ ∀ p ∈ σ.processes, job.chainPlan.Holds job σ.world p.phase) (follows_chain hc hids) ?_ ?_
  · -- nothing is recorded in the snapshot that the client stores
    intro hun
    simp only [unfinished, start, (job.submitted_eq instanceId now).1, Option.any_some,
      Bool.and_eq_true, hc.isWorkflowComplete_iff, isSome_getTaskResult_stored] at hun
    have hfirst := hun.2 (TaskId.sha256 job.continuation.firstTaskId)
      (List.mem_map_of_mem hc.taskForks.firstTaskId_mem)
    simp [initialSnapshot] at hfirst
  · exact fun a σ hJ hI hC => attended_step hc hids hJ.1 hJ.2 hI hC

end attended

/-! ## One worker takes the instance on -/

/-- A running instance at the `k`-th stage of a plan that nobody holds back: no claim is
alive, no request is pending and no backoff is left. -/
structure Plan.Ready [Sha256] (plan : Plan) (job : Submission) (k : ℕ) (s : WorkflowSnapshot)
    (w : PoolWorld) : Prop where
  snapshot : w.snapshot = some s
  running : s.isInProgress
  stage : plan.Stage job k (job.backend.view w s)
  covered : plan.Covered job w k
  calm : w.hasSignal = false
  unclaimed : Unclaimed job.backend w
  backoff : ∀ t, s.inBackoff t w.clock = false

namespace Plan

variable [Sha256] {plan : Plan} {job : Submission} {worker : Worker} {w : PoolWorld} {k : ℕ}
  {s : WorkflowSnapshot} {t : TaskId}

open Submission

/-- The task that a ready instance stands at. -/
theorem Ready.currentTaskId (h : plan.Ready job k s w) (hk : plan.ids[k]? = some t) :
    s.currentTaskId = some t := by
  have hpos := h.stage.position t hk
  rw [position_view] at hpos
  exact currentTaskId_of_position h.running hpos

variable (worker) in
/-- **A poll offers the next task of the plan,** and the claim would be granted. -/
theorem Ready.runs_offered (hfit : plan.Fits job) (h : plan.Ready job k s w)
    (hk : plan.ids[k]? = some t) (htags : PoolWorld.tagsMatch worker.tags s) :
    ∃ task claims, Unclaimed job.backend { w with claims := claims }
      ∧ job.Runs worker (.polling, w) (.offered task, { w with claims := claims })
      ∧ plan.Offer job w k task ∧ job.accepts task
      ∧ job.backend.claimable task.taskId { w with claims := claims } := by
  have hcur := h.currentTaskId hk
  have hfresh : s.getTaskResult t = none := by
    rw [← Option.not_isSome_iff_eq_none, ← isSome_getTaskResult_view (b := job.backend) (w := w),
      h.stage.next_fresh hfit hk]
    simp
  have hp : (job.backend.view w s).isInProgress := by simpa using h.running
  obtain ⟨input, hraw, hbuild⟩ := h.stage.buildAvailableTask hp t
  obtain ⟨claims, hclaims, hruns⟩ := runs_poll worker h.snapshot h.running
    (position_of_currentTaskId hcur) hfresh h.calm h.unclaimed (h.backoff t) htags
    hbuild
  refine ⟨_, claims, hclaims, hruns, ⟨hk, h.stage, hp, hraw, h.covered⟩, ?_, ?_⟩
  · simp [accepts, h.stage.definitionHash, hfit.indexed t (List.mem_of_getElem? hk),
      h.stage.next_fresh hfit hk]
  · exact claimable_of_unclaimed hclaims h.snapshot hcur

/-- What a worker leaves behind that has executed the next task of the plan. -/
theorem Ready.saved (hfit : plan.Fits job) {s' : WorkflowSnapshot} {claims : List TaskClaim}
    (hw : plan.OutputsRight w) (h : plan.Ready job k s w) (hs' : plan.Stage job (k + 1) s')
    (hp' : s'.isInProgress) (hu : s'.outputUnflushed)
    (hretries : ∀ t, s'.taskRetries.lookup t = none) {w' : PoolWorld} (hsnap : w'.snapshot = w.snapshot)
    (houtputs : w'.outputs = w.outputs) (hsig : w'.hasSignal = w.hasSignal)
    (hclaims : ∀ c ∈ claims, job.backend.isExpired w'.clock c) :
    plan.Ready job (k + 1) (job.backend.stored s')
      { job.backend.saveSnapshot s' w' with claims := claims } := by
  obtain ⟨-, hclock, hcancel, hpause⟩ := saveSnapshot_frame (b := job.backend) (w := w') s'
  have hw' : plan.OutputsRight w' := by
    unfold OutputsRight
    rw [houtputs]
    exact hw
  have hcov : plan.Covered job w' k := by
    unfold Covered
    rw [houtputs]
    exact h.covered
  have hcov' : plan.Covered job (job.backend.saveSnapshot s' w') (k + 1) :=
    covered_saveSnapshot hfit hw' hs' hcov hu
  refine ⟨?_, ?_, hs'.view_stored hcov', hcov', ?_, ?_, fun t => ?_⟩
  · exact snapshot_saveSnapshot_of_isInProgress (hsnap.trans h.snapshot) h.running s'
  · cases job.backend with
    | inMemory => exact hp'
    | postgres => simpa [stored, stripTaskOutputs] using hp'
  · refine Eq.trans ?_ (hsig.trans h.calm)
    simp only [PoolWorld.hasSignal, hcancel, hpause]
  · intro c hc
    exact hclock ▸ hclaims c hc
  · have hstored : (job.backend.stored s').taskRetries = s'.taskRetries := by
      cases job.backend with
      | inMemory => rfl
      | postgres => simp [stored, stripTaskOutputs]
    simp [inBackoff, hstored, hretries]

variable (worker) in
/-- **One worker executes the next task of the plan**, and completes the instance if that
is the last one. -/
theorem Ready.runs_done (hfit : plan.Fits job) (hw : plan.OutputsRight w)
    (h : plan.Ready job k s w) (hk : plan.ids[k]? = some t) (htags : worker.tags = [])
    (httl : worker.ttl ≠ some 0) {name : String} {x o : Bytes} (hallowed : plan.allowed k)
    (hname : job.continuation.executeTaskById t = .ok name) (hx : plan.input k = .ok x)
    (ho : job.callbacks.execute name x = .ok o) :
    ∃ w', job.Runs worker (.polling, w) (.done, w')
      ∧ (k + 1 ≠ plan.ids.length ∧ (∃ s', plan.Ready job (k + 1) s' w')
        ∨ k + 1 = plan.ids.length ∧ ∃ s', w'.snapshot = some s' ∧ s'.state = .completed o) := by
  obtain ⟨task, claims, hunclaimed, hpoll, hoffer, haccepts, hclaimable⟩ :=
    h.runs_offered worker hfit hk (by simp [PoolWorld.tagsMatch, htags])
  obtain rfl : t = task.taskId := Option.some.inj (hk.symm.trans hoffer.1)
  obtain ⟨rest, hrest, hclaim⟩ := runs_claim worker haccepts hclaimable hunclaimed
  have hinput : job.taskInput task = .ok x := by
    rw [hfit.taskInput k task hoffer.1 hoffer.2.1 hoffer.2.2.2.1, hx]
  have houtput : plan.output k = some o :=
    hfit.output k name x o hallowed (hfit.executeTaskById k _ name hk hname) hx ho
  obtain ⟨s', hs', hstage', hp', hu, hretries⟩ := commitSnapshot_stage hfit hoffer houtput w.clock
  -- the worlds after the claim, the call and the commit
  let w₁ : PoolWorld :=
    { w with claims := worker.claim job.backend task.taskId w.clock :: rest }
  let w₂ := w₁.log (.taskCalled name x w.clock)
  let w₃ := job.backend.saveSnapshot s' w₂
  have hguard : job.Runs worker (.guarding task .start, w₁) (.executing task, w₁) :=
    runs_guarding h.calm
  have hexec : job.Runs worker (.executing task, w₁) (.committing task s' o, w₂) :=
    runs_executing hinput hname ho hs'
  have hcommit : job.Runs worker (.committing task s' o, w₂)
      (.handingBack task (job.backend.afterSave s') o, w₃) :=
    runs_committing httl hstage'.isAtSignal rfl
  obtain ⟨hclaims, hclock, -⟩ := saveSnapshot_frame (b := job.backend) (w := w₂) s'
  have hown : w₃.claims = worker.claim job.backend task.taskId w₃.clock :: rest := by
    show (job.backend.saveSnapshot s' w₂).claims = _
    rw [hclaims, hclock]
    rfl
  have hafter := hstage'.afterSave job.backend
  let w₄ : PoolWorld := { w₃ with claims := w₃.claims.filter (·.taskId ≠ task.taskId) }
  have hback : job.Runs worker (.handingBack task (job.backend.afterSave s') o, w₃)
      (.concluding (job.backend.afterSave s') o .start, w₄) :=
    runs_handingBack hown (hfit.settled _ _ hafter)
  have hready : plan.Ready job (k + 1) (job.backend.stored s') w₄ := by
    refine h.saved hfit hw hstage' hp' hu hretries rfl rfl rfl fun c hc => ?_
    rw [hown, List.mem_filter] at hc
    rcases List.mem_cons.mp hc.1 with rfl | hmem
    · simp [Worker.claim] at hc
    · exact hrest c hmem
  have hconclude : job.Runs worker (.concluding (job.backend.afterSave s') o .start, w₄)
      (job.conclude (job.backend.afterSave s') o, w₄) :=
    runs_concluding hready.calm
  have hruns := ((((hpoll.trans hclaim).trans hguard).trans hexec).trans hcommit).trans
    (hback.trans hconclude)
  unfold conclude at hruns
  rw [hfit.complete _ _ hafter] at hruns
  by_cases hend : k + 1 = plan.ids.length
  · rw [if_pos (by simpa using hend)] at hruns
    refine ⟨_, hruns.trans (.call rfl), .inr ⟨hend, ?_⟩⟩
    refine ⟨_, snapshot_saveSnapshot_of_isInProgress hready.snapshot hready.running _, ?_⟩
    cases job.backend <;> rfl
  · rw [if_neg (by simpa using hend)] at hruns
    exact ⟨_, hruns, .inl ⟨hend, _, hready⟩⟩

end Plan

/-! ## To the end of the chain -/

/-- Every task has a function. -/
def WorkflowContinuation.Implemented (c : WorkflowContinuation) : Prop :=
  ∀ id fields next, .task id fields next ∈ c.subtrees → fields.func = true

section chains

variable [Sha256] {job : Submission} {worker : Worker} {σ : Pool} {k : ℕ} {s : WorkflowSnapshot}
  {instanceId : String} {now : Time} {names : List String} {x out : Bytes}

open Submission WorkflowContinuation

/-- The function of every task is found. -/
theorem WorkflowContinuation.TaskChain.executeTaskById_of_mem {c : WorkflowContinuation}
    (hc : c.TaskChain) (hnd : c.ids.Nodup) (himpl : c.Implemented) {name : String}
    (h : name ∈ c.taskIds) : c.executeTaskById (TaskId.sha256 name) = .ok name := by
  induction hc with
  | last id fields =>
    obtain rfl : name = id := by simpa [taskIds, taskIdsNext] using h
    have hfunc := himpl name fields none (by simp [subtrees])
    simp [WorkflowContinuation.executeTaskById, hfunc]
  | task id fields next hnext ih =>
    have hfunc := himpl id fields (some next) (by simp [subtrees])
    simp only [ids_task, idsNext_some, List.nodup_cons] at hnd
    simp only [taskIds, taskIdsNext, List.mem_cons] at h
    rcases h with rfl | h
    · simp [WorkflowContinuation.executeTaskById, hfunc]
    · have hne : TaskId.sha256 id ≠ TaskId.sha256 name := by
        intro he
        exact hnd.1 (he ▸ List.mem_map_of_mem h)
      rw [WorkflowContinuation.executeTaskById, if_neg hne, taskByIdNext]
      refine ih hnd.2 (fun id' fields' next' hmem => himpl id' fields' next' ?_) h
      simp [subtrees, subtreesNext, hmem]

/-- What the plan of a chain calls next, if the composition has a value. -/
theorem chainPlan_next (hc : job.continuation.TaskChain)
    (hout : compose job.callbacks job.continuation.taskIds job.input = .ok out)
    (hk : k < job.continuation.taskIds.length) :
    ∃ x o, job.chainPlan.input k = .ok x
      ∧ job.callbacks.execute job.continuation.taskIds[k] x = .ok o
      ∧ compose job.callbacks (job.continuation.taskIds.take (k + 1)) job.input = .ok o := by
  have hname : job.continuation.taskIds[k]? = some job.continuation.taskIds[k] :=
    List.getElem?_eq_getElem hk
  obtain ⟨x, hx⟩ := compose_take hout k
  obtain ⟨o, ho⟩ := compose_take hout (k + 1)
  obtain ⟨done, hdone, rfl⟩ := rehearse_of_compose hc hx (Nat.le_of_lt hk)
  refine ⟨job.latest done, o, ?_, ?_, ho⟩
  · unfold chainPlan planOf
    dsimp only
    rw [hdone, hname]
    dsimp only
    rw [feed, hc.findForkBranchesForJoin]
  · rw [compose_succ hname, hx] at ho
    exact ho

/-- **From any stage a single worker takes the instance to its end.** -/
theorem completes_of_ready (hc : job.continuation.TaskChain) (hids : job.continuation.ids.Nodup)
    (himpl : job.continuation.Implemented)
    (hout : compose job.callbacks job.continuation.taskIds job.input = .ok out)
    (htags : worker.tags = []) (httl : worker.ttl ≠ some 0) {C : Action → Pool → Prop}
    (h : job.Reachable C instanceId now σ) (hready : job.chainPlan.Ready job k s σ.world)
    (hk : k < job.continuation.taskIds.length) :
    ∃ σ', Walk job.step (fun a _ => a.takesOn worker σ.processes.length) σ σ'
      ∧ ∃ s', σ'.world.snapshot = some s' ∧ s'.state = .completed out := by
  have hfit := fits_chainPlan hc hids
  have hlen : job.chainPlan.ids.length = job.continuation.taskIds.length := by
    simp [Plan.ids, chainPlan, planOf]
  induction hrest : job.continuation.taskIds.length - k generalizing k s σ C with
  | zero => omega
  | succ n ih =>
    obtain ⟨x, o, hx, ho, hcomp⟩ := chainPlan_next hc hout hk
    have hid : job.chainPlan.ids[k]? = some (TaskId.sha256 job.continuation.taskIds[k]) := by
      simp [Plan.ids, chainPlan, planOf, List.getElem?_eq_getElem hk]
    have hname := hc.executeTaskById_of_mem hids himpl (List.getElem_mem hk)
    have hallowed : job.chainPlan.allowed k := by simp [chainPlan, planOf]
    obtain ⟨w', hruns, hnext⟩ := hready.runs_done worker hfit (follows_chain hc hids h).1.outputs
      hid htags httl hallowed hname hx ho
    obtain ⟨seen, hwalk⟩ := hruns.walk
    rcases hnext with ⟨hne, s', hready'⟩ | ⟨hend, s', hs', hst'⟩
    · -- the next round is one of a pool with one more process
      have hreach : job.Reachable (fun _ _ => True) instanceId now _ :=
        (Walk.mono (fun _ _ _ => trivial) h).trans (Walk.mono (fun _ _ _ => trivial) hwalk)
      obtain ⟨σ', hwalk', hdone⟩ := ih hreach hready' (by omega) (by omega)
      refine ⟨σ', hwalk.trans (Walk.mono (fun a _ ha => ?_) hwalk'), hdone⟩
      cases a with
      | work i choice =>
        cases choice with
        | proceed =>
          have hle : (σ.processes ++ [_]).length ≤ i := ha
          rw [List.length_append] at hle
          exact Nat.le_of_add_right_le hle
        | _ => exact ha
      | _ => exact ha
    · refine ⟨_, hwalk, s', hs', ?_⟩
      rw [hst']
      have : k + 1 = job.continuation.taskIds.length := by omega
      rw [this, List.take_length, hout] at hcomp
      rw [Except.ok.inj hcomp]

/-- A running instance that nobody is about to finish, and that nothing holds back, is
ready for its next task. -/
theorem ready_of_letsFinish (hc : job.continuation.TaskChain) (hids : job.continuation.ids.Nodup)
    (h : job.Reachable job.LetsFinish instanceId now σ) (hs : σ.world.snapshot = some s)
    (hp : s.isInProgress) (hidle : ∀ p ∈ σ.processes, job.finishing p.phase = false)
    (hclaims : Unclaimed job.backend σ.world) (hsig : σ.world.hasSignal = false)
    (hback : ∀ t, s.currentTaskId = some t → s.inBackoff t σ.world.clock = false) :
    ∃ k < job.chainPlan.ids.length, job.chainPlan.Ready job k s σ.world := by
  have hfit := fits_chainPlan hc hids
  obtain ⟨k, hstage, hcov⟩ := (follows_chain hc hids h).1.stored.stage hs hp
  have hlt : k < job.chainPlan.ids.length := by
    refine lt_of_le_of_ne hstage.le fun hend => ?_
    -- all tasks are recorded, so a process is about to finish the instance
    have hcomplete : job.continuation.isWorkflowComplete s := by
      rw [← isWorkflowComplete_congr hc (fun t => isSome_getTaskResult_view (w := σ.world) s t),
        hfit.complete k _ hstage, decide_eq_true hend]
    obtain ⟨t, -, hpos⟩ := hstage.atTask
    rw [position_view] at hpos
    obtain ⟨p, hmem, hfin⟩ := attended_reachable hc hids h (by simp [unfinished, hs, hpos, hcomplete])
    simp [hidle p hmem] at hfin
  have hretries : (job.backend.view σ.world s).taskRetries = s.taskRetries := by
    cases job.backend with
    | inMemory => rfl
    | postgres => simp [view, hydrateTaskOutputs]
  have hpre : ∀ t, job.chainPlan.ids[k]? = some t → s.currentTaskId = some t := by
    intro t hk
    have hpos := hstage.position t hk
    rw [position_view] at hpos
    exact currentTaskId_of_position hp hpos
  refine ⟨k, hlt, hs, hp, hstage, hcov, hsig, hclaims, fun t => ?_⟩
  by_cases hk : job.chainPlan.ids[k]? = some t
  · exact hback t (hpre t hk)
  · have hnone := hstage.retries t hk
    rw [hretries] at hnone
    simp [inBackoff, hnone]

/-- **No crash and no failed call strands a chain of tasks,** as long as no process gives up
between the commit of the last result and the completion. A running instance that no claim,
no request and no backoff holds back and that no process is about to finish is offered by
the next poll; whoever completes it from there on does so with the composition of the tasks
as its output, and a single worker that is not disturbed does complete it. -/
theorem not_stranded_of_letsFinish (hc : job.continuation.TaskChain)
    (hids : job.continuation.ids.Nodup) (h : job.Reachable job.LetsFinish instanceId now σ)
    (hs : σ.world.snapshot = some s) (hp : s.isInProgress)
    (hidle : ∀ p ∈ σ.processes, job.finishing p.phase = false)
    (hclaims : Unclaimed job.backend σ.world) (hsig : σ.world.hasSignal = false)
    (hback : ∀ t, s.currentTaskId = some t → s.inBackoff t σ.world.clock = false) :
    (∀ worker, PoolWorld.tagsMatch worker.tags s → ∃ n task seen,
      let τ := perform job.step (.poll worker :: Action.calls σ.processes.length n) σ
      τ.processes[σ.processes.length]? = some ⟨worker, .offered task, seen⟩
        ∧ job.accepts task ∧ job.backend.claimable task.taskId τ.world)
    ∧ (∀ τ s' out, Walk job.step (fun _ _ => True) σ τ → τ.world.snapshot = some s' →
      s'.state = .completed out →
        compose job.callbacks job.continuation.taskIds job.input = .ok out)
    ∧ ∀ out worker, compose job.callbacks job.continuation.taskIds job.input = .ok out →
      job.continuation.Implemented → worker.tags = [] → worker.ttl ≠ some 0 →
        ∃ τ, Walk job.step (fun a _ => a.takesOn worker σ.processes.length) σ τ
          ∧ ∃ s', τ.world.snapshot = some s' ∧ s'.state = .completed out := by
  obtain ⟨k, hlt, hready⟩ := ready_of_letsFinish hc hids h hs hp hidle hclaims hsig hback
  have hlen : job.chainPlan.ids.length = job.continuation.taskIds.length := by
    simp [Plan.ids, chainPlan, planOf]
  refine ⟨fun worker htags => ?_, fun τ s' out hτ hs' hst' => ?_, fun out worker hout himpl ht httl => ?_⟩
  · obtain ⟨task, claims, -, hruns, -, haccepts, hclaimable⟩ := hready.runs_offered worker
      (fits_chainPlan hc hids) (List.getElem?_eq_getElem hlt) htags
    obtain ⟨n, seen, hn⟩ := hruns.exists_poll
    refine ⟨n, task, seen, ?_⟩
    rw [hn]
    exact ⟨by simp, haccepts, hclaimable⟩
  · have hreach : job.Reachable (fun _ _ => True) instanceId now τ :=
      (Walk.mono (fun _ _ _ => trivial) h).trans hτ
    exact output_of_completed hc hids hreach hs' hst'
  · exact completes_of_ready hc hids himpl hout ht httl h hready (hlen ▸ hlt)

end chains

/-! ## An instance nobody finds -/

section sample

attribute [local instance] Sha256.packed

/-- A worker executes the first task with `m` calls, polls again and dies after `n` calls.
Its claim expires. -/
def diesAfter (m n : ℕ) : List Action :=
  .poll (sampleWorker "a") :: Action.calls 0 m ++ .poll (sampleWorker "a") :: Action.calls 1 n
    ++ [.crash 1, .tick (Duration.fromMillis 300000)]

/-- A worker dies while it executes the last task; another one completes the instance. -/
theorem not_stranded_after_crash :
    let job := twoTasks .inMemory
    let σ := perform job.step (diesAfter 12 7) (job.start "i" 0)
    ∃ τ, Walk job.step (fun a _ => a.takesOn (sampleWorker "b") σ.processes.length) σ τ
      ∧ ∃ s, τ.world.snapshot = some s ∧ s.state = .completed [1, 116, 49, 116, 50] := by
  intro job σ
  have hreach : job.Reachable job.LetsFinish "i" 0 σ := Walk.perform (by decide)
  have hchain : job.continuation.TaskChain := .task _ _ _ (.last _ _)
  have hstored : σ.world.snapshot.any fun s => s.isInProgress
      && s.currentTaskId.all fun t => !s.inBackoff t σ.world.clock := by decide
  obtain ⟨s, hs, hrun⟩ := (Option.any_eq_true _ _).mp hstored
  rw [Bool.and_eq_true] at hrun
  have hback : ∀ t, s.currentTaskId = some t → s.inBackoff t σ.world.clock = false :=
    fun t ht => by simpa [ht] using hrun.2
  have hclaims : Unclaimed job.backend σ.world := by
    unfold Unclaimed
    decide
  have himpl : job.continuation.Implemented := by
    intro id fields next hmem
    simp only [job, twoTasks, WorkflowContinuation.subtrees, WorkflowContinuation.subtreesNext,
      List.mem_cons, List.not_mem_nil, or_false, WorkflowContinuation.task.injEq] at hmem
    rcases hmem with ⟨-, rfl, -⟩ | ⟨-, rfl, -⟩ <;> rfl
  have hrest := not_stranded_of_letsFinish hchain (by decide) hreach hs hrun.1 (by decide) hclaims
    (by decide) hback
  exact hrest.2.2 _ (sampleWorker "b") (by decide) himpl rfl (by decide)

/-- A worker dies after it has committed the last task. Nothing holds the instance back and
no process is left, but a poll does not offer it. -/
theorem stranded_after_last_commit :
    let σ := perform (twoTasks .inMemory).step (diesAfter 12 9) ((twoTasks .inMemory).start "i" 0)
    let τ := perform (twoTasks .postgres).step (diesAfter 9 7) ((twoTasks .postgres).start "i" 0)
    let poll := .poll (sampleWorker "b") :: Action.calls 2 3
    ((twoTasks .inMemory).Reachable (fun _ _ => True) "i" 0 σ
      ∧ σ.world.snapshot.any (·.isInProgress) ∧ σ.world.hasSignal = false
      ∧ (∀ c ∈ σ.world.claims, inMemory.isExpired σ.world.clock c)
      ∧ ∀ p ∈ (perform (twoTasks .inMemory).step poll σ).processes, p.phase.isDone)
    ∧ (twoTasks .postgres).Reachable (fun _ _ => True) "i" 0 τ
      ∧ τ.world.snapshot.any (·.isInProgress) ∧ τ.world.hasSignal = false
      ∧ (∀ c ∈ τ.world.claims, postgres.isExpired τ.world.clock c)
      ∧ ∀ p ∈ (perform (twoTasks .postgres).step poll τ).processes, p.phase.isDone := by
  refine ⟨⟨Walk.perform ?_, ?_, ?_, ?_, ?_⟩, Walk.perform ?_, ?_, ?_, ?_, ?_⟩ <;> decide

end sample

end Sayiir
