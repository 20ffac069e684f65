import Mathlib.Logic.Relation
import Sayiir.Proof.PoolSteps

/-!
# Undisturbed processes

What a process does when nothing comes between its calls and none of them fails.
This is how a pool makes progress: a poll finds the instance if it stands at a task
that is not recorded, the claim is granted if no other one is alive, and the guards
apply a request that is pending or let the process pass.
-/

namespace Sayiir

open Backend WorkflowSnapshot Submission

variable {x : Phase × PoolWorld}

/-- A process that has ended. -/
def Phase.isDone : Phase → Bool
  | .done => true
  | _ => false

/-- The claim that a worker takes now. -/
def Worker.claim (worker : Worker) (b : Backend) (t : TaskId) (now : Time) : TaskClaim :=
  ⟨t, worker.id, worker.ttl.map (b.expiry now)⟩

namespace Backend

variable {b : Backend} {w : PoolWorld} {s : WorkflowSnapshot} {t : TaskId}

/-- No claim on the instance is alive. -/
def Unclaimed (b : Backend) (w : PoolWorld) : Prop := ∀ c ∈ w.claims, b.isExpired w.clock c

/-- Without a live claim a claim is granted; Postgres wants the instance to be at the task. -/
theorem claimable_of_unclaimed (h : Unclaimed b w) (hs : w.snapshot = some s)
    (hcur : s.currentTaskId = some t) : b.claimable t w := by
  have hnone : ((b.findClaim t w).any fun c => !b.isExpired w.clock c) = false := by
    cases hf : b.findClaim t w with
    | none => rfl
    | some c =>
      have hmem : c ∈ w.claims := by
        cases b with
        | inMemory => exact List.mem_of_find?_eq_some hf
        | postgres => exact List.mem_of_head? hf
      simp [h c hmem]
  unfold claimable
  rw [hnone]
  cases b <;> simp [hs, hcur]

/-- Without a request the guards let a process pass. -/
theorem guardStep_calm (taskId : Option TaskId) (hsig : w.hasSignal = false) :
    b.guardStep taskId .start w = (.finished none, w)
      ∨ b.guardStep taskId .start w = (.next .checkPause, w)
        ∧ b.guardStep taskId .checkPause w = (.finished none, w) := by
  have hc : w.cancelSignal = none := by
    simpa [PoolWorld.hasSignal] using (Bool.or_eq_false_iff.mp hsig).1
  have hp : w.pauseSignal = none := by
    simpa [PoolWorld.hasSignal] using (Bool.or_eq_false_iff.mp hsig).2
  cases b with
  | inMemory => exact .inr (by simp [guardStep, guardInMemory, hc, hp])
  | postgres => exact .inl (by simp [guardStep, guardPostgres, hsig])

end Backend

/-- The actions of a worker that polls and whose processes, those from `n` on, are not
disturbed. -/
def Action.takesOn (worker : Worker) (n : ℕ) : Action → Prop
  | .poll worker' => worker' = worker
  | .work i .proceed => n ≤ i
  | _ => False

namespace Submission

variable [Sha256] (job : Submission)

/-- The calls of one process, one after the other, with nothing in between. -/
def Runs (worker : Worker) : Phase × PoolWorld → Phase × PoolWorld → Prop :=
  Relation.ReflTransGen fun x y => y = job.call worker x.1 x.2

variable {job} {worker : Worker} {w w' : PoolWorld} {phase phase' : Phase}

theorem Runs.refl : job.Runs worker (phase, w) (phase, w) := Relation.ReflTransGen.refl

theorem Runs.call (h : job.call worker phase w = x) :
    job.Runs worker (phase, w) x :=
  Relation.ReflTransGen.single h.symm

theorem Runs.trans {y z : Phase × PoolWorld} (h : job.Runs worker x y)
    (h' : job.Runs worker y z) : job.Runs worker x z :=
  Relation.ReflTransGen.trans h h'

/-- What a process does undisturbed is a run of the pool. -/
theorem Runs.exists_calls {σ : Pool} {i : ℕ} {seen : Option WorkflowSnapshot}
    (hi : σ.processes[i]? = some ⟨worker, phase, seen⟩) (h : job.Runs worker (phase, σ.world) x) :
    ∃ n seen', perform job.step (Action.calls i n) σ
      = { σ with world := x.2, processes := σ.processes.set i ⟨worker, x.1, seen'⟩ } := by
  generalize hstart : (phase, σ.world) = start at h
  induction h using Relation.ReflTransGen.head_induction_on generalizing σ phase seen with
  | refl =>
    subst hstart
    refine ⟨0, seen, ?_⟩
    obtain ⟨hlt, hget⟩ := List.getElem?_eq_some_iff.mp hi
    have hset : σ.processes.set i ⟨worker, phase, seen⟩ = σ.processes := by
      rw [← hget, List.set_getElem_self]
    exact (congrArg (fun ps => { σ with processes := ps }) hset).symm
  | head hcall _ ih =>
    subst hstart
    subst hcall
    -- the pool after the first call of the process
    obtain ⟨seen₁, hstep⟩ : ∃ seen₁, job.step (.work i .proceed) σ = { σ with
        world := (job.call worker phase σ.world).2,
        processes := σ.processes.set i ⟨worker, (job.call worker phase σ.world).1, seen₁⟩ } := by
      unfold step
      dsimp only
      rw [hi]
      exact ⟨_, rfl⟩
    have hlt := (List.getElem?_eq_some_iff.mp hi).1
    obtain ⟨n, seen', hn⟩ := @ih _ (job.step (.work i .proceed) σ) seen₁
      (by rw [hstep]; exact List.getElem?_set_self hlt) (by rw [hstep])
    refine ⟨n + 1, seen', ?_⟩
    have hcalls : Action.calls i (n + 1) = .work i .proceed :: Action.calls i n := rfl
    rw [hcalls, perform, hn, hstep]
    simp [List.set_set]

/-- Calls that a process makes undisturbed are what it does. -/
theorem Runs.of_calls {σ : Pool} {i : ℕ} {seen : Option WorkflowSnapshot}
    (hi : σ.processes[i]? = some ⟨worker, phase, seen⟩) (n : ℕ) :
    ∃ x seen', job.Runs worker (phase, σ.world) x
      ∧ (perform job.step (Action.calls i n) σ).processes[i]? = some ⟨worker, x.1, seen'⟩ := by
  induction n generalizing σ phase seen with
  | zero => exact ⟨_, seen, .refl, hi⟩
  | succ n ih =>
    obtain ⟨seen₁, hstep⟩ : ∃ seen₁, job.step (.work i .proceed) σ = { σ with
        world := (job.call worker phase σ.world).2,
        processes := σ.processes.set i ⟨worker, (job.call worker phase σ.world).1, seen₁⟩ } := by
      unfold step
      dsimp only
      rw [hi]
      exact ⟨_, rfl⟩
    have hlt := (List.getElem?_eq_some_iff.mp hi).1
    obtain ⟨x, seen', hruns, hx⟩ := @ih _ (job.step (.work i .proceed) σ) seen₁
      (by rw [hstep]; exact List.getElem?_set_self hlt)
    rw [hstep] at hruns
    exact ⟨x, seen', (Runs.call rfl).trans hruns, hx⟩

theorem permitted_calls {C : Action → Pool → Prop} {i n : ℕ}
    (h : ∀ σ, C (.work i .proceed) σ) (σ : Pool) :
    Permitted job.step C (Action.calls i n) σ := by
  induction n generalizing σ with
  | zero => trivial
  | succ n ih => exact ⟨h σ, ih _⟩

/-- A poll that is not disturbed is a run of the pool. -/
theorem Runs.exists_poll {σ : Pool} (h : job.Runs worker (.polling, σ.world) x) :
    ∃ n seen, perform job.step (.poll worker :: Action.calls σ.processes.length n) σ
      = { σ with world := x.2, processes := σ.processes ++ [⟨worker, x.1, seen⟩] } := by
  have hnew : (job.step (.poll worker) σ).processes[σ.processes.length]?
      = some ⟨worker, .polling, none⟩ := by
    simp [step]
  obtain ⟨n, seen, hn⟩ := Runs.exists_calls hnew h
  refine ⟨n, seen, hn.trans ?_⟩
  simp [step, List.set_append_right]

theorem Runs.walk {σ : Pool} (h : job.Runs worker (.polling, σ.world) x) :
    ∃ seen, Walk job.step (fun a _ => a.takesOn worker σ.processes.length) σ
      { σ with world := x.2, processes := σ.processes ++ [⟨worker, x.1, seen⟩] } := by
  obtain ⟨n, seen, hn⟩ := h.exists_poll
  refine ⟨seen, hn ▸ Walk.perform ⟨rfl, permitted_calls (fun _ => le_refl _) _⟩⟩

/-! ## Polls -/

variable {s : WorkflowSnapshot} {t : TaskId} {task : AvailableTask}

variable (worker) in
/-- **A poll offers the task that an instance stands at,** unless it is recorded, in
backoff or claimed, or a request is pending. -/
theorem runs_poll (hs : w.snapshot = some s) (hp : s.isInProgress)
    (hpos : s.position = some (.atTask t)) (hfresh : s.getTaskResult t = none)
    (hsig : w.hasSignal = false) (hclaims : Unclaimed job.backend w)
    (hback : s.inBackoff t w.clock = false) (htags : PoolWorld.tagsMatch worker.tags s)
    (hbuild : PoolWorld.buildAvailableTask (job.backend.view w s) t = some task) :
    ∃ claims, (∀ c ∈ claims, job.backend.isExpired w.clock c)
      ∧ job.Runs worker (.polling, w) (.offered task, { w with claims := claims }) := by
  obtain ⟨position, completed, last, hst⟩ := isInProgress_iff.mp hp
  obtain rfl : position = .atTask t := by simpa [WorkflowSnapshot.position, hst] using hpos
  have hlookup : completed.lookup t = none := by
    simpa [WorkflowSnapshot.getTaskResult, WorkflowSnapshot.getAllTaskResults, hst] using hfresh
  cases hb : job.backend with
  | inMemory =>
    rw [hb] at hclaims hbuild
    have hdrop : dropExpired w = { w with claims := [] } := by
      unfold dropExpired
      congr 1
      exact List.filter_eq_nil_iff.mpr fun c hc => by simp [hclaims c hc]
    let w₁ : PoolWorld := { w with claims := [] }
    have hcollect : collectAdvance w₁ = none := by
      refine collectAdvance_of_atTask fun s' position' hs' hp' => ⟨t, ?_⟩
      obtain rfl : s = s' := Option.some.inj (hs.symm.trans hs')
      exact Option.some.inj (hp'.symm.trans hpos)
    have hselect : selectTask worker.tags w₁ = some task := by
      have hsig₁ : w₁.hasSignal = false := hsig
      have hs₁ : w₁.snapshot = some s := hs
      unfold selectTask
      rw [hs₁, hsig₁]
      dsimp only
      rw [hst]
      have hclaim : inMemory.findClaim t w₁ = none := rfl
      have hback₁ : s.inBackoff t w₁.clock = false := hback
      simp only [hlookup, hclaim, hback₁, htags]
      exact hbuild
    refine ⟨[], by simp, ?_⟩
    have h₁ : job.Runs worker (.polling, w) (.collecting, w₁) :=
      .call (by simp only [call, hb, hdrop]; rfl)
    have h₂ : job.Runs worker (.collecting, w₁) (.selecting, w₁) :=
      .call (by simp only [call, hcollect])
    have h₃ : job.Runs worker (.selecting, w₁) (.offered task, w₁) :=
      .call (by simp only [call, hselect, offer])
    exact (h₁.trans h₂).trans h₃
  | postgres =>
    rw [hb] at hclaims hbuild
    have hrow : selectRow worker.tags w = some s := by
      unfold selectRow
      rw [hs, Option.filter_some, if_pos]
      have helig : eligible w := by
        simp only [eligible, hsig, Bool.not_false, Bool.true_and, Bool.not_eq_true',
          List.any_eq_false]
        intro c hc
        simp [hclaims c hc]
      simp [helig, htags, hst]
    refine ⟨w.claims, hclaims, ?_⟩
    have h₁ : job.Runs worker (.polling, w) (.hydrating s, w) :=
      .call (by simp only [call, hb, hrow])
    have h₂ : job.Runs worker (.hydrating s, w) (.offered task, w) := by
      refine .call ?_
      have hhydrated : (s.hydrateTaskOutputs w.outputs).state = .inProgress (.atTask t)
          (completed.mapOutputs fun taskId output => (w.outputs taskId).getD output) last := by
        simp [hydrateTaskOutputs, mapOutputs, hst]
      have hback' : (s.hydrateTaskOutputs w.outputs).inBackoff t w.clock = false := by
        simpa [hydrateTaskOutputs, inBackoff] using hback
      have hbuild' : PoolWorld.buildAvailableTask (s.hydrateTaskOutputs w.outputs) t = some task :=
        hbuild
      simp only [call, dispatchRow, hhydrated, CompletedTasks.lookup_mapOutputs, hlookup,
        hback', hbuild', Option.map_none, Option.isSome_none, Bool.or_self, Bool.false_eq_true,
        if_false]
    exact h₁.trans h₂

/-! ## Claims and guards -/

variable (worker) in
/-- An accepted offer is claimed. -/
theorem runs_claim (ha : job.accepts task) (hclaim : job.backend.claimable task.taskId w)
    (hunclaimed : Unclaimed job.backend w) :
    ∃ rest, (∀ c ∈ rest, job.backend.isExpired w.clock c)
      ∧ job.Runs worker (.offered task, w) (.guarding task .start,
        { w with claims := worker.claim job.backend task.taskId w.clock :: rest }) := by
  have hcall : job.call worker (.offered task) w = (.guarding task .start,
      (job.backend.claimTask task.taskId worker.id worker.ttl w).2) := by
    simp [call, ha, claimTask, hclaim]
  unfold claimTask at hcall
  rw [if_pos hclaim] at hcall
  refine ⟨_, ?_, .call hcall⟩
  cases hb : job.backend with
  | inMemory =>
    intro c hc
    exact hb ▸ hunclaimed c (List.mem_of_mem_filter hc)
  | postgres => simp

theorem runs_guarding (hsig : w.hasSignal = false) :
    job.Runs worker (.guarding task .start, w) (.executing task, w) := by
  rcases guardStep_calm (b := job.backend) (some task.taskId) hsig with h | ⟨h, h'⟩
  · exact .call (by simp only [call, h, afterGuard])
  · have hfirst : job.Runs worker (.guarding task .start, w) (.guarding task .checkPause, w) :=
      .call (by simp only [call, h, afterGuard])
    exact hfirst.trans (.call (by simp only [call, h', afterGuard]))

theorem runs_concluding {output : Bytes} (hsig : w.hasSignal = false) :
    job.Runs worker (.concluding s output .start, w) (job.conclude s output, w) := by
  rcases guardStep_calm (b := job.backend) none hsig with h | ⟨h, h'⟩
  · exact .call (by simp only [call, h, afterGuard])
  · have hfirst : job.Runs worker (.concluding s output .start, w)
        (.concluding s output .checkPause, w) :=
      .call (by simp only [call, h, afterGuard])
    exact hfirst.trans (.call (by simp only [call, h', afterGuard]))

/-! ## Results -/

/-- A task function that returns leads to a commit. -/
theorem runs_executing {name : String} {x o : Bytes} (hx : job.taskInput task = .ok x)
    (hname : job.continuation.executeTaskById task.taskId = .ok name)
    (ho : job.callbacks.execute name x = .ok o)
    (hs : job.commitSnapshot task o w.clock = .ok s) :
    job.Runs worker (.executing task, w)
      (.committing task s o, w.log (.taskCalled name x w.clock)) := by
  have hcall : ∃ deadline, job.call worker (.executing task) w
      = (.running task (.ok o) deadline 0, w.log (.taskCalled name x w.clock)) := by
    simp only [call, startTask, hx, hname, ho]
    exact ⟨_, rfl⟩
  obtain ⟨deadline, hcall⟩ := hcall
  have hs' : job.commitSnapshot task o (w.log (.taskCalled name x w.clock)).clock = .ok s := hs
  exact (Runs.call hcall).trans (.call (by simp only [call, settle, hs']))

variable {rest : List TaskClaim} {output : Bytes}

/-- The owner of a live claim commits. -/
theorem runs_committing (httl : worker.ttl ≠ some 0) (hsignal : isAtSignal s = false)
    (hclaims : w.claims = worker.claim job.backend task.taskId w.clock :: rest) :
    job.Runs worker (.committing task s output, w)
      (.handingBack task (job.backend.afterSave s) output, job.backend.saveSnapshot s w) := by
  have hafter : isAtSignal (job.backend.afterSave s) = false := by
    cases job.backend <;> exact hsignal
  have hfenced : job.backend.saveSnapshotFenced s task.taskId worker.id w
      = (true, job.backend.saveSnapshot s w) := by
    cases hb : job.backend with
    | inMemory => rfl
    | postgres =>
      have hlive : postgres.isExpired w.clock (worker.claim postgres task.taskId w.clock)
          = false := by
        cases ht : worker.ttl with
        | none => simp [isExpired, Worker.claim, ht]
        | some ttl =>
          have hpos : ttl ≠ 0 := fun h => httl (by rw [ht, h])
          simp only [isExpired, Worker.claim, ht, expiry, Option.map_some, Option.any_some,
            decide_eq_false_iff_not]
          exact Nat.not_le_of_lt (Nat.lt_add_of_pos_right (Nat.pos_of_ne_zero hpos))
      have hholds : postgres.holdsLiveClaim task.taskId worker.id w := by
        rw [hb] at hclaims
        rw [holdsLiveClaim, hclaims, List.any_cons, hlive]
        simp [Worker.claim]
      simp [saveSnapshotFenced, hholds]
  exact .call (by simp [call, hfenced, drain, hafter])

/-- The owner of a claim hands it back. -/
theorem runs_handingBack (hclaims : w.claims = worker.claim job.backend task.taskId w.clock :: rest)
    (hloops : job.continuation.resolveLoops job.backend job.codec s = .ok s) :
    job.Runs worker (.handingBack task s output, w) (.concluding s output .start,
      { w with claims := w.claims.filter (·.taskId ≠ task.taskId) }) := by
  have hown : job.backend.ownClaim task.taskId worker.id w
      = .ok (worker.claim job.backend task.taskId w.clock) := by
    have hfind : job.backend.findClaim task.taskId w
        = some (worker.claim job.backend task.taskId w.clock) := by
      cases hb : job.backend <;> simp [findClaim, hb ▸ hclaims, Worker.claim]
    simp [ownClaim, hfind, Worker.claim]
  have hrelease : job.backend.releaseTaskClaim task.taskId worker.id w
      = (.ok (), { w with claims := w.claims.filter (·.taskId ≠ task.taskId) }) := by
    simp [releaseTaskClaim, hown]
  exact .call (by simp only [call, hrelease, hloops, Saving.ok, resolve])

end Submission

end Sayiir
