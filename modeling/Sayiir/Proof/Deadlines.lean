import Sayiir.Runtime.Lifecycle
import Sayiir.Runtime.Pool

/-!
# Deadlines of tasks

A task with a timeout gets a deadline, and three mechanisms look at it. The main path
of the checkpointing executors races the task against a periodic check, a branch looks
once when the task has returned, and a worker looks with every heartbeat.

What a computation does when nothing else happens to the instance is `Exec.alone`. The
deadline of the main path is stored before the task is called, so that an execution that
takes over could see that it has passed. It does not: the deadline is set anew on the
way to the task.
-/

namespace Sayiir

open Exec

variable {d : Duration}

/-! ## Computations that have the store to themselves -/

/-- The outcome of a computation during which nothing else happens to the instance. -/
def Exec.alone {α : Type} (cb : Callbacks) (m : Exec α) (s : WorkflowSnapshot) (w : World) :
    (Except RuntimeError α × WorkflowSnapshot) × World :=
  (m s).eval (Op.handle cb) w

section alone

variable {α β : Type} {cb : Callbacks} {m : Exec α} {s s' : WorkflowSnapshot} {w w' : World}

theorem alone_bind_ok {f : α → Exec β} {a : α} (h : m.alone cb s w = ((.ok a, s'), w')) :
    (m >>= f).alone cb s w = (f a).alone cb s' w' := by
  unfold Exec.alone at *
  change ((m s).bind (andThen f)).eval (Op.handle cb) w = _
  rw [Prog.eval_bind, h]
  rfl

theorem alone_bind_error {f : α → Exec β} {e : RuntimeError}
    (h : m.alone cb s w = ((.error e, s'), w')) :
    (m >>= f).alone cb s w = ((.error e, s'), w') := by
  unfold Exec.alone at *
  change ((m s).bind (andThen f)).eval (Op.handle cb) w = _
  rw [Prog.eval_bind, h]
  rfl

theorem alone_get_bind {f : WorkflowSnapshot → Exec α} :
    (get >>= f).alone cb s w = (f s).alone cb s w := alone_bind_ok rfl

theorem alone_modify_bind {f : WorkflowSnapshot → WorkflowSnapshot} {g : Unit → Exec α} :
    (modify f >>= g).alone cb s w = (g ()).alone cb (f s) w := alone_bind_ok rfl

theorem alone_utcNow_bind {f : Time → Exec α} :
    (utcNow >>= f).alone cb s w = (f w.clock).alone cb s w := alone_bind_ok rfl

/-- Recording a result in the snapshot in hand does not touch the world. -/
theorem alone_record_snd {f : α → WorkflowSnapshot → WorkflowSnapshot} :
    ((m >>= fun a => modify (f a) >>= fun _ => pure a).alone cb s w).2 = (m.alone cb s w).2 := by
  rcases h : m.alone cb s w with ⟨⟨r, s'⟩, w'⟩
  cases r with
  | ok a =>
    rw [alone_bind_ok h]
    rfl
  | error e => rw [alone_bind_error h]

end alone

/-! ## The main path -/

section mainPath

variable [Sha256] {cb : Callbacks} {id : String} {input : Bytes} {s : WorkflowSnapshot} {w : World}

/-- The way to the first attempt of a task on the main path. -/
def firstAttempt (id : String) (timeout : Option Duration) (input : Bytes) : Exec Bytes := do
  setDeadlineIfNeeded id timeout
  executeOrSkipTask id input

/-- The world in which the deadline has been stored. -/
def deadlineStored (id : String) (d : Duration) (s : WorkflowSnapshot) (w : World) : World :=
  (w.saveSnapshot (s.setTaskDeadline (TaskId.sha256 id) d w.clock)).2

/-- The deadline that a call of the task is raced against. -/
def freshDeadline (id : String) (d : Duration) (now : Time) : TaskDeadline :=
  ⟨TaskId.sha256 id, now + Duration.fromMillis (Duration.asMillis d), Duration.asMillis d⟩

/-- The error of a call that was cut off. -/
def timedOut (id : String) (d : Duration) : RuntimeError :=
  .workflow (.taskTimedOut (TaskId.sha256 id) (Duration.fromMillis (Duration.asMillis d)))

theorem alone_setDeadlineIfNeeded (hs : s.getTaskResult (TaskId.sha256 id) = none) :
    (setDeadlineIfNeeded id (some d)).alone cb s w
      = ((.ok (), s.setTaskDeadline (TaskId.sha256 id) d w.clock), deadlineStored id d s w) := by
  unfold setDeadlineIfNeeded
  rw [alone_get_bind, hs]
  rfl

omit [Sha256] in
/-- A call under a deadline returns in time or is cut off by a check. -/
theorem alone_runTask {deadline : TaskDeadline} (hs : s.taskDeadline = some deadline) :
    (runTask id input).alone cb s w =
      if cb.duration id input ≤ firstExpiredCheck deadline w.clock then
        (((cb.execute id input).mapError .ofBoxError, s), (Op.callTask cb id input w).2)
      else ((.error (.workflow (.taskTimedOut deadline.taskId
          (Duration.fromMillis deadline.timeoutMs))), s.clearTaskDeadline),
        { w.log (.taskCalled id input w.clock) with
          clock := w.clock + firstExpiredCheck deadline w.clock }) := by
  unfold runTask
  rw [alone_get_bind, hs]
  dsimp only
  have hrace : (raceTask id input deadline).alone cb s w
      = ((.ok (Op.handle cb (.raceTask id input deadline) w).1, s),
        (Op.handle cb (.raceTask id input deadline) w).2) := rfl
  rw [alone_bind_ok hrace]
  by_cases h : cb.duration id input ≤ firstExpiredCheck deadline w.clock
  · simp only [Op.handle, if_pos h]
    rfl
  · simp only [Op.handle, if_neg h]
    rfl

/-- The first attempt calls the task, under a new deadline, whatever deadline was left
behind; unless the timeout is zero. -/
theorem alone_firstAttempt (hs : s.getTaskResult (TaskId.sha256 id) = none) :
    (firstAttempt id (some d) input).alone cb s w =
      if d = 0 then ((.error (timedOut id d), { s with taskDeadline := none }), deadlineStored id d s w)
      else
        (runTask id input >>= fun output => do
          modify fun s => s.clearTaskDeadline.markTaskCompleted (TaskId.sha256 id) output
          pure output).alone cb { s with taskDeadline := some (freshDeadline id d w.clock) }
            (deadlineStored id d s w) := by
  unfold firstAttempt
  rw [alone_bind_ok (alone_setDeadlineIfNeeded hs)]
  unfold executeOrSkipTask
  have hbytes : (s.setTaskDeadline (TaskId.sha256 id) d w.clock).getTaskResultBytes
      (TaskId.sha256 id) = none := by
    change (s.getTaskResult (TaskId.sha256 id)).map _ = none
    rw [hs]
    rfl
  rw [alone_get_bind, hbytes]
  dsimp only
  have hexpired : expiredTaskDeadline.alone cb (s.setTaskDeadline (TaskId.sha256 id) d w.clock)
      (deadlineStored id d s w)
      = ((.ok ((s.setTaskDeadline (TaskId.sha256 id) d w.clock).expiredTaskDeadline w.clock),
        s.setTaskDeadline (TaskId.sha256 id) d w.clock), deadlineStored id d s w) := rfl
  rw [alone_bind_ok hexpired]
  simp only [WorkflowSnapshot.expiredTaskDeadline, WorkflowSnapshot.setTaskDeadline,
    Option.bind_some, add_le_iff_nonpos_right, Nat.le_zero]
  split_ifs with hd
  · rfl
  · have hrefresh : refreshTaskDeadline.alone cb
        { s with taskDeadline := some ⟨TaskId.sha256 id, w.clock + d, Duration.asMillis d⟩ }
        (deadlineStored id d s w)
        = ((.ok (), { s with taskDeadline := some (freshDeadline id d w.clock) }),
          deadlineStored id d s w) := rfl
    exact alone_bind_ok hrefresh

/-- How often the task has been called. -/
def World.callsOf (id : String) (w : World) : ℕ :=
  w.trace.countP fun e => match e with
    | .taskCalled name _ _ => decide (name = id)
    | _ => false

theorem callsOf_deadlineStored :
    (deadlineStored id d s w).callsOf id = w.callsOf id := by
  simp [World.callsOf, deadlineStored, World.saveSnapshot, World.log]

omit [Sha256] in
/-- Running a task is calling it once, with or without a deadline. -/
theorem callsOf_runTask :
    ((runTask id input).alone cb s w).2.callsOf id = w.callsOf id + 1 := by
  cases hd : s.taskDeadline with
  | none =>
    have heq : (runTask id input).alone cb s w
        = (((cb.execute id input).mapError .ofBoxError, s), (Op.callTask cb id input w).2) := by
      unfold runTask
      rw [alone_get_bind, hd]
      rfl
    rw [heq]
    simp [World.callsOf, Op.callTask, World.log]
  | some deadline =>
    rw [alone_runTask hd]
    split <;> simp [World.callsOf, Op.callTask, World.log]

theorem callsOf_firstAttempt (hd : d ≠ 0) (hs : s.getTaskResult (TaskId.sha256 id) = none) :
    ((firstAttempt id (some d) input).alone cb s w).2.callsOf id = w.callsOf id + 1 := by
  rw [alone_firstAttempt hs, if_neg hd, alone_record_snd, callsOf_runTask, callsOf_deadlineStored]

/-- The attempt is reported as timed out although the task was not called for it. -/
def ReportsTimeout (id : String) (d : Duration) (w : World)
    (r : (Except RuntimeError Bytes × WorkflowSnapshot) × World) : Prop :=
  r.1.1 = .error (timedOut id d) ∧ r.2.callsOf id = w.callsOf id

end mainPath

section sample

attribute [local instance] Sha256.packed

/-- A workflow of one task that may take two seconds and takes one. -/
def timedJob : Job where
  executor := .callback
  codec := .plain
  callbacks := ⟨fun _ input => .ok input, fun _ _ => Duration.fromMillis 1000⟩
  continuation := .task "t" ⟨true, some (Duration.fromMillis 2000), none, none, none, []⟩ none
  definitionHash := ⟨0⟩
  input := [7]

end sample

/-! ## Executions that take too long -/

section overdue

variable [Sha256] {cb : Callbacks} {id : String} {input : Bytes} {s : WorkflowSnapshot} {w : World}

omit [Sha256] in
/-- The period of the checks of the main path is at most a second. -/
theorem firstExpiredCheck_le (deadline : TaskDeadline) (now : Time) :
    firstExpiredCheck deadline now ≤ deadline.deadline - now + Duration.fromMillis 1000 := by
  have hinterval : deadlineCheckInterval deadline now ≤ Duration.fromMillis 1000 := min_le_right ..
  unfold firstExpiredCheck
  dsimp only
  rcases max_choice 1 ((deadline.deadline - now + deadlineCheckInterval deadline now - 1)
    / deadlineCheckInterval deadline now) with h | h
  · rw [h, mul_one]
    exact le_trans hinterval (Nat.le_add_left ..)
  · rw [h]
    refine le_trans (Nat.mul_div_le ..) (le_trans (Nat.sub_le ..) ?_)
    exact Nat.add_le_add_left hinterval _

theorem freshDeadline_sub_le (d : Duration) (now : Time) :
    (freshDeadline id d now).deadline - now ≤ d := by
  have h : d / 1000000 * 1000000 ≤ d := Nat.div_mul_le_self ..
  simpa [freshDeadline, Duration.fromMillis, Duration.asMillis] using h

/-- An overdue call on the main path is cut off and leaves no result. -/
theorem firstAttempt_of_overdue (hs : s.getTaskResult (TaskId.sha256 id) = none)
    (hlong : d + Duration.fromMillis 1000 < cb.duration id input) :
    ∃ w', (firstAttempt id (some d) input).alone cb s w
        = ((.error (timedOut id d), { s with taskDeadline := none }), w')
      ∧ w'.snapshot = some (s.setTaskDeadline (TaskId.sha256 id) d w.clock) := by
  rw [alone_firstAttempt hs]
  split
  · exact ⟨_, rfl, rfl⟩
  · have hlate : ¬ cb.duration id input
        ≤ firstExpiredCheck (freshDeadline id d w.clock) (deadlineStored id d s w).clock := by
      apply not_le.mpr
      refine lt_of_le_of_lt (firstExpiredCheck_le _ _) (lt_of_le_of_lt ?_ hlong)
      exact Nat.add_le_add_right (freshDeadline_sub_le d w.clock) _
    have hrun : (runTask id input).alone cb
        { s with taskDeadline := some (freshDeadline id d w.clock) } (deadlineStored id d s w) = _ :=
      (alone_runTask rfl).trans (if_neg hlate)
    exact ⟨_, alone_bind_error hrun, rfl⟩

/-- An overdue call in a branch is dropped when it has returned; an error that it returns
is passed on as it is. -/
theorem branchAttempt_of_overdue (hs : s.getTaskResult (TaskId.sha256 id) = none)
    (hlong : d < cb.duration id input) :
    (branchExecuteOrSkipTask id input (some d)).alone cb s w
      = match cb.execute id input with
        | .ok _ => ((.error (timedOut id d), { s with taskDeadline := none }),
            (Op.callTask cb id input w).2)
        | .error e => ((.error (.ofBoxError e), s.setTaskDeadline (TaskId.sha256 id) d w.clock),
            (Op.callTask cb id input w).2) := by
  unfold branchExecuteOrSkipTask
  have hbytes : s.getTaskResultBytes (TaskId.sha256 id) = none := by
    change (s.getTaskResult (TaskId.sha256 id)).map _ = none
    rw [hs]
    rfl
  have hset : (setTaskDeadline id (some d)).alone cb s w
      = ((.ok (), s.setTaskDeadline (TaskId.sha256 id) d w.clock), w) := rfl
  have hcall : (executeTask id input).alone cb (s.setTaskDeadline (TaskId.sha256 id) d w.clock) w
      = (((cb.execute id input).mapError .ofBoxError,
          s.setTaskDeadline (TaskId.sha256 id) d w.clock), (Op.callTask cb id input w).2) := rfl
  rw [alone_get_bind, hbytes]
  dsimp only
  rw [alone_bind_ok hset]
  cases hx : cb.execute id input with
  | error e =>
    rw [hx] at hcall
    exact alone_bind_error hcall
  | ok output =>
    rw [hx] at hcall
    rw [alone_bind_ok hcall]
    have hexpired : expiredTaskDeadline.alone cb (s.setTaskDeadline (TaskId.sha256 id) d w.clock)
        (Op.callTask cb id input w).2
        = ((.ok (some (TaskId.sha256 id, Duration.fromMillis (Duration.asMillis d))),
          s.setTaskDeadline (TaskId.sha256 id) d w.clock), (Op.callTask cb id input w).2) := by
      have hle : w.clock + d ≤ w.clock + cb.duration id input := Nat.add_le_add_left hlong.le _
      have heq : (s.setTaskDeadline (TaskId.sha256 id) d w.clock).expiredTaskDeadline
          (w.clock + cb.duration id input)
          = some (TaskId.sha256 id, Duration.fromMillis (Duration.asMillis d)) := by
        simp only [WorkflowSnapshot.expiredTaskDeadline, WorkflowSnapshot.setTaskDeadline,
          Option.bind_some, if_pos hle]
      rw [← heq]
      rfl
    rw [alone_bind_ok hexpired]
    rfl

/-! ## Workers -/

/-- `HeartbeatInterrupt`. -/
inductive HeartbeatInterrupt where
  | timeout (e : RuntimeError)
  | cancelled
  | claimLost

/-- The period of the heartbeat: a quarter of the TTL, between 1 ms and 15 s. -/
def heartbeatInterval (ttl : Duration) : Duration :=
  max (min (ttl / 4) (Duration.fromMillis 15000)) (Duration.fromMillis 1)

/-- One heartbeat: the deadline, a cancel request, the answer to the extension of the
claim. Also counts failed extensions. -/
def beat (deadline : Option TaskDeadline) (now : Time) (cancelled : Bool)
    (extended : Except BackendError Unit) (failures : ℕ) : Except HeartbeatInterrupt ℕ :=
  match deadline.filter fun d => d.deadline ≤ now with
  | some d => .error (.timeout
      (.workflow (.taskTimedOut d.taskId (Duration.fromMillis d.timeoutMs))))
  | none =>
    if cancelled then .error .cancelled
    else match extended with
      | .ok _ => .ok 0
      | .error (.backend _) =>
        if Submission.heartbeatFailureLimit ≤ failures + 1 then .error .claimLost
        else .ok (failures + 1)
      | .error _ => .error .claimLost

/-- A heartbeat of a pool does what `beat` says. -/
theorem heartbeat_eq_beat (job : Submission) (worker : Worker) (ttl : Duration)
    (task : AvailableTask) (outcome : Except RuntimeError Bytes) (deadline : Option TaskDeadline)
    (failures : ℕ) (readFails extendFails : Bool) (w : PoolWorld) :
    (job.heartbeat worker ttl task outcome deadline failures readFails extendFails w).1
      = match beat deadline w.clock (!readFails && w.cancelSignal.isSome)
          (if extendFails then .error (.backend "extend")
            else (job.backend.extendTaskClaim task.taskId worker.id ttl w).1) failures with
        | .error (.timeout e) => job.settleFailure worker task e w.clock
        | .error .cancelled => .cancelling task
        | .error .claimLost => .done
        | .ok failures => .running task outcome deadline failures := by
  unfold Submission.heartbeat beat
  cases deadline.filter fun d => d.deadline ≤ w.clock with
  | some d => rfl
  | none =>
    dsimp only
    cases !readFails && w.cancelSignal.isSome with
    | true => rfl
    | false =>
      cases extendFails with
      | true =>
        simp only [Bool.false_eq_true, if_false, if_true]
        split <;> rfl
      | false =>
        rcases hx : (job.backend.extendTaskClaim task.taskId worker.id ttl w).1 with e | _
        · cases e with
          | backend message =>
            simp only [Bool.false_eq_true, if_false, hx]
            split <;> rfl
          | _ => simp [hx]
        · simp [hx]

/-- The heartbeats of a task function that starts at `start`: what each of them finds. -/
def heartbeats (interval : Duration) (deadline : Option TaskDeadline) (start : Time)
    (cancelled : ℕ → Bool) (extended : ℕ → Except BackendError Unit) :
    (n : ℕ) → Except HeartbeatInterrupt ℕ
  | 0 => .ok 0
  | n + 1 => do
      let failures ← heartbeats interval deadline start cancelled extended n
      beat deadline (start + (n + 1) * interval) (cancelled n) (extended n) failures

/-- `run_with_heartbeat`, for a task function that returns after `n` heartbeats. A worker
without a TTL has none. -/
def runWithHeartbeat (worker : Worker) (deadline : Option TaskDeadline) (start : Time)
    (cancelled : ℕ → Bool) (extended : ℕ → Except BackendError Unit) (n : ℕ) :
    Except HeartbeatInterrupt Unit :=
  match worker.ttl with
  | none => .ok ()
  | some ttl =>
    (heartbeats (heartbeatInterval ttl) deadline start cancelled extended n).map fun _ => ()

section heartbeats

omit [Sha256]

variable (interval : Duration) (deadline : TaskDeadline) (start : Time) (cancelled : ℕ → Bool)
  (extended : ℕ → Except BackendError Unit)

/-- The interruption of a task whose deadline has passed. -/
def TaskDeadline.interrupt (deadline : TaskDeadline) : HeartbeatInterrupt :=
  .timeout (.workflow (.taskTimedOut deadline.taskId (Duration.fromMillis deadline.timeoutMs)))

variable {interval deadline start} in
/-- The last heartbeat finds the deadline expired, if an earlier one has not. -/
theorem heartbeats_of_overdue {n : ℕ} (h : deadline.deadline ≤ start + (n + 1) * interval) :
    ∃ i, heartbeats interval (some deadline) start cancelled extended (n + 1) = .error i := by
  unfold heartbeats
  cases heartbeats interval (some deadline) start cancelled extended n with
  | error i => exact ⟨i, rfl⟩
  | ok failures =>
    refine ⟨deadline.interrupt, ?_⟩
    change beat (some deadline) (start + (n + 1) * interval) _ _ _ = _
    unfold beat
    rw [Option.filter_some, if_pos (by simpa using h)]
    rfl

variable {cancelled extended} in
/-- Without cancel requests and with a claim that can be extended, only the deadline
interrupts a task. -/
theorem heartbeats_undisturbed (hc : ∀ k, cancelled k = false) (he : ∀ k, extended k = .ok ())
    (n : ℕ) : heartbeats interval (some deadline) start cancelled extended n = .ok 0
      ∨ heartbeats interval (some deadline) start cancelled extended n
        = .error deadline.interrupt := by
  induction n with
  | zero => exact .inl rfl
  | succ n ih =>
    rcases ih with h | h
    · have hstep : heartbeats interval (some deadline) start cancelled extended (n + 1)
          = beat (some deadline) (start + (n + 1) * interval) (cancelled n) (extended n) 0 := by
        rw [heartbeats, h]
        rfl
      rw [hstep, hc, he]
      unfold beat
      rw [Option.filter_some]
      by_cases hd : decide (deadline.deadline ≤ start + (n + 1) * interval) = true
      · rw [if_pos hd]
        exact .inr rfl
      · rw [if_neg hd]
        exact .inl rfl
    · right
      rw [heartbeats, h]
      rfl

end heartbeats

/-- The longest time between two looks of a worker at a deadline. -/
def Worker.checkInterval (worker : Worker) : Duration :=
  (worker.ttl.map heartbeatInterval).getD 0

/-- A task function with this deadline that runs longer than its timeout and the check
interval is interrupted, by its deadline if by nothing else. `n` heartbeats fire while it
runs. -/
def Worker.Enforces (worker : Worker) (d : Duration) : Prop :=
  ∀ (deadline : TaskDeadline) start cancelled extended duration n,
    deadline.deadline ≤ start + d → d + worker.checkInterval < duration →
    (∀ ttl ∈ worker.ttl, duration ≤ (n + 1) * heartbeatInterval ttl) →
    ∃ i, runWithHeartbeat worker (some deadline) start cancelled extended n = .error i
      ∧ ((∀ k, cancelled k = false) → (∀ k, extended k = .ok ()) → i = deadline.interrupt)

omit [Sha256] in
theorem enforces_iff (worker : Worker) (d : Duration) :
    worker.Enforces d ↔ worker.ttl.isSome := by
  cases httl : worker.ttl with
  | none =>
    simp only [Option.isSome_none, Bool.false_eq_true, iff_false]
    intro h
    obtain ⟨i, hi, -⟩ := h ⟨default, 0, 0⟩ 0 (fun _ => false) (fun _ => .ok ()) (d + 1) 0
      (Nat.zero_le _) (by simp [Worker.checkInterval, httl]) (by simp [httl])
    simp [runWithHeartbeat, httl] at hi
  | some ttl =>
    simp only [Option.isSome_some, iff_true]
    intro deadline start cancelled extended duration n hdl hlong hn
    have hn := hn ttl httl
    have hinterval : worker.checkInterval = heartbeatInterval ttl := by
      simp [Worker.checkInterval, httl]
    rw [hinterval] at hlong
    have hpast : d < n * heartbeatInterval ttl := by
      have h := lt_of_lt_of_le hlong hn
      rw [Nat.succ_mul] at h
      exact Nat.lt_of_add_lt_add_right h
    cases n with
    | zero => simp at hpast
    | succ n =>
      have hover : deadline.deadline ≤ start + (n + 1) * heartbeatInterval ttl :=
        le_trans hdl (Nat.add_le_add_left hpast.le _)
      obtain ⟨i, hi⟩ := heartbeats_of_overdue cancelled extended hover
      refine ⟨i, by simp only [runWithHeartbeat, httl, hi]; rfl, fun hc he => ?_⟩
      rcases heartbeats_undisturbed (heartbeatInterval ttl) deadline start hc he (n + 1)
        with h | h
      · rw [hi] at h
        cases h
      · rw [hi] at h
        cases h
        rfl

end overdue

section sample

attribute [local instance] Sha256.packed

end sample

end Sayiir
