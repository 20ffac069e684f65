import Sayiir.Proof.Conduct
import Sayiir.Runtime.Trial

/-!
# The attempts of a task

How often a task with a retry policy may fail, over all the processes of an instance. Every
call of the task that returns an error costs one. The main path saves the retry state after
every failure, and a failure that is saved is not forgotten. A branch counts in its own copy
of the snapshot, which nobody saves, so after a crash it counts from zero.

* `Funded` relates what a snapshot counts to what is left of the budget: the task has its
  result, or the attempts that are counted and the budget make up all the calls allowed.
* On the main path this relation holds of everything that is stored. In a branch the store
  has no retry state, and the relation holds of the copy in hand.
* `Frame` is what the rest of the tree leaves alone: whether the task has a result, and its
  retry state.
-/

namespace Sayiir

open Exec WorkflowSnapshot WorkflowContinuation

variable {policy : RetryPolicy} {α : Type} {c : WorkflowContinuation} {taskId : TaskId}
  {s : WorkflowSnapshot} {k : ℕ} {ex : Executor} {codec : EnvelopeCodec}

variable [Sha256]

/-! ## What changes to a snapshot leave alone -/

/-- What is recorded about the task is the same; its result may have been added. -/
structure Frame (t : String) (s s' : WorkflowSnapshot) : Prop where
  retry : s'.retryOf t = s.retryOf t
  result : s.records t → s'.records t
  running : s'.isInProgress = s.isInProgress

namespace Frame

variable {t : String} {s s' s'' : WorkflowSnapshot}

theorem refl : Frame t s s := ⟨rfl, id, rfl⟩

theorem trans (h : Frame t s s') (h' : Frame t s' s'') : Frame t s s'' :=
  ⟨h'.retry.trans h.retry, fun hr => h'.result (h.result hr), h'.running.trans h.running⟩

theorem deadline (d : Option TaskDeadline) : Frame t s { s with taskDeadline := d } :=
  ⟨rfl, id, rfl⟩

theorem hint (h : TaskHint) : Frame t s (s.setTaskHint h) := ⟨rfl, id, rfl⟩

theorem position (p : ExecutionPosition) : Frame t s (s.updatePosition p) where
  retry := by simp [retryOf]
  result h := by simpa [records] using h
  running := isInProgress_updatePosition p

theorem iteration (loopId : TaskId) (i : ℕ) : Frame t s (s.setLoopIteration loopId i) :=
  ⟨rfl, id, rfl⟩

theorem clearIteration (loopId : TaskId) : Frame t s (s.clearLoopIteration loopId) :=
  ⟨rfl, id, rfl⟩

theorem mark (taskId : TaskId) (output : Bytes) : Frame t s (s.markTaskCompleted taskId output) where
  retry := by simp [retryOf]
  result h := by
    unfold records at h ⊢
    rw [getTaskResult_markTaskCompleted]
    split
    · rfl
    · exact h
  running := isInProgress_markTaskCompleted output

theorem remove (h : TaskId.sha256 t ≠ taskId) :
    Frame t s (s.removeTaskResult taskId) where
  retry := by
    unfold retryOf removeTaskResult
    split <;> rfl
  result hr := by
    unfold records at hr ⊢
    rw [getTaskResult_removeTaskResult, if_neg fun h' => h h'.2]
    exact hr
  running := isInProgress_removeTaskResult

theorem record (h : TaskId.sha256 t ≠ taskId) (policy : RetryPolicy)
    (e : RuntimeError) (worker : Option String) (now : Time) :
    Frame t s (s.recordRetry taskId policy e worker now).2 :=
  ⟨AList.lookup_insert_ne h, id, rfl⟩

theorem clearRetry (h : TaskId.sha256 t ≠ taskId) :
    Frame t s (s.clearRetryState taskId) :=
  ⟨AList.lookup_erase_ne h, id, rfl⟩

theorem clearBody {body : WorkflowContinuation} (h : TaskId.sha256 t ∉ body.ids) :
    Frame t s (clearBodyTasks body s) := by
  unfold clearBodyTasks
  generalize body.ids = ids at h ⊢
  induction ids generalizing s with
  | nil => exact refl
  | cons i ids ih =>
    rw [List.mem_cons, not_or] at h
    exact (remove h.1).trans (ih h.2)

end Frame

/-- Properties of a snapshot that depend on the retry state and the result of the task. -/
def Concerns (t : String) (good : WorkflowSnapshot → Prop) : Prop :=
  ∀ {s s'}, s'.retryOf t = s.retryOf t → (s.records t → s'.records t) → good s → good s'

/-! ## The protocol -/

/-- What an execution saves is `good`, and so is what it loads, as long as the instance
is in progress. The state tells whether that is known. -/
def tending (good : WorkflowSnapshot → Prop) : Protocol Op Op.Resp Bool where
  allows g o := match o with
    | .saveSnapshot s => s.isTerminal ∨ g = true ∧ s.isInProgress ∧ good s
    | _ => True
  next g o r g' := match o, r with
    | .saveSnapshot s, .ok _ => g' = s.isInProgress
    | .saveSnapshot _, .error _ => False
    | .loadSnapshot, .ok s =>
      (s.isInProgress → good s) ∧ (g = true → s.isInProgress) ∧ g' = s.isInProgress
    | .checkAndCancel _, .ok true | .checkAndPause, .ok true => g' = false
    | _, _ => g' = g

/-- The instance is in progress, here and in the store. -/
def Tended (good : WorkflowSnapshot → Prop) (g : Bool) (s : WorkflowSnapshot) : Prop :=
  g = true ∧ s.isInProgress ∧ good s

/-- The calls of the task cost something. -/
def pricedAt (t : String) (taskId : TaskId) : Bool := taskId = TaskId.sha256 t

section protocol

variable {t : String} {good : WorkflowSnapshot → Prop} {g : Bool} {s' : WorkflowSnapshot}

theorem fair_errorOf : Fair (pricedAt t) (errorOf t) := by
  intro o ho r
  cases o with
  | executeTask id input =>
    have hid : id ≠ t := by
      rintro rfl
      simp [Op.isFree, pricedAt] at ho
    cases r <;> simp [errorOf, hid]
  | raceTask id input deadline =>
    have hid : id ≠ t := by
      rintro rfl
      simp [Op.isFree, pricedAt] at ho
    rcases r with _ | _ | _ <;> simp [errorOf, hid]
  | _ => rfl

omit [Sha256] in
theorem quiet_tending {o : Op} (ho : o.isQuiet) (g : Bool) : (tending good).allows g o
    ∧ ∀ r g', (tending good).next g o r g' → g' = g := by
  cases o with
  | saveSnapshot s => cases ho
  | loadSnapshot => cases ho
  | checkAndCancel scope => cases ho
  | checkAndPause => cases ho
  | _ => exact ⟨trivial, fun r g' hr => hr⟩

omit [Sha256] in
theorem guarded_tending : Guarded (tending good) :=
  ⟨fun _ _ => ⟨trivial, fun _ hr => hr⟩, fun _ => ⟨trivial, fun _ hr => hr⟩⟩

omit [Sha256] in
theorem Tended.save (h : Tended good g s) : (tending good).allows g (.saveSnapshot s)
    ∧ ∀ r g', (tending good).next g (.saveSnapshot s) r g' → g' = g ∧ Tended good g' s := by
  obtain ⟨rfl, hprog, hs⟩ := h
  refine ⟨.inr ⟨rfl, hprog, hs⟩, fun r g' hr => ?_⟩
  cases r with
  | ok _ =>
    obtain rfl : g' = true := hr.trans hprog
    exact ⟨rfl, rfl, hprog, hs⟩
  | error e => exact hr.elim

theorem Tended.frame (hgood : Concerns t good) (h : Tended good g s) (hf : Frame t s s') :
    Tended good g s' :=
  ⟨h.1, hf.running ▸ h.2.1, hgood hf.retry hf.result h.2.2⟩

theorem bearing_tended (hgood : Concerns t good) :
    Bearing (tending good) (pricedAt t) (Tended good) where
  quiet _ ho := quiet_tending ho _
  deadline d h := h.frame hgood (.deadline d)
  mark taskId output h := h.frame hgood (.mark taskId output)
  record policy e now hid h :=
    h.frame hgood (.record (Ne.symm (by simpa [pricedAt] using hid)) policy e none now)
  clear hid h := h.frame hgood (.clearRetry (Ne.symm (by simpa [pricedAt] using hid)))
  save h := ⟨h.save.1, fun r g' hr => (h.save.2 r g' hr).2⟩

/-- What is loaded is known to be in progress or to be over. -/
def Loaded (good : WorkflowSnapshot → Prop) (g : Bool) (s : WorkflowSnapshot) : Prop :=
  g = s.isInProgress ∧ (s.isInProgress → good s)

omit [Sha256] in
theorem Loaded.tended (h : Loaded good g s) (hp : s.isInProgress) : Tended good g s :=
  ⟨h.1.trans hp, hp, h.2 hp⟩

omit [Sha256] in
theorem departs_tended {next : Option TaskId} {output : Bytes}
    (h : ∀ position, Tended good g (s.updatePosition position)) :
    Departs (tending good) (Tended good) g next s output := by
  cases next with
  | none => exact .inl rfl
  | some taskId => exact ⟨(h _).save.1, fun r g' hr => ((h _).save.2 r g' hr).2⟩

theorem resuming_tended (hgood : Concerns t good) :
    Resuming (tending good) (errorOf t) (pricedAt t) (Tended good) (Loaded good) where
  fair := fair_errorOf
  guards := guarded_tending
  quiet _ ho := quiet_tending ho _
  load _ := trivial
  unparked h hp _ := h.tended hp
  fork h hx := h.tended (ResumeParkedPosition.isInProgress_of_extract (by simp [hx]))
  delay h hx := departs_tended fun position =>
    (h.tended (ResumeParkedPosition.isInProgress_of_extract (by simp [hx]))).frame hgood
      (.position position)
  signal payload h hx := departs_tended fun position =>
    (h.tended (ResumeParkedPosition.isInProgress_of_extract (by simp [hx]))).frame hgood
      ((Frame.mark _ payload).trans (.position position))
  complete _ _ := .inl rfl
  fail _ _ _ := .inl rfl

end protocol

/-! ## Retry states -/

/-- The retry state of the task has the limit `n` and does not exceed it. -/
def Proper (n : ℕ) (t : String) (s : WorkflowSnapshot) : Prop :=
  ∀ r ∈ s.retryOf t, r.policy.maxRetries = n ∧ r.attempts ≤ n

/-- The task has its result, or `q`. -/
def ResultOr (q : Prop) (t : String) (s : WorkflowSnapshot) : Prop := s.records t ∨ q

/-- The task needs no further call, or the calls it may need are paid for. -/
def Funded (n : ℕ) (t : String) (k : ℕ) (s : WorkflowSnapshot) : Prop :=
  Proper n t s ∧ ResultOr (n + 1 ≤ s.attemptsOf t + k) t s

section retries

variable {n k k' : ℕ} {t : String} {q : Prop} {s s' : WorkflowSnapshot}

theorem Proper.frame (hs : Proper n t s) (h : Frame t s s') : Proper n t s' := by
  unfold Proper
  rw [h.retry]
  exact hs

theorem proper_of_none (h : s.retryOf t = none) : Proper n t s := by
  unfold Proper
  rw [h]
  simp

theorem attemptsOf_of_none (h : s.retryOf t = none) : s.attemptsOf t = 0 := by
  simp [attemptsOf, h]

theorem Proper.attempts_le (hs : Proper n t s) : s.attemptsOf t ≤ n := by
  unfold attemptsOf
  cases hr : s.retryOf t with
  | none => exact Nat.zero_le n
  | some r => exact (hs r hr).2

theorem retryOf_clearRetryState : (s.clearRetryState (TaskId.sha256 t)).retryOf t = none :=
  AList.lookup_erase _ _

/-- A failure that does not exhaust the retries is counted. -/
theorem attemptsOf_recordRetry (policy : RetryPolicy) (e : RuntimeError) (worker : Option String)
    (now : Time) :
    (s.recordRetry (TaskId.sha256 t) policy e worker now).2.attemptsOf t = s.attemptsOf t + 1 := by
  unfold attemptsOf retryOf recordRetry
  rw [AList.lookup_insert]
  cases s.taskRetries.lookup (TaskId.sha256 t) <;> rfl

theorem proper_recordRetry (e : RuntimeError) (worker : Option String)
    (now : Time) (hpolicy : policy.maxRetries = n) (hn : 1 ≤ n) (hs : Proper n t s)
    (hleft : s.retriesExhausted (TaskId.sha256 t) = false) :
    Proper n t (s.recordRetry (TaskId.sha256 t) policy e worker now).2 := by
  have hcount := attemptsOf_recordRetry (s := s) (t := t) policy e worker now
  intro r hr
  have hpol : r.policy = policy := by
    unfold retryOf recordRetry at hr
    rw [AList.lookup_insert] at hr
    cases hr
    rfl
  refine ⟨hpol ▸ hpolicy, ?_⟩
  have hr' : r.attempts = s.attemptsOf t + 1 := by
    rw [← hcount]
    unfold attemptsOf
    rw [Option.mem_def.mp hr]
    rfl
  rw [hr']
  cases hold : s.retryOf t with
  | none =>
    rw [attemptsOf_of_none hold]
    exact hn
  | some old =>
    -- the limit has not been reached, and it is the one of the policy
    have hlt : ¬ old.policy.maxRetries ≤ old.attempts := by
      unfold retriesExhausted at hleft
      rw [show s.taskRetries.lookup (TaskId.sha256 t) = some old from hold] at hleft
      simpa using hleft
    have hold' := hs old hold
    have hatt : s.attemptsOf t = old.attempts := by simp [attemptsOf, hold]
    omega

end retries

/-! ## One task -/

section task

variable {n b : ℕ} {t : String} {q : Prop} {good : WorkflowSnapshot → Prop}
  {ρ : Protocol Op Op.Resp Bool}

/-- The instance is in progress, and the budget and the snapshot in hand are in `H`. -/
def Live (H : ℕ → WorkflowSnapshot → Prop) : Standing Bool :=
  fun g k s => g = true ∧ s.isInProgress ∧ H k s

/-- In the hands of the loop that tries the task. `q` is what is known about the budget of
the whole process. -/
def Ready (n b : ℕ) (t : String) (q : Prop) (k : ℕ) (s : WorkflowSnapshot) : Prop :=
  k ≤ b ∧ Funded n t k s ∧ ResultOr q t s

/-- The task has no result, and with `e` more than the budget its calls are paid for. -/
def Short (n b : ℕ) (t : String) (q : Prop) (e k : ℕ) (s : WorkflowSnapshot) : Prop :=
  k ≤ b ∧ Proper n t s ∧ n + 1 ≤ s.attemptsOf t + (k + e) ∧ ResultOr q t s

/-- The task has succeeded. -/
def Passed (n : ℕ) (t : String) (q : Prop) (_ : ℕ) (s : WorkflowSnapshot) : Prop :=
  Proper n t s ∧ ResultOr q t s

theorem Short.loosen {e : ℕ} (h : Short n b t q e k s) :
    Short n b t q (e + 1) k s :=
  ⟨h.1, h.2.1, by have := h.2.2.1; omega, h.2.2.2⟩

theorem Short.ready (h : Short n b t q 0 k s) :
    Ready n b t q k s :=
  ⟨h.1, ⟨h.2.1, .inr h.2.2.1⟩, h.2.2.2⟩

theorem live_loosen {g : Bool} (h : Live (Short n b t q 0) g k s) : Live (Short n b t q 1) g k s :=
  ⟨h.1, h.2.1, h.2.2.loosen⟩

/-- Quiet operations leave an instance in progress. -/
def Unmoved (ρ : Protocol Op Op.Resp Bool) : Prop :=
  ∀ {o : Op}, o.isQuiet → ρ.allows true o ∧ ∀ r g', ρ.next true o r g' → g' = true

variable (hρ : Unmoved ρ)
include hρ

theorem timed_live {H : ℕ → WorkflowSnapshot → Prop} {E : Standing Bool}
    (hH : ∀ {k s} d, H k s → H k { s with taskDeadline := d })
    (hE : ∀ {g k s}, Live H g k s → E g k s) : Timed ρ (errorOf t) (pricedAt t) (Live H) E where
  fair := fair_errorOf
  err := hE
  quiet hs ho := by
    obtain ⟨rfl, -⟩ := hs
    exact hρ ho
  deadline d hs := ⟨hs.1, hs.2.1, hH d hs.2.2⟩

theorem timed_short : Timed ρ (errorOf t) (pricedAt t) (Live (Short n b t q 0))
    (Live (Short n b t q 1)) :=
  timed_live hρ (fun _ h => h) live_loosen

/-- A call of the task. An error is paid from the budget, which has something left. -/
theorem costs_callOf {o : Op} (ho : o.isQuiet) (hcost : ∀ r, errorOf t o r ≤ 1)
    {c : o.Resp → Exec α} {Q : α → Standing Bool} {E : Standing Bool}
    (hc : ∀ r, Costs ρ (errorOf t) (Live (Short n b t q (errorOf t o r))) (c r) Q E) :
    Costs ρ (errorOf t) (Live (Short n b t q 0)) (lift (.op o .pure) >>= c) Q E := by
  rintro g k s ⟨rfl, hprog, hs⟩
  obtain ⟨hallows, hnext⟩ := hρ ho
  have hleft := hs.2.1.attempts_le
  have hpaid := hs.2.2.1
  refine ⟨hallows, fun r g' hr => ?_⟩
  have hle := hcost r
  obtain rfl := hnext r g' hr
  refine ⟨by omega, hc r true _ s ⟨rfl, hprog, ?_, hs.2.1, by omega, hs.2.2.2⟩⟩
  have hb := hs.1
  omega

theorem costs_executeTask (input : Bytes) :
    Costs ρ (errorOf t) (Live (Short n b t q 0)) (executeTask t input)
      (fun _ => Live (Short n b t q 0)) (Live (Short n b t q 1)) := by
  refine costs_callOf hρ (o := .executeTask t input) (c := fun r => ofExcept (r.mapError .ofBoxError))
    rfl (fun r => ?_) fun r => ?_
  · cases r <;> simp [errorOf]
  · cases r with
    | ok output => exact keeps_pure _
    | error e =>
      have hone : errorOf t (.executeTask t input) (.error e) = 1 := if_pos rfl
      rw [hone]
      exact costs_throw fun _ _ _ h => h

theorem costs_runTask (input : Bytes) :
    Costs ρ (errorOf t) (Live (Short n b t q 0)) (runTask t input)
      (fun _ => Live (Short n b t q 0)) (Live (Short n b t q 1)) := by
  refine keeps_get_bind fun s => ?_
  split
  · exact costs_executeTask hρ input
  · rename_i deadline _
    refine costs_callOf hρ (o := .raceTask t input deadline) rfl (fun r => ?_) fun r => ?_
    · rcases r with _ | _ | _ <;> simp [errorOf]
    · rcases r with _ | e | output
      · exact (keeps_clearTaskDeadline (timed_short hρ)).bind fun _ =>
          keeps_throw (timed_short hρ).toPoised
      · have hone : errorOf t (.raceTask t input deadline) (some (.error e)) = 1 := if_pos rfl
        rw [hone]
        exact costs_throw fun _ _ _ h => h
      · exact keeps_pure _

omit hρ in
/-- Without a result the task is to be called; with one it is not. -/
theorem Ready.short (h : Ready n b t q k s)
    (hnone : s.getTaskResultBytes (TaskId.sha256 t) = none) : Short n b t q 0 k s := by
  have hrec : ¬ s.records t := by
    unfold getTaskResultBytes at hnone
    simpa [records] using hnone
  exact ⟨h.1, h.2.1.1, h.2.1.2.resolve_left hrec, h.2.2⟩

omit hρ in
theorem records_of_bytes {output : Bytes}
    (h : s.getTaskResultBytes (TaskId.sha256 t) = some output) : s.records t := by
  unfold getTaskResultBytes at h
  obtain ⟨r, hr, -⟩ := Option.map_eq_some_iff.mp h
  simp [records, hr]

omit hρ in
theorem records_markTaskCompleted {output : Bytes} (h : s.isInProgress) :
    (s.markTaskCompleted (TaskId.sha256 t) output).records t := by
  unfold records
  rw [getTaskResult_markTaskCompleted, if_pos ⟨h, rfl⟩]
  rfl

/-- One attempt on the main path. Its result is recorded in hand. -/
theorem costs_executeOrSkipTask (input : Bytes) :
    Costs ρ (errorOf t) (Live (Ready n b t q)) (executeOrSkipTask t input)
      (fun _ => Live (Passed n t False)) (Live (Short n b t q 1)) := by
  have ht : Timed ρ (errorOf t) (pricedAt t) (Live (Short n b t q 0)) _ := timed_short hρ
  refine costs_get_bind fun s => ?_
  split
  · rename_i output hsome
    rintro g k s' ⟨rfl, hg, hprog, hs⟩
    exact ⟨hg, hprog, hs.2.1.1, .inl (records_of_bytes hsome)⟩
  · rename_i hnone
    refine Costs.pre (P := Live (Short n b t q 0)) ?_ ?_
    · refine (keeps_expiredTaskDeadline ht.toPoised).bind fun expired => ?_
      split
      · exact (keeps_clearTaskDeadline ht).bind fun _ => keeps_throw ht.toPoised
      · refine (keeps_refreshTaskDeadline ht).bind fun _ => (costs_runTask hρ input).bind
          fun output => Costs.bind (Q := fun _ => Live (Passed n t False)) ?_ fun _ => keeps_pure _
        rintro g k s ⟨hg, hprog, hs⟩
        have hframe : Frame t s (s.clearTaskDeadline.markTaskCompleted (TaskId.sha256 t) output) :=
          (Frame.deadline none).trans (Frame.mark _ _)
        exact ⟨hg, hframe.running ▸ hprog, hs.2.1.frame hframe,
          .inl (records_markTaskCompleted hprog)⟩
    · rintro g k s' ⟨rfl, hg, hprog, hs⟩
      exact ⟨hg, hprog, hs.short hnone⟩

/-- One attempt in a branch. Its result goes to the store only. -/
theorem costs_branchExecuteOrSkipTask (input : Bytes) (timeout : Option Duration) :
    Costs ρ (errorOf t) (Live (Ready n b t q)) (branchExecuteOrSkipTask t input timeout)
      (fun _ => Live (Passed n t q)) (Live (Short n b t q 1)) := by
  have ht : Timed ρ (errorOf t) (pricedAt t) (Live (Short n b t q 0)) _ := timed_short hρ
  refine costs_get_bind fun s => ?_
  split
  · rintro g k s' ⟨rfl, hg, hprog, hs⟩
    exact ⟨hg, hprog, hs.2.1.1, hs.2.2⟩
  · rename_i hnone
    refine Costs.pre (P := Live (Short n b t q 0)) ?_ ?_
    · refine (keeps_setTaskDeadline ht t timeout).bind fun _ =>
        (costs_executeTask hρ input).bind fun output =>
          Costs.bind (keeps_expiredTaskDeadline ht.toPoised) fun expired => ?_
      split
      · exact Costs.bind (keeps_clearTaskDeadline ht) fun _ => keeps_throw ht.toPoised
      · exact Costs.bind (keeps_clearTaskDeadline ht) fun _ =>
          Costs.bind (keeps_saveTaskResult ht.toPoised _ output) fun _ =>
            costs_pure fun _ _ _ h => ⟨h.1, h.2.1, h.2.2.2.1, h.2.2.2.2.2⟩
    · rintro g k s' ⟨rfl, hg, hprog, hs⟩
      exact ⟨hg, hprog, hs.short hnone⟩

/-! ## The retry loop -/

/-- The task has succeeded, and its retry state is gone. -/
def Cleared (t : String) (q : Prop) (_ : ℕ) (s : WorkflowSnapshot) : Prop :=
  s.retryOf t = none ∧ ResultOr q t s

omit hρ in
theorem costs_attemptTask {q' : Prop} {execute : Exec Bytes} {onError : RuntimeError → Exec Bytes}
    (hx : Costs ρ (errorOf t) (Live (Ready n b t q)) execute (fun _ => Live (Passed n t q'))
      (Live (Short n b t q 1)))
    (herr : ∀ e, Costs ρ (errorOf t) (Live (Short n b t q 1)) (onError e)
      (fun _ => Live (Cleared t q')) AnyEnd) :
    Costs ρ (errorOf t) (Live (Ready n b t q)) (attemptTask t execute onError)
      (fun _ => Live (Cleared t q')) AnyEnd := by
  refine (Costs.attempt hx).bind fun r => ?_
  cases r with
  | ok output =>
    refine Costs.bind (Q := fun _ => Live (Cleared t q')) ?_ fun _ => keeps_pure _
    rintro g k s ⟨hg, hprog, hs⟩
    exact ⟨hg, hprog, retryOf_clearRetryState, hs.2⟩
  | error e => exact herr e

/-- A failure is counted before the next attempt. -/
theorem costs_prepareRetry (hpolicy : policy.maxRetries = n) (hn : 1 ≤ n)
    (timeout : Option Duration) {save : Bool}
    (hsave : save → Savable ρ (Live (Short n b t q 0))) (e : RuntimeError) :
    Costs ρ (errorOf t)
      (fun g k s => s.retriesExhausted (TaskId.sha256 t) = false ∧ Live (Short n b t q 1) g k s)
      (prepareRetry t policy timeout save e) (fun _ => Live (Short n b t q 0)) AnyEnd := by
  have ht : Timed ρ (errorOf t) (pricedAt t) (Live (Short n b t q 0)) AnyEnd :=
    timed_live hρ (fun _ h => h) fun _ => trivial
  refine Costs.bind (Q := fun _ g k s => s.retriesExhausted (TaskId.sha256 t) = false
    ∧ Live (Short n b t q 1) g k s) ?_ fun now => ?_
  · rintro g k s ⟨hleft, rfl, hs⟩
    refine Prog.Spends.op (fun _ => rfl) (hρ (o := .utcNow) rfl).1 fun r g' hr => ?_
    obtain rfl := (hρ (o := .utcNow) rfl).2 r g' hr
    exact ⟨hleft, rfl, hs⟩
  · rintro g k s ⟨hleft, rfl, hprog, hb, hproper, hpaid, hknown⟩
    -- what follows works on the snapshot with the new retry state
    refine keeps_awaitRetry ht t timeout save hsave _ true k _ ⟨rfl, hprog, hb,
      proper_recordRetry e none now hpolicy hn hproper hleft, ?_, hknown⟩
    have hcount := attemptsOf_recordRetry (s := s) (t := t) policy e none now
    change n + 1 ≤ (s.recordRetry (TaskId.sha256 t) policy e none now).2.attemptsOf t + (k + 0)
    omega

/-- **The retry loop stays within the budget.** -/
theorem costs_retryLoop {q' : Prop} {execute : Exec Bytes}
    (hx : Costs ρ (errorOf t) (Live (Ready n b t q)) execute (fun _ => Live (Passed n t q'))
      (Live (Short n b t q 1)))
    (hpolicy : policy.maxRetries = n) (hn : 1 ≤ n) (timeout : Option Duration) (save : Bool)
    (hsave : save → Savable ρ (Live (Short n b t q 0))) (bound : ℕ) :
    Costs ρ (errorOf t) (Live (Ready n b t q)) (retryLoop t (some policy) timeout save execute bound)
      (fun _ => Live (Cleared t q')) AnyEnd := by
  induction bound with
  | zero => exact costs_attemptTask hx fun e => costs_throw fun _ _ _ _ => trivial
  | succ bound ih =>
    refine costs_attemptTask hx fun e => costs_get_bind fun s => ?_
    dsimp only
    split
    · exact costs_throw fun _ _ _ _ => trivial
    · rename_i hleft
      refine Costs.pre ((costs_prepareRetry hρ hpolicy hn timeout hsave e).bind fun _ =>
        ih.pre fun _ _ _ h => ⟨h.1, h.2.1, h.2.2.ready⟩) ?_
      rintro g k s' ⟨rfl, hs⟩
      exact ⟨by simpa using hleft, hs⟩

end task

/-! ## Where the task is in a tree -/

section places

variable {t : String} {fields : TaskFields} {inBranch : Bool} {c m : WorkflowContinuation}

omit [Sha256] in
/-- The task is the node itself, or it is in one of the direct subtrees. -/
theorem Places.cases (h : Places t fields inBranch c) :
    (inBranch = false ∧ ∃ next, c = .task t fields next) ∨ ∃ d b, Places t fields b d
      ∧ (d ∈ c.onPath ∧ b = inBranch ∨ d ∈ c.branched ∧ inBranch = true) := by
  cases h with
  | here next => exact .inl ⟨rfl, next, rfl⟩
  | inFork id join hc h => exact .inr ⟨_, _, h, .inr ⟨hc, rfl⟩⟩
  | inRoute id keyFn default next hr h =>
    exact .inr ⟨_, _, h, .inr ⟨List.mem_append_left _ (List.mem_map_of_mem hr), rfl⟩⟩
  | inDefault id keyFn branches next h => exact .inr ⟨_, _, h, .inr ⟨by simp [branched], rfl⟩⟩
  | inChild id next h => exact .inr ⟨_, _, h, .inl ⟨List.mem_cons_self, rfl⟩⟩
  | afterTask _ _ h | afterDelay _ _ h | afterSignal _ _ _ h | afterFork _ _ h
  | afterBranch _ _ _ _ h | afterLoop _ _ _ _ h | afterChild _ _ h =>
    exact .inr ⟨_, _, h, .inl ⟨by simp [onPath], rfl⟩⟩

theorem Places.mem_ids (h : Places t fields inBranch c) : TaskId.sha256 t ∈ c.ids := by
  induction c using children_induct generalizing inBranch with
  | step c ih =>
    rcases h.cases with ⟨-, next, rfl⟩ | ⟨d, b, hd, hmem⟩
    · exact sha256_mem_ids _
    · have hchild : d ∈ c.children := by
        rw [children_eq, List.mem_append]
        exact hmem.symm.imp And.left And.left
      exact ids_subset_of_child hchild (ih d hchild hd)

/-- The task is in the tree and only there, or it is not in the tree. -/
def Placed (t : String) (fields : TaskFields) (inBranch : Bool) (c : WorkflowContinuation) : Prop :=
  TaskId.sha256 t ∉ c.ids ∨ Places t fields inBranch c ∧ c.ids.Nodup

/-- A subtree with the task is the one where it is placed. -/
theorem Placed.child (h : Placed t fields inBranch c) (hm : m ∈ c.children) :
    TaskId.sha256 t ∉ m.ids ∨ ∃ b, Placed t fields b m
      ∧ (m ∈ c.onPath ∧ b = inBranch ∨ m ∈ c.branched ∧ inBranch = true) := by
  by_cases ht : TaskId.sha256 t ∈ m.ids
  · obtain ⟨hp, hnd⟩ := h.resolve_left fun hnot => hnot (ids_subset_of_child hm ht)
    rcases hp.cases with ⟨-, next, rfl⟩ | ⟨d, b, hd, hmem⟩
    · exact (id_notMem_child hnd hm ht).elim
    · have hchild : d ∈ c.children := by
        rw [children_eq, List.mem_append]
        exact hmem.symm.imp And.left And.left
      obtain rfl := child_unique hnd hchild hm hd.mem_ids ht
      exact .inr ⟨b, .inr ⟨hd, nodup_child hnd hm⟩, hmem⟩
  · exact .inl ht

/-- What follows the branches has no id of theirs. -/
theorem notMem_of_branched (hnd : c.ids.Nodup) {d : WorkflowContinuation} (hd : d ∈ c.branched)
    (hm : m ∈ c.onPath) {i : TaskId} (hi : i ∈ d.ids) : i ∉ m.ids := by
  rw [ids_eq, children_eq, List.flatMap_append, List.nodup_cons, List.nodup_append'] at hnd
  exact fun h => hnd.2.2.2 (List.mem_flatMap_of_mem hd hi) (List.mem_flatMap_of_mem hm h)

theorem Placed.onward (h : Placed t fields inBranch c) (hm : m ∈ c.onPath) :
    Placed t fields inBranch m := by
  have hchild : m ∈ c.children := by simp [children_eq, hm]
  rcases h.child hchild with hnot | ⟨b, hb, ⟨-, rfl⟩ | ⟨hbr, -⟩⟩
  · exact .inl hnot
  · exact hb
  · rcases hb with hnot | ⟨hp, -⟩
    · exact .inl hnot
    · obtain ⟨-, hnd⟩ := h.resolve_left fun hnot => hnot (ids_subset_of_child hchild hp.mem_ids)
      exact (notMem_of_branched hnd hbr hm hp.mem_ids hp.mem_ids).elim

/-- A node with the digest of the task is the task, and on the main path. -/
theorem Placed.task {id : String} {f : TaskFields} {next : Option WorkflowContinuation}
    (h : Placed t fields inBranch (.task id f next)) (hid : pricedAt t (TaskId.sha256 id)) :
    inBranch = false ∧ id = t ∧ f = fields := by
  have hmem : TaskId.sha256 id = TaskId.sha256 t := by simpa [pricedAt] using hid
  obtain ⟨hp, hnd⟩ := h.resolve_left fun hnot => hnot (by simp [← hmem])
  rcases hp.cases with ⟨hb, next', heq⟩ | ⟨d, b, hd, hmem'⟩
  · cases heq
    exact ⟨hb, rfl, rfl⟩
  · have hchild : d ∈ (WorkflowContinuation.task id f next).children := by
      rw [children_eq, List.mem_append]
      exact hmem'.symm.imp And.left And.left
    exact (id_notMem_child hnd hchild (hmem ▸ hd.mem_ids)).elim

theorem Placed.loop {id : String} {body : WorkflowContinuation} {maxIterations : ℕ}
    {onMax : MaxIterationsPolicy} {next : Option WorkflowContinuation}
    (h : Placed t fields inBranch (.loop id body maxIterations onMax next)) :
    TaskId.sha256 t ∉ body.ids := by
  intro ht
  obtain ⟨hp, hnd⟩ := h.resolve_left fun hnot => hnot (by simp [ht])
  cases hp with
  | afterLoop _ _ _ _ hp =>
    rw [ids_loop, List.nodup_cons, List.nodup_append'] at hnd
    exact hnd.2.2.2 ht hp.mem_ids

end places

/-! ## Executions -/

section executions

variable {n b : ℕ} {t : String} {fields : TaskFields} {good : WorkflowSnapshot → Prop}

theorem concerns_proper : Concerns t (Proper n t) := by
  intro s s' hretry _ hs
  unfold Proper
  rw [hretry]
  exact hs

theorem concerns_funded (b : ℕ) : Concerns t (Funded n t b) := by
  intro s s' hretry hrec hs
  refine ⟨concerns_proper hretry hrec hs.1, ?_⟩
  unfold attemptsOf
  rw [hretry]
  exact hs.2.imp hrec id

/-- Nothing about the task is stored but its result. -/
def Aside (n b : ℕ) (t : String) (s : WorkflowSnapshot) : Prop :=
  s.retryOf t = none ∧ ResultOr (n + 1 ≤ b) t s

theorem concerns_aside (b : ℕ) : Concerns t (Aside n b t) :=
  fun hretry hrec hs => ⟨hretry.trans hs.1, hs.2.imp hrec id⟩

theorem Frame.park (position : Option TaskId → ExecutionPosition)
    (next : Option WorkflowContinuation) : Frame t s (parkAt position next s) :=
  (Frame.hint _).trans (.position _)

theorem looping_tended {hand : Bool → WorkflowSnapshot → Prop} {cfg : LoopConfig} {track : Bool}
    (hframe : ∀ {g s s'}, hand g s → Frame t s s' → hand g s')
    (hbody : TaskId.sha256 t ∉ cfg.body.ids) : Looping hand cfg track where
  body h := hframe h (.clearBody hbody)
  exit h := hframe h (.clearIteration _)
  next _ h := hframe h (.iteration _ _)
  track _ _ h := hframe h (.position _)

/-- What is left to show of a tree: where the task is, and that its retry loop stays within
the budget. -/
theorem conduct_tended {node inner : WorkflowContinuation → Prop} (hgood : Concerns t good)
    (honward : ∀ {c m}, node c → m ∈ c.onPath → node m)
    (haside : ∀ {c m}, node c → m ∈ c.branched → inner m)
    (hinside : ∀ {c m}, inner c → m ∈ c.children → inner m)
    (hloop : ∀ {id body maxIterations onMax next}, node (.loop id body maxIterations onMax next)
      ∨ inner (.loop id body maxIterations onMax next) → TaskId.sha256 t ∉ body.ids)
    (htask : ∀ {id f next} input, node (.task id f next) → pricedAt t (TaskId.sha256 id) →
      Costs (tending good) (errorOf t) (fun g k s => k = b ∧ Tended good g s)
        (retryWithCheckpoint id f.retryPolicy f.timeout true (executeOrSkipTask id input))
        (fun _ g _ s => Tended good g s) AnyEnd)
    (hinner : ∀ {id f next} input, inner (.task id f next) → pricedAt t (TaskId.sha256 id) →
      Costs (tending good).still (errorOf t)
        (fun g k s => k = b ∧ OwnCopy true (Tended good true) g s)
        (retryWithCheckpoint id f.retryPolicy f.timeout false
          (branchExecuteOrSkipTask id input f.timeout))
        (fun _ g _ s => OwnCopy true (Tended good true) g s) AnyEnd) :
    Conduct (tending good) (errorOf t) (pricedAt t) b ex node inner (Tended good)
      (Tended good) where
  fair := fair_errorOf
  guards := guarded_tending
  main := bearing_tended hgood
  branch _ := (bearing_tended hgood).still _ fun hs hr => (hs.save.2 _ _ hr).1
  load hs := by
    obtain ⟨rfl, -⟩ := hs
    refine ⟨⟨trivial, fun r g' hr => ?_⟩, fun t g' hr => ⟨rfl, hr.2.1 rfl, hr.1 (hr.2.1 rfl)⟩⟩
    cases r with
    | ok s => exact hr.2.2.trans (hr.2.1 rfl)
    | error e => exact hr
  onward := honward
  aside := haside
  inside := hinside
  task := htask
  innerTask input hn hid hs := by
    obtain ⟨rfl, -⟩ := hs
    exact hinner input hn hid
  advance _ h := h.frame hgood ((Frame.position _).trans (.hint _))
  join _ _ h := h.frame hgood (.position _)
  parkDelay _ _ _ _ h := (h.frame hgood ((Frame.park _ _).trans (.mark _ _))).save.1
  parkSignal _ _ h := (h.frame hgood (.park _ _)).save.1
  parkFork _ _ _ h := (h.frame hgood (.position _)).save.1
  loop hn := looping_tended (fun h hf => h.frame hgood hf) (hloop (.inl hn))
  innerLoop hn := looping_tended (fun h hf => ⟨h.1, h.2.frame hgood hf⟩) (hloop (.inr hn))
  bodies hn := by
    have hzero := List.countP_eq_zero.mpr fun i hi => show ¬ pricedAt t i by
      rintro heq
      exact hloop hn (by simpa [pricedAt] using (of_decide_eq_true heq) ▸ hi)
    rw [allowance, hzero, Nat.zero_mul]

section placements

variable (hpolicy : fields.retryPolicy = some policy) (hmax : policy.maxRetries = n) (hn : 1 ≤ n)
include hpolicy hmax hn

/-- The task on the main path: whatever is stored is funded. -/
theorem conduct_main : Conduct (tending (Funded n t b)) (errorOf t) (pricedAt t) b ex
    (Placed t fields false) (fun c => TaskId.sha256 t ∉ c.ids) (Tended (Funded n t b))
    (Tended (Funded n t b)) := by
  have haside : ∀ {c m : WorkflowContinuation}, Placed t fields false c → m ∈ c.branched →
      TaskId.sha256 t ∉ m.ids := by
    intro c m h hm hmem
    obtain ⟨hp, hnd⟩ := h.resolve_left fun hnot =>
      hnot (ids_subset_of_child (by simp [children_eq, hm]) hmem)
    rcases h.child (m := m) (by simp [children_eq, hm]) with hnot | ⟨b, -, ⟨hpath, -⟩ | ⟨-, hb⟩⟩
    · exact hnot hmem
    · exact notMem_of_branched hnd hm hpath hmem hmem
    · cases hb
  have htask : ∀ {id f next} input, Placed t fields false (.task id f next) →
      pricedAt t (TaskId.sha256 id) →
      Costs (tending (Funded n t b)) (errorOf t) (fun g k s => k = b ∧ Tended (Funded n t b) g s)
        (retryWithCheckpoint id f.retryPolicy f.timeout true (executeOrSkipTask id input))
        (fun _ g _ s => Tended (Funded n t b) g s) AnyEnd := by
    intro id f next input h hid
    obtain ⟨-, rfl, rfl⟩ := h.task hid
    have hρ : Unmoved (tending (Funded n id b)) := fun ho => quiet_tending ho true
    rw [hpolicy]
    refine (costs_retryLoop (q := True) hρ (costs_executeOrSkipTask (n := n) (b := b) hρ input) hmax
      hn _ true (fun _ {g k s} hs => ?_) _).mono ?_ ?_ fun _ _ _ h => h
    · obtain ⟨hg, hprog, hk, hproper, hpaid, hknown⟩ := hs
      have hs' : Tended (Funded n id b) g s := ⟨hg, hprog, hproper, .inr (by omega)⟩
      exact ⟨hs'.save.1, fun r g' hr =>
        ⟨(hs'.save.2 r g' hr).2.1, hprog, hk, hproper, hpaid, hknown⟩⟩
    · rintro g k s ⟨rfl, hg, hprog, hs⟩
      exact ⟨hg, hprog, le_rfl, hs, .inr trivial⟩
    · rintro output g k s ⟨hg, hprog, hretry, hknown⟩
      exact ⟨hg, hprog, proper_of_none hretry, .inl (hknown.resolve_right not_false)⟩
  refine conduct_tended (concerns_funded b) (fun h hm => h.onward hm) haside
    (fun h hm hmem => h (ids_subset_of_child hm hmem)) (fun h => ?_) htask
    @fun id _ _ _ h hid => ?_
  · rcases h with h | h
    · exact h.loop
    · exact fun hmem => h (ids_subset_of_child (by simp [children]) hmem)
  · have heq : TaskId.sha256 id = TaskId.sha256 t := by simpa [pricedAt] using hid
    exact absurd (by simp [← heq]) h

/-- The task in a branch: nothing about it is stored but its result. -/
theorem conduct_branch : Conduct (tending (Aside n b t)) (errorOf t) (pricedAt t) b ex
    (Placed t fields true) (fun c => ∃ inBranch, Placed t fields inBranch c) (Tended (Aside n b t))
    (Tended (Aside n b t)) := by
  have hinside : ∀ {c m : WorkflowContinuation}, (∃ inBranch, Placed t fields inBranch c) →
      m ∈ c.children → ∃ inBranch, Placed t fields inBranch m := by
    rintro c m ⟨inBranch, h⟩ hm
    rcases h.child hm with hnot | ⟨b, hb, -⟩
    · exact ⟨true, .inl hnot⟩
    · exact ⟨b, hb⟩
  refine conduct_tended (concerns_aside b) (fun h hm => h.onward hm)
    (fun h hm => hinside ⟨true, h⟩ (by simp [children_eq, hm])) hinside (fun h => ?_)
    (fun input h hid => nomatch (h.task hid).1) @fun id f next input h hid => ?_
  · rcases h with h | ⟨inBranch, h⟩
    · exact h.loop
    · exact h.loop
  · obtain ⟨inBranch, h⟩ := h
    obtain ⟨-, rfl, rfl⟩ := h.task hid
    have hρ : Unmoved (tending (Aside n b id)).still := fun ho =>
      ⟨quiet_tending ho true, (quiet_tending ho true).2⟩
    rw [hpolicy]
    refine (costs_retryLoop (q := n + 1 ≤ b) hρ (costs_branchExecuteOrSkipTask (n := n) (b := b) hρ
      input _) hmax hn _ false nofun _).mono ?_ ?_ fun _ _ _ h => h
    · rintro g k s ⟨rfl, rfl, hg, hprog, hretry, hknown⟩
      refine ⟨rfl, hprog, le_rfl, ⟨proper_of_none hretry, hknown.imp_right fun hb => ?_⟩, hknown⟩
      rw [attemptsOf_of_none hretry]
      omega
    · rintro output g k s ⟨rfl, hprog, hs⟩
      exact ⟨rfl, rfl, hprog, hs⟩

end placements

variable {node inner : WorkflowContinuation → Prop}
  (hc : Conduct (tending good) (errorOf t) (pricedAt t) b ex node inner (Tended good) (Tended good))
  (hnode : node c) (hids : c.ids.Nodup)
include hc hnode hids

/-- The budget suffices for the one node that costs something. -/
theorem executeMain_tended (input : Bytes) :
    Costs (tending good) (errorOf t) (Has (Tended good) b) (executeMain ex codec c input)
      (fun _ => Has (Tended good) 0) AnyEnd := by
  refine (executeMain_uses hc codec c hnode input 0).drop ?_
  have hcount : c.ids.countP (pricedAt t) ≤ 1 := by
    have h := List.nodup_iff_count_le_one.mp hids (TaskId.sha256 t)
    rw [List.count] at h
    refine le_trans (le_of_eq (List.countP_congr fun i _ => ?_)) h
    simp [pricedAt]
  rw [Nat.zero_add, allowance]
  exact (Nat.mul_le_mul_right b hcount).trans_eq (Nat.one_mul b)

/-- **A new execution stays within the budget.** -/
theorem spends_run (hgood : Concerns t good) {instanceId : String}
    {definitionHash : DefinitionHash} {input : Bytes}
    (hs : good (initialSnapshot instanceId definitionHash input c.firstTaskHint)) :
    (run ex codec c instanceId definitionHash input).Spends (errorOf t) (tending good) true b
      fun _ _ _ => True :=
  run_spends (resuming_tended hgood) (executeMain_tended hc hnode hids) ⟨rfl, rfl, hs⟩
    (bearing_tended hgood)

/-- **A resumed execution stays within the budget.** -/
theorem spends_resume (hgood : Concerns t good) (definitionHash : DefinitionHash) :
    (resume ex codec c definitionHash).Spends (errorOf t) (tending good) false b
      fun _ _ _ => True :=
  resume_spends (resuming_tended hgood) (executeMain_tended hc hnode hids)
    (fun _ _ hr => ⟨hr.2.2, hr.1⟩) definitionHash

end executions

end Sayiir
