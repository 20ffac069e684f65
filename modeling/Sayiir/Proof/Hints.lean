import Sayiir.Proof.Alike
import Sayiir.Proof.Requests
import Sayiir.Proof.Routing

/-!
# Wakeup hints and polls

On Postgres a worker learns of work in two ways. It polls, or it is sent a hint that
names an instance and a task: it accepts the hint if it knows the workflow and has the
tags (`can_handle_hint`) and looks the task up (`find_hinted_task`). Both procedures
decide on their own what may be executed.

They differ in three points. The lookup does not wait for the backoff of a task that is
to be retried. It takes the tags from the hint, the poll takes them from the row. And to
the poll a worker without tags may take every task, while `can_handle_hint` lets it take
only tasks without tags. `Backend.misled` lists the states in which this shows.
-/

namespace Sayiir

open Backend PoolWorld WorkflowSnapshot

variable {task : AvailableTask}

/-- `can_handle_hint`, for a worker that knows the registered workflows. -/
def Worker.canHandleHint (worker : Worker) (registered : DefinitionHash → Bool)
    (hint : TaskWakeupHint) : Bool :=
  registered hint.definitionHash && hint.tags.all worker.tags.contains

namespace Backend

/-- The task a worker takes up on a hint: accept it, look it up, find the workflow. -/
def hintedTask (worker : Worker) (registered : DefinitionHash → Bool) (hint : TaskWakeupHint)
    (w : PoolWorld) : Option AvailableTask :=
  if worker.canHandleHint registered hint then
    (postgres.findHintedTask hint.taskId w).filter fun task =>
      registered task.workflowDefinitionHash
  else none

/-- The task of the instance a worker takes up from an unbounded poll. -/
def polledTask (worker : Worker) (registered : DefinitionHash → Bool) (w : PoolWorld) :
    Option AvailableTask :=
  (pollPostgres worker.tags w).1.filter fun task => registered task.workflowDefinitionHash

/-- The hint carries what is stored of the task. -/
def describes (hint : TaskWakeupHint) (s : WorkflowSnapshot) : Bool :=
  decide (hint.definitionHash = s.definitionHash) && decide (hint.tags = s.taskTags)

/-- A hint leads this worker to no task that a poll would keep from it, and a hint for a
task that a poll would give it is not skipped. -/
structure HintsAgree (worker : Worker) (registered : DefinitionHash → Bool)
    (hint : TaskWakeupHint) (w : PoolWorld) : Prop where
  obtained : ∀ task, hintedTask worker registered hint w = some task →
    polledTask worker registered w = some task
  accepted : ∀ s task, Postgres.loadSnapshot w = some s →
    polledTask worker registered w = some task →
    hint.taskId = task.taskId → describes hint s = true →
    worker.canHandleHint registered hint = true

/-- To a worker without tags the poll offers a task with tags, whose hint it skips. -/
def skips (worker : Worker) (hint : TaskWakeupHint) (s : WorkflowSnapshot) : Bool :=
  describes hint s && worker.tags.isEmpty && !s.taskTags.isEmpty

/-- The states in which a hint and a poll do not lead to the same: at a task that may be
executed and is given out in its backoff or against the tags of the row, or at such a
task or a delay in front of it if the hint for it is skipped. -/
def misled (worker : Worker) (registered : DefinitionHash → Bool) (hint : TaskWakeupHint)
    (w : PoolWorld) : Bool :=
  match Postgres.loadSnapshot w with
  | none => false
  | some s => registered s.definitionHash && eligible w
      && s.hasInput && match s.state with
        | .inProgress (.atTask t) completed _ =>
          decide (hint.taskId = t) && (completed.lookup t).isNone
            && if s.inBackoff t w.clock || !tagsMatch worker.tags s then
              worker.canHandleHint registered hint
            else skips worker hint s
        | .inProgress (.atDelay _ _ wakeAt next) _ _ =>
          decide (wakeAt ≤ w.clock) && decide (next = some hint.taskId) && skips worker hint s
        | _ => false

/-! ## The two procedures on what a reader gets -/

section procedures

variable {w : PoolWorld} {s : WorkflowSnapshot} {t delayId : TaskId} {enteredAt wakeAt : Time}
  {next last : Option TaskId} {completed : CompletedTasks} {tags : List String}

theorem findHintedTask_eq (hs : Postgres.loadSnapshot w = some s) (t : TaskId) :
    postgres.findHintedTask t w
      = if s.currentTaskId = some t && eligible w && (s.getTaskResult t).isNone then
          buildAvailableTask s t
        else none := by
  obtain ⟨blob, hblob, rfl⟩ := Option.map_eq_some_iff.mp hs
  unfold findHintedTask
  rw [hblob]

theorem pollPostgres_none (hs : Postgres.loadSnapshot w = none) :
    (pollPostgres tags w).1 = none := by
  have hblob : w.snapshot = none := Option.map_eq_none_iff.mp hs
  rw [pollPostgres, selectRow, hblob]
  rfl

variable (tags) in
/-- The query hands out the row if it is to be dispatched at all. -/
theorem selectRow_loaded (hs : Postgres.loadSnapshot w = some s) :
    ∃ blob, blob.hydrateTaskOutputs w.outputs = s ∧ selectRow tags w
      = if eligible w && tagsMatch tags s && dispatchable w.clock s then some blob else none := by
  obtain ⟨blob, hblob, hhyd⟩ := Option.map_eq_some_iff.mp hs
  exact ⟨blob, hhyd, selectRow_eq tags hblob hhyd⟩

variable (tags) in
theorem pollPostgres_atTask (hs : Postgres.loadSnapshot w = some s)
    (hst : s.state = .inProgress (.atTask t) completed last) :
    (pollPostgres tags w).1
      = if eligible w && tagsMatch tags s && (completed.lookup t).isNone
          && !s.inBackoff t w.clock then buildAvailableTask s t else none := by
  obtain ⟨blob, hhyd, hrow⟩ := selectRow_loaded tags hs
  have hdue : dispatchable w.clock s = true := by rw [dispatchable, hst]
  rw [hdue, Bool.and_true] at hrow
  rw [pollPostgres, hrow]
  cases hopen : eligible w && tagsMatch tags s with
  | false => simp
  | true =>
    have hdispatch : Submission.dispatchRow w.clock s
        = if (completed.lookup t).isSome || s.inBackoff t w.clock then .done
          else (buildAvailableTask s t).elim .done .offered := by
      simp only [Submission.dispatchRow, hst]
      cases buildAvailableTask s t <;> rfl
    simp only [if_true, Bool.true_and, hhyd, hdispatch]
    cases hdone : (completed.lookup t).isSome || s.inBackoff t w.clock with
    | true =>
      have : ((completed.lookup t).isNone && !s.inBackoff t w.clock) = false := by
        cases hc : completed.lookup t <;> simp_all
      simp [this]
    | false =>
      have : ((completed.lookup t).isNone && !s.inBackoff t w.clock) = true := by
        cases hc : completed.lookup t <;> simp_all
      cases buildAvailableTask s t <;> simp [this]

variable (tags) in
theorem pollPostgres_atDelay (hs : Postgres.loadSnapshot w = some s)
    (hst : s.state = .inProgress (.atDelay delayId enteredAt wakeAt next) completed last) :
    (pollPostgres tags w).1
      = if eligible w && tagsMatch tags s && decide (wakeAt ≤ w.clock) then
          next.bind fun t => buildAvailableTask
            (postgres.afterSave (s.updatePosition (.atTask t))) t
        else none := by
  obtain ⟨blob, hhyd, hrow⟩ := selectRow_loaded tags hs
  have hdue : dispatchable w.clock s = decide (wakeAt ≤ w.clock) := by rw [dispatchable, hst]
  rw [hdue] at hrow
  rw [pollPostgres, hrow]
  cases hopen : eligible w && tagsMatch tags s && decide (wakeAt ≤ w.clock) with
  | false => simp
  | true =>
    have hwake : wakeAt ≤ w.clock := of_decide_eq_true (Bool.and_eq_true_iff.mp hopen).2
    simp only [if_true, hhyd, Submission.dispatchRow_atDelay hst hwake]
    cases next <;> rfl

theorem pollPostgres_idle (hs : Postgres.loadSnapshot w = some s)
    (hdue : dispatchable w.clock s = false) : (pollPostgres tags w).1 = none := by
  obtain ⟨blob, -, hrow⟩ := selectRow_loaded tags hs
  rw [pollPostgres, hrow, hdue, Bool.and_false]
  rfl

theorem buildAvailableTask_fields (h : buildAvailableTask s t = some task) :
    task.taskId = t ∧ task.workflowDefinitionHash = s.definitionHash := by
  unfold buildAvailableTask at h
  split at h
  · obtain ⟨input, -, rfl⟩ := Option.map_eq_some_iff.mp h
    exact ⟨rfl, rfl⟩
  · cases h

/-- Whether a snapshot has an input to offer does not depend on where it is. -/
theorem hasInput_afterSave_updatePosition (hst : s.isInProgress) (position : ExecutionPosition) :
    (postgres.afterSave (s.updatePosition position)).hasInput = s.hasInput := by
  obtain ⟨p, completed, last, hs⟩ := isInProgress_iff.mp hst
  simp [afterSave, clearUnflushed, updatePosition, hs,
    hasInput, getLastTaskOutput]

end procedures

/-! ## Agreement -/

section agreement

variable {worker : Worker} {registered : DefinitionHash → Bool} {hint : TaskWakeupHint}
  {w : PoolWorld} {s : WorkflowSnapshot} {t delayId : TaskId} {enteredAt wakeAt : Time}
  {next last : Option TaskId} {completed : CompletedTasks}

/-- A worker that the poll would let have the task skips the right hint for it only if
it has no tags and the task has some. -/
theorem skips_eq_false_iff (hr : registered s.definitionHash = true)
    (hm : tagsMatch worker.tags s = true) :
    skips worker hint s = false
      ↔ (describes hint s = true → worker.canHandleHint registered hint = true) := by
  unfold skips
  cases hd : describes hint s with
  | false => simp
  | true =>
    obtain ⟨hhash, htags⟩ : hint.definitionHash = s.definitionHash ∧ hint.tags = s.taskTags := by
      simpa [describes] using hd
    rw [Worker.canHandleHint, hhash, htags, hr]
    cases hw : worker.tags with
    | nil => cases s.taskTags <;> simp
    | cons tag tags =>
      rw [tagsMatch, hw] at hm
      simpa using hm

/-- A task is taken up on a hint only from an instance that is at this task. -/
theorem hintedTask_eq_some (hs : Postgres.loadSnapshot w = some s) :
    hintedTask worker registered hint w = some task
      ↔ worker.canHandleHint registered hint = true ∧ registered s.definitionHash = true
        ∧ s.currentTaskId = some hint.taskId ∧ eligible w = true
        ∧ s.getTaskResult hint.taskId = none ∧ buildAvailableTask s hint.taskId = some task := by
  rw [hintedTask, findHintedTask_eq hs]
  constructor
  · intro h
    split at h
    · rename_i ha
      obtain ⟨h, hr⟩ := Option.filter_eq_some_iff.mp h
      split at h
      · rename_i hopen
        simp only [Bool.and_eq_true, decide_eq_true_eq, Option.isNone_iff_eq_none] at hopen
        rw [(buildAvailableTask_fields h).2] at hr
        exact ⟨ha, hr, hopen.1.1, hopen.1.2, hopen.2, h⟩
      · cases h
    · cases h
  · rintro ⟨ha, hr, hcur, he, hn, h⟩
    rw [← (buildAvailableTask_fields h).2] at hr
    simp [ha, hcur, he, hn, h, hr]

variable (worker registered) in
theorem polledTask_atTask (hs : Postgres.loadSnapshot w = some s)
    (hst : s.state = .inProgress (.atTask t) completed last) :
    polledTask worker registered w = some task
      ↔ registered s.definitionHash = true ∧ eligible w = true ∧ tagsMatch worker.tags s = true
        ∧ completed.lookup t = none ∧ s.inBackoff t w.clock = false
        ∧ buildAvailableTask s t = some task := by
  rw [polledTask, pollPostgres_atTask worker.tags hs hst]
  constructor
  · intro h
    obtain ⟨h, hr⟩ := Option.filter_eq_some_iff.mp h
    split at h
    · rename_i hopen
      simp only [Bool.and_eq_true, Bool.not_eq_true', Option.isNone_iff_eq_none] at hopen
      rw [(buildAvailableTask_fields h).2] at hr
      exact ⟨hr, hopen.1.1.1, hopen.1.1.2, hopen.1.2, hopen.2, h⟩
    · cases h
  · rintro ⟨hr, he, hm, hn, hk, h⟩
    rw [← (buildAvailableTask_fields h).2] at hr
    simp [he, hm, hn, hk, h, hr]

variable (worker registered) in
theorem polledTask_atDelay (hs : Postgres.loadSnapshot w = some s)
    (hst : s.state = .inProgress (.atDelay delayId enteredAt wakeAt next) completed last) :
    polledTask worker registered w = some task
      ↔ registered s.definitionHash = true ∧ eligible w = true ∧ tagsMatch worker.tags s = true
        ∧ wakeAt ≤ w.clock ∧ next = some task.taskId
        ∧ buildAvailableTask (postgres.afterSave (s.updatePosition (.atTask task.taskId)))
            task.taskId = some task := by
  have hhash : ∀ t, (postgres.afterSave (s.updatePosition (.atTask t))).definitionHash
      = s.definitionHash := by
    intro t
    simp [afterSave, clearUnflushed, updatePosition, hst]
  rw [polledTask, pollPostgres_atDelay worker.tags hs hst]
  constructor
  · intro h
    obtain ⟨h, hr⟩ := Option.filter_eq_some_iff.mp h
    split at h
    · rename_i hopen
      simp only [Bool.and_eq_true, decide_eq_true_eq] at hopen
      obtain ⟨t, rfl, h⟩ := Option.bind_eq_some_iff.mp h
      obtain ⟨rfl, hfields⟩ := buildAvailableTask_fields h
      rw [hfields, hhash] at hr
      exact ⟨hr, hopen.1.1, hopen.1.2, hopen.2, rfl, h⟩
    · cases h
  · rintro ⟨hr, he, hm, hwake, hnext, h⟩
    rw [← hhash task.taskId, ← (buildAvailableTask_fields h).2] at hr
    simp [he, hm, hwake, hnext, h, hr]

/-- Hints and polls at a task. -/
theorem hintsAgree_atTask (hs : Postgres.loadSnapshot w = some s)
    (hst : s.state = .inProgress (.atTask t) completed last) :
    HintsAgree worker registered hint w ↔ misled worker registered hint w = false := by
  have hcur : s.currentTaskId = some t := by simp [currentTaskId, hst]
  have hres : ∀ u, s.getTaskResult u = completed.lookup u := by
    simp [getTaskResult, getAllTaskResults, hst]
  have hmisled : misled worker registered hint w = true
      ↔ (registered s.definitionHash = true ∧ eligible w = true ∧ s.hasInput = true
          ∧ hint.taskId = t ∧ completed.lookup t = none)
        ∧ (if s.inBackoff t w.clock || !tagsMatch worker.tags s then
            worker.canHandleHint registered hint else skips worker hint s) = true := by
    simp only [misled, hs, hst, Bool.and_eq_true, decide_eq_true_eq, Option.isNone_iff_eq_none]
    tauto
  rw [← Bool.not_eq_true, hmisled]
  constructor
  · rintro hagree ⟨⟨hr, he, hi, rfl, hn⟩, hcase⟩
    obtain ⟨task, hbuild⟩ : ∃ task, buildAvailableTask s hint.taskId = some task :=
      Option.isSome_iff_exists.mp (isSome_buildAvailableTask.trans hi)
    split at hcase
    · -- given out although the poll would not
      rename_i hheld
      have hgiven := hagree.obtained task ((hintedTask_eq_some hs).mpr
        ⟨hcase, hr, hcur, he, (hres _).trans hn, hbuild⟩)
      obtain ⟨-, -, hm, -, hk, -⟩ := (polledTask_atTask worker registered hs hst).mp hgiven
      simp [hm, hk] at hheld
    · -- skipped although the poll would offer it
      rename_i hheld
      simp only [Bool.or_eq_true, Bool.not_eq_true', not_or, Bool.not_eq_true,
        Bool.not_eq_false] at hheld
      have hpolled := (polledTask_atTask worker registered hs hst).mpr
        ⟨hr, he, hheld.2, hn, hheld.1, hbuild⟩
      have hskip := (skips_eq_false_iff hr hheld.2).mpr fun hd =>
        hagree.accepted s task hs hpolled (buildAvailableTask_fields hbuild).1.symm hd
      rw [hskip] at hcase
      cases hcase
  · intro hfine
    refine ⟨fun task htask => ?_, fun s' task hs' htask ht hd => ?_⟩
    · obtain ⟨ha, hr, ht, he, hn, hbuild⟩ := (hintedTask_eq_some hs).mp htask
      obtain rfl : t = hint.taskId := Option.some.inj (hcur.symm.trans ht)
      have hi : s.hasInput = true := by
        rw [← isSome_buildAvailableTask (t := hint.taskId), hbuild]
        rfl
      have hnot : (s.inBackoff hint.taskId w.clock || !tagsMatch worker.tags s) = false := by
        by_contra hheld
        rw [Bool.not_eq_false] at hheld
        exact hfine ⟨⟨hr, he, hi, rfl, (hres _).symm.trans hn⟩, by rw [hheld]; exact ha⟩
      simp only [Bool.or_eq_false_iff, Bool.not_eq_false'] at hnot
      exact (polledTask_atTask worker registered hs hst).mpr
        ⟨hr, he, hnot.2, (hres _).symm.trans hn, hnot.1, hbuild⟩
    · obtain rfl : s = s' := Option.some.inj (hs.symm.trans hs')
      obtain ⟨hr, he, hm, hn, hk, hbuild⟩ := (polledTask_atTask worker registered hs hst).mp htask
      have hi : s.hasInput = true := by
        rw [← isSome_buildAvailableTask (t := t), hbuild]
        rfl
      have hskip : skips worker hint s = false := by
        by_contra hskip
        rw [Bool.not_eq_false] at hskip
        exact hfine ⟨⟨hr, he, hi, ht.trans (buildAvailableTask_fields hbuild).1, hn⟩,
          by simp [hk, hm, hskip]⟩
      exact (skips_eq_false_iff hr hm).mp hskip hd

/-- Hints and polls at a delay. -/
theorem hintsAgree_atDelay (hs : Postgres.loadSnapshot w = some s)
    (hst : s.state = .inProgress (.atDelay delayId enteredAt wakeAt next) completed last) :
    HintsAgree worker registered hint w ↔ misled worker registered hint w = false := by
  have hrun : s.isInProgress = true := by simp [isInProgress, hst]
  have hmisled : misled worker registered hint w = true
      ↔ registered s.definitionHash = true ∧ eligible w = true ∧ s.hasInput = true
        ∧ wakeAt ≤ w.clock ∧ next = some hint.taskId ∧ skips worker hint s = true := by
    simp only [misled, hs, hst, Bool.and_eq_true, decide_eq_true_eq]
    tauto
  have hinput : ∀ u, (buildAvailableTask (postgres.afterSave (s.updatePosition (.atTask u)))
      u).isSome = s.hasInput := fun u =>
    isSome_buildAvailableTask.trans (hasInput_afterSave_updatePosition hrun _)
  rw [← Bool.not_eq_true, hmisled]
  constructor
  · rintro hagree ⟨hr, he, hi, hwake, hnext, hskip⟩
    obtain ⟨task, hbuild⟩ := Option.isSome_iff_exists.mp ((hinput hint.taskId).trans hi)
    have ht := (buildAvailableTask_fields hbuild).1
    -- only a worker without tags can skip it, and such a worker matches every row
    have hm : tagsMatch worker.tags s = true := by
      simp only [skips, Bool.and_eq_true] at hskip
      simp [tagsMatch, hskip.1.2]
    have hpolled := (polledTask_atDelay worker registered hs hst).mpr
      ⟨hr, he, hm, hwake, hnext.trans (congrArg some ht.symm), by rw [ht]; exact hbuild⟩
    have hnot := (skips_eq_false_iff hr hm).mpr fun hd =>
      hagree.accepted s task hs hpolled ht.symm hd
    rw [hnot] at hskip
    cases hskip
  · intro hfine
    refine ⟨fun task htask => ?_, fun s' task hs' htask ht hd => ?_⟩
    · obtain ⟨-, -, hcur, -⟩ := (hintedTask_eq_some hs).mp htask
      simp [currentTaskId, hst] at hcur
    · obtain rfl : s = s' := Option.some.inj (hs.symm.trans hs')
      obtain ⟨hr, he, hm, hwake, hnext, hbuild⟩ :=
        (polledTask_atDelay worker registered hs hst).mp htask
      have hi : s.hasInput = true := by
        rw [← hinput task.taskId, hbuild]
        rfl
      have hskip : skips worker hint s = false := by
        by_contra hskip
        rw [Bool.not_eq_false] at hskip
        exact hfine ⟨hr, he, hi, hwake, hnext.trans (congrArg some ht.symm), hskip⟩
      exact (skips_eq_false_iff hr hm).mp hskip hd

/-- Where nothing is dispatched, hints and polls agree. -/
theorem hintsAgree_idle (hs : Postgres.loadSnapshot w = some s) (hcur : s.currentTaskId = none)
    (hdue : dispatchable w.clock s = false) : HintsAgree worker registered hint w := by
  refine ⟨fun task htask => ?_, fun s' task hs' htask => ?_⟩
  · obtain ⟨-, -, ht, -⟩ := (hintedTask_eq_some hs).mp htask
    rw [hcur] at ht
    cases ht
  · rw [polledTask, pollPostgres_idle hs hdue] at htask
    cases htask

/-- **Hints and polls agree except in the listed states**: for every stored state, worker,
set of registered workflows and hint, what the worker takes up on the hint is what it
would take up from a poll, and it does not skip the hint for what it would take up,
exactly if the state is not one of those listed. -/
theorem hints_agree_with_polls_iff (worker : Worker) (registered : DefinitionHash → Bool)
    (hint : TaskWakeupHint) (w : PoolWorld) :
    HintsAgree worker registered hint w ↔ misled worker registered hint w = false := by
  cases hs : Postgres.loadSnapshot w with
  | none =>
    have hblob : w.snapshot = none := Option.map_eq_none_iff.mp hs
    have hfine : misled worker registered hint w = false := by rw [misled, hs]
    refine ⟨fun _ => hfine, fun _ => ⟨fun task htask => ?_, fun s _ hs' _ _ _ => ?_⟩⟩
    · simp [hintedTask, findHintedTask, hblob] at htask
    · cases hs.symm.trans hs'
  | some s =>
    have hidle : s.currentTaskId = none → dispatchable w.clock s = false →
        misled worker registered hint w = false →
        (HintsAgree worker registered hint w ↔ misled worker registered hint w = false) :=
      fun hcur hdue hfine => ⟨fun _ => hfine, fun _ => hintsAgree_idle hs hcur hdue⟩
    cases hst : s.state with
    | inProgress position completed last =>
      cases position with
      | atTask t => exact hintsAgree_atTask hs hst
      | atDelay delayId enteredAt wakeAt next => exact hintsAgree_atDelay hs hst
      | _ =>
        exact hidle (by simp [currentTaskId, hst])
          (by simp [dispatchable, hst]) (by simp [misled, hs, hst])
    | _ =>
      exact hidle (by simp [currentTaskId, hst])
        (by simp [dispatchable, hst]) (by simp [misled, hs, hst])

end agreement

section sample

attribute [local instance] Sha256.packed

/-- An instance that has just been submitted, with these tags of its first task. -/
def submittedWith (tags : List String) (now : Time) : PoolWorld where
  toWorld := { World.fresh "i" now with
    snapshot := some (initialSnapshot "i" ⟨0⟩ [1] ⟨TaskId.sha256 "t1", none, tags⟩) }
  claims := []
  outputs := fun _ => none

/-- The same after its task has failed at time 0 and is to be retried after 10 seconds. -/
def retriedLater (now : Time) : PoolWorld :=
  { submittedWith [] now with
    snapshot := some ((initialSnapshot "i" ⟨0⟩ [1] ⟨TaskId.sha256 "t1", none, []⟩).recordRetry
      (TaskId.sha256 "t1") ⟨3, Duration.fromMillis 10000, 1, none⟩ (.task (.other "failed")) none
      0).2 }

/-- **A hint ends a backoff, and a worker without tags skips hints**: a task to be retried
at second 10 is taken up on a hint at second 1, when a poll does not offer it; and a
worker without tags, to which a poll offers the task tagged `gpu`, skips the hint for
it. -/
theorem hints_differ_from_polls :
    (hintedTask (sampleWorker "a") (fun _ => true) ⟨TaskId.sha256 "t1", ⟨0⟩, []⟩
        (retriedLater 1000000000)).isSome = true
      ∧ polledTask (sampleWorker "a") (fun _ => true) (retriedLater 1000000000) = none
      ∧ (polledTask (sampleWorker "a") (fun _ => true) (submittedWith ["gpu"] 0)).isSome = true
      ∧ (sampleWorker "a").canHandleHint (fun _ => true) ⟨TaskId.sha256 "t1", ⟨0⟩, ["gpu"]⟩
        = false := by
  decide +kernel

end sample

end Backend

end Sayiir
