import Sayiir.Proof.Conduct

/-!
# The marker of the last completed task

A snapshot in progress or paused carries, next to the recorded results, a marker:
the id of the task that was recorded last. Resuming reads the result under that
id, so the marker must point at a recorded result.

Every operation on snapshots keeps this except one. `removeTaskResult`, with which
a loop forgets the results of its body, leaves the marker alone, and the marker
dangles if it pointed at the forgotten result (`pointerOk_apply_iff`). A loop does
exactly that on the main path: the body's task is the one recorded last.
-/

namespace Sayiir

open Relation (ReflTransGen)

variable {s : WorkflowSnapshot}

/-- The operations that the executors and the backend perform on a snapshot. -/
inductive SnapshotOp where
  | markTaskCompleted (taskId : TaskId) (output : Bytes)
  | removeTaskResult (taskId : TaskId)
  | updatePosition (position : ExecutionPosition)
  | setTaskHint (hint : TaskHint)
  | setTaskDeadline (taskId : TaskId) (timeout : Duration) (now : Time)
  | refreshTaskDeadline (now : Time)
  | clearTaskDeadline
  | recordRetry (taskId : TaskId) (policy : RetryPolicy) (error : RuntimeError)
      (workerId : Option String) (now : Time)
  | clearRetryState (taskId : TaskId)
  | setLoopIteration (loopId : TaskId) (iteration : Nat)
  | clearLoopIteration (loopId : TaskId)
  | markCompleted (finalOutput : Bytes)
  | markFailed (error : RuntimeError)
  | markPaused (request : SignalRequest)
  | markUnpaused
  | markCancelled (request : SignalRequest) (interruptedAtTask : Option TaskId)

namespace SnapshotOp

def apply : SnapshotOp → WorkflowSnapshot → WorkflowSnapshot
  | .markTaskCompleted taskId output, s => s.markTaskCompleted taskId output
  | .removeTaskResult taskId, s => s.removeTaskResult taskId
  | .updatePosition position, s => s.updatePosition position
  | .setTaskHint hint, s => s.setTaskHint hint
  | .setTaskDeadline taskId timeout now, s => s.setTaskDeadline taskId timeout now
  | .refreshTaskDeadline now, s => s.refreshTaskDeadline now
  | .clearTaskDeadline, s => s.clearTaskDeadline
  | .recordRetry taskId policy error workerId now, s =>
    (s.recordRetry taskId policy error workerId now).2
  | .clearRetryState taskId, s => s.clearRetryState taskId
  | .setLoopIteration loopId iteration, s => s.setLoopIteration loopId iteration
  | .clearLoopIteration loopId, s => s.clearLoopIteration loopId
  | .markCompleted finalOutput, s => s.markCompleted finalOutput
  | .markFailed error, s => s.markFailed error
  | .markPaused request, s => s.markPaused request
  | .markUnpaused, s => s.markUnpaused
  | .markCancelled request interruptedAtTask, s => s.markCancelled request interruptedAtTask

/-- The operation does not forget the result of a running instance that the
marker points at. -/
def SparesMarker : SnapshotOp → WorkflowSnapshot → Prop
  | .removeTaskResult taskId, s => s.isInProgress → s.lastCompletedTaskId ≠ some taskId
  | _, _ => True

end SnapshotOp

/-- The marker, if set, points at a recorded result. -/
def PointerOk (s : WorkflowSnapshot) : Prop :=
  ∀ taskId, s.lastCompletedTaskId = some taskId → s.getTaskResult taskId ≠ none

/-- While the instance runs or is paused, there are no results without a marker. -/
def MarkerSet (s : WorkflowSnapshot) : Prop :=
  match s.state with
  | .inProgress _ completed none | .paused _ _ completed _ none => completed = ∅
  | _ => True

section operations

variable {s : WorkflowSnapshot}

theorem pointerOk_markTaskCompleted (taskId : TaskId) (output : Bytes) (h : PointerOk s) :
    PointerOk (s.markTaskCompleted taskId output) := by
  intro t ht
  rw [WorkflowSnapshot.lastCompletedTaskId_markTaskCompleted] at ht
  rw [WorkflowSnapshot.getTaskResult_markTaskCompleted]
  split
  · simp
  · rename_i hcond
    split at ht
    · rename_i hp
      cases ht
      exact absurd ⟨hp, rfl⟩ hcond
    · exact h t ht

/-- Forgetting a result keeps the marker valid unless it points there. -/
theorem pointerOk_removeTaskResult_iff (taskId : TaskId) (h : PointerOk s) :
    PointerOk (s.removeTaskResult taskId)
      ↔ (s.isInProgress → s.lastCompletedTaskId ≠ some taskId) := by
  constructor
  · intro hok hp hm
    refine hok taskId (by simpa using hm) ?_
    rw [WorkflowSnapshot.getTaskResult_removeTaskResult, if_pos ⟨hp, rfl⟩]
  · intro hspare t ht
    rw [WorkflowSnapshot.lastCompletedTaskId_removeTaskResult] at ht
    rw [WorkflowSnapshot.getTaskResult_removeTaskResult]
    split
    · rename_i hcond
      exact absurd (hcond.2 ▸ ht) (hspare hcond.1)
    · exact h t ht

/-- A state without a marker satisfies the condition. -/
theorem pointerOk_of_none (h : s.lastCompletedTaskId = none) : PointerOk s := by
  intro t ht
  rw [h] at ht
  cases ht

/-- **The one operation that can break the marker.** From a snapshot whose marker
is valid, an operation leads to such a snapshot exactly if it spares the marker. -/
theorem pointerOk_apply_iff (op : SnapshotOp) (h : PointerOk s) :
    PointerOk (op.apply s) ↔ op.SparesMarker s := by
  cases op with
  | removeTaskResult taskId => exact pointerOk_removeTaskResult_iff taskId h
  | markTaskCompleted taskId output =>
    exact iff_of_true (pointerOk_markTaskCompleted taskId output h) trivial
  | markCompleted | markFailed | markCancelled =>
    exact iff_of_true (pointerOk_of_none rfl) trivial
  | updatePosition | markPaused | markUnpaused =>
    exact iff_of_true (by simpa [PointerOk, SnapshotOp.apply] using h) trivial
  | setTaskHint | setTaskDeadline | refreshTaskDeadline | clearTaskDeadline | recordRetry
  | clearRetryState | setLoopIteration | clearLoopIteration => exact iff_of_true h trivial

/-- Results appear only together with a marker, which nothing unsets. -/
theorem markerSet_apply (op : SnapshotOp) (h : MarkerSet s) : MarkerSet (op.apply s) := by
  cases op with
  | markTaskCompleted taskId output =>
    change MarkerSet (s.markTaskCompleted taskId output)
    unfold MarkerSet WorkflowSnapshot.markTaskCompleted at *
    cases hs : s.state <;> simp_all
  | removeTaskResult taskId =>
    change MarkerSet (s.removeTaskResult taskId)
    unfold MarkerSet WorkflowSnapshot.removeTaskResult at *
    cases hs : s.state with
    | inProgress position completed last =>
      cases last with
      | none =>
        rw [hs] at h
        subst h
        rfl
      | some t => trivial
    | _ => simp_all
  | updatePosition position =>
    change MarkerSet (s.updatePosition position)
    unfold MarkerSet WorkflowSnapshot.updatePosition at *
    cases hs : s.state with
    | inProgress old completed last => cases last <;> simp_all
    | _ => simp_all
  | markPaused request =>
    change MarkerSet (s.markPaused request)
    unfold MarkerSet WorkflowSnapshot.markPaused at *
    cases hs : s.state with
    | inProgress position completed last => cases last <;> simp_all
    | _ => simp_all
  | markUnpaused =>
    change MarkerSet s.markUnpaused
    unfold MarkerSet WorkflowSnapshot.markUnpaused at *
    cases hs : s.state with
    | paused reason pausedBy completed position last => cases last <;> simp_all
    | _ => simp_all
  | markCompleted | markFailed | markCancelled => trivial
  | setTaskHint | setTaskDeadline | refreshTaskDeadline | clearTaskDeadline | recordRetry
  | clearRetryState | setLoopIteration | clearLoopIteration => exact h

theorem initialInput_apply (op : SnapshotOp) : (op.apply s).initialInput = s.initialInput := by
  cases op with
  | markTaskCompleted taskId output => exact WorkflowSnapshot.initialInput_markTaskCompleted output
  | removeTaskResult taskId => exact WorkflowSnapshot.initialInput_removeTaskResult
  | updatePosition position => exact WorkflowSnapshot.initialInput_updatePosition position
  | markPaused request => exact WorkflowSnapshot.initialInput_markPaused request
  | markUnpaused => exact WorkflowSnapshot.initialInput_markUnpaused
  | _ => rfl

/-- An instance that has ended stays so. -/
theorem isTerminal_apply (op : SnapshotOp) (h : s.isTerminal) : (op.apply s).isTerminal := by
  unfold WorkflowSnapshot.isTerminal at h ⊢
  cases op with
  | markTaskCompleted | removeTaskResult | updatePosition | markPaused | markUnpaused =>
    cases hs : s.state <;> simp_all [SnapshotOp.apply, WorkflowSnapshot.markTaskCompleted,
      WorkflowSnapshot.removeTaskResult, WorkflowSnapshot.updatePosition,
      WorkflowSnapshot.markPaused, WorkflowSnapshot.markUnpaused]
  | markCompleted | markFailed | markCancelled => rfl
  | _ => exact h

end operations

/-- What determines the input of a resumed execution: a valid marker, or no result
at all and the initial input. -/
structure Resumable (s : WorkflowSnapshot) : Prop where
  pointer : PointerOk s
  marker : MarkerSet s
  input : s.initialInput ≠ none ∨ s.isTerminal

theorem Resumable.getResumeInput (h : Resumable s) (hp : s.isInProgress) :
    ∃ input, getResumeInput s = .ok input := by
  obtain ⟨position, completed, last, hs⟩ := WorkflowSnapshot.isInProgress_iff.mp hp
  have hnone : s.initialInput ≠ none := by
    refine h.input.resolve_right ?_
    simp [WorkflowSnapshot.isTerminal, hs]
  obtain ⟨input, hinput⟩ := Option.ne_none_iff_exists'.mp hnone
  unfold Sayiir.getResumeInput
  rw [hs]
  dsimp only
  split
  · exact ⟨input, by rw [hinput]⟩
  · rename_i hne
    cases last with
    | none =>
      have hempty := h.marker
      unfold MarkerSet at hempty
      rw [hs] at hempty
      subst hempty
      exact absurd rfl hne
    | some taskId =>
      have hres := h.pointer taskId (by simp [WorkflowSnapshot.lastCompletedTaskId, hs])
      obtain ⟨r, hr⟩ := Option.ne_none_iff_exists'.mp hres
      simp only [WorkflowSnapshot.getTaskResult, WorkflowSnapshot.getAllTaskResults, hs,
        Option.bind_some] at hr
      exact ⟨r.output, by simp [WorkflowSnapshot.getLastTaskOutput, hs, hr]⟩

theorem resumable_withInitialInput (instanceId : String) (hash : DefinitionHash)
    (input : Bytes) : Resumable (.withInitialInput instanceId hash input) where
  pointer := pointerOk_of_none rfl
  marker := rfl
  input := .inl (by simp [WorkflowSnapshot.withInitialInput])

theorem Resumable.apply (h : Resumable s) (op : SnapshotOp)
    (hop : op.SparesMarker s) : Resumable (op.apply s) :=
  ⟨(pointerOk_apply_iff op h.pointer).mpr hop, markerSet_apply op h.marker,
    h.input.imp (fun hi => (initialInput_apply op).symm ▸ hi) (isTerminal_apply op)⟩

/-- One operation that spares the marker. -/
def SparingStep (s s' : WorkflowSnapshot) : Prop :=
  ∃ op : SnapshotOp, op.SparesMarker s ∧ s' = op.apply s

theorem pointerOk_steps {s' : WorkflowSnapshot} (h : PointerOk s)
    (hr : ReflTransGen SparingStep s s') : PointerOk s' := by
  induction hr with
  | refl => exact h
  | tail _ hstep ih =>
    obtain ⟨op, hop, rfl⟩ := hstep
    exact (pointerOk_apply_iff op ih).mpr hop

theorem Resumable.steps {s' : WorkflowSnapshot} (h : Resumable s)
    (hr : ReflTransGen SparingStep s s') : Resumable s' := by
  induction hr with
  | refl => exact h
  | tail _ hstep ih =>
    obtain ⟨op, hop, rfl⟩ := hstep
    exact ih.apply op hop

/-! ## Workflows without loops -/

/-- The ids inside loop bodies of a part are among those of the whole. -/
theorem WorkflowContinuation.loopIds_subset (c : WorkflowContinuation) :
    ∀ n ∈ c.subtrees, n.loopIds ⊆ c.loopIds := by
  induction c using WorkflowContinuation.induct with
  | task id fields next ih | delay id duration next ih | awaitSignal id signalName timeout next ih =>
    intro n hn
    simp only [subtrees, List.mem_cons, mem_subtreesNext] at hn
    rcases hn with rfl | ⟨m, rfl, hm⟩
    · exact fun _ h => h
    · exact ih m rfl n hm
  | fork id branches join ihb ih =>
    intro n hn
    simp only [subtrees, List.mem_cons, List.mem_append, mem_subtreesBranches,
      mem_subtreesNext] at hn
    rcases hn with rfl | ⟨b, hb, hm⟩ | ⟨m, rfl, hm⟩
    · exact fun _ h => h
    · exact fun x hx => List.mem_append_left _ (mem_loopIdsBranches.mpr ⟨b, hb, ihb b hb n hm hx⟩)
    · exact fun x hx => List.mem_append_right _ (ih m rfl n hm hx)
  | branch id keyFn branches default next ihr ihd ih =>
    intro n hn
    simp only [subtrees, List.mem_cons, List.mem_append, mem_subtreesRoutes,
      mem_subtreesNext] at hn
    rcases hn with rfl | ⟨r, hr, hm⟩ | ⟨m, rfl, hm⟩ | ⟨m, rfl, hm⟩
    · exact fun _ h => h
    · exact fun x hx => List.mem_append_left _ (mem_loopIdsRoutes.mpr ⟨r, hr, ihr r hr n hm hx⟩)
    · exact fun x hx => List.mem_append_right _ (List.mem_append_left _ (ihd m rfl n hm hx))
    · exact fun x hx => List.mem_append_right _ (List.mem_append_right _ (ih m rfl n hm hx))
  | loop id body maxIterations onMax next ihb ih =>
    intro n hn
    simp only [subtrees, List.mem_cons, List.mem_append, mem_subtreesNext] at hn
    rcases hn with rfl | hm | ⟨m, rfl, hm⟩
    · exact fun _ h => h
    · exact fun x hx => List.mem_append_right _ (List.mem_append_left _ (ihb n hm hx))
    · exact fun x hx => List.mem_append_right _ (List.mem_append_right _ (ih m rfl n hm hx))
  | childWorkflow id child next ihc ih =>
    intro n hn
    simp only [subtrees, List.mem_cons, List.mem_append, mem_subtreesNext] at hn
    rcases hn with rfl | hm | ⟨m, rfl, hm⟩
    · exact fun _ h => h
    · exact fun x hx => List.mem_append_left _ (ihc n hm hx)
    · exact fun x hx => List.mem_append_right _ (ih m rfl n hm hx)

theorem not_mem_of_loopIds {c body : WorkflowContinuation} {id : String} {maxIterations : Nat}
    {onMax : MaxIterationsPolicy} {next : Option WorkflowContinuation} (hloops : c.loopIds = []) :
    .loop id body maxIterations onMax next ∉ c.subtrees := by
  intro hn
  have hsub := c.loopIds_subset _ hn
  rw [hloops, List.subset_nil, WorkflowContinuation.loopIds, List.append_eq_nil_iff] at hsub
  cases body <;> cases hsub.1

theorem Resumable.departs (h : Resumable s) (next : Option TaskId) (output : Bytes) :
    Departs (savingProtocol Resumable) (fun _ => Resumable) () next s output := by
  cases next with
  | none => exact h.apply (.markCompleted output) trivial
  | some t =>
    have hleft := h.apply (.updatePosition (.atTask t)) trivial
    exact ⟨hleft, fun _ _ _ => hleft⟩

/-- The stored snapshot, if there is one, satisfies `P`. -/
def Stored (P : WorkflowSnapshot → Prop) (w : World) : Prop := ∀ s, w.snapshot = some s → P s

/-- An operation stores what it is given or a changed version of what is stored. -/
theorem stored_handle (callbacks : Callbacks) {o : Op} {w : World} (hw : Stored Resumable w)
    (ho : (savingProtocol Resumable).allows () o) :
    Stored Resumable (Op.handle callbacks o w).2 := by
  cases o with
  | saveSnapshot s =>
    rintro _ ⟨⟩
    exact ho
  | saveTaskResult taskId output =>
    simp only [Op.handle]
    rcases w.saveTaskResult_cases taskId output with ⟨-, h⟩ | ⟨t, ht, h⟩
    · rwa [h]
    · rw [h]
      rintro _ ⟨⟩
      exact (hw t ht).apply (.markTaskCompleted taskId output) trivial
  | loadSnapshot =>
    simp only [Op.handle, World.loadSnapshot_snd]
    exact hw
  | checkAndCancel scope =>
    simp only [Op.handle]
    rcases w.checkAndCancel_cases scope with h | ⟨t, request, ht, -, -, h⟩
    · rwa [h]
    · rw [h]
      rintro _ ⟨⟩
      exact (hw t ht).apply (.markCancelled request scope) trivial
  | checkAndPause =>
    simp only [Op.handle]
    rcases w.checkAndPause_cases with h | ⟨t, request, ht, -, -, h⟩
    · rwa [h]
    · rw [h]
      rintro _ ⟨⟩
      exact (hw t ht).apply (.markPaused request) trivial
  | consumeEvent signalName =>
    simp only [Op.handle]
    rcases w.consumeEvent_cases signalName with ⟨-, h⟩ | ⟨payload, rest, -, h⟩
    · rwa [h]
    · rw [h]
      exact hw
  | raceTask id input deadline =>
    simp only [Op.handle]
    split <;> exact hw
  | _ => exact hw

theorem stored_env {w w' : World} (he : Env w w') (hw : Stored Resumable w) :
    Stored Resumable w' := by
  rcases he.cases with ⟨_, _, rfl⟩ | ⟨_, _, rfl⟩ | ⟨_, _, rfl⟩ | ⟨t, ht, rfl⟩
  · exact hw
  · exact hw
  · exact hw
  · rintro _ ⟨⟩
    exact (hw t ht).apply .markUnpaused trivial

/-- A load finds what is stored; of the other answers nothing is asked. -/
theorem next_handle (callbacks : Callbacks) (o : Op) {w : World} (hw : Stored Resumable w) :
    (savingProtocol Resumable).next () o (Op.handle callbacks o w).1 () := by
  cases o with
  | loadSnapshot =>
    cases hs : w.snapshot with
    | none => simp only [Op.handle, World.loadSnapshot, hs, savingProtocol]
    | some s =>
      simp only [Op.handle, World.loadSnapshot, hs, savingProtocol]
      exact hw s hs
  | _ => trivial

section runs

variable [Sha256]

theorem Resumable.onward (h : Resumable s) (ex : Executor)
    (next : Option WorkflowContinuation) : Resumable (ex.onward next s) := by
  cases next with
  | none => exact h
  | some n =>
    exact (h.apply (.updatePosition (.atTask (ex.nextHint n).id)) trivial).apply
      (.setTaskHint (ex.nextHint n)) trivial

theorem Resumable.park (h : Resumable s)
    (position : Option TaskId → ExecutionPosition) (next : Option WorkflowContinuation) :
    Resumable (parkAt position next s) :=
  (h.apply (.setTaskHint _) trivial).apply (.updatePosition _) trivial

omit [Sha256] in
theorem bearing_resumable :
    Bearing (savingProtocol Resumable) (fun _ => false) fun _ => Resumable :=
  bearing_saving (fun _ h => h) (fun _ _ h => ⟨h.pointer, h.marker, h.input⟩)
    (fun _ _ h => ⟨h.pointer, h.marker, h.input⟩)
    fun _ t output h => h.apply (.markTaskCompleted t output) trivial

theorem resuming_resumable : Resuming (savingProtocol Resumable) (fun _ _ => 0) (fun _ => false)
    (fun _ => Resumable) fun _ => Resumable where
  fair := fair_saving
  guards := guarded_saving
  quiet _ ho := ⟨quiet_saving ho, fun _ _ _ => rfl⟩
  load _ := trivial
  unparked h _ _ := h
  fork h _ := h
  delay h _ := h.departs _ _
  signal payload h _ := (h.apply (.markTaskCompleted _ payload) trivial).departs _ _
  complete output h := h.apply (.markCompleted output) trivial
  fail _ _ _ := ⟨pointerOk_of_none rfl, trivial, .inr rfl⟩

/-- Without loops nothing is ever forgotten, so every save spares the marker. -/
theorem conduct_resumable (ex : Executor) {c : WorkflowContinuation} (hloops : c.loopIds = []) :
    Conduct (savingProtocol Resumable) (fun _ _ => 0) (fun _ => false) 0 ex (· ∈ c.subtrees)
      (· ∈ c.subtrees) (fun _ => Resumable) fun _ => Resumable where
  fair := fair_saving
  guards := guarded_saving
  main := bearing_resumable
  branch _ := bearing_resumable.still _ fun _ _ => rfl
  load _ := ⟨⟨trivial, fun _ _ _ => rfl⟩, fun _ _ hs => hs⟩
  onward hn hm := WorkflowContinuation.child_mem_subtrees hn (by simp [WorkflowContinuation.children_eq, hm])
  aside hn hm := WorkflowContinuation.child_mem_subtrees hn (by simp [WorkflowContinuation.children_eq, hm])
  inside hn hm := WorkflowContinuation.child_mem_subtrees hn hm
  task _ _ := nofun
  innerTask _ _ := nofun
  advance _ h := h.onward ex _
  join taskId completed h := h.apply (.updatePosition (.atJoin taskId completed)) trivial
  parkDelay now wakeAt passthrough _ h :=
    (h.park _ _).apply (.markTaskCompleted _ passthrough) trivial
  parkSignal wakeAt _ h := h.park _ _
  parkFork forkId completed wakeAt h := h.apply (.updatePosition _) trivial
  loop hn := absurd hn (not_mem_of_loopIds hloops)
  innerLoop hn := absurd hn (not_mem_of_loopIds hloops)
  bodies _ := by simp [allowance]

/-- **The marker of a workflow without loops is always valid.** -/
theorem resumable_reachable {job : Job} (hloops : job.continuation.loopIds = [])
    {instanceId : String} {m : Job.State} (hr : job.Reachable instanceId m) :
    Stored Resumable m.world := by
  obtain ⟨now, hr⟩ := hr
  have hmain := executeMain_saving (conduct_resumable job.executor hloops)
    job.continuation.mem_subtrees_self job.codec
  have hstart : ∀ id : String, Resumable (initialSnapshot id job.definitionHash job.input
      job.continuation.firstTaskHint) := fun id =>
    ((resumable_withInitialInput id job.definitionHash job.input).apply (.updatePosition _)
      trivial).apply (.setTaskHint _) trivial
  have hfresh : Stored Resumable (World.fresh instanceId now) := by
    intro s hs
    cases hs
  have hlaunch : ∀ w p, job.Launch w p →
      p.Honours (savingProtocol Resumable) () := by
    intro w p hl
    cases hl with
    | run hnone =>
      exact run_spends resuming_resumable hmain (hstart _) bearing_resumable
    | resume hsome =>
      exact resume_spends resuming_resumable hmain (fun s _ hs => hs) job.definitionHash
  obtain ⟨_, hstored, -⟩ := Machine.reachable_honours (π := savingProtocol Resumable)
    (I := fun _ => Stored Resumable) (u := ()) hfresh (fun _ _ _ he hw => stored_env he hw)
    (fun _ _ o hw ho => ⟨(), stored_handle job.callbacks hw ho, next_handle job.callbacks o hw⟩)
    (fun _ w p hl hw => ⟨(), hw, hlaunch w p hl⟩) hr
  exact hstored

end runs

/-- **When the marker is valid.** As long as no operation forgets the result that
the marker points at, the marker of a running or paused instance points at a
recorded result, and the resume input of a running instance exists. No other
operation can break a valid marker, and the executors perform none that does on a
workflow without loops. -/
theorem marker_valid_of_sparing [Sha256] (instanceId : String) (hash : DefinitionHash)
    (input : Bytes) (s : WorkflowSnapshot) :
    (ReflTransGen SparingStep (.new instanceId hash) s → PointerOk s)
      ∧ (ReflTransGen SparingStep (.withInitialInput instanceId hash input) s →
          PointerOk s ∧ (s.isInProgress → ∃ resumeInput, getResumeInput s = .ok resumeInput))
      ∧ (PointerOk s → ∀ op : SnapshotOp, PointerOk (op.apply s) ↔ op.SparesMarker s)
      ∧ ∀ (job : Job) (m : Job.State), job.continuation.loopIds = [] →
          job.Reachable instanceId m → m.world.snapshot = some s →
          PointerOk s ∧ (s.isInProgress → ∃ resumeInput, getResumeInput s = .ok resumeInput) := by
  refine ⟨fun hr => ?_, fun hr => ?_, fun h op => pointerOk_apply_iff op h, ?_⟩
  · exact pointerOk_steps (pointerOk_of_none rfl) hr
  · have h := (resumable_withInitialInput instanceId hash input).steps hr
    exact ⟨h.pointer, h.getResumeInput⟩
  · intro job m hloops hr hs
    have h := resumable_reachable hloops hr s hs
    exact ⟨h.pointer, h.getResumeInput⟩

section sample

attribute [local instance] Sha256.packed

theorem marker_valid_after_first_task :
    let s := (WorkflowSnapshot.withInitialInput "i" ⟨0⟩ [7]).markTaskCompleted
      (TaskId.sha256 "t1") [1]
    PointerOk s ∧ ∃ resumeInput, getResumeInput s = .ok resumeInput := by
  have h := (marker_valid_of_sparing "i" ⟨0⟩ [7] _).2.1
    (.single ⟨.markTaskCompleted (TaskId.sha256 "t1") [1], trivial, rfl⟩)
  exact ⟨h.1, h.2 rfl⟩

/-- A task, then a loop whose body always answers `Again`. -/
def againJob : Job where
  executor := .callback
  codec := .plain
  callbacks := ⟨fun name input => .ok (if name = "body" then 0 :: input else input), fun _ _ => 1⟩
  continuation := .task "t1" .plain
    (some (.loop "loop" (.task "body" .plain none) 3 .exitWithLast none))
  definitionHash := ⟨0⟩
  input := [7]

/-- The first save of the loop's progress leaves the marker on the result that was
just forgotten. An instance killed there cannot be resumed any more. -/
theorem marker_dangles_after_again :
    ∃ m s, againJob.Reachable "i" m ∧ m.world.snapshot = some s ∧ s.isInProgress
      ∧ s.lastCompletedTaskId = some (TaskId.sha256 "body")
      ∧ s.getTaskResult (TaskId.sha256 "body") = none
      ∧ ¬ PointerOk s
      ∧ getResumeInput s = .error (.workflow (.resumeError "no task results available")) := by
  have h : ∃ w ∈ againJob.worlds "i", ∃ s ∈ w.snapshot, s.isInProgress
      ∧ s.lastCompletedTaskId = some (TaskId.sha256 "body")
      ∧ s.getTaskResult (TaskId.sha256 "body") = none
      ∧ getResumeInput s = .error (.workflow (.resumeError "no task results available")) := by
    decide
  obtain ⟨w, hw, s, hs, hprogress, hlast, hres, hinput⟩ := h
  exact ⟨_, s, Job.reachable_crash hw, hs, hprogress, hlast, hres,
    fun hok => hok _ hlast hres, hinput⟩

end sample

end Sayiir
