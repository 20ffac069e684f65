import Sayiir.Proof.Conduct
import Sayiir.Proof.Dispatch
import Sayiir.Runtime.Crew

/-!
# Where tasks are sent

A snapshot carries the priority and the tags of the task it is at next to the
position, and the backends route by them. Most of what moves an instance sets both:
a wait is entered with the hint of the task that follows it, so that whoever leaves
the wait has only the position to change. `Routed` says that the two agree.

The second half of an in-memory poll is the exception. It moves whatever is stored by
then to the task it has found before, and the hint stays that of another task. Apart
from that the hints are right, whoever works on the instance: pooled workers, or
executions in process.
-/

namespace Sayiir

open Backend Exec WorkflowSnapshot Submission

variable {task : AvailableTask} {ex : Executor} {next : Option WorkflowContinuation}
  {job : Submission} {s : WorkflowSnapshot}

/-- The task an instance goes to from here, with the hint it is dispatched by. -/
def WorkflowSnapshot.route (s : WorkflowSnapshot) : Option TaskHint :=
  (s.position.bind ExecutionPosition.target).map fun t => ⟨t, s.taskPriority, s.taskTags⟩

namespace WorkflowSnapshot

variable {s s' : WorkflowSnapshot} {taskId : TaskId}

theorem route_congr (hp : s'.position = s.position) (hpriority : s'.taskPriority = s.taskPriority)
    (htags : s'.taskTags = s.taskTags) : s'.route = s.route := by
  simp only [route, hp, hpriority, htags]

theorem route_of_position_none (hp : s.position = none) : s.route = none := by
  simp [route, hp]

theorem route_setTaskHint (hint : TaskHint) : (s.setTaskHint hint).route
    = (s.position.bind ExecutionPosition.target).map fun t => ⟨t, hint.priority, hint.tags⟩ := rfl

@[simp] theorem route_markTaskCompleted (output : Bytes) :
    (s.markTaskCompleted taskId output).route = s.route := by
  unfold markTaskCompleted
  split
  · rename_i hs
    exact route_congr (by simp [position, hs]) rfl rfl
  · rfl

@[simp] theorem route_removeTaskResult : (s.removeTaskResult taskId).route = s.route := by
  unfold removeTaskResult
  split
  · rename_i hs
    exact route_congr (by simp [position, hs]) rfl rfl
  · rfl

@[simp] theorem taskTags_mapOutputs (f : TaskId → Bytes → Bytes) :
    (s.mapOutputs f).taskTags = s.taskTags := by
  unfold mapOutputs
  split <;> rfl

@[simp] theorem route_mapOutputs (f : TaskId → Bytes → Bytes) :
    (s.mapOutputs f).route = s.route := by
  refine route_congr (by simp) ?_ (taskTags_mapOutputs f)
  unfold mapOutputs
  split <;> rfl

@[simp] theorem route_markPaused (request : SignalRequest) :
    (s.markPaused request).route = s.route := by
  refine route_congr (by simp) ?_ ?_
  · unfold markPaused
    split <;> rfl
  · unfold markPaused
    split <;> rfl

@[simp] theorem route_markUnpaused : s.markUnpaused.route = s.route := by
  refine route_congr (by simp) ?_ ?_
  · unfold markUnpaused
    split <;> rfl
  · unfold markUnpaused
    split <;> rfl

@[simp] theorem route_clearBodyTasks [Sha256] (body : WorkflowContinuation) :
    (clearBodyTasks body s).route = s.route := by
  unfold clearBodyTasks
  induction body.ids generalizing s with
  | nil => rfl
  | cons t ts ih => rw [List.foldl_cons, ih, route_removeTaskResult]

/-- A moved snapshot goes where its new position says. -/
theorem route_updatePosition (position : ExecutionPosition) :
    (s.updatePosition position).route = if s.isInProgress then
      position.target.map fun t => ⟨t, s.taskPriority, s.taskTags⟩ else s.route := by
  unfold updatePosition isInProgress
  split
  · simp [route, WorkflowSnapshot.position]
  · rename_i hs
    cases hst : s.state with
    | inProgress position completed last => exact absurd hst (hs _ _ _)
    | _ => rfl

end WorkflowSnapshot

section stores

variable {b : Backend} {w : PoolWorld} {s : WorkflowSnapshot}

@[simp] theorem route_stored : (b.stored s).route = s.route := by
  cases b
  · rfl
  · exact route_mapOutputs _

@[simp] theorem route_view : (b.view w s).route = s.route := by
  cases b
  · rfl
  · exact route_mapOutputs _

@[simp] theorem route_afterSave : (b.afterSave s).route = s.route := by
  cases b <;> rfl

end stores

section hashed

variable [Sha256]

/-! ## What the definition says -/

namespace WorkflowContinuation

/-- The hint says about its task what the definition says. -/
def Describes (c : WorkflowContinuation) (hint : TaskHint) : Prop :=
  ∀ id fields next, .task id fields next ∈ c.subtrees → TaskId.sha256 id = hint.id →
    hint.priority = fields.priority ∧ hint.tags = fields.tags

/-- No task bears the name that stands for the first task of a fork without branches. -/
def NamesForks (c : WorkflowContinuation) : Prop :=
  ∀ id join, .fork id [] join ∈ c.subtrees → TaskId.sha256 "unknown" ∉ c.taskDigests

variable {c n m : WorkflowContinuation}

/-- The index has the metadata of every task. -/
theorem indexed_task {id : String} {fields : TaskFields}
    (hc : c.ids.Nodup) (ht : .task id fields next ∈ c.subtrees) :
    c.indexed (TaskId.sha256 id)
      = some ⟨id, fields.timeout, fields.priority, fields.tags, fields.retryPolicy,
          fields.version⟩ := by
  obtain ⟨m, hm⟩ := Option.isSome_iff_exists.mp (indexed_isSome ht rfl)
  change c.indexed (TaskId.sha256 id) = some m at hm
  obtain ⟨n, hn, hmeta⟩ := List.mem_filterMap.mp (List.mem_reverse.mp (List.mem_of_find?_eq_some hm))
  have hname : TaskId.sha256 m.name = TaskId.sha256 id := by
    simpa using List.find?_some hm
  have hid : n.id = m.name := by
    cases n <;> cases hmeta <;> rfl
  obtain rfl : n = .task id fields next := eq_of_digest hc hn ht (hid ▸ hname)
  rw [hm, ← hmeta]
  rfl

/-- The hint of the first task of a node is right: it names a task, or a node that is
none, or it is the placeholder of a fork without branches. -/
theorem describes_firstTaskHint (hc : c.ids.Nodup) (hf : c.NamesForks) (hn : n ∈ c.subtrees) :
    c.Describes n.firstTaskHint := by
  -- a node that is no task shares its digest with no task
  have hother : ∀ m ∈ c.subtrees, m.isTask = false → ∀ priority tags,
      c.Describes ⟨TaskId.sha256 m.id, priority, tags⟩ := by
    intro m hm hm' priority tags id fields next ht hid
    rw [← eq_of_digest hc ht hm hid] at hm'
    cases hm'
  induction n using WorkflowContinuation.induct with
  | task id fields next ih =>
    intro id' fields' next' ht hid
    cases eq_of_digest hc ht hn hid
    exact ⟨rfl, rfl⟩
  | delay id duration next ih => exact hother _ hn rfl _ _
  | awaitSignal id signalName timeout next ih => exact hother _ hn rfl _ _
  | branch id keyFn branches default next ihb ihd ihn => exact hother _ hn rfl _ _
  | fork id branches join ihb ihj =>
    cases branches with
    | nil =>
      intro id' fields' next' ht hid
      have hmem : TaskId.sha256 id' ∈ c.taskDigests := mem_taskDigests ht rfl
      rw [hid] at hmem
      exact absurd hmem (hf id join hn)
    | cons b bs =>
      refine ihb b (by simp) (subtrees_subset hn ?_)
      simp only [subtrees, subtreesBranches, List.mem_cons, List.mem_append]
      exact .inr (.inl (.inl b.mem_subtrees_self))
  | loop id body maxIterations onMax next ihb ihn =>
    refine ihb (subtrees_subset hn ?_)
    simp only [subtrees, List.mem_cons, List.mem_append]
    exact .inr (.inl body.mem_subtrees_self)
  | childWorkflow id child next ihc ihn =>
    refine ihc (subtrees_subset hn ?_)
    simp only [subtrees, List.mem_cons, List.mem_append]
    exact .inr (.inl child.mem_subtrees_self)

end WorkflowContinuation

/-- The instance goes to a task by the hint of that task. -/
def Routed (c : WorkflowContinuation) (s : WorkflowSnapshot) : Prop :=
  ∀ hint, s.route = some hint → c.Describes hint

/-- An instance in progress that goes to a task by the hint of that task. -/
def OnRoute (c : WorkflowContinuation) (s : WorkflowSnapshot) : Prop :=
  s.isInProgress ∧ Routed c s

section snapshots

variable {c : WorkflowContinuation} {s s' : WorkflowSnapshot}

theorem Routed.congr (h : Routed c s) (hr : s'.route = s.route) : Routed c s' := by
  unfold Routed at h ⊢
  rwa [hr]

theorem routed_of_none (hr : s.route = none) : Routed c s := by
  intro hint h
  rw [hr] at h
  cases h

theorem routed_of_position_none (hp : s.position = none) : Routed c s :=
  routed_of_none (route_of_position_none hp)

theorem OnRoute.congr (h : OnRoute c s) (hp : s'.isInProgress = s.isInProgress)
    (hr : s'.route = s.route) : OnRoute c s' := ⟨hp ▸ h.1, h.2.congr hr⟩

/-- The instance leaves a wait for the task it has been parked for. -/
theorem Routed.leave (h : Routed c s) {t : TaskId}
    (ht : s.isInProgress → s.position.bind ExecutionPosition.target = some t) :
    Routed c (s.updatePosition (.atTask t)) := by
  refine h.congr ?_
  rw [route_updatePosition]
  split
  · rename_i hp
    simp only [WorkflowSnapshot.route, ht hp, ExecutionPosition.target, Option.map_some]
  · rfl

/-- An instance that is moved to where it goes to no task is not routed anywhere. -/
theorem Routed.untargeted (h : Routed c s) {position : ExecutionPosition}
    (hp : position.target = none) : Routed c (s.updatePosition position) := by
  intro hint hr
  rw [route_updatePosition, hp] at hr
  split at hr
  · cases hr
  · exact h hint hr

theorem OnRoute.untargeted (h : OnRoute c s) {position : ExecutionPosition}
    (hp : position.target = none) : OnRoute c (s.updatePosition position) :=
  ⟨by simpa using h.1, h.2.untargeted hp⟩

/-- Moving to a task together with its hint. -/
theorem OnRoute.goTo (h : OnRoute c s) {hint : TaskHint} (hd : c.Describes hint) :
    OnRoute c ((s.updatePosition (.atTask hint.id)).setTaskHint hint) := by
  obtain ⟨hp, -⟩ := h
  refine ⟨by simpa using hp, fun hint' hr => ?_⟩
  have hpos : (s.updatePosition (.atTask hint.id)).position = some (.atTask hint.id) := by
    rw [position_updatePosition, if_pos hp]
  have hroute : ((s.updatePosition (.atTask hint.id)).setTaskHint hint).route = some hint := by
    rw [route_setTaskHint, hpos]
    rfl
  obtain rfl : hint = hint' := Option.some.inj (hroute.symm.trans hr)
  exact hd

/-- Parking with the hint of what follows. -/
theorem OnRoute.park (h : OnRoute c s) {position : Option TaskId → ExecutionPosition}
    (hpos : ∀ next, (position next).target = next)
    (hd : ∀ n, next = some n → c.Describes n.firstTaskHint) :
    OnRoute c (parkAt position next s) := by
  obtain ⟨hp, -⟩ := h
  refine ⟨by simpa [parkAt] using hp, fun hint hr => ?_⟩
  unfold parkAt at hr
  rw [route_updatePosition, if_pos (by simpa using hp), hpos] at hr
  cases next with
  | none => cases hr
  | some n =>
    obtain rfl : n.firstTaskHint = hint := Option.some.inj hr
    exact hd n rfl

theorem OnRoute.onward (h : OnRoute c s)
    (hd : ∀ n, next = some n → c.Describes (ex.nextHint n)) : OnRoute c (ex.onward next s) := by
  cases next with
  | none => exact h
  | some n => exact h.goTo (hd n rfl)

variable {n : WorkflowContinuation}

/-- A worker enters a node with the right hint. -/
theorem onRoute_setPositionAt (now : Time) (hc : c.ids.Nodup) (hf : c.NamesForks)
    (hn : n ∈ c.subtrees) : Preserves (OnRoute c) (n.setPositionAt now) := by
  have hhint : ∀ m ∈ n.subtrees, c.Describes m.firstTaskHint := fun m hm =>
    WorkflowContinuation.describes_firstTaskHint hc hf (WorkflowContinuation.subtrees_subset hn hm)
  intro s s' h hs
  unfold WorkflowContinuation.setPositionAt at h
  split at h
  · rename_i id duration next
    obtain ⟨wakeAt, -, h⟩ := Except.bind_eq_ok_iff.mp h
    cases h
    have hpark : OnRoute c (parkAt (.atDelay (TaskId.sha256 id) now wakeAt) next s) := by
      refine hs.park (fun _ => rfl) fun m hm => hhint m ?_
      simp [WorkflowContinuation.subtrees, hm, WorkflowContinuation.subtreesNext,
        WorkflowContinuation.mem_subtrees_self]
    exact hpark.congr (by simp [parkAt]) (by simp [parkAt])
  · rename_i id signalName timeout next
    cases h
    change OnRoute c (parkAt (.atSignal (TaskId.sha256 id) signalName
      (WorkflowContinuation.signalTimeoutAfter now timeout)) next s)
    refine hs.park (fun _ => rfl) fun m hm => hhint m ?_
    simp [WorkflowContinuation.subtrees, hm, WorkflowContinuation.subtreesNext,
      WorkflowContinuation.mem_subtrees_self]
  · cases h
    exact hs.goTo (hhint n n.mem_subtrees_self)

end snapshots

/-! ## Executions in process -/

section executions

variable {c : WorkflowContinuation}

theorem describes_nextHint (hex : ex ∈ job.executors)
    (hc : job.continuation.ids.Nodup) (hf : job.continuation.NamesForks)
    {n : WorkflowContinuation} (hn : n ∈ job.continuation.subtrees) :
    job.continuation.Describes (ex.nextHint n) := by
  simp only [executors, List.mem_cons, List.not_mem_nil, or_false] at hex
  rcases hex with rfl | rfl
  · exact WorkflowContinuation.describes_firstTaskHint hc hf hn
  · intro id fields next ht hid
    have hindex := WorkflowContinuation.indexed_task hc ht
    rw [hid] at hindex
    change job.continuation.indexed (TaskId.sha256 n.firstTaskId) = _ at hindex
    simp only [Executor.nextHint, runnerIndex, hindex, Option.bind_some, Option.map_some,
      Option.getD_some, and_self]

theorem bearing_routed : Bearing (savingProtocol (Routed c)) (fun _ => false) fun _ => Routed c :=
  bearing_saving (fun _ h => h) (fun _ _ h => h.congr rfl) (fun _ _ h => h.congr rfl)
    fun _ _ _ h => h.congr (by simp)

theorem bearing_onRoute : Bearing (savingProtocol (Routed c)) (fun _ => false) fun _ => OnRoute c :=
  bearing_saving (fun _ h => h.2) (fun _ _ h => h.congr rfl rfl) (fun _ _ h => h.congr rfl rfl)
    fun _ _ _ h => h.congr (by simp) (by simp)

/-- **The executors keep to the routing protocol** on the nodes of the workflow. -/
theorem conduct_routing (hex : ex ∈ job.executors)
    (hc : job.continuation.ids.Nodup) (hf : job.continuation.NamesForks) :
    Conduct (savingProtocol (Routed job.continuation)) (fun _ _ => 0) (fun _ => false) 0 ex
      (· ∈ job.continuation.subtrees) (· ∈ job.continuation.subtrees)
      (fun _ => OnRoute job.continuation) fun _ => Routed job.continuation where
  fair := fair_saving
  guards := guarded_saving
  main := bearing_onRoute
  branch _ := bearing_routed.still _ fun _ _ => rfl
  load _ := ⟨⟨trivial, fun _ _ _ => rfl⟩, fun _ _ hs => hs⟩
  onward hn hm := WorkflowContinuation.child_mem_subtrees hn (by simp [WorkflowContinuation.children_eq, hm])
  aside hn hm := WorkflowContinuation.child_mem_subtrees hn (by simp [WorkflowContinuation.children_eq, hm])
  inside hn hm := WorkflowContinuation.child_mem_subtrees hn hm
  task _ _ := nofun
  innerTask _ _ := nofun
  advance hn h := h.onward fun m hm => by
    obtain rfl : _ = m := Option.some.inj hm
    exact describes_nextHint hex hc hf hn
  join taskId completed h := h.untargeted rfl
  parkDelay now wakeAt passthrough hn h := by
    refine Routed.congr (OnRoute.park h (fun _ => rfl) fun m hm => ?_).2 (route_markTaskCompleted _)
    exact WorkflowContinuation.describes_firstTaskHint hc hf
      (WorkflowContinuation.child_mem_subtrees hn (by simp [WorkflowContinuation.children, hm]))
  parkSignal wakeAt hn h := by
    refine (OnRoute.park h (fun _ => rfl) fun m hm => ?_).2
    exact WorkflowContinuation.describes_firstTaskHint hc hf
      (WorkflowContinuation.child_mem_subtrees hn (by simp [WorkflowContinuation.children, hm]))
  parkFork forkId completed wakeAt h := h.untargeted rfl
  loop _ := {
    body := fun h => h.congr (isInProgress_clearBodyTasks _ _) (route_clearBodyTasks _)
    exit := fun h => h.congr rfl rfl
    next := fun _ h => h.congr rfl rfl
    track := fun _ _ h => h.untargeted rfl }
  innerLoop _ := {
    body := fun h => ⟨h.1, h.2.congr (route_clearBodyTasks _)⟩
    exit := fun h => ⟨h.1, h.2.congr rfl⟩
    next := fun _ h => ⟨h.1, h.2.congr rfl⟩
    track := nofun }
  bodies _ := by simp [allowance]

omit [Sha256] in
/-- A parked instance goes where its wait says. -/
theorem extract_delay_eq {wakeAt : Time} {delayId : TaskId}
    {next : Option TaskId} (h : ResumeParkedPosition.extract s = .delay wakeAt delayId next) :
    s.isInProgress ∧ s.position.bind ExecutionPosition.target = next := by
  unfold ResumeParkedPosition.extract at h
  split at h <;> cases h
  rename_i hs
  simp [isInProgress, WorkflowSnapshot.position, hs, ExecutionPosition.target]

omit [Sha256] in
theorem extract_signal_eq {signalId : TaskId} {signalName : String}
    {wakeAt : Option Time} {next : Option TaskId}
    (h : ResumeParkedPosition.extract s = .signal signalId signalName wakeAt next) :
    s.isInProgress ∧ s.position.bind ExecutionPosition.target = next := by
  unfold ResumeParkedPosition.extract at h
  split at h <;> cases h
  rename_i hs
  simp [isInProgress, WorkflowSnapshot.position, hs, ExecutionPosition.target]

/-- Leaving a wait keeps to the protocol. -/
theorem departs_routing {next : Option TaskId} (output : Bytes)
    (hs : OnRoute c s) (hnext : s.position.bind ExecutionPosition.target = next) :
    Departs (savingProtocol (Routed c)) (fun _ => OnRoute c) () next s output := by
  cases next with
  | none => exact routed_of_position_none rfl
  | some t =>
    have hleft := hs.2.leave fun _ => hnext
    exact ⟨hleft, fun _ _ _ => ⟨by simpa using hs.1, hleft⟩⟩

/-- What is loaded is resumed by the routing protocol. -/
theorem resuming_routing (c : WorkflowContinuation) :
    Resuming (savingProtocol (Routed c)) (fun _ _ => 0) (fun _ => false) (fun _ => OnRoute c)
      fun _ => Routed c where
  fair := fair_saving
  guards := guarded_saving
  quiet _ ho := ⟨quiet_saving ho, fun _ _ _ => rfl⟩
  load _ := trivial
  unparked h hp _ := ⟨hp, h⟩
  fork h hx := ⟨ResumeParkedPosition.isInProgress_of_extract (by simp [hx]), h⟩
  delay h hx := departs_routing _ ⟨(extract_delay_eq hx).1, h⟩ (extract_delay_eq hx).2
  signal payload h hx := by
    refine departs_routing payload ⟨?_, h.congr (by simp)⟩ ?_
    · simpa using (extract_signal_eq hx).1
    · simpa using (extract_signal_eq hx).2
  complete _ _ := routed_of_position_none rfl
  fail _ _ _ := routed_of_position_none rfl

/-- The first snapshot is routed to the first task. -/
theorem onRoute_initialSnapshot (instanceId : String) (definitionHash : DefinitionHash)
    (input : Bytes) (hc : c.ids.Nodup) (hf : c.NamesForks) :
    OnRoute c (initialSnapshot instanceId definitionHash input c.firstTaskHint) := by
  refine OnRoute.goTo ⟨rfl, routed_of_none rfl⟩ ?_
  exact WorkflowContinuation.describes_firstTaskHint hc hf c.mem_subtrees_self

/-- **Whatever is launched keeps to the routing protocol.** -/
theorem launch_routing (hex : ex ∈ job.executors)
    (hc : job.continuation.ids.Nodup) (hf : job.continuation.NamesForks) (w : PoolWorld) :
    (job.launch ex w).Honours (savingProtocol (Routed job.continuation)) () := by
  have hmain := executeMain_saving (conduct_routing hex hc hf)
    job.continuation.mem_subtrees_self job.codec
  have hresume := resuming_routing job.continuation
  unfold launch
  split
  · have hinit := onRoute_initialSnapshot w.instanceId job.definitionHash job.input hc hf
    exact run_spends hresume hmain hinit bearing_onRoute
  · exact resume_spends hresume hmain (fun s _ hs => hs) job.definitionHash

end executions

/-! ## Workers -/

/-- The worker bears every tag of the task. -/
def Suits (c : WorkflowContinuation) (worker : Worker) (taskId : TaskId) : Prop :=
  worker.tags ≠ [] → ∀ id fields next, .task id fields next ∈ c.subtrees →
    TaskId.sha256 id = taskId → ∀ tag ∈ fields.tags, tag ∈ worker.tags

/-- What a process holds is routed, and what it is offered suits its worker. -/
def Phase.Sends (c : WorkflowContinuation) (worker : Worker) : Phase → Prop
  | .hydrating blob => Routed c blob ∧ PoolWorld.tagsMatch worker.tags blob
  | .waking s next => Routed c s ∧ PoolWorld.tagsMatch worker.tags s
      ∧ ∀ t, next = some t → s.position.bind ExecutionPosition.target = some t
  | .offered task => Suits c worker task.taskId ∧ OnRoute c task.snapshot
  | .guarding task _ | .executing task | .running task _ _ _ => OnRoute c task.snapshot
  | .retrying _ s | .failing _ s | .committing _ s _ | .draining _ s _ | .drained _ s _
  | .handingBack _ s _ | .concluding s _ _ | .completing s => Routed c s
  | .resolving saves result _ => (∀ s ∈ saves, Routed c s) ∧ ∀ s, result = .ok s → Routed c s
  | .polling | .collecting | .advancing _ | .selecting | .releasing _ | .cancelling _
  | .cancelled .. | .done => True

/-- The stored snapshot is routed. -/
def StoredRouted (c : WorkflowContinuation) (w : PoolWorld) : Prop :=
  ∀ s, w.snapshot = some s → Routed c s

section workers

variable {c : WorkflowContinuation} {s : WorkflowSnapshot} {worker : Worker}

/-- What is offered by the tags of a routed snapshot suits the worker. -/
theorem suits_of_tagsMatch {t : TaskId} (hs : Routed c s)
    (htags : PoolWorld.tagsMatch worker.tags s)
    (ht : s.position.bind ExecutionPosition.target = some t) : Suits c worker t := by
  intro hne id fields next hmem hid tag htag
  have hdesc := hs ⟨t, s.taskPriority, s.taskTags⟩ (by simp [WorkflowSnapshot.route, ht])
  rw [← (hdesc id fields next hmem hid).2] at htag
  simp only [PoolWorld.tagsMatch, List.isEmpty_iff, hne, List.all_eq_true, Bool.or_eq_true,
    false_or, List.contains_iff_mem] at htags
  exact htags tag htag

theorem Routed.leaveDrained (payload : Bytes) (h : Routed c s) :
    Routed c (Submission.leaveDrained payload s) := by
  unfold Submission.leaveDrained
  split
  · rename_i signalId signalName wakeAt next completed last hs
    dsimp only
    split
    · refine Routed.leave (h.congr (by simp)) fun _ => ?_
      rw [position_markTaskCompleted]
      simp [WorkflowSnapshot.position, hs, ExecutionPosition.target]
    · exact routed_of_position_none rfl
  · exact h

/-- What is left of a poll in memory is offered to a worker it suits. -/
theorem sends_selectTask {w : PoolWorld} (hw : StoredRouted c w)
    (h : selectTask worker.tags w = some task) : (Phase.offered task).Sends c worker := by
  unfold selectTask at h
  split at h
  · rename_i s hs _
    split at h
    · rename_i t completed last hst
      split at h
      · cases h
      · rename_i hcond
        obtain ⟨rfl, rfl, hp, -⟩ := buildAvailableTask_eq_some h
        simp only [Bool.or_eq_true, Bool.not_eq_true', not_or, Bool.not_eq_false] at hcond
        refine ⟨suits_of_tagsMatch (hw _ hs) hcond.2 ?_, hp, hw _ hs⟩
        simp [WorkflowSnapshot.position, hst, ExecutionPosition.target]
    · cases h
  · cases h

/-- What Postgres does with a row that suits the worker. -/
theorem sends_dispatchRow (now : Time) (h : Routed c s)
    (htags : PoolWorld.tagsMatch worker.tags s) :
    (dispatchRow now s).Sends c worker := by
  refine dispatchRow_of trivial (fun _ _ _ next _ _ hs => ?_) fun t _ _ task hs _ htask => ?_
  · cases next with
    | some t =>
      refine ⟨h.leave fun _ => ?_, ?_, fun u hu => ?_⟩
      · simp [WorkflowSnapshot.position, hs, ExecutionPosition.target]
      · simpa [PoolWorld.tagsMatch, updatePosition, hs] using htags
      · simpa [WorkflowSnapshot.position, updatePosition, hs, ExecutionPosition.target] using hu
    | none => exact ⟨routed_of_position_none rfl, htags, by simp⟩
  · obtain ⟨rfl, rfl, hp, -⟩ := buildAvailableTask_eq_some htask
    refine ⟨suits_of_tagsMatch h htags ?_, hp, h⟩
    simp [WorkflowSnapshot.position, hs, ExecutionPosition.target]

theorem routed_resolveLoops {b : Backend} {codec : EnvelopeCodec} (n : WorkflowContinuation)
    (h : Routed c s) : (n.resolveLoops b codec s).All (Routed c) := by
  have hsave : ∀ {s}, Routed c s → (Saving.save b s).All (Routed c) :=
    fun hs => Saving.all_save hs (hs.congr route_afterSave)
  refine all_resolveLoops n (fun cfg s hs => ?_) h
  unfold WorkflowContinuation.resolveLoop
  dsimp only
  split
  · split
    · exact ⟨by simp, by simp⟩
    · exact hsave (hs.congr (route_markTaskCompleted _))
    · exact hsave (hs.congr (route_clearBodyTasks cfg.body))
  · exact Saving.all_ok hs

theorem sends_resolve {saves : List WorkflowSnapshot}
    {result : Except RuntimeError WorkflowSnapshot} (output : Bytes)
    (hs : ∀ s ∈ saves, Routed c s) (hr : ∀ s, result = .ok s → Routed c s) :
    (resolve saves result output).Sends c worker :=
  resolve_of trivial (fun s _ h => hr s h) fun _ => ⟨hs, hr⟩

variable {job : Submission} {w w' : PoolWorld} {phase phase' : Phase}

theorem onRoute_commitSnapshot {output : Bytes} {now : Time}
    (hc : job.continuation.ids.Nodup) (hf : job.continuation.NamesForks)
    (h : job.commitSnapshot task output now = .ok s)
    (ht : OnRoute job.continuation task.snapshot) : OnRoute job.continuation s := by
  refine preserves_updatePositionAfterTask job.continuation (fun n hn => ?_) _ s h ?_
  · exact onRoute_setPositionAt now hc hf hn
  · exact ht.congr (by simp) (by rw [route_markTaskCompleted]; rfl)

theorem sends_settleFailure (e : RuntimeError) (now : Time)
    (h : Routed c task.snapshot) : (job.settleFailure worker task e now).Sends c worker :=
  settleFailure_of (routed_of_position_none rfl) fun _ => h.congr (route_congr (by simp) rfl rfl)

/-- **A step of a process keeps its routes.** -/
theorem sends_moves (hc : job.continuation.ids.Nodup) (hf : job.continuation.NamesForks)
    (hm : Moves job worker w w' phase phase') (hw : StoredRouted job.continuation w)
    (hp : phase.Sends job.continuation worker) : phase'.Sends job.continuation worker := by
  cases hm with
  | stop | collecting | collected | advanced | advancing | stopped | cancelling | retried | failed
  | checked | cancelled => trivial
  | hydrating blob hb h =>
    unfold selectRow at h
    obtain ⟨hs, hcond⟩ := Option.filter_eq_some_iff.mp h
    simp only [Bool.and_eq_true] at hcond
    exact ⟨hw blob hs, hcond.1.2⟩
  | selected task h => exact sends_selectTask hw h
  | hydrated blob =>
    refine sends_dispatchRow _ (hp.1.congr (route_mapOutputs _)) ?_
    simpa [PoolWorld.tagsMatch, hydrateTaskOutputs] using hp.2
  | woke s next task h =>
    obtain ⟨hs, htags, ht⟩ := hp
    obtain ⟨hts, rfl, hprog, -⟩ := buildAvailableTask_eq_some h
    refine ⟨suits_of_tagsMatch hs htags (ht _ rfl), hts ▸ ⟨hprog, hs.congr route_afterSave⟩⟩
  | claimed => exact hp.2
  | guarding | passed | lost | raised | called | beaten => exact hp
  | unready task e => exact sends_settleFailure e _ hp.2
  | interrupted task outcome deadline failures e => exact sends_settleFailure e _ hp.2
  | settled =>
    exact settle_of trivial (fun e => sends_settleFailure e _ hp.2)
      fun _ s _ hs => (onRoute_commitSnapshot hc hf hs hp).2
  | committed | drained =>
    exact drain_of (fun _ => Routed.congr hp route_afterSave) (Routed.congr hp route_afterSave)
  | undrained => exact hp
  | draining task s output payload => exact Routed.leaveDrained payload hp
  | handedBack task s output =>
    obtain ⟨hsaves, hresult⟩ := routed_resolveLoops job.continuation hp
    exact sends_resolve output hsaves hresult
  | resolved s saves result output =>
    exact sends_resolve output (fun t ht => hp.1 t (by simp [ht])) hp.2
  | unresolved result output => exact sends_resolve output (by simp) hp.2
  | concluding => exact hp
  | concluded s output => exact conclude_of trivial fun _ => routed_of_position_none rfl

theorem Phase.Sends.toStore (h : phase.Sends c worker) (hs : phase.toStore = some s) :
    Routed c s := by
  cases phase with
  | waking s' next =>
    obtain rfl : s' = s := by simpa [Phase.toStore] using hs
    exact h.1
  | resolving saves result output =>
    cases saves with
    | nil => cases hs
    | cons s' saves =>
      obtain rfl : s' = s := by simpa [Phase.toStore] using hs
      exact h.1 s' (by simp)
  | committing task s' output | retrying task s' | failing task s' | drained task s' output
  | completing s' =>
    obtain rfl : s' = s := by simpa [Phase.toStore] using hs
    exact h
  | _ => cases hs

end workers

/-! ## What is stored -/

/-- An instance in progress is at the task `t` or at a wait that leads to it. -/
def headedFor (t : TaskId) (s : WorkflowSnapshot) : Bool :=
  !s.isInProgress || decide (s.position.bind ExecutionPosition.target = some t)

/-- A poll that moves an instance on finds it headed for the task it moves it to. -/
def AdvanceFits : Action → Pool → Bool
  | .work i choice, σ => !choice.applies || (σ.processes[i]?).all fun p => match p.phase with
      | .advancing advance => advance.next.all fun t => σ.world.snapshot.all (headedFor t)
      | _ => true
  | _, _ => true

section stores

variable {job : Submission} {worker : Worker} {w w' : PoolWorld} {phase : Phase}
  {c : WorkflowContinuation}

/-- An instance that is moved to where it is headed is routed. -/
theorem routed_applyAdvance {advance : Advance} (hw : StoredRouted c w)
    (hfits : ∀ t s, advance.next = some t → w.snapshot = some s → headedFor t s) :
    StoredRouted c (applyAdvance advance w) := by
  have hmove : ∀ t s, advance.next = some t → w.snapshot = some s → s.isInProgress →
      s.position.bind ExecutionPosition.target = some t := by
    intro t s hnext hs hp
    simpa [headedFor, hp] using hfits t s hnext hs
  -- the two signal advances leave the wait in the same way
  have hsignal : ∀ name payload next s, advance.next = next → w.snapshot = some s →
      Routed c (World.leaveSignal name payload next s) := by
    intro name payload next s hnext hs
    cases next with
    | none => exact routed_of_position_none rfl
    | some t =>
      refine Routed.leave ((hw s hs).congr (by simp)) fun hp => ?_
      rw [position_markTaskCompleted]
      exact hmove t s hnext hs (by simpa using hp)
  intro s' hs'
  cases advance with
  | delay next =>
    obtain ⟨s, hs, rfl⟩ := Option.map_eq_some_iff.mp hs'
    exact (hw s hs).leave (hmove next s rfl hs)
  | delayDone delayId =>
    obtain ⟨s, hs, rfl⟩ := Option.map_eq_some_iff.mp hs'
    exact routed_of_position_none rfl
  | signal signalId signalName next =>
    obtain ⟨s, hs, rfl⟩ := Option.map_eq_some_iff.mp hs'
    exact hsignal _ _ next s rfl hs
  | signalTimeout signalId signalName next =>
    obtain ⟨s, hs, rfl⟩ := Option.map_eq_some_iff.mp hs'
    exact hsignal _ _ next s rfl hs

theorem routed_writes (h : Writes job worker phase w w') (hw : StoredRouted c w)
    (hp : phase.Sends c worker)
    (hadvance : ∀ advance, phase = .advancing advance → StoredRouted c w') :
    StoredRouted c w' := by
  intro s hs
  cases h.stores with
  | kept h => exact hw s (h.symm.trans hs)
  | saved s' h' _ h =>
    obtain rfl : _ = s := Option.some.inj (h.symm.trans hs)
    exact (hp.toStore h').congr route_stored
  | advanced advance h' hw' => exact hadvance advance h' s hs
  | cancelled s' request taskId hs' _ h =>
    obtain rfl : _ = s := Option.some.inj (h.symm.trans hs)
    exact routed_of_position_none rfl
  | paused s' request hs' _ h =>
    obtain rfl : _ = s := Option.some.inj (h.symm.trans hs)
    exact (hw s' hs').congr (route_markPaused request)

theorem routed_asks {a : Action} (h : Asks job a w w') (hw : StoredRouted c w) :
    StoredRouted c w' := by
  intro s hs
  cases h.delivers with
  | kept h => exact hw s (h.symm.trans hs)
  | received s' signalId signalName payload wakeAt next completed last hb hs' hst hw' =>
    subst hw'
    obtain rfl : _ = s := Option.some.inj hs
    refine Routed.congr ?_ route_stored
    cases next with
    | none => exact routed_of_position_none rfl
    | some t =>
      refine Routed.leave ((hw s' hs').congr (by simp)) fun _ => ?_
      rw [position_markTaskCompleted]
      simp [WorkflowSnapshot.position, hst, ExecutionPosition.target]
  | unpaused s' hs' hw' =>
    subst hw'
    obtain rfl : _ = s := Option.some.inj hs
    exact (hw s' hs').congr route_markUnpaused

/-- A hinted lookup offers the task it looks up. -/
theorem sends_findHintedTask {b : Backend} {hint : TaskId} (hw : StoredRouted c w)
    (hsuits : Suits c worker hint) :
    (offer (b.findHintedTask hint w)).Sends c worker := by
  unfold findHintedTask
  split
  · rename_i s hs
    dsimp only
    split
    · cases hb : PoolWorld.buildAvailableTask (s.hydrateTaskOutputs w.outputs) hint with
      | none => trivial
      | some task =>
        obtain ⟨hts, rfl, hp, -⟩ := buildAvailableTask_eq_some hb
        refine ⟨hsuits, hts ▸ ⟨hp, (hw s hs).congr ?_⟩⟩
        exact route_mapOutputs _
    · trivial
  · trivial

/-- A poll advances what it has found by its call, or not at all. -/
theorem phaseStep_advancing (choice : Choice) (advance : Advance) :
    (job.phaseStep worker choice (.advancing advance) w).2
      = if choice.applies then applyAdvance advance w else w := by
  cases choice with
  | proceed => rfl
  | lost applied => cases applied <;> rfl
  | raise e => rfl
  | heartbeat readFails extendFails => rfl

/-- What the pool does keeps the routes, apart from a hinted lookup of a task that does
not suit the worker. -/
theorem sends_step (hc : job.continuation.ids.Nodup) (hf : job.continuation.NamesForks)
    {a : Action} {σ : Pool} (hfits : AdvanceFits a σ)
    (hσ : StoredRouted job.continuation σ.world
      ∧ ∀ p ∈ σ.processes, p.phase.Sends job.continuation p.worker)
    (hhint : ∀ worker hint, a = .hinted worker hint → Suits job.continuation worker hint) :
    StoredRouted job.continuation (job.step a σ).world
      ∧ ∀ p ∈ (job.step a σ).processes, p.phase.Sends job.continuation p.worker := by
  refine step_invariant (P := fun _ p => p.phase.Sends job.continuation p.worker) hσ
    (fun worker _ => trivial) ?_ (fun p _ => trivial)
    (fun w' ha => ⟨routed_asks ha hσ.1, fun p hp => hp⟩) ?_
  · exact fun worker hint ha => sends_findHintedTask hσ.1 (hhint worker hint ha)
  · intro i choice p phase' w' ha hi hp hwrites hmoves heq
    refine ⟨routed_writes hwrites hσ.1 hp ?_, sends_moves hc hf hmoves hσ.1 hp, fun q hq => hq⟩
    intro advance hphase
    rw [hphase, phaseStep_advancing] at heq
    subst heq
    split
    · rename_i happlies
      refine routed_applyAdvance hσ.1 fun t s hnext hs => ?_
      simpa [ha, AdvanceFits, happlies, hi, hphase, hnext, hs] using hfits
    · exact hσ.1

end stores

/-! ## Whole crews -/

section crews

variable {job : Submission} {κ : Crew} {d : Deed}

/-- Everybody who works on the instance keeps the routes, and the hints are right. -/
structure Crew.Routes (job : Submission) (κ : Crew) : Prop where
  stored : StoredRouted job.continuation κ.pool.world
  sends : ∀ p ∈ κ.pool.processes, p.phase.Sends job.continuation p.worker
  honours : ∀ p ∈ κ.executions, p.Honours (savingProtocol (Routed job.continuation)) ()
  hints : ∀ h ∈ κ.hints, ∀ id fields next, .task id fields next ∈ job.continuation.subtrees →
    TaskId.sha256 id = h.taskId → h.tags = fields.tags

/-- The hint of an instance that is routed is right. -/
theorem Crew.Routes.announce (h : κ.Routes job) : (κ.announce job.backend).Routes job where
  stored := h.stored
  sends := h.sends
  honours := h.honours
  hints hint hmem id fields next ht hid := by
    rcases List.mem_append.mp hmem with hmem | hmem
    · exact h.hints hint hmem id fields next ht hid
    · have hnotify : job.backend.notify κ.pool.world = some hint := by simpa using hmem
      unfold Backend.notify at hnotify
      split at hnotify
      · cases hnotify
      · obtain ⟨s, hs, hpayload⟩ := Option.bind_eq_some_iff.mp hnotify
        obtain ⟨t, hcur, rfl⟩ := Option.map_eq_some_iff.mp hpayload
        have hroute : s.route = some ⟨t, s.taskPriority, s.taskTags⟩ := by
          simp [WorkflowSnapshot.route, position_of_currentTaskId hcur,
            ExecutionPosition.target]
        exact (h.stored s hs _ hroute id fields next ht hid).2

/-- An operation of an execution keeps the stored snapshot routed, and what it answers is
what the protocol expects. -/
theorem routed_handle {o : Op} {w : PoolWorld} (hw : StoredRouted job.continuation w)
    (ho : (savingProtocol (Routed job.continuation)).allows () o) :
    StoredRouted job.continuation (job.backend.handle job.callbacks o w).2
      ∧ (savingProtocol (Routed job.continuation)).next () o (job.backend.handle job.callbacks o w).1 () := by
  constructor
  · intro s hs
    have hhandled := handled_handle job.backend job.callbacks o w
    generalize (job.backend.handle job.callbacks o w).2 = w' at hhandled hs
    cases hhandled with
    | kept h => exact hw s (h.symm.trans hs)
    | saved s' ho' hw' =>
      subst ho' hw'
      rcases snapshot_saveSnapshot s' with h | ⟨-, -, h⟩
      · obtain rfl : _ = s := Option.some.inj (h.symm.trans hs)
        exact Routed.congr ho route_stored
      · exact hw s (h.symm.trans hs)
    | recorded taskId output s' ho' hs' h =>
      obtain rfl : _ = s := Option.some.inj (h.symm.trans hs)
      exact (hw s' hs').congr (by simp)
    | cancelled taskId s' request ho' hs' hp h =>
      obtain rfl : _ = s := Option.some.inj (h.symm.trans hs)
      exact routed_of_position_none rfl
    | paused s' request ho' hs' hp h =>
      obtain rfl : _ = s := Option.some.inj (h.symm.trans hs)
      exact (hw s' hs').congr (route_markPaused request)
  · cases o with
    | loadSnapshot =>
      change (savingProtocol (Routed job.continuation)).next () .loadSnapshot (job.backend.loadSnapshot w) ()
      unfold Backend.loadSnapshot
      cases hs : w.snapshot with
      | none => trivial
      | some s => exact (hw s hs).congr route_view
    | _ => trivial

/-- **Every deed keeps the routes**, if a poll moves an instance only where it is headed. -/
theorem Crew.Routes.step {κ' : Crew} (hc : job.continuation.ids.Nodup)
    (hf : job.continuation.NamesForks) (h : κ.Routes job)
    (hfits : ∀ a, d = .pool a → AdvanceFits a κ.pool) (hs : Crew.Step job d κ κ') :
    κ'.Routes job := by
  cases hs with
  | submit _ hnone =>
    refine announce ⟨fun s hs => ?_, h.sends, h.honours, h.hints⟩
    have hinit := onRoute_initialSnapshot κ.pool.world.instanceId job.definitionHash job.input hc hf
    rcases snapshot_saveSnapshot (initialSnapshot κ.pool.world.instanceId job.definitionHash
      job.input job.continuation.firstTaskHint) with hsaved | ⟨-, -, hsaved⟩
    · obtain rfl : _ = s := Option.some.inj (hsaved.symm.trans hs)
      exact hinit.2.congr route_stored
    · exact h.stored s (hsaved.symm.trans hs)
  | pool a _ hhint =>
    obtain ⟨hstored, hsends⟩ := sends_step hc hf (hfits a rfl) ⟨h.stored, h.sends⟩
      fun worker hint ha => by simp [ha, Action.isHinted] at hhint
    exact announce ⟨hstored, hsends, h.honours, h.hints⟩
  | hinted worker hint _ hmem hcan =>
    obtain ⟨hstored, hsends⟩ := sends_step hc hf (a := .hinted worker hint.taskId) rfl
      ⟨h.stored, h.sends⟩ fun worker' taskId ha hne id fields next ht hid tag htag => by
        obtain ⟨rfl, rfl⟩ := Action.hinted.inj ha
        rw [← h.hints hint hmem id fields next ht hid] at htag
        simp only [canHandleHint, Bool.and_eq_true, List.all_eq_true] at hcan
        simpa using hcan.2 tag htag
    exact ⟨hstored, hsends, h.honours, h.hints⟩
  | launch ex _ hex =>
    refine ⟨h.stored, h.sends, fun p hp => ?_, h.hints⟩
    rcases List.mem_append.mp hp with hp | hp
    · exact h.honours p hp
    · rw [List.mem_singleton.mp hp]
      exact launch_routing hex hc hf _
  | execute i p p' w' o _ hi hstep =>
    have hstep' : StoredRouted job.continuation w'
        ∧ p'.Honours (savingProtocol (Routed job.continuation)) () := by
      rcases Prog.Honours.step hstep (h.honours p (List.mem_of_getElem? hi))
        with ⟨hw, hp'⟩ | ⟨o, ho, hw, hp'⟩
      · obtain rfl : w' = κ.pool.world := congrArg Prod.fst hw
        exact ⟨h.stored, hp'⟩
      · obtain rfl : w' = (job.backend.handle job.callbacks o κ.pool.world).2 :=
          congrArg Prod.fst hw
        obtain ⟨hstored, hnext⟩ := routed_handle h.stored ho
        exact ⟨hstored, hp' () hnext⟩
    refine announce ⟨hstep'.1, h.sends, fun q hq => ?_, h.hints⟩
    rcases List.mem_or_eq_of_mem_set hq with hq | rfl
    · exact h.honours q hq
    · exact hstep'.2

variable {instanceId : String} {now : Time}

/-- A poll of the crew moves an instance only where it is headed. -/
def Crew.AdvanceFits (d : Deed) (κ : Crew) : Prop :=
  match d with
  | .pool a => Sayiir.AdvanceFits a κ.pool
  | _ => True

theorem Crew.Reachable.routes (hc : job.continuation.ids.Nodup) (hf : job.continuation.NamesForks)
    (h : Crew.Reachable job Crew.AdvanceFits instanceId now κ) : κ.Routes job := by
  refine Path.invariant h ?_ fun d κ κ' hκ hC hs => hκ.step hc hf (fun a ha => ?_) hs
  · exact ⟨by simp [StoredRouted, Crew.start, World.fresh], by simp [Crew.start],
      by simp [Crew.start], by simp [Crew.start]⟩
  · subst ha
    exact hC

/-- **Tags are respected** in every run in which a poll moves an instance only where it is
headed: an instance in progress at a task is stored with the priority and the tags of that
task, and a worker with tags is only offered tasks whose tags it all bears. -/
theorem routing_respected (hc : job.continuation.ids.Nodup) (hf : job.continuation.NamesForks)
    (h : Crew.Reachable job Crew.AdvanceFits instanceId now κ) :
    (∀ s, κ.pool.world.snapshot = some s → ∀ id fields next,
      .task id fields next ∈ job.continuation.subtrees →
      s.currentTaskId = some (TaskId.sha256 id) →
        s.taskPriority = fields.priority ∧ s.taskTags = fields.tags)
    ∧ ∀ p ∈ κ.pool.processes, p.worker.tags ≠ [] → ∀ task, p.phase = .offered task →
      ∀ id fields next, .task id fields next ∈ job.continuation.subtrees →
        task.taskId = TaskId.sha256 id → ∀ tag ∈ fields.tags, tag ∈ p.worker.tags := by
  have hroutes := Crew.Reachable.routes hc hf h
  constructor
  · intro s hs id fields next ht hcur
    have hroute : s.route = some ⟨TaskId.sha256 id, s.taskPriority, s.taskTags⟩ := by
      simp [WorkflowSnapshot.route, position_of_currentTaskId hcur,
        ExecutionPosition.target]
    exact hroutes.stored s hs _ hroute id fields next ht rfl
  · intro p hp hne task hphase id fields next ht hid
    have hsends := hroutes.sends p hp
    rw [hphase] at hsends
    exact hsends.1 hne id fields next ht hid.symm

end crews

end hashed

/-! ## A hint that is left behind -/

section sample

attribute [local instance] Sha256.packed

/-- A task that only workers with this tag take. -/
def TaskFields.tagged (tag : String) : TaskFields := { TaskFields.plain with tags := [tag] }

/-- A delay and two tasks for different workers after it. -/
def delayThenTagged : WorkflowContinuation :=
  .task "t1" .plain (some (.delay "d1" 5
    (some (.task "t2" (.tagged "gpu") (some (.task "t3" (.tagged "cpu") none))))))

/-- A worker with tags polls when the delay is over. -/
def taggedPoll : List Action :=
  .poll (sampleWorker "a") :: Action.calls 0 12 ++ .tick 5 ::
    .poll ⟨"b", none, ["cpu", "gpu"]⟩ :: Action.calls 1 4

theorem routing_respected_after_delay :
    let job := sampleChain .inMemory delayThenTagged
    let σ := perform job.step taggedPoll (job.start "i" 0)
    σ.offers = [TaskId.sha256 "t2"]
      ∧ ∃ κ : Crew, κ.pool = σ ∧ Crew.Reachable job Crew.AdvanceFits "i" 0 κ
        ∧ ∀ p ∈ σ.processes, p.worker.tags ≠ [] → ∀ task, p.phase = .offered task →
          ∀ id fields next, .task id fields next ∈ job.continuation.subtrees →
            task.taskId = TaskId.sha256 id → ∀ tag ∈ fields.tags, tag ∈ p.worker.tags := by
  intro job σ
  have hσ : job.Reachable (fun a σ => AdvanceFits a σ && !a.isHinted) "i" 0 σ :=
    Walk.perform (by decide +kernel)
  obtain ⟨κ, hκ, hpool, -⟩ := hσ.crew (D := Crew.AdvanceFits) trivial fun a κ hC => by
    simpa [and_comm, Crew.AdvanceFits] using hC
  have hforks : job.continuation.NamesForks := by
    intro id join h
    simp [job, sampleChain, delayThenTagged, WorkflowContinuation.subtrees,
      WorkflowContinuation.subtreesNext] at h
  refine ⟨by decide +kernel, κ, hpool, hκ, ?_⟩
  rw [← hpool]
  exact (routing_respected (by decide) hforks hκ).2

/-- Two workers poll when the delay is over; the second one stops in the middle while the
first one executes the task after the delay, and then moves the instance back to it. -/
def polledTwice : List Action :=
  .poll (sampleWorker "a") :: Action.calls 0 12 ++ .tick 5 :: .poll (sampleWorker "b") ::
    Action.calls 1 2 ++ .poll (sampleWorker "c") :: Action.calls 2 2 ++ Action.calls 1 11
    ++ Action.calls 2 1

/-- The instance is stored at a task for `gpu` workers with the tag of another task. -/
theorem tags_of_another_task :
    let job := sampleChain .inMemory delayThenTagged
    let σ := perform job.step polledTwice (job.start "i" 0)
    (∃ κ : Crew, κ.pool = σ ∧ Crew.Reachable job (fun _ _ => True) "i" 0 κ)
      ∧ job.continuation.ids.Nodup
      ∧ (σ.world.snapshot.map fun s => (s.currentTaskId, s.taskTags))
        = some (some (TaskId.sha256 "t2"), ["cpu"])
      ∧ (job.continuation.indexed (TaskId.sha256 "t2")).map (·.tags) = some ["gpu"] := by
  intro job σ
  have hσ : job.Reachable (fun a _ => !a.isHinted) "i" 0 σ := Walk.perform (by decide +kernel)
  obtain ⟨κ, hκ, hpool, -⟩ := hσ.crew (D := fun _ _ => True) trivial fun a κ hC => by
    simpa using hC
  exact ⟨⟨κ, hpool, hκ⟩, by decide, by decide +kernel, by decide⟩

end sample

end Sayiir
