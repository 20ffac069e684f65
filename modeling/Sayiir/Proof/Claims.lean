import Sayiir.Proof.Order
import Sayiir.Proof.Terminal

/-!
# What a claim protects

As long as no claim expires, the claims are a lock: at most one process at a time works
on a task, from the moment it is granted the claim to the moment it gives it back. The
lock does not tell a process whether the task has been committed in the meantime: a
process that holds an old offer may be granted the claim of a task that is long done.
If that does not happen, no task is called again once a snapshot with its result has
been saved.

The argument has two parts. A snapshot in the hands of a process, or stored, records
only tasks that some saved snapshot records (`Known`). So the only step that records a
task for the first time is a commit by the process that holds its claim, and no other
process is about to call it then (`Exclusive`).
-/

namespace Sayiir

open Backend WorkflowSnapshot Submission

variable {trace : List Event} {processes : List Process} {phase : Phase} {w w' : PoolWorld}
  {p : Process} {t : TaskId} {R : TaskId → Prop} {s : WorkflowSnapshot}

/-! ## What has been recorded -/

/-- A snapshot with a result of the task was saved. -/
def Event.records (t : TaskId) : Event → Bool
  | .saved s => (s.getTaskResult t).isSome
  | _ => false

/-- Some snapshot with a result of the task has been saved. -/
def recorded (trace : List Event) (t : TaskId) : Bool := trace.any (·.records t)

theorem recorded_append (trace more : List Event) (t : TaskId) :
    recorded (trace ++ more) t = (recorded trace t || recorded more t) := List.any_append

/-- The snapshot is at a task, if anywhere, and records only tasks of `R`. -/
structure Known (R : TaskId → Prop) (s : WorkflowSnapshot) : Prop where
  records : ∀ t, (s.getTaskResult t).isSome → R t
  atTask : ∀ position, s.position = some position → ∃ t, position = .atTask t

namespace Known

variable {R R' : TaskId → Prop} {s s' : WorkflowSnapshot}

theorem mono (h : Known R s) (hR : ∀ t, R t → R' t) : Known R' s :=
  ⟨fun t ht => hR t (h.records t ht), h.atTask⟩

theorem congr (h : Known R s)
    (hr : ∀ t, (s'.getTaskResult t).isSome → (s.getTaskResult t).isSome)
    (hp : ∀ position, s'.position = some position → s.position = some position) : Known R s' :=
  ⟨fun t ht => h.records t (hr t ht), fun position hpos => h.atTask position (hp position hpos)⟩

theorem markFailed (R : TaskId → Prop) (s : WorkflowSnapshot) (e : RuntimeError) :
    Known R (s.markFailed e) :=
  ⟨fun _ ht => (nomatch ht), fun _ hp => (nomatch hp)⟩

theorem markCompleted (R : TaskId → Prop) (s : WorkflowSnapshot) (output : Bytes) :
    Known R (s.markCompleted output) :=
  ⟨fun _ ht => (nomatch ht), fun _ hp => (nomatch hp)⟩

theorem mapOutputs (h : Known R s) (f : TaskId → Bytes → Bytes) : Known R (s.mapOutputs f) :=
  h.congr (fun t ht => by simpa [getTaskResult_mapOutputs] using ht)
    fun position hp => by simpa using hp

theorem isAtSignal (h : Known R s) : Submission.isAtSignal s = false := by
  unfold Submission.isAtSignal
  split
  · rename_i hst
    have hpos := h.atTask
    simp only [position, hst] at hpos
    obtain ⟨t, ht⟩ := hpos _ rfl
    cases ht
  · rfl

end Known

/-! ## What a process knows -/

/-- What a process may store records only tasks of `R`, and the one it commits. -/
def Phase.Tame (R : TaskId → Prop) : Phase → Prop
  | .hydrating s | .retrying _ s | .failing _ s | .completing s => Known R s
  | .offered task | .guarding task _ | .executing task | .running task _ _ _ =>
    Known R task.snapshot
  | .committing task s _ => Known (fun t => t = task.taskId ∨ R t) s
  | .advancing _ | .waking .. | .draining .. | .drained .. | .resolving .. => False
  | _ => True

theorem Phase.Tame.mono {R' : TaskId → Prop} (h : phase.Tame R)
    (hR : ∀ t, R t → R' t) : phase.Tame R' := by
  cases phase with
  | hydrating | retrying | failing | completing | offered | guarding | executing | running =>
    exact Known.mono h hR
  | committing => exact Known.mono h fun t ht => ht.imp_right (hR t)
  | _ => exact h

/-- What a tame process stores is at a task. -/
theorem Phase.Tame.toStore
    (h : phase.Tame R) (hs : phase.toStore = some s) (position : ExecutionPosition)
    (hp : s.position = some position) : ∃ t, position = .atTask t := by
  cases phase with
  | retrying | failing | completing | committing =>
    obtain rfl : _ = s := Option.some.inj hs
    exact Known.atTask h position hp
  | waking | drained | resolving => exact h.elim
  | _ => cases hs

/-- What is stored records only tasks of saved snapshots. -/
def StoredKnown (w : PoolWorld) : Prop :=
  ∀ s, w.snapshot = some s → Known (fun t => recorded w.trace t) s

theorem tame_dispatchRow (now : Time) (h : Known R s) :
    (dispatchRow now s).Tame R := by
  refine dispatchRow_of trivial (fun _ _ _ _ _ _ hst => ?_) fun _ _ _ task _ _ htask => ?_
  · have hpos := h.atTask
    simp only [position, hst] at hpos
    obtain ⟨t, ht⟩ := hpos _ rfl
    cases ht
  · obtain ⟨rfl, -⟩ := buildAvailableTask_eq_some htask
    exact h

theorem tame_findHintedTask {b : Backend} (hint : TaskId) (hw : StoredKnown w) :
    (offer (b.findHintedTask hint w)).Tame fun t => recorded w.trace t := by
  unfold findHintedTask
  split
  · rename_i s hs
    dsimp only
    split
    · cases hbuild : PoolWorld.buildAvailableTask (s.hydrateTaskOutputs w.outputs) hint with
      | none => trivial
      | some task =>
        obtain ⟨hsnap, -⟩ := buildAvailableTask_eq_some hbuild
        show Known _ task.snapshot
        rw [hsnap]
        exact (hw s hs).mapOutputs _
    · trivial
  · trivial

/-- An action of a client stores nothing new. -/
theorem storedKnown_asks {job : Submission} {a : Action} (h : Asks job a w w')
    (hw : StoredKnown w) :
    StoredKnown w' ∧ w'.trace = w.trace := by
  cases h.delivers with
  | kept hs ho ht =>
    refine ⟨fun s hss => ?_, ht⟩
    rw [ht]
    exact hw s (hs ▸ hss)
  | received s signalId signalName payload wakeAt next completed last hb hs hst =>
    exfalso
    have hpos := (hw s hs).atTask
    simp only [position, hst] at hpos
    obtain ⟨t, ht⟩ := hpos _ rfl
    cases ht
  | unpaused s hs hw' =>
    subst hw'
    refine ⟨fun s' hs' => ?_, rfl⟩
    obtain rfl : _ = s' := Option.some.inj hs'
    exact (hw s hs).congr (by simp) (by simp)

section tame

variable [Sha256] {job : Submission} {worker : Worker} {phase phase' : Phase} {w w' : PoolWorld}
  {R : TaskId → Prop}

theorem tame_settleFailure {task : AvailableTask} (h : Known R task.snapshot) (e : RuntimeError)
    (now : Time) : (job.settleFailure worker task e now).Tame R :=
  settleFailure_of (.markFailed R _ e) fun _ => h.congr (fun _ ht => ht) fun _ hp => hp

/-- In a chain of tasks, committing a task records nothing but the task. -/
theorem known_commitSnapshot (hc : job.continuation.TaskChain) {task : AvailableTask}
    {output : Bytes} {now : Time} (h : Known R task.snapshot)
    (hs : job.commitSnapshot task output now = .ok s) :
    Known (fun t => t = task.taskId ∨ R t) s := by
  unfold commitSnapshot at hs
  refine preserves_updatePositionAfterTask job.continuation (P := Known _) (fun n hn => ?_) _ s hs ?_
  · intro u u' hmove hu
    obtain ⟨id, fields, next, rfl⟩ := hc.isTask_of_mem hn
    obtain rfl : _ = u' := Except.ok.inj hmove
    refine ⟨fun t ht => hu.records t (by simpa using ht), fun position hp => ?_⟩
    by_cases hprog : u.isInProgress
    · rw [position_setTaskHint, position_updatePosition,
        if_pos hprog] at hp
      exact ⟨_, (Option.some.inj hp).symm⟩
    · rw [position_setTaskHint, position_updatePosition,
        if_neg hprog] at hp
      exact hu.atTask position hp
  · refine ⟨fun t ht => ?_, fun position hp => h.atTask position (by simpa using hp)⟩
    rw [getTaskResult_markTaskCompleted] at ht
    split at ht
    · rename_i heq
      exact .inl heq.2
    · exact .inr (h.records t (by simpa using ht))

/-- A step of a process keeps it tame. -/
theorem tame_moves (hc : job.continuation.TaskChain) (hm : Moves job worker w w' phase phase')
    (hw : StoredKnown w) (hgrow : ∀ t, recorded w.trace t → recorded w'.trace t)
    (hp : phase.Tame fun t => recorded w.trace t) : phase'.Tame fun t => recorded w'.trace t := by
  cases hm with
  | stop | collecting | collected | stopped | cancelling | retried | failed | checked | cancelled =>
    trivial
  | advanced => exact hp.elim
  | hydrating blob hb h =>
    exact (hw blob (Option.filter_eq_some_iff.mp h).1).mono hgrow
  | advancing advance h =>
    rw [collectAdvance_of_atTask fun s position hs => (hw s hs).atTask position] at h
    cases h
  | selected task h =>
    exact (hw _ (selectTask_eq_some h).1).mono hgrow
  | hydrated blob => exact (tame_dispatchRow _ (Known.mapOutputs hp _)).mono hgrow
  | woke => exact hp.elim
  | claimed | guarding | passed | lost | raised | called | beaten => exact Known.mono hp hgrow
  | unready task e => exact (tame_settleFailure hp e _).mono hgrow
  | settled =>
    exact settle_of trivial (fun e => (tame_settleFailure hp e _).mono hgrow)
      fun _ s _ hs => (known_commitSnapshot hc hp hs).mono fun t ht => ht.imp_right (hgrow t)
  | interrupted task outcome deadline failures e => exact (tame_settleFailure hp e _).mono hgrow
  | committed task s output h =>
    have hsaved : Known (fun t => t = task.taskId ∨ recorded w.trace t) (job.backend.afterSave s) :=
      hp.congr (by cases job.backend <;> exact fun _ ht => ht) (by simp)
    unfold drain
    rw [hsaved.isAtSignal]
    trivial
  | undrained | draining | drained | resolved | unresolved => exact hp.elim
  | handedBack task s output =>
    rw [resolveLoops_of_loopFree _ s hc.loopFree]
    trivial
  | concluding => trivial
  | concluded s output => exact conclude_of trivial fun _ => .markCompleted _ s output

/-- The trace only grows. -/
theorem recorded_logs (h : Logs job phase w trace) (ht : recorded w.trace t) :
    recorded trace t := by
  cases h with
  | kept => exact ht
  | saved | signalled | timedOut | called => rw [recorded_append, ht, Bool.true_or]

/-- A step of a process stores only what it also logs. -/
theorem storedKnown_writes (h : Writes job worker phase w w') (hw : StoredKnown w)
    (hp : phase.Tame fun t => recorded w.trace t) : StoredKnown w' := by
  have hgrow : ∀ t, recorded w.trace t → recorded w'.trace t := fun t => recorded_logs h.logs
  intro s hs
  cases h.stores with
  | kept hk => exact (hw s (hk ▸ hs)).mono hgrow
  | saved s' hstore hw' hs' =>
    obtain rfl : _ = s := Option.some.inj (hs'.symm.trans hs)
    subst hw'
    rcases saveSnapshot_cases (b := job.backend) (w := w) s' with
      ⟨-, htrace⟩ | ⟨-, -, hsnap, -⟩
    · refine ⟨fun t ht => ?_, fun position hpos => ?_⟩
      · rw [htrace, recorded_append]
        have : (s'.getTaskResult t).isSome := by
          rwa [isSome_getTaskResult_stored] at ht
        simp [recorded, Event.records, this]
      · rw [position_stored] at hpos
        exact hp.toStore hstore position hpos
    · exact (hw _ (hsnap ▸ hs)).mono hgrow
  | advanced advance hphase =>
    subst hphase
    exact hp.elim
  | cancelled s' request taskId hs' hprog h' =>
    obtain rfl : _ = s := Option.some.inj (h'.symm.trans hs)
    refine ((hw s' hs').congr (fun t ht => ?_) fun position hpos => ?_).mono hgrow
    · obtain ⟨position, completed, last, hst⟩ := isInProgress_iff.mp hprog
      simpa [markCancelled, getTaskResult,
        getAllTaskResults, hst] using ht
    · simp at hpos
  | paused s' request hs' hprog h' =>
    obtain rfl : _ = s := Option.some.inj (h'.symm.trans hs)
    exact ((hw s' hs').congr (by simp) (by simp)).mono hgrow

/-- **In a chain of tasks every process is tame.** -/
theorem tame_reachable (hc : job.continuation.TaskChain) {C : Action → Pool → Prop}
    {instanceId : String} {now : Time} {σ : Pool} (h : job.Reachable C instanceId now σ) :
    StoredKnown σ.world ∧ ∀ p ∈ σ.processes, p.phase.Tame fun t => recorded σ.world.trace t := by
  refine Submission.Reachable.invariant h (I := StoredKnown)
    (P := fun w p => p.phase.Tame fun t => recorded w.trace t) ?_ ?_ ?_ ?_ ?_ ?_
  · intro s hs
    have hinit : s.position = some (.atTask job.continuation.firstTaskHint.id)
        ∧ ∀ t, s.getTaskResult t = none := by
      obtain rfl : _ = s := Option.some.inj ((job.submitted_eq instanceId now).1.symm.trans hs)
      refine ⟨by rw [position_stored]; rfl, fun t => ?_⟩
      rw [← Option.not_isSome_iff_eq_none, isSome_getTaskResult_stored]
      simp [initialSnapshot]
    refine ⟨fun t ht => by simp [hinit.2] at ht, fun position hp => ?_⟩
    exact ⟨_, Option.some.inj (hp.symm.trans hinit.1)⟩
  · exact fun w worker _ => trivial
  · exact fun w worker hint hw => tame_findHintedTask hint hw
  · exact fun w p _ => trivial
  · intro a w w' ha hw
    obtain ⟨hw', htrace⟩ := storedKnown_asks ha hw
    exact ⟨hw', fun p hp => htrace ▸ hp⟩
  · intro σ i choice p phase' w' _ _ hw hp hwrites hmoves
    have hgrow : ∀ t, recorded σ.world.trace t → recorded w'.trace t :=
      fun t => recorded_logs hwrites.logs
    exact ⟨storedKnown_writes hwrites hw hp, tame_moves hc hmoves hw hgrow hp,
      fun q hq => hq.mono hgrow⟩

end tame

/-! ## Who works on a task -/

/-- The task whose claim a process holds. -/
def Phase.claimed : Phase → Option TaskId
  | .guarding task _ | .executing task | .running task _ _ _ | .retrying task _ | .failing task _
  | .releasing task | .cancelling task | .committing task _ _ | .draining task _ _
  | .drained task _ _ | .handingBack task _ _ => some task.taskId
  | _ => none

/-- The process is about to give its claim back. -/
def Phase.releases : Phase → Bool
  | .releasing _ | .cancelling _ | .handingBack .. => true
  | _ => false

/-- The task that a process is about to call. -/
def Phase.starting : Phase → Option TaskId
  | .guarding task _ | .executing task => some task.taskId
  | _ => none

theorem Phase.claimed_of_starting (h : phase.starting = some t) :
    phase.claimed = some t := by
  cases phase with
  | guarding | executing => exact h
  | _ => cases h

/-- The tasks with a claim. -/
def PoolWorld.claimed (w : PoolWorld) : List TaskId := w.claims.map TaskClaim.taskId

/-- The tasks with a claim and the workers that hold them. -/
def PoolWorld.owners (w : PoolWorld) : List (TaskId × String) :=
  w.claims.map fun c => (c.taskId, c.workerId)

theorem PoolWorld.mem_claimed_of_mem_owners {id : String} (h : (t, id) ∈ w.owners) :
    t ∈ w.claimed := by
  obtain ⟨c, hc, heq⟩ := List.mem_map.mp h
  exact List.mem_map.mpr ⟨c, hc, congrArg Prod.fst heq⟩

theorem Asks.owners {job : Submission} {a : Action} (h : Asks job a w w') :
    w'.owners = w.owners := by
  cases h with
  | tick | unpause => rfl
  | insert a kind request => cases kind <;> rfl
  | sendEvent signalName payload =>
    rcases sendEvent_cases signalName payload with h | ⟨-, s, signalId, wakeAt, next, completed,
      last, -, -, h⟩ <;> rw [h] <;> rfl

/-- No claim has expired. -/
def Submission.unexpired (job : Submission) (w : PoolWorld) : Bool :=
  w.claims.all fun c => !job.backend.isExpired w.clock c

section locks

variable {job : Submission} {worker : Worker} {phase phase' : Phase} {w w' : PoolWorld} {t : TaskId}

/-- Without expired claims, a claim that is granted was free. -/
theorem claimed_of_claimable (hlive : job.unexpired w) (h : job.backend.claimable t w) :
    t ∉ w.claimed ∧ (job.backend = postgres → w.claims = []) := by
  unfold unexpired at hlive
  rw [List.all_eq_true] at hlive
  unfold claimable at h
  cases hb : job.backend with
  | inMemory =>
    rw [hb] at h hlive
    refine ⟨fun hmem => ?_, fun hne => nomatch hne⟩
    obtain ⟨c, hc, rfl⟩ := List.mem_map.mp hmem
    have hfind : (w.claims.find? (·.taskId = c.taskId)).isSome :=
      List.find?_isSome.mpr ⟨c, hc, by simp⟩
    obtain ⟨d, hd⟩ := Option.isSome_iff_exists.mp hfind
    have hl := hlive d (List.mem_of_find?_eq_some hd)
    simp [findClaim, hd, hl] at h
  | postgres =>
    rw [hb] at h hlive
    cases hclaims : w.claims with
    | nil => exact ⟨by simp [PoolWorld.claimed, hclaims], fun _ => rfl⟩
    | cons c cs =>
      have hl := hlive c (by simp [hclaims])
      simp [findClaim, hclaims, hl] at h

theorem owners_claimTask (hlive : job.unexpired w) (h : job.backend.claimable t w) :
    (job.backend.claimTask t worker.id worker.ttl w).2.owners = (t, worker.id) :: w.owners := by
  obtain ⟨hfree, hempty⟩ := claimed_of_claimable hlive h
  unfold claimTask
  rw [if_pos h]
  cases hb : job.backend with
  | inMemory =>
    have hkeep : w.claims.filter (·.taskId ≠ t) = w.claims := by
      rw [List.filter_eq_self]
      intro c hc
      have : c.taskId ≠ t := fun he => hfree (List.mem_map.mpr ⟨c, hc, he⟩)
      simpa using this
    exact congrArg ((t, worker.id) :: ·.map fun c => (c.taskId, c.workerId)) hkeep
  | postgres => simp [PoolWorld.owners, hempty hb]

theorem owners_releaseTaskClaim :
    (job.backend.releaseTaskClaim t worker.id w).2.owners = w.owners
      ∨ (job.backend.releaseTaskClaim t worker.id w).2.owners = w.owners.filter (·.1 ≠ t) := by
  unfold releaseTaskClaim
  split
  · exact .inl rfl
  · refine .inr ?_
    simp only [PoolWorld.owners, List.filter_map]
    rfl

variable [Sha256]

/-- **What a step of a process can do to the claims**, if none has expired. -/
theorem Writes.owners_cases (h : Writes job worker phase w w') (hlive : job.unexpired w) :
    w'.owners = w.owners
      ∨ (∃ task, phase = .offered task ∧ w'.owners = (task.taskId, worker.id) :: w.owners)
      ∨ phase.releases ∧ ∃ t, phase.claimed = some t
        ∧ w'.owners = w.owners.filter (·.1 ≠ t) := by
  have hguard : ∀ (taskId : Option TaskId) (g : GuardStep),
      (job.backend.guardStep taskId g w).2.owners = w.owners := by
    intro taskId g
    have hg := guards_guardStep job.backend taskId g w
    generalize (job.backend.guardStep taskId g w).2 = w' at hg
    cases hg <;> rfl
  have hsave : ∀ s, (job.backend.saveSnapshot s w).owners = w.owners := by
    intro s
    cases job.backend with
    | inMemory => rfl
    | postgres =>
      unfold saveSnapshot shipOutput storeBlob
      dsimp only
      split <;> split <;> rfl
  have hfenced : ∀ (s : WorkflowSnapshot) (taskId : TaskId),
      (job.backend.saveSnapshotFenced s taskId worker.id w).2.owners = w.owners := by
    intro s taskId
    rcases saveSnapshotFenced_cases _ _ s with h | h
    · rw [h]
      exact hsave s
    · rw [h]
  cases h with
  | nothing | collected | called | consumed => exact .inl rfl
  | dropped _ hb =>
    left
    unfold unexpired at hlive
    rw [List.all_eq_true, hb] at hlive
    have hkeep : (w.claims.filter fun c => !inMemory.isExpired w.clock c) = w.claims :=
      List.filter_eq_self.mpr hlive
    simp [PoolWorld.owners, dropExpired, hkeep]
  | advanced advance => cases advance <;> exact .inl rfl
  | woke s next => exact .inl (hsave s)
  | claimed task _ ha =>
    by_cases hc : job.backend.claimable task.taskId w
    · exact .inr (.inl ⟨task, rfl, owners_claimTask hlive hc⟩)
    · exact .inl (by simp [claimTask, hc])
  | guarded task g => exact .inl (hguard _ g)
  | cancelled task g => exact .inl (hguard _ g)
  | concluded s output g => exact .inl (hguard _ g)
  | extended task outcome deadline failures ttl =>
    left
    unfold extendTaskClaim
    split
    · rfl
    · simp only [PoolWorld.owners, List.map_map]
      refine List.map_congr_left fun c _ => ?_
      dsimp only [Function.comp]
      split <;> rfl
  | retried task s => exact .inl (hfenced s _)
  | failed task s => exact .inl (hfenced s _)
  | committed task s output => exact .inl (hfenced s _)
  | drained task s output => exact .inl (hsave s)
  | resolved s saves result output => exact .inl (hsave s)
  | completed s => exact .inl (hsave s)
  | released | cancelling | handedBack =>
    exact owners_releaseTaskClaim.imp_right fun h => .inr ⟨rfl, _, rfl, h⟩

/-- A process holds a claim because it held it before, or because it was just granted. -/
theorem claimed_moves (hm : Moves job worker w w' phase phase') (h : phase'.claimed = some t) :
    phase.claimed = some t ∧ phase.releases = false
      ∨ ∃ task, phase = .offered task ∧ task.taskId = t ∧ job.accepts task
        ∧ job.backend.claimable t w
        ∧ w' = (job.backend.claimTask t worker.id worker.ttl w).2 := by
  cases hm with
  | stop | collecting | hydrating | advancing | collected | advanced | selected | checked
  | cancelled => cases h
  | hydrated blob =>
    revert h
    exact dispatchRow_of (P := (Phase.claimed · = _ → _)) nofun (fun _ _ _ _ _ _ _ => nofun)
      fun _ _ _ _ _ _ _ => nofun
  | woke => cases h
  | claimed task ha hc hw =>
    obtain rfl : task.taskId = t := Option.some.inj h
    exact .inr ⟨task, rfl, rfl, ha, hc, hw⟩
  | guarding | passed | stopped | lost | raised | called | beaten | cancelling | retried | failed
  | undrained | draining => exact .inl ⟨h, rfl⟩
  | unready | interrupted =>
    revert h
    exact settleFailure_of (P := (Phase.claimed · = _ → _)) (fun h => .inl ⟨h, rfl⟩)
      fun _ h => .inl ⟨h, rfl⟩
  | settled task outcome =>
    revert h
    exact settle_of (P := (Phase.claimed · = _ → _)) nofun
      (fun e => settleFailure_of (P := (Phase.claimed · = _ → _)) (fun h => .inl ⟨h, rfl⟩)
        fun _ h => .inl ⟨h, rfl⟩)
      fun _ _ _ _ h => .inl ⟨h, rfl⟩
  | committed task s output | drained task s output =>
    refine .inl ⟨?_, rfl⟩
    unfold drain at h
    split at h <;> exact h
  | handedBack task s output =>
    unfold resolve at h
    split at h <;> cases h
  | resolved | unresolved =>
    unfold resolve at h
    split at h <;> cases h
  | concluding => cases h
  | concluded s output =>
    unfold conclude at h
    split at h <;> cases h

/-- A process is about to call a task because it was before, or because it was just
granted the claim. -/
theorem starting_moves (hm : Moves job worker w w' phase phase') (h : phase'.starting = some t) :
    phase.starting = some t ∧ phase.toStore = none
      ∨ ∃ task, phase = .offered task ∧ task.taskId = t ∧ job.accepts task
        ∧ job.backend.claimable t w := by
  have hclaimed := claimed_moves hm (Phase.claimed_of_starting h)
  cases hm with
  | claimed task ha hc => exact .inr ⟨task, rfl, Option.some.inj h, ha, Option.some.inj h ▸ hc⟩
  | guarding | passed => exact .inl ⟨h, rfl⟩
  | unready task e | interrupted task outcome deadline failures e =>
    unfold settleFailure at h
    dsimp only at h
    split at h
    · split at h <;> cases h
    · cases h
  | settled task outcome =>
    unfold settle settleFailure at h
    dsimp only at h
    split at h
    · split at h
      · split at h <;> cases h
      · cases h
    · split at h <;> cases h
  | hydrated | woke | resolved | unresolved | concluding | concluded =>
    rcases hclaimed with ⟨hnone, -⟩ | ⟨task, hphase, -⟩
    · cases hnone
    · cases hphase
  | handedBack =>
    rcases hclaimed with ⟨-, hr⟩ | ⟨task, hphase, -⟩
    · cases hr
    · cases hphase
  | committed task s output | drained task s output =>
    unfold drain at h
    split at h <;> cases h
  | _ => cases h

/-- What a step of a process newly records is what it stores. -/
theorem toStore_of_recorded (h : Logs job phase w trace) (ht : recorded trace t) :
    recorded w.trace t ∨ ∃ s, phase.toStore = some s ∧ (s.getTaskResult t).isSome := by
  cases h with
  | kept => exact .inl ht
  | saved s hs =>
    rw [recorded_append, Bool.or_eq_true] at ht
    exact ht.imp_right fun hr => ⟨s, hs, by simpa [recorded, Event.records] using hr⟩
  | signalled | timedOut | called =>
    rw [recorded_append, Bool.or_eq_true] at ht
    exact .inl (ht.resolve_right (by simp [recorded, Event.records]))

/-- A tame process newly records only the task it has claimed. -/
theorem claimed_of_recorded (h : Logs job phase w trace)
    (hp : phase.Tame fun t => recorded w.trace t) (ht : recorded trace t)
    (hold : recorded w.trace t = false) : phase.claimed = some t := by
  rcases toStore_of_recorded h ht with hr | ⟨s, hs, hr⟩
  · simp [hold] at hr
  · cases phase with
    | committing task s' output =>
      obtain rfl : s' = s := Option.some.inj hs
      rcases Known.records hp t hr with rfl | hr
      · rfl
      · simp [hold] at hr
    | retrying | failing | completing =>
      obtain rfl : _ = s := Option.some.inj hs
      have := Known.records hp t hr
      simp [hold] at this
    | waking | drained | resolving => exact hp.elim
    | _ => cases hs

end locks

/-! ## Whole runs -/

section runs

variable [Sha256] {job : Submission} {σ : Pool}

/-- No task is called after a snapshot with its result has been saved. -/
def NeverRecalls (events : List Event) : Prop :=
  ∀ (n : ℕ) name input time, events[n]? = some (.taskCalled name input time) →
    recorded (events.take n) (TaskId.sha256 name) = false

theorem neverRecalls_append {e : Event} (h : NeverRecalls trace)
    (he : ∀ name input time, e = .taskCalled name input time →
      recorded trace (TaskId.sha256 name) = false) : NeverRecalls (trace ++ [e]) := by
  intro n name input time hn
  rcases lt_trichotomy n trace.length with hlt | rfl | hgt
  · rw [List.getElem?_append_left hlt] at hn
    rw [List.take_append_of_le_length (by omega)]
    exact h n name input time hn
  · rw [List.getElem?_concat_length] at hn
    rw [List.take_left]
    exact he name input time (Option.some.inj hn)
  · rw [List.getElem?_eq_none (by simp; omega)] at hn
    cases hn

/-- At most one process works on a task, and its worker owns the claim. -/
structure Locks (σ : Pool) : Prop where
  owns : ∀ p ∈ σ.processes, ∀ t, p.phase.claimed = some t → (t, p.worker.id) ∈ σ.world.owners
  one : ∀ (i j : ℕ) p q t, σ.processes[i]? = some p → σ.processes[j]? = some q →
    p.phase.claimed = some t → q.phase.claimed = some t → i = j

/-- At most one process works on a task, and it has not been recorded before it is called. -/
structure Exclusive (σ : Pool) : Prop extends Locks σ where
  fresh : ∀ p ∈ σ.processes, ∀ t, p.phase.starting = some t → recorded σ.world.trace t = false
  never : NeverRecalls σ.world.trace

/-- A worker that is granted a claim has not been offered a task which has been recorded
since. -/
def Submission.NoStaleClaim (job : Submission) (a : Action) (σ : Pool) : Bool :=
  match a with
  | .work i _ => match σ.processes[i]? with
      | some ⟨_, .offered task, _⟩ =>
        !(job.accepts task && job.backend.claimable task.taskId σ.world)
          || !recorded σ.world.trace task.taskId
      | _ => true
  | _ => true

omit [Sha256] in
/-- Processes without a claim may come and go. -/
theorem Locks.quiet (h : Locks σ)
    (hq : ∀ (j : ℕ) q, processes[j]? = some q → q.phase.claimed ≠ none →
      σ.processes[j]? = some q) : Locks { σ with processes := processes } where
  owns p hp t ht := by
    obtain ⟨j, hj⟩ := List.mem_iff_getElem?.mp hp
    exact h.owns p (List.mem_of_getElem? (hq j p hj (by simp [ht]))) t ht
  one i j p q t hi hj hp ht :=
    h.one i j p q t (hq i p hi (by simp [hp])) (hq j q hj (by simp [ht])) hp ht

omit [Sha256] in
/-- A process that has just started has no claim. -/
theorem quiet_append {q : Process} (hq : q.phase.claimed = none)
    (j : ℕ) (p : Process) (hj : (processes ++ [q])[j]? = some p) (hne : p.phase.claimed ≠ none) :
    processes[j]? = some p := by
  rcases lt_or_ge j processes.length with hlt | hge
  · rwa [List.getElem?_append_left hlt] at hj
  · rw [List.getElem?_append_right hge] at hj
    obtain rfl : p = q := by simpa using List.mem_of_getElem? hj
    exact absurd hq hne

omit [Sha256] in
/-- A process that has been killed has no claim. -/
theorem quiet_set (i : ℕ) (p : Process) (j : ℕ) (q : Process)
    (hj : (processes.set i { p with phase := .done })[j]? = some q)
    (hne : q.phase.claimed ≠ none) : processes[j]? = some q := by
  by_cases hji : j = i
  · subst hji
    rw [List.getElem?_set] at hj
    split at hj
    · split at hj
      · obtain rfl := Option.some.inj hj
        exact absurd rfl hne
      · cases hj
    · exact hj
  · rwa [List.getElem?_set_ne (Ne.symm hji)] at hj

omit [Sha256] in
/-- A process after a step of one of them is that one or an old one. -/
theorem getElem?_set_cases {i j : ℕ} {q : Process}
    (hlt : i < processes.length) (hj : (processes.set i p)[j]? = some q) :
    j = i ∧ q = p ∨ j ≠ i ∧ processes[j]? = some q := by
  by_cases hji : j = i
  · subst hji
    rw [List.getElem?_set_self hlt] at hj
    exact .inl ⟨rfl, (Option.some.inj hj).symm⟩
  · rw [List.getElem?_set_ne (Ne.symm hji)] at hj
    exact .inr ⟨hji, hj⟩

/-- A step of a process keeps the others out. -/
theorem Locks.worked (h : Locks σ) {i : ℕ} {phase' : Phase}
    {seen : Option WorkflowSnapshot} (hi : σ.processes[i]? = some p)
    (hw : Writes job p.worker p.phase σ.world w')
    (hm : Moves job p.worker σ.world w' p.phase phase') (hlive : job.unexpired σ.world) :
    Locks ⟨w', σ.processes.set i ⟨p.worker, phase', seen⟩, σ.requests⟩ := by
  have hmem := List.mem_of_getElem? hi
  have hlt : i < σ.processes.length := (List.getElem?_eq_some_iff.mp hi).1
  -- nobody else holds the claim that the process holds after the step
  have hsole : ∀ (j : ℕ) q t, j ≠ i → σ.processes[j]? = some q → q.phase.claimed = some t →
      phase'.claimed ≠ some t := by
    intro j q t hne hj hq hp'
    rcases claimed_moves hm hp' with ⟨hp, -⟩ | ⟨task, -, rfl, -, hc, -⟩
    · exact hne (h.one j i q p t hj hi hq hp)
    · exact (claimed_of_claimable hlive hc).1
        (PoolWorld.mem_claimed_of_mem_owners (h.owns q (List.mem_of_getElem? hj) _ hq))
  refine ⟨fun q hq t ht => ?_, fun j k q r t hj hk hq hr => ?_⟩
  · obtain ⟨j, hj⟩ := List.mem_iff_getElem?.mp hq
    rcases getElem?_set_cases hlt hj with ⟨rfl, rfl⟩ | ⟨hne, hj⟩
    · rcases claimed_moves hm ht with ⟨hp, hrel⟩ | ⟨task, -, rfl, -, hc, rfl⟩
      · have hold := h.owns p hmem t hp
        rcases hw.owners_cases hlive with hsame | ⟨task, hphase', -⟩ | ⟨hrel', -⟩
        · rwa [hsame]
        · rw [hphase'] at hp
          cases hp
        · rw [hrel] at hrel'
          cases hrel'
      · rw [owners_claimTask hlive hc]
        exact List.mem_cons_self
    · have hold := h.owns q (List.mem_of_getElem? hj) t ht
      rcases hw.owners_cases hlive with hsame | ⟨task, -, hgrown⟩ | ⟨-, u, hu, hless⟩
      · rwa [hsame]
      · rw [hgrown]
        exact List.mem_cons_of_mem _ hold
      · rw [hless, List.mem_filter]
        refine ⟨hold, ?_⟩
        have : t ≠ u := by
          rintro rfl
          exact hne (h.one j i q p t hj hi ht hu)
        simpa using this
  · rcases getElem?_set_cases hlt hj with ⟨rfl, rfl⟩ | ⟨hnej, hj'⟩ <;>
      rcases getElem?_set_cases hlt hk with ⟨rfl, rfl⟩ | ⟨hnek, hk'⟩
    · rfl
    · exact absurd hq (hsole k r t hnek hk' hr)
    · exact absurd hr (hsole j q t hnej hj' hq)
    · exact h.one j k q r t hj' hk' hq hr

theorem locks_start (instanceId : String) (now : Time) : Locks (job.start instanceId now) where
  owns := by simp [start]
  one := by simp [start]

/-- Nobody calls a task that has been recorded. -/
theorem Exclusive.quiet (h : Exclusive σ)
    (hq : ∀ (j : ℕ) q, processes[j]? = some q → q.phase.claimed ≠ none →
      σ.processes[j]? = some q) : Exclusive { σ with processes := processes } where
  toLocks := h.toLocks.quiet hq
  fresh p hp t ht := by
    obtain ⟨j, hj⟩ := List.mem_iff_getElem?.mp hp
    have hclaimed := Phase.claimed_of_starting ht
    exact h.fresh p (List.mem_of_getElem? (hq j p hj (by simp [hclaimed]))) t ht
  never := h.never

/-- A step of a process leaves no other process about to call what it has recorded. -/
theorem Exclusive.worked (h : Exclusive σ) {i : ℕ} {phase' : Phase}
    {seen : Option WorkflowSnapshot} (hi : σ.processes[i]? = some p)
    (hw : Writes job p.worker p.phase σ.world w')
    (hm : Moves job p.worker σ.world w' p.phase phase') (hlive : job.unexpired σ.world)
    (htame : p.phase.Tame fun t => recorded σ.world.trace t)
    (hgrant : ∀ task, p.phase = .offered task → job.accepts task →
      job.backend.claimable task.taskId σ.world → recorded σ.world.trace task.taskId = false) :
    Exclusive ⟨w', σ.processes.set i ⟨p.worker, phase', seen⟩, σ.requests⟩ := by
  have hmem := List.mem_of_getElem? hi
  have hlt : i < σ.processes.length := (List.getElem?_eq_some_iff.mp hi).1
  refine ⟨h.toLocks.worked hi hw hm hlive, fun q hq t ht => ?_, ?_⟩
  · -- fresh
    obtain ⟨j, hj⟩ := List.mem_iff_getElem?.mp hq
    rw [Bool.eq_false_iff]
    intro hrec
    rcases getElem?_set_cases hlt hj with ⟨rfl, rfl⟩ | ⟨hne, hj⟩
    · rcases starting_moves hm ht with ⟨hp, hstore⟩ | ⟨task, hoffer, rfl, ha, hc⟩
      · rcases toStore_of_recorded hw.logs hrec with hr | ⟨s, hs, -⟩
        · simp [h.fresh p hmem t hp] at hr
        · simp [hstore] at hs
      · rcases toStore_of_recorded hw.logs hrec with hr | ⟨s, hs, -⟩
        · simp [hgrant task hoffer ha hc] at hr
        · simp [hoffer, Phase.toStore] at hs
    · have hold := h.fresh q (List.mem_of_getElem? hj) t ht
      have hp := claimed_of_recorded hw.logs htame hrec hold
      exact hne (h.one j i q p t hj hi (Phase.claimed_of_starting ht) hp)
  · -- never
    have hlogs := hw.logs
    show NeverRecalls w'.trace
    generalize w'.trace = trace at hlogs
    cases hlogs with
    | kept => exact h.never
    | saved | signalled | timedOut =>
      exact neverRecalls_append h.never fun name input time he => by cases he
    | called task name input hphase hinput hname =>
      refine neverRecalls_append h.never fun name' input' time' he => ?_
      cases he
      obtain ⟨hd, -⟩ := WorkflowContinuation.executeTaskById_eq_ok hname
      exact h.fresh p hmem _ (by rw [hphase, hd]; rfl)

theorem exclusive_start (instanceId : String) (now : Time) :
    Exclusive (job.start instanceId now) where
  toLocks := locks_start instanceId now
  fresh := by simp [start]
  never := by
    intro n name input time hn
    have hmem := List.mem_of_getElem? hn
    rw [start, (job.submitted_eq instanceId now).2] at hmem
    simp at hmem

/-- **No task of a chain is called again once its result has been saved**, in every run in
which no claim expires and no worker is granted the claim of a task that has already been
recorded. -/
theorem never_recalled_of_noStaleClaim (hc : job.continuation.TaskChain) {instanceId : String}
    {now : Time} (h : job.Reachable (fun a σ => job.unexpired σ.world ∧ job.NoStaleClaim a σ)
      instanceId now σ) : NeverRecalls σ.world.trace := by
  refine (Walk.invariant_of h (I := Exclusive)
    (J := fun σ => StoredKnown σ.world
      ∧ ∀ p ∈ σ.processes, p.phase.Tame fun t => recorded σ.world.trace t) ?_ ?_ ?_).never
  · exact fun hσ => tame_reachable hc hσ
  · exact exclusive_start instanceId now
  · rintro a σ ⟨hstored, htame⟩ hex ⟨hlive, hgrant⟩
    have hstep := job.steps_step a σ
    generalize job.step a σ = σ' at hstep
    cases hstep with
    | queued requests => exact ⟨⟨hex.owns, hex.one⟩, hex.fresh, hex.never⟩
    | asked w' requests ha =>
      have htrace := (storedKnown_asks ha hstored).2
      refine ⟨⟨fun p hp t ht => ?_, hex.one⟩, fun p hp t ht => ?_, ?_⟩
      · exact ha.owners ▸ hex.owns p hp t ht
      · exact htrace ▸ hex.fresh p hp t ht
      · exact htrace ▸ hex.never
    | polled worker => exact hex.quiet (quiet_append rfl)
    | hinted worker hint =>
      refine hex.quiet (quiet_append ?_)
      cases job.backend.findHintedTask hint σ.world <;> rfl
    | worked i choice p phase' w' ha hi hw hm =>
      refine hex.worked hi hw hm hlive (htame p (List.mem_of_getElem? hi)) ?_
      intro task hphase hacc hcl
      obtain ⟨worker, phase, seen⟩ := p
      obtain rfl : phase = .offered task := hphase
      subst ha
      simpa [Submission.NoStaleClaim, hi, hacc, hcl] using hgrant
    | crashed i p => exact hex.quiet (quiet_set i p)

/-- In Postgres, moreover, the instance has one claim at most. -/
structure Submission.Locked (job : Submission) (σ : Pool) : Prop extends Locks σ where
  single : job.backend = postgres → ∀ x ∈ σ.world.owners, ∀ y ∈ σ.world.owners, x = y

theorem Writes.owners_subsingleton (h : Writes job p.worker phase w w')
    (hlive : job.unexpired w) (hb : job.backend = postgres)
    (hone : ∀ x ∈ w.owners, ∀ y ∈ w.owners, x = y) : ∀ x ∈ w'.owners, ∀ y ∈ w'.owners, x = y := by
  rcases h.owners_cases hlive with hsame | ⟨task, rfl, -⟩ | ⟨-, t, -, hless⟩
  · rwa [hsame]
  · cases h with
    | nothing => exact hone
    | claimed _ _ ha =>
      unfold claimTask
      split
      · -- a new claim takes the place of the old one
        simp [PoolWorld.owners, hb]
      · exact hone
  · rw [hless]
    exact fun x hx y hy => hone x (List.mem_of_mem_filter hx) y (List.mem_of_mem_filter hy)

theorem locked_start (instanceId : String) (now : Time) : job.Locked (job.start instanceId now) where
  toLocks := locks_start instanceId now
  single hb := by
    have hnone : (job.submitted instanceId now).owners = [] := by
      rw [submitted, hb]
      rfl
    simp [start, hnone]

theorem locked_step (a : Action) (h : job.Locked σ) (hlive : job.unexpired σ.world) :
    job.Locked (job.step a σ) := by
  have hstep := job.steps_step a σ
  generalize job.step a σ = σ' at hstep
  cases hstep with
  | queued requests => exact ⟨⟨h.owns, h.one⟩, h.single⟩
  | asked w' requests ha => exact ⟨⟨ha.owners ▸ h.owns, h.one⟩, ha.owners ▸ h.single⟩
  | polled worker => exact ⟨h.quiet (quiet_append rfl), h.single⟩
  | hinted worker hint =>
    refine ⟨h.quiet (quiet_append ?_), h.single⟩
    cases job.backend.findHintedTask hint σ.world <;> rfl
  | worked i choice p phase' w' ha hi hw hm =>
    exact ⟨h.worked hi hw hm hlive, fun hb => hw.owners_subsingleton hlive hb (h.single hb)⟩
  | crashed i p => exact ⟨h.quiet (quiet_set i p), h.single⟩

/-- **The claims are a lock**, in every run in which none expires and for every workflow. At
most one process works on a task, and its worker owns the claim. In Postgres at most one
process works on the instance. -/
theorem claims_exclude {instanceId : String} {now : Time}
    (h : job.Reachable (fun _ σ => job.unexpired σ.world) instanceId now σ) :
    Locks σ ∧ (job.backend = postgres → ∀ (i j : ℕ) p q, σ.processes[i]? = some p →
      σ.processes[j]? = some q → p.phase.claimed.isSome → q.phase.claimed.isSome → i = j) := by
  have hlocked : job.Locked σ := Walk.invariant h (locked_start instanceId now)
    fun a σ hl hlive => locked_step a hl hlive
  refine ⟨hlocked.toLocks, fun hb i j p q hi hj hp hq => ?_⟩
  obtain ⟨t, ht⟩ := Option.isSome_iff_exists.mp hp
  obtain ⟨u, hu⟩ := Option.isSome_iff_exists.mp hq
  have hsame := hlocked.single hb _ (hlocked.owns p (List.mem_of_getElem? hi) t ht) _
    (hlocked.owns q (List.mem_of_getElem? hj) u hu)
  obtain rfl : t = u := congrArg Prod.fst hsame
  exact hlocked.one i j p q t hi hj ht hu

end runs

/-! ## A task that is executed again -/

section sample

attribute [local instance] Sha256.packed

/-- The first task is not called again by the worker that executes the second one. -/
theorem never_recalled_when_alone :
    let σ := perform (twoTasks .inMemory).step
      (.poll (sampleWorker "a") :: Action.calls 0 12 ++ .poll (sampleWorker "b") ::
        Action.calls 1 13) ((twoTasks .inMemory).start "i" 0)
    recorded σ.world.trace (TaskId.sha256 "t1") ∧ NeverRecalls σ.world.trace := by
  intro σ
  have hreach : (twoTasks .inMemory).Reachable
      (fun a σ => (twoTasks .inMemory).unexpired σ.world ∧ (twoTasks .inMemory).NoStaleClaim a σ)
      "i" 0 σ := Walk.perform (by decide)
  exact ⟨by decide, never_recalled_of_noStaleClaim (.task _ _ _ (.last _ _)) hreach⟩

/-- The workers `a` and `b` are offered the first task, and only `a` works on it. -/
theorem claims_exclude_second_worker :
    let job := twoTasks .postgres
    let σ := perform job.step (.poll (sampleWorker "a") :: Action.calls 0 2 ++
      .poll (sampleWorker "b") :: Action.calls 1 2 ++ Action.calls 0 2 ++ Action.calls 1 2)
      (job.start "i" 0)
    ∃ p, σ.processes[0]? = some p ∧ p.phase.claimed.isSome
      ∧ ∀ (j : ℕ) q, σ.processes[j]? = some q → q.phase.claimed.isSome → 0 = j := by
  intro job σ
  have hreach : job.Reachable (fun _ σ => job.unexpired σ.world) "i" 0 σ :=
    Walk.perform (by decide)
  have hworks : σ.processes[0]?.any fun p => p.phase.claimed.isSome := by decide
  obtain ⟨p, hp, hclaimed⟩ := (Option.any_eq_true _ _).mp hworks
  exact ⟨p, hp, hclaimed, fun j q hj hq => (claims_exclude hreach).2 rfl 0 j p q hp hj hclaimed hq⟩

/-- The workers `a` and `b` are offered the first task. `a` executes it and gives the
claim back, then `b` claims it. -/
def claimedAgain : List Action :=
  .poll (sampleWorker "a") :: Action.calls 0 3 ++ .poll (sampleWorker "b") :: Action.calls 1 3
    ++ Action.calls 0 9 ++ Action.calls 1 4

/-- The same for the last task in Postgres, before the workflow is stored as completed. -/
def lastClaimedAgain : List Action :=
  .poll (sampleWorker "a") :: Action.calls 0 9
    ++ .poll (sampleWorker "a") :: Action.calls 1 2 ++ .poll (sampleWorker "b") :: Action.calls 2 2
    ++ Action.calls 1 6 ++ Action.calls 2 3

theorem recorded_task_called_again :
    let σ := perform (twoTasks .inMemory).step claimedAgain ((twoTasks .inMemory).start "i" 0)
    let τ := perform (twoTasks .postgres).step lastClaimedAgain ((twoTasks .postgres).start "i" 0)
    ((twoTasks .inMemory).Reachable (fun _ σ => (twoTasks .inMemory).unexpired σ.world) "i" 0 σ
      ∧ ¬ NeverRecalls σ.world.trace)
    ∧ (twoTasks .postgres).Reachable (fun _ σ => (twoTasks .postgres).unexpired σ.world) "i" 0 τ
      ∧ ¬ NeverRecalls τ.world.trace := by
  refine ⟨⟨Walk.perform (by decide), fun h => ?_⟩, Walk.perform (by decide), fun h => ?_⟩
  · have := h 3 "t1" [1] 0 (by decide)
    revert this
    decide
  · have := h 5 "t2" [1, 116, 49] 0 (by decide)
    revert this
    decide

end sample

end Sayiir
