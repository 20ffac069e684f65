import Sayiir.Proof.PoolSteps
import Sayiir.Proof.Recursions

/-!
# Terminal states in memory

The in-memory backend stores whatever it is given, so nothing but the protocol of
the workers can keep a terminal state from being overwritten. It does not: a
worker that has polled an instance stores a snapshot computed from what it saw
then, whatever has become of the instance since.

A step is `Fresh` unless it overwrites an instance that has become terminal since
the process last read or stored it. As long as all steps are fresh, a terminal
state is final: a process only goes on to store something when what it has seen
was not terminal (`Phase.Going`).
-/

namespace Sayiir

open Backend Submission

variable {task : AvailableTask} {phase : Phase} {s : WorkflowSnapshot}

/-- The next call stores a snapshot or an advance that was computed before. An
advance that only moves the position does nothing to a terminal instance. -/
def Phase.overwrites : Phase → Bool
  | .advancing (.delayDone _) | .advancing (.signal _ _ none)
  | .advancing (.signalTimeout _ _ none) | .waking .. | .retrying .. | .failing ..
  | .committing .. | .drained .. | .resolving (_ :: _) _ _ | .completing _ => true
  | _ => false

/-- The instance has not become terminal since the process that moves has last seen
it, unless the process stores nothing. -/
def Fresh : Action → Pool → Bool
  | .work i _, σ => (σ.processes[i]?).all fun p =>
    !p.phase.overwrites || !σ.world.snapshot.any WorkflowSnapshot.isTerminal
      || decide (p.seen = σ.world.snapshot)
  | _, _ => true

/-- The process has seen an instance that was not terminal. -/
def SeenLive (seen : Option WorkflowSnapshot) : Prop :=
  ∃ t, seen = some t ∧ t.isTerminal = false

/-- What an in-memory poll or save leaves in the hands of a process is live. -/
theorem seenLive_of_isInProgress (h : s.isInProgress) :
    SeenLive (some s) := ⟨s, rfl, isTerminal_of_isInProgress h⟩

theorem getTaskResult_of_results_none (h : s.getAllTaskResults = none)
    (t : TaskId) : s.getTaskResult t = none := by
  simp [WorkflowSnapshot.getTaskResult, h]

theorem leaveDrained_cases (payload : Bytes) (h : s.isInProgress) :
    (leaveDrained payload s).isInProgress
      ∨ (leaveDrained payload s).getAllTaskResults = none := by
  unfold leaveDrained
  split
  · dsimp only
    split
    · exact .inl (by simpa using h)
    · exact .inr rfl
  · exact .inl h

/-- The snapshot after a commit: still running, and seen so, or completed by a
drained signal, and then without results. -/
def Open (seen : Option WorkflowSnapshot) (s : WorkflowSnapshot) : Prop :=
  (s.isInProgress ∧ SeenLive seen) ∨ s.getAllTaskResults = none

/-- A process that may store something has seen an instance that was not terminal. -/
def Phase.Going (job : Submission) (seen : Option WorkflowSnapshot) : Phase → Prop
  | .advancing _ => SeenLive seen
  | .offered task => task.snapshot.isInProgress ∧ SeenLive seen
  | .guarding task _ | .executing task | .running task _ _ _ =>
    task.snapshot.isInProgress ∧ SeenLive seen ∧ job.continuation.taskIndex ≠ []
  | .retrying .. | .failing .. => SeenLive seen
  | .committing _ s _ | .draining _ s _ =>
    s.isInProgress ∧ SeenLive seen ∧ job.continuation.taskIndex ≠ []
  | .drained _ s _ => SeenLive seen ∧ (s.isInProgress ∨ s.getAllTaskResults = none)
      ∧ job.continuation.taskIndex ≠ []
  | .handingBack _ s _ | .concluding s _ _ => Open seen s ∧ job.continuation.taskIndex ≠ []
  | .resolving saves result _ => SeenLive seen ∧ (∀ s ∈ saves, s.isInProgress)
      ∧ (∀ s, result = .ok s → s.isInProgress) ∧ job.continuation.taskIndex ≠ []
  | .completing _ => SeenLive seen
  | .hydrating _ | .waking .. => False
  | .polling | .collecting | .selecting | .releasing _ | .cancelling _ | .cancelled .. | .done =>
    True

section pure

variable {job : Submission} {seen : Option WorkflowSnapshot}

theorem going_drain (output : Bytes) (hs : Open seen s) (hi : job.continuation.taskIndex ≠ []) :
    (drain task s output).Going job seen := by
  refine drain_of (fun hat => ?_) ⟨hs, hi⟩
  rcases hs with ⟨hp, hl⟩ | hn
  · exact ⟨hp, hl, hi⟩
  · -- a snapshot that waits for a signal has results
    unfold isAtSignal at hat
    split at hat
    · rename_i hst
      simp [WorkflowSnapshot.getAllTaskResults, hst] at hn
    · cases hat

theorem going_resolve {saves : List WorkflowSnapshot}
    {result : Except RuntimeError WorkflowSnapshot} (output : Bytes)
    (h : (SeenLive seen ∧ (∀ s ∈ saves, s.isInProgress) ∧ ∀ s, result = .ok s → s.isInProgress)
      ∨ (saves = [] ∧ ∀ s, result = .ok s → s.getAllTaskResults = none))
    (hi : job.continuation.taskIndex ≠ []) :
    (resolve saves result output).Going job seen := by
  refine resolve_of trivial (fun s _ hs => ⟨?_, hi⟩) fun hne => ?_
  · rcases h with ⟨hl, -, hr⟩ | ⟨-, hr⟩
    · exact .inl ⟨hr s hs, hl⟩
    · exact .inr (hr s hs)
  · rcases h with ⟨hl, hsv, hr⟩ | ⟨hnil, -⟩
    · exact ⟨hl, hsv, hr, hi⟩
    · exact absurd hnil hne

end pure

/-! ## Terminal instances -/

section terminal

variable {job : Submission} {w w' : PoolWorld} {s : WorkflowSnapshot}

theorem isInProgress_of_isTerminal (h : s.isTerminal) : s.isInProgress = false := by
  cases hp : s.isInProgress with
  | false => rfl
  | true => simp [isTerminal_of_isInProgress hp] at h

theorem updatePosition_of_isTerminal (h : s.isTerminal) (position : ExecutionPosition) :
    s.updatePosition position = s := by
  unfold WorkflowSnapshot.isTerminal at h
  unfold WorkflowSnapshot.updatePosition
  cases hs : s.state <;> simp_all

theorem markTaskCompleted_of_isTerminal (h : s.isTerminal) (taskId : TaskId) (output : Bytes) :
    s.markTaskCompleted taskId output = s := by
  unfold WorkflowSnapshot.isTerminal at h
  unfold WorkflowSnapshot.markTaskCompleted
  cases hs : s.state <;> simp_all

/-- Clients and the clock do not touch a terminal instance. -/
theorem snapshot_asks {a : Action} (h : Asks job a w w') (hs : w.snapshot = some s)
    (ht : s.isTerminal) : w'.snapshot = some s := by
  cases h.delivers with
  | kept h => exact h.trans hs
  | received s' signalId signalName payload wakeAt next completed last hb hs' hst =>
    obtain rfl : s = s' := by simpa [hs] using hs'
    simp [WorkflowSnapshot.isTerminal, hst] at ht
  | unpaused s' hs' hw =>
    obtain rfl : s = s' := by simpa [hs] using hs'
    subst hw
    unfold WorkflowSnapshot.isTerminal at ht
    unfold WorkflowSnapshot.markUnpaused
    cases hst : s.state <;> simp_all

/-- A process that overwrites the instance has seen it live. -/
theorem Phase.Going.live {seen : Option WorkflowSnapshot}
    (h : phase.Going job seen) (hover : phase.overwrites) : SeenLive seen := by
  cases phase with
  | advancing | retrying | failing | completing => exact h
  | committing => exact h.2.1
  | drained => exact h.1
  | resolving saves => exact h.1
  | waking => exact h.elim
  | _ => simp [Phase.overwrites] at hover

end terminal

section hashed

variable [Sha256]

section facts

variable {job : Submission}

theorem taskIndex_ne_nil_of_accepts (h : job.accepts task) :
    job.continuation.taskIndex ≠ [] := by
  intro hnil
  simp [accepts, WorkflowContinuation.indexed, hnil] at h

theorem isInProgress_commitSnapshot {output : Bytes} {now : Time}
    (h : job.commitSnapshot task output now = .ok s) (ht : task.snapshot.isInProgress) :
    s.isInProgress := by
  refine isInProgress_updatePositionAfterTask _ _ _ h ?_
  exact (WorkflowSnapshot.isInProgress_markTaskCompleted output).trans ht

end facts

/-! ## What a process keeps -/

section process

variable {job : Submission} {worker : Worker} {seen : Option WorkflowSnapshot} {w : PoolWorld}

theorem going_handedBack (output : Bytes) (hs : Open seen s)
    (hi : job.continuation.taskIndex ≠ []) :
    (resolve (job.continuation.resolveLoops job.backend job.codec s).saves
      (job.continuation.resolveLoops job.backend job.codec s).result output).Going job seen := by
  refine going_resolve output ?_ hi
  rcases hs with ⟨hp, hl⟩ | hn
  · have hall : (job.continuation.resolveLoops job.backend job.codec s).All
        fun s => s.isInProgress := isInProgress_resolveLoops job.continuation hp
    exact .inl ⟨hl, hall.1, hall.2⟩
  · rw [resolveLoops_of_empty _ (getTaskResult_of_results_none hn)]
    refine .inr ⟨rfl, ?_⟩
    rintro t ⟨⟩
    exact hn

/-- **A step of a process keeps what a process that may store has seen.** -/
theorem going_moves {w' : PoolWorld} {phase' : Phase} (hb : job.backend = inMemory)
    (hm : Moves job worker w w' phase phase') (hg : phase.Going job seen) :
    phase'.Going job (if phase.touchesStore then w'.snapshot else seen) := by
  have hsave : ∀ s w, (job.backend.saveSnapshot s w).snapshot = some s := by
    intro s w
    rw [hb]
    rfl
  have hafter : ∀ s, job.backend.afterSave s = s := by
    intro s
    rw [hb]
    rfl
  cases hm with
  | stop | collecting | collected | advanced | stopped | cancelling | retried | failed | checked
  | cancelled => trivial
  | hydrating blob hpg => simp [hb] at hpg
  | advancing advance h hw =>
    obtain ⟨s, hs, hp⟩ := collectAdvance_eq_some h
    simp only [Phase.touchesStore, if_true, hw, hs]
    exact seenLive_of_isInProgress hp
  | selected task h hw =>
    obtain ⟨hs, hp⟩ := selectTask_eq_some h
    simp only [Phase.touchesStore, if_true, hw, hs]
    exact ⟨hp, seenLive_of_isInProgress hp⟩
  | hydrated | woke => exact hg.elim
  | claimed task ha => exact ⟨hg.1, hg.2, taskIndex_ne_nil_of_accepts ha⟩
  | guarding | passed | lost | raised | called | beaten => exact hg
  | unready | interrupted => exact settleFailure_of hg.2.1 fun _ => hg.2.1
  | settled =>
    exact settle_of trivial (fun _ => settleFailure_of hg.2.1 fun _ => hg.2.1)
      fun _ s _ hs => ⟨isInProgress_commitSnapshot hs hg.1, hg.2⟩
  | committed task s output h =>
    obtain ⟨hp, -, hi⟩ := hg
    simp only [hb, saveSnapshotFenced, Prod.mk.injEq, true_and] at h
    simp only [Phase.touchesStore, if_true, ← h, hafter]
    exact going_drain output (.inl ⟨hp, seenLive_of_isInProgress hp⟩) hi
  | undrained task s output => exact ⟨.inl ⟨hg.1, hg.2.1⟩, hg.2.2⟩
  | draining task s output payload => exact ⟨hg.2.1, leaveDrained_cases payload hg.1, hg.2.2⟩
  | drained task s output hw =>
    obtain ⟨-, hs, hi⟩ := hg
    simp only [Phase.touchesStore, if_true, hw, hsave, hafter]
    exact going_drain output (hs.imp_left fun hp => ⟨hp, seenLive_of_isInProgress hp⟩) hi
  | handedBack task s output => exact going_handedBack output hg.1 hg.2
  | resolved s saves result output hw =>
    obtain ⟨-, hsv, hr, hi⟩ := hg
    simp only [Phase.touchesStore, if_true, hw, hsave]
    exact going_resolve output (.inl ⟨seenLive_of_isInProgress (hsv s (by simp)),
      fun t ht => hsv t (by simp [ht]), hr⟩) hi
  | unresolved result output =>
    obtain ⟨hl, hsv, hr, hi⟩ := hg
    exact going_resolve output (.inl ⟨hl, hsv, hr⟩) hi
  | concluding => exact hg
  | concluded s output =>
    refine conclude_of trivial fun hc => ?_
    rcases hg.1 with ⟨-, hl⟩ | hn
    · exact hl
    · exact absurd (taskIndex_eq_nil_of_complete _ (getTaskResult_of_results_none hn) hc) hg.2

end process

/-! ## What a process does to a terminal instance -/

section writes

variable {job : Submission} {worker : Worker} {w w' : PoolWorld} {s : WorkflowSnapshot}

theorem snapshot_applyAdvance {advance : Advance}
    (hover : (Phase.advancing advance).overwrites = false) (hs : w.snapshot = some s)
    (ht : s.isTerminal) : (applyAdvance advance w).snapshot = some s := by
  cases advance with
  | delay next => simp [applyAdvance, hs, updatePosition_of_isTerminal ht]
  | delayDone delayId => simp [Phase.overwrites] at hover
  | signal signalId signalName next | signalTimeout signalId signalName next =>
    cases next with
    | none => simp [Phase.overwrites] at hover
    | some next =>
      simp [applyAdvance, hs, World.leaveSignal, markTaskCompleted_of_isTerminal ht,
        updatePosition_of_isTerminal ht]

/-- A process that does not overwrite a terminal instance leaves it alone. -/
theorem snapshot_writes (h : Writes job worker phase w w')
    (hover : phase.overwrites = false) (hs : w.snapshot = some s) (ht : s.isTerminal) :
    w'.snapshot = some s := by
  cases h.stores with
  | kept h => exact h.trans hs
  | saved s' h' =>
    unfold Phase.toStore at h'
    split at h' <;> simp_all [Phase.overwrites]
  | advanced advance hp hw =>
    subst hp hw
    exact snapshot_applyAdvance hover hs ht
  | cancelled s' request taskId hs' hp | paused s' request hs' hp =>
    obtain rfl : s = s' := by simpa [hs] using hs'
    simp [isInProgress_of_isTerminal ht] at hp

end writes

/-! ## Whole runs -/

section runs

variable {job : Submission} {C : Action → Pool → Prop} {instanceId : String} {now : Time}
  {σ τ : Pool}

/-- In every state of a pool, a process that may store has seen a live instance. -/
theorem going_reachable (hb : job.backend = inMemory) (h : job.Reachable C instanceId now σ) :
    ∀ p ∈ σ.processes, p.phase.Going job p.seen := by
  refine (Submission.Reachable.invariant h (I := fun _ => True)
    (P := fun _ p => p.phase.Going job p.seen) trivial ?_ ?_ ?_ ?_ ?_).2
  · exact fun w worker _ => trivial
  · intro w worker hint _
    rw [hb]
    trivial
  · exact fun w p _ => trivial
  · exact fun a w w' _ _ => ⟨trivial, fun p hp => hp⟩
  · intro σ i choice p phase' w' _ _ _ hg _ hm
    exact ⟨trivial, going_moves hb hm hg, fun q hq => hq⟩

/-- A fresh step does not touch a terminal instance. -/
theorem snapshot_step {a : Action}
    (hgoing : ∀ p ∈ σ.processes, p.phase.Going job p.seen) (hf : Fresh a σ)
    (hs : σ.world.snapshot = some s) (ht : s.isTerminal) :
    (job.step a σ).world.snapshot = some s := by
  have hstep := job.steps_step a σ
  generalize job.step a σ = σ' at hstep
  cases hstep with
  | queued | polled | hinted | crashed => exact hs
  | asked w' requests ha => exact snapshot_asks ha hs ht
  | worked i choice p phase' w' ha hi hwrites hmoves =>
    refine snapshot_writes hwrites ?_ hs ht
    rw [Bool.eq_false_iff]
    intro hover
    -- the process has seen the instance live, but by freshness it has seen it terminal
    obtain ⟨t, hseen, hlive⟩ := (hgoing p (List.mem_of_getElem? hi)).live hover
    subst ha
    simp only [Fresh, hi, hs, hover, ht, Option.all_some, Option.any_some, Bool.not_true,
      Bool.false_or, decide_eq_true_eq] at hf
    rw [hf, Option.some.injEq] at hseen
    subst hseen
    simp [ht] at hlive

/-- **Terminal states are final in memory as long as no worker overwrites an instance
that has become terminal since it last saw it.** -/
theorem terminal_final_of_fresh {s : WorkflowSnapshot} (hb : job.backend = inMemory)
    (hσ : job.Reachable (fun a σ => Fresh a σ) instanceId now σ)
    (hτ : Walk job.step (fun a σ => Fresh a σ) σ τ)
    (hs : σ.world.snapshot = some s) (ht : s.isTerminal) : τ.world.snapshot = some s := by
  refine Walk.invariant_of hτ (I := fun τ => τ.world.snapshot = some s)
    (J := fun τ => ∀ p ∈ τ.processes, p.phase.Going job p.seen) ?_ hs ?_
  · intro υ hυ
    exact going_reachable hb (Walk.trans hσ hυ)
  · intro a υ hgoing hsnap hf
    exact snapshot_step hgoing hf hsnap ht

end runs

end hashed

/-! ## A cancelled instance that runs again -/

section sample

attribute [local instance] Sha256.packed

/-- Task functions that append the name of the task to their input. -/
def appendingTasks : Callbacks where
  execute name input := .ok (input ++ name.toList.map fun c => c.toNat.toUInt8)
  duration _ _ := 1

/-- Two tasks in a row. -/
def twoTasks (b : Backend) : Submission where
  backend := b
  codec := .plain
  callbacks := appendingTasks
  continuation := .task "t1" .plain (some (.task "t2" .plain none))
  definitionHash := ⟨0⟩
  input := [1]

/-- A worker with the default time to live of a claim. -/
def sampleWorker (id : String) : Worker := ⟨id, some (Duration.fromMillis 300000), []⟩

/-- The workers `a` and `b` poll. `a` executes the first task, then `b` claims it with
the snapshot of its poll and executes it again. Meanwhile `c` polls, a cancellation
is requested, and `c` applies it. -/
def cancelledMeanwhile : List Action :=
  .poll (sampleWorker "a") :: Action.calls 0 3 ++ .poll (sampleWorker "b") :: Action.calls 1 3
    ++ Action.calls 0 9 ++ Action.calls 1 5 ++ .poll (sampleWorker "c") :: Action.calls 2 3
    ++ [.request .cancel ⟨none, none⟩, .insertRequest 0] ++ Action.calls 2 3

theorem terminal_final_after_completion :
    let done := perform (twoTasks .inMemory).step
      (.poll (sampleWorker "a") :: Action.calls 0 12 ++ .poll (sampleWorker "b") ::
        Action.calls 1 13) ((twoTasks .inMemory).start "i" 0)
    done.world.snapshot.any (·.isTerminal) ∧ ∀ s, done.world.snapshot = some s →
      (perform (twoTasks .inMemory).step (.poll (sampleWorker "c") :: Action.calls 2 3)
        done).world.snapshot = some s := by
  intro done
  have ht : done.world.snapshot.any (·.isTerminal) := by decide
  refine ⟨ht, fun s hs => ?_⟩
  have hdone : (twoTasks .inMemory).Reachable (fun a σ => Fresh a σ) "i" 0 done :=
    Walk.perform (by decide)
  exact terminal_final_of_fresh rfl hdone (Walk.perform (by decide)) hs (by simpa [hs] using ht)

/-- `b` stores the snapshot of its execution over the cancelled one. -/
theorem cancelled_is_resurrected :
    let σ := perform (twoTasks .inMemory).step cancelledMeanwhile
      ((twoTasks .inMemory).start "i" 0)
    (twoTasks .inMemory).Reachable (fun _ _ => True) "i" 0 σ
      ∧ σ.world.snapshot.any (·.isTerminal)
      ∧ ((twoTasks .inMemory).step (.work 1 .proceed) σ).world.snapshot.any (·.isInProgress) := by
  refine ⟨Walk.perform ?_, by decide, by decide⟩
  decide

end sample

end Sayiir
