import Sayiir.Proof.PoolSteps
import Sayiir.Proof.Terminal
import Sayiir.Runtime.Submit

/-!
# Concurrent submissions

A submission looks for the instance and stores the first snapshot in two backend
calls, and the store takes whatever it is given. So two submissions that look before
either has stored both create the instance, and the second one throws away whatever
has been done in between. If no submission looks while another one is about to store,
there is one creator, and nothing is ever overwritten.
-/

namespace Sayiir

open Backend

variable {call : SubmitCall}

/-- The call has created the instance. -/
def SubmitPhase.created : SubmitPhase → Bool
  | .returned _ created => created
  | _ => false

/-- The call has created the instance or is about to. -/
def SubmitPhase.creates : SubmitPhase → Bool
  | .creating => true
  | phase => phase.created

/-- The calls of the policies that leave an existing instance alone. -/
def SubmitPhase.gentle : SubmitPhase → Bool
  | .terminating | .deleting | .clearing _ => false
  | .checking | .creating | .returned .. | .killed => true

namespace Intake

/-- No submission terminates an existing instance, and none finds the instance missing
while another one that has found it missing is still to store it. -/
def OneAtATime : IntakeAction → Intake → Bool
  | .submit policy _ _ _, _ => decide (policy ≠ .terminateExisting)
  | .advance i, σ => match σ.calls[i]? with
      | none => true
      | some call =>
        call.phase ≠ .checking || σ.pool.world.snapshot.isSome
          || σ.calls.all (·.phase ≠ .creating)
  | .kill _, _ | .work _, _ | .store _, _ => true

variable {σ : Intake}

/-! ## One creator -/

/-- The calls that have created the instance or are about to are one at most, and the
instance is missing as long as it is still to be created. -/
structure Settled (σ : Intake) : Prop where
  gentle : ∀ call ∈ σ.calls, call.phase.gentle
  single : ∀ (i j : ℕ) (c d : SubmitCall), σ.calls[i]? = some c → σ.calls[j]? = some d →
    c.phase.creates → d.phase.creates → i = j
  vacant : ∀ call ∈ σ.calls, call.phase = .creating → σ.pool.world.snapshot = none
  stored : ∀ call ∈ σ.calls, call.phase.created → σ.pool.world.snapshot.isSome
  reported : ∀ call ∈ σ.calls, ∀ r, call.phase = .returned r false →
    (∃ e, r = .error (.invalidInstanceId e))
      ∨ ∃ instanceId s, r = call.report instanceId s

theorem settled_start (w : PoolWorld) : (start w).Settled := by
  constructor <;> simp [start]

/-- Work on the instance leaves the calls as they are. -/
theorem Settled.work (h : σ.Settled) {pool : Pool}
    (hs : pool.world.snapshot.isSome = σ.pool.world.snapshot.isSome) :
    Settled { σ with pool := pool } where
  gentle := h.gentle
  single := h.single
  vacant call hc hp := by
    have := h.vacant call hc hp
    rw [this] at hs
    simpa using hs
  stored call hc hp := by
    rw [hs]
    exact h.stored call hc hp
  reported := h.reported

/-- A call that neither creates the instance nor is about to may join, or take the
place of another one. -/
theorem Settled.change (h : σ.Settled) {calls : List SubmitCall}
    (hgentle : ∀ c ∈ calls, c ∈ σ.calls ∨ c.phase.gentle)
    (hcreates : ∀ (i : ℕ) (c : SubmitCall), calls[i]? = some c → c.phase.creates →
      σ.calls[i]? = some c)
    (hreported : ∀ c ∈ calls, c ∈ σ.calls ∨ ∀ r, c.phase = .returned r false →
      (∃ e, r = .error (.invalidInstanceId e)) ∨ ∃ instanceId s, r = c.report instanceId s) :
    Settled { σ with calls := calls } where
  gentle c hc := (hgentle c hc).elim (h.gentle c) id
  single i j c d hi hj hc hd := h.single i j c d (hcreates i c hi hc) (hcreates j d hj hd) hc hd
  vacant c hc hp := by
    obtain ⟨i, hi⟩ := List.mem_iff_getElem?.mp hc
    exact h.vacant c (List.mem_of_getElem? (hcreates i c hi (by simp [hp, SubmitPhase.creates]))) hp
  stored c hc hp := by
    obtain ⟨i, hi⟩ := List.mem_iff_getElem?.mp hc
    have hcr : c.phase.creates := by
      unfold SubmitPhase.creates
      split
      · rfl
      · exact hp
    exact h.stored c (List.mem_of_getElem? (hcreates i c hi hcr)) hp
  reported c hc := (hreported c hc).elim (h.reported c) id

/-- One call goes on without having to do with the creation. -/
theorem Settled.replace (h : σ.Settled) {i : ℕ} {phase' : SubmitPhase}
    (hgentle : phase'.gentle) (hcreates : phase'.creates = false)
    (hreported : ∀ r, phase' = .returned r false →
      (∃ e, r = .error (.invalidInstanceId e)) ∨ ∃ instanceId s, r = call.report instanceId s) :
    Settled { σ with calls := σ.calls.set i { call with phase := phase' } } := by
  refine h.change (fun c hc => ?_) (fun k c hk hc => ?_) (fun c hc => ?_)
  · rcases List.mem_or_eq_of_mem_set hc with hc | rfl
    · exact .inl hc
    · exact .inr hgentle
  · rw [List.getElem?_set] at hk
    split at hk
    · split at hk
      · cases hk
        simp [hcreates] at hc
      · cases hk
    · exact hk
  · rcases List.mem_or_eq_of_mem_set hc with hc | rfl
    · exact .inl hc
    · exact .inr hreported

/-- The instance is missing, and no other call is about to create it. -/
theorem Settled.create (h : σ.Settled) {i : ℕ}
    (hnone : σ.pool.world.snapshot = none) (halone : ∀ c ∈ σ.calls, c.phase ≠ .creating) :
    Settled { σ with calls := σ.calls.set i { call with phase := .creating } } := by
  have hidle : ∀ c ∈ σ.calls, c.phase.creates = false := by
    intro c hc
    cases hcr : c.phase.created with
    | true =>
      have := h.stored c hc hcr
      simp [hnone] at this
    | false =>
      unfold SubmitPhase.creates
      split
      · rename_i hp
        exact absurd hp (halone c hc)
      · exact hcr
  have hat : ∀ (k : ℕ) c, (σ.calls.set i { call with phase := .creating })[k]? = some c →
      c.phase.creates → k = i := by
    intro k c hk hc
    by_contra hne
    rw [List.getElem?_set_ne (Ne.symm hne)] at hk
    rw [hidle c (List.mem_of_getElem? hk)] at hc
    cases hc
  refine ⟨fun c hc => ?_, fun k l c d hk hl hc hd => ?_, fun _ _ _ => hnone, fun c hc hp => ?_,
    fun c hc => ?_⟩
  · rcases List.mem_or_eq_of_mem_set hc with hc | rfl
    · exact h.gentle c hc
    · rfl
  · rw [hat k c hk hc, hat l d hl hd]
  · rcases List.mem_or_eq_of_mem_set hc with hc | rfl
    · exact h.stored c hc hp
    · cases hp
  · rcases List.mem_or_eq_of_mem_set hc with hc | rfl
    · exact h.reported c hc
    · intro r hr
      cases hr

/-- The one call that is about to create the instance does so. -/
theorem Settled.save (h : σ.Settled) {i : ℕ} (hi : σ.calls[i]? = some call)
    (hp : call.phase = .creating) (result : SubmitResult) {w : PoolWorld} (hw : w.snapshot.isSome) :
    Settled ⟨{ σ.pool with world := w },
      σ.calls.set i { call with phase := .returned result true }⟩ := by
  have hcr : call.phase.creates := by simp [hp, SubmitPhase.creates]
  have hat : ∀ (k : ℕ) c,
      (σ.calls.set i { call with phase := .returned result true })[k]? = some c →
      c.phase.creates → k = i := by
    intro k c hk hc
    by_contra hne
    rw [List.getElem?_set_ne (Ne.symm hne)] at hk
    exact hne (h.single k i c call hk hi hc hcr)
  refine ⟨fun c hc => ?_, fun k l c d hk hl hc hd => ?_, fun c hc hpc => ?_, fun _ _ _ => hw,
    fun c hc => ?_⟩
  · rcases List.mem_or_eq_of_mem_set hc with hc | rfl
    · exact h.gentle c hc
    · rfl
  · rw [hat k c hk hc, hat l d hl hd]
  · -- any call still about to create would be this one
    obtain ⟨k, hk⟩ := List.mem_iff_getElem?.mp hc
    have hki := hat k c hk (by simp [hpc, SubmitPhase.creates])
    subst hki
    rw [List.getElem?_set_self (List.getElem?_eq_some_iff.mp hi).1] at hk
    cases hk
    cases hpc
  · rcases List.mem_or_eq_of_mem_set hc with hc | rfl
    · exact h.reported c hc
    · intro r hr
      cases hr

/-- A call begins by looking, unless its id is invalid. -/
theorem enter_gentle (instanceId : String) {policy : ConflictPolicy}
    (hpolicy : policy ≠ .terminateExisting) (definitionHash : DefinitionHash) (input : Bytes)
    (firstTask : TaskHint) :
    let call := SubmitCall.enter instanceId policy definitionHash input firstTask
    call.phase.gentle ∧ call.phase.creates = false
      ∧ ∀ r, call.phase = .returned r false → ∃ e, r = .error (.invalidInstanceId e) := by
  simp only [SubmitCall.enter, if_neg hpolicy]
  split
  · rename_i e _
    refine ⟨rfl, rfl, fun r hr => ⟨e, ?_⟩⟩
    cases hr
    rfl
  · exact ⟨rfl, rfl, fun r hr => nomatch hr⟩

/-! ## Steps -/

section hashed

variable [Sha256] {job : Submission}

/-- No step of the pool removes the instance. -/
theorem isSome_snapshot_step (a : Action) {ρ : Pool} (h : ρ.world.snapshot.isSome) :
    (job.step a ρ).world.snapshot.isSome := by
  have hstep := job.steps_step a ρ
  generalize job.step a ρ = ρ' at hstep
  cases hstep with
  | queued requests => exact h
  | polled worker ha => exact h
  | hinted worker hint ha => exact h
  | crashed i p ha hi => exact h
  | asked w' requests ha =>
    cases ha.delivers with
    | kept hs => rwa [hs]
    | received s signalId signalName payload wakeAt next completed last hb hs hst hw =>
      rw [hw]
      rfl
    | unpaused s hs hw =>
      rw [hw]
      rfl
  | worked i choice p phase' w' ha hi hwrites hmoves =>
    cases hwrites.stores with
    | kept hs => rwa [hs]
    | saved s _ _ hs => simp [hs]
    | advanced advance _ hw =>
      rw [hw]
      cases advance <;> simpa [applyAdvance] using h
    | cancelled s request taskId _ _ hs => simp [hs]
    | paused s request _ _ hs => simp [hs]

/-- **One step keeps at most one creator.** -/
theorem settled_step (a : IntakeAction) (h : σ.Settled) (ha : OneAtATime a σ) :
    (step job a σ).Settled := by
  cases a with
  | submit policy definitionHash input firstTask =>
    have hpolicy : policy ≠ .terminateExisting := of_decide_eq_true ha
    obtain ⟨hgentle, hcreates, hreported⟩ := enter_gentle σ.pool.world.instanceId hpolicy
      definitionHash input firstTask
    refine h.change (fun c hc => ?_) (fun k c hk hc => ?_) (fun c hc => ?_)
    · rcases List.mem_append.mp hc with hc | hc
      · exact .inl hc
      · rw [List.mem_singleton.mp hc]
        exact .inr hgentle
    · rw [List.getElem?_append] at hk
      split at hk
      · exact hk
      · have hmem := List.mem_singleton.mp (List.mem_of_getElem? hk)
        rw [hmem, hcreates] at hc
        cases hc
    · rcases List.mem_append.mp hc with hc | hc
      · exact .inl hc
      · rw [List.mem_singleton.mp hc]
        exact .inr fun r hr => .inl (hreported r hr)
  | advance i =>
    unfold step
    dsimp only
    split
    · exact h
    · rename_i call hi
      simp only [OneAtATime, hi] at ha
      have hgentle := h.gentle call (List.mem_of_getElem? hi)
      unfold SubmitCall.advance
      cases hp : call.phase with
      | checking =>
        dsimp only
        cases hs : σ.pool.world.snapshot with
        | some existing =>
          exact h.replace rfl rfl fun r hr => .inr ⟨σ.pool.world.instanceId, _, by
            cases hr
            rfl⟩
        | none =>
          refine h.create hs ?_
          simpa [hp, hs] using ha
      | creating => exact h.save hi hp _ (isSome_snapshot_saveSnapshot _)
      | returned result created =>
        have hsame : σ.calls.set i { call with phase := .returned result created } = σ.calls := by
          rw [← hp]
          obtain ⟨hlt, hget⟩ := List.getElem?_eq_some_iff.mp hi
          rw [← hget, List.set_getElem_self]
        rw [hsame]
        exact h
      | killed => exact h.replace rfl rfl fun r hr => nomatch hr
      | terminating => simp [hp, SubmitPhase.gentle] at hgentle
      | deleting => simp [hp, SubmitPhase.gentle] at hgentle
      | clearing kind => simp [hp, SubmitPhase.gentle] at hgentle
  | kill i =>
    unfold step
    dsimp only
    split
    · exact h
    · exact h.replace rfl rfl fun r hr => nomatch hr
  | work a =>
    unfold step
    dsimp only
    split
    · rename_i hs
      exact h.work (by rw [hs, isSome_snapshot_step a hs])
    · exact h
  | store s =>
    unfold step
    dsimp only
    split
    · rename_i hs
      exact h.work (by rw [hs, isSome_snapshot_saveSnapshot])
    · exact h

end hashed

section sample

attribute [local instance] Sha256.packed

/-- Somebody submits the two tasks of the sample and is to fail on a conflict. -/
def submitTwoTasks : IntakeAction :=
  .submit .fail ⟨0⟩ [1] (twoTasks .inMemory).continuation.firstTaskHint

/-- No instance has been stored. -/
def vacantWorld : PoolWorld where
  toWorld := World.fresh "i" 0
  claims := []
  outputs := fun _ => none

/-- One submission after the other. -/
def inTurn : List IntakeAction :=
  [submitTwoTasks, .advance 0, .advance 0, submitTwoTasks, .advance 1]

/-- Two submissions look for the instance, the first one stores it, and a worker executes
the first task. -/
def bothLook : List IntakeAction :=
  [submitTwoTasks, submitTwoTasks, .advance 0, .advance 1, .advance 0]
    ++ (Action.poll (sampleWorker "a") :: Action.calls 0 12).map .work

end sample

end Intake

end Sayiir
