import Sayiir.Runtime.Crew

/-!
# Pausing and unpausing

A pause request is stored, a guard applies it and removes it, and `unpause` puts
the instance back in progress. In between more requests may be accepted. The round
trip loses nothing of the stored snapshot but the deadline of the running task.

Two things come back only in memory. The Postgres `unpause` returns the snapshot
that `encode_blob` has stripped of its outputs, and a request that Postgres accepts
while the instance is paused is inserted and outlives the unpause, where it keeps
the instance from being dispatched.
-/

namespace Sayiir

open WorkflowSnapshot

namespace Backend

variable (b : Backend) {w : PoolWorld} {s : WorkflowSnapshot}

/-- `store_signal` of a pause request. -/
def storePause (request : SignalRequest) (w : PoolWorld) : Except BackendError Unit × PoolWorld :=
  match b.validateSignal .pause w with
  | .error e => (.error e, w)
  | .ok insert => (.ok (), if insert then insertSignal .pause request w else w)

/-- Several pause requests. -/
def storePauses (requests : List SignalRequest) (w : PoolWorld) : PoolWorld :=
  requests.foldl (fun w request => (b.storePause request w).2) w

/-- `unpause` with the snapshot it returns. Postgres loads the outputs, and encoding
the blob empties them again in the snapshot it then returns. -/
def unpaused (w : PoolWorld) : Except BackendError WorkflowSnapshot × PoolWorld :=
  (w.toWorld.unpause.1.map fun s => match b with
    | inMemory => s
    | postgres => (postgres.view w s).stripTaskOutputs, unpause w)

/-- A pause that is requested, once or more, and applied, with what is requested
until it is taken back. -/
def pause (first : SignalRequest) (before after : List SignalRequest) (w : PoolWorld) :
    PoolWorld :=
  b.storePauses after (b.checkAndPause (b.storePauses (first :: before) w)).2

/-! ## The requests -/

variable {b}

theorem storePause_of_inProgress (hs : w.snapshot = some s) (hp : s.isInProgress)
    (request : SignalRequest) :
    b.storePause request w = (.ok (), { w with pauseSignal := some request }) := by
  obtain ⟨position, completed, last, hstate⟩ := isInProgress_iff.mp hp
  simp [storePause, validateSignal, hs, hstate, insertSignal]

/-- A running instance accepts every request and keeps the last one. -/
theorem storePauses_of_inProgress (hs : w.snapshot = some s) (hp : s.isInProgress)
    (first : SignalRequest) (requests : List SignalRequest) :
    ∃ request, b.storePauses (first :: requests) w = { w with pauseSignal := some request } := by
  induction requests generalizing first w with
  | nil => exact ⟨first, congrArg Prod.snd (storePause_of_inProgress hs hp first)⟩
  | cons second rest ih =>
    have hstep : b.storePauses (first :: second :: rest) w
        = b.storePauses (second :: rest) { w with pauseSignal := some first } := by
      change List.foldl _ (b.storePause first w).2 (second :: rest) = _
      rw [storePause_of_inProgress hs hp]
      rfl
    rw [hstep]
    obtain ⟨request, h⟩ := ih (w := { w with pauseSignal := some first }) hs second
    exact ⟨request, h⟩

/-- A paused instance accepts every request: in memory it is dropped, Postgres keeps
the last one. -/
theorem storePauses_of_paused (hs : w.snapshot = some s) (hp : s.isPaused)
    (requests : List SignalRequest) :
    b.storePauses requests w = match b with
      | inMemory => w
      | postgres => { w with pauseSignal := requests.getLast?.or w.pauseSignal } := by
  have hone (request : SignalRequest) {w : PoolWorld} (hs : w.snapshot = some s) :
      (b.storePause request w).2 = match b with
        | inMemory => w
        | postgres => { w with pauseSignal := some request } := by
    unfold isPaused at hp
    split at hp
    · rename_i hstate
      cases b <;> simp [storePause, validateSignal, hs, hstate, insertSignal]
    · exact absurd hp (by simp)
  induction requests generalizing w with
  | nil => cases b <;> rfl
  | cons request rest ih =>
    change b.storePauses rest (b.storePause request w).2 = _
    rw [hone request hs]
    cases b with
    | inMemory => exact ih hs
    | postgres =>
      refine (ih (w := { w with pauseSignal := some request }) hs).trans ?_
      cases rest <;> simp [List.getLast?_cons]

/-! ## Applying and taking back -/

theorem markUnpaused_markPaused (hp : s.isInProgress) (request : SignalRequest) :
    (s.markPaused request).markUnpaused = { s with taskDeadline := none } := by
  obtain ⟨position, completed, last, hstate⟩ := isInProgress_iff.mp hp
  simp [markPaused, markUnpaused, hstate]

theorem isPaused_markPaused (hp : s.isInProgress) (request : SignalRequest) :
    (s.markPaused request).isPaused := by
  obtain ⟨position, completed, last, hstate⟩ := isInProgress_iff.mp hp
  simp [markPaused, isPaused, hstate]

theorem checkAndPause_of_inProgress (hs : w.snapshot = some s) (hp : s.isInProgress)
    {request : SignalRequest} (hr : w.pauseSignal = some request) :
    (b.checkAndPause w).2
      = { w with snapshot := some (s.markPaused request), pauseSignal := none } := by
  cases b <;> simp [checkAndPause, World.checkAndPause, Postgres.checkAndPause, Postgres.checkAnd,
    markIfInProgress, Postgres.clearSignal, hs, hp, hr]

/-- A paused instance, and the requests that are pending for it. -/
theorem pause_eq (hs : w.snapshot = some s) (hp : s.isInProgress) (first : SignalRequest)
    (before after : List SignalRequest) :
    ∃ request, b.pause first before after w = { w with
      snapshot := some (s.markPaused request)
      pauseSignal := match b with
        | inMemory => none
        | postgres => after.getLast? } := by
  obtain ⟨request, hstored⟩ := storePauses_of_inProgress (b := b) hs hp first before
  refine ⟨request, ?_⟩
  unfold pause
  rw [hstored, checkAndPause_of_inProgress (w := { w with pauseSignal := some request }) hs hp rfl,
    storePauses_of_paused rfl (isPaused_markPaused hp request)]
  cases b <;> simp

theorem unpaused_of_markPaused (hp : s.isInProgress) {request : SignalRequest}
    (hs : w.snapshot = some (s.markPaused request)) :
    b.unpaused w = (.ok (match b with
        | inMemory => { s with taskDeadline := none }
        | postgres =>
          (postgres.view w { s with taskDeadline := none }).stripTaskOutputs),
      { w with snapshot := some { s with taskDeadline := none } }) := by
  have hunpause : w.toWorld.unpause = (.ok { s with taskDeadline := none },
      { w.toWorld with snapshot := some { s with taskDeadline := none } }) := by
    have hpaused := isPaused_markPaused hp request
    unfold isPaused at hpaused
    split at hpaused
    · rename_i hstate
      simp [World.unpause, hs, hstate, markUnpaused_markPaused hp]
    · exact absurd hpaused (by simp)
  unfold unpaused unpause
  rw [hunpause]
  cases b <;> rfl

/-- Emptying the outputs changes nothing exactly when they are empty. -/
theorem stripTaskOutputs_eq_self (hp : s.isInProgress) :
    s.stripTaskOutputs = s ↔ ∀ t r, s.getTaskResult t = some r → r.output = [] := by
  constructor
  · intro h t r hr
    have hmap : s.stripTaskOutputs.getTaskResult t = _ := getTaskResult_mapOutputs fun _ _ => []
    rw [h, hr] at hmap
    exact congrArg TaskResult.output (Option.some.inj hmap)
  · intro h
    obtain ⟨position, completed, last, hstate⟩ := isInProgress_iff.mp hp
    have hcompleted : completed.mapOutputs (fun _ _ => []) = completed := by
      refine AList.ext ((List.map_congr_left fun e he => ?_).trans (List.map_id _))
      have hempty := h e.1 e.2 (by
        unfold getTaskResult getAllTaskResults
        rw [hstate]
        exact AList.mem_lookup_iff.mpr he)
      simp [← hempty]
    unfold stripTaskOutputs mapOutputs
    rw [hstate]
    simp only [hcompleted]
    rw [← hstate]

/-- The outputs are loaded whatever the deadline is. -/
theorem view_withoutDeadline (w : PoolWorld) (s : WorkflowSnapshot) :
    b.view w { s with taskDeadline := none } = { b.view w s with taskDeadline := none } := by
  cases b with
  | inMemory => rfl
  | postgres =>
    obtain ⟨_, _, state, _⟩ := s
    cases state <;> rfl

section sample

attribute [local instance] Sha256.packed

/-- An instance at its second task, with what the first one returned, stored. -/
def storing (b : Backend) (output : Bytes) : PoolWorld :=
  b.saveSnapshot (((new "i" ⟨0⟩).markTaskCompleted (TaskId.sha256 "a") output).updatePosition
    (.atTask (TaskId.sha256 "b"))) ⟨World.fresh "i" 0, [], fun _ => none⟩

end sample

end Backend

end Sayiir
