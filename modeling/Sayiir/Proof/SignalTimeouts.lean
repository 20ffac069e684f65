import Sayiir.Persistence.Backend
import Sayiir.Proof.Deadlines
import Sayiir.Runtime.Cloudflare

/-!
# Waits for a signal that are over

A wait with a timeout is ended by whoever looks at the instance first: a resumed
execution, a poll of the in-memory backend, or a resume on Cloudflare. The guide says
that a workflow whose timeout expires fails. None of the three lets it fail: each
records the payload of an event, or an empty one if there is none, and goes on.
-/

namespace Sayiir

open WorkflowSnapshot Backend

/-- Who looks at an instance that waits. -/
inductive Resolver where
  | resume
  | poll
  | cloudflare

namespace Resolver

variable [Sha256]

/-- What is stored after a look at the instance `s`. -/
def look (r : Resolver) (cb : Callbacks) (s : WorkflowSnapshot) (w : PoolWorld) :
    Option WorkflowSnapshot :=
  match r with
  | resume => ((ResumeParkedPosition.extract s).resolve.alone cb s w.toWorld).2.snapshot
  | cloudflare =>
    ((Cloudflare.resolveParked (ResumeParkedPosition.extract s)).alone cb s w.toWorld).2.snapshot
  | poll => match collectAdvance w with
      | some advance => (applyAdvance advance w).snapshot
      | none => w.snapshot

/-- The node under which the payload is recorded. A poll takes the name of the signal for it. -/
def node (r : Resolver) (signalId : TaskId) (signalName : String) : TaskId :=
  match r with
  | resume | cloudflare => signalId
  | poll => TaskId.sha256 signalName

end Resolver

/-- The instance goes on from a wait that has ended with `payload`. -/
def goneOn (node : TaskId) (payload : Bytes) (next : Option TaskId) (s : WorkflowSnapshot) :
    WorkflowSnapshot :=
  match next with
  | some taskId => (s.markTaskCompleted node payload).updatePosition (.atTask taskId)
  | none => (s.markTaskCompleted node payload).markCompleted payload

section looks

variable [Sha256] {cb : Callbacks} {s : WorkflowSnapshot} {node : TaskId} {signalName : String}
  {wakeAt : Time} {next : Option TaskId}

section resumed

variable {w : World}

omit [Sha256] in
/-- Without a pending request nothing stops a resumed execution. -/
theorem alone_checkParkedSignals (hc : w.cancelSignal = none) (hp : w.pauseSignal = none) :
    (checkParkedSignals node).alone cb s w = ((.ok none, s), w) := by
  have hcancel : (Exec.checkAndCancel (some node)).alone cb s w = ((.ok false, s), w) := by
    change (((w.checkAndCancel (some node)).1.mapError RuntimeError.backend, s),
      (w.checkAndCancel (some node)).2) = _
    unfold World.checkAndCancel
    rw [hc]
    rfl
  have hpause : Exec.checkAndPause.alone cb s w = ((.ok false, s), w) := by
    change ((w.checkAndPause.1.mapError RuntimeError.backend, s), w.checkAndPause.2) = _
    unfold World.checkAndPause
    rw [hp]
    rfl
  exact (alone_bind_ok hcancel).trans (alone_bind_ok hpause)

omit [Sha256] in
theorem snapshot_leave (payload : Bytes) : ((ResumeParkedPosition.leave next payload).alone cb
    (s.markTaskCompleted node payload) w).2.snapshot = some (goneOn node payload next s) := by
  cases next <;> rfl

omit [Sha256] in
/-- A resumed execution goes on from a wait that is over. -/
theorem snapshot_resolve (hc : w.cancelSignal = none) (hp : w.pauseSignal = none)
    (hrun : s.isInProgress) (hdue : wakeAt ≤ w.clock) :
    ((ResumeParkedPosition.signal node signalName (some wakeAt) next).resolve.alone cb s w).2.snapshot
      = some (goneOn node ((w.events signalName).head?.getD []) next s) := by
  unfold ResumeParkedPosition.resolve
  rw [alone_bind_ok (alone_checkParkedSignals hc hp)]
  have hevent : (Exec.consumeEvent signalName).alone cb s w
      = (((w.consumeEvent signalName).1.mapError .backend, s), (w.consumeEvent signalName).2) := rfl
  unfold World.consumeEvent at hevent
  cases hq : w.events signalName with
  | nil =>
    rw [hq] at hevent
    rw [alone_bind_ok hevent]
    dsimp only
    rw [alone_utcNow_bind, if_pos hdue, alone_modify_bind]
    exact snapshot_leave []
  | cons payload rest =>
    rw [hq] at hevent
    rw [alone_bind_ok hevent]
    dsimp only
    rw [alone_modify_bind, alone_get_bind, getTaskResultBytes_markTaskCompleted,
      if_pos ⟨hrun, rfl⟩]
    exact snapshot_leave payload

end resumed

variable {w : PoolWorld} {completed : CompletedTasks} {last : Option TaskId}

/-- **Every look at a wait that is over lets the instance go on.** -/
theorem look_eq (r : Resolver) (hs : w.snapshot = some s)
    (hstate : s.state = .inProgress (.atSignal node signalName (some wakeAt) next) completed last)
    (hsig : w.hasSignal = false) (hdue : wakeAt ≤ w.clock) :
    r.look cb s w
      = some (goneOn (r.node node signalName) ((w.events signalName).head?.getD []) next s) := by
  obtain ⟨hc, hp⟩ : w.cancelSignal = none ∧ w.pauseSignal = none := by
    simpa [PoolWorld.hasSignal] using hsig
  have hrun : s.isInProgress := by simp [isInProgress, hstate]
  have hx : ResumeParkedPosition.extract s = .signal node signalName (some wakeAt) next := by
    simp [ResumeParkedPosition.extract, hstate]
  cases r with
  | resume =>
    unfold Resolver.look
    rw [hx]
    exact snapshot_resolve hc hp hrun hdue
  | cloudflare =>
    unfold Resolver.look
    rw [hx]
    exact snapshot_resolve hc hp hrun hdue
  | poll =>
    cases hq : w.events signalName with
    | nil =>
      have hadvance : collectAdvance w = some (.signalTimeout node signalName next) := by
        simp [collectAdvance, hs, hsig, hstate, hq, hdue]
      simp only [Resolver.look, hadvance, applyAdvance, hs]
      cases next <;> rfl
    | cons payload rest =>
      have hadvance : collectAdvance w = some (.signal node signalName next) := by
        simp [collectAdvance, hs, hsig, hstate, hq]
      simp only [Resolver.look, hadvance, applyAdvance, hs, hq]
      cases next <;> rfl

end looks

section sample

attribute [local instance] Sha256.packed

/-- A wait of at most two seconds for an approval, and a task that needs it. -/
def approvalJob : Job where
  executor := .callback
  codec := .plain
  callbacks := ⟨fun _ input => .ok (9 :: input), fun _ _ => 0⟩
  continuation := .awaitSignal "w" "approval" (some (Duration.fromMillis 2000))
    (some (.task "t" ⟨true, none, none, none, none, []⟩ none))
  definitionHash := ⟨0⟩
  input := [7]

/-- The instance of the job, waiting. -/
def waitingSnapshot : WorkflowSnapshot :=
  (new "i" ⟨0⟩).updatePosition
    (.atSignal (TaskId.sha256 "w") "approval" (some 2000000000) (some (TaskId.sha256 "t")))

end sample

end Sayiir
