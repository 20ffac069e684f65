import Sayiir.Proof.Waits

/-!
# Waits that end once

Under `Submission.Undisturbed` a wait is ended at most once, one event at most is taken
for it, and what is recorded is that event. The invariant is `Vigil.Kept`: an instance
whose wait has been ended is not parked, and a taken event is in the hands of exactly
one process until that process has saved it.

A poll that finds a wait over ends it, so that it is ended exactly once.
-/

namespace Sayiir

open Backend PoolWorld WorkflowSnapshot Submission

namespace Submission

variable {task : AvailableTask} {output payload : Bytes} {v : Vigil} {s : WorkflowSnapshot}

variable [Sha256] {job : Submission} {worker : Worker} {phase : Phase} {choice : Choice}
  {w : PoolWorld} {σ : Pool} {i : ℕ} {p : Process} {a : Action}

/-! ## Who has an event in hand -/

/-- Only a worker that drains comes to have an event in hand. -/
theorem holds_moves {w' : PoolWorld} {phase' : Phase} (hm : Moves job worker w w' phase phase')
    (h : phase'.holds) : ∃ task s output, phase = .draining task s output := by
  cases hm with
  | draining task s output => exact ⟨task, s, output, rfl⟩
  | hydrated blob =>
    revert h
    exact dispatchRow_of (P := (Phase.holds · → _)) nofun (fun _ _ _ _ _ _ _ => nofun)
      fun _ _ _ _ _ _ _ => nofun
  | unready | interrupted =>
    revert h
    exact settleFailure_of (P := (Phase.holds · → _)) nofun fun _ => nofun
  | settled =>
    revert h
    exact settle_of (P := (Phase.holds · → _)) nofun
      (fun _ => settleFailure_of (P := (Phase.holds · → _)) nofun fun _ => nofun)
      fun _ _ _ _ => nofun
  | committed task s output | drained task s output =>
    unfold drain at h
    split at h <;> cases h
  | handedBack | resolved | unresolved =>
    unfold resolve at h
    split at h <;> cases h
  | concluded s output =>
    unfold conclude at h
    split at h <;> cases h
  | _ => cases h

variable (job worker) in
theorem call_draining_none (h : nextEvent s w = none) :
    job.call worker (.draining task s output) w = (.handingBack task s output, w) := by
  unfold nextEvent at h
  unfold call consumeEvent
  dsimp only
  split
  · rename_i hst
    rw [hst] at h
    rw [List.head?_eq_none_iff.mp h]
  · rfl

variable (job worker) in
/-- A worker that drains takes the oldest event. -/
theorem call_draining_some (h : nextEvent s w = some payload) :
    (job.call worker (.draining task s output) w).1 = .drained task (leaveDrained payload s) output
      ∧ (job.call worker (.draining task s output) w).2.snapshot = w.snapshot := by
  unfold nextEvent at h
  split at h
  · rename_i signalId signalName wakeAt next completed last hst
    obtain ⟨rest, he⟩ : ∃ rest, w.events signalName = payload :: rest :=
      List.head?_eq_some_iff.mp h
    unfold call consumeEvent
    dsimp only
    rw [hst]
    dsimp only
    rw [he]
    exact ⟨rfl, rfl⟩
  · cases h

theorem phaseStep_draining (h : (job.phaseStep worker choice (.draining task s output) w).1.holds) :
    choice = .proceed ∧ ∃ payload, nextEvent s w = some payload := by
  cases choice with
  | proceed =>
    refine ⟨rfl, ?_⟩
    cases he : nextEvent s w with
    | none =>
      have hcall : job.phaseStep worker .proceed (.draining task s output) w
          = (.handingBack task s output, w) :=
        call_draining_none job worker he
      rw [hcall] at h
      cases h
    | some payload => exact ⟨payload, rfl⟩
  | lost applied => simp [phaseStep, afterLost, Phase.holds] at h
  | raise e => simp [phaseStep, Phase.holds] at h
  | heartbeat readFails extendFails => simp [phaseStep, Phase.holds] at h

/-- **Who has an event in hand after a step** had it before or has just taken it. -/
theorem holds_step {j : ℕ} {q : Process} (hq : (job.step a σ).processes[j]? = some q)
    (h : q.phase.holds) :
    (∃ q', σ.processes[j]? = some q' ∧ q'.phase = q.phase)
      ∨ ∃ p task s output payload, a = .work j .proceed ∧ σ.processes[j]? = some p
        ∧ p.phase = .draining task s output ∧ nextEvent s σ.world = some payload
        ∧ q.phase = .drained task (leaveDrained payload s) output := by
  have hspawn : ∀ p : Process, p.phase.holds = false → (σ.processes ++ [p])[j]? = some q →
      ∃ q', σ.processes[j]? = some q' ∧ q'.phase = q.phase := by
    intro p hp hq
    rw [List.getElem?_append] at hq
    split at hq
    · exact ⟨q, hq, rfl⟩
    · obtain rfl := List.mem_singleton.mp (List.mem_of_getElem? hq)
      simp [hp] at h
  cases a with
  | work i choice =>
    cases hi : σ.processes[i]? with
    | none =>
      have hsame : job.step (.work i choice) σ = σ := by simp [step, hi]
      rw [hsame] at hq
      exact .inl ⟨q, hq, rfl⟩
    | some p =>
      rw [step_work hi, List.getElem?_set] at hq
      by_cases hij : i = j
      · subst hij
        have hlt := (List.getElem?_eq_some_iff.mp hi).1
        simp only [if_true, hlt, Option.some.injEq] at hq
        subst hq
        rcases job.moves_phaseStep p.worker p.phase σ.world choice with ⟨hidle, -⟩ | ⟨-, hm⟩
        · exact .inl ⟨p, hi, by rw [hidle]⟩
        · obtain ⟨task, s, output, hp⟩ := holds_moves hm h
          rw [hp] at h ⊢
          obtain ⟨rfl, payload, he⟩ := phaseStep_draining h
          exact .inr ⟨p, task, s, output, payload, rfl, hi, hp, he,
            (call_draining_some job p.worker he).1⟩
      · simp only [hij, if_false] at hq
        exact .inl ⟨q, hq, rfl⟩
  | poll worker => exact .inl (hspawn _ rfl hq)
  | hinted worker hint =>
    refine .inl (hspawn _ ?_ hq)
    dsimp only
    cases job.backend.findHintedTask hint σ.world <;> rfl
  | crash i =>
    unfold step at hq
    dsimp only at hq
    split at hq
    · exact .inl ⟨q, hq, rfl⟩
    · rename_i p hi
      rw [List.getElem?_set] at hq
      split at hq
      · split at hq
        · obtain rfl := Option.some.inj hq
          cases h
        · cases hq
      · exact .inl ⟨q, hq, rfl⟩
  | request kind request =>
    refine .inl ⟨q, ?_, rfl⟩
    unfold step at hq
    dsimp only at hq
    split at hq <;> exact hq
  | insertRequest i =>
    refine .inl ⟨q, ?_, rfl⟩
    unfold step at hq
    dsimp only at hq
    split at hq <;> exact hq
  | tick | sendEvent | unpause => exact .inl ⟨q, hq, rfl⟩

/-- A process with an event in hand keeps it until it saves it. -/
theorem holds_kept {j : ℕ} {q : Process} (hu : job.Undisturbed a σ)
    (heffect : job.waitEffect a σ = .nothing) (hq : σ.processes[j]? = some q)
    (h : q.phase.holds) :
    ∃ q', (job.step a σ).processes[j]? = some q' ∧ q'.phase.holds := by
  have hlt := (List.getElem?_eq_some_iff.mp hq).1
  cases a with
  | work i choice =>
    cases hi : σ.processes[i]? with
    | none =>
      have hsame : job.step (.work i choice) σ = σ := by simp [step, hi]
      rw [hsame]
      exact ⟨q, hq, h⟩
    | some p =>
      rw [step_work hi, List.getElem?_set]
      by_cases hij : i = j
      · subst hij
        obtain rfl : p = q := Option.some.inj (hi.symm.trans hq)
        simp only [if_true, hlt, Option.some.injEq, exists_eq_left']
        obtain ⟨task, s, output, hp⟩ : ∃ task s output, p.phase = .drained task s output := by
          cases hp : p.phase with
          | drained task s output => exact ⟨task, s, output, rfl⟩
          | _ => simp [hp, Phase.holds] at h
        simp only [waitEffect, hi, hp, callEffect] at heffect
        simp only [Undisturbed, hi, hp, Option.all_some] at hu
        rw [hp]
        cases choice with
        | proceed => simp [Choice.applies] at heffect
        | lost applied => simp [Choice.isCall] at hu
        | raise | heartbeat => rfl
      · simp only [hij, if_false]
        exact ⟨q, hq, h⟩
  | poll worker => exact ⟨q, (List.getElem?_append_left hlt).trans hq, h⟩
  | hinted worker hint => exact ⟨q, (List.getElem?_append_left hlt).trans hq, h⟩
  | crash i =>
    refine ⟨q, ?_, h⟩
    unfold step
    dsimp only
    split
    · exact hq
    · rename_i p hi
      have hij : i ≠ j := by
        rintro rfl
        obtain rfl : p = q := Option.some.inj (hi.symm.trans hq)
        simp [Undisturbed, hi, h] at hu
      exact (List.getElem?_set_ne hij).trans hq
  | request kind request =>
    refine ⟨q, ?_, h⟩
    unfold step
    dsimp only
    split <;> exact hq
  | insertRequest i =>
    refine ⟨q, ?_, h⟩
    unfold step
    dsimp only
    split <;> exact hq
  | tick | sendEvent | unpause => exact ⟨q, hq, h⟩

variable (job) in
theorem getElem?_work_self (hi : σ.processes[i]? = some p) (choice : Choice) :
    ∃ seen, (job.step (.work i choice) σ).processes[i]?
      = some ⟨p.worker, (job.phaseStep p.worker choice p.phase σ.world).1, seen⟩ := by
  rw [step_work hi]
  exact ⟨_, List.getElem?_set_self (List.getElem?_eq_some_iff.mp hi).1⟩

/-- An event is taken by a worker that drains. -/
theorem work_of_taken (hu : job.Undisturbed a σ) (h : job.waitEffect a σ = .taken payload) :
    ∃ i p task s output, a = .work i .proceed ∧ σ.processes[i]? = some p
      ∧ p.phase = .draining task s output ∧ nextEvent s σ.world = some payload := by
  cases a with
  | work i choice =>
    cases hi : σ.processes[i]? with
    | none => simp [waitEffect, hi] at h
    | some p =>
      simp only [waitEffect, hi] at h
      cases ha : choice.applies with
      | false => simp [ha] at h
      | true =>
        simp only [ha, if_true] at h
        cases hp : p.phase with
        | draining task s output =>
          simp only [hp, callEffect] at h
          cases he : nextEvent s σ.world with
          | none => simp [he] at h
          | some payload' =>
            obtain rfl : payload' = payload := by simpa [he] using h
            have hproceed : choice = .proceed := by
              simp only [Undisturbed, hi, hp, Option.all_some, ha, he] at hu
              simp at hu
              exact hu.1.1
            exact ⟨i, p, task, s, output, by rw [hproceed], hi, hp, he⟩
        | resolving saves result output =>
          cases saves <;> simp only [hp, callEffect] at h
          · cases h
          · split at h <;> cases h
        | _ =>
          simp only [hp, callEffect] at h
          first | cases h | (split at h <;> cases h)
  | sendEvent signalName payload =>
    simp only [waitEffect] at h
    split at h <;> cases h
  | _ => cases h

/-- Who stores the instance at a wait finds nobody with an event in hand. -/
theorem noneHolds_of_parked (hu : job.Undisturbed a σ) (h : job.waitEffect a σ = .parked) :
    σ.noneHolds := by
  cases a with
  | work i choice =>
    cases hi : σ.processes[i]? with
    | none => simp [waitEffect, hi] at h
    | some p =>
      simp only [waitEffect, hi] at h
      cases ha : choice.applies with
      | false => simp [ha] at h
      | true =>
        simp only [ha, if_true] at h
        cases hp : p.phase with
        | resolving saves result output =>
          cases saves with
          | nil => simp [hp, callEffect] at h
          | cons s saves => simpa [Undisturbed, hi, hp, ha] using hu
        | retrying | failing | committing | completing =>
          simpa [Undisturbed, hi, hp, ha] using hu
        | _ =>
          simp only [hp, callEffect] at h
          first | cases h | (split at h <;> cases h)
  | sendEvent signalName payload =>
    simp only [waitEffect] at h
    split at h <;> cases h
  | _ => cases h

theorem holds_call_drained :
    (job.phaseStep worker .proceed (.drained task s output) w).1.holds = false := by
  have hcall : (job.phaseStep worker .proceed (.drained task s output) w).1
      = drain task (job.backend.afterSave s) output := rfl
  rw [hcall]
  unfold drain
  split <;> rfl

/-- **Whoever ends a wait** finds the instance at it and leaves it behind. Either nobody
had an event in hand and what is taken now is recorded, or a worker records what it had
in hand. -/
theorem ended_of_left {payload : Option Bytes}
    (htracks : ∀ p ∈ σ.processes, p.phase.Tracks job.backend p.seen) (hu : job.Undisturbed a σ)
    (h : job.waitEffect a σ = .left payload) :
    σ.world.snapshot.any WorkflowSnapshot.isParked
      ∧ (job.step a σ).world.snapshot.any WorkflowSnapshot.isParked = false
      ∧ ((σ.noneHolds
          ∧ ∀ x, payload = some x → job.backend.lastRecorded (job.step a σ).world = some x)
        ∨ ∃ i p task s output, a = .work i .proceed ∧ σ.processes[i]? = some p
          ∧ p.phase = .drained task s output ∧ payload = none
          ∧ job.backend.lastRecorded (job.step a σ).world = s.lastOutput) := by
  cases a with
  | work i choice =>
    cases hi : σ.processes[i]? with
    | none => simp [waitEffect, hi] at h
    | some p =>
      have htracks := htracks p (List.mem_of_getElem? hi)
      simp only [waitEffect, hi] at h
      cases ha : choice.applies with
      | false => simp [ha] at h
      | true =>
        simp only [ha, if_true] at h
        simp only [Undisturbed, hi, Option.all_some, ha] at hu
        rw [step_work hi]
        cases hp : p.phase with
        | advancing advance =>
          rw [hp] at h hu htracks
          rw [phaseStep_snd rfl, if_pos ha]
          simp only [callEffect] at h
          split at h
          · cases h
          · rename_i hinert
            simp [hinert] at hu
            obtain ⟨s, s', hs, hparked, hs', hfollows, hsignal⟩ :=
              left_advancing htracks hu.1.1 hu.2
            have hcall : (job.call p.worker (.advancing advance) σ.world).2
                = applyAdvance advance σ.world := rfl
            rw [hcall, hs, hs', Option.any_some, Option.any_some]
            refine ⟨hparked, hfollows.isParked, .inl ⟨hu.1.2, ?_⟩⟩
            rintro x rfl
            cases advance with
            | signal signalId signalName next =>
              obtain ⟨y, rest, he, -, hlast⟩ := hsignal signalId signalName next rfl
              simp only [he, WaitEffect.left.injEq, List.head?_cons,
                Option.some.injEq] at h
              rw [hlast, h]
            | _ => cases h
        | waking s' next =>
          rw [hp] at h hu htracks
          rw [phaseStep_snd rfl, if_pos ha]
          simp only [callEffect] at h
          split at h
          · cases h
          · rename_i hinert
            obtain rfl := WaitEffect.left.inj h
            simp [hinert] at hu
            obtain ⟨s, hs, hparked, hsaved, hfollows⟩ := left_waking htracks hu.1
            have hcall : (job.call p.worker (.waking s' next) σ.world).2
                = job.backend.saveSnapshot s' σ.world := rfl
            rw [hcall, hs, hsaved, Option.any_some, Option.any_some]
            exact ⟨hparked, hfollows.isParked, .inl ⟨hu.2, fun x h => by cases h⟩⟩
        | drained task s' output =>
          rw [hp] at h hu htracks
          rw [phaseStep_snd rfl, if_pos ha]
          obtain rfl := WaitEffect.left.inj h
          have hcallable : choice.isCall := by cases choice <;> first | rfl | cases ha
          simp [hcallable] at hu
          obtain ⟨rfl, hfinds⟩ := hu
          obtain ⟨s, hs, hparked, hsaved, hgone, hlast⟩ := left_drained htracks hfinds
          have hcall : (job.call p.worker (.drained task s' output) σ.world).2
              = job.backend.saveSnapshot s' σ.world := rfl
          rw [hcall, hs, hsaved, Option.any_some, Option.any_some]
          refine ⟨hparked, ?_, .inr ⟨i, p, task, s', output, rfl, hi, hp, rfl, hlast⟩⟩
          rw [← hgone]
          exact isParked_congr (by simp)
        | draining task s output =>
          simp only [hp, callEffect] at h
          split at h <;> cases h
        | resolving saves result output =>
          cases saves <;> simp only [hp, callEffect] at h
          · cases h
          · split at h <;> cases h
        | _ =>
          simp only [hp, callEffect] at h
          first | cases h | (split at h <;> cases h)
  | sendEvent signalName payload' =>
    simp only [waitEffect] at h
    split at h
    · rename_i hresumes
      obtain rfl := WaitEffect.left.inj h
      have hnone : σ.noneHolds := by simpa [Undisturbed, hresumes] using hu
      obtain ⟨s, s', hs, hparked, hs', hfollows, hlast⟩ :=
        left_sendEvent job payload' hresumes
      have hworld : (job.step (.sendEvent signalName payload') σ).world
          = job.backend.sendEvent signalName payload' σ.world := rfl
      rw [hworld, hs, hs', Option.any_some, Option.any_some]
      refine ⟨hparked, hfollows.isParked, .inl ⟨hnone, ?_⟩⟩
      rintro x ⟨⟩
      exact hlast
    · cases h
  | _ => cases h

end Submission

/-! ## What the ghost knows -/

/-- What holds of a watched pool. -/
structure Vigil.Kept (v : Vigil) : Prop where
  /-- The wait has been ended once at most. -/
  once : v.advances ≤ 1
  /-- An instance whose wait has been ended does not wait. -/
  gone : v.advances = 1 → v.pool.world.snapshot.any WorkflowSnapshot.isParked = false
  /-- One event at most has been taken. -/
  single : v.taken.length ≤ 1
  /-- An event that has been taken is recorded or in the hands of a process. -/
  inHand : v.advances = 0 → v.taken ≠ [] → v.pool.noneHolds = false
  /-- A process with an event in hand has taken it for this wait. -/
  held : ∀ p ∈ v.pool.processes, ∀ task s output, p.phase = .drained task s output →
    v.advances = 0 ∧ ∃ payload, v.taken = [payload] ∧ s.lastOutput = some payload
  /-- No two processes have an event in hand. -/
  alone : ∀ (i j : ℕ) (p q : Process), v.pool.processes[i]? = some p →
    v.pool.processes[j]? = some q → p.phase.holds → q.phase.holds → i = j
  /-- What was recorded is the event that was taken. -/
  recorded : v.advances = 1 → ∀ payload, v.taken = [payload] → v.recorded = some payload

theorem Pool.noneHolds_iff {σ : Pool} : σ.noneHolds ↔ ∀ p ∈ σ.processes, p.phase.holds = false := by
  simp [Pool.noneHolds]

namespace Vigil.Kept

variable {v : Vigil}

/-- While nobody has an event in hand, nothing has been done yet for the wait. -/
theorem untouched (h : v.Kept) (hnone : v.pool.noneHolds)
    (hparked : v.pool.world.snapshot.any WorkflowSnapshot.isParked) :
    v.advances = 0 ∧ v.taken = [] := by
  have hzero : v.advances = 0 := by
    have := h.once
    by_contra hne
    have hgone := h.gone (by omega)
    simp [hparked] at hgone
  refine ⟨hzero, ?_⟩
  by_contra hne
  have := h.inHand hzero hne
  simp [hnone] at this

/-- With nobody holding an event, what is said of holders holds. -/
theorem of_noneHolds (honce : v.advances ≤ 1)
    (hgone : v.advances = 1 → v.pool.world.snapshot.any WorkflowSnapshot.isParked = false)
    (hsingle : v.taken.length ≤ 1) (hhand : v.advances = 0 → v.taken = [])
    (hrecorded : v.advances = 1 → ∀ payload, v.taken = [payload] → v.recorded = some payload)
    (hnone : v.pool.noneHolds) : v.Kept where
  once := honce
  gone := hgone
  single := hsingle
  inHand := fun hzero hne => absurd (hhand hzero) hne
  held := by
    intro p hp task s output hphase
    have := Pool.noneHolds_iff.mp hnone p hp
    simp [hphase, Phase.holds] at this
  alone := by
    intro i j p q hi _ hp _
    have := Pool.noneHolds_iff.mp hnone p (List.mem_of_getElem? hi)
    simp [this] at hp
  recorded := hrecorded

variable [Sha256] {job : Submission} {a : Action}

/-- Nobody has an event in hand after a step that takes none. -/
theorem noneHolds_step (hnone : v.pool.noneHolds)
    (hnot : ∀ payload, job.waitEffect a v.pool ≠ .taken payload) :
    (job.step a v.pool).noneHolds := by
  rw [Pool.noneHolds_iff] at hnone ⊢
  intro q hq
  obtain ⟨j, hj⟩ := List.getElem?_of_mem hq
  cases hholds : q.phase.holds with
  | false => rfl
  | true =>
    rcases holds_step hj hholds with
      ⟨q', hq', hphase⟩ | ⟨p, task, s, output, payload, rfl, hp, hphase, he, -⟩
    · rw [← hphase, hnone q' (List.mem_of_getElem? hq')] at hholds
      cases hholds
    · refine absurd ?_ (hnot payload)
      simp [waitEffect, hp, hphase, Choice.applies, callEffect, he]

theorem of_nothing (h : v.Kept) (hu : job.Undisturbed a v.pool)
    (heffect : job.waitEffect a v.pool = .nothing) :
    Vigil.Kept { v with pool := job.step a v.pool } where
  once := h.once
  gone := by
    intro hone
    by_contra hparked
    have := isParked_of_nothing heffect (by simpa using hparked)
    simp [h.gone hone] at this
  single := h.single
  inHand := by
    intro hzero htaken
    have hnone := h.inHand hzero htaken
    by_contra hcon
    refine absurd ?_ (Bool.eq_false_iff.mp hnone)
    rw [Pool.noneHolds_iff]
    intro q hq
    obtain ⟨j, hj⟩ := List.getElem?_of_mem hq
    by_contra hholds
    obtain ⟨q', hq', hholds'⟩ := holds_kept hu heffect hj (by simpa using hholds)
    have := Pool.noneHolds_iff.mp (by simpa using hcon) q' (List.mem_of_getElem? hq')
    simp [this] at hholds'
  held := by
    intro p hp task s output hphase
    obtain ⟨j, hj⟩ := List.getElem?_of_mem hp
    rcases holds_step hj (by simp [hphase, Phase.holds]) with
      ⟨q', hq', hsame⟩ | ⟨p', task', s', output', payload, rfl, hp', hphase', he, -⟩
    · exact h.held q' (List.mem_of_getElem? hq') task s output (hsame.trans hphase)
    · simp [waitEffect, hp', hphase', Choice.applies, callEffect, he] at heffect
  alone := by
    intro i j p q hi hj hp hq
    have hold : ∀ {i : ℕ} {p : Process}, (job.step a v.pool).processes[i]? = some p → p.phase.holds →
        ∃ p', v.pool.processes[i]? = some p' ∧ p'.phase.holds := by
      intro i p hi hp
      rcases holds_step hi hp with
        ⟨p', hi', hsame⟩ | ⟨p', task', s', output', payload, rfl, hp', hphase', he, -⟩
      · exact ⟨p', hi', hsame ▸ hp⟩
      · simp [waitEffect, hp', hphase', Choice.applies, callEffect, he]
          at heffect
    obtain ⟨p', hi', hp'⟩ := hold hi hp
    obtain ⟨q', hj', hq'⟩ := hold hj hq
    exact h.alone i j p' q' hi' hj' hp' hq'
  recorded := h.recorded

/-- A worker takes an event for the wait. -/
theorem of_taken (h : v.Kept) (htracks : ∀ p ∈ v.pool.processes, p.phase.Tracks job.backend p.seen)
    (hu : job.Undisturbed a v.pool) (heffect : job.waitEffect a v.pool = .taken payload) :
    Vigil.Kept { v with pool := job.step a v.pool, taken := v.taken ++ [payload] } := by
  obtain ⟨i, p, task, s, output, rfl, hi, hphase, he⟩ := work_of_taken hu heffect
  simp only [Submission.Undisturbed, hi, hphase, Option.all_some, he, Choice.applies] at hu
  simp only [Option.isNone_some, Bool.not_true, Bool.false_or, decide_true, Bool.true_and,
    Bool.and_eq_true] at hu
  obtain ⟨hfinds, hnone⟩ := hu
  obtain ⟨-, s', hs', -, hparked⟩ := findsWaiting_iff.mp hfinds
  obtain ⟨hzero, htaken⟩ := h.untouched hnone (by simp [hs', hparked])
  have hat := (hphase ▸ htracks p (List.mem_of_getElem? hi)).1
  -- whoever has an event in hand now is the worker that has just taken it
  have hnew : ∀ {j : ℕ} {q : Process},
      (job.step (.work i .proceed) v.pool).processes[j]? = some q → q.phase.holds →
        j = i ∧ q.phase = .drained task (leaveDrained payload s) output := by
    intro j q hj hq
    rcases holds_step hj hq with
      ⟨q', hq', hsame⟩ | ⟨p', task', s', output', payload', hwork, hp', hphase', he', hq'⟩
    · rw [← hsame, Pool.noneHolds_iff.mp hnone q' (List.mem_of_getElem? hq')] at hq
      cases hq
    · obtain ⟨rfl, -⟩ := Action.work.inj hwork
      obtain rfl : p = p' := Option.some.inj (hi.symm.trans hp')
      obtain ⟨rfl, rfl, rfl⟩ := Phase.draining.inj (hphase.symm.trans hphase')
      obtain rfl : payload = payload' := Option.some.inj (he.symm.trans he')
      exact ⟨rfl, hq'⟩
  refine ⟨by simp [hzero], by simp [hzero], by simp [htaken], ?_, ?_, ?_, by simp [hzero]⟩
  · intro _ _
    rw [← Bool.not_eq_true, Pool.noneHolds_iff]
    intro hall
    obtain ⟨seen, hself⟩ := getElem?_work_self job hi .proceed
    have hcall : (job.phaseStep p.worker .proceed p.phase v.pool.world).1
        = .drained task (leaveDrained payload s) output := by
      rw [hphase]
      exact (call_draining_some job p.worker he).1
    have := hall _ (List.mem_of_getElem? hself)
    rw [hcall] at this
    cases this
  · intro q hq task' s' output' hq'
    obtain ⟨j, hj⟩ := List.getElem?_of_mem hq
    obtain ⟨-, hd⟩ := hnew hj (by simp [hq', Phase.holds])
    obtain ⟨-, rfl, -⟩ := Phase.drained.inj (hq'.symm.trans hd)
    obtain ⟨signalId, signalName, wakeAt, next, completed, last, hst⟩ := isAtSignal_iff.mp hat
    refine ⟨hzero, payload, by simp [htaken], ?_⟩
    rw [leaveDrained_eq hst, lastOutput_received hst]
  · intro j k q r hj hk hq hr
    rw [(hnew hj hq).1, (hnew hk hr).1]

/-- Somebody ends the wait. -/
theorem of_left (h : v.Kept) (htracks : ∀ p ∈ v.pool.processes, p.phase.Tracks job.backend p.seen)
    (hu : job.Undisturbed a v.pool) {payload : Option Bytes}
    (heffect : job.waitEffect a v.pool = .left payload) :
    Vigil.Kept ⟨job.step a v.pool, v.advances + 1, v.taken ++ payload.toList,
      job.backend.lastRecorded (job.step a v.pool).world⟩ := by
  obtain ⟨hparked, hgone, hby⟩ := ended_of_left htracks hu heffect
  rcases hby with ⟨hnone, hrecorded⟩ | ⟨i, p, task, s, output, rfl, hi, hphase, rfl, hrecorded⟩
  · -- whoever ends the wait had not taken an event before
    obtain ⟨hzero, htaken⟩ := h.untouched hnone hparked
    refine of_noneHolds (by simp [hzero]) (fun _ => hgone) ?_ (by simp) ?_
      (noneHolds_step hnone (by simp [heffect]))
    · cases payload <;> simp [htaken]
    · intro _ x hx
      refine hrecorded x ?_
      cases payload <;> simp_all
  · -- a worker saves the event in its hand
    obtain ⟨hzero, x, htaken, hx⟩ := h.held p (List.mem_of_getElem? hi) task s output hphase
    refine of_noneHolds (by simp [hzero]) (fun _ => hgone) (by simp [htaken]) (by simp) ?_ ?_
    · intro _ y hy
      obtain rfl : x = y := by simpa [htaken] using hy
      rw [hrecorded, hx]
    · rw [Pool.noneHolds_iff]
      intro q hq
      obtain ⟨j, hj⟩ := List.getElem?_of_mem hq
      cases hholds : q.phase.holds with
      | false => rfl
      | true =>
        rcases holds_step hj hholds with
          ⟨q', hq', hsame⟩ | ⟨p', task', s', output', payload', hwork, hp', hphase', -⟩
        · obtain rfl : i = j := h.alone i j p q' hi hq' (by simp [hphase, Phase.holds])
            (hsame ▸ hholds)
          obtain rfl : p = q' := Option.some.inj (hi.symm.trans hq')
          obtain ⟨seen, hself⟩ := getElem?_work_self job hi .proceed
          obtain rfl := Option.some.inj (hself.symm.trans hj)
          rw [hphase] at hholds
          exact absurd hholds (by simp [holds_call_drained])
        · obtain ⟨rfl, -⟩ := Action.work.inj hwork
          obtain rfl : p = p' := Option.some.inj (hi.symm.trans hp')
          rw [hphase] at hphase'
          cases hphase'

/-- **A step that disturbs no wait keeps what the ghost knows.** -/
theorem watch (h : v.Kept) (htracks : ∀ p ∈ v.pool.processes, p.phase.Tracks job.backend p.seen)
    (hu : job.Undisturbed a v.pool) : (job.watch a v).Kept := by
  unfold Submission.watch
  split
  · exact h.of_nothing hu (by assumption)
  · rename_i heffect
    exact of_noneHolds (by simp) (by simp) (by simp) (by simp) (by simp)
      (noneHolds_step (Submission.noneHolds_of_parked hu heffect) (by simp [heffect]))
  · exact h.of_taken htracks hu (by assumption)
  · exact h.of_left htracks hu (by assumption)

end Vigil.Kept

/-! ## What polls do -/

/-- A part of `find_available_tasks`. -/
def Phase.isPoll : Phase → Bool
  | .polling | .collecting | .advancing _ | .selecting | .hydrating _ | .waking .. => true
  | _ => false

/-- A delay is over when its time has come. A wait for an event is over when one is
buffered, but the polls of Postgres do not look at it. -/
def Backend.waitIsOver (b : Backend) (w : PoolWorld) (s : WorkflowSnapshot) : Bool :=
  match s.state with
  | .inProgress (.atDelay _ _ wakeAt _) _ _ => decide (wakeAt ≤ w.clock)
  | .inProgress (.atSignal _ signalName _ _) _ _ =>
    decide (b = inMemory) && !(w.events signalName).isEmpty
  | _ => false

/-- The wait at which the instance stands is over, and a poll of the worker looks at it. -/
structure WaitOver (b : Backend) (worker : Worker) (w : PoolWorld) (s : WorkflowSnapshot) :
    Prop where
  stored : w.snapshot = some s
  /-- Nobody asks to cancel or to pause the instance. -/
  quiet : w.hasSignal = false
  isOver : b.waitIsOver w s
  /-- Postgres looks at no instance that is claimed or that carries other tags. -/
  free : b = postgres → postgres.claimed w = false ∧ tagsMatch worker.tags s

theorem WaitOver.isWaiting {b : Backend} {worker : Worker} {w : PoolWorld}
    (h : WaitOver b worker w s) : s.isWaiting := by
  have hover := h.isOver
  simp only [WorkflowSnapshot.isWaiting, WorkflowSnapshot.isInProgress, WorkflowSnapshot.isParked,
    WorkflowSnapshot.position]
  unfold waitIsOver at hover
  split at hover
  · rename_i hst
    simp [hst]
  · rename_i hst
    simp [hst]
  · cases hover

namespace Submission

variable [Sha256] {job : Submission} {worker : Worker} {choice : Choice} {σ : Pool} {i : ℕ}
  {p : Process} {s : WorkflowSnapshot}

/-- **A poll leaves the instance as it is or takes it from its wait to what follows.** -/
theorem follows_of_isPoll (htracks : p.phase.Tracks job.backend p.seen)
    (hu : job.Undisturbed (.work i choice) σ) (hi : σ.processes[i]? = some p)
    (hpoll : p.phase.isPoll) :
    (job.step (.work i choice) σ).world.snapshot = σ.world.snapshot
      ∨ ∃ s s', σ.world.snapshot = some s
        ∧ (job.step (.work i choice) σ).world.snapshot = some s' ∧ Follows s s' := by
  have hrun : p.phase.isRun = false := by cases hp : p.phase <;> simp_all [Phase.isPoll, Phase.isRun]
  rw [step_work hi, phaseStep_snd hrun]
  cases ha : choice.applies with
  | false => exact .inl rfl
  | true =>
    simp only [if_true]
    simp only [Undisturbed, hi, Option.all_some, ha] at hu
    cases hp : p.phase with
    | polling =>
      refine .inl ?_
      unfold call
      dsimp only
      split
      · rfl
      · split <;> rfl
    | collecting =>
      refine .inl ?_
      unfold call
      dsimp only
      split
      · rfl
      · dsimp only
        split <;> rfl
    | selecting | hydrating => exact .inl rfl
    | advancing advance =>
      rw [hp] at hu htracks
      cases hinert : (Phase.advancing advance).inert job.backend σ.world with
      | true => exact .inl (snapshot_call_of_inert _ _ _ _ hinert)
      | false =>
        simp [hinert] at hu
        obtain ⟨s, s', hs, -, hs', hfollows, -⟩ := left_advancing htracks hu.1.1 hu.2
        exact .inr ⟨s, s', hs, hs', hfollows⟩
    | waking s' next =>
      rw [hp] at hu htracks
      cases hinert : (Phase.waking s' next).inert job.backend σ.world with
      | true => exact .inl (snapshot_call_of_inert _ _ _ _ hinert)
      | false =>
        simp [hinert] at hu
        obtain ⟨s, hs, -, hsaved, hfollows⟩ := left_waking htracks hu.1
        exact .inr ⟨s, _, hs, hsaved, hfollows⟩
    | _ => simp [hp, Phase.isPoll] at hpoll

/-- The process that was started last makes its call. -/
theorem step_work_last (ps : List Process) (w : PoolWorld)
    (requests : List (SignalKind × SignalRequest)) :
    job.step (.work ps.length .proceed) ⟨w, ps ++ [p], requests⟩
      = ⟨(job.call p.worker p.phase w).2, ps ++ [⟨p.worker, (job.call p.worker p.phase w).1,
          if p.phase.touchesStore then (job.call p.worker p.phase w).2.snapshot else p.seen⟩],
        requests⟩ := by
  rw [step_work (p := p) (by simp)]
  simp [phaseStep, Choice.isCall]

/-- **A poll gets to the point of ending a wait that is over.** -/
theorem exists_poll_of_waitOver (h : WaitOver job.backend worker σ.world s) :
    ∃ phase w', perform job.step (.poll worker :: Action.calls σ.processes.length 2) σ
        = ⟨w', σ.processes ++ [⟨worker, phase, some s⟩], σ.requests⟩
      ∧ w'.snapshot = some s
      ∧ ((∃ advance, phase = .advancing advance ∧ advance.isBacked w')
        ∨ ∃ s' next, phase = .waking s' next) := by
  have hpoll : job.step (.poll worker) σ
      = ⟨σ.world, σ.processes ++ [⟨worker, .polling, none⟩], σ.requests⟩ := rfl
  have hover := h.isOver
  unfold waitIsOver at hover
  simp only [Action.calls, List.replicate, perform, hpoll, step_work_last]
  cases hb : job.backend with
  | inMemory =>
    have hcall : job.call worker .polling σ.world = (.collecting, dropExpired σ.world) := by
      simp only [call, hb]
    have hsignal : (dropExpired σ.world).hasSignal = false := h.quiet
    have hstored : (dropExpired σ.world).snapshot = some s := h.stored
    obtain ⟨advance, hcollect, hbacked⟩ : ∃ advance,
        collectAdvance (dropExpired σ.world) = some advance ∧ advance.isBacked σ.world := by
      unfold collectAdvance
      rw [hstored, hsignal]
      split at hover
      · rename_i delayId enteredAt wakeAt next completed last hst
        have hwake : wakeAt ≤ (dropExpired σ.world).clock := of_decide_eq_true hover
        cases next with
        | some t => exact ⟨.delay t, by simp [hst, hwake], rfl⟩
        | none => exact ⟨.delayDone delayId, by simp [hst, hwake], rfl⟩
      · rename_i signalId signalName wakeAt next completed last hst
        have hevents : !((dropExpired σ.world).events signalName).isEmpty :=
          (Bool.and_eq_true _ _ ▸ hover).2
        exact ⟨.signal signalId signalName next, by simp [hst, hevents], hevents⟩
      · cases hover
    refine ⟨.advancing advance, (job.call worker .collecting (dropExpired σ.world)).2, ?_⟩
    have hcollecting : ∃ w', job.call worker .collecting (dropExpired σ.world)
        = (.advancing advance, w') ∧ w'.snapshot = some s ∧ w'.events = σ.world.events := by
      simp only [call, hcollect]
      refine ⟨_, rfl, ?_⟩
      split <;> exact ⟨h.stored, rfl⟩
    obtain ⟨w', hcollecting, hsnapshot, hevents⟩ := hcollecting
    simp only [hcall, hcollecting, Phase.touchesStore, if_true, hsnapshot]
    refine ⟨trivial, trivial, .inl ⟨advance, rfl, ?_⟩⟩
    cases advance <;> simp_all [Advance.isBacked]
  | postgres =>
    obtain ⟨hclaims, htags⟩ := h.free hb
    have hdelay : ∃ delayId enteredAt wakeAt next completed last, wakeAt ≤ σ.world.clock
        ∧ s.state = .inProgress (.atDelay delayId enteredAt wakeAt next) completed last := by
      split at hover
      · rename_i hst
        exact ⟨_, _, _, _, _, _, of_decide_eq_true hover, hst⟩
      · simp [hb] at hover
      · cases hover
    obtain ⟨delayId, enteredAt, wakeAt, next, completed, last, hwake, hst⟩ := hdelay
    have hrow : selectRow worker.tags σ.world = some s := by
      rw [selectRow_eq _ h.stored rfl, h.quiet, hclaims, hydrateTaskOutputs,
        tagsMatch_mapOutputs, dispatchable_mapOutputs, htags]
      simp [dispatchable, hst, hwake]
    have hcall : job.call worker .polling σ.world = (.hydrating s, σ.world) := by
      simp only [call, hb, hrow]
    obtain ⟨s', hhydrate⟩ : ∃ s', job.call worker (.hydrating s) σ.world
        = (.waking s' next, σ.world) := by
      have hread : ∃ completed', (s.hydrateTaskOutputs σ.world.outputs).state
          = .inProgress (.atDelay delayId enteredAt wakeAt next) completed' last := by
        simp [hydrateTaskOutputs, mapOutputs, hst]
      obtain ⟨completed', hread⟩ := hread
      exact ⟨_, congrArg (·, σ.world) (dispatchRow_atDelay hread hwake)⟩
    refine ⟨.waking s' next, σ.world, ?_⟩
    simp only [hcall, hhydrate, Phase.touchesStore, if_true, h.stored]
    exact ⟨rfl, trivial, .inr ⟨s', next, rfl⟩⟩

theorem pool_perform (as : List Action) (v : Vigil) :
    (perform job.watch as v).pool = perform job.step as v.pool := by
  induction as generalizing v with
  | nil => rfl
  | cons a as ih => rw [perform, ih, pool_watch, perform]

/-- What is permitted of the pool is permitted under the eyes of the ghost. -/
theorem permitted_watch {C : Action → Pool → Prop} {as : List Action} :
    Permitted job.watch (fun a v => C a v.pool) as v ↔ Permitted job.step C as v.pool := by
  induction as generalizing v with
  | nil => rfl
  | cons a as ih => simp only [Permitted, ih, pool_watch]

/-- **In a run that disturbs no wait the ghost knows.** -/
theorem kept_of_undisturbed {instanceId : String} {now : Time}
    (h : Walk job.watch (fun a v => job.Undisturbed a v.pool) (job.vigil instanceId now) v) :
    v.Kept := by
  refine h.invariant_of (fun h => tracks_reachable (reachable_pool h)) ?_ ?_
  · exact .of_noneHolds (by simp [vigil]) (by simp [vigil]) (by simp [vigil]) (by simp [vigil])
      (by simp [vigil]) rfl
  · intro a v htracks hkept hu
    exact hkept.watch htracks hu

/-- A poll that still finds the wait as it has seen it ends it. -/
theorem advances_of_findsWaiting (hkept : v.Kept)
    (htracks : ∀ p ∈ v.pool.processes, p.phase.Tracks job.backend p.seen)
    (hi : v.pool.processes[i]? = some p) (hfinds : p.findsWaiting v.pool.world)
    (hnone : v.pool.noneHolds)
    (hphase : (∃ advance, p.phase = .advancing advance ∧ advance.isBacked v.pool.world)
      ∨ ∃ s' next, p.phase = .waking s' next) :
    job.Undisturbed (.work i .proceed) v.pool ∧ (job.watch (.work i .proceed) v).advances = 1
      ∧ ∃ s s', v.pool.world.snapshot = some s
        ∧ (job.step (.work i .proceed) v.pool).world.snapshot = some s' ∧ Follows s s' := by
  have htracked := htracks p (List.mem_of_getElem? hi)
  obtain ⟨-, s, hs, -, hparked⟩ := findsWaiting_iff.mp hfinds
  have hu : job.Undisturbed (.work i .proceed) v.pool := by
    rcases hphase with ⟨advance, hp, hbacked⟩ | ⟨s', next, hp⟩
    · simp [Undisturbed, hi, hp, hfinds, hnone, hbacked]
    · simp [Undisturbed, hi, hp, hfinds, hnone]
  -- what is stored is no wait, so that the poll has had an effect
  obtain ⟨s', hs', hfollows⟩ : ∃ s', (job.step (.work i .proceed) v.pool).world.snapshot = some s'
      ∧ Follows s s' := by
    rw [step_work hi]
    rcases hphase with ⟨advance, hp, hbacked⟩ | ⟨s', next, hp⟩
    · rw [hp] at htracked ⊢
      obtain ⟨s₁, s', hs₁, -, hs', hfollows, -⟩ := left_advancing htracked hfinds hbacked
      obtain rfl : s = s₁ := Option.some.inj (hs.symm.trans hs₁)
      exact ⟨s', hs', hfollows⟩
    · rw [hp] at htracked ⊢
      obtain ⟨s₁, hs₁, -, hsaved, hfollows⟩ := left_waking htracked hfinds
      obtain rfl : s = s₁ := Option.some.inj (hs.symm.trans hs₁)
      exact ⟨_, hsaved, hfollows⟩
  have hinert : p.phase.inert job.backend v.pool.world = false := by
    by_contra hcon
    have hsame : (job.step (.work i .proceed) v.pool).world.snapshot = v.pool.world.snapshot := by
      rw [step_work hi]
      exact snapshot_call_of_inert _ _ _ _ (by simpa using hcon)
    rw [hsame, hs] at hs'
    rw [Option.some.inj hs', hfollows.isParked] at hparked
    cases hparked
  have heffect : ∃ payload, job.waitEffect (.work i .proceed) v.pool = .left payload := by
    rcases hphase with ⟨advance, hp, -⟩ | ⟨s', next, hp⟩
    · rw [hp] at hinert
      simp [waitEffect, hi, hp, Choice.applies, callEffect, hinert]
    · rw [hp] at hinert
      exact ⟨none, by simp [waitEffect, hi, hp, Choice.applies, callEffect, hinert]⟩
  obtain ⟨payload, heffect⟩ := heffect
  have hadvances : (job.watch (.work i .proceed) v).advances = v.advances + 1 := by
    simp [watch, heffect]
  have honce := (hkept.watch htracks hu).once
  exact ⟨hu, by omega, s, s', hs, hs', hfollows⟩

/-- **A poll that finds a wait over ends it.** -/
theorem ends_of_waitOver {instanceId : String} {now : Time}
    (hv : Walk job.watch (fun a v => job.Undisturbed a v.pool) (job.vigil instanceId now) v)
    (h : WaitOver job.backend worker v.pool.world s) (hnone : v.pool.noneHolds) :
    let as := .poll worker :: Action.calls v.pool.processes.length 3
    Permitted job.watch (fun a v => job.Undisturbed a v.pool) as v
      ∧ (perform job.watch as v).advances = 1
      ∧ ∃ s', (perform job.watch as v).pool.world.snapshot = some s' ∧ Follows s s' := by
  obtain ⟨phase, w', hpolled, hsnapshot, hphase⟩ := exists_poll_of_waitOver h
  -- the poll up to the point where it writes
  have hpermitted : Permitted job.watch (fun a v => job.Undisturbed a v.pool)
      (.poll worker :: Action.calls v.pool.processes.length 2) v := by
    rw [permitted_watch (C := fun a σ => job.Undisturbed a σ)]
    have hpoll : job.step (.poll worker) v.pool = ⟨v.pool.world,
      v.pool.processes ++ [⟨worker, .polling, none⟩], v.pool.requests⟩ := rfl
    simp only [Action.calls, List.replicate, Permitted, hpoll, step_work_last]
    refine ⟨rfl, by simp [Undisturbed], ?_, trivial⟩
    have hcall : ∃ x, job.call worker .polling v.pool.world = x
        ∧ (x.1 = .collecting ∨ (∃ blob, x.1 = .hydrating blob) ∨ x.1 = .done) := by
      refine ⟨_, rfl, ?_⟩
      unfold call
      dsimp only
      split
      · exact .inl rfl
      · split
        · exact .inr (.inl ⟨_, rfl⟩)
        · exact .inr (.inr rfl)
    obtain ⟨x, hcall, hx⟩ := hcall
    simp only [hcall, Undisturbed, List.getElem?_concat_length, Option.all_some]
    rcases hx with hx | ⟨blob, hx⟩ | hx <;> rw [hx]
  have hwalk := hv.trans (Walk.perform hpermitted)
  generalize hu : perform job.watch (.poll worker :: Action.calls v.pool.processes.length 2) v = u
    at hwalk
  have hpool : u.pool = ⟨w', v.pool.processes ++ [⟨worker, phase, some s⟩], v.pool.requests⟩ := by
    rw [← hu, pool_perform, hpolled]
  have hi : u.pool.processes[v.pool.processes.length]? = some ⟨worker, phase, some s⟩ := by
    rw [hpool]
    exact List.getElem?_concat_length
  have hsnapshot : u.pool.world.snapshot = some s := by rw [hpool, hsnapshot]
  have hnone : u.pool.noneHolds := by
    rw [Pool.noneHolds_iff] at hnone ⊢
    intro q hq
    rw [hpool] at hq
    rcases List.mem_append.mp hq with hq | hq
    · exact hnone q hq
    · obtain rfl := List.mem_singleton.mp hq
      rcases hphase with ⟨advance, rfl, -⟩ | ⟨s', next, rfl⟩ <;> rfl
  obtain ⟨hlast, hadvances, s₁, s', hs₁, hs', hfollows⟩ :=
    advances_of_findsWaiting (kept_of_undisturbed hwalk) (tracks_reachable (reachable_pool hwalk)) hi
      (by simp [Process.findsWaiting, hsnapshot, h.isWaiting]) hnone (by rwa [hpool])
  obtain rfl : s = s₁ := Option.some.inj (hsnapshot.symm.trans hs₁)
  have hlist : .poll worker :: Action.calls v.pool.processes.length 3
      = (.poll worker :: Action.calls v.pool.processes.length 2)
        ++ [.work v.pool.processes.length .proceed] := rfl
  have hrun : perform job.watch (.poll worker :: Action.calls v.pool.processes.length 3) v
      = job.watch (.work v.pool.processes.length .proceed) u := by
    rw [hlist, perform_append, hu]
    rfl
  refine ⟨?_, by rw [hrun, hadvances], s', by rw [hrun, pool_watch, hs'], hfollows⟩
  rw [hlist, permitted_append, hu]
  exact ⟨hpermitted, hlast, trivial⟩

end Submission

section sample

attribute [local instance] Sha256.packed

/-- A delay and two tasks after it. -/
def delayThenTwo : WorkflowContinuation :=
  .task "t1" .plain (some (.delay "d1" 5 (some (.task "t2" .plain (some (.task "t3" .plain none))))))

/-- Two workers poll when the delay is over, and the second one stops in the middle while
the first one executes the task after the delay. -/
def twoPolls : List Action :=
  .poll (sampleWorker "a") :: Action.calls 0 12 ++ .tick 5 :: .poll (sampleWorker "b") ::
    Action.calls 1 2 ++ .poll (sampleWorker "c") :: Action.calls 2 2 ++ Action.calls 1 11

end sample

end Sayiir
