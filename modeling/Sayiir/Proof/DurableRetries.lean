import Sayiir.Proof.Attempts

/-!
# Retry state across crashes

The budget of a task over all the processes of an instance. While a process runs, what it
may still spend and what has been spent make up at most the calls that the policy allows
(`Kept`). A process that is killed takes what it had with it, and the next one gets the
budget that the stored snapshot is good for. That is what is left only if the snapshot has
missed no failure, and it misses one

* if the process is killed between the failure and the save of the retry state,
* if the task is in a branch, whose copy of the retry state is never saved,
* if the policy allows no retry: the first failure is retried without a look at the limit.

Nor does a resumed process wait for the time of the next attempt that it finds in the
snapshot: it calls the task as soon as it reaches it.
-/

namespace Sayiir

open WorkflowSnapshot

variable {l : Ledger} {instanceId : String} {m : Trial.State} {α : Type}

section hashed

variable [Sha256]

/-! ## What is stored -/

/-- What the protocol says about the stored snapshot. -/
structure Holds (good : WorkflowSnapshot → Prop) (g : Bool) (w : World) : Prop where
  good : ∀ s, w.snapshot = some s → s.isTerminal = false → good s
  running : g = true → ∀ s, w.snapshot = some s → s.isInProgress

section world

variable {t : String} {good : WorkflowSnapshot → Prop} {g : Bool} {w w' : World}

omit [Sha256] in
theorem Holds.same (h : Holds good g w) (hw : w'.snapshot = w.snapshot) : Holds good g w' := by
  refine ⟨fun s hs => h.good s (hw ▸ hs), fun hg s hs => h.running hg s (hw ▸ hs)⟩

omit [Sha256] in
theorem Holds.stop (h : Holds good g w) : Holds good false w := ⟨h.good, nofun⟩

/-- **What the backend answers is what the protocol expects.** -/
theorem Holds.handle (hgood : Concerns t good) (h : Holds good g w) {o : Op}
    (ho : (tending good).allows g o) (callbacks : Callbacks) :
    ∃ g', (tending good).next g o (o.handle callbacks w).1 g'
      ∧ Holds good g' (o.handle callbacks w).2 := by
  cases o with
  | saveSnapshot s =>
    refine ⟨s.isInProgress, rfl, ?_, ?_⟩
    · rintro s' ⟨⟩ hnot
      rcases ho with hterm | ⟨-, -, hs⟩
      · rw [hterm] at hnot
        cases hnot
      · exact hs
    · rintro hg s' ⟨⟩
      exact hg
  | saveTaskResult taskId output =>
    refine ⟨g, rfl, ?_⟩
    rcases w.saveTaskResult_cases taskId output with ⟨-, hw⟩ | ⟨s, hs, hw⟩
    · exact h.same (congrArg World.snapshot hw)
    · change Holds good g (w.saveTaskResult taskId output).2
      rw [hw]
      have hframe := Frame.mark (t := t) (s := s) taskId output
      refine ⟨?_, ?_⟩
      · rintro s' ⟨⟩ hnot
        refine hgood hframe.retry hframe.result (h.good s hs ?_)
        unfold isTerminal markTaskCompleted at hnot
        unfold isTerminal
        cases hstate : s.state <;> simp_all
      · rintro hg s' ⟨⟩
        exact hframe.running ▸ h.running hg s hs
  | loadSnapshot =>
    change ∃ g', (tending good).next g .loadSnapshot w.loadSnapshot.1 g'
      ∧ Holds good g' w.loadSnapshot.2
    unfold World.loadSnapshot
    cases hs : w.snapshot with
    | none => exact ⟨g, rfl, h⟩
    | some s =>
      refine ⟨s.isInProgress, ⟨fun hprog => h.good s hs (isTerminal_of_isInProgress hprog),
        fun hg => h.running hg s hs, rfl⟩, h.good, fun hg s' hs' => ?_⟩
      rw [hs] at hs'
      cases hs'
      exact hg
  | checkAndCancel scope =>
    change ∃ g', (tending good).next g (.checkAndCancel scope) (w.checkAndCancel scope).1 g'
      ∧ Holds good g' (w.checkAndCancel scope).2
    rcases w.checkAndCancel_cases scope with hw | ⟨s, request, hs, hprog, -, hw⟩
    · rw [hw]
      rcases (w.checkAndCancel scope).1 with e | _ | _
      · exact ⟨g, rfl, h⟩
      · exact ⟨g, rfl, h⟩
      · exact ⟨false, rfl, h.stop⟩
    · rw [hw]
      refine ⟨false, rfl, ?_, nofun⟩
      rintro s' ⟨⟩ hnot
      cases hnot
  | checkAndPause =>
    change ∃ g', (tending good).next g .checkAndPause w.checkAndPause.1 g'
      ∧ Holds good g' w.checkAndPause.2
    rcases w.checkAndPause_cases with hw | ⟨s, request, hs, hprog, -, hw⟩
    · rw [hw]
      rcases w.checkAndPause.1 with e | _ | _
      · exact ⟨g, rfl, h⟩
      · exact ⟨g, rfl, h⟩
      · exact ⟨false, rfl, h.stop⟩
    · rw [hw]
      refine ⟨false, rfl, ?_, nofun⟩
      rintro s' ⟨⟩ -
      refine hgood ?_ ?_ (h.good s hs (isTerminal_of_isInProgress hprog))
      · unfold retryOf markPaused
        split <;> rfl
      · intro hrec
        simpa [records] using hrec
  | consumeEvent signalName =>
    refine ⟨g, rfl, h.same ?_⟩
    change (w.consumeEvent signalName).2.snapshot = _
    rcases w.consumeEvent_cases signalName with ⟨-, hw⟩ | ⟨_, _, -, hw⟩ <;> rw [hw]
  | raceTask id input deadline =>
    refine ⟨g, rfl, h.same ?_⟩
    unfold Op.handle
    dsimp only
    split <;> rfl
  | _ => exact ⟨g, rfl, h.same rfl⟩

/-- What happens around an instance does not touch what is stored about the task. -/
theorem Holds.env (hgood : Concerns t good) (h : Holds good g w) (hw : Env w w') :
    Holds good g w' := by
  rcases hw.cases with ⟨_, _, rfl⟩ | ⟨_, _, rfl⟩ | ⟨_, _, rfl⟩ | ⟨s, hs, rfl⟩
  · exact h.same rfl
  · exact h.same rfl
  · exact h.same rfl
  · refine ⟨?_, ?_⟩
    · rintro s' ⟨⟩ hnot
      refine hgood ?_ ?_ (h.good s hs ?_)
      · simp [retryOf]
      · intro hrec
        simpa [records] using hrec
      · unfold isTerminal markUnpaused at hnot
        unfold isTerminal
        cases hstate : s.state <;> simp_all
    · rintro hg s' ⟨⟩
      have hprog := h.running hg s hs
      unfold isInProgress at hprog ⊢
      unfold markUnpaused
      cases hstate : s.state <;> simp_all

end world

/-! ## Budgets -/

/-- What is stored about a task, and what budget it is good for. -/
structure Budgeted (n : ℕ) (t : String) (base : WorkflowSnapshot → Prop)
    (good : ℕ → WorkflowSnapshot → Prop) : Prop where
  base_concerns : Concerns t base
  good_concerns : ∀ b, Concerns t (good b)
  toBase : ∀ {b s}, good b s → base s
  /-- A task with a result needs nothing. -/
  recorded : ∀ {s}, base s → s.records t → good 0 s
  /-- What is left after the attempts that are counted. -/
  counted : ∀ {s e}, base s → e ≤ s.attemptsOf t → good (n + 1 - e) s

section budgets

variable {n : ℕ} {t : String} {s s' : WorkflowSnapshot}

theorem budgeted_main : Budgeted n t (Proper n t) (Funded n t) where
  base_concerns := concerns_proper
  good_concerns := concerns_funded
  toBase hs := hs.1
  recorded hs hrec := ⟨hs, .inl hrec⟩
  counted hs he := ⟨hs, .inr (by omega)⟩

theorem budgeted_branch :
    Budgeted n t (fun s => s.retryOf t = none) fun b => Aside n b t where
  base_concerns hretry _ hs := hretry.trans hs
  good_concerns := concerns_aside
  toBase hs := hs.1
  recorded hs hrec := ⟨hs, .inl hrec⟩
  counted {s e} hs he := by
    -- nothing is counted, so nothing has been spent
    rw [attemptsOf_of_none hs] at he
    exact ⟨hs, .inr (by omega)⟩

end budgets

/-! ## All processes of an instance -/

/-- What the processes of an instance have spent, and what the one at work may spend. -/
structure Kept (n : ℕ) (t : String) (base : WorkflowSnapshot → Prop)
    (good : ℕ → WorkflowSnapshot → Prop) (m : Trial.State) : Prop where
  errors : m.world.errors ≤ n + 1
  stored : Holds base false m.world.world
  proc : ∀ p, m.proc = some p → ∃ b g k, Holds (good b) g m.world.world
    ∧ m.world.errors + k ≤ n + 1
    ∧ p.Spends (errorOf t) (tending (good b)) g k fun _ _ _ => True

section machine

variable {trial : Trial} {n : ℕ} {base : WorkflowSnapshot → Prop}
  {good : ℕ → WorkflowSnapshot → Prop} {provided : Ledger → Prop}
  (hB : Budgeted n trial.task base good)
include hB

theorem Kept.env (hk : Kept n trial.task base good m)
    (hl : Ledger.Env m.world l) : Kept n trial.task base good { m with world := l } := by
  cases hl with
  | world w hw =>
    refine ⟨hk.errors, hk.stored.env hB.base_concerns hw, fun p hp => ?_⟩
    obtain ⟨b, g, k, hh, hsum, hs⟩ := hk.proc p hp
    exact ⟨b, g, k, hh.env (hB.good_concerns b) hw, hsum, hs⟩

theorem Kept.run {p p' : Proc RunResult} (hk : Kept n trial.task base good m) (hp : m.proc = some p)
    (hs : Prog.Step (Ledger.handle trial.script trial.task) p m.world p' l) :
    Kept n trial.task base good { m with world := l, proc := some p' } := by
  obtain ⟨b, g, k, hh, hsum, hspends⟩ := hk.proc p hp
  rcases hspends.step hs with ⟨rfl, k', hk', hp'⟩ | ⟨o, ho, rfl, hp'⟩
  · refine ⟨hk.errors, hk.stored, ?_⟩
    rintro q ⟨⟩
    exact ⟨b, g, k', hh, le_trans (Nat.add_le_add_left hk' _) hsum, hp'⟩
  · -- the operation is paid for, and its answer is one that the process expects
    obtain ⟨g', hnext, hh'⟩ := hh.handle (hB.good_concerns b) ho (trial.script m.world.steps)
    obtain ⟨k', hcost, hspends'⟩ := hp' g' hnext
    have hle : (Ledger.handle trial.script trial.task o m.world).2.errors + k' ≤ n + 1 := by
      change m.world.errors + errorOf trial.task o
        (Ledger.handle trial.script trial.task o m.world).1 + k' ≤ n + 1
      omega
    refine ⟨le_trans (Nat.le_add_right _ k') hle, ⟨fun s hs hnot => hB.toBase (hh'.good s hs hnot), nofun⟩, ?_⟩
    rintro q ⟨⟩
    exact ⟨b, g', k', hh', hle, hspends'⟩

end machine

/-- The processes of a placed task keep to their budgets. -/
structure Sound (trial : Trial) (n : ℕ) (good : ℕ → WorkflowSnapshot → Prop) : Prop where
  run : ∀ instanceId, (run trial.job.executor trial.job.codec trial.job.continuation instanceId
    trial.job.definitionHash trial.job.input).Spends (errorOf trial.task) (tending (good (n + 1)))
      true (n + 1) fun _ _ _ => True
  resume : ∀ b, (resume trial.job.executor trial.job.codec trial.job.continuation
    trial.job.definitionHash).Spends (errorOf trial.task) (tending (good b)) false b
      fun _ _ _ => True

section machine

variable {trial : Trial} {n : ℕ} {base : WorkflowSnapshot → Prop}
  {good : ℕ → WorkflowSnapshot → Prop} {provided : Ledger → Prop}
  (hB : Budgeted n trial.task base good) (hS : Sound trial n good)
  (hprovided : ∀ l, provided l → l.Recorded trial.task)
include hB hS hprovided

/-- A process gets what is left, as far as the stored snapshot knows. -/
theorem Kept.launch {p : Proc RunResult} (hk : Kept n trial.task base good m)
    (hl : trial.Launch provided m.world p) :
    Kept n trial.task base good { m with proc := some p, reported := none } := by
  obtain ⟨hok, hlaunch⟩ := hl
  have hrec := hprovided _ hok
  refine ⟨hk.errors, hk.stored, ?_⟩
  rintro q ⟨⟩
  have herr := hk.errors
  unfold Ledger.Recorded at hrec
  cases hlaunch with
  | run hnone =>
    rw [hnone] at hrec
    have hzero : m.world.errors = 0 := hrec
    refine ⟨n + 1, true, n + 1, ⟨?_, ?_⟩, ?_, hS.run _⟩
    · intro s hs
      rw [hnone] at hs
      cases hs
    · intro _ s hs
      rw [hnone] at hs
      cases hs
    · change m.world.errors + (n + 1) ≤ n + 1
      omega
  | resume hsome =>
    obtain ⟨s, hs⟩ := Option.ne_none_iff_exists'.mp hsome
    rw [hs] at hrec
    have hstart : ∀ b, (s.isTerminal = false → good b s) → m.world.errors + b ≤ n + 1 →
        ∃ b g k, Holds (good b) g m.world.world ∧ m.world.errors + k ≤ n + 1
          ∧ (resume trial.job.executor trial.job.codec trial.job.continuation
              trial.job.definitionHash).Spends (errorOf trial.task) (tending (good b)) g k
                fun _ _ _ => True := by
      refine fun b hgood hle => ⟨b, false, b, ⟨fun s' hs' => ?_, nofun⟩, hle, hS.resume b⟩
      rw [hs] at hs'
      cases hs'
      exact hgood
    rcases hrec with hterm | hres | hcount
    · exact hstart 0 (fun hnot => by rw [hterm] at hnot; cases hnot) (by omega)
    · exact hstart 0 (fun hnot => hB.recorded (hk.stored.good s hs hnot) hres) (by omega)
    · exact hstart (n + 1 - m.world.errors)
        (fun hnot => hB.counted (hk.stored.good s hs hnot) hcount) (by omega)

/-- **The budget is kept by every run whose processes start on snapshots that have missed
no failure.** -/
theorem kept_of_reachable
    (hm : trial.Reachable provided instanceId m) : Kept n trial.task base good m := by
  obtain ⟨now, hm⟩ := hm
  induction hm with
  | refl =>
    refine ⟨Nat.zero_le _, ⟨?_, nofun⟩, ?_⟩
    · intro s hs
      cases hs
    · intro p hp
      cases hp
  | tail _ hs ih =>
    cases hs with
    | env he => exact ih.env hB he
    | run hp hstep => exact ih.run hB hp hstep
    | finish _ => exact ⟨ih.errors, ih.stored, by simp⟩
    | kill _ => exact ⟨ih.errors, ih.stored, by simp⟩
    | launch _ hl => exact ih.launch hB hS hprovided hl

end machine

section placements

variable {trial : Trial} {fields : TaskFields} {policy : RetryPolicy} {inBranch : Bool}
  (hplaced : Places trial.task fields inBranch trial.job.continuation)
  (hids : trial.job.continuation.ids.Nodup) (hpolicy : fields.retryPolicy = some policy)
  (hretries : 1 ≤ policy.maxRetries)
include hplaced hids hpolicy hretries

theorem sound_main (h : inBranch = false) :
    Sound trial policy.maxRetries (Funded policy.maxRetries trial.task) := by
  subst h
  refine ⟨fun instanceId => ?_, fun b => ?_⟩
  · have hnone : (initialSnapshot instanceId trial.job.definitionHash trial.job.input
        trial.job.continuation.firstTaskHint).retryOf trial.task = none := rfl
    refine spends_run (conduct_main hpolicy rfl hretries) (.inr ⟨hplaced, hids⟩) hids
      (concerns_funded _) ⟨proper_of_none hnone, .inr ?_⟩
    rw [attemptsOf_of_none hnone]
    omega
  · exact spends_resume (conduct_main hpolicy rfl hretries) (.inr ⟨hplaced, hids⟩) hids
      (concerns_funded b) _

theorem sound_branch (h : inBranch = true) :
    Sound trial policy.maxRetries fun b => Aside policy.maxRetries b trial.task := by
  subst h
  exact ⟨fun instanceId => spends_run (conduct_branch hpolicy rfl hretries) (.inr ⟨hplaced, hids⟩)
    hids (concerns_aside _) ⟨rfl, .inr le_rfl⟩, fun b => spends_resume
      (conduct_branch hpolicy rfl hretries) (.inr ⟨hplaced, hids⟩) hids (concerns_aside b) _⟩

/-- The task fails at most once more than its policy allows retries. -/
theorem errors_le {provided : Ledger → Prop} (hprovided : ∀ l, provided l → l.Recorded trial.task)
    (hm : trial.Reachable provided instanceId m) :
    m.world.errors ≤ policy.maxRetries + 1 := by
  cases inBranch with
  | false =>
    exact (kept_of_reachable budgeted_main (sound_main hplaced hids hpolicy hretries rfl)
      hprovided hm).errors
  | true =>
    exact (kept_of_reachable budgeted_branch (sound_branch hplaced hids hpolicy hretries rfl)
      hprovided hm).errors

end placements

/-! ## A task that does not fail -/

/-- No call of the task returns an error. -/
def Trial.Succeeds (trial : Trial) : Prop :=
  ∀ i input e, (trial.script i).execute trial.task input ≠ .error e

section succeeds

variable {trial : Trial} (hok : trial.Succeeds)
include hok

omit [Sha256] in
theorem errorOf_eq_zero (i : ℕ) (o : Op) (w : World) :
    errorOf trial.task o (o.handle (trial.script i) w).1 = 0 := by
  have hcall : ∀ {id input e}, id = trial.task → (trial.script i).execute id input ≠ .error e := by
    rintro id input e rfl
    exact hok i input e
  unfold errorOf
  split
  · rename_i id input e heq
    split
    · rename_i hid
      exact (hcall hid heq).elim
    · rfl
  · rename_i id input deadline e heq
    split
    · rename_i hid
      unfold Op.handle at heq
      dsimp only at heq
      split at heq
      · exact (hcall hid (Option.some.inj heq)).elim
      · cases heq
    · rfl
  · rfl

omit [Sha256] in
theorem errors_step {p p' : Proc α} {l' : Ledger}
    (hs : Prog.Step (Ledger.handle trial.script trial.task) p l p' l') : l'.errors = l.errors := by
  induction hs with
  | @op _ o _ l => exact congrArg (l.errors + ·) (errorOf_eq_zero hok l.steps o l.world)
  | child _ _ ih => exact ih
  | join _ => rfl

theorem errors_eq_zero {provided : Ledger → Prop}
    (hm : trial.Reachable provided instanceId m) : m.world.errors = 0 := by
  obtain ⟨now, hm⟩ := hm
  induction hm with
  | refl => rfl
  | tail _ hs ih =>
    cases hs with
    | env he =>
      cases he with
      | world w hw => exact ih
    | run _ hstep => exact (errors_step hok hstep).trans ih
    | finish _ => exact ih
    | kill _ => exact ih
    | launch _ _ => exact ih

end succeeds

/-! ## The time of the next attempt -/

/-- The clock does not go back, and what is added to the trace is not older than the
clock was. -/
structure Later (w w' : World) : Prop where
  clock : w.clock ≤ w'.clock
  calls : ∃ added, w'.trace = w.trace ++ added
    ∧ ∀ id input time, Event.taskCalled id input time ∈ added → w.clock ≤ time

namespace Later

variable {w w' w'' : World}

omit [Sha256] in
theorem of_trace (hc : w.clock ≤ w'.clock) (ht : w'.trace = w.trace) : Later w w' :=
  ⟨hc, [], by simp [ht], by simp⟩

omit [Sha256] in
theorem refl : Later w w := of_trace le_rfl rfl

omit [Sha256] in
theorem trans (h : Later w w') (h' : Later w' w'') : Later w w'' := by
  obtain ⟨added, ht, hcalls⟩ := h.calls
  obtain ⟨added', ht', hcalls'⟩ := h'.calls
  refine ⟨le_trans h.clock h'.clock, added ++ added', ?_, fun id input time hmem => ?_⟩
  · rw [ht', ht, List.append_assoc]
  · rcases List.mem_append.mp hmem with hmem | hmem
    · exact hcalls id input time hmem
    · exact le_trans h.clock (hcalls' id input time hmem)

omit [Sha256] in
/-- One event is added, and if it is a call it is made now. -/
theorem of_log {e : Event} (hc : w.clock ≤ w'.clock) (ht : w'.trace = w.trace ++ [e])
    (he : ∀ id input time, e = .taskCalled id input time → w.clock ≤ time) : Later w w' :=
  ⟨hc, [e], ht, fun id input time hmem => he id input time (List.mem_singleton.mp hmem).symm⟩

omit [Sha256] in
theorem handle (callbacks : Callbacks) (o : Op) (w : World) :
    Later w (o.handle callbacks w).2 := by
  have hcall : ∀ (id : String) (input : Bytes) (d : Duration), Later w
      { w.log (.taskCalled id input w.clock) with clock := w.clock + d } := by
    refine fun id input d => of_log (Nat.le_add_right w.clock d) rfl ?_
    rintro id' input' time ⟨⟩
    exact le_rfl
  cases o with
  | saveSnapshot s => exact of_log le_rfl rfl nofun
  | saveTaskResult taskId output =>
    change Later w (w.saveTaskResult taskId output).2
    rcases w.saveTaskResult_cases taskId output with ⟨-, hw⟩ | ⟨s, -, hw⟩ <;> rw [hw]
    · exact refl
    · exact of_log le_rfl rfl nofun
  | loadSnapshot =>
    change Later w w.loadSnapshot.2
    rw [World.loadSnapshot_snd]
    exact refl
  | checkAndCancel scope =>
    change Later w (w.checkAndCancel scope).2
    rcases w.checkAndCancel_cases scope with hw | ⟨s, request, -, -, -, hw⟩ <;> rw [hw]
    · exact refl
    · exact of_trace le_rfl rfl
  | checkAndPause =>
    change Later w w.checkAndPause.2
    rcases w.checkAndPause_cases with hw | ⟨s, request, -, -, -, hw⟩ <;> rw [hw]
    · exact refl
    · exact of_trace le_rfl rfl
  | consumeEvent signalName =>
    change Later w (w.consumeEvent signalName).2
    rcases w.consumeEvent_cases signalName with ⟨-, hw⟩ | ⟨_, _, -, hw⟩ <;> rw [hw]
    · exact refl
    · exact of_trace le_rfl rfl
  | executeTask id input => exact hcall id input _
  | raceTask id input deadline =>
    unfold Op.handle
    dsimp only
    split
    · exact hcall id input _
    · exact hcall id input _
  | executeKeyFn id input => exact of_log (Nat.le_add_right w.clock _) rfl nofun
  | utcNow => exact refl
  | sleepUntil time => exact of_trace (Nat.le_max_left w.clock time) rfl
  | reached id => exact of_log le_rfl rfl nofun

omit [Sha256] in
theorem env (h : Env w w') : Later w w' := by
  rcases h.cases with ⟨_, hc, rfl⟩ | ⟨_, _, rfl⟩ | ⟨_, _, rfl⟩ | ⟨_, _, rfl⟩
  · exact of_trace hc rfl
  · exact of_trace le_rfl rfl
  · exact of_trace le_rfl rfl
  · exact of_trace le_rfl rfl

omit [Sha256] in
theorem step {script : ℕ → Callbacks} {t : String} {p p' : Proc α} {l' : Ledger}
    (hs : Prog.Step (Ledger.handle script t) p l p' l') : Later l.world l'.world := by
  induction hs with
  | op => exact handle _ _ _
  | child _ _ ih => exact ih
  | join _ => exact refl

omit [Sha256] in
/-- Whatever a process and the world around it do, they do it later. -/
theorem reach {script : ℕ → Callbacks} {t : String} {p p' : Proc α} {l' : Ledger}
    (hr : Prog.Reach (Ledger.handle script t) Ledger.Env p l p' l') : Later l.world l'.world := by
  induction hr with
  | refl => exact refl
  | step _ hs ih => exact ih.trans (step hs)
  | env _ he ih =>
    cases he with
    | world w hw => exact ih.trans (env hw)

end Later

/-! ## Durable retry state -/

/-- No failure has been missed, and the next attempt is due. -/
def Ledger.Ripe (t : String) (l : Ledger) : Prop := l.Recorded t ∧ l.Due t

/-- **Retry state is durable, for policies that allow a retry and processes that start on
a snapshot that has missed no failure, when the next attempt is due.** The calls of the task that return an
error are at most one more than the retries of its policy, in every state of every run; and
a process calls the task no earlier than the time of the next attempt that was stored when
it started. -/
theorem retries_durable (trial : Trial) {fields : TaskFields} {policy : RetryPolicy}
    {inBranch : Bool} (hplaced : Places trial.task fields inBranch trial.job.continuation)
    (hids : trial.job.continuation.ids.Nodup) (hpolicy : fields.retryPolicy = some policy)
    (hretries : 1 ≤ policy.maxRetries ∨ trial.Succeeds) {instanceId : String} {m : Trial.State}
    (hm : trial.Reachable (Ledger.Ripe trial.task) instanceId m) :
    m.world.errors ≤ policy.maxRetries + 1
      ∧ ∀ p q l, trial.Launch (Ledger.Ripe trial.task) m.world p →
          Prog.Reach (Ledger.handle trial.script trial.task) Ledger.Env p m.world q l →
            ∀ input time, .taskCalled trial.task input time
                ∈ l.world.trace.drop m.world.world.trace.length →
              ∀ due ∈ m.world.world.due trial.task, due ≤ time := by
  refine ⟨?_, ?_⟩
  · rcases hretries with hretries | hok
    · exact errors_le hplaced hids hpolicy hretries (fun _ h => h.1) hm
    · rw [errors_eq_zero hok hm]
      exact Nat.zero_le _
  intro p q l hl hr input time hmem due hdue
  obtain ⟨added, htrace, hcalls⟩ := (Later.reach hr).calls
  rw [htrace, List.drop_left] at hmem
  exact le_trans (hl.1.2 due hdue) (hcalls _ input time hmem)

end hashed

section sample

attribute [local instance] Sha256.packed

/-- A task that may be retried so often, each time after a second. -/
def retried (n : ℕ) : TaskFields :=
  ⟨true, none, some ⟨n, Duration.fromMillis 1000, 1, none⟩, none, none, []⟩

/-- The task `t` of this workflow fails whenever it is called. -/
def failing (c : WorkflowContinuation) : Trial where
  job := ⟨.callback, .plain, ⟨fun _ input => .ok input, fun _ _ => 1⟩, c, ⟨0⟩, [7]⟩
  script := fun _ => ⟨fun name input => if name = "t" then .error (.other "down") else .ok input,
    fun _ _ => 1⟩
  task := "t"

/-- The first process. -/
def Trial.first (trial : Trial) : Proc RunResult :=
  run trial.job.executor trial.job.codec trial.job.continuation "i" trial.job.definitionHash
    trial.job.input

/-- A process that continues a stored instance. -/
def Trial.next (trial : Trial) : Proc RunResult :=
  resume trial.job.executor trial.job.codec trial.job.continuation trial.job.definitionHash

/-- The ledgers after each operation of a process. -/
def Trial.ledgers (trial : Trial) (p : Proc RunResult) (l : Ledger) : List Ledger :=
  p.worlds (Ledger.handle trial.script trial.task) l

/-- The task alone on the main path. -/
def alone (n : ℕ) : Trial := failing (.task "t" (retried n) none)

/-- The task in one of two branches. -/
def forked (n : ℕ) : Trial :=
  failing (.fork "f" [.task "t" (retried n) none, .task "u" .plain none]
    (some (.task "j" .plain none)))

/-- The first process may be killed after any operation, if nothing is asked of a start. -/
theorem killed_first (trial : Trial) (provided : Ledger → Prop)
    (hl : l ∈ trial.ledgers trial.first (Ledger.fresh "i" 0))
    (hprovided : provided (Ledger.fresh "i" 0)) :
    trial.Reachable provided "i" ⟨l, none, none⟩ :=
  ⟨0, Machine.Reachable.crash .refl rfl ⟨hprovided, .run _ rfl⟩ hl⟩

/-- A task with one retry fails, its process is killed during the backoff and continued
when the next attempt is due. It fails once more, and that is all. -/
theorem retries_durable_alone : ∃ m, (alone 1).Reachable (Ledger.Ripe "t") "i" m
    ∧ m.world.errors = 2 ∧ m.world.errors ≤ 1 + 1 := by
  have h : ∃ l ∈ (alone 1).ledgers (alone 1).first (Ledger.fresh "i" 0), l.errors = 1
      ∧ (∃ s ∈ l.world.snapshot, l.errors ≤ s.attemptsOf "t")
      ∧ l.world.due "t" = some l.world.clock
      ∧ (((alone 1).next).eval (Ledger.handle (alone 1).script "t") l).2.errors = 2 := by
    decide +kernel
  obtain ⟨l, hl, -, ⟨s, hs, hcount⟩, hdue, herr⟩ := h
  have hstart : Ledger.Ripe "t" (Ledger.fresh "i" 0) := ⟨rfl, nofun⟩
  have hripe : Ledger.Ripe "t" l := by
    refine ⟨?_, fun time htime => ?_⟩
    · unfold Ledger.Recorded
      rw [Option.mem_def.mp hs]
      exact .inr (.inr hcount)
    · rw [hdue] at htime
      cases htime
      exact le_rfl
  obtain ⟨now, hm⟩ := killed_first (alone 1) _ hl hstart
  have hm' : (alone 1).Reachable (Ledger.Ripe "t") "i" _ :=
    ⟨now, hm.finish rfl ⟨hripe, .resume _ (by simp [Option.mem_def.mp hs])⟩⟩
  exact ⟨_, hm', herr, (retries_durable (alone 1) (.here none) (by decide) rfl (.inl le_rfl) hm').1⟩

/-- A process that is started before the next attempt is due calls the task at once. A
task in a branch fails three times although its policy has one retry, if its process is
killed after the first failure. And a task without retries fails twice, without any
crash. -/
theorem retry_state_lost :
    (∃ m p l input time due, (alone 1).Reachable (fun _ => True) "i" m
        ∧ (alone 1).Launch (fun _ => True) m.world p
        ∧ Prog.Reach (Ledger.handle (alone 1).script "t") Ledger.Env p m.world
            (.pure (p.eval (Ledger.handle (alone 1).script "t") m.world).1) l
        ∧ .taskCalled "t" input time ∈ l.world.trace.drop m.world.world.trace.length
        ∧ due ∈ m.world.world.due "t" ∧ time < due)
      ∧ (∃ m, (forked 1).Reachable (fun _ => True) "i" m ∧ m.world.errors = 3)
      ∧ ∃ m, (alone 0).Reachable (fun _ => True) "i" m ∧ m.world.errors = 2 := by
  refine ⟨?_, ?_, ?_⟩
  · have h : ∃ l ∈ (alone 1).ledgers (alone 1).first (Ledger.fresh "i" 0), l.world.snapshot ≠ none
        ∧ l.world.due "t" = some 1000000001
        ∧ .taskCalled "t" [7] 1 ∈ (((alone 1).next).eval (Ledger.handle (alone 1).script "t")
            l).2.world.trace.drop l.world.trace.length := by
      decide +kernel
    obtain ⟨l, hl, hsome, hdue, hcall⟩ := h
    exact ⟨_, (alone 1).next, _, [7], 1, 1000000001, killed_first (alone 1) _ hl trivial,
      ⟨trivial, .resume _ hsome⟩, Prog.eval_reach _ l, hcall, hdue, by decide⟩
  · have h : ∃ l ∈ (forked 1).ledgers (forked 1).first (Ledger.fresh "i" 0), l.world.snapshot ≠ none
        ∧ (((forked 1).next).eval (Ledger.handle (forked 1).script "t") l).2.errors = 3 := by
      decide +kernel
    obtain ⟨l, hl, hsome, herr⟩ := h
    obtain ⟨now, hm⟩ := killed_first (forked 1) (fun _ => True) hl trivial
    exact ⟨_, ⟨now, hm.finish rfl ⟨trivial, .resume _ hsome⟩⟩, herr⟩
  · have herr : (((alone 0).first).eval (Ledger.handle (alone 0).script "t")
        (Ledger.fresh "i" 0)).2.errors = 2 := by decide +kernel
    exact ⟨_, ⟨0, Machine.Reachable.finish .refl rfl ⟨trivial, .run _ rfl⟩⟩, herr⟩

end sample

end Sayiir
