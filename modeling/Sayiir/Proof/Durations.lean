import Sayiir.Core.FlowBuilder

/-!
# Durations that the builders accept

A builder accepts every duration, and a binding every finite number of seconds
that is not negative. Here is, for each place that computes with one of them,
exactly which values make it panic: the conversion to a standard duration when
a flow is built, the wake-up time of a delay, the end of a signal wait, the
deadline of a task and the time of the next attempt of a failed one.
-/

namespace Sayiir

variable {secs : Float64}

/-! ## Building a flow -/

/-- The number of seconds does not fit into a standard duration. -/
def Float64.tooLong : Float64 → Bool
  | finite value => decide (2 ^ 64 ≤ value)
  | infinite _ | nan => false

/-- What `validate_duration` accepts. -/
def Float64.valid (secs : Float64) : Bool := secs.isFinite && !secs.isNegative

theorem validateDuration_ok {label : String} (h : validateDuration secs label = .ok ()) :
    secs.valid := by
  unfold validateDuration at h
  split at h
  · cases h
  · rename_i hc
    simpa [Float64.valid] using hc

/-- An accepted number of seconds is converted, unless it is too large. -/
theorem fromSecsF64_of_valid (h : secs.valid) :
    if secs.tooLong then ∃ p, Duration.fromSecsF64 secs = .error p
    else ∃ d, Duration.fromSecsF64 secs = .ok d := by
  cases secs with
  | infinite | nan => cases h
  | finite value =>
    have hneg : ¬ value < 0 := by simpa [Float64.valid, Float64.isFinite,
      Float64.isNegative] using h
    unfold Duration.fromSecsF64
    by_cases hlong : 2 ^ 64 ≤ value
    · simp [Float64.tooLong, hlong, hneg]
    · simp [Float64.tooLong, hlong, hneg]

namespace BuilderTask

mutual

/-- Every number of seconds in the step is an accepted one. -/
def valid : BuilderTask → Bool
  | .delay _ secs => secs.valid
  | .awaitSignal _ _ timeoutSecs => timeoutSecs.all Float64.valid
  | .childWorkflow _ tasks => validAll tasks
  | .sequential .. | .fork .. | .branch .. | .loop .. => true

def validAll : List BuilderTask → Bool
  | [] => true
  | task :: tasks => task.valid && validAll tasks

end

mutual

/-- The step is refused when the flow is built. -/
def refused : BuilderTask → Bool
  | .fork branches .. => branches.any List.isEmpty
  | .branch _ branches default => branches.any (·.2.isEmpty) || default.any List.isEmpty
  | .loop _ _ _ maxIterations _ => decide (maxIterations = 0)
  | .childWorkflow _ tasks => tasks.isEmpty || refusedAny tasks
  | .sequential .. | .delay .. | .awaitSignal .. => false

def refusedAny : List BuilderTask → Bool
  | [] => false
  | task :: tasks => task.refused || refusedAny tasks

end

mutual

/-- The step waits for more than `2 ^ 64` seconds, or a step of the child workflow
does that the build gets to. -/
def exceeds : BuilderTask → Bool
  | .delay _ secs => secs.tooLong
  | .awaitSignal _ _ timeoutSecs => timeoutSecs.any Float64.tooLong
  | .childWorkflow _ tasks => exceedsAny tasks
  | .sequential .. | .fork .. | .branch .. | .loop .. => false

/-- The steps are built from the last one, and a refusal ends the build. -/
def exceedsAny : List BuilderTask → Bool
  | [] => false
  | task :: tasks => exceedsAny tasks || (!refusedAny tasks && task.exceeds)

end

end BuilderTask

/-- How a build ends: `exceeds` tells whether it panics, and otherwise `refused` whether
it is refused. -/
def Building.Ends {α : Type} (exceeds refused : Bool) (r : Building α) : Prop :=
  if exceeds then ∃ p, r = .error p
  else if refused then ∃ e, r = .ok (.error e)
  else ∃ a, r = .ok (.ok a)

namespace Building

variable {α β : Type}

theorem Ends.map {exceeds refused : Bool} {r : Building α} (h : Ends exceeds refused r)
    (f : α → β) : Ends exceeds refused (f <$> r) := by
  cases exceeds with
  | true =>
    obtain ⟨p, rfl⟩ := h
    exact ⟨p, rfl⟩
  | false =>
    cases refused with
    | true =>
      obtain ⟨e, rfl⟩ := h
      exact ⟨e, rfl⟩
    | false =>
      obtain ⟨a, rfl⟩ := h
      exact ⟨f a, rfl⟩

/-- The second of two builds only begins when the first one comes to its end. -/
theorem Ends.bind {exceeds refused exceeds' refused' : Bool} {r : Building α}
    (h : Ends exceeds refused r) {f : α → Building β}
    (hf : ∀ a, r = .ok (.ok a) → Ends exceeds' refused' (f a)) :
    Ends (exceeds || (!refused && exceeds')) (refused || refused') (r >>= f) := by
  cases exceeds with
  | true =>
    obtain ⟨p, rfl⟩ := h
    exact ⟨p, rfl⟩
  | false =>
    cases refused with
    | true =>
      obtain ⟨e, rfl⟩ := h
      exact ⟨e, rfl⟩
    | false =>
      obtain ⟨a, rfl⟩ := h
      exact hf a rfl

end Building

theorem ends_fromSecsF64 (h : secs.valid) :
    Building.Ends secs.tooLong false (ExceptT.lift (Duration.fromSecsF64 secs)) := by
  have hconv := fromSecsF64_of_valid h
  by_cases hlong : secs.tooLong
  · rw [if_pos hlong] at hconv
    obtain ⟨p, hp⟩ := hconv
    rw [hlong, hp]
    exact ⟨p, rfl⟩
  · rw [if_neg hlong] at hconv
    obtain ⟨d, hd⟩ := hconv
    rw [Bool.eq_false_iff.mpr hlong, hd]
    exact ⟨d, rfl⟩

theorem isOk_buildBranches (branches : List (List (String × TaskMetadata))) :
    (buildBranches branches).isOk = !branches.any List.isEmpty := by
  unfold buildBranches
  induction branches with
  | nil => rfl
  | cons chain branches ih =>
    rw [List.mapM_cons, List.any_cons]
    cases chain with
    | nil => rfl
    | cons task chain =>
      change Except.isOk (do
        let bs ← branches.mapM buildChain
        pure (_ :: bs)) = _
      rw [List.isEmpty_cons, Bool.false_or, ← ih]
      cases branches.mapM buildChain <;> rfl

theorem isOk_buildRoutes (branches : List (String × List (String × TaskMetadata))) :
    (buildRoutes branches).isOk = !branches.any (·.2.isEmpty) := by
  unfold buildRoutes
  generalize ([] : List (String × WorkflowContinuation)) = routes
  induction branches generalizing routes with
  | nil => rfl
  | cons r branches ih =>
    obtain ⟨key, chain⟩ := r
    rw [List.foldlM_cons, List.any_cons]
    cases chain with
    | nil => rfl
    | cons task chain => exact ih _

theorem isOk_buildDefault (default : Option (List (String × TaskMetadata))) :
    (default.mapM buildChain).isOk = !default.any List.isEmpty := by
  rcases default with _ | _ | ⟨task, chain⟩ <;> rfl

theorem ends_liftExcept {α : Type} (r : Except BuildError α) :
    Building.Ends false (!r.isOk) (BuilderTask.node.liftExcept r) := by
  cases r with
  | error e => exact ⟨e, rfl⟩
  | ok a => exact ⟨a, rfl⟩

theorem Building.Ends.cast {α : Type} {exceeds refused exceeds' refused' : Bool}
    {r : Building α} (h : Ends exceeds refused r) (he : exceeds = exceeds')
    (hr : refused = refused') : Ends exceeds' refused' r := he ▸ hr ▸ h

theorem exists_of_chain_cons {task : BuilderTask} {tasks : List BuilderTask}
    {r : Option WorkflowContinuation} (h : BuilderTask.chain (task :: tasks) = .ok (.ok r)) :
    ∃ c, r = some c := by
  unfold BuilderTask.chain at h
  rcases hcurrent : BuilderTask.chain tasks with p | e | current
  · rw [hcurrent] at h
    cases h
  · rw [hcurrent] at h
    cases h
  · rw [hcurrent] at h
    change some <$> task.node current = _ at h
    rcases hnode : task.node current with p | e | c
    · rw [hnode] at h
      cases h
    · rw [hnode] at h
      cases h
    · rw [hnode] at h
      cases h
      exact ⟨c, rfl⟩

mutual

/-- How the node of a step is built. -/
theorem ends_node (current : Option WorkflowContinuation) :
    (task : BuilderTask) → task.valid → Building.Ends task.exceeds task.refused (task.node current)
  | .sequential taskId metadata, _ => ⟨_, rfl⟩
  | .delay delayId secs, h =>
    ((ends_fromSecsF64 h).map fun d => WorkflowContinuation.delay delayId d current)
  | .awaitSignal signalId signalName none, _ => ⟨_, rfl⟩
  | .awaitSignal signalId signalName (some secs), h => by
    have hnode : BuilderTask.node current (.awaitSignal signalId signalName (some secs))
        = (fun d => .awaitSignal signalId signalName (some d) current)
          <$> ExceptT.lift (Duration.fromSecsF64 secs) := by
      unfold BuilderTask.node
      cases hsecs : Duration.fromSecsF64 secs <;> simp only [Option.mapM_some, hsecs] <;> rfl
    rw [hnode]
    exact (ends_fromSecsF64 h).map _
  | .fork branches joinId joinMetadata, _ => by
    have hb := ends_liftExcept (buildBranches branches)
    rw [isOk_buildBranches, Bool.not_not] at hb
    exact hb.map _
  | .branch branchId branches default, _ => by
    have hb := ends_liftExcept (buildRoutes branches)
    have hd := ends_liftExcept (default.mapM buildChain)
    rw [isOk_buildRoutes, Bool.not_not] at hb
    rw [isOk_buildDefault, Bool.not_not] at hd
    exact (hb.bind fun routes _ => hd.map fun default =>
      WorkflowContinuation.branch branchId false routes default current).cast (by simp [BuilderTask.exceeds]) rfl
  | .loop loopId bodyTaskId bodyMetadata maxIterations onMax, _ => by
    unfold BuilderTask.node BuilderTask.refused
    by_cases hm : maxIterations = 0
    · simp only [hm, if_true, decide_true]
      exact ⟨_, rfl⟩
    · simp only [hm, if_false, decide_false]
      exact ⟨_, rfl⟩
  | .childWorkflow childId [], _ => ⟨.emptyWorkflow, rfl⟩
  | .childWorkflow childId (task :: tasks), h => by
    have hnode : ∀ child, BuilderTask.chain (task :: tasks) = .ok (.ok child) →
        Building.Ends false false (childNode childId current child) := by
      intro child hchild
      obtain ⟨c, rfl⟩ := exists_of_chain_cons hchild
      exact ⟨_, rfl⟩
    have hchild := (ends_chain (task :: tasks) h).bind hnode
    exact hchild.cast (by simp [BuilderTask.exceeds]) (by simp [BuilderTask.refused])

/-- How a chain of steps is built. -/
theorem ends_chain : (tasks : List BuilderTask) → BuilderTask.validAll tasks →
    Building.Ends (BuilderTask.exceedsAny tasks) (BuilderTask.refusedAny tasks)
      (BuilderTask.chain tasks)
  | [], _ => ⟨none, rfl⟩
  | task :: tasks, h => by
    obtain ⟨htask, htasks⟩ := (Bool.and_eq_true _ _).mp h
    have := (ends_chain tasks htasks).bind fun current _ =>
      (ends_node current task htask).map some
    exact this.cast rfl (Bool.or_comm _ _)

end

namespace FlowBuilder

variable {b : FlowBuilder}

theorem validAll_append (tasks : List BuilderTask) (task : BuilderTask) :
    BuilderTask.validAll (tasks ++ [task]) = (BuilderTask.validAll tasks && task.valid) := by
  induction tasks with
  | nil => simp [BuilderTask.validAll]
  | cons t tasks ih => simp [BuilderTask.validAll, ih, Bool.and_assoc]

theorem validAll_push (h : BuilderTask.validAll b.tasks) {task : BuilderTask} (ht : task.valid) :
    BuilderTask.validAll (b.push task).tasks := by
  unfold push
  rw [validAll_append, h, ht]
  rfl

/-- A builder only holds numbers of seconds that it has accepted. -/
theorem Assembled.validAll (h : Assembled b) : BuilderTask.validAll b.tasks := by
  induction h with
  | new => rfl
  | lambda h ih => exact ih
  | sequential h taskId metadata ih => exact validAll_push ih rfl
  | fork h branches joinId joinMetadata hok ih =>
    unfold addFork at hok
    split at hok
    · cases hok
    · split at hok
      · cases hok
      · cases hok
        exact validAll_push ih rfl
  | delay h delayId secs hok ih =>
    unfold addDelay at hok
    cases hv : validateDuration secs "delay duration" with
    | error e =>
      rw [hv] at hok
      cases hok
    | ok u =>
      rw [hv] at hok
      cases hok
      exact validAll_push ih (validateDuration_ok hv)
  | signal h signalId signalName timeoutSecs hok ih =>
    unfold addSignal at hok
    cases timeoutSecs with
    | none =>
      cases hok
      exact validAll_push ih rfl
    | some secs =>
      cases hv : validateDuration secs "timeout" with
      | error e =>
        simp only [hv] at hok
        cases hok
      | ok u =>
        simp only [hv] at hok
        cases hok
        exact validAll_push ih (validateDuration_ok hv)
  | loop h bodyTaskId bodyMetadata maxIterations onMax loopId hok ih =>
    unfold addLoop at hok
    dsimp only at hok
    split at hok
    · cases hok
    · cases hok
      exact validAll_push ih rfl
  | branch h branches default branchId hok ih =>
    unfold addBranch at hok
    split at hok
    · cases hok
    · split at hok
      · cases hok
      · cases hok
        exact validAll_push ih rfl
  | child h hc childId ih ihc => exact validAll_push ih ihc

/-- **Building a flow panics exactly when it gets to a wait of `2 ^ 64` seconds or more.** -/
theorem Assembled.panics_build (h : Assembled b) :
    Panicking.panics b.build = BuilderTask.exceedsAny b.tasks := by
  have hchain := ends_chain b.tasks h.validAll
  unfold build buildContinuation
  generalize BuilderTask.chain b.tasks = r at hchain ⊢
  unfold Building.Ends at hchain
  split at hchain
  · rename_i he
    obtain ⟨p, rfl⟩ := hchain
    rw [he]
    rfl
  · rename_i he
    rw [Bool.eq_false_iff.mpr he]
    split at hchain
    · obtain ⟨e, rfl⟩ := hchain
      rfl
    · obtain ⟨c, rfl⟩ := hchain
      cases c <;> rfl

end FlowBuilder

/-! ## Waits -/

/-- The point in time that much later is past the end of the calendar. -/
def DateTime.Exceeds (now : DateTime) (duration : Duration) : Prop :=
  maxNanos < now.nanos + duration

namespace DateTime

variable {now : DateTime}

instance (duration : Duration) : Decidable (now.Exceeds duration) :=
  inferInstanceAs (Decidable (_ < _))

theorem panics_add (delta : TimeDelta) :
    Panicking.panics (now.add delta) = !decide (InRange (now.nanos + delta.nanos)) := by
  unfold add
  split
  · rename_i h
    simp [h, Panicking.panics]
  · rename_i h
    simp [h, Panicking.panics]

theorem inRange_add_duration (duration : Duration) :
    InRange (now.nanos + duration) ↔ ¬ now.Exceeds duration := by
  have := now.inRange
  unfold InRange Exceeds at *
  omega

theorem panics_map {α β : Type} (f : α → β) (r : Panicking α) :
    Panicking.panics (f <$> r) = Panicking.panics r := by
  cases r <;> rfl

variable (now) in
/-- A delay that `chrono` can represent and the calendar cannot end panics. A longer
one is reported as an error. -/
theorem panics_computeWakeAt (duration : Duration) :
    Panicking.panics (computeWakeAt duration now) = true
      ↔ TimeDelta.Fits duration ∧ now.Exceeds duration := by
  unfold computeWakeAt TimeDelta.fromStd
  by_cases hle : TimeDelta.Fits duration
  · rw [dif_pos hle]
    dsimp only
    rw [panics_map, panics_add]
    simp only [inRange_add_duration, Bool.not_eq_true', decide_eq_false_iff_not, not_not]
    exact ⟨fun h => ⟨hle, h⟩, And.right⟩
  · rw [dif_neg hle]
    constructor
    · intro h
      cases h
    · intro h
      exact absurd h.1 hle

variable (now) in
theorem panics_computeSignalTimeout (timeout : Option Duration) :
    Panicking.panics (computeSignalTimeout timeout now) = true
      ↔ ∃ d, timeout = some d ∧ TimeDelta.Fits d ∧ now.Exceeds d := by
  cases timeout with
  | none =>
    constructor
    · intro h
      cases h
    · rintro ⟨d, hd, -⟩
      cases hd
  | some d =>
    have hwake := panics_computeWakeAt now d
    unfold computeWakeAt at hwake
    unfold computeSignalTimeout
    rw [Option.bind_some]
    simp only [Option.some.injEq, exists_eq_left']
    rw [← hwake]
    cases TimeDelta.fromStd d with
    | none => exact Iff.rfl
    | some delta =>
      dsimp only
      rw [panics_map, panics_map]

end DateTime

/-! ## Deadlines -/

namespace Deadline

variable {now : DateTime}

variable (now) in
/-- The deadline of a task panics with every timeout that the calendar cannot end. One
that `chrono` cannot represent counts as the longest that it can. -/
theorem panics_setTaskDeadline (timeout : Duration) :
    Panicking.panics (setTaskDeadline timeout now) = true ↔ now.Exceeds timeout := by
  have hstart := now.inRange
  have hpanics : Panicking.panics (setTaskDeadline timeout now)
      = Panicking.panics (now.add ((TimeDelta.fromStd timeout).getD TimeDelta.max)) := by
    unfold setTaskDeadline
    cases now.add ((TimeDelta.fromStd timeout).getD TimeDelta.max) <;> rfl
  rw [hpanics, DateTime.panics_add]
  unfold TimeDelta.fromStd
  by_cases hle : TimeDelta.Fits timeout
  · rw [dif_pos hle, Option.getD_some]
    simp only [DateTime.inRange_add_duration, Bool.not_eq_true', decide_eq_false_iff_not, not_not]
  · rw [dif_neg hle, Option.getD_none]
    -- the longest duration ends after the calendar wherever it begins
    have hlong : ¬ DateTime.InRange (now.nanos + TimeDelta.max.nanos) := by
      unfold DateTime.InRange DateTime.minNanos DateTime.maxNanos at *
      simp only [TimeDelta.max]
      omega
    have hexceeds : now.Exceeds timeout := by
      unfold TimeDelta.Fits at hle
      unfold DateTime.InRange DateTime.minNanos DateTime.maxNanos at hstart
      unfold DateTime.Exceeds DateTime.maxNanos
      omega
    simp [hlong, hexceeds]

/-- A timeout that the calendar can end is the same in milliseconds as a signed word. -/
theorem asSigned_asMillis {timeout : Duration} (h : ¬ now.Exceeds timeout) :
    asSigned 64 (Duration.asMillis timeout % 2 ^ 64) = Duration.asMillis timeout
      ∧ Duration.asMillis timeout ≤ (2 ^ 63 - 1 : Int) := by
  have hstart := now.inRange
  have hlt : (Duration.asMillis timeout : Int) < 2 ^ 63 := by
    unfold DateTime.InRange DateTime.minNanos at hstart
    unfold DateTime.Exceeds DateTime.maxNanos at h
    unfold Duration.asMillis
    omega
  unfold asSigned
  constructor
  · rw [Nat.mod_mod]
    split <;> omega
  · omega

variable (now) in
/-- Once a deadline has been set, computing it again panics when the calendar ends
before the whole milliseconds of the timeout do. -/
theorem panics_refreshTaskDeadline {timeout : Duration} {set : DateTime} {d : Deadline}
    (h : setTaskDeadline timeout set = .ok d) :
    Panicking.panics (refreshTaskDeadline d now) = true
      ↔ now.Exceeds (Duration.fromMillis (Duration.asMillis timeout)) := by
  have hset : ¬ set.Exceeds timeout := by
    rw [← panics_setTaskDeadline, h]
    exact Bool.false_ne_true
  have hms : d.timeoutMs = Duration.asMillis timeout % 2 ^ 64 := by
    unfold setTaskDeadline at h
    cases hadd : set.add ((TimeDelta.fromStd timeout).getD TimeDelta.max) with
    | error p =>
      rw [hadd] at h
      cases h
    | ok deadline =>
      rw [hadd] at h
      cases h
      rfl
  obtain ⟨hsigned, hbound⟩ := asSigned_asMillis hset
  have hdelta : TimeDelta.milliseconds (Duration.asMillis timeout)
      = .ok ⟨Duration.asMillis timeout * 1000000, by omega, by omega⟩ :=
    dif_pos ⟨hbound, by omega⟩
  have hpanics : Panicking.panics (refreshTaskDeadline d now)
      = Panicking.panics (now.add ⟨Duration.asMillis timeout * 1000000, by omega, by omega⟩) := by
    unfold refreshTaskDeadline
    rw [hms, hsigned, hdelta]
    change Panicking.panics (now.add _ >>= _) = _
    cases now.add ⟨Duration.asMillis timeout * 1000000, by omega, by omega⟩ <;> rfl
  rw [hpanics, DateTime.panics_add]
  have hcast : now.nanos + (Duration.asMillis timeout : Int) * 1000000
      = now.nanos + (Duration.fromMillis (Duration.asMillis timeout) : Nat) := by
    unfold Duration.fromMillis
    push_cast
    rfl
  simp only [hcast, DateTime.inRange_add_duration, Bool.not_eq_true', decide_eq_false_iff_not,
    not_not]

end Deadline

/-! ## Retries -/

theorem Float64.asI64_bounds (x : Float64) : -2 ^ 63 ≤ x.asI64 ∧ x.asI64 ≤ 2 ^ 63 - 1 := by
  cases x with
  | finite value =>
    simp only [asI64]
    omega
  | infinite negative => cases negative <;> exact ⟨by decide, by decide⟩
  | nan => exact ⟨by decide, by decide⟩

/-- Adding milliseconds panics exactly when the sum leaves the calendar: the one value
that `chrono` refuses is far before its beginning. -/
theorem DateTime.add_milliseconds_cases (now : DateTime) {ms : Int}
    (hms : -2 ^ 63 ≤ ms ∧ ms ≤ 2 ^ 63 - 1) :
    if InRange (now.nanos + ms * 1000000)
    then ∃ t, (TimeDelta.milliseconds ms >>= now.add) = .ok t
    else ∃ p, (TimeDelta.milliseconds ms >>= now.add) = .error p := by
  have hstart := now.inRange
  unfold TimeDelta.milliseconds
  by_cases hfits : ms ≤ 2 ^ 63 - 1 ∧ -(2 ^ 63 - 1) ≤ ms
  · rw [dif_pos hfits]
    split
    · rename_i hin
      exact ⟨_, dif_pos hin⟩
    · rename_i hout
      exact ⟨_, dif_neg hout⟩
  · have hout : ¬ InRange (now.nanos + ms * 1000000) := by
      unfold InRange minNanos maxNanos at *
      omega
    rw [dif_neg hfits, if_neg hout]
    exact ⟨_, rfl⟩

/-- The pause after the attempt with this number does not end within the calendar. -/
def RetryPolicy.Exceeds (policy : RetryPolicy) (attempts : Nat) (now : DateTime) : Prop :=
  ¬ DateTime.InRange (now.nanos + (policy.backoff attempts).asI64 * 1000000)
  deriving Decidable

namespace RetryPolicy

variable {policy : RetryPolicy} {attempts : Nat} {now : DateTime}

variable (policy attempts now) in
/-- Recording a retry either panics or counts one attempt more. -/
theorem recordRetry_cases (hmax : attempts + 1 < 2 ^ 32) :
    if policy.Exceeds attempts now then ∃ p, policy.recordRetry attempts now = .error p
    else ∃ t, policy.recordRetry attempts now = .ok (attempts + 1, t) := by
  have hadd := now.add_milliseconds_cases (policy.backoff attempts).asI64_bounds
  have hbind : policy.recordRetry attempts now
      = (TimeDelta.milliseconds (policy.backoff attempts).asI64 >>= now.add)
        >>= fun t => pure (attempts + 1, t) := by
    unfold recordRetry
    rw [if_pos hmax, bind_assoc]
  rw [hbind]
  split at hadd
  · rename_i hin
    have hwithin : ¬ policy.Exceeds attempts now := not_not.mpr hin
    rw [if_neg hwithin]
    obtain ⟨t, ht⟩ := hadd
    rw [ht]
    exact ⟨t, rfl⟩
  · rename_i hout
    have hexceeds : policy.Exceeds attempts now := hout
    rw [if_pos hexceeds]
    obtain ⟨p, hp⟩ := hadd
    rw [hp]
    exact ⟨p, rfl⟩

variable (attempts) in
/-- Recording failures panics exactly when one of them is recorded whose pause leaves
the calendar. -/
theorem panics_recordFailures (hmax : policy.maxRetries < 2 ^ 32) (failures : List DateTime) :
    Panicking.panics (policy.recordFailures attempts failures) = true
      ↔ ∃ k now, failures[k]? = some now ∧ attempts + k < max 1 policy.maxRetries
        ∧ policy.Exceeds (attempts + k) now := by
  induction failures generalizing attempts with
  | nil =>
    constructor
    · intro h
      cases h
    · rintro ⟨k, now, hk, -⟩
      cases hk
  | cons now failures ih =>
    unfold recordFailures
    by_cases hdone : 0 < attempts ∧ policy.maxRetries ≤ attempts
    · rw [if_pos hdone]
      constructor
      · intro h
        cases h
      · rintro ⟨k, -, -, hk, -⟩
        omega
    · rw [if_neg hdone]
      have hstep := recordRetry_cases policy attempts now (by omega)
      by_cases hexceeds : policy.Exceeds attempts now
      · rw [if_pos hexceeds] at hstep
        obtain ⟨p, hp⟩ := hstep
        rw [hp]
        constructor
        · intro _
          exact ⟨0, now, rfl, by omega, hexceeds⟩
        · intro _
          rfl
      · rw [if_neg hexceeds] at hstep
        obtain ⟨t, ht⟩ := hstep
        rw [ht]
        refine Iff.trans (ih (attempts + 1)) ?_
        constructor
        · rintro ⟨k, now', hk, hlt, h⟩
          have hadd : attempts + 1 + k = attempts + (k + 1) := by omega
          rw [hadd] at hlt h
          exact ⟨k + 1, now', hk, hlt, h⟩
        · rintro ⟨k, now', hk, hlt, h⟩
          cases k with
          | zero =>
            cases hk
            exact absurd h hexceeds
          | succ k =>
            have hadd : attempts + (k + 1) = attempts + 1 + k := by omega
            rw [hadd] at hlt h
            exact ⟨k, now', hk, hlt, h⟩

end RetryPolicy

/-! ## All of them -/

/-- Where an accepted duration is computed with. -/
inductive DurationUse where
  /-- A binding builds its flow. -/
  | build (b : FlowBuilder)
  /-- A delay is entered. -/
  | delay (duration : Duration) (now : DateTime)
  /-- A signal wait is entered. -/
  | signal (timeout : Option Duration) (now : DateTime)
  /-- The deadline of a task is set, and computed again before it is called. -/
  | deadline (timeout : Duration) (set refresh : DateTime)
  /-- A task fails at these times. -/
  | retries (policy : RetryPolicy) (failures : List DateTime)

namespace DurationUse

/-- What the builders accept: any flow whose calls were accepted, any duration and any
policy with a 32 bit number of retries. -/
def Accepted : DurationUse → Prop
  | build b => b.Assembled
  | retries policy _ => policy.maxRetries < 2 ^ 32
  | delay .. | signal .. | deadline .. => True

def panics : DurationUse → Bool
  | build b => Panicking.panics b.build
  | delay duration now => Panicking.panics (now.computeWakeAt duration)
  | signal timeout now => Panicking.panics (now.computeSignalTimeout timeout)
  | deadline timeout set refresh => Panicking.panics (do
      let d ← Deadline.setTaskDeadline timeout set
      d.refreshTaskDeadline refresh)
  | retries policy failures => Panicking.panics (policy.recordFailures 0 failures)

/-- The value leaves the range of what it is converted to. -/
def Exceeds : DurationUse → Prop
  | build b => BuilderTask.exceedsAny b.tasks
  | delay duration now => TimeDelta.Fits duration ∧ now.Exceeds duration
  | signal timeout now => ∃ d, timeout = some d ∧ TimeDelta.Fits d ∧ now.Exceeds d
  | deadline timeout set refresh => set.Exceeds timeout
      ∨ refresh.Exceeds (Duration.fromMillis (Duration.asMillis timeout))
  | retries policy failures => ∃ k now, failures[k]? = some now ∧ k < max 1 policy.maxRetries
      ∧ policy.Exceeds k now

end DurationUse

/-- The beginning of the year 1970. -/
def DateTime.epoch : DateTime := ⟨0, by decide⟩

/-- One delay of `2 ^ 64` seconds. -/
def longDelay : FlowBuilder := FlowBuilder.new.push (.delay "d" (.finite (2 ^ 64)))

theorem assembled_longDelay : longDelay.Assembled :=
  .delay .new "d" (.finite (2 ^ 64)) rfl

theorem exceeds_longDelay : BuilderTask.exceedsAny longDelay.tasks := by decide +kernel

end Sayiir
