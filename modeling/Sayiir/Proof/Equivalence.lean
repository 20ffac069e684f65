import Sayiir.Proof.Computes
import Sayiir.Runtime.Sync

/-!
# The sync executor and the callback executor agree

The callback executor remembers the output of every node under the node's id and
looks there before it does anything. On a tree without waits, and from a snapshot
that remembers nothing about the tree, it computes what `executeContinuationSync`
computes.

The invariant is `Quiet A B`: for the ids in `A`, those of the nodes still to come,
neither the snapshot in hand nor the stored one has a result, and for the ids in
`B` neither counts loop iterations. A loop puts its body back into `A` by
forgetting the results of the body; that the ids of a tree are distinct keeps the
nodes that have run out of `A`.
-/

namespace Sayiir

open Exec WorkflowSnapshot

variable {input output : Bytes} {ref : Except RuntimeError Bytes} {results : List (String × Bytes)}
  {ids : List TaskId} {branches : List WorkflowContinuation} {e : RuntimeError} {id : String}
  {fields : TaskFields} {α : Type} {s : WorkflowSnapshot}

section agreement

variable [Sha256] {cb : Callbacks} {A A' B : TaskId → Prop}

/-- The instance is running, nothing is remembered of the ids in `A`, no loop of `B`
is under way, and no deadline is set. -/
structure Blank (A B : TaskId → Prop) (s : WorkflowSnapshot) : Prop where
  running : s.isInProgress
  unrecorded : ∀ t, A t → s.getTaskResult t = none
  notLooping : ∀ t, B t → s.loopIteration t = 0
  noDeadline : s.taskDeadline = none

/-- Both the snapshot in hand and the stored one are blank. -/
abbrev Quiet (A B : TaskId → Prop) : WorkflowSnapshot → World → Prop :=
  Calm (Blank A B) (Blank A B)

namespace Blank

variable {s : WorkflowSnapshot}

omit [Sha256] in
theorem mono {B' : TaskId → Prop} (h : Blank A B s) (hA : ∀ t, A' t → A t)
    (hB : ∀ t, B' t → B t) : Blank A' B' s :=
  ⟨h.running, fun t ht => h.unrecorded t (hA t ht), fun t ht => h.notLooping t (hB t ht), h.noDeadline⟩

omit [Sha256] in
/-- A result outside of `A` may be recorded. -/
theorem mark {taskId : TaskId} (h : Blank A B s) (hid : ¬ A taskId) (output : Bytes) :
    Blank A B (s.markTaskCompleted taskId output) := by
  refine ⟨by simpa using h.running, fun t ht => ?_, fun t ht => ?_, ?_⟩
  · rw [getTaskResult_markTaskCompleted, if_neg]
    · exact h.unrecorded t ht
    · rintro ⟨-, rfl⟩
      exact hid ht
  · rw [loopIteration_markTaskCompleted]
    exact h.notLooping t ht
  · rw [taskDeadline_markTaskCompleted]
    exact h.noDeadline

omit [Sha256] in
theorem updatePosition (h : Blank A B s) (position : ExecutionPosition) :
    Blank A B (s.updatePosition position) :=
  ⟨by simpa using h.running, by simpa using h.unrecorded, by simpa using h.notLooping, by simpa using h.noDeadline⟩

omit [Sha256] in
/-- The counter of a running loop is not zero. -/
theorem setLoopIteration (h : Blank A B s) (loopId : TaskId) (iteration : Nat) :
    Blank A (fun t => B t ∧ t ≠ loopId) (s.setLoopIteration loopId iteration) := by
  refine ⟨h.running, h.unrecorded, fun t ht => ?_, h.noDeadline⟩
  rw [loopIteration_setLoopIteration, if_neg ht.2]
  exact h.notLooping t ht.1

omit [Sha256] in
theorem clearLoopIteration {loopId : TaskId} (h : Blank A (fun t => B t ∧ t ≠ loopId) s) :
    Blank A B (s.clearLoopIteration loopId) := by
  refine ⟨h.running, h.unrecorded, fun t ht => ?_, h.noDeadline⟩
  rw [loopIteration_clearLoopIteration]
  split
  · rfl
  · exact h.notLooping t ⟨ht, ‹_›⟩

/-- A loop that forgets its body may run it again. -/
theorem clearBodyTasks (h : Blank A B s) (body : WorkflowContinuation) :
    Blank (fun t => A t ∨ t ∈ body.ids) B (clearBodyTasks body s) := by
  unfold Sayiir.clearBodyTasks
  generalize body.ids = ids
  induction ids generalizing s A with
  | nil => exact h.mono (by simp) fun _ ht => ht
  | cons id ids ih =>
    have hremove : Blank (fun t => A t ∨ t = id) B (s.removeTaskResult id) := by
      refine ⟨by simpa using h.running, fun t ht => ?_, by simpa using h.notLooping,
        by simpa using h.noDeadline⟩
      rw [getTaskResult_removeTaskResult]
      split
      · rfl
      · rename_i hne
        rcases ht with ht | rfl
        · exact h.unrecorded t ht
        · exact absurd ⟨h.running, rfl⟩ hne
    exact (ih hremove).mono (by simp only [List.mem_cons]; tauto) fun _ ht => ht

end Blank

omit [Sha256] in
theorem Quiet.mono {w : World} {B' : TaskId → Prop} (h : Quiet A B s w)
    (hA : ∀ t, A' t → A t) (hB : ∀ t, B' t → B t) : Quiet A' B' s w :=
  Calm.mono h (fun _ hs => hs.mono hA hB) fun _ hs => hs.mono hA hB

/-! ## Tasks -/

/-- Like `Computes`, for an attempt that may be repeated: a failure changes nothing. -/
def Attempts (cb : Callbacks) (P Q : WorkflowSnapshot → World → Prop) (m : Exec Bytes)
    (ref : Except RuntimeError Bytes) : Prop :=
  ∀ s w, P s w → Meets cb Idle (fun _ _ => True) m s w fun r s' w' =>
    Ends ref Q r s' w' ∧ ∀ e, r = .error e → P s' w'

omit [Sha256] in
theorem expiredTaskDeadline_none (h : s.taskDeadline = none) :
    expiredTaskDeadline s = .pure (.ok none, s) := by
  obtain ⟨_, _, _, _, _, _, _, _, _, _⟩ := s
  cases h
  rfl

omit [Sha256] in
theorem refreshTaskDeadline_none (h : s.taskDeadline = none) :
    refreshTaskDeadline s = .pure (.ok (), s) := by
  obtain ⟨_, _, _, _, _, _, _, _, _, _⟩ := s
  cases h
  rfl

omit [Sha256] in
/-- A user function is called and its outcome handed on. -/
theorem meets_executeTask_quiet {w : World} (h : Quiet A B s w) :
    Meets cb Idle (fun _ _ => True) (executeTask id input) s w fun r s' w' =>
      r = (cb.execute id input).mapError .ofBoxError ∧ s' = s ∧ Quiet A B s w' :=
  meets_executeTask (performs_silent h (fun _ => ⟨rfl, rfl, rfl⟩) fun _ _ hw => ⟨rfl, rfl, hw⟩)

omit [Sha256] in
/-- An attempt that calls the user function and goes on with its output. -/
theorem attempts_of_executeTask {f : Bytes → Exec Bytes}
    (hf : ∀ output, Computes cb (Quiet A B) (Quiet A' B) (f output) (.ok output)) :
    Attempts cb (Quiet A B) (Quiet A' B) (executeTask id input >>= f)
      ((cb.execute id input).mapError .ofBoxError) := by
  intro s w h
  refine (meets_executeTask_quiet h).bind_of (fun output s' w' hr => ?_) fun e s' w' hr => ?_
  · obtain ⟨hok, rfl, hquiet⟩ := hr
    rw [← hok]
    refine (hf output s' w' hquiet).mono fun r s'' w'' hr => ⟨hr, ?_⟩
    rintro e rfl
    exact hr.elim
  · obtain ⟨herr, rfl, hquiet⟩ := hr
    rw [← herr]
    refine ⟨?_, fun _ _ => hquiet⟩
    cases hx : cb.execute id input with
    | ok output => simp [hx, Except.mapError] at herr
    | error e' =>
      simp only [hx, Except.mapError, Except.error.injEq] at herr
      subst herr
      cases e' <;> exact fun _ => by simp [RuntimeError.ofBoxError]

omit [Sha256] in
theorem runTask_none (h : s.taskDeadline = none) (id : String)
    (input : Bytes) : runTask id input s = executeTask id input s := by
  obtain ⟨_, _, _, _, _, _, _, _, _, _⟩ := s
  cases h
  rfl

/-- Without a record and without a deadline, a task is simply called and recorded. -/
theorem executeOrSkipTask_eq
    (hnone : s.getTaskResultBytes (TaskId.sha256 id) = none) (hdeadline : s.taskDeadline = none) :
    executeOrSkipTask id input s = (executeTask id input >>= fun output => do
      modify fun s => s.clearTaskDeadline.markTaskCompleted (TaskId.sha256 id) output
      pure output) s := by
  dsimp only [executeOrSkipTask, Bind.bind, Exec.bind, Exec.get, Prog.bind, andThen]
  rw [hnone]
  change (expiredTaskDeadline s).bind _ = _
  rw [expiredTaskDeadline_none hdeadline]
  change (refreshTaskDeadline s).bind _ = _
  rw [refreshTaskDeadline_none hdeadline]
  change (runTask id input s).bind _ = _
  rw [runTask_none hdeadline]

section task

variable {id : String} {input : Bytes} (hid : A (TaskId.sha256 id))
  (hA : ∀ t, A' t → A t ∧ t ≠ TaskId.sha256 id)
include hid hA

theorem attempts_executeOrSkipTask :
    Attempts cb (Quiet A B) (Quiet A' B) (executeOrSkipTask id input)
      ((cb.execute id input).mapError .ofBoxError) := by
  intro s w h
  have hnone : s.getTaskResultBytes (TaskId.sha256 id) = none :=
    getTaskResultBytes_eq_none_iff.mpr (h.hand.unrecorded _ hid)
  unfold Meets
  rw [executeOrSkipTask_eq hnone h.hand.noDeadline]
  refine attempts_of_executeTask (fun output => ?_) s w h
  have hmark : ∀ s, Blank A B s →
      Blank A' B (s.clearTaskDeadline.markTaskCompleted (TaskId.sha256 id) output) := by
    intro s hs
    have hclear : Blank A' B s.clearTaskDeadline :=
      ⟨hs.running, fun t ht => hs.unrecorded t (hA t ht).1, hs.notLooping, rfl⟩
    exact hclear.mark (fun h => (hA _ h).2 rfl) output
  refine (computes_modify hmark).seq (computes_pure.mono (fun _ _ h => h) fun _ _ h => ?_)
  exact h.mono (fun _ hs => hs) fun _ hs => hs.mono (fun t ht => (hA t ht).1) fun _ ht => ht

theorem attempts_branchExecuteOrSkipTask :
    Attempts cb (Quiet A B) (Quiet A' B) (branchExecuteOrSkipTask id input none)
      ((cb.execute id input).mapError .ofBoxError) := by
  intro s w h
  have hnone : s.getTaskResultBytes (TaskId.sha256 id) = none :=
    getTaskResultBytes_eq_none_iff.mpr (h.hand.unrecorded _ hid)
  refine meets_get_bind.mpr ?_
  rw [hnone]
  refine attempts_of_executeTask (fun output => ?_) s w h
  have hstore : ∀ t, Blank A B t → Blank A' B (t.markTaskCompleted (TaskId.sha256 id) output) :=
    fun t ht => (ht.mono (fun t ht => (hA t ht).1) fun _ hB => hB).mark
      (fun h => (hA _ h).2 rfl) output
  intro s w h
  unfold Meets
  change Prog.Valid _ _ _ _ ((expiredTaskDeadline s).bind _) w
  rw [expiredTaskDeadline_none h.hand.noDeadline]
  have hclear : ∀ s, Blank A B s → Blank A B s.clearTaskDeadline := fun s hs =>
    ⟨hs.running, hs.unrecorded, hs.notLooping, rfl⟩
  have hdone : Computes cb (Calm (Blank A B) (Blank A' B)) (Quiet A' B) (pure output)
      (.ok output) := computes_pure.mono (fun _ _ h => h) fun _ _ h =>
    h.mono (fun _ hs => hs.mono (fun t ht => (hA t ht).1) fun _ ht => ht) fun _ hs => hs
  exact ((computes_modify hclear).seq (f := fun _ => saveTaskResult (TaskId.sha256 id) output >>=
    fun _ => pure output) ((computes_saveTaskResult hstore).seq hdone)) s w h

end task

theorem computes_setDeadlineIfNeeded (id : String) :
    Computes cb (Quiet A B) (Quiet A B) (setDeadlineIfNeeded id none) (.ok ()) := by
  refine computes_get_bind fun s _ => ?_
  split
  · contradiction
  · exact computes_pure

theorem computes_prepareRetry (id : String) (policy : RetryPolicy) (save : Bool)
    (e : RuntimeError) :
    Computes cb (Quiet A B) (Quiet A B) (prepareRetry id policy none save e) (.ok ()) := by
  refine computes_utcNow_bind fun now s w h => ?_
  -- the retry state is computed from the snapshot that is replaced
  have hnext : Quiet A B (s.recordRetry (TaskId.sha256 id) policy e none now).2.clearTaskDeadline w :=
    ⟨⟨h.hand.running, h.hand.unrecorded, h.hand.notLooping, rfl⟩, h.stored, h.noCancel, h.noPause⟩
  exact ((computes_when computes_saveSnapshot).seq ((computes_sleepUntil _).seq
    (computes_when (computes_setDeadlineIfNeeded id)))) _ w hnext

/-- Attempts repeat until one succeeds; with a deterministic function that is the
first one or none. -/
theorem computes_retryLoop (id : String) (policy : Option RetryPolicy) (save : Bool)
    {execute : Exec Bytes} (hx : Attempts cb (Quiet A B) (Quiet A' B) execute ref) (bound : Nat) :
    Computes cb (Quiet A B) (Quiet A' B) (retryLoop id policy none save execute bound) ref := by
  have hattempt : ∀ onError : RuntimeError → Exec Bytes,
      (∀ e, Fatal e → ref.isOk = false → Computes cb (Quiet A B) (Quiet A' B) (onError e) ref) →
      Computes cb (Quiet A B) (Quiet A' B) (attemptTask id execute onError) ref := by
    intro onError he s w h
    refine (meets_attempt (Q := fun r s' w' => ∃ r', r = .ok r' ∧ Ends ref (Quiet A' B) r' s' w'
      ∧ ∀ e, r' = .error e → Quiet A B s' w') ((hx s w h).mono fun r s' w' hr =>
        ⟨r, rfl, hr⟩)).bind_of (fun r s' w' hr => ?_) ?_
    · obtain ⟨_, ⟨⟩, hend, hkeep⟩ := hr
      cases r with
      | ok output =>
        cases ref with
        | error e => exact hend.elim
        | ok output' =>
          obtain ⟨rfl, hquiet⟩ := hend
          have hclear : ∀ s, Blank A' B s → Blank A' B (s.clearRetryState (TaskId.sha256 id)) :=
            fun s hs => ⟨hs.running, hs.unrecorded, hs.notLooping, hs.noDeadline⟩
          exact (computes_modify hclear).seq (f := fun _ => pure output) computes_pure s' w' hquiet
      | error e =>
        cases ref with
        | ok output => exact hend.elim
        | error e' => exact he e hend rfl s' w' (hkeep e rfl)
    · rintro e s' w' ⟨_, ⟨⟩, _⟩
  have hthrow : ∀ e, Fatal e → ref.isOk = false →
      Computes cb (Quiet A B) (Quiet A' B) (throw e : Exec Bytes) ref := by
    intro e he href
    cases ref with
    | ok output => cases href
    | error e' => exact computes_throw he
  induction bound with
  | zero => exact hattempt throw hthrow
  | succ bound ih =>
    refine hattempt _ fun e he href => computes_get_bind fun s _ => ?_
    cases policy with
    | none => exact hthrow e he href
    | some rp =>
      dsimp only
      split
      · exact hthrow e he href
      · exact (computes_prepareRetry id rp save e).seq ih

omit [Sha256] in
theorem computes_advanceTo {T : WorkflowSnapshot → Prop} (next : Option TaskHint) :
    Computes cb (Calm (Blank A B) T) (Calm (Blank A B) T) (advanceTo next) (.ok ()) := by
  unfold advanceTo
  split
  · exact computes_pure
  · rename_i hint
    refine computes_modify fun s hs => ?_
    have hmoved := hs.updatePosition (.atTask hint.id)
    exact ⟨hmoved.running, hmoved.unrecorded, hmoved.notLooping, hmoved.noDeadline⟩

/-- A task of the main path computes the task function. -/
theorem computes_executeTaskStep (htimeout : fields.timeout = none) (hid : A (TaskId.sha256 id))
    (hA : ∀ t, A' t → A t ∧ t ≠ TaskId.sha256 id) (next : Option TaskHint) :
    Computes cb (Quiet A B) (Quiet A' B) (executeTaskStep id fields next input)
      ((cb.execute id input).mapError .ofBoxError) := by
  unfold executeTaskStep
  rw [htimeout]
  refine (computes_checkGuards _).seq ((computes_setDeadlineIfNeeded id).seq
    ((computes_retryLoop id _ true (attempts_executeOrSkipTask hid hA) _).tail fun output => ?_))
  exact (computes_advanceTo next).seq (computes_saveSnapshot.seq
    ((computes_checkGuards none).seq computes_pure))

/-! ## Forks -/

/-- Executing the ids in `ids` by `exec` computes `ref`: it needs them blank, and
leaves blank what else was. -/
def Covers (cb : Callbacks) (B : TaskId → Prop) (ids : List TaskId) {α : Type} (m : Exec α)
    (ref : Except RuntimeError α) : Prop :=
  ∀ A A' : TaskId → Prop, (∀ t ∈ ids, A t) → (∀ t, A' t → A t ∧ t ∉ ids) →
    Computes cb (Quiet A B) (Quiet A' B) m ref

omit [Sha256] in
/-- What comes first leaves blank what comes next. -/
theorem Covers.bind {β : Type} {ids' : List TaskId} {m : Exec α} {f : α → Exec β}
    {ref : Except RuntimeError α} {g : α → Except RuntimeError β} (hm : Covers cb B ids m ref)
    (hf : ∀ a, Covers cb B ids' (f a) (g a)) (hdisj : List.Disjoint ids ids') :
    Covers cb B (ids ++ ids') (m >>= f) (ref >>= g) := by
  intro A A' hA hA'
  simp only [List.mem_append] at hA hA'
  refine (hm A (fun t => A t ∧ t ∉ ids) (fun t ht => hA t (Or.inl ht)) fun t ht => ht).bind
    fun a _ => hf a _ A' (fun t ht => ⟨hA t (Or.inr ht), fun h => hdisj h ht⟩) fun t ht => ?_
  obtain ⟨h, hn⟩ := hA' t ht
  exact ⟨⟨h, fun h' => hn (Or.inl h')⟩, fun h' => hn (Or.inr h')⟩

omit [Sha256] in
theorem covers_pure (a : α) : Covers cb B [] (pure a) (.ok a) :=
  fun _ _ _ hA' => computes_pure.mono (fun _ _ h => Quiet.mono h (fun t ht => (hA' t ht).1) fun _ h => h)
    fun _ _ h => h

omit [Sha256] in
/-- A value may be handed on at the end. -/
theorem Covers.andPure {m : Exec Unit}
    (h : Covers cb B ids m (.ok ())) (a : α) : Covers cb B ids (m >>= fun _ => pure a) (.ok a) :=
  fun A A' hA hA' => (h A A' hA hA').seq computes_pure

omit [Sha256] in
/-- A first part that covers nothing. -/
theorem Covers.before {β : Type} {m : Exec Unit} {f : Unit → Exec β}
    {ref : Except RuntimeError β} (hf : Covers cb B ids (f ()) ref) (hm : Covers cb B [] m (.ok ())) :
    Covers cb B ids (m >>= f) ref :=
  fun A A' hA hA' => (hm A A (by simp) (by simp)).seq (hf A A' hA hA')

omit [Sha256] in
/-- More ids may be asked for than are needed. -/
theorem Covers.weaken {ids' : List TaskId} {m : Exec α}
    {ref : Except RuntimeError α} (h : Covers cb B ids m ref) (hsub : ∀ t ∈ ids, t ∈ ids') :
    Covers cb B ids' m ref :=
  fun A A' hA hA' => h A A' (fun t ht => hA t (hsub t ht)) fun t ht =>
    ⟨(hA' t ht).1, fun hmem => (hA' t ht).2 (hsub t hmem)⟩

omit [Sha256] in
/-- A branch that covers its ids on its own copy covers them for its caller. -/
theorem Covers.lift {m : Exec Bytes}
    (h : Covers cb B ids m ref) : Covers cb B ids (liftExcept (onLoadedSnapshot m)) ref :=
  fun A A' hA hA' => (computes_liftExcept (h A A' hA hA')).mono (fun _ _ h => h) fun _ _ h =>
    h.mono (fun _ hs => hs.mono (fun t ht => (hA' t ht).1) fun _ h => h) fun _ hs => hs

section forks

variable {codec : EnvelopeCodec} {input : Bytes}

open WorkflowContinuation

/-- The branches of a nested fork, one after the other. -/
theorem covers_executeNestedBranches
    (hb : ∀ b ∈ branches, Covers cb B b.ids (branchChain .callback codec b input)
      (executeContinuationSync codec cb b input)) (hnodup : (idsBranches branches).Nodup) :
    Covers cb B (idsBranches branches)
      (executeNestedBranches (branchRuns .callback codec branches input))
      (syncBranches codec cb branches input) := by
  induction branches with
  | nil => exact covers_pure []
  | cons b bs ih =>
    rw [idsBranches_cons] at hnodup ⊢
    obtain ⟨-, hnodup', hdisj⟩ := List.nodup_append'.mp hnodup
    have hrest := ih (fun c hc => hb c (List.mem_cons_of_mem _ hc)) hnodup'
    refine (hb b List.mem_cons_self).lift.bind (fun output => ?_) hdisj
    have h := hrest.bind (fun results => covers_pure ((b.id, output) :: results))
      (List.disjoint_nil_right _)
    rwa [List.append_nil] at h

theorem syncBranches_cons_ok {b : WorkflowContinuation} {bs : List WorkflowContinuation}
    (h : executeContinuationSync codec cb b input = .ok output) :
    syncBranches codec cb (b :: bs) input
      = (syncBranches codec cb bs input).map fun results => (b.id, output) :: results := by
  rw [syncBranches, h]
  cases syncBranches codec cb bs input <;> rfl

theorem syncBranches_cons_error {b : WorkflowContinuation} {bs : List WorkflowContinuation}
    (h : executeContinuationSync codec cb b input = .error e) :
    syncBranches codec cb (b :: bs) input = .error e := by
  rw [syncBranches, h]
  rfl

/-- What the sync executor hands to a join is named after the branches. -/
theorem syncBranches_names (h : syncBranches codec cb branches input = .ok results) :
    results.map Prod.fst = branches.map WorkflowContinuation.id := by
  induction branches generalizing results with
  | nil =>
    cases h
    rfl
  | cons b bs ih =>
    cases hb : executeContinuationSync codec cb b input with
    | error e =>
      rw [syncBranches_cons_error hb] at h
      cases h
    | ok output =>
      rw [syncBranches_cons_ok hb] at h
      cases hbs : syncBranches codec cb bs input with
      | error e =>
        rw [hbs] at h
        cases h
      | ok rest =>
        rw [hbs] at h
        cases h
        simp [ih hbs]

/-- A branch that has succeeded is recorded under its name, here and in the store. -/
theorem computes_recordBranchOutput {name : String}
    (hA : ∀ t, A' t → A t ∧ t ≠ TaskId.sha256 name) :
    Computes cb (Calm (Blank A B) (Blank A' B)) (Quiet A' B)
      (recordBranchOutput name (.ok output)) (.ok ()) := by
  have hname : ¬ A' (TaskId.sha256 name) := fun h => (hA _ h).2 rfl
  have hhand : ∀ s, Blank A B s → Blank A' B (s.markTaskCompleted (TaskId.sha256 name) output) :=
    fun s hs => (hs.mono (fun t ht => (hA t ht).1) fun _ h => h).mark hname output
  exact (computes_modify hhand).seq (computes_saveTaskResult fun t ht => ht.mark hname output)

/-- The branches of a fork on the main path, one after the other. -/
theorem covers_executeForkBranchesSequential
    (hb : ∀ b ∈ branches, Covers cb B b.ids (branchChain .callback codec b input)
      (executeContinuationSync codec cb b input)) (hnodup : (idsBranches branches).Nodup)
    (results : List (String × Bytes)) :
    Covers cb B (idsBranches branches) (executeForkBranchesSequential
        (branchRuns .callback codec branches input) ⟨results, none⟩)
      ((syncBranches codec cb branches input).map fun rs => ⟨results ++ rs, none⟩) := by
  induction branches generalizing results with
  | nil =>
    have h : Covers cb B [] (pure ⟨results, none⟩)
        (.ok (⟨results ++ [], none⟩ : ForkBranchOutcome)) := by
      rw [List.append_nil]
      exact covers_pure _
    exact h
  | cons b bs ih =>
    rw [idsBranches_cons] at hnodup ⊢
    obtain ⟨-, hnodup', hdisj⟩ := List.nodup_append'.mp hnodup
    have hrest := ih (fun c hc => hb c (List.mem_cons_of_mem _ hc)) hnodup'
    intro A A' hA hA' s w h
    simp only [List.mem_append] at hA hA'
    have hnone : s.getTaskResultBytes (TaskId.sha256 b.id) = none :=
      getTaskResultBytes_eq_none_iff.mpr
        (h.hand.unrecorded _ (hA _ (Or.inl b.sha256_mem_ids)))
    refine meets_get_bind.mpr ?_
    rw [hnone]
    -- the branch leaves the ids of the remaining ones blank
    have hbranch := hb b List.mem_cons_self A (fun t => A t ∧ t ∉ b.ids)
      (fun t ht => hA t (Or.inl ht)) fun _ ht => ht
    have hrun : Meets cb Idle (fun _ _ => True)
        (lift (onLoadedSnapshot (branchChain .callback codec b input))) s w
        fun r s' w' => ∃ r', r = .ok r' ∧ Ends (executeContinuationSync codec cb b input)
          (Calm (Blank A B) (Blank (fun t => A t ∧ t ∉ b.ids) B)) r' s' w' :=
      meets_lift ((computes_onLoadedSnapshot hbranch h fun _ hw => hw).post_mono
        fun r w' hr => ⟨r, rfl, hr⟩)
    refine hrun.bind_of (fun r s' w' hr => ?_) (by rintro e s' w' ⟨_, ⟨⟩, _⟩)
    obtain ⟨_, ⟨⟩, hend⟩ := hr
    cases hsync : executeContinuationSync codec cb b input with
    | error e =>
      rw [syncBranches_cons_error hsync]
      rw [hsync] at hend
      cases r with
      | ok output => exact hend.elim
      | error e' =>
        have hadd : (⟨results, none⟩ : ForkBranchOutcome).add b.id (.error e') = .error e' := by
          unfold ForkBranchOutcome.add
          split
          · contradiction
          · rename_i hw
            cases hw
            exact absurd rfl (hend _)
          · rename_i he
            cases he
            rfl
        refine meets_pure_bind.mpr ?_
        rw [hadd]
        exact meets_ofExcept_error_bind.mpr (meets_throw fun _ _ => hend)
    | ok output =>
      rw [hsync] at hend
      cases r with
      | error e => exact hend.elim
      | ok output' =>
        obtain ⟨rfl, hcalm⟩ := hend
        have hnext := hrest (results ++ [(b.id, output')]) (fun t => A t ∧ t ∉ b.ids) A'
          (fun t ht => ⟨hA t (Or.inr ht), fun h => hdisj h ht⟩) fun t ht =>
            ⟨⟨(hA' t ht).1, fun h => (hA' t ht).2 (Or.inl h)⟩,
              fun h => (hA' t ht).2 (Or.inr h)⟩
        have href : (syncBranches codec cb (b :: bs) input).map
              (fun rs => (⟨results ++ rs, none⟩ : ForkBranchOutcome))
            = (syncBranches codec cb bs input).map
              fun rs => ⟨results ++ [(b.id, output')] ++ rs, none⟩ := by
          rw [syncBranches_cons_ok hsync]
          cases syncBranches codec cb bs input <;> simp [Except.map]
        rw [href]
        exact (computes_recordBranchOutput fun t ht =>
          ⟨ht.1, fun heq => ht.2 (heq ▸ b.sha256_mem_ids)⟩).seq hnext s' w' hcalm

theorem Blank.markResults (h : Blank A B s) (hA : ∀ r ∈ results, ¬ A (TaskId.sha256 r.1)) :
    Blank A B (markResults results s) := by
  unfold Sayiir.markResults
  induction results generalizing s with
  | nil => exact h
  | cons r results ih =>
    exact ih (h.mark (hA r List.mem_cons_self) r.2) fun r hr => hA r (List.mem_cons_of_mem _ hr)

/-- Settling a fork whose branches have all succeeded hands on their results. -/
theorem computes_settleForkOutcome
    (hA : ∀ r ∈ results, ¬ A (TaskId.sha256 r.1)) (join : Option WorkflowContinuation) :
    Computes cb (Quiet A B) (Quiet A B) (settleForkOutcome id ⟨results, none⟩ join)
      (.ok results) := by
  have hmove : ∀ s, Blank A B s → Blank A B (moveToJoin results join (markResults results s)) := by
    intro s hs
    unfold moveToJoin
    split
    · exact hs.markResults hA
    · exact (hs.markResults hA).updatePosition _
  have hsave : Computes cb (Quiet A B) (Quiet A B) (saveJoinPosition results join) (.ok ()) :=
    (computes_modify hmove).seq computes_saveSnapshot
  exact (computes_checkGuards none).seq (hsave.seq computes_pure)

/-- A fork on the main path that nothing is recorded of runs its branches. -/
theorem covers_mainFork
    (hb : ∀ b ∈ branches, Covers cb B b.ids (branchChain .callback codec b input)
      (executeContinuationSync codec cb b input)) (hnodup : (idsBranches branches).Nodup)
    (join : Option WorkflowContinuation) :
    Covers cb B (idsBranches branches)
      (mainFork .callback id (branchRuns .callback codec branches input) join)
      (syncBranches codec cb branches input) := by
  intro A A' hA hA'
  refine (computes_checkGuards none).seq (computes_get_bind fun s hs => ?_)
  cases branches with
  | nil => exact covers_pure [] A A' hA hA'
  | cons b bs =>
    have hnone : collectCachedBranches
        ((branchRuns .callback codec (b :: bs) input).map Prod.fst) s = none := by
      have hfirst : s.getTaskResultBytes (TaskId.sha256 b.id) = none :=
        getTaskResultBytes_eq_none_iff.mpr (hs.unrecorded _ (hA _ (by
          rw [idsBranches_cons]
          exact List.mem_append_left _ b.sha256_mem_ids)))
      simp [collectCachedBranches, branchRuns, List.mapM_cons, hfirst]
    rw [hnone]
    have hrun := covers_executeForkBranchesSequential hb hnodup [] A A' hA hA'
    cases hsync : syncBranches codec cb (b :: bs) input with
    | error e =>
      rw [hsync] at hrun
      exact hrun.bind (g := fun _ => .error e) fun _ h => by cases h
    | ok results =>
      rw [hsync] at hrun
      refine hrun.bind (g := fun _ => .ok results) fun o ho => ?_
      cases ho
      refine computes_settleForkOutcome (fun r hr hmem => ?_) join
      have hname : r.1 ∈ (b :: bs).map WorkflowContinuation.id := by
        rw [← syncBranches_names hsync]
        exact List.mem_map_of_mem hr
      obtain ⟨c, hc, hcid⟩ := List.mem_map.mp hname
      refine (hA' _ hmem).2 (mem_idsBranches hc ?_)
      rw [← hcid]
      exact c.sha256_mem_ids

omit [Sha256] in
theorem fatal_resolveJoin {join : Option WorkflowContinuation}
    (h : resolveJoin codec join results = .error e) : Fatal e := by
  unfold resolveJoin at h
  split at h
  · split at h <;> cases h
    rename_i e' _
    cases e' <;> exact fun _ => by simp [RuntimeError.ofBoxError]
  · split at h <;> cases h
    exact fun _ => by simp

end forks

/-! ## Routes, children and loops -/

section nodes

variable {codec : EnvelopeCodec} {input : Bytes} {id : String}

open WorkflowContinuation

omit [Sha256] in
theorem covers_ofExcept {r : Except RuntimeError α} (hr : ∀ e, r = .error e → Fatal e) :
    Covers cb B [] (ofExcept r) r :=
  fun _ _ _ hA' => (computes_ofExcept hr).mono
    (fun _ _ h => Quiet.mono h (fun t ht => (hA' t ht).1) fun _ h => h) fun _ _ h => h

/-- A node whose id is covered is not recorded yet. -/
theorem Covers.skipIfRecorded {compute : Exec Bytes} (h : Covers cb B ids compute ref) (id : String)
    (hid : TaskId.sha256 id ∈ ids) : Covers cb B ids (skipIfRecorded id compute) ref := by
  intro A A' hA hA'
  refine computes_get_bind fun s hs => ?_
  rw [getTaskResultBytes_eq_none_iff.mpr (hs.unrecorded _ (hA _ hid))]
  exact h A A' hA hA'

theorem covers_recordAndSave (output : Bytes) :
    Covers cb B [TaskId.sha256 id] (recordAndSave id output) (.ok ()) := by
  intro A A' _ hA'
  have hmark : ∀ s, Blank A B s → Blank A' B (s.markTaskCompleted (TaskId.sha256 id) output) :=
    fun s hs => (hs.mono (fun t ht => (hA' t ht).1) fun _ h => h).mark
      (fun h => (hA' _ h).2 (by simp)) output
  exact (computes_modify hmark).seq computes_saveSnapshot

theorem covers_saveTaskResult (output : Bytes) :
    Covers cb B [TaskId.sha256 id] (saveTaskResult (TaskId.sha256 id) output) (.ok ()) := by
  intro A A' _ hA'
  have hmark : ∀ s, Blank A B s → Blank A' B (s.markTaskCompleted (TaskId.sha256 id) output) :=
    fun s hs => (hs.mono (fun t ht => (hA' t ht).1) fun _ h => h).mark
      (fun h => (hA' _ h).2 (by simp)) output
  exact (computes_saveTaskResult hmark).mono (fun _ _ h => h) fun _ _ h =>
    h.mono (fun _ hs => hs.mono (fun t ht => (hA' t ht).1) fun _ h => h) fun _ hs => hs

theorem covers_executeChild {child : Exec Bytes} (h : Covers cb B ids child ref)
    (hid : TaskId.sha256 id ∉ ids) :
    Covers cb B (ids ++ [TaskId.sha256 id]) (executeChild id child) ref := by
  have hrecord : ∀ output, Covers cb B [TaskId.sha256 id]
      (recordAndSave id output >>= fun _ => pure output) (.ok output) := fun output =>
    (covers_recordAndSave output).andPure output
  have hall := h.bind hrecord (by simpa using hid)
  have href : (ref >>= fun output => (.ok output : Except RuntimeError Bytes)) = ref := by
    cases ref <;> rfl
  rwa [href] at hall

omit [Sha256] in
theorem lookup_map {α β : Type*} (f : α → β) (key : String) (routes : List (String × α)) :
    (routes.map fun r => (r.1, f r.2)).lookup key = (routes.lookup key).map f := by
  induction routes with
  | nil => rfl
  | cons r routes ih =>
    rw [List.map_cons, List.lookup_cons, List.lookup_cons]
    cases key == r.1 with
    | true => rfl
    | false => exact ih

/-- Routing does not look into the branches. -/
theorem resolveBranch_map {α β : Type*} (ex : Executor) (f : α → β) (key : Bytes)
    (routes : List (String × α)) (default : Option α) :
    ex.resolveBranch codec id key (routes.map fun r => (r.1, f r.2)) (default.map f)
      = (ex.resolveBranch codec id key routes default).map fun r => (r.1, f r.2) := by
  unfold Executor.resolveBranch
  cases codec.decodeString key with
  | error e => rfl
  | ok key =>
    dsimp only
    rw [lookup_map]
    cases routes.lookup key with
    | some c => rfl
    | none => cases default <;> rfl

/-- Routing computes what the chosen branch computes. -/
theorem covers_executeRoute {branches : List (String × WorkflowContinuation)}
    {default : Option WorkflowContinuation} {record : String → Bytes → Exec Unit}
    (hb : ∀ r ∈ branches, Covers cb B r.2.ids (branchChain .callback codec r.2 input)
      (executeContinuationSync codec cb r.2 input))
    (hd : ∀ d, default = some d → Covers cb B d.ids (branchChain .callback codec d input)
      (executeContinuationSync codec cb d input))
    (hrec : ∀ output, Covers cb B [TaskId.sha256 id] (record id output) (.ok ()))
    (hid : TaskId.sha256 id ∉ idsRoutes branches ++ idsNext default) :
    Covers cb B ((idsRoutes branches ++ idsNext default) ++ [TaskId.sha256 id])
      (executeRoute .callback codec id (routeRuns .callback codec branches input)
        (defaultRun .callback codec default input) record input)
      (syncRoute codec cb id (syncRoutes codec cb branches input)
        (syncDefault codec cb default input) input) := by
  have hkey : Covers cb B [] (executeKeyFn id input)
      ((cb.execute (keyFnId id) input).mapError .ofBoxError) := fun A A' _ hA' =>
    (computes_executeKeyFn id input).mono (fun _ _ h => Quiet.mono h
      (fun t ht => (hA' t ht).1) fun _ h => h) fun _ _ h => h
  refine hkey.bind (fun keyBytes => ?_) (List.disjoint_nil_left _)
  rw [routeRuns_eq_map, defaultRun_eq_map, syncRoutes_eq_map, syncDefault_eq_map,
    resolveBranch_map (f := fun c => executeBranch .callback codec c input),
    resolveBranch_map (f := fun c => executeContinuationSync codec cb c input)]
  cases hres : Executor.resolveBranch .callback codec id keyBytes branches default with
  | error e =>
    intro A A' _ _
    refine computes_throw fun wakeAt => ?_
    unfold Executor.resolveBranch at hres
    split at hres
    · cases hres
      simp [Executor.keyError]
    · split at hres <;> cases hres
      simp
  | ok chosen =>
    obtain ⟨key, c⟩ := chosen
    have hc : Covers cb B (idsRoutes branches ++ idsNext default)
        (branchChain .callback codec c input) (executeContinuationSync codec cb c input) := by
      rcases Executor.resolveBranch_mem hres with ⟨r, hr, rfl⟩ | hdef
      · exact (hb r hr).weaken fun t ht => List.mem_append_left _ (mem_idsRoutes hr ht)
      · refine (hd c hdef).weaken fun t ht => List.mem_append_right _ ?_
        rw [hdef]
        exact ht
    refine hc.lift.bind (fun output => ?_) (by simpa using hid)
    have hencode : Covers cb B [] (ofExcept ((codec.encodeBranchEnvelope key output).mapError
        .ofBoxError)) ((codec.encodeBranchEnvelope key output).mapError .ofBoxError) := by
      refine covers_ofExcept fun e he => ?_
      cases hx : codec.encodeBranchEnvelope key output with
      | ok envelope => simp [hx, Except.mapError] at he
      | error e' =>
        rw [hx] at he
        cases he
        cases e' <;> exact fun _ => by simp [RuntimeError.ofBoxError]
    have hrest : ∀ envelope, Covers cb B [TaskId.sha256 id]
        (record id envelope >>= fun _ => pure envelope) (.ok envelope) := fun envelope =>
      (hrec envelope).andPure envelope
    have hall := hencode.bind hrest (List.disjoint_nil_left _)
    have href : ∀ r : Except RuntimeError Bytes,
        (r >>= fun output => (.ok output : Except RuntimeError Bytes)) = r := by
      intro r
      cases r <;> rfl
    rwa [href] at hall

theorem fatal_resolveLoopIteration {cfg : LoopConfig} {iteration : Nat}
    (h : resolveLoopIteration codec cfg output iteration = .error e) :
    Fatal e := by
  unfold resolveLoopIteration at h
  split at h
  · cases h
    exact fun _ => by simp
  · cases h
  · split at h
    · split at h <;> cases h
      exact fun _ => by simp [LoopConfig.exceeded]
    · cases h

section loops

variable {cfg : LoopConfig} {executeBody : Bytes → Exec Bytes}
  {body : Bytes → Except RuntimeError Bytes} (trackPosition : Bool)
  (hbody : ∀ i, Covers cb (fun t => B t ∧ t ≠ TaskId.sha256 cfg.id) cfg.body.ids (executeBody i)
    (body i))
  (hA : ∀ t ∈ TaskId.sha256 cfg.id :: cfg.body.ids, A t)
  (hA' : ∀ t, A' t → A t ∧ t ∉ TaskId.sha256 cfg.id :: cfg.body.ids)
include hbody hA hA'

/-- Each iteration forgets its body, so that the next one finds it blank again. -/
theorem computes_runIterations (remaining iteration : Nat) (input : Bytes) :
    Computes cb (Quiet A fun t => B t ∧ t ≠ TaskId.sha256 cfg.id) (Quiet A' B)
      (runIterations codec cfg trackPosition executeBody remaining iteration input)
      (syncIterations codec cfg body remaining iteration input) := by
  induction remaining generalizing iteration input with
  | zero => exact computes_throw fun _ => by simp [LoopConfig.exceeded]
  | succ remaining ih =>
    have hrun := hbody input A (fun t => A t ∧ t ∉ cfg.body.ids)
      (fun t ht => hA t (List.mem_cons_of_mem _ ht)) fun _ ht => ht
    -- forgetting the body blanks it in hand; the store follows with the next save
    have hclear : ∀ s, Blank (fun t => A t ∧ t ∉ cfg.body.ids)
        (fun t => B t ∧ t ≠ TaskId.sha256 cfg.id) s →
        Blank A (fun t => B t ∧ t ≠ TaskId.sha256 cfg.id) (clearBodyTasks cfg.body s) := by
      intro s hs
      refine (hs.clearBodyTasks cfg.body).mono (fun t ht => ?_) fun _ h => h
      by_cases hmem : t ∈ cfg.body.ids
      · exact Or.inr hmem
      · exact Or.inl ⟨ht, hmem⟩
    refine hrun.bind fun output _ => (computes_modify hclear).seq ?_
    cases hres : resolveLoopIteration codec cfg output iteration with
    | error e =>
      intro s w _
      exact meets_ofExcept_error_bind.mpr
        (meets_throw fun _ _ => fatal_resolveLoopIteration hres)
    | ok step =>
      cases step with
      | exit inner =>
        have hexit : ∀ s, Blank A (fun t => B t ∧ t ≠ TaskId.sha256 cfg.id) s →
            Blank A' B ((s.clearLoopIteration (TaskId.sha256 cfg.id)).markTaskCompleted
              (TaskId.sha256 cfg.id) inner) := fun s hs =>
          (hs.clearLoopIteration.mono (fun t ht => (hA' t ht).1) fun _ h => h).mark
            (fun h => (hA' _ h).2 List.mem_cons_self) inner
        exact ((computes_modify hexit).seq computes_saveSnapshot).seq computes_pure
      | next inner =>
        have hcount : ∀ s, Blank A (fun t => B t ∧ t ≠ TaskId.sha256 cfg.id) s →
            Blank A (fun t => B t ∧ t ≠ TaskId.sha256 cfg.id)
              (s.setLoopIteration (TaskId.sha256 cfg.id) (iteration + 1)) := fun s hs =>
          (hs.setLoopIteration _ _).mono (fun _ h => h) fun _ h => ⟨h, h.2⟩
        exact ((computes_modify hcount).seq ((computes_when (computes_modify fun s hs =>
          hs.updatePosition _)).seq computes_saveSnapshot)).seq (ih (iteration + 1) inner)

/-- A loop that has not been started runs all of its iterations. -/
theorem computes_runLoop (hB : B (TaskId.sha256 cfg.id)) (input : Bytes) :
    Computes cb (Quiet A B) (Quiet A' B) (runLoop codec cfg trackPosition executeBody input)
      (syncIterations codec cfg body cfg.maxIterations 0 input) := by
  refine computes_get_bind fun s hs => ?_
  rw [hs.notLooping _ hB]
  exact (computes_runIterations trackPosition hbody hA hA' _ 0 input).mono
    (fun _ _ h => Quiet.mono h (fun _ h => h) fun _ h => h.1) fun _ _ h => h

end loops

/-! ## Trees -/

/-- What follows the branches of a fork. -/
theorem covers_join {join : Option WorkflowContinuation} {next : Bytes → Exec Bytes}
    (h : ∀ output, Covers cb B (idsNext join) (next output) (syncNext codec cb join output)) :
    Covers cb B (idsNext join) (ofExcept (resolveJoin codec join results) >>= fun resolution =>
        match resolution with
        | .continue joinInput => next joinInput
        | .done output => pure output) (resolveJoin codec join results >>= fun resolution =>
        match resolution with
        | .continue joinInput => syncNext codec cb join joinInput
        | .done output => .ok output) := by
  refine (covers_ofExcept fun _ he => fatal_resolveJoin he).bind (fun resolution => ?_)
    (List.disjoint_nil_left _)
  cases resolution with
  | «continue» joinInput => exact h joinInput
  | done output => exact (covers_pure output).weaken (by simp)

/-- A task of a branch computes the task function. -/
theorem covers_branchTask (htimeout : fields.timeout = none) :
    Covers cb B [TaskId.sha256 id] (retryWithCheckpoint id fields.retryPolicy fields.timeout false
        (branchExecuteOrSkipTask id input fields.timeout))
      ((cb.execute id input).mapError .ofBoxError) := by
  intro A A' hA hA'
  rw [htimeout]
  exact computes_retryLoop id _ false (attempts_branchExecuteOrSkipTask (hA _ (by simp))
    fun t ht => ⟨(hA' t ht).1, fun h => (hA' t ht).2 (by simp [h])⟩) _

theorem covers_mainTask (htimeout : fields.timeout = none) (next : Option TaskHint) :
    Covers cb B [TaskId.sha256 id] (executeTaskStep id fields next input)
      ((cb.execute id input).mapError .ofBoxError) := by
  intro A A' hA hA'
  exact computes_executeTaskStep htimeout (hA _ (by simp))
    (fun t ht => ⟨(hA' t ht).1, fun h => (hA' t ht).2 (by simp [h])⟩) next

omit [Sha256] in
theorem covers_checkGuards (scope : Option TaskId) :
    Covers cb B [] (checkGuards scope) (.ok ()) := fun _ _ _ hA' =>
  (computes_checkGuards scope).mono (fun _ _ h => Quiet.mono h (fun t ht => (hA' t ht).1)
    fun _ h => h) fun _ _ h => h

/-- The trees the two executors are compared on. -/
structure InProcess (c : WorkflowContinuation) : Prop where
  noWait : c.Every fun n => n.isWait = false
  noTimeout : c.Every fun n => n.hasTimeout = false
  distinct : c.ids.Nodup

namespace InProcess

variable {next : Option WorkflowContinuation}

theorem child {c d : WorkflowContinuation} (h : InProcess c) (hd : d ∈ c.children) :
    InProcess d :=
  ⟨(every_iff.mp h.noWait).2 d hd, (every_iff.mp h.noTimeout).2 d hd, nodup_child h.distinct hd⟩

theorem task (h : InProcess (.task id fields next)) :
    fields.timeout = none ∧ TaskId.sha256 id ∉ idsNext next
      ∧ ∀ n, next = some n → InProcess n := by
  have ht := (every_iff.mp h.noTimeout).1
  have hd := h.distinct
  rw [ids_task, List.nodup_cons] at hd
  exact ⟨by simpa [hasTimeout] using ht, hd.1, fun n hn => h.child (by simp [children, hn])⟩

theorem fork (h : InProcess (.fork id branches next)) :
    (∀ b ∈ branches, InProcess b) ∧ (idsBranches branches).Nodup
      ∧ List.Disjoint (idsBranches branches) (idsNext next)
      ∧ ∀ n, next = some n → InProcess n := by
  have hd := h.distinct
  rw [ids_fork, List.nodup_cons, List.nodup_append'] at hd
  exact ⟨fun b hb => h.child (by simp [children, hb]), hd.2.1, hd.2.2.2,
    fun n hn => h.child (by simp [children, hn])⟩

theorem branch {keyFn : Bool} {branches : List (String × WorkflowContinuation)}
    {default : Option WorkflowContinuation} (h : InProcess (.branch id keyFn branches default next)) :
    (∀ r ∈ branches, InProcess r.2) ∧ (∀ d, default = some d → InProcess d)
      ∧ TaskId.sha256 id ∉ idsRoutes branches ++ idsNext default
      ∧ List.Disjoint ((idsRoutes branches ++ idsNext default) ++ [TaskId.sha256 id]) (idsNext next)
      ∧ ∀ n, next = some n → InProcess n := by
  have hd := h.distinct
  rw [ids_branch, ← List.append_assoc, List.nodup_cons, List.nodup_append', List.mem_append] at hd
  obtain ⟨hid, -, -, hdisj⟩ := hd
  refine ⟨fun r hr => h.child (List.mem_append_left _ (List.mem_map_of_mem hr)),
    fun d hd => h.child (by simp [children, hd]), fun h => hid (Or.inl h), ?_,
    fun n hn => h.child (by simp [children, hn])⟩
  exact List.disjoint_append_left.mpr ⟨hdisj, List.singleton_disjoint.mpr fun h => hid (Or.inr h)⟩

theorem loop {body : WorkflowContinuation} {maxIterations : Nat} {onMax : MaxIterationsPolicy}
    (h : InProcess (.loop id body maxIterations onMax next)) :
    InProcess body ∧ TaskId.sha256 id ∉ body.ids
      ∧ List.Disjoint (TaskId.sha256 id :: body.ids) (idsNext next)
      ∧ ∀ n, next = some n → InProcess n := by
  have hd := h.distinct
  rw [ids_loop, List.nodup_cons, List.nodup_append', List.mem_append] at hd
  obtain ⟨hid, -, -, hdisj⟩ := hd
  exact ⟨h.child (List.mem_cons_self ..), fun h => hid (Or.inl h),
    List.disjoint_cons_left.mpr ⟨fun h => hid (Or.inr h), hdisj⟩,
    fun n hn => h.child (by simp [children, hn])⟩

theorem childWorkflow {child : WorkflowContinuation}
    (h : InProcess (.childWorkflow id child next)) :
    InProcess child ∧ TaskId.sha256 id ∉ child.ids
      ∧ List.Disjoint (child.ids ++ [TaskId.sha256 id]) (idsNext next)
      ∧ ∀ n, next = some n → InProcess n := by
  have hd := h.distinct
  rw [ids_childWorkflow, List.nodup_cons, List.nodup_append', List.mem_append] at hd
  obtain ⟨hid, -, -, hdisj⟩ := hd
  exact ⟨h.child (List.mem_cons_self ..), fun h => hid (Or.inl h),
    List.disjoint_append_left.mpr ⟨hdisj, List.singleton_disjoint.mpr fun h => hid (Or.inr h)⟩,
    fun n hn => h.child (by simp [children, hn])⟩

end InProcess

/-- `run` computes on a tree what the sync executor computes. The counters in `B` are
generalized because a loop counts while its body runs. -/
def Agrees (codec : EnvelopeCodec) (cb : Callbacks)
    (run : WorkflowContinuation → Bytes → Exec Bytes) (c : WorkflowContinuation) : Prop :=
  ∀ B : TaskId → Prop, (∀ t ∈ c.ids, B t) → InProcess c → ∀ input,
    Covers cb B c.ids (run c input) (executeContinuationSync codec cb c input)

section next

variable {run : WorkflowContinuation → Bytes → Exec Bytes} {next : Option WorkflowContinuation}
  (hB : ∀ t ∈ idsNext next, B t) (hc : ∀ n, next = some n → InProcess n)
include hB hc

theorem covers_branchNext (ih : ∀ n, next = some n → Agrees codec cb (branchChain .callback codec) n)
    (output : Bytes) : Covers cb B (idsNext next) (branchNext .callback codec next output)
      (syncNext codec cb next output) := by
  cases next with
  | none => exact covers_pure output
  | some n => exact ih n rfl B hB (hc n rfl) output

theorem covers_mainNext (ih : ∀ n, next = some n → Agrees codec cb (executeMain .callback codec) n)
    (output : Bytes) : Covers cb B (idsNext next) (mainNext .callback codec next output)
      (syncNext codec cb next output) := by
  cases next with
  | none => exact covers_pure output
  | some n => exact ih n rfl B hB (hc n rfl) output

end next

/-- **A branch computes what the sync executor computes.** -/
theorem branchChain_covers (codec : EnvelopeCodec) (cb : Callbacks) (c : WorkflowContinuation) :
    Agrees codec cb (branchChain .callback codec) c := by
  induction c using WorkflowContinuation.induct with
  | task id fields next ih =>
    intro B hB hc input
    obtain ⟨htimeout, hid, hnext⟩ := hc.task
    rw [executeContinuationSync, branchChain, retrySync_const]
    rw [ids_task] at hB ⊢
    have hrest := covers_branchNext (fun t ht => hB t (by simp [ht])) hnext ih
    exact (covers_branchTask htimeout).bind hrest (List.singleton_disjoint.mpr hid)
  | delay id duration next =>
    intro B _ hc
    exact absurd (every_iff.mp hc.noWait).1 (by simp [isWait])
  | awaitSignal id signalName timeout next =>
    intro B _ hc
    exact absurd (every_iff.mp hc.noWait).1 (by simp [isWait])
  | fork id branches join ihb ihj =>
    intro B hB hc input
    obtain ⟨hbranches, hnodup, hdisj, hnext⟩ := hc.fork
    rw [executeContinuationSync, branchChain]
    rw [ids_fork] at hB ⊢
    have hb := fun b hb =>
      ihb b hb B (fun t ht => hB t (by simp [mem_idsBranches hb ht])) (hbranches b hb) input
    have hrest := covers_branchNext (fun t ht => hB t (by simp [ht])) hnext ihj
    exact ((covers_executeNestedBranches hb hnodup).bind (fun results => covers_join hrest)
      hdisj).weaken fun t ht => List.mem_cons_of_mem _ ht
  | branch id keyFn branches default next ihr ihd ihn =>
    intro B hB hc input
    obtain ⟨hroutes, hdefault, hid, hdisj, hnext⟩ := hc.branch
    rw [executeContinuationSync, branchChain]
    rw [ids_branch] at hB ⊢
    have hr := fun r hr => ihr r hr B (fun t ht => hB t (by simp [mem_idsRoutes hr ht])) (hroutes r hr) input
    have hd := fun d hd => ihd d hd B (fun t ht => hB t (by simp [hd, ht])) (hdefault d hd) input
    have hrest := covers_branchNext (fun t ht => hB t (by simp [ht])) hnext ihn
    have hrecord : ∀ output, Covers cb B [TaskId.sha256 id]
        (Executor.recordRouted .callback id output) (.ok ()) := covers_saveTaskResult
    have hroute : Covers cb B ((idsRoutes branches ++ idsNext default) ++ [TaskId.sha256 id]) _ _ :=
      (covers_executeRoute hr hd hrecord hid).skipIfRecorded id (by simp)
    exact ((hroute.bind hrest hdisj).weaken (by simp; tauto)).before (covers_pure ())
  | loop id body maxIterations onMax next ihb ihn =>
    intro B hB hc input
    obtain ⟨hbody, hid, hdisj, hnext⟩ := hc.loop
    rw [executeContinuationSync, branchChain]
    rw [ids_loop] at hB ⊢
    have hb : ∀ i, Covers cb (fun t => B t ∧ t ≠ TaskId.sha256 id) body.ids
        (liftExcept (onLoadedSnapshot (branchChain .callback codec body i)))
        (executeContinuationSync codec cb body i) := fun i =>
      (ihb _ (fun t ht => ⟨hB t (by simp [ht]), fun h => hid (h ▸ ht)⟩) hbody i).lift
    have hrest := covers_branchNext (fun t ht => hB t (by simp [ht])) hnext ihn
    have hloop : Covers cb B (TaskId.sha256 id :: body.ids) (runLoop codec
          ⟨id, body, maxIterations, onMax⟩ false
          (fun i => liftExcept (onLoadedSnapshot (branchChain .callback codec body i))) input)
        (syncIterations codec ⟨id, body, maxIterations, onMax⟩
          (fun i => executeContinuationSync codec cb body i) maxIterations 0 input) :=
      fun A A' hA hA' => computes_runLoop false hb hA hA' (hB _ List.mem_cons_self) input
    exact (hloop.skipIfRecorded id List.mem_cons_self).bind hrest hdisj
  | childWorkflow id child next ihc ihn =>
    intro B hB hc input
    obtain ⟨hchild, hid, hdisj, hnext⟩ := hc.childWorkflow
    rw [executeContinuationSync, branchChain]
    rw [ids_childWorkflow] at hB ⊢
    have hch := (ihc B (fun t ht => hB t (by simp [ht])) hchild input).lift
    have hrest := covers_branchNext (fun t ht => hB t (by simp [ht])) hnext ihn
    have hnode : Covers cb B (child.ids ++ [TaskId.sha256 id]) _ _ :=
      (covers_executeChild hch hid).skipIfRecorded id (by simp)
    exact (hnode.bind hrest hdisj).weaken (by simp; tauto)

/-- **The main path computes what the sync executor computes.** -/
theorem executeMain_covers (c : WorkflowContinuation) :
    Agrees codec cb (executeMain .callback codec) c := by
  induction c using WorkflowContinuation.induct with
  | task id fields next ih =>
    intro B hB hc input
    obtain ⟨htimeout, hid, hnext⟩ := hc.task
    rw [executeContinuationSync, executeMain, retrySync_const]
    rw [ids_task] at hB ⊢
    have hrest := covers_mainNext (fun t ht => hB t (by simp [ht])) hnext ih
    exact (covers_mainTask htimeout _).bind hrest (List.singleton_disjoint.mpr hid)
  | delay id duration next =>
    intro B _ hc
    exact absurd (every_iff.mp hc.noWait).1 (by simp [isWait])
  | awaitSignal id signalName timeout next =>
    intro B _ hc
    exact absurd (every_iff.mp hc.noWait).1 (by simp [isWait])
  | fork id branches join _ ihj =>
    intro B hB hc input
    obtain ⟨hbranches, hnodup, hdisj, hnext⟩ := hc.fork
    rw [executeContinuationSync, executeMain]
    rw [ids_fork] at hB ⊢
    have hb := fun b hb => branchChain_covers codec cb b B
      (fun t ht => hB t (by simp [mem_idsBranches hb ht])) (hbranches b hb) input
    have hrest := covers_mainNext (fun t ht => hB t (by simp [ht])) hnext ihj
    exact ((covers_mainFork hb hnodup join).bind (fun results => covers_join hrest)
      hdisj).weaken fun t ht => List.mem_cons_of_mem _ ht
  | branch id keyFn branches default next _ _ ihn =>
    intro B hB hc input
    obtain ⟨hroutes, hdefault, hid, hdisj, hnext⟩ := hc.branch
    rw [executeContinuationSync, executeMain]
    rw [ids_branch] at hB ⊢
    have hr := fun r hr => branchChain_covers codec cb r.2 B
      (fun t ht => hB t (by simp [mem_idsRoutes hr ht])) (hroutes r hr) input
    have hd := fun d hd => branchChain_covers codec cb d B
      (fun t ht => hB t (by simp [hd, ht])) (hdefault d hd) input
    have hrest := covers_mainNext (fun t ht => hB t (by simp [ht])) hnext ihn
    have hroute : Covers cb B ((idsRoutes branches ++ idsNext default) ++ [TaskId.sha256 id]) _ _ :=
      (covers_executeRoute hr hd covers_recordAndSave hid).skipIfRecorded id (by simp)
    exact (((hroute.bind hrest hdisj).weaken (by simp; tauto)).before
      (covers_checkGuards _)).before (covers_pure ())
  | loop id body maxIterations onMax next ihb ihn =>
    intro B hB hc input
    obtain ⟨hbody, hid, hdisj, hnext⟩ := hc.loop
    rw [executeContinuationSync, executeMain]
    rw [ids_loop] at hB ⊢
    have hb : ∀ i, Covers cb (fun t => B t ∧ t ≠ TaskId.sha256 id) body.ids
        (executeMain .callback codec body i) (executeContinuationSync codec cb body i) := fun i =>
      ihb _ (fun t ht => ⟨hB t (by simp [ht]), fun h => hid (h ▸ ht)⟩) hbody i
    have hrest := covers_mainNext (fun t ht => hB t (by simp [ht])) hnext ihn
    have hloop : Covers cb B (TaskId.sha256 id :: body.ids) (runLoop codec
          ⟨id, body, maxIterations, onMax⟩ true (fun i => executeMain .callback codec body i) input)
        (syncIterations codec ⟨id, body, maxIterations, onMax⟩
          (fun i => executeContinuationSync codec cb body i) maxIterations 0 input) :=
      fun A A' hA hA' => computes_runLoop true hb hA hA' (hB _ List.mem_cons_self) input
    exact ((hloop.skipIfRecorded id List.mem_cons_self).bind hrest hdisj).before
      (covers_checkGuards _)
  | childWorkflow id child next ihc ihn =>
    intro B hB hc input
    obtain ⟨hchild, hid, hdisj, hnext⟩ := hc.childWorkflow
    rw [executeContinuationSync, executeMain]
    rw [ids_childWorkflow] at hB ⊢
    have hch := ihc B (fun t ht => hB t (by simp [ht])) hchild input
    have hrest := covers_mainNext (fun t ht => hB t (by simp [ht])) hnext ihn
    have hnode : Covers cb B (child.ids ++ [TaskId.sha256 id]) _ _ :=
      (covers_executeChild hch hid).skipIfRecorded id (by simp)
    exact ((hnode.bind hrest hdisj).weaken (by simp; tauto)).before (covers_checkGuards _)

end nodes

/-- A snapshot that nothing has been done with. -/
structure Unstarted (s : WorkflowSnapshot) : Prop where
  running : s.isInProgress
  unrecorded : ∀ t, s.getTaskResult t = none
  notLooping : ∀ t, s.loopIteration t = 0
  noDeadline : s.taskDeadline = none

/-- **The two executors compute the same function.** On a tree without waits and
timeouts whose ids are distinct, the callback executor, started on a fresh
snapshot and left alone, always ends, and it ends with the bytes of the sync
executor or fails if that one fails. -/
theorem sync_agrees_with_checkpointing (codec : EnvelopeCodec) (cb : Callbacks)
    (c : WorkflowContinuation) (input : Bytes)
    (hwaits : c.Every fun n => n.isWait = false)
    (htimeouts : c.Every fun n => n.hasTimeout = false)
    (hdistinct : c.taskIds.Nodup)
    (hcollisions : ∀ a ∈ c.taskIds, ∀ b ∈ c.taskIds, TaskId.sha256 a = TaskId.sha256 b → a = b)
    (s : WorkflowSnapshot) (w : World) (hfresh : Unstarted s) (hstored : w.snapshot = some s)
    (hcancel : w.cancelSignal = none) (hpause : w.pauseSignal = none) :
    let p := executeContinuationWithCheckpointing codec c input s
    (∃ r w', Prog.Reach (Op.handle cb) Idle p w (.pure r) w')
      ∧ ∀ r w', Prog.Reach (Op.handle cb) Idle p w (.pure r) w' →
          r.1.toOption = (executeContinuationSync codec cb c input).toOption := by
  have hnodup : c.ids.Nodup := List.Nodup.map_on hcollisions hdistinct
  have hcovers : Covers cb (fun _ => True) c.ids (executeMain .callback codec c input)
      (executeContinuationSync codec cb c input) :=
    executeMain_covers c _ (fun _ _ => trivial) ⟨hwaits, htimeouts, hnodup⟩ input
  have hblank : Blank (fun _ => True) (fun _ => True) s :=
    ⟨hfresh.running, fun t _ => hfresh.unrecorded t, fun t _ => hfresh.notLooping t,
      hfresh.noDeadline⟩
  have hmeets := hcovers (fun _ => True) (fun t => t ∉ c.ids) (fun _ _ => trivial)
    (fun t ht => ⟨trivial, ht⟩) s w ⟨hblank, ⟨s, hstored, hblank⟩, hcancel, hpause⟩
  refine ⟨⟨_, _, Prog.eval_reach _ w⟩, fun r w' hr => ?_⟩
  exact (Prog.Valid.post hmeets hr).toOption

omit [Sha256] in
theorem unstarted_initialSnapshot (instanceId : String) (hash : DefinitionHash) (input : Bytes)
    (hint : TaskHint) : Unstarted (initialSnapshot instanceId hash input hint) where
  running := rfl
  unrecorded t := by simp [initialSnapshot]
  notLooping t := rfl
  noDeadline := rfl

end agreement

section sample

attribute [local instance] Sha256.packed

/-- A fork whose first branch is a loop in a child workflow in a loop. -/
def nestedLoops : WorkflowContinuation :=
  .fork "f" [.loop "outer" (.childWorkflow "child" (.loop "inner" (.task "b" .plain none) 3 .fail
    (some (.task "o" .plain none))) none) 3 .fail none, .task "side" .plain none]
    (some (.task "j" .plain none))

/-- `b` answers `Done` to every third length of its input, `o` once its input is long. -/
def countingTasks : Callbacks where
  execute name input := .ok <|
    if name = "b" then (if input.length % 3 = 2 then 1 else 0) :: 5 :: input
    else if name = "o" then (if 6 < input.length then 1 else 0) :: input
    else input
  duration _ _ := 1

theorem sync_agrees_on_nestedLoops :
    let s := initialSnapshot "i" ⟨0⟩ [7] nestedLoops.firstTaskHint
    ∃ r w', Prog.Reach (Op.handle countingTasks) Idle
        (executeContinuationWithCheckpointing .plain nestedLoops [7] s)
        ((World.fresh "i" 0).saveSnapshot s).2 (.pure r) w'
      ∧ r.1.toOption = some [5, 5, 5, 5, 5, 5, 5, 5, 7, 7] := by
  intro s
  have hwaits : ∀ n ∈ nestedLoops.subtrees, n.isWait = false := by decide
  have htimeouts : ∀ n ∈ nestedLoops.subtrees, n.hasTimeout = false := by decide
  have hsync : (executeContinuationSync .plain countingTasks nestedLoops [7]).toOption
      = some [5, 5, 5, 5, 5, 5, 5, 5, 7, 7] := by decide
  obtain ⟨⟨r, w', hr⟩, hagree⟩ := sync_agrees_with_checkpointing .plain countingTasks nestedLoops
    [7] hwaits htimeouts (by decide) (by decide) s ((World.fresh "i" 0).saveSnapshot s).2
    (unstarted_initialSnapshot _ _ _ _) rfl rfl rfl
  exact ⟨r, w', hr, (hagree r w' hr).trans hsync⟩

end sample

end Sayiir
