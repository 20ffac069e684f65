import Sayiir.Proof.Rehearsal
import Sayiir.Proof.Terminal

/-!
# The inputs of tasks

The sync executor is the meaning of a tree of tasks and forks. A pool hands a task the
output completed last, and that is what the sync executor hands it too, except in two
places. The first task of a branch other than the first gets the output of the branch
before it and not the input of the fork (`misfed`), unless the two are the same. And a
task the position has strayed to gets whatever has been completed before.
-/

namespace Sayiir

open Backend

section misfed

variable [Sha256]

/-- The first tasks of the branches that follow a branch which returns something else
than the input of the fork. -/
def misfedBranches (codec : EnvelopeCodec) (cb : Callbacks) (input : Bytes) :
    List WorkflowContinuation → List String
  | b :: next :: bs =>
    (match executeContinuationSync codec cb b input with
      | .error _ => []
      | .ok output => if output = input then [] else [next.firstTaskId])
    ++ misfedBranches codec cb input (next :: bs)
  | _ => []

/-- The tasks that a pool does not hand the input of the fork they belong to. -/
def misfed (codec : EnvelopeCodec) (cb : Callbacks) : WorkflowContinuation → Bytes → List String
  | .task id _ (some next), input => match cb.execute id input with
      | .error _ => []
      | .ok output => misfed codec cb next output
  | .fork _ branches _, input => misfedBranches codec cb input branches
  | _, _ => []

end misfed

section calls

variable [Sha256] (job : Submission) (ok : String → Bool)

/-- The calls of a rehearsal. -/
def Submission.played : Results → List String → List (String × Bytes)
  | _, [] => []
  | done, name :: names =>
    (match ok name, job.feed done name with
      | true, .ok input => [(name, input)]
      | _, _ => [])
    ++ match job.play ok done name with
      | none => []
      | some done => played done names

end calls

open WorkflowContinuation Submission

section rehearsed

variable [Sha256] {job : Submission} {ok : String → Bool} {done done' : Results} {input : Bytes}
  {c : WorkflowContinuation} {name : String}

theorem played_append (names more : List String) :
    job.played ok done (names ++ more)
      = job.played ok done names ++ match names.foldlM (job.play ok) done with
        | none => []
        | some done => job.played ok done more := by
  induction names generalizing done with
  | nil => rfl
  | cons name names ih =>
    rw [List.cons_append, played, played, List.foldlM_cons, List.append_assoc]
    congr 1
    cases hplay : job.play ok done name with
    | none => rfl
    | some done' => exact ih

/-- A task that is not accounted for ends the rehearsal. -/
theorem played_stop (job : Submission) (done : Results) (h : ok name = false)
    (names : List String) :
    job.played ok done (name :: names) = []
      ∧ (name :: names).foldlM (job.play ok) done = none := by
  have hplay : job.play ok done name = none := by simp [play, h]
  exact ⟨by simp [played, h, hplay], by simp [List.foldlM_cons, hplay]⟩

/-- So does one that has no input. -/
theorem played_of_feed_error {e : RuntimeError} (h : job.feed done name = .error e)
    (names : List String) : job.played ok done (name :: names) = [] := by
  have hplay : job.play ok done name = none := by simp [play, h]
  cases hok : ok name <;> simp [played, h, hplay, hok]

theorem feed_of_unjoined
    (h : job.continuation.findForkBranchesForJoin (TaskId.sha256 name) = none) :
    job.feed done name = .ok (job.latest done) := by
  unfold feed
  rw [h]

/-- The calls of the plan are those of the rehearsal. -/
theorem mem_played {names : List String} {k : ℕ} (hallowed : (job.planOf ok names).allowed k)
    (hk : names[k]? = some name) (hinput : (job.planOf ok names).input k = .ok input) :
    (name, input) ∈ job.played ok [] names := by
  have hok : ok name = true := by simpa [planOf, hk] using hallowed
  have hlt : k < names.length := (List.getElem?_eq_some_iff.mp hk).1
  have hsplit : names = names.take k ++ name :: names.drop (k + 1) := by
    obtain rfl : names[k] = name := by simpa [List.getElem?_eq_getElem hlt] using hk
    simp
  cases hdone : job.rehearse ok (names.take k) with
  | none => simp [planOf, hdone] at hinput
  | some done =>
    have hfeed : job.feed done name = .ok input := by simpa [planOf, hdone, hk] using hinput
    unfold rehearse at hdone
    rw [hsplit, played_append, hdone]
    simp [played, hok, hfeed]

/-! ## Chains -/

/-- Rehearsing a chain of tasks is executing it, given the input of its first task. -/
theorem played_chain (ok : String → Bool) (hc : c.TaskChain)
    (hfeed : job.feed done c.firstTaskId = .ok input)
    (hfree : ∀ name ∈ c.taskIds.tail,
      job.continuation.findForkBranchesForJoin (TaskId.sha256 name) = none) :
    job.played ok done c.taskIds ⊆ syncCalls job.codec job.callbacks c input
      ∧ ∀ done', c.taskIds.foldlM (job.play ok) done = some done' →
        executeContinuationSync job.codec job.callbacks c input = .ok (job.latest done')
          ∧ done'.lookup (TaskId.sha256 c.terminalTaskId) = some (job.latest done')
          ∧ ∀ t ∉ c.ids, done'.lookup t = done.lookup t := by
  induction hc generalizing done input with
  | last id fields =>
    simp only [firstTaskId] at hfeed
    constructor
    · intro call hcall
      cases hok : ok id <;> cases hplay : job.play ok done id <;>
        simp_all [taskIds, taskIdsNext, played, syncCalls]
    · intro done' hdone
      simp only [taskIds, taskIdsNext, List.foldlM_cons, List.foldlM_nil] at hdone
      obtain ⟨x, o, -, hx, ho, rfl⟩ := play_eq_some.mp (by simpa using hdone)
      obtain rfl : input = x := Except.ok.inj (hfeed.symm.trans hx)
      refine ⟨?_, ?_, fun t ht => ?_⟩
      · unfold executeContinuationSync
        rw [retrySync_const, ho]
        rfl
      · simp [terminalTaskId, firstTaskId, latest]
      · have hne : t ≠ TaskId.sha256 id := by simpa using ht
        rw [List.lookup_cons, beq_false_of_ne hne]
  | task id fields next hnext ih =>
    simp only [firstTaskId] at hfeed
    simp only [taskIds, taskIdsNext, List.tail_cons] at hfree ⊢
    have hjoin := hfree next.firstTaskId hnext.taskForks.firstTaskId_mem
    cases hplay : job.play ok done id with
    | none =>
      constructor
      · intro call hcall
        cases hok : ok id <;> simp_all [played, syncCalls]
      · intro done' hdone
        simp [List.foldlM_cons, hplay] at hdone
    | some done₁ =>
      obtain ⟨x, o, hok, hx, ho, rfl⟩ := play_eq_some.mp hplay
      obtain rfl : input = x := Except.ok.inj (hfeed.symm.trans hx)
      have hlatest : job.latest ((TaskId.sha256 id, o) :: done) = o := by simp [latest]
      have hfeed' : job.feed ((TaskId.sha256 id, o) :: done) next.firstTaskId = .ok o :=
        hlatest ▸ feed_of_unjoined hjoin
      obtain ⟨hcalls, hvalue⟩ := ih hfeed' fun n hn => hfree n (List.mem_of_mem_tail hn)
      constructor
      · intro call hcall
        simp only [played, hok, hfeed, hplay, List.mem_append, List.mem_singleton] at hcall
        unfold syncCalls
        rw [ho]
        rcases hcall with rfl | hcall
        · exact List.mem_cons_self
        · exact List.mem_cons_of_mem _ (hcalls hcall)
      · intro done' hdone
        simp only [List.foldlM_cons, hplay, Option.bind_eq_bind, Option.bind_some] at hdone
        obtain ⟨hrun, hlast, hothers⟩ := hvalue done' hdone
        refine ⟨?_, hlast, fun t ht => ?_⟩
        · unfold executeContinuationSync syncNext
          rw [retrySync_const, ho]
          exact hrun
        · simp only [ids_task, idsNext_some, List.mem_cons, not_or] at ht
          rw [hothers t ht.2, List.lookup_cons, beq_false_of_ne ht.1]

/-! ## Branches -/

theorem TaskChain.terminal_mem_ids (hc : c.TaskChain) :
    TaskId.sha256 c.terminalTaskId ∈ c.ids := by
  induction hc with
  | last id fields => simp [terminalTaskId, firstTaskId]
  | task id fields next _ ih => simp [terminalTaskId, ih]

/-- Rehearsing branches one after the other is executing each of them on the same input,
as long as none is misfed. -/
theorem played_branches (ok : String → Bool) {bs : List WorkflowContinuation}
    (hb : ∀ b ∈ bs, b.TaskChain)
    (hnd : (idsBranches bs).Nodup) (hlatest : job.latest done = input)
    (hfree : ∀ name ∈ taskIdsBranches bs,
      job.continuation.findForkBranchesForJoin (TaskId.sha256 name) = none)
    (hfed : ∀ name ∈ misfedBranches job.codec job.callbacks input bs, ok name = false) :
    job.played ok done (taskIdsBranches bs) ⊆ syncCallsBranches job.codec job.callbacks bs input
      ∧ ∀ done', (taskIdsBranches bs).foldlM (job.play ok) done = some done' →
        ∃ results, syncBranches job.codec job.callbacks bs input = .ok results
          ∧ joinResults done' bs = .ok results
          ∧ ∀ t ∉ idsBranches bs, done'.lookup t = done.lookup t := by
  induction bs generalizing done with
  | nil =>
    refine ⟨by simp [taskIdsBranches, played], fun done' h => ?_⟩
    obtain rfl : done = done' := by simpa [taskIdsBranches] using h
    exact ⟨[], by simp [syncBranches], rfl, fun _ _ => rfl⟩
  | cons b bs ih =>
    have hchain := hb b (by simp)
    obtain ⟨rest, hrest⟩ := hchain.taskIds_eq
    simp only [taskIdsBranches, List.mem_append] at hfree ⊢
    rw [idsBranches_cons, List.nodup_append] at hnd
    have hfeed : job.feed done b.firstTaskId = .ok input :=
      hlatest ▸ feed_of_unjoined (hfree _ (.inl hchain.taskForks.firstTaskId_mem))
    obtain ⟨hcalls, hvalue⟩ := played_chain ok hchain hfeed
      fun n hn => hfree n (.inl (List.mem_of_mem_tail hn))
    rw [played_append, List.foldlM_append]
    cases hdone : b.taskIds.foldlM (job.play ok) done with
    | none =>
      refine ⟨fun call hcall => ?_, fun done' h => by simp at h⟩
      unfold syncCallsBranches
      exact List.mem_append_left _ (hcalls (by simpa using hcall))
    | some done₁ =>
      obtain ⟨hrun, hlast, hothers⟩ := hvalue done₁ hdone
      -- the next branch is accounted for only if it gets the input of the fork
      have hnext : (∃ next bs', bs = next :: bs' ∧ ok next.firstTaskId = false)
          ∨ (bs = [] ∨ job.latest done₁ = input) := by
        cases bs with
        | nil => exact .inr (.inl rfl)
        | cons next bs' =>
          by_cases hsame : job.latest done₁ = input
          · exact .inr (.inr hsame)
          · refine .inl ⟨next, bs', rfl, hfed _ ?_⟩
            simp [misfedBranches, hrun, hsame]
      have hfed' : ∀ name ∈ misfedBranches job.codec job.callbacks input bs,
          ok name = false := by
        intro n hn
        refine hfed n ?_
        cases bs with
        | nil => simp [misfedBranches] at hn
        | cons next bs' =>
          unfold misfedBranches
          exact List.mem_append_right _ hn
      have hrest : job.played ok done₁ (taskIdsBranches bs)
            ⊆ syncCallsBranches job.codec job.callbacks bs input
          ∧ ∀ done', (taskIdsBranches bs).foldlM (job.play ok) done₁ = some done' →
            ∃ results, syncBranches job.codec job.callbacks bs input = .ok results
              ∧ joinResults done' bs = .ok results
              ∧ ∀ t ∉ idsBranches bs, done'.lookup t = done₁.lookup t := by
        rcases hnext with ⟨next, bs', rfl, hstop⟩ | rfl | hsame
        · obtain ⟨rest', hrest'⟩ := (hb next (by simp)).taskIds_eq
          have hnone := played_stop job done₁ hstop (rest' ++ taskIdsBranches bs')
          simp only [taskIdsBranches, hrest', List.cons_append]
          refine ⟨by simp [hnone.1], fun done' h => ?_⟩
          simp [hnone.2] at h
        · refine ⟨by simp [taskIdsBranches, played], fun done' h => ?_⟩
          obtain rfl : done₁ = done' := by simpa [taskIdsBranches] using h
          exact ⟨[], by simp [syncBranches], rfl, fun _ _ => rfl⟩
        · exact ih (fun d hd => hb d (by simp [hd])) hnd.2.1 hsame
            (fun n hn => hfree n (.inr hn)) hfed'
      obtain ⟨hcalls', hvalue'⟩ := hrest
      constructor
      · intro call hcall
        unfold syncCallsBranches
        rw [hrun]
        rcases List.mem_append.mp hcall with hcall | hcall
        · exact List.mem_append_left _ (hcalls hcall)
        · exact List.mem_append_right _ (hcalls' hcall)
      · intro done' h
        obtain ⟨results, hresults, hjoin, hothers'⟩ := hvalue' done' (by simpa using h)
        refine ⟨(b.id, job.latest done₁) :: results, ?_, ?_, fun t ht => ?_⟩
        · unfold syncBranches
          rw [hrun, hresults]
          rfl
        · have hterm := TaskChain.terminal_mem_ids hchain
          have hdisj : TaskId.sha256 b.terminalTaskId ∉ idsBranches bs :=
            fun hm => hnd.2.2 _ hterm _ hm rfl
          unfold joinResults
          rw [hothers' _ hdisj, hlast, hjoin]
          rfl
        · simp only [idsBranches_cons, List.mem_append, not_or] at ht
          rw [hothers' t ht.2, hothers t ht.1]

/-! ## Trees -/

/-- **What a rehearsal calls, the sync executor calls with the same input**, as long as
no task is misfed or stray. -/
theorem played_order (hc : c.TaskForks) (hnd : c.ids.Nodup) (hlatest : job.latest done = input)
    (hfind : ∀ t, job.continuation.findForkBranchesForJoin t = c.findForkBranchesForJoin t)
    (hfed : ∀ name ∈ misfed job.codec job.callbacks c input, ok name = false)
    (hstray : ∀ name, c.stray = some name → ok name = false) :
    job.played ok done c.order ⊆ syncCalls job.codec job.callbacks c input := by
  induction hc generalizing done input with
  | last id fields =>
    have hchain : (WorkflowContinuation.task id fields none).TaskChain := .last id fields
    have hfeed : job.feed done id = .ok input :=
      hlatest ▸ feed_of_unjoined ((hfind _).trans (hchain.findForkBranchesForJoin _))
    exact (played_chain ok hchain hfeed (by simp [taskIds, taskIdsNext])).1
  | task id fields next hnext ih =>
    simp only [ids_task, idsNext_some, List.nodup_cons] at hnd
    have hfind' : ∀ t, job.continuation.findForkBranchesForJoin t
        = next.findForkBranchesForJoin t := by
      intro t
      rw [hfind, WorkflowContinuation.findForkBranchesForJoin]
      rfl
    have hfeed : job.feed done id = .ok input := hlatest ▸ feed_of_unjoined
      ((hfind' _).trans (hnext.findForkBranchesForJoin_of_notMem hnd.1))
    intro call hcall
    unfold order at hcall
    unfold syncCalls
    rw [played] at hcall
    rcases List.mem_append.mp hcall with hcall | hcall
    · cases hok : ok id <;> simp_all
    · cases hplay : job.play ok done id with
      | none => simp [hplay] at hcall
      | some done₁ =>
        obtain ⟨x, o, hok, hx, ho, rfl⟩ := play_eq_some.mp hplay
        obtain rfl : input = x := Except.ok.inj (hfeed.symm.trans hx)
        rw [hplay] at hcall
        rw [ho]
        refine List.mem_cons_of_mem _ (ih hnd.2 (by simp [latest]) hfind' ?_ hstray hcall)
        intro n hn
        exact hfed n (by simpa [misfed, ho] using hn)
  | fork id first branches join hb hj ih =>
    simp only [ids_fork, idsNext_some, List.nodup_cons] at hnd
    obtain ⟨hndB, hndJ, hdisj⟩ := List.nodup_append.mp hnd.2
    -- inside of the branches no task is fed by branches
    have hfree : ∀ name ∈ taskIdsBranches (first :: branches),
        job.continuation.findForkBranchesForJoin (TaskId.sha256 name) = none := by
      intro n hn
      have hmem : TaskId.sha256 n ∈ idsBranches (first :: branches) := List.mem_map_of_mem hn
      have hnotin : TaskId.sha256 n ∉ join.ids := fun hm => hdisj _ hmem _ hm rfl
      rw [hfind, TaskForks.findForkBranchesForJoin_fork hb,
        hj.findForkBranchesForJoin_of_notMem hnotin]
      intro he
      exact hnotin (he ▸ hj.first_mem_ids)
    obtain ⟨hcalls, hvalue⟩ := played_branches ok hb hndB hlatest hfree hfed
    cases hl : join.lastFork with
    | some stray =>
      -- only the first branch is executed
      have hstop := hstray stray hl
      have hchain := hb first (by simp)
      have hfeed : job.feed done first.firstTaskId = .ok input := by
        refine hlatest ▸ feed_of_unjoined (hfree _ ?_)
        simp [taskIdsBranches, hchain.taskForks.firstTaskId_mem]
      obtain ⟨hcalls', -⟩ := played_chain ok hchain hfeed
        fun n hn => hfree n (by simp [taskIdsBranches, List.mem_of_mem_tail hn])
      intro call hcall
      unfold order at hcall
      simp only [hl] at hcall
      rw [played_append] at hcall
      unfold syncCalls syncCallsBranches
      refine List.mem_append_left _ (List.mem_append_left _ (hcalls' ?_))
      rcases List.mem_append.mp hcall with hcall | hcall
      · exact hcall
      · split at hcall
        · cases hcall
        · simp [(played_stop _ _ hstop []).1] at hcall
    | none =>
      intro call hcall
      unfold order at hcall
      simp only [hl] at hcall
      rw [played_append] at hcall
      unfold syncCalls
      rcases List.mem_append.mp hcall with hcall | hcall
      · exact List.mem_append_left _ (hcalls hcall)
      · refine List.mem_append_right _ ?_
        split at hcall
        · cases hcall
        · rename_i done₁ hdone
          obtain ⟨results, hresults, hjoin, -⟩ := hvalue done₁ hdone
          have hchain := hj.taskChain hl
          obtain ⟨rest, hrest⟩ := hchain.taskIds_eq
          -- the join is fed what the sync executor feeds it
          have hfed' : job.feed done₁ join.firstTaskId
              = (job.codec.encodeNamedResults results).mapError .ofBoxError := by
            unfold feed
            rw [hfind, WorkflowContinuation.findForkBranchesForJoin]
            simp [hjoin]
          have hfree' : ∀ name ∈ join.taskIds.tail,
              job.continuation.findForkBranchesForJoin (TaskId.sha256 name) = none := by
            intro n hn
            rw [hfind, TaskForks.findForkBranchesForJoin_fork hb,
              hchain.findForkBranchesForJoin]
            intro he
            simp only [ids, hrest, List.map_cons, List.nodup_cons, List.mem_map] at hndJ
            rw [hrest] at hn
            exact hndJ.1 ⟨n, hn, he⟩
          rw [hresults]
          simp only [Bind.bind, Except.bind, resolveJoin]
          cases hencode : job.codec.encodeNamedResults results with
          | error e =>
            rw [hencode] at hfed'
            rw [hrest, played_of_feed_error hfed'] at hcall
            cases hcall
          | ok joinInput =>
            rw [hencode] at hfed'
            exact (played_chain ok hchain hfed' hfree').1 hcall

end rehearsed

/-! ## Whole runs -/

section runs

variable [Sha256] {job : Submission} {instanceId : String} {now : Time} {σ : Pool}

/-- The task is neither the first of a misfed branch nor one the position strays to. -/
def Submission.wellFed (job : Submission) (name : String) : Bool :=
  decide (name ∉ misfed job.codec job.callbacks job.continuation job.input)
    && decide (job.continuation.stray ≠ some name)

/-- A step that calls a task calls one that is well fed. -/
def Submission.CallsWellFed (job : Submission) (a : Action) (σ : Pool) : Bool :=
  match a with
  | .work i _ => match σ.processes[i]? with
      | some ⟨_, .executing offered, _⟩ =>
        job.continuation.taskIds.all fun name =>
          decide (TaskId.sha256 name ≠ offered.taskId) || job.wellFed name
      | _ => true
  | _ => true

end runs

/-! ## Two branches, and two forks -/

section sample

attribute [local instance] Sha256.packed

/-- A fork of two tasks and a join. -/
def forkOfTwo : Submission where
  backend := .inMemory
  codec := .plain
  callbacks := appendingTasks
  continuation := .fork "f" [.task "a" .plain none, .task "b" .plain none]
    (some (.task "j" .plain none))
  definitionHash := ⟨0⟩
  input := [1]

/-- Two forks one after the other. -/
def forkAfterFork : Submission where
  backend := .inMemory
  codec := .plain
  callbacks := appendingTasks
  continuation := .fork "f" [.task "a" .plain none] (some (.task "j" .plain
    (some (.fork "g" [.task "b" .plain none] (some (.task "k" .plain none))))))
  definitionHash := ⟨0⟩
  input := [1]

/-- A worker executes the first branch and begins with what comes next. -/
def branchAfterBranch : List Action :=
  .poll (sampleWorker "w") :: Action.calls 0 12 ++ .poll (sampleWorker "w") :: Action.calls 1 7

end sample

end Sayiir
