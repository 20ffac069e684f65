import Sayiir.Proof.Rehearsal
import Sayiir.Proof.Terminal

/-!
# Chains of tasks

The purpose of a chain of tasks is the composition of its functions. A pool computes it,
whatever the interleaving of its workers, whatever fails and whichever claims expire:
the plan of a chain is the composition, and every run follows the plan.
-/

namespace Sayiir

open Backend

/-- The functions of the named tasks one after the other. -/
def compose (callbacks : Callbacks) (names : List String) (input : Bytes) : Except BoxError Bytes :=
  names.foldlM (fun x name => callbacks.execute name x) input

section compose

variable {callbacks : Callbacks} {names : List String} {input out : Bytes} {k : ℕ} {name : String}

/-- One more function. -/
theorem compose_succ (hk : names[k]? = some name) :
    compose callbacks (names.take (k + 1)) input
      = (compose callbacks (names.take k) input).bind (callbacks.execute name) := by
  unfold compose
  rw [List.take_add_one, hk, Option.toList_some, List.foldlM_append]
  simp only [List.foldlM_cons, List.foldlM_nil, Bind.bind]
  congr 1
  funext x
  cases callbacks.execute name x <;> rfl

/-- If the composition has a value, so has every part of it. -/
theorem compose_take (h : compose callbacks names input = .ok out) (k : ℕ) :
    ∃ x, compose callbacks (names.take k) input = .ok x := by
  unfold compose at h ⊢
  rw [← List.take_append_drop k names, List.foldlM_append] at h
  obtain ⟨x, hx, -⟩ := Except.bind_eq_ok_iff.mp h
  exact ⟨x, hx⟩

end compose

namespace WorkflowContinuation

theorem TaskChain.stray {c : WorkflowContinuation} (h : c.TaskChain) : c.stray = none := by
  induction h with
  | last id fields => rfl
  | task id fields next _ ih => exact ih

theorem TaskChain.order_eq {c : WorkflowContinuation} (h : c.TaskChain) : c.order = c.taskIds := by
  induction h with
  | last id fields => rfl
  | task id fields next _ ih =>
    unfold order
    rw [ih]
    rfl

end WorkflowContinuation

section hashed

variable [Sha256]

open WorkflowContinuation Submission

variable {job : Submission} {ok : String → Bool} {names : List String} {done : Results} {k : ℕ}

/-- Rehearsing tasks that are fed by no branches composes their functions. -/
theorem compose_of_rehearse (hc : job.continuation.TaskChain)
    (h : job.rehearse ok (names.take k) = some done) (hk : k ≤ names.length) :
    compose job.callbacks (names.take k) job.input = .ok (job.latest done) := by
  induction k generalizing done with
  | zero =>
    obtain rfl : done = [] := by simpa [rehearse] using h.symm
    rfl
  | succ k ih =>
    have hname : names[k]? = some names[k] := List.getElem?_eq_getElem hk
    rw [rehearse_succ hname] at h
    obtain ⟨done', hdone, hplay⟩ := Option.bind_eq_some_iff.mp h
    obtain ⟨x, o, -, hx, ho, rfl⟩ := play_eq_some.mp hplay
    have hfeed : job.feed done' names[k] = .ok (job.latest done') := by
      unfold feed
      rw [hc.findForkBranchesForJoin]
    obtain rfl : job.latest done' = x := Except.ok.inj (hfeed.symm.trans hx)
    rw [compose_succ hname, ih hdone (by omega)]
    exact ho

/-- If their composition has a value, the tasks are rehearsed. -/
theorem rehearse_of_compose (hc : job.continuation.TaskChain) {x : Bytes}
    (h : compose job.callbacks (names.take k) job.input = .ok x) (hk : k ≤ names.length) :
    ∃ done, job.rehearse (fun _ => true) (names.take k) = some done ∧ job.latest done = x := by
  induction k generalizing x with
  | zero => exact ⟨[], rfl, Except.ok.inj h⟩
  | succ k ih =>
    have hname : names[k]? = some names[k] := List.getElem?_eq_getElem hk
    rw [compose_succ hname] at h
    cases hprev : compose job.callbacks (names.take k) job.input with
    | error e => simp [hprev, Except.bind] at h
    | ok y =>
      have ho : job.callbacks.execute names[k] y = .ok x := by
        rw [hprev] at h
        exact h
      obtain ⟨done, hdone, rfl⟩ := ih hprev (by omega)
      refine ⟨(TaskId.sha256 names[k], x) :: done, ?_, by simp [latest]⟩
      rw [rehearse_succ hname, hdone, Option.bind_some, play_eq_some]
      exact ⟨job.latest done, x, rfl, by rw [feed, hc.findForkBranchesForJoin], ho, rfl⟩

/-- The outputs of the plan are those of the composition. -/
theorem compose_of_output (hc : job.continuation.TaskChain) {o : Bytes} (hk : k < names.length)
    (h : (job.planOf ok names).output k = some o) :
    compose job.callbacks (names.take (k + 1)) job.input = .ok o := by
  obtain ⟨done, hdone, hhead⟩ := Option.bind_eq_some_iff.mp h
  rw [compose_of_rehearse hc hdone hk]
  simp [latest, hhead]

/-- The plan of a chain of tasks, all of which may be called. -/
def Submission.chainPlan (job : Submission) : Plan :=
  job.planOf (fun _ => true) job.continuation.taskIds

theorem fits_chainPlan (hc : job.continuation.TaskChain) (hids : job.continuation.ids.Nodup) :
    job.chainPlan.Fits job := by
  unfold chainPlan
  rw [← hc.order_eq]
  exact fits_planOf hc.taskForks hids fun name hs => by simp [hc.stray] at hs

/-- Every run of the pool follows the plan of the chain. -/
theorem follows_chain (hc : job.continuation.TaskChain) (hids : job.continuation.ids.Nodup)
    {C : Action → Pool → Prop} {instanceId : String} {now : Time} {σ : Pool}
    (h : job.Reachable C instanceId now σ) :
    job.chainPlan.WorldRight job σ.world
      ∧ ∀ p ∈ σ.processes, job.chainPlan.Holds job σ.world p.phase := by
  refine Plan.follows_reachable (fits_chainPlan hc hids) (fun a σ _ => ?_) h
  cases a with
  | work i choice =>
    intro p task _ _ k _
    simp [chainPlan, planOf]
  | _ => trivial

/-- An entry that the plan accounts for holds the output of its task. -/
theorem compose_of_entry (hc : job.continuation.TaskChain) {t : TaskId} {o : Bytes}
    (hk : (job.planOf ok names).ids[k]? = some t) (ho : (job.planOf ok names).output k = some o) :
    ∃ before name after, names = before ++ name :: after ∧ t = TaskId.sha256 name
      ∧ compose job.callbacks (before ++ [name]) job.input = .ok o := by
  have hlt : k < names.length := by simpa [Plan.ids, planOf] using Plan.lt_of_getElem? hk
  have hname : names[k]? = some names[k] := List.getElem?_eq_getElem hlt
  refine ⟨names.take k, names[k], names.drop (k + 1), by simp, ?_, ?_⟩
  · simpa [Plan.ids, planOf, hname] using hk.symm
  · have := compose_of_output hc hlt ho
    rwa [List.take_add_one, hname, Option.toList_some] at this

/-- The output of a completed instance is the composition. -/
theorem output_of_completed (hc : job.continuation.TaskChain) (hids : job.continuation.ids.Nodup)
    {C : Action → Pool → Prop} {instanceId : String} {now : Time} {σ : Pool} {s : WorkflowSnapshot}
    {out : Bytes} (h : job.Reachable C instanceId now σ) (hs : σ.world.snapshot = some s)
    (hout : s.state = .completed out) :
    compose job.callbacks job.continuation.taskIds job.input = .ok out := by
  have hstored := (follows_chain hc hids h).1.stored s hs
  obtain ⟨rest, hrest⟩ := hc.taskIds_eq
  rw [hout] at hstored
  have hlen : job.chainPlan.ids.length = job.continuation.taskIds.length := by
    simp [Plan.ids, chainPlan, planOf]
  have hpos : 0 < job.continuation.taskIds.length := by simp [hrest]
  have hlast := hstored.2
  rw [hlen] at hlast
  have hcomp := compose_of_output hc (by omega) hlast
  rwa [Nat.sub_add_cancel hpos, List.take_length] at hcomp

/-- **A pool computes the composition of a chain of tasks.** Whenever the instance is
completed its output is the composition of the task functions, and every entry of every
stored snapshot holds the output of its task in this composition. -/
theorem chain_outputs_right (hc : job.continuation.TaskChain)
    (hids : job.continuation.ids.Nodup) {instanceId : String} {now : Time} {σ : Pool}
    {s : WorkflowSnapshot} (h : job.Reachable (fun _ _ => True) instanceId now σ)
    (hs : σ.world.snapshot = some s) :
    (∀ out, s.state = .completed out →
      compose job.callbacks job.continuation.taskIds job.input = .ok out)
    ∧ ∀ t r, (job.backend.view σ.world s).getTaskResult t = some r →
      ∃ before name after, job.continuation.taskIds = before ++ name :: after
        ∧ t = TaskId.sha256 name
        ∧ compose job.callbacks (before ++ [name]) job.input = .ok r.output := by
  have hstored := (follows_chain hc hids h).1.stored s hs
  refine ⟨fun out hout => output_of_completed hc hids h hs hout, fun t r hr => ?_⟩
  · have hentry : ∃ j, job.chainPlan.ids[j]? = some t ∧ job.chainPlan.output j = some r.output := by
      split at hstored
      · obtain ⟨k, hstage, -⟩ := hstored
        exact hstage.entry hr
      · obtain ⟨k, hstage, -⟩ := hstored
        exact hstage.entry hr
      · exact hstored t r hr
      -- a completed or failed snapshot has no entries
      all_goals
        rename_i hst
        have hsome := isSome_getTaskResult_view (b := job.backend) (w := σ.world) s t
        rw [hr] at hsome
        simp [WorkflowSnapshot.getTaskResult, WorkflowSnapshot.getAllTaskResults, hst] at hsome
    obtain ⟨j, hj, ho⟩ := hentry
    exact compose_of_entry hc hj ho

end hashed

section sample

attribute [local instance] Sha256.packed

/-- The claim of the first worker has expired when it commits, and another one has
executed the task again. -/
theorem chain_outputs_right_after_expiry :
    let σ := perform (twoTasks .postgres).step
      (.poll (sampleWorker "a") :: Action.calls 0 6 ++ .tick (Duration.fromMillis 300000) :: .poll (sampleWorker "b") ::
        Action.calls 1 9 ++ Action.calls 0 1 ++ .poll (sampleWorker "a") :: Action.calls 2 10)
      ((twoTasks .postgres).start "i" 0)
    ∃ s out, σ.world.snapshot = some s ∧ s.state = .completed out
      ∧ compose appendingTasks ["t1", "t2"] [1] = .ok out := by
  intro σ
  have hdone : ∃ s out, σ.world.snapshot = some s ∧ s.state = .completed out := ⟨_, _, rfl, rfl⟩
  obtain ⟨s, out, hs, hout⟩ := hdone
  have hreach : (twoTasks .postgres).Reachable (fun _ _ => True) "i" 0 σ := Walk.perform (by decide)
  have hchain : (twoTasks .postgres).continuation.TaskChain := .task _ _ _ (.last _ _)
  exact ⟨s, out, hs, hout, (chain_outputs_right hchain (by decide) hreach hs).1 out hout⟩

end sample

end Sayiir
