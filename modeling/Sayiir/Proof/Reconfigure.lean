import Sayiir.Proof.Builder
import Mathlib.Data.List.Induction

/-!
# Changing a tree that is already built

`with_metadata` searches the tree for the task that was added last and changes its
fields. A new node stands at the end of the chain, so where the ids are distinct the
search passes over the whole chain and the change stays inside the node. The search
does not enter fork branches and child workflows, and finds only tasks.
-/

namespace Sayiir

open WorkflowContinuation

namespace WorkflowContinuation

variable {o : Option WorkflowContinuation} {last : String}

/-! ## Task nodes -/

/-- The id and the fields of a task node. -/
def asTask : WorkflowContinuation → Option (String × TaskFields)
  | .task id fields _ => some (id, fields)
  | _ => none

/-- The task nodes of the tree. -/
def taskNodes (c : WorkflowContinuation) : List (String × TaskFields) :=
  c.subtrees.filterMap asTask

/-- The task nodes of a chain that may be empty. -/
def taskNodesNext (o : Option WorkflowContinuation) : List (String × TaskFields) :=
  (subtreesNext o).filterMap asTask

@[simp] theorem asTask_bare (c : WorkflowContinuation) : c.bare.asTask = c.asTask := by
  cases c <;> rfl

theorem taskNodesNext_eq (o : Option WorkflowContinuation) :
    taskNodesNext o = (nodesNext o).filterMap asTask := by
  rw [nodesNext, List.filterMap_map, taskNodesNext]
  exact List.filterMap_congr fun n _ => (asTask_bare n).symm

theorem taskNodes_eq (c : WorkflowContinuation) : c.taskNodes = c.nodes.filterMap asTask :=
  taskNodesNext_eq (some c)

theorem taskNodes_appendNext (n : WorkflowContinuation) (o : Option WorkflowContinuation) :
    (appendNext n o).taskNodes = taskNodesNext o ++ n.taskNodes := by
  rw [taskNodes_eq, nodes_appendNext, List.filterMap_append, ← taskNodesNext_eq, ← taskNodes_eq]

/-- Where the ids are distinct, an id has one task node. -/
theorem taskNodes_unique {c : WorkflowContinuation} (hc : c.taskIds.Nodup) {id : String}
    {fields fields' : TaskFields} (h : (id, fields) ∈ c.taskNodes)
    (h' : (id, fields') ∈ c.taskNodes) : fields = fields' := by
  obtain ⟨n, hn, hp⟩ := List.mem_filterMap.mp h
  obtain ⟨n', hn', hp'⟩ := List.mem_filterMap.mp h'
  rw [← map_id_subtrees] at hc
  have hid : ∀ {m : WorkflowContinuation} {g : TaskFields}, m.asTask = some (id, g) →
      m.id = id := by
    intro m g hm
    cases m with
    | task => exact congrArg Prod.fst (Option.some.inj hm)
    | _ => cases hm
  have heq : n = n' :=
    List.inj_on_of_nodup_map hc hn hn' ((hid hp).trans (hid hp').symm)
  subst heq
  rw [hp] at hp'
  exact congrArg Prod.snd (Option.some.inj hp')

/-- A view of nodes in which the fields of a task, except for its implementation, do not
show. -/
def Blind {α : Type} (g : WorkflowContinuation → α) : Prop :=
  ∀ id (fields fields' : TaskFields), fields.func = fields'.func →
    g (.task id fields none) = g (.task id fields' none)

theorem blind_id : Blind id := fun _ _ _ _ => rfl

/-! ## Changing the last node -/

section update

variable [Sha256] {tid : TaskId} {f : TaskFields → TaskFields}

/-- A search for an id that no node has finds nothing. -/
theorem updateTask_eq_none {c : WorkflowContinuation} (h : tid ∉ c.ids) :
    c.updateTask tid f = none := by
  have hnext : ∀ o : Option WorkflowContinuation,
      (∀ k, o = some k → tid ∉ k.ids → k.updateTask tid f = none) → tid ∉ idsNext o →
        updateNext tid f o = none := by
    intro o ih ho
    cases o with
    | none => rfl
    | some k => exact ih k rfl ho
  induction c using induct with
  | task id fields next ih =>
    simp only [ids_task, List.mem_cons, not_or] at h
    rw [updateTask, if_neg (Ne.symm h.1), hnext next ih h.2, Option.map_none]
  | delay id duration next ih =>
    simp only [ids_delay, List.mem_cons, not_or] at h
    rw [updateTask, hnext next ih h.2, Option.map_none]
  | awaitSignal id signalName timeout next ih =>
    simp only [ids_awaitSignal, List.mem_cons, not_or] at h
    rw [updateTask, hnext next ih h.2, Option.map_none]
  | fork id branches join ihb ihj =>
    simp only [ids_fork, List.mem_cons, List.mem_append, not_or] at h
    rw [updateTask, hnext join ihj h.2.2, Option.map_none]
  | branch id keyFn branches default next ihb ihd ihn =>
    simp only [ids_branch, List.mem_cons, List.mem_append, not_or] at h
    have hroutes : ∀ rs : List (String × WorkflowContinuation),
        (∀ r ∈ rs, tid ∉ r.2.ids → r.2.updateTask tid f = none) → tid ∉ idsRoutes rs →
          updateRoutes tid f rs = none := by
      intro rs ih hrs
      induction rs with
      | nil => rfl
      | cons r rs ihrs =>
        simp only [idsRoutes_cons, List.mem_append, not_or] at hrs
        rw [updateRoutes, ih r List.mem_cons_self hrs.1]
        simp only
        rw [ihrs (fun r hr => ih r (List.mem_cons_of_mem _ hr)) hrs.2, Option.map_none]
    rw [updateTask, hroutes branches ihb h.2.1]
    simp only
    rw [hnext default ihd h.2.2.1]
    simp only
    rw [hnext next ihn h.2.2.2, Option.map_none]
  | loop id body maxIterations onMax next ihb ihn =>
    simp only [ids_loop, List.mem_cons, List.mem_append, not_or] at h
    rw [updateTask, ihb h.2.1]
    simp only
    rw [hnext next ihn h.2.2, Option.map_none]
  | childWorkflow id child next ihc ihn =>
    simp only [ids_childWorkflow, List.mem_cons, List.mem_append, not_or] at h
    rw [updateTask, hnext next ihn h.2.2, Option.map_none]

theorem updateNext_eq_none (h : tid ∉ idsNext o) :
    updateNext tid f o = none := by
  cases o with
  | none => rfl
  | some k => exact updateTask_eq_none h

theorem updateRoutes_eq_none {rs : List (String × WorkflowContinuation)}
    (h : tid ∉ idsRoutes rs) : updateRoutes tid f rs = none := by
  induction rs with
  | nil => rfl
  | cons r rs ih =>
    simp only [idsRoutes_cons, List.mem_append, not_or] at h
    rw [updateRoutes, updateTask_eq_none h.1]
    simp only
    rw [ih h.2, Option.map_none]

/-- A search for an id that the chain does not have goes on behind it. -/
theorem updateTask_appendToChain (n : WorkflowContinuation) {c : WorkflowContinuation}
    (h : tid ∉ c.ids) :
    (appendToChain n c).updateTask tid f = (n.updateTask tid f).map (appendToChain · c) := by
  have hnext : ∀ o : Option WorkflowContinuation,
      (∀ k, o = some k → tid ∉ k.ids → (appendToChain n k).updateTask tid f
        = (n.updateTask tid f).map (appendToChain · k)) → tid ∉ idsNext o →
        (appendNext n o).updateTask tid f = (n.updateTask tid f).map (appendNext · o) := by
    intro o ih ho
    cases o with
    | none => exact Option.map_id'.symm ▸ rfl
    | some k => exact ih k rfl ho
  induction c using induct with
  | task id fields next ih =>
    simp only [ids_task, List.mem_cons, not_or] at h
    rw [appendToChain, updateTask, if_neg (Ne.symm h.1), updateNext, hnext next ih h.2,
      Option.map_map]
    rfl
  | delay id duration next ih =>
    simp only [ids_delay, List.mem_cons, not_or] at h
    rw [appendToChain, updateTask, updateNext, hnext next ih h.2, Option.map_map]
    rfl
  | awaitSignal id signalName timeout next ih =>
    simp only [ids_awaitSignal, List.mem_cons, not_or] at h
    rw [appendToChain, updateTask, updateNext, hnext next ih h.2, Option.map_map]
    rfl
  | fork id branches join ihb ihj =>
    simp only [ids_fork, List.mem_cons, List.mem_append, not_or] at h
    rw [appendToChain, updateTask, updateNext, hnext join ihj h.2.2, Option.map_map]
    rfl
  | branch id keyFn branches default next ihb ihd ihn =>
    simp only [ids_branch, List.mem_cons, List.mem_append, not_or] at h
    rw [appendToChain, updateTask, updateRoutes_eq_none h.2.1]
    simp only
    rw [updateNext_eq_none h.2.2.1]
    simp only
    rw [updateNext, hnext next ihn h.2.2.2, Option.map_map]
    rfl
  | loop id body maxIterations onMax next ihb ihn =>
    simp only [ids_loop, List.mem_cons, List.mem_append, not_or] at h
    rw [appendToChain, updateTask, updateTask_eq_none h.2.1]
    simp only
    rw [updateNext, hnext next ihn h.2.2, Option.map_map]
    rfl
  | childWorkflow id child next ihc ihn =>
    simp only [ids_childWorkflow, List.mem_cons, List.mem_append, not_or] at h
    rw [appendToChain, updateTask, updateNext, hnext next ihn h.2.2, Option.map_map]
    rfl

theorem setTask_appendNext (n : WorkflowContinuation) (h : tid ∉ idsNext o) :
    (appendNext n o).setTask tid f = appendNext (n.setTask tid f) o := by
  cases o with
  | none => rfl
  | some c =>
    unfold setTask
    simp only [appendNext]
    rw [updateTask_appendToChain n h]
    cases n.updateTask tid f <;> rfl

end update

/-- What `with_metadata` does to a tree. -/
def configure [Sha256] (last : String) (m : TaskMetadata) (c : WorkflowContinuation) :
    WorkflowContinuation :=
  ((c.setTaskTimeout (TaskId.sha256 last) m.timeout).setTaskRetryPolicy (TaskId.sha256 last)
    m.retries).setTaskVersion (TaskId.sha256 last) m.version

section configure

variable [Sha256]

theorem configure_appendNext (n : WorkflowContinuation)
    (h : TaskId.sha256 last ∉ idsNext o) (m : TaskMetadata) :
    (appendNext n o).configure last m = appendNext (n.configure last m) o := by
  unfold configure setTaskTimeout setTaskRetryPolicy setTaskVersion
  rw [setTask_appendNext n h, setTask_appendNext _ h, setTask_appendNext _ h]

end configure

end WorkflowContinuation

/-- What `with_metadata` does to the fields of a node. -/
def TaskFields.configure (m : TaskMetadata) (fields : TaskFields) : TaskFields :=
  { fields with timeout := m.timeout, retryPolicy := m.retries, version := m.version }

/-- Of several `with_metadata` in a row the last one counts. -/
theorem TaskFields.foldl_configure (fields : TaskFields) (ms : List TaskMetadata) :
    ms.foldl (fun f m => f.configure m) fields
      = match ms.getLast? with
        | none => fields
        | some m => fields.configure m := by
  induction ms using List.reverseRecOn with
  | nil => rfl
  | append_singleton ms m ih =>
    rw [List.foldl_append, ih, List.getLast?_append]
    simp only [List.getLast?_singleton]
    cases ms.getLast? <;> rfl

section metadata

variable [Sha256]

open WorkflowContinuation (appendNext nodesNext idsNext)

namespace WorkflowContinuation

theorem foldl_configure_task (id : String) (fields : TaskFields) (ms : List TaskMetadata) :
    ms.foldl (fun n m => configure id m n) (task id fields none)
      = task id (ms.foldl (fun f m => f.configure m) fields) none := by
  induction ms generalizing fields with
  | nil => rfl
  | cons m ms ih =>
    have hstep : configure id m (task id fields none) = task id (fields.configure m) none := by
      simp [configure, setTaskTimeout, setTaskRetryPolicy, setTaskVersion, setTask, updateTask,
        TaskFields.configure]
    rw [List.foldl_cons, hstep, ih, List.foldl_cons]

/-- In a fork the search finds the join. -/
theorem foldl_configure_fork (forkId id : String) (branches : List WorkflowContinuation)
    (fields : TaskFields) (ms : List TaskMetadata) :
    ms.foldl (fun n m => configure id m n) (fork forkId branches (some (task id fields none)))
      = fork forkId branches (some (task id (ms.foldl (fun f m => f.configure m) fields) none)) := by
  induction ms generalizing fields with
  | nil => rfl
  | cons m ms ih =>
    have hstep : configure id m (fork forkId branches (some (task id fields none)))
        = fork forkId branches (some (task id (fields.configure m) none)) := by
      simp [configure, setTaskTimeout, setTaskRetryPolicy, setTaskVersion, setTask, updateTask,
        updateNext, TaskFields.configure]
    rw [List.foldl_cons, hstep, ih, List.foldl_cons]

/-- A node in which the search finds nothing stays as it is. -/
theorem foldl_configure_of_eq_none {n : WorkflowContinuation}
    (h : ∀ f, n.updateTask (TaskId.sha256 last) f = none) (ms : List TaskMetadata) :
    ms.foldl (fun n m => n.configure last m) n = n := by
  induction ms with
  | nil => rfl
  | cons m ms ih =>
    have hstep : n.configure last m = n := by
      simp [configure, setTaskTimeout, setTaskRetryPolicy, setTaskVersion, setTask, h]
    rw [List.foldl_cons, hstep, ih]

section blind

variable {α : Type} {g : WorkflowContinuation → α}

/-- A change of the fields of a task leaves such a view of the tree as it is. -/
theorem map_nodes_updateTask (hg : Blind g) {tid : TaskId} {f : TaskFields → TaskFields}
    (hf : ∀ fields, (f fields).func = fields.func) {c c' : WorkflowContinuation}
    (h : c.updateTask tid f = some c') : c'.nodes.map g = c.nodes.map g := by
  have hnext : ∀ {o : Option WorkflowContinuation} {k : WorkflowContinuation},
      (∀ n, o = some n → ∀ {n'}, n.updateTask tid f = some n' →
        n'.nodes.map g = n.nodes.map g) →
        updateNext tid f o = some k →
          ((subtreesNext (some k)).map bare).map g = ((subtreesNext o).map bare).map g := by
    intro o k ih ho
    cases o with
    | none => cases ho
    | some n => exact ih n rfl ho
  induction c using induct generalizing c' with
  | task id fields next ih =>
    rw [updateTask] at h
    split at h
    · obtain rfl := Option.some.inj h
      simp only [nodes, subtrees, List.map_cons, bare, hg id (f fields) fields (hf fields)]
    · obtain ⟨k, hk, rfl⟩ := Option.map_eq_some_iff.mp h
      simp only [Function.comp, nodes, subtrees, List.map_cons, bare, hnext ih hk]
  | delay id duration next ih =>
    rw [updateTask] at h
    obtain ⟨k, hk, rfl⟩ := Option.map_eq_some_iff.mp h
    simp only [Function.comp, nodes, subtrees, List.map_cons, bare, hnext ih hk]
  | awaitSignal id signalName timeout next ih =>
    rw [updateTask] at h
    obtain ⟨k, hk, rfl⟩ := Option.map_eq_some_iff.mp h
    simp only [Function.comp, nodes, subtrees, List.map_cons, bare, hnext ih hk]
  | fork id branches join ihb ihj =>
    rw [updateTask] at h
    obtain ⟨k, hk, rfl⟩ := Option.map_eq_some_iff.mp h
    simp only [Function.comp, nodes, subtrees, List.map_cons, List.map_append, bare, hnext ihj hk]
  | branch id keyFn branches default next ihb ihd ihn =>
    have hroutes : ∀ {rs rs' : List (String × WorkflowContinuation)},
        (∀ r ∈ rs, ∀ {n'}, r.2.updateTask tid f = some n' → n'.nodes.map g = r.2.nodes.map g) →
          updateRoutes tid f rs = some rs' →
            ((subtreesRoutes rs').map bare).map g = ((subtreesRoutes rs).map bare).map g := by
      intro rs rs' ih hrs
      induction rs generalizing rs' with
      | nil => cases hrs
      | cons r rs ihrs =>
        rw [updateRoutes] at hrs
        split at hrs
        case h_1 c hc =>
          obtain rfl := Option.some.inj hrs
          have hr := ih r List.mem_cons_self hc
          simp only [nodes] at hr
          simp only [subtreesRoutes, List.map_append, hr]
        case h_2 =>
          obtain ⟨rs'', hrs'', rfl⟩ := Option.map_eq_some_iff.mp hrs
          simp only [subtreesRoutes, List.map_append,
            ihrs (fun r hr => ih r (List.mem_cons_of_mem _ hr)) hrs'']
    rw [updateTask] at h
    split at h
    case h_1 rs hrs =>
      obtain rfl := Option.some.inj h
      simp only [nodes, subtrees, List.map_cons, List.map_append, bare, hroutes ihb hrs]
    case h_2 =>
      split at h
      case h_1 d hd =>
        obtain rfl := Option.some.inj h
        simp only [nodes, subtrees, List.map_cons, List.map_append, bare, hnext ihd hd]
      case h_2 =>
        obtain ⟨k, hk, rfl⟩ := Option.map_eq_some_iff.mp h
        simp only [Function.comp, nodes, subtrees, List.map_cons, List.map_append, bare,
          hnext ihn hk]
  | loop id body maxIterations onMax next ihb ihn =>
    rw [updateTask] at h
    split at h
    case h_1 body' hbody =>
      obtain rfl := Option.some.inj h
      have hb := ihb hbody
      simp only [nodes] at hb
      simp only [nodes, subtrees, List.map_cons, List.map_append, bare, hb]
    case h_2 =>
      obtain ⟨k, hk, rfl⟩ := Option.map_eq_some_iff.mp h
      simp only [Function.comp, nodes, subtrees, List.map_cons, List.map_append, bare,
        hnext ihn hk]
  | childWorkflow id child next ihc ihn =>
    rw [updateTask] at h
    obtain ⟨k, hk, rfl⟩ := Option.map_eq_some_iff.mp h
    simp only [Function.comp, nodes, subtrees, List.map_cons, List.map_append, bare, hnext ihn hk]

theorem map_nodes_configure (hg : Blind g) (last : String) (m : TaskMetadata)
    (c : WorkflowContinuation) : (c.configure last m).nodes.map g = c.nodes.map g := by
  have hset : ∀ (tid : TaskId) {f : TaskFields → TaskFields}
      (_ : ∀ fields, (f fields).func = fields.func) (c : WorkflowContinuation),
      (c.setTask tid f).nodes.map g = c.nodes.map g := by
    intro tid f hf c
    unfold setTask
    cases h : c.updateTask tid f with
    | none => rfl
    | some c' => exact map_nodes_updateTask hg hf h
  unfold configure setTaskTimeout setTaskRetryPolicy setTaskVersion
  rw [hset, hset, hset]
  all_goals exact fun _ => rfl

end blind

theorem taskIds_configure (last : String) (m : TaskMetadata) (c : WorkflowContinuation) :
    (c.configure last m).taskIds = c.taskIds := by
  rw [← map_id_nodes, ← map_id_nodes, map_nodes_configure blind_id]

end WorkflowContinuation

namespace WorkflowBuilder

theorem withMetadata_eq {b : WorkflowBuilder} (h : b.lastTaskId = some last) (m : TaskMetadata) :
    b.withMetadata m = { b with
      registry := b.registry.map fun r => TaskRegistry.setMetadata last m r
      continuation := b.continuation.map (·.configure last m) } := by
  unfold withMetadata
  rw [h]
  rfl

/-- The calls behind a step change its node only. -/
theorem foldl_withMetadata {b : WorkflowBuilder} {n : WorkflowContinuation}
    (hc : b.continuation = some (appendNext n o))
    (hlast : b.lastTaskId = some last) (hnew : TaskId.sha256 last ∉ idsNext o)
    (ms : List TaskMetadata) :
    (ms.foldl (fun b m => b.withMetadata m) b).continuation
      = some (appendNext (ms.foldl (fun n m => n.configure last m) n) o) := by
  induction ms generalizing b n with
  | nil => exact hc
  | cons m ms ih =>
    rw [List.foldl_cons, List.foldl_cons, withMetadata_eq hlast]
    refine ih ?_ hlast
    rw [hc, Option.map_some, configure_appendNext n hnew]

theorem foldl_withMetadata_errors (b : WorkflowBuilder) (ms : List TaskMetadata) :
    (ms.foldl (fun b m => b.withMetadata m) b).errors = b.errors := by
  induction ms generalizing b with
  | nil => rfl
  | cons m ms ih =>
    rw [List.foldl_cons, ih]
    unfold withMetadata
    split <;> rfl

theorem map_nodesNext_foldl_withMetadata {α : Type} {g : WorkflowContinuation → α}
    (hg : WorkflowContinuation.Blind g) (b : WorkflowBuilder) (ms : List TaskMetadata) :
    (nodesNext (ms.foldl (fun b m => b.withMetadata m) b).continuation).map g
      = (nodesNext b.continuation).map g := by
  induction ms generalizing b with
  | nil => rfl
  | cons m ms ih =>
    rw [List.foldl_cons, ih]
    cases hlast : b.lastTaskId with
    | none => rw [withMetadata, hlast]
    | some last =>
      rw [withMetadata_eq hlast]
      cases b.continuation with
      | none => rfl
      | some c => exact map_nodes_configure hg last m c

end WorkflowBuilder

theorem Stage.run_errors (s : Stage) (b : WorkflowBuilder) :
    (s.run b).errors = (s.step.run b).errors :=
  WorkflowBuilder.foldl_withMetadata_errors _ _

theorem WorkflowBuilder.errors_calls (b : WorkflowBuilder) (stages : List Stage) :
    b.errors <+: (b.calls stages).errors := by
  induction stages generalizing b with
  | nil => exact List.prefix_refl _
  | cons s stages ih =>
    have hstage : b.errors <+: (s.run b).errors := s.run_errors b ▸ s.step.run_errors b
    exact hstage.trans (ih (s.run b))

/-- Without errors at the end there were none after the first stage. -/
theorem Stage.run_errors_eq_nil {s : Stage} {b : WorkflowBuilder} {stages : List Stage}
    (h : (b.calls (s :: stages)).errors = []) : (s.run b).errors = [] := by
  have hinit := (s.run b).errors_calls stages
  rw [show ((s.run b).calls stages).errors = [] from h, List.prefix_nil] at hinit
  exact hinit

end metadata

end Sayiir
