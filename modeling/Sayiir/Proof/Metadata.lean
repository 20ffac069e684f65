import Sayiir.Proof.Reconfigure

/-!
# The metadata of built tasks

A task can get its timeout, retry policy, version, priority and tags from the
struct it was made as, from its entry in the registry, or from the `with_metadata`
call behind it. Every method of the builder copies them on its own, and not every
method copies all. This module says which metadata is configured for the tasks of a
sequence of calls and when the nodes of the built tree carry it.
-/

namespace Sayiir

open WorkflowBuilder

variable {calls : List ForkCall} {stages : List Stage} {r : RouteBuilder} {s : Stage} {id : String}
  {md : TaskMetadata} {b : WorkflowBuilder} {c : WorkflowContinuation}

/-! ## What is configured -/

/-- A branch that a `branches` closure added, with the metadata of the struct or of the
registry entry. -/
def CollectorCall.configured (b : WorkflowBuilder) : CollectorCall → String × TaskMetadata
  | add id => (id, b.getMetadata id)
  | addTaskWith task => (task.taskId, task.metadata)

/-- A branch of a fork with its metadata. A function is registered without any. -/
def ForkCall.configured (b : WorkflowBuilder) : ForkCall → String × TaskMetadata
  | branch id => (id, default)
  | branchTaskWith task => (task.taskId, task.metadata)
  | branchRegistered id => (id, b.getMetadata id)

/-- The chains of a route that are not replaced by a later one for the same key. -/
def survivors {α : Type} (branches : List (Option String × α)) : List (Option String × α) :=
  branches.foldl (fun kept r => kept.filter (fun k => k.1 ≠ r.1) ++ [r]) []

/-- The tasks of a routed chain. -/
def SubCall.configured : SubCall → Option (String × TaskMetadata)
  | thenFn id => some (id, default)
  | delay _ _ | waitForSignal _ _ _ => none

namespace Step

/-- The tasks in the branches that the step adds, with the metadata configured for
them. The tasks of a child workflow were added by the builder of the child. -/
def branchTasks (b : WorkflowBuilder) : Step → List (String × TaskMetadata)
  | join collected calls _ | joinRegistered collected calls _ =>
    collected.map (·.configured b) ++ calls.map (·.configured b)
  | route _ branches => (survivors branches).flatMap fun r => r.2.filterMap SubCall.configured
  | routeRegistered _ branches =>
    (survivors branches).flatMap fun r => r.2.map fun id => (id, b.getMetadata id)
  | _ => []

/-- The task that a `with_metadata` behind the step is meant for, with the metadata
it has without. -/
def lastTask (b : WorkflowBuilder) : Step → Option (String × TaskMetadata)
  | thenFn id | loopTaskWithPolicy id _ _ | join _ _ id => some (id, default)
  | thenTaskWith task | loopTaskStructWithPolicy task _ _ => some (task.taskId, task.metadata)
  | thenRegistered id | loopTaskRegistered id _ _ | joinRegistered _ _ id =>
    some (id, b.getMetadata id)
  | _ => none

def isLoop : Step → Bool
  | loopTaskWithPolicy _ _ _ | loopTaskStructWithPolicy _ _ _ | loopTaskRegistered _ _ _ => true
  | _ => false

end Step

/-- The tasks that a stage adds, each with the metadata configured for it: that of the
last `with_metadata` behind it, else its own. -/
def Stage.configured (b : WorkflowBuilder) (s : Stage) : List (String × TaskMetadata) :=
  s.step.branchTasks b
    ++ (s.step.lastTask b).toList.map fun p => (p.1, s.metadata.getLast?.getD p.2)

/-- The tasks that a sequence of calls adds, with their metadata. -/
def configured [Sha256] : WorkflowBuilder → List Stage → List (String × TaskMetadata)
  | _, [] => []
  | b, s :: stages => s.configured b ++ configured (s.run b) stages

/-! ## Where it arrives -/

/-- The branches of the step keep their metadata: `join` drops it, and
`join_registered` takes that of the registry, where the structs of a `branches`
closure are not entered. -/
def Step.KeepsBranches (b : WorkflowBuilder) : Step → Prop
  | join collected calls id =>
    ∀ p ∈ branchTasks b (join collected calls id), p.2 = default
  | joinRegistered collected _ _ =>
    ∀ task, .addTaskWith task ∈ collected → task.metadata = b.getMetadata task.taskId
  | _ => True

/-- The task takes over what `with_metadata` gives: nothing if it is the body of a
loop, and else everything but the priority and the tags. -/
def Step.Takes (b : WorkflowBuilder) (m : TaskMetadata) (step : Step) : Prop :=
  ∀ p ∈ step.lastTask b,
    if step.isLoop then m = p.2 else m.priority = p.2.priority ∧ m.tags = p.2.tags

/-- Nothing configured by the stage is lost. -/
structure Stage.Faithful (b : WorkflowBuilder) (s : Stage) : Prop where
  branches : s.step.KeepsBranches b
  last : ∀ m ∈ s.metadata.getLast?, s.step.Takes b m

/-- Nothing configured by the calls is lost. -/
def Faithful [Sha256] : WorkflowBuilder → List Stage → Prop
  | _, [] => True
  | b, s :: stages => s.Faithful b ∧ Faithful (s.run b) stages

/-! ## Fields -/

theorem Priority.asU8_injective : Function.Injective Priority.asU8 := by
  intro a b h
  cases a <;> cases b <;> first | rfl | (revert h; decide)

theorem TaskMetadata.fields_injective (func : Bool) :
    Function.Injective (TaskMetadata.fields func) := by
  intro m m' h
  have hpriority := congrArg TaskFields.priority h
  have hpriority := Option.map_injective Priority.asU8_injective hpriority
  cases m
  cases m'
  simp only [fields, TaskFields.mk.injEq, true_and] at h hpriority
  rw [TaskMetadata.mk.injEq]
  exact ⟨h.1, h.2.1, h.2.2.2.2, h.2.2.1, hpriority⟩

/-- The fields after `with_metadata` are those of the metadata if priority and tags were. -/
theorem TaskMetadata.configure_fields_iff (m md : TaskMetadata) :
    (md.fields true).configure m = m.fields true
      ↔ m.priority = md.priority ∧ m.tags = md.tags := by
  constructor
  · intro h
    have hpriority : md.priority.map Priority.asU8 = m.priority.map Priority.asU8 :=
      congrArg TaskFields.priority h
    exact ⟨(Option.map_injective Priority.asU8_injective hpriority).symm,
      (congrArg TaskFields.tags h).symm⟩
  · rintro ⟨hpriority, htags⟩
    simp only [TaskFields.configure, fields, hpriority, htags]

/-- The node of a task that takes `with_metadata` carries what is configured exactly if
priority and tags stay as they were. -/
theorem mem_taskNodes_iff_of_configured (hc : c.taskIds.Nodup) {ms : List TaskMetadata}
    (h : (id, ms.foldl (fun f m => f.configure m) (md.fields true)) ∈ c.taskNodes) :
    (id, (ms.getLast?.getD md).fields true) ∈ c.taskNodes
      ↔ ∀ m ∈ ms.getLast?, m.priority = md.priority ∧ m.tags = md.tags := by
  rw [TaskFields.foldl_configure] at h
  cases hlast : ms.getLast? with
  | none =>
    rw [hlast] at h
    simpa using h
  | some m =>
    rw [hlast] at h
    simp only [Option.getD_some, Option.mem_some_iff, forall_eq',
      ← TaskMetadata.configure_fields_iff]
    exact ⟨fun h' => WorkflowContinuation.taskNodes_unique hc h h', fun heq => heq ▸ h⟩

/-- A node that `with_metadata` does not reach carries its own metadata. -/
theorem mem_taskNodes_iff_of_own (hc : c.taskIds.Nodup)
    {ms : List TaskMetadata} (h : (id, md.fields true) ∈ c.taskNodes) :
    (id, (ms.getLast?.getD md).fields true) ∈ c.taskNodes ↔ ∀ m ∈ ms.getLast?, m = md := by
  cases hlast : ms.getLast? with
  | none => simpa using h
  | some m =>
    simp only [Option.getD_some, Option.mem_some_iff, forall_eq']
    constructor
    · intro h'
      exact TaskMetadata.fields_injective true (WorkflowContinuation.taskNodes_unique hc h' h)
    · rintro rfl
      exact h

/-! ## Forks -/

theorem ForkCall.fst_configured (b : WorkflowBuilder) (call : ForkCall) :
    (call.configured b).1 = call.id := by
  cases call <;> rfl

theorem CollectorCall.fst_configured (b : WorkflowBuilder) (call : CollectorCall) :
    (call.configured b).1 = call.id := by
  cases call <;> rfl

theorem WorkflowBuilder.getMetadata_maybeRegister (id key : String) (m : TaskMetadata)
    (b : WorkflowBuilder) :
    (b.maybeRegister key m).getMetadata id
      = if id = key ∧ b.registry.isSome then m else b.getMetadata id := by
  unfold getMetadata maybeRegister
  cases b.registry with
  | none => simp
  | some r =>
    by_cases hid : id = key
    · subst hid; simp
    · simp [hid, AList.lookup_insert_ne hid]

/-- A call changes no entry but that of its branch. -/
theorem ForkCall.run_getMetadata {call : ForkCall} (h : id ≠ call.id)
    (f : ForkBuilder) : (call.run f).parent.getMetadata id = f.parent.getMetadata id := by
  cases call with
  | branch name =>
    refine (getMetadata_maybeRegister id name default f.parent).trans ?_
    rw [if_neg fun hid => h hid.1]
  | branchTaskWith task =>
    refine (getMetadata_maybeRegister id task.taskId _ f.parent).trans ?_
    rw [if_neg fun hid => h hid.1]
  | branchRegistered name =>
    simp only [run, ForkBuilder.branchRegistered]
    split <;> rfl

theorem ForkCall.foldl_getMetadata (h : id ∉ calls.map ForkCall.id) (f : ForkBuilder) :
    (calls.foldl (fun f call => call.run f) f).parent.getMetadata id = f.parent.getMetadata id := by
  induction calls generalizing f with
  | nil => rfl
  | cons call calls ih =>
    rw [List.map_cons, List.mem_cons, not_or] at h
    rw [List.foldl_cons, ih h.2, ForkCall.run_getMetadata h.1]

/-- The entry of a branch, when the join looks it up, has the metadata configured for
the branch. -/
theorem ForkCall.foldl_getMetadata_configured {f : ForkBuilder}
    (hnodup : (calls.map ForkCall.id).Nodup) (hregistry : f.parent.registry.isSome = true)
    {call : ForkCall} (hcall : call ∈ calls) :
    (calls.foldl (fun f call => call.run f) f).parent.getMetadata call.id
      = (call.configured f.parent).2 := by
  induction calls generalizing f with
  | nil => cases hcall
  | cons c calls ih =>
    rw [List.map_cons, List.nodup_cons] at hnodup
    rw [List.foldl_cons]
    rcases List.mem_cons.mp hcall with rfl | hcall
    · rw [ForkCall.foldl_getMetadata hnodup.1]
      cases call with
      | branch id =>
        refine (getMetadata_maybeRegister id id default f.parent).trans ?_
        rw [if_pos ⟨rfl, hregistry⟩]
        rfl
      | branchTaskWith task =>
        refine (getMetadata_maybeRegister task.taskId task.taskId _
          f.parent).trans ?_
        rw [if_pos ⟨rfl, hregistry⟩]
        rfl
      | branchRegistered id =>
        simp only [run, ForkBuilder.branchRegistered]
        split <;> rfl
    · have hne : call.id ≠ c.id := fun h => hnodup.1 (h ▸ List.mem_map_of_mem hcall)
      rw [ih hnodup.2 ((c.grows f).registry.trans hregistry) hcall]
      cases call with
      | branch id => rfl
      | branchTaskWith task => rfl
      | branchRegistered id => exact c.run_getMetadata hne f

theorem WorkflowBuilder.registry_isSome_of_get (h : b.get id = true) :
    b.registry.isSome = true := by
  unfold get at h
  cases hb : b.registry with
  | none => rw [hb] at h; cases h
  | some r => rfl

theorem ForkBuilder.taskIds_node (fields : String → TaskFields) (joinId : String)
    (joinFields : TaskFields) (f : ForkBuilder) :
    (f.node fields joinId joinFields).taskIds
      = WorkflowContinuation.deriveForkId f.branches :: (f.branches ++ [joinId]) := by
  have hid : (WorkflowContinuation.id ∘ fun id => .task id (fields id) none) = id := rfl
  rw [← WorkflowContinuation.map_id_nodes, nodes_node, List.map_cons, List.map_append,
    List.map_map, hid, List.map_id]
  rfl

theorem ForkBuilder.taskNodes_node (fields : String → TaskFields) (joinId : String)
    (joinFields : TaskFields) (f : ForkBuilder) :
    (f.node fields joinId joinFields).taskNodes
      = f.branches.map (fun id => (id, fields id)) ++ [(joinId, joinFields)] := by
  rw [WorkflowContinuation.taskNodes_eq, nodes_node, List.filterMap_cons, List.filterMap_append,
    List.filterMap_map]
  have hbranches : f.branches.filterMap (WorkflowContinuation.asTask ∘ fun id =>
      .task id (fields id) none) = f.branches.map fun id => (id, fields id) := by
    rw [← List.filterMap_eq_map]
    rfl
  rw [hbranches]
  rfl

theorem map_fst_branchTasks (b : WorkflowBuilder) (collected : List CollectorCall)
    (calls : List ForkCall) :
    (collected.map (·.configured b) ++ calls.map (·.configured b)).map Prod.fst
      = collected.map CollectorCall.id ++ calls.map ForkCall.id := by
  rw [List.map_append, List.map_map, List.map_map]
  congr 1
  · exact List.map_congr_left fun call _ => call.fst_configured b
  · exact List.map_congr_left fun call _ => call.fst_configured b

/-- The registry entries that `join_registered` copies are the configured ones, except
for the structs of a `branches` closure. -/
theorem joinRegistered_keepsBranches_iff {collected : List CollectorCall}
    (hregistry : b.registry.isSome = true)
    (hnodup : (collected.map CollectorCall.id ++ calls.map ForkCall.id).Nodup) :
    (∀ p ∈ (Step.joinRegistered collected calls id).branchTasks b,
      ((forkBuilder collected calls b).parent.getMetadata p.1).fields true = p.2.fields true)
      ↔ (Step.joinRegistered collected calls id).KeepsBranches b := by
  obtain ⟨-, hcalls, hdisjoint⟩ := List.nodup_append.mp hnodup
  have hcollected : ∀ call ∈ collected,
      (forkBuilder collected calls b).parent.getMetadata call.id = b.getMetadata call.id := by
    intro call hcall
    refine ForkCall.foldl_getMetadata (fun hmem => ?_) (.ofBranches collected b)
    exact hdisjoint _ (List.mem_map_of_mem hcall) _ hmem rfl
  constructor
  · intro h task htask
    have hp := h _ (List.mem_append_left _ (List.mem_map_of_mem htask))
    have heq := hcollected _ htask
    exact (TaskMetadata.fields_injective true hp).symm.trans heq
  · intro h p hp
    rcases List.mem_append.mp hp with hp | hp
    · obtain ⟨call, hcall, rfl⟩ := List.mem_map.mp hp
      cases call with
      | add name => exact congrArg _ (hcollected _ hcall)
      | addTaskWith task =>
        exact congrArg _ ((hcollected _ hcall).trans (h task hcall).symm)
    · obtain ⟨call, hcall, rfl⟩ := List.mem_map.mp hp
      rw [call.fst_configured]
      exact congrArg _ (ForkCall.foldl_getMetadata_configured hcalls hregistry hcall)

/-! ## Routes -/

open WorkflowContinuation (appendNext taskNodesNext)

theorem mem_survivors_append {α : Type} {branches : List (Option String × α)}
    {x y : Option String × α} :
    y ∈ survivors (branches ++ [x]) ↔ (y ∈ survivors branches ∧ y.1 ≠ x.1) ∨ y = x := by
  unfold survivors
  rw [List.foldl_append]
  simp

namespace RouteBuilder

/-- The chain is the one for the key. -/
def Holds (key : Option String) (c : WorkflowContinuation) (r : RouteBuilder) : Prop :=
  match key with
  | some key => (key, c) ∈ r.namedBranches
  | none => r.defaultBranch = some c

theorem holds_insert (key : Option String) (c : WorkflowContinuation) (r : RouteBuilder) :
    (r.insert key c).Holds key c := by
  cases key with
  | none => rfl
  | some key => exact List.mem_append_right _ (List.mem_singleton_self _)

theorem Holds.insert {key key' : Option String} {c' : WorkflowContinuation}
    (h : r.Holds key' c') (hne : key' ≠ key) : (r.insert key c).Holds key' c' := by
  cases key with
  | none =>
    cases key' with
    | none => exact absurd rfl hne
    | some key' => exact h
  | some key =>
    cases key' with
    | none => exact h
    | some key' =>
      refine List.mem_append_left _ (List.mem_filter.mpr ⟨h, ?_⟩)
      simpa using hne

/-- The task nodes of a chain are in the node of the route. -/
theorem Holds.taskNodes_subset {key : Option String}
    (h : r.Holds key c) : c.taskNodes ⊆ r.node.taskNodes := by
  have hsub : c.subtrees ⊆ r.node.subtrees := by
    intro n hn
    simp only [node, WorkflowContinuation.subtrees, List.mem_cons, List.mem_append]
    cases key with
    | none => exact .inr (.inr (.inl (WorkflowContinuation.mem_subtreesNext.mpr ⟨c, h, hn⟩)))
    | some key => exact .inr (.inl (WorkflowContinuation.mem_subtreesRoutes.mpr ⟨_, h, hn⟩))
  intro p hp
  obtain ⟨n, hn, hnp⟩ := List.mem_filterMap.mp hp
  exact List.mem_filterMap.mpr ⟨n, hsub hn, hnp⟩

/-- Calls of which each inserts its chain leave the chains of the surviving ones. -/
theorem holds_survivors {α : Type} {run : RouteBuilder → Option String × α → RouteBuilder}
    {R : RouteBuilder → Prop} {Q : Option String × α → WorkflowContinuation → Prop}
    (hrun : ∀ r x, R (run r x) → R r ∧ ∃ c, Q x c
      ∧ ∃ parent, run r x = { r with parent := parent }.insert x.1 c)
    (branches : List (Option String × α)) (r : RouteBuilder) (hok : R (branches.foldl run r))
    {x : Option String × α} (hx : x ∈ survivors branches) :
    ∃ c, Q x c ∧ (branches.foldl run r).Holds x.1 c := by
  -- the last call replaces the chain of its key and leaves the others
  induction branches using List.reverseRecOn generalizing x with
  | nil => cases hx
  | append_singleton branches y ih =>
    rw [List.foldl_append, List.foldl_cons, List.foldl_nil] at hok ⊢
    obtain ⟨hok', c, hQ, parent, heq⟩ := hrun _ y hok
    rw [heq]
    rcases mem_survivors_append.mp hx with ⟨hx, hne⟩ | rfl
    · obtain ⟨c', hQ', hholds⟩ := ih hok' hx
      exact ⟨c', hQ', Holds.insert (r := { branches.foldl run r with parent := parent }) hholds hne⟩
    · exact ⟨c, hQ, holds_insert _ _ _⟩

end RouteBuilder

/-- The task nodes of a sub-builder are the tasks it was given. -/
theorem SubCall.foldl_taskNodes (calls : List SubCall) (s : SubBuilder) :
    taskNodesNext (calls.foldl (fun s call => call.run s) s).continuation
      = taskNodesNext s.continuation
        ++ (calls.filterMap SubCall.configured).map fun p => (p.1, p.2.fields true) := by
  induction calls generalizing s with
  | nil => simp
  | cons call calls ih =>
    rw [List.foldl_cons, ih]
    have happend : ∀ n, taskNodesNext (some (appendNext n s.continuation))
        = taskNodesNext s.continuation ++ n.taskNodes :=
      fun n => WorkflowContinuation.taskNodes_appendNext n s.continuation
    cases call with
    | thenFn id =>
      simp only [run, happend, List.filterMap_cons, configured, List.map_cons, List.append_assoc]
      rfl
    | delay id duration =>
      simp only [run, happend, List.filterMap_cons, configured, List.append_assoc]
      rfl
    | waitForSignal id signalName timeout =>
      simp only [run, happend, List.filterMap_cons, configured, List.append_assoc]
      rfl

theorem routeBuilder_holds {branches : List (Option String × List SubCall)}
    (herrors : (routeBuilder branches b).parent.errors = [])
    {x : Option String × List SubCall} (hx : x ∈ survivors branches) :
    ∃ c, (∀ p ∈ x.2.filterMap SubCall.configured, (p.1, p.2.fields true) ∈ c.taskNodes)
      ∧ (routeBuilder branches b).Holds x.1 c := by
  refine RouteBuilder.holds_survivors (R := fun r => r.parent.errors = [])
    (Q := fun x c => ∀ p ∈ x.2.filterMap SubCall.configured,
      (p.1, p.2.fields true) ∈ c.taskNodes) ?_ branches _ herrors hx
  intro r y hok
  refine ⟨(r.branch_grows y.1 y.2).errors_eq_nil hok, ?_⟩
  have hnodes := SubCall.foldl_taskNodes y.2 ⟨r.parent, none⟩
  simp only [RouteBuilder.branch] at hok ⊢
  split at hok
  case h_1 c hc =>
    rw [hc] at hnodes
    refine ⟨c, fun p hp => ?_, _, rfl⟩
    have hmem := List.mem_map_of_mem (f := fun p => (p.1, p.2.fields true)) hp
    exact (show c.taskNodes = _ from hnodes) ▸ List.mem_append_right _ hmem
  case h_2 => simp [pushErrors] at hok

theorem buildChainFromRegistry_taskNodes {ids : List String} (h : ∀ id ∈ ids, b.get id = true) :
    taskNodesNext (RouteBuilder.buildChainFromRegistry b ids)
      = ids.map fun id => (id, (b.getMetadata id).fields true) := by
  induction ids with
  | nil => rfl
  | cons id ids ih =>
    have hid := h id List.mem_cons_self
    rw [List.map_cons, ← ih fun x hx => h x (List.mem_cons_of_mem _ hx),
      RouteBuilder.buildChainFromRegistry, hid]
    rfl

theorem routeRegisteredBuilder_holds {branches : List (Option String × List String)}
    (herrors : (routeRegisteredBuilder id branches b).parent.errors = [])
    {x : Option String × List String} (hx : x ∈ survivors branches) :
    ∃ c, (∀ name ∈ x.2, (name, (b.getMetadata name).fields true) ∈ c.taskNodes)
      ∧ (routeRegisteredBuilder id branches b).Holds x.1 c := by
  -- the registry does not change while the route is built
  have hregistry : ∀ (r : RouteBuilder) (y : Option String × List String),
      (r.branchRegistered y.1 y.2).parent.registry = r.parent.registry := by
    intro r y
    simp only [RouteBuilder.branchRegistered]
    split
    · split
      · rw [RouteBuilder.parent_insert]
      · rfl
    · rfl
  have hfold : ∀ (l : List (Option String × List String)) (r : RouteBuilder),
      (l.foldl (fun r call => r.branchRegistered call.1 call.2) r).parent.registry
        = r.parent.registry := by
    intro l
    induction l with
    | nil => exact fun r => rfl
    | cons y l ih => exact fun r => (ih _).trans (hregistry r y)
  refine RouteBuilder.holds_survivors
    (R := fun r => r.parent.errors = [] ∧ r.parent.registry = b.registry)
    (Q := fun x c => ∀ name ∈ x.2, (name, (b.getMetadata name).fields true) ∈ c.taskNodes)
    ?_ branches _ ⟨herrors, hfold branches _⟩ hx
  rintro r y ⟨hok, hreg⟩
  rw [hregistry] at hreg
  refine ⟨⟨(r.branchRegistered_grows y.1 y.2).errors_eq_nil hok, hreg⟩, ?_⟩
  simp only [RouteBuilder.branchRegistered] at hok ⊢
  split at hok
  case h_2 => simp [pushErrors] at hok
  case h_1 c hc =>
    split at hok
    case isFalse hmissing =>
      -- a missing task is an error
      obtain ⟨-, hnone⟩ := List.append_eq_nil_iff.mp hok
      exact absurd (List.isEmpty_iff.mpr (List.map_eq_nil_iff.mp hnone)) hmissing
    case isTrue hmissing =>
      rw [if_pos hmissing]
      have hget : ∀ name ∈ y.2, r.parent.get name = true := by
        intro name hname
        have hnil := List.isEmpty_iff.mp hmissing
        have := List.filter_eq_nil_iff.mp hnil name (List.mem_reverse.mpr hname)
        simpa using this
      have hnodes := buildChainFromRegistry_taskNodes hget
      have hmetadata : ∀ name, r.parent.getMetadata name = b.getMetadata name := by
        intro name
        simp only [getMetadata, hreg]
      rw [hc] at hnodes
      refine ⟨c, fun name hname => ?_, r.parent, rfl⟩
      rw [show c.taskNodes = _ from hnodes, ← hmetadata]
      exact List.mem_map_of_mem (f := fun id => (id, (r.parent.getMetadata id).fields true)) hname

/-! ## The nodes of a stage -/

theorem Step.lastId_mem_taskIds (step : Step) (b : WorkflowBuilder) :
    step.lastId b ∈ (step.node b).taskIds := by
  cases step <;>
    simp [lastId, node, loopNode, ForkBuilder.node, RouteBuilder.node, WorkflowContinuation.taskIds,
      WorkflowContinuation.taskIdsNext]

section carried

variable [Sha256]

open WorkflowContinuation (taskIdsNext idsNext)

/-- The node of the step after the calls of `with_metadata`. -/
def Stage.node (b : WorkflowBuilder) (s : Stage) : WorkflowContinuation :=
  s.metadata.foldl (fun n m => n.configure (s.step.lastId b) m) (s.step.node b)

namespace Stage

/-- The ids of a stage stand behind those of the chain. -/
theorem taskIdsNext_run (s : Stage) (b : WorkflowBuilder) :
    taskIdsNext (s.run b).continuation
      = taskIdsNext b.continuation ++ (s.step.node b).taskIds := by
  rw [← WorkflowContinuation.map_id_nodesNext, run,
    map_nodesNext_foldl_withMetadata WorkflowContinuation.blind_id,
    Step.run_continuation, WorkflowContinuation.map_id_nodesNext]
  exact WorkflowContinuation.taskIds_appendNext _ _

theorem taskIds_node (s : Stage) (b : WorkflowBuilder) :
    (s.node b).taskIds = (s.step.node b).taskIds := by
  have hfold : ∀ (ms : List TaskMetadata) (last : String) (n : WorkflowContinuation),
      (ms.foldl (fun n m => n.configure last m) n).taskIds = n.taskIds := by
    intro ms last n
    induction ms generalizing n with
    | nil => rfl
    | cons m ms ih => rw [List.foldl_cons, ih, WorkflowContinuation.taskIds_configure]
  exact hfold _ _ _

end Stage

/-- **A stage appends its node**, as long as the ids are distinct. -/
theorem Stage.run_continuation (hids : (idsNext b.continuation ++ (s.step.node b).ids).Nodup) :
    (s.run b).continuation = some (appendNext (s.node b) b.continuation) := by
  refine foldl_withMetadata (s.step.run_continuation b) (s.step.run_lastTaskId b)
    ?_ s.metadata
  intro hmem
  have hlast : TaskId.sha256 (s.step.lastId b) ∈ (s.step.node b).ids :=
    List.mem_map_of_mem (s.step.lastId_mem_taskIds b)
  exact (List.nodup_append.mp hids).2.2 _ hmem _ hlast rfl

/-! ## One stage -/

/-- What a stage configures, its node carries exactly if the stage is faithful. -/
structure Stage.Carries (b : WorkflowBuilder) (s : Stage) : Prop where
  iff : (∀ p ∈ s.configured b, (p.1, p.2.fields true) ∈ (s.node b).taskNodes) ↔ s.Faithful b
  present : ∀ p ∈ s.configured b, ∃ fields, (p.1, fields) ∈ (s.node b).taskNodes

namespace Stage

variable {b : WorkflowBuilder} {s : Stage}

/-- A stage without tasks of its own. -/
theorem carries_of_nil (hbranches : s.step.branchTasks b = []) (hlast : s.step.lastTask b = none)
    (hkeeps : s.step.KeepsBranches b) : s.Carries b := by
  have hnil : s.configured b = [] := by simp [configured, hbranches, hlast]
  refine ⟨?_, ?_⟩
  · refine iff_of_true (by simp [hnil]) ⟨hkeeps, fun m _ p hp => ?_⟩
    rw [hlast] at hp
    cases hp
  · simp [hnil]

/-- A stage that adds one task, as a node or as the body of a loop. -/
theorem carries_of_task
    (hnodup : (s.step.node b).taskIds.Nodup) (hbranches : s.step.branchTasks b = [])
    (hkeeps : s.step.KeepsBranches b) (hlast : s.step.lastTask b = some (id, md))
    (hnode : (id, if s.step.isLoop then md.fields true
      else s.metadata.foldl (fun f m => f.configure m) (md.fields true)) ∈ (s.node b).taskNodes) :
    s.Carries b := by
  have hconfigured : s.configured b = [(id, s.metadata.getLast?.getD md)] := by
    simp [configured, hbranches, hlast]
  have hc : (s.node b).taskIds.Nodup := by rwa [taskIds_node]
  refine ⟨?_, ?_⟩
  · have htakes : s.Faithful b ↔ ∀ m ∈ s.metadata.getLast?, s.step.Takes b m :=
      ⟨fun h => h.last, fun h => ⟨hkeeps, h⟩⟩
    rw [hconfigured, htakes]
    simp only [List.mem_singleton, forall_eq]
    cases hloop : s.step.isLoop with
    | true =>
      rw [hloop, if_pos rfl] at hnode
      rw [mem_taskNodes_iff_of_own hc hnode]
      simp [Step.Takes, hlast, hloop]
    | false =>
      rw [hloop, if_neg Bool.false_ne_true] at hnode
      rw [mem_taskNodes_iff_of_configured hc hnode]
      simp [Step.Takes, hlast, hloop]
  · rw [hconfigured]
    simp only [List.mem_singleton, forall_eq]
    exact ⟨_, hnode⟩

/-- A stage that adds a fork. -/
theorem carries_of_fork {f : ForkBuilder}
    {fields : String → TaskFields} (hnodup : (s.step.node b).taskIds.Nodup)
    (hstep : s.step.node b = f.node fields id (md.fields true)) (hid : s.step.lastId b = id)
    (hlast : s.step.lastTask b = some (id, md)) (hloop : s.step.isLoop = false)
    (hbranches : (s.step.branchTasks b).map Prod.fst = f.branches)
    (hkeeps : (∀ p ∈ s.step.branchTasks b, fields p.1 = p.2.fields true)
      ↔ s.step.KeepsBranches b) :
    s.Carries b := by
  have hnode : s.node b = f.node fields id
      (s.metadata.foldl (fun f m => f.configure m) (md.fields true)) := by
    unfold node
    rw [hstep, hid]
    exact WorkflowContinuation.foldl_configure_fork _ _ _ _ _
  have hc : (s.node b).taskIds.Nodup := by rwa [taskIds_node]
  have hnodes := f.taskNodes_node fields id
    (s.metadata.foldl (fun f m => f.configure m) (md.fields true))
  rw [← hnode] at hnodes
  have hbranch : ∀ p ∈ s.step.branchTasks b, (p.1, fields p.1) ∈ (s.node b).taskNodes := by
    intro p hp
    rw [hnodes]
    exact List.mem_append_left _ (List.mem_map.mpr
      ⟨p.1, hbranches ▸ List.mem_map_of_mem hp, rfl⟩)
  have hjoin : (id, s.metadata.foldl (fun f m => f.configure m) (md.fields true))
      ∈ (s.node b).taskNodes := by
    rw [hnodes]
    exact List.mem_append_right _ (List.mem_singleton_self _)
  have hconfigured : s.configured b
      = s.step.branchTasks b ++ [(id, s.metadata.getLast?.getD md)] := by
    simp [configured, hlast]
  refine ⟨?_, ?_⟩
  · have hown : (∀ p ∈ s.step.branchTasks b, (p.1, p.2.fields true) ∈ (s.node b).taskNodes)
        ↔ s.step.KeepsBranches b := by
      rw [← hkeeps]
      constructor
      · exact fun h p hp => WorkflowContinuation.taskNodes_unique hc (hbranch p hp) (h p hp)
      · exact fun h p hp => h p hp ▸ hbranch p hp
    have htakes : (id, (s.metadata.getLast?.getD md).fields true) ∈ (s.node b).taskNodes
        ↔ ∀ m ∈ s.metadata.getLast?, s.step.Takes b m := by
      rw [mem_taskNodes_iff_of_configured hc hjoin]
      simp [Step.Takes, hlast, hloop]
    rw [hconfigured]
    simp only [List.forall_mem_append, List.mem_singleton, forall_eq, hown, htakes]
    exact ⟨fun h => ⟨h.1, h.2⟩, fun h => ⟨h.branches, h.last⟩⟩
  · rw [hconfigured]
    simp only [List.forall_mem_append, List.mem_singleton, forall_eq]
    exact ⟨fun p hp => ⟨_, hbranch p hp⟩, _, hjoin⟩

/-- A stage that adds a route. The search for the id of the route finds no task. -/
theorem carries_of_route (hids : (s.step.node b).ids.Nodup)
    (hstep : s.step.node b = r.node) (hid : s.step.lastId b = r.branchId)
    (hlast : s.step.lastTask b = none) (hkeeps : s.step.KeepsBranches b)
    (htasks : ∀ p ∈ s.step.branchTasks b, (p.1, p.2.fields true) ∈ r.node.taskNodes) :
    s.Carries b := by
  have hnode : s.node b = r.node := by
    unfold node
    rw [hstep, hid]
    refine WorkflowContinuation.foldl_configure_of_eq_none (fun f => ?_) _
    rw [hstep, RouteBuilder.node, WorkflowContinuation.ids_branch, List.nodup_cons,
      List.mem_append, List.mem_append, not_or, not_or] at hids
    obtain ⟨⟨hroutes, hdefault, -⟩, -⟩ := hids
    rw [RouteBuilder.node, WorkflowContinuation.updateTask,
      WorkflowContinuation.updateRoutes_eq_none hroutes]
    simp only
    rw [WorkflowContinuation.updateNext_eq_none hdefault]
    rfl
  have hconfigured : s.configured b = s.step.branchTasks b := by simp [configured, hlast]
  rw [← hnode, ← hconfigured] at htasks
  refine ⟨iff_of_true htasks ⟨hkeeps, fun m _ p hp => ?_⟩, fun p hp => ⟨_, htasks p hp⟩⟩
  rw [hlast] at hp
  cases hp

theorem mem_taskNodes_of_task {fields : TaskFields}
    (hstep : s.step.node b = .task id fields none) (hid : s.step.lastId b = id) :
    (id, s.metadata.foldl (fun f m => f.configure m) fields) ∈ (s.node b).taskNodes := by
  unfold node
  rw [hstep, hid, WorkflowContinuation.foldl_configure_task]
  exact List.mem_singleton_self _

/-- `with_metadata` behind a loop looks for a task with the id of the loop. -/
theorem mem_taskNodes_of_loop {loopId : String} {fields : TaskFields} {maxIterations : Nat}
    {onMax : MaxIterationsPolicy} (hids : (s.step.node b).ids.Nodup)
    (hstep : s.step.node b = loopNode loopId id fields maxIterations onMax)
    (hid : s.step.lastId b = loopId) : (id, fields) ∈ (s.node b).taskNodes := by
  have hne : TaskId.sha256 id ≠ TaskId.sha256 loopId := by
    rw [hstep, loopNode, WorkflowContinuation.ids_loop, List.nodup_cons] at hids
    intro heq
    exact hids.1 (List.mem_append_left _ (heq ▸ List.mem_cons_self))
  unfold node
  rw [hstep, hid, WorkflowContinuation.foldl_configure_of_eq_none]
  · exact List.mem_singleton_self _
  · intro f
    simp [loopNode, WorkflowContinuation.updateTask, WorkflowContinuation.updateNext, hne]

/-- **One stage.** What it configures arrives at the nodes exactly if it is faithful. -/
theorem carries (herrors : (s.step.run b).errors = []) (hids : (s.step.node b).ids.Nodup) :
    s.Carries b := by
  have hnodup : (s.step.node b).taskIds.Nodup := hids.of_map _
  obtain ⟨step, ms⟩ := s
  cases step with
  | thenFn id => exact carries_of_task hnodup rfl trivial rfl (mem_taskNodes_of_task rfl rfl)
  | thenTaskWith task =>
    exact carries_of_task hnodup rfl trivial rfl (mem_taskNodes_of_task rfl rfl)
  | thenRegistered id =>
    have hget : b.get id = true := get_of_require herrors
    have hstep : (Step.thenRegistered id).node b
        = .task id ((b.getMetadata id).fields true) none := by
      rw [Step.node, hget]
    exact carries_of_task hnodup rfl trivial rfl (mem_taskNodes_of_task hstep rfl)
  | loopTaskWithPolicy id maxIterations onMax =>
    exact carries_of_task hnodup rfl trivial rfl (mem_taskNodes_of_loop hids rfl rfl)
  | loopTaskStructWithPolicy task maxIterations onMax =>
    exact carries_of_task hnodup rfl trivial rfl (mem_taskNodes_of_loop hids rfl rfl)
  | loopTaskRegistered id maxIterations onMax =>
    have hget : b.get id = true :=
      get_of_require (b := b.requireIterations id maxIterations) herrors
    have hstep : (Step.loopTaskRegistered id maxIterations onMax).node b
        = loopNode (loopNodeId b.loopCounter) id ((b.getMetadata id).fields true)
          maxIterations onMax := by
      rw [Step.node, hget]
    exact carries_of_task hnodup rfl trivial rfl (mem_taskNodes_of_loop hids hstep rfl)
  | delay id duration => exact carries_of_nil rfl rfl trivial
  | waitForSignal id signalName timeout => exact carries_of_nil rfl rfl trivial
  | thenFlow child => exact carries_of_nil rfl rfl trivial
  | thenSerializableFlow child => exact carries_of_nil rfl rfl trivial
  | join collected calls id =>
    have hparent : (forkBuilder collected calls b).parent.errors = [] := herrors
    have hbranches := forkBuilder_branches hparent
    refine carries_of_fork hnodup rfl rfl rfl rfl
      ((map_fst_branchTasks b collected calls).trans hbranches.symm) ?_
    exact ⟨fun h p hp => (TaskMetadata.fields_injective true (h p hp)).symm,
      fun h p hp => congrArg _ (h p hp).symm⟩
  | joinRegistered collected calls id =>
    have hget : (forkBuilder collected calls b).parent.get id = true :=
      get_of_require herrors
    have hparent : (forkBuilder collected calls b).parent.errors = [] :=
      (grows_pushErrors _ _).errors_eq_nil herrors
    have hbranches := forkBuilder_branches hparent
    -- the ids of the branches and of the join are distinct
    have hdistinct : ((collected.map CollectorCall.id ++ calls.map ForkCall.id) ++ [id]).Nodup := by
      have htaskIds := (forkBuilder collected calls b).taskIds_node
        (fun name => ((forkBuilder collected calls b).parent.getMetadata name).fields true) id
        (((forkBuilder collected calls b).parent.getMetadata id).fields
          ((forkBuilder collected calls b).parent.get id))
      rw [hbranches] at htaskIds
      exact (List.nodup_cons.mp (htaskIds ▸ hnodup)).2
    have hregistry : b.registry.isSome = true := by
      rw [← (forkBuilder_grows collected calls b).registry]
      exact registry_isSome_of_get hget
    have hjoin : (forkBuilder collected calls b).parent.getMetadata id = b.getMetadata id := by
      refine ForkCall.foldl_getMetadata (fun hmem => ?_) (.ofBranches collected b)
      exact (List.nodup_append.mp hdistinct).2.2 _ (List.mem_append_right _ hmem) _
        (List.mem_singleton_self _) rfl
    have hstep : (Step.joinRegistered collected calls id).node b
        = (forkBuilder collected calls b).node
          (fun name => ((forkBuilder collected calls b).parent.getMetadata name).fields true) id
          ((b.getMetadata id).fields true) := by
      simp only [Step.node, hget, hjoin]
    exact carries_of_fork hnodup hstep rfl rfl rfl
      ((map_fst_branchTasks b collected calls).trans hbranches.symm)
      (joinRegistered_keepsBranches_iff hregistry (hdistinct.of_append_left))
  | route allKeys branches =>
    have hparent : (routeBuilder branches b).parent.errors = [] :=
      ((grows_pushErrors _ _).trans
        (grows_pushErrors _ _)).errors_eq_nil herrors
    refine carries_of_route hids rfl rfl rfl trivial fun p hp => ?_
    obtain ⟨x, hx, hp⟩ := List.mem_flatMap.mp hp
    obtain ⟨c, hc, hholds⟩ := routeBuilder_holds hparent hx
    exact hholds.taskNodes_subset (hc p hp)
  | routeRegistered id branches =>
    refine carries_of_route hids rfl rfl rfl trivial fun p hp => ?_
    obtain ⟨x, hx, hp⟩ := List.mem_flatMap.mp hp
    obtain ⟨name, hname, rfl⟩ := List.mem_map.mp hp
    obtain ⟨c, hc, hholds⟩ := routeRegisteredBuilder_holds herrors hx
    exact hholds.taskNodes_subset (hc name hname)

end Stage

/-! ## All stages -/

theorem WorkflowBuilder.taskIdsNext_calls (b : WorkflowBuilder) (stages : List Stage) :
    taskIdsNext b.continuation <+: taskIdsNext (b.calls stages).continuation := by
  induction stages generalizing b with
  | nil => exact List.prefix_refl _
  | cons s stages ih =>
    have hstage : taskIdsNext b.continuation <+: taskIdsNext (s.run b).continuation := by
      rw [Stage.taskIdsNext_run]
      exact List.prefix_append _ _
    exact hstage.trans (ih (s.run b))

/-- The ids of a stage and of the chain before it are among those of the end. -/
theorem Stage.nodup_of_calls (hids : (idsNext (b.calls (s :: stages)).continuation).Nodup) :
    (idsNext b.continuation ++ (s.step.node b).ids).Nodup := by
  have hsub := ((s.run b).taskIdsNext_calls stages).sublist.map TaskId.sha256
  rw [Stage.taskIdsNext_run, List.map_append] at hsub
  exact hids.sublist hsub

theorem Stage.taskNodesNext_run (hids : (idsNext b.continuation ++ (s.step.node b).ids).Nodup) :
    taskNodesNext (s.run b).continuation = taskNodesNext b.continuation ++ (s.node b).taskNodes := by
  rw [Stage.run_continuation hids]
  exact WorkflowContinuation.taskNodes_appendNext _ _

/-- Later stages leave the nodes of earlier ones alone. -/
theorem WorkflowBuilder.taskNodesNext_calls (hids : (idsNext (b.calls stages).continuation).Nodup) :
    taskNodesNext b.continuation <+: taskNodesNext (b.calls stages).continuation := by
  induction stages generalizing b with
  | nil => exact List.prefix_refl _
  | cons s stages ih =>
    have hstage : taskNodesNext b.continuation <+: taskNodesNext (s.run b).continuation := by
      rw [Stage.taskNodesNext_run (Stage.nodup_of_calls hids)]
      exact List.prefix_append _ _
    exact hstage.trans (ih hids)

theorem configured_mem_iff
    (hc : (b.calls stages).continuation = some c) (herrors : (b.calls stages).errors = [])
    (hids : c.ids.Nodup) :
    (∀ p ∈ configured b stages, (p.1, p.2.fields true) ∈ c.taskNodes) ↔ Faithful b stages := by
  -- each stage on its own: its nodes are in the tree, and an id has one node
  induction stages generalizing b with
  | nil => exact iff_of_true (fun p hp => by cases hp) trivial
  | cons s stages ih =>
    have hids' : (idsNext (b.calls (s :: stages)).continuation).Nodup := by rw [hc]; exact hids
    have hnew := Stage.nodup_of_calls hids'
    have hstage : s.Carries b := by
      have hnone := Stage.run_errors_eq_nil herrors
      rw [Stage.run_errors] at hnone
      exact Stage.carries hnone (List.nodup_append.mp hnew).2.1
    have hsub : (s.node b).taskNodes ⊆ c.taskNodes := by
      have hinit := taskNodesNext_calls (b := s.run b) hids'
      rw [Stage.taskNodesNext_run hnew, show ((s.run b).calls stages).continuation = some c
        from hc] at hinit
      exact fun p hp => hinit.subset (List.mem_append_right _ hp)
    have hown : (∀ p ∈ s.configured b, (p.1, p.2.fields true) ∈ c.taskNodes) ↔ s.Faithful b := by
      rw [← hstage.iff]
      constructor
      · intro h p hp
        obtain ⟨fields, hfields⟩ := hstage.present p hp
        have heq := WorkflowContinuation.taskNodes_unique (hids.of_map _) (h p hp) (hsub hfields)
        rwa [heq]
      · exact fun h p hp => hsub (h p hp)
    rw [configured, Faithful, List.forall_mem_append, hown, ih hc herrors]

/-- **Configured metadata.** For every sequence of calls that builds, the nodes of the
tree carry the metadata configured for their tasks exactly if no stage loses any. -/
theorem configured_metadata_carried_iff (registry : Option TaskRegistry) (stages : List Stage)
    {c : WorkflowContinuation} {registry' : Option TaskRegistry}
    (hbuild : ((new registry).calls stages).build = .ok (c, registry'))
    (hhash : ∀ x ∈ c.taskIds, ∀ y ∈ c.taskIds, TaskId.sha256 x = TaskId.sha256 y → x = y) :
    (∀ p ∈ configured (.new registry) stages, (p.1, p.2.fields true) ∈ c.taskNodes)
      ↔ Faithful (.new registry) stages := by
  obtain ⟨hc, -, herrors, hnodup⟩ := build_eq_ok hbuild
  exact configured_mem_iff hc herrors (hnodup.map_on hhash)

end carried

section sample

attribute [local instance] Sha256.packed

/-- A task with a timeout of five seconds. -/
def slowTask (id : String) : RegisterableTask :=
  ⟨id, ⟨some (Duration.fromMillis 5000), none, [], none, none⟩⟩

/-- A chain of a struct and of a function with a `with_metadata` behind it. -/
def slowChain : List Stage :=
  [⟨.thenTaskWith (slowTask "a"), []⟩, ⟨.thenFn "b", [(slowTask "b").metadata]⟩]

/-- The fork of a struct and a function. -/
def slowFork : List Stage :=
  [⟨.join [] [.branchTaskWith (slowTask "a"), .branch "b"] "j", []⟩]

/-- The tasks of the chain carry their timeouts. -/
theorem configured_metadata_carried_chain :
    ∃ c registry, ((new (some ∅)).calls slowChain).build = .ok (c, registry)
      ∧ ∀ p ∈ configured (.new (some ∅)) slowChain, (p.1, p.2.fields true) ∈ c.taskNodes := by
  refine ⟨.task "a" ((slowTask "a").metadata.fields true)
    (some (.task "b" ((slowTask "b").metadata.fields true) none)), _, rfl, ?_⟩
  refine (configured_metadata_carried_iff (some ∅) slowChain rfl (by decide)).mpr ?_
  refine ⟨⟨trivial, ?_⟩, ⟨trivial, ?_⟩, trivial⟩
  · simp
  · simp [Step.Takes, Step.lastTask, Step.isLoop, slowTask]
    decide

/-- The timeout of the struct is configured for the branch, and its node has none. -/
theorem branch_timeout_lost :
    ∃ c registry, ((new (some ∅)).calls slowFork).build = .ok (c, registry)
      ∧ ∃ p ∈ configured (.new (some ∅)) slowFork, (p.1, p.2.fields true) ∉ c.taskNodes := by
  refine ⟨_, _, rfl, ("a", (slowTask "a").metadata), ?_, ?_⟩
  · decide
  · decide

end sample

end Sayiir
