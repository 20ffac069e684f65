import Sayiir.Core.Builder

/-!
# Steps of the workflow builder

Every step of a builder appends one node to the chain, and what it does besides can
only add entries to the registry and errors to the list. `Step.node` is the node,
`WorkflowBuilder.Grows` says what else may change, and `Step.run_continuation` and
`Step.grows` connect both to the calls.

The nodes of a tree are looked at one by one, without what they contain, so that
appending a chain appends a list.
-/

namespace Sayiir

namespace WorkflowContinuation

/-- The node without the trees it contains. -/
def bare : WorkflowContinuation → WorkflowContinuation
  | .task id fields _ => .task id fields none
  | .fork id _ _ => .fork id [] none
  | .delay id duration _ => .delay id duration none
  | .awaitSignal id signalName timeout _ => .awaitSignal id signalName timeout none
  | .branch id keyFn _ _ _ => .branch id keyFn [] none none
  | .loop id _ maxIterations onMax _ =>
    .loop id (.delay id 0 none) maxIterations onMax none
  | .childWorkflow id _ _ => .childWorkflow id (.delay id 0 none) none

@[simp] theorem id_bare (c : WorkflowContinuation) : c.bare.id = c.id := by cases c <;> rfl

/-- The nodes of the tree, one by one. -/
def nodes (c : WorkflowContinuation) : List WorkflowContinuation := c.subtrees.map bare

/-- The nodes of a chain that may be empty. -/
def nodesNext (o : Option WorkflowContinuation) : List WorkflowContinuation :=
  (subtreesNext o).map bare

theorem map_id_nodes (c : WorkflowContinuation) : c.nodes.map WorkflowContinuation.id = c.taskIds := by
  rw [← map_id_subtrees, nodes, List.map_map]
  exact List.map_congr_left fun n _ => id_bare n

theorem map_id_nodesNext (o : Option WorkflowContinuation) :
    (nodesNext o).map WorkflowContinuation.id = taskIdsNext o := by
  cases o with
  | none => rfl
  | some c => exact map_id_nodes c

theorem nodes_appendToChain (n c : WorkflowContinuation) :
    (appendToChain n c).nodes = c.nodes ++ n.nodes := by
  have hnext : ∀ o : Option WorkflowContinuation,
      (∀ k, o = some k → (appendToChain n k).nodes = k.nodes ++ n.nodes) →
        (appendNext n o).subtrees.map bare = (subtreesNext o).map bare ++ n.subtrees.map bare := by
    intro o h
    cases o with
    | none => rfl
    | some k => exact h k rfl
  induction c using WorkflowContinuation.induct with
  | task id fields next ih | delay id duration next ih | awaitSignal id signalName timeout next ih =>
    simp only [nodes, appendToChain, subtrees, subtreesNext, List.map_cons, bare, hnext next ih,
      List.cons_append]
  | fork id branches join ihb ihj =>
    simp only [nodes, appendToChain, subtrees, subtreesNext, List.map_cons, bare, List.map_append,
      hnext join ihj, List.cons_append, List.append_assoc]
  | branch id keyFn branches default next ihb ihd ihn =>
    simp only [nodes, appendToChain, subtrees, subtreesNext, List.map_cons, bare, List.map_append,
      hnext next ihn, List.cons_append, List.append_assoc]
  | loop id body maxIterations onMax next ihb ihn | childWorkflow id child next ihc ihn =>
    simp only [nodes, appendToChain, subtrees, subtreesNext, List.map_cons, bare, List.map_append,
      hnext next ihn, List.cons_append, List.append_assoc]

/-- **Appending a node appends its nodes.** -/
theorem nodes_appendNext (n : WorkflowContinuation) (o : Option WorkflowContinuation) :
    (appendNext n o).nodes = nodesNext o ++ n.nodes := by
  cases o with
  | none => rfl
  | some k => exact nodes_appendToChain n k

theorem taskIds_appendNext (n : WorkflowContinuation) (o : Option WorkflowContinuation) :
    (appendNext n o).taskIds = taskIdsNext o ++ n.taskIds := by
  rw [← map_id_nodes, nodes_appendNext, List.map_append, map_id_nodes, map_id_nodesNext]

end WorkflowContinuation

open WorkflowContinuation (appendNext findDuplicateId)

/-! ## Duplicates -/

theorem firstDuplicate_eq_none_iff (seen ids : List String) :
    firstDuplicate seen ids = none ↔ ids.Nodup ∧ ∀ id ∈ ids, id ∉ seen := by
  induction ids generalizing seen with
  | nil => simp [firstDuplicate]
  | cons id ids ih =>
    rw [firstDuplicate]
    by_cases hseen : id ∈ seen
    · rw [if_pos hseen]
      simp [hseen]
    · rw [if_neg hseen, ih, List.nodup_cons]
      constructor
      · rintro ⟨hnodup, hids⟩
        refine ⟨⟨fun hmem => hids id hmem List.mem_cons_self, hnodup⟩, ?_⟩
        intro x hx
        rcases List.mem_cons.mp hx with rfl | hx
        · exact hseen
        · exact fun h => hids x hx (List.mem_cons_of_mem _ h)
      · rintro ⟨⟨hid, hnodup⟩, hids⟩
        refine ⟨hnodup, fun x hx h => ?_⟩
        rcases List.mem_cons.mp h with rfl | h
        · exact hid hx
        · exact hids x (List.mem_cons_of_mem _ hx) h

/-- The check finds nothing exactly if the ids are distinct. -/
theorem findDuplicateId_eq_none_iff (c : WorkflowContinuation) :
    c.findDuplicateId = none ↔ c.taskIds.Nodup := by
  simp [findDuplicateId, firstDuplicate_eq_none_iff]

namespace WorkflowBuilder

/-- What a successful build says. -/
theorem build_eq_ok {b : WorkflowBuilder} {c : WorkflowContinuation}
    {registry : Option TaskRegistry} (h : b.build = .ok (c, registry)) :
    b.continuation = some c ∧ b.registry = registry ∧ b.errors = [] ∧ c.taskIds.Nodup := by
  unfold build at h
  cases hc : b.continuation with
  | none => rw [hc] at h; cases h
  | some c' =>
    rw [hc] at h
    cases hd : c'.findDuplicateId with
    | some dup => simp [hd] at h
    | none =>
      simp only [hd, List.append_nil] at h
      split at h
      case isTrue hempty =>
        obtain ⟨rfl, rfl⟩ := Prod.mk.inj (Except.ok.inj h)
        exact ⟨rfl, rfl, List.isEmpty_iff.mp hempty, (findDuplicateId_eq_none_iff _).mp hd⟩
      case isFalse => cases h

/-! ## What calls may change besides the chain -/

/-- Calls that leave the chain alone: entries and errors are only added. -/
structure Grows (b b' : WorkflowBuilder) : Prop where
  continuation : b'.continuation = b.continuation
  errors : b.errors <+: b'.errors
  registry : b'.registry.isSome = b.registry.isSome
  get : ∀ id, b.get id = true → b'.get id = true

namespace Grows

theorem refl (b : WorkflowBuilder) : Grows b b := ⟨rfl, List.prefix_refl _, rfl, fun _ h => h⟩

theorem trans {b b' b'' : WorkflowBuilder} (h : Grows b b') (h' : Grows b' b'') : Grows b b'' :=
  ⟨h'.continuation.trans h.continuation, h.errors.trans h'.errors,
    h'.registry.trans h.registry, fun id hid => h'.get id (h.get id hid)⟩

/-- Without errors after the calls there were none before. -/
theorem errors_eq_nil {b b' : WorkflowBuilder} (h : Grows b b') (herrors : b'.errors = []) :
    b.errors = [] :=
  List.prefix_nil.mp (herrors ▸ h.errors)

end Grows

theorem get_maybeRegister (id key : String) (m : TaskMetadata) (b : WorkflowBuilder) :
    (b.maybeRegister key m).get id = (b.get id || (b.registry.isSome && decide (id = key))) := by
  unfold get maybeRegister TaskRegistry.contains
  cases b.registry with
  | none => rfl
  | some r =>
    by_cases hid : id = key
    · subst hid; simp
    · simp [hid, AList.lookup_insert_ne hid]

theorem grows_maybeRegister (id : String) (m : TaskMetadata) (b : WorkflowBuilder) :
    Grows b (b.maybeRegister id m) := by
  refine ⟨rfl, List.prefix_refl _, Option.isSome_map, fun x hx => ?_⟩
  rw [get_maybeRegister, hx, Bool.true_or]

theorem grows_pushErrors (errors : List BuildError) (b : WorkflowBuilder) :
    Grows b (b.pushErrors errors) :=
  ⟨rfl, List.prefix_append _ _, rfl, fun _ h => h⟩

/-- A required id is registered, if there is no error. -/
theorem get_of_require {b : WorkflowBuilder} {id : String} (h : (b.require id).errors = []) :
    b.get id = true := by
  obtain ⟨-, hid⟩ := List.append_eq_nil_iff.mp h
  by_contra hget
  rw [if_neg hget] at hid
  cases hid

end WorkflowBuilder

open WorkflowBuilder

/-! ### Forks -/

theorem ForkCall.grows (call : ForkCall) (f : ForkBuilder) : Grows f.parent (call.run f).parent := by
  cases call with
  | branch id => exact grows_maybeRegister _ _ _
  | branchTaskWith task => exact grows_maybeRegister _ _ _
  | branchRegistered id =>
    simp only [ForkCall.run, ForkBuilder.branchRegistered]
    split
    · exact Grows.refl _
    · exact grows_pushErrors _ _

theorem ForkCall.foldl_grows (calls : List ForkCall) (f : ForkBuilder) :
    Grows f.parent (calls.foldl (fun f call => call.run f) f).parent := by
  induction calls generalizing f with
  | nil => exact Grows.refl _
  | cons call calls ih => exact (call.grows f).trans (ih (call.run f))

def ForkCall.id : ForkCall → String
  | branch id | branchRegistered id => id
  | branchTaskWith task => task.taskId

/-- Without errors every call has added its branch. -/
theorem ForkCall.foldl_branches (calls : List ForkCall) (f : ForkBuilder)
    (herrors : (calls.foldl (fun f call => call.run f) f).parent.errors = []) :
    (calls.foldl (fun f call => call.run f) f).branches = f.branches ++ calls.map ForkCall.id := by
  induction calls generalizing f with
  | nil => simp
  | cons call calls ih =>
    rw [List.foldl_cons] at herrors ⊢
    have hcall : (call.run f).branches = f.branches ++ [call.id] := by
      have hnone := (ForkCall.foldl_grows calls (call.run f)).errors_eq_nil herrors
      cases call with
      | branch id => rfl
      | branchTaskWith task => rfl
      | branchRegistered id =>
        simp only [run, ForkBuilder.branchRegistered] at hnone ⊢
        split at hnone
        case isTrue hget => rw [if_pos hget]; rfl
        case isFalse => simp [WorkflowBuilder.pushErrors] at hnone
    rw [ih _ herrors, hcall]
    simp

theorem forkBuilder_grows (collected : List CollectorCall) (calls : List ForkCall)
    (b : WorkflowBuilder) : Grows b (forkBuilder collected calls b).parent :=
  ForkCall.foldl_grows calls (.ofBranches collected b)

theorem forkBuilder_branches {collected : List CollectorCall} {calls : List ForkCall}
    {b : WorkflowBuilder} (herrors : (forkBuilder collected calls b).parent.errors = []) :
    (forkBuilder collected calls b).branches
      = collected.map CollectorCall.id ++ calls.map ForkCall.id :=
  ForkCall.foldl_branches calls (.ofBranches collected b) herrors

theorem ForkBuilder.nodes_node (fields : String → TaskFields) (joinId : String)
    (joinFields : TaskFields) (f : ForkBuilder) :
    (f.node fields joinId joinFields).nodes
      = .fork (WorkflowContinuation.deriveForkId f.branches) [] none
        :: (f.branches.map (fun id => .task id (fields id) none)
          ++ [.task joinId joinFields none]) := by
  have hbranches : ∀ ids : List String,
      (WorkflowContinuation.subtreesBranches (ids.map fun id =>
        WorkflowContinuation.task id (fields id) none)).map WorkflowContinuation.bare
        = ids.map fun id => .task id (fields id) none := by
    intro ids
    induction ids with
    | nil => rfl
    | cons id ids ih =>
      rw [List.map_cons, WorkflowContinuation.subtreesBranches, List.map_append, ih]
      rfl
  rw [node, WorkflowContinuation.nodes, WorkflowContinuation.subtrees, List.map_cons,
    List.map_append, hbranches]
  rfl

/-! ### Routes -/

theorem SubCall.foldl_grows (calls : List SubCall) (s : SubBuilder) :
    Grows s.parent (calls.foldl (fun s call => call.run s) s).parent := by
  induction calls generalizing s with
  | nil => exact Grows.refl _
  | cons call calls ih =>
    refine Grows.trans ?_ (ih (call.run s))
    cases call with
    | thenFn id => exact grows_maybeRegister _ _ _
    | delay id duration => exact Grows.refl _
    | waitForSignal id signalName timeout => exact Grows.refl _

namespace RouteBuilder

@[simp] theorem parent_insert (key : Option String) (c : WorkflowContinuation) (r : RouteBuilder) :
    (r.insert key c).parent = r.parent := by
  cases key <;> rfl

theorem branch_grows (key : Option String) (calls : List SubCall) (r : RouteBuilder) :
    Grows r.parent (r.branch key calls).parent := by
  have hsub := SubCall.foldl_grows calls ⟨r.parent, none⟩
  simp only [branch]
  split
  · rw [parent_insert]
    exact hsub
  · exact hsub.trans (grows_pushErrors _ _)

theorem branchRegistered_grows (key : Option String) (taskIds : List String) (r : RouteBuilder) :
    Grows r.parent (r.branchRegistered key taskIds).parent := by
  simp only [branchRegistered]
  split
  · split
    · rw [parent_insert]
      exact Grows.refl _
    · exact grows_pushErrors _ _
  · exact grows_pushErrors _ _

end RouteBuilder

theorem routeBuilder_grows (branches : List (Option String × List SubCall))
    (b : WorkflowBuilder) : Grows b (routeBuilder branches b).parent := by
  have hfold : ∀ r : RouteBuilder,
      Grows r.parent (branches.foldl (fun r call => r.branch call.1 call.2) r).parent := by
    induction branches with
    | nil => exact fun r => Grows.refl _
    | cons call branches ih => exact fun r => (r.branch_grows call.1 call.2).trans (ih _)
  have hopen : Grows b (RouteBuilder.ofRoute b).parent := by
    have hcounter : Grows b { b with branchCounter := b.branchCounter + 1 } :=
      ⟨rfl, List.prefix_refl _, rfl, fun _ h => h⟩
    exact hcounter.trans (grows_maybeRegister _ _ _)
  exact hopen.trans (hfold _)

theorem routeRegisteredBuilder_grows (id : String)
    (branches : List (Option String × List String)) (b : WorkflowBuilder) :
    Grows b (routeRegisteredBuilder id branches b).parent := by
  have hfold : ∀ r : RouteBuilder,
      Grows r.parent (branches.foldl (fun r call => r.branchRegistered call.1 call.2) r).parent := by
    induction branches with
    | nil => exact fun r => Grows.refl _
    | cons call branches ih => exact fun r => (r.branchRegistered_grows call.1 call.2).trans (ih _)
  exact (grows_pushErrors _ b).trans (hfold (.ofRouteRegistered id b))

/-! ## The node of a step -/

/-- The node of a route. -/
def RouteBuilder.node (r : RouteBuilder) : WorkflowContinuation :=
  .branch r.branchId r.keyFn r.namedBranches r.defaultBranch none

/-- A loop around one task. -/
def loopNode (loopId bodyId : String) (fields : TaskFields) (maxIterations : Nat)
    (onMax : MaxIterationsPolicy) : WorkflowContinuation :=
  .loop loopId (.task bodyId fields none) maxIterations onMax none

/-- The node that the step appends. -/
def Step.node (b : WorkflowBuilder) : Step → WorkflowContinuation
  | thenFn id => .task id (TaskMetadata.fields true default) none
  | thenTaskWith task => .task task.taskId (task.metadata.fields true) none
  | thenRegistered id => .task id ((b.getMetadata id).fields (b.get id)) none
  | loopTaskWithPolicy id maxIterations onMax => loopNode (loopNodeId b.loopCounter) id
      (TaskMetadata.fields true default) maxIterations onMax
  | loopTaskStructWithPolicy task maxIterations onMax => loopNode (loopNodeId b.loopCounter)
      task.taskId (task.metadata.fields true) maxIterations onMax
  | loopTaskRegistered id maxIterations onMax => loopNode (loopNodeId b.loopCounter) id
      ((b.getMetadata id).fields (b.get id)) maxIterations onMax
  | delay id duration => .delay id duration none
  | waitForSignal id signalName timeout => .awaitSignal id signalName timeout none
  | thenFlow child => .childWorkflow s!"child_{b.childCounter}" child none
  | thenSerializableFlow child =>
    .childWorkflow s!"child_{b.childCounter}" child.continuation none
  | join collected calls id => (forkBuilder collected calls b).node
      (fun _ => TaskMetadata.fields true default) id (TaskMetadata.fields true default)
  | joinRegistered collected calls id =>
    let parent := (forkBuilder collected calls b).parent
    (forkBuilder collected calls b).node (fun b => (parent.getMetadata b).fields true) id
      ((parent.getMetadata id).fields (parent.get id))
  | route _ branches => (routeBuilder branches b).node
  | routeRegistered id branches => (routeRegisteredBuilder id branches b).node

/-- The id to which a `with_metadata` behind the step refers. -/
def Step.lastId (b : WorkflowBuilder) : Step → String
  | thenFn id | thenRegistered id | delay id _ | waitForSignal id _ _ | join _ _ id
  | joinRegistered _ _ id => id
  | thenTaskWith task => task.taskId
  | loopTaskWithPolicy _ _ _ | loopTaskStructWithPolicy _ _ _ | loopTaskRegistered _ _ _ =>
    loopNodeId b.loopCounter
  | thenFlow _ | thenSerializableFlow _ => s!"child_{b.childCounter}"
  | route _ branches => (routeBuilder branches b).branchId
  | routeRegistered id branches => (routeRegisteredBuilder id branches b).branchId

theorem grows_merge (child : TaskRegistry) (b : WorkflowBuilder) :
    Grows b { b with registry := b.registry.map fun r => TaskRegistry.merge r child } := by
  refine ⟨rfl, List.prefix_refl _, Option.isSome_map, fun id hid => ?_⟩
  unfold WorkflowBuilder.get TaskRegistry.contains at *
  cases hb : b.registry with
  | none => rw [hb] at hid; cases hid
  | some r =>
    rw [hb] at hid
    have hmem : id ∈ r := AList.lookup_isSome.mp hid
    exact AList.lookup_isSome.mpr (AList.mem_union.mpr (.inl hmem))

namespace Step

/-- **A step appends its node**, after calls that only add entries and errors. -/
theorem run_eq (step : Step) (b : WorkflowBuilder) :
    ∃ b', Grows b b' ∧ step.run b = b'.extend (step.node b) (step.lastId b) := by
  have hloop : ∀ {b' : WorkflowBuilder} (n : Nat), Grows b b' →
      Grows b { b' with loopCounter := n } := fun _ h =>
      ⟨h.continuation, h.errors, h.registry, h.get⟩
  have hchild : ∀ {b' : WorkflowBuilder} (n : Nat), Grows b b' →
      Grows b { b' with childCounter := n } := fun _ h =>
      ⟨h.continuation, h.errors, h.registry, h.get⟩
  cases step with
  | thenFn id => exact ⟨_, grows_maybeRegister id default b, rfl⟩
  | thenTaskWith task => exact ⟨_, grows_maybeRegister task.taskId task.metadata b, rfl⟩
  | thenRegistered id => exact ⟨_, grows_pushErrors _ b, rfl⟩
  | loopTaskWithPolicy id maxIterations onMax =>
    exact ⟨_, hloop _ ((grows_pushErrors _ b).trans (grows_maybeRegister id default _)),
      rfl⟩
  | loopTaskStructWithPolicy task maxIterations onMax =>
    exact ⟨_, hloop _ ((grows_pushErrors _ b).trans
      (grows_maybeRegister task.taskId task.metadata _)), rfl⟩
  | loopTaskRegistered id maxIterations onMax =>
    exact ⟨_, hloop _ ((grows_pushErrors _ b).trans (grows_pushErrors _ _)), rfl⟩
  | delay id duration => exact ⟨b, Grows.refl b, rfl⟩
  | waitForSignal id signalName timeout => exact ⟨b, Grows.refl b, rfl⟩
  | thenFlow child => exact ⟨_, hchild _ (Grows.refl b), rfl⟩
  | thenSerializableFlow child => exact ⟨_, hchild _ (grows_merge child.registry b), rfl⟩
  | join collected calls id =>
    exact ⟨_, (forkBuilder_grows collected calls b).trans (grows_maybeRegister id default _), rfl⟩
  | joinRegistered collected calls id =>
    exact ⟨_, (forkBuilder_grows collected calls b).trans (grows_pushErrors _ _), rfl⟩
  | route allKeys branches =>
    exact ⟨_, ((routeBuilder_grows branches b).trans (grows_pushErrors _ _)).trans
      (grows_pushErrors _ _), rfl⟩
  | routeRegistered id branches => exact ⟨_, routeRegisteredBuilder_grows id branches b, rfl⟩

theorem run_continuation (step : Step) (b : WorkflowBuilder) :
    (step.run b).continuation = some (appendNext (step.node b) b.continuation) := by
  obtain ⟨b', hgrows, heq⟩ := step.run_eq b
  rw [heq, ← hgrows.continuation]
  rfl

theorem run_lastTaskId (step : Step) (b : WorkflowBuilder) :
    (step.run b).lastTaskId = some (step.lastId b) := by
  obtain ⟨b', -, heq⟩ := step.run_eq b
  rw [heq]
  rfl

theorem run_errors (step : Step) (b : WorkflowBuilder) : b.errors <+: (step.run b).errors := by
  obtain ⟨b', hgrows, heq⟩ := step.run_eq b
  rw [heq]
  exact hgrows.errors

theorem run_registry (step : Step) (b : WorkflowBuilder) :
    (step.run b).registry.isSome = b.registry.isSome := by
  obtain ⟨b', hgrows, heq⟩ := step.run_eq b
  rw [heq]
  exact hgrows.registry

theorem run_get (step : Step) {b : WorkflowBuilder} {id : String} (h : b.get id = true) :
    (step.run b).get id = true := by
  obtain ⟨b', hgrows, heq⟩ := step.run_eq b
  rw [heq]
  exact hgrows.get id h

end Step

end Sayiir
