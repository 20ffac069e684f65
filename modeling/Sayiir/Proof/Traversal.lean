import Sayiir.Proof.Builder
import Sayiir.Proof.Rebuild
import Sayiir.Proof.Recursions

/-!
# Traversals agree

The tree is walked in four ways: by an iterator with a stack, by the recursion that
looks for an id twice, by the recursion that looks for a task, and by the descent
of a worker, which asks of a subtree whether it contains the id. All of them see
the nodes of the tree, each once (`subtrees`), so that in a tree with distinct ids
they find the same node.
-/

namespace Sayiir

open WorkflowContinuation

/-! ## The iterator -/

/-- The iterator yields what is below the stack, each node once. -/
theorem NodeIter.collect_perm (stack : NodeIter) :
    ∃ visits : NodeIter, stack.collect = visits.map (fun v => v.1.nodeInfo v.2) ∧
      (visits.map Prod.fst).Perm (stack.flatMap fun entry => entry.1.subtrees) := by
  induction stack using NodeIter.collect.induct with
  | case1 => exact ⟨[], by rw [collect]; rfl, List.Perm.refl _⟩
  | case2 c predecessor stack ih =>
    obtain ⟨visits, heq, hperm⟩ := ih
    refine ⟨(c, predecessor) :: visits, by rw [collect, heq]; rfl, ?_⟩
    rw [List.flatMap_append, List.flatMap_map] at hperm
    rw [List.flatMap_cons, subtrees_eq]
    exact (hperm.trans ((c.pushed_perm.flatMap_right _).append_right _)).cons c

/-- What is yielded comes behind its predecessor, which is known already or yielded before. -/
theorem NodeIter.collect_order (stack : NodeIter) (known : List String)
    (h : ∀ entry ∈ stack, ∃ p ∈ known, entry.2 = some p) {before after : List NodeInfo}
    {n : NodeInfo} (heq : stack.collect = before ++ n :: after) :
    ∃ p, n.predecessorId = some p ∧ (p ∈ known ∨ ∃ m ∈ before, m.id = p) := by
  induction stack using NodeIter.collect.induct generalizing known before with
  | case1 => simp [collect] at heq
  | case2 c predecessor stack ih =>
    rw [collect] at heq
    cases before with
    | nil =>
      obtain ⟨rfl, -⟩ := List.cons.inj heq
      obtain ⟨p, hp, hpred⟩ := h _ (List.mem_cons_self ..)
      exact ⟨p, by cases c <;> exact hpred, .inl hp⟩
    | cons m before =>
      rw [List.cons_append, List.cons.injEq] at heq
      obtain ⟨rfl, heq⟩ := heq
      -- the children of the node may refer to it
      have hstack : ∀ entry ∈ (c.pushed.map fun n => (n, some c.id)) ++ stack,
          ∃ p ∈ c.id :: known, entry.2 = some p := by
        intro entry hentry
        rcases List.mem_append.mp hentry with hentry | hentry
        · obtain ⟨d, -, rfl⟩ := List.mem_map.mp hentry
          exact ⟨c.id, List.mem_cons_self .., rfl⟩
        · obtain ⟨p, hp, heq⟩ := h entry (List.mem_cons_of_mem _ hentry)
          exact ⟨p, List.mem_cons_of_mem _ hp, heq⟩
      obtain ⟨p, hp, hknown⟩ := ih (c.id :: known) hstack heq
      refine ⟨p, hp, ?_⟩
      rcases hknown with hmem | ⟨m, hm, hid⟩
      · rcases List.mem_cons.mp hmem with rfl | hmem
        · exact .inr ⟨_, List.mem_cons_self .., by cases c <;> rfl⟩
        · exact .inl hmem
      · exact .inr ⟨m, List.mem_cons_of_mem _ hm, hid⟩

theorem id_nodeInfo (predecessor : Option String) (c : WorkflowContinuation) :
    (c.nodeInfo predecessor).id = c.id := by
  cases c <;> rfl

/-! ## Ids that occur twice -/

theorem firstDuplicate_append (seen ids ids' : List String) :
    firstDuplicate seen (ids ++ ids')
      = (firstDuplicate seen ids).or (firstDuplicate (ids.reverse ++ seen) ids') := by
  induction ids generalizing seen with
  | nil => rfl
  | cons id ids ih =>
    rw [List.cons_append, firstDuplicate, firstDuplicate]
    split
    · rfl
    · rw [ih, List.reverse_cons, List.append_assoc, List.singleton_append]

/-- The recursion sees the ids one after the other, a node before what is below it. -/
theorem collectIds_eq {T : Type} {id : T → String} {parts : T → List T} {ids : T → List String}
    (hids : ∀ t, ids t = id t :: (parts t).flatMap ids) (depth : Nat) :
    ∀ (t : T) (seen : List String), (ids t).length ≤ depth →
      collectIds id parts depth seen t = match firstDuplicate seen (ids t) with
        | some d => .error d
        | none => .ok ((ids t).reverse ++ seen) := by
  induction depth with
  | zero => intro t seen h; simp [hids t] at h
  | succ depth ih =>
    intro t seen hlen
    rw [hids t] at hlen ⊢
    rw [collectIds, firstDuplicate]
    split
    · rfl
    · rw [List.length_cons] at hlen
      have hparts : ∀ (ts : List T) (seen : List String), (ts.flatMap ids).length ≤ depth →
          ts.foldlM (collectIds id parts depth) seen
            = match firstDuplicate seen (ts.flatMap ids) with
              | some d => .error d
              | none => .ok ((ts.flatMap ids).reverse ++ seen) := by
        intro ts
        induction ts with
        | nil => intro seen _; rfl
        | cons t ts iht =>
          intro seen h
          rw [List.flatMap_cons, List.length_append] at h
          rw [List.foldlM_cons, ih t seen (by omega), List.flatMap_cons, firstDuplicate_append]
          cases firstDuplicate seen (ids t) with
          | some d => rfl
          | none =>
            refine (iht _ (by omega)).trans ?_
            simp only [Option.none_or, List.reverse_append, List.append_assoc]
      rw [hparts _ _ (by omega), List.reverse_cons, List.append_assoc, List.singleton_append]

theorem WorkflowContinuation.searchDuplicateId_eq (c : WorkflowContinuation) :
    c.searchDuplicateId = firstDuplicate [] c.taskIds := by
  rw [searchDuplicateId, collectIds_eq taskIds_eq _ c [] le_rfl]
  cases firstDuplicate [] c.taskIds <;> rfl

theorem SerializableContinuation.searchDuplicateId_eq (c : SerializableContinuation) :
    c.searchDuplicateId = firstDuplicate [] c.taskIds := by
  rw [searchDuplicateId, collectIds_eq SerializableContinuation.taskIds_eq _ c [] le_rfl]
  cases firstDuplicate [] c.taskIds <;> rfl

theorem firstDuplicate_isSome_iff (ids : List String) :
    (firstDuplicate [] ids).isSome ↔ ∃ id, 2 ≤ ids.count id := by
  have hnone := firstDuplicate_eq_none_iff [] ids
  rw [List.nodup_iff_count_le_one] at hnone
  rw [← Option.ne_none_iff_isSome, ne_eq, hnone]
  simp [Nat.lt_iff_add_one_le]

/-- **The traversals agree.** The iterator yields every node of the tree once, the root first
and every other node behind its predecessor; its ids are those of the serializable form; and
the search for a duplicate finds one exactly when some id occurs twice, in either tree. -/
theorem traversals_agree (c : WorkflowContinuation) (s : SerializableContinuation) :
    (∃ visits : NodeIter, c.iterNodes = visits.map (fun v => v.1.nodeInfo v.2) ∧
      (visits.map Prod.fst).Perm c.subtrees) ∧
    (∀ before n after, c.iterNodes = before ++ n :: after →
      before = [] ∧ n.predecessorId = none ∨ ∃ m ∈ before, n.predecessorId = some m.id) ∧
    (c.iterNodes.map NodeInfo.id).Perm c.toSerializable.taskIds ∧
    (c.searchDuplicateId.isSome ↔ ∃ id, 2 ≤ c.toSerializable.taskIds.count id) ∧
    (s.searchDuplicateId.isSome ↔ ∃ id, 2 ≤ s.taskIds.count id) := by
  obtain ⟨visits, heq, hperm⟩ := NodeIter.collect_perm [(c, none)]
  rw [List.flatMap_singleton] at hperm
  refine ⟨⟨visits, heq, hperm⟩, ?_, ?_, ?_, ?_⟩
  · intro before n after hsplit
    rw [iterNodes, NodeIter.collect] at hsplit
    cases before with
    | nil =>
      obtain ⟨rfl, -⟩ := List.cons.inj hsplit
      exact .inl ⟨rfl, by cases c <;> rfl⟩
    | cons m before =>
      rw [List.cons_append, List.cons.injEq] at hsplit
      obtain ⟨rfl, hsplit⟩ := hsplit
      obtain ⟨p, hp, hknown⟩ := NodeIter.collect_order _ [c.id] (by simp) hsplit
      refine .inr ?_
      rcases hknown with hmem | ⟨m, hm, rfl⟩
      · rw [List.mem_singleton.mp hmem] at hp
        exact ⟨_, List.mem_cons_self .., by rw [hp, id_nodeInfo]⟩
      · exact ⟨m, List.mem_cons_of_mem _ hm, hp⟩
  · rw [taskIds_toSerializable, ← map_id_subtrees, iterNodes, heq, List.map_map]
    have hid : (NodeInfo.id ∘ fun v : WorkflowContinuation × Option String => v.1.nodeInfo v.2)
        = WorkflowContinuation.id ∘ Prod.fst := by
      funext v
      exact id_nodeInfo v.2 v.1
    rw [hid, ← List.map_map]
    exact hperm.map _
  · rw [c.searchDuplicateId_eq, firstDuplicate_isSome_iff, taskIds_toSerializable]
  · rw [s.searchDuplicateId_eq, firstDuplicate_isSome_iff]

/-! ## Tasks by id -/

namespace WorkflowContinuation

variable [Sha256] {c : WorkflowContinuation} {t : TaskId}

/-- The node that is looked for. -/
def MatchesTask (t : TaskId) (n : WorkflowContinuation) : Prop :=
  n.isTask = true ∧ TaskId.sha256 n.id = t

theorem findTask_self (h : MatchesTask t c) : c.findTask t = some c := by
  cases c with
  | task id fields next => exact if_pos h.2
  | _ => cases h.1

/-- `find_task` goes through the children in their order. -/
theorem findTask_eq (h : ¬ MatchesTask t c) :
    c.findTask t = c.children.findSome? (findTask t) := by
  have hnext : ∀ o : Option WorkflowContinuation,
      findTaskNext t o = o.toList.findSome? (findTask t) := by
    intro o
    cases o <;> simp [findTaskNext]
  have hbranches : ∀ cs : List WorkflowContinuation,
      findTaskIn t cs = cs.findSome? (findTask t) := by
    intro cs
    induction cs with
    | nil => rfl
    | cons c cs ih => cases h : c.findTask t <;> simp [findTaskIn, ih, h]
  have hroutes : ∀ rs : List (String × WorkflowContinuation),
      findTaskRoutes t rs = (rs.map Prod.snd).findSome? (findTask t) := by
    intro rs
    induction rs with
    | nil => rfl
    | cons r rs ih => cases h : r.2.findTask t <;> simp [findTaskRoutes, ih, h]
  cases c with
  | task id fields next => exact (if_neg fun hid => h ⟨rfl, hid⟩).trans (hnext next)
  | loop id body maxIterations onMax next | childWorkflow id body next =>
    cases hbody : body.findTask t <;> simp [findTask, children, hnext, hbody]
  | _ => simp [findTask, children, hnext, hbranches, hroutes, List.findSome?_append]

/-- What is found is a match of the tree, and if nothing is found there is none. -/
theorem findTask_cases (t : TaskId) (c : WorkflowContinuation) :
    (∃ n ∈ c.subtrees, MatchesTask t n ∧ c.findTask t = some n) ∨
      c.findTask t = none ∧ ∀ n ∈ c.subtrees, ¬ MatchesTask t n := by
  induction c using children_induct with
  | step c ih =>
    rw [subtrees_eq]
    by_cases hc : MatchesTask t c
    · exact .inl ⟨c, by simp, hc, findTask_self hc⟩
    · rw [findTask_eq hc]
      cases hfound : c.children.findSome? (findTask t) with
      | some n =>
        obtain ⟨d, hd, hn⟩ := List.exists_of_findSome?_eq_some hfound
        rcases ih d hd with ⟨m, hm, hmatch, heq⟩ | ⟨hnone, -⟩
        · obtain rfl := Option.some.inj (hn.symm.trans heq)
          exact .inl ⟨n, List.mem_cons_of_mem _ (List.mem_flatMap.mpr ⟨d, hd, hm⟩), hmatch, rfl⟩
        · rw [hn] at hnone
          cases hnone
      | none =>
        refine .inr ⟨rfl, ?_⟩
        intro n hn
        rcases List.mem_cons.mp hn with rfl | hn
        · exact hc
        · obtain ⟨d, hd, hn⟩ := List.mem_flatMap.mp hn
          rcases ih d hd with ⟨m, -, -, heq⟩ | ⟨-, hall⟩
          · rw [List.findSome?_eq_none_iff.mp hfound d hd] at heq
            cases heq
          · exact hall n hn

/-- The predicate that guides the descent. -/
theorem findTaskIdInContinuation_iff (c : WorkflowContinuation) :
    c.findTaskIdInContinuation t ↔ c.metadata.isSome ∧ TaskId.sha256 c.id = t ∨
      ∃ d ∈ c.children, d.findTaskIdInContinuation t := by
  have hnext : ∀ o : Option WorkflowContinuation,
      taskIdInNext t o ↔ ∃ d ∈ o.toList, d.findTaskIdInContinuation t := by
    intro o
    cases o <;> simp [taskIdInNext]
  have hbranches : ∀ cs : List WorkflowContinuation,
      taskIdInBranches t cs ↔ ∃ d ∈ cs, d.findTaskIdInContinuation t := by
    intro cs
    induction cs with
    | nil => simp [taskIdInBranches]
    | cons c cs ih => simp [taskIdInBranches, ih]
  have hroutes : ∀ rs : List (String × WorkflowContinuation),
      taskIdInRoutes t rs ↔ ∃ d ∈ rs.map Prod.snd, d.findTaskIdInContinuation t := by
    intro rs
    induction rs with
    | nil => simp [taskIdInRoutes]
    | cons r rs ih => simp [taskIdInRoutes, ih]
  cases c <;> simp [findTaskIdInContinuation, metadata, children, hnext, hbranches, hroutes,
    WorkflowContinuation.id, or_and_right, exists_or]

theorem mem_ids_of_findTaskIdInContinuation (h : c.findTaskIdInContinuation t) : t ∈ c.ids := by
  induction c using children_induct with
  | step c ih =>
    rcases (findTaskIdInContinuation_iff c).mp h with ⟨-, rfl⟩ | ⟨d, hd, h⟩
    · exact c.sha256_mem_ids
    · exact ids_subset_of_child hd (ih d hd h)

theorem findTaskIdInContinuation_of_findTask {n : WorkflowContinuation}
    (h : c.findTask t = some n) : c.findTaskIdInContinuation t := by
  induction c using children_induct with
  | step c ih =>
    rw [findTaskIdInContinuation_iff]
    by_cases hc : MatchesTask t c
    · refine .inl ⟨?_, hc.2⟩
      cases c with
      | task id fields next => rfl
      | _ => cases hc.1
    · rw [findTask_eq hc] at h
      obtain ⟨d, hd, hn⟩ := List.exists_of_findSome?_eq_some h
      exact .inr ⟨d, hd, ih d hd hn⟩

/-- **The descent ends at the task that `find_task` finds.** -/
theorem executeTaskById_eq_findTask (hc : c.ids.Nodup) :
    c.executeTaskById t = match c.findTask t with
      | some (.task id fields _) =>
        if fields.func then .ok id else .error (.workflow (.taskNotImplemented id))
      | _ => .error (.workflow (.taskNotFound t.toHex)) := by
  induction c using children_induct with
  | step c ih =>
    rcases executeTaskById_cases t c with ⟨id, fields, next, rfl, hid, hrun⟩ | ⟨hself, hcases⟩
    · have hself : MatchesTask t (.task id fields next) := ⟨rfl, hid⟩
      rw [hrun, findTask_self hself]
    · have hno : ¬ MatchesTask t c := fun h => hself h.1 h.2
      rcases hcases with ⟨k, hk, hrun, honly⟩ | ⟨hrun, hnone⟩
      · -- whatever child finds the task contains its id, and only one child does
        have hfind : c.findTask t = k.findTask t := by
          have honly' : ∀ m ∈ c.children, ∀ n, m.findTask t = some n → m = k := by
            intro m hm n hn
            have hin := findTaskIdInContinuation_of_findTask hn
            rcases honly m hm hin with hk' | rfl
            · exact child_unique hc hm hk (mem_ids_of_findTaskIdInContinuation hin)
                (mem_ids_of_findTaskIdInContinuation hk')
            · rfl
          rw [findTask_eq hno]
          cases hfound : c.children.findSome? (findTask t) with
          | none => rw [List.findSome?_eq_none_iff.mp hfound k hk]
          | some n =>
            obtain ⟨m, hm, hn⟩ := List.exists_of_findSome?_eq_some hfound
            rw [← honly' m hm n hn, hn]
        rw [hrun, hfind, ih k hk (nodup_child hc hk)]
      · have hfind : c.findTask t = none := by
          rw [findTask_eq hno, List.findSome?_eq_none_iff]
          intro m hm
          cases hn : m.findTask t with
          | none => rfl
          | some n => exact absurd (findTaskIdInContinuation_of_findTask hn) (hnone m hm)
        rw [hrun, hfind]

/-! ## The index -/

/-- The entries of the index are the tasks, delays and signal waits of the tree. -/
theorem mem_buildIndex {m : TaskNodeMetadata} : (t, m) ∈ c.buildIndex ↔
    ∃ n ∈ c.subtrees, n.metadata = some m ∧ TaskId.sha256 n.id = t := by
  obtain ⟨visits, heq, hperm⟩ := NodeIter.collect_perm [(c, none)]
  rw [List.flatMap_singleton] at hperm
  have hentry : ∀ v : WorkflowContinuation × Option String,
      (v.1.nodeInfo v.2).kind ∈ [.task, .delay, .awaitSignal] ∧
        (TaskId.sha256 (v.1.nodeInfo v.2).id, (⟨(v.1.nodeInfo v.2).id,
          (v.1.nodeInfo v.2).timeout.filter fun _ => (v.1.nodeInfo v.2).kind = .task,
          (v.1.nodeInfo v.2).priority, (v.1.nodeInfo v.2).tags, (v.1.nodeInfo v.2).retryPolicy,
          (v.1.nodeInfo v.2).version⟩ : TaskNodeMetadata)) = (t, m)
        ↔ v.1.metadata = some m ∧ TaskId.sha256 v.1.id = t := by
    rintro ⟨n, predecessor⟩
    cases n with
    | task id fields next =>
      have htimeout : (fields.timeout.filter fun _ => true) = fields.timeout := by
        cases fields.timeout <;> rfl
      simp [nodeInfo, metadata, WorkflowContinuation.id, htimeout, and_comm]
    | _ => simp [nodeInfo, metadata, WorkflowContinuation.id, and_comm]
  simp only [buildIndex, iterNodes, heq, List.mem_map, List.mem_filter, decide_eq_true_eq]
  constructor
  · rintro ⟨_, ⟨⟨v, hv, rfl⟩, hkind⟩, hinfo⟩
    exact ⟨v.1, hperm.mem_iff.mp (List.mem_map_of_mem hv), (hentry v).mp ⟨hkind, hinfo⟩⟩
  · rintro ⟨n, hn, h⟩
    obtain ⟨v, hv, rfl⟩ := List.mem_map.mp (hperm.mem_iff.mpr hn)
    obtain ⟨hkind, hinfo⟩ := (hentry v).mpr h
    exact ⟨_, ⟨⟨v, hv, rfl⟩, hkind⟩, hinfo⟩

/-- In a tree with distinct ids no entry of the index replaces another. -/
theorem get_buildIndex (hc : c.ids.Nodup) {m : TaskNodeMetadata} :
    TaskEntries.get c.buildIndex t = some m ↔
      ∃ n ∈ c.subtrees, n.metadata = some m ∧ TaskId.sha256 n.id = t := by
  rw [← mem_buildIndex]
  constructor
  · intro h
    obtain ⟨before, after, heq, -⟩ := List.lookup_eq_some_iff.mp h
    rw [← List.mem_reverse, heq]
    exact List.mem_append_right _ (List.mem_cons_self ..)
  · intro h
    cases hget : TaskEntries.get c.buildIndex t with
    | none => exact absurd (List.lookup_eq_none_iff.mp hget _ (List.mem_reverse.mpr h)) (by simp)
    | some m' =>
      obtain ⟨before, after, heq, -⟩ := List.lookup_eq_some_iff.mp hget
      have h' : (t, m') ∈ c.buildIndex := by
        rw [← List.mem_reverse, heq]
        exact List.mem_append_right _ (List.mem_cons_self ..)
      obtain ⟨n, hn, hm, hid⟩ := mem_buildIndex.mp h
      obtain ⟨n', hn', hm', hid'⟩ := mem_buildIndex.mp h'
      rw [eq_of_digest hc hn hn' (hid.trans hid'.symm), hm'] at hm
      exact hm

/-- **The lookups agree** in a tree whose ids are distinct: the index answers what the walks
through the tree answer, and the descent of a worker ends at the task that the search
finds, or at the error that there is none. -/
theorem lookups_agree (c : WorkflowContinuation) (t : TaskId) (hc : c.ids.Nodup) :
    TaskEntries.buildTaskMetadata c.buildIndex t = c.buildTaskMetadata t ∧
    TaskEntries.timeout c.buildIndex t = c.getTaskTimeout t ∧
    TaskEntries.priority c.buildIndex t = c.getTaskPriority t ∧
    TaskEntries.tags c.buildIndex t = c.getTaskTags t ∧
    TaskEntries.retryPolicy c.buildIndex t = c.getTaskRetryPolicy t ∧
    c.executeTaskById t = match c.findTask t with
      | some (.task id fields _) =>
        if fields.func then .ok id else .error (.workflow (.taskNotImplemented id))
      | _ => .error (.workflow (.taskNotFound t.toHex)) := by
  simp only [← and_assoc]
  refine ⟨?_, executeTaskById_eq_findTask hc⟩
  simp only [TaskEntries.buildTaskMetadata, TaskEntries.timeout, TaskEntries.priority,
    TaskEntries.tags, TaskEntries.retryPolicy, buildTaskMetadata, getTaskTimeout, getTaskPriority,
    getTaskTags, getTaskRetryPolicy, taskFields]
  rcases findTask_cases t c with ⟨n, hn, hmatch, hfind⟩ | ⟨hfind, hnone⟩
  · cases n with
    | task id fields next =>
      rw [hfind, (get_buildIndex hc).mpr ⟨_, hn, rfl, hmatch.2⟩]
      simp
    | _ => cases hmatch.1
  · rw [hfind]
    cases hget : TaskEntries.get c.buildIndex t with
    | none => simp
    | some m =>
      -- a delay or a signal wait, which the index lists without any settings
      obtain ⟨n, hn, hm, hid⟩ := (get_buildIndex hc).mp hget
      cases n with
      | task id fields next => exact absurd ⟨rfl, hid⟩ (hnone _ hn)
      | delay id duration next | awaitSignal id signalName timeout next =>
        cases hm
        exact ⟨⟨⟨⟨rfl, rfl⟩, rfl⟩, rfl⟩, rfl⟩
      | _ => cases hm

end WorkflowContinuation

attribute [local instance] Sha256.packed

/-- A task and a delay: the delay is in the index, and no search for a task finds it. -/
theorem WorkflowContinuation.lookups_agree_delay :
    let c := WorkflowContinuation.task "a" .plain (some (.delay "b" 1 none))
    c.ids.Nodup ∧ c.findTask (TaskId.sha256 "b") = none ∧
      TaskEntries.timeout c.buildIndex (TaskId.sha256 "b") = none :=
  have hc := by decide
  ⟨hc, by decide, (lookups_agree _ _ hc).2.1.trans (by decide)⟩

end Sayiir
