import Sayiir.Runtime.Worker

/-!
# The recursions of a worker

General rules for the tree recursions between two polls: what every single move
and every settled loop keeps, the recursion keeps. And the facts about them that
need no assumption on the tree.
-/

namespace Sayiir

open WorkflowContinuation WorkflowContinuation

variable {s : WorkflowSnapshot}

/-! ## Moving the position -/

/-- If the computation succeeds on a snapshot with `P`, so does its result have `P`. -/
def Preserves (P : WorkflowSnapshot → Prop)
    (f : WorkflowSnapshot → Except RuntimeError WorkflowSnapshot) : Prop :=
  ∀ s s', f s = .ok s' → P s → P s'

namespace Preserves

variable {P : WorkflowSnapshot → Prop}

theorem ok : Preserves P fun s => .ok s := by
  rintro s s' ⟨⟩ hs
  exact hs

theorem bind {f g : WorkflowSnapshot → Except RuntimeError WorkflowSnapshot}
    (hf : Preserves P f) (hg : Preserves P g) : Preserves P fun s => f s >>= g := by
  intro s s' h hs
  obtain ⟨t, hfs, hgt⟩ := Except.bind_eq_ok_iff.mp h
  exact hg t s' hgt (hf s t hfs hs)

end Preserves

section moves

variable [Sha256] {P : WorkflowSnapshot → Prop} {now : Time} {taskId : TaskId}

theorem preserves_moveTo (next : Option WorkflowContinuation)
    (h : ∀ n, next = some n → Preserves P (setPositionAt now n)) :
    Preserves P (moveTo now next) := by
  cases next with
  | none => exact .ok
  | some n => exact h n rfl

theorem preserves_updatePositionNext (next : Option WorkflowContinuation)
    (h : ∀ n, next = some n → Preserves P (n.updatePositionAfterTask now taskId)) :
    Preserves P (updatePositionNext now taskId next) := by
  intro s s' hs
  cases next with
  | none =>
    unfold updatePositionNext at hs
    exact Preserves.ok s s' hs
  | some n =>
    unfold updatePositionNext at hs
    exact h n rfl s s' hs

/-- The node after which the position moves, or the search behind it. -/
theorem preserves_chain (id : String) (next : Option WorkflowContinuation)
    (hset : ∀ n, next = some n → Preserves P (setPositionAt now n))
    (ih : ∀ n, next = some n → Preserves P (n.updatePositionAfterTask now taskId)) :
    Preserves P fun s => if TaskId.sha256 id = taskId then moveTo now next s
      else updatePositionNext now taskId next s := by
  split
  · exact preserves_moveTo next hset
  · exact preserves_updatePositionNext next ih

theorem preserves_updatePositionBranches (cs : List WorkflowContinuation)
    (h : ∀ c ∈ cs, Preserves P (c.updatePositionAfterTask now taskId)) :
    Preserves P (updatePositionBranches now taskId cs) := by
  induction cs with
  | nil =>
    intro s s' hs
    unfold updatePositionBranches at hs
    exact Preserves.ok s s' hs
  | cons c cs ih =>
    intro s s' hs
    unfold updatePositionBranches at hs
    exact (h c (by simp)).bind (ih fun d hd => h d (by simp [hd])) s s' hs

theorem preserves_updatePositionRoutes (rs : List (String × WorkflowContinuation))
    (h : ∀ r ∈ rs, Preserves P (r.2.updatePositionAfterTask now taskId)) :
    Preserves P (updatePositionRoutes now taskId rs) := by
  induction rs with
  | nil =>
    intro s s' hs
    unfold updatePositionRoutes at hs
    exact Preserves.ok s s' hs
  | cons r rs ih =>
    intro s s' hs
    unfold updatePositionRoutes at hs
    exact (h r (by simp)).bind (ih fun d hd => h d (by simp [hd])) s s' hs

theorem preserves_advanceFork (branches : List WorkflowContinuation)
    (join : Option WorkflowContinuation)
    (hb : ∀ b ∈ branches, Preserves P (setPositionAt now b))
    (hj : ∀ n, join = some n → Preserves P (setPositionAt now n)) :
    Preserves P (advanceFork now taskId branches join) := by
  intro s s' h hs
  unfold advanceFork at h
  split at h
  · split at h
    · rename_i b hfind
      exact hb b (List.mem_of_find?_eq_some hfind) s s' h hs
    · exact preserves_moveTo join hj s s' h hs
  · exact Preserves.ok s s' h hs

/-- **What every move to a node of the tree keeps, the move after a task keeps.** -/
theorem preserves_updatePositionAfterTask (c : WorkflowContinuation)
    (hset : ∀ n ∈ c.subtrees, Preserves P (setPositionAt now n)) :
    Preserves P (c.updatePositionAfterTask now taskId) := by
  induction c using induct with
  | task id fields next ih | delay id duration next ih | awaitSignal id signalName timeout next ih =>
    simp only [subtrees, List.mem_cons, forall_eq_or_imp, mem_subtreesNext] at hset
    intro s s' h
    unfold updatePositionAfterTask at h
    exact preserves_chain id next (fun n hn => hset.2 n ⟨n, hn, n.mem_subtrees_self⟩)
      (fun n hn => ih n hn fun m hm => hset.2 m ⟨n, hn, hm⟩) s s' h
  | fork id branches join ihb ihj =>
    simp only [subtrees, List.mem_cons, forall_eq_or_imp, List.mem_append, mem_subtreesBranches,
      mem_subtreesNext] at hset
    intro s s' h
    unfold updatePositionAfterTask at h
    refine ((preserves_updatePositionBranches branches fun b hb =>
      ihb b hb fun m hm => hset.2 m (.inl ⟨b, hb, hm⟩)).bind
      ((preserves_updatePositionNext join fun n hn =>
        ihj n hn fun m hm => hset.2 m (.inr ⟨n, hn, hm⟩)).bind
      (preserves_advanceFork branches join ?_ ?_))) s s' h
    · exact fun b hb => hset.2 b (.inl ⟨b, hb, b.mem_subtrees_self⟩)
    · exact fun n hn => hset.2 n (.inr ⟨n, hn, n.mem_subtrees_self⟩)
  | branch id keyFn branches default next ihb ihd ihn =>
    simp only [subtrees, List.mem_cons, forall_eq_or_imp, List.mem_append, mem_subtreesRoutes,
      mem_subtreesNext] at hset
    intro s s' h
    unfold updatePositionAfterTask at h
    exact ((preserves_updatePositionRoutes branches fun r hr =>
      ihb r hr fun m hm => hset.2 m (.inl ⟨r, hr, hm⟩)).bind
      ((preserves_updatePositionNext default fun n hn =>
        ihd n hn fun m hm => hset.2 m (.inr (.inl ⟨n, hn, hm⟩))).bind
      (preserves_updatePositionNext next fun n hn =>
        ihn n hn fun m hm => hset.2 m (.inr (.inr ⟨n, hn, hm⟩))))) s s' h
  | loop id body maxIterations onMax next ihb ihn =>
    simp only [subtrees, List.mem_cons, forall_eq_or_imp, List.mem_append,
      mem_subtreesNext] at hset
    intro s s' h
    unfold updatePositionAfterTask at h
    exact (Preserves.bind (ihb fun m hm => hset.2 m (.inl hm))
      (preserves_updatePositionNext next fun n hn =>
        ihn n hn fun m hm => hset.2 m (.inr ⟨n, hn, hm⟩))) s s' h
  | childWorkflow id child next ihc ihn =>
    simp only [subtrees, List.mem_cons, forall_eq_or_imp, List.mem_append,
      mem_subtreesNext] at hset
    intro s s' h
    unfold updatePositionAfterTask at h
    exact (Preserves.bind (ihc fun m hm => hset.2 m (.inl hm))
      (preserves_updatePositionNext next fun n hn =>
        ihn n hn fun m hm => hset.2 m (.inr ⟨n, hn, hm⟩))) s s' h

/-- Moving the position keeps an instance running. -/
theorem isInProgress_setPositionAt (now : Time) (c : WorkflowContinuation) :
    Preserves (fun s => s.isInProgress) (setPositionAt now c) := by
  intro s s' h hs
  unfold setPositionAt at h
  split at h
  · obtain ⟨wakeAt, -, h⟩ := Except.bind_eq_ok_iff.mp h
    cases h
    simpa using hs
  · cases h
    simpa using hs
  · cases h
    simpa using hs

theorem isInProgress_updatePositionAfterTask (c : WorkflowContinuation) :
    Preserves (fun s => s.isInProgress) (c.updatePositionAfterTask now taskId) :=
  preserves_updatePositionAfterTask c fun n _ => isInProgress_setPositionAt now n

end moves

/-! ## Loops -/

/-- Everything that is saved has `P`, and so has the snapshot at the end. -/
def Saving.All (P : WorkflowSnapshot → Prop) (m : Saving) : Prop :=
  (∀ s ∈ m.saves, P s) ∧ ∀ s, m.result = .ok s → P s

namespace Saving

variable {P : WorkflowSnapshot → Prop}

theorem all_ok (hs : P s) : (ok s).All P := by
  refine ⟨by simp [ok], ?_⟩
  rintro t ⟨⟩
  exact hs

theorem All.bind {m : Saving} {f : WorkflowSnapshot → Saving} (hm : m.All P)
    (hf : ∀ s, P s → (f s).All P) : (m.bind f).All P := by
  unfold Saving.bind
  cases hr : m.result with
  | error e => exact hm
  | ok s =>
    have hfs := hf s (hm.2 s hr)
    refine ⟨fun t ht => ?_, hfs.2⟩
    rcases List.mem_append.mp ht with ht | ht
    · exact hm.1 t ht
    · exact hfs.1 t ht

end Saving

section loops

variable {P : WorkflowSnapshot → Prop} {b : Backend} {codec : EnvelopeCodec}

@[simp] theorem isInProgress_afterSave (s : WorkflowSnapshot) :
    (b.afterSave s).isInProgress = s.isInProgress := by
  cases b <;> rfl

theorem Saving.all_save (hs : P s) (hafter : P (b.afterSave s)) :
    (Saving.save b s).All P := by
  refine ⟨by simpa [Saving.save] using hs, ?_⟩
  rintro t ⟨⟩
  exact hafter

variable [Sha256]

theorem all_resolveLoopsNext (next : Option WorkflowContinuation)
    (h : ∀ n, next = some n → ∀ s, P s → (n.resolveLoops b codec s).All P)
    (hs : P s) : (resolveLoopsNext b codec next s).All P := by
  cases next with
  | none =>
    unfold resolveLoopsNext
    exact Saving.all_ok hs
  | some n =>
    unfold resolveLoopsNext
    exact h n rfl s hs

theorem all_resolveLoopsBranches (cs : List WorkflowContinuation)
    (h : ∀ c ∈ cs, ∀ s, P s → (c.resolveLoops b codec s).All P)
    (hs : P s) : (resolveLoopsBranches b codec cs s).All P := by
  induction cs generalizing s with
  | nil =>
    unfold resolveLoopsBranches
    exact Saving.all_ok hs
  | cons c cs ih =>
    unfold resolveLoopsBranches
    exact (h c (by simp) s hs).bind fun t ht => ih (fun d hd => h d (by simp [hd])) ht

/-- **What settling a loop keeps, the search for loops to settle keeps.** -/
theorem all_resolveLoops (c : WorkflowContinuation)
    (hloop : ∀ cfg s, P s → (resolveLoop b codec cfg s).All P)
    (hs : P s) : (c.resolveLoops b codec s).All P := by
  induction c using induct generalizing s with
  | task id fields next ih | delay id duration next ih | awaitSignal id signalName timeout next ih =>
    unfold resolveLoops
    exact all_resolveLoopsNext next (fun n hn t ht => ih n hn ht) hs
  | fork id branches join ihb ihj =>
    unfold resolveLoops
    exact (all_resolveLoopsBranches branches (fun c hc t ht => ihb c hc ht) hs).bind
      fun t ht => all_resolveLoopsNext join (fun n hn u hu => ihj n hn hu) ht
  | branch id keyFn branches default next ihb ihd ihn =>
    unfold resolveLoops
    exact all_resolveLoopsNext next (fun n hn t ht => ihn n hn ht) hs
  | loop id body maxIterations onMax next ihb ihn =>
    unfold resolveLoops
    exact (hloop _ s hs).bind fun t ht => (ihb ht).bind fun u hu =>
      all_resolveLoopsNext next (fun n hn v hv => ihn n hn hv) hu
  | childWorkflow id child next ihc ihn =>
    unfold resolveLoops
    exact (ihc hs).bind fun t ht => all_resolveLoopsNext next (fun n hn u hu => ihn n hn hu) ht

theorem isInProgress_clearBodyTasks (body : WorkflowContinuation) (s : WorkflowSnapshot) :
    (clearBodyTasks body s).isInProgress = s.isInProgress := by
  unfold clearBodyTasks
  induction body.ids generalizing s with
  | nil => rfl
  | cons t ts ih => rw [List.foldl_cons, ih, WorkflowSnapshot.isInProgress_removeTaskResult]

/-- Settling loops keeps an instance running. -/
theorem isInProgress_resolveLoops (c : WorkflowContinuation)
    (hs : s.isInProgress) : (c.resolveLoops b codec s).All fun s => s.isInProgress := by
  refine all_resolveLoops c (fun cfg s hs => ?_) hs
  unfold resolveLoop
  dsimp only
  split
  · split
    · exact ⟨by simp, by simp⟩
    · exact Saving.all_save (by simpa using hs) (by simpa using hs)
    · have hcleared : (clearBodyTasks cfg.body s).isInProgress := by
        rwa [isInProgress_clearBodyTasks]
      exact Saving.all_save (by simpa using hcleared) (by simpa using hcleared)
  · exact Saving.all_ok hs

/-- If no loop of the tree is to be settled, nothing happens. -/
theorem resolveLoops_eq_ok (c : WorkflowContinuation)
    (h : ∀ id body maxIterations onMax next, .loop id body maxIterations onMax next ∈ c.subtrees →
      resolveLoop b codec ⟨id, body, maxIterations, onMax⟩ s = .ok s) :
    c.resolveLoops b codec s = .ok s := by
  have hnext : ∀ next : Option WorkflowContinuation,
      (∀ n, next = some n → n.resolveLoops b codec s = .ok s) →
        resolveLoopsNext b codec next s = .ok s := by
    intro next h
    cases next with
    | none => unfold resolveLoopsNext; rfl
    | some n => unfold resolveLoopsNext; exact h n rfl
  induction c using induct with
  | task id fields next ih | delay id duration next ih | awaitSignal id signalName timeout next ih =>
    simp only [subtrees, List.mem_cons, mem_subtreesNext] at h
    unfold resolveLoops
    exact hnext next fun n hn => ih n hn fun id body m o k hm => h id body m o k (.inr ⟨n, hn, hm⟩)
  | fork id branches join ihb ihj =>
    simp only [subtrees, List.mem_cons, List.mem_append, mem_subtreesBranches,
      mem_subtreesNext] at h
    have hbs : ∀ cs : List WorkflowContinuation,
        (∀ c ∈ cs, c.resolveLoops b codec s = .ok s) →
          resolveLoopsBranches b codec cs s = .ok s := by
      intro cs h
      induction cs with
      | nil => unfold resolveLoopsBranches; rfl
      | cons c cs ih =>
        unfold resolveLoopsBranches
        rw [h c (by simp), Saving.ok_bind, ih fun d hd => h d (by simp [hd])]
    unfold resolveLoops
    rw [hbs branches fun c hc => ihb c hc fun id body m o k hm =>
        h id body m o k (.inr (.inl ⟨c, hc, hm⟩)), Saving.ok_bind,
      hnext join fun n hn => ihj n hn fun id body m o k hm =>
        h id body m o k (.inr (.inr ⟨n, hn, hm⟩))]
  | branch id keyFn branches default next ihb ihd ihn =>
    simp only [subtrees, List.mem_cons, List.mem_append, mem_subtreesRoutes,
      mem_subtreesNext] at h
    unfold resolveLoops
    exact hnext next fun n hn => ihn n hn fun id body m o k hm =>
      h id body m o k (.inr (.inr (.inr ⟨n, hn, hm⟩)))
  | loop id body maxIterations onMax next ihb ihn =>
    simp only [subtrees, List.mem_cons, List.mem_append, mem_subtreesNext] at h
    unfold resolveLoops
    rw [h id body maxIterations onMax next (.inl rfl), Saving.ok_bind,
      ihb fun id body m o k hm => h id body m o k (.inr (.inl hm)), Saving.ok_bind,
      hnext next fun n hn => ihn n hn fun id body m o k hm =>
        h id body m o k (.inr (.inr ⟨n, hn, hm⟩))]
  | childWorkflow id child next ihc ihn =>
    simp only [subtrees, List.mem_cons, List.mem_append, mem_subtreesNext] at h
    unfold resolveLoops
    rw [ihc fun id body m o k hm => h id body m o k (.inr (.inl hm)), Saving.ok_bind,
      hnext next fun n hn => ihn n hn fun id body m o k hm =>
        h id body m o k (.inr (.inr ⟨n, hn, hm⟩))]

/-- A snapshot without results settles no loop. -/
theorem resolveLoops_of_empty (c : WorkflowContinuation)
    (hs : ∀ t, s.getTaskResult t = none) : c.resolveLoops b codec s = .ok s := by
  refine resolveLoops_eq_ok c fun id body m o next _ => ?_
  simp [resolveLoop, hs]

/-- A tree without loops settles no loop. -/
theorem resolveLoops_of_loopFree (c : WorkflowContinuation) (s : WorkflowSnapshot)
    (h : ∀ n ∈ c.subtrees, n.isLoop = false) : c.resolveLoops b codec s = .ok s := by
  refine resolveLoops_eq_ok c fun id body m o next hm => ?_
  have := h _ hm
  simp [isLoop] at this

end loops

/-! ## Looking up a task -/

namespace WorkflowContinuation

section lookup

/-- The subtrees that are searched before the walk goes on behind the node. -/
def front : WorkflowContinuation → List WorkflowContinuation
  | .fork _ branches _ => branches
  | .branch _ _ branches default _ => branches.map Prod.snd ++ default.toList
  | .loop _ body _ _ _ => [body]
  | .childWorkflow _ child _ => [child]
  | .task .. | .delay .. | .awaitSignal .. => []

theorem children_eq_front (c : WorkflowContinuation) : c.children = c.front ++ c.getNext.toList := by
  cases c <;> simp [children, front, getNext]

variable [Sha256] {t : TaskId}

theorem taskByIdRoutes_eq (rs : List (String × WorkflowContinuation)) :
    taskByIdRoutes t rs = taskByIdBranches t (rs.map Prod.snd) := by
  induction rs with
  | nil => rfl
  | cons r rs ih => rw [taskByIdRoutes, List.map_cons, taskByIdBranches, ih]

theorem taskByIdBranches_append (cs ds : List WorkflowContinuation) :
    taskByIdBranches t (cs ++ ds) = (taskByIdBranches t cs).or (taskByIdBranches t ds) := by
  induction cs with
  | nil => rfl
  | cons c cs ih =>
    rw [List.cons_append, taskByIdBranches, taskByIdBranches, ih]
    split <;> rfl

/-- A node that is not the task itself is searched in front first. -/
theorem executeTaskById_eq {c : WorkflowContinuation} (h : c.isTask → TaskId.sha256 c.id ≠ t) :
    c.executeTaskById t = (taskByIdBranches t c.front).getD (taskByIdNext t c.getNext) := by
  cases c with
  | task id fields next =>
    exact if_neg (h rfl)
  | branch id keyFn branches default next =>
    have hdefault : taskByIdDefault t default = taskByIdBranches t default.toList := by
      cases default <;> rfl
    rw [executeTaskById, front, taskByIdBranches_append, taskByIdRoutes_eq, hdefault, getNext]
    cases taskByIdBranches t (branches.map Prod.snd) <;> rfl
  | loop id body maxIterations onMax next =>
    rw [executeTaskById, front, taskByIdBranches]
    split <;> rfl
  | childWorkflow id child next =>
    rw [executeTaskById, front, taskByIdBranches]
    split <;> rfl
  | _ => rfl

/-- The first branch that contains the id is searched, and nothing if there is none. -/
theorem taskByIdBranches_cases (cs : List WorkflowContinuation) :
    (∃ k ∈ cs, k.findTaskIdInContinuation t ∧
        taskByIdBranches t cs = some (k.executeTaskById t)) ∨
      taskByIdBranches t cs = none ∧ ∀ m ∈ cs, ¬ m.findTaskIdInContinuation t := by
  induction cs with
  | nil => exact .inr ⟨rfl, by simp⟩
  | cons c cs ih =>
    by_cases hc : c.findTaskIdInContinuation t
    · exact .inl ⟨c, by simp, hc, by rw [taskByIdBranches, if_pos hc]⟩
    · rw [taskByIdBranches, if_neg hc]
      rcases ih with ⟨k, hk, hin, heq⟩ | ⟨hnone, hall⟩
      · exact .inl ⟨k, by simp [hk], hin, heq⟩
      · exact .inr ⟨hnone, by simpa [hc] using hall⟩

/-- **One step of the descent.** The node is the task, or the descent goes on in a child, or
it ends. What contains the id is not passed by for something that does not. -/
theorem executeTaskById_cases (t : TaskId) (c : WorkflowContinuation) :
    (∃ id fields next, c = .task id fields next ∧ TaskId.sha256 id = t ∧ c.executeTaskById t
        = if fields.func then .ok id else .error (.workflow (.taskNotImplemented id))) ∨
    (c.isTask → TaskId.sha256 c.id ≠ t) ∧
      ((∃ k ∈ c.children, c.executeTaskById t = k.executeTaskById t ∧
          ∀ m ∈ c.children, m.findTaskIdInContinuation t → k.findTaskIdInContinuation t ∨ m = k) ∨
        c.executeTaskById t = .error (.workflow (.taskNotFound t.toHex)) ∧
          ∀ m ∈ c.children, ¬ m.findTaskIdInContinuation t) := by
  by_cases hself : c.isTask → TaskId.sha256 c.id ≠ t
  · refine .inr ⟨hself, ?_⟩
    rw [executeTaskById_eq hself, children_eq_front]
    rcases taskByIdBranches_cases (t := t) c.front with ⟨k, hk, hin, heq⟩ | ⟨hnone, hall⟩
    · rw [heq]
      exact .inl ⟨k, by simp [hk], rfl, fun m _ _ => .inl hin⟩
    · rw [hnone, Option.getD_none]
      cases c.getNext with
      | none => exact .inr ⟨rfl, by simpa using hall⟩
      | some n =>
        refine .inl ⟨n, by simp, rfl, ?_⟩
        intro m hm hin
        rcases List.mem_append.mp hm with hm | hm
        · exact absurd hin (hall m hm)
        · exact .inr (by simpa using hm)
  · rw [Classical.not_imp, not_not] at hself
    obtain ⟨htask, hid⟩ := hself
    cases c with
    | task id fields next => exact .inl ⟨id, fields, next, rfl, hid, if_pos hid⟩
    | _ => cases htask

/-- The task that is executed for an id has that id. -/
theorem executeTaskById_eq_ok {c : WorkflowContinuation} {name : String}
    (h : c.executeTaskById t = .ok name) : TaskId.sha256 name = t ∧ name ∈ c.taskIds := by
  induction c using children_induct with
  | step c ih =>
    rcases executeTaskById_cases t c with
      ⟨id, fields, next, rfl, hid, hrun⟩ | ⟨-, ⟨k, hk, hrun, -⟩ | ⟨hrun, -⟩⟩
    · rw [hrun] at h
      split at h
      · obtain rfl := Except.ok.inj h
        exact ⟨hid, id_mem_taskIds (.task _ fields next)⟩
      · cases h
    · obtain ⟨hname, hmem⟩ := ih k hk (hrun ▸ h)
      refine ⟨hname, ?_⟩
      rw [taskIds_eq]
      exact List.mem_cons_of_mem _ (List.mem_flatMap.mpr ⟨k, hk, hmem⟩)
    · rw [hrun] at h
      cases h

/-- Every task is in the index. -/
theorem indexed_isSome {c n : WorkflowContinuation} (hn : n ∈ c.subtrees) (ht : n.isTask) :
    (c.indexed (TaskId.sha256 n.id)).isSome := by
  cases n with
  | task id fields next =>
    unfold indexed
    rw [List.find?_isSome]
    refine ⟨⟨id, fields.timeout, fields.priority, fields.tags, fields.retryPolicy, fields.version⟩,
      ?_, ?_⟩
    · rw [List.mem_reverse]
      exact List.mem_filterMap.mpr ⟨_, hn, rfl⟩
    · simp [WorkflowContinuation.id]
  | _ => cases ht

end lookup

end WorkflowContinuation

/-! ## Completion -/

variable [Sha256]

/-- A tree that counts as complete although nothing is recorded has no task in it. -/
theorem taskIndex_eq_nil_of_complete (c : WorkflowContinuation)
    (hs : ∀ t, s.getTaskResult t = none) (h : c.isWorkflowComplete s) : c.taskIndex = [] := by
  induction c using induct with
  | fork id branches join ihb ihj =>
    unfold isWorkflowComplete at h
    obtain ⟨hb, hj⟩ := Bool.and_eq_true _ _ ▸ h
    have hbs : ∀ b ∈ branches, b.taskIndex = [] := by
      intro b hmem
      refine ihb b hmem ?_
      clear ihb ihj h hj
      induction branches with
      | nil => cases hmem
      | cons d ds ih =>
        unfold areBranchesComplete at hb
        obtain ⟨hd, hds⟩ := Bool.and_eq_true _ _ ▸ hb
        rcases List.mem_cons.mp hmem with rfl | hmem
        · exact hd
        · exact ih hds hmem
    have hjs : ∀ n, join = some n → n.taskIndex = [] := by
      rintro n rfl
      unfold isNextComplete at hj
      exact ihj n rfl hj
    unfold taskIndex at hbs hjs ⊢
    simp only [List.filterMap_eq_nil_iff] at hbs hjs ⊢
    intro n hn
    simp only [subtrees, List.mem_cons, List.mem_append, mem_subtreesBranches,
      mem_subtreesNext] at hn
    rcases hn with rfl | ⟨b, hb, hn⟩ | ⟨j, hj, hn⟩
    · rfl
    · exact hbs b hb n hn
    · exact hjs j hj n hn
  | _ =>
    unfold isWorkflowComplete at h
    simp [hs] at h

end Sayiir
