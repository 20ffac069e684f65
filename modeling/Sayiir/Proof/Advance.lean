import Sayiir.Proof.Order

/-!
# How far the position walks through a tree

A worker that completes the task at the current position moves the snapshot on with
`update_position_after_task`. In a tree of task chains and forks with joins it should
in this way visit the tasks in the order of declaration: the branches of a fork one
after the other, then its join. `Proof.Order` shows where it strays. This module says
exactly for which trees the whole walk is right, and what counts as its end.
-/

namespace Sayiir

open WorkflowSnapshot WorkflowContinuation

namespace WorkflowContinuation

variable {branches : List WorkflowContinuation} {name : String} {c join : WorkflowContinuation}

/-- No fork of the main chain leads to another fork, except that a fork with a single
branch may have the last fork itself for its join. -/
def straight : WorkflowContinuation → Bool
  | .task _ _ (some next) => next.straight
  | .fork _ branches (some join) => match join.lastFork with
      | none => true
      | some name => decide (branches.length = 1) && decide (name = join.firstTaskId)
  | _ => true

section hashed

variable [Sha256] {c : WorkflowContinuation} {s s' : WorkflowSnapshot} {now : Time} {t u : TaskId}

theorem TaskChain.declaredIds_eq (h : c.TaskChain) : c.declaredIds = c.ids := by
  rw [declaredIds, h.declared_eq, ids]

/-! ## One step -/

omit [Sha256] in
/-- Of two moves only the last one counts. -/
theorem moved_moved (hint hint' : TaskHint) :
    (((s.updatePosition (.atTask t)).setTaskHint hint).updatePosition (.atTask u)).setTaskHint hint'
      = (s.updatePosition (.atTask u)).setTaskHint hint' := by
  unfold updatePosition setTaskHint
  cases hs : s.state <;> simp [hs]

/-- Moving through the join of a fork whose branches are done. Behind the last task the
position goes back to the beginning of the join. -/
theorem update_throughJoin (name : String) (hb : ∀ b ∈ branches, b.TaskChain) (hj : join.TaskForks)
    (hbranches : t ∉ idsBranches branches) (hp : s.isInProgress)
    (hstarted : ∀ u ∈ idsBranches branches, (s.getTaskResult u).isSome)
    (hmoves : MovesTo (join.updatePositionAfterTask now t s) s u) :
    MovesTo ((fork name branches (some join)).updatePositionAfterTask now t s) s
      (if u = t then TaskId.sha256 join.firstTaskId else u) := by
  rw [update_eq_join (updateBranches_of_notMem hb hbranches)]
  by_cases hut : u = t
  · obtain ⟨hint, hmove⟩ := hmoves
    have hfind : branches.find? (fun b => ((((s.updatePosition (.atTask u)).setTaskHint
        hint)).getTaskResult (TaskId.sha256 b.firstTaskId)).isNone) = none := by
      rw [List.find?_eq_none]
      intro b hb'
      have := hstarted _ (mem_idsBranches hb' (hb b hb').first_mem_ids)
      simpa [Option.isNone_iff_eq_none, ← Option.isSome_iff_ne_none] using this
    refine ⟨join.firstTaskHint, ?_⟩
    rw [hmove, Except.bind, advanceFork, currentTaskId_moved hp, if_pos (by rw [hut]), hfind]
    simp only [moveTo, if_pos hut, hj.setPositionAt, moved_moved]
  · rw [if_neg hut]
    exact movesTo_advanceFork hmoves hp hut

/-- A tree that begins with its last fork. -/
theorem TaskForks.exists_fork (h : c.TaskForks) (hnd : c.ids.Nodup)
    (hl : c.lastFork = some c.firstTaskId) :
    ∃ name first branches join, c = .fork name (first :: branches) (some join)
      ∧ (∀ b ∈ first :: branches, b.TaskChain) ∧ join.TaskChain := by
  cases h with
  | last name fields => cases hl
  | task name fields next hnext =>
    unfold lastFork at hl
    simp only [ids_task, idsNext_some, List.nodup_cons] at hnd
    exact absurd (List.mem_map_of_mem (hnext.lastFork_mem hl)) hnd.1
  | fork name first branches join hb hj =>
    refine ⟨name, first, branches, join, rfl, hb, hj.taskChain ?_⟩
    cases hjl : join.lastFork with
    | none => rfl
    | some n =>
      obtain rfl : n = first.firstTaskId := by simpa [lastFork, hjl, firstTaskId] using hl
      simp only [ids_fork, idsNext_some, List.nodup_cons] at hnd
      obtain ⟨-, -, hdisj⟩ := List.nodup_append.mp hnd.2
      exact absurd rfl (hdisj _ (mem_idsBranches (by simp) (hb first (by simp)).first_mem_ids) _
        (List.mem_map_of_mem (hj.lastFork_mem hjl)))

/-- A fork with a single branch in front of the last fork. -/
theorem update_single {first : WorkflowContinuation} (hb : first.TaskChain)
    (hj : join.TaskForks) (hl : join.lastFork = some join.firstTaskId)
    (hnd : (first.ids ++ join.ids).Nodup) {k : ℕ}
    (hk : (first.ids ++ join.declaredIds)[k]? = some t) (hp : s.isInProgress)
    (hcur : s.currentTaskId = some t) (hrec : ∀ u ∈ first.ids ++ join.ids,
      (s.getTaskResult u).isSome ↔ u ∈ (first.ids ++ join.declaredIds).take (k + 1)) :
    ∃ u, MovesTo ((fork name [first] (some join)).updatePositionAfterTask now t s) s u
      ∧ ∀ v, (first.ids ++ join.declaredIds)[k + 1]? = some v → u = v := by
  obtain ⟨hndf, hndj, hdisj⟩ := List.nodup_append.mp hnd
  have hbs : ∀ b ∈ [first], b.TaskChain := by simpa using hb
  by_cases hlt : k < first.ids.length
  · rw [List.getElem?_append_left hlt] at hk
    have hjoin : t ∉ join.ids := fun hm => hdisj t (List.mem_of_getElem? hk) t hm rfl
    by_cases hk1 : k + 1 < first.ids.length
    · have hnext : first.ids[k + 1]? = some first.ids[k + 1] := List.getElem?_eq_getElem hk1
      have hbs' : ∀ b ∈ [] ++ first :: [], b.TaskChain := hbs
      refine ⟨_, update_inside hbs' hj (by simp) (by simp) hjoin hndf hk hnext hp, fun v hv => ?_⟩
      rw [List.getElem?_append_left hk1] at hv
      exact Option.some.inj (hnext.symm.trans hv)
    · -- here the search for the next position goes right by going astray
      refine ⟨_, update_astray hbs hj hl (by simp) hjoin hndf hk (by omega) hp hcur
        (fun u hu => by
          rw [← Option.not_isSome_iff_eq_none, hrec u (by simp [hu]),
            List.take_append_of_le_length (by omega)]
          intro hin
          exact hdisj u (List.mem_of_mem_take hin) u hu rfl), fun v hv => ?_⟩
      obtain ⟨rest, hrest⟩ := hj.declared_head
      have hend : k + 1 = first.ids.length := by omega
      rw [hend, List.getElem?_append_right le_rfl] at hv
      simpa [declaredIds, hrest] using hv
  · rw [List.getElem?_append_right (by omega)] at hk
    have hmem : t ∈ join.ids := join.declaredIds_sublist.subset (List.mem_of_getElem? hk)
    have hfirst : t ∉ idsBranches [first] := fun hm => hdisj t (by simpa using hm) t hmem rfl
    have hrec' : ∀ u ∈ join.ids, (s.getTaskResult u).isSome
        ↔ u ∈ join.declaredIds.take (k - first.ids.length + 1) := by
      intro u hu
      have hidx : k + 1 - first.ids.length = k - first.ids.length + 1 := by omega
      rw [hrec u (by simp [hu]), List.take_append, List.mem_append, hidx]
      exact or_iff_right fun hin => hdisj u (List.mem_of_mem_take hin) u hu rfl
    have hstarted : ∀ u ∈ idsBranches [first], (s.getTaskResult u).isSome := by
      intro u hu
      have hu' : u ∈ first.ids := by simpa using hu
      rw [hrec u (by simp [hu']), List.take_append, List.take_of_length_le (by omega)]
      exact List.mem_append_left _ hu'
    have hidx : k + 1 - first.ids.length = k - first.ids.length + 1 := by omega
    obtain ⟨id, second, branches, last, rfl, hb₂, hlast⟩ := hj.exists_fork hndj hl
    simp only [ids_fork, idsNext_some, List.nodup_cons] at hndj
    rw [declaredIds_fork hb₂, hlast.declaredIds_eq] at hk hrec' ⊢
    obtain ⟨u, hmove, hnext, -⟩ := update_fork id hb₂ hlast hndj.2 hk hp hcur
      fun u hu => hrec' u (by simp_all)
    refine ⟨_, update_throughJoin name hbs hj hfirst hp hstarted hmove, fun v hv => ?_⟩
    rw [List.getElem?_append_right (by omega), hidx] at hv
    obtain rfl := hnext v hv
    -- the next task is not the one just completed
    have hne : u ≠ t := by
      rintro rfl
      have := (List.getElem?_inj (List.getElem?_eq_some_iff.mp hk).1 hndj.2).mp (hk.trans hv.symm)
      omega
    rw [if_neg hne]

/-- **One step of the walk**: behind the task with number `k` stands the one with number
`k + 1`. -/
theorem TaskForks.update_declared (h : c.TaskForks) (hs : c.straight) (hnd : c.ids.Nodup) {k : ℕ}
    (hk : c.declaredIds[k]? = some t) (hp : s.isInProgress)
    (hpos : s.position = some (.atTask t))
    (hrec : ∀ u ∈ c.ids, (s.getTaskResult u).isSome ↔ u ∈ c.declaredIds.take (k + 1)) :
    ∃ u, MovesTo (c.updatePositionAfterTask now t s) s u
      ∧ ∀ v, c.declaredIds[k + 1]? = some v → u = v := by
  have hcur := currentTaskId_of_position hp hpos
  induction h generalizing k with
  | last name fields =>
    obtain rfl : TaskId.sha256 name = t := by
      have hmem : t ∈ [TaskId.sha256 name] := by
        simpa [declaredIds, declared_last] using List.mem_of_getElem? hk
      exact (List.mem_singleton.mp hmem).symm
    refine ⟨TaskId.sha256 name, ?_, fun v hv => ?_⟩
    · rw [updatePositionAfterTask, if_pos rfl]
      exact moved_self hp hpos
    · simp [declaredIds, declared_last] at hv
  | task name fields next hnext ih =>
    obtain ⟨rest, hrest⟩ := hnext.declared_head
    have hhead : next.declaredIds = TaskId.sha256 next.firstTaskId :: rest.map TaskId.sha256 := by
      simp [declaredIds, hrest]
    rw [declaredIds_task] at hk hrec ⊢
    obtain ⟨u, hmove, hv, -⟩ := hnext.update_task fields next.declaredIds_sublist.subset
      ⟨_, hhead⟩ trivial hnd hk hrec fun k hk' hk hnd hrec => by
        obtain ⟨u, hmove, hv⟩ := ih hs hnd hk hrec
        exact ⟨u, hmove, hv, trivial⟩
    exact ⟨u, hmove, hv⟩
  | fork name first branches join hb hj ih =>
    simp only [ids_fork, idsNext_some, List.nodup_cons] at hnd
    rw [declaredIds_fork hb] at hk hrec ⊢
    cases hl : join.lastFork with
    | none =>
      rw [(hj.taskChain hl).declaredIds_eq] at hk hrec ⊢
      obtain ⟨u, hmove, hv, -⟩ := update_fork name hb (hj.taskChain hl) hnd.2 hk hp hcur
        fun u hu => hrec u (by simp_all)
      exact ⟨u, hmove, hv⟩
    | some n =>
      -- the only branch is followed by the last fork
      unfold straight at hs
      simp only [hl, List.length_cons, Bool.and_eq_true, decide_eq_true_eq] at hs
      obtain ⟨hlen, rfl⟩ := hs
      obtain rfl : branches = [] := List.length_eq_zero_iff.mp (by omega)
      simp only [idsBranches_cons, idsBranches_nil, List.append_nil] at hnd hk hrec ⊢
      exact update_single (hb first (by simp)) hj hl hnd.2 hk hp hcur
        fun u hu => hrec u (by
          rw [ids_fork, idsBranches_cons, idsBranches_nil, List.append_nil]
          exact List.mem_cons_of_mem _ hu)

/-! ## The walk -/

/-- Complete the task at the current position and move on. -/
def advance (c : WorkflowContinuation) (now : Time) (output : Bytes) (s : WorkflowSnapshot) :
    Except RuntimeError WorkflowSnapshot :=
  match s.currentTaskId with
  | some t => c.updatePositionAfterTask now t (s.markTaskCompleted t output)
  | none => .ok s

/-- Advance once for every time and output given. -/
def advances (c : WorkflowContinuation) :
    List (Time × Bytes) → WorkflowSnapshot → Except RuntimeError WorkflowSnapshot
  | [], s => .ok s
  | step :: steps, s => (c.advance step.1 step.2 s).bind (c.advances steps)

/-- The snapshot of an instance that stands at its first task. -/
structure Started (c : WorkflowContinuation) (s : WorkflowSnapshot) : Prop where
  inProgress : s.isInProgress
  position : s.position = some (.atTask (TaskId.sha256 c.firstTaskId))
  /-- Nothing is recorded yet. -/
  fresh : ∀ u ∈ c.ids, s.getTaskResult u = none

/-- The walk along `order` has completed `k` tasks. -/
structure Walked (c : WorkflowContinuation) (order : List TaskId) (k : ℕ)
    (s : WorkflowSnapshot) : Prop where
  inProgress : s.isInProgress
  position : ∀ t, order[k]? = some t → s.position = some (.atTask t)
  recorded : ∀ u ∈ c.ids, (s.getTaskResult u).isSome ↔ u ∈ order.take k

/-- Each of the first `n` tasks of `order` leads to the one behind it. -/
def Leads (c : WorkflowContinuation) (order : List TaskId) (n : ℕ) : Prop :=
  ∀ (now : Time) (k : ℕ) (t : TaskId) (s : WorkflowSnapshot), k < n → order[k]? = some t →
    s.isInProgress → s.position = some (.atTask t) →
    (∀ u ∈ c.ids, (s.getTaskResult u).isSome ↔ u ∈ order.take (k + 1)) →
    ∃ u hint, c.updatePositionAfterTask now t s
        = .ok ((s.updatePosition (.atTask u)).setTaskHint hint)
      ∧ ∀ v, order[k + 1]? = some v → u = v

variable {order : List TaskId} {n k : ℕ}

theorem Leads.advance (h : c.Leads order n) (hn : n ≤ order.length) (hk : k < n)
    (hw : c.Walked order k s) (now : Time) (output : Bytes) :
    ∃ s', c.advance now output s = .ok s' ∧ c.Walked order (k + 1) s' := by
  have hlt : k < order.length := by omega
  have hget : order[k]? = some order[k] := List.getElem?_eq_getElem hlt
  have hpos := hw.position _ hget
  have hcur := currentTaskId_of_position hw.inProgress hpos
  have hrec : ∀ u ∈ c.ids, ((s.markTaskCompleted order[k] output).getTaskResult u).isSome
      ↔ u ∈ order.take (k + 1) := by
    intro u hu
    rw [WorkflowSnapshot.getTaskResult_markTaskCompleted, List.take_add_one, hget, List.mem_append]
    by_cases hut : u = order[k]
    · simp [hw.inProgress, hut]
    · simp [hut, hw.recorded u hu]
  obtain ⟨u, hint, hmove, hnext⟩ := h now k _ (s.markTaskCompleted order[k] output) hk hget
    (by simpa using hw.inProgress) (by simpa using hpos) hrec
  refine ⟨_, by unfold WorkflowContinuation.advance; rw [hcur]; exact hmove, ⟨?_, ?_, ?_⟩⟩
  · simpa using hw.inProgress
  · intro v hv
    obtain rfl := hnext v hv
    rw [position_setTaskHint, position_updatePosition,
      if_pos (by simpa using hw.inProgress)]
  · intro u' hu'
    simpa using hrec u' hu'

theorem Leads.advances (h : c.Leads order n) (hn : n ≤ order.length)
    (steps : List (Time × Bytes)) (hw : c.Walked order k s) (hk : k + steps.length ≤ n) :
    ∃ s', c.advances steps s = .ok s' ∧ c.Walked order (k + steps.length) s' := by
  induction steps generalizing k s with
  | nil => exact ⟨s, rfl, hw⟩
  | cons step steps ih =>
    rw [List.length_cons] at hk ⊢
    obtain ⟨s₁, hstep, hw₁⟩ := h.advance hn (by omega) hw step.1 step.2
    obtain ⟨s', hsteps, hw'⟩ := ih hw₁ (by omega)
    refine ⟨s', ?_, ?_⟩
    · unfold advances
      rw [hstep]
      exact hsteps
    · rwa [Nat.add_right_comm, Nat.add_assoc] at hw'

theorem Started.walked (h : c.Started s) {rest : List TaskId}
    (horder : order = TaskId.sha256 c.firstTaskId :: rest) : c.Walked order 0 s where
  inProgress := h.inProgress
  position t ht := by
    obtain rfl : TaskId.sha256 c.firstTaskId = t := by simpa [horder] using ht
    exact h.position
  recorded u hu := by simp [h.fresh u hu]

theorem started_initialSnapshot (c : WorkflowContinuation) :
    c.Started (initialSnapshot "" ⟨0⟩ [] ⟨TaskId.sha256 c.firstTaskId, none, []⟩) where
  inProgress := rfl
  position := rfl
  fresh u _ := by simp [initialSnapshot]

/-- The position visits the tasks in the order of declaration, and the workflow counts as
complete when the last of them is done and not before. -/
def VisitsInOrder (c : WorkflowContinuation) : Prop :=
  ∀ s, c.Started s → ∀ steps : List (Time × Bytes), steps.length ≤ c.declaredIds.length →
    ∃ s', c.advances steps s = .ok s'
      ∧ (∀ t, c.declaredIds[steps.length]? = some t → s'.position = some (.atTask t))
      ∧ (c.isWorkflowComplete s' ↔ steps.length = c.declaredIds.length)

theorem TaskForks.visitsInOrder (h : c.TaskForks) (hs : c.straight) (hnd : c.ids.Nodup) :
    c.VisitsInOrder := by
  intro s hstart steps hlen
  have hlead : c.Leads c.declaredIds c.declaredIds.length := by
    intro now k t s _ hk hp hpos hrec
    obtain ⟨u, ⟨hint, hmove⟩, hnext⟩ := h.update_declared hs hnd hk hp hpos hrec
    exact ⟨u, hint, hmove, hnext⟩
  obtain ⟨rest, hrest⟩ := h.declared_head
  have horder : c.declaredIds = TaskId.sha256 c.firstTaskId :: rest.map TaskId.sha256 := by
    simp [declaredIds, hrest]
  obtain ⟨s', hrun, hw⟩ := hlead.advances le_rfl steps (hstart.walked horder) (by omega)
  rw [Nat.zero_add] at hw
  refine ⟨s', hrun, hw.position, ?_⟩
  rw [h.isWorkflowComplete_declared]
  constructor
  · intro hall
    by_contra hne
    -- the next task is not recorded
    have hlt : steps.length < c.declaredIds.length := by omega
    have hmem : c.declaredIds[steps.length] ∈ c.declaredIds.take steps.length :=
      (hw.recorded _ (c.declaredIds_sublist.subset (List.getElem_mem hlt))).mp
        (hall _ (List.getElem_mem hlt))
    obtain ⟨i, hi, heq⟩ := List.mem_take_iff_getElem.mp hmem
    have := (hnd.sublist c.declaredIds_sublist).getElem_inj_iff.mp heq
    omega
  · intro heq u hu
    rw [hw.recorded u (c.declaredIds_sublist.subset hu), heq, List.take_length]
    exact hu

/-! ## Where the walk strays -/

omit [Sha256] in
theorem TaskForks.straight_of_stray (h : c.TaskForks) (hs : c.stray = none) : c.straight := by
  induction h with
  | last name fields => rfl
  | task name fields next _ ih => exact ih hs
  | fork name first branches join hb _ _ =>
    unfold stray at hs
    unfold straight
    rw [hs]

theorem TaskForks.order_length_le (h : c.TaskForks) : c.order.length ≤ c.declaredIds.length := by
  induction h with
  | last name fields => simp [order, declaredIds, declared_last]
  | task name fields next _ ih =>
    rw [declaredIds_task]
    simpa [order] using ih
  | fork name first branches join hb hj _ =>
    obtain ⟨rest, hrest⟩ := hj.declared_head
    rw [declaredIds_fork hb]
    cases hl : join.lastFork with
    | none =>
      rw [(hj.taskChain hl).declaredIds_eq]
      simp [order, hl, ids, idsBranches]
    | some n =>
      simp [order, hl, ids, declaredIds, hrest]
      omega

/-- If the task to which the position strays is the next one anyway, the tree is straight. -/
theorem TaskForks.straight_of_declared (h : c.TaskForks) (hnd : c.ids.Nodup)
    (hs : c.stray = some name)
    (hd : c.declaredIds[c.order.length - 1]? = some (TaskId.sha256 name)) : c.straight := by
  induction h with
  | last id fields => rfl
  | task id fields next hnext ih =>
    simp only [ids_task, idsNext_some, List.nodup_cons] at hnd
    obtain ⟨rest, hrest⟩ := hnext.order_head
    refine ih hnd.2 hs ?_
    rw [declaredIds_task] at hd
    simpa [order, hrest] using hd
  | fork id first branches join hb hj ih =>
    unfold stray at hs
    simp only [ids_fork, idsNext_some, idsBranches_cons, List.append_assoc,
      List.nodup_cons] at hnd
    obtain ⟨-, hndr, -⟩ := List.nodup_append.mp hnd.2
    obtain ⟨-, hndj, hdisj⟩ := List.nodup_append.mp hndr
    have hidx : (WorkflowContinuation.fork id (first :: branches) (some join)).order.length - 1
        = first.ids.length := by
      simp [order, hs, ids]
    rw [hidx, declaredIds_fork hb, idsBranches_cons, List.append_assoc,
      List.getElem?_append_right le_rfl, Nat.sub_self] at hd
    have hname : TaskId.sha256 name ∈ join.ids := List.mem_map_of_mem (hj.lastFork_mem hs)
    cases branches with
    | cons b bs =>
      obtain ⟨rest, hrest⟩ := (hb b (by simp)).taskIds_eq
      have heq : TaskId.sha256 b.firstTaskId = TaskId.sha256 name := by
        simpa [ids, hrest] using hd
      exact absurd heq (hdisj _ (mem_idsBranches (by simp) (hb b (by simp)).first_mem_ids) _ hname)
    | nil =>
      obtain ⟨rest, hrest⟩ := hj.declared_head
      have heq : TaskId.sha256 join.firstTaskId = TaskId.sha256 name := by
        simpa [declaredIds, hrest] using hd
      obtain rfl : join.firstTaskId = name :=
        List.inj_on_of_nodup_map hndj hj.firstTaskId_mem (hj.lastFork_mem hs) heq
      unfold straight
      simp [hs]

theorem TaskForks.straight_of_visitsInOrder (h : c.TaskForks) (hnd : c.ids.Nodup)
    (hv : c.VisitsInOrder) : c.straight := by
  cases hs : c.stray with
  | none => exact h.straight_of_stray hs
  | some name =>
    have hlead : c.Leads c.orderIds (c.orderIds.length - 1) := by
      intro now k t s hk ht hp hpos hrec
      have hbound : k + 1 < c.order.length := by
        simp only [orderIds, List.length_map] at hk
        omega
      obtain ⟨u, ⟨hint, hmove⟩, hnext, -⟩ := h.update_order hnd ht (fun _ => hbound) hp hpos hrec
      exact ⟨u, hint, hmove, hnext⟩
    obtain ⟨rest, hrest⟩ := h.order_head
    have horder : c.orderIds = TaskId.sha256 c.firstTaskId :: rest.map TaskId.sha256 := by
      simp [orderIds, hrest]
    have hlen : c.orderIds.length = c.order.length := List.length_map _
    have hpos : 0 < c.order.length := by simp [hrest]
    have hle := h.order_length_le
    -- walk to the stray position, with any times and outputs
    let steps : List (Time × Bytes) := List.replicate (c.order.length - 1) (0, [])
    have hsteps : steps.length = c.order.length - 1 := List.length_replicate
    have hstart := started_initialSnapshot c
    obtain ⟨s₁, hrun₁, hw⟩ := hlead.advances (by omega) steps (hstart.walked horder)
      (by rw [hsteps, hlen]; omega)
    obtain ⟨s₂, hrun₂, hat, -⟩ := hv _ hstart steps (by omega)
    obtain rfl : s₁ = s₂ := Except.ok.inj (hrun₁.symm.trans hrun₂)
    have hlast : c.orderIds[0 + steps.length]? = some (TaskId.sha256 name) := by
      have := h.getLast_order hs
      rw [List.getLast?_eq_getElem?] at this
      simp [orderIds, hsteps, this]
    have hlt : steps.length < c.declaredIds.length := by omega
    have hget : c.declaredIds[steps.length]? = some c.declaredIds[steps.length] :=
      List.getElem?_eq_getElem hlt
    have heq := (hat _ hget).symm.trans (hw.position _ hlast)
    refine h.straight_of_declared hnd hs ?_
    rw [← hsteps, hget]
    simpa using heq

/-- **Exactly the straight trees are walked in the order of declaration.** What counts as
complete is in any case that every task has a result. -/
theorem position_advance_exact_iff (h : c.TaskForks) (hnd : c.ids.Nodup) :
    (c.VisitsInOrder ↔ c.straight = true)
      ∧ ∀ s, c.isWorkflowComplete s = true
          ↔ ∀ name ∈ c.declared, (s.getTaskResult (TaskId.sha256 name)).isSome := by
  refine ⟨⟨h.straight_of_visitsInOrder hnd, fun hs => h.visitsInOrder hs hnd⟩, fun s => ?_⟩
  rw [h.isWorkflowComplete_declared]
  simp [declaredIds]

end hashed

section sample

attribute [local instance] Sha256.packed

/-- A task, a fork with a branch of one and a branch of two tasks, and its join. -/
def oneFork : WorkflowContinuation :=
  .task "a" .plain (some (.fork "f" [.task "b" .plain none,
    .task "c" .plain (some (.task "d" .plain none))] (some (.task "j" .plain none))))

theorem oneFork_walked :
    oneFork.declared = ["a", "b", "c", "d", "j"] ∧ oneFork.VisitsInOrder := by
  have hforks : oneFork.TaskForks := by
    refine .task _ _ _ (.fork _ _ _ _ ?_ (.last _ _))
    intro b hb
    rcases List.mem_cons.mp hb with rfl | hb
    · exact .last _ _
    · obtain rfl := List.mem_singleton.mp hb
      exact .task _ _ _ (.last _ _)
  exact ⟨by decide, (position_advance_exact_iff hforks (by decide)).1.mpr (by decide)⟩

/-- A fork whose join begins with another fork. -/
def twoForks : WorkflowContinuation :=
  .fork "f" [.task "a" .plain none, .task "b" .plain none]
    (some (.fork "g" [.task "c" .plain none] (some (.task "d" .plain none))))

/-- After the first task the position is at the second fork, and the task behind the
first one in the order of declaration is passed over. -/
theorem twoForks_passed_over :
    twoForks.declared = ["a", "b", "c", "d"]
      ∧ ((twoForks.advances [(0, [])]
          (initialSnapshot "i" ⟨0⟩ [] twoForks.firstTaskHint)).toOption.bind (·.position))
        = some (.atTask (TaskId.sha256 "c")) := by
  decide

end sample

end WorkflowContinuation

end Sayiir
