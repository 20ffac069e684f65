import Sayiir.Proof.Order

/-!
# Rehearsals

What the pool calls the tasks of an order with can be computed in advance, from the
tree and the task functions alone: a task gets the output completed last, and the first
task of a join the outputs of the branches. `rehearse` computes the results in this way.
It stops at a task that fails, and at tasks it is not to account for.

`Submission.planOf` is the plan of the rehearsal, and it fits every tree of tasks and
forks (`fits_planOf`).
-/

namespace Sayiir

open Backend

variable {s : WorkflowSnapshot}

/-- The results of the tasks called so far, the latest first. -/
abbrev Results := List (TaskId × Bytes)

namespace Submission

variable [Sha256] (job : Submission)

/-- The outputs of fork branches among the results, by the id of the branch. -/
def joinResults (done : Results) :
    List WorkflowContinuation → Except RuntimeError (List (String × Bytes))
  | [] => .ok []
  | c :: cs => match done.lookup (TaskId.sha256 c.terminalTaskId) with
      | none => .error (.workflow (.taskNotFound c.id))
      | some output => (joinResults done cs).map ((c.id, output) :: ·)

omit [Sha256] in
/-- The output completed last. -/
def latest (done : Results) : Bytes := (done.head?.map Prod.snd).getD job.input

/-- The input the pool calls a task with. -/
def feed (done : Results) (name : String) : Except RuntimeError Bytes :=
  match job.continuation.findForkBranchesForJoin (TaskId.sha256 name) with
  | none => .ok (job.latest done)
  | some branches => match joinResults done branches with
      | .error e => .error e
      | .ok results => (job.codec.encodeNamedResults results).mapError .ofBoxError

/-- Call one more task, unless it fails or is not to be accounted for. -/
def play (ok : String → Bool) (done : Results) (name : String) : Option Results :=
  if ok name then match job.feed done name with
    | .error _ => none
    | .ok x => match job.callbacks.execute name x with
        | .error _ => none
        | .ok o => some ((TaskId.sha256 name, o) :: done)
  else none

/-- Call tasks one after the other. -/
def rehearse (ok : String → Bool) (names : List String) : Option Results :=
  names.foldlM (job.play ok) []

/-- The plan of a rehearsal. -/
def planOf (ok : String → Bool) (names : List String) : Plan where
  names := names
  input k := match job.rehearse ok (names.take k), names[k]? with
    | some done, some name => job.feed done name
    | _, _ => .error (.workflow (.taskNotFound ""))
  output k := (job.rehearse ok (names.take (k + 1))).bind fun done => done.head?.map Prod.snd
  allowed k := names[k]?.all ok

variable {job} {ok : String → Bool} {names : List String} {done done' : Results} {name : String}
  {k : ℕ} {t : TaskId}

theorem play_eq_some :
    job.play ok done name = some done' ↔ ∃ x o, ok name ∧ job.feed done name = .ok x
      ∧ job.callbacks.execute name x = .ok o ∧ done' = (TaskId.sha256 name, o) :: done := by
  unfold play
  constructor
  · intro h
    split at h
    · rename_i hok
      split at h
      · cases h
      · rename_i x hx
        split at h
        · cases h
        · rename_i o ho
          exact ⟨x, o, hok, hx, ho, (Option.some.inj h).symm⟩
    · cases h
  · rintro ⟨x, o, hok, hx, ho, rfl⟩
    rw [if_pos hok, hx]
    simp [ho]

theorem rehearse_succ (h : names[k]? = some name) :
    job.rehearse ok (names.take (k + 1))
      = (job.rehearse ok (names.take k)).bind fun done => job.play ok done name := by
  unfold rehearse
  rw [List.take_add_one, h, Option.toList_some, List.foldlM_append]
  cases List.foldlM (job.play ok) [] (names.take k) with
  | none => rfl
  | some done => simp

/-- One more result of a rehearsal. -/
theorem rehearse_succ_eq_some (hk : names[k]? = some name)
    (h : job.rehearse ok (names.take (k + 1)) = some done') :
    ∃ done o, job.rehearse ok (names.take k) = some done ∧ ok name
      ∧ done' = (TaskId.sha256 name, o) :: done ∧ (job.planOf ok names).output k = some o := by
  have hout : (job.planOf ok names).output k = done'.head?.map Prod.snd := by
    simp [planOf, h]
  rw [rehearse_succ hk] at h
  obtain ⟨done, hdone, hplay⟩ := Option.bind_eq_some_iff.mp h
  obtain ⟨x, o, hok, -, -, rfl⟩ := play_eq_some.mp hplay
  exact ⟨done, o, hdone, hok, rfl, by simpa using hout⟩

/-- What the rehearsal has recorded. -/
theorem lookup_rehearse (hnd : (job.planOf ok names).ids.Nodup) (hk : k ≤ names.length)
    (h : job.rehearse ok (names.take k) = some done) :
    (∀ t, t ∉ (job.planOf ok names).ids.take k → done.lookup t = none)
      ∧ ∀ (j : ℕ) t, j < k → (job.planOf ok names).ids[j]? = some t →
          done.lookup t = (job.planOf ok names).output j := by
  induction k generalizing done with
  | zero =>
    obtain rfl : done = [] := by simpa [rehearse] using h.symm
    simp
  | succ k ih =>
    have hname : names[k]? = some names[k] := List.getElem?_eq_getElem hk
    have hid : (job.planOf ok names).ids[k]? = some (TaskId.sha256 names[k]) := by
      simp [Plan.ids, planOf, hname]
    obtain ⟨done, o, hdone, -, rfl, ho⟩ := rehearse_succ_eq_some hname h
    obtain ⟨hnone, hsome⟩ := ih (by omega) hdone
    refine ⟨fun t ht => ?_, fun j t hj hjt => ?_⟩
    · rw [Plan.mem_take_ids] at ht
      have hne : t ≠ TaskId.sha256 names[k] := by
        rintro rfl
        exact ht ⟨k, Nat.lt_succ_self k, hid⟩
      rw [List.lookup_cons, beq_false_of_ne hne]
      refine hnone t fun hmem => ?_
      obtain ⟨j, hj, hjt⟩ := Plan.mem_take_ids.mp hmem
      exact ht ⟨j, by omega, hjt⟩
    · rcases Nat.lt_succ_iff_lt_or_eq.mp hj with hjk | rfl
      · have hne : t ≠ TaskId.sha256 names[k] := by
          rintro rfl
          have := (List.getElem?_inj (Plan.lt_of_getElem? hjt) hnd).mp (hjt.trans hid.symm)
          omega
        rw [List.lookup_cons, beq_false_of_ne hne]
        exact hsome j t hjk hjt
      · obtain rfl : TaskId.sha256 names[j] = t := Option.some.inj (hid.symm.trans hjt)
        rw [List.lookup_cons, beq_self_eq_true, ho]

/-! ## The plan fits -/

theorem branchResults_eq_joinResults
    (h : ∀ t, s.getTaskResultBytes t = done.lookup t) (bs : List WorkflowContinuation) :
    branchResults s bs = joinResults done bs := by
  induction bs with
  | nil => rfl
  | cons b bs ih =>
    simp only [branchResults, joinResults, h, ih] <;> rfl

/-- A snapshot at a stage records what the rehearsal records. -/
theorem exists_rehearse_of_stage (hnd : (job.planOf ok names).ids.Nodup)
    (h : (job.planOf ok names).Stage job k s) :
    ∃ done, job.rehearse ok (names.take k) = some done
      ∧ ∀ t, s.getTaskResultBytes t = done.lookup t := by
  have hlen : (job.planOf ok names).ids.length = names.length := by simp [Plan.ids, planOf]
  have hle : k ≤ names.length := hlen ▸ h.le
  have hsome : ∃ done, job.rehearse ok (names.take k) = some done := by
    cases k with
    | zero => exact ⟨[], by simp [rehearse]⟩
    | succ j =>
      obtain ⟨o, ho, -⟩ := h.recorded j _ (Nat.lt_succ_self j)
        (List.getElem?_eq_getElem (by omega))
      obtain ⟨done, hdone, -⟩ := Option.bind_eq_some_iff.mp ho
      exact ⟨done, hdone⟩
  obtain ⟨done, hdone⟩ := hsome
  obtain ⟨hnone, hlookup⟩ := lookup_rehearse hnd hle hdone
  refine ⟨done, hdone, fun t => ?_⟩
  by_cases hmem : t ∈ (job.planOf ok names).ids.take k
  · obtain ⟨j, hj, hjt⟩ := Plan.mem_take_ids.mp hmem
    obtain ⟨o, ho, hrec⟩ := h.recorded j t hj hjt
    rw [hlookup j t hj hjt, ho, WorkflowSnapshot.getTaskResultBytes, hrec]
    rfl
  · rw [hnone t hmem, WorkflowSnapshot.getTaskResultBytes, h.fresh t hmem]
    rfl

/-- What a poll finds is the output completed last. -/
theorem latest_of_raw {input : Bytes} (hdone : job.rehearse ok (names.take k) = some done)
    (h : (job.planOf ok names).raw job k = some input) : job.latest done = input := by
  cases k with
  | zero =>
    obtain rfl : done = [] := by simpa [rehearse] using hdone.symm
    exact Option.some.inj h
  | succ k =>
    have hout : done.head?.map Prod.snd = some input := by
      simpa [Plan.raw, planOf, hdone] using h
    simp [latest, hout]

section fits

open WorkflowContinuation

theorem order_of_orderIds {c : WorkflowContinuation} (h : c.orderIds[k]? = some t) :
    ∃ name, c.order[k]? = some name ∧ TaskId.sha256 name = t := by
  simpa [orderIds] using h

-- the stray task is not accounted for
variable (hc : job.continuation.TaskForks) (hnd : job.continuation.ids.Nodup)
  (hstray : ∀ name, job.continuation.stray = some name → ok name = false)

include hc hstray in
/-- A task with an output is accounted for, so it is not the stray one. -/
theorem lt_of_output {o : Bytes} (hk : job.continuation.orderIds[k]? = some t)
    (ho : (job.planOf ok job.continuation.order).output k = some o)
    (hs : job.continuation.stray.isSome) : k + 1 < job.continuation.order.length := by
  obtain ⟨stray, hs⟩ := Option.isSome_iff_exists.mp hs
  obtain ⟨name, hkn, -⟩ := order_of_orderIds hk
  obtain ⟨done, hdone, -⟩ := Option.bind_eq_some_iff.mp ho
  obtain ⟨-, -, -, hok, -⟩ := rehearse_succ_eq_some hkn hdone
  have hlt : k < job.continuation.order.length := (List.getElem?_eq_some_iff.mp hkn).1
  by_contra hge
  have hend : job.continuation.order.getLast? = some name := by
    rw [List.getLast?_eq_getElem?, ← hkn]
    congr 1
    omega
  obtain rfl : stray = name := Option.some.inj ((hc.getLast_order hs).symm.trans hend)
  simp [hstray stray hs] at hok

include hc hnd in
/-- A task is called with the input of the rehearsal. -/
theorem taskInput_planOf {task : AvailableTask}
    (hk : job.continuation.orderIds[k]? = some task.taskId)
    (hstage : (job.planOf ok job.continuation.order).Stage job k task.snapshot)
    (hraw : (job.planOf ok job.continuation.order).raw job k = some task.input) :
    job.taskInput task = (job.planOf ok job.continuation.order).input k := by
  obtain ⟨done, hdone, hlookup⟩ := exists_rehearse_of_stage (hc.orderIds_nodup hnd) hstage
  obtain ⟨name, hkn, hd⟩ := order_of_orderIds hk
  have hinput : (job.planOf ok job.continuation.order).input k = job.feed done name := by
    simp [planOf, hdone, hkn]
  rw [hinput]
  unfold taskInput feed
  rw [hd]
  cases job.continuation.findForkBranchesForJoin task.taskId with
  | none => simp [latest_of_raw hdone hraw]
  | some branches =>
    simp only [branchResults_eq_joinResults hlookup] <;> rfl

include hc hnd hstray in
/-- The workflow counts as complete at the last stage. -/
theorem complete_planOf (hstage : (job.planOf ok job.continuation.order).Stage job k s) :
    job.continuation.isWorkflowComplete s
      = decide (k = (job.planOf ok job.continuation.order).ids.length) := by
  have hids : (job.planOf ok job.continuation.order).ids = job.continuation.orderIds := rfl
  have hrec : ∀ u, (s.getTaskResult u).isSome
      ↔ u ∈ (job.planOf ok job.continuation.order).ids.take k := by
    intro u
    constructor
    · intro hsome
      by_contra hnot
      simp [hstage.fresh u hnot] at hsome
    · intro hin
      obtain ⟨j, hj, hju⟩ := Plan.mem_take_ids.mp hin
      obtain ⟨o, -, ho⟩ := hstage.recorded j u hj hju
      simp [ho]
  rw [Bool.eq_iff_iff, decide_eq_true_iff]
  constructor
  · intro hcomplete
    have hall : ∀ u ∈ job.continuation.orderIds, (s.getTaskResult u).isSome := fun u hu =>
      hc.isWorkflowComplete_declared.mp hcomplete u (hc.orderIds_sublist.subset hu)
    by_contra hne
    -- the next task is not recorded
    have hlt := lt_of_le_of_ne hstage.le hne
    have hk := List.getElem?_eq_getElem hlt
    obtain ⟨j, hj, hju⟩ := Plan.mem_take_ids.mp ((hrec _).mp (hall _ (List.getElem_mem hlt)))
    have := (List.getElem?_inj (Plan.lt_of_getElem? hju) (hc.orderIds_nodup hnd)).mp
      (hju.trans hk.symm)
    omega
  · rintro rfl
    cases hs : job.continuation.stray with
    | none =>
      refine hc.isWorkflowComplete_declared.mpr fun u hu => (hrec u).mpr ?_
      have horder : job.continuation.orderIds = job.continuation.declaredIds :=
        congrArg _ (hc.order_eq_declared hs)
      rwa [List.take_length, hids, horder]
    | some name =>
      -- the stray task would have an output
      exfalso
      obtain ⟨rest, hrest⟩ := hc.order_head
      have hlen : job.continuation.orderIds.length = rest.length + 1 := by
        simp [orderIds, hrest]
      have hlt : rest.length < job.continuation.orderIds.length := by omega
      obtain ⟨o, ho, -⟩ := hstage.recorded _ _ hlt (List.getElem?_eq_getElem hlt)
      have := lt_of_output hc hstray (List.getElem?_eq_getElem hlt) ho (by simp [hs])
      simp [hrest] at this

include hc hnd hstray in
/-- **The plan of a rehearsal fits the tree**, if it does not account for a stray task. -/
theorem fits_planOf : (job.planOf ok job.continuation.order).Fits job where
  nodup := hc.orderIds_nodup hnd
  first := by
    obtain ⟨rest, hrest⟩ := hc.order_head
    show job.continuation.orderIds[0]? = _
    simp [orderIds, hrest, firstTaskHint]
  indexed t ht := by
    obtain ⟨name, hmem, rfl⟩ := List.mem_map.mp ht
    obtain ⟨n, hn, htask, rfl⟩ := mem_declared.mp (hc.order_sublist.subset hmem)
    exact indexed_isSome hn htask
  executeTaskById k t name hk hexec := by
    obtain ⟨hd, hmem⟩ := executeTaskById_eq_ok hexec
    obtain ⟨name', hk', hd'⟩ := order_of_orderIds hk
    have hinj : name = name' := List.inj_on_of_nodup_map hnd hmem
      (hc.order_subset (List.mem_of_getElem? hk')) (hd.trans hd'.symm)
    exact hinj ▸ hk'
  taskInput k task hk hstage hraw := taskInput_planOf hc hnd hk hstage hraw
  output k name x o hallowed hk hx ho := by
    have hkn : job.continuation.order[k]? = some name := hk
    have hok : ok name := by simpa [planOf, hkn] using hallowed
    cases hdone : job.rehearse ok (job.continuation.order.take k) with
    | none => simp [planOf, hdone] at hx
    | some done =>
      have hfeed : job.feed done name = .ok x := by simpa [planOf, hdone, hkn] using hx
      have hplay := play_eq_some.mpr ⟨x, o, hok, hfeed, ho, rfl⟩
      simp [planOf, rehearse_succ hkn, hdone, hplay]
  updatePosition k t o s now hk ho hp hpos hrec := by
    obtain ⟨u, ⟨hint, hmove⟩, hnext⟩ :=
      hc.update_order hnd hk (lt_of_output hc hstray hk ho) hp hpos fun u _ => hrec u
    exact ⟨u, hint, hmove, hnext⟩
  settled _ s _ := resolveLoops_of_loopFree _ s hc.loopFree
  complete k s hstage := complete_planOf hc hnd hstray hstage

end fits

end Submission

end Sayiir
