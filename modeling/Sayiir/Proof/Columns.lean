import Sayiir.Persistence.Tables

/-!
# Columns and blobs

The columns of a running or paused instance repeat the values of the snapshot at the
version of its row, and the history grows by one version with every write. `Sound` is
the invariant behind it. Six paths write the columns, and each sets its own choice of
them: `store_sound` says what a choice has to satisfy.

Two things break it. A `delete_snapshot` that has to wait for another write deletes the
row, but not the version that this write has added; when the instance is created again,
its history is not one sequence any more. And where the next version is computed in
`i32` arithmetic, the largest one is followed by the smallest.
-/

namespace Sayiir.Postgres

open Backend WorkflowSnapshot

variable {columns : Columns} {version : Int} {t : Tables} {s : WorkflowSnapshot} {w : Write}

/-! ## The values of a snapshot -/

section values

variable {s s' : WorkflowSnapshot} {position : ExecutionPosition} {c c' : CompletedTasks}
  {last last' : Option TaskId}

theorem currentTaskId_of_position (hs : s.state = .inProgress position c last)
    (hs' : s'.state = .inProgress position c' last') : s'.currentTaskId = s.currentTaskId := by
  unfold currentTaskId
  rw [hs, hs']
  cases position <;> rfl

theorem delayWakeAt_of_position (hs : s.state = .inProgress position c last)
    (hs' : s'.state = .inProgress position c' last') : s'.delayWakeAt = s.delayWakeAt := by
  unfold delayWakeAt
  rw [hs, hs']
  cases position with
  | atSignal signalId signalName wakeAt next => cases wakeAt <;> rfl
  | _ => rfl

theorem positionKind_of_position (hs : s.state = .inProgress position c last)
    (hs' : s'.state = .inProgress position c' last') : s'.positionKind = s.positionKind := by
  simp only [positionKind, hs, hs']

/-- The outputs do not show in the columns. -/
theorem of_mapOutputs (f : TaskId → Bytes → Bytes) : Columns.of (s.mapOutputs f) = .of s := by
  have hlength : ∀ completed : CompletedTasks,
      (completed.mapOutputs f).entries.length = completed.entries.length := by
    intro completed
    simp [CompletedTasks.mapOutputs]
  cases hs : s.state with
  | inProgress position c last =>
    have hs' : (s.mapOutputs f).state = .inProgress position (c.mapOutputs f) last := by
      simp only [mapOutputs, hs]
    simp only [Columns.of, currentTaskId_of_position hs hs', delayWakeAt_of_position hs hs',
      positionKind_of_position hs hs', completedTaskCount, getAllTaskResults, hs, hs',
      Option.elim_some, hlength, WorkflowSnapshotState.asRef]
  | _ =>
    simp [Columns.of, mapOutputs, hs, currentTaskId, completedTaskCount, getAllTaskResults,
      positionKind, delayWakeAt, WorkflowSnapshotState.asRef, hlength]

theorem of_stored : Columns.of (postgres.stored s) = .of s :=
  of_mapOutputs (s := s) fun _ _ => []

/-- Recording a result changes neither the status nor the position. -/
theorem of_markTaskCompleted (taskId : TaskId) (output : Bytes) :
    setResult (.of (s.markTaskCompleted taskId output)) (.of s)
      = .of (s.markTaskCompleted taskId output) := by
  cases hs : s.state with
  | inProgress position c last =>
    have hs' : (s.markTaskCompleted taskId output).state
        = .inProgress position (c.insert taskId ⟨taskId, output⟩) (some taskId) := by
      simp only [markTaskCompleted, hs]
    simp only [Columns.of, setResult, delayWakeAt_of_position hs hs',
      positionKind_of_position hs hs']
  | _ => simp [markTaskCompleted, hs, setResult]

theorem status_markTaskCompleted (taskId : TaskId) (output : Bytes) :
    (s.markTaskCompleted taskId output).state.asRef = s.state.asRef := by
  unfold markTaskCompleted
  cases hs : s.state <;> simp [hs, WorkflowSnapshotState.asRef]

end values

/-! ## The invariant -/

/-- The status of an instance that is running or paused. -/
def IsLive (status : String) : Prop := status = "InProgress" ∨ status = "Paused"

instance (status : String) : Decidable (IsLive status) := inferInstanceAs (Decidable (_ ∨ _))

/-- What the columns show of the snapshot at the version of the row. -/
structure Shows (columns : Columns) (data : WorkflowSnapshot) : Prop where
  status : columns.status = data.state.asRef
  live : IsLive columns.status → columns = .of data

/-- The tables of an instance whose deletions are not disturbed by other writes. -/
structure Sound (t : Tables) : Prop where
  /-- The versions count the rows of the history. -/
  versions : ∀ (i : Nat) (h : HistoryRow), t.history[i]? = some h → h.version = (i : Int) + 1
  /-- The row points to the last version and shows it. -/
  current : ∀ r, t.row = some r → r.historyVersion = t.history.length
    ∧ ∃ h, t.history.getLast? = some h ∧ Shows r.columns h.data
  absent : t.row = none → t.history = []
  /-- A deletion that has begun has found everything. -/
  found : ∀ d ∈ t.deletions, (∀ r, t.row = some r → d.tuple = some r.tuple)
    ∧ ∀ h ∈ t.history, h.id ∈ d.ids

theorem sound_empty : Sound .empty where
  versions := by simp [Tables.empty]
  current := by simp [Tables.empty]
  absent := by simp [Tables.empty]
  found := by simp [Tables.empty]

section steps

variable {t t' : Tables}

/-- The version of the row is the last one. -/
theorem Sound.find_version (h : Sound t) {r : SnapshotRow} (hr : t.row = some r) :
    t.history.find? (·.version = r.historyVersion) = t.history.getLast? := by
  obtain ⟨hlast, last, hget, -⟩ := h.current r hr
  rw [hget]
  have hlen : t.history[t.history.length - 1]? = some last := by
    rw [← List.getLast?_eq_getElem?, hget]
  cases hf : t.history.find? (·.version = r.historyVersion) with
  | none =>
    have hne := List.find?_eq_none.mp hf last (List.mem_of_getElem? hlen)
    have hpos : 0 < t.history.length := List.length_pos_of_mem (List.mem_of_getElem? hlen)
    have hversion := h.versions _ last hlen
    rw [hlast, hversion] at hne
    exact absurd (by simp; omega) hne
  | some h' =>
    -- a row with the last version stands last
    obtain ⟨i, hi⟩ := List.mem_iff_getElem?.mp (List.mem_of_find?_eq_some hf)
    have hversion : h'.version = r.historyVersion := by simpa using List.find?_some hf
    rw [h.versions i h' hi, hlast] at hversion
    have hi' : i = t.history.length - 1 := by omega
    rw [hi', hlen] at hi
    exact hi.symm

/-- The snapshot that is read under the lock. -/
theorem Sound.lock (h : Sound t) {outputs : TaskId → Option Bytes}
    (hlock : lockSnapshotForMutation outputs t = some (s, version)) :
    ∃ r, t.row = some r ∧ r.historyVersion = version ∧ version = t.history.length
      ∧ Shows r.columns s := by
  obtain ⟨r, hr, hfound⟩ := Option.bind_eq_some_iff.mp hlock
  obtain ⟨hlast, last, hget, hshows⟩ := h.current r hr
  rw [h.find_version hr, hget, Option.map_some, Option.some.injEq, Prod.mk.injEq] at hfound
  obtain ⟨rfl, rfl⟩ := hfound
  have hof : Columns.of (last.data.hydrateTaskOutputs outputs) = .of last.data := of_mapOutputs _
  refine ⟨r, hr, rfl, hlast, hshows.status.trans ?_, fun hlive => (hshows.live hlive).trans hof.symm⟩
  exact (congrArg Columns.status hof).symm

/-- A version that follows the last one is appended. -/
theorem Sound.append (h : Sound t) (hdel : t.deletions = []) {row : SnapshotRow}
    {status : String} {currentTaskId : Option TaskId} {data : WorkflowSnapshot}
    (hversion : version = t.history.length + 1) (hrow : row.historyVersion = version)
    (hshows : Shows row.columns data) :
    ∃ t', appendHistory version status currentTaskId data { t with row := some row } = .ok t'
      ∧ Sound t' ∧ t.history <+: t'.history := by
  have hfresh : (t.history.any fun x => x.version = version) = false := by
    rw [List.any_eq_false]
    intro x hx heq
    obtain ⟨i, hi⟩ := List.mem_iff_getElem?.mp hx
    have hlt : i < t.history.length := (List.getElem?_eq_some_iff.mp hi).1
    have hx' := h.versions i x hi
    rw [of_decide_eq_true heq, hversion] at hx'
    omega
  refine ⟨_, by rw [appendHistory, if_neg (by simpa using hfresh)], ?_, List.prefix_append _ _⟩
  constructor
  · intro i x hx
    dsimp only at hx
    by_cases hi : i < t.history.length
    · rw [List.getElem?_append_left hi] at hx
      exact h.versions i x hx
    · rw [List.getElem?_append_right (Nat.le_of_not_lt hi)] at hx
      obtain ⟨hlt, rfl⟩ := List.getElem?_eq_some_iff.mp hx
      have hi' : i = t.history.length := by
        rw [List.length_singleton] at hlt
        omega
      rw [List.getElem_singleton, hi']
      exact hversion
  · rintro r ⟨⟩
    refine ⟨by rw [hrow, hversion]; simp, _, List.getLast?_concat, hshows⟩
  · nofun
  · rw [hdel]
    nofun

theorem Shows.of (s : WorkflowSnapshot) : Shows (.of s) s := ⟨rfl, fun _ => rfl⟩

theorem Shows.stored (h : Shows columns s) :
    Shows columns (postgres.stored s) := by
  have hof : Columns.of (postgres.stored s) = .of s := of_stored
  exact ⟨h.status.trans (congrArg Columns.status hof).symm, fun hl => (h.live hl).trans hof.symm⟩

theorem Shows.result (h : Shows columns s) (taskId : TaskId) (output : Bytes) :
    Shows (setResult (.of (s.markTaskCompleted taskId output)) columns)
      (s.markTaskCompleted taskId output) := by
  refine ⟨rfl, fun hlive => ?_⟩
  have hlive' : IsLive columns.status := by
    rw [h.status, ← status_markTaskCompleted taskId output]
    exact hlive
  rw [h.live hlive']
  exact of_markTaskCompleted taskId output

/-- A cancelled instance is not live, so that the columns left alone do not matter. -/
theorem Shows.cancelled (request : SignalRequest)
    (interruptedAtTask : Option TaskId) (s : WorkflowSnapshot) :
    Shows (setCancelled (.of (s.markCancelled request interruptedAtTask)) columns)
      (s.markCancelled request interruptedAtTask) := by
  refine ⟨rfl, fun hlive => ?_⟩
  have hstatus : (setCancelled (.of (s.markCancelled request interruptedAtTask)) columns).status
      = "Cancelled" := rfl
  rw [hstatus] at hlive
  exact absurd hlive (by decide)

theorem wrapI32_of_lt {n : Int} (h0 : 0 ≤ n) (h : n < intMax) : wrapI32 (n + 1) = n + 1 := by
  simp only [wrapI32, intMax] at h ⊢
  omega

/-- **A path that changes the snapshot under the lock keeps the tables sound** if what it
sets shows the new snapshot. -/
theorem Sound.storeVersion (h : Sound t) (hdel : t.deletions = [])
    {outputs : TaskId → Option Bytes} {s' : WorkflowSnapshot}
    (hlock : lockSnapshotForMutation outputs t = some (s, version))
    (hmax : ∀ r, t.row = some r → r.historyVersion < intMax) {set : Columns → Columns → Columns}
    (hset : ∀ columns, Shows columns s → Shows (set (.of s') columns) s')
    (currentTaskId : Option TaskId) :
    ∃ t', Postgres.storeVersion set currentTaskId s' version t = .ok t'
      ∧ Sound t' ∧ t.history <+: t'.history := by
  obtain ⟨r, hr, rfl, hlast, hshows⟩ := h.lock hlock
  have hnext : wrapI32 (r.historyVersion + 1) = r.historyVersion + 1 :=
    wrapI32_of_lt (by omega) (hmax r hr)
  simp only [Postgres.storeVersion, hr, Option.map_some, hnext]
  exact h.append hdel (by rw [hlast]) rfl (hset _ hshows).stored

/-- **A save keeps the tables sound.** -/
theorem Sound.execSaveSnapshot (h : Sound t) (hdel : t.deletions = []) (s : WorkflowSnapshot)
    (hopen : ∀ r, t.row = some r →
      isOpenStatus r.columns.status = true ∧ r.historyVersion ≠ intMax) :
    ∃ t', Postgres.execSaveSnapshot s t = .ok t' ∧ Sound t' ∧ t.history <+: t'.history := by
  unfold Postgres.execSaveSnapshot
  cases hr : t.row with
  | none =>
    have hfirst : (1 : Int) = t.history.length + 1 := by
      rw [h.absent hr, List.length_nil]
      rfl
    exact h.append hdel hfirst rfl (Shows.of s).stored
  | some r =>
    obtain ⟨hstatus, hversion⟩ := hopen r hr
    dsimp only
    rw [hstatus, if_neg (by decide), if_neg hversion]
    exact h.append hdel (by rw [(h.current r hr).1]) rfl (Shows.of s).stored

/-! ## Deletions -/

theorem Sound.beginDelete (h : Sound t) : Sound (Postgres.beginDelete t) where
  versions := h.versions
  current := h.current
  absent := h.absent
  found := by
    intro d hd
    rcases List.mem_append.mp hd with hd | hd
    · exact h.found d hd
    · obtain rfl := List.mem_singleton.mp hd
      refine ⟨fun r hr => ?_, fun x hx => List.mem_map_of_mem hx⟩
      change t.row.map SnapshotRow.tuple = some r.tuple
      rw [show t.row = some r from hr]
      rfl

/-- A deletion that has found everything leaves nothing. -/
theorem Sound.finishDelete (h : Sound t) (i : Nat) : Sound (Postgres.finishDelete i t) := by
  unfold Postgres.finishDelete
  cases hd : t.deletions[i]? with
  | none => exact h
  | some d =>
    obtain ⟨hrow, hids⟩ := h.found d (List.mem_of_getElem? hd)
    have hhistory : (t.history.filter fun x => !d.ids.contains x.id) = [] := by
      rw [List.filter_eq_nil_iff]
      intro x hx
      simpa using hids x hx
    have hgone : (t.row.filter fun r => d.tuple ≠ some r.tuple) = none := by
      rw [Option.filter_eq_none_iff]
      intro r hr
      simpa using hrow r hr
    dsimp only
    rw [hhistory, hgone]
    exact ⟨fun i x hx => by simp at hx, fun r hr => by simp at hr, fun _ => rfl,
      fun _ _ => ⟨fun r hr => by simp at hr, fun x hx => by simp at hx⟩⟩

/-! ## Writes -/

/-- The write adds a version. -/
def Write.commits : Write → Tables → Bool
  | .saveSnapshot _, t => t.row.all fun r =>
    isOpenStatus r.columns.status && decide (r.historyVersion ≠ intMax)
  | .saveTaskResult outputs _ _, t => (lockSnapshotForMutation outputs t).isSome
  | .sendEvent outputs signalName _, t => (lockSnapshotForMutation outputs t).any fun locked =>
    (signalResumeTarget locked.1 signalName).isSome
  | .checkAndCancel outputs _ _, t | .checkAndPause outputs _, t =>
    (lockSnapshotForMutation outputs t).any (·.1.isInProgress)
  | .unpause outputs, t => (lockSnapshotForMutation outputs t).any (·.1.isPaused)
  | .beginDelete, _ | .finishDelete _, _ => false

/-- Only a save leaves it to the database to add to the version. -/
def Write.addsInDatabase : Write → Bool
  | .saveSnapshot _ => true
  | _ => false

/-- No version is added while a deletion is under way, and none follows the largest one. -/
def Write.orderly (w : Write) (t : Tables) : Bool :=
  !w.commits t || (t.deletions.isEmpty
    && (w.addsInDatabase || t.row.all fun r => decide (r.historyVersion < intMax)))

/-- A deletion ends. -/
def Write.isFinishDelete : Write → Bool
  | .finishDelete _ => true
  | _ => false

theorem Write.step_of_ok (h : w.perform t = .ok t') : w.step t = t' := by
  rw [Write.step, h]

/-- A write that adds no version leaves the tables alone, unless it is a deletion. -/
theorem Write.perform_of_not_commits (h : w.commits t = false)
    (hbegin : w ≠ .beginDelete) (hfinish : ∀ i, w ≠ .finishDelete i) : w.step t = t := by
  have hskip : ∀ r, w.perform t = r → (r = .ok t ∨ ∃ e, r = .error e) → w.step t = t := by
    rintro r hr (rfl | ⟨e, rfl⟩)
    · exact Write.step_of_ok hr
    · rw [Write.step, hr]
  refine hskip _ rfl ?_
  cases w with
  | saveSnapshot s =>
    cases hr : t.row with
    | none => simp [commits, hr] at h
    | some r =>
      simp only [commits, hr, Option.all_some, Bool.and_eq_false_iff] at h
      simp only [perform, Postgres.execSaveSnapshot, hr]
      rcases h with hstatus | hversion
      · rw [hstatus]
        exact .inl rfl
      · have hmax : r.historyVersion = intMax := by simpa using hversion
        by_cases hstatus : isOpenStatus r.columns.status = true
        · rw [hstatus, if_neg (by decide), if_pos hmax]
          exact .inr ⟨_, rfl⟩
        · rw [Bool.eq_false_iff.mpr hstatus]
          exact .inl rfl
  | saveTaskResult outputs taskId output =>
    have hnone : lockSnapshotForMutation outputs t = none := by simpa [commits] using h
    simp only [perform, saveTaskResultOnce, hnone]
    exact .inr ⟨_, rfl⟩
  | sendEvent outputs signalName payload =>
    simp only [perform, resumeEvent]
    cases hlock : lockSnapshotForMutation outputs t with
    | none => exact .inl rfl
    | some locked =>
      have htarget : signalResumeTarget locked.1 signalName = none := by
        simpa [commits, hlock] using h
      exact .inl (by simp [htarget])
  | checkAndCancel outputs request interruptedAtTask =>
    simp only [perform, applyCancel]
    cases hlock : lockSnapshotForMutation outputs t with
    | none => exact .inl rfl
    | some locked =>
      have hidle : locked.1.isInProgress = false := by simpa [commits, hlock] using h
      exact .inl (by simp [hidle])
  | checkAndPause outputs request =>
    simp only [perform, applyPause]
    cases hlock : lockSnapshotForMutation outputs t with
    | none => exact .inl rfl
    | some locked =>
      have hidle : locked.1.isInProgress = false := by simpa [commits, hlock] using h
      exact .inl (by simp [hidle])
  | unpause outputs =>
    simp only [perform, unpauseRow]
    cases hlock : lockSnapshotForMutation outputs t with
    | none => exact .inr ⟨_, rfl⟩
    | some locked =>
      have hidle : locked.1.isPaused = false := by simpa [commits, hlock] using h
      exact .inr ⟨_, by simp [hidle]; rfl⟩
  | beginDelete => exact absurd rfl hbegin
  | finishDelete i => exact absurd rfl (hfinish i)

/-- A write that adds a version keeps the tables sound. -/
theorem Sound.commit (h : Sound t) (hc : w.commits t = true) (hdel : t.deletions = [])
    (hmax : w.addsInDatabase = false → ∀ r, t.row = some r → r.historyVersion < intMax) :
    ∃ t', w.perform t = .ok t' ∧ Sound t' ∧ t.history <+: t'.history := by
  cases w with
  | saveSnapshot s =>
    refine h.execSaveSnapshot hdel s fun r hr => ?_
    simpa [Write.commits, hr] using hc
  | saveTaskResult outputs taskId output =>
    obtain ⟨⟨s, version⟩, hlock⟩ := Option.isSome_iff_exists.mp hc
    simp only [Write.perform, saveTaskResultOnce, hlock]
    exact h.storeVersion hdel hlock (hmax rfl) (fun _ hs => hs.result taskId output) _
  | sendEvent outputs signalName payload =>
    obtain ⟨⟨s, version⟩, hlock, hsome⟩ := (Option.any_eq_true _ _).mp hc
    obtain ⟨⟨signalId, next⟩, htarget⟩ := Option.isSome_iff_exists.mp hsome
    simp only [Write.perform, resumeEvent, hlock, htarget]
    exact h.storeVersion hdel hlock (hmax rfl) (fun _ _ => Shows.of _) _
  | checkAndCancel outputs request interruptedAtTask =>
    obtain ⟨⟨s, version⟩, hlock, hp⟩ := (Option.any_eq_true _ _).mp hc
    simp only [Write.perform, applyCancel, hlock, hp, if_true]
    exact h.storeVersion hdel hlock (hmax rfl) (fun _ _ => Shows.cancelled _ _ _) _
  | checkAndPause outputs request =>
    obtain ⟨⟨s, version⟩, hlock, hp⟩ := (Option.any_eq_true _ _).mp hc
    simp only [Write.perform, applyPause, hlock, hp, if_true]
    exact h.storeVersion hdel hlock (hmax rfl) (fun _ _ => Shows.of _) _
  | unpause outputs =>
    obtain ⟨⟨s, version⟩, hlock, hp⟩ := (Option.any_eq_true _ _).mp hc
    simp only [Write.perform, unpauseRow, hlock, hp, if_true]
    exact h.storeVersion hdel hlock (hmax rfl) (fun _ _ => Shows.of _) _
  | beginDelete => exact absurd hc (by simp [Write.commits])
  | finishDelete i => exact absurd hc (by simp [Write.commits])

/-- **An orderly write keeps the tables sound and the history as it was.** -/
theorem Sound.step (h : Sound t) (ho : w.orderly t = true) :
    Sound (w.step t) ∧ (w.isFinishDelete = false → t.history <+: (w.step t).history) := by
  cases hc : w.commits t with
  | true =>
    simp only [Write.orderly, hc, Bool.not_true, Bool.false_or, Bool.and_eq_true,
      Bool.or_eq_true, List.isEmpty_iff] at ho
    obtain ⟨hdel, hmax⟩ := ho
    obtain ⟨t', hok, hsound, hinit⟩ := h.commit hc hdel fun hdb r hr => by
      simpa [hdb, hr] using hmax
    rw [Write.step_of_ok hok]
    exact ⟨hsound, fun _ => hinit⟩
  | false =>
    by_cases hbegin : w = .beginDelete
    · subst hbegin
      exact ⟨h.beginDelete, fun _ => List.prefix_refl _⟩
    · by_cases hfinish : ∃ i, w = .finishDelete i
      · obtain ⟨i, rfl⟩ := hfinish
        exact ⟨h.finishDelete i, nofun⟩
      · rw [Write.perform_of_not_commits hc hbegin fun i hi => hfinish ⟨i, hi⟩]
        exact ⟨h, fun _ => List.prefix_refl _⟩

end steps

/-! ## Whole runs -/

/-- Every write is orderly when it is made. -/
def Orderly : List Write → Tables → Prop
  | [], _ => True
  | w :: writes, t => w.orderly t = true ∧ Orderly writes (w.step t)

instance decidableOrderly : (writes : List Write) → (t : Tables) → Decidable (Orderly writes t)
  | [], _ => inferInstanceAs (Decidable True)
  | w :: writes, t =>
    have := decidableOrderly writes (w.step t)
    inferInstanceAs (Decidable (_ ∧ _))

/-- The columns of a live row are the values of the snapshot at its version, which exists,
and the versions of the history are one sequence without gaps. -/
structure Mirrored (t : Tables) : Prop where
  columns : ∀ r, t.row = some r → IsLive r.columns.status →
    ∃ h ∈ t.history, h.version = r.historyVersion ∧ r.columns = .of h.data
  versions : ∀ (i : Nat) (h : HistoryRow), t.history[i]? = some h → h.version = (i : Int) + 1

theorem Sound.mirrored (h : Sound t) : Mirrored t where
  columns := by
    intro r hr hlive
    obtain ⟨-, last, hget, hshows⟩ := h.current r hr
    have hfind := h.find_version hr
    rw [hget] at hfind
    refine ⟨last, List.mem_of_find?_eq_some hfind, ?_, hshows.live hlive⟩
    simpa using List.find?_some hfind
  versions := h.versions

theorem sound_writeAll {writes : List Write} (h : Sound t) (ho : Orderly writes t) :
    Sound (writeAll writes t) ∧ ((∀ w ∈ writes, w.isFinishDelete = false) →
      t.history <+: (writeAll writes t).history) := by
  induction writes generalizing t with
  | nil => exact ⟨h, fun _ => List.prefix_refl _⟩
  | cons w writes ih =>
    obtain ⟨hw, hrest⟩ := ho
    obtain ⟨hsound, hinit⟩ := h.step hw
    obtain ⟨hall, hkept⟩ := ih hsound hrest
    refine ⟨hall, fun hdel => ?_⟩
    exact (hinit (hdel w List.mem_cons_self)).trans
      (hkept fun w' hw' => hdel w' (List.mem_cons_of_mem w hw'))

theorem orderly_append {earlier later : List Write} (h : Orderly (earlier ++ later) t) :
    Orderly earlier t ∧ Orderly later (writeAll earlier t) := by
  induction earlier generalizing t with
  | nil => exact ⟨trivial, h⟩
  | cons w earlier ih =>
    obtain ⟨hw, hrest⟩ := h
    obtain ⟨hearlier, hlater⟩ := ih hrest
    exact ⟨⟨hw, hearlier⟩, hlater⟩

/-- **The columns mirror the blob.** After any writes, of which none adds a version while
a deletion is under way or after the largest version, the columns of a live row are the
values of the snapshot at its version and the history is one sequence without gaps; and
what the history holds at some time it still holds later, unless a deletion has ended. -/
theorem columns_mirror_blob (earlier later : List Write)
    (h : Orderly (earlier ++ later) .empty) :
    Mirrored (writeAll (earlier ++ later) .empty)
      ∧ ((∀ w ∈ later, w.isFinishDelete = false) →
        (writeAll earlier .empty).history <+: (writeAll (earlier ++ later) .empty).history) := by
  obtain ⟨hearlier, hlater⟩ := orderly_append h
  have hsound := (sound_writeAll sound_empty hearlier).1
  obtain ⟨hall, hkept⟩ := sound_writeAll hsound hlater
  have hrun : writeAll (earlier ++ later) .empty = writeAll later (writeAll earlier .empty) := by
    rw [writeAll, List.foldl_append]
    rfl
  rw [hrun]
  exact ⟨hall.mirrored, hkept⟩

section sample

attribute [local instance] Sha256.packed

/-- An instance at its first task. -/
def firstSave : WorkflowSnapshot :=
  (WorkflowSnapshot.withInitialInput "i" ⟨0⟩ [7]).updatePosition (.atTask (TaskId.sha256 "t"))

/-- The task is completed, and the instance is paused, goes on and parks at a delay. -/
def pausedAndParked : List Write :=
  [.saveTaskResult (fun _ => none) (TaskId.sha256 "t") [8],
    .checkAndPause (fun _ => some [8]) ⟨none, none⟩, .unpause fun _ => some [8],
    .saveSnapshot (firstSave.updatePosition (.atDelay (TaskId.sha256 "d") 0 1500 none))]

/-- The columns after these writes, which are orderly. -/
theorem columns_mirror_blob_pausedAndParked :
    (writeAll ([.saveSnapshot firstSave] ++ pausedAndParked) .empty).row.map SnapshotRow.columns
        = some ⟨"InProgress", none, 0, some "AtDelay", some 1⟩
      ∧ Mirrored (writeAll ([.saveSnapshot firstSave] ++ pausedAndParked) .empty) :=
  ⟨by decide +kernel,
    (columns_mirror_blob [.saveSnapshot firstSave] pausedAndParked (by decide +kernel)).1⟩

/-- A deletion begins, waits for a save and ends; then the instance is created again. -/
def disturbedDeletion : List Write :=
  [.saveSnapshot firstSave, .beginDelete, .saveSnapshot firstSave, .finishDelete 0,
    .saveSnapshot firstSave]

/-- The version that the save has added is left behind, in front of the first version of
the new instance. -/
theorem disturbed_deletion_leaves_version :
    (writeAll disturbedDeletion .empty).history.map HistoryRow.version = [2, 1]
      ∧ (writeAll disturbedDeletion .empty).row.map (fun r => (r.columns.status, r.historyVersion))
          = some ("InProgress", 1)
      ∧ ¬ Mirrored (writeAll disturbedDeletion .empty) := by
  have hversions : (writeAll disturbedDeletion .empty).history.map HistoryRow.version = [2, 1] := by
    decide +kernel
  refine ⟨hversions, by decide +kernel, fun h => ?_⟩
  have hfirst : ∃ x, (writeAll disturbedDeletion .empty).history[0]? = some x ∧ x.version = 2 := by
    cases hh : (writeAll disturbedDeletion .empty).history with
    | nil => simp [hh] at hversions
    | cons x rest =>
      rw [hh] at hversions
      exact ⟨x, rfl, (List.cons.inj hversions).1⟩
  obtain ⟨x, hx, hversion⟩ := hfirst
  have hone := h.versions 0 x hx
  rw [hversion] at hone
  exact absurd hone (by decide)

end sample

end Sayiir.Postgres
