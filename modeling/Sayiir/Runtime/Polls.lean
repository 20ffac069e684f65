import Sayiir.Collection.Ranking
import Sayiir.Runtime.Pool
import Mathlib.Algebra.Order.Field.Rat
import Mathlib.Data.Prod.Lex
import Mathlib.Data.String.Basic

/-!
# Polls of a whole store

`find_available_tasks` looks at every instance of a store, and what it hands out
depends on how the instances compare. The slice of each instance is the one that
the pool works on; a `Row` adds what a poll reads besides it to compare instances.
With nothing in between, a poll of one instance is `pollInMemory` or `pollPostgres`.

In memory the instances are looked at in the order in which the hash map iterates,
until as many tasks as the limit have been found, and these are sorted. Postgres
fetches the first rows by priority and by age, keeps the best of them by a score,
and only then looks into their snapshots.

Floating-point numbers are modelled as rationals.
-/

namespace Sayiir

open Backend PoolWorld

/-! ## Polls of one instance -/

namespace Backend

variable [Sha256]

/-- `find_available_tasks` in memory, with nothing in between. -/
def pollInMemory (tags : List String) (w : PoolWorld) : Option AvailableTask × PoolWorld :=
  let w := dropExpired w
  let w := match collectAdvance w with
    | none => w
    | some advance => applyAdvance advance (match advance.event with
        | some e => w.log e
        | none => w)
  (selectTask tags w, w)

/-- `find_available_tasks` in Postgres, with nothing in between. -/
def pollPostgres (tags : List String) (w : PoolWorld) : Option AvailableTask × PoolWorld :=
  match selectRow tags w with
  | none => (none, w)
  | some blob => match Submission.dispatchRow w.clock (blob.hydrateTaskOutputs w.outputs) with
      | .waking s next =>
        (next.bind (buildAvailableTask (postgres.afterSave s)), postgres.saveSnapshot s w)
      | .offered task => (some task, w)
      | _ => (none, w)

def findAvailableTasks (b : Backend) (tags : List String) (w : PoolWorld) :
    Option AvailableTask × PoolWorld :=
  match b with
  | inMemory => pollInMemory tags w
  | postgres => pollPostgres tags w

end Backend

/-! ## Stores -/

/-- One instance of a store. -/
structure Row extends PoolWorld where
  /-- `updated_at`, in whole seconds in memory and exact in Postgres. -/
  updatedAt : Nat
  /-- The place of the row in its table, which decides between rows that an index
  orders alike. The in-memory backend has no use for it. -/
  tid : Nat

/-- The priority of the task that the instance is at. -/
def Row.taskPriority (r : Row) : Nat := r.snapshot.elim 3 fun s => s.currentTaskPriority.toNat

/-- The instances of a store at one point in time. -/
structure Store where
  now : Time
  rows : List Row
  clocks : ∀ r ∈ rows, r.clock = now
  ids : (rows.map fun r => r.instanceId).Nodup
  tids : (rows.map Row.tid).Nodup

/-- A task that a poll hands out, and the instance it belongs to. -/
structure Offer where
  instanceId : String
  task : AvailableTask
  deriving DecidableEq

/-- The aging interval in seconds, from its whole milliseconds; at least one. -/
def agingSecs (agingInterval : Int) : ℚ :=
  max (((agingInterval.tdiv 1000000 : Int) : ℚ) / 1000) 1

/-! ## In memory -/

namespace InMemory

/-- How urgent a task is, the most urgent ones first: whether it has failed on this worker
before, and its priority, which gains one level for each aging interval it waits. -/
def urgency (rows : List Row) (workerId : String) (nowTs agingSecs : ℚ) (o : Offer) : Bool ×ₗ ℚ :=
  let row := rows.find? fun r => r.instanceId = o.instanceId
  let workerBias := (row.bind fun r => r.snapshot).any (·.hasFailedOnWorker o.task.taskId workerId)
  let base : ℚ := row.elim 3 fun r => r.taskPriority
  let updated : ℚ := row.elim nowTs fun r => r.updatedAt
  let wait := nowTs - updated
  toLex (workerBias, base - wait / agingSecs)

/-- Look at one instance after the other until `limit` tasks have been found. -/
def collectAvailable (tags : List String) (limit : Nat) :
    List Offer → List Row → List Offer
  | available, [] => available
  | available, r :: rows => match selectTask tags r.toPoolWorld with
      | none => collectAvailable tags limit available rows
      | some task =>
        if limit ≤ available.length + 1 then available ++ [⟨r.instanceId, task⟩]
        else collectAvailable tags limit (available ++ [⟨r.instanceId, task⟩]) rows

variable [Sha256]

/-- The first sections of a poll: expired claims are dropped, and a wait that is over
is left. -/
def wake (tags : List String) (r : Row) : Row where
  toPoolWorld := (pollInMemory tags r.toPoolWorld).2
  updatedAt :=
    if (collectAdvance (dropExpired r.toPoolWorld)).isSome then r.clock / 1000000000
    else r.updatedAt
  tid := r.tid

/-- `find_available_tasks`. The rows come in the order in which the hash map iterates. -/
def findAvailableTasks (workerId : String) (limit : Nat) (agingInterval : Int)
    (tags : List String) (now : Time) (rows : List Row) : List Offer × List Row :=
  let rows := rows.map (wake tags)
  let available := collectAvailable tags limit [] rows
  let nowTs : ℚ := ((now / 1000000000 : Nat) : ℚ)
  let key := urgency rows workerId nowTs (agingSecs agingInterval)
  (available.insertionSort fun a b => key a ≤ key b, rows)

end InMemory

/-! ## In Postgres -/

namespace Postgres

/-- The limit as a parameter of a query. -/
def sqlLimit (limit : Nat) : Nat := min limit (2 ^ 63 - 1)

/-- The condition of the dispatch query. -/
def selected (tags : List String) (r : Row) : Bool := (selectRow tags r.toPoolWorld).isSome

/-- The order of the index on priority and age. -/
def byPriority (r : Row) : ℕ ×ₗ ℕ ×ₗ ℕ := toLex (r.taskPriority, toLex (r.updatedAt, r.tid))

/-- The order of the index on age. -/
def byAge (r : Row) : ℕ ×ₗ ℕ := toLex (r.updatedAt, r.tid)

def armPriority (tags : List String) (limit : Nat) (rows : List Row) : List Row :=
  Ranking.smallest byPriority (sqlLimit limit) (rows.filter (selected tags))

def armOldest (tags : List String) (limit : Nat) (rows : List Row) : List Row :=
  Ranking.smallest byAge (sqlLimit limit) (rows.filter (selected tags))

/-- Both arms of the query, with one row for each instance. -/
def candidates (tags : List String) (limit : Nat) (rows : List Row) : List Row :=
  let priority := armPriority tags limit rows
  priority ++ (armOldest tags limit rows).filter fun r =>
    !priority.any fun p => p.instanceId = r.instanceId

/-- The score of a candidate, the smallest first. -/
def score (now : Time) (agingSecs : ℚ) (r : Row) : ℚ :=
  let ageSecs := (((now : Int) - (r.updatedAt : Int)).tdiv 1000000 : ℚ) / 1000
  r.taskPriority - ageSecs / agingSecs

/-- Candidates come in the order of their instances and are sorted by score. -/
def byScore (now : Time) (agingSecs : ℚ) (r : Row) : ℚ ×ₗ String :=
  toLex (score now agingSecs r, r.instanceId)

/-- The candidates whose snapshots are looked at. -/
def scored (limit : Nat) (agingInterval : Int) (tags : List String) (now : Time)
    (rows : List Row) : List Row :=
  Ranking.smallest (byScore now (agingSecs agingInterval)) limit (candidates tags limit rows)

/-- A candidate after the poll has looked into it. A save sets `updated_at`. -/
def wake (tags : List String) (r : Row) : Row where
  toPoolWorld := (pollPostgres tags r.toPoolWorld).2
  updatedAt :=
    if (pollPostgres tags r.toPoolWorld).2.snapshot = r.snapshot then r.updatedAt else r.clock
  tid := r.tid

/-- Look into one candidate after the other. The answer has the tasks found, each with
whether it has failed on this worker before, and the rows as they are left. -/
def dispatch (workerId : String) (tags : List String) (limit : Nat) :
    List (Bool × Offer) → List Row → List (Bool × Offer) × List Row
  | available, [] => (available, [])
  | available, r :: rows => match (pollPostgres tags r.toPoolWorld).1 with
      | none =>
        let rest := dispatch workerId tags limit available rows
        (rest.1, wake tags r :: rest.2)
      | some task =>
        let bias := task.snapshot.hasFailedOnWorker task.taskId workerId
        let available := available ++ [(bias, ⟨r.instanceId, task⟩)]
        if limit ≤ available.length then (available, wake tags r :: rows)
        else
          let rest := dispatch workerId tags limit available rows
          (rest.1, wake tags r :: rest.2)

/-- `find_available_tasks`. -/
def findAvailableTasks (workerId : String) (limit : Nat) (agingInterval : Int)
    (tags : List String) (now : Time) (rows : List Row) : List Offer × List Row :=
  let dispatched := dispatch workerId tags limit [] (scored limit agingInterval tags now rows)
  ((dispatched.1.insertionSort fun a b => a.1 ≤ b.1).map Prod.snd,
    rows.map fun r => (dispatched.2.find? fun d => d.instanceId = r.instanceId).getD r)

end Postgres

end Sayiir
