import Sayiir.Core.Snapshot
import Mathlib.Data.List.Sort

/-!
# The tables of the D1 backend

`sayiir-d1/src` keeps snapshots and events in SQLite. Times are stored as texts.
A save prints them in one format; the query that looks for instances to resume
compares them, as texts, with the output of `datetime`, which is another. The
texts are computed here as `chrono` and SQLite print them, and compared character
by character, as the collation of the columns does.

Only the columns that the query reads are kept.
-/

namespace Sayiir

/-! ## Names of the variants -/

/-- The name `strum` derives for the variant. -/
def ExecutionPosition.asRef : ExecutionPosition → String
  | notStarted => "NotStarted"
  | atTask _ => "AtTask"
  | atFork _ _ _ => "AtFork"
  | atJoin _ _ => "AtJoin"
  | atDelay _ _ _ _ => "AtDelay"
  | atSignal _ _ _ _ => "AtSignal"
  | inLoop _ _ _ => "InLoop"

/-- The name `strum` derives for the variant. -/
def WorkflowSnapshotState.asRef : WorkflowSnapshotState → String
  | inProgress _ _ _ => "InProgress"
  | completed _ => "Completed"
  | failed _ => "Failed"
  | cancelled _ _ _ _ => "Cancelled"
  | paused _ _ _ _ _ => "Paused"

namespace WorkflowSnapshot

def positionKind (s : WorkflowSnapshot) : Option String :=
  match s.state with
  | .inProgress position _ _ | .paused _ _ _ position _ => some position.asRef
  | _ => none

def awaitedSignalName (s : WorkflowSnapshot) : Option String :=
  match s.state with
  | .inProgress (.atSignal _ signalName _ _) _ _ => some signalName
  | _ => none

def delayWakeAt (s : WorkflowSnapshot) : Option Time :=
  match s.state with
  | .inProgress (.atDelay _ _ wakeAt _) _ _ | .inProgress (.atFork _ _ wakeAt) _ _
  | .inProgress (.atSignal _ _ (some wakeAt) _) _ _ => some wakeAt
  | _ => none

end WorkflowSnapshot

namespace D1

/-! ## Times as texts -/

/-- A number in decimal, with zeros in front up to the width. -/
def pad (width value : Nat) : List Char :=
  (Nat.toDigits 10 value).leftpad width '0'

/-- A day of the calendar. -/
structure Date where
  year : Int
  month : Nat
  day : Nat
  deriving DecidableEq, Repr

/-- The day that many days after the first of January 1970. Eras of 400 years are
counted from the first of March of the year zero. -/
def civil (days : Int) : Date :=
  let z := days + 719468
  let doe := (z % 146097).toNat
  let yoe := (doe - doe / 1460 + doe / 36524 - doe / 146096) / 365
  let doy := doe - (365 * yoe + yoe / 4 - yoe / 100)
  let mp := (5 * doy + 2) / 153
  let month := if mp < 10 then mp + 3 else mp - 9
  { year := z / 146097 * 400 + yoe + if month ≤ 2 then 1 else 0
    month := month
    day := doy - (153 * mp + 2) / 5 + 1 }

/-- `%Y`. -/
def yearText (year : Int) : List Char :=
  if year < 0 then '-' :: pad 4 year.natAbs
  else if year ≤ 9999 then pad 4 year.natAbs
  else '+' :: pad 4 year.natAbs

/-- `%Y-%m-%d`, of a time in nanoseconds since the epoch. -/
def dateText (nanos : Int) : List Char :=
  let date := civil (nanos / 86400000000000)
  yearText date.year ++ '-' :: (pad 2 date.month ++ '-' :: pad 2 date.day)

/-- `%H:%M:%S`. -/
def clockText (nanos : Int) : List Char :=
  let secs := (nanos / 1000000000 % 86400).toNat
  pad 2 (secs / 3600) ++ ':' :: (pad 2 (secs / 60 % 60) ++ ':' :: pad 2 (secs % 60))

/-- `%Y-%m-%dT%H:%M:%S%.3fZ`, and what `strftime('%Y-%m-%dT%H:%M:%fZ', ..)` prints. -/
def isoText (nanos : Int) : List Char :=
  dateText nanos ++ 'T' :: (clockText nanos
    ++ '.' :: (pad 3 (nanos / 1000000 % 1000).toNat ++ ['Z']))

def dtToSqlite (t : Option Time) : Option (List Char) :=
  t.map fun t => isoText t

/-- `datetime(..)`. -/
def datetime (nanos : Int) : List Char :=
  dateText nanos ++ ' ' :: clockText nanos

/-- The order of texts: character by character, and a text before its continuations. -/
def textLE : List Char → List Char → Bool
  | [], _ => true
  | _ :: _, [] => false
  | a :: s, b :: t => decide (a < b) || (decide (a = b) && textLE s t)

/-! ## The tables -/

/-- A row of `sayiir_workflow_snapshots`. -/
structure SnapshotRow where
  instanceId : String
  status : String
  positionKind : Option String
  delayWakeAt : Option (List Char)
  awaitedSignalName : Option String
  updatedAt : List Char
  deriving DecidableEq

/-- A row of `sayiir_workflow_events`. -/
structure EventRow where
  instanceId : String
  signalName : String
  deriving DecidableEq

structure Tables where
  snapshots : List SnapshotRow
  events : List EventRow

/-- What `save_snapshot` binds. -/
def row (now : Time) (snapshot : WorkflowSnapshot) : SnapshotRow where
  instanceId := snapshot.instanceId
  status := snapshot.state.asRef
  positionKind := snapshot.positionKind
  delayWakeAt := dtToSqlite snapshot.delayWakeAt
  awaitedSignalName := snapshot.awaitedSignalName
  updatedAt := isoText now

/-- `save_snapshot`: insert the row, or update the one of the instance. -/
def saveSnapshot (now : Time) (snapshot : WorkflowSnapshot) (t : Tables) : Tables :=
  { t with snapshots :=
      if t.snapshots.any (·.instanceId == snapshot.instanceId) then
        t.snapshots.map fun r =>
          if r.instanceId = snapshot.instanceId then row now snapshot else r
      else t.snapshots ++ [row now snapshot] }

def sendEvent (instanceId signalName : String) (t : Tables) : Tables :=
  { t with events := t.events ++ [⟨instanceId, signalName⟩] }

/-- The three ways to be resumable. A comparison with NULL does not hold. -/
def SnapshotRow.resumable (r : SnapshotRow) (events : List EventRow) (now : Time)
    (staleAfterSeconds : Nat) : Bool :=
  r.delayWakeAt.any (fun wakeAt => textLE wakeAt (datetime now))
    || (r.positionKind == some "AtSignal"
      && r.awaitedSignalName.any fun name => events.any fun e =>
        e.instanceId == r.instanceId && e.signalName == name)
    || (r.delayWakeAt.isNone
      && r.positionKind.all (fun kind =>
        ["AtTask", "AtJoin", "InLoop", "NotStarted"].contains kind)
      && textLE r.updatedAt (datetime (now - staleAfterSeconds * 1000000000)))

/-- The condition of the query in `find_resumable_instances`. -/
def SnapshotRow.matches (r : SnapshotRow) (events : List EventRow) (now : Time)
    (staleAfterSeconds : Nat) : Bool :=
  r.status == "in_progress" && r.resumable events now staleAfterSeconds

def findResumableInstances (t : Tables) (now : Time) (staleAfterSeconds limit : Nat) :
    List String :=
  (((t.snapshots.filter (·.matches t.events now staleAfterSeconds)).insertionSort
    fun a b => textLE a.updatedAt b.updatedAt).take limit).map SnapshotRow.instanceId

/-! ## Writes -/

/-- The two writes that fill the tables. A save has the time of the database. -/
inductive Write where
  | saveSnapshot (now : Time) (snapshot : WorkflowSnapshot)
  | sendEvent (instanceId signalName : String)

def Write.apply : Write → Tables → Tables
  | saveSnapshot now snapshot, t => D1.saveSnapshot now snapshot t
  | sendEvent instanceId signalName, t => D1.sendEvent instanceId signalName t

/-- The tables after the writes. -/
def tables (writes : List Write) : Tables :=
  writes.foldl (fun t w => w.apply t) ⟨[], []⟩

/-! ## What is due -/

/-- The last save of the instance, and when it was made. -/
def lastSave (instanceId : String) (writes : List Write) : Option (Time × WorkflowSnapshot) :=
  writes.foldl (fun last w => match w with
    | .saveSnapshot now snapshot =>
      if snapshot.instanceId = instanceId then some (now, snapshot) else last
    | .sendEvent _ _ => last) none

/-- An event of that name was sent to the instance. -/
def buffered (instanceId signalName : String) (writes : List Write) : Bool :=
  writes.any fun
    | .saveSnapshot _ _ => false
    | .sendEvent i s => i == instanceId && s == signalName

/-- A worker executes the instance at this position. -/
def executing : ExecutionPosition → Bool
  | .atTask _ | .atJoin _ _ | .inLoop _ _ _ | .notStarted => true
  | .atFork _ _ _ | .atDelay _ _ _ _ | .atSignal _ _ _ _ => false

/-- The time the position waits for is over. -/
def wakes (now : Time) : ExecutionPosition → Bool
  | .atDelay _ _ wakeAt _ | .atFork _ _ wakeAt | .atSignal _ _ (some wakeAt) _ =>
    decide (wakeAt ≤ now)
  | _ => false

/-- The position waits for an event that is there. -/
def signalled (instanceId : String) (writes : List Write) : ExecutionPosition → Bool
  | .atSignal _ signalName _ _ => buffered instanceId signalName writes
  | _ => false

/-- The instance is in progress and should be driven on. -/
def due (writes : List Write) (now : Time) (staleAfterSeconds : Nat) (instanceId : String) :
    Bool :=
  match lastSave instanceId writes with
  | some (savedAt, snapshot) =>
    match snapshot.state with
    | .inProgress position _ _ =>
      wakes now position || signalled instanceId writes position
        || (executing position && decide (savedAt + staleAfterSeconds * 1000000000 ≤ now))
    | _ => false
  | none => false

end D1

end Sayiir
