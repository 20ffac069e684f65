import Sayiir.Core.Workflow
import Mathlib.Algebra.Group.Nat.Defs

/-!
# Serializable continuations

The form in which a workflow definition is stored and hashed: ids and structure,
without implementations (`SerializableContinuation` in
`sayiir-core/src/workflow.rs`). The definition hash is the SHA-256 digest of a
stream of tagged and delimited fields, in which the routed branches stand in the
order of their keys.

How a single-precision float is printed is a parameter.
-/

namespace Sayiir

/-- `SerializableContinuation`. -/
inductive SerializableContinuation where
  | task (id : String) (timeoutMs : Option Nat) (retryPolicy : Option RetryPolicy)
      (version : Option String) (priority : Option UInt8) (tags : List String)
      (next : Option SerializableContinuation)
  | fork (id : String) (branches : List SerializableContinuation)
      (join : Option SerializableContinuation)
  | delay (id : String) (durationMs : Nat) (next : Option SerializableContinuation)
  | awaitSignal (id : String) (signalName : String) (timeoutMs : Option Nat)
      (next : Option SerializableContinuation)
  | branch (id : String) (branches : List (String × SerializableContinuation))
      (default : Option SerializableContinuation) (next : Option SerializableContinuation)
  | loop (id : String) (body : SerializableContinuation) (maxIterations : Nat)
      (onMax : MaxIterationsPolicy) (next : Option SerializableContinuation)
  | childWorkflow (id : String) (child : SerializableContinuation)
      (next : Option SerializableContinuation)

/-- `d.as_millis() as u64`. -/
def Duration.asMillisU64 (d : Duration) : Nat := Duration.asMillis d % 2 ^ 64

namespace WorkflowContinuation

mutual

/-- `to_serializable`. -/
def toSerializable : WorkflowContinuation → SerializableContinuation
  | .task id fields next => .task id (fields.timeout.map Duration.asMillisU64) fields.retryPolicy
      fields.version fields.priority fields.tags (toSerializableNext next)
  | .fork id branches join => .fork id (toSerializableBranches branches) (toSerializableNext join)
  | .delay id duration next => .delay id (Duration.asMillisU64 duration) (toSerializableNext next)
  | .awaitSignal id signalName timeout next =>
    .awaitSignal id signalName (timeout.map Duration.asMillisU64) (toSerializableNext next)
  | .branch id _ branches default next => .branch id (toSerializableRoutes branches)
      (toSerializableNext default) (toSerializableNext next)
  | .loop id body maxIterations onMax next =>
    .loop id body.toSerializable maxIterations onMax (toSerializableNext next)
  | .childWorkflow id child next =>
    .childWorkflow id child.toSerializable (toSerializableNext next)

def toSerializableNext : Option WorkflowContinuation → Option SerializableContinuation
  | none => none
  | some next => some next.toSerializable

def toSerializableBranches : List WorkflowContinuation → List SerializableContinuation
  | [] => []
  | c :: cs => c.toSerializable :: toSerializableBranches cs

def toSerializableRoutes :
    List (String × WorkflowContinuation) → List (String × SerializableContinuation)
  | [] => []
  | (key, c) :: rs => (key, c.toSerializable) :: toSerializableRoutes rs

end

attribute [grind =] toSerializable toSerializableNext toSerializableBranches toSerializableRoutes

end WorkflowContinuation

namespace SerializableContinuation

/-- Induction over a tree, one case per node. -/
theorem induct {P : SerializableContinuation → Prop}
    (task : ∀ id timeoutMs retryPolicy version priority tags next,
      (∀ n, next = some n → P n) →
        P (.task id timeoutMs retryPolicy version priority tags next))
    (fork : ∀ id branches join, (∀ b ∈ branches, P b) → (∀ n, join = some n → P n) →
      P (.fork id branches join))
    (delay : ∀ id durationMs next, (∀ n, next = some n → P n) → P (.delay id durationMs next))
    (awaitSignal : ∀ id signalName timeoutMs next, (∀ n, next = some n → P n) →
      P (.awaitSignal id signalName timeoutMs next))
    (branch : ∀ id branches default next, (∀ r ∈ branches, P r.2) →
      (∀ n, default = some n → P n) → (∀ n, next = some n → P n) →
      P (.branch id branches default next))
    (loop : ∀ id body maxIterations onMax next, P body → (∀ n, next = some n → P n) →
      P (.loop id body maxIterations onMax next))
    (childWorkflow : ∀ id child next, P child → (∀ n, next = some n → P n) →
      P (.childWorkflow id child next))
    (c : SerializableContinuation) : P c := by
  refine @SerializableContinuation.rec P (fun o => ∀ n, o = some n → P n)
    (fun l => ∀ b ∈ l, P b) (fun l => ∀ r ∈ l, P r.2) (fun r => P r.2) task fork delay
    awaitSignal branch loop childWorkflow ?_ ?_ ?_ ?_ ?_ ?_ ?_ c
  · simp
  · rintro n ih _ ⟨⟩
    exact ih
  · simp
  · intro b bs hb hbs
    simpa using ⟨hb, hbs⟩
  · simp
  · intro r rs hr hrs
    simpa using ⟨hr, fun a b h => hrs (a, b) h⟩
  · exact fun _ _ h => h

/-! ## The definition hash -/

/-- A routing table in the order of its keys. -/
def sortByKey {α : Type} (routes : List (String × α)) : List (String × α) :=
  routes.mergeSort fun a b => decide (a.1 ≤ b.1)

end SerializableContinuation

/-- How a single-precision float is printed: no two of them alike, and without a colon
or a semicolon. -/
class FloatDisplay where
  display : ℚ → List Char
  display_injective : Function.Injective display
  colon_notMem : ∀ x, ':' ∉ display x
  semicolon_notMem : ∀ x, ';' ∉ display x

/-- The decimal digits of a number. -/
def digits (n : Nat) : List Char := n.repr.toList

/-- `impl Display for MaxIterationsPolicy`. -/
def MaxIterationsPolicy.display : MaxIterationsPolicy → List Char
  | fail => "fail".toList
  | exitWithLast => "exit_with_last".toList

namespace SerializableContinuation

variable [FloatDisplay]

def timeoutStream : Option Nat → List Char
  | none => []
  | some ms => ":t:".toList ++ digits ms

def retryStream : Option RetryPolicy → List Char
  | none => []
  | some policy => ":r:".toList ++ (digits policy.maxRetries
      ++ ':' :: (digits (Duration.asMillis policy.initialDelay)
      ++ ':' :: FloatDisplay.display policy.backoffMultiplier))

def versionStream : Option String → List Char
  | none => []
  | some version => ":v:".toList ++ version.toList

mutual

/-- What `compute_definition_hash` feeds to the hasher. -/
def stream : SerializableContinuation → List Char
  | .task id timeoutMs retryPolicy version _ _ next =>
    "T:".toList ++ (id.toList ++ (timeoutStream timeoutMs ++ (retryStream retryPolicy
      ++ versionStream version)) ++ ';' :: streamNext next)
  | .fork id branches join =>
    "F:".toList ++ (id.toList ++ '[' :: (streamBranches branches ++ ']' :: streamJoin join))
  | .delay id durationMs next =>
    "D:".toList ++ (id.toList ++ ':' :: (digits durationMs ++ ';' :: streamNext next))
  | .awaitSignal id signalName timeoutMs next =>
    "S:".toList ++ (id.toList ++ ':' :: (signalName.toList ++ timeoutStream timeoutMs
      ++ ';' :: streamNext next))
  | .branch id branches default next =>
    "B:".toList ++ (id.toList ++ '{' :: ((sortByKey (streamRoutes branches)).flatMap
      (fun r => r.1.toList ++ ("=>".toList ++ (r.2 ++ ",".toList)))
      ++ '}' :: (streamDefault default ++ ';' :: streamNext next)))
  | .loop id body maxIterations onMax next =>
    "L:".toList ++ (id.toList ++ ':' :: (digits maxIterations ++ ':' :: (onMax.display
      ++ '{' :: (body.stream ++ '}' :: ';' :: streamNext next))))
  | .childWorkflow id child next =>
    "CW:".toList ++ (id.toList ++ '{' :: (child.stream ++ '}' :: ';' :: streamNext next))

def streamNext : Option SerializableContinuation → List Char
  | none => []
  | some next => next.stream

def streamJoin : Option SerializableContinuation → List Char
  | none => []
  | some join => "J:".toList ++ join.stream

def streamDefault : Option SerializableContinuation → List Char
  | none => []
  | some default => "_=>".toList ++ default.stream

def streamBranches : List SerializableContinuation → List Char
  | [] => []
  | c :: cs => (c.stream ++ [',']) ++ streamBranches cs

def streamRoutes : List (String × SerializableContinuation) → List (String × List Char)
  | [] => []
  | (key, c) :: rs => (key, c.stream) :: streamRoutes rs

end

attribute [grind =] stream streamNext streamJoin streamDefault streamBranches streamRoutes

/-- The bytes that are hashed. -/
def definitionBytes (c : SerializableContinuation) : ByteArray := (String.ofList c.stream).toUTF8

/-- `compute_definition_hash`. -/
def computeDefinitionHash [Sha256] (c : SerializableContinuation) : DefinitionHash :=
  ⟨Sha256.sha256 (String.ofList c.stream)⟩

end SerializableContinuation

end Sayiir
