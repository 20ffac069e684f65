import Mathlib.Data.Nat.Notation

/-!
# Identifiers and errors

A `TaskId` is the SHA-256 digest of a node's name. The hash itself is a
parameter of the development: a class with one function, so that nothing can be
assumed about it except what a theorem asks for (no collisions among the names
of one workflow).

The error types follow `sayiir-core/src/error.rs`, `codec.rs`, `backend.rs` and
`sayiir-runtime/src/error.rs`, restricted to the variants that the executors, the
pooled workers and the two backends produce.
-/

namespace Sayiir

/-- Byte strings: task inputs, outputs and signal payloads. -/
abbrev Bytes := List UInt8

/-- Nanoseconds since the epoch. -/
abbrev Time := Nat

/-- A duration in nanoseconds. -/
abbrev Duration := Nat

/-- `Duration::from_millis`. -/
def Duration.fromMillis (ms : Nat) : Duration := ms * 1000000

/-- `Duration::as_millis`: whole milliseconds, the rest is dropped. -/
def Duration.asMillis (d : Duration) : Nat := d / 1000000

/-- A 32 byte digest. `Default` is the all-zero one. -/
structure TaskId where
  digest : BitVec 256
  deriving DecidableEq, Repr

instance : Inhabited TaskId := ⟨⟨0⟩⟩

/-- The hash of a workflow definition, also 32 bytes. -/
structure DefinitionHash where
  digest : BitVec 256
  deriving DecidableEq, Repr

/-- SHA-256 of the UTF-8 bytes of a string. -/
class Sha256 where
  sha256 : String → BitVec 256

/-- A stand-in hash to evaluate the model with: the name itself, read as a number.
It has no collisions among names of up to 32 ASCII characters. -/
@[reducible] def Sha256.packed : Sha256 :=
  ⟨fun name => BitVec.ofNat 256 (name.toList.foldl (fun acc c => acc * 256 + c.toNat) 0)⟩

/-- `TaskId::from(&str)`. -/
def TaskId.sha256 [Sha256] (name : String) : TaskId := ⟨Sha256.sha256 name⟩

/-- `TaskId::to_hex`. -/
def TaskId.toHex (taskId : TaskId) : String := taskId.digest.toHex

mutual

/-- `CodecError`. -/
inductive CodecError where
  | decodeFailed (taskId : TaskId) (expectedType : String) (source : BoxError)
  deriving DecidableEq, Repr

/-- The boxed errors of user callbacks and codecs, as far as the runtime can
tell them apart: it downcasts to `CodecError` and treats the rest as opaque. -/
inductive BoxError where
  | codec (e : CodecError)
  | other (message : String)
  deriving DecidableEq, Repr

end

/-- `WorkflowError`. -/
inductive WorkflowError where
  | taskNotFound (id : String)
  | taskNotImplemented (id : String)
  | definitionMismatch (expected found : DefinitionHash)
  | cancelled (reason cancelledBy : Option String)
  | paused (reason pausedBy : Option String)
  | emptyFork
  | resumeError (message : String)
  | branchKeyNotFound (branchId key : String)
  | waiting (wakeAt : Time)
  | taskTimedOut (taskId : TaskId) (timeout : Duration)
  | awaitingSignal (signalId : TaskId) (signalName : String) (wakeAt : Option Time)
  | maxIterationsExceeded (loopId : TaskId) (maxIterations : Nat)
  deriving DecidableEq, Repr

/-- `BackendError`. A missing claim is reported as `NotFound` of the instance and
the task together. -/
inductive BackendError where
  | notFound (instanceId : String)
  | claimNotFound (instanceId : String) (taskId : TaskId)
  | claimLost (owner : String)
  | backend (message : String)
  | cannotCancel (state : String)
  | cannotPause (state : String)
  deriving DecidableEq, Repr

/-- `RuntimeError`. -/
inductive RuntimeError where
  | workflow (e : WorkflowError)
  | backend (e : BackendError)
  | codec (e : CodecError)
  | task (e : BoxError)
  deriving DecidableEq, Repr

/-- `impl From<BoxError> for RuntimeError`. -/
def RuntimeError.ofBoxError : BoxError → RuntimeError
  | .codec e => .codec e
  | .other m => .task (.other m)

theorem Except.bind_eq_ok_iff {ε α β : Type} {x : Except ε α} {f : α → Except ε β} {b : β} :
    (x >>= f) = .ok b ↔ ∃ a, x = .ok a ∧ f a = .ok b := by
  cases x <;> simp [Bind.bind, Except.bind]

end Sayiir
