import Sayiir.Core.Snapshot

/-!
# Durations and the calendar

Seconds as the language bindings pass them, the durations of the standard
library, those of `chrono` and points in time each have a range of their own, and
the conversions between them end in a value, in an error or in a panic. The rest
of the development computes with times that have no end; here the ranges are
part of the types, and a panic is an outcome.

Floating point numbers are exact rationals next to the infinities and the value
that is no number. Multiplying them does not round.
-/

namespace Sayiir

/-- The message of a panic. -/
structure Panic where
  message : String
  deriving DecidableEq, Repr

/-- A computation that may panic. -/
abbrev Panicking (α : Type) := Except Panic α

def Panicking.panics {α : Type} : Panicking α → Bool
  | .error _ => true
  | .ok _ => false

/-! ## Floating point numbers -/

inductive Float64 where
  | finite (value : ℚ)
  | infinite (negative : Bool)
  | nan
  deriving DecidableEq

namespace Float64

def isFinite : Float64 → Bool
  | finite _ => true
  | _ => false

/-- `x < 0.0`. -/
def isNegative : Float64 → Bool
  | finite value => decide (value < 0)
  | infinite negative => negative
  | nan => false

/-- Multiply by a number that is not negative. -/
def scale (factor : Nat) : Float64 → Float64
  | finite value => finite (factor * value)
  | infinite negative => if factor = 0 then nan else infinite negative
  | nan => nan

/-- `powi`. -/
def powi (base : ℚ) (exponent : Int) : Float64 :=
  if base = 0 ∧ exponent < 0 then infinite false else finite (base ^ exponent)

/-- The part of a rational before the point. -/
def truncate (value : ℚ) : Int := if 0 ≤ value then ⌊value⌋ else ⌈value⌉

/-- `x as i64`. -/
def asI64 : Float64 → Int
  | finite value => max (-2 ^ 63) (min (2 ^ 63 - 1) (truncate value))
  | infinite negative => if negative then -2 ^ 63 else 2 ^ 63 - 1
  | nan => 0

end Float64

/-- The nearest integer, and the even one of two. -/
def roundHalfEven (value : ℚ) : Int :=
  let below := ⌊value⌋
  if value - below < 1 / 2 then below
  else if 1 / 2 < value - below then below + 1
  else if below % 2 = 0 then below else below + 1

namespace Duration

def negativeSecs : Panic := ⟨"cannot convert float seconds to Duration: value is negative"⟩

def unfitSecs : Panic :=
  ⟨"cannot convert float seconds to Duration: value is either too big or NaN"⟩

/-- `Duration::from_secs_f64`. -/
def fromSecsF64 : Float64 → Panicking Duration
  | .finite secs =>
    if secs < 0 then .error negativeSecs
    else if 2 ^ 64 ≤ secs then .error unfitSecs
    else .ok (roundHalfEven (secs * 1000000000)).toNat
  | .infinite true => .error negativeSecs
  | .infinite false | .nan => .error unfitSecs

end Duration

/-! ## The durations of `chrono` -/

/-- `TimeDelta`, in nanoseconds: at most `i64::MAX` milliseconds either way. -/
structure TimeDelta where
  nanos : Int
  le_max : nanos ≤ (2 ^ 63 - 1) * 1000000
  min_le : -((2 ^ 63 - 1) * 1000000) ≤ nanos
  deriving DecidableEq

namespace TimeDelta

/-- `TimeDelta::MAX`. -/
def max : TimeDelta := ⟨(2 ^ 63 - 1) * 1000000, by norm_num, by norm_num⟩

/-- The duration is in the range of `chrono`. -/
def Fits (duration : Duration) : Prop := (duration : Int) ≤ (2 ^ 63 - 1) * 1000000
  deriving Decidable

/-- `TimeDelta::from_std`. -/
def fromStd (duration : Duration) : Option TimeDelta :=
  if h : Fits duration then some ⟨duration, h, by omega⟩ else none

/-- `TimeDelta::milliseconds`. -/
def milliseconds (ms : Int) : Panicking TimeDelta :=
  if h : ms ≤ 2 ^ 63 - 1 ∧ -(2 ^ 63 - 1) ≤ ms then .ok ⟨ms * 1000000, by omega, by omega⟩
  else .error ⟨"TimeDelta::milliseconds out of bounds"⟩

end TimeDelta

/-! ## Points in time -/

namespace DateTime

/-- The last nanosecond of the year 262142, counted from the epoch. -/
def maxNanos : Int := 8210266876799999999999

/-- The first nanosecond of the year -262143. -/
def minNanos : Int := -8334601228800000000000

/-- There is a point in time that many nanoseconds after the epoch. -/
def InRange (nanos : Int) : Prop := minNanos ≤ nanos ∧ nanos ≤ maxNanos
  deriving Decidable

end DateTime

/-- `DateTime<Utc>`, in nanoseconds since the epoch. -/
structure DateTime where
  nanos : Int
  inRange : DateTime.InRange nanos
  deriving DecidableEq

/-- The operator `+`. -/
def DateTime.add (t : DateTime) (delta : TimeDelta) : Panicking DateTime :=
  if h : InRange (t.nanos + delta.nanos) then .ok ⟨t.nanos + delta.nanos, h⟩
  else .error ⟨"`DateTime + TimeDelta` overflowed"⟩

/-! ## Where the engine computes with them -/

/-- `compute_wake_at`. -/
def DateTime.computeWakeAt (duration : Duration) (now : DateTime) :
    Panicking (Except RuntimeError DateTime) :=
  match TimeDelta.fromStd duration with
  | some delta => .ok <$> now.add delta
  | none => .ok (.error (.workflow (.resumeError
      "Source duration value is out of range for the target type")))

/-- `compute_signal_timeout`. -/
def DateTime.computeSignalTimeout (timeout : Option Duration) (now : DateTime) :
    Panicking (Option DateTime) :=
  match timeout.bind TimeDelta.fromStd with
  | some delta => some <$> now.add delta
  | none => .ok none

/-- A deadline, and the timeout as an unsigned number of milliseconds. -/
structure Deadline where
  deadline : DateTime
  timeoutMs : Nat
  deriving DecidableEq

/-- `set_task_deadline`. -/
def Deadline.setTaskDeadline (timeout : Duration) (now : DateTime) : Panicking Deadline := do
  let deadline ← now.add ((TimeDelta.fromStd timeout).getD TimeDelta.max)
  pure ⟨deadline, Duration.asMillis timeout % 2 ^ 64⟩

/-- An unsigned word read as a signed one. -/
def asSigned (bits value : Nat) : Int :=
  if value % 2 ^ bits < 2 ^ (bits - 1) then value % 2 ^ bits else value % 2 ^ bits - 2 ^ bits

/-- `refresh_task_deadline`. -/
def Deadline.refreshTaskDeadline (d : Deadline) (now : DateTime) : Panicking Deadline := do
  let timeout ← TimeDelta.milliseconds (asSigned 64 d.timeoutMs)
  let deadline ← now.add timeout
  pure { d with deadline := deadline }

/-- The pause after the attempt before which there were `exponent` others, in
milliseconds. -/
def RetryPolicy.backoff (policy : RetryPolicy) (exponent : Nat) : Float64 :=
  (Float64.powi policy.backoffMultiplier (asSigned 32 exponent)).scale
    (Duration.asMillis policy.initialDelay)

/-- `record_retry`, with this many attempts recorded: their new number, and when the
next one is due. -/
def RetryPolicy.recordRetry (policy : RetryPolicy) (attempts : Nat) (now : DateTime) :
    Panicking (Nat × DateTime) :=
  if attempts + 1 < 2 ^ 32 then do
    let delay ← TimeDelta.milliseconds (policy.backoff attempts).asI64
    let nextRetryAt ← now.add delay
    pure (attempts + 1, nextRetryAt)
  else .error ⟨"attempt to add with overflow"⟩

/-- A task fails at one time after the other. Each failure is recorded, until the
retries are exhausted. -/
def RetryPolicy.recordFailures (policy : RetryPolicy) (attempts : Nat) :
    List DateTime → Panicking Nat
  | [] => .ok attempts
  | now :: failures =>
    if 0 < attempts ∧ policy.maxRetries ≤ attempts then .ok attempts
    else do
      let r ← policy.recordRetry attempts now
      policy.recordFailures r.1 failures

end Sayiir
