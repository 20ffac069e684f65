import Sayiir.Core.Snapshot
import Mathlib.Algebra.Order.Floor.Semiring
import Mathlib.Data.Rat.Floor
import Mathlib.Tactic.Linarith

/-!
# The delay before a retry

A retry policy speaks of one delay: the initial one, multiplied after each failure,
and never more than the cap. Two places compute it. The in-process executors hand
the policy to the retry library; the checkpointing executors and the workers call
`record_retry`, which counts in whole milliseconds and does not look at the cap.
-/

namespace Sayiir

open WorkflowSnapshot

/-- A value that must not exceed a bound, if there is one. -/
def cappedAt (cap : Option Duration) (x : ℚ) : ℚ :=
  match cap with
  | none => x
  | some bound => min x bound

/-- `backon::ExponentialBuilder`, as far as it is configured here. -/
structure ExponentialBuilder where
  minDelay : Duration
  factor : ℚ
  maxTimes : Nat
  maxDelay : Option Duration

namespace ExponentialBuilder

/-- The settings of the library: from one second to one minute, doubling, three times. -/
def default : ExponentialBuilder := ⟨1000000000, 2, 3, some 60000000000⟩

/-- The delay before retry number `j + 1`. -/
def delay (builder : ExponentialBuilder) (j : Nat) : ℚ :=
  cappedAt builder.maxDelay (builder.minDelay * builder.factor ^ j)

end ExponentialBuilder

def policyToBackoff : Option RetryPolicy → ExponentialBuilder
  | some rp => { ExponentialBuilder.default with
      minDelay := rp.initialDelay
      factor := rp.backoffMultiplier
      maxTimes := rp.maxRetries
      maxDelay := rp.maxDelay }
  | none => { ExponentialBuilder.default with maxTimes := 0 }

namespace RetryPolicy

/-- The delay after the `k`-th failure without a cap. -/
def uncapped (policy : RetryPolicy) (k : Nat) : ℚ :=
  policy.initialDelay * policy.backoffMultiplier ^ (k - 1)

/-- The delay the policy asks for after the `k`-th failure. -/
def delayAfter (policy : RetryPolicy) (k : Nat) : ℚ := cappedAt policy.maxDelay (policy.uncapped k)

/-- The cap, if the `k`-th delay exceeds it. -/
def exceeded (policy : RetryPolicy) (k : Nat) : Option Duration :=
  policy.maxDelay.filter fun cap => decide ((cap : ℚ) < policy.uncapped k)

/-- The `k`-th delay in milliseconds, of an initial delay cut to milliseconds. -/
def millis (policy : RetryPolicy) (k : Nat) : ℚ :=
  Duration.asMillis policy.initialDelay * policy.backoffMultiplier ^ (k - 1)

/-- The `k`-th delay is a whole number of milliseconds, as is the initial one, and
stays within the cap; or the cap is what is left of it when it is cut to milliseconds. -/
def Fits (policy : RetryPolicy) (k : Nat) : Prop :=
  match policy.exceeded k with
  | none => 1000000 ∣ policy.initialDelay ∧ ∃ n : ℕ, policy.millis k = n
  | some cap => ∃ n : ℕ, cap = Duration.fromMillis n ∧ n ≤ policy.millis k ∧ policy.millis k < n + 1

variable {policy : RetryPolicy} {k : Nat}

theorem delayAfter_eq :
    policy.delayAfter k = match policy.exceeded k with
      | none => policy.uncapped k
      | some cap => (cap : ℚ) := by
  unfold delayAfter cappedAt exceeded
  cases policy.maxDelay with
  | none => rfl
  | some cap =>
    by_cases h : (cap : ℚ) < policy.uncapped k
    · simp [Option.filter, h, h.le]
    · simp [Option.filter, h, not_lt.mp h]

theorem delayAfter_le {cap : Duration} (h : policy.maxDelay = some cap) :
    policy.delayAfter k ≤ cap := by
  unfold delayAfter cappedAt
  rw [h]
  exact min_le_right ..

variable (hm : 1 ≤ policy.backoffMultiplier)
include hm

theorem uncapped_le_succ : policy.uncapped k ≤ policy.uncapped (k + 1) := by
  unfold uncapped
  have hpow : policy.backoffMultiplier ^ (k - 1) ≤ policy.backoffMultiplier ^ (k + 1 - 1) :=
    pow_le_pow_right₀ hm (by omega)
  gcongr

theorem delayAfter_le_succ : policy.delayAfter k ≤ policy.delayAfter (k + 1) := by
  unfold delayAfter cappedAt
  split
  · exact uncapped_le_succ hm
  · exact min_le_min_right _ (uncapped_le_succ hm)

theorem millis_nonneg : 0 ≤ policy.millis k := by
  have hq : 0 ≤ policy.backoffMultiplier ^ (k - 1) := pow_nonneg (le_trans zero_le_one hm) _
  exact mul_nonneg (Nat.cast_nonneg _) hq

/-- The recorded delay is a number of milliseconds exactly if the delay lies in that
millisecond. -/
theorem retryDelay_eq_iff (n : ℕ) :
    retryDelay policy k = Duration.fromMillis n
      ↔ n ≤ policy.millis k ∧ policy.millis k < n + 1 := by
  rw [← Nat.floor_eq_iff (millis_nonneg hm), ← Int.floor_toNat]
  unfold retryDelay Duration.fromMillis millis
  exact Nat.mul_left_inj (by norm_num)

/-- Cutting the initial delay, and the product, to milliseconds loses nothing exactly if
both are whole numbers of milliseconds. -/
theorem retryDelay_eq_uncapped_iff :
    (retryDelay policy k : ℚ) = policy.uncapped k
      ↔ 1000000 ∣ policy.initialDelay ∧ ∃ n : ℕ, policy.millis k = n := by
  have hq : 0 < policy.backoffMultiplier ^ (k - 1) := pow_pos (lt_of_lt_of_le zero_lt_one hm) _
  obtain ⟨n, hn⟩ : ∃ n, retryDelay policy k = Duration.fromMillis n := ⟨_, rfl⟩
  obtain ⟨hle, hlt⟩ := (retryDelay_eq_iff hm n).mp hn
  have hcut : (Duration.asMillis policy.initialDelay : ℚ) * 1000000 ≤ policy.initialDelay := by
    exact_mod_cast Nat.div_mul_le_self policy.initialDelay 1000000
  rw [hn]
  unfold Duration.fromMillis uncapped
  push_cast
  constructor
  · intro heq
    -- both cuts only make the delay smaller, so neither may change it
    have hmillis : policy.millis k * 1000000
        ≤ policy.initialDelay * policy.backoffMultiplier ^ (k - 1) := by
      unfold millis
      nlinarith
    have hwhole : policy.millis k = n := by linarith
    have hinit : (Duration.asMillis policy.initialDelay : ℚ) * 1000000 = policy.initialDelay := by
      apply mul_right_cancel₀ hq.ne'
      rw [← heq, ← hwhole]
      unfold millis
      ring
    refine ⟨⟨Duration.asMillis policy.initialDelay, ?_⟩, n, hwhole⟩
    rw [mul_comm]
    exact_mod_cast hinit.symm
  · rintro ⟨⟨i, hi⟩, n', hn'⟩
    have hsame : n' = n := by
      rw [hn'] at hle hlt
      have hle : n ≤ n' := by exact_mod_cast hle
      have hlt : n' < n + 1 := by exact_mod_cast hlt
      omega
    have hasMillis : Duration.asMillis policy.initialDelay = i := by
      unfold Duration.asMillis
      omega
    rw [← hsame, ← hn', hi]
    unfold millis
    rw [hasMillis]
    push_cast
    ring

/-- **The recorded delay is that of the policy exactly if it fits.** -/
theorem retryDelay_eq_delayAfter_iff :
    (retryDelay policy k : ℚ) = policy.delayAfter k ↔ policy.Fits k := by
  rw [delayAfter_eq]
  unfold Fits
  cases policy.exceeded k with
  | none => exact retryDelay_eq_uncapped_iff hm
  | some cap =>
    dsimp only
    rw [Nat.cast_inj]
    constructor
    · intro h
      exact ⟨_, h.symm, (retryDelay_eq_iff hm _).mp rfl⟩
    · rintro ⟨n, rfl, hn⟩
      exact (retryDelay_eq_iff hm n).mpr hn

end RetryPolicy

/-- Five retries, the first after one second, later ones after twice as long, but never
more than a second and a half. -/
def cappedPolicy : RetryPolicy := ⟨5, 1000000000, 2, some 1500000000⟩

end Sayiir
