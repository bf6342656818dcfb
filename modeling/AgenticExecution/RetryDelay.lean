import AgenticExecution.Models
import Mathlib.Algebra.Order.Field.Basic
import Mathlib.Tactic.NormNum
import Mathlib.Tactic.Linarith

set_option autoImplicit false

/-! # The delay before a retry

`_backoff` computes the power of two as an exact integer, multiplies the base with it, caps the
product, and multiplies the jitter in last. When this stays within the cap: the first product must not
overflow, and a draw above 1 must not lift a delay that is at the cap or close to it. -/

namespace AgenticExecution

section Capped

variable {K : Type} [Field K] [LinearOrder K] [IsStrictOrderedRing K] {a c f : K}

theorem mul_le_self_iff (hc : 0 ≤ c) : c * f ≤ c ↔ f ≤ 1 ∨ c = 0 := by
  rcases hc.eq_or_lt with h_zero | h_pos
  · simp [← h_zero]
  · rw [mul_le_iff_le_one_right h_pos]
    simp [h_pos.ne']

/-- A value capped first and scaled afterwards stays below the cap when it does so without being
    capped, or when nothing is scaled up. -/
theorem min_mul_le_cap_iff (hc : 0 ≤ c) (hf : 0 ≤ f) : min a c * f ≤ c ↔ a * f ≤ c ∨ f ≤ 1 ∨ c = 0 := by
  rw [min_mul_of_nonneg a c hf, min_le_iff, mul_le_self_iff hc]

end Capped

variable {settings : Settings} {jitter : Jitter} {n : Nat}

/-- What `_backoff` multiplies the capped delay with. -/
def Jitter.scale (settings : Settings) (jitter : Jitter) : ℚ :=
  if settings.retryBackoffJitter then jitter.factor else 1

theorem Jitter.scale_nonneg (settings : Settings) (jitter : Jitter) : 0 ≤ jitter.scale settings := by
  unfold Jitter.scale
  split
  · exact le_trans (by norm_num) jitter.lower
  · exact zero_le_one

/-- The product that is capped for attempt `n + 1`. -/
def uncappedDelay (settings : Settings) (n : Nat) : ℚ := settings.retryBackoffBaseSeconds * 2 ^ n

theorem uncappedDelay_nonneg (hbase : 0 ≤ settings.retryBackoffBaseSeconds) :
    0 ≤ uncappedDelay settings n :=
  mul_nonneg hbase (pow_nonneg zero_le_two n)

/-- The delay of attempt `n + 1`: capped, then scaled. -/
def cappedDelay (settings : Settings) (n : Nat) (jitter : Jitter) : ℚ :=
  min (uncappedDelay settings n) settings.retryBackoffMaxSeconds * jitter.scale settings

theorem cappedDelay_nonneg (hbase : 0 ≤ settings.retryBackoffBaseSeconds)
    (hcap : 0 ≤ settings.retryBackoffMaxSeconds) : 0 ≤ cappedDelay settings n jitter :=
  mul_nonneg (le_min (uncappedDelay_nonneg hbase) hcap) (jitter.scale_nonneg settings)

/-- The power that the float base is multiplied with overflows first, whatever the cap. -/
theorem backoff_eq_none (h : 1024 ≤ n) : backoff settings (n + 1) jitter = none := if_pos h

theorem backoff_eq_some (hbase : 0 ≤ settings.retryBackoffBaseSeconds)
    (hcap : 0 ≤ settings.retryBackoffMaxSeconds) (jitter : Jitter) (h : n < 1024) :
    backoff settings (n + 1) jitter = some (cappedDelay settings n jitter) := by
  have h_scaled : (if settings.retryBackoffJitter then
      min (uncappedDelay settings n) settings.retryBackoffMaxSeconds * jitter.factor
      else min (uncappedDelay settings n) settings.retryBackoffMaxSeconds) =
        cappedDelay settings n jitter := by
    unfold cappedDelay Jitter.scale
    split
    · rfl
    · rw [mul_one]
  calc backoff settings (n + 1) jitter
      = some (max 0 (cappedDelay settings n jitter)) := by
        rw [← h_scaled]
        exact if_neg (not_le.mpr h)
    _ = some (cappedDelay settings n jitter) := by
        rw [max_eq_right (cappedDelay_nonneg hbase hcap)]

/-- The delay `_retry_or_fail` schedules a retry with is computed and lies within the cap. -/
def DelayWithinCap (settings : Settings) (attempt : Nat) (jitter : Jitter) : Prop :=
  ∃ delay, backoff settings attempt jitter = some delay ∧
    0 ≤ delay ∧ delay ≤ settings.retryBackoffMaxSeconds ∧
    ∀ now nextAt, nextAttemptAt settings attempt jitter now = some nextAt → nextAt = now + delay

theorem nextAttemptAt_eq {delay : ℚ} {attempt : Nat} {now nextAt : Time}
    (hdelay : backoff settings attempt jitter = some delay)
    (hnext : nextAttemptAt settings attempt jitter now = some nextAt) : nextAt = now + delay := by
  unfold nextAttemptAt at hnext
  rw [hdelay, Option.bind_some] at hnext
  split at hnext
  · exact (Option.some.inj hnext).symm
  · cases hnext

/-- The delay of attempt `n + 1` is computed and within the cap exactly when the power is a float and
    the draw scales nothing beyond the cap. -/
theorem delayWithinCap_iff (hbase : 0 ≤ settings.retryBackoffBaseSeconds)
    (hcap : 0 ≤ settings.retryBackoffMaxSeconds) (n : Nat) (jitter : Jitter) :
    DelayWithinCap settings (n + 1) jitter ↔
      n < 1024 ∧
        (uncappedDelay settings n * jitter.scale settings ≤ settings.retryBackoffMaxSeconds ∨
          jitter.scale settings ≤ 1 ∨ settings.retryBackoffMaxSeconds = 0) := by
  rw [← min_mul_le_cap_iff hcap (jitter.scale_nonneg settings)]
  constructor
  · rintro ⟨delay, h_some, -, h_le, -⟩
    have h_power : n < 1024 := by
      by_contra h
      rw [backoff_eq_none (not_lt.mp h)] at h_some
      cases h_some
    refine ⟨h_power, ?_⟩
    rw [backoff_eq_some hbase hcap jitter h_power] at h_some
    exact (Option.some.inj h_some).trans_le h_le
  · rintro ⟨h_power, h_le⟩
    have h_some := backoff_eq_some hbase hcap jitter h_power
    exact ⟨_, h_some, cappedDelay_nonneg hbase hcap, h_le, fun now nextAt => nextAttemptAt_eq h_some⟩

/-- The largest draw. -/
def topDraw : Jitter := ⟨6 / 5, by norm_num, le_rfl⟩

/-- The first retry under the default settings. -/
theorem delayWithinCap_first : DelayWithinCap {} 1 topDraw :=
  (delayWithinCap_iff (by norm_num) (by norm_num) 0 topDraw).2
    ⟨by norm_num, .inl (by norm_num [uncappedDelay, Jitter.scale, topDraw])⟩

/-- Attempt 6 waits 36 seconds instead of at most 30, and attempt 1025 raises. -/
theorem delay_beyond_cap :
    (backoff { taskMaxRetries := 6 } 6 topDraw = some 36 ∧
      ¬ DelayWithinCap { taskMaxRetries := 6 } 6 topDraw) ∧
    (backoff { taskMaxRetries := 1025 } 1025 topDraw = none ∧
      ¬ DelayWithinCap { taskMaxRetries := 1025 } 1025 topDraw) := by
  have h_long : backoff { taskMaxRetries := 6 } 6 topDraw = some 36 := by
    rw [backoff_eq_some (by norm_num) (by norm_num) topDraw (by norm_num)]
    norm_num [cappedDelay, uncappedDelay, Jitter.scale, topDraw]
  have h_raises : backoff { taskMaxRetries := 1025 } 1025 topDraw = none := backoff_eq_none le_rfl
  refine ⟨⟨h_long, ?_⟩, ⟨h_raises, ?_⟩⟩
  · rintro ⟨delay, h_some, -, h_le, -⟩
    have h_36 : (36 : ℚ) = delay := Option.some.inj (h_long.symm.trans h_some)
    rw [← h_36] at h_le
    exact absurd h_le (by norm_num)
  · rintro ⟨delay, h_some, -⟩
    cases h_raises.symm.trans h_some

end AgenticExecution
