import PgRelay.Recording
import PgRelay.Validation
import Mathlib.Algebra.Order.Floor.Ring
import Mathlib.Data.Int.ConditionallyCompleteOrder
import Mathlib.Data.Rat.Floor
import Mathlib.Tactic.Linarith
import Mathlib.Tactic.GCongr

/-!
# Retry backoff

`calculate_retry_delay_seconds` doubles the delay with every attempt up to a cap, adds a random jitter
that is proportional to it, truncates the sum and keeps it between one second and the cap. The jitter
ratio and the draw are rationals here. The draw is a parameter; `random.uniform(-jitter, jitter)` is some
number between its arguments.
-/

namespace PgRelay

/-- The settings that the backoff reads. -/
structure RetrySettings where
  retryBaseSeconds : BoundedInt 1 3600
  retryMaxSeconds : BoundedInt 1 86400
  retryJitterRatio : {q : ℚ // 0 ≤ q ∧ q ≤ 1}

/-- `max(attempt_count - 1, 0)`. -/
def retryExponent (attemptCount : ℤ) : ℕ := (max (attemptCount - 1) 0).toNat

/-- `base_delay`. -/
def baseDelay (attemptCount : ℤ) (settings : RetrySettings) : ℤ :=
  min (settings.retryBaseSeconds.val * 2 ^ retryExponent attemptCount) settings.retryMaxSeconds.val

/-- `jitter`. -/
def retryJitter (attemptCount : ℤ) (settings : RetrySettings) : ℚ :=
  baseDelay attemptCount settings * settings.retryJitterRatio.val

/-- `int` of a number: truncation toward zero. -/
def truncate (q : ℚ) : ℤ := if 0 ≤ q then ⌊q⌋ else ⌈q⌉

/-- `calculate_retry_delay_seconds`, with the number that `random.uniform` draws. -/
def calculateRetryDelaySeconds (attemptCount : ℤ) (settings : RetrySettings) (draw : ℚ) : ℤ :=
  max 1 (min settings.retryMaxSeconds.val (truncate (baseDelay attemptCount settings + draw)))

/-! ## Truncation -/

/-- Truncation keeps integers. -/
@[simp] theorem truncate_intCast (n : ℤ) : truncate n = n := by
  simp [truncate]

/-- Truncation is monotone. -/
theorem truncate_mono : Monotone truncate := by
  intro p q hpq
  unfold truncate
  split_ifs with hp hq hq
  · exact Int.floor_mono hpq
  · exact absurd (hp.trans hpq) hq
  · -- A negative number is truncated to at most zero, a non-negative one to at least zero.
    calc ⌈p⌉ ≤ 0 := Int.ceil_le.mpr (by simpa using (not_le.mp hp).le)
      _ ≤ ⌊q⌋ := Int.floor_nonneg.mpr hq
  · exact Int.ceil_mono hpq

/-! ## The delay -/

/-- The exponent grows with the attempts up to its bound. -/
theorem retryExponent_mono : Monotone retryExponent := fun _ _ h =>
  Int.toNat_le_toNat (max_le_max_right 0 (sub_le_sub_right h 1))

/-- The delay without the jitter grows with the attempts. -/
theorem baseDelay_mono (settings : RetrySettings) : Monotone fun n => baseDelay n settings := by
  intro n m h
  apply min_le_min_right
  have hbase : 0 ≤ settings.retryBaseSeconds.val := Int.le_of_lt settings.retryBaseSeconds.property.1
  exact mul_le_mul_of_nonneg_left (pow_le_pow_right₀ (by decide) (retryExponent_mono h)) hbase

/-- Also without the jitter, the delay lies between one second and the cap. -/
theorem one_le_baseDelay (attemptCount : ℤ) (settings : RetrySettings) : 1 ≤ baseDelay attemptCount settings := by
  refine le_min ?_ settings.retryMaxSeconds.property.1
  have hbase := settings.retryBaseSeconds.property.1
  have hpow : (1 : ℤ) ≤ 2 ^ retryExponent attemptCount := one_le_pow₀ (by decide)
  exact one_le_mul_of_one_le_of_one_le hbase hpow

/-- The delay without jitter is at most `retry_max_seconds`. -/
theorem baseDelay_le (attemptCount : ℤ) (settings : RetrySettings) :
    baseDelay attemptCount settings ≤ settings.retryMaxSeconds.val := min_le_right _ _

variable (attemptCount : ℤ) (settings : RetrySettings) (draw : ℚ)

/-- A retry waits for at least a second. -/
theorem one_le_calculateRetryDelaySeconds : 1 ≤ calculateRetryDelaySeconds attemptCount settings draw :=
  le_max_left _ _

/-- A retry waits for at most `retry_max_seconds`. -/
theorem calculateRetryDelaySeconds_le :
    calculateRetryDelaySeconds attemptCount settings draw ≤ settings.retryMaxSeconds.val :=
  max_le settings.retryMaxSeconds.property.1 (min_le_left _ _)

/-- A draw that is a fixed part of the jitter scales the delay by a factor that is not negative. -/
theorem calculateRetryDelaySeconds_mono {part : ℚ} (hpart : |part| ≤ 1) :
    Monotone fun n => calculateRetryDelaySeconds n settings (part * retryJitter n settings) := by
  intro n m h
  obtain ⟨hratio, hratio_le⟩ := settings.retryJitterRatio.property
  have hfactor : 0 ≤ 1 + part * settings.retryJitterRatio.val := by
    have hle : |part * settings.retryJitterRatio.val| ≤ 1 := by
      rw [abs_mul, abs_of_nonneg hratio]
      exact mul_le_one₀ hpart hratio hratio_le
    linarith only [(abs_le.mp hle).1]
  have hdelayed (k : ℤ) : (baseDelay k settings : ℚ) + part * retryJitter k settings =
      baseDelay k settings * (1 + part * settings.retryJitterRatio.val) := by
    rw [retryJitter]
    ring
  refine max_le_max_left _ (min_le_min_left _ (truncate_mono ?_))
  rw [hdelayed n, hdelayed m]
  exact mul_le_mul_of_nonneg_right (Int.cast_le.mpr (baseDelay_mono settings h)) hfactor

/-- Without jitter there is nothing to truncate. -/
theorem calculateRetryDelaySeconds_of_retryJitter_eq_zero (hjitter : retryJitter attemptCount settings = 0)
    (hdraw : |draw| ≤ retryJitter attemptCount settings) :
    calculateRetryDelaySeconds attemptCount settings draw = baseDelay attemptCount settings := by
  obtain rfl : draw = 0 := abs_nonpos_iff.mp (hjitter ▸ hdraw)
  rw [calculateRetryDelaySeconds, add_zero, truncate_intCast, min_eq_right (baseDelay_le attemptCount settings),
    max_eq_right (one_le_baseDelay attemptCount settings)]

/-- More seconds are more microseconds. -/
theorem seconds_mono : Monotone seconds := fun _ _ h => Int.mul_le_mul_of_nonneg_right h (by decide)

/-- A job that is retried becomes available again between one second and the cap after its failure. -/
theorem availableAt_of_retried {settings : RetrySettings} {draw : ℚ} {result : ExecutorResult} {job : JobRow}
    {args : FailArgs} (hargs : recordOp (calculateRetryDelaySeconds job.attemptCount settings draw) result =
      some (.fail args)) (hretry : shouldRetry job args = true)
    (now : Timestamp) (worker : WorkerId) (entry : JobEntry) :
    now + seconds 1 ≤ (failJob now job worker args entry).row.availableAt ∧
      (failJob now job worker args entry).row.availableAt ≤ now + seconds settings.retryMaxSeconds.val := by
  have hdelay : args.retryDelaySeconds = calculateRetryDelaySeconds job.attemptCount settings draw := by
    unfold recordOp at hargs
    split_ifs at hargs
    · obtain ⟨_, -, hargs⟩ := Option.bind_eq_some_iff.mp hargs
      cases hargs
    · obtain ⟨_, -, hargs⟩ := Option.bind_eq_some_iff.mp hargs
      obtain ⟨_, -, hargs⟩ := Option.bind_eq_some_iff.mp hargs
      obtain ⟨_, -, hargs⟩ := Option.bind_eq_some_iff.mp hargs
      cases hargs
      rfl
  have havailable : (failJob now job worker args entry).row.availableAt =
      now + seconds (calculateRetryDelaySeconds job.attemptCount settings draw) := by
    simp [failJob, failUpdate, hretry, hdelay]
  have hlow := one_le_calculateRetryDelaySeconds job.attemptCount settings draw
  have hhigh := calculateRetryDelaySeconds_le job.attemptCount settings draw
  rw [havailable]
  exact ⟨Int.add_le_add_left (seconds_mono hlow) now, Int.add_le_add_left (seconds_mono hhigh) now⟩

/-- For every count of attempts and all settings, the delay lies between one second and the cap whatever
is drawn, does not decrease with the attempts for a fixed part of the jitter, and without jitter is the
capped power of two. -/
theorem retryDelay_bounds_mono_exact (settings : RetrySettings) :
    (∀ attemptCount draw, 1 ≤ calculateRetryDelaySeconds attemptCount settings draw ∧
      calculateRetryDelaySeconds attemptCount settings draw ≤ settings.retryMaxSeconds.val) ∧
    (∀ part : ℚ, |part| ≤ 1 → Monotone fun attemptCount =>
      calculateRetryDelaySeconds attemptCount settings (part * retryJitter attemptCount settings)) ∧
    ∀ attemptCount draw, retryJitter attemptCount settings = 0 → |draw| ≤ retryJitter attemptCount settings →
      calculateRetryDelaySeconds attemptCount settings draw =
        min (settings.retryBaseSeconds.val * 2 ^ (max (attemptCount - 1) 0).toNat) settings.retryMaxSeconds.val :=
  ⟨fun attemptCount draw => ⟨one_le_calculateRetryDelaySeconds attemptCount settings draw,
      calculateRetryDelaySeconds_le attemptCount settings draw⟩,
    fun _ hpart => calculateRetryDelaySeconds_mono settings hpart,
    fun attemptCount draw => calculateRetryDelaySeconds_of_retryJitter_eq_zero attemptCount settings draw⟩

/-- The defaults of the settings. -/
def RetrySettings.default : RetrySettings where
  retryBaseSeconds := ⟨2, by decide⟩
  retryMaxSeconds := ⟨900, by decide⟩
  retryJitterRatio := ⟨1 / 5, by norm_num⟩

/-- The defaults without jitter. -/
def RetrySettings.noJitter : RetrySettings :=
  { RetrySettings.default with retryJitterRatio := ⟨0, by norm_num⟩ }

/-- The second and the third attempt with the least jitter, and the third one without jitter. -/
theorem retryDelay_bounds_mono_exact_default :
    calculateRetryDelaySeconds 2 .default (-1 * retryJitter 2 .default) ≤
        calculateRetryDelaySeconds 3 .default (-1 * retryJitter 3 .default) ∧
      calculateRetryDelaySeconds 3 .noJitter 0 = 8 := by
  have hpart : |(-1 : ℚ)| ≤ 1 := by rw [abs_neg, abs_one]
  have hjitter : retryJitter 3 .noJitter = 0 := mul_zero _
  obtain ⟨-, hmono, -⟩ := retryDelay_bounds_mono_exact .default
  obtain ⟨-, -, hexact⟩ := retryDelay_bounds_mono_exact .noJitter
  exact ⟨hmono (-1) hpart (by decide), hexact 3 0 hjitter (by rw [hjitter, abs_zero])⟩

end PgRelay
