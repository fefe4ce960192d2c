import Mathlib.Data.Int.DivMod
import Mathlib.Tactic.Ring

/-!
# The time of day

What `DateTime` computes of a time when it is changed.  Times are counted from 15 October
1582, and earlier ones are negative: `computeDaytime` takes the hour, the minute and so on
from quotients and remainders of `Timespan`, which are rounded towards zero.

The date comes from the same time by `computeGregorian`, in floating-point arithmetic.  It
has no part in the time of day, and is any function of the time here.

## Main definitions

* `DateTime`, `run`: a time in units of 100 nanoseconds, and the operations that change one.
* `sinceMidnight`: the time since midnight, taken apart.

## Main results

* `daytime_right_iff`: after every run the time of day is right exactly if the time is not before
  the epoch, or is midnight.
-/

namespace Poco.Daytime

/-! ### Microseconds, as in `Timespan` -/

abbrev MILLISECONDS : ℤ := 1000
abbrev SECONDS : ℤ := 1000 * MILLISECONDS
abbrev MINUTES : ℤ := 60 * SECONDS
abbrev HOURS : ℤ := 60 * MINUTES
abbrev DAYS : ℤ := 24 * HOURS

structure Date where
  year : ℤ
  month : ℤ
  day : ℤ

structure TimeOfDay where
  hour : ℤ
  minute : ℤ
  second : ℤ
  millisecond : ℤ
  microsecond : ℤ
  deriving DecidableEq, Repr

structure DateTime where
  utcTime : ℤ
  date : Date
  daytime : TimeOfDay

def computeDaytime (utcTime : ℤ) : TimeOfDay :=
  let span := utcTime.tdiv 10
  { hour := (span.tdiv HOURS).tmod 24
    minute := (span.tdiv MINUTES).tmod 60
    second := (span.tdiv SECONDS).tmod 60
    millisecond := (span.tdiv MILLISECONDS).tmod 1000
    microsecond := span.tmod 1000 }

/-- The days from 15 October 1582, by `toJulianDay` and `toUtcTime`.  Their floating-point
numbers are whole and half days, and so exact. -/
def daysSince (date : Date) : ℤ :=
  let month := if date.month < 3 then date.month + 12 else date.month
  let year := if date.month < 3 then date.year - 1 else date.year
  date.day + [-91, -60, -30, 0, 31, 61, 92, 122, 153, 184, 214, 245, 275, 306, 337].getD
    month.toNat 0 + 365 * year + year / 4 - year / 100 + year / 400 - 578042

def TimeOfDay.total (t : TimeOfDay) : ℤ :=
  t.hour * HOURS + t.minute * MINUTES + t.second * SECONDS + t.millisecond * MILLISECONDS +
    t.microsecond

def DateTime.ofFields (date : Date) (t : TimeOfDay) : DateTime where
  utcTime := 10 * (daysSince date * DAYS) + 10 * t.total
  date := date
  daytime := t

/-- The operators `+=` and `-=`, with the microseconds of the `Timespan`, and the
functions that use them. -/
inductive Operation where
  | plus (span : ℤ)
  | minus (span : ℤ)
  | makeUTC (tzd : ℤ)
  | makeLocal (tzd : ℤ)

section Runs

variable (computeGregorian : ℤ → Date)

/-- The members after `_utcTime` was assigned to, in 64 bits. -/
def DateTime.ofTime (time : ℤ) : DateTime :=
  let utcTime := time.bmod (2 ^ 64)
  ⟨utcTime, computeGregorian utcTime, computeDaytime utcTime⟩

def perform (dt : DateTime) : Operation → DateTime
  | .plus span => .ofTime computeGregorian (dt.utcTime + span * 10)
  | .minus span => .ofTime computeGregorian (dt.utcTime - span * 10)
  | .makeUTC tzd => .ofTime computeGregorian (dt.utcTime - tzd * SECONDS * 10)
  | .makeLocal tzd => .ofTime computeGregorian (dt.utcTime + tzd * SECONDS * 10)

def run (dt : DateTime) (ops : List Operation) : DateTime :=
  ops.foldl (perform computeGregorian) dt

def TimeOfDay.InRange (t : TimeOfDay) : Prop :=
  (0 ≤ t.hour ∧ t.hour ≤ 23) ∧ (0 ≤ t.minute ∧ t.minute ≤ 59) ∧ (0 ≤ t.second ∧ t.second ≤ 59) ∧
    (0 ≤ t.millisecond ∧ t.millisecond ≤ 999) ∧ 0 ≤ t.microsecond ∧ t.microsecond ≤ 999

def sinceMidnight (utcTime : ℤ) : TimeOfDay :=
  let t := utcTime % (10 * DAYS) / 10
  ⟨t / HOURS, t / MINUTES % 60, t / SECONDS % 60, t / MILLISECONDS % 1000, t % 1000⟩

theorem inRange_sinceMidnight (utcTime : ℤ) : (sinceMidnight utcTime).InRange := by
  simp only [TimeOfDay.InRange, sinceMidnight, DAYS, HOURS, MINUTES, SECONDS, MILLISECONDS]
  omega

theorem total_sinceMidnight (utcTime : ℤ) :
    (sinceMidnight utcTime).total = utcTime % (10 * DAYS) / 10 := by
  simp only [TimeOfDay.total, sinceMidnight, HOURS, MINUTES, SECONDS, MILLISECONDS]
  omega

theorem tmod_tdiv (ha : 0 ≤ a) (hd : 0 ≤ d) (m : ℤ) : (a.tdiv d).tmod m = a / d % m := by
  rw [Int.tdiv_eq_ediv_of_nonneg ha, Int.tmod_eq_emod_of_nonneg (Int.ediv_nonneg ha hd)]

theorem computeDaytime_of_nonneg (h : 0 ≤ utcTime) :
    computeDaytime utcTime = sinceMidnight utcTime := by
  have hspan : 0 ≤ utcTime / 10 := by omega
  simp (disch := decide) only [computeDaytime, sinceMidnight, Int.tdiv_eq_ediv_of_nonneg h,
    tmod_tdiv hspan, Int.tmod_eq_emod_of_nonneg hspan, TimeOfDay.mk.injEq, DAYS, HOURS, MINUTES,
    SECONDS, MILLISECONDS]
  omega

/-- Rounding towards zero, a time before the epoch has the fields of its negation, with the
other sign. -/
theorem computeDaytime_neg (utcTime : ℤ) :
    computeDaytime (-utcTime) =
      let t := computeDaytime utcTime
      ⟨-t.hour, -t.minute, -t.second, -t.millisecond, -t.microsecond⟩ := by
  simp only [computeDaytime, Int.neg_tdiv, Int.neg_tmod]

theorem computeDaytime_eq_iff (utcTime : ℤ) :
    computeDaytime utcTime = sinceMidnight utcTime ↔ 0 ≤ utcTime ∨ 10 * DAYS ∣ utcTime := by
  by_cases h : 0 ≤ utcTime
  · exact iff_of_true (computeDaytime_of_nonneg h) (.inl h)
  obtain ⟨n, rfl⟩ : ∃ n, utcTime = -n := ⟨-utcTime, by omega⟩
  rw [computeDaytime_neg, computeDaytime_of_nonneg (by omega)]
  simp only [h, false_or]
  constructor
  · intro heq
    -- the time since midnight and its negation are equal if they are zero
    have htot : -(sinceMidnight n).total = (sinceMidnight (-n)).total := by
      rw [← heq]
      simp only [TimeOfDay.total]
      ring
    simp only [total_sinceMidnight, DAYS, HOURS, MINUTES, SECONDS, MILLISECONDS] at htot ⊢
    omega
  · intro hdvd
    have hmod := Int.emod_eq_zero_of_dvd hdvd
    have hmod' := Int.emod_eq_zero_of_dvd (Int.dvd_neg.mp hdvd)
    simp only [sinceMidnight, hmod, hmod']
    rfl

theorem daytime_right_iff (dt : DateTime) (ops : List Operation) (op : Operation) :
    ((run computeGregorian dt (ops ++ [op])).daytime.InRange ∧
      (run computeGregorian dt (ops ++ [op])).daytime =
        sinceMidnight (run computeGregorian dt (ops ++ [op])).utcTime) ↔
    0 ≤ (run computeGregorian dt (ops ++ [op])).utcTime ∨
      10 * DAYS ∣ (run computeGregorian dt (ops ++ [op])).utcTime := by
  rw [run, List.foldl_append, List.foldl_cons, List.foldl_nil]
  generalize ops.foldl (perform computeGregorian) dt = dt'
  have hday : (perform computeGregorian dt' op).daytime =
      computeDaytime (perform computeGregorian dt' op).utcTime := by
    cases op <;> rfl
  rw [hday, ← computeDaytime_eq_iff, and_iff_right_iff_imp]
  intro heq
  rw [heq]
  exact inRange_sinceMidnight _

end Runs

/-- One microsecond before midnight of 15 October 1582, and noon of the first day of the year
1500 after nothing was added to it. -/
theorem daytime_negative :
    (run (fun _ => ⟨1582, 10, 14⟩) (.ofFields ⟨1582, 10, 15⟩ ⟨0, 0, 0, 0, 0⟩) [.minus 1]).daytime =
      ⟨0, 0, 0, 0, -1⟩ ∧
    (run (fun _ => ⟨1500, 1, 1⟩) (.ofFields ⟨1500, 1, 1⟩ ⟨12, 0, 0, 0, 0⟩) [.plus 0]).daytime =
      ⟨-12, 0, 0, 0, 0⟩ := by
  exact ⟨rfl, rfl⟩

end Poco.Daytime
