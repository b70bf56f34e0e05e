import AtmKoala.Lib.Calendar

/-!
Civil time and seconds since 1970: `rtc.h`, `atm_time.c` and the copies of both conversions in
`tzif.c`.

* `rtcUnixSeconds` is the clock of `atm_time.c`, `civilSeconds` the one of `tzif.c`, which does
  not count the day of the month (`civilSeconds_eq`).
* `rtcUnixSeconds_secondsToCivil` and `secondsToCivil_rtcUnixSeconds`: the first clock and the
  way back are inverse to one another.

Fields are integers: the numbers here stay far below the range of `int64_t`.
-/

namespace AtmKoala.Time

open Lib

/-- `rtc_datetime_t`. -/
structure Datetime where
  year : Int
  month : Int
  day : Int
  hour : Int
  minute : Int
  second : Int
deriving DecidableEq

/-! ### The calendar -/

/-- `leap`. -/
def leap (y : Int) : Prop := y % 4 = 0 ∧ y % 100 ≠ 0 ∨ y % 400 = 0

instance (y : Int) : Decidable (leap y) := inferInstanceAs (Decidable (_ ∨ _))

def monthDays : List Int := [31, 28, 31, 30, 31, 30, 31, 31, 30, 31, 30, 31]

/-- `mdays`. -/
def mdays (y m : Int) : Int :=
  if 1 ≤ m ∧ m ≤ 12 then
    monthDays.getD (m - 1).toNat 0 + if m = 2 ∧ leap y then 1 else 0
  else 0

def yearDays (y : Int) : Int := if leap y then 366 else 365

/-- `valid`. -/
structure Valid (t : Datetime) : Prop where
  year : 1970 ≤ t.year ∧ t.year ≤ 2099
  month : 1 ≤ t.month ∧ t.month ≤ 12
  day : 1 ≤ t.day ∧ t.day ≤ mdays t.year t.month
  hour : 0 ≤ t.hour ∧ t.hour < 24
  minute : 0 ≤ t.minute ∧ t.minute < 60
  second : 0 ≤ t.second ∧ t.second < 60

theorem valid_iff (t : Datetime) : Valid t ↔
    (1970 ≤ t.year ∧ t.year ≤ 2099) ∧ (1 ≤ t.month ∧ t.month ≤ 12) ∧
    (1 ≤ t.day ∧ t.day ≤ mdays t.year t.month) ∧ (0 ≤ t.hour ∧ t.hour < 24) ∧
    (0 ≤ t.minute ∧ t.minute < 60) ∧ (0 ≤ t.second ∧ t.second < 60) :=
  ⟨fun ⟨a, b, c, d, e, f⟩ => ⟨a, b, c, d, e, f⟩, fun ⟨a, b, c, d, e, f⟩ => ⟨a, b, c, d, e, f⟩⟩

instance (t : Datetime) : Decidable (Valid t) := decidable_of_iff _ (valid_iff t).symm

/-- The days of the years from 1970 on, up to the one before `year`. -/
def daysOfYears (year : Int) : Int := total yearDays 1970 (year - 1970).toNat

/-- The days of the months of `year` before `month`. -/
def daysOfMonths (year month : Int) : Int := total (mdays year) 1 (month - 1).toNat

/-! ### The clocks -/

/-- `rtc_unix_seconds`. -/
def rtcUnixSeconds (t : Datetime) : Int :=
  let days := daysOfYears t.year + daysOfMonths t.year t.month + (t.day - 1)
  days * 86400 + t.hour * 3600 + t.minute * 60 + t.second

/-- `civil_seconds` of `tzif.c`. -/
def civilSeconds (t : Datetime) : Int :=
  let days := daysOfYears t.year + daysOfMonths t.year t.month
  days * 86400 + t.hour * 3600 + t.minute * 60 + t.second

/-- `seconds_to_civil` of `tzif.c`. Its loops end with the year 2100 and with December. -/
def secondsToCivil (seconds : Int) : Datetime :=
  let days := seconds.tdiv 86400
  let rem := seconds.tmod 86400
  let (days, rem) := if rem < 0 then (days - 1, rem + 86400) else (days, rem)
  let (days, year) := advance yearDays 2100 130 days 1970
  let (days, month) := advance (mdays year) 12 11 days 1
  { year, month, day := days + 1,
    hour := rem.tdiv 3600, minute := (rem.tdiv 60).tmod 60, second := rem.tmod 60 }

/-- **The clock of `tzif.c` stands still within a month**, as far as the date goes. -/
theorem civilSeconds_eq (t : Datetime) :
    civilSeconds t = rtcUnixSeconds t - (t.day - 1) * 86400 := by
  unfold civilSeconds rtcUnixSeconds
  dsimp only
  omega

/-! ### Days -/

theorem yearDays_nonneg (y : Int) : 0 ≤ yearDays y := by
  unfold yearDays
  split <;> omega

theorem mdays_nonneg (y m : Int) : 0 ≤ mdays y m := by
  unfold mdays
  split
  · rename_i inside
    have month : m = 1 ∨ m = 2 ∨ m = 3 ∨ m = 4 ∨ m = 5 ∨ m = 6 ∨ m = 7 ∨ m = 8 ∨ m = 9 ∨
        m = 10 ∨ m = 11 ∨ m = 12 := by omega
    rcases month with rfl | rfl | rfl | rfl | rfl | rfl | rfl | rfl | rfl | rfl | rfl | rfl <;>
      split <;> decide
  · exact le_refl 0

/-- The days of a month come before those of the next year. -/
theorem daysOfMonths_add_mdays {y m : Int} (month : 1 ≤ m ∧ m ≤ 12) :
    daysOfMonths y m + mdays y m ≤ yearDays y := by
  have cases : m = 1 ∨ m = 2 ∨ m = 3 ∨ m = 4 ∨ m = 5 ∨ m = 6 ∨ m = 7 ∨ m = 8 ∨ m = 9 ∨
      m = 10 ∨ m = 11 ∨ m = 12 := by omega
  by_cases leaps : leap y
  all_goals
    rcases cases with rfl | rfl | rfl | rfl | rfl | rfl | rfl | rfl | rfl | rfl | rfl | rfl <;>
      simp [daysOfMonths, total, mdays, monthDays, yearDays, leaps]

/-- The day of the year, and the year it is in. -/
theorem dayOfYear {t : Datetime} (valid : Valid t) :
    0 ≤ daysOfMonths t.year t.month + (t.day - 1) ∧
      daysOfMonths t.year t.month + (t.day - 1) < yearDays t.year := by
  have months : 0 ≤ daysOfMonths t.year t.month := total_nonneg (mdays_nonneg t.year) _ _
  have year := daysOfMonths_add_mdays (y := t.year) valid.month
  have day := valid.day
  omega

/-! ### There and back -/

/-- The days and the seconds of the day, in the way `seconds_to_civil` splits them. -/
theorem split_seconds (seconds : Int) :
    (if seconds.tmod 86400 < 0 then (seconds.tdiv 86400 - 1, seconds.tmod 86400 + 86400)
      else (seconds.tdiv 86400, seconds.tmod 86400)) = (seconds / 86400, seconds % 86400) := by
  have whole := Int.tmod_add_mul_tdiv seconds 86400
  have upper := Int.tmod_lt_of_pos seconds (by omega : (0 : Int) < 86400)
  have lower := Int.lt_tmod_of_pos seconds (by omega : (0 : Int) < 86400)
  split
  · refine Prod.ext ?_ ?_
    · show seconds.tdiv 86400 - 1 = seconds / 86400
      omega
    · show seconds.tmod 86400 + 86400 = seconds % 86400
      omega
  · refine Prod.ext ?_ ?_
    · show seconds.tdiv 86400 = seconds / 86400
      omega
    · show seconds.tmod 86400 = seconds % 86400
      omega

/-- The time of the day out of its seconds. -/
theorem split_day {rem : Int} (nonneg : 0 ≤ rem) :
    rem.tdiv 3600 = rem / 3600 ∧ (rem.tdiv 60).tmod 60 = rem / 60 % 60 ∧
      rem.tmod 60 = rem % 60 := by
  refine ⟨Int.tdiv_eq_ediv_of_nonneg nonneg, ?_, Int.tmod_eq_emod_of_nonneg nonneg⟩
  rw [Int.tdiv_eq_ediv_of_nonneg nonneg]
  exact Int.tmod_eq_emod_of_nonneg (by omega)

/-- `secondsToCivil` with the days and the seconds of the day apart. -/
theorem secondsToCivil_eq (seconds : Int) :
    secondsToCivil seconds =
      let years := advance yearDays 2100 130 (seconds / 86400) 1970
      let months := advance (mdays years.2) 12 11 years.1 1
      { year := years.2, month := months.2, day := months.1 + 1,
        hour := seconds % 86400 / 3600, minute := seconds % 86400 / 60 % 60,
        second := seconds % 86400 % 60 } := by
  obtain ⟨hour, minute, second⟩ := split_day (Int.emod_nonneg seconds (by omega : (86400 : Int) ≠ 0))
  unfold secondsToCivil
  simp only [split_seconds, hour, minute, second]

/-- **The clock undoes `seconds_to_civil`**, whatever the seconds. -/
theorem rtcUnixSeconds_secondsToCivil (seconds : Int) :
    rtcUnixSeconds (secondsToCivil seconds) = seconds := by
  rw [secondsToCivil_eq]
  obtain ⟨k, year, years⟩ := total_advance yearDays 2100 130 (seconds / 86400) 1970
  obtain ⟨j, month, months⟩ :=
    total_advance (mdays (advance yearDays 2100 130 (seconds / 86400) 1970).2) 12 11
      (advance yearDays 2100 130 (seconds / 86400) 1970).1 1
  have count : (1970 + (k : Int) - 1970).toNat = k := by omega
  have count' : (1 + (j : Int) - 1).toNat = j := by omega
  unfold rtcUnixSeconds daysOfYears daysOfMonths
  dsimp only
  rw [month, count', year, count]
  rw [year] at months
  omega

/-- **`seconds_to_civil` undoes the clock** on a valid time. -/
theorem secondsToCivil_rtcUnixSeconds {t : Datetime} (valid : Valid t) :
    secondsToCivil (rtcUnixSeconds t) = t := by
  obtain ⟨start, inside⟩ := dayOfYear valid
  obtain ⟨hour, minute, second⟩ := And.intro valid.hour (And.intro valid.minute valid.second)
  set days := daysOfYears t.year + daysOfMonths t.year t.month + (t.day - 1) with days_eq
  have seconds : rtcUnixSeconds t = days * 86400 + t.hour * 3600 + t.minute * 60 + t.second := rfl
  have day : rtcUnixSeconds t / 86400 = days := by omega
  have rest : rtcUnixSeconds t % 86400 = t.hour * 3600 + t.minute * 60 + t.second := by omega
  have first : t.year = 1970 + ((t.year - 1970).toNat : Int) := by
    have := valid.year
    omega
  have years : advance yearDays 2100 130 days 1970 =
      (daysOfMonths t.year t.month + (t.day - 1), t.year) := by
    have found : advance yearDays 2100 130 (total yearDays 1970 (t.year - 1970).toNat +
        (daysOfMonths t.year t.month + (t.day - 1))) 1970 = (_, _) :=
      advance_total yearDays_nonneg start (by rwa [← first]) (by have := valid.year; omega)
        (by have := valid.year; omega)
    rw [← first] at found
    rw [days_eq, add_assoc]
    exact found
  have march : t.month = 1 + ((t.month - 1).toNat : Int) := by
    have := valid.month
    omega
  have months : advance (mdays t.year) 12 11 (daysOfMonths t.year t.month + (t.day - 1)) 1 =
      (t.day - 1, t.month) := by
    have found : advance (mdays t.year) 12 11
        (total (mdays t.year) 1 (t.month - 1).toNat + (t.day - 1)) 1 = (_, _) :=
      advance_total (mdays_nonneg t.year) (by have := valid.day; omega)
        (by rw [← march]; have := valid.day; omega) (by have := valid.month; omega)
        (by have := valid.month; omega)
    rw [← march] at found
    exact found
  rw [secondsToCivil_eq, day, rest]
  dsimp only
  rw [years]
  dsimp only
  rw [months]
  obtain ⟨year, month, dayOf, h, m, s⟩ := t
  dsimp only at hour minute second ⊢
  congr 1 <;> omega

end AtmKoala.Time
